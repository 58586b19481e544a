import Mathlib
import OwnLang.Proofs.Check.Still

/-!
# What control does to a context

Checking a statement opens and closes blocks and loops, moves locals and goes on from a point that
control reaches or does not. Contexts that differ in nothing else agree (`Context.Agrees`), and they
resemble each other if the same blocks and loops are open, with the same locals
(`Context.Resembles`). The parts of checking statements that put no questions change nothing else.
-/

namespace OwnLang

open Surface (Ident)

/-- The name of a local, and the depth of its block. -/
def Local.entry (l : Local) : Ident × Nat := (l.name, l.depth)

/-- What a frame knows of its locals whatever control does. -/
def Frame.facts (f : Frame) : Array (Ty × Bool × Option Const) :=
  f.locals.map fun l => (l.type, l.constant, l.value)

/-- How many blocks and how many loops are open. -/
def Frame.levels (f : Frame) : Nat × Nat := (f.blocks.length, f.loops.length)

namespace Frame

/-- The locals of the open blocks, the innermost block in front, and in each the last declared. -/
def stack (f : Frame) : List (List LocalId) := f.blocks.map (·.locals)

/-- The depths of the bodies of the open loops, the innermost loop in front. -/
def loopDepths (f : Frame) : List Nat := f.loops.map (·.bodyDepth)

/-- What is open, and the names and the depths of all locals. -/
def outline (f : Frame) : List (List LocalId) × List Nat × Array (Ident × Nat) :=
  (f.stack, f.loopDepths, f.locals.map Local.entry)

theorem stack_modifyTop {f : Frame} {change : BlockFrame → BlockFrame}
    (h : ∀ b, (change b).locals = b.locals) : (f.modifyTop change).stack = f.stack := by
  unfold stack modifyTop
  split
  · rfl
  · rename_i block rest hblocks
    rw [hblocks, List.map_cons, List.map_cons, h block]

theorem stack_modifyBlock {f : Frame} (depth : Nat) {change : BlockFrame → BlockFrame}
    (h : ∀ b, (change b).locals = b.locals) : (f.modifyBlock depth change).stack = f.stack := by
  apply List.ext_getElem
  · simp [stack, modifyBlock]
  · intro i hi hi'
    simp only [stack, modifyBlock, List.getElem_map, List.getElem_modify]
    split
    · exact h _
    · rfl

variable (f : Frame)

@[simp] theorem facts_openBlock : f.openBlock.facts = f.facts := rfl

@[simp] theorem facts_modifyTop (change : BlockFrame → BlockFrame) :
    (f.modifyTop change).facts = f.facts := by
  unfold modifyTop
  split <;> rfl

@[simp] theorem facts_modifyBlock (depth : Nat) (change : BlockFrame → BlockFrame) :
    (f.modifyBlock depth change).facts = f.facts := rfl

/-- What is read of locals apart from their ownership. -/
theorem map_modifyLocal {α : Type} (read : Local → α) (id : LocalId) (o : Ownership)
    (h : ∀ l : Local, read { l with ownership := o } = read l) :
    (f.modifyLocal id fun l => { l with ownership := o }).locals.map read = f.locals.map read := by
  unfold modifyLocal
  apply Array.ext
  · simp
  · intro i hi hi'
    simp only [Array.getElem_map, Array.getElem_modify]
    split
    · exact h _
    · rfl

theorem facts_modifyLocal (id : LocalId) (o : Ownership) :
    (f.modifyLocal id fun l => { l with ownership := o }).facts = f.facts :=
  f.map_modifyLocal _ id o fun _ => rfl

@[simp] theorem facts_leaveUnreachable : (Check.leaveUnreachable f).facts = f.facts := rfl

@[simp] theorem levels_modifyTop (change : BlockFrame → BlockFrame) :
    (f.modifyTop change).levels = f.levels := by
  unfold modifyTop
  split
  · rfl
  · rename_i hblocks
    simp [levels, hblocks]

@[simp] theorem outline_modifyTop {change : BlockFrame → BlockFrame}
    (h : ∀ b, (change b).locals = b.locals) : (f.modifyTop change).outline = f.outline := by
  have hstack := stack_modifyTop (f := f) h
  unfold modifyTop at hstack ⊢
  split at hstack
  · rfl
  · exact congrArg (·, f.loopDepths, f.locals.map Local.entry) hstack

@[simp] theorem outline_modifyBlock (depth : Nat) {change : BlockFrame → BlockFrame}
    (h : ∀ b, (change b).locals = b.locals) : (f.modifyBlock depth change).outline = f.outline :=
  congrArg (·, f.loopDepths, f.locals.map Local.entry) (stack_modifyBlock depth h)

theorem outline_modifyLocal (id : LocalId) (o : Ownership) :
    (f.modifyLocal id fun l => { l with ownership := o }).outline = f.outline :=
  congrArg (f.stack, f.loopDepths, ·) (f.map_modifyLocal _ id o fun _ => rfl)

@[simp] theorem outline_leaveUnreachable : (Check.leaveUnreachable f).outline = f.outline := rfl

end Frame

@[simp] theorem Check.Branching.locals_leave (b : Branching) (block : BlockFrame) :
    (b.leave block).locals = block.locals := by
  unfold leave
  split
  · split <;> rfl
  · rfl

/-- The contexts differ at most in where control is and which locals are moved. -/
structure Context.Agrees (c d : Context) : Prop where
  options : d.options = c.options
  packages : d.packages = c.packages
  globals : d.globals = c.globals
  structs : d.structs = c.structs
  aliases : d.aliases = c.aliases
  macros : d.macros = c.macros
  templates : d.templates = c.templates
  bodies : d.bodies = c.bodies
  inProgress : d.inProgress = c.inProgress
  bodyDepth : d.bodyDepth = c.bodyDepth
  facts : d.frame.map Frame.facts = c.frame.map Frame.facts

/-- The contexts agree, and the same blocks and loops are open, with the same locals. -/
structure Context.Resembles (c d : Context) : Prop extends c.Agrees d where
  outline : d.frame.map Frame.outline = c.frame.map Frame.outline

namespace Context

variable {c d e : Context}

theorem Agrees.refl (c : Context) : c.Agrees c := by constructor <;> rfl

theorem Agrees.symm (h : c.Agrees d) : d.Agrees c where
  options := h.options.symm
  packages := h.packages.symm
  globals := h.globals.symm
  structs := h.structs.symm
  aliases := h.aliases.symm
  macros := h.macros.symm
  templates := h.templates.symm
  bodies := h.bodies.symm
  inProgress := h.inProgress.symm
  bodyDepth := h.bodyDepth.symm
  facts := h.facts.symm

theorem Agrees.trans (h : c.Agrees d) (h' : d.Agrees e) : c.Agrees e where
  options := h'.options.trans h.options
  packages := h'.packages.trans h.packages
  globals := h'.globals.trans h.globals
  structs := h'.structs.trans h.structs
  aliases := h'.aliases.trans h.aliases
  macros := h'.macros.trans h.macros
  templates := h'.templates.trans h.templates
  bodies := h'.bodies.trans h.bodies
  inProgress := h'.inProgress.trans h.inProgress
  bodyDepth := h'.bodyDepth.trans h.bodyDepth
  facts := h'.facts.trans h.facts

theorem Resembles.refl (c : Context) : c.Resembles c := ⟨.refl c, rfl⟩

theorem Resembles.symm (h : c.Resembles d) : d.Resembles c := ⟨h.toAgrees.symm, h.outline.symm⟩

theorem Resembles.trans (h : c.Resembles d) (h' : d.Resembles e) : c.Resembles e :=
  ⟨h.toAgrees.trans h'.toAgrees, h'.outline.trans h.outline⟩

theorem Resembles.levels (h : c.Resembles d) : d.frame.map Frame.levels = c.frame.map Frame.levels := by
  have hlevels : Frame.levels = (fun o => (o.1.length, o.2.1.length)) ∘ Frame.outline := by
    funext f
    simp [Frame.levels, Frame.outline, Frame.stack, Frame.loopDepths]
  rw [hlevels, ← Option.map_map, h.outline, Option.map_map]

theorem agrees_reframe (c : Context) {change : Frame → Frame}
    (hf : ∀ f, (change f).facts = f.facts) : c.Agrees { c with frame := c.frame.map change } :=
  { Agrees.refl c with facts := by simp only [Option.map_map, Function.comp_def, hf] }

theorem resembles_reframe (c : Context) {change : Frame → Frame}
    (hf : ∀ f, (change f).facts = f.facts ∧ (change f).outline = f.outline) :
    c.Resembles { c with frame := c.frame.map change } :=
  ⟨c.agrees_reframe fun f => (hf f).1, by simp only [Option.map_map, Function.comp_def, hf]⟩

end Context

namespace Check

theorem carryMoves_facts {f g : Frame} {jump : Jump} {loop : LoopFrame}
    (hg : carryMoves f jump loop = .ok g) : g.facts = f.facts := by
  unfold carryMoves at hg
  dsimp only at hg
  split at hg
  · cases hg
  · cases hg; rfl
  · cases hg
    split
    · rfl
    · exact f.facts_modifyBlock _ _

/-- A loop that is left stays open. -/
theorem outline_left (f : Frame) (i : Nat) :
    ({ f with loops := f.loops.modify i fun l => { l with hasBreak := true } } : Frame).outline =
      f.outline := by
  refine congrArg (f.stack, ·, f.locals.map Local.entry) (List.ext_getElem ?_ ?_)
  · simp [Frame.loopDepths]
  · intro j hj hj'
    simp only [Frame.loopDepths, List.getElem_map, List.getElem_modify]
    split <;> rfl

theorem carryMoves_outline {f g : Frame} {jump : Jump} {loop : LoopFrame}
    (hg : carryMoves f jump loop = .ok g) : g.outline = f.outline := by
  unfold carryMoves at hg
  dsimp only at hg
  split at hg
  · cases hg
  · cases hg; rfl
  · cases hg
    split
    · rfl
    · exact f.outline_modifyBlock _ fun _ => rfl

/-- The frame that a state is given keeps the facts of the frame that it had, and its outline. -/
theorem replaceFrame_resembles {c : Context} {f : Frame}
    (hf : f.facts = (c.frame.getD default).facts) (ho : f.outline = (c.frame.getD default).outline) :
    c.Resembles { c with frame := c.frame.map fun _ => f } := by
  refine ⟨{ Context.Agrees.refl c with facts := ?_ }, ?_⟩ <;> cases hc : c.frame with
  | none => rfl
  | some g => simp [hf, ho, hc]

section

variable {P : Context → Prop} (hP : ∀ c d : Context, c.Resembles d → P c → P d)

include hP

theorem preserves_modifyFrame {change : Frame → Frame}
    (hf : ∀ f, (change f).facts = f.facts ∧ (change f).outline = f.outline) :
    (modifyFrame change).Preserves P :=
  Run.preserves_modify fun c hc => hP c _ (c.resembles_reframe hf) hc

theorem preserves_warn (kind : WarningKind) (span : Span) : (warn kind span).Preserves P :=
  Run.preserves_modify fun c hc => hP c _ ⟨{ Context.Agrees.refl c with }, rfl⟩ hc

theorem preserves_newLoop : newLoop.Preserves P := by
  unfold newLoop
  refine (Run.preserves_modify fun c hc => ?_).bind fun _ =>
    Run.preserves_get.bind fun _ => Run.preserves_pure _
  exact hP c _ ⟨{ Context.Agrees.refl c with }, rfl⟩ hc

theorem preserves_warnUnreachable (stmts : List Surface.Stmt) :
    (warnUnreachable stmts).Preserves P := by
  unfold warnUnreachable
  split
  · refine (preserves_frame.bind fun _ => Run.preserves_pure _ : isUnreachable.Preserves P).bind
      fun dead => ?_
    split
    · exact preserves_warn hP _ _
    · exact Run.preserves_pure _
  · exact Run.preserves_pure _

theorem preserves_settleMoves (block : BlockFrame) : (settleMoves block).Preserves P := by
  unfold settleMoves
  split
  · exact Run.preserves_pure _
  · refine preserves_frame.bind fun f => ?_
    dsimp only
    split
    · split
      · exact Run.preserves_fail _
      · exact Run.preserves_pure _
    · exact preserves_modifyFrame hP fun f =>
        ⟨f.facts_modifyTop _, f.outline_modifyTop fun _ => rfl⟩

theorem preserves_jumpStmt (jump : Jump) (label : Option Ident) (span : Span) :
    (jumpStmt jump label span).Preserves P := by
  intro c t ht hc
  unfold jumpStmt at ht
  obtain ht | ⟨f, s₁, hf, ht⟩ := Run.ends_bind ht
  · exact preserves_frame ht hc
  obtain ⟨rfl, rfl⟩ : f = c.frame.getD default ∧ s₁ = c := by
    cases hf; exact ⟨rfl, rfl⟩
  clear hf
  split at ht
  · exact Run.preserves_reject _ _ ht hc
  · extract_lets +onlyGivenNames leave at ht
    have hleave (u) : (leave u).Preserves P := by
      refine preserves_frame.bind fun _ =>
        (preserves_modifyFrame hP fun f => by simp).bind fun _ => Run.preserves_pure _
    split at ht
    · obtain hend | ⟨carried, s₁, hcarried, hend⟩ := Run.ends_bind ht
      · exact Run.preserves_ofExcept _ hend hc
      obtain ⟨hcarried, rfl⟩ := Run.ofExcept_eq_ok.mp hcarried
      have hfacts : carried.facts = (s₁.frame.getD default).facts := by
        rw [carryMoves_facts hcarried]
        split <;> rfl
      have houtline : carried.outline = (s₁.frame.getD default).outline := by
        rw [carryMoves_outline hcarried]
        split
        · exact outline_left _ _
        · rfl
      have hc' := hP s₁ _ (replaceFrame_resembles hfacts houtline) hc
      obtain hend | ⟨u, s₂, hs₂, hend⟩ := Run.ends_bind hend
      · rw [Run.ends_modify hend]
        exact hc'
      · cases hs₂
        exact hleave ⟨⟩ hend hc'
    · exact hleave ⟨⟩ ht hc

theorem preserves_takeOwnership (place : Core.Place) (span : Span) :
    (takeOwnership place span).Preserves P := by
  unfold takeOwnership
  split
  · exact Run.preserves_pure _
  · split
    · refine preserves_frame.bind fun f => (preserves_modifyFrame hP fun f => ?_).bind fun _ =>
        Run.preserves_pure _
      simp [Frame.facts_modifyLocal, Frame.outline_modifyLocal]
    · exact Run.preserves_reject _ _

end

/-! ## Properties that no frame matters to -/

section

variable {P : Context → Prop} (hP : ∀ change, (modifyFrame change).Preserves P)

include hP

theorem preserves_consume (value : Core.Expr) : (consume value).Preserves P := by
  unfold consume
  split
  · exact Run.preserves_pure _
  · split
    · exact Run.preserves_pure _
    · split
      · exact (hP _).bind fun _ => preserves_frame.bind fun _ =>
          (Run.preserves_ofExcept _).bind fun _ => hP _
      · exact Run.preserves_reject _ _

theorem preserves_declareLocal (name : Ident) (t : Ty) (constant : Bool) (value : Option Const) :
    (declareLocal name t constant value).Preserves P := by
  unfold declareLocal
  refine preserves_frame.bind fun f => ?_
  extract_lets +onlyGivenNames clash id added add
  clear_value clash
  have hadd : (add ⟨⟩).Preserves P := (hP _).bind fun _ => Run.preserves_pure _
  split
  · exact (Run.preserves_fail _).bind fun _ => hadd
  · exact hadd

end

end Check

end OwnLang
