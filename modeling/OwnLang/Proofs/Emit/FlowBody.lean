import OwnLang.Proofs.Core.Nesting
import OwnLang.Proofs.Emit.FlowValue

/-!
# Statements from site to site

A statement that is emitted in an open block leaves a closed block where it jumps, and else an open one
(`Site.flows_emitStmt`). Behind a jump nothing is emitted of a tree that is pruned, so every statement is emitted in
an open block. No statement knows temporaries of another one: the labels of branches and loops are plain, and control
comes to them from anywhere.
-/

namespace OwnLang

open Ir (Build Label Operand Port Terminator)
open Emit (build build_apply)

namespace Site

variable {w : Site}

theorem isTerminated_apply (w : Site) : Emit.isTerminated w.state = .ok w.function.terminated w.state := by
  have hb : w.state.builder.isTerminated = w.function.terminated := by
    rw [Ir.Builder.isTerminated, w.isOpen]
    rfl
  rw [← hb]
  rfl

/-- What follows control that may have left the block. -/
theorem Flows.whether {α : Type} {owed : List Nat} {f : Bool → Emit α} {last : α → Site → Prop}
    (hf : w.Flows owed (f w.function.terminated) last) : w.Flows owed (Emit.isTerminated >>= f) last := by
  intro a t h
  obtain ⟨b, s, hb, hrest⟩ := Run.bind_eq_ok.mp h
  rw [isTerminated_apply] at hb
  cases hb
  exact hf hrest

theorem Flows.pure {α : Type} {a : α} {post : α → Site → Prop} (h : post a w) : w.Flows [] (Pure.pure a) post :=
  .of_eq rfl (.refl w) rfl h

/-- The block of a plain label is started. -/
theorem flows_placePlain {k : Nat} (hport : w.Has (.numbered k) .plain) :
    w.Flows [k] (build (Build.placeLabel (.numbered k))) fun _ w' => w'.function.terminated = false :=
  (flows_placeLabel hport id (fun _ => False.elim) fun _ _ => False.elim).mono (fun _ => id) fun _ _ _ hw' => hw'.1

/-- The block of a plain label that is owed is started ahead of what follows. -/
theorem Flows.placePlain {α : Type} {owed : List Nat} {k : Nat} {f : Unit → Emit α} {last : α → Site → Prop}
    (hport : w.Has (.numbered k) .plain)
    (hf : ∀ w', w.Leads w' → w'.function.terminated = false → w'.Flows owed (f ⟨⟩) last) :
    w.Flows (k :: owed) (build (Build.placeLabel (.numbered k)) >>= f) last :=
  .bind (flows_placePlain hport) fun _ w' => hf w'

/-- The labels of a loop are those of one that was entered. -/
theorem loopLabels_mem {id : LoopId} {labels : LoopLabels} {s t : Emitter} (h : Emit.loopLabels id s = .ok labels t) :
    (id, labels) ∈ s.loops := by
  obtain ⟨u, s₁, hget, h⟩ := Run.bind_eq_ok.mp h
  cases hget
  cases hfound : s.loops.lookup id with
  | none =>
    rw [hfound] at h
    cases h
  | some found =>
    rw [hfound] at h
    cases h
    obtain ⟨before, behind, hloops, -⟩ := List.lookup_eq_some_iff.mp hfound
    rw [hloops]
    exact List.mem_append_right _ List.mem_cons_self

/-! ## Statements that do not branch -/

theorem knows_zero (c : Context) (t : Ty) : w.Knows (c.zeroOf t).ref := by
  unfold Context.zeroOf
  dsimp only
  split <;> trivial

theorem evaluates_emitDeclare (id : LocalId) (value : Option Core.Expr) :
    w.Evaluates (Emit.emitDeclare id value) fun _ _ => True := by
  unfold Emit.emitDeclare
  refine (evaluates_slot id).bind fun (address, t) w₁ h₁ haddress => ?_
  cases value with
  | none => exact .reading fun c _ => evaluates_store (knows_zero c t) haddress
  | some value =>
    exact (evaluates_emitExpr value).bind fun content w₂ h₂ hcontent => evaluates_store hcontent (haddress.keeps h₂)

theorem evaluates_emitAssign (target : Core.Place) (value : Core.Expr) (releasePrior : Bool) :
    w.Evaluates (Emit.emitAssign target value releasePrior) fun _ _ => True := by
  unfold Emit.emitAssign
  refine (evaluates_emitExpr value).bind fun content w₁ h₁ hcontent => ?_
  refine (evaluates_emitPlace target).bind fun address w₂ h₂ haddress => ?_
  replace hcontent := hcontent.keeps h₂
  cases releasePrior with
  | false => exact evaluates_store hcontent haddress
  | true =>
    refine .reading fun type _ => (evaluates_load type haddress).bind fun prior w₃ h₃ hprior => ?_
    exact (evaluates_release target.type hprior).bind fun _ w₄ h₄ _ =>
      evaluates_store ((hcontent.keeps h₃).keeps h₄) ((haddress.keeps h₃).keeps h₄)

theorem evaluates_emitExprStmt (value : Core.Expr) (unused : Bool) :
    w.Evaluates (Emit.emitExprStmt value unused) fun _ _ => True := by
  unfold Emit.emitExprStmt
  refine (evaluates_emitExpr value).bind fun result w₁ _ hresult => .ite ?_ (.pure trivial)
  exact evaluates_release value.type hresult

theorem flows_emitReturn (value : Option Core.Expr) (drops : List LocalId) (hopen : w.function.terminated = false) :
    w.Flows [] (Emit.emitReturn value drops) fun _ w' => w'.function.terminated = true := by
  have hleave {result : Option Operand} {w₁ : Site} (hopen₁ : w₁.function.terminated = false)
      (hresult : ∀ a ∈ result, w₁.Knows a.ref) :
      w₁.Flows [] (do Emit.dropLocals drops; build (Build.ret result)) fun _ w' => w'.function.terminated = true := by
    refine .evaluating (evaluates_dropLocals drops) hopen₁ fun _ w₂ h₂ _ => ?_
    refine flows_terminate (fun r hr => ?_) (List.forall_mem_nil _) h₂.active
    obtain ⟨a, ha, rfl⟩ := List.mem_map.mp hr
    exact (hresult a (Option.eq_some_of_filter_eq_some (Option.mem_toList.mp ha))).keeps h₂
  unfold Emit.emitReturn
  cases value with
  | none => exact hleave hopen nofun
  | some value =>
    have hvalue : w.Evaluates (some <$> Emit.emitExpr value) fun result w' => ∀ a ∈ result, w'.Knows a.ref := by
      refine (evaluates_emitExpr value).bind fun a w' _ ha => .pure ?_
      rintro _ ⟨⟩
      exact ha
    exact .evaluating hvalue hopen fun result w₁ h₁ hresult => hleave h₁.active hresult

theorem flows_emitJump (id : LoopId) (drops : List LocalId) {label : LoopLabels → Label}
    (hlabel : ∀ labels : LoopLabels, label labels = labels.continueTo ∨ label labels = labels.breakTo)
    (hopen : w.function.terminated = false) :
    w.Flows [] (Emit.emitJump id drops label) fun _ w' => w'.function.terminated = true := by
  unfold Emit.emitJump
  refine .reading fun labels hlabels => ?_
  have hfree : w.Has (label labels) .plain := by
    have hmem : (id, labels) ∈ w.state.loops := loopLabels_mem hlabels
    rcases hlabel labels with heq | heq
    · rw [heq]
      exact (w.loops _ hmem).1
    · rw [heq]
      exact (w.loops _ hmem).2
  refine .evaluating (evaluates_dropLocals drops) hopen fun _ w₁ h₁ _ => ?_
  exact flows_br (hfree.extends h₁.toExtends)

/-! ## Branches -/

/-- A part that is emitted in an open block, wherever control goes from there. -/
def Emits (e : Emit Unit) : Prop :=
  ∀ w : Site, w.function.terminated = false → w.Flows [] e fun _ _ => True

theorem flows_emitBranch (condition : Core.Expr) {body : Emit Unit} (hbody : Emits body) {done : Label}
    (hdone : w.Has done .plain) (hopen : w.function.terminated = false) :
    w.Flows [] (Emit.emitBranch condition body done) fun _ w' => w'.function.terminated = false := by
  unfold Emit.emitBranch
  refine .evaluating (evaluates_emitExpr condition) hopen fun value w₁ h₁ hvalue => ?_
  refine .newLabel .plain (.newLabel .plain ?_)
  let u := (w₁.taking .plain).taking .plain
  have hu : w₁.Keeps u := (keeps_taking w₁ .plain h₁.active).trans (keeps_taking _ .plain h₁.active)
  have htaken : u.Has (.numbered (w₁.labels + 1)) .plain := (has_taking w₁ .plain).extends (extends_taking _ .plain)
  have hother : u.Has (.numbered (w₁.labels + 2)) .plain := has_taking _ .plain
  refine .ending hu.active (List.forall_mem_singleton.mpr (hvalue.keeps hu)) (List.forall_mem_cons.mpr
    ⟨htaken.admitsPlain, List.forall_mem_singleton.mpr hother.admitsPlain⟩) fun w₂ h₂ _ => ?_
  refine .placePlain (htaken.extends h₂.toExtends) fun w₃ h₃ hopen₃ => ?_
  refine .andThen (hbody w₃ hopen₃) fun _ w₄ h₄ _ => .whether ?_
  have hu₄ := (h₂.trans h₃).trans h₄
  cases w₄.function.terminated with
  | true => exact flows_placePlain (hother.extends hu₄.toExtends)
  | false =>
    have hdone₄ : w₄.Has done .plain := (hdone.extends h₁.toExtends).extends (hu.toLeads.trans hu₄).toExtends
    exact .andThen (flows_br hdone₄) fun _ w₅ h₅ _ => flows_placePlain (hother.extends (hu₄.trans h₅).toExtends)

/-! ## Loops -/

theorem flows_enterLoop (id : LoopId) {labels : LoopLabels} (hcontinue : w.Has labels.continueTo .plain)
    (hbreak : w.Has labels.breakTo .plain) : w.Flows [] (Emit.enterLoop id labels) fun _ _ => True := by
  have hloops : ∀ x ∈ (id, labels) :: w.state.loops, x.2.continueTo.Free w.start w.labels w.ports ∧
      x.2.breakTo.Free w.start w.labels w.ports := List.forall_mem_cons.mpr ⟨⟨hcontinue, hbreak⟩, w.loops⟩
  let w' := w.restating { w.state with loops := (id, labels) :: w.state.loops } rfl rfl w.slots hloops
  have hrun : Emit.enterLoop id labels w.state = .ok ⟨⟩ w'.state := rfl
  exact .of_eq hrun leads_restating rfl trivial

theorem flows_emitLoopTest (condition : Option Core.Expr) {first done : Label} (hfirst : w.Has first .plain)
    (hdone : w.Has done .plain) (hopen : w.function.terminated = false) :
    w.Flows [] (Emit.emitLoopTest condition first done) fun _ w' => w'.function.terminated = true := by
  unfold Emit.emitLoopTest
  cases condition with
  | none => exact flows_br hfirst
  | some test =>
    dsimp only
    split
    · exact flows_br hfirst
    · refine .evaluating (evaluates_emitExpr test) hopen fun value w₁ h₁ hvalue => ?_
      exact flows_terminate (List.forall_mem_singleton.mpr hvalue) (List.forall_mem_cons.mpr
        ⟨(hfirst.extends h₁.toExtends).admitsPlain,
          List.forall_mem_singleton.mpr (hdone.extends h₁.toExtends).admitsPlain⟩) h₁.active

/-- A loop starts the blocks of its test, its body, its step and what follows it. -/
theorem flows_emitLoop (id : LoopId) (condition : Option Core.Expr) {body step : Emit Unit} (hbody : Emits body)
    (hstep : Emits step) (exitDrops : List LocalId) :
    w.Flows [] (Emit.emitLoop id condition body step exitDrops) fun _ w' => w'.function.terminated = false := by
  unfold Emit.emitLoop
  refine .newLabel .plain (.newLabel .plain (.newLabel .plain (.newLabel .plain ?_)))
  let u := (((w.taking .plain).taking .plain).taking .plain).taking .plain
  have hdone : u.Has (.numbered (w.labels + 4)) .plain := has_taking _ .plain
  have hnext : u.Has (.numbered (w.labels + 3)) .plain := (has_taking _ .plain).extends (extends_taking _ .plain)
  have hfirst : u.Has (.numbered (w.labels + 2)) .plain :=
    ((has_taking _ .plain).extends (extends_taking _ .plain)).extends (extends_taking _ .plain)
  have hcheck : u.Has (.numbered (w.labels + 1)) .plain :=
    (((has_taking _ .plain).extends (extends_taking _ .plain)).extends (extends_taking _ .plain)).extends
      (extends_taking _ .plain)
  refine .andThen (flows_enterLoop id hnext hdone) fun _ w₁ h₁ _ => ?_
  refine .placePlain (hcheck.extends h₁.toExtends) fun w₂ h₂ hopen₂ => ?_
  have hu₂ := h₁.trans h₂
  refine .andThen (flows_emitLoopTest condition (hfirst.extends hu₂.toExtends) (hdone.extends hu₂.toExtends) hopen₂)
    fun _ w₃ h₃ _ => ?_
  have hu₃ := hu₂.trans h₃
  refine .placePlain (hfirst.extends hu₃.toExtends) fun w₄ h₄ hopen₄ => ?_
  refine .andThen (hbody w₄ hopen₄) fun _ w₅ h₅ _ => ?_
  have hu₅ := (hu₃.trans h₄).trans h₅
  refine .placePlain (hnext.extends hu₅.toExtends) fun w₆ h₆ hopen₆ => ?_
  refine .andThen (hstep w₆ hopen₆) fun _ w₇ h₇ _ => ?_
  have hu₇ := (hu₅.trans h₆).trans h₇
  refine .andThen (flows_br (hcheck.extends hu₇.toExtends)) fun _ w₈ h₈ _ => ?_
  refine .placePlain (hdone.extends (hu₇.trans h₈).toExtends) fun w₉ h₉ hopen₉ => ?_
  exact (evaluates_dropLocals exitDrops).flows hopen₉

/-! ## Statements -/

/-- Nothing is emitted of statements that are not reached. -/
theorem emitStmts_unreached {stmts : List Core.Stmt} (h : Core.Unreached stmts) :
    Emit.emitStmts stmts = pure () := by
  induction stmts with
  | nil => rw [Emit.emitStmts]
  | cons s rest ih =>
    obtain ⟨hs, hrest⟩ := List.forall_mem_cons.mp h
    rw [Emit.emitStmts, hs, ih hrest]
    rfl

mutual

theorem flows_emitBlock : ∀ (b : Core.Block) {w : Site}, b.Pruned → w.function.terminated = false →
    w.Flows [] (Emit.emitBlock b) fun _ w' => w'.function.terminated = b.jumps
  | .mk stmts drops, w, h, hopen => by
    unfold Emit.emitBlock
    refine .andThen (flows_emitStmts stmts h hopen) fun _ w₁ _ hjumps => .whether ?_
    show w₁.Flows [] _ fun _ w' => w'.function.terminated = Core.stmtsJump stmts
    rw [← hjumps]
    cases hended : w₁.function.terminated with
    | true => exact .pure hended
    | false => exact (evaluates_dropLocals drops).flows hended

theorem flows_emitStmts : ∀ (stmts : List Core.Stmt) {w : Site}, Core.stmtsPruned stmts →
    w.function.terminated = false →
    w.Flows [] (Emit.emitStmts stmts) fun _ w' => w'.function.terminated = Core.stmtsJump stmts
  | [], w, _, hopen => by
    unfold Emit.emitStmts
    exact .pure hopen
  | s :: rest, w, h, hopen => by
    obtain ⟨hs, hbehind, hrest⟩ := h
    unfold Emit.emitStmts
    cases hdead : s.unreachable with
    | true =>
      have hsame : Core.stmtsJump (s :: rest) = Core.stmtsJump rest := by
        rw [Core.stmtsJump, hdead]
        rfl
      rw [hsame]
      exact flows_emitStmts rest hrest hopen
    | false =>
      refine .andThen (flows_emitStmt s hs hopen) fun _ w₁ _ hended => ?_
      have hsame : Core.stmtsJump (s :: rest) = (s.jumps || Core.stmtsJump rest) := by
        rw [Core.stmtsJump, hdead]
        rfl
      rw [hsame]
      cases hjumps : s.jumps with
      | true =>
        have hnone := emitStmts_unreached (hbehind hdead hjumps)
        rw [hnone]
        exact .pure (hended.trans hjumps)
      | false => exact flows_emitStmts rest hrest (hended.trans hjumps)

theorem flows_emitStmt : ∀ (s : Core.Stmt) {w : Site}, s.Pruned → w.function.terminated = false →
    w.Flows [] (Emit.emitStmt s) fun _ w' => w'.function.terminated = s.jumps
  | .mk kind _ _, w, h, hopen => by
    unfold Emit.emitStmt
    exact flows_emitStmtKind kind h hopen

theorem flows_emitStmtKind : ∀ (kind : Core.StmtKind) {w : Site}, kind.Pruned → w.function.terminated = false →
    w.Flows [] (Emit.emitStmtKind kind) fun _ w' => w'.function.terminated = kind.jumps
  | .declare id value, w, _, hopen => by
    unfold Emit.emitStmtKind
    exact (evaluates_emitDeclare id value).flows hopen
  | .assign target value releasePrior, w, _, hopen => by
    unfold Emit.emitStmtKind
    exact (evaluates_emitAssign target value releasePrior).flows hopen
  | .expr value unused, w, _, hopen => by
    unfold Emit.emitStmtKind
    exact (evaluates_emitExprStmt value unused).flows hopen
  | .ret value drops, w, _, hopen => by
    unfold Emit.emitStmtKind
    exact flows_emitReturn value drops hopen
  | .brk id drops, w, _, hopen => by
    unfold Emit.emitStmtKind
    exact flows_emitJump id drops (fun _ => .inr rfl) hopen
  | .cont id drops, w, _, hopen => by
    unfold Emit.emitStmtKind
    exact flows_emitJump id drops (fun _ => .inl rfl) hopen
  | .cond branches otherwise, w, h, hopen => by
    unfold Emit.emitStmtKind
    refine .newLabel .plain ?_
    have hdone := has_taking w .plain
    refine .andThen (flows_emitBranches branches (emits_emitOptionalBlock otherwise h.2) h.1 hdone hopen)
      fun _ w₁ h₁ _ => ?_
    exact flows_placePlain (hdone.extends h₁.toExtends)
  | .loop loop init condition step body exitDrops, w, h, hopen => by
    unfold Emit.emitStmtKind
    have hbody : Emits (Emit.emitBlock body) := fun w' hopen' =>
      (flows_emitBlock body h.2.2 hopen').mono (fun _ => id) fun _ _ _ _ => trivial
    refine .andThen (emits_emitOptionalStmt init h.1 w hopen) fun _ w₁ _ _ => ?_
    exact flows_emitLoop loop condition hbody (emits_emitOptionalStmt step h.2.1) exitDrops
  | .scope block, w, h, hopen => by
    unfold Emit.emitStmtKind
    exact flows_emitBlock block h hopen

theorem flows_emitBranches : ∀ (branches : List (Core.Expr × Core.Block)) {w : Site} {otherwise : Emit Unit}
    {done : Label}, Emits otherwise → Core.branchesPruned branches → w.Has done .plain →
    w.function.terminated = false → w.Flows [] (Emit.emitBranches done branches otherwise) fun _ _ => True
  | [], w, otherwise, done, hotherwise, _, _, hopen => by
    unfold Emit.emitBranches
    exact hotherwise w hopen
  | (condition, body) :: rest, w, otherwise, done, hotherwise, h, hdone, hopen => by
    have hbody : Emits (Emit.emitBlock body) := fun w' hopen' =>
      (flows_emitBlock body h.1 hopen').mono (fun _ => id) fun _ _ _ _ => trivial
    unfold Emit.emitBranches
    cases condition.known? with
    | none =>
      refine .andThen (flows_emitBranch condition hbody hdone hopen) fun _ w₁ h₁ hopen₁ => ?_
      exact flows_emitBranches rest hotherwise h.2 (hdone.extends h₁.toExtends) hopen₁
    | some known =>
      cases known with
      | false => exact flows_emitBranches rest hotherwise h.2 hdone hopen
      | true => exact hbody w hopen

theorem emits_emitOptionalBlock : ∀ (b : Option Core.Block), Core.otherwisePruned b →
    Emits (Emit.emitOptionalBlock b)
  | none, _ => by
    unfold Emit.emitOptionalBlock
    exact fun _ _ => .pure trivial
  | some b, h => by
    unfold Emit.emitOptionalBlock
    exact fun w hopen => (flows_emitBlock b h hopen).mono (fun _ => id) fun _ _ _ _ => trivial

theorem emits_emitOptionalStmt : ∀ (s : Option Core.Stmt), Core.optionalPruned s →
    Emits (Emit.emitOptionalStmt s)
  | none, _ => by
    unfold Emit.emitOptionalStmt
    exact fun _ _ => .pure trivial
  | some s, h => by
    unfold Emit.emitOptionalStmt
    exact fun w hopen => (flows_emitStmt s h hopen).mono (fun _ => id) fun _ _ _ _ => trivial

end

end Site

end OwnLang
