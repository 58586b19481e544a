import Mathlib
import OwnLang.Proofs.Check.Body
import OwnLang.Proofs.Check.Invariant
import OwnLang.Proofs.Check.TypedValue

/-!
# The typing of checked bodies

What is checked of statements satisfies the typing rules, in the context at the end of their block
and so in the function's last one, which knows all of its locals. A session therefore accepts nothing
but what is well typed (`Session.elaboration_sound`).
-/

namespace OwnLang

open OwnLang.Core (TypeEnv)

/-- A statement is typed with what is known here. -/
def Core.Stmt.TypedAt (s : Core.Stmt) (c : Context) : Prop := s.Typed c.typeEnv c.here.returns

/-- A block is typed with what is known here. -/
def Core.Block.TypedAt (b : Core.Block) (c : Context) : Prop := b.Typed c.typeEnv c.here.returns

namespace Check

variable {ask : Asker} {scope : Scope} {origin c d : Context}

/-! ## Frames that typing does not tell apart -/

/-- A change of the frame that touches neither the locals nor what the function returns. -/
structure Moves (change : Frame → Frame) : Prop where
  locals : ∀ f, (change f).locals = f.locals
  returns : ∀ f, (change f).returns = f.returns

theorem moves_modifyTop (change : BlockFrame → BlockFrame) : Moves (·.modifyTop change) :=
  ⟨fun f => f.modifyTop_locals change, fun f => f.modifyTop_returns change⟩

theorem moves_openBlock : Moves Frame.openBlock := ⟨fun _ => rfl, fun _ => rfl⟩

theorem moves_closed : Moves closed := ⟨fun _ => rfl, fun _ => rfl⟩

theorem moves_enter (form : LoopForm) (id : LoopId) : Moves (form.enter id) :=
  ⟨fun _ => rfl, fun _ => rfl⟩

theorem moves_leaveLoop : Moves (closed ∘ leaveLoop) := ⟨fun _ => rfl, fun _ => rfl⟩

theorem moves_leaveUnreachable : Moves leaveUnreachable := ⟨fun _ => rfl, fun _ => rfl⟩

theorem here_moves {change : Frame → Frame} (h : Moves change) (c : Context) :
    (c.reframe change).here.locals = c.here.locals ∧
      (c.reframe change).here.returns = c.here.returns := by
  unfold Context.here Context.reframe
  cases c.frame with
  | none => exact ⟨rfl, rfl⟩
  | some f => exact ⟨h.locals f, h.returns f⟩

theorem typeEnv_moves {change : Frame → Frame} (h : Moves change) (c : Context) :
    (c.reframe change).typeEnv = c.typeEnv := by
  show c.envWith (c.reframe change).here.locals = c.envWith c.here.locals
  rw [(here_moves h c).1]

end Check

namespace Core

open Check (Moves here_moves typeEnv_moves)

variable {c d : Context}

theorem Stmt.TypedAt.moves {s : Stmt} (h : s.TypedAt c) {change : Frame → Frame}
    (hchange : Moves change) : s.TypedAt (c.reframe change) := by
  unfold Stmt.TypedAt
  rw [typeEnv_moves hchange, (here_moves hchange c).2]
  exact h

theorem Block.TypedAt.moves {b : Block} (h : b.TypedAt c) {change : Frame → Frame}
    (hchange : Moves change) : b.TypedAt (c.reframe change) := by
  unfold Block.TypedAt
  rw [typeEnv_moves hchange, (here_moves hchange c).2]
  exact h

theorem Stmt.TypedAt.onward {s : Stmt} (h : s.TypedAt c) (hd : Check.Onward c d) : s.TypedAt d := by
  unfold Stmt.TypedAt
  rw [hd.returns]
  exact h.mono hd.grows

theorem Block.TypedAt.onward {b : Block} (h : b.TypedAt c) (hd : Check.Onward c d) :
    b.TypedAt d := by
  unfold Block.TypedAt
  rw [hd.returns]
  exact h.mono hd.grows

end Core

namespace Check

/-! ## Contexts on the way -/

/-- Where the frame shows no local that it does not have, checking can go on. -/
theorem Ready.reframe (hc : Ready c) (change : Frame → Frame) (hchange : (change c.here).Scoped) :
    Ready (c.reframe change) := by
  refine ⟨(hc.elaborated.of_eq (d := c.reframe change) rfl rfl rfl).wellTyped, ?_⟩
  unfold Context.here at hchange
  unfold Context.here Context.reframe
  cases hframe : c.frame with
  | none => exact Frame.scoped_default
  | some f =>
    rw [hframe] at hchange
    exact hchange

theorem Ready.openBlock (hc : Ready c) : Ready (c.reframe Frame.openBlock) := by
  refine hc.reframe _ ⟨fun block hblock id hid => ?_, hc.visible.receiver⟩
  rcases List.mem_cons.mp hblock with rfl | hblock
  · cases hid
  · exact hc.visible.visible block hblock id hid

theorem Ready.enter (hc : Ready c) (form : LoopForm) (id : LoopId) :
    Ready (c.reframe (form.enter id)) :=
  hc.reframe _ ⟨hc.visible.visible, hc.visible.receiver⟩

/-- A region that no execution reaches is checked like any other. -/
theorem Ready.region (hc : Ready c) (warnings : Array Warning) :
    Ready ({ c with warnings }.reframe fun f => { f with unreachable := f.unreachable + 1 }) := by
  have hwarned : Ready { c with warnings } :=
    ⟨(hc.elaborated.of_eq (d := { c with warnings }) rfl rfl rfl).wellTyped, hc.visible⟩
  exact hwarned.reframe _ ⟨hwarned.visible.visible, hwarned.visible.receiver⟩

theorem isSome_reframe (c : Context) (change : Frame → Frame) :
    (c.reframe change).frame.isSome = c.frame.isSome := Option.isSome_map

theorem Ready.steps (hc : Ready c) {change : Frame → Frame}
    (hsteps : c.Steps Frame.Advances (c.reframe change)) : Onward c (c.reframe change) :=
  hc.onward (hc.elaborated.of_eq rfl rfl rfl) hsteps

section

variable (he : Elaborates ask)

include he

/-- Contexts stay well typed through all of checking bodies. -/
theorem elaborated_invariant : Invariant ask (Elaborated origin) where
  toStable := he.stable
  everyAnswer q := he.keeps origin q
  agrees _ _ h hc := hc.of_eq h.globals h.structs h.bodies
  bodyOpened _ _ _ hc := hc.of_eq rfl rfl rfl
  bodyClosed _ hc := hc.of_eq rfl rfl rfl
  param _ _ := preserves_declareLocal elaborated_modifyFrame _ _ _ _
  receiver _ _ := preserves_declareLocal elaborated_modifyFrame _ _ _ _
  declared := preserves_declStmt elaborated_modifyFrame he.stable

/-- Where a part of checking a body leads. -/
theorem Elaborates.checked (hc : Ready c) {α : Type} {work : Check α} {a : α} (h : work c = .ok a d)
    (hwork : ∀ P, Invariant ask P → work.Preserves P) (hsteps : c.Steps Frame.Advances d) :
    Onward c d :=
  hc.onward (hwork _ (elaborated_invariant he) (Run.ends_of_ok h) hc.elaborated) hsteps

theorem Elaborates.stmt (hc : Ready c) (hopen : c.frame.isSome) {s : Surface.Stmt} {out : Core.Stmt}
    (h : ask (.stmt s scope) c = .ok out d) : Onward c d ∧ out.TypedAt d := by
  have hd := he.checked hc h (fun _ hP => hP.everyAnswer _) (he.steady.stmt h)
  exact ⟨hd, he.sound hc h (hd.frame.trans hopen)⟩

theorem Elaborates.block (hc : Ready c) (hopen : c.frame.isSome) {b : Surface.Block}
    {out : Core.Block × BlockFrame} (h : ask (.block b scope) c = .ok out d) :
    Onward c d ∧ out.1.TypedAt d := by
  have hd := he.checked hc h (fun _ hP => hP.everyAnswer _) (he.steady.block h).advances
  exact ⟨hd, he.sound hc h (hd.frame.trans hopen)⟩

/-! ## Simple statements -/

omit he in
theorem onward_declareLocal {name : Surface.Ident} {t : Ty} {constant : Bool} {value : Option Const}
    {id : LocalId} (hc : Ready c) (h : declareLocal name t constant value c = .ok id d) :
    Onward c d ∧ (c.frame.isSome → d.typeEnv.slot id = some t) := by
  obtain ⟨rfl, rfl⟩ := declareLocal_eq_ok h
  refine ⟨hc.steps (c.steps_reframe_here (c.here.advances_declare rfl)), fun hopen => ?_⟩
  obtain ⟨f, hf⟩ := Option.isSome_iff_exists.mp hopen
  show ((c.reframe _).here.locals[c.here.locals.size]?).map (·.type) = some t
  unfold Context.here Context.reframe
  rw [hf]
  simp [declare]

theorem typed_declStmt (hc : Ready c) (hopen : c.frame.isSome) {decl : Surface.VarDecl}
    {kind : Core.StmtKind} (h : declStmt ask decl scope c = .ok kind d) (span : Span) (dead : Bool) :
    (Core.Stmt.mk kind span dead).TypedAt d := by
  obtain ⟨steps, rfl⟩ := declStmt_eq_ok h
  have hannotated := he.annotation hc steps.htype
  have hvalued : Onward steps.annotated steps.valued ∧ ∀ v, steps.value = some v →
      v.Typed steps.valued.typeEnv ∧ ∀ t, steps.declared = some t → v.type.same t := by
    rcases steps.hvalue with ⟨-, hnone, hsame⟩ | ⟨e, v, -, hv, hanswer⟩
    · rw [hsame, hnone]
      exact ⟨.refl hannotated.ready, fun v hv => by cases hv⟩
    · obtain ⟨hd, htyped⟩ := he.value hannotated.ready hanswer
      refine ⟨hd, fun v' hv' => ?_⟩
      cases hv.symm.trans hv'
      exact htyped
  have hcompleted := he.complete hvalued.1.ready steps.hcomplete
  have htaken : Onward steps.completed steps.taken := by
    rcases steps.htaken with ⟨-, -, hsame⟩ | ⟨v, -, hconsume⟩
    · rw [hsame]
      exact .refl hcompleted.ready
    · exact he.evaluated hcompleted.ready hconsume fun _ hP => hP.consume _
  obtain ⟨hd, hslot⟩ := onward_declareLocal htaken.ready steps.hdeclare
  have hbefore := ((hannotated.trans hvalued.1).trans hcompleted).trans htaken
  refine .declare (hslot (hbefore.frame.trans hopen)) fun v hv => ?_
  obtain ⟨htyped, hsame⟩ := hvalued.2 v hv
  refine ⟨htyped.mono ((hcompleted.trans htaken).trans hd).grows, ?_⟩
  rcases steps.hdeclared with hdeclared | ⟨-, htype⟩
  · exact hsame _ hdeclared
  · rw [hv, Option.map_some, Option.some.injEq] at htype
    rw [htype]
    exact Ty.same_refl _

omit he in
theorem onward_takeOwnership {place : Core.Place} {span : Span} {owned : Bool} (hc : Ready c)
    (h : takeOwnership place span c = .ok owned d) : Onward c d := by
  rcases takeOwnership_eq_ok h with ⟨-, -, rfl⟩ | ⟨-, id, -, -, rfl⟩
  · exact .refl hc
  · exact hc.steps (c.steps_reframe fun f => f.advances_own id)

theorem typed_assignStmt (hc : Ready c) {target value : Surface.Expr}
    {op : Option Surface.ArithmeticOp} {kind : Core.StmtKind}
    (h : assignStmt ask target op value scope c = .ok kind d) (span : Span) (dead : Bool) :
    (Core.Stmt.mk kind span dead).TypedAt d := by
  obtain ⟨steps, rfl⟩ := assignStmt_eq_ok h
  obtain ⟨hplaced, hplace⟩ := he.answer hc rfl steps.hplace
  have hplaceTyped : steps.place.Typed steps.placed.typeEnv := hplace
  have hvalued : Onward steps.placed steps.valued ∧ steps.source.Typed steps.valued.typeEnv ∧
      steps.source.type.same steps.place.type := by
    rcases steps.hsource with ⟨-, hanswer⟩ | ⟨o, right, -, hanswer, hint, hsource⟩
    · exact he.valueOf hplaced.ready hanswer
    · obtain ⟨hvalued, hright, hsame⟩ := he.valueOf hplaced.ready hanswer
      obtain ⟨width, hwidth⟩ : ∃ width, steps.place.type.shape = .int width := by
        cases hshape : steps.place.type.shape with
        | int width => exact ⟨width, rfl⟩
        | _ =>
          rw [hshape] at hint
          cases hint
      rw [hsource]
      refine ⟨hvalued, .arithmetic o.isArithmetic (.load (hplaceTyped.mono hvalued.grows)) hright
        hwidth hwidth (shape_of_same_int hsame hwidth), Ty.same_refl _⟩
  have htaken := he.evaluated hvalued.1.ready steps.htaken fun _ hP => hP.consume _
  have hlater := htaken.trans (onward_takeOwnership htaken.ready steps.hstored)
  exact .assign (hplaceTyped.mono (hvalued.1.trans hlater).grows) steps.hwritable
    (hvalued.2.1.mono hlater.grows) hvalued.2.2

theorem typed_exprStmt (hc : Ready c) {e : Surface.Expr} {kind : Core.StmtKind}
    (h : exprStmt ask e scope c = .ok kind d) (span : Span) (dead : Bool) :
    (Core.Stmt.mk kind span dead).TypedAt d := by
  obtain ⟨value, hvalue, rfl⟩ := exprStmt_eq_ok h
  exact .expr (typed_rawValue he hc hvalue)

omit he in
theorem same_of_isVoid {t u : Ty} (ht : t.shape.isVoid = true) (hu : u.shape.isVoid = true) :
    t.same u := by
  rw [Ty.same_shape]
  cases hshape : t.shape <;> cases hshape' : u.shape <;> simp_all [Shape.isVoid, Shape.same]

theorem typed_returnStmt (hc : Ready c) {value : Option Surface.Expr} {at' : Span}
    {kind : Core.StmtKind} (h : returnStmt ask value at' scope c = .ok kind d) (span : Span)
    (dead : Bool) : (Core.Stmt.mk kind span dead).TypedAt d := by
  obtain ⟨out, c₁, hout, rfl, rfl⟩ := returnStmt_eq_ok h
  refine Core.Stmt.TypedAt.moves ?_ (moves_modifyTop _)
  have hd := he.checked hc hout (fun _ hP => preserves_returnedValue hP.flat _ _ _ _)
    (rests_returnedValue he.steady hout).advances
  unfold Core.Stmt.TypedAt
  rw [hd.returns]
  rcases returnedValue_eq_ok hout with ⟨-, hvoid, rfl, rfl⟩ |
    ⟨e, v, -, hv, hvoid, hreturns, rfl⟩ | ⟨e, v, c₂, -, hv, htaken, rfl⟩
  · refine .ret (fun v hv => by cases hv) fun _ => ?_
    cases hshape : c₁.here.returns.shape <;> simp_all [Shape.isVoid]
  · refine .ret (fun v' hv' => ?_) fun hnone => by cases hnone
    cases hv'
    exact ⟨typed_rawValue he hc hv, same_of_isVoid hvoid hreturns⟩
  · refine .ret (fun v' hv' => ?_) fun hnone => by cases hnone
    cases hv'
    obtain ⟨hc₂, htyped, hsame⟩ := he.valueOf hc hv
    exact ⟨htyped.mono (he.evaluated hc₂.ready htaken fun _ hP => hP.consume _).grows, hsame⟩

/-! ## Blocks -/

theorem typed_unreachableStmts (hc : Ready c) (hopen : c.frame.isSome) {stmts : List Surface.Stmt}
    {out : List Core.Stmt} (h : unreachableStmts ask scope stmts c = .ok out d) :
    ∀ s ∈ out, s.TypedAt d := by
  induction stmts generalizing c out with
  | nil =>
    cases h
    simp
  | cons stmt rest ih =>
    obtain ⟨s, c₁, after, hs, hafter, rfl⟩ := unreachableStmts_cons_eq_ok h
    obtain ⟨hc₁, htyped⟩ := he.stmt hc hopen hs
    have hd := he.checked hc₁.ready hafter (fun _ hP => preserves_unreachableStmts hP.flat _ _)
      (advances_unreachableStmts he.steady hafter)
    intro s' hs'
    rcases List.mem_cons.mp hs' with rfl | hs'
    · exact (htyped.onward hd).flagged true
    · exact ih hc₁.ready (hc₁.frame.trans hopen) hafter s' hs'

theorem typed_checkStmts (hc : Ready c) (hopen : c.frame.isSome) {stmts : List Surface.Stmt}
    {out : List Core.Stmt} (h : checkStmts ask scope stmts c = .ok out d) :
    Onward c d ∧ ∀ s ∈ out, s.TypedAt d := by
  have hd := he.checked hc h (fun _ hP => preserves_checkStmts hP.flat _ _)
    (advances_checkStmts he.steady h)
  refine ⟨hd, ?_⟩
  clear hd
  induction stmts generalizing c out with
  | nil =>
    cases h
    simp
  | cons stmt rest ih =>
    rcases checkStmts_cons_eq_ok h with ⟨-, warnings, c₁, hdead, rfl, -⟩ | ⟨-, s, c₁, after, hs, hafter, rfl⟩
    · intro s hs
      refine Core.Stmt.TypedAt.moves ?_ moves_leaveUnreachable
      refine typed_unreachableStmts he (hc.region warnings) ?_ hdead s hs
      rw [isSome_reframe]
      exact hopen
    · obtain ⟨hc₁, htyped⟩ := he.stmt hc hopen hs
      have hd := he.checked hc₁.ready hafter (fun _ hP => preserves_checkStmts hP.flat _ _)
        (advances_checkStmts he.steady hafter)
      intro s' hs'
      rcases List.mem_cons.mp hs' with rfl | hs'
      · exact (htyped.onward hd).flagged _
      · exact ih hc₁.ready (hc₁.frame.trans hopen) hafter s' hs'

omit he in
/-- Handing moves on touches nothing that typing looks at. -/
theorem settleMoves_moves {block : BlockFrame} (h : settleMoves block c = .ok ⟨⟩ d) :
    ∃ change, Moves change ∧ d = c.reframe change := by
  have hsame : c = c.reframe id := by
    unfold Context.reframe
    cases hframe : c.frame <;> simp [← hframe]
  rcases settleMoves_eq_ok h with ⟨-, rfl⟩ | ⟨-, ⟨-, -, rfl⟩ | ⟨-, rfl⟩⟩
  · exact ⟨id, ⟨fun _ => rfl, fun _ => rfl⟩, hsame⟩
  · exact ⟨id, ⟨fun _ => rfl, fun _ => rfl⟩, hsame⟩
  · exact ⟨_, moves_modifyTop _, rfl⟩

theorem typed_checkBlock (hc : Ready c) (hopen : c.frame.isSome) {block : Surface.Block}
    {out : Core.Block × BlockFrame} (h : checkBlock ask block scope c = .ok out d) :
    out.1.TypedAt d := by
  obtain ⟨stmts, c₁, hstmts, hsettle, rfl⟩ := checkBlock_eq_ok h
  obtain ⟨-, htyped⟩ := typed_checkStmts he hc.openBlock
    ((isSome_reframe c _).trans hopen) hstmts
  obtain ⟨change, hchange, rfl⟩ := settleMoves_moves hsettle
  exact .mk fun s hs => ((htyped s hs).moves moves_closed).moves hchange

theorem typed_checkArm (hc : Ready c) (hopen : c.frame.isSome) {block : Surface.Block} {dead : Bool}
    {out : Core.Block × BlockFrame} (h : checkArm ask block dead scope c = .ok out d) :
    Onward c d ∧ out.1.TypedAt d := by
  have hd := he.checked hc h (fun _ hP => preserves_checkArm hP.flat _ _ _)
    (rests_checkArm he.steady h).advances
  refine ⟨hd, ?_⟩
  rcases checkArm_eq_ok h with ⟨-, hblock⟩ | ⟨-, warnings, c₁, hblock, rfl, -⟩
  · exact (he.block hc hopen hblock).2
  · refine Core.Block.TypedAt.moves ?_ moves_leaveUnreachable
    exact (he.block (hc.region warnings) ((isSome_reframe _ _).trans hopen) hblock).2

/-! ## Branches and loops -/

theorem typed_checkBranches (hc : Ready c) (hopen : c.frame.isSome) {b : Branching}
    {branches : List (Surface.Expr × Surface.Block)} {out : List (Core.Expr × Core.Block) × Branching}
    (h : checkBranches ask scope b branches c = .ok out d) :
    Onward c d ∧ ∀ branch ∈ out.1, branch.1.Typed d.typeEnv ∧ branch.1.type.shape = .bool ∧
      branch.2.TypedAt d := by
  have hd := he.checked hc h (fun _ hP => preserves_checkBranches hP.flat _ _ _)
    (rests_checkBranches he.steady h).advances
  refine ⟨hd, ?_⟩
  clear hd
  induction branches generalizing b c out with
  | nil =>
    cases h
    simp
  | cons branch rest ih =>
    obtain ⟨test, block, outcome, checked, b', c₁, c₂, htest, harm, hrest, rfl⟩ :=
      checkBranches_cons_eq_ok h
    obtain ⟨hc₁, htyped, hsame⟩ := he.valueOf hc htest
    obtain ⟨hc₂, hblock⟩ := typed_checkArm he hc₁.ready (hc₁.frame.trans hopen) harm
    have hd := he.checked hc₂.ready hrest (fun _ hP => preserves_checkBranches hP.flat _ _ _)
      (rests_checkBranches he.steady hrest).advances
    intro branch' hbranch
    rcases List.mem_cons.mp hbranch with rfl | hbranch
    · exact ⟨htyped.mono (hc₂.trans hd).grows, shape_of_same_bool hsame, hblock.onward hd⟩
    · exact ih hc₂.ready ((hc₁.trans hc₂).frame.trans hopen) hrest branch' hbranch

theorem typed_checkOtherwise (hc : Ready c) (hopen : c.frame.isSome) {b : Branching}
    {otherwise : Option Surface.Block} {out : Option Core.Block × Branching}
    (h : checkOtherwise ask scope b otherwise c = .ok out d) :
    Onward c d ∧ ∀ block, out.1 = some block → block.TypedAt d := by
  cases otherwise with
  | none =>
    cases h
    exact ⟨.refl hc, fun block hblock => by cases hblock⟩
  | some body =>
    obtain ⟨block, outcome, harm, rfl⟩ := checkOtherwise_some_eq_ok h
    obtain ⟨hd, htyped⟩ := typed_checkArm he hc hopen harm
    refine ⟨hd, fun block' hblock => ?_⟩
    cases hblock
    exact htyped

theorem typed_condStmt (hc : Ready c) (hopen : c.frame.isSome)
    {branches : List (Surface.Expr × Surface.Block)} {otherwise : Option Surface.Block}
    {kind : Core.StmtKind} (h : condStmt ask branches otherwise scope c = .ok kind d) (span : Span)
    (dead : Bool) : (Core.Stmt.mk kind span dead).TypedAt d := by
  obtain ⟨checked, b, last, b', c₁, c₂, hbranches, hotherwise, rfl, rfl⟩ := condStmt_eq_ok h
  obtain ⟨hc₁, hbranchesTyped⟩ := typed_checkBranches he hc hopen hbranches
  obtain ⟨hc₂, hlast⟩ := typed_checkOtherwise he hc₁.ready (hc₁.frame.trans hopen) hotherwise
  refine Core.Stmt.TypedAt.moves ?_ (moves_modifyTop _)
  refine .cond (fun branch hbranch => ?_) (fun branch hbranch => ?_) hlast
  · obtain ⟨htest, hbool, -⟩ := hbranchesTyped branch hbranch
    exact ⟨htest.mono hc₂.grows, hbool⟩
  · exact (hbranchesTyped branch hbranch).2.2.onward hc₂

theorem typed_optionalStmt (hc : Ready c) (hopen : c.frame.isSome) {stmt : Option Surface.Stmt}
    {out : Option Core.Stmt} (h : optionalStmt ask scope stmt c = .ok out d) :
    Onward c d ∧ ∀ s, out = some s → s.TypedAt d := by
  cases stmt with
  | none =>
    cases h
    exact ⟨.refl hc, fun s hs => by cases hs⟩
  | some stmt =>
    obtain ⟨s, hs, rfl⟩ := optionalStmt_some_eq_ok h
    obtain ⟨hd, htyped⟩ := he.stmt hc hopen hs
    refine ⟨hd, fun s' hs' => ?_⟩
    cases hs'
    exact htyped

theorem typed_loopCondition (hc : Ready c) {condition : Option Surface.Expr}
    {out : Option Core.Expr × Option Bool} (h : loopCondition ask scope condition c = .ok out d) :
    Onward c d ∧ ∀ test, out.1 = some test → test.Typed d.typeEnv ∧ test.type.shape = .bool := by
  cases condition with
  | none =>
    cases h
    exact ⟨.refl hc, fun test htest => by cases htest⟩
  | some e =>
    obtain ⟨test, htest, rfl⟩ := loopCondition_some_eq_ok h
    obtain ⟨hd, htyped, hsame⟩ := he.valueOf hc htest
    refine ⟨hd, fun test' htest' => ?_⟩
    cases htest'
    exact ⟨htyped, shape_of_same_bool hsame⟩

/-- All parts of a loop are typed behind its step. -/
theorem typed_loopSteps {id : LoopId} {form : LoopForm} (hc : Ready c) (hopen : c.frame.isSome)
    (steps : LoopSteps ask id form scope c d) (target : LoopId) (drops : List LocalId) (span : Span)
    (dead : Bool) : (Core.Stmt.mk (.loop target steps.init steps.condition steps.step steps.body drops)
      span dead).TypedAt d := by
  obtain ⟨hinit, hinitTyped⟩ := typed_optionalStmt he hc hopen steps.hinit
  have hentered := hinit.ready.enter form id
  obtain ⟨htest, htestTyped⟩ := typed_loopCondition he hentered steps.hcondition
  have hopen₁ : steps.tested.frame.isSome :=
    (htest.frame.trans (isSome_reframe _ _)).trans (hinit.frame.trans hopen)
  obtain ⟨hbody, hbodyTyped⟩ := typed_checkArm he htest.ready hopen₁ steps.hbody
  obtain ⟨hstep, hstepTyped⟩ :=
    typed_optionalStmt he hbody.ready (hbody.frame.trans hopen₁) steps.hstep
  have hrest := hbody.trans hstep
  refine .loop (fun s hs => ?_) (fun test htest' => ?_) hstepTyped (hbodyTyped.onward hstep)
  · exact ((hinitTyped s hs).moves (moves_enter form id)).onward (htest.trans hrest)
  · obtain ⟨htyped, hbool⟩ := htestTyped test htest'
    exact ⟨htyped.mono hrest.grows, hbool⟩

theorem typed_loopStmt (hc : Ready c) (hopen : c.frame.isSome) {form : LoopForm}
    {kind : Core.StmtKind} (h : loopStmt ask form scope c = .ok kind d) (span : Span) (dead : Bool) :
    (Core.Stmt.mk kind span dead).TypedAt d := by
  obtain ⟨c₁, c₂, steps, hsettle, hd, rfl⟩ := loopStmt_eq_ok h
  have hheader : Ready (header c) := by
    have hnumbered : Ready { c with loopCount := c.loopCount + 1 } :=
      ⟨(hc.elaborated.of_eq (d := { c with loopCount := c.loopCount + 1 }) rfl rfl rfl).wellTyped,
        hc.visible⟩
    exact hnumbered.openBlock
  have htyped := typed_loopSteps he hheader ((isSome_reframe _ _).trans hopen) steps
    ⟨c.loopCount + 1⟩ (endDrops c₁.here) span dead
  obtain ⟨change, hchange, rfl⟩ := settleMoves_moves hsettle
  have hclosed := (htyped.moves moves_leaveLoop).moves hchange
  rw [hd]
  split
  · exact hclosed.moves (moves_modifyTop _)
  · exact hclosed

theorem typed_scopeStmt (hc : Ready c) (hopen : c.frame.isSome) {block : Surface.Block}
    {kind : Core.StmtKind} (h : scopeStmt ask block scope c = .ok kind d) (span : Span)
    (dead : Bool) : (Core.Stmt.mk kind span dead).TypedAt d := by
  obtain ⟨out, c₁, hblock, rfl, rfl⟩ := scopeStmt_eq_ok h
  refine Core.Stmt.TypedAt.moves ?_ (moves_modifyTop _)
  exact .scope (he.block hc hopen hblock).2

omit he in
theorem typed_jumpStmt {jump : Jump} {label : Option Surface.Ident} {at' : Span}
    {kind : Core.StmtKind} (h : jumpStmt jump label at' c = .ok kind d) (span : Span) (dead : Bool) :
    (Core.Stmt.mk kind span dead).TypedAt d := by
  obtain ⟨i, loop, c₁, -, -, rfl, -⟩ := jumpStmt_eq_ok h
  cases jump with
  | brk => exact .brk
  | cont => exact .cont

theorem typed_checkStmt (hc : Ready c) (hopen : c.frame.isSome) {s : Surface.Stmt}
    {out : Core.Stmt} (h : checkStmt ask s scope c = .ok out d) : out.TypedAt d := by
  obtain ⟨kind, hkind, rfl⟩ := checkStmt_eq_ok h
  refine stmtKind_elim hkind ?_ ?_ ?_ ?_ ?_ ?_ ?_ ?_
  · exact fun _ _ h => typed_declStmt he hc hopen h _ _
  · exact fun _ _ _ _ h => typed_assignStmt he hc h _ _
  · exact fun _ _ h => typed_exprStmt he hc h _ _
  · exact fun _ _ h => typed_returnStmt he hc h _ _
  · exact fun _ _ _ h => typed_jumpStmt h _ _
  · exact fun _ _ _ h => typed_condStmt he hc hopen h _ _
  · exact fun _ _ h => typed_loopStmt he hc hopen h _ _
  · exact fun _ _ h => typed_scopeStmt he hc hopen h _ _

/-! ## Bodies -/

omit he in
theorem onward_declareParams {params : List (Surface.Param × Ty)} {ids : List LocalId}
    (hc : Ready c) (h : declareParams params c = .ok ids d) : Onward c d := by
  induction params generalizing c ids with
  | nil =>
    cases h
    exact .refl hc
  | cons param rest ih =>
    obtain ⟨id, c₁, hid, hrest⟩ := Run.bind_eq_ok.mp h
    obtain ⟨ids', c₂, hids, hreturn⟩ := Run.bind_eq_ok.mp hrest
    cases hreturn
    have hc₁ := (onward_declareLocal hc hid).1
    exact hc₁.trans (ih hc₁.ready hids)

omit he in
/-- The first parameter of a function is its receiver where it takes more than are written. -/
theorem receiver_of_hasType {decl : Surface.FnDecl} {owner : StructId} {t : Ty} {this : Ty}
    {rest : List Ty} {variadic : Bool} {returns : Ty} (ht : decl.HasType (some owner) t)
    (hshape : t.shape = .func (this :: rest) variadic returns)
    (hmore : decl.params.length < (this :: rest).length) :
    ∃ target constant, this.shape.pointee? = some (target, constant) ∧
      target.shape.struct? = some owner := by
  obtain ⟨receiver, params, variadic', returns', hfunc, hlength, hreceiver⟩ := ht
  rw [hshape] at hfunc
  injection hfunc with hparams
  rcases hreceiver with rfl | ⟨id, name, constant, howner, rfl⟩
  · rw [List.nil_append] at hparams
    rw [hparams, hlength] at hmore
    exact absurd hmore (Nat.lt_irrefl _)
  · cases howner
    obtain ⟨rfl, -⟩ := List.cons.inj hparams
    exact ⟨_, _, rfl, rfl⟩

omit he in
theorem ready_declareReceiver {decl : Surface.FnDecl} {owner : Option StructId} {t : Ty}
    {params : List Ty} {variadic : Bool} {returns : Ty} {out : List LocalId × List Ty}
    (ht : decl.HasType owner t) (hshape : t.shape = .func params variadic returns) (hc : Ready c)
    (hopen : c.frame.isSome) (h : declareReceiver decl owner params c = .ok out d) :
    Ready d ∧ d.frame.isSome ∧ d.here.returns = c.here.returns := by
  unfold declareReceiver at h
  cases owner with
  | none =>
    cases h
    exact ⟨hc, hopen, rfl⟩
  | some owner =>
    cases params with
    | nil =>
      cases h
      exact ⟨hc, hopen, rfl⟩
    | cons this rest =>
      dsimp only at h
      split at h
      · rename_i hmore
        obtain ⟨id, c₁, hid, hrest⟩ := Run.bind_eq_ok.mp h
        obtain ⟨u, c₂, hreceiver, hreturn⟩ := Run.bind_eq_ok.mp hrest
        cases hreceiver
        cases hreturn
        obtain ⟨hc₁, hslot⟩ := onward_declareLocal hc hid
        have hthis := hslot hopen
        obtain ⟨target, constant, hpointee, hstruct⟩ := receiver_of_hasType ht hshape hmore
        have hlt : id.index < c₁.here.locals.size := by
          by_contra hout
          have hnone : c₁.typeEnv.slot id = none := by
            show (c₁.here.locals[id.index]?).map (·.type) = none
            rw [Array.getElem?_eq_none (Nat.le_of_not_lt hout)]
            rfl
          cases hthis.symm.trans hnone
        have hmoves : Moves fun f => { f with receiver := some (id, owner) } :=
          ⟨fun _ => rfl, fun _ => rfl⟩
        refine ⟨hc₁.ready.reframe (fun f => { f with receiver := some (id, owner) })
          ⟨hc₁.ready.visible.visible, fun this' id' hset => ?_⟩, ?_,
          (here_moves hmoves c₁).2.trans hc₁.returns⟩
        · cases hset
          refine ⟨hlt, target, constant, ?_, hstruct⟩
          have htype := (typeEnv_slot hlt).symm.trans hthis
          rw [Option.some.injEq] at htype
          show (c₁.here.localAt id).type.shape.pointee? = _
          rw [show (c₁.here.localAt id).type = this from htype]
          exact hpointee
        · exact (isSome_reframe c₁ _).trans (hc₁.frame.trans hopen)
      · cases h
        exact ⟨hc, hopen, rfl⟩

/-- An accepted body is typed. -/
theorem typed_checkBody (hc : c.WellTyped) {id : GlobalId} {body : Body}
    (h : checkBody ask id c = .ok body d) : body.Typed d := by
  obtain ⟨decl, owner, t, params, variadic, returns, c₁, hkind, hglobal, hshape, hbody⟩ :=
    checkBody_eq_ok h
  obtain ⟨steps, rfl⟩ := checkTypedBody_eq_ok hbody
  have hc₁ : Elaborated c c₁ := he.keeps c _ (Run.ends_of_ok hglobal) ⟨.refl c, hc⟩
  have htype := he.global hc hglobal
  -- The declaration of the function is still that of its global.
  have hdecl : decl.HasType owner t := by
    obtain ⟨hstate, ht⟩ := Context.typeOf?_eq_some.mp htype
    refine hc₁.wellTyped.globals id decl owner t ?_ hstate ht
    rw [hc₁.keeps.kinds id ?_, hkind]
    by_contra hout
    rw [global_of_size_le (Nat.le_of_not_lt hout)] at hkind
    cases hkind
  have hlaid : Elaborated c₁ steps.laid :=
    preserves_completeParams (elaborated_invariant he).answers _ (Run.ends_of_ok steps.hlaid) hc₁.self
  have hopened : Ready (opened steps.laid id returns) := by
    refine ⟨(hlaid.of_eq (d := opened steps.laid id returns) rfl rfl rfl).wellTyped, ?_, ?_⟩
    · intro block hblock id' hid
      obtain rfl := List.mem_singleton.mp hblock
      cases hid
    · intro this id' hreceiver
      cases hreceiver
  obtain ⟨hreceived, hreceivedOpen, hreturns⟩ :=
    ready_declareReceiver hdecl hshape hopened rfl steps.hreceiver
  have hentered := onward_declareParams hreceived steps.hparams
  obtain ⟨hbehind, hstmts⟩ := typed_checkStmts he hentered.ready
    (hentered.frame.trans hreceivedOpen) steps.hstmts
  have hreturns : steps.behind.here.returns = returns :=
    (hbehind.returns.trans hentered.returns).trans hreturns
  have hlast : ∀ s ∈ steps.last, s.TypedAt steps.behind := by
    rcases finalReturn_eq_ok steps.hlast with ⟨-, hnone⟩ | ⟨-, hvoid, span, hlast⟩
    · simp [hnone]
    · intro s hs
      rw [hlast] at hs
      obtain rfl := List.mem_singleton.mp hs
      refine .ret (fun v hv => by cases hv) fun _ => ?_
      cases hshape : steps.behind.here.returns.shape <;> simp_all [Shape.isVoid]
  have hall : ∀ s ∈ steps.stmts ++ steps.last, s.TypedAt steps.behind := fun s hs =>
    (List.mem_append.mp hs).elim (hstmts s) (hlast s)
  refine ⟨.mk fun s hs => ?_, t, params, variadic, ?_, hshape⟩
  · have htyped := hall s hs
    unfold Core.Stmt.TypedAt at htyped
    rw [hreturns] at htyped
    have henv : d.envWith steps.behind.here.locals = steps.behind.typeEnv :=
      congrArg (·.envWith steps.behind.here.locals) steps.hclosed
    exact henv ▸ htyped
  · have hlater : Elaborated c₁ d := preserves_checkTypedBody (elaborated_invariant he) _ _ _ _ _ _ _
      (Run.ends_of_ok hbody) hc₁.self
    exact (hlater.keeps.extends #[]).global id t htype

theorem elaborated_lasting : Lasting ask (Elaborated origin) where
  toInvariant := elaborated_invariant he
  packages _ _ hc := hc.of_eq rfl rfl rfl
  entityDeclared := preserves_declareEntity elaborated_additive
  templateDeclared _ := preserves_declareTemplate (fun _ _ hc => hc.of_eq rfl rfl rfl)
    fun _ _ _ hc => hc.of_eq rfl rfl rfl
  bodyTaken _ _ _ _ hc := hc.of_eq rfl rfl rfl
  bodyAccepted c d id body hbody hc hd := by
    have htyped := typed_checkBody he hc.wellTyped hbody
    have hext (locals) : (d.envWith locals).Extends
        (Context.envWith { d with bodies := d.bodies.push body } locals) := .refl _
    refine ⟨⟨hd.keeps.globalCount, hd.keeps.structCount, hd.keeps.settled, hd.keeps.kinds,
      hd.keeps.structs⟩, hd.wellTyped.globals, hd.wellTyped.structs, fun other hother => ?_⟩
    rcases Array.mem_push.mp hother with hother | rfl
    · exact (hd.wellTyped.bodies other hother).mono hext
    · exact htyped.mono hext

/-- One step of nesting. -/
theorem Elaborates.step : Elaborates (step ask) where
  steady := he.steady.step
  keeps origin q := (elaborated_invariant he).step (elaborated_resolveGlobal he) q
  sound {c d q a} hc h := by
    cases q with
    | value e expected scope => exact typed_checkValue he hc h
    | denoted e write scope => exact typed_checkDenoted he hc h
    | layout id usedAt => exact complete_resolveStruct he hc.wellTyped h
    | global id usedAt => exact typeOf?_resolveGlobal he hc.wellTyped h
    | stmt s scope =>
      have hd := he.checked hc h (fun _ hP =>
        preserves_checkStmt hP.flat (preserves_loopStmt hP) _ _)
        (advances_checkStmt he.steady h)
      exact fun hopen => typed_checkStmt he hc (hd.frame.symm.trans hopen) h
    | block b scope =>
      have hd := he.checked hc h (fun _ hP => preserves_checkBlock hP _ _)
        (rests_checkBlock he.steady h).advances
      exact fun hopen => typed_checkBlock he hc (hd.frame.symm.trans hopen) h
    | type t scope => trivial
    | typeAlias id usedAt => trivial
  global hc h := typeOf?_resolveGlobal he hc h

end

theorem elaborates_answerTo (n : Nat) : Elaborates (answerTo n) := by
  induction n with
  | zero =>
    refine ⟨steady_answerTo 0, fun _ _ => Run.preserves_stop _, fun _ h => ?_, fun _ h => ?_⟩
    · cases h
    · cases h
  | succ n ih => exact ih.step

theorem elaborates_answer : Elaborates answer := elaborates_answerTo nestingBound

/-- A value that is checked against a type has that type, whatever the context. -/
theorem type_checkValue {e : Surface.Expr} {t : Ty} {value : Core.Expr}
    (h : checkValue ask e (some t) scope c = .ok value d) : value.type.same t := by
  obtain ⟨raw, c₁, hraw, hrest⟩ := Run.bind_eq_ok.mp h
  dsimp only at hrest
  split at hrest
  · cases hrest
  · obtain ⟨hcoerce, -⟩ := Run.ofExcept_eq_ok.mp hrest
    exact type_coerce hcoerce

end Check

namespace Session

open Check (answer)

theorem Reachable.wellTyped {c : Context} (hc : Reachable c) : c.WellTyped := by
  obtain ⟨options, hlater⟩ := hc
  refine (hlater.keeps (Check.elaborated_lasting Check.elaborates_answer)
    (P := Check.Elaborated { options }) ⟨.refl _, ?_, ?_, ?_⟩).wellTyped
  · intro id decl owner t hkind
    cases hkind
  · intro id
    exact ⟨fun _ => rfl, fun f hf => by cases hf⟩
  · intro body hbody
    simp at hbody

/-- Elaboration is type sound. Every body that a session has accepted satisfies the typing rules at
every node, with the types of its locals and the type that its function returns, and so does every
default of a field, which initializers use again. A value that is checked against a type has it. -/
theorem elaboration_sound {c : Context} (hc : Reachable c) :
    (∀ body ∈ c.bodies, body.Typed c) ∧
      (∀ id, ∀ field ∈ (c.struct id).fields, field.Sound (c.envWith #[])) ∧
      ∀ (c' d : Context) (e : Surface.Expr) (t : Ty) (scope : Scope) (value : Core.Expr),
        answer (.value e (some t) scope) c' = .ok value d → value.type.same t :=
  ⟨hc.wellTyped.bodies, fun id => (hc.wellTyped.structs id).defaults,
    fun _ _ _ _ _ _ h => Check.type_checkValue h⟩

/-- `fn widen(n: i32): i64 { var w: i64 = n; return w; }` -/
def widenModule : Surface.Module :=
  let type (name : String) : Surface.TypeExpr := .mk (.named [⟨name, .null⟩] []) .null
  let named (name : String) : Surface.Expr := .mk (.path [⟨name, .null⟩] []) .null
  let w : Surface.VarDecl :=
    { name := ⟨"w", .null⟩, constant := false, type := some (type "i64"), value := some (named "n") }
  let widen : Surface.FnDecl :=
    { name := ⟨"widen", .null⟩, kind := .plain, variadic := false, returns := some (type "i64")
      span := .null, params := [⟨⟨"n", .null⟩, type "i32"⟩]
      body := some (.mk [.mk (.decl w) .null, .mk (.ret (some (named "w"))) .null] .null) }
  { file := "widen.own", package := ⟨"widen", .null⟩, imports := []
    items := [⟨.function widen, [], .null⟩] }

/-- The integer is converted where the local is declared, which holds what the function returns. -/
theorem elaboration_sound_widen :
    ∃ c body, Reachable c ∧ body ∈ c.bodies ∧ body.locals.size = 2 ∧ body.Typed c := by
  have hrun : ((do
      Check.checkModules [widenModule]
      return (← get).bodies.toList.map (·.locals.size) : Check (List Nat))
      { options := .library }).value? = some [2] := by decide +kernel
  obtain ⟨_, hrun⟩ := Outcome.value?_eq_some.mp hrun
  obtain ⟨_, c, hmodules, hreturn⟩ := Run.bind_eq_ok.mp hrun
  have hc : Reachable c := ⟨.library, .single (.modules _ (Run.ends_of_ok hmodules))⟩
  have hsizes : c.bodies.toList.map (·.locals.size) = [2] := (Outcome.ok.inj hreturn).1
  obtain ⟨body, rest, hbodies, hsize, -⟩ := List.map_eq_cons_iff.mp hsizes
  have hbody : body ∈ c.bodies := by
    rw [← Array.mem_toList_iff, hbodies]
    exact List.mem_cons_self
  exact ⟨c, body, hc, hbody, hsize, (elaboration_sound hc).1 body hbody⟩

end Session

end OwnLang
