import Mathlib
import OwnLang.Proofs.Check.GuardValue

/-!
# Guarded bodies

What is checked of statements keeps to what may be written, in the context at the end of their block and
so in the function's last one, which knows all of its locals. A session therefore accepts nothing
that writes to what is constant (`Session.write_permission_sound`).
-/

namespace OwnLang

open OwnLang.Core (AccessEnv)

namespace Check

variable {ask : Asker} {scope : Scope} {origin c d : Context}

/-! ## Frames that guarding does not tell apart -/

theorem access_moves {change : Frame → Frame} (h : Moves change) (c : Context) :
    (c.reframe change).access = c.access := by
  show c.accessWith (c.reframe change).here.locals = c.accessWith c.here.locals
  rw [(here_moves h c).1]

/-- Checking can go on in another frame with the same locals and the same receiver. -/
theorem Watched.reframe (hc : Watched c) {change : Frame → Frame} (h : Moves change)
    (hready : Ready (c.reframe change)) (hreceiver : ∀ f, (change f).receiver = f.receiver) :
    Watched (c.reframe change) := by
  refine ⟨hready, (hc.guarding.of_eq (d := c.reframe change) rfl rfl rfl).guarded, ?_⟩
  intro this id hthis
  have hsame : (c.reframe change).here.receiver = c.here.receiver := by
    unfold Context.here Context.reframe
    cases c.frame with
    | none => rfl
    | some f => exact hreceiver f
  show ((c.reframe change).here.localAt this).constant = true
  unfold Frame.localAt
  rw [(here_moves h c).1]
  exact hc.receiver this id (hsame ▸ hthis)

theorem Watched.openBlock (hc : Watched c) : Watched (c.reframe Frame.openBlock) :=
  hc.reframe moves_openBlock hc.ready.openBlock fun _ => rfl

theorem Watched.enter (hc : Watched c) (form : LoopForm) (id : LoopId) :
    Watched (c.reframe (form.enter id)) :=
  hc.reframe (moves_enter form id) (hc.ready.enter form id) fun _ => rfl

/-- A region that no execution reaches is checked like any other. -/
theorem Watched.region (hc : Watched c) (warnings : Array Warning) :
    Watched ({ c with warnings }.reframe fun f => { f with unreachable := f.unreachable + 1 }) := by
  have hwarned : Watched { c with warnings } :=
    ⟨⟨(hc.ready.elaborated.of_eq (d := { c with warnings }) rfl rfl rfl).wellTyped,
      hc.ready.visible⟩, (hc.guarding.of_eq (d := { c with warnings }) rfl rfl rfl).guarded, hc.receiver⟩
  exact hwarned.reframe ⟨fun _ => rfl, fun _ => rfl⟩ (hc.ready.region warnings) fun _ => rfl

theorem Watched.steps (hc : Watched c) {change : Frame → Frame}
    (hsteps : c.Steps Frame.Advances (c.reframe change)) : Along c (c.reframe change) :=
  hc.along (hc.guarding.of_eq rfl rfl rfl) hsteps

section

variable (hg : Guardian ask)

include hg

/-- Contexts stay guarded through all of checking bodies. -/
theorem guarding_invariant : Invariant ask (Guarding origin) where
  toStable := hg.stable
  everyAnswer q := hg.keeps origin q
  agrees _ _ h hc := hc.of_eq h.globals h.structs h.bodies
  bodyOpened _ _ _ hc := hc.of_eq rfl rfl rfl
  bodyClosed _ hc := hc.of_eq rfl rfl rfl
  param _ _ := preserves_declareLocal guarding_modifyFrame _ _ _ _
  receiver _ _ := preserves_declareLocal guarding_modifyFrame _ _ _ _
  declared := preserves_declStmt guarding_modifyFrame hg.stable

/-- Where a part of checking a body leads. -/
theorem Guardian.checked (hc : Watched c) {α : Type} {work : Check α} {a : α} (h : work c = .ok a d)
    (hwork : ∀ P, Invariant ask P → work.Preserves P) (hsteps : c.Steps Frame.Advances d) :
    Along c d :=
  hc.along (hwork _ (guarding_invariant hg) (Run.ends_of_ok h) hc.guarding) hsteps

theorem Guardian.stmt (hc : Watched c) (hopen : c.frame.isSome) {s : Surface.Stmt} {out : Core.Stmt}
    (h : ask (.stmt s scope) c = .ok out d) : Along c d ∧ out.Guarded d.access := by
  have hd := hg.checked hc h (fun _ hP => hP.everyAnswer _) (hg.elaborates.steady.stmt h)
  exact ⟨hd, hg.sound hc h (hd.typed.frame.trans hopen)⟩

theorem Guardian.block (hc : Watched c) (hopen : c.frame.isSome) {b : Surface.Block}
    {out : Core.Block × BlockFrame} (h : ask (.block b scope) c = .ok out d) :
    Along c d ∧ out.1.Guarded d.access := by
  have hd := hg.checked hc h (fun _ hP => hP.everyAnswer _) (hg.elaborates.steady.block h).advances
  exact ⟨hd, hg.sound hc h (hd.typed.frame.trans hopen)⟩

/-! ## Simple statements -/

omit hg in
theorem along_declareLocal {name : Surface.Ident} {t : Ty} {constant : Bool} {value : Option Const}
    {id : LocalId} (hc : Watched c) (h : declareLocal name t constant value c = .ok id d) :
    Along c d := by
  obtain ⟨rfl, rfl⟩ := declareLocal_eq_ok h
  exact hc.steps (c.steps_reframe_here (c.here.advances_declare rfl))

theorem guarded_declStmt (hc : Watched c) {decl : Surface.VarDecl} {kind : Core.StmtKind}
    (h : declStmt ask decl scope c = .ok kind d) : kind.Guarded d.access := by
  obtain ⟨steps, rfl⟩ := declStmt_eq_ok h
  obtain ⟨hannotated, -⟩ := yields_annotatedType hg hc steps.htype
  have hvalued : Along steps.annotated steps.valued ∧ ∀ v, steps.value = some v →
      v.Guarded steps.valued.access := by
    rcases steps.hvalue with ⟨-, hnone, hsame⟩ | ⟨e, v, -, hv, hanswer⟩
    · rw [hsame, hnone]
      exact ⟨.refl hannotated.watched, fun v hv => by cases hv⟩
    · obtain ⟨hd, hguarded⟩ := yields_value hg hannotated.watched hanswer
      refine ⟨hd, fun v' hv' => ?_⟩
      cases hv.symm.trans hv'
      exact hguarded
  obtain ⟨hcompleted, -⟩ := yields_complete hg hvalued.1.watched steps.hcomplete
  have htaken : Along steps.completed steps.taken := by
    rcases steps.htaken with ⟨-, -, hsame⟩ | ⟨v, -, hconsume⟩
    · rw [hsame]
      exact .refl hcompleted.watched
    · exact (yields_consume hg hcompleted.watched hconsume).1
  have hd := along_declareLocal htaken.watched steps.hdeclare
  exact .declare fun v hv => (hvalued.2 v hv).mono ((hcompleted.trans htaken).trans hd).grows

omit hg in
theorem along_takeOwnership {place : Core.Place} {span : Span} {owned : Bool} (hc : Watched c)
    (h : takeOwnership place span c = .ok owned d) : Along c d := by
  rcases takeOwnership_eq_ok h with ⟨-, -, rfl⟩ | ⟨-, id, -, -, rfl⟩
  · exact .refl hc
  · exact hc.steps (c.steps_reframe fun f => f.advances_own id)

theorem guarded_assignStmt (hc : Watched c) {target value : Surface.Expr}
    {op : Option Surface.ArithmeticOp} {kind : Core.StmtKind}
    (h : assignStmt ask target op value scope c = .ok kind d) : kind.Guarded d.access := by
  obtain ⟨steps, rfl⟩ := assignStmt_eq_ok h
  obtain ⟨hplaced, hplace⟩ := yields_denoted hg hc steps.hplace
  replace hplace : steps.place.Guarded steps.placed.access := hplace
  have hvalued : Along steps.placed steps.valued ∧ steps.source.Guarded steps.valued.access := by
    rcases steps.hsource with ⟨-, hanswer⟩ | ⟨o, right, -, hanswer, -, hsource⟩
    · exact yields_value hg hplaced.watched hanswer
    · obtain ⟨hvalued, hright⟩ := yields_value hg hplaced.watched hanswer
      rw [hsource]
      exact ⟨hvalued, .mk (.binary (.mk (.load (hplace.mono hvalued.grows))) hright)⟩
  obtain ⟨htaken, -⟩ := yields_consume hg hvalued.1.watched steps.htaken
  have hlater := htaken.trans (along_takeOwnership htaken.watched steps.hstored)
  exact .assign (hplace.mono (hvalued.1.trans hlater).grows) steps.hwritable
    (hvalued.2.mono hlater.grows)

theorem guarded_exprStmt (hc : Watched c) {e : Surface.Expr} {kind : Core.StmtKind}
    (h : exprStmt ask e scope c = .ok kind d) : kind.Guarded d.access := by
  obtain ⟨value, hvalue, rfl⟩ := exprStmt_eq_ok h
  exact .expr (yields_rawValue hg hc hvalue).2

theorem guarded_returnStmt (hc : Watched c) {value : Option Surface.Expr} {at' : Span}
    {kind : Core.StmtKind} (h : returnStmt ask value at' scope c = .ok kind d) :
    kind.Guarded d.access := by
  obtain ⟨out, c₁, hout, rfl, rfl⟩ := returnStmt_eq_ok h
  rw [access_moves (moves_modifyTop _)]
  rcases returnedValue_eq_ok hout with ⟨-, -, rfl, rfl⟩ | ⟨e, v, -, hv, -, -, rfl⟩ |
    ⟨e, v, c₂, -, hv, htaken, rfl⟩
  · exact .ret fun v hv => by cases hv
  · refine .ret fun v' hv' => ?_
    cases hv'
    exact (yields_rawValue hg hc hv).2
  · refine .ret fun v' hv' => ?_
    cases hv'
    obtain ⟨hc₂, hguarded⟩ := yields_value hg hc hv
    exact hguarded.mono (yields_consume hg hc₂.watched htaken).1.grows

/-! ## Blocks -/

theorem guarded_unreachableStmts (hc : Watched c) (hopen : c.frame.isSome)
    {stmts : List Surface.Stmt} {out : List Core.Stmt}
    (h : unreachableStmts ask scope stmts c = .ok out d) : ∀ s ∈ out, s.Guarded d.access := by
  induction stmts generalizing c out with
  | nil =>
    cases h
    simp
  | cons stmt rest ih =>
    obtain ⟨s, c₁, after, hs, hafter, rfl⟩ := unreachableStmts_cons_eq_ok h
    obtain ⟨hc₁, hguarded⟩ := hg.stmt hc hopen hs
    have hd := hg.checked hc₁.watched hafter (fun _ hP => preserves_unreachableStmts hP.flat _ _)
      (advances_unreachableStmts hg.elaborates.steady hafter)
    exact List.forall_mem_cons.mpr ⟨(hguarded.mono hd.grows).flagged true,
      ih hc₁.watched (hc₁.typed.frame.trans hopen) hafter⟩

theorem guarded_checkStmts (hc : Watched c) (hopen : c.frame.isSome) {stmts : List Surface.Stmt}
    {out : List Core.Stmt} (h : checkStmts ask scope stmts c = .ok out d) :
    Along c d ∧ ∀ s ∈ out, s.Guarded d.access := by
  refine ⟨hg.checked hc h (fun _ hP => preserves_checkStmts hP.flat _ _)
    (advances_checkStmts hg.elaborates.steady h), ?_⟩
  induction stmts generalizing c out with
  | nil =>
    cases h
    simp
  | cons stmt rest ih =>
    rcases checkStmts_cons_eq_ok h with ⟨-, warnings, c₁, hdead, rfl, -⟩ | ⟨-, s, c₁, after, hs, hafter, rfl⟩
    · rw [access_moves moves_leaveUnreachable]
      exact guarded_unreachableStmts hg (hc.region warnings)
        ((isSome_reframe _ _).trans hopen) hdead
    · obtain ⟨hc₁, hguarded⟩ := hg.stmt hc hopen hs
      have hd := hg.checked hc₁.watched hafter (fun _ hP => preserves_checkStmts hP.flat _ _)
        (advances_checkStmts hg.elaborates.steady hafter)
      exact List.forall_mem_cons.mpr ⟨(hguarded.mono hd.grows).flagged _,
        ih hc₁.watched (hc₁.typed.frame.trans hopen) hafter⟩

theorem guarded_checkBlock (hc : Watched c) (hopen : c.frame.isSome) {block : Surface.Block}
    {out : Core.Block × BlockFrame} (h : checkBlock ask block scope c = .ok out d) :
    out.1.Guarded d.access := by
  obtain ⟨stmts, c₁, hstmts, hsettle, rfl⟩ := checkBlock_eq_ok h
  obtain ⟨-, hguarded⟩ := guarded_checkStmts hg hc.openBlock ((isSome_reframe c _).trans hopen) hstmts
  obtain ⟨change, hchange, rfl⟩ := settleMoves_moves hsettle
  rw [access_moves hchange, access_moves moves_closed]
  exact .mk hguarded

theorem guarded_checkArm (hc : Watched c) (hopen : c.frame.isSome) {block : Surface.Block}
    {dead : Bool} {out : Core.Block × BlockFrame} (h : checkArm ask block dead scope c = .ok out d) :
    Along c d ∧ out.1.Guarded d.access := by
  refine ⟨hg.checked hc h (fun _ hP => preserves_checkArm hP.flat _ _ _)
    (rests_checkArm hg.elaborates.steady h).advances, ?_⟩
  rcases checkArm_eq_ok h with ⟨-, hblock⟩ | ⟨-, warnings, c₁, hblock, rfl, -⟩
  · exact (hg.block hc hopen hblock).2
  · rw [access_moves moves_leaveUnreachable]
    exact (hg.block (hc.region warnings) ((isSome_reframe _ _).trans hopen) hblock).2

theorem guarded_scopeStmt (hc : Watched c) (hopen : c.frame.isSome) {block : Surface.Block}
    {kind : Core.StmtKind} (h : scopeStmt ask block scope c = .ok kind d) :
    kind.Guarded d.access := by
  obtain ⟨out, c₁, hblock, rfl, rfl⟩ := scopeStmt_eq_ok h
  rw [access_moves (moves_modifyTop _)]
  exact .scope (hg.block hc hopen hblock).2

/-! ## Branches and loops -/

theorem guarded_checkBranches (hc : Watched c) (hopen : c.frame.isSome) {b : Branching}
    {branches : List (Surface.Expr × Surface.Block)} {out : List (Core.Expr × Core.Block) × Branching}
    (h : checkBranches ask scope b branches c = .ok out d) :
    Along c d ∧ ∀ branch ∈ out.1, branch.1.Guarded d.access ∧ branch.2.Guarded d.access := by
  refine ⟨hg.checked hc h (fun _ hP => preserves_checkBranches hP.flat _ _ _)
    (rests_checkBranches hg.elaborates.steady h).advances, ?_⟩
  induction branches generalizing b c out with
  | nil =>
    cases h
    simp
  | cons branch rest ih =>
    obtain ⟨test, block, outcome, checked, b', c₁, c₂, htest, harm, hrest, rfl⟩ :=
      checkBranches_cons_eq_ok h
    obtain ⟨hc₁, hguarded⟩ := yields_value hg hc htest
    have hopen₁ := hc₁.typed.frame.trans hopen
    obtain ⟨hc₂, hblock⟩ := guarded_checkArm hg hc₁.watched hopen₁ harm
    have hd := hg.checked hc₂.watched hrest (fun _ hP => preserves_checkBranches hP.flat _ _ _)
      (rests_checkBranches hg.elaborates.steady hrest).advances
    exact List.forall_mem_cons.mpr ⟨⟨hguarded.mono (hc₂.trans hd).grows, hblock.mono hd.grows⟩,
      ih hc₂.watched (hc₂.typed.frame.trans hopen₁) hrest⟩

theorem guarded_checkOtherwise (hc : Watched c) (hopen : c.frame.isSome) {b : Branching}
    {otherwise : Option Surface.Block} {out : Option Core.Block × Branching}
    (h : checkOtherwise ask scope b otherwise c = .ok out d) :
    Along c d ∧ ∀ block, out.1 = some block → block.Guarded d.access := by
  cases otherwise with
  | none =>
    cases h
    exact ⟨.refl hc, fun block hblock => by cases hblock⟩
  | some body =>
    obtain ⟨block, outcome, harm, rfl⟩ := checkOtherwise_some_eq_ok h
    obtain ⟨hd, hguarded⟩ := guarded_checkArm hg hc hopen harm
    refine ⟨hd, fun block' hblock => ?_⟩
    cases hblock
    exact hguarded

theorem guarded_condStmt (hc : Watched c) (hopen : c.frame.isSome)
    {branches : List (Surface.Expr × Surface.Block)} {otherwise : Option Surface.Block}
    {kind : Core.StmtKind} (h : condStmt ask branches otherwise scope c = .ok kind d) :
    kind.Guarded d.access := by
  obtain ⟨checked, b, last, b', c₁, c₂, hbranches, hotherwise, rfl, rfl⟩ := condStmt_eq_ok h
  obtain ⟨hc₁, hguarded⟩ := guarded_checkBranches hg hc hopen hbranches
  obtain ⟨hc₂, hlast⟩ :=
    guarded_checkOtherwise hg hc₁.watched (hc₁.typed.frame.trans hopen) hotherwise
  rw [access_moves (moves_modifyTop _)]
  exact .cond (fun branch hbranch => (hguarded branch hbranch).1.mono hc₂.grows)
    (fun branch hbranch => (hguarded branch hbranch).2.mono hc₂.grows) hlast

theorem guarded_optionalStmt (hc : Watched c) (hopen : c.frame.isSome) {stmt : Option Surface.Stmt}
    {out : Option Core.Stmt} (h : optionalStmt ask scope stmt c = .ok out d) :
    Along c d ∧ ∀ s, out = some s → s.Guarded d.access := by
  cases stmt with
  | none =>
    cases h
    exact ⟨.refl hc, fun s hs => by cases hs⟩
  | some stmt =>
    obtain ⟨s, hs, rfl⟩ := optionalStmt_some_eq_ok h
    obtain ⟨hd, hguarded⟩ := hg.stmt hc hopen hs
    refine ⟨hd, fun s' hs' => ?_⟩
    cases hs'
    exact hguarded

theorem guarded_loopCondition (hc : Watched c) {condition : Option Surface.Expr}
    {out : Option Core.Expr × Option Bool} (h : loopCondition ask scope condition c = .ok out d) :
    Along c d ∧ ∀ test, out.1 = some test → test.Guarded d.access := by
  cases condition with
  | none =>
    cases h
    exact ⟨.refl hc, fun test htest => by cases htest⟩
  | some e =>
    obtain ⟨test, htest, rfl⟩ := loopCondition_some_eq_ok h
    obtain ⟨hd, hguarded⟩ := yields_value hg hc htest
    refine ⟨hd, fun test' htest' => ?_⟩
    cases htest'
    exact hguarded

/-- All parts of a loop are guarded behind its step. -/
theorem guarded_loopSteps {id : LoopId} {form : LoopForm} (hc : Watched c) (hopen : c.frame.isSome)
    (steps : LoopSteps ask id form scope c d) (target : LoopId) (drops : List LocalId) :
    (Core.StmtKind.loop target steps.init steps.condition steps.step steps.body drops).Guarded
      d.access := by
  obtain ⟨hinit, hinitGuarded⟩ := guarded_optionalStmt hg hc hopen steps.hinit
  obtain ⟨htest, htestGuarded⟩ :=
    guarded_loopCondition hg (hinit.watched.enter form id) steps.hcondition
  have hopen₁ : steps.tested.frame.isSome :=
    (htest.typed.frame.trans (isSome_reframe _ _)).trans (hinit.typed.frame.trans hopen)
  obtain ⟨hbody, hbodyGuarded⟩ := guarded_checkArm hg htest.watched hopen₁ steps.hbody
  obtain ⟨hstep, hstepGuarded⟩ :=
    guarded_optionalStmt hg hbody.watched (hbody.typed.frame.trans hopen₁) steps.hstep
  have hrest := (hbody.trans hstep).grows
  refine .loop (fun s hs => ?_) (fun test htest' => (htestGuarded test htest').mono hrest)
    hstepGuarded (hbodyGuarded.mono hstep.grows)
  have hentered := access_moves (moves_enter form id) steps.entered
  exact (hentered ▸ hinitGuarded s hs).mono (htest.grows.trans hrest)

theorem guarded_loopStmt (hc : Watched c) (hopen : c.frame.isSome) {form : LoopForm}
    {kind : Core.StmtKind} (h : loopStmt ask form scope c = .ok kind d) : kind.Guarded d.access := by
  obtain ⟨c₁, c₂, steps, hsettle, hd, rfl⟩ := loopStmt_eq_ok h
  have hnumbered : Watched { c with loopCount := c.loopCount + 1 } :=
    ⟨⟨(hc.ready.elaborated.of_eq (d := { c with loopCount := c.loopCount + 1 }) rfl rfl rfl).wellTyped,
      hc.ready.visible⟩,
      (hc.guarding.of_eq (d := { c with loopCount := c.loopCount + 1 }) rfl rfl rfl).guarded,
      hc.receiver⟩
  have hguarded := guarded_loopSteps hg hnumbered.openBlock ((isSome_reframe _ _).trans hopen) steps
    ⟨c.loopCount + 1⟩ (endDrops c₁.here)
  obtain ⟨change, hchange, rfl⟩ := settleMoves_moves hsettle
  have hclosed : ((c₁.reframe (closed ∘ leaveLoop)).reframe change).access = c₁.access := by
    rw [access_moves hchange, access_moves moves_leaveLoop]
  rw [hd]
  split
  · rw [access_moves (moves_modifyTop _), hclosed]
    exact hguarded
  · rw [hclosed]
    exact hguarded

omit hg in
theorem guarded_jumpStmt {jump : Jump} {label : Option Surface.Ident} {at' : Span}
    {kind : Core.StmtKind} (h : jumpStmt jump label at' c = .ok kind d) : kind.Guarded d.access := by
  obtain ⟨i, loop, c₁, -, -, rfl, -⟩ := jumpStmt_eq_ok h
  cases jump with
  | brk => exact .brk
  | cont => exact .cont

theorem guarded_checkStmt (hc : Watched c) (hopen : c.frame.isSome) {s : Surface.Stmt}
    {out : Core.Stmt} (h : checkStmt ask s scope c = .ok out d) : out.Guarded d.access := by
  obtain ⟨kind, hkind, rfl⟩ := checkStmt_eq_ok h
  refine .mk (stmtKind_elim hkind ?_ ?_ ?_ ?_ ?_ ?_ ?_ ?_)
  · exact fun _ _ h => guarded_declStmt hg hc h
  · exact fun _ _ _ _ h => guarded_assignStmt hg hc h
  · exact fun _ _ h => guarded_exprStmt hg hc h
  · exact fun _ _ h => guarded_returnStmt hg hc h
  · exact fun _ _ _ h => guarded_jumpStmt h
  · exact fun _ _ _ h => guarded_condStmt hg hc hopen h
  · exact fun _ _ h => guarded_loopStmt hg hc hopen h
  · exact fun _ _ h => guarded_scopeStmt hg hc hopen h

/-! ## Bodies -/

omit hg in
theorem along_declareParams {params : List (Surface.Param × Ty)} {ids : List LocalId}
    (hc : Watched c) (h : declareParams params c = .ok ids d) : Along c d := by
  induction params generalizing c ids with
  | nil =>
    cases h
    exact .refl hc
  | cons param rest ih =>
    obtain ⟨id, c₁, hid, hrest⟩ := Run.bind_eq_ok.mp h
    obtain ⟨ids', c₂, hids, hreturn⟩ := Run.bind_eq_ok.mp hrest
    cases hreturn
    have hc₁ := along_declareLocal hc hid
    exact hc₁.trans (ih hc₁.watched hids)

omit hg in
/-- The receiver of a method is declared as a constant local. -/
theorem constant_declareReceiver {decl : Surface.FnDecl} {owner : Option StructId}
    {params : List Ty} {out : List LocalId × List Ty} (hopen : c.frame.isSome)
    (hnone : c.here.receiver = none) (h : declareReceiver decl owner params c = .ok out d) :
    ∀ this id, d.here.receiver = some (this, id) → (slotOf d this).constant = true := by
  have hsame : ∀ this id, c.here.receiver = some (this, id) → (slotOf c this).constant = true := by
    intro this id hreceiver
    cases hnone.symm.trans hreceiver
  unfold declareReceiver at h
  split at h
  · split at h
    · obtain ⟨id, c₁, hid, hrest⟩ := Run.bind_eq_ok.mp h
      obtain ⟨u, c₂, hreceiver, hreturn⟩ := Run.bind_eq_ok.mp hrest
      cases hreceiver
      cases hreturn
      obtain ⟨rfl, rfl⟩ := declareLocal_eq_ok hid
      intro this id hreceiver
      obtain ⟨f, hf⟩ := Option.isSome_iff_exists.mp hopen
      simp only [Context.here, Context.reframe, hf, Option.map_some, Option.getD_some,
        Option.some.injEq, Prod.mk.injEq] at hreceiver
      obtain ⟨rfl, -⟩ := hreceiver
      simp [slotOf, Context.reframe, hf, Frame.localAt, declare]
    · cases h
      exact hsame
  · cases h
    exact hsame

theorem watched_declareReceiver {decl : Surface.FnDecl} {owner : Option StructId} {t : Ty}
    {params : List Ty} {variadic : Bool} {returns : Ty} {out : List LocalId × List Ty}
    (ht : decl.HasType owner t) (hshape : t.shape = .func params variadic returns) (hc : Watched c)
    (hopen : c.frame.isSome) (hnone : c.here.receiver = none)
    (h : declareReceiver decl owner params c = .ok out d) : Watched d ∧ d.frame.isSome := by
  obtain ⟨hready, hopen', -⟩ := ready_declareReceiver ht hshape hc.ready hopen h
  exact ⟨⟨hready, (preserves_declareReceiver (guarding_invariant hg) _ _ _ (Run.ends_of_ok h)
    hc.guarding).guarded, constant_declareReceiver hopen hnone h⟩, hopen'⟩

/-- An accepted body is guarded. -/
theorem guarded_checkBody (hc : Guarding c c) {id : GlobalId} {body : Body}
    (h : checkBody ask id c = .ok body d) : body.Guarded d := by
  obtain ⟨decl, owner, t, params, variadic, returns, c₁, hkind, hglobal, hshape, hbody⟩ :=
    checkBody_eq_ok h
  obtain ⟨steps, rfl⟩ := checkTypedBody_eq_ok hbody
  have hc₁ : Guarding c c₁ := hg.keeps c _ (Run.ends_of_ok hglobal) hc
  -- The declaration of the function is still that of its global.
  have hdecl : decl.HasType owner t := by
    obtain ⟨hstate, ht⟩ := Context.typeOf?_eq_some.mp (hg.elaborates.global hc.wellTyped hglobal)
    refine hc₁.wellTyped.globals id decl owner t ?_ hstate ht
    rw [hc₁.keeps.kinds id ?_, hkind]
    by_contra hout
    rw [global_of_size_le (Nat.le_of_not_lt hout)] at hkind
    cases hkind
  have hlaid : Guarding c₁ steps.laid :=
    preserves_completeParams (guarding_invariant hg).answers _ (Run.ends_of_ok steps.hlaid) hc₁.self
  have hopened : Watched (opened steps.laid id returns) := by
    have hkept : Guarding c₁ (opened steps.laid id returns) := hlaid.of_eq rfl rfl rfl
    refine ⟨⟨hkept.wellTyped, fun block hblock id' hid => ?_, fun this id' hreceiver => ?_⟩,
      hkept.guarded, fun this id' hreceiver => ?_⟩
    · obtain rfl := List.mem_singleton.mp hblock
      cases hid
    · cases hreceiver
    · cases hreceiver
  obtain ⟨hreceived, hreceivedOpen⟩ :=
    watched_declareReceiver hg hdecl hshape hopened rfl rfl steps.hreceiver
  have hentered := along_declareParams hreceived steps.hparams
  obtain ⟨-, hstmts⟩ := guarded_checkStmts hg hentered.watched
    (hentered.typed.frame.trans hreceivedOpen) steps.hstmts
  have hlast : ∀ s ∈ steps.last, s.Guarded steps.behind.access := by
    rcases finalReturn_eq_ok steps.hlast with ⟨-, hnone⟩ | ⟨-, -, span, hlast⟩
    · simp [hnone]
    · intro s hs
      rw [hlast] at hs
      obtain rfl := List.mem_singleton.mp hs
      exact .mk (.ret fun v hv => by cases hv)
  have haccess : d.accessWith steps.behind.here.locals = steps.behind.access :=
    congrArg (·.accessWith steps.behind.here.locals) steps.hclosed
  show Core.Block.Guarded (d.accessWith steps.behind.here.locals) _
  rw [haccess]
  exact .mk (List.forall_mem_append.mpr ⟨hstmts, hlast⟩)

theorem guarding_lasting : Lasting ask (Guarding origin) where
  toInvariant := guarding_invariant hg
  packages _ _ hc := hc.of_eq rfl rfl rfl
  entityDeclared := preserves_declareEntity guarding_additive
  templateDeclared _ := preserves_declareTemplate (fun _ _ hc => hc.of_eq rfl rfl rfl)
    fun _ _ _ hc => hc.of_eq rfl rfl rfl
  bodyTaken _ _ _ _ hc := hc.of_eq rfl rfl rfl
  bodyAccepted c d id body hbody hc hd := by
    have hguarded := guarded_checkBody hg hc.self hbody
    refine ⟨(elaborated_lasting hg.elaborates).bodyAccepted c d id body hbody hc.toElaborated
      hd.toElaborated, hd.guarded.receivers, hd.guarded.defaults, fun other hother => ?_⟩
    rcases Array.mem_push.mp hother with hother | rfl
    · exact hd.guarded.bodies other hother
    · exact hguarded

/-- One step of nesting. -/
theorem Guardian.step : Guardian (step ask) where
  elaborates := hg.elaborates.step
  keeps origin q := (guarding_invariant hg).step (guarding_resolveGlobal hg) q
  sound {c d q a} hc h := by
    cases q with
    | value e expected scope => exact (yields_checkValue hg hc h).2
    | denoted e write scope => exact (yields_checkDenoted hg hc h).2
    | stmt s scope =>
      have hd := hg.checked hc h (fun _ hP =>
        preserves_checkStmt hP.flat (preserves_loopStmt hP) _ _)
        (advances_checkStmt hg.elaborates.steady h)
      exact fun hopen => guarded_checkStmt hg hc (hd.typed.frame.symm.trans hopen) h
    | block b scope =>
      have hd := hg.checked hc h (fun _ hP => preserves_checkBlock hP _ _)
        (rests_checkBlock hg.elaborates.steady h).advances
      exact fun hopen => guarded_checkBlock hg hc (hd.typed.frame.symm.trans hopen) h
    | type t scope => trivial
    | typeAlias id usedAt => trivial
    | layout id usedAt => trivial
    | global id usedAt => trivial

end

theorem guardian_answerTo (n : Nat) : Guardian (answerTo n) := by
  induction n with
  | zero => exact ⟨elaborates_answerTo 0, fun _ _ => Run.preserves_stop _, fun _ h => by cases h⟩
  | succ n ih => exact ih.step

theorem guardian_answer : Guardian answer := guardian_answerTo nestingBound

end Check

namespace Session

theorem Reachable.guarded {c : Context} (hc : Reachable c) : c.Guarded := by
  obtain ⟨options, hlater⟩ := hc
  refine (hlater.keeps (Check.guarding_lasting Check.guardian_answer)
    (P := Check.Guarding { options })
    ⟨⟨.refl _, Reachable.wellTyped ⟨options, .refl⟩⟩, ?_, ?_, ?_⟩).guarded
  · intro id t hmutator
    cases hmutator
  · intro id f hf
    cases hf
  · intro body hbody
    simp at hbody

/-- Permission to write is sound. In every body that a session has accepted, and in every default of a
field, which initializers use again, the mark of each location is its constness along its path, nothing
constant is assigned to, constant locations have constant addresses only, no conversion makes a constant
pointer or array changeable, nor the array that a pointer points at, and no method that may change its
receiver is called on a constant one. -/
theorem write_permission_sound {c : Context} (hc : Reachable c) :
    (∀ body ∈ c.bodies, body.Guarded c) ∧
      ∀ id, ∀ field ∈ (c.struct id).fields, field.Guarded (c.accessWith #[]) :=
  ⟨hc.guarded.bodies, hc.guarded.defaults⟩

/-- `fn peek(n: i32): i32 { const limit = n; var p = &limit; return *p; }` -/
def peekModule : Surface.Module :=
  let i32 : Surface.TypeExpr := .mk (.named [⟨"i32", .null⟩] []) .null
  let named (name : String) : Surface.Expr := .mk (.path [⟨name, .null⟩] []) .null
  let limit : Surface.VarDecl :=
    { name := ⟨"limit", .null⟩, constant := true, type := none, value := some (named "n") }
  let p : Surface.VarDecl :=
    { name := ⟨"p", .null⟩, constant := false, type := none
      value := some (.mk (.ref (named "limit") false) .null) }
  let peek : Surface.FnDecl :=
    { name := ⟨"peek", .null⟩, kind := .plain, variadic := false, returns := some i32, span := .null
      params := [⟨⟨"n", .null⟩, i32⟩]
      body := some (.mk [.mk (.decl limit) .null, .mk (.decl p) .null,
        .mk (.ret (some (.mk (.deref (named "p")) .null))) .null] .null) }
  { file := "peek.own", package := ⟨"peek", .null⟩, imports := []
    items := [⟨.function peek, [], .null⟩] }

/-- The address of the constant is a constant pointer, though `&const` is not written. -/
theorem write_permission_sound_peek : ∃ c body, Reachable c ∧ body ∈ c.bodies ∧
    body.locals.toList.map (fun l => (l.constant, l.type.shape.isConstant)) =
      [(false, false), (true, false), (false, true)] ∧ body.Guarded c := by
  have hrun : ((do
      Check.checkModules [peekModule]
      return (← get).bodies.toList.map fun body =>
        body.locals.toList.map fun l => (l.constant, l.type.shape.isConstant) :
      Check (List (List (Bool × Bool)))) { options := .library }).value? =
        some [[(false, false), (true, false), (false, true)]] := by decide +kernel
  obtain ⟨_, hrun⟩ := Outcome.value?_eq_some.mp hrun
  obtain ⟨_, c, hmodules, hreturn⟩ := Run.bind_eq_ok.mp hrun
  have hc : Reachable c := ⟨.library, .single (.modules _ (Run.ends_of_ok hmodules))⟩
  have hmarks := (Outcome.ok.inj hreturn).1
  obtain ⟨body, rest, hbodies, hmarks, -⟩ := List.map_eq_cons_iff.mp hmarks
  have hbody : body ∈ c.bodies := by
    rw [← Array.mem_toList_iff, hbodies]
    exact List.mem_cons_self
  exact ⟨c, body, hc, hbody, hmarks, (write_permission_sound hc).1 body hbody⟩

end Session

end OwnLang
