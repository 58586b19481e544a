import Mathlib
import OwnLang.Proofs.Check.Frame
import OwnLang.Proofs.Check.Invariant

/-!
# Checking statements advances the frame

Every statement that is accepted relates the frames before and after it by `Frame.Advances`, and
every block by `Frame.Rests` (`steady_answerTo`). Loops are numbered as they are met, so a loop's
number is larger than those of the loops around it.
-/

namespace OwnLang

/-- A relation between the frames of two contexts. Loops may have been numbered in between. -/
structure Context.Steps (R : Frame → Frame → Prop) (c d : Context) : Prop where
  frame : Option.Rel R c.frame d.frame
  loopCount : c.loopCount ≤ d.loopCount

namespace Context

variable {R R' R'' : Frame → Frame → Prop} {c d e : Context}

theorem Steps.mono (h : c.Steps R d) (hR : ∀ f g, R f g → R' f g) : c.Steps R' d := by
  refine ⟨?_, h.loopCount⟩
  obtain ⟨hframe, -⟩ := h
  revert hframe
  generalize c.frame = o
  generalize d.frame = o'
  rintro (hfg | _)
  · exact .some (hR _ _ hfg)
  · exact .none

theorem Steps.comp (h : c.Steps R d) (h' : d.Steps R' e)
    (hR : ∀ f g k, R f g → R' g k → R'' f k) : c.Steps R'' e := by
  refine ⟨?_, h.loopCount.trans h'.loopCount⟩
  obtain ⟨hframe, -⟩ := h
  obtain ⟨hframe', -⟩ := h'
  revert hframe hframe'
  generalize c.frame = o
  generalize d.frame = o'
  generalize e.frame = o''
  rintro (hfg | _) hframe'
  · cases hframe' with
    | some hgk => exact .some (hR _ _ _ hfg hgk)
  · cases hframe' with
    | none => exact .none

theorem steps_reframe_here (c : Context) {change : Frame → Frame} (h : R c.here (change c.here)) :
    c.Steps R (c.reframe change) := by
  refine ⟨?_, le_rfl⟩
  unfold here at h
  unfold reframe
  revert h
  cases c.frame with
  | none => exact fun _ => .none
  | some f => exact fun h => .some h

theorem steps_reframe (c : Context) {change : Frame → Frame} (h : ∀ f, R f (change f)) :
    c.Steps R (c.reframe change) := c.steps_reframe_here (h _)

/-- What is opened, gone through and closed again. -/
theorem Steps.around {enter leave : Frame → Frame} (h : (c.reframe enter).Steps R d)
    (hR : ∀ f g, R (enter f) g → R' f (leave g)) : c.Steps R' (d.reframe leave) := by
  refine ⟨?_, h.loopCount⟩
  obtain ⟨hframe, -⟩ := h
  unfold reframe at hframe ⊢
  revert hframe
  dsimp only
  generalize c.frame = o
  generalize d.frame = o'
  cases o with
  | none =>
    intro hframe
    cases hframe
    exact .none
  | some f =>
    rintro (hfg | _)
    exact .some (hR _ _ hfg)

theorem Steps.here (h : c.Steps R d) (hR : R default default) : R c.here d.here := by
  obtain ⟨hframe, -⟩ := h
  unfold Context.here
  revert hframe
  generalize c.frame = o
  generalize d.frame = o'
  rintro (hfg | _)
  · exact hfg
  · exact hR

theorem Steps.exists {f : Frame} (h : c.Steps R d) (hf : c.frame = some f) :
    ∃ g, d.frame = some g ∧ R f g := by
  obtain ⟨hframe, -⟩ := h
  rw [hf] at hframe
  revert hframe
  generalize d.frame = o'
  rintro (hfg | _)
  exact ⟨_, rfl, hfg⟩

theorem Steps.advances (h : c.Steps Frame.Rests d) : c.Steps Frame.Advances d :=
  h.mono fun _ _ => Frame.Rests.advances

theorem Steps.rests (h : c.Steps Frame.Moves d) : c.Steps Frame.Rests d :=
  h.mono fun _ _ => Frame.Moves.rests

theorem steps_refl (c : Context) : c.Steps Frame.Rests c := by
  refine ⟨?_, le_rfl⟩
  cases c.frame with
  | none => exact .none
  | some f => exact .some (.refl f)

theorem Steps.trans (h : c.Steps Frame.Advances d) (h' : d.Steps Frame.Advances e) :
    c.Steps Frame.Advances e :=
  h.comp h' fun _ _ _ => Frame.Advances.trans

theorem Steps.transRests (h : c.Steps Frame.Rests d) (h' : d.Steps Frame.Rests e) :
    c.Steps Frame.Rests e :=
  h.comp h' fun _ _ _ => Frame.Rests.trans

end Context

namespace Check

variable {ask : Asker} {scope : Scope} {c d e : Context}

/-- What the answers to queries do to the frame. -/
structure Steady (ask : Asker) : Prop where
  moves : ∀ q : Query, q.isExpr → ∀ origin, (ask q).Preserves (FrameMoved origin)
  count : ∀ q : Query, q.isExpr → ∀ k, (ask q).Preserves fun c => c.loopCount = k
  stmt : ∀ {s scope c d out}, ask (.stmt s scope) c = .ok out d → c.Steps Frame.Advances d
  block : ∀ {b scope c d out}, ask (.block b scope) c = .ok out d → c.Steps Frame.Rests d

theorem loopCount_detached {α : Type} {work : Check α} {k : Nat}
    (h : work.Preserves fun c => c.loopCount = k) :
    (detached work).Preserves fun c => c.loopCount = k := by
  intro c d hd hc
  unfold detached at hd
  obtain ⟨e, hwork, rfl⟩ := Run.ends_andFinally hd
  have he : e.loopCount = k := h hwork hc
  exact he

/-- Checking an expression meets no loop. -/
theorem loopCount_stable (k : Nat)
    (ha : ∀ q : Query, q.isExpr → (ask q).Preserves fun c => c.loopCount = k) :
    Stable ask fun c => c.loopCount = k where
  answers := ha
  detached := loopCount_detached
  consume := preserves_consume fun _ => Run.preserves_modify fun _ hc => hc
  aliasStarted _ _ hc := hc
  aliasDone _ _ _ hc := hc
  structResolved := preserves_resolveStruct ha loopCount_detached (fun _ _ hc => hc) fun _ _ _ hc => hc
  macroDone _ _ _ _ hc := hc
  instantiate := preserves_instantiate ⟨fun _ _ _ _ _ hc => hc, fun _ _ _ _ hc => hc,
    fun _ _ _ hc => hc, fun _ _ _ hc => hc, fun _ _ _ _ hc => hc⟩ ha
    loopCount_detached (fun _ _ _ hc => hc) fun _ _ _ hc => hc

/-- What the parts of checking an expression do to the frame. -/
theorem Steady.evaluated (hs : Steady ask) {α : Type} {work : Check α} {a : α}
    (h : work c = .ok a d) (hwork : ∀ P, Stable ask P → work.Preserves P) :
    c.Steps Frame.Moves d :=
  ⟨hwork _ (frameMoved_stable fun q hq => hs.moves q hq c) (Run.ends_of_ok h) (.refl c),
    (hwork _ (loopCount_stable c.loopCount fun q hq => hs.count q hq _) (Run.ends_of_ok h) rfl).ge⟩

theorem Steady.expr (hs : Steady ask) {q : Query} (hq : q.isExpr) {a : q.Answer}
    (h : ask q c = .ok a d) : c.Steps Frame.Moves d :=
  hs.evaluated h fun _ hP => hP.answers q hq

theorem advances_settleMoves {block : BlockFrame} (h : settleMoves block c = .ok ⟨⟩ d) :
    c.Steps Frame.Rests d := by
  rcases settleMoves_eq_ok h with ⟨-, rfl⟩ | ⟨-, ⟨-, -, rfl⟩ | ⟨-, rfl⟩⟩
  · exact Context.steps_refl d
  · exact Context.steps_refl d
  · exact c.steps_reframe fun f => f.rests_modifyTop _

theorem advances_takeOwnership {place : Core.Place} {span : Span} {owned : Bool}
    (h : takeOwnership place span c = .ok owned d) : c.Steps Frame.Advances d := by
  rcases takeOwnership_eq_ok h with ⟨-, -, rfl⟩ | ⟨-, id, -, -, rfl⟩
  · exact (Context.steps_refl d).advances
  · exact c.steps_reframe fun f => f.advances_own id

theorem advances_jumpStmt {jump : Jump} {label : Option Surface.Ident} {span : Span}
    {kind : Core.StmtKind} (h : jumpStmt jump label span c = .ok kind d) :
    c.Steps Frame.Advances d := by
  obtain ⟨i, loop, c₁, -, hcarried, -, rfl⟩ := jumpStmt_eq_ok h
  refine Context.Steps.trans ?_ (c₁.steps_reframe fun f => f.advances_modifyTop (by intro b; rfl))
  rcases hcarried with ⟨-, carried, hcarried, rfl⟩ | ⟨-, rfl⟩
  · have hadvances := (c.here.advances_jumpLeaves jump i).trans
      (Frame.rests_carryMoves hcarried).advances
    unfold Context.here at hadvances
    refine ⟨?_, le_rfl⟩
    unfold Context.reframe
    cases hframe : c.frame with
    | none => exact .none
    | some f =>
      rw [hframe] at hadvances
      exact .some hadvances
  · exact (Context.steps_refl _).advances

section

variable (hs : Steady ask)

include hs

theorem advances_unreachableStmts {stmts : List Surface.Stmt} {out : List Core.Stmt}
    (h : unreachableStmts ask scope stmts c = .ok out d) : c.Steps Frame.Advances d := by
  induction stmts generalizing c out with
  | nil =>
    cases h
    exact (Context.steps_refl _).advances
  | cons stmt rest ih =>
    obtain ⟨s, c₁, after, hs₁, hafter, -⟩ := unreachableStmts_cons_eq_ok h
    exact (hs.stmt hs₁).trans (ih hafter)

theorem advances_checkStmts {stmts : List Surface.Stmt} {out : List Core.Stmt}
    (h : checkStmts ask scope stmts c = .ok out d) : c.Steps Frame.Advances d := by
  induction stmts generalizing c out with
  | nil =>
    cases h
    exact (Context.steps_refl _).advances
  | cons stmt rest ih =>
    rcases checkStmts_cons_eq_ok h with ⟨-, warnings, c₁, hdead, rfl, -⟩ | ⟨-, s, c₁, after, hs₁, hafter, -⟩
    · have hregion := (advances_unreachableStmts hs hdead).around fun _ _ =>
        Frame.Advances.leaveUnreachable
      exact ⟨hregion.frame, hregion.loopCount⟩
    · exact (hs.stmt hs₁).trans (ih hafter)

theorem rests_checkBlock {block : Surface.Block} {out : Core.Block × BlockFrame}
    (h : checkBlock ask block scope c = .ok out d) : c.Steps Frame.Rests d := by
  obtain ⟨stmts, c₁, hstmts, hsettle, -⟩ := checkBlock_eq_ok h
  have hblock := (advances_checkStmts hs hstmts).around fun _ _ => Frame.Advances.closed
  exact hblock.transRests (advances_settleMoves hsettle)

theorem rests_checkArm {block : Surface.Block} {dead : Bool} {out : Core.Block × BlockFrame}
    (h : checkArm ask block dead scope c = .ok out d) : c.Steps Frame.Rests d := by
  rcases checkArm_eq_ok h with ⟨-, hblock⟩ | ⟨-, warnings, c₁, hblock, rfl, -⟩
  · exact hs.block hblock
  · have hregion := (hs.block hblock).around fun _ _ => Frame.Rests.leaveUnreachable
    exact ⟨hregion.frame, hregion.loopCount⟩

theorem rests_checkBranches {b : Branching} {branches : List (Surface.Expr × Surface.Block)}
    {out : List (Core.Expr × Core.Block) × Branching}
    (h : checkBranches ask scope b branches c = .ok out d) : c.Steps Frame.Rests d := by
  induction branches generalizing b c out with
  | nil =>
    cases h
    exact Context.steps_refl _
  | cons branch rest ih =>
    obtain ⟨test, block, outcome, checked, b', c₁, c₂, htest, harm, hrest, -⟩ :=
      checkBranches_cons_eq_ok h
    exact ((hs.expr rfl htest).rests.transRests (rests_checkArm hs harm)).transRests (ih hrest)

theorem rests_checkOtherwise {b : Branching} {otherwise : Option Surface.Block}
    {out : Option Core.Block × Branching}
    (h : checkOtherwise ask scope b otherwise c = .ok out d) : c.Steps Frame.Rests d := by
  cases otherwise with
  | none =>
    cases h
    exact Context.steps_refl _
  | some body =>
    obtain ⟨block, outcome, harm, -⟩ := checkOtherwise_some_eq_ok h
    exact rests_checkArm hs harm

theorem advances_optionalStmt {stmt : Option Surface.Stmt} {out : Option Core.Stmt}
    (h : optionalStmt ask scope stmt c = .ok out d) : c.Steps Frame.Advances d := by
  cases stmt with
  | none =>
    cases h
    exact (Context.steps_refl _).advances
  | some stmt =>
    obtain ⟨s, hs₁, -⟩ := optionalStmt_some_eq_ok h
    exact hs.stmt hs₁

theorem rests_loopCondition {condition : Option Surface.Expr}
    {out : Option Core.Expr × Option Bool}
    (h : loopCondition ask scope condition c = .ok out d) : c.Steps Frame.Rests d := by
  cases condition with
  | none =>
    cases h
    exact Context.steps_refl _
  | some e =>
    obtain ⟨test, htest, -⟩ := loopCondition_some_eq_ok h
    exact (hs.expr rfl htest).rests

/-- The iteration of a loop, from where its header has been gone through. -/
theorem advances_iteration {id : LoopId} {form : LoopForm}
    (steps : LoopSteps ask id form scope c d) :
    (steps.entered.reframe (form.enter id)).Steps Frame.Advances d :=
  ((rests_loopCondition hs steps.hcondition).transRests (rests_checkArm hs steps.hbody)).advances.trans
    (advances_optionalStmt hs steps.hstep)

theorem advances_loop {id : LoopId} {form : LoopForm} (steps : LoopSteps ask id form scope c d) :
    c.Steps Frame.Advances (d.reframe leaveLoop) :=
  (advances_optionalStmt hs steps.hinit).trans
    ((advances_iteration hs steps).around fun _ _ => Frame.Advances.leaveLoop)

theorem rests_loop {id : LoopId} {form : LoopForm}
    (steps : LoopSteps ask id form scope (header c) d) :
    c.Steps Frame.Rests (d.reframe (closed ∘ leaveLoop)) := by
  have hloop := (advances_loop hs steps).around fun _ _ => Frame.Advances.closed
  rw [d.reframe_reframe] at hloop
  exact ⟨hloop.frame, (Nat.le_succ _).trans hloop.loopCount⟩

theorem advances_loopStmt {form : LoopForm} {kind : Core.StmtKind}
    (h : loopStmt ask form scope c = .ok kind d) : c.Steps Frame.Advances d := by
  obtain ⟨c₁, c₂, steps, hsettle, hd, -⟩ := loopStmt_eq_ok h
  have hc₂ := ((rests_loop hs steps).transRests (advances_settleMoves hsettle)).advances
  rw [hd]
  split
  · exact hc₂.trans (c₂.steps_reframe fun f => f.advances_modifyTop (by intro b; rfl))
  · exact hc₂

theorem rests_decl {decl : Surface.VarDecl} (steps : DeclSteps ask decl scope c d) :
    c.Steps Frame.Rests steps.taken := by
  have hannotated : c.Steps Frame.Moves steps.annotated :=
    hs.evaluated steps.htype fun _ hP => preserves_writtenType hP.answers _ _
  have hvalued : steps.annotated.Steps Frame.Rests steps.valued := by
    rcases steps.hvalue with ⟨-, -, hsame⟩ | ⟨e, v, -, -, hv⟩
    · rw [hsame]
      exact Context.steps_refl _
    · exact (hs.expr rfl hv).rests
  have hcompleted : steps.valued.Steps Frame.Moves steps.completed :=
    hs.evaluated steps.hcomplete fun _ hP => preserves_complete hP.answers _ _
  have htaken : steps.completed.Steps Frame.Rests steps.taken := by
    rcases steps.htaken with ⟨-, -, hsame⟩ | ⟨v, -, hv⟩
    · rw [hsame]
      exact Context.steps_refl _
    · exact (hs.evaluated hv fun _ hP => hP.consume _).rests
  exact (hannotated.rests.transRests hvalued).transRests (hcompleted.rests.transRests htaken)

theorem advances_declStmt {decl : Surface.VarDecl} {kind : Core.StmtKind}
    (h : declStmt ask decl scope c = .ok kind d) : c.Steps Frame.Advances d := by
  obtain ⟨steps, -⟩ := declStmt_eq_ok h
  obtain ⟨-, hdeclared⟩ := declareLocal_eq_ok steps.hdeclare
  have hdeclare := steps.taken.steps_reframe_here (R := Frame.Advances)
    (steps.taken.here.advances_declare (l :=
      { name := decl.name, type := steps.type, constant := decl.constant
        ownership := if steps.type.shape.isCopyable then .unset else .owns
        value := if decl.constant then steps.value.bind (·.constant) else none
        depth := steps.taken.here.height - 1 }) rfl)
  rw [← hdeclared] at hdeclare
  exact (rests_decl hs steps).advances.trans hdeclare

theorem rests_assign {target value : Surface.Expr} {op : Option Surface.ArithmeticOp}
    (steps : AssignSteps ask target op value scope c d) : c.Steps Frame.Rests steps.taken := by
  have hplaced : c.Steps Frame.Moves steps.placed := hs.expr rfl steps.hplace
  have hvalued : steps.placed.Steps Frame.Moves steps.valued := by
    rcases steps.hsource with ⟨-, hv⟩ | ⟨o, right, -, hv, -⟩
    · exact hs.expr rfl hv
    · exact hs.expr rfl hv
  have htaken : steps.valued.Steps Frame.Moves steps.taken :=
    hs.evaluated steps.htaken fun _ hP => hP.consume _
  exact (hplaced.rests.transRests hvalued.rests).transRests htaken.rests

theorem advances_assignStmt {target value : Surface.Expr} {op : Option Surface.ArithmeticOp}
    {kind : Core.StmtKind} (h : assignStmt ask target op value scope c = .ok kind d) :
    c.Steps Frame.Advances d := by
  obtain ⟨steps, -⟩ := assignStmt_eq_ok h
  exact (rests_assign hs steps).advances.trans (advances_takeOwnership steps.hstored)

theorem advances_exprStmt {e : Surface.Expr} {kind : Core.StmtKind}
    (h : exprStmt ask e scope c = .ok kind d) : c.Steps Frame.Advances d := by
  obtain ⟨value, hvalue, -⟩ := exprStmt_eq_ok h
  exact (hs.evaluated hvalue fun _ hP => preserves_rawValue hP _ _ _).rests.advances

theorem rests_returnedValue {value : Option Surface.Expr} {returns : Ty} {span : Span}
    {out : Option Core.Expr} (h : returnedValue ask value returns span scope c = .ok out d) :
    c.Steps Frame.Rests d := by
  rcases returnedValue_eq_ok h with ⟨-, -, -, rfl⟩ | ⟨e, v, -, hv, -⟩ | ⟨e, v, c₁, -, hv, htaken, -⟩
  · exact Context.steps_refl _
  · exact (hs.evaluated hv fun _ hP => preserves_rawValue hP _ _ _).rests
  · exact (hs.expr rfl hv).rests.transRests
      (hs.evaluated htaken fun _ hP => hP.consume _).rests

theorem advances_returnStmt {value : Option Surface.Expr} {span : Span} {kind : Core.StmtKind}
    (h : returnStmt ask value span scope c = .ok kind d) : c.Steps Frame.Advances d := by
  obtain ⟨out, c₁, hout, -, rfl⟩ := returnStmt_eq_ok h
  exact (rests_returnedValue hs hout).advances.trans
    (c₁.steps_reframe fun f => f.advances_modifyTop (by intro b; rfl))

theorem advances_condStmt {branches : List (Surface.Expr × Surface.Block)}
    {otherwise : Option Surface.Block} {kind : Core.StmtKind}
    (h : condStmt ask branches otherwise scope c = .ok kind d) : c.Steps Frame.Advances d := by
  obtain ⟨checked, b, last, b', c₁, c₂, hbranches, hotherwise, -, rfl⟩ := condStmt_eq_ok h
  have hc₂ := (rests_checkBranches hs hbranches).transRests (rests_checkOtherwise hs hotherwise)
  exact hc₂.advances.trans (c₂.steps_reframe fun f => f.advances_modifyTop b'.locals_leave)

theorem advances_scopeStmt {block : Surface.Block} {kind : Core.StmtKind}
    (h : scopeStmt ask block scope c = .ok kind d) : c.Steps Frame.Advances d := by
  obtain ⟨out, c₁, hblock, -, rfl⟩ := scopeStmt_eq_ok h
  exact (hs.block hblock).advances.trans
    (c₁.steps_reframe fun f => f.advances_modifyTop (by intro b; rfl))

theorem advances_checkStmt {s : Surface.Stmt} {out : Core.Stmt}
    (h : checkStmt ask s scope c = .ok out d) : c.Steps Frame.Advances d := by
  obtain ⟨kind, hkind, -⟩ := checkStmt_eq_ok h
  refine stmtKind_elim hkind ?_ ?_ ?_ ?_ ?_ ?_ ?_ ?_
  · exact fun _ _ => advances_declStmt hs
  · exact fun _ _ _ _ => advances_assignStmt hs
  · exact fun _ _ => advances_exprStmt hs
  · exact fun _ _ => advances_returnStmt hs
  · exact fun _ _ _ => advances_jumpStmt
  · exact fun _ _ _ => advances_condStmt hs
  · exact fun _ _ => advances_loopStmt hs
  · exact fun _ _ => advances_scopeStmt hs

theorem Steady.step : Steady (step ask) where
  moves q hq origin :=
    (frameMoved_stable fun q hq => hs.moves q hq origin).step
      (preserves_resolveGlobal (frameMoved_stable fun q hq => hs.moves q hq origin)
        (fun _ _ hc => hc) fun _ _ _ _ hc => hc) q hq
  count q hq k :=
    (loopCount_stable k fun q hq => hs.count q hq k).step
      (preserves_resolveGlobal (loopCount_stable k fun q hq => hs.count q hq k)
        (fun _ _ hc => hc) fun _ _ _ _ hc => hc) q hq
  stmt h := advances_checkStmt hs h
  block h := rests_checkBlock hs h

end

/-- The answers to queries open and close what they open, and never anything else. -/
theorem steady_answerTo (n : Nat) : Steady (answerTo n) := by
  induction n with
  | zero =>
    refine ⟨fun _ _ _ => Run.preserves_stop _, fun _ _ _ => Run.preserves_stop _, ?_, ?_⟩
    · intro s scope c d out h
      cases h
    · intro b scope c d out h
      cases h
  | succ n ih => exact ih.step

end Check

end OwnLang
