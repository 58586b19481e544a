import OwnLang.Proofs.Check.Accepted
import OwnLang.Proofs.Core.Nesting

/-!
# Accepted bodies are pruned

Checking flags what stands behind a point that control leaves the block at, and a jump leaves its block for good. So
the tree of an accepted body is pruned (`Session.Reachable.pruned`), in dead code as well.
-/

namespace OwnLang

open OwnLang.Core (stmtsPruned branchesPruned otherwisePruned optionalPruned stmtsJump Unreached)

namespace Check

variable {ask : Asker} {scope : Scope} {c d : Context}

/-- Control, perhaps dead, is in a block of a body. -/
structure Upon (c : Context) : Prop where
  frame : c.frame.isSome = true
  blocks : c.here.blocks ≠ []

theorem Upon.here_reframe (hc : Upon c) (change : Frame → Frame) : (c.reframe change).here = change c.here := by
  obtain ⟨f, hf⟩ := Option.isSome_iff_exists.mp hc.frame
  unfold Context.reframe Context.here
  rw [hf]
  rfl

theorem Upon.reframe (hc : Upon c) {change : Frame → Frame} (h : (change c.here).blocks ≠ []) :
    Upon (c.reframe change) := by
  refine ⟨?_, hc.here_reframe change ▸ h⟩
  unfold Context.reframe
  rw [Option.isSome_map]
  exact hc.frame

theorem Upon.steps (hc : Upon c) (h : c.Steps Frame.Advances d) : Upon d := by
  refine ⟨?_, fun hnil => ?_⟩
  · obtain ⟨f, hf⟩ := Option.isSome_iff_exists.mp hc.frame
    obtain ⟨g, hg, -⟩ := h.exists hf
    rw [hg]
    rfl
  · have hheight := (h.here (.refl _)).height
    unfold Frame.height at hheight
    rw [hnil] at hheight
    exact hc.blocks (List.length_eq_zero_iff.mp hheight.symm)

/-- A block is open where one that is changed is. -/
theorem Upon.of_modifyTop {change : BlockFrame → BlockFrame} (h : Upon (c.reframe fun f => f.modifyTop change)) :
    Upon c := by
  have hframe : c.frame.isSome = true := by
    have hframe := h.frame
    unfold Context.reframe at hframe
    rwa [Option.isSome_map] at hframe
  refine ⟨hframe, fun hnil => h.blocks ?_⟩
  obtain ⟨f, hf⟩ := Option.isSome_iff_exists.mp hframe
  unfold Context.reframe Context.here
  unfold Context.here at hnil
  rw [hf] at hnil ⊢
  simp only [Option.map_some, Option.getD_some] at hnil ⊢
  rw [Frame.modifyTop, hnil]
  exact hnil

/-- A change of the innermost block that tells that control has left it. -/
theorem Upon.modifyTop (hc : Upon c) {change : BlockFrame → BlockFrame} {ended : Prop}
    (hchange : ended → (change c.here.top).terminated = true) (h : ended) :
    (c.reframe fun f => f.modifyTop change).here.top.terminated = true := by
  rw [hc.here_reframe, Frame.modifyTop_top hc.blocks]
  exact hchange h

/-- The answers to queries are pruned. Where control has left a block it does not come back, and where a statement
jumps it leaves the block. -/
structure Prunes (ask : Asker) : Prop where
  stmt : ∀ {s scope c d out}, ask (.stmt s scope) c = .ok out d → Upon c →
    out.Pruned ∧ (c.here.top.terminated = true ∨ out.jumps = true → d.here.top.terminated = true)
  block : ∀ {b scope c d out}, ask (.block b scope) c = .ok out d → Upon c →
    out.1.Pruned ∧ (out.1.jumps = true → out.2.terminated = true)

theorem terminated_rests (h : c.Steps Frame.Rests d) : d.here.top.terminated = c.here.top.terminated :=
  (h.here (.refl _)).top.terminated

section

variable (hs : Steady ask) (hp : Prunes ask)

include hs hp

theorem pruned_unreachableStmts {stmts : List Surface.Stmt} {out : List Core.Stmt}
    (h : unreachableStmts ask scope stmts c = .ok out d) (hc : Upon c) :
    stmtsPruned out ∧ Unreached out ∧ (c.here.top.terminated = true → d.here.top.terminated = true) := by
  induction stmts generalizing c out with
  | nil =>
    cases h
    exact ⟨trivial, List.forall_mem_nil _, id⟩
  | cons stmt rest ih =>
    obtain ⟨s, c₁, after, hstmt, hafter, rfl⟩ := unreachableStmts_cons_eq_ok h
    obtain ⟨hpruned, hended⟩ := hp.stmt hstmt hc
    obtain ⟨hrest, hdead, hkept⟩ := ih hafter (hc.steps (hs.stmt hstmt))
    exact ⟨⟨hpruned.flagged true, nofun, hrest⟩, List.forall_mem_cons.mpr ⟨rfl, hdead⟩,
      fun hterminated => hkept (hended (.inl hterminated))⟩

theorem pruned_checkStmts {stmts : List Surface.Stmt} {out : List Core.Stmt}
    (h : checkStmts ask scope stmts c = .ok out d) (hc : Upon c) :
    stmtsPruned out ∧ (c.here.top.terminated = true → Unreached out) ∧
      (c.here.top.terminated = true ∨ stmtsJump out = true → d.here.top.terminated = true) := by
  induction stmts generalizing c out with
  | nil =>
    cases h
    exact ⟨trivial, fun _ => List.forall_mem_nil _, fun h => h.resolve_right nofun⟩
  | cons stmt rest ih =>
    rcases checkStmts_cons_eq_ok h with
      ⟨hterminated, warnings, c₁, hdead, rfl, -⟩ | ⟨hreached, s, c₁, after, hstmt, hafter, rfl⟩
    · have hwarned : Upon { c with warnings } := ⟨hc.frame, hc.blocks⟩
      obtain ⟨hpruned, hunreached, hkept⟩ := pruned_unreachableStmts hs hp hdead (hwarned.reframe hc.blocks)
      refine ⟨hpruned, fun _ => hunreached, fun _ => ?_⟩
      rw [c₁.here_reframe rfl]
      refine hkept ?_
      rwa [hwarned.here_reframe]
    · obtain ⟨hpruned, hended⟩ := hp.stmt hstmt hc
      obtain ⟨hrest, hunreached, hkept⟩ := ih hafter (hc.steps (hs.stmt hstmt))
      refine ⟨⟨hpruned.flagged _, fun _ hjumps => ?_, hrest⟩, fun hterminated => ?_, fun hjumps => hkept ?_⟩
      · exact hunreached (hended (.inr (s.jumps_flagged _ ▸ hjumps)))
      · exact absurd (hreached.symm.trans hterminated) Bool.false_ne_true
      · rcases hjumps with hterminated | hjumps
        · exact .inl (hended (.inl hterminated))
        · rcases Bool.or_eq_true_iff.mp hjumps with hfirst | hlater
          · exact .inl (hended (.inr (s.jumps_flagged _ ▸ (Bool.and_eq_true_iff.mp hfirst).2)))
          · exact .inr hlater

theorem pruned_checkBlock {block : Surface.Block} {out : Core.Block × BlockFrame}
    (h : checkBlock ask block scope c = .ok out d) (hc : Upon c) :
    out.1.Pruned ∧ (out.1.jumps = true → out.2.terminated = true) := by
  obtain ⟨stmts, c₁, hstmts, -, rfl⟩ := checkBlock_eq_ok h
  obtain ⟨hpruned, -, hended⟩ := pruned_checkStmts hs hp hstmts (hc.reframe (List.cons_ne_nil _ _))
  exact ⟨hpruned, fun hjumps => hended (.inr hjumps)⟩

omit hs in
theorem pruned_checkArm {block : Surface.Block} {dead : Bool} {out : Core.Block × BlockFrame}
    (h : checkArm ask block dead scope c = .ok out d) (hc : Upon c) : out.1.Pruned := by
  rcases checkArm_eq_ok h with ⟨-, hblock⟩ | ⟨-, warnings, c₁, hblock, -⟩
  · exact (hp.block hblock hc).1
  · have hwarned : Upon { c with warnings } := ⟨hc.frame, hc.blocks⟩
    exact (hp.block hblock (hwarned.reframe hc.blocks)).1

theorem pruned_checkBranches {b b' : Branching} {branches : List (Surface.Expr × Surface.Block)}
    {out : List (Core.Expr × Core.Block)} (h : checkBranches ask scope b branches c = .ok (out, b') d)
    (hc : Upon c) : branchesPruned out := by
  induction branches generalizing b c out with
  | nil =>
    cases h
    trivial
  | cons branch rest ih =>
    obtain ⟨test, block, outcome, checked, b₁, c₁, c₂, htest, harm, hrest, hout⟩ :=
      checkBranches_cons_eq_ok h
    cases hout
    have hc₁ := hc.steps (hs.expr rfl htest).rests.advances
    exact ⟨pruned_checkArm hp harm hc₁, ih hrest (hc₁.steps (rests_checkArm hs harm).advances)⟩

omit hs in
theorem pruned_checkOtherwise {b b' : Branching} {otherwise : Option Surface.Block}
    {last : Option Core.Block} (h : checkOtherwise ask scope b otherwise c = .ok (last, b') d)
    (hc : Upon c) : otherwisePruned last := by
  cases otherwise with
  | none =>
    cases h
    trivial
  | some body =>
    obtain ⟨block, outcome, harm, hout⟩ := checkOtherwise_some_eq_ok h
    cases hout
    exact pruned_checkArm hp harm hc

omit hs in
theorem pruned_optionalStmt {stmt : Option Surface.Stmt} {out : Option Core.Stmt}
    (h : optionalStmt ask scope stmt c = .ok out d) (hc : Upon c) : optionalPruned out := by
  cases stmt with
  | none =>
    cases h
    trivial
  | some stmt =>
    obtain ⟨s, hstmt, rfl⟩ := optionalStmt_some_eq_ok h
    exact (hp.stmt hstmt hc).1

theorem pruned_loopStmt {form : LoopForm} {kind : Core.StmtKind}
    (h : loopStmt ask form scope c = .ok kind d) (hc : Upon c) : kind.Pruned := by
  obtain ⟨c₁, c₂, steps, -, -, rfl⟩ := loopStmt_eq_ok h
  have hcount : Upon { c with loopCount := c.loopCount + 1 } := ⟨hc.frame, hc.blocks⟩
  have hheader : Upon (header c) := hcount.reframe (List.cons_ne_nil _ _)
  have hentered := hheader.steps (advances_optionalStmt hs steps.hinit)
  have hinside : Upon (steps.entered.reframe (form.enter ⟨c.loopCount + 1⟩)) := hentered.reframe hentered.blocks
  have htested := hinside.steps (rests_loopCondition hs steps.hcondition).advances
  have hbehind := htested.steps (rests_checkArm hs steps.hbody).advances
  exact ⟨pruned_optionalStmt hp steps.hinit hheader, pruned_optionalStmt hp steps.hstep hbehind,
    pruned_checkArm hp steps.hbody htested⟩

/-! ## Where control goes on -/

omit hp in
theorem terminated_declStmt {decl : Surface.VarDecl} {kind : Core.StmtKind}
    (h : declStmt ask decl scope c = .ok kind d) (hc : Upon c) :
    d.here.top.terminated = c.here.top.terminated := by
  obtain ⟨steps, -⟩ := declStmt_eq_ok h
  obtain ⟨-, hd⟩ := declareLocal_eq_ok steps.hdeclare
  have hrests := rests_decl hs steps
  rw [hd, (hc.steps hrests.advances).here_reframe]
  exact (Frame.terminated_declare _ _).trans (terminated_rests hrests)

omit hp in
theorem terminated_assignStmt {target value : Surface.Expr} {op : Option Surface.ArithmeticOp}
    {kind : Core.StmtKind} (h : assignStmt ask target op value scope c = .ok kind d) (hc : Upon c) :
    d.here.top.terminated = c.here.top.terminated := by
  obtain ⟨steps, -⟩ := assignStmt_eq_ok h
  have hrests := rests_assign hs steps
  rcases takeOwnership_eq_ok steps.hstored with ⟨-, -, hd⟩ | ⟨-, id, -, -, hd⟩
  · rw [hd]
    exact terminated_rests hrests
  · rw [hd, (hc.steps hrests.advances).here_reframe]
    exact (Frame.terminated_own _ _).trans (terminated_rests hrests)

omit hp in
theorem terminated_condStmt {branches : List (Surface.Expr × Surface.Block)}
    {otherwise : Option Surface.Block} {kind : Core.StmtKind}
    (h : condStmt ask branches otherwise scope c = .ok kind d) (hc : Upon c)
    (hterminated : c.here.top.terminated = true) : d.here.top.terminated = true := by
  obtain ⟨checked, b, last, b', c₁, c₂, hbranches, hotherwise, -, rfl⟩ := condStmt_eq_ok h
  have hrests := (rests_checkBranches hs hbranches).transRests (rests_checkOtherwise hs hotherwise)
  refine (hc.steps hrests.advances).modifyTop (fun hended => ?_) ((terminated_rests hrests).trans hterminated)
  unfold Branching.leave
  unfold BlockFrame.terminated at hended ⊢
  split
  · split
    · rfl
    · revert hended
      cases c₂.here.top.returned <;> cases c₂.here.top.jumpedTo <;> simp
  · exact hended

omit hp in
theorem terminated_loopStmt {form : LoopForm} {kind : Core.StmtKind}
    (h : loopStmt ask form scope c = .ok kind d) (hc : Upon c)
    (hterminated : c.here.top.terminated = true) : d.here.top.terminated = true := by
  obtain ⟨c₁, c₂, steps, hsettle, rfl, -⟩ := loopStmt_eq_ok h
  have hrests := (rests_loop hs steps).transRests (advances_settleMoves hsettle)
  have hkept := (terminated_rests hrests).trans hterminated
  split
  · exact (hc.steps hrests.advances).modifyTop (fun _ => rfl) hkept
  · exact hkept

theorem pruned_scopeStmt {block : Surface.Block} {kind : Core.StmtKind}
    (h : scopeStmt ask block scope c = .ok kind d) (hc : Upon c) :
    kind.Pruned ∧ (c.here.top.terminated = true ∨ kind.jumps = true → d.here.top.terminated = true) := by
  obtain ⟨out, c₁, hblock, rfl, rfl⟩ := scopeStmt_eq_ok h
  obtain ⟨hpruned, hended⟩ := hp.block hblock hc
  have hrests := hs.block hblock
  refine ⟨hpruned, (hc.steps hrests.advances).modifyTop fun hleft => ?_⟩
  have hor : c₁.here.top.terminated = true ∨ out.2.terminated = true := by
    rw [terminated_rests hrests]
    exact hleft.imp_right hended
  unfold scopeLeave
  unfold BlockFrame.terminated at hor ⊢
  revert hor
  cases c₁.here.top.returned <;> cases c₁.here.top.jumpedTo <;> simp

theorem pruned_checkStmt {s : Surface.Stmt} {out : Core.Stmt}
    (h : checkStmt ask s scope c = .ok out d) (hc : Upon c) :
    out.Pruned ∧ (c.here.top.terminated = true ∨ out.jumps = true → d.here.top.terminated = true) := by
  obtain ⟨kind, hkind, rfl⟩ := checkStmt_eq_ok h
  show kind.Pruned ∧ (c.here.top.terminated = true ∨ kind.jumps = true → d.here.top.terminated = true)
  refine stmtKind_elim hkind ?_ ?_ ?_ ?_ ?_ ?_ ?_ ?_
  · intro decl _ h
    have hkept := terminated_declStmt hs h hc
    obtain ⟨steps, rfl⟩ := declStmt_eq_ok h
    exact ⟨trivial, fun hended => hkept.trans (hended.resolve_right nofun)⟩
  · intro target op value _ h
    have hkept := terminated_assignStmt hs h hc
    obtain ⟨steps, rfl⟩ := assignStmt_eq_ok h
    exact ⟨trivial, fun hended => hkept.trans (hended.resolve_right nofun)⟩
  · intro e _ h
    obtain ⟨value, hvalue, rfl⟩ := exprStmt_eq_ok h
    have hkept := terminated_rests (hs.evaluated hvalue fun _ hP => preserves_rawValue hP _ _ _).rests
    exact ⟨trivial, fun hended => hkept.trans (hended.resolve_right nofun)⟩
  · intro value _ h
    obtain ⟨out, c₁, hout, rfl, rfl⟩ := returnStmt_eq_ok h
    exact ⟨trivial, (hc.steps (rests_returnedValue hs hout).advances).modifyTop fun _ => rfl⟩
  · intro jump label _ h
    have hd := hc.steps (advances_jumpStmt h)
    obtain ⟨i, loop, c₁, -, -, rfl, rfl⟩ := jumpStmt_eq_ok h
    exact ⟨by cases jump <;> trivial, fun _ => hd.of_modifyTop.modifyTop (fun _ => Bool.or_true _) trivial⟩
  · intro branches otherwise _ h
    have hkept := terminated_condStmt hs h hc
    obtain ⟨checked, b, last, b', c₁, c₂, hbranches, hotherwise, rfl, -⟩ := condStmt_eq_ok h
    exact ⟨⟨pruned_checkBranches hs hp hbranches hc,
      pruned_checkOtherwise hp hotherwise (hc.steps (rests_checkBranches hs hbranches).advances)⟩,
      fun hended => hkept (hended.resolve_right nofun)⟩
  · intro form _ h
    have hpruned := pruned_loopStmt hs hp h hc
    have hkept := terminated_loopStmt hs h hc
    obtain ⟨c₁, c₂, steps, -, -, rfl⟩ := loopStmt_eq_ok h
    exact ⟨hpruned, fun hended => hkept (hended.resolve_right nofun)⟩
  · exact fun _ _ h => pruned_scopeStmt hs hp h hc

theorem Prunes.step : Prunes (step ask) where
  stmt h hc := pruned_checkStmt hs hp h hc
  block h hc := pruned_checkBlock hs hp h hc

end

theorem prunes_answerTo (n : Nat) : Prunes (answerTo n) := by
  induction n with
  | zero =>
    refine ⟨fun h => ?_, fun h => ?_⟩
    · cases h
    · cases h
  | succ n ih => exact ih.step (steady_answerTo n)

/-- The tree of an accepted body is pruned. -/
theorem pruned_checkBody {id : GlobalId} {body : Body} (h : checkBody answer id c = .ok body d) :
    body.block.Pruned := by
  obtain ⟨decl, owner, t, params, variadic, returns, c₁, -, -, -, hbody⟩ := checkBody_eq_ok h
  obtain ⟨steps, rfl⟩ := checkTypedBody_eq_ok hbody
  have hlive : Live steps.entered := IsEntering.live steps.entering
  obtain ⟨hpruned, -, hended⟩ := pruned_checkStmts (steady_answerTo nestingBound)
    (prunes_answerTo nestingBound) steps.hstmts ⟨hlive.frame, hlive.blocks⟩
  refine Core.stmtsPruned_append hpruned ?_ fun hjumps => ?_
  · rcases finalReturn_eq_ok steps.hlast with ⟨-, hnone⟩ | ⟨-, -, span, hlast⟩
    · rw [hnone]
      trivial
    · rw [hlast]
      exact ⟨trivial, fun _ _ => List.forall_mem_nil _, trivial⟩
  · rcases finalReturn_eq_ok steps.hlast with ⟨-, hnone⟩ | ⟨hreached, -⟩
    · rw [hnone]
      exact List.forall_mem_nil _
    · exact absurd (hended (.inr hjumps)) (by rw [hreached]; exact Bool.false_ne_true)

end Check

theorem Session.Reachable.pruned {c : Context} (hc : Reachable c) : ∀ body ∈ c.bodies, body.block.Pruned :=
  hc.bodies Check.pruned_checkBody

end OwnLang
