import OwnLang.Proofs.Check.Body
import OwnLang.Proofs.Check.Elaborate
import OwnLang.Proofs.Check.Invariant
import OwnLang.Proofs.Check.Reach
import OwnLang.Proofs.Core.Nesting
import OwnLang.Proofs.Core.Route

/-!
# Accepted bodies

Loops are numbered as they are met, and a jump is checked only if it leads to a loop that is open. So
the tree of an accepted body is nested (`nested_checkBody`), in dead code as well. What is found out about
a body when it is accepted (`checkBody`) holds of all the bodies of a session, since nothing changes them
afterwards (`Session.Reachable.bodies`). So they all are orderly: their loops are nested, and no route
through them comes to dead code or falls off their end.
-/

namespace OwnLang

open OwnLang.Core (stmtsNested branchesNested otherwiseNested optionalNested)

/-- It does not matter for its nesting whether a statement is reached. -/
theorem Core.Stmt.Nested.flagged {around : List LoopId} {s : Core.Stmt} (h : s.Nested around)
    (dead : Bool) : (s.flagged dead).Nested around := by
  cases s
  exact h

theorem Core.stmtsNested_append {around : List LoopId} {stmts tail : List Core.Stmt}
    (h : stmtsNested around stmts) (htail : stmtsNested around tail) :
    stmtsNested around (stmts ++ tail) := by
  induction stmts with
  | nil => exact htail
  | cons s rest ih => exact ⟨h.1, ih h.2⟩

namespace Check

variable {ask : Asker} {scope : Scope} {c d : Context} {around : List LoopId}

/-- Control is in a body, inside the loops `around`, which were numbered before. -/
structure Inside (around : List LoopId) (c : Context) : Prop where
  frame : c.frame.isSome = true
  loops : c.here.loops.map (·.id) = around
  numbered : ∀ id ∈ around, id.index ≤ c.loopCount

theorem Inside.steps (hc : Inside around c) (h : c.Steps Frame.Advances d) : Inside around d := by
  refine ⟨?_, ?_, fun id hid => (hc.numbered id hid).trans h.loopCount⟩
  · obtain ⟨f, hf⟩ := Option.isSome_iff_exists.mp hc.frame
    obtain ⟨g, hg, -⟩ := h.exists hf
    rw [hg]
    rfl
  · rw [Frame.loops_ids (h.here (.refl _)).loops]
    exact hc.loops

theorem Inside.here_reframe (hc : Inside around c) (change : Frame → Frame) :
    (c.reframe change).here = change c.here := by
  obtain ⟨f, hf⟩ := Option.isSome_iff_exists.mp hc.frame
  unfold Context.reframe Context.here
  rw [hf]
  rfl

/-- A change of the frame that keeps its loops. -/
theorem Inside.reframe (hc : Inside around c) (change : Frame → Frame)
    (h : (change c.here).loops = c.here.loops) : Inside around (c.reframe change) := by
  refine ⟨?_, ?_, hc.numbered⟩
  · unfold Context.reframe
    rw [Option.isSome_map]
    exact hc.frame
  · rw [hc.here_reframe, h]
    exact hc.loops

theorem Inside.enter (hc : Inside around c) {id : LoopId} (hid : id.index ≤ c.loopCount)
    (form : LoopForm) : Inside (id :: around) (c.reframe (form.enter id)) := by
  refine ⟨?_, ?_, fun other hother => ?_⟩
  · unfold Context.reframe
    rw [Option.isSome_map]
    exact hc.frame
  · rw [hc.here_reframe]
    exact congrArg (id :: ·) hc.loops
  · rcases List.mem_cons.mp hother with rfl | hother
    · exact hid
    · exact hc.numbered other hother

/-- The answers to queries are nested. -/
structure Nests (ask : Asker) : Prop where
  stmt : ∀ {s scope c d out around}, ask (.stmt s scope) c = .ok out d → Inside around c →
    out.Nested around
  block : ∀ {b scope c d out around}, ask (.block b scope) c = .ok out d → Inside around c →
    out.1.Nested around

section

variable (hs : Steady ask) (hn : Nests ask)

include hs hn

theorem nested_unreachableStmts {stmts : List Surface.Stmt} {out : List Core.Stmt}
    (h : unreachableStmts ask scope stmts c = .ok out d) (hc : Inside around c) :
    stmtsNested around out := by
  induction stmts generalizing c out with
  | nil =>
    cases h
    trivial
  | cons stmt rest ih =>
    obtain ⟨s, c₁, after, hstmt, hafter, rfl⟩ := unreachableStmts_cons_eq_ok h
    exact ⟨(hn.stmt hstmt hc).flagged true, ih hafter (hc.steps (hs.stmt hstmt))⟩

theorem nested_checkStmts {stmts : List Surface.Stmt} {out : List Core.Stmt}
    (h : checkStmts ask scope stmts c = .ok out d) (hc : Inside around c) :
    stmtsNested around out := by
  induction stmts generalizing c out with
  | nil =>
    cases h
    trivial
  | cons stmt rest ih =>
    rcases checkStmts_cons_eq_ok h with
      ⟨-, warnings, c₁, hdead, -⟩ | ⟨-, s, c₁, after, hstmt, hafter, rfl⟩
    · have hwarned : Inside around { c with warnings } := ⟨hc.frame, hc.loops, hc.numbered⟩
      exact nested_unreachableStmts hs hn hdead (hwarned.reframe _ rfl)
    · exact ⟨(hn.stmt hstmt hc).flagged _, ih hafter (hc.steps (hs.stmt hstmt))⟩

theorem nested_checkBlock {block : Surface.Block} {out : Core.Block × BlockFrame}
    (h : checkBlock ask block scope c = .ok out d) (hc : Inside around c) : out.1.Nested around := by
  obtain ⟨stmts, c₁, hstmts, -, rfl⟩ := checkBlock_eq_ok h
  exact nested_checkStmts hs hn hstmts (hc.reframe _ rfl)

omit hs in
theorem nested_checkArm {block : Surface.Block} {dead : Bool} {out : Core.Block × BlockFrame}
    (h : checkArm ask block dead scope c = .ok out d) (hc : Inside around c) :
    out.1.Nested around := by
  rcases checkArm_eq_ok h with ⟨-, hblock⟩ | ⟨-, warnings, c₁, hblock, -⟩
  · exact hn.block hblock hc
  · have hwarned : Inside around { c with warnings } := ⟨hc.frame, hc.loops, hc.numbered⟩
    exact hn.block hblock (hwarned.reframe _ rfl)

theorem nested_checkBranches {b b' : Branching} {branches : List (Surface.Expr × Surface.Block)}
    {out : List (Core.Expr × Core.Block)} (h : checkBranches ask scope b branches c = .ok (out, b') d)
    (hc : Inside around c) : branchesNested around out := by
  induction branches generalizing b c out with
  | nil =>
    cases h
    trivial
  | cons branch rest ih =>
    obtain ⟨test, block, outcome, checked, b₁, c₁, c₂, htest, harm, hrest, hout⟩ :=
      checkBranches_cons_eq_ok h
    cases hout
    have hc₁ := hc.steps (hs.expr rfl htest).rests.advances
    exact ⟨nested_checkArm hn harm hc₁, ih hrest (hc₁.steps (rests_checkArm hs harm).advances)⟩

omit hs in
theorem nested_checkOtherwise {b b' : Branching} {otherwise : Option Surface.Block}
    {last : Option Core.Block} (h : checkOtherwise ask scope b otherwise c = .ok (last, b') d)
    (hc : Inside around c) : otherwiseNested around last := by
  cases otherwise with
  | none =>
    cases h
    trivial
  | some body =>
    obtain ⟨block, outcome, harm, hout⟩ := checkOtherwise_some_eq_ok h
    cases hout
    exact nested_checkArm hn harm hc

omit hs in
theorem nested_optionalStmt {stmt : Option Surface.Stmt} {out : Option Core.Stmt}
    (h : optionalStmt ask scope stmt c = .ok out d) (hc : Inside around c) :
    optionalNested around out := by
  cases stmt with
  | none =>
    cases h
    trivial
  | some stmt =>
    obtain ⟨s, hstmt, rfl⟩ := optionalStmt_some_eq_ok h
    exact hn.stmt hstmt hc

omit hs hn in
/-- A jump leads to a loop that is open. -/
theorem nested_jumpStmt {jump : Jump} {label : Option Surface.Ident} {span : Span}
    {kind : Core.StmtKind} (h : jumpStmt jump label span c = .ok kind d) (hc : Inside around c) :
    kind.Nested around := by
  obtain ⟨i, loop, c₁, htarget, -, rfl, -⟩ := jumpStmt_eq_ok h
  obtain ⟨j, -, hj⟩ := Option.bind_eq_some_iff.mp htarget
  obtain ⟨found, hfound, hpair⟩ := Option.map_eq_some_iff.mp hj
  cases hpair
  have hmem : loop.id ∈ around := hc.loops ▸ List.mem_map_of_mem (List.mem_of_getElem? hfound)
  cases jump <;> exact hmem

/-- A loop has a number that none of those around it has. -/
theorem nested_loopStmt {form : LoopForm} {kind : Core.StmtKind}
    (h : loopStmt ask form scope c = .ok kind d) (hc : Inside around c) : kind.Nested around := by
  obtain ⟨c₁, c₂, steps, -, -, rfl⟩ := loopStmt_eq_ok h
  have hcount : Inside around { c with loopCount := c.loopCount + 1 } :=
    ⟨hc.frame, hc.loops, fun id hid => Nat.le_succ_of_le (hc.numbered id hid)⟩
  have hheader : Inside around (header c) := hcount.reframe _ rfl
  have hinit := advances_optionalStmt hs steps.hinit
  have hinside : Inside (⟨c.loopCount + 1⟩ :: around) _ :=
    (hheader.steps hinit).enter hinit.loopCount form
  have htested := hinside.steps (rests_loopCondition hs steps.hcondition).advances
  have hbehind := htested.steps (rests_checkArm hs steps.hbody).advances
  refine ⟨fun hid => ?_, nested_optionalStmt hn steps.hinit hheader,
    nested_optionalStmt hn steps.hstep hbehind, nested_checkArm hn steps.hbody htested⟩
  exact absurd (hc.numbered _ hid) (Nat.not_succ_le_self _)

theorem nested_checkStmt {s : Surface.Stmt} {out : Core.Stmt}
    (h : checkStmt ask s scope c = .ok out d) (hc : Inside around c) : out.Nested around := by
  obtain ⟨kind, hkind, rfl⟩ := checkStmt_eq_ok h
  show kind.Nested around
  refine stmtKind_elim hkind ?_ ?_ ?_ ?_ ?_ ?_ ?_ ?_
  · intro decl _ h
    obtain ⟨steps, rfl⟩ := declStmt_eq_ok h
    trivial
  · intro target op value _ h
    obtain ⟨steps, rfl⟩ := assignStmt_eq_ok h
    trivial
  · intro e _ h
    obtain ⟨value, -, rfl⟩ := exprStmt_eq_ok h
    trivial
  · intro value _ h
    obtain ⟨out, c₁, -, rfl, -⟩ := returnStmt_eq_ok h
    trivial
  · exact fun _ _ _ h => nested_jumpStmt h hc
  · intro branches otherwise _ h
    obtain ⟨checked, b, last, b', c₁, c₂, hbranches, hotherwise, rfl, -⟩ := condStmt_eq_ok h
    exact ⟨nested_checkBranches hs hn hbranches hc,
      nested_checkOtherwise hn hotherwise (hc.steps (rests_checkBranches hs hbranches).advances)⟩
  · exact fun _ _ h => nested_loopStmt hs hn h hc
  · intro block _ h
    obtain ⟨out, c₁, hblock, rfl, -⟩ := scopeStmt_eq_ok h
    exact hn.block hblock hc

theorem Nests.step : Nests (step ask) where
  stmt h hc := nested_checkStmt hs hn h hc
  block h hc := nested_checkBlock hs hn h hc

end

theorem nests_answerTo (n : Nat) : Nests (answerTo n) := by
  induction n with
  | zero =>
    refine ⟨fun h => ?_, fun h => ?_⟩
    · cases h
    · cases h
  | succ n ih => exact ih.step (steady_answerTo n)

/-- The tree of an accepted body is nested. -/
theorem nested_checkBody {id : GlobalId} {body : Body} (h : checkBody answer id c = .ok body d) :
    body.block.Nested [] := by
  obtain ⟨decl, owner, t, params, variadic, returns, c₁, -, -, -, hbody⟩ := checkBody_eq_ok h
  obtain ⟨steps, rfl⟩ := checkTypedBody_eq_ok hbody
  obtain ⟨f, hframe, hf⟩ := steps.entering
  have hentered : Inside [] steps.entered := by
    refine ⟨by rw [hframe]; rfl, ?_, fun id hid => absurd hid List.not_mem_nil⟩
    rw [Context.here, hframe]
    exact congrArg (List.map (·.id)) hf.loops
  refine Core.stmtsNested_append (nested_checkStmts (steady_answerTo nestingBound)
    (nests_answerTo nestingBound) steps.hstmts hentered) ?_
  rcases finalReturn_eq_ok steps.hlast with ⟨-, hnone⟩ | ⟨-, -, span, hlast⟩
  · rw [hnone]
    trivial
  · rw [hlast]
    exact ⟨trivial, trivial⟩

end Check

/-! ## Orderly bodies -/

/-- Control goes through a body in ways that checking has followed. -/
structure Body.Orderly (body : Body) : Prop where
  nested : body.block.Nested []
  /-- No route comes to a statement that is flagged as unreachable. -/
  live : ¬(Core.Part.block body.block).Finds .dead
  /-- No route falls off the end. -/
  returns : ¬(Core.Part.block body.block).Finds (.leaves .falls)

namespace Check

variable {ask : Asker} {c d : Context}

theorem orderly_checkBody {id : GlobalId} {body : Body} (h : checkBody answer id c = .ok body d) :
    body.Orderly := by
  obtain ⟨decl, owner, t, params, variadic, returns, c₁, -, -, -, hbody⟩ := checkBody_eq_ok h
  have hwalk (choose : Nat → Bool) (n : Nat) :
      .dead ∉ (body.block.walk false choose n).events ∧
        ((body.block.walk false choose n).exit = .cut ∨
          (body.block.walk false choose n).exit = .returns) :=
    obeys_checkTypedBody (steady_answerTo nestingBound) (guided_answerTo nestingBound) hbody n
  -- A route is decided on by some choices, and then the walk goes where it leads.
  have hroute {goal : Core.Goal} (hfinds : (Core.Part.block body.block).Finds goal) :
      ∃ choose n last, goal.Met (body.block.walk false choose n) last := by
    obtain ⟨n, hn⟩ := hfinds
    obtain ⟨route, hroute⟩ := hn n (Nat.le_refl n)
    refine ⟨fun i => route[i]?.getD false, n, _, hroute _ 0 fun i b hi => ?_⟩
    rw [Nat.zero_add, hi]
    rfl
  refine ⟨nested_checkBody h, fun hdead => ?_, fun hfalls => ?_⟩
  · obtain ⟨choose, n, last, hmet⟩ := hroute hdead
    exact (hwalk choose n).1 hmet
  · obtain ⟨choose, n, last, hexit, -⟩ := hroute hfalls
    rcases (hwalk choose n).2 with hcut | hreturns
    · cases hcut.symm.trans hexit
    · cases hreturns.symm.trans hexit

/-! ## All bodies -/

/-- What holds of every checked body. -/
def Bodies (P : Body → Prop) (c : Context) : Prop := ∀ body ∈ c.bodies, P body

section

variable {Q : Array Body → Prop}

theorem bodies_additive : Additive fun c => Q c.bodies where
  global _ _ _ _ _ h := h
  struct _ _ _ _ h := h
  member _ _ _ h := h
  typeAlias _ _ _ h := h
  macroDef _ _ _ _ h := h

theorem bodies_detached {α : Type} {work : Check α} (h : work.Preserves fun c => Q c.bodies) :
    (detached work).Preserves fun c => Q c.bodies := by
  intro c d hd hc
  obtain ⟨e, hwork, rfl⟩ := Run.ends_andFinally hd
  have he : Q e.bodies := h hwork hc
  exact he

theorem bodies_modifyFrame (change : Frame → Frame) :
    (modifyFrame change).Preserves fun c => Q c.bodies := Run.preserves_modify fun _ hc => hc

theorem bodies_stable (ha : ∀ q, (ask q).Preserves fun c => Q c.bodies) :
    Stable ask fun c => Q c.bodies where
  answers q _ := ha q
  detached := bodies_detached
  consume := preserves_consume bodies_modifyFrame
  aliasStarted _ _ hc := hc
  aliasDone _ _ _ hc := hc
  structResolved := preserves_resolveStruct (fun q _ => ha q) bodies_detached (fun _ _ hc => hc)
    fun _ _ _ hc => hc
  macroDone _ _ _ _ hc := hc
  instantiate := preserves_instantiate bodies_additive (fun q _ => ha q) bodies_detached
    (fun _ _ _ hc => hc) fun _ _ _ hc => hc

theorem bodies_invariant (ha : ∀ q, (ask q).Preserves fun c => Q c.bodies) :
    Invariant ask fun c => Q c.bodies where
  toStable := bodies_stable ha
  everyAnswer := ha
  agrees _ _ h hc := h.bodies ▸ hc
  bodyOpened _ _ _ hc := hc
  bodyClosed _ hc := hc
  param _ _ := preserves_declareLocal bodies_modifyFrame _ _ _ _
  receiver _ _ := preserves_declareLocal bodies_modifyFrame _ _ _ _
  declared := preserves_declStmt bodies_modifyFrame (bodies_stable ha)

theorem bodies_answer (q : Query) : (answer q).Preserves fun c => Q c.bodies :=
  preserves_answerTo (fun _ ha => (bodies_invariant ha).step
    (preserves_resolveGlobal (bodies_stable ha) (fun _ _ hc => hc) fun _ _ _ _ hc => hc))
    nestingBound q

/-- Answers look at no bodies that were checked. -/
theorem bodies_untouched (Q : Array Body → Prop) : Invariant answer fun c => Q c.bodies :=
  bodies_invariant bodies_answer

theorem bodies_lasting {P : Body → Prop}
    (h : ∀ {c d id body}, checkBody answer id c = .ok body d → P body) :
    Lasting answer (Bodies P) where
  toInvariant := bodies_untouched fun bodies => ∀ body ∈ bodies, P body
  packages _ _ hc := hc
  entityDeclared := preserves_declareEntity
    (bodies_additive (Q := fun bodies => ∀ body ∈ bodies, P body))
  templateDeclared _ := preserves_declareTemplate (fun _ _ hc => hc) fun _ _ _ hc => hc
  bodyTaken _ _ _ _ hc := hc
  bodyAccepted c d id body hbody _ hd other hother := by
    rcases Array.mem_push.mp hother with hother | rfl
    · exact hd other hother
    · exact h hbody

/-- Checking a body does not look at those before it. -/
theorem bodies_checkBody {id : GlobalId} {body : Body} (h : checkBody answer id c = .ok body d) :
    d.bodies = c.bodies :=
  preserves_checkBody (bodies_untouched (· = c.bodies)) id (Run.ends_of_ok h) rfl

end

end Check

namespace Session

/-- What holds of a body when it is accepted holds of all the bodies of a session. -/
theorem Reachable.bodies {P : Body → Prop} {c : Context} (hc : Reachable c)
    (h : ∀ {c d id body}, Check.checkBody Check.answer id c = .ok body d → P body) :
    ∀ body ∈ c.bodies, P body := by
  obtain ⟨options, hlater⟩ := hc
  exact hlater.keeps (Check.bodies_lasting h) fun body hbody => by simp at hbody

theorem Reachable.orderly {c : Context} (hc : Reachable c) : ∀ body ∈ c.bodies, body.Orderly :=
  hc.bodies Check.orderly_checkBody

end Session

end OwnLang
