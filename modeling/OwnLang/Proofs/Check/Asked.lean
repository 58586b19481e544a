import Mathlib
import OwnLang.Proofs.Check.Fewer
import OwnLang.Proofs.Check.Tidy
import OwnLang.Proofs.Core.Nesting

/-!
# Questions that a body puts

Checking the body of a function puts questions on the way, some of them deep inside others. It puts
a question in a context if no cut that refuses an answer there lets the body pass (`Check.Puts`). Every
statement and every block in the tree of an accepted body is the answer to such a question, which is
put where as many blocks and loops are open as stand around it in the tree (`Check.Within`). So what
holds of the answers to questions that are put in a function holds all over the tree
(`every_checkBody`).
-/

namespace OwnLang

open OwnLang.Core (stmtsEvery branchesEvery otherwiseEvery optionalEvery)

namespace Check

/-- A function is open, in as many blocks and in the loops that stand around a part of its tree. -/
structure Within (nest : Core.Nest) (c : Context) : Prop extends InFunction c where
  depth : c.here.height = nest.depth
  loops : c.here.loops.map (fun loop => (loop.id, loop.bodyDepth)) = nest.loops

/-- A cut lets the body of a function pass. -/
def Lets (id : GlobalId) (origin : Context) (cut : Cut) : Prop :=
  ∃ body d, checkBody (answerCut cut nestingBound) id origin = .ok body d

/-- Checking the body of a function puts a question in a context: no cut that lets the body pass
refuses an answer to the question there. -/
def Puts (id : GlobalId) (origin : Context) (q : Query) (c : Context) : Prop :=
  ∀ cut, Lets id origin cut → cut q c = none

/-- A part of checking a body succeeds, where questions nest at most `n` deep from there on, and does
so under every cut that lets the body pass. -/
structure Passes {α : Type} (id : GlobalId) (origin : Context) (n : Nat) (x : Asker → Check α)
    (c : Context) (a : α) (d : Context) : Prop where
  bound : n ≤ nestingBound
  run : x (answerTo n) c = .ok a d
  due : ∀ cut, Lets id origin cut → ∃ b e, x (answerCut cut n) c = .ok b e

variable {α β : Type} {id : GlobalId} {origin c d : Context} {n : Nat} {scope : Scope}
  {nest : Core.Nest}

/-- The parts of checking under a cut are followed by the same parts without. -/
theorem followingBody_cut (cut : Cut) (n : Nat) :
    FollowingBody .plain (answerCut cut n) (answerTo n) :=
  followingBody_plain fun q => answerCut_plain cut le_rfl q

namespace Passes

/-- What is done in turn passes in turn. -/
theorem bind {x : Asker → Check α} {k : Asker → α → Check β} {b : β}
    (h : Passes id origin n (fun ask => x ask >>= k ask) c b d)
    (hx : ∀ cut, (x (answerCut cut n)).Follows .plain (x (answerTo n))) :
    ∃ a c₁, Passes id origin n x c a c₁ ∧ Passes id origin n (fun ask => k ask a) c₁ b d := by
  obtain ⟨a, c₁, ha, hrest⟩ := Run.bind_eq_ok.mp h.run
  refine ⟨a, c₁, ⟨h.bound, ha, fun cut hcut => ?_⟩, ⟨h.bound, hrest, fun cut hcut => ?_⟩⟩
  · obtain ⟨b', d', hb⟩ := h.due cut hcut
    obtain ⟨a', c₂, ha', -⟩ := Run.bind_eq_ok.mp hb
    exact ⟨a', c₂, ha'⟩
  · obtain ⟨b', d', hb⟩ := h.due cut hcut
    obtain ⟨a', c₂, ha', hrest'⟩ := Run.bind_eq_ok.mp hb
    cases ha.symm.trans (Run.follows_plain.mp (hx cut) ha')
    exact ⟨b', d', hrest'⟩

/-- The last step of a part answers for the part. -/
theorem ret {a b : α} (h : Passes id origin n (fun _ => pure b) c a d) : b = a ∧ c = d := by
  cases h.run
  exact ⟨rfl, rfl⟩

/-- What has to succeed for a part to succeed passes. -/
theorem due_of {x : Asker → Check α} {y : Asker → Check β} {a : α} {b : β} {c₁ d₁ : Context}
    (h : Passes id origin n x c a d) (hrun : y (answerTo n) c₁ = .ok b d₁)
    (hdue : ∀ cut a d, x (answerCut cut n) c = .ok a d → ∃ b e, y (answerCut cut n) c₁ = .ok b e) :
    Passes id origin n y c₁ b d₁ := by
  refine ⟨h.bound, hrun, fun cut hcut => ?_⟩
  obtain ⟨a', d', hx⟩ := h.due cut hcut
  exact hdue cut a' d' hx

theorem answered {q : Query} (cut : Cut) : (answerCut cut n q).Follows .plain (answerTo n q) :=
  answerCut_plain cut le_rfl q

/-- A question that passes is put. -/
theorem puts {q : Query} {a : q.Answer} (h : Passes id origin (n + 1) (fun ask => ask q) c a d) :
    Puts id origin q c := by
  intro cut hcut
  obtain ⟨b, e, hb⟩ := h.due cut hcut
  by_contra hsome
  obtain ⟨why, hwhy⟩ := Option.ne_none_iff_exists'.mp hsome
  simp only [answerCut, Asker.cutAt, hwhy] at hb
  cases hb

/-- What an answer is found with passes one question less deep. -/
theorem inner {q : Query} {a : q.Answer} (h : Passes id origin (n + 1) (fun ask => ask q) c a d) :
    Passes id origin n (fun ask => step ask q) c a d := by
  refine ⟨Nat.le_of_succ_le h.bound, h.run, fun cut hcut => ?_⟩
  obtain ⟨b, e, hb⟩ := h.due cut hcut
  exact ⟨b, e, cutAt_eq_ok hb⟩

/-! ## Statements of a block -/

/-- A region that no execution reaches is gone through behind its warning. -/
theorem region {stmts : List Surface.Stmt} {k : Asker → Check α} {a : α}
    (h : Passes id origin n
      (fun ask => warnUnreachable stmts >>= fun _ => enterUnreachable >>= fun _ => k ask) c a d) :
    ∃ warnings, Passes id origin n k
      ({ c with warnings }.reframe fun f => { f with unreachable := f.unreachable + 1 }) a d := by
  obtain ⟨u, c₁, hwarn, hrest⟩ := h.bind fun _ => Run.follows_self _
  obtain rfl := warnUnreachable_eq_ok hwarn.run
  obtain ⟨u, c₂, henter, hrest⟩ := hrest.bind fun _ => Run.follows_self _
  cases henter.run
  exact ⟨_, hrest⟩

theorem unreachable_cons {stmt : Surface.Stmt} {rest : List Surface.Stmt} {out : List Core.Stmt}
    (h : Passes id origin n (fun ask => unreachableStmts ask scope (stmt :: rest)) c out d) :
    ∃ s c₁ after, Passes id origin n (fun ask => ask (.stmt stmt scope)) c s c₁ ∧
      Passes id origin n (fun ask => unreachableStmts ask scope rest) c₁ after d ∧
      out = s.flagged true :: after := by
  obtain ⟨s, c₁, hs, hrest⟩ := h.bind fun cut => answered cut
  obtain ⟨after, c₂, hafter, hreturn⟩ := hrest.bind fun cut =>
    follows_unreachableStmts (followingBody_cut cut n).toFollowingFlat _ _
  obtain ⟨rfl, rfl⟩ := hreturn.ret
  exact ⟨s, c₁, after, hs, hafter, rfl⟩

theorem stmts_cons {stmt : Surface.Stmt} {rest : List Surface.Stmt} {out : List Core.Stmt}
    (h : Passes id origin n (fun ask => checkStmts ask scope (stmt :: rest)) c out d) :
    (∃ warnings c₁, Passes id origin n (fun ask => unreachableStmts ask scope (stmt :: rest))
        ({ c with warnings }.reframe fun f => { f with unreachable := f.unreachable + 1 }) out c₁) ∨
    ∃ s c₁ after dead, Passes id origin n (fun ask => ask (.stmt stmt scope)) c s c₁ ∧
      Passes id origin n (fun ask => checkStmts ask scope rest) c₁ after d ∧
      out = s.flagged dead :: after := by
  obtain ⟨f, c₁, hf, hrest⟩ := h.bind fun _ => Run.follows_self _
  obtain ⟨rfl, rfl⟩ : f = c.here ∧ c₁ = c := by
    cases hf.run
    exact ⟨rfl, rfl⟩
  cases hterminated : c₁.here.top.terminated with
  | true =>
    simp only [hterminated, if_true] at hrest
    obtain ⟨warnings, hregion⟩ := hrest.region
    obtain ⟨checked, c₂, hchecked, hrest⟩ := hregion.bind fun cut =>
      follows_unreachableStmts (followingBody_cut cut n).toFollowingFlat _ _
    obtain ⟨u, c₃, hleave, hreturn⟩ := hrest.bind fun _ => Run.follows_self _
    obtain ⟨rfl, rfl⟩ := hreturn.ret
    exact .inl ⟨warnings, c₂, hchecked⟩
  | false =>
    simp only [hterminated, if_false, Bool.false_eq_true] at hrest
    obtain ⟨s, c₂, hs, hrest⟩ := hrest.bind fun cut => answered cut
    obtain ⟨dead, c₃, hdead, hrest⟩ := hrest.bind fun _ => Run.follows_self _
    cases hdead.run
    obtain ⟨after, c₄, hafter, hreturn⟩ := hrest.bind fun cut =>
      follows_checkStmts (followingBody_cut cut n).toFollowingFlat _ _
    obtain ⟨rfl, rfl⟩ := hreturn.ret
    exact .inr ⟨s, c₂, after, _, hs, hafter, rfl⟩

theorem arm_block {block : Surface.Block} {dead : Bool} {out : Core.Block × BlockFrame}
    (h : Passes id origin n (fun ask => checkArm ask block dead scope) c out d) :
    Passes id origin n (fun ask => ask (.block block scope)) c out d ∨
    ∃ warnings c₁, Passes id origin n (fun ask => ask (.block block scope))
      ({ c with warnings }.reframe fun f => { f with unreachable := f.unreachable + 1 }) out c₁ := by
  cases dead with
  | false => exact .inl h
  | true =>
    obtain ⟨warnings, hregion⟩ := Passes.region h
    obtain ⟨c₁, hblock, -⟩ := Run.andFinally_eq_ok.mp hregion.run
    refine .inr ⟨warnings, c₁, hregion.due_of hblock fun cut a e hrun => ?_⟩
    obtain ⟨c₂, hblock, -⟩ := Run.andFinally_eq_ok.mp hrun
    exact ⟨a, c₂, hblock⟩

theorem branches_cons {b : Branching} {condition : Surface.Expr} {body : Surface.Block}
    {rest : List (Surface.Expr × Surface.Block)} {out : List (Core.Expr × Core.Block) × Branching}
    (h : Passes id origin n (fun ask => checkBranches ask scope b ((condition, body) :: rest)) c out
      d) :
    ∃ test block outcome branches b' b'' c₁ c₂ dead,
      answerTo n (.value condition (some Shape.bool.plain) scope) c = .ok test c₁ ∧
      Passes id origin n (fun ask => checkArm ask body dead scope) c₁ (block, outcome) c₂ ∧
      Passes id origin n (fun ask => checkBranches ask scope b' rest) c₂ (branches, b'') d ∧
      out = ((test, block) :: branches, b'') := by
  obtain ⟨test, c₁, htest, hrest⟩ := h.bind fun cut => answered cut
  obtain ⟨⟨block, outcome⟩, c₂, harm, hrest⟩ := hrest.bind fun cut =>
    follows_checkArm (followingBody_cut cut n).toFollowingFlat _ _ _
  obtain ⟨⟨branches, b'⟩, c₃, hbranches, hreturn⟩ := hrest.bind fun cut =>
    follows_checkBranches (followingBody_cut cut n).toFollowingFlat _ _ _
  obtain ⟨rfl, rfl⟩ := hreturn.ret
  exact ⟨test, block, outcome, branches, _, b', c₁, c₂, _, htest.run, harm, hbranches, rfl⟩

theorem otherwise_some {b : Branching} {body : Surface.Block} {out : Option Core.Block × Branching}
    (h : Passes id origin n (fun ask => checkOtherwise ask scope b (some body)) c out d) :
    ∃ block outcome dead, Passes id origin n (fun ask => checkArm ask body dead scope) c
      (block, outcome) d ∧ out.1 = some block := by
  obtain ⟨⟨block, outcome⟩, c₁, harm, hreturn⟩ := h.bind fun cut =>
    follows_checkArm (followingBody_cut cut n).toFollowingFlat _ _ _
  obtain ⟨rfl, rfl⟩ := hreturn.ret
  exact ⟨block, outcome, _, harm, rfl⟩

theorem cond_parts {branches : List (Surface.Expr × Surface.Block)} {otherwise : Option Surface.Block}
    {kind : Core.StmtKind} (h : Passes id origin n (fun ask => condStmt ask branches otherwise scope) c
      kind d) :
    ∃ checked b last b' c₁ c₂,
      Passes id origin n (fun ask => checkBranches ask scope {} branches) c (checked, b) c₁ ∧
      Passes id origin n (fun ask => checkOtherwise ask scope b otherwise) c₁ (last, b') c₂ ∧
      kind = .cond checked last := by
  obtain ⟨⟨checked, b⟩, c₁, hbranches, hrest⟩ := h.bind fun cut =>
    follows_checkBranches (followingBody_cut cut n).toFollowingFlat _ _ _
  obtain ⟨⟨last, b'⟩, c₂, hotherwise, hrest⟩ := hrest.bind fun cut =>
    follows_checkOtherwise (followingBody_cut cut n).toFollowingFlat _ _ _
  obtain ⟨u, c₃, hleave, hreturn⟩ := hrest.bind fun _ => Run.follows_self _
  obtain ⟨rfl, rfl⟩ := hreturn.ret
  exact ⟨checked, b, last, b', c₁, c₂, hbranches, hotherwise, rfl⟩

theorem scope_block {block : Surface.Block} {kind : Core.StmtKind}
    (h : Passes id origin n (fun ask => scopeStmt ask block scope) c kind d) :
    ∃ out c₁, Passes id origin n (fun ask => ask (.block block scope)) c out c₁ ∧
      kind = .scope out.1 := by
  obtain ⟨out, c₁, hblock, hrest⟩ := h.bind fun cut => answered cut
  obtain ⟨u, c₂, hleave, hreturn⟩ := hrest.bind fun _ => Run.follows_self _
  obtain ⟨rfl, rfl⟩ := hreturn.ret
  exact ⟨out, c₁, hblock, rfl⟩

/-! ## Blocks, loops and bodies -/

theorem block_stmts {block : Surface.Block} {out : Core.Block × BlockFrame}
    (h : Passes id origin n (fun ask => checkBlock ask block scope) c out d) :
    ∃ stmts c₁, Passes id origin n (fun ask => checkStmts ask scope block.stmts)
      (c.reframe Frame.openBlock) stmts c₁ ∧ out.1 = .mk stmts (endDrops c₁.here) := by
  obtain ⟨stmts, c₁, hstmts, -, rfl⟩ := checkBlock_eq_ok h.run
  refine ⟨stmts, c₁, h.due_of hstmts fun cut a e hrun => ?_, rfl⟩
  obtain ⟨stmts', c₂, hstmts', -⟩ := checkBlock_eq_ok hrun
  exact ⟨stmts', c₂, hstmts'⟩

theorem optional_some {stmt : Surface.Stmt} {out : Option Core.Stmt}
    (h : Passes id origin n (fun ask => optionalStmt ask scope (some stmt)) c out d) :
    ∃ s, Passes id origin n (fun ask => ask (.stmt stmt scope)) c s d ∧ out = some s := by
  obtain ⟨s, hs, rfl⟩ := optionalStmt_some_eq_ok h.run
  refine ⟨s, h.due_of hs fun cut a e hrun => ?_, rfl⟩
  obtain ⟨s', hs', -⟩ := optionalStmt_some_eq_ok hrun
  exact ⟨s', e, hs'⟩

theorem loop_parts {form : LoopForm} {kind : Core.StmtKind}
    (h : Passes id origin n (fun ask => loopStmt ask form scope) c kind d) :
    ∃ c₁, ∃ steps : LoopSteps (answerTo n) ⟨c.loopCount + 1⟩ form scope (header c) c₁,
      Passes id origin n (fun ask => optionalStmt ask scope form.init) (header c) steps.init
        steps.entered ∧
      Passes id origin n (fun ask => checkArm ask form.body (steps.known = some false) scope)
        steps.tested (steps.body, steps.outcome) steps.behind ∧
      Passes id origin n (fun ask => optionalStmt ask scope form.step) steps.behind steps.step c₁ ∧
      kind = .loop ⟨c.loopCount + 1⟩ steps.init steps.condition steps.step steps.body
        (endDrops c₁.here) := by
  obtain ⟨c₁, c₂, steps, -, -, rfl⟩ := loopStmt_eq_ok h.run
  have hflat (cut : Cut) := (followingBody_cut cut n).toFollowingFlat
  -- Under a cut the loop is gone through in the same steps, as far as they are known to agree.
  have hentered {cut : Cut} {init e} (hrun : optionalStmt (answerCut cut n) scope form.init (header c) =
      .ok init e) : e = steps.entered := by
    cases steps.hinit.symm.trans (Run.follows_plain.mp (follows_optionalStmt (hflat cut) _ _) hrun)
    rfl
  have htested {cut : Cut} {out e} (hrun : loopCondition (answerCut cut n) scope form.condition
      (steps.entered.reframe (form.enter ⟨c.loopCount + 1⟩)) = .ok out e) :
      out.2 = steps.known ∧ e = steps.tested := by
    cases steps.hcondition.symm.trans
      (Run.follows_plain.mp (follows_loopCondition (hflat cut) _ _) hrun)
    exact ⟨rfl, rfl⟩
  have hbehind {cut : Cut} {out e} (hrun : checkArm (answerCut cut n) form.body
      (steps.known = some false) scope steps.tested = .ok out e) : e = steps.behind := by
    cases steps.hbody.symm.trans (Run.follows_plain.mp (follows_checkArm (hflat cut) _ _ _) hrun)
    rfl
  refine ⟨c₁, steps, h.due_of steps.hinit fun cut a e hrun => ?_,
    h.due_of steps.hbody fun cut a e hrun => ?_, h.due_of steps.hstep fun cut a e hrun => ?_, rfl⟩
  all_goals obtain ⟨c₃, -, steps', -⟩ := loopStmt_eq_ok hrun
  · exact ⟨_, _, steps'.hinit⟩
  all_goals
    have hcondition := steps'.hcondition
    have hbody := steps'.hbody
    rw [hentered steps'.hinit] at hcondition
    obtain ⟨hknown, htest⟩ := htested hcondition
    dsimp only at hknown
    rw [htest, hknown] at hbody
  · exact ⟨_, _, hbody⟩
  · have hstep := steps'.hstep
    rw [hbehind hbody] at hstep
    exact ⟨_, _, hstep⟩

end Passes

/-! ## Blocks and loops around a statement -/

namespace Within

theorem advances (hc : Within nest c) (h : c.Steps Frame.Advances d) (hd : InFunction d) :
    Within nest d := by
  have hadvances := h.here (.refl _)
  have hloops := hadvances.loops
  refine ⟨hd, hadvances.height.trans hc.depth, hc.loops ▸ ?_⟩
  generalize c.here.loops = loops at hloops ⊢
  generalize d.here.loops = loops' at hloops ⊢
  induction hloops with
  | nil => rfl
  | cons hgrows _ ih => rw [List.map_cons, List.map_cons, hgrows.id, hgrows.bodyDepth, ih]

theorem moves (hc : Within nest c) (h : c.Steps Frame.Moves d) : Within nest d :=
  hc.advances h.rests.advances (hc.toInFunction.moves h)

/-- A region that no execution reaches is in the same blocks. -/
theorem region (hc : Within nest c) (warnings : Array Warning) :
    Within nest
      ({ c with warnings }.reframe fun f => { f with unreachable := f.unreachable + 1 }) := by
  have hhere := (hc.warned warnings).here_reframe fun f => { f with unreachable := f.unreachable + 1 }
  refine ⟨hc.toInFunction.region warnings, ?_, ?_⟩ <;> rw [hhere]
  · exact hc.depth
  · exact hc.loops

theorem openBlock (hc : Within nest c) : Within nest.inBlock (c.reframe Frame.openBlock) := by
  refine ⟨hc.toInFunction.openBlock, ?_, ?_⟩ <;> rw [hc.here_reframe]
  · exact congrArg Nat.succ hc.depth
  · exact hc.loops

theorem header (hc : Within nest c) : Within nest.inBlock (header c) := by
  refine ⟨hc.toInFunction.header, ?_, ?_⟩ <;> rw [hc.here_header]
  · exact congrArg Nat.succ hc.depth
  · exact hc.loops

theorem stmt {s : Surface.Stmt} {out : Core.Stmt} (hc : Within nest c)
    (h : answerTo n (.stmt s scope) c = .ok out d) : Within nest d :=
  hc.advances ((steady_answerTo n).stmt h) ((tidying_answerTo n).stmt h hc.toInFunction)

theorem arm {block : Surface.Block} {dead : Bool} {out : Core.Block × BlockFrame}
    (hc : Within nest c) (h : checkArm (answerTo n) block dead scope c = .ok out d) : Within nest d :=
  hc.advances (rests_checkArm (steady_answerTo n) h).advances
    (inFunction_checkArm (tidying_answerTo n) h hc.toInFunction)

theorem branches {b : Branching} {branches : List (Surface.Expr × Surface.Block)}
    {out : List (Core.Expr × Core.Block) × Branching} (hc : Within nest c)
    (h : checkBranches (answerTo n) scope b branches c = .ok out d) : Within nest d :=
  hc.advances (rests_checkBranches (steady_answerTo n) h).advances
    (inFunction_checkBranches (tidying_answerTo n) h hc.toInFunction)

theorem stmts {stmts : List Surface.Stmt} {out : List Core.Stmt} (hc : Within nest c)
    (h : checkStmts (answerTo n) scope stmts c = .ok out d) : Within nest d :=
  hc.advances (advances_checkStmts (steady_answerTo n) h)
    (inFunction_checkStmts (tidying_answerTo n) h hc.toInFunction)

theorem optional {stmt : Option Surface.Stmt} {out : Option Core.Stmt} (hc : Within nest c)
    (h : optionalStmt (answerTo n) scope stmt c = .ok out d) : Within nest d :=
  hc.advances (advances_optionalStmt (steady_answerTo n) h)
    (inFunction_optionalStmt (tidying_answerTo n) h hc.toInFunction)

section

variable {form : LoopForm} (hc : Within nest c)
  (steps : LoopSteps (answerTo n) ⟨c.loopCount + 1⟩ form scope (Check.header c) d)

include hc steps

/-- The body of a loop is checked in the loop. -/
theorem tested : Within (nest.inBlock.inLoop ⟨c.loopCount + 1⟩) steps.tested := by
  have hentered := hc.header.optional steps.hinit
  have hinside := inFunction_inside (tidying_answerTo n) hc.toInFunction steps
  have hwithin : Within (nest.inBlock.inLoop ⟨c.loopCount + 1⟩)
      (steps.entered.reframe (form.enter ⟨c.loopCount + 1⟩)) := by
    refine ⟨hinside, ?_, ?_⟩ <;> rw [hentered.here_reframe]
    · exact hentered.depth
    · exact congrArg₂ (fun depth loops => (_, depth) :: loops) hentered.depth hentered.loops
  exact hwithin.advances (rests_loopCondition (steady_answerTo n) steps.hcondition).advances
    (inFunction_tested (tidying_answerTo n) hc.toInFunction steps)

theorem behind : Within (nest.inBlock.inLoop ⟨c.loopCount + 1⟩) steps.behind :=
  (hc.tested steps).arm steps.hbody

end

end Within

/-! ## Trees -/

/-- Properties hold of every statement and every block that a question which is put in a function is
answered with. -/
structure HoldsPut (id : GlobalId) (origin : Context) (S : Core.Nest → Core.Stmt → Prop)
    (B : Core.Nest → Core.Block → Prop) : Prop where
  stmt : ∀ {n s scope c d out nest} dead,
    Passes id origin (n + 1) (fun ask => ask (.stmt s scope)) c out d → Within nest c →
      S nest (out.flagged dead)
  block : ∀ {n b scope c d out nest},
    Passes id origin (n + 1) (fun ask => ask (.block b scope)) c out d → Within nest c →
      B nest out.1

/-- Properties hold all over what questions that nest at most `n` deep are answered with. -/
structure HoldsOver (id : GlobalId) (origin : Context) (S : Core.Nest → Core.Stmt → Prop)
    (B : Core.Nest → Core.Block → Prop) (n : Nat) : Prop where
  stmt : ∀ {s scope c d out nest} dead,
    Passes id origin n (fun ask => ask (.stmt s scope)) c out d → Within nest c →
      (out.flagged dead).Every S B nest
  block : ∀ {b scope c d out nest},
    Passes id origin n (fun ask => ask (.block b scope)) c out d → Within nest c →
      out.1.Every S B nest

section

variable {S : Core.Nest → Core.Stmt → Prop} {B : Core.Nest → Core.Block → Prop}
  (hn : HoldsOver id origin S B n)

include hn

theorem every_unreachableStmts {stmts : List Surface.Stmt} {out : List Core.Stmt}
    (h : Passes id origin n (fun ask => unreachableStmts ask scope stmts) c out d)
    (hc : Within nest c) : stmtsEvery S B nest out := by
  induction stmts generalizing c out with
  | nil =>
    cases h.run
    trivial
  | cons stmt rest ih =>
    obtain ⟨s, c₁, after, hs, hafter, rfl⟩ := h.unreachable_cons
    exact ⟨hn.stmt true hs hc, ih hafter (hc.stmt hs.run)⟩

theorem every_checkStmts {stmts : List Surface.Stmt} {out : List Core.Stmt}
    (h : Passes id origin n (fun ask => checkStmts ask scope stmts) c out d)
    (hc : Within nest c) : stmtsEvery S B nest out := by
  induction stmts generalizing c out with
  | nil =>
    cases h.run
    trivial
  | cons stmt rest ih =>
    rcases h.stmts_cons with ⟨warnings, c₁, hdead⟩ | ⟨s, c₁, after, dead, hs, hafter, rfl⟩
    · exact every_unreachableStmts hn hdead (hc.region warnings)
    · exact ⟨hn.stmt dead hs hc, ih hafter (hc.stmt hs.run)⟩

theorem every_checkArm {block : Surface.Block} {dead : Bool} {out : Core.Block × BlockFrame}
    (h : Passes id origin n (fun ask => checkArm ask block dead scope) c out d)
    (hc : Within nest c) : out.1.Every S B nest := by
  rcases h.arm_block with hblock | ⟨warnings, c₁, hblock⟩
  · exact hn.block hblock hc
  · exact hn.block hblock (hc.region warnings)

theorem every_checkBranches {b : Branching} {branches : List (Surface.Expr × Surface.Block)}
    {out : List (Core.Expr × Core.Block) × Branching}
    (h : Passes id origin n (fun ask => checkBranches ask scope b branches) c out d)
    (hc : Within nest c) : branchesEvery S B nest out.1 := by
  induction branches generalizing b c out with
  | nil =>
    cases h.run
    trivial
  | cons branch rest ih =>
    obtain ⟨test, block, outcome, branches, b', b'', c₁, c₂, dead, htest, harm, hrest, rfl⟩ :=
      h.branches_cons
    have hc₁ := hc.moves ((tidying_answerTo n).steady.expr rfl htest)
    exact ⟨every_checkArm hn harm hc₁,
      ih hrest (hc₁.arm harm.run)⟩

theorem every_checkOtherwise {b : Branching} {otherwise : Option Surface.Block}
    {out : Option Core.Block × Branching}
    (h : Passes id origin n (fun ask => checkOtherwise ask scope b otherwise) c out d)
    (hc : Within nest c) : otherwiseEvery S B nest out.1 := by
  cases otherwise with
  | none =>
    cases h.run
    trivial
  | some body =>
    obtain ⟨block, outcome, dead, harm, hout⟩ := h.otherwise_some
    rw [hout]
    exact every_checkArm hn harm hc

theorem every_optionalStmt {stmt : Option Surface.Stmt} {out : Option Core.Stmt}
    (h : Passes id origin n (fun ask => optionalStmt ask scope stmt) c out d)
    (hc : Within nest c) : optionalEvery S B nest out := by
  cases stmt with
  | none =>
    cases h.run
    trivial
  | some stmt =>
    obtain ⟨s, hs, rfl⟩ := h.optional_some
    have hevery := hn.stmt s.unreachable hs hc
    cases s
    exact hevery

theorem every_stmtKind {s : Surface.Stmt} {kind : Core.StmtKind}
    (h : Passes id origin n (fun ask => stmtKind ask s scope) c kind d) (hc : Within nest c) :
    kind.Every S B nest := by
  have hloop {form : LoopForm} (h : Passes id origin n (fun ask => loopStmt ask form scope) c kind d) :
      kind.Every S B nest := by
    obtain ⟨c₁, steps, hinit, hbody, hstep, rfl⟩ := h.loop_parts
    exact ⟨every_optionalStmt hn hinit hc.header,
      every_optionalStmt hn hstep (hc.behind steps),
      every_checkArm hn hbody (hc.tested steps)⟩
  cases hkind : s.kind <;> simp only [stmtKind, hkind] at h
  case decl decl =>
    obtain ⟨steps, rfl⟩ := declStmt_eq_ok h.run
    trivial
  case assign target op value =>
    obtain ⟨steps, rfl⟩ := assignStmt_eq_ok h.run
    trivial
  case expr e =>
    obtain ⟨value, -, rfl⟩ := exprStmt_eq_ok h.run
    trivial
  case ret value =>
    obtain ⟨out, c₁, -, rfl, -⟩ := returnStmt_eq_ok h.run
    trivial
  case brk label =>
    obtain ⟨i, loop, c₁, -, -, rfl, -⟩ := jumpStmt_eq_ok h.run
    trivial
  case cont label =>
    obtain ⟨i, loop, c₁, -, -, rfl, -⟩ := jumpStmt_eq_ok h.run
    trivial
  case cond branches otherwise =>
    obtain ⟨checked, b, last, b', c₁, c₂, hbranches, hotherwise, rfl⟩ := h.cond_parts
    exact ⟨every_checkBranches hn hbranches hc,
      every_checkOtherwise hn hotherwise (hc.branches hbranches.run)⟩
  case loop label condition body => exact hloop h
  case forLoop label init condition step body => exact hloop h
  case scope block =>
    obtain ⟨out, c₁, hblock, rfl⟩ := h.scope_block
    exact hn.block hblock hc

theorem HoldsOver.step (hput : HoldsPut id origin S B) : HoldsOver id origin S B (n + 1) where
  stmt {s scope c d out nest} dead h hc := by
    obtain ⟨kind, hkind, rfl⟩ := checkStmt_eq_ok h.inner.run
    have hpasses : Passes id origin n (fun ask => stmtKind ask s scope) c kind d :=
      h.inner.due_of hkind fun cut a e hrun =>
        have ⟨kind', hkind', _⟩ := checkStmt_eq_ok hrun
        ⟨kind', e, hkind'⟩
    exact ⟨hput.stmt dead h hc, every_stmtKind hn hpasses hc⟩
  block {b scope c d out nest} h hc := by
    obtain ⟨stmts, c₁, hstmts, hout⟩ := h.inner.block_stmts
    have hB := hput.block h hc
    rw [hout] at hB ⊢
    exact ⟨hB, every_checkStmts hn hstmts hc.openBlock⟩

end

theorem holdsOver {S : Core.Nest → Core.Stmt → Prop} {B : Core.Nest → Core.Block → Prop}
    (hput : HoldsPut id origin S B) (n : Nat) : HoldsOver id origin S B n := by
  induction n with
  | zero => refine ⟨fun dead h => ?_, fun h => ?_⟩ <;> cases h.run
  | succ n ih => exact ih.step hput

/-- The statements of a body stand in its outermost block. -/
theorem BodySteps.within {ask : Asker} {decl : Surface.FnDecl} {owner : Option StructId}
    {display : String} {params : List Ty} {returns : Ty}
    (steps : BodySteps ask id decl owner display scope params returns c d) :
    Within ⟨1, []⟩ steps.entered := by
  obtain ⟨f, hframe, hf⟩ := steps.entering
  obtain ⟨ids, hblocks, -⟩ := hf.blocks
  have hhere : steps.entered.here = f := by
    rw [Context.here, hframe]
    rfl
  refine ⟨steps.inFunction, ?_, ?_⟩ <;> rw [hhere]
  · rw [Frame.height, hblocks]
    rfl
  · rw [hf.loops]
    rfl

/-- What holds of the answers to the questions that are put in a function holds all over the tree of
its body. -/
theorem every_checkBody {S : Core.Nest → Core.Stmt → Prop} {B : Core.Nest → Core.Block → Prop}
    {body : Body} (h : checkBody answer id origin = .ok body d) (hput : HoldsPut id origin S B) :
    ∃ decl owner params returns c, ∃ steps : BodySteps answer id decl owner (origin.global id).display
        (origin.global id).scope params returns c d,
      body = steps.body ∧ stmtsEvery S B ⟨1, []⟩ steps.stmts := by
  obtain ⟨decl, owner, t, params, variadic, returns, c, hkind, ht, hshape, hbody⟩ := checkBody_eq_ok h
  obtain ⟨steps, rfl⟩ := checkTypedBody_eq_ok hbody
  refine ⟨decl, owner, params, returns, c, steps, rfl, ?_⟩
  refine every_checkStmts (holdsOver hput nestingBound) ⟨le_rfl, steps.hstmts, fun cut hcut => ?_⟩
    steps.within
  obtain ⟨body', e, hrun⟩ := hcut
  obtain ⟨decl', owner', t', params', variadic', returns', c', hkind', ht', hshape', hbody'⟩ :=
    checkBody_eq_ok hrun
  cases hkind.symm.trans hkind'
  cases ht.symm.trans (Run.follows_plain.mp (Passes.answered cut) ht')
  cases hshape.symm.trans hshape'
  obtain ⟨steps', -⟩ := checkTypedBody_eq_ok hbody'
  obtain ⟨receiver, others, ids, stmts, last, laid, received, entered, behind, hlaid, hreceiver, hparams,
    hstmts, -, -⟩ := steps'
  cases steps.hlaid.symm.trans (Run.follows_plain.mp
    (follows_completeParams (fun q _ => Passes.answered cut) _) hlaid)
  cases steps.hreceiver.symm.trans hreceiver
  cases steps.hparams.symm.trans hparams
  exact ⟨stmts, behind, hstmts⟩

end Check

end OwnLang
