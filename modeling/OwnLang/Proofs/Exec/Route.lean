import OwnLang.Proofs.Core.Route
import OwnLang.Proofs.Exec.Tree

/-!
# Executions take routes

Wherever an execution of a part of a body ends, some route of the part leads there
(`finds_execBlock`). So a statement that no walk comes to is not executed.
-/

namespace OwnLang.Exec

open OwnLang.Core (Stmt StmtKind Block Part)

/-- Where a walk ends that takes the route of an execution. -/
def Exit.shape {V : Type} : Exit V → Core.Exit
  | .falls => .falls
  | .returns _ => .returns
  | .breaks target => .breaks target
  | .continues target => .continues target

namespace Activation

variable {V : Type} (x : Activation V) {effects effects' : List (Effect V)} {exit : Exit V}

/-- Control goes on with what follows, or it has left before. -/
theorem andThen_eq_done {first second : Action V (Exit V)}
    (h : andThen first second effects = .done exit effects') :
    (∃ mid, first effects = .done .falls mid ∧ second mid = .done exit effects') ∨
      exit ≠ .falls ∧ first effects = .done exit effects' := by
  obtain ⟨a, mid, ha, hb⟩ := Action.bind_eq_done h
  cases a with
  | falls => exact .inl ⟨mid, ha, hb⟩
  | _ =>
    cases hb
    exact .inr ⟨nofun, ha⟩

theorem yields_leaving (drops : List LocalId) (exit : Exit V) :
    (x.leaving drops exit).Yields (· = exit) := .bind fun _ => .pure rfl

/-! ## Loops -/

/-- An exit does not belong to a loop: it leaves the loop, and not by a `break` of its own. -/
def Away (id : LoopId) (exit : Exit V) : Prop :=
  exit ≠ .falls ∧ exit ≠ .continues id ∧ exit ≠ .breaks id

theorem inLoop_cases (id : LoopId) (behind : Phase) (exit : Exit V) :
    exit = .falls ∧ inLoop id behind exit = .inl behind ∨
      exit = .continues id ∧ inLoop id behind exit = .inl .step ∨
      exit = .breaks id ∧ inLoop id behind exit = .inr .falls ∨
      Away id exit ∧ inLoop id behind exit = .inr exit := by
  unfold inLoop Away
  cases exit with
  | falls => exact .inl ⟨rfl, rfl⟩
  | returns value => exact .inr (.inr (.inr ⟨⟨nofun, nofun, nofun⟩, rfl⟩))
  | continues target =>
    by_cases htarget : target = id
    · exact .inr (.inl ⟨by rw [htarget], if_pos htarget⟩)
    · refine .inr (.inr (.inr ⟨⟨nofun, fun heq => htarget ?_, nofun⟩, if_neg htarget⟩))
      cases heq
      rfl
  | breaks target =>
    by_cases htarget : target = id
    · exact .inr (.inr (.inl ⟨by rw [htarget], if_pos htarget⟩))
    · refine .inr (.inr (.inr ⟨⟨nofun, nofun, fun heq => htarget ?_⟩, if_neg htarget⟩))
      cases heq
      rfl

theorem Away.shape {id : LoopId} {left : Exit V} (h : Away id left) (goal : Core.Exit)
    (hgoal : Core.Goal.leaves left.shape = .leaves goal) :
    goal ≠ .falls ∧ goal ≠ .continues id ∧ goal ≠ .breaks id := by
  cases hgoal
  obtain ⟨hfalls, hcontinues, hbreaks⟩ := h
  cases left with
  | falls => exact absurd rfl hfalls
  | returns value => exact ⟨nofun, nofun, nofun⟩
  | continues target => 
    refine ⟨nofun, fun heq => hcontinues ?_, nofun⟩
    cases heq
    rfl
  | breaks target =>
    refine ⟨nofun, nofun, fun heq => hbreaks ?_⟩
    cases heq
    rfl

section

/-- The parts of a loop take routes of the loop. -/
structure Follows (loop : Core.Loop) (test : Action V Bool) (body step : Action V (Exit V)) :
    Prop where
  always : loop.condition = none → test.Yields (· = true)
  known : ∀ condition holds, loop.condition = some condition → condition.known? = some holds →
    test.Yields (· = holds)
  bodies : body.Yields fun exit => (Part.block loop.body).Finds (.leaves exit.shape)
  steps : step.Yields fun exit => (Part.optional loop.step).Finds (.leaves exit.shape)

variable {loop : Core.Loop} {test : Action V Bool} {body step : Action V (Exit V)}

/-- A loop whose test held may hold. -/
theorem Follows.held (h : Follows loop test body step) (ht : test effects = .done true effects') :
    ∀ c, loop.condition = some c → c.known? ≠ some false := fun c hc hknown =>
  Bool.noConfusion (h.known c false hc hknown ht)

/-- A loop whose test failed may fail. -/
theorem Follows.failed (h : Follows loop test body step) (ht : test effects = .done false effects') :
    ∃ c, loop.condition = some c ∧ c.known? ≠ some true := by
  cases hc : loop.condition with
  | none => exact Bool.noConfusion (h.always hc ht)
  | some c => exact ⟨c, rfl, fun hknown => Bool.noConfusion (h.known c true hc hknown ht)⟩

/-- Where the rounds of a loop end, a route of the loop leads there: from its test on, however often
that was made before, or from its step on. -/
theorem Follows.rounds (h : Follows loop test body step) (n : Nat) (phase : Phase)
    (hrun : Action.rounds (loopRound loop.id test body step) n phase effects = .done exit effects') :
    match phase with
    | .test => ∀ again, (Part.test loop again).Finds (.leaves exit.shape)
    | .step => (Part.step loop).Finds (.leaves exit.shape) := by
  induction n generalizing phase effects with
  | zero => cases hrun
  | succ n ih =>
    obtain ⟨next, mid, hround, hrest⟩ := Action.bind_eq_done hrun
    cases phase with
    | test =>
      intro again
      obtain ⟨holds, mid₁, htest, hround⟩ := Action.bind_eq_done hround
      cases holds with
      | false =>
        rw [if_neg Bool.false_ne_true] at hround
        cases hround
        cases hrest
        obtain ⟨c, hc, hknown⟩ := h.failed htest
        exact Part.finds_failed hc hknown
      | true =>
        rw [if_pos rfl] at hround
        obtain ⟨left, mid₂, hbody, hround⟩ := Action.bind_eq_done hround
        have hfinds := h.bodies hbody
        have hheld := h.held htest
        rcases inLoop_cases loop.id .step left with ⟨rfl, heq⟩ | ⟨rfl, heq⟩ | ⟨rfl, heq⟩ | ⟨haway, heq⟩
        · rw [heq] at hround
          cases hround
          exact Part.finds_behind hheld hfinds (.inl rfl) (ih .step hrest)
        · rw [heq] at hround
          cases hround
          exact Part.finds_behind hheld hfinds (.inr rfl) (ih .step hrest)
        · rw [heq] at hround
          cases hround
          cases hrest
          exact Part.finds_broken hheld hfinds
        · rw [heq] at hround
          cases hround
          cases hrest
          exact Part.finds_body hheld hfinds haway.shape
    | step =>
      obtain ⟨left, mid₁, hstep, hround⟩ := Action.bind_eq_done hround
      have hfinds := h.steps hstep
      rcases inLoop_cases loop.id .test left with ⟨rfl, heq⟩ | ⟨rfl, heq⟩ | ⟨rfl, heq⟩ | ⟨haway, heq⟩
      · rw [heq] at hround
        cases hround
        exact Part.finds_again hfinds (ih .test hrest true)
      · rw [heq] at hround
        cases hround
        exact Part.finds_stepContinues hfinds (ih .step hrest)
      · rw [heq] at hround
        cases hround
        cases hrest
        exact Part.finds_stepBroken hfinds
      · rw [heq] at hround
        cases hround
        cases hrest
        exact Part.finds_step hfinds haway.shape

/-- No route from a part of a loop on comes to a statement that is flagged as unreachable. -/
def Alive (loop : Core.Loop) : Phase → Prop
  | .test => ∃ again, ¬(Part.test loop again).Finds .dead
  | .step => ¬(Part.step loop).Finds .dead

theorem Alive.bodies (h : Alive loop .test) (hfollows : Follows loop test body step)
    (ht : test effects = .done true effects') : ¬(Part.block loop.body).Finds .dead := by
  obtain ⟨again, hagain⟩ := h
  exact fun hdead => hagain (Part.finds_body (hfollows.held ht) hdead nofun)

theorem Alive.steps (h : Alive loop .step) : ¬(Part.optional loop.step).Finds .dead :=
  fun hdead => h (Part.finds_step hdead nofun)

/-- A round leads to a part of a loop that is as alive as the part that it began with. -/
theorem Alive.next {phase next : Phase} (h : Alive loop phase)
    (hfollows : Follows loop test body step)
    (hround : loopRound loop.id test body step phase effects = .done (.inl next) effects') :
    Alive loop next := by
  cases phase with
  | test =>
    obtain ⟨again, hagain⟩ := h
    obtain ⟨holds, mid, htest, hround⟩ := Action.bind_eq_done hround
    cases holds with
    | false => 
      rw [if_neg Bool.false_ne_true] at hround
      cases hround
    | true =>
      rw [if_pos rfl] at hround
      obtain ⟨left, mid', hbody, hround⟩ := Action.bind_eq_done hround
      have hfinds := hfollows.bodies hbody
      have hbehind (hexit : left.shape = .falls ∨ left.shape = .continues loop.id) :
          Alive loop .step := fun hdead =>
        hagain (Part.finds_behind (hfollows.held htest) hfinds hexit hdead)
      rcases inLoop_cases loop.id .step left with ⟨rfl, heq⟩ | ⟨rfl, heq⟩ | ⟨-, heq⟩ | ⟨-, heq⟩ <;>
        rw [heq] at hround <;> cases hround
      · exact hbehind (.inl rfl)
      · exact hbehind (.inr rfl)
  | step =>
    obtain ⟨left, mid, hstep, hround⟩ := Action.bind_eq_done hround
    have hfinds := hfollows.steps hstep
    rcases inLoop_cases loop.id .test left with ⟨rfl, heq⟩ | ⟨rfl, heq⟩ | ⟨-, heq⟩ | ⟨-, heq⟩ <;>
      rw [heq] at hround <;> cases hround
    · exact ⟨true, fun hdead => h (Part.finds_again hfinds hdead)⟩
    · exact h

end

/-! ## Statements -/

theorem yields_loopTest (cell : Nat) {condition : Core.Expr} {holds : Bool}
    (h : condition.known? = some holds) : (x.loopTest cell (some condition)).Yields (· = holds) := by
  unfold loopTest
  simp only [h]
  exact .pure rfl

/-- The parts of a loop take routes of it if its body and its step do. -/
theorem follows_loop {loop : Core.Loop} (cell : Nat) {body step : Action V (Exit V)}
    (hbody : body.Yields fun exit => (Part.block loop.body).Finds (.leaves exit.shape))
    (hstep : step.Yields fun exit => (Part.optional loop.step).Finds (.leaves exit.shape)) :
    Follows loop (x.loopTest cell loop.condition) body step := by
  refine ⟨fun hnone => ?_, fun c holds hc hknown => ?_, hbody, hstep⟩
  · rw [hnone]
    exact .pure rfl
  · rw [hc]
    exact x.yields_loopTest _ hknown

mutual

/-- Where an execution of a block ends, a route leads there. -/
theorem finds_execBlock : ∀ (block : Block) {cell : Nat} {effects effects' : List (Effect V)}
    {exit : Exit V}, x.execBlock cell block effects = .done exit effects' →
      (Part.block block).Finds (.leaves exit.shape)
  | .mk stmts drops, cell, effects, effects', exit, h => by
    unfold execBlock at h
    refine Part.finds_block ?_
    rcases andThen_eq_done h with ⟨mid, hstmts, hleave⟩ | ⟨-, hstmts⟩
    · rw [x.yields_leaving drops .falls hleave]
      exact finds_execStmts stmts hstmts
    · exact finds_execStmts stmts hstmts

theorem finds_execStmts : ∀ (stmts : List Stmt) {cell : Nat} {effects effects' : List (Effect V)}
    {exit : Exit V}, x.execStmts cell stmts effects = .done exit effects' →
      (Part.stmts stmts).Finds (.leaves exit.shape)
  | [], cell, effects, effects', exit, h => by
    unfold execStmts at h
    cases h
    exact Part.finds_nil
  | s :: rest, cell, effects, effects', exit, h => by
    unfold execStmts at h
    rcases andThen_eq_done h with ⟨mid, hs, hrest⟩ | ⟨hexit, hs⟩
    · exact Part.finds_tail (finds_execStmt s hs) (finds_execStmts rest hrest)
    · refine Part.finds_head (finds_execStmt s hs) fun hfalls => ?_
      cases exit <;> cases hfalls
      exact hexit rfl

theorem finds_execStmt : ∀ (s : Stmt) {cell : Nat} {effects effects' : List (Effect V)}
    {exit : Exit V}, x.execStmt cell s effects = .done exit effects' →
      (Part.stmt s).Finds (.leaves exit.shape)
  | .mk kind _ _, cell, effects, effects', exit, h => by
    unfold execStmt at h
    exact Part.finds_stmt (finds_execKind kind h)

theorem finds_execKind : ∀ (kind : StmtKind) {cell : Nat} {effects effects' : List (Effect V)}
    {exit : Exit V}, x.execKind cell kind effects = .done exit effects' →
      (Part.kind kind).Finds (.leaves exit.shape)
  | .declare id value, cell, effects, effects', exit, h => by
    unfold execKind at h
    have hexit : exit = .falls := by
      cases value <;> exact (show Action.Yields _ (· = Exit.falls) from
        .bind fun _ => .bind fun _ => .pure rfl) h
    rw [hexit]
    exact Part.finds_declare id value
  | .assign target value releasePrior, cell, effects, effects', exit, h => by
    unfold execKind at h
    have hexit : exit = .falls := by
      obtain ⟨content, mid, -, h⟩ := Action.bind_eq_done h
      obtain ⟨address, mid, -, h⟩ := Action.bind_eq_done h
      cases releasePrior
      · exact (show Action.Yields _ (· = Exit.falls) from .bind fun _ => .pure rfl) h
      · exact (show Action.Yields _ (· = Exit.falls) from
          .bind fun _ => .bind fun _ => .bind fun _ => .pure rfl) h
    rw [hexit]
    exact Part.finds_assign target value releasePrior
  | .expr value unused, cell, effects, effects', exit, h => by
    unfold execKind at h
    have hexit : exit = .falls := by
      obtain ⟨result, mid, -, h⟩ := Action.bind_eq_done h
      cases unused
      · exact (show Action.Yields _ (· = Exit.falls) from .pure rfl) h
      · exact (show Action.Yields _ (· = Exit.falls) from .bind fun _ => .pure rfl) h
    rw [hexit]
    exact Part.finds_expr value unused
  | .ret value drops, cell, effects, effects', exit, h => by
    unfold execKind at h
    have hexit : exit.shape = .returns := by
      have hleave (result : Option (Datum V)) :
          (x.leaving drops (.returns (result.filter (!·.type.isVoid)))).Yields
            fun exit => exit.shape = .returns := .bind fun _ => .pure rfl
      cases value <;> exact (show Action.Yields _ fun exit => Exit.shape exit = .returns from
        .bind fun result => hleave result) h
    rw [hexit]
    exact Part.finds_ret value drops
  | .brk target drops, cell, effects, effects', exit, h => by
    unfold execKind at h
    rw [x.yields_leaving drops _ h]
    exact Part.finds_brk target drops
  | .cont target drops, cell, effects, effects', exit, h => by
    unfold execKind at h
    rw [x.yields_leaving drops _ h]
    exact Part.finds_cont target drops
  | .cond branches otherwise, cell, effects, effects', exit, h => by
    unfold execKind at h
    exact Part.finds_cond (finds_execBranches otherwise branches
      (fun h => finds_execOtherwise otherwise h) h)
  | .loop id init condition step body exitDrops, cell, effects, effects', exit, h => by
    unfold execKind at h
    have hfollows : Follows ⟨id, condition, step, body, exitDrops⟩
        (x.loopTest (cell + Core.optionalCells init) condition)
        (x.execBlock (cell + Core.optionalCells init + Core.testCells condition) body)
        (x.execOptional (cell + Core.optionalCells init + Core.testCells condition + body.cells)
          step) :=
      x.follows_loop _ (fun _ _ _ => finds_execBlock body) fun _ _ _ => finds_execOptional step
    rcases andThen_eq_done h with ⟨mid, hinit, hrest⟩ | ⟨hexit, hinit⟩
    · refine Part.finds_loop (finds_execOptional init hinit) ?_
      rcases andThen_eq_done hrest with ⟨mid', hrounds, hleave⟩ | ⟨-, hrounds⟩
      · rw [x.yields_leaving exitDrops _ hleave]
        exact hfollows.rounds _ .test hrounds false
      · exact hfollows.rounds _ .test hrounds false
    · refine Part.finds_init (finds_execOptional init hinit) fun hfalls => ?_
      cases exit <;> cases hfalls
      exact hexit rfl
  | .scope block, cell, effects, effects', exit, h => by
    unfold execKind at h
    exact Part.finds_scope (finds_execBlock block h)

theorem finds_execBranches (otherwise : Option Block) :
    ∀ (branches : List (Core.Expr × Block)) {run : Nat → Action V (Exit V)} {cell : Nat}
      {effects effects' : List (Effect V)} {exit : Exit V},
      (∀ {cell effects effects' exit}, run cell effects = .done exit effects' →
        (Part.branches [] otherwise).Finds (.leaves exit.shape)) →
      x.execBranches cell branches run effects = .done exit effects' →
        (Part.branches branches otherwise).Finds (.leaves exit.shape)
  | [], run, cell, effects, effects', exit, hrun, h => by
    unfold execBranches at h
    exact hrun h
  | (condition, body) :: rest, run, cell, effects, effects', exit, hrun, h => by
    unfold execBranches at h
    cases hknown : condition.known? with
    | some known =>
      cases known with
      | false =>
        simp only [hknown] at h
        exact Part.finds_other (by rw [hknown]; nofun) (finds_execBranches otherwise rest hrun h)
      | true =>
        simp only [hknown] at h
        exact Part.finds_taken (by rw [hknown]; nofun) (finds_execBlock body h)
    | none =>
      simp only [hknown] at h
      obtain ⟨value, mid, -, hrest⟩ := Action.bind_eq_done h
      split at hrest
      · exact Part.finds_taken (by rw [hknown]; nofun) (finds_execBlock body hrest)
      · exact Part.finds_other (by rw [hknown]; nofun) (finds_execBranches otherwise rest hrun hrest)

theorem finds_execOtherwise : ∀ (block : Option Block) {cell : Nat}
    {effects effects' : List (Effect V)} {exit : Exit V},
    x.execOtherwise cell block effects = .done exit effects' →
      (Part.branches [] block).Finds (.leaves exit.shape)
  | none, cell, effects, effects', exit, h => by
    unfold execOtherwise at h
    cases h
    exact Part.finds_branches_none
  | some block, cell, effects, effects', exit, h => by
    unfold execOtherwise at h
    exact Part.finds_otherwise (finds_execBlock block h)

theorem finds_execOptional : ∀ (s : Option Stmt) {cell : Nat} {effects effects' : List (Effect V)}
    {exit : Exit V}, x.execOptional cell s effects = .done exit effects' →
      (Part.optional s).Finds (.leaves exit.shape)
  | none, cell, effects, effects', exit, h => by
    unfold execOptional at h
    cases h
    exact Part.finds_optional_none
  | some s, cell, effects, effects', exit, h => by
    unfold execOptional at h
    exact Part.finds_optional (finds_execStmt s h)

end

end Activation

end OwnLang.Exec
