import Mathlib
import OwnLang.Proofs.Check.Stable

/-!
# What a successful check of a statement has done

A statement that is accepted was checked in steps that were accepted. For each part of checking
statements there is one lemma here that names its steps, the contexts between them, and what the
part makes of their answers. Proofs about bodies take such a run apart with these lemmas and do not
unfold the parts themselves.
-/

namespace OwnLang

namespace Context

/-- The frame of the function that is being checked. -/
def here (c : Context) : Frame := c.frame.getD default

/-- The context with another frame. -/
def reframe (c : Context) (change : Frame → Frame) : Context :=
  { c with frame := c.frame.map change }

@[simp] theorem reframe_loopCount (c : Context) (change : Frame → Frame) :
    (c.reframe change).loopCount = c.loopCount := rfl

theorem reframe_reframe (c : Context) (first second : Frame → Frame) :
    (c.reframe first).reframe second = c.reframe (second ∘ first) := by
  unfold reframe
  simp only [Option.map_map]

theorem here_reframe (c : Context) {change : Frame → Frame} (h : change default = default) :
    (c.reframe change).here = change c.here := by
  unfold here reframe
  cases c.frame with
  | none => exact h.symm
  | some f => rfl

/-- Only what a change makes of the present frame matters. -/
theorem reframe_congr (c : Context) {change change' : Frame → Frame}
    (h : change c.here = change' c.here) : c.reframe change = c.reframe change' := by
  unfold here at h
  unfold reframe
  cases hframe : c.frame with
  | none => rfl
  | some f =>
    rw [hframe] at h
    simp only [Option.map_some]
    exact congrArg (fun g => { c with frame := some g }) h

end Context

namespace Check

open Surface (Ident)

variable {ask : Asker} {scope : Scope} {c d : Context}

theorem frame_apply (c : Context) : frame c = .ok c.here c := rfl

theorem modifyFrame_apply (change : Frame → Frame) (c : Context) :
    modifyFrame change c = .ok ⟨⟩ (c.reframe change) := rfl

theorem frame_bind_apply {α : Type} (k : Frame → Check α) (c : Context) :
    (frame >>= k) c = k c.here c := rfl

/-- A run succeeds. This does not apply the run to its context, so that the names a long run binds
are still there when it is taken apart. -/
def Gives {α : Type} (x : Check α) (c : Context) (a : α) (d : Context) : Prop := x c = .ok a d

theorem gives_bind {α β : Type} {x : Check α} {f : α → Check β} {b : β} {motive : Prop}
    (h : ∀ a c₁, x c = .ok a c₁ → Gives (f a) c₁ b d → motive) : Gives (x >>= f) c b d → motive := by
  intro hb
  obtain ⟨a, c₁, hx, hf⟩ := Run.bind_eq_ok.mp hb
  exact h a c₁ hx hf

/-! ## Blocks -/

theorem unreachableStmts_cons_eq_ok {stmt : Surface.Stmt} {rest : List Surface.Stmt}
    {out : List Core.Stmt} (h : unreachableStmts ask scope (stmt :: rest) c = .ok out d) :
    ∃ s c₁ after, ask (.stmt stmt scope) c = .ok s c₁ ∧
      unreachableStmts ask scope rest c₁ = .ok after d ∧ out = s.flagged true :: after := by
  obtain ⟨s, c₁, hs, h⟩ := Run.bind_eq_ok.mp h
  obtain ⟨after, c₂, hafter, h⟩ := Run.bind_eq_ok.mp h
  cases h
  exact ⟨s, c₁, after, hs, hafter, rfl⟩

/-- The region that statements make which stand one behind the other. -/
def regionOf (stmts : List Surface.Stmt) : Option Span :=
  stmts.head?.bind fun first => stmts.getLast?.map fun last => first.span.upTo last.span

/-- The warnings of a context with one for the region of the statements, unless it is inside another
region. -/
def warned (c : Context) (stmts : List Surface.Stmt) : Array Warning :=
  match regionOf stmts with
  | some region =>
    if c.here.unreachable = 0 then c.warnings.push ⟨.unreachableCode, region⟩ else c.warnings
  | none => c.warnings

/-- The warning of a region changes nothing that checking looks at. -/
theorem warnUnreachable_eq_ok {stmts : List Surface.Stmt} (h : warnUnreachable stmts c = .ok ⟨⟩ d) :
    d = { c with warnings := warned c stmts } := by
  cases hlast : stmts.getLast? with
  | none =>
    obtain rfl := List.getLast?_eq_none_iff.mp hlast
    cases h
    rfl
  | some last =>
    cases stmts with
    | nil => cases hlast
    | cons first rest =>
      have hregion : regionOf (first :: rest) = some (first.span.upTo last.span) :=
        congrArg (Option.map fun stmt : Surface.Stmt => first.span.upTo stmt.span) hlast
      simp only [warnUnreachable, hlast] at h
      obtain ⟨dead, c₁, hdead, hwarn⟩ := Run.bind_eq_ok.mp h
      cases hdead
      simp only [warned, hregion]
      split at hwarn
      · rename_i hreached
        cases hwarn
        rw [if_pos (by simpa [Context.here] using hreached)]
      · rename_i hdead
        cases hwarn
        rw [if_neg (by simpa [Context.here] using hdead)]

/-- The first statement behind a point that control leaves the block at opens a region, and else it
is one that is reached if the block is. -/
theorem checkStmts_cons_eq_ok {stmt : Surface.Stmt} {rest : List Surface.Stmt}
    {out : List Core.Stmt} (h : checkStmts ask scope (stmt :: rest) c = .ok out d) :
    (c.here.top.terminated = true ∧ ∃ warnings c₁,
      unreachableStmts ask scope (stmt :: rest)
        ({ c with warnings }.reframe fun f => { f with unreachable := f.unreachable + 1 }) =
          .ok out c₁ ∧
      d = c₁.reframe leaveUnreachable ∧ warnings = warned c (stmt :: rest)) ∨
    (c.here.top.terminated = false ∧ ∃ s c₁ after, ask (.stmt stmt scope) c = .ok s c₁ ∧
      checkStmts ask scope rest c₁ = .ok after d ∧
      out = s.flagged (0 < c₁.here.unreachable) :: after) := by
  unfold checkStmts at h
  obtain ⟨f, c₁, hf, hstep⟩ := Run.bind_eq_ok.mp h
  obtain ⟨rfl, rfl⟩ : f = c.here ∧ c₁ = c := by
    cases hf
    exact ⟨rfl, rfl⟩
  split at hstep
  · rename_i hterminated
    obtain ⟨u, c₂, hwarn, hstep⟩ := Run.bind_eq_ok.mp hstep
    obtain rfl := warnUnreachable_eq_ok hwarn
    obtain ⟨u, c₃, henter, hstep⟩ := Run.bind_eq_ok.mp hstep
    cases henter
    obtain ⟨checked, c₄, hchecked, hstep⟩ := Run.bind_eq_ok.mp hstep
    obtain ⟨u, c₅, hleave, hstep⟩ := Run.bind_eq_ok.mp hstep
    cases hleave
    cases hstep
    exact .inl ⟨hterminated, _, c₄, hchecked, rfl, rfl⟩
  · rename_i hterminated
    obtain ⟨s, c₂, hs, hstep⟩ := Run.bind_eq_ok.mp hstep
    obtain ⟨dead, c₃, hdead, hstep⟩ := Run.bind_eq_ok.mp hstep
    cases hdead
    obtain ⟨after, c₄, hafter, hstep⟩ := Run.bind_eq_ok.mp hstep
    cases hstep
    exact .inr ⟨by simpa using hterminated, s, c₂, after, hs, hafter, rfl⟩

/-- The frame once its innermost block is closed. -/
def closed (f : Frame) : Frame := { f with blocks := f.blocks.tail }

/-- What a block frees at its end. -/
def endDrops (f : Frame) : List LocalId := if f.top.terminated then [] else f.releaseOrder f.top

theorem closeBlock_apply (c : Context) :
    closeBlock c = .ok (endDrops c.here, c.here.top) (c.reframe closed) := by
  have hhere : (c.reframe closed).here = closed c.here := c.here_reframe rfl
  simp only [closeBlock, Run.bind_apply, frame_apply, modifyFrame_apply, Run.pure_apply]
  show Outcome.ok (if _ then [] else (c.reframe closed).here.releaseOrder _, _) _ = _
  rw [hhere]
  rfl

theorem attempt_closeBlock_eq_ok {α β : Type} {work : Check α}
    {k : Except Diagnostic α → List LocalId × BlockFrame → Check β} {b : β}
    (h : (do let outcome ← work.attempt; let done ← closeBlock; k outcome done) c = .ok b d)
    (hk : ∀ e s t, k (.error e) s t ≠ .ok b d) :
    ∃ a c₁, work c = .ok a c₁ ∧
      k (.ok a) (endDrops c₁.here, c₁.here.top) (c₁.reframe closed) = .ok b d := by
  obtain ⟨r, c₁, hattempt, hrest⟩ := Run.bind_eq_ok.mp h
  obtain ⟨done, c₂, hclose, hend⟩ := Run.bind_eq_ok.mp hrest
  rw [closeBlock_apply] at hclose
  cases hclose
  rcases Run.attempt_eq_ok.mp hattempt with ⟨a, hwork, rfl⟩ | ⟨e, hwork, rfl⟩
  · exact ⟨a, c₁, hwork, hend⟩
  · exact absurd hend (hk e _ _)

/-- A block's statements are checked in a block of their own, which is then closed. -/
theorem checkBlock_eq_ok {block : Surface.Block} {out : Core.Block × BlockFrame}
    (h : checkBlock ask block scope c = .ok out d) :
    ∃ stmts c₁, checkStmts ask scope block.stmts (c.reframe Frame.openBlock) = .ok stmts c₁ ∧
      settleMoves c₁.here.top (c₁.reframe closed) = .ok ⟨⟩ d ∧
      out = (.mk stmts (endDrops c₁.here), c₁.here.top) := by
  obtain ⟨u, c₁, hopen, hinner⟩ := Run.bind_eq_ok.mp h
  cases hopen
  obtain ⟨stmts, c₂, hstmts, hrest⟩ := attempt_closeBlock_eq_ok hinner fun e s t he => by
    obtain ⟨_, _, hfail, _⟩ := Run.bind_eq_ok.mp he
    cases hfail
  obtain ⟨_, c₃, hchecked, hend⟩ := Run.bind_eq_ok.mp hrest
  cases hchecked
  obtain ⟨_, c₄, hsettled, hreturn⟩ := Run.bind_eq_ok.mp hend
  cases hreturn
  exact ⟨stmts, c₂, hstmts, hsettled, rfl⟩

/-- The moves of a closed block that matter to the blocks that are still open. -/
def settled (f : Frame) (block : BlockFrame) : List LoopMove :=
  block.loopMoves.filter fun move => (f.localAt move.target).depth < f.height

/-- The moves of a block that control reaches the end of are handed on, unless the block is the body
of a loop, which may have none. -/
theorem settleMoves_eq_ok {block : BlockFrame} (h : settleMoves block c = .ok ⟨⟩ d) :
    (block.terminated = true ∧ d = c) ∨
    (block.terminated = false ∧
      ((c.here.loops.head?.any (·.bodyDepth == c.here.height)) = true ∧
          settled c.here block = [] ∧ d = c ∨
        (c.here.loops.head?.any (·.bodyDepth == c.here.height)) = false ∧
          d = c.reframe fun f => f.modifyTop fun b =>
            { b with loopMoves := b.loopMoves ++ settled c.here block })) := by
  unfold settleMoves at h
  split at h
  · rename_i hterminated
    cases h
    exact .inl ⟨hterminated, rfl⟩
  · rename_i hterminated
    refine .inr ⟨by simpa using hterminated, ?_⟩
    obtain ⟨f, c₁, hf, hstep⟩ := Run.bind_eq_ok.mp h
    rw [frame_apply] at hf
    cases hf
    split at hstep
    · rename_i hbody
      cases hmoves : block.loopMoves.filter fun move =>
          (c.here.localAt move.target).depth < c.here.height with
      | nil =>
        rw [hmoves] at hstep
        cases hstep
        exact .inl ⟨hbody, hmoves, rfl⟩
      | cons move rest =>
        rw [hmoves] at hstep
        cases hstep
    · rename_i hbody
      cases hstep
      exact .inr ⟨by simpa using hbody, rfl⟩

/-- An arm that is never taken is checked in a region of its own. -/
theorem checkArm_eq_ok {block : Surface.Block} {dead : Bool} {out : Core.Block × BlockFrame}
    (h : checkArm ask block dead scope c = .ok out d) :
    (dead = false ∧ ask (.block block scope) c = .ok out d) ∨
    (dead = true ∧ ∃ warnings c₁,
      ask (.block block scope)
        ({ c with warnings }.reframe fun f => { f with unreachable := f.unreachable + 1 }) =
          .ok out c₁ ∧
      d = c₁.reframe leaveUnreachable ∧ warnings = warned c block.stmts) := by
  unfold checkArm at h
  cases dead with
  | false => exact .inl ⟨rfl, h⟩
  | true =>
    obtain ⟨u, c₁, hwarn, henter⟩ := Run.bind_eq_ok.mp h
    obtain rfl := warnUnreachable_eq_ok hwarn
    obtain ⟨u, c₂, hentered, hblock⟩ := Run.bind_eq_ok.mp henter
    cases hentered
    obtain ⟨c₃, hblock, hleave⟩ := Run.andFinally_eq_ok.mp hblock
    exact .inr ⟨rfl, _, c₃, hblock, hleave.symm, rfl⟩

/-- What a block does to the block that it stands in as a statement. -/
def scopeLeave (inner b : BlockFrame) : BlockFrame :=
  { b with
    returned := b.returned || inner.returned
    jumpedTo := b.jumpedTo.or inner.jumpedTo }

theorem scopeStmt_eq_ok {block : Surface.Block} {kind : Core.StmtKind}
    (h : scopeStmt ask block scope c = .ok kind d) :
    ∃ out c₁, ask (.block block scope) c = .ok out c₁ ∧ kind = .scope out.1 ∧
      d = c₁.reframe fun f => f.modifyTop (scopeLeave out.2) := by
  obtain ⟨out, c₁, hblock, hrest⟩ := Run.bind_eq_ok.mp h
  obtain ⟨u, c₂, hleave, hreturn⟩ := Run.bind_eq_ok.mp hrest
  cases hleave
  cases hreturn
  exact ⟨out, c₁, hblock, rfl, rfl⟩

/-! ## Branches -/

theorem checkBranches_cons_eq_ok {b : Branching} {condition : Surface.Expr} {body : Surface.Block}
    {rest : List (Surface.Expr × Surface.Block)} {out : List (Core.Expr × Core.Block) × Branching}
    (h : checkBranches ask scope b ((condition, body) :: rest) c = .ok out d) :
    ∃ test block outcome branches b' c₁ c₂,
      ask.valueOf condition Shape.bool.plain scope c = .ok test c₁ ∧
      checkArm ask body (b.decided || test.known? = some false) scope c₁ =
        .ok (block, outcome) c₂ ∧
      checkBranches ask scope (b.addBranch test.known? outcome) rest c₂ = .ok (branches, b') d ∧
      out = ((test, block) :: branches, b') := by
  obtain ⟨test, c₁, htest, hrest⟩ := Run.bind_eq_ok.mp h
  obtain ⟨⟨block, outcome⟩, c₂, harm, hrest⟩ := Run.bind_eq_ok.mp hrest
  obtain ⟨⟨branches, b'⟩, c₃, hbranches, hreturn⟩ := Run.bind_eq_ok.mp hrest
  cases hreturn
  exact ⟨test, block, outcome, branches, b', c₁, c₂, htest, harm, hbranches, rfl⟩

theorem checkOtherwise_some_eq_ok {b : Branching} {body : Surface.Block}
    {out : Option Core.Block × Branching}
    (h : checkOtherwise ask scope b (some body) c = .ok out d) :
    ∃ block outcome, checkArm ask body b.decided scope c = .ok (block, outcome) d ∧
      out = (some block, if b.decided then b else { b.add outcome with exhaustive := true }) := by
  obtain ⟨⟨block, outcome⟩, c₁, harm, hreturn⟩ := Run.bind_eq_ok.mp h
  cases hreturn
  exact ⟨block, outcome, harm, rfl⟩

theorem condStmt_eq_ok {branches : List (Surface.Expr × Surface.Block)}
    {otherwise : Option Surface.Block} {kind : Core.StmtKind}
    (h : condStmt ask branches otherwise scope c = .ok kind d) :
    ∃ checked b last b' c₁ c₂,
      checkBranches ask scope {} branches c = .ok (checked, b) c₁ ∧
      checkOtherwise ask scope b otherwise c₁ = .ok (last, b') c₂ ∧
      kind = .cond checked last ∧ d = c₂.reframe fun f => f.modifyTop b'.leave := by
  obtain ⟨⟨checked, b⟩, c₁, hbranches, hrest⟩ := Run.bind_eq_ok.mp h
  obtain ⟨⟨last, b'⟩, c₂, hotherwise, hrest⟩ := Run.bind_eq_ok.mp hrest
  obtain ⟨u, c₃, hleave, hreturn⟩ := Run.bind_eq_ok.mp hrest
  cases hleave
  cases hreturn
  exact ⟨checked, b, last, b', c₁, c₂, hbranches, hotherwise, rfl, rfl⟩

/-! ## Loops and jumps -/

/-- The frame inside a loop. -/
def LoopForm.enter (form : LoopForm) (id : LoopId) (f : Frame) : Frame :=
  { f with loops := { id, label := form.label.map (·.name), bodyDepth := f.height } :: f.loops }

/-- The frame once its innermost loop is closed. -/
def leaveLoop (f : Frame) : Frame := { f with loops := f.loops.tail }

/-- Whether a reachable `break` leaves the innermost loop. -/
def isLeft (f : Frame) : Bool := f.loops.head?.any (·.hasBreak)

theorem optionalStmt_some_eq_ok {stmt : Surface.Stmt} {out : Option Core.Stmt}
    (h : optionalStmt ask scope (some stmt) c = .ok out d) :
    ∃ s, ask (.stmt stmt scope) c = .ok s d ∧ out = some s := by
  obtain ⟨s, hs, rfl⟩ := Run.map_eq_ok.mp h
  exact ⟨s, hs, rfl⟩

theorem loopCondition_some_eq_ok {e : Surface.Expr} {out : Option Core.Expr × Option Bool}
    (h : loopCondition ask scope (some e) c = .ok out d) :
    ∃ test, ask.valueOf e Shape.bool.plain scope c = .ok test d ∧
      out = (some test, test.known?) := by
  obtain ⟨test, c₁, htest, hreturn⟩ := Run.bind_eq_ok.mp h
  cases hreturn
  exact ⟨test, htest, rfl⟩

/-- What is known of a loop's condition is what is known of the test. -/
theorem loopCondition_known {condition : Option Surface.Expr} {out : Option Core.Expr}
    {known : Option Bool} (h : loopCondition ask scope condition c = .ok (out, known) d) :
    (out = none ∧ known = some true) ∨ ∃ test, out = some test ∧ known = test.known? := by
  cases condition with
  | none =>
    cases h
    exact .inl ⟨rfl, rfl⟩
  | some e =>
    obtain ⟨test, -, hout⟩ := loopCondition_some_eq_ok h
    cases hout
    exact .inr ⟨test, rfl, rfl⟩

/-- The steps of checking the parts of a loop, in the block of its header. -/
structure LoopSteps (ask : Asker) (id : LoopId) (form : LoopForm) (scope : Scope) (c d : Context)
    where
  init : Option Core.Stmt
  condition : Option Core.Expr
  known : Option Bool
  body : Core.Block
  outcome : BlockFrame
  step : Option Core.Stmt
  entered : Context
  tested : Context
  behind : Context
  hinit : optionalStmt ask scope form.init c = .ok init entered
  hcondition : loopCondition ask scope form.condition (entered.reframe (form.enter id)) =
    .ok (condition, known) tested
  hbody : checkArm ask form.body (known = some false) scope tested = .ok (body, outcome) behind
  hstep : optionalStmt ask scope form.step behind = .ok step d

theorem checkLoopParts_eq_ok {id : LoopId} {form : LoopForm} {out : CheckedLoop × Bool}
    (h : checkLoopParts ask id form scope c = .ok out d) :
    ∃ c₁, ∃ steps : LoopSteps ask id form scope c c₁,
      d = c₁.reframe leaveLoop ∧
      out = ({ init := steps.init, condition := steps.condition, step := steps.step
               body := steps.body, known := steps.known },
        steps.known = some true && !isLeft c₁.here) := by
  obtain ⟨init, c₁, hinit, hrest⟩ := Run.bind_eq_ok.mp h
  obtain ⟨u, c₂, henter, hrest⟩ := Run.bind_eq_ok.mp hrest
  cases henter
  obtain ⟨r, c₃, hattempt, hrest⟩ := Run.bind_eq_ok.mp hrest
  obtain ⟨left, c₄, hclose, hrest⟩ := Run.bind_eq_ok.mp hrest
  obtain ⟨f, c₅, hf, hleave⟩ := Run.bind_eq_ok.mp hclose
  rw [frame_apply] at hf
  cases hf
  cases hleave
  obtain ⟨loop, c₆, hloop, hreturn⟩ := Run.bind_eq_ok.mp hrest
  obtain ⟨rfl, rfl⟩ := Run.ofExcept_eq_ok.mp hloop
  cases hreturn
  rcases Run.attempt_eq_ok.mp hattempt with ⟨a, hiteration, hok⟩ | ⟨e, -, he⟩
  · cases hok
    obtain ⟨⟨condition, known⟩, c₇, hcondition, hrest⟩ := Run.bind_eq_ok.mp hiteration
    obtain ⟨⟨body, outcome⟩, c₈, hbody, hrest⟩ := Run.bind_eq_ok.mp hrest
    obtain ⟨step, c₉, hstep, hreturn⟩ := Run.bind_eq_ok.mp hrest
    cases hreturn
    exact ⟨_, ⟨init, condition, known, body, outcome, step, c₁, c₇, c₈, hinit, hcondition, hbody,
      hstep⟩, rfl, rfl⟩
  · cases he

/-- The context in which the header of a loop is checked. -/
def header (c : Context) : Context :=
  { c with loopCount := c.loopCount + 1 }.reframe Frame.openBlock

/-- A loop is checked in the block of its header, which is then closed. Where the loop goes on
forever, control does not reach what follows. -/
theorem loopStmt_eq_ok {form : LoopForm} {kind : Core.StmtKind}
    (h : loopStmt ask form scope c = .ok kind d) :
    ∃ c₁ c₂, ∃ steps : LoopSteps ask ⟨c.loopCount + 1⟩ form scope (header c) c₁,
      settleMoves c₁.here.top (c₁.reframe (closed ∘ leaveLoop)) = .ok ⟨⟩ c₂ ∧
      (d = if steps.known = some true && !isLeft c₁.here then
          c₂.reframe fun f => f.modifyTop fun b => { b with returned := true }
        else c₂) ∧
      kind = .loop ⟨c.loopCount + 1⟩ steps.init steps.condition steps.step steps.body
        (endDrops c₁.here) := by
  obtain ⟨id, c₁, hid, hrest⟩ := Run.bind_eq_ok.mp h
  cases hid
  obtain ⟨u, c₂, hopen, hrest⟩ := Run.bind_eq_ok.mp hrest
  cases hopen
  obtain ⟨loop, c₃, hparts, hrest⟩ := attempt_closeBlock_eq_ok hrest fun e s t he => by
    obtain ⟨_, _, hfail, _⟩ := Run.bind_eq_ok.mp he
    cases hfail
  obtain ⟨c₄, steps, rfl, rfl⟩ := checkLoopParts_eq_ok hparts
  obtain ⟨loop, c₅, hloop, hrest⟩ := Run.bind_eq_ok.mp hrest
  cases hloop
  obtain ⟨u, c₆, hsettle, hrest⟩ := Run.bind_eq_ok.mp hrest
  have hhere : (c₄.reframe leaveLoop).here = leaveLoop c₄.here := c₄.here_reframe rfl
  rw [hhere] at hsettle hrest
  rw [c₄.reframe_reframe] at hsettle
  refine ⟨c₄, c₆, steps, hsettle, ?_⟩
  dsimp only at hrest
  split at hrest
  · rename_i hforever
    obtain ⟨u, c₇, hleave, hreturn⟩ := Run.bind_eq_ok.mp hrest
    cases hleave
    cases hreturn
    rw [if_pos hforever]
    exact ⟨rfl, rfl⟩
  · rename_i hforever
    cases hrest
    rw [if_neg hforever]
    exact ⟨rfl, rfl⟩

/-- The innermost loop that a jump without a label, or with this one, is for. -/
def jumpTarget? (f : Frame) (label : Option Ident) : Option (Nat × LoopFrame) :=
  (targetLoop? f label).bind fun i => (f.loops[i]?).map (i, ·)

/-- The frame with a loop that a reachable jump leaves. -/
def jumpLeaves (f : Frame) (jump : Jump) (i : Nat) : Frame :=
  if jump = .brk then { f with loops := f.loops.modify i fun l => { l with hasBreak := true } }
  else f

/-- The statement of a jump. -/
def Jump.kind (jump : Jump) (target : LoopId) (drops : List LocalId) : Core.StmtKind :=
  match jump with
  | .brk => .brk target drops
  | .cont => .cont target drops

/-- A jump leaves its block. -/
theorem jumpEnd_eq_ok {jump : Jump} {loop : LoopFrame} {kind : Core.StmtKind}
    (h : (do
      let drops := (← frame).ownedFrom loop.bodyDepth
      modifyFrame (·.modifyTop fun b => { b with jumpedTo := some loop.id })
      return match jump with
        | .brk => .brk loop.id drops
        | .cont => .cont loop.id drops : Check Core.StmtKind) c = .ok kind d) :
    kind = jump.kind loop.id (c.here.ownedFrom loop.bodyDepth) ∧
      d = c.reframe fun f => f.modifyTop fun b => { b with jumpedTo := some loop.id } := by
  obtain ⟨f, c₂, hf, hrest⟩ := Run.bind_eq_ok.mp h
  rw [frame_apply] at hf
  cases hf
  obtain ⟨u, c₃, hmodify, hreturn⟩ := Run.bind_eq_ok.mp hrest
  cases hmodify
  cases hreturn
  exact ⟨rfl, rfl⟩

theorem jumpStmt_eq_ok {jump : Jump} {label : Option Ident} {span : Span} {kind : Core.StmtKind}
    (h : jumpStmt jump label span c = .ok kind d) :
    ∃ i loop c₁, jumpTarget? c.here label = some (i, loop) ∧
      (c.here.unreachable = 0 ∧ (∃ carried, carryMoves (jumpLeaves c.here jump i) jump loop =
          .ok carried ∧ c₁ = c.reframe fun _ => carried) ∨
        c.here.unreachable ≠ 0 ∧ c₁ = c) ∧
      kind = jump.kind loop.id (c₁.here.ownedFrom loop.bodyDepth) ∧
      d = c₁.reframe fun f => f.modifyTop fun b => { b with jumpedTo := some loop.id } := by
  unfold jumpStmt at h
  obtain ⟨f, c₁, hf, hrest⟩ := Run.bind_eq_ok.mp h
  rw [frame_apply] at hf
  cases hf
  cases htarget : (targetLoop? c.here label).bind fun i => (c.here.loops[i]?).map (i, ·) with
  | none =>
    rw [htarget] at hrest
    cases hrest
  | some target =>
    obtain ⟨i, loop⟩ := target
    rw [htarget] at hrest
    dsimp only at hrest
    split at hrest
    · rename_i hreach
      obtain ⟨carried, c₁, hcarry, hset⟩ := Run.bind_eq_ok.mp hrest
      obtain ⟨hcarried, rfl⟩ := Run.ofExcept_eq_ok.mp hcarry
      obtain ⟨u, c₂, hmodify, hend⟩ := Run.bind_eq_ok.mp hset
      cases hmodify
      exact ⟨i, loop, _, htarget, .inl ⟨hreach, carried, hcarried, rfl⟩, jumpEnd_eq_ok hend⟩
    · rename_i hreach
      exact ⟨i, loop, c, htarget, .inr ⟨hreach, rfl⟩, jumpEnd_eq_ok hrest⟩

/-! ## Simple statements -/

/-- The frame with one more local in its innermost block. -/
def declare (l : Local) (f : Frame) : Frame :=
  { f with locals := f.locals.push l }.modifyTop fun b =>
    { b with locals := ⟨f.locals.size⟩ :: b.locals }

theorem declareLocal_eq_ok {name : Ident} {t : Ty} {constant : Bool} {value : Option Const}
    {id : LocalId} (h : declareLocal name t constant value c = .ok id d) :
    id = ⟨c.here.locals.size⟩ ∧
      d = c.reframe (declare
        { name, type := t, constant, value, depth := c.here.height - 1
          ownership := if t.shape.isCopyable then .unset else .owns }) := by
  unfold declareLocal at h
  rw [frame_bind_apply] at h
  cases hclash : c.here.top.locals.reverse.find? fun id =>
      (c.here.localAt id).name.name == name.name with
  | none =>
    rw [hclash] at h
    obtain ⟨u, c₂, hmodify, hreturn⟩ := Run.bind_eq_ok.mp h
    cases hmodify
    cases hreturn
    exact ⟨rfl, c.reframe_congr rfl⟩
  | some previous =>
    rw [hclash] at h
    obtain ⟨_, _, hfail, -⟩ := Run.bind_eq_ok.mp h
    cases hfail

/-- The steps of checking the declaration of a local. -/
structure DeclSteps (ask : Asker) (decl : Surface.VarDecl) (scope : Scope) (c d : Context) where
  declared : Option Ty
  value : Option Core.Expr
  type : Ty
  id : LocalId
  annotated : Context
  valued : Context
  completed : Context
  taken : Context
  htype : resolveAnnotation ask decl.type scope c = .ok declared annotated
  hvalue : (decl.value = none ∧ value = none ∧ valued = annotated) ∨
    ∃ e v, decl.value = some e ∧ value = some v ∧ ask (.value e declared scope) annotated = .ok v valued
  hdeclared : declared = some type ∨ declared = none ∧ value.map Core.Expr.type = some type
  hcomplete : ask.complete type decl.name.span valued = .ok ⟨⟩ completed
  htaken : (value = none ∧ type.shape.isCopyable = true ∧ taken = completed) ∨
    ∃ v, value = some v ∧ consume v completed = .ok ⟨⟩ taken
  hdeclare : declareLocal decl.name type decl.constant
    (if decl.constant then value.bind (·.constant) else none) taken = .ok id d

theorem declStmt_eq_ok {decl : Surface.VarDecl} {kind : Core.StmtKind}
    (h : declStmt ask decl scope c = .ok kind d) :
    ∃ steps : DeclSteps ask decl scope c d, kind = .declare steps.id steps.value := by
  revert h
  change Gives _ c kind d → _
  unfold declStmt
  refine gives_bind fun declared c₁ htype => ?_
  extract_lets +onlyGivenNames missing withValue
  have hwith {value : Option Core.Expr} {c₂ : Context}
      (hvalue : (decl.value = none ∧ value = none ∧ c₂ = c₁) ∨
        ∃ e v, decl.value = some e ∧ value = some v ∧ ask (.value e declared scope) c₁ = .ok v c₂) :
      Gives (withValue value) c₂ kind d →
        ∃ steps : DeclSteps ask decl scope c d, kind = .declare steps.id steps.value := by
    dsimp -zeta only [withValue]
    extract_lets +onlyGivenNames known withType
    have htyped {t : Ty}
        (hdeclared : declared = some t ∨ declared = none ∧ value.map Core.Expr.type = some t) :
        Gives (withType t) c₂ kind d →
          ∃ steps : DeclSteps ask decl scope c d, kind = .declare steps.id steps.value := by
      dsimp -zeta only [withType]
      refine gives_bind fun u c₃ hvoid => ?_
      obtain rfl : c₃ = c₂ :=
        preserves_requireValueType (P := (· = c₂)) t _ (Run.ends_of_ok hvoid) rfl
      refine gives_bind fun u c₄ hcomplete => ?_
      extract_lets +onlyGivenNames declare
      have hdecl {c₅ : Context} (u : PUnit)
          (htaken : (value = none ∧ t.shape.isCopyable = true ∧ c₅ = c₄) ∨
            ∃ v, value = some v ∧ consume v c₄ = .ok ⟨⟩ c₅)
          (h : Gives (declare u) c₅ kind d) :
          ∃ steps : DeclSteps ask decl scope c d, kind = .declare steps.id steps.value := by
        obtain ⟨id, c₆, hdeclare, hreturn⟩ := Run.bind_eq_ok.mp h
        cases hreturn
        exact ⟨⟨declared, value, t, id, c₁, c₃, c₄, c₅, htype, hvalue, hdeclared, hcomplete, htaken,
          hdeclare⟩, rfl⟩
      clear_value declare
      cases value with
      | none =>
        dsimp only
        split
        · exact fun h => by cases h
        · rename_i hcopyable
          exact hdecl ⟨⟩ (.inl ⟨rfl, by simpa using hcopyable, rfl⟩)
      | some v => exact gives_bind fun u c₅ hconsume => hdecl u (.inr ⟨v, rfl, hconsume⟩)
    clear_value withType
    cases declared with
    | some t => exact htyped (.inl rfl)
    | none =>
      cases value with
      | some v => exact htyped (.inr ⟨rfl, rfl⟩)
      | none => exact fun h => by cases h
  clear_value withValue
  cases hdecl : decl.value with
  | none => exact hwith (.inl ⟨hdecl, rfl, rfl⟩)
  | some e =>
    refine gives_bind fun value c₂ hvalue => ?_
    obtain ⟨v, hv, rfl⟩ := Run.map_eq_ok.mp hvalue
    exact hwith (.inr ⟨e, v, hdecl, rfl, hv⟩)

theorem requirePlace_eq_ok {e : Surface.Expr} {write : Bool} {place : Core.Place}
    (h : requirePlace ask e write scope c = .ok place d) :
    ask (.denoted e write scope) c = .ok (.place place) d := by
  obtain ⟨denoted, c₁, hdenoted, hplace⟩ := Run.bind_eq_ok.mp h
  cases denoted with
  | place p =>
    cases hplace
    exact hdenoted
  | value v => cases hplace

theorem updatedValue_eq_ok {place : Core.Place} {target value : Surface.Expr}
    {op : Surface.ArithmeticOp} {out : Core.Expr}
    (h : updatedValue ask place target op value scope c = .ok out d) :
    ∃ right, ask.valueOf value place.type scope c = .ok right d ∧ place.type.shape.isInt = true ∧
      out = .computed (.binary op.binary place.read right) place.type
        (target.span.upTo value.span) := by
  obtain ⟨right, c₁, hright, hrest⟩ := Run.bind_eq_ok.mp h
  dsimp only at hrest
  split at hrest
  · cases hrest
  · rename_i hint
    cases hrest
    exact ⟨right, hright, by simpa using hint, rfl⟩

/-- The steps of checking an assignment: its target, then its value. -/
structure AssignSteps (ask : Asker) (target : Surface.Expr) (op : Option Surface.ArithmeticOp)
    (value : Surface.Expr) (scope : Scope) (c d : Context) where
  place : Core.Place
  source : Core.Expr
  releasePrior : Bool
  placed : Context
  valued : Context
  taken : Context
  hplace : ask (.denoted target op.isNone scope) c = .ok (.place place) placed
  hwritable : place.constant = false
  hsource : (op = none ∧ ask.valueOf value place.type scope placed = .ok source valued) ∨
    ∃ o right, op = some o ∧ ask.valueOf value place.type scope placed = .ok right valued ∧
      place.type.shape.isInt = true ∧
      source = .computed (.binary o.binary place.read right) place.type
        (target.span.upTo value.span)
  htaken : consume source valued = .ok ⟨⟩ taken
  hstored : takeOwnership place target.span taken = .ok releasePrior d

theorem assignStmt_eq_ok {target value : Surface.Expr} {op : Option Surface.ArithmeticOp}
    {kind : Core.StmtKind} (h : assignStmt ask target op value scope c = .ok kind d) :
    ∃ steps : AssignSteps ask target op value scope c d,
      kind = .assign steps.place steps.source steps.releasePrior := by
  revert h
  change Gives _ c kind d → _
  unfold assignStmt
  refine gives_bind fun place c₁ hplace => ?_
  have hplace := requirePlace_eq_ok hplace
  extract_lets +onlyGivenNames store
  have hstore {source : Core.Expr} {c₂ : Context} (hwritable : place.constant = false)
      (hsource : (op = none ∧ ask.valueOf value place.type scope c₁ = .ok source c₂) ∨
        ∃ o right, op = some o ∧ ask.valueOf value place.type scope c₁ = .ok right c₂ ∧
          place.type.shape.isInt = true ∧
          source = .computed (.binary o.binary place.read right) place.type
            (target.span.upTo value.span))
      (h : store source c₂ = .ok kind d) :
      ∃ steps : AssignSteps ask target op value scope c d,
        kind = .assign steps.place steps.source steps.releasePrior := by
    obtain ⟨u, c₃, htaken, hrest⟩ := Run.bind_eq_ok.mp h
    obtain ⟨releasePrior, c₄, hstored, hreturn⟩ := Run.bind_eq_ok.mp hrest
    cases hreturn
    exact ⟨⟨place, source, releasePrior, c₁, c₂, c₃, hplace, hwritable, hsource, htaken, hstored⟩,
      rfl⟩
  clear_value store
  cases op with
  | none =>
    dsimp -zeta only
    extract_lets +onlyGivenNames evaluate
    split
    · exact fun h => by cases h
    · rename_i hwritable
      exact gives_bind fun source c₂ hsource => hstore (by simpa using hwritable)
        (.inl ⟨rfl, hsource⟩)
  | some o =>
    dsimp -zeta only
    extract_lets +onlyGivenNames evaluate
    split
    · exact fun h => by cases h
    · rename_i hwritable
      refine gives_bind fun source c₂ hsource => ?_
      obtain ⟨right, hright, hint, hupdated⟩ := updatedValue_eq_ok hsource
      exact hstore (by simpa using hwritable) (.inr ⟨o, right, rfl, hright, hint, hupdated⟩)

theorem exprStmt_eq_ok {e : Surface.Expr} {kind : Core.StmtKind}
    (h : exprStmt ask e scope c = .ok kind d) :
    ∃ value, rawValue ask e none scope c = .ok value d ∧
      kind = .expr value (!value.type.shape.isCopyable && value.place?.isNone) := by
  obtain ⟨value, c₁, hvalue, hreturn⟩ := Run.bind_eq_ok.mp h
  cases hreturn
  exact ⟨value, hvalue, rfl⟩

/-- The value that is returned is one that is consumed, unless it is `void`. -/
theorem returnedValue_eq_ok {value : Option Surface.Expr} {returns : Ty} {span : Span}
    {out : Option Core.Expr} (h : returnedValue ask value returns span scope c = .ok out d) :
    (value = none ∧ returns.shape.isVoid = true ∧ out = none ∧ d = c) ∨
    (∃ e v, value = some e ∧ rawValue ask e none scope c = .ok v d ∧ v.type.shape.isVoid = true ∧
      returns.shape.isVoid = true ∧ out = some v) ∨
    ∃ e v c₁, value = some e ∧ ask.valueOf e returns scope c = .ok v c₁ ∧
      consume v c₁ = .ok ⟨⟩ d ∧ out = some v := by
  unfold returnedValue at h
  cases value with
  | none =>
    cases hvoid : returns.shape.isVoid with
    | true =>
      simp only [hvoid] at h
      cases h
      exact .inl ⟨rfl, rfl, rfl, rfl⟩
    | false =>
      simp only [hvoid] at h
      cases h
  | some e =>
    cases hvoid : returns.shape.isVoid with
    | true =>
      simp only [hvoid] at h
      obtain ⟨v, c₁, hv, hrest⟩ := Run.bind_eq_ok.mp h
      cases hshape : v.type.shape.isVoid with
      | false =>
        rw [hshape] at hrest
        cases hrest
      | true =>
        rw [hshape] at hrest
        cases hrest
        exact .inr (.inl ⟨e, v, rfl, hv, hshape, rfl, rfl⟩)
    | false =>
      simp only [hvoid] at h
      obtain ⟨v, c₁, hv, hrest⟩ := Run.bind_eq_ok.mp h
      obtain ⟨u, c₂, htaken, hreturn⟩ := Run.bind_eq_ok.mp hrest
      cases hreturn
      exact .inr (.inr ⟨e, v, c₁, rfl, hv, htaken, rfl⟩)

theorem returnStmt_eq_ok {value : Option Surface.Expr} {span : Span} {kind : Core.StmtKind}
    (h : returnStmt ask value span scope c = .ok kind d) :
    ∃ out c₁, returnedValue ask value c.here.returns span scope c = .ok out c₁ ∧
      kind = .ret out (c₁.here.ownedFrom 0) ∧
      d = c₁.reframe fun f => f.modifyTop fun b => { b with returned := true } := by
  obtain ⟨f, c₁, hf, hrest⟩ := Run.bind_eq_ok.mp h
  rw [frame_apply] at hf
  cases hf
  obtain ⟨out, c₂, hout, hrest⟩ := Run.bind_eq_ok.mp hrest
  obtain ⟨f, c₃, hf, hrest⟩ := Run.bind_eq_ok.mp hrest
  rw [frame_apply] at hf
  cases hf
  obtain ⟨u, c₄, hleave, hreturn⟩ := Run.bind_eq_ok.mp hrest
  cases hleave
  cases hreturn
  exact ⟨out, c₂, hout, rfl, rfl⟩

theorem checkStmt_eq_ok {s : Surface.Stmt} {out : Core.Stmt}
    (h : checkStmt ask s scope c = .ok out d) :
    ∃ kind, stmtKind ask s scope c = .ok kind d ∧ out = .mk kind s.span false := by
  obtain ⟨kind, c₁, hkind, hreturn⟩ := Run.bind_eq_ok.mp h
  cases hreturn
  exact ⟨kind, hkind, rfl⟩

/-- The frame once a value is stored in a local, which owns it then. Moves of the local that are
parked with the innermost block do not matter any longer. -/
def own (id : LocalId) (f : Frame) : Frame :=
  (f.modifyTop fun b => { b with loopMoves := b.loopMoves.filter (·.target != id) }).modifyLocal id
    fun l => { l with ownership := .owns }

theorem takeOwnership_eq_ok {place : Core.Place} {span : Span} {owned : Bool}
    (h : takeOwnership place span c = .ok owned d) :
    (place.type.shape.isCopyable = true ∧ owned = false ∧ d = c) ∨
    (place.type.shape.isCopyable = false ∧ ∃ id, place.kind = .slot id ∧
      owned = (c.here.localAt id).owns ∧ d = c.reframe (own id)) := by
  unfold takeOwnership at h
  split at h
  · rename_i hcopyable
    cases h
    exact .inl ⟨hcopyable, rfl, rfl⟩
  · rename_i hcopyable
    refine .inr ⟨by simpa using hcopyable, ?_⟩
    cases hkind : place.kind with
    | slot id =>
      rw [hkind] at h
      cases h
      exact ⟨id, rfl, rfl, rfl⟩
    | _ =>
      rw [hkind] at h
      cases h

/-- The forms of statements. -/
theorem stmtKind_elim {s : Surface.Stmt} {kind : Core.StmtKind} {motive : Prop}
    (h : stmtKind ask s scope c = .ok kind d)
    (decl : ∀ decl, s.kind = .decl decl → declStmt ask decl scope c = .ok kind d → motive)
    (assign : ∀ target op value, s.kind = .assign target op value →
      assignStmt ask target op value scope c = .ok kind d → motive)
    (expr : ∀ e, s.kind = .expr e → exprStmt ask e scope c = .ok kind d → motive)
    (ret : ∀ value, s.kind = .ret value → returnStmt ask value s.span scope c = .ok kind d → motive)
    (jump : ∀ jump label, (s.kind = .brk label ∨ s.kind = .cont label) →
      jumpStmt jump label s.span c = .ok kind d → motive)
    (cond : ∀ branches otherwise, s.kind = .cond branches otherwise →
      condStmt ask branches otherwise scope c = .ok kind d → motive)
    (loop : ∀ form : LoopForm, (s.kind = .forLoop form.label form.init form.condition form.step
        form.body ∨ ∃ e, form = { label := form.label, condition := some e, body := form.body } ∧
          s.kind = .loop form.label e form.body) →
      loopStmt ask form scope c = .ok kind d → motive)
    (block : ∀ block, s.kind = .scope block → scopeStmt ask block scope c = .ok kind d → motive) :
    motive := by
  unfold stmtKind at h
  cases hkind : s.kind with
  | decl d' =>
    rw [hkind] at h
    exact decl d' hkind h
  | assign target op value =>
    rw [hkind] at h
    exact assign target op value hkind h
  | expr e =>
    rw [hkind] at h
    exact expr e hkind h
  | ret value =>
    rw [hkind] at h
    exact ret value hkind h
  | brk label =>
    rw [hkind] at h
    exact jump .brk label (.inl hkind) h
  | cont label =>
    rw [hkind] at h
    exact jump .cont label (.inr hkind) h
  | cond branches otherwise =>
    rw [hkind] at h
    exact cond branches otherwise hkind h
  | loop label condition body =>
    rw [hkind] at h
    exact loop { label, condition := some condition, body } (.inr ⟨condition, rfl, hkind⟩) h
  | forLoop label init condition step body =>
    rw [hkind] at h
    exact loop { label, init, condition, step, body } (.inl hkind) h
  | scope b =>
    rw [hkind] at h
    exact block b hkind h

end Check

end OwnLang
