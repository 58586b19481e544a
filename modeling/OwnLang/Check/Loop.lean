import OwnLang.Check.Block

/-!
# Loops and jumps

The header of a `for` has a block of its own around the loop. The condition and the step run in
every iteration, so they count as inside. A loop whose condition is known to be true, or that has
none, and that no reachable `break` leaves, goes on forever.

A jump frees what the blocks own that it leaves: for `break` and `continue` those from the body of
the loop inwards, for `return` all of them.
-/

namespace OwnLang.Check

open Surface (Ident)

/-- A `while` or `for` as written. -/
structure LoopForm where
  label : Option Ident := none
  init : Option Surface.Stmt := none
  condition : Option Surface.Expr := none
  step : Option Surface.Stmt := none
  body : Surface.Block

/-- A checked loop, and what is known of its condition. -/
structure CheckedLoop where
  init : Option Core.Stmt := none
  condition : Option Core.Expr
  step : Option Core.Stmt
  body : Core.Block
  known : Option Bool

/-- A statement that is left out where none is written. -/
def optionalStmt (ask : Asker) (scope : Scope) : Option Surface.Stmt → Check (Option Core.Stmt)
  | none => return none
  | some stmt => some <$> ask (.stmt stmt scope)

/-- The condition of a loop, with what is known of it. -/
def loopCondition (ask : Asker) (scope : Scope) :
    Option Surface.Expr → Check (Option Core.Expr × Option Bool)
  | none => return (none, some true)
  | some e => do
    let test ← ask.valueOf e Shape.bool.plain scope
    return (some test, test.known?)

/-- The parts of a loop that run in every iteration. -/
def checkIteration (ask : Asker) (form : LoopForm) (scope : Scope) : Check CheckedLoop := do
  let (condition, known) ← loopCondition ask scope form.condition
  let (body, _) ← checkArm ask form.body (known = some false) scope
  let step ← optionalStmt ask scope form.step
  return { condition, step, body, known }

/-- Closes the innermost loop and tells whether a reachable `break` leaves it. -/
def closeLoop : Check Bool := do
  let left := (← frame).loops.head?.any (·.hasBreak)
  modifyFrame fun f => { f with loops := f.loops.tail }
  return left

/-- A loop inside the block of its header, and whether it goes on forever. -/
def checkLoopParts (ask : Asker) (id : LoopId) (form : LoopForm) (scope : Scope) :
    Check (CheckedLoop × Bool) := do
  let init ← optionalStmt ask scope form.init
  modifyFrame fun f =>
    { f with
      loops := { id, label := form.label.map (·.name), bodyDepth := f.height } :: f.loops }
  let outcome ← (checkIteration ask form scope).attempt
  let left ← closeLoop
  let loop ← Run.ofExcept outcome
  return ({ loop with init }, loop.known = some true && !left)

/-- A loop. -/
def loopStmt (ask : Asker) (form : LoopForm) (scope : Scope) : Check Core.StmtKind := do
  let id ← newLoop
  modifyFrame (·.openBlock)
  let outcome ← (checkLoopParts ask id form scope).attempt
  let (exitDrops, header) ← closeBlock
  let (loop, forever) ← Run.ofExcept outcome
  settleMoves header
  if forever then
    modifyFrame (·.modifyTop fun b => { b with returned := true })
  return .loop id loop.init loop.condition loop.step loop.body exitDrops

/-- The two jumps of a loop. -/
inductive Jump where
  | brk
  | cont
deriving DecidableEq

/-- The word of a jump. -/
def Jump.word : Jump → String
  | brk => "break"
  | cont => "continue"

/-- A jump as it is written. -/
def Jump.text (jump : Jump) : Option Ident → String
  | some label => jump.word ++ " @" ++ label.name
  | none => jump.word

/-- The position of a jump's loop among the open ones: the innermost, or the innermost of a label. -/
def targetLoop? (f : Frame) : Option Ident → Option Nat
  | some label => f.loops.findIdx? (·.label == some label.name)
  | none => if f.loops.isEmpty then none else some 0

/-- Hands on the moves on a path that jumps. A path that comes back to the loop may not have moved
anything that the next iteration finds gone. -/
def carryMoves (f : Frame) (jump : Jump) (loop : LoopFrame) : Except Diagnostic Frame :=
  let carried := ((f.blocksFrom loop.bodyDepth).reverse.flatMap (·.loopMoves)).filter fun move =>
    f.outlives move.target loop
  match jump, carried with
  | .cont, move :: _ => .error (movedInLoop f move)
  | .cont, [] => .ok f
  | .brk, _ =>
    .ok (if loop.bodyDepth = 0 then f
      else f.modifyBlock (loop.bodyDepth - 1) fun b => { b with loopMoves := b.loopMoves ++ carried })

/-- A `break` or `continue`. -/
def jumpStmt (jump : Jump) (label : Option Ident) (span : Span) : Check Core.StmtKind := do
  let f ← frame
  match (targetLoop? f label).bind fun i => (f.loops[i]?).map (i, ·) with
  | none => Run.reject (.notInLoop (jump.text label)) span
  | some (i, loop) => do
    if f.unreachable = 0 then
      let left := if jump = .brk then
          { f with loops := f.loops.modify i fun l => { l with hasBreak := true } }
        else f
      let carried ← Run.ofExcept (carryMoves left jump loop)
      modifyFrame fun _ => carried
    let drops := (← frame).ownedFrom loop.bodyDepth
    modifyFrame (·.modifyTop fun b => { b with jumpedTo := some loop.id })
    return match jump with
      | .brk => .brk loop.id drops
      | .cont => .cont loop.id drops

end OwnLang.Check
