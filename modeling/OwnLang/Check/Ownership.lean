import OwnLang.Check.Query

/-!
# Moves

A unique value has one holder. Where a value is consumed (by an initializer, an assignment, an
argument, a returned value, `new` or the parts of an initializer), a read of a local moves the value
out of it, and the local cannot be read again before it has a new value. A unique value that is
held by anything else cannot be moved out.

In a loop, a local from outside may be moved on a path only if the path leaves the loop or gives the
local a new value before the next iteration. Such moves are kept with the innermost block until it
is known where the block goes.
-/

namespace OwnLang.Check

/-- The diagnostic for a value that is gone when a loop comes around again. -/
def movedInLoop (f : Frame) (move : LoopMove) : Diagnostic :=
  { cause := .movedValue (f.localAt move.target).name.name
    span := move.span
    related := some ⟨"Moved here on the previous iteration", move.span⟩ }

/-- The frame once a local is moved: a move inside a loop that the local outlives is kept with the
innermost block, and the condition and the step of a loop may not make one. -/
def parkMove (f : Frame) (move : LoopMove) : Except Diagnostic Frame :=
  match f.loops with
  | [] => .ok f
  | loop :: _ =>
    if 0 < f.unreachable || !f.outlives move.target loop then .ok f
    else if f.height ≤ loop.bodyDepth then .error (movedInLoop f move)
    else .ok (f.modifyTop fun b => { b with loopMoves := b.loopMoves ++ [move] })

/-- Gives a value to its consumer. -/
def consume (value : Core.Expr) : Check Unit := do
  if value.type.shape.isCopyable then
    return ()
  match value.place? with
  | none => return ()
  | some place =>
    match place.kind with
    | .slot id => do
      modifyFrame (·.modifyLocal id fun l => { l with ownership := .moved value.span })
      let parked ← Run.ofExcept (parkMove (← frame) ⟨id, value.span⟩)
      modifyFrame fun _ => parked
    | _ => Run.reject (.cannotTakeOwnership value.type.describe) value.span

/-- Stores a value at a place. The answer tells whether the place owns a value that has to be freed
first. -/
def takeOwnership (place : Core.Place) (span : Span) : Check Bool := do
  if place.type.shape.isCopyable then
    return false
  match place.kind with
  | .slot id => do
    let owned := ((← frame).localAt id).owns
    modifyFrame fun f =>
      (f.modifyTop fun b => { b with loopMoves := b.loopMoves.filter (·.target != id) }).modifyLocal
        id fun l => { l with ownership := .owns }
    return owned
  | _ => Run.reject (.cannotTakeOwnership place.type.describe) span

end OwnLang.Check
