import OwnLang.Check.Ownership

/-!
# Blocks

A block keeps track of whether control leaves it before its end. The statements behind such a point
form a region that no execution reaches: it is checked like any other, but flagged, and one warning
covers it. Regions inside such a region get no warning of their own.

A block that control reaches the end of frees what its locals own there, the last declared first.
-/

namespace OwnLang.Check

open Surface (Ident)

/-- The label of a local's earlier declaration and the diagnostic for a second one. -/
def redeclared (name : Ident) (previous : Local) : Diagnostic :=
  { cause := .alreadyExists "Variable" name.name, span := name.span
    related := some ⟨"Already declared here", previous.name.span⟩ }

/-- Declares a local in the innermost block. One of a unique type owns a value from the start. -/
def declareLocal (name : Ident) (t : Ty) (constant : Bool) (value : Option Const) :
    Check LocalId := do
  let f ← frame
  let clash := f.top.locals.reverse.find? fun id => (f.localAt id).name.name == name.name
  if let some previous := clash then
    Run.fail (redeclared name (f.localAt previous))
  let id : LocalId := ⟨f.locals.size⟩
  let added : Local :=
    { name, type := t, constant, value, depth := f.height - 1
      ownership := if t.shape.isCopyable then .unset else .owns }
  modifyFrame fun f =>
    { f with locals := f.locals.push added }.modifyTop fun b => { b with locals := id :: b.locals }
  return id

/-- Whether a region that no execution reaches is open. -/
def isUnreachable : Check Bool := return 0 < (← frame).unreachable

/-- Opens a region that no execution reaches. -/
def enterUnreachable : Check Unit :=
  modifyFrame fun f => { f with unreachable := f.unreachable + 1 }

/-- Closes the region that no execution reaches which was opened last. -/
def leaveUnreachable (f : Frame) : Frame := { f with unreachable := f.unreachable - 1 }

/-- Warns of statements that no execution reaches, unless a region around them is known for it. -/
def warnUnreachable (stmts : List Surface.Stmt) : Check Unit := do
  match stmts, stmts.getLast? with
  | first :: _, some last =>
    if !(← isUnreachable) then
      warn .unreachableCode (first.span.upTo last.span)
  | _, _ => return ()

/-- Statements behind a point that control leaves the block at. -/
def unreachableStmts (ask : Asker) (scope : Scope) : List Surface.Stmt → Check (List Core.Stmt)
  | [] => return []
  | stmt :: rest => do
    let checked ← ask (.stmt stmt scope)
    return checked.flagged true :: (← unreachableStmts ask scope rest)

/-- The statements of the innermost block. -/
def checkStmts (ask : Asker) (scope : Scope) : List Surface.Stmt → Check (List Core.Stmt)
  | [] => return []
  | stmt :: rest => do
    if (← frame).top.terminated then
      warnUnreachable (stmt :: rest)
      enterUnreachable
      let checked ← unreachableStmts ask scope (stmt :: rest)
      modifyFrame leaveUnreachable
      return checked
    else
      let checked ← ask (.stmt stmt scope)
      let flagged := checked.flagged (← isUnreachable)
      return flagged :: (← checkStmts ask scope rest)

/-- Closes the innermost block and tells what it frees at its end. -/
def closeBlock : Check (List LocalId × BlockFrame) := do
  let block := (← frame).top
  modifyFrame fun f => { f with blocks := f.blocks.tail }
  let f ← frame
  return (if block.terminated then [] else f.releaseOrder block, block)

/-- Hands the moves of a closed block on to the block around it. A loop's body that comes to its end
may not have moved anything that the next iteration finds gone. -/
def settleMoves (block : BlockFrame) : Check Unit := do
  if block.terminated then
    return ()
  let f ← frame
  let moves := block.loopMoves.filter fun move => (f.localAt move.target).depth < f.height
  if f.loops.head?.any (·.bodyDepth == f.height) then
    match moves with
    | move :: _ => Run.fail (movedInLoop f move)
    | [] => return ()
  else
    modifyFrame (·.modifyTop fun b => { b with loopMoves := b.loopMoves ++ moves })

/-- A block in a scope of its own, with the state at its end. -/
def checkBlock (ask : Asker) (block : Surface.Block) (scope : Scope) :
    Check (Core.Block × BlockFrame) := do
  modifyFrame (·.openBlock)
  let outcome ← (checkStmts ask scope block.stmts).attempt
  let (drops, closed) ← closeBlock
  let stmts ← Run.ofExcept outcome
  settleMoves closed
  return (.mk stmts drops, closed)

/-- A block that no execution reaches if `dead`; it gets a warning then. -/
def checkArm (ask : Asker) (block : Surface.Block) (dead : Bool) (scope : Scope) :
    Check (Core.Block × BlockFrame) := do
  if dead then
    warnUnreachable block.stmts
    enterUnreachable
    (ask (.block block scope)).andFinally fun c => { c with frame := c.frame.map leaveUnreachable }
  else ask (.block block scope)

/-- A block that stands as a statement. Where control leaves it, it leaves the block around it. -/
def scopeStmt (ask : Asker) (block : Surface.Block) (scope : Scope) : Check Core.StmtKind := do
  let (checked, inner) ← ask (.block block scope)
  modifyFrame (·.modifyTop fun b =>
    { b with
      returned := b.returned || inner.returned
      jumpedTo := b.jumpedTo.or inner.jumpedTo })
  return .scope checked

end OwnLang.Check
