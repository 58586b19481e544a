import OwnLang.Emit.Expr

/-!
# Statements

What no execution reaches is left out: statements that are flagged so, branches whose condition is
known to be false, and those behind a branch whose condition is known to be true. An assignment
evaluates its value ahead of its target, and frees the value that the target owned.
-/

namespace OwnLang.Emit

open Ir (Operand Build)

/-- The declaration of a local. -/
def emitDeclare (id : LocalId) (value : Option Core.Expr) : Emit Unit := do
  let (address, t) ← slot id
  let content ← match value with
    | some value => emitExpr value
    | none => pure ((← context).zeroOf t)
  build (Build.store content address)

/-- An assignment. -/
def emitAssign (target : Core.Place) (value : Core.Expr) (releasePrior : Bool) : Emit Unit := do
  let content ← emitExpr value
  let address ← emitPlace target
  if releasePrior then
    let prior ← build (Build.load (← irType target.type) address)
    release prior target.type
  build (Build.store content address)

/-- An expression that stands as a statement. -/
def emitExprStmt (value : Core.Expr) (unused : Bool) : Emit Unit := do
  let result ← emitExpr value
  if unused then
    release result value.type

/-- A `return`. The value is evaluated before the locals are freed. -/
def emitReturn (value : Option Core.Expr) (drops : List LocalId) : Emit Unit := do
  let result ← match value with
    | some value => some <$> emitExpr value
    | none => pure none
  dropLocals drops
  build (Build.ret result)

/-- A jump to a label of a loop. -/
def emitJump (id : LoopId) (drops : List LocalId) (label : LoopLabels → Ir.Label) : Emit Unit := do
  let labels ← loopLabels id
  dropLocals drops
  build (Build.br (label labels))

/-- Goes on at `first` if a loop's condition holds, and else at `done`. -/
def emitLoopTest (condition : Option Core.Expr) (first done : Ir.Label) : Emit Unit := do
  match condition with
  | some test =>
    if test.known? = some true then build (Build.br first)
    else
      let value ← emitExpr test
      build (Build.condBr value first done)
  | none => build (Build.br first)

/-- A loop behind its header's statement. -/
def emitLoop (id : LoopId) (condition : Option Core.Expr) (body step : Emit Unit)
    (exitDrops : List LocalId) : Emit Unit := do
  let check ← build Build.newLabel
  let first ← build Build.newLabel
  let next ← build Build.newLabel
  let done ← build Build.newLabel
  enterLoop id { continueTo := next, breakTo := done }
  build (Build.placeLabel check)
  emitLoopTest condition first done
  build (Build.placeLabel first)
  body
  build (Build.placeLabel next)
  step
  build (Build.br check)
  build (Build.placeLabel done)
  dropLocals exitDrops

/-- A branch that is taken if a condition holds; control goes on at `done` behind it. -/
def emitBranch (condition : Core.Expr) (body : Emit Unit) (done : Ir.Label) : Emit Unit := do
  let value ← emitExpr condition
  let taken ← build Build.newLabel
  let otherwise ← build Build.newLabel
  build (Build.condBr value taken otherwise)
  build (Build.placeLabel taken)
  body
  if !(← isTerminated) then
    build (Build.br done)
  build (Build.placeLabel otherwise)

mutual

/-- A block, which frees what its locals own if control reaches its end. -/
def emitBlock : Core.Block → Emit Unit
  | .mk stmts drops => do
    emitStmts stmts
    if !(← isTerminated) then
      dropLocals drops

/-- The statements of a block that executions reach. -/
def emitStmts : List Core.Stmt → Emit Unit
  | [] => return ()
  | stmt :: rest => do
    if !stmt.unreachable then
      emitStmt stmt
    emitStmts rest

/-- A statement. -/
def emitStmt : Core.Stmt → Emit Unit
  | .mk kind _ _ => emitStmtKind kind

/-- A statement of a form. -/
def emitStmtKind : Core.StmtKind → Emit Unit
  | .declare id value => emitDeclare id value
  | .assign target value releasePrior => emitAssign target value releasePrior
  | .expr value unused => emitExprStmt value unused
  | .ret value drops => emitReturn value drops
  | .brk id drops => emitJump id drops (·.breakTo)
  | .cont id drops => emitJump id drops (·.continueTo)
  | .cond branches otherwise => do
    let done ← build Build.newLabel
    emitBranches done branches (emitOptionalBlock otherwise)
    build (Build.placeLabel done)
  | .loop id init condition step body exitDrops => do
    emitOptionalStmt init
    emitLoop id condition (emitBlock body) (emitOptionalStmt step) exitDrops
  | .scope block => emitBlock block

/-- The branches of an `if` that can be taken, with `otherwise` behind them. -/
def emitBranches (done : Ir.Label) :
    List (Core.Expr × Core.Block) → Emit Unit → Emit Unit
  | [], otherwise => otherwise
  | (condition, body) :: rest, otherwise =>
    match condition.known? with
    | some false => emitBranches done rest otherwise
    | some true => emitBlock body
    | none => do
      emitBranch condition (emitBlock body) done
      emitBranches done rest otherwise

/-- A block that may be missing. -/
def emitOptionalBlock : Option Core.Block → Emit Unit
  | none => return ()
  | some block => emitBlock block

/-- A statement that may be missing. -/
def emitOptionalStmt : Option Core.Stmt → Emit Unit
  | none => return ()
  | some stmt => emitStmt stmt

end

end OwnLang.Emit
