import OwnLang.Check.Branch
import OwnLang.Check.Loop
import OwnLang.Check.Value

/-!
# Statements
-/

namespace OwnLang.Check

open Surface (ArithmeticOp VarDecl)

/-- The declaration of a local. One of a unique type needs a value. -/
def declStmt (ask : Asker) (decl : VarDecl) (scope : Scope) : Check Core.StmtKind := do
  let declared ← resolveAnnotation ask decl.type scope
  let value ← match decl.value with
    | none => pure none
    | some value => some <$> ask (.value value declared scope)
  let missing := Cause.missingInitializer decl.name.name
  let t ← match declared, value with
    | some t, _ => pure t
    | none, some value => pure value.type
    | none, none => Run.reject missing decl.name.span
  requireValueType t decl.name.span
  ask.complete t decl.name.span
  match value with
  | some value => consume value
  | none => if !t.shape.isCopyable then Run.reject missing decl.name.span
  let known := if decl.constant then value.bind (·.constant) else none
  let id ← declareLocal decl.name t decl.constant known
  return .declare id value

/-- The new value of `target op= value`. -/
def updatedValue (ask : Asker) (place : Core.Place) (target : Surface.Expr) (op : ArithmeticOp)
    (value : Surface.Expr) (scope : Scope) : Check Core.Expr := do
  let right ← ask.valueOf value place.type scope
  if !place.type.shape.isInt then
    Run.reject (.invalidOperands op.symbol place.type.describe right.type.describe) target.span
  return .computed (.binary op.binary place.read right) place.type (target.span.upTo value.span)

/-- An assignment. Its target may be a local that was moved. -/
def assignStmt (ask : Asker) (target : Surface.Expr) (op : Option ArithmeticOp)
    (value : Surface.Expr) (scope : Scope) : Check Core.StmtKind := do
  let place ← requirePlace ask target op.isNone scope
  if place.constant then
    Run.reject .modifyConstant target.span
  let source ← match op with
    | none => ask.valueOf value place.type scope
    | some op => updatedValue ask place target op value scope
  consume source
  let releasePrior ← takeOwnership place target.span
  return .assign place source releasePrior

/-- An expression that stands as a statement. A unique value that nobody takes is freed. -/
def exprStmt (ask : Asker) (e : Surface.Expr) (scope : Scope) : Check Core.StmtKind := do
  let value ← rawValue ask e none scope
  return .expr value (!value.type.shape.isCopyable && value.place?.isNone)

/-- The value that a function of type `returns` returns. -/
def returnedValue (ask : Asker) (value : Option Surface.Expr) (returns : Ty) (span : Span)
    (scope : Scope) : Check (Option Core.Expr) := do
  match value, returns.shape.isVoid with
  | none, true => return none
  | none, false => Run.reject (.typeMismatch returns.describe "void") span
  | some e, true => do
    let value ← rawValue ask e none scope
    if !value.type.shape.isVoid then
      Run.reject (.typeMismatch returns.describe value.type.describe) span
    return some value
  | some e, false => do
    let value ← ask.valueOf e returns scope
    consume value
    return some value

/-- A `return`. -/
def returnStmt (ask : Asker) (value : Option Surface.Expr) (span : Span) (scope : Scope) :
    Check Core.StmtKind := do
  let returned ← returnedValue ask value (← frame).returns span scope
  let drops := (← frame).ownedFrom 0
  modifyFrame (·.modifyTop fun b => { b with returned := true })
  return .ret returned drops

/-- The form of a statement. -/
def stmtKind (ask : Asker) (s : Surface.Stmt) (scope : Scope) : Check Core.StmtKind :=
  match s.kind with
  | .decl decl => declStmt ask decl scope
  | .assign target op value => assignStmt ask target op value scope
  | .expr e => exprStmt ask e scope
  | .ret value => returnStmt ask value s.span scope
  | .brk label => jumpStmt .brk label s.span
  | .cont label => jumpStmt .cont label s.span
  | .cond branches otherwise => condStmt ask branches otherwise scope
  | .loop label condition body =>
    loopStmt ask { label, condition := some condition, body } scope
  | .forLoop label init condition step body =>
    loopStmt ask { label, init, condition, step, body } scope
  | .scope block => scopeStmt ask block scope

/-- A statement, not flagged yet. -/
def checkStmt (ask : Asker) (s : Surface.Stmt) (scope : Scope) : Check Core.Stmt := do
  return .mk (← stmtKind ask s scope) s.span false

end OwnLang.Check
