import OwnLang.Check.Query
import OwnLang.Core.Coerce
import OwnLang.Core.Fold

/-!
# Literals and operators

A number takes the integer type that is expected of it, or `i32`. An operand that is a number takes
the type of the other operand.
-/

namespace OwnLang.Check

open Surface (BinaryOp UnaryOp)

/-- The expected type, if it is one of integers. -/
def intHint (expected : Option Ty) : Option Ty := expected.filter (·.shape.isInt)

/-- A number, perhaps with a sign. -/
def numberLiteral (value : Int) (expected : Option Ty) (span : Span) : Check Core.Expr :=
  let t := (intHint expected).getD Shape.i32.plain
  Run.ofExcept (Core.Expr.literal value t (t.shape.width?.getD .w32) span)

/-- Whether an expression is a number, perhaps with a sign. -/
def isNumber (e : Surface.Expr) : Bool :=
  match e.kind with
  | .number _ => true
  | .unary .neg operand =>
    match operand.kind with
    | .number _ => true
    | _ => false
  | _ => false

/-- The constant that a sign makes of a constant, which has to fit the operand's type. -/
def negated (operand : Core.Expr) (width : Width) (span : Span) : Check (Option Const) :=
  match operand.constant with
  | some (.int n) =>
    if intFits (-n) width.bits then return some (.int (-n))
    else Run.reject (.integerOutOfRange (-n) operand.type.describe) span
  | _ => return none

/-- The constant that an operator makes of its operand's. -/
def foldUnary (op : UnaryOp) (operand : Core.Expr) (span : Span) : Check (Option Const) :=
  match op, operand.type.shape with
  | .neg, .int width => negated operand width span
  | .not, .bool => return (operand.constant.bind Const.bool?).map (.bool !·)
  | _, _ => Run.reject (.invalidOperand op.symbol operand.type.describe) span

/-- An operator in front of its operand. -/
def unaryValue (ask : Asker) (op : UnaryOp) (operand : Surface.Expr) (expected : Option Ty)
    (span : Span) (scope : Scope) : Check Core.Expr := do
  match op, operand.kind with
  | .neg, .number n => numberLiteral (-n) expected span
  | _, _ => do
    let hint := match op with
      | .neg => intHint expected
      | .not => some Shape.bool.plain
    let value ← ask (.value operand hint scope)
    let constant ← foldUnary op value span
    return .mk (.unary op value) value.type constant span

/-- `&&` and `||`. -/
def logicalValue (ask : Asker) (op : BinaryOp) (left right : Surface.Expr) (span : Span)
    (scope : Scope) : Check Core.Expr := do
  let a ← ask.valueOf left Shape.bool.plain scope
  let b ← ask.valueOf right Shape.bool.plain scope
  return .mk (.binary op a b) Shape.bool.plain (Const.foldLogical op a.constant b.constant) span

/-- The operands of an arithmetic operator or a comparison, both of one type. -/
def operandValues (ask : Asker) (left right : Surface.Expr) (hint : Option Ty) (scope : Scope) :
    Check (Core.Expr × Core.Expr) := do
  if hint.isNone && isNumber left && !isNumber right then
    let b ← ask.anyValue right scope
    let a ← ask (.value left (intHint (some b.type)) scope)
    let b ← Run.ofExcept (b.coerce a.type)
    return (a, b)
  else
    let a ← ask (.value left hint scope)
    let b ← ask.valueOf right a.type scope
    return (a, b)

/-- Whether an operator takes operands of a shape. Functions, booleans and pointers can only be told
apart. -/
def operatorTakes (op : BinaryOp) (shape : Shape) : Bool :=
  match op with
  | .eq | .ne =>
    match shape with
    | .int _ | .bool | .owner .. | .shared .. | .func .. => true
    | _ => false
  | _ => shape.isInt

/-- Refuses a constant result that its type cannot hold. -/
def requireFit (constant : Option Const) (t : Ty) (span : Span) : Check Unit :=
  match constant, t.shape with
  | some (.int n), .int width =>
    if intFits n width.bits then return ()
    else Run.reject (.integerOutOfRange n t.describe) span
  | _, _ => return ()

/-- An arithmetic operator or a comparison. -/
def binaryValue (ask : Asker) (op : BinaryOp) (left right : Surface.Expr) (expected : Option Ty)
    (span : Span) (scope : Scope) : Check Core.Expr := do
  let hint := if op.isComparison then none else intHint expected
  let (a, b) ← operandValues ask left right hint scope
  if !operatorTakes op a.type.shape then
    Run.reject (.invalidOperands op.symbol a.type.describe b.type.describe) span
  let t := if op.isComparison then Shape.bool.plain else a.type
  let constant := Const.foldBinary op a.constant b.constant
  requireFit constant t span
  return .mk (.binary op a b) t constant span

end OwnLang.Check
