import OwnLang.Check.Call
import OwnLang.Check.Initializer
import OwnLang.Check.Operator

/-!
# Values of expressions
-/

namespace OwnLang.Check

open Surface (Ident)

/-- The location that an expression has to denote. -/
def requirePlace (ask : Asker) (e : Surface.Expr) (write : Bool) (scope : Scope) :
    Check Core.Place := do
  match ← ask (.denoted e write scope) with
  | .place place => return place
  | .value _ => Run.reject .expectedVariable e.span

/-- `&x`, or `&const x`: a shared pointer. -/
def referenceValue (ask : Asker) (target : Surface.Expr) (constant : Bool) (span : Span)
    (scope : Scope) : Check Core.Expr := do
  let place ← requirePlace ask target false scope
  return place.pointerTo (constant || place.constant) span

/-- `#p`: a shared pointer to what an owner points at. -/
def sharedValue (ask : Asker) (owner : Surface.Expr) (span : Span) (scope : Scope) :
    Check Core.Expr := do
  let value ← ask.anyValue owner scope
  match value.type.shape with
  | .owner target constant =>
    return .computed (.cast value .pointer) (Shape.shared target constant).plain span
  | _ => Run.reject (.invalidOperand "#" value.type.describe) span

/-- The value of an expression, which may be `void`. The expected type decides that of literals; the
value is not converted to it. -/
def rawValue (ask : Asker) (e : Surface.Expr) (expected : Option Ty) (scope : Scope) :
    Check Core.Expr := do
  let span := e.span
  match e.kind with
  | .number n => numberLiteral n expected span
  | .bool b => return .ofConst (.bool b) Shape.bool.plain (.bool b) span
  | .str text => return .ofConst (.str text) Shape.string.plain (.str text) span
  | .call callee args => callValue ask callee args span scope
  | .macroCall path args => macroValue ask path args span scope
  | .binary op left right =>
    if op.isLogical then logicalValue ask op left right span scope
    else binaryValue ask op left right expected span scope
  | .unary op operand => unaryValue ask op operand expected span scope
  | .ref target constant => referenceValue ask target constant span scope
  | .share owner => sharedValue ask owner span scope
  | .new t value => newValue ask t value span scope
  | .structInit t fields heap => structValue ask t fields heap span scope
  | .arrayInit t values heap => arrayValue ask t values heap span scope
  | .arrayFill t size value heap => filledValue ask t size value heap span scope
  | .path .. | .deref _ | .index .. | .member .. => readDenoted (← ask (.denoted e false scope))

/-- The value of an expression, converted to the expected type. -/
def checkValue (ask : Asker) (e : Surface.Expr) (expected : Option Ty) (scope : Scope) :
    Check Core.Expr := do
  let value ← rawValue ask e expected scope
  if value.type.shape.isVoid then
    Run.reject (.illegalType value.type.describe) e.span
  match expected with
  | some t => Run.ofExcept (value.coerce t)
  | none => return value

/-- What an expression denotes: a location for paths, pointers that are followed, elements and
members, else only a value. -/
def checkDenoted (ask : Asker) (e : Surface.Expr) (write : Bool) (scope : Scope) :
    Check Denoted := do
  match e.kind with
  | .path path args => pathDenoted ask path args write e.span scope
  | .deref pointer => return .place (← pointeePlace ask pointer e.span scope)
  | .index base index => return .place (← elementPlace ask base index e.span scope)
  | .member base member => memberDenoted ask base member e.span scope
  | _ => return .value (← rawValue ask e none scope)

end OwnLang.Check
