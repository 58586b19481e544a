import OwnLang.Check.Ownership
import OwnLang.Check.Type

/-!
# Structs, arrays and allocations

The parts of an initializer are consumed. A struct's value has one part for each field, the default
where none is written; the elements of an array filled with one value have to be copyable.
-/

namespace OwnLang.Check

open Surface (Ident TypeExpr)

/-- The type of what an initializer makes. -/
def objectType (ask : Asker) (t : TypeExpr) (scope : Scope) : Check Ty := do
  let resolved ← ask (.type t scope)
  requireValueType resolved t.span
  ask.complete resolved t.span
  return resolved

/-- A value and its type, or the owner of one that is allocated. -/
def initialized (kind : Core.ExprKind) (t : Ty) (heap : Bool) (span : Span) : Core.Expr :=
  .computed kind (if heap then (Shape.ownerOf t).plain else t) span

/-- `new T(v)` -/
def newValue (ask : Asker) (t : TypeExpr) (value : Surface.Expr) (span : Span) (scope : Scope) :
    Check Core.Expr := do
  let target ← objectType ask t scope
  if target.shape.isUnsizedArray then
    Run.reject (.illegalType target.describe) t.span
  let content ← ask.valueOf value target scope
  consume content
  return initialized (.new content) target true span

/-- The value of a field, and where it was written. -/
structure FieldValue where
  index : Nat
  value : Core.Expr
  span : Span

/-- The values that are written for fields, in that order. -/
def writtenFields (ask : Asker) (scope : Scope) (fields : List Field) (done : List FieldValue) :
    List (Ident × Surface.Expr) → Check (List FieldValue)
  | [] => return done
  | (name, e) :: rest => do
    match fields.findIdx? (·.name.name == name.name) with
    | none => Run.reject (.undefinedProperty name.name) name.span
    | some index => do
      if let some previous := done.find? (·.index == index) then
        Run.fail (alreadyExists "Property" name "Already initialized here" previous.span)
      let value ← ask (.value e (fields[index]?.map (·.type)) scope)
      consume value
      writtenFields ask scope fields (done ++ [⟨index, value, name.span⟩]) rest

/-- One value for each field from position `index` on. -/
def fieldValues (written : List FieldValue) (span : Span) (index : Nat) :
    List Field → Except Diagnostic (List Core.Expr)
  | [] => .ok []
  | field :: rest =>
    match ((written.find? (·.index == index)).map (·.value)).or field.default with
    | some value => (fieldValues written span (index + 1) rest).map (value :: ·)
    | none => .error ⟨.missingProperty field.name.name, span, none⟩

/-- `T{a: v}` -/
def structValue (ask : Asker) (t : TypeExpr) (fields : List (Ident × Surface.Expr)) (heap : Bool)
    (span : Span) (scope : Scope) : Check Core.Expr := do
  let target ← ask (.type t scope)
  match target.shape.struct? with
  | none => Run.reject (.notAStruct target.describe) t.span
  | some id => do
    ask (.layout id t.span)
    let declared := ((← get).struct id).fields
    let written ← writtenFields ask scope declared [] fields
    let values ← Run.ofExcept (fieldValues written span 0 declared)
    return initialized (.structInit id values heap) target heap span

/-- The elements of an array that are written one by one. -/
def elementValues (ask : Asker) (scope : Scope) (element : Ty) :
    List Surface.Expr → Check (List Core.Expr)
  | [] => return []
  | e :: rest => do
    let value ← ask.valueOf e element scope
    consume value
    return value :: (← elementValues ask scope element rest)

/-- `[]T{a, b}` -/
def arrayValue (ask : Asker) (t : TypeExpr) (values : List Surface.Expr) (heap : Bool)
    (span : Span) (scope : Scope) : Check Core.Expr := do
  let element ← objectType ask t scope
  let values ← elementValues ask scope element values
  let size := if heap then none else some values.length
  return initialized (.arrayInit element values heap) (Shape.array element false size).plain heap span

/-- The size of a filled array, if it is known; it is not negative. -/
def fillSize (size : Core.Expr) (span : Span) : Check (Option Nat) :=
  match size.constant.bind Const.int? with
  | none => return none
  | some n => if n < 0 then Run.reject .invalidArraySize span else return some n.toNat

/-- `[n]T{v}` -/
def filledValue (ask : Asker) (t : TypeExpr) (size value : Surface.Expr) (heap : Bool)
    (span : Span) (scope : Scope) : Check Core.Expr := do
  let element ← objectType ask t scope
  if !element.shape.isCopyable then
    Run.reject (.cannotTakeOwnership element.describe) value.span
  let count ← ask.valueOf size Shape.i64.plain scope
  let known ← fillSize count size.span
  let content ← ask.valueOf value element scope
  if !heap && known.isNone then
    Run.reject .invalidArraySize size.span
  let size := if heap then none else known
  return initialized (.arrayFill element count content heap) (Shape.array element false size).plain
    heap span

end OwnLang.Check
