import OwnLang.Ty.Basic

/-!
# Conversions that a program need not write

Between integers of all widths, from owner pointers to shared ones, from what can be changed to
constant views, and from pointers to sized arrays to pointers to unsized ones.
-/

namespace OwnLang.Shape

/-- `T[]` seen as `const T[]`. -/
def viewsArray : Shape → Shape → Bool
  | array element false none, array seen true none => element.same seen
  | _, _ => false

/-- `T[n]` seen as `T[]`, through a pointer. -/
def forgetsSize : Shape → Shape → Bool
  | array element constant (some _), array seen seenConstant none =>
    element.same seen && (seenConstant || !constant)
  | _, _ => false

/-- Whether a pointer to `source` may be used as a pointer to `target`. -/
def pointsAlike (source target : Ty) : Bool :=
  source.same target || viewsArray source.shape target.shape
    || forgetsSize source.shape target.shape

/-- Whether pointers of one shape may be used as pointers of another one. Nothing becomes an owner,
and nothing constant becomes changeable. -/
def convertsPointer : Shape → Shape → Bool
  | owner s constant, owner t seenConstant => (seenConstant || !constant) && pointsAlike s t
  | owner s constant, shared t seenConstant => (seenConstant || !constant) && pointsAlike s t
  | shared s constant, shared t seenConstant => (seenConstant || !constant) && pointsAlike s t
  | _, _ => false

end OwnLang.Shape
