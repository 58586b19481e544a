/-!
# Types

A `Ty` is the shape of a type, with the name of the alias through which the program wrote it. Alias
names are for messages: `Ty.same` and `Shape.same`, the equality of types, do not look at them, and
tell structs apart by identity only.

A type is *copyable* if a value of it may have several holders. Owner pointers are not, and an
array is if its elements are; a struct always is, since its fields have to be.
-/

namespace OwnLang

/-- The identity of a struct. -/
structure StructId where
  index : Nat
deriving DecidableEq, Inhabited

/-- The widths of signed integers. -/
inductive Width where
  | w8 | w16 | w32 | w64
deriving DecidableEq, Inhabited

/-- The number of bits of a width. -/
def Width.bits : Width → Nat
  | w8 => 8
  | w16 => 16
  | w32 => 32
  | w64 => 64

/-- Whether a signed integer of `bits` bits can hold a value. -/
def intFits (value : Int) (bits : Nat) : Bool :=
  let bound := Int.pow 2 (bits - 1)
  value < bound && -bound ≤ value

mutual

/-- A type, and the alias through which it was named. -/
inductive Ty where
  | mk (shape : Shape) (writtenAs : Option String)

/-- The forms of types. -/
inductive Shape where
  | int (width : Width)
  | bool
  | void
  | func (params : List Ty) (variadic : Bool) (returns : Ty)
  /-- `&T`, the only holder of what it points at. -/
  | owner (target : Ty) (constant : Bool)
  /-- `*T` -/
  | shared (target : Ty) (constant : Bool)
  /-- `T[n]`, or `T[]` for an array that is only known by its first element. -/
  | array (element : Ty) (constant : Bool) (size : Option Nat)
  | struct (id : StructId) (name : String)

end

instance : Inhabited Shape := ⟨.void⟩
instance : Inhabited Ty := ⟨.mk .void none⟩

namespace Ty

/-- The shape of a type. -/
def shape : Ty → Shape
  | mk shape _ => shape

/-- The alias through which a type was named. -/
def writtenAs : Ty → Option String
  | mk _ name => name

end Ty

/-- A shape that no alias names. -/
def Shape.plain (shape : Shape) : Ty := .mk shape none

mutual

/-- Equality of types, whatever their aliases. -/
def Ty.same : Ty → Ty → Bool
  | .mk a _, .mk b _ => Shape.same a b

/-- Equality of shapes. -/
def Shape.same : Shape → Shape → Bool
  | .int v, .int w => v = w
  | .bool, .bool => true
  | .void, .void => true
  | .func ps v r, .func qs w s => Ty.sameList ps qs && v == w && Ty.same r s
  | .owner t c, .owner u d => Ty.same t u && c == d
  | .shared t c, .shared u d => Ty.same t u && c == d
  | .array t c m, .array u d n => Ty.same t u && c == d && m == n
  | .struct i _, .struct j _ => i = j
  | _, _ => false

/-- Equality of lists of types, element by element. -/
def Ty.sameList : List Ty → List Ty → Bool
  | [], [] => true
  | t :: ts, u :: us => Ty.same t u && Ty.sameList ts us
  | _, _ => false

end

namespace Shape

/-- The type of number literals that nothing else decides. -/
def i32 : Shape := int .w32

/-- The type of indices and array sizes. -/
def i64 : Shape := int .w64

/-- `const i8[]`, the type of string literals. -/
def string : Shape := array (plain (int .w8)) true none

/-- `&T` for what was just allocated. -/
def ownerOf (target : Ty) : Shape := owner target false

/-- `i8[]`, constant or not. -/
def isString : Shape → Bool
  | array (.mk (int .w8) _) _ none => true
  | _ => false

/-- Whether the shape is that of a view through which nothing can be changed. -/
def isConstant : Shape → Bool
  | owner _ constant => constant
  | shared _ constant => constant
  | array _ constant _ => constant
  | _ => false

/-- Owner and shared pointers. -/
def isPointer : Shape → Bool
  | owner .. | shared .. => true
  | _ => false

/-- What a pointer points at, and whether it may not change it. -/
def pointee? : Shape → Option (Ty × Bool)
  | owner target constant => some (target, constant)
  | shared target constant => some (target, constant)
  | _ => none

/-- The width of an integer. -/
def width? : Shape → Option Width
  | int width => some width
  | _ => none

/-- Whether the shape is that of an integer. -/
def isInt (shape : Shape) : Bool := shape.width?.isSome

/-- Which struct it is. -/
def struct? : Shape → Option StructId
  | struct id _ => some id
  | _ => none

/-- `T[]` -/
def isUnsizedArray : Shape → Bool
  | array _ _ none => true
  | _ => false

/-- `void` -/
def isVoid : Shape → Bool
  | void => true
  | _ => false

/-- The built-in type of a name. -/
def builtin? : String → Option Shape
  | "i8" => some (int .w8)
  | "i16" => some (int .w16)
  | "i32" => some (int .w32)
  | "i64" => some (int .w64)
  | "bool" => some bool
  | "void" => some void
  | _ => none

end Shape

mutual

/-- Whether values of the type may have several holders. -/
def Ty.isCopyable : Ty → Bool
  | .mk shape _ => shape.isCopyable

/-- Whether values of the shape may have several holders. -/
def Shape.isCopyable : Shape → Bool
  | .owner .. => false
  | .array element _ _ => element.isCopyable
  | _ => true

end

namespace Ty

/-- The struct whose layout the type contains, itself or as element of its sized arrays. -/
def heldStruct? : Ty → Option StructId
  | mk (.struct id _) _ => some id
  | mk (.array element _ (some _)) _ => element.heldStruct?
  | _ => none

end Ty

end OwnLang
