import OwnLang.Check.Context
import OwnLang.Source.Decimal

/-!
# Byte sizes

Structs are packed: their size is the sum of their fields' sizes. Pointers, functions and unsized
arrays take eight bytes. Sizes are 64-bit numbers; a type that needs more has none.
-/

namespace OwnLang

/-- A size that 64 bits can hold. -/
def boundedSize (n : Nat) : Option Nat := if n < wordBound then some n else none

/-- The sum of sizes, each of which may be missing. -/
def sumSizes (sizes : List (Option Nat)) : Option Nat :=
  sizes.foldlM (fun total size => do boundedSize (total + (← size))) 0

/-- The size of a type, with the sizes of structs given. -/
def Ty.sizeGiven (structSize : StructId → Option Nat) : Ty → Option Nat
  | .mk (.int width) _ => some (width.bits / 8)
  | .mk .bool _ => some 1
  | .mk .void _ => some 0
  | .mk (.func ..) _ => some 8
  | .mk (.owner ..) _ => some 8
  | .mk (.shared ..) _ => some 8
  | .mk (.array _ _ none) _ => some 8
  | .mk (.array element _ (some n)) _ => do boundedSize (n * (← element.sizeGiven structSize))
  | .mk (.struct id _) _ => structSize id

namespace Context

/-- The size of a struct that nests others at most `n` deep. -/
def structSizeTo (c : Context) : Nat → StructId → Option Nat
  | 0, _ => none
  | n + 1, id => sumSizes ((c.struct id).fields.map fun f => f.type.sizeGiven (c.structSizeTo n))

/-- The size of a type. Structs cannot nest deeper than there are structs. -/
def sizeOf? (c : Context) (t : Ty) : Option Nat :=
  t.sizeGiven (c.structSizeTo (c.structs.size + 1))

end Context

end OwnLang
