import OwnLang.Emit.Context

/-!
# Types and constants of the target

Pointers, functions and unsized arrays are opaque pointers; an unsized array is a pointer to its
first element.
-/

namespace OwnLang

namespace Context

/-- The type of a value in the target. -/
def irType (c : Context) : Ty → Ir.Ty
  | .mk (.int width) _ => .int width.bits
  | .mk .bool _ => .int 1
  | .mk .void _ => .void
  | .mk (.func ..) _ => .ptr
  | .mk (.owner ..) _ => .ptr
  | .mk (.shared ..) _ => .ptr
  | .mk (.array _ _ none) _ => .ptr
  | .mk (.array element _ (some size)) _ => .array size (c.irType element)
  | .mk (.struct id _) _ => .struct (c.struct id).symbol

/-- The value of a local that is declared without one. -/
def zeroOf (c : Context) (t : Ty) : Ir.Operand :=
  { type := c.irType t
    ref := match t.shape with
      | .int _ => .int 0
      | .bool => .bool false
      | .func .. | .owner .. | .shared .. | .array _ _ none => .null
      | .void | .array _ _ (some _) | .struct .. => .zero }

/-- The type of a function of a program. -/
def functionType? (c : Context) (id : GlobalId) : Option (List Ty × Bool × Ty) :=
  match (c.global id).type with
  | some (.mk (.func params variadic returns) _) => some (params, variadic, returns)
  | _ => none

/-- The type of a function in the target. -/
def irSignature (c : Context) (params : List Ty) (variadic : Bool) (returns : Ty) : Ir.Ty :=
  .func (c.irType returns) (params.map c.irType) variadic

end Context

namespace Emit

open Ir (Operand)

/-- The type of a value in the target. -/
def irType (t : Ty) : Emit Ir.Ty := return (← context).irType t

/-- A function or variable of the program. -/
def symbolOf (id : GlobalId) : Emit Ir.Ref := return .symbol ((← context).global id).symbol

/-- A constant as an operand of a type. -/
def constantOperand (value : Const) (t : Ty) : Emit Operand := do
  match value with
  | .int n => return ⟨← irType t, .int n⟩
  | .bool b => return ⟨.int 1, .bool b⟩
  | .str text => build (Ir.Build.string text)

/-- The constant that stands for an expression of integer or truth value. -/
def literal? (t : Ty) (constant : Option Const) : Option Const :=
  match constant, t.shape with
  | some (.int n), .int _ => some (.int n)
  | some (.int n), .bool => some (.int n)
  | some (.bool b), .int _ => some (.bool b)
  | some (.bool b), .bool => some (.bool b)
  | _, _ => none

/-- The byte size of a type. -/
def byteSize (t : Ty) : Emit Nat := do
  match (← context).sizeOf? t with
  | some n => return n
  | none => Run.stop .size

end Emit

end OwnLang
