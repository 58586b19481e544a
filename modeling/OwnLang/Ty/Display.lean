import OwnLang.Ty.Basic

/-!
# How types are shown

Inside another type an alias stands for what it names. `Ty.describe` shows both: `Name (aka T)`.
-/

namespace OwnLang

/-- `const ` in front of constant views. -/
def constantMark (constant : Bool) : String := if constant then "const " else ""

mutual

/-- A type as it stands inside another one. -/
def Ty.display : Ty → String
  | .mk _ (some name) => name
  | .mk shape none => shape.display

/-- A shape as the grammar writes it. -/
def Shape.display : Shape → String
  | .int width => "i" ++ toString width.bits
  | .bool => "bool"
  | .void => "void"
  | .func params variadic returns =>
    let shown := displayList params ++ (if variadic then ["..."] else [])
    "(" ++ ", ".intercalate shown ++ "): " ++ returns.display
  | .owner target constant => constantMark constant ++ "&" ++ target.display
  | .shared target constant => constantMark constant ++ "*" ++ target.display
  | .array element constant (some size) =>
    constantMark constant ++ element.display ++ "[" ++ toString size ++ "]"
  | .array element constant none => constantMark constant ++ element.display ++ "[]"
  | .struct _ name => name

/-- The types of a list, each as it stands inside another one. -/
def displayList : List Ty → List String
  | [] => []
  | t :: ts => t.display :: displayList ts

end

/-- A type as messages show it. -/
def Ty.describe (t : Ty) : String :=
  match t.writtenAs with
  | some name => name ++ " (aka " ++ t.shape.display ++ ")"
  | none => t.shape.display

end OwnLang
