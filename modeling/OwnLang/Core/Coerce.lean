import OwnLang.Core.Expr
import OwnLang.Diagnostic.Basic
import OwnLang.Ty.Conversion
import OwnLang.Ty.Display

/-!
# Converting values

A value of another type is converted where a rule allows it. A constant integer has to fit its new
type and becomes a literal of it.
-/

namespace OwnLang.Core

/-- The conversion between two different shapes, if there is one. -/
def Cast.between? : Shape → Shape → Option Cast
  | .int source, .int target => some (.int source target)
  | source, target =>
    if source.convertsPointer target || source.viewsArray target then some .pointer else none

/-- An integer literal of a type that can hold it. -/
def Expr.literal (value : Int) (type : Ty) (width : Width) (span : Span) :
    Except Diagnostic Expr :=
  if intFits value width.bits then .ok (.ofConst (.int value) type (.int value) span)
  else .error ⟨.integerOutOfRange value type.describe, span, none⟩

/-- A value as one of the expected type. -/
def Expr.coerce (value : Expr) (expected : Ty) : Except Diagnostic Expr :=
  if value.type.same expected then .ok value
  else
    match Cast.between? value.type.shape expected.shape, value.constant with
    | some (.int _ target), some (.int n) => Expr.literal n expected target value.span
    | some (.int source target), _ =>
      .ok (.computed (.cast value (.int source target)) expected value.span)
    | some .pointer, constant => .ok (.mk (.cast value .pointer) expected constant value.span)
    | none, _ =>
      .error ⟨.typeMismatch expected.describe value.type.describe, value.span, none⟩

end OwnLang.Core
