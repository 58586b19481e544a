import OwnLang.Surface.Expr
import OwnLang.Ty.Const

/-!
# Folding constants

What operators make of constants. Division truncates toward zero; a division by zero is no
constant.
-/

namespace OwnLang.Const

open Surface (BinaryOp UnaryOp)

/-- An operator on two integers. -/
def foldInts (op : BinaryOp) (a b : Int) : Option Const :=
  match op with
  | .add => some (.int (a + b))
  | .sub => some (.int (a - b))
  | .mul => some (.int (a * b))
  | .div => if b = 0 then none else some (.int (a.tdiv b))
  | .rem => if b = 0 then none else some (.int (a.tmod b))
  | .eq => some (.bool (a == b))
  | .ne => some (.bool (a != b))
  | .lt => some (.bool (a < b))
  | .le => some (.bool (a ≤ b))
  | .gt => some (.bool (a > b))
  | .ge => some (.bool (a ≥ b))
  | .and | .or => none

/-- An arithmetic operator or a comparison on two constants. -/
def foldBinary (op : BinaryOp) : Option Const → Option Const → Option Const
  | some (.int a), some (.int b) => foldInts op a b
  | some (.bool a), some (.bool b) =>
    match op with
    | .eq => some (.bool (a == b))
    | .ne => some (.bool (a != b))
    | _ => none
  | _, _ => none

/-- A logical operator on two constants; both have to be known. -/
def foldLogical (op : BinaryOp) (left right : Option Const) : Option Const :=
  match left.bind bool?, right.bind bool? with
  | some a, some b => some (.bool (if op = .and then a && b else a || b))
  | _, _ => none

end OwnLang.Const
