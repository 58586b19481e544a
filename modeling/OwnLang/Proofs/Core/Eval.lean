import Mathlib
import OwnLang.Core.Coerce
import OwnLang.Core.Fold

/-!
# Evaluating checked expressions

`Expr.eval` evaluates the tree of an expression with the operations that the emitter chooses for its
nodes: two's-complement arithmetic on the bits of a width, division that truncates toward zero, signed
comparisons, sign extension and truncation, and logical operators that skip their right operand.
Nothing is said of the forms whose values are not literals: calls, allocations and reads through
pointers have no value here, and neither has a division by zero.

The second half is the arithmetic: an operator on constants that fit a width makes the constant that
the operation on bits makes.
-/

namespace OwnLang

open Surface (BinaryOp UnaryOp)

namespace Core

/-- A value that a literal can stand for. -/
inductive Value where
  | int (width : Width) (bits : BitVec width.bits)
  | bool (value : Bool)
  | text (text : String)

/-- What variables hold. -/
structure Store where
  locals : LocalId → Option Value
  globals : GlobalId → Option Value

/-- The value at a location that is a variable. -/
def Store.read (σ : Store) (place : Place) : Option Value :=
  match place.kind with
  | .slot id => σ.locals id
  | .global id => σ.globals id
  | _ => none

/-- An arithmetic operator or a comparison on words. -/
def evalWords (op : BinaryOp) (width : Width) (a b : BitVec width.bits) : Option Value :=
  match op with
  | .add => some (.int width (a + b))
  | .sub => some (.int width (a - b))
  | .mul => some (.int width (a * b))
  | .div => if b = 0 then none else some (.int width (a.sdiv b))
  | .rem => if b = 0 then none else some (.int width (a.srem b))
  | .eq => some (.bool (a == b))
  | .ne => some (.bool (a != b))
  | .lt => some (.bool (a.slt b))
  | .le => some (.bool (a.sle b))
  | .gt => some (.bool (b.slt a))
  | .ge => some (.bool (b.sle a))
  | .and | .or => none

/-- An arithmetic operator or a comparison. -/
def evalBinary (op : BinaryOp) : Value → Value → Option Value
  | .int v a, .int w b => if h : w = v then evalWords op v a (h ▸ b) else none
  | .bool a, .bool b =>
    match op with
    | .eq => some (.bool (a == b))
    | .ne => some (.bool (a != b))
    | _ => none
  | _, _ => none

/-- An operator in front of its operand. -/
def evalUnary : UnaryOp → Value → Option Value
  | .neg, .int width a => some (.int width (0 - a))
  | .not, .bool a => some (.bool (a ^^ true))
  | _, _ => none

/-- A conversion. -/
def evalCast : Cast → Value → Option Value
  | .pointer, value => some value
  | .int source target, .int width a =>
    if width = source then
      some (.int target (if source.bits < target.bits then a.signExtend target.bits
        else a.truncate target.bits))
    else none
  | _, _ => none

/-- `&&` and `||`: the left operand decides, or else the right one is the result. -/
def evalLogical (op : BinaryOp) (left right : Option Value) : Option Value :=
  match left with
  | some (.bool a) => if a = decide (op = .or) then some (.bool a) else right
  | _ => none

mutual

/-- The value of an expression. -/
def Expr.eval (σ : Store) : Expr → Option Value
  | .mk kind type _ _ => kind.eval σ type

/-- The value of an expression of a form, with its type. -/
def ExprKind.eval (σ : Store) (type : Ty) : ExprKind → Option Value
  | .int n => type.shape.width?.map fun width => .int width (BitVec.ofInt width.bits n)
  | .bool b => some (.bool b)
  | .str text => some (.text text)
  | .load place => σ.read place
  | .binary op left right =>
    if op.isLogical then evalLogical op (left.eval σ) (right.eval σ)
    else do evalBinary op (← left.eval σ) (← right.eval σ)
  | .unary op operand => do evalUnary op (← operand.eval σ)
  | .cast value how => do evalCast how (← value.eval σ)
  | _ => none

end

theorem Expr.eval_mk (σ : Store) (kind : ExprKind) (type : Ty) (constant : Option Const) (span : Span) :
    (Expr.mk kind type constant span).eval σ = kind.eval σ type := by
  rw [Expr.eval]

theorem ExprKind.eval_cast {σ : Store} {e : Expr} {v : Value} (type : Ty) (how : Cast) (h : e.eval σ = some v) :
    (ExprKind.cast e how).eval σ type = evalCast how v := by
  rw [ExprKind.eval, h]
  rfl

/-- Whether a node calls or allocates. -/
def Expr.isEffect (e : Expr) : Bool :=
  match e.kind with
  | .call .. | .macroCall .. | .new _ => true
  | .structInit _ _ heap | .arrayInit _ _ heap | .arrayFill _ _ _ heap => heap
  | _ => false

mutual

/-- The nodes of an expression. -/
def Expr.parts : Expr → List Expr
  | .mk kind type constant span => .mk kind type constant span :: kind.parts

/-- The nodes below a form. -/
def ExprKind.parts : ExprKind → List Expr
  | .int _ | .bool _ | .str _ | .function _ => []
  | .load place | .address place => place.parts
  | .call callee args => callee.parts ++ partsOf args
  | .macroCall _ args => partsOf args
  | .binary _ left right => left.parts ++ right.parts
  | .unary _ operand => operand.parts
  | .cast value _ => value.parts
  | .extract base _ => base.parts
  | .structInit _ values _ | .arrayInit _ values _ => partsOf values
  | .arrayFill _ size value _ => size.parts ++ value.parts
  | .new value => value.parts

/-- The nodes below a location. -/
def Place.parts : Place → List Expr
  | .mk kind _ _ _ => kind.parts

/-- The nodes below the form of a location. -/
def PlaceKind.parts : PlaceKind → List Expr
  | .slot _ | .global _ => []
  | .deref pointer => pointer.parts
  | .field base _ _ => base.parts
  | .element data index => data.parts ++ index.parts

/-- The nodes of the expressions of a list. -/
def partsOf : List Expr → List Expr
  | [] => []
  | e :: rest => e.parts ++ partsOf rest

end

end Core

namespace Const

/-- Whether a constant is one of a shape; an integer has to fit its width. -/
def Fits : Const → Shape → Prop
  | .int n, .int width => -2 ^ (width.bits - 1) ≤ n ∧ n < 2 ^ (width.bits - 1)
  | .bool _, .bool => True
  | .str _, .array .. | .str _, .owner .. | .str _, .shared .. => True
  | _, _ => False

/-- The value that a constant of a shape stands for. -/
def value? (shape : Shape) : Const → Option Core.Value
  | .int n => shape.width?.map fun width => .int width (BitVec.ofInt width.bits n)
  | .bool b => some (.bool b)
  | .str text => some (.text text)

end Const

theorem intFits_iff {n : Int} {width : Width} :
    intFits n width.bits ↔ Const.Fits (.int n) (.int width) := by
  unfold intFits Const.Fits
  rw [Bool.and_eq_true, decide_eq_true_eq, decide_eq_true_eq, and_comm]
  rfl

/-- Shapes whose values are addresses. -/
def Shape.isAddress : Shape → Bool
  | .owner .. | .shared .. | .array .. => true
  | _ => false

theorem Const.fits_address {v : Const} {shape : Shape} (h : shape.isAddress) :
    v.Fits shape ↔ ∃ text, v = .str text := by
  cases shape <;> cases v <;> simp_all [Shape.isAddress, Const.Fits]

theorem Const.fits_int {v : Const} {width : Width} (h : v.Fits (.int width)) :
    ∃ n, v = .int n := by
  cases v with
  | int n => exact ⟨n, rfl⟩
  | bool b => cases h
  | str text => cases h

theorem Const.fits_bool {v : Const} (h : v.Fits .bool) : ∃ b, v = .bool b := by
  cases v with
  | int n => cases h
  | bool b => exact ⟨b, rfl⟩
  | str text => cases h

theorem Const.Fits.int_shape {n : Int} {shape : Shape} (h : Const.Fits (.int n) shape) :
    ∃ width, shape = .int width := by
  cases shape <;> first | exact ⟨_, rfl⟩ | cases h

theorem Const.Fits.value?_isSome {v : Const} {shape : Shape} (h : v.Fits shape) :
    (v.value? shape).isSome := by
  cases v with
  | int n => cases shape <;> first | rfl | cases h
  | bool b => rfl
  | str text => rfl

/-- Shapes that are the same hold the same constants. -/
theorem Const.Fits.of_same {v : Const} {a b : Shape} (h : v.Fits a) (hab : a.same b) : v.Fits b := by
  cases a <;> cases b <;> cases v <;> simp_all [Shape.same, Const.Fits]

theorem Shape.same_int {a : Shape} {width : Width} (h : a.same (.int width)) : a = .int width := by
  cases a <;> simp_all [Shape.same]

theorem Shape.same_bool {a : Shape} (h : a.same .bool) : a = .bool := by
  cases a <;> simp_all [Shape.same]

/-! ## Conversions -/

theorem Core.Cast.between?_int {a b : Shape} {v w : Width}
    (h : Core.Cast.between? a b = some (.int v w)) : a = .int v ∧ b = .int w := by
  unfold Core.Cast.between? at h
  split at h
  · cases h
    exact ⟨rfl, rfl⟩
  · split at h <;> cases h

/-- A view of the same address is one that a program need not write. -/
theorem Core.Cast.between?_views {a b : Shape} (h : Core.Cast.between? a b = some .pointer) :
    a.convertsPointer b ∨ a.viewsArray b := by
  unfold Core.Cast.between? at h
  split at h
  · cases h
  · split at h
    case isFalse => cases h
    case isTrue hview => exact Bool.or_eq_true_iff.mp hview

theorem Core.Cast.between?_pointer {a b : Shape} (h : Core.Cast.between? a b = some .pointer) :
    a.isAddress ∧ b.isAddress := by
  rcases Core.Cast.between?_views h with hview | hview
  · unfold Shape.convertsPointer at hview
    split at hview <;> simp_all [Shape.isAddress]
  · unfold Shape.viewsArray at hview
    split at hview <;> simp_all [Shape.isAddress]

/-! ## Arithmetic -/

section Arithmetic

variable {width : Width} {a b : Int}

theorem toInt_ofInt_of_fits (h : Const.Fits (.int a) (.int width)) :
    (BitVec.ofInt width.bits a).toInt = a := by
  obtain ⟨hlow, hhigh⟩ := h
  refine BitVec.toInt_ofInt_eq_self (by cases width <;> decide) ?_ ?_
  · exact hlow
  · exact hhigh

theorem ofInt_eq_zero (h : Const.Fits (.int b) (.int width)) :
    BitVec.ofInt width.bits b = 0 ↔ b = 0 := by
  constructor
  · intro hzero
    rw [← toInt_ofInt_of_fits h, hzero]
    exact BitVec.toInt_zero
  · rintro rfl
    rfl

theorem ofInt_sdiv (ha : Const.Fits (.int a) (.int width)) (hb : Const.Fits (.int b) (.int width)) :
    (BitVec.ofInt width.bits a).sdiv (BitVec.ofInt width.bits b) =
      BitVec.ofInt width.bits (a.tdiv b) := by
  rw [← BitVec.toInt_inj, BitVec.toInt_sdiv, BitVec.toInt_ofInt (a.tdiv b), toInt_ofInt_of_fits ha,
    toInt_ofInt_of_fits hb]

theorem ofInt_srem (ha : Const.Fits (.int a) (.int width)) (hb : Const.Fits (.int b) (.int width)) :
    (BitVec.ofInt width.bits a).srem (BitVec.ofInt width.bits b) =
      BitVec.ofInt width.bits (a.tmod b) := by
  rw [← BitVec.ofInt_toInt (x := BitVec.srem _ _), BitVec.toInt_srem, toInt_ofInt_of_fits ha,
    toInt_ofInt_of_fits hb]

theorem ofInt_sub : BitVec.ofInt width.bits (a - b) =
    BitVec.ofInt width.bits a - BitVec.ofInt width.bits b := by
  rw [Int.sub_eq_add_neg, BitVec.ofInt_add, BitVec.ofInt_neg, BitVec.sub_eq_add_neg]

theorem ofInt_inj (ha : Const.Fits (.int a) (.int width)) (hb : Const.Fits (.int b) (.int width)) :
    BitVec.ofInt width.bits a = BitVec.ofInt width.bits b ↔ a = b := by
  rw [← BitVec.toInt_inj, toInt_ofInt_of_fits ha, toInt_ofInt_of_fits hb]

theorem ofInt_slt (ha : Const.Fits (.int a) (.int width)) (hb : Const.Fits (.int b) (.int width)) :
    (BitVec.ofInt width.bits a).slt (BitVec.ofInt width.bits b) = decide (a < b) := by
  rw [BitVec.slt_eq_decide, toInt_ofInt_of_fits ha, toInt_ofInt_of_fits hb]

theorem ofInt_sle (ha : Const.Fits (.int a) (.int width)) (hb : Const.Fits (.int b) (.int width)) :
    (BitVec.ofInt width.bits a).sle (BitVec.ofInt width.bits b) = decide (a ≤ b) := by
  rw [BitVec.sle_eq_decide, toInt_ofInt_of_fits ha, toInt_ofInt_of_fits hb]

/-- Comparisons of integers make truth values, and the other operators make integers. -/
theorem foldInts_cases {op : BinaryOp} {v : Const} (h : Const.foldInts op a b = some v) :
    op.isLogical = false ∧ (op.isComparison = true ∧ (∃ x, v = .bool x) ∨
      op.isComparison = false ∧ ∃ n, v = .int n) := by
  cases op <;> simp_all [Const.foldInts, BinaryOp.isComparison, BinaryOp.isLogical, eq_comm]

/-- Folding an operator on constants that fit is the operation on their bits. -/
theorem evalWords_ofInt {op : BinaryOp} {v : Const} (ha : Const.Fits (.int a) (.int width))
    (hb : Const.Fits (.int b) (.int width)) (h : Const.foldInts op a b = some v) :
    Core.evalWords op width (BitVec.ofInt width.bits a) (BitVec.ofInt width.bits b) =
      v.value? (if op.isComparison then .bool else .int width) := by
  have hdecide : (BitVec.ofInt width.bits a == BitVec.ofInt width.bits b) = (a == b) := by
    rw [Bool.eq_iff_iff, beq_iff_eq, beq_iff_eq, ofInt_inj ha hb]
  cases op with
  | add =>
    cases h
    simp [Core.evalWords, Const.value?, BinaryOp.isComparison, Shape.width?, BitVec.ofInt_add]
  | sub =>
    cases h
    simp [Core.evalWords, Const.value?, BinaryOp.isComparison, Shape.width?, ofInt_sub]
  | mul =>
    cases h
    simp [Core.evalWords, Const.value?, BinaryOp.isComparison, Shape.width?, BitVec.ofInt_mul]
  | div =>
    obtain ⟨hne, rfl⟩ : b ≠ 0 ∧ .int (a.tdiv b) = v := by
      simpa [Const.foldInts] using h
    simp only [Core.evalWords, if_neg (mt (ofInt_eq_zero hb).mp hne), ofInt_sdiv ha hb]
    rfl
  | rem =>
    obtain ⟨hne, rfl⟩ : b ≠ 0 ∧ .int (a.tmod b) = v := by
      simpa [Const.foldInts] using h
    simp only [Core.evalWords, if_neg (mt (ofInt_eq_zero hb).mp hne), ofInt_srem ha hb]
    rfl
  | eq =>
    cases h
    simp only [Core.evalWords, hdecide]
    rfl
  | ne =>
    cases h
    simp only [Core.evalWords, bne, hdecide]
    rfl
  | lt =>
    cases h
    simp only [Core.evalWords, ofInt_slt ha hb]
    rfl
  | le =>
    cases h
    simp only [Core.evalWords, ofInt_sle ha hb]
    rfl
  | gt =>
    cases h
    simp only [Core.evalWords, ofInt_slt hb ha]
    rfl
  | ge =>
    cases h
    simp only [Core.evalWords, ofInt_sle hb ha]
    rfl
  | and => cases h
  | or => cases h

end Arithmetic

end OwnLang
