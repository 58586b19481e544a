import Mathlib
import OwnLang.Proofs.Check.TypedValue
import OwnLang.Proofs.Ty.Conversion

/-!
# Values as others of another type

Whether a value of which nothing is known when compiling can be used where another type is expected is
a matter of the two types (`Core.Expr.coerce_eq_ok_iff`), so the order of conversions carries over
to values. Aliases are in the types of a checked tree for messages only: a value and its twin that
differs in aliases, at whatever place of the tree (`Core.Expr.unnamed`), are converted alike.
-/

namespace OwnLang.Core

/-! ## Trees without the names of aliases -/

mutual

/-- An expression without the aliases in its types. -/
def Expr.unnamed : Expr → Expr
  | .mk kind type constant span => .mk kind.unnamed type.unnamed constant span

/-- A form of an expression without the aliases in its types. -/
def ExprKind.unnamed : ExprKind → ExprKind
  | .int value => .int value
  | .bool value => .bool value
  | .str text => .str text
  | .load place => .load place.unnamed
  | .function id => .function id
  | .call callee args => .call callee.unnamed (unnamedList args)
  | .macroCall id args => .macroCall id (unnamedList args)
  | .binary op left right => .binary op left.unnamed right.unnamed
  | .unary op operand => .unary op operand.unnamed
  | .address place => .address place.unnamed
  | .cast value how => .cast value.unnamed how
  | .extract base index => .extract base.unnamed index
  | .structInit id values heap => .structInit id (unnamedList values) heap
  | .arrayInit element values heap => .arrayInit element.unnamed (unnamedList values) heap
  | .arrayFill element size value heap => .arrayFill element.unnamed size.unnamed value.unnamed heap
  | .new value => .new value.unnamed

/-- Expressions without the aliases in their types. -/
def unnamedList : List Expr → List Expr
  | [] => []
  | e :: rest => e.unnamed :: unnamedList rest

/-- A location without the aliases in its types. -/
def Place.unnamed : Place → Place
  | .mk kind type constant span => .mk kind.unnamed type.unnamed constant span

/-- A form of a location without the aliases in its types. -/
def PlaceKind.unnamed : PlaceKind → PlaceKind
  | .slot id => .slot id
  | .global id => .global id
  | .deref pointer => .deref pointer.unnamed
  | .field base id index => .field base.unnamed id index
  | .element data index => .element data.unnamed index.unnamed

end

namespace Expr

variable {value value' converted : Expr} {t t' : Ty}

/-- A value that has the expected type stays as it is. -/
theorem coerce_of_same (h : value.type.same t = true) : value.coerce t = .ok value := by
  unfold coerce
  rw [if_pos h]

/-- Nothing is known of what is made of a value of which nothing was. -/
theorem constant_coerce (hconstant : value.constant = none) (h : value.coerce t = .ok converted) :
    converted.constant = none := by
  unfold coerce at h
  rw [hconstant] at h
  split at h
  · cases h
    exact hconstant
  · split at h
    · rename_i hknown
      cases hknown
    · cases h
      rfl
    · cases h
      rfl
    · cases h

/-- A conversion is decided on the types. -/
theorem coerce_eq_ok_iff (hconstant : value.constant = none) :
    (∃ converted, value.coerce t = .ok converted) ↔ value.type.Converts t := by
  unfold coerce Ty.Converts
  rw [hconstant]
  by_cases hsame : value.type.same t = true
  · rw [if_pos hsame]
    exact ⟨fun _ => .inl hsame, fun _ => ⟨value, rfl⟩⟩
  · rw [if_neg hsame, or_iff_right hsame, Shape.rule_iff]
    cases Cast.between? value.type.shape t.shape with
    | none => simp
    | some how => cases how <;> simp

/-- What is converted could be, also where its value is known: only a literal has to fit its type. -/
theorem converts_of_coerce (h : value.coerce t = .ok converted) : value.type.Converts t := by
  by_cases hsame : value.type.same t = true
  · exact .inl hsame
  · unfold coerce at h
    rw [if_neg hsame] at h
    refine .inr (Shape.rule_iff.mpr ?_)
    cases hbetween : Cast.between? value.type.shape t.shape with
    | none =>
      rw [hbetween] at h
      cases h
    | some how => rfl

/-- Aliases change neither whether a value is converted nor what becomes of it. -/
theorem coerce_unnamed (hvalue : value.unnamed = value'.unnamed) (ht : t.unnamed = t'.unnamed) :
    (value.coerce t).toOption.map unnamed = (value'.coerce t').toOption.map unnamed := by
  obtain ⟨kind, type, constant, span⟩ := value
  obtain ⟨kind', type', constant', span'⟩ := value'
  rw [unnamed, unnamed] at hvalue
  obtain ⟨hkind, htype, rfl, rfl⟩ := mk.inj hvalue
  have htypes := Ty.bare_eq_of_unnamed htype
  have hexpected := Ty.bare_eq_of_unnamed ht
  have hsames : type.same t = type'.same t' := Ty.same_congr htypes hexpected
  by_cases hsame : (mk kind type constant span).type.same t = true
  · have hsame' : (mk kind' type' constant span).type.same t' = true := hsames.symm.trans hsame
    rw [coerce_of_same hsame, coerce_of_same hsame']
    exact congrArg some hvalue
  · have hsame' : ¬ (mk kind' type' constant span).type.same t' = true :=
      fun hsame' => hsame (hsames.trans hsame')
    have hbetween : Cast.between? type.shape t.shape = Cast.between? type'.shape t'.shape :=
      Cast.between?_congr (by rw [← type.shape_bare, htypes, type'.shape_bare])
        (by rw [← t.shape_bare, hexpected, t'.shape_bare])
    unfold coerce
    rw [if_neg hsame, if_neg hsame']
    simp only [Expr.type, Expr.constant, Expr.span]
    rw [hbetween]
    have hcast (how : Cast) (known : Option Const) :
        (mk (.cast (mk kind type constant span) how) t known span).unnamed =
          (mk (.cast (mk kind' type' constant span) how) t' known span).unnamed := by
      simp only [unnamed, ExprKind.unnamed, hkind, htype, ht]
    cases Cast.between? type'.shape t'.shape with
    | none => rfl
    | some how =>
      cases how with
      | pointer => exact congrArg some (hcast .pointer constant)
      | int source target =>
        cases constant with
        | none => exact congrArg some (hcast (.int source target) none)
        | some known =>
          cases known with
          | int n =>
            simp only [literal]
            split
            · simp only [Except.toOption, Option.map_some, ofConst, unnamed, ht]
            · rfl
          | _ => exact congrArg some (hcast (.int source target) none)

/-- Conversion is a safe preorder. A value that has the expected type stays as it is; of values of which
nothing is known when compiling, whatever can be used where a second type is expected, and that one
where a third one is, can be used there too. The result has the expected type, and what is expected
has no more rights than the value had. Neither aliases in the type of a value or anywhere else in it,
nor those in the expected type, change whether it is converted and what it becomes but for aliases. -/
theorem coerce_safe_preorder :
    (∀ (value : Expr) (t : Ty), value.type.same t = true → value.coerce t = .ok value) ∧
      (∀ (value middle : Expr) (s t : Ty), value.constant = none → middle.constant = none →
        middle.type.same s = true → (∃ converted, value.coerce s = .ok converted) →
        (∃ converted, middle.coerce t = .ok converted) → ∃ converted, value.coerce t = .ok converted) ∧
      (∀ (value converted : Expr) (t : Ty), value.coerce t = .ok converted →
        converted.type.same t = true ∧ (value.constant = none → converted.constant = none) ∧
          value.type.shape.Restricts t.shape) ∧
      ∀ (value value' : Expr) (t t' : Ty), value.unnamed = value'.unnamed → t.unnamed = t'.unnamed →
        (value.coerce t).toOption.map unnamed = (value'.coerce t').toOption.map unnamed := by
  refine ⟨fun value t => coerce_of_same, fun value middle s t hvalue hmiddle hsame hfirst hsecond => ?_,
    fun value converted t h => ?_, fun value value' t t' => coerce_unnamed⟩
  · have hfirst : value.type.Converts s := (coerce_eq_ok_iff hvalue).mp hfirst
    have hback : s.Converts middle.type := .inl (Ty.same_symm hsame)
    have hsecond : middle.type.Converts t := (coerce_eq_ok_iff hmiddle).mp hsecond
    exact (coerce_eq_ok_iff hvalue).mpr ((hfirst.trans hback).trans hsecond)
  · exact ⟨Check.type_coerce h, fun hnone => constant_coerce hnone h, (converts_of_coerce h).restricts⟩

/-- `i32[size]` or `i32[]` -/
def numbers (constant : Bool) (size : Option ℕ) : Ty := (Shape.array Shape.i32.plain constant size).plain

/-- A value of type `&i32[3]` -/
def ownedNumbers : Expr := .computed (.bool true) (Shape.ownerOf (numbers false (some 3))).plain .null

/-- `&i32[3]` may be used as `*i32[]`, and that as a constant pointer to a constant array. -/
theorem coerce_safe_preorder_numbers :
    ∃ converted, ownedNumbers.coerce (Shape.shared (numbers true none) true).plain = .ok converted ∧
      converted.constant = none := by
  let shared : Ty := (Shape.shared (numbers false none) false).plain
  obtain ⟨-, htrans, hresult, -⟩ := coerce_safe_preorder
  have hfirst : ∃ converted, ownedNumbers.coerce shared = .ok converted := ⟨_, rfl⟩
  have hsecond : ∃ converted, (computed (.bool true) shared .null).coerce
      (Shape.shared (numbers true none) true).plain = .ok converted := ⟨_, rfl⟩
  obtain ⟨converted, h⟩ := htrans ownedNumbers (computed (.bool true) shared .null) shared _
    rfl rfl (Ty.same_refl shared) hfirst hsecond
  exact ⟨converted, h, (hresult _ _ _ h).2.1 rfl⟩

end Expr

end OwnLang.Core
