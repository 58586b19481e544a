import Mathlib
import OwnLang.Proofs.Check.Fewer
import OwnLang.Proofs.Check.Folding

/-!
# Comparisons of integers

The right operand of a comparison is converted to the type of the left one. Where its own type is wider
it loses its upper bits, so that `a < b` and `b > a` may differ; else the comparison is that of the
integers (`Session.comparison_value`).
-/

namespace OwnLang

open OwnLang.Core (Store Value)
open Surface (BinaryOp)

/-! ## Words and integers -/

theorem fits_toInt {width : Width} (x : BitVec width.bits) :
    Const.Fits (.int x.toInt) (.int width) := ⟨BitVec.le_toInt x, BitVec.toInt_lt⟩

/-- Comparing words compares the integers that they stand for. -/
theorem Core.evalBinary_comparison {op : BinaryOp} (hop : op.isComparison = true) {width : Width}
    (x y : BitVec width.bits) :
    ∃ r, Const.foldInts op x.toInt y.toInt = some (.bool r) ∧
      Core.evalBinary op (.int width x) (.int width y) = some (.bool r) := by
  obtain ⟨r, hr⟩ : ∃ r, Const.foldInts op x.toInt y.toInt = some (.bool r) := by
    cases op <;> first | exact ⟨_, rfl⟩ | cases hop
  have heval := evalWords_ofInt (fits_toInt x) (fits_toInt y) hr
  rw [BitVec.ofInt_toInt, BitVec.ofInt_toInt, if_pos hop] at heval
  refine ⟨r, hr, ?_⟩
  rw [Core.evalBinary, dif_pos rfl]
  exact heval

/-- A conversion between widths is one of the integers that the words stand for. -/
theorem Core.evalCast_int (source target : Width) (y : BitVec source.bits) :
    Core.evalCast (.int source target) (.int source y) =
      some (.int target (BitVec.ofInt target.bits y.toInt)) := by
  rw [Core.evalCast, if_pos rfl]
  split
  · rfl
  · rename_i hnarrow
    rw [BitVec.truncate_eq_setWidth,
      ← BitVec.signExtend_eq_setWidth_of_le y (Nat.le_of_not_lt hnarrow)]
    rfl

/-- A width that is not smaller holds all integers of a width. -/
theorem bmod_toInt_of_le {v w : Width} (h : w.bits ≤ v.bits) (y : BitVec w.bits) :
    y.toInt.bmod (2 ^ v.bits) = y.toInt := by
  rw [← BitVec.toInt_signExtend_of_le h]
  exact BitVec.toInt_bmod_cancel _

namespace Check

variable {c d : Context} {scope : Scope}

/-- A conversion of an integer keeps it, as far as the new type has room. -/
theorem eval_coerce {e e' : Core.Expr} {t : Ty} {v w : Width} {σ : Store} {y : BitVec w.bits}
    (h : e.coerce t = .ok e') (he : Folds c e) (hσ : σ.Holds c) (hw : e.type.shape = .int w)
    (hv : t.shape = .int v) (hy : e.eval σ = some (.int w y)) :
    e'.eval σ = some (.int v (BitVec.ofInt v.bits y.toInt)) := by
  unfold Core.Expr.coerce at h
  split at h
  · rename_i hsame
    cases h
    rw [Ty.same_shape, hw, hv] at hsame
    cases Shape.same_int hsame
    rw [hy, BitVec.ofInt_toInt]
  · rw [hw, hv] at h
    simp only [Core.Cast.between?] at h
    split at h
    · rename_i target n hcast hn
      cases hcast
      -- The value of a known constant is the constant, which fits the new type.
      have hvalue := (he _ hn).value σ hσ
      rw [hy, hw] at hvalue
      have hbits : y = BitVec.ofInt w.bits n := by simpa [Const.value?, Shape.width?] using hvalue
      have hfits := (he _ hn).fits
      rw [hw] at hfits
      unfold Core.Expr.literal at h
      split at h
      · cases h
        rw [hbits, toInt_ofInt_of_fits hfits, Core.Expr.ofConst, Core.Expr.eval, Core.ExprKind.eval, hv]
        rfl
      · cases h
    · rename_i source target hcast _
      cases hcast
      cases h
      rw [Core.Expr.computed, Core.Expr.eval_mk, Core.ExprKind.eval_cast _ _ hy]
      exact Core.evalCast_int w v y
    · rename_i hcast
      cases hcast
    · cases h

/-- The value of an expression is one that is not converted, converted where a type is expected. -/
theorem checkValue_eq_ok {ask : Asker} {e : Surface.Expr} {expected : Option Ty} {out : Core.Expr}
    (h : checkValue ask e expected scope c = .ok out d) :
    ∃ raw, rawValue ask e expected scope c = .ok raw d ∧
      (expected = none ∧ out = raw ∨ ∃ t, expected = some t ∧ raw.coerce t = .ok out) := by
  obtain ⟨raw, c₁, hraw, hrest⟩ := Run.bind_eq_ok.mp h
  dsimp only at hrest
  split at hrest
  · cases hrest
  · cases expected with
    | none =>
      cases hrest
      exact ⟨_, hraw, .inl ⟨rfl, rfl⟩⟩
    | some t =>
      obtain ⟨hcoerce, hsame⟩ := Run.ofExcept_eq_ok.mp hrest
      exact ⟨raw, hsame ▸ hraw, .inr ⟨t, rfl, hcoerce⟩⟩

theorem answer_value {n : Nat} (hn : n ≤ nestingBound) {e : Surface.Expr} {expected : Option Ty}
    {out : Core.Expr} (h : answerTo n (.value e expected scope) c = .ok out d) :
    ∃ raw, rawValue answer e expected scope c = .ok raw d ∧
      (expected = none ∧ out = raw ∨ ∃ t, expected = some t ∧ raw.coerce t = .ok out) := by
  cases n with
  | zero => cases h
  | succ n =>
    obtain ⟨raw, hraw, hout⟩ := checkValue_eq_ok h
    have hfollows := followingBody_plain fun q => answerTo_plain (Nat.le_of_succ_le hn) q
    exact ⟨raw, Run.follows_plain.mp (follows_rawValue hfollows.toFollowing _ _ _) hraw, hout⟩

/-- The right operand is the value of its expression, converted to the type of the left one. -/
theorem operandValues_eq_ok {n : Nat} (hn : n ≤ nestingBound) {left right : Surface.Expr}
    {hint : Option Ty} {a b : Core.Expr} (hc : Known c c)
    (h : operandValues (answerTo n) left right hint scope c = .ok (a, b) d) :
    (∃ expected c₁ d₁, answer (.value left expected scope) c₁ = .ok a d₁) ∧
      ∃ raw expected c₁ d₁, rawValue answer right expected scope c₁ = .ok raw d₁ ∧
        raw.coerce a.type = .ok b ∧ Folds d raw := by
  have ha := faithful_answerTo n
  unfold operandValues at h
  split at h
  · obtain ⟨b', c₁, hright, hrest⟩ := Run.bind_eq_ok.mp h
    obtain ⟨a', c₂, hleft, hrest⟩ := Run.bind_eq_ok.mp hrest
    obtain ⟨b'', c₃, hcoerce, hreturn⟩ := Run.bind_eq_ok.mp hrest
    obtain ⟨hconverted, rfl⟩ := Run.ofExcept_eq_ok.mp hcoerce
    cases hreturn
    obtain ⟨raw, hraw, ⟨-, rfl⟩ | ⟨t, ht, -⟩⟩ := answer_value hn hright
    · have hc₁ := (ha.known hc (Run.ends_of_ok hright)).self
      exact ⟨⟨_, _, _, Run.follows_plain.mp (answerTo_plain hn _) hleft⟩, _, _, _, _, hraw, hconverted,
        ha.folds rfl hc₁ (Run.ends_of_ok hleft) (folds_rawValue faithful_answer hc hraw)⟩
    · cases ht
  · obtain ⟨a', c₁, hleft, hrest⟩ := Run.bind_eq_ok.mp h
    obtain ⟨b', c₂, hright, hreturn⟩ := Run.bind_eq_ok.mp hrest
    cases hreturn
    obtain ⟨raw, hraw, ⟨ht, -⟩ | ⟨t, ht, hconverted⟩⟩ := answer_value hn hright
    · cases ht
    · cases ht
      have hc₁ := (ha.known hc (Run.ends_of_ok hleft)).self
      exact ⟨⟨_, _, _, Run.follows_plain.mp (answerTo_plain hn _) hleft⟩, _, _, _, _, hraw, hconverted,
        folds_rawValue faithful_answer hc₁ hraw⟩

/-- A comparison is one of its operands. -/
theorem binaryValue_eq_ok {ask : Asker} {op : BinaryOp} {left right : Surface.Expr}
    {expected : Option Ty} {span : Span} {out : Core.Expr} (hop : op.isComparison = true)
    (h : binaryValue ask op left right expected span scope c = .ok out d) :
    ∃ a b, operandValues ask left right none scope c = .ok (a, b) d ∧ out.kind = .binary op a b := by
  unfold binaryValue at h
  rw [if_pos hop] at h
  obtain ⟨⟨a, b⟩, c₁, hoperands, hrest⟩ := Run.bind_eq_ok.mp h
  dsimp only at hrest
  split at hrest
  · cases hrest
  · obtain ⟨_, c₂, hfit, hreturn⟩ := Run.bind_eq_ok.mp hrest
    cases hreturn
    obtain rfl : d = c₁ := preserves_requireFit (P := (· = c₁)) _ _ _ (Run.ends_of_ok hfit) rfl
    exact ⟨a, b, hoperands, rfl⟩

end Check

namespace Session

open Check (answer)

variable {c d : Context} {scope : Scope}

/-- The value of an accepted comparison of integers is that of its left operand with what the type of
the left operand can hold of the right one. Where the type of the right operand is not the wider one,
these are the integers themselves. -/
theorem comparison_value (hc : Point c) {op : BinaryOp} (hop : op.isComparison = true)
    {left right : Surface.Expr} {span : Span} {typed : Core.Expr}
    (h : answer (.value (.mk (.binary op left right) span) none scope) c = .ok typed d) :
    ∃ a b, (∃ expected c₁ d₁, answer (.value left expected scope) c₁ = .ok a d₁) ∧
      (∃ expected c₁ d₁, Check.rawValue answer right expected scope c₁ = .ok b d₁) ∧
      ∀ σ : Store, σ.Holds d → ∀ v w x y, a.type.shape = .int v → b.type.shape = .int w →
        a.eval σ = some (.int v x) → b.eval σ = some (.int w y) →
        ∃ r, Const.foldInts op x.toInt (y.toInt.bmod (2 ^ v.bits)) = some (.bool r) ∧
          typed.eval σ = some (.bool r) ∧
          (w.bits ≤ v.bits → Const.foldInts op x.toInt y.toInt = some (.bool r)) := by
  obtain ⟨raw, hraw, ⟨-, rfl⟩ | ⟨t, ht, -⟩⟩ := Check.answer_value le_rfl h
  case inr => cases ht
  have hlogical : op.isLogical = false := by cases op <;> first | rfl | cases hop
  simp only [Check.rawValue, Surface.Expr.kind, hlogical, Bool.false_eq_true, if_false] at hraw
  obtain ⟨a, b, hoperands, hkind⟩ := Check.binaryValue_eq_ok hop hraw
  obtain ⟨hleft, raw, expected, c₁, d₁, hright, hcoerce, hfolds⟩ :=
    Check.operandValues_eq_ok le_rfl hc.known hoperands
  refine ⟨a, raw, hleft, ⟨expected, c₁, d₁, hright⟩, fun σ hσ v w x y hv hw hx hy => ?_⟩
  have hb := Check.eval_coerce hcoerce hfolds hσ hw hv hy
  obtain ⟨r, hr, heval⟩ := Core.evalBinary_comparison hop x (BitVec.ofInt v.bits y.toInt)
  rw [BitVec.toInt_ofInt] at hr
  refine ⟨r, hr, ?_, fun hle => ?_⟩
  · cases typed
    rw [Core.Expr.eval]
    obtain rfl := hkind
    rw [Core.ExprKind.eval, hlogical, if_neg Bool.false_ne_true, hx, hb]
    exact heval
  · rwa [bmod_toInt_of_le hle] at hr

end Session

end OwnLang
