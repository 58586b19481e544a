import Mathlib
import OwnLang.Core.Coerce
import OwnLang.Proofs.Core.Permission
import OwnLang.Proofs.Ty.Same

/-!
# The order of conversions

Which conversions there are is decided on the types alone, and as little by their aliases as the
equality of types is (`Core.Cast.between?_congr`). The rules are those for integers, for views of
arrays and for pointers (`Shape.Rule`), where a pointer may be used as one to an array of unknown
size with the same elements (`Shape.pointsAlike_iff`). Rules compose, since an array view has nothing
more to lose and every condition on pointers is an implication (`Ty.Converts.trans`); and no rule
gives a value more rights than it had (`Shape.Restricts`).
-/

namespace OwnLang

/-! ## Types without the names of aliases -/

mutual

/-- A type that no alias names, nor any type that it is made of. -/
def Ty.unnamed : Ty → Ty
  | .mk shape _ => .mk shape.unnamed none

/-- A shape without the aliases of the types that it is made of. -/
def Shape.unnamed : Shape → Shape
  | .int width => .int width
  | .bool => .bool
  | .void => .void
  | .func params variadic returns => .func (Ty.unnamedList params) variadic returns.unnamed
  | .owner target constant => .owner target.unnamed constant
  | .shared target constant => .shared target.unnamed constant
  | .array element constant size => .array element.unnamed constant size
  | .struct id name => .struct id name

/-- The types of a list, without aliases. -/
def Ty.unnamedList : List Ty → List Ty
  | [] => []
  | t :: ts => t.unnamed :: Ty.unnamedList ts

end

mutual

theorem Ty.bare_unnamed (t : Ty) : t.unnamed.bare = t.bare := by
  match t with
  | .mk shape _ => rw [Ty.unnamed, Ty.bare, Ty.bare, Shape.bare_unnamed shape]

theorem Shape.bare_unnamed (shape : Shape) : shape.unnamed.bare = shape.bare := by
  match shape with
  | .int _ | .bool | .void | .struct .. => rfl
  | .func params variadic returns =>
    rw [Shape.unnamed, Shape.bare, Shape.bare, Ty.bareList_unnamedList params,
      Ty.bare_unnamed returns]
  | .owner target _ | .shared target _ | .array target _ _ =>
    rw [Shape.unnamed, Shape.bare, Shape.bare, Ty.bare_unnamed target]

theorem Ty.bareList_unnamedList (ts : List Ty) : Ty.bareList (Ty.unnamedList ts) = Ty.bareList ts := by
  match ts with
  | [] => rfl
  | t :: ts =>
    rw [Ty.unnamedList, Ty.bareList, Ty.bareList, Ty.bare_unnamed t, Ty.bareList_unnamedList ts]

end

/-- Types that differ in aliases only are the same. -/
theorem Ty.bare_eq_of_unnamed {t u : Ty} (h : t.unnamed = u.unnamed) : t.bare = u.bare := by
  rw [← t.bare_unnamed, h, u.bare_unnamed]

theorem Ty.shape_bare (t : Ty) : t.bare.shape = t.shape.bare := by
  cases t
  rw [Ty.bare, Ty.shape, Ty.shape]

theorem Ty.same_congr {t t' u u' : Ty} (ht : t.bare = t'.bare) (hu : u.bare = u'.bare) :
    t.same u = t'.same u' := by
  rw [Bool.eq_iff_iff, Ty.same_iff, Ty.same_iff, ht, hu]

mutual

theorem Ty.bare_bare (t : Ty) : t.bare.bare = t.bare := by
  match t with
  | .mk shape _ => rw [Ty.bare, Ty.bare, Shape.bare_bare shape]

theorem Shape.bare_bare (shape : Shape) : shape.bare.bare = shape.bare := by
  match shape with
  | .int _ | .bool | .void | .struct .. => rfl
  | .func params variadic returns =>
    rw [Shape.bare, Shape.bare, Ty.bareList_bareList params, Ty.bare_bare returns]
  | .owner target _ | .shared target _ | .array target _ _ =>
    rw [Shape.bare, Shape.bare, Ty.bare_bare target]

theorem Ty.bareList_bareList (ts : List Ty) : Ty.bareList (Ty.bareList ts) = Ty.bareList ts := by
  match ts with
  | [] => rfl
  | t :: ts => rw [Ty.bareList, Ty.bareList, Ty.bare_bare t, Ty.bareList_bareList ts]

end

theorem Ty.same_symm {t u : Ty} (h : t.same u = true) : u.same t = true :=
  (Ty.same_iff u t).mpr ((Ty.same_iff t u).mp h).symm

theorem Ty.same_trans {t u v : Ty} (h : t.same u = true) (h' : u.same v = true) : t.same v = true :=
  (Ty.same_iff t v).mpr (((Ty.same_iff t u).mp h).trans ((Ty.same_iff u v).mp h'))

namespace Shape

variable {a b c : Shape}

/-! ## Rules look at types only as their equality does -/

theorem viewsArray_iff : a.viewsArray b = true ↔
    ∃ element seen, a = .array element false none ∧ b = .array seen true none ∧ element.same seen := by
  unfold viewsArray
  split
  · simp
  · rename_i hnone
    simp only [Bool.false_eq_true, false_iff]
    rintro ⟨element, seen, rfl, rfl, -⟩
    exact hnone element seen rfl rfl

theorem forgetsSize_iff : a.forgetsSize b = true ↔
    ∃ element constant n seen seenConstant, a = .array element constant (some n) ∧
      b = .array seen seenConstant none ∧ element.same seen ∧ (constant = true → seenConstant = true) := by
  unfold forgetsSize
  split
  · rename_i element constant n seen seenConstant
    cases constant <;> cases seenConstant <;> simp
  · rename_i hnone
    simp only [Bool.false_eq_true, false_iff]
    rintro ⟨element, constant, n, seen, seenConstant, rfl, rfl, -⟩
    exact hnone element constant n seen seenConstant rfl rfl

/-- What a shape without names comes from. -/
theorem bare_eq_array {element : Ty} {constant : Bool} {size : Option ℕ}
    (h : a.bare = .array element constant size) :
    ∃ element', a = .array element' constant size ∧ element'.bare = element := by
  cases a with
  | array element' constant' size' =>
    obtain ⟨rfl, rfl, rfl⟩ := array.inj h
    exact ⟨element', rfl, rfl⟩
  | _ => cases h

theorem viewsArray_bare (a b : Shape) : a.bare.viewsArray b.bare = a.viewsArray b := by
  rw [Bool.eq_iff_iff, viewsArray_iff, viewsArray_iff]
  constructor
  · rintro ⟨element, seen, ha, hb, hsame⟩
    obtain ⟨element, rfl, rfl⟩ := bare_eq_array ha
    obtain ⟨seen, rfl, rfl⟩ := bare_eq_array hb
    exact ⟨element, seen, rfl, rfl, (Ty.same_congr element.bare_bare seen.bare_bare) ▸ hsame⟩
  · rintro ⟨element, seen, rfl, rfl, hsame⟩
    exact ⟨_, _, rfl, rfl, (Ty.same_congr element.bare_bare seen.bare_bare).trans hsame⟩

theorem forgetsSize_bare (a b : Shape) : a.bare.forgetsSize b.bare = a.forgetsSize b := by
  rw [Bool.eq_iff_iff, forgetsSize_iff, forgetsSize_iff]
  constructor
  · rintro ⟨element, constant, n, seen, seenConstant, ha, hb, hsame, hconstant⟩
    obtain ⟨element, rfl, rfl⟩ := bare_eq_array ha
    obtain ⟨seen, rfl, rfl⟩ := bare_eq_array hb
    exact ⟨element, constant, n, seen, seenConstant, rfl, rfl,
      (Ty.same_congr element.bare_bare seen.bare_bare) ▸ hsame, hconstant⟩
  · rintro ⟨element, constant, n, seen, seenConstant, rfl, rfl, hsame, hconstant⟩
    exact ⟨_, _, _, _, _, rfl, rfl, (Ty.same_congr element.bare_bare seen.bare_bare).trans hsame,
      hconstant⟩

theorem pointsAlike_bare (s t : Ty) : pointsAlike s.bare t.bare = pointsAlike s t := by
  unfold pointsAlike
  rw [Ty.same_congr s.bare_bare t.bare_bare, s.shape_bare, t.shape_bare, viewsArray_bare, forgetsSize_bare]

theorem convertsPointer_bare (a b : Shape) : a.bare.convertsPointer b.bare = a.convertsPointer b := by
  cases a <;> cases b <;> try rfl
  all_goals simp only [bare, convertsPointer, pointsAlike_bare]

end Shape

namespace Core.Cast

theorem between?_bare (a b : Shape) : between? a.bare b.bare = between? a b := by
  have hcond := congrArg₂ or (Shape.convertsPointer_bare a b) (Shape.viewsArray_bare a b)
  have hcast := congrArg (fun fits : Bool => if fits then some pointer else none) hcond
  cases a <;> cases b <;> first | rfl | exact hcast

/-- Which conversion there is does not depend on aliases. -/
theorem between?_congr {a a' b b' : Shape} (ha : a.bare = a'.bare) (hb : b.bare = b'.bare) :
    between? a b = between? a' b' := by
  rw [← between?_bare a, ha, hb, between?_bare]

end Core.Cast

/-- What is the same as an array is an array of the same elements. -/
theorem Ty.shape_eq_array_of_same {s t : Ty} (h : s.same t = true) {element : Ty} {constant : Bool}
    {size : Option ℕ} (ht : t.shape = .array element constant size) :
    ∃ element', s.shape = .array element' constant size ∧ element'.same element = true := by
  have hbare : s.shape.bare = t.shape.bare := by
    rw [← s.shape_bare, ← t.shape_bare, (Ty.same_iff s t).mp h]
  rw [ht, Shape.bare] at hbare
  obtain ⟨element', hs, hsame⟩ := Shape.bare_eq_array hbare
  exact ⟨element', hs, (Ty.same_iff _ _).mpr hsame⟩

/-! ## Rules -/

namespace Shape

variable {a b c : Shape}

/-- `&T` -/
def isOwner : Shape → Bool
  | owner .. => true
  | _ => false

/-- What a pointer may be used as a pointer to, beside a type that is the same: the unsized array with
the elements of an array, constant if the array is. -/
theorem pointsAlike_iff {s t : Ty} : pointsAlike s t = true ↔ s.same t = true ∨
    ∃ element constant size seen seenConstant, s.shape = .array element constant size ∧
      t.shape = .array seen seenConstant none ∧ element.same seen = true ∧
      (constant = true → seenConstant = true) := by
  unfold pointsAlike
  rw [Bool.or_eq_true, Bool.or_eq_true, viewsArray_iff, forgetsSize_iff]
  constructor
  · rintro ((hsame | ⟨element, seen, hs, ht, hsame⟩) |
      ⟨element, constant, n, seen, seenConstant, hs, ht, hsame, hconstant⟩)
    · exact .inl hsame
    · exact .inr ⟨element, false, none, seen, true, hs, ht, hsame, fun _ => rfl⟩
    · exact .inr ⟨element, constant, some n, seen, seenConstant, hs, ht, hsame, hconstant⟩
  · rintro (hsame | ⟨element, constant, size, seen, seenConstant, hs, ht, hsame, hconstant⟩)
    · exact .inl (.inl hsame)
    · cases size with
      | some n => exact .inr ⟨element, constant, n, seen, seenConstant, hs, ht, hsame, hconstant⟩
      | none =>
        refine .inl ?_
        by_cases halike : constant = seenConstant
        · subst halike
          refine .inl ?_
          rw [Ty.same_shape, hs, ht]
          simp [same, hsame]
        · refine .inr ⟨element, seen, ?_, ?_, hsame⟩
          · cases constant <;> cases seenConstant <;> simp_all
          · cases constant <;> cases seenConstant <;> simp_all

theorem pointsAlike_trans {s t u : Ty} (h : pointsAlike s t = true) (h' : pointsAlike t u = true) :
    pointsAlike s u = true := by
  rw [pointsAlike_iff] at h h' ⊢
  rcases h with hst | ⟨element, constant, size, seen, seenConstant, hs, ht, hsame, hconstant⟩
  · rcases h' with htu | ⟨element, constant, size, seen, seenConstant, ht, hu, hsame, hconstant⟩
    · exact .inl (Ty.same_trans hst htu)
    · obtain ⟨first, hs, hfirst⟩ := Ty.shape_eq_array_of_same hst ht
      exact .inr ⟨first, constant, size, seen, seenConstant, hs, hu, Ty.same_trans hfirst hsame,
        hconstant⟩
  · rcases h' with htu | ⟨element', constant', size', last, lastConstant, ht', hu, hsame', hconstant'⟩
    · obtain ⟨last, hu, hlast⟩ := Ty.shape_eq_array_of_same (Ty.same_symm htu) ht
      exact .inr ⟨element, constant, size, last, seenConstant, hs, hu,
        Ty.same_trans hsame (Ty.same_symm hlast), hconstant⟩
    · obtain ⟨rfl, rfl, rfl⟩ := array.inj (ht.symm.trans ht')
      exact .inr ⟨element, constant, size, last, lastConstant, hs, hu, Ty.same_trans hsame hsame',
        hconstant' ∘ hconstant⟩

theorem convertsPointer_iff : a.convertsPointer b = true ↔ ∃ s constant t seenConstant,
    a.pointee? = some (s, constant) ∧ b.pointee? = some (t, seenConstant) ∧
      (b.isOwner = true → a.isOwner = true) ∧ (constant = true → seenConstant = true) ∧
      pointsAlike s t = true := by
  cases a with
  | owner s constant | shared s constant =>
    cases b with
    | owner t seenConstant | shared t seenConstant =>
      cases constant <;> cases seenConstant <;> simp [convertsPointer, pointee?, isOwner]
    | _ => simp [convertsPointer, pointee?]
  | _ => simp [convertsPointer, pointee?]

/-- The conversions between different shapes. -/
inductive Rule : Shape → Shape → Prop
  | int (source target : Width) : Rule (.int source) (.int target)
  | view {element seen : Ty} (h : element.same seen = true) :
    Rule (.array element false none) (.array seen true none)
  | pointer {a b : Shape} {s t : Ty} {constant seenConstant : Bool}
    (ha : a.pointee? = some (s, constant)) (hb : b.pointee? = some (t, seenConstant))
    (howner : b.isOwner = true → a.isOwner = true) (hconstant : constant = true → seenConstant = true)
    (halike : pointsAlike s t = true) : Rule a b

theorem between?_eq (h : a.width? = none ∨ b.width? = none) : Core.Cast.between? a b =
    if a.convertsPointer b || a.viewsArray b then some .pointer else none := by
  unfold Core.Cast.between?
  split
  · rcases h with h | h <;> cases h
  · rfl

theorem width?_of_pointee {s : Ty} {constant : Bool} (h : a.pointee? = some (s, constant)) :
    a.width? = none := by
  cases a <;> first | rfl | cases h

/-- There is a conversion exactly where a rule allows one. -/
theorem rule_iff : Rule a b ↔ (Core.Cast.between? a b).isSome = true := by
  constructor
  · intro h
    cases h with
    | int source target => rfl
    | view h =>
      rw [between?_eq (.inl rfl), viewsArray_iff.mpr ⟨_, _, rfl, rfl, h⟩, Bool.or_true]
      rfl
    | pointer ha hb howner hconstant halike =>
      rw [between?_eq (.inl (width?_of_pointee ha)),
        convertsPointer_iff.mpr ⟨_, _, _, _, ha, hb, howner, hconstant, halike⟩, Bool.true_or]
      rfl
  · intro h
    by_cases hint : a.width? = none ∨ b.width? = none
    · rw [between?_eq hint] at h
      split at h
      · rename_i hfits
        rcases Bool.or_eq_true _ _ ▸ hfits with hpointer | hview
        · obtain ⟨s, constant, t, seenConstant, ha, hb, howner, hconstant, halike⟩ :=
            convertsPointer_iff.mp hpointer
          exact .pointer ha hb howner hconstant halike
        · obtain ⟨element, seen, rfl, rfl, hsame⟩ := viewsArray_iff.mp hview
          exact .view hsame
      · cases h
    · cases a <;> cases b <;> simp [width?] at hint
      exact .int _ _

theorem Rule.trans (h : Rule a b) (h' : Rule b c) : Rule a c := by
  cases h with
  | int source target =>
    cases h' with
    | int _ target => exact .int source target
    | pointer hb => cases hb
  | view h =>
    cases h' with
    | pointer hb => cases hb
  | @pointer _ _ s t constant seenConstant ha hb howner hconstant halike =>
    cases h' with
    | int | view => cases hb
    | @pointer _ _ t' u _ lastConstant hb' hc howner' hconstant' halike' =>
      obtain ⟨rfl, rfl⟩ := Prod.mk.inj (Option.some.inj (hb.symm.trans hb'))
      exact .pointer ha hc (howner ∘ howner') (hconstant' ∘ hconstant)
        (pointsAlike_trans halike halike')

theorem Rule.congr {a' b' : Shape} (h : Rule a b) (ha : a.bare = a'.bare) (hb : b.bare = b'.bare) :
    Rule a' b' := by
  rw [rule_iff] at h ⊢
  rwa [← Core.Cast.between?_congr ha hb]

/-! ## What a conversion gives up -/

/-- Whether types have the same elements: those of arrays, and else the types themselves. -/
def sameElements : Shape → Shape → Bool
  | array element _ _, array seen _ _ => element.same seen
  | a, b => a.same b

/-- What is seen as another shape has no more rights than it had: nothing becomes an owner, what is
constant stays so, and the size of an array may be forgotten but not made up. The same goes for an
array that is pointed at, and that keeps its elements. -/
structure Restricts (source target : Shape) : Prop extends source.KeepsConstant target where
  owner : target.isOwner = true → source.isOwner = true
  unsized : source.isUnsizedArray = true → target.isUnsizedArray = true
  pointed : ∀ s constant, source.pointee? = some (s, constant) → ∃ t seenConstant,
    target.pointee? = some (t, seenConstant) ∧ s.shape.sameElements t.shape = true ∧
      (s.shape.isUnsizedArray = true → t.shape.isUnsizedArray = true)

theorem sameElements_of_same (h : a.same b = true) : a.sameElements b = true := by
  cases a <;> cases b <;> simp_all [sameElements, same]

theorem isUnsizedArray_same (h : a.same b = true) : a.isUnsizedArray = b.isUnsizedArray := by
  cases a <;> cases b <;> simp only [same, Bool.false_eq_true, Bool.and_eq_true, beq_iff_eq] at h <;>
    try rfl
  obtain ⟨-, rfl⟩ := h
  cases ‹Option ℕ› <;> rfl

theorem isOwner_same (h : a.same b = true) : a.isOwner = b.isOwner := by
  cases a <;> cases b <;> simp_all [isOwner, same]

theorem pointee?_same (h : a.same b = true) {s : Ty} {constant : Bool}
    (ha : a.pointee? = some (s, constant)) :
    ∃ t, b.pointee? = some (t, constant) ∧ s.same t = true := by
  cases a <;> cases b <;> simp_all [pointee?, same]

/-- A pointer that may be used as another one points at the same elements, and not at more of them. -/
theorem pointed_of_pointsAlike {s t : Ty} (h : pointsAlike s t = true) :
    s.shape.sameElements t.shape = true ∧
      (s.shape.isUnsizedArray = true → t.shape.isUnsizedArray = true) := by
  rcases pointsAlike_iff.mp h with hsame | ⟨element, constant, size, seen, seenConstant, hs, ht, hsame, -⟩
  · rw [Ty.same_shape] at hsame
    exact ⟨sameElements_of_same hsame, fun hs => isUnsizedArray_same hsame ▸ hs⟩
  · rw [hs, ht]
    exact ⟨hsame, fun _ => rfl⟩

theorem Rule.restricts (h : Rule a b) : Restricts a b := by
  cases h with
  | int source target =>
    exact ⟨keepsConstant_int, fun h => h, fun h => h, fun s constant h => by cases h⟩
  | view h =>
    have hview := viewsArray_iff.mpr ⟨_, _, rfl, rfl, h⟩
    exact ⟨keepsConstant_viewsArray hview, fun h => h, fun _ => rfl, fun s constant h => by cases h⟩
  | @pointer _ _ s t constant seenConstant ha hb howner hconstant halike =>
    have hpointer := convertsPointer_iff.mpr ⟨s, constant, t, seenConstant, ha, hb, howner, hconstant, halike⟩
    refine ⟨keepsConstant_convertsPointer hpointer, howner, fun hunsized => ?_, fun s' constant' ha' => ?_⟩
    · cases a <;> first | cases hunsized | cases ha
    · obtain ⟨rfl, rfl⟩ := Prod.mk.inj (Option.some.inj (ha.symm.trans ha'))
      exact ⟨t, seenConstant, hb, pointed_of_pointsAlike halike⟩

theorem restricts_of_same (h : a.same b = true) : Restricts a b := by
  have hunsized : a.isUnsizedArray = true → b.isUnsizedArray = true := (isUnsizedArray_same h).symm.trans
  have howner : b.isOwner = true → a.isOwner = true := (isOwner_same h).trans
  cases hpointee : a.pointee? with
  | none =>
    have hno : a.isPointeeConstant = false := by
      unfold isPointeeConstant
      rw [hpointee]
      rfl
    refine ⟨⟨(isConstant_same h).symm.trans, fun hp => ?_⟩, howner, hunsized, fun s constant hs => ?_⟩
    · rw [hno] at hp
      cases hp
    · rw [hpointee] at hs
      cases hs
  | some pointee =>
    obtain ⟨t, hb, hsame⟩ := pointee?_same h hpointee
    exact (Rule.pointer hpointee hb howner id (pointsAlike_iff.mpr (.inl hsame))).restricts

end Shape

/-! ## The order -/

/-- Whether values of one type can be used as values of another one: the types are the same, or there is
a rule. -/
def Ty.Converts (source target : Ty) : Prop :=
  source.same target = true ∨ source.shape.Rule target.shape

theorem Ty.Converts.trans {t u v : Ty} (h : t.Converts u) (h' : u.Converts v) : t.Converts v := by
  have hbare {s s' : Ty} (hs : s.same s' = true) : s.shape.bare = s'.shape.bare := by
    rw [← s.shape_bare, ← s'.shape_bare, (Ty.same_iff s s').mp hs]
  rcases h with htu | htu
  · rcases h' with huv | huv
    · exact .inl (Ty.same_trans htu huv)
    · exact .inr (huv.congr (hbare htu).symm rfl)
  · rcases h' with huv | huv
    · exact .inr (htu.congr rfl (hbare huv))
    · exact .inr (htu.trans huv)

theorem Ty.Converts.restricts {t u : Ty} (h : t.Converts u) : t.shape.Restricts u.shape := by
  rcases h with hsame | hrule
  · rw [Ty.same_shape] at hsame
    exact Shape.restricts_of_same hsame
  · exact hrule.restricts

end OwnLang
