import Mathlib
import OwnLang.Ty.Basic

/-!
# Types without their aliases

`Ty.bare` takes the names that are only shown out of a type, at any depth. Two types are the same
exactly if nothing else tells them apart, so `Ty.same` is an equivalence.
-/

namespace OwnLang

mutual

/-- A type without the names of aliases and structs. -/
def Ty.bare : Ty → Ty
  | .mk shape _ => .mk shape.bare none

/-- A shape without the names of aliases and structs. -/
def Shape.bare : Shape → Shape
  | .int width => .int width
  | .bool => .bool
  | .void => .void
  | .func params variadic returns => .func (Ty.bareList params) variadic returns.bare
  | .owner target constant => .owner target.bare constant
  | .shared target constant => .shared target.bare constant
  | .array element constant size => .array element.bare constant size
  | .struct id _ => .struct id ""

/-- The types of a list without the names of aliases and structs. -/
def Ty.bareList : List Ty → List Ty
  | [] => []
  | t :: ts => t.bare :: Ty.bareList ts

end

mutual

theorem Ty.same_iff (t u : Ty) : t.same u ↔ t.bare = u.bare := by
  match t, u with
  | .mk a _, .mk b _ =>
    rw [Ty.same, Ty.bare, Ty.bare, Shape.same_iff a b]
    simp only [Ty.mk.injEq, and_true]

theorem Shape.same_iff (a b : Shape) : a.same b ↔ a.bare = b.bare := by
  match a with
  | .int v => cases b <;> simp [Shape.same, Shape.bare]
  | .bool => cases b <;> simp [Shape.same, Shape.bare]
  | .void => cases b <;> simp [Shape.same, Shape.bare]
  | .func ps v r =>
    cases b <;> simp [Shape.same, Shape.bare, Ty.sameList_iff, Ty.same_iff r, and_assoc]
  | .owner t c => cases b <;> simp [Shape.same, Shape.bare, Ty.same_iff t]
  | .shared t c => cases b <;> simp [Shape.same, Shape.bare, Ty.same_iff t]
  | .array t c n => cases b <;> simp [Shape.same, Shape.bare, Ty.same_iff t, and_assoc]
  | .struct i _ => cases b <;> simp [Shape.same, Shape.bare]

theorem Ty.sameList_iff (ts us : List Ty) : Ty.sameList ts us ↔ Ty.bareList ts = Ty.bareList us := by
  match ts, us with
  | [], [] => simp [Ty.sameList]
  | [], _ :: _ => simp [Ty.sameList, Ty.bareList]
  | _ :: _, [] => simp [Ty.sameList, Ty.bareList]
  | t :: ts, u :: us =>
    simp [Ty.sameList, Ty.bareList, Ty.same_iff t u, Ty.sameList_iff ts us]

end

theorem Ty.same_refl (t : Ty) : t.same t := (Ty.same_iff t t).mpr rfl

theorem Ty.same_shape {t u : Ty} : t.same u = t.shape.same u.shape := by
  cases t
  cases u
  rw [Ty.same, Ty.shape, Ty.shape]

theorem Ty.bareList_eq_map (ts : List Ty) : Ty.bareList ts = ts.map Ty.bare := by
  induction ts with
  | nil => rfl
  | cons t ts ih => rw [Ty.bareList, ih, List.map_cons]

end OwnLang
