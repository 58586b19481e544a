import Mathlib
import OwnLang.Check.Context

/-!
# Looking up entities

What a change of the globals or the structs of a context does to each of them. A global or struct
that resolution has begun with is `Settled` or not `.declared` any longer.
-/

namespace OwnLang.Check

variable {c d : Context}

/-- Whatever is in an array stands at an index. -/
theorem exists_index {α : Type} [Inhabited α] {xs : Array α} {x : α} (h : x ∈ xs) :
    ∃ i < xs.size, xs[i]?.getD default = x := by
  obtain ⟨i, hi, rfl⟩ := Array.getElem_of_mem h
  exact ⟨i, hi, by rw [Array.getElem?_eq_getElem hi, Option.getD_some]⟩

theorem getD_mem {α : Type} [Inhabited α] {xs : Array α} {i : ℕ} (h : i < xs.size) :
    xs[i]?.getD default ∈ xs := by
  rw [Array.getElem?_eq_getElem h]
  exact Array.getElem_mem h

/-! ## Globals -/

/-- Resolution has begun or is done; nothing else changes the global. -/
def Settled (g : Global) : Prop := g.state = .resolving ∨ g.state = .complete ∧ g.type.isSome

theorem global_of_eq (h : d.globals = c.globals) (id : GlobalId) : d.global id = c.global id := by
  unfold Context.global
  rw [h]

theorem global_of_size_le {id : GlobalId} (h : c.globals.size ≤ id.index) :
    c.global id = default := by
  unfold Context.global
  rw [Array.getElem?_eq_none h]
  rfl

theorem global_push (c : Context) (g : Global) (pending : List GlobalId) (id : GlobalId) :
    Context.global { c with globals := c.globals.push g, pending } id =
      if id.index = c.globals.size then g else c.global id := by
  unfold Context.global
  rw [Array.getElem?_push]
  split <;> rfl

theorem global_modifyGlobal (c : Context) (id other : GlobalId) (change : Global → Global) :
    (c.modifyGlobal id change).global other =
      if id.index = other.index ∧ other.index < c.globals.size then change (c.global other)
      else c.global other := by
  unfold Context.global Context.modifyGlobal
  rw [Array.getElem?_modify]
  by_cases hin : other.index < c.globals.size
  · by_cases hid : id.index = other.index <;> simp [hin, hid]
  · simp [hin]

/-- A settled global is declared. -/
theorem Settled.lt {id : GlobalId} (h : Settled (c.global id)) : id.index < c.globals.size := by
  by_contra hid
  rw [global_of_size_le (Nat.le_of_not_lt hid)] at h
  rcases h with h | ⟨h, -⟩ <;> cases h

/-! ## Structs -/

theorem struct_of_eq (h : d.structs = c.structs) (id : StructId) : d.struct id = c.struct id := by
  unfold Context.struct
  rw [h]

theorem struct_of_size_le {id : StructId} (h : c.structs.size ≤ id.index) :
    c.struct id = default := by
  unfold Context.struct
  rw [Array.getElem?_eq_none h]
  rfl

theorem struct_push (c : Context) (d : StructDef) (id : StructId) :
    Context.struct { c with structs := c.structs.push d } id =
      if id.index = c.structs.size then d else c.struct id := by
  unfold Context.struct
  rw [Array.getElem?_push]
  split <;> rfl

theorem struct_modifyStruct (c : Context) (id other : StructId) (change : StructDef → StructDef) :
    (c.modifyStruct id change).struct other =
      if id.index = other.index ∧ other.index < c.structs.size then change (c.struct other)
      else c.struct other := by
  unfold Context.struct Context.modifyStruct
  rw [Array.getElem?_modify]
  by_cases hin : other.index < c.structs.size
  · by_cases hid : id.index = other.index <;> simp [hin, hid]
  · simp [hin]

end OwnLang.Check
