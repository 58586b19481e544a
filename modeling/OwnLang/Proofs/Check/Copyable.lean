import Mathlib
import OwnLang.Proofs.Check.Regular
import OwnLang.Proofs.Emit.WellFormed

/-!
# Copyable types

`Ty.isCopyable` takes every struct for copyable without a look at its fields. That it is right to do
so rests on `Context.Regular`: a field whose type is not copyable is refused, whether its type is
written or taken from its default. So a type is copyable exactly if no owner is part of its values
(`Context.HoldsOwner`), through elements and fields to any depth, and a copy of a value has no owner
in common with the value (`Contents.owners`).
-/

namespace OwnLang

/-- What a value is made of, as far as it matters who frees what: an owner of a cell, parts, or
neither. The elements of an array are its parts, also where only the first one is known. -/
inductive Contents where
  | plain
  | owner (cell : ℕ)
  | compound (parts : List Contents)

namespace Contents

mutual

/-- The cells that a value owns, itself or through its parts. -/
def owners : Contents → List ℕ
  | .plain => []
  | .owner cell => [cell]
  | .compound parts => ownersOf parts

/-- The cells that values own. -/
def ownersOf : List Contents → List ℕ
  | [] => []
  | v :: rest => v.owners ++ ownersOf rest

end

theorem mem_ownersOf {cell : ℕ} {parts : List Contents} :
    cell ∈ ownersOf parts ↔ ∃ v ∈ parts, cell ∈ v.owners := by
  induction parts with
  | nil => simp [ownersOf]
  | cons v rest ih => rw [ownersOf, List.mem_append, ih, List.exists_mem_cons_iff]

@[simp] theorem mem_owners_compound {cell : ℕ} {parts : List Contents} :
    cell ∈ (compound parts).owners ↔ ∃ v ∈ parts, cell ∈ v.owners := by
  rw [owners, mem_ownersOf]

end Contents

namespace Context

variable {c : Context}

/-- An owner is part of the values of a type: the type is one of owners, the type of the elements of
an array holds one, or that of a field of a struct does. -/
inductive HoldsOwner (c : Context) : Ty → Prop
  | owner (target : Ty) (constant : Bool) (writtenAs : Option String) :
    HoldsOwner c (.mk (.owner target constant) writtenAs)
  | element {element : Ty} (constant : Bool) (size : Option ℕ) (writtenAs : Option String)
    (h : HoldsOwner c element) : HoldsOwner c (.mk (.array element constant size) writtenAs)
  | field {id : StructId} {f : Field} (name : String) (writtenAs : Option String)
    (hf : f ∈ (c.struct id).fields) (h : HoldsOwner c f.type) :
    HoldsOwner c (.mk (.struct id name) writtenAs)

/-- What values of a type are made of. -/
inductive HasContents (c : Context) : Contents → Ty → Prop
  | int (width : Width) (writtenAs : Option String) : HasContents c .plain (.mk (.int width) writtenAs)
  | bool (writtenAs : Option String) : HasContents c .plain (.mk .bool writtenAs)
  | func (params : List Ty) (variadic : Bool) (returns : Ty) (writtenAs : Option String) :
    HasContents c .plain (.mk (.func params variadic returns) writtenAs)
  | shared (target : Ty) (constant : Bool) (writtenAs : Option String) :
    HasContents c .plain (.mk (.shared target constant) writtenAs)
  | owner (cell : ℕ) (target : Ty) (constant : Bool) (writtenAs : Option String) :
    HasContents c (.owner cell) (.mk (.owner target constant) writtenAs)
  | array {parts : List Contents} {element : Ty} {size : Option ℕ} (constant : Bool)
    (writtenAs : Option String) (hsize : ∀ n, size = some n → parts.length = n)
    (hparts : ∀ v ∈ parts, HasContents c v element) :
    HasContents c (.compound parts) (.mk (.array element constant size) writtenAs)
  | struct {parts : List Contents} {id : StructId} (name : String) (writtenAs : Option String)
    (hlength : parts.length = (c.struct id).fields.length)
    (hparts : ∀ v f, (v, f) ∈ parts.zip (c.struct id).fields → HasContents c v f.type) :
    HasContents c (.compound parts) (.mk (.struct id name) writtenAs)

/-- A type whose values are not copyable holds an owner, an element's if it is no owner itself. -/
theorem holdsOwner_of_not_copyable : (t : Ty) → t.isCopyable = false → c.HoldsOwner t
  | .mk (.owner target constant) writtenAs, _ => .owner target constant writtenAs
  | .mk (.array element constant size) writtenAs, h =>
    .element constant size writtenAs (holdsOwner_of_not_copyable element h)
  | .mk (.int _) _, h | .mk .bool _, h | .mk .void _, h | .mk (.func ..) _, h | .mk (.shared ..) _, h
  | .mk (.struct ..) _, h => by cases h

/-- The fields of structs are copyable, so a type that holds an owner is not. -/
theorem Regular.not_copyable (hc : c.Regular) {t : Ty} (h : c.HoldsOwner t) : t.isCopyable = false := by
  induction h with
  | owner target constant writtenAs => rfl
  | element constant size writtenAs _ ih => exact ih
  | @field id f name writtenAs hf _ ih =>
    have hcopyable : f.type.isCopyable = true := by
      have hshape := (hc.structs id).copyable f hf
      revert hshape
      cases f.type
      exact fun hshape => hshape
    rw [ih] at hcopyable
    cases hcopyable

/-- What a value owns, its type holds. -/
theorem HasContents.holdsOwner {v : Contents} {t : Ty} (h : c.HasContents v t) {cell : ℕ}
    (hcell : cell ∈ v.owners) : c.HoldsOwner t := by
  induction h with
  | int | bool | func | shared => cases hcell
  | owner cell target constant writtenAs => exact .owner target constant writtenAs
  | array constant writtenAs hsize hparts ih =>
    obtain ⟨v, hv, hcell⟩ := Contents.mem_owners_compound.mp hcell
    exact .element constant _ writtenAs (ih v hv hcell)
  | @struct parts id name writtenAs hlength hparts ih =>
    obtain ⟨v, hv, hcell⟩ := Contents.mem_owners_compound.mp hcell
    obtain ⟨i, hi, rfl⟩ := List.getElem_of_mem hv
    have hi' : i < (c.struct id).fields.length := hlength ▸ hi
    have hmem : (parts[i], (c.struct id).fields[i]) ∈ parts.zip (c.struct id).fields := by
      rw [← List.getElem_zip (h := by simp [hi, hi'])]
      exact List.getElem_mem _
    exact .field name writtenAs (List.getElem_mem hi') (ih _ _ hmem hcell)

end Context

namespace Session

/-- Copyable types own nothing. At every moment of a session a type is copyable exactly if no owner is
part of its values, and a value of a copyable type owns no cell, so that the copies of it have no
owner in common. A struct that is not complete yet has no fields, and nothing is known to be part of
its values. -/
theorem isCopyable_iff_not_holdsOwner {c : Context} (hc : Moment c) (t : Ty) :
    (t.isCopyable = true ↔ ¬ c.HoldsOwner t) ∧
      (t.isCopyable = true → ∀ v, c.HasContents v t → v.owners = []) := by
  have hiff : t.isCopyable = true ↔ ¬ c.HoldsOwner t := by
    refine ⟨fun hcopyable hholds => ?_, fun hnone => ?_⟩
    · rw [hc.regular.not_copyable hholds] at hcopyable
      cases hcopyable
    · by_contra hcopyable
      exact hnone (Context.holdsOwner_of_not_copyable t (by simpa using hcopyable))
  refine ⟨hiff, fun hcopyable v hv => ?_⟩
  by_contra howners
  obtain ⟨cell, hcell⟩ := List.exists_mem_of_ne_nil _ howners
  exact hiff.mp hcopyable (hv.holdsOwner hcell)

/-- A struct that holds an instance of a template, whose fields are arrays of what an alias names. -/
def nodeSources : List SourceFile :=
  [⟨"main.own", String.join
    [ "typealias View = *i32; template <T> struct Pair \x7b var a: T[2]; \x7d ",
      "struct Node \x7b var pair: Pair<View>; var views: View[]; \x7d fn f(node: Node) \x7b \x7d" ]⟩]

/-- An array of nodes is copyable and holds no owner; an array of owners of nodes holds one. -/
theorem isCopyable_iff_not_holdsOwner_node :
    ∃ c, Moment c ∧ c.structs.size = 2 ∧ (c.struct ⟨0⟩).fields.length = 2 ∧
      ¬ c.HoldsOwner (Shape.array (Shape.struct ⟨0⟩ "Node").plain false (some 3)).plain ∧
      c.HoldsOwner (Shape.array (Shape.owner (Shape.struct ⟨0⟩ "Node").plain false).plain false none).plain := by
  have hrun : ((checkProgram { includeStd := false, requireEntry := false } nodeSources).toOption.map fun c =>
      (c.structs.size, (c.struct ⟨0⟩).fields.length)) = some (2, 2) := by
    rw [checkProgram_eq, nodeSources, SourceFile.mapM_parse_join]
    decide +kernel
  cases hchecked : checkProgram { includeStd := false, requireEntry := false } nodeSources with
  | error why =>
    rw [hchecked] at hrun
    cases hrun
  | ok c =>
    rw [hchecked] at hrun
    obtain ⟨files, -, hmodules⟩ := checkProgram_eq_ok hchecked
    have hc : Moment c := Reachable.moment ⟨_, .single (.modules files (Run.ends_of_ok hmodules))⟩
    obtain ⟨hsize, hlength⟩ := Prod.mk.inj (Option.some.inj hrun)
    refine ⟨c, hc, hsize, hlength, ?_, ?_⟩
    · exact (isCopyable_iff_not_holdsOwner hc _).1.mp rfl
    · by_contra hnone
      have hcopyable := (isCopyable_iff_not_holdsOwner hc _).1.mpr hnone
      cases hcopyable

end Session

end OwnLang
