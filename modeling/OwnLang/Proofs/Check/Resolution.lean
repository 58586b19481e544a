import Mathlib
import OwnLang.Check.Context

/-!
# How entities are resolved

Aliases, globals, structs and macros are declared with all that is written of them. What resolution
finds out is added to the record when the entity becomes complete (`Resolvable.Exact`), and from then
on the record stays as it is (`Resolvable.Progresses`). Work that is nested in a resolution does even
less: it leaves every record alone that some resolution has begun with (`Resolvable.Spares`).

`Context.Becomes` says this of all entities of two contexts, and that the declarations stay at their
places: an identity stands for the same entity in both.
-/

namespace OwnLang

open Surface (Ident)

/-- The order in which the states of an entity follow one another. -/
def State.rank : State → Nat
  | declared => 0
  | resolving => 1
  | complete => 2

/-- What there is to resolve of the records of a kind of entity. -/
structure Resolvable (α : Type) where
  /-- How far a record is. -/
  state : α → State
  /-- The record as it was declared. -/
  declared : α → α
  /-- What resolution finds out is there. -/
  filled : α → Prop
  /-- Nothing is there yet of what resolution finds out. -/
  blank : α → Prop

namespace Resolvable

variable {α : Type} (κ : Resolvable α)

/-- What resolution finds out is there exactly if the record is complete. -/
structure Exact (a : α) : Prop where
  filled : κ.state a = .complete → κ.filled a
  blank : κ.state a ≠ .complete → κ.blank a

/-- The declaration is the same, the state does not go back, and a complete record stays. -/
structure Progresses (a b : α) : Prop where
  declared : κ.declared b = κ.declared a
  forward : (κ.state a).rank ≤ (κ.state b).rank
  final : κ.state a = .complete → b = a

/-- The declaration is the same, and a record stays that resolution has begun with. -/
structure Spares (a b : α) : Prop where
  declared : κ.declared b = κ.declared a
  begun : κ.state a ≠ .declared → b = a

variable {κ} {a b c : α}

theorem Progresses.refl (a : α) : κ.Progresses a a := ⟨rfl, le_rfl, fun _ => rfl⟩

theorem Progresses.trans (h : κ.Progresses a b) (h' : κ.Progresses b c) : κ.Progresses a c where
  declared := h'.declared.trans h.declared
  forward := h.forward.trans h'.forward
  final ha := by
    obtain rfl := h.final ha
    exact h'.final ha

theorem Spares.refl (a : α) : κ.Spares a a := ⟨rfl, fun _ => rfl⟩

theorem Spares.trans (h : κ.Spares a b) (h' : κ.Spares b c) : κ.Spares a c where
  declared := h'.declared.trans h.declared
  begun ha := by
    obtain rfl := h.begun ha
    exact h'.begun ha

theorem Spares.progresses (h : κ.Spares a b) : κ.Progresses a b where
  declared := h.declared
  forward := by
    by_cases ha : κ.state a = .declared
    · rw [ha]
      exact Nat.zero_le _
    · rw [h.begun ha]
  final ha := h.begun (by rw [ha]; decide)

/-- How a record is written: it is marked when its resolution begins, and filled in the end. -/
structure Writes (κ : Resolvable α) (mark fill : α → α) : Prop where
  mark_declared : ∀ a, κ.declared (mark a) = κ.declared a
  mark_state : ∀ a, κ.state (mark a) = .resolving
  mark_blank : ∀ a, κ.blank a → κ.blank (mark a)
  fill_declared : ∀ a, κ.declared (fill a) = κ.declared a
  fill_state : ∀ a, κ.state (fill a) = .complete

variable {mark fill : α → α}

theorem Writes.mark_exact (h : κ.Writes mark fill) (ha : κ.Exact a) (hstate : κ.state a = .declared) :
    κ.Exact (mark a) where
  filled hcomplete := by simp [h.mark_state] at hcomplete
  blank _ := h.mark_blank a (ha.blank (by simp [hstate]))

theorem Writes.fill_exact (h : κ.Writes mark fill) (hfilled : κ.filled (fill a)) :
    κ.Exact (fill a) := ⟨fun _ => hfilled, fun hstate => absurd (h.fill_state a) hstate⟩

end Resolvable

/-- The initializer of a variable. -/
def Global.initializer? (g : Global) : Option Surface.Expr :=
  match g.kind with
  | .function .. => none
  | .storage decl => decl.value

/-- The type that an alias stands for is found out. -/
def AliasDef.resolvable : Resolvable AliasDef where
  state a := a.state
  declared a := { a with resolved := none, state := .declared }
  filled a := a.resolved.isSome
  blank a := a.resolved = none

/-- The type of a global is found out, and the value of a variable that has an initializer. -/
def Global.resolvable : Resolvable Global where
  state g := g.state
  declared g := { g with type := none, value := none, state := .declared }
  filled g := g.type.isSome ∧ g.value.isSome = g.initializer?.isSome
  blank g := g.type = none ∧ g.value = none

/-- The fields of a struct are found out, with their types and defaults. -/
def StructDef.resolvable : Resolvable StructDef where
  state d := d.state
  declared d := { d with fields := [], state := .declared }
  filled d := d.fields.map (·.name) = d.decl.fields.map (·.name)
  blank d := d.fields = []

/-- The types of the parameters of a macro are found out, and the type that it returns. -/
def MacroDef.resolvable : Resolvable MacroDef where
  state m := m.state
  declared m := { m with params := [], returns := Shape.void.plain, state := .declared }
  filled m := m.params.map (·.constant) = m.decl.params.map (·.constant)
  blank m := m.params = [] ∧ m.returns = Shape.void.plain

/-! ## Entries of a table -/

section Retained

variable {α : Type}

/-- Every entry of a table is still at its place, and related to what it was. -/
def Retained (R : α → α → Prop) (xs ys : Array α) : Prop :=
  ∀ (i : Nat) (x : α), xs[i]? = some x → ∃ y, ys[i]? = some y ∧ R x y

variable {R S : α → α → Prop} {xs ys zs : Array α}

theorem Retained.refl (h : ∀ x, R x x) (xs : Array α) : Retained R xs xs :=
  fun _ x hx => ⟨x, hx, h x⟩

theorem Retained.trans (hR : ∀ {x y z}, R x y → R y z → R x z) (h : Retained R xs ys)
    (h' : Retained R ys zs) : Retained R xs zs := by
  intro i x hx
  obtain ⟨y, hy, hxy⟩ := h i x hx
  obtain ⟨z, hz, hyz⟩ := h' i y hy
  exact ⟨z, hz, hR hxy hyz⟩

theorem Retained.mono (hRS : ∀ {x y}, R x y → S x y) (h : Retained R xs ys) : Retained S xs ys := by
  intro i x hx
  obtain ⟨y, hy, hxy⟩ := h i x hx
  exact ⟨y, hy, hRS hxy⟩

theorem Retained.push (h : Retained R xs ys) (y : α) : Retained R xs (ys.push y) := by
  intro i x hx
  obtain ⟨z, hz, hxz⟩ := h i x hx
  obtain ⟨hi, -⟩ := Array.getElem?_eq_some_iff.mp hz
  exact ⟨z, by rw [Array.getElem?_push_lt hi, ← hz, Array.getElem?_eq_getElem hi], hxz⟩

/-- A change of an entry, as long as what the entry was is related to what becomes of it. -/
theorem Retained.modify (h : Retained R xs ys) {i : Nat} {change : α → α}
    (hchange : ∀ x y, xs[i]? = some x → ys[i]? = some y → R x y → R x (change y)) :
    Retained R xs (ys.modify i change) := by
  intro j x hx
  obtain ⟨y, hy, hxy⟩ := h j x hx
  by_cases hij : i = j
  · subst hij
    exact ⟨change y, by simp [Array.getElem?_modify, hy], hchange x y hx hy hxy⟩
  · exact ⟨y, by simp [Array.getElem?_modify, hij, hy], hxy⟩

theorem getElem?_of_lt [Inhabited α] {i : Nat} (h : i < xs.size) :
    xs[i]? = some (xs[i]?.getD default) := by simp [h]

/-- What was there is still there, and related to what it was. -/
theorem Retained.getD [Inhabited α] (h : Retained R xs ys) {i : Nat} (hi : i < xs.size) :
    R (xs[i]?.getD default) (ys[i]?.getD default) := by
  obtain ⟨y, hy, hxy⟩ := h i _ (getElem?_of_lt hi)
  rwa [hy]

theorem Retained.size_le (h : Retained R xs ys) : xs.size ≤ ys.size := by
  by_contra hlt
  rw [Nat.not_le] at hlt
  obtain ⟨y, hy, -⟩ := h ys.size _ (Array.getElem?_eq_getElem hlt)
  exact absurd (Array.getElem?_eq_some_iff.mp hy).1 (Nat.lt_irrefl _)

/-- Behind the size of a table nothing is changed. -/
theorem modify_of_size_le {i : Nat} (h : xs.size ≤ i) (change : α → α) : xs.modify i change = xs :=
  Array.ext_getElem? fun j => by
    rw [Array.getElem?_modify]
    split
    · rename_i hij
      rw [Array.getElem?_eq_none (hij ▸ h)]
      rfl
    · rfl

theorem mem_modify {i : Nat} {change : α → α} {y : α} (h : y ∈ xs.modify i change) :
    y ∈ xs ∨ ∃ x, xs[i]? = some x ∧ change x = y := by
  obtain ⟨j, hj⟩ := Array.mem_iff_getElem?.mp h
  rw [Array.getElem?_modify] at hj
  split at hj
  · rename_i hij
    subst hij
    obtain ⟨x, hx, rfl⟩ := Option.map_eq_some_iff.mp hj
    exact .inr ⟨x, hx, rfl⟩
  · exact .inl (Array.mem_iff_getElem?.mpr ⟨j, hj⟩)

section Writes

variable {κ : Resolvable α} {mark fill : α → α} (h : κ.Writes mark fill) {i : Nat}
  (hys : Retained κ.Spares (xs.modify i mark) ys)
  (hdeclared : ∀ x, xs[i]? = some x → κ.state x = .declared)

include h hys

/-- What is marked stays marked. -/
theorem Retained.marked {x : α} (hx : xs[i]? = some x) : ys[i]? = some (mark x) := by
  obtain ⟨y, hy, hspares⟩ := hys i (mark x) (by simp [Array.getElem?_modify, hx])
  rw [hy, hspares.begun (by simp [h.mark_state])]

theorem Retained.filled {x : α} (hx : xs[i]? = some x) :
    Retained κ.Progresses ys (ys.modify i fill) := by
  refine (Retained.refl .refl ys).modify fun y z hy hz _ => ?_
  obtain rfl : mark x = y := Option.some.inj ((Retained.marked h hys hx).symm.trans hy)
  obtain rfl : mark x = z := Option.some.inj (hy.symm.trans hz)
  refine ⟨h.fill_declared _, ?_, fun hcomplete => by simp [h.mark_state] at hcomplete⟩
  rw [h.mark_state, h.fill_state]
  decide

theorem Retained.filled_exact {x : α} (hx : xs[i]? = some x) (hfilled : κ.filled (fill (mark x)))
    (hexact : ∀ y ∈ ys, κ.Exact y) : ∀ y ∈ ys.modify i fill, κ.Exact y := by
  intro y hy
  obtain hy | ⟨z, hz, rfl⟩ := mem_modify hy
  · exact hexact y hy
  · obtain rfl : mark x = z := Option.some.inj ((Retained.marked h hys hx).symm.trans hz)
    exact h.fill_exact hfilled

include hdeclared

/-- An entry that is marked first is spared in any case. -/
theorem Retained.of_mark : Retained κ.Spares xs ys := by
  intro j x hx
  by_cases hij : i = j
  · subst hij
    exact ⟨mark x, Retained.marked h hys hx, h.mark_declared x, fun hstate =>
      absurd (hdeclared x hx) hstate⟩
  · exact hys j x (by simp [Array.getElem?_modify, hij, hx])

theorem Retained.of_fill : Retained κ.Spares xs (ys.modify i fill) :=
  (Retained.of_mark h hys hdeclared).modify fun x y hx _ hxy =>
    ⟨(h.fill_declared y).trans hxy.declared, fun hstate => absurd (hdeclared x hx) hstate⟩

end Writes

theorem retained_mark {κ : Resolvable α} {mark fill : α → α} (h : κ.Writes mark fill) {i : Nat}
    (hdeclared : ∀ x, xs[i]? = some x → κ.state x = .declared) :
    Retained κ.Progresses xs (xs.modify i mark) := by
  refine (Retained.refl .refl xs).modify fun x y hx hy _ => ?_
  obtain rfl : x = y := Option.some.inj (hx.symm.trans hy)
  have hstate := hdeclared x hx
  exact ⟨h.mark_declared x, by simp [hstate, State.rank], fun hcomplete => by
    simp [hstate] at hcomplete⟩

theorem mark_exact {κ : Resolvable α} {mark fill : α → α} (h : κ.Writes mark fill) {i : Nat}
    (hdeclared : ∀ x, xs[i]? = some x → κ.state x = .declared) (hexact : ∀ x ∈ xs, κ.Exact x) :
    ∀ x ∈ xs.modify i mark, κ.Exact x := by
  intro y hy
  obtain hy | ⟨x, hx, rfl⟩ := mem_modify hy
  · exact hexact y hy
  · exact h.mark_exact (hexact x (Array.mem_of_getElem? hx)) (hdeclared x hx)

end Retained

/-- The package has the same name, and what it held is still there. -/
structure Package.Widens (p q : Package) : Prop where
  name : q.name = p.name
  members : p.members <+: q.members
  macros : p.macros <+: q.macros

/-- The template is the same, and what it made is still recorded. -/
structure TemplateDef.Makes (t u : TemplateDef) : Prop where
  declared : { u with instances := [] } = { t with instances := [] }
  instances : t.instances <+: u.instances

theorem Package.Widens.refl (p : Package) : p.Widens p := ⟨rfl, List.prefix_rfl, List.prefix_rfl⟩

theorem Package.Widens.trans {p q r : Package} (h : p.Widens q) (h' : q.Widens r) : p.Widens r :=
  ⟨h'.name.trans h.name, h.members.trans h'.members, h.macros.trans h'.macros⟩

theorem TemplateDef.Makes.refl (t : TemplateDef) : t.Makes t := ⟨rfl, List.prefix_rfl⟩

theorem TemplateDef.Makes.trans {t u v : TemplateDef} (h : t.Makes u) (h' : u.Makes v) :
    t.Makes v := ⟨h'.declared.trans h.declared, h.instances.trans h'.instances⟩

/-- What resolution finds out of a macro is there exactly if it is complete. A macro is resolved at
one stroke, so it is never in between. -/
structure MacroDef.Signed (m : MacroDef) : Prop extends MacroDef.resolvable.Exact m where
  unmarked : m.state ≠ .resolving

namespace Context

/-- Relations between the records of entities of any kind. -/
abbrev Relates : Type 1 := {α : Type} → Resolvable α → α → α → Prop

/-- What was declared is still there, and the aliases, globals and structs are related to what they
were. -/
structure Carries (R : Relates) (c d : Context) : Prop where
  packages : Retained Package.Widens c.packages d.packages
  templates : Retained TemplateDef.Makes c.templates d.templates
  aliases : Retained (R AliasDef.resolvable) c.aliases d.aliases
  globals : Retained (R Global.resolvable) c.globals d.globals
  structs : Retained (R StructDef.resolvable) c.structs d.structs

/-- What was declared is still there, and every resolution has at most gone on. -/
structure Becomes (c d : Context) : Prop extends c.Carries Resolvable.Progresses d where
  macros : Retained MacroDef.resolvable.Progresses c.macros d.macros

/-- What resolution finds out of an alias, a global or a struct is there exactly if that is
complete. -/
structure Definite (c : Context) : Prop where
  aliases : ∀ a ∈ c.aliases, AliasDef.resolvable.Exact a
  globals : ∀ g ∈ c.globals, Global.resolvable.Exact g
  structs : ∀ d ∈ c.structs, StructDef.resolvable.Exact d

/-- What resolution finds out of any entity is there exactly if that is complete. -/
structure Exact (c : Context) : Prop extends c.Definite where
  macros : ∀ m ∈ c.macros, m.Signed

/-- The names of the packages and of their members, with what they stand for. -/
def listed (c : Context) : Array (String × List (Ident × Member)) :=
  c.packages.map fun p => (p.name, p.members)

/-- The aliases, globals and structs are related to what they were, and every name stands for the
same. -/
structure Continues (R : Relates) (c d : Context) : Prop extends c.Carries R d where
  listed : d.listed = c.listed

/-- What a context holds is definite, and the structs that it names are declared. -/
structure Orderly (c : Context) : Prop extends c.Definite where
  members : ∀ p ∈ c.packages, ∀ m ∈ p.members, ∀ id, m.2 = .struct id → id.index < c.structs.size
  instances : ∀ t ∈ c.templates, ∀ made ∈ t.instances, ∀ id, made.entity = .struct id →
    id.index < c.structs.size

/-- The contexts have the same entities. -/
structure Shares (c d : Context) : Prop where
  packages : d.packages = c.packages
  templates : d.templates = c.templates
  aliases : d.aliases = c.aliases
  globals : d.globals = c.globals
  structs : d.structs = c.structs
  macros : d.macros = c.macros

variable {R S : Relates} {c d e : Context}

theorem Carries.trans (hR : ∀ {α : Type} {κ : Resolvable α} {x y z : α}, R κ x y → R κ y z → R κ x z)
    (h : c.Carries R d) (h' : d.Carries R e) : c.Carries R e where
  packages := h.packages.trans .trans h'.packages
  templates := h.templates.trans .trans h'.templates
  aliases := h.aliases.trans hR h'.aliases
  globals := h.globals.trans hR h'.globals
  structs := h.structs.trans hR h'.structs

theorem Carries.mono (hRS : ∀ {α : Type} {κ : Resolvable α} {x y : α}, R κ x y → S κ x y)
    (h : c.Carries R d) : c.Carries S d :=
  { h with
    aliases := h.aliases.mono hRS
    globals := h.globals.mono hRS
    structs := h.structs.mono hRS }

theorem Continues.trans
    (hR : ∀ {α : Type} {κ : Resolvable α} {x y z : α}, R κ x y → R κ y z → R κ x z)
    (h : c.Continues R d) (h' : d.Continues R e) : c.Continues R e :=
  ⟨h.toCarries.trans hR h'.toCarries, h'.listed.trans h.listed⟩

theorem Continues.progresses (h : c.Continues Resolvable.Spares d) :
    c.Continues Resolvable.Progresses d := ⟨h.toCarries.mono Resolvable.Spares.progresses, h.listed⟩

theorem Shares.carries (hR : ∀ {α : Type} {κ : Resolvable α} (x : α), R κ x x) (h : c.Shares d) :
    c.Carries R d where
  packages := h.packages ▸ .refl .refl _
  templates := h.templates ▸ .refl .refl _
  aliases := h.aliases ▸ .refl hR _
  globals := h.globals ▸ .refl hR _
  structs := h.structs ▸ .refl hR _

theorem Shares.continues (hR : ∀ {α : Type} {κ : Resolvable α} (x : α), R κ x x)
    (h : c.Shares d) : c.Continues R d := ⟨h.carries hR, by unfold Context.listed; rw [h.packages]⟩

theorem Shares.orderly (h : c.Shares d) (hc : c.Orderly) : d.Orderly where
  aliases := h.aliases ▸ hc.aliases
  globals := h.globals ▸ hc.globals
  structs := h.structs ▸ hc.structs
  members := h.packages ▸ h.structs ▸ hc.members
  instances := h.templates ▸ h.structs ▸ hc.instances

theorem Shares.symm (h : c.Shares d) : d.Shares c :=
  ⟨h.packages.symm, h.templates.symm, h.aliases.symm, h.globals.symm,
    h.structs.symm, h.macros.symm⟩

theorem shares_frame (c : Context) (frame : Option Frame) : c.Shares { c with frame } :=
  ⟨rfl, rfl, rfl, rfl, rfl, rfl⟩

end Context

end OwnLang
