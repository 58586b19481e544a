import Mathlib
import OwnLang.Proofs.Check.Advance
import OwnLang.Proofs.Check.Entities
import OwnLang.Proofs.Core.Typing

/-!
# Contexts whose entities are well typed

A context is `WellTyped` if all that it has accepted satisfies the typing rules: the signatures of
its functions, the defaults of its fields and its checked bodies. What it knows of names
(`Context.envWith`) grows while checking goes on, since nothing touches an entity that resolution
has begun with, except to complete it (`Context.Keeps`). So what was typed once stays typed.
-/

namespace OwnLang

open OwnLang.Core (TypeEnv)

namespace Context

/-- The type of a global that is resolved. -/
def typeOf? (c : Context) (id : GlobalId) : Option Ty :=
  if (c.global id).state = .complete then (c.global id).type else none

/-- The types of the fields of a complete struct. -/
def fieldTypes? (c : Context) (id : StructId) : Option (List Ty) :=
  if (c.struct id).state = .complete then some ((c.struct id).fields.map (·.type)) else none

/-- What is known of names in a function with these locals. -/
def envWith (c : Context) (locals : Array Local) : TypeEnv where
  global := c.typeOf?
  fields := c.fieldTypes?
  slot id := locals[id.index]?.map (·.type)

/-- What is known of names in the function that is being checked. -/
def typeEnv (c : Context) : TypeEnv := c.envWith c.here.locals

/-- Nothing has touched the entities that resolution had begun with. -/
structure Keeps (origin c : Context) : Prop where
  globalCount : origin.globals.size ≤ c.globals.size
  structCount : origin.structs.size ≤ c.structs.size
  settled : ∀ id, Check.Settled (origin.global id) → c.global id = origin.global id
  kinds : ∀ id : GlobalId, id.index < origin.globals.size →
    (c.global id).kind = (origin.global id).kind
  structs : ∀ id : StructId, id.index < origin.structs.size → (origin.struct id).state ≠ .declared →
    (c.struct id).state = (origin.struct id).state ∧ (c.struct id).fields = (origin.struct id).fields

end Context

/-- The type of a function or method that its declaration gives rise to: it takes the receiver of a
method, if it is one, in front of its parameters. -/
def Surface.FnDecl.HasType (decl : Surface.FnDecl) (owner : Option StructId) (t : Ty) : Prop :=
  ∃ receiver params variadic returns, t.shape = .func (receiver ++ params) variadic returns ∧
    params.length = decl.params.length ∧
    (receiver = [] ∨ ∃ id name constant, owner = some id ∧
      receiver = [(Shape.shared (Shape.struct id name).plain constant).plain])

/-- A function that is resolved has a type that its declaration gives rise to. -/
def Global.Sound (g : Global) : Prop :=
  ∀ decl owner t, g.kind = .function decl owner → g.state = .complete → g.type = some t →
    decl.HasType owner t

/-- A field's default is typed, and has the type of the field. -/
def Field.Sound (Γ : TypeEnv) (f : Field) : Prop :=
  ∀ e, f.default = some e → e.Typed Γ ∧ e.type.same f.type

/-- A struct has fields once it is complete, with sound defaults. -/
structure StructDef.Sound (Γ : TypeEnv) (d : StructDef) : Prop where
  fields : d.state ≠ .complete → d.fields = []
  defaults : ∀ f ∈ d.fields, f.Sound Γ

/-- A checked body satisfies the typing rules, with the types of its locals and the type that its
function returns. -/
structure Body.Typed (body : Body) (c : Context) : Prop where
  block : body.block.Typed (c.envWith body.locals) body.returns
  signature : ∃ t params variadic, c.typeOf? body.function = some t ∧
    t.shape = .func params variadic body.returns

/-- All that a context has accepted satisfies the typing rules. -/
structure Context.WellTyped (c : Context) : Prop where
  globals : ∀ id, (c.global id).Sound
  structs : ∀ id, (c.struct id).Sound (c.envWith #[])
  bodies : ∀ body ∈ c.bodies, body.Typed c

variable {origin c d : Context}

/-! ## What is known of names -/

namespace Context

theorem typeOf?_eq_some {id : GlobalId} {t : Ty} :
    c.typeOf? id = some t ↔ (c.global id).state = .complete ∧ (c.global id).type = some t := by
  simp [typeOf?]

theorem fieldTypes?_eq_some {id : StructId} {ts : List Ty} :
    c.fieldTypes? id = some ts ↔
      (c.struct id).state = .complete ∧ (c.struct id).fields.map (·.type) = ts := by
  simp [fieldTypes?]

theorem fieldTypes?_of_complete {id : StructId} (h : (c.struct id).state = .complete) :
    c.fieldTypes? id = some ((c.struct id).fields.map (·.type)) := by
  simp [fieldTypes?, h]

/-- A struct that resolution has begun with is declared. -/
theorem struct_lt {id : StructId} (h : (c.struct id).state ≠ .resolving) :
    id.index < c.structs.size := by
  by_contra hid
  rw [Check.struct_of_size_le (Nat.le_of_not_lt hid)] at h
  exact h rfl

theorem Keeps.refl (c : Context) : c.Keeps c :=
  ⟨le_rfl, le_rfl, fun _ _ => rfl, fun _ _ => rfl, fun _ _ _ => ⟨rfl, rfl⟩⟩

theorem Keeps.trans (h : origin.Keeps c) (h' : c.Keeps d) : origin.Keeps d where
  globalCount := h.globalCount.trans h'.globalCount
  structCount := h.structCount.trans h'.structCount
  settled id hid := by
    have hkept := h.settled id hid
    rw [h'.settled id (hkept ▸ hid), hkept]
  kinds id hid := by rw [h'.kinds id (hid.trans_le h.globalCount), h.kinds id hid]
  structs id hid hstate := by
    obtain ⟨hstate₁, hfields₁⟩ := h.structs id hid hstate
    obtain ⟨hstate₂, hfields₂⟩ :=
      h'.structs id (hid.trans_le h.structCount) (by rwa [hstate₁])
    exact ⟨hstate₂.trans hstate₁, hfields₂.trans hfields₁⟩

/-- What is known of entities does not change any more. -/
theorem Keeps.extends (h : c.Keeps d) (locals : Array Local) :
    (c.envWith locals).Extends (d.envWith locals) where
  global id t ht := by
    obtain ⟨hstate, htype⟩ := typeOf?_eq_some.mp ht
    refine typeOf?_eq_some.mpr ?_
    rw [h.settled id (.inr ⟨hstate, by simp [htype]⟩)]
    exact ⟨hstate, htype⟩
  fields id ts hts := by
    obtain ⟨hstate, hfields⟩ := fieldTypes?_eq_some.mp hts
    have hid : id.index < c.structs.size := struct_lt (by simp [hstate])
    obtain ⟨hstate', hfields'⟩ := h.structs id hid (by simp [hstate])
    exact fieldTypes?_eq_some.mpr ⟨hstate'.trans hstate, by rw [hfields', hfields]⟩
  slot _ _ ht := ht

/-- More locals are known. -/
theorem envWith_extends (c : Context) {f g : Frame} (h : f.Grows g) :
    (c.envWith f.locals).Extends (c.envWith g.locals) where
  global _ _ ht := ht
  fields _ _ hts := hts
  slot id t ht := by
    simp only [envWith, Option.map_eq_some_iff] at ht ⊢
    obtain ⟨l, hl, rfl⟩ := ht
    have hid : id.index < f.locals.size := (Array.getElem?_eq_some_iff.mp hl).1
    have hid' : id.index < g.locals.size := hid.trans_le h.size
    refine ⟨g.locals[id.index], Array.getElem?_eq_getElem hid', ?_⟩
    have hlocal := congrArg Local.type (h.localAt id hid)
    simpa [Frame.localAt, hid', hl] using hlocal

/-- Locals of a function are known beside what is known outside of functions. -/
theorem envWith_empty_extends (c : Context) (locals : Array Local) :
    (c.envWith #[]).Extends (c.envWith locals) where
  global _ _ ht := ht
  fields _ _ hts := hts
  slot id t ht := by simp [envWith] at ht

end Context

/-! ## What keeps a context well typed -/

theorem Field.Sound.mono {Γ Δ : TypeEnv} {f : Field} (h : f.Sound Γ) (hΔ : Γ.Extends Δ) : f.Sound Δ :=
  fun e he => ⟨(h e he).1.mono hΔ, (h e he).2⟩

theorem StructDef.Sound.mono {Γ Δ : TypeEnv} {s : StructDef} (h : s.Sound Γ) (hΔ : Γ.Extends Δ) :
    s.Sound Δ := ⟨h.fields, fun f hf => (h.defaults f hf).mono hΔ⟩

theorem Body.Typed.mono {body : Body} (h : body.Typed c)
    (hext : ∀ locals, (c.envWith locals).Extends (d.envWith locals)) : body.Typed d where
  block := h.block.mono (hext _)
  signature := by
    obtain ⟨t, params, variadic, ht, hshape⟩ := h.signature
    exact ⟨t, params, variadic, (hext #[]).global _ _ ht, hshape⟩

namespace Context.WellTyped

/-- Some entities have changed, to sound ones. -/
theorem step (h : c.WellTyped) (hext : ∀ locals, (c.envWith locals).Extends (d.envWith locals))
    (hglobals : ∀ id, d.global id = c.global id ∨ (d.global id).Sound)
    (hstructs : ∀ id, ((d.struct id).state = (c.struct id).state ∧
      (d.struct id).fields = (c.struct id).fields) ∨ (d.struct id).Sound (d.envWith #[]))
    (hbodies : d.bodies = c.bodies) : d.WellTyped where
  globals id := (hglobals id).elim (fun hid => hid ▸ h.globals id) fun hid => hid
  structs id := by
    rcases hstructs id with ⟨hstate, hfields⟩ | hid
    · have hsound := (h.structs id).mono (hext #[])
      exact ⟨fun hs => hfields.trans (hsound.fields (hstate ▸ hs)), fun f hf =>
        hsound.defaults f (hfields ▸ hf)⟩
    · exact hid
  bodies body hbody := (h.bodies body (hbodies ▸ hbody)).mono hext

end Context.WellTyped

namespace Check

/-- A context is well typed, and has kept what an earlier one knew. -/
structure Elaborated (origin c : Context) : Prop where
  keeps : origin.Keeps c
  wellTyped : c.WellTyped

theorem Elaborated.self (h : Elaborated origin c) : Elaborated c c := ⟨.refl c, h.wellTyped⟩

/-- Only the entities and the bodies matter. -/
theorem Elaborated.of_eq (h : Elaborated origin c) (hglobals : d.globals = c.globals)
    (hstructs : d.structs = c.structs) (hbodies : d.bodies = c.bodies) : Elaborated origin d := by
  have hglobal := global_of_eq hglobals
  have hstruct := struct_of_eq hstructs
  have hkeeps : c.Keeps d := by
    refine ⟨by rw [hglobals], by rw [hstructs], fun id _ => hglobal id, fun id _ => by rw [hglobal],
      fun id _ _ => by rw [hstruct]; exact ⟨rfl, rfl⟩⟩
  refine ⟨h.keeps.trans hkeeps, h.wellTyped.step hkeeps.extends (fun id => .inl (hglobal id))
    (fun id => .inl ?_) hbodies⟩
  rw [hstruct]
  exact ⟨rfl, rfl⟩

theorem elaborated_additive : Additive (Elaborated origin) where
  global c g pending hstate _ h := by
    have hpush := global_push c g pending
    have hkeeps : c.Keeps { c with globals := c.globals.push g, pending } := by
      refine ⟨by simp, le_rfl, fun id hid => ?_, fun id hid => ?_, fun id _ _ => ⟨rfl, rfl⟩⟩
      · rw [hpush, if_neg hid.lt.ne]
      · rw [hpush, if_neg hid.ne]
    refine ⟨h.keeps.trans hkeeps, h.wellTyped.step hkeeps.extends (fun id => ?_)
      (fun id => .inl ⟨rfl, rfl⟩) rfl⟩
    rw [hpush]
    split
    · refine .inr fun decl owner t _ hcomplete => ?_
      simp [hstate] at hcomplete
    · exact .inl rfl
  struct c s hstate hfields h := by
    have hpush := struct_push c s
    have hkeeps : c.Keeps { c with structs := c.structs.push s } := by
      refine ⟨le_rfl, by simp, fun id _ => rfl, fun id _ => rfl, fun id hid _ => ?_⟩
      rw [hpush, if_neg hid.ne]
      exact ⟨rfl, rfl⟩
    refine ⟨h.keeps.trans hkeeps, h.wellTyped.step hkeeps.extends (fun id => .inl rfl)
      (fun id => ?_) rfl⟩
    rw [hpush]
    split
    · refine .inr ⟨fun _ => hfields, fun f hf => ?_⟩
      simp [hfields] at hf
    · exact .inl ⟨rfl, rfl⟩
  member c id members h := by
    have hmember (other) := struct_modifyStruct c id other fun s =>
      { s with members := s.members ++ members }
    have hsame (other) : ((c.modifyStruct id fun s =>
          { s with members := s.members ++ members }).struct other).state = (c.struct other).state ∧
        ((c.modifyStruct id fun s =>
          { s with members := s.members ++ members }).struct other).fields =
            (c.struct other).fields := by
      rw [hmember]
      split <;> exact ⟨rfl, rfl⟩
    have hkeeps : c.Keeps (c.modifyStruct id fun s => { s with members := s.members ++ members }) :=
      ⟨le_rfl, by simp [Context.modifyStruct], fun _ _ => rfl, fun _ _ => rfl,
        fun other _ _ => hsame other⟩
    exact ⟨h.keeps.trans hkeeps, h.wellTyped.step hkeeps.extends (fun _ => .inl rfl)
      (fun other => .inl (hsame other)) rfl⟩
  typeAlias _ _ _ h := h.of_eq rfl rfl rfl
  macroDef _ _ _ _ h := h.of_eq rfl rfl rfl

/-- A global that is not settled changes, to a sound one. -/
theorem Elaborated.modifyGlobal (h : Elaborated origin c) {id : GlobalId}
    {change : Global → Global} (horigin : ¬ Settled (origin.global id))
    (hid : c.typeOf? id = none) (hkind : ∀ g, (change g).kind = g.kind)
    (hsound : id.index < c.globals.size → (change (c.global id)).Sound) :
    Elaborated origin (c.modifyGlobal id change) := by
  have heq {other : GlobalId} (hother : id.index = other.index) : id = other := by
    cases id
    cases other
    exact congrArg GlobalId.mk hother
  have hmodify := global_modifyGlobal c id
  refine ⟨⟨?_, h.keeps.structCount, fun other hother => ?_, fun other hother => ?_,
    h.keeps.structs⟩, h.wellTyped.step (fun locals => ⟨fun other t ht => ?_, fun _ _ hts => hts,
      fun _ _ ht => ht⟩) (fun other => ?_) (fun _ => .inl ⟨rfl, rfl⟩) rfl⟩
  · simpa [Context.modifyGlobal] using h.keeps.globalCount
  · rw [hmodify, if_neg ?_]
    · exact h.keeps.settled other hother
    · rintro ⟨hindex, -⟩
      exact horigin (heq hindex ▸ hother)
  · have hkinds := h.keeps.kinds other hother
    rw [hmodify]
    split
    · rw [hkind, hkinds]
    · exact hkinds
  · have hne : id ≠ other := by
      rintro rfl
      cases hid.symm.trans ht
    have hother : (c.modifyGlobal id change).global other = c.global other := by
      rw [hmodify, if_neg fun hindex => hne (heq hindex.1)]
    show (c.modifyGlobal id change).typeOf? other = some t
    unfold Context.typeOf?
    rw [hother]
    exact ht
  · rw [hmodify]
    split
    · rename_i hindex
      have hsame := heq hindex.1
      subst hsame
      exact .inr (hsound hindex.2)
    · exact .inl rfl

/-- A struct that is not complete changes, to a sound one. -/
theorem Elaborated.modifyStruct (h : Elaborated origin c) {id : StructId}
    {change : StructDef → StructDef}
    (horigin : id.index < origin.structs.size → (origin.struct id).state = .declared)
    (hid : (c.struct id).state ≠ .complete)
    (hsound : (change (c.struct id)).Sound (c.envWith #[])) :
    Elaborated origin (c.modifyStruct id change) := by
  have heq {other : StructId} (hother : id.index = other.index) : id = other := by
    cases id
    cases other
    exact congrArg StructId.mk hother
  have hmodify := struct_modifyStruct c id
  have hext (locals) : (c.envWith locals).Extends ((c.modifyStruct id change).envWith locals) := by
    refine ⟨fun _ _ ht => ht, fun other ts hts => ?_, fun _ _ ht => ht⟩
    obtain ⟨hstate, hfields⟩ := Context.fieldTypes?_eq_some.mp hts
    have hother : (c.modifyStruct id change).struct other = c.struct other := by
      rw [hmodify, if_neg ?_]
      rintro ⟨hindex, -⟩
      exact hid (heq hindex ▸ hstate)
    refine Context.fieldTypes?_eq_some.mpr ?_
    rw [hother]
    exact ⟨hstate, hfields⟩
  refine ⟨⟨h.keeps.globalCount, ?_, h.keeps.settled, h.keeps.kinds, fun other hother hstate => ?_⟩,
    h.wellTyped.step hext (fun _ => .inl rfl) (fun other => ?_) rfl⟩
  · simpa [Context.modifyStruct] using h.keeps.structCount
  · have hsame := h.keeps.structs other hother hstate
    rw [hmodify, if_neg ?_]
    · exact hsame
    · rintro ⟨hindex, -⟩
      have hid := heq hindex
      subst hid
      exact hstate (horigin hother)
  · rw [hmodify]
    split
    · rename_i hindex
      have hsame := heq hindex.1
      subst hsame
      exact .inr (hsound.mono (hext #[]))
    · exact .inl ⟨rfl, rfl⟩

theorem elaborated_detached {α : Type} {work : Check α} (h : work.Preserves (Elaborated origin)) :
    (detached work).Preserves (Elaborated origin) := by
  intro c d hd hc
  unfold detached at hd
  obtain ⟨e, hwork, rfl⟩ := Run.ends_andFinally hd
  exact (h hwork (hc.of_eq rfl rfl rfl)).of_eq rfl rfl rfl

theorem elaborated_modifyFrame (change : Frame → Frame) :
    (modifyFrame change).Preserves (Elaborated origin) :=
  Run.preserves_modify fun _ hc => hc.of_eq rfl rfl rfl

end Check

end OwnLang
