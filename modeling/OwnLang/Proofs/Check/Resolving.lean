import Mathlib
import OwnLang.Proofs.Check.Elaborate
import OwnLang.Proofs.Check.FollowingBody
import OwnLang.Proofs.Check.Hygiene
import OwnLang.Proofs.Check.Instances
import OwnLang.Proofs.Check.Resolution
import OwnLang.Proofs.Check.Settle

/-!
# The writes of resolution

An alias, a struct or a global is resolved in three steps: it is marked (`Context.Marks`), work is
done that may resolve others, and what was found out is filled in (`Context.Fills`). The work spares
what is marked, so filling it in is a step forward, whatever the work has done.
-/

namespace OwnLang

open Surface (Ident)

namespace Context

/-- Resolution begins with an entity. -/
structure Marks (c start : Context) : Prop where
  begins : c.Continues Resolvable.Progresses start
  spares : ∀ d, start.Continues Resolvable.Spares d → c.Continues Resolvable.Spares d
  orderly : c.Orderly → start.Orderly
  macros : start.macros = c.macros
  frame : start.frame = c.frame

/-- What was found out of the entity that resolution began with at `c` is filled in at `d`. -/
structure Fills (c d e : Context) : Prop where
  spares : c.Continues Resolvable.Spares e
  fills : d.Continues Resolvable.Progresses e
  orderly : d.Orderly → e.Orderly
  macros : e.macros = d.macros
  frame : e.frame = d.frame

theorem Continues.refl {R : Relates} (hR : ∀ {α : Type} {κ : Resolvable α} (x : α), R κ x x)
    (c : Context) : c.Continues R c :=
  Shares.continues hR (c.shares_frame c.frame)

end Context

namespace Check

variable {ask : Asker} {c d : Context}

/-! ## Aliases -/

/-- The context while the target of an alias is resolved. -/
def naming (c : Context) (id : AliasId) : Context :=
  c.modifyAlias id fun a => { a with state := .resolving }

/-- The context once the target of an alias is resolved. -/
def named (c : Context) (id : AliasId) (t : Ty) : Context :=
  c.modifyAlias id fun a => { a with resolved := some t, state := .complete }

/-- Resolution may begin with an alias. -/
structure Nameless (c : Context) (id : AliasId) : Prop where
  state : (c.typeAlias id).state ≠ .resolving
  unnamed : ¬ (c.typeAlias id).Named

theorem writes_alias (t : Ty) : AliasDef.resolvable.Writes
    (fun a => { a with state := .resolving })
    (fun a => { a with resolved := some t, state := .complete }) :=
  ⟨fun _ => rfl, fun _ => rfl, fun _ h => h, fun _ => rfl, fun _ => rfl⟩

section

variable {id : AliasId} (hc : c.Definite) (h : Nameless c id)

include hc h

theorem Nameless.declared {a : AliasDef} (ha : c.aliases[id.index]? = some a) :
    AliasDef.resolvable.state a = .declared := by
  have hid : c.typeAlias id = a := by simp [Context.typeAlias, ha]
  cases hstate : a.state with
  | declared => exact hstate
  | resolving => exact absurd (hid ▸ hstate) h.state
  | complete =>
    have hresolved := (hc.aliases a (Array.mem_of_getElem? ha)).filled hstate
    exact absurd (hid ▸ ⟨hstate, hresolved⟩) h.unnamed

theorem Nameless.marks : c.Marks (naming c id) where
  begins := { Context.Continues.refl .refl c with
    aliases := retained_mark (writes_alias default) fun _ ha => h.declared hc ha }
  spares _ hd := { hd with
    aliases := hd.aliases.of_mark (writes_alias default) fun _ ha => h.declared hc ha }
  orderly hc := { hc with
    aliases := mark_exact (writes_alias default) (fun _ ha => h.declared hc.toDefinite ha) hc.aliases }
  macros := rfl
  frame := rfl

theorem Nameless.fills (hid : id.index < c.aliases.size)
    (hd : (naming c id).Continues Resolvable.Spares d) (t : Ty) : c.Fills d (named d id t) where
  spares := { hd with
    aliases := hd.aliases.of_fill (writes_alias t) fun _ ha => h.declared hc ha }
  fills := { Context.Continues.refl .refl d with
    aliases := hd.aliases.filled (writes_alias t) (Array.getElem?_eq_getElem hid) }
  orderly hd' := { hd' with
    aliases := hd.aliases.filled_exact (writes_alias t) (Array.getElem?_eq_getElem hid) rfl
      hd'.aliases }
  macros := rfl
  frame := rfl

end

theorem resolveAlias_nameless {id : AliasId} (h : Nameless c id) (usedAt : Span) :
    resolveAlias ask id usedAt c =
      (detached (ask (.type (c.typeAlias id).target (c.typeAlias id).scope)) >>= fun t => do
        let resolved : Ty := .mk t.shape (some (c.typeAlias id).display)
        modify fun d => named d id resolved
        return resolved) (naming c id) := by
  unfold resolveAlias
  rw [Run.bind_apply, Run.get_apply]
  dsimp only
  cases hstate : (c.typeAlias id).state with
  | declared => rfl
  | resolving => exact absurd hstate h.state
  | complete =>
    cases hresolved : (c.typeAlias id).resolved with
    | none => rfl
    | some t => exact absurd ⟨hstate, by simp [hresolved]⟩ h.unnamed

theorem resolveAlias_complete {id : AliasId} {t : Ty} (hstate : (c.typeAlias id).state = .complete)
    (hresolved : (c.typeAlias id).resolved = some t) (usedAt : Span) :
    resolveAlias ask id usedAt c = .ok t c := by
  unfold resolveAlias
  rw [Run.bind_apply, Run.get_apply]
  dsimp only
  rw [hstate, hresolved]
  rfl

/-- Where resolution does not begin with an alias, it does the same whatever is answered. -/
theorem resolveAlias_cases (c : Context) (id : AliasId) (usedAt : Span) :
    Nameless c id ∨
      (∃ t, (c.typeAlias id).state = .complete ∧ (c.typeAlias id).resolved = some t) ∨
        ∃ d, ∀ ask, resolveAlias ask id usedAt c = .error d c := by
  by_cases hstate : (c.typeAlias id).state = .resolving
  · refine .inr (.inr ⟨⟨.cyclicDefinition (c.typeAlias id).display, usedAt, none⟩, fun ask => ?_⟩)
    unfold resolveAlias
    rw [Run.bind_apply, Run.get_apply]
    dsimp only
    rw [hstate]
    rfl
  · by_cases hnamed : (c.typeAlias id).Named
    · obtain ⟨t, ht⟩ := Option.isSome_iff_exists.mp hnamed.resolved
      exact .inr (.inl ⟨t, hnamed.complete, ht⟩)
    · exact .inl ⟨hstate, hnamed⟩

/-! ## Structs -/

theorem writes_struct (fields : List Field) : StructDef.resolvable.Writes
    (fun s => { s with state := .resolving })
    (fun s => { s with fields, state := .complete }) :=
  ⟨fun _ => rfl, fun _ => rfl, fun _ h => h, fun _ => rfl, fun _ => rfl⟩

section

variable {id : StructId} (h : (c.struct id).state = .declared)

include h

theorem struct_declared {s : StructDef} (hs : c.structs[id.index]? = some s) :
    StructDef.resolvable.state s = .declared := by
  have hid : c.struct id = s := by simp [Context.struct, hs]
  exact hid ▸ h

theorem marks_laying : c.Marks (laying c id) where
  begins := { Context.Continues.refl .refl c with
    structs := retained_mark (writes_struct []) fun _ hs => struct_declared h hs }
  spares _ hd := { hd with
    structs := hd.structs.of_mark (writes_struct []) fun _ hs => struct_declared h hs }
  orderly hc := { hc with
    structs := mark_exact (writes_struct []) (fun _ hs => struct_declared h hs) hc.structs
    members := fun p hp m hm id' hid' => (hc.members p hp m hm id' hid').trans_eq Array.size_modify.symm
    instances := fun t ht made hmade id' hid' =>
      (hc.instances t ht made hmade id' hid').trans_eq Array.size_modify.symm }
  macros := rfl
  frame := rfl

theorem fills_laidOut {fields : List Field}
    (hfields : fields.map (·.name) = (c.struct id).decl.fields.map (·.name))
    (hd : (laying c id).Continues Resolvable.Spares d) : c.Fills d (laidOut d id fields) where
  spares := { hd with
    structs := hd.structs.of_fill (writes_struct fields) fun _ hs => struct_declared h hs }
  fills := { Context.Continues.refl .refl d with
    structs := hd.structs.filled (writes_struct fields)
      (getElem?_of_lt (Context.struct_lt (by simp [h]))) }
  orderly hd' := { hd' with
    structs := hd.structs.filled_exact (writes_struct fields)
      (getElem?_of_lt (Context.struct_lt (by simp [h]))) hfields hd'.structs
    members := fun p hp m hm id' hid' => (hd'.members p hp m hm id' hid').trans_eq Array.size_modify.symm
    instances := fun t ht made hmade id' hid' =>
      (hd'.instances t ht made hmade id' hid').trans_eq Array.size_modify.symm }
  macros := rfl
  frame := rfl

end

/-- The fields of a struct are stored, unless another member has the name of one. -/
def storeFields (id : StructId) (fields : List Field) : Check Unit := do
  let c ← get
  let names := (c.struct id).members.map fun (_, member) => (c.global member).name
  if let some (name, previous) := clashingMember? (fields.map (·.name)) names then
    Run.fail (alreadyExists "Member" name declaredHere previous.span)
  modify fun c => laidOut c id fields

theorem ends_storeFields {id : StructId} {fields : List Field} (h : (storeFields id fields).Ends c d) :
    d = c ∨ d = laidOut c id fields := by
  replace h := Run.ends_get_bind h
  dsimp only at h
  split at h
  · obtain hfail | ⟨_, _, hfail, -⟩ := Run.ends_bind h
    · exact .inl (Run.preserves_fail (P := (· = c)) _ hfail rfl)
    · cases hfail
  · exact .inr (Run.ends_modify h)

theorem resolveStruct_declared {id : StructId} (h : (c.struct id).state = .declared) (usedAt : Span) :
    resolveStruct ask id usedAt c =
      (structWork ask (c.struct id) >>= storeFields id) (laying c id) := by
  unfold resolveStruct
  rw [Run.bind_apply, Run.get_apply]
  dsimp only
  rw [h]
  rfl

theorem resolveField_name (scope : Scope) (before : List Field) (decl : Surface.VarDecl) :
    (resolveField ask scope before decl).Returns (·.name = decl.name) := by
  unfold resolveField
  extract_lets +onlyGivenNames declare
  have hdeclare : (declare ⟨⟩).Returns (·.name = decl.name) := by
    refine Run.returns_bind fun declared => ?_
    extract_lets +onlyGivenNames withDefault
    have hdefault (default) : (withDefault default).Returns (·.name = decl.name) := by
      dsimp -zeta only [withDefault]
      extract_lets +onlyGivenNames withType
      have htype (t) : (withType t).Returns (·.name = decl.name) :=
        Run.returns_bind fun _ => Run.returns_bind fun _ => .unless (Run.returns_pure rfl)
      split <;> exact Run.returns_bind htype
    split <;> exact Run.returns_bind hdefault
  split
  · exact Run.returns_bind fun _ => hdeclare
  · exact hdeclare

/-- The fields of a struct are those that are written, in that order. -/
theorem resolveFields_names (scope : Scope) (decls : List Surface.VarDecl) (done : List Field) :
    (resolveFields ask scope done decls).Returns
      fun fields => fields.map (·.name) = done.map (·.name) ++ decls.map (·.name) := by
  induction decls generalizing done with
  | nil => exact Run.returns_pure (by simp)
  | cons decl rest ih =>
    intro c fields d h
    obtain ⟨field, e, hfield, h⟩ := Run.bind_eq_ok.mp h
    rw [ih _ h]
    simp [resolveField_name _ _ _ hfield]

theorem structWork_names {s : StructDef} {fields : List Field} (h : structWork ask s c = .ok fields d) :
    fields.map (·.name) = s.decl.fields.map (·.name) := by
  obtain ⟨e, h, -⟩ := Run.andFinally_eq_ok.mp h
  exact resolveFields_names _ _ _ h

/-! ## Globals -/

theorem writes_global (t : Ty) (value : Option Const) : Global.resolvable.Writes
    (fun g => { g with state := .resolving })
    (fun g => { g with type := some t, value, state := .complete }) :=
  ⟨fun _ => rfl, fun _ => rfl, fun _ h => h, fun _ => rfl, fun _ => rfl⟩

section

variable {id : GlobalId} (hc : c.Definite) (h : ¬ Settled (c.global id))

include hc h

theorem global_declared {g : Global} (hg : c.globals[id.index]? = some g) :
    Global.resolvable.state g = .declared := by
  have hid : c.global id = g := by simp [Context.global, hg]
  rw [hid] at h
  cases hstate : g.state with
  | declared => exact hstate
  | resolving => exact absurd (.inl hstate) h
  | complete =>
    exact absurd (.inr ⟨hstate, ((hc.globals g (Array.mem_of_getElem? hg)).filled hstate).1⟩) h

theorem marks_started : c.Marks (started c id) where
  begins := { Context.Continues.refl .refl c with
    globals := retained_mark (writes_global default none) fun _ hg => global_declared hc h hg }
  spares _ hd := { hd with
    globals := hd.globals.of_mark (writes_global default none) fun _ hg => global_declared hc h hg }
  orderly hc := { hc with
    globals := mark_exact (writes_global default none)
      (fun _ hg => global_declared hc.toDefinite h hg) hc.globals }
  macros := rfl
  frame := rfl

theorem fills_completed (hid : id.index < c.globals.size) {t : Ty} {value : Option Const}
    (hvalue : value.isSome = (c.global id).initializer?.isSome)
    (hd : (started c id).Continues Resolvable.Spares d) : c.Fills d (completed d id t value) where
  spares := { hd with
    globals := hd.globals.of_fill (writes_global t value) fun _ hg => global_declared hc h hg }
  fills := { Context.Continues.refl .refl d with
    globals := hd.globals.filled (writes_global t value) (getElem?_of_lt hid) }
  orderly hd' := { hd' with
    globals := hd.globals.filled_exact (writes_global t value) (getElem?_of_lt hid) ⟨rfl, hvalue⟩
      hd'.globals }
  macros := rfl
  frame := rfl

end

theorem variableType_value {decl : Surface.VarDecl} {scope : Scope} {t : Ty} {value : Option Const}
    (h : variableType ask decl scope c = .ok (t, value) d) : value.isSome = decl.value.isSome := by
  have tail (t' : Ty) (value' : Option Const) :
      (do
        requireValueType t' decl.name.span
        ask.complete t' decl.name.span
        return (t', value') : Check (Ty × Option Const)).Returns (· = (t', value')) :=
    Run.returns_bind fun _ => Run.returns_bind fun _ => Run.returns_pure rfl
  unfold variableType at h
  obtain ⟨declared, c₁, hdeclared, h⟩ := Run.bind_eq_ok.mp h
  dsimp only at h
  cases hinit : decl.value with
  | none =>
    rw [hinit] at h
    cases declared with
    | none => cases h
    | some u => cases tail _ _ h; rfl
  | some e =>
    rw [hinit] at h
    obtain ⟨found, c₂, hfound, h⟩ := Run.bind_eq_ok.mp h
    obtain ⟨⟨u, k⟩, hconstant, rfl⟩ := Run.map_eq_ok.mp hfound
    cases declared <;> cases tail _ _ h <;> rfl

/-- A value is found out of a variable that has an initializer. -/
theorem globalWork_value {g : Global} {t : Ty} {value : Option Const}
    (h : detached (globalWork ask g) c = .ok (t, value) d) :
    value.isSome = g.initializer?.isSome := by
  obtain ⟨e, h, -⟩ := Run.andFinally_eq_ok.mp h
  unfold globalWork at h
  unfold Global.initializer?
  cases hkind : g.kind with
  | function decl owner =>
    rw [hkind] at h
    obtain ⟨u, c₁, -, hreturn⟩ := Run.bind_eq_ok.mp h
    cases hreturn
    rfl
  | storage decl =>
    rw [hkind] at h
    exact variableType_value h

theorem resolveGlobal_unsettled {id : GlobalId} (h : ¬ Settled (c.global id)) (usedAt : Span) :
    resolveGlobal ask id usedAt c = (detached (globalWork ask (c.global id)) >>= fun (t, value) => do
      modify fun c => completed c id t value
      return t) (started c id) := by
  unfold resolveGlobal
  rw [Run.bind_apply, Run.get_apply]
  dsimp only
  cases hstate : (c.global id).state with
  | declared => rfl
  | resolving => exact absurd (.inl hstate) h
  | complete =>
    cases htype : (c.global id).type with
    | none => rfl
    | some t => exact absurd (.inr ⟨hstate, by simp [htype]⟩) h

theorem resolveGlobal_complete {id : GlobalId} {t : Ty} (h : c.typeOf? id = some t) (usedAt : Span) :
    resolveGlobal ask id usedAt c = .ok t c := by
  obtain ⟨hstate, htype⟩ := Context.typeOf?_eq_some.mp h
  unfold resolveGlobal
  rw [Run.bind_apply, Run.get_apply]
  dsimp only
  rw [hstate, htype]
  rfl

/-- Where resolution does not begin with a global, it does the same whatever is answered. -/
theorem resolveGlobal_cases (c : Context) (id : GlobalId) (usedAt : Span) :
    ¬ Settled (c.global id) ∨ (∃ t, c.typeOf? id = some t) ∨
      ∃ d, ∀ ask, resolveGlobal ask id usedAt c = .error d c := by
  by_cases hsettled : Settled (c.global id)
  · rcases hsettled with hstate | ⟨hstate, htype⟩
    · refine .inr (.inr ⟨⟨if (c.global id).isInstance then .cyclicTemplate (c.global id).display
        else .cyclicDefinition (c.global id).display, usedAt, none⟩, fun ask => ?_⟩)
      unfold resolveGlobal
      rw [Run.bind_apply, Run.get_apply]
      dsimp only
      rw [hstate]
      rfl
    · obtain ⟨t, ht⟩ := Option.isSome_iff_exists.mp htype
      exact .inr (.inl ⟨t, Context.typeOf?_eq_some.mpr ⟨hstate, ht⟩⟩)
  · exact .inl hsettled

end Check

end OwnLang
