import Mathlib
import OwnLang.Proofs.Check.Declared
import OwnLang.Check.Basic

/-!
# The declarations of files

While files are declared, every struct and every function or variable of a package is a member of its package, under
the name that its symbol ends in, and every function with a body waits for it to be checked
(`Context.Declared`). Packages have different names, and none of them has two members of one name once
that was looked at (`Check.requireUnique`); so the symbols are different (`Check.apart_of_unique`).
-/

namespace OwnLang

/-- A loop whose rounds all go on: what each of them does, and where it leads. -/
theorem Run.forIn_steps {σ α : Type} {f : α → PUnit → Run σ (ForInStep PUnit)} {P : σ → Prop}
    {R : σ → σ → Prop} (hrefl : ∀ s, R s s) (htrans : ∀ {s t u}, R s t → R t u → R s u) {l : List α}
    (hf : ∀ a ∈ l, ∀ s step t, f a ⟨⟩ s = .ok step t → P s → step = .yield ⟨⟩ ∧ P t ∧ R s t)
    {s t : σ} {r : PUnit} (h : forIn l PUnit.unit f s = .ok r t) (hs : P s) :
    P t ∧ R s t ∧ ∀ a ∈ l, ∃ s' t', P s' ∧ R s s' ∧ f a ⟨⟩ s' = .ok (.yield ⟨⟩) t' ∧ R t' t := by
  induction l generalizing s with
  | nil =>
    cases h
    exact ⟨hs, hrefl _, fun _ ha => absurd ha List.not_mem_nil⟩
  | cons a rest ih =>
    rw [List.forIn_cons] at h
    obtain ⟨step, u, hstep, hrest⟩ := Run.bind_eq_ok.mp h
    obtain ⟨rfl, hu, hsu⟩ := hf a List.mem_cons_self s step u hstep hs
    obtain ⟨ht, hut, hall⟩ := ih (fun b hb => hf b (List.mem_cons_of_mem _ hb)) hrest hu
    refine ⟨ht, htrans hsu hut, fun b hb => ?_⟩
    rcases List.mem_cons.mp hb with rfl | hb
    · exact ⟨s, u, hs, hrefl s, hstep, hut⟩
    · obtain ⟨s', t', hs', hus', hb', hend⟩ := hall b hb
      exact ⟨s', t', hs', htrans hsu hus', hb', hend⟩

/-- A loop that does some work in each round: what each of them does, and where it leads. -/
theorem Run.forIn_rounds {σ α β : Type} {work : α → Run σ β} {P : σ → Prop} {R : σ → σ → Prop}
    (hrefl : ∀ s, R s s) (htrans : ∀ {s t u}, R s t → R t u → R s u) {l : List α}
    (hwork : ∀ a ∈ l, ∀ s b t, work a s = .ok b t → P s → P t ∧ R s t) {s t : σ} {r : PUnit}
    (h : (forIn l PUnit.unit fun a _ => do
      let _ ← work a
      pure (ForInStep.yield PUnit.unit) : Run σ PUnit) s = .ok r t) (hs : P s) :
    P t ∧ R s t ∧ ∀ a ∈ l, ∃ s' b t', P s' ∧ R s s' ∧ work a s' = .ok b t' ∧ R t' t := by
  obtain ⟨ht, hst, hall⟩ := Run.forIn_steps hrefl htrans (fun a ha s step t hstep hs => by
    obtain ⟨b, t', hb, hyield⟩ := Run.bind_eq_ok.mp hstep
    cases hyield
    exact ⟨rfl, hwork a ha s b t hb hs⟩) h hs
  refine ⟨ht, hst, fun a ha => ?_⟩
  obtain ⟨s', t', hs', hss', hstep, hend⟩ := hall a ha
  obtain ⟨b, t'', hb, hyield⟩ := Run.bind_eq_ok.mp hstep
  cases hyield
  exact ⟨s', b, t', hs', hss', hb, hend⟩

/-- The names of a file that become parts of symbols are words. -/
structure Surface.Module.Worded (file : Surface.Module) : Prop where
  package : IsWord file.package.name
  imports : ∀ name ∈ file.imports, IsWord name.name
  items : ∀ item ∈ file.items, item.kind.Worded

namespace Context

/-- A member of a package has its symbol from the names of the package and its own. -/
def Registers (c : Context) (symbol : String) (member : Member) : Prop :=
  ∃ (id : PackageId) (name : Surface.Ident), (name, member) ∈ (c.package id).members ∧
    IsWord name.name ∧ symbol = pathOf (c.package id).name name.name

/-- Files were declared, and nothing was resolved yet. -/
structure Declared (c : Context) : Prop where
  closed : c.Closed
  labelled : c.Labelled 0
  waiting : c.pending = c.bodied
  bodies : c.bodies = #[]
  entry : c.entry = none
  instanceCount : c.instanceCount = 0
  words : ∀ id : PackageId, id.index < c.packages.size → IsWord (c.package id).name
  packages : ∀ id id' : PackageId, id.index < c.packages.size → id'.index < c.packages.size →
    (c.package id).name = (c.package id').name → id = id'
  structs : ∀ id : StructId, id.index < c.structs.size → c.Registers (c.struct id).symbol (.struct id)
  globals : ∀ id, c.Pathed id → (c.global id).owner? = none → c.Registers (c.global id).symbol (.global id)

variable {c d : Context} {bound : Nat}

/-! ## Packages -/

theorem package_modifyPackage (c : Context) (id other : PackageId) (change : Package → Package) :
    (c.modifyPackage id change).package other =
      if id.index = other.index ∧ other.index < c.packages.size then change (c.package other)
      else c.package other := by
  unfold package modifyPackage
  rw [Array.getElem?_modify]
  by_cases hin : other.index < c.packages.size
  · by_cases hid : id.index = other.index <;> simp [hin, hid]
  · simp [hin]

theorem package_of_size_le {id : PackageId} (h : c.packages.size ≤ id.index) :
    c.package id = default := by
  unfold package
  rw [Array.getElem?_eq_none h]
  rfl

/-- A package that has members is declared. -/
theorem package_lt {id : PackageId} {member : Surface.Ident × Member}
    (h : member ∈ (c.package id).members) : id.index < c.packages.size := by
  by_contra hid
  rw [package_of_size_le (Nat.le_of_not_lt hid)] at h
  exact List.not_mem_nil h

theorem package_mem {id : PackageId} (h : id.index < c.packages.size) : c.package id ∈ c.packages := by
  unfold package
  rw [Array.getElem?_eq_getElem h]
  exact Array.getElem_mem _

/-- The context with one more package. -/
def withPackage (c : Context) (name : String) : Context :=
  { c with packages := c.packages.push { name } }

theorem package_withPackage (c : Context) (name : String) (id : PackageId) :
    (c.withPackage name).package id = if id.index = c.packages.size then { name } else c.package id := by
  unfold package withPackage
  rw [Array.getElem?_push]
  split <;> rfl

theorem findPackage_eq_some {name : String} {id : PackageId} (h : c.findPackage name = some id) :
    id.index < c.packages.size ∧ (c.package id).name = name := by
  obtain ⟨i, hi, rfl⟩ := Option.map_eq_some_iff.mp h
  obtain ⟨hlt, hname, -⟩ := Array.findIdx?_eq_some_iff_getElem.mp hi
  refine ⟨hlt, ?_⟩
  unfold package
  rw [Array.getElem?_eq_getElem hlt]
  simpa using hname

theorem findPackage_eq_none {name : String} (h : c.findPackage name = none) (id : PackageId)
    (hid : id.index < c.packages.size) : (c.package id).name ≠ name := by
  have hnone := Array.findIdx?_eq_none_iff.mp (Option.map_eq_none_iff.mp h)
  unfold package
  rw [Array.getElem?_eq_getElem hid]
  simpa using hnone _ (Array.getElem_mem hid)

theorem Declared.withPackage (h : c.Declared) {name : String} (hname : IsWord name)
    (hnone : c.findPackage name = none) : (c.withPackage name).Declared := by
  have hkept {id : PackageId} {member : Surface.Ident × Member}
      (hmember : member ∈ (c.package id).members) : (c.withPackage name).package id = c.package id := by
    rw [package_withPackage, if_neg (Nat.ne_of_lt (package_lt hmember))]
  have hregisters {symbol : String} {member : Member} (hregistered : c.Registers symbol member) :
      (c.withPackage name).Registers symbol member := by
    obtain ⟨id, ident, hmember, hword, hsymbol⟩ := hregistered
    refine ⟨id, ident, ?_, hword, ?_⟩
    · rw [hkept hmember]
      exact hmember
    · rw [hkept hmember]
      exact hsymbol
  have hsize : (c.withPackage name).packages.size = c.packages.size + 1 := Array.size_push _
  refine { h with
    closed := { h.closed with packages := fun id => ?_ }
    labelled := { h.labelled with packages := fun id => ?_, methods := fun id owner howner => ?_ }
    words := fun id hid => ?_
    packages := fun id id' hid hid' => ?_
    structs := fun id hid => hregisters (h.structs id hid)
    globals := fun id hid howner => hregisters (h.globals id hid howner) }
  · rw [package_withPackage]
    split
    · exact (knows_nil : c.Knows ([] : List (Surface.Ident × Member)))
    · exact h.closed.packages id
  · rw [package_withPackage]
    split
    · exact hname.noDot
    · exact h.labelled.packages id
  · have howns := h.labelled.methods id owner howner
    exact ⟨howns.declared, howns.member, howns.symbol, howns.word⟩
  · rw [package_withPackage]
    split
    · exact hname
    · exact h.words id (by omega)
  · rw [package_withPackage, package_withPackage]
    split <;> rename_i hnew <;> split <;> rename_i hnew'
    · intro _
      cases id
      cases id'
      simp_all
    · exact fun hsame => absurd hsame.symm (findPackage_eq_none hnone id' (by omega))
    · exact fun hsame => absurd hsame (findPackage_eq_none hnone id (by omega))
    · exact h.packages id id' (by omega) (by omega)

/-! ## Members -/

theorem Registers.mono {symbol : String} {member : Member} (h : c.Registers symbol member)
    (hnames : ∀ id, (d.package id).name = (c.package id).name)
    (hmembers : ∀ id, ∀ m ∈ (c.package id).members, m ∈ (d.package id).members) :
    d.Registers symbol member := by
  obtain ⟨id, name, hmember, hword, hsymbol⟩ := h
  exact ⟨id, name, hmembers id _ hmember, hword, by rw [hnames]; exact hsymbol⟩

/-- The context with one more member of a package. -/
def withMember (c : Context) (package : PackageId) (name : Surface.Ident) (member : Member) : Context :=
  c.modifyPackage package fun p => { p with members := p.members ++ [(name, member)] }

section

variable (package : PackageId) (name : Surface.Ident) (member : Member)

theorem size_withMember : (c.withMember package name member).packages.size = c.packages.size :=
  Array.size_modify

theorem name_withMember (id : PackageId) :
    ((c.withMember package name member).package id).name = (c.package id).name := by
  unfold withMember
  rw [package_modifyPackage]
  split <;> rfl

variable {package name member}

theorem mem_withMember {id : PackageId} {m : Surface.Ident × Member}
    (hm : m ∈ (c.package id).members) : m ∈ ((c.withMember package name member).package id).members := by
  unfold withMember
  rw [package_modifyPackage]
  split
  · exact List.mem_append_left _ hm
  · exact hm

theorem withMember_registers (hpackage : package.index < c.packages.size) (hword : IsWord name.name) :
    (c.withMember package name member).Registers (pathOf (c.package package).name name.name) member := by
  refine ⟨package, name, ?_, hword, by rw [name_withMember]⟩
  unfold withMember
  rw [package_modifyPackage, if_pos ⟨rfl, hpackage⟩]
  simp

theorem Closed.withMember (h : c.Closed) (hmember : c.Knows member) :
    (c.withMember package name member).Closed := by
  refine { h with packages := fun id => ?_ }
  unfold Context.withMember
  rw [package_modifyPackage]
  split
  · refine knows_append.mpr ⟨h.packages id, knows_cons.mpr ⟨?_, knows_nil⟩⟩
    exact knows_pair.mpr ⟨knows_plain name, hmember⟩
  · exact h.packages id

theorem Labelled.withMember (h : c.Labelled bound) :
    (c.withMember package name member).Labelled bound :=
  { h with
    packages := fun id => by rw [name_withMember]; exact h.packages id
    methods := fun id owner howner => { h.methods id owner howner with } }

end

/-- What a declaration adds is a member of its package. -/
theorem Declared.withMember (h : c.Declared) (hadds : c.Adds d) (hclosed : d.Closed)
    (hlabelled : d.Labelled 0) {package : PackageId} (hpackage : package.index < c.packages.size)
    {name : Surface.Ident} {member : Member} (hmember : d.Knows member)
    (hstructs : ∀ id : StructId, c.structs.size ≤ id.index → id.index < d.structs.size →
      member = .struct id ∧ IsWord name.name ∧
        (d.struct id).symbol = pathOf (c.package package).name name.name)
    (hglobals : ∀ id : GlobalId, c.globals.size ≤ id.index → d.Pathed id → (d.global id).owner? = none →
      member = .global id ∧ IsWord name.name ∧
        (d.global id).symbol = pathOf (c.package package).name name.name) :
    (d.withMember package name member).Declared := by
  have hpackages (id) : d.package id = c.package id := by
    unfold Context.package
    rw [hadds.packages]
  have hsize : d.packages.size = c.packages.size := congrArg Array.size hadds.packages
  have hkept {symbol : String} {m : Member} (hregistered : c.Registers symbol m) :
      (d.withMember package name member).Registers symbol m := by
    refine hregistered.mono (fun id => ?_) fun id m hm => mem_withMember ?_
    · rw [name_withMember, hpackages]
    · rw [hpackages]
      exact hm
  have hadded {m : Member} (hword : IsWord name.name) (hm : member = m) :
      (d.withMember package name member).Registers (pathOf (c.package package).name name.name) m := by
    subst hm
    rw [← hpackages]
    exact withMember_registers (hsize ▸ hpackage) hword
  exact {
    closed := hclosed.withMember hmember
    labelled := hlabelled.withMember
    waiting := by
      obtain ⟨new, hpending, hbodied⟩ := hadds.queues
      show d.pending = d.bodied
      rw [hpending, hbodied, h.waiting]
    bodies := hadds.bodies.trans h.bodies
    entry := hadds.entry.trans h.entry
    instanceCount := hadds.instanceCount.trans h.instanceCount
    words := fun id hid => by
      rw [size_withMember, hsize] at hid
      rw [name_withMember, hpackages]
      exact h.words id hid
    packages := fun id id' hid hid' => by
      rw [size_withMember, hsize] at hid hid'
      rw [name_withMember, name_withMember, hpackages, hpackages]
      exact h.packages id id' hid hid'
    structs := fun id hid => by
      show Registers _ (d.struct id).symbol _
      rcases Nat.lt_or_ge id.index c.structs.size with hold | hnew
      · rw [hadds.structs id hold]
        exact hkept (h.structs id hold)
      · obtain ⟨hm, hword, hsymbol⟩ := hstructs id hnew hid
        rw [hsymbol]
        exact hadded hword hm
    globals := fun id hid howner => by
      show Registers _ (d.global id).symbol _
      change d.Pathed id at hid
      change (d.global id).owner? = none at howner
      rcases Nat.lt_or_ge id.index c.globals.size with hold | hnew
      · have hprovided := hid.2
        rw [hadds.globals id hold] at howner hprovided ⊢
        exact hkept (h.globals id ⟨hold, hprovided⟩ howner)
      · obtain ⟨hm, hword, hsymbol⟩ := hglobals id hnew hid howner
        rw [hsymbol]
        exact hadded hword hm }

/-! ## Declarations -/

theorem Declared.withAlias (h : c.Declared) {a : AliasDef} (ha : c.Knows a) :
    (c.withAlias a).Declared := by
  refine { h with
    closed := { h.closed with aliases := fun id => ?_ }
    labelled := { h.labelled with
      methods := fun id owner howner => { h.labelled.methods id owner howner with } }
    structs := h.structs
    globals := h.globals }
  unfold Context.withAlias typeAlias
  rw [Array.getElem?_push]
  split
  · exact ha
  · exact h.closed.aliases id

/-- The context with one more template. -/
def withTemplate (c : Context) (t : TemplateDef) : Context :=
  { c with templates := c.templates.push t }

theorem template_withTemplate (c : Context) (t : TemplateDef) (id : TemplateId) :
    (c.withTemplate t).template id = if id.index = c.templates.size then t else c.template id := by
  unfold template withTemplate
  rw [Array.getElem?_push]
  split <;> rfl

theorem Declared.withTemplate (h : c.Declared) {t : TemplateDef} (ht : c.Knows t)
    (hword : t.item.kind.Worded) : (c.withTemplate t).Declared := by
  refine { h with
    closed := { h.closed with templates := fun id => ?_ }
    labelled := { h.labelled with
      templates := fun id => ?_
      methods := fun id owner howner => { h.labelled.methods id owner howner with } }
    structs := h.structs
    globals := h.globals }
  · rw [template_withTemplate]
    split
    · exact ht
    · exact h.closed.templates id
  · rw [template_withTemplate]
    split
    · exact hword
    · exact h.labelled.templates id

theorem Declared.withMacro (h : c.Declared) {m : MacroDef} (hm : c.Knows m) (package : PackageId)
    (name : String) : (c.withMacro package name m).Declared := by
  have hpackages (id) : ((c.withMacro package name m).package id).name = (c.package id).name ∧
      ((c.withMacro package name m).package id).members = (c.package id).members := by
    unfold Context.withMacro
    rw [package_modifyPackage]
    split <;> exact ⟨rfl, rfl⟩
  have hsize : (c.withMacro package name m).packages.size = c.packages.size := Array.size_modify
  have hregisters {symbol : String} {member : Member} (hregistered : c.Registers symbol member) :
      (c.withMacro package name m).Registers symbol member :=
    hregistered.mono (fun id => (hpackages id).1) fun id m hm => (hpackages id).2 ▸ hm
  refine { h with
    closed := { h.closed with packages := fun id => ?_, macros := fun id => ?_ }
    labelled := { h.labelled with
      packages := fun id => (hpackages id).1 ▸ h.labelled.packages id
      methods := fun id owner howner => { h.labelled.methods id owner howner with } }
    words := fun id hid => (hpackages id).1 ▸ h.words id (hsize ▸ hid)
    packages := fun id id' hid hid' hsame => ?_
    structs := fun id hid => hregisters (h.structs id hid)
    globals := fun id hid howner => hregisters (h.globals id hid howner) }
  · exact (knows_of_eq (congrArg Mentions.structs (hpackages id).2)).mpr (h.closed.packages id)
  · unfold Context.withMacro macroDef modifyPackage
    rw [Array.getElem?_push]
    split
    · exact hm
    · exact h.closed.macros id
  · rw [(hpackages id).1, (hpackages id').1] at hsame
    exact h.packages id id' (hsize ▸ hid) (hsize ▸ hid') hsame

/-- The global that is added stands behind the last one. -/
theorem global_withGlobal_of_le {g : Global} {id : GlobalId} (hid : c.globals.size ≤ id.index)
    (hpathed : (c.withGlobal g).Pathed id) :
    id = ⟨c.globals.size⟩ ∧ (c.withGlobal g).global id = g := by
  have hlt : id.index < c.globals.size + 1 := hpathed.1.trans_eq (Array.size_push _)
  have hnew : id.index = c.globals.size := by omega
  rw [global_withGlobal, if_pos hnew]
  exact ⟨congrArg GlobalId.mk hnew, rfl⟩

/-- The functions that come with a struct all belong to it. -/
theorem owner_newStruct {decl : Surface.StructDecl} {scope : Scope} {symbol display : String}
    {isInstance : Bool} {id : GlobalId} (hid : c.globals.size ≤ id.index) :
    (c.newStruct decl scope symbol display isInstance).Pathed id →
      ((c.newStruct decl scope symbol display isInstance).global id).owner? ≠ none := by
  refine withMethods_induction (P := fun d => d.Pathed id → (d.global id).owner? ≠ none)
    (fun hpathed => absurd hpathed.1 (Nat.not_lt.mpr hid)) fun d hd method _ hpathed => ?_
  rw [global_withMethod]
  split
  · exact Option.some_ne_none _
  · exact hd (Pathed.of_withGlobal hpathed ‹_›)

end Context

namespace Check

open Context

variable {c d : Context}

theorem declareMacro_eq_ok {decl : Surface.MacroDecl} {scope : Scope} {fullName : String}
    (h : declareMacro decl scope fullName c = .ok ⟨⟩ d) :
    ∃ m, d = c.withMacro scope.package decl.name.name m ∧ (c.Knows scope → c.Knows m) ∧ m.decl = decl := by
  unfold declareMacro at h
  obtain ⟨_, _, hget, h⟩ := Run.bind_eq_ok.mp h
  cases hget
  cases hfound : (c.package scope.package).macro? decl.name.name with
  | some existing =>
    rw [hfound] at h
    cases h
  | none =>
    rw [hfound] at h
    cases h
    refine ⟨_, rfl, fun hscope => knows_macroDef.mpr ⟨hscope, knows_nil, ?_⟩, rfl⟩
    exact knows_shapePlain.mpr knows_void

/-- The members that the declarations of files make. -/
theorem declared_declareEntity (h : c.Declared) {kind : Surface.ItemKind} (hword : kind.Worded)
    {scope : Scope} (hpackage : scope.package.index < c.packages.size) (hscope : c.Knows scope)
    {made : Option Member} (hrun : declareEntity kind scope none c = .ok made d) :
    (made = none → d.Declared) ∧
    (∀ member, made = some member → (d.withMember scope.package kind.name member).Declared) ∧
    d.packages.size = c.packages.size := by
  cases kind with
  | function decl =>
    rw [declareEntity_function] at hrun
    cases hrun
    have hpath : Numbered 0 (c.entityPath (.function decl) scope) := h.labelled.numbered_entityPath scope hword
    have hsymbol (hbody : ¬decl.body.isNone) :
        (if decl.body.isNone then decl.name.name
          else symbolAt (c.entityPath (.function decl) scope) none) =
          c.entityPath (.function decl) scope := if_neg hbody
    refine ⟨fun hnone => by (cases hnone), fun member hmember => ?_, rfl⟩
    cases hmember
    refine h.withMember ((Adds.refl c).withGlobal _)
      (h.closed.withGlobal (knows_globalDef.mpr ⟨knows_none, hscope, knows_none⟩))
      (h.labelled.withGlobal rfl (fun hbody => ?_) fun hexternal => ?_) hpackage knows_memberGlobal ?_ ?_
    · exact (hsymbol hbody).symm ▸ hpath
    · exact (congrArg IsWord (if_pos hexternal)).mpr hword
    · exact fun id hnew hlt => absurd hlt (Nat.not_lt.mpr hnew)
    · intro id hnew hpathed howner
      obtain ⟨rfl, hglobal⟩ := global_withGlobal_of_le hnew hpathed
      have hbody := hpathed.2 howner
      rw [hglobal] at hbody ⊢
      exact ⟨rfl, hword, hsymbol hbody⟩
  | struct decl =>
    rw [declareEntity_struct] at hrun
    cases hrun
    have hadds : c.Adds (c.newStruct decl scope (c.entityPath (.struct decl) scope)
        (c.entityPath (.struct decl) scope) false) := adds_newStruct
    have hopened : c.Opened (c.entityPath (.struct decl) scope) (c.newStruct decl scope
        (c.entityPath (.struct decl) scope) (c.entityPath (.struct decl) scope) false) := opened_newStruct
    have hpath : Numbered 0 (c.entityPath (.struct decl) scope) := h.labelled.numbered_entityPath scope hword.1
    refine ⟨fun hnone => by (cases hnone), fun member hmember => ?_,
      congrArg Array.size hadds.packages⟩
    cases hmember
    refine h.withMember hadds (h.closed.newStruct hscope) (h.labelled.newStruct hpath hword.2) hpackage
      (knows_memberStruct.mpr ?_) (fun id hnew hlt => ?_) fun id hnew hpathed howner =>
        absurd howner (owner_newStruct hnew hpathed)
    · rw [hopened.size]
      exact Nat.lt_succ_self _
    · rw [hopened.size] at hlt
      obtain rfl : id = ⟨c.structs.size⟩ := congrArg StructId.mk (by omega)
      exact ⟨rfl, hword.1, hopened.symbol⟩
  | global decl =>
    rw [declareEntity_global] at hrun
    cases hrun
    have hpath : Numbered 0 (c.entityPath (.global decl) scope) := h.labelled.numbered_entityPath scope hword
    refine ⟨fun hnone => by (cases hnone), fun member hmember => ?_, rfl⟩
    cases hmember
    refine h.withMember ((Adds.refl c).withGlobal _)
      (h.closed.withGlobal (knows_globalDef.mpr ⟨knows_storageKind, hscope, knows_none⟩))
      (h.labelled.withGlobal rfl (fun _ => hpath) fun hexternal => by (cases hexternal)) hpackage
      knows_memberGlobal ?_ ?_
    · exact fun id hnew hlt => absurd hlt (Nat.not_lt.mpr hnew)
    · intro id hnew hpathed _
      obtain ⟨rfl, hglobal⟩ := global_withGlobal_of_le hnew hpathed
      rw [hglobal]
      exact ⟨rfl, hword, rfl⟩
  | typeAlias name target =>
    rw [declareEntity_typeAlias] at hrun
    cases hrun
    refine ⟨fun hnone => by (cases hnone), fun member hmember => ?_, rfl⟩
    cases hmember
    have hadded := h.withAlias (a := aliasOf name target scope
      (displayAt (c.entityPath (.typeAlias name target) scope) none))
      (knows_aliasDef.mpr ⟨hscope, knows_none⟩)
    exact hadded.withMember (Adds.refl _) hadded.closed hadded.labelled hpackage
      knows_memberAlias (fun id hnew hlt => absurd hlt (Nat.not_lt.mpr hnew))
      fun id hnew hpathed => absurd hpathed.1 (Nat.not_lt.mpr hnew)
  | macroDecl decl =>
    rw [declareEntity_macroDecl] at hrun
    obtain ⟨_, e, hmacro, hreturn⟩ := Run.bind_eq_ok.mp hrun
    cases hreturn
    obtain ⟨m, rfl, hknown, -⟩ := declareMacro_eq_ok hmacro
    refine ⟨fun _ => h.withMacro (hknown hscope) _ _, fun member hmember => by (cases hmember), ?_⟩
    exact Array.size_modify

theorem declared_declareItem (h : c.Declared) {item : Surface.Item} (hword : item.kind.Worded)
    {scope : Scope} (hpackage : scope.package.index < c.packages.size) (hscope : c.Knows scope)
    (hrun : declareItem item scope c = .ok ⟨⟩ d) :
    d.Declared ∧ d.packages.size = c.packages.size := by
  unfold declareItem at hrun
  split at hrun
  · obtain ⟨made, e, hentity, hrun⟩ := Run.bind_eq_ok.mp hrun
    obtain ⟨hnone, hsome, hsize⟩ := declared_declareEntity h hword hpackage hscope hentity
    cases made with
    | none =>
      cases hrun
      exact ⟨hnone rfl, hsize⟩
    | some member =>
      cases hrun
      exact ⟨hsome member rfl, (size_withMember _ _ _).trans hsize⟩
  · cases hrun
    have htemplate : c.Knows (TemplateDef.mk scope.package item.name item.template item scope []) :=
      (knows_nil : c.Knows ([] : List Instance))
    have hadded := h.withTemplate htemplate hword
    exact ⟨hadded.withMember (Adds.refl _) hadded.closed hadded.labelled hpackage knows_memberTemplate
      (fun id hnew hlt => absurd hlt (Nat.not_lt.mpr hnew))
      (fun id hnew hpathed => absurd hpathed.1 (Nat.not_lt.mpr hnew)),
      size_withMember _ _ _⟩

theorem declared_packageId (h : c.Declared) {name : String} (hname : IsWord name) {id : PackageId}
    (hrun : packageId name c = .ok id d) :
    d.Declared ∧ id.index < d.packages.size ∧ c.packages.size ≤ d.packages.size := by
  unfold packageId at hrun
  obtain ⟨_, _, hget, hrun⟩ := Run.bind_eq_ok.mp hrun
  cases hget
  cases hfound : c.findPackage name with
  | some found =>
    rw [hfound] at hrun
    cases hrun
    exact ⟨h, (findPackage_eq_some hfound).1, le_rfl⟩
  | none =>
    rw [hfound] at hrun
    cases hrun
    have hsize : (c.withPackage name).packages.size = c.packages.size + 1 := Array.size_push _
    refine ⟨h.withPackage hname hfound, ?_, ?_⟩
    · exact (Nat.lt_succ_self _).trans_eq hsize.symm
    · exact (Nat.le_succ _).trans_eq hsize.symm

theorem declared_imports (h : c.Declared) {names : List Surface.Ident}
    (hnames : ∀ name ∈ names, IsWord name.name) {own : PackageId} {imports out : List PackageId}
    (hrun : (forIn names imports fun name imports => do
      let id ← packageId name.name
      if !imports.contains id && id != own then
        pure (ForInStep.yield (imports ++ [id]))
      else pure (ForInStep.yield imports) : Check (List PackageId)) c = .ok out d) :
    d.Declared ∧ c.packages.size ≤ d.packages.size := by
  induction names generalizing c imports with
  | nil =>
    cases hrun
    exact ⟨h, le_rfl⟩
  | cons name rest ih =>
    rw [List.forIn_cons] at hrun
    obtain ⟨step, e, hstep, hrest⟩ := Run.bind_eq_ok.mp hrun
    obtain ⟨id, e', hpackage, hyield⟩ := Run.bind_eq_ok.mp hstep
    obtain ⟨he, -, hsize⟩ := declared_packageId h (hnames name List.mem_cons_self) hpackage
    have hrestnames : ∀ other ∈ rest, IsWord other.name := fun other hother =>
      hnames other (List.mem_cons_of_mem _ hother)
    split at hyield
    · cases hyield
      obtain ⟨hd, hsize'⟩ := ih he hrestnames hrest
      exact ⟨hd, hsize.trans hsize'⟩
    · cases hyield
      obtain ⟨hd, hsize'⟩ := ih he hrestnames hrest
      exact ⟨hd, hsize.trans hsize'⟩

theorem declared_importsOf (h : c.Declared) {names : List Surface.Ident}
    (hnames : ∀ name ∈ names, IsWord name.name) {own : PackageId} {out : List PackageId}
    (hrun : importsOf own names c = .ok out d) :
    d.Declared ∧ c.packages.size ≤ d.packages.size := by
  unfold importsOf at hrun
  obtain ⟨_, _, hget, hrun⟩ := Run.bind_eq_ok.mp hrun
  cases hget
  obtain ⟨imports, e, himports, hreturn⟩ := Run.bind_eq_ok.mp hrun
  cases hreturn
  exact declared_imports h hnames himports

theorem declared_items (h : c.Declared) {items : List Surface.Item}
    (hitems : ∀ item ∈ items, item.kind.Worded) {scope : Scope}
    (hpackage : scope.package.index < c.packages.size) (hscope : scope.bindings = []) {r : PUnit}
    (hrun : (forIn items PUnit.unit fun item _ => do
      declareItem item scope
      pure (ForInStep.yield PUnit.unit) : Check PUnit) c = .ok r d) : d.Declared := by
  refine (Run.forIn_rounds (P := fun e => e.Declared ∧ scope.package.index < e.packages.size)
    (R := fun _ _ => True) (fun _ => trivial) (fun _ _ => trivial)
    (fun item hitem s _ t hdeclared hs => ?_) hrun ⟨h, hpackage⟩).1.1
  have hknown : s.Knows scope := by
    rw [knows_scope, hscope]
    exact knows_nil
  obtain ⟨hu, hsize⟩ := declared_declareItem hs.1 (hitems item hitem) hs.2 hknown hdeclared
  exact ⟨⟨hu, hsize ▸ hs.2⟩, trivial⟩

theorem declared_declareModule (h : c.Declared) {file : Surface.Module} (hfile : file.Worded)
    (hrun : declareModule file c = .ok ⟨⟩ d) : d.Declared := by
  unfold declareModule at hrun
  obtain ⟨package, e, hpackage, hrun⟩ := Run.bind_eq_ok.mp hrun
  obtain ⟨he, hlt, -⟩ := declared_packageId h hfile.package hpackage
  obtain ⟨imports, e', himports, hrun⟩ := Run.bind_eq_ok.mp hrun
  obtain ⟨he', hsize⟩ := declared_importsOf he hfile.imports himports
  obtain ⟨r, e'', hitems, hreturn⟩ := Run.bind_eq_ok.mp hrun
  cases hreturn
  exact declared_items he' hfile.items (hlt.trans_le hsize) rfl hitems

theorem declared_files (h : c.Declared) {files : List Surface.Module}
    (hfiles : ∀ file ∈ files, file.Worded) {r : PUnit}
    (hrun : (forIn files PUnit.unit fun file _ => do
      declareModule file
      pure (ForInStep.yield PUnit.unit) : Check PUnit) c = .ok r d) : d.Declared := by
  refine (Run.forIn_rounds (R := fun _ _ => True) (fun _ => trivial) (fun _ _ => trivial)
    (fun file hfile s _ t hmodule hs => ?_) hrun h).1
  exact ⟨declared_declareModule hs (hfiles file hfile) hmodule, trivial⟩

/-! ## Passes -/

/-- The type of an alias is asked for where the alias is declared. -/
def declaredAlias (ask : Asker) (id : AliasId) : Check Ty := do
  ask (.typeAlias id ((← get).typeAlias id).name.span)

/-- Aliases are resolved first, then the members of packages, and macros last. -/
theorem resolveDeclarations_eq_ok {ask : Asker} (h : resolveDeclarations ask c = .ok ⟨⟩ d) : ∃ c₁ c₂,
    (forIn (List.range c.aliases.size) PUnit.unit fun i _ => do
      let _ ← declaredAlias ask ⟨i⟩
      pure (ForInStep.yield PUnit.unit) : Check PUnit) c = .ok ⟨⟩ c₁ ∧
    (forIn (c₁.packages.toList.flatMap (·.members)) PUnit.unit fun member _ => do
      let _ ← resolveMember ask member.1 member.2
      pure (ForInStep.yield PUnit.unit) : Check PUnit) c₁ = .ok ⟨⟩ c₂ ∧
    (forIn (List.range c₂.macros.size) PUnit.unit fun i _ => do
      let _ ← resolveMacro ask ⟨i⟩
      pure (ForInStep.yield PUnit.unit) : Check PUnit) c₂ = .ok ⟨⟩ d := by
  obtain ⟨_, _, hget, h⟩ := Run.bind_eq_ok.mp h
  cases hget
  obtain ⟨_, c₁, haliases, h⟩ := Run.bind_eq_ok.mp h
  obtain ⟨_, _, hget, h⟩ := Run.bind_eq_ok.mp h
  cases hget
  obtain ⟨_, c₂, hmembers, h⟩ := Run.bind_eq_ok.mp h
  obtain ⟨_, _, hget, h⟩ := Run.bind_eq_ok.mp h
  cases hget
  obtain ⟨_, c₃, hmacros, hreturn⟩ := Run.bind_eq_ok.mp h
  cases hreturn
  exact ⟨c₁, c₂, haliases, hmembers, hmacros⟩

/-! ## Different names -/

theorem duplicate?_eq_none {seen names : List Surface.Ident} (h : duplicate? seen names = none) :
    (names.map (·.name)).Nodup ∧ ∀ name ∈ names, name.name ∉ seen.map (·.name) := by
  induction names generalizing seen with
  | nil => exact ⟨List.nodup_nil, fun _ hname => absurd hname List.not_mem_nil⟩
  | cons name rest ih =>
    unfold duplicate? at h
    cases hfound : seen.find? (·.name == name.name) with
    | some previous =>
      rw [hfound] at h
      cases h
    | none =>
      rw [hfound] at h
      have hnew : name.name ∉ seen.map (·.name) := by
        intro hmem
        obtain ⟨previous, hprevious, hsame⟩ := List.mem_map.mp hmem
        exact List.find?_eq_none.mp hfound previous hprevious (beq_iff_eq.mpr hsame)
      obtain ⟨hnodup, hrest⟩ := ih h
      have hmem (other) (hother : other ∈ rest) :
          other.name ∉ seen.map (·.name) ∧ other.name ≠ name.name := by
        simpa [not_or] using hrest other hother
      refine ⟨List.nodup_cons.mpr ⟨fun hname => ?_, hnodup⟩, List.forall_mem_cons.mpr
        ⟨hnew, fun other hother => (hmem other hother).1⟩⟩
      obtain ⟨other, hother, hsame⟩ := List.mem_map.mp hname
      exact (hmem other hother).2 hsame

theorem requireUnique_eq_ok (h : requireUnique c = .ok ⟨⟩ d) :
    d = c ∧ ∀ package ∈ c.packages, (package.members.map (·.1.name)).Nodup := by
  unfold requireUnique at h
  obtain ⟨_, _, hget, h⟩ := Run.bind_eq_ok.mp h
  cases hget
  rw [← Array.forIn_toList] at h
  obtain ⟨r, e, hloop, hreturn⟩ := Run.bind_eq_ok.mp h
  cases hreturn
  obtain ⟨rfl, -, hall⟩ := Run.forIn_steps (P := (· = c)) (R := fun _ _ => True) (fun _ => trivial)
    (fun _ _ => trivial) (fun package _ s step t hstep hs => by
      cases hfound : duplicate? [] (package.members.map (·.1)) <;> rw [hfound] at hstep <;> cases hstep
      exact ⟨rfl, hs, trivial⟩) hloop rfl
  refine ⟨rfl, fun package hpackage => ?_⟩
  obtain ⟨s, t, -, -, hstep, -⟩ := hall package (Array.mem_toList_iff.mpr hpackage)
  cases hfound : duplicate? [] (package.members.map (·.1)) with
  | some found =>
    rw [hfound] at hstep
    cases hstep
  | none =>
    have hnodup := (duplicate?_eq_none hfound).1
    rwa [List.map_map] at hnodup

/-- Entities that different members of packages stand for have different symbols. -/
theorem registers_inj (h : c.Declared)
    (hunique : ∀ package ∈ c.packages, (package.members.map (·.1.name)).Nodup) {symbol : String}
    {member member' : Member} (hm : c.Registers symbol member) (hm' : c.Registers symbol member') :
    member = member' := by
  obtain ⟨id, name, hmem, hword, rfl⟩ := hm
  obtain ⟨id', name', hmem', hword', hsame⟩ := hm'
  obtain ⟨hpackages, hnames⟩ := pathOf_inj hword hword' hsame
  obtain rfl := h.packages id id' (package_lt hmem) (package_lt hmem') hpackages
  exact congrArg Prod.snd (List.inj_on_of_nodup_map (hunique _ (package_mem (package_lt hmem))) hmem
    hmem' hnames)

/-- Entities have different symbols once the names of members are. -/
theorem apart_of_unique (h : c.Declared)
    (hunique : ∀ package ∈ c.packages, (package.members.map (·.1.name)).Nodup) : c.Apart where
  structs id id' hid hid' hsymbol := by
    have hsame := registers_inj h hunique (h.structs id hid) (hsymbol ▸ h.structs id' hid')
    exact Member.struct.inj hsame
  globals id id' hid howner hid' howner' hsymbol := by
    have hsame := registers_inj h hunique (h.globals id hid howner) (hsymbol ▸ h.globals id' hid' howner')
    exact Member.global.inj hsame

end Check

end OwnLang
