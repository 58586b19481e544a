import Mathlib
import OwnLang.Proofs.Check.Settle
import OwnLang.Proofs.Check.Elaborate
import OwnLang.Proofs.Check.Instances

/-!
# Entities that are finished

Resolving a struct, an alias, a macro or the type of a global finishes it, and making an instance of a
template finishes the instance too: a struct that a template makes is laid out before anything else is
declared.
-/

namespace OwnLang

namespace Context

variable {c d e : Context}

/-- What was declared last is finished by what comes behind. -/
theorem Adds.settles (h : c.Adds d) (hde : d.Settles e)
    (hnew : ∀ id : StructId, c.structs.size ≤ id.index → id.index < d.structs.size →
      (e.struct id).state = .complete) : c.Settles e where
  packages := hde.packages.trans h.packages
  aliasCount := hde.aliasCount.trans (congrArg Array.size h.aliases)
  macroCount := hde.macroCount.trans (congrArg Array.size h.macros)
  bodies := hde.bodies.trans h.bodies
  entry := hde.entry.trans h.entry
  structCount := h.structCount.trans hde.structCount
  fresh id hid hlt := by
    rcases Nat.lt_or_ge id.index d.structs.size with hadded | hlater
    · exact hnew id hid hadded
    · exact hde.fresh id hlater hlt
  structs id hid := by
    refine hde.structs id ?_
    rw [h.structs id (struct_lt (by simp [hid]))]
    exact hid
  aliases id hid := by
    refine hde.aliases id ?_
    unfold typeAlias
    rw [h.aliases]
    exact hid
  macros id hid := by
    refine hde.macros id ?_
    unfold macroDef
    rw [h.macros]
    exact hid
  queues := h.queues.trans hde.queues

/-- An instance is counted before anything is declared for it. -/
structure Begins (c : Context) (bound : Nat) (d : Context) : Prop where
  settles : c.Settles d
  closed : d.Closed
  labelled : d.Labelled bound
  apart : d.Apart

theorem Coherent.begins (h : c.Coherent) {instanceCount : Nat} {inProgress : List (TemplateId × List Ty)} :
    c.Begins c.instanceCount { c with instanceCount, inProgress } where
  settles := ⟨rfl, rfl, rfl, rfl, rfl, le_rfl, fun _ hnew hlt => absurd hlt (Nat.not_lt.mpr hnew),
    fun _ h => h, fun _ h => h, fun _ h => h, queues_of_eq rfl rfl fun _ => rfl⟩
  closed := { h.closed with }
  labelled := { h.labelled with
    methods := fun id owner howner => { h.labelled.methods id owner howner with } }
  apart := ⟨h.apart.structs, h.apart.globals⟩

theorem settles_addInstance (c : Context) (id : TemplateId) (made : Instance) :
    c.Settles (c.addInstance id made) where
  packages := rfl
  aliasCount := rfl
  macroCount := rfl
  bodies := rfl
  entry := rfl
  structCount := le_rfl
  fresh _ hnew hlt := absurd hlt (Nat.not_lt.mpr hnew)
  structs _ h := h
  aliases _ h := h
  macros _ h := h
  queues := queues_of_eq rfl rfl fun _ => rfl

theorem Coherent.addInstance (h : c.Coherent) {id : TemplateId} {made : Instance}
    (hmade : c.Knows made) : (c.addInstance id made).Coherent where
  closed := { h.closed with
    templates := fun id' => by
      refine knows_list.mpr fun one hone => ?_
      rw [template_addInstance] at hone
      rcases List.mem_append.mp hone with hold | hnew
      · exact knows_list.mp (h.closed.templates id') one hold
      · split at hnew
        · rw [List.mem_singleton.mp hnew]
          exact hmade
        · cases hnew }
  labelled := { h.labelled with
    templates := fun id' => by
      rw [item_addInstance]
      exact h.labelled.templates id'
    methods := fun id owner howner => { h.labelled.methods id owner howner with } }
  apart := ⟨h.apart.structs, h.apart.globals⟩

end Context

namespace Check

open Surface (Ident)

variable {ask : Asker} {c d : Context} {scope : Scope}

/-- A struct is refused that has two functions of one name. -/
theorem clashingMember?_eq_duplicate? (taken names : List Ident) :
    clashingMember? taken names = duplicate? taken names := by
  induction names generalizing taken with
  | nil => rfl
  | cons name rest ih =>
    unfold clashingMember? duplicate?
    cases taken.find? (·.name == name.name) with
    | none => exact ih _
    | some previous => rfl

section

variable (h : Settler ask)

include h

/-! ## Structs -/

theorem settling_structWork {s : StructDef} (hs : c.Knows s) : Settling c (structWork ask s) :=
  .detached fun _ hd => settling_resolveFields h Context.knows_nil
    (hd.knows (Context.knows_structDef.mp hs).1)

theorem settles_resolveStruct {id : StructId} {usedAt : Span} (hc : c.Coherent)
    (hrun : resolveStruct ask id usedAt c = .ok ⟨⟩ d) :
    c.Settles d ∧ d.Coherent ∧ (d.struct id).state = .complete := by
  obtain ⟨rfl, hstate⟩ | ⟨hstate, fields, e, hwork, rfl, hclash⟩ := resolveStruct_eq_ok hrun
  · exact ⟨.refl d, hc, hstate⟩
  · have hknown := hc.closed.structs id
    have hstarted : c.Settles (laying c id) := Context.settles_modifyStruct fun hcomplete => by
      rw [hstate] at hcomplete
      cases hcomplete
    have hlaying : (laying c id).Coherent :=
      hc.modifyStruct rfl rfl hknown fun hcomplete => by cases hcomplete
    obtain ⟨hworked, he, hfields⟩ := settling_structWork h (hstarted.knows hknown) hlaying hwork
    have hdone : e.Settles (laidOut e id fields) := Context.settles_modifyStruct fun _ => rfl
    refine ⟨(hstarted.trans hworked).trans hdone, he.modifyStruct rfl rfl ?_ fun _ => ?_, ?_⟩
    · exact Context.knows_structDef.mpr ⟨(Context.knows_structDef.mp (he.closed.structs id)).1, hfields⟩
    · rw [clashingMember?_eq_duplicate?] at hclash
      exact (duplicate?_eq_none hclash).1
    · have hlt : id.index < e.structs.size :=
        (Context.struct_lt (by simp [hstate])).trans_le (hstarted.trans hworked).structCount
      unfold laidOut
      rw [struct_modifyStruct, if_pos ⟨rfl, hlt⟩]

/-! ## Aliases -/

omit h in
theorem resolveAlias_eq_ok {id : AliasId} {usedAt : Span} {t : Ty}
    (hrun : resolveAlias ask id usedAt c = .ok t d) :
    d = c ∧ (c.typeAlias id).state = .complete ∧ (c.typeAlias id).resolved = some t ∨
      ¬ (c.typeAlias id).Named ∧ ∃ target e,
        detached (ask (.type (c.typeAlias id).target (c.typeAlias id).scope))
          (c.modifyAlias id fun a => { a with state := .resolving }) = .ok target e ∧
        t = .mk target.shape (some (c.typeAlias id).display) ∧
        d = e.modifyAlias id fun a => { a with resolved := some t, state := .complete } := by
  unfold resolveAlias at hrun
  obtain ⟨_, _, hget, hrun⟩ := Run.bind_eq_ok.mp hrun
  cases hget
  replace hrun : Gives _ c t d := hrun
  dsimp only at hrun
  split at hrun
  case h_1 hstate hresolved =>
    cases hrun
    exact .inl ⟨rfl, hstate, hresolved⟩
  case h_2 => cases hrun
  case h_3 _ hcomplete =>
    obtain ⟨_, e, hstarted, hrun⟩ := Run.bind_eq_ok.mp hrun
    cases hstarted
    obtain ⟨target, e, hwork, hrun⟩ := Run.bind_eq_ok.mp hrun
    obtain ⟨_, e', hdone, hreturn⟩ := Run.bind_eq_ok.mp hrun
    cases hdone
    cases hreturn
    refine .inr ⟨fun hnamed' => ?_, target, e, hwork, rfl, rfl⟩
    obtain ⟨t, ht⟩ := Option.isSome_iff_exists.mp hnamed'.resolved
    exact hcomplete t hnamed'.complete ht

theorem settles_resolveAlias {id : AliasId} {usedAt : Span} {t : Ty} (hc : c.Coherent)
    (hrun : resolveAlias ask id usedAt c = .ok t d) :
    c.Settles d ∧ d.Coherent ∧ d.Knows t ∧ (id.index < c.aliases.size → (d.typeAlias id).Named) := by
  obtain ⟨rfl, hstate, hresolved⟩ | ⟨hnamed, target, e, hwork, rfl, rfl⟩ := resolveAlias_eq_ok hrun
  · refine ⟨.refl d, hc, ?_, fun _ => ⟨hstate, by simp [hresolved]⟩⟩
    exact Context.knows_option.mp (Context.knows_aliasDef.mp (hc.closed.aliases id)).2 t hresolved
  · have hknown := Context.knows_aliasDef.mp (hc.closed.aliases id)
    have hstarted : c.Settles (c.modifyAlias id fun a => { a with state := .resolving }) :=
      Context.settles_modifyAlias fun hnamed' => absurd hnamed' hnamed
    have hresolving : (c.modifyAlias id fun a => { a with state := .resolving }).Coherent :=
      hc.modifyAlias (Context.knows_aliasDef.mpr hknown)
    obtain ⟨hworked, he, htarget⟩ :=
      Settling.detached (fun _ hd => settling_type h (hd.knows (hstarted.knows hknown.1)))
        hresolving hwork
    have hdone : e.Settles (e.modifyAlias id fun a => { a with
        resolved := some (Ty.mk target.shape (some (c.typeAlias id).display)), state := .complete }) :=
      Context.settles_modifyAlias fun _ => ⟨rfl, rfl⟩
    have ht : e.Knows (Ty.mk target.shape (some (c.typeAlias id).display)) :=
      Context.knows_shape.mpr htarget
    refine ⟨(hstarted.trans hworked).trans hdone, he.modifyAlias ?_, hdone.knows ht, fun hlt => ?_⟩
    · exact Context.knows_aliasDef.mpr ⟨(Context.knows_aliasDef.mp (he.closed.aliases id)).1, ht⟩
    · rw [Context.typeAlias_modifyAlias,
        if_pos ⟨rfl, hlt.trans_eq (hstarted.trans hworked).aliasCount.symm⟩]
      exact ⟨rfl, rfl⟩

/-! ## Signatures -/

theorem settling_paramType (t : Surface.TypeExpr) (hscope : c.Knows scope) :
    Settling c (paramType ask t scope) :=
  (settling_type h hscope).bind fun resolved _ _ hknown =>
    (settling_requireValueType resolved t.span).bind fun _ _ hd _ => settling_pure (hd.knows hknown)

theorem settling_returnType (t : Option Surface.TypeExpr) (hscope : c.Knows scope) :
    Settling c (returnType ask t scope) := by
  refine (settling_writtenType h t hscope).bind fun resolved _ _ hknown => settling_pure ?_
  cases resolved with
  | none => exact Context.knows_shapePlain.mpr Context.knows_void
  | some t => exact Context.knows_some.mp hknown

omit h in
theorem knows_receiverTypes {decl : Surface.FnDecl} {owner : Option StructId}
    (howner : c.Knows owner) : c.Knows (receiverTypes d decl owner) := by
  unfold receiverTypes
  split
  · split
    · exact Context.knows_cons.mpr ⟨Context.knows_shapePlain.mpr (Context.knows_shared.mpr
        (Context.knows_shapePlain.mpr howner)), Context.knows_nil⟩
    · exact Context.knows_nil
  · exact Context.knows_nil

theorem settling_fnType {decl : Surface.FnDecl} {owner : Option StructId} (howner : c.Knows owner)
    (hscope : c.Knows scope) : Settling c (fnType ask decl owner scope) := by
  refine settling_get_bind fun _ => ?_
  refine (settling_mapM fun d hd p _ => settling_paramType h p.type (hd.knows hscope)).bind
    fun params d hd hparams => ?_
  refine (settling_returnType h _ (hd.knows hscope)).bind fun returns e he hreturns =>
    settling_pure ?_
  have hreceiver : e.Knows (receiverTypes c decl owner) := knows_receiverTypes ((hd.trans he).knows howner)
  exact Context.knows_shapePlain.mpr (Context.knows_func.mpr
    ⟨Context.knows_append.mpr ⟨hreceiver, he.knows hparams⟩, hreturns⟩)

theorem settling_constantInitializer {value : Surface.Expr} {expected : Option Ty}
    (hexpected : c.Knows expected) (hscope : c.Knows scope) :
    Settling c (constantInitializer ask value expected scope) := by
  refine (settling_value h hexpected hscope).bind fun checked d _ hchecked => ?_
  split
  · exact settling_pure (Context.knows_pair.mpr ⟨hchecked.type, Context.knows_plain _⟩)
  · exact settling_reject _ _

theorem settling_variableType {decl : Surface.VarDecl} (hscope : c.Knows scope) :
    Settling c (variableType ask decl scope) := by
  unfold variableType
  refine (settling_writtenType h _ hscope).bind fun declared d hd hdeclared => ?_
  extract_lets +onlyGivenNames withValue
  have hvalue (value) (e : Context) (he : d.Settles e) (hknown : e.Knows value) :
      Settling e (withValue value) := by
    dsimp -zeta only [withValue]
    extract_lets +onlyGivenNames withType
    have htype (t : Ty) (ht : e.Knows t) : Settling e (withType t) :=
      (settling_requireValueType t _).bind fun _ f hf _ => (settling_complete h t _).bind
        fun _ g hg _ => settling_pure (Context.knows_pair.mpr ⟨hg.knows (hf.knows ht), by
          cases value <;> simp⟩)
    split
    · exact htype _ (he.knows (Context.knows_some.mp hdeclared))
    · exact htype _ (Context.knows_pair.mp (Context.knows_some.mp hknown)).1
    · exact settling_reject_bind _ _ _
  split
  · exact hvalue _ d (.refl d) Context.knows_none
  · refine .bind ?_ fun value e he hknown => hvalue value e he hknown
    exact (settling_constantInitializer h hdeclared (hd.knows hscope)).map fun _ _ _ hv =>
      Context.knows_some.mpr hv

/-! ## Globals and macros -/

theorem settling_globalWork {g : Global} (hg : c.Knows g) : Settling c (globalWork ask g) := by
  obtain ⟨hkind, hscope, -⟩ := Context.knows_globalDef.mp hg
  unfold globalWork
  split
  · rename_i decl owner hfunction
    rw [hfunction] at hkind
    exact (settling_fnType h hkind hscope).bind fun t d _ ht =>
      settling_pure (Context.knows_pair.mpr ⟨ht, Context.knows_none⟩)
  · exact settling_variableType h hscope

theorem settling_resolveGlobal {id : GlobalId} {usedAt : Span} :
    Settling c (resolveGlobal ask id usedAt) := by
  intro hc t d hrun
  obtain ⟨rfl, ht⟩ | ⟨-, value, e, hwork, rfl⟩ := resolveGlobal_eq_ok hrun
  · obtain ⟨-, htype⟩ := Context.typeOf?_eq_some.mp ht
    exact ⟨.refl d, hc, Context.knows_option.mp
      (Context.knows_globalDef.mp (hc.closed.globals id)).2.2 t htype⟩
  · have hg := hc.closed.globals id
    have hresolving : Context.Retains fun g => { g with state := .resolving } :=
      ⟨fun _ => rfl, fun _ => rfl, fun _ => rfl⟩
    have hcomplete : Context.Retains fun g => { g with type := some t, value, state := .complete } :=
      ⟨fun _ => rfl, fun _ => rfl, fun _ => rfl⟩
    have hstarted : c.Settles (started c id) := Context.settles_modifyGlobal hresolving
    obtain ⟨hworked, he, hknown⟩ := Settling.detached (fun _ hd => settling_globalWork h
      (hd.knows (hstarted.knows hg))) (hc.modifyGlobal hresolving hg) hwork
    have ht := (Context.knows_pair.mp hknown).1
    obtain ⟨hkind, hscope, -⟩ := Context.knows_globalDef.mp (he.closed.globals id)
    have hdone : e.Settles (completed e id t value) := Context.settles_modifyGlobal hcomplete
    exact ⟨(hstarted.trans hworked).trans hdone, he.modifyGlobal hcomplete
      (Context.knows_globalDef.mpr ⟨hkind, hscope, ht⟩), hdone.knows ht⟩

theorem settles_resolveMacro {id : MacroId} (hc : c.Coherent)
    (hrun : resolveMacro ask id c = .ok ⟨⟩ d) :
    c.Settles d ∧ d.Coherent ∧
      (id.index < c.macros.size → (d.macroDef id).state = .complete) := by
  obtain ⟨hscope, -⟩ := Context.knows_macroDef.mp (hc.closed.macros id)
  unfold resolveMacro at hrun
  obtain ⟨_, _, hget, hrun⟩ := Run.bind_eq_ok.mp hrun
  cases hget
  replace hrun : Gives _ c () d := hrun
  split at hrun
  · rename_i hstate
    cases hrun
    exact ⟨.refl c, hc, fun _ => hstate⟩
  · obtain ⟨params, e, hparams, hrun⟩ := Run.bind_eq_ok.mp hrun
    obtain ⟨returns, e', hreturns, hrun⟩ := Run.bind_eq_ok.mp hrun
    cases hrun
    obtain ⟨hce, he, hknown⟩ := settling_mapM (fun d hd p _ =>
      (settling_paramType h _ (hd.knows hscope)).bind fun t _ _ ht =>
        settling_pure (Context.knows_macroParam.mpr ht)) hc hparams
    obtain ⟨hee', he', hreturn⟩ := settling_returnType h _ (hce.knows hscope) he hreturns
    have hdone : e'.Settles (e'.modifyMacro id fun m => { m with params, returns, state := .complete }) :=
      Context.settles_modifyMacro rfl
    refine ⟨(hce.trans hee').trans hdone, he'.modifyMacro (Context.knows_macroDef.mpr
      ⟨(Context.knows_macroDef.mp (he'.closed.macros id)).1, hee'.knows hknown, hreturn⟩), fun hlt => ?_⟩
    rw [Context.macroDef_modifyMacro, if_pos ⟨rfl, hlt.trans_eq (hce.trans hee').macroCount.symm⟩]

/-! ## Templates -/

omit h in
theorem knows_instanceScope {t : TemplateDef} {args : List Ty} (hargs : c.Knows args) :
    c.Knows (instanceScope t args) := by
  refine Context.knows_list.mpr fun binding hbinding => ?_
  have hmem := (List.of_mem_zip (List.mem_reverse.mp hbinding)).2
  exact Context.knows_pair.mpr ⟨Context.knows_plain _, Context.knows_list.mp hargs _ hmem⟩

theorem settling_recordInstance {id : TemplateId} {args : List Ty} {span : Span} {entity : Entity}
    (hentity : c.Knows entity) : Settling c (recordInstance ask id args span entity) := by
  refine settling_modify_bind
    (fun hc => ⟨c.settles_addInstance id { args, entity }, hc.addInstance hentity⟩) ?_
  refine .bind (α := Unit) (.detached fun d hd => ?_) fun _ d hd _ =>
    settling_pure (hd.knows (α := Entity) hentity)
  cases entity with
  | struct id => exact settling_layout h
  | global id => exact (settling_global h).bind fun _ _ _ _ => settling_pure (Context.knows_plain _)

/-- The layout of a struct that a template makes is known behind the record. -/
theorem complete_recordInstance {id : TemplateId} {args : List Ty} {span : Span} {made : StructId}
    {entity : Entity} (hc : c.Coherent) (hmade : made.index < c.structs.size)
    (hrun : recordInstance ask id args span (.struct made) c = .ok entity d) :
    (d.struct made).state = .complete := by
  obtain ⟨_, _, hrecorded, hrun⟩ := Run.bind_eq_ok.mp hrun
  cases hrecorded
  obtain ⟨_, e, hwork, hreturn⟩ := Run.bind_eq_ok.mp hrun
  cases hreturn
  obtain ⟨e, hlayout, rfl⟩ := Run.andFinally_eq_ok.mp hwork
  have hadded : (c.addInstance id ⟨args, .struct made⟩).Coherent :=
    hc.addInstance (Context.knows_structId.mpr hmade)
  have hcomplete : (e.struct made).state = .complete :=
    h.layout (((c.addInstance id _).alike_frame none).coherent hadded Context.knows_none) hlayout
  exact hcomplete

theorem settles_makeInstance {bound : Nat} {id : TemplateId} {t : TemplateDef} {path : String}
    {args : List Ty} {number : Nat} {span : Span} {entity : Entity} (hclosed : c.Closed)
    (hlabelled : c.Labelled bound) (hapart : c.Apart) (hword : t.item.kind.Worded)
    (hnumber : bound < number) (hcount : c.instanceCount = number) (hargs : c.Knows args)
    (hrun : makeInstance ask id t path args number span c = .ok entity d) :
    c.Settles d ∧ d.Coherent ∧ d.Knows entity := by
  rw [makeInstance_eq] at hrun
  obtain ⟨made, e, hdeclare, hrun⟩ := Run.bind_eq_ok.mp hrun
  obtain ⟨hstruct, hglobal⟩ := Context.makes_declareEntity hclosed hlabelled hapart hword
    (knows_instanceScope hargs) hnumber hdeclare
  have hcoherent (hmakes : c.Makes number e) : e.Coherent :=
    ⟨hmakes.closed, (hmakes.adds.instanceCount.trans hcount).symm ▸ hmakes.labelled, hmakes.apart⟩
  rcases made with _ | id' | id' | id' | id'
  · cases hrun
  · obtain ⟨hmakes, hsize⟩ := hglobal id' rfl
    obtain ⟨hsettles, hd, hknown⟩ := settling_recordInstance h Context.knows_entityGlobal
      (hcoherent hmakes) hrun
    exact ⟨hmakes.adds.settles hsettles fun id hid hadded => absurd hadded (by omega), hd, hknown⟩
  · obtain ⟨hmakes, rfl, hsize, -⟩ := hstruct id' rfl
    have hlt : c.structs.size < e.structs.size := hsize ▸ Nat.lt_succ_self _
    obtain ⟨hsettles, hd, hknown⟩ := settling_recordInstance h
      (Context.knows_structId.mpr hlt) (hcoherent hmakes) hrun
    refine ⟨hmakes.adds.settles hsettles fun id hid hadded => ?_, hd, hknown⟩
    obtain rfl : id = ⟨c.structs.size⟩ := congrArg StructId.mk (by omega)
    exact complete_recordInstance h (hcoherent hmakes) hlt hrun
  · cases hrun
  · cases hrun

theorem settling_instantiate {id : TemplateId} {args : List Ty} {span : Span} (hargs : c.Knows args) :
    Settling c (instantiate ask id args span) := by
  intro hc entity d hrun
  unfold instantiate at hrun
  obtain ⟨_, _, hget, hrun⟩ := Run.bind_eq_ok.mp hrun
  cases hget
  dsimp only at hrun
  split at hrun
  · cases hrun
  · cases hfound : (c.template id).instance? args with
    | some made =>
      rw [hfound] at hrun
      cases hrun
      obtain ⟨made, hmem, -, rfl⟩ := TemplateDef.instance?_eq_some hfound
      exact ⟨.refl c, hc, Context.knows_list.mp (hc.closed.templates id) made hmem⟩
    | none =>
      rw [hfound] at hrun
      dsimp only at hrun
      split at hrun
      · cases hrun
      · obtain ⟨_, e, hset, hrun⟩ := Run.bind_eq_ok.mp hrun
        cases hset
        obtain ⟨f, hmake, rfl⟩ := Run.andFinally_eq_ok.mp hrun
        have hstarted : c.Begins c.instanceCount { c with
            instanceCount := c.instanceCount + 1, inProgress := (id, args) :: c.inProgress } :=
          hc.begins
        obtain ⟨hsettles, hf, hknown⟩ := settles_makeInstance h hstarted.closed hstarted.labelled
          hstarted.apart (hc.labelled.templates id) (Nat.lt_succ_self _) rfl hargs hmake
        have hdone : f.Alike { f with inProgress := f.inProgress.tail } :=
          ⟨rfl, rfl, rfl, rfl, rfl, rfl, rfl, rfl, rfl, rfl⟩
        exact ⟨(hstarted.settles.trans hsettles).trans hdone.settles,
          hdone.coherent hf hf.closed.frame, hknown⟩

/-! ## Types -/

omit h in
theorem knows_member {p : Package} {name : String} (hp : c.Knows p) : c.Knows (p.member? name) := by
  refine Context.knows_option.mpr fun member hmember => ?_
  obtain ⟨found, hfound, rfl⟩ := Option.map_eq_some_iff.mp hmember
  exact (Context.knows_pair.mp (Context.knows_list.mp hp found (List.mem_of_find?_eq_some hfound))).2

omit h in
theorem knows_visibleMember (hc : c.Closed) (scope : Scope) (name : String) :
    c.Knows (c.visibleMember? scope name) := by
  refine Context.knows_option.mpr fun member hmember => ?_
  obtain ⟨p, hp, hfound⟩ := List.exists_of_findSome?_eq_some hmember
  obtain ⟨id, -, rfl⟩ := List.mem_map.mp hp
  exact Context.knows_option.mp (knows_member (hc.packages id)) member hfound

omit h in
theorem knows_memberOfPath (hc : c.Closed) {path : List Ident} {member : Option Member}
    (hfound : c.memberOfPath path scope = .ok member) : c.Knows member := by
  unfold Context.memberOfPath at hfound
  split at hfound
  · cases hfound
    exact knows_visibleMember hc scope _
  · rename_i package name
    unfold Context.packageNamed at hfound
    cases hpackage : c.findPackage package.name with
    | none =>
      rw [hpackage] at hfound
      cases hfound
    | some id =>
      rw [hpackage] at hfound
      cases hfound
      exact knows_member (hc.packages id)
  · cases hfound
    exact Context.knows_none

omit h in
theorem settling_structType {id : StructId} (hid : c.Knows id) :
    Settling c (do return (← get).structType id : Check Ty) :=
  settling_get_bind fun _ => settling_pure
    (Context.knows_shapePlain.mpr (Context.knows_struct.mpr (Context.knows_structId.mp hid)))

theorem settling_namedType {path : List Ident} {args : List Surface.TypeExpr} {span : Span}
    (hscope : c.Knows scope) : Settling c (namedType ask path args span scope) := by
  unfold namedType
  split
  · rename_i t hfound
    refine settling_pure ?_
    unfold localType? at hfound
    split at hfound
    · rcases Option.or_eq_some_iff.mp hfound with hbound | ⟨-, hbuiltin⟩
      · obtain ⟨l, l', hbindings, -⟩ := List.lookup_eq_some_iff.mp hbound
        rw [Context.knows_scope, hbindings] at hscope
        exact (Context.knows_pair.mp (Context.knows_cons.mp (Context.knows_append.mp hscope).2).1).2
      · obtain ⟨shape, hshape, rfl⟩ := Option.map_eq_some_iff.mp hbuiltin
        unfold Shape.builtin? at hshape
        split at hshape <;> cases hshape <;> exact Context.knows_of_nil rfl
    · cases hfound
  · refine settling_get_bind fun hc => (settling_ofExcept fun member hfound =>
      knows_memberOfPath hc.closed hfound).bind fun member d hd hmember => ?_
    split
    · split
      · exact settling_structType hmember
      · exact settling_reject _ _
    · split
      · exact settling_typeAlias h
      · exact settling_reject _ _
    · split
      · exact settling_reject _ _
      · refine (settling_types h _ (hd.knows hscope)).bind fun types e he htypes =>
          (settling_instantiate h htypes).bind fun entity f hf hentity => ?_
        split
        · exact settling_structType hentity
        · exact settling_reject _ _
    · exact settling_reject _ _
    · exact settling_reject _ _

theorem settling_arraySize {size : Surface.Expr} (hscope : c.Knows scope) :
    Settling c (arraySize ask size scope) := by
  refine (settling_value h (Context.knows_some.mpr (Context.knows_of_nil rfl)) hscope).bind
    fun value d _ _ => ?_
  split
  · split
    · exact settling_pure (Context.knows_plain _)
    · exact settling_reject _ _
  · exact settling_reject _ _

theorem settling_arrayType {element : Surface.TypeExpr} {constant : Bool}
    {size : Option Surface.Expr} (hscope : c.Knows scope) :
    Settling c (arrayType ask element constant size scope) := by
  refine (settling_type h hscope).bind fun held d hd hheld =>
    (settling_requireValueType held _).bind fun _ e he _ => ?_
  have harray (f : Context) (hf : e.Settles f) (n : Option Nat) :
      f.Knows (Shape.array held constant n).plain :=
    Context.knows_shapePlain.mpr (Context.knows_array.mpr (hf.knows (he.knows hheld)))
  split
  · exact settling_pure (harray e (.refl e) none)
  · exact (settling_arraySize h (he.knows (hd.knows hscope))).bind fun n f hf _ =>
      (settling_complete h held _).bind fun _ g hg _ => settling_pure (harray g (hf.trans hg) (some n))

theorem settling_resolveType {t : Surface.TypeExpr} (hscope : c.Knows scope) :
    Settling c (resolveType ask t scope) := by
  unfold resolveType
  split
  · exact settling_namedType h hscope
  · exact (settling_type h hscope).bind fun target d _ htarget =>
      settling_pure (Context.knows_shapePlain.mpr (Context.knows_owner.mpr htarget))
  · exact (settling_type h hscope).bind fun target d _ htarget =>
      settling_pure (Context.knows_shapePlain.mpr (Context.knows_shared.mpr htarget))
  · exact settling_arrayType h hscope
  · exact (settling_types h _ hscope).bind fun params d hd hparams =>
      (settling_type h (hd.knows hscope)).bind fun returns e he hreturns => settling_pure
        (Context.knows_shapePlain.mpr (Context.knows_func.mpr ⟨he.knows hparams, hreturns⟩))

end

end Check

end OwnLang
