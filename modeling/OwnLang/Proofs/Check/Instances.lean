import Mathlib
import OwnLang.Proofs.Check.Declare
import OwnLang.Proofs.Check.Invariant
import OwnLang.Proofs.Ty.Same

/-!
# What templates have made

Instances are asked for while other instances are being resolved, also of the same template. Yet no
template makes two things for the same types: nothing is resolved between the look at the record and
the entry into it, only an entity declared, and the entity is new. So the record stays free of
duplicates (`Context.Distinct`) and only grows (`Context.Grows`), in every run and where runs fail.
-/

namespace OwnLang

namespace TemplateDef

/-- What a template has made. -/
def entities (t : TemplateDef) : List Entity := t.instances.map (·.entity)

/-- The types that a template was asked for, whatever their aliases. -/
def argTuples (t : TemplateDef) : List (List Ty) := t.instances.map fun made => made.args.map Ty.bare

end TemplateDef

namespace Context

/-- Whether an entity is declared. -/
def declares (c : Context) : Entity → Prop
  | .struct id => id.index < c.structs.size
  | .global id => id.index < c.globals.size

/-- What all templates have made. -/
def made (c : Context) : List Entity :=
  c.templates.toList.flatMap (·.entities)

/-- The record of instances has no duplicates: no template has two for the same types, and nothing
is in the record twice. -/
structure Distinct (c : Context) : Prop where
  args : ∀ t ∈ c.templates.toList, t.argTuples.Nodup
  entities : c.made.Nodup
  declared : ∀ entity ∈ c.made, c.declares entity

/-- The templates are still there, and their records have only got longer. -/
structure Grows (c d : Context) : Prop where
  size : c.templates.size ≤ d.templates.size
  params : ∀ id, id.index < c.templates.size → (d.template id).params = (c.template id).params
  instances : ∀ id, (c.template id).instances <+: (d.template id).instances

/-- The templates of a context, and at least how many structs and globals it has. -/
structure Holds (templates : Array TemplateDef) (structs globals : Nat) (c : Context) : Prop where
  templates : c.templates = templates
  structs : structs ≤ c.structs.size
  globals : globals ≤ c.globals.size

variable {c d e : Context}

theorem Grows.refl (c : Context) : c.Grows c :=
  ⟨le_rfl, fun _ _ => rfl, fun _ => List.prefix_rfl⟩

theorem Grows.trans (hcd : c.Grows d) (hde : d.Grows e) : c.Grows e where
  size := hcd.size.trans hde.size
  params id h := (hde.params id (h.trans_le hcd.size)).trans (hcd.params id h)
  instances id := (hcd.instances id).trans (hde.instances id)

theorem Holds.of_eq (c : Context) : Holds c.templates c.structs.size c.globals.size c :=
  ⟨rfl, le_rfl, le_rfl⟩

theorem Holds.declares (h : Holds c.templates c.structs.size c.globals.size d) {entity : Entity}
    (he : c.declares entity) : d.declares entity := by
  cases entity with
  | struct id => exact Nat.lt_of_lt_of_le he h.structs
  | global id => exact Nat.lt_of_lt_of_le he h.globals

theorem Holds.made (h : Holds c.templates c.structs.size c.globals.size d) : d.made = c.made := by
  unfold Context.made
  rw [h.templates]

theorem Holds.template (h : Holds c.templates c.structs.size c.globals.size d) (id : TemplateId) :
    d.template id = c.template id := by
  unfold Context.template
  rw [h.templates]

theorem Holds.distinct (h : Holds c.templates c.structs.size c.globals.size d) (hc : c.Distinct) :
    d.Distinct where
  args := by rw [h.templates]; exact hc.args
  entities := by rw [h.made]; exact hc.entities
  declared entity he := h.declares (hc.declared entity (h.made ▸ he))

theorem Holds.grows (h : Holds c.templates c.structs.size c.globals.size d) : c.Grows d where
  size := by rw [h.templates]
  params id _ := by rw [h.template]
  instances id := by rw [h.template]

/-! ## Entries -/

variable {id : TemplateId} {new : Instance}

theorem template_mem (h : id.index < c.templates.size) : c.template id ∈ c.templates.toList := by
  unfold template
  rw [Array.getElem?_eq_getElem h]
  exact Array.getElem_mem_toList h

/-- A template that does not exist has made nothing. -/
theorem template_cases (c : Context) (id : TemplateId) :
    c.template id ∈ c.templates.toList ∨ (c.template id).instances = [] := by
  by_cases h : id.index < c.templates.size
  · exact .inl (template_mem h)
  · right
    unfold template
    rw [Array.getElem?_eq_none (Nat.le_of_not_lt h)]
    rfl

theorem Distinct.argTuples_template (hc : c.Distinct) (id : TemplateId) :
    (c.template id).argTuples.Nodup := by
  rcases c.template_cases id with h | h
  · exact hc.args _ h
  · rw [TemplateDef.argTuples, h]
    exact List.nodup_nil

theorem Distinct.entities_template (hc : c.Distinct) (id : TemplateId) :
    (c.template id).entities.Nodup := by
  rcases c.template_cases id with h | h
  · exact (List.nodup_flatMap.mp hc.entities).1 _ h
  · rw [TemplateDef.entities, h]
    exact List.nodup_nil

theorem Distinct.template_unique (hc : c.Distinct) {id other : TemplateId} {entity : Entity}
    (h : entity ∈ (c.template id).entities) (h' : entity ∈ (c.template other).entities) :
    id = other := by
  have hlt {id : TemplateId} (h : entity ∈ (c.template id).entities) :
      id.index < c.templates.toList.length := by
    by_contra hid
    rw [template, Array.getElem?_eq_none (Nat.le_of_not_lt hid)] at h
    cases h
  have hget {id : TemplateId} (h : entity ∈ (c.template id).entities) :
      entity ∈ (c.templates.toList.get ⟨id.index, hlt h⟩).entities := by
    rwa [template, Array.getElem?_eq_getElem (hlt h)] at h
  have hdisjoint := List.pairwise_iff_getElem.mp (List.nodup_flatMap.mp hc.entities).2
  obtain hid | hid | hid := Nat.lt_trichotomy id.index other.index
  · exact absurd (hget h') (hdisjoint _ _ (hlt h) (hlt h') hid (hget h))
  · cases id
    cases other
    exact congrArg TemplateId.mk hid
  · exact absurd (hget h) (hdisjoint _ _ (hlt h') (hlt h) hid (hget h'))

theorem template_addInstance (c : Context) (id other : TemplateId) (new : Instance) :
    ((c.addInstance id new).template other).instances =
      (c.template other).instances ++
        if id.index = other.index ∧ id.index < c.templates.size then [new] else [] := by
  unfold template addInstance
  rw [Array.getElem?_modify]
  by_cases hid : id.index = other.index
  · by_cases hin : other.index < c.templates.size
    · simp [hid, hin]
    · simp [hid, hin]
  · simp [hid]

theorem item_addInstance (c : Context) (id other : TemplateId) (new : Instance) :
    ((c.addInstance id new).template other).item = (c.template other).item := by
  unfold template addInstance
  rw [Array.getElem?_modify]
  cases c.templates[other.index]? <;> simp only [Option.map_none, Option.map_some, ite_self]
  split <;> rfl

theorem templates_addInstance (new : Instance) (h : id.index < c.templates.size) :
    c.templates.toList = c.templates.toList.take id.index ++
        c.template id :: c.templates.toList.drop (id.index + 1) ∧
      (c.addInstance id new).templates.toList = c.templates.toList.take id.index ++
        { c.template id with instances := (c.template id).instances ++ [new] } ::
          c.templates.toList.drop (id.index + 1) := by
  have hlength : id.index < c.templates.toList.length := h
  have hget : c.template id = c.templates.toList[id.index] := by
    unfold template
    rw [Array.getElem?_eq_getElem h]
    rfl
  refine ⟨?_, ?_⟩
  · rw [hget, ← List.drop_eq_getElem_cons hlength, List.take_append_drop]
  · unfold addInstance
    rw [Array.toList_modify, List.modify_eq_take_cons_drop hlength, hget]

theorem addInstance_of_size_le (h : c.templates.size ≤ id.index) : c.addInstance id new = c := by
  have hmodify (f : TemplateDef → TemplateDef) : c.templates.modify id.index f = c.templates := by
    rw [← Array.toList_inj, Array.toList_modify, List.modify_eq_self h]
  unfold addInstance
  rw [hmodify]

theorem made_addInstance (h : id.index < c.templates.size) :
    (c.addInstance id new).made.Perm (new.entity :: c.made) := by
  obtain ⟨hold, hnew⟩ := templates_addInstance new h
  unfold made
  rw [hnew]
  conv => rhs; rw [hold]
  simp only [List.flatMap_append, List.flatMap_cons, TemplateDef.entities, List.map_append, List.map_cons, List.map_nil,
    List.append_assoc, List.singleton_append]
  rw [← List.append_assoc, ← List.append_assoc]
  exact List.perm_middle

theorem grows_addInstance (c : Context) (id : TemplateId) (new : Instance) :
    c.Grows (c.addInstance id new) where
  size := by simp [addInstance]
  params other h := by
    unfold template addInstance
    rw [Array.getElem?_modify, Array.getElem?_eq_getElem h]
    split <;> rfl
  instances other := by
    rw [template_addInstance]
    exact List.prefix_append _ _

/-- The templates, and one more that has made nothing yet. -/
theorem grows_addTemplate (c : Context) (added : TemplateDef) :
    c.Grows { c with templates := c.templates.push added } where
  size := by simp
  params other h := by
    unfold template
    rw [Array.getElem?_push_lt h, Array.getElem?_eq_getElem h]
  instances other := by
    unfold template
    rw [Array.getElem?_push]
    split
    case isTrue h =>
      rw [Array.getElem?_eq_none (by omega)]
      exact List.nil_prefix
    case isFalse => exact List.prefix_rfl

theorem Distinct.addTemplate (hc : c.Distinct) {added : TemplateDef} (h : added.instances = []) :
    Distinct { c with templates := c.templates.push added } := by
  have hmade : made { c with templates := c.templates.push added } = c.made := by
    simp [made, TemplateDef.entities, h]
  refine ⟨fun t ht => ?_, by rw [hmade]; exact hc.entities, fun entity he => ?_⟩
  · rw [Array.toList_push, List.mem_append, List.mem_singleton] at ht
    rcases ht with ht | rfl
    · exact hc.args t ht
    · rw [TemplateDef.argTuples, h]
      exact List.nodup_nil
  · rw [hmade] at he
    have hdeclared := hc.declared entity he
    cases entity <;> exact hdeclared

/-- A new entity for types that the template was not asked for before keeps the record free of
duplicates. -/
theorem Distinct.addInstance (hc : c.Distinct) (h : id.index < c.templates.size)
    (hargs : new.args.map Ty.bare ∉ (c.template id).argTuples)
    (hdeclared : c.declares new.entity) (hfresh : new.entity ∉ c.made) :
    (c.addInstance id new).Distinct where
  args t ht := by
    obtain ⟨hold, hnew⟩ := templates_addInstance new h
    rw [hnew, List.mem_append, List.mem_cons] at ht
    have hmem {u : TemplateDef} (hu : u ∈ c.templates.toList.take id.index ∨
        u ∈ c.templates.toList.drop (id.index + 1)) : u ∈ c.templates.toList := by
      rcases hu with hu | hu
      · exact List.mem_of_mem_take hu
      · exact List.mem_of_mem_drop hu
    rcases ht with ht | rfl | ht
    · exact hc.args t (hmem (.inl ht))
    · rw [TemplateDef.argTuples, List.map_append, List.map_singleton]
      refine List.Nodup.append (hc.args _ (template_mem h)) (List.nodup_singleton _) ?_
      rw [List.disjoint_singleton]
      exact hargs
    · exact hc.args t (hmem (.inr ht))
  entities := by
    rw [(made_addInstance h).nodup_iff, List.nodup_cons]
    exact ⟨hfresh, hc.entities⟩
  declared entity he := by
    rw [(made_addInstance h).mem_iff, List.mem_cons] at he
    rcases he with rfl | he
    · exact hdeclared
    · exact hc.declared entity he

end Context

theorem TemplateDef.instance?_eq_none {t : TemplateDef} {args : List Ty} :
    t.instance? args = none ↔ args.map Ty.bare ∉ t.argTuples := by
  simp only [TemplateDef.instance?, argTuples, Option.map_eq_none_iff, List.find?_eq_none, List.mem_map,
    not_exists, not_and, Ty.sameList_iff, Ty.bareList_eq_map]

theorem TemplateDef.instance?_eq_some {t : TemplateDef} {args : List Ty} {entity : Entity}
    (h : t.instance? args = some entity) :
    ∃ made ∈ t.instances, made.args.map Ty.bare = args.map Ty.bare ∧ made.entity = entity := by
  obtain ⟨made, hfind, rfl⟩ := Option.map_eq_some_iff.mp h
  refine ⟨made, List.mem_of_find?_eq_some hfind, ?_, rfl⟩
  have hsame := List.find?_some hfind
  rwa [Ty.sameList_iff, Ty.bareList_eq_map, Ty.bareList_eq_map] at hsame

namespace Check

/-! ## Declarations -/

theorem holds_additive {templates : Array TemplateDef} {structs globals : Nat} :
    Additive (Context.Holds templates structs globals) where
  global c g pending _ _ hc :=
    ⟨hc.templates, hc.structs, by rw [Array.size_push]; exact Nat.le_succ_of_le hc.globals⟩
  struct c d _ _ hc :=
    ⟨hc.templates, by rw [Array.size_push]; exact Nat.le_succ_of_le hc.structs, hc.globals⟩
  member c id members hc :=
    ⟨hc.templates, by simpa [Context.modifyStruct] using hc.structs, hc.globals⟩
  typeAlias c a _ hc := ⟨hc.templates, hc.structs, hc.globals⟩
  macroDef c m packages _ hc := ⟨hc.templates, hc.structs, hc.globals⟩

theorem declareFunction_fresh {decl : Surface.FnDecl} {scope : Scope} {owner : Option StructId}
    {symbol display : String} {isInstance : Bool} {c d : Context} {id : GlobalId}
    (h : declareFunction decl scope owner symbol display isInstance c = .ok id d) :
    ¬ c.declares (.global id) ∧ d.declares (.global id) := by
  obtain ⟨rfl, rfl⟩ := Outcome.ok.inj h
  simp [Context.declares]

theorem declareVariable_fresh {decl : Surface.VarDecl} {scope : Scope} {symbol display : String}
    {isInstance : Bool} {c d : Context} {id : GlobalId}
    (h : declareVariable decl scope symbol display isInstance c = .ok id d) :
    ¬ c.declares (.global id) ∧ d.declares (.global id) := by
  obtain ⟨rfl, rfl⟩ := Outcome.ok.inj h
  simp [Context.declares]

theorem declareStruct_fresh {decl : Surface.StructDecl} {scope : Scope} {symbol display : String}
    {isInstance : Bool} {c d : Context} {id : StructId}
    (h : declareStruct decl scope symbol display isInstance c = .ok id d) :
    ¬ c.declares (.struct id) ∧ d.declares (.struct id) := by
  unfold declareStruct at h
  obtain ⟨_, _, hget, h⟩ := Run.bind_eq_ok.mp h
  cases hget
  obtain ⟨_, d₁, hpush, h⟩ := Run.bind_eq_ok.mp h
  cases hpush
  obtain ⟨_, d₂, hmethods, h⟩ := Run.bind_eq_ok.mp h
  cases h
  refine ⟨Nat.lt_irrefl _, ?_⟩
  have hsize := (preserves_declareMethods holds_additive _ _ _ _ _ _ (Run.ends_of_ok hmethods) (.of_eq _)).structs
  rw [Array.size_push] at hsize
  exact hsize

/-- The entity of a declaration, if a template can make one of its kind. -/
def madeEntity? : Option Member → Option Entity
  | some (.struct id) => some (.struct id)
  | some (.global id) => some (.global id)
  | _ => none

theorem declareEntity_fresh {kind : Surface.ItemKind} {scope : Scope}
    {names : Option InstanceNames} {c d : Context} {member : Option Member} {entity : Entity}
    (h : declareEntity kind scope names c = .ok member d) (he : madeEntity? member = some entity) :
    ¬ c.declares entity ∧ d.declares entity := by
  unfold declareEntity at h
  obtain ⟨_, _, hget, h⟩ := Run.bind_eq_ok.mp h
  cases hget
  dsimp only at h
  split at h
  · obtain ⟨id, hdeclare, rfl⟩ := Run.map_eq_ok.mp h
    cases he
    exact declareFunction_fresh hdeclare
  · obtain ⟨id, hdeclare, rfl⟩ := Run.map_eq_ok.mp h
    cases he
    exact declareStruct_fresh hdeclare
  · obtain ⟨id, hdeclare, rfl⟩ := Run.map_eq_ok.mp h
    cases he
    exact declareVariable_fresh hdeclare
  · obtain ⟨id, -, rfl⟩ := Run.map_eq_ok.mp h
    cases he
  · obtain ⟨_, _, _, h⟩ := Run.bind_eq_ok.mp h
    cases h
    cases he

/-! ## Instances -/

/-- Enters an entity into the record of a template, and resolves it. -/
def recordInstance (ask : Asker) (id : TemplateId) (args : List Ty) (span : Span)
    (entity : Entity) : Check Entity := do
  modify (·.addInstance id { args, entity })
  detached <| match entity with
    | .struct id => ask (.layout id span)
    | .global id => do
      let _ ← ask (.global id span)
      return ()
  return entity

theorem makeInstance_eq (ask : Asker) (id : TemplateId) (t : TemplateDef) (path : String)
    (args : List Ty) (number : Nat) (span : Span) :
    makeInstance ask id t path args number span = (do
      let member ← declareEntity t.item.kind (instanceScope t args)
        (some { number, display := instancePath path args })
      match madeEntity? member with
      | some entity => recordInstance ask id args span entity
      | none => Run.reject (.notATemplate path) span) := by
  unfold makeInstance
  refine bind_congr fun member => ?_
  rcases member with _ | ⟨_ | _ | _ | _⟩ <;> rfl

/-- The record is free of duplicates, and has grown since a context. -/
structure Recorded (origin c : Context) : Prop where
  distinct : c.Distinct
  grows : origin.Grows c

section

variable {ask : Asker} {origin : Context} (ha : ∀ q, (ask q).Preserves (Recorded origin))

theorem Recorded.of_holds {origin c d : Context} (hc : Recorded origin c)
    (h : d.Holds c.templates c.structs.size c.globals.size) : Recorded origin d :=
  ⟨h.distinct hc.distinct, hc.grows.trans h.grows⟩

/-- The record does not depend on the frame. -/
theorem recorded_detached {α : Type} {work : Check α} (h : work.Preserves (Recorded origin)) :
    (detached work).Preserves (Recorded origin) := by
  intro c d hd hc
  have hwork : (work.andFinally fun e => { e with frame := c.frame }).Preserves (Recorded origin) :=
    h.andFinally fun e he => he.of_holds ⟨rfl, le_rfl, le_rfl⟩
  exact hwork hd (hc.of_holds ⟨rfl, le_rfl, le_rfl⟩)

include ha

theorem recorded_resolve (entity : Entity) (span : Span) :
    (detached <| match entity with
      | .struct id => ask (.layout id span)
      | .global id => do
        let _ ← ask (.global id span)
        return () : Check Unit).Preserves (Recorded origin) := by
  refine recorded_detached ?_
  cases entity with
  | struct id => exact ha _
  | global id => exact (ha _).bind fun _ => Run.preserves_pure _

omit ha in
theorem Recorded.addInstance {c d : Context} {id : TemplateId} {args : List Ty} {entity : Entity}
    (hc : Recorded origin c) (hholds : d.Holds c.templates c.structs.size c.globals.size)
    (hnew : (c.template id).instance? args = none) (hfresh : ¬ c.declares entity)
    (hdeclared : d.declares entity) : Recorded origin (d.addInstance id { args, entity }) := by
  have hd := hc.of_holds hholds
  refine ⟨?_, hd.grows.trans (Context.grows_addInstance _ _ _)⟩
  by_cases hid : id.index < d.templates.size
  · refine hd.distinct.addInstance hid ?_ hdeclared fun hmade => ?_
    · rw [← TemplateDef.instance?_eq_none, hholds.template]
      exact hnew
    · exact hfresh (hc.distinct.declared entity (hholds.made ▸ hmade))
  · rw [Context.addInstance_of_size_le (Nat.le_of_not_lt hid)]
    exact hd.distinct

theorem recorded_makeInstance {c d : Context} {id : TemplateId} {t : TemplateDef} {path : String}
    {args : List Ty} {number : Nat} {span : Span} (hnew : (c.template id).instance? args = none)
    (h : (makeInstance ask id t path args number span).Ends c d) (hc : Recorded origin c) :
    Recorded origin d := by
  rw [makeInstance_eq] at h
  obtain hend | ⟨member, e, hdeclare, hend⟩ := Run.ends_bind h
  · exact hc.of_holds (preserves_declareEntity holds_additive _ _ _ hend (.of_eq c))
  have hholds := preserves_declareEntity holds_additive _ _ _ (Run.ends_of_ok hdeclare) (.of_eq c)
  cases hmade : madeEntity? member with
  | none =>
    rw [hmade] at hend
    exact Run.preserves_reject _ _ hend (hc.of_holds hholds)
  | some entity =>
    rw [hmade] at hend
    obtain ⟨hfresh, hdeclared⟩ := declareEntity_fresh hdeclare hmade
    exact (recorded_resolve ha entity span).bind (fun _ => Run.preserves_pure _)
      (Run.ends_modify_bind hend) (hc.addInstance hholds hnew hfresh hdeclared)

theorem recorded_instantiate (id : TemplateId) (args : List Ty) (span : Span) :
    (instantiate ask id args span).Preserves (Recorded origin) := by
  intro c d hd hc
  unfold instantiate at hd
  replace hd := Run.ends_get_bind hd
  dsimp only at hd
  split at hd
  · exact Run.preserves_reject _ _ hd hc
  · cases hnew : (c.template id).instance? args with
    | some entity =>
      rw [hnew] at hd
      exact Run.preserves_pure _ hd hc
    | none =>
      rw [hnew] at hd
      dsimp only at hd
      split at hd
      · exact Run.preserves_reject _ _ hd hc
      · obtain ⟨e, hmake, rfl⟩ := Run.ends_andFinally (Run.ends_set_bind hd)
        have he : Recorded origin e :=
          recorded_makeInstance ha (by exact hnew) hmake (hc.of_holds ⟨rfl, le_rfl, le_rfl⟩)
        exact he.of_holds ⟨rfl, le_rfl, le_rfl⟩

omit ha in
theorem recorded_declareTemplate (item : Surface.Item) (scope : Scope) :
    (declareTemplate item scope).Preserves (Recorded origin) := by
  unfold declareTemplate
  refine Run.preserves_get.bind fun c => (Run.preserves_modify fun d hd => ?_).bind fun _ =>
    Run.preserves_modify fun d hd => hd.of_holds ⟨rfl, le_rfl, le_rfl⟩
  exact ⟨hd.distinct.addTemplate rfl, hd.grows.trans (Context.grows_addTemplate _ _)⟩

omit ha in
theorem recorded_modifyFrame (change : Frame → Frame) :
    (modifyFrame change).Preserves (Recorded origin) :=
  Run.preserves_modify fun _ hc => hc.of_holds ⟨rfl, le_rfl, le_rfl⟩

/-- The record depends on nothing but itself and the sizes of the tables of entities. -/
theorem recorded_stable : Stable ask (Recorded origin) where
  answers q _ := ha q
  detached := recorded_detached
  consume := preserves_consume recorded_modifyFrame
  aliasStarted c id hc := hc.of_holds ⟨rfl, le_rfl, le_rfl⟩
  aliasDone c id t hc := hc.of_holds ⟨rfl, le_rfl, le_rfl⟩
  structResolved := preserves_resolveStruct (fun q _ => ha q) recorded_detached
    (fun c id hc => hc.of_holds ⟨rfl, by simp [Context.modifyStruct], le_rfl⟩) fun c id fields hc =>
      hc.of_holds ⟨rfl, by simp [Context.modifyStruct], le_rfl⟩
  macroDone c id params returns hc := hc.of_holds ⟨rfl, le_rfl, le_rfl⟩
  instantiate := recorded_instantiate ha

theorem recorded_lasting : Lasting ask (Recorded origin) where
  toStable := recorded_stable ha
  everyAnswer := ha
  agrees c d h hc := hc.of_holds ⟨h.templates, by rw [h.structs], by rw [h.globals]⟩
  bodyOpened c f _ hc := hc.of_holds ⟨rfl, le_rfl, le_rfl⟩
  bodyClosed c hc := hc.of_holds ⟨rfl, le_rfl, le_rfl⟩
  param _ _ := preserves_declareLocal recorded_modifyFrame _ _ _ _
  receiver _ _ := preserves_declareLocal recorded_modifyFrame _ _ _ _
  declared := preserves_declStmt recorded_modifyFrame (recorded_stable ha)
  packages _ _ hc := hc.of_holds ⟨rfl, le_rfl, le_rfl⟩
  entityDeclared kind scope names c d hd hc := hc.of_holds (preserves_declareEntity holds_additive _ _ _ hd (.of_eq c))
  templateDeclared := recorded_declareTemplate
  bodyTaken c _ _ _ hc := hc.of_holds ⟨rfl, le_rfl, le_rfl⟩
  bodyAccepted _ d _ _ _ _ hd := hd.of_holds ⟨rfl, le_rfl, le_rfl⟩

end

theorem recorded_answer {origin : Context} (q : Query) :
    (answer q).Preserves (Recorded origin) := by
  refine preserves_answerTo (fun ask ha => ?_) nestingBound q
  refine (recorded_lasting ha).toInvariant.step (preserves_resolveGlobal (recorded_stable ha) ?_ ?_)
  · exact fun c id hc => hc.of_holds ⟨rfl, le_rfl, by simp [Context.modifyGlobal]⟩
  · exact fun c id t value hc => hc.of_holds ⟨rfl, le_rfl, by simp [Context.modifyGlobal]⟩

/-! ## Answers from the record -/

/-- A template has made an entity for types. -/
def IsInstance (c : Context) (id : TemplateId) (args : List Ty) (entity : Entity) : Prop :=
  ∃ made ∈ (c.template id).instances,
    made.args.map Ty.bare = args.map Ty.bare ∧ made.entity = entity

variable {c d e f : Context} {id : TemplateId} {args args' : List Ty} {span : Span}
  {entity entity' : Entity}

theorem IsInstance.grows (h : IsInstance c id args entity) (hcd : c.Grows d) :
    IsInstance d id args entity := by
  obtain ⟨made, hmem, hmade⟩ := h
  exact ⟨made, (hcd.instances id).subset hmem, hmade⟩

/-- A template that does not exist makes nothing: the default stands for an alias. -/
theorem madeEntity?_alias {name : Surface.Ident} {target : Surface.TypeExpr} {scope : Scope}
    {names : Option InstanceNames} {member : Option Member}
    (h : declareEntity (.typeAlias name target) scope names c = .ok member d) :
    madeEntity? member = none := by
  obtain ⟨_, _, hget, h⟩ := Run.bind_eq_ok.mp h
  cases hget
  obtain ⟨_, -, rfl⟩ := Run.map_eq_ok.mp h
  rfl

theorem template_lt {member : Option Member} {scope : Scope} {names : Option InstanceNames}
    (h : declareEntity (c.template id).item.kind scope names c = .ok member d)
    (hmade : madeEntity? member = some entity) : id.index < c.templates.size := by
  by_contra hid
  have hdefault : c.template id = default := by
    unfold Context.template
    rw [Array.getElem?_eq_none (Nat.le_of_not_lt hid)]
    rfl
  rw [hdefault] at h
  rw [madeEntity?_alias h] at hmade
  cases hmade

theorem isInstance_makeInstance {path : String} {number : Nat} (hc : c.Distinct)
    (hnew : (c.template id).instance? args = none)
    (h : makeInstance answer id (c.template id) path args number span c = .ok entity d) :
    id.index < c.templates.size ∧ IsInstance d id args entity := by
  rw [makeInstance_eq] at h
  obtain ⟨member, e, hdeclare, h⟩ := Run.bind_eq_ok.mp h
  have hholds := preserves_declareEntity holds_additive _ _ _ (Run.ends_of_ok hdeclare) (.of_eq c)
  cases hmade : madeEntity? member with
  | none =>
    rw [hmade] at h
    cases h
  | some made =>
    rw [hmade] at h
    have hid := template_lt hdeclare hmade
    obtain ⟨hfresh, hdeclared⟩ := declareEntity_fresh hdeclare hmade
    obtain ⟨_, f, hadd, hrest⟩ := Run.bind_eq_ok.mp h
    obtain ⟨_, g, hresolve, hreturn⟩ := Run.bind_eq_ok.mp hrest
    cases hadd
    cases hreturn
    -- The record of the instance outlasts what its resolution makes.
    have hstart : Recorded (e.addInstance id { args, entity }) (e.addInstance id { args, entity }) :=
      ⟨((Recorded.mk hc (.refl c)).addInstance hholds hnew hfresh hdeclared).distinct, .refl _⟩
    have hgrows := (recorded_resolve recorded_answer _ _ (Run.ends_of_ok hresolve) hstart).grows
    refine ⟨hid, IsInstance.grows ?_ hgrows⟩
    refine ⟨{ args, entity }, ?_, rfl, rfl⟩
    rw [Context.template_addInstance, if_pos ⟨rfl, by rw [hholds.templates]; exact hid⟩]
    exact List.mem_append_right _ (List.mem_singleton_self _)

theorem isInstance_instantiate (hc : c.Distinct)
    (h : instantiate answer id args span c = .ok entity d) :
    id.index < c.templates.size ∧ args.length = (c.template id).params.length ∧
      IsInstance d id args entity := by
  unfold instantiate at h
  obtain ⟨_, _, hget, h⟩ := Run.bind_eq_ok.mp h
  cases hget
  dsimp only at h
  split at h
  · cases h
  · rename_i harity
    have harity : args.length = (c.template id).params.length := by simpa using harity
    cases hnew : (c.template id).instance? args with
    | some made =>
      rw [hnew] at h
      cases h
      obtain ⟨made, hmem, hmade⟩ := TemplateDef.instance?_eq_some hnew
      refine ⟨?_, harity, made, hmem, hmade⟩
      by_contra hid
      rw [Context.template, Array.getElem?_eq_none (Nat.le_of_not_lt hid)] at hmem
      cases hmem
    | none =>
      rw [hnew] at h
      dsimp only at h
      split at h
      · cases h
      · obtain ⟨_, e, hset, h⟩ := Run.bind_eq_ok.mp h
        cases hset
        obtain ⟨f, hmake, rfl⟩ := Run.andFinally_eq_ok.mp h
        have hc' : Context.Distinct { c with
            instanceCount := c.instanceCount + 1, inProgress := (id, args) :: c.inProgress } :=
          Context.Holds.distinct (c := c) ⟨rfl, le_rfl, le_rfl⟩ hc
        obtain ⟨hid, hmade⟩ := isInstance_makeInstance hc' hnew hmake
        exact ⟨hid, harity, hmade⟩

/-- What is in the record is answered from it, and nothing changes. -/
theorem instantiate_recorded (hc : c.Distinct) (hid : id.index < c.templates.size)
    (harity : args.length = (c.template id).params.length) (h : IsInstance c id args entity) :
    instantiate answer id args span c = .ok entity c := by
  have hfound : (c.template id).instance? args = some entity := by
    obtain ⟨made, hmem, hargs, rfl⟩ := h
    cases hlookup : (c.template id).instance? args with
    | none =>
      rw [TemplateDef.instance?_eq_none] at hlookup
      exact absurd (List.mem_map.mpr ⟨made, hmem, hargs⟩) hlookup
    | some entity =>
      obtain ⟨other, hother, hargs', rfl⟩ := TemplateDef.instance?_eq_some hlookup
      rw [List.inj_on_of_nodup_map (hc.args _ (Context.template_mem hid)) hother hmem
        (hargs'.trans hargs.symm)]
  unfold instantiate
  rw [Run.bind_apply, Run.get_apply]
  simp [harity, hfound]

end Check

namespace Session

open Check (instantiate answer)

variable {c d : Context}

theorem Later.recorded (hcd : Later c d) (hc : c.Distinct) : Check.Recorded c d :=
  hcd.keeps (Check.recorded_lasting Check.recorded_answer) ⟨hc, .refl c⟩

theorem Reachable.distinct (hc : Reachable c) : c.Distinct := by
  obtain ⟨options, hlater⟩ := hc
  refine (hlater.recorded ⟨?_, ?_, ?_⟩).distinct
  · simp
  · simp [Context.made]
  · simp [Context.made]

/-- Every context of a session identifies instances by their types: the record of a template has no
types and no entity twice, and no entity is in two records. Whatever the session does after a
template has made an entity, the same types are answered with that entity and without a change, and
other types never are. -/
theorem instance_identity (hc : Reachable c) (id : TemplateId) :
    (c.template id).argTuples.Nodup ∧ (c.template id).entities.Nodup ∧
      (∀ other entity, entity ∈ (c.template id).entities → entity ∈ (c.template other).entities →
        other = id) ∧
      ∀ args span entity d, instantiate answer id args span c = .ok entity d →
        ∀ e, Later d e →
          (∀ args' span', args'.map Ty.bare = args.map Ty.bare →
            instantiate answer id args' span' e = .ok entity e) ∧
          ∀ args' span' entity' f, args'.map Ty.bare ≠ args.map Ty.bare →
            instantiate answer id args' span' e = .ok entity' f → entity' ≠ entity := by
  have hdistinct := hc.distinct
  refine ⟨hdistinct.argTuples_template id, hdistinct.entities_template id,
    fun other entity h h' => hdistinct.template_unique h' h, ?_⟩
  intro args span entity d h e hde
  obtain ⟨hid, harity, hmade⟩ := Check.isInstance_instantiate hdistinct h
  have hd := Check.recorded_instantiate Check.recorded_answer _ _ _ (Run.ends_of_ok h)
    ⟨hdistinct, .refl c⟩
  have he := hde.recorded hd.distinct
  have hce := hd.grows.trans he.grows
  refine ⟨fun args' span' hargs => ?_, fun args' span' entity' f hargs h' heq => ?_⟩
  · refine Check.instantiate_recorded he.distinct (hid.trans_le hce.size) ?_ ?_
    · rw [hce.params id hid, ← harity]
      simpa using congrArg List.length hargs
    · obtain ⟨made, hmem, hmade⟩ := hmade.grows he.grows
      exact ⟨made, hmem, hmade.1.trans hargs.symm, hmade.2⟩
  · have hf := Check.recorded_instantiate Check.recorded_answer _ _ _ (Run.ends_of_ok h')
      ⟨he.distinct, .refl e⟩
    obtain ⟨-, -, made', hmem', hargs', hentity'⟩ := Check.isInstance_instantiate he.distinct h'
    obtain ⟨made, hmem, hargs₀, hentity⟩ := hmade.grows (he.grows.trans hf.grows)
    -- Equal entities in one record are one entry, made for one tuple of types.
    have hsame := List.inj_on_of_nodup_map (hf.distinct.entities_template id) hmem' hmem
      (hentity'.trans (heq.trans hentity.symm))
    rw [hsame] at hargs'
    exact hargs (hargs'.symm.trans hargs₀)

/-- `struct Box<T> { var content: T; }` -/
def boxModule : Surface.Module :=
  let content : Surface.VarDecl :=
    { name := ⟨"content", .null⟩, constant := false
      type := some (.mk (.named [⟨"T", .null⟩] []) .null), value := none }
  { file := "box.own", package := ⟨"box", .null⟩, imports := []
    items := [⟨.struct ⟨⟨"Box", .null⟩, [content], []⟩, [⟨"T", .null⟩], .null⟩] }

/-- Asks for boxes of `i32`, of an alias of it, and of `i64`. -/
def boxSession : Check (Entity × Entity × Entity) := do
  Check.checkModules [boxModule]
  let box ← instantiate Check.answer ⟨0⟩ [Shape.i32.plain] .null
  let again ← instantiate Check.answer ⟨0⟩ [.mk .i32 (some "box::Int")] .null
  let other ← instantiate Check.answer ⟨0⟩ [Shape.i64.plain] .null
  return (box, again, other)

/-- In a session that asks for a box of `i32` twice and then for one of `i64`, the second request
changes nothing and the third one has another answer. -/
theorem instance_identity_boxes :
    ∃ c d e, Reachable c ∧
      (∃ entity, instantiate Check.answer ⟨0⟩ [Shape.i32.plain] .null c = .ok entity d ∧
        instantiate Check.answer ⟨0⟩ [.mk .i32 (some "box::Int")] .null d = .ok entity d ∧
        ∃ other, instantiate Check.answer ⟨0⟩ [Shape.i64.plain] .null d = .ok other e ∧
          other ≠ entity) := by
  have hrun : (boxSession { options := .library }).value? =
      some (.struct ⟨0⟩, .struct ⟨0⟩, .struct ⟨1⟩) := by decide +kernel
  obtain ⟨_, hrun⟩ := Outcome.value?_eq_some.mp hrun
  obtain ⟨_, c, hmodules, hrun⟩ := Run.bind_eq_ok.mp hrun
  obtain ⟨entity, d, hbox, hrun⟩ := Run.bind_eq_ok.mp hrun
  obtain ⟨again, d', hagain, hrun⟩ := Run.bind_eq_ok.mp hrun
  obtain ⟨other, e, hother, -⟩ := Run.bind_eq_ok.mp hrun
  have hc : Reachable c := ⟨.library, .single (.modules _ (Run.ends_of_ok hmodules))⟩
  obtain ⟨-, -, -, hlater⟩ := instance_identity hc ⟨0⟩
  obtain ⟨hsame, hdifferent⟩ := hlater _ _ _ _ hbox d .refl
  have hanswer := hsame [.mk .i32 (some "box::Int")] .null rfl
  rw [hanswer] at hagain
  cases hagain
  exact ⟨c, d, e, hc, entity, hbox, hanswer, other, hother,
    hdifferent _ _ _ _ (by simp [Shape.plain, Ty.bare, Shape.bare, Shape.i32, Shape.i64]) hother⟩

end Session

end OwnLang
