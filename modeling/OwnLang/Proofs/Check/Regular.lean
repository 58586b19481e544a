import Mathlib
import OwnLang.Proofs.Check.Elaborate
import OwnLang.Proofs.Check.Moments
import OwnLang.Proofs.Check.Roll

/-!
# Regular structs

What resolution has found out about the fields of a struct, and what declaring its functions has
left behind: its fields are copyable, a complete struct has the fields of its declaration in their
order, and neither a field nor a function of it has the name of another one (`StructDef.Regular`).
The names are looked at in two places, each field against those in front of it and, once the fields
are known, each function against everything ahead of it. Functions stand with a struct under the
names they were declared with, which is what makes the second look one at the names that lookups see.
So it is at every moment of a session (`Session.Moment.regular`), for instances of templates as for
other structs.
-/

namespace OwnLang

/-- What is known of the fields and functions of a struct. -/
structure StructDef.Regular (s : StructDef) : Prop where
  copyable : ∀ f ∈ s.fields, f.type.shape.isCopyable = true
  declared : s.state = .complete → s.fields.map (·.name) = s.decl.fields.map (·.name)
  distinct : s.state = .complete → (s.fields.map (·.name.name) ++ s.members.map (·.1)).Nodup

/-- All structs are regular, and their functions stand with them under their own names. -/
structure Context.Regular (c : Context) : Prop where
  structs : ∀ id, (c.struct id).Regular
  members : ∀ id, ∀ m ∈ (c.struct id).members,
    m.2.index < c.globals.size ∧ (c.global m.2).name.name = m.1

namespace Context

variable {c d : Context}

/-- Structs have changed to regular ones with the functions that they had, and globals have kept
their names. -/
theorem Regular.of_structs (h : c.Regular) (hsize : d.globals.size = c.globals.size)
    (hnames : ∀ id, (d.global id).name = (c.global id).name)
    (hmembers : ∀ id, (d.struct id).members = (c.struct id).members)
    (hstructs : ∀ id, (d.struct id).Regular) : d.Regular where
  structs := hstructs
  members id m hm := by
    rw [hmembers] at hm
    rw [hsize, hnames]
    exact h.members id m hm

theorem Regular.of_eq (h : c.Regular) (hglobals : d.globals = c.globals)
    (hstructs : d.structs = c.structs) : d.Regular := by
  have hstruct := Check.struct_of_eq hstructs
  refine h.of_structs (by rw [hglobals]) (fun id => by rw [Check.global_of_eq hglobals])
    (fun id => by rw [hstruct]) fun id => ?_
  rw [hstruct]
  exact h.structs id

theorem Regular.modifyGlobal (h : c.Regular) (id : GlobalId) {change : Global → Global}
    (hname : ∀ g, (change g).name = g.name) : (c.modifyGlobal id change).Regular := by
  refine h.of_structs (by simp [Context.modifyGlobal]) (fun other => ?_) (fun _ => rfl) h.structs
  rw [Check.global_modifyGlobal]
  split
  · exact hname _
  · rfl

theorem Regular.modifyStruct (h : c.Regular) (id : StructId) {change : StructDef → StructDef}
    (hmembers : ∀ s, (change s).members = s.members) (hregular : (change (c.struct id)).Regular) :
    (c.modifyStruct id change).Regular := by
  have hmodify := Check.struct_modifyStruct c id
  refine h.of_structs rfl (fun _ => rfl) (fun other => ?_) fun other => ?_
  · rw [hmodify]
    split
    · exact hmembers _
    · rfl
  · rw [hmodify]
    split
    · rename_i hindex
      obtain rfl : id = other := congrArg StructId.mk hindex.1
      exact hregular
    · exact h.structs other

/-! ## Declarations -/

theorem Regular.withGlobal (h : c.Regular) (g : Global) : (c.withGlobal g).Regular where
  structs := h.structs
  members id m hm := by
    obtain ⟨hlt, hname⟩ := h.members id m hm
    have hsize : (c.withGlobal g).globals.size = c.globals.size + 1 := Array.size_push _
    rw [global_withGlobal, if_neg hlt.ne, hsize]
    exact ⟨hlt.trans (Nat.lt_succ_self _), hname⟩

/-- A new struct has neither fields nor functions. -/
theorem Regular.withStruct (h : c.Regular) {s : StructDef} (hstate : s.state = .declared)
    (hfields : s.fields = []) (hmembers : s.members = []) : (c.withStruct s).Regular where
  structs id := by
    rw [struct_withStruct]
    split
    · refine ⟨fun f hf => ?_, fun hcomplete => ?_, fun hcomplete => ?_⟩
      · rw [hfields] at hf
        cases hf
      all_goals
        rw [hstate] at hcomplete
        cases hcomplete
    · exact h.structs id
  members id m hm := by
    rw [struct_withStruct] at hm
    split at hm
    · rw [hmembers] at hm
      cases hm
    · exact h.members id m hm

/-- A struct gets its functions before its fields are resolved. -/
theorem Regular.withMethod (h : c.Regular) {owner : StructId} (howner : (c.struct owner).state = .declared)
    (g : Global) : (c.withMethod owner g).Regular where
  structs id := by
    have hid := h.structs id
    rw [struct_withMethod]
    split
    · rename_i hindex
      obtain rfl : owner = id := congrArg StructId.mk hindex.1
      have hincomplete : (c.struct owner).state ≠ .complete := by simp [howner]
      exact ⟨hid.copyable, hid.declared, fun hcomplete => absurd hcomplete hincomplete⟩
    · exact hid
  members id m hm := by
    have hsize : (c.withMethod owner g).globals.size = c.globals.size + 1 := Array.size_push _
    have hold (hm : m ∈ (c.struct id).members) :
        m.2.index < (c.withMethod owner g).globals.size ∧
          ((c.withMethod owner g).global m.2).name.name = m.1 :=
      (h.withGlobal g).members id m hm
    rw [struct_withMethod] at hm
    split at hm
    · rcases List.mem_append.mp hm with hm | hm
      · exact hold hm
      · obtain rfl := List.mem_singleton.mp hm
        rw [global_withMethod, if_pos rfl, hsize]
        exact ⟨Nat.lt_succ_self _, rfl⟩
    · exact hold hm

theorem Regular.newStruct (h : c.Regular) (decl : Surface.StructDecl) (scope : Scope)
    (symbol display : String) (isInstance : Bool) :
    (c.newStruct decl scope symbol display isInstance).Regular := by
  refine (withMethods_induction (P := fun d => d.Regular ∧ c.Opened symbol d)
    ⟨h.withStruct rfl rfl rfl, opened_withStruct⟩ fun d ⟨hregular, hopened⟩ method _ =>
      ⟨hregular.withMethod hopened.state _, hopened.withMethod _⟩).1

/-- Entities on the roll keep their declarations. -/
theorem decl_of_begins (h : c.roll.Begins d.roll) {id : StructId} (hid : id.index < c.structs.size) :
    (d.struct id).decl = (c.struct id).decl := by
  have hof {e : Context} (he : id.index < e.structs.size) :
      e.roll.structs[id.index]? = some ((e.struct id).decl, (e.struct id).members.map (·.2)) := by
    simp [roll, Context.struct, he]
  have hkept := Roll.getElem?_of_prefix h.structs (hof hid)
  have hsize : id.index < d.structs.size := by
    simpa [roll] using (List.getElem?_eq_some_iff.mp hkept).1
  rw [hof hsize] at hkept
  exact congrArg Prod.fst (Option.some.inj hkept)

end Context

namespace Check

variable {ask : Asker} {c d : Context} {r : Roll} {scope : Scope}

theorem regular_declareEntity (kind : Surface.ItemKind) (scope : Scope) (names : Option InstanceNames) :
    (declareEntity kind scope names).Preserves Context.Regular :=
  Context.preserves_declareEntity_of (fun _ _ _ _ _ _ hc => hc.withGlobal _)
    (fun _ _ _ _ _ _ hc => hc.newStruct ..) (fun _ _ _ _ _ hc => hc.withGlobal _)
    (fun _ _ hc => hc.of_eq rfl rfl) (fun _ _ _ _ _ _ hc => hc.of_eq rfl rfl)

/-! ## Layouts -/

/-- What a field comes to be: it has the name of its declaration, which no field in front of it has,
and a copyable type. -/
theorem resolveField_eq_ok {before : List Field} {decl : Surface.VarDecl} {field : Field}
    (h : resolveField ask scope before decl c = .ok field d) :
    (∀ f ∈ before, f.name.name ≠ field.name.name) ∧ field.name = decl.name ∧
      field.type.shape.isCopyable = true := by
  revert h
  change Gives _ c field d → _
  unfold resolveField
  extract_lets +onlyGivenNames declare
  have hdeclare : Gives (declare ⟨⟩) c field d →
      field.name = decl.name ∧ field.type.shape.isCopyable = true := by
    refine gives_bind fun declared c₁ _ => ?_
    extract_lets +onlyGivenNames withDefault
    have hdefault {default : Option Core.Expr} {c₂ : Context} :
        Gives (withDefault default) c₂ field d →
          field.name = decl.name ∧ field.type.shape.isCopyable = true := by
      dsimp -zeta only [withDefault]
      extract_lets +onlyGivenNames withType
      have htyped {t : Ty} : Gives (withType t) c₂ field d →
          field.name = decl.name ∧ field.type.shape.isCopyable = true := by
        dsimp -zeta only [withType]
        refine gives_bind fun _ c₃ _ => gives_bind fun _ c₄ _ h => ?_
        dsimp only [Gives] at h
        split at h
        · cases h
        · rename_i hcopyable
          cases h
          exact ⟨rfl, by simpa using hcopyable⟩
      clear_value withType
      cases declared with
      | some t => exact htyped
      | none =>
        cases default with
        | some v => exact htyped
        | none => exact fun h => by cases h
    clear_value withDefault
    cases decl.value with
    | none => exact hdefault
    | some e => exact gives_bind fun _ _ _ => hdefault
  clear_value declare
  split
  · exact fun h => by cases h
  · rename_i hnone
    intro h
    obtain ⟨hname, hcopyable⟩ := hdeclare h
    refine ⟨fun f hf hsame => ?_, hname, hcopyable⟩
    have hfound : (before.find? (·.name.name == decl.name.name)).isSome :=
      List.find?_isSome.mpr ⟨f, hf, by simp [hsame, hname]⟩
    obtain ⟨previous, hprevious⟩ := Option.isSome_iff_exists.mp hfound
    exact hnone previous hprevious

/-- Fields are resolved in the order of their declarations, and none has the name of another one. -/
theorem resolveFields_eq_ok {decls : List Surface.VarDecl} {done fields : List Field}
    (hcopyable : ∀ f ∈ done, f.type.shape.isCopyable = true)
    (hdistinct : (done.map (·.name.name)).Nodup)
    (h : resolveFields ask scope done decls c = .ok fields d) :
    (∀ f ∈ fields, f.type.shape.isCopyable = true) ∧
      fields.map (·.name) = done.map (·.name) ++ decls.map (·.name) ∧
      (fields.map (·.name.name)).Nodup := by
  induction decls generalizing c done with
  | nil =>
    cases h
    exact ⟨hcopyable, by simp, hdistinct⟩
  | cons decl rest ih =>
    obtain ⟨next, c₁, hnext, hrest⟩ := Run.bind_eq_ok.mp h
    obtain ⟨hnew, hname, hnext⟩ := resolveField_eq_ok hnext
    have hcopyable' : ∀ f ∈ done ++ [next], f.type.shape.isCopyable = true := by
      intro f hf
      rcases List.mem_append.mp hf with hf | hf
      · exact hcopyable f hf
      · rwa [List.mem_singleton.mp hf]
    have hdistinct' : ((done ++ [next]).map (·.name.name)).Nodup := by
      rw [List.map_append, List.map_singleton, ← List.concat_eq_append]
      refine hdistinct.concat fun hmem => ?_
      obtain ⟨f, hf, hsame⟩ := List.mem_map.mp hmem
      exact hnew f hf hsame
    obtain ⟨hall, hnames, hnodup⟩ := ih hcopyable' hdistinct' hrest
    refine ⟨hall, ?_, hnodup⟩
    rw [hnames, List.map_append, List.append_assoc, List.map_singleton, hname, List.map_cons]
    rfl

/-- No function clashes with anything ahead of it exactly if all the names are different. -/
theorem nodup_of_clashingMember? {taken names : List Surface.Ident} (htaken : (taken.map (·.name)).Nodup)
    (h : clashingMember? taken names = none) : ((taken ++ names).map (·.name)).Nodup := by
  induction names generalizing taken with
  | nil => simpa using htaken
  | cons name rest ih =>
    unfold clashingMember? at h
    split at h
    · cases h
    · rename_i hfind
      have hnew : name.name ∉ taken.map (·.name) := by
        intro hmem
        obtain ⟨previous, hprevious, hsame⟩ := List.mem_map.mp hmem
        have hdiffers := List.find?_eq_none.mp hfind previous hprevious
        exact hdiffers (by simp [hsame])
      have htaken' : ((taken ++ [name]).map (·.name)).Nodup := by
        rw [List.map_append, List.map_singleton, ← List.concat_eq_append]
        exact htaken.concat hnew
      simpa using ih htaken' h

/-- What was on a roll still is, and structs are regular. -/
structure Laid (r : Roll) (c : Context) : Prop extends Enrolled r c where
  regular : c.Regular

theorem Laid.of_eq (hc : Laid r c) (hroll : d.roll = c.roll) (hglobals : d.globals = c.globals)
    (hstructs : d.structs = c.structs) : Laid r d :=
  ⟨hc.toEnrolled.of_eq hroll, hc.regular.of_eq hglobals hstructs⟩

theorem laid_declareEntity (kind : Surface.ItemKind) (scope : Scope) (names : Option InstanceNames) :
    (declareEntity kind scope names).Preserves (Laid r) := fun _ _ hd hc =>
  ⟨enrolled_declareEntity kind scope names hd hc.toEnrolled,
    regular_declareEntity kind scope names hd hc.regular⟩

theorem laid_detached {α : Type} {work : Check α} (h : work.Preserves (Laid r)) :
    (detached work).Preserves (Laid r) := by
  intro c d hd hc
  obtain ⟨e, hwork, rfl⟩ := Run.ends_andFinally hd
  exact (h hwork (hc.of_eq rfl rfl rfl)).of_eq rfl rfl rfl

theorem laid_modifyFrame (change : Frame → Frame) : (modifyFrame change).Preserves (Laid r) :=
  Run.preserves_modify fun _ hc => hc.of_eq rfl rfl rfl

/-- A struct whose fields or names are refused is not completed. -/
theorem resolveStruct_eq_error {id : StructId} {usedAt : Span} {e : Diagnostic}
    (h : resolveStruct ask id usedAt c = .error e d) :
    d = c ∨ (structWork ask (c.struct id)).Ends (laying c id) d := by
  unfold resolveStruct at h
  obtain hget | ⟨_, _, hget, h⟩ := Run.bind_eq_error.mp h <;> cases hget
  cases hstate : (c.struct id).state with
  | complete =>
    simp only [hstate] at h
    cases h
  | resolving =>
    simp only [hstate] at h
    cases h
    exact .inl rfl
  | declared =>
    right
    simp only [hstate] at h
    obtain hlaying | ⟨_, _, hlaying, h⟩ := Run.bind_eq_error.mp h <;> cases hlaying
    obtain hwork | ⟨fields, c₁, hwork, h⟩ := Run.bind_eq_error.mp h
    · exact Run.ends_of_error hwork
    · obtain hget | ⟨_, _, hget, h⟩ := Run.bind_eq_error.mp h <;> cases hget
      cases hclash : clashingMember? (fields.map (·.name))
          ((c₁.struct id).members.map fun m => (c₁.global m.2).name) with
      | none =>
        rw [hclash] at h
        cases h
      | some found =>
        rw [hclash] at h
        cases h
        exact Run.ends_of_ok hwork

theorem Laid.laying (hc : Laid r c) (id : StructId) : Laid r (laying c id) := by
  refine ⟨hc.toEnrolled.of_eq (Context.roll_modifyStruct id (fun _ => rfl) fun _ => rfl),
    hc.regular.modifyStruct id (fun _ => rfl) ⟨(hc.regular.structs id).copyable, ?_, ?_⟩⟩
  all_goals exact fun hcomplete => by cases hcomplete

theorem Laid.self (hc : Laid r c) : Laid c.roll c := ⟨⟨.refl _, hc.staffed⟩, hc.regular⟩

theorem decl_laying (c : Context) (id other : StructId) :
    ((laying c id).struct other).decl = (c.struct other).decl := by
  unfold laying
  rw [struct_modifyStruct]
  split <;> rfl

section

variable (ha : ∀ r q, (ask q).Preserves (Laid r))

include ha

theorem laid_structWork (s : StructDef) : (structWork ask s).Preserves (Laid r) :=
  laid_detached (preserves_resolveFields (fun q _ => ha r q) _ _ _)

/-- The struct that is completed is regular: its functions stand under the names that were compared
with those of the fields. -/
theorem Laid.laidOut (hc : Laid r c) {id : StructId} (hid : id.index < c.structs.size)
    {fields : List Field} (h : structWork ask (c.struct id) (Check.laying c id) = .ok fields d)
    (hclash : clashingMember? (fields.map (·.name))
      ((d.struct id).members.map fun (_, member) => (d.global member).name) = none) :
    Laid r (Check.laidOut d id fields) := by
  have hlaying := hc.laying id
  have hd : Laid r d := laid_structWork ha _ (Run.ends_of_ok h) hlaying
  have hkept : (d.struct id).decl = (c.struct id).decl := by
    have hbegins := (laid_structWork ha _ (Run.ends_of_ok h) hlaying.self).begins
    rw [Context.decl_of_begins hbegins (by simpa [Check.laying, Context.modifyStruct] using hid),
      decl_laying]
  obtain ⟨c₁, hwork, -⟩ := Run.andFinally_eq_ok.mp h
  have hnone : (([] : List Field).map (·.name.name)).Nodup := List.nodup_nil
  obtain ⟨hcopyable, hnames, hnodup⟩ := resolveFields_eq_ok (fun f hf => by cases hf) hnone hwork
  have hmembers : (d.struct id).members.map (fun m => (d.global m.2).name.name) =
      (d.struct id).members.map (·.1) :=
    List.map_congr_left fun m hm => (hd.regular.members id m hm).2
  refine ⟨hd.toEnrolled.of_eq (Context.roll_modifyStruct id (fun _ => rfl) fun _ => rfl),
    hd.regular.modifyStruct id (fun _ => rfl) ⟨hcopyable, fun _ => ?_, fun _ => ?_⟩⟩
  · rw [hkept]
    exact hnames
  · have hall := nodup_of_clashingMember? (by simpa [Function.comp_def] using hnodup) hclash
    simpa [← hmembers, Function.comp_def] using hall

theorem laid_resolveStruct (id : StructId) (usedAt : Span) :
    (resolveStruct ask id usedAt).Preserves (Laid r) := by
  intro c d hd hc
  rcases hd with ⟨_, hd⟩ | ⟨_, hd⟩
  · obtain ⟨rfl, -⟩ | ⟨hstate, fields, c₁, hwork, rfl, hclash⟩ := resolveStruct_eq_ok hd
    · exact hc
    · exact hc.laidOut ha (Context.struct_lt (by simp [hstate])) hwork hclash
  · obtain rfl | hend := resolveStruct_eq_error hd
    · exact hc
    · exact laid_structWork ha _ hend (hc.laying id)

theorem laid_stable : Stable ask (Laid r) where
  answers q _ := ha r q
  detached := laid_detached
  consume := preserves_consume laid_modifyFrame
  aliasStarted _ id hc := hc.of_eq (Context.roll_modifyAlias id (fun _ => rfl) fun _ => rfl) rfl rfl
  aliasDone _ id _ hc := hc.of_eq (Context.roll_modifyAlias id (fun _ => rfl) fun _ => rfl) rfl rfl
  structResolved := laid_resolveStruct ha
  macroDone _ id _ _ hc := hc.of_eq (Context.roll_modifyMacro id fun _ => rfl) rfl rfl
  instantiate := preserves_instance (fun _ _ _ _ _ _ _ => laid_declareEntity _ _ _)
    (fun q _ => ha r q) laid_detached (fun _ _ _ hc => hc.of_eq rfl rfl rfl) fun _ _ _ hc => hc.of_eq rfl rfl rfl

theorem laid_lasting : Lasting ask (Laid r) where
  toStable := laid_stable ha
  everyAnswer := ha r
  agrees _ _ h hc := hc.of_eq
    (by simp only [Context.roll, h.globals, h.structs, h.aliases, h.macros]) h.globals h.structs
  bodyOpened _ _ _ hc := hc.of_eq rfl rfl rfl
  bodyClosed _ hc := hc.of_eq rfl rfl rfl
  param _ _ := preserves_declareLocal laid_modifyFrame _ _ _ _
  receiver _ _ := preserves_declareLocal laid_modifyFrame _ _ _ _
  declared := preserves_declStmt laid_modifyFrame (laid_stable ha)
  packages _ _ hc := hc.of_eq rfl rfl rfl
  entityDeclared := laid_declareEntity
  templateDeclared _ := preserves_declareTemplate (fun _ _ hc => hc.of_eq rfl rfl rfl)
    fun _ _ _ hc => hc.of_eq rfl rfl rfl
  bodyTaken _ _ _ _ hc := hc.of_eq rfl rfl rfl
  bodyAccepted _ _ _ _ _ _ hd := hd.of_eq rfl rfl rfl

theorem laid_resolveGlobal (id : GlobalId) (usedAt : Span) :
    (resolveGlobal ask id usedAt).Preserves (Laid r) := by
  refine preserves_resolveGlobal (laid_stable ha) (fun c id hc => ?_) (fun c id t value hc => ?_) id usedAt
  all_goals exact ⟨hc.toEnrolled.of_eq (Context.roll_modifyGlobal id fun _ => rfl),
    hc.regular.modifyGlobal id fun _ => rfl⟩

end

theorem laid_answerCut {cut : Cut} (n : Nat) (q : Query) :
    (answerCut cut n q).Preserves (Laid r) := by
  induction n generalizing q r with
  | zero => exact Run.preserves_stop _
  | succ n ih =>
    have ha (r q) : (answerCut cut n q).Preserves (Laid r) := ih q
    exact preserves_cutAt ((laid_lasting ha).toInvariant.step (laid_resolveGlobal ha) q)

theorem laid_answerTo (n : Nat) (q : Query) : (answerTo n q).Preserves (Laid r) := by
  rw [← answerCut_none]
  exact laid_answerCut n q

end Check

namespace Session

variable {c : Context}

theorem Moment.laid (hc : Moment c) : Check.Laid {} c := by
  obtain ⟨options, hstart⟩ := hc
  have hempty : Check.Laid {} ({ options } : Context) := by
    refine ⟨⟨.refl _, fun _ _ _ hfound => by cases hfound⟩, ⟨fun id => ⟨?_, ?_, ?_⟩, ?_⟩⟩
    · exact fun f hf => by cases hf
    · exact fun hcomplete => by cases hcomplete
    · exact fun hcomplete => by cases hcomplete
    · exact fun id m hm => by cases hm
  exact hstart.keeps (fun _ => Check.laid_lasting fun _ q => Check.laid_answerCut _ q) hempty

/-- At every moment of a session all structs are regular. -/
theorem Moment.regular (hc : Moment c) : c.Regular := hc.laid.regular

theorem Amidst.laid (hc : Amidst c) : Check.Laid {} c := by
  obtain ⟨m, frame, inProgress, hm, rfl⟩ := hc
  exact hm.laid.of_eq rfl rfl rfl

end Session

end OwnLang
