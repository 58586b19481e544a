import Mathlib
import OwnLang.Proofs.Check.Signatures

/-!
# Asking again

What a type stands for, what a path denotes and the value of a constant are found out once: where the
same is asked later, outside of functions, the answer is the same, and nothing is resolved for it
(`Check.Lasts`). An entity that was resolved answers from its record, and a name stands for the same
as long as nothing is declared in a package.
-/

namespace OwnLang

open Surface (Ident)

/-- What was made for type arguments is found again, whatever is made later. -/
theorem TemplateDef.instance?_of_prefix {t u : TemplateDef} {args : List Ty} {entity : Entity}
    (h : t.instances <+: u.instances) (hmade : t.instance? args = some entity) :
    u.instance? args = some entity := by
  obtain ⟨rest, hrest⟩ := h
  obtain ⟨made, hfound, rfl⟩ := Option.map_eq_some_iff.mp hmade
  unfold TemplateDef.instance?
  rw [← hrest, List.find?_append, hfound]
  rfl

namespace Context

variable {c d : Context}

/-! ## Looking up again -/

section

variable (h : c.Continues Resolvable.Progresses d)

include h

theorem Continues.typeAlias {id : AliasId} (hstate : (c.typeAlias id).state = .complete) :
    d.typeAlias id = c.typeAlias id := by
  have hid : id.index < c.aliases.size := by
    by_contra hid
    rw [show c.typeAlias id = default by simp [Context.typeAlias, Nat.not_lt.mp hid]] at hstate
    cases hstate
  exact (h.aliases.getD hid).final hstate

theorem Continues.struct {id : StructId} (hstate : (c.struct id).state = .complete) :
    d.struct id = c.struct id :=
  (h.structs.getD (struct_lt (by simp [hstate]))).final hstate

theorem Continues.global {id : GlobalId} (hstate : (c.global id).state = .complete) :
    d.global id = c.global id := by
  have hid : id.index < c.globals.size := by
    by_contra hid
    rw [Check.global_of_size_le (Nat.not_lt.mp hid)] at hstate
    cases hstate
  exact (h.globals.getD hid).final hstate

theorem Continues.structType {id : StructId} (hid : id.index < c.structs.size) :
    d.structType id = c.structType id := by
  have hsame := congrArg StructDef.display (h.structs.getD hid).declared
  exact congrArg (fun display => (Shape.struct id display).plain) hsame

theorem Continues.package (id : PackageId) :
    (d.package id).name = (c.package id).name ∧ (d.package id).members = (c.package id).members := by
  have hlisted := congrArg (·[id.index]?) h.listed
  simp only [Context.listed, Array.getElem?_map] at hlisted
  unfold Context.package
  cases hc : c.packages[id.index]? <;> cases hd : d.packages[id.index]? <;> simp_all

theorem Continues.member (id : PackageId) (name : String) :
    (d.package id).member? name = (c.package id).member? name := by
  unfold Package.member?
  rw [(h.package id).2]

theorem Continues.findPackage (name : String) : d.findPackage name = c.findPackage name := by
  have hfind (c : Context) : c.findPackage name =
      (c.listed.findIdx? (·.1 == name)).map PackageId.mk := by
    simp [Context.findPackage, Context.listed, Function.comp_def]
  rw [hfind, hfind, h.listed]

theorem Continues.visibleMember (scope : Scope) (name : String) :
    d.visibleMember? scope name = c.visibleMember? scope name := by
  simp only [visibleMember?, visiblePackages, List.findSome?_map, Function.comp_def, h.member]

theorem Continues.memberOfPath (path : List Ident) (scope : Scope) :
    d.memberOfPath path scope = c.memberOfPath path scope := by
  have hnamed (package name : Ident) :
      (d.packageNamed package).map (·.member? name.name) =
        (c.packageNamed package).map (·.member? name.name) := by
    unfold packageNamed
    rw [h.findPackage]
    split
    · exact congrArg Except.ok (h.member _ _)
    · rfl
  unfold Context.memberOfPath
  split
  · rw [h.visibleMember]
  · exact hnamed _ _
  · rfl

theorem Continues.template {id : TemplateId} (hid : id.index < c.templates.size) :
    (d.template id).params = (c.template id).params ∧
      (c.template id).instances <+: (d.template id).instances := by
  have hmakes : (c.template id).Makes (d.template id) := h.templates.getD hid
  have hparams := congrArg TemplateDef.params hmakes.declared
  exact ⟨hparams, hmakes.instances⟩

end

/-! ## Members that are declared -/

theorem Orderly.member (h : c.Orderly) {id : PackageId} {name : String} {s : StructId}
    (hmember : (c.package id).member? name = some (.struct s)) : s.index < c.structs.size := by
  obtain ⟨⟨ident, member⟩, hfound, rfl⟩ := Option.map_eq_some_iff.mp hmember
  refine h.members (c.package id) ?_ _ (List.mem_of_find?_eq_some hfound) s rfl
  refine Check.getD_mem (Nat.lt_of_not_le fun hid => ?_)
  rw [show c.package id = default by simp [Context.package, hid]] at hfound
  cases hfound

theorem Orderly.memberOfPath (h : c.Orderly) {path : List Ident} {scope : Scope} {s : StructId}
    (hmember : c.memberOfPath path scope = .ok (some (.struct s))) : s.index < c.structs.size := by
  unfold Context.memberOfPath at hmember
  split at hmember
  · obtain ⟨p, hp, hfound⟩ := List.exists_of_findSome?_eq_some (Except.ok.inj hmember)
    obtain ⟨id, -, rfl⟩ := List.mem_map.mp hp
    exact h.member hfound
  · unfold packageNamed at hmember
    split at hmember
    · exact h.member (Except.ok.inj hmember)
    · cases hmember
  · cases hmember

theorem template_lt_of_instance {id : TemplateId} {args : List Ty} {entity : Entity}
    (hmade : (c.template id).instance? args = some entity) : id.index < c.templates.size := by
  refine Nat.lt_of_not_le fun hid => ?_
  rw [show c.template id = default by simp [Context.template, hid]] at hmade
  cases hmade

theorem Orderly.instance (h : c.Orderly) {id : TemplateId} {args : List Ty} {s : StructId}
    (hmade : (c.template id).instance? args = some (.struct s)) : s.index < c.structs.size := by
  obtain ⟨made, hmem, -, hentity⟩ := TemplateDef.instance?_eq_some hmade
  exact h.instances (c.template id) (Check.getD_mem (template_lt_of_instance hmade)) made hmem s hentity

end Context

namespace Check

variable {α β γ : Type} {ask : Asker} {c d : Context}

/-! ## Runs that can be repeated -/

/-- The run does the same later, outside of functions, and changes nothing there. -/
def Lasts (x : Check α) (c : Context) (a : α) : Prop :=
  ∀ d : Context, c.Continues Resolvable.Progresses d → d.frame = none → x d = .ok a d

theorem Lasts.mono {x : Check α} {a : α} (h : Lasts x c a)
    (hcd : c.Continues Resolvable.Progresses d) : Lasts x d a :=
  fun e hde he => h e (hcd.trans .trans hde) he

/-- From a context on, what a run returns is returned again later, for the values in question. -/
structure RepeatsFrom (c : Context) (Q : α → Prop) (x : Check α) : Prop where
  follows : x.FollowsFrom (.resolution .outside) c x
  lasts : ∀ a d, x c = .ok a d → Q a → Lasts x d a

/-- From all contexts on, where no function is open, what a run returns is returned again later. -/
def Repeats (Q : α → Prop) (x : Check α) : Prop :=
  ∀ c, (Course.resolution .outside).ready c → RepeatsFrom c Q x

/-- All values are in question. -/
abbrev Always {α : Type} (_ : α) : Prop := True

variable {Q : α → Prop} {R : β → Prop}

theorem repeats_pure (a : α) : Repeats Q (pure a : Check α) := fun c hc =>
  ⟨Run.follows_pure a c hc, fun b d hrun _ e _ _ => by cases hrun; rfl⟩

theorem repeats_fail (diagnostic : Diagnostic) : Repeats Q (Run.fail diagnostic : Check α) :=
  fun c hc => ⟨Run.follows_fail diagnostic c hc, fun b d hrun => by cases hrun⟩

theorem repeats_reject (cause : Cause) (span : Span) :
    Repeats Q (Run.reject cause span : Check α) := repeats_fail _

theorem repeats_stop (why : Stop) : Repeats Q (Run.stop why : Check α) :=
  fun c hc => ⟨Run.follows_stop why c hc, fun b d hrun => by cases hrun⟩

theorem repeats_ofExcept (x : Except Diagnostic α) : Repeats Q (Run.ofExcept x : Check α) := by
  cases x with
  | ok a => exact repeats_pure a
  | error d => exact repeats_fail d

/-- Runs that return no value in question. -/
theorem repeats_of_returns {x : Check α} (hx : x.Follows (.resolution .outside) x)
    (h : x.Returns fun a => ¬ Q a) : Repeats Q x :=
  fun c hc => ⟨hx c hc, fun _ _ hrun hQ => absurd hQ (h hrun)⟩

/-- Where what comes behind a run is repeated, and all that is in question in the end is due to a value
in question, the whole is repeated. -/
theorem RepeatsFrom.bind {x : Check α} {f : α → Check β} (hx : RepeatsFrom c Q x)
    (hf : ∀ a d, x c = .ok a d → MacroLaw.outside.Moves c d → RepeatsFrom d R (f a))
    (hQ : ∀ a, ¬ Q a → (f a).Returns fun b => ¬ R b) : RepeatsFrom c R (x >>= f) where
  follows := hx.follows.bind_ok fun a d ha hd _ => (hf a d ha hd).follows
  lasts b e hrun hR u heu hu := by
    obtain ⟨a, d, ha, hb⟩ := Run.bind_eq_ok.mp hrun
    have hQa : Q a := by
      by_contra hnot
      exact hQ a hnot hb hR
    have hrest := hf a d ha (hx.follows.moves d (Run.ends_of_ok ha))
    have hde := (hrest.follows.moves e (Run.ends_of_ok hb)).spares.progresses
    have ha' : x u = .ok a u := hx.lasts a d ha hQa u (hde.trans .trans heu) hu
    exact Run.bind_eq_ok.mpr ⟨a, u, ha', hrest.lasts b e hb hR u heu hu⟩

theorem Repeats.bind_of {x : Check α} {f : α → Check β} (hx : Repeats Q x) (hf : ∀ a, Repeats R (f a))
    (hQ : ∀ a, ¬ Q a → (f a).Returns fun b => ¬ R b) : Repeats R (x >>= f) := fun c hc =>
  (hx c hc).bind (fun a d _ hd => hf a d ((Course.resolution .outside).ready_done hc hd trivial)) hQ

theorem Repeats.bind {x : Check α} {f : α → Check β} (hx : Repeats Always x)
    (hf : ∀ a, Repeats R (f a)) : Repeats R (x >>= f) :=
  hx.bind_of hf fun _ h => absurd trivial h

theorem Repeats.map {x : Check α} (hx : Repeats Always x) (f : α → β) : Repeats R (f <$> x) := by
  rw [map_eq_pure_bind]
  exact hx.bind fun _ => repeats_pure _

theorem repeats_fail_bind (diagnostic : Diagnostic) (f : α → Check β) :
    Repeats R (Run.fail diagnostic >>= f) := fun c hc =>
  (repeats_fail (Q := Always) diagnostic c hc).bind (fun _ _ h => by cases h)
    fun _ h => absurd trivial h

theorem repeats_reject_bind (cause : Cause) (span : Span) (f : α → Check β) :
    Repeats R (Run.reject cause span >>= f) := repeats_fail_bind _ f

theorem Repeats.unless {p : Prop} [Decidable p] {cause : Cause} {span : Span} {f : PUnit → Check β}
    (hf : Repeats R (f ⟨⟩)) :
    Repeats R (if p then Run.reject cause span >>= f else f ⟨⟩) := by
  split
  · exact repeats_reject_bind cause span f
  · exact hf

theorem repeats_mapM {f : α → Check β} (hf : ∀ a, Repeats Always (f a)) (l : List α) :
    Repeats Always (l.mapM f) := by
  induction l with
  | nil => exact repeats_pure _
  | cons a l ih =>
    rw [List.mapM_cons]
    exact (hf a).bind fun _ => ih.bind fun _ => repeats_pure _

/-- A look at what does not change any more. -/
theorem repeatsFrom_get_bind {f : Context → Check β} (hf : RepeatsFrom c R (f c))
    (hsame : ∀ d : Context, c.Continues Resolvable.Progresses d → d.frame = none → f d = f c) :
    RepeatsFrom c R (get >>= f) := by
  refine ⟨Run.followsFrom_get_bind hf.follows, fun b e hrun hR u heu hu => ?_⟩
  have hce := (hf.follows.moves e (Run.ends_of_ok hrun)).spares.progresses
  show f u u = .ok b u
  rw [hsame u (hce.trans .trans heu) hu]
  exact hf.lasts b e hrun hR u heu hu

theorem repeats_requireValueType (t : Ty) (span : Span) : Repeats Always (requireValueType t span) := by
  unfold requireValueType
  split
  · exact repeats_reject _ _
  · exact repeats_pure _

/-! ## Entities -/

theorem instantiate_known {id : TemplateId} {args : List Ty} {entity : Entity}
    (hlength : args.length = (c.template id).params.length)
    (hmade : (c.template id).instance? args = some entity) (span : Span) :
    instantiate ask id args span c = .ok entity c := by
  unfold instantiate
  rw [Run.bind_apply, Run.get_apply]
  dsimp only
  rw [hmade]
  simp [hlength]

theorem ready_marked {start : Context} (h : c.Marks start)
    (hc : (Course.resolution .outside).ready c) : (Course.resolution .outside).ready start :=
  ⟨h.orderly hc.1, h.frame.trans hc.2⟩

section

variable (ha : ∀ q : Query, q.isExpr → (ask q).Follows (.resolution .outside) (ask q))

include ha

theorem instance?_makeInstance {id : TemplateId} {path : String} {args : List Ty} {number : Nat}
    {span : Span} {entity : Entity} (hc : (Course.resolution .outside).ready c)
    (hnew : (c.template id).instance? args = none)
    (hrun : makeInstance ask id (c.template id) path args number span c = .ok entity d) :
    id.index < c.templates.size ∧ (d.template id).instance? args = some entity := by
  rw [makeInstance_eq] at hrun
  obtain ⟨member, e, hdeclare, hrun⟩ := Run.bind_eq_ok.mp hrun
  have hholds := preserves_declareEntity holds_additive _ _ _ (Run.ends_of_ok hdeclare) (.of_eq c)
  cases hmade : madeEntity? member with
  | none =>
    rw [hmade] at hrun
    cases hrun
  | some made =>
    rw [hmade] at hrun
    obtain ⟨_, f, hadd, hrun⟩ := Run.bind_eq_ok.mp hrun
    obtain ⟨_, g, hresolve, hreturn⟩ := Run.bind_eq_ok.mp hrun
    cases hadd
    cases hreturn
    have hid := template_lt hdeclare hmade
    have hproceeds := (proceeds_declareEntity hdeclare hmade).trans
      (e.proceeds_addInstance id args (declareEntity_fresh hdeclare hmade).2)
    have hready := (Course.resolution .outside).ready_done hc (MacroLaw.moves_proceeds hproceeds) trivial
    have hmoves := (follows_detached (follows_resolveEntity ha entity span) _ hready).moves d
      (Run.ends_of_ok hresolve)
    -- The entry is the first one for these types, and what is made behind it does not change that.
    have hentry : ((e.addInstance id { args, entity }).template id).instance? args = some entity := by
      have hsame : Ty.sameList args args = true := (Ty.sameList_iff args args).mpr rfl
      have hnone : (e.template id).instance? args = none := by
        unfold Context.template
        rw [hholds.templates]
        exact hnew
      unfold TemplateDef.instance? at hnone ⊢
      rw [Context.template_addInstance, if_pos ⟨rfl, by rw [hholds.templates]; exact hid⟩,
        List.find?_append, Option.map_eq_none_iff.mp hnone]
      simp [hsame]
    have hlt := Context.template_lt_of_instance hentry
    exact ⟨hid, TemplateDef.instance?_of_prefix (hmoves.spares.progresses.template hlt).2 hentry⟩

theorem instance?_instantiate {id : TemplateId} {args : List Ty} {span : Span} {entity : Entity}
    (hc : (Course.resolution .outside).ready c) (hrun : instantiate ask id args span c = .ok entity d) :
    args.length = (d.template id).params.length ∧ (d.template id).instance? args = some entity := by
  have hmoves := (follows_instantiate ha id args span c hc).moves d (Run.ends_of_ok hrun)
  have hcd := hmoves.spares.progresses
  rw [instantiate_eq] at hrun
  obtain ⟨_, _, hget, hrun⟩ := Run.bind_eq_ok.mp hrun
  cases hget
  split at hrun
  · cases hrun
  · rename_i hlength
    replace hlength : args.length = (c.template id).params.length := by simpa using hlength
    cases hmade : (c.template id).instance? args with
    | some made =>
      rw [hmade] at hrun
      cases hrun
      exact ⟨hlength, hmade⟩
    | none =>
      rw [hmade] at hrun
      dsimp only at hrun
      split at hrun
      · cases hrun
      · obtain ⟨_, _, hbegan, hrun⟩ := Run.bind_eq_ok.mp hrun
        cases hbegan
        obtain ⟨f, hmake, rfl⟩ := Run.andFinally_eq_ok.mp hrun
        have hshares : c.Shares (began id args c) := ⟨rfl, rfl, rfl, rfl, rfl, rfl⟩
        have hready : (Course.resolution .outside).ready (began id args c) :=
          ⟨hshares.orderly hc.1, hc.2⟩
        obtain ⟨hid, hmade⟩ := instance?_makeInstance ha hready hmade hmake
        exact ⟨hlength.trans (congrArg List.length (hcd.template hid).1.symm), hmade⟩

/-- An instance that is recorded is not made again. -/
theorem repeats_instantiate (id : TemplateId) (args : List Ty) (span : Span) :
    Repeats Always (instantiate ask id args span) := by
  intro c hc
  refine ⟨follows_instantiate ha id args span c hc, fun entity d hrun _ e hde _ => ?_⟩
  obtain ⟨hlength, hmade⟩ := instance?_instantiate ha hc hrun
  obtain ⟨hparams, hinstances⟩ := hde.template (Context.template_lt_of_instance hmade)
  exact instantiate_known (hlength.trans (congrArg List.length hparams.symm))
    (TemplateDef.instance?_of_prefix hinstances hmade) span

theorem repeats_resolveAlias (hnone : Unnamed ask) (id : AliasId) (usedAt : Span) :
    Repeats Always (resolveAlias ask id usedAt) := by
  intro c hc
  refine ⟨follows_resolveAlias ha hnone id usedAt c hc, fun t d hrun _ e hde _ => ?_⟩
  have hdone : (d.typeAlias id).state = .complete ∧ (d.typeAlias id).resolved = some t := by
    rcases resolveAlias_cases c id usedAt with hnew | ⟨u, hstate, hu⟩ | ⟨diagnostic, herror⟩
    · rw [resolveAlias_nameless hnew] at hrun
      obtain ⟨target, f, hwork, hrun⟩ := Run.bind_eq_ok.mp hrun
      obtain ⟨_, g, hwrite, hreturn⟩ := Run.bind_eq_ok.mp hrun
      cases hwrite
      cases hreturn
      have hmarks := hnew.marks hc.1.toDefinite
      have hmoves := (follows_detached (ha (.type _ _) rfl) _ (ready_marked hmarks hc)).moves f
        (Run.ends_of_ok hwork)
      have hid : id.index < f.aliases.size :=
        (hnone.lt hwork).trans_le (hmarks.spares f hmoves.spares).aliases.size_le
      unfold named
      rw [Context.typeAlias_modifyAlias, if_pos ⟨rfl, hid⟩]
      exact ⟨rfl, rfl⟩
    · rw [resolveAlias_complete hstate hu] at hrun
      cases hrun
      exact ⟨hstate, hu⟩
    · rw [herror] at hrun
      cases hrun
  have hsame := hde.typeAlias hdone.1
  exact resolveAlias_complete (hsame ▸ hdone.1) (hsame ▸ hdone.2) usedAt

theorem resolveStruct_laid {id : StructId} {usedAt : Span} (hc : (Course.resolution .outside).ready c)
    (hrun : resolveStruct ask id usedAt c = .ok () d) : (d.struct id).state = .complete := by
  obtain ⟨rfl, hstate⟩ | ⟨hstate, fields, f, hwork, rfl, -⟩ := resolveStruct_eq_ok hrun
  · exact hstate
  · have hmarks := marks_laying hstate
    have hmoves := (follows_structWork ha _ _ (ready_marked hmarks hc)).moves f (Run.ends_of_ok hwork)
    have hid : id.index < f.structs.size :=
      (Context.struct_lt (by simp [hstate])).trans_le
        (hmarks.spares f hmoves.spares).structs.size_le
    unfold laidOut
    rw [struct_modifyStruct, if_pos ⟨rfl, hid⟩]

theorem repeats_resolveStruct (id : StructId) (usedAt : Span) :
    Repeats Always (resolveStruct ask id usedAt) := by
  intro c hc
  refine ⟨follows_resolveStruct ha id usedAt c hc, fun _ d hrun _ e hde _ => ?_⟩
  have hdone := resolveStruct_laid ha hc hrun
  unfold resolveStruct
  rw [Run.bind_apply, Run.get_apply]
  dsimp only
  rw [hde.struct hdone, hdone]
  rfl

end

section

variable (h : Following (.resolution .outside) ask ask)

include h

theorem resolveGlobal_typed {id : GlobalId} {usedAt : Span} {t : Ty}
    (hc : (Course.resolution .outside).ready c) (hrun : resolveGlobal ask id usedAt c = .ok t d) :
    d.typeOf? id = some t := by
  rcases resolveGlobal_cases c id usedAt with hnew | ⟨u, hu⟩ | ⟨diagnostic, herror⟩
  · rw [resolveGlobal_unsettled hnew] at hrun
    obtain ⟨⟨u, value⟩, f, hwork, hrun⟩ := Run.bind_eq_ok.mp hrun
    obtain ⟨_, g, hwrite, hreturn⟩ := Run.bind_eq_ok.mp hrun
    cases hwrite
    cases hreturn
    have hmarks := marks_started hc.1.toDefinite hnew
    have hmoves := (follows_detached (follows_globalWork h _) _ (ready_marked hmarks hc)).moves f
      (Run.ends_of_ok hwork)
    have hid : id.index < f.globals.size := by
      obtain ⟨g, hwork, -⟩ := Run.andFinally_eq_ok.mp hwork
      exact (globalWork_lt hwork).trans_le (hmarks.spares f hmoves.spares).globals.size_le
    refine Context.typeOf?_eq_some.mpr ?_
    unfold completed
    rw [global_modifyGlobal, if_pos ⟨rfl, hid⟩]
    exact ⟨rfl, rfl⟩
  · rw [resolveGlobal_complete hu] at hrun
    cases hrun
    exact hu
  · rw [herror] at hrun
    cases hrun

theorem repeats_resolveGlobal (id : GlobalId) (usedAt : Span) :
    Repeats Always (resolveGlobal ask id usedAt) := by
  intro c hc
  refine ⟨follows_resolveGlobal h id usedAt c hc, fun t d hrun _ e hde _ => ?_⟩
  obtain ⟨hstate, htype⟩ := Context.typeOf?_eq_some.mp (resolveGlobal_typed h hc hrun)
  refine resolveGlobal_complete ?_ usedAt
  rw [Context.typeOf?_eq_some, hde.global hstate]
  exact ⟨hstate, htype⟩

end

end Check

end OwnLang
