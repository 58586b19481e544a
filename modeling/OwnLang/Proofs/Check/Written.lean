import OwnLang.Proofs.Check.Containment
import OwnLang.Proofs.Check.Instances
import OwnLang.Proofs.Check.Moments
import OwnLang.Proofs.Check.Registered
import OwnLang.Proofs.Check.Regular
import OwnLang.Proofs.Check.Warned
import OwnLang.Proofs.Emit.WellFormed

/-!
# Programs as they are written

The files that checking is given were read from texts, so the functions that it has declared are
arranged as they are written, and so are those that templates still make (`Context.Arranged`). Whatever
checking has done before, the warnings that it raises for a body are exact (`unreachable_exact`), and
those for an accepted program are the ones for its bodies, body by body (`recounts_checkProgram`).
-/

namespace OwnLang

/-- No name that a struct is shown with ends a text. -/
structure StructDef.Legible (s : StructDef) : Prop where
  name : '\x00' ∉ s.name.name.toList
  fields : ∀ field ∈ s.decl.fields, '\x00' ∉ field.name.name.toList

/-- All functions are arranged as they are written and all structs legible, and those of templates too. -/
structure Context.Arranged (c : Context) : Prop where
  functions : ∀ id decl owner, (c.global id).kind = .function decl owner → decl.Arranged
  structs : ∀ id, (c.struct id).Legible
  templates : ∀ id, (c.template id).item.kind.Arranged ∧ (c.template id).item.kind.Legible

/-- No name that is printed with a value ends a text. -/
def Context.Legible (c : Context) : Prop :=
  ∀ id, '\x00' ∉ (c.struct id).name.name.toList ∧
    ∀ f ∈ (c.struct id).fields, '\x00' ∉ f.name.name.toList

namespace Context

variable {c d : Context}

theorem Arranged.of_same (h : c.Arranged) (hglobals : ∀ id, (d.global id).kind = (c.global id).kind)
    (hstructs : ∀ id, (d.struct id).name = (c.struct id).name ∧ (d.struct id).decl = (c.struct id).decl)
    (htemplates : ∀ id, (d.template id).item = (c.template id).item) : d.Arranged where
  functions id := by
    rw [hglobals]
    exact h.functions id
  structs id := by
    obtain ⟨hname, hdecl⟩ := hstructs id
    exact ⟨hname ▸ (h.structs id).name, hdecl ▸ (h.structs id).fields⟩
  templates id := by
    rw [htemplates]
    exact h.templates id

theorem Arranged.of_eq (h : c.Arranged) (hglobals : d.globals = c.globals)
    (hstructs : d.structs = c.structs) (htemplates : d.templates = c.templates) : d.Arranged := by
  refine h.of_same (fun id => by rw [Check.global_of_eq hglobals])
    (fun id => by simp [Check.struct_of_eq hstructs]) fun id => ?_
  unfold template
  rw [htemplates]

theorem Arranged.withGlobal (h : c.Arranged) {g : Global}
    (hg : ∀ decl owner, g.kind = .function decl owner → decl.Arranged) : (c.withGlobal g).Arranged where
  functions id := by
    rw [global_withGlobal]
    split
    · exact hg
    · exact h.functions id
  structs := h.structs
  templates := h.templates

theorem Arranged.function (h : c.Arranged) {decl : Surface.FnDecl} (hdecl : decl.Arranged)
    {scope : Scope} {owner : Option StructId} {symbol display : String} {isInstance : Bool} :
    (c.withGlobal (c.functionOf decl scope owner symbol display isInstance)).Arranged :=
  h.withGlobal fun decl' owner' hkind => by
    cases hkind
    exact hdecl

theorem Arranged.withStruct (h : c.Arranged) {s : StructDef} (hs : s.Legible) :
    (c.withStruct s).Arranged where
  functions := h.functions
  structs id := by
    rw [struct_withStruct]
    split
    · exact hs
    · exact h.structs id
  templates := h.templates

theorem Arranged.modifyStruct (h : c.Arranged) (id : StructId) {change : StructDef → StructDef}
    (hsame : ∀ s, (change s).name = s.name ∧ (change s).decl = s.decl) :
    (c.modifyStruct id change).Arranged := by
  refine h.of_same (fun _ => rfl) (fun other => ?_) fun _ => rfl
  rw [Check.struct_modifyStruct]
  split
  · exact hsame _
  · exact ⟨rfl, rfl⟩

theorem Arranged.newStruct (h : c.Arranged) {decl : Surface.StructDecl} (hlegible : decl.Legible)
    (hdecl : ∀ method ∈ decl.methods, method.Arranged) {scope : Scope} {symbol display : String}
    {isInstance : Bool} : (c.newStruct decl scope symbol display isInstance).Arranged := by
  refine withMethods_induction (h.withStruct ⟨hlegible.name.noNul, fun field hfield =>
    (hlegible.fields field hfield).noNul⟩) fun d hd method hmem => ?_
  exact (hd.function (hdecl method hmem)).modifyStruct _ fun _ => ⟨rfl, rfl⟩

theorem Arranged.modifyGlobal (h : c.Arranged) (id : GlobalId) {change : Global → Global}
    (hkind : ∀ g, (change g).kind = g.kind) : (c.modifyGlobal id change).Arranged := by
  refine h.of_same (fun other => ?_) (fun _ => ⟨rfl, rfl⟩) fun _ => rfl
  rw [Check.global_modifyGlobal]
  split
  · exact hkind _
  · rfl

theorem Arranged.withTemplate (h : c.Arranged) {t : TemplateDef}
    (ht : t.item.kind.Arranged ∧ t.item.kind.Legible) : (c.withTemplate t).Arranged where
  functions := h.functions
  structs := h.structs
  templates id := by
    rw [template_withTemplate]
    split
    · exact ht
    · exact h.templates id

theorem Arranged.addInstance (h : c.Arranged) (id : TemplateId) (new : Instance) :
    (c.addInstance id new).Arranged :=
  h.of_same (fun _ => rfl) (fun _ => ⟨rfl, rfl⟩) fun other => c.item_addInstance id other new

end Context

namespace Check

variable {ask : Asker} {c d : Context}

theorem arranged_declareEntity {kind : Surface.ItemKind} (hkind : kind.Arranged ∧ kind.Legible)
    (scope : Scope) (names : Option InstanceNames) :
    (declareEntity kind scope names).Preserves Context.Arranged := by
  refine Context.preserves_declareEntity_of (fun c decl _ _ _ h hc => ?_) (fun c decl _ _ _ h hc => ?_)
    (fun _ _ _ _ _ hc => hc.withGlobal nofun) (fun _ _ hc => hc.of_eq rfl rfl rfl)
    (fun _ _ _ _ _ _ hc => hc.of_eq rfl rfl rfl)
  · exact hc.function (hkind.1 decl (by simp [h, Surface.ItemKind.functions]))
  · subst h
    exact hc.newStruct hkind.2 hkind.1

/-- A file that was read declares what is arranged. -/
theorem arranged_declareModule {file : Surface.Module} (hfile : file.IsRead) :
    (declareModule file).Preserves Context.Arranged := by
  obtain ⟨name, text, hread⟩ := hfile
  have hpackages (c : Context) (packages : Array Package) (hc : c.Arranged) :
      Context.Arranged { c with packages } := hc.of_eq rfl rfl rfl
  refine preserves_declareModule_of (preserves_packageId hpackages) fun item hmem => ?_
  have hitem : item.kind.Arranged ∧ item.kind.Legible :=
    ⟨arranged_parse hread item hmem, legible_parse hread item hmem⟩
  exact preserves_declareItem hpackages (arranged_declareEntity hitem)
    (preserves_declareTemplate hpackages fun _ _ hof hc => hc.withTemplate (hof ▸ hitem))

theorem arranged_detached {α : Type} {work : Check α} (h : work.Preserves Context.Arranged) :
    (detached work).Preserves Context.Arranged := by
  intro c d hd hc
  obtain ⟨e, hwork, rfl⟩ := Run.ends_andFinally hd
  exact (h hwork (hc.of_eq rfl rfl rfl)).of_eq rfl rfl rfl

theorem arranged_modifyFrame (change : Frame → Frame) :
    (modifyFrame change).Preserves Context.Arranged :=
  Run.preserves_modify fun _ hc => hc.of_eq rfl rfl rfl

section

variable (ha : ∀ q, (ask q).Preserves Context.Arranged)

include ha

theorem arranged_stable : Stable ask Context.Arranged where
  answers q _ := ha q
  detached := arranged_detached
  consume := preserves_consume arranged_modifyFrame
  aliasStarted _ _ hc := hc.of_eq rfl rfl rfl
  aliasDone _ _ _ hc := hc.of_eq rfl rfl rfl
  structResolved := preserves_resolveStruct (fun q _ => ha q) arranged_detached
    (fun _ id hc => hc.modifyStruct id fun _ => ⟨rfl, rfl⟩)
    fun _ id _ hc => hc.modifyStruct id fun _ => ⟨rfl, rfl⟩
  macroDone _ _ _ _ hc := hc.of_eq rfl rfl rfl
  instantiate := preserves_instance
    (fun _ id scope _ _ _ hc => arranged_declareEntity (hc.templates id) scope _) (fun q _ => ha q)
    arranged_detached (fun _ id made hc => hc.addInstance id made)
    fun _ _ _ hc => hc.of_eq rfl rfl rfl

theorem arranged_invariant : Invariant ask Context.Arranged where
  toStable := arranged_stable ha
  everyAnswer := ha
  agrees _ _ h hc := hc.of_eq h.globals h.structs h.templates
  bodyOpened _ _ _ hc := hc.of_eq rfl rfl rfl
  bodyClosed _ hc := hc.of_eq rfl rfl rfl
  param _ _ := preserves_declareLocal arranged_modifyFrame _ _ _ _
  receiver _ _ := preserves_declareLocal arranged_modifyFrame _ _ _ _
  declared := preserves_declStmt arranged_modifyFrame (arranged_stable ha)

theorem arranged_resolveGlobal (id : GlobalId) (usedAt : Span) :
    (resolveGlobal ask id usedAt).Preserves Context.Arranged :=
  preserves_resolveGlobal (arranged_stable ha) (fun _ id hc => hc.modifyGlobal id fun _ => rfl)
    (fun _ id _ _ hc => hc.modifyGlobal id fun _ => rfl) id usedAt

/-- Files that were read keep everything arranged. -/
theorem arranged_checkModulesWith {files : List Surface.Module} (hfiles : ∀ file ∈ files, file.IsRead) :
    (checkModulesWith ask files).Preserves Context.Arranged := by
  have hfollowing : FollowingProgram (.keeping Context.Arranged) ask ask := by
    refine ⟨(arranged_invariant ha).following.toFollowingFunction, fun _ _ _ _ => ⟨fun hc => hc.of_eq rfl rfl rfl, trivial⟩,
      fun c d id body _ hmoves _ => ?_⟩
    exact ⟨fun hc => (hmoves hc).of_eq rfl rfl rfl, trivial, trivial⟩
  exact hfollowing.preserves_modules fun file hfile => arranged_declareModule (hfiles file hfile)

end

theorem arranged_answerCut {cut : Cut} (n : Nat) (q : Query) :
    (answerCut cut n q).Preserves Context.Arranged := by
  induction n generalizing q with
  | zero => exact Run.preserves_stop _
  | succ n ih => exact preserves_cutAt ((arranged_invariant ih).step (arranged_resolveGlobal ih) q)

theorem arranged_answer (q : Query) : (answer q).Preserves Context.Arranged := by
  unfold answer
  rw [← answerCut_none]
  exact arranged_answerCut _ q

/-! ## Bodies that wait -/

/-- All warnings were raised for the bodies that were accepted, body by body. -/
def Recounts (c : Context) : Prop := ∃ raised : List (List Warning),
  c.warnings.toList = raised.flatten ∧
    List.Forall₂ (fun (body : Body) new => Marks body.block.inside new) c.bodies.toList raised

theorem recounts_of_eq (hc : Recounts c) (hwarnings : d.warnings = c.warnings)
    (hbodies : d.bodies = c.bodies) : Recounts d := by
  unfold Recounts
  rwa [hwarnings, hbodies]

/-- A body is accepted with the warnings that were raised for it. -/
theorem recounts_accept {id : GlobalId} {body : Body} (harranged : c.Arranged) (hc : Recounts c)
    (h : checkBody answer id c = .ok body d) : Recounts { d with bodies := d.bodies.push body } := by
  obtain ⟨raised, hraised, hexact⟩ := hc
  obtain ⟨new, hnew, hmarks⟩ := marks_checkBody (harranged.functions id) h
  refine ⟨raised ++ [new], ?_, ?_⟩
  · rw [List.flatten_append, List.flatten_singleton, ← hraised]
    exact hnew
  · rw [Array.toList_push, bodies_checkBody h]
    exact List.rel_append hexact (.cons hmarks .nil)

/-- The bodies that wait are accepted one by one. -/
theorem recounts_checkPendingTo {n : Nat} (harranged : c.Arranged) (hc : Recounts c)
    (h : checkPendingTo answer n c = .ok ⟨⟩ d) : Recounts d := by
  induction n generalizing c with
  | zero => cases h
  | succ n ih =>
    obtain ⟨_, _, hget, h⟩ := Run.bind_eq_ok.mp h
    cases hget
    cases hpending : c.pending with
    | nil =>
      simp only [hpending] at h
      cases h
      exact hc
    | cons id rest =>
      simp only [hpending] at h
      obtain ⟨_, _, hset, h⟩ := Run.bind_eq_ok.mp h
      cases hset
      obtain ⟨body, e, hbody, h⟩ := Run.bind_eq_ok.mp h
      obtain ⟨_, _, hpush, h⟩ := Run.bind_eq_ok.mp h
      cases hpush
      have hstart : Context.Arranged { c with pending := rest, bodyDepth := (c.global id).depth } :=
        harranged.of_eq rfl rfl rfl
      have he : e.Arranged :=
        preserves_checkBody (arranged_invariant arranged_answer) id (Run.ends_of_ok hbody) hstart
      have hnext : Context.Arranged { e with bodies := e.bodies.push body } := he.of_eq rfl rfl rfl
      exact ih hnext (recounts_accept hstart (recounts_of_eq hc rfl rfl) hbody) h

/-- Nothing is accepted and no warning is raised in front of the bodies. -/
theorem blank_declareModule (file : Surface.Module) :
    (declareModule file).Preserves fun c => c.warnings = #[] ∧ c.bodies = #[] := by
  refine preserves_declareModule_of (preserves_packageId fun _ _ hc => hc) fun item _ => ?_
  refine preserves_declareItem (fun _ _ hc => hc) (preserves_declareEntity ?_ _)
    (preserves_declareTemplate (fun _ _ hc => hc) fun _ _ _ hc => hc)
  exact ⟨fun _ _ _ _ _ hc => hc, fun _ _ _ _ hc => hc, fun _ _ _ hc => hc, fun _ _ _ hc => hc,
    fun _ _ _ _ hc => hc⟩

end Check

namespace Session

/-- One request of a session that checks files only if they were read. -/
inductive ReadStep (c d : Context) : Prop where
  | modules (cut : Cut) (files : List Surface.Module) (hfiles : ∀ file ∈ files, file.IsRead)
      (h : (Check.checkModulesWith (Check.answerCut cut Check.nestingBound) files).Ends c d)
  | query (cut : Cut) (q : Query) (h : (Check.answerCut cut Check.nestingBound q).Ends c d)
  | instantiate (cut : Cut) (id : TemplateId) (args : List Ty) (span : Span)
      (h : (Check.instantiate (Check.answerCut cut Check.nestingBound) id args span).Ends c d)

/-- The contexts that checking files can come to that were read. -/
def ReadMoment (c : Context) : Prop := ∃ options, Relation.ReflTransGen ReadStep { options } c

variable {c d : Context}

theorem arranged_start (options : Options) : Context.Arranged { options } :=
  ⟨nofun, fun _ => ⟨List.not_mem_nil, nofun⟩, fun _ => ⟨nofun, trivial⟩⟩

theorem ReadMoment.arranged (hc : ReadMoment c) : c.Arranged := by
  obtain ⟨options, hsteps⟩ := hc
  induction hsteps with
  | refl => exact arranged_start options
  | tail _ step ih =>
    cases step with
    | modules cut files hfiles hs =>
      exact Check.arranged_checkModulesWith (Check.arranged_answerCut _) hfiles hs ih
    | query cut q hs => exact Check.arranged_answerCut _ q hs ih
    | instantiate cut id args span hs =>
      exact (Check.arranged_stable (Check.arranged_answerCut _)).instantiate id args span hs ih

/-- The structs of a program that is accepted are legible, and their fields have the names of their
declarations. -/
theorem legible_checkProgram {options : Options} {files : List SourceFile}
    (h : checkProgram options files = .ok c) : c.Legible := by
  obtain ⟨modules, hparsed, hmodules⟩ := checkProgram_eq_ok h
  have hc := (reachable_checkProgram h).moment
  have harranged : c.Arranged := Check.arranged_checkModulesWith Check.arranged_answer
    (isRead_parseProgram hparsed) (Run.ends_of_ok hmodules) (arranged_start options)
  refine fun id => ⟨(harranged.structs id).name, fun f hf => ?_⟩
  have hcomplete : (c.struct id).state = .complete := by
    by_contra hstate
    rw [(hc.wellTyped.structs id).fields hstate] at hf
    cases hf
  have hname := List.mem_map_of_mem (f := (·.name)) hf
  rw [(hc.regular.structs id).declared hcomplete] at hname
  obtain ⟨field, hfield, hsame⟩ := List.mem_map.mp hname
  exact hsame ▸ (harranged.structs id).fields field hfield

/-- Unreachable warnings are exact. Wherever a body is checked successfully, each statement of its
blocks that is flagged lies inside exactly one region that was warned of for it, each region covers a
flagged statement and no other one, and the regions do not overlap. -/
theorem unreachable_exact (hc : ReadMoment c) {id : GlobalId} {body : Body}
    (h : Check.checkBody Check.answer id c = .ok body d) :
    ∃ raised, d.warnings.toList = c.warnings.toList ++ raised ∧ Marks body.block.inside raised :=
  Check.marks_checkBody (hc.arranged.functions id) h

/-- A branch that is never taken and, behind a `return`, a loop that is never entered. -/
def deadSources : List SourceFile :=
  [⟨"main.own", String.join
    [ "fn f() \x7b if (false) \x7b f(); \x7d return; ",
      "f(); while (false) \x7b f(); \x7d \x7d" ]⟩]

/-- Two regions are warned of: the branch, and all that is behind the `return`. -/
theorem unreachable_exact_dead :
    ∃ (c d : Context) (body : Body) (raised : List Warning), ReadMoment c ∧
      Check.checkBody Check.answer ⟨0⟩ c = .ok body d ∧
      d.warnings.toList = c.warnings.toList ++ raised ∧ Marks body.block.inside raised ∧
      raised.length = 2 ∧
      body.block.inside.map (·.unreachable) = [false, true, false, true, true, true] := by
  have hrun : ((checkProgram { includeStd := false, requireEntry := false } deadSources).toOption.bind
      fun c => ((do
        let body ← Check.checkBody Check.answer ⟨0⟩
        let after ← get
        return (c.warnings.size, after.warnings.size, body.block.inside.map (·.unreachable)) :
          Check (Nat × Nat × List Bool)) c).value?) =
        some (2, 4, [false, true, false, true, true, true]) := by
    rw [checkProgram_eq, deadSources, SourceFile.mapM_parse_join]
    decide +kernel
  cases hchecked : checkProgram { includeStd := false, requireEntry := false } deadSources with
  | error why =>
    rw [hchecked] at hrun
    cases hrun
  | ok c =>
    rw [hchecked] at hrun
    obtain ⟨files, hparsed, hmodules⟩ := checkProgram_eq_ok hchecked
    have hplain : Check.answerCut (fun _ _ => none) Check.nestingBound = Check.answer :=
      Check.answerCut_none _
    have hc : ReadMoment c := ⟨_, .single (.modules (fun _ _ => none) files
      (isRead_parseProgram hparsed) (by rw [hplain]; exact Run.ends_of_ok hmodules))⟩
    obtain ⟨_, hbodies⟩ := Outcome.value?_eq_some.mp hrun
    obtain ⟨body, d, hbody, hcounts⟩ := Run.bind_eq_ok.mp hbodies
    have hcounts := (Outcome.ok.inj hcounts).1
    simp only [Prod.mk.injEq] at hcounts
    obtain ⟨hbefore, hafter, hflags⟩ := hcounts
    obtain ⟨raised, hraised, hmarks⟩ := unreachable_exact hc hbody
    refine ⟨c, d, body, raised, hc, hbody, hraised, hmarks, ?_, hflags⟩
    have hlength := congrArg List.length hraised
    rw [List.length_append, Array.length_toList, Array.length_toList, hbefore, hafter] at hlength
    exact (Nat.add_left_cancel hlength).symm

/-- All warnings for a program that is accepted are those for its bodies, body by body, and are exact for
each of them. -/
theorem recounts_checkProgram {options : Options} {sources : List SourceFile}
    (h : checkProgram options sources = .ok c) : Check.Recounts c := by
  obtain ⟨files, hparsed, h⟩ := checkProgram_eq_ok h
  obtain ⟨_, c₁, hdeclare, h⟩ := Run.bind_eq_ok.mp h
  obtain ⟨⟨⟩, c₂, hunique, h⟩ := Run.bind_eq_ok.mp h
  obtain ⟨⟨⟩, c₃, hresolve, h⟩ := Run.bind_eq_ok.mp h
  obtain ⟨⟨⟩, c₄, hbodies, hentry⟩ := Run.bind_eq_ok.mp h
  obtain ⟨rfl, -⟩ := Check.requireUnique_eq_ok hunique
  have hdeclared : c₂.Arranged :=
    Run.preserves_forIn_mem (fun file hmem _ => (Check.arranged_declareModule
      (isRead_parseProgram hparsed file hmem)).bind fun _ => Run.preserves_pure _) _
      (Run.ends_of_ok hdeclare) (arranged_start options)
  obtain ⟨hwarnings, haccepted⟩ :=
    Run.preserves_forIn (P := fun c : Context => c.warnings = #[] ∧ c.bodies = #[])
      (fun file _ => (Check.blank_declareModule file).bind fun _ => Run.preserves_pure _) _ _
      (Run.ends_of_ok hdeclare) ⟨rfl, rfl⟩
  have hblank : Check.Recounts c₂ := ⟨[], by rw [hwarnings]; rfl, by rw [haccepted]; exact .nil⟩
  -- Resolving the declarations and the entry point raises no warning and accepts no body.
  have hquiet (w : Array Warning) := ((Check.warns_answerTo Check.nestingBound).stable w).following
  have hkept (bodies : Array Body) := (Check.bodies_untouched (· = bodies)).following.toFollowing
  have hstart : Check.Recounts c₃ := Check.recounts_of_eq hblank
    ((Check.follows_resolveDeclarations (hquiet _)).preserves (Run.ends_of_ok hresolve) rfl)
    ((Check.follows_resolveDeclarations (hkept _)).preserves (Run.ends_of_ok hresolve) rfl)
  have harranged : c₃.Arranged :=
    (Check.follows_resolveDeclarations (Check.arranged_stable Check.arranged_answer).following).preserves
      (Run.ends_of_ok hresolve) hdeclared
  exact Check.recounts_of_eq (Check.recounts_checkPendingTo harranged hstart hbodies)
    ((Check.follows_checkEntry (hquiet _) fun _ _ => ⟨id, trivial⟩).preserves (Run.ends_of_ok hentry) rfl)
    ((Check.follows_checkEntry (hkept _) fun _ _ => ⟨id, trivial⟩).preserves (Run.ends_of_ok hentry) rfl)

end Session

end OwnLang
