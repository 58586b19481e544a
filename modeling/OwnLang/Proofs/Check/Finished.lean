import Mathlib
import OwnLang.Proofs.Check.Containment
import OwnLang.Proofs.Check.SettleBody

/-!
# What checking a program finishes

Once everything that files declare is resolved, all structs, aliases and macros are complete
(`Context.Resolved`), and no later instance changes that. The functions whose bodies were checked and those
that wait for it are together the functions with bodies, each of them once (`Context.Queued`): one body is
checked after the other until none waits. So a program that is accepted is `Context.Finished`.
-/

namespace OwnLang

namespace Context

/-- Everything that is declared is complete. -/
structure Resolved (c : Context) : Prop where
  structs : ∀ id : StructId, id.index < c.structs.size → (c.struct id).state = .complete
  aliases : ∀ id : AliasId, id.index < c.aliases.size → (c.typeAlias id).Named
  macros : ∀ id : MacroId, id.index < c.macros.size → (c.macroDef id).state = .complete

/-- What a context holds is declared in it and satisfies the typing rules. -/
structure Sound (c : Context) : Prop where
  coherent : c.Coherent
  wellTyped : c.WellTyped

/-- Nothing was left unfinished in between, and nothing that was known has changed. -/
structure Concludes (c d : Context) : Prop where
  settles : c.Settles d
  keeps : c.Keeps d

/-- A member of a package is resolved. Aliases and templates have passes of their own. -/
def HasResolved (c : Context) : Member → Prop
  | .struct id => (c.struct id).state = .complete
  | .global id => (c.typeOf? id).isSome
  | .typeAlias _ | .template _ => True

/-- Every function with a body was checked once, or waits for it. -/
structure Queued (c : Context) : Prop extends Sound c where
  accounted : c.bodies.toList.map (·.function) ++ c.pending = c.bodied
  bodies : ∀ body ∈ c.bodies, c.Knows body

/-- The state in which a program is accepted. -/
structure Finished (c : Context) : Prop extends Queued c, Resolved c where
  pending : c.pending = []
  entry : ∀ id, c.entry = some id → (c.global id).hasBody

variable {c d e : Context}

theorem Resolved.settles (h : c.Resolved) (hcd : c.Settles d) : d.Resolved where
  structs id hid := by
    rcases Nat.lt_or_ge id.index c.structs.size with hold | hnew
    · exact hcd.structs id (h.structs id hold)
    · exact hcd.fresh id hnew hid
  aliases id hid := hcd.aliases id (h.aliases id (hid.trans_eq hcd.aliasCount))
  macros id hid := hcd.macros id (h.macros id (hid.trans_eq hcd.macroCount))

/-- The functions whose bodies were checked are those with bodies. -/
theorem Finished.functions (h : c.Finished) : c.bodies.toList.map (·.function) = c.bodied := by
  rw [← h.accounted, h.pending, List.append_nil]

theorem Finished.hasBody (h : c.Finished) {body : Body} (hbody : body ∈ c.bodies) :
    (c.global body.function).hasBody :=
  mem_bodied.mp (h.functions ▸ List.mem_map_of_mem (Array.mem_toList_iff.mpr hbody))

theorem Finished.exists_body (h : c.Finished) {id : GlobalId} (hbody : (c.global id).hasBody) :
    ∃ body ∈ c.bodies, body.function = id := by
  have hid : id ∈ c.bodies.toList.map (·.function) := h.functions ▸ mem_bodied.mpr hbody
  obtain ⟨body, hin, rfl⟩ := List.mem_map.mp hid
  exact ⟨body, Array.mem_toList_iff.mp hin, rfl⟩

/-- A function that has a body was checked once. -/
theorem Finished.countP_body (h : c.Finished) {id : GlobalId} (hbody : (c.global id).hasBody) :
    c.bodies.toList.countP (·.function = id) = 1 := by
  have hcount := List.count_eq_one_of_mem (nodup_bodied c) (mem_bodied.mpr hbody)
  rw [← h.functions, List.count, List.countP_map] at hcount
  rw [← hcount]
  exact List.countP_congr fun body _ => by simp

theorem Concludes.refl (c : Context) : c.Concludes c := ⟨.refl c, .refl c⟩

theorem Concludes.trans (h : c.Concludes d) (h' : d.Concludes e) : c.Concludes e :=
  ⟨h.settles.trans h'.settles, h.keeps.trans h'.keeps⟩

theorem HasResolved.mono {member : Member} (h : c.HasResolved member) (hcd : c.Keeps d) :
    d.HasResolved member := by
  cases member with
  | struct id =>
    have hcomplete : (c.struct id).state = .complete := h
    exact (hcd.structs id (struct_lt (by simp [hcomplete])) (by simp [hcomplete])).1.trans hcomplete
  | global id =>
    obtain ⟨t, ht⟩ := Option.isSome_iff_exists.mp h
    exact Option.isSome_iff_exists.mpr ⟨t, (hcd.extends #[]).global id t ht⟩
  | typeAlias id => trivial
  | template id => trivial

end Context

namespace Check

variable {ask : Asker} {c d : Context} {scope : Scope}

/-- Answers that finish what they begin, and keep what is known. -/
structure Concluding (ask : Asker) : Prop where
  settler : Settler ask
  elaborates : Elaborates ask
  /-- Nothing is done for a global whose type is known. -/
  known : ∀ {id usedAt t} {c d : Context}, (c.typeOf? id).isSome →
    ask (.global id usedAt) c = .ok t d → d = c ∧ c.typeOf? id = some t

theorem concludes {α : Type} [Mentions α] {x : Check α} {a : α} (hc : c.Sound)
    (h : x c = .ok a d) (hsettles : Settling c x) (hkeeps : x.Preserves (Elaborated c)) :
    c.Concludes d ∧ d.Sound := by
  obtain ⟨hcd, hd, -⟩ := hsettles hc.coherent h
  have hkept := hkeeps (Run.ends_of_ok h) ⟨.refl c, hc.wellTyped⟩
  exact ⟨⟨hcd, hkept.keeps⟩, hd, hkept.wellTyped⟩

section

variable (h : Concluding ask)

include h

/-! ## Declarations -/

theorem Concluding.answer (hc : c.Sound) {q : Query} (hq : c.Knows q) {a : q.Answer}
    (hrun : ask q c = .ok a d) : c.Concludes d ∧ d.Sound :=
  concludes hc hrun (h.settler.answers hq) (h.elaborates.keeps c q)

theorem concludes_resolveMember (hc : c.Sound) {name : Surface.Ident} {member : Member}
    (hrun : resolveMember ask name member c = .ok ⟨⟩ d) :
    c.Concludes d ∧ d.Sound ∧ d.HasResolved member := by
  cases member with
  | struct id =>
    obtain ⟨⟨⟩, e, hlayout, hrun⟩ := Run.bind_eq_ok.mp hrun
    obtain ⟨hce, he⟩ := h.answer hc Context.knows_queryLayout hlayout
    have hcomplete := h.settler.layout hc.coherent hlayout
    obtain ⟨_, _, hget, hrun⟩ := Run.bind_eq_ok.mp hrun
    cases hget
    obtain ⟨r, d', hloop, hreturn⟩ := Run.bind_eq_ok.mp hrun
    cases hreturn
    obtain ⟨hd, hed, -⟩ := Run.forIn_steps (P := Context.Sound) (R := Context.Concludes) .refl .trans
      (fun method _ s step t hstep hs => by
        obtain ⟨u, t', hglobal, hyield⟩ := Run.bind_eq_ok.mp hstep
        cases hyield
        obtain ⟨hst, ht⟩ := h.answer hs Context.knows_queryGlobal hglobal
        exact ⟨rfl, ht, hst⟩) hloop he
    exact ⟨hce.trans hed, hd, hed.settles.structs id hcomplete⟩
  | global id =>
    obtain ⟨t, e, hglobal, hreturn⟩ := Run.bind_eq_ok.mp hrun
    cases hreturn
    obtain ⟨hcd, hd⟩ := h.answer hc Context.knows_queryGlobal hglobal
    exact ⟨hcd, hd, Option.isSome_iff_exists.mpr ⟨t, h.elaborates.global hc.wellTyped hglobal⟩⟩
  | typeAlias id =>
    cases hrun
    exact ⟨.refl c, hc, trivial⟩
  | template id =>
    cases hrun
    exact ⟨.refl c, hc, trivial⟩

theorem concludes_declaredAlias (hc : c.Sound) {i : ℕ} {t : Ty} (hrun : declaredAlias ask ⟨i⟩ c = .ok t d) :
    c.Concludes d ∧ d.Sound ∧ (i < c.aliases.size → (d.typeAlias ⟨i⟩).Named) := by
  obtain ⟨_, _, hget, hrun⟩ := Run.bind_eq_ok.mp hrun
  cases hget
  obtain ⟨hcd, hd⟩ := h.answer hc Context.knows_queryAlias hrun
  exact ⟨hcd, hd, fun hi => h.settler.typeAlias hc.coherent hi hrun⟩

theorem concludes_resolveMacro (hc : c.Sound) {i : ℕ} (hrun : resolveMacro ask ⟨i⟩ c = .ok ⟨⟩ d) :
    c.Concludes d ∧ d.Sound ∧ (i < c.macros.size → (d.macroDef ⟨i⟩).state = .complete) := by
  obtain ⟨hcd, hd, hcomplete⟩ := settles_resolveMacro h.settler hc.coherent hrun
  have hkept := preserves_resolveMacro h.elaborates.stable ⟨i⟩ (Run.ends_of_ok hrun) ⟨.refl c, hc.wellTyped⟩
  exact ⟨⟨hcd, hkept.keeps⟩, ⟨hd, hkept.wellTyped⟩, hcomplete⟩

/-- Behind the passes over declarations everything is complete. Structs are members of packages, but for
those that templates make, which are complete from the start. -/
theorem resolved_resolveDeclarations (hc : c.Sound) (hmembers : ∀ id : StructId,
      id.index < c.structs.size → ∃ package ∈ c.packages, ∃ name, (name, .struct id) ∈ package.members)
    (hrun : resolveDeclarations ask c = .ok ⟨⟩ d) :
    c.Concludes d ∧ d.Sound ∧ d.Resolved ∧
      ∀ package ∈ c.packages, ∀ member ∈ package.members, d.HasResolved member.2 := by
  obtain ⟨c₁, c₂, haliases, hpackages, hmacros⟩ := resolveDeclarations_eq_ok hrun
  obtain ⟨hc₁, hcc₁, hallAliases⟩ := Run.forIn_rounds (P := Context.Sound) (R := Context.Concludes) .refl .trans
    (fun i _ s _ t halias hs => (concludes_declaredAlias h hs halias).imp_right And.left |>.symm) haliases hc
  obtain ⟨hc₂, hc₁c₂, hallMembers⟩ := Run.forIn_rounds (P := Context.Sound) (R := Context.Concludes) .refl .trans
    (fun member _ s _ t hmember hs => (concludes_resolveMember h hs hmember).imp_right And.left |>.symm) hpackages hc₁
  obtain ⟨hd, hc₂d, hallMacros⟩ := Run.forIn_rounds (P := Context.Sound) (R := Context.Concludes) .refl .trans
    (fun i _ s _ t hmacro hs => (concludes_resolveMacro h hs hmacro).imp_right And.left |>.symm) hmacros hc₂
  have hcd := (hcc₁.trans hc₁c₂).trans hc₂d
  have hresolved (package) (hpackage : package ∈ c.packages) (member) (hin : member ∈ package.members) :
      d.HasResolved member.2 := by
    obtain ⟨s, _, t, hs, -, hmember, htc₂⟩ := hallMembers member (List.mem_flatMap.mpr ⟨package,
      Array.mem_toList_iff.mpr (hcc₁.settles.packages ▸ hpackage), hin⟩)
    exact (concludes_resolveMember h hs hmember).2.2.mono (htc₂.trans hc₂d).keeps
  refine ⟨hcd, hd, ⟨fun id hid => ?_, fun id hid => ?_, fun id hid => ?_⟩, hresolved⟩
  · rcases Nat.lt_or_ge id.index c.structs.size with hold | hnew
    · obtain ⟨package, hpackage, name, hin⟩ := hmembers id hold
      exact hresolved package hpackage _ hin
    · exact hcd.settles.fresh id hnew hid
  · have hold := hid.trans_eq hcd.settles.aliasCount
    obtain ⟨s, _, t, hs, hcs, halias, htc₁⟩ := hallAliases id.index (List.mem_range.mpr hold)
    have hnamed := (concludes_declaredAlias h hs halias).2.2 (hold.trans_eq hcs.settles.aliasCount.symm)
    exact ((htc₁.trans hc₁c₂).trans hc₂d).settles.aliases id hnamed
  · have hold := hid.trans_eq hc₂d.settles.macroCount
    obtain ⟨s, _, t, hs, hcs, hmacro, htd⟩ := hallMacros id.index (List.mem_range.mpr hold)
    have hcomplete := (concludes_resolveMacro h hs hmacro).2.2 (hold.trans_eq hcs.settles.macroCount.symm)
    exact htd.settles.macros id hcomplete

/-! ## Bodies -/

omit h in
/-- A body that waits is taken from the queue. -/
theorem coherent_dequeue (hc : c.Coherent) (pending : List GlobalId) (bodyDepth : Nat) :
    Context.Coherent { c with pending, bodyDepth } where
  closed := { hc.closed with }
  labelled := { hc.labelled with
    methods := fun id owner howner => { hc.labelled.methods id owner howner with } }
  apart := ⟨hc.apart.structs, hc.apart.globals⟩

omit h in
theorem function_checkBody {id : GlobalId} {body : Body} (hrun : checkBody ask id c = .ok body d) :
    body.function = id := by
  obtain ⟨decl, owner, t, params, variadic, returns, c₁, -, -, -, hbody⟩ := checkBody_eq_ok hrun
  obtain ⟨steps, rfl⟩ := checkTypedBody_eq_ok hbody
  rfl

/-- The functions that are declared while a body is checked wait behind the others. -/
theorem queued_checkBody (hc : c.Queued) {id : GlobalId} {rest : List GlobalId}
    (hpending : c.pending = id :: rest) {bodyDepth : Nat} {body : Body}
    (hrun : checkBody ask id { c with pending := rest, bodyDepth } = .ok body d) :
    Context.Queued { d with bodies := d.bodies.push body } ∧
      c.Keeps { d with bodies := d.bodies.push body } ∧
      Context.Settles { c with pending := rest, bodyDepth } d := by
  have hopened := coherent_dequeue hc.coherent rest bodyDepth
  obtain ⟨hsettles, hd, hbody⟩ := settling_checkBody h.settler hopened hrun
  have hkept := (elaborated_lasting h.elaborates).bodyAccepted _ d id body hrun
    (Elaborated.of_eq (⟨.refl c, hc.wellTyped⟩ : Elaborated c c) rfl rfl rfl)
    (preserves_checkBody (elaborated_lasting h.elaborates).toInvariant id (Run.ends_of_ok hrun)
      (Elaborated.of_eq (⟨.refl c, hc.wellTyped⟩ : Elaborated c c) rfl rfl rfl))
  obtain ⟨new, hwaiting, hbodied⟩ := hsettles.queues
  refine ⟨⟨⟨⟨{ hd.closed with }, { hd.labelled with
      methods := fun id owner howner => { hd.labelled.methods id owner howner with } },
      ⟨hd.apart.structs, hd.apart.globals⟩⟩, hkept.wellTyped⟩, ?_, fun other hother => ?_⟩,
    hkept.keeps, hsettles⟩
  · calc (d.bodies.push body).toList.map (·.function) ++ d.pending
      _ = c.bodies.toList.map (·.function) ++ [id] ++ (rest ++ new) := by
        rw [Array.toList_push, List.map_append, hwaiting, hsettles.bodies, List.map_singleton,
          function_checkBody hrun]
      _ = c.bodied ++ new := by
        rw [← hc.accounted, hpending]
        simp
      _ = d.bodied := hbodied.symm
  · rcases Array.mem_push.mp hother with hold | rfl
    · exact (hc.bodies other (hsettles.bodies ▸ hold)).mono hsettles.structCount
    · exact hbody

/-- No body waits once all have been checked, those included that were asked for on the way. -/
theorem queued_checkPendingTo {n : Nat} (hc : c.Queued) (hresolved : c.Resolved)
    (hrun : checkPendingTo ask n c = .ok ⟨⟩ d) :
    d.Queued ∧ d.Resolved ∧ d.pending = [] ∧ d.packages = c.packages ∧ d.entry = c.entry ∧
      c.Keeps d := by
  induction n generalizing c with
  | zero => cases hrun
  | succ n ih =>
    obtain ⟨_, _, hget, hrun⟩ := Run.bind_eq_ok.mp hrun
    cases hget
    cases hpending : c.pending with
    | nil =>
      simp only [hpending] at hrun
      cases hrun
      exact ⟨hc, hresolved, hpending, rfl, rfl, .refl _⟩
    | cons id rest =>
      simp only [hpending] at hrun
      obtain ⟨_, _, hset, hrun⟩ := Run.bind_eq_ok.mp hrun
      cases hset
      obtain ⟨body, e, hbody, hrun⟩ := Run.bind_eq_ok.mp hrun
      obtain ⟨_, _, hpush, hrun⟩ := Run.bind_eq_ok.mp hrun
      cases hpush
      obtain ⟨hqueued, hkept, hsettles⟩ := queued_checkBody h hc hpending hbody
      have hlater : Context.Resolved { e with bodies := e.bodies.push body } := by
        have hopened : Context.Resolved { c with pending := rest, bodyDepth := (c.global id).depth } :=
          ⟨hresolved.structs, hresolved.aliases, hresolved.macros⟩
        have he := hopened.settles hsettles
        exact ⟨he.structs, he.aliases, he.macros⟩
      obtain ⟨hd, hdone, hnone, hpackages, hentry, hkeeps⟩ := ih hqueued hlater hrun
      exact ⟨hd, hdone, hnone, hpackages.trans hsettles.packages, hentry.trans hsettles.entry,
        hkept.trans hkeeps⟩

/-! ## Programs -/

/-- The entry point has a body. Its type is known since it is a member of a package. -/
theorem finished_checkEntry (hc : c.Queued) (hresolved : c.Resolved) (hpending : c.pending = [])
    (hentry : c.entry = none) (hmembers : ∀ package ∈ c.packages, ∀ member ∈ package.members,
      c.HasResolved member.2) (hrun : checkEntry ask c = .ok ⟨⟩ d) : d.Finished := by
  have hnone : c.Finished := ⟨hc, hresolved, hpending, fun id hid => by (rw [hentry] at hid; cases hid)⟩
  unfold checkEntry at hrun
  obtain ⟨_, _, hget, hrun⟩ := Run.bind_eq_ok.mp hrun
  cases hget
  replace hrun : Gives _ c PUnit.unit d := hrun
  dsimp only at hrun
  split at hrun
  · split at hrun
    · cases hrun
    · cases hrun
      exact hnone
  · rename_i id hmember
    have hknown : (c.typeOf? id).isSome := by
      obtain ⟨package, -, hmember⟩ := Option.bind_eq_some_iff.mp hmember
      obtain ⟨⟨name, member⟩, hfound, rfl⟩ := Option.map_eq_some_iff.mp hmember
      have hin := List.mem_of_find?_eq_some hfound
      exact hmembers _ (Context.package_mem (Context.package_lt hin)) _ hin
    split at hrun
    · cases hrun
    · rename_i hfunction
      obtain ⟨t, e, hanswer, hrun⟩ := Run.bind_eq_ok.mp hrun
      obtain ⟨rfl, -⟩ := h.known hknown hanswer
      split at hrun
      · cases hrun
      · rename_i htype
        cases hrun
        have hbody : (e.global id).hasBody := by
          revert hfunction htype
          unfold Global.hasBody Global.isExternal Global.isFunction
          cases (e.global id).fnDecl? with
          | none => simp
          | some decl =>
            cases hdecl : decl.body <;> simp [hdecl]
        have hwellTyped : Context.WellTyped { e with entry := some id } :=
          (Elaborated.of_eq (c := e) (d := { e with entry := some id }) ⟨.refl e, hc.wellTyped⟩ rfl rfl
            rfl).wellTyped
        exact ⟨⟨⟨⟨{ hc.coherent.closed with }, { hc.coherent.labelled with
            methods := fun id owner howner => { hc.coherent.labelled.methods id owner howner with } },
            ⟨hc.coherent.apart.structs, hc.coherent.apart.globals⟩⟩,
          hwellTyped⟩,
          hc.accounted, hc.bodies⟩, ⟨hresolved.structs, hresolved.aliases, hresolved.macros⟩, hpending,
          fun id' hid' => by (cases hid'; exact hbody)⟩
  · cases hrun

omit h in
theorem declared_start (options : Options) : ({ options } : Context).Declared where
  closed := ⟨fun _ => Context.knows_of_nil rfl, fun _ => Context.knows_of_nil rfl,
    fun _ => Context.knows_of_nil rfl, fun _ => Context.knows_of_nil rfl,
    fun _ => Context.knows_of_nil rfl, fun _ => Context.knows_of_nil rfl, Context.knows_none⟩
  labelled := by
    refine ⟨fun _ => List.not_mem_nil, fun _ => trivial, fun _ => .plain List.not_mem_nil fun hword => ?_,
      fun _ hid _ => absurd hid.1 (Nat.not_lt_zero _), fun _ _ hexternal => ?_, fun _ _ howner => ?_,
      fun _ member hmember => ?_, fun _ hcomplete => ?_⟩
    · obtain ⟨c, rest, hempty, -⟩ := hword
      cases hempty
    · cases hexternal
    · cases howner
    · cases hmember
    · cases hcomplete
  waiting := rfl
  bodies := rfl
  entry := rfl
  instanceCount := rfl
  words id hid := absurd hid (Nat.not_lt_zero _)
  packages id _ hid := absurd hid (Nat.not_lt_zero _)
  structs id hid := absurd hid (Nat.not_lt_zero _)
  globals id hid _ := absurd hid.1 (Nat.not_lt_zero _)

omit h in
theorem coherent_of_unique (hc : c.Declared)
    (hunique : ∀ package ∈ c.packages, (package.members.map (·.1.name)).Nodup) : c.Coherent :=
  ⟨hc.closed, hc.instanceCount.symm ▸ hc.labelled, apart_of_unique hc hunique⟩

/-- A program that is accepted is finished. -/
theorem finished_checkModulesWith {files : List Surface.Module} (hfiles : ∀ file ∈ files, file.Worded)
    {options : Options} (hrun : checkModulesWith ask files { options } = .ok ⟨⟩ d) : d.Finished := by
  obtain ⟨_, c₁, hdeclare, hrun⟩ := Run.bind_eq_ok.mp hrun
  obtain ⟨⟨⟩, c₂, hunique, hrun⟩ := Run.bind_eq_ok.mp hrun
  obtain ⟨⟨⟩, c₃, hresolve, hrun⟩ := Run.bind_eq_ok.mp hrun
  obtain ⟨⟨⟩, c₄, hbodies, hentry⟩ := Run.bind_eq_ok.mp hrun
  have hdeclared : c₁.Declared := declared_files (declared_start options) hfiles hdeclare
  have hwellTyped : c₁.WellTyped := by
    refine (Run.preserves_forIn (P := Elaborated { options }) (fun file _ => ?_) _ _
      (Run.ends_of_ok hdeclare) ⟨.refl _, ?_⟩).wellTyped
    · exact (preserves_declareModule (elaborated_lasting h.elaborates) _).bind fun _ =>
        Run.preserves_pure _
    · exact Session.wellTyped_start options
  obtain ⟨rfl, hnames⟩ := requireUnique_eq_ok hunique
  have hstructs (id : StructId) (hid : id.index < c₂.structs.size) :
      ∃ package ∈ c₂.packages, ∃ name, (name, .struct id) ∈ package.members := by
    obtain ⟨package, name, hin, -⟩ := hdeclared.structs id hid
    exact ⟨_, Context.package_mem (Context.package_lt hin), name, hin⟩
  obtain ⟨hconcludes, hsound, hresolved, hmembers⟩ := resolved_resolveDeclarations h
    ⟨coherent_of_unique hdeclared hnames, hwellTyped⟩ hstructs hresolve
  obtain ⟨new, hpending, hbodied⟩ := hconcludes.settles.queues
  have hnone : c₃.bodies = #[] := hconcludes.settles.bodies.trans hdeclared.bodies
  have hqueued : c₃.Queued := by
    refine ⟨hsound, ?_, fun body hbody => ?_⟩
    · rw [hnone, hpending, hbodied, hdeclared.waiting]
      rfl
    · rw [hnone] at hbody
      simp at hbody
  obtain ⟨hd, hdone, hwaiting, hpackages, hkept, hkeeps⟩ := queued_checkPendingTo h hqueued hresolved hbodies
  refine finished_checkEntry h hd hdone hwaiting
    (hkept.trans (hconcludes.settles.entry.trans hdeclared.entry)) (fun package hpackage member hin => ?_)
    hentry
  rw [hpackages, hconcludes.settles.packages] at hpackage
  exact (hmembers package hpackage member hin).mono hkeeps

end

theorem resolveGlobal_known {id : GlobalId} {usedAt : Span} {t : Ty} (hknown : (c.typeOf? id).isSome)
    (hrun : resolveGlobal ask id usedAt c = .ok t d) : d = c ∧ c.typeOf? id = some t := by
  obtain hsame | ⟨hsettled, -⟩ := resolveGlobal_eq_ok hrun
  · exact hsame
  · obtain ⟨t', ht⟩ := Option.isSome_iff_exists.mp hknown
    obtain ⟨hstate, htype⟩ := Context.typeOf?_eq_some.mp ht
    exact absurd (.inr ⟨hstate, by simp [htype]⟩) hsettled

theorem concluding_answer : Concluding answer where
  settler := settler_answerTo nestingBound
  elaborates := elaborates_answer
  known := by
    obtain ⟨n, hn⟩ : ∃ n, nestingBound = n + 1 := ⟨99999, rfl⟩
    intro id usedAt t c d hknown hrun
    unfold answer at hrun
    rw [hn] at hrun
    exact resolveGlobal_known hknown hrun

/-- A program that is accepted is finished: everything is complete, and no body waits. -/
theorem finished_checkModules {files : List Surface.Module} (hfiles : ∀ file ∈ files, file.Worded)
    {options : Options} (hrun : checkModules files { options } = .ok ⟨⟩ c) : c.Finished :=
  finished_checkModulesWith concluding_answer hfiles hrun

end Check

end OwnLang
