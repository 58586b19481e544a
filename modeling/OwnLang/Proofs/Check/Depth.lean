import Mathlib
import OwnLang.Compile
import OwnLang.Proofs.Check.Finished
import OwnLang.Proofs.Check.Hygiene

/-!
# How deep instances are nested

What a template makes records how many instances were nested where it was asked for: where the body that
was being checked was asked for, and around that the instances that were being resolved. A request changes
neither (`Context.Amid`), so all that it makes lies deeper than the place it was asked from, and within the
limit of the options (`Session.Reachable.ranked`).

The depth of a body stands until the next body is taken. So what checking files leaves behind is the depth
of the last body that it accepted (`Session.instantiationDepth_left`): it is no depth at all exactly if that
body was written in a file, and otherwise the next request may nest that much less.
-/

namespace OwnLang

/-- What a template made is nested deeper than `above`, and within the limit. All else has no depth. -/
structure Global.Ranked (above limit : Nat) (g : Global) : Prop where
  made : g.isInstance = true → above < g.depth ∧ g.depth ≤ limit
  written : g.isInstance = false → g.depth = 0

theorem Global.Ranked.mono {above above' limit : Nat} {g : Global} (h : g.Ranked above limit)
    (habove : above' ≤ above) : g.Ranked above' limit where
  made hmade := ⟨habove.trans_lt (h.made hmade).1, (h.made hmade).2⟩
  written := h.written

theorem Global.Ranked.depth_le {above limit : Nat} {g : Global} (h : g.Ranked above limit) :
    g.depth ≤ limit := by
  cases hmade : g.isInstance with
  | true => exact (h.made hmade).2
  | false => exact h.written hmade ▸ Nat.zero_le _

theorem Global.Ranked.depth_eq_zero_iff {above limit : Nat} {g : Global} (h : g.Ranked above limit) :
    g.depth = 0 ↔ g.isInstance = false := by
  refine ⟨fun hzero => ?_, h.written⟩
  by_contra hmade
  exact Nat.not_lt_zero _ (hzero ▸ (h.made (Bool.eq_true_of_not_eq_false hmade)).1)

/-- It is known of a global whether a template made it, and how deep it is nested. -/
def Global.rank (g : Global) : Bool × Nat := (g.isInstance, g.depth)

theorem Global.Ranked.of_rank {above limit : Nat} {g g' : Global} (h : g.Ranked above limit)
    (hrank : g'.rank = g.rank) : g'.Ranked above limit := by
  obtain ⟨hinstance, hdepth⟩ := Prod.mk.inj hrank
  exact ⟨fun hmade => hdepth ▸ h.made (hinstance ▸ hmade),
    fun hwritten => hdepth ▸ h.written (hinstance ▸ hwritten)⟩

namespace Context

variable {origin c d : Context} {made : List (TemplateId × List Ty)}

/-- The instances `made` are being resolved, in the body that was being checked at `origin` or around that.
What was declared since then is ranked. -/
structure Amid (origin : Context) (made : List (TemplateId × List Ty)) (c : Context) : Prop where
  options : c.options = origin.options
  inProgress : c.inProgress = made
  bodyDepth : c.bodyDepth = origin.bodyDepth
  bodies : c.bodies = origin.bodies
  size : origin.globals.size ≤ c.globals.size
  known : ∀ id : GlobalId, id.index < origin.globals.size → (c.global id).rank = (origin.global id).rank
  fresh : ∀ id : GlobalId, origin.globals.size ≤ id.index →
    (c.global id).Ranked origin.instantiationDepth origin.options.maxInstantiationDepth

theorem Amid.refl (c : Context) : c.Amid c.inProgress c where
  options := rfl
  inProgress := rfl
  bodyDepth := rfl
  bodies := rfl
  size := le_rfl
  known _ _ := rfl
  fresh id hid := by
    rw [Check.global_of_size_le hid]
    exact ⟨nofun, fun _ => rfl⟩

/-- The globals are those that there were, as far as their rank is concerned. -/
theorem Amid.of_ranks (h : origin.Amid made c) (hoptions : d.options = c.options)
    (hprogress : d.inProgress = c.inProgress) (hdepth : d.bodyDepth = c.bodyDepth)
    (hbodies : d.bodies = c.bodies) (hsize : d.globals.size = c.globals.size)
    (hrank : ∀ id, (d.global id).rank = (c.global id).rank) : origin.Amid made d where
  options := hoptions.trans h.options
  inProgress := hprogress.trans h.inProgress
  bodyDepth := hdepth.trans h.bodyDepth
  bodies := hbodies.trans h.bodies
  size := hsize ▸ h.size
  known id hid := (hrank id).trans (h.known id hid)
  fresh id hid := (h.fresh id hid).of_rank (hrank id)

theorem Amid.of_eq (h : origin.Amid made c) (hoptions : d.options = c.options)
    (hprogress : d.inProgress = c.inProgress) (hdepth : d.bodyDepth = c.bodyDepth)
    (hbodies : d.bodies = c.bodies) (hglobals : d.globals = c.globals) : origin.Amid made d :=
  h.of_ranks hoptions hprogress hdepth hbodies (congrArg _ hglobals) fun id => by
    rw [Check.global_of_eq hglobals]

theorem Amid.instantiationDepth (h : origin.Amid made c) :
    c.instantiationDepth = origin.bodyDepth + made.length := by
  unfold Context.instantiationDepth
  rw [h.bodyDepth, h.inProgress]

theorem Amid.withGlobal (h : origin.Amid made c) {g : Global}
    (hg : g.Ranked origin.instantiationDepth origin.options.maxInstantiationDepth) :
    origin.Amid made (c.withGlobal g) where
  options := h.options
  inProgress := h.inProgress
  bodyDepth := h.bodyDepth
  bodies := h.bodies
  size := h.size.trans (by simp [Context.withGlobal])
  known id hid := by
    rw [global_withGlobal, if_neg (Nat.ne_of_lt (hid.trans_le h.size))]
    exact h.known id hid
  fresh id hid := by
    rw [global_withGlobal]
    split
    · exact hg
    · exact h.fresh id hid

theorem Amid.withMethod (h : origin.Amid made c) (owner : StructId) {g : Global}
    (hg : g.Ranked origin.instantiationDepth origin.options.maxInstantiationDepth) :
    origin.Amid made (c.withMethod owner g) :=
  (h.withGlobal hg).of_eq rfl rfl rfl rfl rfl

/-- An instance that is asked for inside others lies deeper than they do. -/
def Deeper (origin : Context) (made : List (TemplateId × List Ty)) : Prop :=
  origin.instantiationDepth < origin.bodyDepth + made.length ∧
    origin.bodyDepth + made.length ≤ origin.options.maxInstantiationDepth

section

variable {isInstance : Bool} (h : origin.Amid made c) (hdeeper : isInstance → origin.Deeper made)

include h hdeeper

theorem Amid.ranked_declared {g : Global} (hinstance : g.isInstance = isInstance)
    (hdepth : g.depth = if isInstance then c.instantiationDepth else 0) :
    g.Ranked origin.instantiationDepth origin.options.maxInstantiationDepth := by
  refine ⟨fun hmade => ?_, fun hwritten => ?_⟩
  · rw [hdepth, if_pos (hinstance ▸ hmade), h.instantiationDepth]
    exact hdeeper (hinstance ▸ hmade)
  · rw [hdepth, if_neg (by simp [← hinstance, hwritten])]

theorem Amid.newStruct (decl : Surface.StructDecl) (scope : Scope) (symbol display : String) :
    origin.Amid made (c.newStruct decl scope symbol display isInstance) :=
  withMethods_induction (h.of_eq rfl rfl rfl rfl rfl) fun _ hd _ _ =>
    hd.withMethod _ (hd.ranked_declared hdeeper rfl rfl)

end

end Context

namespace Check

variable {ask : Asker} {origin : Context} {made : List (TemplateId × List Ty)}

theorem amid_declareEntity {names : Option InstanceNames} (hdeeper : names.isSome → origin.Deeper made)
    (kind : Surface.ItemKind) (scope : Scope) :
    (declareEntity kind scope names).Preserves (origin.Amid made) :=
  Context.preserves_declareEntity_of
    (fun _ _ _ _ _ _ hc => hc.withGlobal (hc.ranked_declared hdeeper rfl rfl))
    (fun _ _ _ _ _ _ hc => hc.newStruct hdeeper _ _ _ _)
    (fun _ _ _ _ _ hc => hc.withGlobal (hc.ranked_declared hdeeper rfl rfl))
    (fun _ _ hc => hc.of_eq rfl rfl rfl rfl rfl) fun _ _ _ _ _ _ hc => hc.of_eq rfl rfl rfl rfl rfl

theorem amid_detached {α : Type} {work : Check α} (h : work.Preserves (origin.Amid made)) :
    (detached work).Preserves (origin.Amid made) := by
  intro c d hd hc
  obtain ⟨e, he, rfl⟩ := Run.ends_andFinally hd
  exact (h he (hc.of_eq rfl rfl rfl rfl rfl)).of_eq rfl rfl rfl rfl rfl

theorem amid_modifyFrame (change : Frame → Frame) :
    (modifyFrame change).Preserves (origin.Amid made) :=
  Run.preserves_modify fun _ hc => hc.of_eq rfl rfl rfl rfl rfl

section

variable (ha : ∀ made q, origin.inProgress <:+ made → (ask q).Preserves (origin.Amid made))
  (haround : origin.inProgress <:+ made)

include ha haround

/-- The instance that is made lies inside of those that ask for it. -/
theorem amid_instantiate (id : TemplateId) (args : List Ty) (span : Span) :
    (instantiate ask id args span).Preserves (origin.Amid made) := by
  rw [instantiate_eq]
  refine Run.preserves_get_bind fun c d hd hc => ?_
  dsimp only at hd
  split at hd
  · exact Run.preserves_reject _ _ hd hc
  split at hd
  · exact Run.preserves_pure _ hd hc
  split at hd
  · exact Run.preserves_reject _ _ hd hc
  rename_i hlimit
  obtain ⟨e, hmake, rfl⟩ := Run.ends_andFinally (Run.ends_modify_bind hd)
  have hinside : origin.inProgress <:+ (id, args) :: made := haround.trans (List.suffix_cons _ _)
  have hdeeper : origin.Deeper ((id, args) :: made) := by
    rw [hc.options, hc.instantiationDepth] at hlimit
    refine ⟨?_, Nat.lt_of_not_le hlimit⟩
    exact Nat.add_lt_add_left (Nat.lt_succ_of_le haround.length_le) _
  have hbegan : origin.Amid ((id, args) :: made) (began id args c) :=
    { hc with inProgress := congrArg _ hc.inProgress }
  have hmade : origin.Amid ((id, args) :: made) e :=
    preserves_makeInstance (fun q _ => ha _ q hinside) amid_detached
      (fun _ _ _ hc => hc.of_eq rfl rfl rfl rfl rfl) id _ _ _
      (fun _ => amid_declareEntity (fun _ => hdeeper) _ _) _ hmake hbegan
  exact { hmade with inProgress := congrArg List.tail hmade.inProgress }

theorem amid_stable : Stable ask (origin.Amid made) where
  answers q _ := ha made q haround
  detached := amid_detached
  consume := preserves_consume amid_modifyFrame
  aliasStarted _ _ hc := hc.of_eq rfl rfl rfl rfl rfl
  aliasDone _ _ _ hc := hc.of_eq rfl rfl rfl rfl rfl
  structResolved := preserves_resolveStruct (fun q _ => ha made q haround) amid_detached
    (fun _ _ hc => hc.of_eq rfl rfl rfl rfl rfl) fun _ _ _ hc => hc.of_eq rfl rfl rfl rfl rfl
  macroDone _ _ _ _ hc := hc.of_eq rfl rfl rfl rfl rfl
  instantiate := amid_instantiate ha haround

theorem amid_invariant : Invariant ask (origin.Amid made) where
  toStable := amid_stable ha haround
  everyAnswer q := ha made q haround
  agrees _ _ h hc := hc.of_eq h.options h.inProgress h.bodyDepth h.bodies h.globals
  bodyOpened _ _ _ hc := hc.of_eq rfl rfl rfl rfl rfl
  bodyClosed _ hc := hc.of_eq rfl rfl rfl rfl rfl
  param _ _ := preserves_declareLocal amid_modifyFrame _ _ _ _
  receiver _ _ := preserves_declareLocal amid_modifyFrame _ _ _ _
  declared := preserves_declStmt amid_modifyFrame (amid_stable ha haround)

theorem amid_resolveGlobal (id : GlobalId) (usedAt : Span) :
    (resolveGlobal ask id usedAt).Preserves (origin.Amid made) := by
  have hsame {c : Context} (hc : origin.Amid made c) (id : GlobalId) {change : Global → Global}
      (hrank : ∀ g, (change g).rank = g.rank) : origin.Amid made (c.modifyGlobal id change) := by
    refine hc.of_ranks rfl rfl rfl rfl Array.size_modify fun other => ?_
    rw [global_modifyGlobal]
    split
    · exact hrank _
    · rfl
  exact preserves_resolveGlobal (amid_stable ha haround) (fun _ id hc => hsame hc id fun _ => rfl)
    (fun _ id _ _ hc => hsame hc id fun _ => rfl) id usedAt

end

/-- Wherever a query is answered, all that it makes lies deeper. -/
theorem amid_answerTo (n : Nat) (made : List (TemplateId × List Ty)) (q : Query)
    (haround : origin.inProgress <:+ made) : (answerTo n q).Preserves (origin.Amid made) := by
  induction n generalizing made q with
  | zero => exact Run.preserves_stop _
  | succ n ih => exact (amid_invariant ih haround).step (amid_resolveGlobal ih haround) q

/-- Checking from a context on keeps what is kept there. -/
theorem amid_untouched (origin : Context) : Invariant answer (origin.Amid origin.inProgress) :=
  amid_invariant (amid_answerTo nestingBound) List.suffix_rfl

/-- What a file declares was made by no template. -/
theorem amid_declareModule (file : Surface.Module) : (declareModule file).Preserves (origin.Amid made) := by
  have hpackages (c : Context) (packages : Array Package) (hc : origin.Amid made c) :
      origin.Amid made { c with packages } := hc.of_eq rfl rfl rfl rfl rfl
  refine preserves_declareModule_of (preserves_packageId hpackages) fun item _ scope => ?_
  exact preserves_declareItem_of (preserves_addMember hpackages _ _)
    (amid_declareEntity (fun hsome => by cases hsome) _ _)
    (preserves_declareTemplate hpackages (fun _ _ _ hc => hc.of_eq rfl rfl rfl rfl rfl) _)

end Check

/-! ## Sessions -/

/-- No instance is being resolved, and all that was made is nested within the limit. -/
structure Context.Shallow (c : Context) : Prop where
  inProgress : c.inProgress = []
  bodyDepth : c.bodyDepth ≤ c.options.maxInstantiationDepth
  ranked : ∀ id, (c.global id).Ranked 0 c.options.maxInstantiationDepth

namespace Context

variable {c d : Context}

theorem Shallow.of_amid (hc : c.Shallow) (hd : c.Amid c.inProgress d) : d.Shallow where
  inProgress := hd.inProgress.trans hc.inProgress
  bodyDepth := by
    rw [hd.bodyDepth, hd.options]
    exact hc.bodyDepth
  ranked id := by
    rw [hd.options]
    by_cases hid : id.index < c.globals.size
    · exact (hc.ranked id).of_rank (hd.known id hid)
    · exact (hd.fresh id (Nat.le_of_not_lt hid)).mono (Nat.zero_le _)

theorem Shallow.instantiationDepth (hc : c.Shallow) : c.instantiationDepth = c.bodyDepth := by
  unfold Context.instantiationDepth
  rw [hc.inProgress]
  rfl

end Context

namespace Check

variable {c d : Context}

/-- Whatever leaves untouched what is nested leaves it within the limit. -/
theorem shallow_of_amid {α : Type} {x : Check α}
    (h : ∀ origin : Context, x.Preserves (origin.Amid origin.inProgress)) : x.Preserves Context.Shallow :=
  fun c _ hd hc => hc.of_amid (h c hd (.refl c))

theorem shallow_checkPendingTo (n : Nat) : (checkPendingTo answer n).Preserves Context.Shallow := by
  induction n with
  | zero => exact Run.preserves_stop _
  | succ n ih =>
    rw [checkPendingTo_succ]
    refine Run.preserves_get_bind fun c d hd hc => ?_
    split at hd
    · exact Run.preserves_pure _ hd hc
    · rename_i id rest _
      have htaken : Context.Shallow { c with pending := rest, bodyDepth := (c.global id).depth } :=
        ⟨hc.inProgress, (hc.ranked id).depth_le, hc.ranked⟩
      have haccept : (acceptBody answer id).Preserves Context.Shallow :=
        (shallow_of_amid fun origin => preserves_checkBody (amid_untouched origin) id).bind fun _ =>
          Run.preserves_modify fun _ hc => ⟨hc.inProgress, hc.bodyDepth, hc.ranked⟩
      exact (haccept.bind fun _ => ih) (Run.ends_set_bind hd) htaken

/-- The declarations of a program, which are resolved ahead of all bodies. -/
theorem amid_resolveDeclarations (origin : Context) :
    (resolveDeclarations answer).Preserves (origin.Amid origin.inProgress) :=
  (follows_resolveDeclarations (amid_untouched origin).following.toFollowing).preserves

theorem amid_checkEntry (origin : Context) :
    (checkEntry answer).Preserves (origin.Amid origin.inProgress) :=
  (follows_checkEntry (amid_untouched origin).following.toFollowing
    (amid_untouched origin).following.entered).preserves

theorem amid_declareModules (origin : Context) (files : List Surface.Module) :
    (forIn files PUnit.unit fun file (_ : PUnit) => do
      declareModule file
      pure (ForInStep.yield PUnit.unit) : Check PUnit).Preserves (origin.Amid made) :=
  Run.preserves_forIn (fun file _ => (amid_declareModule file).bind fun _ => Run.preserves_pure _) _ _

theorem shallow_checkModules (files : List Surface.Module) :
    (checkModules files).Preserves Context.Shallow :=
  (shallow_of_amid fun origin => amid_declareModules origin files).bind fun _ =>
    preserves_requireUnique.bind fun _ => (shallow_of_amid amid_resolveDeclarations).bind fun _ =>
      (shallow_checkPendingTo bodyBound).bind fun _ => shallow_of_amid amid_checkEntry

/-! ## What is left behind -/

/-- A body was accepted since `c`, and the depth of the last one is left. -/
structure Left (c d : Context) : Prop where
  inProgress : d.inProgress = c.inProgress
  accepted : c.bodies.size < d.bodies.size
  last : ∃ body, d.bodies.back? = some body ∧ body.function.index < d.globals.size ∧
    d.bodyDepth = (d.global body.function).depth

/-- A body that is accepted leaves its depth, since it was declared before. -/
theorem left_accept {id : GlobalId} {rest : List GlobalId} {body : Body} {e : Context}
    (h : checkBody answer id { c with pending := rest, bodyDepth := (c.global id).depth } = .ok body e) :
    Left c { e with bodies := e.bodies.push body } := by
  have hamid := preserves_checkBody (amid_untouched _) id (Run.ends_of_ok h) (.refl _)
  have hfunction := function_checkBody h
  have hid : id.index < c.globals.size := by
    by_contra hid
    obtain ⟨decl, owner, t, params, variadic, returns, c₁, hkind, -⟩ := checkBody_eq_ok h
    replace hkind : (c.global id).kind = .function decl owner := hkind
    rw [global_of_size_le (Nat.le_of_not_lt hid)] at hkind
    cases hkind
  refine ⟨hamid.inProgress, ?_, body, Array.back?_push, ?_, ?_⟩
  · rw [Array.size_push, hamid.bodies]
    exact Nat.lt_succ_self _
  · exact hfunction ▸ hid.trans_le hamid.size
  · have hdepth : (e.global id).depth = (c.global id).depth := congrArg Prod.snd (hamid.known id hid)
    exact hamid.bodyDepth.trans (hfunction ▸ hdepth.symm)

/-- The depth of a body stands until the next body is taken. -/
theorem left_checkPendingTo {n : Nat} (h : checkPendingTo answer n c = .ok ⟨⟩ d) :
    d = c ∨ Left c d := by
  induction n generalizing c with
  | zero => cases h
  | succ n ih =>
    obtain ⟨_, _, hget, h⟩ := Run.bind_eq_ok.mp h
    cases hget
    cases hpending : c.pending with
    | nil =>
      simp only [hpending] at h
      cases h
      exact .inl rfl
    | cons id rest =>
      simp only [hpending] at h
      obtain ⟨_, _, hset, h⟩ := Run.bind_eq_ok.mp h
      cases hset
      obtain ⟨body, e, hbody, h⟩ := Run.bind_eq_ok.mp h
      obtain ⟨_, _, hpush, h⟩ := Run.bind_eq_ok.mp h
      cases hpush
      have hleft := left_accept hbody
      right
      rcases ih h with rfl | hrest
      · exact hleft
      · exact ⟨hrest.inProgress.trans hleft.inProgress, hleft.accepted.trans hrest.accepted, hrest.last⟩

/-- A request that accepts no body leaves that depth. -/
theorem Left.later {e : Context} (h : Left c d) (he : d.Amid d.inProgress e) : Left c e := by
  obtain ⟨body, hlast, hdeclared, hdepth⟩ := h.last
  refine ⟨he.inProgress.trans h.inProgress, he.bodies ▸ h.accepted, body, he.bodies ▸ hlast,
    hdeclared.trans_le he.size, ?_⟩
  have hknown : (e.global body.function).depth = (d.global body.function).depth :=
    congrArg Prod.snd (he.known body.function hdeclared)
  rw [he.bodyDepth, hdepth, hknown]

/-- Checking files leaves the depth of the last body that it accepted. If there is none, it leaves what it
found. -/
theorem left_checkModules {files : List Surface.Module} (h : checkModules files c = .ok ⟨⟩ d) :
    c.Amid c.inProgress d ∨ Left c d := by
  obtain ⟨_, c₁, hdeclare, h⟩ := Run.bind_eq_ok.mp h
  obtain ⟨⟨⟩, c₂, hunique, h⟩ := Run.bind_eq_ok.mp h
  obtain ⟨⟨⟩, c₃, hresolve, h⟩ := Run.bind_eq_ok.mp h
  obtain ⟨⟨⟩, c₄, hbodies, hentry⟩ := Run.bind_eq_ok.mp h
  obtain ⟨rfl, -⟩ := requireUnique_eq_ok hunique
  have hready : c.Amid c.inProgress c₃ := amid_resolveDeclarations c (Run.ends_of_ok hresolve)
    (amid_declareModules c files (Run.ends_of_ok hdeclare) (.refl c))
  rcases left_checkPendingTo hbodies with rfl | hleft
  · exact .inl (amid_checkEntry c (Run.ends_of_ok hentry) hready)
  · have hlast := hleft.later (amid_checkEntry c₄ (Run.ends_of_ok hentry) (.refl c₄))
    exact .inr ⟨hlast.inProgress.trans hready.inProgress, hready.bodies ▸ hlast.accepted, hlast.last⟩

end Check

namespace Session

variable {c d : Context}

theorem shallow_step (hc : c.Shallow) (h : Step c d) : d.Shallow := by
  cases h with
  | modules files hs => exact Check.shallow_checkModules files hs hc
  | query q hs => exact Check.shallow_of_amid (fun origin => (Check.amid_untouched origin).everyAnswer q) hs hc
  | instantiate id args span hs =>
    exact Check.shallow_of_amid (fun origin => (Check.amid_untouched origin).instantiate id args span) hs hc

theorem Reachable.shallow (hc : Reachable c) : c.Shallow := by
  obtain ⟨options, hlater⟩ := hc
  induction hlater with
  | refl => exact ⟨rfl, Nat.zero_le _, fun _ => ⟨nofun, fun _ => rfl⟩⟩
  | tail _ step ih => exact shallow_step ih step

/-- In a session, what a template made is nested at least once, and no deeper than the limit. All else is
not nested, and between requests no more than the limit is used up. -/
theorem Reachable.ranked (hc : Reachable c) :
    c.instantiationDepth ≤ c.options.maxInstantiationDepth ∧
      ∀ id, (c.global id).Ranked 0 c.options.maxInstantiationDepth := by
  rw [hc.shallow.instantiationDepth]
  exact ⟨hc.shallow.bodyDepth, hc.shallow.ranked⟩

/-- What a query makes lies deeper than all that was used up when it was asked. -/
theorem ranked_answer (q : Query) (h : (Check.answer q).Ends c d) {id : GlobalId}
    (hid : c.globals.size ≤ id.index) :
    (d.global id).Ranked c.instantiationDepth c.options.maxInstantiationDepth :=
  ((Check.amid_untouched c).everyAnswer q h (.refl c)).fresh id hid

/-- Where files are accepted, the depth of the last body that was accepted is used up behind them. That is
none exactly if no template made the body. -/
theorem instantiationDepth_left {files : List Surface.Module} (hc : Reachable c)
    (h : Check.checkModules files c = .ok ⟨⟩ d) :
    (d.bodies = c.bodies ∧ d.instantiationDepth = c.instantiationDepth) ∨
      ∃ body, d.bodies.back? = some body ∧ c.bodies.size < d.bodies.size ∧
        d.instantiationDepth = (d.global body.function).depth ∧
          (d.instantiationDepth = 0 ↔ (d.global body.function).isInstance = false) := by
  have hd : d.Shallow := Check.shallow_checkModules files (Run.ends_of_ok h) hc.shallow
  rw [hd.instantiationDepth, hc.shallow.instantiationDepth]
  rcases Check.left_checkModules h with hsame | hleft
  · exact .inl ⟨hsame.bodies, hsame.bodyDepth⟩
  · obtain ⟨body, hlast, -, hdepth⟩ := hleft.last
    refine .inr ⟨body, hlast, hleft.accepted, hdepth, ?_⟩
    rw [hdepth]
    exact (hd.ranked body.function).depth_eq_zero_iff

/-- A body that a template made is the last that is accepted, and uses up all that the limit allows. -/
example : (checkProgram { includeStd := false, requireEntry := false, maxInstantiationDepth := 1 }
    [⟨"main.own", String.join ["template <T> fn id(x: T): T \x7b return x; \x7d ",
      "fn g(): i32 \x7b return id<i32>(1); \x7d"]⟩]).toOption.map (·.instantiationDepth) = some 1 := by
  rw [checkProgram_eq, SourceFile.mapM_parse_join]
  decide +kernel

end Session

end OwnLang
