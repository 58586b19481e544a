import Mathlib
import OwnLang.Proofs.Check.Registered
import OwnLang.Proofs.Check.RepeatingValue

/-!
# Requests from idle contexts

Between the requests of a session no function is open, and what resolution finds out of an entity is
there exactly if the entity is complete (`Context.Idle`). A request leads from such a context to
another one, and resolution has only gone on there; and where the request is cut short it is followed
by itself, cut short later or not at all (`Course.session`).

The passes of a program are looked at one by one. What is declared is the same in both runs. Behind
the declarations macros are signed as they are found out (`MacroLaw.signing`), and once all are
complete bodies are checked, which leaves them alone (`MacroLaw.finished`).
-/

/-!
## Bodies that are cut short

While a body is checked a function is open, so what is said of macros must not depend on that
(`MacroLaw.Frameless`). When bodies are checked all macros are complete, and stay as they are; the
ones that are declared in the meantime are never resolved (`MacroLaw.finished`).
-/

namespace OwnLang

theorem Context.Agrees.shares {c d : Context} (h : c.Agrees d) : c.Shares d :=
  ⟨h.packages, h.templates, h.aliases, h.globals, h.structs, h.macros⟩

namespace MacroLaw

/-- It does not matter to what is said of macros whether a function is open. -/
def Frameless (M : MacroLaw) : Prop :=
  ∀ {c d : Context}, c.Continues Resolvable.Progresses d → d.macros = c.macros →
    M.moves c d ∧ M.done c d

theorem frameless_forward : Frameless .forward :=
  fun _ hmacros => ⟨Context.forwards_of_eq hmacros, congrArg Array.size hmacros⟩

/-- Macros that are complete stay as they are, and others are never resolved. -/
def finished : MacroLaw where
  ready c := ∀ m ∈ c.macros, m.state = .complete
  moves c d := ∃ added : Array MacroDef, d.macros = c.macros ++ added ∧ ∀ m ∈ added, m.Fresh
  done c d := d.macros = c.macros
  after _ _ := True
  still _ h _ := ⟨⟨#[], by simpa using h, by simp⟩, h⟩
  declared {c d m} _ hm h _ := ⟨#[m], by simpa using h, by simpa using hm⟩
  detached h := h
  detached_done h := h
  detached_after _ _ := trivial
  moves_trans _ := by
    rintro ⟨added, h, hadded⟩ ⟨added', h', hadded'⟩
    refine ⟨added ++ added', by rw [h', h, Array.append_assoc], fun m hm => ?_⟩
    exact (Array.mem_append.mp hm).elim (hadded m) (hadded' m)
  done_trans h h' := h'.trans h
  ready_done hc _ h := h ▸ hc
  after_of_moves _ := trivial
  after_trans _ _ := trivial

theorem frameless_finished : Frameless .finished := fun _ h => ⟨⟨#[], by simpa using h, by simp⟩, h⟩

end MacroLaw

namespace Check

variable {M : MacroLaw} {ask ask' : Asker} {cut cut' : Cut} {c d : Context}

open MacroLaw (Lenient Frameless)

/-- A macro that is not complete was not declared. -/
theorem lenient_finished : Lenient .finished := by
  intro ask ask' ha
  refine follows_resolveMacro ha fun {c d id params returns} hc hstate _ _ hdone => ?_
  have hid : c.macros.size ≤ id.index := by
    refine Nat.not_lt.mp fun hid => hstate ?_
    exact hc.2 _ (Array.mem_of_getElem? (getElem?_of_lt hid))
  have hsize : d.macros.size ≤ id.index := (congrArg Array.size hdone).trans_le hid
  have hsame : (signed d id params returns).macros = c.macros :=
    (modify_of_size_le hsize fun m => { m with params, returns, state := .complete }).trans hdone
  exact ⟨⟨#[], by simpa using hsame, by simp⟩, hsame, trivial⟩

theorem follows_declareLocal (name : Surface.Ident) (t : Ty) (constant : Bool)
    (value : Option Const) :
    (declareLocal name t constant value).Follows (.resolution M)
      (declareLocal name t constant value) :=
  follows_proceeds fun c =>
    preserves_declareLocal (preserves_modifyFrame_proceeds c) name t constant value

section

variable (hM : M.Frameless)

include hM

theorem moves_shares (h : c.Shares d) : M.Moves c d ∧ M.done c d :=
  have hmacros := hM (h.continues .refl) h.macros
  ⟨⟨h.continues .refl, h.orderly, hmacros.1⟩, hmacros.2⟩

/-- The parts of checking that open functions, blocks and loops, in a course of resolution. -/
theorem followingBody_resolution (h : Following (.resolution M) ask ask')
    (ha : ∀ q, (ask q).Follows (.resolution M) (ask' q)) : FollowingBody (.resolution M) ask ask' where
  toFollowing := h
  everyAnswer := ha
  resembles _ _ hcd := moves_shares hM hcd.toAgrees.shares
  declared := follows_declStmt h follows_declareLocal
  agrees _ _ hcd := moves_shares hM hcd.shares
  bodyOpened c _ _ := moves_shares hM (c.shares_frame _)
  bodyClosed c := moves_shares hM (c.shares_frame _)
  bodyLeft c := (Course.resolution M).after_of_moves (moves_shares hM (c.shares_frame _).symm).1
  param name t := follows_declareLocal name t false none
  receiver name t := follows_declareLocal name t true none

/-- One step of nesting, statements and blocks included. -/
theorem follows_bodyStep (h : Following (.resolution M) ask ask')
    (ha : ∀ q, (ask q).Follows (.resolution M) (ask' q)) (hnone : Unnamed ask') (q : Query) :
    (step ask q).Follows (.resolution M) (step ask' q) :=
  have hbody := followingBody_resolution hM h ha
  hbody.step (follows_checkBlock hbody) (follows_loopStmt hbody)
    (follows_resolveAlias h.answers hnone) (follows_resolveStruct h.answers)
    (follows_resolveGlobal h) q

/-- All answers that are cut short are followed by the answers that are cut short later. -/
theorem follows_everyAnswerCut (hl : M.Lenient) (hcut : cut'.Within cut) (n : Nat) (q : Query) :
    (answerCut cut n q).Follows (.resolution M) (answerCut cut' n q) := by
  induction n generalizing q with
  | zero => exact Run.follows_stop _
  | succ n ih =>
    have ha := lenient_answerCut hl hcut n
    exact follows_cutAt hcut
      (follows_bodyStep hM (following_resolution ha (hl ha)) ih (unnamed_answerCut cut' n) q)

/-- A program that is checked as far as a cut lets it come. -/
theorem followingProgram_answerCut (hl : M.Lenient) (hcut : cut'.Within cut) (n : Nat) :
    FollowingProgram (.resolution M) (answerCut cut n) (answerCut cut' n) where
  toFollowingFunction :=
    have ha := lenient_answerCut hl hcut n
    (followingBody_resolution hM (following_resolution ha (hl ha))
      (follows_everyAnswerCut hM hl hcut n)).toFollowingFunction
  bodyTaken _ _ _ _ := moves_shares hM ⟨rfl, rfl, rfl, rfl, rfl, rfl⟩
  accepted _ d _ body _ hmoves hdone :=
    have hshares : d.Shares { d with bodies := d.bodies.push body } := ⟨rfl, rfl, rfl, rfl, rfl, rfl⟩
    have hpushed := moves_shares hM hshares
    ⟨(Course.resolution M).moves_trans hmoves hpushed.1,
      (Course.resolution M).done_trans hmoves hdone hpushed.1 hpushed.2,
      (Course.resolution M).after_of_moves hpushed.1⟩

end

end Check

end OwnLang

/-! ## Contexts between requests -/

namespace OwnLang

namespace Context

/-- What holds of contexts between requests. -/
structure Idle (c : Context) : Prop extends c.Orderly where
  macros : ∀ m ∈ c.macros, m.Signed
  frame : c.frame = none

variable {c d e : Context}

theorem Idle.exact (h : c.Idle) : c.Exact := { h with }

theorem Becomes.refl (c : Context) : c.Becomes c :=
  ⟨(Continues.refl .refl c).toCarries, .refl .refl _⟩

theorem Becomes.trans (h : c.Becomes d) (h' : d.Becomes e) : c.Becomes e :=
  ⟨h.toCarries.trans .trans h'.toCarries, h.macros.trans .trans h'.macros⟩

theorem Proceeds.becomes (h : c.Proceeds d) : c.Becomes d :=
  ⟨h.spares.progresses.toCarries, h.macros ▸ .refl .refl _⟩

theorem Proceeds.idle (h : c.Proceeds d) (hc : c.Idle) : d.Idle :=
  ⟨h.orderly hc.toOrderly, h.macros ▸ hc.macros, h.frame hc.frame⟩

end Context

/-- The course of a session: resolution goes on. -/
def Course.session : Course Context where
  ready c := c.Idle
  moves c d := c.Becomes d ∧ (c.Idle → d.Idle)
  done _ _ := True
  after c d := c.Becomes d
  moves_refl c := ⟨.refl c, id⟩
  moves_trans h h' := ⟨h.1.trans h'.1, fun hc => h'.2 (h.2 hc)⟩
  done_refl _ := trivial
  done_trans _ _ _ _ := trivial
  ready_done hc h _ := h.2 hc
  after_of_moves h := h.1
  after_trans h h' := h.trans h'

namespace Check

variable {cut cut' : Cut} {c d : Context} {α : Type}

/-- Answers to queries, as far as a cut lets checking come. -/
abbrev answerUntil (cut : Cut) : Asker := answerCut cut nestingBound

/-! ## Resolution -/

theorem following_forward (hcut : cut'.Within cut) :
    Following (.resolution .forward) (answerUntil cut) (answerUntil cut') :=
  have ha := lenient_answerCut lenient_forward hcut nestingBound
  following_resolution ha (lenient_forward ha)

theorem following_signing (cut : Cut) :
    Following (.resolution .signing) (answerUntil cut) (answerUntil cut) :=
  following_resolution (signing_answerCut cut) (signing_resolveMacro le_rfl (signing_answerCut cut))

section

/- Work that puts questions, but opens no function. -/
variable {work : Asker → Check α}
  (hwork : ∀ {C : Course Context} {ask ask' : Asker}, Following C ask ask' →
    (work ask).Follows C (work ask'))

include hwork

/-- Where work that begins in an idle context may end. -/
theorem ends_idle (hc : c.Idle) (hd : (work (answerUntil cut)).Ends c d) :
    c.Continues Resolvable.Progresses d ∧ c.Forwards d ∧ c.Signs d ∧ d.Idle := by
  have hforward := (hwork (following_forward fun _ _ h => h) c ⟨hc.toOrderly, trivial⟩).moves d hd
  have hsigning := (hwork (following_signing cut) c ⟨hc.toOrderly, hc.frame⟩).moves d hd
  exact ⟨hforward.spares.progresses, hforward.macros, hsigning.macros.2,
    hforward.orderly hc.toOrderly, hforward.macros.signed hc.macros, hsigning.macros.1 hc.frame⟩

/-- Work that is cut short is followed by itself, cut short later. -/
theorem follows_idle (hcut : cut'.Within cut) :
    (work (answerUntil cut)).Follows .session (work (answerUntil cut')) := by
  intro c hc
  have hfollows := hwork (following_forward hcut) c ⟨hc.toOrderly, trivial⟩
  refine hfollows.recast (fun d hd => ?_) (fun _ _ _ => trivial) False.elim fun m d hm hd => ?_
  · obtain ⟨hcontinues, hforwards, hsigns, hidle⟩ := ends_idle hwork hc hd
    exact ⟨⟨hcontinues.toCarries, (Context.signs_of_eq rfl).macros hsigns hcontinues
      hforwards.macros hc.macros⟩, fun _ => hidle⟩
  · obtain ⟨-, -, hsigns, hidle⟩ := ends_idle hwork hc hm
    obtain ⟨-, -, hsigns', -⟩ := ends_idle hwork hc hd
    obtain ⟨hcontinues, hforwards⟩ := hfollows.ends hm hd
    exact ⟨hcontinues.toCarries, hsigns.macros hsigns' hcontinues hforwards.macros hidle.macros⟩

end

/-- Work that puts questions leaves what it finds orderly. -/
theorem orderly_of_follows {x : Check α} (hx : x.Follows (.resolution .forward) x) :
    x.Preserves Context.Orderly :=
  fun c _ hd hc => ((hx c ⟨hc, trivial⟩).moves _ hd).orderly hc

/-- Behind the passes over declarations all macros are complete. -/
theorem complete_resolveDeclarations (hc : c.Orderly)
    (hrun : resolveDeclarations (answerUntil cut) c = .ok ⟨⟩ d) :
    ∀ m ∈ d.macros, m.state = .complete := by
  have hfollowing : Following (.resolution .forward) (answerUntil cut) (answerUntil cut) :=
    following_forward fun _ _ h => h
  obtain ⟨c₁, c₂, haliases, hmembers, hmacros⟩ := resolveDeclarations_eq_ok hrun
  have hc₁ : c₁.Orderly := by
    refine Run.preserves_forIn (fun i _ => ?_) _ _ (Run.ends_of_ok haliases) hc
    have halias : (declaredAlias (answerUntil cut) ⟨i⟩).Preserves Context.Orderly :=
      Run.preserves_get.bind fun s =>
        orderly_of_follows (hfollowing.answers (.typeAlias ⟨i⟩ (s.typeAlias ⟨i⟩).name.span) rfl)
    exact halias.bind fun _ => Run.preserves_pure _
  have hc₂ : c₂.Orderly := by
    refine Run.preserves_forIn (fun member _ => ?_) _ _ (Run.ends_of_ok hmembers) hc₁
    exact (orderly_of_follows (follows_resolveMember hfollowing _ _)).bind fun _ =>
      Run.preserves_pure _
  have hround {i : Nat} {s t : Context} (hs : s.Orderly) (hresolve : resolveMacro (answerUntil cut) ⟨i⟩ s = .ok ⟨⟩ t) :
      t.Orderly ∧ (s.Forwards t ∧ t.macros.size = s.macros.size) ∧
        (i < s.macros.size → (t.macroDef ⟨i⟩).state = .complete) := by
    have hfollows := hfollowing.macroSigned ⟨i⟩ s ⟨hs, trivial⟩
    have hmoves := hfollows.moves t (Run.ends_of_ok hresolve)
    have hsize : t.macros.size = s.macros.size := hfollows.done _ _ hresolve
    exact ⟨hmoves.orderly hs, ⟨hmoves.macros, hsize⟩, complete_resolveMacro hresolve hsize⟩
  obtain ⟨-, ⟨-, hsize⟩, hall⟩ := Run.forIn_rounds (P := Context.Orderly)
    (R := fun s t => s.Forwards t ∧ t.macros.size = s.macros.size)
    (fun s => ⟨Context.forwards_of_eq rfl, rfl⟩) (fun h h' => ⟨h.1.trans h'.1, h'.2.trans h.2⟩)
    (fun i _ s _ t hresolve hs => (hround hs hresolve).imp_right And.left) hmacros hc₂
  intro m hm
  obtain ⟨i, hi, rfl⟩ := exists_index hm
  obtain ⟨s, ⟨⟩, t, hs, ⟨-, hsize'⟩, hresolve, ht, -⟩ := hall i (List.mem_range.mpr (hi.trans_eq hsize))
  obtain ⟨-, ⟨-, hsize''⟩, hcomplete⟩ := hround hs hresolve
  have hi' : i < s.macros.size := hi.trans_eq (hsize.trans hsize'.symm)
  exact (ht.macros.getD (hi'.trans_eq hsize''.symm)).complete (hcomplete hi')

/-! ## Bodies -/

/-- No function is open. -/
def Unframed (c : Context) : Prop := c.frame = none

theorem unframed_answerUntil (cut : Cut) (q : Query) (hq : q.isExpr) :
    (answerUntil cut q).Preserves Unframed := by
  intro c d hd hc
  have hmoved := (elaborates_answerCut nestingBound).steady.moves q hq c hd (.refl c)
  unfold FrameMoved at hmoved
  rw [show c.frame = none from hc] at hmoved
  cases hframe : d.frame with
  | none => exact hframe
  | some f => rw [hframe] at hmoved; cases hmoved

theorem unframed_checkTypedBody (id : GlobalId) (decl : Surface.FnDecl) (owner : Option StructId)
    (display : String) (scope : Scope) (params : List Ty) (returns : Ty) :
    (checkTypedBody (answerUntil cut) id decl owner display scope params returns).Preserves
      Unframed := by
  intro c d hd hc
  obtain hd | ⟨⟨⟩, e, -, hd⟩ := Run.ends_bind hd
  · exact preserves_completeParams (unframed_answerUntil cut) _ hd hc
  -- The frame that was opened is closed before anything is made of the result.
  obtain ⟨r, f, -, hd⟩ := Run.ends_attempt_bind (Run.ends_modify_bind hd)
  have hrest : (do
      let parts ← Run.ofExcept r
      let last ← Run.ofExcept (finalReturn f.here decl display)
      return { function := id, params := parts.1, locals := f.here.locals,
               block := .mk (parts.2 ++ last) [], returns } : Check Body).Preserves Unframed :=
    (Run.preserves_ofExcept _).bind fun _ => (Run.preserves_ofExcept _).bind fun _ =>
      Run.preserves_pure _
  exact hrest (s := { f with frame := none }) hd rfl

theorem unframed_acceptBody (id : GlobalId) :
    (acceptBody (answerUntil cut) id).Preserves Unframed := by
  have hbody : (checkBody (answerUntil cut) id).Preserves Unframed := by
    unfold checkBody
    refine Run.preserves_get.bind fun c => ?_
    dsimp only
    split
    · exact Run.preserves_reject _ _
    · refine (unframed_answerUntil cut _ rfl).bind fun t => ?_
      split
      · exact unframed_checkTypedBody _ _ _ _ _ _ _
      · exact Run.preserves_reject _ _
  exact hbody.bind fun _ => Run.preserves_modify fun _ hc => hc

theorem unframed_checkPendingTo (n : Nat) :
    (checkPendingTo (answerUntil cut) n).Preserves Unframed := by
  induction n with
  | zero => exact Run.preserves_stop _
  | succ n ih =>
    intro c d hd hc
    rw [checkPendingTo_succ] at hd
    replace hd := Run.ends_get_bind hd
    split at hd
    · exact Run.preserves_pure _ hd hc
    · exact ((unframed_acceptBody _).bind fun _ => ih) (Run.ends_modify_bind (f := fun _ => _) hd) hc

theorem unframed_checkEntry : (checkEntry (answerUntil cut)).Preserves Unframed := by
  unfold checkEntry
  refine Run.preserves_get.bind fun c => ?_
  dsimp only
  split
  · split
    · exact Run.preserves_reject _ _
    · exact Run.preserves_pure _
  · exact .unless ((unframed_answerUntil cut _ rfl).bind fun t => .unless
      (Run.preserves_modify fun _ hc => hc))
  · exact Run.preserves_reject _ _

/-- Macros that were declared in the meantime have at most been resolved. -/
theorem retained_added {xs ys macros added added' : Array MacroDef} (hxs : xs = macros ++ added)
    (hadded : ∀ m ∈ added, m.Fresh) (hys : ys = macros ++ added')
    (h : Retained MacroDef.Forwards xs ys) : Retained MacroDef.resolvable.Progresses xs ys := by
  subst hxs
  subst hys
  intro i m hm
  by_cases hi : i < macros.size
  · refine ⟨m, ?_, .refl m⟩
    rw [← hm, Array.getElem?_append_left hi, Array.getElem?_append_left hi]
  · obtain ⟨n, hn, hmn⟩ := h i m hm
    rw [Array.getElem?_append_right (Nat.not_lt.mp hi)] at hm
    have hstate : m.state = .declared := (hadded m (Array.mem_of_getElem? hm)).state
    refine ⟨n, hn, hmn.declared, ?_, fun hcomplete => ?_⟩
    · show m.state.rank ≤ n.state.rank
      rw [hstate]
      exact Nat.zero_le _
    · have hcomplete : m.state = .complete := hcomplete
      rw [hstate] at hcomplete
      cases hcomplete

/-- Checks the bodies and the entry point of a program. -/
def bodiesWork (ask : Asker) : Check Unit := do
  checkPendingTo ask bodyBound
  checkEntry ask

theorem follows_bodiesWork {C : Course Context} {ask ask' : Asker} (h : FollowingProgram C ask ask') :
    (bodiesWork ask).Follows C (bodiesWork ask') :=
  (follows_checkPendingTo h _).bind fun _ =>
    follows_checkEntry h.toFollowing h.toFollowingFlat.entered

/-- Where bodies are checked from a context in which all macros are complete. -/
theorem ends_bodies (hc : c.Idle) (hmacros : ∀ m ∈ c.macros, m.state = .complete)
    (hd : (bodiesWork (answerUntil cut)).Ends c d) :
    c.Continues Resolvable.Progresses d ∧ c.Forwards d ∧ MacroLaw.finished.moves c d ∧ d.Idle := by
  have hforward := (follows_bodiesWork (followingProgram_answerCut MacroLaw.frameless_forward
    lenient_forward (fun _ _ h => h) nestingBound) c ⟨hc.toOrderly, trivial⟩).moves d hd
  have hfinished := (follows_bodiesWork (followingProgram_answerCut MacroLaw.frameless_finished
    lenient_finished (fun _ _ h => h) nestingBound) c ⟨hc.toOrderly, hmacros⟩).moves d hd
  have hframe : (bodiesWork (answerUntil cut)).Preserves Unframed :=
    (unframed_checkPendingTo _).bind fun _ => unframed_checkEntry
  exact ⟨hforward.spares.progresses, hforward.macros, hfinished.macros,
    hforward.orderly hc.toOrderly, hforward.macros.signed hc.macros, hframe hd hc.frame⟩

theorem followsFrom_bodies (hcut : cut'.Within cut) (hc : c.Idle)
    (hmacros : ∀ m ∈ c.macros, m.state = .complete) :
    Run.FollowsFrom .session c (bodiesWork (answerUntil cut)) (bodiesWork (answerUntil cut')) := by
  have hfollows := follows_bodiesWork (followingProgram_answerCut MacroLaw.frameless_forward
    lenient_forward hcut nestingBound) c ⟨hc.toOrderly, trivial⟩
  refine hfollows.recast (fun d hd => ?_) (fun _ _ _ => trivial) False.elim fun m d hm hd => ?_
  · obtain ⟨hcontinues, hforwards, ⟨added, hadded, -⟩, hidle⟩ := ends_bodies hc hmacros hd
    exact ⟨⟨hcontinues.toCarries, retained_added Array.append_empty.symm (by simp) hadded
      hforwards.macros⟩, fun _ => hidle⟩
  · obtain ⟨-, -, ⟨added, hadded, hfresh⟩, -⟩ := ends_bodies hc hmacros hm
    obtain ⟨-, -, ⟨added', hadded', -⟩, -⟩ := ends_bodies hc hmacros hd
    obtain ⟨hcontinues, hforwards⟩ := hfollows.ends hm hd
    exact ⟨hcontinues.toCarries, retained_added hadded hfresh hadded' hforwards.macros⟩

/-! ## Declarations -/

/-- What a session can come to from a context. -/
abbrev Comes (c d : Context) : Prop := Course.session.moves c d

theorem comes_packageId (c : Context) (name : String) : (packageId name).Preserves (Comes c) := by
  unfold packageId
  refine Run.preserves_get.bind fun _ => ?_
  split
  · exact Run.preserves_pure _
  · refine Run.preserves_get.bind fun _ => (Run.preserves_modify fun d hd => ?_).bind fun _ =>
      Run.preserves_pure _
    refine Course.session.moves_trans hd ⟨{ Context.Becomes.refl d with
      packages := (Retained.refl .refl d.packages).push _ }, fun hd => { hd with
        members := fun p hp m hm => ?_ }⟩
    rcases Array.mem_push.mp hp with hp | rfl
    · exact hd.members p hp m hm
    · cases hm

theorem comes_addMember (c : Context) (package : PackageId) (name : Surface.Ident) {member : Member}
    (h : ∀ id, member = .struct id → id.index < c.structs.size) :
    Comes c (c.modifyPackage package fun p => { p with members := p.members ++ [(name, member)] }) := by
  refine ⟨{ Context.Becomes.refl c with
    packages := (Retained.refl .refl c.packages).modify fun p q _ _ hpq =>
      ⟨hpq.name, hpq.members.trans (List.prefix_append _ _), hpq.macros⟩ }, fun hc => { hc with
    members := fun p hp m hm id hid => ?_ }⟩
  dsimp only [Context.modifyPackage] at hp
  obtain hp | ⟨q, hq, rfl⟩ := mem_modify hp
  · exact hc.members p hp m hm id hid
  · rcases List.mem_append.mp hm with hm | hm
    · exact hc.members q (Array.mem_of_getElem? hq) m hm id hid
    · obtain rfl := List.mem_singleton.mp hm
      exact h id hid

theorem comes_declareEntity {kind : Surface.ItemKind} {scope : Scope} {names : Option InstanceNames}
    {member : Option Member} (h : declareEntity kind scope names c = .ok member d) : Comes c d := by
  rcases declareEntity_eq_ok h with hproceeds | ⟨-, package, name, m, hm, rfl⟩
  · exact ⟨hproceeds.becomes, hproceeds.idle⟩
  · have hcontinues := (c.continues_withMacro package name m).progresses
    refine ⟨⟨hcontinues.toCarries, (Retained.refl .refl c.macros).push m⟩, fun hc =>
      ⟨hc.toOrderly.withMacro package name m, fun m' hm' => ?_, hc.frame⟩⟩
    rcases Array.mem_push.mp hm' with hm' | rfl
    · exact hc.macros m' hm'
    · exact hm.signed

theorem comes_newTemplate (c : Context) {t : TemplateDef} (h : t.instances = []) :
    Comes c { c with templates := c.templates.push t } := by
  refine ⟨{ Context.Becomes.refl c with
    templates := (Retained.refl .refl c.templates).push t }, fun hc => { hc with
      instances := fun u hu made hmade id hid => ?_ }⟩
  rcases Array.mem_push.mp hu with hu | rfl
  · exact hc.instances u hu made hmade id hid
  · rw [h] at hmade
    cases hmade

theorem comes_declareItem (c : Context) (item : Surface.Item) (scope : Scope) :
    (declareItem item scope).Preserves (Comes c) := by
  intro d e he hd
  unfold declareItem at he
  split at he
  · obtain he | ⟨member, f, hentity, he⟩ := Run.ends_bind he
    · rcases he with ⟨member, he⟩ | ⟨diagnostic, he⟩
      · exact Course.session.moves_trans hd (comes_declareEntity he)
      · obtain rfl := declareEntity_eq_error he
        exact hd
    · have hf := Course.session.moves_trans hd (comes_declareEntity hentity)
      cases member with
      | none =>
        obtain rfl := Run.ends_pure he
        exact hf
      | some member =>
        obtain rfl := Run.ends_modify he
        refine Course.session.moves_trans hf (comes_addMember f _ _ fun id hid => ?_)
        subst hid
        have hmade : madeEntity? (some (.struct id)) = some (.struct id) := rfl
        exact (declareEntity_fresh hentity hmade).2
  · obtain rfl := Run.ends_modify (Run.ends_modify_bind (Run.ends_get_bind he))
    let added : TemplateDef :=
      { package := scope.package, name := item.name, params := item.template, item, scope
        instances := [] }
    have hadded : Comes d { d with templates := d.templates.push added } := comes_newTemplate d rfl
    exact Course.session.moves_trans hd (Course.session.moves_trans hadded
      (comes_addMember _ _ _ fun _ hid => nomatch hid))

theorem follows_packageId (name : String) : (packageId name).Follows .session (packageId name) :=
  fun c _ => Run.followsFrom_of_same
    (fun _ hd => comes_packageId c name hd (Course.session.moves_refl c)) fun _ _ _ => trivial

/-- Files are declared in the same way wherever checking is cut short. -/
theorem follows_declareModule (file : Surface.Module) :
    (declareModule file).Follows .session (declareModule file) := by
  intro c _
  refine Run.followsFrom_of_same (fun d hd => ?_) fun _ _ _ => trivial
  exact preserves_declareModule_of (comes_packageId c) (fun item _ => comes_declareItem c item) hd
    (Course.session.moves_refl c)

/-! ## Programs -/

theorem follows_checkModulesWith (hcut : cut'.Within cut) (files : List Surface.Module) :
    (checkModulesWith (answerUntil cut) files).Follows .session
      (checkModulesWith (answerUntil cut') files) := by
  refine (Run.follows_forIn (fun file _ => (follows_declareModule file).bind fun _ =>
    Run.follows_pure _) _ _).bind fun _ => follows_requireUnique.bind fun _ c hc => ?_
  have hresolves := follows_idle follows_resolveDeclarations hcut c hc
  refine hresolves.bind_ok fun ⟨⟩ d hd hmoves _ => ?_
  exact followsFrom_bodies hcut (hmoves.2 hc) (complete_resolveDeclarations hc.toOrderly hd)

end Check

end OwnLang
