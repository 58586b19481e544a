import Mathlib
import OwnLang.Proofs.Check.FollowingBody
import OwnLang.Proofs.Check.Signatures

/-!
# Checking with fewer answers

A part of checking that succeeds with fewer answers succeeds with more, and finds the same. So where
questions nest less deep than they may, or some of them are refused, what is accepted nevertheless is
what `Check.answer` gives (`answerCut_plain`).

Where a course looks at the frame only (`Course.Framed`), what writes entities follows the same work
over other answers.
-/

namespace OwnLang

/-- The course that says nothing of states: a run that succeeds is followed by the same success. -/
def Course.plain {σ : Type} : Course σ := .keeping fun _ => True

namespace Run

variable {σ α β : Type} {x y : Run σ α}

theorem follows_plain : Follows .plain x y ↔ ∀ ⦃s a t⦄, x s = .ok a t → y s = .ok a t := by
  constructor
  · intro h s a t hx
    rcases (h s trivial).meets with hsame | ⟨why, hstop⟩ | ⟨d, m, herror, -⟩
    · rw [← hsame, hx]
    · cases hx.symm.trans hstop
    · cases hx.symm.trans herror
  · intro h s _
    refine ⟨?_, fun _ _ _ => trivial, fun _ _ _ => trivial, False.elim⟩
    cases hx : x s with
    | ok a t => exact .inl (h hx).symm
    | error d t => exact .inr (.inr ⟨d, t, rfl, fun _ _ => trivial⟩)
    | stopped why => exact .inr (.inl ⟨why, rfl⟩)

theorem follows_self (x : Run σ α) : Follows .plain x x := follows_plain.mpr fun _ _ _ h => h

theorem Follows.finally (h : Follows .plain x y) (finish : σ → σ) :
    Follows .plain (x.andFinally finish) (y.andFinally finish) := by
  refine follows_plain.mpr fun s a t hrun => ?_
  obtain ⟨u, hx, rfl⟩ := andFinally_eq_ok.mp hrun
  exact andFinally_eq_ok.mpr ⟨u, follows_plain.mp h hx, rfl⟩

end Run

/-- A course to which it does not matter what entities there are. -/
structure Course.Framed (C : Course Context) : Prop where
  kept : ∀ c d : Context, d.frame = c.frame → C.moves c d ∧ C.done c d
  detached : ∀ {α : Type} {x y : Check α}, x.Follows C y →
    (Check.detached x).Follows C (Check.detached y)

namespace Check

open Run (follows_self follows_plain)

variable {ask ask' : Asker} {α : Type}

section

variable {C : Course Context} (hC : C.Framed)

include hC

theorem framed_modify {change : Context → Context} (h : ∀ c, (change c).frame = c.frame) :
    Run.Follows C (modify change) (modify change) := fun c _ =>
  Run.followsFrom_modify (hC.kept c _ (h c)).1 (hC.kept c _ (h c)).2

/-- What leaves the frame alone follows itself. -/
theorem framed_still {x : Check α} (h : ∀ frame, x.Preserves fun c => c.frame = frame) :
    x.Follows C x := fun c _ =>
  have hends {d : Context} (hd : x.Ends c d) := hC.kept c d (h c.frame hd rfl)
  Run.followsFrom_of_same (fun _ hd => (hends hd).1) fun _ _ hd => (hends (.inl ⟨_, hd⟩)).2

theorem framed_finally {x y : Check α} (hxy : x.Follows C y) {finish : Context → Context}
    (h : ∀ c, (finish c).frame = c.frame) : (x.andFinally finish).Follows C (y.andFinally finish) := by
  intro c hc
  have hfinish (d : Context) := hC.kept d _ (h d)
  refine ((hxy c hc).around (fun d hd => C.moves_trans hd (hfinish d).1)
    (fun d hmoves hd => C.done_trans hmoves hd (hfinish d).1 (hfinish d).2) fun m d hmd => ?_).of_eq
      rfl rfl
  refine C.after_trans (C.after_of_moves (hC.kept _ m (h m).symm).1) ?_
  exact C.after_trans hmd (C.after_of_moves (hfinish d).1)

omit hC in
theorem frame_additive (frame : Option Frame) : Additive fun c => c.frame = frame where
  global _ _ _ _ _ hc := hc
  struct _ _ _ _ hc := hc
  member _ _ _ hc := hc
  typeAlias _ _ _ hc := hc
  macroDef _ _ _ _ hc := hc

/-! ## What writes entities -/

variable (ha : ∀ q : Query, (ask q).Follows C (ask' q))

include ha

theorem framed_makeInstance (id : TemplateId) (t : TemplateDef) (path : String) (args : List Ty)
    (number : Nat) (span : Span) :
    (makeInstance ask id t path args number span).Follows C
      (makeInstance ask' id t path args number span) := by
  rw [makeInstance_eq, makeInstance_eq]
  refine (framed_still hC fun _ => preserves_declareEntity (frame_additive _) _ _ _).bind
    fun member => ?_
  split
  · rename_i entity _
    refine Run.Follows.bind (framed_modify hC fun _ => rfl) fun _ => (hC.detached ?_).bind fun _ =>
      Run.follows_pure _
    cases entity with
    | struct id => exact ha _
    | global id => exact (ha _).bind fun _ => Run.follows_pure _
  · exact Run.follows_reject _ _

theorem framed_instantiate (id : TemplateId) (args : List Ty) (span : Span) :
    (instantiate ask id args span).Follows C (instantiate ask' id args span) := by
  rw [instantiate_eq, instantiate_eq]
  refine Run.follows_get_bind fun c => ?_
  dsimp only
  split
  · exact Run.follows_reject _ _
  split
  · exact Run.follows_pure _
  split
  · exact Run.follows_reject _ _
  · exact Run.Follows.bind (framed_modify hC fun _ => rfl) fun _ =>
      framed_finally hC (framed_makeInstance hC ha _ _ _ _ _ _) fun _ => rfl

theorem framed_resolveMacro (id : MacroId) :
    (resolveMacro ask id).Follows C (resolveMacro ask' id) := by
  rw [resolveMacro_eq, resolveMacro_eq]
  refine Run.follows_get_bind fun c => ?_
  dsimp only
  split
  · exact Run.follows_pure _
  · exact (follows_macroSignature (fun q _ => ha q) _ _).bind fun _ =>
      framed_modify hC fun _ => rfl

theorem framed_resolveAlias (id : AliasId) (usedAt : Span) :
    (resolveAlias ask id usedAt).Follows C (resolveAlias ask' id usedAt) := by
  unfold resolveAlias
  refine Run.follows_get_bind fun c => ?_
  dsimp only
  split
  · exact Run.follows_pure _
  · exact Run.follows_reject _ _
  · exact Run.Follows.bind (framed_modify hC fun _ => rfl) fun _ => (hC.detached (ha _)).bind fun _ =>
      Run.Follows.bind (framed_modify hC fun _ => rfl) fun _ => Run.follows_pure _

theorem framed_resolveStruct (id : StructId) (usedAt : Span) :
    (resolveStruct ask id usedAt).Follows C (resolveStruct ask' id usedAt) := by
  unfold resolveStruct
  refine Run.follows_get_bind fun c => ?_
  dsimp only
  split
  · exact Run.follows_pure _
  · exact Run.follows_reject _ _
  · refine Run.Follows.bind (framed_modify hC fun _ => rfl) fun _ =>
      (hC.detached (follows_resolveFields (fun q _ => ha q) _ _ _)).bind fun fields =>
        Run.follows_get_bind fun d => ?_
    have hcomplete : Run.Follows C (modify (·.modifyStruct id fun d => { d with fields, state := .complete }))
        (modify (·.modifyStruct id fun d => { d with fields, state := .complete })) :=
      framed_modify hC fun _ => rfl
    split
    · exact (Run.follows_fail _).bind fun _ => hcomplete
    · exact hcomplete

omit ha in
theorem framed_resolveGlobal (h : Following C ask ask') (id : GlobalId) (usedAt : Span) :
    (resolveGlobal ask id usedAt).Follows C (resolveGlobal ask' id usedAt) := by
  unfold resolveGlobal
  refine Run.follows_get_bind fun c => ?_
  dsimp only
  split
  · exact Run.follows_pure _
  · exact Run.follows_reject _ _
  · refine Run.Follows.bind (framed_modify hC fun _ => rfl) fun _ => (hC.detached ?_).bind fun _ =>
      Run.Follows.bind (framed_modify hC fun _ => rfl) fun _ => Run.follows_pure _
    split
    · exact (follows_fnType h _ _ _).bind fun _ => Run.follows_pure _
    · exact follows_variableType h _ _

end

/-! ## The course that says nothing -/

section

theorem detached_plain {x y : Check α} (h : x.Follows .plain y) :
    (detached x).Follows .plain (detached y) :=
  follows_plain.mpr fun c _ _ hx =>
    follows_plain.mp (h.finally fun d => { d with frame := c.frame }) hx

theorem framed_plain : Course.plain.Framed :=
  ⟨fun _ _ _ => ⟨fun _ => trivial, trivial⟩, detached_plain⟩

variable (ha : ∀ q : Query, (ask q).Follows .plain (ask' q))

include ha

/-- The parts of checking over more answers follow those over fewer. -/
theorem followingBody_plain : FollowingBody .plain ask ask' where
  answers q _ := ha q
  consume _ := follows_self _
  macroSigned := framed_resolveMacro framed_plain ha
  instantiate := framed_instantiate framed_plain ha
  everyAnswer := ha
  resembles _ _ _ := ⟨fun _ => trivial, trivial⟩
  declared := follows_declStmt ⟨fun q _ => ha q, fun _ => follows_self _,
    framed_resolveMacro framed_plain ha, framed_instantiate framed_plain ha⟩ fun _ _ _ _ => follows_self _
  agrees _ _ _ := ⟨fun _ => trivial, trivial⟩
  bodyOpened _ _ _ := ⟨fun _ => trivial, trivial⟩
  bodyClosed _ := ⟨fun _ => trivial, trivial⟩
  bodyLeft _ := trivial
  param _ _ := follows_self _
  receiver _ _ := follows_self _

theorem step_plain (q : Query) : (step ask q).Follows .plain (step ask' q) :=
  have h := followingBody_plain ha
  h.step (follows_checkBlock h) (follows_loopStmt h) (framed_resolveAlias framed_plain ha)
    (framed_resolveStruct framed_plain ha) (framed_resolveGlobal framed_plain h.toFollowing) q

end

/-! ## Cuts and bounds -/

/-- Answers that are refused here and there, and those that nest less deep, are followed by those that
are not. -/
theorem answerCut_plain (cut : Cut) {n m : Nat} (h : n ≤ m) (q : Query) :
    (answerCut cut n q).Follows .plain (answerTo m q) := by
  induction n generalizing m q with
  | zero => exact follows_plain.mpr fun c a d hrun => by cases hrun
  | succ n ih =>
    obtain ⟨m, rfl⟩ : ∃ k, m = k + 1 := ⟨m - 1, by omega⟩
    have hstep := step_plain (fun q => ih (Nat.le_of_succ_le_succ h) q) q
    exact follows_plain.mpr fun c a d hrun => follows_plain.mp hstep (cutAt_eq_ok hrun)

theorem answerTo_plain {n m : Nat} (h : n ≤ m) (q : Query) :
    (answerTo n q).Follows .plain (answerTo m q) := by
  rw [← answerCut_none n]
  exact answerCut_plain _ h q

end Check

end OwnLang
