import Mathlib
import OwnLang.Proofs.Check.TypedBody

/-!
# Moments of a session

`Session.Reachable` are the contexts between the requests of a session. What checking looks like in
the midst of a request is seen where it puts a question: `Check.answerCut` answers as `Check.answer`
does, but stops at the questions that `cut` picks, and leaves their contexts behind. The contexts of
sessions whose requests may be cut short at any question, at any depth, are the `Session.Moment`s. But
for what is open, the contexts in the midst of a request are such contexts as well (`Session.Amidst`).
-/

namespace OwnLang

/-- Questions at which checking is stopped, and what it fails with there. -/
abbrev Cut : Type := Query → Context → Option Diagnostic

/-- The same answers, but a question that `cut` picks fails in the context in which it is put. -/
def Asker.cutAt (ask : Asker) (cut : Cut) : Asker := fun q c =>
  match cut q c with
  | some d => .error d c
  | none => ask q c

namespace Check

/-- Answers to queries that need others at most `n` deep, as far as `cut` lets checking come. -/
def answerCut (cut : Cut) : Nat → Asker
  | 0, _ => Run.stop .depth
  | n + 1, q => Asker.cutAt (step (answerCut cut n)) cut q

variable {ask : Asker} {cut : Cut} {c d : Context} {q : Query}

theorem cutAt_eq_ok {a : q.Answer} (h : ask.cutAt cut q c = .ok a d) : ask q c = .ok a d := by
  unfold Asker.cutAt at h
  split at h
  · cases h
  · exact h

theorem preserves_cutAt {P : Context → Prop} (h : (ask q).Preserves P) :
    (ask.cutAt cut q).Preserves P := by
  intro c d hd hc
  unfold Run.Ends Asker.cutAt at hd
  split at hd
  · rcases hd with ⟨_, hd⟩ | ⟨_, hd⟩ <;> cases hd
    exact hc
  · exact h hd hc

theorem answerCut_none (n : Nat) : answerCut (fun _ _ => none) n = answerTo n := by
  induction n with
  | zero => rfl
  | succ n ih =>
    funext q
    show Asker.cutAt (step (answerCut _ n)) _ q = step (answerTo n) q
    rw [ih]
    rfl

theorem Steady.cutAt (h : Steady ask) : Steady (ask.cutAt cut) where
  moves q hq origin := preserves_cutAt (h.moves q hq origin)
  count q hq k := preserves_cutAt (h.count q hq k)
  stmt hs := h.stmt (cutAt_eq_ok hs)
  block hb := h.block (cutAt_eq_ok hb)

theorem Elaborates.cutAt (h : Elaborates ask) : Elaborates (ask.cutAt cut) where
  steady := h.steady.cutAt
  keeps origin q := preserves_cutAt (h.keeps origin q)
  sound hc ha := h.sound hc (cutAt_eq_ok ha)
  global hc ha := h.global hc (cutAt_eq_ok ha)

theorem elaborates_answerCut (n : Nat) : Elaborates (answerCut cut n) := by
  induction n with
  | zero => exact elaborates_answerTo 0
  | succ n ih => exact ih.step.cutAt

end Check

namespace Session

/-- One request of a session that is cut short at the questions that `cut` picks. -/
inductive CutStep (c d : Context) : Prop where
  | modules (cut : Cut) (files : List Surface.Module)
      (h : (Check.checkModulesWith (Check.answerCut cut Check.nestingBound) files).Ends c d)
  | query (cut : Cut) (q : Query) (h : (Check.answerCut cut Check.nestingBound q).Ends c d)
  | instantiate (cut : Cut) (id : TemplateId) (args : List Ty) (span : Span)
      (h : (Check.instantiate (Check.answerCut cut Check.nestingBound) id args span).Ends c d)

/-- The contexts that checking can come to from another one. -/
abbrev Onward : Context → Context → Prop := Relation.ReflTransGen CutStep

/-- The contexts that checking can come to. -/
def Moment (c : Context) : Prop := ∃ options, Onward { options } c

/-- The contexts in the midst of requests. A request that is cut short closes the function that is open
and gives up the instances that are in progress, and puts back nothing else: all else is as it is at
some moment. -/
def Amidst (c : Context) : Prop := ∃ m frame inProgress, Moment m ∧ c = { m with frame, inProgress }

variable {c d : Context}

theorem Moment.amidst (hc : Moment c) : Amidst c := ⟨c, c.frame, c.inProgress, hc, rfl⟩

/-- What requests keep wherever they are cut short holds at every moment. -/
theorem Onward.keeps {P : Context → Prop}
    (h : ∀ cut, Check.Lasting (Check.answerCut cut Check.nestingBound) P) (hcd : Onward c d)
    (hc : P c) : P d := by
  induction hcd with
  | refl => exact hc
  | tail _ step ih =>
    cases step with
    | modules cut files hs => exact Check.preserves_checkModulesWith (h cut) files hs ih
    | query cut q hs => exact (h cut).everyAnswer q hs ih
    | instantiate cut id args span hs => exact (h cut).instantiate id args span hs ih

/-- A request need not be cut short. -/
theorem Step.cut (h : Step c d) : CutStep c d := by
  have hanswer : Check.answerCut (fun _ _ => none) Check.nestingBound = Check.answer :=
    Check.answerCut_none _
  cases h with
  | modules files h => exact .modules (fun _ _ => none) files (by rw [hanswer]; exact h)
  | query q h => exact .query (fun _ _ => none) q (by rw [hanswer]; exact h)
  | instantiate id args span h =>
    exact .instantiate (fun _ _ => none) id args span (by rw [hanswer]; exact h)

theorem Later.onward (h : Later c d) : Onward c d :=
  Relation.ReflTransGen.mono (fun _ _ => Step.cut) _ _ h

theorem Reachable.moment (h : Reachable c) : Moment c := h.imp fun _ => Later.onward

end Session

end OwnLang
