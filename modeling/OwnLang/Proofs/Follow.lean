import Mathlib
import OwnLang.Proofs.Run

/-!
# Two runs of the same work

The same work can be run twice from one state so that the second run comes further than the first:
it may nest deeper, or it is not cut short where the first one is. `Run.Follows` says that the runs
do the same up to the point where the first one gives up, and relates the state of that point to
every end of the second. A `Course` says which relation that is, and what else is known of the
states behind the second run. In a course that is `whole`, the first run does not give up, and the
runs are the same.

There is one rule for each way in which runs are put together, so what holds of the parts of a run
holds of the whole.
-/

namespace OwnLang

variable {σ α β : Type}

/-- What is known of the states that runs come through. -/
structure Course (σ : Type) where
  /-- The states from which runs are followed. -/
  ready : σ → Prop
  /-- How a state that a run ends in is related to the one that it began in. -/
  moves : σ → σ → Prop
  /-- How a state that a run succeeds in is related to the one that it began in. -/
  done : σ → σ → Prop
  /-- How the ends of a run are related to a state on the way. -/
  after : σ → σ → Prop
  /-- Whether the first of two runs comes as far as the second. -/
  whole : Prop := False
  moves_refl : ∀ s, moves s s
  moves_trans : ∀ {s t u}, moves s t → moves t u → moves s u
  done_refl : ∀ s, done s s
  done_trans : ∀ {s t u}, moves s t → done s t → moves t u → done t u → done s u
  ready_done : ∀ {s t}, ready s → moves s t → done s t → ready t
  after_of_moves : ∀ {s t}, moves s t → after s t
  after_trans : ∀ {s t u}, after s t → after t u → after s u

/-- The course in which a property is kept, whatever else happens. -/
def Course.keeping (P : σ → Prop) : Course σ where
  ready _ := True
  moves s t := P s → P t
  done _ _ := True
  after _ _ := True
  moves_refl _ h := h
  moves_trans h h' hs := h' (h hs)
  done_refl _ := trivial
  done_trans _ _ _ _ := trivial
  ready_done _ _ _ := trivial
  after_of_moves _ := trivial
  after_trans _ _ := trivial

/-- The course in which runs that begin where a property holds are the same, and keep it. -/
def Course.holding (P : σ → Prop) : Course σ where
  ready := P
  moves s t := P s → P t
  done _ _ := True
  after _ _ := True
  whole := True
  moves_refl _ hs := hs
  moves_trans h h' hs := h' (h hs)
  done_refl _ := trivial
  done_trans _ _ _ _ := trivial
  ready_done hs h _ := h hs
  after_of_moves _ := trivial
  after_trans _ _ := trivial

namespace Run

variable {C : Course σ} {s : σ}

/-- From a state on, two runs do the same, unless the first one stops or fails on the way, in a
state that the second one comes through. -/
structure FollowsFrom (C : Course σ) (s : σ) (x y : Run σ α) : Prop where
  meets : x s = y s ∨ (∃ why, x s = .stopped why) ∨
    ∃ d m, x s = .error d m ∧ ∀ t, y.Ends s t → C.after m t
  moves : ∀ t, y.Ends s t → C.moves s t
  done : ∀ a t, y s = .ok a t → C.done s t
  same : C.whole → x s = y s

/-- Two runs do the same as far as the first one comes, from every state that is ready. -/
def Follows (C : Course σ) (x y : Run σ α) : Prop := ∀ s, C.ready s → FollowsFrom C s x y

/-- What matters of runs is what they do from the state. -/
theorem FollowsFrom.of_eq {x y x' y' : Run σ α} (h : FollowsFrom C s x y) (hx : x' s = x s)
    (hy : y' s = y s) : FollowsFrom C s x' y' where
  meets := by
    unfold Ends
    rw [hx, hy]
    exact h.meets
  moves t ht := h.moves t (by unfold Ends at ht ⊢; rwa [hy] at ht)
  done a t ht := h.done a t (hy ▸ ht)
  same hC := by rw [hx, hy, h.same hC]

/-! ## One step -/

theorem followsFrom_of_same {x : Run σ α} (hmoves : ∀ t, x.Ends s t → C.moves s t)
    (hdone : ∀ a t, x s = .ok a t → C.done s t) : FollowsFrom C s x x :=
  ⟨.inl rfl, hmoves, hdone, fun _ => rfl⟩

/-- Runs that fail alike. -/
theorem followsFrom_of_error {x y : Run σ α} {d : Diagnostic} {t : σ} (hx : x s = .error d t)
    (hy : y s = .error d t) (hmoves : C.moves s t) : FollowsFrom C s x y where
  meets := .inl (hx.trans hy.symm)
  moves u hu := by
    rcases hu with ⟨a, hu⟩ | ⟨e, hu⟩ <;> cases hy.symm.trans hu
    exact hmoves
  done a u hu := by cases hy.symm.trans hu
  same _ := hx.trans hy.symm

theorem followsFrom_of_stopped {x y : Run σ α} {why : Stop} (hx : x s = .stopped why)
    (hy : y s = .stopped why) : FollowsFrom C s x y where
  meets := .inl (hx.trans hy.symm)
  moves u hu := by rcases hu with ⟨a, hu⟩ | ⟨e, hu⟩ <;> cases hy.symm.trans hu
  done a u hu := by cases hy.symm.trans hu
  same _ := hx.trans hy.symm

/-- A run that leaves the state as it is follows itself. -/
theorem followsFrom_still {x : Run σ α} (h : ∀ P : σ → Prop, x.Preserves P) : FollowsFrom C s x x :=
  have hstill {t : σ} (ht : x.Ends s t) : t = s := h (· = s) ht rfl
  followsFrom_of_same (fun _ ht => hstill ht ▸ C.moves_refl s)
    fun _ _ ht => hstill (ends_of_ok ht) ▸ C.done_refl s

/-- A run that keeps everything leaves the state as it is. -/
theorem follows_still {x : Run σ α} (h : ∀ P : σ → Prop, x.Preserves P) : Follows C x x :=
  fun _ _ => followsFrom_still h

theorem follows_pure (a : α) : Follows C (Pure.pure a : Run σ α) (Pure.pure a) :=
  follows_still fun _ => preserves_pure a

theorem follows_fail (d : Diagnostic) : Follows C (fail d : Run σ α) (fail d) :=
  follows_still fun _ => preserves_fail d

theorem follows_reject (cause : Cause) (span : Span) :
    Follows C (reject cause span : Run σ α) (reject cause span) := follows_fail _

theorem follows_stop (why : Stop) : Follows C (stop why : Run σ α) (stop why) :=
  follows_still fun _ => preserves_stop why

theorem follows_ofExcept (x : Except Diagnostic α) :
    Follows C (ofExcept x : Run σ α) (ofExcept x) := follows_still fun _ => preserves_ofExcept x

theorem followsFrom_modify {f : σ → σ} (hmoves : C.moves s (f s)) (hdone : C.done s (f s)) :
    FollowsFrom C s (modify f) (modify f) :=
  followsFrom_of_same (fun _ ht => ends_modify ht ▸ hmoves)
    fun _ _ ht => ends_modify (ends_of_ok ht) ▸ hdone

/-! ## Runs put together -/

theorem FollowsFrom.after {x y : Run σ α} (h : FollowsFrom C s x y) {t : σ} (ht : y.Ends s t) :
    C.after s t := C.after_of_moves (h.moves t ht)

/-- What a run goes on with is followed from where it goes on. -/
theorem FollowsFrom.bind_ok {x y : Run σ α} {f g : α → Run σ β} (hx : FollowsFrom C s x y)
    (hf : ∀ a t, y s = .ok a t → C.moves s t → C.done s t → FollowsFrom C t (f a) (g a)) :
    FollowsFrom C s (x >>= f) (y >>= g) where
  meets := by
    rcases hx.meets with hsame | ⟨why, hstop⟩ | ⟨d, m, herror, hafter⟩
    · rw [bind_apply, bind_apply, hsame]
      cases hy : y s with
      | ok a t =>
        have hrest := hf a t hy (hx.moves t (ends_of_ok hy)) (hx.done a t hy)
        rcases hrest.meets with hsame | ⟨why, hstop⟩ | ⟨d, m, herror, hafter⟩
        · exact .inl hsame
        · exact .inr (.inl ⟨why, hstop⟩)
        · refine .inr (.inr ⟨d, m, herror, fun u hu => hafter u ?_⟩)
          unfold Ends at hu ⊢
          simpa only [bind_apply, hy] using hu
      | error d t => exact .inl rfl
      | stopped why => exact .inl rfl
    · exact .inr (.inl ⟨why, by rw [bind_apply, hstop]⟩)
    · refine .inr (.inr ⟨d, m, by rw [bind_apply, herror], fun u hu => ?_⟩)
      rcases ends_bind hu with hu | ⟨a, t, hy, hu⟩
      · exact hafter u hu
      · exact C.after_trans (hafter t (ends_of_ok hy))
          ((hf a t hy (hx.moves t (ends_of_ok hy)) (hx.done a t hy)).after hu)
  moves u hu := by
    rcases ends_bind hu with hu | ⟨a, t, hy, hu⟩
    · exact hx.moves u hu
    · have hmoves := hx.moves t (ends_of_ok hy)
      exact C.moves_trans hmoves ((hf a t hy hmoves (hx.done a t hy)).moves u hu)
  done b u hu := by
    obtain ⟨a, t, hy, hu⟩ := bind_eq_ok.mp hu
    have hmoves := hx.moves t (ends_of_ok hy)
    have hdone := hx.done a t hy
    have hrest := hf a t hy hmoves hdone
    exact C.done_trans hmoves hdone (hrest.moves u (ends_of_ok hu)) (hrest.done b u hu)
  same hC := by
    rw [bind_apply, bind_apply, hx.same hC]
    cases hy : y s with
    | ok a t => exact (hf a t hy (hx.moves t (ends_of_ok hy)) (hx.done a t hy)).same hC
    | error d t => rfl
    | stopped why => rfl

theorem FollowsFrom.bind {x y : Run σ α} {f g : α → Run σ β} (hs : C.ready s)
    (hx : FollowsFrom C s x y) (hf : ∀ a, Follows C (f a) (g a)) :
    FollowsFrom C s (x >>= f) (y >>= g) :=
  hx.bind_ok fun a t _ hmoves hdone => hf a t (C.ready_done hs hmoves hdone)

theorem Follows.bind {x y : Run σ α} {f g : α → Run σ β} (hx : Follows C x y)
    (hf : ∀ a, Follows C (f a) (g a)) : Follows C (x >>= f) (y >>= g) :=
  fun s hs => (hx s hs).bind hs hf

theorem Follows.map {x y : Run σ α} (hx : Follows C x y) (f : α → β) :
    Follows C (f <$> x) (f <$> y) := by
  rw [map_eq_pure_bind, map_eq_pure_bind]
  exact hx.bind fun _ => follows_pure _

/-- Both runs look at the same state. -/
theorem followsFrom_get_bind {f g : σ → Run σ β} (h : FollowsFrom C s (f s) (g s)) :
    FollowsFrom C s (get >>= f) (get >>= g) :=
  ⟨h.meets, h.moves, h.done, h.same⟩

theorem follows_get_bind {f g : σ → Run σ β} (h : ∀ s, Follows C (f s) (g s)) :
    Follows C (get >>= f) (get >>= g) := fun s hs => followsFrom_get_bind (h s s hs)

theorem Follows.unless {p : Prop} [Decidable p] {cause : Cause} {span : Span}
    {f g : PUnit → Run σ β} (hf : Follows C (f ⟨⟩) (g ⟨⟩)) :
    Follows C (if p then reject cause span >>= f else f ⟨⟩)
      (if p then reject cause span >>= g else g ⟨⟩) := by
  split
  · exact fun s hs => (follows_reject (C := C) cause span s hs).bind_ok fun _ _ hreject => by
      cases hreject
  · exact hf

theorem follows_mapM {f g : α → Run σ β} (hf : ∀ a, Follows C (f a) (g a)) (l : List α) :
    Follows C (l.mapM f) (l.mapM g) := by
  induction l with
  | nil => exact follows_pure _
  | cons a l ih =>
    rw [List.mapM_cons, List.mapM_cons]
    exact (hf a).bind fun _ => ih.bind fun _ => follows_pure _

theorem follows_forIn {f g : α → β → Run σ (ForInStep β)} (hf : ∀ a b, Follows C (f a b) (g a b))
    (l : List α) (b : β) : Follows C (forIn l b f) (forIn l b g) := by
  induction l generalizing b with
  | nil => exact follows_pure _
  | cons a l ih =>
    rw [List.forIn_cons, List.forIn_cons]
    refine (hf a b).bind fun r => ?_
    cases r with
    | done b => exact follows_pure _
    | yield b => exact ih b

/-! ## Work that is closed -/

/-- Work that begins in a changed state, and behind which the state is changed in any case. -/
theorem FollowsFrom.around {x y : Run σ α} {start : σ} {finish : σ → σ}
    (hxy : FollowsFrom C start x y) (hmoves : ∀ t, C.moves start t → C.moves s (finish t))
    (hdone : ∀ t, C.moves start t → C.done start t → C.done s (finish t))
    (hafter : ∀ m t, C.after m t → C.after (finish m) (finish t)) :
    FollowsFrom C s (fun _ => x.andFinally finish start) (fun _ => y.andFinally finish start) where
  meets := by
    rcases hxy.meets with hsame | ⟨why, hstop⟩ | ⟨d, m, herror, hrest⟩
    · exact .inl (by simp only [andFinally, hsame])
    · exact .inr (.inl ⟨why, by simp only [andFinally, hstop]⟩)
    · refine .inr (.inr ⟨d, finish m, by simp only [andFinally, herror], fun t ht => ?_⟩)
      obtain ⟨u, hu, rfl⟩ : ∃ u, y.Ends start u ∧ finish u = t := ends_andFinally ht
      exact hafter m u (hrest u hu)
  moves t ht := by
    obtain ⟨u, hu, rfl⟩ : ∃ u, y.Ends start u ∧ finish u = t := ends_andFinally ht
    exact hmoves u (hxy.moves u hu)
  done a t ht := by
    obtain ⟨u, hu, rfl⟩ := andFinally_eq_ok.mp ht
    exact hdone u (hxy.moves u (ends_of_ok hu)) (hxy.done a u hu)
  same hC := by simp only [andFinally, hxy.same hC]

/-- Work that begins in a changed state, and whose result is written when it succeeds: the writing
need not be a move from where the work ends. -/
theorem FollowsFrom.written {x y : Run σ α} {start : σ} {write : α → Run σ β}
    (hxy : FollowsFrom C start x y)
    (hfail : ∀ t, y.Ends start t → C.moves start t → C.moves s t)
    (hwrite : ∀ a t u, y start = .ok a t → C.moves start t → C.done start t →
      (write a).Ends t u → C.moves s u ∧ C.after t u)
    (hdone : ∀ a t b u, y start = .ok a t → C.moves start t → C.done start t →
      write a t = .ok b u → C.done s u) :
    FollowsFrom C s (fun _ => (x >>= write) start) (fun _ => (y >>= write) start) where
  meets := by
    rcases hxy.meets with hsame | ⟨why, hstop⟩ | ⟨d, m, herror, hrest⟩
    · exact .inl (by simp only [bind_apply, hsame])
    · exact .inr (.inl ⟨why, by simp only [bind_apply, hstop]⟩)
    · refine .inr (.inr ⟨d, m, by simp only [bind_apply, herror], fun u hu => ?_⟩)
      replace hu : (y >>= write).Ends start u := hu
      rcases ends_bind hu with hu | ⟨a, t, ht, hu⟩
      · exact hrest u hu
      · exact C.after_trans (hrest t (ends_of_ok ht))
          (hwrite a t u ht (hxy.moves t (ends_of_ok ht)) (hxy.done a t ht) hu).2
  moves u hu := by
    replace hu : (y >>= write).Ends start u := hu
    rcases ends_bind hu with hu | ⟨a, t, ht, hu⟩
    · exact hfail u hu (hxy.moves u hu)
    · exact (hwrite a t u ht (hxy.moves t (ends_of_ok ht)) (hxy.done a t ht) hu).1
  done b u hu := by
    obtain ⟨a, t, ht, hu⟩ := bind_eq_ok.mp hu
    exact hdone a t b u ht (hxy.moves t (ends_of_ok ht)) (hxy.done a t ht) hu
  same hC := by simp only [bind_apply, hxy.same hC]

/-- Work that begins in a changed state, and whose failure is passed on behind a step that always succeeds. -/
theorem FollowsFrom.enclosed {γ : Type} {x y : Run σ α} {start : σ} (hxy : FollowsFrom C start x y)
    {close : Run σ β} {value : σ → β} {finish : σ → σ} (hclose : ∀ t, close t = .ok (value t) (finish t))
    (hmoves : ∀ t, C.moves start t → C.moves s (finish t))
    (hdone : ∀ t, C.moves start t → C.done start t → C.done s (finish t))
    (hafter : ∀ m t, C.after m t → C.after (finish m) (finish t)) {f g : α → β → Run σ γ}
    (hfg : ∀ a b t, C.moves s t → C.done s t → FollowsFrom C t (f a b) (g a b)) :
    FollowsFrom C s
      (fun _ => (x.attempt >>= fun r => close >>= fun b => ofExcept r >>= fun a => f a b) start)
      (fun _ => (y.attempt >>= fun r => close >>= fun b => ofExcept r >>= fun a => g a b) start) := by
  -- What the closing step finds is read off where the work ends.
  let found (z : Run σ α) : Run σ (α × β) := z >>= fun a => get >>= fun t => Pure.pure (a, value t)
  have hfound : FollowsFrom C start (found x) (found y) :=
    hxy.bind_ok fun a t _ _ _ => followsFrom_get_bind (followsFrom_still fun _ => preserves_pure _)
  have hopen {z : Run σ α} (k : α → β → Run σ γ) :
      (z.attempt >>= fun r => close >>= fun b => ofExcept r >>= fun a => k a b) start =
        ((fun _ => (found z).andFinally finish start) >>= fun p => k p.1 p.2) s := by
    simp only [found, bind_apply, attempt, andFinally]
    cases z start with
    | stopped why => rfl
    | _ =>
      simp only [hclose, ofExcept]
      rfl
  exact ((hfound.around hmoves hdone hafter).bind_ok fun p t _ => hfg p.1 p.2 t).of_eq (hopen f) (hopen g)

/-- The same from where the run begins. -/
theorem Follows.closing {γ : Type} {x y : Run σ α} (hxy : Follows C x y) {close : Run σ β}
    {value : σ → β} {finish : σ → σ} (hclose : ∀ s, close s = .ok (value s) (finish s))
    (hfinish : ∀ s, C.moves s (finish s) ∧ C.done s (finish s) ∧ C.after (finish s) s)
    {f g : α → β → Run σ γ} (hfg : ∀ a b, Follows C (f a b) (g a b)) :
    Follows C (x.attempt >>= fun r => close >>= fun b => ofExcept r >>= fun a => f a b)
      (y.attempt >>= fun r => close >>= fun b => ofExcept r >>= fun a => g a b) := by
  intro s hs
  refine ((hxy s hs).enclosed hclose (fun t ht => C.moves_trans ht (hfinish t).1)
    (fun t ht hd => C.done_trans ht hd (hfinish t).1 (hfinish t).2.1) (fun m t hmt => ?_)
    fun a b t hmoves hdone => hfg a b t (C.ready_done hs hmoves hdone)).of_eq rfl rfl
  exact C.after_trans (hfinish m).2.2 (C.after_trans hmt (C.after_of_moves (hfinish t).1))

/-! ## Ends -/

/-- Where the first run ends, it is followed by the ends of the second one. -/
theorem FollowsFrom.ends {x y : Run σ α} (h : FollowsFrom C s x y) {m t : σ} (hm : x.Ends s m)
    (ht : y.Ends s t) : C.after m t := by
  rcases h.meets with hsame | ⟨why, hstop⟩ | ⟨d, m', hcut, hrest⟩
  · obtain rfl : m = t := by
      unfold Ends at hm ht
      rw [hsame] at hm
      rcases hm with ⟨a, hm⟩ | ⟨d, hm⟩ <;> rcases ht with ⟨b, ht⟩ | ⟨e, ht⟩ <;> rw [hm] at ht <;>
        cases ht <;> rfl
    exact C.after_of_moves (C.moves_refl m)
  · rcases hm with ⟨a, hm⟩ | ⟨d, hm⟩ <;> rw [hstop] at hm <;> cases hm
  · obtain rfl : m' = m := by
      rcases hm with ⟨a, hm⟩ | ⟨e, hm⟩ <;> rw [hcut] at hm <;> cases hm
      rfl
    exact hrest t ht

/-- What is followed in one course is followed in any other that the ends of the runs agree with. -/
theorem FollowsFrom.recast {D : Course σ} {x y : Run σ α} (h : FollowsFrom C s x y)
    (hmoves : ∀ t, y.Ends s t → D.moves s t) (hdone : ∀ a t, y s = .ok a t → D.done s t)
    (hwhole : D.whole → C.whole) (hafter : ∀ m t, x.Ends s m → y.Ends s t → D.after m t) :
    FollowsFrom D s x y where
  meets := by
    rcases h.meets with hsame | hstop | ⟨d, m, hcut, -⟩
    · exact .inl hsame
    · exact .inr (.inl hstop)
    · exact .inr (.inr ⟨d, m, hcut, fun t ht => hafter m t (ends_of_error hcut) ht⟩)
  moves := hmoves
  done := hdone
  same hD := h.same (hwhole hD)

/-- Where the first run succeeds, the second one does the same. -/
theorem FollowsFrom.of_ok {x y : Run σ α} (h : FollowsFrom C s x y) {a : α} {t : σ}
    (hx : x s = .ok a t) : y s = .ok a t := by
  rcases h.meets with hsame | ⟨why, hstop⟩ | ⟨d, m, hcut, -⟩
  · exact hsame ▸ hx
  · rw [hstop] at hx
    cases hx
  · rw [hcut] at hx
    cases hx

/-! ## What runs keep -/

theorem Preserves.follows {P : σ → Prop} {x : Run σ α} (h : x.Preserves P) :
    Follows (.keeping P) x x :=
  fun _ _ => followsFrom_of_same (fun _ ht hs => h ht hs) fun _ _ _ => trivial

theorem Follows.preserves {P : σ → Prop} {x y : Run σ α} (h : Follows (.keeping P) x y) :
    y.Preserves P := fun _ t ht hs => (h _ trivial).moves t ht hs

end Run

end OwnLang
