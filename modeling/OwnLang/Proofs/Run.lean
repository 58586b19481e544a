import Mathlib
import OwnLang.Outcome

/-!
# What runs keep and what they return

A run can be taken apart in two ways. `Run.bind_eq_ok` and its companions read a successful run
backwards: what it returned is what its last step returned, from the state that the steps in front
left. `Run.Preserves` looks at both ends of a run at once: a property of states that every step
keeps is kept by the whole run, also where the run fails on the way. `Run.Yields` goes forward through
a run that succeeds: along a `Way` of states, and with what the results on it are.
-/

namespace OwnLang

/-- The value of a run that succeeded. -/
def Outcome.value? {σ α : Type} : Outcome σ α → Option α
  | .ok a _ => some a
  | _ => none

theorem Outcome.value?_eq_some {σ α : Type} {x : Outcome σ α} {a : α} :
    x.value? = some a ↔ ∃ s, x = .ok a s := by
  cases x <;> simp [Outcome.value?]

namespace Run

variable {σ α β : Type}

/-- A run from `s` ends in `t`, with a value or with a diagnostic. -/
def Ends (x : Run σ α) (s t : σ) : Prop := (∃ a, x s = .ok a t) ∨ ∃ d, x s = .error d t

/-- A property of states that a run keeps, whether it succeeds or fails. -/
def Preserves (P : σ → Prop) (x : Run σ α) : Prop := ∀ ⦃s t⦄, x.Ends s t → P s → P t

/-- What every value that a run returns satisfies, whatever the state. -/
def Returns (Q : α → Prop) (x : Run σ α) : Prop := ∀ ⦃s a t⦄, x s = .ok a t → Q a

/-! ## Successful runs -/

@[simp] theorem pure_apply (a : α) (s : σ) : (Pure.pure a : Run σ α) s = .ok a s := rfl

@[simp] theorem get_apply (s : σ) : (get : Run σ σ) s = .ok s s := rfl

@[simp] theorem set_apply (s t : σ) : (set t : Run σ PUnit) s = .ok ⟨⟩ t := rfl

@[simp] theorem modify_apply (f : σ → σ) (s : σ) : (modify f : Run σ PUnit) s = .ok ⟨⟩ (f s) := rfl

@[simp] theorem fail_apply (d : Diagnostic) (s : σ) : (fail d : Run σ α) s = .error d s := rfl

@[simp] theorem reject_apply (cause : Cause) (span : Span) (s : σ) :
    (reject cause span : Run σ α) s = .error ⟨cause, span, none⟩ s := rfl

@[simp] theorem stop_apply (why : Stop) (s : σ) : (stop why : Run σ α) s = .stopped why := rfl

theorem bind_apply (x : Run σ α) (f : α → Run σ β) (s : σ) :
    (x >>= f) s = match x s with
      | .ok a t => f a t
      | .error d t => .error d t
      | .stopped why => .stopped why := rfl

theorem bind_eq_ok {x : Run σ α} {f : α → Run σ β} {s t : σ} {b : β} :
    (x >>= f) s = .ok b t ↔ ∃ a s₁, x s = .ok a s₁ ∧ f a s₁ = .ok b t := by
  rw [bind_apply]
  cases hx : x s <;> simp

theorem bind_eq_error {x : Run σ α} {f : α → Run σ β} {s t : σ} {d : Diagnostic} :
    (x >>= f) s = .error d t ↔
      x s = .error d t ∨ ∃ a s₁, x s = .ok a s₁ ∧ f a s₁ = .error d t := by
  rw [bind_apply]
  cases hx : x s <;> simp

theorem map_eq_ok {f : α → β} {x : Run σ α} {s t : σ} {b : β} :
    (f <$> x) s = .ok b t ↔ ∃ a, x s = .ok a t ∧ f a = b := by
  rw [map_eq_pure_bind, bind_eq_ok]
  constructor
  · rintro ⟨a, s₁, hx, h⟩
    simp only [pure_apply, Outcome.ok.injEq] at h
    exact ⟨a, h.2 ▸ hx, h.1⟩
  · rintro ⟨a, hx, rfl⟩
    exact ⟨a, t, hx, rfl⟩

theorem ofExcept_eq_ok {x : Except Diagnostic α} {s t : σ} {a : α} :
    (ofExcept x) s = .ok a t ↔ x = .ok a ∧ t = s := by
  cases x with
  | ok b => simp [ofExcept, eq_comm]
  | error d => simp [ofExcept]

theorem attempt_eq_ok {x : Run σ α} {s t : σ} {r : Except Diagnostic α} :
    x.attempt s = .ok r t ↔
      (∃ a, x s = .ok a t ∧ r = .ok a) ∨ ∃ d, x s = .error d t ∧ r = .error d := by
  unfold attempt
  cases hx : x s <;> simp [eq_comm, and_comm]

theorem andFinally_eq_ok {x : Run σ α} {f : σ → σ} {s t : σ} {a : α} :
    (x.andFinally f) s = .ok a t ↔ ∃ s₁, x s = .ok a s₁ ∧ f s₁ = t := by
  unfold andFinally
  cases hx : x s with
  | ok b u =>
    simp only [Outcome.ok.injEq]
    constructor
    · rintro ⟨rfl, rfl⟩
      exact ⟨u, ⟨rfl, rfl⟩, rfl⟩
    · rintro ⟨_, ⟨rfl, rfl⟩, rfl⟩
      exact ⟨rfl, rfl⟩
  | error d u => simp
  | stopped w => simp

theorem andFinally_eq_error {x : Run σ α} {f : σ → σ} {s t : σ} {d : Diagnostic} :
    (x.andFinally f) s = .error d t ↔ ∃ s₁, x s = .error d s₁ ∧ f s₁ = t := by
  unfold andFinally
  cases hx : x s with
  | ok b u => simp
  | error d u =>
    simp only [Outcome.error.injEq]
    constructor
    · rintro ⟨rfl, rfl⟩
      exact ⟨u, ⟨rfl, rfl⟩, rfl⟩
    · rintro ⟨_, ⟨rfl, rfl⟩, rfl⟩
      exact ⟨rfl, rfl⟩
  | stopped w => simp

/-! ## Ends of runs -/

theorem ends_of_ok {x : Run σ α} {s t : σ} {a : α} (h : x s = .ok a t) : x.Ends s t := .inl ⟨a, h⟩

theorem ends_of_error {x : Run σ α} {s t : σ} {d : Diagnostic} (h : x s = .error d t) :
    x.Ends s t := .inr ⟨d, h⟩

theorem ends_bind {x : Run σ α} {f : α → Run σ β} {s t : σ} (h : (x >>= f).Ends s t) :
    x.Ends s t ∨ ∃ a s₁, x s = .ok a s₁ ∧ (f a).Ends s₁ t := by
  rcases h with ⟨b, h⟩ | ⟨d, h⟩
  · obtain ⟨a, s₁, hx, hf⟩ := bind_eq_ok.mp h
    exact .inr ⟨a, s₁, hx, ends_of_ok hf⟩
  · rcases bind_eq_error.mp h with hx | ⟨a, s₁, hx, hf⟩
    · exact .inl (ends_of_error hx)
    · exact .inr ⟨a, s₁, hx, ends_of_error hf⟩

theorem ends_pure {a : α} {s t : σ} (h : (Pure.pure a : Run σ α).Ends s t) : t = s := by
  rcases h with ⟨b, h⟩ | ⟨d, h⟩ <;> cases h
  rfl

theorem ends_modify {f : σ → σ} {s t : σ} (h : (modify f : Run σ PUnit).Ends s t) : t = f s := by
  rcases h with ⟨a, h⟩ | ⟨d, h⟩
  · exact (Outcome.ok.inj h).2.symm
  · cases h

theorem ends_get_bind {k : σ → Run σ β} {s t : σ} (h : (get >>= k).Ends s t) : (k s).Ends s t := h

theorem ends_modify_bind {f : σ → σ} {k : PUnit → Run σ β} {s t : σ}
    (h : (modify f >>= k).Ends s t) : (k ⟨⟩).Ends (f s) t := h

theorem ends_set_bind {u : σ} {k : PUnit → Run σ β} {s t : σ} (h : (set u >>= k).Ends s t) :
    (k ⟨⟩).Ends u t := h

theorem ends_andFinally {x : Run σ α} {f : σ → σ} {s t : σ} (h : (x.andFinally f).Ends s t) :
    ∃ s₁, x.Ends s s₁ ∧ f s₁ = t := by
  rcases h with ⟨a, h⟩ | ⟨d, h⟩
  · obtain ⟨s₁, hx, hf⟩ := andFinally_eq_ok.mp h
    exact ⟨s₁, ends_of_ok hx, hf⟩
  · obtain ⟨s₁, hx, hf⟩ := andFinally_eq_error.mp h
    exact ⟨s₁, ends_of_error hx, hf⟩

/-- Both ends of a run that is attempted are gone on from. -/
theorem ends_attempt_bind {x : Run σ α} {f : Except Diagnostic α → Run σ β} {s t : σ}
    (h : (x.attempt >>= f).Ends s t) : ∃ r s₁, x.Ends s s₁ ∧ (f r).Ends s₁ t := by
  unfold Ends at h
  simp only [bind_apply, attempt] at h
  cases hx : x s with
  | ok a s₁ =>
    rw [hx] at h
    exact ⟨.ok a, s₁, ends_of_ok hx, h⟩
  | error d s₁ =>
    rw [hx] at h
    exact ⟨.error d, s₁, ends_of_error hx, h⟩
  | stopped why => simp [hx] at h

/-! ## Values of runs -/

section Returns

variable {Q : β → Prop}

theorem returns_pure {b : β} (h : Q b) : (Pure.pure b : Run σ β).Returns Q := by
  rintro s a t ⟨rfl, rfl⟩
  exact h

theorem returns_reject (cause : Cause) (span : Span) : (reject cause span : Run σ β).Returns Q := by
  intro s a t h
  cases h

/-- What a run returns is decided by its last step. -/
theorem returns_bind {x : Run σ α} {f : α → Run σ β} (h : ∀ a, (f a).Returns Q) :
    (x >>= f).Returns Q := by
  intro s b t hb
  obtain ⟨a, s₁, -, hb⟩ := bind_eq_ok.mp hb
  exact h a hb

theorem Returns.unless {c : Prop} [Decidable c] {cause : Cause} {span : Span}
    {f : PUnit → Run σ β} (hf : (f ⟨⟩).Returns Q) :
    (if c then reject cause span >>= f else f ⟨⟩).Returns Q := by
  split
  · intro s a t h
    cases h
  · exact hf

end Returns

/-! ## Properties that runs keep -/

section Preserves

variable {P : σ → Prop}

theorem preserves_pure (a : α) : (Pure.pure a : Run σ α).Preserves P := by
  rintro s t (⟨b, h⟩ | ⟨d, h⟩) hs
  · exact (Outcome.ok.inj h).2 ▸ hs
  · cases h

theorem preserves_get : (get : Run σ σ).Preserves P := by
  rintro s t (⟨b, h⟩ | ⟨d, h⟩) hs
  · exact (Outcome.ok.inj h).2 ▸ hs
  · cases h

theorem preserves_modify {f : σ → σ} (h : ∀ s, P s → P (f s)) :
    (modify f : Run σ PUnit).Preserves P := by
  intro s t ht hs
  rw [ends_modify ht]
  exact h s hs

theorem preserves_fail (d : Diagnostic) : (fail d : Run σ α).Preserves P := by
  rintro s t (⟨b, h⟩ | ⟨d, h⟩) hs
  · cases h
  · exact (Outcome.error.inj h).2 ▸ hs

theorem preserves_reject (cause : Cause) (span : Span) :
    (reject cause span : Run σ α).Preserves P := preserves_fail _

/-- Nothing is run behind a failure. -/
theorem preserves_reject_bind (cause : Cause) (span : Span) (f : α → Run σ β) :
    (reject cause span >>= f).Preserves P := by
  rintro s t (⟨b, h⟩ | ⟨d, h⟩) hs
  · cases h
  · exact (Outcome.error.inj h).2 ▸ hs

theorem preserves_stop (why : Stop) : (stop why : Run σ α).Preserves P := by
  rintro s t (⟨b, h⟩ | ⟨d, h⟩) hs <;> cases h

theorem preserves_ofExcept (x : Except Diagnostic α) : (ofExcept x : Run σ α).Preserves P := by
  cases x with
  | ok a => exact preserves_pure a
  | error d => exact preserves_fail d

theorem Preserves.bind {x : Run σ α} {f : α → Run σ β} (hx : x.Preserves P)
    (hf : ∀ a, (f a).Preserves P) : (x >>= f).Preserves P := by
  intro s t h hs
  rcases ends_bind h with h | ⟨a, s₁, h₁, h₂⟩
  · exact hx h hs
  · exact hf a h₂ (hx (ends_of_ok h₁) hs)

theorem Preserves.map {x : Run σ α} (hx : x.Preserves P) (f : α → β) : (f <$> x).Preserves P := by
  rw [map_eq_pure_bind]
  exact hx.bind fun _ => preserves_pure _

/-- A check in front of a run that refuses some states changes nothing. -/
theorem Preserves.unless {c : Prop} [Decidable c] {cause : Cause} {span : Span}
    {f : PUnit → Run σ β} (hf : (f ⟨⟩).Preserves P) :
    (if c then reject cause span >>= f else f ⟨⟩).Preserves P := by
  split
  · exact (preserves_reject _ _).bind fun _ => hf
  · exact hf

/-- After a look at the state, only runs from that state count. -/
theorem preserves_get_bind {f : σ → Run σ β} (h : ∀ s t, (f s).Ends s t → P s → P t) :
    (get >>= f).Preserves P := fun s t ht hs => h s t ht hs

theorem Preserves.andFinally {x : Run σ α} (hx : x.Preserves P) {f : σ → σ}
    (hf : ∀ s, P s → P (f s)) : (x.andFinally f).Preserves P := by
  intro s t h hs
  obtain ⟨s₁, h₁, rfl⟩ := ends_andFinally h
  exact hf _ (hx h₁ hs)

theorem preserves_mapM {f : α → Run σ β} (hf : ∀ a, (f a).Preserves P) (l : List α) :
    (l.mapM f).Preserves P := by
  induction l with
  | nil => exact preserves_pure _
  | cons a l ih =>
    rw [List.mapM_cons]
    exact (hf a).bind fun _ => ih.bind fun _ => preserves_pure _

theorem preserves_forIn_mem {f : α → β → Run σ (ForInStep β)} {l : List α}
    (hf : ∀ a ∈ l, ∀ b, (f a b).Preserves P) (b : β) : (forIn l b f).Preserves P := by
  induction l generalizing b with
  | nil => exact preserves_pure _
  | cons a l ih =>
    rw [List.forIn_cons]
    refine (hf a List.mem_cons_self b).bind fun r => ?_
    cases r with
    | done b => exact preserves_pure _
    | yield b => exact ih (fun a ha => hf a (List.mem_cons_of_mem _ ha)) b

theorem preserves_forIn {f : α → β → Run σ (ForInStep β)} (hf : ∀ a b, (f a b).Preserves P)
    (l : List α) (b : β) : (forIn l b f).Preserves P :=
  preserves_forIn_mem (fun a _ => hf a) b

end Preserves

end Run

/-! ## Where runs lead -/

/-- Where runs may lead: from states that are ready, along to others that are. -/
structure Way (σ : Type) where
  ready : σ → Prop
  along : σ → σ → Prop
  refl : ∀ {s}, ready s → along s s
  trans : ∀ {s t u}, along s t → along t u → along s u
  arrives : ∀ {s t}, along s t → ready t

namespace Run

/-- A run that, if it succeeds, leads along and yields what it should. -/
def Yields {σ α : Type} (W : Way σ) (s : σ) (x : Run σ α) (Q : σ → α → Prop) : Prop :=
  W.ready s → ∀ ⦃a t⦄, x s = .ok a t → W.along s t ∧ Q t a

section Yields

variable {σ α β : Type} {W : Way σ} {s : σ} {Q : σ → α → Prop} {R : σ → β → Prop}

theorem yields_pure {a : α} (h : W.ready s → Q s a) : Yields W s (Pure.pure a : Run σ α) Q := by
  intro hs b t hrun
  cases hrun
  exact ⟨W.refl hs, h hs⟩

theorem yields_fail (diagnostic : Diagnostic) : Yields W s (fail diagnostic : Run σ α) Q := by
  intro hs b t hrun
  cases hrun

theorem yields_reject (cause : Cause) (span : Span) :
    Yields W s (reject cause span : Run σ α) Q := yields_fail _

theorem yields_ofExcept {x : Except Diagnostic α} (h : ∀ a, x = .ok a → Q s a) :
    Yields W s (ofExcept x : Run σ α) Q := by
  intro hs b t hrun
  obtain ⟨hx, rfl⟩ := ofExcept_eq_ok.mp hrun
  exact ⟨W.refl hs, h b hx⟩

theorem Yields.bind {x : Run σ α} {f : α → Run σ β} (hx : Yields W s x Q)
    (hf : ∀ a t, W.along s t → Q t a → Yields W t (f a) R) : Yields W s (x >>= f) R := by
  intro hs b u hrun
  obtain ⟨a, t, ha, hb⟩ := bind_eq_ok.mp hrun
  obtain ⟨hst, hresult⟩ := hx hs ha
  obtain ⟨htu, hlast⟩ := hf a t hst hresult (W.arrives hst) hb
  exact ⟨W.trans hst htu, hlast⟩

theorem Yields.mono {x : Run σ α} {Q' : σ → α → Prop} (hx : Yields W s x Q)
    (h : ∀ a t, W.along s t → Q t a → Q' t a) : Yields W s x Q' := fun hs _ _ hrun =>
  ⟨(hx hs hrun).1, h _ _ (hx hs hrun).1 (hx hs hrun).2⟩

theorem Yields.map {x : Run σ α} (hx : Yields W s x Q) {f : α → β}
    (hf : ∀ a t, W.along s t → Q t a → R t (f a)) : Yields W s (f <$> x) R := by
  rw [map_eq_pure_bind]
  exact hx.bind fun a t hst ha => yields_pure fun _ => hf a t hst ha

/-- Nothing is run behind a failure. -/
theorem yields_reject_bind {γ : Type} (cause : Cause) (span : Span) (f : γ → Run σ β) :
    Yields W s (reject cause span >>= f) R := by
  intro hs b t hrun
  cases hrun

theorem Yields.unless {p : Prop} [Decidable p] {cause : Cause} {span : Span} {f : PUnit → Run σ β}
    (hf : Yields W s (f ⟨⟩) R) :
    Yields W s (if p then reject cause span >>= f else f ⟨⟩) R := by
  split
  · exact yields_reject_bind _ _ f
  · exact hf

theorem yields_get_bind {f : σ → Run σ β} (h : Yields W s (f s) R) : Yields W s (get >>= f) R := h

/-- A step that leaves the state as it is. -/
theorem Yields.of_preserves {x : Run σ α} (h : x.Preserves (· = s))
    (hresult : ∀ a, x s = .ok a s → Q s a) : Yields W s x Q := by
  intro hs a t hrun
  obtain rfl : t = s := h (ends_of_ok hrun) rfl
  exact ⟨W.refl hs, hresult a hrun⟩

end Yields

end Run

end OwnLang
