import OwnLang.Diagnostic.Basic

/-!
# Runs over a state

Reading, checking and emission are runs over a state: a run succeeds with a value, fails with a
diagnostic, or stops. A failed run keeps the state that it had reached, so that a reader can tell
where the cursor stood and a session can go on with the entities that were declared before the
failure.
-/

namespace OwnLang

/-- Why a run stops without an answer. -/
inductive Stop where
  /-- The nesting bound of the run was used up. -/
  | depth
  /-- A byte size did not fit 64 bits. -/
  | size
deriving DecidableEq, Inhabited

/-- The result of a run over states `σ`. -/
inductive Outcome (σ α : Type) where
  | ok (value : α) (state : σ)
  | error (diagnostic : Diagnostic) (state : σ)
  | stopped (why : Stop)

/-- Why a run has no value. -/
inductive Failure where
  | refused (diagnostic : Diagnostic)
  | stopped (why : Stop)

/-- The value of a run, or why it has none. -/
def Outcome.result {σ α : Type} : Outcome σ α → Except Failure α
  | .ok value _ => .ok value
  | .error d _ => .error (.refused d)
  | .stopped why => .error (.stopped why)

/-- The state that a run ends in, or why it has no value. -/
def Outcome.finalState {σ α : Type} : Outcome σ α → Except Failure σ
  | .ok _ state => .ok state
  | .error d _ => .error (.refused d)
  | .stopped why => .error (.stopped why)

/-- Computations over a state `σ` that may fail or stop. -/
def Run (σ α : Type) : Type := σ → Outcome σ α

namespace Run

variable {σ α β : Type}

/-- The run that changes nothing. -/
@[inline] def pure (a : α) : Run σ α := fun s => .ok a s

/-- One run after another. -/
@[inline] def bind (x : Run σ α) (f : α → Run σ β) : Run σ β := fun s =>
  match x s with
  | .ok a t => f a t
  | .error d t => .error d t
  | .stopped why => .stopped why

instance : Monad (Run σ) where
  pure := pure
  bind := bind

instance : LawfulMonad (Run σ) :=
  LawfulMonad.mk' (Run σ)
    (fun x => by
      funext s
      show (match x s with
        | .ok a t => Outcome.ok (id a) t | .error d t => .error d t | .stopped w => .stopped w) = x s
      cases x s <;> rfl)
    (fun _ _ => rfl)
    (fun x f g => by
      funext s
      show bind (bind x f) g s = bind x (fun a => bind (f a) g) s
      unfold bind
      cases x s <;> rfl)

instance : MonadStateOf σ (Run σ) where
  get := fun s => .ok s s
  set := fun t _ => .ok () t
  modifyGet := fun f s => let (a, t) := f s; .ok a t

/-- The run that fails. -/
@[inline] def fail (d : Diagnostic) : Run σ α := fun s => .error d s

/-- The run that stops. -/
@[inline] def stop (why : Stop) : Run σ α := fun _ => .stopped why

/-- Fails with a cause at a place. -/
@[inline] def reject (cause : Cause) (span : Span) : Run σ α := fail { cause, span }

/-- A run that leaves the state alone. -/
@[inline] def ofExcept (x : Except Diagnostic α) : Run σ α := fun s =>
  match x with
  | .ok a => .ok a s
  | .error d => .error d s

/-- Both ends of a run become values; the state is the one that the run reached. -/
@[inline] def attempt (x : Run σ α) : Run σ (Except Diagnostic α) := fun s =>
  match x s with
  | .ok a t => .ok (.ok a) t
  | .error d t => .ok (.error d) t
  | .stopped why => .stopped why

/-- Runs `x` and then changes the state, whether `x` succeeded or failed. -/
@[inline] def andFinally (x : Run σ α) (change : σ → σ) : Run σ α := fun s =>
  match x s with
  | .ok a t => .ok a (change t)
  | .error d t => .error d (change t)
  | .stopped why => .stopped why

end Run

end OwnLang
