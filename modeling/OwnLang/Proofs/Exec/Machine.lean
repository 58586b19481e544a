import Mathlib
import OwnLang.Ir.Basic

/-!
# What an execution does

A `Machine` is what a function runs on: the values that there are, the addresses of what the program
names, and what instructions compute of their operands. Memory and the functions that are called lie
outside of it. An execution sees them by its effects only, loads, stores and calls, and the machine's
`answer` to an effect may depend on all effects that came before it.

An `Action` is an execution of a part of a program. It ends with a value, or it is cut: its loops go
round no more often than a limit says.
-/

namespace OwnLang.Exec

/-- What instructions compute of their operands, without an effect. -/
inductive Operation where
  | binary (op : Ir.Opcode)
  | compare (how : Ir.Comparison)
  | convert (how : Ir.Conversion) (target : Ir.Ty)
  | addressOf (type : Ir.Ty)
  | extract (index : Nat)
  | insert (index : Nat)
  | select

/-- A value with its type. -/
structure Datum (V : Type) where
  type : Ir.Ty
  value : V

/-- What an execution does to the world around it. -/
inductive Effect (V : Type) where
  | load (type : Ir.Ty) (address : V)
  | store (content : Datum V) (address : V)
  | call (type : Ir.Ty) (callee : V) (args : List (Datum V))

/-- What a function runs on. -/
structure Machine (V : Type) where
  int : Int → V
  bool : Bool → V
  null : V
  /-- All bytes zero. -/
  zero : V
  /-- What stands for a value where there is none. -/
  absent : V
  /-- The address of a function or variable. -/
  symbol : String → V
  /-- The address of a constant text. -/
  text : String → V
  /-- The address of a slot of the function that runs. -/
  cell : Nat → V
  compute : Operation → List (Datum V) → V
  /-- Whether a condition of a value holds. -/
  truth : V → Bool
  /-- What the last of some effects results in. -/
  answer : List (Effect V) → V
  truth_bool : ∀ b, truth (bool b) = b

/-- What can be seen of a function that runs. The last effect stands in front. -/
inductive Observation (V : Type) where
  | returned (value : Option (Datum V)) (effects : List (Effect V))
  | running (effects : List (Effect V))
  /-- It cannot go on. -/
  | stuck (effects : List (Effect V))

/-- The effects that can be seen. -/
def Observation.effects {V : Type} : Observation V → List (Effect V)
  | .returned _ effects | .running effects | .stuck effects => effects

/-- How an execution of a part of a program ends. -/
inductive Progress (V α : Type) where
  | done (value : α) (effects : List (Effect V))
  | cut (effects : List (Effect V))

/-- An execution of a part of a program, behind the effects in front of it. -/
def Action (V α : Type) : Type := List (Effect V) → Progress V α

namespace Action

variable {V α β σ : Type}

instance : Monad (Action V) where
  pure a := fun effects => .done a effects
  bind x f := fun effects =>
    match x effects with
    | .done a effects => f a effects
    | .cut effects => .cut effects

instance : LawfulMonad (Action V) :=
  LawfulMonad.mk' (Action V)
    (fun x => by
      funext effects
      show (match x effects with | .done a effects => .done (id a) effects | .cut e => .cut e) = x effects
      cases x effects <;> rfl)
    (fun _ _ => rfl)
    (fun x f g => by
      funext effects
      show (match (match x effects with | .done a e => f a e | .cut e => .cut e) with
        | .done b e => g b e | .cut e => .cut e) =
        match x effects with
        | .done a e => (match f a e with | .done b e => g b e | .cut e => .cut e)
        | .cut e => .cut e
      cases x effects <;> rfl)

/-- The execution that goes no further. -/
def cut : Action V α := fun effects => .cut effects

/-- An effect, with what it results in. -/
def perform (m : Machine V) (effect : Effect V) : Action V V := fun effects =>
  .done (m.answer (effect :: effects)) (effect :: effects)

/-- A loop of at most `n` rounds. A round ends the loop with a value, or tells where the next one
starts. -/
def rounds (round : σ → Action V (σ ⊕ α)) : Nat → σ → Action V α
  | 0, _ => cut
  | n + 1, start => do
    match ← round start with
    | .inl next => rounds round n next
    | .inr a => return a

theorem pure_apply (a : α) (effects : List (Effect V)) :
    (pure a : Action V α) effects = .done a effects := rfl

theorem bind_apply (x : Action V α) (f : α → Action V β) (effects : List (Effect V)) :
    (x >>= f) effects = match x effects with
      | .done a effects => f a effects
      | .cut effects => .cut effects := rfl

theorem bind_eq_done {x : Action V α} {f : α → Action V β} {effects effects' : List (Effect V)}
    {b : β} (h : (x >>= f) effects = .done b effects') :
    ∃ a mid, x effects = .done a mid ∧ f a mid = .done b effects' := by
  rw [bind_apply] at h
  cases hx : x effects with
  | done a mid =>
    rw [hx] at h
    exact ⟨a, mid, rfl, h⟩
  | cut mid =>
    rw [hx] at h
    cases h

/-- What an execution ends with, if it is not cut, satisfies `P`. -/
def Yields (x : Action V α) (P : α → Prop) : Prop :=
  ∀ ⦃effects a effects'⦄, x effects = .done a effects' → P a

theorem Yields.pure {P : α → Prop} {a : α} (h : P a) : (Pure.pure a : Action V α).Yields P := by
  intro effects b effects' hb
  cases hb
  exact h

theorem Yields.bind {P : β → Prop} {x : Action V α} {f : α → Action V β}
    (h : ∀ a, (f a).Yields P) : (x >>= f).Yields P := by
  intro effects b effects' hb
  obtain ⟨a, mid, -, hf⟩ := bind_eq_done hb
  exact h a hf

end Action

end OwnLang.Exec
