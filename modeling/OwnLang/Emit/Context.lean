import OwnLang.Check.Layout
import OwnLang.Ir.Builder
import OwnLang.Outcome

/-!
# The state of emission

An `Emitter` builds the module of a checked program, one function after another. Every local of the
function that is being emitted has a slot, and every loop that was entered the labels that `break`
and `continue` jump to. An `Emit` is a run over an emitter.
-/

namespace OwnLang

/-- The labels of a loop. -/
structure LoopLabels where
  continueTo : Ir.Label
  breakTo : Ir.Label

/-- The state of emission. -/
structure Emitter where
  /-- The checked program. -/
  context : Context
  builder : Ir.Builder := {}
  /-- The addresses of the function's locals, with their types. -/
  slots : Array (Ir.Operand × Ty) := #[]
  loops : List (LoopId × LoopLabels) := []

/-- Runs over an emitter. -/
abbrev Emit (α : Type) : Type := Run Emitter α

namespace Emit

open Ir (Operand)

/-- A step of building the module. -/
def build {α : Type} (step : Ir.Build α) : Emit α := fun s =>
  let builder := s.builder
  let rest := { s with builder := {} }
  match step builder with
  | (a, b) => .ok a { rest with builder := b }

/-- The checked program. -/
def context : Emit Context := return (← get).context

/-- Whether no block is open. -/
def isTerminated : Emit Bool := return (← get).builder.isTerminated

/-- The address of a local, with its type. -/
def slot (id : LocalId) : Emit (Operand × Ty) := do
  match (← get).slots[id.index]? with
  | some found => return found
  | none => Run.reject .expectedVariable .null

/-- The labels of a loop that was entered. -/
def loopLabels (id : LoopId) : Emit LoopLabels := do
  match (← get).loops.lookup id with
  | some labels => return labels
  | none => Run.reject (.notInLoop "break") .null

/-- Takes note of the labels of a loop. -/
def enterLoop (id : LoopId) (labels : LoopLabels) : Emit Unit :=
  modify fun s => { s with loops := (id, labels) :: s.loops }

end Emit

end OwnLang
