import OwnLang.Proofs.Exec.Machine
import OwnLang.Proofs.Emit.Build

/-!
# Executing functions

A defined function runs as the control-flow graph that it is: control is at a line of its body, or
has jumped to a label that it looks up next. It cannot go on where it runs into a label without a
jump, where it comes to an `unreachable`, and where a block is entered from one that a `phi` does
not know.
-/

namespace OwnLang.Exec

open Ir (Label Line Instr Terminator Operand Ref)

/-- Where control is. -/
inductive Control where
  | line (index : Nat)
  /-- It has jumped to a label. -/
  | enter (label : Label)

/-- A point of an execution of a function. -/
structure Point (V : Type) where
  control : Control
  /-- The block that control is in, or comes from if it has jumped. -/
  block : Label
  /-- The block that control has come from. -/
  previous : Label
  temps : Nat → V
  effects : List (Effect V)

/-- What happens at a point. -/
inductive Next (V : Type) where
  | go (p : Point V)
  | returned (value : Option (Datum V))
  | stuck

/-- A function's code with what it refers to: the texts of constants, the machine, and the values of
its parameters. -/
structure Code (V : Type) where
  lines : Array Line
  texts : Nat → Option String
  machine : Machine V
  args : Nat → V

namespace Code

variable {V : Type} (code : Code V)

/-- The value of an operand that is no temporary. -/
def fixed : Ref → V
  | .param i => code.args i
  | .symbol name => code.machine.symbol name
  | .string n => code.machine.text ((code.texts n).getD "")
  | .int n => code.machine.int n
  | .bool b => code.machine.bool b
  | .null => code.machine.null
  | .zero => code.machine.zero
  | .temp _ | .undef | .nothing | .verbatim _ => code.machine.absent

/-- The value of an operand. -/
def value (temps : Nat → V) : Ref → V
  | .temp n => temps n
  | ref => code.fixed ref

/-- The value of an operand, with its type. -/
def datum (temps : Nat → V) (operand : Operand) : Datum V :=
  ⟨operand.type, code.value temps operand.ref⟩

/-- An instruction without an effect. The right operand has the type of the left one. -/
def operation (temps : Nat → V) : Instr → Option (Operation × List (Datum V))
  | .binary op left right =>
    some (.binary op, [code.datum temps left, code.datum temps ⟨left.type, right⟩])
  | .compare how left right =>
    some (.compare how, [code.datum temps left, code.datum temps ⟨left.type, right⟩])
  | .convert how value target => some (.convert how target, [code.datum temps value])
  | .addressOf type base indices =>
    some (.addressOf type, code.datum temps base :: indices.map (code.datum temps))
  | .extract aggregate index => some (.extract index, [code.datum temps aggregate])
  | .insert aggregate value index =>
    some (.insert index, [code.datum temps aggregate, code.datum temps value])
  | .select test yes no =>
    some (.select, [code.datum temps test, code.datum temps yes, code.datum temps no])
  | _ => none

/-- The effect of an instruction. -/
def effect (temps : Nat → V) : Instr → Option (Effect V)
  | .load type address => some (.load type (code.value temps address.ref))
  | .store content address =>
    some (.store (code.datum temps content) (code.value temps address.ref))
  | .call type callee args => some (.call type (code.value temps callee) (args.map (code.datum temps)))
  | _ => none

/-- The value that a `phi` has in a block that was entered from `previous`. -/
def merge (temps : Nat → V) (previous : Label) (incoming : List (Ref × Label)) : Option V :=
  (incoming.find? (·.2 = previous)).map fun (ref, _) => code.value temps ref

/-- The result of an instruction at a point, and the effects behind it. -/
def instruction (p : Point V) (instr : Instr) : Option (V × List (Effect V)) :=
  match code.operation p.temps instr, code.effect p.temps instr, instr with
  | some (operation, operands), _, _ => some (code.machine.compute operation operands, p.effects)
  | none, some effect, _ => some (code.machine.answer (effect :: p.effects), effect :: p.effects)
  | none, none, .phi _ incoming =>
    (code.merge p.temps p.previous incoming).map fun value => (value, p.effects)
  | none, none, _ => none

/-- What a terminator does at a point. -/
def leave (p : Point V) : Terminator → Next V
  | .br target => .go { p with control := .enter target }
  | .condBr test yes no =>
    .go { p with
      control := .enter (if code.machine.truth (code.value p.temps test.ref) then yes else no) }
  | .ret value => .returned (value.map (code.datum p.temps))
  | .unreachable | .verbatim _ => .stuck

/-- What happens at a line. -/
def line (p : Point V) (index : Nat) : Line → Next V
  | .label _ => .stuck
  | .result temp instr =>
    match code.instruction p instr with
    | some (value, effects) =>
      .go { p with control := .line (index + 1), temps := Function.update p.temps temp value, effects }
    | none => .stuck
  | .effect instr =>
    match code.instruction p instr with
    | some (_, effects) => .go { p with control := .line (index + 1), effects }
    | none => .stuck
  | .leave terminator => code.leave p terminator

/-- The position of a label. -/
def find (label : Label) : Option Nat :=
  code.lines.findIdx? fun
    | .label name => name = label
    | _ => false

/-- What happens at a point. -/
def next (p : Point V) : Next V :=
  match p.control with
  | .line index =>
    match code.lines[index]? with
    | some line => code.line p index line
    | none => .stuck
  | .enter label =>
    match code.find label with
    | some index =>
      .go { p with control := .line (index + 1), block := label, previous := p.block }
    | none => .stuck

theorem instruction_operation {p : Point V} {instr : Instr} {operation : Operation}
    {operands : List (Datum V)} (h : code.operation p.temps instr = some (operation, operands)) :
    code.instruction p instr = some (code.machine.compute operation operands, p.effects) := by
  unfold instruction
  rw [h]

theorem instruction_effect {p : Point V} {instr : Instr} {effect : Effect V}
    (hnone : code.operation p.temps instr = none) (h : code.effect p.temps instr = some effect) :
    code.instruction p instr =
      some (code.machine.answer (effect :: p.effects), effect :: p.effects) := by
  unfold instruction
  rw [hnone, h]

/-- What can be seen after a number of steps. -/
def observe : Nat → Point V → Observation V
  | 0, p => .running p.effects
  | n + 1, p =>
    match code.next p with
    | .go q => observe n q
    | .returned value => .returned value p.effects
    | .stuck => .stuck p.effects

theorem instruction_effects {p : Point V} {instr : Instr} {value : V} {effects : List (Effect V)}
    (h : code.instruction p instr = some (value, effects)) : p.effects <:+ effects := by
  unfold instruction at h
  split at h
  · cases h
    exact List.suffix_refl _
  · cases h
    exact List.suffix_cons _ _
  · obtain ⟨merged, -, hpair⟩ := Option.map_eq_some_iff.mp h
    cases hpair
    exact List.suffix_refl _
  · cases h

/-- Effects are not taken back. -/
theorem next_effects {p q : Point V} (h : code.next p = .go q) : p.effects <:+ q.effects := by
  have hline {index : Nat} {l : Line} (h : code.line p index l = .go q) : p.effects <:+ q.effects := by
    cases l with
    | label name => cases h
    | result temp instr =>
      unfold line at h
      dsimp only at h
      split at h
      · rename_i value effects hinstr
        cases h
        exact code.instruction_effects hinstr
      · cases h
    | effect instr =>
      unfold line at h
      dsimp only at h
      split at h
      · rename_i value effects hinstr
        cases h
        exact code.instruction_effects hinstr
      · cases h
    | leave terminator => cases terminator <;> cases h <;> exact List.suffix_refl _
  unfold next at h
  split at h
  · split at h
    · exact hline h
    · cases h
  · split at h <;> cases h
    exact List.suffix_refl _

theorem effects_observe (n : Nat) (p : Point V) : p.effects <:+ (code.observe n p).effects := by
  induction n generalizing p with
  | zero => exact List.suffix_refl _
  | succ n ih =>
    rw [observe]
    cases hnext : code.next p with
    | go q => exact (code.next_effects hnext).trans (ih q)
    | returned value => exact List.suffix_refl _
    | stuck => exact List.suffix_refl _

/-- What is seen after more steps: the same, or more effects of a function that was running. -/
theorem observe_le {n m : Nat} (h : n ≤ m) (p : Point V) :
    code.observe m p = code.observe n p ∨
      ∃ effects, code.observe n p = .running effects ∧ effects <:+ (code.observe m p).effects := by
  induction n generalizing m p with
  | zero => exact .inr ⟨p.effects, rfl, code.effects_observe m p⟩
  | succ n ih =>
    obtain ⟨m, rfl⟩ : ∃ k, m = k + 1 := ⟨m - 1, by omega⟩
    rw [observe, observe]
    cases code.next p with
    | go q => exact ih (by omega) q
    | returned value => exact .inl rfl
    | stuck => exact .inl rfl

/-- One point leads to another in a number of steps. -/
inductive Reaches : Nat → Point V → Point V → Prop
  | refl (p : Point V) : Reaches 0 p p
  | step {n : Nat} {p q r : Point V} (h : code.next p = .go q) (hrest : Reaches n q r) :
      Reaches (n + 1) p r

variable {code} {p q r : Point V} {m n : Nat}

theorem Reaches.one (h : code.next p = .go q) : code.Reaches 1 p q := .step h (.refl q)

theorem Reaches.trans (h : code.Reaches m p q) (h' : code.Reaches n q r) :
    code.Reaches (m + n) p r := by
  induction h with
  | refl => rwa [Nat.zero_add]
  | step hstep _ ih =>
    rw [Nat.succ_add]
    exact .step hstep (ih h')

/-- What is seen from a point on is seen from where it leads to. -/
theorem Reaches.observe (h : code.Reaches m p q) (n : Nat) :
    code.observe (m + n) p = code.observe n q := by
  induction h with
  | refl => rw [Nat.zero_add]
  | step hstep _ ih =>
    rw [Nat.succ_add, Code.observe, hstep]
    exact ih

end Code

/-- The point at which a function begins: its slots are reserved, and it does not matter what its
other temporaries hold. -/
def entryPoint {V : Type} (m : Machine V) (slots : Array (Nat × Ir.Ty)) (temps : Nat → V) : Point V where
  control := .line 0
  block := .entry
  previous := .entry
  temps n := match slots.findIdx? (·.1 = n) with
    | some i => m.cell i
    | none => temps n
  effects := []

/-- What can be seen of a function of a module after a number of steps. -/
def observeFunction {V : Type} (module : Ir.Module) (f : Ir.Function) (m : Machine V) (args : Nat → V)
    (temps : Nat → V) (n : Nat) : Observation V :=
  Code.observe ⟨f.body, module.text?, m, args⟩ n (entryPoint m f.slots temps)

end OwnLang.Exec
