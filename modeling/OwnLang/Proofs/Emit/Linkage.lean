import Mathlib
import OwnLang.Proofs.Check.WellTyped
import OwnLang.Proofs.Check.Declared
import OwnLang.Proofs.Emit.Function

/-!
# What emitted code refers to

A `Linkage` is a checked program together with names that are introduced for it: those of its structs, of the
functions and variables that its module supplies, and of the runtime. Every part of emission, given trees that
are typed and whose structs are declared, refers to nothing else (`Emit.Linking`).
-/

/-!
## The names of a module

What a module refers to (`Module.names`), wherever it stands in the module: functions and variables by their
symbols, string constants by their numbers, and struct types by their symbols. A text that is written out by
hand may refer to anything, so it counts as a name itself, one that no module introduces
(`Module.introduced`).
-/

namespace OwnLang.Ir

/-- What a part of a module refers to outside of its function. -/
inductive Name where
  /-- A function or variable. -/
  | symbol (name : String)
  /-- A string constant. -/
  | string (number : Nat)
  /-- A struct type. -/
  | struct (symbol : String)
  /-- Whatever a text that is written out by hand refers to. -/
  | verbatim (text : String)
deriving DecidableEq

mutual

/-- What a type refers to. -/
def Ty.names : Ty → List Name
  | .int _ | .ptr | .void => []
  | .array _ element => element.names
  | .struct symbol => [.struct symbol]
  | .func returns params _ => returns.names ++ Ty.namesOf params
  | .verbatim text => [.verbatim text]

/-- What types refer to. -/
def Ty.namesOf : List Ty → List Name
  | [] => []
  | t :: rest => t.names ++ Ty.namesOf rest

end

/-- What is referred to where a value stands. -/
def Ref.names : Ref → List Name
  | .symbol name => [.symbol name]
  | .string number => [.string number]
  | .verbatim text => [.verbatim text]
  | .temp _ | .param _ | .int _ | .bool _ | .null | .zero | .undef | .nothing => []

/-- What an operand refers to. -/
def Operand.names (v : Operand) : List Name := v.type.names ++ v.ref.names

/-- Blocks belong to their function. -/
def Label.names : Label → List Name
  | .entry | .numbered _ => []
  | .verbatim text => [.verbatim text]

/-- What an instruction refers to. -/
def Instr.names : Instr → List Name
  | .binary _ left right | .compare _ left right => left.names ++ right.names
  | .convert _ value target => value.names ++ target.names
  | .load type address => type.names ++ address.names
  | .store value address => value.names ++ address.names
  | .addressOf type base indices => type.names ++ base.names ++ indices.flatMap Operand.names
  | .extract aggregate _ => aggregate.names
  | .insert aggregate value _ => aggregate.names ++ value.names
  | .select test yes no => test.names ++ yes.names ++ no.names
  | .phi type incoming =>
    type.names ++ incoming.flatMap fun (value, label) => value.names ++ label.names
  | .call type callee args => type.names ++ callee.names ++ args.flatMap Operand.names
  | .verbatim text => [.verbatim text]

/-- What a terminator refers to. -/
def Terminator.names : Terminator → List Name
  | .br target => target.names
  | .condBr test yes no => test.names ++ yes.names ++ no.names
  | .ret value => value.elim [] Operand.names
  | .unreachable => []
  | .verbatim text => [.verbatim text]

/-- What a line refers to. -/
def Line.names : Line → List Name
  | .label name => name.names
  | .result _ instr | .effect instr => instr.names
  | .leave terminator => terminator.names

/-- What a function refers to. -/
def Function.names (f : Function) : List Name :=
  f.returns.names ++ f.params.flatMap Ty.names ++ f.slots.toList.flatMap (·.2.names) ++
    f.body.toList.flatMap Line.names

/-- What a declared function refers to. -/
def Declaration.names (d : Declaration) : List Name := d.returns.names ++ d.params.flatMap Ty.names

/-- What the value of a variable refers to. -/
def Global.names : Global → List Name
  | .named _ _ value => value.names
  | .string .. => []

/-- What the fields of a struct type refer to. -/
def StructType.names (d : StructType) : List Name := d.fields.flatMap Ty.names

/-- What a module refers to anywhere. -/
def Module.names (m : Module) : List Name :=
  m.structs.toList.flatMap StructType.names ++ m.globals.toList.flatMap Global.names ++
    m.declarations.toList.flatMap Declaration.names ++ m.definitions.toList.flatMap Function.names

/-- What a variable or constant introduces. -/
def Global.name : Global → Name
  | .named name _ _ => .symbol name
  | .string number _ => .string number

/-- What a module introduces. -/
def Module.introduced (m : Module) : List Name :=
  m.structs.toList.map (.struct ·.symbol) ++ m.globals.toList.map Global.name ++
    m.declarations.toList.map (.symbol ·.name) ++ m.definitions.toList.map (.symbol ·.name)

/-- A module introduces what it refers to. -/
def Module.Closed (m : Module) : Prop := ∀ name ∈ m.names, name ∈ m.introduced

instance (m : Module) : Decidable m.Closed := by
  unfold Module.Closed
  infer_instance

theorem Ty.namesOf_eq_flatMap (types : List Ty) : Ty.namesOf types = types.flatMap Ty.names := by
  induction types with
  | nil => rfl
  | cons t rest ih => rw [Ty.namesOf, ih, List.flatMap_cons]

/-- What the function that is open refers to so far. -/
def OpenFunction.names (f : OpenFunction) : List Name :=
  f.returns.names ++ f.params.flatMap Ty.names ++ f.slots.toList.flatMap (·.2.names) ++
    f.body.toList.flatMap Line.names ++ f.block.names

variable {P : Name → Prop}

/-- The definition of a function refers to nothing more. -/
theorem OpenFunction.forall_definition {f : OpenFunction} (h : ∀ name ∈ f.names, P name) :
    ∀ name ∈ f.definition.names, P name := by
  simp only [names, List.forall_mem_append] at h
  obtain ⟨⟨⟨⟨hreturns, hparams⟩, hslots⟩, hbody⟩, -⟩ := h
  simp only [Function.names, definition, List.forall_mem_append]
  refine ⟨⟨⟨hreturns, hparams⟩, hslots⟩, ?_⟩
  unfold code
  split
  · exact hbody
  · rw [Array.toList_push, List.flatMap_append, List.forall_mem_append]
    exact ⟨hbody, List.forall_mem_nil _⟩

end OwnLang.Ir

/-! ## What a program supplies -/

namespace OwnLang

open Ir (Operand OpenFunction Build)

/-- A function or variable has the type that it is declared with. -/
def Global.Provided (g : Global) : Prop :=
  ∃ t, g.type = some t ∧ (g.isFunction → ∃ params variadic returns, t.shape = .func params variadic returns)

theorem Context.functionType?_eq_some {c : Context} {id : GlobalId} {params : List Ty} {variadic : Bool} {returns : Ty}
    (h : c.functionType? id = some (params, variadic, returns)) :
    ∃ name, (c.global id).type = some (.mk (.func params variadic returns) name) := by
  unfold functionType? at h
  split at h
  · rename_i _ _ _ name hfunc
    cases h
    exact ⟨name, hfunc⟩
  · cases h

/-- The module of a program supplies a function or variable. -/
def Context.Supplies (c : Context) (id : GlobalId) : Prop := (c.global id).hasBody ∨ (c.global id).Provided

/-- The type of a struct that is declared. -/
def Context.IsStruct (c : Context) (name : Ir.Name) : Prop :=
  ∃ id : StructId, id.index < c.structs.size ∧ name = .struct (c.struct id).symbol

theorem Context.names_irType {c : Context} : ∀ {t : Ty}, c.Knows t → ∀ name ∈ (c.irType t).names, c.IsStruct name
  | .mk (.int _) _, _, _, hname | .mk .bool _, _, _, hname | .mk .void _, _, _, hname
  | .mk (.func ..) _, _, _, hname | .mk (.owner ..) _, _, _, hname | .mk (.shared ..) _, _, _, hname
  | .mk (.array _ _ none) _, _, _, hname => absurd hname List.not_mem_nil
  | .mk (.array element _ (some _)) _, h, name, hname => names_irType (t := element) h name hname
  | .mk (.struct id _) _, h, _, hname => ⟨id, h id List.mem_cons_self, List.mem_singleton.mp hname⟩

/-- A program, with names that its module introduces. -/
structure Linkage where
  context : Context
  introduces : Ir.Name → Prop
  closed : context.Closed
  signatures : ∀ id, (context.global id).Sound
  structs : ∀ id : StructId, id.index < context.structs.size →
    introduces (.struct (context.struct id).symbol)
  globals : ∀ id, context.Supplies id → introduces (.symbol (context.global id).symbol)
  malloc : introduces (.symbol "malloc")
  free : introduces (.symbol "free")
  printf : introduces (.symbol "printf")

/-- What a typed tree names is supplied. -/
theorem Linkage.supplies {L : Linkage} {id : GlobalId} {t : Ty} (h : L.context.typeOf? id = some t) :
    L.context.Supplies id := by
  obtain ⟨hstate, htype⟩ := Context.typeOf?_eq_some.mp h
  refine .inr ⟨t, htype, fun hfunction => ?_⟩
  cases hkind : (L.context.global id).kind with
  | function decl owner =>
    obtain ⟨_, _, variadic, returns, hshape, -⟩ := L.signatures id decl owner t hkind hstate htype
    exact ⟨_, variadic, returns, hshape⟩
  | storage decl =>
    rw [Global.isFunction, Global.fnDecl?, hkind] at hfunction
    cases hfunction

/-- Data of emission that may refer to names. -/
class Refers (α : Type) where
  within : Linkage → α → Prop

/-- Data refers to introduced names only. -/
def Linkage.Allows {α : Type} [Refers α] (L : Linkage) (a : α) : Prop := Refers.within L a

/-- The state of emission inside of a function refers to introduced names only. -/
structure Emitter.Linked (L : Linkage) (s : Emitter) : Prop where
  context : s.context = L.context
  slots : ∀ p ∈ s.slots, (∀ name ∈ p.1.names, L.introduces name) ∧ L.context.Knows p.2
  loops : ∀ p ∈ s.loops, (∀ name ∈ p.2.continueTo.names, L.introduces name) ∧
    ∀ name ∈ p.2.breakTo.names, L.introduces name
  function : ∃ f, s.builder.function = some f ∧ ∀ name ∈ f.names, L.introduces name

instance : Refers Ir.Ty := ⟨fun L t => ∀ name ∈ t.names, L.introduces name⟩
instance : Refers Ir.Ref := ⟨fun L r => ∀ name ∈ r.names, L.introduces name⟩
instance : Refers Operand := ⟨fun L v => ∀ name ∈ v.names, L.introduces name⟩
instance : Refers Ir.Label := ⟨fun L l => ∀ name ∈ l.names, L.introduces name⟩
instance : Refers Ir.Instr := ⟨fun L i => ∀ name ∈ i.names, L.introduces name⟩
instance : Refers Ir.Terminator := ⟨fun L t => ∀ name ∈ t.names, L.introduces name⟩
instance : Refers Ir.Line := ⟨fun L l => ∀ name ∈ l.names, L.introduces name⟩
instance : Refers OpenFunction := ⟨fun L f => ∀ name ∈ f.names, L.introduces name⟩
instance : Refers Ty := ⟨fun L t => L.context.Knows t⟩
instance : Refers Context := ⟨fun L c => c = L.context⟩
instance : Refers Emitter := ⟨fun L s => s.Linked L⟩
instance : Refers Unit := ⟨fun _ _ => True⟩
instance : Refers Bool := ⟨fun _ _ => True⟩
instance : Refers Nat := ⟨fun _ _ => True⟩
instance : Refers String := ⟨fun _ _ => True⟩
instance : Refers (ForInStep PUnit) := ⟨fun _ _ => True⟩
instance {α : Type} [Refers α] : Refers (List α) := ⟨fun L l => ∀ a ∈ l, L.Allows a⟩
instance {α : Type} [Refers α] : Refers (Option α) := ⟨fun L o => ∀ a ∈ o, L.Allows a⟩
instance {α β : Type} [Refers α] [Refers β] : Refers (α × β) := ⟨fun L p => L.Allows p.1 ∧ L.Allows p.2⟩
instance : Refers LoopLabels := ⟨fun L l => L.Allows l.continueTo ∧ L.Allows l.breakTo⟩
instance : Refers Rendering := ⟨fun L r => L.Allows r.args⟩

namespace Linkage

variable {L : Linkage}

theorem allows_flatMap {α : Type} [Refers α] {l : List α} {names : α → List Ir.Name}
    (h : ∀ a, L.Allows a ↔ ∀ name ∈ names a, L.introduces name) :
    (∀ name ∈ l.flatMap names, L.introduces name) ↔ L.Allows l := by
  rw [List.forall_mem_flatMap]
  exact forall₂_congr fun a _ => (h a).symm

@[simp] theorem allows_nil {α : Type} [Refers α] : L.Allows ([] : List α) := List.forall_mem_nil _

@[simp] theorem allows_cons {α : Type} [Refers α] {a : α} {l : List α} :
    L.Allows (a :: l) ↔ L.Allows a ∧ L.Allows l := List.forall_mem_cons

@[simp] theorem allows_append {α : Type} [Refers α] {l l' : List α} :
    L.Allows (l ++ l') ↔ L.Allows l ∧ L.Allows l' := List.forall_mem_append

@[simp] theorem allows_none {α : Type} [Refers α] : L.Allows (none : Option α) := by rintro _ ⟨⟩

@[simp] theorem allows_some {α : Type} [Refers α] {a : α} : L.Allows (some a) ↔ L.Allows a := by
  show (∀ b ∈ some a, L.Allows b) ↔ _
  simp

@[simp] theorem allows_pair {α β : Type} [Refers α] [Refers β] {a : α} {b : β} :
    L.Allows (a, b) ↔ L.Allows a ∧ L.Allows b := Iff.rfl

@[simp] theorem allows_unit {u : Unit} : L.Allows u := trivial

/-! ## Types and operands -/

@[simp] theorem allows_int {bits : Nat} : L.Allows (Ir.Ty.int bits) := List.forall_mem_nil _

@[simp] theorem allows_ptr : L.Allows Ir.Ty.ptr := List.forall_mem_nil _

@[simp] theorem allows_void : L.Allows Ir.Ty.void := List.forall_mem_nil _

@[simp] theorem allows_array {size : Nat} {element : Ir.Ty} :
    L.Allows (Ir.Ty.array size element) ↔ L.Allows element := Iff.rfl

@[simp] theorem allows_struct {symbol : String} :
    L.Allows (Ir.Ty.struct symbol) ↔ L.introduces (.struct symbol) := List.forall_mem_singleton

@[simp] theorem allows_func {returns : Ir.Ty} {params : List Ir.Ty} {variadic : Bool} :
    L.Allows (Ir.Ty.func returns params variadic) ↔ L.Allows returns ∧ L.Allows params := by
  show (∀ name ∈ returns.names ++ Ir.Ty.namesOf params, L.introduces name) ↔ _
  rw [List.forall_mem_append, Ir.Ty.namesOf_eq_flatMap, allows_flatMap fun _ => Iff.rfl]
  rfl

@[simp] theorem allows_operand {type : Ir.Ty} {ref : Ir.Ref} :
    L.Allows (⟨type, ref⟩ : Operand) ↔ L.Allows type ∧ L.Allows ref := List.forall_mem_append

theorem allows_type {v : Operand} (h : L.Allows v) : L.Allows v.type := (allows_operand.mp h).1

theorem allows_ref {v : Operand} (h : L.Allows v) : L.Allows v.ref := (allows_operand.mp h).2

@[simp] theorem allows_symbol {name : String} :
    L.Allows (Ir.Ref.symbol name) ↔ L.introduces (.symbol name) := List.forall_mem_singleton

@[simp] theorem allows_string {number : Nat} :
    L.Allows (Ir.Ref.string number) ↔ L.introduces (.string number) := List.forall_mem_singleton

@[simp] theorem allows_temp {number : Nat} : L.Allows (Ir.Ref.temp number) := List.forall_mem_nil _

@[simp] theorem allows_param {index : Nat} : L.Allows (Ir.Ref.param index) := List.forall_mem_nil _

@[simp] theorem allows_intRef {value : Int} : L.Allows (Ir.Ref.int value) := List.forall_mem_nil _

@[simp] theorem allows_boolRef {value : Bool} : L.Allows (Ir.Ref.bool value) := List.forall_mem_nil _

@[simp] theorem allows_null : L.Allows Ir.Ref.null := List.forall_mem_nil _

@[simp] theorem allows_zero : L.Allows Ir.Ref.zero := List.forall_mem_nil _

@[simp] theorem allows_nothing : L.Allows Ir.Ref.nothing := List.forall_mem_nil _

@[simp] theorem allows_operandVoid : L.Allows Operand.void := allows_operand.mpr ⟨allows_void, allows_nothing⟩

@[simp] theorem allows_numbered {number : Nat} : L.Allows (Ir.Label.numbered number) :=
  List.forall_mem_nil _

/-! ## Instructions -/

@[simp] theorem allows_binary {op : Ir.Opcode} {left : Operand} {right : Ir.Ref} :
    L.Allows (Ir.Instr.binary op left right) ↔ L.Allows left ∧ L.Allows right := List.forall_mem_append

@[simp] theorem allows_compare {how : Ir.Comparison} {left : Operand} {right : Ir.Ref} :
    L.Allows (Ir.Instr.compare how left right) ↔ L.Allows left ∧ L.Allows right := List.forall_mem_append

@[simp] theorem allows_convert {how : Ir.Conversion} {value : Operand} {target : Ir.Ty} :
    L.Allows (Ir.Instr.convert how value target) ↔ L.Allows value ∧ L.Allows target :=
  List.forall_mem_append

@[simp] theorem allows_load {type : Ir.Ty} {address : Operand} :
    L.Allows (Ir.Instr.load type address) ↔ L.Allows type ∧ L.Allows address := List.forall_mem_append

@[simp] theorem allows_store {value address : Operand} :
    L.Allows (Ir.Instr.store value address) ↔ L.Allows value ∧ L.Allows address := List.forall_mem_append

@[simp] theorem allows_addressOf {type : Ir.Ty} {base : Operand} {indices : List Operand} :
    L.Allows (Ir.Instr.addressOf type base indices) ↔
      (L.Allows type ∧ L.Allows base) ∧ L.Allows indices := by
  rw [← allows_flatMap (α := Operand) (fun _ => Iff.rfl)]
  exact List.forall_mem_append.trans (and_congr_left fun _ => List.forall_mem_append)

@[simp] theorem allows_extract {aggregate : Operand} {index : Nat} :
    L.Allows (Ir.Instr.extract aggregate index) ↔ L.Allows aggregate := Iff.rfl

@[simp] theorem allows_insert {aggregate value : Operand} {index : Nat} :
    L.Allows (Ir.Instr.insert aggregate value index) ↔ L.Allows aggregate ∧ L.Allows value :=
  List.forall_mem_append

@[simp] theorem allows_select {test yes no : Operand} :
    L.Allows (Ir.Instr.select test yes no) ↔ (L.Allows test ∧ L.Allows yes) ∧ L.Allows no :=
  List.forall_mem_append.trans (and_congr_left fun _ => List.forall_mem_append)

@[simp] theorem allows_phi {type : Ir.Ty} {incoming : List (Ir.Ref × Ir.Label)} :
    L.Allows (Ir.Instr.phi type incoming) ↔ L.Allows type ∧ L.Allows incoming := by
  have hincoming : (∀ name ∈ incoming.flatMap fun x => x.1.names ++ x.2.names, L.introduces name) ↔
      L.Allows incoming := allows_flatMap fun _ => List.forall_mem_append.symm
  rw [← hincoming]
  exact List.forall_mem_append

@[simp] theorem allows_call {type : Ir.Ty} {callee : Ir.Ref} {args : List Operand} :
    L.Allows (Ir.Instr.call type callee args) ↔ (L.Allows type ∧ L.Allows callee) ∧ L.Allows args := by
  rw [← allows_flatMap (α := Operand) (fun _ => Iff.rfl)]
  exact List.forall_mem_append.trans (and_congr_left fun _ => List.forall_mem_append)

@[simp] theorem allows_br {target : Ir.Label} : L.Allows (Ir.Terminator.br target) ↔ L.Allows target :=
  Iff.rfl

@[simp] theorem allows_condBr {test : Operand} {yes no : Ir.Label} :
    L.Allows (Ir.Terminator.condBr test yes no) ↔ (L.Allows test ∧ L.Allows yes) ∧ L.Allows no :=
  List.forall_mem_append.trans (and_congr_left fun _ => List.forall_mem_append)

@[simp] theorem allows_ret {value : Option Operand} :
    L.Allows (Ir.Terminator.ret value) ↔ L.Allows value := by
  cases value with
  | none => exact iff_of_true (List.forall_mem_nil _) (allows_none (α := Operand))
  | some v => exact (allows_some (a := v)).symm

@[simp] theorem allows_result {temp : Nat} {instr : Ir.Instr} :
    L.Allows (Ir.Line.result temp instr) ↔ L.Allows instr := Iff.rfl

@[simp] theorem allows_effect {instr : Ir.Instr} : L.Allows (Ir.Line.effect instr) ↔ L.Allows instr :=
  Iff.rfl

@[simp] theorem allows_leave {terminator : Ir.Terminator} :
    L.Allows (Ir.Line.leave terminator) ↔ L.Allows terminator := Iff.rfl

@[simp] theorem allows_label {label : Ir.Label} : L.Allows (Ir.Line.label label) ↔ L.Allows label := Iff.rfl

/-! ## The open function -/

theorem allows_function {f : OpenFunction} : L.Allows f ↔
    (((L.Allows f.returns ∧ L.Allows f.params) ∧ ∀ slot ∈ f.slots.toList, L.Allows slot.2) ∧
      L.Allows f.body.toList) ∧ L.Allows f.block := by
  show (∀ name ∈ f.names, L.introduces name) ↔ _
  unfold OpenFunction.names
  simp only [List.forall_mem_append, List.forall_mem_flatMap]
  rfl

theorem allows_push {f : OpenFunction} (hf : L.Allows f) {line : Ir.Line} (hline : L.Allows line) :
    L.Allows { f with body := f.body.push line } := by
  rw [allows_function] at hf ⊢
  exact ⟨⟨hf.1.1, by simpa using ⟨hf.1.2, hline⟩⟩, hf.2⟩

theorem allows_startBlock {f : OpenFunction} (hf : L.Allows f) {label : Ir.Label}
    (hlabel : L.Allows label) :
    L.Allows { f with body := f.body.push (.label label), block := label, terminated := false } := by
  rw [allows_function] at hf ⊢
  exact ⟨⟨hf.1.1, by simpa using ⟨hf.1.2, hlabel⟩⟩, hlabel⟩

theorem allows_addSlot {f : OpenFunction} (hf : L.Allows f) {type : Ir.Ty} (htype : L.Allows type) (k : Nat) :
    L.Allows { f with temps := k, slots := f.slots.push (k, type) } := by
  rw [allows_function] at hf ⊢
  obtain ⟨⟨⟨hhead, hslots⟩, hbody⟩, hblock⟩ := hf
  refine ⟨⟨⟨hhead, fun slot hslot => ?_⟩, hbody⟩, hblock⟩
  rw [Array.toList_push, List.mem_append, List.mem_singleton] at hslot
  rcases hslot with hslot | rfl
  · exact hslots slot hslot
  · exact htype

theorem allows_opened {f : OpenFunction} (hf : L.Allows f) (number : Nat) :
    L.Allows (f.opened number) := by
  unfold OpenFunction.opened
  split
  · exact allows_startBlock hf allows_numbered
  · exact hf

/-- The types of a program whose structs are declared. -/
theorem allows_irType {t : Ty} (h : L.context.Knows t) : L.Allows (L.context.irType t) := by
  intro name hname
  obtain ⟨id, hid, rfl⟩ := Context.names_irType h name hname
  exact L.structs id hid

theorem allows_irTypes {types : List Ty} (h : L.context.Knows types) :
    L.Allows (types.map L.context.irType) := by
  intro t ht
  obtain ⟨t, hin, rfl⟩ := List.mem_map.mp ht
  exact allows_irType (Context.knows_list.mp h t hin)

theorem allows_zeroOf {t : Ty} (h : L.context.Knows t) : L.Allows (L.context.zeroOf t) := by
  refine allows_operand.mpr ⟨allows_irType h, ?_⟩
  split <;> simp

theorem allows_structType {id : StructId} (h : id.index < L.context.structs.size) :
    L.Allows (Ir.Ty.struct (L.context.struct id).symbol) := allows_struct.mpr (L.structs id h)

end Linkage

end OwnLang
