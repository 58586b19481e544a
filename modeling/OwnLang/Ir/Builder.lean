import OwnLang.Ir.Basic

/-!
# Building modules

A `Builder` holds the module so far and the function that is open. Instructions go to the end of the
open function's current block. What comes behind a terminator starts a block with a fresh label, so
that every block has one terminator, at its end. Slots are reserved in the entry block, whichever
block is the current one, and equal string constants are one constant.

While no function is open, instructions are dropped and their results are undefined.
-/

namespace OwnLang.Ir

/-- The function that is being built. -/
structure OpenFunction where
  name : String
  returns : Ty
  params : List Ty
  slots : Array (Nat × Ty) := #[]
  body : Array Line := #[]
  /-- The number of temporaries taken. -/
  temps : Nat := 0
  /-- The current block. -/
  block : Label := .entry
  /-- Whether the current block has its terminator. -/
  terminated : Bool := false

/-- A module that is being built. -/
structure Builder where
  module : Module := {}
  /-- The functions that the module declares or defines. -/
  functions : List String := []
  /-- The texts of the string constants, by number. -/
  strings : Array String := #[]
  /-- The number of labels taken. -/
  labels : Nat := 0
  function : Option OpenFunction := none
deriving Inhabited

namespace Builder

/-- Whether no block is open. -/
def isTerminated (b : Builder) : Bool := b.function.all (·.terminated)

/-- The current block. -/
def currentLabel (b : Builder) : Label :=
  match b.function with
  | some f => f.block
  | none => .verbatim ""

/-- Changes the open function. -/
def modifyFunction (b : Builder) (change : OpenFunction → OpenFunction) : Builder :=
  { b with function := b.function.map change }

/-- Adds a line to the open function. -/
def addLine (b : Builder) (line : Line) : Builder :=
  b.modifyFunction fun f => { f with body := f.body.push line }

/-- Starts a block. -/
def startBlock (b : Builder) (label : Label) : Builder :=
  b.modifyFunction fun f =>
    { f with body := f.body.push (.label label), block := label, terminated := false }

end Builder

/-- Steps of building a module. -/
abbrev Build (α : Type) : Type := StateM Builder α

namespace Build

/-- Defines a struct type. -/
def defineStruct (symbol : String) (fields : List Ty) : Build Unit :=
  modify fun b =>
    { b with module := { b.module with structs := b.module.structs.push ⟨symbol, fields⟩ } }

/-- Adds a variable or constant to the module. -/
def addGlobal (global : Global) : Build Unit :=
  modify fun b => { b with module := { b.module with globals := b.module.globals.push global } }

/-- Defines a variable or constant. -/
def defineGlobal (name : String) (constant : Bool) (value : Operand) : Build Unit :=
  addGlobal (.named name constant value)

/-- The string constant of a text. -/
def string (text : String) : Build Operand := do
  let b ← get
  match b.strings.findIdx? (· == text) with
  | some number => return ⟨.ptr, .string number⟩
  | none => do
    let number := b.strings.size
    set { b with strings := b.strings.push text }
    addGlobal (.string number text)
    return ⟨.ptr, .string number⟩

/-- Declares a function, unless the module has one of that name. -/
def declare (declaration : Declaration) : Build Unit :=
  modify fun b =>
    if b.functions.contains declaration.name then b
    else
      { b with
        functions := declaration.name :: b.functions
        module :=
          { b.module with declarations := b.module.declarations.push declaration } }

/-- Opens the definition of a function; the answer holds its parameters. -/
def beginFunction (name : String) (returns : Ty) (params : List Ty) : Build (List Operand) := do
  modify fun b =>
    { b with functions := name :: b.functions, function := some { name, returns, params } }
  return params.zipIdx.map fun (t, i) => ⟨t, .param i⟩

/-- A fresh label. -/
def newLabel : Build Label := do
  modify fun b => { b with labels := b.labels + 1 }
  return .numbered (← get).labels

/-- Adds a line to the current block, or to a new one behind a terminator. -/
def push (line : Line) : Build Unit := do
  if (← get).isTerminated then
    let label ← newLabel
    modify (·.startBlock label)
  modify (·.addLine line)

/-- Ends the current block. -/
def terminate (terminator : Terminator) : Build Unit := do
  push (.leave terminator)
  modify (·.modifyFunction fun f => { f with terminated := true })

/-- Jumps to a block. -/
def br (label : Label) : Build Unit := terminate (.br label)

/-- Jumps to one of two blocks. -/
def condBr (test : Operand) (yes no : Label) : Build Unit := terminate (.condBr test yes no)

/-- Leaves the function. -/
def ret (value : Option Operand) : Build Unit :=
  terminate (.ret (value.filter (!·.type.isVoid)))

/-- Starts a block; control goes on from the current one if that is still open. -/
def placeLabel (label : Label) : Build Unit := do
  if !(← get).isTerminated then
    br label
  modify (·.startBlock label)

/-- Closes the definition of a function. Control never reaches the end of a block that is open. -/
def endFunction : Build Unit := do
  if !(← get).isTerminated then
    terminate .unreachable
  modify fun b =>
    match b.function with
    | none => b
    | some f =>
      let definition : Function :=
        { name := f.name, returns := f.returns, params := f.params, slots := f.slots
          body := f.body }
      { b with
        function := none
        module := { b.module with definitions := b.module.definitions.push definition } }

/-- A fresh temporary of the open function. -/
def newTemp : Build (Option Nat) := do
  modify (·.modifyFunction fun f => { f with temps := f.temps + 1 })
  return (← get).function.map (·.temps)

/-- Adds an instruction without a result. -/
def effect (instr : Instr) : Build Unit := push (.effect instr)

/-- Adds an instruction with a result. -/
def result (type : Ty) (instr : Instr) : Build Operand := do
  match ← newTemp with
  | some number => do
    push (.result number instr)
    return ⟨type, .temp number⟩
  | none => do
    effect instr
    return ⟨type, .undef⟩

/-- Reserves a slot in the entry block. -/
def slot (type : Ty) : Build Operand := do
  match ← newTemp with
  | some number => do
    modify (·.modifyFunction fun f => { f with slots := f.slots.push (number, type) })
    return ⟨.ptr, .temp number⟩
  | none => return ⟨.ptr, .undef⟩

/-- Reads from an address. -/
def load (type : Ty) (address : Operand) : Build Operand := result type (.load type address)

/-- Writes to an address. -/
def store (value address : Operand) : Build Unit := effect (.store value address)

/-- Calls a function; `signature` is the type of a variadic one. -/
def call (returns : Ty) (callee : Ref) (args : List Operand) (signature : Option Ty) :
    Build Operand := do
  let instr := Instr.call (signature.getD returns) callee args
  if returns.isVoid then
    effect instr
    return .void
  else
    result returns instr

end Build

end OwnLang.Ir
