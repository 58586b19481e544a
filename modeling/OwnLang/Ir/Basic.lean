/-!
# Emitted modules

A module of typed assembly: struct types, variables and string constants, declared functions, and
defined functions as control-flow graphs in static single assignment form. Values live in numbered
temporaries, each the result of one instruction, and blocks begin with a label and end with a
terminator.

Every part also has a form that holds its text verbatim, for code that is written out by hand.
-/

namespace OwnLang.Ir

/-- Types of values. -/
inductive Ty where
  | int (bits : Nat)
  | ptr
  | void
  | array (size : Nat) (element : Ty)
  /-- A struct type by its symbol. -/
  | struct (symbol : String)
  /-- The type of a function, which calls of variadic functions name. -/
  | func (returns : Ty) (params : List Ty) (variadic : Bool)
  | verbatim (text : String)
deriving Inhabited

/-- Whether a type has no values. -/
def Ty.isVoid : Ty → Bool
  | void => true
  | _ => false

/-- What an operand names. -/
inductive Ref where
  /-- The result of an instruction. -/
  | temp (number : Nat)
  /-- A parameter of the function. -/
  | param (index : Nat)
  /-- A function or variable by its symbol. -/
  | symbol (name : String)
  /-- A string constant. -/
  | string (number : Nat)
  | int (value : Int)
  | bool (value : Bool)
  | null
  /-- All bytes zero. -/
  | zero
  /-- The result of an instruction outside of functions. -/
  | undef
  /-- What a call without a result names. -/
  | nothing
  | verbatim (text : String)
deriving DecidableEq, Inhabited

/-- A value with its type. -/
structure Operand where
  type : Ty
  ref : Ref
deriving Inhabited

/-- The operand of a call without a result. -/
def Operand.void : Operand := ⟨.void, .nothing⟩

/-- The names of blocks. -/
inductive Label where
  /-- The first block of a function. -/
  | entry
  | numbered (number : Nat)
  | verbatim (text : String)
deriving DecidableEq, Inhabited

/-- Instructions on two integers of one type. -/
inductive Opcode where
  | add | sub | mul | sdiv | srem | xor
deriving DecidableEq

/-- Comparisons of two operands of one type. -/
inductive Comparison where
  | eq | ne | slt | sle | sgt | sge
deriving DecidableEq

/-- Conversions between integers. -/
inductive Conversion where
  | sext | zext | trunc
deriving DecidableEq

/-- Instructions that control goes on behind. -/
inductive Instr where
  | binary (op : Opcode) (left : Operand) (right : Ref)
  | compare (how : Comparison) (left : Operand) (right : Ref)
  | convert (how : Conversion) (value : Operand) (target : Ty)
  | load (type : Ty) (address : Operand)
  | store (value address : Operand)
  /-- The address of a part of what `base` points at. -/
  | addressOf (type : Ty) (base : Operand) (indices : List Operand)
  | extract (aggregate : Operand) (index : Nat)
  | insert (aggregate value : Operand) (index : Nat)
  | select (test yes no : Operand)
  /-- The value that belongs to the block which control came from. -/
  | phi (type : Ty) (incoming : List (Ref × Label))
  /-- `type` is that of the result, or of the callee if it is variadic. -/
  | call (type : Ty) (callee : Ref) (args : List Operand)
  | verbatim (text : String)

/-- Instructions that end a block. -/
inductive Terminator where
  | br (target : Label)
  | condBr (test : Operand) (yes no : Label)
  | ret (value : Option Operand)
  | unreachable
  | verbatim (text : String)

/-- The lines of a function's body. -/
inductive Line where
  | label (name : Label)
  /-- An instruction whose result is a temporary. -/
  | result (temp : Nat) (instr : Instr)
  /-- An instruction without a result. -/
  | effect (instr : Instr)
  | leave (terminator : Terminator)

/-- A defined function. Its slots are reserved at the start of the entry block. -/
structure Function where
  name : String
  returns : Ty
  params : List Ty
  slots : Array (Nat × Ty)
  body : Array Line

/-- A declared function, which is defined elsewhere. -/
structure Declaration where
  name : String
  returns : Ty
  params : List Ty
  variadic : Bool

/-- A variable or constant with a name of its own, or a string constant. -/
inductive Global where
  | named (name : String) (constant : Bool) (value : Operand)
  | string (number : Nat) (text : String)

/-- A struct type, whose fields are packed. -/
structure StructType where
  symbol : String
  fields : List Ty

/-- An emitted module. -/
structure Module where
  structs : Array StructType := #[]
  globals : Array Global := #[]
  declarations : Array Declaration := #[]
  definitions : Array Function := #[]
deriving Inhabited

end OwnLang.Ir
