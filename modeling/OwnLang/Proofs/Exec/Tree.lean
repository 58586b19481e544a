import OwnLang.Proofs.Exec.Machine
import OwnLang.Emit.Stmt

/-!
# Executing checked trees

A checked body is executed as it is structured: expressions from left to right, `&&` and `||` as far
as they are needed, an assignment's value ahead of its target, and statements until control leaves
their block. A condition that is known when compiling has its known value, and what is folded is not
evaluated. A statement is executed whether it is flagged as unreachable or not.

Filling an array takes cells of the function beside those of its locals. They are numbered in the
order of the text, each part of a tree has its own (`Core.Expr.cells`), and the argument `cell` of the
functions below is the number of the first one that is free. What has no code takes no cells.
-/

namespace OwnLang

/-! ## Cells -/

namespace Core

mutual

/-- The number of cells that evaluating an expression takes. -/
def Expr.cells : Expr → Nat
  | .mk kind type constant _ => if (Emit.literal? type constant).isSome then 0 else kind.cells

/-- The number of cells of a form of an expression. The format of a macro is not evaluated. -/
def ExprKind.cells : ExprKind → Nat
  | .int _ | .bool _ | .str _ | .function _ => 0
  | .load place | .address place => place.cells
  | .call callee args => callee.cells + cellsOf args
  | .macroCall _ args => macroCells args
  | .binary _ left right => left.cells + right.cells
  | .unary _ operand => operand.cells
  | .cast value _ => value.cells
  | .extract base _ => base.cells
  | .structInit _ values _ | .arrayInit _ values _ => cellsOf values
  | .arrayFill _ size value heap => size.cells + value.cells + if heap then 1 else 2
  | .new value => value.cells

/-- The number of cells of the values behind a format. -/
def macroCells : List Expr → Nat
  | [] => 0
  | _ :: values => cellsOf values

/-- The number of cells of several expressions. -/
def cellsOf : List Expr → Nat
  | [] => 0
  | e :: rest => e.cells + cellsOf rest

/-- The number of cells of a location. -/
def Place.cells : Place → Nat
  | .mk kind _ _ _ => kind.cells

/-- The number of cells of a form of a location. -/
def PlaceKind.cells : PlaceKind → Nat
  | .slot _ | .global _ => 0
  | .deref pointer => pointer.cells
  | .field base _ _ => base.cells
  | .element data index => data.cells + index.cells

end

/-- The number of cells of an expression that may be missing. -/
def cellsOfOption : Option Expr → Nat
  | none => 0
  | some e => e.cells

/-- The number of cells of a loop's condition, which is not evaluated if it is known to hold. -/
def testCells : Option Expr → Nat
  | none => 0
  | some test => if test.known? = some true then 0 else test.cells

mutual

/-- The number of cells of a statement. -/
def Stmt.cells : Stmt → Nat
  | .mk kind _ _ => kind.cells

/-- The number of cells of a form of a statement. -/
def StmtKind.cells : StmtKind → Nat
  | .declare _ value | .ret value _ => cellsOfOption value
  | .assign target value _ => value.cells + target.cells
  | .expr value _ => value.cells
  | .brk _ _ | .cont _ _ => 0
  | .cond branches otherwise => branchCells branches (otherwiseCells otherwise)
  | .loop _ init condition step body _ =>
    optionalCells init + (testCells condition + (body.cells + optionalCells step))
  | .scope block => block.cells

/-- The number of cells of a block. -/
def Block.cells : Block → Nat
  | .mk stmts _ => stmtsCells stmts

/-- The number of cells of statements. -/
def stmtsCells : List Stmt → Nat
  | [] => 0
  | s :: rest => (if s.unreachable then 0 else s.cells) + stmtsCells rest

/-- The number of cells of the branches that can be taken. -/
def branchCells : List (Expr × Block) → Nat → Nat
  | [], otherwise => otherwise
  | (condition, body) :: rest, otherwise =>
    match condition.known? with
    | some false => branchCells rest otherwise
    | some true => body.cells
    | none => condition.cells + (body.cells + branchCells rest otherwise)

/-- The number of cells of a block that may be missing. -/
def otherwiseCells : Option Block → Nat
  | none => 0
  | some block => block.cells

/-- The number of cells of a statement that may be missing. -/
def optionalCells : Option Stmt → Nat
  | none => 0
  | some s => s.cells

end

end Core

namespace Exec

open Surface (UnaryOp)

/-- A call of a function that is executed: the machine, the program, the locals of the function, and
how many rounds a loop may take. -/
structure Activation (V : Type) where
  machine : Machine V
  program : Context
  locals : Array Local
  limit : Nat

/-- A part of a `printf` format, and the values that its conversions take. -/
structure Shown (V : Type) where
  format : String
  args : List (Datum V)

namespace Shown

variable {V : Type}

instance : Append (Shown V) where
  append a b := ⟨a.format ++ b.format, a.args ++ b.args⟩

/-- Plain text. -/
def plain (text : String) : Shown V := ⟨(Rendering.plain text).format, []⟩

/-- One value, by its conversion. -/
def conversion (spec : String) (value : Datum V) : Shown V := ⟨spec, [value]⟩

/-- Parts one after another, with a text between them. -/
def joined (separator : String) : List (Shown V) → Shown V
  | [] => plain ""
  | [s] => s
  | s :: rest => s ++ plain separator ++ joined separator rest

end Shown

/-- Where control goes behind a statement. -/
inductive Exit (V : Type) where
  | falls
  | returns (value : Option (Datum V))
  | breaks (target : LoopId)
  | continues (target : LoopId)

/-- The parts of a loop that a round can start with. -/
inductive Phase where
  | test
  | step

namespace Activation

variable {V : Type} (x : Activation V)

/-! ## Instructions -/

/-- The type of a value in the target. -/
def irType (t : Ty) : Ir.Ty := x.program.irType t

/-- What an instruction computes. -/
def compute (type : Ir.Ty) (operation : Operation) (operands : List (Datum V)) : Datum V :=
  ⟨type, x.machine.compute operation operands⟩

/-- Reads from an address. -/
def load (type : Ir.Ty) (address : Datum V) : Action V (Datum V) := do
  return ⟨type, ← .perform x.machine (.load type address.value)⟩

/-- Writes to an address. -/
def store (content address : Datum V) : Action V Unit := do
  let _ ← Action.perform x.machine (.store content address.value)

/-- Calls a function; `signature` is the type of a variadic one. -/
def call (returns : Ir.Ty) (callee : V) (args : List (Datum V)) (signature : Option Ir.Ty) :
    Action V (Datum V) := do
  let result ← Action.perform x.machine (.call (signature.getD returns) callee args)
  return if returns.isVoid then ⟨.void, x.machine.absent⟩ else ⟨returns, result⟩

/-- A function or variable of the program. -/
def symbolOf (id : GlobalId) : V := x.machine.symbol (x.program.global id).symbol

/-- The address of a cell. -/
def cell (n : Nat) : Datum V := ⟨.ptr, x.machine.cell n⟩

/-- The type of a local. -/
def localType (id : LocalId) : Ty := (x.locals[id.index]?.getD default).type

/-- An integer of a width. -/
def word (bits : Nat) (n : Int) : Datum V := ⟨.int bits, x.machine.int n⟩

/-- A constant of a type. -/
def constant (known : Const) (t : Ty) : Datum V :=
  match known with
  | .int n => ⟨x.irType t, x.machine.int n⟩
  | .bool b => ⟨.int 1, x.machine.bool b⟩
  | .str text => ⟨.ptr, x.machine.text text⟩

/-- The value of a local that is declared without one. -/
def zeroOf (t : Ty) : Datum V :=
  { type := x.irType t
    value := match t.shape with
      | .int _ => x.machine.int 0
      | .bool => x.machine.bool false
      | .func .. | .owner .. | .shared .. | .array _ _ none => x.machine.null
      | .void | .array _ _ (some _) | .struct .. => x.machine.zero }

/-- The byte size of a type. -/
def sizeOf (t : Ty) : Nat := (x.program.sizeOf? t).getD 0

/-! ## Allocating and releasing -/

/-- Allocates bytes. -/
def allocate (size : Datum V) : Action V (Datum V) :=
  x.call .ptr (x.machine.symbol "malloc") [size] none

/-- Allocates a copy of a value. -/
def heapCopy (value : Datum V) (size : Nat) : Action V (Datum V) := do
  let pointer ← x.allocate (x.word 64 size)
  x.store value pointer
  return pointer

/-- Part `index` of a value. -/
def extract (type : Ir.Ty) (value : Datum V) (index : Nat) : Datum V :=
  x.compute type (.extract index) [value]

/-- Frees what a value owns. -/
def release (value : Datum V) : Ty → Action V Unit
  | .mk (.owner ..) _ => do
    let _ ← x.call .void (x.machine.symbol "free") [value] none
  | .mk (.array element _ (some size)) _ => do
    if !element.isCopyable then
      for index in List.range size do
        release (x.extract (x.irType element) value index) element
  | _ => return ()

/-- Frees what locals own, in the order given. -/
def dropLocals : List LocalId → Action V Unit
  | [] => return ()
  | id :: rest => do
    let value ← x.load (x.irType (x.localType id)) (x.cell id.index)
    x.release value (x.localType id)
    dropLocals rest

/-! ## Formatted output -/

/-- A pointer to a struct by the text that the struct makes of itself. -/
def showPointer (value : Datum V) (t : Ty) : Action V (Shown V) := do
  match Emit.stringMethod? x.program t with
  | none => return .plain ""
  | some method => do
    let text ← x.call .ptr (x.symbolOf method) [value] none
    return .conversion "%s" text

/-- `true` or `false`. -/
def boolText (value : Datum V) : Datum V :=
  x.compute .ptr .select
    [value, ⟨.ptr, x.machine.text "true"⟩, ⟨.ptr, x.machine.text "false"⟩]

/-- What is shown of a value, with that of structs given. -/
def showGiven (showStruct : StructId → Datum V → Action V (Shown V)) (value : Datum V) :
    Ty → Action V (Shown V)
  | .mk (.int .w64) _ => return .conversion "%lld" value
  | .mk (.int .w32) _ => return .conversion "%d" value
  | .mk (.int _) _ =>
    return .conversion "%d" (x.compute (.int 32) (.convert .sext (.int 32)) [value])
  | .mk .bool _ => return .conversion "%s" (x.boolText value)
  | .mk (.array element _ (some size)) _ => do
    let parts ← (List.range size).mapM fun index =>
      showGiven showStruct (x.extract (x.irType element) value index) element
    return .plain "[" ++ .joined ", " parts ++ .plain "]"
  | .mk (.struct id _) _ => showStruct id value
  | t => if t.shape.isString then return .conversion "%s" value else x.showPointer value t

/-- A field behind its name. -/
def showField (showTy : Datum V → Ty → Action V (Shown V)) (value : Datum V) (field : Field)
    (index : Nat) : Action V (Shown V) := do
  let shown ← showTy (x.extract (x.irType field.type) value index) field.type
  return .plain (field.name.name ++ ": ") ++ shown

/-- What is shown of a struct that nests others at most `n` deep. -/
def showStructTo : Nat → StructId → Datum V → Action V (Shown V)
  | 0, _, _ => return .plain ""
  | n + 1, id, value => do
    let d := x.program.struct id
    let parts ← d.fields.zipIdx.mapM fun (field, index) =>
      x.showField (x.showGiven (showStructTo n)) value field index
    return .plain (d.name.name ++ "\x7b") ++ .joined ", " parts ++ .plain "\x7d"

/-- What is shown of a value. -/
def display (value : Datum V) (t : Ty) : Action V (Shown V) :=
  x.showGiven (x.showStructTo (x.program.structs.size + 1)) value t

/-- The text of a format, which is a constant. -/
def formatText (format : Core.Expr) : String :=
  match format.constant with
  | some (.str text) => text
  | _ => ""

/-- Prints what is shown, and then frees the values that are unique. -/
def print (shown : Shown V) (newline : Bool) (owned : List (Datum V × Ty)) : Action V Unit := do
  let text := x.machine.text (shown.format ++ if newline then "\n" else "")
  let _ ← x.call (.int 32) (x.machine.symbol "printf") (⟨.ptr, text⟩ :: shown.args)
    (some Emit.printfType)
  for (value, t) in owned do
    x.release value t

/-! ## Expressions -/

/-- A value converted to another type. -/
def convert (value : Datum V) : Core.Cast → Datum V
  | .pointer => value
  | .int source target =>
    let converted (how : Ir.Conversion) : Datum V :=
      let type := Ir.Ty.int target.bits
      x.compute type (.convert how type) [value]
    if source.bits < target.bits then converted .sext
    else if target.bits < source.bits then converted .trunc
    else value

/-- A value as a variadic argument: small integers are widened. -/
def promote (value : Datum V) (t : Ty) : Datum V :=
  let widened (how : Ir.Conversion) : Datum V :=
    x.compute (.int 32) (.convert how (.int 32)) [value]
  match t.shape with
  | .int width => if width.bits < 32 then widened .sext else value
  | .bool => widened .zext
  | _ => value

/-- An operator in front of its operand. -/
def unary (op : UnaryOp) (value : Datum V) : Datum V :=
  match op with
  | .neg => x.compute value.type (.binary .sub) [⟨value.type, x.machine.int 0⟩, value]
  | .not => x.compute value.type (.binary .xor) [value, ⟨value.type, x.machine.bool true⟩]

/-- An instruction on two values, of which the right one has the type of the left one. -/
def both (t : Ty) (operation : Operation) (left right : Datum V) : Datum V :=
  x.compute (x.irType t) operation [left, ⟨left.type, right.value⟩]

/-- `&&`, or `||` if `decided`: the right operand is evaluated only if the left one does not decide
the result. -/
def shortCircuit (decided : Bool) (left right : Action V (Datum V)) : Action V (Datum V) := do
  let a ← left
  if x.machine.truth a.value = decided then return ⟨.int 1, x.machine.bool decided⟩
  else return ⟨.int 1, (← right).value⟩

/-- One element of an array is filled, unless the counter has come to the end. -/
def fillElement (counter data count value : Datum V) (element : Ir.Ty) :
    Action V (Unit ⊕ Unit) := do
  let index ← x.load (.int 64) counter
  let more := x.compute (.int 1) (.compare .slt) [index, ⟨index.type, count.value⟩]
  if x.machine.truth more.value then
    x.store value (x.compute .ptr (.addressOf element) [data, index])
    x.store (x.compute (.int 64) (.binary .add) [index, ⟨index.type, x.machine.int 1⟩]) counter
    return .inl ()
  else
    return .inr ()

/-- Stores a value in every element of an array, with a cell that counts. -/
def fillElements (cell : Nat) (data count value : Datum V) (element : Ir.Ty) : Action V Unit := do
  x.store (x.word 64 0) (x.cell cell)
  .rounds (fun _ => x.fillElement (x.cell cell) data count value element) x.limit ()

/-- `[n]T{v}`: the array itself, or the address of a new one. -/
def fillArray (cell : Nat) (count value : Datum V) (element t : Ty) (heap : Bool) :
    Action V (Datum V) := do
  if heap then
    let bytes := x.compute (.int 64) (.binary .mul) [count, ⟨count.type, x.machine.int (x.sizeOf element)⟩]
    let data ← x.allocate bytes
    x.fillElements cell data count value (x.irType element)
    return data
  else
    x.fillElements (cell + 1) (x.cell cell) count value (x.irType element)
    x.load (x.irType t) (x.cell cell)

/-- An aggregate itself, or the address of a new copy of it. -/
def placeAggregate (aggregate : Datum V) (size : Nat) (heap : Bool) : Action V (Datum V) :=
  if heap then x.heapCopy aggregate size else return aggregate

mutual

/-- The value of an expression. -/
def eval (cell : Nat) : Core.Expr → Action V (Datum V)
  | .mk kind t constant _ =>
    match Emit.literal? t constant with
    | some known => return x.constant known t
    | none => evalKind cell t kind

/-- The value of an expression of a form, with its type. -/
def evalKind (cell : Nat) (t : Ty) : Core.ExprKind → Action V (Datum V)
  | .int n => return ⟨x.irType t, x.machine.int n⟩
  | .bool b => return ⟨.int 1, x.machine.bool b⟩
  | .str text => return ⟨.ptr, x.machine.text text⟩
  | .load place => do
    let address ← evalPlace cell place
    x.load (x.irType place.type) address
  | .function id => return ⟨.ptr, x.symbolOf id⟩
  | .call callee args =>
    match callee.type.shape with
    | .func params variadic returns => do
      let target ← eval cell callee
      let values ← evalArguments (cell + callee.cells) params.length args
      let signature := if variadic then some (x.program.irSignature params variadic returns) else none
      x.call (x.irType returns) target.value values signature
    | _ => return ⟨.void, x.machine.absent⟩
  | .macroCall id args =>
    match Intrinsic.ofPath? (x.program.macroDef id).fullName with
    | none => return ⟨.void, x.machine.absent⟩
    | some intrinsic => evalMacro cell intrinsic args
  | .binary op left right =>
    match Emit.evaluation op with
    | .arithmetic code => do
      let a ← eval cell left
      let b ← eval (cell + left.cells) right
      return x.both t (.binary code) a b
    | .comparison how => do
      let a ← eval cell left
      let b ← eval (cell + left.cells) right
      return x.both t (.compare how) a b
    | .shortCircuit decided =>
      x.shortCircuit decided (eval cell left) (eval (cell + left.cells) right)
  | .unary op operand => do return x.unary op (← eval cell operand)
  | .address place => evalPlace cell place
  | .cast value how => do return x.convert (← eval cell value) how
  | .extract base index => do return x.extract (x.irType t) (← eval cell base) index
  | .structInit id values heap => do
    let type : Ir.Ty := .struct (x.program.struct id).symbol
    let aggregate ← evalAggregate cell ⟨type, x.machine.zero⟩ 0 values
    x.placeAggregate aggregate (x.sizeOf (x.program.structType id)) heap
  | .arrayInit element values heap => do
    let type : Ir.Ty := .array values.length (x.irType element)
    let aggregate ← evalAggregate cell ⟨type, x.machine.zero⟩ 0 values
    x.placeAggregate aggregate (x.sizeOf element * values.length) heap
  | .arrayFill element size value heap => do
    let count ← eval cell size
    let content ← eval (cell + size.cells) value
    x.fillArray (cell + size.cells + value.cells) count content element t heap
  | .new value => do
    x.heapCopy (← eval cell value) (x.sizeOf value.type)

/-- A macro that prints: its format, and the values behind it. -/
def evalMacro (cell : Nat) (intrinsic : Intrinsic) : List Core.Expr → Action V (Datum V)
  | [] => return ⟨.void, x.machine.absent⟩
  | format :: values => do
    let (shown, owned) ← evalPieces cell (piecesOf '%' (formatText format)) values
    x.print shown (intrinsic = .println) owned
    return ⟨.void, x.machine.absent⟩

/-- Arguments, those behind the first `fixed` as variadic ones. -/
def evalArguments (cell fixed : Nat) : List Core.Expr → Action V (List (Datum V))
  | [] => return []
  | arg :: rest => do
    let value ← eval cell arg
    let passed := if fixed = 0 then x.promote value arg.type else value
    return passed :: (← evalArguments (cell + arg.cells) (fixed - 1) rest)

/-- An aggregate whose parts from position `index` on are set. -/
def evalAggregate (cell : Nat) (aggregate : Datum V) (index : Nat) :
    List Core.Expr → Action V (Datum V)
  | [] => return aggregate
  | part :: rest => do
    let value ← eval cell part
    let next := x.compute aggregate.type (.insert index) [aggregate, value]
    evalAggregate (cell + part.cells) next (index + 1) rest

/-- What is shown of values between the pieces of a format, and the values that are unique. -/
def evalPieces (cell : Nat) (pieces : List String) :
    List Core.Expr → Action V (Shown V × List (Datum V × Ty))
  | [] => return (.plain (pieces.headD ""), [])
  | value :: rest => do
    let datum ← eval cell value
    let shown ← x.display datum value.type
    let (after, owned) ← evalPieces (cell + value.cells) pieces.tail rest
    let unique := if value.type.isCopyable then [] else [(datum, value.type)]
    return (.plain (pieces.headD "") ++ shown ++ after, unique ++ owned)

/-- The address of a location. -/
def evalPlace (cell : Nat) : Core.Place → Action V (Datum V)
  | .mk kind t _ _ => evalPlaceKind cell t kind

/-- The address of a location of a form, with its type. -/
def evalPlaceKind (cell : Nat) (t : Ty) : Core.PlaceKind → Action V (Datum V)
  | .slot id => return x.cell id.index
  | .global id => return ⟨.ptr, x.symbolOf id⟩
  | .deref pointer => eval cell pointer
  | .field base id index => do
    let pointer ← eval cell base
    return x.compute .ptr (.addressOf (.struct (x.program.struct id).symbol))
      [pointer, x.word 32 0, x.word 32 index]
  | .element data index => do
    let pointer ← eval cell data
    let position ← eval (cell + data.cells) index
    return x.compute .ptr (.addressOf (x.irType t)) [pointer, position]

end

/-! ## Statements -/

/-- Goes on with what follows, unless control goes elsewhere. -/
def andThen (first second : Action V (Exit V)) : Action V (Exit V) := do
  match ← first with
  | .falls => second
  | exit => return exit

/-- Frees what locals own, and goes somewhere. -/
def leaving (drops : List LocalId) (exit : Exit V) : Action V (Exit V) := do
  x.dropLocals drops
  return exit

/-- Whether a loop's condition holds. -/
def loopTest (cell : Nat) : Option Core.Expr → Action V Bool
  | none => return true
  | some condition =>
    match condition.known? with
    | some known => return known
    | none => return x.machine.truth (← x.eval cell condition).value

/-- What a jump of a loop or the end of one of its parts leads to: another round, or the exit of the
whole loop. -/
def inLoop (id : LoopId) (behind : Phase) : Exit V → Phase ⊕ Exit V
  | .falls => .inl behind
  | .continues target => if target = id then .inl .step else .inr (.continues target)
  | .breaks target => if target = id then .inr .falls else .inr (.breaks target)
  | .returns value => .inr (.returns value)

/-- A round of a loop: the test and the body, or the step. -/
def loopRound (id : LoopId) (test : Action V Bool) (body step : Action V (Exit V)) :
    Phase → Action V (Phase ⊕ Exit V)
  | .test => do
    if ← test then return inLoop id .step (← body) else return .inr .falls
  | .step => do return inLoop id .test (← step)

mutual

/-- A block, which frees what its locals own if control reaches its end. -/
def execBlock (cell : Nat) : Core.Block → Action V (Exit V)
  | .mk stmts drops => andThen (execStmts cell stmts) (x.leaving drops .falls)

/-- The statements of a block. -/
def execStmts (cell : Nat) : List Core.Stmt → Action V (Exit V)
  | [] => return .falls
  | s :: rest =>
    andThen (execStmt cell s) (execStmts (cell + if s.unreachable then 0 else s.cells) rest)

/-- A statement. -/
def execStmt (cell : Nat) : Core.Stmt → Action V (Exit V)
  | .mk kind _ _ => execKind cell kind

/-- A statement of a form. -/
def execKind (cell : Nat) : Core.StmtKind → Action V (Exit V)
  | .declare id value => do
    let content ← match value with
      | some value => x.eval cell value
      | none => pure (x.zeroOf (x.localType id))
    x.store content (x.cell id.index)
    return .falls
  | .assign target value releasePrior => do
    let content ← x.eval cell value
    let address ← x.evalPlace (cell + value.cells) target
    if releasePrior then
      let prior ← x.load (x.irType target.type) address
      x.release prior target.type
    x.store content address
    return .falls
  | .expr value unused => do
    let result ← x.eval cell value
    if unused then
      x.release result value.type
    return .falls
  | .ret value drops => do
    let result ← match value with
      | some value => some <$> x.eval cell value
      | none => pure none
    x.leaving drops (.returns (result.filter (!·.type.isVoid)))
  | .brk id drops => x.leaving drops (.breaks id)
  | .cont id drops => x.leaving drops (.continues id)
  | .cond branches otherwise =>
    execBranches cell branches fun cell => execOtherwise cell otherwise
  | .loop id init condition step body exitDrops =>
    andThen (execOptional cell init) <|
      let first := cell + Core.optionalCells init
      let behind := first + Core.testCells condition
      andThen
        (.rounds (loopRound id (x.loopTest first condition) (execBlock behind body)
          (execOptional (behind + body.cells) step)) x.limit .test)
        (x.leaving exitDrops .falls)
  | .scope block => execBlock cell block

/-- The first branch whose condition holds. -/
def execBranches (cell : Nat) :
    List (Core.Expr × Core.Block) → (Nat → Action V (Exit V)) → Action V (Exit V)
  | [], otherwise => otherwise cell
  | (condition, body) :: rest, otherwise =>
    match condition.known? with
    | some false => execBranches cell rest otherwise
    | some true => execBlock cell body
    | none => do
      let value ← x.eval cell condition
      let behind := cell + condition.cells
      if x.machine.truth value.value then execBlock behind body
      else execBranches (behind + body.cells) rest otherwise

/-- A block that may be missing. -/
def execOtherwise (cell : Nat) : Option Core.Block → Action V (Exit V)
  | none => return .falls
  | some block => execBlock cell block

/-- A statement that may be missing. -/
def execOptional (cell : Nat) : Option Core.Stmt → Action V (Exit V)
  | none => return .falls
  | some s => execStmt cell s

end

/-- Stores the parameters in their cells. -/
def storeParams (args : Nat → V) : List (LocalId × Nat) → Action V Unit
  | [] => return ()
  | (id, i) :: rest => do
    x.store ⟨x.irType (x.localType id), args i⟩ (x.cell id.index)
    storeParams args rest

end Activation

/-- What can be seen of a body whose loops take at most `limit` rounds. -/
def observeBody {V : Type} (program : Context) (body : Body) (m : Machine V) (args : Nat → V)
    (limit : Nat) : Observation V :=
  let x : Activation V := ⟨m, program, body.locals, limit⟩
  let run : Action V (Exit V) := do
    x.storeParams args body.params.zipIdx
    x.execBlock body.locals.size body.block
  match run [] with
  | .done (.returns value) effects => .returned value effects
  | .done _ effects => .stuck effects
  | .cut effects => .running effects

end Exec

end OwnLang
