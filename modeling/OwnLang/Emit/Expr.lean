import OwnLang.Emit.Format
import OwnLang.Entity.Intrinsic

/-!
# Expressions

The operands of an expression are evaluated from left to right. What is known when compiling is a
literal, and the tree it was folded from is not evaluated. `&&` and `||` evaluate their right
operand in a block of its own.
-/

namespace OwnLang.Emit

open Ir (Operand Build)
open Surface (BinaryOp UnaryOp)

/-- How a binary operator is evaluated. -/
inductive Evaluation where
  | arithmetic (op : Ir.Opcode)
  | comparison (how : Ir.Comparison)
  /-- The right operand only if the left one does not have the value `decided`. -/
  | shortCircuit (decided : Bool)

/-- How a binary operator is evaluated. -/
def evaluation : BinaryOp → Evaluation
  | .add => .arithmetic .add
  | .sub => .arithmetic .sub
  | .mul => .arithmetic .mul
  | .div => .arithmetic .sdiv
  | .rem => .arithmetic .srem
  | .eq => .comparison .eq
  | .ne => .comparison .ne
  | .lt => .comparison .slt
  | .le => .comparison .sle
  | .gt => .comparison .sgt
  | .ge => .comparison .sge
  | .and => .shortCircuit false
  | .or => .shortCircuit true

/-- The instruction of an operator in front of its operand. -/
def unaryInstr (op : UnaryOp) (value : Operand) : Ir.Instr :=
  match op with
  | .neg => .binary .sub ⟨value.type, .int 0⟩ value.ref
  | .not => .binary .xor value (.bool true)

/-- A value converted to another type. -/
def emitCast (value : Operand) (how : Core.Cast) : Emit Operand :=
  match how with
  | .pointer => return value
  | .int source target =>
    let convert (how : Ir.Conversion) : Emit Operand :=
      let type := Ir.Ty.int target.bits
      build (Build.result type (.convert how value type))
    if source.bits < target.bits then convert .sext
    else if target.bits < source.bits then convert .trunc
    else return value

/-- A value as a variadic argument: small integers are widened. -/
def promote (value : Operand) (t : Ty) : Emit Operand :=
  let widen (how : Ir.Conversion) : Emit Operand :=
    build (Build.result (.int 32) (.convert how value (.int 32)))
  match t.shape with
  | .int width => if width.bits < 32 then widen .sext else return value
  | .bool => widen .zext
  | _ => return value

/-- Stores a value in every element of an array. -/
def fillElements (data count value : Operand) (element : Ir.Ty) : Emit Unit := do
  let counter ← build (Build.slot (.int 64))
  build (Build.store ⟨.int 64, .int 0⟩ counter)
  let condition ← build Build.newLabel
  let body ← build Build.newLabel
  let done ← build Build.newLabel
  build (Build.placeLabel condition)
  let index ← build (Build.load (.int 64) counter)
  let more ← build (Build.result (.int 1) (.compare .slt index count.ref))
  build (Build.condBr more body done)
  build (Build.placeLabel body)
  let address ← build (Build.result .ptr (.addressOf element data [index]))
  build (Build.store value address)
  let next ← build (Build.result (.int 64) (.binary .add index (.int 1)))
  build (Build.store next counter)
  build (Build.br condition)
  build (Build.placeLabel done)

/-- `[n]T{v}`: the array itself, or the address of a new one. -/
def fillArray (count value : Operand) (element t : Ty) (heap : Bool) : Emit Operand := do
  let elementType ← irType element
  if heap then
    let size ← byteSize element
    let bytes ← build (Build.result (.int 64) (.binary .mul count (.int size)))
    let data ← allocate bytes
    fillElements data count value elementType
    return data
  else
    let type ← irType t
    let data ← build (Build.slot type)
    fillElements data count value elementType
    build (Build.load type data)

/-- An aggregate itself, or the address of a new copy of it. -/
def placeAggregate (aggregate : Operand) (size : Emit Nat) (heap : Bool) : Emit Operand := do
  if heap then heapCopy aggregate (← size) else return aggregate

/-- The byte size of a number of elements. -/
def elementsSize (element : Ty) (count : Nat) : Emit Nat := do
  match boundedSize ((← byteSize element) * count) with
  | some n => return n
  | none => Run.stop .size

/-- The text of a format and the number of values it takes. -/
def requireFormat (format : Core.Expr) (values : Nat) (span : Span) : Emit (List String) := do
  match format.constant with
  | some (.str text) => do
    let pieces := piecesOf '%' text
    if pieces.length - 1 != values then
      Run.reject (.formatArguments (pieces.length - 1) values) span
    return pieces
  | _ => Run.reject .expectedConstant format.span

/-- Prints the values, and then frees those that are unique. -/
def printValues (rendering : Rendering) (newline : Bool) (owned : List (Operand × Ty)) :
    Emit Unit := do
  let ending : Rendering := ⟨if newline then "\n" else "", []⟩
  callPrintf (rendering ++ ending)
  for (value, t) in owned do
    release value t

/-- An instruction on both operands, with a result of type `t`. -/
def bothOperands (t : Ty) (instr : Operand → Ir.Ref → Ir.Instr) (left right : Emit Operand) :
    Emit Operand := do
  let a ← left
  let b ← right
  build (Build.result (← irType t) (instr a b.ref))

/-- `&&`, or `||` if `decided`: the value of the left operand that decides the result. -/
def shortCircuit (decided : Bool) (left right : Emit Operand) : Emit Operand := do
  let a ← left
  let fromLeft := (← get).builder.currentLabel
  let other ← build Build.newLabel
  let done ← build Build.newLabel
  if decided then
    build (Build.condBr a done other)
  else
    build (Build.condBr a other done)
  build (Build.placeLabel other)
  let b ← right
  let fromRight := (← get).builder.currentLabel
  build (Build.placeLabel done)
  build (Build.result (.int 1) (.phi (.int 1) [(.bool decided, fromLeft), (b.ref, fromRight)]))

mutual

/-- The value of an expression. -/
def emitExpr : Core.Expr → Emit Operand
  | .mk kind t constant span =>
    match literal? t constant with
    | some known => constantOperand known t
    | none => emitKind t span kind

/-- The value of an expression of a form, with its type. -/
def emitKind (t : Ty) (span : Span) : Core.ExprKind → Emit Operand
  | .int n => return ⟨← irType t, .int n⟩
  | .bool b => return ⟨.int 1, .bool b⟩
  | .str text => build (Build.string text)
  | .load place => do
    let address ← emitPlace place
    build (Build.load (← irType place.type) address)
  | .function id => return ⟨.ptr, ← symbolOf id⟩
  | .call callee args =>
    match callee.type.shape with
    | .func params variadic returns => do
      let target ← emitExpr callee
      let values ← emitArguments params.length args
      let c ← context
      let signature := if variadic then some (c.irSignature params variadic returns) else none
      build (Build.call (c.irType returns) target.ref values signature)
    | _ => Run.reject (.notCallable callee.type.describe) callee.span
  | .macroCall id args => do
    let path := ((← context).macroDef id).fullName
    match Intrinsic.ofPath? path with
    | none => Run.reject (.macroWithoutBody path) span
    | some intrinsic => emitMacro intrinsic span args
  | .binary op left right =>
    match evaluation op with
    | .arithmetic code => bothOperands t (.binary code) (emitExpr left) (emitExpr right)
    | .comparison how => bothOperands t (.compare how) (emitExpr left) (emitExpr right)
    | .shortCircuit decided => shortCircuit decided (emitExpr left) (emitExpr right)
  | .unary op operand => do
    let value ← emitExpr operand
    build (Build.result value.type (unaryInstr op value))
  | .address place => emitPlace place
  | .cast value how => do emitCast (← emitExpr value) how
  | .extract base index => do
    let aggregate ← emitExpr base
    extract (← irType t) aggregate index
  | .structInit id values heap => do
    let type : Ir.Ty := .struct ((← context).struct id).symbol
    let aggregate ← emitAggregate ⟨type, .zero⟩ 0 values
    placeAggregate aggregate (do byteSize ((← context).structType id)) heap
  | .arrayInit element values heap => do
    let type : Ir.Ty := .array values.length (← irType element)
    let aggregate ← emitAggregate ⟨type, .zero⟩ 0 values
    placeAggregate aggregate (elementsSize element values.length) heap
  | .arrayFill element size value heap => do
    let count ← emitExpr size
    let content ← emitExpr value
    fillArray count content element t heap
  | .new value => do
    let size ← byteSize value.type
    heapCopy (← emitExpr value) size

/-- A macro that prints: its format, and the values behind it. -/
def emitMacro (intrinsic : Intrinsic) (span : Span) : List Core.Expr → Emit Operand
  | [] => Run.reject (.unexpectedArguments 1 0) span
  | format :: values => do
    let pieces ← requireFormat format values.length span
    let (rendering, owned) ← emitPieces pieces values
    printValues rendering (intrinsic = .println) owned
    return .void

/-- Arguments, those behind the first `fixed` as variadic ones. -/
def emitArguments (fixed : Nat) : List Core.Expr → Emit (List Operand)
  | [] => return []
  | arg :: rest => do
    let value ← emitExpr arg
    let passed ← if fixed = 0 then promote value arg.type else pure value
    return passed :: (← emitArguments (fixed - 1) rest)

/-- An aggregate whose parts from position `index` on are set. -/
def emitAggregate (aggregate : Operand) (index : Nat) : List Core.Expr → Emit Operand
  | [] => return aggregate
  | part :: rest => do
    let value ← emitExpr part
    let next ← build (Build.result aggregate.type (.insert aggregate value index))
    emitAggregate next (index + 1) rest

/-- The rendering of values between the pieces of a format, and the values that are unique. -/
def emitPieces (pieces : List String) :
    List Core.Expr → Emit (Rendering × List (Operand × Ty))
  | [] => return (.plain (pieces.headD ""), [])
  | value :: rest => do
    let operand ← emitExpr value
    let shown ← render operand value.type value.span
    let (after, owned) ← emitPieces pieces.tail rest
    let unique := if value.type.isCopyable then [] else [(operand, value.type)]
    return (.plain (pieces.headD "") ++ shown ++ after, unique ++ owned)

/-- The address of a location. -/
def emitPlace : Core.Place → Emit Operand
  | .mk kind t _ _ => emitPlaceKind t kind

/-- The address of a location of a form, with its type. -/
def emitPlaceKind (t : Ty) : Core.PlaceKind → Emit Operand
  | .slot id => return (← slot id).1
  | .global id => return ⟨.ptr, ← symbolOf id⟩
  | .deref pointer => emitExpr pointer
  | .field base id index => do
    let pointer ← emitExpr base
    let type : Ir.Ty := .struct ((← context).struct id).symbol
    build (Build.result .ptr
      (.addressOf type pointer [⟨.int 32, .int 0⟩, ⟨.int 32, .int index⟩]))
  | .element data index => do
    let pointer ← emitExpr data
    let position ← emitExpr index
    build (Build.result .ptr (.addressOf (← irType t) pointer [position]))

end

end OwnLang.Emit
