import OwnLang.Ir.Basic
import OwnLang.Source.Map

/-!
# The text of emitted modules

One definition, declaration or instruction a line, the sections and the functions set apart by an
empty line. Labels stand at the start of their line, instructions behind two blanks.

A string constant holds the UTF-8 bytes of its text and a zero byte. Printable ASCII stands for
itself, except `"` and `\`; every other byte is written as `\` and two hexadecimal digits.
-/

namespace OwnLang.Ir

/-- Texts with `, ` between them. -/
def commaSeparated (texts : List String) : String := ", ".intercalate texts

/-- A symbol of a function or variable. -/
def symbolText (name : String) : String := "@\"" ++ name ++ "\""

/-- A symbol of a struct type. -/
def structText (name : String) : String := "%\"" ++ name ++ "\""

/-- Parameter types, with `...` behind them if others may follow. -/
def paramsText (params : List String) (variadic : Bool) : String :=
  commaSeparated (params ++ if variadic then ["..."] else [])

mutual

/-- The text of a type. -/
def Ty.text : Ty → String
  | .int bits => "i" ++ toString bits
  | .ptr => "ptr"
  | .void => "void"
  | .array size element => "[" ++ toString size ++ " x " ++ element.text ++ "]"
  | .struct symbol => structText symbol
  | .func returns params variadic =>
    returns.text ++ " (" ++ paramsText (typeTexts params) variadic ++ ")"
  | .verbatim text => text

/-- The texts of types. -/
def typeTexts : List Ty → List String
  | [] => []
  | t :: rest => t.text :: typeTexts rest

end

/-- The text of what an operand names. -/
def Ref.text : Ref → String
  | temp number => "%t" ++ toString number
  | param index => "%p" ++ toString index
  | symbol name => symbolText name
  | string number => "@.str." ++ toString number
  | int value => toString value
  | bool true => "true"
  | bool false => "false"
  | null => "null"
  | zero => "zeroinitializer"
  | undef => "undef"
  | nothing => ""
  | verbatim text => text

/-- The text of an operand. -/
def Operand.text (v : Operand) : String := v.type.text ++ " " ++ v.ref.text

/-- The texts of operands with `, ` between them. -/
def operandTexts (operands : List Operand) : String := commaSeparated (operands.map (·.text))

/-- The text of a label. -/
def Label.text : Label → String
  | entry => "entry"
  | numbered number => "L" ++ toString number
  | verbatim text => text

/-- A label as the target of a jump. -/
def Label.targetText (l : Label) : String := "label %" ++ l.text

/-- The word of an opcode. -/
def Opcode.text : Opcode → String
  | add => "add"
  | sub => "sub"
  | mul => "mul"
  | sdiv => "sdiv"
  | srem => "srem"
  | xor => "xor"

/-- The word of a comparison. -/
def Comparison.text : Comparison → String
  | eq => "eq"
  | ne => "ne"
  | slt => "slt"
  | sle => "sle"
  | sgt => "sgt"
  | sge => "sge"

/-- The word of a conversion. -/
def Conversion.text : Conversion → String
  | sext => "sext"
  | zext => "zext"
  | trunc => "trunc"

/-- One of the values of a `phi`, with the block it belongs to. -/
def incomingText (incoming : Ref × Label) : String :=
  "[ " ++ incoming.1.text ++ ", %" ++ incoming.2.text ++ " ]"

/-- The text of an instruction. -/
def Instr.text : Instr → String
  | binary op left right => op.text ++ " " ++ left.text ++ ", " ++ right.text
  | compare how left right => "icmp " ++ how.text ++ " " ++ left.text ++ ", " ++ right.text
  | convert how value target => how.text ++ " " ++ value.text ++ " to " ++ target.text
  | load type address => "load " ++ type.text ++ ", " ++ address.text
  | store value address => "store " ++ value.text ++ ", " ++ address.text
  | addressOf type base indices =>
    "getelementptr inbounds " ++ type.text ++ ", " ++ operandTexts (base :: indices)
  | extract aggregate index => "extractvalue " ++ aggregate.text ++ ", " ++ toString index
  | insert aggregate value index =>
    "insertvalue " ++ aggregate.text ++ ", " ++ value.text ++ ", " ++ toString index
  | select test yes no => "select " ++ operandTexts [test, yes, no]
  | phi type incoming =>
    "phi " ++ type.text ++ " " ++ commaSeparated (incoming.map incomingText)
  | call type callee args =>
    "call " ++ type.text ++ " " ++ callee.text ++ "(" ++ operandTexts args ++ ")"
  | verbatim text => text

/-- The text of a terminator. -/
def Terminator.text : Terminator → String
  | br target => "br " ++ target.targetText
  | condBr test yes no =>
    "br " ++ commaSeparated [test.text, yes.targetText, no.targetText]
  | ret none => "ret void"
  | ret (some value) => "ret " ++ value.text
  | unreachable => "unreachable"
  | verbatim text => text

/-- An instruction behind the name of its result. -/
def resultText (temp : Nat) (instr : String) : String := (Ref.temp temp).text ++ " = " ++ instr

/-- The text of a line, without the blanks in front. -/
def Line.text : Line → String
  | label name => name.text ++ ":"
  | result temp instr => resultText temp instr.text
  | effect instr => instr.text
  | leave terminator => terminator.text

/-- The text of a slot's reservation. -/
def slotText (slot : Nat × Ty) : String := resultText slot.1 ("alloca " ++ slot.2.text)

/-- Puts two blanks in front of what is no label. -/
def indented (text : String) : String :=
  if text.toList.getLast? = some ':' then text else "  " ++ text

/-- The lines of a function's definition. -/
def Function.lines (f : Function) : List String :=
  let params := f.params.zipIdx.map fun (t, i) => Operand.text ⟨t, .param i⟩
  let header := "define " ++ f.returns.text ++ " " ++ symbolText f.name ++ "("
    ++ commaSeparated params ++ ") \x7b"
  let body := f.slots.toList.map slotText ++ f.body.toList.map (·.text)
  [header, "entry:"] ++ body.map indented ++ ["\x7d"]

/-- The text of a declaration. -/
def Declaration.text (d : Declaration) : String :=
  "declare " ++ d.returns.text ++ " " ++ symbolText d.name ++ "("
    ++ paramsText (d.params.map (·.text)) d.variadic ++ ")"

/-- The upper-case hexadecimal digit of a number below 16. -/
def hexDigit (n : Nat) : Char := if n < 10 then .ofNat (48 + n) else .ofNat (55 + n)

/-- Whether a byte stands for itself in a string constant. -/
def isPlainByte (b : UInt8) : Bool := 0x20 ≤ b && b ≤ 0x7e && b != 0x22 && b != 0x5c

/-- A byte as a string constant holds it. -/
def byteText (b : UInt8) : List Char :=
  if isPlainByte b then [.ofNat b.toNat]
  else ['\\', hexDigit (b.toNat / 16), hexDigit (b.toNat % 16)]

/-- The bytes of a text as a string constant holds them. -/
def bytesText (text : String) : String := String.ofList ((utf8 text).flatMap byteText)

/-- The text of a variable or string constant. -/
def Global.text : Global → String
  | named name constant value =>
    symbolText name ++ " = " ++ (if constant then "constant " else "global ") ++ value.text
  | string number text =>
    (Ref.string number).text ++ " = private unnamed_addr constant ["
      ++ toString ((utf8 text).length + 1) ++ " x i8] c\"" ++ bytesText text ++ "\\00\""

/-- The text of a struct type's definition. -/
def StructType.text (s : StructType) : String :=
  structText s.symbol ++ " = type <\x7b " ++ commaSeparated (s.fields.map (·.text)) ++ " \x7d>"

/-- Texts with line feeds between them. -/
def stacked (texts : List String) : String := "\n".intercalate texts

/-- The text of a module. -/
def Module.text (m : Module) : String :=
  let sections :=
    [ m.structs.toList.map (·.text), m.globals.toList.map (·.text),
      m.declarations.toList.map (·.text) ].filter (!·.isEmpty)
  let definitions := m.definitions.toList.map fun f => stacked f.lines
  "\n\n".intercalate (sections.map stacked ++ definitions) ++ "\n"

end OwnLang.Ir
