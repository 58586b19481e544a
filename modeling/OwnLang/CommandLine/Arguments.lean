import OwnLang.Options
import OwnLang.Source.Decimal

/-!
# Arguments

`Request.ofArgs?` reads the arguments of the program. Long options take their value behind `=` or as
the next argument, short ones in the same argument or as the next one. An option may be given once;
a value does not start with `-`, unless it is `-` alone; all arguments behind `--` are inputs.
-/

namespace OwnLang.CommandLine

/-- What a compilation is told on the command line. -/
structure Arguments where
  /-- Files, or directories that hold some. -/
  inputs : List String := []
  /-- The name of the emitted module, before its extension is set. -/
  output : Option String := none
  /-- Whether nothing is made of the emitted module. -/
  emitIr : Bool := false
  noStd : Bool := false
  maxTemplateDepth : Option Nat := none
  /-- Whether `-W error` was given. -/
  warningsAsErrors : Bool := false
deriving DecidableEq, Inhabited

namespace Arguments

/-- Where the module goes if nothing else is said. -/
def defaultOutput : String := "out"

/-- The options of the compilation. -/
def options (a : Arguments) : Options :=
  { includeStd := !a.noStd
    warningsAsErrors := a.warningsAsErrors
    maxInstantiationDepth := a.maxTemplateDepth.getD ({} : Options).maxInstantiationDepth }

end Arguments

/-- What the program is asked for. -/
inductive Request where
  | compile (arguments : Arguments)
  | help
  | version
deriving DecidableEq, Inhabited

/-- The options that take a value. -/
inductive Valued where
  | output
  | maxTemplateDepth
  | warnings

/-- The options that take none. -/
inductive Plain where
  | emitIr
  | noStd

/-- The options. -/
inductive Switch where
  | valued (option : Valued)
  | plain (option : Plain)
  | help
  | version

/-- The option of a long name. -/
def Switch.ofLong? : String → Option Switch
  | "output" => some (valued .output)
  | "max-template-depth" => some (valued .maxTemplateDepth)
  | "emit-ir" => some (plain .emitIr)
  | "no-std" => some (plain .noStd)
  | "help" => some help
  | "version" => some version
  | _ => none

/-- The option of a short name. -/
def Switch.ofShort? : Char → Option Switch
  | 'o' => some (valued .output)
  | 'W' => some (valued .warnings)
  | 'h' => some help
  | 'V' => some version
  | _ => none

/-- A count of 64 bits in decimal digits, perhaps behind a plus sign. -/
def count? (text : String) : Option Nat :=
  let digits := match text.toList with
    | '+' :: rest => rest
    | all => all
  if digits.isEmpty || !digits.all (·.isDigit) then none
  else
    let n := decimalValue digits
    if n < wordBound then some n else none

/-- The arguments with the value of an option, if it is one and the first. -/
def Arguments.withValue? (a : Arguments) (option : Valued) (value : String) : Option Arguments :=
  match option with
  | .output => if value.isEmpty || a.output.isSome then none else some { a with output := value }
  | .maxTemplateDepth =>
    if a.maxTemplateDepth.isSome then none
    else (count? value).map fun n => { a with maxTemplateDepth := some n }
  | .warnings =>
    if value != "error" || a.warningsAsErrors then none
    else some { a with warningsAsErrors := true }

/-- The arguments with an option, if it is the first of its name. -/
def Arguments.withPlain? (a : Arguments) (option : Plain) : Option Arguments :=
  match option with
  | .emitIr => if a.emitIr then none else some { a with emitIr := true }
  | .noStd => if a.noStd then none else some { a with noStd := true }

/-- The arguments with one more input. -/
def Arguments.withInput? (a : Arguments) (input : String) : Option Arguments :=
  if input.isEmpty then none else some { a with inputs := a.inputs ++ [input] }

/-- One argument, taken by itself. -/
inductive Argument where
  | input (text : String)
  /-- An option with the value that stands in the same argument. -/
  | switch (option : Switch) (value : Option String)
  /-- `--` -/
  | inputsOnly
  | unknown

/-- A long option, with its value behind `=`. -/
def Argument.ofLong (text : List Char) : Argument :=
  let value := match text.dropWhile (· != '=') with
    | [] => none
    | _ :: rest => some (String.ofList rest)
  match Switch.ofLong? (String.ofList (text.takeWhile (· != '='))) with
  | some option => .switch option value
  | none => .unknown

/-- A short option, with its value behind it. -/
def Argument.ofShort (name : Char) (rest : List Char) : Argument :=
  let value := match rest with
    | [] => none
    | '=' :: value => some (String.ofList value)
    | value => some (String.ofList value)
  match Switch.ofShort? name with
  | some option => .switch option value
  | none => .unknown

/-- Reads one argument. -/
def Argument.ofText (text : String) : Argument :=
  match text.toList with
  | ['-', '-'] => .inputsOnly
  | '-' :: '-' :: rest => .ofLong rest
  | '-' :: name :: rest => .ofShort name rest
  | _ => .input text

/-- Whether an argument can be the value of the option in front of it. -/
def isValue (text : String) : Bool :=
  match Argument.ofText text with
  | .input _ => true
  | _ => false

namespace Request

/-- The request for a compilation, which needs an input. -/
def ofArguments? (a : Arguments) : Option Request :=
  if a.inputs.isEmpty then none else some (.compile a)

/-- Reads the arguments that are left. -/
def ofArgsFrom? (a : Arguments) : List String → Option Request
  | [] => ofArguments? a
  | text :: rest =>
    match Argument.ofText text with
    | .input _ => (a.withInput? text).bind fun b => ofArgsFrom? b rest
    | .inputsOnly => (rest.foldlM Arguments.withInput? a).bind ofArguments?
    | .switch .help none => some .help
    | .switch .version none => some .version
    | .switch (.plain option) none => (a.withPlain? option).bind fun b => ofArgsFrom? b rest
    | .switch (.valued option) (some value) =>
      (a.withValue? option value).bind fun b => ofArgsFrom? b rest
    | .switch (.valued option) none =>
      match rest with
      | value :: rest =>
        if isValue value then (a.withValue? option value).bind fun b => ofArgsFrom? b rest
        else none
      | [] => none
    | .switch _ _ | .unknown => none

/-- What the arguments of the program ask for, if it understands them. -/
def ofArgs? (args : List String) : Option Request := ofArgsFrom? {} args

end Request

end OwnLang.CommandLine
