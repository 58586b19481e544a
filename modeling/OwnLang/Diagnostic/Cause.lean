/-!
# What can go wrong

A `Cause` says what a program did wrong, with the names and types that the message shows. Each has
a message, a class name for tools, and for some a tip on how to mend the program.
-/

namespace OwnLang

/-- Reasons to reject a program. Types are given as they are displayed. -/
inductive Cause where
  | unrecognisedToken (token : String)
  | unexpectedToken (token : String)
  | unexpectedTokenDetailed (token message : String)
  | numberParse (token : String)
  | unknownPackage (name : String)
  | undefinedVariable (name : String)
  | unknownType (name : String)
  | undefinedMacro (name : String)
  | alreadyExists (kind name : String)
  | memberNotFound (member type : String)
  | undefinedProperty (name : String)
  | missingProperty (name : String)
  | typeMismatch (expected received : String)
  | unexpectedArguments (expected received : Nat)
  | templateArity (name : String) (expected received : Nat)
  | notCallable (type : String)
  | notIndexable (type : String)
  | notDereferenceable (type : String)
  | notAStruct (type : String)
  | integerOutOfRange (value : Int) (type : String)
  | illegalType (type : String)
  | expectedConstant
  | expectedVariable
  | invalidArraySize
  | incompleteType (type : String)
  | recursiveStruct (name : String)
  | uniqueField (type : String)
  | unsizedDereference (type : String)
  | unprintableType (type : String)
  | invalidOperands (op left right : String)
  | invalidOperand (op type : String)
  | movedValue (name : String)
  | modifyConstant
  | constReceiver (method : String)
  | cannotTakeOwnership (type : String)
  | uniqueDereference (type : String)
  | missingInitializer (name : String)
  | missingReturn (function : String)
  | notInLoop (statement : String)
  | cyclicTemplate (name : String)
  | cyclicDefinition (name : String)
  | instantiationDepth (name : String) (limit : Nat)
  | notATemplate (name : String)
  | missingTemplateArguments (name : String)
  | macroWithoutBody (name : String)
  | formatArguments (expected received : Nat)
  | missingEntryPoint (name : String)
  | invalidEntryPoint (name : String)
  | unreachableCode
  | backend (message : String)
deriving DecidableEq, Inhabited

namespace Cause

/-- The class of a cause, a stable name by which tools tell diagnostics apart. -/
def className : Cause → String
  | unrecognisedToken .. => "UnrecognisedToken"
  | unexpectedToken .. => "UnexpectedToken"
  | unexpectedTokenDetailed .. => "UnexpectedTokenDetailed"
  | numberParse .. => "NumberParseError"
  | unknownPackage .. => "UnknownPackage"
  | undefinedVariable .. => "UndefinedVariable"
  | unknownType .. => "UnknownType"
  | undefinedMacro .. => "UndefinedMacro"
  | alreadyExists .. => "AlreadyExists"
  | memberNotFound .. => "MemberNotFound"
  | undefinedProperty .. => "UndefinedProperty"
  | missingProperty .. => "MissingProperty"
  | typeMismatch .. => "TypeMatchError"
  | unexpectedArguments .. => "UnexpectedArguments"
  | templateArity .. => "TemplateArity"
  | notCallable .. => "NotCallable"
  | notIndexable .. => "NotIndexable"
  | notDereferenceable .. => "NotDereferenceable"
  | notAStruct .. => "NotAStruct"
  | integerOutOfRange .. => "IntegerOutOfRange"
  | illegalType .. => "IllegalType"
  | expectedConstant => "ExpectedConstant"
  | expectedVariable => "ExpectedVariable"
  | invalidArraySize => "InvalidArraySize"
  | incompleteType .. => "IncompleteType"
  | recursiveStruct .. => "RecursiveStruct"
  | uniqueField .. => "UniqueField"
  | unsizedDereference .. => "UnsizedDereference"
  | unprintableType .. => "UnprintableType"
  | invalidOperands .. => "InvalidOperands"
  | invalidOperand .. => "InvalidOperand"
  | movedValue .. => "MovedValue"
  | modifyConstant => "ModifyConstant"
  | constReceiver .. => "ConstReceiver"
  | cannotTakeOwnership .. => "CannotTakeOwnership"
  | uniqueDereference .. => "UniqueDereference"
  | missingInitializer .. => "MissingInitializer"
  | missingReturn .. => "MissingReturn"
  | notInLoop .. => "NotInLoop"
  | cyclicTemplate .. => "CyclicTemplate"
  | cyclicDefinition .. => "CyclicDefinition"
  | instantiationDepth .. => "InstantiationDepth"
  | notATemplate .. => "NotATemplate"
  | missingTemplateArguments .. => "MissingTemplateArguments"
  | macroWithoutBody .. => "MacroWithoutBody"
  | formatArguments .. => "FormatArguments"
  | missingEntryPoint .. => "MissingEntryPoint"
  | invalidEntryPoint .. => "InvalidEntryPoint"
  | unreachableCode => "UnreachableCode"
  | backend .. => "Backend"

/-- The sentence shown to the programmer. -/
def message : Cause → String
  | unrecognisedToken token => s!"Unrecognised token: {token}"
  | unexpectedToken token => s!"Unexpected token: {token}"
  | unexpectedTokenDetailed token message => s!"Unexpected token: {token}, {message}"
  | numberParse token => s!"Invalid number: {token}"
  | unknownPackage name => s!"Unknown package '{name}'"
  | undefinedVariable name => s!"Undefined variable '{name}'"
  | unknownType name => s!"Unknown type '{name}'"
  | undefinedMacro name => s!"Undefined macro '{name}'"
  | alreadyExists kind name => s!"{kind} '{name}' already exists"
  | memberNotFound member type => s!"Member '{member}' doesn't exist on '{type}'"
  | undefinedProperty name => s!"Undefined property '{name}'"
  | missingProperty name => s!"Property '{name}' has to be initialized"
  | typeMismatch expected received => s!"Expected '{expected}' but found '{received}'"
  | unexpectedArguments expected received =>
    s!"Expected {expected} argument(s) but found {received}"
  | templateArity name expected received =>
    s!"Template '{name}' expects {expected} type argument(s) but found {received}"
  | notCallable type => s!"Cannot call an object of type '{type}'"
  | notIndexable type => s!"Expected array but found '{type}'"
  | notDereferenceable type => s!"Expected pointer but found '{type}'"
  | notAStruct type => s!"Expected struct but found '{type}'"
  | integerOutOfRange value type => s!"{value} cannot be stored in {type}"
  | illegalType type => s!"Illegal object type '{type}'"
  | expectedConstant => "Expected constant"
  | expectedVariable => "Expected variable"
  | invalidArraySize => "Array size must be a non-negative integer constant"
  | incompleteType type => s!"Cannot use incomplete type '{type}' by value"
  | recursiveStruct name => s!"Struct '{name}' contains itself by value"
  | uniqueField type => s!"Properties cannot be of unique type '{type}'"
  | unsizedDereference type => s!"Cannot dereference pointer to unsized array '{type}'"
  | unprintableType type => s!"Cannot print objects of type '{type}'"
  | invalidOperands op left right =>
    s!"Operator '{op}' cannot be applied to '{left}' and '{right}'"
  | invalidOperand op type => s!"Operator '{op}' cannot be applied to '{type}'"
  | movedValue name => s!"Cannot use moved value '{name}'"
  | modifyConstant => "Cannot modify constant"
  | constReceiver method => s!"Cannot call non-const method '{method}' on a constant receiver"
  | cannotTakeOwnership type => s!"Cannot store unique value of type '{type}' here"
  | uniqueDereference type => s!"Cannot copy unique object of type '{type}' out of a pointer"
  | missingInitializer name => s!"Variable '{name}' of unique type has to be initialized"
  | missingReturn function => s!"Function '{function}' has to return a value"
  | notInLoop statement => s!"'{statement}' is not in a loop"
  | cyclicTemplate name => s!"Cyclic instantiation of template '{name}'"
  | cyclicDefinition name => s!"'{name}' depends on itself"
  | instantiationDepth name limit =>
    s!"Template instantiation depth of {limit} exceeded while instantiating '{name}'"
  | notATemplate name => s!"'{name}' is not a template"
  | missingTemplateArguments name => s!"Template '{name}' needs type arguments"
  | macroWithoutBody name => s!"Macro '{name}' doesn't have a body"
  | formatArguments expected received =>
    s!"Format string expects {expected} argument(s) but found {received}"
  | missingEntryPoint name => s!"Entry point '{name}' not found"
  | invalidEntryPoint name =>
    s!"Entry point '{name}' must take no parameters and return i32 or void"
  | unreachableCode => "Unreachable code"
  | backend message => s!"Code generation failed: {message}"

/-- A hint on what to change, where there is a usual one. -/
def tip? : Cause → Option String
  | unexpectedToken token =>
    some s!"Unexpected token: `{token}`, did you miss a semicolon?"
  | unexpectedTokenDetailed token message => some s!"Unexpected token: `{token}`, {message}"
  | numberParse token => some s!"Invalid number: `{token}`, is it above the integer limit?"
  | movedValue name => some s!"share `{name}` with `#{name}` instead of moving it"
  | constReceiver method =>
    some s!"declare `{method}` as `const fn` or call it on a mutable value"
  | missingReturn _ => some "every path through a non-void function must end in `return`"
  | incompleteType _ => some "use a pointer to refer to it before it is complete"
  | notInLoop _ => some "labels are written `while @name (...)` and `break @name`"
  | _ => none

end Cause

end OwnLang
