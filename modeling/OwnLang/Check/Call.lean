import OwnLang.Check.Ownership
import OwnLang.Check.Place
import OwnLang.Core.Coerce
import OwnLang.Entity.Intrinsic

/-!
# Calls

Every argument is consumed. A method takes its receiver as a shared pointer in front of its
arguments.
-/

namespace OwnLang.Check

open Surface (Ident)

/-- Refuses a number of arguments that a parameter list does not take. -/
def requireArguments (params : Nat) (variadic : Bool) (bound received : Nat) (span : Span) :
    Check Unit :=
  if bound + received < params || (!variadic && params < bound + received) then
    Run.reject (.unexpectedArguments (params - bound) received) span
  else return ()

/-- Arguments for the parameters, any number of them if there are none left. -/
def argumentValues (ask : Asker) (scope : Scope) (params : List Ty) :
    List Surface.Expr → Check (List Core.Expr)
  | [] => return []
  | arg :: rest => do
    let value ← ask (.value arg params.head? scope)
    consume value
    return value :: (← argumentValues ask scope params.tail rest)

/-- The call of a function, with the receiver of a method in front of its arguments. -/
def callOf (ask : Asker) (callee : Core.Expr) (receiver : List Core.Expr)
    (args : List Surface.Expr) (span : Span) (scope : Scope) : Check Core.Expr := do
  match callee.type.shape with
  | .func params variadic returns => do
    requireArguments params.length variadic receiver.length args.length span
    let values ← argumentValues ask scope (params.drop receiver.length) args
    return .computed (.call callee (receiver ++ values)) returns span
  | _ => Run.reject (.notCallable callee.type.describe) callee.span

/-- The receiver of a method as its first argument. -/
def receiverArgument (ask : Asker) (method : GlobalId) (receiver : Receiver)
    (base : Surface.Expr) (member : Ident) : Check (Core.Expr × Ty) := do
  match receiver with
  | .temporary _ => Run.reject .expectedVariable base.span
  | .pointer value constant => do
    let g := (← get).global method
    if constant && g.fnKind? = some .method then
      Run.reject (.constReceiver g.display) member.span
    let t ← ask (.global method member.span)
    let this := match t.shape with
      | .func params _ _ => params.head?
      | _ => none
    match this with
    | some this => return (← Run.ofExcept (value.coerce this), t)
    | none => return (value, t)

/-- `base.member(args)`: a method, a static function, or a function that a field holds. -/
def memberCall (ask : Asker) (base : Surface.Expr) (member : Ident) (args : List Surface.Expr)
    (span : Span) (scope : Scope) : Check Core.Expr := do
  let (id, receiver) ← receiverOf ask base scope
  match ← structMember ask id member with
  | .field index => do
    let callee ← readDenoted (← fieldDenoted id index receiver member.span)
    callOf ask callee [] args span scope
  | .static function => do
    let t ← ask (.global function member.span)
    callOf ask (.computed (.function function) t member.span) [] args span scope
  | .method function => do
    let (this, t) ← receiverArgument ask function receiver base member
    callOf ask (.computed (.function function) t member.span) [this] args span scope

/-- A call. -/
def callValue (ask : Asker) (callee : Surface.Expr) (args : List Surface.Expr) (span : Span)
    (scope : Scope) : Check Core.Expr := do
  match callee.kind with
  | .member base member => memberCall ask base member args span scope
  | _ => callOf ask (← ask.anyValue callee scope) [] args span scope

/-- Arguments for the parameters of a macro, some of which have to be constant. -/
def macroArguments (ask : Asker) (scope : Scope) (params : List MacroParam) :
    List Surface.Expr → Check (List Core.Expr)
  | [] => return []
  | arg :: rest => do
    let param := params.head?
    let value ← ask (.value arg (param.map (·.type)) scope)
    if param.any (·.constant) && value.constant.isNone then
      Run.reject .expectedConstant arg.span
    consume value
    return value :: (← macroArguments ask scope params.tail rest)

/-- The macro that a path stands for, with its signature resolved. -/
def namedMacro (ask : Asker) (path : List Ident) (scope : Scope) : Check MacroId := do
  let id ← Run.ofExcept ((← get).macroOfPath path scope)
  resolveMacro ask id
  return id

/-- The use of a macro. -/
def macroValue (ask : Asker) (path : List Ident) (args : List Surface.Expr) (span : Span)
    (scope : Scope) : Check Core.Expr := do
  let id ← namedMacro ask path scope
  let m := (← get).macroDef id
  if (Intrinsic.ofPath? m.fullName).isNone then
    Run.reject (.macroWithoutBody m.fullName) span
  requireArguments m.params.length m.decl.variadic 0 args.length span
  let values ← macroArguments ask scope m.params args
  return .computed (.macroCall id values) m.returns span

end OwnLang.Check
