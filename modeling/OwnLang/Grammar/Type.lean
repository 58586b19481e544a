import OwnLang.Grammar.Rule

/-!
# Reading types

Named types with template arguments, pointers, arrays, function types and types in parentheses. A
pointer's sigil binds looser than an array's brackets, so `*i32[]` is a pointer to an array.
-/

namespace OwnLang.Grammar

open Surface Parse

/-- The names of a path behind its first one. -/
def pathRest : Parse (List Ident) :=
  collect do
    if ← eat .colonColon then return some (← ident) else return none

/-- A path `a::b::c`. -/
def path : Parse (List Ident) := do
  let first ← ident
  return first :: (← pathRest)

/-- The start of a path. -/
def pathStart (names : List Ident) : Span := (names.head?.map (·.span)).getD .null

/-- Template arguments `<T, U>`. -/
def typeArguments (sub : Readers) : Parse (List TypeExpr) := do
  let _ ← expect .less
  let args ← commaSeparated sub.wholeType
  let _ ← expect .greater
  return args

/-- A type that starts with a name. -/
def namedType (sub : Readers) : Parse TypeExpr := do
  let names ← path
  let args ← if (← kind) = .less then typeArguments sub else pure []
  return .mk (.named names args) (← spanFrom (pathStart names))

/-- A pointer type, at its sigil. -/
def pointerType (sub : Readers) (constant : Bool) : Parse TypeExpr := do
  let sigil ← advance
  let target ← sub (.type .unary)
  let span := sigil.span.upTo target.span
  if sigil.kind = .ampersand then return .mk (.owner target constant) span
  else return .mk (.shared target constant) span

/-- `const` in front of a pointer or an array. -/
def constType (sub : Readers) : Parse TypeExpr := do
  let start ← advance
  let type ← match ← kind with
    | .ampersand | .star => pointerType sub true
    | _ => do
      let inner ← sub (.type .unary)
      match inner.kind with
      | .array element _ size => pure (.mk (.array element true size) inner.span)
      | _ => unexpected "`const` applies to pointers and arrays only"
  return type.withSpan (← spanFrom start.span)

/-- A type in parentheses, or a function type. -/
def parenthesisedType (sub : Readers) : Parse TypeExpr := do
  let start ← advance
  let (params, variadic) ← parameters sub.wholeType
  if ← eat .colon then
    let returns ← sub (.type .unary)
    return .mk (.func params variadic returns) (← spanFrom start.span)
  match params, variadic with
  | [inner], false => return inner.withSpan (← spanFrom start.span)
  | _, _ => unexpected "expected `:` and a return type after function parameters"

/-- The brackets of an array type behind its element type. -/
def arraySuffix (sub : Readers) (element : TypeExpr) : Parse TypeExpr := do
  let _ ← expect .openBracket
  let size ← if (← kind) = .closeBracket then pure none else some <$> sub.wholeExpr
  let _ ← expect .closeBracket
  return .mk (.array element false size) (← spanFrom element.span)

/-- The part of a type that no suffix belongs to. -/
def typeOperand (sub : Readers) : Parse TypeExpr := do
  match ← kind with
  | .identifier => namedType sub
  | .ampersand | .star => pointerType sub false
  | .kwConst => constType sub
  | .openParen => parenthesisedType sub
  | _ => unexpected "expected type"

/-- A type and all suffixes that bind tighter than `power`. -/
def type (sub : Readers) (power : Power) : Parse TypeExpr := do
  let operand ← typeOperand sub
  iterate (fun left => do
    if (← kind) = .openBracket ∧ Power.call.tighter power then some <$> arraySuffix sub left
    else return none) operand

end OwnLang.Grammar
