import OwnLang.Check.Lookup
import OwnLang.Check.Template

/-!
# Resolving types

A name stands for a parameter of the template that is being instantiated, a built-in type, or a
member of a package. An array's size is the constant value of its expression, and the elements of a
sized array have to be complete.
-/

namespace OwnLang.Check

open Surface (Ident TypeExpr)

/-- The type of a name without arguments that is no member of a package. -/
def localType? (path : List Ident) (args : List TypeExpr) (scope : Scope) : Option Ty :=
  match path, args with
  | [name], [] => (scope.bindings.lookup name.name).or ((Shape.builtin? name.name).map (·.plain))
  | _, _ => none

/-- A named type. -/
def namedType (ask : Asker) (path : List Ident) (args : List TypeExpr) (span : Span)
    (scope : Scope) : Check Ty := do
  if let some t := localType? path args scope then
    return t
  let name := Ident.pathText path
  match ← Run.ofExcept ((← get).memberOfPath path scope) with
  | some (.struct id) =>
    if args.isEmpty then return (← get).structType id
    else Run.reject (.notATemplate name) span
  | some (.typeAlias id) =>
    if args.isEmpty then ask (.typeAlias id span)
    else Run.reject (.notATemplate name) span
  | some (.template id) =>
    if args.isEmpty then
      Run.reject (.missingTemplateArguments name) span
    else
      let types ← ask.types args scope
      match ← instantiate ask id types span with
      | .struct id => return (← get).structType id
      | .global _ => Run.reject (.unknownType name) span
  | some (.global _) | none => Run.reject (.unknownType name) span

/-- The size of an array, a constant that is not negative. -/
def arraySize (ask : Asker) (size : Surface.Expr) (scope : Scope) : Check Nat := do
  let value ← ask.valueOf size Shape.i64.plain scope
  match value.constant with
  | some (.int n) => if 0 ≤ n then return n.toNat else Run.reject .invalidArraySize size.span
  | _ => Run.reject .invalidArraySize size.span

/-- An array type. -/
def arrayType (ask : Asker) (element : TypeExpr) (constant : Bool) (size : Option Surface.Expr)
    (scope : Scope) : Check Ty := do
  let held ← ask (.type element scope)
  requireValueType held element.span
  match size with
  | none => return (Shape.array held constant none).plain
  | some size => do
    let n ← arraySize ask size scope
    ask.complete held element.span
    return (Shape.array held constant (some n)).plain

/-- The type that is written. -/
def resolveType (ask : Asker) (t : TypeExpr) (scope : Scope) : Check Ty := do
  match t.kind with
  | .named path args => namedType ask path args t.span scope
  | .owner target constant => return (Shape.owner (← ask (.type target scope)) constant).plain
  | .shared target constant => return (Shape.shared (← ask (.type target scope)) constant).plain
  | .array element constant size => arrayType ask element constant size scope
  | .func params variadic returns => do
    let params ← ask.types params scope
    return (Shape.func params variadic (← ask (.type returns scope))).plain

/-- A type annotation, where there is one. -/
def resolveAnnotation (ask : Asker) (t : Option TypeExpr) (scope : Scope) : Check (Option Ty) :=
  match t with
  | none => return none
  | some t => some <$> ask (.type t scope)

end OwnLang.Check
