import OwnLang.Check.Context

/-!
# Questions of checking

Types hold array sizes, sizes are expressions, and expressions name types, templates and other
entities; so the parts of checking refer to one another without end. Each part is written over
`ask`, which answers any `Query`, and `Check.answer` ties the parts together by answering queries
to a bounded nesting depth.
-/

namespace OwnLang

/-- What an expression denotes: a location, or only a value. -/
inductive Denoted where
  | place (place : Core.Place)
  | value (value : Core.Expr)

/-- What one part of checking can ask of another. -/
inductive Query where
  /-- The value of an expression, converted to the expected type. -/
  | value (e : Surface.Expr) (expected : Option Ty) (scope : Scope)
  /-- What an expression denotes; `write` marks the target of an assignment. -/
  | denoted (e : Surface.Expr) (write : Bool) (scope : Scope)
  | type (t : Surface.TypeExpr) (scope : Scope)
  /-- The type that an alias names. -/
  | typeAlias (id : AliasId) (usedAt : Span)
  /-- Asks that the fields of a struct be resolved. -/
  | layout (id : StructId) (usedAt : Span)
  /-- The type of a function or variable. -/
  | global (id : GlobalId) (usedAt : Span)
  | stmt (s : Surface.Stmt) (scope : Scope)
  /-- A block in a scope of its own, with the state at its end. -/
  | block (b : Surface.Block) (scope : Scope)

/-- The answers to a query. -/
abbrev Query.Answer : Query → Type
  | value .. => Core.Expr
  | denoted .. => Denoted
  | type .. => Ty
  | typeAlias .. => Ty
  | layout .. => Unit
  | global .. => Ty
  | stmt .. => Core.Stmt
  | block .. => Core.Block × BlockFrame

/-- Answers to all queries. -/
abbrev Asker : Type := (q : Query) → Check q.Answer

namespace Asker

variable (ask : Asker)

/-- The value of an expression that no type is expected of. -/
abbrev anyValue (e : Surface.Expr) (scope : Scope) : Check Core.Expr := ask (.value e none scope)

/-- The value of an expression, converted to a type. -/
abbrev valueOf (e : Surface.Expr) (expected : Ty) (scope : Scope) : Check Core.Expr :=
  ask (.value e (some expected) scope)

/-- The types of a list, each resolved in turn. -/
def types (written : List Surface.TypeExpr) (scope : Scope) : Check (List Ty) :=
  written.mapM fun t => ask (.type t scope)

/-- Completes the struct that a type contains by value. -/
def complete (t : Ty) (span : Span) : Check Unit :=
  match t.heldStruct? with
  | some id => ask (.layout id span)
  | none => return ()

end Asker

/-- Refuses the types that nothing can hold. -/
def requireValueType (t : Ty) (span : Span) : Check Unit :=
  if t.shape.isVoid then Run.reject (.illegalType t.describe) span else return ()

end OwnLang
