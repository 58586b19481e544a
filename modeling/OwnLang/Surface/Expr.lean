import OwnLang.Source.Span

/-!
# Expressions and types as written

The nodes of a parsed program, each with the span of its text. Expressions and types are one
family: types hold array sizes, and expressions hold type arguments.
-/

namespace OwnLang.Surface

/-- A name and its place. -/
structure Ident where
  name : String
  span : Span
deriving DecidableEq, Inhabited

namespace Ident

/-- A path `a::b::c` as it is written. -/
def pathText (path : List Ident) : String := "::".intercalate (path.map (·.name))

/-- The span of a path, from its first to its last name. -/
def pathSpan : List Ident → Span
  | [] => .null
  | first :: rest => first.span.upTo ((rest.getLast?.getD first).span)

end Ident

/-- Binary operators. -/
inductive BinaryOp where
  | add | sub | mul | div | rem
  | eq | ne | lt | le | gt | ge
  | and | or
deriving DecidableEq, Inhabited

namespace BinaryOp

/-- The spelling of an operator. -/
def symbol : BinaryOp → String
  | add => "+"
  | sub => "-"
  | mul => "*"
  | div => "/"
  | rem => "%"
  | eq => "=="
  | ne => "!="
  | lt => "<"
  | le => "<="
  | gt => ">"
  | ge => ">="
  | and => "&&"
  | or => "||"

/-- Operators that compare two values. -/
def isComparison : BinaryOp → Bool
  | eq | ne | lt | le | gt | ge => true
  | _ => false

/-- Operators that evaluate their right operand only if the left one does not decide. -/
def isLogical : BinaryOp → Bool
  | and | or => true
  | _ => false

/-- Operators that make an integer of two integers. -/
def isArithmetic (op : BinaryOp) : Bool := !op.isComparison && !op.isLogical

end BinaryOp

/-- The operators that an assignment can be written with. -/
structure ArithmeticOp where
  binary : BinaryOp
  isArithmetic : binary.isArithmetic

/-- The spelling of an operator without the `=` behind it. -/
def ArithmeticOp.symbol (op : ArithmeticOp) : String := op.binary.symbol

/-- Operators in front of one operand. -/
inductive UnaryOp where
  | neg | not
deriving DecidableEq, Inhabited

/-- The spelling of an operator. -/
def UnaryOp.symbol : UnaryOp → String
  | neg => "-"
  | not => "!"

mutual

/-- An expression and its place. -/
inductive Expr where
  | mk (kind : ExprKind) (span : Span)

/-- The forms of expressions. -/
inductive ExprKind where
  | number (value : Nat)
  | bool (value : Bool)
  | str (text : String)
  /-- A variable, function or static member; `args` pick an instance of a template. -/
  | path (path : List Ident) (args : List TypeExpr)
  | call (callee : Expr) (args : List Expr)
  | macroCall (path : List Ident) (args : List Expr)
  | binary (op : BinaryOp) (left right : Expr)
  | unary (op : UnaryOp) (operand : Expr)
  /-- `&x`, or `&const x`. -/
  | ref (target : Expr) (constant : Bool)
  /-- `*p` -/
  | deref (pointer : Expr)
  /-- `#p`, a shared pointer to what an owner holds. -/
  | share (owner : Expr)
  | index (base index : Expr)
  | member (base : Expr) (name : Ident)
  /-- `new T(v)` -/
  | new (type : TypeExpr) (value : Expr)
  /-- `T{a: v}`, with `new` in front if `heap`. -/
  | structInit (type : TypeExpr) (fields : List (Ident × Expr)) (heap : Bool)
  /-- `[]T{a, b}` -/
  | arrayInit (element : TypeExpr) (values : List Expr) (heap : Bool)
  /-- `[n]T{v}` -/
  | arrayFill (element : TypeExpr) (size value : Expr) (heap : Bool)

/-- A type and its place. -/
inductive TypeExpr where
  | mk (kind : TypeKind) (span : Span)

/-- The forms of types. -/
inductive TypeKind where
  /-- A built-in type, struct, alias or template parameter, with template arguments. -/
  | named (path : List Ident) (args : List TypeExpr)
  /-- `&T` -/
  | owner (target : TypeExpr) (constant : Bool)
  /-- `*T` -/
  | shared (target : TypeExpr) (constant : Bool)
  /-- `T[]`, or `T[n]`. -/
  | array (element : TypeExpr) (constant : Bool) (size : Option Expr)
  /-- `(A, B, ...): R` -/
  | func (params : List TypeExpr) (variadic : Bool) (returns : TypeExpr)

end

instance : Inhabited Expr := ⟨.mk (.bool false) .null⟩
instance : Inhabited TypeExpr := ⟨.mk (.named [] []) .null⟩

namespace Expr

/-- The form of an expression. -/
def kind : Expr → ExprKind
  | mk kind _ => kind

/-- The place of an expression. -/
def span : Expr → Span
  | mk _ span => span

/-- The same expression at another place, such as that of the parentheses around it. -/
def withSpan (e : Expr) (span : Span) : Expr := mk e.kind span

end Expr

namespace TypeExpr

/-- The form of a type. -/
def kind : TypeExpr → TypeKind
  | mk kind _ => kind

/-- The place of a type. -/
def span : TypeExpr → Span
  | mk _ span => span

/-- The same type at another place. -/
def withSpan (t : TypeExpr) (span : Span) : TypeExpr := mk t.kind span

end TypeExpr

end OwnLang.Surface
