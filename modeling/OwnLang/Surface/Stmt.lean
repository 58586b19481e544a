import OwnLang.Surface.Expr

/-!
# Statements as written
-/

namespace OwnLang.Surface

/-- A `var` or `const` declaration of a local, a global or a field. -/
structure VarDecl where
  name : Ident
  constant : Bool
  type : Option TypeExpr
  value : Option Expr

mutual

/-- A statement and its place. -/
inductive Stmt where
  | mk (kind : StmtKind) (span : Span)

/-- The forms of statements. -/
inductive StmtKind where
  | decl (decl : VarDecl)
  /-- `target = value`, or `target op= value`. -/
  | assign (target : Expr) (op : Option ArithmeticOp) (value : Expr)
  | expr (value : Expr)
  | ret (value : Option Expr)
  | brk (label : Option Ident)
  | cont (label : Option Ident)
  | cond (branches : List (Expr × Block)) (otherwise : Option Block)
  | loop (label : Option Ident) (condition : Expr) (body : Block)
  | forLoop (label : Option Ident) (init : Option Stmt) (condition : Option Expr)
      (step : Option Stmt) (body : Block)
  | scope (block : Block)

/-- The statements between two curly brackets. -/
inductive Block where
  | mk (stmts : List Stmt) (span : Span)

end

instance : Inhabited Block := ⟨.mk [] .null⟩
instance : Inhabited Stmt := ⟨.mk (.ret none) .null⟩

namespace Stmt

/-- The form of a statement. -/
def kind : Stmt → StmtKind
  | mk kind _ => kind

/-- The place of a statement. -/
def span : Stmt → Span
  | mk _ span => span

end Stmt

namespace Block

/-- The statements of a block. -/
def stmts : Block → List Stmt
  | mk stmts _ => stmts

/-- The place of a block, its brackets included. -/
def span : Block → Span
  | mk _ span => span

end Block

end OwnLang.Surface
