import OwnLang.Core.Expr

/-!
# Checked statements

Statements with their release lists: the unique values that have to be freed where control leaves
the blocks that own them.
-/

namespace OwnLang.Core

mutual

/-- A statement; one that no execution reaches is checked but not emitted. -/
inductive Stmt where
  | mk (kind : StmtKind) (span : Span) (unreachable : Bool)

/-- The forms of statements. -/
inductive StmtKind where
  | declare (target : LocalId) (value : Option Expr)
  /-- `releasePrior` tells that the target owns a value, which is freed first. -/
  | assign (target : Place) (value : Expr) (releasePrior : Bool)
  /-- `release` tells that nobody takes the unique value. -/
  | expr (value : Expr) (release : Bool)
  | ret (value : Option Expr) (drops : List LocalId)
  | brk (target : LoopId) (drops : List LocalId)
  | cont (target : LoopId) (drops : List LocalId)
  | cond (branches : List (Expr × Block)) (otherwise : Option Block)
  /-- Without a condition the loop goes on forever; `exitDrops` are those of its header. -/
  | loop (id : LoopId) (init : Option Stmt) (condition : Option Expr) (step : Option Stmt)
      (body : Block) (exitDrops : List LocalId)
  | scope (block : Block)

/-- Statements, and what is freed where control reaches their end. -/
inductive Block where
  | mk (stmts : List Stmt) (drops : List LocalId)

end

instance : Inhabited Block := ⟨.mk [] []⟩

namespace Stmt

/-- The form of a statement. -/
def kind : Stmt → StmtKind
  | mk kind _ _ => kind

/-- Where a statement was written. -/
def span : Stmt → Span
  | mk _ span _ => span

/-- Whether no execution reaches a statement. -/
def unreachable : Stmt → Bool
  | mk _ _ unreachable => unreachable

/-- The same statement, reachable or not. -/
def flagged (s : Stmt) (unreachable : Bool) : Stmt := mk s.kind s.span unreachable

end Stmt

namespace Block

/-- The statements of a block. -/
def stmts : Block → List Stmt
  | mk stmts _ => stmts

/-- What a block frees at its end. -/
def drops : Block → List LocalId
  | mk _ drops => drops

end Block

end OwnLang.Core
