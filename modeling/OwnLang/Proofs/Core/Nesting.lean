import OwnLang.Core.Stmt

/-!
# Parts of a tree

`Block.Every` says of a tree that a property holds of all its statements, and another one of all its
blocks, however deep they stand. The properties may speak of where the part stands in the tree. In a
tree that is nested (`Stmt.Nested`), a jump leads to a loop around it, and no loop has the identity of a
loop around it. In one that is pruned (`Stmt.Pruned`), what stands behind a statement that jumps is flagged
as unreachable, so no statement that is emitted stands behind a jump.
-/

namespace OwnLang.Core

/-- Where a part of a tree stands: in how many blocks, the headers of loops counted, and in which
loops. A loop comes with the number of blocks around its body, the innermost loop in front. -/
structure Nest where
  depth : Nat
  loops : List (LoopId × Nat)

namespace Nest

/-- One block deeper. -/
def inBlock (nest : Nest) : Nest := { nest with depth := nest.depth + 1 }

/-- In the body of a loop whose header is here. -/
def inLoop (nest : Nest) (id : LoopId) : Nest := { nest with loops := (id, nest.depth) :: nest.loops }

end Nest

mutual

/-- All statements and blocks of a statement. -/
def Stmt.Every (S : Nest → Stmt → Prop) (B : Nest → Block → Prop) (nest : Nest) : Stmt → Prop
  | .mk kind span unreachable => S nest (.mk kind span unreachable) ∧ kind.Every S B nest

/-- All statements and blocks inside a form of a statement. The parts of a loop stand in the block of
its header, those that it repeats in the loop. -/
def StmtKind.Every (S : Nest → Stmt → Prop) (B : Nest → Block → Prop) (nest : Nest) :
    StmtKind → Prop
  | .declare _ _ | .assign _ _ _ | .expr _ _ | .ret _ _ | .brk _ _ | .cont _ _ => True
  | .cond branches otherwise => branchesEvery S B nest branches ∧ otherwiseEvery S B nest otherwise
  | .loop id init _ step body _ =>
    optionalEvery S B nest.inBlock init ∧ optionalEvery S B (nest.inBlock.inLoop id) step ∧
      body.Every S B (nest.inBlock.inLoop id)
  | .scope block => block.Every S B nest

/-- All statements and blocks of a block. -/
def Block.Every (S : Nest → Stmt → Prop) (B : Nest → Block → Prop) (nest : Nest) : Block → Prop
  | .mk stmts drops => B nest (.mk stmts drops) ∧ stmtsEvery S B nest.inBlock stmts

/-- All statements and blocks of a list of statements. -/
def stmtsEvery (S : Nest → Stmt → Prop) (B : Nest → Block → Prop) (nest : Nest) : List Stmt → Prop
  | [] => True
  | s :: rest => s.Every S B nest ∧ stmtsEvery S B nest rest

/-- All statements and blocks of branches with conditions. -/
def branchesEvery (S : Nest → Stmt → Prop) (B : Nest → Block → Prop) (nest : Nest) :
    List (Expr × Block) → Prop
  | [] => True
  | (_, body) :: rest => body.Every S B nest ∧ branchesEvery S B nest rest

/-- All statements and blocks of a branch without a condition. -/
def otherwiseEvery (S : Nest → Stmt → Prop) (B : Nest → Block → Prop) (nest : Nest) :
    Option Block → Prop
  | none => True
  | some body => body.Every S B nest

/-- All statements and blocks of a statement that may be missing. -/
def optionalEvery (S : Nest → Stmt → Prop) (B : Nest → Block → Prop) (nest : Nest) :
    Option Stmt → Prop
  | none => True
  | some s => s.Every S B nest

end

/-! ## Nested loops -/

mutual

/-- A statement inside the loops `around` it is nested. -/
def Stmt.Nested (around : List LoopId) : Stmt → Prop
  | .mk kind _ _ => kind.Nested around

/-- A form of a statement is nested. A loop is around its step, but not around its header. -/
def StmtKind.Nested (around : List LoopId) : StmtKind → Prop
  | .declare _ _ | .assign _ _ _ | .expr _ _ | .ret _ _ => True
  | .brk target _ | .cont target _ => target ∈ around
  | .cond branches otherwise => branchesNested around branches ∧ otherwiseNested around otherwise
  | .loop id init _ step body _ =>
    id ∉ around ∧ optionalNested around init ∧ optionalNested (id :: around) step ∧
      body.Nested (id :: around)
  | .scope block => block.Nested around

/-- A block is nested. -/
def Block.Nested (around : List LoopId) : Block → Prop
  | .mk stmts _ => stmtsNested around stmts

/-- Statements are nested. -/
def stmtsNested (around : List LoopId) : List Stmt → Prop
  | [] => True
  | s :: rest => s.Nested around ∧ stmtsNested around rest

/-- Branches with conditions are nested. -/
def branchesNested (around : List LoopId) : List (Expr × Block) → Prop
  | [] => True
  | (_, body) :: rest => body.Nested around ∧ branchesNested around rest

/-- A branch without a condition is nested. -/
def otherwiseNested (around : List LoopId) : Option Block → Prop
  | none => True
  | some body => body.Nested around

/-- A statement that may be missing is nested. -/
def optionalNested (around : List LoopId) : Option Stmt → Prop
  | none => True
  | some s => s.Nested around

end

/-! ## Pruned trees -/

mutual

/-- Whether control jumps wherever a statement is reached. -/
def Stmt.jumps : Stmt → Bool
  | .mk kind _ _ => kind.jumps

/-- Whether a form of a statement jumps. Code for an `if` or a loop always goes on behind it. -/
def StmtKind.jumps : StmtKind → Bool
  | .declare _ _ | .assign _ _ _ | .expr _ _ | .cond _ _ | .loop _ _ _ _ _ _ => false
  | .ret _ _ | .brk _ _ | .cont _ _ => true
  | .scope block => block.jumps

/-- Whether control jumps ahead of the end of a block. -/
def Block.jumps : Block → Bool
  | .mk stmts _ => stmtsJump stmts

/-- Whether control jumps at one of the statements that are not flagged. -/
def stmtsJump : List Stmt → Bool
  | [] => false
  | s :: rest => (!s.unreachable && s.jumps) || stmtsJump rest

end

/-- Statements that are all flagged as unreachable. -/
def Unreached (stmts : List Stmt) : Prop := ∀ s ∈ stmts, s.unreachable = true

mutual

/-- A statement is pruned. -/
def Stmt.Pruned : Stmt → Prop
  | .mk kind _ _ => kind.Pruned

/-- A form of a statement is pruned. -/
def StmtKind.Pruned : StmtKind → Prop
  | .declare _ _ | .assign _ _ _ | .expr _ _ | .ret _ _ | .brk _ _ | .cont _ _ => True
  | .cond branches otherwise => branchesPruned branches ∧ otherwisePruned otherwise
  | .loop _ init _ step body _ => optionalPruned init ∧ optionalPruned step ∧ body.Pruned
  | .scope block => block.Pruned

/-- A block is pruned. -/
def Block.Pruned : Block → Prop
  | .mk stmts _ => stmtsPruned stmts

/-- What follows a statement that jumps is flagged. -/
def stmtsPruned : List Stmt → Prop
  | [] => True
  | s :: rest =>
    s.Pruned ∧ (s.unreachable = false → s.jumps = true → Unreached rest) ∧ stmtsPruned rest

/-- Branches with conditions are pruned. -/
def branchesPruned : List (Expr × Block) → Prop
  | [] => True
  | (_, body) :: rest => body.Pruned ∧ branchesPruned rest

/-- A branch without a condition is pruned. -/
def otherwisePruned : Option Block → Prop
  | none => True
  | some body => body.Pruned

/-- A statement that may be missing is pruned. -/
def optionalPruned : Option Stmt → Prop
  | none => True
  | some s => s.Pruned

end

/-- It does not matter for a statement itself whether it is reached. -/
theorem Stmt.jumps_flagged (s : Stmt) (dead : Bool) : (s.flagged dead).jumps = s.jumps := by
  cases s
  rfl

theorem Stmt.Pruned.flagged {s : Stmt} (h : s.Pruned) (dead : Bool) : (s.flagged dead).Pruned := by
  cases s
  exact h

/-- A `return` that is put behind statements which do not jump. -/
theorem stmtsPruned_append {stmts tail : List Stmt} (h : stmtsPruned stmts) (htail : stmtsPruned tail)
    (hjump : stmtsJump stmts = true → Unreached tail) : stmtsPruned (stmts ++ tail) := by
  induction stmts with
  | nil => exact htail
  | cons s rest ih =>
    refine ⟨h.1, fun hs hjumps => ?_, ih h.2.2 fun hrest => hjump ?_⟩
    · refine List.forall_mem_append.mpr ⟨h.2.1 hs hjumps, hjump ?_⟩
      rw [stmtsJump, hs, hjumps]
      rfl
    · rw [stmtsJump, hrest, Bool.or_true]

end OwnLang.Core
