import OwnLang.Grammar.Cursor
import OwnLang.Surface.Item

/-!
# Binding powers and the nonterminals

The grammar of expressions and types is one of operators with binding powers: `expr p` reads an
operand and every operator behind it that binds tighter than `p`.

Nonterminals refer to one another. Each is written over `sub`, which reads any nonterminal, and
`Grammar.rule` ties them together: it gives the grammar itself in the place of `sub`, to a bounded
nesting depth.
-/

namespace OwnLang

/-- How tightly an operator binds, from `lowest` on upwards. -/
inductive Power where
  | lowest
  | comma
  | logical
  | relational
  | additive
  | multiplicative
  | unary
  | call
  | member
  | primary
deriving DecidableEq, Inhabited

namespace Power

/-- The rank of a power. -/
def rank : Power → Nat
  | lowest => 0
  | comma => 1
  | logical => 2
  | relational => 3
  | additive => 4
  | multiplicative => 5
  | unary => 6
  | call => 7
  | member => 8
  | primary => 9

/-- Whether `p` binds tighter than `q`. -/
def tighter (p q : Power) : Bool := q.rank < p.rank

end Power

/-- The nonterminals that others refer to. -/
inductive Rule where
  | expr (power : Power)
  | type (power : Power)
  | stmt
  | block

/-- The nodes of a nonterminal. -/
abbrev Rule.Node : Rule → Type
  | expr _ => Surface.Expr
  | type _ => Surface.TypeExpr
  | stmt => Surface.Stmt
  | block => Surface.Block

/-- Readers for all nonterminals. -/
abbrev Readers : Type := (rule : Rule) → Parse rule.Node

namespace Readers

/-- Reads a whole expression. -/
abbrev wholeExpr (sub : Readers) : Parse Surface.Expr := sub (.expr .lowest)

/-- Reads a whole type. -/
abbrev wholeType (sub : Readers) : Parse Surface.TypeExpr := sub (.type .lowest)

/-- Reads a block. -/
abbrev wholeBlock (sub : Readers) : Parse Surface.Block := sub .block

end Readers

end OwnLang
