import OwnLang.Grammar.Item
import OwnLang.Token.Lexer

/-!
# The grammar

`Grammar.rule` reads a node of any nonterminal, and `parse` reads a file. Every rule that refers to
another takes a token first, or goes one step down the chain statement, block, expression, type; so
a depth of four for each token left is enough for every text.
-/

namespace OwnLang

namespace Grammar

/-- A nonterminal's rule, over readers for the nonterminals it refers to. -/
def step (sub : Readers) : Readers
  | .expr power => expr sub power
  | .type power => type sub power
  | .stmt => stmt sub
  | .block => block sub

/-- The rules of the grammar, nested at most `n` deep. -/
def rulesTo : Nat → Readers
  | 0, _ => Run.stop .depth
  | n + 1, rule => step (rulesTo n) rule

/-- A depth that no text reaches which has `n` tokens left. -/
def depthFor (n : Nat) : Nat := 4 * n + 8

/-- The rules of the grammar. -/
def rule : Readers := fun r => do
  rulesTo (depthFor (← get).remaining) r

end Grammar

/-- Reads a file from its tokens. -/
def parseTokens (file : String) (tokens : List Token) : Except Failure Surface.Module :=
  match Cursor.ofTokens? tokens with
  | none => .error (.stopped .depth)
  | some cursor => (Grammar.file Grammar.rule file cursor).result

/-- Reads a file from its text. -/
def parse (file text : String) : Except Failure Surface.Module :=
  match tokenize text file with
  | .error d => .error (.refused d)
  | .ok tokens => parseTokens file tokens

end OwnLang
