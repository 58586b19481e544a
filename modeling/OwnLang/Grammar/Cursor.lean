import OwnLang.Outcome
import OwnLang.Surface.Expr
import OwnLang.Token.Basic

/-!
# Cursors over tokens

A `Cursor` is a list of tokens with one of them marked as the current one. Moving on from the last
token, which is `eof` in every list that `tokenize` makes, leaves a cursor where it is. A `Parse`
is a run over a cursor; when it fails, the cursor stays where the failure left it.
-/

namespace OwnLang

/-- A position in a list of tokens that is not empty. -/
structure Cursor where
  /-- The tokens before the current one, the nearest in front. -/
  before : List Token
  current : Token
  after : List Token

namespace Cursor

/-- The cursor on the first token of a list. -/
def ofTokens? : List Token → Option Cursor
  | [] => none
  | t :: rest => some ⟨[], t, rest⟩

/-- The tokens that a cursor moves over. -/
def tokens (c : Cursor) : List Token := c.before.reverse ++ c.current :: c.after

/-- The number of tokens before the current one. -/
def index (c : Cursor) : Nat := c.before.length

/-- The number of tokens behind the current one. -/
def remaining (c : Cursor) : Nat := c.after.length

/-- The kind of the current token. -/
def kind (c : Cursor) : TokenKind := c.current.kind

/-- Moves on by one token, or stays at the last one. -/
def next (c : Cursor) : Cursor :=
  match c.after with
  | [] => c
  | t :: rest => ⟨c.current :: c.before, t, rest⟩

/-- The kind of the token `n` places ahead, or of the last one. -/
def peek (c : Cursor) (n : Nat) : TokenKind :=
  (((c.current :: c.after).drop n).head?.getD (c.after.getLast?.getD c.current)).kind

/-- Whether a token other than `eof` is left. -/
def hasTokens (c : Cursor) : Bool := c.kind != .eof

/-- The start of the current token. -/
def start (c : Cursor) : Nat := c.current.span.start

/-- The end of the token before the current one. -/
def previousEnd (c : Cursor) : Nat :=
  match c.before with
  | [] => 0
  | t :: _ => t.span.stop

/-- From a start to the end of the token before the current one. -/
def spanFrom (c : Cursor) (start : Span) : Span := { start with stop := c.previousEnd }

/-- The diagnostic for a current token that fits no rule. -/
def unexpected (c : Cursor) (message : String) : Diagnostic :=
  ⟨.unexpectedTokenDetailed c.current.value message, c.current.span, none⟩

end Cursor

/-- Runs that read tokens. -/
abbrev Parse (α : Type) : Type := Run Cursor α

namespace Parse

/-- The current token. -/
def current : Parse Token := return (← get).current

/-- The kind of the current token. -/
def kind : Parse TokenKind := return (← get).kind

/-- The kind of the token `n` places ahead. -/
def peek (n : Nat) : Parse TokenKind := return (← get).peek n

/-- Returns the current token and moves on. -/
def advance : Parse Token := fun c => .ok c.current c.next

/-- Fails at the current token. -/
def unexpected {α : Type} (message : String) : Parse α := fun c => .error (c.unexpected message) c

/-- Takes a token of the given kind. -/
def expect (kind : TokenKind) : Parse Token := fun c =>
  if c.kind = kind then .ok c.current c.next
  else .error (c.unexpected ("expected " ++ kind.name)) c

/-- Takes a token of the given kind if it is the current one. -/
def eat (kind : TokenKind) : Parse Bool := fun c =>
  if c.kind = kind then .ok true c.next else .ok false c

/-- Takes a name. -/
def ident : Parse Surface.Ident := do
  let token ← expect .identifier
  return ⟨token.value, token.span⟩

/-- The span from a start to the end of the last token taken. -/
def spanFrom (start : Span) : Parse Span := return (← get).spanFrom start

/-- Repeats `step` on a value until it gives none, at most `n` times. -/
def iterateAtMost {α : Type} (step : α → Parse (Option α)) : Nat → α → Parse α
  | 0, _ => .stop .depth
  | n + 1, a => do
    match ← step a with
    | none => return a
    | some b => iterateAtMost step n b

/-- Repeats `step` on a value until it gives none. A step that gives a value takes a token, so the
number of tokens left bounds the repetition. -/
def iterate {α : Type} (step : α → Parse (Option α)) (a : α) : Parse α := do
  iterateAtMost step ((← get).remaining + 2) a

/-- Items up to a closing token, read by `item`, which gives none for the last; the closing token
is left to be taken. -/
def collect {α : Type} (item : Parse (Option α)) : Parse (List α) := do
  let reversed ← iterate (fun items => do return (← item).map (· :: items)) []
  return reversed.reverse

/-- Reads items with commas between them up to a closing token, which is taken as well. A comma may
follow the last item. -/
def commaList {α : Type} (close : TokenKind) (item : Parse α) : Parse (List α) := do
  let (reversed, _) ← iterate step ([], true)
  let _ ← expect close
  return reversed.reverse
where
  step : List α × Bool → Parse (Option (List α × Bool))
    | (_, false) => return none
    | (items, true) => do
      if (← kind) = close then return none
      let a ← item
      return some (a :: items, ← eat .comma)

/-- Reads a parameter list up to its `)`, and whether it ends in `...`. -/
def parameters {α : Type} (item : Parse α) : Parse (List α × Bool) := do
  let (reversed, variadic, _) ← iterate step ([], false, true)
  let _ ← expect .closeParen
  return (reversed.reverse, variadic)
where
  step : List α × Bool × Bool → Parse (Option (List α × Bool × Bool))
    | (_, _, false) => return none
    | (items, _, true) => do
      if (← kind) = .closeParen then return none
      if ← eat .ellipsis then return some (items, true, false)
      let a ← item
      return some (a :: items, false, ← eat .comma)

/-- Reads one or more items with commas between them. -/
def commaSeparated {α : Type} (item : Parse α) : Parse (List α) := do
  let first ← item
  let rest ← collect do
    if ← eat .comma then return some (← item) else return none
  return first :: rest

/-- Runs a reader; if it fails, or what it read is not accepted at the cursor behind it, the cursor
returns to where it stood. -/
def speculate {α : Type} (reader : Parse α) (accept : Cursor → Bool) : Parse (Option α) := fun c =>
  match reader c with
  | .ok a d => if accept d then .ok (some a) d else .ok none c
  | .error _ _ => .ok none c
  | .stopped why => .stopped why

end Parse

end OwnLang
