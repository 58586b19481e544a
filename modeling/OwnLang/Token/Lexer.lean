import OwnLang.Diagnostic.Basic
import OwnLang.Source.Blank
import OwnLang.Token.Basic
import OwnLang.Token.Quoted

/-!
# Reading tokens

`Lexeme.first?` reads the lexeme at the start of a text and `tokenize` splits a text into tokens:
words, numbers, strings and punctuation, with blanks and comments between them. The list of tokens
ends with one `eof` token at the end of the text.
-/

namespace OwnLang

/-- What a text can start with. -/
inductive Lexeme where
  /-- White space or a comment. -/
  | gap
  | token (kind : TokenKind) (value : String)
deriving DecidableEq

namespace Lexeme

/-- Whether a character can start a word. -/
def startsWord (c : Char) : Bool := c.isAlpha || c == '_'

/-- Whether a character can stand in a word. -/
def continuesWord (c : Char) : Bool := startsWord c || c.isDigit

/-- The length of a block comment's text up to the end of its first `*/`. -/
def commentEnd? : List Char → Option Nat
  | '*' :: '/' :: _ => some 2
  | _ :: rest => (commentEnd? rest).map (· + 1)
  | [] => none

/-- The first spelling of punctuation that the text starts with. -/
def punctuation? (text : List Char) : Option (String × TokenKind) :=
  TokenKind.punctuation.find? fun (spelling, _) => spelling.toList.isPrefixOf text

/-- A comment at the start of the text `c :: rest`, as in `first?`. -/
def comment? (c : Char) (rest : List Char) : Option (Lexeme × Nat) :=
  match c, rest with
  | '/', '/' :: line => some (gap, (line.takeWhile (· != '\n')).length + 1)
  | '/', '*' :: text => (commentEnd? text).map fun n => (gap, n + 1)
  | _, _ => none

/-- The lexeme at the start of the text `c :: rest`, with the number of characters that it takes
from `rest`. A comment that is not closed is no comment. -/
def first? (c : Char) (rest : List Char) : Option (Lexeme × Nat) :=
  if startsWord c then
    let more := rest.takeWhile continuesWord
    let word := String.ofList (c :: more)
    some (token (.ofWord word) word, more.length)
  else if c.isDigit then
    let more := rest.takeWhile Char.isDigit
    some (token .number (String.ofList (c :: more)), more.length)
  else if isBlank c then
    some (gap, (rest.takeWhile isBlank).length)
  else if c = '"' then
    (Quoted.body? rest).map fun body =>
      (token .string (String.ofList (Quoted.decode body)), body.length + 1)
  else
    (comment? c rest).or <|
      (punctuation? (c :: rest)).map fun (spelling, kind) =>
        (token kind spelling, spelling.length - 1)

end Lexeme

/-- The number of bytes of a text in UTF-8. -/
def byteWidth : List Char → Nat
  | [] => 0
  | c :: rest => c.utf8Size + byteWidth rest

/-- The tokens of a text that starts at byte `offset` of `file`. -/
def tokensFrom (file : String) (offset : Nat) (text : List Char) :
    Except Diagnostic (List Token) :=
  match text with
  | [] => .ok [⟨.eof, "EOF", .point file offset⟩]
  | c :: rest =>
    match Lexeme.first? c rest with
    | none => .error ⟨.unrecognisedToken (String.singleton c), .point file offset, none⟩
    | some (lexeme, n) =>
      let stop := offset + byteWidth (c :: rest.take n)
      match lexeme with
      | .gap => tokensFrom file stop (rest.drop n)
      | .token kind value =>
        (tokensFrom file stop (rest.drop n)).map (⟨kind, value, file, offset, stop⟩ :: ·)
termination_by text.length
decreasing_by all_goals (simp only [List.length_drop, List.length_cons]; omega)

theorem tokensFrom_nil (file : String) (offset : Nat) :
    tokensFrom file offset [] = .ok [⟨.eof, "EOF", .point file offset⟩] := by
  rw [tokensFrom]

/-- The name of a text that was not read from a file. -/
def interactiveFile : String := "shell"

/-- Splits the text of a file into tokens, the last of them `eof`. -/
def tokenize (text : String) (file : String) : Except Diagnostic (List Token) :=
  tokensFrom file 0 text.toList

end OwnLang
