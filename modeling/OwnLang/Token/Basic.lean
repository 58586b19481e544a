import OwnLang.Source.Span

/-!
# Tokens

The kinds of tokens, the fixed spellings of punctuation, and the reserved words. `punctuation` is
ordered so that no spelling is a proper beginning of a later one: the first spelling that a text
starts with is the longest.
-/

namespace OwnLang

/-- Kinds of tokens. -/
inductive TokenKind where
  | eof
  | number
  | string
  | identifier
  | openBracket
  | closeBracket
  | openCurly
  | closeCurly
  | openParen
  | closeParen
  | assignment
  | equals
  | not
  | notEquals
  | less
  | lessEquals
  | greater
  | greaterEquals
  | or
  | and
  | ampersand
  | hash
  | atSign
  | dot
  | ellipsis
  | semicolon
  | colon
  | colonColon
  | comma
  | plusEquals
  | minusEquals
  | starEquals
  | slashEquals
  | percentEquals
  | plus
  | dash
  | slash
  | star
  | percent
  | kwVar
  | kwConst
  | kwStatic
  | kwFn
  | kwStruct
  | kwMacro
  | kwTemplate
  | kwTypealias
  | kwPackage
  | kwImport
  | kwReturn
  | kwBreak
  | kwContinue
  | kwIf
  | kwElse
  | kwWhile
  | kwFor
  | kwNew
  | kwTrue
  | kwFalse
deriving DecidableEq, Inhabited

namespace TokenKind

/-- The name of a kind, as messages write it. -/
def name : TokenKind → String
  | eof => "EOF"
  | number => "Number"
  | string => "String"
  | identifier => "Identifier"
  | openBracket => "OpenBracket"
  | closeBracket => "CloseBracket"
  | openCurly => "OpenCurly"
  | closeCurly => "CloseCurly"
  | openParen => "OpenParen"
  | closeParen => "CloseParen"
  | assignment => "Assignment"
  | equals => "Equals"
  | not => "Not"
  | notEquals => "NotEquals"
  | less => "Less"
  | lessEquals => "LessEquals"
  | greater => "Greater"
  | greaterEquals => "GreaterEquals"
  | or => "Or"
  | and => "And"
  | ampersand => "Ampersand"
  | hash => "Hash"
  | atSign => "At"
  | dot => "Dot"
  | ellipsis => "Ellipsis"
  | semicolon => "Semicolon"
  | colon => "Colon"
  | colonColon => "ColonColon"
  | comma => "Comma"
  | plusEquals => "PlusEquals"
  | minusEquals => "MinusEquals"
  | starEquals => "StarEquals"
  | slashEquals => "SlashEquals"
  | percentEquals => "PercentEquals"
  | plus => "Plus"
  | dash => "Dash"
  | slash => "Slash"
  | star => "Star"
  | percent => "Percent"
  | kwVar => "Var"
  | kwConst => "Const"
  | kwStatic => "Static"
  | kwFn => "Fn"
  | kwStruct => "Struct"
  | kwMacro => "Macro"
  | kwTemplate => "Template"
  | kwTypealias => "Typealias"
  | kwPackage => "Package"
  | kwImport => "Import"
  | kwReturn => "Return"
  | kwBreak => "Break"
  | kwContinue => "Continue"
  | kwIf => "If"
  | kwElse => "Else"
  | kwWhile => "While"
  | kwFor => "For"
  | kwNew => "New"
  | kwTrue => "True"
  | kwFalse => "False"

/-- The reserved words. -/
def keywords : List (String × TokenKind) :=
  [("var", kwVar), ("const", kwConst), ("static", kwStatic), ("fn", kwFn), ("struct", kwStruct),
   ("macro", kwMacro), ("template", kwTemplate), ("typealias", kwTypealias),
   ("package", kwPackage), ("import", kwImport), ("return", kwReturn), ("break", kwBreak),
   ("continue", kwContinue), ("if", kwIf), ("else", kwElse), ("while", kwWhile), ("for", kwFor),
   ("new", kwNew), ("true", kwTrue), ("false", kwFalse)]

/-- The spellings of punctuation, each before those it extends. -/
def punctuation : List (String × TokenKind) :=
  [("[", openBracket), ("]", closeBracket), ("\x7b", openCurly), ("\x7d", closeCurly),
   ("(", openParen), (")", closeParen), ("==", equals), ("!=", notEquals), ("!", not),
   ("=", assignment), ("<=", lessEquals), ("<", less), (">=", greaterEquals), (">", greater),
   ("||", or), ("&&", and), ("&", ampersand), ("#", hash), ("@", atSign), ("...", ellipsis),
   (".", dot), (";", semicolon), ("::", colonColon), (":", colon), (",", comma),
   ("+=", plusEquals), ("-=", minusEquals), ("*=", starEquals), ("/=", slashEquals),
   ("%=", percentEquals), ("+", plus), ("-", dash), ("/", slash), ("*", star), ("%", percent)]

/-- The kind of a word: its own for a reserved word, `identifier` for any other. -/
def ofWord (word : String) : TokenKind := (keywords.lookup word).getD identifier

end TokenKind

/-- A token: its kind, its text (for a string, what the literal stands for) and its place. -/
structure Token where
  kind : TokenKind
  value : String
  span : Span
deriving DecidableEq, Inhabited

end OwnLang
