import OwnLang.Source.Span

/-!
# Lines and columns

`SourceMap` holds the texts of the files of one compilation by name. `Place.at` turns a byte offset
into a line and a column: the line is one more than the number of line feeds before the offset, and
the column counts the bytes since the last of them.
-/

namespace OwnLang

/-- The bytes of a text in UTF-8. -/
def utf8 (text : String) : List UInt8 := text.toUTF8.data.toList

/-- The pieces of a text between the places of a separator; there is one more than separators. -/
def piecesOf (separator : Char) (text : String) : List String :=
  (go text.toList).map String.ofList
where
  go : List Char → List (List Char)
    | [] => [[]]
    | c :: rest =>
      if c = separator then [] :: go rest
      else match go rest with
        | piece :: pieces => (c :: piece) :: pieces
        | [] => [[c]]

theorem piecesOf.go_ne_nil (separator : Char) (text : List Char) : go separator text ≠ [] := by
  cases text with
  | nil => simp [go]
  | cons c text =>
    rw [go]
    split
    · simp
    · split <;> simp

/-- The lines of a text; one that ends in a line feed has an empty last line. -/
def linesOf (text : String) : List String := piecesOf '\n' text

/-- A line and a column, both counted from 1, and the offset at which the line starts. -/
structure Place where
  line : Nat
  column : Nat
  lineStart : Nat
deriving DecidableEq, Inhabited

namespace Place

/-- The byte of a line feed. -/
def lineFeed : UInt8 := 10

/-- The place of a byte offset; an offset past the end is taken to the end. -/
def ofOffset (bytes : List UInt8) (offset : Nat) : Place :=
  let before := bytes.take offset
  let onLine := before.reverse.takeWhile (· != lineFeed)
  { line := before.count lineFeed + 1
    column := onLine.length + 1
    lineStart := before.length - onLine.length }

end Place

/-- Texts by file name, the one added last in front. -/
structure SourceMap where
  files : List (String × String) := []
deriving Inhabited

namespace SourceMap

/-- Adds a file; a text that was there under the same name is hidden by it. -/
def add (sources : SourceMap) (name text : String) : SourceMap := ⟨(name, text) :: sources.files⟩

/-- The text of a file. -/
def text? (sources : SourceMap) (name : String) : Option String := sources.files.lookup name

/-- The place of an offset of a known file. -/
def place? (sources : SourceMap) (file : String) (offset : Nat) : Option Place :=
  (sources.text? file).map fun text => .ofOffset (utf8 text) offset

end SourceMap

end OwnLang
