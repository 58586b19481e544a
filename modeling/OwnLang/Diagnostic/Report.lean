import OwnLang.Diagnostic.Basic
import OwnLang.Source.Map

/-!
# Reports

A report shows a diagnostic beside the source lines it points at, with carets under the bytes of
its span:

```text
Error: Cannot use moved value 'p' (share `p` with `#p` instead of moving it)
-> main.own:6:10
  |
6 |     take(p);
  |          ^
Moved here:
-> main.own:5:10
```

Columns and caret counts are in bytes. The last line of a span has at least one caret.
-/

namespace OwnLang.Report

/-- `n` copies of a character. -/
def copies (n : Nat) (c : Char) : String := String.ofList (List.replicate n c)

/-- `text` with blanks behind it up to `width` characters. -/
def padded (width : Nat) (text : String) : String := text ++ copies (width - text.length) ' '

/-- One source line with its number, and the carets under its columns `first` up to `last`. -/
def sourceLine (gutter number : Nat) (text : String) (first last : Nat) : List String :=
  [ padded gutter (toString number) ++ "| " ++ text,
    copies gutter ' ' ++ "| " ++ copies (first - 1) ' ' ++ copies (last - first) '^' ]

/-- The lines of a span from `start` to `stop`, given the lines of its file from `start.line` on. -/
def sourceLines (gutter : Nat) (start stop : Place) : Nat → List String → List String
  | _, [] => []
  | number, text :: rest =>
    if stop.line < number then []
    else
      let first := if number = start.line then start.column else 1
      let last := if number = stop.line then max stop.column (first + 1)
        else text.utf8ByteSize + 1
      sourceLine gutter number text first last ++ sourceLines gutter start stop (number + 1) rest

/-- The place of a span and the source lines it covers; only the file's name if it is unknown. -/
def spanLines (sources : SourceMap) (span : Span) : List String :=
  match sources.text? span.file with
  | none => [s!"-> {span.file}"]
  | some text =>
    let start := Place.ofOffset (utf8 text) span.start
    let stop := Place.ofOffset (utf8 text) span.stop
    let gutter := (toString stop.line).length + 1
    [s!"-> {span.file}:{start.line}:{start.column}", copies gutter ' ' ++ "|"]
      ++ sourceLines gutter start stop start.line ((linesOf text).drop (start.line - 1))

/-- The text of the lines, each ended by a line feed. -/
def textOf (lines : List String) : String := String.join (lines.map (· ++ "\n"))

/-- The lines of a diagnostic's report. -/
def diagnosticLines (sources : SourceMap) (d : Diagnostic) : List String :=
  let headline := match d.cause.tip? with
    | none => s!"Error: {d.message}"
    | some tip => s!"Error: {d.message} ({tip})"
  let related := match d.related with
    | none => []
    | some r => s!"{r.label}:" :: spanLines sources r.span
  headline :: spanLines sources d.span ++ related

/-- The report of a diagnostic. -/
def ofDiagnostic (sources : SourceMap) (d : Diagnostic) : String :=
  textOf (diagnosticLines sources d)

/-- The report of a warning. -/
def ofWarning (sources : SourceMap) (w : Warning) : String :=
  textOf (s!"Warning: {w.message}" :: spanLines sources w.span)

end OwnLang.Report
