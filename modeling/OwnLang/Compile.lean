import OwnLang.Check.Basic
import OwnLang.Emit.Basic
import OwnLang.Grammar.Basic
import OwnLang.Prelude

/-!
# Compiling programs

A program is a list of files. They are read behind the standard package, checked together, and
emitted as one module. The first diagnostic ends a compilation; warnings do not, unless the options
make errors of them.
-/

namespace OwnLang

/-- A file of a program. -/
structure SourceFile where
  name : String
  text : String
deriving DecidableEq, Inhabited

namespace SourceFile

/-- Reads a file. -/
def parse (file : SourceFile) : Except Failure Surface.Module := OwnLang.parse file.name file.text

/-- Reads a file whose text is put together from pieces, by the characters of each: in a proof those of
short texts are found much faster than those of a long one. -/
def parsePieces (name : String) (pieces : List String) : Except Failure Surface.Module :=
  match tokensFrom name 0 (pieces.flatMap String.toList) with
  | .error d => .error (.refused d)
  | .ok tokens => parseTokens name tokens

theorem parse_join (name : String) (pieces : List String) :
    parse ⟨name, String.join pieces⟩ = parsePieces name pieces := by
  rw [parsePieces, ← String.toList_join]
  rfl

theorem mapM_parse_join (name : String) (pieces : List String) :
    [⟨name, String.join pieces⟩].mapM parse = (fun m => [m]) <$> parsePieces name pieces := by
  simp [List.mapM_cons, parse_join]

/-- The file of the standard package. -/
def prelude : SourceFile := ⟨Prelude.fileName, Prelude.text⟩

end SourceFile

/-- The texts that the diagnostics of a program point at. -/
def sourcesOf (files : List SourceFile) : SourceMap :=
  (.prelude :: files).foldl (fun sources file => sources.add file.name file.text) {}

/-- Reads the files of a program, behind the standard package if the options ask for it. -/
def parseProgram (options : Options) (files : List SourceFile) :
    Except Failure (List Surface.Module) :=
  (if options.includeStd then .prelude :: files else files).mapM SourceFile.parse

/-- Checks the files of a program. -/
def checkProgram (options : Options) (files : List SourceFile) : Except Failure Context := do
  let modules ← parseProgram options files
  (Check.checkModules modules { options }).finalState

/-- The standard package and the files of a program are read one after the other. -/
theorem checkProgram_eq (options : Options) (files : List SourceFile) :
    checkProgram options files = (do
      let std ← if options.includeStd then (fun m => [m]) <$> SourceFile.prelude.parse else pure []
      let modules ← files.mapM SourceFile.parse
      (Check.checkModules (std ++ modules) { options }).finalState) := by
  rw [checkProgram, parseProgram]
  cases options.includeStd <;> simp [List.mapM_cons]

/-- A compiled program. -/
structure Compilation where
  module : Ir.Module
  warnings : List Warning

/-- The warning that ends a compilation. -/
def fatalWarning? (c : Context) : Option Warning :=
  if c.options.warningsAsErrors then c.warnings[0]? else none

/-- Compiles a program. -/
def compile (options : Options) (files : List SourceFile) : Except Failure Compilation := do
  let checked ← checkProgram options files
  match fatalWarning? checked with
  | some warning => .error (.refused warning.toDiagnostic)
  | none => return { module := ← emitModule checked, warnings := checked.warnings.toList }

end OwnLang
