import OwnLang.CommandLine.Arguments
import OwnLang.CommandLine.Disk
import OwnLang.Compile
import OwnLang.Diagnostic.Report

/-!
# The program on the command line

Reads the files that are named, and those with the extension `own` below the directories that are
named, compiles them, and writes the module. Reports go to the error output. The exit status is 0 on
success, 1 if a file or the program is refused, and 2 if the arguments are not understood.
-/

namespace OwnLang.CommandLine

/-- What a run of the program leaves behind besides files. -/
structure Exit where
  status : Nat
  output : String := ""
  errors : String := ""
deriving DecidableEq, Inhabited

/-- The name of the program. -/
def programName : String := "ownc"

/-- The version of the program. -/
def programVersion : String := "0.1.0"

/-- How the program is called. -/
def usage : String := "Usage: " ++ programName ++ " [OPTIONS] <FILE>..."

/-- What the program says of itself. -/
def helpText : String := Report.textOf
  [ "Compiles `.own` sources to LLVM IR and links them into an executable",
    "",
    usage,
    "",
    "Arguments:",
    "  <FILE>...  Source files, or directories to search for `.own` files",
    "",
    "Options:",
    "  -o, --output <PATH>           Output base name; the IR goes to `<path>.ll` [default: out]",
    "      --emit-ir                 Stop after writing the IR",
    "      --no-std                  Do not inject the bundled `std` package",
    "      --max-template-depth <N>  [default: 64]",
    "  -W <KIND>                     `-W error` treats warnings as errors [possible values: error]",
    "  -h, --help                    Print help",
    "  -V, --version                 Print version" ]

/-- The extension of source files. -/
def sourceExtension : String := "own"

/-- The extension of emitted modules. -/
def moduleExtension : String := "ll"

/-- The report of a file that cannot be used. -/
def fileError (deed path : String) : String :=
  Report.textOf
    ["Error: cannot " ++ deed ++ " " ++ path ++ ": No such file or directory (os error 2)"]

/-- The report of a compilation that has no module. -/
def failureReport (sources : SourceMap) : Failure → String
  | .refused d => Report.ofDiagnostic sources d
  | .stopped _ => Report.textOf ["Error: the program is too large"]

variable {m : Type → Type} [Monad m] (disk : Disk m)

/-- A file, if it can be read. -/
def readFile (path : String) : m (Option (List SourceFile)) := do
  match ← disk.read? path with
  | some text => return some [⟨path, text⟩]
  | none => return none

/-- The source files at a path, directories taken in order of the names in them; `none` if one of
them cannot be read. Directories nest at most `n` deep. -/
def collectTo : Nat → String → m (Option (List SourceFile))
  | 0, _ => return none
  | n + 1, path => do
    if ← disk.isDirectory path then
      let names := (← disk.names path).mergeSort fun a b => a ≤ b
      names.foldlM (fun files name => do
        let entry := Path.child path name
        let isSource := Path.extension? name == some sourceExtension
        match files, isSource || (← disk.isDirectory entry) with
        | none, _ => return none
        | some files, false => return some files
        | some files, true => return (← collectTo n entry).map (files ++ ·)) (some [])
    else readFile disk path

/-- How deep directories may nest. -/
def directoryBound : Nat := 4096

/-- The source files at the inputs, or the input that cannot be read. -/
def collect : List String → m (Except String (List SourceFile))
  | [] => return .ok []
  | input :: rest => do
    match ← collectTo disk directoryBound input with
    | none => return .error input
    | some files => return (← collect rest).map (files ++ ·)

/-- Compiles files and writes their module. -/
def compileFiles (a : Arguments) (files : List SourceFile) : m Exit := do
  let sources := sourcesOf files
  match compile a.options files with
  | .error failure => return { status := 1, errors := failureReport sources failure }
  | .ok result =>
    let warnings := String.join (result.warnings.map (Report.ofWarning sources))
    let path := Path.withExtension (a.output.getD Arguments.defaultOutput) moduleExtension
    if ← disk.write path result.module.text then
      return { status := 0, errors := warnings }
    else
      return { status := 1, errors := warnings ++ fileError "write" path }

/-- Runs the program on arguments. -/
def run (args : List String) : m Exit := do
  match Request.ofArgs? args with
  | none => return { status := 2, errors := Report.textOf [usage] }
  | some .help => return { status := 0, output := helpText }
  | some .version =>
    return { status := 0, output := Report.textOf [programName ++ " " ++ programVersion] }
  | some (.compile a) =>
    match ← collect disk a.inputs with
    | .error path => return { status := 1, errors := fileError "read" path }
    | .ok files => compileFiles disk a files

end OwnLang.CommandLine
