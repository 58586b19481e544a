import OwnLang.Source.Map

/-!
# Paths

Names of files with `/` between the directories. Empty components and `.` lead nowhere, except that
a path may start with `.`.
-/

namespace OwnLang.CommandLine.Path

/-- The components of a path that lead somewhere. -/
def components (path : String) : List String :=
  (piecesOf '/' path).filter fun part => part != "" && part != "."

/-- The path of an entry of a directory. -/
def child (directory name : String) : String :=
  if directory.toList.getLast? = some '/' then directory ++ name else directory ++ "/" ++ name

/-- The stem and the extension of a file name; a dot at the start belongs to the stem. -/
def splitExtension (name : String) : String × Option String :=
  let reversed := name.toList.reverse
  let extension := (reversed.takeWhile (· != '.')).reverse
  match reversed.dropWhile (· != '.') with
  | [] | ['.'] => (name, none)
  | _ :: stem => (String.ofList stem.reverse, some (String.ofList extension))

/-- The extension of a path. -/
def extension? (path : String) : Option String :=
  ((components path).getLast?).bind fun name => (splitExtension name).2

/-- A reversed path without the slashes and `.` components that it ended in. -/
def trimmedEnd : List Char → List Char
  | '/' :: rest => trimmedEnd rest
  | '.' :: '/' :: rest => trimmedEnd rest
  | rest => rest

/-- A path with another extension in the place of its own. A path that ends in no name stays. -/
def withExtension (path extension : String) : String :=
  match (components path).getLast? with
  | none | some ".." => path
  | some name =>
    let (stem, _) := splitExtension name
    let directory := (trimmedEnd path.toList.reverse).drop name.length
    String.ofList directory.reverse ++ stem ++ "." ++ extension

end OwnLang.CommandLine.Path
