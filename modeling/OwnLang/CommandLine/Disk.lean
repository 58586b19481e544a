import OwnLang.CommandLine.Path

/-!
# Disks

The program reads and writes files through a `Disk`, whatever it is: that of the machine, or a
`FileTree`, which is a value.
-/

namespace OwnLang.CommandLine

/-- Access to files by their paths. -/
structure Disk (m : Type → Type) where
  isDirectory : String → m Bool
  /-- The names in a directory. -/
  names : String → m (List String)
  /-- The text of a file that can be read. -/
  read? : String → m (Option String)
  /-- Writes a file, and tells whether that was possible. -/
  write : String → String → m Bool

/-- Texts of files by their paths, as components from the current directory on. The directories are
those that the paths lead through. -/
structure FileTree where
  files : List (List String × String)

namespace FileTree

/-- The tree of files with the texts given. -/
def ofFiles (files : List (String × String)) : FileTree :=
  ⟨files.map fun (path, text) => (Path.components path, text)⟩

/-- Whether a path leads to a directory. -/
def isDirectoryAt (t : FileTree) (path : List String) : Bool :=
  path.isEmpty || t.files.any fun (file, _) => path.length < file.length && path.isPrefixOf file

/-- Where a path leads to from a directory, if every directory on it exists. -/
def resolveFrom? (t : FileTree) (directory : List String) : List String → Option (List String)
  | [] => some directory
  | part :: rest =>
    if !t.isDirectoryAt directory then none
    else if part = ".." then
      if directory.isEmpty then none else t.resolveFrom? directory.dropLast rest
    else t.resolveFrom? (directory ++ [part]) rest

/-- Where a path leads to; the tree holds nothing that is named from the root of the disk. -/
def resolve? (t : FileTree) (path : String) : Option (List String) :=
  if path.isEmpty || path.toList.head? = some '/' then none
  else t.resolveFrom? [] (Path.components path)

/-- The text of a file. -/
def text? (t : FileTree) (path : String) : Option String :=
  (t.resolve? path).bind fun file => t.files.lookup file

/-- Whether a path leads to a directory. -/
def isDirectory (t : FileTree) (path : String) : Bool := (t.resolve? path).any t.isDirectoryAt

/-- The names in a directory. -/
def names (t : FileTree) (path : String) : List String :=
  match t.resolve? path with
  | none => []
  | some directory =>
    (t.files.filterMap fun (file, _) =>
      if directory.isPrefixOf file then (file.drop directory.length).head? else none).eraseDups

/-- The tree with a file written, if its directory exists and it is none itself. -/
def write? (t : FileTree) (path text : String) : Option FileTree :=
  match t.resolve? path with
  | none => none
  | some target =>
    if t.isDirectoryAt target then none
    else some ⟨(target, text) :: t.files⟩

/-- A tree as a disk. -/
def disk : Disk (StateM FileTree) where
  isDirectory path := return (← get).isDirectory path
  names path := return (← get).names path
  read? path := return (← get).text? path
  write path text := modifyGet fun t =>
    match t.write? path text with
    | some written => (true, written)
    | none => (false, t)

end FileTree

end OwnLang.CommandLine
