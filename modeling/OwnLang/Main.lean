import OwnLang.CommandLine.Basic

/-!
# The executable
-/

namespace OwnLang.CommandLine

/-- The disk of the machine. -/
def machineDisk : Disk IO where
  isDirectory path := do
    try
      (← IO.FS.realPath path).isDir
    catch _ => return false
  names path := do
    let entries ← (← IO.FS.realPath path).readDir
    return entries.toList.map (·.fileName)
  read? path := do
    try
      return some (← IO.FS.readFile path)
    catch _ => return none
  write path text := do
    try
      IO.FS.writeFile path text
      return true
    catch _ => return false

end OwnLang.CommandLine

/-- Runs the program on the arguments of the process. -/
def main (args : List String) : IO UInt32 := do
  let exit ← OwnLang.CommandLine.run OwnLang.CommandLine.machineDisk args
  (← IO.getStdout).putStr exit.output
  (← IO.getStderr).putStr exit.errors
  return exit.status.toUInt32
