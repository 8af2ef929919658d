import ResidueMachine.Command

/-!
# The program

Reads the files and the standard input that the arguments name, and prints the answer.
-/

namespace ResidueMachine.Command

/-- The bytes of a file, if it can be read. -/
def readFile? (path : String) : IO (Option ByteArray) := do
  try
    return some (← IO.FS.readBinFile path)
  catch _ =>
    return none

/-- The bytes of the files with the given paths. -/
def readFiles (paths : List String) : IO (List (String × ByteArray)) :=
  paths.filterMapM fun path => do
    return (← readFile? path).map fun bytes => (path, bytes)

/-- Print an answer. -/
def printAnswer (answer : Answer) : IO UInt32 := do
  for report in answer.reports do
    IO.eprint report.write
  IO.print answer.stdout
  if let some failed := answer.failed? then
    IO.eprintln s!"Error: {failed}"
  return answer.exitCode.toUInt32

end ResidueMachine.Command

open ResidueMachine Command in
/-- Answer the command line. -/
def main (arguments : List String) : IO UInt32 := do
  match Options.ofArguments? arguments with
  | none =>
    IO.eprintln "usage: [--check] [--listing] [--max-stack-depth N] [-v] [--] [PATH]..."
    printAnswer usageError
  | some options =>
    let paths := options.inputPaths
    let files ← readFiles (paths.filter (· ≠ "-"))
    let stdin ← if paths.contains "-" then (← IO.getStdin).readBinToEnd else pure .empty
    printAnswer (answerOptions options (fun path => files.lookup path) stdin)
