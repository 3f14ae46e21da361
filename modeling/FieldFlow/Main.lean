import FieldFlow.Command.Basic
import Std.Time.DateTime
import Std.Time.Format

/-!
# The program

Runs commands on the machine: its files, its clock and its standard outputs.
-/

namespace FieldFlow

/-- The wording of a machine's refusal to use a file. -/
def ioReason : IO.Error → String
  | .noFileOrDirectory .. => "no such file or directory"
  | .permissionDenied .. => "permission denied"
  | .inappropriateType .. => "is a directory"
  | e => toString e

/-- Tries to use a file. -/
def attemptFile {α : Type} (operation path : String) (action : IO α) : IO (Except FileFault α) := do
  try
    return .ok (← action)
  catch e => return .error ⟨operation, path, ioReason e⟩

/-- Reads a file that was found. -/
def readMachineFile (path : String) : IO (Except FileFault String) := do
  match ← attemptFile "open" path (IO.FS.Handle.mk path .read) with
  | .error fault => return .error fault
  | .ok handle => attemptFile "read" path handle.readToEnd

/-- The host that is the machine. -/
def machine : Host IO where
  now := IO.monoNanosNow
  stamp := do return (← Std.Time.DateTime.now).format "uuuu-MM-dd'T'HH:mm:ssXXX"
  readFile := readMachineFile
  createFile path := attemptFile "open" path (IO.FS.writeFile path "")
  appendFile path text := do
    let handle ← IO.FS.Handle.mk path .append
    handle.putStr text
  print text := IO.print text
  complain text := IO.eprint text

end FieldFlow

/-- Runs the command that the arguments name. -/
def main (arguments : List String) : IO UInt32 := do
  return (← FieldFlow.Command.execute FieldFlow.machine arguments).toUInt32
