import FieldFlow.Log

/-!
# What a command needs of its surroundings

A command reads files, keeps a log, looks at a clock and writes to two outputs.  It is written for
any monad that offers this, so that it can be run against a store in memory as well as on a machine.

Main definitions: `Host`, `FileFault`.
-/

namespace FieldFlow

/-- Why a file cannot be used. -/
structure FileFault where
  /-- What was attempted. -/
  operation : String
  path : String
  reason : String
deriving DecidableEq, Repr

/-- The wording of the fault. -/
def FileFault.text (f : FileFault) : String := f.operation ++ " " ++ f.path ++ ": " ++ f.reason

/-- What a command may do. -/
structure Host (m : Type → Type) where
  /-- The time in nanoseconds, from a fixed start. -/
  now : m Nat
  /-- The date and time of day for the log. -/
  stamp : m String
  /-- The contents of a file.  A fault of the operation `open` comes before any reading. -/
  readFile : String → m (Except FileFault String)
  /-- Makes a file empty, and makes it if it is missing. -/
  createFile : String → m (Except FileFault Unit)
  /-- Adds text to the end of a file that was made. -/
  appendFile : String → String → m Unit
  /-- Writes to standard output. -/
  print : String → m Unit
  /-- Writes to standard error. -/
  complain : String → m Unit

namespace Host

variable {m : Type → Type} [Monad m]

/-- Where the log goes, and whether details are kept. -/
structure LogTarget where
  /-- The file of the log; without one it goes to standard error. -/
  file : Option String
  details : Bool

/-- Entries of this level are kept. -/
def LogTarget.keeps (target : LogTarget) : Log.Level → Bool
  | .debug => target.details
  | _ => true

/-- Writes one entry to the log. -/
def logEntry (host : Host m) (target : LogTarget) (entry : Log.Entry) : m Unit :=
  if target.keeps entry.level then do
    let line := "time=" ++ Text.quote (← host.stamp) ++ " " ++ entry.line ++ "\n"
    match target.file with
    | some path => host.appendFile path line
    | none => host.complain line
  else pure ()

/-- Writes entries to the log, in order. -/
def logEntries (host : Host m) (target : LogTarget) : List Log.Entry → m Unit
  | [] => pure ()
  | entry :: rest => do
    host.logEntry target entry
    host.logEntries target rest

end Host

end FieldFlow
