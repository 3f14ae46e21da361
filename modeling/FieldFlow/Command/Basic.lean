import FieldFlow.Command.Analyze
import FieldFlow.Command.Help
import FieldFlow.Comparison

/-!
# The command line

The options stand in front of the command.  `run` analyzes the model in one file and prints its
final values, a comparison with another model and the timers if they are wanted.  A run that fails
ends with a fatal entry of the log; if the log has a file of its own, that file is closed by then
and the entry cannot be written.

Main definition: `Command.execute`.
-/

namespace FieldFlow.Command

variable {m : Type → Type} [Monad m]

/-- How a command ends early. -/
inductive Failure where
  /-- With a message on standard error and a code. -/
  | exit (code : Nat) (message : String)
  /-- With a fatal entry of the log. -/
  | fatal (message : Octets)
deriving DecidableEq, Repr

/-- How a run ended, and the file of its log. -/
structure Ending where
  failure : Option Failure
  logFile : Option String

/-- Compares a result with that of another model, and prints the report. -/
def printComparison (s : Setting m) (result : Result) (path : String) : m (Option Failure) := do
  match ← analyze s path with
  | .error message => return some (.fatal message)
  | .ok (other, _) =>
    s.host.print (Report.compare result other).listing
    return none

/-- Analyzes a model and prints what the options ask for. -/
def report (s : Setting m) (options : Options) (path : String) : m (Option Failure) := do
  let start ← s.host.now
  match ← analyze s path with
  | .error message => return some (.fatal message)
  | .ok (result, timers) =>
    let timers := { timers with total := (← s.host.now) - start }
    s.host.print ("Done  -- " ++ path ++ ": " ++ Nat.repr result.size ++ " objects\n")
    s.host.print result.listing
    let failure ←
      if options.compare = "" then pure none else printComparison s result options.compare
    if failure.isNone && options.doPerformance then s.host.print timers.listing
    return failure

/-- Opens the log, sets the deadline and reports on a model. -/
def runWith (host : Host m) (options : Options) (path : String) : m Ending := do
  let logged : Except FileFault (Option String) ←
    if options.logFile = "" then pure (.ok none)
    else do
      match ← host.createFile options.logFile with
      | .error fault => pure (.error fault)
      | .ok () => pure (.ok (some options.logFile))
  match logged with
  | .error fault => return ⟨some (.fatal ("log file: " ++ fault.text)), none⟩
  | .ok file =>
    let deadline ←
      if 0 < options.timeLimit then do pure (some ((← host.now) + options.timeLimit.toNat))
      else pure none
    let failure ← report ⟨host, ⟨file, options.doLog⟩, deadline⟩ options path
    return ⟨failure, file⟩

/-- Runs the model that the arguments name. -/
def run (host : Host m) (settings : Flag.Settings) (arguments : List String) : m Ending :=
  match arguments with
  | [path] =>
    match Options.ofSettings settings with
    | .error refusal => return ⟨some (.fatal (Options.refusalText refusal)), none⟩
    | .ok options => runWith host options path
  | _ => return ⟨some (.exit 2 "run needs exactly one model file"), none⟩

/-! ## Dispatch -/

/-- The flags in front of a command. -/
def globalFlags : List Flag := Options.flags ++ [Help.flag]

/-- The flags of every command. -/
def commandFlags : List Flag := [Help.flag]

/-- The argument names a flag of a command, behind one to three hyphens. -/
def isCommandFlag (argument : String) : Bool :=
  match argument.toList with
  | '-' :: cs =>
    let cs := match cs with
      | '-' :: '-' :: rest => rest
      | '-' :: rest => rest
      | _ => cs
    let name := String.ofList (cs.takeWhile (· ≠ '='))
    commandFlags.any fun f => f.names.contains name
  | _ => false

/-- Moves the flags of a command, with an argument behind each, to the front. -/
def flagsFirst (expecting : Bool) : List String → List String × List String
  | [] => ([], [])
  | argument :: rest =>
    if argument = "--" then ([], argument :: rest)
    else if expecting && !argument.startsWith "-" then
      let (front, back) := flagsFirst false rest
      (argument :: front, back)
    else if isCommandFlag argument then
      let (front, back) := flagsFirst (!argument.toList.contains '=') rest
      (argument :: front, back)
    else
      let (front, back) := flagsFirst expecting rest
      (front, argument :: back)

/-- Help was asked for. -/
def wantsHelp (s : Flag.Settings) : Bool := Help.flag.names.any s.isOn

/-- Shows a text. -/
def showText (host : Host m) (text : String) : m Ending := do
  host.print text
  return ⟨none, none⟩

/-- Shows a text because of what is wrong with the arguments. -/
def showMisuse (host : Host m) (misuse : Flag.Misuse) (text : String) : m Ending := do
  host.print text
  return ⟨some (.fatal misuse.message), none⟩

/-- Help on the command with a name. -/
def showTopic (host : Host m) (name : String) : m Ending :=
  if name = "" then showText host Help.overview
  else match Help.topic? name with
    | some topic => showText host (Help.command topic)
    | none => return ⟨some (.exit 3 ("No help topic for '" ++ name ++ "'")), none⟩

/-- Takes the flags of a command and runs it on the other arguments. -/
def withFlags (host : Host m) (topic : Topic) (arguments : List String)
    (command : List String → m Ending) : m Ending :=
  let refused (misuse : Flag.Misuse) : m Ending :=
    showMisuse host misuse
      ("Incorrect Usage: " ++ misuse.message ++ "\n\n" ++ Help.command topic)
  let (front, back) := flagsFirst false arguments
  match Flag.parse commandFlags (front ++ back) with
  | .error misuse => refused misuse
  | .ok settings =>
    match Flag.twoForms? commandFlags settings with
    | some misuse => refused misuse
    | none =>
      if wantsHelp settings then showText host (Help.command topic) else command settings.rest

/-- Runs the command with a name. -/
def runCommand (host : Host m) (settings : Flag.Settings) (name : String)
    (arguments : List String) : m Ending :=
  match Help.topic? name with
  | none => showTopic host name
  | some topic =>
    withFlags host topic arguments fun rest =>
      if name = "run" then run host settings rest
      else match rest with
        | [] => showText host Help.program
        | about :: _ => showTopic host about

/-- Runs the command that the arguments name.  A flag that was set by two of its names counts before
any other misuse. -/
def dispatch (host : Host m) (arguments : List String) : m Ending :=
  let (settings, misuse) := Flag.takeFrom globalFlags [] arguments
  match Flag.twoForms? globalFlags settings, misuse with
  | some misuse, _ => showMisuse host misuse (misuse.message ++ "\n" ++ Help.program)
  | none, some misuse =>
    showMisuse host misuse ("Incorrect Usage. " ++ misuse.message ++ "\n\n" ++ Help.program)
  | none, none =>
    if wantsHelp settings then showText host Help.program
    else match settings.rest with
      | [] => showText host Help.program
      | name :: arguments => runCommand host settings name arguments

/-- Runs the command that the arguments name, and says how it ended; the answer is the exit code. -/
def execute (host : Host m) (arguments : List String) : m Nat := do
  let ending ← dispatch host arguments
  match ending.failure with
  | none => return 0
  | some (.exit code message) =>
    host.complain (message ++ "\n")
    return code
  | some (.fatal message) =>
    match ending.logFile with
    | some path =>
      host.complain ("Failed to write to log, write " ++ path ++ ": file already closed\n")
    | none => host.logEntry ⟨none, false⟩ ⟨.fatal, message, []⟩
    return 1

end FieldFlow.Command
