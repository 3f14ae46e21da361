import FieldFlow.Options

/-!
# Help

What the program says about itself: its commands, its flags and how they are called.

Main definitions: `Command.Help.program`, `Command.Help.command`, `Command.Help.overview`.
-/

namespace FieldFlow.Command

/-- A command as the help shows it. -/
structure Topic where
  names : List String
  /-- How the command is called, without its arguments. -/
  call : String
  meaning : String
  arguments : String

namespace Help

/-- The name under which the program shows itself. -/
def programName : String := "fieldprop"

/-- What the program is for. -/
def purpose : String := "resolve the field values of the abstract objects of a model"

/-- The commands. -/
def topics : List Topic :=
  [⟨["run"], programName ++ " run", "build, finalize and print every object of a model",
      "<model.yaml>"⟩,
    ⟨["help", "h"], "", "Shows a list of commands or help for one command", "[command]"⟩]

/-- The command with a name. -/
def topic? (name : String) : Option Topic := topics.find? fun t => t.names.contains name

/-- The flag that asks for help. -/
def flag : Flag := ⟨"help", ["h"], true, "show help"⟩

/-- The name of a flag with its hyphens: one in front of a single letter, otherwise two. -/
def hyphenated (name : String) : String := (if name.length = 1 then "-" else "--") ++ name

/-- A flag as the help shows it. -/
def flagTerm (f : Flag) : String :=
  ", ".intercalate (f.names.map hyphenated) ++ if f.isSwitch then "" else " value"

/-- Terms and what they mean; the meanings stand two spaces behind the longest term. -/
def columns (entries : List (String × String)) : String :=
  let width := entries.foldl (fun n e => max n e.1.length) 0 + 2
  String.join (entries.map fun e =>
    "   " ++ String.ofList (e.1.toList.rightpad width ' ') ++ e.2 ++ "\n")

/-- The list of commands. -/
def commandList : String := columns (topics.map fun t => (", ".intercalate t.names, t.meaning))

/-- The list of flags. -/
def flagList : String :=
  columns ((Options.flags ++ [flag]).map fun f => (flagTerm f, f.meaning))

/-- Help on the program. -/
def program : String :=
  "NAME:\n   " ++ programName ++ " - " ++ purpose ++
  "\n\nUSAGE:\n   " ++ programName ++
    " [global options] command [command options] [arguments...]" ++
  "\n\nCOMMANDS:\n" ++ commandList ++
  "\nGLOBAL OPTIONS:\n" ++ flagList

/-- Help on a command. -/
def command (t : Topic) : String :=
  "NAME:\n   " ++ t.call ++ " - " ++ t.meaning ++
  "\n\nUSAGE:\n   " ++ t.call ++ " " ++ t.arguments ++ "\n"

/-- Help on a command without a name: the program as if it were a command itself. -/
def overview : String :=
  "NAME:\n   " ++ programName ++ " - " ++ purpose ++
  "\n\nUSAGE:\n   " ++ programName ++ " command [command options] [arguments...]" ++
  "\n\nCOMMANDS:\n" ++ commandList ++
  "\nOPTIONS:\n" ++ flagList ++ "   \n"

end Help

end FieldFlow.Command
