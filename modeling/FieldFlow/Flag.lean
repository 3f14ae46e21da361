import FieldFlow.Text.Quoted

/-!
# Flags

Arguments that start with one or two hyphens are flags.  A switch stands alone or is given a truth
value after an equals sign; any other flag takes its value after an equals sign or from the next
argument.  The first argument that is no flag ends them, as do two hyphens alone.

Main definitions: `Flag`, `Flag.Settings`, `Flag.parse`.
-/

namespace FieldFlow

/-- A flag and what it takes. -/
structure Flag where
  name : String
  /-- The other names of the flag. -/
  others : List String
  /-- The flag takes a truth value, which may be left out. -/
  isSwitch : Bool
  /-- What the flag asks for. -/
  meaning : String
deriving DecidableEq, Repr

namespace Flag

/-- All names of a flag. -/
def names (f : Flag) : List String := f.name :: f.others

/-- Why arguments are refused. -/
inductive Misuse where
  | malformed (argument : String)
  | undefined (name : String)
  | withoutValue (name : String)
  | notTruth (name value : String)
  | help
  /-- A flag was set by two of its names. -/
  | twoForms (first second : String)
deriving DecidableEq, Repr

/-- The wording of a refusal. -/
def Misuse.message : Misuse → String
  | malformed argument => "bad flag syntax: " ++ argument
  | undefined name => "flag provided but not defined: -" ++ name
  | withoutValue name => "flag needs an argument: -" ++ name
  | notTruth name value =>
    "invalid boolean value " ++ Text.quote value ++ " for -" ++ name ++ ": parse error"
  | help => "flag: help requested"
  | twoForms first second => "Cannot use two forms of the same flag: " ++ second ++ " " ++ first

/-- What was set, the latest first, and the arguments after the flags. -/
structure Settings where
  values : List (String × String)
  rest : List String
deriving DecidableEq, Repr

/-- The truth value that a word stands for. -/
def truth? : String → Option Bool
  | "1" => some true
  | "t" => some true
  | "T" => some true
  | "true" => some true
  | "TRUE" => some true
  | "True" => some true
  | "0" => some false
  | "f" => some false
  | "F" => some false
  | "false" => some false
  | "FALSE" => some false
  | "False" => some false
  | _ => none

namespace Settings

/-- The text that a flag was set to last; empty if it was not set. -/
def text (s : Settings) (name : String) : String := (s.values.lookup name).getD ""

/-- The flag was set by this name. -/
def isSet (s : Settings) (name : String) : Bool := (s.values.lookup name).isSome

/-- The switch was set to a true value last. -/
def isOn (s : Settings) (name : String) : Bool := (truth? (s.text name)).getD false

end Settings

/-- What an argument is. -/
inductive Shape where
  /-- The argument is no flag. -/
  | plain
  /-- The argument ends the flags. -/
  | stop
  | malformed
  | flag (name : String) (value : Option String)

/-- The name of a flag and its value; the first character belongs to the name in any case. -/
def split : List Char → String × Option String
  | [] => ("", none)
  | c :: rest =>
    let name := String.ofList (c :: rest.takeWhile (· ≠ '='))
    match rest.dropWhile (· ≠ '=') with
    | [] => (name, none)
    | _ :: value => (name, some (String.ofList value))

/-- What stands after the hyphens of a flag. -/
def body : List Char → Shape
  | [] => .malformed
  | '-' :: _ => .malformed
  | '=' :: _ => .malformed
  | cs =>
    let (name, value) := split cs
    .flag name value

/-- What an argument is. -/
def shape (argument : String) : Shape :=
  match argument.toList with
  | ['-', '-'] => .stop
  | '-' :: '-' :: rest => body rest
  | ['-'] => .plain
  | '-' :: rest => body rest
  | _ => .plain

/-- Takes the flags from the front of the arguments, up to the first that is refused. -/
def takeFrom (flags : List Flag) (values : List (String × String)) :
    List String → Settings × Option Misuse
  | [] => (⟨values, []⟩, none)
  | argument :: rest =>
    let refused (m : Misuse) : Settings × Option Misuse := (⟨values, rest⟩, some m)
    match shape argument with
    | .plain => (⟨values, argument :: rest⟩, none)
    | .stop => (⟨values, rest⟩, none)
    | .malformed => refused (.malformed argument)
    | .flag name value =>
      match flags.find? (·.names.contains name) with
      | none => refused (if name = "help" || name = "h" then .help else .undefined name)
      | some flag =>
        if flag.isSwitch then
          let given := value.getD "true"
          if (truth? given).isSome then takeFrom flags ((name, given) :: values) rest
          else refused (.notTruth name given)
        else match value with
          | some given => takeFrom flags ((name, given) :: values) rest
          | none =>
            match rest with
            | given :: rest => takeFrom flags ((name, given) :: values) rest
            | [] => refused (.withoutValue name)

/-- Takes the flags from the front of the arguments. -/
def parse (flags : List Flag) (arguments : List String) : Except Misuse Settings :=
  match takeFrom flags [] arguments with
  | (s, none) => .ok s
  | (_, some m) => .error m

/-- The first flag that was set by two of its names. -/
def twoForms? (flags : List Flag) (s : Settings) : Option Misuse :=
  flags.findSome? fun f =>
    match f.names.filter s.isSet with
    | first :: second :: _ => some (.twoForms first second)
    | _ => none

end Flag

end FieldFlow
