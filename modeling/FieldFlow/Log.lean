import FieldFlow.Text.Octets

/-!
# Log lines

A log entry has a level, a message and named fields.  It is written on one line: the level, the
message, then the fields in the order of their names.  Texts made of letters, digits and a few marks
stand as they are, all others are quoted.

Main definitions: `Log.Entry`, `Log.Entry.line`.
-/

namespace FieldFlow.Log

/-- How much an entry matters. -/
inductive Level where
  | debug
  | info
  | fatal
deriving DecidableEq, Repr

/-- The name of a level. -/
def Level.name : Level → String
  | debug => "debug"
  | info => "info"
  | fatal => "fatal"

/-- One entry of the log. -/
structure Entry where
  level : Level
  message : Octets
  fields : List (String × String)
deriving DecidableEq, Repr

/-- The characters of a text that needs no quotes. -/
def isBare (c : Char) : Bool :=
  c.isAlphanum || c = '-' || c = '.' || c = '_' || c = '/' || c = '@' || c = '^' || c = '+'

/-- The text needs no quotes. -/
def isPlain (o : Octets) : Bool :=
  o.glyphs.all fun
    | .char c => isBare c
    | .stray _ => false

/-- The text, quoted if it needs to be. -/
def render (o : Octets) : String := if isPlain o then o.text else o.quote

/-- The entry on one line. -/
def Entry.line (e : Entry) : String :=
  let fields := e.fields.mergeSort (fun a b => a.1 ≤ b.1)
  "level=" ++ e.level.name ++ " msg=" ++ render e.message ++
    String.join (fields.map (fun field => " " ++ field.1 ++ "=" ++ render field.2))

end FieldFlow.Log
