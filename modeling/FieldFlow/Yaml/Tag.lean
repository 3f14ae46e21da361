import FieldFlow.Text.Octets
import FieldFlow.Yaml.Number
import FieldFlow.Yaml.Timestamp

/-!
# Types of scalars

A plain scalar without a tag is given a type by its text.  A tag of one of those types must fit the
text; any other tag leaves the text alone.

Main definitions: `Tag.meaning`, `Tag.resolve`.
-/

namespace FieldFlow.Yaml.Tag

/-- What the names of the types of the notation itself start with. -/
def standard : Octets := "tag:yaml.org,2002:"

def str : Octets := standard ++ "str"
def bool : Octets := standard ++ "bool"
def int : Octets := standard ++ "int"
def float : Octets := standard ++ "float"
def null : Octets := standard ++ "null"
def timestamp : Octets := standard ++ "timestamp"
def binary : Octets := standard ++ "binary"
def merge : Octets := standard ++ "merge"
def seq : Octets := standard ++ "seq"
def map : Octets := standard ++ "map"

/-- The name of a type as it is shown to a reader. -/
def short (tag : Octets) : Octets :=
  if standard.list.isPrefixOf tag.list then "!!" ++ tag.drop standard.size else tag

/-- What a text stands for. -/
inductive Meaning where
  | null
  | bool
  /-- An integer; `wide` if it needs all of 64 bits without a sign. -/
  | int (wide : Bool)
  | float
  | timestamp
  | str
deriving DecidableEq, Repr

/-- The type of a meaning. -/
def Meaning.tag : Meaning → Octets
  | null => Tag.null
  | bool => Tag.bool
  | int _ => Tag.int
  | float => Tag.float
  | timestamp => Tag.timestamp
  | str => Tag.str

/-- The words that stand for nothing. -/
def nullWords : List String := ["", "~", "null", "Null", "NULL"]

/-- The words that stand for truth values. -/
def boolWords : List String :=
  ["y", "Y", "yes", "Yes", "YES", "true", "True", "TRUE", "on", "On", "ON", "n", "N", "no", "No",
    "NO", "false", "False", "FALSE", "off", "Off", "OFF"]

/-- The words that stand for numbers which have no digits. -/
def floatWords : List String :=
  [".nan", ".NaN", ".NAN", ".inf", ".Inf", ".INF", "+.inf", "+.Inf", "+.INF", "-.inf", "-.Inf",
    "-.INF"]

/-- What a text stands for that starts with a digit or a sign; underscores in numbers do not
count. -/
def numeric (timestamps : Bool) (cs : List Char) : Meaning :=
  let plain := cs.filter (· ≠ '_')
  if timestamps && Timestamp.isTimestamp cs then .timestamp
  else match Number.integer? plain with
    | some n => .int (!Number.isSigned n)
    | none => if Number.isDecimal plain then .float else .str

/-- What a text stands for. -/
def meaning (timestamps : Bool) (text : String) : Meaning :=
  if nullWords.contains text then .null
  else if boolWords.contains text then .bool
  else if floatWords.contains text then .float
  else match text.toList with
    | [] => .null
    | c :: rest =>
      if c = '.' then (if Number.isFraction (c :: rest) then .float else .str)
      else if c.isDigit || c = '+' || c = '-' then numeric timestamps (c :: rest)
      else .str

/-- The types that a text can be checked for. -/
def checked : List Octets := [str, bool, int, float, null, timestamp]

/-- The type of a scalar and whether it stands for nothing.  There is no answer if the tag does not
fit the text; a number with a fraction may be written as a signed integer. -/
def resolve (tag : Octets) (text : String) : Option (Octets × Bool) :=
  if tag.isEmpty then
    let found := meaning true text
    some (found.tag, found = .null)
  else if tag = str || !checked.contains tag then some (tag, false)
  else
    let found := meaning (tag = timestamp) text
    if found.tag = tag || (tag = float && found = .int false) then some (tag, found = .null)
    else none

end FieldFlow.Yaml.Tag
