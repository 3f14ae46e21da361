/-!
# Semantic versions

A version is a `v`, one to three numbers with points between them and, after three numbers, an
optional pre-release and optional build labels.  Numbers have no leading zeros, labels are not
empty.

Main definition: `Version.major?`.
-/

namespace FieldFlow.Version

/-- The characters of a label. -/
def isLabelChar (c : Char) : Bool := c.isAlphanum || c = '-'

/-- The parts of a text between points. -/
def splitPoints : List Char → List (List Char)
  | [] => [[]]
  | '.' :: rest => [] :: splitPoints rest
  | c :: rest =>
    match splitPoints rest with
    | [] => [[c]]
    | first :: others => (c :: first) :: others

/-- A number at the start of a text, and what follows it. -/
def number? (cs : List Char) : Option (List Char × List Char) :=
  match cs.takeWhile Char.isDigit, cs.dropWhile Char.isDigit with
  | [], _ => none
  | '0' :: _ :: _, _ => none
  | digits, rest => some (digits, rest)

/-- A label is one or more letters, digits and hyphens. -/
def isLabel (cs : List Char) : Bool := !cs.isEmpty && cs.all isLabelChar

/-- A row of digits with a leading zero. -/
def isPaddedNumber (cs : List Char) : Bool :=
  match cs with
  | '0' :: _ :: _ => cs.all Char.isDigit
  | _ => false

/-- The labels of a pre-release; one that is a number has no leading zero. -/
def isPreRelease (cs : List Char) : Bool :=
  (splitPoints cs).all fun label => isLabel label && !isPaddedNumber label

/-- The labels of a build. -/
def isBuild (cs : List Char) : Bool := (splitPoints cs).all isLabel

/-- What may follow the third number. -/
def isSuffix : List Char → Bool
  | [] => true
  | '+' :: build => isBuild build
  | '-' :: rest =>
    isPreRelease (rest.takeWhile (· ≠ '+')) &&
      match rest.dropWhile (· ≠ '+') with
      | [] => true
      | _ :: build => isBuild build
  | _ => false

/-- What may follow the second number. -/
def isAfterMinor : List Char → Bool
  | [] => true
  | '.' :: rest =>
    match number? rest with
    | none => false
    | some (_, rest) => isSuffix rest
  | _ => false

/-- What may follow the first number. -/
def isAfterMajor : List Char → Bool
  | [] => true
  | '.' :: rest =>
    match number? rest with
    | none => false
    | some (_, rest) => isAfterMinor rest
  | _ => false

/-- The first number of a version, nothing if the text is no version. -/
def major? (text : String) : Option String :=
  match text.toList with
  | 'v' :: rest =>
    match number? rest with
    | none => none
    | some (major, rest) => if isAfterMajor rest then some (String.ofList major) else none
  | _ => none

end FieldFlow.Version
