/-!
# Timestamps in plain scalars

A timestamp is a date, or a date and a time of day.  The date has a year of four digits; all other
numbers have one or two.  A time after a letter `t` of either case ends with a zone, a time after
spaces has none.

Main definition: `Timestamp.isTimestamp`.
-/

namespace FieldFlow.Yaml.Timestamp

/-- The value of a decimal digit. -/
def digit? (c : Char) : Option Nat := if c.isDigit then some (c.toNat - '0'.toNat) else none

/-- A number of one or two digits, and what follows it. -/
def number? : List Char → Option (Nat × List Char)
  | [] => none
  | a :: rest =>
    match digit? a, rest with
    | none, _ => none
    | some x, [] => some (x, [])
    | some x, b :: more =>
      match digit? b with
      | none => some (x, b :: more)
      | some y => some (x * 10 + y, more)

/-- What follows a given character. -/
def after? (c : Char) : List Char → Option (List Char)
  | [] => none
  | d :: rest => if c = d then some rest else none

/-- The year has a twenty-ninth of February. -/
def isLeap (year : Nat) : Bool := year % 4 = 0 && (year % 100 ≠ 0 || year % 400 = 0)

/-- The number of days in a month. -/
def daysIn (year month : Nat) : Nat :=
  if month = 2 then (if isLeap year then 29 else 28)
  else if month = 4 || month = 6 || month = 9 || month = 11 then 30
  else 31

/-- What follows a date. -/
def date? (cs : List Char) : Option (List Char) := do
  let year := cs.takeWhile Char.isDigit
  if year.length ≠ 4 then none
  else
    let value := year.foldl (fun n c => n * 10 + (c.toNat - '0'.toNat)) 0
    let rest ← after? '-' (cs.dropWhile Char.isDigit)
    let (month, rest) ← number? rest
    let rest ← after? '-' rest
    let (day, rest) ← number? rest
    if 1 ≤ month && month ≤ 12 && 1 ≤ day && day ≤ daysIn value month then some rest else none

/-- What follows the fraction of a second, if there is one. -/
def fraction : List Char → List Char
  | mark :: digit :: rest =>
    if (mark = '.' || mark = ',') && digit.isDigit then rest.dropWhile Char.isDigit
    else mark :: digit :: rest
  | cs => cs

/-- What follows a time of day. -/
def time? (cs : List Char) : Option (List Char) := do
  let (hour, rest) ← number? cs
  let rest ← after? ':' rest
  let (minute, rest) ← number? rest
  let rest ← after? ':' rest
  let (second, rest) ← number? rest
  if hour < 24 && minute < 60 && second < 60 then some (fraction rest) else none

/-- The text is a zone: a `Z`, or the distance from it. -/
def isZone : List Char → Bool
  | ['Z'] => true
  | [sign, a, b, ':', c, d] =>
    match digit? a, digit? b, digit? c, digit? d with
    | some a, some b, some c, some d =>
      (sign = '+' || sign = '-') && a * 10 + b ≤ 24 && c * 10 + d ≤ 60
    | _, _, _, _ => false
  | _ => false

/-- The text is a timestamp. -/
def isTimestamp (cs : List Char) : Bool :=
  match date? cs with
  | none => false
  | some [] => true
  | some (mark :: rest) =>
    if mark = 'T' || mark = 't' then ((time? rest).map isZone).getD false
    else if mark = ' ' then time? (rest.dropWhile (· = ' ')) = some []
    else false

end FieldFlow.Yaml.Timestamp
