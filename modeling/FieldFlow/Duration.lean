import FieldFlow.Binary
import FieldFlow.Text.Integer
import FieldFlow.Text.Quoted

/-!
# Durations

A duration is a signed number of nanoseconds that fits into 64 bits.  It is written as a row of
numbers with units, `1h15m30.9s`, in which every number may have a fraction.  The fraction of a unit
is computed with 53 significant bits and its whole nanoseconds are kept.

Main definitions: `Duration.read`, `Duration.text`.
-/

namespace FieldFlow.Duration

/-- Why a text is no duration. -/
inductive Refusal where
  | invalid (text : String)
  | missingUnit (text : String)
  | unknownUnit (unit text : String)
deriving DecidableEq, Repr

/-- One character of a refused text; each octet of what is not printable in seven bits is shown by
its number. -/
def quoteChar (c : Char) : String :=
  if c = '"' || c = '\\' then "\\" ++ String.singleton c
  else if c.toNat < 0x20 || 0x80 ≤ c.toNat then
    String.join ((String.singleton c).toUTF8.toList.map fun b =>
      "\\x" ++ String.ofList (Text.hexDigits 2 b.toNat))
  else String.singleton c

/-- A refused text between quotes. -/
def quote (text : String) : String :=
  "\"" ++ String.join (text.toList.map quoteChar) ++ "\""

/-- The wording of a refusal. -/
def Refusal.message : Refusal → String
  | invalid text => "time: invalid duration " ++ quote text
  | missingUnit text => "time: missing unit in duration " ++ quote text
  | unknownUnit unit text => "time: unknown unit " ++ quote unit ++ " in duration " ++ quote text

/-- The nanoseconds of a unit; the microsecond has three spellings. -/
def unit? : String → Option Nat
  | "ns" => some 1
  | "us" => some 1000
  | "µs" => some 1000
  | "μs" => some 1000
  | "ms" => some 1000000
  | "s" => some 1000000000
  | "m" => some 60000000000
  | "h" => some 3600000000000
  | _ => none

/-- The largest number of nanoseconds, reached only below zero. -/
def limit : Nat := 9223372036854775808

/-! ## Reading -/

/-- The value of a digit. -/
def digitOf (c : Char) : Nat := c.toNat - '0'.toNat

/-- The value of a row of digits, unless it passes the limit on the way. -/
def whole? : Nat → List Char → Option Nat
  | value, [] => some value
  | value, c :: rest =>
    let next := value * 10 + digitOf c
    if limit < next then none else whole? next rest

/-- The digits after a point: their value, and how many of them count.  Digits that would pass the
limit, and those after them, do not count. -/
def fraction : Nat → Nat → List Char → Nat × Nat
  | value, places, [] => (value, places)
  | value, places, c :: rest =>
    let next := value * 10 + digitOf c
    if (limit - 1) / 10 < value || limit < next then (value, places)
    else fraction next (places + 1) rest

/-- Ten to the power `places`, multiplied up one factor at a time. -/
def scale : Nat → Binary
  | 0 => Binary.ofNat 1
  | places + 1 => (scale places).mul (Binary.ofNat 10)

/-- The whole nanoseconds in a fraction of a unit. -/
def fractionOf (unit value places : Nat) : Nat :=
  ((Binary.ofNat value).mul ((Binary.ofNat unit).div (scale places))).floor

/-- The characters of a unit's name. -/
def isUnitChar (c : Char) : Bool := !c.isDigit && c ≠ '.'

/-- The nanoseconds of the first number with its unit, and what follows them.  `text` is the whole
text, for refusals. -/
def term (text : String) (cs : List Char) : Except Refusal (Nat × List Char) :=
  let digits := cs.takeWhile Char.isDigit
  let rest := cs.dropWhile Char.isDigit
  match whole? 0 digits with
  | none => .error (.invalid text)
  | some value =>
    let (decimals, rest) := match rest with
      | '.' :: more => (more.takeWhile Char.isDigit, more.dropWhile Char.isDigit)
      | _ => ([], rest)
    let name := String.ofList (rest.takeWhile isUnitChar)
    if digits.isEmpty && decimals.isEmpty then .error (.invalid text)
    else if name.isEmpty then .error (.missingUnit text)
    else match unit? name with
      | none => .error (.unknownUnit name text)
      | some unit =>
        let (part, places) := fraction 0 0 decimals
        let total := value * unit + fractionOf unit part places
        if limit / unit < value || limit < total then .error (.invalid text)
        else .ok (total, rest.dropWhile isUnitChar)

/-- The sum of the numbers with their units, kept in 64 bits without a sign. -/
def terms (text : String) : Nat → Nat → List Char → Except Refusal Nat
  | _, sum, [] => .ok sum
  | 0, _, _ :: _ => .error (.invalid text)
  | fuel + 1, sum, cs => do
    let (value, rest) ← term text cs
    let next := (sum + value) % (2 * limit)
    if limit < next then .error (.invalid text) else terms text fuel next rest

/-- The sign in front of a duration, and what follows it. -/
def sign : List Char → Bool × List Char
  | '-' :: rest => (true, rest)
  | '+' :: rest => (false, rest)
  | cs => (false, cs)

/-- Reads a duration.  A lone zero needs no unit. -/
def read (text : String) : Except Refusal Int :=
  let (negative, cs) := sign text.toList
  if cs = ['0'] then .ok 0
  else if cs.isEmpty then .error (.invalid text)
  else do
    let sum ← terms text cs.length 0 cs
    if negative then .ok (-(sum : Int))
    else if limit ≤ sum then .error (.invalid text)
    else .ok sum

/-! ## Writing -/

/-- The digits of a fraction with the given number of places, without the zeros at its end; nothing
if it is zero. -/
def fractionText (value places : Nat) : String :=
  if value = 0 then ""
  else
    let digits := Nat.toDigits 10 value
    let padded := List.replicate (places - digits.length) '0' ++ digits
    "." ++ String.ofList (padded.reverse.dropWhile (· = '0')).reverse

/-- A number of units of ten to the power `places` nanoseconds each. -/
def scaled (n places : Nat) : String :=
  Nat.repr (n / Nat.pow 10 places) ++ fractionText (n % Nat.pow 10 places) places

/-- The text of a duration that is not negative: below a second in the largest unit that leaves a
whole part, above it in hours, minutes and seconds. -/
def magnitude (n : Nat) : String :=
  if n = 0 then "0s"
  else if n < 1000 then Nat.repr n ++ "ns"
  else if n < 1000000 then scaled n 3 ++ "µs"
  else if n < 1000000000 then scaled n 6 ++ "ms"
  else
    let minutes := n / 60000000000
    let hours := minutes / 60
    let seconds := scaled (n % 60000000000) 9 ++ "s"
    if minutes = 0 then seconds
    else if hours = 0 then Nat.repr minutes ++ "m" ++ seconds
    else Nat.repr hours ++ "h" ++ Nat.repr (minutes % 60) ++ "m" ++ seconds

/-- The text of a duration. -/
def text (d : Int) : String :=
  if d < 0 then "-" ++ magnitude d.natAbs else magnitude d.natAbs

end FieldFlow.Duration
