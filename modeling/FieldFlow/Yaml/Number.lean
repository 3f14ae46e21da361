/-!
# Numbers in plain scalars

Which texts are read as integers and which as numbers with a fraction or an exponent.  Integers have
at most 64 bits; other numbers must not be larger than the largest binary number with a 53-bit
significand and an 11-bit exponent.

Main definitions: `Number.integer?`, `Number.isDecimal`.
-/

namespace FieldFlow.Yaml.Number

/-- The value of a digit in a base up to sixteen. -/
def digit? (base : Nat) (c : Char) : Option Nat :=
  let value :=
    if c.isDigit then c.toNat - '0'.toNat
    else if 'a' ≤ c ∧ c ≤ 'z' then c.toNat - 'a'.toNat + 10
    else if 'A' ≤ c ∧ c ≤ 'Z' then c.toNat - 'A'.toNat + 10
    else base
  if value < base then some value else none

/-- The number that digits stand for. -/
def digits? (base : Nat) : Nat → List Char → Option Nat
  | value, [] => some value
  | value, c :: rest =>
    match digit? base c with
    | none => none
    | some d => digits? base (value * base + d) rest

/-- An unsigned number whose base is marked by what it starts with. -/
def unsigned? : List Char → Option Nat
  | [] => none
  | '0' :: 'b' :: c :: rest => digits? 2 0 (c :: rest)
  | '0' :: 'B' :: c :: rest => digits? 2 0 (c :: rest)
  | '0' :: 'o' :: c :: rest => digits? 8 0 (c :: rest)
  | '0' :: 'O' :: c :: rest => digits? 8 0 (c :: rest)
  | '0' :: 'x' :: c :: rest => digits? 16 0 (c :: rest)
  | '0' :: 'X' :: c :: rest => digits? 16 0 (c :: rest)
  | '0' :: rest => digits? 8 0 rest
  | cs => digits? 10 0 cs

/-- The integer lies in the range of signed 64-bit integers. -/
def isSigned (n : Int) : Bool := -9223372036854775808 ≤ n && n < 9223372036854775808

/-- A number with a sign in front of it, in the range of signed integers. -/
def signed? (number? : List Char → Option Nat) : List Char → Option Int
  | '-' :: rest => (number? rest).bind fun n => if isSigned (-n) then some (-(n : Int)) else none
  | '+' :: rest => (number? rest).bind fun n => if isSigned n then some (n : Int) else none
  | cs => (number? cs).bind fun n => if isSigned n then some (n : Int) else none

/-- The binary digits of a number, at least one. -/
def binary? : List Char → Option Nat
  | [] => none
  | cs => digits? 2 0 cs

/-- An integer of 64 bits, signed or not.  A sign may also stand behind the mark of base two. -/
def integer? (cs : List Char) : Option Int :=
  let wide := (unsigned? cs).bind fun n => if n < 18446744073709551616 then some (n : Int) else none
  let marked := match cs with
    | '0' :: 'b' :: rest => signed? binary? rest
    | _ => none
  (signed? unsigned? cs <|> wide) <|> marked

/-! ## Numbers with a fraction or an exponent -/

/-- A decimal number: its digits without the point, and the power of ten they are multiplied by. -/
structure Decimal where
  digits : Nat
  exponent : Int

/-- The number of digits of a number. -/
def width (n : Nat) : Nat := (Nat.toDigits 10 n).length

/-- The least number that is rounded beyond the largest one. -/
def overflow : Nat := Nat.pow 2 1024 - Nat.pow 2 970

/-- The number can be represented.  Only near the limit is it compared exactly. -/
def Decimal.isFinite (d : Decimal) : Bool :=
  let size : Int := width d.digits + d.exponent
  if d.digits = 0 then true
  else if size > 310 then false
  else if size < 300 then true
  else if 0 ≤ d.exponent then d.digits * Nat.pow 10 d.exponent.toNat < overflow
  else d.digits < overflow * Nat.pow 10 (-d.exponent).toNat

/-- The value of a row of decimal digits. -/
def decimalValue (cs : List Char) : Nat :=
  cs.foldl (fun n c => n * 10 + (c.toNat - '0'.toNat)) 0

/-- The value of the digits of an exponent.  Digits count until it has five of them; with so many,
only a number that is as long itself can come near to one. -/
def exponentValue (cs : List Char) : Nat :=
  cs.foldl (fun n c => if n < 10000 then n * 10 + (c.toNat - '0'.toNat) else n) 0

/-- The exponent at the end of a number, after its mark. -/
def exponent? : List Char → Option Int
  | sign :: rest =>
    if !rest.isEmpty && rest.all Char.isDigit then
      if sign = '+' then some (exponentValue rest)
      else if sign = '-' then some (-(exponentValue rest : Int))
      else none
    else none
  | [] => none

/-- The decimal number with the given digits before and after the point, and what follows them. -/
def decimal? (exponent? : List Char → Option Int) (whole fraction tail : List Char) :
    Option Decimal :=
  let base : Int := -(fraction.length : Int)
  match tail with
  | [] => some ⟨decimalValue (whole ++ fraction), base⟩
  | mark :: rest =>
    if mark = 'e' || mark = 'E' then
      (exponent? rest).map fun e => ⟨decimalValue (whole ++ fraction), base + e⟩
    else none

/-- The text without a sign in front. -/
def unsignedPart : List Char → List Char
  | '-' :: rest => rest
  | '+' :: rest => rest
  | cs => cs

/-- A number that ends with a digit before its exponent, which must have a sign. -/
def isDecimal (cs : List Char) : Bool :=
  let cs := unsignedPart cs
  let whole := cs.takeWhile Char.isDigit
  let found :=
    match cs.dropWhile Char.isDigit with
    | '.' :: rest =>
      let fraction := rest.takeWhile Char.isDigit
      if fraction.isEmpty then none
      else decimal? exponent? whole fraction (rest.dropWhile Char.isDigit)
    | tail => if whole.isEmpty then none else decimal? exponent? whole [] tail
  (found.map Decimal.isFinite).getD false

/-- Underscores stand only between digits; `digit` says that one stands in front. -/
def underscoresFit (digit : Bool) : List Char → Bool
  | [] => true
  | '_' :: rest => digit && (rest.head?.map Char.isDigit).getD false && underscoresFit false rest
  | c :: rest => underscoresFit c.isDigit rest

/-- The exponent at the end of a number, after its mark, perhaps without a sign. -/
def looseExponent? : List Char → Option Int
  | [] => none
  | c :: rest => exponent? (if c = '+' || c = '-' then c :: rest else '+' :: c :: rest)

/-- A number that starts with its point.  Its exponent needs no sign, and underscores may stand
between its digits. -/
def isFraction (cs : List Char) : Bool :=
  let plain := cs.filter (· ≠ '_')
  let found :=
    match plain with
    | '.' :: rest =>
      let fraction := rest.takeWhile Char.isDigit
      if fraction.isEmpty then none
      else decimal? looseExponent? [] fraction (rest.dropWhile Char.isDigit)
    | _ => none
  underscoresFit false cs && (found.map Decimal.isFinite).getD false

end FieldFlow.Yaml.Number
