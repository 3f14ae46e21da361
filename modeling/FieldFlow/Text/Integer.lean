/-!
# Decimal integers of 64 bits

The written form of an integer, and the reading of an optional sign followed by decimal digits.
A reading fails for one of two reasons: the text is no integer at all, or the integer does not fit
in 64 bits.

Main definitions: `Integer.display`, `Integer.read`.
-/

namespace FieldFlow

namespace Integer

/-- Why a text is not read as an integer. -/
inductive Refusal where
  /-- The text is not a sign and digits. -/
  | malformed
  /-- The integer lies outside the 64 bit range. -/
  | outOfRange
deriving DecidableEq, Repr

/-- The decimal form, with a minus sign if negative. -/
def display (n : Int) : String :=
  if n < 0 then "-" ++ Nat.repr n.natAbs else Nat.repr n.natAbs

/-- The value of a decimal digit. -/
def digitValue (c : Char) : Nat := c.toNat - 48

/-- Reads digits from the left onto `start`.  The reading stops at the first character that is no
digit, or at the first digit that takes the number beyond 64 bits without sign. -/
def readDigits (start : Nat) : List Char → Except Refusal Nat
  | [] => .ok start
  | c :: rest =>
    if c.isDigit then
      let n := start * 10 + digitValue c
      if n < 18446744073709551616 then readDigits n rest else .error .outOfRange
    else .error .malformed

/-- One or more digits. -/
def readNumeral : List Char → Except Refusal Nat
  | [] => .error .malformed
  | digits => readDigits 0 digits

/-- The integers of 64 bits. -/
def inRange (n : Int) : Bool := -9223372036854775808 ≤ n && n < 9223372036854775808

/-- The integer, if it has 64 bits. -/
def bounded (n : Int) : Except Refusal Int := if inRange n then .ok n else .error .outOfRange

/-- Reads an optional single sign followed by one or more decimal digits. -/
def read (text : String) : Except Refusal Int :=
  match text.toList with
  | '-' :: digits => do bounded (-((← readNumeral digits) : Int))
  | '+' :: digits => do bounded (← readNumeral digits)
  | digits => do bounded (← readNumeral digits)

end Integer

end FieldFlow
