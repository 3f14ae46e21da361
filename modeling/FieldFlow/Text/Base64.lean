/-!
# Base 64

Three octets are written as four characters out of sixty-four.  The last group is filled up with
equals signs.  Line breaks between the characters do not count.

Main definition: `Base64.decode?`.
-/

namespace FieldFlow.Base64

/-- The value of a character. -/
def value? (c : Char) : Option Nat :=
  if 'A' ≤ c ∧ c ≤ 'Z' then some (c.toNat - 'A'.toNat)
  else if 'a' ≤ c ∧ c ≤ 'z' then some (c.toNat - 'a'.toNat + 26)
  else if '0' ≤ c ∧ c ≤ '9' then some (c.toNat - '0'.toNat + 52)
  else if c = '+' then some 62
  else if c = '/' then some 63
  else none

/-- The octets of groups of four characters; only the last may be filled up. -/
def groups? : List Char → Option (List Nat)
  | [] => some []
  | [a, b, '=', '='] => do
    let x ← value? a
    let y ← value? b
    return [x * 4 + y / 16]
  | [a, b, c, '='] => do
    let x ← value? a
    let y ← value? b
    let z ← value? c
    return [x * 4 + y / 16, y % 16 * 16 + z / 4]
  | a :: b :: c :: d :: rest => do
    let x ← value? a
    let y ← value? b
    let z ← value? c
    let w ← value? d
    return (x * 4 + y / 16) :: (y % 16 * 16 + z / 4) :: (z % 4 * 64 + w) :: (← groups? rest)
  | _ => none

/-- The octets that a text stands for. -/
def decode? (text : String) : Option (List Nat) :=
  groups? (text.toList.filter fun c => c ≠ '\n' && c ≠ '\r')

end FieldFlow.Base64
