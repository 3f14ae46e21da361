/-!
# Characters of a document

The character classes that divide a document into tokens, and the characters that may occur in one
at all.

Main definitions: `isBreak`, `isBlank`, `isAllowed`.
-/

namespace FieldFlow.Yaml

/-- Ends a line: line feed, carriage return, next line, line and paragraph separator. -/
def isBreak (c : Char) : Bool :=
  c = '\n' || c = '\r' || c = '\x85' || c = '\u2028' || c = '\u2029'

/-- A space or a tab. -/
def isBlank (c : Char) : Bool := c = ' ' || c = '\t'

/-- Separates words. -/
def isGap (c : Char) : Bool := isBlank c || isBreak c

/-- The characters of names: letters, digits, underscores and hyphens. -/
def isNameChar (c : Char) : Bool := c.isAlphanum || c = '_' || c = '-'

/-- The characters that may stand in a document; most control characters may not. -/
def isAllowed (c : Char) : Bool :=
  c = '\t' || c = '\n' || c = '\r' || c = '\x85' ||
    (0x20 ≤ c.toNat && c.toNat ≤ 0x7E) || (0xA0 ≤ c.toNat && c.toNat ≤ 0xD7FF) ||
    (0xE000 ≤ c.toNat && c.toNat ≤ 0xFFFD) || 0x10000 ≤ c.toNat

/-- A word ends here: a gap follows, or nothing. -/
def startsGap : List Char → Bool
  | [] => true
  | c :: _ => isGap c

/-- The character that a line break is read as: separators stay, all others are line feeds. -/
def breakValue (c : Char) : Char := if c = '\u2028' || c = '\u2029' then c else '\n'

/-- The value of a hexadecimal digit. -/
def hexValue? (c : Char) : Option Nat :=
  if c.isDigit then some (c.toNat - '0'.toNat)
  else if 'a' ≤ c ∧ c ≤ 'f' then some (c.toNat - 'a'.toNat + 10)
  else if 'A' ≤ c ∧ c ≤ 'F' then some (c.toNat - 'A'.toNat + 10)
  else none

end FieldFlow.Yaml
