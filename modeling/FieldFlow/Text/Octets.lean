import FieldFlow.Text.Quoted

/-!
# Octets as text

A text can be taken as the octets of its characters in UTF-8.  Octets can be cut anywhere, so they
may hold some that belong to no character.  Such an octet is shown by the replacement character, and
by its number between quotes.

Main definitions: `Octets`, `Octets.glyphs`, `Octets.text`, `Octets.quote`.
-/

namespace FieldFlow

/-- A row of octets. -/
structure Octets where
  list : List Nat
deriving DecidableEq, Repr

namespace Octets

/-- The octets of a text. -/
def ofString (text : String) : Octets := ⟨text.toUTF8.toList.map UInt8.toNat⟩

instance : Coe String Octets := ⟨ofString⟩

instance : Append Octets := ⟨fun a b => ⟨a.list ++ b.list⟩⟩

/-- There are none. -/
def isEmpty (o : Octets) : Bool := o.list.isEmpty

/-- Some rows one after the other. -/
def join (rows : List Octets) : Octets := ⟨rows.flatMap list⟩

/-- How many there are. -/
def size (o : Octets) : Nat := o.list.length

/-- The first `n`. -/
def take (o : Octets) (n : Nat) : Octets := ⟨o.list.take n⟩

/-- All but the first `n`. -/
def drop (o : Octets) (n : Nat) : Octets := ⟨o.list.drop n⟩

/-! ## Characters -/

/-- The payload of a continuation octet. -/
def continuation? (b : Nat) : Option Nat := if 0x80 ≤ b ∧ b < 0xC0 then some (b - 0x80) else none

/-- The character with the given code, if it needs no shorter encoding and is no surrogate. -/
def character? (least code : Nat) : Option Char :=
  if least ≤ code ∧ code.isValidChar then some (Char.ofNat code) else none

/-- The character of two octets. -/
def two? (a b : Nat) : Option Char :=
  if 0xC0 ≤ a ∧ a < 0xE0 then do
    character? 0x80 ((a - 0xC0) * 0x40 + (← continuation? b))
  else none

/-- The character of three octets. -/
def three? (a b c : Nat) : Option Char :=
  if 0xE0 ≤ a ∧ a < 0xF0 then do
    character? 0x800 (((a - 0xE0) * 0x40 + (← continuation? b)) * 0x40 + (← continuation? c))
  else none

/-- The character of four octets. -/
def four? (a b c d : Nat) : Option Char :=
  if 0xF0 ≤ a ∧ a < 0xF8 then do
    character? 0x10000
      ((((a - 0xF0) * 0x40 + (← continuation? b)) * 0x40 + (← continuation? c)) * 0x40 +
        (← continuation? d))
  else none

/-- The character at the start of the octets, and how many octets it takes. -/
def first? : List Nat → Option (Char × Nat)
  | [] => none
  | a :: rest =>
    if a < 0x80 then some (Char.ofNat a, 1)
    else
      let two := match rest with
        | b :: _ => (two? a b).map fun ch => (ch, 2)
        | _ => none
      let three := match rest with
        | b :: c :: _ => (three? a b c).map fun ch => (ch, 3)
        | _ => none
      let four := match rest with
        | b :: c :: d :: _ => (four? a b c d).map fun ch => (ch, 4)
        | _ => none
      (two <|> three) <|> four

/-- A character, or an octet that belongs to none. -/
inductive Glyph where
  | char (c : Char)
  | stray (octet : Nat)
deriving DecidableEq, Repr

/-- The characters of the octets; `skip` octets belong to the character before. -/
def glyphsFrom (skip : Nat) : List Nat → List Glyph
  | [] => []
  | octet :: rest =>
    match skip with
    | skip + 1 => glyphsFrom skip rest
    | 0 =>
      match first? (octet :: rest) with
      | some (ch, width) => .char ch :: glyphsFrom (width - 1) rest
      | none => .stray octet :: glyphsFrom 0 rest

/-- The characters of the octets, and the octets that belong to none. -/
def glyphs (o : Octets) : List Glyph := glyphsFrom 0 o.list

/-- The character that shows a character, or an octet that belongs to none. -/
def Glyph.shown : Glyph → Char
  | char c => c
  | stray _ => '\ufffd'

/-- The octets as text. -/
def text (o : Octets) : String := String.ofList (o.glyphs.map Glyph.shown)

/-- How a character, or an octet that belongs to none, is written inside quotes. -/
def Glyph.escape : Glyph → List Char
  | char c => Text.escape c
  | stray octet => '\\' :: 'x' :: Text.hexDigits 2 octet

/-- The octets as text between double quotes. -/
def quote (o : Octets) : String :=
  String.ofList ('"' :: (o.glyphs.flatMap Glyph.escape ++ ['"']))

end Octets

end FieldFlow
