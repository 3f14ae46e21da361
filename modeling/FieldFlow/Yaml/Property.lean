import FieldFlow.Text.Octets
import FieldFlow.Yaml.Cursor

/-!
# Anchors, tags and directives

A node may be given a name by an anchor and a type by a tag.  Directives before a document say which
version of the notation it is written in and what the handles of its tags stand for.

Main definitions: `Property.anchor`, `Property.tag`, `Property.directive`.
-/

namespace FieldFlow.Yaml.Property

/-! ## Anchors -/

/-- What may follow the name of an anchor. -/
def endsAnchor : List Char → Bool
  | [] => true
  | c :: _ =>
    isGap c || c = '?' || c = ':' || c = ',' || c = ']' || c = '\x7d' || c = '%' ||
      c = '@' || c = '\x60'

/-- Reads the name of an anchor or an alias, from its mark on. -/
def anchor (c : Cursor) : Except Malformed (String × Cursor) := do
  let (name, c) ← (c.skip 1).span isNameChar
  if name.isEmpty || !endsAnchor c.rest then c.refuse "the name of an anchor is expected"
  else return (String.ofList name, c)

/-! ## Tags -/

/-- A tag: a handle that stands for the start of a type's name, and the rest of the name. -/
structure Tag where
  handle : String
  suffix : Octets
deriving DecidableEq, Repr

/-- The characters of a type's name that stand for themselves. -/
def isUriChar (c : Char) : Bool :=
  isNameChar c || c = ';' || c = '/' || c = '?' || c = ':' || c = '@' || c = '&' || c = '=' ||
    c = '+' || c = '$' || c = ',' || c = '.' || c = '!' || c = '~' || c = '*' ||
      c = '\'' || c = '(' ||
    c = ')' || c = '[' || c = ']'

/-- The octet written after a percent sign. -/
def escapedOctet? : List Char → Option Nat
  | '%' :: a :: b :: _ => do return (← hexValue? a) * 16 + (← hexValue? b)
  | _ => none

/-- How many octets a character takes that starts with the given one. -/
def octetWidth (b : Nat) : Nat :=
  if b < 0x80 then 1
  else if 0xC0 ≤ b ∧ b < 0xE0 then 2
  else if 0xE0 ≤ b ∧ b < 0xF0 then 3
  else if 0xF0 ≤ b ∧ b < 0xF8 then 4
  else 0

/-- Reads an escaped octet. -/
def escapedOctet (c : Cursor) : Except Malformed (Nat × Cursor) := do
  let c ← c.look 3
  match escapedOctet? c.rest with
  | none => c.refuse "an escaped octet is expected"
  | some b => return (b, c.skip 3)

/-- Reads the escaped octets that continue a character. -/
def continuations : Nat → List Nat → Cursor → Except Malformed (List Nat × Cursor)
  | 0, octets, c => .ok (octets, c)
  | n + 1, octets, c => do
    let (b, c) ← escapedOctet c
    if 0x80 ≤ b ∧ b < 0xC0 then continuations n (octets ++ [b]) c
    else c.refuse "an octet does not continue a character"

/-- Reads a character written as escaped octets. -/
def escapedChar (c : Cursor) : Except Malformed (List Nat × Cursor) := do
  let (b, c) ← escapedOctet c
  match octetWidth b with
  | 0 => c.refuse "an octet does not start a character"
  | n + 1 => continuations n [b] c

/-- The octets of a character. -/
def octetsOf (c : Char) : List Nat :=
  (String.singleton c).toUTF8.toList.map UInt8.toNat

/-- Reads the characters of a type's name, as octets. -/
def uriOctets : Nat → List Nat → Cursor → Except Malformed (List Nat × Cursor)
  | 0, octets, c => .ok (octets, c)
  | fuel + 1, octets, c => do
    let c ← c.look 1
    match c.rest with
    | [] => return (octets, c)
    | ch :: _ =>
      if ch = '%' then
        let (more, c) ← escapedChar c
        uriOctets fuel (octets ++ more) c
      else if isUriChar ch then uriOctets fuel (octets ++ octetsOf ch) (c.skip 1)
      else return (octets, c)

/-- Reads a type's name. -/
def uri (c : Cursor) : Except Malformed (Octets × Cursor) := do
  let (octets, after) ← uriOctets c.bound [] c
  return (⟨octets⟩, after)

/-- Reads a type's name, which must not be empty. -/
def uriText (c : Cursor) : Except Malformed (Octets × Cursor) := do
  let (name, after) ← uri c
  if name.isEmpty then c.refuse "the name of a type is expected" else return (name, after)

/-- Reads a handle: an exclamation mark, name characters, perhaps a second mark. -/
def handle (c : Cursor) : Except Malformed (List Char × Cursor) := do
  let c ← c.look 1
  if c.sees '!' then
    let (name, c) ← (c.skip 1).span isNameChar
    if c.sees '!' then return ('!' :: name ++ ['!'], c.skip 1) else return ('!' :: name, c)
  else c.refuse "a handle is expected"

/-- The handle has its closing mark. -/
def isClosed (handle : List Char) : Bool := handle.length > 1 && handle.getLast? = some '!'

/-- Reads a tag up to its end.  Without a closing mark, what looked like a handle is a part of the
name. -/
def tagBody (c : Cursor) : Except Malformed (Tag × Cursor) := do
  let c ← c.look 2
  if (c.rest.drop 1).head? = some '<' then
    let (name, c) ← uriText (c.skip 2)
    if c.sees '>' then return (⟨"", name⟩, c.skip 1) else c.refuse "a tag is not closed"
  else
    let (h, c) ← handle c
    if isClosed h then
      let (suffix, c) ← uriText c
      return (⟨String.ofList h, suffix⟩, c)
    else
      let (more, c) ← uri c
      let suffix := Octets.ofString (String.ofList (h.drop 1)) ++ more
      return (if suffix.isEmpty then ⟨"", "!"⟩ else ⟨"!", suffix⟩, c)

/-- Reads a tag, from its mark on. -/
def tag (c : Cursor) : Except Malformed (Tag × Cursor) := do
  let (found, c) ← tagBody c
  let c ← c.look 1
  if startsGap c.rest then return (found, c) else c.refuse "a gap is expected after a tag"

/-! ## Directives -/

/-- What a directive says. -/
inductive Directive where
  | version (major minor : Nat)
  | handle (name : String) (expansion : Octets)
deriving DecidableEq, Repr

/-- Reads a number of one or two digits. -/
def versionNumber (c : Cursor) : Except Malformed (Nat × Cursor) := do
  match ← c.span Char.isDigit with
  | ([a], c) => return (a.toNat - '0'.toNat, c)
  | ([a, b], c) => return ((a.toNat - '0'.toNat) * 10 + (b.toNat - '0'.toNat), c)
  | (_, c) => c.refuse "a version number is expected"

/-- Reads the two numbers of a version. -/
def versionBody (c : Cursor) : Except Malformed (Directive × Cursor) := do
  let (major, c) ← versionNumber (← c.skipBlanks)
  if c.sees '.' then
    let (minor, c) ← versionNumber (c.skip 1)
    return (.version major minor, c)
  else c.refuse "a point is expected in a version"

/-- Reads a handle and what it stands for. -/
def handleBody (c : Cursor) : Except Malformed (Directive × Cursor) := do
  let (h, c) ← handle (← c.skipBlanks)
  if !isClosed h && h ≠ ['!'] then c.refuse "a handle is expected"
  else
    let c ← c.look 1
    if (c.rest.head?.map isBlank).getD false then
      let (expansion, c) ← uriText (← c.skipBlanks)
      let c ← c.look 1
      if startsGap c.rest then return (.handle (String.ofList h) expansion, c)
      else c.refuse "a gap is expected after a handle"
    else c.refuse "a blank is expected after a handle"

/-- Reads a directive with its line, from its mark on. -/
def directive (c : Cursor) : Except Malformed (Directive × Cursor) := do
  let (name, c) ← (c.skip 1).span isNameChar
  if !startsGap c.rest then c.refuse "the name of a directive is expected"
  else
    let (found, c) ←
      match String.ofList name with
      | "YAML" => versionBody c
      | "TAG" => handleBody c
      | _ => c.refuse "unknown directive"
    return (found, ← c.endLine)

end FieldFlow.Yaml.Property
