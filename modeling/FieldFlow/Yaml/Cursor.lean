import FieldFlow.Yaml.Character

/-!
# Positions in a document

A cursor is what is left of a document together with where that is.  Columns and lines are counted
from zero, in characters.

A document is loaded in portions, and a portion only when one of its characters has to be looked at.
So a character that may not stand in a document is found out only then, together with its portion.
Whenever something is loaded, what was loaded before and is not passed yet moves to the front;
whether a mark of the byte order stands there is remembered until the next time.

Main definitions: `Cursor`, `Cursor.look`, `Malformed`.
-/

namespace FieldFlow.Yaml

/-- Why a text is no document that can be read, and on which line, counted from zero. -/
structure Malformed where
  line : Nat
  reason : String
deriving DecidableEq, Repr

/-- The wording of a refusal. -/
def Malformed.message (m : Malformed) : String :=
  "yaml: line " ++ Nat.repr (m.line + 1) ++ ": " ++ m.reason

/-! ## Portions -/

/-- A part of a document that is loaded at once. -/
structure Portion where
  /-- The number of its characters. -/
  size : Nat
  /-- All of them may stand in a document. -/
  allowed : Bool
deriving DecidableEq, Repr

namespace Portion

/-- How many octets a portion has at most. -/
def capacity : Nat := 512

/-- The portion without characters. -/
def empty : Portion := ⟨0, true⟩

/-- Adds a character. -/
def add (p : Portion) (c : Char) : Portion := ⟨p.size + 1, p.allowed && isAllowed c⟩

/-- Divides characters into portions, each with as many whole characters as fit.  The first is given
as far as it is filled, with the room that is left in it. -/
def divide (first : Portion) (room : Nat) : List Char → List Portion
  | [] => if first.size = 0 then [] else [first]
  | c :: rest =>
    if c.utf8Size ≤ room then divide (first.add c) (room - c.utf8Size) rest
    else first :: divide (empty.add c) (capacity - c.utf8Size) rest

end Portion

/-! ## Cursors -/

/-- The mark of the byte order. -/
def byteOrderMark : Char := '\ufeff'

/-- The rest of a document, how much of it is loaded, and its position. -/
structure Cursor where
  rest : List Char
  /-- How many characters are loaded; the end of the document counts once for each time that more
  was wanted there. -/
  loaded : Nat
  /-- What is not loaded yet. -/
  portions : List Portion
  /-- What is loaded started with a mark of the byte order. -/
  marked : Bool
  index : Nat
  line : Nat
  column : Nat
  /-- More than the number of characters of the document. -/
  bound : Nat
deriving Repr

namespace Cursor

/-- The start of a text.  A mark of the byte order in front of it takes room in the first portion
and is not a part of the document. -/
def start (text : List Char) : Cursor :=
  let (rest, room) := match text with
    | [] => ([], Portion.capacity)
    | c :: rest =>
      if c = byteOrderMark then (rest, Portion.capacity - c.utf8Size)
      else (text, Portion.capacity)
  { rest
    loaded := 0
    portions := Portion.divide .empty room rest
    marked := false
    index := 0
    line := 0
    column := 0
    bound := rest.length + 2 }

/-- Refuses the document at this position. -/
def refuse {α : Type} (c : Cursor) (reason : String) : Except Malformed α :=
  .error ⟨c.line, reason⟩

/-- Loads portions until `n` characters are loaded or the end is reached. -/
def load (n : Nat) : List Portion → Cursor → Except Malformed Cursor
  | [], c => .ok { c with loaded := c.loaded + 1, portions := [] }
  | p :: later, c =>
    let c := { c with loaded := c.loaded + p.size, portions := later }
    if !p.allowed then c.refuse "control characters are not allowed"
    else if n ≤ c.loaded then .ok c
    else load n later c

/-- Makes sure that `n` characters are loaded. -/
def look (c : Cursor) (n : Nat) : Except Malformed Cursor :=
  if n ≤ c.loaded then .ok c
  else load n c.portions { c with marked := c.rest.head? = some byteOrderMark }

/-- Passes `n` characters on the same line. -/
def skip (c : Cursor) (n : Nat) : Cursor :=
  { c with
    rest := c.rest.drop n
    loaded := c.loaded - n
    index := c.index + n
    column := c.column + n }

/-- How many characters the line break at the start of a text takes. -/
def breakWidth : List Char → Nat
  | '\r' :: '\n' :: _ => 2
  | _ => 1

/-- Passes a line break. -/
def newline (c : Cursor) : Except Malformed Cursor := do
  let c ← c.look 2
  return { c.skip (breakWidth c.rest) with line := c.line + 1, column := 0 }

/-- Passes the given characters as long as `continues` holds of each and what follows it, and looks
`n` characters ahead after each. -/
def passFrom (continues : Char → List Char → Bool) (n : Nat) :
    List Char → Cursor → Except Malformed Cursor
  | [], c => .ok c
  | ch :: rest, c =>
    if continues ch rest then do passFrom continues n rest (← (c.skip 1).look n) else .ok c

/-- Passes the characters of a class. -/
def skipWhile (c : Cursor) (p : Char → Bool) : Except Malformed Cursor := do
  let c ← c.look 1
  passFrom (fun ch _ => p ch) 1 c.rest c

/-- The characters of a class that come next, and the position behind them. -/
def span (c : Cursor) (p : Char → Bool) : Except Malformed (List Char × Cursor) := do
  return (c.rest.takeWhile p, ← c.skipWhile p)

/-- Passes blanks. -/
def skipBlanks (c : Cursor) : Except Malformed Cursor := c.skipWhile isBlank

/-- Passes the rest of the line if it is a comment. -/
def skipComment (c : Cursor) : Except Malformed Cursor :=
  if c.rest.head? = some '#' then c.skipWhile (fun ch => !isBreak ch) else .ok c

/-- The next character is `ch`. -/
def sees (c : Cursor) (ch : Char) : Bool := c.rest.head? = some ch

/-- Three marks at the start of a line, followed by a gap, divide documents. -/
def atMarks (c : Cursor) (mark : Char) : Bool :=
  c.column = 0 &&
    match c.rest with
    | x :: y :: z :: rest => x = mark && y = mark && z = mark && startsGap rest
    | _ => false

/-- A document starts or ends here. -/
def atDocumentMarks (c : Cursor) : Bool := c.atMarks '-' || c.atMarks '.'

/-- Passes blanks, a comment and the line break after it; nothing else may stand there. -/
def endLine (c : Cursor) : Except Malformed Cursor := do
  let c ← (← c.skipBlanks).skipComment
  match c.rest with
  | [] => return c
  | ch :: _ => if isBreak ch then c.newline else c.refuse "expected a comment or a line break"

end Cursor

end FieldFlow.Yaml
