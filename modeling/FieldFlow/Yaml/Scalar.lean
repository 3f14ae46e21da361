import FieldFlow.Yaml.Cursor

/-!
# Scalars

Scalars are written plain, between quotes, or as an indented block.  A single line break inside a
plain or quoted scalar is read as a space, and of several the first is dropped; blanks around breaks
are dropped.  A literal block keeps its lines, a folded one joins lines that start without blanks.

Main definitions: `Scalar.plain`, `Scalar.quoted`, `Scalar.block`.
-/

namespace FieldFlow.Yaml.Scalar

/-! ## Gaps between words -/

/-- What stands between two words of a scalar. -/
structure Gap where
  /-- A line break was passed. -/
  crossed : Bool
  /-- The blanks, as long as no line break was passed. -/
  blanks : List Char
  /-- The first line break, unless it was escaped. -/
  first : Option Char
  /-- The other line breaks. -/
  more : List Char

namespace Gap

/-- Nothing stands between the words. -/
def none : Gap := ⟨false, [], .none, []⟩

/-- An escaped line break stands between the words. -/
def escaped : Gap := ⟨true, [], .none, []⟩

/-- Adds a blank; after a line break it does not count. -/
def addBlank (g : Gap) (c : Char) : Gap :=
  if g.crossed then g else { g with blanks := g.blanks ++ [c] }

/-- Adds a line break. -/
def addBreak (g : Gap) (c : Char) : Gap :=
  if g.crossed then { g with more := g.more ++ [breakValue c] }
  else ⟨true, [], some (breakValue c), []⟩

/-- What the gap is read as. -/
def text (g : Gap) : List Char :=
  if !g.crossed then g.blanks
  else match g.first with
    | some '\n' => if g.more.isEmpty then [' '] else g.more
    | some c => c :: g.more
    | .none => g.more

/-- Reads a gap.  After a line break no tab may stand left of the column `limit`. -/
def read (limit : Nat) : Nat → Gap → Cursor → Except Malformed (Gap × Cursor)
  | 0, g, c => .ok (g, c)
  | fuel + 1, g, c =>
    match c.rest with
    | [] => .ok (g, c)
    | ch :: _ =>
      if isBlank ch then
        if g.crossed && ch = '\t' && c.column < limit then
          c.refuse "a tab stands where the line is indented"
        else do read limit fuel (g.addBlank ch) (← (c.skip 1).look 1)
      else if isBreak ch then do read limit fuel (g.addBreak ch) (← (← c.newline).look 1)
      else .ok (g, c)

end Gap

/-- A scalar that was read, and where it ends. -/
structure Found where
  text : List Char
  cursor : Cursor
  /-- The scalar ends behind a line break. -/
  crossed : Bool

/-! ## Plain scalars -/

/-- The characters that end a plain scalar inside brackets. -/
def isFlowMark (c : Char) : Bool :=
  c = ',' || c = '?' || c = '[' || c = ']' || c = '\x7b' || c = '\x7d'

/-- The character belongs to a word of a plain scalar; a colon does not if a gap follows. -/
def continuesWord (inFlow : Bool) (c : Char) (rest : List Char) : Bool :=
  !isGap c && !(c = ':' && startsGap rest) && !(inFlow && isFlowMark c)

/-- The word of a plain scalar at the start of a text. -/
def plainWord (inFlow : Bool) : List Char → List Char
  | [] => []
  | c :: rest => if continuesWord inFlow c rest then c :: plainWord inFlow rest else []

/-- Reads the words of a plain scalar, each with the gap before it. -/
def plainWords (inFlow : Bool) (indent : Nat) :
    Nat → List Char → Gap → Cursor → Except Malformed Found
  | 0, text, gap, c => .ok ⟨text, c, gap.crossed⟩
  | fuel + 1, text, gap, c => do
    let c ← c.look 4
    let word := plainWord inFlow c.rest
    if c.atDocumentMarks || c.sees '#' || word.isEmpty then return ⟨text, c, gap.crossed⟩
    else
      let text := text ++ gap.text ++ word
      let c ← c.passFrom (continuesWord inFlow) 2 c.rest
      if !(c.rest.head?.map isGap).getD false then return ⟨text, c, false⟩
      else
        let (gap, c) ← Gap.read indent c.bound .none (← c.look 1)
        if !inFlow && c.column < indent then return ⟨text, c, gap.crossed⟩
        else plainWords inFlow indent fuel text gap c

/-- Reads a plain scalar.  Outside brackets its lines must not stand left of the column `indent`. -/
def plain (inFlow : Bool) (indent : Nat) (c : Cursor) : Except Malformed Found :=
  plainWords inFlow indent c.bound [] .none c

/-! ## Quoted scalars -/

/-- One piece of a quoted scalar. -/
inductive Piece where
  | close
  | gap
  | escapedBreak
  /-- A character, and how many characters it is written with: those that are looked at together
  with the first one, and then the digits of a code. -/
  | char (c : Char) (width digits : Nat)
  | unknown (reason : String)

/-- The characters that are escaped by one letter. -/
def letterEscape? : Char → Option Char
  | '0' => some '\x00'
  | 'a' => some '\x07'
  | 'b' => some '\x08'
  | 't' => some '\t'
  | '\t' => some '\t'
  | 'n' => some '\n'
  | 'v' => some '\x0b'
  | 'f' => some '\x0c'
  | 'r' => some '\r'
  | 'e' => some '\x1b'
  | ' ' => some ' '
  | '"' => some '"'
  | '\'' => some '\''
  | '\\' => some '\\'
  | 'N' => some '\x85'
  | '_' => some '\xa0'
  | 'L' => some '\u2028'
  | 'P' => some '\u2029'
  | _ => none

/-- How many digits follow an escape that gives a character by its code. -/
def codeDigits? : Char → Option Nat
  | 'x' => some 2
  | 'u' => some 4
  | 'U' => some 8
  | _ => none

/-- The number written with `n` hexadecimal digits. -/
def hexNumber? : Nat → List Char → Nat → Option Nat
  | 0, _, value => some value
  | _ + 1, [], _ => none
  | n + 1, c :: rest, value => do hexNumber? n rest (value * 16 + (← hexValue? c))

/-- The piece after a backslash. -/
def escape : List Char → Piece
  | [] => .unknown "unknown escape character"
  | c :: rest =>
    if isBreak c then .escapedBreak
    else match letterEscape? c, codeDigits? c with
      | some value, _ => .char value 2 0
      | none, some n =>
        match hexNumber? n rest 0 with
        | none => .unknown "expected a hexadecimal number"
        | some code =>
          if code.isValidChar then .char (Char.ofNat code) 2 n
          else .unknown "an escape gives no character"
      | none, none => .unknown "unknown escape character"

/-- The piece at the start of a text; with single quotes nothing but the quote is escaped. -/
def piece (single : Bool) : List Char → Piece
  | [] => .unknown "a quoted scalar is not closed"
  | c :: rest =>
    if isGap c then .gap
    else if single then
      if c = '\'' then (if rest.head? = some '\'' then .char '\'' 2 0 else .close)
      else .char c 1 0
    else if c = '"' then .close
    else if c = '\\' then escape rest
    else .char c 1 0

/-- Passes an escaped line break with the gap behind it, unless the scalar ends right there.  The
answer says whether it does. -/
def passEscapedBreak (c : Cursor) : Except Malformed (Gap × Cursor × Bool) := do
  let c ← (← ((← c.look 3).skip 1).newline).look 1
  if c.sees '"' then return (.escaped, c, true)
  else
    let (gap, c) ← Gap.read 0 c.bound .escaped c
    return (gap, c, false)

/-- Reads the pieces of a quoted scalar; the text is collected in reverse.  At the start and behind
a gap a document might end. -/
def quotedPieces (single : Bool) : Nat → Bool → List Char → Cursor → Except Malformed Found
  | 0, _, _, c => c.refuse "a quoted scalar is not closed"
  | fuel + 1, fresh, text, c => do
    let c ← if fresh then c.look 4 else pure c
    if c.atDocumentMarks then c.refuse "a document ends inside a quoted scalar"
    else match piece single c.rest with
      | .close => return ⟨text.reverse, c.skip 1, false⟩
      | .char ch width digits =>
        let c := (← (c.skip width).look digits).skip digits
        quotedPieces single fuel false (ch :: text) (← c.look 2)
      | .gap =>
        let (gap, c) ← Gap.read 0 c.bound .none c
        quotedPieces single fuel true (gap.text.reverse ++ text) c
      | .escapedBreak =>
        let (gap, c, closed) ← passEscapedBreak c
        let text := gap.text.reverse ++ text
        if closed then return ⟨text.reverse, c.skip 1, false⟩
        else quotedPieces single fuel true text c
      | .unknown reason => c.refuse reason

/-- Reads a quoted scalar, from its opening quote on. -/
def quoted (single : Bool) (c : Cursor) : Except Malformed Found :=
  quotedPieces single c.bound true [] (c.skip 1)

/-! ## Block scalars -/

/-- What becomes of the line breaks at the end of a block. -/
inductive Chomping where
  | strip
  | clip
  | keep
deriving DecidableEq

/-- What a block's first line says of it. -/
structure Header where
  chomping : Chomping
  /-- How far the block is indented; zero if its first line shows it. -/
  increment : Nat

/-- The mark that says what becomes of the line breaks at the end. -/
def chomping? : Char → Option Chomping
  | '+' => some .keep
  | '-' => some .strip
  | _ => none

/-- The digit that says how far a block is indented. -/
def increment? (c : Char) : Option Nat := if c.isDigit then some (c.toNat - '0'.toNat) else none

/-- Reads the digit that says how far a block is indented, if there is one; it must not be zero. -/
def increment (c : Cursor) : Except Malformed (Nat × Cursor) := do
  let c ← c.look 1
  match c.rest.head?.bind increment? with
  | none => return (0, c)
  | some 0 => c.refuse "an indentation of zero"
  | some n => return (n, c.skip 1)

/-- Reads the mark that says what becomes of the line breaks at the end, if there is one. -/
def chomping (c : Cursor) : Except Malformed (Option Chomping × Cursor) := do
  let c ← c.look 1
  match c.rest.head?.bind chomping? with
  | none => return (none, c)
  | some found => return (some found, c.skip 1)

/-- Reads the marks after the bar: one of each kind, in either order. -/
def header (c : Cursor) : Except Malformed (Header × Cursor) := do
  match ← chomping c with
  | (some found, c) =>
    let (n, c) ← increment c
    return (⟨found, n⟩, c)
  | (none, c) =>
    match ← increment c with
    | (0, c) => return (⟨.clip, 0⟩, c)
    | (n, c) =>
      let (found, c) ← chomping c
      return (⟨found.getD .clip, n⟩, c)

/-- The line breaks before a line of a block, and where the line's text starts. -/
structure Lead where
  breaks : List Char
  /-- The deepest indentation that was passed. -/
  deepest : Nat
  cursor : Cursor

/-- Passes spaces that are looked at already, up to the column `indent`, and without limit if that
is zero. -/
def passSpaces (indent : Nat) : List Char → Cursor → Except Malformed Cursor
  | ' ' :: rest, c =>
    if indent = 0 || c.column < indent then do passSpaces indent rest (← (c.skip 1).look 1)
    else .ok c
  | _, c => .ok c

/-- Passes indentation and line breaks.  Spaces count as indentation up to the column `indent`, and
without limit if that is zero. -/
def lead (indent : Nat) : Nat → Lead → Except Malformed Lead
  | 0, l => .ok l
  | fuel + 1, l => do
    let c ← l.cursor.look 1
    let c ← passSpaces indent c.rest c
    let deepest := max l.deepest c.column
    match c.rest with
    | [] => return ⟨l.breaks, deepest, c⟩
    | ch :: _ =>
      if ch = '\t' && (indent = 0 || c.column < indent) then
        c.refuse "a tab stands where the block is indented"
      else if isBreak ch then
        lead indent fuel ⟨l.breaks ++ [breakValue ch], deepest, ← c.newline⟩
      else return ⟨l.breaks, deepest, c⟩

/-- What has been read of a block. -/
structure Lines where
  text : List Char
  /-- The break at the end of the last line. -/
  ending : List Char
  /-- The empty lines after it. -/
  empties : List Char
  /-- The last line started with a blank. -/
  indented : Bool
  cursor : Cursor

/-- What joins a line to those before it. -/
def joint (folded : Bool) (l : Lines) (indented : Bool) : List Char :=
  if folded && !l.indented && !indented && l.ending.head? = some '\n' then
    (if l.empties.isEmpty then [' '] else []) ++ l.empties
  else l.ending ++ l.empties

/-- Reads the lines of a block that is indented to the column `indent`. -/
def lines (folded : Bool) (indent : Nat) : Nat → Lines → Except Malformed Lines
  | 0, l => .ok l
  | fuel + 1, l =>
    match l.cursor.rest with
    | [] => .ok l
    | ch :: _ =>
      if l.cursor.column ≠ indent then .ok l
      else do
        let indented := isBlank ch
        let line := l.cursor.rest.takeWhile (fun ch => !isBreak ch)
        let text := l.text ++ joint folded l indented ++ line
        let c ← (← l.cursor.skipWhile (fun ch => !isBreak ch)).look 2
        let (ending, c) ← match c.rest with
          | [] => pure ([], c)
          | b :: _ => do pure ([breakValue b], ← c.newline)
        let next ← lead indent c.bound ⟨[], 0, c⟩
        lines folded indent fuel ⟨text, ending, next.breaks, indented, next.cursor⟩

/-- Reads a block scalar, from its bar on, inside a collection indented to the column before
`parent`. -/
def block (folded : Bool) (parent : Nat) (c : Cursor) : Except Malformed Found := do
  let (h, c) ← header (c.skip 1)
  let c ← c.endLine
  let given := if h.increment = 0 then 0 else (parent - 1) + h.increment
  let first ← lead given c.bound ⟨[], 0, c⟩
  let indent := if given = 0 then max (max first.deepest parent) 1 else given
  let c := first.cursor
  let found ← lines folded indent c.bound ⟨[], [], first.breaks, false, c⟩
  let tail := match h.chomping with
    | .strip => []
    | .clip => found.ending
    | .keep => found.ending ++ found.empties
  return ⟨found.text ++ tail, found.cursor, false⟩

end FieldFlow.Yaml.Scalar
