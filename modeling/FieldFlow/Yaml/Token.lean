import FieldFlow.Yaml.Property
import FieldFlow.Yaml.Scalar

/-!
# Tokens

A document is divided into tokens.  Outside brackets, indentation opens and closes collections; the
tokens for that have no characters of their own.  A key is often recognised only by the colon behind
it: whatever may turn out to be a key is kept as a candidate, one for each level of brackets, and
the tokens that make it a key are put in front of it when the colon is reached.  A candidate must
stand on one line and its colon within 1024 characters.

Main definitions: `Token`, `Token.scan`.
-/

namespace FieldFlow.Yaml

/-- What a token is. -/
inductive Token.Kind where
  | streamEnd
  | directive (d : Property.Directive)
  | documentStart
  | documentEnd
  | blockSequenceStart
  | blockMappingStart
  | blockEnd
  | flowSequenceStart
  | flowSequenceEnd
  | flowMappingStart
  | flowMappingEnd
  | blockEntry
  | flowEntry
  | key
  | value
  | aliasName (name : String)
  | anchor (name : String)
  | tag (t : Property.Tag)
  | scalar (text : String) (plain : Bool)
deriving DecidableEq, Repr

/-- A token and the line on which it starts. -/
structure Token where
  kind : Token.Kind
  line : Nat
deriving DecidableEq, Repr

namespace Token

/-- Something that is a key if a colon follows. -/
structure Candidate where
  /-- The colon must follow. -/
  required : Bool
  /-- How many tokens stand in front. -/
  number : Nat
  position : Cursor

/-- What the division into tokens has to remember. -/
structure Scanner where
  cursor : Cursor
  /-- The tokens, the last one first. -/
  tokens : List Token
  /-- The number of tokens. -/
  count : Nat
  /-- The column of the innermost collection outside brackets, `-1` outside all. -/
  indent : Int
  /-- The columns of the collections around it. -/
  indents : List Int
  /-- The candidate of each level of brackets, the innermost first. -/
  candidates : List (Option Candidate)
  /-- A candidate may start here. -/
  keyAllowed : Bool
  /-- The end of the stream was reached. -/
  finished : Bool

namespace Scanner

/-- The start of a text. -/
def start (text : List Char) : Scanner :=
  { cursor := Cursor.start text
    tokens := []
    count := 0
    indent := -1
    indents := []
    candidates := [none]
    keyAllowed := true
    finished := false }

/-- The cursor stands inside brackets. -/
def inFlow (s : Scanner) : Bool :=
  match s.candidates with
  | _ :: _ :: _ => true
  | _ => false

/-- The column of the cursor. -/
def column (s : Scanner) : Int := s.cursor.column

/-- The first column inside the innermost collection. -/
def inside (s : Scanner) : Nat := (s.indent + 1).toNat

/-- Adds a token that starts at the cursor. -/
def push (s : Scanner) (kind : Kind) : Scanner :=
  { s with tokens := ⟨kind, s.cursor.line⟩ :: s.tokens, count := s.count + 1 }

/-- Puts a token behind the first `place` ones. -/
def insert (s : Scanner) (place : Nat) (t : Token) : Scanner :=
  let behind := s.count - place
  { s with
    tokens := s.tokens.take behind ++ t :: s.tokens.drop behind
    count := s.count + 1 }

/-- Moves the cursor. -/
def moveTo (s : Scanner) (c : Cursor) : Scanner := { s with cursor := c }

/-- Adds a token of `n` characters. -/
def mark (s : Scanner) (kind : Kind) (n : Nat) : Scanner := (s.push kind).moveTo (s.cursor.skip n)

/-- Says whether a candidate may start next. -/
def allowKey (s : Scanner) (allowed : Bool) : Scanner := { s with keyAllowed := allowed }

/-! ## Candidates -/

/-- The candidate was left behind without a colon. -/
def isStale (s : Scanner) (k : Candidate) : Bool :=
  k.position.line < s.cursor.line || k.position.index + 1024 < s.cursor.index

/-- Drops a candidate that was left behind. -/
def dropIfStale (s : Scanner) : Option Candidate → Except Malformed (Option Candidate)
  | none => .ok none
  | some k =>
    if s.isStale k then
      if k.required then s.cursor.refuse "a colon is expected" else .ok none
    else .ok (some k)

/-- Drops the candidates that were left behind. -/
def dropStale (s : Scanner) : Except Malformed Scanner :=
  if s.candidates.any fun k => (k.map s.isStale).getD false then do
    return { s with candidates := ← s.candidates.mapM s.dropIfStale }
  else .ok s

/-- The innermost candidate. -/
def candidate? (s : Scanner) : Option Candidate := s.candidates.head?.join

/-- Replaces the innermost candidate. -/
def setCandidate (s : Scanner) (k : Option Candidate) : Scanner :=
  { s with candidates := k :: s.candidates.tail }

/-- Drops the innermost candidate, which must not be required. -/
def dropCandidate (s : Scanner) : Except Malformed Scanner :=
  if (s.candidate?.map Candidate.required).getD false then s.cursor.refuse "a colon is expected"
  else .ok (s.setCandidate none)

/-- Makes what starts at the cursor a candidate, if one may start here. -/
def saveCandidate (s : Scanner) : Except Malformed Scanner :=
  if s.keyAllowed then do
    let required := !s.inFlow && s.indent = s.column
    let s ← s.dropCandidate
    return s.setCandidate (some ⟨required, s.count, s.cursor⟩)
  else .ok s

/-! ## Indentation -/

/-- Opens a collection at a column that is deeper than the innermost one; its token is put at the
given place. -/
def openBlock (s : Scanner) (column : Int) (place : Nat) (kind : Kind) (line : Nat) : Scanner :=
  if !s.inFlow && s.indent < column then
    { s.insert place ⟨kind, line⟩ with indent := column, indents := s.indent :: s.indents }
  else s

/-- Opens a collection at the cursor. -/
def openBlockHere (s : Scanner) (kind : Kind) : Scanner :=
  s.openBlock s.column s.count kind s.cursor.line

/-- Closes the collections deeper than a column, the innermost first. -/
def closeDeeper (column : Int) : List Int → Scanner → Scanner
  | [], s => s
  | outer :: rest, s =>
    if s.indent > column then
      closeDeeper column rest { s.push .blockEnd with indent := outer, indents := rest }
    else s

/-- Closes the collections deeper than a column; inside brackets there are none. -/
def closeBlocks (s : Scanner) (column : Int) : Scanner :=
  if s.inFlow then s else closeDeeper column s.indents s

/-! ## One token -/

/-- At the start of a line, passes one character if what is loaded started with a mark of the byte
order. -/
def passMark (c : Cursor) : Except Malformed Cursor := do
  let c ← c.look 1
  return if c.column = 0 && c.marked then c.skip 1 else c

/-- Passes blanks, comments and line breaks.  Where a candidate may start outside brackets, tabs are
not passed. -/
def toNextToken : Nat → Scanner → Except Malformed Scanner
  | 0, s => .ok s
  | fuel + 1, s => do
    let isSkipped (ch : Char) : Bool := ch = ' ' || (ch = '\t' && (s.inFlow || !s.keyAllowed))
    let c ← passMark s.cursor
    let c ← (← c.skipWhile isSkipped).skipComment
    match c.rest with
    | [] => return s.moveTo c
    | ch :: _ =>
      if isBreak ch then
        toNextToken fuel ((s.moveTo (← c.newline)).allowKey (!s.inFlow || s.keyAllowed))
      else return s.moveTo c

/-- The end of the stream closes everything. -/
def streamEnd (s : Scanner) : Except Malformed Scanner := do
  let s ← (s.closeBlocks (-1)).dropCandidate
  return { s.push .streamEnd with keyAllowed := false, finished := true }

/-- Prepares for something that stands between documents. -/
def betweenDocuments (s : Scanner) : Except Malformed Scanner := do
  let s ← (s.closeBlocks (-1)).dropCandidate
  return s.allowKey false

/-- A directive. -/
def directive (s : Scanner) : Except Malformed Scanner := do
  let s ← s.betweenDocuments
  let (d, c) ← Property.directive s.cursor
  return (s.push (.directive d)).moveTo c

/-- The marks that start or end a document. -/
def documentMarks (s : Scanner) (kind : Kind) : Except Malformed Scanner := do
  let s ← s.betweenDocuments
  return s.mark kind 3

/-- An opening bracket. -/
def flowStart (s : Scanner) (kind : Kind) : Except Malformed Scanner := do
  let s ← s.saveCandidate
  return { s.mark kind 1 with candidates := none :: s.candidates, keyAllowed := true }

/-- A closing bracket. -/
def flowEnd (s : Scanner) (kind : Kind) : Except Malformed Scanner := do
  let s ← s.dropCandidate
  let outer := if s.inFlow then s.candidates.tail else s.candidates
  return { s.mark kind 1 with candidates := outer, keyAllowed := false }

/-- A comma. -/
def flowEntry (s : Scanner) : Except Malformed Scanner := do
  let s ← s.dropCandidate
  return (s.mark .flowEntry 1).allowKey true

/-- A hyphen that starts an entry. -/
def blockEntry (s : Scanner) : Except Malformed Scanner := do
  if !s.inFlow && !s.keyAllowed then s.cursor.refuse "an entry of a sequence is not allowed here"
  else
    let s ← (s.openBlockHere .blockSequenceStart).dropCandidate
    return (s.mark .blockEntry 1).allowKey true

/-- A question mark that starts a key. -/
def key (s : Scanner) : Except Malformed Scanner := do
  if !s.inFlow && !s.keyAllowed then s.cursor.refuse "a key is not allowed here"
  else
    let s ← (s.openBlockHere .blockMappingStart).dropCandidate
    return (s.mark .key 1).allowKey (!s.inFlow)

/-- A colon makes the candidate in front of it a key; without one the key is empty. -/
def value (s : Scanner) : Except Malformed Scanner :=
  match s.candidate? with
  | some k =>
    let s := (s.insert k.number ⟨.key, k.position.line⟩).setCandidate none
    let s := s.openBlock k.position.column k.number .blockMappingStart k.position.line
    .ok ((s.mark .value 1).allowKey false)
  | none =>
    if !s.inFlow && !s.keyAllowed then s.cursor.refuse "a value is not allowed here"
    else .ok (((s.openBlockHere .blockMappingStart).mark .value 1).allowKey (!s.inFlow))

/-- An anchor or an alias. -/
def anchor (s : Scanner) (kind : String → Kind) : Except Malformed Scanner := do
  let s ← s.saveCandidate
  let (name, c) ← Property.anchor s.cursor
  return ((s.push (kind name)).moveTo c).allowKey false

/-- A tag. -/
def tag (s : Scanner) : Except Malformed Scanner := do
  let s ← s.saveCandidate
  let (t, c) ← Property.tag s.cursor
  return ((s.push (.tag t)).moveTo c).allowKey false

/-- Adds a scalar. -/
def pushScalar (s : Scanner) (found : Scalar.Found) (plain : Bool) : Scanner :=
  (s.push (.scalar (String.ofList found.text) plain)).moveTo found.cursor

/-- A block scalar. -/
def blockScalar (s : Scanner) (folded : Bool) : Except Malformed Scanner := do
  let s ← s.dropCandidate
  let found ← Scalar.block folded s.inside s.cursor
  return (s.pushScalar found false).allowKey true

/-- A quoted scalar. -/
def quotedScalar (s : Scanner) (single : Bool) : Except Malformed Scanner := do
  let s ← s.saveCandidate
  let found ← Scalar.quoted single s.cursor
  return (s.pushScalar found false).allowKey false

/-- A plain scalar; behind a line break a candidate may start. -/
def plainScalar (s : Scanner) : Except Malformed Scanner := do
  let s ← s.saveCandidate
  let found ← Scalar.plain s.inFlow s.inside s.cursor
  return (s.pushScalar found true).allowKey found.crossed

/-- The characters that cannot start a plain scalar by themselves. -/
def isIndicator (c : Char) : Bool :=
  "-?:,[]\x7b\x7d#&*!|>'\"%@\x60".toList.contains c

/-- A plain scalar may start with the character. -/
def startsPlain (s : Scanner) (ch : Char) (rest : List Char) : Bool :=
  (!isGap ch && !isIndicator ch) ||
    (ch = '-' && !(rest.head?.map isBlank).getD false) ||
    (!s.inFlow && (ch = '?' || ch = ':') && !startsGap rest)

/-- The token that starts with the character. -/
def tokenAt (s : Scanner) (ch : Char) (rest : List Char) : Except Malformed Scanner :=
  if ch = '%' && s.cursor.column = 0 then s.directive
  else if s.cursor.atMarks '-' then s.documentMarks .documentStart
  else if s.cursor.atMarks '.' then s.documentMarks .documentEnd
  else if ch = '[' then s.flowStart .flowSequenceStart
  else if ch = '\x7b' then s.flowStart .flowMappingStart
  else if ch = ']' then s.flowEnd .flowSequenceEnd
  else if ch = '\x7d' then s.flowEnd .flowMappingEnd
  else if ch = ',' then s.flowEntry
  else if ch = '-' && startsGap rest then s.blockEntry
  else if ch = '?' && (s.inFlow || startsGap rest) then s.key
  else if ch = ':' && (s.inFlow || startsGap rest) then s.value
  else if ch = '*' then s.anchor .aliasName
  else if ch = '&' then s.anchor .anchor
  else if ch = '!' then s.tag
  else if ch = '|' && !s.inFlow then s.blockScalar false
  else if ch = '>' && !s.inFlow then s.blockScalar true
  else if ch = '\'' then s.quotedScalar true
  else if ch = '"' then s.quotedScalar false
  else if s.startsPlain ch rest then s.plainScalar
  else s.cursor.refuse "no token can start with this character"

/-- Adds the next token, and the ends of the collections that it leaves. -/
def fetch (s : Scanner) : Except Malformed Scanner := do
  let s ← s.moveTo <$> s.cursor.look 1
  let s ← (← toNextToken s.cursor.bound s).dropStale
  let s := s.closeBlocks s.column
  let s ← s.moveTo <$> s.cursor.look 4
  match s.cursor.rest with
  | [] => s.streamEnd
  | ch :: rest => s.tokenAt ch rest

/-- The tokens that cannot be changed by what follows: those in front of every candidate. -/
def settled (s : Scanner) : List Token :=
  let waiting := s.candidates.filterMap fun k => k.filter fun k => k.required || !s.isStale k
  s.tokens.reverse.take (waiting.foldl (fun n k => min n k.number) s.count)

/-- Adds tokens until the end of the stream or the first part that is malformed. -/
def run : Nat → Scanner → List Token × Option Malformed
  | 0, s => (s.settled, none)
  | fuel + 1, s =>
    if s.finished then (s.tokens.reverse, none)
    else match s.fetch with
      | .ok next => run fuel next
      | .error refusal => (s.settled, some refusal)

end Scanner

/-- The tokens of a text.  If some part of it is malformed, the tokens end where a reader would come
upon that part, and the reason is given too; otherwise the last token is the end of the stream.
Every token but the last takes at least one character. -/
def scan (text : List Char) : List Token × Option Malformed :=
  Scanner.run (text.length + 2) (Scanner.start text)

end Token

end FieldFlow.Yaml
