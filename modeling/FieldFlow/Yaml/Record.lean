import FieldFlow.Text.Base64
import FieldFlow.Yaml.Node
import FieldFlow.Yaml.Tag

/-!
# Reading nodes into records

A document is read into texts, lists and records.  Scalars keep their source text when a text is
wanted; what stands for nothing leaves a text empty, a list without members and a record as it is by
default.  A mapping read into a record may hold each of its fields once and nothing else, apart from
merge keys, whose mappings are read into the same record.

What does not fit is reported, and reading goes on, so that all mismatches of a document are found.
A malformed part ends the reading.

Main definitions: `Mismatch`, `Read`, `Record`, `Record.read`.
-/

namespace FieldFlow.Yaml

/-- A part of a document that does not fit what is wanted; lines are counted from zero. -/
inductive Mismatch where
  /-- The node cannot be read as the type. -/
  | unfit (line : Nat) (tag : Octets) (text wanted : String)
  | unknownField (line : Nat) (field : Octets) (record : String)
  | repeatedField (line : Nat) (field : Octets) (record : String)
deriving DecidableEq, Repr

namespace Mismatch

/-- The text of a node, cut after seven octets if it is long; sequences and mappings have none. -/
def sample (tag text : Octets) : Octets :=
  if tag = Tag.seq || tag = Tag.map then text
  else if text.size > 10 then " \x60" ++ text.take 7 ++ "...\x60"
  else " \x60" ++ text ++ "\x60"

/-- The line on which a mismatch is, as a reader counts. -/
def place (line : Nat) : String := "line " ++ Nat.repr (line + 1) ++ ": "

/-- The wording of a mismatch. -/
def message : Mismatch → Octets
  | unfit line tag text wanted =>
    (place line ++ "cannot unmarshal ") ++ Tag.short tag ++ sample tag text ++ (" into " ++ wanted)
  | unknownField line field record =>
    (place line ++ "field ") ++ field ++ (" not found in type " ++ record)
  | repeatedField line field record =>
    (place line ++ "field ") ++ field ++ (" already set in type " ++ record)

end Mismatch

/-- What is being read: the document, and the aliases that are being followed. -/
structure Reading where
  document : Document
  active : List Nat

/-- A computation that reads nodes of a document and reports mismatches, the latest first. -/
abbrev Read := ReaderT Reading (StateT (List Mismatch) (Except Malformed))

namespace Read

/-- Reports a mismatch. -/
def report (m : Mismatch) : Read Unit := modify (m :: ·)

/-- Refuses the document at a node. -/
def refuse {α : Type} (line : Nat) (reason : String) : Read α := throw ⟨line, reason⟩

/-- Reads the node that an alias stands for, or the node itself.  While an alias is being followed
it must not be met again. -/
def follow {α : Type} (n : Node) (read : Node → Read α) : Read α :=
  match n with
  | .aliasTo line _ occurrence anchor => do
    let r ← MonadReader.read
    if r.active.contains occurrence then refuse line "an anchored node contains itself"
    else match r.document.anchored? anchor with
      | none => refuse line "unknown anchor"
      | some target =>
        withReader (fun r : Reading => { r with active := occurrence :: r.active }) (read target)
  | _ => read n

/-! ## Scalars -/

/-- What a scalar is read as. -/
inductive Leaf where
  | nothing
  /-- The type of a scalar and the octets of its text. -/
  | text (tag text : Octets)

/-- The octets of a binary scalar, which need not be those of characters. -/
def binary (line : Nat) (text : String) : Read Octets :=
  match Base64.decode? text with
  | some octets => return ⟨octets⟩
  | none => refuse line "a binary scalar is not in base 64"

/-- Reads a scalar. -/
def leaf (line : Nat) (tag : Octets) (implicit : Bool) (text : String) : Read Leaf :=
  if tag.isEmpty && !implicit then return .text Tag.str text
  else match Tag.resolve tag text with
    | none => refuse line "a tag does not fit its scalar"
    | some (_, true) => return .nothing
    | some (type, false) =>
      if type = Tag.binary then do return .text type (← binary line text)
      else return .text type text

/-- Reads the octets of a text; nothing after a mismatch. -/
def text (n : Node) : Read (Option Octets) :=
  follow n fun
    | .scalar line tag implicit source => do
      match ← leaf line tag implicit source with
      | .nothing => return some ⟨[]⟩
      | .text _ found => return some found
    | .sequence line _ => do
      report (.unfit line Tag.seq "" "string")
      return none
    | .mapping line _ => do
      report (.unfit line Tag.map "" "string")
      return none
    | .aliasTo line _ _ _ => refuse line "an alias of an alias"

/-- Reads a list whose members are read by `item`; after a mismatch it is empty. -/
def list {α : Type} (type : String) (item : Node → Read α) (n : Node) : Read (List α) :=
  follow n fun
    | .scalar line tag implicit source => do
      match ← leaf line tag implicit source with
      | .nothing => return []
      | .text found _ =>
        report (.unfit line found source type)
        return []
    | .sequence _ items => items.mapM item
    | .mapping line _ => do
      report (.unfit line Tag.map "" type)
      return []
    | .aliasTo line _ _ _ => refuse line "an alias of an alias"

end Read

/-- A type of records: its name, its default, and how each field is read into a record. -/
structure Record (ρ : Type) where
  name : String
  default : ρ
  fields : List (String × (Node → ρ → Read ρ))

namespace Record

/-- The node is a key that merges a mapping into the record. -/
def isMergeKey : Node → Bool
  | .scalar _ tag implicit text => text = "<<" && (implicit || tag = Tag.merge)
  | _ => false

/-- Reads the entries of a mapping into a record; `seen` are the fields that were read before. -/
def readEntries {ρ : Type} (t : Record ρ) (merge : Node → ρ → Read ρ) :
    List Octets → List (Node × Node) → ρ → Read ρ
  | _, [], r => pure r
  | seen, (k, v) :: rest, r => do
    if isMergeKey k then t.readEntries merge seen rest (← merge v r)
    else match ← Read.text k with
      | none => t.readEntries merge seen rest r
      | some field =>
        match t.fields.find? fun entry => (entry.1 : Octets) = field with
        | none =>
          Read.report (.unknownField k.line field t.name)
          t.readEntries merge seen rest r
        | some (_, read) =>
          if seen.contains field then
            Read.report (.repeatedField k.line field t.name)
            t.readEntries merge seen rest r
          else t.readEntries merge (field :: seen) rest (← read v r)

/-- A node may be merged if it is a mapping, or an alias whose name was last given to one. -/
def checkMerge (n : Node) : Read Unit := do
  match n with
  | .mapping _ _ => return
  | .aliasTo line name _ _ =>
    match (← read).document.named? name with
    | some (.mapping _ _) => return
    | _ => Read.refuse line "only mappings can be merged"
  | _ => Read.refuse n.line "only mappings can be merged"

/-- Merges the nodes of a list into a record, by `merge`. -/
def mergeAll {ρ : Type} (merge : Node → ρ → Read ρ) : List Node → ρ → Read ρ
  | [], r => pure r
  | n :: rest, r => do
    checkMerge n
    mergeAll merge rest (← merge n r)

/-- Merges a node, or the members of a sequence from the last to the first, so that earlier ones
prevail. -/
def mergeNode {ρ : Type} (merge : Node → ρ → Read ρ) (n : Node) (r : ρ) : Read ρ :=
  match n with
  | .sequence _ items => mergeAll merge items.reverse r
  | n => mergeAll merge [n] r

/-- Reads a node into a record, following merge keys at most `fuel` deep. -/
def readWithin {ρ : Type} (t : Record ρ) : Nat → Node → ρ → Read ρ
  | 0, n, _ => Read.refuse n.line "mappings are merged too deep"
  | fuel + 1, n, r =>
    Read.follow n fun
      | .scalar line tag implicit source => do
        match ← Read.leaf line tag implicit source with
        | .nothing => return t.default
        | .text found _ =>
          Read.report (.unfit line found source t.name)
          return r
      | .sequence line _ => do
        Read.report (.unfit line Tag.seq "" t.name)
        return r
      | .mapping _ entries => t.readEntries (mergeNode (t.readWithin fuel)) [] entries r
      | .aliasTo line _ _ _ => Read.refuse line "an alias of an alias"

/-- Reads a node into a record. -/
def readInto {ρ : Type} (t : Record ρ) (n : Node) (r : ρ) : Read ρ := do
  t.readWithin (← read).document.budget n r

/-- Reads a record. -/
def readNew {ρ : Type} (t : Record ρ) (n : Node) : Read ρ := t.readInto n t.default

/-- The scalar is written as nothing, or looks like it. -/
def looksEmpty (tag : Octets) (implicit : Bool) (text : String) : Bool :=
  tag = Tag.null || (tag.isEmpty && (text = "null" || text = "~" || (text = "" && implicit)))

/-- Reads a node into a record that may be missing.  What is written as nothing leaves it out. -/
def readOptional {ρ : Type} (t : Record ρ) (n : Node) (old : Option ρ) : Read (Option ρ) :=
  Read.follow n fun
    | .scalar line tag implicit source => do
      if looksEmpty tag implicit source then
        match ← Read.leaf line tag implicit source with
        | .nothing => return none
        | .text found _ =>
          Read.report (.unfit line found source ("*" ++ t.name))
          return old
      else return some (← t.readInto (.scalar line tag implicit source) (old.getD t.default))
    | n => do return some (← t.readInto n (old.getD t.default))

/-- Reads the first document of a text.  A text without one leaves the record as it is by
default. -/
def read {ρ : Type} (t : Record ρ) (text : String) : Except Malformed (ρ × List Mismatch) := do
  let document ← Document.read text
  match document.root with
  | none => return (t.default, [])
  | some n =>
    let (r, mismatches) ← ((t.readNew n).run ⟨document, []⟩).run []
    return (r, mismatches.reverse)

end Record

end FieldFlow.Yaml
