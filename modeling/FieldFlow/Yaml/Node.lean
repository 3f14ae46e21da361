import FieldFlow.Yaml.Token

/-!
# Nodes and documents

Tokens are put together to nodes: scalars, sequences, mappings, and aliases that stand for a node
with an anchor.  A node's anchor counts from where the node starts, so an alias may stand inside the
node it names.  Only the first document of a text is read; of what follows it only the next token
has to be well formed.

Main definitions: `Node`, `Document`, `Document.read`.
-/

namespace FieldFlow.Yaml

/-- A node and the line on which it starts, counted from zero. -/
inductive Node where
  /-- A scalar with its tag, empty if it has none; it is implicit if its text may decide its
  type. -/
  | scalar (line : Nat) (tag : Octets) (implicit : Bool) (text : String)
  | sequence (line : Nat) (items : List Node)
  | mapping (line : Nat) (entries : List (Node × Node))
  /-- The `occurrence`-th alias of the document; it stands for the node of the anchor with the given
  number. -/
  | aliasTo (line : Nat) (name : String) (occurrence anchor : Nat)

namespace Node

/-- The line on which a node starts. -/
def line : Node → Nat
  | scalar line _ _ _ => line
  | sequence line _ => line
  | mapping line _ => line
  | aliasTo line _ _ _ => line

/-- The node where none is written. -/
def absent (line : Nat) : Node := scalar line "" true ""

end Node

/-- The first document of a text. -/
structure Document where
  /-- Nothing if the text holds no document. -/
  root : Option Node
  /-- The nodes with anchors, by the number of the anchor. -/
  anchors : List (Nat × Node)
  /-- The number of the last anchor with each name. -/
  names : List (String × Nat)
  /-- More than the depth of any chain of nested nodes and aliases. -/
  budget : Nat

namespace Document

/-- The node of the anchor with a number. -/
def anchored? (d : Document) (anchor : Nat) : Option Node := d.anchors.lookup anchor

/-- The node of the last anchor with a name. -/
def named? (d : Document) (name : String) : Option Node := (d.names.lookup name).bind d.anchored?

/-! ## Putting tokens together -/

/-- The tokens that are left, and what was found in those before. -/
structure Composer where
  tokens : List Token
  /-- More than the number of tokens there were. -/
  bound : Nat
  /-- Why the tokens end, if they do before the stream. -/
  refusal : Malformed
  /-- What the handles of tags stand for. -/
  handles : List (String × Octets)
  anchors : List (Nat × Node)
  names : List (String × Nat)
  aliases : Nat

/-- A computation that takes tokens. -/
abbrev Compose := StateT Composer (Except Malformed)

namespace Compose

/-- The next token. -/
def peek : Compose Token := do
  match (← get).tokens with
  | t :: _ => return t
  | [] => throw (← get).refusal

/-- Passes the next token. -/
def skip : Compose Unit := modify fun s => { s with tokens := s.tokens.tail }

/-- Refuses the document at a token. -/
def refuse {α : Type} (t : Token) (reason : String) : Compose α := throw ⟨t.line, reason⟩

/-- Puts together what follows, unless the next token is one of the given kinds: then nothing is
written here. -/
def orAbsent (ends : List Token.Kind) (line : Nat) (child : Compose Node) : Compose Node := do
  if ends.contains (← peek).kind then return .absent line else child

/-! ## Collections by indentation -/

/-- The entries of a sequence, each after a hyphen. -/
def blockItems (child : Compose Node) : Nat → Compose (List Node)
  | 0 => do refuse (← peek) "a document is nested too deep"
  | fuel + 1 => do
    let t ← peek
    match t.kind with
    | .blockEntry =>
      skip
      let item ← orAbsent [.blockEntry, .blockEnd] t.line child
      return item :: (← blockItems child fuel)
    | .blockEnd =>
      skip
      return []
    | _ => refuse t "an entry of a sequence is expected"

/-- The entries of a sequence that is not indented deeper than the mapping around it. -/
def flushItems (child : Compose Node) : Nat → Compose (List Node)
  | 0 => do refuse (← peek) "a document is nested too deep"
  | fuel + 1 => do
    let t ← peek
    match t.kind with
    | .blockEntry =>
      skip
      let item ← orAbsent [.blockEntry, .key, .value, .blockEnd] t.line child
      return item :: (← flushItems child fuel)
    | _ => return []

/-- The value after a key, up to one of the given kinds of tokens. -/
def valueUpTo (ends : List Token.Kind) (child : Compose Node) : Compose Node := do
  let t ← peek
  match t.kind with
  | .value =>
    skip
    orAbsent ends t.line child
  | _ => return .absent t.line

/-- The entries of a mapping. -/
def blockPairs (child : Compose Node) : Nat → Compose (List (Node × Node))
  | 0 => do refuse (← peek) "a document is nested too deep"
  | fuel + 1 => do
    let t ← peek
    match t.kind with
    | .key =>
      skip
      let k ← orAbsent [.key, .value, .blockEnd] t.line child
      let v ← valueUpTo [.key, .value, .blockEnd] child
      return (k, v) :: (← blockPairs child fuel)
    | .blockEnd =>
      skip
      return []
    | _ => refuse t "a key is expected"

/-! ## Collections in brackets -/

/-- Passes the comma in front of every entry but the first. -/
def comma (first : Bool) : Compose Token := do
  let t ← peek
  if first then return t
  else match t.kind with
    | .flowEntry =>
      skip
      peek
    | _ => refuse t "a comma or a closing bracket is expected"

/-- The only entry of a mapping that stands in a sequence without brackets of its own.  A token that
ends the key before it has begun is passed. -/
def lonePair (child : Compose Node) : Compose (Node × Node) := do
  let t ← peek
  let k ←
    if [Token.Kind.value, .flowEntry, .flowSequenceEnd].contains t.kind then do
      skip
      pure (Node.absent t.line)
    else child
  let v ← valueUpTo [.flowEntry, .flowSequenceEnd] child
  return (k, v)

/-- The entries of a sequence in brackets. -/
def flowItems (child : Compose Node) (first : Bool) : Nat → Compose (List Node)
  | 0 => do refuse (← peek) "a document is nested too deep"
  | fuel + 1 => do
    if (← peek).kind = .flowSequenceEnd then
      skip
      return []
    else
      let t ← comma first
      match t.kind with
      | .key =>
        skip
        let pair ← lonePair child
        return .mapping t.line [pair] :: (← flowItems child false fuel)
      | .flowSequenceEnd =>
        skip
        return []
      | _ =>
        let item ← child
        return item :: (← flowItems child false fuel)

/-- The entries of a mapping in braces. -/
def flowPairs (child : Compose Node) (first : Bool) : Nat → Compose (List (Node × Node))
  | 0 => do refuse (← peek) "a document is nested too deep"
  | fuel + 1 => do
    if (← peek).kind = .flowMappingEnd then
      skip
      return []
    else
      let t ← comma first
      match t.kind with
      | .key =>
        skip
        let k ← orAbsent [.value, .flowEntry, .flowMappingEnd] (← peek).line child
        let v ← valueUpTo [.flowEntry, .flowMappingEnd] child
        return (k, v) :: (← flowPairs child false fuel)
      | .flowMappingEnd =>
        skip
        return []
      | _ =>
        let k ← child
        return (k, .absent (← peek).line) :: (← flowPairs child false fuel)

/-! ## Nodes -/

/-- The anchor and the tag in front of a node. -/
structure Properties where
  anchor : Option String
  tag : Option Property.Tag

/-- The anchor, if one comes next. -/
def anchor? : Compose (Option String) := do
  match (← peek).kind with
  | .anchor name =>
    skip
    return some name
  | _ => return none

/-- The tag, if one comes next. -/
def tag? : Compose (Option Property.Tag) := do
  match (← peek).kind with
  | .tag t =>
    skip
    return some t
  | _ => return none

/-- At most one anchor and one tag, in either order. -/
def properties : Compose Properties := do
  match ← anchor? with
  | some name => return ⟨some name, ← tag?⟩
  | none =>
    match ← tag? with
    | some t => return ⟨← anchor?, some t⟩
    | none => return ⟨none, none⟩

/-- The name of the type that a tag stands for; empty without a tag. -/
def typeOf (line : Nat) : Option Property.Tag → Compose Octets
  | none => return ""
  | some t =>
    if t.handle = "" then return t.suffix
    else do
      match (← get).handles.lookup t.handle with
      | some expansion => return expansion ++ t.suffix
      | none => throw ⟨line, "undefined handle of a tag"⟩

/-- Gives a name to the node that is put together. -/
def withAnchor (name : Option String) (node : Compose Node) : Compose Node := do
  match name with
  | none => node
  | some name =>
    let number := (← get).names.length
    modify fun s => { s with names := (name, number) :: s.names }
    let n ← node
    modify fun s => { s with anchors := (number, n) :: s.anchors }
    return n

/-- An alias stands for the last anchor with its name. -/
def aliasNode (line : Nat) (name : String) : Compose Node := do
  let s ← get
  match s.names.lookup name with
  | none => throw ⟨line, "unknown anchor"⟩
  | some anchor =>
    set { s with aliases := s.aliases + 1 }
    return .aliasTo line name s.aliases anchor

/-- Puts a node together, nested at most `depth` deep.  Collections by indentation are allowed only
where `block` says so, and those that are not indented deeper than what is around them only where
`flush` says so. -/
def node : Nat → Bool → Bool → Compose Node
  | 0, _, _ => do refuse (← peek) "a document is nested too deep"
  | depth + 1, block, flush => do
    let start ← peek
    match start.kind with
    | .aliasName name =>
      skip
      aliasNode start.line name
    | _ =>
      let given ← properties
      let type ← typeOf start.line given.tag
      let t ← peek
      let fuel := (← get).bound
      withAnchor given.anchor do
        match t.kind, block, flush with
        | .scalar text plain, _, _ =>
          skip
          return .scalar start.line type ((type.isEmpty && plain) || type = "!") text
        | .blockEntry, _, true =>
          return .sequence start.line (← flushItems (node depth true false) fuel)
        | .flowSequenceStart, _, _ =>
          skip
          return .sequence start.line (← flowItems (node depth false false) true fuel)
        | .flowMappingStart, _, _ =>
          skip
          return .mapping start.line (← flowPairs (node depth false false) true fuel)
        | .blockSequenceStart, true, _ =>
          skip
          return .sequence start.line (← blockItems (node depth true false) fuel)
        | .blockMappingStart, true, _ =>
          skip
          return .mapping start.line (← blockPairs (node depth true true) fuel)
        | _, _, _ =>
          if given.anchor.isSome || given.tag.isSome then
            return .scalar start.line type type.isEmpty ""
          else refuse t "a node is expected"

/-! ## Documents -/

/-- The handles that every document knows. -/
def defaultHandles : List (String × Octets) := [("!", "!"), ("!!", "tag:yaml.org,2002:")]

/-- Takes the directives in front of a document. -/
def directives : Nat → Bool → Compose Unit
  | 0, _ => do refuse (← peek) "too many directives"
  | fuel + 1, versioned => do
    let t ← peek
    match t.kind with
    | .directive (.version major minor) =>
      if versioned then refuse t "a second version"
      else if major ≠ 1 || minor ≠ 1 then refuse t "an unknown version"
      else
        skip
        directives fuel true
    | .directive (.handle name expansion) =>
      if ((← get).handles.lookup name).isSome then refuse t "a second meaning of a handle"
      else
        skip
        modify fun s => { s with handles := s.handles ++ [(name, expansion)] }
        directives fuel versioned
    | _ => modify fun s => { s with handles := s.handles ++ defaultHandles }

/-- The kind of token stands between documents. -/
def isBetween : Token.Kind → Bool
  | .directive _ => true
  | .documentStart => true
  | .documentEnd => true
  | .streamEnd => true
  | _ => false

/-- Puts the first document together. -/
def root : Compose (Option Node) := do
  let fuel := (← get).bound
  match (← peek).kind with
  | .streamEnd => return none
  | .documentEnd => refuse (← peek) "a node is expected"
  | _ =>
    let explicit := isBetween (← peek).kind
    directives fuel false
    let t ← peek
    if explicit && t.kind ≠ .documentStart then refuse t "the start of a document is expected"
    else
      if explicit then skip
      let next ← peek
      let n ← if isBetween next.kind then pure (Node.absent next.line) else node fuel true false
      let _ ← peek
      return some n

end Compose

/-- Reads the first document of a text. -/
def read (text : String) : Except Malformed Document := do
  let (tokens, refusal) := Token.scan text.toList
  let start : Composer :=
    { tokens
      bound := tokens.length + 1
      refusal := refusal.getD ⟨0, "the document is not complete"⟩
      handles := []
      anchors := []
      names := []
      aliases := 0 }
  let (root, found) ← Compose.root.run start
  return { root, anchors := found.anchors, names := found.names,
           budget := (tokens.length + 2) * (found.aliases + 2) }

end Document

end FieldFlow.Yaml
