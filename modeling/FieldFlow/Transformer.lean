import FieldFlow.Element

/-!
# Field transformers

A transformer models the influence of one statement on one field: optionally clear the field, then
remove some elements, then add some, then replay a sequence of references to values that may not
be known yet.  A sequence is flat: each step is one reference, or none, followed by the plain
transformers that were layered on after it.

Every transformer that has been given out carries a serial number, which tells instances apart even
when their contents agree; the number is `0` as long as a transformer has not been given out.  The
key encodes the contents and leaves the serial number out.

Main definitions: `Ref`, `Step`, `Transformer`, `Transformer.key`, `Transformer.text`.
-/

namespace FieldFlow

/-- A symbolic reference to the value of `symbol` at `point`, whose field contents are folded in
with the operation `op`.  `type` selects the conservative value used when the reference cannot be
resolved; `field` names the referenced field, or is empty for the field that holds the reference. -/
structure Ref where
  symbol : Element
  point : Element
  op : String
  type : String
  field : String
deriving DecidableEq, Repr

namespace Ref

/-- The reference as it is shown to a reader. -/
def text (r : Ref) : String :=
  let target := r.symbol.display ++ "@" ++ r.point.display ++ " " ++ r.op
  if r.field = "" then target else target ++ " ." ++ r.field

/-- The parts of the reference, each quoted, with slashes between them. -/
def key (r : Ref) : String :=
  String.intercalate "/"
    [r.symbol.key, r.point.key, Text.quote r.op, Text.quote r.type, Text.quote r.field]

/-- The referenced field, when the reference stands in the field `holder`. -/
def fieldIn (r : Ref) (holder : String) : String := if r.field = "" then holder else r.field

end Ref

/-- One reference, if any, and the transformers replayed after it. -/
structure Step (τ : Type) where
  ref : Option Ref
  after : List τ

/-- The influence of one statement on one field. -/
structure Transformer where
  /-- Which instance this is; `0` if it has not been given out. -/
  serial : Nat
  add : OptionalSet
  remove : OptionalSet
  clear : Bool
  sequence : Option (List (Step Transformer))

/-- The steps that wait for references. -/
abbrev Sequence := List (Step Transformer)

/-! ## Keys and texts -/

mutual

/-- The contents of a transformer, encoded. -/
def Transformer.key : Transformer → String
  | ⟨_, add, remove, clear, sequence⟩ =>
    "t" ++ (if clear then "true" else "false") ++ "|" ++ OptionalSet.key add ++ "|" ++
      OptionalSet.key remove ++ "|" ++ Sequence.keyOf sequence

/-- The key of a sequence, with a dash for none. -/
def Sequence.keyOf : Option (List (Step Transformer)) → String
  | none => "-"
  | some steps => "<" ++ String.intercalate ";" (Sequence.stepKeys steps) ++ ">"

/-- The keys of the steps, in order. -/
def Sequence.stepKeys : List (Step Transformer) → List String
  | [] => []
  | step :: rest => Sequence.stepKey step :: Sequence.stepKeys rest

/-- The reference's key, then the keys of what follows it between parentheses. -/
def Sequence.stepKey : Step Transformer → String
  | ⟨ref, after⟩ =>
    (ref.map Ref.key).getD "" ++ "(" ++ String.intercalate "," (Sequence.afterKeys after) ++ ")"

/-- The keys of the transformers after a reference. -/
def Sequence.afterKeys : List Transformer → List String
  | [] => []
  | t :: rest => t.key :: Sequence.afterKeys rest

end

mutual

/-- The transformer as it is shown to a reader. -/
def Transformer.text : Transformer → String
  | ⟨_, add, remove, clear, sequence⟩ =>
    "add " ++ (add.map ElementSet.text).getD "null" ++ ", remove " ++
      (remove.map ElementSet.text).getD "null" ++ ", clear " ++
        (if clear then "true" else "false") ++
      ", sequence " ++ Sequence.textOf sequence

/-- The sequence as it is shown to a reader. -/
def Sequence.textOf : Option (List (Step Transformer)) → String
  | none => "none"
  | some steps => "[" ++ String.intercalate " -> " (Sequence.stepTexts steps) ++ "]"

/-- The references and what follows them, in replay order. -/
def Sequence.stepTexts : List (Step Transformer) → List String
  | [] => []
  | step :: rest => Sequence.stepText step ++ Sequence.stepTexts rest

/-- The reference of a step, if any, and the transformers after it. -/
def Sequence.stepText : Step Transformer → List String
  | ⟨some ref, after⟩ => ("ref " ++ ref.text) :: Sequence.afterTexts after
  | ⟨none, after⟩ => Sequence.afterTexts after

/-- The transformers after a reference, each between parentheses. -/
def Sequence.afterTexts : List Transformer → List String
  | [] => []
  | t :: rest => ("(" ++ t.text ++ ")") :: Sequence.afterTexts rest

end

/-! ## Sequences -/

namespace Sequence

/-- The sequence that replays the references in order. -/
def ofRefs (refs : List Ref) : Sequence := refs.map (fun ref => ⟨some ref, []⟩)

/-- The references, in replay order. -/
def refs (s : Sequence) : List Ref := s.filterMap Step.ref

/-- The steps with a transformer appended to the last; a sequence without steps gets a step without
reference to hold it. -/
def withTransformer : Sequence → Transformer → Sequence
  | [], t => [⟨none, [t]⟩]
  | [last], t => [⟨last.ref, last.after ++ [t]⟩]
  | step :: rest, t => step :: withTransformer rest t

/-- The steps of both sequences; one without steps leaves the other as it is. -/
def concat : Option Sequence → Option Sequence → Option Sequence
  | first, none => first
  | first, some [] => first
  | none, some second => some second
  | some first, some second => some (first ++ second)

end Sequence

/-! ## Kinds -/

/-- What a transformer carries. -/
inductive Kind where
  /-- Both an add and a remove set, or neither. -/
  | generic
  | add
  | remove
  | clear
  | sequence
deriving DecidableEq, Repr

namespace Kind

/-- The name of a kind. -/
def name : Kind → String
  | generic => "generic"
  | add => "add"
  | remove => "remove"
  | clear => "clear"
  | sequence => "sequence"

/-- The kinds are numbered from zero. -/
def ofCode? : Int → Option Kind
  | 0 => some generic
  | 1 => some add
  | 2 => some remove
  | 3 => some clear
  | 4 => some sequence
  | _ => none

/-- The name of the kind with the given number, or the number itself if there is none. -/
def label (code : Int) : String :=
  match ofCode? code with
  | some kind => kind.name
  | none => "Kind(" ++ Integer.display code ++ ")"

end Kind

namespace Transformer

/-- A transformer that has not been given out. -/
def draft (add remove : OptionalSet) (clear : Bool) (sequence : Option Sequence) : Transformer :=
  ⟨0, add, remove, clear, sequence⟩

/-- A transformer without any effect. -/
def blank : Transformer := draft none none false none

/-- A sequence decides the kind first, then clearing, then which of the two sets is present. -/
def kind (t : Transformer) : Kind :=
  if t.sequence.isSome then .sequence
  else if t.clear then .clear
  else match t.add, t.remove with
    | some _, none => .add
    | none, some _ => .remove
    | _, _ => .generic

/-- The transformer's own edits, without its clearing and its sequence. -/
def edits (t : Transformer) : Transformer := draft t.add t.remove false none

/-- The transformer adds or removes something, be it an empty set. -/
def hasEdits (t : Transformer) : Bool := t.add.isSome || t.remove.isSome

end Transformer

end FieldFlow
