import FieldFlow.Fault
import FieldFlow.Pool

/-!
# Making, composing and applying transformers

A manager owns a pool, the identity transformer, and a registry that says which transformer an
action makes of its operand.  Whatever it returns is taken from the pool, with three exceptions
that hand an operand back: a composition with a clearing transformer, and one with the identity on
either side.  The identity is recognised as an instance, not by its contents.

Main definitions: `Manager.compose`, `Manager.apply`, `Manager.makeLiteral`, `Manager.makeRef`.
-/

namespace FieldFlow

/-- What the code of a factory can use and change: the pool, and what it keeps itself. -/
structure Bench where
  pool : Pool
  /-- What factories keep from one call to the next. -/
  kept : List Transformer

/-- The code of a factory, which may fail; it calls no other factory. -/
abbrev Craft := ExceptT Fault (StateM Bench)

/-- Makes the transformer of one action, from an element or from a reference. -/
inductive Factory where
  /-- Takes an element that is not nil. -/
  | literal (make : Element → Transformer)
  /-- Takes no operand and ignores an element. -/
  | fixed (transformer : Transformer)
  /-- Takes a reference. -/
  | reference (make : Ref → Transformer)
  /-- Decides itself which elements and which references it takes, and may use the pool. -/
  | custom (ofElement : Element → Craft Transformer) (ofReference : Ref → Craft Transformer)

namespace Factory

/-- The code that makes the transformer for an element. -/
def ofLiteral (action : String) (value : Element) : Factory → Craft Transformer
  | literal make => if value = .nil then throw (.missingValue action) else pure (make value)
  | fixed t => pure t
  | reference _ => throw (.literalOperand action value)
  | custom ofElement _ => ExceptT.adapt (.inAction action) (ofElement value)

/-- The code that makes the transformer for a reference. -/
def ofRef (action : String) (ref : Ref) : Factory → Craft Transformer
  | literal _ => throw (.referenceOperand action ref)
  | fixed _ => throw (.referenceOperand action ref)
  | reference make => pure (make ref)
  | custom _ ofReference => ExceptT.adapt (.inAction action) (ofReference ref)

/-- Adds the element. -/
def adding : Factory :=
  literal (fun x => .draft (some (ElementSet.singleton x)) none false none)

/-- Removes the element. -/
def removing : Factory :=
  literal (fun x => .draft none (some (ElementSet.singleton x)) false none)

/-- Clears the field. -/
def clearing : Factory := fixed (.draft none none true none)

/-- Clears the field, then adds the element. -/
def replacing : Factory :=
  literal (fun x => .draft (some (ElementSet.singleton x)) none true none)

/-- Defers the composition with the referenced value. -/
def composing : Factory :=
  reference (fun ref => .draft none none false (some (Sequence.ofRefs [ref])))

/-- The actions that are known by default. -/
def defaults : List (String × Factory) :=
  [("add", adding), ("remove", removing), ("clear", clearing), ("replace", replacing),
    ("compose", composing)]

end Factory

/-- A pool, the identity, and the registered factories with what they keep. -/
structure Manager where
  pool : Pool
  /-- The instance that leaves every field as it is. -/
  identity : Transformer
  /-- The factory of each action. -/
  factories : List (String × Factory)
  /-- What the factories keep. -/
  kept : List Transformer

/-- A computation that takes instances from a manager's pool. -/
abbrev Managed := StateM Manager

namespace Manager

/-- The canonical transformer with the contents of `t`; a pool never answers with a value here,
since the keys of transformers and of values differ in their first character. -/
def internIn (pool : Pool) (t : Transformer) : Transformer × Pool :=
  match pool.intern (.transformer t) with
  | (.transformer canonical, pool) => (canonical, pool)
  | (.value _, pool) => (t, pool)

/-- The canonical value with the contents of `v`. -/
def internValueIn (pool : Pool) (v : Value) : Value × Pool :=
  match pool.intern (.value v) with
  | (.value canonical, pool) => (canonical, pool)
  | (.transformer _, pool) => (v, pool)

/-- A manager on the given pool, without factories. -/
def create (pool : Pool) : Manager :=
  let (identity, pool) := internIn pool .blank
  ⟨pool, identity, [], []⟩

/-- The canonical transformer with the contents of `t`. -/
def intern (t : Transformer) : Managed Transformer := fun m =>
  let (canonical, pool) := internIn m.pool t
  (canonical, { m with pool })

/-- The canonical value with the contents of `v`. -/
def internValue (v : Value) : Managed Value := fun m =>
  let (canonical, pool) := internValueIn m.pool v
  (canonical, { m with pool })

/-- An instance of its own with the contents of `t`, which the pool does not share. -/
def release (t : Transformer) : Managed Transformer := fun m =>
  let (n, pool) := m.pool.issue
  ({ t with serial := n }, { m with pool })

/-- Gives out a serial number. -/
def nextSerial : Managed Nat := fun m =>
  let (n, pool) := m.pool.issue
  (n, { m with pool })

/-- What the code of a factory works on. -/
def bench (m : Manager) : Bench := ⟨m.pool, m.kept⟩

/-- Runs the code of a factory. -/
def craft (code : Craft Transformer) : ExceptT Fault Managed Transformer := ExceptT.mk fun m =>
  let (outcome, bench) := code.run.run m.bench
  (outcome, { m with pool := bench.pool, kept := bench.kept })

/-- Forgets the canonical instances; the identity stays as it is. -/
def resetPool : Managed Unit := modify (fun m => { m with pool := m.pool.reset })

/-! ## The registry -/

/-- The factory of an action. -/
def factory? (m : Manager) (action : String) : Option Factory := m.factories.lookup action

/-- Binds an action to a factory, in place of an earlier one. -/
def bind (m : Manager) (action : String) (factory : Factory) : Manager :=
  { m with factories := (action, factory) :: m.factories.filter (fun entry => entry.1 ≠ action) }

/-- The registered actions. -/
def actions (m : Manager) : List String := m.factories.map Prod.fst

/-! ## The algebra -/

/-- The transformer's own edits as a canonical transformer. -/
def nonComposed (t : Transformer) : Managed Transformer := intern t.edits

/-- The edits of `second` merged into those of `first`: what `second` undoes of `first` is dropped,
not accumulated. -/
def mergeEdits (first second : Transformer) : OptionalSet × OptionalSet :=
  let (add, remove) :=
    match second.add with
    | none => (first.add, first.remove)
    | some added => (OptionalSet.add first.add added, OptionalSet.subtract first.remove added)
  match second.remove with
  | none => (add, remove)
  | some removed => (OptionalSet.subtract add removed, OptionalSet.add remove removed)

/-- What two transformers add that do nothing but add. -/
def mergeAdds (first second : Transformer) : OptionalSet :=
  OptionalSet.add first.add (second.add.getD Keyed.empty)

/-- The transformer equivalent to `first`, then `second`.  Clearing erases every prior effect; the
identity gives way to the other operand; of two that only add, the sets are joined; edits that
follow a sequence must wait for its references; otherwise the edits are merged. -/
def compose (first second : Transformer) : Managed Transformer := do
  let identity := (← get).identity
  if second.clear then return second
  else if first.serial = identity.serial then return second
  else if second.serial = identity.serial then return first
  else if first.kind = .add ∧ second.kind = .add then
    intern (.draft (mergeAdds first second) none false none)
  else
    match first.sequence with
    | some steps =>
      let steps ←
        if second.hasEdits then do
          let edits ← nonComposed second
          pure (Sequence.withTransformer steps edits)
        else pure steps
      intern (.draft first.add first.remove first.clear
        (Sequence.concat (some steps) second.sequence))
    | none =>
      let (add, remove) := mergeEdits first second
      intern (.draft add remove first.clear (Sequence.concat none second.sequence))

/-- The composition of a list of transformers, from the left onto `start`. -/
def composeAll (start : Transformer) : List Transformer → Managed Transformer
  | [] => pure start
  | t :: rest => do composeAll (← compose start t) rest

/-- The field value after `t`.  A sequence is contagious: the result is intermediate if `t` carries
one, or if `v` does and `t` does not clear the field.  While references are pending in `v`, the
edits of `t` are appended to its sequence. -/
def apply (t : Transformer) (v : Value) : Managed Value := do
  let start : OptionalSet := if t.clear then none else v.set
  let pending : Option Sequence := if t.clear then none else v.sequence
  match pending with
  | some steps =>
    let edits ← nonComposed t
    internValue
      (.draft start (Sequence.concat (some (Sequence.withTransformer steps edits)) t.sequence))
  | none =>
    internValue (.draft (OptionalSet.extend (OptionalSet.reduce start t.remove) t.add)
      (Sequence.concat none t.sequence))

/-- The canonical value with a partial set and a sequence; an empty set counts as absent. -/
def newValue (set : OptionalSet) (sequence : Option Sequence) : Managed Value :=
  internValue (.draft (OptionalSet.extend none set) sequence)

/-- The canonical value that holds the listed elements; none leave the set absent. -/
def newConcrete (elements : List Element) : Managed Value :=
  newValue (some (ElementSet.ofList elements)) none

/-! ## Actions -/

/-- The canonical transformer that the factory of an action makes, by the code that it has for the
operand. -/
def make (action : String) (code : Factory → Craft Transformer) :
    ExceptT Fault Managed Transformer := do
  match (← get).factory? action with
  | none => throw (.unknownAction action)
  | some factory =>
    let t ← craft (code factory)
    intern t

/-- The canonical transformer that an action makes of an element. -/
def makeLiteral (action : String) (value : Element) : ExceptT Fault Managed Transformer :=
  make action (Factory.ofLiteral action value)

/-- The canonical transformer that an action makes of a reference. -/
def makeRef (action : String) (ref : Ref) : ExceptT Fault Managed Transformer :=
  make action (Factory.ofRef action ref)

end Manager

end FieldFlow
