import FieldFlow.Transformer

/-!
# Field values

A field value is the content of one field along one path.  A concrete value is a set of elements,
possibly absent.  An intermediate value also carries a sequence that waits for other values; its
set is the content before the first pending reference.

Lists of transformers or of values are put in order by rank: by the keys, and instances with the
same contents by their serial numbers.

Main definitions: `Value`, `Value.key`, `Value.isIntermediate`, `Rank`.
-/

namespace FieldFlow

/-- The content of one field along one path. -/
structure Value where
  /-- Which instance this is; `0` if it has not been given out. -/
  serial : Nat
  set : OptionalSet
  sequence : Option Sequence

namespace Value

/-- A value that has not been given out. -/
def draft (set : OptionalSet) (sequence : Option Sequence) : Value := ⟨0, set, sequence⟩

/-- The contents of a value, encoded. -/
def key (v : Value) : String := "v" ++ OptionalSet.key v.set ++ "|" ++ Sequence.keyOf v.sequence

/-- The concrete set as it is shown to a reader. -/
def text (v : Value) : String := OptionalSet.text v.set

/-- The value still waits for references. -/
def isIntermediate (v : Value) : Bool := v.sequence.isSome

/-- The number of elements in the concrete set. -/
def size (v : Value) : Nat := OptionalSet.size v.set

end Value

/-! ## Ranks -/

/-- The place of an instance among others. -/
structure Rank where
  key : String
  serial : Nat
deriving DecidableEq, Repr

namespace Rank

/-- The order by key, then by serial number. -/
def le (a b : Rank) : Bool :=
  if a.key = b.key then decide (a.serial ≤ b.serial) else decide (a.key ≤ b.key)

/-- The rank of what is missing: it comes before all instances. -/
def first : Rank := ⟨"", 0⟩

end Rank

/-- The rank of a transformer. -/
def Transformer.rank (t : Transformer) : Rank := ⟨t.key, t.serial⟩

/-- The rank of a value. -/
def Value.rank (v : Value) : Rank := ⟨v.key, v.serial⟩

namespace OptionalSet

/-- Adds elements to a field's set; adding nothing does not make an absent set present. -/
def extend (s : OptionalSet) (t : OptionalSet) : OptionalSet :=
  match t with
  | none => s
  | some added => if added.isEmpty then s else s.add added

/-- Takes away the elements of a set that may be absent. -/
def reduce (s : OptionalSet) (t : OptionalSet) : OptionalSet :=
  match t with
  | none => s
  | some removed => s.subtract removed

end OptionalSet

end FieldFlow
