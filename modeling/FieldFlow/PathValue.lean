import FieldFlow.Fault
import FieldFlow.Value

/-!
# Path values

A path value is what one execution path knows of the fields of one object: a mapping from field
names to field values.  A field may be tracked without a value, which differs from a field that is
not tracked at all.

Main definitions: `PathValue`, `PathValue.set`, `PathValue.key`.
-/

namespace FieldFlow

/-- The fields that one path tracks, in the order of their names. -/
structure PathValue where
  fields : Keyed (fun entry : String × Option Value => entry.1)

namespace PathValue

/-- The path that tracks no field. -/
def empty : PathValue := ⟨Keyed.empty⟩

/-- Tracks a field with a value, in place of an earlier one. -/
def set (p : PathValue) (field : String) (value : Option Value) : PathValue :=
  ⟨p.fields.put (field, value)⟩

/-- The names of the tracked fields, in order. -/
def names (p : PathValue) : List String := p.fields.toList.map Prod.fst

/-- The entry of a field: nothing if it is not tracked. -/
def entry? (p : PathValue) (field : String) : Option (Option Value) :=
  (p.fields.find? field).map Prod.snd

/-- The value of a field, if it is tracked and has one. -/
def value? (p : PathValue) (field : String) : Option Value := (p.entry? field).join

/-- The set of a field, if it is tracked with one. -/
def set? (p : PathValue) (field : String) : Option ElementSet :=
  (p.value? field).bind Value.set

/-- The display forms of a field's elements, in order. -/
def displays? (p : PathValue) (field : String) : Option (List String) :=
  (p.set? field).map ElementSet.displays

/-- The integer that an element is. -/
def integer? : Element → Option Int
  | .int n => some n
  | _ => none

/-- The integers in a field, in order; other elements are skipped. -/
def integers? (p : PathValue) (field : String) : Option (List Int) :=
  (p.set? field).map (fun s => (s.toList.filterMap integer?).mergeSort (fun a b => a ≤ b))

/-- The only element of a field, which must be a text. -/
def single (p : PathValue) (field : String) : Except Fault (Option String) :=
  match (p.set? field).map Keyed.toList with
  | none => .ok none
  | some [] => .ok none
  | some [.string text] => .ok (some text)
  | some [x] => .error (.notText field x.typeName)
  | some _ => .error (.severalValues field)

/-- The field is tracked with at least one element. -/
def hasElements (p : PathValue) (field : String) : Bool :=
  (p.value? field).any (fun v => v.size ≠ 0)

/-- The entry waits for references. -/
def isPending (entry : String × Option Value) : Bool := entry.2.any Value.isIntermediate

/-- Some field waits for references. -/
def isIntermediate (p : PathValue) : Bool := p.fields.toList.any isPending

/-- The contents of the path, encoded. -/
def key (p : PathValue) : String :=
  let parts := p.fields.toList.map fun entry =>
    Text.quote entry.1 ++ "=" ++ (entry.2.map Value.key).getD "nil"
  String.intercalate "," (parts.mergeSort (fun a b => a ≤ b))

/-- The path as it is shown to a reader. -/
def text (p : PathValue) : String :=
  let parts := p.fields.toList.map fun entry =>
    entry.1 ++ "=" ++ (entry.2.map Value.text).getD "null"
  String.intercalate ", " (parts.mergeSort (fun a b => a ≤ b))

/-- Two entries hold values with equal contents, or none. -/
def sameContents : Option Value → Option Value → Bool
  | none, none => true
  | some v, some w => v.key = w.key
  | _, _ => false

/-- The two paths track the same fields with values of equal contents. -/
def equal (p q : PathValue) : Bool :=
  p.fields.size = q.fields.size &&
    p.fields.toList.all fun entry => (q.entry? entry.1).any (sameContents entry.2)

end PathValue

end FieldFlow
