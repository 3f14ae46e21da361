import FieldFlow.PathValue

/-!
# Propagation values

A propagation value is what reaches a program point for one symbol: a set of path values, one for
each path that can be told apart, or top, of which nothing is known.  Path values with equal keys
collapse.

Main definitions: `Propagation`, `Propagation.join`, `Propagation.valuesFor`.
-/

namespace FieldFlow

/-- A set of path values, or top. -/
inductive Propagation where
  | top
  /-- The serial number tells apart propagation values that hold the same paths. -/
  | paths (serial : Nat) (members : Keyed PathValue.key)

namespace Propagation

/-- Nothing is known of the value. -/
def isTop : Propagation → Bool
  | top => true
  | paths _ _ => false

/-- The path values in key order; top has none. -/
def toList : Propagation → List PathValue
  | top => []
  | paths _ members => members.toList

/-- The number of path values. -/
def size (v : Propagation) : Nat := v.toList.length

/-- The value that holds the listed paths; of several with the same key the first stays. -/
def ofPaths (serial : Nat) (members : List PathValue) : Propagation :=
  paths serial (Keyed.ofList members)

/-- Adds a path unless an equal one is present; top stays top. -/
def add (v : Propagation) (p : PathValue) : Propagation :=
  match v with
  | top => top
  | paths serial members => paths serial (members.insert p)

/-- The paths of both values, under a serial number of their own; top absorbs everything. -/
def join (serial : Nat) : Propagation → Propagation → Propagation
  | paths _ first, paths _ second => paths serial (second.union first)
  | _, _ => top

/-- The rank of a value; a missing one comes first. -/
def rankOf (v : Option Value) : Rank := (v.map Value.rank).getD .first

/-- The distinct instances among the values, in order. -/
def sortValues (values : List (Option Value)) : List (Option Value) :=
  Ordered.distinctBy Rank.le rankOf values

/-- The distinct values of a field over all paths; a missing one stands for the paths that do not
track the field. -/
def valuesFor (v : Propagation) (field : String) : List (Option Value) :=
  sortValues (v.toList.map (fun p => p.value? field))

/-- Some path waits for references. -/
def isIntermediate (v : Propagation) : Bool := v.toList.any PathValue.isIntermediate

/-- Both are top, or both hold paths with the same keys. -/
def equal : Propagation → Propagation → Bool
  | top, top => true
  | paths _ first, paths _ second => first.keys = second.keys
  | _, _ => false

/-- The two are the same instance. -/
def same : Propagation → Propagation → Bool
  | top, top => true
  | paths first _, paths second _ => first = second
  | _, _ => false

/-- The value as it is shown to a reader: one line for each path. -/
def text : Propagation → String
  | top => "top"
  | paths _ members =>
    String.intercalate "\n" (members.toList.map (fun p => "\x7b" ++ p.text ++ "\x7d"))

end Propagation

end FieldFlow
