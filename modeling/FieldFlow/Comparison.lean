import FieldFlow.Solver.Result

/-!
# Comparing two results

Two results agree on an object if both have it with the same final path values.  The report lists
the objects on which they agree and those on which they differ, in the order of the printed
identifiers.

Main definitions: `Report`, `Report.compare`, `Report.listing`.
-/

namespace FieldFlow

/-- An object on which two results differ; a side is missing if its result lacks the object. -/
structure Difference where
  id : ObjectId
  base : Option Propagation
  other : Option Propagation

/-- On which objects two results agree and on which they differ. -/
structure Report where
  sames : List ObjectId
  differences : List Difference

namespace Report

/-- The objects of either result, each once. -/
def allIds (base other : Result) : List ObjectId :=
  Ordered.distinctBy ObjectId.le id (base.ids ++ other.ids)

/-- Both results have the object, with equal values. -/
def agree (base other : Result) (id : ObjectId) : Bool :=
  match base.value? id, other.value? id with
  | some v, some w => v.equal w
  | _, _ => false

/-- The two sides of an object. -/
def difference (base other : Result) (id : ObjectId) : Difference :=
  ⟨id, base.value? id, other.value? id⟩

/-- Compares two results on the listed objects, which are put into the order of their printed
identifiers; objects that are printed alike stay in the order of the list. -/
def ofIds (base other : Result) (ids : List ObjectId) : Report :=
  let sorted := ids.mergeSort (fun a b => a.text ≤ b.text)
  { sames := sorted.filter (agree base other)
    differences := (sorted.filter fun id => !agree base other id).map (difference base other) }

/-- Compares two results object by object. -/
def compare (base other : Result) : Report := ofIds base other (allIds base other)

/-- One side of a difference. -/
def sideText (side : Option Propagation) : String := (side.map Propagation.text).getD "missing"

/-- A difference with both of its sides. -/
def differenceListing (d : Difference) : String :=
  "diff  " ++ d.id.text ++ "\n  base:   " ++ sideText d.base ++ "\n  other:  " ++
    sideText d.other ++ "\n"

/-- The counts, the agreements, then the differences. -/
def listing (r : Report) : String :=
  "\n\nCompute Common parts ... \n" ++
    "#same:  " ++ Nat.repr r.sames.length ++ "  #diff:  " ++
      Nat.repr r.differences.length ++ "\n" ++
    String.join (r.sames.map (fun id => "same  " ++ id.text ++ "\n")) ++
    String.join (r.differences.map differenceListing)

end Report

end FieldFlow
