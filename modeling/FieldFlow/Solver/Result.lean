import FieldFlow.Solver.Basic

/-!
# Runs and their results

A run finalizes every object and collects the final values.  It stops at the first failure, or when
it is called off; what was counted until then stays counted.

Main definitions: `Result`, `Solver.visit`, `Solver.run`, `Result.listing`.
-/

namespace FieldFlow

/-- The final value of every object, in the order of the objects. -/
structure Result where
  entries : List (ObjectId × Propagation)

namespace Result

/-- The result without objects. -/
def empty : Result := ⟨[]⟩

/-- Puts a final value in place of the one with the same identifier, or at the end. -/
def putEntry (id : ObjectId) (v : Propagation) :
    List (ObjectId × Propagation) → List (ObjectId × Propagation)
  | [] => [(id, v)]
  | entry :: rest => if entry.1 = id then (id, v) :: rest else entry :: putEntry id v rest

/-- Records the final value of an object. -/
def put (r : Result) (id : ObjectId) (v : Propagation) : Result := ⟨putEntry id v r.entries⟩

/-- The objects, by symbol and then by point. -/
def ids (r : Result) : List ObjectId := (r.entries.map Prod.fst).mergeSort ObjectId.le

/-- The final value of an object. -/
def value? (r : Result) (id : ObjectId) : Option Propagation := r.entries.lookup id

/-- The number of objects. -/
def size (r : Result) : Nat := r.entries.length

/-- One line for the object, then one for each final path or a single one for top. -/
def entryListing (r : Result) (id : ObjectId) : String :=
  id.text ++ ":\n" ++
    match r.value? id with
    | none => ""
    | some .top => "  top\n"
    | some (.paths _ members) =>
      String.join (members.toList.map (fun p => "  \x7b" ++ p.text ++ "\x7d\n"))

/-- The final path values of every object. -/
def listing (r : Result) : String := String.join (r.ids.map r.entryListing)

end Result

namespace Solver

/-- Counts a finalized object and its path values. -/
def countObject (paths : Nat) : Work Unit :=
  modify fun w => { w with objects := w.objects + 1, pathValues := w.pathValues + paths }

/-- Finalizes one object. -/
def visit (s : Solver) (id : ObjectId) : Work Propagation := do
  let final ← Work.within (.inObject id.text) (s.finalize ((s.value? id).getD .top))
  countObject final.size
  return final

/-- Finalizes the listed objects in order. -/
def visitAll (s : Solver) (result : Result) : List ObjectId → Work Result
  | [] => pure result
  | id :: rest => do
    let final ← s.visit id
    s.visitAll (result.put id final) rest

/-- Finalizes every object.  A run that was called off fails at its first object. -/
def run (s : Solver) (canceled : Bool) : Work Result :=
  if canceled && !s.ids.isEmpty then throw .canceled else s.visitAll .empty s.ids

end Solver

end FieldFlow
