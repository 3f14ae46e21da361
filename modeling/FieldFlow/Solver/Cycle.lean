import FieldFlow.Model.Basic
import FieldFlow.Ordered
import Std.Data.HashMap
import Std.Data.HashSet

/-!
# Reference cycles

The references written in a model form a graph on object identifiers.  An object that refers to
itself lies on a cycle.  Apart from that, references that lead from one object to another make a
graph without loops, and the objects on its cycles are those that share a strongly connected
component with another. Objects that the model lacks, but that its references name, are part of the
graph.

The cycles of a model may be found by any routine that splits a graph into its components.  The one
here finds what an object reaches round by round: each round follows the references of the objects
that the round before has found first.

Main definitions: `Cycle.Graph`, `Cycle.reachable`, `Cycle.components`, `Cycle.cyclicBy`.
-/

namespace FieldFlow.Cycle

/-- A reference leads from the first object to the second. -/
abbrev Edges := List (ObjectId × ObjectId)

/-- A graph: where the references of each object lead. -/
structure Graph where
  targets : Std.HashMap ObjectId (List ObjectId)
  /-- The number of references. -/
  size : Nat

namespace Graph

/-- The graph with one more reference. -/
def add (g : Graph) (edge : ObjectId × ObjectId) : Graph :=
  ⟨g.targets.insert edge.1 (edge.2 :: g.targets.getD edge.1 []), g.size + 1⟩

/-- The graph of the listed references. -/
def ofEdges (edges : Edges) : Graph := edges.foldl add ⟨∅, 0⟩

/-- The objects that one reference leads to. -/
def successors (g : Graph) (id : ObjectId) : List ObjectId := g.targets.getD id []

end Graph

/-- Adds objects to those that were seen, and tells which of them are new. -/
def addNew (seen : Std.HashSet ObjectId) :
    List ObjectId → Std.HashSet ObjectId × List ObjectId
  | [] => (seen, [])
  | id :: rest =>
    if seen.contains id then addNew seen rest
    else
      let (seen, new) := addNew (seen.insert id) rest
      (seen, id :: new)

/-- Adds everything that references lead to from the objects `latest`, which were seen last, in at
most so many rounds. -/
def grow (g : Graph) : Nat → Std.HashSet ObjectId → List ObjectId → Std.HashSet ObjectId
  | 0, seen, _ => seen
  | rounds + 1, seen, latest =>
    match addNew seen (latest.flatMap g.successors) with
    | (seen, []) => seen
    | (seen, new) => grow g rounds seen new

/-- The objects that a chain of one or more references leads to.  As many rounds as there are
references are enough, since every round but the last finds the end of another one. -/
def reachable (g : Graph) (id : ObjectId) : Std.HashSet ObjectId := grow g (g.size + 1) ∅ [id]

/-- An object beside what it reaches. -/
abbrev Reach := ObjectId × Std.HashSet ObjectId

/-- The two objects reach each other. -/
def together (a b : Reach) : Bool := a.2.contains b.1 && b.2.contains a.1

/-- Splits objects into groups that reach each other. -/
def group : List Reach → List (List ObjectId)
  | [] => []
  | a :: rest =>
    (a.1 :: (rest.filter (together a)).map Prod.fst) :: group (rest.filter fun b => !together a b)
termination_by objects => objects.length
decreasing_by
  simp only [List.length_unattach, List.length_cons]
  exact Nat.lt_succ_of_le (Nat.le_trans (List.length_filter_le _ _) (by simp))

/-- The strongly connected components of a graph, among the listed objects. -/
def components (g : Graph) (nodes : List ObjectId) : List (List ObjectId) :=
  group (nodes.map fun id => (id, reachable g id))

/-! ## Cycles of a model -/

/-- The references that lead from one object to another. -/
def links (m : Model) : Edges := m.references.filter fun edge => edge.1 ≠ edge.2

/-- The objects of a model and those that its references lead to. -/
def nodes (m : Model) : List ObjectId :=
  Ordered.distinctBy ObjectId.le id (m.objects.map Model.Object.id ++ (links m).map Prod.snd)

/-- The objects that refer to themselves, and those in a component of more than one object, where
`split` finds the components. -/
def cyclicBy (split : Graph → List ObjectId → List (List ObjectId)) (m : Model) : List ObjectId :=
  (m.references.filter fun edge => edge.1 = edge.2).map Prod.fst ++
    ((split (Graph.ofEdges (links m)) (nodes m)).filter fun c => 2 ≤ c.length).flatten

end FieldFlow.Cycle
