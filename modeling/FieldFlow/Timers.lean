import FieldFlow.Duration

/-!
# Timers

How long the phases of a run took, and what it counted.

Main definitions: `Timers`, `Timers.listing`.
-/

namespace FieldFlow

/-- The times of a run in nanoseconds, and its counts. -/
structure Timers where
  parsing : Int
  composition : Int
  generation : Int
  total : Int
  /-- The longest finalization of one object. -/
  longest : Int
  /-- The shortest finalization of one object. -/
  shortest : Int
  objects : Int
  pathValues : Int
deriving DecidableEq, Repr

namespace Timers

/-- Nothing was measured yet. -/
def zero : Timers := ⟨0, 0, 0, 0, 0, 0, 0, 0⟩

/-- Counts an object that took some time and has some path values. -/
def addObject (t : Timers) (elapsed : Int) (paths : Nat) : Timers :=
  { t with
    longest := if t.objects = 0 || t.longest < elapsed then elapsed else t.longest
    shortest := if t.objects = 0 || elapsed < t.shortest then elapsed else t.shortest
    objects := t.objects + 1
    pathValues := t.pathValues + paths }

/-- The lines of a listing: names, filled up to one width, and values. -/
def rows (t : Timers) : List (String × String) :=
  [("Model parsing:      ", Duration.text t.parsing),
    ("Value composition:  ", Duration.text t.composition),
    ("Result generation:  ", Duration.text t.generation),
    ("TOTAL:              ", Duration.text t.total),
    ("Max:                ", Duration.text t.longest),
    ("Min:                ", Duration.text t.shortest),
    ("#objects:           ", Integer.display t.objects),
    ("#path values:       ", Integer.display t.pathValues)]

/-- The times and the counts, one on a line. -/
def listing (t : Timers) : String :=
  String.join (t.rows.map fun row => row.1 ++ row.2 ++ "\n")

end Timers

end FieldFlow
