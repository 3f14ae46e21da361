import FieldFlow.Proofs.Frames
import FieldFlow.Proofs.Memoization
import FieldFlow.Proofs.Monotonicity
import Mathlib.Algebra.BigOperators.Group.List.Basic

/-!
# Runs that cannot fail, and what they count

Where every reference is folded in by a known action, a run returns whatever calls came before it.
Its result has a value for each object that the model names, once; a value that is not top waits for
nothing, and its paths track fields that the object declares.  A run counts its visits, one for each
object that the model lists, and the final paths that they find.  Finalizing counts neither, however
deep it goes, so the counts of a run do not depend on what was finalized before it.

Main definitions: `Workspace.counts`, `Work.Uncounted`, `Result.pathCount`.
Main results: `Solver.uncounted_finalize`, `Solver.visitAll_counts`, `Solver.run_total`.
-/

namespace FieldFlow

/-- What runs have counted so far: the objects that they visited, and the final paths of those. -/
def Workspace.counts (w : Workspace) : Nat × Nat := (w.objects, w.pathValues)

/-! ## Computations that count nothing -/

namespace Work

variable {α : Type} {x : Work α} {w w' : Workspace}

/-- Whether it returns or fails, the computation counts nothing. -/
def Uncounted (x : Work α) : Prop := ∀ w, (x.run.run w).2.counts = w.counts

/-- The counts after a computation that returns. -/
theorem Uncounted.returns (hx : x.Uncounted) {a : α} (h : x.Returns w a w') :
    w'.counts = w.counts := by
  have hcounts := hx w
  rwa [h] at hcounts

end Work

/-! ## Finalizing -/

/-- A path shows something of each field that it tracks. -/
theorem PathValue.view_ne_none {p : PathValue} {name : String} (h : name ∈ p.names) :
    p.view name ≠ none := by
  obtain ⟨⟨_, value⟩, hentry, rfl⟩ := List.mem_map.mp h
  rw [PathValue.view, PathValue.entry?_eq_some.mpr hentry]
  exact Option.some_ne_none _

/-- The number of final paths that a result has for an object; top has none. -/
def Result.pathCount (r : Result) (id : ObjectId) : Nat :=
  ((r.value? id).map Propagation.size).getD 0

namespace Solver

variable {m : Model} {s : Solver} {past : List (Nat × Propagation)} {w w' w₀ w₁ : Workspace}

/-- **Finalizing counts nothing**, however deep it goes. -/
theorem uncounted_finalize (s : Solver) (v : Propagation) : (s.finalize v).Uncounted := by
  intro w
  have hframe := (framed_finalize s v).sameFrame w
  rw [Workspace.counts, hframe.objects, hframe.pathValues, Workspace.counts]

/-! ## Visiting -/

/-- A visit counts one object and its final paths. -/
theorem visit_counts {id : ObjectId} {v v' : Propagation} (hv : s.value? id = some v)
    (h : (s.visit id).Returns w v' w') : w'.counts = (w.objects + 1, w.pathValues + v'.size) := by
  obtain ⟨w₂, hfinal, rfl⟩ := (returns_visit hv).mp h
  have hcounts := (uncounted_finalize s v).returns hfinal
  obtain ⟨hobjects, hpaths⟩ := Prod.mk.inj hcounts
  rw [Workspace.counts, hobjects, hpaths]

/-- **Visits count** themselves and the final paths that they find. -/
theorem visitAll_counts (hbuild : (build m).Returns w₀ s w₁) (hw : Ready m s past w)
    {ids : List ObjectId} (hids : ∀ id ∈ ids, m.Has id) {before after : Result}
    (h : (s.visitAll before ids).Returns w after w') :
    ∃ finals, List.Forall₂ (Solves m) ids finals ∧
      w'.counts = (w.objects + ids.length, w.pathValues + (finals.map Propagation.size).sum) := by
  induction ids generalizing before w with
  | nil =>
    obtain ⟨rfl, rfl⟩ := Work.returns_pure.mp h
    exact ⟨[], .nil, rfl⟩
  | cons id rest ih =>
    obtain ⟨v, w₂, hvisit, hrest⟩ := Work.returns_bind.mp h
    have hid := hids id List.mem_cons_self
    obtain ⟨hw₂, hsolves⟩ := visit_spec hbuild hw hid hvisit
    obtain ⟨built, hbuilt⟩ := exists_value hbuild hid
    obtain ⟨hobjects, hpaths⟩ := Prod.mk.inj (visit_counts hbuilt hvisit)
    obtain ⟨finals, hfinals, hcounts⟩ :=
      ih hw₂ (fun i hi => hids i (List.mem_cons_of_mem _ hi)) hrest
    refine ⟨v :: finals, .cons hsolves hfinals, ?_⟩
    rw [hcounts, hobjects, hpaths, List.length_cons, List.map_cons, List.sum_cons]
    congr 1 <;> omega

/-- Values that solve an object have the same number of paths. -/
theorem Solves.size_eq {id : ObjectId} {v u : Propagation} (hv : Solves m id v)
    (hu : Solves m id u) :
    v.size = u.size := by
  have hkeys := (hv.sameKeys hu (.refl m id)).keys
  have hlength := congrArg List.length hkeys
  rwa [List.length_map, List.length_map] at hlength

/-- The final paths that visits find are those of the result. -/
theorem sizes_eq {ids : List ObjectId} {finals : List Propagation} {r : Result}
    (hfinals : List.Forall₂ (Solves m) ids finals)
    (hr : ∀ id ∈ ids, ∃ v, r.value? id = some v ∧ Solves m id v) :
    finals.map Propagation.size = ids.map r.pathCount := by
  induction hfinals with
  | nil => rfl
  | @cons id v _ _ hsolves _ ih =>
    obtain ⟨u, hu, hsolves'⟩ := hr id List.mem_cons_self
    have hsize : v.size = r.pathCount id := by
      rw [Result.pathCount, hu]
      exact hsolves.size_eq hsolves'
    rw [List.map_cons, List.map_cons, hsize, ih fun i hi => hr i (List.mem_cons_of_mem _ hi)]

/-! ## Runs -/

/-- A run visits the objects that the model lists, in another order. -/
theorem ids_perm (hbuild : (build m).Returns w₀ s w₁) :
    s.ids.Perm (m.objects.map Model.Object.id) := by
  obtain ⟨_, _, _, hids⟩ := build_shape hbuild
  rw [hids]
  exact List.mergeSort_perm _ _

/-- **A run counts** the objects that the model lists and their final paths. -/
theorem run_counts (hbuild : (build m).Returns w₀ s w₁) (hw : Ready m s past w) {canceled : Bool}
    {r : Result} (h : (s.run canceled).Returns w r w') :
    w'.objects = w.objects + m.objects.length ∧
      w'.pathValues = w.pathValues + (m.objects.map fun o => r.pathCount o.id).sum := by
  obtain ⟨finals, hfinals, hcounts⟩ :=
    visitAll_counts hbuild hw (fun _ hid => (mem_ids hbuild).mp hid)
      (visitAll_of_run h)
  have hsizes := sizes_eq hfinals fun id hid => solves_of_run hbuild hw h ((mem_ids hbuild).mp hid)
  have hperm := ids_perm hbuild
  have hsum : (finals.map Propagation.size).sum =
      (m.objects.map fun o => r.pathCount o.id).sum := by
    rw [hsizes, (hperm.map r.pathCount).sum_eq, List.map_map]
    rfl
  obtain ⟨hobjects, hpaths⟩ := Prod.mk.inj hcounts
  rw [hobjects, hpaths, hsum, hperm.length_eq, List.length_map]
  exact ⟨rfl, rfl⟩

/-- The result of a run names each object of the model once. -/
theorem ids_of_run (hbuild : (build m).Returns w₀ s w₁) {canceled : Bool} {r : Result}
    (h : (s.run canceled).Returns w r w') : r.ids.Nodup ∧ ∀ id, id ∈ r.ids ↔ m.Has id := by
  obtain ⟨hnodup, hkeys⟩ := visitAll_keys (by simp [Result.empty]) (visitAll_of_run h)
  refine ⟨(List.mergeSort_perm _ _).nodup_iff.mpr hnodup, fun id => ?_⟩
  rw [Result.ids, List.mem_mergeSort, Result.mem_keys_iff, hkeys, mem_ids hbuild]
  simp [Result.empty, Result.value?]

/-- The fields that a final path tracks are declared in a path of the object; of several objects
with one name the last counts. -/
theorem IsFinal.declared {id : ObjectId} {v : Propagation} (hv : IsFinal m id v) {p : PathValue}
    (hp : p ∈ v.toList) {name : String} (hname : name ∈ p.names) :
    ∃ o, m.object? id = some o ∧ ∃ path ∈ o.paths, ∃ f ∈ path.fields, f.name = name := by
  obtain ⟨o, ho, path, hpath, hsettles⟩ := (hv.views p.view).mp ⟨p, hp, rfl⟩
  refine ⟨o, ho, path, hpath, ?_⟩
  cases hdeclared : path.declaration? name with
  | none => exact absurd (hsettles.others name hdeclared) (PathValue.view_ne_none hname)
  | some f =>
    exact ⟨f, Model.mem_of_declaration? hdeclared, by simpa using List.find?_some hdeclared⟩

/-- **Runs cannot fail on known actions.**  Let a model be built in a workspace with the default
factories and analyses, and let every reference be folded in by a known action.  Whatever calls came
before, a run that is not called off returns.  Its result names each object of the model once, and a
value in it that is not top waits for nothing and tracks fields that the object declares.  The run
adds to the counts the number of objects that the model lists, and the number of their final
paths. -/
theorem run_total (hw : w₀.Standard) (hbuild : (build m).Returns w₀ s w₁) (hm : m.Foldable)
    (hreaches : s.Reaches w₁ w) : ∃ r w', (s.run false).Returns w r w' ∧ s.Reaches w₁ w' ∧
      r.ids.Nodup ∧ (∀ id, id ∈ r.ids ↔ m.Has id) ∧
      (∀ id v, r.value? id = some v → v.isTop = false → v.isIntermediate = false ∧
        ∀ p ∈ v.toList, ∀ name ∈ p.names,
          ∃ o, m.object? id = some o ∧ ∃ path ∈ o.paths, ∃ f ∈ path.fields, f.name = name) ∧
      w'.objects = w.objects + m.objects.length ∧
      w'.pathValues = w.pathValues + (m.objects.map fun o => r.pathCount o.id).sum := by
  have hready := ready_of_reaches hbuild (ready_of_build hw hbuild) hreaches
  obtain ⟨r, w', hrun⟩ := exists_returns_of_ready hbuild hready hm
  obtain ⟨hnodup, hids⟩ := ids_of_run hbuild hrun
  refine ⟨r, w', hrun, hreaches.tail (.completed (.whole false) hrun), hnodup, hids,
    fun id v hv hnotTop => ?_, run_counts hbuild hready hrun⟩
  have hid : m.Has id := (hids id).mp (List.mem_mergeSort.mpr (Result.mem_keys_iff.mpr ⟨v, hv⟩))
  obtain ⟨u, hu, hsolves⟩ := solves_of_run hbuild hready hrun hid
  obtain rfl := Option.some.inj (hv.symm.trans hu)
  rcases hsolves with ⟨_, rfl⟩ | ⟨_, hfinal⟩
  · cases hnotTop
  · exact ⟨hfinal.settled, fun p hp name hname => hfinal.declared hp hname⟩

/-- A model that lists an object twice, the second time with references to nothing and to a cycle
from a field of an unknown type, and an object without paths. -/
def tangled : Model :=
  let refer (symbol op : String) : Model.Op := ⟨"compose", [], some ⟨symbol, "exit", "", op⟩⟩
  let path (type : String) (ops : List Model.Op) : Model.Path := ⟨[⟨"ports", type, ops⟩]⟩
  ⟨"v1", [⟨"first", "exit", [path "int" [⟨"add", ["80"], none⟩]]⟩,
    ⟨"first", "exit", [path "port" [refer "missing" "remove", refer "second" ""], ⟨[]⟩]⟩,
    ⟨"second", "exit", [path "" [refer "third" "replace"]]⟩,
    ⟨"third", "exit", [path "" [refer "second" "clear"]]⟩,
    ⟨"fourth", "exit", []⟩]⟩

/-- The tangled model is built and run twice.  Each run names the four objects once and counts
five. -/
theorem run_total_tangled :
    ∃ s w₁ r w₂ r' w₃, (build tangled).Returns (Workspace.standard true) s w₁ ∧
    (s.run false).Returns w₁ r w₂ ∧ (s.run false).Returns w₂ r' w₃ ∧
    r.ids.Nodup ∧ (∀ id, id ∈ r.ids ↔ tangled.Has id) ∧ r'.ids.Nodup ∧
      (∀ id, id ∈ r'.ids ↔ tangled.Has id) ∧
    w₂.objects = w₁.objects + 5 ∧ w₃.objects = w₁.objects + 10 ∧
    w₃.pathValues = w₁.pathValues + (tangled.objects.map fun o => r.pathCount o.id).sum
      + (tangled.objects.map fun o => r'.pathCount o.id).sum := by
  have hw := Workspace.standard_standard
  have hm : tangled.Foldable := by
    unfold Model.Foldable
    decide
  obtain ⟨s, w₁, hbuild⟩ := (follows_build hw tangled).exists_returns (by decide)
  obtain ⟨r, w₂, hrun, hreaches, hnodup, hids, _, hobjects, hpaths⟩ := run_total hw hbuild hm .refl
  obtain ⟨r', w₃, hrun', _, hnodup', hids', _, hobjects', hpaths'⟩ :=
    run_total hw hbuild hm hreaches
  refine ⟨s, w₁, r, w₂, r', w₃, hbuild, hrun, hrun', hnodup, hids, hnodup', hids', hobjects, ?_, ?_⟩
  · rw [hobjects', hobjects]
    rfl
  · rw [hpaths', hpaths]

end Solver

end FieldFlow
