import FieldFlow.Proofs.Memoization
import FieldFlow.Proofs.Simulation

/-!
# More paths give more final paths

A model may be widened by giving some of its objects further paths.  As long as the same objects are
top, the wider model simulates the narrower one: whatever a reference could be resolved to before,
it can be resolved to still, also where a path does not track the field, and so no final path is
lost.  A new path that closes a cycle is another matter: the objects on the cycle no longer have
paths at all.

Main definitions: `Model.Widens`.
Main results: `Model.Widens.simulates`, `Solver.final_paths_monotone`.
-/

namespace FieldFlow

namespace Model

/-- The second model has the same objects as the first, each with all of its paths. -/
structure Widens (m m' : Model) : Prop where
  has : ∀ id, m.Has id ↔ m'.Has id
  paths : ∀ o ∈ m.objects, ∀ o' ∈ m'.objects, o.id = o'.id → o.paths ⊆ o'.paths

/-- **A wider model simulates a narrower one**, if the same objects are on cycles. -/
theorem Widens.simulates {m m' : Model} (h : m.Widens m')
    (hcycle : ∀ id, m.OnCycle id ↔ m'.OnCycle id) :
    Simulates (fun _ => True) m m' := by
  refine ⟨fun _ _ => trivial, fun _ => h.has _, fun _ => hcycle _, fun {id o} _ ho => ?_⟩
  obtain ⟨hmem, hid⟩ := of_object? ho
  obtain ⟨o', ho'⟩ := has_iff.mp ((h.has id).mp ⟨o, hmem, hid⟩)
  obtain ⟨hmem', hid'⟩ := of_object? ho'
  have hpaths : o.paths ⊆ o'.paths := h.paths o hmem o' hmem' (hid.trans hid'.symm)
  exact ⟨o', ho', fun path hpath => ⟨path, hpaths hpath, rfl⟩⟩

end Model

namespace Solver

variable {m m' : Model} {s s' : Solver} {past : List (Nat × Propagation)}
  {w w' w₀ w₁ w₀' w₁' : Workspace}
  {canceled canceled' : Bool} {r r' : Result}

/-- A look-up gives top exactly for the objects on cycles. -/
theorem value?_eq_top (hbuild : (build m).Returns w₀ s w₁) {id : ObjectId} :
    s.value? id = some .top ↔ m.OnCycle id := by
  rcases value?_cases hbuild id with ⟨hmissing, hv⟩ | ⟨_, hcycle, hv⟩ |
    ⟨_, hcycle, v, hv, hnotTop, _⟩
  · -- an object on a cycle refers to another one, so the model has it
    refine iff_of_false (by simp [hv]) fun hcycle => hmissing ?_
    obtain ⟨_, ⟨o, ho, hid, _⟩, _⟩ := Relation.TransGen.head'_iff.mp hcycle
    exact ⟨o, ho, hid⟩
  · exact iff_of_true hv hcycle
  · refine iff_of_false (fun htop => ?_) hcycle
    obtain rfl := Option.some.inj (hv.symm.trans htop)
    cases hnotTop

/-- A run that returns solves every object of the model. -/
theorem solves_of_run (hbuild : (build m).Returns w₀ s w₁) (hw : Ready m s past w)
    (hrun : (s.run canceled).Returns w r w') {id : ObjectId} (hid : m.Has id) :
    ∃ v, r.value? id = some v ∧ Solves m id v :=
  visitAll_spec hbuild hw (fun _ hmem => (mem_ids hbuild).mp hmem) (fun _ _ hv => by cases hv)
    (visitAll_of_run hrun) id (.inl ((mem_ids hbuild).mpr hid))

/-- **Finalization is monotone in the paths.**  Let a model have the objects of another one, each
with all of its paths, and let the same objects be top in both.  If both are built and both are run,
whatever the pools held and whatever calls came before, then every object that is not top has final
paths in both results, and the keys of those in the first are among the keys of those in the
second. -/
theorem final_paths_monotone (hwidens : m.Widens m') (hw : w₀.Standard) (hw' : w₀'.Standard)
    (hbuild : (build m).Returns w₀ s w₁) (hbuild' : (build m').Returns w₀' s' w₁')
    (htops : ∀ id, s.value? id = some .top ↔ s'.value? id = some .top) {w w' u u' : Workspace}
    (hreaches : s.Reaches w₁ w) (hreaches' : s'.Reaches w₁' w')
    (hrun : (s.run canceled).Returns w r u) (hrun' : (s'.run canceled').Returns w' r' u') :
    ∀ id, m.Has id → s.value? id ≠ some .top →
      ∃ v v', r.value? id = some v ∧ r'.value? id = some v' ∧
      v.isTop = false ∧ v'.isTop = false ∧ v.toList.map PathValue.key ⊆
        v'.toList.map PathValue.key := by
  have hcycle : ∀ id, m.OnCycle id ↔ m'.OnCycle id := by
    intro id
    rw [← value?_eq_top hbuild, htops, value?_eq_top hbuild']
  have hsimulates := hwidens.simulates hcycle
  intro id hid hnotTop
  obtain ⟨v, hv, hsolves⟩ :=
    solves_of_run hbuild (ready_of_reaches hbuild (ready_of_build hw hbuild) hreaches) hrun hid
  obtain ⟨v', hv', hsolves'⟩ := solves_of_run hbuild'
    (ready_of_reaches hbuild' (ready_of_build hw' hbuild') hreaches') hrun'
      ((hwidens.has id).mp hid)
  have hnot : ¬ m.OnCycle id := mt (value?_eq_top hbuild).mpr hnotTop
  rcases hsolves with ⟨hon, _⟩ | ⟨_, hfinal⟩
  · exact absurd hon hnot
  rcases hsolves' with ⟨hon, _⟩ | ⟨_, hfinal'⟩
  · exact absurd ((hcycle id).mpr hon) hnot
  refine ⟨v, v', hv, hv', hfinal.notTop, hfinal'.notTop,
    Propagation.keys_subset_of_views fun b hb => ?_⟩
  exact (hfinal'.views b).mpr (hsimulates.finalView trivial ((hfinal.views b).mp hb))

/-- The model `removal` with the first path of each object only. -/
def narrowed : Model :=
  ⟨"v1", removal.objects.map fun o => { o with paths := o.paths.take 1 }⟩

/-- The user of `removal` keeps its final paths when the source gets its second path. -/
theorem final_paths_monotone_removal : narrowed.validate = .ok () ∧ removal.validate = .ok () ∧
    narrowed.Widens removal ∧ ∃ s w₁ r u s' w₁' r' u' v v',
      (build narrowed).Returns (Workspace.standard true) s w₁ ∧ (s.run false).Returns w₁ r u ∧
      (build removal).Returns (Workspace.standard true) s' w₁' ∧ (s'.run false).Returns w₁' r' u' ∧
      r.value? ⟨"user", "exit"⟩ = some v ∧ r'.value? ⟨"user", "exit"⟩ = some v' ∧ v.isTop = false ∧
      v'.isTop = false ∧ v.toList.map PathValue.key ⊆ v'.toList.map PathValue.key := by
  have hw := Workspace.standard_standard
  have hwidens : narrowed.Widens removal := by
    refine ⟨fun id => ?_, ?_⟩
    · have hhas : ∀ m : Model, m.Has id ↔ id ∈ m.objects.map Model.Object.id :=
        fun _ => List.mem_map.symm
      rw [hhas, hhas]
      exact iff_of_eq rfl
    · have hpaths : ∀ o ∈ narrowed.objects, ∀ o' ∈ removal.objects, o.id = o'.id →
          ∀ path ∈ o.paths, path ∈ o'.paths := by decide
      exact fun o ho o' ho' hid path hpath => hpaths o ho o' ho' hid path hpath
  obtain ⟨s, w₁, hbuild⟩ := (follows_build hw narrowed).exists_returns (by decide)
  obtain ⟨s', w₁', hbuild'⟩ := (follows_build hw removal).exists_returns (by decide)
  obtain ⟨r, u, hrun⟩ := exists_returns_run hw hbuild (by unfold Model.Foldable; decide)
  obtain ⟨r', u', hrun'⟩ := exists_returns_run hw hbuild' (by unfold Model.Foldable; decide)
  -- in both models only the user refers to an object, and nothing refers to it
  have hnone : ∀ m ∈ [narrowed, removal], ∀ id, ¬ m.OnCycle id := by
    intro m hm id hcycle
    obtain ⟨⟨b, hfirst⟩, a, hlast⟩ := hcycle.references
    have hchain : ∀ m ∈ [narrowed, removal],
        ∀ e ∈ m.references, ∀ e' ∈ m.references, e.1 ≠ e'.2 := by decide
    exact hchain m hm _ hfirst _ hlast rfl
  have htops : ∀ id, s.value? id = some .top ↔ s'.value? id = some .top := by
    intro id
    rw [value?_eq_top hbuild, value?_eq_top hbuild']
    exact iff_of_false (hnone _ (by simp) id) (hnone _ (by simp) id)
  have hhas : narrowed.Has ⟨"user", "exit"⟩ := List.mem_map.mp (by decide)
  have hnotTop : s.value? ⟨"user", "exit"⟩ ≠ some .top :=
    mt (value?_eq_top hbuild).mp (hnone _ (by simp) _)
  obtain ⟨v, v', hkept⟩ :=
    final_paths_monotone hwidens hw hw hbuild hbuild' htops .refl .refl hrun hrun' _ hhas hnotTop
  exact ⟨by decide, by decide, hwidens, s, w₁, r, u, s', w₁', r', u', v, v', hbuild, hrun, hbuild',
    hrun', hkept⟩

end Solver

end FieldFlow
