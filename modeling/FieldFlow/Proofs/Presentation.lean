import FieldFlow.Proofs.Simulation

/-!
# The order of presentation

A model may list its objects, the paths of an object and the fields of a path in any order, as long
as the declarations of one field stay in theirs, and may list a path more than once.  Such models
simulate each other, and building fails for both or for neither, since it fails exactly where the
operations of some field cannot be made out.  So their runs agree down to the listing, although
transformers are built, interned and numbered in another order.

Main definitions: `Model.Rearranges`, `Model.Embeds`.
Main results: `Model.simulates_of_embeds`, `Solver.fails_build`, `Solver.presentation_irrelevant`.
-/

namespace FieldFlow

/-! ## Rearranged models -/

namespace Model

/-- The paths declare the same fields; those of one name stand in the same order. -/
def Path.Rearranges (p q : Path) : Prop :=
  ∀ name, p.fields.filter (fun f => f.name = name) = q.fields.filter (fun f => f.name = name)

/-- The objects have the same name and the same paths, up to the order of fields and of paths and to
repetition. -/
structure Object.Rearranges (o o' : Object) : Prop where
  id : o.id = o'.id
  forth : ∀ path ∈ o.paths, ∃ path' ∈ o'.paths, path.Rearranges path'
  back : ∀ path' ∈ o'.paths, ∃ path ∈ o.paths, path.Rearranges path'

/-- The models have the same objects, up to their order and the order and repetition of what they
list. -/
def Rearranges (m m' : Model) : Prop :=
  ∃ objects, List.Forall₂ Object.Rearranges m.objects objects ∧ objects.Perm m'.objects

/-- Neighbours with different names may be exchanged. -/
theorem Path.rearranges_swap (before after : List Field) {f g : Field} (h : f.name ≠ g.name) :
    Path.Rearranges ⟨before ++ f :: g :: after⟩ ⟨before ++ g :: f :: after⟩ := by
  intro name
  by_cases hf : f.name = name
  · have hg : g.name ≠ name := fun hg => h (hf.trans hg.symm)
    simp [hf, hg]
  · simp [List.filter_cons, hf]

/-- A rearranged path has the same declarations. -/
theorem Path.Rearranges.declaration?_eq {p q : Path} (h : p.Rearranges q) :
    p.declaration? = q.declaration? := by
  funext name
  unfold Path.declaration?
  rw [← List.head?_filter, ← List.head?_filter, List.filter_reverse, List.filter_reverse, h name]

theorem Path.Rearranges.mem_iff {p q : Path} (h : p.Rearranges q) {f : Field} :
    f ∈ p.fields ↔ f ∈ q.fields := by
  have hfilter : ∀ fields : List Field, f ∈ fields.filter (fun g => g.name = f.name) ↔
      f ∈ fields := by
    intro fields
    simp
  rw [← hfilter p.fields, h f.name, hfilter]

variable {m m' : Model}

/-- The second model has every object of the first, with all of its paths up to the order of
fields. -/
def Embeds (m m' : Model) : Prop :=
  ∀ o ∈ m.objects, ∃ o' ∈ m'.objects, o.id = o'.id ∧
    ∀ path ∈ o.paths, ∃ path' ∈ o'.paths, path.Rearranges path'

theorem Rearranges.embeds (h : m.Rearranges m') : m.Embeds m' := by
  obtain ⟨objects, hrelated, hperm⟩ := h
  intro o ho
  obtain ⟨o', ho', hsame⟩ := (exists_of_forall₂ hrelated).1 o ho
  exact ⟨o', hperm.mem_iff.mp ho', hsame.id, hsame.forth⟩

/-- The rearrangements of a model embed into it. -/
theorem Rearranges.embeds_back (h : m.Rearranges m') : m'.Embeds m := by
  obtain ⟨objects, hrelated, hperm⟩ := h
  intro o' ho'
  obtain ⟨o, ho, hsame⟩ := (exists_of_forall₂ hrelated).2 o' (hperm.mem_iff.mpr ho')
  refine ⟨o, ho, hsame.id.symm, fun path' hpath' => ?_⟩
  obtain ⟨path, hpath, hpaths⟩ := hsame.back path' hpath'
  exact ⟨path, hpath, fun name => (hpaths name).symm⟩

/-- The names of the objects are rearranged with them. -/
theorem Rearranges.ids_perm (h : m.Rearranges m') :
    (m.objects.map Object.id).Perm (m'.objects.map Object.id) := by
  obtain ⟨objects, hrelated, hperm⟩ := h
  have hids : ∀ {l l' : List Object}, List.Forall₂ Object.Rearranges l l' →
      l.map Object.id = l'.map Object.id := by
    intro l l' h
    induction h with
    | nil => rfl
    | cons hfirst _ ih => rw [List.map_cons, List.map_cons, hfirst.id, ih]
  exact hids hrelated ▸ hperm.map Object.id

/-! ## Simulation -/

namespace Embeds

/-- A model has the objects of a model that embeds into it. -/
theorem has (h : m.Embeds m') {id : ObjectId} (hid : m.Has id) : m'.Has id := by
  obtain ⟨o, ho, rfl⟩ := hid
  obtain ⟨o', ho', hsame, _⟩ := h o ho
  exact ⟨o', ho', hsame.symm⟩

/-- A model has the references of a model that embeds into it. -/
theorem refers (h : m.Embeds m') {a b : ObjectId} (href : m.Refers a b) : m'.Refers a b := by
  obtain ⟨o, ho, rfl, path, hpath, f, hf, hwritten⟩ := href
  obtain ⟨o', ho', hid, hpaths⟩ := h o ho
  obtain ⟨path', hpath', hsame⟩ := hpaths path hpath
  exact ⟨o', ho', hid.symm, path', hpath', f, hsame.mem_iff.mp hf, hwritten⟩

end Embeds

/-- **Models that embed into each other simulate each other**, if they list every object once. -/
theorem simulates_of_embeds (hm' : (m'.objects.map Object.id).Nodup) (h : m.Embeds m')
    (h' : m'.Embeds m) :
    Simulates (fun _ => True) m m' := by
  have hcycle : ∀ {m m' : Model}, m.Embeds m' → ∀ {id}, m.OnCycle id → m'.OnCycle id :=
    fun hembeds _ hchain =>
      Relation.TransGen.mono (fun _ _ => hembeds.refers) _ _ hchain
  refine ⟨fun _ _ => trivial, fun _ => ⟨h.has, h'.has⟩, fun _ => ⟨hcycle h, hcycle h'⟩,
    fun {id o} _ ho => ?_⟩
  obtain ⟨hmem, rfl⟩ := of_object? ho
  obtain ⟨o', ho', hid, hpaths⟩ := h o hmem
  refine ⟨o', (object?_eq_some hm').mpr ⟨ho', hid.symm⟩, fun path hpath => ?_⟩
  obtain ⟨path', hpath', hsame⟩ := hpaths path hpath
  exact ⟨path', hpath', hsame.declaration?_eq⟩

end Model

namespace Solver

variable {m m' : Model} {w₀ w₀' : Workspace}

/-! ## Where building fails -/

/-- The operations of some field of the model cannot be made out. -/
def Unbuildable (m : Model) : Prop :=
  ∃ o ∈ m.objects, ∃ path ∈ o.paths, ∃ f ∈ path.fields, valueOf? f = none

/-- A path cannot be built exactly if one of its fields cannot. -/
theorem pathOf?_eq_none {known : View} {fields : List Model.Field} :
    pathOf? known fields = none ↔ ∃ f ∈ fields, valueOf? f = none := by
  induction fields generalizing known with
  | nil => simp [pathOf?]
  | cons f rest ih =>
    rw [List.exists_mem_cons_iff, pathOf?]
    cases hf : valueOf? f with
    | none => simp
    | some v => simpa using ih

/-- Objects cannot be built exactly if a field of one of them cannot. -/
theorem allBuilt?_eq_none {objects : List Model.Object} : allBuilt? objects = none ↔
    ∃ o ∈ objects, ∃ path ∈ o.paths, ∃ f ∈ path.fields, valueOf? f = none := by
  induction objects with
  | nil => simp [allBuilt?]
  | cons o rest ih =>
    have hpaths : pathsOf? o.paths = none ↔
        ∃ path ∈ o.paths, ∃ f ∈ path.fields, valueOf? f = none := by
      rw [pathsOf?, mapM_eq_none]
      simp only [pathOf?_eq_none]
    rw [List.exists_mem_cons_iff, ← hpaths, allBuilt?]
    cases ho : pathsOf? o.paths with
    | none => simp
    | some views => simpa using ih

/-- **Building fails** exactly if the operations of some field cannot be made out. -/
theorem fails_build (hw : w₀.Standard) (m : Model) : (build m).Fails w₀ ↔ Unbuildable m :=
  (follows_build hw m).fails.trans allBuilt?_eq_none

/-- A model that embeds into one that can be built can be built. -/
theorem Unbuildable.embeds (h : Unbuildable m) (hembeds : m.Embeds m') : Unbuildable m' := by
  obtain ⟨o, ho, path, hpath, f, hf, hnone⟩ := h
  obtain ⟨o', ho', _, hpaths⟩ := hembeds o ho
  obtain ⟨path', hpath', hsame⟩ := hpaths path hpath
  exact ⟨o', ho', path', hpath', f, hsame.mem_iff.mp hf, hnone⟩

/-! ## Runs -/

/-- **The order of presentation does not matter.**  Let a valid model be rearranged: its objects are
listed in another order, their paths in another order and some of them repeatedly, and fields of
different names in another order.  Then building fails for both models or for neither, whatever the
pools hold.  If both are built, runs fail for both or for neither.  If both return, the results list
the same objects, of which the same are top and the others have the same path keys in the same
order; their listings are the same; and comparing them reports no difference, and every object as
the same. -/
theorem presentation_irrelevant (hm : m.validate = .ok ()) (hrearranges : m.Rearranges m')
    (hw : w₀.Standard) (hw' : w₀'.Standard) :
    ((build m).Fails w₀ ↔ (build m').Fails w₀') ∧
    ∀ s w₁ s' w₁', (build m).Returns w₀ s w₁ → (build m').Returns w₀' s' w₁' → ∀ canceled,
      ((s.run canceled).Fails w₁ ↔ (s'.run canceled).Fails w₁') ∧
      ∀ r w₂ r' w₂', (s.run canceled).Returns w₁ r w₂ → (s'.run canceled).Returns w₁' r' w₂' →
        r.Matches r' ∧ r.listing = r'.listing ∧ (Report.compare r r').differences = [] ∧
          ∀ id, id ∈ (Report.compare r r').sames ↔ id ∈ r.ids := by
  have hnodup := Model.nodup_of_validate hm
  have hforth := hrearranges.embeds
  have hback := hrearranges.embeds_back
  have hnodup' : (m'.objects.map Model.Object.id).Nodup := hrearranges.ids_perm.nodup_iff.mp hnodup
  have hagrees : ∀ id, Agrees m m' id := fun _ =>
    (Model.simulates_of_embeds hnodup' hforth hback).agrees
      (Model.simulates_of_embeds hnodup hback hforth) trivial
  have hhas : ∀ id, m.Has id ↔ m'.Has id := fun _ => ⟨hforth.has, hback.has⟩
  constructor
  · rw [fails_build hw, fails_build hw']
    exact ⟨fun h => h.embeds hforth, fun h => h.embeds hback⟩
  · intro s w₁ s' w₁' hbuild hbuild' canceled
    have hready := ready_of_build hw hbuild
    have hready' := ready_of_build hw' hbuild'
    constructor
    · rw [fails_run hbuild hready, fails_run hbuild' hready']
      simp only [hhas, (hagrees _).cycle, (hagrees _).stuck]
    · intro r w₂ r' w₂' hrun hrun'
      have hids : ∀ id, id ∈ s.ids ↔ id ∈ s'.ids := fun id => by
        rw [mem_ids hbuild, mem_ids hbuild', hhas]
      have hmatches : r.Matches r' := matches_of_visitAll hbuild hready hbuild' hready' hids
        (fun id hid => ⟨(mem_ids hbuild).mp hid, (hhas id).mp ((mem_ids hbuild).mp hid)⟩)
        (fun id _ => hagrees id) (visitAll_of_run hrun) (visitAll_of_run hrun')
      exact ⟨hmatches, hmatches.listing_eq, hmatches.compare_eq⟩

/-- A path that adds one value to one field. -/
def adding (field value : String) : Model.Path := ⟨[⟨field, "", [⟨"add", [value], none⟩]⟩]⟩

/-- A field from which the contents of the source are removed. -/
def removing : Model.Field :=
  ⟨"kept", "", [⟨"add", ["a", "b"], none⟩, ⟨"compose", [], some ⟨"source", "exit", "", "remove"⟩⟩]⟩

/-- A field of numbers. -/
def counting : Model.Field := ⟨"size", "int", [⟨"add", ["1"], none⟩]⟩

/-- A source with two paths, and a user with two fields. -/
def listed : Model :=
  ⟨"v1", [⟨"source", "exit", [adding "kept" "b", adding "other" "c"]⟩,
    ⟨"user", "exit", [⟨[removing, counting]⟩]⟩]⟩

/-- The same with the objects, the paths and the fields in another order, and one path repeated. -/
def relisted : Model :=
  ⟨"v1", [⟨"user", "exit", [⟨[counting, removing]⟩]⟩,
    ⟨"source", "exit", [adding "other" "c", adding "kept" "b", adding "other" "c"]⟩]⟩

/-- Both orders are built, run to the same listing, and compare as equal. -/
theorem presentation_irrelevant_relisted : listed.validate = .ok () ∧ listed.Rearranges relisted ∧
    ∃ s w₁ r w₂ s' w₁' r' w₂', (build listed).Returns (Workspace.standard true) s w₁ ∧
      (s.run false).Returns w₁ r w₂ ∧ (build relisted).Returns (Workspace.standard true) s' w₁' ∧
      (s'.run false).Returns w₁' r' w₂' ∧ r.listing = r'.listing ∧
        (Report.compare r r').differences = [] := by
  have hw := Workspace.standard_standard
  have hvalid : listed.validate = .ok () := by decide
  have hsource : Model.Object.Rearranges ⟨"source", "exit", [adding "kept" "b", adding "other" "c"]⟩
      ⟨"source", "exit", [adding "other" "c", adding "kept" "b", adding "other" "c"]⟩ := by
    refine ⟨rfl, fun path hpath => ⟨path, ?_, fun _ => rfl⟩,
      fun path hpath => ⟨path, ?_, fun _ => rfl⟩⟩
    · revert path
      decide
    · revert path
      decide
  have hfields : Model.Path.Rearranges ⟨[removing, counting]⟩ ⟨[counting, removing]⟩ :=
    Model.Path.rearranges_swap [] [] (by decide)
  have huser : Model.Object.Rearranges ⟨"user", "exit", [⟨[removing, counting]⟩]⟩
      ⟨"user", "exit", [⟨[counting, removing]⟩]⟩ :=
    ⟨rfl, by simpa using hfields, by simpa using hfields⟩
  have hrearranges : listed.Rearranges relisted :=
    ⟨relisted.objects.reverse, .cons hsource (.cons huser .nil), List.reverse_perm _⟩
  obtain ⟨hbuilds, hruns⟩ := presentation_irrelevant hvalid hrearranges hw hw
  obtain ⟨s, w₁, hbuild⟩ := (follows_build hw listed).exists_returns (by decide)
  obtain ⟨s', w₁', hbuild'⟩ :=
    (Work.returns_or_fails _ _).resolve_right (mt hbuilds.mpr hbuild.not_fails)
  obtain ⟨r, w₂, hrun⟩ := exists_returns_run hw hbuild (by unfold Model.Foldable; decide)
  obtain ⟨hfails, hresults⟩ := hruns s w₁ s' w₁' hbuild hbuild' false
  obtain ⟨r', w₂', hrun'⟩ :=
    (Work.returns_or_fails _ _).resolve_right (mt hfails.mpr hrun.not_fails)
  obtain ⟨_, hlisting, hdifferences, _⟩ := hresults r w₂ r' w₂' hrun hrun'
  exact ⟨hvalid, hrearranges, s, w₁, r, w₂, s', w₁', r', w₂', hbuild, hrun, hbuild', hrun',
    hlisting, hdifferences⟩

end Solver

end FieldFlow
