import FieldFlow.Proofs.Completion
import FieldFlow.Model.Validation

/-!
# Runs

A run visits the objects one after the other.  Each visit leaves the final value of its object in
the result and keeps what was solved before, so a run that returns has solved every object.  A run
fails exactly if it visits an object that is stuck; where every reference is folded in by a known
action it returns.

Main definitions: `Solver.Solves`, `Solver.Solving`.
Main results: `Solver.visitAll_spec`, `Solver.fails_run`, `Solver.run_eq_direct`.
-/

namespace FieldFlow

/-! ## Results -/

/-- Putting a value changes the value of one object. -/
theorem Result.value?_put (r : Result) (id id' : ObjectId) (v : Propagation) :
    (r.put id v).value? id' = if id' = id then some v else r.value? id' := by
  have hentries : ∀ entries : List (ObjectId × Propagation),
      (Result.putEntry id v entries).lookup id' = if id' = id then some v
        else entries.lookup id' := by
    intro entries
    induction entries with
    | nil => rw [Result.putEntry, lookup_cons_ite]
    | cons entry rest ih =>
      obtain ⟨id₀, v₀⟩ := entry
      rw [Result.putEntry, lookup_cons_ite]
      by_cases hid : id₀ = id
      · rw [if_pos hid, lookup_cons_ite, hid]
        split <;> rfl
      · rw [if_neg hid, lookup_cons_ite, ih]
        by_cases hid' : id' = id₀
        · rw [if_pos hid', if_neg (hid' ▸ hid), if_pos hid']
        · rw [if_neg hid', if_neg hid']
  exact hentries r.entries

namespace Solver

variable {m : Model} {s : Solver} {past : List (Nat × Propagation)} {w w' w₀ w₁ : Workspace}

/-- The value is what a run gives for the object: top on a reference cycle, and else its final
paths. -/
def Solves (m : Model) (id : ObjectId) (v : Propagation) : Prop :=
  (m.OnCycle id ∧ v = .top) ∨ (¬ m.OnCycle id ∧ IsFinal m id v)

theorem ready_of_build (hw : w₀.Standard) (hbuild : (build m).Returns w₀ s w₁) :
    Ready m s (w₁.finalsOf s.number) w₁ := by
  obtain ⟨hadvances, _, _, hobjects, hnumber, hfresh⟩ := (follows_build hw m).returns hbuild
  refine ⟨hw.mono hadvances, hnumber, hobjects, ?_, ?_, fun _ _ h => h⟩ <;> simp [hfresh]

theorem mem_ids (hbuild : (build m).Returns w₀ s w₁) {id : ObjectId} : id ∈ s.ids ↔ m.Has id := by
  obtain ⟨_, _, _, hids⟩ := build_shape hbuild
  rw [hids, List.mem_mergeSort, List.mem_map]
  rfl

/-! ## Finalizing objects -/

/-- Finalization gives final values, fails for objects that are stuck only, and leaves top as
it is. -/
structure Solving (m : Model) (s : Solver) (finalize : Propagation → Work Propagation) : Prop where
  finalizes : Finalizes m s finalize
  completes : ∀ {past w id v}, Ready m s past w → s.values.lookup id = some v →
    (finalize v).Fails w → Stuck m id
  top : ∀ {w}, w.Standard → ∃ w', (finalize .top).Returns w .top w' ∧ w.Advances w'

section Solving

variable {finalize : Propagation → Work Propagation} (hfinalize : Solving m s finalize)
  (hbuild : (build m).Returns w₀ s w₁) (hw : Ready m s past w) {id : ObjectId} {v v' : Propagation}
  (hv : s.value? id = some v)

include hfinalize hbuild hw hv

/-- Finalizing the value of an object solves the object. -/
theorem Solving.returns (h : (finalize v).Returns w v' w') :
    Ready m s past w' ∧ Solves m id v' := by
  rcases (value_cases hbuild hv).2 with ⟨hcycle, rfl⟩ | ⟨hcycle, _, hlookup⟩
  · obtain ⟨w₂, hreturns, hadvances⟩ := hfinalize.top hw.standard
    obtain ⟨rfl, rfl⟩ := h.unique hreturns
    exact ⟨hw.mono hadvances, .inl ⟨hcycle, rfl⟩⟩
  · obtain ⟨hw', _, hfinal, _⟩ := hfinalize.finalizes.returns hw hlookup h
    exact ⟨hw', .inr ⟨hcycle, hfinal⟩⟩

/-- **Finalizing the value of an object** fails exactly if the object is stuck and not on a
cycle. -/
theorem Solving.fails_iff : (finalize v).Fails w ↔ ¬ m.OnCycle id ∧ Stuck m id := by
  rcases (value_cases hbuild hv).2 with ⟨hcycle, rfl⟩ | ⟨hcycle, _, hlookup⟩
  · obtain ⟨_, hreturns, _⟩ := hfinalize.top hw.standard
    exact iff_of_false hreturns.not_fails fun h => h.1 hcycle
  · refine ⟨fun hfails => ⟨hcycle, hfinalize.completes hw hlookup hfails⟩, fun ⟨_, hstuck⟩ => ?_⟩
    rcases Work.returns_or_fails (finalize v) w with ⟨v', w', hreturns⟩ | hfails
    · exact absurd hstuck (hfinalize.finalizes.returns hw hlookup hreturns).2.2.1.notStuck
    · exact hfails

/-- A failed finalization keeps the run ready. -/
theorem Solving.stops (h : (finalize v).Stops w w') : Ready m s past w' := by
  rcases (value_cases hbuild hv).2 with ⟨_, rfl⟩ | ⟨_, _, hlookup⟩
  · obtain ⟨_, hreturns, _⟩ := hfinalize.top hw.standard
    exact absurd h.fails hreturns.not_fails
  · exact hfinalize.finalizes.stops hw hlookup h

end Solving

theorem solving_finalize (hbuild : (build m).Returns w₀ s w₁) : Solving m s s.finalize := by
  refine ⟨finalizes_finalizeWithin hbuild s.depth, fun hw hlookup hfails => ?_, fun hw => ?_⟩
  · exact completes_finalizeWithin hbuild s.depth hw hlookup (rank_lt_depth hbuild _) hfails
  · refine ⟨_,
      Work.returns_bind.mpr ⟨(), _, Work.returns_modify.mpr rfl, Work.returns_pure.mpr ⟨rfl, rfl⟩⟩,
      ?_⟩
    exact hw.advances_counts _ _ _ _

/-! ## Visits -/

theorem exists_value (hbuild : (build m).Returns w₀ s w₁) {id : ObjectId} (hid : m.Has id) :
    ∃ v, s.value? id = some v := by
  rcases value?_cases hbuild id with ⟨hmissing, _⟩ | ⟨_, _, hvalue⟩ | ⟨_, _, v, hvalue, _⟩
  · exact absurd hid hmissing
  · exact ⟨_, hvalue⟩
  · exact ⟨v, hvalue⟩

/-- A visit finalizes the value of its object and counts it. -/
theorem returns_visit {id : ObjectId} {v v' : Propagation} (hv : s.value? id = some v) :
    (s.visit id).Returns w v' w' ↔ ∃ w₁, (s.finalize v).Returns w v' w₁ ∧
      w' = { w₁ with objects := w₁.objects + 1, pathValues := w₁.pathValues + v'.size } := by
  unfold visit countObject
  rw [hv]
  simp only [Work.returns_bind, Work.returns_within, Work.returns_modify, Work.returns_pure,
    Option.getD_some]
  constructor
  · rintro ⟨_, w₁, hfinal, _, _, rfl, rfl, rfl⟩
    exact ⟨w₁, hfinal, rfl⟩
  · rintro ⟨w₁, hfinal, rfl⟩
    exact ⟨v', w₁, hfinal, (), _, rfl, rfl, rfl⟩

theorem stops_visit {id : ObjectId} {v : Propagation} (hv : s.value? id = some v) :
    (s.visit id).Stops w w' ↔ (s.finalize v).Stops w w' := by
  unfold visit countObject
  rw [hv, Work.stops_bind, Work.stops_within, Option.getD_some]
  refine or_iff_left ?_
  rintro ⟨_, _, _, hrest⟩
  obtain ⟨_, _, _, hpure⟩ := (Work.fails_bind.mp hrest.fails).resolve_left Work.fails_modify
  exact Work.fails_pure hpure

theorem visit_spec (hbuild : (build m).Returns w₀ s w₁) (hw : Ready m s past w) {id : ObjectId}
    (hid : m.Has id) {v : Propagation} (h : (s.visit id).Returns w v w') :
    Ready m s past w' ∧ Solves m id v := by
  obtain ⟨built, hbuilt⟩ := exists_value hbuild hid
  obtain ⟨w₂, hfinal, rfl⟩ := (returns_visit hbuilt).mp h
  obtain ⟨hw₂, hsolves⟩ := (solving_finalize hbuild).returns hbuild hw hbuilt hfinal
  exact ⟨hw₂.mono (hw₂.standard.advances_counts _ _ _ _), hsolves⟩

/-- Visiting an object fails exactly if the object is stuck and not on a cycle. -/
theorem fails_visit (hbuild : (build m).Returns w₀ s w₁) (hw : Ready m s past w) {id : ObjectId}
    (hid : m.Has id) : (s.visit id).Fails w ↔ ¬ m.OnCycle id ∧ Stuck m id := by
  obtain ⟨built, hbuilt⟩ := exists_value hbuild hid
  rw [← (solving_finalize hbuild).fails_iff hbuild hw hbuilt]
  constructor
  · intro hfails
    obtain ⟨w', hstops⟩ := hfails.exists_stops
    exact ((stops_visit hbuilt).mp hstops).fails
  · intro hfails
    obtain ⟨w', hstops⟩ := hfails.exists_stops
    exact ((stops_visit hbuilt).mpr hstops).fails

/-- **Visiting objects solves them**, and keeps what was solved before. -/
theorem visitAll_spec (hbuild : (build m).Returns w₀ s w₁) (hw : Ready m s past w)
    {ids : List ObjectId} (hids : ∀ id ∈ ids, m.Has id) {before after : Result}
    (hbefore : ∀ id v, before.value? id = some v → Solves m id v)
    (h : (s.visitAll before ids).Returns w after w') :
    ∀ id, id ∈ ids ∨ (before.value? id).isSome → ∃ v, after.value? id = some v ∧ Solves m id v := by
  induction ids generalizing before w with
  | nil =>
    obtain ⟨rfl, rfl⟩ := Work.returns_pure.mp h
    intro id hid
    obtain ⟨v, hv⟩ := Option.isSome_iff_exists.mp (hid.resolve_left List.not_mem_nil)
    exact ⟨v, hv, hbefore id v hv⟩
  | cons id rest ih =>
    obtain ⟨v, w₂, hvisit, hrest⟩ := Work.returns_bind.mp h
    obtain ⟨hw₂, hsolves⟩ := visit_spec hbuild hw (hids id List.mem_cons_self) hvisit
    -- an object that is visited again is solved again
    have hput : ∀ id' v', (before.put id v).value? id' = some v' → Solves m id' v' := by
      intro id' v' hv'
      rw [Result.value?_put] at hv'
      split at hv'
      · rename_i heq
        cases hv'
        exact heq ▸ hsolves
      · exact hbefore id' v' hv'
    intro id' hid'
    refine ih hw₂ (fun i hi => hids i (List.mem_cons_of_mem _ hi)) hput hrest id' ?_
    rw [Result.value?_put]
    rcases hid' with hmem | hsome
    · rcases List.mem_cons.mp hmem with rfl | hmem
      · simp
      · exact .inl hmem
    · right
      split
      · rfl
      · exact hsome

/-- Visiting objects keeps the run ready, whether it returns or fails. -/
theorem ready_of_visitAll (hbuild : (build m).Returns w₀ s w₁) (hw : Ready m s past w)
    {ids : List ObjectId}
    (hids : ∀ id ∈ ids, m.Has id) {before : Result}
    (h : (∃ after, (s.visitAll before ids).Returns w after w') ∨
      (s.visitAll before ids).Stops w w') :
    Ready m s past w' := by
  induction ids generalizing before w with
  | nil =>
    rcases h with ⟨after, hreturns⟩ | hstops
    · obtain ⟨_, rfl⟩ := Work.returns_pure.mp hreturns
      exact hw
    · exact absurd hstops.fails Work.fails_pure
  | cons id rest ih =>
    have hid := hids id List.mem_cons_self
    have hrest := fun i hi => hids i (List.mem_cons_of_mem _ hi)
    rcases h with ⟨after, hreturns⟩ | hstops
    · obtain ⟨v, w₂, hvisit, hreturns⟩ := Work.returns_bind.mp hreturns
      exact ih (visit_spec hbuild hw hid hvisit).1 hrest (.inl ⟨after, hreturns⟩)
    · rcases Work.stops_bind.mp hstops with hvisit | ⟨v, w₂, hvisit, hstops⟩
      · obtain ⟨built, hbuilt⟩ := exists_value hbuild hid
        exact (solving_finalize hbuild).stops hbuild hw hbuilt ((stops_visit hbuilt).mp hvisit)
      · exact ih (visit_spec hbuild hw hid hvisit).1 hrest (.inr hstops)

/-- **Visiting objects fails** exactly if one of them is stuck and not on a cycle. -/
theorem fails_visitAll (hbuild : (build m).Returns w₀ s w₁) (hw : Ready m s past w)
    {ids : List ObjectId} (hids : ∀ id ∈ ids, m.Has id) {before : Result} :
    (s.visitAll before ids).Fails w ↔ ∃ id ∈ ids, ¬ m.OnCycle id ∧ Stuck m id := by
  induction ids generalizing before w with
  | nil => simp [visitAll]
  | cons id rest ih =>
    have hid := hids id List.mem_cons_self
    rw [List.exists_mem_cons_iff]
    refine Work.fails_bind_iff (fails_visit hbuild hw hid) fun v w₂ hvisit => ?_
    exact ih (visit_spec hbuild hw hid hvisit).1 fun i hi => hids i (List.mem_cons_of_mem _ hi)

/-! ## Runs -/

/-- **A run fails** exactly if it is called off before an object, or if some object is stuck and not
on a cycle. -/
theorem fails_run (hbuild : (build m).Returns w₀ s w₁) (hw : Ready m s past w) {canceled : Bool} :
    (s.run canceled).Fails w ↔
      (canceled = true ∧ ∃ id, m.Has id) ∨ ∃ id, m.Has id ∧ ¬ m.OnCycle id ∧ Stuck m id := by
  have hids : s.ids.isEmpty = false ↔ ∃ id, m.Has id := by
    rw [← Bool.not_eq_true, List.isEmpty_iff, List.eq_nil_iff_forall_not_mem]
    simp [mem_ids hbuild]
  have hvisits : (s.visitAll .empty s.ids).Fails w ↔
      ∃ id, m.Has id ∧ ¬ m.OnCycle id ∧ Stuck m id := by
    rw [fails_visitAll hbuild hw fun id hid => (mem_ids hbuild).mp hid]
    simp only [mem_ids hbuild]
  rw [← hids, ← hvisits]
  unfold run
  by_cases hcanceled : (canceled && !s.ids.isEmpty) = true
  · rw [if_pos hcanceled]
    simp only [Bool.and_eq_true, Bool.not_eq_true'] at hcanceled
    exact iff_of_true Work.fails_throw (.inl hcanceled)
  · rw [if_neg hcanceled]
    simp only [Bool.and_eq_true, Bool.not_eq_true'] at hcanceled
    exact (or_iff_right hcanceled).symm

/-- A run that returns has visited all objects. -/
theorem visitAll_of_run {canceled : Bool} {r : Result} (h : (s.run canceled).Returns w r w') :
    (s.visitAll .empty s.ids).Returns w r w' := by
  unfold run at h
  split at h
  · exact absurd h Work.returns_throw
  · exact h

/-- **A run that is not called off returns**, if every reference is folded in by a known action. -/
theorem exists_returns_of_ready (hbuild : (build m).Returns w₀ s w₁) (hw : Ready m s past w)
    (hm : m.Foldable) :
    ∃ result w', (s.run false).Returns w result w' := by
  refine (Work.returns_or_fails _ _).resolve_right fun hfails => ?_
  rcases (fails_run hbuild hw).mp hfails with ⟨hcanceled, _⟩ | ⟨_, _, _, hstuck⟩
  · cases hcanceled
  · exact not_stuck_of_foldable hm hstuck

/-- The first run of a solver returns, if every reference is folded in by a known action. -/
theorem exists_returns_run (hw : w₀.Standard) (hbuild : (build m).Returns w₀ s w₁)
    (hm : m.Foldable) :
    ∃ result w₂, (s.run false).Returns w₁ result w₂ :=
  exists_returns_of_ready hbuild (ready_of_build hw hbuild) hm

/-- **Solving equals direct execution.**  In a workspace with the default factories and analyses,
whatever it holds otherwise, a run that returns gives every object of the model a value.  The value
is top exactly for the objects on reference cycles; the paths of any other value, read as maps from
the tracked fields to their members, are exactly the final paths of direct execution.  The model
need not be valid: of several objects with one name the last counts. -/
theorem run_eq_direct {w₂ : Workspace} {result : Result} {canceled : Bool} (hw : w₀.Standard)
    (hbuild : (build m).Returns w₀ s w₁) (hrun : (s.run canceled).Returns w₁ result w₂) :
    ∀ o ∈ m.objects, ∃ v, result.value? o.id = some v ∧ (v.isTop = true ↔ m.OnCycle o.id) ∧
      (v.isTop = false → {b | ∃ p ∈ v.toList, p.reading = b} = {b | Direct.Final m o.id b}) := by
  have hvisit : (s.visitAll .empty s.ids).Returns w₁ result w₂ := by
    unfold run at hrun
    split at hrun
    · exact absurd hrun Work.returns_throw
    · exact hrun
  intro o ho
  obtain ⟨v, hv, hsolves⟩ := visitAll_spec hbuild (ready_of_build hw hbuild)
    (fun _ hid => (mem_ids hbuild).mp hid) (fun id v hv => by cases hv) hvisit o.id
    (.inl ((mem_ids hbuild).mpr ⟨o, ho, rfl⟩))
  refine ⟨v, hv, ?_⟩
  rcases hsolves with ⟨hcycle, rfl⟩ | ⟨hcycle, hfinal⟩
  · exact ⟨by simp [Propagation.isTop, hcycle], fun hnot => by cases hnot⟩
  · exact ⟨by simp [hfinal.notTop, hcycle], fun _ => Set.ext hfinal.readings⟩

/-- A model in which an object removes what another one holds.  That one has two paths, of which the
second does not track the field. -/
def removal : Model :=
  let literal (action : String) (values : List String) : Model.Op := ⟨action, values, none⟩
  let refer : Model.Op := ⟨"compose", [], some ⟨"source", "exit", "", "remove"⟩⟩
  let path (field : String) (ops : List Model.Op) : Model.Path := ⟨[⟨field, "", ops⟩]⟩
  ⟨"v1", [⟨"source", "exit",
    [path "kept" [literal "add" ["b"]], path "other" [literal "add" ["c"]]]⟩,
    ⟨"user", "exit",
      [path "kept" [literal "add" ["z"], literal "clear" [], literal "add" ["a", "b"], refer,
      literal "add" ["d"]]]⟩]⟩

/-- A valid model on which building and running succeed: the run finds the two final paths of direct
execution, one where the member was removed and one where the field is not tracked. -/
theorem run_eq_direct_removal : removal.validate = .ok () ∧ ∃ s w₁ result w₂ v,
    (build removal).Returns (Workspace.standard true) s w₁ ∧ (s.run false).Returns w₁ result w₂ ∧
    result.value? ⟨"user", "exit"⟩ = some v ∧ v.isTop = false ∧
    (∃ p ∈ v.toList, p.reading "kept" = some {.string "a", .string "d"}) ∧
    ∃ p ∈ v.toList, p.reading "kept" = none := by
  have hw := Workspace.standard_standard
  obtain ⟨s, w₁, hbuild⟩ := (follows_build hw removal).exists_returns (by decide)
  obtain ⟨result, w₂, hrun⟩ := exists_returns_run hw hbuild (by unfold Model.Foldable; decide)
  have huser : ¬ removal.OnCycle ⟨"user", "exit"⟩ := by
    intro hcycle
    obtain ⟨_, id, hlast⟩ := hcycle.references
    have hnone : ∀ entry ∈ removal.references, entry.2 ≠ ⟨"user", "exit"⟩ := by decide
    exact hnone _ hlast rfl
  have hsource : ¬ removal.OnCycle ⟨"source", "exit"⟩ := by
    intro hcycle
    obtain ⟨⟨id, hfirst⟩, _⟩ := hcycle.references
    have hnone : ∀ entry ∈ removal.references, entry.1 ≠ ⟨"source", "exit"⟩ := by decide
    exact hnone _ hfirst rfl
  obtain ⟨v, hv, htop, hreadings⟩ :=
    run_eq_direct hw hbuild hrun _ (List.mem_cons_of_mem _ List.mem_cons_self)
  have hnotTop : v.isTop = false := by simpa using mt htop.mp huser
  -- whatever final path of the source is chosen, what it holds is removed before the last operation
  have hread : ∀ {b effect}, Direct.Final removal ⟨"source", "exit"⟩ b →
      Direct.Folds "remove" (b "kept") effect → ∃ p ∈ v.toList, p.reading "kept" =
        Effect.on (some fun s => s ∪ {x | x ∈ [.string "d"]})
          (effect.on (some (∅ ∪ {x | x ∈ [.string "a", .string "b"]}))) := by
    intro b effect hb hfolds
    have hfinal : Direct.Final removal ⟨"user", "exit"⟩ _ := Direct.final_iff.mpr ⟨_, rfl, _,
      List.mem_cons_self,
      Direct.traces_singleton (.step (.literal rfl rfl rfl) (.step (.literal rfl rfl rfl)
        (.step (.chosen rfl rfl hsource hb hfolds) (.step (.literal rfl rfl rfl) .done))))⟩
    obtain ⟨p, hp, hreading⟩ := (Set.ext_iff.mp (hreadings hnotTop) _).mpr hfinal
    exact ⟨p, hp, congrFun hreading "kept"⟩
  refine ⟨by decide, s, w₁, result, w₂, v, hbuild, hrun, hv, hnotTop, ?_, ?_⟩
  · have hheld : (some (∅ ∪ {x | x ∈ [.string "b"]}) : Option (Set Element))
        = some {x | x ∈ [.string "b"]} := by simp
    have hb : Direct.Final removal ⟨"source", "exit"⟩
        (Function.update (fun _ => none) "kept" (some {x | x ∈ [.string "b"]})) :=
      Direct.final_iff.mpr ⟨_, rfl, _, List.mem_cons_self,
        Direct.traces_singleton (.step (.literal rfl rfl rfl) (hheld ▸ .done))⟩
    have hfolds :
        Direct.Folds "remove" (some {x | x ∈ [.string "b"]}) (some fun s => s \ {.string "b"}) :=
      .members (by simp) rfl
    obtain ⟨p, hp, hreading⟩ := hread hb hfolds
    refine ⟨p, hp, hreading.trans (congrArg some (Set.ext fun x => ?_))⟩
    have hne : Element.string "a" ≠ .string "b" := by decide
    simp only [List.mem_cons, List.not_mem_nil, or_false, Set.empty_union,
      Set.ofPred_eq_eq_singleton,
      Set.union_singleton, Set.mem_insert_iff, Set.mem_sdiff, Set.mem_ofPred_eq,
      Set.mem_singleton_iff]
    grind
  · have hb : Direct.Final removal ⟨"source", "exit"⟩ _ :=
      Direct.final_iff.mpr ⟨_, rfl, _, List.mem_cons_of_mem _ List.mem_cons_self,
        Direct.traces_singleton (.step (.literal rfl rfl rfl) .done)⟩
    exact hread hb .untracked

end Solver

end FieldFlow
