import FieldFlow.Proofs.Runs
import FieldFlow.Comparison

/-!
# Results that agree

Two values agree if both are top, or neither is and they hold paths with the same keys in the same
order.  Paths with the same key show the same contents to a reader, so values that agree are listed
alike and compare as equal.

What a run gives for an object is settled by the object being on a cycle and by its final paths.
Two runs therefore agree if they visit the same objects, whatever the order, and if these two facts
are the same for every object of the one and the other.

Main definitions: `Propagation.SameKeys`, `Result.Matches`.
Main results: `Propagation.sameKeys_of_views`, `Result.Matches.listing_eq`,
`Solver.matches_of_visitAll`.
-/

namespace FieldFlow

/-! ## Paths -/

namespace PathValue

theorem text_eq_of_key {p q : PathValue} (h : p.key = q.key) : p.text = q.text := by
  have htexts : ∀ p : PathValue,
      (p.fields.toList.map fun e => e.1 ++ "=" ++ (e.2.map Value.text).getD "null")
        = p.contents.map fun e => e.1 ++ "=" ++ (e.2.map Value.text).getD "null" := by
    intro p
    rw [contents, List.map_map]
    apply List.map_congr_left
    rintro ⟨name, v⟩ _
    cases v <;> rfl
  unfold text
  rw [htexts, htexts, key_eq_iff.mp h]

end PathValue

/-! ## Values -/

namespace Propagation

variable {v u : Propagation}

/-- Both are top, or neither is and they hold paths with the same keys in the same order. -/
structure SameKeys (v u : Propagation) : Prop where
  isTop : v.isTop = u.isTop
  keys : v.toList.map PathValue.key = u.toList.map PathValue.key

theorem pairwise_keys (v : Propagation) : (v.toList.map PathValue.key).Pairwise (· < ·) := by
  rw [List.pairwise_map]
  cases v with
  | top => exact .nil
  | paths serial members => exact members.pairwise_toList

/-- A value that holds the paths of another one has their keys. -/
theorem keys_subset_of_views (h : ∀ b, (∃ p ∈ v.toList, p.view = b) → ∃ p ∈ u.toList, p.view = b) :
    v.toList.map PathValue.key ⊆ u.toList.map PathValue.key := by
  intro k hk
  obtain ⟨p, hp, rfl⟩ := List.mem_map.mp hk
  obtain ⟨q, hq, hview⟩ := h p.view ⟨p, hp, rfl⟩
  exact List.mem_map.mpr ⟨q, hq, PathValue.key_eq_of_view hview⟩

/-- **Values that hold the same paths have the same keys**, in the same order. -/
theorem sameKeys_of_views (htop : v.isTop = u.isTop)
    (h : ∀ b, (∃ p ∈ v.toList, p.view = b) ↔ ∃ p ∈ u.toList, p.view = b) : v.SameKeys u := by
  refine ⟨htop, ?_⟩
  have hperm :=
    (List.perm_ext_iff_of_nodup v.pairwise_keys.nodup u.pairwise_keys.nodup).mpr fun k =>
      ⟨fun hk => keys_subset_of_views (fun b => (h b).mp) hk,
        fun hk => keys_subset_of_views (fun b => (h b).mpr) hk⟩
  exact hperm.eq_of_pairwise (fun a b _ _ hab hba => absurd hba (String.lt_asymm hab))
    v.pairwise_keys
    u.pairwise_keys

/-- **Values compare as equal** exactly if they agree. -/
theorem equal_iff_sameKeys : v.equal u = true ↔ v.SameKeys u := by
  cases v with
  | top =>
    cases u with
    | top => exact iff_of_true rfl ⟨rfl, rfl⟩
    | paths => exact iff_of_false (fun h => nomatch h) fun h => nomatch h.isTop
  | paths serial members =>
    cases u with
    | top => exact iff_of_false (fun h => nomatch h) fun h => nomatch h.isTop
    | paths serial' members' =>
      rw [equal, decide_eq_true_eq, Keyed.keys_eq, Keyed.keys_eq]
      exact ⟨fun h => ⟨rfl, h⟩, SameKeys.keys⟩

namespace SameKeys

/-- The paths of values that agree are shown alike. -/
theorem texts_eq (h : v.SameKeys u) :
    v.toList.map PathValue.text = u.toList.map PathValue.text := by
  have htexts : ∀ ps qs : List PathValue, ps.map PathValue.key = qs.map PathValue.key →
      ps.map PathValue.text = qs.map PathValue.text := by
    intro ps
    induction ps with
    | nil =>
      intro qs hkeys
      rw [List.map_eq_nil_iff.mp hkeys.symm]
    | cons p rest ih =>
      intro qs hkeys
      cases qs with
      | nil => cases hkeys
      | cons q others =>
        obtain ⟨hkey, hrest⟩ := List.cons.inj hkeys
        rw [List.map_cons, List.map_cons, PathValue.text_eq_of_key hkey, ih others hrest]
  exact htexts _ _ h.keys

end SameKeys

end Propagation

/-! ## Results -/

namespace Result

variable {r r' : Result}

/-- The results list the same objects, with values that agree. -/
structure Matches (r r' : Result) : Prop where
  ids : r.ids = r'.ids
  values : ∀ id, Option.Rel Propagation.SameKeys (r.value? id) (r'.value? id)

/-- The result has a value exactly for the objects that it lists. -/
theorem mem_keys_iff {id : ObjectId} : id ∈ r.entries.map Prod.fst ↔ ∃ v, r.value? id = some v := by
  rw [← Option.isSome_iff_exists, value?, List.lookup_isSome_iff, List.mem_map]
  simp only [beq_iff_eq, @eq_comm _ id]

/-- Results that list their objects once have the same objects if they have values for the same. -/
theorem ids_eq (hr : (r.entries.map Prod.fst).Nodup) (hr' : (r'.entries.map Prod.fst).Nodup)
    (h : ∀ id, (∃ v, r.value? id = some v) ↔ ∃ v, r'.value? id = some v) : r.ids = r'.ids := by
  have hperm : (r.entries.map Prod.fst).Perm (r'.entries.map Prod.fst) :=
    (List.perm_ext_iff_of_nodup hr hr').mpr fun id =>
      mem_keys_iff.trans ((h id).trans mem_keys_iff.symm)
  unfold ids
  refine List.Perm.eq_of_pairwise (fun a b _ _ => ObjectId.le_antisymm a b)
    (List.pairwise_mergeSort ObjectId.le_trans ObjectId.le_total _)
    (List.pairwise_mergeSort ObjectId.le_trans ObjectId.le_total _) ?_
  exact (List.mergeSort_perm _ _).trans (hperm.trans (List.mergeSort_perm _ _).symm)

/-- Objects are listed once, also when a value is put again. -/
theorem nodup_put (h : (r.entries.map Prod.fst).Nodup) (id : ObjectId) (v : Propagation) :
    ((r.put id v).entries.map Prod.fst).Nodup := by
  have hentries : ∀ entries : List (ObjectId × Propagation), (entries.map Prod.fst).Nodup →
      ((putEntry id v entries).map Prod.fst).Nodup ∧
        ∀ id', id' ∈ (putEntry id v entries).map Prod.fst → id' = id ∨
          id' ∈ entries.map Prod.fst := by
    intro entries
    induction entries with
    | nil => simp [putEntry]
    | cons entry rest ih =>
      intro hnodup
      obtain ⟨hentry, hrest⟩ := List.nodup_cons.mp hnodup
      obtain ⟨hput, hmem⟩ := ih hrest
      rw [putEntry]
      by_cases hid : entry.1 = id
      · rw [if_pos hid]
        refine ⟨List.nodup_cons.mpr ⟨hid ▸ hentry, hrest⟩, fun id' hid' => ?_⟩
        exact (List.mem_cons.mp hid').imp_right (List.mem_cons_of_mem _)
      · rw [if_neg hid]
        refine ⟨List.nodup_cons.mpr ⟨fun hin => ?_, hput⟩, fun id' hid' => ?_⟩
        · exact (hmem _ hin).elim hid hentry
        · rcases List.mem_cons.mp hid' with rfl | hid'
          · exact .inr List.mem_cons_self
          · exact (hmem id' hid').imp_right (List.mem_cons_of_mem _)
  exact (hentries r.entries h).1

namespace Matches

/-- An object is listed alike in results that agree. -/
theorem entryListing_eq (h : r.Matches r') (id : ObjectId) :
    r.entryListing id = r'.entryListing id := by
  unfold entryListing
  have hvalues := h.values id
  revert hvalues
  generalize r.value? id = side
  generalize r'.value? id = side'
  intro hvalues
  cases hvalues with
  | none => rfl
  | @some v u hsame =>
    have htexts := hsame.texts_eq
    have htop := hsame.isTop
    cases v with
    | top =>
      cases u with
      | top => rfl
      | paths => cases htop
    | paths serial members =>
      cases u with
      | top => cases htop
      | paths serial' members' =>
        have hlines := congrArg (List.map fun text => "  \x7b" ++ text ++ "\x7d\n") htexts
        simp only [List.map_map] at hlines
        exact congrArg (fun lines => id.text ++ ":\n" ++ String.join lines) hlines

/-- **Results that agree are listed alike.** -/
theorem listing_eq (h : r.Matches r') : r.listing = r'.listing := by
  unfold listing
  rw [h.ids, funext h.entryListing_eq]

/-- **Comparing results that agree reports no difference**, and all their objects as the same. -/
theorem compare_eq (h : r.Matches r') : (Report.compare r r').differences = [] ∧
    ∀ id, id ∈ (Report.compare r r').sames ↔ id ∈ r.ids := by
  have hagree : ∀ id ∈ r.ids, Report.agree r r' id = true := by
    intro id hid
    obtain ⟨v, hv⟩ := mem_keys_iff.mp (List.mem_mergeSort.mp hid)
    have hvalues := h.values id
    rw [hv] at hvalues
    unfold Report.agree
    rw [hv]
    cases hu : r'.value? id with
    | none =>
      rw [hu] at hvalues
      cases hvalues
    | some u =>
      rw [hu] at hvalues
      cases hvalues with
      | some hsame => exact Propagation.equal_iff_sameKeys.mpr hsame
  have hall : ∀ id, id ∈ Report.allIds r r' ↔ id ∈ r.ids := by
    intro id
    rw [Report.allIds, Ordered.mem_distinctBy_id, List.mem_append, ← h.ids, or_self]
  constructor
  · simp only [Report.compare, Report.ofIds, List.map_eq_nil_iff, List.filter_eq_nil_iff,
      List.mem_mergeSort, hall]
    intro id hid
    simp [hagree id hid]
  · intro id
    simp only [Report.compare, Report.ofIds, List.mem_filter, List.mem_mergeSort, hall]
    exact and_iff_left_of_imp (hagree id)

end Matches

end Result

namespace Solver

variable {m m' : Model} {s s' : Solver} {past past' : List (Nat × Propagation)}
  {w w' w₀ w₁ : Workspace}

/-- What an object comes to is the same for the first model as for the second. -/
structure Agrees (m m' : Model) (id : ObjectId) : Prop where
  cycle : m.OnCycle id ↔ m'.OnCycle id
  stuck : Stuck m id ↔ Stuck m' id
  views : ∀ b, FinalView m id b ↔ FinalView m' id b

theorem Agrees.refl (m : Model) (id : ObjectId) : Agrees m m id := ⟨.rfl, .rfl, fun _ => .rfl⟩

/-- **What runs give for an object** agrees, if the object comes to the same. -/
theorem Solves.sameKeys {id : ObjectId} {v u : Propagation} (hv : Solves m id v)
    (hu : Solves m' id u) (h : Agrees m m' id) : v.SameKeys u := by
  rcases hv with ⟨hcycle, rfl⟩ | ⟨hcycle, hfinal⟩
  · rcases hu with ⟨_, rfl⟩ | ⟨hnot, _⟩
    · exact ⟨rfl, rfl⟩
    · exact absurd (h.cycle.mp hcycle) hnot
  · rcases hu with ⟨hyes, _⟩ | ⟨_, hfinal'⟩
    · exact absurd (h.cycle.mpr hyes) hcycle
    · refine Propagation.sameKeys_of_views (hfinal.notTop.trans hfinal'.notTop.symm) fun b => ?_
      rw [hfinal.views, hfinal'.views, h.views]

/-! ## Visits -/

/-- Visiting objects gives values to them and to no others, and lists every object once. -/
theorem visitAll_keys {ids : List ObjectId} {before after : Result}
    (hnodup : (before.entries.map Prod.fst).Nodup)
    (h : (s.visitAll before ids).Returns w after w') :
    (after.entries.map Prod.fst).Nodup ∧
      ∀ id, (∃ v, after.value? id = some v) ↔ id ∈ ids ∨ ∃ v, before.value? id = some v := by
  induction ids generalizing before w with
  | nil =>
    obtain ⟨rfl, rfl⟩ := Work.returns_pure.mp h
    exact ⟨hnodup, by simp⟩
  | cons id rest ih =>
    obtain ⟨v, w₂, _, hrest⟩ := Work.returns_bind.mp h
    obtain ⟨hafter, hvalues⟩ := ih (Result.nodup_put hnodup id v) hrest
    refine ⟨hafter, fun id' => ?_⟩
    rw [hvalues, Result.value?_put, List.mem_cons]
    by_cases hid : id' = id
    · simp [hid]
    · simp [hid]

/-- **Visits of the same objects give results that agree**, in whatever order they are made, if the
objects come to the same. -/
theorem matches_of_visitAll (hbuild : (build m).Returns w₀ s w₁) (hw : Ready m s past w)
    {w₀' w₁' u u' : Workspace} (hbuild' : (build m').Returns w₀' s' w₁') (hu : Ready m' s' past' u)
    {ids ids' : List ObjectId} (hids : ∀ id, id ∈ ids ↔ id ∈ ids')
    (hhas : ∀ id ∈ ids, m.Has id ∧ m'.Has id) (hagrees : ∀ id ∈ ids, Agrees m m' id) {r r' : Result}
    (h : (s.visitAll .empty ids).Returns w r w') (h' : (s'.visitAll .empty ids').Returns u r' u') :
    r.Matches r' := by
  have hempty : ∀ id v, Result.empty.value? id = some v → False := fun id v hv => by cases hv
  obtain ⟨hnodup, hvalues⟩ := visitAll_keys (by simp [Result.empty]) h
  obtain ⟨hnodup', hvalues'⟩ := visitAll_keys (by simp [Result.empty]) h'
  have hsame : ∀ id, (∃ v, r.value? id = some v) ↔ ∃ v, r'.value? id = some v := by
    intro id
    rw [hvalues, hvalues', hids]
  refine ⟨Result.ids_eq hnodup hnodup' hsame, fun id => ?_⟩
  by_cases hid : id ∈ ids
  · obtain ⟨v, hv, hsolves⟩ := visitAll_spec hbuild hw (fun i hi => (hhas i hi).1)
      (fun i v hv => (hempty i v hv).elim) h id (.inl hid)
    obtain ⟨v', hv', hsolves'⟩ :=
      visitAll_spec hbuild' hu (fun i hi => (hhas i ((hids i).mpr hi)).2)
        (fun i v hv => (hempty i v hv).elim) h' id (.inl ((hids id).mp hid))
    rw [hv, hv']
    exact .some (hsolves.sameKeys hsolves' (hagrees id hid))
  · have hnot : ¬ ∃ v, r.value? id = some v := by
      rw [hvalues]
      rintro (hmem | ⟨v, hv⟩)
      · exact hid hmem
      · exact hempty id v hv
    have hnone : r.value? id = none :=
      Option.eq_none_iff_forall_ne_some.mpr fun v hv => hnot ⟨v, hv⟩
    have hnone' : r'.value? id = none :=
      Option.eq_none_iff_forall_ne_some.mpr fun v hv => hnot ((hsame id).mpr ⟨v, hv⟩)
    rw [hnone, hnone']
    exact .none

end Solver

end FieldFlow
