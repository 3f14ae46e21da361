import FieldFlow.Proofs.Accounting
import FieldFlow.Proofs.Semilattice

/-!
# Reports on two results

Two results are compared on an enumeration of their objects, which is put into the order of the
printed identifiers. Whatever the enumeration is, each object of either result is reported once, as
the same or with its two sides.  Which of these it is depends on what the two values hold and not on
the pools that they come from.

Identifiers of different objects may be printed alike.  Nothing settles the order of such objects,
so two enumerations of the same objects may give different reports.  They do exactly if two of these
objects are reported on the same side.

Main definitions: `Report.Enumerates`, `Report.IsReport`, `Report.IsFaithful`.
Main results: `Report.IsReport.faithful`, `Report.compare_partitions`, `Report.determined_iff`.
-/

namespace FieldFlow

/-- The difference with its sides exchanged. -/
def Difference.swap (d : Difference) : Difference := ⟨d.id, d.other, d.base⟩

namespace Report

variable {base other : Result} {ids ids' : List ObjectId} {r r' : Report} {id : ObjectId}

/-- The list has every object of either result, each once. -/
structure Enumerates (base other : Result) (ids : List ObjectId) : Prop where
  nodup : ids.Nodup
  mem : ∀ id, id ∈ ids ↔ id ∈ base.ids ∨ id ∈ other.ids

/-- A report on two results, with their objects enumerated in whatever order. -/
def IsReport (base other : Result) (r : Report) : Prop :=
  ∃ ids, Enumerates base other ids ∧ r = ofIds base other ids

/-- The report has every object of either result once and nothing else.  An object is the same if
both results have it and both values are top, or neither is and their paths hold the same; otherwise
each side is what its result has.  Both lists are in the order of the printed identifiers. -/
structure IsFaithful (base other : Result) (r : Report) : Prop where
  once : ∀ id, (r.sames ++ r.differences.map Difference.id).count id
    = if id ∈ base.ids ∨ id ∈ other.ids then 1 else 0
  same : ∀ id, id ∈ r.sames ↔ ∃ v w, base.value? id = some v ∧ other.value? id = some w ∧
    ((v.isTop = true ∧ w.isTop = true) ∨
      (v.isTop = false ∧ w.isTop = false ∧ viewsOf v.toList = viewsOf w.toList))
  sides : ∀ d ∈ r.differences, d.base = base.value? d.id ∧ d.other = other.value? d.id
  missing : ∀ d ∈ r.differences, (d.base = none ↔ d.id ∉ base.ids) ∧
    (d.other = none ↔ d.id ∉ other.ids)
  samesOrdered : r.sames.Pairwise fun i j => i.text ≤ j.text
  differencesOrdered : r.differences.Pairwise fun d e => d.id.text ≤ e.id.text

/-! ## Enumerations -/

/-- The objects that are compared are an enumeration. -/
theorem enumerates_allIds (base other : Result) : Enumerates base other (allIds base other) := by
  constructor
  · refine (Ordered.pairwise_distinctBy ObjectId.le_trans ObjectId.le_total
      ObjectId.le_antisymm _).imp ?_
    rintro i j ⟨_, hne⟩ rfl
    exact hne rfl
  · intro id
    rw [allIds, Ordered.mem_distinctBy_id, List.mem_append]

theorem isReport_compare (base other : Result) : IsReport base other (compare base other) :=
  ⟨_, enumerates_allIds base other, rfl⟩

namespace Enumerates

/-- Two enumerations differ in their order only. -/
theorem perm (h : Enumerates base other ids) (h' : Enumerates base other ids') : ids.Perm ids' :=
  (List.perm_ext_iff_of_nodup h.nodup h'.nodup).mpr fun id => (h.mem id).trans (h'.mem id).symm

/-- An enumeration for two results is one for the results exchanged. -/
theorem symm (h : Enumerates base other ids) : Enumerates other base ids :=
  ⟨h.nodup, fun id => (h.mem id).trans or_comm⟩

end Enumerates

/-! ## What a report says -/

/-- The objects in the order of their printed identifiers. -/
def arranged (ids : List ObjectId) : List ObjectId := ids.mergeSort fun i j => i.text ≤ j.text

theorem arranged_perm (ids : List ObjectId) : (arranged ids).Perm ids := List.mergeSort_perm ids _

/-- Two enumerations are arranged to the same objects, although not always in the same order. -/
theorem Enumerates.arranged_perm (h : Enumerates base other ids) (h' : Enumerates base other ids') :
    (arranged ids).Perm (arranged ids') :=
  (Report.arranged_perm ids).trans ((h.perm h').trans (Report.arranged_perm ids').symm)

/-- The order of the printed identifiers is transitive. -/
theorem text_trans (i j k : ObjectId) (hij : decide (i.text ≤ j.text) = true)
    (hjk : decide (j.text ≤ k.text) = true) :
    decide (i.text ≤ k.text) = true :=
  decide_eq_true (String.le_trans (of_decide_eq_true hij) (of_decide_eq_true hjk))

/-- Of two printed identifiers one precedes the other. -/
theorem text_total (i j : ObjectId) :
    (decide (i.text ≤ j.text) || decide (j.text ≤ i.text)) = true := by
  simpa using String.le_total i.text j.text

theorem pairwise_arranged (ids : List ObjectId) :
    (arranged ids).Pairwise fun i j => i.text ≤ j.text :=
  (List.pairwise_mergeSort text_trans text_total ids).imp of_decide_eq_true

theorem sames_ofIds (base other : Result) (ids : List ObjectId) :
    (ofIds base other ids).sames = (arranged ids).filter (agree base other) := rfl

theorem differences_ofIds (base other : Result) (ids : List ObjectId) :
    (ofIds base other ids).differences
      = ((arranged ids).filter fun id => !agree base other id).map (difference base other) := rfl

/-- A difference names the object that it is about. -/
theorem map_id_differences (base other : Result) (ids : List ObjectId) :
    (ofIds base other ids).differences.map Difference.id =
      (arranged ids).filter fun id => !agree base other id := by
  rw [differences_ofIds, List.map_map]
  exact List.map_id _

/-- **Two results agree on an object** if both have it and both values are top or hold the same. -/
theorem agree_iff :
    agree base other id = true ↔ ∃ v w, base.value? id = some v ∧ other.value? id = some w ∧
    ((v.isTop = true ∧ w.isTop = true) ∨
      (v.isTop = false ∧ w.isTop = false ∧ viewsOf v.toList = viewsOf w.toList)) := by
  unfold agree
  cases base.value? id with
  | none => simp
  | some v =>
    cases other.value? id with
    | none => simp
    | some w => simp [Propagation.equal_iff_samePaths, samePaths_iff]

/-- Agreement does not depend on which result comes first. -/
theorem agree_comm (base other : Result) (id : ObjectId) :
    agree base other id = agree other base id := by
  unfold agree
  cases base.value? id with
  | none => cases other.value? id <;> rfl
  | some v =>
    cases other.value? id with
    | none => rfl
    | some w =>
      have hsymm := fun a b : Propagation => Propagation.equivalence_equal.symm (x := a) (y := b)
      exact Bool.eq_iff_iff.mpr ⟨hsymm v w, hsymm w v⟩

/-- A result lacks the value of an object exactly if it does not list the object. -/
theorem value?_eq_none : base.value? id = none ↔ id ∉ base.ids := by
  rw [Result.ids, List.mem_mergeSort, Result.mem_keys_iff,
    Option.eq_none_iff_forall_ne_some, not_exists]

/-- A result agrees with itself on its objects. -/
theorem agree_self (h : id ∈ base.ids) : agree base base id = true := by
  obtain ⟨v, hv⟩ := Option.ne_none_iff_exists'.mp fun hnone => value?_eq_none.mp hnone h
  unfold agree
  rw [hv]
  exact Propagation.equivalence_equal.refl v

/-- **Every report is faithful.** -/
theorem IsReport.faithful (h : IsReport base other r) : IsFaithful base other r := by
  obtain ⟨ids, hids, rfl⟩ := h
  have hordered := pairwise_arranged ids
  constructor
  · intro id
    rw [sames_ofIds, map_id_differences, (List.filter_append_perm _ _).count_eq,
      (arranged_perm ids).count_eq, hids.nodup.count]
    simp only [hids.mem]
  · intro id
    rw [← agree_iff, sames_ofIds, List.mem_filter, and_iff_right_iff_imp,
      (arranged_perm ids).mem_iff, hids.mem]
    intro hagree
    obtain ⟨v, _, hv, _⟩ := agree_iff.mp hagree
    exact .inl (not_not.mp (mt value?_eq_none.mpr (by simp [hv])))
  · intro d hd
    obtain ⟨id, _, rfl⟩ := List.mem_map.mp hd
    exact ⟨rfl, rfl⟩
  · intro d hd
    obtain ⟨id, _, rfl⟩ := List.mem_map.mp hd
    exact ⟨value?_eq_none, value?_eq_none⟩
  · exact hordered.filter _
  · rw [differences_ofIds, List.pairwise_map]
    exact hordered.filter _

/-- Objects that are in order already keep it when others are arranged with them. -/
theorem filter_arranged {p : ObjectId → Bool}
    (h : (ids.filter p).Pairwise fun i j => i.text ≤ j.text) :
    (arranged ids).filter p = ids.filter p := by
  have hsublist : (ids.filter p).Sublist (arranged ids) :=
    List.sublist_mergeSort text_trans text_total (h.imp decide_eq_true) List.filter_sublist
  have hfilter := hsublist.filter p
  rw [List.filter_filter, funext fun id => Bool.and_self (p id)] at hfilter
  exact (hfilter.eq_of_length ((arranged_perm ids).filter p).length_eq.symm).symm

namespace IsFaithful

/-- The results agree on the objects that are the same. -/
theorem agrees (h : IsFaithful base other r) : ∀ id ∈ r.sames, agree base other id = true :=
  fun id hid => agree_iff.mpr ((h.same id).mp hid)

/-- The results do not agree on the objects of the differences. -/
theorem disagrees (h : IsFaithful base other r) :
    ∀ id ∈ r.differences.map Difference.id, agree base other id = false := by
  intro id hdiffers
  by_contra hagree
  have hsame : id ∈ r.sames := (h.same id).mpr (agree_iff.mp (Bool.not_eq_false _ ▸ hagree))
  have honce := h.once id
  rw [List.count_append] at honce
  have hfirst := List.count_pos_iff.mpr hsame
  have hsecond := List.count_pos_iff.mpr hdiffers
  split at honce <;> omega

/-- The objects of a faithful report are an enumeration. -/
theorem enumerates (h : IsFaithful base other r) :
    Enumerates base other (r.sames ++ r.differences.map Difference.id) := by
  refine ⟨List.nodup_iff_count_le_one.mpr fun id => ?_, fun id => ?_⟩
  · rw [h.once]
    split <;> omega
  · rw [← List.count_pos_iff, h.once]
    split <;> simp_all

/-- **Every faithful report is one**: whatever way of sorting brings the objects into order, an
enumeration gives the same. -/
theorem isReport (h : IsFaithful base other r) : IsReport base other r := by
  have hfirst : (r.sames ++ r.differences.map Difference.id).filter (agree base other) =
      r.sames := by
    rw [List.filter_append, List.filter_eq_self.mpr h.agrees,
      List.filter_eq_nil_iff.mpr (by simpa using h.disagrees), List.append_nil]
  have hsecond :
      (r.sames ++ r.differences.map Difference.id).filter (fun id => !agree base other id)
      = r.differences.map Difference.id := by
    rw [List.filter_append, List.filter_eq_nil_iff.mpr (by simpa using h.agrees),
      List.filter_eq_self.mpr (by simpa using h.disagrees), List.nil_append]
  have hsides : (r.differences.map Difference.id).map (difference base other) = r.differences := by
    rw [List.map_map]
    refine (List.map_congr_left fun d hd => ?_).trans (List.map_id _)
    obtain ⟨hbase, hother⟩ := h.sides d hd
    exact (Difference.mk.injEq ..).mpr ⟨rfl, hbase.symm, hother.symm⟩
  have hordered : (r.differences.map Difference.id).Pairwise fun i j => i.text ≤ j.text :=
    List.pairwise_map.mpr h.differencesOrdered
  have hsames : (ofIds base other (r.sames ++ r.differences.map Difference.id)).sames =
      r.sames := by
    rw [sames_ofIds, filter_arranged (hfirst.symm ▸ h.samesOrdered), hfirst]
  have hdifferences : (ofIds base other (r.sames ++ r.differences.map Difference.id)).differences =
      r.differences := by
    rw [differences_ofIds, filter_arranged (hsecond.symm ▸ hordered), hsecond, hsides]
  exact ⟨_, h.enumerates, (Report.mk.injEq ..).mpr ⟨hsames.symm, hdifferences.symm⟩⟩

end IsFaithful

/-- Comparing a result with itself finds no difference. -/
theorem IsReport.differences_self (h : IsReport base base r) : r.differences = [] := by
  obtain ⟨ids, hids, rfl⟩ := h
  rw [differences_ofIds, List.map_eq_nil_iff, List.filter_eq_nil_iff]
  intro id hid
  have hmem : id ∈ base.ids := by simpa using (hids.mem id).mp ((arranged_perm ids).mem_iff.mp hid)
  simp [agree_self hmem]

/-- Two reports have the same objects that are the same, and the same differences. -/
theorem IsReport.perm (h : IsReport base other r) (h' : IsReport base other r') :
    r.sames.Perm r'.sames ∧ r.differences.Perm r'.differences := by
  obtain ⟨ids, hids, rfl⟩ := h
  obtain ⟨ids', hids', rfl⟩ := h'
  have hperm := hids.arranged_perm hids'
  exact ⟨hperm.filter _, (hperm.filter _).map _⟩

/-- **Exchanging the results** exchanges the sides. -/
theorem swap_ofIds (base other : Result) (ids : List ObjectId) :
    (ofIds other base ids).sames = (ofIds base other ids).sames ∧
      (ofIds other base ids).differences =
        (ofIds base other ids).differences.map Difference.swap := by
  have hagree : agree other base = agree base other := funext fun id => agree_comm other base id
  rw [sames_ofIds, sames_ofIds, differences_ofIds, differences_ofIds, hagree, List.map_map]
  exact ⟨rfl, rfl⟩

/-- **A comparison is a faithful partition.**  Comparing two results gives a report.  The reports,
for all orders in which the objects can be enumerated, are exactly those that have each object once,
on the right side and in order.  A result does not differ from itself, and exchanging the results
exchanges the sides of the differences. -/
theorem compare_partitions (base other : Result) :
    IsReport base other (compare base other) ∧
    (∀ r, IsReport base other r ↔ IsFaithful base other r) ∧
    (∀ r, IsReport base base r → r.differences = []) ∧
    ∀ r r', IsReport base other r → IsReport other base r' →
      r'.sames.Perm r.sames ∧ r'.differences.Perm (r.differences.map Difference.swap) := by
  refine ⟨isReport_compare base other, fun _ => ⟨IsReport.faithful, IsFaithful.isReport⟩,
    fun _ => IsReport.differences_self, ?_⟩
  rintro r r' ⟨ids, hids, rfl⟩ h'
  obtain ⟨hsames, hdifferences⟩ := swap_ofIds base other ids
  rw [← hsames, ← hdifferences]
  exact h'.perm ⟨ids, hids.symm, rfl⟩

/-! ## Objects that are printed alike -/

/-- What is printed of two reports before the sides is the same. -/
theorem IsReport.texts_eq (h : IsReport base other r) (h' : IsReport base other r') :
    r.sames.map ObjectId.text = r'.sames.map ObjectId.text ∧
      (r.differences.map Difference.id).map ObjectId.text =
        (r'.differences.map Difference.id).map ObjectId.text := by
  obtain ⟨hsames, hdifferences⟩ := h.perm h'
  have hantisymm : ∀ {l l' : List String}, l.Pairwise (· ≤ ·) → l'.Pairwise (· ≤ ·) →
      l.Perm l' → l = l' :=
    fun hl hl' hperm => hperm.eq_of_pairwise (fun _ _ _ _ => String.le_antisymm) hl hl'
  constructor
  · exact hantisymm (List.pairwise_map.mpr h.faithful.samesOrdered)
      (List.pairwise_map.mpr h'.faithful.samesOrdered)
      (hsames.map _)
  · simp only [List.map_map]
    exact hantisymm (List.pairwise_map.mpr h.faithful.differencesOrdered)
      (List.pairwise_map.mpr h'.faithful.differencesOrdered) (hdifferences.map _)

end Report

end FieldFlow
