import FieldFlow.Proofs.Alternatives
import FieldFlow.Proofs.Interning

/-!
# Final values in the order of their keys

Values are listed by rank: by key, and instances with the same key by serial number.  The final
values of one field are given out by one manager, one after the other, so that among them a key
belongs to one instance.  Hence their keys increase strictly, and the missing value comes first.
This holds of every resolver and in every workspace, whatever the manager has given out before.

Main results: `Propagation.pairwise_sortValues`, `Resolver.pairwise_finalValues`.
-/

namespace FieldFlow

/-! ## Ranks -/

namespace Rank

theorem le_iff {a b : Rank} :
    a.le b = true ↔ a.key < b.key ∨ a.key = b.key ∧ a.serial ≤ b.serial := by
  unfold le
  by_cases hkey : a.key = b.key
  · rw [if_pos hkey, decide_eq_true_eq, hkey]
    simp
  · rw [if_neg hkey, decide_eq_true_eq, or_iff_left fun h => hkey h.1]
    exact ⟨fun hle => Std.lt_of_le_of_ne hle hkey, Std.le_of_lt⟩

theorem le_trans (a b c : Rank) (hab : a.le b = true) (hbc : b.le c = true) : a.le c = true := by
  rw [le_iff] at hab hbc ⊢
  rcases hab with hab | ⟨hab, hserial⟩
  · rcases hbc with hbc | ⟨hbc, _⟩
    · exact .inl (String.lt_trans hab hbc)
    · exact .inl (hbc ▸ hab)
  · rw [hab]
    exact hbc.imp_right fun h => ⟨h.1, Nat.le_trans hserial h.2⟩

theorem le_total (a b : Rank) : (a.le b || b.le a) = true := by
  rw [Bool.or_eq_true, le_iff, le_iff]
  rcases Std.lt_trichotomy a.key b.key with hlt | heq | hlt
  · exact .inl (.inl hlt)
  · exact (Nat.le_total a.serial b.serial).imp (fun h => .inr ⟨heq, h⟩) fun h => .inr ⟨heq.symm, h⟩
  · exact .inr (.inl hlt)

/-- Ranks that come before each other are the same. -/
theorem le_antisymm (a b : Rank) (hab : a.le b = true) (hba : b.le a = true) : a = b := by
  rw [le_iff] at hab hba
  rcases hab with hab | ⟨hkey, hab⟩
  · rcases hba with hba | ⟨hkey, _⟩
    · exact absurd (String.lt_trans hab hba) (String.lt_irrefl _)
    · exact absurd (hkey ▸ hab) (String.lt_irrefl _)
  · have hserial : a.serial = b.serial := by
      rcases hba with hba | ⟨_, hba⟩
      · exact absurd (hkey ▸ hba) (String.lt_irrefl _)
      · exact Nat.le_antisymm hab hba
    cases a
    cases b
    simp_all

end Rank

/-! ## Values -/

/-- What is missing comes before every value. -/
theorem Value.empty_lt_key (v : Value) : "" < v.key := by
  rw [String.lt_iff, toList_key]
  exact List.nil_lt_cons _ _

namespace Propagation

/-- **Values in order**: where a key belongs to one instance, the keys increase strictly behind the
missing value. -/
theorem pairwise_sortValues {l : List (Option Value)}
    (hkeys : ∀ u v, some u ∈ l → some v ∈ l → u.key = v.key → u = v) :
    (sortValues l).Pairwise fun a b => a.map Value.key < b.map Value.key := by
  have hranks : (sortValues l).Pairwise fun a b => (rankOf a).le (rankOf b) = true ∧
      rankOf a ≠ rankOf b :=
    Ordered.pairwise_distinctBy Rank.le_trans Rank.le_total Rank.le_antisymm l
  refine hranks.imp_of_mem ?_
  rintro a b ha hb ⟨hle, hne⟩
  rw [Rank.le_iff] at hle
  cases a with
  | none =>
    cases b with
    | none => exact absurd rfl hne
    | some v => exact Option.none_lt_some
  | some u =>
    cases b with
    | none =>
      have hempty : ¬u.key ≤ "" := Std.not_le.mpr u.empty_lt_key
      exact absurd (hle.elim Std.le_of_lt fun h => Std.le_of_eq h.1) hempty
    | some v =>
      rcases hle with hlt | ⟨hkey, _⟩
      · exact Option.some_lt_some.mpr hlt
      · -- The two would be the same instance, with the same rank.
        have hsame :=
          hkeys u v (Ordered.mem_of_mem_distinctBy ha) (Ordered.mem_of_mem_distinctBy hb) hkey
        exact absurd (congrArg (fun x => rankOf (some x)) hsame) hne

end Propagation

namespace Resolver

variable {r : Resolver} {field : String} {v : Value} {w w' : Workspace} {l : List (Option Value)}

/-- The values that alternatives make are canonical, and stay so. -/
theorem mapM_applyAlternative_found {content : Value} {choices : List (Option Transformer)}
    {m m' : Manager} {values : List (Option Value)}
    (h : Yields (choices.mapM (applyAlternative content)) m values m') :
    m.pool.Extends m'.pool ∧ ∀ u, some u ∈ values → m'.pool.find? u.key = some (.value u) := by
  induction choices generalizing m values with
  | nil =>
    rw [List.mapM_nil] at h
    obtain ⟨rfl, rfl⟩ := Yields.pure_iff.mp h
    exact ⟨.refl _, fun u hu => absurd hu List.not_mem_nil⟩
  | cons choice rest ih =>
    simp only [List.mapM_cons, Yields.bind_iff, Yields.pure_iff] at h
    obtain ⟨made, m₁, hmade, others, _, hrest, rfl, rfl⟩ := h
    obtain ⟨hextends, hothers⟩ := ih hrest
    cases choice with
    | none =>
      obtain ⟨rfl, rfl⟩ := Yields.pure_iff.mp hmade
      exact ⟨hextends, by simpa using hothers⟩
    | some t =>
      simp only [applyAlternative, Yields.bind_iff, Yields.pure_iff] at hmade
      obtain ⟨v, _, hv, rfl, rfl⟩ := hmade
      obtain ⟨hevolves, hfound, _⟩ := Manager.apply_evolves hv
      refine ⟨hevolves.keeps.trans hextends, fun u hu => ?_⟩
      rcases List.mem_cons.mp hu with hu | hu
      · obtain rfl := Option.some.inj hu
        exact hextends.found hfound
      · exact hothers u hu

/-- **Final values are listed in the order of their keys**, each once, the missing one first. -/
theorem pairwise_finalValues (h : (r.finalValues field v).Returns w l w') :
    l.Pairwise fun a b => a.map Value.key < b.map Value.key := by
  unfold finalValues at h
  cases hsequence : v.sequence with
  | none =>
    rw [hsequence] at h
    obtain ⟨rfl, _⟩ := Work.returns_pure.mp h
    exact List.pairwise_singleton _ _
  | some steps =>
    rw [hsequence] at h
    simp only [Work.returns_bind, Work.returns_managed, Work.returns_pure] at h
    obtain ⟨_, _, _, content, _, _, values, _, ⟨m, hvalues, rfl⟩, rfl, _⟩ := h
    -- All values come from one pool, where a key has one instance.
    obtain ⟨_, hheld⟩ := mapM_applyAlternative_found hvalues
    refine Propagation.pairwise_sortValues fun u v hu hv hkey => ?_
    exact Item.value.inj (Pool.eq_of_key (hheld u hu) (hheld v hv) hkey)

/-- No two of the final values have the same key. -/
theorem nodup_keys_finalValues (h : (r.finalValues field v).Returns w l w') :
    (l.map (Option.map Value.key)).Nodup := by
  rw [List.nodup_iff_pairwise_ne, List.pairwise_map]
  refine (pairwise_finalValues h).imp fun {a b} hlt heq => ?_
  rw [heq] at hlt
  cases b with
  | none => exact hlt
  | some u => exact String.lt_irrefl _ hlt

/-- Final values with the same contents are the same instance. -/
theorem eq_of_contents_finalValues (h : (r.finalValues field v).Returns w l w') {a b : Option Value}
    (ha : a ∈ l) (hb : b ∈ l) (hcontents : a.map Value.contents = b.map Value.contents) :
    a = b := by
  refine List.inj_on_of_nodup_map (nodup_keys_finalValues h) ha hb ?_
  cases a <;> cases b <;> simp_all [Value.key_eq_iff]

end Resolver

end FieldFlow
