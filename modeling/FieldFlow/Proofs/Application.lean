import FieldFlow.Proofs.Interning
import FieldFlow.Proofs.Replay

/-!
# Composing against applying one after the other

A transformer without a sequence does to a value without one what its edit does to the members, and
it leaves the set present if it was so, uncleared, or if something is added.  So two transformers,
composed or applied one after the other, are compared by their edits.

Applying removes first and adds then, while merging adds first and removes then.  The two orders
agree unless the second transformer both adds and removes an element: that is in the field after the
two, but not after their composition.  Merging also forgets that something was added at all, if all
of it is removed again, so that a field without content may stay without, where it would be empty.

Main definitions: `Edit.Fills`, `Transformer.Withdraws`.
Main results: `Manager.compose_edit`, `Manager.apply_compose_exact`,
`Manager.apply_compose_overlap`.
-/

namespace FieldFlow

/-! ## Edits that leave a set -/

namespace Edit

variable {e f : Edit} {p : Prop}

/-- A set is there after the edit, possibly an empty one; `p` says whether one was there before. -/
def Fills (e : Edit) (p : Prop) : Prop := (e.clear = false ∧ p) ∨ e.add.Nonempty

/-- The second edit removes all that the first adds to a field without content, and adds nothing. -/
def Withdraws (f e : Edit) (p : Prop) : Prop :=
  f.clear = false ∧ (e.clear = true ∨ ¬p) ∧ e.add.Nonempty ∧ e.add ⊆ f.remove ∧ f.add = ∅

theorem fills_none : none.Fills p ↔ p := by simp [Fills, none]

/-- **Merging leaves a set where one edit after the other does**, unless the second one withdraws
the first. -/
theorem fills_andThen (hclear : f.clear = false) (hf : f.Regular) :
    (e.andThen f).Fills p ↔ f.Fills (e.Fills p) ∧ ¬f.Withdraws e p := by
  have hdisjoint : Disjoint f.add f.remove := hf.resolve_left (by simp [hclear])
  have hadd : ((e.add ∪ f.add) \ f.remove).Nonempty ↔ ¬e.add ⊆ f.remove ∨ f.add.Nonempty := by
    rw [Set.union_sdiff_distrib, Set.union_nonempty, hdisjoint.sdiff_eq_left, Set.sdiff_nonempty]
  rw [andThen_of_not_clear hclear]
  by_cases hleft : e.clear = false ∧ p
  · have hnever : ¬f.Withdraws e p := by
      rintro ⟨_, hcleared | habsent, _⟩
      · rw [hleft.1] at hcleared
        cases hcleared
      · exact habsent hleft.2
    exact iff_of_true (.inl hleft) ⟨.inl ⟨hclear, .inl hleft⟩, hnever⟩
  · -- Nothing is left from before, so it depends on what is added.
    have hcleared : e.clear = true ∨ ¬p := by
      rw [not_and_or] at hleft
      exact hleft.imp_left (by simp)
    have hsubset : ¬e.add ⊆ f.remove → e.add.Nonempty :=
      fun h => (Set.sdiff_nonempty.mpr h).mono Set.sdiff_subset
    rw [Withdraws, and_iff_right hclear, and_iff_right hcleared, ← Set.not_nonempty_iff_eq_empty]
    simp only [Fills, hadd, hleft, hclear, true_and, false_or]
    tauto

/-- Withdrawing leaves an empty set where nothing was. -/
theorem Withdraws.fills (h : f.Withdraws e p) : f.Fills (e.Fills p) := .inl ⟨h.1, .inr h.2.2.1⟩

/-- **What merging loses**: the elements that the second edit both adds and removes. -/
theorem act_andThen_of_not_clear (hclear : f.clear = false) (s : Set Element) :
    (e.andThen f).act s = f.act (e.act s) \ (f.add ∩ f.remove) := by
  rw [andThen_of_not_clear hclear]
  ext x
  simp only [act, hclear, Set.mem_union, Set.mem_sdiff, Set.mem_inter_iff,
    Bool.false_eq_true, if_false]
  tauto

/-- The edit of a composition: the second one, if it clears the field or the first does nothing, and
the merge of the two otherwise. -/
def Composes (c e f : Edit) : Prop :=
  (c = f ∧ (f.clear = true ∨ e = none)) ∨ (c = e.andThen f ∧ f.clear = false)

variable {c : Edit}

/-- The first edit does not matter if the second clears the field, or if it does nothing. -/
theorem act_act_of_clear_or_none (h : f.clear = true ∨ e = none) (s : Set Element) :
    f.act (e.act s) = f.act s := by
  rcases h with hclear | rfl
  · simp [act, hclear]
  · rw [act_none]

/-- Composing acts as one edit after the other, if the second is regular. -/
theorem Composes.act_eq (h : Composes c e f) (hf : f.Regular) (s : Set Element) :
    c.act s = f.act (e.act s) := by
  rcases h with ⟨rfl, hback⟩ | ⟨rfl, _⟩
  · exact (act_act_of_clear_or_none hback s).symm
  · exact act_andThen hf s

/-- Composing leaves a set where one edit after the other does, unless the second one withdraws the
first. -/
theorem Composes.fills_iff (h : Composes c e f) (hf : f.Regular) :
    c.Fills p ↔ f.Fills (e.Fills p) ∧ ¬f.Withdraws e p := by
  rcases h with ⟨rfl, hclear | rfl⟩ | ⟨rfl, hclear⟩
  · simp [Fills, Withdraws, hclear]
  · have hnever : ¬c.Withdraws none p := fun h => Set.not_nonempty_empty h.2.2.1
    rw [and_iff_left hnever, Fills, Fills, fills_none]
  · exact fills_andThen hclear hf

end Edit

/-! ## What composing and applying do to edits -/

/-- A sequence is absent if its contents are. -/
theorem Sequence.contentsOf_eq_none {s : Option Sequence} (h : contentsOf s = none) : s = none := by
  cases s with
  | none => rfl
  | some steps =>
    rw [contentsOf_some] at h
    cases h

namespace Transformer

/-- A transformer with the contents of plain edits has just these. -/
theorem fields_of_contents {t : Transformer} {add remove : OptionalSet} {clear : Bool}
    (h : t.contents = .draft add remove clear none) :
    t.add = add ∧ t.remove = remove ∧ t.clear = clear ∧ t.sequence = none := by
  refine ⟨?_, ?_, ?_, Sequence.contentsOf_eq_none ?_⟩
  · rw [← add_contents, h, draft]
  · rw [← remove_contents, h, draft]
  · rw [← clear_contents, h, draft]
  · rw [← sequence_contents, h, draft]

/-- The second transformer removes all that the first adds to a field without content, and adds
nothing. -/
def Withdraws (b a : Transformer) (v : Value) : Prop :=
  b.clear = false ∧ (a.clear = true ∨ v.set = none) ∧ (OptionalSet.members a.add).Nonempty ∧
    OptionalSet.members a.add ⊆ OptionalSet.members b.remove ∧ OptionalSet.members b.add = ∅

theorem withdraws_iff {a b : Transformer} {v : Value} :
    b.Withdraws a v ↔ b.edit.Withdraws a.edit (v.set.isSome = true) := by
  rw [Withdraws, Edit.Withdraws, Option.not_isSome_iff_eq_none]
  rfl

/-- What a transformer without a sequence makes of a value without one. -/
theorem on_of_plain {t : Transformer} {v : Value} (ht : t.sequence = none)
    (hv : v.sequence = none) :
    t.on v =
      .draft (OptionalSet.extend
      (OptionalSet.reduce (if t.clear then none else v.set) t.remove) t.add)
      none := by
  have hpending : (if t.clear then none else v.sequence) = none := by simp [hv]
  unfold on
  rw [hpending, ht]
  rfl

end Transformer

namespace Manager

variable {m m₁ p p' q q' r r' n : Manager} {a b c t : Transformer} {u v x y : Value}

theorem Orderly.edit_identity (hm : m.Orderly) : m.identity.edit = .none := by
  obtain ⟨hadd, hremove, hclear, _⟩ := Transformer.fields_of_contents hm.blank
  rw [Transformer.edit, hadd, hremove, hclear, OptionalSet.members_none, Edit.none]

/-- The manager takes the transformer for the identity only if it is that. -/
def Recognizes (m : Manager) (t : Transformer) : Prop :=
  t.serial = m.identity.serial → t = m.identity

theorem Orderly.recognizes (hm : m.Orderly) (ht : m.pool.Holds t) : m.Recognizes t :=
  hm.eq_identity ht

/-- The composition of transformers without sequences, if the manager recognizes the identity among
them. -/
theorem compose_recognized (hm : m.Orderly) (ha : m.Recognizes a) (hb : m.Recognizes b)
    (hasequence : a.sequence = none) (hbsequence : b.sequence = none)
    (h : Yields (compose a b) m c m₁) : c.sequence = none ∧
      ((c.edit = b.edit ∧ (b.clear = true ∨ a = m.identity)) ∨
        (c.edit = a.edit.andThen b.edit ∧ b.clear = false ∧ a ≠ m.identity)) := by
  rcases compose_outcome h with ⟨_, rfl, hback⟩ | ⟨_, rfl, hclear, hserial⟩ |
    ⟨_, _, hclear, hserial, _, hcontents⟩
  · exact ⟨hbsequence, .inl ⟨rfl, hback.imp_right ha⟩⟩
  · refine ⟨hasequence, ?_⟩
    obtain rfl := hb hserial
    by_cases hidentity : c = m.identity
    · exact .inl ⟨by rw [hidentity], .inr hidentity⟩
    · rw [hm.edit_identity, Edit.andThen_none]
      exact .inr ⟨rfl, hclear, hidentity⟩
  · rw [Transformer.merge_of_none hasequence, hbsequence, Transformer.contents_draft] at hcontents
    obtain ⟨hadd, hremove, hcclear, hsequence⟩ := Transformer.fields_of_contents hcontents
    refine ⟨hsequence, .inr ⟨?_, hclear, fun h => hserial (by rw [h])⟩⟩
    rw [Transformer.edit, hadd, hremove, hcclear, Transformer.members_mergeEdits hclear]

/-- **The composition** of canonical transformers without sequences: the second one, if it clears
the field or comes after the identity, and one with the merged edits otherwise. -/
theorem compose_edit (hm : m.Orderly) (ha : m.pool.Holds a) (hb : m.pool.Holds b)
    (hasequence : a.sequence = none) (hbsequence : b.sequence = none)
    (h : Yields (compose a b) m c m₁) : c.sequence = none ∧
      ((c.edit = b.edit ∧ (b.clear = true ∨ a = m.identity)) ∨
        (c.edit = a.edit.andThen b.edit ∧ b.clear = false ∧ a ≠ m.identity)) :=
  compose_recognized hm (hm.recognizes ha) (hm.recognizes hb) hasequence hbsequence h

/-- **Application** without sequences edits the members, and leaves a set where the edit does. -/
theorem apply_edit (ht : t.sequence = none) (hv : v.sequence = none)
    (h : Yields (apply t v) m u m₁) :
    u.sequence = none ∧ OptionalSet.members u.set = t.edit.act (OptionalSet.members v.set) ∧
      (u.set.isSome ↔ t.edit.Fills (v.set.isSome = true)) := by
  obtain ⟨_, _, hcontents⟩ := apply_evolves h
  have hset : u.contents.set = (t.on v).contents.set := congrArg Value.set hcontents
  have hsequence : u.contents.sequence = (t.on v).contents.sequence :=
    congrArg Value.sequence hcontents
  change u.set = (t.on v).set at hset
  change Sequence.contentsOf u.sequence = Sequence.contentsOf (t.on v).sequence at hsequence
  rw [Transformer.on_of_plain ht hv] at hsequence
  refine ⟨Sequence.contentsOf_eq_none hsequence, ?_, ?_⟩
  · rw [hset, Transformer.members_on hv]
  · rw [hset, Transformer.on_of_plain ht hv]
    simp only [Value.draft, OptionalSet.isSome_extend, OptionalSet.isSome_reduce, Edit.Fills,
      Transformer.edit]
    cases t.clear <;> simp

/-- Canonical values without sequences are the same if their sets are. -/
theorem eq_iff_set_eq (hx : n.pool.find? x.key = some (.value x))
    (hy : n.pool.find? y.key = some (.value y)) (hxsequence : x.sequence = none)
    (hysequence : y.sequence = none) : x = y ↔ x.set = y.set := by
  refine ⟨congrArg Value.set, fun hset => ?_⟩
  have hkey : x.key = y.key := by
    rw [Value.key_eq_iff, Value.contents, Value.contents, hset, hxsequence, hysequence]
  exact Item.value.inj (Pool.eq_of_key hx hy hkey)

/-- Some manager holds canonical transformers with given edits. -/
theorem exists_holds_edits (add remove add' remove' : OptionalSet) :
    ∃ (m : Manager) (a b : Transformer), m.Orderly ∧ m.pool.Holds a ∧ m.pool.Holds b ∧
      a.contents = .draft add remove false none ∧ b.contents = .draft add' remove' false none := by
  obtain ⟨a, m₁, hintern⟩ :=
    Yields.exists_run (intern (.draft add remove false none)) (create (.empty hash))
  obtain ⟨b, m₂, hintern'⟩ := Yields.exists_run (intern (.draft add' remove' false none)) m₁
  obtain ⟨hevolves, ha, hacontents⟩ := intern_evolves (Bench.admits_new rfl) hintern
  obtain ⟨hevolves', hb, hbcontents⟩ := intern_evolves (Bench.admits_new rfl) hintern'
  exact ⟨m₂, a, b, (hevolves.trans hevolves').orderly (create_interns hash).2,
    ha.mono hevolves'.keeps, hb,
    hacontents.trans (Transformer.contents_draft _ _ _ _),
    hbcontents.trans (Transformer.contents_draft _ _ _ _)⟩

/-- Both ways of having `a` and `b` act on a value, one after the other on the same manager. -/
theorem exists_yields_both (m : Manager) (a b : Transformer) (v : Value) :
    ∃ (m₁ m₂ m₃ m₄ : Manager) (c : Transformer) (u x y : Value), Yields (compose a b) m c m₁ ∧
      Yields (apply c v) m₁ x m₂ ∧ Yields (apply a v) m₂ u m₃ ∧ Yields (apply b u) m₃ y m₄ := by
  obtain ⟨c, m₁, hc⟩ := Yields.exists_run (compose a b) m
  obtain ⟨x, m₂, hx⟩ := Yields.exists_run (apply c v) m₁
  obtain ⟨u, m₃, hu⟩ := Yields.exists_run (apply a v) m₂
  obtain ⟨y, m₄, hy⟩ := Yields.exists_run (apply b u) m₃
  exact ⟨m₁, m₂, m₃, m₄, c, u, x, y, hc, hx, hu, hy⟩

/-- **Composing against applying one after the other, exactly.**  The managers are those before and
after each of the four operations, and `n` is one that holds what they interned, so that anything
may happen in between.  If the second transformer clears the field or does not add what it removes,
the two results have the same members.  They are the same canonical value, except where the second
transformer withdraws the first: there the composed result has no set at all, and the other one an
empty set. -/
theorem apply_compose_exact (hm : m.Orderly) (ha : m.pool.Holds a) (hb : m.pool.Holds b)
    (hasequence : a.sequence = none) (hbsequence : b.sequence = none)
    (hregular : b.clear = true ∨
      Disjoint (OptionalSet.members b.add) (OptionalSet.members b.remove))
    (hv : v.sequence = none) (hc : Yields (compose a b) m c m₁) (hx : Yields (apply c v) p x p')
    (hu : Yields (apply a v) q u q') (hy : Yields (apply b u) r y r') (hp : p'.pool.Extends n.pool)
    (hr : r'.pool.Extends n.pool) :
    OptionalSet.members x.set = OptionalSet.members y.set ∧ (x = y ↔ ¬b.Withdraws a v) ∧
      (b.Withdraws a v → x.set = none ∧ y.set = some .empty) := by
  obtain ⟨hcsequence, hedit⟩ := compose_edit hm ha hb hasequence hbsequence hc
  have hcomposes : Edit.Composes c.edit a.edit b.edit := by
    rcases hedit with ⟨hedit, hback⟩ | ⟨hedit, hclear, _⟩
    · exact .inl ⟨hedit, hback.imp_right fun h => by rw [h, hm.edit_identity]⟩
    · exact .inr ⟨hedit, hclear⟩
  obtain ⟨hxsequence, hxmembers, hxsome⟩ := apply_edit hcsequence hv hx
  obtain ⟨husequence, humembers, husome⟩ := apply_edit hasequence hv hu
  obtain ⟨hysequence, hymembers, hysome⟩ := apply_edit hbsequence husequence hy
  have hmembers : OptionalSet.members x.set = OptionalSet.members y.set := by
    rw [hxmembers, hymembers, humembers, hcomposes.act_eq hregular]
  have hsome : x.set.isSome ↔ y.set.isSome ∧ ¬b.Withdraws a v := by
    rw [hxsome, hysome, propext husome, Transformer.withdraws_iff, hcomposes.fills_iff hregular]
  -- The members agree anyway, so only presence can tell the two sets apart.
  have hempty : b.Withdraws a v → x.set = none ∧ y.set = some .empty := by
    intro hwithdraws
    have hnone : x.set = none := by
      rw [← Option.not_isSome_iff_eq_none, hsome]
      exact fun h => h.2 hwithdraws
    have hpresent : y.set.isSome = true := by
      rw [hysome, propext husome]
      exact (Transformer.withdraws_iff.mp hwithdraws).fills
    refine ⟨hnone, OptionalSet.eq_of_members (iff_of_true hpresent rfl) ?_⟩
    rw [← hmembers, hnone]
    rfl
  refine ⟨hmembers, ?_, hempty⟩
  rw [eq_iff_set_eq (hp.found (apply_evolves hx).2.1) (hr.found (apply_evolves hy).2.1)
    hxsequence hysequence]
  constructor
  · intro hset hwithdraws
    obtain ⟨hnone, hsome⟩ := hempty hwithdraws
    cases (hnone.symm.trans hset).trans hsome
  · intro hwithdraws
    exact OptionalSet.eq_of_members (hsome.trans (and_iff_left hwithdraws)) hmembers

/-- An element is added to a field without content and removed again. -/
theorem apply_compose_exact_withdrawn :
    ∃ (m m₁ m₂ m₃ m₄ : Manager) (a b c : Transformer) (u x y : Value),
    m.Orderly ∧ m.pool.Holds a ∧ m.pool.Holds b ∧ Yields (compose a b) m c m₁ ∧
    Yields (apply c (.draft none none)) m₁ x m₂ ∧ Yields (apply a (.draft none none)) m₂ u m₃ ∧
    Yields (apply b u) m₃ y m₄ ∧ b.Withdraws a (.draft none none) ∧
    OptionalSet.members x.set = OptionalSet.members y.set ∧ x ≠ y ∧ x.set = none ∧
      y.set = some .empty := by
  obtain ⟨m, a, b, hm, ha, hb, hacontents, hbcontents⟩ :=
    exists_holds_edits (some (.singleton .nil)) none none (some (.singleton .nil))
  obtain ⟨m₁, m₂, m₃, m₄, c, u, x, y, hc, hx, hu, hy⟩ := exists_yields_both m a b (.draft none none)
  obtain ⟨hadd, _, _, hasequence⟩ := Transformer.fields_of_contents hacontents
  obtain ⟨hadd', hremove, hclear, hbsequence⟩ := Transformer.fields_of_contents hbcontents
  have hwithdraws : b.Withdraws a (.draft none none) := by
    refine ⟨hclear, .inr rfl, ?_, ?_, ?_⟩
    · rw [hadd, OptionalSet.members_singleton]
      exact Set.singleton_nonempty _
    · rw [hadd, hremove]
    · rw [hadd', OptionalSet.members_none]
  have hregular : b.clear = true ∨
      Disjoint (OptionalSet.members b.add) (OptionalSet.members b.remove) := by
    rw [hadd', OptionalSet.members_none]
    exact .inr (Set.empty_disjoint _)
  obtain ⟨hmembers, hequal, hempty⟩ :=
    apply_compose_exact hm ha hb hasequence hbsequence hregular rfl hc hx hu hy
      ((apply_evolves hu).1.trans (apply_evolves hy).1).keeps (.refl _)
  exact ⟨m, m₁, m₂, m₃, m₄, a, b, c, u, x, y, hm, ha, hb, hc, hx, hu, hy, hwithdraws, hmembers,
    fun h => hequal.mp h hwithdraws, hempty hwithdraws⟩

/-- **What merging loses**: elements that the second transformer removes and adds are in the field
after the two, but not after their composition. -/
theorem members_apply_merged (hcsequence : c.sequence = none)
    (hedit : c.edit = a.edit.andThen b.edit) (hclear : b.clear = false)
    (hasequence : a.sequence = none) (hbsequence : b.sequence = none) (hv : v.sequence = none)
    (hx : Yields (apply c v) p x p') (hu : Yields (apply a v) q u q')
    (hy : Yields (apply b u) r y r') :
    OptionalSet.members x.set
        = OptionalSet.members y.set \ (OptionalSet.members b.add ∩ OptionalSet.members b.remove) ∧
      OptionalSet.members b.add ∩ OptionalSet.members b.remove ⊆ OptionalSet.members y.set := by
  obtain ⟨_, hxmembers, _⟩ := apply_edit hcsequence hv hx
  obtain ⟨husequence, humembers, _⟩ := apply_edit hasequence hv hu
  obtain ⟨_, hymembers, _⟩ := apply_edit hbsequence husequence hy
  rw [hxmembers, hymembers, humembers, hedit, Edit.act_andThen_of_not_clear hclear]
  exact ⟨rfl, fun z hz => .inr hz.1⟩

/-- **What composing loses.**  The composed result has the same members as that of applying one
after the other exactly if the second transformer clears the field, or the first is the identity, or
the second does not add what it removes. Otherwise it lacks just the elements that the second
transformer both removes and adds. -/
theorem apply_compose_overlap (hm : m.Orderly) (ha : m.pool.Holds a) (hb : m.pool.Holds b)
    (hasequence : a.sequence = none) (hbsequence : b.sequence = none) (hv : v.sequence = none)
    (hc : Yields (compose a b) m c m₁) (hx : Yields (apply c v) p x p')
    (hu : Yields (apply a v) q u q') (hy : Yields (apply b u) r y r') :
    (OptionalSet.members x.set = OptionalSet.members y.set ↔ b.clear = true ∨ a = m.identity ∨
      Disjoint (OptionalSet.members b.add) (OptionalSet.members b.remove)) ∧
    (b.clear = false → a ≠ m.identity →
      OptionalSet.members x.set
        = OptionalSet.members y.set \ (OptionalSet.members b.add ∩ OptionalSet.members b.remove) ∧
      OptionalSet.members b.add ∩ OptionalSet.members b.remove ⊆ OptionalSet.members y.set) := by
  obtain ⟨hcsequence, hedit⟩ := compose_edit hm ha hb hasequence hbsequence hc
  rcases hedit with ⟨hedit, hback⟩ | ⟨hedit, hclear, hidentity⟩
  · obtain ⟨_, hxmembers, _⟩ := apply_edit hcsequence hv hx
    obtain ⟨husequence, humembers, _⟩ := apply_edit hasequence hv hu
    obtain ⟨_, hymembers, _⟩ := apply_edit hbsequence husequence hy
    have hnone : b.edit.clear = true ∨ a.edit = .none :=
      hback.imp_right fun h => by rw [h, hm.edit_identity]
    have hsame : OptionalSet.members x.set = OptionalSet.members y.set := by
      rw [hxmembers, hymembers, humembers, hedit, Edit.act_act_of_clear_or_none hnone]
    refine ⟨iff_of_true hsame (hback.imp_right .inl), fun hclear hidentity => ?_⟩
    rcases hback with hback | hback
    · rw [hclear] at hback
      cases hback
    · exact absurd hback hidentity
  · have hlost := members_apply_merged hcsequence hedit hclear hasequence hbsequence hv hx hu hy
    refine ⟨?_, fun _ _ => hlost⟩
    rw [hlost.1, sdiff_eq_left, or_iff_right (by simp [hclear]), or_iff_right hidentity,
      Set.disjoint_iff_inter_eq_empty, Set.inter_eq_right.mpr hlost.2,
      ← Set.disjoint_iff_inter_eq_empty]

/-- The transformers of the next two statements: the first adds an element, the second removes and
adds another. -/
theorem exists_holds_overlapping :
    ∃ (m : Manager) (a b : Transformer), m.Orderly ∧ m.pool.Holds a ∧ m.pool.Holds b ∧
    a.sequence = none ∧ b.sequence = none ∧ b.clear = false ∧ a ≠ m.identity ∧
    OptionalSet.members b.add = {.string "x"} ∧ OptionalSet.members b.remove = {.string "x"} := by
  obtain ⟨m, a, b, hm, ha, hb, hacontents, hbcontents⟩ :=
    exists_holds_edits (some (.singleton (.string "y"))) none
      (some (.singleton (.string "x"))) (some (.singleton (.string "x")))
  obtain ⟨hadd, _, _, hasequence⟩ := Transformer.fields_of_contents hacontents
  obtain ⟨hadd', hremove, hclear, hbsequence⟩ := Transformer.fields_of_contents hbcontents
  refine ⟨m, a, b, hm, ha, hb, hasequence, hbsequence, hclear, ?_, ?_, ?_⟩
  · rintro rfl
    obtain ⟨hnone, _⟩ := Transformer.fields_of_contents hm.blank
    cases hadd.symm.trans hnone
  · rw [hadd', OptionalSet.members_singleton]
  · rw [hremove, OptionalSet.members_singleton]

/-- An element that the second transformer removes and adds is lost. -/
theorem apply_compose_overlap_refreshed :
    ∃ (m m₁ m₂ m₃ m₄ : Manager) (a b c : Transformer) (u x y : Value),
    m.Orderly ∧ m.pool.Holds a ∧ m.pool.Holds b ∧ Yields (compose a b) m c m₁ ∧
    Yields (apply c (.draft none none)) m₁ x m₂ ∧ Yields (apply a (.draft none none)) m₂ u m₃ ∧
    Yields (apply b u) m₃ y m₄ ∧ OptionalSet.members x.set =
      OptionalSet.members y.set \ {.string "x"} ∧
    .string "x" ∈ OptionalSet.members y.set := by
  obtain ⟨m, a, b, hm, ha, hb, hasequence, hbsequence, hclear, hidentity, hadd, hremove⟩ :=
    exists_holds_overlapping
  obtain ⟨m₁, m₂, m₃, m₄, c, u, x, y, hc, hx, hu, hy⟩ := exists_yields_both m a b (.draft none none)
  obtain ⟨_, hlost⟩ := apply_compose_overlap hm ha hb hasequence hbsequence rfl hc hx hu hy
  obtain ⟨hmembers, hsubset⟩ := hlost hclear hidentity
  rw [hadd, hremove, Set.inter_self] at hmembers hsubset
  exact ⟨m, m₁, m₂, m₃, m₄, a, b, c, u, x, y, hm, ha, hb, hc, hx, hu, hy, hmembers, hsubset rfl⟩

/-- **Composing does not always agree with applying one after the other**, not even in the
members. -/
theorem apply_compose_disagrees :
    ¬∀ (m m₁ m₂ m₃ m₄ : Manager) (a b c : Transformer) (u v x y : Value),
    m.Orderly → m.pool.Holds a → m.pool.Holds b → a.sequence = none → b.sequence = none →
      v.sequence = none →
    Yields (compose a b) m c m₁ → Yields (apply c v) m₁ x m₂ → Yields (apply a v) m₂ u m₃ →
    Yields (apply b u) m₃ y m₄ → OptionalSet.members x.set = OptionalSet.members y.set := by
  intro hagrees
  obtain ⟨m, a, b, hm, ha, hb, hasequence, hbsequence, hclear, hidentity, hadd, hremove⟩ :=
    exists_holds_overlapping
  obtain ⟨m₁, m₂, m₃, m₄, c, u, x, y, hc, hx, hu, hy⟩ := exists_yields_both m a b (.draft none none)
  have hsame :=
    hagrees m m₁ m₂ m₃ m₄ a b c u (.draft none none) x y hm ha hb hasequence hbsequence
      rfl hc hx hu hy
  obtain ⟨hcsequence, ⟨_, hback⟩ | ⟨hedit, _⟩⟩ := compose_edit hm ha hb hasequence hbsequence hc
  · rcases hback with hback | hback
    · rw [hclear] at hback
      cases hback
    · exact hidentity hback
  · obtain ⟨hmembers, hsubset⟩ :=
      members_apply_merged hcsequence hedit hclear hasequence hbsequence rfl hx hu hy
    rw [hadd, hremove, Set.inter_self] at hmembers hsubset
    have hmem : Element.string "x" ∈ OptionalSet.members x.set := hsame ▸ hsubset rfl
    rw [hmembers] at hmem
    exact hmem.2 rfl

end Manager

end FieldFlow
