import FieldFlow.Proofs.Application

/-!
# Compositions can be regrouped

A transformer without a sequence is known, up to its serial number, from its edit and from which of
its two sets are present.  These make its outline.  Composing canonical transformers composes their
outlines, with the identity in the part of the blank outline, and on outlines the laws are plain:
composition is associative, also where a transformer adds and removes the same element or has an
empty set, and the blank outline is neutral.  Since there is one canonical instance for an outline,
the two ways of grouping three transformers lead to one and the same instance.

Main definitions: `Outline`, `Outline.comp`, `Manager.Becomes`.
Main results: `Outline.comp_assoc`, `Manager.compose_outline`, `Manager.compose_assoc`.
-/

namespace FieldFlow

/-! ## Outlines -/

/-- What a transformer without a sequence consists of: its edit, and which of its sets are
present. -/
@[ext]
structure Outline where
  edit : Edit
  adds : Bool
  removes : Bool

namespace Outline

variable {x y z : Outline}

/-- The outline of a transformer without any effect. -/
def blank : Outline := ⟨.none, false, false⟩

/-- The outlines of two transformers merged: a set is present if one of the two has it. -/
def merge (x y : Outline) : Outline :=
  ⟨x.edit.andThen y.edit, x.adds || y.adds, x.removes || y.removes⟩

open Classical in
/-- The outline of a composition: a clearing transformer, or one behind the identity, stays as
it is. -/
noncomputable def comp (x y : Outline) : Outline :=
  if y.edit.clear = true ∨ x = blank then y else x.merge y

/-- What clears the field, or follows a blank outline, stays as it is. -/
theorem comp_eq_right (h : y.edit.clear = true ∨ x = blank) : x.comp y = y := if_pos h

theorem comp_eq_merge (hclear : y.edit.clear = false) (hx : x ≠ blank) : x.comp y = x.merge y :=
  if_neg (not_or.mpr ⟨by simp [hclear], hx⟩)

theorem merge_assoc (x y z : Outline) : (x.merge y).merge z = x.merge (y.merge z) := by
  simp only [merge, Edit.andThen_assoc, Bool.or_assoc]

theorem merge_blank (x : Outline) : x.merge blank = x := by simp [merge, blank]

/-- Merging an outline that does not clear keeps whether the field is cleared. -/
theorem clear_merge (h : y.edit.clear = false) : (x.merge y).edit.clear = x.edit.clear := by
  rw [merge, Edit.andThen_of_not_clear h]

/-- A merge is blank only if its first part is: what is removed stays removed, so nothing can have
been added. -/
theorem eq_blank_of_merge (hclear : y.edit.clear = false) (h : x.merge y = blank) : x = blank := by
  rw [merge, Edit.andThen_of_not_clear hclear, blank, mk.injEq, Edit.none, Edit.mk.injEq] at h
  obtain ⟨⟨hxclear, hadd, hremove⟩, hadds, hremoves⟩ := h
  obtain ⟨hleft, hyremove⟩ := Set.union_empty_iff.mp hremove
  rw [hyremove, Set.sdiff_empty] at hadd
  obtain ⟨hxadd, hyadd⟩ := Set.union_empty_iff.mp hadd
  rw [hyadd, Set.sdiff_empty] at hleft
  have hedit : x.edit = .none := Edit.ext hxclear hxadd hleft
  exact Outline.ext hedit (Bool.or_eq_false_iff.mp hadds).1 (Bool.or_eq_false_iff.mp hremoves).1

theorem blank_comp (x : Outline) : blank.comp x = x := comp_eq_right (.inr rfl)

theorem comp_blank (x : Outline) : x.comp blank = x := by
  by_cases hx : x = blank
  · rw [hx, blank_comp]
  · rw [comp_eq_merge rfl hx, merge_blank]

/-- **Composition of outlines is associative.** -/
theorem comp_assoc (x y z : Outline) : (x.comp y).comp z = x.comp (y.comp z) := by
  cases hz : z.edit.clear with
  | true => rw [comp_eq_right (.inl hz), comp_eq_right (.inl hz), comp_eq_right (.inl hz)]
  | false =>
    cases hy : y.edit.clear with
    | true =>
      -- The second outline forgets the first one, also after it has been merged with the third.
      have hne : y ≠ blank := by
        rintro rfl
        cases hy
      have hmerge : (y.merge z).edit.clear = true := (clear_merge hz).trans hy
      rw [comp_eq_right (.inl hy), comp_eq_merge hz hne, comp_eq_right (.inl hmerge)]
    | false =>
      by_cases hx : x = blank
      · rw [hx, blank_comp, blank_comp]
      -- Nothing is cleared and the first outline is not blank, so the second one decides.
      rw [comp_eq_merge hy hx, comp_eq_merge hz fun h => hx (eq_blank_of_merge hy h)]
      by_cases hblank : y = blank
      · rw [hblank, merge_blank, blank_comp, comp_eq_merge hz hx]
      · have hmerge : (y.merge z).edit.clear = false := (clear_merge hz).trans hy
        rw [comp_eq_merge hz hblank, comp_eq_merge hmerge hx, merge_assoc]

end Outline

namespace Transformer

variable {t u a b : Transformer}

/-- The outline of a transformer. -/
def outline (t : Transformer) : Outline := ⟨t.edit, t.add.isSome, t.remove.isSome⟩

/-- **The outline determines the contents** of a transformer without a sequence. -/
theorem contents_eq_of_outline (ht : t.sequence = none) (hu : u.sequence = none)
    (h : t.outline = u.outline) :
    t.contents = u.contents := by
  obtain ⟨hedit, hadds, hremoves⟩ := Outline.mk.inj h
  obtain ⟨hclear, hadd, hremove⟩ := Edit.mk.inj hedit
  rw [contents_eq, contents_eq,
    OptionalSet.eq_of_members (iff_of_eq (congrArg (· = true) hadds)) hadd,
    OptionalSet.eq_of_members (iff_of_eq (congrArg (· = true) hremoves)) hremove, hclear, ht, hu]

/-- The blank transformer has the blank outline. -/
theorem outline_blank : blank.outline = .blank := by
  simp [outline, edit, blank, draft, Outline.blank, Edit.none]

/-- A transformer without a sequence is blank if its outline is. -/
theorem contents_eq_blank (ht : t.sequence = none) (h : t.outline = .blank) : t.contents = .blank :=
  (contents_eq_of_outline ht rfl (h.trans outline_blank.symm)).trans (contents_draft _ _ _ _)

/-- Transformers with the same contents have the same outline. -/
theorem outline_eq_of_contents (h : t.contents = u.contents) : t.outline = u.outline := by
  rw [outline, outline, edit, edit, ← add_contents, ← remove_contents, ← clear_contents, h,
    add_contents, remove_contents, clear_contents]

/-- Merging transformers merges their outlines. -/
theorem outline_merge (ha : a.sequence = none) (hclear : b.clear = false) :
    (a.merge b).outline = a.outline.merge b.outline := by
  have hedit : (a.merge b).edit = a.edit.andThen b.edit := by
    rw [← members_mergeEdits hclear, merge_of_none ha]
    rfl
  rw [outline, hedit, merge_of_none ha]
  unfold Manager.mergeEdits outline Outline.merge draft
  cases b.add <;> cases b.remove <;> simp [OptionalSet.add, OptionalSet.subtract]

end Transformer

/-! ## Composition -/

namespace Manager

variable {m m₁ p p' q q' r r' n : Manager} {a b c ab bc x y t : Transformer}

/-- The second manager is orderly, and its pool holds all that the first one's holds. -/
structure Becomes (m m' : Manager) : Prop where
  orderly : m'.Orderly
  keeps : m.pool.Extends m'.pool

theorem Orderly.becomes (hm : m.Orderly) (h : m.Evolves n) : m.Becomes n := ⟨h.orderly hm, h.keeps⟩

theorem Orderly.outline_identity (hm : m.Orderly) : m.identity.outline = .blank := by
  obtain ⟨hadd, hremove, _⟩ := Transformer.fields_of_contents hm.blank
  rw [Transformer.outline, hm.edit_identity, hadd, hremove]
  rfl

/-- **Composing canonical transformers composes their outlines**, and gives a canonical
transformer. -/
theorem compose_outline (hm : m.Orderly) (ha : m.pool.Holds a) (hb : m.pool.Holds b)
    (hasequence : a.sequence = none) (hbsequence : b.sequence = none)
    (h : Yields (compose a b) m c m₁) :
    m₁.pool.Holds c ∧ c.sequence = none ∧ c.outline = a.outline.comp b.outline := by
  refine ⟨(compose_evolves h).2 ha hb, (compose_edit hm ha hb hasequence hbsequence h).1, ?_⟩
  rcases compose_outcome h with ⟨_, rfl, hback⟩ | ⟨_, rfl, _, hserial⟩ |
    ⟨_, _, hclear, hserial, _, hcontents⟩
  · rw [Outline.comp_eq_right]
    refine hback.imp_right fun hserial => ?_
    rw [hm.eq_identity ha hserial, hm.outline_identity]
  · rw [hm.eq_identity hb hserial, hm.outline_identity, Outline.comp_blank]
  · have hne : a.outline ≠ .blank := fun hblank =>
      hserial ((hm.serial_eq_iff ha).mpr (Transformer.contents_eq_blank hasequence hblank))
    rw [Transformer.outline_eq_of_contents hcontents, Transformer.outline_merge hasequence hclear,
      Outline.comp_eq_merge hclear hne]

/-- The identity in front of a transformer gives way to it. -/
theorem compose_identity_left (m : Manager) (t : Transformer) :
    Yields (compose m.identity t) m t m := by
  by_cases hclear : t.clear = true <;> simp [compose, hclear]

/-- The identity behind a canonical transformer gives way to it. -/
theorem compose_identity_right (hm : m.Orderly) (ht : m.pool.Holds t) :
    Yields (compose t m.identity) m t m := by
  have hclear : m.identity.clear = false := (Transformer.fields_of_contents hm.blank).2.2.1
  by_cases hserial : t.serial = m.identity.serial
  · obtain rfl := hm.eq_identity ht hserial
    exact compose_identity_left m m.identity
  · simp [compose, hclear, hserial]

/-- **Composition without sequences is associative, and the identity is its unit.**  Each of the
four compositions takes place in a manager of its own, which is what the one before it became, so
that anything may happen in between.  The two results are the same instance, which is canonical. -/
theorem compose_assoc (hm : m.Orderly) (ha : m.pool.Holds a) (hb : m.pool.Holds b)
    (hc : m.pool.Holds c) (hasequence : a.sequence = none) (hbsequence : b.sequence = none)
    (hcsequence : c.sequence = none) (hab : Yields (compose a b) m ab m₁) (hp : m₁.Becomes p)
    (hx : Yields (compose ab c) p x p') (hq : m.Becomes q) (hbc : Yields (compose b c) q bc q')
    (hr : q'.Becomes r) (hy : Yields (compose a bc) r y r') (hpn : p'.Becomes n)
    (hrn : r'.Becomes n) :
    (x = y ∧ x.sequence = none ∧ n.pool.Holds x) ∧
      ∀ t, m.pool.Holds t → Yields (compose m.identity t) m t m ∧
        Yields (compose t m.identity) m t m := by
  refine ⟨?_, fun t ht => ⟨compose_identity_left m t, compose_identity_right hm ht⟩⟩
  have hm₁ := (compose_evolves hab).1.keeps
  have hq' := (compose_evolves hbc).1.keeps
  obtain ⟨habheld, habsequence, haboutline⟩ := compose_outline hm ha hb hasequence hbsequence hab
  obtain ⟨hxheld, hxsequence, hxoutline⟩ := compose_outline hp.orderly (habheld.mono hp.keeps)
    ((hc.mono hm₁).mono hp.keeps) habsequence hcsequence hx
  obtain ⟨hbcheld, hbcsequence, hbcoutline⟩ :=
    compose_outline hq.orderly (hb.mono hq.keeps) (hc.mono hq.keeps)
      hbsequence hcsequence hbc
  obtain ⟨hyheld, hysequence, hyoutline⟩ := compose_outline hr.orderly
    (((ha.mono hq.keeps).mono hq').mono hr.keeps) (hbcheld.mono hr.keeps) hasequence hbcsequence hy
  have houtline : x.outline = y.outline := by
    rw [hxoutline, haboutline, hyoutline, hbcoutline, Outline.comp_assoc]
  have hkey : x.key = y.key :=
    Transformer.key_eq_iff.mpr (Transformer.contents_eq_of_outline hxsequence hysequence houtline)
  have hxn : n.pool.Holds x := hxheld.mono hpn.keeps
  exact ⟨Item.transformer.inj (Pool.eq_of_key hxn (hyheld.mono hrn.keeps) hkey), hxsequence, hxn⟩

/-- An orderly manager can come to hold a transformer with any edits. -/
theorem Orderly.exists_holds_draft (hm : m.Orderly) (add remove : OptionalSet) (clear : Bool) :
    ∃ (n : Manager) (t : Transformer), m.Becomes n ∧ n.pool.Holds t ∧
      t.contents = .draft add remove clear none := by
  obtain ⟨t, n, ht⟩ := Yields.exists_run (intern (.draft add remove clear none)) m
  obtain ⟨hevolves, hheld, hcontents⟩ := intern_evolves (Bench.admits_new rfl) ht
  exact ⟨n, t, hm.becomes hevolves, hheld, hcontents.trans (Transformer.contents_draft _ _ _ _)⟩

/-- An element is added, another one removed and added, and then an empty set is added. -/
theorem compose_assoc_refreshed :
    ∃ (m m₁ p q r : Manager) (a b c ab bc x y : Transformer), m.Orderly ∧
    (m.pool.Holds a ∧ a.contents = .draft (some (.singleton (.string "y"))) none false none) ∧
    (m.pool.Holds b ∧
      b.contents =
        .draft (some (.singleton (.string "x"))) (some (.singleton (.string "x"))) false none) ∧
    (m.pool.Holds c ∧ c.contents = .draft (some .empty) none false none) ∧
    Yields (compose a b) m ab m₁ ∧ Yields (compose ab c) m₁ x p ∧ Yields (compose b c) p bc q ∧
    Yields (compose a bc) q y r ∧ (x = y ∧ x.sequence = none ∧ r.pool.Holds x) ∧
    ∀ t, m.pool.Holds t → Yields (compose m.identity t) m t m ∧
      Yields (compose t m.identity) m t m := by
  obtain ⟨m₂, a, hm₂, ha, hacontents⟩ :=
    (create_interns hash).2.exists_holds_draft (some (.singleton (.string "y"))) none false
  obtain ⟨m₃, b, hm₃, hb, hbcontents⟩ :=
    hm₂.orderly.exists_holds_draft (some (.singleton (.string "x")))
      (some (.singleton (.string "x"))) false
  obtain ⟨m, c, hm, hc, hccontents⟩ := hm₃.orderly.exists_holds_draft (some .empty) none false
  obtain ⟨ab, m₁, hab⟩ := Yields.exists_run (compose a b) m
  obtain ⟨x, p, hx⟩ := Yields.exists_run (compose ab c) m₁
  obtain ⟨bc, q, hbc⟩ := Yields.exists_run (compose b c) p
  obtain ⟨y, r, hy⟩ := Yields.exists_run (compose a bc) q
  have hm₁ := (compose_evolves hab).1
  have hp := (compose_evolves hx).1
  have hq := (compose_evolves hbc).1
  have hr := (compose_evolves hy).1
  have horderly := hm₁.orderly hm.orderly
  have ha' := (ha.mono hm₃.keeps).mono hm.keeps
  have hb' := hb.mono hm.keeps
  refine ⟨m, m₁, p, q, r, a, b, c, ab, bc, x, y, hm.orderly, ⟨ha', hacontents⟩, ⟨hb', hbcontents⟩,
    ⟨hc, hccontents⟩, hab, hx, hbc, hy, ?_⟩
  exact compose_assoc hm.orderly ha' hb' hc (Transformer.fields_of_contents hacontents).2.2.2
    (Transformer.fields_of_contents hbcontents).2.2.2
      (Transformer.fields_of_contents hccontents).2.2.2 hab
    (horderly.becomes (.refl _)) hx (hm.orderly.becomes (hm₁.trans hp)) hbc
    (((hp.trans hq).orderly horderly).becomes (.refl _)) hy
      ((hp.orderly horderly).becomes (hq.trans hr))
    ((((hp.trans hq).trans hr).orderly horderly).becomes (.refl _))

end Manager

end FieldFlow
