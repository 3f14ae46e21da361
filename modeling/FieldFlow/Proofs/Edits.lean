import FieldFlow.Manager
import FieldFlow.Proofs.Keys
import Mathlib.Data.List.Nodup
import Mathlib.Data.Set.Disjoint
import Mathlib.Data.Set.Lattice
import Mathlib.Order.CompletePartialOrder
import Mathlib.Tactic.Tauto

/-!
# Edits of member sets

What a transformer does to a field whose content is known depends on three things: whether it clears
the field, and which elements it takes away and adds.  These make an edit.  Merging the sets of two
transformers composes their edits, and where the later one does not both add and remove an element,
the composed edit acts as the one after the other.

Main definitions: `OptionalSet.members`, `Edit`, `Edit.andThen`, `Edit.act`, `Transformer.edit`.
Main results: `OptionalSet.eq_of_members`, `Edit.andThen_assoc`, `Edit.act_andThen`,
`Transformer.members_mergeEdits`.
-/

namespace FieldFlow

/-! ## Members -/

namespace ElementSet

theorem mem_union {s t : ElementSet} {x : Element} :
    x ∈ (s.union t).toList ↔ x ∈ s.toList ∨ x ∈ t.toList :=
  Keyed.mem_union fun _ _ => Element.key_injective

/-- A difference holds the elements that the second set lacks. -/
theorem mem_diff {s t : ElementSet} {x : Element} :
    x ∈ (s.diff t).toList ↔ x ∈ s.toList ∧ x ∉ t.toList := by
  rw [diff, Keyed.mem_filter, decide_eq_true_eq]

theorem mem_ofList {l : List Element} {x : Element} : x ∈ (ofList l).toList ↔ x ∈ l :=
  Keyed.mem_ofList fun _ _ => Element.key_injective

end ElementSet

namespace OptionalSet

/-- The elements of a set; an absent set has none. -/
def members (s : OptionalSet) : Set Element := {x | x ∈ s.elements}

@[simp]
theorem members_none : members none = ∅ := by
  ext x
  simp [members, elements]

theorem mem_members_some {s : ElementSet} {x : Element} : x ∈ members (some s) ↔ x ∈ s.toList :=
  Iff.rfl

@[simp]
theorem members_singleton (x : Element) : members (some (ElementSet.singleton x)) = {x} := by
  ext y
  rw [mem_members_some]
  simp [ElementSet.singleton, Keyed.singleton, Keyed.toList]

theorem members_add (s : OptionalSet) (t : ElementSet) :
    members (s.add t) = members s ∪ members (some t) := by
  ext x
  rw [add, mem_members_some, ElementSet.mem_union, Set.mem_union]
  cases s with
  | none => simp [Keyed.empty, Keyed.toList, mem_members_some]
  | some s => rfl

theorem members_subtract (s : OptionalSet) (t : ElementSet) :
    members (s.subtract t) = members s \ members (some t) := by
  ext x
  cases s with
  | none => simp [subtract]
  | some s => exact ElementSet.mem_diff

theorem isEmpty_iff {t : ElementSet} : t.isEmpty = true ↔ members (some t) = ∅ := by
  rw [Set.eq_empty_iff_forall_notMem]
  exact (List.isEmpty_iff.trans List.map_eq_nil_iff.symm).trans List.eq_nil_iff_forall_not_mem

/-- Adding the elements of a set that may be absent. -/
@[simp]
theorem members_extend (s t : OptionalSet) : members (s.extend t) = members s ∪ members t := by
  cases t with
  | none => simp [extend]
  | some t =>
    rw [extend]
    split
    · rename_i hempty
      rw [isEmpty_iff.mp hempty, Set.union_empty]
    · exact members_add s t

/-- Taking away the elements of a set that may be absent. -/
@[simp]
theorem members_reduce (s t : OptionalSet) : members (s.reduce t) = members s \ members t := by
  cases t with
  | none => simp [reduce]
  | some t => exact members_subtract s t

/-- The elements of a set are in the order of their keys. -/
theorem pairwise_elements (s : OptionalSet) : s.elements.Pairwise fun x y => x.key < y.key := by
  cases s with
  | none => exact .nil
  | some set => exact Keyed.pairwise_toList set

/-- Elements in the order of their keys are those of the set that they make up. -/
theorem elements_eq {s : OptionalSet} {xs : List Element}
    (hordered : xs.Pairwise fun x y => x.key < y.key) (hmembers : members s = {x | x ∈ xs}) :
    elements s = xs := by
  have hnodup : ∀ l : List Element, l.Pairwise (fun x y => x.key < y.key) → l.Nodup :=
    fun l hl => (List.pairwise_map.mpr hl).nodup.of_map Element.key
  have hsame : ∀ x, x ∈ s.elements ↔ x ∈ xs := fun x => Set.ext_iff.mp hmembers x
  have hperm :=
    (List.perm_ext_iff_of_nodup (hnodup _ (pairwise_elements s)) (hnodup _ hordered)).mpr hsame
  exact hperm.eq_of_pairwise
    (fun x y _ _ hxy hyx => absurd (String.lt_trans hxy hyx) (String.lt_irrefl _))
      (pairwise_elements s)
    hordered

/-- Sets with the same members are the same, if both are present or both absent. -/
theorem eq_of_members {s t : OptionalSet} (hpresent : s.isSome ↔ t.isSome)
    (hmembers : members s = members t) :
    s = t := by
  have helements : s.elements = t.elements := elements_eq (pairwise_elements t) hmembers
  cases s with
  | none =>
    cases t with
    | none => rfl
    | some t => simp at hpresent
  | some s =>
    cases t with
    | none => simp at hpresent
    | some t => exact congrArg some (Keyed.ext helements)

/-- Taking elements away leaves a set present or absent. -/
@[simp]
theorem isSome_reduce (s t : OptionalSet) : (s.reduce t).isSome = s.isSome := by
  cases t <;> simp [reduce, subtract]

/-- Adding makes a set present if there is something to add. -/
theorem isSome_extend (s t : OptionalSet) :
    (s.extend t).isSome ↔ s.isSome ∨ (members t).Nonempty := by
  cases t with
  | none => simp [extend]
  | some t =>
    rw [extend]
    split
    · rename_i hempty
      rw [isEmpty_iff.mp hempty, or_iff_left Set.not_nonempty_empty]
    · rename_i hempty
      rw [isEmpty_iff] at hempty
      exact iff_of_true rfl (.inr (Set.nonempty_iff_ne_empty.mpr hempty))

end OptionalSet

/-! ## Edits -/

/-- What a transformer does to a field at once: it may clear the field, then it takes elements away,
then it adds some. -/
@[ext]
structure Edit where
  clear : Bool
  add : Set Element
  remove : Set Element

namespace Edit

/-- The content after the edit. -/
def act (e : Edit) (s : Set Element) : Set Element :=
  ((if e.clear then ∅ else s) \ e.remove) ∪ e.add

/-- One edit after another, as merging makes it: clearing forgets the first edit, and what the
second edit undoes of the first is dropped. -/
def andThen (e f : Edit) : Edit :=
  if f.clear then f else ⟨e.clear, (e.add ∪ f.add) \ f.remove, (e.remove \ f.add) ∪ f.remove⟩

/-- The edit clears the field, or adds nothing that it removes. -/
def Regular (e : Edit) : Prop := e.clear = true ∨ Disjoint e.add e.remove

/-- The edit that changes nothing. -/
def none : Edit := ⟨false, ∅, ∅⟩

/-- Doing nothing leaves the content as it is. -/
@[simp]
theorem act_none (s : Set Element) : none.act s = s := by simp [act, none]

/-- A clearing edit takes the place of what came before. -/
theorem andThen_of_clear {e f : Edit} (h : f.clear = true) : e.andThen f = f := by
  rw [andThen, if_pos h]

theorem andThen_of_not_clear {e f : Edit} (h : f.clear = false) :
    e.andThen f = ⟨e.clear, (e.add ∪ f.add) \ f.remove, (e.remove \ f.add) ∪ f.remove⟩ := by
  rw [andThen, if_neg (by simp [h])]

/-- Doing nothing afterwards changes no edit. -/
@[simp]
theorem andThen_none (e : Edit) : e.andThen none = e := by
  rw [andThen_of_not_clear rfl]
  simp [none]

/-- **Merging is associative**, also for edits that both add and remove an element. -/
theorem andThen_assoc (e f g : Edit) : (e.andThen f).andThen g = e.andThen (f.andThen g) := by
  cases hg : g.clear with
  | true => rw [andThen_of_clear hg, andThen_of_clear hg, andThen_of_clear hg]
  | false =>
    cases hf : f.clear with
    | true =>
      have hfg : (f.andThen g).clear = true := by rw [andThen_of_not_clear hg, hf]
      rw [andThen_of_clear hf, andThen_of_clear hfg]
    | false =>
      have hfg : (f.andThen g).clear = false := by rw [andThen_of_not_clear hg, hf]
      rw [andThen_of_not_clear hfg, andThen_of_not_clear hg, andThen_of_not_clear hf,
        andThen_of_not_clear hg]
      ext x
      · rfl
      · simp only [Set.mem_sdiff, Set.mem_union]
        tauto
      · simp only [Set.mem_sdiff, Set.mem_union]
        tauto

/-- **Merging acts as one edit after the other**, if the later edit clears the field or adds nothing
that it removes. -/
theorem act_andThen {e f : Edit} (hf : f.Regular) (s : Set Element) :
    (e.andThen f).act s = f.act (e.act s) := by
  cases hclear : f.clear with
  | true => simp [andThen_of_clear hclear, act, hclear]
  | false =>
    have hdisjoint : ∀ x ∈ f.add, x ∉ f.remove :=
      fun x hx => Set.disjoint_left.mp (hf.resolve_left (by simp [hclear])) hx
    rw [andThen_of_not_clear hclear]
    ext x
    have hx := hdisjoint x
    simp only [act, hclear, Set.mem_union, Set.mem_sdiff, Bool.false_eq_true, if_false]
    tauto

/-- Merging keeps what is added and what is removed apart, whether or not the edits clear the
field. -/
theorem disjoint_andThen {e f : Edit} (he : Disjoint e.add e.remove)
    (hf : Disjoint f.add f.remove) :
    Disjoint (e.andThen f).add (e.andThen f).remove := by
  cases hclear : f.clear with
  | true => rwa [andThen_of_clear hclear]
  | false =>
    rw [andThen_of_not_clear hclear, Set.disjoint_left]
    intro x hadd hremove
    have hx : x ∈ e.add → x ∉ e.remove := fun h => Set.disjoint_left.mp he h
    simp only [Set.mem_sdiff, Set.mem_union] at hadd hremove
    tauto

theorem Regular.andThen {e f : Edit} (he : e.Regular) (hf : f.Regular) : (e.andThen f).Regular := by
  cases hclear : f.clear with
  | true => rwa [andThen_of_clear hclear]
  | false =>
    rcases he with he | he
    · exact .inl (by rw [andThen_of_not_clear hclear, he])
    · exact .inr (disjoint_andThen he (hf.resolve_left (by simp [hclear])))

end Edit

namespace Transformer

/-- What the transformer does at once, apart from its sequence. -/
def edit (t : Transformer) : Edit :=
  ⟨t.clear, OptionalSet.members t.add, OptionalSet.members t.remove⟩

/-- **Merged sets** have the members of the merged edit. -/
theorem members_mergeEdits {first second : Transformer} (h : second.clear = false) :
    (⟨first.clear, OptionalSet.members (Manager.mergeEdits first second).1,
      OptionalSet.members (Manager.mergeEdits first second).2⟩ : Edit)
      = first.edit.andThen second.edit := by
  rw [Edit.andThen_of_not_clear h]
  unfold Manager.mergeEdits edit
  cases second.add with
  | none => cases second.remove <;> simp [OptionalSet.members_add, OptionalSet.members_subtract]
  | some added =>
    cases second.remove <;> simp [OptionalSet.members_add, OptionalSet.members_subtract]

end Transformer

end FieldFlow
