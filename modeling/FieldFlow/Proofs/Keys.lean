import FieldFlow.PathValue
import FieldFlow.Proofs.Collections
import FieldFlow.Proofs.Encoding
import Mathlib.Data.List.Perm.Subperm

/-!
# Keys and contents

The key of a transformer, of a field value or of a path value encodes its contents: everything but
the serial numbers, which tell instances apart.  Keys are compared wherever contents are meant, so
they must agree exactly when the contents do.

Main definitions: `Transformer.contents`, `Value.contents`, `PathValue.contents`.
Main result: `key_eq_iff_contents_eq`.
-/

namespace FieldFlow

/-! ## Elements -/

namespace Element

/-- No type name holds a colon, so the colon of a key ends it. -/
theorem colon_notMem_typeName (x : Element) : ':' ∉ x.typeName.toList := by
  cases x <;> simp only [typeName] <;> decide

/-- The characters that type names start with. -/
theorem typeName_head (x : Element) :
    x.typeName.toList.head? ∈ [some 's', some 'i', some 'b', some '<'] := by
  cases x <;> simp only [typeName] <;> decide

/-- The type and the display form determine an element. -/
theorem eq_of_typeName_display {x y : Element} (htype : x.typeName = y.typeName)
    (hdisplay : x.display = y.display) : x = y := by
  cases x with
  | string t =>
    cases y with
    | string u => exact congrArg string hdisplay
    | _ => exact absurd htype (by simp only [typeName]; decide)
  | int n =>
    cases y with
    | int k => exact congrArg int (Integer.display_injective hdisplay)
    | _ => exact absurd htype (by simp only [typeName]; decide)
  | int64 n =>
    cases y with
    | int64 k => exact congrArg int64 (Integer.display_injective hdisplay)
    | _ => exact absurd htype (by simp only [typeName]; decide)
  | bool b =>
    cases y with
    | bool c => cases b <;> cases c <;> first | rfl | exact absurd hdisplay (by decide)
    | _ => exact absurd htype (by simp only [typeName]; decide)
  | nil =>
    cases y with
    | nil => rfl
    | _ => exact absurd htype (by simp only [typeName]; decide)

theorem toList_key (x : Element) :
    x.key.toList = x.typeName.toList ++ ':' :: (Text.quote x.display).toList := by
  rw [key, String.toList_append, String.toList_append, List.append_assoc]
  rfl

theorem delimits_key (x : Element) : Delimits key id x := by
  intro y r s h
  rw [toList_key, toList_key, List.append_assoc, List.append_assoc, List.cons_append,
    List.cons_append] at h
  obtain ⟨htype, hrest⟩ :=
    front_cancel _ _ _ _ (colon_notMem_typeName x) (colon_notMem_typeName y) h
  obtain ⟨hdisplay, hrs⟩ := Text.delimits_quote _ _ _ _ hrest
  exact ⟨eq_of_typeName_display (String.toList_inj.mp htype) hdisplay, hrs⟩

theorem key_injective {x y : Element} (h : x.key = y.key) : x = y := (delimits_key x).view_eq h

/-- A key starts with the first character of a type name. -/
theorem key_head (x : Element) :
    ∃ c rest, x.key.toList = c :: rest ∧ c ∈ ['s', 'i', 'b', '<'] := by
  have hhead := typeName_head x
  rw [toList_key]
  cases hname : x.typeName.toList with
  | nil => exact absurd hhead (by rw [hname]; decide)
  | cons c rest => exact ⟨c, _, rfl, by simpa [hname] using hhead⟩

end Element

/-! ## Sets -/

namespace ElementSet

theorem delimits_key (s : ElementSet) : Delimits key id s := by
  intro t r u h
  simp only [key, Keyed.keys_eq, String.toList_append, List.append_assoc] at h
  have hstart : ∀ x : Element, ∃ c rest, x.key.toList = c :: rest ∧ c ≠ '\x7d' := by
    intro x
    obtain ⟨c, rest, hx, hc⟩ := Element.key_head x
    exact ⟨c, rest, hx, by rintro rfl; simp at hc⟩
  obtain ⟨hmembers, hru⟩ := joined_cancel (show ',' ≠ '\x7d' by decide) hstart
    (fun x _ => Element.delimits_key x) (List.cons.inj h).2
  rw [List.map_id, List.map_id] at hmembers
  exact ⟨Keyed.ext hmembers, hru⟩

end ElementSet

namespace OptionalSet

/-- The key of a set that may be absent delimits itself; an absent set is not an empty one. -/
theorem delimits_key (s : OptionalSet) : Delimits key id s := by
  intro t r u h
  cases s with
  | none =>
    cases t with
    | none => exact ⟨rfl, (List.cons.inj h).2⟩
    | some t =>
      simp only [key, ElementSet.key, String.toList_append, List.append_assoc] at h
      exact absurd (List.cons.inj h).1 (by decide)
  | some s =>
    cases t with
    | none =>
      simp only [key, ElementSet.key, String.toList_append, List.append_assoc] at h
      exact absurd (List.cons.inj h).1 (by decide)
    | some t =>
      obtain ⟨hst, hru⟩ := ElementSet.delimits_key s t r u h
      exact ⟨congrArg some hst, hru⟩

end OptionalSet

/-! ## References -/

namespace Ref

theorem toList_key (ref : Ref) :
    ref.key.toList = ref.symbol.key.toList ++ '/' :: (ref.point.key.toList ++ '/' ::
      ((Text.quote ref.op).toList ++ '/' :: ((Text.quote ref.type).toList ++ '/' ::
        (Text.quote ref.field).toList))) := by
  have hslash : ("/" : String).toList = ['/'] := rfl
  rw [key, toList_intercalate_cons, hslash]
  simp only [List.flatMap_cons, List.flatMap_nil, List.append_nil, List.cons_append,
    List.nil_append]

theorem delimits_key (ref : Ref) : Delimits key id ref := by
  intro other r s h
  rw [toList_key, toList_key] at h
  simp only [List.append_assoc, List.cons_append] at h
  obtain ⟨hsymbol, h⟩ := Element.delimits_key _ _ _ _ h
  obtain ⟨hpoint, h⟩ := Element.delimits_key _ _ _ _ (List.cons.inj h).2
  obtain ⟨hop, h⟩ := Text.delimits_quote _ _ _ _ (List.cons.inj h).2
  obtain ⟨htype, h⟩ := Text.delimits_quote _ _ _ _ (List.cons.inj h).2
  obtain ⟨hfield, hrs⟩ := Text.delimits_quote _ _ _ _ (List.cons.inj h).2
  cases ref
  cases other
  simp only [id] at hsymbol hpoint hop htype hfield
  exact ⟨by rw [hsymbol, hpoint, hop, htype, hfield], hrs⟩

/-- A key starts with the first character of a type name. -/
theorem key_head (ref : Ref) :
    ∃ c rest, ref.key.toList = c :: rest ∧ c ∈ ['s', 'i', 'b', '<'] := by
  obtain ⟨c, rest, hsymbol, hc⟩ := Element.key_head ref.symbol
  rw [toList_key, hsymbol]
  exact ⟨c, _, rfl, hc⟩

end Ref

/-! ## Contents of transformers -/

mutual

/-- The transformer with every serial number erased, also those of the transformers that its
sequence holds. -/
def Transformer.contents : Transformer → Transformer
  | ⟨_, add, remove, clear, sequence⟩ => ⟨0, add, remove, clear, Sequence.contentsOf sequence⟩

/-- A sequence with every serial number erased. -/
def Sequence.contentsOf : Option (List (Step Transformer)) → Option (List (Step Transformer))
  | none => none
  | some steps => some (Sequence.stepContents steps)

/-- Steps with every serial number erased. -/
def Sequence.stepContents : List (Step Transformer) → List (Step Transformer)
  | [] => []
  | step :: rest => Sequence.contentsOfStep step :: Sequence.stepContents rest

/-- A step with every serial number erased. -/
def Sequence.contentsOfStep : Step Transformer → Step Transformer
  | ⟨ref, after⟩ => ⟨ref, Sequence.afterContents after⟩

/-- Transformers with every serial number erased. -/
def Sequence.afterContents : List Transformer → List Transformer
  | [] => []
  | t :: rest => t.contents :: Sequence.afterContents rest

end

namespace Sequence

theorem stepContents_eq (steps : Sequence) : stepContents steps = steps.map contentsOfStep := by
  induction steps with
  | nil => rfl
  | cons step rest ih => rw [stepContents, ih, List.map_cons]

/-- The contents of transformers are those of each. -/
theorem afterContents_eq (after : List Transformer) :
    afterContents after = after.map Transformer.contents := by
  induction after with
  | nil => rfl
  | cons t rest ih => rw [afterContents, ih, List.map_cons]

theorem stepKeys_eq (steps : Sequence) : stepKeys steps = steps.map stepKey := by
  induction steps with
  | nil => rfl
  | cons step rest ih => rw [stepKeys, ih, List.map_cons]

/-- The keys of transformers are those of each. -/
theorem afterKeys_eq (after : List Transformer) : afterKeys after = after.map Transformer.key := by
  induction after with
  | nil => rfl
  | cons t rest ih => rw [afterKeys, ih, List.map_cons]

end Sequence

/-- **Induction on transformers**: a property that passes from the transformers inside a sequence to
the one that carries it holds of all. -/
@[elab_as_elim]
theorem Transformer.nested_induction {motive : Transformer → Prop}
    (h : ∀ t : Transformer, (∀ steps, t.sequence = some steps → ∀ step ∈ steps, ∀ u ∈ step.after,
      motive u) → motive t) (t : Transformer) : motive t := by
  apply h t
  intro steps hsteps step hstep u hu
  have hsize : sizeOf u < sizeOf t := by
    have hstepSize := List.sizeOf_lt_of_mem hstep
    have huSize := List.sizeOf_lt_of_mem hu
    cases t
    cases step
    simp only at hsteps hu huSize
    subst hsteps
    simp only [Transformer.mk.sizeOf_spec, Step.mk.sizeOf_spec, Option.some.sizeOf_spec] at *
    omega
  exact Transformer.nested_induction h u
termination_by sizeOf t

/-! ## Keys of transformers -/

namespace Sequence

/-- The key of a step as a list of characters. -/
theorem toList_stepKey (step : Step Transformer) :
    (stepKey step).toList = ((step.ref.map Ref.key).getD "").toList ++ '(' ::
      ((String.intercalate "," (step.after.map Transformer.key)).toList ++ [')']) := by
  cases step
  simp only [stepKey, afterKeys_eq, String.toList_append, List.append_assoc]
  rfl

/-- A step without a reference starts with a parenthesis, any other with a type name. -/
theorem stepKey_head (step : Step Transformer) :
    ∃ c rest, (stepKey step).toList = c :: rest ∧ c ≠ '>' ∧ (c = '(' ↔ step.ref = none) := by
  rw [toList_stepKey]
  cases href : step.ref with
  | none => exact ⟨'(', _, rfl, by decide, by simp⟩
  | some ref =>
    obtain ⟨c, rest, hkey, hc⟩ := Ref.key_head ref
    refine ⟨c, rest ++ _, by rw [Option.map_some, Option.getD_some, hkey]; rfl, ?_, ?_⟩
    · rintro rfl
      simp at hc
    · constructor
      · rintro rfl
        simp at hc
      · simp

/-- The key of a transformer as a list of characters. -/
theorem toList_transformerKey (t : Transformer) :
    t.key.toList = 't' :: ((if t.clear then "true" else "false").toList ++ '|' ::
      ((OptionalSet.key t.add).toList ++ '|' :: ((OptionalSet.key t.remove).toList ++ '|' ::
        (keyOf t.sequence).toList))) := by
  cases t
  simp only [Transformer.key, String.toList_append, List.append_assoc]
  rfl

/-- A step delimits itself if the transformers after its reference do. -/
theorem delimits_stepKey {step : Step Transformer}
    (hafter : ∀ u ∈ step.after, Delimits Transformer.key Transformer.contents u) :
    Delimits stepKey contentsOfStep step := by
  intro other r s h
  -- whether there is a reference shows in the first character
  obtain ⟨c, rest, hhead, _, hc⟩ := stepKey_head step
  obtain ⟨d, rest', hhead', _, hd⟩ := stepKey_head other
  have hcd : c = d := by
    rw [hhead, hhead'] at h
    exact (List.cons.inj h).1
  rw [toList_stepKey, toList_stepKey] at h
  have hrefs : step.ref = other.ref ∧
      (String.intercalate "," (step.after.map Transformer.key)).toList ++ ')' :: r
        = (String.intercalate "," (other.after.map Transformer.key)).toList ++ ')' :: s := by
    cases href : step.ref with
    | none =>
      have hother : other.ref = none := hd.mp (hcd ▸ hc.mpr href)
      rw [href, hother] at h
      simp only [List.append_assoc, List.cons_append] at h
      exact ⟨hother.symm, (List.cons.inj h).2⟩
    | some ref =>
      cases hother : other.ref with
      | none => exact absurd (hc.mp (hcd ▸ hd.mpr hother)) (by rw [href]; simp)
      | some ref' =>
        rw [href, hother] at h
        simp only [Option.map_some, Option.getD_some, List.append_assoc, List.cons_append] at h
        obtain ⟨heq, h⟩ := Ref.delimits_key _ _ _ _ h
        exact ⟨congrArg some heq, (List.cons.inj h).2⟩
  have hstart : ∀ u : Transformer, ∃ c rest, u.key.toList = c :: rest ∧ c ≠ ')' :=
    fun u => ⟨'t', _, toList_transformerKey u, by decide⟩
  obtain ⟨hcontents, hrs⟩ := joined_cancel (show ',' ≠ ')' by decide) hstart hafter hrefs.2
  cases step
  cases other
  simp only [contentsOfStep, afterContents_eq]
  exact ⟨by rw [hcontents]; exact congrArg (Step.mk · _) hrefs.1, hrs⟩

/-- A sequence delimits itself if the transformers inside do; no sequence is not one without
steps. -/
theorem delimits_keyOf {sequence : Option Sequence}
    (hall : ∀ steps, sequence = some steps → ∀ step ∈ steps, ∀ u ∈ step.after,
      Delimits Transformer.key Transformer.contents u) :
    Delimits keyOf contentsOf sequence := by
  intro other r s h
  cases sequence with
  | none =>
    cases other with
    | none => exact ⟨rfl, (List.cons.inj h).2⟩
    | some others =>
      simp only [keyOf, String.toList_append, List.append_assoc] at h
      exact absurd (List.cons.inj h).1 (by decide)
  | some steps =>
    cases other with
    | none =>
      simp only [keyOf, String.toList_append, List.append_assoc] at h
      exact absurd (List.cons.inj h).1 (by decide)
    | some others =>
      simp only [keyOf, stepKeys_eq, String.toList_append, List.append_assoc] at h
      have hstart : ∀ step : Step Transformer,
          ∃ c rest, (stepKey step).toList = c :: rest ∧ c ≠ '>' := by
        intro step
        obtain ⟨c, rest, hhead, hc, _⟩ := stepKey_head step
        exact ⟨c, rest, hhead, hc⟩
      obtain ⟨hcontents, hrs⟩ := joined_cancel (show ';' ≠ '>' by decide) hstart
        (fun step hstep => delimits_stepKey (hall steps rfl step hstep)) (List.cons.inj h).2
      simp only [contentsOf, stepContents_eq]
      exact ⟨congrArg some hcontents, hrs⟩

end Sequence

namespace Transformer

/-- The contents of a transformer, part by part. -/
theorem contents_eq (t : Transformer) :
    t.contents = ⟨0, t.add, t.remove, t.clear, Sequence.contentsOf t.sequence⟩ := by
  cases t
  rw [contents]

/-- The key of a transformer delimits itself. -/
theorem delimits_key (t : Transformer) : Delimits key contents t := by
  induction t using nested_induction with
  | h t ih =>
    intro u r s h
    rw [Sequence.toList_transformerKey, Sequence.toList_transformerKey] at h
    simp only [List.append_assoc, List.cons_append] at h
    have hclear : t.clear = u.clear := by
      cases ht : t.clear <;> cases hu : u.clear
      · rfl
      · simp [ht, hu] at h
      · simp [ht, hu] at h
      · rfl
    rw [hclear] at h
    have hsets := List.append_cancel_left (List.cons.inj h).2
    obtain ⟨hadd, h⟩ := OptionalSet.delimits_key _ _ _ _ (List.cons.inj hsets).2
    obtain ⟨hremove, h⟩ := OptionalSet.delimits_key _ _ _ _ (List.cons.inj h).2
    obtain ⟨hsequence, hrs⟩ := Sequence.delimits_keyOf ih _ _ _ (List.cons.inj h).2
    simp only [id] at hadd hremove
    exact ⟨by rw [contents_eq, contents_eq, hadd, hremove, hclear, hsequence], hrs⟩

end Transformer

/-! ## The key shows the contents and nothing else -/

/-- The key of a step looks only at the contents. -/
theorem Sequence.stepKey_contentsOfStep {step : Step Transformer}
    (hafter : ∀ u ∈ step.after, u.contents.key = u.key) :
    stepKey (contentsOfStep step) = stepKey step := by
  cases step with
  | mk ref after =>
    have hkeys : (after.map Transformer.contents).map Transformer.key
        = after.map Transformer.key := by
      rw [List.map_map]
      exact List.map_congr_left hafter
    rw [contentsOfStep, afterContents_eq, stepKey, stepKey, afterKeys_eq, afterKeys_eq, hkeys]

/-- The key of a sequence looks only at the contents. -/
theorem Sequence.keyOf_contentsOf {sequence : Option Sequence}
    (hall : ∀ steps, sequence = some steps → ∀ step ∈ steps, ∀ u ∈ step.after,
      u.contents.key = u.key) :
    keyOf (contentsOf sequence) = keyOf sequence := by
  cases sequence with
  | none => rfl
  | some steps =>
    have hkeys : (steps.map contentsOfStep).map stepKey = steps.map stepKey := by
      rw [List.map_map]
      exact List.map_congr_left fun step hstep => stepKey_contentsOfStep (hall steps rfl step hstep)
    rw [contentsOf, stepContents_eq, keyOf, keyOf, stepKeys_eq, stepKeys_eq, hkeys]

namespace Transformer

/-- The key of a transformer looks only at the contents. -/
theorem key_contents (t : Transformer) : t.contents.key = t.key := by
  induction t using nested_induction with
  | h t ih =>
    have hsequence := Sequence.keyOf_contentsOf ih
    cases t
    rw [contents, key, key, hsequence]

/-- Transformers have the same key exactly if they have the same contents. -/
theorem key_eq_iff {t u : Transformer} : t.key = u.key ↔ t.contents = u.contents := by
  constructor
  · exact (delimits_key t).view_eq
  · intro h
    rw [← key_contents t, h, key_contents]

end Transformer

namespace Value

/-- The value with every serial number erased. -/
def contents (v : Value) : Value := ⟨0, v.set, Sequence.contentsOf v.sequence⟩

/-- The key of a value as a list of characters. -/
theorem toList_key (v : Value) :
    v.key.toList = 'v' :: ((OptionalSet.key v.set).toList ++ '|' ::
      (Sequence.keyOf v.sequence).toList) := by
  simp only [key, String.toList_append, List.append_assoc]
  rfl

theorem delimits_key (v : Value) : Delimits key contents v := by
  intro w r s h
  rw [toList_key, toList_key] at h
  simp only [List.append_assoc, List.cons_append] at h
  obtain ⟨hset, h⟩ := OptionalSet.delimits_key _ _ _ _ (List.cons.inj h).2
  obtain ⟨hsequence, hrs⟩ := Sequence.delimits_keyOf
    (fun _ _ _ _ u _ => Transformer.delimits_key u) _ _ _ (List.cons.inj h).2
  simp only [id] at hset
  exact ⟨by rw [contents, contents, hset, hsequence], hrs⟩

/-- The key of a value looks only at the contents. -/
theorem key_contents (v : Value) : v.contents.key = v.key := by
  rw [contents, key, key,
    Sequence.keyOf_contentsOf fun _ _ _ _ u _ => Transformer.key_contents u]

/-- Values have the same key exactly if they have the same contents. -/
theorem key_eq_iff {v w : Value} : v.key = w.key ↔ v.contents = w.contents := by
  constructor
  · exact (delimits_key v).view_eq
  · intro h
    rw [← key_contents v, h, key_contents]

end Value

/-- A transformer and a field value never share a key: the first character tells them apart. -/
theorem Transformer.key_ne_valueKey (t : Transformer) (v : Value) : t.key ≠ v.key := by
  intro h
  have hlist := congrArg String.toList h
  rw [Sequence.toList_transformerKey, Value.toList_key] at hlist
  exact absurd (List.cons.inj hlist).1 (by decide)

/-! ## Path values -/

namespace PathValue

/-- An entry with every serial number erased. -/
def contentsOfEntry (entry : String × Option Value) : String × Option Value :=
  (entry.1, entry.2.map Value.contents)

/-- The tracked fields in the order of their names, with every serial number erased. -/
def contents (p : PathValue) : List (String × Option Value) := p.fields.toList.map contentsOfEntry

/-- The part of the key that stands for one entry. -/
def entryKey (entry : String × Option Value) : String :=
  Text.quote entry.1 ++ "=" ++ (entry.2.map Value.key).getD "nil"

theorem key_eq_intercalate (p : PathValue) :
    p.key = String.intercalate "," ((p.fields.toList.mergeSort
      (fun a b => decide (entryKey a ≤ entryKey b))).map entryKey) := by
  rw [List.map_mergeSort (s := fun a b => decide (a ≤ b)) (fun _ _ _ _ => rfl)]
  rfl

/-- The part of a value, or of none, delimits itself. -/
theorem delimits_optionKey (v : Option Value) :
    Delimits (fun v : Option Value => (v.map Value.key).getD "nil")
      (Option.map Value.contents) v := by
  intro w r s h
  cases v with
  | none =>
    cases w with
    | none => exact ⟨rfl, List.append_cancel_left h⟩
    | some w =>
      simp only [Option.map_some, Option.getD_some, Value.toList_key] at h
      exact absurd (List.cons.inj h).1 (by decide)
  | some v =>
    cases w with
    | none =>
      simp only [Option.map_some, Option.getD_some, Value.toList_key] at h
      exact absurd (List.cons.inj h).1 (by decide)
    | some w =>
      obtain ⟨hvw, hrs⟩ := Value.delimits_key v w r s h
      exact ⟨by rw [Option.map_some, Option.map_some, hvw], hrs⟩

theorem delimits_entryKey (entry : String × Option Value) :
    Delimits entryKey contentsOfEntry entry := by
  intro other r s h
  simp only [entryKey, String.toList_append, List.append_assoc] at h
  obtain ⟨hname, h⟩ := Text.delimits_quote _ _ _ _ h
  obtain ⟨hvalue, hrs⟩ := delimits_optionKey _ _ _ _ (List.cons.inj h).2
  simp only [id] at hname
  exact ⟨by rw [contentsOfEntry, contentsOfEntry, hname, hvalue], hrs⟩

/-- The part of an entry looks only at the contents. -/
theorem entryKey_contentsOfEntry (entry : String × Option Value) :
    entryKey (contentsOfEntry entry) = entryKey entry := by
  obtain ⟨name, v⟩ := entry
  cases v with
  | none => rfl
  | some v =>
    simp only [entryKey, contentsOfEntry, Option.map_some, Option.getD_some, Value.key_contents]

/-- The part of an entry starts with a quote. -/
theorem entryKey_head (entry : String × Option Value) :
    ∃ rest, (entryKey entry).toList = '"' :: rest := by
  rw [entryKey, String.toList_append, String.toList_append, Text.quote, String.toList_ofList]
  exact ⟨_, rfl⟩

/-- The names of the tracked fields increase strictly. -/
theorem pairwise_contents (p : PathValue) : p.contents.Pairwise (fun a b => a.1 < b.1) := by
  rw [contents, List.pairwise_map]
  exact p.fields.pairwise_toList

/-- Paths that track the same fields with the same contents, in whatever order, are alike. -/
theorem contents_eq_of_perm {p q : PathValue} (h : p.contents.Perm q.contents) :
    p.contents = q.contents := by
  refine h.eq_of_pairwise ?_ p.pairwise_contents q.pairwise_contents
  intro a b _ _ hab hba
  exact absurd hba (String.lt_asymm hab)

/-- Paths have the same key exactly if they have the same contents. -/
theorem key_eq_iff {p q : PathValue} : p.key = q.key ↔ p.contents = q.contents := by
  constructor
  · intro h
    rw [key_eq_intercalate, key_eq_intercalate] at h
    have hstart : ∀ entry, ∃ c rest, (entryKey entry).toList = c :: rest ∧ c ≠ '\x7d' := by
      intro entry
      obtain ⟨rest, hrest⟩ := entryKey_head entry
      exact ⟨'"', rest, hrest, by decide⟩
    have hclosed := congrArg (fun k => k.toList ++ ['\x7d']) h
    obtain ⟨hcontents, _⟩ := joined_cancel (show ',' ≠ '\x7d' by decide) hstart
      (fun entry _ => delimits_entryKey entry) hclosed
    -- the parts stand in the order of their texts, which need not be that of the names
    have hp := (List.mergeSort_perm p.fields.toList
      (fun a b => decide (entryKey a ≤ entryKey b))).map contentsOfEntry
    have hq := (List.mergeSort_perm q.fields.toList
      (fun a b => decide (entryKey a ≤ entryKey b))).map contentsOfEntry
    rw [hcontents] at hp
    exact contents_eq_of_perm (hp.symm.trans hq)
  · intro h
    have hparts : ∀ p : PathValue, p.fields.toList.map entryKey = p.contents.map entryKey := by
      intro p
      rw [contents, List.map_map]
      exact List.map_congr_left fun entry _ => (entryKey_contentsOfEntry entry).symm
    show String.intercalate "," ((p.fields.toList.map entryKey).mergeSort _)
      = String.intercalate "," ((q.fields.toList.map entryKey).mergeSort _)
    rw [hparts, hparts, h]

/-! ## Equality of path values -/

theorem entry?_eq_some {p : PathValue} {name : String} {v : Option Value} :
    p.entry? name = some v ↔ (name, v) ∈ p.fields.toList := by
  unfold entry?
  rw [Option.map_eq_some_iff]
  constructor
  · rintro ⟨⟨name', v'⟩, hfound, rfl⟩
    obtain ⟨hmem, rfl⟩ := Keyed.find?_eq_some.mp hfound
    exact hmem
  · intro hmem
    exact ⟨(name, v), Keyed.find?_eq_some.mpr ⟨hmem, rfl⟩, rfl⟩

/-- Entries count as equal if their contents are. -/
theorem sameContents_eq_true {v w : Option Value} :
    sameContents v w = true ↔ v.map Value.contents = w.map Value.contents := by
  cases v with
  | none => cases w <;> simp [sameContents]
  | some v =>
    cases w with
    | none => simp [sameContents]
    | some w => simp [sameContents, Value.key_eq_iff]

/-- An entry of a path is matched in another if the other has the same contents there. -/
theorem any_sameContents {q : PathValue} {entry : String × Option Value} :
    (q.entry? entry.1).any (sameContents entry.2) = true ↔ contentsOfEntry entry ∈ q.contents := by
  rw [contents, List.mem_map, Option.any_eq_true]
  constructor
  · rintro ⟨w, hfound, hsame⟩
    refine ⟨(entry.1, w), entry?_eq_some.mp hfound, ?_⟩
    rw [contentsOfEntry, contentsOfEntry, sameContents_eq_true.mp hsame]
  · rintro ⟨⟨name, w⟩, hmem, heq⟩
    obtain ⟨hname, hcontents⟩ := Prod.mk.inj heq
    simp only at hname hcontents
    subst hname
    exact ⟨w, entry?_eq_some.mpr hmem, sameContents_eq_true.mpr hcontents.symm⟩

theorem nodup_contents (p : PathValue) : p.contents.Nodup := by
  refine p.pairwise_contents.imp ?_
  rintro a b hab rfl
  exact String.lt_irrefl _ hab

/-- Paths count as equal exactly if they have the same contents. -/
theorem equal_eq_true {p q : PathValue} : p.equal q = true ↔ p.contents = q.contents := by
  have hsize : ∀ p : PathValue, p.contents.length = p.fields.size := by
    intro p
    rw [contents, List.length_map, Keyed.toList, List.length_map, Keyed.size]
  rw [equal, Bool.and_eq_true, decide_eq_true_eq, List.all_eq_true]
  constructor
  · rintro ⟨hlength, hall⟩
    have hsubset : p.contents ⊆ q.contents := by
      intro x hx
      obtain ⟨entry, hentry, rfl⟩ := List.mem_map.mp hx
      exact any_sameContents.mp (hall entry hentry)
    have hle : q.contents.length ≤ p.contents.length :=
      Nat.le_of_eq (by rw [hsize, hsize, hlength])
    exact contents_eq_of_perm ((p.nodup_contents.subperm hsubset).perm_of_length_le hle)
  · intro h
    refine ⟨by rw [← hsize, ← hsize, h], ?_⟩
    intro entry hentry
    rw [any_sameContents, ← h]
    exact List.mem_map.mpr ⟨entry, hentry, rfl⟩

end PathValue

/-! ## The main result -/

/-- **Keys show exactly the contents.**  Transformers, field values and path values have equal keys
if and only if they agree in everything but serial numbers; the keys of transformers are never those
of values; and paths count as equal if and only if their keys are equal. -/
theorem key_eq_iff_contents_eq :
    (∀ t u : Transformer, t.key = u.key ↔ t.contents = u.contents) ∧
      (∀ v w : Value, v.key = w.key ↔ v.contents = w.contents) ∧
      (∀ p q : PathValue, p.key = q.key ↔ p.contents = q.contents) ∧
      (∀ (t : Transformer) (v : Value), t.key ≠ v.key) ∧
      (∀ p q : PathValue, p.equal q = true ↔ p.key = q.key) := by
  refine ⟨fun _ _ => Transformer.key_eq_iff, fun _ _ => Value.key_eq_iff,
    fun _ _ => PathValue.key_eq_iff, Transformer.key_ne_valueKey, ?_⟩
  intro p q
  rw [PathValue.equal_eq_true, PathValue.key_eq_iff]

end FieldFlow
