import FieldFlow.Proofs.Replay

/-!
# Composition is sound through deferral

Composing two transformers before a value is known, and applying them to it one after the other,
leave different sequences behind: consecutive edits are merged on one side and kept apart on the
other.  What the sequences stand for agrees nevertheless.  The argument looks at choices up to their
shape, which is all that further composition and the final application can tell of them.

Main definitions: `Instance.shape`, `Value.Alike`, `Resolver.Fixed`.
Main results: `Transformer.alike_on_comp`, `Resolver.finalValues_compose_apply`.
-/

namespace FieldFlow

/-! ## Shapes -/

/-- What composition can tell of the first of two instances, up to absent and empty sets. -/
@[ext]
structure Shape where
  edit : Edit
  waits : Bool
  isUnit : Bool
  isBlank : Bool

namespace Shape

/-- The shape of an instance with this shape after a plain edit. -/
def push (s : Shape) (e : Edit) : Shape where
  edit := if s.isUnit then e else if s.waits then s.edit else s.edit.andThen e
  waits := !s.isUnit && s.waits
  isUnit := false
  isBlank := false

/-- Two edits one after the other are pushed as their merge. -/
theorem push_push (s : Shape) (e f : Edit) : (s.push e).push f = s.push (e.andThen f) := by
  cases hunit : s.isUnit <;> cases hwaits : s.waits <;>
    simp [push, hunit, hwaits, Edit.andThen_assoc]

end Shape

namespace Instance

/-- The shape of an instance. -/
def shape (c : Instance) : Shape := ⟨c.body.edit, c.body.sequence.isSome, c.isUnit, c.body.isBlank⟩

/-- Only a blank instance passes for the identity. -/
def Genuine (c : Instance) : Prop := c.isUnit = true → c.body.isBlank = true

theorem genuine_canonical (t : Transformer) : (canonical t).Genuine := fun h => h

/-- What genuine instances compose to is genuine. -/
theorem Genuine.comp {c d : Instance} (hc : c.Genuine) (hd : d.Genuine) : (c.comp d).Genuine := by
  unfold Instance.comp
  split
  · exact hd
  · split
    · exact hd
    · split
      · exact hc
      · exact genuine_canonical _

/-- What a genuine instance composes to with canonical transformers is genuine. -/
theorem Genuine.compAll {c : Instance} (hc : c.Genuine) (after : List Transformer) :
    (c.compAll after).Genuine := by
  induction after generalizing c with
  | nil => exact hc
  | cons t rest ih => exact ih (hc.comp (genuine_canonical t))

end Instance

namespace Transformer

variable {t first second : Transformer}

theorem isBlank_of_plain (hsequence : t.sequence = none) (hclear : t.clear = false) :
    t.isBlank = !t.hasEdits := by
  rw [isBlank, hasEdits, hsequence, hclear]
  cases t.add <;> cases t.remove <;> rfl

theorem edit_of_isBlank (h : t.isBlank = true) : t.edit = Edit.none := by
  unfold isBlank at h
  simp only [Bool.and_eq_true, Bool.not_eq_true', Option.isNone_iff_eq_none] at h
  obtain ⟨⟨⟨hadd, hremove⟩, hclear⟩, _⟩ := h
  simp [edit, hadd, hremove, hclear, Edit.none]

theorem sequence_of_isBlank (h : t.isBlank = true) : t.sequence = none := by
  unfold isBlank at h
  simp only [Bool.and_eq_true, Option.isNone_iff_eq_none] at h
  exact h.2

/-- Merging onto a sequence leaves the edit to the first transformer. -/
theorem shape_merge_of_some {steps : Sequence} (h : first.sequence = some steps) :
    (Instance.canonical (first.merge second)).shape = ⟨first.edit, true, false, false⟩ := by
  have hsome : ∀ (s : Sequence) (o : Option Sequence),
      (Sequence.concat (some s) o).isSome = true := by
    intro s o
    cases o with
    | none => rfl
    | some steps => cases steps <;> rfl
  have hmerge : (first.merge second).sequence.isSome = true := by
    rw [merge_of_some h]
    exact hsome _ _
  have hblank : (first.merge second).isBlank = false := by
    rw [← Bool.not_eq_true]
    intro hblank
    rw [sequence_of_isBlank hblank] at hmerge
    exact absurd hmerge (by simp)
  have hedit : (first.merge second).edit = first.edit := by
    rw [merge_of_some h]
    rfl
  rw [Instance.shape, Instance.canonical, hblank, hmerge, hedit]

/-- Merging onto plain edits merges the edits. -/
theorem shape_merge_of_none (h : first.sequence = none) (hclear : second.clear = false) :
    (Instance.canonical (first.merge second)).shape =
      ⟨first.edit.andThen second.edit, (Sequence.concat none second.sequence).isSome,
        first.isBlank && !second.hasEdits && (Sequence.concat none second.sequence).isNone,
        first.isBlank && !second.hasEdits && (Sequence.concat none second.sequence).isNone⟩ := by
  have hblank : (first.merge second).isBlank
      = (first.isBlank && !second.hasEdits && (Sequence.concat none second.sequence).isNone) := by
    rw [merge_of_none h]
    unfold isBlank hasEdits Manager.mergeEdits
    simp only [draft, h]
    cases first.add <;> cases first.remove <;> cases second.add <;> cases second.remove <;>
      simp [OptionalSet.add, OptionalSet.subtract]
  have hedit : (first.merge second).edit = first.edit.andThen second.edit := by
    rw [← members_mergeEdits hclear, merge_of_none h]
    rfl
  have hsequence : (first.merge second).sequence = Sequence.concat none second.sequence := by
    rw [merge_of_none h]
    rfl
  rw [Instance.shape, Instance.canonical, hblank, hedit, hsequence]

end Transformer

namespace Instance

/-- **The shape of a composition** depends on no more than the shape of its first part. -/
theorem shape_comp {c c' : Instance} (h : c.shape = c'.shape) (d : Instance) :
    (c.comp d).shape = (c'.comp d).shape := by
  have hedit : c.body.edit = c'.body.edit := congrArg Shape.edit h
  have hwaits : c.body.sequence.isSome = c'.body.sequence.isSome := congrArg Shape.waits h
  have hunit : c.isUnit = c'.isUnit := congrArg Shape.isUnit h
  have hblank : c.body.isBlank = c'.body.isBlank := congrArg Shape.isBlank h
  unfold comp
  rw [hunit]
  split
  · rfl
  · rename_i hclear
    split
    · rfl
    · split
      · exact h
      · cases hs : c.body.sequence with
        | none =>
          have hs' : c'.body.sequence = none := by simpa [hs] using hwaits
          have hfalse : d.body.clear = false := by simpa using hclear
          rw [Transformer.shape_merge_of_none hs hfalse, Transformer.shape_merge_of_none hs' hfalse,
            hedit, hblank]
        | some steps =>
          obtain ⟨steps', hs'⟩ : ∃ steps', c'.body.sequence = some steps' :=
            Option.isSome_iff_exists.mp (by rw [← hwaits, hs]; rfl)
          rw [Transformer.shape_merge_of_some hs, Transformer.shape_merge_of_some hs', hedit]

/-- The shape after canonical transformers depends on no more than the shape before them. -/
theorem shape_compAll {c c' : Instance} (h : c.shape = c'.shape) (after : List Transformer) :
    (c.compAll after).shape = (c'.compAll after).shape := by
  induction after generalizing c c' with
  | nil => exact h
  | cons t rest ih => exact ih (shape_comp h _)

/-- A blank transformer behind a genuine instance does not show. -/
theorem shape_comp_blank {c : Instance} (hc : c.Genuine) {t : Transformer} (ht : t.isBlank = true) :
    (c.comp (canonical t)).shape = c.shape := by
  have hclear : t.clear = false := congrArg Edit.clear (Transformer.edit_of_isBlank ht)
  have hshape : ∀ u : Transformer, u.isBlank = true →
      (⟨u, true⟩ : Instance).shape = ⟨Edit.none, false, true, true⟩ := by
    intro u hu
    rw [shape, Transformer.edit_of_isBlank hu, Transformer.sequence_of_isBlank hu, hu]
    rfl
  unfold comp canonical
  rw [if_neg (by simp [hclear]), ht, if_pos rfl]
  split
  · rename_i hunit
    obtain ⟨body, isUnit⟩ := c
    have hu : isUnit = true := hunit
    subst hu
    rw [hshape t ht, hshape body (hc rfl)]
  · rfl

/-- The shape after plain edits that do not clear the field. -/
theorem shape_comp_edits (c : Instance) {t : Transformer} (hsequence : t.sequence = none)
    (hclear : t.clear = false) (hedits : t.hasEdits = true) :
    (c.comp (canonical t)).shape = c.shape.push t.edit := by
  have hblank : t.isBlank = false := by
    rw [Transformer.isBlank_of_plain hsequence hclear, hedits]
    rfl
  unfold comp Shape.push
  rw [if_neg (by simp [canonical, hclear])]
  cases hunit : c.isUnit with
  | true => simp [shape, canonical, hunit, hsequence, hblank]
  | false =>
    rw [if_neg (by simp), if_neg (by simp [canonical, hblank])]
    cases hs : c.body.sequence with
    | some steps => exact (Transformer.shape_merge_of_some hs).trans (by simp [shape, hunit, hs])
    | none =>
      refine (Transformer.shape_merge_of_none hs hclear).trans ?_
      simp [shape, hunit, hs, hsequence, hedits, Sequence.concat]

/-- **Consecutive edits may be merged** before they are composed onto an instance, if the first of
them has a set at all. -/
theorem shape_comp_merge (c : Instance) {p q : Transformer} (hp : p.sequence = none)
    (hpclear : p.clear = false) (hpedits : p.hasEdits = true) (hq : q.sequence = none)
    (hqclear : q.clear = false) :
    ((c.comp (canonical p)).comp (canonical q)).shape = (c.comp (canonical (p.merge q))).shape := by
  have hmerge := Transformer.shape_merge_of_none hp hqclear
  have hpblank : p.isBlank = false := by
    rw [Transformer.isBlank_of_plain hp hpclear, hpedits]
    rfl
  have hedit : (p.merge q).edit = p.edit.andThen q.edit := congrArg Shape.edit hmerge
  have hsequence : (p.merge q).sequence = none := by
    have hwaits : (p.merge q).sequence.isSome = _ := congrArg Shape.waits hmerge
    rw [hq] at hwaits
    simpa [Sequence.concat] using hwaits
  have hclear : (p.merge q).clear = false := by
    have hclear : (p.merge q).clear = (p.edit.andThen q.edit).clear := congrArg Edit.clear hedit
    rw [Edit.andThen_of_not_clear hqclear] at hclear
    exact hclear.trans hpclear
  have hedits : (p.merge q).hasEdits = true := by
    have hblank : (p.merge q).isBlank = _ := congrArg Shape.isBlank hmerge
    rw [Transformer.isBlank_of_plain hsequence hclear, hpblank] at hblank
    simpa using hblank
  have hfirst := shape_comp_edits c hp hpclear hpedits
  rw [shape_comp_edits c hsequence hclear hedits, hedit]
  cases hqedits : q.hasEdits with
  | true => rw [shape_comp_edits _ hq hqclear hqedits, hfirst, Shape.push_push]
  | false =>
    have hqblank : q.isBlank = true := by rw [Transformer.isBlank_of_plain hq hqclear, hqedits]; rfl
    have hgenuine : (c.comp (canonical p)).Genuine := by
      intro hunit
      have hfalse : (c.comp (canonical p)).isUnit = false := congrArg Shape.isUnit hfirst
      rw [hfalse] at hunit
      exact absurd hunit (by simp)
    rw [shape_comp_blank hgenuine hqblank, hfirst, Transformer.edit_of_isBlank hqblank,
      Edit.andThen_none]

end Instance

/-! ## Sets of choices -/

section Choices

variable {answers : Ref → Set (Option Instance)} {current current' : Set (Option Instance)}

/-- The shapes of choices. -/
def shapes (current : Set (Option Instance)) : Set (Option Shape) :=
  Option.map Instance.shape '' current

/-- The choices, each followed by a canonical transformer. -/
def appended (t : Transformer) (current : Set (Option Instance)) : Set (Option Instance) :=
  Option.map (fun c => c.comp (.canonical t)) '' current

/-- Only blank choices pass for the identity. -/
def AllGenuine (current : Set (Option Instance)) : Prop := ∀ c, some c ∈ current → c.Genuine

/-- The shape of a layered choice depends on no more than the shape of its first part. -/
theorem shape_layered {c c' : Option Instance} (h : c.map Instance.shape = c'.map Instance.shape)
    (after : List Transformer) (d : Option Instance) :
    (layered after c d).map Instance.shape = (layered after c' d).map Instance.shape := by
  cases c with
  | none =>
    cases c' with
    | none => rfl
    | some c' => exact absurd h (by simp)
  | some c =>
    cases c' with
    | none => exact absurd h (by simp)
    | some c' =>
      cases d with
      | none => rfl
      | some d =>
        have hshape := Instance.shape_compAll (Instance.shape_comp (Option.some.inj h) d) after
        exact congrArg some hshape

/-- Choices with fewer shapes go on to choices with fewer shapes. -/
theorem shapes_replays_subset (h : shapes current ⊆ shapes current') (steps : Sequence) :
    shapes (replays answers steps current) ⊆ shapes (replays answers steps current') := by
  induction steps generalizing current current' with
  | nil => exact h
  | cons step rest ih =>
    apply ih
    rintro _ ⟨_, ⟨c, hc, d, hd, rfl⟩, rfl⟩
    obtain ⟨c', hc', hshape⟩ := h ⟨c, hc, rfl⟩
    exact ⟨_, ⟨c', hc', d, hd, rfl⟩, shape_layered hshape step.after d⟩

/-- **The shapes of a replay** depend on no more than the shapes of the choices it starts from. -/
theorem shapes_replays (h : shapes current = shapes current') (steps : Sequence) :
    shapes (replays answers steps current) = shapes (replays answers steps current') :=
  Set.Subset.antisymm (shapes_replays_subset h.subset steps)
    (shapes_replays_subset h.symm.subset steps)

/-- Choices of the same shapes have the same shapes after another transformer. -/
theorem shapes_appended (h : shapes current = shapes current') (t : Transformer) :
    shapes (appended t current) = shapes (appended t current') := by
  have hsubset : ∀ {C C' : Set (Option Instance)}, shapes C ⊆ shapes C' →
      shapes (appended t C) ⊆ shapes (appended t C') := by
    rintro C C' hCC' _ ⟨_, ⟨c, hc, rfl⟩, rfl⟩
    obtain ⟨c', hc', hshape⟩ := hCC' ⟨c, hc, rfl⟩
    refine ⟨_, ⟨c', hc', rfl⟩, ?_⟩
    cases c with
    | none => cases c' <;> simp_all
    | some c =>
      cases c' with
      | none => exact absurd hshape (by simp)
      | some c' => exact congrArg some (Instance.shape_comp (Option.some.inj hshape) _)
  exact Set.Subset.antisymm (hsubset h.subset) (hsubset h.symm.subset)

theorem replays_append (first second : Sequence) :
    replays answers (first ++ second) current =
      replays answers second (replays answers first current) := by
  induction first generalizing current with
  | nil => rfl
  | cons step rest ih => exact ih

/-- A transformer appended to a sequence follows every choice. -/
theorem replays_withTransformer {steps : Sequence} (hsteps : steps ≠ []) (t : Transformer) :
    replays answers (Sequence.withTransformer steps t) current
      = appended t (replays answers steps current) := by
  induction steps generalizing current with
  | nil => exact absurd rfl hsteps
  | cons step rest ih =>
    cases rest with
    | nil =>
      have hlayered : ∀ c d, layered (step.after ++ [t]) c d
          = (layered step.after c d).map fun c => c.comp (.canonical t) := by
        intro c d
        cases c with
        | none => rfl
        | some c =>
          cases d with
          | none => rfl
          | some d => simp [layered, Instance.compAll]
      have hchoices : choices answers ⟨step.ref, step.after ++ [t]⟩ = choices answers step := rfl
      ext x
      simp only [Sequence.withTransformer, replays, hchoices, appended, Set.mem_image,
        Set.mem_ofPred_eq]
      constructor
      · rintro ⟨c, hc, d, hd, rfl⟩
        exact ⟨_, ⟨c, hc, d, hd, rfl⟩, (hlayered c d).symm⟩
      · rintro ⟨_, ⟨c, hc, d, hd, rfl⟩, rfl⟩
        exact ⟨c, hc, d, hd, (hlayered c d).symm⟩
    | cons next rest => exact ih (by simp)

/-- A transformer appended to a sequence follows every choice, also if there are no steps yet. -/
theorem replays_withTransformer_identity (steps : Sequence) (t : Transformer) :
    replays answers (Sequence.withTransformer steps t) {some (.canonical .blank)}
      = appended t (replays answers steps {some (.canonical .blank)}) := by
  cases steps with
  | nil =>
    have hblank : (Instance.canonical .blank).comp (.canonical .blank) = .canonical .blank := rfl
    ext x
    simp [Sequence.withTransformer, replays, choices, appended, layered, Instance.compAll, hblank]
  | cons step rest => exact replays_withTransformer (by simp) t

/-- Replaying genuine alternatives gives genuine choices. -/
theorem AllGenuine.replays (hanswers : ∀ ref, AllGenuine (answers ref)) (h : AllGenuine current)
    (steps : Sequence) : AllGenuine (replays answers steps current) := by
  induction steps generalizing current with
  | nil => exact h
  | cons step rest ih =>
    apply ih
    rintro x ⟨c, hc, d, hd, hx⟩
    have hchoices : AllGenuine (choices answers step) := by
      unfold choices
      cases step.ref with
      | none =>
        intro c hc
        rw [Set.mem_singleton_iff, Option.some.injEq] at hc
        exact hc ▸ Instance.genuine_canonical _
      | some ref => exact hanswers ref
    cases c with
    | none => cases hx
    | some c =>
      cases d with
      | none => cases hx
      | some d =>
        rw [Option.some.inj hx]
        exact ((h c hc).comp (hchoices d hd)).compAll step.after

/-- A blank transformer behind genuine choices does not show. -/
theorem shapes_appended_blank (h : AllGenuine current) {t : Transformer} (ht : t.isBlank = true) :
    shapes (appended t current) = shapes current := by
  have hshape : ∀ c ∈ current, (c.map fun c => c.comp (.canonical t)).map Instance.shape
      = c.map Instance.shape := by
    intro c hc
    cases c with
    | none => rfl
    | some c => exact congrArg some (Instance.shape_comp_blank (h c hc) ht)
  ext s
  constructor
  · rintro ⟨_, ⟨c, hc, rfl⟩, rfl⟩
    exact ⟨c, hc, (hshape c hc).symm⟩
  · rintro ⟨c, hc, rfl⟩
    exact ⟨_, ⟨c, hc, rfl⟩, hshape c hc⟩

/-- Consecutive edits may be merged before they follow every choice. -/
theorem shapes_appended_merge (current : Set (Option Instance)) {p q : Transformer}
    (hp : p.sequence = none) (hpclear : p.clear = false) (hpedits : p.hasEdits = true)
    (hq : q.sequence = none) (hqclear : q.clear = false) :
    shapes (appended q (appended p current)) = shapes (appended (p.merge q) current) := by
  have hshape : ∀ c : Option Instance,
      ((c.map fun c => c.comp (.canonical p)).map fun c => c.comp (.canonical q)).map Instance.shape
        = (c.map fun c => c.comp (.canonical (p.merge q))).map Instance.shape := by
    intro c
    cases c with
    | none => rfl
    | some c => exact congrArg some (c.shape_comp_merge hp hpclear hpedits hq hqclear)
  ext s
  constructor
  · rintro ⟨_, ⟨_, ⟨c, hc, rfl⟩, rfl⟩, rfl⟩
    exact ⟨_, ⟨c, hc, rfl⟩, (hshape c).symm⟩
  · rintro ⟨_, ⟨c, hc, rfl⟩, rfl⟩
    exact ⟨_, ⟨_, ⟨c, hc, rfl⟩, rfl⟩, hshape c⟩

end Choices

/-! ## Values -/

/-- What a value's references may make of it. -/
def Value.chosen (answers : Ref → Set (Option Instance)) (v : Value) : Set (Option Instance) :=
  replays answers (v.sequence.getD []) {some (.canonical .blank)}

/-- The two values both wait or both do not, their choices have the same shapes, and their sets have
the same members. -/
structure Value.Alike (answers : Ref → Set (Option Instance)) (v w : Value) : Prop where
  waits : v.sequence.isSome = w.sequence.isSome
  chosen : shapes (v.chosen answers) = shapes (w.chosen answers)
  members : OptionalSet.members v.set = OptionalSet.members w.set

namespace Value.Alike

variable {answers : Ref → Set (Option Instance)} {u v w : Value}

theorem refl (v : Value) : v.Alike answers v := ⟨rfl, rfl, rfl⟩

theorem symm (h : v.Alike answers w) : w.Alike answers v :=
  ⟨h.waits.symm, h.chosen.symm, h.members.symm⟩

/-- Values that are alike may turn out to be the same. -/
theorem outcomes_eq (h : v.Alike answers w) : outcomes answers v = outcomes answers w := by
  have hsubset : ∀ {v w : Value}, v.Alike answers w → outcomes answers v ⊆ outcomes answers w := by
    rintro v w hvw _ ⟨c, hc, rfl⟩
    obtain ⟨c', hc', hshape⟩ := hvw.chosen.subset ⟨c, hc, rfl⟩
    refine ⟨c', hc', ?_⟩
    rw [hvw.members]
    cases c with
    | none => cases c' <;> simp_all
    | some c =>
      cases c' with
      | none => exact absurd hshape (by simp)
      | some c' =>
        have hedit : c'.body.edit = c.body.edit := congrArg Shape.edit (Option.some.inj hshape)
        rw [Option.map_some, Option.map_some, hedit]
  exact Set.Subset.antisymm (hsubset h) (hsubset h.symm)

end Value.Alike

namespace Transformer

variable {answers : Ref → Set (Option Instance)} {t a b : Transformer} {v w : Value}

/-- A transformer that must wait is appended to the sequence of the value. -/
theorem on_of_some {steps : Sequence} (hclear : t.clear = false) (hv : v.sequence = some steps) :
    t.on v = .draft v.set
      (Sequence.concat (some (Sequence.withTransformer steps t.edits)) t.sequence) := by
  unfold on
  rw [hclear, hv]
  rfl

/-- A transformer that need not wait edits the set of the value. -/
theorem on_of_none (h : t.clear = true ∨ v.sequence = none) :
    (t.on v).sequence = Sequence.concat none t.sequence ∧
      OptionalSet.members (t.on v).set = t.edit.act (OptionalSet.members v.set) := by
  rcases h with hclear | hv
  · have hon : t.on v = t.on (.draft v.set none) := by
      unfold on
      rw [hclear]
      rfl
    rw [hon]
    exact ⟨by unfold on; rw [hclear]; rfl, members_on rfl⟩
  · refine ⟨?_, members_on hv⟩
    unfold on
    rw [hv]
    cases t.clear <;> rfl

/-- The choices after a transformer that must wait. -/
theorem chosen_on_of_some {steps : Sequence} (hclear : t.clear = false)
    (hv : v.sequence = some steps) :
    (t.on v).chosen answers =
      replays answers (t.sequence.getD []) (appended t.edits (v.chosen answers)) := by
  rw [Value.chosen, on_of_some hclear hv, Value.draft, Sequence.getD_concat, replays_append,
    Option.getD_some, replays_withTransformer_identity, Value.chosen, hv, Option.getD_some]

/-- The choices after a transformer that need not wait. -/
theorem chosen_on_of_none (h : t.clear = true ∨ v.sequence = none) :
    (t.on v).chosen answers = replays answers (t.sequence.getD []) {some (.canonical .blank)} := by
  rw [Value.chosen, (on_of_none h).1, Sequence.getD_concat]
  rfl

/-- **Transformers keep values alike.** -/
theorem alike_on (h : v.Alike answers w) (t : Transformer) : (t.on v).Alike answers (t.on w) := by
  by_cases hnow : t.clear = true ∨ v.sequence = none
  · have hnow' : t.clear = true ∨ w.sequence = none := by
      refine hnow.imp id fun hv => ?_
      have hw := h.waits
      rw [hv] at hw
      simpa using hw.symm
    obtain ⟨hseq, hmem⟩ := on_of_none hnow
    obtain ⟨hseq', hmem'⟩ := on_of_none hnow'
    refine ⟨by rw [hseq, hseq'], ?_, by rw [hmem, hmem', h.members]⟩
    rw [chosen_on_of_none hnow, chosen_on_of_none hnow']
  · obtain ⟨hclear, hv⟩ := not_or.mp hnow
    have hclear : t.clear = false := by simpa using hclear
    obtain ⟨steps, hv⟩ := Option.ne_none_iff_exists'.mp hv
    obtain ⟨steps', hw⟩ : ∃ steps', w.sequence = some steps' :=
      Option.isSome_iff_exists.mp (by rw [← h.waits, hv]; rfl)
    refine ⟨?_, ?_, ?_⟩
    · rw [on_of_some hclear hv, on_of_some hclear hw]
      exact (Sequence.isSome_concat_some _ _).trans (Sequence.isSome_concat_some _ _).symm
    · rw [chosen_on_of_some hclear hv, chosen_on_of_some hclear hw]
      exact shapes_replays (shapes_appended h.chosen _) _
    · rw [on_of_some hclear hv, on_of_some hclear hw]
      exact h.members

section Genuine

variable (hanswers : ∀ ref, AllGenuine (answers ref))

include hanswers

theorem genuine_chosen (v : Value) : AllGenuine (v.chosen answers) := by
  refine AllGenuine.replays hanswers ?_ _
  intro c hc
  rw [Set.mem_singleton_iff, Option.some.injEq] at hc
  exact hc ▸ Instance.genuine_canonical _

/-- A blank transformer leaves values as they are. -/
theorem alike_on_blank (ht : t.isBlank = true) (v : Value) : (t.on v).Alike answers v := by
  have hedit := edit_of_isBlank ht
  have hsequence := sequence_of_isBlank ht
  have hclear : t.clear = false := congrArg Edit.clear hedit
  cases hv : v.sequence with
  | none =>
    obtain ⟨hseq, hmem⟩ := on_of_none (t := t) (.inr hv)
    refine ⟨by rw [hseq, hsequence, hv]; rfl, ?_, by rw [hmem, hedit, Edit.act_none]⟩
    rw [chosen_on_of_none (.inr hv), hsequence, Value.chosen, hv]
  | some steps =>
    have hblank : t.edits.isBlank = true := by
      rw [isBlank_of_plain rfl rfl]
      rw [isBlank_of_plain hsequence hclear] at ht
      exact ht
    refine ⟨?_, ?_, by rw [on_of_some hclear hv]; rfl⟩
    · rw [on_of_some hclear hv, hv]
      exact Sequence.isSome_concat_some _ _
    · rw [chosen_on_of_some hclear hv, hsequence]
      exact shapes_appended_blank (genuine_chosen hanswers v) hblank

theorem alike_on_merge_of_some {steps : Sequence} (ha : a.sequence = some steps)
    (hsteps : steps ≠ []) (hb : b.clear = false) (v : Value) :
    ((a.merge b).on v).Alike answers (b.on (a.on v)) := by
  have hclear : (a.merge b).clear = a.clear := by rw [merge_of_some ha]; rfl
  have hedit : (a.merge b).edit = a.edit := by rw [merge_of_some ha]; rfl
  have hedits : (a.merge b).edits = a.edits := by rw [merge_of_some ha]; rfl
  have hmerge : (a.merge b).sequence.getD []
      = (if b.hasEdits then Sequence.withTransformer steps b.edits else steps) ++
        b.sequence.getD [] := by
    rw [merge_of_some ha]
    exact Sequence.getD_concat _ _
  have hne : (a.merge b).sequence.getD [] ≠ [] := by
    rw [hmerge]
    cases steps with
    | nil => exact absurd rfl hsteps
    | cons step rest => split <;> cases rest <;> simp [Sequence.withTransformer]
  -- both values wait, with the same set, and replay their sequences from the same choices
  obtain ⟨X, ⟨hwaits, hchosen⟩, ⟨hwaits', hchosen'⟩, hmembers⟩ : ∃ X,
      ((a.on v).sequence.isSome = true ∧ (a.on v).chosen answers = replays answers steps X) ∧
      (((a.merge b).on v).sequence.isSome = true ∧
        ((a.merge b).on v).chosen answers = replays answers ((a.merge b).sequence.getD []) X) ∧
      OptionalSet.members ((a.merge b).on v).set = OptionalSet.members (a.on v).set := by
    by_cases hnow : a.clear = true ∨ v.sequence = none
    · have hnow' : (a.merge b).clear = true ∨ v.sequence = none := by rwa [hclear]
      obtain ⟨hseq, hmem⟩ := on_of_none hnow
      obtain ⟨hseq', hmem'⟩ := on_of_none hnow'
      refine ⟨{some (.canonical .blank)}, ⟨?_, ?_⟩, ⟨?_, chosen_on_of_none hnow'⟩, ?_⟩
      · rw [hseq, Sequence.isSome_concat_none, ha]
        exact hsteps
      · rw [chosen_on_of_none hnow, ha]
        rfl
      · rw [hseq', Sequence.isSome_concat_none]
        exact hne
      · rw [hmem, hmem', hedit]
    · obtain ⟨hac, hv⟩ := not_or.mp hnow
      have hac : a.clear = false := by simpa using hac
      have hmc : (a.merge b).clear = false := hclear.trans hac
      obtain ⟨σ, hv⟩ := Option.ne_none_iff_exists'.mp hv
      refine ⟨appended a.edits (v.chosen answers), ⟨?_, ?_⟩, ⟨?_, ?_⟩, ?_⟩
      · rw [on_of_some hac hv]
        exact Sequence.isSome_concat_some _ _
      · rw [chosen_on_of_some hac hv, ha]
        rfl
      · rw [on_of_some hmc hv]
        exact Sequence.isSome_concat_some _ _
      · rw [chosen_on_of_some hmc hv, hedits]
      · rw [on_of_some hmc hv, on_of_some hac hv]
        rfl
  obtain ⟨τ, hτ⟩ := Option.isSome_iff_exists.mp hwaits
  refine ⟨?_, ?_, ?_⟩
  · rw [hwaits', on_of_some hb hτ]
    exact (Sequence.isSome_concat_some _ _).symm
  · rw [hchosen', hmerge, replays_append, chosen_on_of_some hb hτ]
    refine shapes_replays ?_ _
    cases hhas : b.hasEdits with
    | true => rw [if_pos rfl, replays_withTransformer hsteps, hchosen]
    | false =>
      have hblank : b.edits.isBlank = true := by
        rw [isBlank_of_plain rfl rfl]
        exact congrArg (! ·) hhas
      rw [if_neg (by simp), shapes_appended_blank (genuine_chosen hanswers _) hblank, hchosen]
  · rw [hmembers, on_of_some hb hτ]
    rfl

omit hanswers in
theorem alike_on_merge_of_none (ha : a.sequence = none) (hblank : a.isBlank = false)
    (hb : b.clear = false) (hregular : b.edit.Regular) (v : Value) :
    ((a.merge b).on v).Alike answers (b.on (a.on v)) := by
  have hclear : (a.merge b).clear = a.clear := by rw [merge_of_none ha]; rfl
  have hedits : (a.merge b).edits = a.edits.merge b.edits := by rw [merge_of_none ha]; rfl
  have hsequence : (a.merge b).sequence = Sequence.concat none b.sequence := by
    rw [merge_of_none ha]; rfl
  have hsteps : (a.merge b).sequence.getD [] = b.sequence.getD [] := by
    rw [hsequence, Sequence.getD_concat]
    rfl
  by_cases hnow : a.clear = true ∨ v.sequence = none
  · have hnow' : (a.merge b).clear = true ∨ v.sequence = none := by rwa [hclear]
    obtain ⟨hseq, hmem⟩ := on_of_none hnow
    obtain ⟨hseq', hmem'⟩ := on_of_none hnow'
    have hav : (a.on v).sequence = none := by
      rw [hseq, ha]
      rfl
    obtain ⟨hseq'', hmem''⟩ := on_of_none (t := b) (.inr hav)
    refine ⟨?_, ?_, ?_⟩
    · rw [hseq', hseq'', Bool.eq_iff_iff, Sequence.isSome_concat_none,
        Sequence.isSome_concat_none, hsteps]
    · rw [chosen_on_of_none hnow', chosen_on_of_none (.inr hav), hsteps]
    · have hedit : (a.merge b).edit = a.edit.andThen b.edit :=
        congrArg Shape.edit (shape_merge_of_none ha hb)
      rw [hmem', hmem'', hmem, hedit, Edit.act_andThen hregular]
  · obtain ⟨hac, hv⟩ := not_or.mp hnow
    have hac : a.clear = false := by simpa using hac
    have hmc : (a.merge b).clear = false := hclear.trans hac
    obtain ⟨σ, hv⟩ := Option.ne_none_iff_exists'.mp hv
    have hhas : a.hasEdits = true := by
      rw [isBlank_of_plain ha hac] at hblank
      simpa using hblank
    obtain ⟨τ, hτ⟩ : ∃ τ, (a.on v).sequence = some τ := by
      rw [on_of_some hac hv]
      exact Option.isSome_iff_exists.mp (Sequence.isSome_concat_some _ _)
    refine ⟨?_, ?_, ?_⟩
    · rw [on_of_some hmc hv, on_of_some hb hτ]
      exact (Sequence.isSome_concat_some _ _).trans (Sequence.isSome_concat_some _ _).symm
    · rw [chosen_on_of_some hmc hv, chosen_on_of_some hb hτ, chosen_on_of_some hac hv,
        hsteps, ha, hedits]
      exact shapes_replays
        (shapes_appended_merge (p := a.edits) (q := b.edits) _ rfl rfl hhas rfl rfl).symm _
    · rw [on_of_some hmc hv, on_of_some hb hτ, on_of_some hac hv]
      rfl

/-- **Composition is sound on contents**: what two canonical transformers compose to makes of a
value what the two make of it one after the other, if the second clears the field or adds nothing
that it removes. -/
theorem alike_on_comp (ha : a.sequence ≠ some []) (hb : b.edit.Regular) (v : Value) :
    ((Instance.comp (.canonical a) (.canonical b)).body.on v).Alike answers (b.on (a.on v)) := by
  rw [Instance.comp_canonical]
  by_cases hclear : b.clear = true
  · have hsame : ∀ v w : Value, b.on v = b.on w := by
      intro v w
      unfold on
      rw [hclear]
      rfl
    rw [if_pos hclear, hsame (a.on v) v]
    exact .refl _
  · rw [if_neg hclear]
    have hbc : b.clear = false := by simpa using hclear
    by_cases hablank : a.isBlank = true
    · rw [if_pos hablank]
      exact alike_on (alike_on_blank hanswers hablank v).symm b
    · rw [if_neg hablank]
      by_cases hbblank : b.isBlank = true
      · rw [if_pos hbblank]
        exact (alike_on_blank hanswers hbblank _).symm
      · rw [if_neg hbblank]
        cases hs : a.sequence with
        | none => exact alike_on_merge_of_none hs (by simpa using hablank) hbc hb v
        | some steps =>
          refine alike_on_merge_of_some hanswers hs ?_ hbc v
          rintro rfl
          exact ha hs

end Genuine

end Transformer

/-! ## References -/

namespace Resolver

variable {refused : Ref → Prop} {t a b : Transformer} {v : Value}

theorem refuses_append {first second : Sequence} :
    Refuses refused (first ++ second) ↔ Refuses refused first ∨ Refuses refused second := by
  unfold Refuses
  simp only [List.mem_append, or_and_right, exists_or]

/-- Appending a transformer adds no reference. -/
theorem refuses_withTransformer {steps : Sequence} :
    Refuses refused (Sequence.withTransformer steps t) ↔ Refuses refused steps := by
  unfold Refuses
  induction steps with
  | nil => simp [Sequence.withTransformer]
  | cons step rest ih =>
    cases rest with
    | nil => simp [Sequence.withTransformer]
    | cons next rest =>
      rw [Sequence.withTransformer_cons_cons, List.exists_mem_cons_iff, ih,
        List.exists_mem_cons_iff _ step]

theorem refuses_contents :
    Refuses refused (v.contents.sequence.getD []) ↔ Refuses refused (v.sequence.getD []) := by
  have hsequence : v.contents.sequence = Sequence.contentsOf v.sequence := rfl
  rw [hsequence]
  cases v.sequence with
  | none => rfl
  | some steps =>
    rw [Sequence.contentsOf_some]
    simp [Refuses, Sequence.contentsOfStep_eq]

/-- A clearing transformer leaves its own references. -/
theorem refuses_on_of_clear (h : t.clear = true) :
    Refuses refused ((t.on v).sequence.getD []) ↔ Refuses refused (t.sequence.getD []) := by
  rw [(Transformer.on_of_none (.inl h)).1, Sequence.getD_concat]
  rfl

/-- A transformer that does not clear adds its references to those of the value. -/
theorem refuses_on (h : t.clear = false) :
    Refuses refused ((t.on v).sequence.getD []) ↔
      Refuses refused (v.sequence.getD []) ∨ Refuses refused (t.sequence.getD []) := by
  cases hv : v.sequence with
  | none =>
    rw [(Transformer.on_of_none (.inr hv)).1, Sequence.getD_concat, refuses_append]
  | some steps =>
    rw [Transformer.on_of_some h hv, Value.draft, Sequence.getD_concat, refuses_append,
      Option.getD_some, refuses_withTransformer, Option.getD_some]

theorem refuses_merge :
    Refuses refused ((a.merge b).sequence.getD []) ↔
      Refuses refused (a.sequence.getD []) ∨ Refuses refused (b.sequence.getD []) := by
  cases ha : a.sequence with
  | none =>
    rw [Transformer.merge_of_none ha, Transformer.draft, Sequence.getD_concat, refuses_append]
  | some steps =>
    rw [Transformer.merge_of_some ha, Transformer.draft, Sequence.getD_concat, refuses_append,
      Option.getD_some]
    refine or_congr ?_ Iff.rfl
    split
    · exact refuses_withTransformer
    · rfl

/-- Composed and one after the other, two transformers leave the same references. -/
theorem refuses_on_comp :
    Refuses refused (((Instance.comp (.canonical a) (.canonical b)).body.on v).sequence.getD []) ↔
      Refuses refused ((b.on (a.on v)).sequence.getD []) := by
  have hnone : ∀ {t : Transformer}, t.isBlank = true → ¬ Refuses refused (t.sequence.getD []) := by
    intro t ht
    rw [Transformer.sequence_of_isBlank ht]
    simp [Refuses]
  have hblankClear : ∀ {t : Transformer}, t.isBlank = true → t.clear = false := fun ht =>
    congrArg Edit.clear (Transformer.edit_of_isBlank ht)
  rw [Instance.comp_canonical]
  by_cases hclear : b.clear = true
  · rw [if_pos hclear]
    exact (refuses_on_of_clear hclear).trans (refuses_on_of_clear hclear).symm
  · have hbc : b.clear = false := by simpa using hclear
    rw [if_neg hclear, refuses_on hbc]
    by_cases hablank : a.isBlank = true
    · rw [if_pos hablank, refuses_on (hblankClear hablank), or_iff_left (hnone hablank)]
      exact refuses_on hbc
    · rw [if_neg hablank]
      by_cases hbblank : b.isBlank = true
      · rw [if_pos hbblank, or_iff_left (hnone hbblank)]
        rfl
      · rw [if_neg hbblank]
        have hmc : (a.merge b).clear = a.clear := by
          cases ha : a.sequence with
          | none => rw [Transformer.merge_of_none ha]; rfl
          | some steps => rw [Transformer.merge_of_some ha]; rfl
        cases hac : a.clear with
        | true =>
          rw [refuses_on_of_clear hac, ← refuses_merge]
          exact refuses_on_of_clear (hmc.trans hac)
        | false =>
          rw [refuses_on hac, or_assoc, ← refuses_merge]
          exact refuses_on (hmc.trans hac)

end Resolver

/-! ## Resolvers with fixed alternatives -/

namespace Resolver

/-- What a workspace may become while a manager gives out instances and the resolver is asked for
alternatives. -/
inductive Reaches (r : Resolver) (w : Workspace) : Workspace → Prop
  | refl : Reaches r w w
  | managed {w₁ : Workspace} {m : Manager} :
    Reaches r w w₁ → w₁.manager.Grows m → Reaches r w { w₁ with manager := m }
  | asked {w₁ w₂ : Workspace} {found : Alternatives} {point symbol : Element}
      {field type op : String} :
    Reaches r w w₁ → Yields (r.alternatives point symbol field type op) w₁ found w₂ → Reaches r w w₂

/-- **The alternatives of the resolver are fixed.**  Whenever it is asked, it gives out instances
and changes none; it fails for the references that have no answer, and for all others its
alternatives are those of the answer, up to serial numbers.  Each of them is missing or free of
sequences, and none passes for the identity without being it. -/
structure Fixed (r : Resolver) (w : Workspace)
    (answer : Element → Element → String → String → String → Option (Set (Option Instance))) :
    Prop where
  grows : ∀ {w₁ w₂ found point symbol field type op}, r.Reaches w w₁ →
    Yields (r.alternatives point symbol field type op) w₁ found w₂ → w₁.manager.Grows w₂.manager
  fails_iff : ∀ {w₁ w₂ found point symbol field type op}, r.Reaches w w₁ →
    Yields (r.alternatives point symbol field type op) w₁ found w₂ →
    ((∃ fault, found.outcome = .error fault) ↔ answer point symbol field type op = none)
  view_eq : ∀ {w₁ w₂ found l point symbol field type op}, r.Reaches w w₁ →
    Yields (r.alternatives point symbol field type op) w₁ found w₂ → found.outcome = .ok l →
    answer point symbol field type op = some (w₂.manager.view l)
  plain : ∀ {w₁ w₂ found l point symbol field type op}, r.Reaches w w₁ →
    Yields (r.alternatives point symbol field type op) w₁ found w₂ → found.outcome = .ok l →
    ∀ t, some t ∈ l → t.sequence = none ∧
      (t.serial = w₂.manager.identity.serial → t = w₂.manager.identity)

variable {r : Resolver} {w w₁ : Workspace}
  {answer : Element → Element → String → String → String → Option (Set (Option Instance))}

/-- A workspace with a sound manager keeps it sound. -/
theorem Fixed.sound (hr : r.Fixed w answer) (hw : w.manager.Sound) (h : r.Reaches w w₁) :
    w.manager.Grows w₁.manager := by
  induction h with
  | refl => exact hw.grows
  | managed _ hgrows ih => exact ih.trans hgrows
  | asked hreaches hfound ih => exact ih.trans (hr.grows hreaches hfound)

/-- The answers for the references of one field. -/
def answersIn
    (answer : Element → Element → String → String → String → Option (Set (Option Instance)))
    (holder : String) (ref : Ref) : Option (Set (Option Instance)) :=
  answer ref.point ref.symbol (ref.fieldIn holder) ref.type ref.op

/-- A resolver with fixed alternatives serves the references of every field. -/
theorem Fixed.serves (hr : r.Fixed w answer) (hw : w.manager.Sound) (holder : String) :
    r.Serves holder (r.Reaches w) fun ref => (answersIn answer holder ref).getD ∅ where
  sound h := (hr.sound hw h).sound
  grows h hgrows := .managed h hgrows
  answer := by
    intro w₁ w₂ ref found l h hfound hl
    refine ⟨.asked h hfound, hr.grows h hfound, ?_, ?_⟩
    · intro t ht
      obtain ⟨hsequence, hgenuine⟩ := hr.plain h hfound hl t ht
      exact ⟨hgenuine, by simp [hsequence, Sequence.trailing]⟩
    · rw [answersIn, hr.view_eq h hfound hl]
      rfl

/-- What holds of every transformer that is free of sequences and does not pass for the identity
without being it, holds of fixed alternatives. -/
theorem Fixed.forall_answers (hr : r.Fixed w answer) {P : Instance → Prop}
    (hP : ∀ m : Manager, ∀ t : Transformer, m.Sound → t.sequence = none →
      (t.serial = m.identity.serial → t = m.identity) → P (m.instanceOf t))
    (holder : String) (ref : Ref) (c : Instance)
    (hc : some c ∈ (answersIn answer holder ref).getD ∅) : P c := by
  obtain ⟨found, w₂, hfound⟩ := Yields.exists_run (r.lookup holder ref) w
  have hgrows := hr.grows .refl hfound
  cases houtcome : found.outcome with
  | error fault =>
    rw [answersIn, (hr.fails_iff .refl hfound).mp ⟨fault, houtcome⟩] at hc
    exact absurd hc (Set.notMem_empty _)
  | ok l =>
    rw [answersIn, hr.view_eq .refl hfound houtcome] at hc
    obtain ⟨o, ho, hc⟩ := hc
    obtain ⟨t, rfl, rfl⟩ := Option.map_eq_some_iff.mp hc
    obtain ⟨hsequence, hgenuine⟩ := hr.plain .refl hfound houtcome t ho
    exact hP w₂.manager t hgrows.sound hsequence hgenuine

theorem Fixed.genuine (hr : r.Fixed w answer) (holder : String) (ref : Ref) :
    AllGenuine ((answersIn answer holder ref).getD ∅) := by
  refine hr.forall_answers (fun m t hm _ hgenuine hunit => ?_) holder ref
  have hserial : t.serial = m.identity.serial := of_decide_eq_true hunit
  rw [hgenuine hserial, Transformer.isBlank_iff]
  show m.identity.contents.contents = _
  rw [Transformer.contents_contents, hm.blank]

/-- The contents of a value found by applying transformers, and that the workspace is reached. -/
theorem finalValues_fixed_spec (hr : r.Fixed w answer) (hw : w.manager.Sound) (field : String)
    {m : Manager} (hm : w.manager.Grows m) {x : Value}
    (hx : ∀ u ∈ Sequence.trailing x.sequence, m.pool.Holds u) :
    ((r.finalValues field x).Fails { w with manager := m } ↔
        Refuses (fun ref => answersIn answer field ref = none) (x.contents.sequence.getD [])) ∧
      ∀ l w', (r.finalValues field x).Returns { w with manager := m } l w' →
        contentsRead l = outcomes (fun ref => (answersIn answer field ref).getD ∅) x.contents := by
  have hreaches : r.Reaches w { w with manager := m } := .managed .refl hm
  constructor
  · rw [refuses_contents]
    exact fails_finalValues (hr.serves hw field) hreaches hx
      fun _ _ _ _ _ _ _ hw' hfound => hr.fails_iff hw' hfound
  · intro l w' h
    exact (finalValues_spec (hr.serves hw field) hreaches hx h).2.2

/-- Resolves what the composition of two transformers makes of a value. -/
def resolveComposed (r : Resolver) (field : String) (a b : Transformer) (v : Value) :
    Work (List (Option Value)) := do
  let c ← Work.managed (Manager.compose a b)
  let x ← Work.managed (Manager.apply c v)
  r.finalValues field x

/-- Resolves what two transformers make of a value, one after the other. -/
def resolveApplied (r : Resolver) (field : String) (a b : Transformer) (v : Value) :
    Work (List (Option Value)) := do
  let x ← Work.managed (Manager.apply a v)
  let y ← Work.managed (Manager.apply b x)
  r.finalValues field y

/-- **Composition is sound through deferral.**  Let `a` and `b` be canonical, `a` without a sequence
or with one of at least one step, and let `b` clear the field or add nothing that it removes.  Then
resolving what their composition makes of a value, and resolving what the two make of it one after
the other, both fail or both succeed; and if they succeed, the values found have the same
contents. -/
theorem finalValues_compose_apply {a b : Transformer} {v : Value} (hw : w.manager.Sound)
    (ha : w.manager.pool.Holds a) (hb : w.manager.pool.Holds b) (hsteps : a.sequence ≠ some [])
    (hdisjoint : b.clear = true ∨
      Disjoint (OptionalSet.members b.add) (OptionalSet.members b.remove))
    (hv : ∀ u ∈ Sequence.trailing v.sequence, w.manager.pool.Holds u) (hr : r.Fixed w answer)
    (field : String) :
    ((r.resolveComposed field a b v).Fails w ∧ (r.resolveApplied field a b v).Fails w) ∨
      ∃ l w₁ l' w₂, (r.resolveComposed field a b v).Returns w l w₁ ∧
        (r.resolveApplied field a b v).Returns w l' w₂ ∧ contentsRead l = contentsRead l' := by
  -- the value of the composition
  obtain ⟨c, m₁, hc⟩ := Yields.exists_run (Manager.compose a b) w.manager
  obtain ⟨hgrows₁, hknows, hinstance, _⟩ := Manager.compose_spec hw (hw.knows ha) (hw.knows hb) hc
  obtain ⟨x, m₂, hx⟩ := Yields.exists_run (Manager.apply c v) m₁
  obtain ⟨hgrows₂, hxtrailing, hxcontents⟩ := Manager.apply_spec hgrows₁.sound hknows.trailing
    (fun u hu => (hv u hu).mono hgrows₁.pool) hx
  -- the value of the two transformers
  obtain ⟨y, m₃, hy⟩ := Yields.exists_run (Manager.apply a v) w.manager
  obtain ⟨hgrows₃, hytrailing, hycontents⟩ := Manager.apply_spec hw (hw.knows ha).trailing hv hy
  obtain ⟨z, m₄, hz⟩ := Yields.exists_run (Manager.apply b y) m₃
  obtain ⟨hgrows₄, hztrailing, hzcontents⟩ := Manager.apply_spec hgrows₃.sound
    (fun u hu => ((hw.knows hb).trailing u hu).mono hgrows₃.pool) hytrailing hz
  have hbody : c.contents =
      (Instance.comp (.canonical a.contents) (.canonical b.contents)).body := by
    rw [← hw.instanceOf_eq ha, ← hw.instanceOf_eq hb, ← hinstance]
    rfl
  rw [hbody] at hxcontents
  rw [hycontents] at hzcontents
  have hsteps' : a.contents.sequence ≠ some [] := by
    rw [Transformer.sequence_contents]
    cases hs : a.sequence with
    | none => simp [Sequence.contentsOf]
    | some steps =>
      rw [Sequence.contentsOf_some]
      rintro h
      exact hsteps (by rw [hs, List.map_eq_nil_iff.mp (Option.some.inj h)])
  have halike :=
    Transformer.alike_on_comp (hr.genuine field) (a := a.contents) (b := b.contents) hsteps'
      (by simpa [Transformer.edit, Edit.Regular] using hdisjoint) v.contents
  rw [← hxcontents, ← hzcontents] at halike
  obtain ⟨hfails, hreturns⟩ := finalValues_fixed_spec hr hw field (hgrows₁.trans hgrows₂) hxtrailing
  obtain ⟨hfails', hreturns'⟩ :=
    finalValues_fixed_spec hr hw field (hgrows₃.trans hgrows₄) hztrailing
  rw [hxcontents, refuses_on_comp, ← hzcontents] at hfails
  have hcomposed : (r.resolveComposed field a b v).Fails w ↔
      (r.finalValues field x).Fails { w with manager := m₂ } := by
    rw [resolveComposed, Work.fails_managed_bind hc, Work.fails_managed_bind hx]
  have happlied : (r.resolveApplied field a b v).Fails w ↔
      (r.finalValues field z).Fails { w with manager := m₄ } := by
    rw [resolveApplied, Work.fails_managed_bind hy, Work.fails_managed_bind hz]
  rcases Work.returns_or_fails (r.finalValues field x) { w with manager := m₂ } with ⟨l, w₁, hl⟩ |
    hfail
  · rcases Work.returns_or_fails (r.finalValues field z) { w with manager := m₄ } with ⟨l', w₂,
      hl'⟩ | hfail
    · refine .inr ⟨l, w₁, l', w₂, ?_, ?_, ?_⟩
      · rw [resolveComposed, Work.returns_managed_bind hc, Work.returns_managed_bind hx]
        exact hl
      · rw [resolveApplied, Work.returns_managed_bind hy, Work.returns_managed_bind hz]
        exact hl'
      · rw [hreturns l w₁ hl, hreturns' l' w₂ hl', halike.outcomes_eq]
    · exact absurd (hfails.mpr (hfails'.mp hfail)) hl.not_fails
  · exact .inl ⟨hcomposed.mpr hfail, happlied.mpr (hfails'.mpr (hfails.mp hfail))⟩

/-- The resolver that knows no value, and for which one transformer stands for all unknown ones. -/
def unknown (t : Transformer) : Resolver where
  resultAt _ _ := none
  finalize _ := pure none
  provider := some fun _ => pure t

/-- **A resolver that leaves the manager alone has fixed alternatives**, if what it offers is the
same, up to serial numbers, in every manager that has grown. -/
theorem fixed_of_quiet
    (offers : Manager → Element → String → String → Except Fault (List (Option Transformer)))
    {offered : Element → String → Option (Set (Option Instance))} (hw : w.manager.Sound)
    (hrun : ∀ {w₁ w₂ found point symbol field type op}, w.manager.Grows w₁.manager →
      Yields (r.alternatives point symbol field type op) w₁ found w₂ →
      found.outcome = offers w₁.manager symbol field type ∧ w₂.manager = w₁.manager)
    (hview : ∀ {m} symbol field type, w.manager.Grows m →
      (offers m symbol field type).toOption.map m.view = offered symbol field)
    (hplain : ∀ {m l} symbol field type, w.manager.Grows m → offers m symbol field type = .ok l →
      ∀ t, some t ∈ l →
      t.sequence = none ∧ (t.serial = m.identity.serial → t = m.identity)) :
    r.Fixed w fun _ symbol field _ _ => offered symbol field := by
  have hgrows : ∀ {w₁}, r.Reaches w w₁ → w.manager.Grows w₁.manager := by
    intro w₁ h
    induction h with
    | refl => exact hw.grows
    | managed _ hgrows ih => exact ih.trans hgrows
    | asked _ hfound ih => exact (hrun ih hfound).2 ▸ ih
  constructor
  · intro w₁ w₂ found point symbol field type op h hfound
    rw [(hrun (hgrows h) hfound).2]
    exact (hgrows h).sound.grows
  · intro w₁ w₂ found point symbol field type op h hfound
    rw [(hrun (hgrows h) hfound).1, ← hview symbol field type (hgrows h)]
    cases offers w₁.manager symbol field type <;> simp [Except.toOption]
  · intro w₁ w₂ found l point symbol field type op h hfound hl
    obtain ⟨houtcome, hmanager⟩ := hrun (hgrows h) hfound
    rw [hmanager, ← hview symbol field type (hgrows h), ← houtcome, hl]
    rfl
  · intro w₁ w₂ found l point symbol field type op h hfound hl
    obtain ⟨houtcome, hmanager⟩ := hrun (hgrows h) hfound
    rw [hmanager]
    exact hplain symbol field type (hgrows h) (houtcome.symm.trans hl)

/-- A resolver that knows no value has fixed alternatives. -/
theorem fixed_unknown {t : Transformer} (hw : w.manager.Sound) (ht : w.manager.pool.Holds t)
    (hsequence : t.sequence = none) :
    (unknown t).Fixed w fun _ _ _ _ _ => some {some (w.manager.instanceOf t)} := by
  refine fixed_of_quiet (fun _ _ _ _ => .ok [some t]) hw ?_ ?_ ?_
  · intro w₁ w₂ found point symbol field type op hgrows h
    exact alternatives_of_unknown rfl rfl (ht.mono hgrows.pool) h
  · intro m _ _ _ hgrows
    rw [← hgrows.instanceOf_eq]
    refine congrArg some (Set.ext fun c => ?_)
    simp [Manager.view, eq_comm]
  · rintro m _ _ _ _ hgrows ⟨⟩ u hu
    rw [List.mem_singleton, Option.some.injEq] at hu
    exact hu ▸ ⟨hsequence, ((hw.knows ht).mono hgrows).genuine⟩

/-- Removing an element that a pending reference may add: both ways the removal waits for the
reference. -/
theorem finalValues_compose_apply_pending :
    ∃ (w : Workspace) (a b t : Transformer),
      a.contents = .draft (some (ElementSet.singleton (.string "x"))) none false
        (some (Sequence.ofRefs [⟨.string "p", .string "q", "add", "string", ""⟩])) ∧
      b.contents = .draft none (some (ElementSet.singleton (.string "x"))) false none ∧
      t.contents = .draft (some (ElementSet.singleton (.string "x"))) none false none ∧
      (((unknown t).resolveComposed "f" a b (.draft none none)).Fails w ∧
          ((unknown t).resolveApplied "f" a b (.draft none none)).Fails w ∨
        ∃ l w₁ l' w₂, ((unknown t).resolveComposed "f" a b (.draft none none)).Returns w l w₁ ∧
          ((unknown t).resolveApplied "f" a b (.draft none none)).Returns w l' w₂ ∧
          contentsRead l = contentsRead l') := by
  have hm₀ : Workspace.create.manager.Sound := Manager.sound_create (Pool.sound_empty _)
  obtain ⟨m₁, a, hg₁, ha, hacontents⟩ := hm₀.exists_holds (.draft
    (some (ElementSet.singleton (.string "x"))) none false
    (some (Sequence.ofRefs [⟨.string "p", .string "q", "add", "string", ""⟩]))) rfl
    (by simp [Transformer.draft, Sequence.ofRefs, Sequence.trailing])
  obtain ⟨m₂, b, hg₂, hb, hbcontents⟩ := hg₁.sound.exists_holds (.draft none
    (some (ElementSet.singleton (.string "x"))) false none) rfl
    (by simp [Transformer.draft, Sequence.trailing])
  obtain ⟨m₃, t, hg₃, ht, htcontents⟩ := hg₂.sound.exists_holds (.draft
    (some (ElementSet.singleton (.string "x"))) none false none) rfl
    (by simp [Transformer.draft, Sequence.trailing])
  rw [Transformer.contents_draft, Sequence.contentsOf_some] at hacontents
  rw [Transformer.contents_draft, Sequence.contentsOf] at hbcontents htcontents
  have hasteps : a.sequence ≠ some [] := by
    intro h
    have hcontents := congrArg Transformer.sequence hacontents
    rw [Transformer.sequence_contents, h, Sequence.contentsOf_some] at hcontents
    simp [Transformer.draft, Sequence.ofRefs] at hcontents
  have hbadd : b.add = none := by
    rw [← Transformer.add_contents, hbcontents]
    rfl
  have htsequence : t.sequence = none := by
    have hcontents := congrArg Transformer.sequence htcontents
    rw [Transformer.sequence_contents] at hcontents
    cases hs : t.sequence with
    | none => rfl
    | some steps =>
      rw [hs, Sequence.contentsOf_some] at hcontents
      cases hcontents
  have hfixed :=
    fixed_unknown (w := { Workspace.create with manager := m₃ }) hg₃.sound ht htsequence
  exact ⟨{ Workspace.create with manager := m₃ }, a, b, t, hacontents, hbcontents, htcontents,
    finalValues_compose_apply hg₃.sound (ha.mono (hg₂.trans hg₃).pool) (hb.mono hg₃.pool) hasteps
      (.inr (by rw [hbadd, OptionalSet.members_none]; exact Set.empty_disjoint _))
      (by simp [Value.draft, Sequence.trailing]) hfixed "f"⟩

end Resolver

end FieldFlow
