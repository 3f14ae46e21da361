import FieldFlow.Proofs.Deferral
import FieldFlow.Proofs.Direct
import Mathlib.Data.Set.NAry

/-!
# The meaning of transformers

A transformer means the set of effects that it may have on a field, one for each choice of
alternatives for its references.  Where the alternatives wait for nothing themselves, composition
means that one effect follows the other, whatever is merged, deferred or collapsed on the way; a
transformer that clears the field forgets what it is composed onto.

Main definitions: `Transformer.meaning`, `Instance.Neat`.
Main results: `effects_replays`, `Instance.meaning_comp`, `Transformer.outcomes_on_empty`.
-/

namespace FieldFlow

/-! ## Effects one after another -/

namespace Effect

@[simp]
theorem id_andThen (e : Effect) : andThen (some id) e = e := by
  cases e <;> rfl

@[simp]
theorem andThen_id (e : Effect) : e.andThen (some id) = e := by
  cases e <;> rfl

theorem andThen_assoc (d e f : Effect) : (d.andThen e).andThen f = d.andThen (e.andThen f) := by
  cases d <;> cases e <;> cases f <;> rfl

@[simp]
theorem id_on (s : Option (Set Element)) : on (some id) s = s := by
  cases s <;> rfl

theorem on_andThen (d e : Effect) (s : Option (Set Element)) :
    (d.andThen e).on s = e.on (d.on s) := by
  cases d <;> cases e <;> cases s <;> rfl

end Effect

/-- Every effect of the first set followed by every effect of the second. -/
def followed (first second : Set Effect) : Set Effect := Set.image2 Effect.andThen first second

@[simp]
theorem id_followed (effects : Set Effect) : followed {some id} effects = effects := by
  simp [followed]

@[simp]
theorem followed_id (effects : Set Effect) : followed effects {some id} = effects := by
  simp [followed]

/-- Sets of effects may be grouped in any way. -/
theorem followed_assoc (first second third : Set Effect) :
    followed (followed first second) third = followed first (followed second third) :=
  Set.image2_assoc Effect.andThen_assoc

/-! ## Plain instances -/

/-- The transformer waits for nothing, and it clears the field or adds nothing that it removes. -/
structure Transformer.Plain (t : Transformer) : Prop where
  sequence : t.sequence = none
  regular : t.edit.Regular

namespace Instance

/-- What the instance does to a set at once. -/
def act (c : Instance) (s : Set Element) : Set Element := c.body.edit.act s

/-- The instance waits for nothing, is regular, and only passes for the identity if it is blank. -/
structure Plain (c : Instance) : Prop where
  genuine : c.Genuine
  body : c.body.Plain

/-- Canonical instances are as plain as their contents. -/
theorem plain_canonical {t : Transformer} (ht : t.Plain) : (canonical t).Plain :=
  ⟨genuine_canonical t, ht⟩

theorem plain_blank : (canonical .blank).Plain := by
  refine plain_canonical ⟨rfl, .inr ?_⟩
  simp [Transformer.edit, Transformer.blank, Transformer.draft]

/-- What passes for the identity does nothing. -/
theorem Genuine.act_of_isUnit {c : Instance} (hc : c.Genuine) (h : c.isUnit = true)
    (s : Set Element) :
    c.act s = s := by
  rw [act, Transformer.edit_of_isBlank (hc h), Edit.act_none]

@[simp]
theorem act_blank (s : Set Element) : (canonical .blank).act s = s :=
  (genuine_canonical _).act_of_isUnit rfl s

/-- **Composition of plain instances** acts as one after the other. -/
theorem Plain.comp {c d : Instance} (hc : c.Plain) (hd : d.Plain) :
    (c.comp d).Plain ∧ ∀ s, (c.comp d).act s = d.act (c.act s) := by
  have hgenuine := hc.genuine.comp hd.genuine
  revert hgenuine
  unfold Instance.comp
  split
  · -- the second part forgets the first
    rename_i hclear
    intro _
    have hedit : d.body.edit.clear = true := hclear
    exact ⟨hd, fun s => by simp [act, Edit.act, hedit]⟩
  · rename_i hclear
    have hclear : d.body.clear = false := by simpa using hclear
    split
    · rename_i hunit
      intro _
      exact ⟨hd, fun s => by rw [hc.genuine.act_of_isUnit hunit]⟩
    · split
      · rename_i hunit
        intro _
        exact ⟨hc, fun s => by rw [hd.genuine.act_of_isUnit hunit]⟩
      · intro hgenuine
        have hshape := Transformer.shape_merge_of_none hc.body.sequence hclear
        have hedit : (c.body.merge d.body).edit = c.body.edit.andThen d.body.edit :=
          congrArg Shape.edit hshape
        have hsequence : (c.body.merge d.body).sequence = none := by
          rw [Transformer.merge_of_none hc.body.sequence, hd.body.sequence]
          rfl
        refine ⟨⟨hgenuine, hsequence, ?_⟩, fun s => ?_⟩
        · show (c.body.merge d.body).edit.Regular
          rw [hedit]
          exact hc.body.regular.andThen hd.body.regular
        · show (c.body.merge d.body).edit.act s = _
          rw [hedit, Edit.act_andThen hd.body.regular]
          rfl

end Instance

/-- What plain transformers do one after the other. -/
def actAll (after : List Transformer) (s : Set Element) : Set Element :=
  after.foldl (fun s t => t.edit.act s) s

/-- Composing plain transformers onto a plain instance acts as one after the other. -/
theorem Instance.Plain.compAll {c : Instance} (hc : c.Plain) {after : List Transformer}
    (hafter : ∀ t ∈ after, t.Plain) :
    (c.compAll after).Plain ∧ ∀ s, (c.compAll after).act s = actAll after (c.act s) := by
  induction after generalizing c with
  | nil => exact ⟨hc, fun _ => rfl⟩
  | cons t rest ih =>
    obtain ⟨hplain, hact⟩ := hc.comp (Instance.plain_canonical (hafter t List.mem_cons_self))
    obtain ⟨hplains, hacts⟩ := ih hplain fun u hu => hafter u (List.mem_cons_of_mem _ hu)
    refine ⟨hplains, fun s => (hacts s).trans ?_⟩
    rw [hact]
    rfl

/-! ## Choices and their effects -/

/-- All choices are plain. -/
def AllPlain (current : Set (Option Instance)) : Prop := ∀ c, some c ∈ current → c.Plain

/-- The effects of choices; a missing choice makes the field untracked. -/
def effects (current : Set (Option Instance)) : Set Effect := Option.map Instance.act '' current

@[simp]
theorem effects_blank : effects {some (.canonical .blank)} = {some id} := by
  have hact : (Instance.canonical .blank).act = id := funext Instance.act_blank
  simp [effects, hact]

theorem allPlain_blank : AllPlain {some (.canonical .blank)} := by
  intro c hc
  rw [Set.mem_singleton_iff, Option.some.injEq] at hc
  exact hc ▸ Instance.plain_blank

section Replays

variable {answers : Ref → Set (Option Instance)} {current : Set (Option Instance)}

/-- The choices for a step are plain if those for references are. -/
theorem allPlain_choices (hanswers : ∀ ref, AllPlain (answers ref)) (step : Step Transformer) :
    AllPlain (choices answers step) := by
  unfold choices
  cases step.ref with
  | none => exact allPlain_blank
  | some ref => exact hanswers ref

/-- **One step of a replay**: the choices so far, then those for the reference, then what is
replayed after it. -/
theorem effects_step (hanswers : ∀ ref, AllPlain (answers ref)) (hcurrent : AllPlain current)
    {step : Step Transformer} (hafter : ∀ t ∈ step.after, t.Plain) :
    AllPlain {x | ∃ c ∈ current, ∃ d ∈ choices answers step, x = layered step.after c d} ∧
      effects {x | ∃ c ∈ current, ∃ d ∈ choices answers step, x = layered step.after c d}
        = followed (effects current)
            (followed (effects (choices answers step)) {some (actAll step.after)}) := by
  have hchoices := allPlain_choices hanswers step
  have hlayered : ∀ c ∈ current, ∀ d ∈ choices answers step,
      (layered step.after c d).map Instance.act
        = Effect.andThen (c.map Instance.act)
            (Effect.andThen (d.map Instance.act) (some (actAll step.after))) := by
    intro c hc d hd
    cases c with
    | none => cases d <;> rfl
    | some c =>
      cases d with
      | none => rfl
      | some d =>
        obtain ⟨hplain, hact⟩ := (hcurrent c hc).comp (hchoices d hd)
        obtain ⟨_, hacts⟩ := hplain.compAll hafter
        refine congrArg some (funext fun s => ?_)
        rw [hacts, hact]
        rfl
  constructor
  · rintro x ⟨c, hc, d, hd, hx⟩
    cases c with
    | none => cases hx
    | some c =>
      cases d with
      | none => cases hx
      | some d =>
        rw [Option.some.inj hx]
        exact (((hcurrent c hc).comp (hchoices d hd)).1.compAll hafter).1
  · ext e
    constructor
    · rintro ⟨_, ⟨c, hc, d, hd, rfl⟩, rfl⟩
      exact ⟨_, ⟨c, hc, rfl⟩, _, ⟨_, ⟨d, hd, rfl⟩, _, rfl, rfl⟩, (hlayered c hc d hd).symm⟩
    · rintro ⟨_, ⟨c, hc, rfl⟩, _, ⟨_, ⟨d, hd, rfl⟩, _, rfl, rfl⟩, rfl⟩
      exact ⟨_, ⟨c, hc, d, hd, rfl⟩, hlayered c hc d hd⟩

/-- **A replay** follows the choices that it starts from with the choices that it makes by
itself. -/
theorem effects_replays (hanswers : ∀ ref, AllPlain (answers ref)) (hcurrent : AllPlain current)
    {steps : Sequence} (hsteps : ∀ t ∈ Sequence.trailing (some steps), t.Plain) :
    AllPlain (replays answers steps current) ∧
      effects (replays answers steps current)
        = followed (effects current)
          (effects (replays answers steps {some (.canonical .blank)})) := by
  induction steps generalizing current with
  | nil => exact ⟨hcurrent, by simp [replays]⟩
  | cons step rest ih =>
    -- the step is taken twice: from the choices so far, and by itself
    obtain ⟨hafter, hrest⟩ := Sequence.forall_trailing_cons.mp hsteps
    obtain ⟨hplain, hstep⟩ := effects_step hanswers hcurrent hafter
    obtain ⟨hplain', hstep'⟩ := effects_step hanswers allPlain_blank hafter
    obtain ⟨hplains, heffects⟩ := ih hplain hrest
    obtain ⟨_, heffects'⟩ := ih hplain' hrest
    refine ⟨hplains, ?_⟩
    rw [replays, heffects, hstep, replays, heffects', hstep', effects_blank, id_followed]
    simp only [followed_assoc]

theorem effects_appended (hcurrent : AllPlain current) {t : Transformer} (ht : t.Plain) :
    effects (appended t current) = followed (effects current) {some t.edit.act} := by
  have hact : ∀ c ∈ current, (c.map fun c => c.comp (.canonical t)).map Instance.act
      = Effect.andThen (c.map Instance.act) (some t.edit.act) := by
    intro c hc
    cases c with
    | none => rfl
    | some c => exact congrArg some (funext ((hcurrent c hc).comp (Instance.plain_canonical ht)).2)
  ext e
  constructor
  · rintro ⟨_, ⟨c, hc, rfl⟩, rfl⟩
    exact ⟨_, ⟨c, hc, rfl⟩, _, rfl, (hact c hc).symm⟩
  · rintro ⟨_, ⟨c, hc, rfl⟩, _, rfl, rfl⟩
    exact ⟨_, ⟨c, hc, rfl⟩, hact c hc⟩

end Replays

/-! ## Meaning -/

/-- The effects that a transformer may have: its own edit, then one choice for each reference. -/
def Transformer.meaning (answers : Ref → Set (Option Instance)) (t : Transformer) : Set Effect :=
  followed {some t.edit.act}
    (effects (replays answers (t.sequence.getD []) {some (.canonical .blank)}))

/-- The instance is regular, what it replays is plain, and it only passes for the identity if it is
blank. -/
structure Instance.Neat (c : Instance) : Prop where
  genuine : c.Genuine
  regular : c.body.edit.Regular
  trailing : ∀ t ∈ Sequence.trailing c.body.sequence, t.Plain

namespace Transformer

variable {answers : Ref → Set (Option Instance)} {t : Transformer}

theorem meaning_of_sequence (h : t.sequence = none) : t.meaning answers = {some t.edit.act} := by
  rw [meaning, h, Option.getD_none, replays, effects_blank, followed_id]

theorem meaning_of_isBlank (h : t.isBlank = true) : t.meaning answers = {some id} := by
  have hact : t.edit.act = id := by
    rw [edit_of_isBlank h]
    exact funext Edit.act_none
  rw [meaning_of_sequence (sequence_of_isBlank h), hact]

/-- The edits of a transformer that does not clear the field are its edit. -/
theorem edit_edits (h : t.clear = false) : t.edits.edit = t.edit := by
  rw [edit, edit, h]
  rfl

/-- The edits of a transformer that does not clear the field are plain. -/
theorem plain_edits (hclear : t.clear = false) (hregular : t.edit.Regular) : t.edits.Plain :=
  ⟨rfl, by rwa [edit_edits hclear]⟩

/-- A transformer without edits that does not clear the field does nothing at once. -/
theorem act_of_not_hasEdits (hclear : t.clear = false) (hedits : t.hasEdits = false) :
    t.edit.act = id := by
  have hnone : t.add = none ∧ t.remove = none := by
    unfold hasEdits at hedits
    rw [Bool.or_eq_false_iff] at hedits
    exact ⟨by simpa using hedits.1, by simpa using hedits.2⟩
  have hedit : t.edit = Edit.none := by
    rw [edit, hnone.1, hnone.2, hclear, OptionalSet.members_none]
    rfl
  rw [hedit]
  exact funext Edit.act_none

/-- **Applied to an empty field**, a transformer leaves what its effects leave. -/
theorem outcomes_on_empty (t : Transformer) :
    outcomes answers (t.on (.draft none none)) =
      {s | ∃ e ∈ t.meaning answers, s = e.on (some ∅)} := by
  obtain ⟨hsequence, hmembers⟩ := on_of_none (t := t) (v := .draft none none) (.inr rfl)
  have hempty : OptionalSet.members (Value.draft none none).set = ∅ := OptionalSet.members_none
  unfold outcomes meaning
  rw [hsequence, hmembers, hempty, Sequence.getD_concat]
  ext s
  constructor
  · rintro ⟨c, hc, rfl⟩
    refine ⟨_, ⟨_, rfl, _, ⟨c, hc, rfl⟩, rfl⟩, ?_⟩
    cases c <;> rfl
  · rintro ⟨_, ⟨_, rfl, _, ⟨c, hc, rfl⟩, rfl⟩, rfl⟩
    refine ⟨c, hc, ?_⟩
    cases c <;> rfl

end Transformer

namespace Instance

variable {answers : Ref → Set (Option Instance)} {c d : Instance}

/-- A clearing instance forgets what it is composed onto. -/
theorem comp_of_clear (h : d.body.clear = true) : c.comp d = d := by rw [comp, if_pos h]

theorem neat_blank : (canonical .blank).Neat :=
  ⟨genuine_canonical _, plain_blank.body.regular, by
    simp [canonical, Transformer.blank, Transformer.draft, Sequence.trailing]⟩

/-- Neat instances compose to neat ones. -/
theorem Neat.comp (hc : c.Neat) (hd : d.Neat) : (c.comp d).Neat := by
  have hgenuine := hc.genuine.comp hd.genuine
  revert hgenuine
  unfold Instance.comp
  split
  · exact fun _ => hd
  · rename_i hclear
    have hclear : d.body.clear = false := by simpa using hclear
    split
    · exact fun _ => hd
    · split
      · exact fun _ => hc
      · intro hgenuine
        refine ⟨hgenuine, ?_, ?_⟩
        · show (c.body.merge d.body).edit.Regular
          cases hs : c.body.sequence with
          | none =>
            rw [show (c.body.merge d.body).edit = c.body.edit.andThen d.body.edit from
              congrArg Shape.edit (Transformer.shape_merge_of_none hs hclear)]
            exact hc.regular.andThen hd.regular
          | some steps =>
            rw [show (c.body.merge d.body).edit = c.body.edit from
              congrArg Shape.edit (Transformer.shape_merge_of_some hs)]
            exact hc.regular
        · show ∀ t ∈ Sequence.trailing (c.body.merge d.body).sequence, t.Plain
          intro t ht
          cases hs : c.body.sequence with
          | none =>
            rw [Transformer.merge_of_none hs, Transformer.draft, Sequence.mem_trailing_concat] at ht
            rcases ht with ht | ht
            · simp [Sequence.trailing] at ht
            · exact hd.trailing t ht
          | some steps =>
            rw [Transformer.merge_of_some hs, Transformer.draft, Sequence.mem_trailing_concat] at ht
            rcases ht with ht | ht
            · split at ht
              · rcases Sequence.mem_trailing_withTransformer.mp ht with ht | rfl
                · exact hc.trailing t (hs ▸ ht)
                · exact Transformer.plain_edits hclear hd.regular
              · exact hc.trailing t (hs ▸ ht)
            · exact hd.trailing t ht

/-- What a merge onto a sequence replays before the references of the second transformer. -/
theorem effects_deferred (hanswers : ∀ ref, AllPlain (answers ref)) (hd : d.Neat)
    (hclear : d.body.clear = false) {steps : Sequence}
    (hsteps : ∀ t ∈ Sequence.trailing (some steps), t.Plain) :
    AllPlain (replays answers (if d.body.hasEdits then Sequence.withTransformer steps d.body.edits
      else steps) {some (.canonical .blank)}) ∧
    effects (replays answers (if d.body.hasEdits then Sequence.withTransformer steps d.body.edits
      else steps) {some (.canonical .blank)})
      = followed (effects (replays answers steps {some (.canonical .blank)}))
        {some d.body.edit.act} := by
  have hplain := (effects_replays hanswers allPlain_blank hsteps).1
  have hedits := Transformer.plain_edits hclear hd.regular
  by_cases h : d.body.hasEdits = true
  · rw [if_pos h, replays_withTransformer_identity, effects_appended hplain hedits,
      Transformer.edit_edits hclear]
    refine ⟨?_, rfl⟩
    rintro x ⟨c, hc, hx⟩
    cases c with
    | none => cases hx
    | some c =>
      rw [← Option.some.inj hx]
      exact ((hplain c hc).comp (plain_canonical hedits)).1
  · rw [if_neg h, Transformer.act_of_not_hasEdits hclear (by simpa using h), followed_id]
    exact ⟨hplain, rfl⟩

/-- **Composition means that one effect follows the other**, unless the second instance clears the
field. -/
theorem meaning_comp (hanswers : ∀ ref, AllPlain (answers ref)) (hc : c.Neat) (hd : d.Neat)
    (hclear : d.body.clear = false) :
    (c.comp d).body.meaning answers
      = followed (c.body.meaning answers) (d.body.meaning answers) := by
  unfold Instance.comp
  rw [if_neg (by simp [hclear])]
  split
  · rename_i hunit
    rw [Transformer.meaning_of_isBlank (hc.genuine hunit), id_followed]
  · split
    · rename_i hunit
      rw [Transformer.meaning_of_isBlank (hd.genuine hunit), followed_id]
    · show (c.body.merge d.body).meaning answers = _
      cases hs : c.body.sequence with
      | none =>
        -- the first waits for nothing, so the edits merge at once
        have hedit : (c.body.merge d.body).edit = c.body.edit.andThen d.body.edit :=
          congrArg Shape.edit (Transformer.shape_merge_of_none hs hclear)
        have hact : (c.body.edit.andThen d.body.edit).act = d.body.edit.act ∘ c.body.edit.act :=
          funext (Edit.act_andThen hd.regular)
        rw [Transformer.meaning_of_sequence hs]
        unfold Transformer.meaning
        rw [hedit, hact, ← followed_assoc, Transformer.merge_of_none hs, Transformer.draft,
          Sequence.getD_concat]
        simp [followed, Effect.andThen]
      | some steps =>
        -- the edits of the second are put off until the references of the first are replayed
        have hedit : (c.body.merge d.body).edit = c.body.edit :=
          congrArg Shape.edit (Transformer.shape_merge_of_some hs)
        obtain ⟨hplain, hdeferred⟩ := effects_deferred hanswers hd hclear
          (fun t ht => hc.trailing t (hs ▸ ht))
        have htrailing : ∀ t ∈ Sequence.trailing (some (d.body.sequence.getD [])), t.Plain := by
          intro t ht
          apply hd.trailing t
          cases hseq : d.body.sequence with
          | none => simp [hseq, Sequence.trailing] at ht
          | some steps => rwa [hseq, Option.getD_some] at ht
        have hreplays := (effects_replays hanswers hplain htrailing).2
        unfold Transformer.meaning
        rw [hedit, Transformer.merge_of_some hs, Transformer.draft, Sequence.getD_concat,
          Option.getD_some, replays_append, hreplays, hdeferred, hs, Option.getD_some]
        simp only [followed_assoc]

end Instance

end FieldFlow
