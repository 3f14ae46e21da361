import FieldFlow.Proofs.Application
import FieldFlow.Proofs.Meaning
import FieldFlow.Proofs.Ranking

/-!
# Replaying step by step

A sequence is replayed by composition: after each step every alternative so far has been composed
with every alternative for the step and with what follows it, equal transformers have collapsed, and
the transformers that are left in the end are applied once.  It can also be replayed by application:
an alternative is chosen for each reference, and the choices and what follows them are applied one
after the other to the content of the field.  Both ways lead to the same contents, since composing
transformers, whether or not they collapse, composes what they do, and nothing else of them shows in
the end.

Main definitions: `Sequence.Unrolls`, `Manager.applyEach`, `Resolver.Offers`.
Main results: `Manager.compose_handled`, `Resolver.replay_effects`, `Resolver.finalValues_stepwise`.
-/

namespace FieldFlow

/-! ## Effects of choices -/

/-- What a chosen transformer does at once; a missing one makes the field untracked. -/
def effectOf (choice : Option Transformer) : Effect := choice.map fun t => t.edit.act

/-- What choices do one after the other. -/
def effectOfAll (plan : List (Option Transformer)) : Effect :=
  plan.foldr (fun choice effect => (effectOf choice).andThen effect) (some id)

/-- The effects of the listed choices. -/
def effectsOf (choices : List (Option Transformer)) : Set Effect :=
  {e | ∃ choice ∈ choices, effectOf choice = e}

theorem effectOfAll_append (first second : List (Option Transformer)) :
    effectOfAll (first ++ second) = (effectOfAll first).andThen (effectOfAll second) := by
  induction first with
  | nil => exact (Effect.id_andThen _).symm
  | cons choice rest ih =>
    show (effectOf choice).andThen (effectOfAll (rest ++ second))
      = ((effectOf choice).andThen (effectOfAll rest)).andThen (effectOfAll second)
    rw [ih, Effect.andThen_assoc]

theorem effectOfAll_map_some (after : List Transformer) :
    effectOfAll (after.map some) = some (actAll after) := by
  induction after with
  | nil => rfl
  | cons t rest ih =>
    show (effectOf (some t)).andThen (effectOfAll (rest.map some)) = _
    rw [ih]
    rfl

theorem effectsOf_singleton (choice : Option Transformer) :
    effectsOf [choice] = {effectOf choice} := by
  ext e
  simp [effectsOf, eq_comm]

/-! ## Unrolled sequences -/

/-- The steps are unrolled to a list of choices: for each reference one of the transformers that are
offered for it, or none if that is offered, and behind it what follows the reference. -/
inductive Sequence.Unrolls (offered : Ref → Set (Option Transformer)) :
    Sequence → List (Option Transformer) → Prop
  | nil : Unrolls offered [] []
  | plain {step : Step Transformer} {rest : Sequence} {plan : List (Option Transformer)}
      (href : step.ref = none)
      (h : Unrolls offered rest plan) : Unrolls offered (step :: rest) (step.after.map some ++ plan)
  | chosen {step : Step Transformer} {rest : Sequence}
      {plan : List (Option Transformer)} {ref : Ref}
      {choice : Option Transformer} (href : step.ref = some ref) (hchoice : choice ∈ offered ref)
      (h : Unrolls offered rest plan) :
        Unrolls offered (step :: rest) (choice :: step.after.map some ++ plan)

namespace Sequence

variable {offered : Ref → Set (Option Transformer)} {step : Step Transformer}
  {rest steps : Sequence}

/-- What the transformers for one step may do. -/
def stepEffects (offered : Ref → Set (Option Transformer)) (step : Step Transformer) : Set Effect :=
  match step.ref with
  | none => {some id}
  | some ref => effectOf '' offered ref

/-- What unrolled steps may do. -/
def unrolledEffects (offered : Ref → Set (Option Transformer)) (steps : Sequence) : Set Effect :=
  {e | ∃ plan, Unrolls offered steps plan ∧ effectOfAll plan = e}

theorem unrolledEffects_nil : unrolledEffects offered [] = {some id} := by
  ext e
  constructor
  · rintro ⟨_, hunrolls, rfl⟩
    cases hunrolls
    rfl
  · rintro rfl
    exact ⟨[], .nil, rfl⟩

/-- **One step more**: a choice for the step, then what follows it, then the other steps. -/
theorem unrolledEffects_cons : unrolledEffects offered (step :: rest)
    = followed (followed (stepEffects offered step) {some (actAll step.after)})
      (unrolledEffects offered rest) := by
  have hcons : ∀ choice plan, effectOfAll (choice :: step.after.map some ++ plan)
      = ((effectOf choice).andThen (some (actAll step.after))).andThen (effectOfAll plan) := by
    intro choice plan
    rw [effectOfAll_append, ← effectOfAll_map_some]
    rfl
  unfold stepEffects
  ext e
  constructor
  · rintro ⟨_, hunrolls, rfl⟩
    cases hunrolls with
    | plain href h =>
      rw [href, id_followed, effectOfAll_append, effectOfAll_map_some]
      exact ⟨_, rfl, _, ⟨_, h, rfl⟩, rfl⟩
    | chosen href hchoice h =>
      rw [href, hcons]
      exact ⟨_, ⟨_, ⟨_, hchoice, rfl⟩, _, rfl, rfl⟩, _, ⟨_, h, rfl⟩, rfl⟩
  · cases href : step.ref with
    | none =>
      rw [id_followed]
      rintro ⟨_, rfl, _, ⟨plan, h, rfl⟩, rfl⟩
      exact ⟨_, .plain href h, by rw [effectOfAll_append, effectOfAll_map_some]⟩
    | some ref =>
      rintro ⟨_, ⟨_, ⟨choice, hchoice, rfl⟩, _, rfl, rfl⟩, _, ⟨plan, h, rfl⟩, rfl⟩
      exact ⟨_, .chosen href hchoice h, hcons choice plan⟩

/-- What is chosen was offered, or follows a reference. -/
theorem Unrolls.of_mem {P : Transformer → Prop} (hoffered : ∀ ref t, some t ∈ offered ref → P t)
    (htrailing : ∀ u ∈ trailing (some steps), P u) {plan : List (Option Transformer)}
    (h : Unrolls offered steps plan) {t : Transformer} (ht : some t ∈ plan) : P t := by
  induction h with
  | nil => cases ht
  | plain _ _ ih =>
    obtain ⟨hafter, hrest⟩ := forall_trailing_cons.mp htrailing
    rcases List.mem_append.mp ht with ht | ht
    · exact hafter t (by simpa using ht)
    · exact ih hrest ht
  | chosen _ hchoice _ ih =>
    obtain ⟨hafter, hrest⟩ := forall_trailing_cons.mp htrailing
    rcases List.mem_append.mp ht with ht | ht
    · rcases List.mem_cons.mp ht with rfl | ht
      · exact hoffered _ t hchoice
      · exact hafter t (by simpa using ht)
    · exact ih hrest ht

end Sequence

/-! ## Applying one choice after the other -/

namespace Manager

variable {m m' n n' : Manager} {plan : List (Option Transformer)} {u : Option Value} {v : Value}

/-- Applies choices one after the other; a missing one leaves no value. -/
def applyEach : List (Option Transformer) → Value → Managed (Option Value)
  | [], v => pure (some v)
  | none :: _, _ => pure none
  | some t :: rest, v => do applyEach rest (← apply t v)

/-- Nothing is left exactly if one of the choices is missing. -/
theorem applyEach_eq_none (h : Yields (applyEach plan v) n u n') : u = none ↔ none ∈ plan := by
  induction plan generalizing v n with
  | nil =>
    obtain ⟨rfl, _⟩ := Yields.pure_iff.mp h
    simp
  | cons choice rest ih =>
    cases choice with
    | none =>
      obtain ⟨rfl, _⟩ := Yields.pure_iff.mp h
      simp
    | some t =>
      obtain ⟨_, _, _, hrest⟩ := Yields.bind_iff.mp h
      simp [ih hrest]

/-- **Applying choices without sequences** does to the members what the choices do. -/
theorem applyEach_effect (hplan : ∀ t, some t ∈ plan → t.sequence = none) (hv : v.sequence = none)
    (h : Yields (applyEach plan v) n u n') :
    u.map (fun x => OptionalSet.members x.set) =
      (effectOfAll plan).on (some (OptionalSet.members v.set)) := by
  induction plan generalizing v n with
  | nil =>
    obtain ⟨rfl, _⟩ := Yields.pure_iff.mp h
    rfl
  | cons choice rest ih =>
    have hrest : ∀ t, some t ∈ rest → t.sequence = none :=
      fun t ht => hplan t (List.mem_cons_of_mem _ ht)
    show _ = ((effectOf choice).andThen (effectOfAll rest)).on _
    rw [Effect.on_andThen]
    cases choice with
    | none =>
      obtain ⟨rfl, _⟩ := Yields.pure_iff.mp h
      show none = (effectOfAll rest).on none
      cases effectOfAll rest <;> rfl
    | some t =>
      obtain ⟨x, _, hx, hyields⟩ := Yields.bind_iff.mp h
      obtain ⟨hsequence, hmembers, _⟩ := apply_edit (hplan t List.mem_cons_self) hv hx
      rw [ih hrest hsequence hyields, hmembers]
      rfl

/-! ## Composing what is handled -/

variable {a b c t : Transformer}

/-- The transformer waits for nothing, is regular, and passes for the identity only if it is
that. -/
structure Handles (m : Manager) (t : Transformer) : Prop where
  plain : t.Plain
  recognized : m.Recognizes t

/-- Every transformer in the list is handled. -/
def HandlesAll (m : Manager) (l : List (Option Transformer)) : Prop := ∀ t, some t ∈ l → m.Handles t

/-- What is handled depends on the identity. -/
theorem Handles.mono (h : m.Handles t) (hidentity : n.identity = m.identity) : n.Handles t := by
  refine ⟨h.plain, ?_⟩
  rw [Recognizes, hidentity]
  exact h.recognized

theorem Orderly.handlesAll_identity (hm : m.Orderly) : m.HandlesAll [some m.identity] := by
  intro t ht
  rw [List.mem_singleton, Option.some.injEq] at ht
  subst ht
  refine ⟨⟨(Transformer.fields_of_contents hm.blank).2.2.2, ?_⟩, fun _ => rfl⟩
  rw [hm.edit_identity]
  exact .inr (Set.empty_disjoint _)

theorem Orderly.effectsOf_identity (hm : m.Orderly) : effectsOf [some m.identity] = {some id} := by
  have hact : m.identity.edit.act = id := by
    rw [hm.edit_identity]
    exact funext Edit.act_none
  rw [effectsOf_singleton, effectOf, Option.map_some, hact]

/-- **Composing what is handled** does the one after the other, and the result is handled. -/
theorem compose_handled (hm : m.Orderly) (ha : m.Handles a) (hb : m.Handles b)
    (h : Yields (compose a b) m c m') :
    m.Evolves m' ∧ m'.Handles c ∧ ∀ s, c.edit.act s = b.edit.act (a.edit.act s) := by
  have hevolves := (compose_evolves h).1
  obtain ⟨hsequence, hedit⟩ :=
    compose_recognized hm ha.recognized hb.recognized ha.plain.sequence hb.plain.sequence h
  have hcomposes : Edit.Composes c.edit a.edit b.edit := by
    rcases hedit with ⟨hedit, hback⟩ | ⟨hedit, hclear, _⟩
    · exact .inl ⟨hedit, hback.imp_right fun h => by rw [h, hm.edit_identity]⟩
    · exact .inr ⟨hedit, hclear⟩
  have hregular : c.edit.Regular := by
    rcases hedit with ⟨hedit, _⟩ | ⟨hedit, _⟩
    · exact hedit ▸ hb.plain.regular
    · exact hedit ▸ ha.plain.regular.andThen hb.plain.regular
  have hrecognized : m'.Recognizes c := by
    rcases compose_outcome h with ⟨rfl, rfl, _⟩ | ⟨rfl, rfl, _⟩ | ⟨_, hheld, _⟩
    · exact hb.recognized
    · exact ha.recognized
    · exact (hevolves.orderly hm).recognizes hheld
  exact ⟨hevolves, ⟨⟨hsequence, hregular⟩, hrecognized⟩, hcomposes.act_eq hb.plain.regular⟩

/-- Composing a list of what is handled does all one after the other. -/
theorem composeAll_handled {after : List Transformer} (hm : m.Orderly) (ht : m.Handles t)
    (hafter : ∀ u ∈ after, m.Handles u) (h : Yields (composeAll t after) m c m') :
    m.Evolves m' ∧ m'.Handles c ∧ ∀ s, c.edit.act s = actAll after (t.edit.act s) := by
  induction after generalizing t m with
  | nil =>
    obtain ⟨rfl, rfl⟩ := Yields.pure_iff.mp h
    exact ⟨.refl _, ht, fun _ => rfl⟩
  | cons next rest ih =>
    obtain ⟨t', m₁, hcompose, hrest⟩ := Yields.bind_iff.mp h
    obtain ⟨hevolves, ht', hact⟩ := compose_handled hm ht (hafter next List.mem_cons_self) hcompose
    obtain ⟨hevolves', hc, hacts⟩ := ih (hevolves.orderly hm) ht'
      (fun u hu => (hafter u (List.mem_cons_of_mem _ hu)).mono hevolves.identity) hrest
    refine ⟨hevolves.trans hevolves', hc, fun s => ?_⟩
    rw [hacts, hact]
    rfl

/-- One alternative followed by another and by what comes after it. -/
theorem layer_handled {after : List Transformer} {x y z : Option Transformer} (hm : m.Orderly)
    (hx : ∀ t, x = some t → m.Handles t) (hy : ∀ t, y = some t → m.Handles t)
    (hafter : ∀ u ∈ after, m.Handles u) (h : Yields (Resolver.layer after (x, y)) m z m') :
    m.Evolves m' ∧ (∀ t, z = some t → m'.Handles t) ∧
      effectOf z = (effectOf x).andThen ((effectOf y).andThen (some (actAll after))) := by
  cases x with
  | none =>
    obtain ⟨rfl, rfl⟩ := Yields.pure_iff.mp h
    refine ⟨.refl _, fun t ht => absurd ht.symm (by simp), ?_⟩
    cases y <;> rfl
  | some a =>
    cases y with
    | none =>
      obtain ⟨rfl, rfl⟩ := Yields.pure_iff.mp h
      exact ⟨.refl _, fun t ht => absurd ht.symm (by simp), rfl⟩
    | some b =>
      simp only [Resolver.layer, Yields.bind_iff, Yields.pure_iff] at h
      obtain ⟨t, m₁, hcompose, c, _, hall, rfl, rfl⟩ := h
      obtain ⟨hevolves, ht, hact⟩ := compose_handled hm (hx a rfl) (hy b rfl) hcompose
      obtain ⟨hevolves', hc, hacts⟩ := composeAll_handled (hevolves.orderly hm) ht
        (fun u hu => (hafter u hu).mono hevolves.identity) hall
      refine ⟨hevolves.trans hevolves', ?_, ?_⟩
      · intro t' ht'
        exact Option.some.inj ht' ▸ hc
      · have hcact : c.edit.act = actAll after ∘ b.edit.act ∘ a.edit.act := by
          funext s
          rw [hacts, hact]
          rfl
        exact congrArg some hcact

/-- **All pairs of alternatives**, one followed by the other. -/
theorem mapM_layer_handled {after : List Transformer} (hm : m.Orderly)
    (hafter : ∀ u ∈ after, m.Handles u) {xs : List (Option Transformer × Option Transformer)}
    (hxs : ∀ x ∈ xs, (∀ t, x.1 = some t → m.Handles t) ∧ ∀ t, x.2 = some t → m.Handles t)
    {l : List (Option Transformer)} (h : Yields (xs.mapM (Resolver.layer after)) m l m') :
    m.Evolves m' ∧ m'.HandlesAll l ∧
      l.map effectOf =
        xs.map fun x => (effectOf x.1).andThen ((effectOf x.2).andThen (some (actAll after))) := by
  induction xs generalizing m l with
  | nil =>
    rw [List.mapM_nil] at h
    obtain ⟨rfl, rfl⟩ := Yields.pure_iff.mp h
    exact ⟨.refl _, fun t ht => absurd ht List.not_mem_nil, rfl⟩
  | cons x rest ih =>
    simp only [List.mapM_cons, Yields.bind_iff, Yields.pure_iff] at h
    obtain ⟨z, m₁, hz, l', _, hrest, rfl, rfl⟩ := h
    obtain ⟨hfirst, hsecond⟩ := hxs x List.mem_cons_self
    obtain ⟨hevolves, hhandled, heffect⟩ := layer_handled hm hfirst hsecond hafter hz
    -- The pairs that are left are looked at by a manager that has evolved, with the same identity.
    have hothers : ∀ y ∈ rest, (∀ t, y.1 = some t → m₁.Handles t) ∧
        ∀ t, y.2 = some t → m₁.Handles t := by
      intro y hy
      obtain ⟨hfirst, hsecond⟩ := hxs y (List.mem_cons_of_mem x hy)
      exact ⟨fun t ht => (hfirst t ht).mono hevolves.identity,
        fun t ht => (hsecond t ht).mono hevolves.identity⟩
    obtain ⟨hevolves', hall, heffects⟩ := ih (hevolves.orderly hm)
      (fun u hu => (hafter u hu).mono hevolves.identity) hothers hrest
    refine ⟨hevolves.trans hevolves', fun t ht => ?_, ?_⟩
    · rcases List.mem_cons.mp ht with ht | ht
      · exact (hhandled t ht.symm).mono hevolves'.identity
      · exact hall t ht
    · rw [List.map_cons, List.map_cons, heffect, heffects]

end Manager

/-! ## Replaying -/

namespace Resolver

/-- **The resolver offers fixed alternatives** for the references in a field.  In every workspace
that satisfies `I`, and keeps doing so as its manager gives out instances, the alternatives for a
reference are those that are offered for it, up to serial numbers.  Each of them is missing, or it
waits for nothing and adds nothing that it removes unless it clears the field; and none passes for
the identity without being it. -/
structure Offers (r : Resolver) (holder : String) (I : Workspace → Prop)
    (offered : Ref → Set (Option Transformer)) :
    Prop where
  orderly : ∀ {w}, I w → w.manager.Orderly
  evolves : ∀ {w m}, I w → w.manager.Evolves m → I { w with manager := m }
  answer : ∀ {w w' ref found l}, I w → Yields (r.lookup holder ref) w found w' →
    found.outcome = .ok l →
    I w' ∧ w'.manager.identity = w.manager.identity ∧ (∀ t, some t ∈ l → w'.manager.Recognizes t) ∧
      {o | ∃ t ∈ l, t.map Transformer.contents = o} = offered ref
  plain : ∀ ref t, some t ∈ offered ref → t.Plain

variable {r : Resolver} {holder : String} {I : Workspace → Prop}
  {offered : Ref → Set (Option Transformer)}
  {w w' : Workspace} {l current : List (Option Transformer)} {steps : Sequence}

theorem effectOf_contents (choice : Option Transformer) :
    effectOf (choice.map Transformer.contents) = effectOf choice := by
  cases choice with
  | none => rfl
  | some t => simp [effectOf, Transformer.edit]

theorem effectsOf_eq_image (l : List (Option Transformer)) :
    effectsOf l = effectOf '' {o | ∃ t ∈ l, t.map Transformer.contents = o} := by
  ext e
  constructor
  · rintro ⟨choice, hchoice, rfl⟩
    exact ⟨_, ⟨choice, hchoice, rfl⟩, effectOf_contents choice⟩
  · rintro ⟨_, ⟨choice, hchoice, rfl⟩, rfl⟩
    exact ⟨choice, hchoice, (effectOf_contents choice).symm⟩

/-- Sorting alternatives keeps their contents. -/
theorem contents_sortTransformers (l : List (Option Transformer)) :
    {o | ∃ t ∈ sortTransformers l, t.map Transformer.contents = o} =
      {o | ∃ t ∈ l, t.map Transformer.contents = o} := by
  ext o
  refine Ordered.mem_distinctBy_keys (Option.map Transformer.contents) (fun x _ y _ hrank => ?_) o
  rcases Manager.cases_of_rank hrank with ⟨rfl, rfl⟩ | ⟨t, u, rfl, rfl, hcontents, _⟩
  · rfl
  · exact congrArg some hcontents

theorem effectsOf_sortTransformers (l : List (Option Transformer)) :
    effectsOf (sortTransformers l) = effectsOf l := by
  rw [effectsOf_eq_image, contents_sortTransformers, ← effectsOf_eq_image]

/-- Sorted alternatives are handled if all are. -/
theorem handlesAll_sortTransformers {m : Manager} (h : m.HandlesAll l) :
    m.HandlesAll (sortTransformers l) :=
  fun t ht => h t (Ordered.mem_of_mem_distinctBy ht)

/-- A transformer is plain if its contents are. -/
theorem plain_contents_iff {t : Transformer} : t.contents.Plain ↔ t.Plain := by
  have hedit : t.contents.edit = t.edit := by simp [Transformer.edit]
  constructor
  · rintro ⟨hsequence, hregular⟩
    exact ⟨Sequence.contentsOf_eq_none (Transformer.sequence_contents.symm.trans hsequence),
      hedit ▸ hregular⟩
  · rintro ⟨hsequence, hregular⟩
    exact ⟨by rw [Transformer.sequence_contents, hsequence]; rfl, hedit ▸ hregular⟩

/-- The alternatives for one step are handled, and do what is offered. -/
theorem stepAlternatives_effects (hr : r.Offers holder I offered) (hw : I w)
    {step : Step Transformer} (h : (r.stepAlternatives holder step).Returns w l w') :
    I w' ∧ w'.manager.identity = w.manager.identity ∧ w'.manager.HandlesAll l ∧
      effectsOf l = Sequence.stepEffects offered step := by
  unfold stepAlternatives at h
  unfold Sequence.stepEffects
  cases href : step.ref with
  | none =>
    simp only [href, Work.returns_bind, Work.returns_get, Work.returns_pure] at h
    obtain ⟨_, _, ⟨rfl, rfl⟩, rfl, rfl⟩ := h
    have hm := hr.orderly hw
    exact ⟨hw, rfl, hm.handlesAll_identity, hm.effectsOf_identity⟩
  | some ref =>
    simp only [href, Work.returns_bind, Work.returns_lift] at h
    obtain ⟨found, w₁, hfound, h⟩ := h
    cases houtcome : found.outcome with
    | error fault =>
      rw [houtcome] at h
      exact absurd h Work.returns_throw
    | ok l' =>
      rw [houtcome] at h
      obtain ⟨rfl, rfl⟩ := Work.returns_pure.mp h
      obtain ⟨hw', hidentity, hrecognized, hcontents⟩ := hr.answer hw hfound houtcome
      refine ⟨hw', hidentity, fun t ht => ⟨?_, hrecognized t ht⟩, ?_⟩
      · have hoffered : some t.contents ∈ offered ref := hcontents ▸ ⟨some t, ht, rfl⟩
        exact plain_contents_iff.mp (hr.plain ref _ hoffered)
      · rw [effectsOf_eq_image, hcontents]

/-- **One step of a replay**: what the alternatives so far do is followed by what the step
may do. -/
theorem step_effects (hr : r.Offers holder I offered) (hw : I w) {step : Step Transformer}
    {w₁ : Workspace} {m₂ : Manager} {next composed : List (Option Transformer)}
    (hcurrent : w.manager.HandlesAll current) (hafter : ∀ u ∈ step.after, w.manager.Handles u)
    (hnext : (r.stepAlternatives holder step).Returns w next w₁)
    (hcomposed : Yields ((pairs current next).mapM (layer step.after)) w₁.manager composed m₂) :
    I { w₁ with manager := m₂ } ∧ m₂.identity = w.manager.identity ∧ m₂.HandlesAll composed ∧
      effectsOf composed = followed (effectsOf current)
        (followed (Sequence.stepEffects offered step) {some (actAll step.after)}) := by
  obtain ⟨hw₁, hidentity, hhandled, hoffered⟩ := stepAlternatives_effects hr hw hnext
  have hpairs : ∀ {x : Option Transformer × Option Transformer},
      x ∈ pairs current next ↔ x.1 ∈ current ∧ x.2 ∈ next := by
    rintro ⟨a, b⟩
    simp [pairs]
  obtain ⟨hevolves, hall, heffects⟩ := Manager.mapM_layer_handled (hr.orderly hw₁)
    (fun u hu => (hafter u hu).mono hidentity) (fun x hx => by
      obtain ⟨hfirst, hsecond⟩ := hpairs.mp hx
      exact ⟨fun t ht => (hcurrent t (ht ▸ hfirst)).mono hidentity,
        fun t ht => hhandled t (ht ▸ hsecond)⟩) hcomposed
  refine ⟨hr.evolves hw₁ hevolves, hevolves.identity.trans hidentity, hall, ?_⟩
  have hmem : ∀ e, e ∈ effectsOf composed ↔ e ∈ composed.map effectOf := fun e => List.mem_map.symm
  ext e
  rw [hmem, heffects, List.mem_map, ← hoffered]
  constructor
  · rintro ⟨x, hx, rfl⟩
    obtain ⟨hfirst, hsecond⟩ := hpairs.mp hx
    exact ⟨_, ⟨x.1, hfirst, rfl⟩, _, ⟨_, ⟨x.2, hsecond, rfl⟩, _, rfl, rfl⟩, rfl⟩
  · rintro ⟨_, ⟨a, ha, rfl⟩, _, ⟨_, ⟨b, hb, rfl⟩, _, rfl, rfl⟩, rfl⟩
    exact ⟨(a, b), hpairs.mpr ⟨ha, hb⟩, rfl⟩

/-- **Replaying** follows what the alternatives so far do with what the unrolled steps may do. -/
theorem replay_effects (hr : r.Offers holder I offered) (hw : I w)
    (hcurrent : w.manager.HandlesAll current)
    (hsteps : ∀ u ∈ Sequence.trailing (some steps), w.manager.Handles u)
    (h : (r.replay holder current steps).Returns w l w') :
    I w' ∧ w'.manager.HandlesAll l ∧
      effectsOf l = followed (effectsOf current) (Sequence.unrolledEffects offered steps) := by
  induction steps generalizing w current with
  | nil =>
    obtain ⟨rfl, rfl⟩ := Work.returns_pure.mp h
    exact ⟨hw, hcurrent, by rw [Sequence.unrolledEffects_nil, followed_id]⟩
  | cons step rest ih =>
    obtain ⟨hafter, hrest⟩ := Sequence.forall_trailing_cons.mp hsteps
    simp only [replay, Work.returns_bind, Work.returns_managed] at h
    obtain ⟨next, w₁, hnext, composed, _, ⟨m₂, hcomposed, rfl⟩, h⟩ := h
    obtain ⟨hw₂, hidentity, hall, heffects⟩ := step_effects hr hw hcurrent hafter hnext hcomposed
    -- Sorting drops instances that are listed twice, which changes no effect.
    obtain ⟨hw', hl, heffects'⟩ := ih hw₂ (handlesAll_sortTransformers hall)
      (fun u hu => (hrest u hu).mono hidentity) h
    refine ⟨hw', hl, ?_⟩
    rw [heffects', effectsOf_sortTransformers, heffects, Sequence.unrolledEffects_cons,
      followed_assoc]

/-! ## Final values -/

/-- Applying alternatives without sequences to a content leaves contents, changed by what the
alternatives do. -/
theorem mapM_applyAlternative_effects {m m' : Manager} {content : Value}
    (hcontent : content.sequence = none) (hl : ∀ t, some t ∈ l → t.sequence = none)
    {values : List (Option Value)} (h : Yields (l.mapM (applyAlternative content)) m values m') :
    (∀ u, some u ∈ values → u.sequence = none) ∧
      values.map (Option.map fun u => OptionalSet.members u.set)
        = l.map fun choice => (effectOf choice).on (some (OptionalSet.members content.set)) := by
  induction l generalizing m values with
  | nil =>
    rw [List.mapM_nil] at h
    obtain ⟨rfl, rfl⟩ := Yields.pure_iff.mp h
    exact ⟨fun u hu => absurd hu List.not_mem_nil, rfl⟩
  | cons choice rest ih =>
    simp only [List.mapM_cons, Yields.bind_iff, Yields.pure_iff] at h
    obtain ⟨x, m₁, hx, values', _, hrest, rfl, rfl⟩ := h
    obtain ⟨hsequences, hmembers⟩ := ih (fun t ht => hl t (List.mem_cons_of_mem _ ht)) hrest
    have hfirst : (∀ u, x = some u → u.sequence = none) ∧
        x.map (fun u => OptionalSet.members u.set)
          = (effectOf choice).on (some (OptionalSet.members content.set)) := by
      cases choice with
      | none =>
        obtain ⟨rfl, rfl⟩ := Yields.pure_iff.mp hx
        exact ⟨fun u hu => absurd hu.symm (by simp), rfl⟩
      | some t =>
        simp only [applyAlternative, Yields.bind_iff, Yields.pure_iff] at hx
        obtain ⟨u, _, hu, rfl, rfl⟩ := hx
        obtain ⟨hsequence, hmembers, _⟩ := Manager.apply_edit (hl t List.mem_cons_self) hcontent hu
        refine ⟨fun u' hu' => ?_, congrArg some hmembers⟩
        exact Option.some.inj hu' ▸ hsequence
    refine ⟨fun u hu => ?_, ?_⟩
    · rcases List.mem_cons.mp hu with hu | hu
      · exact hfirst.1 u hu.symm
      · exact hsequences u hu
    · rw [List.map_cons, List.map_cons, hfirst.2, hmembers]

/-- **The final values** wait for nothing, and their contents are what unrolled steps make of the
partial content. -/
theorem finalValues_effects (hr : r.Offers holder I offered) (hw : I w) {v : Value}
    (hv : v.sequence = some steps)
    (hsteps : ∀ u ∈ Sequence.trailing (some steps), w.manager.Handles u)
    {values : List (Option Value)} (h : (r.finalValues holder v).Returns w values w') :
    (∀ u, some u ∈ values → u.sequence = none) ∧
      contentsRead values
        = (fun e : Effect => e.on (some (OptionalSet.members v.set))) ''
          Sequence.unrolledEffects offered steps := by
  unfold finalValues at h
  rw [hv] at h
  simp only [sequenceTransformers, Work.returns_bind, Work.returns_get, Work.returns_managed,
    Work.returns_pure] at h
  obtain ⟨ts, w₁, ⟨_, _, ⟨rfl, rfl⟩, hreplay⟩, content, _, ⟨m₂, hcontent, rfl⟩, found, _,
    ⟨m₃, hfound, rfl⟩, rfl, rfl⟩ := h
  have hm := hr.orderly hw
  obtain ⟨_, hts, heffects⟩ := replay_effects hr hw hm.handlesAll_identity hsteps hreplay
  rw [hm.effectsOf_identity, id_followed] at heffects
  -- The partial content is interned on its own; its set stays the same.
  obtain ⟨_, _, heq⟩ := Manager.internValue_evolves rfl hcontent
  have hset := congrArg Value.set heq
  have hconcrete : content.sequence = none :=
    Sequence.contentsOf_eq_none (congrArg Value.sequence heq)
  change content.set = v.set at hset
  obtain ⟨hsequences, hmembers⟩ :=
    mapM_applyAlternative_effects hconcrete (fun t ht => (hts t ht).plain.sequence) hfound
  refine ⟨fun u hu => hsequences u (Ordered.mem_of_mem_distinctBy hu), ?_⟩
  have hread : ∀ o, o ∈ contentsRead (Propagation.sortValues found) ↔
      o ∈ found.map (Option.map fun u => OptionalSet.members u.set) := by
    intro o
    rw [List.mem_map, contentsRead, Set.mem_ofPred_eq]
    have hmap : ∀ u : Option Value, (u.map Value.set).map OptionalSet.members
        = u.map fun u => OptionalSet.members u.set := by
      intro u
      cases u <;> rfl
    simpa only [hmap] using mem_sortValues_set (Option.map OptionalSet.members) found o
  -- Each transformer of the sequence gives one value, with its effect.
  ext o
  rw [hread, hmembers, List.mem_map, ← heffects, hset]
  constructor
  · rintro ⟨choice, hchoice, rfl⟩
    exact ⟨_, ⟨choice, hchoice, rfl⟩, rfl⟩
  · rintro ⟨_, ⟨choice, hchoice, rfl⟩, rfl⟩
    exact ⟨choice, hchoice, rfl⟩

/-- **Replaying by composition is replaying step by step.**  Let a value wait for a sequence, whose
steps replay transformers that wait for nothing and are regular, and let the resolver offer fixed
alternatives.  Then the contents of the final values are those that are left if the steps are
unrolled in some way, and what is chosen is applied one after the other to the partial content, by
whatever manager; nothing is left exactly if a choice is missing.  The final values wait for nothing
themselves.  Their keys increase strictly, behind the missing value, and none is listed twice. -/
theorem finalValues_stepwise {field : String} (hr : r.Offers field I offered) (hw : I w) {v : Value}
    (hv : v.sequence = some steps)
    (hsteps : ∀ u ∈ Sequence.trailing (some steps), w.manager.Handles u)
    {values : List (Option Value)} (h : (r.finalValues field v).Returns w values w') :
    (∀ n : Manager, contentsRead values
      = {o | ∃ plan u n', Sequence.Unrolls offered steps plan ∧
          Yields (Manager.applyEach plan (.draft v.set none)) n u n' ∧
            o = u.map fun u => OptionalSet.members u.set}) ∧
    (∀ plan n u n', Sequence.Unrolls offered steps plan →
      Yields (Manager.applyEach plan (.draft v.set none)) n u n' → (u = none ↔ none ∈ plan)) ∧
    (∀ u, some u ∈ values → u.isIntermediate = false) ∧
    values.Pairwise (fun a b => a.map Value.key < b.map Value.key) ∧ values.Nodup := by
  obtain ⟨hsequences, hcontents⟩ := finalValues_effects hr hw hv hsteps h
  -- Applying a plan has the effect of its members, whichever manager does it.
  have happlied : ∀ plan n u n', Sequence.Unrolls offered steps plan →
      Yields (Manager.applyEach plan (.draft v.set none)) n u n' →
      u.map (fun u => OptionalSet.members u.set) =
        (effectOfAll plan).on (some (OptionalSet.members v.set)) := by
    intro plan n u n' hunrolls hyields
    have hplan : ∀ t, some t ∈ plan → t.sequence = none := fun t ht =>
      (hunrolls.of_mem hr.plain (fun u hu => (hsteps u hu).plain) ht).sequence
    exact Manager.applyEach_effect (v := .draft v.set none) hplan rfl hyields
  refine ⟨fun n => ?_, fun plan n u n' _ => Manager.applyEach_eq_none, fun u hu => ?_,
    pairwise_finalValues h, (nodup_keys_finalValues h).of_map _⟩
  · rw [hcontents]
    ext o
    constructor
    · rintro ⟨_, ⟨plan, hunrolls, rfl⟩, rfl⟩
      obtain ⟨u, n', hyields⟩ := Yields.exists_run (Manager.applyEach plan (.draft v.set none)) n
      exact ⟨plan, u, n', hunrolls, hyields, (happlied plan n u n' hunrolls hyields).symm⟩
    · rintro ⟨plan, u, n', hunrolls, hyields, rfl⟩
      exact ⟨_, ⟨plan, hunrolls, rfl⟩, (happlied plan n u n' hunrolls hyields).symm⟩
  · rw [Value.isIntermediate, hsequences u hu]
    rfl

/-! ## A resolver that knows one value -/

/-- A value that tracks nothing on one path, and one field without content on another. -/
def forked : Propagation := .ofPaths 0 [.empty, PathValue.empty.set "f" (some (.draft none none))]

/-- The resolver that knows the value of one symbol, the forked one; one transformer stands for all
others. -/
def knowing (symbol : Element) (t : Transformer) : Resolver where
  resultAt _ other := if other = symbol then some forked else none
  finalize v := pure (some v)
  provider := some fun _ => pure t

/-- Where the contents of a field are empty, the identity stands for each of them. -/
theorem returns_ofContents_of_absent {op : String} {contents : List (Option Value)}
    (h : ∀ v, some v ∈ contents → v.set = none) :
    (ofContents op contents).Returns w
      (contents.map (Option.map fun _ => w.manager.identity)) w := by
  induction contents with
  | nil => exact Work.returns_pure.mpr ⟨rfl, rfl⟩
  | cons content rest ih =>
    have hrest := ih fun v hv => h v (List.mem_cons_of_mem _ hv)
    refine Work.returns_bind.mpr ⟨content.map fun _ => w.manager.identity, w, ?_, ?_⟩
    · cases content with
      | none => exact Work.returns_pure.mpr ⟨rfl, rfl⟩
      | some v =>
        have helements : OptionalSet.elements v.set = [] := by
          rw [h v List.mem_cons_self]
          rfl
        rw [ofContent, helements]
        rfl
    · exact Work.returns_bind.mpr ⟨_, w, hrest, Work.returns_pure.mpr ⟨rfl, rfl⟩⟩

/-- No field of the forked value has content. -/
theorem set_of_mem_valuesFor_forked {field : String} {v : Value}
    (hv : some v ∈ forked.valuesFor field) :
    v.set = none := by
  obtain ⟨p, hp, hvalue⟩ := List.mem_map.mp (Ordered.mem_of_mem_distinctBy hv)
  have hpaths : p = .empty ∨ p = PathValue.empty.set "f" (some (.draft none none)) := by
    simpa using Keyed.mem_of_mem_ofList hp
  rcases hpaths with rfl | rfl
  · cases hvalue
  · rw [PathValue.value?, PathValue.entry?_set] at hvalue
    split at hvalue
    · rw [← Option.some.inj hvalue]
      rfl
    · cases hvalue

/-- A resolver that knows the forked value, and takes values for final, offers no transformer or the
identity for it, one for each path. -/
theorem alternatives_forked {point symbol : Element} {field type op : String} {found : Alternatives}
    (hresult : r.resultAt point symbol = some forked)
    (hfinalize : r.finalize = fun v => pure (some v))
    (h : Yields (r.alternatives point symbol field type op) w found w') :
    w'.manager = w.manager ∧ found.outcome
      = .ok (sortTransformers
        ((forked.valuesFor field).map (Option.map fun _ => w.manager.identity))) := by
  have hreach : (r.reach point symbol).Returns w (some forked) w := by
    rw [reach, hresult, hfinalize]
    rfl
  have hmade : (ofContents op (forked.valuesFor field)).Returns w _ w :=
    returns_ofContents_of_absent fun v => set_of_mem_valuesFor_forked
  have hyields : Yields (r.alternatives point symbol field type op) w _ _ :=
    Yields.bind_iff.mpr
      ⟨_, _, hreach, Yields.bind_iff.mpr ⟨_, _, hmade, Yields.bind_iff.mpr ⟨_, _, rfl, rfl⟩⟩⟩
  obtain ⟨rfl, rfl⟩ := h.unique hyields
  exact ⟨rfl, rfl⟩

/-- **What a resolver that knows one value offers**: for that value no transformer or the identity,
one for each path, and for all others the transformer that stands for them. -/
theorem alternatives_knowing {known point symbol : Element} {t : Transformer}
    {field type op : String} {found : Alternatives} (ht : w.manager.pool.Holds t)
    (h : Yields ((knowing known t).alternatives point symbol field type op) w found w') :
    w'.manager = w.manager ∧ found.outcome = .ok (if symbol = known then
      sortTransformers ((forked.valuesFor field).map (Option.map fun _ => w.manager.identity))
        else [some t]) := by
  by_cases hknown : symbol = known
  · rw [if_pos hknown]
    exact alternatives_forked (if_pos hknown) rfl h
  · rw [if_neg hknown]
    exact (alternatives_of_unknown (if_neg hknown) rfl ht h).symm

/-- Such a resolver always finds alternatives, also if that transformer is not canonical. -/
theorem exists_alternatives_knowing {known point symbol : Element} {t : Transformer}
    {field type op : String} {found : Alternatives}
    (h : Yields ((knowing known t).alternatives point symbol field type op) w found w') :
    ∃ l, found.outcome = .ok l := by
  by_cases hknown : symbol = known
  · exact ⟨_, (alternatives_forked (if_pos hknown) rfl h).2⟩
  · obtain ⟨c, _, houtcome⟩ := alternatives_of_provided (if_neg hknown) rfl h
    exact ⟨_, houtcome⟩

/-- What the resolver offers for a reference in the field `holder`. -/
def knowingOffers (known : Element) (t : Transformer) (holder : String) (ref : Ref) :
    Set (Option Transformer) :=
  if ref.symbol = known then
    {o | ∃ v ∈ forked.valuesFor (ref.fieldIn holder), v.map (fun _ => .blank) = o}
  else {some t.contents}

/-- A resolver that knows one value offers fixed alternatives, if a plain canonical transformer
stands for the others. -/
theorem offers_knowing (known : Element) {t : Transformer} (ht : t.Plain) (holder : String) :
    (knowing known t).Offers holder (fun w => w.manager.Orderly ∧ w.manager.pool.Holds t)
      (knowingOffers known t holder) where
  orderly h := h.1
  evolves h hevolves := ⟨hevolves.orderly h.1, h.2.mono hevolves.keeps⟩
  answer := by
    intro w w' ref found l ⟨hm, hheld⟩ hfound hl
    obtain ⟨hmanager, houtcome⟩ := alternatives_knowing hheld hfound
    obtain rfl := Except.ok.inj (houtcome.symm.trans hl)
    rw [hmanager]
    refine ⟨⟨hm, hheld⟩, rfl, ?_, ?_⟩
    · intro u hu
      split at hu
      · obtain ⟨v, _, hv⟩ := List.mem_map.mp (Ordered.mem_of_mem_distinctBy hu)
        obtain ⟨_, _, rfl⟩ := Option.map_eq_some_iff.mp hv
        exact fun _ => rfl
      · rw [List.mem_singleton, Option.some.injEq] at hu
        exact hu ▸ hm.recognizes hheld
    · unfold knowingOffers
      split
      · have hblank : (Transformer.contents ∘ fun _ : Value => w.manager.identity) =
            fun _ => .blank :=
          funext fun _ => hm.blank
        rw [contents_sortTransformers]
        ext o
        simp only [List.mem_map, Set.mem_ofPred_eq, exists_exists_and_eq_and,
          Option.map_map, hblank]
      · ext o
        simp [eq_comm]
  plain := by
    intro ref u hu
    unfold knowingOffers at hu
    split at hu
    · obtain ⟨v, _, hv⟩ := hu
      obtain ⟨_, _, rfl⟩ := Option.map_eq_some_iff.mp hv
      exact Instance.plain_blank.body
    · rw [Set.mem_singleton_iff, Option.some.injEq] at hu
      exact hu ▸ plain_contents_iff.mpr ht

/-- A resolver that always finds alternatives finds final values. -/
theorem exists_returns_finalValues (field : String)
    (hfound : ∀ w w' ref found, Yields (r.lookup field ref) w found w' → ∃ l, found.outcome = .ok l)
    (w : Workspace) (v : Value) : ∃ values w', (r.finalValues field v).Returns w values w' := by
  have hstep : ∀ step w, ¬(r.stepAlternatives field step).Fails w := by
    intro step w hfails
    obtain ⟨_, hstops⟩ := hfails.exists_stops
    obtain ⟨q, hq, w₁, found, fault, _, hyields, herror⟩ :=
      (asks_stepAlternatives (I := fun _ => True) trivial step).stops hstops
    obtain ⟨rfl, _⟩ := Sequence.mem_awaited.mp hq
    obtain ⟨l, hl⟩ := hfound w₁ _ q.2 found hyields
    cases hl.symm.trans herror
  have hreplay : ∀ steps current w, ¬(r.replay field current steps).Fails w := by
    intro steps
    induction steps with
    | nil => exact fun _ _ => Work.fails_pure
    | cons step rest ih =>
      intro current w hfails
      simp only [replay, Work.fails_bind, hstep, Work.fails_managed, ih, and_false, exists_false,
        or_self] at hfails
  refine (Work.returns_or_fails _ w).resolve_right ?_
  unfold finalValues
  cases v.sequence with
  | none => exact Work.fails_pure
  | some steps =>
    simp only [sequenceTransformers, Work.fails_bind, Work.fails_get, hreplay, Work.fails_managed,
      Work.fails_pure, and_false, exists_false, or_self, not_false_eq_true]

/-- The two paths of the forked value show in its field. -/
theorem none_mem_valuesFor_forked : none ∈ forked.valuesFor "f" := by
  have hpath : ∃ p ∈ forked.toList, PathValue.view p = PathValue.empty.view :=
    (Keyed.mem_ofList_keys PathValue.view (fun p _ q _ => PathValue.view_eq_of_key) _).mpr
      ⟨_, List.mem_cons_self, rfl⟩
  obtain ⟨p, hp, hview⟩ := hpath
  have hentry : p.entry? "f" = none := Option.map_eq_none_iff.mp (congrFun hview "f")
  have hvalue : p.value? "f" = none := by rw [PathValue.value?, hentry]; rfl
  obtain ⟨v, hv, hnone⟩ := (mem_sortValues id (forked.toList.map fun p => p.value? "f") none).mpr
    ⟨p.value? "f", List.mem_map.mpr ⟨p, hp, rfl⟩, by rw [hvalue]; rfl⟩
  rw [id, Option.map_eq_none_iff] at hnone
  exact hnone ▸ hv

/-- An edit, a reference to the value of `p` with the edit behind it twice, and a reference to the
value of `o`. -/
def referring (b : Transformer) : Sequence :=
  [⟨none, [b]⟩, ⟨some ⟨.string "p", .string "q", "add", "string", ""⟩, [b, b]⟩,
    ⟨some ⟨.string "o", .string "q", "add", "string", ""⟩, []⟩]

/-- One of the references leads to a value that does not track the field on every path. -/
theorem finalValues_stepwise_forked : ∃ (w w' : Workspace) (t b : Transformer) (v : Value)
    (values : List (Option Value)),
    t.contents = .draft (some (.singleton (.string "x"))) none false none ∧
    b.contents = .draft none (some (.singleton (.string "y"))) false none ∧
    v = .draft (some (.singleton (.string "y"))) (some (referring b)) ∧
    ((knowing (.string "p") t).finalValues "f" v).Returns w values w' ∧ none ∈ contentsRead values ∧
    (∀ n : Manager, contentsRead values
      = {o | ∃ plan u n', Sequence.Unrolls (knowingOffers (.string "p") t "f") (referring b) plan ∧
          Yields (Manager.applyEach plan (.draft v.set none)) n u n' ∧
            o = u.map fun u => OptionalSet.members u.set}) ∧
    (∀ plan n u n', Sequence.Unrolls (knowingOffers (.string "p") t "f") (referring b) plan →
      Yields (Manager.applyEach plan (.draft v.set none)) n u n' → (u = none ↔ none ∈ plan)) ∧
    (∀ u, some u ∈ values → u.isIntermediate = false) ∧
    values.Pairwise (fun a b => a.map Value.key < b.map Value.key) ∧ values.Nodup := by
  obtain ⟨m, t, b, hm, ht, hb, htcontents, hbcontents⟩ := Manager.exists_holds_edits
    (some (.singleton (.string "x"))) none none (some (.singleton (.string "y")))
  have htplain : t.Plain := by
    obtain ⟨_, hremove, _, hsequence⟩ := Transformer.fields_of_contents htcontents
    refine ⟨hsequence, .inr ?_⟩
    simp [Transformer.edit, hremove]
  have hbplain : b.Plain := by
    obtain ⟨hadd, _, _, hsequence⟩ := Transformer.fields_of_contents hbcontents
    refine ⟨hsequence, .inr ?_⟩
    simp [Transformer.edit, hadd]
  obtain ⟨values, w', hvalues⟩ := exists_returns_finalValues (r := knowing (.string "p") t) "f"
    (fun _ _ _ _ hyields => exists_alternatives_knowing hyields)
      { Workspace.create with manager := m }
    (.draft (some (.singleton (.string "y"))) (some (referring b)))
  obtain ⟨hcontents, hmissing, hrest⟩ :=
    finalValues_stepwise (offers_knowing (.string "p") htplain "f") ⟨hm, ht⟩ rfl
      (fun u hu => by
        have hu : u = b := by simpa [referring, Sequence.trailing] using hu
        exact hu ▸ ⟨hbplain, hm.recognizes hb⟩) hvalues
  refine ⟨_, w', t, b, _, values, htcontents, hbcontents, rfl, hvalues, ?_, hcontents,
    hmissing, hrest⟩
  -- The path that does not track the field is chosen.
  have hnone :
      none ∈ knowingOffers (.string "p") t "f" ⟨.string "p", .string "q", "add", "string", ""⟩ := by
    rw [knowingOffers, if_pos rfl]
    exact ⟨none, none_mem_valuesFor_forked, rfl⟩
  have hother :
      some t.contents ∈
        knowingOffers (.string "p") t "f" ⟨.string "o", .string "q", "add", "string", ""⟩ := by
    rw [knowingOffers, if_neg (by decide)]
    rfl
  have hunrolls : Sequence.Unrolls (knowingOffers (.string "p") t "f") (referring b)
      [some b, none, some b, some b, some t.contents] :=
        .plain rfl (.chosen rfl hnone (.chosen rfl hother .nil))
  obtain ⟨u, n', hyields⟩ := Yields.exists_run (Manager.applyEach _ _) m
  have hu : u = none := (hmissing _ m u n' hunrolls hyields).mpr (by simp)
  rw [hcontents m]
  exact ⟨_, u, n', hunrolls, hyields, by rw [hu]; rfl⟩

end Resolver

end FieldFlow
