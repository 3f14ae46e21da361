import FieldFlow.Proofs.Composition
import FieldFlow.Proofs.Edits
import FieldFlow.Resolution

/-!
# Replaying sequences

What a sequence stands for is a set of choices: for every reference one of its alternatives is
chosen, and what follows is composed onto it.  Replaying in a workspace computes this set, whatever
the order of the alternatives and whatever instances with the same contents collapse, and it fails
exactly if one of the references has no alternatives at all.

Main definitions: `replays`, `resolutions`, `outcomes`, `Resolver.Serves`, `Resolver.Asks`.
Main results: `Resolver.replay_spec`, `Resolver.finalValues_resolutions`,
`Resolver.asks_finalValues`.
-/

namespace FieldFlow

/-! ## Choices -/

/-- One choice followed by another and by canonical transformers; a missing one stays missing. -/
def layered (after : List Transformer) : Option Instance → Option Instance → Option Instance
  | some c, some d => some ((c.comp d).compAll after)
  | _, _ => none

/-- The choices for one step, where `answers` gives those for its reference. -/
def choices (answers : Ref → Set (Option Instance)) (step : Step Transformer) :
    Set (Option Instance) :=
  match step.ref with
  | none => {some (.canonical .blank)}
  | some ref => answers ref

/-- The choices so far, each followed by every choice for the steps of a sequence. -/
def replays (answers : Ref → Set (Option Instance)) :
    Sequence → Set (Option Instance) → Set (Option Instance)
  | [], current => current
  | step :: rest, current =>
    replays answers rest
      {x | ∃ c ∈ current, ∃ d ∈ choices answers step, x = layered step.after c d}

/-- What a sequence in the field `holder` waits for, in the order in which it is asked for. -/
def Sequence.awaited (holder : String) (steps : Sequence) : List (String × Ref) :=
  steps.refs.map fun ref => (holder, ref)

theorem Sequence.awaited_cons (holder : String) (step : Step Transformer) (rest : Sequence) :
    awaited holder (step :: rest) = awaited holder [step] ++ awaited holder rest := by
  unfold awaited refs
  cases href : step.ref <;> simp [href]

/-- What a sequence waits for are the references of its steps. -/
theorem Sequence.mem_awaited {holder name : String} {steps : Sequence} {ref : Ref} :
    (name, ref) ∈ awaited holder steps ↔ name = holder ∧ ∃ step ∈ steps, step.ref = some ref := by
  unfold awaited refs
  simp only [List.mem_map, List.mem_filterMap, Prod.mk.injEq]
  constructor
  · rintro ⟨_, hstep, rfl, rfl⟩
    exact ⟨rfl, hstep⟩
  · rintro ⟨rfl, hstep⟩
    exact ⟨ref, hstep, rfl, rfl⟩

/-- What a value may turn out to be: no content at all, or the members of a set. -/
def outcomes (answers : Ref → Set (Option Instance)) (v : Value) : Set (Option (Set Element)) :=
  {o | ∃ c ∈ replays answers (v.sequence.getD []) {some (.canonical .blank)},
    o = c.map fun i => i.body.edit.act (OptionalSet.members v.set)}

/-- Applying a transformer to a value that waits for nothing edits its members. -/
theorem Transformer.members_on {t : Transformer} {v : Value} (h : v.sequence = none) :
    OptionalSet.members (t.on v).set = t.edit.act (OptionalSet.members v.set) := by
  have hpending : (if t.clear then none else v.sequence) = none := by simp [h]
  unfold Transformer.on
  rw [hpending]
  simp only [Value.draft, OptionalSet.members_extend, OptionalSet.members_reduce, Edit.act, edit]
  by_cases hclear : t.clear = true <;> simp [hclear]

/-- What a value may turn out to be: nothing at all, or a value that waits for nothing. -/
def resolutions (answers : Ref → Set (Option Instance)) (v : Value) : Set (Option Value) :=
  {o | ∃ c ∈ replays answers (v.sequence.getD []) {some (.canonical .blank)},
    o = c.map fun i => i.body.on (.draft v.set none)}

/-- The outcomes of a value are the members of what it may turn out to be. -/
theorem outcomes_eq_image (answers : Ref → Set (Option Instance)) (v : Value) :
    outcomes answers v
      = Option.map (fun u : Value => OptionalSet.members u.set) '' resolutions answers v := by
  have hmembers : ∀ c : Option Instance,
      (c.map fun i => i.body.on (.draft v.set none)).map (fun u => OptionalSet.members u.set)
        = c.map fun i => i.body.edit.act (OptionalSet.members v.set) := by
    intro c
    cases c with
    | none => rfl
    | some i => exact congrArg some (Transformer.members_on rfl)
  ext o
  constructor
  · rintro ⟨c, hc, rfl⟩
    exact ⟨_, ⟨c, hc, rfl⟩, hmembers c⟩
  · rintro ⟨_, ⟨c, hc, rfl⟩, rfl⟩
    exact ⟨c, hc, hmembers c⟩

/-- A value that waits for nothing may turn out to be nothing but itself. -/
theorem resolutions_contents {answers : Ref → Set (Option Instance)} {v : Value}
    (h : v.sequence = none) :
    resolutions answers v.contents = {some v.contents} := by
  have hcontents : v.contents = .draft v.set none := by
    rw [Value.contents, h]
    rfl
  have hblank : (Instance.canonical .blank).body.on (.draft v.set none) = .draft v.set none := rfl
  ext o
  rw [hcontents]
  constructor
  · rintro ⟨c, rfl, rfl⟩
    exact congrArg some hblank
  · rintro rfl
    exact ⟨_, rfl, (congrArg some hblank).symm⟩

/-! ## Alternatives in a manager -/

namespace Manager

variable {m m' : Manager} {l : List (Option Transformer)}

/-- The alternatives as the manager sees them. -/
def view (m : Manager) (l : List (Option Transformer)) : Set (Option Instance) :=
  {c | ∃ o ∈ l, o.map m.instanceOf = c}

/-- The manager knows every alternative. -/
def KnowsAll (m : Manager) (l : List (Option Transformer)) : Prop := ∀ t, some t ∈ l → m.Knows t

/-- A manager that grows sees the alternatives as before. -/
theorem Grows.view_eq (h : m.Grows m') (l : List (Option Transformer)) : m'.view l = m.view l := by
  have hsame : m'.instanceOf = m.instanceOf := funext h.instanceOf_eq
  rw [view, view, hsame]

/-- A manager that grows still knows the alternatives. -/
theorem KnowsAll.mono (hl : m.KnowsAll l) (h : m.Grows m') : m'.KnowsAll l :=
  fun t ht => (hl t ht).mono h

theorem Sound.view_identity (h : m.Sound) :
    m.view [some m.identity] = {some (.canonical .blank)} := by
  ext c
  simp [view, h.instanceOf_identity, eq_comm]

theorem Sound.knowsAll_identity (h : m.Sound) : m.KnowsAll [some m.identity] := by
  intro t ht
  rw [List.mem_singleton, Option.some.injEq] at ht
  exact ht ▸ h.knows h.identity

/-- Alternatives of the same rank are both missing, or they have the same contents and the same
serial number. -/
theorem cases_of_rank {a b : Option Transformer} (h : Resolver.rankOf a = Resolver.rankOf b) :
    (a = none ∧ b = none) ∨ ∃ t u, a = some t ∧ b = some u ∧ t.contents = u.contents ∧
      t.serial = u.serial := by
  have hne : ∀ t : Transformer, t.rank ≠ Rank.first := by
    intro t heq
    have hkey : t.key = "" := congrArg Rank.key heq
    have hlist := congrArg String.toList hkey
    rw [Sequence.toList_transformerKey] at hlist
    cases hlist
  cases a with
  | none =>
    cases b with
    | none => exact .inl ⟨rfl, rfl⟩
    | some u => exact absurd h.symm (hne u)
  | some t =>
    cases b with
    | none => exact absurd h (hne t)
    | some u =>
      have hkey : t.key = u.key := congrArg Rank.key h
      exact .inr ⟨t, u, rfl, rfl, Transformer.key_eq_iff.mp hkey, congrArg Rank.serial h⟩

/-- Alternatives of the same rank look the same. -/
theorem instanceOf_eq_of_rank {a b : Option Transformer}
    (h : Resolver.rankOf a = Resolver.rankOf b) :
    a.map m.instanceOf = b.map m.instanceOf := by
  rcases cases_of_rank h with ⟨rfl, rfl⟩ | ⟨t, u, rfl, rfl, hcontents, hserial⟩
  · rfl
  · rw [Option.map_some, Option.map_some, instanceOf, instanceOf, hcontents, hserial]

/-- Sorting the alternatives changes nothing. -/
theorem view_sortTransformers (l : List (Option Transformer)) :
    m.view (Resolver.sortTransformers l) = m.view l := by
  ext c
  exact Ordered.mem_distinctBy_keys (Option.map m.instanceOf)
    (fun _ _ _ _ h => instanceOf_eq_of_rank h) c

/-- Sorted alternatives are known if all are. -/
theorem KnowsAll.sortTransformers (h : m.KnowsAll l) : m.KnowsAll (Resolver.sortTransformers l) :=
  fun t ht => h t (Ordered.mem_of_mem_distinctBy ht)

theorem layer_spec {after : List Transformer} {a b o : Option Transformer} (hm : m.Sound)
    (ha : ∀ t, a = some t → m.Knows t) (hb : ∀ t, b = some t → m.Knows t)
    (hafter : ∀ u ∈ after, m.pool.Holds u) (h : Yields (Resolver.layer after (a, b)) m o m') :
    m.Grows m' ∧ (∀ t, o = some t → m'.Knows t) ∧
      o.map m'.instanceOf = layered (after.map Transformer.contents) (a.map m.instanceOf)
        (b.map m.instanceOf) := by
  cases a with
  | none =>
    obtain ⟨rfl, rfl⟩ := Yields.pure_iff.mp h
    exact ⟨hm.grows, fun t ht => absurd ht (by simp), rfl⟩
  | some t =>
    cases b with
    | none =>
      obtain ⟨rfl, rfl⟩ := Yields.pure_iff.mp h
      exact ⟨hm.grows, fun t ht => absurd ht (by simp), rfl⟩
    | some u =>
      simp only [Resolver.layer, Yields.bind_iff, Yields.pure_iff] at h
      obtain ⟨t', m₁, hcompose, c, _, hall, rfl, rfl⟩ := h
      obtain ⟨hgrows, ht', hinstance, _⟩ := compose_spec hm (ha t rfl) (hb u rfl) hcompose
      obtain ⟨hgrows', hc, heq, _⟩ := composeAll_spec hgrows.sound ht'
        (fun w hw => (hafter w hw).mono hgrows.pool) hall
      refine ⟨hgrows.trans hgrows', ?_, ?_⟩
      · intro t'' ht''
        exact Option.some.inj ht'' ▸ hc
      · rw [Option.map_some, heq, hinstance]
        rfl

/-- **All pairs of alternatives**, one followed by the other. -/
theorem mapM_layer_spec {after : List Transformer} (hafter : ∀ u ∈ after, m.pool.Holds u)
    (hm : m.Sound) {xs : List (Option Transformer × Option Transformer)}
    (hxs : ∀ x ∈ xs, (∀ t, x.1 = some t → m.Knows t) ∧ ∀ t, x.2 = some t → m.Knows t)
    (h : Yields (xs.mapM (Resolver.layer after)) m l m') :
    m.Grows m' ∧ m'.KnowsAll l ∧
      l.map (Option.map m'.instanceOf) = xs.map fun x =>
        layered (after.map Transformer.contents) (x.1.map m.instanceOf) (x.2.map m.instanceOf) := by
  induction xs generalizing m l with
  | nil =>
    rw [List.mapM_nil] at h
    obtain ⟨rfl, rfl⟩ := Yields.pure_iff.mp h
    exact ⟨hm.grows, fun t ht => absurd ht (by simp), rfl⟩
  | cons x rest ih =>
    simp only [List.mapM_cons, Yields.bind_iff, Yields.pure_iff] at h
    obtain ⟨o, m₁, ho, l', _, hrest, rfl, rfl⟩ := h
    obtain ⟨hfirst, hsecond⟩ := hxs x List.mem_cons_self
    obtain ⟨hgrows, hknows, hinstance⟩ := layer_spec hm hfirst hsecond hafter ho
    obtain ⟨hgrows', hall, heq⟩ := ih (fun u hu => (hafter u hu).mono hgrows.pool) hgrows.sound
      (fun y hy => ⟨fun t ht => ((hxs y (List.mem_cons_of_mem x hy)).1 t ht).mono hgrows,
        fun t ht => ((hxs y (List.mem_cons_of_mem x hy)).2 t ht).mono hgrows⟩) hrest
    have hsame : _ = m.instanceOf := funext hgrows.instanceOf_eq
    have hsame' := funext hgrows'.instanceOf_eq
    refine ⟨hgrows.trans hgrows', ?_, ?_⟩
    · intro t ht
      rcases List.mem_cons.mp ht with ht | ht
      · exact (hknows t ht.symm).mono hgrows'
      · exact hall t ht
    · rw [List.map_cons, List.map_cons, heq, hsame, hsame', hinstance]

end Manager

/-! ## Resolvers -/

namespace Resolver

/-- The alternatives that the resolver gives for a reference in the field `holder`. -/
def lookup (r : Resolver) (holder : String) (ref : Ref) : StateM Workspace Alternatives :=
  r.alternatives ref.point ref.symbol (ref.fieldIn holder) ref.type ref.op

/-- In every workspace that satisfies `I`, and keeps doing so as its manager grows, the resolver
gives known alternatives for each reference, which look as `answers` says. -/
structure Serves (r : Resolver) (holder : String) (I : Workspace → Prop)
    (answers : Ref → Set (Option Instance)) : Prop where
  sound : ∀ {w}, I w → w.manager.Sound
  grows : ∀ {w m}, I w → w.manager.Grows m → I { w with manager := m }
  answer : ∀ {w w' ref found l}, I w → Yields (r.lookup holder ref) w found w' →
    found.outcome = .ok l →
    I w' ∧ w.manager.Grows w'.manager ∧ w'.manager.KnowsAll l ∧ w'.manager.view l = answers ref

variable {r : Resolver} {holder : String} {I : Workspace → Prop}
  {answers : Ref → Set (Option Instance)} {w w' : Workspace}

theorem stepAlternatives_spec (hr : r.Serves holder I answers) (hw : I w) {step : Step Transformer}
    {l : List (Option Transformer)} (h : (r.stepAlternatives holder step).Returns w l w') :
    I w' ∧ w.manager.Grows w'.manager ∧ w'.manager.KnowsAll l ∧
      w'.manager.view l = choices answers step := by
  have hm := hr.sound hw
  unfold stepAlternatives at h
  unfold choices
  cases href : step.ref with
  | none =>
    simp only [href, Work.returns_bind, Work.returns_get, Work.returns_pure] at h
    obtain ⟨_, _, ⟨rfl, rfl⟩, rfl, rfl⟩ := h
    exact ⟨hw, hm.grows, hm.knowsAll_identity, hm.view_identity⟩
  | some ref =>
    simp only [href, Work.returns_bind, Work.returns_lift] at h
    obtain ⟨found, w₁, hfound, h⟩ := h
    cases houtcome : found.outcome with
    | error fault =>
      rw [houtcome] at h
      exact absurd h Work.returns_throw
    | ok l' =>
      rw [houtcome] at h
      obtain ⟨rfl, rfl⟩ := Work.returns_pure.mp h
      exact hr.answer hw hfound houtcome

/-- **One step of a replay** pairs every choice so far with every choice for the step. -/
theorem step_spec (hr : r.Serves holder I answers) (hw : I w) {step : Step Transformer}
    {w₁ : Workspace} {m₂ : Manager} {current next composed : List (Option Transformer)}
    (hcurrent : w.manager.KnowsAll current) (hafter : ∀ u ∈ step.after, w.manager.pool.Holds u)
    (hnext : (r.stepAlternatives holder step).Returns w next w₁)
    (hcomposed : Yields ((pairs current next).mapM (layer step.after)) w₁.manager composed m₂) :
    I { w₁ with manager := m₂ } ∧ w.manager.Grows m₂ ∧ m₂.KnowsAll composed ∧
      m₂.view composed = {x | ∃ c ∈ w.manager.view current, ∃ d ∈ choices answers step,
        x = layered (step.after.map Transformer.contents) c d} := by
  obtain ⟨hw₁, hgrows₁, hknown, hview⟩ := stepAlternatives_spec hr hw hnext
  have hcurrent₁ := hcurrent.mono hgrows₁
  obtain ⟨hgrows₂, hall, heq⟩ := Manager.mapM_layer_spec
    (fun u hu => (hafter u hu).mono hgrows₁.pool) (hr.sound hw₁) (by
      intro x hx
      obtain ⟨a, ha, hx⟩ := List.mem_flatMap.mp hx
      obtain ⟨b, hb, rfl⟩ := List.mem_map.mp hx
      exact ⟨fun t ht => hcurrent₁ t (ht ▸ ha), fun t ht => hknown t (ht ▸ hb)⟩) hcomposed
  refine ⟨hr.grows hw₁ hgrows₂, hgrows₁.trans hgrows₂, hall, ?_⟩
  have hmem : ∀ c, c ∈ m₂.view composed ↔ c ∈ composed.map (Option.map m₂.instanceOf) := by
    intro c
    rw [List.mem_map]
    rfl
  ext c
  rw [hmem, heq, ← hgrows₁.view_eq current, ← hview, List.mem_map]
  constructor
  · rintro ⟨x, hx, rfl⟩
    obtain ⟨a, ha, hx⟩ := List.mem_flatMap.mp hx
    obtain ⟨b, hb, rfl⟩ := List.mem_map.mp hx
    exact ⟨_, ⟨a, ha, rfl⟩, _, ⟨b, hb, rfl⟩, rfl⟩
  · rintro ⟨_, ⟨a, ha, rfl⟩, _, ⟨b, hb, rfl⟩, rfl⟩
    exact ⟨(a, b), List.mem_flatMap.mpr ⟨a, ha, List.mem_map.mpr ⟨b, hb, rfl⟩⟩, rfl⟩

/-- **Replaying** gives the choices for all references, each followed by what comes after it. -/
theorem replay_spec (hr : r.Serves holder I answers) (hw : I w) {steps : Sequence}
    {current l : List (Option Transformer)} (hcurrent : w.manager.KnowsAll current)
    (hsteps : ∀ u ∈ Sequence.trailing (some steps), w.manager.pool.Holds u)
    (h : (r.replay holder current steps).Returns w l w') :
    I w' ∧ w.manager.Grows w'.manager ∧ w'.manager.KnowsAll l ∧
      w'.manager.view l =
        replays answers (steps.map Sequence.contentsOfStep) (w.manager.view current) := by
  induction steps generalizing w current with
  | nil =>
    obtain ⟨rfl, rfl⟩ := Work.returns_pure.mp h
    exact ⟨hw, (hr.sound hw).grows, hcurrent, rfl⟩
  | cons step rest ih =>
    obtain ⟨hafter, hrest⟩ := Sequence.forall_trailing_cons.mp hsteps
    simp only [replay, Work.returns_bind, Work.returns_managed] at h
    obtain ⟨next, w₁, hnext, composed, _, ⟨m₂, hcomposed, rfl⟩, h⟩ := h
    obtain ⟨hw₂, hgrows, hall, hview⟩ := step_spec hr hw hcurrent hafter hnext hcomposed
    obtain ⟨hw', hgrows', hl, hviewl⟩ := ih hw₂ hall.sortTransformers
      (fun u hu => (hrest u hu).mono hgrows.pool) h
    refine ⟨hw', hgrows.trans hgrows', hl, ?_⟩
    rw [hviewl, Manager.view_sortTransformers, hview, List.map_cons, replays,
      Sequence.contentsOfStep_eq]
    rfl

/-! ## Unknown values -/

/-- Of a value that is unknown the transformer for one is offered. -/
theorem exists_alternatives_of_unknown (w' : Workspace) {point symbol : Element} {type : String}
    {t : Transformer} (hresult : r.resultAt point symbol = none)
    (htop : ∀ log, (r.top type).Returns { w with log := log } t { w' with log := log })
    (field op : String) :
    ∃ log, Yields (r.alternatives point symbol field type op) w ⟨true, .ok [some t]⟩
      { w' with log := log } := by
  have hreach : (r.reach point symbol).Returns w none w := by
    rw [reach, hresult]
    rfl
  exact ⟨_, Yields.bind_iff.mpr ⟨_, _, hreach, Yields.bind_iff.mpr ⟨_, _, rfl,
    Yields.bind_iff.mpr ⟨_, _, htop _, rfl⟩⟩⟩⟩

/-- **What is provided is interned** before it is offered. -/
theorem alternatives_of_provided {point symbol : Element} {field type op : String}
    {found : Alternatives} {t : Transformer} (hresult : r.resultAt point symbol = none)
    (hprovider : r.provider = some fun _ => pure t)
    (h : Yields (r.alternatives point symbol field type op) w found w') :
    ∃ c, Yields (Manager.intern t) w.manager c w'.manager ∧ found.outcome = .ok [some c] := by
  obtain ⟨c, m, hintern⟩ := Yields.exists_run (Manager.intern t) w.manager
  have htop : ∀ log, (r.top type).Returns { w with log := log } c
      { w with manager := m, log := log } := by
    intro log
    rw [top, hprovider]
    exact Work.returns_bind.mpr ⟨t, { w with log := log }, rfl,
      Work.returns_managed.mpr ⟨m, hintern, rfl⟩⟩
  obtain ⟨log, hyields⟩ := exists_alternatives_of_unknown { w with manager := m } hresult htop
    field op
  obtain ⟨rfl, rfl⟩ := h.unique hyields
  exact ⟨c, hintern, rfl⟩

/-- A canonical transformer is offered as it is provided. -/
theorem alternatives_of_unknown {point symbol : Element} {field type op : String}
    {found : Alternatives} {t : Transformer} (hresult : r.resultAt point symbol = none)
    (hprovider : r.provider = some fun _ => pure t) (ht : w.manager.pool.Holds t)
    (h : Yields (r.alternatives point symbol field type op) w found w') :
    found.outcome = .ok [some t] ∧ w'.manager = w.manager := by
  obtain ⟨c, hintern, houtcome⟩ := alternatives_of_provided hresult hprovider h
  obtain ⟨rfl, hmanager⟩ := hintern.unique (Manager.intern_of_holds ht)
  exact ⟨houtcome, hmanager⟩

/-! ## Final values -/

/-- The members of the listed values; a missing value has no content at all. -/
def contentsRead (l : List (Option Value)) : Set (Option (Set Element)) :=
  {o | ∃ v ∈ l, v.map (fun v => OptionalSet.members v.set) = o}

/-- Sorting values changes nothing that depends on their contents. -/
theorem mem_sortValues {β : Type} (g : Option Value → β) (l : List (Option Value)) (b : β) :
    (∃ v ∈ Propagation.sortValues l, g (v.map Value.contents) = b) ↔
      ∃ v ∈ l, g (v.map Value.contents) = b := by
  have hne : ∀ v : Value, v.rank ≠ Rank.first := by
    intro v heq
    have hkey : v.key = "" := congrArg Rank.key heq
    have hlist := congrArg String.toList hkey
    rw [Value.toList_key] at hlist
    cases hlist
  refine Ordered.mem_distinctBy_keys (fun v : Option Value => g (v.map Value.contents)) ?_ b
  intro u _ v _ h
  cases u with
  | none =>
    cases v with
    | none => rfl
    | some v => exact absurd h.symm (hne v)
  | some u =>
    cases v with
    | none => exact absurd h (hne u)
    | some v => rw [Option.map_some, Option.map_some, Value.key_eq_iff.mp (congrArg Rank.key h)]

/-- Sorting values changes nothing that depends on their sets. -/
theorem mem_sortValues_set {β : Type} (g : Option OptionalSet → β) (l : List (Option Value))
    (b : β) :
    (∃ v ∈ Propagation.sortValues l, g (v.map Value.set) = b) ↔
      ∃ v ∈ l, g (v.map Value.set) = b := by
  have hmap : ∀ v : Option Value, (v.map Value.contents).map Value.set = v.map Value.set := by
    intro v
    cases v <;> rfl
  simpa only [hmap] using mem_sortValues (fun v => g (v.map Value.set)) l b

theorem mapM_applyAlternative_spec {m m' : Manager} {content : Value}
    (hcontent : content.sequence = none) (hm : m.Sound) {l : List (Option Transformer)}
    (hl : m.KnowsAll l) {values : List (Option Value)}
    (h : Yields (l.mapM (applyAlternative content)) m values m') :
    m.Grows m' ∧ values.map (Option.map Value.contents) = l.map fun o =>
      o.map fun t => t.contents.on content.contents := by
  induction l generalizing m values with
  | nil =>
    rw [List.mapM_nil] at h
    obtain ⟨rfl, rfl⟩ := Yields.pure_iff.mp h
    exact ⟨hm.grows, rfl⟩
  | cons o rest ih =>
    simp only [List.mapM_cons, Yields.bind_iff, Yields.pure_iff] at h
    obtain ⟨x, m₁, hx, values', _, hrest, rfl, rfl⟩ := h
    have hfirst : m.Grows m₁ ∧ x.map Value.contents
        = o.map fun t => t.contents.on content.contents := by
      cases o with
      | none =>
        obtain ⟨rfl, rfl⟩ := Yields.pure_iff.mp hx
        exact ⟨hm.grows, rfl⟩
      | some t =>
        simp only [applyAlternative, Yields.bind_iff, Yields.pure_iff] at hx
        obtain ⟨v, _, hv, rfl, rfl⟩ := hx
        obtain ⟨hgrows, _, hcontents⟩ := Manager.apply_spec hm (hl t List.mem_cons_self).trailing
          (by simp [hcontent, Sequence.trailing]) hv
        exact ⟨hgrows, congrArg some hcontents⟩
    obtain ⟨hgrows, hx⟩ := hfirst
    obtain ⟨hgrows', hvalues⟩ := ih hgrows.sound
      (fun t ht => (hl t (List.mem_cons_of_mem o ht)).mono hgrows) hrest
    exact ⟨hgrows.trans hgrows', by rw [List.map_cons, List.map_cons, hx, hvalues]⟩

/-- **The final values** of a value are what it may turn out to be. -/
theorem finalValues_resolutions (hr : r.Serves holder I answers) (hw : I w) {v : Value}
    (hv : ∀ u ∈ Sequence.trailing v.sequence, w.manager.pool.Holds u) {l : List (Option Value)}
    (h : (r.finalValues holder v).Returns w l w') :
    I w' ∧ w.manager.Grows w'.manager ∧
      {o | ∃ u ∈ l, u.map Value.contents = o} = resolutions answers v.contents := by
  have hm := hr.sound hw
  unfold finalValues at h
  cases hpending : v.sequence with
  | none =>
    rw [hpending] at h
    obtain ⟨rfl, rfl⟩ := Work.returns_pure.mp h
    refine ⟨hw, hm.grows, ?_⟩
    rw [resolutions_contents hpending]
    ext o
    simp [eq_comm]
  | some steps =>
    have hsteps : v.contents.sequence.getD [] = steps.map Sequence.contentsOfStep := by
      rw [Value.contents, hpending, Sequence.contentsOf_some, Option.getD_some]
    rw [hpending] at h hv
    simp only [sequenceTransformers, Work.returns_bind, Work.returns_get, Work.returns_managed,
      Work.returns_pure] at h
    obtain ⟨ts, w₁, ⟨_, _, ⟨rfl, rfl⟩, hreplay⟩, content, _, ⟨m₂, hcontent, rfl⟩, values, _,
      ⟨m₃, hvalues, rfl⟩, rfl, rfl⟩ := h
    obtain ⟨hw₁, hgrows₁, hts, hview⟩ := replay_spec hr hw hm.knowsAll_identity hv hreplay
    obtain ⟨hgrows₂, _, heq⟩ := Manager.internValue_spec (hr.sound hw₁) rfl
      (by simp [Value.draft, Sequence.trailing]) hcontent
    have hconcrete : content.sequence = none := by
      have h := congrArg Value.sequence heq
      cases hcs : content.sequence with
      | none => rfl
      | some _ => simp [Value.contents, hcs, Value.draft, Sequence.contentsOf] at h
    obtain ⟨hgrows₃, hread⟩ := mapM_applyAlternative_spec hconcrete hgrows₂.sound
      (hts.mono hgrows₂) hvalues
    refine ⟨hr.grows (hr.grows hw₁ hgrows₂) hgrows₃, (hgrows₁.trans hgrows₂).trans hgrows₃, ?_⟩
    have hset : v.contents.set = v.set := rfl
    ext o
    -- every alternative is applied to the same content, and equal values collapse
    have hmem : (∃ u ∈ Propagation.sortValues values, u.map Value.contents = o) ↔
        o ∈ values.map (Option.map Value.contents) := by
      rw [List.mem_map]
      exact mem_sortValues id values o
    rw [Set.mem_ofPred_eq, hmem, hread, heq, resolutions, hset, hsteps, ← hm.view_identity, ← hview,
      List.mem_map]
    constructor
    · rintro ⟨x, hx, rfl⟩
      refine ⟨_, ⟨x, hx, rfl⟩, ?_⟩
      cases x <;> rfl
    · rintro ⟨_, ⟨x, hx, rfl⟩, rfl⟩
      refine ⟨x, hx, ?_⟩
      cases x <;> rfl

/-- **The final values** of a value have the members that it may turn out to have. -/
theorem finalValues_spec (hr : r.Serves holder I answers) (hw : I w) {v : Value}
    (hv : ∀ u ∈ Sequence.trailing v.sequence, w.manager.pool.Holds u) {l : List (Option Value)}
    (h : (r.finalValues holder v).Returns w l w') :
    I w' ∧ w.manager.Grows w'.manager ∧ contentsRead l = outcomes answers v.contents := by
  obtain ⟨hw', hgrows, hresolutions⟩ := finalValues_resolutions hr hw hv h
  refine ⟨hw', hgrows, ?_⟩
  have hmap : ∀ u : Option Value, (u.map Value.contents).map (fun u => OptionalSet.members u.set)
      = u.map fun u => OptionalSet.members u.set := by
    intro u
    cases u <;> rfl
  rw [outcomes_eq_image, ← hresolutions]
  ext o
  constructor
  · rintro ⟨u, hu, rfl⟩
    exact ⟨_, ⟨u, hu, rfl⟩, hmap u⟩
  · rintro ⟨_, ⟨u, hu, rfl⟩, rfl⟩
    exact ⟨u, hu, (hmap u).symm⟩

/-! ## What is asked for -/

/-- Somewhere the reference in the field has alternatives. -/
def Finds (r : Resolver) (I : Workspace → Prop) (asked : String × Ref) : Prop :=
  ∃ w w' found l, I w ∧ Yields (r.lookup asked.1 asked.2) w found w' ∧ found.outcome = .ok l

/-- Somewhere looking for the alternatives of the reference fails, and leaves `w'`. -/
def Loses (r : Resolver) (I : Workspace → Prop) (asked : String × Ref) (w' : Workspace) : Prop :=
  ∃ w found fault, I w ∧ Yields (r.lookup asked.1 asked.2) w found w' ∧ found.outcome = .error fault

/-- The computation asks for these references and for no others: if it returns, all of them were
found, and if it fails, it stops where one of them was lost. -/
structure Asks (r : Resolver) (I : Workspace → Prop) (asked : List (String × Ref)) {α : Type}
    (x : Work α) (w : Workspace) : Prop where
  returns : ∀ {a w'}, x.Returns w a w' → ∀ q ∈ asked, r.Finds I q
  stops : ∀ {w'}, x.Stops w w' → ∃ q ∈ asked, r.Loses I q w'

section Asks

variable {α β : Type} {x : Work α} {f : α → Work β} {first second : List (String × Ref)}

/-- A computation that does not fail may ask for nothing. -/
theorem asks_nil (h : ¬ x.Fails w) : r.Asks I [] x w :=
  ⟨fun _ _ hq => absurd hq List.not_mem_nil, fun hstops => absurd hstops.fails h⟩

/-- One computation after the other asks for what both ask for. -/
theorem Asks.bind (hx : r.Asks I first x w)
    (hf : ∀ a w₁, x.Returns w a w₁ → r.Asks I second (f a) w₁) :
    r.Asks I (first ++ second) (x >>= f) w := by
  constructor
  · intro b w' h q hq
    obtain ⟨a, w₁, ha, hb⟩ := Work.returns_bind.mp h
    rcases List.mem_append.mp hq with hq | hq
    · exact hx.returns ha q hq
    · exact (hf a w₁ ha).returns hb q hq
  · intro w' h
    rcases Work.stops_bind.mp h with hstops | ⟨a, w₁, ha, hstops⟩
    · obtain ⟨q, hq, hloses⟩ := hx.stops hstops
      exact ⟨q, List.mem_append_left _ hq, hloses⟩
    · obtain ⟨q, hq, hloses⟩ := (hf a w₁ ha).stops hstops
      exact ⟨q, List.mem_append_right _ hq, hloses⟩

/-- What follows without failing asks for nothing more. -/
theorem Asks.bind_nil (hx : r.Asks I first x w)
    (hf : ∀ a w₁, x.Returns w a w₁ → ¬ (f a).Fails w₁) : r.Asks I first (x >>= f) w := by
  have h : r.Asks I (first ++ []) (x >>= f) w := hx.bind fun a w₁ ha => asks_nil (hf a w₁ ha)
  rwa [List.append_nil] at h

/-- Saying where a failure arose asks for nothing. -/
theorem Asks.within (hx : r.Asks I first x w) {place : Fault → Fault} :
    r.Asks I first (Work.within place x) w :=
  ⟨fun h => hx.returns (Work.returns_within.mp h), fun h => hx.stops (Work.stops_within.mp h)⟩

theorem asks_stepAlternatives (hw : I w) (step : Step Transformer) :
    r.Asks I (Sequence.awaited holder [step]) (r.stepAlternatives holder step) w := by
  unfold stepAlternatives
  cases href : step.ref with
  | none =>
    have hrefs : Sequence.awaited holder [step] = [] := by
      simp [Sequence.awaited, Sequence.refs, href]
    rw [hrefs]
    refine asks_nil ?_
    simp only [Work.fails_bind, Work.fails_get, Work.fails_pure, and_false, exists_false, or_false,
      not_false_eq_true]
  | some ref =>
    have hrefs : Sequence.awaited holder [step] = [(holder, ref)] := by
      simp [Sequence.awaited, Sequence.refs, href]
    rw [hrefs]
    constructor
    · intro l w' h q hq
      obtain rfl := List.mem_singleton.mp hq
      obtain ⟨found, w₁, hfound, hrest⟩ := Work.returns_bind.mp h
      cases houtcome : found.outcome with
      | ok l => exact ⟨w, w₁, found, l, hw, Work.returns_lift.mp hfound, houtcome⟩
      | error fault =>
        rw [houtcome] at hrest
        exact absurd hrest Work.returns_throw
    · intro w' h
      refine ⟨(holder, ref), List.mem_singleton_self _, ?_⟩
      obtain ⟨found, w₁, hfound, hrest⟩ :=
        (Work.stops_bind.mp h).resolve_left fun hlift => Work.fails_lift hlift.fails
      cases houtcome : found.outcome with
      | ok l =>
        rw [houtcome] at hrest
        exact absurd hrest.fails Work.fails_pure
      | error fault =>
        rw [houtcome] at hrest
        obtain rfl := Work.stops_throw.mp hrest
        exact ⟨w, found, fault, hw, Work.returns_lift.mp hfound, houtcome⟩

/-- **Replaying asks for the references of the steps.** -/
theorem asks_replay (hr : r.Serves holder I answers) {steps : Sequence}
    {current : List (Option Transformer)} (hw : I w) (hcurrent : w.manager.KnowsAll current)
    (hsteps : ∀ u ∈ Sequence.trailing (some steps), w.manager.pool.Holds u) :
    r.Asks I (Sequence.awaited holder steps) (r.replay holder current steps) w := by
  induction steps generalizing w current with
  | nil => exact asks_nil Work.fails_pure
  | cons step rest ih =>
    obtain ⟨hafter, hrest⟩ := Sequence.forall_trailing_cons.mp hsteps
    rw [Sequence.awaited_cons, replay]
    refine (asks_stepAlternatives hw step).bind fun next w₁ hnext => ?_
    -- composing asks for nothing, so what is left asks for the rest of the sequence
    have hcompose : r.Asks I ([] ++ Sequence.awaited holder rest) _ w₁ :=
      (asks_nil Work.fails_managed).bind fun composed w₂ hcomposed => by
        obtain ⟨m₂, hyields, rfl⟩ := Work.returns_managed.mp hcomposed
        obtain ⟨hw₂, hgrows, hall, _⟩ := step_spec hr hw hcurrent hafter hnext hyields
        exact ih hw₂ hall.sortTransformers fun u hu => (hrest u hu).mono hgrows.pool
    exact hcompose

/-- **Finding the final values asks for the references of the value.** -/
theorem asks_finalValues (hr : r.Serves holder I answers) (hw : I w) {v : Value}
    (hv : ∀ u ∈ Sequence.trailing v.sequence, w.manager.pool.Holds u) :
    r.Asks I (Sequence.awaited holder (v.sequence.getD [])) (r.finalValues holder v) w := by
  unfold finalValues
  cases hpending : v.sequence with
  | none => exact asks_nil Work.fails_pure
  | some steps =>
    rw [hpending] at hv
    have hreplay :
        r.Asks I ([] ++ Sequence.awaited holder steps) (r.sequenceTransformers holder steps) w :=
      (asks_nil Work.fails_get).bind fun w₁ w₂ hget => by
        obtain ⟨rfl, rfl⟩ := Work.returns_get.mp hget
        exact asks_replay hr hw (hr.sound hw).knowsAll_identity hv
    refine Asks.bind_nil hreplay fun ts w₁ _ => ?_
    simp only [Work.fails_bind, Work.fails_managed, Work.fails_pure, and_false,
      exists_false, or_false, not_false_eq_true]

end Asks

/-! ## Failures -/

/-- Some step of the sequence has a reference that `refused` holds of. -/
def Refuses (refused : Ref → Prop) (steps : Sequence) : Prop :=
  ∃ step ∈ steps, ∃ ref, step.ref = some ref ∧ refused ref

/-- The resolver fails for the reference exactly if it is refused. -/
def Decides (r : Resolver) (holder : String) (I : Workspace → Prop) (refused : Ref → Prop)
    (ref : Ref) :
    Prop :=
  ∀ w w' found, I w → Yields (r.lookup holder ref) w found w' →
    ((∃ fault, found.outcome = .error fault) ↔ refused ref)

/-- **Finding the final values fails** exactly if one of the value's references is refused. -/
theorem fails_finalValues {refused : Ref → Prop} (hr : r.Serves holder I answers)
    (hw : I w) {v : Value}
    (hv : ∀ u ∈ Sequence.trailing v.sequence, w.manager.pool.Holds u)
    (hrefused : ∀ step ∈ v.sequence.getD [], ∀ ref, step.ref = some ref →
      r.Decides holder I refused ref) :
    (r.finalValues holder v).Fails w ↔ Refuses refused (v.sequence.getD []) := by
  have hasks := asks_finalValues hr hw hv
  constructor
  · intro hfails
    obtain ⟨w', hstops⟩ := hfails.exists_stops
    obtain ⟨⟨_, ref⟩, hq, w₁, found, fault, hw₁, hfound, herror⟩ := hasks.stops hstops
    obtain ⟨rfl, step, hstep, href⟩ := Sequence.mem_awaited.mp hq
    exact ⟨step, hstep, ref, href,
      (hrefused step hstep ref href _ _ _ hw₁ hfound).mp ⟨fault, herror⟩⟩
  · rintro ⟨step, hstep, ref, href, hholds⟩
    rcases Work.returns_or_fails (r.finalValues holder v) w with ⟨l, w', hreturns⟩ | hfails
    · obtain ⟨w₁, w₂, found, l, hw₁, hfound, hok⟩ :=
        hasks.returns hreturns (holder, ref) (Sequence.mem_awaited.mpr ⟨rfl, step, hstep, href⟩)
      obtain ⟨fault, herror⟩ := (hrefused step hstep ref href _ _ _ hw₁ hfound).mpr hholds
      rw [hok] at herror
      cases herror
    · exact hfails

end Resolver

end FieldFlow
