import FieldFlow.Proofs.Pool

/-!
# Composition and application without a pool

A manager interns whatever it makes, and it recognises the identity as an instance.  Here
composition and application are stated on contents alone: an instance is seen as its contents
together with the fact whether it is the identity.  A manager with a sound pool composes and applies
in exactly this way, so that what transformers do can be studied without the pool.

Main definitions: `Instance`, `Instance.comp`, `Transformer.on`, `Manager.Orderly`, `Manager.Sound`,
`Manager.Grows`.
Main results: `Manager.compose_cases`, `Manager.apply_cases`, `Manager.compose_spec`,
`Manager.composeAll_spec`, `Manager.apply_spec`.
-/

namespace FieldFlow

/-! ## Contents of made transformers -/

namespace Sequence

/-- The contents of a sequence that is there. -/
theorem contentsOf_some (steps : Sequence) :
    contentsOf (some steps) = some (steps.map contentsOfStep) := by
  rw [contentsOf, stepContents_eq]

theorem contentsOfStep_eq (step : Step Transformer) :
    contentsOfStep step = ⟨step.ref, step.after.map Transformer.contents⟩ := by
  cases step
  rw [contentsOfStep, afterContents_eq]

/-- Appending a transformer leaves all steps but the last as they are. -/
theorem withTransformer_cons_cons (step next : Step Transformer) (rest : Sequence)
    (t : Transformer) :
    withTransformer (step :: next :: rest) t = step :: withTransformer (next :: rest) t := rfl

/-- Appending a transformer appends its contents. -/
theorem map_withTransformer (steps : Sequence) (t : Transformer) :
    (withTransformer steps t).map contentsOfStep
      = withTransformer (steps.map contentsOfStep) t.contents := by
  induction steps with
  | nil => simp [withTransformer, contentsOfStep_eq]
  | cons step rest ih =>
    cases rest with
    | nil => simp [withTransformer, contentsOfStep_eq]
    | cons next rest =>
      rw [withTransformer_cons_cons, List.map_cons, ih]
      simp only [List.map_cons, withTransformer_cons_cons]

/-- Appending a transformer adds it to what is replayed. -/
theorem mem_trailing_withTransformer {steps : Sequence} {t u : Transformer} :
    u ∈ trailing (some (withTransformer steps t)) ↔ u ∈ trailing (some steps) ∨ u = t := by
  induction steps with
  | nil => simp [withTransformer, trailing]
  | cons step rest ih =>
    cases rest with
    | nil => simp [withTransformer, trailing]
    | cons next rest =>
      rw [withTransformer_cons_cons]
      simp only [trailing, Option.getD_some, List.flatMap_cons, List.mem_append] at ih ⊢
      rw [ih, ← or_assoc]

/-- What holds of all that a sequence replays holds of the first step and of the rest. -/
theorem forall_trailing_cons {step : Step Transformer} {rest : Sequence} {P : Transformer → Prop} :
    (∀ u ∈ trailing (some (step :: rest)), P u) ↔
      (∀ u ∈ step.after, P u) ∧ ∀ u ∈ trailing (some rest), P u := by
  simp only [trailing, Option.getD_some, List.flatMap_cons, List.mem_append, or_imp, forall_and]

/-- Joined sequences replay what both replay. -/
theorem mem_trailing_concat {first second : Option Sequence} {u : Transformer} :
    u ∈ trailing (concat first second) ↔ u ∈ trailing first ∨ u ∈ trailing second := by
  cases second with
  | none => simp [concat, trailing]
  | some steps =>
    cases steps with
    | nil => simp [concat, trailing]
    | cons step rest => cases first <;> simp [concat, trailing]

theorem contentsOf_concat (first second : Option Sequence) :
    contentsOf (concat first second) = concat (contentsOf first) (contentsOf second) := by
  cases second with
  | none => rw [concat, contentsOf, concat]
  | some steps =>
    cases steps with
    | nil => rw [concat, contentsOf_some, List.map_nil, concat]
    | cons step rest =>
      cases first with
      | none =>
        simp only [concat, contentsOf_some, List.map_cons, show contentsOf none = none from rfl]
      | some steps => simp only [concat, contentsOf_some, List.map_cons, List.map_append]

theorem getD_concat (first second : Option Sequence) :
    (concat first second).getD [] = first.getD [] ++ second.getD [] := by
  cases second with
  | none => simp [concat]
  | some steps =>
    cases steps with
    | nil => simp [concat]
    | cons step rest => cases first <;> simp [concat]

/-- Joined sequences are there if the first is. -/
theorem isSome_concat_some (steps : Sequence) (second : Option Sequence) :
    (concat (some steps) second).isSome = true := by
  cases second with
  | none => rfl
  | some steps => cases steps <;> rfl

/-- A sequence that follows none is there if it has steps. -/
theorem isSome_concat_none {second : Option Sequence} :
    (concat none second).isSome = true ↔ second.getD [] ≠ [] := by
  cases second with
  | none => simp [concat]
  | some steps => cases steps <;> simp [concat]

end Sequence

namespace Transformer

variable {t : Transformer}

@[simp]
theorem add_contents : t.contents.add = t.add := by rw [contents_eq]

@[simp]
theorem remove_contents : t.contents.remove = t.remove := by rw [contents_eq]

@[simp]
theorem clear_contents : t.contents.clear = t.clear := by rw [contents_eq]

@[simp]
theorem sequence_contents : t.contents.sequence = Sequence.contentsOf t.sequence := by
  rw [contents_eq]

/-- The transformer has no effect at all. -/
def isBlank (t : Transformer) : Bool :=
  t.add.isNone && t.remove.isNone && !t.clear && t.sequence.isNone

theorem isBlank_iff : t.isBlank = true ↔ t.contents = blank := by
  unfold isBlank
  rw [contents_eq, blank, draft]
  cases t with
  | mk n add remove clear sequence =>
    cases add <;> cases remove <;> cases clear <;> cases sequence <;>
      simp [Sequence.contentsOf]

theorem contents_contents : t.contents.contents = t.contents :=
  key_eq_iff.mp (key_contents t)

/-- The contents of what is made of contents. -/
theorem contents_draft (add remove : OptionalSet) (clear : Bool) (sequence : Option Sequence) :
    (draft add remove clear sequence).contents
      = draft add remove clear (Sequence.contentsOf sequence) := by
  rw [draft, contents_eq, draft]

/-- Plain edits have no serial numbers inside. -/
theorem contents_edits : t.edits.contents = t.edits := by
  rw [edits, contents_draft, Sequence.contentsOf]

/-- The composition of transformers neither of which is the identity, if the second does not
clear. -/
def merge (first second : Transformer) : Transformer :=
  match first.sequence with
  | some steps =>
    .draft first.add first.remove first.clear
      (Sequence.concat
        (some (if second.hasEdits then Sequence.withTransformer steps second.edits else steps))
        second.sequence)
  | none =>
    .draft (Manager.mergeEdits first second).1 (Manager.mergeEdits first second).2 first.clear
      (Sequence.concat none second.sequence)

theorem merge_of_some {first second : Transformer} {steps : Sequence}
    (h : first.sequence = some steps) :
    first.merge second = .draft first.add first.remove first.clear
      (Sequence.concat
        (some (if second.hasEdits then Sequence.withTransformer steps second.edits else steps))
        second.sequence) := by
  unfold merge
  rw [h]

theorem merge_of_none {first second : Transformer} (h : first.sequence = none) :
    first.merge second =
      .draft (Manager.mergeEdits first second).1 (Manager.mergeEdits first second).2
      first.clear (Sequence.concat none second.sequence) := by
  unfold merge
  rw [h]

theorem contents_merge (first second : Transformer) :
    (first.merge second).contents = first.contents.merge second.contents := by
  have hedits : second.contents.edits = second.edits.contents := by
    rw [contents_edits, edits, edits, add_contents, remove_contents]
  have hhas : second.contents.hasEdits = second.hasEdits := by
    rw [hasEdits, hasEdits, add_contents, remove_contents]
  have hmerge : Manager.mergeEdits first.contents second.contents =
      Manager.mergeEdits first second := by
    unfold Manager.mergeEdits
    simp only [add_contents, remove_contents]
  unfold merge
  rw [sequence_contents]
  cases first.sequence with
  | none =>
    rw [contents_draft, Sequence.contentsOf_concat, hmerge]
    simp only [Sequence.contentsOf, clear_contents, sequence_contents]
  | some steps =>
    rw [contents_draft, Sequence.contentsOf_concat, Sequence.contentsOf_some,
      Sequence.contentsOf_some, hedits, hhas]
    simp only [add_contents, remove_contents, clear_contents, sequence_contents]
    split
    · rw [Sequence.map_withTransformer]
    · rfl

/-- The value that a transformer makes of a value. -/
def on (t : Transformer) (v : Value) : Value :=
  match if t.clear then none else v.sequence with
  | some steps =>
    .draft v.set (Sequence.concat (some (Sequence.withTransformer steps t.edits)) t.sequence)
  | none =>
    .draft (OptionalSet.extend
      (OptionalSet.reduce (if t.clear then none else v.set) t.remove) t.add)
      (Sequence.concat none t.sequence)

theorem contents_on (t : Transformer) (v : Value) :
    (t.on v).contents = t.contents.on v.contents := by
  have hdraft : ∀ set sequence, (Value.draft set sequence).contents
      = .draft set (Sequence.contentsOf sequence) := fun _ _ => rfl
  have hedits : t.contents.edits = t.edits.contents := by
    rw [contents_edits, edits, edits, add_contents, remove_contents]
  have hset : v.contents.set = v.set := rfl
  have hpending : (if t.clear then none else v.contents.sequence)
      = Sequence.contentsOf (if t.clear then none else v.sequence) := by
    cases t.clear <;> rfl
  unfold on
  rw [clear_contents, hpending, hset, add_contents, remove_contents, sequence_contents, hedits]
  cases (if t.clear then none else v.sequence) with
  | some steps =>
    simp only [Sequence.contentsOf_some]
    rw [hdraft, Sequence.contentsOf_concat, Sequence.contentsOf_some, Sequence.map_withTransformer]
  | none => exact (hdraft _ _).trans (by rw [Sequence.contentsOf_concat]; rfl)

end Transformer

/-! ## Instances -/

/-- A transformer as composition sees it: its contents, and whether it is the identity. -/
structure Instance where
  body : Transformer
  isUnit : Bool

namespace Instance

/-- The canonical instance of given contents, which is the identity if these are blank. -/
def canonical (body : Transformer) : Instance := ⟨body, body.isBlank⟩

/-- The composition of two instances. -/
def comp (first second : Instance) : Instance :=
  if second.body.clear then second
  else if first.isUnit then second
  else if second.isUnit then first
  else canonical (first.body.merge second.body)

/-- The composition of two canonical instances. -/
theorem comp_canonical (a b : Transformer) :
    (canonical a).comp (canonical b) =
      if b.clear then canonical b
      else if a.isBlank then canonical b
      else if b.isBlank then canonical a
      else canonical (a.merge b) := rfl

/-- The composition of an instance with canonical transformers, from the left. -/
def compAll (start : Instance) (after : List Transformer) : Instance :=
  after.foldl (fun c t => c.comp (canonical t)) start

end Instance

/-! ## Managers -/

namespace Manager

/-- Serial numbers tell the instances apart, and the identity is the canonical blank transformer. -/
structure Orderly (m : Manager) : Prop where
  pool : m.pool.Numbered
  identity : m.pool.Holds m.identity
  blank : m.identity.contents = .blank

/-- What the instances replay is canonical, too. -/
structure Sound (m : Manager) : Prop extends m.Orderly where
  trailing : ∀ {k i}, m.pool.find? k = some i → ∀ t ∈ i.trailing, m.pool.Holds t

/-- The second manager is sound and what the first may become by giving out instances. -/
structure Grows (m m' : Manager) : Prop where
  sound : m'.Sound
  pool : m.pool.Extends m'.pool
  identity : m'.identity = m.identity
  factories : m'.factories = m.factories

variable {m m' m'' : Manager} {t first second : Transformer} {v : Value}

theorem Sound.soundPool (h : m.Sound) : m.pool.Sound := ⟨h.pool, h.trailing⟩

theorem Orderly.eq_identity (h : m.Orderly) (ht : m.pool.Holds t)
    (hserial : t.serial = m.identity.serial) :
    t = m.identity := Item.transformer.inj (h.pool.eq_of_serial ht h.identity hserial)

/-- **A canonical transformer is the identity exactly if it is blank.** -/
theorem Orderly.serial_eq_iff (h : m.Orderly) (ht : m.pool.Holds t) :
    t.serial = m.identity.serial ↔ t.contents = .blank := by
  constructor
  · intro hserial
    rw [h.eq_identity ht hserial, h.blank]
  · intro hblank
    have hkey : t.key = m.identity.key := Transformer.key_eq_iff.mpr (hblank.trans h.blank.symm)
    rw [Item.transformer.inj (Pool.eq_of_key ht h.identity hkey)]

theorem Sound.grows (h : m.Sound) : m.Grows m := ⟨h, .refl _, rfl, rfl⟩

/-- Growing twice is growing. -/
theorem Grows.trans (h : m.Grows m') (h' : m'.Grows m'') : m.Grows m'' :=
  ⟨h'.sound, h.pool.trans h'.pool, h'.identity.trans h.identity, h'.factories.trans h.factories⟩

/-- The manager takes the transformer for the identity only if it is, and everything that the
transformer replays is canonical. -/
structure Knows (m : Manager) (t : Transformer) : Prop where
  genuine : t.serial = m.identity.serial → t = m.identity
  trailing : ∀ u ∈ Sequence.trailing t.sequence, m.pool.Holds u

/-- The transformer as the manager sees it. -/
def instanceOf (m : Manager) (t : Transformer) : Instance :=
  ⟨t.contents, decide (t.serial = m.identity.serial)⟩

/-- A manager that grows sees a transformer as before. -/
theorem Grows.instanceOf_eq (h : m.Grows m') (t : Transformer) :
    m'.instanceOf t = m.instanceOf t := by
  rw [instanceOf, instanceOf, h.identity]

/-- A manager that grows still knows what it knew. -/
theorem Knows.mono (ht : m.Knows t) (h : m.Grows m') : m'.Knows t := by
  refine ⟨?_, fun u hu => (ht.trailing u hu).mono h.pool⟩
  rw [h.identity]
  exact ht.genuine

theorem Sound.knows (h : m.Sound) (ht : m.pool.Holds t) : m.Knows t :=
  ⟨h.eq_identity ht, fun u hu => h.trailing ht u hu⟩

/-- A canonical transformer is seen as the canonical instance of its contents. -/
theorem Sound.instanceOf_eq (h : m.Sound) (ht : m.pool.Holds t) :
    m.instanceOf t = .canonical t.contents := by
  have hunit : t.serial = m.identity.serial ↔ t.contents.isBlank = true := by
    rw [Transformer.isBlank_iff, Transformer.contents_contents, h.serial_eq_iff ht]
  rw [instanceOf, Instance.canonical, Instance.mk.injEq]
  exact ⟨rfl, by rw [Bool.eq_iff_iff, decide_eq_true_eq, hunit]⟩

/-- The identity is the canonical blank instance. -/
theorem Sound.instanceOf_identity (h : m.Sound) :
    m.instanceOf m.identity = .canonical .blank := by
  rw [h.instanceOf_eq h.identity, h.blank]

/-! ## Interning -/

/-- A transformer has a canonical instance, whatever its serial number is. -/
theorem intern_canonical {c : Transformer} (h : Yields (intern t) m c m') :
    m' = { m with pool := (m.pool.intern (.transformer t)).2 } ∧
      (m.pool.intern (.transformer t)).1 = .transformer c ∧ m'.pool.Holds c ∧
      c.contents = t.contents := by
  have hrun : ((internIn m.pool t).1, { m with pool := (internIn m.pool t).2 }) = (c, m') := h
  obtain ⟨rfl, rfl⟩ := Prod.mk.inj hrun
  obtain ⟨hintern, hkey⟩ := intern_transformer m.pool t
  have hfound := Pool.find?_intern m.pool (.transformer t)
  rw [hintern] at hfound ⊢
  refine ⟨rfl, rfl, ?_, Transformer.key_eq_iff.mp hkey⟩
  rw [Pool.Holds, hkey]
  exact hfound

/-- A canonical transformer is its own instance. -/
theorem intern_of_holds (ht : m.pool.Holds t) : Yields (intern t) m t m := by
  obtain ⟨c, m', h⟩ := Yields.exists_run (intern t) m
  obtain ⟨rfl, hanswer, _⟩ := intern_canonical h
  rw [Pool.intern_of_some (i := .transformer t) ht] at hanswer h
  obtain rfl := Item.transformer.inj hanswer
  exact h

/-- A value has a canonical instance, whatever its serial number is. -/
theorem internValue_canonical {c : Value} (h : Yields (internValue v) m c m') :
    m' = { m with pool := (m.pool.intern (.value v)).2 } ∧
      m'.pool.find? c.key = some (.value c) ∧ c.contents = v.contents := by
  have hrun : ((internValueIn m.pool v).1, { m with pool := (internValueIn m.pool v).2 })
      = (c, m') := h
  obtain ⟨rfl, rfl⟩ := Prod.mk.inj hrun
  obtain ⟨hintern, hkey⟩ := intern_value m.pool v
  have hfound := Pool.find?_intern m.pool (.value v)
  rw [hintern] at hfound ⊢
  refine ⟨rfl, ?_, Value.key_eq_iff.mp hkey⟩
  rw [hkey]
  exact hfound

/-- Interning an item that is new, and that replays canonical transformers, lets a manager grow. -/
theorem Sound.grows_intern (hm : m.Sound) {i : Item} (hserial : i.serial = 0)
    (htrailing : ∀ u ∈ i.trailing, m.pool.Holds u) :
    m.Grows { m with pool := (m.pool.intern i).2 } := by
  obtain ⟨hsound, hextends, _⟩ := Pool.intern_spec hm.soundPool hserial htrailing
  exact ⟨⟨⟨hsound.toNumbered, hm.identity.mono hextends, hm.blank⟩, hsound.trailing⟩, hextends,
    rfl, rfl⟩

/-- The canonical transformer with given contents. -/
theorem intern_spec (hm : m.Sound) (hserial : t.serial = 0)
    (htrailing : ∀ u ∈ Sequence.trailing t.sequence, m.pool.Holds u) {c : Transformer}
    (h : Yields (intern t) m c m') : m.Grows m' ∧ m'.pool.Holds c ∧ c.contents = t.contents := by
  obtain ⟨rfl, _, hholds, hcontents⟩ := intern_canonical h
  exact ⟨hm.grows_intern hserial htrailing, hholds, hcontents⟩

theorem internValue_spec (hm : m.Sound) (hserial : v.serial = 0)
    (htrailing : ∀ u ∈ Sequence.trailing v.sequence, m.pool.Holds u) {c : Value}
    (h : Yields (internValue v) m c m') :
    m.Grows m' ∧ (∀ u ∈ Sequence.trailing c.sequence, m'.pool.Holds u) ∧
      c.contents = v.contents := by
  obtain ⟨rfl, hfound, hcontents⟩ := internValue_canonical h
  have hgrows := hm.grows_intern (i := .value v) hserial htrailing
  exact ⟨hgrows, hgrows.sound.trailing hfound, hcontents⟩

/-- Every transformer has a canonical instance in a manager that has grown. -/
theorem Sound.exists_holds (hm : m.Sound) (t : Transformer) (hserial : t.serial = 0)
    (htrailing : ∀ u ∈ Sequence.trailing t.sequence, m.pool.Holds u) :
    ∃ m' c, m.Grows m' ∧ m'.pool.Holds c ∧ c.contents = t.contents := by
  obtain ⟨c, m', h⟩ := Yields.exists_run (intern t) m
  exact ⟨m', c, intern_spec hm hserial htrailing h⟩

/-- The identity of a new manager is the canonical blank transformer. -/
theorem create_canonical (p : Pool) :
    (create p).pool = (p.intern (.transformer .blank)).2 ∧
      (create p).pool.Holds (create p).identity ∧ (create p).identity.contents = .blank := by
  have hcreate : Yields (intern .blank) ⟨p, .blank, [], []⟩ (create p).identity
      ⟨(create p).pool, .blank, [], []⟩ := rfl
  obtain ⟨hpool, _, hholds, hcontents⟩ := intern_canonical hcreate
  exact ⟨congrArg Manager.pool hpool, hholds,
    hcontents.trans (Transformer.contents_draft none none false none)⟩

theorem sound_create {p : Pool} (hp : p.Sound) : (create p).Sound := by
  obtain ⟨hpool, hholds, hcontents⟩ := create_canonical p
  obtain ⟨hsound, _, _⟩ := Pool.intern_spec hp (i := .transformer .blank) rfl
    (by simp [Item.trailing, Transformer.blank, Transformer.draft, Sequence.trailing])
  rw [← hpool] at hsound
  exact ⟨⟨hsound.toNumbered, hholds, hcontents⟩, hsound.trailing⟩

/-! ## Composing and applying -/

/-- The manager is ready to intern an item that it has made: all that the item replays comes from
`old`, apart from the edits of `t`, which were interned before if the item replays them. -/
structure Prepares (m : Manager) (t : Transformer) (old : List Transformer) (i : Item)
    (m' : Manager) : Prop where
  serial : i.serial = 0
  replayed : (m' = m ∧ ∀ u ∈ i.trailing, u ∈ old) ∨
    ∃ e, Yields (nonComposed t) m e m' ∧ ∀ u ∈ i.trailing, u ∈ old ∨ u = e

/-- Joining sets of added elements is what merging does with transformers that only add. -/
theorem merge_of_adds (hfirst : first.kind = .add) (hsecond : second.kind = .add) :
    first.merge second = .draft (mergeAdds first second) none false none := by
  have hadd : ∀ {t : Transformer}, t.kind = .add →
      t.sequence = none ∧ t.clear = false ∧ t.remove = none ∧ ∃ s, t.add = some s := by
    rintro ⟨_, add, remove, clear, sequence⟩ hkind
    cases sequence <;> cases clear <;> cases add <;> cases remove <;>
      simp [Transformer.kind] at hkind ⊢
  obtain ⟨hsequence, hclear, hremove, _⟩ := hadd hfirst
  obtain ⟨hsequence', _, hremove', added, hadded⟩ := hadd hsecond
  rw [Transformer.merge_of_none hsequence, hclear, hsequence']
  simp [mergeEdits, mergeAdds, hremove, hremove', hadded, OptionalSet.subtract, Sequence.concat]

/-- **What composition can do**: it hands back an operand, because the second one clears or because
the other one is the identity, or it interns the merge of the two.  This holds of any operands. -/
theorem compose_cases {c : Transformer} (h : Yields (compose first second) m c m') :
    (m' = m ∧ c = second ∧ (second.clear = true ∨ first.serial = m.identity.serial)) ∨
    (m' = m ∧ c = first ∧ second.clear = false ∧ first.serial ≠ m.identity.serial ∧
      second.serial = m.identity.serial) ∨
    (second.clear = false ∧ first.serial ≠ m.identity.serial ∧
      second.serial ≠ m.identity.serial ∧
      ∃ body m₁, m.Prepares second
          (Sequence.trailing first.sequence ++ Sequence.trailing second.sequence)
          (.transformer body) m₁ ∧
        Yields (intern body) m₁ c m' ∧ body.contents = (first.merge second).contents) := by
  unfold compose at h
  simp only [Yields.bind_iff, Yields.get_iff] at h
  obtain ⟨_, _, ⟨rfl, rfl⟩, h⟩ := h
  by_cases hclear : second.clear = true
  · rw [if_pos hclear] at h
    obtain ⟨rfl, rfl⟩ := Yields.pure_iff.mp h
    exact .inl ⟨rfl, rfl, .inl hclear⟩
  by_cases hfi : first.serial = m.identity.serial
  · rw [if_neg hclear, if_pos hfi] at h
    obtain ⟨rfl, rfl⟩ := Yields.pure_iff.mp h
    exact .inl ⟨rfl, rfl, .inr hfi⟩
  by_cases hsi : second.serial = m.identity.serial
  · rw [if_neg hclear, if_neg hfi, if_pos hsi] at h
    obtain ⟨rfl, rfl⟩ := Yields.pure_iff.mp h
    exact .inr (.inl ⟨rfl, rfl, by simpa using hclear, hfi, hsi⟩)
  rw [if_neg hclear, if_neg hfi, if_neg hsi] at h
  refine .inr (.inr ⟨by simpa using hclear, hfi, hsi, ?_⟩)
  by_cases hadds : first.kind = .add ∧ second.kind = .add
  · rw [if_pos hadds] at h
    exact ⟨_, m, ⟨rfl, .inl ⟨rfl, by simp [Item.trailing, Transformer.draft, Sequence.trailing]⟩⟩,
      h, by rw [merge_of_adds hadds.1 hadds.2]⟩
  rw [if_neg hadds] at h
  cases hsequence : first.sequence with
  | none =>
    rw [hsequence] at h
    refine ⟨_, m, ⟨rfl, .inl ⟨rfl, fun u hu => ?_⟩⟩, h, by rw [Transformer.merge_of_none hsequence]⟩
    exact List.mem_append.mpr (Sequence.mem_trailing_concat.mp hu)
  | some steps =>
    rw [hsequence] at h
    cases hhas : second.hasEdits with
    | false =>
      simp only [hhas, Bool.false_eq_true, if_false, Yields.bind_iff, Yields.pure_iff] at h
      obtain ⟨_, _, ⟨rfl, rfl⟩, h⟩ := h
      refine ⟨_, m, ⟨rfl, .inl ⟨rfl, fun u hu => ?_⟩⟩, h, ?_⟩
      · exact List.mem_append.mpr (Sequence.mem_trailing_concat.mp hu)
      · rw [Transformer.merge_of_some hsequence, hhas]
        rfl
    | true =>
      simp only [hhas, if_true, Yields.bind_iff, Yields.pure_iff] at h
      obtain ⟨e, m₁, he, _, _, ⟨rfl, rfl⟩, h⟩ := h
      obtain ⟨_, _, _, hedits⟩ := intern_canonical he
      refine ⟨_, m₁, ⟨rfl, .inr ⟨e, he, fun u hu => ?_⟩⟩, h, ?_⟩
      · rcases Sequence.mem_trailing_concat.mp hu with hu | hu
        · exact (Sequence.mem_trailing_withTransformer.mp hu).imp_left (List.mem_append_left _)
        · exact .inl (List.mem_append_right _ hu)
      · simp only [Transformer.merge_of_some hsequence, hhas, Transformer.contents_draft,
          Sequence.contentsOf_concat, Sequence.contentsOf_some, Sequence.map_withTransformer,
          hedits, if_true]

/-- **What application can do**: it interns the value that the contents give, whatever it is
applied to. -/
theorem apply_cases {c : Value} (h : Yields (apply t v) m c m') :
    ∃ body m₁, m.Prepares t (Sequence.trailing t.sequence ++ Sequence.trailing v.sequence)
        (.value body) m₁ ∧
      Yields (internValue body) m₁ c m' ∧ body.contents = (t.on v).contents := by
  unfold apply at h
  unfold Transformer.on
  generalize hpending : (if t.clear then none else v.sequence) = pending at h ⊢
  cases pending with
  | none =>
    refine ⟨_, m, ⟨rfl, .inl ⟨rfl, fun u hu => List.mem_append_left _ ?_⟩⟩, h, rfl⟩
    rcases Sequence.mem_trailing_concat.mp hu with hu | hu
    · simp [Sequence.trailing] at hu
    · exact hu
  | some steps =>
    obtain ⟨hclear, hsequence⟩ : t.clear = false ∧ v.sequence = some steps := by
      cases hc : t.clear <;> simp [hc] at hpending
      exact ⟨rfl, hpending⟩
    simp only [hclear, Bool.false_eq_true, if_false, Yields.bind_iff] at h
    obtain ⟨e, m₁, he, h⟩ := h
    obtain ⟨_, _, _, hedits⟩ := intern_canonical he
    refine ⟨_, m₁, ⟨rfl, .inr ⟨e, he, fun u hu => ?_⟩⟩, h, ?_⟩
    · rcases Sequence.mem_trailing_concat.mp hu with hu | hu
      · rw [hsequence]
        exact (Sequence.mem_trailing_withTransformer.mp hu).imp_left (List.mem_append_right _)
      · exact .inl (List.mem_append_left _ hu)
    · simp only [Value.contents, Value.draft, Sequence.contentsOf_concat, Sequence.contentsOf_some,
        Sequence.map_withTransformer, hedits]

/-- The edits of a transformer as a canonical one. -/
theorem nonComposed_spec (hm : m.Sound) {e : Transformer} (h : Yields (nonComposed t) m e m') :
    m.Grows m' ∧ m'.pool.Holds e :=
  have hspec := intern_spec hm rfl
    (by simp [Transformer.edits, Transformer.draft, Sequence.trailing]) h
  ⟨hspec.1, hspec.2.1⟩

/-- What a sound manager is ready to intern replays canonical transformers. -/
theorem Sound.prepares (hm : m.Sound) {old : List Transformer} {i : Item}
    (hold : ∀ u ∈ old, m.pool.Holds u) (h : m.Prepares t old i m') :
    m.Grows m' ∧ ∀ u ∈ i.trailing, m'.pool.Holds u := by
  rcases h.replayed with ⟨rfl, hreplayed⟩ | ⟨e, he, hreplayed⟩
  · exact ⟨hm.grows, fun u hu => hold u (hreplayed u hu)⟩
  · obtain ⟨hgrows, hholds⟩ := nonComposed_spec hm he
    refine ⟨hgrows, fun u hu => ?_⟩
    rcases hreplayed u hu with hu | rfl
    · exact (hold u hu).mono hgrows.pool
    · exact hholds

/-- **Composition** of known transformers gives a known one, which is seen as the composition of the
two as they are seen; and what canonical transformers compose to is canonical. -/
theorem compose_spec (hm : m.Sound) (hfirst : m.Knows first) (hsecond : m.Knows second)
    {c : Transformer} (h : Yields (compose first second) m c m') :
    m.Grows m' ∧ m'.Knows c ∧
      m'.instanceOf c = (m.instanceOf first).comp (m.instanceOf second) ∧
      (m.pool.Holds first → m.pool.Holds second → m'.pool.Holds c) := by
  have hcomp : ∀ a b, (m.instanceOf a).comp (m.instanceOf b) =
      if b.clear then m.instanceOf b
      else if decide (a.serial = m.identity.serial) then m.instanceOf b
      else if decide (b.serial = m.identity.serial) then m.instanceOf a
      else .canonical (a.contents.merge b.contents) := by
    intro a b
    rw [← Transformer.clear_contents (t := b)]
    rfl
  rw [hcomp]
  rcases compose_cases h with ⟨rfl, rfl, hback⟩ | ⟨rfl, rfl, hclear, hfi, hsi⟩ |
    ⟨hclear, hfi, hsi, body, m₁, hprepares, hintern, hbody⟩
  · refine ⟨hm.grows, hsecond, ?_, fun _ hs => hs⟩
    rcases hback with hclear | hfi
    · rw [if_pos hclear]
    · rw [if_pos (decide_eq_true hfi), ite_self]
  · refine ⟨hm.grows, hfirst, ?_, fun hf _ => hf⟩
    rw [if_neg (by simp [hclear]), if_neg (by simpa using hfi), if_pos (decide_eq_true hsi)]
  · obtain ⟨hgrows, htrailing⟩ := hm.prepares (fun u hu =>
      (List.mem_append.mp hu).elim (hfirst.trailing u) (hsecond.trailing u)) hprepares
    obtain ⟨hgrows', hholds, hcontents⟩ :=
      intern_spec hgrows.sound hprepares.serial htrailing hintern
    refine ⟨hgrows.trans hgrows', hgrows'.sound.knows hholds, ?_, fun _ _ => hholds⟩
    rw [if_neg (by simp [hclear]), if_neg (by simpa using hfi), if_neg (by simpa using hsi),
      hgrows'.sound.instanceOf_eq hholds, hcontents, hbody, Transformer.contents_merge]

/-- **Composition of a list** of canonical transformers onto a known one. -/
theorem composeAll_spec {after : List Transformer} (hm : m.Sound) (ht : m.Knows t)
    (hafter : ∀ u ∈ after, m.pool.Holds u) {c : Transformer}
    (h : Yields (composeAll t after) m c m') :
    m.Grows m' ∧ m'.Knows c ∧
      m'.instanceOf c = (m.instanceOf t).compAll (after.map Transformer.contents) ∧
      (m.pool.Holds t → m'.pool.Holds c) := by
  induction after generalizing t m with
  | nil =>
    obtain ⟨rfl, rfl⟩ := Yields.pure_iff.mp h
    exact ⟨hm.grows, ht, rfl, fun ht => ht⟩
  | cons u rest ih =>
    simp only [composeAll, Yields.bind_iff] at h
    obtain ⟨t', m₁, hcompose, hrest⟩ := h
    have hu : m.pool.Holds u := hafter u List.mem_cons_self
    obtain ⟨hgrows, ht', hinstance, hholds⟩ := compose_spec hm ht (hm.knows hu) hcompose
    obtain ⟨hgrows', hc, heq, hholds'⟩ := ih hgrows.sound ht'
      (fun w hw => (hafter w (List.mem_cons_of_mem u hw)).mono hgrows.pool) hrest
    refine ⟨hgrows.trans hgrows', hc, ?_, fun h => hholds' (hholds h hu)⟩
    rw [heq, hinstance, hm.instanceOf_eq hu]
    rfl

/-- **Application** gives the value that the contents give. -/
theorem apply_spec (hm : m.Sound) (ht : ∀ u ∈ Sequence.trailing t.sequence, m.pool.Holds u)
    (hv : ∀ u ∈ Sequence.trailing v.sequence, m.pool.Holds u) {c : Value}
    (h : Yields (apply t v) m c m') :
    m.Grows m' ∧ (∀ u ∈ Sequence.trailing c.sequence, m'.pool.Holds u) ∧
      c.contents = t.contents.on v.contents := by
  obtain ⟨body, m₁, hprepares, hintern, hbody⟩ := apply_cases h
  obtain ⟨hgrows, htrailing⟩ := hm.prepares (fun u hu =>
    (List.mem_append.mp hu).elim (ht u) (hv u)) hprepares
  obtain ⟨hgrows', hc, hcontents⟩ :=
    internValue_spec hgrows.sound hprepares.serial htrailing hintern
  exact ⟨hgrows.trans hgrows', hc, by rw [hcontents, hbody, Transformer.contents_on]⟩

end Manager

end FieldFlow
