import FieldFlow.Manager
import FieldFlow.Proofs.Keys
import FieldFlow.Proofs.Work

/-!
# The pool shares instances soundly

A pool is looked at only through what its keys find.  It is sound if no two instances in it share a
serial number and whatever an instance replays is in the pool, too.  Interning keeps a pool sound,
takes nothing out of it, and answers with an instance that has the contents of what was handed in.

Main definitions: `Pool.Holds`, `Pool.Numbered`, `Pool.Sound`, `Pool.Extends`.
Main result: `Pool.intern_spec`.
-/

namespace FieldFlow

/-- The transformers that a sequence replays after its references. -/
def Sequence.trailing (sequence : Option Sequence) : List Transformer :=
  (sequence.getD []).flatMap Step.after

namespace Item

/-- The transformers that an item replays. -/
def trailing : Item → List Transformer
  | transformer t => Sequence.trailing t.sequence
  | value v => Sequence.trailing v.sequence

@[simp]
theorem key_withSerial (n : Nat) (i : Item) : (i.withSerial n).key = i.key := by
  cases i with
  | transformer t =>
    exact Transformer.key_eq_iff.mpr (by rw [Transformer.contents_eq, t.contents_eq])
  | value v => rfl

@[simp]
theorem serial_withSerial (n : Nat) (i : Item) : (i.withSerial n).serial = n := by
  cases i <;> rfl

/-- The serial number changes nothing of what is replayed. -/
@[simp]
theorem trailing_withSerial (n : Nat) (i : Item) : (i.withSerial n).trailing = i.trailing := by
  cases i <;> rfl

end Item

namespace Pool

variable {p q : Pool} {k : String} {i j : Item}

/-- The transformer is the canonical instance of its contents. -/
def Holds (p : Pool) (t : Transformer) : Prop := p.find? t.key = some (.transformer t)

/-- Serial numbers tell the instances apart. -/
structure Numbered (p : Pool) : Prop where
  /-- Every instance has a serial number that was given out. -/
  issued : ∀ {k i}, p.find? k = some i → 0 < i.serial ∧ i.serial ≤ p.issued
  /-- No two instances share one. -/
  distinct : ∀ {k k' i i'}, p.find? k = some i → p.find? k' = some i' →
    i.serial = i'.serial → k = k'

/-- Serial numbers tell the instances apart, and what they replay is canonical. -/
structure Sound (p : Pool) : Prop extends p.Numbered where
  trailing : ∀ {k i}, p.find? k = some i → ∀ t ∈ i.trailing, p.Holds t

/-- Everything in the first pool is in the second, and no serial number is taken back. -/
structure Extends (p q : Pool) : Prop where
  found : ∀ {k i}, p.find? k = some i → q.find? k = some i
  issued : p.issued ≤ q.issued

theorem Extends.refl (p : Pool) : p.Extends p := ⟨fun h => h, Nat.le_refl _⟩

/-- Growing twice is growing. -/
theorem Extends.trans {r : Pool} (h : p.Extends q) (h' : q.Extends r) : p.Extends r :=
  ⟨fun hk => h'.found (h.found hk), Nat.le_trans h.issued h'.issued⟩

/-- What is canonical stays canonical. -/
theorem Holds.mono {t : Transformer} (ht : p.Holds t) (h : p.Extends q) : q.Holds t := h.found ht

/-! ## Looking up -/

theorem key_of_find? (h : p.find? k = some i) : i.key = k := by
  unfold find? at h
  simpa using List.find?_some h

/-- There is one canonical instance for a key. -/
theorem eq_of_key (hi : p.find? i.key = some i) (hj : p.find? j.key = some j) (h : i.key = j.key) :
    i = j := by
  rw [h, hj] at hi
  exact (Option.some.inj hi).symm

/-- There is one canonical instance for a serial number. -/
theorem Numbered.eq_of_serial (hp : p.Numbered) (hi : p.find? i.key = some i)
    (hj : p.find? j.key = some j) (h : i.serial = j.serial) : i = j :=
  eq_of_key hi hj (hp.distinct hi hj h)

/-- Registering an instance changes what its key finds, if that was nothing. -/
theorem find?_register (p : Pool) (i : Item) (k : String) :
    (p.register i.key i).find? k = (p.find? k).or (if i.key = k then some i else none) := by
  have hbucket : (p.register i.key i).bucket k
      = if p.hash i.key == p.hash k then p.bucket i.key ++ [i] else p.bucket k :=
    Std.HashMap.getD_insert
  rw [find?, hbucket, find?]
  by_cases hhash : p.hash i.key = p.hash k
  · have hsame : p.bucket i.key = p.bucket k := by rw [bucket, bucket, hhash]
    rw [if_pos (beq_iff_eq.mpr hhash), hsame, List.find?_append, List.find?_singleton]
    simp
  · have hkey : i.key ≠ k := fun h => hhash (congrArg p.hash h)
    rw [if_neg (by simpa using hhash), if_neg hkey, Option.or_none]

theorem sound_empty (hash : String → UInt64) : (empty hash).Sound := by
  have hnone : ∀ k, (empty hash).find? k = none := by
    intro k
    simp [empty, find?, bucket]
  refine ⟨⟨?_, ?_⟩, ?_⟩
  · intro k i h
    simp [hnone] at h
  · intro k k' i i' h
    simp [hnone] at h
  · intro k i h
    simp [hnone] at h

/-- Registering an instance takes nothing out of the pool. -/
theorem extends_register (p : Pool) (i : Item) : p.Extends (p.register i.key i) := by
  refine ⟨?_, Nat.le_refl _⟩
  intro k j hj
  rw [find?_register, hj, Option.some_or]

/-- Giving out a serial number takes nothing out of the pool. -/
theorem extends_issue (p : Pool) : p.Extends p.issue.2 := ⟨fun h => h, Nat.le_succ _⟩

/-- An instance that is found was there before, or is the one that was registered. -/
theorem find?_register_cases (h : (p.register i.key i).find? k = some j) :
    p.find? k = some j ∨ (k = i.key ∧ j = i) := by
  rw [find?_register] at h
  cases hk : p.find? k with
  | some j' =>
    rw [hk, Option.some_or] at h
    exact .inl h
  | none =>
    rw [hk, Option.none_or] at h
    split at h
    · rename_i hkey
      exact .inr ⟨hkey.symm, (Option.some.inj h).symm⟩
    · cases h

/-- Giving out a serial number keeps the pool numbered. -/
theorem Numbered.issue (hp : p.Numbered) : p.issue.2.Numbered :=
  ⟨fun h => ⟨(hp.issued h).1, Nat.le_succ_of_le (hp.issued h).2⟩, hp.distinct⟩

/-- An instance whose serial number was given out, but not to an instance, keeps the pool
numbered. -/
theorem Numbered.register (hp : p.Numbered) (hserial : 0 < i.serial ∧ i.serial ≤ p.issued)
    (hnew : ∀ {k j}, p.find? k = some j → j.serial ≠ i.serial) : (p.register i.key i).Numbered := by
  constructor
  · intro k j hj
    rcases find?_register_cases hj with hold | ⟨_, rfl⟩
    · exact hp.issued hold
    · exact hserial
  · intro k k' j j' hj hj' heq
    rcases find?_register_cases hj with hold | ⟨hk, rfl⟩
    · rcases find?_register_cases hj' with hold' | ⟨_, rfl⟩
      · exact hp.distinct hold hold' heq
      · exact absurd heq (hnew hold)
    · rcases find?_register_cases hj' with hold' | ⟨hk', _⟩
      · exact absurd heq.symm (hnew hold')
      · rw [hk, hk']

/-- An instance with the next serial number keeps the pool numbered. -/
theorem Numbered.register_next (hp : p.Numbered) (hserial : i.serial = p.issued + 1) :
    (p.issue.2.register i.key i).Numbered := by
  have hissued : p.issue.2.issued = p.issued + 1 := rfl
  refine hp.issue.register (by omega) fun hj => ?_
  have := (hp.issued hj).2
  omega

/-- An instance with the next serial number keeps the pool sound. -/
theorem Sound.register (hp : p.Sound) (hserial : i.serial = p.issued + 1)
    (htrailing : ∀ t ∈ i.trailing, p.Holds t) :
    ((p.issue.2).register i.key i).Sound ∧ p.Extends ((p.issue.2).register i.key i) := by
  have hextends : p.Extends ((p.issue.2).register i.key i) :=
    (extends_issue p).trans (extends_register p.issue.2 i)
  refine ⟨⟨hp.register_next hserial, ?_⟩, hextends⟩
  intro k j hj t ht
  rcases find?_register_cases hj with hold | ⟨_, hj⟩
  · exact (hp.trailing hold t ht).mono hextends
  · exact (htrailing t (hj ▸ ht)).mono hextends

/-! ## Interning -/

/-- An item whose key finds an instance is answered with that one. -/
theorem intern_of_some (h : p.find? i.key = some j) : p.intern i = (j, p) := by
  simp only [intern, h]

/-- An item that is new to the pool, and has not been given out, is registered with the next serial
number. -/
theorem intern_of_none (h : p.find? i.key = none) (hserial : i.serial = 0) :
    p.intern i = (i.withSerial (p.issued + 1),
      p.issue.2.register (i.withSerial (p.issued + 1)).key (i.withSerial (p.issued + 1))) := by
  rw [Item.key_withSerial]
  simp only [intern, h, hserial, if_true]
  rfl

/-- An item whose key finds nothing, and that has a serial number, is registered under it. -/
theorem intern_of_numbered (h : p.find? i.key = none) (hserial : i.serial ≠ 0) :
    p.intern i = (i, p.register i.key i) := by
  simp only [intern, h, hserial, if_false]

/-- The key of what was interned finds the answer. -/
theorem find?_intern (p : Pool) (i : Item) : (p.intern i).2.find? i.key = some (p.intern i).1 := by
  cases hfound : p.find? i.key with
  | some j => rw [intern_of_some hfound, hfound]
  | none =>
    by_cases hserial : i.serial = 0
    · have hnone : p.issue.2.find? i.key = none := hfound
      rw [intern_of_none hfound hserial, find?_register, hnone, Option.none_or,
        Item.key_withSerial, if_pos rfl]
    · rw [intern_of_numbered hfound hserial, find?_register, hfound, Option.none_or, if_pos rfl]

/-- **Interning** an item that has not been given out, and that replays canonical transformers,
keeps the pool sound, takes nothing out of it, and answers with the canonical instance of the item's
key. -/
theorem intern_spec (hp : p.Sound) (hserial : i.serial = 0)
    (htrailing : ∀ t ∈ i.trailing, p.Holds t) :
    (p.intern i).2.Sound ∧ p.Extends (p.intern i).2 ∧
      (p.intern i).2.find? i.key = some (p.intern i).1 := by
  have hfind := find?_intern p i
  cases hfound : p.find? i.key with
  | some existing =>
    rw [intern_of_some hfound] at hfind ⊢
    exact ⟨hp, .refl p, hfind⟩
  | none =>
    obtain ⟨hsound, hextends⟩ := hp.register (i := i.withSerial (p.issued + 1))
      (Item.serial_withSerial _ _) (by rwa [Item.trailing_withSerial])
    rw [intern_of_none hfound hserial] at hfind ⊢
    exact ⟨hsound, hextends, hfind⟩

end Pool

namespace Manager

/-- The pool answers a transformer with a transformer of the same key. -/
theorem intern_transformer (p : Pool) (t : Transformer) :
    p.intern (.transformer t) = (.transformer (internIn p t).1, (internIn p t).2) ∧
      (internIn p t).1.key = t.key := by
  have hkey := Pool.key_of_find? (Pool.find?_intern p (.transformer t))
  unfold internIn
  generalize p.intern (.transformer t) = answer at *
  match answer with
  | (.transformer canonical, q) => exact ⟨rfl, hkey⟩
  | (.value v, q) => exact absurd hkey.symm (Transformer.key_ne_valueKey t v)

/-- The pool answers a value with a value of the same key. -/
theorem intern_value (p : Pool) (v : Value) :
    p.intern (.value v) = (.value (internValueIn p v).1, (internValueIn p v).2) ∧
      (internValueIn p v).1.key = v.key := by
  have hkey := Pool.key_of_find? (Pool.find?_intern p (.value v))
  unfold internValueIn
  generalize p.intern (.value v) = answer at *
  match answer with
  | (.value canonical, q) => exact ⟨rfl, hkey⟩
  | (.transformer t, q) => exact absurd hkey (Transformer.key_ne_valueKey t v)

end Manager

end FieldFlow
