import FieldFlow.Proofs.Composition
import Mathlib.Data.Finset.Card
import Mathlib.Data.List.Perm.Basic

/-!
# What interning can do to a pool

Whatever a manager does, its pool changes in two ways only: an item is interned, or a serial number
is given out.  So everything that is true of all pools is shown here once, along the chain of items
that were interned: nothing is replaced, the instances are those of the keys that were interned,
each once, and serial numbers tell them apart.  The hash function plays no part in this, since the
keys in a bucket are compared themselves.

The operations of a manager are then described by what they intern and by what they hand back.  An
item that is interned may have been made anew, or have a serial number already, as a transformer has
that a factory keeps; then the number must not be that of something else.

Main definitions: `Pool.instances`, `Pool.Interns`, `Bench.Admits`, `Bench.Interns`,
`Manager.Evolves`.
Main results: `Pool.Interns.tidy`, `Pool.Interns.size_eq`, `Bench.Interns.numbered`,
`Bench.Interns.proper`, `Manager.compose_outcome`, `Manager.apply_evolves`.
-/

namespace FieldFlow

namespace Item

/-- The item without serial numbers. -/
def contents : Item → Item
  | transformer t => transformer t.contents
  | value v => value v.contents

/-- Keys tell apart exactly what has different contents. -/
theorem key_eq_iff {i j : Item} : i.key = j.key ↔ i.contents = j.contents := by
  cases i with
  | transformer t =>
    cases j with
    | transformer u => exact Transformer.key_eq_iff.trans (by simp [contents])
    | value u => exact iff_of_false (Transformer.key_ne_valueKey t u) (by simp [contents])
  | value v =>
    cases j with
    | transformer u =>
      exact iff_of_false (Transformer.key_ne_valueKey u v).symm (by simp [contents])
    | value u => exact Value.key_eq_iff.trans (by simp [contents])

end Item

/-! ## Buckets -/

/-- Everything in a map of lists is what is found under one key, together with the rest. -/
theorem flatMap_toList_perm {α : Type} (buckets : Std.HashMap UInt64 (List α)) (h : UInt64) :
    (buckets.toList.flatMap Prod.snd).Perm
      (buckets.getD h [] ++ (buckets.toList.filter fun e => decide ¬(h == e.1) = true).flatMap
        Prod.snd) := by
  rw [Std.HashMap.getD_eq_getD_getElem?]
  cases hfound : buckets[h]? with
  | none =>
    have hall : (buckets.toList.filter fun e => decide ¬(h == e.1) = true) = buckets.toList := by
      refine List.filter_eq_self.mpr fun e he => ?_
      have hne : h ≠ e.1 := by
        rintro rfl
        rw [Std.HashMap.mem_toList_iff_getElem?_eq_some.mp he] at hfound
        cases hfound
      simpa using hne
    rw [hall]
    exact .refl _
  | some found =>
    obtain ⟨before, after, hsplit⟩ :=
      List.append_of_mem (Std.HashMap.mem_toList_iff_getElem?_eq_some.mpr hfound)
    have hdistinct := Std.HashMap.distinct_keys_toList (m := buckets)
    rw [hsplit, List.pairwise_append, List.pairwise_cons] at hdistinct
    obtain ⟨_, ⟨hafter, _⟩, hbefore⟩ := hdistinct
    have hkeep : ∀ l : List (UInt64 × List α), (∀ e ∈ l, h ≠ e.1) →
        (l.filter fun e => decide ¬(h == e.1) = true) = l :=
      fun l hl => List.filter_eq_self.mpr fun e he => by simpa using hl e he
    have hothers : (buckets.toList.filter fun e => decide ¬(h == e.1) = true) =
        before ++ after := by
      rw [hsplit, List.filter_append, List.filter_cons_of_neg (by simp), hkeep before, hkeep after]
      · intro e he
        simpa using hafter e he
      · intro e he
        have hne := hbefore e he _ List.mem_cons_self
        exact fun heq => by simp [heq] at hne
    rw [hothers, hsplit, List.flatMap_append, List.flatMap_append, List.flatMap_cons,
      Option.getD_some]
    exact List.perm_append_comm_assoc _ _ _

namespace Pool

variable {p q r : Pool} {k : String} {i j : Item} {keys keys' : List String}

/-- Everything that the pool holds. -/
def instances (p : Pool) : List Item := p.buckets.toList.flatMap Prod.snd

theorem mem_instances_of_bucket (h : i ∈ p.bucket k) : i ∈ p.instances :=
  (flatMap_toList_perm p.buckets (p.hash k)).mem_iff.mpr (List.mem_append_left _ h)

theorem instances_register (p : Pool) (i : Item) :
    (p.register i.key i).instances.Perm (i :: p.instances) := by
  have hinsert : (p.register i.key i).instances.Perm
      (((p.hash i.key, p.bucket i.key ++ [i]) ::
        p.buckets.toList.filter fun e => decide ¬(p.hash i.key == e.1) = true).flatMap Prod.snd) :=
    Std.HashMap.toList_insert_perm.flatMap_right _
  have hold := flatMap_toList_perm p.buckets (p.hash i.key)
  refine hinsert.trans ?_
  rw [List.flatMap_cons, List.append_assoc]
  exact List.perm_middle.trans (hold.symm.cons i)

/-- The instances stand in the buckets of their keys, no two have the same key, and they are
counted. -/
structure Tidy (p : Pool) : Prop where
  placed : ∀ i ∈ p.instances, i ∈ p.bucket i.key
  nodup : (p.instances.map Item.key).Nodup
  size : p.size = p.instances.length

theorem tidy_empty (hash : String → UInt64) : (empty hash).Tidy := by
  have hnone : (empty hash).instances = [] := by simp [instances, empty]
  constructor
  · simp [hnone]
  · simp [hnone]
  · rw [hnone]
    rfl

/-- A key finds something exactly if an instance has it. -/
theorem Tidy.exists_find?_iff (hp : p.Tidy) :
    (∃ i, p.find? k = some i) ↔ k ∈ p.instances.map Item.key := by
  constructor
  · rintro ⟨i, hi⟩
    exact List.mem_map.mpr ⟨i, mem_instances_of_bucket (List.mem_of_find?_eq_some hi),
      key_of_find? hi⟩
  · intro hk
    obtain ⟨i, hi, rfl⟩ := List.mem_map.mp hk
    have hsome : (p.find? i.key).isSome := List.find?_isSome.mpr ⟨i, hp.placed i hi, by simp⟩
    exact Option.isSome_iff_exists.mp hsome

/-- Registering an instance with a new key keeps a pool tidy. -/
theorem Tidy.register (hp : p.Tidy) (h : p.find? i.key = none) : (p.register i.key i).Tidy := by
  have hinstances := instances_register p i
  have hnew : i.key ∉ p.instances.map Item.key := by
    rw [← hp.exists_find?_iff]
    rintro ⟨j, hj⟩
    cases h.symm.trans hj
  constructor
  · intro j hj
    have hbucket : (p.register i.key i).bucket j.key
        = if p.hash i.key == p.hash j.key then p.bucket i.key ++ [i] else p.bucket j.key :=
      Std.HashMap.getD_insert
    rw [hbucket]
    rcases List.mem_cons.mp (hinstances.mem_iff.mp hj) with rfl | hj
    · simp
    · split
      · rename_i hhash
        have hsame : p.bucket i.key = p.bucket j.key := by rw [bucket, bucket, beq_iff_eq.mp hhash]
        exact List.mem_append_left _ (hsame ▸ hp.placed j hj)
      · exact hp.placed j hj
  · rw [(hinstances.map Item.key).nodup_iff, List.map_cons]
    exact List.nodup_cons.mpr ⟨hnew, hp.nodup⟩
  · rw [hinstances.length_eq, List.length_cons, ← hp.size]
    rfl

/-! ## Chains of interned items -/

/-- Interning items with the listed keys, the latest in front, leads from the first pool to the
second; serial numbers may be given out in between. -/
inductive Interns (p : Pool) : List String → Pool → Prop
  | refl : Interns p [] p
  | intern {keys : List String} {q : Pool} (h : Interns p keys q) (i : Item) :
      Interns p (i.key :: keys) (q.intern i).2
  | issue {keys : List String} {q : Pool} (h : Interns p keys q) : Interns p keys q.issue.2

/-- **What interning an item can do**: the item has an instance in the pool, or it is registered
under the next serial number, or under its own. -/
theorem intern_cases (p : Pool) (i : Item) :
    (∃ j, p.find? i.key = some j ∧ p.intern i = (j, p)) ∨
    (p.find? i.key = none ∧ ∃ j, j.key = i.key ∧ j.serial = p.issued + 1 ∧
      p.intern i = (j, p.issue.2.register j.key j)) ∨
    (p.find? i.key = none ∧ i.serial ≠ 0 ∧ p.intern i = (i, p.register i.key i)) := by
  cases hfound : p.find? i.key with
  | some j => exact .inl ⟨j, rfl, intern_of_some hfound⟩
  | none =>
    by_cases hserial : i.serial = 0
    · exact .inr (.inl ⟨rfl, i.withSerial (p.issued + 1), Item.key_withSerial _ _,
        Item.serial_withSerial _ _, intern_of_none hfound hserial⟩)
    · exact .inr (.inr ⟨rfl, hserial, intern_of_numbered hfound hserial⟩)

theorem extends_intern (p : Pool) (i : Item) : p.Extends (p.intern i).2 := by
  rcases intern_cases p i with ⟨j, _, heq⟩ | ⟨_, j, _, _, heq⟩ | ⟨_, _, heq⟩
  · rw [heq]
    exact .refl p
  · rw [heq]
    exact (extends_issue p).trans (extends_register p.issue.2 j)
  · rw [heq]
    exact extends_register p i

namespace Interns

/-- Chains can be joined. -/
theorem trans (h : p.Interns keys q) (h' : q.Interns keys' r) : p.Interns (keys' ++ keys) r := by
  induction h' with
  | refl => exact h
  | intern _ i ih => exact ih.intern i
  | issue _ ih => exact ih.issue

/-- **Nothing is replaced.** -/
theorem keeps (h : p.Interns keys q) : p.Extends q := by
  induction h with
  | refl => exact .refl p
  | @intern _ q _ i ih => exact ih.trans (extends_intern q i)
  | @issue _ q _ ih => exact ih.trans (extends_issue q)

theorem tidy (h : p.Interns keys q) (hp : p.Tidy) : q.Tidy := by
  induction h with
  | refl => exact hp
  | @intern _ q _ i ih =>
    rcases intern_cases q i with ⟨j, _, heq⟩ | ⟨hnone, j, hkey, _, heq⟩ | ⟨hnone, _, heq⟩
    · rwa [heq]
    · rw [heq]
      have hissue : q.issue.2.Tidy := ⟨ih.placed, ih.nodup, ih.size⟩
      exact hissue.register (hkey ▸ hnone)
    · rw [heq]
      exact ih.register hnone
  | issue _ ih => exact ⟨ih.placed, ih.nodup, ih.size⟩

/-- The instances of a pool that was empty have the keys that were interned. -/
theorem mem_keys_iff {hash : String → UInt64} (h : (empty hash).Interns keys p) :
    k ∈ p.instances.map Item.key ↔ k ∈ keys := by
  induction h with
  | refl => simp [instances, empty]
  | @intern keys q h i ih =>
    rw [List.mem_cons, ← ih]
    have htidy := h.tidy (tidy_empty hash)
    rcases intern_cases q i with ⟨j, hj, heq⟩ | ⟨_, j, hkey, _, heq⟩ | ⟨_, _, heq⟩
    · rw [heq]
      refine ⟨.inr, ?_⟩
      rintro (rfl | hk)
      · exact htidy.exists_find?_iff.mp ⟨j, hj⟩
      · exact hk
    · rw [heq, ((instances_register q.issue.2 j).map Item.key).mem_iff, List.map_cons,
        List.mem_cons, hkey]
      exact .rfl
    · rw [heq, ((instances_register q i).map Item.key).mem_iff, List.map_cons, List.mem_cons]
  | issue _ ih => exact ih

/-- **The size of a pool that was empty is the number of different keys that were interned.** -/
theorem size_eq {hash : String → UInt64} (h : (empty hash).Interns keys p) :
    p.size = keys.toFinset.card := by
  have htidy := h.tidy (tidy_empty hash)
  have hkeys : keys.toFinset = (p.instances.map Item.key).toFinset := by
    ext k
    rw [List.mem_toFinset, List.mem_toFinset, h.mem_keys_iff]
  rw [hkeys, List.toFinset_card_of_nodup htidy.nodup, List.length_map, htidy.size]

end Interns

theorem numbered_empty (hash : String → UInt64) : (empty hash).Numbered :=
  (sound_empty hash).toNumbered

end Pool

/-! ## Serial numbers -/

namespace Bench

variable {b c d : Bench} {i j : Item} {keys keys' : List String}

/-- The serial number of the item, if it has one, was given out and belongs to nothing else, neither
to an instance nor to what is kept. -/
def Admits (b : Bench) (i : Item) : Prop := i.serial ≠ 0 →
  i.serial ≤ b.pool.issued ∧ (∀ {k j}, b.pool.find? k = some j → j.serial = i.serial → j = i) ∧
    ∀ t ∈ b.kept, t.serial = i.serial → .transformer t = i

/-- Serial numbers tell apart what is kept. -/
def Proper (b : Bench) : Prop := ∀ t ∈ b.kept, b.Admits (.transformer t)

/-- An item that has not been given out has no serial number that could belong to something else. -/
theorem admits_new (hi : i.serial = 0) : b.Admits i := fun hserial => absurd hi hserial

/-- What is canonical has a serial number of its own. -/
theorem admits_found (hpool : b.pool.Numbered) (hb : b.Proper) (hi : b.pool.find? i.key = some i) :
    b.Admits i := by
  refine fun hserial => ⟨(hpool.issued hi).2, fun hj hsame => ?_, fun t ht hsame => ?_⟩
  · rw [← Pool.key_of_find? hj] at hj
    exact hpool.eq_of_serial hj hi hsame
  · obtain ⟨_, hinstance, _⟩ := hb t ht (hsame.trans_ne hserial)
    exact (hinstance hi hsame.symm).symm

/-- Interning items that are admitted leads from the first bench to the second; in between serial
numbers may be given out, and what is kept may change. -/
inductive Interns (b : Bench) : List String → Bench → Prop
  | refl : Interns b [] b
  | intern {keys : List String} {c : Bench} (h : Interns b keys c) (i : Item) (hi : c.Admits i) :
      Interns b (i.key :: keys) { c with pool := (c.pool.intern i).2 }
  | issue {keys : List String} {c : Bench} (h : Interns b keys c) :
      Interns b keys { c with pool := c.pool.issue.2 }
  | keep {keys : List String} {c : Bench} (h : Interns b keys c) (kept : List Transformer)
      (hkept : Proper { c with kept := kept }) : Interns b keys { c with kept := kept }

/-- What is kept stays admitted when an admitted item is interned. -/
theorem Proper.intern (hb : b.Proper) (hi : b.Admits i) :
    Proper { b with pool := (b.pool.intern i).2 } := by
  intro t ht hserial
  obtain ⟨hle, hold, hkept⟩ := hb t ht hserial
  rcases Pool.intern_cases b.pool i with ⟨_, _, heq⟩ | ⟨_, i', _, hnext, heq⟩ | ⟨_, hne, heq⟩
  · rw [heq]
    exact ⟨hle, hold, hkept⟩
  · rw [heq]
    refine ⟨Nat.le_succ_of_le hle, fun hfound hsame => ?_, hkept⟩
    rcases Pool.find?_register_cases hfound with hfound | ⟨_, rfl⟩
    · exact hold hfound hsame
    · omega
  · rw [heq]
    refine ⟨hle, fun hfound hsame => ?_, hkept⟩
    rcases Pool.find?_register_cases hfound with hfound | ⟨_, rfl⟩
    · exact hold hfound hsame
    · exact ((hi hne).2.2 t ht hsame.symm).symm

namespace Interns

theorem trans (h : b.Interns keys c) (h' : c.Interns keys' d) : b.Interns (keys' ++ keys) d := by
  induction h' with
  | refl => exact h
  | intern _ i hi ih => exact ih.intern i hi
  | issue _ ih => exact ih.issue
  | keep _ kept hkept ih => exact ih.keep kept hkept

/-- What happens to the pool. -/
theorem pool (h : b.Interns keys c) : b.pool.Interns keys c.pool := by
  induction h with
  | refl => exact .refl
  | intern _ i _ ih => exact ih.intern i
  | issue _ ih => exact ih.issue
  | keep _ _ _ ih => exact ih

/-- **Serial numbers go on telling instances apart.** -/
theorem numbered (h : b.Interns keys c) (hb : b.pool.Numbered) : c.pool.Numbered := by
  induction h with
  | refl => exact hb
  | @intern _ c _ i hi ih =>
    rcases Pool.intern_cases c.pool i with ⟨j, _, heq⟩ | ⟨_, j, _, hserial, heq⟩ |
      ⟨hnone, hserial, heq⟩
    · rwa [heq]
    · rw [heq]
      exact ih.register_next hserial
    · rw [heq]
      obtain ⟨hle, hown, _⟩ := hi hserial
      refine ih.register ⟨Nat.pos_of_ne_zero hserial, hle⟩ fun hj hsame => ?_
      -- The one instance with this serial number would be the item itself, whose key finds nothing.
      obtain rfl := hown hj hsame
      rw [Pool.key_of_find? hj, hj] at hnone
      cases hnone
  | issue _ ih => exact ih.issue
  | keep _ _ _ ih => exact ih

/-- **Serial numbers go on telling apart what is kept.** -/
theorem proper (h : b.Interns keys c) (hb : b.Proper) : c.Proper := by
  induction h with
  | refl => exact hb
  | intern _ i hi ih => exact ih.intern hi
  | issue _ ih =>
    intro t ht hserial
    obtain ⟨hle, hown, hkept⟩ := ih t ht hserial
    exact ⟨Nat.le_succ_of_le hle, hown, hkept⟩
  | keep _ _ hkept => exact hkept

end Interns

end Bench

/-! ## What the operations of a manager intern -/

namespace Manager

variable {m m' m'' : Manager} {t first second c : Transformer} {v u : Value}

/-- A manager whose pool grows stays orderly, whatever becomes of its factories. -/
theorem Orderly.grown (hm : m.Orderly) (hbench : ∃ keys, m.bench.Interns keys m'.bench)
    (hidentity : m'.identity = m.identity) : m'.Orderly := by
  obtain ⟨_, hkeys⟩ := hbench
  refine ⟨hkeys.numbered hm.pool, ?_, ?_⟩
  · rw [hidentity]
    exact hm.identity.mono hkeys.pool.keeps
  · rw [hidentity, hm.blank]

/-- The second manager is what the first becomes by interning items. -/
structure Evolves (m m' : Manager) : Prop where
  bench : ∃ keys, m.bench.Interns keys m'.bench
  identity : m'.identity = m.identity
  factories : m'.factories = m.factories

namespace Evolves

theorem refl (m : Manager) : m.Evolves m := ⟨⟨[], .refl⟩, rfl, rfl⟩

theorem trans (h : m.Evolves m') (h' : m'.Evolves m'') : m.Evolves m'' := by
  obtain ⟨_, hkeys⟩ := h.bench
  obtain ⟨_, hkeys'⟩ := h'.bench
  exact ⟨⟨_, hkeys.trans hkeys'⟩, h'.identity.trans h.identity, h'.factories.trans h.factories⟩

/-- What a pool holds it goes on holding. -/
theorem keeps (h : m.Evolves m') : m.pool.Extends m'.pool := by
  obtain ⟨_, hkeys⟩ := h.bench
  exact hkeys.pool.keeps

theorem orderly (h : m.Evolves m') (hm : m.Orderly) : m'.Orderly := hm.grown h.bench h.identity

end Evolves

/-- Interning an item evolves a manager, if its serial number, should it have one, belongs to
nothing else. -/
theorem evolves_intern {i : Item} (hi : m.bench.Admits i) :
    m.Evolves { m with pool := (m.pool.intern i).2 } :=
  ⟨⟨_, .intern .refl i hi⟩, rfl, rfl⟩

/-- Interning a transformer gives its canonical instance. -/
theorem intern_evolves (ht : m.bench.Admits (.transformer t)) (h : Yields (intern t) m c m') :
    m.Evolves m' ∧ m'.pool.Holds c ∧ c.contents = t.contents := by
  obtain ⟨rfl, _, hholds, hcontents⟩ := intern_canonical h
  exact ⟨evolves_intern ht, hholds, hcontents⟩

/-- A value that is new has a canonical instance. -/
theorem internValue_evolves (hv : v.serial = 0) (h : Yields (internValue v) m u m') :
    m.Evolves m' ∧ m'.pool.find? u.key = some (.value u) ∧ u.contents = v.contents := by
  obtain ⟨rfl, hfound, hcontents⟩ := internValue_canonical h
  exact ⟨evolves_intern (Bench.admits_new hv), hfound, hcontents⟩

/-- Making ready to intern evolves a manager. -/
theorem Prepares.evolves {old : List Transformer} {i : Item} (h : m.Prepares t old i m') :
    m.Evolves m' := by
  rcases h.replayed with ⟨rfl, _⟩ | ⟨e, he, _⟩
  · exact .refl _
  · exact (intern_evolves (Bench.admits_new rfl) he).1

/-- Composition hands back an operand, or it evolves the manager by interning the merge. -/
theorem compose_outcome (h : Yields (compose first second) m c m') :
    (m' = m ∧ c = second ∧ (second.clear = true ∨ first.serial = m.identity.serial)) ∨
    (m' = m ∧ c = first ∧ second.clear = false ∧ second.serial = m.identity.serial) ∨
    (m.Evolves m' ∧ m'.pool.Holds c ∧ second.clear = false ∧
      first.serial ≠ m.identity.serial ∧ second.serial ≠ m.identity.serial ∧
      c.contents = (first.merge second).contents) := by
  rcases compose_cases h with hback | ⟨hm, hc, hclear, _, hsi⟩ |
    ⟨hclear, hfi, hsi, body, m₁, hprepares, hintern, hbody⟩
  · exact .inl hback
  · exact .inr (.inl ⟨hm, hc, hclear, hsi⟩)
  · obtain ⟨hevolves, hholds, hcontents⟩ :=
      intern_evolves (Bench.admits_new hprepares.serial) hintern
    exact .inr (.inr ⟨hprepares.evolves.trans hevolves, hholds, hclear, hfi, hsi,
      hcontents.trans hbody⟩)

/-- Composition interns, and what canonical transformers compose to is canonical. -/
theorem compose_evolves (h : Yields (compose first second) m c m') :
    m.Evolves m' ∧ (m.pool.Holds first → m.pool.Holds second → m'.pool.Holds c) := by
  rcases compose_outcome h with ⟨rfl, rfl, _⟩ | ⟨rfl, rfl, _⟩ | ⟨hevolves, hholds, _⟩
  · exact ⟨.refl _, fun _ hsecond => hsecond⟩
  · exact ⟨.refl _, fun hfirst _ => hfirst⟩
  · exact ⟨hevolves, fun _ _ => hholds⟩

theorem composeAll_evolves {after : List Transformer} (h : Yields (composeAll t after) m c m') :
    m.Evolves m' := by
  induction after generalizing t m with
  | nil =>
    obtain ⟨rfl, rfl⟩ := Yields.pure_iff.mp h
    exact .refl _
  | cons next rest ih =>
    simp only [composeAll, Yields.bind_iff] at h
    obtain ⟨t', m₁, hcompose, hrest⟩ := h
    exact (compose_evolves hcompose).1.trans (ih hrest)

/-- **Application** interns the value that the contents give, whatever it is applied to. -/
theorem apply_evolves (h : Yields (apply t v) m u m') :
    m.Evolves m' ∧ m'.pool.find? u.key = some (.value u) ∧ u.contents = (t.on v).contents := by
  obtain ⟨body, m₁, hprepares, hintern, hbody⟩ := apply_cases h
  obtain ⟨hevolves, hfound, hcontents⟩ := internValue_evolves hprepares.serial hintern
  exact ⟨hprepares.evolves.trans hevolves, hfound, hcontents.trans hbody⟩

/-- A new manager on an empty pool has interned the blank transformer, which is the identity. -/
theorem create_interns (hash : String → UInt64) :
    (∃ keys, (Pool.empty hash).Interns keys (create (.empty hash)).pool) ∧
      (create (.empty hash)).Orderly := by
  obtain ⟨hpool, hholds, hblank⟩ := create_canonical (.empty hash)
  have hinterns := Bench.Interns.refl (b := ⟨.empty hash, []⟩).intern (.transformer .blank)
    (Bench.admits_new rfl)
  rw [← hpool] at hinterns
  exact ⟨⟨_, hinterns.pool⟩, hinterns.numbered (Pool.numbered_empty hash), hholds, hblank⟩

end Manager

end FieldFlow
