import FieldFlow.Ordered

/-!
# Collections ordered by a key

A finite collection in which every member has a textual key: no two members share a key, and the
members stand in increasing order of their keys.  Because the order is part of the type, two
collections with the same members are equal, whatever the order in which they were filled.

Texts are compared character by character, which is also the order of their UTF-8 bytes.

Main definitions: `Keyed`, `Keyed.ofList`, `Keyed.union`, `Keyed.find?`.
-/

namespace FieldFlow

/-- Members in strictly increasing order of their keys. -/
structure Keyed {α : Type} (key : α → String) where
  /-- The keys with their members, in order. -/
  entries : List (String × α)
  /-- Every member stands beside its own key. -/
  keyed : ∀ e ∈ entries, e.1 = key e.2
  /-- The keys increase strictly, so each occurs once. -/
  increasing : entries.Pairwise (fun a b => a.1 < b.1)

namespace Keyed

variable {α : Type} {key : α → String}

/-! ## The order of keys -/

/-- The order of texts as a test. -/
def keyLe (a b : String) : Bool := decide (a ≤ b)

/-- Two texts that precede each other are equal. -/
theorem keyLe_antisymm (a b : String) (hab : keyLe a b) (hba : keyLe b a) : a = b :=
  String.le_antisymm (of_decide_eq_true hab) (of_decide_eq_true hba)

/-- A text that precedes another without being equal is smaller. -/
theorem lt_of_keyLe_of_ne {a b : String} (h : keyLe a b) (hne : a ≠ b) : a < b := by
  apply String.not_le.mp
  intro hba
  exact hne (String.le_antisymm (of_decide_eq_true h) hba)

/-- The order of entries is transitive. -/
theorem entryLe_trans (a b c : String × α) (hab : Ordered.entryLe keyLe a b)
    (hbc : Ordered.entryLe keyLe b c) : Ordered.entryLe keyLe a c :=
  decide_eq_true (String.le_trans (of_decide_eq_true hab) (of_decide_eq_true hbc))

/-- Of two entries one precedes the other. -/
theorem entryLe_total (a b : String × α) :
    (Ordered.entryLe keyLe a b || Ordered.entryLe keyLe b a) = true := by
  simp only [Ordered.entryLe, keyLe, Bool.or_eq_true, decide_eq_true_eq]
  exact String.le_total a.1 b.1

/-- Of an ordered list what is kept has strictly increasing keys. -/
theorem increasing_firsts {l : List (String × α)}
    (h : l.Pairwise (fun a b => Ordered.entryLe keyLe a b)) :
    (Ordered.firsts l).Pairwise (fun a b => a.1 < b.1) :=
  (Ordered.pairwise_firsts keyLe_antisymm h).imp fun hab => lt_of_keyLe_of_ne hab.1 hab.2

/-- The entries of a collection are in order. -/
theorem ordered (s : Keyed key) : s.entries.Pairwise (fun a b => Ordered.entryLe keyLe a b) := by
  refine s.increasing.imp ?_
  intro a b hab
  apply decide_eq_true
  rcases String.le_total a.1 b.1 with h | h
  · exact h
  · exact absurd hab (String.not_lt.mpr h)

/-! ## Building -/

/-- The collection with no members. -/
def empty : Keyed key := ⟨[], by simp, List.Pairwise.nil⟩

/-- The collection with one member. -/
def singleton (x : α) : Keyed key := ⟨[(key x, x)], by simp, List.pairwise_singleton _ _⟩

/-- The collection of the listed members; of several with the same key the first. -/
def ofList (members : List α) : Keyed key where
  entries := Ordered.sort keyLe key members
  keyed e he := by
    have h := List.mem_mergeSort.mp (Ordered.mem_of_mem_firsts he)
    obtain ⟨x, _, rfl⟩ := List.mem_map.mp h
    rfl
  increasing := increasing_firsts (List.pairwise_mergeSort entryLe_trans entryLe_total _)

/-- The members of both collections; of two with the same key the one of the first collection. -/
def union (s t : Keyed key) : Keyed key where
  entries := Ordered.firsts (s.entries.merge t.entries (Ordered.entryLe keyLe))
  keyed e he := by
    rcases List.mem_merge.mp (Ordered.mem_of_mem_firsts he) with h | h
    · exact s.keyed e h
    · exact t.keyed e h
  increasing := increasing_firsts
    (List.pairwise_merge entryLe_trans entryLe_total _ _ s.ordered t.ordered)

/-- Adds a member, unless one with the same key is present. -/
def insert (s : Keyed key) (x : α) : Keyed key := s.union (singleton x)

/-- Adds a member in place of the one with the same key, if there is one. -/
def put (s : Keyed key) (x : α) : Keyed key := (singleton x).union s

/-! ## Looking -/

/-- The members, in order. -/
def toList (s : Keyed key) : List α := s.entries.map Prod.snd

/-- The keys, in order. -/
def keys (s : Keyed key) : List String := s.entries.map Prod.fst

/-- The members that satisfy `p`. -/
def filter (p : α → Bool) (s : Keyed key) : Keyed key where
  entries := s.entries.filter fun e => p e.2
  keyed e he := s.keyed e (List.mem_filter.mp he).1
  increasing := s.increasing.filter _

/-- The member with the given key. -/
def find? (s : Keyed key) (k : String) : Option α := s.entries.lookup k

/-- The number of members. -/
def size (s : Keyed key) : Nat := s.entries.length

/-- The collection has no members. -/
def isEmpty (s : Keyed key) : Bool := s.entries.isEmpty

/-- The entries are the members with their keys. -/
theorem entries_eq (s : Keyed key) : s.entries = Ordered.entries key s.toList := by
  have h : ∀ l : List (String × α), (∀ e ∈ l, e.1 = key e.2) →
      l = (l.map Prod.snd).map (fun x => (key x, x)) := by
    intro l hl
    induction l with
    | nil => rfl
    | cons e rest ih =>
      have he : e.1 = key e.2 := hl e List.mem_cons_self
      have hrest := ih fun e he => hl e (List.mem_cons_of_mem _ he)
      rw [List.map_cons, List.map_cons, ← hrest, ← he]
  exact h s.entries s.keyed

/-- Two collections with the same members are the same. -/
@[ext]
theorem ext {s t : Keyed key} (h : s.toList = t.toList) : s = t := by
  have hentries : s.entries = t.entries := by rw [entries_eq s, entries_eq t, h]
  cases s; cases t; simp_all

end Keyed

end FieldFlow
