import FieldFlow.Value
import Mathlib.Data.List.Forall2

/-!
# Members of ordered collections

What a collection holds and what looking up a key finds, for every way of building one.  Building by
key drops members with equal keys, so the lemmas say first what becomes of the keys; where keys tell
members apart, they say what becomes of the members.

Main results: `mem_of_mapM_eq_some`, `Ordered.mem_distinctBy_keys`, `Keyed.find?_union`,
`Keyed.mem_ofList`.
-/

namespace FieldFlow

/-! ## Lists -/

section Partial

variable {α β : Type} {f : α → Option β} {xs : List α} {ys : List β}

/-- A function gives results for a list if it does for its head and its tail. -/
theorem mapM_cons_eq_some {x : α} :
    (x :: xs).mapM f = some ys ↔
      ∃ y, f x = some y ∧ ∃ rest, xs.mapM f = some rest ∧ ys = y :: rest := by
  rw [List.mapM_cons]
  simp only [Option.bind_eq_bind, Option.bind_eq_some_iff, Option.pure_def, Option.some.injEq,
    @eq_comm _ ys]

/-- The results for a list are the results for its members. -/
theorem mem_of_mapM_eq_some (h : xs.mapM f = some ys) {y : β} :
    y ∈ ys ↔ ∃ x ∈ xs, f x = some y := by
  induction xs generalizing ys with
  | nil =>
    cases h
    simp
  | cons x rest ih =>
    obtain ⟨z, hz, others, hothers, rfl⟩ := mapM_cons_eq_some.mp h
    simp [ih hothers, hz, @eq_comm _ z]

/-- A function that gives results for a list gives one for each member. -/
theorem exists_of_mapM_eq_some (h : xs.mapM f = some ys) {x : α} (hx : x ∈ xs) :
    ∃ y, f x = some y := by
  induction xs generalizing ys with
  | nil => cases hx
  | cons z rest ih =>
    obtain ⟨y, hy, others, hothers, rfl⟩ := mapM_cons_eq_some.mp h
    rcases List.mem_cons.mp hx with rfl | hx
    · exact ⟨y, hy⟩
    · exact ih hothers hx

/-- A function gives no results for a list exactly if it gives none for one of the members. -/
theorem mapM_eq_none : xs.mapM f = none ↔ ∃ x ∈ xs, f x = none := by
  induction xs with
  | nil => simp
  | cons x rest ih =>
    rw [List.mapM_cons]
    cases hx : f x with
    | none => simp [hx]
    | some y => cases hrest : rest.mapM f <;> simp_all

end Partial

theorem exists_of_forall₂ {α β : Type} {R : α → β → Prop} {l : List α} {l' : List β}
    (h : List.Forall₂ R l l') :
    (∀ a ∈ l, ∃ b ∈ l', R a b) ∧ ∀ b ∈ l', ∃ a ∈ l, R a b := by
  induction h with
  | nil => simp
  | cons hfirst _ ih =>
    obtain ⟨hforth, hback⟩ := ih
    simp only [List.forall_mem_cons, List.exists_mem_cons_iff]
    exact ⟨⟨.inl hfirst, fun a ha => .inr (hforth a ha)⟩, .inl hfirst,
      fun b hb => .inr (hback b hb)⟩

/-- Looking up a key compares it with the first one. -/
theorem lookup_cons_ite {κ α : Type} [DecidableEq κ] (k key : κ) (x : α) (rest : List (κ × α)) :
    List.lookup k ((key, x) :: rest) = if k = key then some x else rest.lookup k := by
  rw [List.lookup_cons]
  by_cases h : k = key
  · simp [h]
  · have hne : (k == key) = false := by simpa using h
    rw [hne, if_neg h]

/-- What is found under a key stands in the list. -/
theorem mem_of_lookup {κ α : Type} [DecidableEq κ] {k : κ} {x : α} {l : List (κ × α)}
    (h : l.lookup k = some x) : (k, x) ∈ l := by
  obtain ⟨l₁, l₂, hsplit, _⟩ := List.lookup_eq_some_iff.mp h
  simp [hsplit]

/-- What is found under a key stays when the entries of another one are taken out. -/
theorem lookup_filter_ne {κ α : Type} [DecidableEq κ] {k key : κ} (h : k ≠ key)
    (l : List (κ × α)) : (l.filter fun entry => entry.1 ≠ key).lookup k = l.lookup k := by
  induction l with
  | nil => rfl
  | cons entry rest ih =>
    obtain ⟨k', x⟩ := entry
    by_cases hkey : k' = key
    · rw [List.filter_cons_of_neg (by simp [hkey]), ih, lookup_cons_ite, if_neg (hkey ▸ h)]
    · rw [List.filter_cons_of_pos (by simp [hkey]), lookup_cons_ite, lookup_cons_ite, ih]

/-! ## Lists in the order of keys -/

namespace Ordered

variable {κ α : Type} [DecidableEq κ]

/-- Looking up a key other than the one in front finds the same before and after the repeats are
dropped. -/
theorem lookup_firstsAfter {k k' : κ} (h : k' ≠ k) (l : List (κ × α)) :
    (firstsAfter k l).lookup k' = l.lookup k' := by
  induction l generalizing k with
  | nil => rfl
  | cons e rest ih =>
    obtain ⟨k₁, x⟩ := e
    unfold firstsAfter
    split
    · rename_i heq
      have hne : (k' == k₁) = false := by
        have : k₁ = k := heq
        simpa [this] using h
      rw [ih h, List.lookup_cons, hne]
    · rw [List.lookup_cons, List.lookup_cons]
      by_cases hk : k' = k₁
      · simp [hk]
      · rw [ih hk]

/-- Dropping repeats does not change what a key finds. -/
theorem lookup_firsts (k : κ) (l : List (κ × α)) : (firsts l).lookup k = l.lookup k := by
  cases l with
  | nil => rfl
  | cons e rest =>
    obtain ⟨k₁, x⟩ := e
    rw [firsts, List.lookup_cons, List.lookup_cons]
    by_cases hk : k = k₁
    · simp [hk]
    · rw [lookup_firstsAfter hk]

theorem exists_mem_firsts {l : List (κ × α)} {e : κ × α} (h : e ∈ l) :
    ∃ e' ∈ firsts l, e'.1 = e.1 := by
  have hfound : (l.lookup e.1).isSome := List.lookup_isSome_iff.mpr ⟨e, h, beq_self_eq_true e.1⟩
  rw [← lookup_firsts] at hfound
  obtain ⟨e', hmem, hkey⟩ := List.lookup_isSome_iff.mp hfound
  exact ⟨e', hmem, (beq_iff_eq.mp hkey).symm⟩

variable {le : κ → κ → Bool} {key : α → κ}

/-- Entries after sorting stand beside members of the list. -/
theorem mem_of_mem_sort {l : List α} {e : κ × α} (h : e ∈ sort le key l) :
    e.2 ∈ l ∧ e.1 = key e.2 := by
  have hmem := List.mem_mergeSort.mp (mem_of_mem_firsts h)
  obtain ⟨x, hx, rfl⟩ := List.mem_map.mp hmem
  exact ⟨hx, rfl⟩

theorem mem_of_mem_distinctBy {l : List α} {x : α} (h : x ∈ distinctBy le key l) : x ∈ l := by
  obtain ⟨e, he, rfl⟩ := List.mem_map.mp h
  exact (mem_of_mem_sort he).1

/-- Of every member one with the same key is kept. -/
theorem exists_mem_distinctBy (le : κ → κ → Bool) (key : α → κ) {l : List α} {x : α} (h : x ∈ l) :
    ∃ y ∈ distinctBy le key l, key y = key x := by
  have hentry : (key x, x) ∈ (entries key l).mergeSort (entryLe le) :=
    List.mem_mergeSort.mpr (List.mem_map.mpr ⟨x, h, rfl⟩)
  obtain ⟨e, he, hkey⟩ := exists_mem_firsts hentry
  exact ⟨e.2, List.mem_map.mpr ⟨e, he, rfl⟩, by rw [← (mem_of_mem_sort he).2, hkey]⟩

/-- **Sorting keeps a property of the members** that looks at no more than their keys. -/
theorem mem_distinctBy_keys {β : Type} (view : α → β) {l : List α}
    (hview : ∀ x ∈ l, ∀ y ∈ l, key x = key y → view x = view y) (b : β) :
    (∃ x ∈ distinctBy le key l, view x = b) ↔ ∃ x ∈ l, view x = b := by
  constructor
  · rintro ⟨x, hx, rfl⟩
    exact ⟨x, mem_of_mem_distinctBy hx, rfl⟩
  · rintro ⟨x, hx, rfl⟩
    obtain ⟨y, hy, hkey⟩ := exists_mem_distinctBy le key hx
    exact ⟨y, hy, hview y (mem_of_mem_distinctBy hy) x hx hkey⟩

/-- Members that are their own keys are all kept. -/
theorem mem_distinctBy_id {le : α → α → Bool} [DecidableEq α] {l : List α} {x : α} :
    x ∈ distinctBy le id l ↔ x ∈ l := by
  have h : (∃ y ∈ distinctBy le id l, id y = x) ↔ ∃ y ∈ l, id y = x :=
    mem_distinctBy_keys id (fun _ _ _ _ h => h) x
  simpa using h

theorem distinctBy_singleton (le : κ → κ → Bool) (key : α → κ) (x : α) :
    distinctBy le key [x] = [x] := by
  simp [distinctBy, sort, entries, firsts, firstsAfter]

/-- Sorting by a total order leaves members with strictly increasing keys. -/
theorem pairwise_distinctBy (htrans : ∀ a b c, le a b → le b c → le a c)
    (htotal : ∀ a b, (le a b || le b a) = true) (hantisymm : ∀ a b, le a b → le b a → a = b)
    (l : List α) :
    (distinctBy le key l).Pairwise (fun x y => le (key x) (key y) ∧ key x ≠ key y) := by
  have hsorted : ((entries key l).mergeSort (entryLe le)).Pairwise (fun a b => le a.1 b.1) :=
    List.pairwise_mergeSort (fun a b c => htrans a.1 b.1 c.1) (fun a b => htotal a.1 b.1) _
  rw [distinctBy, List.pairwise_map]
  refine (pairwise_firsts hantisymm hsorted).imp_of_mem ?_
  intro a b ha hb hab
  rwa [(mem_of_mem_sort ha).2, (mem_of_mem_sort hb).2] at hab

end Ordered

/-! ## Collections ordered by a key -/

namespace Keyed

variable {α : Type} {key : α → String}

/-- A member stands in an entry beside its key. -/
theorem mem_toList {s : Keyed key} {x : α} : x ∈ s.toList ↔ (key x, x) ∈ s.entries := by
  constructor
  · intro h
    obtain ⟨e, he, rfl⟩ := List.mem_map.mp h
    rw [← s.keyed e he]
    exact he
  · intro h
    exact List.mem_map.mpr ⟨_, h, rfl⟩

/-- The keys that the members stand beside are their own. -/
theorem keys_eq (s : Keyed key) : s.keys = s.toList.map key := by
  rw [keys, entries_eq, Ordered.entries, List.map_map]
  rfl

/-- The keys of the members increase strictly. -/
theorem pairwise_toList (s : Keyed key) : s.toList.Pairwise (fun x y => key x < key y) := by
  rw [toList, List.pairwise_map]
  refine s.increasing.imp_of_mem ?_
  intro a b ha hb hab
  rwa [s.keyed a ha, s.keyed b hb] at hab

theorem nodup_toList (s : Keyed key) : s.toList.Nodup := by
  refine s.pairwise_toList.imp ?_
  rintro x _ hlt rfl
  exact String.lt_irrefl _ hlt

theorem find?_eq_some {s : Keyed key} {k : String} {x : α} :
    s.find? k = some x ↔ x ∈ s.toList ∧ key x = k := by
  constructor
  · intro h
    obtain ⟨l₁, l₂, hsplit, _⟩ := List.lookup_eq_some_iff.mp h
    have hentry : (k, x) ∈ s.entries := by
      rw [hsplit]
      exact List.mem_append_right _ List.mem_cons_self
    have hkey : k = key x := s.keyed _ hentry
    exact ⟨mem_toList.mpr (hkey ▸ hentry), hkey.symm⟩
  · rintro ⟨hx, rfl⟩
    obtain ⟨l₁, l₂, hsplit⟩ := List.append_of_mem (mem_toList.mp hx)
    refine List.lookup_eq_some_iff.mpr ⟨l₁, l₂, hsplit, ?_⟩
    intro p hp
    have hlt : p.1 < key x := by
      have hpairs := s.increasing
      rw [hsplit] at hpairs
      exact (List.pairwise_append.mp hpairs).2.2 p hp _ List.mem_cons_self
    rw [bne_iff_ne]
    rintro heq
    exact String.lt_irrefl _ (heq ▸ hlt)

/-- In merged lists a key finds what it finds in the first, and else what it finds in the second. -/
theorem lookup_merge (k : String) (l₁ l₂ : List (String × α))
    (h : l₁.Pairwise (fun a b => Ordered.entryLe keyLe a b)) :
    (l₁.merge l₂ (Ordered.entryLe keyLe)).lookup k = (l₁.lookup k).or (l₂.lookup k) := by
  induction l₁ generalizing l₂ with
  | nil => simp
  | cons e₁ rest₁ ih₁ =>
    obtain ⟨hle, hrest⟩ := List.pairwise_cons.mp h
    induction l₂ with
    | nil => simp
    | cons e₂ rest₂ ih₂ =>
      rw [List.cons_merge_cons]
      split
      · rw [List.lookup_cons, List.lookup_cons, ih₁ _ hrest]
        cases k == e₁.1 <;> simp
      · rename_i hlt
        obtain ⟨k₂, x₂⟩ := e₂
        rw [List.lookup_cons, ih₂, @List.lookup_cons _ _ x₂ rest₂]
        by_cases hk : k = k₂
        · -- the first list has only larger keys
          have hnone : (e₁ :: rest₁).lookup k = none := by
            rw [List.lookup_eq_none_iff]
            intro p hp
            rw [bne_iff_ne]
            rintro rfl
            apply hlt
            rcases List.mem_cons.mp hp with rfl | hp
            · rw [Ordered.entryLe, ← hk]
              exact decide_eq_true (String.le_refl _)
            · rw [Ordered.entryLe, ← hk]
              exact hle p hp
          rw [hnone, hk]
          simp
        · have hne : (k == k₂) = false := by simpa using hk
          rw [hne]

/-- **A key in a union** finds the member of the first collection, and else that of the second. -/
theorem find?_union (s t : Keyed key) (k : String) :
    (s.union t).find? k = (s.find? k).or (t.find? k) := by
  rw [find?, union, Ordered.lookup_firsts, lookup_merge k _ _ s.ordered]
  rfl

theorem find?_singleton (x : α) (k : String) :
    (singleton x : Keyed key).find? k = if k = key x then some x else none := by
  rw [find?, singleton, List.lookup_cons]
  by_cases hk : k = key x
  · simp [hk]
  · have hne : (k == key x) = false := by simpa using hk
    rw [hne, if_neg hk, List.lookup_nil]

/-- Putting a member changes what its key finds and nothing else. -/
theorem find?_put (s : Keyed key) (x : α) (k : String) :
    (s.put x).find? k = if k = key x then some x else s.find? k := by
  rw [put, find?_union, find?_singleton]
  split <;> simp

theorem mem_filter {s : Keyed key} {p : α → Bool} {x : α} :
    x ∈ (s.filter p).toList ↔ x ∈ s.toList ∧ p x = true := by
  rw [mem_toList, mem_toList, filter, List.mem_filter]

/-- Whatever is in the collection of a list stood in the list. -/
theorem mem_of_mem_ofList {l : List α} {x : α} (h : x ∈ (ofList l : Keyed key).toList) : x ∈ l :=
  Ordered.mem_of_mem_distinctBy h

/-- The collection of a list keeps a property that looks at no more than the keys. -/
theorem mem_ofList_keys {β : Type} (view : α → β) {l : List α}
    (hview : ∀ x ∈ l, ∀ y ∈ l, key x = key y → view x = view y) (b : β) :
    (∃ x ∈ (ofList l : Keyed key).toList, view x = b) ↔ ∃ x ∈ l, view x = b :=
  Ordered.mem_distinctBy_keys view hview b

/-- Where keys tell members apart the collection of a list holds the members of the list. -/
theorem mem_ofList (hkey : ∀ x y : α, key x = key y → x = y) {l : List α} {x : α} :
    x ∈ (ofList l : Keyed key).toList ↔ x ∈ l := by
  have h := mem_ofList_keys id (l := l) (fun x _ y _ => hkey x y) x
  simpa using h

theorem mem_iff_find? {s : Keyed key} {x : α} : x ∈ s.toList ↔ s.find? (key x) = some x := by
  rw [find?_eq_some]
  simp

/-- Whatever is in a union was in one of the two collections. -/
theorem mem_of_mem_union {s t : Keyed key} {x : α} (h : x ∈ (s.union t).toList) :
    x ∈ s.toList ∨ x ∈ t.toList := by
  rw [mem_iff_find?, find?_union, Option.or_eq_some_iff] at h
  rw [mem_iff_find?, mem_iff_find?]
  exact h.imp_right And.right

/-- A union keeps a property that looks at no more than the keys. -/
theorem exists_mem_union {P : α → Prop} (hP : ∀ x y, key x = key y → (P x ↔ P y))
    {s t : Keyed key} :
    (∃ x ∈ (s.union t).toList, P x) ↔ (∃ x ∈ s.toList, P x) ∨ ∃ x ∈ t.toList, P x := by
  constructor
  · rintro ⟨x, hx, hPx⟩
    exact (mem_of_mem_union hx).imp (fun hx => ⟨x, hx, hPx⟩) fun hx => ⟨x, hx, hPx⟩
  · intro h
    -- a member of either collection has its key in the union
    have hkeys : ∀ x, x ∈ s.toList ∨ x ∈ t.toList → ∃ y ∈ (s.union t).toList, key y = key x := by
      intro x hx
      suffices hfound : ((s.union t).find? (key x)).isSome by
        obtain ⟨y, hy⟩ := Option.isSome_iff_exists.mp hfound
        exact ⟨y, find?_eq_some.mp hy⟩
      rw [find?_union, Option.isSome_or]
      rcases hx with hx | hx <;> simp [mem_iff_find?.mp hx]
    obtain ⟨x, hx, hPx⟩ : ∃ x, (x ∈ s.toList ∨ x ∈ t.toList) ∧ P x := by
      rcases h with ⟨x, hx, hPx⟩ | ⟨x, hx, hPx⟩
      · exact ⟨x, .inl hx, hPx⟩
      · exact ⟨x, .inr hx, hPx⟩
    obtain ⟨y, hy, hkey⟩ := hkeys x hx
    exact ⟨y, hy, (hP y x hkey).mpr hPx⟩

/-- Where keys tell members apart a union holds the members of both. -/
theorem mem_union (hkey : ∀ x y : α, key x = key y → x = y) {s t : Keyed key} {x : α} :
    x ∈ (s.union t).toList ↔ x ∈ s.toList ∨ x ∈ t.toList := by
  have hunion := exists_mem_union (P := (· = x)) (fun y z h => by rw [hkey y z h]) (s := s) (t := t)
  simpa using hunion

end Keyed

end FieldFlow
