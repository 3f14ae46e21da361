/-!
# Lists in the order of keys

Members are put into the order of their keys, and of several with the same key one is kept.  The key
of a member is computed once: it stands beside the member in an entry.

Main definitions: `Ordered.entries`, `Ordered.firsts`, `Ordered.distinctBy`.
-/

namespace FieldFlow.Ordered

variable {κ α : Type}

/-- The members with their keys. -/
def entries (key : α → κ) (members : List α) : List (κ × α) := members.map fun x => (key x, x)

/-- The order of entries that an order of keys gives. -/
def entryLe (le : κ → κ → Bool) (a b : κ × α) : Bool := le a.1 b.1

variable [DecidableEq κ]

/-- Of neighbours with the same key the first, where `k` is the key of the entry in front. -/
def firstsAfter (k : κ) : List (κ × α) → List (κ × α)
  | [] => []
  | e :: rest => if e.1 = k then firstsAfter k rest else e :: firstsAfter e.1 rest

/-- Of neighbours with the same key the first. -/
def firsts : List (κ × α) → List (κ × α)
  | [] => []
  | e :: rest => e :: firstsAfter e.1 rest

/-- The entries of the members in the order of their keys; of several with the same key the
first. -/
def sort (le : κ → κ → Bool) (key : α → κ) (members : List α) : List (κ × α) :=
  firsts ((entries key members).mergeSort (entryLe le))

/-- The members in the order of their keys; of several with the same key the first. -/
def distinctBy (le : κ → κ → Bool) (key : α → κ) (members : List α) : List α :=
  (sort le key members).map Prod.snd

/-! ## What is kept -/

/-- Whatever is kept stood in the list. -/
theorem mem_of_mem_firstsAfter {k : κ} {l : List (κ × α)} {e : κ × α} (h : e ∈ firstsAfter k l) :
    e ∈ l := by
  induction l generalizing k with
  | nil => exact h
  | cons f rest ih =>
    unfold firstsAfter at h
    split at h
    · exact List.mem_cons_of_mem f (ih h)
    · rcases List.mem_cons.mp h with h | h
      · exact h ▸ List.mem_cons_self
      · exact List.mem_cons_of_mem f (ih h)

/-- Whatever is kept stood in the list. -/
theorem mem_of_mem_firsts {l : List (κ × α)} {e : κ × α} (h : e ∈ firsts l) : e ∈ l := by
  cases l with
  | nil => exact h
  | cons f rest =>
    rcases List.mem_cons.mp h with h | h
    · exact h ▸ List.mem_cons_self
    · exact List.mem_cons_of_mem f (mem_of_mem_firstsAfter h)

/-- What is kept behind a least key lies strictly behind it, and is in strict order itself. -/
theorem pairwise_firstsAfter {le : κ → κ → Bool} (antisymm : ∀ a b, le a b → le b a → a = b)
    {k : κ} {l : List (κ × α)} (hk : ∀ e ∈ l, le k e.1) (h : l.Pairwise (fun a b => le a.1 b.1)) :
    (∀ e ∈ firstsAfter k l, le k e.1 ∧ k ≠ e.1) ∧
      (firstsAfter k l).Pairwise (fun a b => le a.1 b.1 ∧ a.1 ≠ b.1) := by
  induction l generalizing k with
  | nil => simp [firstsAfter]
  | cons f rest ih =>
    obtain ⟨hf, hrest⟩ := List.pairwise_cons.mp h
    unfold firstsAfter
    split
    · exact ih (fun e he => hk e (List.mem_cons_of_mem f he)) hrest
    · rename_i hne
      have hkf : le k f.1 := hk f List.mem_cons_self
      obtain ⟨hbehind, hpairs⟩ := ih hf hrest
      refine ⟨?_, List.pairwise_cons.mpr ⟨hbehind, hpairs⟩⟩
      intro e he
      rcases List.mem_cons.mp he with he | he
      · exact he ▸ ⟨hkf, fun heq => hne heq.symm⟩
      · have hmem : e ∈ rest := mem_of_mem_firstsAfter he
        refine ⟨hk e (List.mem_cons_of_mem f hmem), fun heq => ?_⟩
        exact hne (antisymm f.1 k (heq ▸ hf e hmem) hkf)

/-- Of an ordered list what is kept is in strict order. -/
theorem pairwise_firsts {le : κ → κ → Bool} (antisymm : ∀ a b, le a b → le b a → a = b)
    {l : List (κ × α)} (h : l.Pairwise (fun a b => le a.1 b.1)) :
    (firsts l).Pairwise (fun a b => le a.1 b.1 ∧ a.1 ≠ b.1) := by
  cases l with
  | nil => exact List.Pairwise.nil
  | cons f rest =>
    obtain ⟨hf, hrest⟩ := List.pairwise_cons.mp h
    exact List.pairwise_cons.mpr (pairwise_firstsAfter antisymm hf hrest)

end FieldFlow.Ordered
