import FieldFlow.Proofs.Collections
import FieldFlow.Solver.Basic
import Mathlib.Data.List.Basic
import Mathlib.Logic.Relation
import Mathlib.Tactic.Tauto

/-!
# Objects on reference cycles

The search by rounds finds exactly what chains of references lead to, the groups of objects that
reach each other are the strongly connected components, and an object is made top exactly if a chain
of one or more references written in the model leads from it back to itself.

Main definitions: `Model.Refers`, `Model.OnCycle`.
Main results: `Cycle.mem_reachable`, `Cycle.separates_components`, `Cycle.mem_cyclicBy`,
`Solver.topsBy_eq_topsOf`.
-/

namespace FieldFlow

open Relation

/-! ## Chains of references -/

namespace Model

/-- Some object of the model has the identifier. -/
def Has (m : Model) (id : ObjectId) : Prop := ∃ o ∈ m.objects, o.id = id

/-- Some operation, on any field of any path of an object `a`, refers to `b`. -/
def Refers (m : Model) (a b : ObjectId) : Prop :=
  ∃ o ∈ m.objects, o.id = a ∧ ∃ path ∈ o.paths, ∃ f ∈ path.fields, ∃ op ∈ f.ops,
    ∃ target, op.ref = some target ∧ target.id = b

/-- A chain of one or more references leads from the object back to itself. -/
def OnCycle (m : Model) (id : ObjectId) : Prop := TransGen m.Refers id id

/-- The listed references are those written in the model. -/
theorem mem_references {m : Model} {a b : ObjectId} : (a, b) ∈ m.references ↔ m.Refers a b := by
  unfold references Object.targets Object.ops Refers
  constructor
  · intro h
    obtain ⟨o, ho, h⟩ := List.mem_flatMap.mp h
    obtain ⟨target, htarget, heq⟩ := List.mem_map.mp h
    obtain ⟨rfl, rfl⟩ := Prod.mk.inj heq
    obtain ⟨op, hop, href⟩ := List.mem_filterMap.mp htarget
    obtain ⟨path, hpath, hop⟩ := List.mem_flatMap.mp hop
    obtain ⟨f, hf, hop⟩ := List.mem_flatMap.mp hop
    obtain ⟨t, ht, hid⟩ := Option.map_eq_some_iff.mp href
    exact ⟨o, ho, rfl, path, hpath, f, hf, op, hop, t, ht, hid⟩
  · rintro ⟨o, ho, rfl, path, hpath, f, hf, op, hop, t, ht, rfl⟩
    refine List.mem_flatMap.mpr ⟨o, ho, List.mem_map.mpr ⟨t.id, ?_, rfl⟩⟩
    refine List.mem_filterMap.mpr ⟨op, ?_, by rw [ht, Option.map_some]⟩
    exact List.mem_flatMap.mpr ⟨path, hpath, List.mem_flatMap.mpr ⟨f, hf, hop⟩⟩

/-- An object on a reference cycle refers to some object, and some object refers to it. -/
theorem OnCycle.references {m : Model} {id : ObjectId} (h : m.OnCycle id) :
    (∃ b, (id, b) ∈ m.references) ∧ ∃ a, (a, id) ∈ m.references := by
  obtain ⟨b, hfirst, _⟩ := TransGen.head'_iff.mp h
  obtain ⟨a, _, hlast⟩ := TransGen.tail'_iff.mp h
  exact ⟨⟨b, mem_references.mpr hfirst⟩, ⟨a, mem_references.mpr hlast⟩⟩

end Model

namespace Cycle

/-! ## The graph -/

/-- A reference of the list leads from the first object to the second. -/
def Leads (edges : Edges) (a b : ObjectId) : Prop := (a, b) ∈ edges

/-- Adding references adds their ends to what objects lead to. -/
theorem mem_successors_foldl (edges : Edges) (g : Graph) (a b : ObjectId) :
    b ∈ (edges.foldl Graph.add g).successors a ↔ Leads edges a b ∨ b ∈ g.successors a := by
  induction edges generalizing g with
  | nil => simp [Leads]
  | cons edge rest ih =>
    rw [List.foldl_cons, ih]
    have hadd : b ∈ (g.add edge).successors a ↔ (a, b) = edge ∨ b ∈ g.successors a := by
      obtain ⟨x, y⟩ := edge
      unfold Graph.successors Graph.add
      rw [Std.HashMap.getD_insert]
      by_cases hx : x = a
      · subst hx
        simp [Prod.ext_iff]
      · have hne : (x == a) = false := by simpa using hx
        have hpair : (a, b) ≠ (x, y) := fun h => hx (Prod.mk.inj h).1.symm
        simp [hne, hpair]
    rw [hadd]
    unfold Leads
    rw [List.mem_cons]
    tauto

theorem mem_successors {edges : Edges} {a b : ObjectId} :
    b ∈ (Graph.ofEdges edges).successors a ↔ Leads edges a b := by
  rw [Graph.ofEdges, mem_successors_foldl]
  simp [Graph.successors]

theorem size_ofEdges (edges : Edges) : (Graph.ofEdges edges).size = edges.length := by
  have hfold : ∀ (edges : Edges) (g : Graph),
      (edges.foldl Graph.add g).size = g.size + edges.length := by
    intro edges
    induction edges with
    | nil => intro g; rfl
    | cons edge rest ih =>
      intro g
      have hadd : (g.add edge).size = g.size + 1 := rfl
      rw [List.foldl_cons, ih, hadd, List.length_cons]
      omega
  rw [Graph.ofEdges, hfold]
  simp

/-! ## Rounds of the search -/

/-- What was seen before stays, and the listed objects are added. -/
theorem mem_addNew_fst (seen : Std.HashSet ObjectId) (l : List ObjectId) (x : ObjectId) :
    x ∈ (addNew seen l).1 ↔ x ∈ seen ∨ x ∈ l := by
  induction l generalizing seen with
  | nil => simp [addNew]
  | cons id rest ih =>
    unfold addNew
    split
    · rename_i hseen
      rw [ih, List.mem_cons]
      constructor
      · tauto
      · rintro (h | rfl | h)
        · exact .inl h
        · exact .inl (Std.HashSet.contains_iff_mem.mp hseen)
        · exact .inr h
    · show x ∈ (addNew (seen.insert id) rest).1 ↔ _
      rw [ih, Std.HashSet.mem_insert, beq_iff_eq, List.mem_cons]
      constructor
      · rintro ((rfl | h) | h)
        · exact .inr (.inl rfl)
        · exact .inl h
        · exact .inr (.inr h)
      · rintro (h | rfl | h)
        · exact .inl (.inr h)
        · exact .inl (.inl rfl)
        · exact .inr h

/-- New are the listed objects that were not seen before. -/
theorem mem_addNew_snd (seen : Std.HashSet ObjectId) (l : List ObjectId) (x : ObjectId) :
    x ∈ (addNew seen l).2 ↔ x ∈ l ∧ x ∉ seen := by
  induction l generalizing seen with
  | nil => simp [addNew]
  | cons id rest ih =>
    unfold addNew
    split
    · rename_i hseen
      have hmem : id ∈ seen := Std.HashSet.contains_iff_mem.mp hseen
      rw [ih, List.mem_cons]
      constructor
      · rintro ⟨h, hx⟩
        exact ⟨.inr h, hx⟩
      · rintro ⟨rfl | h, hx⟩
        · exact absurd hmem hx
        · exact ⟨h, hx⟩
    · rename_i hseen
      have hmem : id ∉ seen := fun h => hseen (Std.HashSet.contains_iff_mem.mpr h)
      show x ∈ id :: (addNew (seen.insert id) rest).2 ↔ _
      rw [List.mem_cons, List.mem_cons, ih, Std.HashSet.mem_insert, beq_iff_eq]
      constructor
      · rintro (rfl | ⟨h, hx⟩)
        · exact ⟨.inl rfl, hmem⟩
        · exact ⟨.inr h, fun hs => hx (.inr hs)⟩
      · rintro ⟨rfl | h, hx⟩
        · exact .inl rfl
        · by_cases hid : id = x
          · exact .inl hid.symm
          · exact .inr ⟨h, by tauto⟩

section Search

variable {edges : Edges} {start : ObjectId}

/-- Whatever is found lies at the end of a chain. -/
theorem transGen_of_mem_grow (rounds : Nat) :
    ∀ {seen : Std.HashSet ObjectId} {latest : List ObjectId},
    (∀ x ∈ seen, TransGen (Leads edges) start x) →
    (∀ x ∈ latest, ReflTransGen (Leads edges) start x) →
    ∀ x ∈ grow (Graph.ofEdges edges) rounds seen latest, TransGen (Leads edges) start x := by
  induction rounds with
  | zero =>
    intro seen latest hseen _ x hx
    exact hseen x hx
  | succ rounds ih =>
    intro seen latest hseen hlatest x hx
    have hnext : ∀ y ∈ latest.flatMap (Graph.ofEdges edges).successors,
        TransGen (Leads edges) start y := by
      intro y hy
      obtain ⟨z, hz, hzy⟩ := List.mem_flatMap.mp hy
      exact TransGen.tail' (hlatest z hz) (mem_successors.mp hzy)
    have hseen' : ∀ y ∈ (addNew seen (latest.flatMap (Graph.ofEdges edges).successors)).1,
        TransGen (Leads edges) start y := by
      intro y hy
      rcases (mem_addNew_fst _ _ _).mp hy with h | h
      · exact hseen y h
      · exact hnext y h
    unfold grow at hx
    split at hx
    · rename_i seen' heq
      rw [heq] at hseen'
      exact hseen' x hx
    · rename_i seen' new _ heq
      rw [heq] at hseen'
      refine ih hseen' ?_ x hx
      intro y hy
      refine (hnext y ?_).to_reflTransGen
      have hnew : y ∈ (addNew seen (latest.flatMap (Graph.ofEdges edges).successors)).2 := by
        rw [heq]
        exact hy
      exact ((mem_addNew_snd _ _ _).mp hnew).1

/-- The objects at the end of some reference that were not seen yet: they bound the rounds to
come. -/
def unseen (edges : Edges) (seen : Std.HashSet ObjectId) : List (ObjectId × ObjectId) :=
  edges.filter fun edge => !seen.contains edge.2

/-- A round that finds something new leaves fewer objects unseen. -/
theorem length_unseen_lt {seen seen' : Std.HashSet ObjectId} {x y : ObjectId}
    (hgrow : ∀ z ∈ seen, z ∈ seen') (hxy : Leads edges x y) (hy : y ∉ seen) (hy' : y ∈ seen') :
    (unseen edges seen').length < (unseen edges seen).length := by
  have hsub : (unseen edges seen').Sublist (unseen edges seen) := by
    apply List.monotone_filter_right
    intro edge hedge
    simp only [Bool.not_eq_true', ← Bool.not_eq_true, Std.HashSet.contains_iff_mem] at hedge ⊢
    exact fun h => hedge (hgrow _ h)
  have hin : (x, y) ∈ unseen edges seen :=
    List.mem_filter.mpr ⟨hxy, by simpa using hy⟩
  have hout : (x, y) ∉ unseen edges seen' := by
    intro h
    have := (List.mem_filter.mp h).2
    simp [hy'] at this
  refine Nat.lt_of_le_of_ne hsub.length_le ?_
  intro hlen
  exact hout (hsub.eq_of_length hlen ▸ hin)

/-- **The search closes.**  If everything seen before the latest round leads only to what was seen,
and there are rounds for all that is unseen, then everything found leads only to what was found. -/
theorem closed_grow (rounds : Nat) : ∀ {seen : Std.HashSet ObjectId} {latest : List ObjectId},
    (unseen edges seen).length < rounds →
    (∀ x, x = start ∨ x ∈ seen → x ∉ latest → ∀ y, Leads edges x y → y ∈ seen) →
    ∀ x, x = start ∨ x ∈ grow (Graph.ofEdges edges) rounds seen latest →
      ∀ y, Leads edges x y → y ∈ grow (Graph.ofEdges edges) rounds seen latest := by
  induction rounds with
  | zero => intro seen latest hrounds; omega
  | succ rounds ih =>
    intro seen latest hrounds hclosed
    generalize hround : addNew seen (latest.flatMap (Graph.ofEdges edges).successors) = round
    obtain ⟨seen', new⟩ := round
    have hmem : ∀ x, x ∈ seen' ↔
        x ∈ seen ∨ x ∈ latest.flatMap (Graph.ofEdges edges).successors := by
      intro x
      rw [← mem_addNew_fst, hround]
    have hnew : ∀ x, x ∈ new ↔ x ∈ latest.flatMap (Graph.ofEdges edges).successors ∧ x ∉ seen := by
      intro x
      rw [← mem_addNew_snd, hround]
    have hclosed' : ∀ x, x = start ∨ x ∈ seen' → x ∉ new → ∀ y, Leads edges x y → y ∈ seen' := by
      intro x hx hxnew y hxy
      by_cases hlatest : x ∈ latest
      · exact (hmem y).mpr (.inr (List.mem_flatMap.mpr ⟨x, hlatest, mem_successors.mpr hxy⟩))
      · have hold : x = start ∨ x ∈ seen := by
          rcases hx with hx | hx
          · exact .inl hx
          · by_cases hs : x ∈ seen
            · exact .inr hs
            · exact absurd ((hnew x).mpr ⟨((hmem x).mp hx).resolve_left hs, hs⟩) hxnew
        exact (hmem y).mpr (.inl (hclosed x hold hlatest y hxy))
    unfold grow
    rw [hround]
    cases new with
    | nil =>
      intro x hx y hxy
      exact hclosed' x hx List.not_mem_nil y hxy
    | cons n rest =>
      obtain ⟨hn, hunseen⟩ := (hnew n).mp List.mem_cons_self
      obtain ⟨z, _, hzn⟩ := List.mem_flatMap.mp hn
      have hlt := length_unseen_lt (fun u hu => (hmem u).mpr (.inl hu)) (mem_successors.mp hzn)
        hunseen ((hmem n).mpr (.inr hn))
      exact ih (by omega) hclosed'

end Search

/-- **What an object reaches** is what chains of one or more references lead to. -/
theorem mem_reachable {edges : Edges} {a b : ObjectId} :
    b ∈ reachable (Graph.ofEdges edges) a ↔ TransGen (Leads edges) a b := by
  have hclosed : ∀ x, x = a ∨ x ∈ reachable (Graph.ofEdges edges) a →
      ∀ y, Leads edges x y → y ∈ reachable (Graph.ofEdges edges) a := by
    apply closed_grow
    · rw [size_ofEdges]
      exact Nat.lt_succ_of_le (List.length_filter_le _ _)
    · intro x hx hlatest
      rcases hx with rfl | hx
      · exact absurd List.mem_cons_self hlatest
      · simp at hx
  constructor
  · intro h
    refine transGen_of_mem_grow _ ?_ ?_ b h
    · intro x hx
      simp at hx
    · intro x hx
      rw [List.mem_singleton.mp hx]
  · intro h
    induction h with
    | single hab => exact hclosed a (.inl rfl) _ hab
    | tail _ hbc ih => exact hclosed _ (.inr ih) _ hbc

/-! ## Components -/

theorem together_comm (a b : Reach) : together a b = together b a := by
  unfold together
  exact Bool.and_comm _ _

/-- **Induction on the objects to group**: a property holds of all lists if it passes to a list from
what is left outside the first group. -/
@[elab_as_elim]
theorem group_induction {motive : List Reach → Prop} (nil : motive [])
    (cons : ∀ a rest, motive (rest.filter fun b => !together a b) → motive (a :: rest)) :
    ∀ l, motive l
  | [] => nil
  | a :: rest => cons a rest (group_induction nil cons (rest.filter fun b => !together a b))
termination_by l => l.length
decreasing_by exact Nat.lt_succ_of_le (List.length_filter_le _ _)

/-- A group holds an object and all those that it reaches and that reach it. -/
theorem mem_of_mem_group {l : List Reach}
    (htrans : ∀ a ∈ l, ∀ b ∈ l, ∀ c ∈ l, together a b → together b c → together a c) :
    ∀ g ∈ group l, ∃ a ∈ l, ∀ id, id ∈ g ↔ ∃ b ∈ l, b.1 = id ∧ (b = a ∨ together a b) := by
  induction l using group_induction with
  | nil =>
    intro g hg
    simp [group] at hg
  | cons a rest ih =>
    intro g hg
    rw [group, List.mem_cons] at hg
    rcases hg with rfl | hg
    · refine ⟨a, List.mem_cons_self, fun id => ?_⟩
      rw [List.mem_cons, List.mem_map]
      constructor
      · rintro (rfl | ⟨b, hb, rfl⟩)
        · exact ⟨a, List.mem_cons_self, rfl, .inl rfl⟩
        · obtain ⟨hb, hab⟩ := List.mem_filter.mp hb
          exact ⟨b, List.mem_cons_of_mem a hb, rfl, .inr hab⟩
      · rintro ⟨b, hb, rfl, rfl | hab⟩
        · exact .inl rfl
        · rcases List.mem_cons.mp hb with rfl | hb
          · exact .inl rfl
          · exact .inr ⟨b, List.mem_filter.mpr ⟨hb, hab⟩, rfl⟩
    · -- what reaches an object outside the first group lies outside that group, too
      have hrest : ∀ b, b ∈ rest.filter (fun b => !together a b) ↔
          b ∈ rest ∧ together a b = false := by
        intro b
        rw [List.mem_filter, Bool.not_eq_true']
      have hsub : ∀ b ∈ rest.filter (fun b => !together a b), b ∈ a :: rest :=
        fun b hb => List.mem_cons_of_mem a ((hrest b).mp hb).1
      obtain ⟨a', ha', hids⟩ := ih (fun x hx y hy z hz =>
        htrans x (hsub x hx) y (hsub y hy) z (hsub z hz)) g hg
      have hapart : together a a' = false := ((hrest a').mp ha').2
      refine ⟨a', hsub a' ha', fun id => ?_⟩
      rw [hids]
      constructor
      · rintro ⟨b, hb, hid, h⟩
        exact ⟨b, hsub b hb, hid, h⟩
      · rintro ⟨b, hb, hid, rfl | h⟩
        · exact ⟨b, ha', hid, .inl rfl⟩
        · have hba' : together b a' = true := together_comm a' b ▸ h
          have hab : together a b = false := by
            rw [← Bool.not_eq_true]
            intro hab
            have haa' := htrans a List.mem_cons_self b hb a' (hsub a' ha') hab hba'
            rw [hapart] at haa'
            exact absurd haa' (by decide)
          have hne : b ≠ a := by
            rintro rfl
            rw [hapart] at hba'
            exact absurd hba' (by decide)
          have hbrest : b ∈ rest := (List.mem_cons.mp hb).resolve_left hne
          exact ⟨b, (hrest b).mpr ⟨hbrest, hab⟩, hid, .inr h⟩

theorem exists_mem_group {l : List Reach} : ∀ a ∈ l, ∃ g ∈ group l, a.1 ∈ g := by
  induction l using group_induction with
  | nil =>
    intro a ha
    simp at ha
  | cons b rest ih =>
    intro a ha
    rw [group]
    rcases List.mem_cons.mp ha with rfl | ha
    · exact ⟨_, List.mem_cons_self, List.mem_cons_self⟩
    · cases hba : together b a with
      | true =>
        refine ⟨_, List.mem_cons_self, List.mem_cons_of_mem _ ?_⟩
        exact List.mem_map.mpr ⟨a, List.mem_filter.mpr ⟨ha, hba⟩, rfl⟩
      | false =>
        obtain ⟨g, hg, hmem⟩ := ih a (List.mem_filter.mpr ⟨ha, by rw [hba]; rfl⟩)
        exact ⟨g, List.mem_cons_of_mem _ hg, hmem⟩

theorem sublist_of_mem_group {l : List Reach} : ∀ g ∈ group l, g.Sublist (l.map Prod.fst) := by
  induction l using group_induction with
  | nil =>
    intro g hg
    simp [group] at hg
  | cons a rest ih =>
    intro g hg
    rw [group, List.mem_cons] at hg
    rcases hg with rfl | hg
    · exact (List.filter_sublist.map Prod.fst).cons_cons a.1
    · exact ((ih g hg).trans (List.filter_sublist.map Prod.fst)).cons a.1

/-- Chains lead both ways between the two objects. -/
def Mutual (edges : Edges) (a b : ObjectId) : Prop :=
  TransGen (Leads edges) a b ∧ TransGen (Leads edges) b a

/-- The routine splits objects into strongly connected components: every listed object is in one, no
component lists an object twice, and two listed objects share a component exactly if they are the
same or chains lead both ways between them. -/
def Separates (split : Graph → List ObjectId → List (List ObjectId)) : Prop :=
  ∀ (edges : Edges) {nodes : List ObjectId}, nodes.Nodup →
    (∀ a ∈ nodes, ∃ c ∈ split (Graph.ofEdges edges) nodes, a ∈ c) ∧
      ∀ c ∈ split (Graph.ofEdges edges) nodes, c.Nodup ∧
        ∀ a ∈ c, ∀ b, b ∈ c ↔ b ∈ nodes ∧ (b = a ∨ Mutual edges a b)

/-- **The components are the strongly connected ones.** -/
theorem separates_components : Separates components := by
  intro edges nodes hnodes
  have hmem : ∀ a : Reach, a ∈ nodes.map (fun id => (id, reachable (Graph.ofEdges edges) id)) ↔
      a.1 ∈ nodes ∧ a.2 = reachable (Graph.ofEdges edges) a.1 := by
    intro a
    rw [List.mem_map]
    constructor
    · rintro ⟨id, hid, rfl⟩
      exact ⟨hid, rfl⟩
    · rintro ⟨hid, hreach⟩
      exact ⟨a.1, hid, by rw [← hreach]⟩
  have htogether : ∀ a b : Reach, a.2 = reachable (Graph.ofEdges edges) a.1 →
      b.2 = reachable (Graph.ofEdges edges) b.1 → (together a b ↔ Mutual edges a.1 b.1) := by
    intro a b ha hb
    unfold together Mutual
    rw [ha, hb, Bool.and_eq_true, Std.HashSet.contains_iff_mem, Std.HashSet.contains_iff_mem,
      mem_reachable, mem_reachable]
  constructor
  · intro a ha
    exact exists_mem_group (a, reachable (Graph.ofEdges edges) a)
      ((hmem _).mpr ⟨ha, rfl⟩)
  · intro c hc
    constructor
    · have hsub := sublist_of_mem_group c hc
      have hfst : (nodes.map fun id => (id, reachable (Graph.ofEdges edges) id)).map Prod.fst
          = nodes := by
        simp [Function.comp_def]
      rw [hfst] at hsub
      exact hsub.nodup hnodes
    · obtain ⟨r, hr, hids⟩ := mem_of_mem_group (by
        intro x hx y hy z hz hxy hyz
        obtain ⟨-, hx⟩ := (hmem x).mp hx
        obtain ⟨-, hy⟩ := (hmem y).mp hy
        obtain ⟨-, hz⟩ := (hmem z).mp hz
        obtain ⟨hxy, hyx⟩ := (htogether x y hx hy).mp hxy
        obtain ⟨hyz, hzy⟩ := (htogether y z hy hz).mp hyz
        exact (htogether x z hx hz).mpr ⟨hxy.trans hyz, hzy.trans hyx⟩) c hc
      obtain ⟨hrnode, hrreach⟩ := (hmem r).mp hr
      -- a member is the object that the group was formed around, or reaches it both ways
      have hmember : ∀ b, b ∈ c ↔ b ∈ nodes ∧ (b = r.1 ∨ Mutual edges r.1 b) := by
        intro b
        rw [hids]
        constructor
        · rintro ⟨x, hx, rfl, rfl | h⟩
          · exact ⟨hrnode, .inl rfl⟩
          · obtain ⟨hnode, hreach⟩ := (hmem x).mp hx
            exact ⟨hnode, .inr ((htogether r x hrreach hreach).mp h)⟩
        · rintro ⟨hnode, rfl | h⟩
          · exact ⟨r, hr, rfl, .inl rfl⟩
          · exact ⟨(b, reachable (Graph.ofEdges edges) b), (hmem _).mpr ⟨hnode, rfl⟩, rfl,
              .inr ((htogether r _ hrreach rfl).mpr h)⟩
      intro a ha b
      obtain ⟨hanode, ha⟩ := (hmember a).mp ha
      rw [hmember]
      refine and_congr_right fun hbnode => ?_
      rcases ha with rfl | ⟨hra, har⟩
      · rfl
      · constructor
        · rintro (rfl | ⟨hrb, hbr⟩)
          · exact .inr ⟨har, hra⟩
          · exact .inr ⟨har.trans hrb, hbr.trans hra⟩
        · rintro (rfl | ⟨hab, hba⟩)
          · exact .inr ⟨hra, har⟩
          · exact .inr ⟨hra.trans hab, hba.trans har⟩

end Cycle

/-! ## The order of identifiers -/

namespace ObjectId

theorem le_trans (a b c : ObjectId) (hab : le a b) (hbc : le b c) : le a c := by
  unfold le at *
  split at hab <;> split at hbc <;> split <;> simp only [decide_eq_true_eq] at *
  · exact String.le_trans hab hbc
  · simp_all
  · simp_all
  · simp_all
  · simp_all
  · simp_all
  · rename_i hne _ heq
    exact absurd (String.le_antisymm hab (heq ▸ hbc)) hne
  · exact String.le_trans hab hbc

/-- Of two identifiers one precedes the other. -/
theorem le_total (a b : ObjectId) : (le a b || le b a) = true := by
  unfold le
  by_cases h : a.symbol = b.symbol
  · simpa [h] using String.le_total a.point b.point
  · have h' : b.symbol ≠ a.symbol := fun heq => h heq.symm
    simpa [h, h'] using String.le_total a.symbol b.symbol

/-- Two identifiers that precede each other are equal. -/
theorem le_antisymm (a b : ObjectId) (hab : le a b) (hba : le b a) : a = b := by
  unfold le at *
  cases a with
  | mk s p =>
    cases b with
    | mk t q =>
      simp only at *
      by_cases h : s = t
      · subst h
        simp only [if_true, decide_eq_true_eq] at hab hba
        rw [String.le_antisymm hab hba]
      · have h' : t ≠ s := fun heq => h heq.symm
        simp only [h, h', if_false, decide_eq_true_eq] at hab hba
        exact absurd (String.le_antisymm hab hba) h

end ObjectId

/-! ## Cycles of a model -/

namespace Cycle

variable {m : Model} {a b id : ObjectId}

/-- The links are the references between different objects. -/
theorem leads_links : Leads (links m) a b ↔ m.Refers a b ∧ a ≠ b := by
  unfold Leads links
  rw [List.mem_filter, Model.mem_references, decide_eq_true_eq]

/-- Leaving out references of objects to themselves breaks no chain. -/
theorem reflTransGen_links (h : ReflTransGen m.Refers a b) :
    ReflTransGen (Leads (links m)) a b := by
  induction h with
  | refl => exact .refl
  | @tail c d _ hcd ih =>
    by_cases heq : c = d
    · exact heq ▸ ih
    · exact ih.tail (leads_links.mpr ⟨hcd, heq⟩)

/-- **A cycle** is a reference of an object to itself, or leads through another object. -/
theorem onCycle_iff :
    m.OnCycle id ↔ m.Refers id id ∨ ∃ other, other ≠ id ∧ Mutual (links m) id other := by
  constructor
  · intro h
    obtain ⟨next, hfirst, hrest⟩ := TransGen.head'_iff.mp h
    by_cases heq : next = id
    · exact .inl (heq ▸ hfirst)
    · have hlink : Leads (links m) id next := leads_links.mpr ⟨hfirst, fun h => heq h.symm⟩
      have hback : TransGen (Leads (links m)) next id :=
        (reflTransGen_iff_eq_or_transGen.mp (reflTransGen_links hrest)).resolve_left
          (fun h => heq h.symm)
      exact .inr ⟨next, heq, .single hlink, hback⟩
  · rintro (h | ⟨other, _, hthere, hback⟩)
    · exact .single h
    · have hrefers : Leads (links m) ≤ m.Refers := fun _ _ h => (leads_links.mp h).1
      exact TransGen.mono hrefers id id (hthere.trans hback)

/-- The nodes of the graph are the objects of the model and what they lead to. -/
theorem mem_nodes : id ∈ nodes m ↔ m.Has id ∨ ∃ a, Leads (links m) a id := by
  rw [nodes, Ordered.mem_distinctBy_id, List.mem_append, List.mem_map, List.mem_map]
  refine or_congr Iff.rfl ?_
  constructor
  · rintro ⟨⟨a, _⟩, hedge, rfl⟩
    exact ⟨a, hedge⟩
  · rintro ⟨a, hedge⟩
    exact ⟨(a, id), hedge, rfl⟩

theorem mem_nodes_of_transGen (h : TransGen (Leads (links m)) a b) : b ∈ nodes m := by
  obtain ⟨c, _, hcb⟩ := TransGen.tail'_iff.mp h
  exact mem_nodes.mpr (.inr ⟨c, hcb⟩)

theorem nodup_nodes (m : Model) : (nodes m).Nodup :=
  (Ordered.pairwise_distinctBy ObjectId.le_trans ObjectId.le_total ObjectId.le_antisymm _).imp
    fun h => h.2

/-- A component with two members or more holds, beside each of its members, another. -/
theorem exists_ne_of_two_le {c : List ObjectId} (hnodup : c.Nodup) (hlen : 2 ≤ c.length)
    (id : ObjectId) : ∃ other ∈ c, other ≠ id := by
  match c, hlen with
  | x :: y :: rest, _ =>
    by_cases hx : x = id
    · refine ⟨y, by simp, ?_⟩
      rintro rfl
      exact (List.nodup_cons.mp hnodup).1 (hx ▸ List.mem_cons_self)
    · exact ⟨x, List.mem_cons_self, hx⟩

variable {split : Graph → List ObjectId → List (List ObjectId)}

/-- **The cyclic objects are those on cycles**, whichever routine finds the components. -/
theorem mem_cyclicBy (hsplit : Separates split) : id ∈ cyclicBy split m ↔ m.OnCycle id := by
  obtain ⟨hcover, hcomponents⟩ := hsplit (links m) (nodup_nodes m)
  have hself : id ∈ (m.references.filter fun edge => edge.1 = edge.2).map Prod.fst ↔
      m.Refers id id := by
    rw [List.mem_map, ← Model.mem_references]
    constructor
    · rintro ⟨⟨a, b⟩, hedge, rfl⟩
      obtain ⟨hmem, heq⟩ := List.mem_filter.mp hedge
      have hab : a = b := of_decide_eq_true heq
      exact hab ▸ hmem
    · intro h
      exact ⟨(id, id), List.mem_filter.mpr ⟨h, decide_eq_true rfl⟩, rfl⟩
  rw [cyclicBy, List.mem_append, hself, onCycle_iff, List.mem_flatten]
  refine or_congr Iff.rfl ?_
  constructor
  · rintro ⟨c, hc, hid⟩
    obtain ⟨hc, hlen⟩ := List.mem_filter.mp hc
    obtain ⟨hnodup, hmembers⟩ := hcomponents c hc
    obtain ⟨other, hother, hne⟩ := exists_ne_of_two_le hnodup (of_decide_eq_true hlen) id
    exact ⟨other, hne, (((hmembers id hid other).mp hother).2).resolve_left hne⟩
  · rintro ⟨other, hne, hmutual⟩
    obtain ⟨c, hc, hid⟩ := hcover id (mem_nodes_of_transGen hmutual.2)
    have hother : other ∈ c := ((hcomponents c hc).2 id hid other).mpr
      ⟨mem_nodes_of_transGen hmutual.1, .inr hmutual⟩
    refine ⟨c, List.mem_filter.mpr ⟨hc, decide_eq_true ?_⟩, hid⟩
    match c, hid, hother with
    | [x], hid, hother =>
      rw [List.mem_singleton] at hid hother
      exact absurd (hother.trans hid.symm) hne
    | x :: y :: rest, _, _ => simp

end Cycle

namespace Solver

variable {m : Model} {id : ObjectId}
  {split : Cycle.Graph → List ObjectId → List (List ObjectId)}

/-- **The tops** are the objects of the model on reference cycles. -/
theorem mem_topsBy (hsplit : Cycle.Separates split) :
    id ∈ topsBy split m ↔ m.Has id ∧ m.OnCycle id := by
  rw [topsBy, List.mem_filter, Ordered.mem_distinctBy_id, List.mem_map,
    ← Cycle.mem_cyclicBy hsplit, Std.HashSet.contains_ofList, List.contains_iff_mem]
  rfl

theorem mem_topsOf : id ∈ topsOf m ↔ m.Has id ∧ m.OnCycle id :=
  mem_topsBy Cycle.separates_components

/-- The tops, and with them all that a solver holds, do not depend on the routine that finds the
components. -/
theorem topsBy_eq_topsOf (hsplit : Cycle.Separates split) (m : Model) :
    topsBy split m = topsOf m := by
  refine List.filter_congr fun id _ => ?_
  rw [Std.HashSet.contains_ofList, Std.HashSet.contains_ofList, Bool.eq_iff_iff,
    List.contains_iff_mem, List.contains_iff_mem, Cycle.mem_cyclicBy hsplit,
    Cycle.mem_cyclicBy Cycle.separates_components]

end Solver

end FieldFlow
