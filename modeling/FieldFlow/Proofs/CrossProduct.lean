import FieldFlow.Proofs.Branches
import FieldFlow.Proofs.Stepwise
import Mathlib.Algebra.BigOperators.Group.List.Basic
import Mathlib.Data.List.ProdSigma

/-!
# Branches as a cross product

The final branches of a path are made field by field: every branch so far is combined with every
final value of the next pending field, and the combinations are put into the order of their keys,
where those with the same key would collapse.  None do.  The keys of paths tell apart what they
hold, the final values of one field have different keys, and a field that is not tracked differs
from one that is tracked without a value.  So there is exactly one branch for each way of choosing a
final value for every pending field.  This holds of every resolver, in every workspace.

Main definitions: `PathValue.overlaid`, `Picks`, `Resolver.Resolves`.
Main results: `Resolver.perm_extended`, `Resolver.extendBranches_exact`,
`Resolver.branches_cross_product`.
-/

namespace FieldFlow

/-- Where no two members have the same key, the collection of a list holds each of them once. -/
theorem Keyed.perm_toList_ofList {α : Type} {key : α → String} {l : List α}
    (h : (l.map key).Nodup) :
    (ofList l : Keyed key).toList.Perm l := by
  refine (List.perm_ext_iff_of_nodup (nodup_toList _) (h.of_map key)).mpr fun x =>
    ⟨mem_of_mem_ofList, fun hx => ?_⟩
  obtain ⟨y, hy, hkey⟩ := (mem_ofList_keys key (fun _ _ _ _ h => h) (key x)).mpr ⟨x, hx, rfl⟩
  exact List.inj_on_of_nodup_map h (mem_of_mem_ofList hy) hx hkey ▸ hy

/-! ## Choices for the fields of a path -/

namespace PathValue

variable {p q : PathValue} {choice : List (String × Option Value)} {field name : String}
  {o : Option Value}

theorem eq_of_entry (h : p.entry? = q.entry?) : p = q := by
  have hperm : p.fields.toList.Perm q.fields.toList := by
    refine (List.perm_ext_iff_of_nodup p.fields.nodup_toList q.fields.nodup_toList).mpr fun e => ?_
    rw [← entry?_eq_some, ← entry?_eq_some, h]
  have hlists : p.fields.toList = q.fields.toList := hperm.eq_of_pairwise
    (fun _ _ _ _ hxy hyx => absurd (String.lt_trans hxy hyx) (String.lt_irrefl _))
      p.fields.pairwise_toList
    q.fields.pairwise_toList
  cases p
  cases q
  exact congrArg _ (Keyed.ext hlists)

/-- What the path holds with choices for some fields: a field with a choice is tracked with the
value that is chosen, or not tracked if the choice is missing, and every other field is as
before. -/
def overlaid (p : PathValue) (choice : List (String × Option Value)) (name : String) :
    Option (Option Value) :=
  match choice.lookup name with
  | some o => o.map some
  | none => p.entry? name

theorem overlaid_cons : p.overlaid ((field, o) :: choice) name
    = if name = field then o.map some else p.overlaid choice name := by
  rw [overlaid, overlaid, lookup_cons_ite]
  by_cases hname : name = field
  · rw [if_pos hname, if_pos hname]
  · rw [if_neg hname, if_neg hname]

theorem overlaid_of_notMem (h : name ∉ choice.map Prod.fst) :
    p.overlaid choice name = p.entry? name := by
  have hnone : choice.lookup name = none := by
    rw [List.lookup_eq_none_iff]
    intro e he
    rw [bne_iff_ne]
    rintro rfl
    exact h (List.mem_map_of_mem he)
  rw [overlaid, hnone]

theorem overlaid_congr (h : ∀ name, name ∉ choice.map Prod.fst → p.entry? name = q.entry? name) :
    p.overlaid choice = q.overlaid choice := by
  funext name
  by_cases hname : name ∈ choice.map Prod.fst
  · obtain ⟨e, he, rfl⟩ := List.mem_map.mp hname
    obtain ⟨o, ho⟩ :=
      Option.isSome_iff_exists.mp (List.lookup_isSome_iff.mpr ⟨e, he, beq_self_eq_true _⟩)
    rw [overlaid, overlaid, ho]
  · rw [overlaid_of_notMem hname, overlaid_of_notMem hname, h name hname]

theorem entry?_extended (hfree : p.entry? field = none) :
    PathValue.entry? (Resolver.extendBranch field (p, o)) name
    = if name = field then o.map some else p.entry? name := by
  by_cases hname : name = field
  · rw [if_pos hname, hname]
    cases o with
    | none => exact hfree
    | some v => exact (p.entry?_set field field (some v)).trans (if_pos rfl)
  · rw [if_neg hname]
    exact Resolver.entry?_extendBranch hname o

/-- Extending a branch takes the first choice. -/
theorem overlaid_extended (hfree : p.entry? field = none) (h : field ∉ choice.map Prod.fst) :
    overlaid (Resolver.extendBranch field (p, o)) choice = p.overlaid ((field, o) :: choice) := by
  funext name
  rw [overlaid_cons]
  by_cases hname : name = field
  · subst hname
    rw [if_pos rfl, overlaid_of_notMem h, entry?_extended hfree, if_pos rfl]
  · rw [if_neg hname, overlaid, overlaid, entry?_extended hfree, if_neg hname]

end PathValue

/-- For each field of the table one of the values that are listed for it is chosen. -/
def Picks (table : List (String × List (Option Value))) (choice : List (String × Option Value)) :
    Prop :=
  List.Forall₂ (fun e c => c.1 = e.1 ∧ c.2 ∈ e.2) table choice

section Picks

variable {table : List (String × List (Option Value))}
  {choice choice' : List (String × Option Value)}

/-- Choices are made for the fields of the table. -/
theorem Picks.names_eq (h : Picks table choice) : choice.map Prod.fst = table.map Prod.fst := by
  induction h with
  | nil => rfl
  | cons hc _ ih => rw [List.map_cons, List.map_cons, hc.1, ih]

/-- **Different choices show**: what paths hold tells which values were chosen, if the values that
are listed for a field have different contents. -/
theorem Picks.eq_of_overlaid {p : PathValue} (hnames : (table.map Prod.fst).Nodup)
    (htable : ∀ e ∈ table,
      ∀ a ∈ e.2, ∀ b ∈ e.2, a.map Value.contents = b.map Value.contents → a = b)
    (hc : Picks table choice) (hc' : Picks table choice')
    (h : ∀ name, (p.overlaid choice name).map (Option.map Value.contents)
      = (p.overlaid choice' name).map (Option.map Value.contents)) : choice = choice' := by
  induction hc generalizing choice' with
  | nil =>
    cases hc'
    rfl
  | @cons e c table choice hhead htail ih =>
    cases hc' with
    | @cons _ c' _ choice' hhead' htail' =>
      obtain ⟨field, finals⟩ := e
      obtain ⟨name, a⟩ := c
      obtain ⟨name', b⟩ := c'
      obtain ⟨rfl, ha⟩ := hhead
      obtain ⟨rfl, hb⟩ := hhead'
      obtain ⟨hfield, hrest⟩ := List.nodup_cons.mp hnames
      -- The other choices leave this field alone, so it shows its own choice.
      have hfree : ∀ {l}, Picks table l → name' ∉ l.map Prod.fst := fun hl => by rwa [hl.names_eq]
      have hsame : a = b := by
        have hwrapped : ∀ o : Option Value,
            (o.map some).map (Option.map Value.contents) = (o.map Value.contents).map some := by
          intro o
          cases o <;> rfl
        have hshown := h name'
        rw [PathValue.overlaid_cons, PathValue.overlaid_cons, if_pos rfl, if_pos rfl, hwrapped,
          hwrapped] at hshown
        exact htable _ List.mem_cons_self a ha b hb
          (Option.map_injective (Option.some_injective _) hshown)
      have hothers :=
        ih hrest (fun e he => htable e (List.mem_cons_of_mem _ he)) htail' fun name => ?_
      · rw [hsame, hothers]
      · by_cases hname : name = name'
        · rw [hname, PathValue.overlaid_of_notMem (hfree htail),
            PathValue.overlaid_of_notMem (hfree htail')]
        · have hshown := h name
          rwa [PathValue.overlaid_cons, PathValue.overlaid_cons, if_neg hname,
            if_neg hname] at hshown

end Picks

/-! ## Branches -/

namespace Resolver

variable {r : Resolver} {w w' : Workspace} {branches out : List PathValue}
  {entries : List (String × Option Value)}

/-- The final values of the listed fields, found one field after the other. -/
inductive Resolves (r : Resolver) :
    List (String × Option Value) → Workspace → List (String × List (Option Value)) →
      Workspace → Prop
  | nil {w : Workspace} : Resolves r [] w [] w
  | cons {field : String} {v : Value} {rest : List (String × Option Value)} {w w₁ w' : Workspace}
      {finals : List (Option Value)} {table : List (String × List (Option Value))}
      (hfinals : (r.finalValues field v).Returns w finals w₁)
      (hrest : Resolves r rest w₁ table w') :
      Resolves r ((field, some v) :: rest) w ((field, finals) :: table) w'

/-- The table has the fields that were listed. -/
theorem Resolves.names_eq {table : List (String × List (Option Value))}
    (h : r.Resolves entries w table w') :
    table.map Prod.fst = entries.map Prod.fst := by
  induction h with
  | nil => rfl
  | cons _ _ ih => rw [List.map_cons, List.map_cons, ih]

/-- The values that are listed for a field have different contents. -/
theorem Resolves.eq_of_contents {table : List (String × List (Option Value))}
    (h : r.Resolves entries w table w') :
    ∀ e ∈ table, ∀ a ∈ e.2, ∀ b ∈ e.2, a.map Value.contents = b.map Value.contents → a = b := by
  induction h with
  | nil => exact fun _ he => absurd he List.not_mem_nil
  | cons hfinals _ ih =>
    intro e he a ha b hb hcontents
    rcases List.mem_cons.mp he with rfl | he
    · exact eq_of_contents_finalValues hfinals ha hb hcontents
    · exact ih e he a ha b hb hcontents

/-- Extended branches with the same key come from the same branch and from values with the same
contents. -/
theorem eq_of_key_extended {field : String} {p q : PathValue} {a b : Option Value}
    (hp : p.entry? field = none) (hq : q.entry? field = none)
    (h : (extendBranch field (p, a)).key = (extendBranch field (q, b)).key) :
    p.key = q.key ∧ a.map Value.contents = b.map Value.contents := by
  have hviews := PathValue.view_eq_of_key h
  rw [view_extendBranch hp, view_extendBranch hq] at hviews
  constructor
  · refine PathValue.key_eq_of_view (funext fun name => ?_)
    by_cases hname : name = field
    · rw [hname, PathValue.view, PathValue.view, hp, hq]
    · have hview := congrFun hviews name
      rwa [Function.update_of_ne hname, Function.update_of_ne hname] at hview
  · have hview := congrFun hviews field
    rw [Function.update_self, Function.update_self] at hview
    exact Option.map_injective (Option.some_injective _) hview

/-- **No extended branch is lost**: every branch is kept with every value, once. -/
theorem perm_extended {field : String} {v : Value} {finals : List (Option Value)}
    (hfinals : (r.finalValues field v).Returns w finals w')
    (hkeys : (branches.map PathValue.key).Nodup) (hfree : ∀ q ∈ branches, q.entry? field = none) :
    (Keyed.ofList ((pairs branches finals).map (extendBranch field)).reverse : Keyed
      PathValue.key).toList.Perm
      ((pairs branches finals).map (extendBranch field)) := by
  have hpairs : (pairs branches finals).Nodup :=
    (hkeys.of_map _).product ((nodup_keys_finalValues hfinals).of_map _)
  refine (Keyed.perm_toList_ofList ?_).trans (List.reverse_perm _)
  rw [List.map_reverse, List.nodup_reverse, List.map_map]
  refine hpairs.map_on ?_
  rintro ⟨p, a⟩ hpa ⟨q, b⟩ hqb hkey
  obtain ⟨hp, ha⟩ := List.pair_mem_product.mp hpa
  obtain ⟨hq, hb⟩ := List.pair_mem_product.mp hqb
  obtain ⟨hsame, hcontents⟩ := eq_of_key_extended (hfree p hp) (hfree q hq) hkey
  rw [List.inj_on_of_nodup_map hkeys hp hq hsame,
    eq_of_contents_finalValues hfinals ha hb hcontents]

/-- **All pending fields**: a branch results for each branch before and each choice of final values,
and no other. -/
theorem extendBranches_exact (hvalues : ∀ e ∈ entries, e.2.isSome)
    (hdistinct : (entries.map Prod.fst).Nodup)
    (hbranches : AreBranches (entries.map Prod.fst) branches)
    (hordered : branches.Pairwise fun p q => p.key < q.key)
    (h : (r.extendBranches branches entries).Returns w out w') :
    ∃ table, r.Resolves entries w table w' ∧ out.Pairwise (fun p q => p.key < q.key) ∧
      out.length = branches.length * (table.map fun e => e.2.length).prod ∧
      ∀ q : PathValue, q ∈ out ↔
        ∃ p ∈ branches, ∃ choice, Picks table choice ∧ q.entry? = p.overlaid choice := by
  induction entries generalizing branches w with
  | nil =>
    obtain ⟨rfl, rfl⟩ := Work.returns_pure.mp h
    refine ⟨[], .nil, hordered, by simp, fun q => ⟨fun hq => ⟨q, hq, [], .nil, rfl⟩, ?_⟩⟩
    rintro ⟨p, hp, choice, hpicks, hentry⟩
    cases hpicks
    exact PathValue.eq_of_entry hentry ▸ hp
  | cons e rest ih =>
    obtain ⟨field, value⟩ := e
    obtain ⟨v, rfl⟩ := Option.isSome_iff_exists.mp (hvalues _ List.mem_cons_self)
    obtain ⟨hfield, hrest⟩ := List.nodup_cons.mp hdistinct
    obtain ⟨finals, w₁, hfinals, hnext⟩ := Work.returns_bind.mp h
    rw [Work.returns_within] at hfinals
    have hfree : ∀ p ∈ branches, p.entry? field = none :=
      fun p hp => hbranches p hp field List.mem_cons_self
    -- The keys tell the branches apart, so none is lost when they are extended.
    have hperm := perm_extended hfinals (List.pairwise_map.mpr hordered).nodup hfree
    have hmem : ∀ q, q ∈ (Keyed.ofList ((pairs branches finals).map (extendBranch field)).reverse :
        Keyed PathValue.key).toList ↔ ∃ p ∈ branches, ∃ o ∈ finals, extendBranch field (p, o) = q :=
      fun q => hperm.mem_iff.trans ((List.mem_reverse.symm).trans mem_extended)
    obtain ⟨table, hresolves, hout, hlength, hchoices⟩ :=
      ih (fun e he => hvalues e (List.mem_cons_of_mem _ he)) hrest
        (fun q hq name hname => by
          obtain ⟨p, hp, o, _, rfl⟩ := (hmem q).mp hq
          have hne : name ≠ field := fun heq => hfield (heq ▸ hname)
          rw [entry?_extendBranch hne]
          exact hbranches p hp name (List.mem_cons_of_mem _ hname)) (Keyed.pairwise_toList _) hnext
    refine ⟨(field, finals) :: table, .cons hfinals hresolves, hout, ?_,
      fun q => (hchoices q).trans ?_⟩
    · have hproduct : (pairs branches finals).length = branches.length * finals.length :=
        List.length_product _ _
      rw [hlength, hperm.length_eq, List.length_map, hproduct, List.map_cons, List.prod_cons,
        Nat.mul_assoc]
    · -- A choice for all fields is one for the first field and one for the rest.
      have hnames : ∀ {choice}, Picks table choice → field ∉ choice.map Prod.fst := fun hpicks => by
        rwa [hpicks.names_eq, hresolves.names_eq]
      constructor
      · rintro ⟨q', hq', choice, hpicks, hentry⟩
        obtain ⟨p, hp, o, ho, rfl⟩ := (hmem q').mp hq'
        refine ⟨p, hp, (field, o) :: choice, .cons ⟨rfl, ho⟩ hpicks, ?_⟩
        rw [hentry, PathValue.overlaid_extended (hfree p hp) (hnames hpicks)]
      · rintro ⟨p, hp, choice, hpicks, hentry⟩
        cases hpicks with
        | @cons _ c _ choice hhead hpicks =>
          obtain ⟨name, o⟩ := c
          obtain ⟨rfl, ho⟩ := hhead
          refine ⟨_, (hmem _).mpr ⟨p, hp, o, ho, rfl⟩, choice, hpicks, ?_⟩
          rw [hentry, PathValue.overlaid_extended (hfree p hp) (hnames hpicks)]

/-- **Extending branches fails** exactly if finding the final values fails for one of the fields,
after those of the fields before it have been found. -/
theorem fails_extendBranches (hvalues : ∀ e ∈ entries, e.2.isSome) :
    (r.extendBranches branches entries).Fails w ↔ ∃ before field v after table w₁,
      entries = before ++ (field, some v) :: after ∧ r.Resolves before w table w₁ ∧
        (r.finalValues field v).Fails w₁ := by
  induction entries generalizing branches w with
  | nil =>
    refine iff_of_false Work.fails_pure ?_
    rintro ⟨before, _, _, _, _, _, hsplit, _⟩
    simp at hsplit
  | cons e rest ih =>
    obtain ⟨field, value⟩ := e
    obtain ⟨v, rfl⟩ := Option.isSome_iff_exists.mp (hvalues _ List.mem_cons_self)
    have hrest : ∀ e ∈ rest, e.2.isSome := fun e he => hvalues e (List.mem_cons_of_mem _ he)
    rw [extendBranches, Work.fails_bind, Work.fails_within]
    constructor
    · rintro (hfails | ⟨finals, w₁, hfinals, hfails⟩)
      · exact ⟨[], field, v, rest, [], w, rfl, .nil, hfails⟩
      · obtain ⟨before, field', v', after, table, w₂, rfl, hresolves, hfails⟩ :=
          (ih hrest).mp hfails
        exact ⟨_ :: before, field', v', after, _, w₂, rfl,
          .cons (Work.returns_within.mp hfinals) hresolves, hfails⟩
    · rintro ⟨before, field', v', after, table, w₂, hsplit, hresolves, hfails⟩
      -- Either the first field is the one that fails, or its values were found before.
      cases hresolves with
      | nil =>
        cases hsplit
        exact .inl hfails
      | cons hfinals hresolves =>
        cases hsplit
        exact .inr ⟨_, _, Work.returns_within.mpr hfinals,
          (ih hrest).mpr ⟨_, _, _, _, _, _, rfl, hresolves, hfails⟩⟩

/-- **The final branches of a path are the cross product of the final values of its pending
fields.**  Finding them fails exactly if finding the final values fails for a pending field, after
those of the fields before it have been found.  Otherwise the branches are the maps that are made by
choosing, for each pending field, one of its final values, and by keeping all other fields, also
those that are tracked without a value.  The keys of the branches increase strictly, different
choices give branches with different keys, and there are as many branches as there are choices. -/
theorem branches_cross_product (r : Resolver) (p : PathValue) (w : Workspace) :
    ((r.branches p).Fails w ↔
      ∃ before field v after table w₁, p.pending = before ++ (field, some v) :: after ∧
      r.Resolves before w table w₁ ∧ (r.finalValues field v).Fails w₁) ∧
    ∀ out w', (r.branches p).Returns w out w' → ∃ table, r.Resolves p.pending w table w' ∧
      (∀ q : PathValue, q ∈ out ↔ ∃ choice, Picks table choice ∧ q.entry? = p.overlaid choice) ∧
      out.Pairwise (fun q q' => q.key < q'.key) ∧
      (∀ (q q' : PathValue) choice choice', Picks table choice → q.entry? = p.overlaid choice →
        Picks table choice' → q'.entry? = p.overlaid choice' → q.key = q'.key → choice = choice') ∧
      out.length = (table.map fun e => e.2.length).prod := by
  have hvalues : ∀ e ∈ p.pending, e.2.isSome := fun e he => by
    obtain ⟨v, hv, _⟩ := PathValue.exists_of_mem_pending he
    rw [hv]
    rfl
  refine ⟨fails_extendBranches hvalues, fun out w' h => ?_⟩
  obtain ⟨table, hresolves, hordered, hlength, hchoices⟩ :=
    extendBranches_exact hvalues p.nodup_pending (areBranches_settled p)
      (List.pairwise_singleton _ _) h
  have hnames : ∀ {choice}, Picks table choice → choice.map Prod.fst = p.pending.map Prod.fst :=
    fun hpicks =>
      hpicks.names_eq.trans hresolves.names_eq
  refine ⟨table, hresolves, fun q => (hchoices q).trans ?_, hordered, ?_,
    by rw [hlength, List.length_singleton, one_mul]⟩
  · -- Choices are made for all pending fields, so the settled part of the path may stand for the
    -- path.
    have hsettled : ∀ {choice}, Picks table choice →
        p.settled.overlaid choice = p.overlaid choice := fun hpicks =>
      PathValue.overlaid_congr fun name hname =>
        PathValue.entry?_settled_of_notMem (by rwa [← hnames hpicks])
    constructor
    · rintro ⟨_, hp, choice, hpicks, hentry⟩
      obtain rfl := List.mem_singleton.mp hp
      exact ⟨choice, hpicks, hentry.trans (hsettled hpicks)⟩
    · rintro ⟨choice, hpicks, hentry⟩
      exact ⟨_, List.mem_singleton_self _, choice, hpicks, hentry.trans (hsettled hpicks).symm⟩
  · intro q q' choice choice' hpicks hentry hpicks' hentry' hkey
    refine hpicks.eq_of_overlaid (p := p) ?_ hresolves.eq_of_contents hpicks' fun name => ?_
    · rw [hresolves.names_eq]
      exact p.nodup_pending
    · rw [← hentry, ← hentry']
      exact congrFun (PathValue.view_eq_of_key hkey) name

/-- A path with two pending fields, a field without a value, and one with an empty set. -/
def waiting : PathValue :=
  (((PathValue.empty.set "f" (some (.draft none (some (referring .blank))))).set "g"
    (some (.draft (some .empty) (some (referring .blank))))).set "h" none).set "k"
      (some (.draft (some .empty) none))

/-- References in two fields lead to a value that is not tracked on every path. -/
theorem branches_cross_product_waiting :
    ∃ (w w' : Workspace) (t : Transformer) (out : List PathValue)
    (table : List (String × List (Option Value))),
    ((knowing (.string "p") t).branches waiting).Returns w out w' ∧
    (knowing (.string "p") t).Resolves waiting.pending w table w' ∧
    (∀ q : PathValue, q ∈ out ↔ ∃ choice, Picks table choice ∧ q.entry? = waiting.overlaid choice) ∧
    out.Pairwise (fun q q' => q.key < q'.key) ∧
    (∀ (q q' : PathValue) choice choice', Picks table choice → q.entry? = waiting.overlaid choice →
      Picks table choice' → q'.entry? = waiting.overlaid choice' → q.key = q'.key →
        choice = choice') ∧
    out.length = (table.map fun e => e.2.length).prod := by
  obtain ⟨hfails, hreturns⟩ :=
    branches_cross_product (knowing (.string "p") .blank) waiting Workspace.create
  have hfound : ∀ field w v, ¬((knowing (.string "p") .blank).finalValues field v).Fails w := by
    intro field w v
    obtain ⟨values, w', hvalues⟩ :=
      exists_returns_finalValues (r := knowing (.string "p") .blank) field
        (fun _ _ _ _ hyields => exists_alternatives_knowing hyields) w v
    exact hvalues.not_fails
  rcases Work.returns_or_fails ((knowing (.string "p") .blank).branches waiting)
    Workspace.create with
    ⟨out, w', hout⟩ | hfailed
  · obtain ⟨table, hresolves, hrest⟩ := hreturns out w' hout
    exact ⟨_, w', .blank, out, table, hout, hresolves, hrest⟩
  · obtain ⟨_, field, v, _, _, w₁, _, _, hfailed⟩ := hfails.mp hfailed
    exact absurd hfailed (hfound field w₁ v)

end Resolver

end FieldFlow
