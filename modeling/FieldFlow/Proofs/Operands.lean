import FieldFlow.Proofs.Alternatives

/-!
# Literal and referenced operands

The elements of an operation are written in a model, or they are what a reference leads to.  Both
are folded into one transformer, in two different ways.  A literal replacement clears the field with
its first element and adds the others. Folding in a referenced content makes a transformer of each
element by the operation itself and composes them in the order of the elements, so each replacement
erases the one before it, and the last element is all that is left.  For adding and removing the two
ways agree, whatever the order of the elements and however often each is listed.

Main definitions: `Factory.bulk`, `Factory.further`.
Main results: `Factory.compAll_bulk`, `Factory.compAll_replacing`,
`Resolver.literal_eq_referenced_iff`, `Resolver.literal_ne_referenced`.
-/

namespace FieldFlow

namespace ElementSet

theorem mem_singleton {x y : Element} : x ∈ (singleton y).toList ↔ x = y := by
  rw [← OptionalSet.mem_members_some, OptionalSet.members_singleton, Set.mem_singleton_iff]

theorem eq_of_mem {s t : ElementSet} (h : ∀ x, x ∈ s.toList ↔ x ∈ t.toList) : s = t :=
  Option.some.inj (OptionalSet.eq_of_members (s := some s) (t := some t) Iff.rfl (Set.ext h))

end ElementSet

/-! ## Several elements at once -/

namespace Factory

variable {action : String} {x : Element} {xs : List Element}

/-- What an action makes of all elements of a set at once. -/
def bulk (action : String) (s : ElementSet) : Transformer :=
  if action = "remove" then .draft none (some s) false none
    else .draft (some s) none (action = "replace") none

/-- The action that takes an operation on: what follows a replacement is added. -/
def further (action : String) : String := if action = "replace" then "add" else action

/-- What an action makes of one element is what it makes of the set of that element. -/
theorem literalBody?_eq_bulk (haction : action ∈ ["add", "remove", "replace"]) (hx : x ≠ .nil) :
    literalBody? action x = some (bulk action (.singleton x)) := by
  rw [literalBody?_eq_some]
  simp only [List.mem_cons, List.not_mem_nil, or_false] at haction
  rcases haction with rfl | rfl | rfl <;> simp [bulk, hx]

/-- What takes an operation on is one of the actions again. -/
theorem further_mem (haction : action ∈ ["add", "remove", "replace"]) :
    further action ∈ ["add", "remove", "replace"] := by
  unfold further
  split
  · simp
  · exact haction

/-- An action other than a replacement goes on as it is. -/
theorem further_eq (h : action ≠ "replace") : further action = action := if_neg h

/-- Nothing takes an operation on by replacing. -/
theorem further_ne (action : String) : further action ≠ "replace" := by
  unfold further
  split
  · decide
  · assumption

/-- The set that an action is about can be read off. -/
theorem bulk_inj (action : String) {s t : ElementSet} : bulk action s = bulk action t ↔ s = t := by
  unfold bulk
  split <;> simp [Transformer.draft]

/-- An operation followed by what takes it on is the operation on both sets. -/
theorem comp_bulk (haction : action ∈ ["add", "remove", "replace"]) (s t : ElementSet) :
    (Instance.canonical (bulk action s)).comp (.canonical (bulk (further action) t))
      = .canonical (bulk action (s.union t)) := by
  simp only [List.mem_cons, List.not_mem_nil, or_false] at haction
  rcases haction with rfl | rfl | rfl <;>
    simp [Instance.comp_canonical, bulk, further, Transformer.isBlank, Transformer.draft,
      Transformer.merge, Manager.mergeEdits, OptionalSet.add, OptionalSet.subtract, Sequence.concat]

/-- An operation that is taken on by one element after the other is the operation on all of them. -/
theorem compAll_bulk (haction : action ∈ ["add", "remove", "replace"]) (s : ElementSet)
    (xs : List Element) :
    (Instance.canonical (bulk action s)).compAll
      (xs.map fun x => bulk (further action) (.singleton x))
      = .canonical (bulk action (s.union (ElementSet.ofList xs))) := by
  induction xs generalizing s with
  | nil =>
    have hunion : s.union (ElementSet.ofList []) = s := ElementSet.eq_of_mem fun x => by
      simp [ElementSet.mem_union, ElementSet.mem_ofList]
    rw [hunion]
    rfl
  | cons x rest ih =>
    have hunion : (s.union (ElementSet.singleton x)).union (ElementSet.ofList rest)
        = s.union (ElementSet.ofList (x :: rest)) := ElementSet.eq_of_mem fun y => by
      simp only [ElementSet.mem_union, ElementSet.mem_ofList, ElementSet.mem_singleton,
        List.mem_cons, or_assoc]
    rw [List.map_cons, Instance.compAll, List.foldl_cons, comp_bulk haction, ← hunion]
    exact ih (s.union (ElementSet.singleton x))

/-- The first element of an operation, taken on by the others, is the operation on all of them. -/
theorem compAll_bulk_cons (haction : action ∈ ["add", "remove", "replace"]) (x : Element)
    (rest : List Element) :
    (Instance.canonical .blank).compAll
        (bulk action (.singleton x) :: rest.map fun y => bulk (further action) (.singleton y))
      = .canonical (bulk action (.ofList (x :: rest))) := by
  have hall : (ElementSet.singleton x).union (ElementSet.ofList rest) =
      ElementSet.ofList (x :: rest) :=
    ElementSet.eq_of_mem fun y => by
      simp only [ElementSet.mem_union, ElementSet.mem_ofList, ElementSet.mem_singleton,
        List.mem_cons]
  have hfirst : (Instance.canonical .blank).comp (.canonical (bulk action (.singleton x)))
      = .canonical (bulk action (.singleton x)) := by
    rw [Instance.comp_canonical]
    split
    · rfl
    · rfl
  rw [← hall, ← compAll_bulk haction, Instance.compAll, List.foldl_cons, hfirst]
  rfl

/-- A replacement after others is all that is left of them. -/
theorem compAll_replacing (before : List Element) (last : Element) :
    (Instance.canonical .blank).compAll
      ((before ++ [last]).map fun x => bulk "replace" (.singleton x))
      = .canonical (bulk "replace" (.singleton last)) := by
  have hclear : (Instance.canonical (bulk "replace" (.singleton last))).body.clear = true := rfl
  rw [List.map_append, Instance.compAll, List.foldl_append, List.map_singleton, List.foldl_cons,
    List.foldl_nil, Instance.comp_of_clear hclear]

theorem foldBodies?_eq_bulk (haction : action ∈ ["add", "remove", "replace"]) (hxs : .nil ∉ xs) :
    foldBodies? action xs = some (xs.map fun x => bulk action (.singleton x)) := by
  induction xs with
  | nil => rfl
  | cons x rest ih =>
    rw [List.mem_cons, not_or] at hxs
    exact mapM_cons_eq_some.mpr ⟨_, literalBody?_eq_bulk haction (Ne.symm hxs.1), _, ih hxs.2, rfl⟩

/-- What is left of a set that is folded in: all of it, but only the last element if each replaces
the others. -/
def foldedIn (action : String) (s : ElementSet) : ElementSet :=
  if action = "replace" then .ofList s.toList.getLast?.toList else s

/-- All of a set is left, unless several elements replace each other. -/
theorem foldedIn_eq_iff {s : ElementSet} :
    foldedIn action s = s ↔ action ≠ "replace" ∨ s.toList.length ≤ 1 := by
  by_cases haction : action = "replace"
  · rw [foldedIn, if_pos haction]
    simp only [haction, ne_eq, not_true_eq_false, false_or]
    constructor
    · intro h
      have hsub : s.toList ⊆ s.toList.getLast?.toList :=
        fun x hx => by rwa [← h, ElementSet.mem_ofList] at hx
      have hlength : s.toList.getLast?.toList.length ≤ 1 := by cases s.toList.getLast? <;> simp
      exact (List.subperm_of_subset (Keyed.nodup_toList s) hsub).length_le.trans hlength
    · intro h
      refine ElementSet.eq_of_mem fun x => ?_
      rw [ElementSet.mem_ofList]
      match s.toList, h with
      | [], _ => rfl
      | [y], _ => rfl
  · simp [foldedIn, haction]

/-- **What folding in makes of the elements of a set** is the operation on what is left of them. -/
theorem compAll_foldBodies? {s : ElementSet} (haction : action ∈ ["add", "remove", "replace"])
    (hs : s.toList ≠ []) (hnil : .nil ∉ s.toList) :
    ∃ bodies, foldBodies? action s.toList = some bodies ∧
      (Instance.canonical .blank).compAll bodies =
        .canonical (bulk action (foldedIn action s)) := by
  refine ⟨_, foldBodies?_eq_bulk haction hnil, ?_⟩
  by_cases hreplace : action = "replace"
  · obtain ⟨before, last, hlist⟩ := (List.eq_nil_or_concat' s.toList).resolve_left hs
    have hleft : foldedIn action s = .singleton last := ElementSet.eq_of_mem fun x => by
      simp [foldedIn, hreplace, hlist, ElementSet.mem_ofList, ElementSet.mem_singleton]
    rw [hleft, hlist, hreplace, compAll_replacing]
  · obtain ⟨x, rest, hlist⟩ := List.exists_cons_of_ne_nil hs
    have hleft : foldedIn action s = .ofList (x :: rest) := by
      rw [foldedIn, if_neg hreplace, ← hlist]
      exact ElementSet.eq_of_mem fun y => ElementSet.mem_ofList.symm
    have hfold := compAll_bulk_cons haction x rest
    rw [further_eq hreplace] at hfold
    rw [hleft, hlist, List.map_cons, hfold]

end Factory

namespace Solver

open Factory

/-- **What a literal operation makes of texts**, however they are listed. -/
theorem composed?_literal {action : String} {f : Model.Field} {values : List String}
    {s : ElementSet}
    (haction : action ∈ ["add", "remove", "replace"]) (hf : f.valueType = "string")
    (hvalues : values ≠ [])
    (hlisted : ∀ x, x ∈ s.toList ↔ x ∈ values.map Element.string) :
    composed? f (.canonical .blank) [⟨action, values, none⟩] =
      some (.canonical (bulk action s)) := by
  obtain ⟨first, rest, rfl⟩ := List.exists_cons_of_ne_nil hvalues
  have hread : Analyses.defaults.read f.valueType (first :: rest)
      = .ok (.string first :: rest.map Element.string) := by
    rw [hf]
    rfl
  have hs : s = .ofList (.string first :: rest.map Element.string) :=
    ElementSet.eq_of_mem fun x => by
    rw [hlisted, ElementSet.mem_ofList, List.map_cons]
  have hothers : literalBodies? (further action) (rest.map Element.string)
      = some ((rest.map Element.string).map fun x => bulk (further action) (.singleton x)) := by
    rw [literalBodies?_eq_foldBodies? (further_ne action)]
    exact foldBodies?_eq_bulk (further_mem haction) (by simp)
  have hbodies : bodies? f ⟨action, first :: rest, none⟩ =
      some (bulk action (.singleton (.string first))
      :: (rest.map Element.string).map fun x => bulk (further action) (.singleton x)) := by
    have hfirst : literalBody? action (.string first) =
        some (bulk action (.singleton (.string first))) :=
      literalBody?_eq_bulk haction (by simp)
    rw [further] at hothers
    simp only [bodies?, hread, literalBodies?, hfirst, hothers]
    rfl
  rw [composed?, hbodies, hs, ← compAll_bulk_cons haction]
  rfl

/-- A literal operation on texts makes the canonical transformer that does it on all of them. -/
theorem exists_returns_literal {w : Workspace} {action : String} {f : Model.Field}
    {values : List String}
    {s : ElementSet} (hw : w.Standard) (haction : action ∈ ["add", "remove", "replace"])
    (hf : f.valueType = "string") (hvalues : values ≠ [])
    (hlisted : ∀ x, x ∈ s.toList ↔ x ∈ values.map Element.string) :
    ∃ t w', (composeOps f w.manager.identity [⟨action, values, none⟩]).Returns w t w' ∧
      w.Advances w' ∧
      w'.manager.pool.Holds t ∧ t.contents = bulk action s := by
  have hcomposed := follows_composeOps f [⟨action, values, none⟩] hw hw.sound.identity
  rw [hw.sound.instanceOf_identity, composed?_literal haction hf hvalues hlisted] at hcomposed
  obtain ⟨t, w', hreturns⟩ := hcomposed.exists_returns (by simp)
  obtain ⟨hadvances, made, hmade, hholds, rfl⟩ := hcomposed.returns hreturns
  exact ⟨t, w', hreturns, hadvances, hholds, (congrArg Instance.body (Option.some.inj hmade)).symm⟩

end Solver

/-! ## Through a reference -/

namespace Propagation

/-- A value of one path has one content of a field. -/
theorem valuesFor_of_single {v : Propagation} {p : PathValue} (hv : v.toList = [p])
    (field : String) :
    v.valuesFor field = [p.value? field] := by
  rw [valuesFor, hv]
  exact Ordered.distinctBy_singleton ..

theorem toList_ofPaths_singleton (serial : Nat) (p : PathValue) :
    (ofPaths serial [p]).toList = [p] :=
  Ordered.distinctBy_singleton ..

end Propagation

namespace Resolver

open Factory

variable {r : Resolver} {w w₁ w₂ : Workspace} {point symbol : Element} {field type action : String}

/-- What is reached gives the alternatives for its contents. -/
theorem alternatives_of_reach {w' : Workspace} {v : Propagation} {l : List (Option Transformer)}
    {found : Alternatives} (hreach : (r.reach point symbol).Returns w (some v) w₁)
    (hcontents : (ofContents action (v.valuesFor field)).Returns w₁ l w₂)
    (h : Yields (r.alternatives point symbol field type action) w found w') :
    found = ⟨false, .ok (sortTransformers l)⟩ ∧ ∃ log, w' = { w₂ with log := log } := by
  unfold alternatives at h
  obtain ⟨reached, _, hreached, hrest⟩ := Yields.bind_iff.mp h
  obtain ⟨rfl, rfl⟩ := hreached.unique hreach
  obtain ⟨made, _, hmade, hrest⟩ := Yields.bind_iff.mp hrest
  obtain ⟨rfl, rfl⟩ := hmade.unique hcontents
  obtain ⟨_, w₃, hreport, hrest⟩ := Yields.bind_iff.mp hrest
  obtain rfl := Yields.modify_iff.mp hreport
  obtain ⟨rfl, rfl⟩ := Yields.pure_iff.mp hrest
  exact ⟨rfl, _, rfl⟩

/-- The elements of a content are folded into the identity. -/
theorem ofContents_single {x : Value} {t : Transformer}
    (h : (foldElements action w.manager.identity (OptionalSet.elements x.set)).Returns w t w₁) :
    (ofContents action [some x]).Returns w [some t] w₁ := by
  have hcontent : (ofContent action (some x)).Returns w (some t) w₁ :=
    Work.returns_bind.mpr ⟨w, w, Work.returns_get.mpr ⟨rfl, rfl⟩,
      Work.returns_bind.mpr ⟨t, w₁, h, Work.returns_pure.mpr ⟨rfl, rfl⟩⟩⟩
  exact Work.returns_bind.mpr ⟨some t, w₁, hcontent,
    Work.returns_bind.mpr ⟨[], w₁, Work.returns_pure.mpr ⟨rfl, rfl⟩,
      Work.returns_pure.mpr ⟨rfl, rfl⟩⟩⟩

/-- **The alternative for a set** is canonical, and does the operation on what is left of the
set. -/
theorem alternatives_of_set {w' : Workspace} {v : Propagation} {p : PathValue} {s : ElementSet}
    {found : Alternatives}
    (haction : action ∈ ["add", "remove", "replace"])
    (hreach : (r.reach point symbol).Returns w (some v) w₁) (hw : w₁.Standard) (hv : v.toList = [p])
    (hset : p.set? field = some s) (hs : s.toList ≠ []) (hnil : .nil ∉ s.toList)
    (h : Yields (r.alternatives point symbol field type action) w found w') :
    ∃ t, found = ⟨false, .ok [some t]⟩ ∧ w₁.Advances w' ∧ w'.manager.pool.Holds t ∧
      t.contents = bulk action (foldedIn action s) := by
  obtain ⟨x, hx, hxs⟩ := Option.bind_eq_some_iff.mp hset
  obtain ⟨bodies, hbodies, hcomp⟩ := compAll_foldBodies? haction hs hnil
  have hfolds := follows_foldElements hw action s.toList hw.sound.identity
  obtain ⟨t, w₂, hfold⟩ := hfolds.exists_returns (by simp [hbodies])
  obtain ⟨hadvances, made, hmade, hholds, rfl⟩ := hfolds.returns hfold
  have helements : OptionalSet.elements x.set = s.toList := by
    rw [hxs]
    rfl
  rw [← helements] at hfold
  have hcontents : (ofContents action (v.valuesFor field)).Returns w₁ [some t] w₂ := by
    rw [Propagation.valuesFor_of_single hv, hx]
    exact ofContents_single hfold
  obtain ⟨rfl, log, rfl⟩ := alternatives_of_reach hreach hcontents h
  have hsorted : sortTransformers [some t] = [some t] := Ordered.distinctBy_singleton ..
  refine ⟨t, by rw [hsorted],
    ⟨hadvances.manager, hadvances.analyses, hadvances.finals, hadvances.solvers⟩, hholds, ?_⟩
  rw [hw.sound.instanceOf_identity, hbodies] at hmade
  have hbody := congrArg Instance.body (Option.some.inj hmade)
  rw [hcomp] at hbody
  exact hbody.symm

/-- A set of listed texts holds some, and nil is not among them. -/
theorem texts_of_listed {s : ElementSet} {values : List String} (hvalues : values ≠ [])
    (hlisted : ∀ x, x ∈ s.toList ↔ x ∈ values.map Element.string) :
    s.toList ≠ [] ∧ .nil ∉ s.toList := by
  obtain ⟨first, rest, rfl⟩ := List.exists_cons_of_ne_nil hvalues
  refine ⟨List.ne_nil_of_mem ((hlisted (.string first)).mpr (by simp)), fun h => ?_⟩
  simpa using (hlisted .nil).mp h

/-- **Literal and referenced operands.**  Of a set of texts that a path holds, and of the same texts
written in a model in any order, an action makes canonical transformers, and they are the same
unless several elements replace each other. -/
theorem literal_eq_referenced_iff {u : Workspace} {v : Propagation} {p : PathValue} {s : ElementSet}
    {values : List String} {f : Model.Field} {found : Alternatives}
    (haction : action ∈ ["add", "remove", "replace"]) (hvalues : values ≠ [])
    (hreach : (r.reach point symbol).Returns w (some v) w₁) (hw : w₁.Standard) (hv : v.toList = [p])
    (hset : p.set? field = some s) (hlisted : ∀ x, x ∈ s.toList ↔ x ∈ values.map Element.string)
    (hfound : Yields (r.alternatives point symbol field type action) w found w₂)
    (hu : u.Standard) (hf : f.valueType = "string") :
    ∃ t t' u', found = ⟨false, .ok [some t]⟩ ∧ w₁.Advances w₂ ∧
      t.contents = bulk action (foldedIn action s) ∧
      (Solver.composeOps f u.manager.identity [⟨action, values, none⟩]).Returns u t' u' ∧
        u.Advances u' ∧
      t'.contents = bulk action s ∧
      ∀ pool : Pool, w₂.manager.pool.Extends pool → u'.manager.pool.Extends pool →
        (t = t' ↔ action ≠ "replace" ∨ s.toList.length = 1) := by
  obtain ⟨hs, hnil⟩ := texts_of_listed hvalues hlisted
  obtain ⟨t, rfl, hadvances, hholds, hcontents⟩ :=
    alternatives_of_set haction hreach hw hv hset hs hnil hfound
  obtain ⟨t', u', hreturns, hadvances', hholds', hcontents'⟩ :=
    Solver.exists_returns_literal hu haction hf hvalues hlisted
  refine ⟨t, t', u', rfl, hadvances, hcontents, hreturns, hadvances', hcontents', ?_⟩
  intro pool hpool hpool'
  have hone : s.toList.length = 1 ↔ s.toList.length ≤ 1 := by
    have hpos := List.length_pos_of_ne_nil hs
    omega
  rw [hone, ← foldedIn_eq_iff, ← bulk_inj action, ← hcontents, ← hcontents',
    ← Transformer.key_eq_iff]
  -- in a pool that holds both, the key tells transformers apart
  have htpool : pool.Holds t := hholds.mono hpool
  exact ⟨congrArg Transformer.key,
    fun hkey => Item.transformer.inj (Pool.eq_of_key htpool (hholds'.mono hpool') hkey)⟩

/-- The resolver that knows a single path of every object. -/
def telling (p : PathValue) : Resolver where
  resultAt _ _ := some (.ofPaths 0 [p])
  finalize v := pure (some v)
  provider := some Work.topTransformer

theorem reach_telling (p : PathValue) (point symbol : Element) (w : Workspace) :
    ((telling p).reach point symbol).Returns w (some (.ofPaths 0 [p])) w := rfl

/-- Two texts. -/
def twoTexts : ElementSet := .ofList [.string "x", .string "y"]

theorem mem_twoTexts (x : Element) : x ∈ twoTexts.toList ↔ x ∈ ["x", "y"].map Element.string :=
  ElementSet.mem_ofList

theorem one_lt_length_twoTexts : 1 < twoTexts.toList.length := by
  have hsub : ["x", "y"].map Element.string ⊆ twoTexts.toList := fun x hx => (mem_twoTexts x).mpr hx
  exact (List.subperm_of_subset (by simp) hsub).length_le

/-- A path whose field holds them. -/
def paired : PathValue := PathValue.empty.set "f" (some (.draft (some twoTexts) none))

theorem set?_paired : paired.set? "f" = some twoTexts := by
  rw [PathValue.set?, PathValue.value?, paired, PathValue.entry?_set, if_pos rfl]
  rfl

theorem exists_alternative_paired (haction : action ∈ ["add", "remove", "replace"]) :
    ∃ (t : Transformer) (w : Workspace),
    Yields ((telling paired).alternatives (.string "q") (.string "s") "f" "string" action)
      (.standard true)
      ⟨false, .ok [some t]⟩ w ∧ w.Standard ∧
        t.contents = bulk action (foldedIn action twoTexts) := by
  obtain ⟨found, w, hfound⟩ := Yields.exists_run
    ((telling paired).alternatives (.string "q") (.string "s") "f" "string" action) (.standard true)
  obtain ⟨hs, hnil⟩ := texts_of_listed (by simp) mem_twoTexts
  obtain ⟨t, rfl, hadvances, _, hcontents⟩ := alternatives_of_set haction (reach_telling ..)
    Workspace.standard_standard (Propagation.toList_ofPaths_singleton 0 paired) set?_paired
      hs hnil hfound
  exact ⟨t, w, hfound, Workspace.standard_standard.mono hadvances, hcontents⟩

/-- Removing two texts through a reference or as literals, in another order and one of them twice,
makes the same transformer. -/
theorem literal_eq_referenced_removing : ∃ (t t' : Transformer) (w u : Workspace),
    Yields ((telling paired).alternatives (.string "q") (.string "s") "f" "string" "remove")
      (.standard true)
      ⟨false, .ok [some t]⟩ w ∧
    (Solver.composeOps ⟨"f", "", []⟩ w.manager.identity [⟨"remove", ["y", "x", "y"], none⟩]).Returns
      w t' u ∧
    t = t' := by
  have haction : "remove" ∈ ["add", "remove", "replace"] := by simp
  have hlisted : ∀ x, x ∈ twoTexts.toList ↔ x ∈ ["y", "x", "y"].map Element.string := by
    intro x
    rw [mem_twoTexts]
    simp only [List.map_cons, List.map_nil, List.mem_cons, List.not_mem_nil, or_false]
    tauto
  obtain ⟨_, w, hfound, hw, _⟩ := exists_alternative_paired haction
  obtain ⟨t, t', u, hmade, _, _, hreturns, hadvances, _, hiff⟩ :=
    literal_eq_referenced_iff haction (by simp)
      (reach_telling ..) Workspace.standard_standard
      (Propagation.toList_ofPaths_singleton 0 paired) set?_paired hlisted hfound hw
      (f := ⟨"f", "", []⟩) rfl
  rw [hmade] at hfound
  refine ⟨t, t', w, u, hfound, hreturns, ?_⟩
  exact (hiff u.manager.pool hadvances.manager.pool (hw.mono hadvances).sound.grows.pool).mpr
    (.inl (by decide))

/-- **A replacement by reference is not the replacement by the same literals**: it does not put in
all of them. -/
theorem literal_ne_referenced : ¬∀ (r : Resolver) (w w₁ w₂ u : Workspace) (point symbol : Element)
    (field type action : String) (v : Propagation) (p : PathValue) (s : ElementSet)
    (values : List String)
    (f : Model.Field) (t t' : Transformer),
    action ∈ ["add", "remove", "replace"] → values ≠ [] →
      (r.reach point symbol).Returns w (some v) w₁ →
    w₁.Standard → v.toList = [p] → p.set? field = some s →
      (∀ x, x ∈ s.toList ↔ x ∈ values.map Element.string) →
    Yields (r.alternatives point symbol field type action) w ⟨false, .ok [some t]⟩ w₂ →
      f.valueType = "string" →
    (Solver.composeOps f w₂.manager.identity [⟨action, values, none⟩]).Returns w₂ t' u →
      t = t' := by
  intro hagrees
  have haction : "replace" ∈ ["add", "remove", "replace"] := by simp
  obtain ⟨t, w, hfound, hw, hcontents⟩ := exists_alternative_paired haction
  obtain ⟨t', u, hreturns, _, _, hcontents'⟩ :=
    Solver.exists_returns_literal hw haction (f := ⟨"f", "", []⟩) rfl
      (by simp) mem_twoTexts
  have hsame : t = t' :=
    hagrees (telling paired) (.standard true) (.standard true) w u (.string "q") (.string "s")
      "f" "string" "replace" _ paired twoTexts ["x", "y"] _ t t' haction (by simp)
      (reach_telling ..) Workspace.standard_standard
      (Propagation.toList_ofPaths_singleton 0 paired) set?_paired mem_twoTexts hfound rfl hreturns
  -- all of the two texts would be left of them
  rw [hsame, hcontents', bulk_inj, eq_comm, foldedIn_eq_iff] at hcontents
  rcases hcontents with hreplace | hlength
  · exact hreplace rfl
  · exact absurd hlength (Nat.not_le.mpr one_lt_length_twoTexts)

end Resolver

end FieldFlow
