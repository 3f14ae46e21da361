import FieldFlow.Proofs.Building
import FieldFlow.Proofs.Deferral
import FieldFlow.Proofs.Direct
import Mathlib.Data.Set.Image

/-!
# Final branches

What a path holds is seen without serial numbers.  Seen so, the final branches of a path are exactly
the maps in which every field holds something that its value may turn out to be, chosen
independently of the other fields, whatever the order in which the fields are taken and whatever
branches collapse.  Finding them asks for every reference that the path waits for, and for nothing
else.

Main definitions: `View`, `Unfolds`, `PathValue.awaited`, `PathValue.reading`.
Main results: `Resolver.extendBranches_spec`, `Resolver.final_spec`, `Resolver.asks_final`.
-/

namespace FieldFlow

/-! ## Views and readings -/

/-- What a path holds in each field, without serial numbers; nothing for a field that is not
tracked. -/
abbrev View := String → Option (Option Value)

/-- The members of every tracked field; a field without a value, or without a set, has none. -/
def View.reading (b : View) : Reading := fun name =>
  (b name).map fun v => OptionalSet.members (v.bind Value.set)

namespace PathValue

/-- The members of every tracked field; a field without a value, or without a set, has none. -/
def reading (p : PathValue) : Reading := fun name =>
  (p.entry? name).map fun v => OptionalSet.members (v.bind Value.set)

/-- The members of a field show in what it holds. -/
theorem reading_eq_view (p : PathValue) : p.reading = View.reading p.view := by
  funext name
  rw [reading, View.reading, view, Option.map_map]
  cases p.entry? name with
  | none => rfl
  | some v => cases v <;> rfl

end PathValue

/-! ## Branches of one path -/

/-- What a field may hold in the end, if it holds `entry` now. -/
def unfolded (answers : Ref → Set (Option Instance)) (entry : Option (Option Value)) :
    Set (Option (Option Value)) :=
  match entry with
  | some (some v) => Option.map some '' resolutions answers v
  | entry => {entry}

theorem unfolded_contents {answers : Ref → Set (Option Instance)} {v : Value}
    (h : v.sequence = none) :
    unfolded answers (some (some v.contents)) = {some (some v.contents)} := by
  rw [unfolded, resolutions_contents h, Set.image_singleton]
  rfl

/-- The map gives every field something that it may hold in the end. -/
def Unfolds (answers : String → Ref → Set (Option Instance)) (view b : View) : Prop :=
  ∀ name, b name ∈ unfolded (answers name) (view name)

/-- The map gives the listed fields something that they may hold in the end, and agrees with `base`
on all others. -/
structure Fills (answers : String → Ref → Set (Option Instance))
    (entries : List (String × Option Value)) (base b : View) : Prop where
  held : ∀ name v, (name, some v) ∈ entries →
    b name ∈ unfolded (answers name) (some (some v.contents))
  others : ∀ name, name ∉ entries.map Prod.fst → b name = base name

/-- With nothing to fill a map agrees everywhere. -/
theorem fills_nil {answers : String → Ref → Set (Option Instance)} {base b : View} :
    Fills answers [] base b ↔ base = b := by
  constructor
  · intro h
    exact (funext fun name => h.others name (by simp)).symm
  · rintro rfl
    exact ⟨by simp, fun _ _ => rfl⟩

/-- Fields may be filled one after the other. -/
theorem fills_cons {answers : String → Ref → Set (Option Instance)} {field : String} {v : Value}
    {rest : List (String × Option Value)} {base b : View} (hfield : field ∉ rest.map Prod.fst) :
    Fills answers ((field, some v) :: rest) base b ↔
      ∃ o ∈ unfolded (answers field) (some (some v.contents)),
        Fills answers rest (Function.update base field o) b := by
  constructor
  · intro h
    refine ⟨b field, h.held field v List.mem_cons_self,
      fun name v' hmem => h.held name v' (List.mem_cons_of_mem _ hmem), fun name hname => ?_⟩
    by_cases heq : name = field
    · rw [heq, Function.update_self]
    · rw [Function.update_of_ne heq]
      exact h.others name (by simp [heq, hname])
  · rintro ⟨o, ho, h⟩
    refine ⟨fun name v' hmem => ?_, fun name hname => ?_⟩
    · rcases List.mem_cons.mp hmem with heq | hmem
      · obtain ⟨rfl, hv'⟩ := Prod.mk.inj heq
        obtain rfl := Option.some.inj hv'
        rw [h.others name hfield, Function.update_self]
        exact ho
      · exact h.held name v' hmem
    · rw [List.map_cons, List.mem_cons, not_or] at hname
      rw [h.others name hname.2, Function.update_of_ne hname.1]

namespace Resolver

variable {r : Resolver} {I : Workspace → Prop} {answers : String → Ref → Set (Option Instance)}
  {w w' : Workspace}

/-- What an extended branch holds, if it did not track the field before. -/
theorem view_extendBranch {q : PathValue} {field : String} (hfree : q.entry? field = none)
    (v : Option Value) :
    (extendBranch field (q, v)).view
      = Function.update q.view field ((v.map Value.contents).map some) := by
  cases v with
  | some v => exact q.view_set field (some v)
  | none =>
    have hnone : q.view field = none := by rw [PathValue.view, hfree]; rfl
    rw [Option.map_none, Option.map_none, ← hnone, Function.update_eq_self]
    rfl

/-- Extending a branch changes no other field. -/
theorem entry?_extendBranch {q : PathValue} {field name : String} (h : name ≠ field)
    (v : Option Value) :
    PathValue.entry? (extendBranch field (q, v)) name = q.entry? name := by
  cases v with
  | some v => exact (q.entry?_set field name (some v)).trans (if_neg h)
  | none => rfl

/-- The branches have every field of `free` still to come. -/
def AreBranches (free : List String) (branches : List PathValue) : Prop :=
  ∀ q ∈ branches, ∀ name ∈ free, q.entry? name = none

/-- The extended branches before they collapse. -/
theorem mem_extended {field : String} {branches : List PathValue} {finals : List (Option Value)}
    {q : PathValue} :
    q ∈ ((pairs branches finals).map (extendBranch field)).reverse ↔
      ∃ before ∈ branches, ∃ v ∈ finals, extendBranch field (before, v) = q := by
  rw [List.mem_reverse, List.mem_map]
  constructor
  · rintro ⟨⟨before, v⟩, hmem, heq⟩
    simp only [pairs, List.mem_flatMap, List.mem_map, Prod.mk.injEq] at hmem
    obtain ⟨before', hbefore, v', hv, rfl, rfl⟩ := hmem
    exact ⟨before', hbefore, v', hv, heq⟩
  · rintro ⟨before, hbefore, v, hv, heq⟩
    refine ⟨(before, v), ?_, heq⟩
    simp only [pairs, List.mem_flatMap, List.mem_map, Prod.mk.injEq]
    exact ⟨before, hbefore, v, hv, rfl, rfl⟩

/-- **One field more**: every branch is extended by everything that the field may hold. -/
theorem extended_spec {field : String} {free : List String} (hfield : field ∉ free)
    {branches : List PathValue} (hbranches : AreBranches (field :: free) branches)
    {finals : List (Option Value)} {O : Set (Option Value)}
    (hfinals : {o | ∃ v ∈ finals, v.map Value.contents = o} = O) :
    AreBranches free (Keyed.ofList ((pairs branches finals).map (extendBranch field)).reverse :
        Keyed PathValue.key).toList ∧
      ∀ b, (∃ q ∈ (Keyed.ofList ((pairs branches finals).map (extendBranch field)).reverse :
        Keyed PathValue.key).toList, q.view = b) ↔
          ∃ q ∈ branches, ∃ o ∈ Option.map some '' O, b = Function.update q.view field o := by
  constructor
  · intro q hq name hname
    obtain ⟨before, hbefore, v, _, rfl⟩ := mem_extended.mp (Keyed.mem_of_mem_ofList hq)
    have hne : name ≠ field := by
      rintro rfl
      exact hfield hname
    rw [entry?_extendBranch hne]
    exact hbranches before hbefore name (List.mem_cons_of_mem _ hname)
  · intro b
    have hview : ∀ before ∈ branches, ∀ v, (extendBranch field (before, v)).view
        = Function.update before.view field ((v.map Value.contents).map some) :=
      fun before hbefore => view_extendBranch (hbranches before hbefore field List.mem_cons_self)
    rw [Keyed.mem_ofList_keys PathValue.view (fun p _ q _ => PathValue.view_eq_of_key), ← hfinals]
    constructor
    · rintro ⟨q, hq, rfl⟩
      obtain ⟨before, hbefore, v, hv, rfl⟩ := mem_extended.mp hq
      exact ⟨before, hbefore, _, ⟨_, ⟨v, hv, rfl⟩, rfl⟩, hview before hbefore v⟩
    · rintro ⟨before, hbefore, _, ⟨_, ⟨v, hv, rfl⟩, rfl⟩, rfl⟩
      exact ⟨_, mem_extended.mpr ⟨before, hbefore, v, hv, rfl⟩, hview before hbefore v⟩

/-- **All pending fields**: the branches that result are the maps that agree with one of the
branches before outside the pending fields, and give these what they may hold. -/
theorem extendBranches_spec (hr : ∀ holder, r.Serves holder I (answers holder)) (hw : I w)
    {entries : List (String × Option Value)} {branches out : List PathValue}
    (hvalues : ∀ e ∈ entries, ∃ v, e.2 = some v ∧
      ∀ u ∈ Sequence.trailing v.sequence, w.manager.pool.Holds u)
    (hdistinct : (entries.map Prod.fst).Nodup)
    (hbranches : AreBranches (entries.map Prod.fst) branches)
    (h : (r.extendBranches branches entries).Returns w out w') :
    I w' ∧ w.manager.Grows w'.manager ∧
      ∀ b, (∃ q ∈ out, q.view = b) ↔ ∃ q ∈ branches, Fills answers entries q.view b := by
  induction entries generalizing branches w with
  | nil =>
    obtain ⟨rfl, rfl⟩ := Work.returns_pure.mp h
    refine ⟨hw, ((hr "").sound hw).grows, fun b => ?_⟩
    simp only [fills_nil]
  | cons e rest ih =>
    obtain ⟨field, value⟩ := e
    obtain ⟨v, hv, hheld⟩ := hvalues _ List.mem_cons_self
    simp only at hv
    subst hv
    -- one field is filled in every branch, and then the rest
    obtain ⟨hfield, hrest⟩ := List.nodup_cons.mp hdistinct
    obtain ⟨finals, w₁, hfinals, hnext⟩ := Work.returns_bind.mp h
    obtain ⟨hw₁, hgrows, hread⟩ :=
      finalValues_resolutions (hr field) hw hheld (Work.returns_within.mp hfinals)
    obtain ⟨hextended, hviews⟩ := extended_spec hfield hbranches hread
    obtain ⟨hw', hgrows', hout⟩ := ih hw₁ (fun e he => by
      obtain ⟨v, hv, hheld⟩ := hvalues e (List.mem_cons_of_mem _ he)
      exact ⟨v, hv, fun u hu => (hheld u hu).mono hgrows.pool⟩) hrest hextended hnext
    refine ⟨hw', hgrows.trans hgrows', fun b => (hout b).trans ?_⟩
    simp only [fills_cons hfield]
    constructor
    · rintro ⟨q', hq', hfills⟩
      obtain ⟨q, hq, o, ho, hview⟩ := (hviews _).mp ⟨q', hq', rfl⟩
      exact ⟨q, hq, o, ho, hview ▸ hfills⟩
    · rintro ⟨q, hq, o, ho, hfills⟩
      obtain ⟨q', hq', hview⟩ := (hviews _).mpr ⟨q, hq, o, ho, rfl⟩
      exact ⟨q', hq', hview ▸ hfills⟩

end Resolver

/-! ### Pending and settled fields -/

namespace PathValue

/-- The path with the fields that wait for nothing. -/
def settled (p : PathValue) : PathValue := ⟨p.fields.filter (fun entry => !isPending entry)⟩

/-- The fields that wait for references. -/
def pending (p : PathValue) : List (String × Option Value) := p.fields.toList.filter isPending

variable {p : PathValue} {name : String}

theorem entry?_settled {v : Option Value} :
    p.settled.entry? name = some v ↔ p.entry? name = some v ∧ isPending (name, v) = false := by
  rw [entry?_eq_some, settled, Keyed.mem_filter, ← entry?_eq_some, Bool.not_eq_true']

theorem mem_pending {v : Option Value} :
    (name, v) ∈ p.pending ↔ p.entry? name = some v ∧ isPending (name, v) = true := by
  rw [pending, List.mem_filter, entry?_eq_some]

/-- A path that waits for nothing has no pending fields. -/
theorem pending_eq_nil (h : p.isIntermediate = false) : p.pending = [] := by
  have hnot : ∀ e ∈ p.fields.toList, isPending e = false := by simpa [isIntermediate] using h
  rw [pending, List.filter_eq_nil_iff]
  intro e he
  rw [hnot e he]
  simp

theorem exists_of_mem_pending {e : String × Option Value} (he : e ∈ p.pending) :
    ∃ v, e.2 = some v ∧ p.entry? e.1 = some (some v) := by
  obtain ⟨name, v⟩ := e
  obtain ⟨hentry, hpending⟩ := mem_pending.mp he
  cases v with
  | none => cases hpending
  | some v => exact ⟨v, rfl, hentry⟩

theorem nodup_pending (p : PathValue) : (p.pending.map Prod.fst).Nodup :=
  (List.pairwise_map.mpr (p.fields.pairwise_toList.filter _)).nodup

/-- A pending field is not tracked by the settled part of its path. -/
theorem entry?_settled_eq_none (h : name ∈ p.pending.map Prod.fst) :
    p.settled.entry? name = none := by
  obtain ⟨⟨_, v⟩, hmem, rfl⟩ := List.mem_map.mp h
  obtain ⟨hentry, hpending⟩ := mem_pending.mp hmem
  refine Option.eq_none_iff_forall_ne_some.mpr fun v' hv' => ?_
  obtain ⟨hentry', hnot⟩ := entry?_settled.mp hv'
  obtain rfl := Option.some.inj (hentry.symm.trans hentry')
  rw [hpending] at hnot
  cases hnot

/-- The settled part of a path tracks all other fields as the path does. -/
theorem entry?_settled_of_notMem (h : name ∉ p.pending.map Prod.fst) :
    p.settled.entry? name = p.entry? name := by
  apply Option.ext
  intro v
  rw [entry?_settled]
  refine and_iff_left_of_imp fun hv => ?_
  by_contra hpending
  exact h (List.mem_map_of_mem (mem_pending.mpr ⟨hv, by simpa using hpending⟩))

/-- The settled part of a path holds all other fields as the path does. -/
theorem view_settled (h : name ∉ p.pending.map Prod.fst) : p.settled.view name = p.view name := by
  rw [view, view, entry?_settled_of_notMem h]

/-- A field that is not pending keeps what it holds. -/
theorem unfolded_view (h : name ∉ p.pending.map Prod.fst) (answers : Ref → Set (Option Instance)) :
    unfolded answers (p.view name) = {p.view name} := by
  cases hentry : p.entry? name with
  | none =>
    rw [view, hentry]
    rfl
  | some v =>
    cases v with
    | none =>
      rw [view, hentry]
      rfl
    | some v =>
      have hview : p.view name = some (some v.contents) := by rw [view, hentry]; rfl
      have hsequence : v.sequence = none := by
        by_contra hsome
        refine h (List.mem_map_of_mem (mem_pending.mpr ⟨hentry, ?_⟩))
        simpa [isPending, Value.isIntermediate, Option.isSome_iff_ne_none] using hsome
      rw [hview, unfolded_contents hsequence]

end PathValue

/-- **Unfolding a path** leaves its settled fields as they are and gives each pending field
something that it may hold. -/
theorem unfolds_iff {answers : String → Ref → Set (Option Instance)} {p : PathValue} {b : View} :
    Unfolds answers p.view b ↔ Fills answers p.pending p.settled.view b := by
  constructor
  · intro h
    constructor
    · intro name v hmem
      have hview : p.view name = some (some v.contents) := by
        rw [PathValue.view, (PathValue.mem_pending.mp hmem).1]
        rfl
      exact hview ▸ h name
    · intro name hname
      have hb := h name
      rw [PathValue.unfolded_view hname] at hb
      rw [PathValue.view_settled hname]
      exact hb
  · rintro ⟨hpending, hothers⟩ name
    by_cases hname : name ∈ p.pending.map Prod.fst
    · obtain ⟨e, he, rfl⟩ := List.mem_map.mp hname
      obtain ⟨v, hv, hentry⟩ := PathValue.exists_of_mem_pending he
      have hview : p.view e.1 = some (some v.contents) := by
        rw [PathValue.view, hentry]
        rfl
      rw [hview]
      exact hpending e.1 v (hv ▸ he)
    · rw [PathValue.unfolded_view hname, hothers name hname, PathValue.view_settled hname]
      rfl

/-- A path that waits for nothing unfolds to itself. -/
theorem unfolds_of_settled {answers : String → Ref → Set (Option Instance)} {p : PathValue}
    (hsettled : p.isIntermediate = false) {b : View} : Unfolds answers p.view b ↔ p.view = b := by
  have hnil : p.pending = [] := PathValue.pending_eq_nil hsettled
  have hview : p.settled.view = p.view := funext fun name => PathValue.view_settled (by simp [hnil])
  rw [unfolds_iff, hnil, hview, fills_nil]

/-! ## What paths wait for -/

/-- What a path waits for, in the order in which it is asked for. -/
def PathValue.awaited (p : PathValue) : List (String × Ref) :=
  p.pending.flatMap fun e => Sequence.awaited e.1 ((e.2.bind Value.sequence).getD [])

/-- What the paths of a value wait for. -/
def Propagation.awaited (v : Propagation) : List (String × Ref) :=
  v.toList.flatMap PathValue.awaited

/-- A path waits for the references of its fields. -/
theorem PathValue.mem_awaited {p : PathValue} {name : String} {ref : Ref} :
    (name, ref) ∈ p.awaited ↔ ∃ v, p.view name = some (some v) ∧ ∃ step ∈ v.sequence.getD [],
      step.ref = some ref := by
  -- erasing serial numbers keeps the references
  have hcontents : ∀ v : Value, (∃ step ∈ v.contents.sequence.getD [], step.ref = some ref) ↔
      ∃ step ∈ v.sequence.getD [], step.ref = some ref := by
    intro v
    have hrefuses : Resolver.Refuses (fun other => other = ref) (v.contents.sequence.getD []) ↔
        Resolver.Refuses (fun other => other = ref) (v.sequence.getD []) :=
          Resolver.refuses_contents
    simpa [Resolver.Refuses] using hrefuses
  rw [awaited, List.mem_flatMap]
  constructor
  · rintro ⟨e, he, hmem⟩
    obtain ⟨rfl, step, hstep, href⟩ := Sequence.mem_awaited.mp hmem
    obtain ⟨v, hv, hentry⟩ := exists_of_mem_pending he
    rw [hv] at hstep
    exact ⟨v.contents, by rw [view, hentry]; rfl, (hcontents v).mpr ⟨step, hstep, href⟩⟩
  · rintro ⟨v, hview, hstep⟩
    obtain ⟨entry, hentry, hmap⟩ := Option.map_eq_some_iff.mp hview
    obtain ⟨u, rfl, rfl⟩ := Option.map_eq_some_iff.mp hmap
    obtain ⟨step, hstep, href⟩ := (hcontents u).mp hstep
    refine ⟨(name, some u), mem_pending.mpr ⟨hentry, ?_⟩,
      Sequence.mem_awaited.mpr ⟨rfl, step, hstep, href⟩⟩
    cases hsequence : u.sequence with
    | none => simp [hsequence] at hstep
    | some steps => simp [isPending, Value.isIntermediate, hsequence]

/-! ## Branches of all paths -/

namespace Resolver

variable {r : Resolver} {I : Workspace → Prop} {answers : String → Ref → Set (Option Instance)}
  {w w' : Workspace}

theorem held_pending {p : PathValue} (hheld : p.Held w) : ∀ e ∈ p.pending, ∃ v, e.2 = some v ∧
    ∀ u ∈ Sequence.trailing v.sequence, w.manager.pool.Holds u := by
  intro e he
  obtain ⟨v, hv, hentry⟩ := PathValue.exists_of_mem_pending he
  exact ⟨v, hv, hheld e.1 v hentry⟩

/-- The settled part of a path has every pending field still to come. -/
theorem areBranches_settled (p : PathValue) : AreBranches (p.pending.map Prod.fst) [p.settled] := by
  intro q hq name hname
  rw [List.mem_singleton.mp hq]
  exact PathValue.entry?_settled_eq_none hname

/-- **The branches of a path** are the maps that it unfolds to. -/
theorem branches_spec (hr : ∀ holder, r.Serves holder I (answers holder)) (hw : I w) {p : PathValue}
    (hheld : p.Held w) {out : List PathValue} (h : (r.branches p).Returns w out w') :
    I w' ∧ w.manager.Grows w'.manager ∧ ∀ b, (∃ q ∈ out, q.view = b) ↔
      Unfolds answers p.view b := by
  obtain ⟨hw', hgrows, hviews⟩ :=
    extendBranches_spec hr hw (held_pending hheld) p.nodup_pending (areBranches_settled p) h
  refine ⟨hw', hgrows, fun b => ?_⟩
  rw [hviews, unfolds_iff]
  simp

/-- The final branches of one path. -/
def ownBranches (r : Resolver) (p : PathValue) : Work (List PathValue) :=
  if p.isIntermediate then Work.within (.inPath p.text) (r.branches p) else pure [p]

/-- The final branches of paths are those of each. -/
theorem branchesOfAll_cons (r : Resolver) (p : PathValue) (rest : List PathValue) :
    r.branchesOfAll (p :: rest) = do
      let own ← r.ownBranches p
      let others ← r.branchesOfAll rest
      return own ++ others := by
  by_cases h : p.isIntermediate = true
  · simp only [branchesOfAll, ownBranches, if_pos h]
  · simp only [branchesOfAll, ownBranches, if_neg h]

/-- The final branches of one path are the maps that it unfolds to. -/
theorem ownBranches_spec (hr : ∀ holder, r.Serves holder I (answers holder)) (hw : I w)
    {p : PathValue} (hheld : p.Held w) {out : List PathValue}
    (h : (r.ownBranches p).Returns w out w') :
    I w' ∧ w.manager.Grows w'.manager ∧ ∀ b, (∃ q ∈ out, q.view = b) ↔
      Unfolds answers p.view b := by
  unfold ownBranches at h
  by_cases hintermediate : p.isIntermediate = true
  · rw [if_pos hintermediate] at h
    exact branches_spec hr hw hheld (Work.returns_within.mp h)
  · rw [if_neg hintermediate] at h
    obtain ⟨rfl, rfl⟩ := Work.returns_pure.mp h
    refine ⟨hw, ((hr "").sound hw).grows, fun b => ?_⟩
    rw [unfolds_of_settled (by simpa using hintermediate)]
    simp

/-- The branches of the listed paths are the maps that one of the paths unfolds to. -/
theorem branchesOfAll_spec (hr : ∀ holder, r.Serves holder I (answers holder)) (hw : I w)
    {paths out : List PathValue} (hpaths : ∀ p ∈ paths, p.Held w)
    (h : (r.branchesOfAll paths).Returns w out w') :
    I w' ∧ w.manager.Grows w'.manager ∧
      ∀ b, (∃ q ∈ out, q.view = b) ↔ ∃ p ∈ paths, Unfolds answers p.view b := by
  induction paths generalizing w out with
  | nil =>
    obtain ⟨rfl, rfl⟩ := Work.returns_pure.mp h
    exact ⟨hw, ((hr "").sound hw).grows, by simp⟩
  | cons p rest ih =>
    rw [branchesOfAll_cons] at h
    obtain ⟨own, w₁, hown, hrest⟩ := Work.returns_bind.mp h
    obtain ⟨others, w₂, hothers, hpure⟩ := Work.returns_bind.mp hrest
    obtain ⟨rfl, rfl⟩ := Work.returns_pure.mp hpure
    obtain ⟨hw₁, hgrows, hviews⟩ := ownBranches_spec hr hw (hpaths p List.mem_cons_self) hown
    obtain ⟨hw₂, hgrows', hviews'⟩ :=
      ih hw₁ (fun q hq => (hpaths q (List.mem_cons_of_mem _ hq)).grow hgrows) hothers
    refine ⟨hw₂, hgrows.trans hgrows', fun b => ?_⟩
    simp only [List.mem_append, or_and_right, exists_or, hviews b, hviews' b, List.mem_cons,
      exists_eq_left]

/-- **The final form of a value** holds the maps that one of its paths unfolds to.  It is the value
itself or has a number that was not given out before. -/
theorem final_spec (hr : ∀ holder, r.Serves holder I (answers holder)) (hw : I w)
    {v v' : Propagation} (hv : v.isTop = false) (hpaths : ∀ p ∈ v.toList, p.Held w)
    (h : (r.final v).Returns w v' w') :
    I w' ∧ w.manager.Grows w'.manager ∧ v'.isTop = false ∧
      (v' = v ∨ w.manager.pool.issued < v'.number) ∧
      ∀ b, (∃ q ∈ v'.toList, q.view = b) ↔ ∃ p ∈ v.toList, Unfolds answers p.view b := by
  unfold final at h
  by_cases hintermediate : v.isIntermediate = true
  · rw [if_pos hintermediate] at h
    obtain ⟨out, w₁, hout, hrest⟩ := Work.returns_bind.mp h
    obtain ⟨serial, w₂, hserial, hpure⟩ := Work.returns_bind.mp hrest
    obtain ⟨rfl, rfl⟩ := Work.returns_pure.mp hpure
    obtain ⟨m, hyields, rfl⟩ := Work.returns_managed.mp hserial
    obtain ⟨hw₁, hgrows, hviews⟩ := branchesOfAll_spec hr hw hpaths hout
    obtain ⟨hgrows', hfresh, _⟩ := Solver.nextSerial_spec ((hr "").sound hw₁) hyields
    refine ⟨(hr "").grows hw₁ hgrows', hgrows.trans hgrows', rfl,
      .inr (Nat.lt_of_le_of_lt hgrows.pool.issued hfresh), fun b => ?_⟩
    exact (Keyed.mem_ofList_keys PathValue.view
      (fun p _ q _ => PathValue.view_eq_of_key) b).trans (hviews b)
  · rw [if_neg hintermediate] at h
    obtain ⟨rfl, rfl⟩ := Work.returns_pure.mp h
    refine ⟨hw, ((hr "").sound hw).grows, hv, .inl rfl, fun b => ?_⟩
    have hsettled : ∀ p ∈ v.toList, p.isIntermediate = false := by
      simpa [Propagation.isIntermediate] using hintermediate
    constructor
    · rintro ⟨p, hp, hview⟩
      exact ⟨p, hp, (unfolds_of_settled (hsettled p hp)).mpr hview⟩
    · rintro ⟨p, hp, hunfolds⟩
      exact ⟨p, hp, (unfolds_of_settled (hsettled p hp)).mp hunfolds⟩

/-! ## What is asked for -/

/-- Extending branches asks for the references of the fields. -/
theorem asks_extendBranches (hr : ∀ holder, r.Serves holder I (answers holder)) (hw : I w)
    {entries : List (String × Option Value)} {branches : List PathValue}
    (hvalues : ∀ e ∈ entries, ∃ v, e.2 = some v ∧
      ∀ u ∈ Sequence.trailing v.sequence, w.manager.pool.Holds u) :
    r.Asks I (entries.flatMap fun e => Sequence.awaited e.1 ((e.2.bind Value.sequence).getD []))
      (r.extendBranches branches entries) w := by
  induction entries generalizing branches w with
  | nil => exact asks_nil Work.fails_pure
  | cons e rest ih =>
    obtain ⟨field, value⟩ := e
    obtain ⟨v, hv, hheld⟩ := hvalues _ List.mem_cons_self
    simp only at hv
    subst hv
    rw [List.flatMap_cons]
    refine (asks_finalValues (hr field) hw hheld).within.bind fun finals w₁ hfinals => ?_
    obtain ⟨hw₁, hgrows, _⟩ :=
      finalValues_resolutions (hr field) hw hheld (Work.returns_within.mp hfinals)
    refine ih hw₁ fun e he => ?_
    obtain ⟨v, hv, hheld⟩ := hvalues e (List.mem_cons_of_mem _ he)
    exact ⟨v, hv, fun u hu => (hheld u hu).mono hgrows.pool⟩

/-- The branches of a path ask for what it waits for. -/
theorem asks_ownBranches (hr : ∀ holder, r.Serves holder I (answers holder)) (hw : I w)
    {p : PathValue} (hheld : p.Held w) : r.Asks I p.awaited (r.ownBranches p) w := by
  unfold ownBranches
  by_cases hintermediate : p.isIntermediate = true
  · rw [if_pos hintermediate]
    exact (asks_extendBranches hr hw (held_pending hheld)).within
  · rw [if_neg hintermediate, PathValue.awaited,
      PathValue.pending_eq_nil (by simpa using hintermediate)]
    exact asks_nil Work.fails_pure

/-- The branches of the listed paths ask for what one of them waits for. -/
theorem asks_branchesOfAll (hr : ∀ holder, r.Serves holder I (answers holder)) (hw : I w)
    {paths : List PathValue} (hpaths : ∀ p ∈ paths, p.Held w) :
    r.Asks I (paths.flatMap PathValue.awaited) (r.branchesOfAll paths) w := by
  induction paths generalizing w with
  | nil => exact asks_nil Work.fails_pure
  | cons p rest ih =>
    have hheld := hpaths p List.mem_cons_self
    rw [branchesOfAll_cons, List.flatMap_cons]
    refine (asks_ownBranches hr hw hheld).bind fun own w₁ hown => ?_
    obtain ⟨hw₁, hgrows, _⟩ := ownBranches_spec hr hw hheld hown
    refine (ih hw₁ fun q hq => ?_).bind_nil fun _ _ _ => Work.fails_pure
    exact (hpaths q (List.mem_cons_of_mem _ hq)).grow hgrows

/-- **Finding the final form of a value asks for what its paths wait for.** -/
theorem asks_final (hr : ∀ holder, r.Serves holder I (answers holder)) (hw : I w) {v : Propagation}
    (hpaths : ∀ p ∈ v.toList, p.Held w) : r.Asks I v.awaited (r.final v) w := by
  unfold final
  by_cases hintermediate : v.isIntermediate = true
  · rw [if_pos hintermediate]
    refine (asks_branchesOfAll hr hw hpaths).bind_nil fun paths w₁ _ hfails => ?_
    obtain ⟨_, _, _, hpure⟩ := (Work.fails_bind.mp hfails).resolve_left Work.fails_managed
    exact Work.fails_pure hpure
  · rw [if_neg hintermediate]
    have hnil : v.awaited = [] := by
      rw [Propagation.awaited, List.flatMap_eq_nil_iff]
      intro p hp
      have hsettled : ∀ p ∈ v.toList, p.isIntermediate = false := by
        simpa [Propagation.isIntermediate] using hintermediate
      rw [PathValue.awaited, PathValue.pending_eq_nil (hsettled p hp)]
      rfl
    rw [hnil]
    exact asks_nil Work.fails_pure

end Resolver

end FieldFlow
