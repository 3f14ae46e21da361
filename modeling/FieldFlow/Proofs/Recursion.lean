import FieldFlow.Proofs.Runs

/-!
# How finalization recurs

Finalizing a value asks for the final forms of the values that its references lead to, and for no
others.  An object that is not on a reference cycle has a larger rank than the objects that it
refers to, so the values that are asked for belong to objects of smaller and smaller rank.  No value
is asked for while its own finalization is in progress, there are never more finalizations in
progress than objects, and the depth to which finalization follows references is no restriction.

Calls are told apart by what they do: a computation that makes no call for a value is the same
whatever is done for that value.

Main definitions: `Resolver.Agree`, `Solver.AsksOnly`, `Solver.watched`.
Main results: `Resolver.final_congr`, `Solver.asksOnly_lower`, `Solver.depth_irrelevant`,
`Solver.watched_eq_finalize`, `Solver.finalization_descends`.
-/

namespace FieldFlow

/-! ## Resolvers that agree -/

namespace Resolver

/-- The resolvers do the same for the listed references. -/
def Agree (r r' : Resolver) (asked : List (String × Ref)) : Prop :=
  ∀ q ∈ asked, r.lookup q.1 q.2 = r'.lookup q.1 q.2

variable {r r' : Resolver} {holder : String}

/-- Resolvers that agree on a list agree on a part of it. -/
theorem Agree.mono {asked part : List (String × Ref)} (h : r.Agree r' asked)
    (hpart : ∀ q ∈ part, q ∈ asked) :
    r.Agree r' part := fun q hq => h q (hpart q hq)

theorem stepAlternatives_congr {step : Step Transformer}
    (h : r.Agree r' (Sequence.awaited holder [step])) :
    r.stepAlternatives holder step = r'.stepAlternatives holder step := by
  unfold stepAlternatives
  cases href : step.ref with
  | none => rfl
  | some ref =>
    have hlookup : r.lookup holder ref = r'.lookup holder ref :=
      h (holder, ref) (Sequence.mem_awaited.mpr ⟨rfl, step, List.mem_singleton_self _, href⟩)
    unfold lookup at hlookup
    dsimp only
    rw [hlookup]

/-- Replaying depends on the references of the steps only. -/
theorem replay_congr {steps : Sequence} {current : List (Option Transformer)}
    (h : r.Agree r' (Sequence.awaited holder steps)) :
    r.replay holder current steps = r'.replay holder current steps := by
  induction steps generalizing current with
  | nil => rfl
  | cons step rest ih =>
    rw [Sequence.awaited_cons] at h
    have hrest : ∀ l, r.replay holder l rest = r'.replay holder l rest := fun l =>
      ih (h.mono fun q hq => List.mem_append_right _ hq)
    simp only [replay, stepAlternatives_congr (h.mono fun q hq => List.mem_append_left _ hq), hrest]

/-- The final values depend on the references of the value only. -/
theorem finalValues_congr {v : Value}
    (h : r.Agree r' (Sequence.awaited holder (v.sequence.getD []))) :
    r.finalValues holder v = r'.finalValues holder v := by
  unfold finalValues sequenceTransformers
  cases hsequence : v.sequence with
  | none => rfl
  | some steps =>
    rw [hsequence] at h
    have hreplay : ∀ l, r.replay holder l steps = r'.replay holder l steps :=
      fun l => replay_congr h
    simp only [hreplay]

/-- Extending branches depends on the references of the fields only. -/
theorem extendBranches_congr {entries : List (String × Option Value)} {branches : List PathValue}
    (h : r.Agree r'
      (entries.flatMap fun e => Sequence.awaited e.1 ((e.2.bind Value.sequence).getD []))) :
    r.extendBranches branches entries = r'.extendBranches branches entries := by
  induction entries generalizing branches with
  | nil => rfl
  | cons e rest ih =>
    obtain ⟨field, value⟩ := e
    rw [List.flatMap_cons] at h
    have hrest : ∀ l, r.extendBranches l rest = r'.extendBranches l rest := fun l =>
      ih (h.mono fun q hq => List.mem_append_right _ hq)
    cases value with
    | none => exact hrest branches
    | some v =>
      have hvalue : r.finalValues field v = r'.finalValues field v :=
        finalValues_congr (h.mono fun q hq => List.mem_append_left _ hq)
      simp only [extendBranches, hvalue, hrest]

/-- The branches of a path depend on what it waits for only. -/
theorem ownBranches_congr {p : PathValue} (h : r.Agree r' p.awaited) :
    r.ownBranches p = r'.ownBranches p := by
  have hbranches : r.branches p = r'.branches p := extendBranches_congr h
  unfold ownBranches
  rw [hbranches]

/-- The branches of the listed paths depend on what the paths wait for only. -/
theorem branchesOfAll_congr {paths : List PathValue}
    (h : r.Agree r' (paths.flatMap PathValue.awaited)) :
    r.branchesOfAll paths = r'.branchesOfAll paths := by
  induction paths with
  | nil => rfl
  | cons p rest ih =>
    rw [List.flatMap_cons] at h
    rw [branchesOfAll_cons, branchesOfAll_cons,
      ownBranches_congr (h.mono fun q hq => List.mem_append_left _ hq),
      ih (h.mono fun q hq => List.mem_append_right _ hq)]

/-- **The final form of a value depends on what its paths wait for only.** -/
theorem final_congr {v : Propagation} (h : r.Agree r' v.awaited) : r.final v = r'.final v := by
  unfold final
  rw [branchesOfAll_congr h]

end Resolver

namespace Solver

/-! ## What is asked for -/

/-- Finalizing the value asks for the final forms of values that `asked` holds of, and of no others:
it makes no difference what is done for the others. -/
def AsksOnly (s : Solver) (v : Propagation) (asked : Propagation → Prop) : Prop :=
  ∀ f g : Propagation → Work Propagation, (∀ u, asked u → f u = g u) →
    s.finalizeUsing f v = s.finalizeUsing g v

variable {m : Model} {s : Solver} {w₀ w₁ : Workspace}

/-- Looking for the alternatives of a reference asks for the value that the reference leads to,
unless that is missing or top. -/
theorem lookup_congr {f g : Propagation → Work Propagation} {holder : String} {ref : Ref}
    (h : ∀ u, s.value? ref.target = some u → u.isTop = false → f u = g u) :
    (s.resolver f).lookup holder ref = (s.resolver g).lookup holder ref := by
  have hreach : (s.resolver f).reach ref.point ref.symbol =
      (s.resolver g).reach ref.point ref.symbol := by
    have hresult : ∀ e : Propagation → Work Propagation,
        (s.resolver e).resultAt ref.point ref.symbol = s.value? ref.target := fun _ => rfl
    unfold Resolver.reach
    rw [hresult, hresult]
    cases hvalue : s.value? ref.target with
    | none => rfl
    | some u =>
      by_cases hu : u.isTop = true
      · simp only [if_pos hu]
      · simp only [if_neg hu, resolver, h u hvalue (by simpa using hu)]
  unfold Resolver.lookup Resolver.alternatives
  rw [hreach]
  rfl

/-- Finalizing a value asks for nothing but what finding its final form asks for. -/
theorem finalizeUsing_congr {f g : Propagation → Work Propagation} {v : Propagation}
    (h : (s.resolver f).final v = (s.resolver g).final v) :
    s.finalizeUsing f v = s.finalizeUsing g v := by
  cases v with
  | top => rfl
  | paths serial members => simp only [finalizeUsing, h]

/-- The value belongs to an object of a rank below `n` that is not top. -/
def IsLower (m : Model) (s : Solver) (n : Nat) (v : Propagation) : Prop :=
  v.isTop = false ∧ ∃ id, s.value? id = some v ∧ m.rank id < n

/-- The value of an object that is not top was built for an object of the model that is not on a
cycle. -/
theorem of_value (hbuild : (build m).Returns w₀ s w₁) {id : ObjectId} {v : Propagation}
    (hv : s.value? id = some v) (htop : v.isTop = false) :
    m.Has id ∧ ¬ m.OnCycle id ∧ s.values.lookup id = some v := by
  obtain ⟨hhas, ⟨_, rfl⟩ | ⟨hcycle, _, hlookup⟩⟩ := value_cases hbuild hv
  · cases htop
  · exact ⟨hhas, hcycle, hlookup⟩

/-- **The final form of an object's value** depends on values of objects of smaller rank only. -/
theorem final_congr_lower (hw : w₀.Standard) (hbuild : (build m).Returns w₀ s w₁) {id : ObjectId}
    {v : Propagation} (hv : s.value? id = some v) (htop : v.isTop = false)
    {f g : Propagation → Work Propagation} (h : ∀ u, IsLower m s (m.rank id) u → f u = g u) :
    (s.resolver f).final v = (s.resolver g).final v := by
  obtain ⟨_, _, hlookup⟩ := of_value hbuild hv htop
  obtain ⟨o, views, ho, hviews, hobject⟩ := (ready_of_build hw hbuild).objects.of_lookup hlookup
  refine Resolver.final_congr fun q hq => lookup_congr fun u hvalue hu => ?_
  -- what the value waits for was written in the object
  have hwaits : Waits m id q.1 q.2 := (hobject.mem_awaited ho hviews).mp hq
  obtain ⟨hhas, hcycle, _⟩ := of_value hbuild hvalue hu
  exact h u ⟨hu, q.2.target, hvalue, Model.rank_lt hwaits.refers hhas hcycle⟩

/-- **Finalizing the value of an object asks for values of objects of smaller rank.** -/
theorem asksOnly_lower (hw : w₀.Standard) (hbuild : (build m).Returns w₀ s w₁) {id : ObjectId}
    {v : Propagation} (hv : s.value? id = some v) (htop : v.isTop = false) :
    s.AsksOnly v (IsLower m s (m.rank id)) :=
  fun _ _ h => finalizeUsing_congr (final_congr_lower hw hbuild hv htop h)

/-! ## Depth -/

/-- **The depth does not matter** for a recursion that asks for values of objects of smaller rank,
as long as it is above the rank of the object. -/
theorem depth_irrelevant (step : (Propagation → Work Propagation) → Propagation → Work Propagation)
    {within : Nat → Propagation → Work Propagation}
    (hwithin : ∀ n v, within (n + 1) v = step (within n) v)
    (hstep : ∀ {id v}, s.value? id = some v → v.isTop = false →
      ∀ f g : Propagation → Work Propagation,
      (∀ u, IsLower m s (m.rank id) u → f u = g u) → step f v = step g v)
    {n k : Nat} {id : ObjectId} {v : Propagation} (hv : s.value? id = some v)
    (htop : v.isTop = false)
    (hn : m.rank id < n) (hk : m.rank id < k) : within n v = within k v := by
  induction n generalizing k id v with
  | zero => omega
  | succ n ih =>
    obtain ⟨k, rfl⟩ : ∃ j, k = j + 1 := ⟨k - 1, by omega⟩
    rw [hwithin, hwithin]
    refine hstep hv htop _ _ fun u hlower => ?_
    obtain ⟨hu, id', hvalue, hlt⟩ := hlower
    exact ih hvalue hu (by omega) (by omega)

/-- **Finalization is the recursion without a bound on its depth.** -/
theorem finalize_eq_finalizeUsing (hw : w₀.Standard) (hbuild : (build m).Returns w₀ s w₁)
    {id : ObjectId} {v : Propagation} (hv : s.value? id = some v) :
    s.finalize v = s.finalizeUsing s.finalize v := by
  cases v with
  | top => rfl
  | paths serial members =>
    have hrank := rank_lt_depth hbuild id
    calc s.finalize (.paths serial members)
        = s.finalizeWithin (s.depth + 1) (.paths serial members) :=
          depth_irrelevant s.finalizeUsing (fun _ _ => rfl)
            (fun hv htop => asksOnly_lower hw hbuild hv htop) hv rfl
            hrank (by omega)
      _ = s.finalizeUsing s.finalize (.paths serial members) := rfl

/-! ## Finalization that is watched -/

/-- Finalization that watches itself: `active` lists the values whose finalization is in progress.
What is asked for while it is in progress, or beyond the given depth, is left to `other`. -/
def watched (s : Solver) (other : Propagation → Work Propagation) :
    Nat → List Propagation → Propagation → Work Propagation
  | 0, _, v => other v
  | depth + 1, active, v =>
    if active.any (Propagation.same v) then other v
    else s.finalizeUsing (s.watched other depth (v :: active)) v

/-- Values of objects that are the same instance have the same rank. -/
theorem rank_eq_of_same (hw : w₀.Standard) (hbuild : (build m).Returns w₀ s w₁) {id id' : ObjectId}
    {v u : Propagation} (hv : s.value? id = some v) (htop : v.isTop = false)
    (hu : s.value? id' = some u) (hutop : u.isTop = false) (hsame : v.same u = true) :
    m.rank id = m.rank id' := by
  obtain ⟨_, _, hlookup⟩ := of_value hbuild hv htop
  obtain ⟨_, _, hlookup'⟩ := of_value hbuild hu hutop
  have hnumber : v.number = u.number := by
    cases v <;> cases u <;> simp_all [Propagation.same, Propagation.number, Propagation.isTop]
  have heq :=
    (ready_of_build hw hbuild).objects.eq_of_number (mem_of_lookup hlookup) (mem_of_lookup hlookup')
      hnumber
  rw [(Prod.mk.inj heq).1]

/-- **No value is asked for while its finalization is in progress**, if the values in progress are
those of objects of larger rank. -/
theorem watched_eq_finalize (hw : w₀.Standard) (hbuild : (build m).Returns w₀ s w₁)
    {other : Propagation → Work Propagation} {n : Nat} {active : List Propagation} {id : ObjectId}
    {v : Propagation} (hv : s.value? id = some v) (htop : v.isTop = false) (hn : m.rank id < n)
    (hactive : ∀ a ∈ active, a.isTop = false ∧
      ∃ id', s.value? id' = some a ∧ m.rank id < m.rank id') :
    s.watched other n active v = s.finalize v := by
  induction n generalizing active id v with
  | zero => omega
  | succ n ih =>
    have hnew : ¬ active.any (Propagation.same v) = true := by
      intro hany
      obtain ⟨a, ha, hsame⟩ := List.any_eq_true.mp hany
      obtain ⟨hatop, id', ha', hlt⟩ := hactive a ha
      have heq := rank_eq_of_same hw hbuild hv htop ha' hatop hsame
      omega
    rw [watched, if_neg hnew, finalize_eq_finalizeUsing hw hbuild hv]
    refine asksOnly_lower hw hbuild hv htop _ _ fun u hlower => ?_
    obtain ⟨hu, id', hvalue, hlt⟩ := hlower
    -- the values in progress are now this one and those before it
    refine ih hvalue hu (by omega) fun a ha => ?_
    rcases List.mem_cons.mp ha with rfl | ha
    · exact ⟨htop, id, hv, hlt⟩
    · obtain ⟨hatop, id₂, ha₂, hlt₂⟩ := hactive a ha
      exact ⟨hatop, id₂, ha₂, by omega⟩

/-! ## Runs -/

/-- Finalizes the listed objects in order, by `finalize`. -/
def visitAllUsing (s : Solver) (finalize : Propagation → Work Propagation) (result : Result) :
    List ObjectId → Work Result
  | [] => pure result
  | id :: rest => do
    let final ← Work.within (.inObject id.text) (finalize ((s.value? id).getD .top))
    countObject final.size
    s.visitAllUsing finalize (result.put id final) rest

/-- A run in which objects are finalized by `finalize`. -/
def runUsing (s : Solver) (finalize : Propagation → Work Propagation) (canceled : Bool) :
    Work Result :=
  if canceled && !s.ids.isEmpty then throw .canceled else s.visitAllUsing finalize .empty s.ids

/-- Visiting objects asks for the final forms of their values. -/
theorem visitAllUsing_eq {finalize : Propagation → Work Propagation} {ids : List ObjectId}
    {result : Result}
    (h : ∀ id ∈ ids, finalize ((s.value? id).getD .top) = s.finalize ((s.value? id).getD .top)) :
    s.visitAllUsing finalize result ids = s.visitAll result ids := by
  induction ids generalizing result with
  | nil => rfl
  | cons id rest ih =>
    have hrest : ∀ r, s.visitAllUsing finalize r rest = s.visitAll r rest := fun _ =>
      ih fun i hi => h i (List.mem_cons_of_mem _ hi)
    simp only [visitAllUsing, visitAll, visit, h id List.mem_cons_self, hrest,
      bind_assoc, pure_bind]

/-- **Finalization descends.**  Whatever the model, if its values can be built then there is a rank
on the objects such that finalizing the value of an object that is not top asks for the final forms
of values of objects of smaller rank, and of nothing else.  So finalization is the recursion without
a bound on its depth; and if it is watched, it never asks for a value while that is in progress nor
for a value when as many finalizations are in progress as there are distinct objects, for a single
value as for whole runs. -/
theorem finalization_descends (hw : w₀.Standard) (hbuild : (build m).Returns w₀ s w₁) :
    ∃ rank : ObjectId → Nat,
      (∀ id v, s.value? id = some v → v.isTop = false →
        rank id < (m.objects.map Model.Object.id).toFinset.card ∧
        s.AsksOnly v fun u => u.isTop = false ∧ ∃ id', s.value? id' = some u ∧ rank id' < rank id) ∧
      (∀ id v, s.value? id = some v → s.finalize v = s.finalizeUsing s.finalize v) ∧
      ∀ other depth, (m.objects.map Model.Object.id).toFinset.card ≤ depth →
        (∀ id v, s.value? id = some v → s.watched other depth [] v = s.finalize v) ∧
        ∀ canceled, s.runUsing (s.watched other depth []) canceled = s.run canceled := by
  refine ⟨m.rank, fun id v hv htop => ?_, fun id v hv => finalize_eq_finalizeUsing hw hbuild hv,
    fun other depth hdepth => ?_⟩
  · obtain ⟨hhas, hcycle, _⟩ := of_value hbuild hv htop
    exact ⟨Model.rank_lt_card hhas hcycle, asksOnly_lower hw hbuild hv htop⟩
  · have hvalue : ∀ id v, s.value? id = some v → s.watched other depth [] v = s.finalize v := by
      intro id v hv
      by_cases htop : v.isTop = true
      · obtain rfl : v = .top := by cases v <;> simp_all [Propagation.isTop]
        -- an object that is top is an object, so there is room for one finalization
        have hhas : m.Has id := (value_cases hbuild hv).1
        have hpos : 0 < (m.objects.map Model.Object.id).toFinset.card :=
          Finset.card_pos.mpr ⟨id, List.mem_toFinset.mpr (List.mem_map.mpr hhas)⟩
        obtain ⟨n, rfl⟩ : ∃ n, depth = n + 1 := ⟨depth - 1, by omega⟩
        rfl
      · have htop : v.isTop = false := by simpa using htop
        obtain ⟨hhas, hcycle, _⟩ := of_value hbuild hv htop
        have hrank := Model.rank_lt_card hhas hcycle
        exact watched_eq_finalize hw hbuild hv htop (by omega) fun a ha =>
          absurd ha List.not_mem_nil
    refine ⟨hvalue, fun canceled => ?_⟩
    unfold runUsing run
    rw [visitAllUsing_eq]
    intro id hid
    obtain ⟨v, hv⟩ := exists_value hbuild ((mem_ids hbuild).mp hid)
    rw [hv]
    exact hvalue id v hv

/-- A model in which an object refers to a second one and to one that is missing, the second refers
to a third, which is listed twice, and a fourth refers to itself. -/
def chained : Model :=
  let refer (symbol : String) : Model.Op := ⟨"compose", [], some ⟨symbol, "exit", "", ""⟩⟩
  let add (value : String) : Model.Op := ⟨"add", [value], none⟩
  let object (symbol : String) (ops : List Model.Op) : Model.Object :=
    ⟨symbol, "exit", [⟨[⟨"paths", "", ops⟩]⟩]⟩
  ⟨"v1", [object "first" [refer "second", refer "missing"],
    object "second" [refer "third", add "b"],
    object "third" [add "c"], object "third" [add "d"], object "fourth" [refer "fourth"]]⟩

/-- Of the chained objects the first is not top, its finalization asks for values of smaller rank,
and four finalizations in progress are enough. -/
theorem finalization_descends_chained :
    ∃ s w₁, (build chained).Returns (Workspace.standard true) s w₁ ∧
    ∃ (rank : ObjectId → Nat) (v : Propagation), s.value? ⟨"first", "exit"⟩ = some v ∧
      v.isTop = false ∧
      rank ⟨"first", "exit"⟩ < 4 ∧
      (s.AsksOnly v fun u => u.isTop = false ∧ ∃ id', s.value? id' = some u ∧
        rank id' < rank ⟨"first", "exit"⟩) ∧
      s.finalize v = s.finalizeUsing s.finalize v ∧
      ∀ other, s.watched other 4 [] v = s.finalize v ∧
        ∀ canceled, s.runUsing (s.watched other 4 []) canceled = s.run canceled := by
  obtain ⟨s, w₁, hbuild⟩ :=
    (follows_build Workspace.standard_standard chained).exists_returns (by decide)
  obtain ⟨rank, hrank, hrecursion, hwatched⟩ :=
    finalization_descends Workspace.standard_standard hbuild
  have hcard : (chained.objects.map Model.Object.id).toFinset.card ≤ 4 := by decide
  -- nothing refers to the first object, so it is not on a cycle
  have hfirst : ¬ chained.OnCycle ⟨"first", "exit"⟩ := by
    intro hcycle
    obtain ⟨_, id, hlast⟩ := hcycle.references
    have hnone : ∀ entry ∈ chained.references, entry.2 ≠ ⟨"first", "exit"⟩ := by decide
    exact hnone _ hlast rfl
  have hhas : chained.Has ⟨"first", "exit"⟩ := List.mem_map.mp (by decide)
  obtain ⟨v, hv⟩ := exists_value hbuild hhas
  rcases (value_cases hbuild hv).2 with ⟨hcycle, _⟩ | ⟨_, htop, _⟩
  · exact absurd hcycle hfirst
  · obtain ⟨hlt, hasks⟩ := hrank _ v hv htop
    refine ⟨s, w₁, hbuild, rank, v, hv, htop, by omega, hasks, hrecursion _ v hv, fun other => ?_⟩
    exact ⟨(hwatched other 4 hcard).1 _ v hv, (hwatched other 4 hcard).2⟩

end Solver

end FieldFlow
