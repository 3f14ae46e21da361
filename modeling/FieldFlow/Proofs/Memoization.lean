import FieldFlow.Proofs.Agreement
import FieldFlow.Proofs.Recursion

/-!
# The table of final values

Final values are kept in a table, which calls fill in the middle of one another and leave partly
filled when they fail or are called off.  None of this shows.  The recursion without the table is
stated beside it; both solve objects in every state that calls lead to, so they fail for the same
objects and return values with the same keys.  What was returned once stays in the table, and a
final value waits for nothing, so it is its own final form.

Main definitions: `Solver.plain`, `Solver.runThrough`, `Solver.Reaches`.
Main results: `Solver.solving_plain`, `Solver.ready_of_reaches`, `Solver.memoization_transparent`.
-/

namespace FieldFlow

namespace Solver

variable {m : Model} {s : Solver} {past : List (Nat × Propagation)} {w w' w₀ w₁ : Workspace}

/-! ## Finalization without a table -/

/-- The final form of a value without the use of a table, while references may be followed `depth`
objects deep. -/
def plainWithin (s : Solver) : Nat → Propagation → Work Propagation
  | 0, _ => throw .tooDeep
  | depth + 1, v => (s.resolver (s.plainWithin depth)).final v

/-- The final form of a value without the use of a table. -/
def plain (s : Solver) (v : Propagation) : Work Propagation := s.plainWithin s.depth v

/-- Finalization without a table is the recursion without a bound on its depth. -/
theorem plain_eq_final (hw : w₀.Standard) (hbuild : (build m).Returns w₀ s w₁) {id : ObjectId}
    {v : Propagation} (hv : s.value? id = some v) : s.plain v = (s.resolver s.plain).final v := by
  cases v with
  | top => rfl
  | paths serial members =>
    have hrank := rank_lt_depth hbuild id
    calc s.plain (.paths serial members)
        = s.plainWithin (s.depth + 1) (.paths serial members) :=
          depth_irrelevant (fun f v => (s.resolver f).final v) (fun _ _ => rfl)
            (fun hv htop _ _ h => final_congr_lower hw hbuild hv htop h) hv rfl hrank (by omega)
      _ = (s.resolver s.plain).final (.paths serial members) := rfl

/-- Finalization without a table gives final values. -/
theorem finalizes_plainWithin (hbuild : (build m).Returns w₀ s w₁) (depth : Nat) :
    Finalizes m s (s.plainWithin depth) := by
  induction depth with
  | zero =>
    refine ⟨fun _ _ h => absurd h Work.returns_throw, fun hw _ h => ?_⟩
    obtain rfl := Work.stops_throw.mp h
    exact hw
  | succ depth ih => exact finalizes_final hbuild ih

/-- Finalization without a table completes for the objects of a rank below its depth. -/
theorem completes_plainWithin (hbuild : (build m).Returns w₀ s w₁) (depth : Nat) :
    Completes m s (s.plainWithin depth) depth := by
  induction depth with
  | zero => exact fun _ _ hrank _ => absurd hrank (Nat.not_lt_zero _)
  | succ depth ih => exact completes_final hbuild (finalizes_plainWithin hbuild depth) ih

/-- **Finalization without a table solves objects.** -/
theorem solving_plain (hbuild : (build m).Returns w₀ s w₁) : Solving m s s.plain := by
  refine ⟨finalizes_plainWithin hbuild s.depth, fun hw hlookup hfails => ?_, fun hw => ?_⟩
  · exact completes_plainWithin hbuild s.depth hw hlookup (rank_lt_depth hbuild _) hfails
  · exact ⟨_, Work.returns_pure.mpr ⟨rfl, rfl⟩, hw.advances_counts _ _ _ _⟩

/-! ## What the table keeps -/

/-- A value that was finalized is in the table. -/
theorem finals_of_returns {v v' : Propagation} (hv : v.isTop = false)
    (h : (s.finalize v).Returns w v' w') :
    (w'.finalsOf s.number).lookup v.number = some v' := by
  rcases (returns_finalizeUsing hv).mp h with ⟨hknown, rfl⟩ | ⟨_, w₂, _, rfl⟩
  · exact hknown
  · rw [finalsOf_keepFinal, if_pos rfl, lookup_cons_ite, if_pos rfl]

/-- A value that is in the table is returned from there. -/
theorem returns_of_finals {v v' : Propagation} (hv : v.isTop = false)
    (h : (w.finalsOf s.number).lookup v.number = some v') :
    ∃ w', (s.finalize v).Returns w v' w' := ⟨_, (returns_finalizeUsing hv).mpr (.inl ⟨h, rfl⟩)⟩

/-- A value that waits for nothing and is not in the table is its own final form. -/
theorem returns_of_settled {v : Propagation} (hv : v.isTop = false)
    (hsettled : v.isIntermediate = false) (h : (w.finalsOf s.number).lookup v.number = none) :
    ∃ w', (s.finalize v).Returns w v w' := by
  have hfinal :
      ∀ w', ((s.resolver (s.finalizeWithin s.values.length)).final v).Returns w' v w' := by
    intro w'
    rw [Resolver.final, if_neg (by simp [hsettled])]
    exact Work.returns_pure.mpr ⟨rfl, rfl⟩
  exact ⟨_, (returns_finalizeUsing hv).mpr (.inr ⟨h, _, hfinal _, rfl⟩)⟩

/-- **What was returned is returned again**, for the value as for its final form, as long as the
table loses nothing. -/
theorem returns_again (hbuild : (build m).Returns w₀ s w₁) (hw : Ready m s past w) {id : ObjectId}
    {v v' : Propagation} (hv : s.value? id = some v) (h : (s.finalize v).Returns w v' w')
    {w₂ : Workspace} (hw₂ : Ready m s (w'.finalsOf s.number) w₂) :
    (∃ w₃, (s.finalize v).Returns w₂ v' w₃) ∧ ∃ w₃, (s.finalize v').Returns w₂ v' w₃ := by
  rcases (value_cases hbuild hv).2 with ⟨_, rfl⟩ | ⟨_, hnotTop, hlookup⟩
  · obtain ⟨_, hreturns, _⟩ := (solving_finalize hbuild).top hw.standard
    obtain ⟨w₃, hagain, _⟩ := (solving_finalize hbuild).top hw₂.standard
    obtain ⟨rfl, _⟩ := h.unique hreturns
    exact ⟨⟨w₃, hagain⟩, ⟨w₃, hagain⟩⟩
  · have hkept : (w₂.finalsOf s.number).lookup v.number = some v' :=
      hw₂.past _ _ (finals_of_returns hnotTop h)
    obtain ⟨hfinal, hlater⟩ := hw₂.table id v hlookup v' hkept
    refine ⟨returns_of_finals hnotTop hkept, ?_⟩
    rcases hlater with rfl | hlater
    · exact returns_of_finals hnotTop hkept
    · -- a final form that is new has a number that no value of an object has
      exact returns_of_settled hfinal.notTop hfinal.settled
        (hw₂.later _ (mem_of_lookup hlookup) _ hlater)

/-! ## Calls -/

/-- Finalizes the objects in the given order, and is called off once so many are done. -/
def runThrough (s : Solver) (order : List ObjectId) (allowed : Nat) : Work Result := do
  let result ← s.visitAll .empty (order.take allowed)
  if allowed < order.length then throw .canceled else return result

/-- Runs are those of the solver, and those that take the objects in another order or are called off
on the way. -/
inductive IsRun (s : Solver) : Work Result → Prop
  | whole (canceled : Bool) : IsRun s (s.run canceled)
  | ordered {order : List ObjectId} (horder : order.Perm s.ids) (allowed : Nat) :
      IsRun s (s.runThrough order allowed)

/-- A run takes the objects in their order, and may be called off before the first. -/
theorem run_eq_runThrough (s : Solver) (canceled : Bool) :
    s.run canceled = s.runThrough s.ids (if canceled then 0 else s.ids.length) := by
  unfold run runThrough
  cases canceled with
  | false => simp
  | true => cases s.ids <;> simp [visitAll]

/-- Every run takes the objects in some order. -/
theorem IsRun.exists_order {x : Work Result} (hx : s.IsRun x) :
    ∃ order allowed, order.Perm s.ids ∧ x = s.runThrough order allowed := by
  cases hx with
  | whole canceled => exact ⟨s.ids, _, .refl _, run_eq_runThrough s canceled⟩
  | ordered horder allowed => exact ⟨_, allowed, horder, rfl⟩

/-- A run that returns has visited all objects. -/
theorem visitAll_of_runThrough {order : List ObjectId} {allowed : Nat} {r : Result}
    (h : (s.runThrough order allowed).Returns w r w') :
    (s.visitAll .empty order).Returns w r w' := by
  obtain ⟨result, w₂, hvisit, hrest⟩ := Work.returns_bind.mp h
  by_cases hallowed : allowed < order.length
  · rw [if_pos hallowed] at hrest
    exact absurd hrest Work.returns_throw
  · rw [if_neg hallowed] at hrest
    obtain ⟨rfl, rfl⟩ := Work.returns_pure.mp hrest
    rwa [List.take_of_length_le (by omega)] at hvisit

/-- A run that stops has visited some of the objects and maybe stopped at the next one. -/
theorem visitAll_of_stops {order : List ObjectId} {allowed : Nat}
    (h : (s.runThrough order allowed).Stops w w') :
    (∃ r, (s.visitAll .empty (order.take allowed)).Returns w r w') ∨
      (s.visitAll .empty (order.take allowed)).Stops w w' := by
  rcases Work.stops_bind.mp h with hstops | ⟨r, w₂, hvisit, hrest⟩
  · exact .inr hstops
  · left
    by_cases hallowed : allowed < order.length
    · rw [if_pos hallowed] at hrest
      obtain rfl := Work.stops_throw.mp hrest
      exact ⟨r, hvisit⟩
    · rw [if_neg hallowed] at hrest
      exact absurd hrest.fails Work.fails_pure

/-- One call leads from the first state to the second: the value of an object is finalized or not, a
run completes or stops, or something else uses the pool and the log. -/
inductive Call (s : Solver) : Workspace → Workspace → Prop
  | finalized {id : ObjectId} {v v' : Propagation} {w w' : Workspace} (hv : s.value? id = some v)
      (h : (s.finalize v).Returns w v' w') : Call s w w'
  | failed {id : ObjectId} {v : Propagation} {w w' : Workspace} (hv : s.value? id = some v)
      (h : (s.finalize v).Stops w w') : Call s w w'
  | completed {x : Work Result} {r : Result} {w w' : Workspace} (hx : s.IsRun x)
      (h : x.Returns w r w') :
      Call s w w'
  | stopped {x : Work Result} {w w' : Workspace} (hx : s.IsRun x) (h : x.Stops w w') : Call s w w'
  | other {w w' : Workspace} (h : w.Advances w') : Call s w w'

/-- Calls lead from the first state to the second. -/
def Reaches (s : Solver) : Workspace → Workspace → Prop := Relation.ReflTransGen s.Call

theorem ready_of_call (hbuild : (build m).Returns w₀ s w₁) (hw : Ready m s past w)
    (h : s.Call w w') :
    Ready m s past w' := by
  have hhas : ∀ {order : List ObjectId}, order.Perm s.ids → ∀ id ∈ order, m.Has id :=
    fun horder id hid =>
      (mem_ids hbuild).mp (horder.mem_iff.mp hid)
  cases h with
  | finalized hv h => exact ((solving_finalize hbuild).returns hbuild hw hv h).1
  | failed hv h => exact (solving_finalize hbuild).stops hbuild hw hv h
  | completed hx h =>
    obtain ⟨order, allowed, horder, rfl⟩ := hx.exists_order
    exact ready_of_visitAll hbuild hw (hhas horder) (.inl ⟨_, visitAll_of_runThrough h⟩)
  | stopped hx h =>
    obtain ⟨order, allowed, horder, rfl⟩ := hx.exists_order
    exact ready_of_visitAll hbuild hw (fun id hid => hhas horder id (List.mem_of_mem_take hid))
      (visitAll_of_stops h)
  | other h => exact hw.mono h

/-- **Calls keep the solver ready.** -/
theorem ready_of_reaches (hbuild : (build m).Returns w₀ s w₁) (hw : Ready m s past w)
    (h : s.Reaches w w') :
    Ready m s past w' := by
  induction h with
  | refl => exact hw
  | tail _ hcall ih => exact ready_of_call hbuild ih hcall

/-! ## The table does not show -/

/-- **The table of final values and the order of calls do not show.**  Take any two states that
calls lead to from the built solver, whatever the pool held before: finalizations that return or
fail, runs in any order that complete, fail or are called off.  The built values are still those of
the objects.  Finalizing the value of an object fails in one state exactly if the recursion without
a table fails in the other; what it returns has the keys that the recursion gives; after any further
calls it returns the same again, and so does finalizing what it returned.  Runs that complete give
the same objects, of which the same are top and the others have the same path keys. -/
theorem memoization_transparent (hw : w₀.Standard) (hbuild : (build m).Returns w₀ s w₁)
    {w u : Workspace} (hreaches : s.Reaches w₁ w) (hreaches' : s.Reaches w₁ u) :
    AreObjects w m.objects.reverse s.values ∧
    (∀ id v, s.value? id = some v →
      s.plain v = (s.resolver s.plain).final v ∧
      ((s.finalize v).Fails w ↔ (s.plain v).Fails u) ∧
      ∀ v' w', (s.finalize v).Returns w v' w' →
        (∃ p u', (s.plain v).Returns u p u' ∧ v'.SameKeys p) ∧
        ∀ w₂, s.Reaches w' w₂ →
          (∃ w₃, (s.finalize v).Returns w₂ v' w₃) ∧ ∃ w₃, (s.finalize v').Returns w₂ v' w₃) ∧
    ∀ x y, s.IsRun x → s.IsRun y → ∀ r w' r' u', x.Returns w r w' → y.Returns u r' u' →
      r.Matches r' := by
  have hready := ready_of_reaches hbuild (ready_of_build hw hbuild) hreaches
  have hready' := ready_of_reaches hbuild (ready_of_build hw hbuild) hreaches'
  have hfinalize := solving_finalize hbuild
  have hplain := solving_plain hbuild
  refine ⟨hready.objects,
    fun id v hv => ⟨plain_eq_final hw hbuild hv, ?_, fun v' w' hreturns => ⟨?_, ?_⟩⟩, ?_⟩
  · rw [hfinalize.fails_iff hbuild hready hv, hplain.fails_iff hbuild hready' hv]
  · obtain ⟨_, hsolves⟩ := hfinalize.returns hbuild hready hv hreturns
    have hnot : ¬ (s.plain v).Fails u := by
      rw [hplain.fails_iff hbuild hready' hv, ← hfinalize.fails_iff hbuild hready hv]
      exact hreturns.not_fails
    obtain ⟨p, u', hp⟩ := (Work.returns_or_fails (s.plain v) u).resolve_right hnot
    exact ⟨p, u', hp, hsolves.sameKeys (hplain.returns hbuild hready' hv hp).2 (.refl m id)⟩
  · intro w₂ hlater
    obtain ⟨hw', _⟩ := hfinalize.returns hbuild hready hv hreturns
    exact returns_again hbuild hready hv hreturns (ready_of_reaches hbuild hw'.refresh hlater)
  · intro x y hx hy r w' r' u' hreturns hreturns'
    obtain ⟨order, allowed, horder, rfl⟩ := hx.exists_order
    obtain ⟨order', allowed', horder', rfl⟩ := hy.exists_order
    have hhas : ∀ id ∈ order, m.Has id := fun id hid => (mem_ids hbuild).mp (horder.mem_iff.mp hid)
    exact matches_of_visitAll hbuild hready hbuild hready'
      (fun id => horder.mem_iff.trans horder'.mem_iff.symm)
        (fun id hid => ⟨hhas id hid, hhas id hid⟩)
      (fun id _ => .refl m id) (visitAll_of_runThrough hreturns) (visitAll_of_runThrough hreturns')

/-- After a run, finalizing an object returns the path keys that the recursion without a table gives
before it, and finalizing what it returned gives the same value. -/
theorem memoization_transparent_removal : ∃ s w₁ r w₂ v v' w₃ p u,
    (build removal).Returns (Workspace.standard true) s w₁ ∧ (s.run false).Returns w₁ r w₂ ∧
    s.value? ⟨"user", "exit"⟩ = some v ∧ (s.finalize v).Returns w₂ v' w₃ ∧
      (s.plain v).Returns w₁ p u ∧
    v'.SameKeys p ∧ ∃ w₄, (s.finalize v').Returns w₃ v' w₄ := by
  have hw := Workspace.standard_standard
  have hfoldable : removal.Foldable := by unfold Model.Foldable; decide
  obtain ⟨s, w₁, hbuild⟩ := (follows_build hw removal).exists_returns (by decide)
  obtain ⟨r, w₂, hrun⟩ := exists_returns_run hw hbuild hfoldable
  have hhas : removal.Has ⟨"user", "exit"⟩ := List.mem_map.mp (by decide)
  obtain ⟨v, hv⟩ := exists_value hbuild hhas
  have hreaches : s.Reaches w₁ w₂ := .single (.completed (.whole false) hrun)
  obtain ⟨_, hvalues, _⟩ := memoization_transparent hw hbuild hreaches .refl
  obtain ⟨_, hfails, hreturns⟩ := hvalues _ v hv
  have hnot : ¬ (s.finalize v).Fails w₂ := fun hfails' => not_stuck_of_foldable hfoldable
    (((solving_plain hbuild).fails_iff hbuild (ready_of_build hw hbuild) hv).mp
      (hfails.mp hfails')).2
  obtain ⟨v', w₃, hfinal⟩ := (Work.returns_or_fails _ _).resolve_right hnot
  obtain ⟨⟨p, u, hp, hsame⟩, hagain⟩ := hreturns v' w₃ hfinal
  exact ⟨s, w₁, r, w₂, v, v', w₃, p, u, hbuild, hrun, hv, hfinal, hp, hsame, (hagain w₃ .refl).2⟩

end Solver

end FieldFlow
