import FieldFlow.Proofs.Finalization
import Mathlib.Data.Finset.Card

/-!
# Finalization completes

Objects that are not on reference cycles are ranked by the number of objects that chains of
references lead to.  Whatever an object waits for was written in one of its operations, so the
objects that finalization asks for have a smaller rank.  Finalization therefore never goes deeper
than there are objects, and it fails for the objects that are stuck and for no others.  Where every
reference is folded in by a known action there are none.

Main definitions: `Model.rank`, `Model.Foldable`, `Solver.Completes`.
Main results: `Model.rank_lt`, `Solver.completes_final`,
`Solver.completes_finalizeWithin`.
-/

namespace FieldFlow

/-! ## Ranks -/

namespace Model

open Relation

variable {m : Model} {a b : ObjectId}

open Classical in
/-- The number of objects that chains of references lead to. -/
noncomputable def rank (m : Model) (id : ObjectId) : Nat :=
  ((m.objects.map Object.id).toFinset.filter fun b => TransGen m.Refers id b).card

/-- **References lower the rank**, unless they lead to an object on a cycle. -/
theorem rank_lt (href : m.Refers a b) (hb : m.Has b) (hcycle : ¬ m.OnCycle b) :
    m.rank b < m.rank a := by
  classical
  -- `a` leads to all that `b` leads to, and to `b`, which does not lead back to itself
  refine Finset.card_lt_card (Finset.ssubset_iff_of_subset ?_ |>.mpr ⟨b, ?_, ?_⟩)
  · exact Finset.monotone_filter_right _ fun c _ hc => .head href hc
  · exact Finset.mem_filter.mpr ⟨List.mem_toFinset.mpr (List.mem_map.mpr hb), .single href⟩
  · exact fun hmem => hcycle (Finset.mem_filter.mp hmem).2

/-- There are at most as many ranks as objects. -/
theorem rank_le (m : Model) (id : ObjectId) : m.rank id ≤ m.objects.length := by
  classical
  calc m.rank id ≤ (m.objects.map Object.id).toFinset.card := Finset.card_filter_le _ _
    _ ≤ (m.objects.map Object.id).length := List.toFinset_card_le _
    _ = m.objects.length := List.length_map _

/-- An object that is not on a cycle has a smaller rank than there are distinct objects. -/
theorem rank_lt_card (ha : m.Has a) (hcycle : ¬ m.OnCycle a) :
    m.rank a < (m.objects.map Object.id).toFinset.card := by
  classical
  refine Finset.card_lt_card
    (Finset.ssubset_iff_of_subset (Finset.filter_subset _ _) |>.mpr ⟨a, ?_, ?_⟩)
  · exact List.mem_toFinset.mpr (List.mem_map.mpr ha)
  · exact fun hmem => hcycle (Finset.mem_filter.mp hmem).2

/-- Every reference is folded in by a known action. -/
def Foldable (m : Model) : Prop :=
  ∀ o ∈ m.objects, ∀ path ∈ o.paths, ∀ f ∈ path.fields, ∀ op ∈ f.ops, ∀ target ∈ op.ref,
    target.effectiveOp ∈ ["add", "remove", "clear", "replace"]

end Model

/-! ## What values wait for -/

namespace Solver

open Resolver (Refuses)

variable {refused : Ref → Prop}

/-- A composition has no references but those of its parts. -/
theorem not_refuses_comp {a b : Instance} (ha : ¬ Refuses refused (a.body.sequence.getD []))
    (hb : ¬ Refuses refused (b.body.sequence.getD [])) :
    ¬ Refuses refused ((a.comp b).body.sequence.getD []) := by
  unfold Instance.comp
  split
  · exact hb
  split
  · exact hb
  split
  · exact ha
  · have hmerge := Resolver.refuses_merge.not.mpr (not_or.mpr ⟨ha, hb⟩)
    exact hmerge

/-- An operation makes no reference but the one to its target. -/
theorem not_refuses_bodies {f : Model.Field} {op : Model.Op} {bodies : List Transformer}
    (h : bodies? f op = some bodies)
    (hop : ∀ target, op.ref = some target → ¬ refused (refOf f target)) :
    ∀ body ∈ bodies, ¬ Refuses refused (body.sequence.getD []) := by
  intro body hbody
  cases href : op.ref with
  | some target =>
    obtain ⟨_, rfl⟩ := bodies?_ref href h
    obtain rfl := List.mem_singleton.mp hbody
    simpa [Refuses, Transformer.draft, Sequence.ofRefs] using hop target href
  | none =>
    obtain ⟨_, _, hplains, _⟩ := bodies?_literal href h
    rw [(hplains body hbody).sequence]
    simp [Refuses]

/-- Composing adds no references but those of the parts. -/
theorem not_refuses_compAll {c : Instance} {bodies : List Transformer}
    (hc : ¬ Refuses refused (c.body.sequence.getD []))
    (hbodies : ∀ body ∈ bodies, ¬ Refuses refused (body.sequence.getD [])) :
    ¬ Refuses refused ((c.compAll bodies).body.sequence.getD []) := by
  induction bodies generalizing c with
  | nil => exact hc
  | cons body rest ih =>
    exact ih (not_refuses_comp hc (hbodies body List.mem_cons_self))
      fun body' hbody' => hbodies body' (List.mem_cons_of_mem _ hbody')

/-- Operations that are composed add no references but those to their targets. -/
theorem not_refuses_composed {f : Model.Field} {ops : List Model.Op} {c made : Instance}
    (h : composed? f c ops = some made) (hc : ¬ Refuses refused (c.body.sequence.getD []))
    (hops : ∀ op ∈ ops, ∀ target, op.ref = some target → ¬ refused (refOf f target)) :
    ¬ Refuses refused (made.body.sequence.getD []) := by
  induction ops generalizing c with
  | nil =>
    cases h
    exact hc
  | cons op rest ih =>
    obtain ⟨bodies, hbodies, hrest⟩ := Option.bind_eq_some_iff.mp h
    exact ih hrest
      (not_refuses_compAll hc (not_refuses_bodies hbodies (hops op List.mem_cons_self)))
      fun op' hop' => hops op' (List.mem_cons_of_mem _ hop')

/-- **The references of a field** that is built are those of its operations. -/
theorem not_refuses_valueOf {f : Model.Field} {v : Value} (h : valueOf? f = some v)
    (hops : ∀ op ∈ f.ops, ∀ target, op.ref = some target → ¬ refused (refOf f target)) :
    ¬ Refuses refused (v.sequence.getD []) := by
  obtain ⟨made, hmade, hpure⟩ := Option.bind_eq_some_iff.mp h
  cases hpure
  have hmadeNot := not_refuses_composed hmade
    (by simp [Refuses, Instance.canonical, Transformer.blank, Transformer.draft]) hops
  by_cases hclear : made.body.clear = true
  · rwa [Resolver.refuses_on_of_clear hclear]
  · rw [Resolver.refuses_on (by simpa using hclear), not_or]
    exact ⟨by simp [Refuses, Value.draft], hmadeNot⟩

/-- What a field waits for was written in one of its operations. -/
theorem written_of_valueOf {f : Model.Field} {v : Value} (h : valueOf? f = some v)
    {step : Step Transformer} (hstep : step ∈ v.sequence.getD []) {ref : Ref}
    (href : step.ref = some ref) :
    ∃ op ∈ f.ops, ∃ target ∈ op.ref, ref = refOf f target := by
  by_contra hnot
  -- otherwise the value would have a reference that no operation makes
  have hwritten : ¬ Refuses (fun r => ¬ ∃ op ∈ f.ops, ∃ target ∈ op.ref, r = refOf f target)
      (v.sequence.getD []) :=
    not_refuses_valueOf h fun op hop target htarget hno => hno ⟨op, hop, target, htarget, rfl⟩
  exact hwritten ⟨step, hstep, ref, href, hnot⟩

variable {m : Model} {id : ObjectId} {holder : String} {ref : Ref}

/-- **What an object waits for** was written in one of its operations. -/
theorem Waits.written (h : Waits m id holder ref) : ∃ o ∈ m.objects, o.id = id ∧ ∃ path ∈ o.paths,
    ∃ f ∈ path.fields, ∃ op ∈ f.ops, ∃ target ∈ op.ref, ref = refOf f target := by
  obtain ⟨o, ho, path, hpath, f, v, hdeclared, hv, step, hstep, href⟩ := h
  refine ⟨o, List.mem_reverse.mp (List.mem_of_find?_eq_some ho), by simpa using List.find?_some ho,
    path, hpath, f, List.mem_reverse.mp (List.mem_of_find?_eq_some hdeclared), ?_⟩
  exact written_of_valueOf hv hstep href

theorem Waits.refers (h : Waits m id holder ref) : m.Refers id ref.target := by
  obtain ⟨o, ho, hid, path, hpath, f, hf, op, hop, target, htarget, rfl⟩ := h.written
  exact ⟨o, ho, hid, path, hpath, f, hf, op, hop, target, htarget, rfl⟩

/-- No object is stuck if every reference is folded in by a known action. -/
theorem not_stuck_of_foldable (hm : m.Foldable) : ¬ Stuck m id := by
  intro hstuck
  induction hstuck with
  | contents hwaits hcycle hrejects =>
    obtain ⟨o, ho, _, path, hpath, f, hf, op, hop, target, htarget, rfl⟩ := hwaits.written
    obtain ⟨b, members, x, hfinal, hcontent, hx, hrefused⟩ := hrejects
    -- a known action refuses nothing but nil, which final paths do not hold
    have hact : ∃ act, Direct.effect? (refOf f target).op ∅ = some act := by
      have hknown : (refOf f target).op ∈ ["add", "remove", "clear", "replace"] :=
        hm o ho path hpath f hf op hop target htarget
      simp only [List.mem_cons, List.not_mem_nil, or_false] at hknown
      rcases hknown with heq | heq | heq | heq <;> exact ⟨_, by rw [heq]; rfl⟩
    obtain ⟨act, hact⟩ := hact
    obtain ⟨body, hbody⟩ := Factory.literalBody?_isSome (x := x) hact fun heq =>
      hfinal.nil_notMem _ _ hcontent (heq ▸ hx)
    cases hrefused.symm.trans hbody
  | target _ _ _ _ ih => exact ih

/-! ## Finalization -/

variable {s : Solver} {past : List (Nat × Propagation)} {w : Workspace}
  {finalize : Propagation → Work Propagation} {n : Nat}

/-- Of the objects of a rank below `n`, finalization fails only for those that are stuck. -/
def Completes (m : Model) (s : Solver) (finalize : Propagation → Work Propagation) (n : Nat) :
    Prop :=
  ∀ {past w id v}, Ready m s past w → s.values.lookup id = some v → m.rank id < n →
    (finalize v).Fails w →
    Stuck m id

section Built

variable {w₀ w₁ : Workspace} (hbuild : (build m).Returns w₀ s w₁)

include hbuild

/-- **Finding the final form of an object's value** fails only if the object is stuck, if that is so
for the objects of smaller rank. -/
theorem completes_final (hfinalize : Finalizes m s finalize)
    (hcompletes : Completes m s finalize n) :
    Completes m s (s.resolver finalize).final (n + 1) := by
  intro past w id v hw hlookup hrank hfails
  obtain ⟨o, views, ho, hviews, hobject⟩ := hw.objects.of_lookup hlookup
  obtain ⟨w', hstops⟩ := hfails.exists_stops
  obtain ⟨⟨holder, ref⟩, hasked, hloses⟩ :=
    (Resolver.asks_final (serves_resolver hbuild hfinalize) hw hobject.held).stops hstops
  have hwaits : Waits m id holder ref := (hobject.mem_awaited ho hviews).mp hasked
  refine stuck_iff.mpr ⟨holder, ref, hwaits, ?_⟩
  rcases (ready_of_loses hbuild hfinalize hloses).2 with hrefused |
    ⟨hhas, hcycle, u, w₂, hw₂, hlookup', hfails'⟩
  · exact hrefused
  · -- what the value waits for was written in the object, so it has a smaller rank
    have hlt : m.rank ref.target < n := by
      have hlower := Model.rank_lt hwaits.refers hhas hcycle
      omega
    exact ⟨hhas, hcycle, .inl (hcompletes hw₂ hlookup' hlt hfails')⟩

/-- **Finalizing one object** fails only if it is stuck, if that is so for the objects of smaller
rank. -/
theorem completes_finalizeUsing (hfinalize : Finalizes m s finalize)
    (hcompletes : Completes m s finalize n) :
    Completes m s (s.finalizeUsing finalize) (n + 1) := by
  intro past w id v hw hlookup hrank hfails
  obtain ⟨_, _, _, _, hobject⟩ := hw.objects.of_lookup hlookup
  obtain ⟨w', hstops⟩ := hfails.exists_stops
  obtain ⟨_, hfinal⟩ := (stops_finalizeUsing hobject.notTop).mp hstops
  exact completes_final hbuild hfinalize hcompletes (hw.mono (hw.standard.advances_counts _ _ _ _))
    hlookup hrank
    hfinal.fails

/-- **Finalization completes** for every object of a rank below the depth to which it follows
references, unless the object is stuck. -/
theorem completes_finalizeWithin (depth : Nat) : Completes m s (s.finalizeWithin depth) depth := by
  induction depth with
  | zero => exact fun _ _ hrank _ => absurd hrank (Nat.not_lt_zero _)
  | succ depth ih => exact completes_finalizeUsing hbuild (finalizes_finalizeWithin hbuild depth) ih

/-- The depth allows for one more than there are ranks. -/
theorem rank_lt_depth (id : ObjectId) : m.rank id < s.depth := by
  have hlength : s.values.length = m.objects.length := by
    simpa using congrArg List.length (build_shape hbuild).1
  have hrank := m.rank_le id
  unfold depth
  omega

end Built

end Solver

end FieldFlow
