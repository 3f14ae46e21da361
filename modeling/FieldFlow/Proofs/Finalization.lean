import FieldFlow.Proofs.Settlement
import Mathlib.Data.List.Nodup

/-!
# Finalization

Finalization replays what was deferred, finalizes the objects that are referred to on demand, and
keeps final values in a table.  What it returns for an object is what the object comes to, and it
does not return anything for an object that is stuck.

The invariant says that the values built for the objects are as they were, that the table holds
final values only, and that nothing in it was replaced.  Finalization keeps it whether it returns or
fails, whatever the order in which the objects are asked for.

Main definitions: `Solver.Ready`, `Solver.Finalizes`.
Main results: `Solver.serves_resolver`, `Solver.finalizes_final`, `Solver.finalizes_finalizeWithin`.
-/

namespace FieldFlow

namespace Solver

variable {m : Model} {s : Solver} {past : List (Nat × Propagation)} {w w' : Workspace}
  {finalize : Propagation → Work Propagation}

/-! ## Runs in progress -/

/-- The number is larger than those of all values that were built. -/
def Later (s : Solver) (n : Nat) : Prop := ∀ entry ∈ s.values, entry.2.number < n

/-- The values are those that were built for the objects, what the solver's table holds for them is
final, nothing else is in it, and nothing that it held in the `past` was replaced. -/
structure Ready (m : Model) (s : Solver) (past : List (Nat × Propagation)) (w : Workspace) :
    Prop where
  standard : w.Standard
  begun : s.number < w.solvers
  objects : AreObjects w m.objects.reverse s.values
  table : ∀ id v, s.values.lookup id = some v →
    ∀ final, (w.finalsOf s.number).lookup v.number = some final →
      IsFinal m id final ∧ (final = v ∨ s.Later final.number)
  later : ∀ entry ∈ s.values, ∀ n, s.Later n → (w.finalsOf s.number).lookup n = none
  past : ∀ n final, past.lookup n = some final → (w.finalsOf s.number).lookup n = some final

/-- Finalization gives final values, and keeps the run ready whether it returns or fails. -/
structure Finalizes (m : Model) (s : Solver) (finalize : Propagation → Work Propagation) :
    Prop where
  returns : ∀ {past w w' id v v'}, Ready m s past w → s.values.lookup id = some v →
    (finalize v).Returns w v' w' →
      Ready m s past w' ∧ w.manager.Grows w'.manager ∧ IsFinal m id v' ∧
        (v' = v ∨ s.Later v'.number)
  stops : ∀ {past w w' id v}, Ready m s past w → s.values.lookup id = some v →
    (finalize v).Stops w w' →
    Ready m s past w'

/-- A run stays ready while instances are given out and the log is written. -/
theorem Ready.mono (hw : Ready m s past w) (h : w.Advances w') : Ready m s past w' := by
  have hfinals : w'.finalsOf s.number = w.finalsOf s.number := by
    rw [Workspace.finalsOf, h.finals]
    rfl
  refine ⟨hw.standard.mono h, Nat.lt_of_lt_of_le hw.begun h.solvers, hw.objects.mono h, ?_, ?_, ?_⟩
  · rw [hfinals]
    exact hw.table
  · rw [hfinals]
    exact hw.later
  · rw [hfinals]
    exact hw.past

/-- A run is ready with all that its table holds as the past. -/
theorem Ready.refresh (hw : Ready m s past w) : Ready m s (w.finalsOf s.number) w :=
  ⟨hw.standard, hw.begun, hw.objects, hw.table, hw.later, fun _ _ h => h⟩

theorem finalsOf_counted (w : Workspace) (requests n : Nat) :
    { w with requests := requests }.finalsOf n = w.finalsOf n := rfl

/-- What is kept for one solver changes no other table. -/
theorem finalsOf_keepFinal (w : Workspace) (solver serial n : Nat) (final : Propagation) :
    (w.keepFinal solver serial final).finalsOf n
      = if n = solver then (serial, final) :: w.finalsOf solver else w.finalsOf n := by
  unfold Workspace.keepFinal
  rw [Workspace.finalsOf, lookup_cons_ite]
  split
  · rfl
  · rename_i hne
    rw [lookup_filter_ne hne, Workspace.finalsOf]

/-- Values with the same number are the same. -/
theorem AreObjects.eq_of_number {objects : List Model.Object}
    {values : List (ObjectId × Propagation)} (h : AreObjects w objects values)
    {a b : ObjectId × Propagation} (ha : a ∈ values) (hb : b ∈ values)
    (hnumber : a.2.number = b.2.number) : a = b := by
  have hnodup : (values.map fun entry => entry.2.number).Nodup :=
    List.pairwise_map.mpr (h.numbers.imp Nat.ne_of_gt)
  exact List.inj_on_of_nodup_map hnodup ha hb hnumber

/-- A final value may enter the table, unless it held one in the past. -/
theorem Ready.record (hw : Ready m s past w) {id : ObjectId} {v final : Propagation}
    (hlookup : s.values.lookup id = some v) (hnone : past.lookup v.number = none)
    (hfinal : IsFinal m id final) (hlater : final = v ∨ s.Later final.number) :
    Ready m s past (w.keepFinal s.number v.number final) := by
  have hentry : (id, v) ∈ s.values := mem_of_lookup hlookup
  have htable : (w.keepFinal s.number v.number final).finalsOf s.number
      = (v.number, final) :: w.finalsOf s.number := by rw [finalsOf_keepFinal, if_pos rfl]
  refine ⟨⟨hw.standard.sound, hw.standard.factories, hw.standard.analyses, ?_⟩, hw.begun,
    ⟨hw.objects.each.imp ?_, hw.objects.numbers⟩, ?_, ?_, ?_⟩
  · intro n hn
    have hne : n ≠ s.number := Nat.ne_of_gt (Nat.lt_of_lt_of_le hw.begun hn)
    rw [finalsOf_keepFinal, if_neg hne]
    exact hw.standard.finals n hn
  · rintro o entry ⟨hid, views, hviews, hobject⟩
    exact ⟨hid, views, hviews, hobject.notTop, hobject.number, hobject.held, hobject.views⟩
  · intro id' v' hlookup' final' hfinal'
    rw [htable, lookup_cons_ite] at hfinal'
    -- a number belongs to one value only, so what was recorded for others stays
    by_cases hnumber : v'.number = v.number
    · obtain ⟨rfl, rfl⟩ :=
        Prod.mk.inj (hw.objects.eq_of_number (mem_of_lookup hlookup') hentry hnumber)
      rw [if_pos rfl] at hfinal'
      cases hfinal'
      exact ⟨hfinal, hlater⟩
    · rw [if_neg hnumber] at hfinal'
      exact hw.table id' v' hlookup' final' hfinal'
  · intro entry hentry' n hn
    have hlt : v.number < n := hn (id, v) hentry
    rw [htable, lookup_cons_ite, if_neg (by omega)]
    exact hw.later entry hentry' n hn
  · intro n final' hpast
    rw [htable, lookup_cons_ite, if_neg]
    · exact hw.past n final' hpast
    · rintro rfl
      cases hnone.symm.trans hpast

/-! ## References -/

/-- A reference to an unknown value has one alternative. -/
theorem answers_of_unknown {holder : String} {ref : Ref} {body : Transformer}
    (hunknown : ¬ m.Has ref.target ∨ m.OnCycle ref.target)
    (hbody : Factory.literalBody? "add" (Direct.top ref.type) = some body) :
    Direct.answers m holder ref = {some (.canonical body)} := by
  have hno : ∀ b, ¬ m.OnCycle ref.target → ¬ Direct.Final m ref.target b := by
    intro b hcycle hfinal
    exact hunknown.elim (fun hmissing => hmissing hfinal.has) hcycle
  ext c
  constructor
  · rintro (⟨_, hbody'⟩ | ⟨hcycle, hfinal, _⟩ | ⟨hcycle, hfinal, _, _, _⟩)
    · rw [hbody] at hbody'
      cases hbody'
      rfl
    · exact absurd hfinal (hno _ hcycle)
    · exact absurd hfinal (hno _ hcycle)
  · rintro rfl
    exact .unknown hunknown hbody

/-- There is a transformer for unknown values of every type. -/
theorem not_fails_top (hw : w.Standard) (type : String) :
    ¬ ((s.resolver finalize).top type).Fails w := by
  intro hfails
  have hnone := (Resolver.follows_top hw rfl type).fails.mp hfails
  have hadd : Direct.effect? "add" ∅ = some fun members => members ∪ ∅ := rfl
  obtain ⟨body, hbody⟩ := Factory.literalBody?_isSome hadd (Direct.top_ne_nil type)
  cases hnone.symm.trans hbody

section Built

variable {w₀ w₁ : Workspace} (hbuild : (build m).Returns w₀ s w₁)

include hbuild

/-- **What a reference reaches** is nothing if the object is missing or on a cycle, and else its
final value. -/
theorem reach_spec (hfinalize : Finalizes m s finalize) (hw : Ready m s past w) {ref : Ref}
    {found : Option Propagation}
    (h : ((s.resolver finalize).reach ref.point ref.symbol).Returns w found w') :
    Ready m s past w' ∧ w.manager.Grows w'.manager ∧
      ((found = none ∧ (¬ m.Has ref.target ∨ m.OnCycle ref.target)) ∨
        ∃ v, found = some v ∧ m.Has ref.target ∧ ¬ m.OnCycle ref.target ∧
          IsFinal m ref.target v) := by
  have hresult : (s.resolver finalize).resultAt ref.point ref.symbol = s.value? ref.target := rfl
  unfold Resolver.reach at h
  rw [hresult] at h
  rcases value?_cases hbuild ref.target with
    ⟨hmissing, hvalue⟩ | ⟨_, hcycle, hvalue⟩ | ⟨hhas, hcycle, v, hvalue, hv, hlookup⟩
  · rw [hvalue] at h
    obtain ⟨rfl, rfl⟩ := Work.returns_pure.mp h
    exact ⟨hw, hw.standard.sound.grows, .inl ⟨rfl, .inl hmissing⟩⟩
  · rw [hvalue] at h
    obtain ⟨rfl, rfl⟩ := Work.returns_pure.mp h
    exact ⟨hw, hw.standard.sound.grows, .inl ⟨rfl, .inr hcycle⟩⟩
  · rw [hvalue] at h
    dsimp only at h
    rw [hv] at h
    obtain ⟨final, w₂, hfinal, hrest⟩ := Work.returns_bind.mp h
    obtain ⟨v', w₃, hv', hpure⟩ := Work.returns_bind.mp (Work.returns_within.mp hfinal)
    obtain ⟨rfl, rfl⟩ := Work.returns_pure.mp hpure
    obtain ⟨hw', hgrows, hisFinal, _⟩ := hfinalize.returns hw hlookup hv'
    dsimp only at hrest
    rw [hisFinal.notTop] at hrest
    obtain ⟨rfl, rfl⟩ := Work.returns_pure.mp hrest
    exact ⟨hw', hgrows, .inr ⟨v', rfl, hhas, hcycle, hisFinal⟩⟩

/-- Reaching what a reference leads to stops only where finalizing it does. -/
theorem stops_reach {ref : Ref}
    (h : ((s.resolver finalize).reach ref.point ref.symbol).Stops w w') :
    m.Has ref.target ∧ ¬ m.OnCycle ref.target ∧
      ∃ v, s.values.lookup ref.target = some v ∧ (finalize v).Stops w w' := by
  have hresult : (s.resolver finalize).resultAt ref.point ref.symbol = s.value? ref.target := rfl
  unfold Resolver.reach at h
  rw [hresult] at h
  rcases value?_cases hbuild ref.target with
    ⟨_, hvalue⟩ | ⟨_, _, hvalue⟩ | ⟨hhas, hcycle, v, hvalue, hv, hlookup⟩
  · rw [hvalue] at h
    exact absurd h.fails Work.fails_pure
  · rw [hvalue] at h
    exact absurd h.fails Work.fails_pure
  · rw [hvalue] at h
    dsimp only at h
    rw [hv] at h
    refine ⟨hhas, hcycle, v, hlookup, ?_⟩
    rcases Work.stops_bind.mp h with hfinal | ⟨final, _, _, hrest⟩
    · rcases Work.stops_bind.mp (Work.stops_within.mp hfinal) with hstops | ⟨_, _, _, hpure⟩
      · exact hstops
      · exact absurd hpure.fails Work.fails_pure
    · cases final <;> exact absurd hrest.fails Work.fails_pure

/-- **The resolver of a run serves what direct execution asks for.** -/
theorem serves_resolver (hfinalize : Finalizes m s finalize) (holder : String) :
    (s.resolver finalize).Serves holder (Ready m s past) (Direct.answers m holder) := by
  refine ⟨fun hw => hw.standard.sound,
    fun hw hgrows => hw.mono (Workspace.advances_manager hgrows), ?_⟩
  intro w w' ref found l hw hfound hok
  have harises := Resolver.alternatives_arises hfound
  rw [hok] at harises
  cases harises with
  | @unknown w₂ _ log t hreach htop =>
    obtain ⟨hw₂, hgrows, ⟨_, hunknown⟩ | ⟨_, hsome, _⟩⟩ := reach_spec hbuild hfinalize hw hreach
    · have hlog := hw₂.standard.advances_counts log w₂.requests w₂.objects w₂.pathValues
      obtain ⟨hadvances, body, hbody, ht, hbodyEq⟩ :=
        (Resolver.follows_top (hw₂.mono hlog).standard rfl ref.type).returns htop
      have hw' := (hw₂.mono hlog).mono hadvances
      refine ⟨hw', hgrows.trans (hlog.trans hadvances).manager, ?_, ?_⟩
      · intro u hu
        obtain rfl := Option.some.inj (List.mem_singleton.mp hu)
        exact hw'.standard.sound.knows ht
      · rw [answers_of_unknown hunknown hbody, ← hbodyEq, ← hw'.standard.sound.instanceOf_eq ht]
        ext c
        simp [Manager.view, eq_comm]
    · cases hsome
  | @known v w₂ w₃ log _ hreach hcontents =>
    obtain ⟨hw₂, hgrows, ⟨hnone, _⟩ | ⟨_, hsome, hhas, hcycle, hfinal⟩⟩ :=
      reach_spec hbuild hfinalize hw hreach
    · cases hnone
    · cases hsome
      obtain ⟨hadvances, bodies, hbodies, hknown, hmap⟩ :=
        (Resolver.follows_ofContents hw₂.standard ref.op _).returns hcontents
      have hw₃ := hw₂.mono hadvances
      refine ⟨hw₃.mono (hw₃.standard.advances_counts log _ _ _), hgrows.trans hadvances.manager,
        hknown.sortTransformers, ?_⟩
      ext c
      rw [Manager.view_sortTransformers]
      refine Iff.trans ?_ (mem_contentBodies? hfinal hhas hcycle hbodies c)
      rw [← hmap, List.mem_map]
      rfl

/-- A reference that is found can be resolved. -/
theorem not_refused_of_finds (hfinalize : Finalizes m s finalize) {holder : String} {ref : Ref}
    (h : (s.resolver finalize).Finds (Ready m s past) (holder, ref)) : ¬ Refused m holder ref := by
  rintro ⟨hhas, hcycle, hrefused⟩
  obtain ⟨w, w', found, l, hw, hfound, hok⟩ := h
  change Yields ((s.resolver finalize).lookup holder ref) w found w' at hfound
  have harises := Resolver.alternatives_arises hfound
  rw [hok] at harises
  cases harises with
  | unknown hreach htop =>
    obtain ⟨_, _, ⟨_, hunknown⟩ | ⟨_, hsome, _⟩⟩ := reach_spec hbuild hfinalize hw hreach
    · exact hunknown.elim (fun hmissing => hmissing hhas) hcycle
    · cases hsome
  | known hreach hcontents =>
    obtain ⟨hw₂, _, ⟨hnone, _⟩ | ⟨_, hsome, _, _, hfinal⟩⟩ := reach_spec hbuild hfinalize hw hreach
    · cases hnone
    · cases hsome
      obtain ⟨_, bodies, hbodies, _⟩ :=
        (Resolver.follows_ofContents hw₂.standard ref.op _).returns hcontents
      rcases hrefused with hstuck | hrejects
      · exact hfinal.notStuck hstuck
      · cases hbodies.symm.trans ((contentBodies?_eq_none hfinal).mpr hrejects)

/-- **Where a reference is lost** the run stays ready, and either the reference cannot be resolved
or finalizing what it leads to failed. -/
theorem ready_of_loses (hfinalize : Finalizes m s finalize) {holder : String} {ref : Ref}
    (h : (s.resolver finalize).Loses (Ready m s past) (holder, ref) w') :
    Ready m s past w' ∧ (Refused m holder ref ∨ m.Has ref.target ∧ ¬ m.OnCycle ref.target ∧
      ∃ v w, Ready m s past w ∧ s.values.lookup ref.target = some v ∧ (finalize v).Fails w) := by
  obtain ⟨w, found, fault, hw, hfound, herror⟩ := h
  change Yields ((s.resolver finalize).lookup holder ref) w found w' at hfound
  have harises := Resolver.alternatives_arises hfound
  rw [herror] at harises
  cases harises with
  | lost hreach =>
    obtain ⟨hhas, hcycle, v, hlookup, hstops⟩ := stops_reach hbuild hreach
    exact ⟨hfinalize.stops hw hlookup hstops, .inr ⟨hhas, hcycle, v, w, hw, hlookup, hstops.fails⟩⟩
  | @topless w₂ _ log _ hreach htop =>
    obtain ⟨hw₂, _⟩ := reach_spec hbuild hfinalize hw hreach
    have hlog := hw₂.standard.advances_counts log w₂.requests w₂.objects w₂.pathValues
    exact absurd htop.fails (not_fails_top (hw₂.standard.mono hlog) ref.type)
  | @unfolded v w₂ _ _ hreach hcontents =>
    obtain ⟨hw₂, _, ⟨hnone, _⟩ | ⟨_, hsome, hhas, hcycle, hfinal⟩⟩ :=
      reach_spec hbuild hfinalize hw hreach
    · cases hnone
    · cases hsome
      have hfollows :=
        Resolver.follows_ofContents hw₂.standard ref.op (v.valuesFor (ref.fieldIn holder))
      refine ⟨hw₂.mono (hfollows.stops hcontents), .inl ⟨hhas, hcycle, .inr ?_⟩⟩
      exact (contentBodies?_eq_none hfinal).mp (hfollows.fails.mp hcontents.fails)

/-! ## Finalization -/

/-- **The final form of an object's value** is what the object comes to, if the objects that it
refers to get theirs. -/
theorem finalizes_final (hfinalize : Finalizes m s finalize) :
    Finalizes m s (s.resolver finalize).final := by
  constructor
  · intro past w w' id v v' hw hlookup h
    obtain ⟨o, views, ho, hviews, hobject⟩ := hw.objects.of_lookup hlookup
    obtain ⟨hw', hgrows, hnotTop, hnumber, hfinals⟩ := Resolver.final_spec
      (serves_resolver hbuild hfinalize) hw hobject.notTop hobject.held h
    have hviewsEq : ∀ b, (∃ p ∈ v'.toList, p.view = b) ↔ FinalView m id b := fun b =>
      (hfinals b).trans (hobject.unfolds_iff ho hviews b)
    refine ⟨hw', hgrows, ⟨hnotTop, hviewsEq, fun reading => ?_, fun hstuck => ?_⟩, ?_⟩
    · rw [← exists_finalView_iff ho hviews]
      constructor
      · rintro ⟨p, hp, rfl⟩
        exact ⟨p.view, (hviewsEq _).mp ⟨p, hp, rfl⟩, p.reading_eq_view.symm⟩
      · rintro ⟨b, hb, rfl⟩
        obtain ⟨p, hp, rfl⟩ := (hviewsEq b).mpr hb
        exact ⟨p, hp, p.reading_eq_view⟩
    · -- all that the value waits for was found, so none of it is refused
      obtain ⟨holder, ref, hwaits, hrefused⟩ := stuck_iff.mp hstuck
      have hasks := Resolver.asks_final (serves_resolver hbuild hfinalize) hw hobject.held
      exact not_refused_of_finds hbuild hfinalize
        (hasks.returns h _ ((hobject.mem_awaited ho hviews).mpr hwaits)) hrefused
    · refine hnumber.imp_right fun hlt entry hentry => ?_
      exact Nat.lt_of_le_of_lt (hw.objects.number_le hentry) hlt
  · intro past w w' id v hw hlookup h
    obtain ⟨o, views, ho, hviews, hobject⟩ := hw.objects.of_lookup hlookup
    obtain ⟨⟨holder, ref⟩, _, hloses⟩ :=
      (Resolver.asks_final (serves_resolver hbuild hfinalize) hw hobject.held).stops h
    exact (ready_of_loses hbuild hfinalize hloses).1

omit hbuild in
/-- What finalizing returns was in the table before, or is recorded in it. -/
theorem returns_finalizeUsing {v v' : Propagation} (hv : v.isTop = false) :
    (s.finalizeUsing finalize v).Returns w v' w' ↔
      ((w.finalsOf s.number).lookup v.number = some v' ∧
        w' = { w with requests := w.requests + 1 }) ∨
      ((w.finalsOf s.number).lookup v.number = none ∧ ∃ w₁,
        ((s.resolver finalize).final v).Returns { w with requests := w.requests + 1 } v' w₁ ∧
        w' = w₁.keepFinal s.number v.number v') := by
  cases v with
  | top => cases hv
  | paths serial members =>
    simp only [finalizeUsing, countRequest, Work.returns_bind, Work.returns_modify, exists_const,
      exists_eq_left', Work.returns_get, Propagation.number]
    constructor
    · rintro ⟨_, _, ⟨rfl, rfl⟩, h⟩
      rw [finalsOf_counted] at h
      split at h
      · rename_i final hfinal
        obtain ⟨rfl, rfl⟩ := Work.returns_pure.mp h
        exact .inl ⟨hfinal, rfl⟩
      · rename_i hnone
        simp only [Work.returns_bind, Work.returns_modify, Work.returns_pure] at h
        obtain ⟨final, w₁, hfinal, _, _, rfl, rfl, rfl⟩ := h
        exact .inr ⟨hnone, w₁, hfinal, rfl⟩
    · rintro (⟨hfinal, rfl⟩ | ⟨hnone, w₁, hfinal, rfl⟩)
      · refine ⟨_, _, ⟨rfl, rfl⟩, ?_⟩
        rw [finalsOf_counted, hfinal]
        exact Work.returns_pure.mpr ⟨rfl, rfl⟩
      · refine ⟨_, _, ⟨rfl, rfl⟩, ?_⟩
        rw [finalsOf_counted, hnone]
        simp only [Work.returns_bind, Work.returns_modify, Work.returns_pure]
        exact ⟨v', w₁, hfinal, (), _, rfl, rfl, rfl⟩

omit hbuild in
/-- Finalizing stops only where finding the final form does. -/
theorem stops_finalizeUsing {v : Propagation} (hv : v.isTop = false) :
    (s.finalizeUsing finalize v).Stops w w' ↔ (w.finalsOf s.number).lookup v.number = none ∧
      ((s.resolver finalize).final v).Stops { w with requests := w.requests + 1 } w' := by
  cases v with
  | top => cases hv
  | paths serial members =>
    constructor
    · intro h
      obtain ⟨_, w₂, hcount, h⟩ :=
        (Work.stops_bind.mp h).resolve_left fun h => Work.fails_modify h.fails
      obtain rfl := Work.returns_modify.mp hcount
      obtain ⟨_, _, hget, h⟩ := (Work.stops_bind.mp h).resolve_left fun h => Work.fails_get h.fails
      obtain ⟨rfl, rfl⟩ := Work.returns_get.mp hget
      rw [finalsOf_counted] at h
      split at h
      · exact absurd h.fails Work.fails_pure
      · rename_i hnone
        refine ⟨hnone, (Work.stops_bind.mp h).resolve_right ?_⟩
        rintro ⟨_, _, _, hrest⟩
        obtain ⟨_, _, _, hpure⟩ := (Work.fails_bind.mp hrest.fails).resolve_left Work.fails_modify
        exact Work.fails_pure hpure
    · rintro ⟨hnone, hstops⟩
      refine Work.stops_bind.mpr (.inr ⟨(), _, Work.returns_modify.mpr rfl, ?_⟩)
      refine Work.stops_bind.mpr (.inr ⟨_, _, Work.returns_get.mpr ⟨rfl, rfl⟩, ?_⟩)
      rw [Propagation.number] at hnone
      rw [finalsOf_counted, hnone]
      exact Work.stops_bind.mpr (.inl hstops)

/-- **Finalizing one object** gives its final value, if the objects that it refers to get theirs. -/
theorem finalizes_finalizeUsing (hfinalize : Finalizes m s finalize) :
    Finalizes m s (s.finalizeUsing finalize) := by
  have hfinal := finalizes_final hbuild hfinalize
  constructor
  · intro past w w' id v v' hw hlookup h
    have hcounted := hw.standard.advances_counts w.log (w.requests + 1) w.objects w.pathValues
    obtain ⟨_, _, _, _, hobject⟩ := hw.objects.of_lookup hlookup
    -- a value that was finalized before is taken from the table, any other one is recorded there
    rcases (returns_finalizeUsing hobject.notTop).mp h with ⟨hknown, rfl⟩ |
      ⟨hnone, w₁, hreturns, rfl⟩
    · exact ⟨hw.mono hcounted, hcounted.manager, hw.table id v hlookup v' hknown⟩
    · obtain ⟨hw₁, hgrows, hisFinal, hlater⟩ := hfinal.returns (hw.mono hcounted) hlookup hreturns
      have hpast : past.lookup v.number = none := by
        refine Option.eq_none_iff_forall_ne_some.mpr fun final hfound => ?_
        cases hnone.symm.trans (hw.past _ final hfound)
      exact ⟨hw₁.record hlookup hpast hisFinal hlater, hcounted.manager.trans hgrows,
        hisFinal, hlater⟩
  · intro past w w' id v hw hlookup h
    obtain ⟨_, _, _, _, hobject⟩ := hw.objects.of_lookup hlookup
    obtain ⟨_, hstops⟩ := (stops_finalizeUsing hobject.notTop).mp h
    exact hfinal.stops (hw.mono (hw.standard.advances_counts _ _ _ _)) hlookup hstops

/-- **Finalization gives final values**, however deep references may be followed. -/
theorem finalizes_finalizeWithin (depth : Nat) : Finalizes m s (s.finalizeWithin depth) := by
  induction depth with
  | zero =>
    refine ⟨fun _ _ h => absurd h Work.returns_throw, fun hw _ h => ?_⟩
    obtain rfl := Work.stops_throw.mp h
    exact hw
  | succ depth ih => exact finalizes_finalizeUsing hbuild ih

end Built

end Solver

end FieldFlow
