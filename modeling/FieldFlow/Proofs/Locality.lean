import FieldFlow.Proofs.Memoization
import FieldFlow.Proofs.Simulation

/-!
# Objects out of reach

What an object comes to depends on the objects that chains of references lead to, and on nothing
else.  Being on a cycle is a matter of such chains, so it is local too, although cycles are looked
for in the whole graph; and neither the table of final values nor the pool lets other objects in.

Main results: `Model.simulates_of_same`, `Solver.unreachable_irrelevant`.
-/

namespace FieldFlow

namespace Model

open Relation

variable {m m' : Model} {P : ObjectId → Prop}

/-- Steps that stay where `P` holds may be replaced along a chain. -/
theorem transGen_of_steps {R S : ObjectId → ObjectId → Prop} (h : ∀ a b, P a → R a b → S a b ∧ P b)
    {x y : ObjectId} (hx : P x) (hxy : TransGen R x y) : TransGen S x y := by
  have hboth : TransGen S x y ∧ P y := by
    induction hxy with
    | single hstep =>
      obtain ⟨hstep', hy⟩ := h _ _ hx hstep
      exact ⟨.single hstep', hy⟩
    | tail _ hstep ih =>
      obtain ⟨hchain, hz⟩ := ih
      obtain ⟨hstep', hy⟩ := h _ _ hz hstep
      exact ⟨.tail hchain hstep', hy⟩
  exact hboth.1

/-- An object that is the same in another model refers to the same objects there. -/
theorem refers_of_same (hm : (m.objects.map Object.id).Nodup) {a b : ObjectId}
    (hsame : m.object? a = m'.object? a) (h : m.Refers a b) : m'.Refers a b := by
  obtain ⟨o, ho, hid, hwritten⟩ := h
  obtain ⟨ho', hid'⟩ := of_object? (hsame ▸ (object?_eq_some hm).mpr ⟨ho, hid⟩)
  exact ⟨o, ho', hid', hwritten⟩

/-- **A model simulates another on objects that are the same in both**, if they refer to no
others. -/
theorem simulates_of_same (hm : (m.objects.map Object.id).Nodup)
    (hm' : (m'.objects.map Object.id).Nodup) (hclosed : ∀ {a b}, P a → m.Refers a b → P b)
    (hsame : ∀ {id}, P id → m.object? id = m'.object? id) :
    Simulates P m m' := by
  have hforth : ∀ a b, P a → m.Refers a b → m'.Refers a b ∧ P b := fun _ _ ha href =>
    ⟨refers_of_same hm (hsame ha) href, hclosed ha href⟩
  have hback : ∀ a b, P a → m'.Refers a b → m.Refers a b ∧ P b := fun _ _ ha href =>
    have href' := refers_of_same hm' (hsame ha).symm href
    ⟨href', hclosed ha href'⟩
  refine ⟨hclosed, fun hP => ?_,
    fun hP => ⟨transGen_of_steps hforth hP, transGen_of_steps hback hP⟩,
    fun {id o} hP ho => ⟨o, hsame hP ▸ ho, fun path hpath => ⟨path, hpath, rfl⟩⟩⟩
  rw [has_iff, has_iff, hsame hP]

/-- What an object comes to depends on the objects that chains of references lead to. -/
theorem agrees_of_reachable (hm : (m.objects.map Object.id).Nodup)
    (hm' : (m'.objects.map Object.id).Nodup) {id : ObjectId}
    (hsame : ∀ id', ReflTransGen m.Refers id id' → m.object? id' = m'.object? id') :
    (m.Has id ↔ m'.Has id) ∧ Solver.Agrees m m' id := by
  have hforth : Simulates (ReflTransGen m.Refers id) m m' :=
    simulates_of_same hm hm' (fun ha href => .tail ha href) fun ha => hsame _ ha
  have hback : Simulates (ReflTransGen m.Refers id) m' m :=
    simulates_of_same hm' hm (fun ha href => .tail ha (refers_of_same hm' (hsame _ ha).symm href))
      fun ha => (hsame _ ha).symm
  exact ⟨hforth.has .refl, hforth.agrees hback .refl⟩

end Model

namespace Solver

open Relation

variable {m m' : Model} {s s' : Solver} {w₀ w₁ w₀' w₁' : Workspace} {id : ObjectId}

/-- The value of an object is top exactly if the object is on a cycle. -/
theorem isTop_value (hbuild : (build m).Returns w₀ s w₁) {v : Propagation}
    (hv : s.value? id = some v) :
    v.isTop = true ↔ m.OnCycle id := by
  rcases (value_cases hbuild hv).2 with ⟨hcycle, rfl⟩ | ⟨hcycle, hnotTop, _⟩
  · exact iff_of_true rfl hcycle
  · exact iff_of_false (by simp [hnotTop]) hcycle

/-- **Objects out of reach do not matter.**  Let two valid models have the same object, or none, for
an identifier and for all identifiers that chains of references lead to from it, and let values be
built for both.  Then both have a value for the identifier or neither has; both values are top or
neither is; finalizing them fails for both or for neither; and what it returns has the same path
keys.  This holds whatever the pools hold and after whatever calls. -/
theorem unreachable_irrelevant (hm : m.validate = .ok ()) (hm' : m'.validate = .ok ())
    (hw : w₀.Standard) (hw' : w₀'.Standard) (hbuild : (build m).Returns w₀ s w₁)
    (hbuild' : (build m').Returns w₀' s' w₁')
    (hsame : ∀ id', ReflTransGen m.Refers id id' → m.object? id' = m'.object? id')
    {w w' : Workspace} (hreaches : s.Reaches w₁ w) (hreaches' : s'.Reaches w₁' w') :
    Option.Rel
      (fun v v' => v.isTop = v'.isTop ∧ ((s.finalize v).Fails w ↔ (s'.finalize v').Fails w') ∧
      ∀ f u f' u', (s.finalize v).Returns w f u → (s'.finalize v').Returns w' f' u' → f.SameKeys f')
      (s.value? id) (s'.value? id) := by
  obtain ⟨hhas, hagrees⟩ :=
    Model.agrees_of_reachable (Model.nodup_of_validate hm) (Model.nodup_of_validate hm') hsame
  have hready := ready_of_reaches hbuild (ready_of_build hw hbuild) hreaches
  have hready' := ready_of_reaches hbuild' (ready_of_build hw' hbuild') hreaches'
  by_cases hid : m.Has id
  · obtain ⟨v, hv⟩ := exists_value hbuild hid
    obtain ⟨v', hv'⟩ := exists_value hbuild' (hhas.mp hid)
    rw [hv, hv']
    refine .some ⟨?_, ?_, fun f u f' u' hreturns hreturns' => ?_⟩
    · exact Bool.eq_iff_iff.mpr
        ((isTop_value hbuild hv).trans (hagrees.cycle.trans (isTop_value hbuild' hv').symm))
    · rw [(solving_finalize hbuild).fails_iff hbuild hready hv,
        (solving_finalize hbuild').fails_iff hbuild' hready' hv', hagrees.cycle, hagrees.stuck]
    · exact ((solving_finalize hbuild).returns hbuild hready hv hreturns).2.sameKeys
        ((solving_finalize hbuild').returns hbuild' hready' hv' hreturns').2 hagrees
  · have hnone : ∀ {m s w₀ w₁}, (build m).Returns w₀ s w₁ → ¬ m.Has id → s.value? id = none :=
      fun hbuild hmissing => Option.eq_none_iff_forall_ne_some.mpr fun _ hv =>
        hmissing (value_cases hbuild hv).1
    rw [hnone hbuild hid, hnone hbuild' (mt hhas.mpr hid)]
    exact .none

/-- The objects of `removal` among others: one that refers to them, and two that refer to each
other. -/
def surrounded : Model :=
  let refer (symbol : String) : Model.Op := ⟨"compose", [], some ⟨symbol, "exit", "kept", ""⟩⟩
  let object (symbol : String) (ops : List Model.Op) : Model.Object :=
    ⟨symbol, "exit", [⟨[⟨"kept", "", ops⟩]⟩]⟩
  ⟨"v1", object "first" [refer "second"] :: removal.objects ++
    [object "second" [refer "first"], object "reader" [refer "user", refer "source"]]⟩

/-- The user of `removal` comes to the same among other objects. -/
theorem unreachable_irrelevant_surrounded :
    removal.validate = .ok () ∧ surrounded.validate = .ok () ∧
    ∃ s w₁ s' w₁' v v' f u f' u', (build removal).Returns (Workspace.standard true) s w₁ ∧
      (build surrounded).Returns (Workspace.standard true) s' w₁' ∧
      s.value? ⟨"user", "exit"⟩ = some v ∧ s'.value? ⟨"user", "exit"⟩ = some v' ∧
      (s.finalize v).Returns w₁ f u ∧ (s'.finalize v').Returns w₁' f' u' ∧ f.SameKeys f' := by
  have hw := Workspace.standard_standard
  have hvalid : removal.validate = .ok () := by decide
  have hvalid' : surrounded.validate = .ok () := by decide
  obtain ⟨s, w₁, hbuild⟩ := (follows_build hw removal).exists_returns (by decide)
  obtain ⟨s', w₁', hbuild'⟩ := (follows_build hw surrounded).exists_returns (by decide)
  -- the user refers to the source only, and the source to nothing
  have hreachable : ∀ id, ReflTransGen removal.Refers ⟨"user", "exit"⟩ id →
      id ∈ [⟨"user", "exit"⟩, (⟨"source", "exit"⟩ : ObjectId)] := by
    intro id hchain
    induction hchain with
    | refl => decide
    | tail _ href ih =>
      have hclosed : ∀ edge ∈ removal.references,
          edge.2 ∈ [⟨"user", "exit"⟩, (⟨"source", "exit"⟩ : ObjectId)] := by
        decide
      exact hclosed _ (Model.mem_references.mpr href)
  have hsame : ∀ id, ReflTransGen removal.Refers ⟨"user", "exit"⟩ id →
      removal.object? id = surrounded.object? id := by
    intro id hchain
    have hlisted : ∀ id ∈ [⟨"user", "exit"⟩, (⟨"source", "exit"⟩ : ObjectId)],
        removal.object? id = surrounded.object? id := by decide
    exact hlisted id (hreachable id hchain)
  have hrel := unreachable_irrelevant hvalid hvalid' hw hw hbuild hbuild' hsame .refl .refl
  have hhas : removal.Has ⟨"user", "exit"⟩ := List.mem_map.mp (by decide)
  have hhas' : surrounded.Has ⟨"user", "exit"⟩ := List.mem_map.mp (by decide)
  obtain ⟨v, hv⟩ := exists_value hbuild hhas
  obtain ⟨v', hv'⟩ := exists_value hbuild' hhas'
  rw [hv, hv'] at hrel
  cases hrel with
  | some hrel =>
    obtain ⟨_, hfails, hkeys⟩ := hrel
    have hnot : ¬ (s.finalize v).Fails w₁ := fun hfails' => not_stuck_of_foldable
      (by unfold Model.Foldable; decide)
      (((solving_finalize hbuild).fails_iff hbuild (ready_of_build hw hbuild) hv).mp hfails').2
    obtain ⟨f, u, hreturns⟩ := (Work.returns_or_fails _ _).resolve_right hnot
    obtain ⟨f', u', hreturns'⟩ := (Work.returns_or_fails _ _).resolve_right (mt hfails.mpr hnot)
    exact ⟨hvalid, hvalid', s, w₁, s', w₁', v, v', f, u, f', u', hbuild, hbuild', hv, hv',
      hreturns, hreturns', hkeys _ _ _ _ hreturns hreturns'⟩

end Solver

end FieldFlow
