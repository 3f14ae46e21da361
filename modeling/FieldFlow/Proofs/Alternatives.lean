import FieldFlow.Proofs.Execution
import FieldFlow.Proofs.Replay

/-!
# The alternatives for a reference

The content of a referenced field gives the transformer that its elements make, folded from the
identity; a field that is not tracked gives none.  An object of which nothing is known gives the
transformer that adds the element for an unknown value.

Main definitions: `Resolver.contentBody?`, `Resolver.contentBodies?`, `Resolver.Arises`.
Main results: `Resolver.follows_ofContents`, `Work.follows_topTransformer`,
`Resolver.alternatives_arises`.
-/

namespace FieldFlow

namespace Resolver

variable {w w' : Workspace}

/-! ## Contents -/

/-- What folding in makes of the content of a field; nothing if one of the elements is refused. -/
def contentBody? (op : String) : Option OptionalSet → Option (Option Instance)
  | none => some none
  | some set => do
    let bodies ← Factory.foldBodies? op (OptionalSet.elements set)
    return some ((Instance.canonical .blank).compAll bodies)

/-- What folding in makes of several contents. -/
def contentBodies? (op : String) (contents : List (Option OptionalSet)) :
    Option (List (Option Instance)) :=
  contents.mapM (contentBody? op)

/-- Folding elements into a transformer composes what they make onto it. -/
theorem follows_foldElements (hw : w.Standard) (op : String) (xs : List Element)
    {start : Transformer} (hstart : w.manager.pool.Holds start) :
    (foldElements op start xs).Follows w
      (do return (w.manager.instanceOf start).compAll (← Factory.foldBodies? op xs))
      fun w' t c => w'.manager.pool.Holds t ∧ w'.manager.instanceOf t = c := by
  induction xs generalizing start w with
  | nil => exact Work.follows_pure hw ⟨hstart, rfl⟩
  | cons x rest ih =>
    have houtcome :
        (do return (w.manager.instanceOf start).compAll (← Factory.foldBodies? op (x :: rest)))
        = (Factory.literalBody? op x).bind fun body => (do
          return ((w.manager.instanceOf start).comp (.canonical body)).compAll
            (← Factory.foldBodies? op rest) : Option Instance) := by
      rw [Factory.foldBodies?, List.mapM_cons, Factory.foldBodies?]
      cases Factory.literalBody? op x with
      | none => rfl
      | some body => cases rest.mapM (Factory.literalBody? op) <;> rfl
    rw [houtcome]
    refine (Work.follows_makeLiteral hw op x).bind ?_
    rintro t _ w₁ hadvances _ ⟨ht, rfl⟩
    have hw₁ := hw.mono hadvances
    have hstart₁ := hstart.mono hadvances.manager.pool
    refine Work.follows_managed_bind ?_
    intro c m hyields
    obtain ⟨hgrows, _, hinstance, hholds⟩ :=
      Manager.compose_spec hw₁.sound (hw₁.sound.knows hstart₁)
        (hw₁.sound.knows ht) hyields
    refine ⟨hgrows, ?_⟩
    rw [← hadvances.manager.instanceOf_eq, ← hw₁.sound.instanceOf_eq ht, ← hinstance]
    exact ih (hw₁.mono (Workspace.advances_manager hgrows)) (hholds hstart₁ ht)

theorem follows_ofContent (hw : w.Standard) (op : String) (v : Option Value) :
    (ofContent op v).Follows w (contentBody? op (v.map Value.set)) fun w' t c =>
      (∀ u, t = some u → w'.manager.Knows u) ∧ t.map w'.manager.instanceOf = c := by
  cases v with
  | none => exact Work.follows_pure hw ⟨by simp, rfl⟩
  | some v =>
    refine Work.follows_get_bind ?_
    have houtcome : contentBody? op (some v.set) = (do
        return (w.manager.instanceOf w.manager.identity).compAll
          (← Factory.foldBodies? op (OptionalSet.elements v.set)) : Option Instance).bind
          fun c => some (some c) := by
      rw [hw.sound.instanceOf_identity, contentBody?]
      cases Factory.foldBodies? op (OptionalSet.elements v.set) <;> rfl
    rw [Option.map_some, houtcome]
    refine (follows_foldElements hw op _ hw.sound.identity).bind ?_
    rintro t _ w₁ hadvances _ ⟨ht, rfl⟩
    refine Work.follows_pure (hw.mono hadvances) ⟨?_, rfl⟩
    intro u hu
    obtain rfl := Option.some.inj hu
    exact (hw.mono hadvances).sound.knows ht

/-- **The alternatives for all contents of a field.** -/
theorem follows_ofContents (hw : w.Standard) (op : String) (values : List (Option Value)) :
    (ofContents op values).Follows w (contentBodies? op (values.map (Option.map Value.set)))
      fun w' l bodies => w'.manager.KnowsAll l ∧ l.map (Option.map w'.manager.instanceOf) =
        bodies := by
  induction values generalizing w with
  | nil => exact Work.follows_pure hw ⟨by simp [Manager.KnowsAll], rfl⟩
  | cons v rest ih =>
    rw [contentBodies?, List.map_cons, List.mapM_cons]
    refine (follows_ofContent hw op v).bind ?_
    rintro t _ w₁ hadvances _ ⟨hknown, rfl⟩
    refine (ih (hw.mono hadvances)).bind ?_
    rintro others _ w₂ hadvances' _ ⟨hknowns, rfl⟩
    refine Work.follows_pure ((hw.mono hadvances).mono hadvances') ⟨?_, ?_⟩
    · intro u hu
      rcases List.mem_cons.mp hu with hu | hu
      · exact (hknown u hu.symm).mono hadvances'.manager
      · exact hknowns u hu
    · have hsame : w₂.manager.instanceOf = w₁.manager.instanceOf :=
        funext hadvances'.manager.instanceOf_eq
      rw [List.map_cons, hsame]

end Resolver

/-! ## Unknown values -/

/-- **The transformer for an unknown value** adds the element for one; a type without an analysis
counts as texts. -/
theorem Work.follows_topTransformer {w : Workspace} (hw : w.Standard) (type : String) :
    (topTransformer type).Follows w (Factory.literalBody? "add" (Direct.top type)) IsHeld := by
  unfold topTransformer
  refine follows_get_bind ?_
  have htop : Direct.top type = ((w.analyses.find? type).getD .string).top := by
    rw [hw.analyses]
    rfl
  rw [htop]
  cases hfind : w.analyses.find? type with
  | some analysis =>
    simp only [hfind, pure_bind]
    exact follows_makeLiteral hw "add" analysis.top
  | none =>
    have hstring : (w.analyses.find? "string").getD .string = .string := by
      rw [hw.analyses]
      rfl
    simp only [hfind, pure_bind, hstring]
    refine (follows_report hw).some_bind ?_
    intro _ w₁ hadvances _
    exact follows_makeLiteral (hw.mono hadvances) "add" Analysis.string.top

/-! ## Alternatives -/

namespace Resolver

/-- **The transformer for an unknown value**, if the analyses provide it. -/
theorem follows_top {r : Resolver} {w : Workspace} (hw : w.Standard)
    (hprovider : r.provider = some Work.topTransformer) (type : String) :
    (r.top type).Follows w (Factory.literalBody? "add" (Direct.top type)) Work.IsHeld := by
  rw [top, hprovider]
  refine (Work.follows_topTransformer hw type).bind_some fun t body w₁ hadvances _ hheld => ?_
  obtain ⟨ht, hbody⟩ := hheld
  refine Work.follows_managed fun c m hyields => ?_
  obtain ⟨rfl, rfl⟩ := (Manager.intern_of_holds ht).unique hyields
  exact ⟨(hw.mono hadvances).sound.grows, ht, hbody⟩

/-- Where alternatives, and failures to find them, come from: if nothing is reached, the transformer
for an unknown value, and else the contents of the field in the value that is reached. -/
inductive Arises (r : Resolver) (point symbol : Element) (field type op : String) (w : Workspace) :
    Except Fault (List (Option Transformer)) → Workspace → Prop
  | lost {fault : Fault} {w' : Workspace} (hreach : (r.reach point symbol).Stops w w') :
      Arises r point symbol field type op w (.error fault) w'
  | unknown {w₁ w' : Workspace} {log : List Log.Entry} {t : Transformer}
      (hreach : (r.reach point symbol).Returns w none w₁)
      (htop : (r.top type).Returns { w₁ with log := log } t w') :
      Arises r point symbol field type op w (.ok [some t]) w'
  | topless {w₁ w' : Workspace} {log : List Log.Entry} {fault : Fault}
      (hreach : (r.reach point symbol).Returns w none w₁)
      (htop : (r.top type).Stops { w₁ with log := log } w') :
      Arises r point symbol field type op w (.error fault) w'
  | known {v : Propagation} {w₁ w₂ : Workspace} {log : List Log.Entry}
      {l : List (Option Transformer)}
      (hreach : (r.reach point symbol).Returns w (some v) w₁)
      (hcontents : (ofContents op (v.valuesFor field)).Returns w₁ l w₂) :
      Arises r point symbol field type op w (.ok (sortTransformers l)) { w₂ with log := log }
  | unfolded {v : Propagation} {w₁ w' : Workspace} {fault : Fault}
      (hreach : (r.reach point symbol).Returns w (some v) w₁)
      (hcontents : (ofContents op (v.valuesFor field)).Stops w₁ w') :
      Arises r point symbol field type op w (.error fault) w'

/-- **Alternatives arise** in one of these ways. -/
theorem alternatives_arises {r : Resolver} {w w' : Workspace} {point symbol : Element}
    {field type op : String} {found : Alternatives}
    (h : Yields (r.alternatives point symbol field type op) w found w') :
    r.Arises point symbol field type op w found.outcome w' := by
  unfold alternatives at h
  obtain ⟨reached, w₁, hreach, hrest⟩ := Yields.bind_iff.mp h
  cases reached with
  | error fault =>
    obtain ⟨rfl, rfl⟩ := Yields.pure_iff.mp hrest
    exact .lost ⟨fault, hreach⟩
  | ok reached =>
    cases reached with
    | none =>
      obtain ⟨_, w₂, hreport, hrest⟩ := Yields.bind_iff.mp hrest
      obtain rfl := Yields.modify_iff.mp hreport
      obtain ⟨made, w₃, hmade, hrest⟩ := Yields.bind_iff.mp hrest
      cases made with
      | error fault =>
        obtain ⟨rfl, rfl⟩ := Yields.pure_iff.mp hrest
        exact .topless hreach ⟨fault, hmade⟩
      | ok t =>
        obtain ⟨rfl, rfl⟩ := Yields.pure_iff.mp hrest
        exact .unknown hreach hmade
    | some v =>
      obtain ⟨made, w₂, hmade, hrest⟩ := Yields.bind_iff.mp hrest
      cases made with
      | error fault =>
        obtain ⟨rfl, rfl⟩ := Yields.pure_iff.mp hrest
        exact .unfolded hreach ⟨fault, hmade⟩
      | ok l =>
        obtain ⟨_, w₃, hreport, hrest⟩ := Yields.bind_iff.mp hrest
        obtain rfl := Yields.modify_iff.mp hreport
        obtain ⟨rfl, rfl⟩ := Yields.pure_iff.mp hrest
        exact .known hreach hmade

end Resolver

end FieldFlow
