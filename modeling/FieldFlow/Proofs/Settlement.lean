import FieldFlow.Proofs.Alternatives
import FieldFlow.Proofs.Branches

/-!
# What objects come to

The final paths of an object are the maps in which every field holds something that its value may
turn out to be.  Read as maps from the tracked fields to their members, they are those of direct
execution.

An object may be stuck instead: it waits for a reference to an object that is stuck itself, or one
of whose final paths holds an element that the operation of the reference refuses.

Main definitions: `Solver.Settles`, `Solver.FinalView`, `Solver.Stuck`, `Solver.IsFinal`.
Main results: `Solver.unfolds_pathOf?`, `Solver.exists_settles_iff`, `Solver.mem_contentBodies?`.
-/

namespace FieldFlow

/-! ## Reading fields -/

namespace PathValue

/-- Every tracked field has a value. -/
def Present (p : PathValue) : Prop := ∀ name, p.entry? name ≠ some none

/-- What is read of a field with a value is the set of the value. -/
theorem Present.reading_cases {p : PathValue} (hp : p.Present) (field : String) :
    (p.value? field = none ∧ p.reading field = none) ∨
    ∃ v, p.value? field = some v ∧ p.reading field = some (OptionalSet.members v.set) := by
  unfold PathValue.value? PathValue.reading
  cases hentry : p.entry? field with
  | none => exact .inl ⟨rfl, rfl⟩
  | some v =>
    cases v with
    | none => exact absurd hentry (hp field)
    | some v => exact .inr ⟨v, rfl, rfl⟩

end PathValue

/-- What a value may turn out to be is read as its outcomes. -/
theorem exists_unfolded_iff {answers : Ref → Set (Option Instance)} {v : Value}
    {s : Option (Set Element)} :
    (∃ o ∈ unfolded answers (some (some v)),
      o.map (fun u => OptionalSet.members (u.bind Value.set)) = s) ↔
      s ∈ outcomes answers v := by
  have hmap : ∀ o : Option Value, (o.map some).map (fun u => OptionalSet.members (u.bind Value.set))
      = o.map fun u => OptionalSet.members u.set := by
    intro o
    cases o <;> rfl
  rw [outcomes_eq_image]
  constructor
  · rintro ⟨_, ⟨o, ho, rfl⟩, rfl⟩
    exact ⟨o, ho, (hmap o).symm⟩
  · rintro ⟨o, ho, rfl⟩
    exact ⟨_, ⟨o, ho, rfl⟩, hmap o⟩

namespace Solver

variable {m : Model}

/-! ## What paths come to -/

/-- A field of a path holds what its last declaration is built to. -/
theorem pathOf?_cases {known view : View} {fields : List Model.Field}
    (h : pathOf? known fields = some view) (name : String) :
    (fields.reverse.find? (fun f => f.name = name) = none ∧ view name = known name) ∨
    ∃ f v, fields.reverse.find? (fun f => f.name = name) = some f ∧ valueOf? f = some v ∧
      view name = some (some v) := by
  induction fields generalizing known with
  | nil =>
    cases h
    exact .inl ⟨rfl, rfl⟩
  | cons f rest ih =>
    obtain ⟨v, hv, hrest⟩ := Option.bind_eq_some_iff.mp h
    -- the declarations after this one are asked first
    rw [List.reverse_cons, List.find?_append]
    rcases ih hrest with ⟨hnone, hview⟩ | ⟨f', v', hsome, hv', hview⟩
    · rw [hnone, Option.none_or]
      by_cases hname : f.name = name
      · refine .inr ⟨f, v, by simp [hname], hv, ?_⟩
        rw [hview, ← hname, Function.update_self]
      · refine .inl ⟨by simp [hname], ?_⟩
        rw [hview, Function.update_of_ne (Ne.symm hname)]
    · exact .inr ⟨f', v', by rw [hsome, Option.some_or], hv', hview⟩

/-- The map gives every field that the path declares something that the field may hold in the end,
and tracks no other. -/
structure Settles (m : Model) (path : Model.Path) (b : View) : Prop where
  fields : ∀ name f, path.declaration? name = some f →
    ∃ v, valueOf? f = some v ∧ b name ∈ unfolded (Direct.answers m name) (some (some v))
  others : ∀ name, path.declaration? name = none → b name = none

/-- **A path that is built unfolds to what it settles to.** -/
theorem unfolds_pathOf? {path : Model.Path} {view b : View}
    (h : pathOf? (fun _ => none) path.fields = some view) :
    Unfolds (Direct.answers m) view b ↔ Settles m path b := by
  constructor
  · intro hunfolds
    constructor
    · intro name f hf
      rcases pathOf?_cases h name with ⟨hnone, _⟩ | ⟨f', v, hsome, hv, hview⟩
      · cases hnone.symm.trans hf
      · obtain rfl := Option.some.inj (hsome.symm.trans hf)
        exact ⟨v, hv, hview ▸ hunfolds name⟩
    · intro name hname
      rcases pathOf?_cases h name with ⟨_, hview⟩ | ⟨f', v, hsome, _, _⟩
      · have hb := hunfolds name
        rwa [hview] at hb
      · cases hname.symm.trans hsome
  · intro hsettles name
    rcases pathOf?_cases h name with ⟨hnone, hview⟩ | ⟨f, v, hsome, hv, hview⟩
    · rw [hview]
      exact hsettles.others name hnone
    · obtain ⟨v', hv', hb⟩ := hsettles.fields name f hsome
      obtain rfl := Option.some.inj (hv.symm.trans hv')
      rwa [hview]

/-- **What a path settles to is read as what direct execution gives.** -/
theorem exists_settles_iff {path : Model.Path} {view : View}
    (h : pathOf? (fun _ => none) path.fields = some view) {reading : Reading} :
    (∃ b, Settles m path b ∧ View.reading b = reading) ↔ Direct.Traces m path reading := by
  have hname : ∀ {name f}, path.declaration? name = some f → f.name = name := by
    intro name f hf
    simpa using List.find?_some hf
  constructor
  · rintro ⟨b, hsettles, rfl⟩
    constructor
    · intro name f hf
      obtain ⟨v, hv, hb⟩ := hsettles.fields name f hf
      have houtcome := exists_unfolded_iff.mp ⟨b name, hb, rfl⟩
      obtain rfl := hname hf
      rwa [outcomes_valueOf hv] at houtcome
    · intro name hnone
      rw [View.reading, hsettles.others name hnone]
      rfl
  · intro htraces
    -- the fields are chosen one by one
    have hchoice : ∀ name, ∃ o : Option (Option Value),
        o.map (fun u => OptionalSet.members (u.bind Value.set)) = reading name ∧
        (∀ f, path.declaration? name = some f →
          ∃ v, valueOf? f = some v ∧ o ∈ unfolded (Direct.answers m name) (some (some v))) ∧
        (path.declaration? name = none → o = none) := by
      intro name
      rcases pathOf?_cases h name with ⟨hnone, _⟩ | ⟨f, v, hsome, hv, _⟩
      · refine ⟨none, (htraces.others name hnone).symm, fun f hf => ?_, fun _ => rfl⟩
        cases hnone.symm.trans hf
      · have hrun : reading name ∈ outcomes (Direct.answers m name) v := by
          obtain rfl := hname hsome
          rw [outcomes_valueOf hv]
          exact htraces.fields f.name f hsome
        obtain ⟨o, ho, hread⟩ := exists_unfolded_iff.mpr hrun
        refine ⟨o, hread, fun f' hf' => ?_, fun hnone => ?_⟩
        · obtain rfl := Option.some.inj (hsome.symm.trans hf')
          exact ⟨v, hv, ho⟩
        · cases hnone.symm.trans hsome
    choose b hread hfields hothers using hchoice
    exact ⟨b, ⟨hfields, hothers⟩, funext hread⟩

/-! ## What objects come to -/

/-- The final paths of an object: what one of its paths settles to. -/
def FinalView (m : Model) (id : ObjectId) (b : View) : Prop :=
  ∃ o, m.object? id = some o ∧ ∃ path ∈ o.paths, Settles m path b

/-- The object waits for the reference in the field `holder`. -/
def Waits (m : Model) (id : ObjectId) (holder : String) (ref : Ref) : Prop :=
  ∃ o, m.object? id = some o ∧ ∃ path ∈ o.paths, ∃ f v, path.declaration? holder = some f ∧
    valueOf? f = some v ∧ ∃ step ∈ v.sequence.getD [], step.ref = some ref

/-- A final path of the object that the reference leads to holds an element that the operation of
the reference refuses. -/
def Rejects (m : Model) (holder : String) (ref : Ref) : Prop :=
  ∃ b members x, Direct.Final m ref.target b ∧ b (ref.fieldIn holder) = some members ∧ x ∈ members ∧
    Factory.literalBody? ref.op x = none

/-- The object has no final form: a reference that it waits for leads to a stuck object, or to
contents that its operation refuses. -/
inductive Stuck (m : Model) : ObjectId → Prop
  | contents {id : ObjectId} {holder : String} {ref : Ref} (hwaits : Waits m id holder ref)
      (hcycle : ¬ m.OnCycle ref.target) (hrejects : Rejects m holder ref) : Stuck m id
  | target {id : ObjectId} {holder : String} {ref : Ref} (hwaits : Waits m id holder ref)
      (hhas : m.Has ref.target) (hcycle : ¬ m.OnCycle ref.target) (hstuck : Stuck m ref.target) :
        Stuck m id

/-- The reference cannot be resolved. -/
def Refused (m : Model) (holder : String) (ref : Ref) : Prop :=
  m.Has ref.target ∧ ¬ m.OnCycle ref.target ∧ (Stuck m ref.target ∨ Rejects m holder ref)

/-- An object is stuck exactly if it waits for a reference that cannot be resolved. -/
theorem stuck_iff {id : ObjectId} :
    Stuck m id ↔ ∃ holder ref, Waits m id holder ref ∧ Refused m holder ref := by
  constructor
  · rintro (⟨hwaits, hcycle, hrejects⟩ | ⟨hwaits, hhas, hcycle, hstuck⟩)
    · obtain ⟨b, members, x, hfinal, hcontent⟩ := hrejects
      exact ⟨_, _, hwaits, hfinal.has, hcycle, .inr ⟨b, members, x, hfinal, hcontent⟩⟩
    · exact ⟨_, _, hwaits, hhas, hcycle, .inl hstuck⟩
  · rintro ⟨holder, ref, hwaits, hhas, hcycle, hstuck | hrejects⟩
    · exact .target hwaits hhas hcycle hstuck
    · exact .contents hwaits hcycle hrejects

section Built

variable {w : Workspace} {id : ObjectId} {o : Model.Object} {v : Propagation} {views : List View}
  (ho : m.object? id = some o) (hviews : pathsOf? o.paths = some views) (h : IsObject w v views)

include ho hviews h

/-- What is built for an object unfolds to its final paths. -/
theorem IsObject.unfolds_iff (b : View) :
    (∃ p ∈ v.toList, Unfolds (Direct.answers m) p.view b) ↔ FinalView m id b := by
  constructor
  · rintro ⟨p, hp, hunfolds⟩
    have hmem : p.view ∈ views := (h.views p.view).mp ⟨p, hp, rfl⟩
    obtain ⟨path, hpath, hview⟩ := (mem_of_mapM_eq_some hviews).mp hmem
    exact ⟨o, ho, path, hpath, (unfolds_pathOf? hview).mp hunfolds⟩
  · rintro ⟨o', ho', path, hpath, hsettles⟩
    obtain rfl := Option.some.inj (ho.symm.trans ho')
    obtain ⟨view, hview⟩ := exists_of_mapM_eq_some hviews hpath
    obtain ⟨p, hp, rfl⟩ :=
      (h.views view).mpr ((mem_of_mapM_eq_some hviews).mpr ⟨path, hpath, hview⟩)
    exact ⟨p, hp, (unfolds_pathOf? hview).mpr hsettles⟩

/-- What is built for an object waits for what the object waits for. -/
theorem IsObject.mem_awaited {holder : String} {ref : Ref} :
    (holder, ref) ∈ v.awaited ↔ Waits m id holder ref := by
  rw [Propagation.awaited, List.mem_flatMap]
  constructor
  · rintro ⟨p, hp, hmem⟩
    obtain ⟨u, hu, hstep⟩ := PathValue.mem_awaited.mp hmem
    obtain ⟨path, hpath, hview⟩ :=
      (mem_of_mapM_eq_some hviews).mp ((h.views p.view).mp ⟨p, hp, rfl⟩)
    rcases pathOf?_cases hview holder with ⟨_, hnone⟩ | ⟨f, v', hsome, hv', hheld⟩
    · cases hnone.symm.trans hu
    · cases hheld.symm.trans hu
      exact ⟨o, ho, path, hpath, f, u, hsome, hv', hstep⟩
  · rintro ⟨o', ho', path, hpath, f, v', hdeclared, hv', hstep⟩
    obtain rfl := Option.some.inj (ho.symm.trans ho')
    obtain ⟨view, hview⟩ := exists_of_mapM_eq_some hviews hpath
    obtain ⟨p, hp, rfl⟩ :=
      (h.views view).mpr ((mem_of_mapM_eq_some hviews).mpr ⟨path, hpath, hview⟩)
    refine ⟨p, hp, PathValue.mem_awaited.mpr ?_⟩
    rcases pathOf?_cases hview holder with ⟨hnone, _⟩ | ⟨f', u, hsome, hu, hheld⟩
    · cases hnone.symm.trans hdeclared
    · obtain rfl := Option.some.inj (hsome.symm.trans hdeclared)
      obtain rfl := Option.some.inj (hu.symm.trans hv')
      exact ⟨u, hheld, hstep⟩

omit h in
/-- The final paths of an object are read as those of direct execution. -/
theorem exists_finalView_iff {reading : Reading} :
    (∃ b, FinalView m id b ∧ View.reading b = reading) ↔ Direct.Final m id reading := by
  rw [Direct.final_iff]
  constructor
  · rintro ⟨b, ⟨o', ho', path, hpath, hsettles⟩, hread⟩
    obtain rfl := Option.some.inj (ho.symm.trans ho')
    obtain ⟨view, hview⟩ := exists_of_mapM_eq_some hviews hpath
    exact ⟨o, ho, path, hpath, (exists_settles_iff hview).mp ⟨b, hsettles, hread⟩⟩
  · rintro ⟨o', ho', path, hpath, htraces⟩
    obtain rfl := Option.some.inj (ho.symm.trans ho')
    obtain ⟨view, hview⟩ := exists_of_mapM_eq_some hviews hpath
    obtain ⟨b, hsettles, hread⟩ := (exists_settles_iff hview).mpr htraces
    exact ⟨b, ⟨o, ho, path, hpath, hsettles⟩, hread⟩

end Built

/-! ## Final values -/

/-- The value holds the final paths of the object, and the object is not stuck. -/
structure IsFinal (m : Model) (id : ObjectId) (v : Propagation) : Prop where
  notTop : v.isTop = false
  views : ∀ b, (∃ p ∈ v.toList, p.view = b) ↔ FinalView m id b
  readings : ∀ b, (∃ p ∈ v.toList, p.reading = b) ↔ Direct.Final m id b
  notStuck : ¬ Stuck m id

/-- Every field of a final path has a value. -/
theorem IsFinal.present {id : ObjectId} {v : Propagation} (hv : IsFinal m id v) :
    ∀ p ∈ v.toList, p.Present := by
  intro p hp name hnone
  have hview : p.view name = some none := by
    rw [PathValue.view, hnone]
    rfl
  obtain ⟨o, _, path, _, hsettles⟩ := (hv.views _).mp ⟨p, hp, rfl⟩
  cases hdeclared : path.declaration? name with
  | none => cases hview.symm.trans (hsettles.others name hdeclared)
  | some f =>
    obtain ⟨v, _, o, _, ho⟩ := hsettles.fields name f hdeclared
    rw [hview] at ho
    cases o <;> cases ho

theorem IsFinal.settled {id : ObjectId} {v : Propagation} (hv : IsFinal m id v) :
    v.isIntermediate = false := by
  have hsettled : ∀ p ∈ v.toList, p.isIntermediate = false := by
    refine fun p hp => PathValue.isIntermediate_eq_false fun name u hview => ?_
    obtain ⟨o, _, path, _, hsettles⟩ := (hv.views _).mp ⟨p, hp, rfl⟩
    cases hdeclared : path.declaration? name with
    | none => cases hview.symm.trans (hsettles.others name hdeclared)
    | some f =>
      obtain ⟨built, hbuilt, o, ho, hheld⟩ := hsettles.fields name f hdeclared
      rw [hview] at hheld
      obtain ⟨_, rfl, hsome⟩ := Option.map_eq_some_iff.mp hheld
      obtain rfl := Option.some.inj hsome
      exact sequence_of_resolutions hbuilt ho
  simpa [Propagation.isIntermediate] using hsettled

/-- Something about the contents of a field shows in the final paths. -/
theorem exists_valuesFor_iff {β : Type} (g : Option OptionalSet → β) {v : Propagation}
    {field : String} {b : β} :
    (∃ content ∈ (v.valuesFor field).map (Option.map Value.set), g content = b) ↔
      ∃ p ∈ v.toList, g ((p.value? field).map Value.set) = b := by
  simp only [List.mem_map, exists_exists_and_eq_and]
  rw [Propagation.valuesFor, Resolver.mem_sortValues_set g]
  simp

/-- **The contents of a field in a final value** make the alternatives for a reference to it. -/
theorem mem_contentBodies? {holder : String} {ref : Ref} {v : Propagation}
    (hv : IsFinal m ref.target v)
    (hhas : m.Has ref.target) (hcycle : ¬ m.OnCycle ref.target) {bodies : List (Option Instance)}
    (hbodies : Resolver.contentBodies? ref.op
      ((v.valuesFor (ref.fieldIn holder)).map (Option.map Value.set)) = some bodies)
        (c : Option Instance) :
    c ∈ bodies ↔ Direct.Answers m holder ref c := by
  rw [mem_of_mapM_eq_some hbodies, exists_valuesFor_iff]
  constructor
  · rintro ⟨p, hp, hbody⟩
    have hfinal : Direct.Final m ref.target p.reading := (hv.readings _).mp ⟨p, hp, rfl⟩
    rcases (hv.present p hp).reading_cases (ref.fieldIn holder) with ⟨hvalue, hread⟩ |
      ⟨u, hvalue, hread⟩
    · rw [hvalue] at hbody
      cases hbody
      exact .untracked hcycle hfinal hread
    · rw [hvalue] at hbody
      obtain ⟨made, hmade, hpure⟩ := Option.bind_eq_some_iff.mp hbody
      cases hpure
      have hcontent : p.reading (ref.fieldIn holder) = some {x | x ∈ OptionalSet.elements u.set} :=
        hread
      exact .tracked hcycle hfinal hcontent (OptionalSet.pairwise_elements u.set) hmade
  · intro hanswer
    cases hanswer with
    | unknown hunknown _ => exact absurd hunknown (not_or.mpr ⟨not_not.mpr hhas, hcycle⟩)
    | untracked _ hfinal hcontent =>
      obtain ⟨p, hp, rfl⟩ := (hv.readings _).mpr hfinal
      refine ⟨p, hp, ?_⟩
      rcases (hv.present p hp).reading_cases (ref.fieldIn holder) with ⟨hvalue, _⟩ | ⟨u, _, hread⟩
      · rw [hvalue]
        rfl
      · rw [hread] at hcontent
        cases hcontent
    | tracked _ hfinal hcontent hordered hmade =>
      obtain ⟨p, hp, rfl⟩ := (hv.readings _).mpr hfinal
      refine ⟨p, hp, ?_⟩
      rcases (hv.present p hp).reading_cases (ref.fieldIn holder) with ⟨_, hread⟩ |
        ⟨u, hvalue, hread⟩
      · rw [hread] at hcontent
        cases hcontent
      · rw [hread, Option.some.injEq] at hcontent
        rw [hvalue, Option.map_some, Resolver.contentBody?,
          OptionalSet.elements_eq hordered hcontent, hmade]
        rfl

/-- The contents of a field in a final value cannot be folded in exactly if one of them is
refused. -/
theorem contentBodies?_eq_none {holder : String} {ref : Ref} {v : Propagation}
    (hv : IsFinal m ref.target v) :
    Resolver.contentBodies? ref.op
      ((v.valuesFor (ref.fieldIn holder)).map (Option.map Value.set)) = none ↔
        Rejects m holder ref := by
  have hbody : ∀ s : OptionalSet, Resolver.contentBody? ref.op (some s) = none ↔
      ∃ x ∈ OptionalSet.elements s, Factory.literalBody? ref.op x = none := by
    intro s
    rw [← mapM_eq_none, Resolver.contentBody?, Factory.foldBodies?]
    cases (OptionalSet.elements s).mapM (Factory.literalBody? ref.op) <;> simp
  rw [Resolver.contentBodies?, mapM_eq_none, exists_valuesFor_iff]
  constructor
  · rintro ⟨p, hp, hnone⟩
    have hfinal : Direct.Final m ref.target p.reading := (hv.readings _).mp ⟨p, hp, rfl⟩
    rcases (hv.present p hp).reading_cases (ref.fieldIn holder) with ⟨hvalue, _⟩ |
      ⟨u, hvalue, hread⟩
    · rw [hvalue] at hnone
      cases hnone
    · rw [hvalue] at hnone
      obtain ⟨x, hx, hrefused⟩ := (hbody u.set).mp hnone
      exact ⟨p.reading, _, x, hfinal, hread, hx, hrefused⟩
  · rintro ⟨b, members, x, hfinal, hcontent, hx, hrefused⟩
    obtain ⟨p, hp, rfl⟩ := (hv.readings _).mpr hfinal
    refine ⟨p, hp, ?_⟩
    rcases (hv.present p hp).reading_cases (ref.fieldIn holder) with ⟨_, hread⟩ | ⟨u, hvalue, hread⟩
    · cases hread.symm.trans hcontent
    · obtain rfl := Option.some.inj (hread.symm.trans hcontent)
      rw [hvalue]
      exact (hbody u.set).mpr ⟨x, hx, hrefused⟩

end Solver

end FieldFlow
