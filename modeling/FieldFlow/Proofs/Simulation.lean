import FieldFlow.Proofs.Agreement

/-!
# Simulation between models

A model simulates another on a set of objects that is closed under references, if it has every path
of these objects, with the same declarations, and the same of them are missing or on a cycle.  Then
all that the objects of the one come to, those of the other come to as well: final paths are final
paths, alternatives are alternatives, and what is stuck is stuck.  Where two models simulate each
other, the objects come to the same.

Main definitions: `Model.Simulates`.
Main results: `Model.Simulates.final`, `Model.Simulates.finalView`, `Model.Simulates.stuck`,
`Model.Simulates.agrees`.
-/

namespace FieldFlow

/-! ## More alternatives -/

section Alternatives

variable {answers answers' : Ref → Set (Option Instance)}

/-- With more alternatives for its references a sequence has more choices. -/
theorem replays_mono {steps : Sequence} {current current' : Set (Option Instance)}
    (h : ∀ step ∈ steps, ∀ ref, step.ref = some ref → answers ref ⊆ answers' ref)
    (hcurrent : current ⊆ current') :
    replays answers steps current ⊆ replays answers' steps current' := by
  induction steps generalizing current current' with
  | nil => exact hcurrent
  | cons step rest ih =>
    refine ih (fun other hother => h other (List.mem_cons_of_mem _ hother)) ?_
    rintro x ⟨c, hc, d, hd, rfl⟩
    refine ⟨c, hcurrent hc, d, ?_, rfl⟩
    revert hd
    unfold choices
    cases href : step.ref with
    | none => exact id
    | some ref => exact fun hd => h step List.mem_cons_self ref href hd

/-- With more alternatives for its references a field may hold more in the end. -/
theorem unfolded_mono {v : Value}
    (h : ∀ step ∈ v.sequence.getD [], ∀ ref, step.ref = some ref → answers ref ⊆ answers' ref) :
    unfolded answers (some (some v)) ⊆ unfolded answers' (some (some v)) := by
  refine Set.image_mono ?_
  rintro o ⟨c, hc, rfl⟩
  exact ⟨c, replays_mono h (fun _ hx => hx) hc, rfl⟩

end Alternatives

/-! ## Objects and declarations -/

namespace Model

open Solver

variable {m m' : Model} {id : ObjectId} {o : Object} {path : Path} {name : String} {f : Field}

/-- The object of a name is an object of the model, with that name. -/
theorem of_object? (h : m.object? id = some o) : o ∈ m.objects ∧ o.id = id :=
  ⟨List.mem_reverse.mp (List.mem_of_find?_eq_some h), by simpa using List.find?_some h⟩

/-- The declaration of a field is one of the path. -/
theorem mem_of_declaration? (h : path.declaration? name = some f) : f ∈ path.fields :=
  List.mem_reverse.mp (List.mem_of_find?_eq_some h)

theorem mem_of_mem_effective {ops : List Op} {op : Op} (h : op ∈ effective ops) : op ∈ ops := by
  induction ops with
  | nil => exact h
  | cons first rest ih =>
    rw [effective] at h
    split at h
    · exact List.mem_cons_of_mem _ (ih h)
    · exact h

/-- An object refers to what its declarations refer to. -/
theorem refers_of_declaration? (ho : m.object? id = some o) (hpath : path ∈ o.paths)
    (hf : path.declaration? name = some f) {op : Op} (hop : op ∈ f.ops) {target : Target}
    (htarget : op.ref = some target) : m.Refers id target.id :=
  ⟨o, (of_object? ho).1, (of_object? ho).2, path, hpath, f, mem_of_declaration? hf, op, hop, target,
    htarget, rfl⟩

/-! ## Simulation -/

/-- On the objects that `P` holds of, which refer to no others, the second model has all paths of
the first, and the same objects are missing or on a cycle. -/
structure Simulates (P : ObjectId → Prop) (m m' : Model) : Prop where
  closed : ∀ {a b}, P a → m.Refers a b → P b
  has : ∀ {id}, P id → (m.Has id ↔ m'.Has id)
  cycle : ∀ {id}, P id → (m.OnCycle id ↔ m'.OnCycle id)
  paths : ∀ {id o}, P id → m.object? id = some o → ∃ o', m'.object? id = some o' ∧
    ∀ path ∈ o.paths, ∃ path' ∈ o'.paths, path.declaration? = path'.declaration?

namespace Simulates

variable {P : ObjectId → Prop} (h : Simulates P m m')

include h

/-- **Final paths of direct execution carry over.** -/
theorem final {b : Reading} (hP : P id) (hfinal : Direct.Final m id b) : Direct.Final m' id b := by
  -- effects and runs carry over together with final paths, if `P` holds of what they refer to
  refine @Direct.Final.rec m
    (fun f op effect _ => (∀ target, op.ref = some target → P target.id) →
      Direct.Effects m' f op effect)
    (fun f ops s s' _ => (∀ op ∈ ops, ∀ target, op.ref = some target → P target.id) →
      Direct.Runs m' f ops s s')
    (fun id b _ => P id → Direct.Final m' id b) ?_ ?_ ?_ ?_ ?_ ?_ id b hfinal hP
  · intro f op xs act href hread hact _
    exact .literal href hread hact
  · intro f op target haction href hunknown hwritten
    have htarget : P target.id := hwritten target href
    refine .unknown haction href ?_
    rwa [← h.has htarget, ← h.cycle htarget]
  · intro f op target b effect haction href hcycle _ hfolds ih hwritten
    have htarget : P target.id := hwritten target href
    exact .chosen haction href (mt (h.cycle htarget).mpr hcycle) (ih htarget) hfolds
  · intro f s _
    exact .done
  · intro f op rest effect s s' _ _ ihEffect ihRest hwritten
    refine .step (ihEffect (hwritten op List.mem_cons_self)) (ihRest fun other hother => ?_)
    exact hwritten other (List.mem_cons_of_mem _ hother)
  · intro id o path b ho hpath _ hothers ih hP
    obtain ⟨o', ho', hpaths⟩ := h.paths hP ho
    obtain ⟨path', hpath', hsame⟩ := hpaths path hpath
    refine .path ho' hpath' (fun name f hf => ?_) fun name hnone => hothers name (hsame ▸ hnone)
    rw [← hsame] at hf
    refine ih name f hf fun op hop target htarget => ?_
    exact h.closed hP (refers_of_declaration? ho hpath hf (mem_of_mem_effective hop) htarget)

/-- The alternatives for a reference carry over. -/
theorem answers {holder : String} {ref : Ref} (hP : P ref.target) :
    Direct.answers m holder ref ⊆ Direct.answers m' holder ref := by
  rintro c
    (⟨hunknown, hbody⟩ | ⟨hcycle, hfinal, hcontent⟩ | ⟨hcycle, hfinal, hcontent, hordered, hbodies⟩)
  · refine .unknown ?_ hbody
    rwa [← h.has hP, ← h.cycle hP]
  · exact .untracked (mt (h.cycle hP).mpr hcycle) (h.final hP hfinal) hcontent
  · exact .tracked (mt (h.cycle hP).mpr hcycle) (h.final hP hfinal) hcontent hordered hbodies

/-- **The final paths of an object carry over.** -/
theorem finalView {b : View} (hP : P id) (hb : FinalView m id b) : FinalView m' id b := by
  obtain ⟨o, ho, path, hpath, hsettles⟩ := hb
  obtain ⟨o', ho', hpaths⟩ := h.paths hP ho
  obtain ⟨path', hpath', hsame⟩ := hpaths path hpath
  refine ⟨o', ho', path', hpath', fun name f hf => ?_,
    fun name hnone => hsettles.others name (hsame ▸ hnone)⟩
  rw [← hsame] at hf
  obtain ⟨v, hv, hheld⟩ := hsettles.fields name f hf
  refine ⟨v, hv, unfolded_mono (fun step hstep ref href => ?_) hheld⟩
  -- what the field waits for was written in one of its operations
  obtain ⟨op, hop, target, htarget, rfl⟩ := written_of_valueOf hv hstep href
  have hreferred : P (refOf f target).target :=
    h.closed hP (refers_of_declaration? ho hpath hf hop htarget)
  exact h.answers hreferred

theorem waits {holder : String} {ref : Ref} (hP : P id) (hwaits : Waits m id holder ref) :
    Waits m' id holder ref := by
  obtain ⟨o, ho, path, hpath, f, v, hf, hv, hstep⟩ := hwaits
  obtain ⟨o', ho', hpaths⟩ := h.paths hP ho
  obtain ⟨path', hpath', hsame⟩ := hpaths path hpath
  exact ⟨o', ho', path', hpath', f, v, hsame ▸ hf, hv, hstep⟩

/-- **What is stuck carries over.** -/
theorem stuck (hP : P id) (hstuck : Stuck m id) : Stuck m' id := by
  induction hstuck with
  | contents hwaits hcycle hrejects =>
    have htarget := h.closed hP hwaits.refers
    obtain ⟨b, members, x, hfinal, hrefused⟩ := hrejects
    exact .contents (h.waits hP hwaits) (mt (h.cycle htarget).mpr hcycle)
      ⟨b, members, x, h.final htarget hfinal, hrefused⟩
  | target hwaits hhas hcycle _ ih =>
    have htarget := h.closed hP hwaits.refers
    exact .target (h.waits hP hwaits) ((h.has htarget).mp hhas) (mt (h.cycle htarget).mpr hcycle)
      (ih htarget)

/-- **Objects come to the same** in models that simulate each other. -/
theorem agrees (h' : Simulates P m' m) (hP : P id) : Agrees m m' id :=
  ⟨h.cycle hP, ⟨h.stuck hP, h'.stuck hP⟩, fun _ => ⟨h.finalView hP, h'.finalView hP⟩⟩

end Simulates

/-! ## Valid models -/

/-- The objects of a valid model have different names. -/
theorem nodup_of_validateObjects {index : Nat} {seen : List ObjectId} {objects : List Object}
    (h : validateObjects index seen objects = .ok ()) :
    (objects.map Object.id).Nodup ∧ ∀ o ∈ objects, o.id ∉ seen := by
  induction objects generalizing index seen with
  | nil => exact ⟨.nil, fun o ho => absurd ho List.not_mem_nil⟩
  | cons o rest ih =>
    unfold validateObjects at h
    split at h
    · cases h
    split at h
    · cases h
    rename_i hseen
    cases hpaths : validatePaths o.id 0 o.paths with
    | error violation =>
      rw [hpaths] at h
      cases h
    | ok _ =>
      rw [hpaths] at h
      obtain ⟨hnodup, hnew⟩ := ih h
      refine ⟨List.nodup_cons.mpr ⟨fun hmem => ?_, hnodup⟩, fun other hother => ?_⟩
      · obtain ⟨other, hother, hid⟩ := List.mem_map.mp hmem
        exact hnew other hother (hid ▸ List.mem_cons_self)
      · rcases List.mem_cons.mp hother with rfl | hother
        · simpa using hseen
        · exact fun hmem => hnew other hother (List.mem_cons_of_mem _ hmem)

theorem nodup_of_validate (h : m.validate = .ok ()) : (m.objects.map Object.id).Nodup := by
  unfold validate validateBy at h
  cases hversion : validateVersion Version.major? m.version with
  | error violation =>
    rw [hversion] at h
    cases h
  | ok _ =>
    rw [hversion] at h
    exact (nodup_of_validateObjects h).1

/-- A model has the objects that can be found in it. -/
theorem has_iff : m.Has id ↔ ∃ o, m.object? id = some o := by
  constructor
  · rintro ⟨o, ho, hid⟩
    cases hfound : m.object? id with
    | none =>
      have hnone := List.find?_eq_none.mp hfound o (List.mem_reverse.mpr ho)
      exact absurd hid (by simpa using hnone)
    | some other => exact ⟨other, rfl⟩
  · rintro ⟨o, ho⟩
    exact ⟨o, of_object? ho⟩

/-- In a model that lists every object once, the object of a name is the one that has it. -/
theorem object?_eq_some (hm : (m.objects.map Object.id).Nodup) :
    m.object? id = some o ↔ o ∈ m.objects ∧ o.id = id := by
  refine ⟨of_object?, fun ⟨ho, hid⟩ => ?_⟩
  obtain ⟨other, hfound⟩ := has_iff.mp ⟨o, ho, hid⟩
  obtain ⟨hother, hid'⟩ := of_object? hfound
  rw [hfound, List.inj_on_of_nodup_map hm hother ho (hid'.trans hid.symm)]

end Model

end FieldFlow
