import FieldFlow.Proofs.Building
import FieldFlow.Proofs.Direct
import FieldFlow.Proofs.Interning

/-!
# Which models can be built

Whether a model can be built depends on its operations one by one.  A computation is judged by the
fault that it fails with in every workspace with the default factories and analyses; of computations
one after the other the first fault counts.  So the verdict on a model is that on the first
operation, in the order in which they are written, that is not well formed, and the fault says in
which object and in which field it stands.

Main definitions: `Work.Judged`, `Model.occurrences`, `Model.Field.WellFormed`,
`Model.Field.Offends`.
Main results: `Solver.judged_build`, `Solver.build_accepts_exactly`.
-/

namespace FieldFlow

/-- The default factories and the default analyses are registered. -/
structure Workspace.Equipped (w : Workspace) : Prop where
  factories : ∀ action, w.manager.factory? action = Factory.defaults.lookup action
  analyses : ∀ type, w.analyses.find? type = Analyses.defaults.lookup type

theorem Workspace.Standard.equipped {w : Workspace} (h : w.Standard) : w.Equipped :=
  ⟨h.factories, h.analyses⟩

/-- A manager with the same factories leaves a workspace equipped. -/
theorem Workspace.Equipped.managed {w : Workspace} (h : w.Equipped) {m : Manager}
    (hm : m.factories = w.manager.factories) : Workspace.Equipped { w with manager := m } :=
  ⟨fun action => by rw [← h.factories, Manager.factory?, Manager.factory?, hm], h.analyses⟩

/-! ## Verdicts -/

namespace Work

variable {α β : Type} {x : Work α} {f : α → Work β} {w w₁ : Workspace} {a : α} {fault : Fault}

/-- Started in `w`, the computation fails with the fault. -/
def FailsWith (x : Work α) (w : Workspace) (fault : Fault) : Prop :=
  ∃ w', x.run.run w = (.error fault, w')

/-- A computation that fails with a fault does not return. -/
theorem FailsWith.not_returns (h : x.FailsWith w fault) : ¬∃ a w', x.Returns w a w' := by
  rintro ⟨a, w', hreturns⟩
  obtain ⟨w₁, hfault⟩ := h
  exact absurd (Prod.mk.inj (hfault.symm.trans hreturns)).1 (by simp)

theorem FailsWith.unique {fault' : Fault} (h : x.FailsWith w fault) (h' : x.FailsWith w fault') :
    fault = fault' := by
  obtain ⟨_, hfault⟩ := h
  obtain ⟨_, hfault'⟩ := h'
  exact Except.error.inj (Prod.mk.inj (hfault.symm.trans hfault')).1

/-- A computation that starts with one that fails, fails with its fault. -/
theorem FailsWith.bind (h : x.FailsWith w fault) : (x >>= f).FailsWith w fault := by
  obtain ⟨w', hfault⟩ := h
  exact ⟨w', by rw [run_bind, hfault]⟩

/-- A computation that starts with one that returns, fails as the rest does. -/
theorem Returns.bind_failsWith (h : x.Returns w a w₁) (hf : (f a).FailsWith w₁ fault) :
    (x >>= f).FailsWith w fault := by
  obtain ⟨w', hfault⟩ := hf
  refine ⟨w', ?_⟩
  rw [run_bind, h]
  exact hfault

theorem FailsWith.within {place : Fault → Fault} (h : x.FailsWith w fault) :
    (within place x).FailsWith w (place fault) := by
  obtain ⟨w', hfault⟩ := h
  exact ⟨w', by rw [run_within, hfault]⟩

/-- In every equipped workspace the computation fails with the fault of the verdict; without one it
returns, and the workspace stays equipped. -/
structure Judged (x : Work α) (verdict : Option Fault) : Prop where
  returns : ∀ {w}, w.Equipped → verdict = none → ∃ a w', x.Returns w a w' ∧ w'.Equipped
  fails : ∀ {w fault}, w.Equipped → verdict = some fault → x.FailsWith w fault

variable {verdict : Option Fault}

/-- A computation returns if nothing is said against it. -/
theorem Judged.exists_returns_iff (h : x.Judged verdict) (hw : w.Equipped) :
    (∃ a w', x.Returns w a w') ↔ verdict = none := by
  cases verdict with
  | none =>
    obtain ⟨a, w', hreturns, _⟩ := h.returns hw rfl
    exact ⟨fun _ => rfl, fun _ => ⟨a, w', hreturns⟩⟩
  | some fault =>
    exact ⟨fun hreturns => absurd hreturns (h.fails hw rfl).not_returns,
      fun hnone => by cases hnone⟩

/-- A computation fails with the fault of its verdict. -/
theorem Judged.failsWith_iff (h : x.Judged verdict) (hw : w.Equipped) :
    x.FailsWith w fault ↔ verdict = some fault := by
  constructor
  · intro hfails
    cases verdict with
    | none =>
      obtain ⟨a, w', hreturns, _⟩ := h.returns hw rfl
      exact absurd ⟨a, w', hreturns⟩ hfails.not_returns
    | some fault' => rw [hfails.unique (h.fails hw rfl)]
  · exact h.fails hw

theorem judged_pure (a : α) : (pure a : Work α).Judged none :=
  ⟨fun hw _ => ⟨a, _, returns_pure.mpr ⟨rfl, rfl⟩, hw⟩, fun _ h => by cases h⟩

theorem judged_throw (fault : Fault) : (throw fault : Work α).Judged (some fault) := by
  refine ⟨fun _ h => (by cases h), fun {w _} _ h => ?_⟩
  obtain rfl := Option.some.inj h
  exact ⟨w, rfl⟩

/-- **Of computations one after the other** the first fault counts. -/
theorem Judged.bind {verdict' : Option Fault} (hx : x.Judged verdict)
    (hf : ∀ a, (f a).Judged verdict') :
    (x >>= f).Judged (verdict.or verdict') := by
  cases verdict with
  | some fault =>
    refine ⟨fun _ h => (by cases h), fun hw h => ?_⟩
    exact (hx.fails hw (h : some fault = _)).bind
  | none =>
    refine ⟨fun hw h => ?_, fun hw h => ?_⟩
    · obtain ⟨a, w₁, hreturns, hw₁⟩ := hx.returns hw rfl
      obtain ⟨b, w₂, hreturns', hw₂⟩ := (hf a).returns hw₁ h
      exact ⟨b, w₂, returns_bind.mpr ⟨a, w₁, hreturns, hreturns'⟩, hw₂⟩
    · obtain ⟨a, w₁, hreturns, hw₁⟩ := hx.returns hw rfl
      exact hreturns.bind_failsWith ((hf a).fails hw₁ h)

theorem Judged.bind_none (hx : x.Judged verdict) (hf : ∀ a, (f a).Judged none) :
    (x >>= f).Judged verdict := by
  have h := hx.bind hf
  rwa [Option.or_none] at h

/-- Nothing is said against the first computation. -/
theorem Judged.none_bind (hx : x.Judged none) (hf : ∀ a, (f a).Judged verdict) :
    (x >>= f).Judged verdict :=
  hx.bind hf

theorem judged_get_bind {f : Workspace → Work β} (h : ∀ w, w.Equipped → (f w).Judged verdict) :
    (get >>= f).Judged verdict := by
  refine ⟨fun {w} hw hnone => ?_, fun {w fault} hw hfault => ?_⟩
  · obtain ⟨b, w', hreturns, hw'⟩ := (h w hw).returns hw hnone
    exact ⟨b, w', returns_bind.mpr ⟨w, w, returns_get.mpr ⟨rfl, rfl⟩, hreturns⟩, hw'⟩
  · exact (returns_get.mpr ⟨rfl, rfl⟩ : (get : Work Workspace).Returns w w w).bind_failsWith
      ((h w hw).fails hw hfault)

theorem Judged.within (hx : x.Judged verdict) (place : Fault → Fault) :
    (within place x).Judged (verdict.map place) := by
  refine ⟨fun hw h => ?_, fun hw h => ?_⟩
  · obtain ⟨a, w', hreturns, hw'⟩ := hx.returns hw (Option.map_eq_none_iff.mp h)
    exact ⟨a, w', returns_within.mpr hreturns, hw'⟩
  · obtain ⟨fault, hfault, rfl⟩ := Option.map_eq_some_iff.mp h
    exact (hx.fails hw hfault).within

/-- A computation of the manager that leaves the factories alone. -/
theorem judged_managed {action : Managed α}
    (h : ∀ {m a m'}, Yields action m a m' → m'.factories = m.factories) :
    (managed action).Judged none := by
  refine ⟨fun {w} hw _ => ?_, fun _ h => by cases h⟩
  obtain ⟨a, m, hyields⟩ := Yields.exists_run action w.manager
  exact ⟨a, _, returns_managed.mpr ⟨m, hyields, rfl⟩, hw.managed (h hyields)⟩

theorem judged_report (level : Log.Level) (message : String) (fields : List (String × String)) :
    (report level message fields).Judged none :=
  ⟨fun hw _ => ⟨(), _, returns_report.mpr rfl, hw.factories, hw.analyses⟩, fun _ h => by cases h⟩

end Work

/-! ## What actions refuse -/

namespace Factory

/-- What is said against an action on an element. -/
def literalFault? (action : String) (x : Element) : Option Fault :=
  if action ∈ ["add", "remove", "clear", "replace"] then none
  else if action = "compose" then some (.literalOperand action x)
  else some (.unknownAction action)

/-- What is said against an action on a reference. -/
def refFault? (action : String) (ref : Ref) : Option Fault :=
  if action = "compose" then none
  else if action ∈ ["add", "remove", "clear", "replace"] then some (.referenceOperand action ref)
  else some (.unknownAction action)

/-- An action that takes one element takes the next. -/
theorem literalFault?_further {action : String} {x y : Element}
    (h : literalFault? action x = none) :
    literalFault? (if action = "replace" then "add" else action) y = none := by
  grind [literalFault?]

end Factory

namespace Work

/-- Making a transformer by steady code fails with the fault that the code gives. -/
theorem judged_make (action : String) {code : Factory → Craft Transformer} {verdict : Option Fault}
    (hsteady : ∀ f, Factory.defaults.lookup action = some f → (code f).Steady)
    (hverdict : verdict = match Manager.made action code (Factory.defaults.lookup action) with
      | .error fault => some fault
      | .ok _ => none) : (attempt (Manager.make action code)).Judged verdict := by
  subst hverdict
  have hrun : ∀ {w : Workspace}, w.Equipped → (Manager.make action code).run.run w.manager =
      match Manager.made action code (Factory.defaults.lookup action) with
      | .error fault => (.error fault, w.manager)
      | .ok t => (.ok ((Manager.intern t).run w.manager).1,
          ((Manager.intern t).run w.manager).2) := by
    intro w hw
    rw [← hw.factories]
    exact Manager.run_make fun f hf => hsteady f (by rwa [← hw.factories])
  refine ⟨fun {w} hw h => ?_, fun {w fault} hw h => ?_⟩
  · have hx := hrun hw
    cases hmade : Manager.made action code (Factory.defaults.lookup action) with
    | error fault => rw [hmade] at h; cases h
    | ok t =>
      rw [hmade] at hx
      exact ⟨_, _, returns_attempt.mpr ⟨_, hx, rfl⟩, hw.managed rfl⟩
  · have hx := hrun hw
    split at h
    · rename_i hmade
      rw [hmade] at hx
      obtain rfl := Option.some.inj h
      refine ⟨w, ?_⟩
      show (((Manager.make action code).run.run w.manager).1,
        { w with manager := ((Manager.make action code).run.run w.manager).2 }) = _
      rw [hx]
    · cases h

/-- **What is said against an action on an element.**  Clearing takes what is no element too. -/
theorem judged_makeLiteral {action : String} {y : Element} (hy : y ≠ .nil ∨ action = "clear") :
    (attempt (Manager.makeLiteral action y)).Judged (Factory.literalFault? action y) := by
  refine judged_make action
    (fun f hf => ((Factory.Runs.literal y).of_defaults (mem_of_lookup hf)).1) ?_
  unfold Factory.defaults Factory.literalFault? Manager.made
  simp only [lookup_cons_ite, List.lookup_nil]
  grind [Factory.ofLiteral, Factory.adding, Factory.removing, Factory.clearing, Factory.replacing,
    Factory.composing]

/-- **What is said against an action on a reference.** -/
theorem judged_makeRef (action : String) (ref : Ref) :
    (attempt (Manager.makeRef action ref)).Judged (Factory.refFault? action ref) := by
  refine judged_make action
    (fun f hf => ((Factory.Runs.reference ref).of_defaults (mem_of_lookup hf)).1) ?_
  unfold Factory.defaults Factory.refFault? Manager.made
  simp only [lookup_cons_ite, List.lookup_nil]
  grind [Factory.ofRef, Factory.adding, Factory.removing, Factory.clearing, Factory.replacing,
    Factory.composing]

end Work

/-! ## What is said against a model -/

/-- One operation of a model: the object and the field that it stands in. -/
structure Model.Occurrence where
  id : ObjectId
  field : Model.Field
  op : Model.Op

/-- The operations of an object, in the order in which they are written. -/
def Model.Object.occurrences (o : Model.Object) : List Model.Occurrence :=
  o.paths.flatMap fun path => path.fields.flatMap fun f => f.ops.map fun op => ⟨o.id, f, op⟩

/-- The operations of a model, in the order in which they are written. -/
def Model.occurrences (m : Model) : List Model.Occurrence :=
  m.objects.flatMap Model.Object.occurrences

/-- What is found first in a list is found in its head or else in its tail. -/
theorem findSome?_cons_eq_or {α β : Type} (g : α → Option β) (x : α) (rest : List α) :
    (x :: rest).findSome? g = (g x).or (rest.findSome? g) := by
  rw [List.findSome?_cons]
  cases g x <;> rfl

/-- What is found first in lists one after the other is found in the first where there is
something. -/
theorem findSome?_flatMap {α β γ : Type} (lists : α → List β) (g : β → Option γ) (l : List α) :
    (l.flatMap lists).findSome? g = l.findSome? fun x => (lists x).findSome? g := by
  induction l with
  | nil => rfl
  | cons x rest ih => rw [List.flatMap_cons, List.findSome?_append, ih, findSome?_cons_eq_or]

namespace Solver

/-- What is said against an operation on the field. -/
def opFault? (f : Model.Field) (op : Model.Op) : Option Fault :=
  match op.ref with
  | some target => Factory.refFault? op.action (refOf f target)
  | none =>
    match Analyses.defaults.read f.valueType op.values with
    | .error fault => some fault
    | .ok [] => if op.action = "clear" then none else some (.withoutValues op.action)
    | .ok (x :: _) => Factory.literalFault? op.action x

/-- What is said against making transformers of elements is said against the first. -/
theorem judged_literalTransformers {action : String} {xs : List Element} (hxs : .nil ∉ xs) :
    (literalTransformers action xs).Judged (xs.head?.bind (Factory.literalFault? action)) := by
  induction xs generalizing action with
  | nil => exact Work.judged_pure []
  | cons x rest ih =>
    rw [List.mem_cons, not_or] at hxs
    have hrest : (Factory.literalFault? action x).or
        (rest.head?.bind (Factory.literalFault? (if action = "replace" then "add" else action)))
          = Factory.literalFault? action x := by
      cases hfirst : Factory.literalFault? action x with
      | some fault => rfl
      | none => cases rest <;> simp [Factory.literalFault?_further hfirst]
    rw [List.head?_cons, Option.bind_some, ← hrest]
    refine (Work.judged_makeLiteral (.inl (Ne.symm hxs.1))).bind fun t => ?_
    exact (ih hxs.2).bind_none fun others => Work.judged_pure (t :: others)

/-- **What is said against an operation.** -/
theorem judged_opTransformers (f : Model.Field) (op : Model.Op) :
    (opTransformers f op).Judged (opFault? f op) := by
  unfold opTransformers opFault?
  cases op.ref with
  | some target => exact (Work.judged_makeRef _ _).bind_none fun t => Work.judged_pure [t]
  | none =>
    refine Work.judged_get_bind fun w hw => ?_
    have hread : w.analyses.read f.valueType op.values =
        Analyses.defaults.read f.valueType op.values := by
      rw [Analyses.read, Analyses.read, hw.analyses]
      rfl
    rw [hread]
    cases helements : Analyses.defaults.read f.valueType op.values with
    | error fault => exact Work.judged_throw fault
    | ok elements =>
      cases elements with
      | nil =>
        dsimp only
        by_cases hclear : op.action = "clear"
        · rw [if_pos hclear, if_pos hclear]
          have hnone : Factory.literalFault? op.action .nil = none := by
            simp [Factory.literalFault?, hclear]
          rw [← hnone]
          exact (Work.judged_makeLiteral (.inr hclear)).bind_none fun t => Work.judged_pure [t]
        · rw [if_neg hclear, if_neg hclear]
          exact Work.judged_throw _
      | cons x rest => exact judged_literalTransformers (Direct.ne_nil_of_read helements)

theorem judged_composeOps (f : Model.Field) (start : Transformer) (ops : List Model.Op) :
    (composeOps f start ops).Judged (ops.findSome? (opFault? f)) := by
  induction ops generalizing start with
  | nil => exact Work.judged_pure start
  | cons op rest ih =>
    rw [findSome?_cons_eq_or]
    refine (judged_opTransformers f op).bind fun transformers => ?_
    exact (Work.judged_managed fun h => (Manager.composeAll_evolves h).factories).none_bind
      fun t => ih t

theorem judged_buildField (f : Model.Field) :
    (buildField f).Judged (f.ops.findSome? (opFault? f)) := by
  refine Work.judged_get_bind fun w _ => (judged_composeOps f _ f.ops).bind_none fun t => ?_
  refine (Work.judged_managed fun h => ?_).none_bind fun start => Work.judged_managed fun h => ?_
  · exact (Manager.internValue_evolves rfl h).1.factories
  · exact (Manager.apply_evolves h).1.factories

/-- What is said against fields, and in which field. -/
theorem judged_buildFields (p : PathValue) (fields : List Model.Field) :
    (buildFields p fields).Judged
      (fields.findSome? fun f => (f.ops.findSome? (opFault? f)).map (.inField f.name)) := by
  induction fields generalizing p with
  | nil => exact Work.judged_pure p
  | cons f rest ih =>
    rw [findSome?_cons_eq_or]
    exact ((judged_buildField f).within _).bind fun v => ih _

theorem judged_buildPaths (paths : List Model.Path) :
    (buildPaths paths).Judged
      (paths.findSome? fun path => path.fields.findSome? fun f =>
        (f.ops.findSome? (opFault? f)).map (.inField f.name)) := by
  induction paths with
  | nil => exact Work.judged_pure []
  | cons path rest ih =>
    rw [findSome?_cons_eq_or]
    exact (judged_buildFields .empty path.fields).bind fun p =>
      ih.bind_none fun others => Work.judged_pure (p :: others)

/-- What is said against one operation of a model, and where it stands. -/
def occurrenceFault? (x : Model.Occurrence) : Option Fault :=
  (opFault? x.field x.op).map fun cause => .inObject x.id.text (.inField x.field.name cause)

/-- What is said against an object, and in which object. -/
theorem judged_buildObject (o : Model.Object) :
    (Work.within (.inObject o.id.text) (buildObject o)).Judged
      (o.occurrences.findSome? occurrenceFault?) := by
  have hpaths : (buildObject o).Judged (o.paths.findSome? fun path => path.fields.findSome? fun f =>
      (f.ops.findSome? (opFault? f)).map (.inField f.name)) := by
    refine (judged_buildPaths o.paths).bind_none fun paths => ?_
    refine (Work.judged_managed fun h => ?_).none_bind fun serial => Work.judged_pure _
    cases h
    rfl
  have hverdict : o.occurrences.findSome? occurrenceFault? = (o.paths.findSome? fun path =>
      path.fields.findSome? fun f => (f.ops.findSome? (opFault? f)).map (.inField f.name)).map
        (.inObject o.id.text) := by
    simp only [Model.Object.occurrences, findSome?_flatMap, List.findSome?_map, List.map_findSome?,
      Function.comp_def, Option.map_map, occurrenceFault?]
  rw [hverdict]
  exact hpaths.within _

theorem judged_buildObjects (built : List (ObjectId × Propagation)) (objects : List Model.Object) :
    (buildObjects built objects).Judged
      ((objects.flatMap Model.Object.occurrences).findSome? occurrenceFault?) := by
  induction objects generalizing built with
  | nil => exact Work.judged_pure built
  | cons o rest ih =>
    rw [List.flatMap_cons, List.findSome?_append]
    exact (judged_buildObject o).bind fun v => ih _

theorem judged_reportTops (tops : List ObjectId) : (reportTops tops).Judged none := by
  induction tops with
  | nil => exact Work.judged_pure ()
  | cons id rest ih => exact (Work.judged_report _ _ _).none_bind fun _ => ih

/-- **What is said against a model** is what is said first against one of its operations. -/
theorem judged_build (m : Model) : (build m).Judged (m.occurrences.findSome? occurrenceFault?) := by
  have hnumber : nextNumber.Judged none :=
    ⟨fun hw _ => ⟨_, _, rfl, hw.factories, hw.analyses⟩, fun _ h => by cases h⟩
  exact hnumber.none_bind fun _ => (judged_buildObjects [] m.objects).bind_none fun _ =>
    (judged_reportTops _).none_bind fun _ => Work.judged_pure _

end Solver

/-! ## Operations that are well formed -/

namespace Model

/-- The element that a text stands for in a field of the type. -/
inductive Stands (type text : String) : Element → Prop
  | text (htype : type = "string") : Stands type text (.string text)
  | integer {n : Int} (htype : type = "int") (h : Integer.Reads text n) : Stands type text (.int n)

/-- The type is known, and the texts can be read as its values. -/
inductive Readable : String → List String → Prop
  | texts (texts : List String) : Readable "string" texts
  | integers {texts : List String} (h : ∀ text ∈ texts, ∃ n, Integer.Reads text n) :
      Readable "int" texts

/-- An operation that can be built: a reference is composed, whatever the field's type; literal
values can be read, and there are some unless the field is cleared. -/
inductive Field.WellFormed (f : Field) (op : Op) : Prop
  | referring {target : Target} (href : op.ref = some target) (haction : op.action = "compose")
  | clearing (href : op.ref = none) (hread : Readable f.valueType op.values)
      (haction : op.action = "clear")
  | editing (href : op.ref = none) (hread : Readable f.valueType op.values)
      (haction : op.action ∈ ["add", "remove", "replace"]) (hvalues : op.values ≠ [])

/-- The fault of an operation that cannot be built.  A fault in the values comes before the lack of
values, and this before a fault in the action. -/
inductive Field.Offends (f : Field) (op : Op) : Fault → Prop
  | referenceRefused {target : Target} (href : op.ref = some target)
      (haction : op.action ∈ ["add", "remove", "clear", "replace"]) :
      f.Offends op (.referenceOperand op.action (Solver.refOf f target))
  | unknownReferring {target : Target} (href : op.ref = some target)
      (haction : op.action ∉ ["add", "remove", "clear", "replace", "compose"]) :
      f.Offends op (.unknownAction op.action)
  | unknownType (href : op.ref = none) (htype : f.valueType ∉ ["string", "int"]) :
      f.Offends op (.noAnalysis f.valueType)
  | notInteger {before after : List String} {text : String} {refusal : Integer.Refusal}
      (href : op.ref = none)
      (htype : f.valueType = "int") (hvalues : op.values = before ++ text :: after)
      (hbefore : ∀ t ∈ before, ∃ n, Integer.Reads t n)
      (htext : Integer.read text = .error refusal) :
      f.Offends op (.badInteger text refusal)
  | withoutValues (href : op.ref = none) (htype : f.valueType ∈ ["string", "int"])
      (hvalues : op.values = [])
      (haction : op.action ≠ "clear") : f.Offends op (.withoutValues op.action)
  | literalRefused {text : String} {rest : List String} {x : Element} (href : op.ref = none)
      (hread : Readable f.valueType op.values) (hvalues : op.values = text :: rest)
      (hx : Stands f.valueType text x) (haction : op.action = "compose") :
      f.Offends op (.literalOperand op.action x)
  | unknownAction (href : op.ref = none) (hread : Readable f.valueType op.values)
      (hvalues : op.values ≠ [])
      (haction : op.action ∉ ["add", "remove", "clear", "replace", "compose"]) :
      f.Offends op (.unknownAction op.action)

/-! ## Reading values -/

variable {type : String} {texts : List String}

theorem Stands.unique {text : String} {x y : Element} (hx : Stands type text x)
    (hy : Stands type text y) : x = y := by
  cases hx with
  | text htype =>
    cases hy with
    | text => rfl
    | integer htype' => exact absurd (htype.symm.trans htype') (by decide)
  | integer htype hx =>
    cases hy with
    | text htype' => exact absurd (htype.symm.trans htype') (by decide)
    | integer _ hy =>
      have hsame := (Integer.read_eq_ok.mpr hx).symm.trans (Integer.read_eq_ok.mpr hy)
      rw [Except.ok.inj hsame]

/-- Texts that can be read are read as what they stand for. -/
theorem Readable.exists_read (h : Readable type texts) :
    ∃ xs, Analyses.defaults.read type texts = .ok xs ∧ List.Forall₂ (Stands type) texts xs := by
  cases h with
  | texts =>
    refine ⟨texts.map Element.string, rfl, ?_⟩
    exact List.forall₂_map_right_iff.mpr (List.forall₂_same.mpr fun _ _ => .text rfl)
  | integers h =>
    obtain ⟨xs, hread⟩ := Analysis.exists_readIntegers_eq_ok.mpr h
    obtain ⟨numbers, hnumbers, rfl⟩ := Analysis.readIntegers_eq_ok.mp hread
    exact ⟨_, hread, List.forall₂_map_right_iff.mpr (hnumbers.imp fun _ _ => .integer rfl)⟩

/-- The type of values that can be read is known. -/
theorem Readable.type_mem (h : Readable type texts) : type ∈ ["string", "int"] := by
  cases h <;> simp

/-- No values can always be read, if the type is known. -/
theorem readable_nil (h : type ∈ ["string", "int"]) : Readable type [] := by
  simp only [List.mem_cons, List.not_mem_nil, or_false] at h
  rcases h with rfl | rfl
  · exact .texts []
  · exact .integers (by simp)

/-- The values of a type that is not known are not read. -/
theorem read_of_unknown (h : type ∉ ["string", "int"]) (texts : List String) :
    Analyses.defaults.read type texts = .error (.noAnalysis type) := by
  simp only [List.mem_cons, List.not_mem_nil, or_false, not_or] at h
  simp [Analyses.read, Analyses.find?, Analyses.defaults, lookup_cons_ite, h]

/-- **Values can be read**, or their type is not known, or there is a first one that is no
integer. -/
theorem read_cases (type : String) (texts : List String) :
    Readable type texts ∨ type ∉ ["string", "int"] ∨
      type = "int" ∧ ∃ before text after refusal, texts = before ++ text :: after ∧
        (∀ t ∈ before, ∃ n, Integer.Reads t n) ∧ Integer.read text = .error refusal := by
  by_cases hstring : type = "string"
  · subst hstring
    exact .inl (.texts texts)
  by_cases hint : type = "int"
  · subst hint
    cases hread : Analysis.readIntegers texts with
    | error fault =>
      obtain ⟨before, text, after, refusal, htexts, hbefore, hrefused, _⟩ :=
        Analysis.readIntegers_eq_error.mp hread
      exact .inr (.inr ⟨rfl, before, text, after, refusal, htexts, hbefore, hrefused⟩)
    | ok xs => exact .inl (.integers (Analysis.exists_readIntegers_eq_ok.mp ⟨xs, hread⟩))
  · exact .inr (.inl (by simp [hstring, hint]))

end Model

namespace Solver

variable {f : Model.Field} {op : Model.Op}

/-- What is said against an operation whose values can be read. -/
theorem opFault?_of_readable (href : op.ref = none) (hread : Model.Readable f.valueType op.values) :
    op.values = [] ∧
      opFault? f op = (if op.action = "clear" then none else some (.withoutValues op.action)) ∨
    ∃ text rest x, op.values = text :: rest ∧ Model.Stands f.valueType text x ∧
      opFault? f op = Factory.literalFault? op.action x := by
  obtain ⟨xs, hxs, hstands⟩ := hread.exists_read
  unfold opFault?
  rw [href]
  dsimp only
  rw [hxs]
  generalize op.values = values at hstands
  cases hstands with
  | nil => exact .inl ⟨rfl, rfl⟩
  | cons hx _ => exact .inr ⟨_, _, _, rfl, hx, rfl⟩

/-- What is said against an operation whose values cannot be read. -/
theorem opFault?_of_read_eq_error (href : op.ref = none) {fault : Fault}
    (hread : Analyses.defaults.read f.valueType op.values = .error fault) :
    opFault? f op = some fault := by
  unfold opFault?
  rw [href]
  dsimp only
  rw [hread]

/-- What is said against an operation with a reference. -/
theorem opFault?_of_ref {target : Model.Target} (href : op.ref = some target) :
    opFault? f op = Factory.refFault? op.action (refOf f target) := by
  unfold opFault?
  rw [href]

/-- **The fault of an operation** is said against it. -/
theorem opFault?_of_offends {fault : Fault} (h : f.Offends op fault) :
    opFault? f op = some fault := by
  cases h with
  | referenceRefused href haction =>
    rw [opFault?_of_ref href]
    grind [Factory.refFault?]
  | unknownReferring href haction =>
    rw [opFault?_of_ref href]
    grind [Factory.refFault?]
  | unknownType href htype => exact opFault?_of_read_eq_error href (Model.read_of_unknown htype _)
  | notInteger href htype hvalues hbefore htext =>
    refine opFault?_of_read_eq_error href ?_
    rw [htype]
    exact Analysis.readIntegers_eq_error.mpr ⟨_, _, _, _, hvalues, hbefore, htext, rfl⟩
  | withoutValues href htype hvalues haction =>
    have hread : Model.Readable f.valueType op.values := by
      rw [hvalues]
      exact Model.readable_nil htype
    rcases opFault?_of_readable href hread with ⟨_, hfault⟩ | ⟨_, _, _, hcons, _⟩
    · rw [hfault, if_neg haction]
    · rw [hvalues] at hcons
      cases hcons
  | literalRefused href hread hvalues hx haction =>
    rcases opFault?_of_readable href hread with ⟨hnil, _⟩ | ⟨_, _, y, hcons, hy, hfault⟩
    · rw [hvalues] at hnil
      cases hnil
    · obtain ⟨rfl, _⟩ := List.cons.inj (hvalues.symm.trans hcons)
      rw [hfault, hx.unique hy]
      grind [Factory.literalFault?]
  | unknownAction href hread hvalues haction =>
    rcases opFault?_of_readable href hread with ⟨hnil, _⟩ | ⟨_, _, y, _, _, hfault⟩
    · exact absurd hnil hvalues
    · rw [hfault]
      grind [Factory.literalFault?]

/-- Nothing is said against an operation that is well formed. -/
theorem opFault?_of_wellFormed (h : f.WellFormed op) : opFault? f op = none := by
  cases h with
  | referring href haction =>
    rw [opFault?_of_ref href, Factory.refFault?, if_pos haction]
  | clearing href hread haction =>
    rcases opFault?_of_readable href hread with ⟨_, hfault⟩ | ⟨_, _, _, _, _, hfault⟩
    · rw [hfault, if_pos haction]
    · rw [hfault]
      grind [Factory.literalFault?]
  | editing href hread haction hvalues =>
    rcases opFault?_of_readable href hread with ⟨hnil, _⟩ | ⟨_, _, _, _, _, hfault⟩
    · exact absurd hnil hvalues
    · rw [hfault]
      grind [Factory.literalFault?]

/-- **An operation is well formed or has a fault.** -/
theorem wellFormed_or_offends (f : Model.Field) (op : Model.Op) :
    f.WellFormed op ∨ ∃ fault, f.Offends op fault := by
  cases href : op.ref with
  | some target =>
    by_cases hcompose : op.action = "compose"
    · exact .inl (.referring href hcompose)
    by_cases hknown : op.action ∈ ["add", "remove", "clear", "replace"]
    · exact .inr ⟨_, .referenceRefused href hknown⟩
    · exact .inr ⟨_, .unknownReferring href (by grind)⟩
  | none =>
    rcases Model.read_cases f.valueType op.values with
      hread | htype | ⟨htype, before, text, after, refusal, hvalues, hbefore, htext⟩
    · by_cases hclear : op.action = "clear"
      · exact .inl (.clearing href hread hclear)
      cases hvalues : op.values with
      | nil => exact .inr ⟨_, .withoutValues href hread.type_mem hvalues hclear⟩
      | cons text rest =>
        have hne : op.values ≠ [] := by simp [hvalues]
        by_cases hcompose : op.action = "compose"
        · rcases opFault?_of_readable href hread with ⟨hnil, _⟩ | ⟨_, _, x, hcons, hx, _⟩
          · exact absurd hnil hne
          · exact .inr ⟨_, .literalRefused href hread hcons hx hcompose⟩
        by_cases hknown : op.action ∈ ["add", "remove", "replace"]
        · exact .inl (.editing href hread hknown hne)
        · exact .inr ⟨_, .unknownAction href hread hne (by grind)⟩
    · exact .inr ⟨_, .unknownType href htype⟩
    · exact .inr ⟨_, .notInteger href htype hvalues hbefore htext⟩

/-- An operation is well formed if nothing is said against it. -/
theorem wellFormed_iff : f.WellFormed op ↔ opFault? f op = none := by
  refine ⟨opFault?_of_wellFormed, fun hnone => ?_⟩
  rcases wellFormed_or_offends f op with h | ⟨fault, h⟩
  · exact h
  · rw [opFault?_of_offends h] at hnone
    cases hnone

/-- An operation has the fault that is said against it. -/
theorem offends_iff {fault : Fault} : f.Offends op fault ↔ opFault? f op = some fault := by
  refine ⟨opFault?_of_offends, fun hsome => ?_⟩
  rcases wellFormed_or_offends f op with h | ⟨fault', h⟩
  · rw [opFault?_of_wellFormed h] at hsome
    cases hsome
  · rw [opFault?_of_offends h] at hsome
    obtain rfl := Option.some.inj hsome
    exact h

/-- **Building accepts exactly the well-formed operations.**  In a workspace with the default
factories and analyses, a model is built if all its operations are well formed; otherwise building
fails with the fault of the first one that is not, in the order in which they are written, and says
where it stands. -/
theorem build_accepts_exactly {w : Workspace} (hw : w.Equipped) (m : Model) :
    ((∃ s w', (build m).Returns w s w') ↔ ∀ x ∈ m.occurrences, x.field.WellFormed x.op) ∧
    ∀ fault, (build m).FailsWith w fault ↔
      ∃ before x after cause, m.occurrences = before ++ x :: after ∧
      (∀ y ∈ before, y.field.WellFormed y.op) ∧ x.field.Offends x.op cause ∧
      fault = .inObject x.id.text (.inField x.field.name cause) := by
  have hnone : ∀ x : Model.Occurrence, occurrenceFault? x = none ↔ x.field.WellFormed x.op :=
    fun x => by
    rw [occurrenceFault?, Option.map_eq_none_iff, wellFormed_iff]
  constructor
  · rw [(judged_build m).exists_returns_iff hw, List.findSome?_eq_none_iff]
    exact forall₂_congr fun x _ => hnone x
  · intro fault
    rw [(judged_build m).failsWith_iff hw, List.findSome?_eq_some_iff]
    constructor
    · rintro ⟨before, x, after, hoccurrences, hx, hbefore⟩
      obtain ⟨cause, hcause, rfl⟩ := Option.map_eq_some_iff.mp hx
      exact ⟨before, x, after, cause, hoccurrences, fun y hy => (hnone y).mp (hbefore y hy),
        offends_iff.mpr hcause, rfl⟩
    · rintro ⟨before, x, after, cause, hoccurrences, hbefore, hx, rfl⟩
      refine ⟨before, x, after, hoccurrences, ?_, fun y hy => (hnone y).mpr (hbefore y hy)⟩
      exact Option.map_eq_some_iff.mpr ⟨cause, offends_iff.mp hx, rfl⟩

/-- Two objects with integers in a field; the text is the last one. -/
def numbered (text : String) : Model :=
  ⟨"v1", [⟨"first", "exit", [⟨[⟨"ports", "int",
      [⟨"compose", [], some ⟨"second", "exit", "", "remove"⟩⟩, ⟨"add", ["+7"], none⟩]⟩]⟩]⟩,
    ⟨"second", "exit",
      [⟨[⟨"ports", "int", [⟨"replace", ["-8", text], none⟩, ⟨"shift", [], none⟩]⟩]⟩]⟩]⟩

/-- The first integer that does not fit is refused; if all fit, then the action without values,
although nobody knows it. -/
theorem build_accepts_exactly_numbered :
    (build (numbered "9223372036854775808")).FailsWith (.standard true)
      (.inObject "second@exit" (.inField "ports" (.badInteger "9223372036854775808" .outOfRange))) ∧
    (build (numbered "9223372036854775807")).FailsWith (.standard true)
      (.inObject "second@exit" (.inField "ports" (.withoutValues "shift"))) := by
  have hreads : ∀ {text n}, Integer.read text = .ok n → ∃ n, Integer.Reads text n :=
    fun h => ⟨_, Integer.read_eq_ok.mp h⟩
  have hseven : ∃ n, Integer.Reads "+7" n := hreads (n := 7) (by decide)
  have height : ∃ n, Integer.Reads "-8" n := hreads (n := -8) (by decide)
  have hlargest : ∃ n, Integer.Reads "9223372036854775807" n :=
    hreads (n := 9223372036854775807) (by decide +kernel)
  have hcompose : ∀ ops, Model.Field.WellFormed ⟨"ports", "int", ops⟩
      ⟨"compose", [], some ⟨"second", "exit", "", "remove"⟩⟩ := fun _ => .referring rfl rfl
  have hadd : ∀ ops, Model.Field.WellFormed ⟨"ports", "int", ops⟩ ⟨"add", ["+7"], none⟩ := fun _ =>
    .editing rfl (.integers (List.forall_mem_singleton.mpr hseven)) (by simp) (by simp)
  constructor
  · refine ((build_accepts_exactly Workspace.standard_standard.equipped _).2 _).mpr
      ⟨[_, _], _, [_], _, rfl, ?_,
        .notInteger rfl rfl (rfl : _ = ["-8"] ++ _ :: []) ?_ (by decide +kernel), rfl⟩
    · simp only [List.forall_mem_cons]
      exact ⟨hcompose _, hadd _, by simp⟩
    · exact List.forall_mem_singleton.mpr height
  · refine ((build_accepts_exactly Workspace.standard_standard.equipped _).2 _).mpr
      ⟨[_, _, _], _, [], _, rfl, ?_, .withoutValues rfl (by decide) rfl (by decide), rfl⟩
    simp only [List.forall_mem_cons]
    refine ⟨hcompose _, hadd _, .editing rfl (.integers ?_) (by simp) (by simp), by simp⟩
    simp only [List.forall_mem_cons]
    exact ⟨height, hlargest, by simp⟩

end Solver

end FieldFlow
