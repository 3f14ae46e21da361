import FieldFlow.Proofs.Composition
import FieldFlow.Proofs.Cycle
import FieldFlow.Solver.Result
import Mathlib.Data.List.Forall2

/-!
# What building a model gives

With the default factories and analyses, each operation of a model has fixed contents, or none if it
is not well-formed.  Building fails exactly at operations without contents; if it succeeds, every
field has the value that the composed contents of its operations make of an empty field.

The objects that are top are those on reference cycles, whatever the factories are.

Main definitions: `Workspace.Standard`, `Solver.bodies?`, `Solver.valueOf?`.
Main results: `Solver.follows_buildField`, `Solver.follows_build`, `Solver.top_iff_onCycle`.
-/

namespace FieldFlow

/-! ## Standard workspaces -/

namespace Workspace

/-- The manager is sound, the default factories and analyses are bound, and solvers that were not
begun have found nothing. -/
structure Standard (w : Workspace) : Prop where
  sound : w.manager.Sound
  factories : ∀ action, w.manager.factory? action = Factory.defaults.lookup action
  analyses : ∀ type, w.analyses.find? type = Analyses.defaults.lookup type
  finals : ∀ n, w.solvers ≤ n → w.finalsOf n = []

/-- The second workspace is what the first may become by giving out instances and writing the log.
Solvers may have been begun. -/
structure Advances (w w' : Workspace) : Prop where
  manager : w.manager.Grows w'.manager
  analyses : w'.analyses = w.analyses
  finals : w'.finals = w.finals
  solvers : w.solvers ≤ w'.solvers

variable {w w' w'' : Workspace}

theorem Standard.advances (hw : w.Standard) : w.Advances w :=
  ⟨hw.sound.grows, rfl, rfl, Nat.le_refl _⟩

/-- Advancing twice is advancing. -/
theorem Advances.trans (h : w.Advances w') (h' : w'.Advances w'') : w.Advances w'' :=
  ⟨h.manager.trans h'.manager, h'.analyses.trans h.analyses, h'.finals.trans h.finals,
    Nat.le_trans h.solvers h'.solvers⟩

/-- A manager that grows makes its workspace advance. -/
theorem advances_manager {m : Manager} (h : w.manager.Grows m) :
    w.Advances { w with manager := m } :=
  ⟨h, rfl, rfl, Nat.le_refl _⟩

theorem Standard.advances_counts (hw : w.Standard) (log : List Log.Entry)
    (requests objects pathValues : Nat) :
    w.Advances { w with
      log := log, requests := requests, objects := objects, pathValues := pathValues } :=
  ⟨hw.sound.grows, rfl, rfl, Nat.le_refl _⟩

/-- A standard workspace stays standard. -/
theorem Standard.mono (hw : w.Standard) (h : w.Advances w') : w'.Standard := by
  refine ⟨h.manager.sound, ?_, ?_, ?_⟩
  · intro action
    rw [Manager.factory?, h.manager.factories]
    exact hw.factories action
  · rw [h.analyses]
    exact hw.analyses
  · intro n hn
    rw [finalsOf, h.finals]
    exact hw.finals n (Nat.le_trans h.solvers hn)

/-- **A new workspace with the defaults is standard.** -/
theorem standard_standard : (standard true).Standard := by
  have hcreate : create.manager.Sound := Manager.sound_create (Pool.sound_empty _)
  have hfactories : (standard true).manager.factories = [("compose", .composing),
      ("replace", .replacing), ("clear", .clearing), ("remove", .removing), ("add", .adding)] := rfl
  have hanalyses : (standard true).analyses = [("int", .int), ("string", .string)] := rfl
  have hfinals : (standard true).finals = [] := rfl
  refine ⟨⟨⟨hcreate.pool, hcreate.identity, hcreate.blank⟩, hcreate.trailing⟩, ?_, ?_,
    by simp [finalsOf, hfinals]⟩
  · intro action
    rw [Manager.factory?, hfactories, Factory.defaults]
    simp only [lookup_cons_ite, List.lookup_nil]
    grind
  · intro type
    rw [Analyses.find?, hanalyses, Analyses.defaults]
    simp only [lookup_cons_ite, List.lookup_nil]
    grind

end Workspace

/-! ## What actions make -/

namespace Craft

/-- What the code makes on a bench where there is nothing. -/
def answer (code : Craft Transformer) : Except Fault Transformer :=
  (code.run.run ⟨.empty hash, []⟩).1

@[simp, grind =]
theorem answer_pure (t : Transformer) : answer (pure t) = .ok t := rfl

@[simp, grind =]
theorem answer_throw (fault : Fault) : answer (throw fault) = .error fault := rfl

/-- The code makes the same on every bench, and leaves the bench as it is. -/
def Steady (code : Craft Transformer) : Prop := ∀ b : Bench, code.run.run b = (answer code, b)

end Craft

namespace Manager

variable {m m' : Manager} {action : String} {code : Factory → Craft Transformer}
  {outcome : Except Fault Transformer}

/-- **What the code of a factory can do**: it works on the bench, and has neither the identity nor
the factories at hand. -/
theorem craft_spec {code : Craft Transformer} (h : Yields (craft code).run m outcome m') :
    Yields code.run m.bench outcome m'.bench ∧ m'.identity = m.identity ∧
      m'.factories = m.factories := by
  obtain ⟨rfl, rfl⟩ := Prod.mk.inj h
  exact ⟨rfl, rfl, rfl⟩

/-- **What making a transformer can do**: there is no factory for the action, or the code of the
factory fails, or what it makes is interned. -/
theorem make_cases (h : Yields (make action code).run m outcome m') :
    (m.factory? action = none ∧ m' = m ∧ outcome = .error (.unknownAction action)) ∨
    ∃ f, m.factory? action = some f ∧
      ((∃ fault, Yields (craft (code f)).run m (.error fault) m' ∧ outcome = .error fault) ∨
        ∃ t m₁ c, Yields (craft (code f)).run m (.ok t) m₁ ∧ Yields (intern t) m₁ c m' ∧
          outcome = .ok c) := by
  have hget : (get : ExceptT Fault Managed Manager).run.run m = pure (.ok m, m) := rfl
  rw [Yields, make, ExceptT.run_bind, StateT.run_bind, hget, pure_bind] at h
  dsimp only at h
  cases hfactory : m.factory? action with
  | none =>
    rw [hfactory] at h
    obtain ⟨rfl, rfl⟩ := Prod.mk.inj h
    exact .inl ⟨rfl, rfl, rfl⟩
  | some f =>
    rw [hfactory] at h
    refine .inr ⟨f, rfl, ?_⟩
    obtain ⟨made, m₁, hmade⟩ := Yields.exists_run (craft (code f)).run m
    have hbind : (ExceptT.bindCont (fun t => (intern t : ExceptT Fault Managed Transformer))
        ((craft (code f)).run.run m).1).run ((craft (code f)).run.run m).2 = (outcome, m') := h
    rw [show _ = _ from hmade] at hbind
    cases made with
    | error fault =>
      obtain ⟨rfl, rfl⟩ := Prod.mk.inj hbind
      exact .inl ⟨fault, hmade, rfl⟩
    | ok t =>
      obtain ⟨rfl, rfl⟩ := Prod.mk.inj hbind
      exact .inr ⟨t, m₁, _, hmade, rfl, rfl⟩

/-- What the code of a factory makes is interned. -/
theorem yields_make {f : Factory} {t c : Transformer} {m₁ : Manager}
    (hf : m.factory? action = some f) (hcraft : Yields (craft (code f)).run m (.ok t) m₁)
    (hintern : Yields (intern t) m₁ c m') : Yields (make action code).run m (.ok c) m' := by
  obtain ⟨outcome, m₂, h⟩ := Yields.exists_run (make action code).run m
  rcases make_cases h with ⟨hnone, _⟩ |
    ⟨f', hf', ⟨fault, hfailed, _⟩ | ⟨t', m₁', c', hok, hmade, rfl⟩⟩
  · rw [hf] at hnone
    cases hnone
  · obtain rfl := Option.some.inj (hf.symm.trans hf')
    cases (hcraft.unique hfailed).1
  · obtain rfl := Option.some.inj (hf.symm.trans hf')
    obtain ⟨⟨⟩, rfl⟩ := hcraft.unique hok
    obtain ⟨rfl, rfl⟩ := hintern.unique hmade
    exact h

/-- What a factory makes by steady code, or the failure to make it. -/
def made (action : String) (code : Factory → Craft Transformer) (found : Option Factory) :
    Except Fault Transformer :=
  found.elim (.error (.unknownAction action)) fun f => (code f).answer

theorem craft_of_steady {code : Craft Transformer} (h : code.Steady) (m : Manager) :
    Yields (craft code).run m code.answer m := by
  have hrun : (craft code).run.run m = ((code.run.run m.bench).1,
      { m with pool := (code.run.run m.bench).2.pool, kept := (code.run.run m.bench).2.kept }) :=
        rfl
  rw [Yields, hrun, h m.bench]
  rfl

/-- Making a transformer by steady code interns what the code answers. -/
theorem run_make (hsteady : ∀ f, m.factory? action = some f → (code f).Steady) :
    (make action code).run.run m = match made action code (m.factory? action) with
      | .error fault => (.error fault, m)
      | .ok t => (.ok ((intern t).run m).1, ((intern t).run m).2) := by
  obtain ⟨outcome, m', h⟩ := Yields.exists_run (make action code).run m
  rw [show _ = _ from h]
  rcases make_cases h with ⟨hnone, rfl, rfl⟩ | ⟨f, hf, hmade⟩
  · rw [hnone]
    rfl
  · rw [hf, made, Option.elim_some]
    have hcraft := craft_of_steady (hsteady f hf) m
    rcases hmade with ⟨fault, hfailed, rfl⟩ | ⟨t, m₁, c, hok, hintern, rfl⟩
    · obtain ⟨hanswer, rfl⟩ := hcraft.unique hfailed
      rw [hanswer]
    · obtain ⟨hanswer, rfl⟩ := hcraft.unique hok
      rw [hanswer]
      dsimp only
      rw [show _ = _ from hintern]

end Manager

namespace Factory

/-- The code that a factory has for an operand. -/
inductive Runs (f : Factory) (action : String) : Craft Transformer → Prop
  | literal (x : Element) : Runs f action (f.ofLiteral action x)
  | reference (ref : Ref) : Runs f action (f.ofRef action ref)

/-- The code of the default factories is steady, and what it makes is new. -/
theorem Runs.of_defaults {f : Factory} {action name : String} {code : Craft Transformer}
    (h : f.Runs action code) (hf : (name, f) ∈ defaults) :
    code.Steady ∧ ∀ t, code.answer = .ok t → t.serial = 0 := by
  have hcases : f ∈ [adding, removing, clearing, replacing, composing] :=
    List.mem_map_of_mem (f := Prod.snd) hf
  simp only [List.mem_cons, List.not_mem_nil, or_false] at hcases
  have hpure : ∀ t : Transformer, t.serial = 0 →
      Craft.Steady (pure t) ∧ ∀ u, Craft.answer (pure t) = .ok u → u.serial = 0 :=
    fun t ht => ⟨fun _ => rfl, fun u hu => Except.ok.inj hu ▸ ht⟩
  have hthrow : ∀ fault : Fault, Craft.Steady (throw fault) ∧
      ∀ u, Craft.answer (throw fault) = .ok u → u.serial = 0 :=
    fun fault => ⟨fun _ => rfl, fun u hu => by cases hu⟩
  rcases hcases with rfl | rfl | rfl | rfl | rfl <;> cases h with
  | reference ref => first | exact hthrow _ | exact hpure _ rfl
  | literal x =>
    by_cases hx : x = .nil <;>
      simp only [ofLiteral, adding, removing, clearing, replacing, composing,
      hx, if_true, if_false] <;> first | exact hthrow _ | exact hpure _ rfl

/-- What a default action makes of an element. -/
def literalBody? (action : String) (x : Element) : Option Transformer :=
  (defaults.lookup action).bind fun factory => (factory.ofLiteral action x).answer.toOption

/-- What a default action makes of a reference. -/
def refBody? (action : String) (ref : Ref) : Option Transformer :=
  (defaults.lookup action).bind fun factory => (factory.ofRef action ref).answer.toOption

/-- The default actions on elements, by name. -/
theorem literalBody?_eq_some {action : String} {x : Element} {body : Transformer} :
    literalBody? action x = some body ↔
      action = "clear" ∧ body = .draft none none true none ∨
      x ≠ .nil ∧ (action = "add" ∧ body = .draft (some (ElementSet.singleton x)) none false none ∨
        action = "remove" ∧ body = .draft none (some (ElementSet.singleton x)) false none ∨
        action = "replace" ∧ body = .draft (some (ElementSet.singleton x)) none true none) := by
  unfold literalBody? defaults
  simp only [lookup_cons_ite, List.lookup_nil]
  by_cases hx : x = .nil
  · grind [ofLiteral, adding, removing, clearing, replacing, composing, Except.toOption]
  · grind [ofLiteral, adding, removing, clearing, replacing, composing, Except.toOption]

theorem refBody?_eq_some {action : String} {ref : Ref} {body : Transformer} :
    refBody? action ref = some body ↔
      action = "compose" ∧ body = .draft none none false (some (Sequence.ofRefs [ref])) := by
  unfold refBody? defaults
  simp only [lookup_cons_ite, List.lookup_nil]
  grind [ofRef, adding, removing, clearing, replacing, composing, Except.toOption]

end Factory

/-! ## Computations with a known outcome -/

namespace Work

variable {α β γ δ : Type} {w w' : Workspace}

/-- Started in `w`, the computation fails exactly if there is no outcome; otherwise it gives
something that stands in the relation `rel` to the outcome.  The workspace advances in either
case. -/
structure Follows (x : Work α) (w : Workspace) (outcome : Option β)
    (rel : Workspace → α → β → Prop) :
    Prop where
  returns : ∀ {a w'}, x.Returns w a w' → w.Advances w' ∧ ∃ b, outcome = some b ∧ rel w' a b
  fails : x.Fails w ↔ outcome = none
  stops : ∀ {w'}, x.Stops w w' → w.Advances w'

variable {x : Work α} {f : α → Work γ} {outcome : Option β} {rel : Workspace → α → β → Prop}

theorem Follows.exists_returns (h : x.Follows w outcome rel) (houtcome : outcome ≠ none) :
    ∃ a w', x.Returns w a w' := by
  rcases returns_or_fails x w with hreturns | hfails
  · exact hreturns
  · exact absurd (h.fails.mp hfails) houtcome

theorem follows_pure {a : α} {b : β} (hw : w.Standard) (h : rel w a b) :
    (pure a : Work α).Follows w (some b) rel := by
  refine ⟨?_, iff_of_false fails_pure (by simp), fun h => absurd h.fails fails_pure⟩
  intro a' w' hreturns
  obtain ⟨rfl, rfl⟩ := returns_pure.mp hreturns
  exact ⟨hw.advances, b, rfl, h⟩

theorem follows_throw (hw : w.Standard) {fault : Fault} :
    (throw fault : Work α).Follows w none rel := by
  refine ⟨fun h => absurd h returns_throw, iff_of_true fails_throw rfl, fun h => ?_⟩
  obtain rfl := stops_throw.mp h
  exact hw.advances

/-- **The outcome of one computation after the other.** -/
theorem Follows.bind {next : β → Option δ} {rel' : Workspace → γ → δ → Prop}
    (hx : x.Follows w outcome rel)
    (hf : ∀ a b w', w.Advances w' → outcome = some b → rel w' a b →
      (f a).Follows w' (next b) rel') :
    (x >>= f).Follows w (outcome.bind next) rel' := by
  constructor
  · intro c w'' h
    obtain ⟨a, w', hreturns, hrest⟩ := returns_bind.mp h
    obtain ⟨hadvances, b, hb, hrel⟩ := hx.returns hreturns
    obtain ⟨hadvances', d, hd, hrel'⟩ := (hf a b w' hadvances hb hrel).returns hrest
    exact ⟨hadvances.trans hadvances', d, by rw [hb, Option.bind_some, hd], hrel'⟩
  · rw [fails_bind, hx.fails, Option.bind_eq_none_iff]
    constructor
    · rintro (hnone | ⟨a, w', hreturns, hfails⟩) b hb
      · rw [hnone] at hb
        cases hb
      · obtain ⟨hadvances, b', hb', hrel⟩ := hx.returns hreturns
        rw [hb] at hb'
        cases hb'
        exact (hf a b w' hadvances hb hrel).fails.mp hfails
    · intro hnext
      rcases returns_or_fails x w with ⟨a, w', hreturns⟩ | hfails
      · obtain ⟨hadvances, b, hb, hrel⟩ := hx.returns hreturns
        exact .inr ⟨a, w', hreturns, (hf a b w' hadvances hb hrel).fails.mpr (hnext b hb)⟩
      · exact .inl (hx.fails.mp hfails)
  · intro w'' h
    rcases stops_bind.mp h with hstops | ⟨a, w', hreturns, hstops⟩
    · exact hx.stops hstops
    · obtain ⟨hadvances, b, hb, hrel⟩ := hx.returns hreturns
      exact hadvances.trans ((hf a b w' hadvances hb hrel).stops hstops)

/-- A computation that ends what another began. -/
theorem Follows.bind_some {rel' : Workspace → γ → β → Prop} (hx : x.Follows w outcome rel)
    (hf : ∀ a b w', w.Advances w' → outcome = some b → rel w' a b →
      (f a).Follows w' (some b) rel') :
    (x >>= f).Follows w outcome rel' := by
  have h := hx.bind hf
  rwa [Option.bind_fun_some] at h

theorem Follows.some_bind {b : β} {outcome' : Option δ} {rel' : Workspace → γ → δ → Prop}
    (hx : x.Follows w (some b) rel)
    (hf : ∀ a w', w.Advances w' → rel w' a b → (f a).Follows w' outcome' rel') :
    (x >>= f).Follows w outcome' rel' := by
  have h : (x >>= f).Follows w ((some b).bind fun _ => outcome') rel' := by
    refine hx.bind ?_
    rintro a _ w' hadvances ⟨rfl⟩ hrel
    exact hf a w' hadvances hrel
  exact h

theorem follows_get_bind {f : Workspace → Work α} (h : (f w).Follows w outcome rel) :
    (get >>= f).Follows w outcome rel := by
  constructor
  · intro a w' hreturns
    obtain ⟨_, _, hget, hrest⟩ := returns_bind.mp hreturns
    obtain ⟨rfl, rfl⟩ := returns_get.mp hget
    exact h.returns hrest
  · rw [← h.fails, fails_bind, or_iff_right fails_get]
    constructor
    · rintro ⟨_, _, hget, hrest⟩
      obtain ⟨rfl, rfl⟩ := returns_get.mp hget
      exact hrest
    · intro hrest
      exact ⟨w, w, returns_get.mpr ⟨rfl, rfl⟩, hrest⟩
  · intro w' hstops
    rcases stops_bind.mp hstops with hget | ⟨_, _, hget, hrest⟩
    · exact absurd hget.fails fails_get
    · obtain ⟨rfl, rfl⟩ := returns_get.mp hget
      exact h.stops hrest

/-- Saying where a failure arose changes no outcome. -/
theorem Follows.within {place : Fault → Fault} (hx : x.Follows w outcome rel) :
    (within place x).Follows w outcome rel :=
  ⟨fun h => hx.returns (returns_within.mp h), fails_within.trans hx.fails,
    fun h => hx.stops (stops_within.mp h)⟩

theorem follows_report (hw : w.Standard) {level : Log.Level} {message : String}
    {fields : List (String × String)} :
    (report level message fields).Follows w (some ()) fun _ _ _ => True := by
  refine ⟨?_, iff_of_false fails_report (by simp), fun h => absurd h.fails fails_report⟩
  intro u w' h
  obtain rfl := returns_report.mp h
  exact ⟨⟨hw.sound.grows, rfl, rfl, Nat.le_refl _⟩, (), rfl, trivial⟩

/-- A computation of the manager has an outcome. -/
theorem follows_managed {action : Managed α} {b : β} {rel : Workspace → α → β → Prop}
    (h : ∀ a m, Yields action w.manager a m →
      w.manager.Grows m ∧ rel { w with manager := m } a b) :
    (managed action).Follows w (some b) rel := by
  refine ⟨?_, iff_of_false fails_managed (by simp), fun h => absurd h.fails fails_managed⟩
  intro a w' hreturns
  obtain ⟨m, hyields, rfl⟩ := returns_managed.mp hreturns
  obtain ⟨hgrows, hrel⟩ := h a m hyields
  exact ⟨Workspace.advances_manager hgrows, b, rfl, hrel⟩

/-- What follows a computation of the manager. -/
theorem follows_managed_bind {action : Managed γ} {f : γ → Work α}
    (h : ∀ c m, Yields action w.manager c m →
      w.manager.Grows m ∧ (f c).Follows { w with manager := m } outcome rel) :
    (managed action >>= f).Follows w outcome rel := by
  obtain ⟨c, m, hyields⟩ := Yields.exists_run action w.manager
  obtain ⟨hgrows, hf⟩ := h c m hyields
  constructor
  · intro a w' hreturns
    obtain ⟨hadvances, houtcome⟩ := hf.returns ((returns_managed_bind hyields).mp hreturns)
    exact ⟨(Workspace.advances_manager hgrows).trans hadvances, houtcome⟩
  · rw [fails_managed_bind hyields, hf.fails]
  · intro w' hstops
    rcases stops_bind.mp hstops with hmanaged | ⟨c', w₁, hmanaged, hrest⟩
    · exact absurd hmanaged.fails fails_managed
    · obtain ⟨m', hyields', rfl⟩ := returns_managed.mp hmanaged
      obtain ⟨rfl, rfl⟩ := hyields.unique hyields'
      exact (Workspace.advances_manager hgrows).trans (hf.stops hrest)

/-- The transformer is canonical and has the given contents. -/
def IsHeld (w : Workspace) (t body : Transformer) : Prop :=
  w.manager.pool.Holds t ∧ t.contents = body

theorem follows_attempt {action : ExceptT Fault Managed Transformer}
    {made : Except Fault Transformer} (hw : w.Standard)
    (hrun : action.run.run w.manager = match made with
      | .error fault => (.error fault, w.manager)
      | .ok t => (.ok ((Manager.intern t).run w.manager).1, ((Manager.intern t).run w.manager).2))
    (hmade : ∀ t, made.toOption = some t →
      t.contents = t ∧ t.serial = 0 ∧ Sequence.trailing t.sequence = []) :
    (attempt action).Follows w made.toOption IsHeld := by
  cases made with
  | error fault =>
    have hfails : (attempt action).Fails w := fails_attempt.mpr ⟨fault, _, hrun⟩
    refine ⟨fun h => absurd hfails h.not_fails, iff_of_true hfails rfl, ?_⟩
    -- an action that is refused leaves the manager as it is
    rintro w' ⟨fault', h⟩
    have hleft : (attempt action).run.run w = (.error fault, w) := by
      show ((action.run.run w.manager).1, { w with manager := (action.run.run w.manager).2 }) = _
      rw [hrun]
    obtain rfl := (Prod.mk.inj (hleft.symm.trans h)).2
    exact hw.advances
  | ok t =>
    obtain ⟨hcontents, hserial, htrailing⟩ := hmade t rfl
    obtain ⟨c, m, hyields⟩ := Yields.exists_run (Manager.intern t) w.manager
    have hok : Yields action.run w.manager (.ok c) m := by
      rw [Yields, hrun]
      dsimp only
      rw [hyields]
    have hreturns : (attempt action).Returns w c { w with manager := m } :=
      returns_attempt.mpr ⟨m, hok, rfl⟩
    obtain ⟨hgrows, hholds, heq⟩ :=
      Manager.intern_spec hw.sound hserial (by simp [htrailing]) hyields
    refine ⟨?_, iff_of_false hreturns.not_fails (by simp [Except.toOption]),
      fun h => absurd h.fails hreturns.not_fails⟩
    intro c' w' h
    obtain ⟨rfl, rfl⟩ := hreturns.unique h
    exact ⟨Workspace.advances_manager hgrows, t, rfl, hholds, by rw [heq, hcontents]⟩

/-- What a default factory makes by steady code. -/
theorem follows_make (hw : w.Standard) (action : String) {code : Factory → Craft Transformer}
    (hsteady : ∀ f, Factory.defaults.lookup action = some f → (code f).Steady)
    (hmade : ∀ t,
      ((Factory.defaults.lookup action).bind fun f => (code f).answer.toOption) = some t →
      t.contents = t ∧ t.serial = 0 ∧ Sequence.trailing t.sequence = []) :
    (attempt (Manager.make action code)).Follows w
      ((Factory.defaults.lookup action).bind fun f => (code f).answer.toOption) IsHeld := by
  have hbody : ((Factory.defaults.lookup action).bind fun f => (code f).answer.toOption) =
      (Manager.made action code (w.manager.factory? action)).toOption := by
    rw [hw.factories, Manager.made]
    cases Factory.defaults.lookup action <;> rfl
  rw [hbody] at hmade ⊢
  refine follows_attempt hw (Manager.run_make fun f hf => hsteady f ?_) hmade
  rwa [← hw.factories]

/-- **What an action makes of an element.** -/
theorem follows_makeLiteral (hw : w.Standard) (action : String) (y : Element) :
    (attempt (Manager.makeLiteral action y)).Follows w (Factory.literalBody? action y) IsHeld := by
  refine follows_make hw action
    (fun f hf => ((Factory.Runs.literal y).of_defaults (mem_of_lookup hf)).1) fun t ht => ?_
  rcases Factory.literalBody?_eq_some.mp ht with ⟨_, rfl⟩ | ⟨_, ⟨_, rfl⟩ | ⟨_, rfl⟩ | ⟨_, rfl⟩⟩ <;>
    exact ⟨Transformer.contents_draft _ _ _ _, rfl, rfl⟩

/-- **What an action makes of a reference.** -/
theorem follows_makeRef (hw : w.Standard) (action : String) (ref : Ref) :
    (attempt (Manager.makeRef action ref)).Follows w (Factory.refBody? action ref) IsHeld := by
  refine follows_make hw action
    (fun f hf => ((Factory.Runs.reference ref).of_defaults (mem_of_lookup hf)).1) fun t ht => ?_
  obtain ⟨_, rfl⟩ := Factory.refBody?_eq_some.mp ht
  exact ⟨Transformer.contents_draft _ _ _ _, rfl, rfl⟩

end Work

/-! ## Operations and fields -/

namespace Solver

variable {w w' : Workspace}

/-- What an action makes of elements. -/
def literalBodies? (action : String) : List Element → Option (List Transformer)
  | [] => some []
  | x :: rest => do
    let body ← Factory.literalBody? action x
    let others ← literalBodies? (if action = "replace" then "add" else action) rest
    return body :: others

/-- What one operation makes. -/
def bodies? (f : Model.Field) (op : Model.Op) : Option (List Transformer) :=
  match op.ref with
  | some target => do return [← Factory.refBody? op.action (refOf f target)]
  | none =>
    match Analyses.defaults.read f.valueType op.values with
    | .error _ => none
    | .ok [] =>
      if op.action = "clear" then do return [← Factory.literalBody? op.action .nil] else none
    | .ok elements => literalBodies? op.action elements

/-- What the operations make, composed in order onto `start`. -/
def composed? (f : Model.Field) (start : Instance) : List Model.Op → Option Instance
  | [] => some start
  | op :: rest => do
    let bodies ← bodies? f op
    composed? f (start.compAll bodies) rest

/-- What the operations of a field make of an empty field. -/
def valueOf? (f : Model.Field) : Option Value := do
  let made ← composed? f (.canonical .blank) f.ops
  return made.body.on (.draft none none)

/-- The transformers are canonical and have the given contents. -/
def AreHeld (w : Workspace) (transformers bodies : List Transformer) : Prop :=
  (∀ t ∈ transformers, w.manager.pool.Holds t) ∧ transformers.map Transformer.contents = bodies

/-- The value has the given contents, and everything that it replays is canonical. -/
def IsBuilt (w : Workspace) (v contents : Value) : Prop :=
  (∀ u ∈ Sequence.trailing v.sequence, w.manager.pool.Holds u) ∧ v.contents = contents

/-- The transformers of elements have the contents that the action makes of each. -/
theorem follows_literalTransformers (hw : w.Standard) (action : String) (elements : List Element) :
    (literalTransformers action elements).Follows w (literalBodies? action elements) AreHeld := by
  induction elements generalizing action w with
  | nil => exact Work.follows_pure hw ⟨by simp, rfl⟩
  | cons x rest ih =>
    refine (Work.follows_makeLiteral hw action x).bind ?_
    intro t body w₁ hadvances _ ht
    refine (ih (hw.mono hadvances) _).bind ?_
    rintro others _ w₂ hadvances' _ ⟨hheld, rfl⟩
    refine Work.follows_pure ((hw.mono hadvances).mono hadvances') ⟨?_, by rw [List.map_cons, ht.2]⟩
    intro u hu
    rcases List.mem_cons.mp hu with rfl | hu
    · exact ht.1.mono hadvances'.manager.pool
    · exact hheld u hu

theorem follows_singleton {x : Work Transformer} {body : Option Transformer} (hw : w.Standard)
    (hx : x.Follows w body Work.IsHeld) :
    (do return [← x] : Work (List Transformer)).Follows w (do return [← body]) AreHeld := by
  refine hx.bind ?_
  intro t b w₁ hadvances _ ht
  exact Work.follows_pure (hw.mono hadvances) ⟨by simpa using ht.1, by simpa using ht.2⟩

/-- **The transformers of an operation have the contents that it makes.** -/
theorem follows_opTransformers (hw : w.Standard) (f : Model.Field) (op : Model.Op) :
    (opTransformers f op).Follows w (bodies? f op) AreHeld := by
  unfold opTransformers bodies?
  cases op.ref with
  | some target => exact follows_singleton hw (Work.follows_makeRef hw _ _)
  | none =>
    have hread : w.analyses.read f.valueType op.values
        = Analyses.defaults.read f.valueType op.values := by
      rw [Analyses.read, Analyses.read, hw.analyses]
      rfl
    refine Work.follows_get_bind ?_
    rw [hread]
    cases Analyses.defaults.read f.valueType op.values with
    | error fault => exact Work.follows_throw hw
    | ok elements =>
      cases elements with
      | nil =>
        dsimp only
        by_cases hclear : op.action = "clear"
        · rw [if_pos hclear, if_pos hclear]
          exact follows_singleton hw (Work.follows_makeLiteral hw _ _)
        · rw [if_neg hclear, if_neg hclear]
          exact Work.follows_throw hw
      | cons x rest => exact follows_literalTransformers hw _ _

/-- Composing the operations composes what they make. -/
theorem follows_composeOps (f : Model.Field) (ops : List Model.Op) {start : Transformer}
    (hw : w.Standard) (hstart : w.manager.pool.Holds start) :
    (composeOps f start ops).Follows w (composed? f (w.manager.instanceOf start) ops)
      fun w' t made => w'.manager.pool.Holds t ∧ w'.manager.instanceOf t = made := by
  induction ops generalizing start w with
  | nil => exact Work.follows_pure hw ⟨hstart, rfl⟩
  | cons op rest ih =>
    refine (follows_opTransformers hw f op).bind ?_
    rintro transformers _ w₁ hadvances _ ⟨hheld, rfl⟩
    have hw₁ := hw.mono hadvances
    have hstart₁ := hstart.mono hadvances.manager.pool
    refine Work.follows_managed_bind ?_
    intro t m hyields
    obtain ⟨hgrows, _, hinstance, hholds⟩ :=
      Manager.composeAll_spec hw₁.sound (hw₁.sound.knows hstart₁) hheld hyields
    rw [← hadvances.manager.instanceOf_eq, ← hinstance]
    exact ⟨hgrows, ih (hw₁.mono (Workspace.advances_manager hgrows)) (hholds hstart₁)⟩

/-- An empty field has neither a set nor a sequence. -/
theorem newConcrete_spec {m m' : Manager} {v : Value} (hm : m.Sound)
    (h : Yields (Manager.newConcrete []) m v m') :
    m.Grows m' ∧ (∀ u ∈ Sequence.trailing v.sequence, m'.pool.Holds u) ∧
      v.contents = .draft none none := by
  have hempty : OptionalSet.extend none (some (ElementSet.ofList [])) = none := by
    simp [OptionalSet.extend, ElementSet.ofList, Keyed.ofList, Keyed.isEmpty, Ordered.sort,
      Ordered.entries, Ordered.firsts]
  obtain ⟨hgrows, htrailing, hcontents⟩ :=
    Manager.internValue_spec hm rfl (by simp [Value.draft, Sequence.trailing]) h
  exact ⟨hgrows, htrailing, by rw [hcontents, hempty]; rfl⟩

/-- **The value of a field is what its operations make of an empty field.** -/
theorem follows_buildField (hw : w.Standard) (f : Model.Field) :
    (buildField f).Follows w (valueOf? f) IsBuilt := by
  unfold buildField valueOf?
  refine Work.follows_get_bind ?_
  rw [← hw.sound.instanceOf_identity]
  refine (follows_composeOps f f.ops hw hw.sound.identity).bind ?_
  rintro t _ w₁ hadvances _ ⟨ht, rfl⟩
  have hw₁ := hw.mono hadvances
  refine Work.follows_managed_bind ?_
  intro start m hyields
  obtain ⟨hgrows, hstart, hempty⟩ := newConcrete_spec hw₁.sound hyields
  refine ⟨hgrows, Work.follows_managed ?_⟩
  intro v m' hyields'
  have ht' := (hgrows.sound.knows (ht.mono hgrows.pool)).trailing
  obtain ⟨hgrows', hv, hcontents⟩ := Manager.apply_spec hgrows.sound ht' hstart hyields'
  exact ⟨hgrows', hv, by rw [hcontents, hempty]; rfl⟩

end Solver

/-! ## Paths and objects -/

namespace PathValue

/-- What each field holds, with every serial number erased; nothing for a field that is not
tracked. -/
def view (p : PathValue) (name : String) : Option (Option Value) :=
  (p.entry? name).map (Option.map Value.contents)

theorem entry?_set (p : PathValue) (field name : String) (v : Option Value) :
    PathValue.entry? (p.set field v) name = if name = field then some v else p.entry? name := by
  unfold entry? set
  rw [Keyed.find?_put]
  split <;> rfl

/-- A path that tracks one more field, without serial numbers. -/
theorem view_set (p : PathValue) (field : String) (v : Option Value) :
    (p.set field v).view = Function.update p.view field (some (v.map Value.contents)) := by
  funext name
  rw [view, entry?_set, Function.update_apply, view]
  split <;> rfl

/-- What a field holds shows in the contents. -/
theorem view_eq_some {p : PathValue} {name : String} {v : Option Value} :
    p.view name = some v ↔ (name, v) ∈ p.contents := by
  rw [view, Option.map_eq_some_iff, contents, List.mem_map]
  constructor
  · rintro ⟨v', hentry, rfl⟩
    exact ⟨(name, v'), entry?_eq_some.mp hentry, rfl⟩
  · rintro ⟨⟨name', v'⟩, hmem, heq⟩
    obtain ⟨rfl, rfl⟩ := Prod.mk.inj heq
    exact ⟨v', entry?_eq_some.mpr hmem, rfl⟩

theorem view_eq_of_key {p q : PathValue} (h : p.key = q.key) : p.view = q.view := by
  funext name
  apply Option.ext
  intro v
  rw [view_eq_some, view_eq_some, key_eq_iff.mp h]

/-- Paths that hold the same have the same key. -/
theorem key_eq_of_view {p q : PathValue} (h : p.view = q.view) : p.key = q.key := by
  refine key_eq_iff.mpr (contents_eq_of_perm ?_)
  refine (List.perm_ext_iff_of_nodup p.nodup_contents q.nodup_contents).mpr fun e => ?_
  obtain ⟨name, v⟩ := e
  rw [← view_eq_some, ← view_eq_some, h]

/-- Everything that the path replays is canonical. -/
def Held (w : Workspace) (p : PathValue) : Prop :=
  ∀ name v, p.entry? name = some (some v) → ∀ u ∈ Sequence.trailing v.sequence,
    w.manager.pool.Holds u

/-- What was canonical stays so while the manager grows. -/
theorem Held.grow {w w' : Workspace} {p : PathValue} (hp : p.Held w)
    (h : w.manager.Grows w'.manager) : p.Held w' :=
  fun name v hentry u hu => (hp name v hentry u hu).mono h.pool

/-- What was canonical stays so. -/
theorem Held.mono {w w' : Workspace} {p : PathValue} (hp : p.Held w) (h : w.Advances w') :
    p.Held w' :=
  hp.grow h.manager

/-- A path none of whose fields shows a sequence waits for nothing. -/
theorem isIntermediate_eq_false {p : PathValue}
    (h : ∀ name v, p.view name = some (some v) → v.sequence = none) :
    p.isIntermediate = false := by
  have hpending : ∀ e ∈ p.fields.toList, isPending e = false := by
    intro e he
    obtain ⟨name, entry⟩ := e
    cases entry with
    | none => rfl
    | some u =>
      have hnone : u.contents.sequence = none :=
        h name u.contents (by rw [view, entry?_eq_some.mpr he]; rfl)
      cases hsequence : u.sequence with
      | none => simp [isPending, Value.isIntermediate, hsequence]
      | some steps => simp [Value.contents, hsequence, Sequence.contentsOf] at hnone
  simpa [isIntermediate] using hpending

end PathValue

/-- The number that tells a value apart; top has none. -/
def Propagation.number : Propagation → Nat
  | top => 0
  | paths serial _ => serial

namespace Solver

variable {w w' : Workspace}

/-- What the fields of a path hold in the end, if the path holds `known` before. -/
def pathOf? (known : String → Option (Option Value)) :
    List Model.Field → Option (String → Option (Option Value))
  | [] => some known
  | f :: rest => do
    let v ← valueOf? f
    pathOf? (Function.update known f.name (some (some v))) rest

/-- What the paths of an object hold. -/
def pathsOf? (paths : List Model.Path) : Option (List (String → Option (Option Value))) :=
  paths.mapM fun path => pathOf? (fun _ => none) path.fields

/-- Whether the paths of all objects can be made. -/
def allBuilt? : List Model.Object → Option Unit
  | [] => some ()
  | o :: rest => do
    let _ ← pathsOf? o.paths
    allBuilt? rest

/-- The value holds paths that look as given, under a number that has been given out. -/
structure IsObject (w : Workspace) (v : Propagation)
    (views : List (String → Option (Option Value))) :
    Prop where
  notTop : v.isTop = false
  number : v.number ≤ w.manager.pool.issued
  held : ∀ p ∈ v.toList, p.Held w
  views : ∀ view, (∃ p ∈ v.toList, p.view = view) ↔ view ∈ views

/-- Each value is that of the object in its place, and the numbers decrease. -/
structure AreObjects (w : Workspace) (objects : List Model.Object)
    (values : List (ObjectId × Propagation)) : Prop where
  each : List.Forall₂ (fun o entry => entry.1 = o.id ∧
    ∃ views, pathsOf? o.paths = some views ∧ IsObject w entry.2 views) objects values
  numbers : values.Pairwise fun a b => b.2.number < a.2.number

/-- An object stays what it is. -/
theorem IsObject.mono {v : Propagation} {views : List (String → Option (Option Value))}
    (hv : IsObject w v views) (h : w.Advances w') : IsObject w' v views :=
  ⟨hv.notTop, Nat.le_trans hv.number h.manager.pool.issued,
    fun p hp => (hv.held p hp).mono h, hv.views⟩

/-- Objects stay what they are. -/
theorem AreObjects.mono {objects : List Model.Object} {values : List (ObjectId × Propagation)}
    (h : AreObjects w objects values) (hadvances : w.Advances w') :
    AreObjects w' objects values := by
  refine ⟨h.each.imp ?_, h.numbers⟩
  rintro o entry ⟨hid, views, hviews, hobject⟩
  exact ⟨hid, views, hviews, hobject.mono hadvances⟩

/-- The numbers of the values have been given out. -/
theorem AreObjects.number_le {objects : List Model.Object} {values : List (ObjectId × Propagation)}
    (h : AreObjects w objects values) {entry : ObjectId × Propagation} (hentry : entry ∈ values) :
    entry.2.number ≤ w.manager.pool.issued := by
  obtain ⟨heach, -⟩ := h
  induction heach with
  | nil => cases hentry
  | cons hfirst _ ih =>
    rcases List.mem_cons.mp hentry with rfl | hentry
    · obtain ⟨_, _, _, hobject⟩ := hfirst
      exact hobject.number
    · exact ih hentry

/-- **The value found for a name** is that of the first object of the name. -/
theorem AreObjects.of_lookup {objects : List Model.Object} {values : List (ObjectId × Propagation)}
    (h : AreObjects w objects values) {id : ObjectId} {v : Propagation}
    (hv : values.lookup id = some v) :
    ∃ o views, objects.find? (fun o => o.id = id) = some o ∧ pathsOf? o.paths = some views ∧
      IsObject w v views := by
  obtain ⟨heach, -⟩ := h
  induction heach with
  | nil => cases hv
  | @cons o entry _ _ hfirst _ ih =>
    obtain ⟨id', v'⟩ := entry
    obtain ⟨rfl, views, hviews, hobject⟩ := hfirst
    rw [lookup_cons_ite] at hv
    by_cases hid : id = o.id
    · rw [if_pos hid] at hv
      cases hv
      exact ⟨o, views, by simp [hid], hviews, hobject⟩
    · rw [if_neg hid] at hv
      obtain ⟨o', views', hfind, hfound⟩ := ih hv
      exact ⟨o', views', by rw [List.find?_cons_of_neg (by simpa using Ne.symm hid), hfind], hfound⟩

/-- A path holds what its fields are built to. -/
theorem follows_buildFields (hw : w.Standard) (fields : List Model.Field) {p : PathValue}
    (hp : p.Held w) :
    (buildFields p fields).Follows w (pathOf? p.view fields) fun w' q view =>
      q.Held w' ∧ q.view = view := by
  induction fields generalizing p w with
  | nil => exact Work.follows_pure hw ⟨hp, rfl⟩
  | cons f rest ih =>
    refine (follows_buildField hw f).within.bind ?_
    rintro v _ w₁ hadvances _ ⟨htrailing, rfl⟩
    rw [show some (some v.contents) = some ((some v).map Value.contents) from rfl,
      ← PathValue.view_set]
    refine ih (hw.mono hadvances) ?_
    intro name v' hentry
    rw [PathValue.entry?_set] at hentry
    by_cases hname : name = f.name
    · rw [if_pos hname] at hentry
      cases hentry
      exact htrailing
    · rw [if_neg hname] at hentry
      exact hp.mono hadvances name v' hentry

theorem follows_buildPaths (hw : w.Standard) (paths : List Model.Path) :
    (buildPaths paths).Follows w (pathsOf? paths) fun w' built views =>
      (∀ p ∈ built, p.Held w') ∧ built.map PathValue.view = views := by
  induction paths generalizing w with
  | nil => exact Work.follows_pure hw ⟨by simp, rfl⟩
  | cons path rest ih =>
    have hempty : PathValue.empty.view = fun _ => none := rfl
    have hheld : PathValue.empty.Held w := by
      intro name v hentry
      cases hentry
    rw [pathsOf?, List.mapM_cons]
    refine (hempty ▸ follows_buildFields hw path.fields hheld).bind ?_
    rintro p _ w₁ hadvances _ ⟨hp, rfl⟩
    refine (ih (hw.mono hadvances)).bind ?_
    rintro others _ w₂ hadvances' _ ⟨hothers, rfl⟩
    refine Work.follows_pure ((hw.mono hadvances).mono hadvances') ⟨?_, rfl⟩
    intro q hq
    rcases List.mem_cons.mp hq with rfl | hq
    · exact hp.mono hadvances'
    · exact hothers q hq

/-- A serial number that is given out is larger than all before. -/
theorem nextSerial_spec {m m' : Manager} {n : Nat} (hm : m.Sound)
    (h : Yields Manager.nextSerial m n m') :
    m.Grows m' ∧ m.pool.issued < n ∧ n ≤ m'.pool.issued := by
  obtain ⟨rfl, rfl⟩ := Prod.mk.inj h
  exact ⟨⟨⟨⟨hm.pool.issue, hm.identity, hm.blank⟩, hm.trailing⟩, Pool.extends_issue _, rfl, rfl⟩,
    Nat.lt_succ_self _, Nat.le_refl _⟩

/-- The paths of an object collapse to those that look different. -/
theorem follows_buildObject (hw : w.Standard) (o : Model.Object) :
    (buildObject o).Follows w (pathsOf? o.paths) fun w' v views =>
      IsObject w' v views ∧ w.manager.pool.issued < v.number := by
  unfold buildObject
  refine (follows_buildPaths hw o.paths).bind_some ?_
  rintro built _ w₁ hadvances _ ⟨hheld, rfl⟩
  refine Work.follows_managed_bind ?_
  intro serial m hyields
  obtain ⟨hgrows, hlt, hle⟩ := nextSerial_spec (hw.mono hadvances).sound hyields
  have hadvances' := Workspace.advances_manager hgrows
  refine ⟨hgrows, Work.follows_pure ((hw.mono hadvances).mono hadvances') ⟨⟨rfl, hle, ?_, ?_⟩, ?_⟩⟩
  · intro p hp
    exact (hheld p (Keyed.mem_of_mem_ofList hp)).mono hadvances'
  · intro view
    rw [List.mem_map]
    exact Keyed.mem_ofList_keys PathValue.view (fun p _ q _ => PathValue.view_eq_of_key) view
  · exact Nat.lt_of_le_of_lt hadvances.manager.pool.issued hlt

/-- Every object gets a value of its own, the last object first. -/
theorem follows_buildObjects (hw : w.Standard) (rest : List Model.Object)
    {objects : List Model.Object} {values : List (ObjectId × Propagation)}
    (hvalues : AreObjects w objects values) :
    (buildObjects values rest).Follows w (allBuilt? rest) fun w' built _ =>
      AreObjects w' (rest.reverse ++ objects) built := by
  induction rest generalizing objects values w with
  | nil => exact Work.follows_pure hw hvalues
  | cons o rest ih =>
    refine (follows_buildObject hw o).within.bind ?_
    rintro v views w₁ hadvances hviews ⟨hv, hnumber⟩
    have hobjects : AreObjects w₁ (o :: objects) ((o.id, v) :: values) := by
      refine ⟨.cons ⟨rfl, views, hviews, hv⟩ (hvalues.mono hadvances).each,
        List.pairwise_cons.mpr ⟨fun entry hentry => ?_, hvalues.numbers⟩⟩
      -- earlier values have numbers that were given out before
      exact Nat.lt_of_le_of_lt (hvalues.number_le hentry) hnumber
    rw [List.reverse_cons, List.append_assoc, List.singleton_append]
    exact ih (hw.mono hadvances) hobjects

/-- Reporting the objects that are top only grows the log. -/
theorem follows_reportTops (hw : w.Standard) (ids : List ObjectId) :
    (reportTops ids).Follows w (some ()) fun _ _ _ => True := by
  induction ids generalizing w with
  | nil => exact Work.follows_pure hw trivial
  | cons id rest ih =>
    exact (Work.follows_report hw).some_bind fun _ _ hadvances _ => ih (hw.mono hadvances)

/-- A new solver has a number that no other has. -/
theorem follows_nextNumber (hw : w.Standard) :
    nextNumber.Follows w (some ()) fun w' number _ =>
      number < w'.solvers ∧ w'.finalsOf number = [] := by
  have hreturns : nextNumber.Returns w w.solvers { w with solvers := w.solvers + 1 } := rfl
  refine ⟨fun h => ?_, iff_of_false hreturns.not_fails (by simp),
    fun h => absurd h.fails hreturns.not_fails⟩
  obtain ⟨rfl, rfl⟩ := hreturns.unique h
  exact ⟨⟨hw.sound.grows, rfl, rfl, Nat.le_succ _⟩, (), rfl, Nat.lt_succ_self _,
    hw.finals _ (Nat.le_refl _)⟩

/-- **Building a model** gives every object the paths that its operations make, and fails exactly if
some operation makes nothing. -/
theorem follows_build (hw : w.Standard) (m : Model) :
    (build m).Follows w (allBuilt? m.objects) fun w' s _ =>
      AreObjects w' m.objects.reverse s.values ∧ s.number < w'.solvers ∧
        w'.finalsOf s.number = [] := by
  unfold build
  refine (follows_nextNumber hw).some_bind ?_
  rintro number w₁ hadvances ⟨hnumber, hfresh⟩
  refine (follows_buildObjects (hw.mono hadvances) m.objects ⟨.nil, .nil⟩).bind_some ?_
  intro values _ w₂ hadvances₂ _ hvalues
  rw [List.append_nil] at hvalues
  have hw₂ := (hw.mono hadvances).mono hadvances₂
  refine (follows_reportTops hw₂ _).some_bind ?_
  intro _ w₃ hadvances₃ _
  have hlater := hadvances₂.trans hadvances₃
  refine Work.follows_pure (hw₂.mono hadvances₃) ⟨hvalues.mono hadvances₃, ?_, ?_⟩
  · exact Nat.lt_of_lt_of_le hnumber hlater.solvers
  · rw [Workspace.finalsOf, hlater.finals]
    exact hfresh

/-! ## Top -/

/-- Building adds a value that is not top for each object, whatever the factories are. -/
theorem buildObjects_shape {built values : List (ObjectId × Propagation)}
    {objects : List Model.Object} (h : (buildObjects built objects).Returns w values w') :
    values.map Prod.fst = (objects.map Model.Object.id).reverse ++ built.map Prod.fst ∧
      ∀ entry ∈ values, entry ∈ built ∨ entry.2 ≠ .top := by
  induction objects generalizing built w with
  | nil =>
    obtain ⟨rfl, rfl⟩ := Work.returns_pure.mp h
    exact ⟨by simp, fun _ hentry => .inl hentry⟩
  | cons o rest ih =>
    obtain ⟨v, w₁, hv, hrest⟩ := Work.returns_bind.mp h
    obtain ⟨hids, hvalues⟩ := ih hrest
    refine ⟨by simpa using hids, ?_⟩
    intro entry hentry
    rcases hvalues entry hentry with hmem | hne
    · rcases List.mem_cons.mp hmem with rfl | hmem
      · right
        obtain ⟨paths, _, _, hserial⟩ := Work.returns_bind.mp (Work.returns_within.mp hv)
        obtain ⟨serial, _, _, hpure⟩ := Work.returns_bind.mp hserial
        obtain ⟨rfl, _⟩ := Work.returns_pure.mp hpure
        simp [Propagation.ofPaths]
      · exact .inl hmem
    · exact .inr hne

/-- What a built solver holds, whatever the factories are. -/
theorem build_shape {m : Model} {s : Solver} (h : (build m).Returns w s w') :
    s.values.map Prod.fst = (m.objects.map Model.Object.id).reverse ∧
      (∀ entry ∈ s.values, entry.2 ≠ .top) ∧ s.tops = topsOf m ∧
      s.ids = (m.objects.map Model.Object.id).mergeSort ObjectId.le := by
  obtain ⟨_, _, _, hbuild⟩ := Work.returns_bind.mp h
  obtain ⟨values, w₁, hvalues, hrest⟩ := Work.returns_bind.mp hbuild
  obtain ⟨_, _, _, hpure⟩ := Work.returns_bind.mp hrest
  obtain ⟨rfl, _⟩ := Work.returns_pure.mp hpure
  obtain ⟨hids, hne⟩ := buildObjects_shape hvalues
  exact ⟨by simpa using hids, fun entry hentry => by simpa using hne entry hentry, rfl, rfl⟩

/-- **What a look-up gives**: nothing for what is no object, top for an object on a reference cycle,
and else a value that was built. -/
theorem value?_cases {m : Model} {s : Solver} (h : (build m).Returns w s w') (id : ObjectId) :
    (¬ m.Has id ∧ s.value? id = none) ∨
    (m.Has id ∧ m.OnCycle id ∧ s.value? id = some .top) ∨
    (m.Has id ∧ ¬ m.OnCycle id ∧
      ∃ v, s.value? id = some v ∧ v.isTop = false ∧ s.values.lookup id = some v) := by
  obtain ⟨hids, hne, htops, _⟩ := build_shape h
  have hmem : id ∈ s.values.map Prod.fst ↔ m.Has id := by
    rw [hids, List.mem_reverse, List.mem_map]
    rfl
  unfold value?
  rw [htops]
  by_cases htop : id ∈ topsOf m
  · obtain ⟨hhas, hcycle⟩ := mem_topsOf.mp htop
    exact .inr (.inl ⟨hhas, hcycle, if_pos htop⟩)
  · rw [if_neg htop]
    cases hlookup : s.values.lookup id with
    | none =>
      refine .inl ⟨fun hhas => ?_, rfl⟩
      obtain ⟨entry, hentry, heq⟩ := List.mem_map.mp (hmem.mpr hhas)
      have hdiffers := List.lookup_eq_none_iff.mp hlookup entry hentry
      simp [heq] at hdiffers
    | some v =>
      have hentry : (id, v) ∈ s.values := mem_of_lookup hlookup
      have hhas : m.Has id := hmem.mp (List.mem_map_of_mem hentry)
      have hv : v.isTop = false := by
        cases v with
        | top => exact absurd rfl (hne _ hentry)
        | paths serial members => rfl
      exact .inr (.inr ⟨hhas, fun hcycle => htop (mem_topsOf.mpr ⟨hhas, hcycle⟩), v, rfl, hv, rfl⟩)

/-- The value of an object is top if the object is on a reference cycle, and else was built. -/
theorem value_cases {m : Model} {s : Solver} (h : (build m).Returns w s w') {id : ObjectId}
    {v : Propagation} (hv : s.value? id = some v) : m.Has id ∧ ((m.OnCycle id ∧ v = .top) ∨
      (¬ m.OnCycle id ∧ v.isTop = false ∧ s.values.lookup id = some v)) := by
  rcases value?_cases h id with ⟨_, hnone⟩ | ⟨hhas, hcycle, htop⟩ |
    ⟨hhas, hcycle, u, hu, hnotTop, hlookup⟩
  · cases hnone.symm.trans hv
  · exact ⟨hhas, .inl ⟨hcycle, Option.some.inj (hv.symm.trans htop)⟩⟩
  · cases hu.symm.trans hv
    exact ⟨hhas, .inr ⟨hcycle, hnotTop, hlookup⟩⟩

/-- **The objects that are top are those on reference cycles.**  Whatever the factories and analyses
are, once a model is built, a look-up gives top exactly for the objects of the model from which a
chain of references, written in any of its operations, leads back, and nothing exactly for what is
no object of the model. -/
theorem top_iff_onCycle {m : Model} {s : Solver} (h : (build m).Returns w s w') :
    (∀ id, (s.value? id = some .top ↔ m.Has id ∧ m.OnCycle id) ∧
      (s.value? id = none ↔ ¬ m.Has id)) ∧
      ∀ point symbol : Element,
        (s.resultAt point symbol = some .top ↔ m.Has ⟨symbol.display, point.display⟩ ∧
          m.OnCycle ⟨symbol.display, point.display⟩) ∧
        (s.resultAt point symbol = none ↔ ¬ m.Has ⟨symbol.display, point.display⟩) := by
  have hid : ∀ id, (s.value? id = some .top ↔ m.Has id ∧ m.OnCycle id) ∧
      (s.value? id = none ↔ ¬ m.Has id) := by
    intro id
    rcases value?_cases h id with ⟨hhas, hv⟩ | ⟨hhas, hcycle, hv⟩ | ⟨hhas, hcycle, v, hv, hnot, _⟩
    · rw [hv]
      exact ⟨iff_of_false (by simp) (fun h => hhas h.1), iff_of_true rfl hhas⟩
    · rw [hv]
      exact ⟨iff_of_true rfl ⟨hhas, hcycle⟩, iff_of_false (by simp) (not_not_intro hhas)⟩
    · rw [hv]
      refine ⟨iff_of_false ?_ (fun h => hcycle h.2), iff_of_false (by simp) (not_not_intro hhas)⟩
      rintro heq
      obtain rfl := Option.some.inj heq
      cases hnot
  exact ⟨hid, fun point symbol => hid ⟨symbol.display, point.display⟩⟩

/-- A model in which one of two objects with the same name refers to a second object before it is
cleared, that object refers back, and a third one refers to both. -/
def crossed : Model :=
  let refer (symbol : String) : Model.Op := ⟨"compose", [], some ⟨symbol, "exit", "", ""⟩⟩
  let object (symbol : String) (ops : List Model.Op) : Model.Object :=
    ⟨symbol, "exit", [⟨[⟨"paths", "", ops⟩]⟩]⟩
  ⟨"v1", [object "first" [⟨"add", ["a"], none⟩],
    object "first" [refer "second", ⟨"clear", [], none⟩],
    object "second" [refer "first"], object "third" [refer "first", refer "second"]]⟩

/-- The crossed objects are top, the one that only refers to them is not, and no other object is
known. -/
theorem top_iff_onCycle_crossed : ∃ s w', (build crossed).Returns (Workspace.standard true) s w' ∧
    s.value? ⟨"first", "exit"⟩ = some .top ∧ s.value? ⟨"second", "exit"⟩ = some .top ∧
    (∃ serial members, s.value? ⟨"third", "exit"⟩ = some (.paths serial members)) ∧
    s.resultAt (.string "exit") (.string "fourth") = none := by
  obtain ⟨s, w', h⟩ := (follows_build Workspace.standard_standard crossed).exists_returns
    (by decide)
  obtain ⟨hvalue, hresult⟩ := top_iff_onCycle h
  have hhas : ∀ {id}, crossed.Has id ↔ id ∈ crossed.objects.map Model.Object.id := List.mem_map.symm
  have hthere : crossed.Refers ⟨"first", "exit"⟩ ⟨"second", "exit"⟩ :=
    Model.mem_references.mp (by decide)
  have hback : crossed.Refers ⟨"second", "exit"⟩ ⟨"first", "exit"⟩ :=
    Model.mem_references.mp (by decide)
  -- nothing refers to the third object, so no chain leads back to it
  have hthird : ¬ crossed.OnCycle ⟨"third", "exit"⟩ := by
    intro hcycle
    obtain ⟨_, id, hlast⟩ := hcycle.references
    have hnone : ∀ entry ∈ crossed.references, entry.2 ≠ ⟨"third", "exit"⟩ := by decide
    exact hnone _ hlast rfl
  refine ⟨s, w', h, (hvalue _).1.mpr ⟨hhas.mpr (by decide), .tail (.single hthere) hback⟩,
    (hvalue _).1.mpr ⟨hhas.mpr (by decide), .tail (.single hback) hthere⟩, ?_,
    (hresult _ _).2.mpr (mt hhas.mp (by decide))⟩
  cases hv : s.value? ⟨"third", "exit"⟩ with
  | none => exact absurd (hhas.mpr (by decide)) ((hvalue _).2.mp hv)
  | some v =>
    cases v with
    | top => exact absurd ((hvalue _).1.mp hv).2 hthird
    | paths serial members => exact ⟨serial, members, rfl⟩

end Solver

end FieldFlow
