import FieldFlow.Workspace

/-!
# What computations return

A computation in a workspace either returns a result or fails, and leaves a workspace behind.  The
lemmas here say how a composed computation returns or fails in terms of its parts, so that proofs
take a run apart step by step and never look at how failures and states are threaded.

Main definitions: `Yields`, `Work.Returns`, `Work.Fails`, `Work.Stops`.
-/

namespace FieldFlow

variable {σ α β : Type}

/-! ## Computations that only change a state -/

/-- Started in `s`, the computation gives `a` and leaves `s'`. -/
def Yields (x : StateM σ α) (s : σ) (a : α) (s' : σ) : Prop := x.run s = (a, s')

namespace Yields

theorem exists_run (x : StateM σ α) (s : σ) : ∃ a s', Yields x s a s' := ⟨_, _, rfl⟩

theorem unique {x : StateM σ α} {s s₁ s₂ : σ} {a b : α} (ha : Yields x s a s₁)
    (hb : Yields x s b s₂) :
    a = b ∧ s₁ = s₂ := Prod.mk.inj (ha.symm.trans hb)

@[simp]
theorem pure_iff {a b : α} {s s' : σ} : Yields (pure a) s b s' ↔ a = b ∧ s = s' := by
  constructor
  · intro h
    exact Prod.mk.inj h
  · rintro ⟨rfl, rfl⟩
    rfl

@[simp]
theorem bind_iff {x : StateM σ α} {f : α → StateM σ β} {s s' : σ} {b : β} :
    Yields (x >>= f) s b s' ↔ ∃ a s₁, Yields x s a s₁ ∧ Yields (f a) s₁ b s' := by
  constructor
  · intro h
    exact ⟨_, _, rfl, h⟩
  · rintro ⟨a, s₁, hx, hf⟩
    have hbind : (x >>= f).run s = (f (x.run s).1).run (x.run s).2 := rfl
    rw [Yields, hbind, hx]
    exact hf

@[simp]
theorem get_iff {s s₁ s' : σ} : Yields (get : StateM σ σ) s s₁ s' ↔ s = s₁ ∧ s = s' := by
  constructor
  · intro h
    exact Prod.mk.inj h
  · rintro ⟨rfl, rfl⟩
    rfl

@[simp]
theorem modify_iff {f : σ → σ} {s s' : σ} {u : Unit} :
    Yields (modify f : StateM σ Unit) s u s' ↔ f s = s' := by
  constructor
  · intro h
    exact (Prod.mk.inj h).2
  · rintro rfl
    rfl

end Yields

/-! ## Computations that may fail -/

namespace Work

/-- Started in `w`, the computation returns `a` and leaves `w'`. -/
def Returns (x : Work α) (w : Workspace) (a : α) (w' : Workspace) : Prop :=
  x.run.run w = (.ok a, w')

/-- Started in `w`, the computation fails. -/
def Fails (x : Work α) (w : Workspace) : Prop := ∃ fault w', x.run.run w = (.error fault, w')

/-- Started in `w`, the computation fails and leaves `w'`. -/
def Stops (x : Work α) (w w' : Workspace) : Prop := ∃ fault, x.run.run w = (.error fault, w')

variable {x : Work α} {f : α → Work β} {w w' : Workspace} {a : α} {b : β}

theorem returns_or_fails (x : Work α) (w : Workspace) :
    (∃ a w', x.Returns w a w') ∨ x.Fails w := by
  cases h : x.run.run w with
  | mk r w' =>
    cases r with
    | ok a => exact .inl ⟨a, w', h⟩
    | error fault => exact .inr ⟨fault, w', h⟩

/-- A computation that returns does not fail. -/
theorem Returns.not_fails (h : x.Returns w a w') : ¬ x.Fails w := by
  rintro ⟨fault, w₁, hfail⟩
  exact absurd (Prod.mk.inj (h.symm.trans hfail)).1 (by simp)

theorem Stops.fails (h : x.Stops w w') : x.Fails w := h.imp fun _ hfault => ⟨w', hfault⟩

/-- A computation that fails leaves some workspace. -/
theorem Fails.exists_stops (h : x.Fails w) : ∃ w', x.Stops w w' := by
  obtain ⟨fault, w', hfault⟩ := h
  exact ⟨w', fault, hfault⟩

theorem Returns.unique {a₁ a₂ : α} {w₁ w₂ : Workspace} (h₁ : x.Returns w a₁ w₁)
    (h₂ : x.Returns w a₂ w₂) : a₁ = a₂ ∧ w₁ = w₂ := by
  obtain ⟨ha, hw⟩ := Prod.mk.inj (h₁.symm.trans h₂)
  exact ⟨Except.ok.inj ha, hw⟩

/-- The run of one computation after the other. -/
theorem run_bind (x : Work α) (f : α → Work β) (w : Workspace) :
    (x >>= f).run.run w = match x.run.run w with
      | (.ok a, w₁) => (f a).run.run w₁
      | (.error fault, w₁) => (.error fault, w₁) := by
  show (x.run >>= fun r => ExceptT.bindCont f r : StateM Workspace _).run w = _
  have hbind : (x.run >>= fun r => ExceptT.bindCont f r : StateM Workspace _).run w
      = (ExceptT.bindCont f (x.run.run w).1 : StateM Workspace _).run (x.run.run w).2 := rfl
  rw [hbind]
  cases x.run.run w with
  | mk r w₁ => cases r <;> rfl

/-- One computation after the other returns if both do. -/
@[simp]
theorem returns_bind :
    (x >>= f).Returns w b w' ↔ ∃ a w₁, x.Returns w a w₁ ∧ (f a).Returns w₁ b w' := by
  constructor
  · intro h
    rw [Returns, run_bind] at h
    cases hx : x.run.run w with
    | mk r w₁ =>
      cases r with
      | ok a =>
        rw [hx] at h
        exact ⟨a, w₁, hx, h⟩
      | error fault =>
        rw [hx] at h
        exact absurd (Prod.mk.inj h).1 (by simp)
  · rintro ⟨a, w₁, hx, hf⟩
    rw [Returns, run_bind, hx]
    exact hf

/-- One computation after the other fails if one of the two does. -/
@[simp]
theorem fails_bind :
    (x >>= f).Fails w ↔ x.Fails w ∨ ∃ a w₁, x.Returns w a w₁ ∧ (f a).Fails w₁ := by
  constructor
  · rintro ⟨fault, w', h⟩
    rw [run_bind] at h
    cases hx : x.run.run w with
    | mk r w₁ =>
      rw [hx] at h
      cases r with
      | ok a => exact .inr ⟨a, w₁, hx, fault, w', h⟩
      | error fault' => exact .inl ⟨fault', w₁, hx⟩
  · rintro (⟨fault, w₁, hx⟩ | ⟨a, w₁, hx, fault, w', hf⟩)
    · exact ⟨fault, w₁, by rw [run_bind, hx]⟩
    · exact ⟨fault, w', by rw [run_bind, hx]; exact hf⟩

/-- One computation after the other stops where one of the two does. -/
theorem stops_bind :
    (x >>= f).Stops w w' ↔ x.Stops w w' ∨ ∃ a w₁, x.Returns w a w₁ ∧ (f a).Stops w₁ w' := by
  constructor
  · rintro ⟨fault, h⟩
    rw [run_bind] at h
    cases hx : x.run.run w with
    | mk r w₁ =>
      rw [hx] at h
      cases r with
      | ok a => exact .inr ⟨a, w₁, hx, fault, h⟩
      | error fault' => exact .inl ⟨fault', by rw [hx, (Prod.mk.inj h).2]⟩
  · rintro (⟨fault, hx⟩ | ⟨a, w₁, hx, fault, hf⟩)
    · exact ⟨fault, by rw [run_bind, hx]⟩
    · exact ⟨fault, by rw [run_bind, hx]; exact hf⟩

/-- What follows a computation fails, or it fails itself. -/
theorem fails_bind_iff {P Q : Prop} (hx : x.Fails w ↔ P)
    (hf : ∀ a w₁, x.Returns w a w₁ → ((f a).Fails w₁ ↔ Q)) : (x >>= f).Fails w ↔ P ∨ Q := by
  rw [fails_bind, hx]
  constructor
  · rintro (h | ⟨a, w₁, ha, h⟩)
    · exact .inl h
    · exact .inr ((hf a w₁ ha).mp h)
  · rintro (h | h)
    · exact .inl h
    · rcases returns_or_fails x w with ⟨a, w₁, ha⟩ | hfails
      · exact .inr ⟨a, w₁, ha, (hf a w₁ ha).mpr h⟩
      · exact .inl (hx.mp hfails)

/-- Doing nothing returns the result at once. -/
@[simp]
theorem returns_pure {a a' : α} : (pure a : Work α).Returns w a' w' ↔ a = a' ∧ w = w' := by
  constructor
  · intro h
    obtain ⟨ha, hw⟩ := Prod.mk.inj h
    exact ⟨Except.ok.inj ha, hw⟩
  · rintro ⟨rfl, rfl⟩
    rfl

@[simp]
theorem fails_pure {a : α} : ¬ (pure a : Work α).Fails w :=
  (returns_pure.mpr ⟨rfl, rfl⟩).not_fails

@[simp]
theorem returns_throw {fault : Fault} : ¬ (throw fault : Work α).Returns w a w' := by
  intro h
  exact absurd (Prod.mk.inj h).1 (by simp)

@[simp]
theorem fails_throw {fault : Fault} : (throw fault : Work α).Fails w := ⟨fault, w, rfl⟩

theorem stops_throw {fault : Fault} : (throw fault : Work α).Stops w w' ↔ w = w' := by
  constructor
  · rintro ⟨fault', h⟩
    exact (Prod.mk.inj h).2
  · rintro rfl
    exact ⟨fault, rfl⟩

@[simp]
theorem returns_get {w₁ : Workspace} :
    (get : Work Workspace).Returns w w₁ w' ↔ w = w₁ ∧ w = w' := by
  constructor
  · intro h
    obtain ⟨ha, hw⟩ := Prod.mk.inj h
    exact ⟨Except.ok.inj ha, hw⟩
  · rintro ⟨rfl, rfl⟩
    rfl

@[simp]
theorem fails_get : ¬ (get : Work Workspace).Fails w := (returns_get.mpr ⟨rfl, rfl⟩).not_fails

@[simp]
theorem returns_modify {g : Workspace → Workspace} {u : Unit} :
    (modify g : Work Unit).Returns w u w' ↔ g w = w' := by
  constructor
  · intro h
    exact (Prod.mk.inj h).2
  · rintro rfl
    rfl

@[simp]
theorem fails_modify {g : Workspace → Workspace} : ¬ (modify g : Work Unit).Fails w :=
  ((returns_modify (u := ())).mpr rfl).not_fails

@[simp]
theorem returns_lift {x : StateM Workspace α} :
    Returns (ExceptT.lift x) w a w' ↔ Yields x w a w' := by
  constructor
  · intro h
    obtain ⟨ha, hw⟩ := Prod.mk.inj h
    exact Prod.ext (Except.ok.inj ha) hw
  · intro h
    have hlift : (ExceptT.lift x : Work α).run.run w = (.ok (x.run w).1, (x.run w).2) := rfl
    rw [Returns, hlift, h]

@[simp]
theorem fails_lift {x : StateM Workspace α} : ¬ Fails (ExceptT.lift x) w :=
  (returns_lift.mpr rfl).not_fails

/-- A computation of the manager changes the manager and nothing else. -/
@[simp]
theorem returns_managed {action : Managed α} :
    (managed action).Returns w a w' ↔
      ∃ m, Yields action w.manager a m ∧ w' = { w with manager := m } := by
  rw [managed, returns_lift]
  constructor
  · intro h
    obtain ⟨ha, hw⟩ := Prod.mk.inj h
    exact ⟨_, Prod.ext ha rfl, hw.symm⟩
  · rintro ⟨m, h, rfl⟩
    have hrun : (Workspace.managed action).run w
        = ((action.run w.manager).1, { w with manager := (action.run w.manager).2 }) := rfl
    rw [Yields, hrun, h]

/-- A computation of the manager does not fail. -/
@[simp]
theorem fails_managed {action : Managed α} : ¬ (managed action).Fails w := fails_lift

/-- What follows a computation of the manager starts from the manager that it leaves. -/
theorem returns_managed_bind {action : Managed α} {m : Manager} (h : Yields action w.manager a m) :
    (managed action >>= f).Returns w b w' ↔ (f a).Returns { w with manager := m } b w' := by
  rw [returns_bind]
  constructor
  · rintro ⟨a', _, ha', hf⟩
    obtain ⟨m', hm', rfl⟩ := returns_managed.mp ha'
    obtain ⟨rfl, rfl⟩ := h.unique hm'
    exact hf
  · intro hf
    exact ⟨a, _, returns_managed.mpr ⟨m, h, rfl⟩, hf⟩

/-- What follows a computation of the manager fails as it does from the manager that it leaves. -/
theorem fails_managed_bind {action : Managed α} {m : Manager} (h : Yields action w.manager a m) :
    (managed action >>= f).Fails w ↔ (f a).Fails { w with manager := m } := by
  rw [fails_bind, or_iff_right fails_managed]
  constructor
  · rintro ⟨a', _, ha', hf⟩
    obtain ⟨m', hm', rfl⟩ := returns_managed.mp ha'
    obtain ⟨rfl, rfl⟩ := h.unique hm'
    exact hf
  · intro hf
    exact ⟨a, _, returns_managed.mpr ⟨m, h, rfl⟩, hf⟩

/-- A computation of the manager that may fail. -/
@[simp]
theorem returns_attempt {action : ExceptT Fault Managed α} :
    (attempt action).Returns w a w' ↔
      ∃ m, Yields action.run w.manager (.ok a) m ∧ w' = { w with manager := m } := by
  constructor
  · intro h
    obtain ⟨ha, hw⟩ := Prod.mk.inj h
    exact ⟨_, Prod.ext ha rfl, hw.symm⟩
  · rintro ⟨m, h, rfl⟩
    have hrun : (attempt action).run.run w
        = ((action.run.run w.manager).1, { w with manager := (action.run.run w.manager).2 }) := rfl
    rw [Returns, hrun, h]

/-- A computation of the manager fails in a workspace if it fails. -/
@[simp]
theorem fails_attempt {action : ExceptT Fault Managed α} :
    (attempt action).Fails w ↔ ∃ fault m, Yields action.run w.manager (.error fault) m := by
  have hrun : (attempt action).run.run w
      = ((action.run.run w.manager).1, { w with manager := (action.run.run w.manager).2 }) := rfl
  constructor
  · rintro ⟨fault, w', h⟩
    rw [hrun] at h
    exact ⟨fault, _, Prod.ext (Prod.mk.inj h).1 rfl⟩
  · rintro ⟨fault, m, h⟩
    exact ⟨fault, { w with manager := m }, by rw [hrun, h]⟩

/-- A computation of the manager that fails leaves the manager where it stopped. -/
theorem stops_attempt {action : ExceptT Fault Managed α} (h : (attempt action).Stops w w') :
    ∃ fault m, Yields action.run w.manager (.error fault) m ∧ w' = { w with manager := m } := by
  obtain ⟨fault, hrun⟩ := h
  obtain ⟨hfault, hw⟩ := Prod.mk.inj hrun
  exact ⟨fault, _, Prod.ext hfault rfl, hw.symm⟩

/-- The run of a computation, with what is said about its failure. -/
theorem run_within (place : Fault → Fault) (x : Work α) (w : Workspace) :
    (within place x).run.run w = match x.run.run w with
      | (.ok a, w₁) => (.ok a, w₁)
      | (.error fault, w₁) => (.error (place fault), w₁) := by
  show (Except.mapError place <$> x.run : StateM Workspace _).run w = _
  have hmap : (Except.mapError place <$> x.run : StateM Workspace _).run w
      = (Except.mapError place (x.run.run w).1, (x.run.run w).2) := rfl
  rw [hmap]
  cases x.run.run w with
  | mk r w₁ => cases r <;> rfl

/-- Saying where a failure arose changes no result. -/
@[simp]
theorem returns_within {place : Fault → Fault} :
    (within place x).Returns w a w' ↔ x.Returns w a w' := by
  rw [Returns, Returns, run_within]
  cases x.run.run w with
  | mk r w₁ =>
    cases r with
    | ok a => rfl
    | error fault =>
      constructor
      · intro h
        exact absurd (Prod.mk.inj h).1 (by simp)
      · intro h
        exact absurd (Prod.mk.inj h).1 (by simp)

/-- Saying where a failure arose keeps it a failure. -/
@[simp]
theorem fails_within {place : Fault → Fault} : (within place x).Fails w ↔ x.Fails w := by
  constructor
  · intro h
    rcases returns_or_fails x w with ⟨a, w₁, hx⟩ | hx
    · exact absurd h (returns_within.mpr hx).not_fails
    · exact hx
  · intro h
    rcases returns_or_fails (within place x) w with ⟨a, w₁, hx⟩ | hx
    · exact absurd h (returns_within.mp hx).not_fails
    · exact hx

/-- Saying where a failure arose leaves the same workspace. -/
theorem stops_within {place : Fault → Fault} : (within place x).Stops w w' ↔ x.Stops w w' := by
  constructor
  · rintro ⟨fault, h⟩
    rw [run_within] at h
    cases hx : x.run.run w with
    | mk r w₁ =>
      rw [hx] at h
      cases r with
      | ok a => exact absurd (Prod.mk.inj h).1 (by simp)
      | error fault' => exact ⟨fault', by rw [hx, (Prod.mk.inj h).2]⟩
  · rintro ⟨fault, h⟩
    exact ⟨place fault, by rw [run_within, h]⟩

@[simp]
theorem returns_report {level : Log.Level} {message : String} {fields : List (String × String)}
    {u : Unit} : (report level message fields).Returns w u w' ↔
      { w with log := ⟨level, message, fields⟩ :: w.log } = w' := by
  rw [report, returns_lift, Workspace.report, Yields.modify_iff]

@[simp]
theorem fails_report {level : Log.Level} {message : String} {fields : List (String × String)} :
    ¬ (report level message fields).Fails w := fails_lift

end Work

end FieldFlow
