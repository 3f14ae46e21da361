import FieldFlow.Proofs.Branches
import FieldFlow.Proofs.Regimes

/-!
# What resolving and finalizing leave alone

Resolving a reference makes transformers and values, and finalizing keeps a table of what it has
finished and counts the requests for it.  So the pool, the log, the table and the count change, and
what factories keep.  The identity and the factories of the manager do not, nor do the analyses or
what runs have counted.  This holds whether the computation returns or fails, however deep it goes,
and whatever the factories do.

Main definitions: `Manager.Akin`, `Workspace.SameFrame`, `Work.Framed`.
Main results: `Resolver.framed_final`, `Solver.framed_finalize`.
-/

namespace FieldFlow

namespace Manager

variable {m m' m'' : Manager}

/-- The second manager has the identity and the factories of the first, and an arbitrary pool. -/
structure Akin (m m' : Manager) : Prop where
  identity : m'.identity = m.identity
  factories : m'.factories = m.factories

theorem Akin.refl (m : Manager) : m.Akin m := ⟨rfl, rfl⟩

theorem Akin.trans (h : m.Akin m') (h' : m'.Akin m'') : m.Akin m'' :=
  ⟨h'.identity.trans h.identity, h'.factories.trans h.factories⟩

/-- Interning a transformer changes the pool only. -/
theorem intern_akin {t c : Transformer} (h : Yields (intern t) m c m') : m.Akin m' := by
  obtain ⟨rfl, _⟩ := intern_canonical h
  exact ⟨rfl, rfl⟩

theorem internValue_akin {v u : Value} (h : Yields (internValue v) m u m') : m.Akin m' := by
  obtain ⟨rfl, _⟩ := internValue_canonical h
  exact ⟨rfl, rfl⟩

theorem craft_akin {code : Craft Transformer} {outcome : Except Fault Transformer}
    (h : Yields (craft code).run m outcome m') : m.Akin m' := by
  obtain ⟨_, hidentity, hfactories⟩ := craft_spec h
  exact ⟨hidentity, hfactories⟩

end Manager

/-! ## The regime of frames -/

/-- The workspaces have the same frame: they may differ in the pool and what factories keep, in the
log, the tables of final values and the counts of solvers and requests. -/
structure Workspace.SameFrame (w w' : Workspace) : Prop where
  manager : w.manager.Akin w'.manager
  analyses : w'.analyses = w.analyses
  objects : w'.objects = w.objects
  pathValues : w'.pathValues = w.pathValues

namespace Workspace

theorem SameFrame.refl (w : Workspace) : w.SameFrame w := ⟨.refl _, rfl, rfl, rfl⟩

theorem SameFrame.trans {w w' w'' : Workspace} (h : w.SameFrame w') (h' : w'.SameFrame w'') :
    w.SameFrame w'' :=
  ⟨h.manager.trans h'.manager, h'.analyses.trans h.analyses, h'.objects.trans h.objects,
    h'.pathValues.trans h.pathValues⟩

/-- The regime under which the frame stays; nothing is expected of what is handed out. -/
def framing : Regime where
  state _ := True
  next := SameFrame
  canonical _ _ := True
  shaped _ := True
  admits _ _ := True

theorem lawful_framing : framing.Lawful where
  refl := .refl
  trans := .trans
  state _ _ := trivial
  canonical _ _ := trivial
  shape := Item.shape_true
  logged _ _ := ⟨.refl _, rfl, rfl, rfl⟩
  identity _ := ⟨trivial, trivial⟩
  intern _ _ h := ⟨⟨Manager.intern_akin h, rfl, rfl, rfl⟩, trivial⟩
  internValue _ _ h := ⟨⟨Manager.internValue_akin h, rfl, rfl, rfl⟩, trivial⟩
  craft _ _ _ h :=
    ⟨⟨Manager.craft_akin h, rfl, rfl, rfl⟩, fun _ _ => ⟨.inr (.inl trivial), trivial⟩⟩

end Workspace

open Workspace (framing lawful_framing)

namespace Work

variable {α β : Type} {x : Work α} {f : α → Work β}

/-- Whether it returns or fails, the computation leaves the frame of the workspace alone. -/
def Framed (x : Work α) : Prop := ∀ w, framing.Governs w x fun _ _ => True

theorem Framed.sameFrame (hx : x.Framed) (w : Workspace) : w.SameFrame (x.run.run w).2 := by
  cases hrun : x.run.run w with
  | mk result w' =>
    cases result with
    | ok a => exact ((hx w).returns hrun).1
    | error fault => exact (hx w).stops ⟨fault, hrun⟩

/-- A computation leaves the frame alone if its runs do. -/
theorem framed_of_sameFrame (h : ∀ w : Workspace, w.SameFrame (x.run.run w).2) :
    x.Framed := by
  refine fun w => ⟨fun hreturns => ?_, fun ⟨fault, hrun⟩ => ?_⟩
  · have hframe := h w
    rw [hreturns] at hframe
    exact ⟨hframe, trivial⟩
  · have hframe := h w
    rwa [hrun] at hframe

theorem framed_pure (a : α) : (pure a : Work α).Framed :=
  fun _ => Regime.governs_pure lawful_framing trivial

theorem Framed.bind (hx : x.Framed) (hf : ∀ a, (f a).Framed) : (x >>= f).Framed :=
  fun w => (hx w).bind lawful_framing fun a w' _ _ => hf a w'

end Work

/-! ## Resolving -/

namespace Resolver

variable {r : Resolver} (hr : r.Respects framing)

include hr

theorem framed_extendBranches (branches : List PathValue) (entries : List (String × Option Value)) :
    (r.extendBranches branches entries).Framed := by
  induction entries generalizing branches with
  | nil => exact Work.framed_pure branches
  | cons entry rest ih =>
    obtain ⟨field, value⟩ := entry
    cases value with
    | none => exact ih branches
    | some v =>
      intro w
      refine (governs_finalValues lawful_framing hr trivial field ⟨trivial, trivial⟩).within.bind
        lawful_framing fun _ w₁ _ _ => ih _ w₁

theorem framed_branchesOfAll (paths : List PathValue) : (r.branchesOfAll paths).Framed := by
  induction paths with
  | nil => exact Work.framed_pure []
  | cons p rest ih =>
    have hown : (r.ownBranches p).Framed := by
      unfold ownBranches
      split
      · exact fun w => (framed_extendBranches hr _ _ w).within
      · exact Work.framed_pure [p]
    rw [branchesOfAll_cons]
    exact hown.bind fun own => ih.bind fun others => Work.framed_pure (own ++ others)

/-- **The final form of a value** is found without touching the frame. -/
theorem framed_final (v : Propagation) : (r.final v).Framed := by
  unfold final
  split
  · refine (framed_branchesOfAll hr _).bind fun paths => ?_
    have hserial : (Work.managed Manager.nextSerial).Framed :=
      Work.framed_of_sameFrame fun _ => ⟨⟨rfl, rfl⟩, rfl, rfl, rfl⟩
    exact hserial.bind fun serial => Work.framed_pure _
  · exact Work.framed_pure v

end Resolver

/-! ## Finalizing -/

namespace Solver

variable {s : Solver} {finalize : Propagation → Work Propagation}

/-- The resolver of a solver, if finalizing leaves the frame alone. -/
theorem respects_resolver (hfinalize : ∀ v, (finalize v).Framed) :
    (s.resolver finalize).Respects framing where
  finalize _ _ := (hfinalize _).bind (fun _ => Work.framed_pure _) _
  provide := by
    rintro w provide _ ⟨⟩ type
    exact (Regime.governs_topTransformer lawful_framing trivial type).mono
      fun _ _ _ _ => ⟨.inr (.inl trivial), trivial⟩

/-- Finalizing, if finalizing what is referred to leaves the frame alone. -/
theorem framed_finalizeUsing (hfinalize : ∀ v, (finalize v).Framed) (v : Propagation) :
    (s.finalizeUsing finalize v).Framed := by
  have hrequest : countRequest.Framed :=
    Work.framed_of_sameFrame fun _ => ⟨.refl _, rfl, rfl, rfl⟩
  refine hrequest.bind fun _ => ?_
  cases v with
  | top => exact Work.framed_pure _
  | paths serial members =>
    refine fun w => Regime.governs_get_bind ?_
    cases (w.finalsOf s.number).lookup serial with
    | some final => exact Work.framed_pure final w
    | none =>
      have hkept : ∀ final : Propagation,
          (modify (fun w => w.keepFinal s.number serial final) : Work PUnit).Framed :=
        fun final => Work.framed_of_sameFrame fun _ => ⟨.refl _, rfl, rfl, rfl⟩
      refine (Resolver.framed_final (respects_resolver hfinalize) _).bind (fun final => ?_) w
      exact (hkept final).bind fun _ => Work.framed_pure final

/-- **Finalizing leaves the frame alone**, however deep it goes. -/
theorem framed_finalize (s : Solver) (v : Propagation) : (s.finalize v).Framed := by
  -- At depth 0 finalizing fails, and a failure leaves the frame alone as well.
  have hwithin : ∀ depth v, (s.finalizeWithin depth v).Framed := by
    intro depth
    induction depth with
    | zero => exact fun _ _ => Regime.governs_throw lawful_framing
    | succ depth ih => exact framed_finalizeUsing ih
  exact hwithin s.depth v

end Solver

end FieldFlow
