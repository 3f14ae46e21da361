import FieldFlow.Proofs.Alternatives
import FieldFlow.Proofs.Interning
import Mathlib.Data.List.ProdSigma

/-!
# Regimes

All that a manager and its resolvers hand out may be canonical, or have contents of a certain shape,
if everything that happens in between keeps to some rules.  A regime is made of such rules and of
what is expected under them.  Which rules they are differs; what the operations do under them does
not, so it is shown here once, for every lawful regime.

Expectations about contents hold of everything that is composed and applied.  Those about instances
hold of what is handed out: a sequence may replay transformers that are not canonical, but what
comes of it is not handed out before it has been applied to a value.

Main definitions: `Regime`, `Regime.Lawful`, `Regime.Governs`, `Resolver.Respects`.
Main results: `Regime.manages_compose`, `Regime.manages_apply`, `Regime.governs_make`,
`Resolver.governs_alternatives`, `Resolver.governs_finalValues`.
-/

namespace FieldFlow

/-- What is expected of things at any time, and what time may bring. -/
structure Regime where
  /-- What holds at any time. -/
  state : Workspace → Prop
  /-- What a workspace may become. -/
  next : Workspace → Workspace → Prop
  /-- What is expected of instances. -/
  canonical : Workspace → Item → Prop
  /-- What is expected of contents. -/
  shaped : Item → Prop
  /-- The transformers that were made elsewhere and may be interned. -/
  admits : Workspace → Transformer → Prop

/-- The expectation is a matter of contents, and composing and applying meet it. -/
structure Item.Shape (P : Item → Prop) : Prop where
  contents : ∀ {i j : Item}, P i → j.contents = i.contents → P j
  merge : ∀ {a b : Transformer}, P (.transformer a) → P (.transformer b) → b.clear = false →
    P (.transformer (a.merge b))
  on : ∀ {t : Transformer} {v : Value}, P (.transformer t) → P (.value v) → P (.value (t.on v))
  edits : ∀ {t : Transformer}, P (.transformer t) → P (.transformer t.edits)
  plain : ∀ set, P (.value (.draft set none))
  replayed : ∀ {v : Value} {steps : Sequence}, P (.value v) → v.sequence = some steps →
    ∀ step ∈ steps, ∀ t ∈ step.after, P (.transformer t)

theorem Item.shape_true : Shape fun _ => True := by
  constructor <;> intros <;> trivial

namespace Regime

variable {g : Regime} {α β : Type} {w w' : Workspace}

/-- What may be handed out. -/
def Good (g : Regime) (w : Workspace) (i : Item) : Prop := g.canonical w i ∧ g.shaped i

/-- The transformer may be interned: it is new, was handed out before, or is admitted. -/
def Takes (g : Regime) (w : Workspace) (t : Transformer) : Prop :=
  (t.serial = 0 ∨ g.canonical w (.transformer t) ∨ g.admits w t) ∧ g.shaped (.transformer t)

/-- The rules are kept by interning and by the factories, and what is interned meets the
expectations. -/
structure Lawful (g : Regime) : Prop where
  refl : ∀ w, g.next w w
  trans : ∀ {w w' w''}, g.next w w' → g.next w' w'' → g.next w w''
  state : ∀ {w w'}, g.state w → g.next w w' → g.state w'
  canonical : ∀ {w w' i}, g.canonical w i → g.next w w' → g.canonical w' i
  shape : Item.Shape g.shaped
  logged : ∀ w log, g.next w { w with log := log }
  identity : ∀ {w}, g.state w → g.Good w (.transformer w.manager.identity)
  intern : ∀ {w t c m}, g.state w → g.Takes w t → Yields (Manager.intern t) w.manager c m →
    g.next w { w with manager := m } ∧ g.canonical { w with manager := m } (.transformer c)
  internValue : ∀ {w v u m}, g.state w → v.serial = 0 →
    Yields (Manager.internValue v) w.manager u m →
    g.next w { w with manager := m } ∧ g.canonical { w with manager := m } (.value u)
  craft : ∀ {w action f code outcome m}, g.state w → w.manager.factory? action = some f →
    f.Runs action code → Yields (Manager.craft code).run w.manager outcome m →
    g.next w { w with manager := m } ∧ ∀ t, outcome = .ok t → g.Takes { w with manager := m } t

/-- Started in `w`, the computation of the manager keeps the rules, and `Q` holds of its result. -/
def Manages (g : Regime) (w : Workspace) (action : Managed α) (Q : α → Workspace → Prop) : Prop :=
  ∀ a m, Yields action w.manager a m →
    g.next w { w with manager := m } ∧ Q a { w with manager := m }

/-- Started in `w`, the computation keeps the rules, and `Q` holds of what it returns. -/
structure Governs (g : Regime) (w : Workspace) (x : Work α) (Q : α → Workspace → Prop) : Prop where
  returns : ∀ {a w'}, x.Returns w a w' → g.next w w' ∧ Q a w'
  stops : ∀ {w'}, x.Stops w w' → g.next w w'

variable {action : Managed α} {x : Work α} {P Q : α → Workspace → Prop} {R : β → Workspace → Prop}

/-! ## Computations -/

theorem Governs.mono (hx : g.Governs w x P) (h : ∀ a w', g.next w w' → P a w' → Q a w') :
    g.Governs w x Q := by
  refine ⟨fun hreturns => ?_, hx.stops⟩
  obtain ⟨hnext, hP⟩ := hx.returns hreturns
  exact ⟨hnext, h _ _ hnext hP⟩

theorem Governs.within {place : Fault → Fault} (hx : g.Governs w x Q) :
    g.Governs w (Work.within place x) Q :=
  ⟨fun h => hx.returns (Work.returns_within.mp h), fun h => hx.stops (Work.stops_within.mp h)⟩

theorem Manages.governs (h : g.Manages w action Q) : g.Governs w (Work.managed action) Q := by
  refine ⟨fun hreturns => ?_, fun hstops => absurd hstops.fails Work.fails_managed⟩
  obtain ⟨m, hyields, rfl⟩ := Work.returns_managed.mp hreturns
  exact h _ m hyields

/-- A computation of the manager that may fail. -/
theorem governs_attempt {action : ExceptT Fault Managed α}
    (h : g.Manages w action.run fun outcome w' => ∀ a, outcome = .ok a → Q a w') :
    g.Governs w (Work.attempt action) Q := by
  constructor
  · intro a w' hreturns
    obtain ⟨m, hyields, rfl⟩ := Work.returns_attempt.mp hreturns
    obtain ⟨hnext, hQ⟩ := h _ m hyields
    exact ⟨hnext, hQ a rfl⟩
  · intro w' hstops
    obtain ⟨fault, m, hyields, rfl⟩ := Work.stops_attempt hstops
    exact (h _ m hyields).1

theorem governs_get_bind {f : Workspace → Work β} (h : g.Governs w (f w) R) :
    g.Governs w (get >>= f) R := by
  constructor
  · intro b w' hreturns
    obtain ⟨_, _, hget, hb⟩ := Work.returns_bind.mp hreturns
    obtain ⟨rfl, rfl⟩ := Work.returns_get.mp hget
    exact h.returns hb
  · intro w' hstops
    rcases Work.stops_bind.mp hstops with hget | ⟨_, _, hget, hb⟩
    · exact absurd hget.fails Work.fails_get
    · obtain ⟨rfl, rfl⟩ := Work.returns_get.mp hget
      exact h.stops hb

variable (hg : g.Lawful)

include hg

theorem governs_pure {a : α} (ha : Q a w) : g.Governs w (pure a) Q := by
  refine ⟨fun h => ?_, fun h => absurd h.fails Work.fails_pure⟩
  obtain ⟨rfl, rfl⟩ := Work.returns_pure.mp h
  exact ⟨hg.refl _, ha⟩

theorem governs_throw {fault : Fault} : g.Governs w (throw fault) Q := by
  refine ⟨fun h => absurd h Work.returns_throw, fun h => ?_⟩
  obtain rfl := Work.stops_throw.mp h
  exact hg.refl _

/-- One computation after the other. -/
theorem Governs.bind {f : α → Work β} (hx : g.Governs w x P)
    (hf : ∀ a w', g.next w w' → P a w' → g.Governs w' (f a) R) : g.Governs w (x >>= f) R := by
  constructor
  · intro b w' h
    obtain ⟨a, w₁, ha, hb⟩ := Work.returns_bind.mp h
    obtain ⟨hnext, hP⟩ := hx.returns ha
    obtain ⟨hnext', hR⟩ := (hf a w₁ hnext hP).returns hb
    exact ⟨hg.trans hnext hnext', hR⟩
  · intro w' h
    rcases Work.stops_bind.mp h with hstops | ⟨a, w₁, ha, hstops⟩
    · exact hx.stops hstops
    · obtain ⟨hnext, hP⟩ := hx.returns ha
      exact hg.trans hnext ((hf a w₁ hnext hP).stops hstops)

theorem governs_report (level : Log.Level) (message : String) (fields : List (String × String)) :
    g.Governs w (Work.report level message fields) fun _ _ => True := by
  refine ⟨fun h => ?_, fun h => absurd h.fails Work.fails_report⟩
  obtain rfl := Work.returns_report.mp h
  exact ⟨hg.logged _ _, trivial⟩

theorem manages_pure {a : α} (ha : Q a w) : g.Manages w (pure a) Q := by
  intro a' m h
  obtain ⟨rfl, rfl⟩ := Yields.pure_iff.mp h
  exact ⟨hg.refl _, ha⟩

/-- One computation of the manager after the other. -/
theorem Manages.bind {f : α → Managed β} (hx : g.Manages w action P)
    (hf : ∀ a w', g.next w w' → P a w' → g.Manages w' (f a) R) : g.Manages w (action >>= f) R := by
  intro b m h
  obtain ⟨a, m₁, ha, hb⟩ := Yields.bind_iff.mp h
  obtain ⟨hnext, hP⟩ := hx a m₁ ha
  obtain ⟨hnext', hR⟩ := hf a _ hnext hP b m hb
  exact ⟨hg.trans hnext hnext', hR⟩

/-- A computation for every member of a list, if what holds of one result goes on to hold. -/
theorem manages_mapM {f : α → Managed β} {l : List α} (hw : g.state w)
    (hf : ∀ a ∈ l, ∀ w', g.next w w' → g.Manages w' (f a) R)
    (hR : ∀ {b w w'}, R b w → g.next w w' → R b w') :
    g.Manages w (l.mapM f) fun bs w' => ∀ b ∈ bs, R b w' := by
  induction l generalizing w with
  | nil =>
    rw [List.mapM_nil]
    exact manages_pure hg fun b hb => absurd hb List.not_mem_nil
  | cons a rest ih =>
    rw [List.mapM_cons]
    refine (hf a List.mem_cons_self w (hg.refl w)).bind hg fun b w₁ hnext hb => ?_
    have hrest := ih (hg.state hw hnext) fun a' ha' w' hnext' =>
      hf a' (List.mem_cons_of_mem _ ha') w' (hg.trans hnext hnext')
    refine hrest.bind hg fun bs w₂ hnext' hbs => manages_pure hg fun b' hb' => ?_
    rcases List.mem_cons.mp hb' with rfl | hb'
    · exact hR hb hnext'
    · exact hbs b' hb'

/-! ## Operations of the manager -/

theorem Good.mono {i : Item} (hi : g.Good w i) (h : g.next w w') : g.Good w' i :=
  ⟨hg.canonical hi.1 h, hi.2⟩

variable {t first second : Transformer} {v : Value}

theorem manages_intern (hw : g.state w) (ht : g.Takes w t) :
    g.Manages w (Manager.intern t) fun c w' => g.Good w' (.transformer c) := by
  intro c m h
  obtain ⟨hnext, hcanonical⟩ := hg.intern hw ht h
  obtain ⟨_, _, _, hcontents⟩ := Manager.intern_canonical h
  exact ⟨hnext, hcanonical, hg.shape.contents ht.2 (congrArg Item.transformer hcontents)⟩

theorem manages_internValue (hw : g.state w) (hv : v.serial = 0) :
    g.Manages w (Manager.internValue v) fun u w' =>
      g.canonical w' (.value u) ∧ u.contents = v.contents := by
  intro u m h
  obtain ⟨hnext, hcanonical⟩ := hg.internValue hw hv h
  exact ⟨hnext, hcanonical, (Manager.internValue_canonical h).2.2⟩

theorem manages_nonComposed (hw : g.state w) (ht : g.shaped (.transformer t)) :
    g.Manages w (Manager.nonComposed t) fun c w' => g.Good w' (.transformer c) :=
  manages_intern hg hw ⟨.inl rfl, hg.shape.edits ht⟩

theorem next_of_prepares {old : List Transformer} {i : Item} {m : Manager} (hw : g.state w)
    (ht : g.shaped (.transformer t)) (h : w.manager.Prepares t old i m) :
    g.next w { w with manager := m } := by
  rcases h.replayed with ⟨rfl, _⟩ | ⟨e, he, _⟩
  · exact hg.refl w
  · exact (manages_nonComposed hg hw ht e m he).1

/-- **Composition** of transformers with the expected contents.  It may hand an operand back, which
is good if the operand was. -/
theorem manages_compose (hw : g.state w) (hfirst : g.shaped (.transformer first))
    (hsecond : g.shaped (.transformer second)) :
    g.Manages w (Manager.compose first second) fun c w' => g.shaped (.transformer c) ∧
      (g.Good w (.transformer first) → g.Good w (.transformer second) →
        g.Good w' (.transformer c)) := by
  intro c m h
  rcases Manager.compose_cases h with ⟨rfl, rfl, _⟩ | ⟨rfl, rfl, _⟩ |
    ⟨hclear, _, _, body, m₁, hprepares, hintern, hcontents⟩
  · exact ⟨hg.refl w, hsecond, fun _ hgood => hgood⟩
  · exact ⟨hg.refl w, hfirst, fun hgood _ => hgood⟩
  -- Interned from its contents, the composition is good even of operands that are not.
  · have hbody : g.shaped (.transformer body) := hg.shape.contents
      (hg.shape.merge hfirst hsecond hclear) (congrArg Item.transformer hcontents)
    have hnext := next_of_prepares hg hw hsecond hprepares
    obtain ⟨hnext', hgood⟩ := manages_intern hg (hg.state hw hnext) ⟨.inl hprepares.serial, hbody⟩
      c m hintern
    exact ⟨hg.trans hnext hnext', hgood.2, fun _ _ => hgood⟩

theorem manages_composeAll (hw : g.state w) (ht : g.shaped (.transformer t))
    {after : List Transformer} (hafter : ∀ u ∈ after, g.shaped (.transformer u)) :
    g.Manages w (Manager.composeAll t after) fun c _ => g.shaped (.transformer c) := by
  induction after generalizing t w with
  | nil => exact manages_pure hg ht
  | cons next rest ih =>
    obtain ⟨hnext, hrest⟩ := List.forall_mem_cons.mp hafter
    exact (manages_compose hg hw ht hnext).bind hg fun c w₁ hw₁ hc =>
      ih (hg.state hw hw₁) hc.1 hrest

/-- **Application** of a transformer to a value, both with the expected contents. -/
theorem manages_apply (hw : g.state w) (ht : g.shaped (.transformer t)) (hv : g.shaped (.value v)) :
    g.Manages w (Manager.apply t v) fun u w' => g.Good w' (.value u) := by
  intro u m h
  obtain ⟨body, m₁, hprepares, hintern, hbody⟩ := Manager.apply_cases h
  have hnext := next_of_prepares hg hw ht hprepares
  obtain ⟨hnext', hcanonical, hcontents⟩ :=
    manages_internValue hg (hg.state hw hnext) hprepares.serial u m hintern
  refine ⟨hg.trans hnext hnext', hcanonical, hg.shape.contents (hg.shape.on ht hv) ?_⟩
  exact congrArg Item.value (hcontents.trans hbody)

/-- **Making** a transformer by the code that a factory has for an operand. -/
theorem governs_make (hw : g.state w) {action : String} {code : Factory → Craft Transformer}
    (hcode : ∀ f : Factory, f.Runs action (code f)) :
    g.Governs w (Work.attempt (Manager.make action code)) fun c w' =>
      g.Good w' (.transformer c) := by
  refine governs_attempt fun outcome m h => ?_
  rcases Manager.make_cases h with ⟨_, rfl, rfl⟩ | ⟨f, hf, hmade⟩
  · exact ⟨hg.refl w, fun c hc => by cases hc⟩
  · rcases hmade with ⟨fault, hfailed, rfl⟩ | ⟨t, m₁, c, hok, hintern, rfl⟩
    · exact ⟨(hg.craft hw hf (hcode f) hfailed).1, fun c hc => by cases hc⟩
    · obtain ⟨hnext, htakes⟩ := hg.craft hw hf (hcode f) hok
      obtain ⟨hnext', hgood⟩ := manages_intern hg (hg.state hw hnext) (htakes t rfl) c m hintern
      refine ⟨hg.trans hnext hnext', fun c' hc => ?_⟩
      obtain rfl := Except.ok.inj hc
      exact hgood

/-- The transformer for an unknown value, as the analyses provide it. -/
theorem governs_topTransformer (hw : g.state w) (type : String) :
    g.Governs w (Work.topTransformer type) fun t w' => g.Good w' (.transformer t) := by
  unfold Work.topTransformer
  refine governs_get_bind ?_
  cases hfind : w.analyses.find? type with
  | some analysis =>
    simp only [hfind, pure_bind]
    exact governs_make hg hw fun f => .literal analysis.top
  | none =>
    simp only [hfind, pure_bind]
    exact (governs_report hg _ _ _).bind hg fun _ w₁ hnext _ =>
      governs_make hg (hg.state hw hnext) fun f => .literal _

end Regime

/-! ## Operations of a resolver -/

namespace Resolver

variable {g : Regime} {r : Resolver} {w w' : Workspace} {op : String}

/-- What the resolver asks for keeps the rules, and what is provided for unknown values may be
interned. -/
structure Respects (r : Resolver) (g : Regime) : Prop where
  finalize : ∀ {w point symbol v}, g.state w → r.resultAt point symbol = some v →
    g.Governs w (r.finalize v) fun _ _ => True
  provide : ∀ {w provide}, g.state w → r.provider = some provide → ∀ type,
    g.Governs w (provide type) fun t w' => g.Takes w' t

variable (hg : g.Lawful)

include hg

theorem governs_foldElements (hw : g.state w) {start : Transformer}
    (hstart : g.Good w (.transformer start)) (xs : List Element) :
    g.Governs w (foldElements op start xs) fun t w' => g.Good w' (.transformer t) := by
  induction xs generalizing w start with
  | nil => exact Regime.governs_pure hg hstart
  | cons x rest ih =>
    refine (Regime.governs_make hg hw fun f => .literal x).bind hg fun next w₁ hnext₁ hnext => ?_
    have hw₁ := hg.state hw hnext₁
    refine (Regime.manages_compose hg hw₁ hstart.2 hnext.2).governs.bind hg ?_
    exact fun composed w₂ hnext₂ hcomposed =>
      ih (hg.state hw₁ hnext₂) (hcomposed.2 (hstart.mono hg hnext₁) hnext)

theorem governs_ofContent (hw : g.state w) (content : Option Value) :
    g.Governs w (ofContent op content) fun made w' =>
      ∀ t, made = some t → g.Good w' (.transformer t) := by
  cases content with
  | none => exact Regime.governs_pure hg fun t ht => by cases ht
  | some v =>
    refine Regime.governs_get_bind ((governs_foldElements hg hw (hg.identity hw) _).bind hg ?_)
    intro t w₁ _ ht
    refine Regime.governs_pure hg fun u hu => ?_
    obtain rfl := Option.some.inj hu
    exact ht

theorem governs_ofContents (hw : g.state w) (contents : List (Option Value)) :
    g.Governs w (ofContents op contents) fun made w' =>
      ∀ t, some t ∈ made → g.Good w' (.transformer t) := by
  induction contents generalizing w with
  | nil => exact Regime.governs_pure hg fun t ht => absurd ht List.not_mem_nil
  | cons content rest ih =>
    refine (governs_ofContent hg hw content).bind hg fun first w₁ hnext₁ hfirst => ?_
    refine (ih (hg.state hw hnext₁)).bind hg fun others w₂ hnext₂ hothers => ?_
    refine Regime.governs_pure hg fun t ht => ?_
    rcases List.mem_cons.mp ht with ht | ht
    · exact (hfirst t ht.symm).mono hg hnext₂
    · exact hothers t ht

variable (hr : r.Respects g)

include hr

theorem governs_reach (hw : g.state w) (point symbol : Element) :
    g.Governs w (r.reach point symbol) fun _ _ => True := by
  unfold reach
  cases hresult : r.resultAt point symbol with
  | none => exact Regime.governs_pure hg trivial
  | some v =>
    dsimp only
    split
    · exact Regime.governs_pure hg trivial
    · refine (hr.finalize hw hresult).within.bind hg fun final w₁ _ _ => ?_
      cases final with
      | none => exact Regime.governs_pure hg trivial
      | some final => exact Regime.governs_pure hg trivial

/-- **The transformer for an unknown value** is interned, whatever provides it. -/
theorem governs_top (hw : g.state w) (type : String) :
    g.Governs w (r.top type) fun t w' => g.Good w' (.transformer t) := by
  unfold top
  cases hprovider : r.provider with
  | none => exact Regime.governs_throw hg
  | some provide =>
    refine (hr.provide hw hprovider type).bind hg fun t w₁ hnext ht => ?_
    exact (Regime.manages_intern hg (hg.state hw hnext) ht).governs

/-- **The alternatives for a reference.** -/
theorem governs_alternatives (hw : g.state w) (point symbol : Element) (field type op : String) :
    g.Governs w (ExceptT.lift (r.alternatives point symbol field type op)) fun found w' =>
      ∀ l, found.outcome = .ok l → ∀ t, some t ∈ l → g.Good w' (.transformer t) := by
  refine ⟨fun {found w'} h => ?_, fun h => absurd h.fails Work.fails_lift⟩
  have hreached := governs_reach hg hr hw point symbol
  have harises := alternatives_arises (Work.returns_lift.mp h)
  generalize found.outcome = outcome at harises ⊢
  cases harises with
  | lost hreach => exact ⟨hreached.stops hreach, fun l hl => by cases hl⟩
  | @unknown _ _ log _ hreach htop =>
    -- The warning is logged before the provider is asked, so it starts from a later state.
    have hnext := hg.trans (hreached.returns hreach).1 (hg.logged _ log)
    obtain ⟨hnext', ht⟩ := (governs_top hg hr (hg.state hw hnext) type).returns htop
    refine ⟨hg.trans hnext hnext', fun l hl u hu => ?_⟩
    obtain rfl := Except.ok.inj hl
    rw [List.mem_singleton, Option.some.injEq] at hu
    exact hu ▸ ht
  | @topless _ _ log _ hreach htop =>
    have hnext := hg.trans (hreached.returns hreach).1 (hg.logged _ log)
    have hstopped := (governs_top hg hr (hg.state hw hnext) type).stops htop
    exact ⟨hg.trans hnext hstopped, fun l hl => by cases hl⟩
  | known hreach hcontents =>
    have hnext := (hreached.returns hreach).1
    obtain ⟨hnext', hmade⟩ := (governs_ofContents hg (hg.state hw hnext) _).returns hcontents
    refine ⟨hg.trans (hg.trans hnext hnext') (hg.logged _ _), fun l hl t ht => ?_⟩
    obtain rfl := Except.ok.inj hl
    exact (hmade t (Ordered.mem_of_mem_distinctBy ht)).mono hg (hg.logged _ _)
  | unfolded hreach hcontents =>
    have hnext := (hreached.returns hreach).1
    have hstopped := (governs_ofContents hg (hg.state hw hnext) _).stops hcontents
    exact ⟨hg.trans hnext hstopped, fun l hl => by cases hl⟩

theorem governs_stepAlternatives (hw : g.state w) (holder : String) (step : Step Transformer) :
    g.Governs w (r.stepAlternatives holder step) fun l w' =>
      ∀ t, some t ∈ l → g.Good w' (.transformer t) := by
  unfold stepAlternatives
  cases step.ref with
  | none =>
    refine Regime.governs_get_bind (Regime.governs_pure hg fun t ht => ?_)
    rw [List.mem_singleton, Option.some.injEq] at ht
    exact ht ▸ hg.identity hw
  | some ref =>
    refine (governs_alternatives hg hr hw _ _ _ _ _).bind hg fun found w₁ _ hfound => ?_
    cases houtcome : found.outcome with
    | error fault => exact Regime.governs_throw hg
    | ok l => exact Regime.governs_pure hg (hfound l houtcome)

omit hr in
/-- One alternative followed by another and by what is replayed after it. -/
theorem manages_layer (hw : g.state w) {after : List Transformer}
    {pair : Option Transformer × Option Transformer}
    (hfirst : ∀ t, pair.1 = some t → g.shaped (.transformer t))
    (hsecond : ∀ t, pair.2 = some t → g.shaped (.transformer t))
    (hafter : ∀ t ∈ after, g.shaped (.transformer t)) :
    g.Manages w (layer after pair) fun made _ => ∀ t, made = some t →
      g.shaped (.transformer t) := by
  have hmissing : g.Manages w (pure none) fun (made : Option Transformer) _ =>
      ∀ t, made = some t → g.shaped (.transformer t) :=
    Regime.manages_pure hg fun t ht => by cases ht
  obtain ⟨_ | current, _ | next⟩ := pair
  · exact hmissing
  · exact hmissing
  · exact hmissing
  · refine (Regime.manages_compose hg hw (hfirst current rfl) (hsecond next rfl)).bind hg ?_
    intro composed w₁ hnext hcomposed
    refine (Regime.manages_composeAll hg (hg.state hw hnext) hcomposed.1 hafter).bind hg ?_
    intro c w₂ _ hc
    refine Regime.manages_pure hg fun t ht => ?_
    obtain rfl := Option.some.inj ht
    exact hc

/-- **Replaying a sequence**, if what it replays has the expected contents. -/
theorem governs_replay (hw : g.state w) (holder : String) {current : List (Option Transformer)}
    (hcurrent : ∀ t, some t ∈ current → g.shaped (.transformer t)) {steps : Sequence}
    (hsteps : ∀ step ∈ steps, ∀ t ∈ step.after, g.shaped (.transformer t)) :
    g.Governs w (r.replay holder current steps) fun l _ =>
      ∀ t, some t ∈ l → g.shaped (.transformer t) := by
  -- Only the contents are carried along: a layer may hand back an operand that is not canonical.
  induction steps generalizing w current with
  | nil => exact Regime.governs_pure hg hcurrent
  | cons step rest ih =>
    obtain ⟨hafter, hrest⟩ := List.forall_mem_cons.mp hsteps
    refine (governs_stepAlternatives hg hr hw holder step).bind hg fun next w₁ hnext₁ hnext => ?_
    have hw₁ := hg.state hw hnext₁
    have hlayers : g.Manages w₁ ((pairs current next).mapM (layer step.after)) fun composed _ =>
        ∀ made ∈ composed, ∀ t, made = some t → g.shaped (.transformer t) := by
      refine Regime.manages_mapM hg hw₁ (fun pair hpair w' hnext' => ?_) fun hmade _ => hmade
      obtain ⟨hfirst, hsecond⟩ := List.mem_product.mp hpair
      exact manages_layer hg (hg.state hw₁ hnext') (fun t ht => hcurrent t (ht ▸ hfirst))
        (fun t ht => (hnext t (ht ▸ hsecond)).2) hafter
    refine hlayers.governs.bind hg fun composed w₂ hnext₂ hcomposed => ?_
    exact ih (hg.state hw₁ hnext₂)
      (fun t ht => hcomposed _ (Ordered.mem_of_mem_distinctBy ht) t rfl) hrest

omit hr in
/-- The value that an alternative makes of a content. -/
theorem manages_applyAlternative (hw : g.state w) {choice : Option Transformer} {content : Value}
    (hchoice : ∀ t, choice = some t → g.shaped (.transformer t))
    (hcontent : g.shaped (.value content)) :
    g.Manages w (applyAlternative content choice) fun made w' =>
      ∀ u, made = some u → g.Good w' (.value u) := by
  cases choice with
  | none => exact Regime.manages_pure hg fun u hu => by cases hu
  | some t =>
    refine (Regime.manages_apply hg hw (hchoice t rfl) hcontent).bind hg fun u w₁ _ hu => ?_
    refine Regime.manages_pure hg fun u' hu' => ?_
    obtain rfl := Option.some.inj hu'
    exact hu

/-- **The final values of a value.** -/
theorem governs_finalValues (hw : g.state w) (field : String) {v : Value}
    (hv : g.Good w (.value v)) : g.Governs w (r.finalValues field v) fun values w' =>
      ∀ u, some u ∈ values → g.Good w' (.value u) := by
  unfold finalValues
  cases hsequence : v.sequence with
  | none =>
    refine Regime.governs_pure hg fun u hu => ?_
    rw [List.mem_singleton, Option.some.injEq] at hu
    exact hu ▸ hv
  | some steps =>
    have htransformers : g.Governs w (r.sequenceTransformers field steps) fun l _ =>
        ∀ t, some t ∈ l → g.shaped (.transformer t) := by
      refine Regime.governs_get_bind (governs_replay hg hr hw field (fun t ht => ?_)
        (hg.shape.replayed hv.2 hsequence))
      rw [List.mem_singleton, Option.some.injEq] at ht
      exact ht ▸ (hg.identity hw).2
    refine htransformers.bind hg fun transformers w₁ hnext₁ hshaped => ?_
    have hw₁ := hg.state hw hnext₁
    refine (Regime.manages_internValue hg hw₁ rfl).governs.bind hg ?_
    intro content w₂ hnext₂ ⟨_, hcontents⟩
    have hw₂ := hg.state hw₁ hnext₂
    have hcontent : g.shaped (.value content) :=
      hg.shape.contents (hg.shape.plain v.set) (congrArg Item.value hcontents)
    have hvalues : g.Manages w₂ (transformers.mapM (applyAlternative content)) fun values w' =>
        ∀ made ∈ values, ∀ u, made = some u → g.Good w' (.value u) := by
      refine Regime.manages_mapM hg hw₂ (fun choice hchoice w' hnext' => ?_) ?_
      · exact manages_applyAlternative hg (hg.state hw₂ hnext')
          (fun t ht => hshaped t (ht ▸ hchoice)) hcontent
      · exact fun hmade hnext' u hu => (hmade u hu).mono hg hnext'
    refine hvalues.governs.bind hg fun values w₃ _ hgood => Regime.governs_pure hg fun u hu => ?_
    exact hgood _ (Ordered.mem_of_mem_distinctBy hu) u rfl

end Resolver

end FieldFlow
