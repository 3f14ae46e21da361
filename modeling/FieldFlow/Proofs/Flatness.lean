import FieldFlow.Proofs.Application
import FieldFlow.Proofs.Clients
import FieldFlow.Proofs.Frames
import FieldFlow.Proofs.Operands

/-!
# Separate edits and flat sequences

Nothing checks that a transformer adds none of what it removes, that a sequence has steps, or that
each step has a reference; and what is replayed after a reference might clear the field, or wait for
references of its own.  With the default factories none of this comes about.  What they make is well
shaped in this sense, composing and applying keep it so, and resolving a reference does nothing but
make transformers and compose them, whatever the reference leads to.

This is a matter of contents, and a pool answers with the contents that it was asked for.  So it
makes no difference what else is interned in the pool, or whether the pool is emptied.

Main definitions: `Sequence.Flat`, `Transformer.WellShaped`, `Manager.Ordinary`, `flatness`,
`Client.Derives`.
Main results: `Transformer.WellShaped.merge`, `Transformer.WellShaped.on`, `lawful_flatness`,
`Client.separate_and_flat`.
-/

namespace FieldFlow

/-! ## Shapes -/

/-- The transformer adds nothing that it removes. -/
def Transformer.Separate (t : Transformer) : Prop :=
  Disjoint (OptionalSet.members t.add) (OptionalSet.members t.remove)

/-- The transformer has separate edits and nothing else: it neither clears the field nor waits. -/
structure Transformer.Bare (t : Transformer) : Prop where
  clear : t.clear = false
  sequence : t.sequence = none
  separate : t.Separate

/-- The sequence has steps, each of them has a reference, and what is replayed after the references
is bare. -/
structure Sequence.Flat (steps : Sequence) : Prop where
  nonempty : steps ≠ []
  refs : ∀ step ∈ steps, step.ref.isSome = true
  after : ∀ step ∈ steps, ∀ t ∈ step.after, t.Bare

/-- The edits are separate, and the sequence, if there is one, is flat. -/
structure Transformer.WellShaped (t : Transformer) : Prop where
  separate : t.Separate
  flat : ∀ steps, t.sequence = some steps → Sequence.Flat steps

/-- The sequence, if there is one, is flat. -/
def Value.WellShaped (v : Value) : Prop := ∀ steps, v.sequence = some steps → Sequence.Flat steps

/-- The transformer or the value is well shaped. -/
def Item.WellShaped : Item → Prop
  | transformer t => t.WellShaped
  | value v => v.WellShaped

namespace Transformer

variable {t : Transformer}

theorem separate_contents : t.contents.Separate ↔ t.Separate := by
  rw [Separate, add_contents, remove_contents, Separate]

theorem bare_contents : t.contents.Bare ↔ t.Bare := by
  constructor
  · rintro ⟨hclear, hsequence, hseparate⟩
    rw [clear_contents] at hclear
    rw [sequence_contents] at hsequence
    exact ⟨hclear, Sequence.contentsOf_eq_none hsequence, separate_contents.mp hseparate⟩
  · rintro ⟨hclear, hsequence, hseparate⟩
    refine ⟨by rw [clear_contents, hclear], ?_, separate_contents.mpr hseparate⟩
    rw [sequence_contents, hsequence, Sequence.contentsOf]

theorem Bare.wellShaped (h : t.Bare) : t.WellShaped :=
  ⟨h.separate, fun steps hsteps => by rw [h.sequence] at hsteps; cases hsteps⟩

/-- The edits of a well shaped transformer are bare, also if it clears the field. -/
theorem WellShaped.bare_edits (h : t.WellShaped) : t.edits.Bare := ⟨rfl, rfl, h.separate⟩

end Transformer

namespace Sequence

variable {steps steps' : Sequence} {t : Transformer}

theorem flat_contents : Flat (steps.map contentsOfStep) ↔ Flat steps := by
  constructor
  · rintro ⟨hnonempty, hrefs, hafter⟩
    refine ⟨by simpa using hnonempty, fun step hstep => ?_, fun step hstep t ht => ?_⟩
    · have href := hrefs _ (List.mem_map_of_mem hstep)
      rwa [contentsOfStep_eq] at href
    · have hcontents := hafter _ (List.mem_map_of_mem hstep)
      rw [contentsOfStep_eq] at hcontents
      exact Transformer.bare_contents.mp (hcontents _ (List.mem_map_of_mem ht))
  · rintro ⟨hnonempty, hrefs, hafter⟩
    refine ⟨by simpa using hnonempty, fun step hstep => ?_, fun step hstep t ht => ?_⟩
    · obtain ⟨old, hold, rfl⟩ := List.mem_map.mp hstep
      rw [contentsOfStep_eq]
      exact hrefs old hold
    · obtain ⟨old, hold, rfl⟩ := List.mem_map.mp hstep
      rw [contentsOfStep_eq] at ht
      obtain ⟨u, hu, rfl⟩ := List.mem_map.mp ht
      exact Transformer.bare_contents.mpr (hafter old hold u hu)

/-- **What appending a transformer can do to a step**, if there are steps: it stays, or the
transformer is appended. -/
theorem exists_of_mem_withTransformer {step : Step Transformer} (hsteps : steps ≠ [])
    (h : step ∈ withTransformer steps t) :
    ∃ old ∈ steps, step = old ∨ step = ⟨old.ref, old.after ++ [t]⟩ := by
  induction steps with
  | nil => exact absurd rfl hsteps
  | cons first rest ih =>
    cases rest with
    | nil => exact ⟨first, List.mem_cons_self, .inr (List.mem_singleton.mp h)⟩
    | cons next rest =>
      rw [withTransformer_cons_cons] at h
      rcases List.mem_cons.mp h with rfl | h
      · exact ⟨step, List.mem_cons_self, .inl rfl⟩
      · obtain ⟨old, hold, hstep⟩ := ih (by simp) h
        exact ⟨old, List.mem_cons_of_mem _ hold, hstep⟩

/-- A bare transformer may be appended to a flat sequence; there is a step to hold it. -/
theorem Flat.withTransformer (hsteps : Flat steps) (ht : t.Bare) :
    Flat (withTransformer steps t) := by
  constructor
  · intro hempty
    cases steps with
    | nil => exact hsteps.nonempty rfl
    | cons first rest => cases rest <;> cases hempty
  · intro step hstep
    obtain ⟨old, hold, rfl | rfl⟩ := exists_of_mem_withTransformer hsteps.nonempty hstep
    · exact hsteps.refs step hold
    · exact hsteps.refs old hold
  · intro step hstep u hu
    obtain ⟨old, hold, rfl | rfl⟩ := exists_of_mem_withTransformer hsteps.nonempty hstep
    · exact hsteps.after step hold u hu
    · rcases List.mem_append.mp hu with hu | hu
      · exact hsteps.after old hold u hu
      · rwa [List.mem_singleton.mp hu]

theorem Flat.append (h : Flat steps) (h' : Flat steps') : Flat (steps ++ steps') := by
  refine ⟨by simp [h.nonempty], fun step hstep => ?_, fun step hstep => ?_⟩
  · rcases List.mem_append.mp hstep with hstep | hstep
    · exact h.refs step hstep
    · exact h'.refs step hstep
  · rcases List.mem_append.mp hstep with hstep | hstep
    · exact h.after step hstep
    · exact h'.after step hstep

/-- Sequences that are flat if they are there may be joined. -/
theorem flat_concat {first second : Option Sequence}
    (hfirst : ∀ steps, first = some steps → Flat steps)
    (hsecond : ∀ steps, second = some steps → Flat steps) :
    ∀ steps, concat first second = some steps → Flat steps := by
  intro joined hjoined
  cases second with
  | none => exact hfirst joined hjoined
  | some second =>
    have hflat := hsecond second rfl
    cases second with
    | nil => exact absurd rfl hflat.nonempty
    | cons step rest =>
      cases first with
      | none =>
        obtain rfl := Option.some.inj hjoined
        exact hflat
      | some first =>
        obtain rfl := Option.some.inj hjoined
        exact (hfirst first rfl).append hflat

theorem flat_ofRefs_singleton (ref : Ref) : Flat (ofRefs [ref]) :=
  ⟨by simp [ofRefs], by simp [ofRefs], by simp [ofRefs]⟩

/-- Sequences with the same contents are both flat or both not. -/
theorem flat_of_contentsOf_eq {s s' : Option Sequence} (hcontents : contentsOf s' = contentsOf s)
    (h : ∀ steps, s = some steps → Flat steps) : ∀ steps, s' = some steps → Flat steps := by
  rintro steps rfl
  cases s with
  | none =>
    rw [contentsOf_some] at hcontents
    cases hcontents
  | some old =>
    rw [contentsOf_some, contentsOf_some] at hcontents
    rw [← flat_contents, Option.some.inj hcontents, flat_contents]
    exact h old rfl

end Sequence

namespace Transformer

variable {t u first second : Transformer} {v : Value}

/-- Being well shaped is a matter of contents. -/
theorem WellShaped.of_contents (ht : t.WellShaped) (h : u.contents = t.contents) :
    u.WellShaped := by
  constructor
  · rw [← separate_contents, h, separate_contents]
    exact ht.separate
  · refine Sequence.flat_of_contentsOf_eq ?_ ht.flat
    rw [← sequence_contents, h, sequence_contents]

theorem wellShaped_blank : blank.WellShaped := by
  refine Bare.wellShaped ⟨rfl, rfl, ?_⟩
  simp [Separate, blank, draft]

/-- **Merging well shaped transformers** gives a well shaped one.  Their edits are merged, or those
of the second are appended to the sequence of the first, which has a step to hold them. -/
theorem WellShaped.merge (hfirst : first.WellShaped) (hsecond : second.WellShaped)
    (hclear : second.clear = false) :
    (first.merge second).WellShaped := by
  cases hsequence : first.sequence with
  | none =>
    rw [merge_of_none hsequence]
    refine ⟨?_, Sequence.flat_concat (fun _ h => by cases h) hsecond.flat⟩
    have hmerged :=
      Edit.disjoint_andThen (e := first.edit) (f := second.edit) hfirst.separate hsecond.separate
    rwa [← members_mergeEdits hclear] at hmerged
  | some steps =>
    rw [merge_of_some hsequence]
    refine ⟨hfirst.separate, Sequence.flat_concat (fun extended hextended => ?_) hsecond.flat⟩
    obtain rfl := Option.some.inj hextended
    split
    · exact (hfirst.flat steps hsequence).withTransformer hsecond.bare_edits
    · exact hfirst.flat steps hsequence

/-- **A well shaped transformer makes a well shaped value of one.** -/
theorem WellShaped.on (ht : t.WellShaped) (hv : v.WellShaped) : (t.on v).WellShaped := by
  unfold Transformer.on
  cases hpending : (if t.clear then none else v.sequence) with
  | none => exact Sequence.flat_concat (fun _ h => by cases h) ht.flat
  | some steps =>
    refine Sequence.flat_concat (fun extended hextended => ?_) ht.flat
    obtain rfl := Option.some.inj hextended
    have hsequence : v.sequence = some steps := by
      split at hpending
      · cases hpending
      · exact hpending
    exact (hv steps hsequence).withTransformer ht.bare_edits

end Transformer

/-- Being well shaped is a matter of contents. -/
theorem Value.WellShaped.of_contents {v u : Value} (hv : v.WellShaped)
    (h : u.contents = v.contents) : u.WellShaped :=
  Sequence.flat_of_contentsOf_eq (congrArg Value.sequence h) hv

/-- What a default action makes of an element is well shaped. -/
theorem Factory.wellShaped_of_literalBody? {action : String} {x : Element} {body : Transformer}
    (h : literalBody? action x = some body) : body.WellShaped := by
  have hplain : ∀ add remove clear, (Transformer.draft add remove clear none).Separate →
      (Transformer.draft add remove clear none).WellShaped :=
    fun add remove clear hseparate => ⟨hseparate, fun _ hsteps => by cases hsteps⟩
  rcases literalBody?_eq_some.mp h with ⟨_, rfl⟩ | ⟨_, ⟨_, rfl⟩ | ⟨_, rfl⟩ | ⟨_, rfl⟩⟩ <;>
    exact hplain _ _ _ (by simp [Transformer.Separate, Transformer.draft])

/-- What a default action makes of a reference is well shaped. -/
theorem Factory.wellShaped_of_refBody? {action : String} {ref : Ref} {body : Transformer}
    (h : refBody? action ref = some body) : body.WellShaped := by
  obtain ⟨_, rfl⟩ := refBody?_eq_some.mp h
  refine ⟨by simp [Transformer.Separate, Transformer.draft], fun steps hsteps => ?_⟩
  obtain rfl := Option.some.inj hsteps
  exact Sequence.flat_ofRefs_singleton ref

/-- **What the default factories make is well shaped.** -/
theorem Factory.Runs.wellShaped {f : Factory} {action : String} {code : Craft Transformer}
    (h : f.Runs action code) (hf : defaults.lookup action = some f) {t : Transformer}
    (ht : code.answer = .ok t) : t.WellShaped := by
  cases h with
  | literal x =>
    have hbody : literalBody? action x = some t := by simp [literalBody?, hf, ht, Except.toOption]
    exact wellShaped_of_literalBody? hbody
  | reference ref =>
    have hbody : refBody? action ref = some t := by simp [refBody?, hf, ht, Except.toOption]
    exact wellShaped_of_refBody? hbody

/-! ## The rules of flatness -/

namespace Manager

variable {m m' : Manager}

/-- The identity is blank, and the registered factories are the default ones. -/
structure Ordinary (m : Manager) : Prop where
  blank : m.identity.contents = .blank
  factories : ∀ action, m.factory? action = Factory.defaults.lookup action

/-- A manager that is like an ordinary one is ordinary. -/
theorem Ordinary.akin (hm : m.Ordinary) (h : m.Akin m') : m'.Ordinary := by
  refine ⟨by rw [h.identity, hm.blank], fun action => ?_⟩
  rw [factory?, h.factories]
  exact hm.factories action

/-- The identity of an ordinary manager is well shaped. -/
theorem Ordinary.wellShaped_identity (hm : m.Ordinary) : m.identity.WellShaped :=
  Transformer.wellShaped_blank.of_contents
    (hm.blank.trans (Transformer.contents_draft none none false none).symm)

end Manager

/-- **Being well shaped is a matter of contents**, and composing and applying keep it. -/
theorem Item.shape_wellShaped : Shape WellShaped where
  contents := by
    rintro (t | v) (u | u) hi h
    · exact Transformer.WellShaped.of_contents hi (Item.transformer.inj h)
    · cases h
    · cases h
    · exact Value.WellShaped.of_contents hi (Item.value.inj h)
  merge := .merge
  on := Transformer.WellShaped.on
  edits h := h.bare_edits.wellShaped
  plain _ _ hsteps := by cases hsteps
  replayed hv hsteps step hstep t ht := ((hv _ hsteps).after step hstep t ht).wellShaped

/-- What is handed out is expected to be well shaped.  Nothing that was made elsewhere is interned,
and no factory is registered; the pool may change in any way. -/
def flatness : Rules where
  state w := w.manager.Ordinary
  next w w' := w.manager.Akin w'.manager
  canonical _ _ := True
  shaped := Item.WellShaped
  admits _ _ := False
  moves w w' := w.manager.Akin w'.manager
  defers _ := False

/-- **The rules of flatness are lawful.** -/
theorem lawful_flatness : flatness.Lawful where
  regime := {
    refl := fun w => .refl w.manager
    trans := .trans
    state := fun hw h => hw.akin h
    canonical := fun _ _ => trivial
    shape := Item.shape_wellShaped
    logged := fun w _ => .refl w.manager
    identity := fun hw => ⟨trivial, hw.wellShaped_identity⟩
    intern := fun _ _ h => ⟨Manager.intern_akin h, trivial⟩
    internValue := fun _ _ h => ⟨Manager.internValue_akin h, trivial⟩
    craft := by
      intro w action f code outcome m hw hf hcode h
      rw [hw.factories] at hf
      -- Only the default factories are bound, and their code keeps nothing in the manager.
      obtain ⟨hsteady, _⟩ := hcode.of_defaults (mem_of_lookup hf)
      obtain ⟨rfl, rfl⟩ := (Manager.craft_of_steady hsteady w.manager).unique h
      exact ⟨.refl _, fun t ht => ⟨.inr (.inl trivial), hcode.wellShaped hf ht⟩⟩ }
  admits h := h.elim
  moves _ h := h
  defers h := h.elim

namespace Client

variable {c d : Client} {w : Workspace} {p : Pool}

/-- A chain of operations of a client that registers no factories and hands to operations what it
got.  In between, the pool may grow, and it may be emptied. -/
def Derives : Client → Client → Prop := Leads flatness

/-- A new client has nothing yet, and its manager is ordinary. -/
theorem upholds_equipped (p : Pool) (w : Workspace) : (equipped p w).Upholds flatness := by
  have hmanager := manager_bindActions Factory.defaults { w with manager := .create p }
  have hfactories : (equipped p w).manager.factories = [("compose", .composing),
      ("replace", .replacing), ("clear", .clearing), ("remove", .removing), ("add", .adding)] := by
    rw [manager, equipped, hmanager]
    rfl
  refine ⟨⟨?_, fun action => ?_⟩, fun i hi => absurd hi List.not_mem_nil⟩
  · rw [equipped, hmanager]
    exact (Manager.create_canonical p).2.2
  · rw [Manager.factory?, hfactories, Factory.defaults]
    simp only [lookup_cons_ite, List.lookup_nil]
    grind

/-- Finalizing provides nothing, whatever it leaves. -/
theorem ends_finalize (r : Resolver) (v : Propagation) (w : Workspace) :
    Ends flatness ⟨((r.finalize v).run.run w).2, c.got⟩ .none
      ((Errand.finalize v).perform r) w := by
  have hperform : (((Errand.finalize v).perform r).run.run w).2 = ((r.finalize v).run.run w).2 ∧
      ∀ {l}, (((Errand.finalize v).perform r).run.run w).1 = .ok l → l = [] := by
    cases hrun : (r.finalize v).run.run w with
    | mk outcome w' =>
      cases outcome with
      | ok final =>
        have hreturns : ((Errand.finalize v).perform r).Returns w [] w' :=
          Work.returns_bind.mpr ⟨final, w', hrun, rfl⟩
        rw [show _ = _ from hreturns]
        exact ⟨rfl, fun hl => (Except.ok.inj hl).symm⟩
      | error fault =>
        obtain ⟨fault', hstops⟩ : ((Errand.finalize v).perform r).Stops w w' :=
          Work.stops_bind.mpr (.inl ⟨fault, hrun⟩)
        rw [hstops]
        exact ⟨rfl, fun hl => by cases hl⟩
  refine ⟨hperform.1, fun i hi => absurd hi List.not_mem_nil, fun hl t ht => ?_⟩
  rw [hperform.2 hl] at ht
  exact absurd ht List.not_mem_nil

/-- A transformer for an unknown value is provided as an operation of the manager returns it. -/
theorem ends_unknown {r : Resolver} (hprovider : r.provider = some Work.topTransformer)
    (type : String) (w : Workspace) :
    ((c.resume .none w).after .none (Request.unknown type).perform).Ends flatness .none
      ((Errand.provide type).perform r) w := by
  rw [Errand.perform, hprovider]
  cases hrun : (Work.topTransformer type).run.run w with
  | mk outcome w' =>
    cases outcome with
    | ok t =>
      exact ends_after (Work.returns_bind.mpr ⟨t, w', hrun, rfl⟩)
        (Work.returns_bind.mpr ⟨t, w', hrun, rfl⟩) fun u hu => .inl (by simpa using hu)
    | error fault =>
      obtain ⟨_, hstops⟩ : (do return [← Work.topTransformer type] : Work (List Transformer)).Stops
          w w' := Work.stops_bind.mpr (.inl ⟨fault, hrun⟩)
      have hfails : (Request.unknown type).perform.Stops (c.resume .none w).workspace w' :=
        Work.stops_bind.mpr (.inl ⟨fault, hrun⟩)
      rw [after_of_stops hfails]
      refine ⟨congrArg Prod.snd hstops, fun i hi => absurd hi List.not_mem_nil, fun hl => ?_⟩
      rw [hstops] at hl
      cases hl

/-- The client when an errand that was begun in `w` is done. -/
def done (c : Client) (r : Resolver) (w : Workspace) : Errand → Client
  | .finalize v => ⟨((r.finalize v).run.run w).2, c.got⟩
  | .provide type => (c.resume .none w).after .none (Request.unknown type).perform

/-- **A client may ask any resolver** that finalizes without touching factories and leaves unknown
values to the analyses, if it has a provider for them.  Nothing is asked of the values that the
solver knows. -/
theorem derives_inquire {r : Resolver}
    (hfinalize : ∀ v (w : Workspace), w.manager.Akin ((r.finalize v).run.run w).2.manager)
    (hprovider : ∀ provide, r.provider = some provide → provide = Work.topTransformer)
    {q : Inquiry} (hq : ∀ i ∈ q.operands, i ∈ c.got) : c.Derives (c.after .none (q.perform r)) := by
  refine .inquire .refl q hq r .none (c.done r) (fun i hi => absurd hi List.not_mem_nil) ?_ ?_
  -- Finalizing is a move, since it leaves the factories alone; providing is a request.
  · rintro w (v | type) _ _
    · exact .move .refl _ (hfinalize v w)
    · exact .request .refl (.unknown type) ⟨by simp [Request.operands], by simp, by simp⟩
  · rintro w (v | type) _ hdue
    · exact ends_finalize r v w
    · obtain ⟨provide, hsome⟩ := Option.ne_none_iff_exists'.mp hdue
      rw [hprovider provide hsome] at hsome
      exact ends_unknown hsome type w

/-- **Edits are separate and sequences are flat.**  Take a new manager with the default factories,
and a client that gets transformers and values from it and from resolvers, that applies and composes
what it got, and that does so in any order and any number of times.  No transformer that it gets
adds what it removes.  A sequence of a transformer or a value that it gets has a step, each step has
a reference, and what is replayed after the reference neither clears the field nor has a sequence,
nor does it add what it removes.  The client may ask the resolver of every solver. -/
theorem separate_and_flat (h : (equipped p w).Derives d) :
    (∀ t, .transformer t ∈ d.got →
      Disjoint (OptionalSet.members t.add) (OptionalSet.members t.remove) ∧
      ∀ steps, t.sequence = some steps → Sequence.Flat steps) ∧
    (∀ v, .value v ∈ d.got → ∀ steps, v.sequence = some steps → Sequence.Flat steps) ∧
    ∀ (s : Solver) (q : Inquiry), (∀ i ∈ q.operands, i ∈ d.got) →
      (equipped p w).Derives (d.after .none (q.perform (s.resolver s.finalize))) := by
  obtain ⟨hd, _⟩ := upholds_of_leads lawful_flatness h (upholds_equipped p w)
  refine ⟨fun t ht => ?_, fun v hv => (hd.got _ hv).2, fun s q hq => h.trans ?_⟩
  · have hshaped : t.WellShaped := (hd.got _ ht).2
    exact ⟨hshaped.separate, hshaped.flat⟩
  · refine derives_inquire (fun v w => ?_) (fun provide hprovide => ?_) hq
    · exact ((Solver.framed_finalize s v).bind (fun _ => Work.framed_pure _)).sameFrame w |>.manager
    · exact (Option.some.inj hprovide).symm

/-- A client applies two transformers to an absent value, one after the other. -/
theorem exists_derives_apply {t u : Transformer} (ht : .transformer t ∈ c.got)
    (hu : .transformer u ∈ c.got) :
    ∃ d v, c.Derives d ∧ (∀ i ∈ c.got, i ∈ d.got) ∧ .value v ∈ d.got ∧
      v.contents = u.contents.on (t.contents.on (.draft none none)) := by
  obtain ⟨v₀, m₀, h₀⟩ := Yields.exists_run (Manager.newValue none none) c.manager
  obtain ⟨v₁, m₁, h₁⟩ := Yields.exists_run (Manager.apply t v₀) m₀
  obtain ⟨v₂, m₂, h₂⟩ := Yields.exists_run (Manager.apply u v₁) m₁
  obtain ⟨_, _, hcontents₀⟩ := Manager.internValue_evolves rfl h₀
  obtain ⟨_, _, hcontents₁⟩ := Manager.apply_evolves h₁
  obtain ⟨_, _, hcontents₂⟩ := Manager.apply_evolves h₂
  have hreturns : ∀ {w' : Workspace} {action : Managed Value} {v : Value} {m : Manager},
      Yields action w'.manager v m →
      Work.Returns (do return [Item.value (← Work.managed action)]) w' [.value v]
        { w' with manager := m } :=
    fun h => (Work.returns_managed_bind h).mpr (Work.returns_pure.mpr ⟨rfl, rfl⟩)
  have habsent : c.Derives ⟨{ c.workspace with manager := m₀ }, .value v₀ :: c.got⟩ :=
    Leads.request_returns .refl (q := .value none none)
      ⟨by simp [Request.operands], by simp, by simp⟩ (hreturns h₀)
  have hfirst : c.Derives ⟨{ c.workspace with manager := m₁ }, .value v₁ :: .value v₀ :: c.got⟩ :=
    Leads.request_returns habsent (q := .apply t v₀)
      ⟨by simp [Request.operands, ht], by simp, by simp⟩ (hreturns h₁)
  have hsecond : c.Derives
      ⟨{ c.workspace with manager := m₂ }, .value v₂ :: .value v₁ :: .value v₀ :: c.got⟩ :=
    Leads.request_returns hfirst (q := .apply u v₁)
      ⟨by simp [Request.operands, hu], by simp, by simp⟩ (hreturns h₂)
  refine ⟨_, v₂, hsecond, by simp +contextual, by simp, ?_⟩
  rw [hcontents₂, Transformer.contents_on, hcontents₁, Transformer.contents_on, hcontents₀]
  rfl

/-- A reference, which stays unresolved. -/
def distant : Ref := ⟨.string "p", .string "q", "add", "string", ""⟩

/-- A resolved transformer is applied to a value that waits for a reference, and it ends up behind
that. -/
theorem separate_and_flat_waiting : ∃ (d : Client) (t : Transformer) (v : Value),
    (equipped (.empty hash) .create).Derives d ∧
    .transformer t ∈ d.got ∧ t.contents = .draft (some Resolver.twoTexts) none false none ∧
    .value v ∈ d.got ∧
    v.contents = .draft none
      (some [⟨some distant, [.draft (some Resolver.twoTexts) none false none]⟩]) ∧
    (∀ t, .transformer t ∈ d.got →
      Disjoint (OptionalSet.members t.add) (OptionalSet.members t.remove) ∧
      ∀ steps, t.sequence = some steps → Sequence.Flat steps) ∧
    (∀ v, .value v ∈ d.got → ∀ steps, v.sequence = some steps → Sequence.Flat steps) ∧
    ∀ (s : Solver) (q : Inquiry), (∀ i ∈ q.operands, i ∈ d.got) →
      (equipped (.empty hash) .create).Derives
        (d.after .none (q.perform (s.resolver s.finalize))) := by
  have haction : "add" ∈ ["add", "remove", "replace"] := by simp
  have hstart : (equipped (.empty hash) .create).Derives ⟨.standard true, []⟩ :=
    .move .refl (.standard true) ⟨rfl, rfl⟩
  obtain ⟨t, w, hfound, hw, ht⟩ := Resolver.exists_alternative_paired haction
  have hresolved : Derives ⟨.standard true, []⟩ ⟨w, [.transformer t]⟩ := by
    have hreturns : ((Inquiry.alternatives (.string "q") (.string "s") "f" "string" "add").perform
        (Resolver.telling Resolver.paired)).Returns (.standard true) [.transformer t] w :=
      Work.returns_bind.mpr ⟨_, w, Work.returns_lift.mpr hfound, Work.returns_pure.mpr ⟨rfl, rfl⟩⟩
    have hderives := derives_inquire (c := ⟨.standard true, []⟩)
      (r := Resolver.telling Resolver.paired) (fun _ _ => .refl _)
      (fun _ hprovide => (Option.some.inj hprovide).symm)
      (q := .alternatives (.string "q") (.string "s") "f" "string" "add")
        (by simp [Inquiry.operands])
    rwa [after_of_returns hreturns] at hderives
  have hbody : Factory.refBody? "compose" distant =
      some (.draft none none false (some (Sequence.ofRefs [distant]))) :=
    Factory.refBody?_eq_some.mpr ⟨rfl, rfl⟩
  have hfollows := Work.follows_makeRef hw "compose" distant
  rw [hbody] at hfollows
  obtain ⟨u, w', hmade⟩ := hfollows.exists_returns (Option.some_ne_none _)
  obtain ⟨_, body, hsame, _, hu⟩ := hfollows.returns hmade
  obtain rfl := Option.some.inj hsame
  have hreference : (equipped (.empty hash) .create).Derives
      ⟨w', [.transformer u, .transformer t]⟩ :=
    (hstart.trans hresolved).request_returns (q := .reference "compose" distant)
      ⟨by simp [Request.operands], by simp, by simp⟩
      (Work.returns_bind.mpr ⟨u, w', hmade, Work.returns_pure.mpr ⟨rfl, rfl⟩⟩)
  obtain ⟨d, v, hderives, hgot, hv, hcontents⟩ := exists_derives_apply
    (c := ⟨w', [.transformer u, .transformer t]⟩) (t := u) (u := t) (by simp) (by simp)
  have hd := hreference.trans hderives
  rw [hu, ht] at hcontents
  exact ⟨d, t, v, hd, hgot _ (by simp), ht, hv, hcontents, separate_and_flat hd⟩

end Client

end FieldFlow
