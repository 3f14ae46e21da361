import FieldFlow.Proofs.Agreement
import FieldFlow.Proofs.Stepwise

/-!
# Final forms of joined values

The final form of a value depends on no more than what its paths hold and what the resolver answers.
A join holds the paths of both values, so its final form is the join of theirs, and it can be found
exactly if both can.  Where sequences do not nest, nothing in a final form waits any longer, and it
is its own final form.

Main definitions: `AllDirect`, `PathValue.Flat`.
Main results: `Resolver.fails_final`, `Resolver.returns_final_join`, `Resolver.final_settled`,
`Resolver.final_join_homomorphism`.
-/

namespace FieldFlow

/-! ## Joins -/

namespace Propagation

variable {a b : Propagation} {n : Nat}

@[simp]
theorem isTop_join (n : Nat) (a b : Propagation) : (a.join n b).isTop = (a.isTop || b.isTop) := by
  cases a <;> cases b <;> rfl

/-- Every path of a join is one of the two values. -/
theorem mem_of_mem_join {p : PathValue} (h : p ∈ (a.join n b).toList) :
    p ∈ a.toList ∨ p ∈ b.toList := by
  cases a with
  | top => cases b <;> cases h
  | paths =>
    cases b with
    | top => cases h
    | paths => exact (Keyed.mem_of_mem_union h).symm

/-- **The paths of a join** hold what those of the two values hold. -/
theorem exists_mem_join (ha : a.isTop = false) (hb : b.isTop = false) (P : View → Prop) :
    (∃ p ∈ (a.join n b).toList, P p.view) ↔ (∃ p ∈ a.toList, P p.view) ∨
      ∃ p ∈ b.toList, P p.view := by
  -- Of two paths with the same key the join keeps one; they hold the same.
  have hview : ∀ p q : PathValue, p.key = q.key → (P p.view ↔ P q.view) :=
    fun p q hkey => by rw [PathValue.view_eq_of_key hkey]
  cases a with
  | top => cases ha
  | paths =>
    cases b with
    | top => cases hb
    | paths => exact (Keyed.exists_mem_union hview).trans or_comm

/-- A join waits for what one of the values waits for. -/
theorem mem_awaited_join (ha : a.isTop = false) (hb : b.isTop = false) {q : String × Ref} :
    q ∈ (a.join n b).awaited ↔ q ∈ a.awaited ∨ q ∈ b.awaited := by
  obtain ⟨name, ref⟩ := q
  simp only [awaited, List.mem_flatMap, PathValue.mem_awaited]
  exact exists_mem_join ha hb fun view =>
    ∃ v, view name = some (some v) ∧ ∃ step ∈ v.sequence.getD [], step.ref = some ref

end Propagation

/-! ## Choices without sequences -/

/-- No choice has a sequence. -/
def AllDirect (current : Set (Option Instance)) : Prop :=
  ∀ c, some c ∈ current → c.body.sequence = none

/-- Composing instances without sequences makes none. -/
theorem Instance.sequence_comp {c d : Instance} (hc : c.body.sequence = none)
    (hd : d.body.sequence = none) :
    (c.comp d).body.sequence = none := by
  have hmerge : (c.body.merge d.body).sequence = none := by
    rw [Transformer.merge_of_none hc, hd]
    rfl
  unfold comp
  split_ifs
  · exact hd
  · exact hd
  · exact hc
  · exact hmerge

/-- Composing an instance without a sequence with transformers without one makes none. -/
theorem Instance.sequence_compAll {c : Instance} {after : List Transformer}
    (hc : c.body.sequence = none) (hafter : ∀ u ∈ after, u.sequence = none) :
    (c.compAll after).body.sequence = none := by
  induction after generalizing c with
  | nil => exact hc
  | cons u rest ih =>
    have hu : (canonical u).body.sequence = none := hafter u List.mem_cons_self
    exact ih (sequence_comp hc hu) fun u hu => hafter u (List.mem_cons_of_mem _ hu)

section Replays

variable {answers : Ref → Set (Option Instance)} {current : Set (Option Instance)}

theorem allDirect_blank : AllDirect {some (.canonical .blank)} := by
  rintro c hc
  rw [Option.some.inj hc]
  rfl

theorem allDirect_step {step : Step Transformer} (hanswers : ∀ ref, AllDirect (answers ref))
    (hcurrent : AllDirect current) (hafter : ∀ u ∈ step.after, u.sequence = none) :
    AllDirect {x | ∃ c ∈ current, ∃ d ∈ choices answers step, x = layered step.after c d} := by
  have hchoices : AllDirect (choices answers step) := by
    unfold choices
    split
    · exact allDirect_blank
    · exact hanswers _
  rintro x ⟨c, hc, d, hd, heq⟩
  cases c with
  | none => cases heq
  | some c =>
    cases d with
    | none => cases heq
    | some d =>
      rw [Option.some.inj heq]
      exact Instance.sequence_compAll
        (Instance.sequence_comp (hcurrent c hc) (hchoices d hd)) hafter

/-- **Replaying makes no sequences**, if neither the answers nor the transformers behind the
references have any. -/
theorem allDirect_replays {steps : Sequence} (hanswers : ∀ ref, AllDirect (answers ref))
    (hcurrent : AllDirect current)
    (htrailing : ∀ u ∈ Sequence.trailing (some steps), u.sequence = none) :
    AllDirect (replays answers steps current) := by
  induction steps generalizing current with
  | nil => exact hcurrent
  | cons step rest ih =>
    obtain ⟨hafter, hrest⟩ := Sequence.forall_trailing_cons.mp htrailing
    exact ih (allDirect_step hanswers hcurrent hafter) hrest

end Replays

/-- What replays in a value without serial numbers has the contents of what replays in the value. -/
theorem Value.exists_of_mem_trailing {v : Value} {u : Transformer}
    (hu : u ∈ Sequence.trailing (some (v.contents.sequence.getD []))) :
    ∃ t ∈ Sequence.trailing v.sequence, t.contents = u := by
  have hsequence : v.contents.sequence = Sequence.contentsOf v.sequence := rfl
  rw [hsequence] at hu
  cases hv : v.sequence with
  | none => simp [hv, Sequence.contentsOf, Sequence.trailing] at hu
  | some steps =>
    rw [hv, Sequence.contentsOf_some] at hu
    simpa [Sequence.trailing, Sequence.contentsOfStep_eq, List.flatMap_map,
      ← List.map_flatMap] using hu

/-- The transformers that the path replays have no sequences: sequences do not nest. -/
def PathValue.Flat (p : PathValue) : Prop :=
  ∀ name v, p.entry? name = some (some v) → ∀ u ∈ Sequence.trailing v.sequence, u.sequence = none

/-- **What a path unfolds to waits for nothing.** -/
theorem PathValue.settled_of_unfolds {answers : String → Ref → Set (Option Instance)}
    {p q : PathValue} (hanswers : ∀ name ref, AllDirect (answers name ref)) (hp : p.Flat)
    (h : Unfolds answers p.view q.view) :
    q.isIntermediate = false := by
  refine isIntermediate_eq_false fun name u hu => ?_
  -- A field without a value stays so; any other holds what some replay makes of its partial
  -- content.
  have hunfolded := h name
  rw [hu] at hunfolded
  cases hentry : p.entry? name with
  | none =>
    rw [view, hentry] at hunfolded
    cases hunfolded
  | some entry =>
    cases entry with
    | none =>
      rw [view, hentry] at hunfolded
      cases hunfolded
    | some v =>
      rw [view, hentry] at hunfolded
      obtain ⟨_, ⟨c, hc, rfl⟩, heq⟩ := hunfolded
      obtain ⟨i, rfl, hi⟩ : ∃ i, c = some i ∧ i.body.on (.draft v.contents.set none) = u := by
        simpa [Option.map_eq_some_iff] using heq
      have htrailing : ∀ t ∈ Sequence.trailing (some (v.contents.sequence.getD [])),
          t.sequence = none := by
        intro t ht
        obtain ⟨t', ht', rfl⟩ := Value.exists_of_mem_trailing ht
        rw [Transformer.sequence_contents, hp name v hentry t' ht', Sequence.contentsOf]
      rw [← hi, (Transformer.on_of_none (.inr rfl)).1,
        allDirect_replays (hanswers name) allDirect_blank htrailing i hc]
      rfl

/-! ## Final forms -/

namespace Resolver

variable {r : Resolver} {w w₁ w₂ w₃ : Workspace} {a b v : Propagation}
  {answer : Element → Element → String → String → String → Option (Set (Option Instance))}

theorem Fixed.allDirect (hr : r.Fixed w answer) (holder : String) (ref : Ref) :
    AllDirect ((answersIn answer holder ref).getD ∅) := by
  refine hr.forall_answers (fun m t _ hsequence _ => ?_) holder ref
  show t.contents.sequence = none
  rw [Transformer.sequence_contents, hsequence, Sequence.contentsOf]

/-- **The final form cannot be found** exactly if the value waits for a reference that has no
answer. -/
theorem fails_final (hr : r.Fixed w answer) (hw : w.manager.Sound) (hv : ∀ p ∈ v.toList, p.Held w)
    (h : r.Reaches w w₁) :
    (r.final v).Fails w₁ ↔ ∃ q ∈ v.awaited, answersIn answer q.1 q.2 = none := by
  have hasks := asks_final (hr.serves hw) h fun p hp => (hv p hp).grow (hr.sound hw h)
  constructor
  · intro hfails
    obtain ⟨_, hstops⟩ := hfails.exists_stops
    obtain ⟨q, hq, _, found, fault, hreaches, hfound, herror⟩ := hasks.stops hstops
    exact ⟨q, hq, (hr.fails_iff hreaches hfound).mp ⟨fault, herror⟩⟩
  · rintro ⟨q, hq, hnone⟩
    refine (Work.returns_or_fails (r.final v) w₁).resolve_left ?_
    rintro ⟨v', w', hreturns⟩
    -- What was found once has an answer, since answers are fixed.
    obtain ⟨_, _, found, l, hreaches, hfound, hl⟩ := hasks.returns hreturns q hq
    obtain ⟨fault, herror⟩ := (hr.fails_iff hreaches hfound).mpr hnone
    cases hl.symm.trans herror

/-- What a join replays is canonical if what the two values replay is. -/
theorem held_join (n : Nat) (ha : ∀ p ∈ a.toList, p.Held w) (hb : ∀ p ∈ b.toList, p.Held w) :
    ∀ p ∈ (a.join n b).toList, p.Held w :=
  fun p hp => (Propagation.mem_of_mem_join hp).elim (ha p) (hb p)

/-- **The final form of a join cannot be found** exactly if that of one of the values cannot. -/
theorem fails_final_join (hr : r.Fixed w answer) (hw : w.manager.Sound)
    (ha : ∀ p ∈ a.toList, p.Held w) (hb : ∀ p ∈ b.toList, p.Held w) (hatop : a.isTop = false)
    (hbtop : b.isTop = false) (n : Nat) (h₁ : r.Reaches w w₁) (h₂ : r.Reaches w w₂)
    (h₃ : r.Reaches w w₃) :
    (r.final (a.join n b)).Fails w₃ ↔ (r.final a).Fails w₁ ∨ (r.final b).Fails w₂ := by
  rw [fails_final hr hw ha h₁, fails_final hr hw hb h₂, fails_final hr hw (held_join n ha hb) h₃]
  simp only [Propagation.mem_awaited_join hatop hbtop, or_and_right, exists_or]

theorem returns_final_top {v' : Propagation} :
    (r.final .top).Returns w₁ v' w₂ ↔ .top = v' ∧ w₁ = w₂ :=
  Work.returns_pure

/-- **The final form of a join is the join of the final forms.** -/
theorem returns_final_join (hr : r.Fixed w answer) (hw : w.manager.Sound)
    (ha : ∀ p ∈ a.toList, p.Held w) (hb : ∀ p ∈ b.toList, p.Held w) (n : Nat) (h₁ : r.Reaches w w₁)
    (h₂ : r.Reaches w w₂) (h₃ : r.Reaches w w₃) {fa fb : Propagation} {w₁' w₂' : Workspace}
    (hfa : (r.final a).Returns w₁ fa w₁') (hfb : (r.final b).Returns w₂ fb w₂') :
    ∃ fj w₃', (r.final (a.join n b)).Returns w₃ fj w₃' ∧ ∀ k, fj.equal (fa.join k fb) = true := by
  -- Top is its own final form, and a join with it is top; otherwise the paths decide.
  cases hatop : a.isTop with
  | true =>
    cases a with
    | paths => cases hatop
    | top =>
      obtain ⟨rfl, rfl⟩ := returns_final_top.mp hfa
      exact ⟨.top, w₃, returns_final_top.mpr ⟨rfl, rfl⟩, fun _ => rfl⟩
  | false =>
    cases hbtop : b.isTop with
    | true =>
      cases b with
      | paths => cases hbtop
      | top =>
        obtain ⟨rfl, rfl⟩ := returns_final_top.mp hfb
        refine ⟨.top, w₃, ?_, fun _ => ?_⟩
        · cases a <;> exact returns_final_top.mpr ⟨rfl, rfl⟩
        · cases fa <;> rfl
    | false =>
      have hjoin := held_join n ha hb
      have hjointop : (a.join n b).isTop = false := by simp [hatop, hbtop]
      -- What each of the three final forms holds.
      obtain ⟨_, _, hfatop, _, hfaviews⟩ := final_spec (hr.serves hw) h₁ hatop
        (fun p hp => (ha p hp).grow (hr.sound hw h₁)) hfa
      obtain ⟨_, _, hfbtop, _, hfbviews⟩ := final_spec (hr.serves hw) h₂ hbtop
        (fun p hp => (hb p hp).grow (hr.sound hw h₂)) hfb
      have hsucceeds : ¬(r.final (a.join n b)).Fails w₃ := by
        rw [fails_final_join hr hw ha hb hatop hbtop n h₁ h₂ h₃]
        exact fun hfails => hfails.elim hfa.not_fails hfb.not_fails
      obtain ⟨fj, w₃', hfj⟩ := (Work.returns_or_fails _ w₃).resolve_right hsucceeds
      obtain ⟨_, _, hfjtop, _, hfjviews⟩ := final_spec (hr.serves hw) h₃ hjointop
        (fun p hp => (hjoin p hp).grow (hr.sound hw h₃)) hfj
      refine ⟨fj, w₃', hfj,
        fun k => Propagation.equal_iff_sameKeys.mpr
        (Propagation.sameKeys_of_views ?_ fun view => ?_)⟩
      · simp [hfjtop, hfatop, hfbtop]
      · rw [hfjviews, Propagation.exists_mem_join hatop hbtop (Unfolds _ · view),
          ← hfaviews, ← hfbviews, Propagation.exists_mem_join hfatop hfbtop (· = view)]

/-- A value that waits for nothing is its own final form. -/
theorem returns_final_self (h : v.isIntermediate = false) (w : Workspace) :
    (r.final v).Returns w v w := by
  unfold final
  rw [if_neg (by simp [h])]
  exact Work.returns_pure.mpr ⟨rfl, rfl⟩

/-- **Final forms wait for nothing.** -/
theorem final_settled (hr : r.Fixed w answer) (hw : w.manager.Sound) (hv : ∀ p ∈ v.toList, p.Held w)
    (hflat : ∀ p ∈ v.toList, p.Flat) (h : r.Reaches w w₁) {v' : Propagation}
    (hv' : (r.final v).Returns w₁ v' w₂) : v'.isIntermediate = false := by
  cases htop : v.isTop with
  | true =>
    cases v with
    | paths => cases htop
    | top =>
      obtain ⟨rfl, _⟩ := returns_final_top.mp hv'
      rfl
  | false =>
    obtain ⟨_, _, _, _, hviews⟩ :=
      final_spec (hr.serves hw) h htop (fun p hp => (hv p hp).grow (hr.sound hw h)) hv'
    have hsettled : ∀ q ∈ v'.toList, q.isIntermediate = false := by
      intro q hq
      obtain ⟨p, hp, hunfolds⟩ := (hviews q.view).mp ⟨q, hq, rfl⟩
      exact PathValue.settled_of_unfolds hr.allDirect (hflat p hp) hunfolds
    simpa [Propagation.isIntermediate] using hsettled

/-- **Finding final forms is an idempotent homomorphism of joins.**  Let the alternatives of the
resolver be fixed, and the values be made in the manager at hand.  If the final forms of two values
can be found, so can that of their join, and it equals the join of the two.  If neither value is top
and one final form cannot be found, that of the join cannot either.  Where sequences do not nest, a
final form waits for nothing and is its own final form.  Each final form may be looked for in any
workspace that the resolver reaches, in any order. -/
theorem final_join_homomorphism (hr : r.Fixed w answer) (hw : w.manager.Sound)
    (ha : ∀ p ∈ a.toList, p.Held w) (hb : ∀ p ∈ b.toList, p.Held w) (n : Nat) (h₁ : r.Reaches w w₁)
    (h₂ : r.Reaches w w₂) (h₃ : r.Reaches w w₃) :
    (∀ fa w₁' fb w₂', (r.final a).Returns w₁ fa w₁' → (r.final b).Returns w₂ fb w₂' →
      ∃ fj w₃', (r.final (a.join n b)).Returns w₃ fj w₃' ∧ ∀ k, fj.equal (fa.join k fb) = true) ∧
    (a.isTop = false → b.isTop = false → (r.final a).Fails w₁ ∨ (r.final b).Fails w₂ →
      (r.final (a.join n b)).Fails w₃) ∧
    ((∀ p ∈ a.toList, p.Flat) → ∀ fa w₁', (r.final a).Returns w₁ fa w₁' →
      (∀ p ∈ fa.toList, p.isIntermediate = false) ∧ ∀ w₄, (r.final fa).Returns w₄ fa w₄) := by
  refine ⟨fun fa w₁' fb w₂' => returns_final_join hr hw ha hb n h₁ h₂ h₃, ?_, ?_⟩
  · intro hatop hbtop
    exact (fails_final_join hr hw ha hb hatop hbtop n h₁ h₂ h₃).mpr
  · intro hflat fa w₁' hfa
    have hsettled := final_settled hr hw ha hflat h₁ hfa
    exact ⟨by simpa [Propagation.isIntermediate] using hsettled, returns_final_self hsettled⟩

/-! ## A resolver that knows one value only -/

/-- The resolver that knows the value of one symbol, the forked one, and has nothing that could
stand for the others. -/
def demanding (symbol : Element) : Resolver where
  resultAt _ other := if other = symbol then some forked else none
  finalize v := pure (some v)
  provider := none

/-- A resolver that knows one value only has fixed alternatives. -/
theorem fixed_demanding (hw : w.manager.Sound) (known : Element) :
    (demanding known).Fixed w fun _ symbol field _ _ => if symbol = known then
      some {o | ∃ v ∈ forked.valuesFor field, v.map (fun _ => Instance.canonical .blank) = o}
        else none := by
  refine fixed_of_quiet (fun m symbol field type => if symbol = known then
    .ok (sortTransformers ((forked.valuesFor field).map (Option.map fun _ => m.identity)))
    else .error (.noTop type)) hw ?_ ?_ ?_
  · intro w₁ w₂ found point symbol field type op _ h
    by_cases hknown : symbol = known
    · rw [if_pos hknown]
      exact (alternatives_forked (if_pos hknown) rfl h).symm
    · have hresult : (demanding known).resultAt point symbol = none := if_neg hknown
      rw [if_neg hknown]
      unfold alternatives at h
      rw [reach, hresult] at h
      obtain ⟨rfl, rfl⟩ := Prod.mk.inj h
      exact ⟨rfl, rfl⟩
  · intro m symbol field type hgrows
    split
    · have hblank : (m.instanceOf ∘ fun _ : Value => m.identity) = fun _ => .canonical .blank :=
        funext fun _ => hgrows.sound.instanceOf_identity
      refine congrArg some (Set.ext fun o => ?_)
      rw [Manager.view_sortTransformers]
      simp [Manager.view, hblank]
    · rfl
  · intro m l symbol field type hgrows hl t ht
    split at hl
    · obtain rfl := Except.ok.inj hl
      obtain ⟨v, _, hv⟩ := List.mem_map.mp (Ordered.mem_of_mem_distinctBy ht)
      obtain ⟨_, _, rfl⟩ := Option.map_eq_some_iff.mp hv
      exact ⟨(Transformer.fields_of_contents hgrows.sound.blank).2.2.2, fun _ => rfl⟩
    · cases hl

/-- A path whose one field waits for the value of a symbol, with an edit behind it. -/
def awaiting (field symbol : String) (b : Transformer) : PathValue :=
  PathValue.empty.set field
    (some (.draft none (some [⟨some ⟨.string symbol, .string "q", "add", "string", ""⟩, [b]⟩])))

theorem eq_of_mem_trailing_awaiting {field symbol name : String} {b : Transformer} {v : Value}
    (hv : PathValue.entry? (awaiting field symbol b) name = some (some v)) {u : Transformer}
    (hu : u ∈ Sequence.trailing v.sequence) : u = b := by
  rw [awaiting, PathValue.entry?_set] at hv
  split at hv
  · obtain rfl := Option.some.inj (Option.some.inj hv)
    simpa [Sequence.trailing, Value.draft] using hu
  · cases hv

/-- The path waits for the value of the symbol. -/
theorem mem_awaited_awaiting {field symbol : String} {b : Transformer} {q : String × Ref} :
    q ∈ (awaiting field symbol b).awaited ↔
      q = (field, ⟨.string symbol, .string "q", "add", "string", ""⟩) := by
  obtain ⟨name, ref⟩ := q
  rw [PathValue.mem_awaited, awaiting, PathValue.view_set]
  by_cases hname : name = field
  · subst hname
    simp [Value.contents, Value.draft, Sequence.contentsOf_some,
      Sequence.contentsOfStep_eq, eq_comm]
  · have hnone : PathValue.empty.view name = none := rfl
    rw [Function.update_of_ne hname, hnone]
    simp [hname]

/-- Every path is empty or waits for the value of the symbol. -/
def AllAwaiting (symbol : String) (b : Transformer) (v : Propagation) : Prop :=
  ∀ p ∈ v.toList, p = .empty ∨ ∃ field, p = awaiting field symbol b

theorem AllAwaiting.eq_of_mem_trailing {symbol : String} {b : Transformer}
    (hv : AllAwaiting symbol b v) (p : PathValue) (hp : p ∈ v.toList) (name : String) (x : Value)
    (hx : p.entry? name = some (some x)) (u : Transformer) (hu : u ∈ Sequence.trailing x.sequence) :
    u = b := by
  rcases hv p hp with rfl | ⟨field, rfl⟩
  · cases hx
  · exact eq_of_mem_trailing_awaiting hx hu

/-- Such paths replay canonical transformers, if the edit is one. -/
theorem AllAwaiting.held {symbol : String} {b : Transformer} (hv : AllAwaiting symbol b v)
    (hb : w.manager.pool.Holds b) : ∀ p ∈ v.toList, p.Held w :=
  fun p hp name x hx u hu => hv.eq_of_mem_trailing p hp name x hx u hu ▸ hb

/-- The final form of a value that waits for the one known value can be found. -/
theorem AllAwaiting.exists_returns {known : String} {b : Transformer} (hw : w.manager.Sound)
    (hv : AllAwaiting known b v) (hb : w.manager.pool.Holds b)
    (hreaches : (demanding (.string known)).Reaches w w₁) (htop : v.isTop = false) :
    ∃ v' w₂, ((demanding (.string known)).final v).Returns w₁ v' w₂ ∧
      (demanding (.string known)).Reaches w w₂ := by
  have hr := fixed_demanding hw (.string known)
  have hsucceeds : ¬((demanding (.string known)).final v).Fails w₁ := by
    rw [fails_final hr hw (hv.held hb) hreaches]
    rintro ⟨q, hq, hnone⟩
    obtain ⟨p, hp, hq⟩ := List.mem_flatMap.mp hq
    rcases hv p hp with rfl | ⟨field, rfl⟩
    · cases hq
    · rw [mem_awaited_awaiting.mp hq, answersIn, if_pos rfl] at hnone
      cases hnone
  obtain ⟨v', w₂, hv'⟩ := (Work.returns_or_fails _ w₁).resolve_right hsucceeds
  exact ⟨v', w₂, hv',
    (final_spec (hr.serves hw) hreaches htop
      (fun p hp => (hv.held hb p hp).grow (hr.sound hw hreaches)) hv').1⟩

/-- One value waits for what is known, one does so on one of its paths, and one waits for what is
not known. -/
theorem final_join_homomorphism_demanding :
    ∃ (w w₁ w₂ : Workspace) (b : Transformer) (x y z fx fy : Propagation),
    b.contents = .draft none (some (.singleton (.string "y"))) false none ∧
    x = .ofPaths 1 [awaiting "f" "p" b] ∧ y = .ofPaths 2 [awaiting "g" "p" b, .empty] ∧
    z = .ofPaths 3 [awaiting "f" "o" b] ∧
    ((demanding (.string "p")).final x).Returns w fx w₁ ∧
      ((demanding (.string "p")).final y).Returns w₁ fy w₂ ∧
    ((demanding (.string "p")).final z).Fails w ∧
    (∃ fj w₃, ((demanding (.string "p")).final (x.join 4 y)).Returns w₂ fj w₃ ∧
      ∀ k, fj.equal (fx.join k fy) = true) ∧
    ((demanding (.string "p")).final (x.join 5 z)).Fails w₂ ∧
    (∀ p ∈ fx.toList, p.isIntermediate = false) ∧
      ((demanding (.string "p")).final fx).Returns w₂ fx w₂ := by
  have hm₀ : Workspace.create.manager.Sound := Manager.sound_create (Pool.sound_empty _)
  obtain ⟨m, b, hgrows, hb, hbcontents⟩ := hm₀.exists_holds
    (.draft none (some (.singleton (.string "y"))) false none) rfl
      (by simp [Transformer.draft, Sequence.trailing])
  rw [Transformer.contents_draft, Sequence.contentsOf] at hbcontents
  obtain ⟨w, rfl⟩ : ∃ w : Workspace, w.manager = m := ⟨{ Workspace.create with manager := m }, rfl⟩
  have hw := hgrows.sound
  have hr := fixed_demanding hw (.string "p")
  have hx : AllAwaiting "p" b (.ofPaths 1 [awaiting "f" "p" b]) := by
    intro p hp
    exact .inr ⟨"f", List.mem_singleton.mp (Keyed.mem_of_mem_ofList hp)⟩
  have hy : AllAwaiting "p" b (.ofPaths 2 [awaiting "g" "p" b, .empty]) := by
    intro p hp
    have hpaths : p = awaiting "g" "p" b ∨ p = .empty := by simpa using Keyed.mem_of_mem_ofList hp
    exact hpaths.symm.imp_right fun h => ⟨"g", h⟩
  have hz : AllAwaiting "o" b (.ofPaths 3 [awaiting "f" "o" b]) := by
    intro p hp
    exact .inr ⟨"f", List.mem_singleton.mp (Keyed.mem_of_mem_ofList hp)⟩
  obtain ⟨fx, w₁, hfx, h₁⟩ := hx.exists_returns hw hb .refl rfl
  obtain ⟨fy, w₂, hfy, h₂⟩ := hy.exists_returns hw hb h₁ rfl
  have hfz : ((demanding (.string "p")).final (.ofPaths 3 [awaiting "f" "o" b])).Fails w := by
    obtain ⟨p, hp, rfl⟩ := (Keyed.mem_ofList_keys id (l := [awaiting "f" "o" b])
      (fun p hp q hq _ => (List.mem_singleton.mp hp).trans (List.mem_singleton.mp hq).symm) _).mpr
      ⟨_, List.mem_cons_self, rfl⟩
    rw [fails_final hr hw (hz.held hb) .refl]
    refine ⟨_, List.mem_flatMap.mpr ⟨_, hp, mem_awaited_awaiting.mpr rfl⟩, ?_⟩
    rw [answersIn, if_neg (by decide)]
  obtain ⟨hjoin, _, hsettled⟩ :=
    final_join_homomorphism hr hw (hx.held hb) (hy.held hb) 4 .refl h₁ h₂
  obtain ⟨_, hfails, _⟩ := final_join_homomorphism hr hw (hx.held hb) (hz.held hb) 5 .refl .refl h₂
  obtain ⟨hwaits, hself⟩ := hsettled (fun p hp name x hentry u hu =>
    hx.eq_of_mem_trailing p hp name x hentry u
      hu ▸ (Transformer.fields_of_contents hbcontents).2.2.2) fx w₁ hfx
  exact ⟨w, w₁, w₂, b, _, _, _, fx, fy, hbcontents, rfl, rfl, rfl, hfx, hfy, hfz,
    hjoin fx w₁ fy w₂ hfx hfy, hfails rfl rfl (.inr hfz), hwaits, hself w₂⟩

end Resolver

end FieldFlow
