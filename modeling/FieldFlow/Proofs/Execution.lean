import FieldFlow.Proofs.Building
import FieldFlow.Proofs.Meaning

/-!
# Built fields mean what direct execution does

What an action makes of elements has the effect of the action, and what the operations of a field
make, composed, has the effects of running them directly.  References are taken to have the
alternatives that the final paths of the referenced objects give.

Main definitions: `Direct.Answers`, `Direct.runEffects`.
Main results: `Solver.meaning_composed`, `Solver.outcomes_valueOf`.
-/

namespace FieldFlow

/-! ## What actions make -/

namespace Factory

variable {action : String} {x : Element}

/-- **What an action makes of an element** is plain and has the effect of the action. -/
theorem literalBody?_effect {body : Transformer} (h : literalBody? action x = some body) :
    body.Plain ∧ Direct.effect? action {x} = some body.edit.act := by
  have hx : OptionalSet.members (some (ElementSet.singleton x)) = {x} :=
    OptionalSet.members_singleton x
  rcases literalBody?_eq_some.mp h with
    ⟨rfl, rfl⟩ | ⟨_, ⟨rfl, rfl⟩ | ⟨rfl, rfl⟩ | ⟨rfl, rfl⟩⟩
  · refine ⟨⟨rfl, .inl rfl⟩, congrArg some (funext fun s => ?_)⟩
    simp [Transformer.edit, Transformer.draft, Edit.act]
  · refine ⟨⟨rfl, .inr (by simp [Transformer.edit, Transformer.draft])⟩,
      congrArg some (funext fun s => ?_)⟩
    simp [Transformer.edit, Transformer.draft, Edit.act, hx]
  · refine ⟨⟨rfl, .inr (by simp [Transformer.edit, Transformer.draft])⟩,
      congrArg some (funext fun s => ?_)⟩
    simp [Transformer.edit, Transformer.draft, Edit.act, hx]
  · refine ⟨⟨rfl, .inl rfl⟩, congrArg some (funext fun s => ?_)⟩
    simp [Transformer.edit, Transformer.draft, Edit.act, hx]

/-- What an action makes clears the field exactly if the action forgets what came before. -/
theorem clear_of_literalBody? {body : Transformer} (h : literalBody? action x = some body) :
    body.clear = (action = "clear" || action = "replace") := by
  rcases literalBody?_eq_some.mp h with
    ⟨rfl, rfl⟩ | ⟨_, ⟨rfl, rfl⟩ | ⟨rfl, rfl⟩ | ⟨rfl, rfl⟩⟩ <;> rfl

/-- An action that has an effect makes something of every element but nil. -/
theorem literalBody?_isSome {act : Set Element → Set Element} {xs : Set Element}
    (h : Direct.effect? action xs = some act) (hx : x ≠ .nil) :
    ∃ body, literalBody? action x = some body := by
  unfold Direct.effect? at h
  split at h
  · exact ⟨_, literalBody?_eq_some.mpr (.inr ⟨hx, .inl ⟨rfl, rfl⟩⟩)⟩
  · exact ⟨_, literalBody?_eq_some.mpr (.inr ⟨hx, .inr (.inl ⟨rfl, rfl⟩)⟩)⟩
  · exact ⟨_, literalBody?_eq_some.mpr (.inl ⟨rfl, rfl⟩)⟩
  · exact ⟨_, literalBody?_eq_some.mpr (.inr ⟨hx, .inr (.inr ⟨rfl, rfl⟩)⟩)⟩
  · cases h

/-- What an action makes of elements one after the other. -/
def foldBodies? (action : String) (xs : List Element) : Option (List Transformer) :=
  xs.mapM (literalBody? action)

/-- What an action makes of elements one after the other has the effect of folding them in. -/
theorem foldBodies?_effect {xs : List Element} {bodies : List Transformer}
    (h : foldBodies? action xs = some bodies) :
    (∀ body ∈ bodies, body.Plain) ∧ Direct.fold? action xs = some (actAll bodies) := by
  induction xs generalizing bodies with
  | nil =>
    cases h
    exact ⟨by simp, rfl⟩
  | cons x rest ih =>
    obtain ⟨body, hbody, others, hothers, rfl⟩ := mapM_cons_eq_some.mp h
    obtain ⟨hplain, heffect⟩ := literalBody?_effect hbody
    obtain ⟨hplains, hfold⟩ := ih hothers
    refine ⟨by simpa using ⟨hplain, hplains⟩, ?_⟩
    rw [Direct.fold?, heffect, hfold]
    rfl

/-- Folding that has an effect makes something of all elements, if nil is not among them. -/
theorem foldBodies?_isSome {xs : List Element} {act : Set Element → Set Element}
    (h : Direct.fold? action xs = some act) (hxs : .nil ∉ xs) :
    ∃ bodies, foldBodies? action xs = some bodies := by
  induction xs generalizing act with
  | nil => exact ⟨[], rfl⟩
  | cons x rest ih =>
    rw [List.mem_cons, not_or] at hxs
    obtain ⟨first, hfirst, hbind⟩ := Option.bind_eq_some_iff.mp h
    obtain ⟨others, hothers, _⟩ := Option.bind_eq_some_iff.mp hbind
    obtain ⟨body, hbody⟩ := literalBody?_isSome hfirst (Ne.symm hxs.1)
    obtain ⟨bodies, hbodies⟩ := ih hothers hxs.2
    exact ⟨body :: bodies, mapM_cons_eq_some.mpr ⟨body, hbody, bodies, hbodies, rfl⟩⟩

end Factory

/-! ## What references give -/

/-- The object that a reference leads to. -/
def Ref.target (ref : Ref) : ObjectId := ⟨ref.symbol.display, ref.point.display⟩

namespace Direct

/-- The alternatives for a reference that stands in the field `holder`: what adding an unknown value
makes, or what folding in makes of the content of one final path. -/
inductive Answers (m : Model) (holder : String) (ref : Ref) : Option Instance → Prop
  | unknown (hunknown : ¬ m.Has ref.target ∨ m.OnCycle ref.target) {body : Transformer}
      (hbody : Factory.literalBody? "add" (top ref.type) = some body) :
      Answers m holder ref (some (.canonical body))
  | untracked {b : Reading} (hcycle : ¬ m.OnCycle ref.target) (hfinal : Final m ref.target b)
      (hcontent : b (ref.fieldIn holder) = none) : Answers m holder ref none
  | tracked {b : Reading} {xs : List Element} {bodies : List Transformer}
      (hcycle : ¬ m.OnCycle ref.target) (hfinal : Final m ref.target b)
      (hcontent : b (ref.fieldIn holder) = some {x | x ∈ xs})
      (hordered : xs.Pairwise fun x y => x.key < y.key)
      (hbodies : Factory.foldBodies? ref.op xs = some bodies) :
      Answers m holder ref (some ((Instance.canonical .blank).compAll bodies))

/-- The set of alternatives for a reference. -/
def answers (m : Model) (holder : String) (ref : Ref) : Set (Option Instance) :=
  {c | Answers m holder ref c}

variable {m : Model}

theorem plain_compAll {bodies : List Transformer} (h : ∀ body ∈ bodies, body.Plain) :
    ((Instance.canonical .blank).compAll bodies).Plain ∧
      ((Instance.canonical .blank).compAll bodies).act = actAll bodies := by
  obtain ⟨hplain, hact⟩ := Instance.plain_blank.compAll h
  exact ⟨hplain, funext fun s => by rw [hact, Instance.act_blank]⟩

theorem allPlain_answers (m : Model) (holder : String) (ref : Ref) :
    AllPlain (answers m holder ref) := by
  intro c hc
  cases hc with
  | unknown hunknown hbody => exact Instance.plain_canonical (Factory.literalBody?_effect hbody).1
  | tracked hcycle hfinal hcontent hordered hbodies =>
    exact (plain_compAll (Factory.foldBodies?_effect hbodies).1).1

/-- **A reference has the effects of the operation that it stands in.** -/
theorem effects_answers {f : Model.Field} {op : Model.Op} {target : Model.Target}
    (haction : op.action = "compose") (href : op.ref = some target) :
    effects (answers m f.name (Solver.refOf f target)) = {e | Effects m f op e} := by
  ext e
  constructor
  · rintro ⟨c, hc, rfl⟩
    cases hc with
    | unknown hunknown hbody =>
      have heffect := (Factory.literalBody?_effect hbody).2
      have hact : (Instance.canonical _).act = fun s => s ∪ {top f.valueType} :=
        (Option.some.inj heffect).symm
      rw [Option.map_some, hact]
      exact .unknown haction href hunknown
    | @untracked b hcycle hfinal hcontent =>
      have hcontent : b (target.fieldIn f.name) = none := hcontent
      refine .chosen haction href hcycle hfinal ?_
      rw [hcontent]
      exact .untracked
    | @tracked b xs bodies hcycle hfinal hcontent hordered hbodies =>
      have hcontent : b (target.fieldIn f.name) = some {x | x ∈ xs} := hcontent
      obtain ⟨hplains, hfold⟩ := Factory.foldBodies?_effect hbodies
      refine .chosen haction href hcycle hfinal ?_
      rw [hcontent, Option.map_some, (plain_compAll hplains).2]
      exact .members hordered hfold
  · intro he
    cases he with
    | literal hnone => rw [href] at hnone; cases hnone
    | unknown _ href' hunknown =>
      rw [href] at href'
      cases href'
      have hadd : effect? "add" ∅ = some fun s => s ∪ ∅ := rfl
      obtain ⟨body, hbody⟩ := Factory.literalBody?_isSome hadd (top_ne_nil f.valueType)
      have heffect := (Factory.literalBody?_effect hbody).2
      exact ⟨_, .unknown hunknown hbody, heffect.symm⟩
    | @chosen _ _ _ b _ _ href' hcycle hfinal hfolds =>
      rw [href] at href'
      cases href'
      generalize hcontent : b (target.fieldIn f.name) = content at hfolds
      cases hfolds with
      | untracked => exact ⟨none, .untracked hcycle hfinal hcontent, rfl⟩
      | members hordered hfold =>
        -- no element is refused, since final paths hold no nil
        obtain ⟨bodies, hbodies⟩ := Factory.foldBodies?_isSome hfold
          (hfinal.nil_notMem _ _ hcontent)
        obtain ⟨hplains, hfold'⟩ := Factory.foldBodies?_effect hbodies
        refine ⟨_, .tracked hcycle hfinal hcontent hordered hbodies, ?_⟩
        rw [Option.map_some, (plain_compAll hplains).2, ← hfold', hfold]

/-- The effects of running operations one after the other. -/
def runEffects (m : Model) (f : Model.Field) : List Model.Op → Set Effect
  | [] => {some id}
  | op :: rest => followed {e | Effects m f op e} (runEffects m f rest)

/-- Running operations is having one of their effects. -/
theorem runs_iff {f : Model.Field} {ops : List Model.Op} {s s' : Option (Set Element)} :
    Runs m f ops s s' ↔ ∃ e ∈ runEffects m f ops, s' = e.on s := by
  induction ops generalizing s with
  | nil =>
    constructor
    · intro h
      cases h
      exact ⟨some id, rfl, (Effect.id_on _).symm⟩
    · rintro ⟨e, rfl, rfl⟩
      rw [Effect.id_on]
      exact .done
  | cons op rest ih =>
    constructor
    · intro h
      cases h with
      | step heffect hrest =>
        obtain ⟨e, he, rfl⟩ := ih.mp hrest
        exact ⟨_, ⟨_, heffect, e, he, rfl⟩, (Effect.on_andThen _ _ _).symm⟩
    · rintro ⟨_, ⟨d, hd, e, he, rfl⟩, rfl⟩
      exact .step hd (ih.mpr ⟨e, he, Effect.on_andThen _ _ _⟩)

end Direct

/-! ## Operations -/

namespace Solver

open Direct

variable {m : Model} {f : Model.Field}

/-- Plain transformers one of which clears the field do the same to every set. -/
theorem actAll_of_clear {bodies : List Transformer} (h : bodies.any Transformer.clear = true)
    (s s' : Set Element) : actAll bodies s = actAll bodies s' := by
  induction bodies generalizing s s' with
  | nil => simp at h
  | cons body rest ih =>
    rw [List.any_cons, Bool.or_eq_true] at h
    show actAll rest (body.edit.act s) = actAll rest (body.edit.act s')
    by_cases hrest : rest.any Transformer.clear = true
    · exact ih hrest _ _
    · have hclear : body.edit.clear = true := h.resolve_right hrest
      simp [Edit.act, hclear]

/-- **Composing plain transformers onto an instance**: they have one effect, which follows those of
the instance unless one of them clears the field. -/
theorem meaning_compAll {answers : Ref → Set (Option Instance)}
    (hanswers : ∀ ref, AllPlain (answers ref)) {c : Instance} (hc : c.Neat)
    {bodies : List Transformer} (hbodies : ∀ body ∈ bodies, body.Plain) :
    (c.compAll bodies).Neat ∧ (c.compAll bodies).body.meaning answers
      = if bodies.any Transformer.clear then {some (actAll bodies)}
        else followed (c.body.meaning answers) {some (actAll bodies)} := by
  induction bodies generalizing c with
  | nil => exact ⟨hc, (followed_id _).symm⟩
  | cons body rest ih =>
    have hbody : body.Plain := hbodies body List.mem_cons_self
    have hneat : (Instance.canonical body).Neat :=
      ⟨Instance.genuine_canonical body, hbody.regular, by simp [Instance.canonical, hbody.sequence,
        Sequence.trailing]⟩
    obtain ⟨hneats, hmeaning⟩ :=
      ih (hc.comp hneat) fun b hb => hbodies b (List.mem_cons_of_mem _ hb)
    have hall : actAll (body :: rest) = actAll rest ∘ body.edit.act := rfl
    refine ⟨hneats, hmeaning.trans ?_⟩
    rw [List.any_cons, hall]
    -- what a later transformer clears is forgotten, whatever this one does
    by_cases hrest : rest.any Transformer.clear = true
    · rw [if_pos hrest, if_pos (by simp [hrest])]
      have hsame : actAll rest ∘ body.edit.act = actAll rest :=
        funext fun s => actAll_of_clear hrest _ _
      rw [hsame]
    · rw [if_neg hrest]
      by_cases hclear : body.clear = true
      · rw [if_pos (by simp [hclear]), Instance.comp_of_clear hclear]
        show followed (body.meaning answers) _ = _
        rw [Transformer.meaning_of_sequence hbody.sequence]
        simp [followed, Effect.andThen]
      · have hclear : body.clear = false := by simpa using hclear
        rw [if_neg (by simp [hclear, hrest]), Instance.meaning_comp hanswers hc hneat hclear]
        show followed (followed _ (body.meaning answers)) _ = _
        rw [Transformer.meaning_of_sequence hbody.sequence, followed_assoc]
        simp [followed, Effect.andThen]

/-- An action other than replacing makes of elements what folding makes of them. -/
theorem literalBodies?_eq_foldBodies? {action : String} (h : action ≠ "replace")
    (xs : List Element) :
    literalBodies? action xs = Factory.foldBodies? action xs := by
  induction xs with
  | nil => rfl
  | cons x rest ih =>
    rw [literalBodies?, if_neg h, ih, Factory.foldBodies?, Factory.foldBodies?, List.mapM_cons]

/-- What an action makes clears the field exactly if the action forgets what came before. -/
theorem any_clear_foldBodies? {action : String} {xs : List Element} {bodies : List Transformer}
    (h : Factory.foldBodies? action xs = some bodies) (hxs : xs ≠ []) :
    bodies.any Transformer.clear = (action = "clear" || action = "replace") := by
  induction xs generalizing bodies with
  | nil => exact absurd rfl hxs
  | cons x rest ih =>
    obtain ⟨body, hbody, others, hothers, rfl⟩ := mapM_cons_eq_some.mp h
    rw [List.any_cons, Factory.clear_of_literalBody? hbody]
    cases rest with
    | nil =>
      cases hothers
      simp
    | cons y rest => rw [ih hothers (by simp), Bool.or_self]

/-- **What a literal operation makes** is plain and has the effect of its action. -/
theorem literalBodies?_effect {action : String} {xs : List Element} (hxs : xs ≠ [])
    {bodies : List Transformer} (h : literalBodies? action xs = some bodies) :
    (∀ body ∈ bodies, body.Plain) ∧ effect? action {x | x ∈ xs} = some (actAll bodies) ∧
      bodies.any Transformer.clear = (action = "clear" || action = "replace") := by
  by_cases hreplace : action = "replace"
  · subst hreplace
    cases xs with
    | nil => exact absurd rfl hxs
    | cons x rest =>
      -- the first element replaces, and the others are added to it
      obtain ⟨body, hbody, hbind⟩ := Option.bind_eq_some_iff.mp h
      obtain ⟨others, hothers, hpure⟩ := Option.bind_eq_some_iff.mp hbind
      cases hpure
      rw [if_pos rfl, literalBodies?_eq_foldBodies? (by decide)] at hothers
      obtain ⟨hplain, heffect⟩ := Factory.literalBody?_effect hbody
      obtain ⟨hplains, hfold⟩ := Factory.foldBodies?_effect hothers
      have hact : ∀ s, body.edit.act s = {x} := fun s => (congrFun (Option.some.inj heffect) s).symm
      have hadds : ∀ s, actAll others s = s ∪ {y | y ∈ rest} := by
        cases rest with
        | nil =>
          cases hothers
          intro s
          simp [actAll]
        | cons y rest =>
          rw [fold?_eq_effect? (by decide) (by simp)] at hfold
          exact fun s => (congrFun (Option.some.inj hfold) s).symm
      refine ⟨by simpa using ⟨hplain, hplains⟩, congrArg some (funext fun s => ?_), ?_⟩
      · have hcons : actAll (body :: others) s = actAll others (body.edit.act s) := rfl
        rw [hcons, hadds, hact]
        ext y
        simp
      · rw [List.any_cons, Factory.clear_of_literalBody? hbody]
        simp
  · rw [literalBodies?_eq_foldBodies? hreplace] at h
    obtain ⟨hplains, hfold⟩ := Factory.foldBodies?_effect h
    rw [fold?_eq_effect? hreplace hxs] at hfold
    exact ⟨hplains, hfold, any_clear_foldBodies? h hxs⟩

theorem effects_literal {op : Model.Op} {xs : List Element} {act : Set Element → Set Element}
    (href : op.ref = none) (hread : Analyses.defaults.read f.valueType op.values = .ok xs)
    (hact : effect? op.action {x | x ∈ xs} = some act) : {e | Effects m f op e} = {some act} := by
  ext e
  constructor
  · intro he
    cases he with
    | literal _ hread' hact' =>
      rw [hread] at hread'
      cases hread'
      rw [hact] at hact'
      exact hact'.symm
    | unknown _ href' =>
      rw [href] at href'
      cases href'
    | chosen _ href' =>
      rw [href] at href'
      cases href'
  · rintro rfl
    exact .literal href hread hact

/-- What a reference makes has the effects of the alternatives. -/
theorem meaning_ref {answers : Ref → Set (Option Instance)}
    (hanswers : ∀ ref, AllPlain (answers ref)) (ref : Ref) :
    (Transformer.draft none none false (some (Sequence.ofRefs [ref]))).meaning answers
      = effects (answers ref) := by
  have hafter : ∀ t ∈ (⟨some ref, []⟩ : Step Transformer).after, t.Plain := by simp
  have hstep := (effects_step hanswers allPlain_blank hafter).2
  have hact : (Transformer.draft none none false (some (Sequence.ofRefs [ref]))).edit.act = id :=
    Transformer.act_of_not_hasEdits rfl rfl
  rw [Transformer.meaning, hact, id_followed]
  refine hstep.trans ?_
  rw [effects_blank, id_followed]
  exact followed_id _

/-- What an operation with a reference makes. -/
theorem bodies?_ref {op : Model.Op} {target : Model.Target} (href : op.ref = some target)
    {bodies : List Transformer} (h : bodies? f op = some bodies) :
    op.action = "compose" ∧
      bodies = [.draft none none false (some (Sequence.ofRefs [refOf f target]))] := by
  rw [bodies?, href] at h
  obtain ⟨body, hbody, hpure⟩ := Option.bind_eq_some_iff.mp h
  cases hpure
  obtain ⟨haction, rfl⟩ := Factory.refBody?_eq_some.mp hbody
  exact ⟨haction, rfl⟩

/-- What an operation without a reference makes has the effect of its action on the elements that
are read. -/
theorem bodies?_literal {op : Model.Op} (href : op.ref = none) {bodies : List Transformer}
    (h : bodies? f op = some bodies) :
    ∃ xs, Analyses.defaults.read f.valueType op.values = .ok xs ∧ (∀ body ∈ bodies, body.Plain) ∧
      effect? op.action {x | x ∈ xs} = some (actAll bodies) ∧
      bodies.any Transformer.clear = (op.action = "clear" || op.action = "replace") := by
  rw [bodies?, href] at h
  cases hread : Analyses.defaults.read f.valueType op.values with
  | error fault => simp [hread] at h
  | ok xs =>
    simp only [hread] at h
    refine ⟨xs, rfl, ?_⟩
    cases xs with
    | nil =>
      by_cases hclear : op.action = "clear"
      · rw [if_pos hclear, hclear] at h
        obtain ⟨body, hbody, hpure⟩ := Option.bind_eq_some_iff.mp h
        cases hpure
        obtain ⟨hplain, heffect⟩ := Factory.literalBody?_effect hbody
        have hwipes : body.clear = true := Factory.clear_of_literalBody? hbody
        rw [hclear]
        exact ⟨by simpa using hplain, heffect, by simp [hwipes]⟩
      · rw [if_neg hclear] at h
        cases h
    | cons x rest => exact literalBodies?_effect (by simp) h

/-- **What one operation makes, composed onto an instance**: its effects follow those of the
instance, unless it wipes the field. -/
theorem meaning_compAll_bodies {op : Model.Op} {bodies : List Transformer}
    (h : bodies? f op = some bodies) {c : Instance} (hc : c.Neat) :
    (c.compAll bodies).Neat ∧ (c.compAll bodies).body.meaning (answers m f.name)
      = if op.wipes then {e | Effects m f op e}
        else followed (c.body.meaning (answers m f.name)) {e | Effects m f op e} := by
  have hanswers := allPlain_answers m f.name
  unfold Model.Op.wipes
  cases href : op.ref with
  | some target =>
    obtain ⟨haction, rfl⟩ := bodies?_ref href h
    have hneat : (Instance.canonical (.draft none none false
        (some (Sequence.ofRefs [refOf f target])))).Neat := by
      refine ⟨Instance.genuine_canonical _, .inr ?_, ?_⟩
      · simp [Instance.canonical, Transformer.edit, Transformer.draft]
      · simp [Instance.canonical, Transformer.draft, Sequence.ofRefs, Sequence.trailing]
    refine ⟨hc.comp hneat, (Instance.meaning_comp hanswers hc hneat rfl).trans ?_⟩
    rw [← effects_answers haction href, ← meaning_ref hanswers]
    rfl
  | none =>
    obtain ⟨xs, hread, hplains, heffect, hany⟩ := bodies?_literal href h
    obtain ⟨hneat, hmeaning⟩ := meaning_compAll hanswers hc hplains
    refine ⟨hneat, hmeaning.trans ?_⟩
    rw [effects_literal href hread heffect, hany]
    rfl

/-! ## Fields -/

/-- Where no operation wipes the field all are effective. -/
theorem effective_of_not_any {ops : List Model.Op} (h : ops.any Model.Op.wipes = false) :
    Model.effective ops = ops := by
  cases ops with
  | nil => rfl
  | cons op rest =>
    rw [List.any_cons, Bool.or_eq_false_iff] at h
    rw [Model.effective, if_neg (by simp [h.2])]

/-- **What operations make, composed onto an instance**, has the effects of running those that are
effective; they follow the effects of the instance if no operation wipes the field. -/
theorem meaning_composed {ops : List Model.Op} {c made : Instance} (hc : c.Neat)
    (h : composed? f c ops = some made) :
    made.body.meaning (answers m f.name)
      = if ops.any Model.Op.wipes then runEffects m f (Model.effective ops)
        else followed (c.body.meaning (answers m f.name)) (runEffects m f ops) := by
  induction ops generalizing c with
  | nil =>
    cases h
    exact (followed_id _).symm
  | cons op rest ih =>
    obtain ⟨bodies, hbodies, hrest⟩ := Option.bind_eq_some_iff.mp h
    obtain ⟨hneat, hmeaning⟩ := meaning_compAll_bodies (m := m) hbodies hc
    refine (ih hneat hrest).trans ?_
    rw [List.any_cons, Model.effective]
    by_cases hany : rest.any Model.Op.wipes = true
    · rw [if_pos hany, if_pos (by simp [hany]), if_pos hany]
    · rw [if_neg hany, if_neg hany, hmeaning]
      by_cases hwipes : op.wipes = true
      · rw [if_pos hwipes, if_pos (by simp [hwipes]), runEffects]
      · rw [if_neg hwipes, if_neg (by simp [hwipes, hany]), followed_assoc, runEffects]

/-- **A built field turns out to be what direct execution of its operations gives.** -/
theorem outcomes_valueOf {v : Value} (h : valueOf? f = some v) :
    outcomes (answers m f.name) v = {s | Runs m f (Model.effective f.ops) (some ∅) s} := by
  obtain ⟨made, hmade, hpure⟩ := Option.bind_eq_some_iff.mp h
  cases hpure
  have hmeaning : made.body.meaning (answers m f.name) =
      runEffects m f (Model.effective f.ops) := by
    refine (meaning_composed Instance.neat_blank hmade).trans ?_
    have hid : (Instance.canonical .blank).body.meaning (answers m f.name) = {some id} :=
      Transformer.meaning_of_isBlank rfl
    split
    · rfl
    · rename_i hany
      rw [hid, id_followed, effective_of_not_any (by simpa using hany)]
  rw [Transformer.outcomes_on_empty, hmeaning]
  ext s
  exact runs_iff.symm

/-- What operations make, composed onto a neat instance, is neat. -/
theorem neat_composed {ops : List Model.Op} {c made : Instance} (hc : c.Neat)
    (h : composed? f c ops = some made) : made.Neat := by
  induction ops generalizing c with
  | nil =>
    cases h
    exact hc
  | cons op rest ih =>
    obtain ⟨bodies, hbodies, hrest⟩ := Option.bind_eq_some_iff.mp h
    exact ih (meaning_compAll_bodies (m := default) hbodies hc).1 hrest

/-- **What a built field may turn out to be waits for nothing.** -/
theorem sequence_of_resolutions {v u : Value} (h : valueOf? f = some v) {holder : String}
    (hu : some u ∈ resolutions (answers m holder) v) : u.sequence = none := by
  obtain ⟨made, hmade, hpure⟩ := Option.bind_eq_some_iff.mp h
  cases hpure
  have hneat : made.Neat := neat_composed Instance.neat_blank hmade
  have hsequence := (Transformer.on_of_none (t := made.body) (v := .draft none none) (.inr rfl)).1
  -- what is replayed is plain, and so is every choice
  have htrailing :
      ∀ t ∈ Sequence.trailing (some ((made.body.on (.draft none none)).sequence.getD [])),
      t.Plain := by
    intro t ht
    rw [hsequence, Sequence.getD_concat] at ht
    refine hneat.trailing t ?_
    cases hmadeSequence : made.body.sequence with
    | none => simp [hmadeSequence, Sequence.trailing] at ht
    | some steps => simpa [hmadeSequence] using ht
  obtain ⟨c, hc, hmap⟩ := hu
  obtain ⟨i, rfl, rfl⟩ := Option.map_eq_some_iff.mp hmap.symm
  have hplain := (effects_replays (allPlain_answers m holder) allPlain_blank htrailing).1 i hc
  rw [(Transformer.on_of_none (.inr rfl)).1, hplain.body.sequence]
  rfl

end Solver

end FieldFlow
