import FieldFlow.Proofs.Regimes

/-!
# Clients of a manager

A client asks a manager and its resolvers for transformers and values, and hands what it got to
later operations.  The solver behind a resolver, and what provides transformers for unknown values,
may use the manager in the middle of an operation; what is done there is again a chain of operations
of a client, which may remember objects in the workspace from one time to the next.

What a client may do besides depends on the rules that it keeps.  Under lawful rules, all that it
gets along a chain of operations is as the regime expects.

Main definitions: `Client`, `Request`, `Inquiry`, `Rules`, `Client.Leads`.
Main results: `Request.governs_perform`, `Inquiry.governs_perform`, `Client.upholds_of_leads`.
-/

namespace FieldFlow

/-! ## Operations -/

/-- A client of a manager: the workspace that it works in, and what operations returned to it. -/
structure Client where
  workspace : Workspace
  got : List Item

/-- What a client remembers in its workspace, outside the manager and the log. -/
structure Recollection where
  items : Workspace → List Item
  outside : ∀ w manager log, items { w with manager := manager, log := log } = items w

/-- Remembering nothing. -/
def Recollection.none : Recollection := ⟨fun _ => [], fun _ _ _ => rfl⟩

/-- An operation of a manager. -/
inductive Request where
  | literal (action : String) (x : Element)
  | reference (action : String) (ref : Ref)
  | identity
  /-- Asks for the instance with the contents of a transformer. -/
  | share (t : Transformer)
  /-- Asks for the transformer for an unknown value, as the analyses provide it. -/
  | unknown (type : String)
  | compose (first second : Transformer)
  | edits (t : Transformer)
  | apply (t : Transformer) (v : Value)
  | concrete (elements : List Element)
  | value (set : OptionalSet) (sequence : Option Sequence)

/-- An operation of a resolver. -/
inductive Inquiry where
  | alternatives (point symbol : Element) (field type op : String)
  | finals (field : String) (v : Value)

/-- What a resolver asks others to do. -/
inductive Errand where
  | finalize (v : Propagation)
  | provide (type : String)

namespace Request

/-- What the client hands to the operation. -/
def operands : Request → List Item
  | literal _ _ | reference _ _ | identity | share _ | unknown _ | concrete _ | value _ _ => []
  | compose first second => [.transformer first, .transformer second]
  | edits t => [.transformer t]
  | apply t v => [.transformer t, .value v]

/-- What the operation returns. -/
def perform : Request → Work (List Item)
  | literal action x => do return [.transformer (← Work.attempt (Manager.makeLiteral action x))]
  | reference action ref => do return [.transformer (← Work.attempt (Manager.makeRef action ref))]
  | identity => do return [.transformer (← get).manager.identity]
  | share t => do return [.transformer (← Work.managed (Manager.intern t))]
  | unknown type => do return [.transformer (← Work.topTransformer type)]
  | compose first second => do
    return [.transformer (← Work.managed (Manager.compose first second))]
  | edits t => do return [.transformer (← Work.managed (Manager.nonComposed t))]
  | apply t v => do return [.value (← Work.managed (Manager.apply t v))]
  | concrete elements => do return [.value (← Work.managed (Manager.newConcrete elements))]
  | value set sequence => do return [.value (← Work.managed (Manager.newValue set sequence))]

end Request

namespace Inquiry

/-- What the client hands to the operation. -/
def operands : Inquiry → List Item
  | alternatives _ _ _ _ _ => []
  | finals _ v => [.value v]

/-- What the operation returns, without the alternatives that are missing. -/
def perform (r : Resolver) : Inquiry → Work (List Item)
  | alternatives point symbol field type op => do
    match (← ExceptT.lift (r.alternatives point symbol field type op)).outcome with
    | .error fault => throw fault
    | .ok found => return found.filterMap (Option.map .transformer)
  | finals field v => do return (← r.finalValues field v).filterMap (Option.map .value)

end Inquiry

namespace Errand

/-- The resolver may have to ask for it. -/
def Due (r : Resolver) : Errand → Prop
  | finalize v => ∃ point symbol, r.resultAt point symbol = some v
  | provide _ => r.provider ≠ none

/-- What is done, and the transformer that is provided. -/
def perform (r : Resolver) : Errand → Work (List Transformer)
  | finalize v => do
    let _ ← r.finalize v
    return []
  | provide type =>
    match r.provider with
    | none => throw (.noTop type)
    | some provider => do return [← provider type]

end Errand

/-! ## Rules -/

/-- A regime, together with what clients may do besides operations. -/
structure Rules extends Regime where
  /-- What may happen outside of operations. -/
  moves : Workspace → Workspace → Prop
  /-- The sequences that clients may make values with. -/
  defers : Sequence → Prop

/-- The regime is lawful, and what clients may do besides operations keeps it. -/
structure Rules.Lawful (g : Rules) : Prop where
  regime : g.toRegime.Lawful
  admits : ∀ {w t}, g.admits w t → g.shaped (.transformer t)
  moves : ∀ {w w'}, g.state w → g.moves w w' → g.next w w'
  defers : ∀ {steps}, g.defers steps → ∀ set, g.shaped (.value (.draft set (some steps)))

namespace Manager

/-- All registered factories are of the kind. -/
def Registers (kind : Factory → Prop) (m : Manager) : Prop := ∀ entry ∈ m.factories, kind entry.2

/-- What may happen to a manager outside of operations: a serial number is given out, other objects
are kept, or a factory of the kind is registered. -/
inductive Moves (kind : Factory → Prop) (m : Manager) : Manager → Prop
  | stay : Moves kind m m
  | issue : Moves kind m { m with pool := m.pool.issue.2 }
  | keep (kept : List Transformer) : Moves kind m { m with kept := kept }
  | register (action : String) (f : Factory) (hf : kind f) : Moves kind m (m.bind action f)

variable {kind : Factory → Prop} {m m' : Manager}

/-- A factory of the kind may be registered. -/
theorem Registers.bind (hm : m.Registers kind) {f : Factory} (hf : kind f) (action : String) :
    (m.bind action f).Registers kind := by
  intro entry hentry
  rcases List.mem_cons.mp hentry with rfl | hentry
  · exact hf
  · exact hm entry (List.mem_of_mem_filter hentry)

/-- All factories stay of the kind. -/
theorem Registers.moves (hm : m.Registers kind) (h : m.Moves kind m') : m'.Registers kind := by
  cases h with
  | stay => exact hm
  | issue => exact hm
  | keep kept => exact hm
  | register action f hf => exact hm.bind hf action

end Manager

namespace Client

variable {g : Rules} {b c d : Client} {memory : Recollection} {w w' : Workspace}

/-- The client's manager. -/
abbrev manager (c : Client) : Manager := c.workspace.manager

/-- The pool of the client's manager. -/
abbrev pool (c : Client) : Pool := c.manager.pool

/-- A client of a new manager on an empty pool, in a workspace that is arbitrary otherwise. -/
def fresh (hash : String → UInt64) (w : Workspace) : Client :=
  ⟨{ w with manager := .create (.empty hash) }, []⟩

/-- A client of a new manager with the default factories.  Its pool and its workspace are arbitrary
otherwise. -/
def equipped (p : Pool) (w : Workspace) : Client :=
  ⟨((Workspace.bindActions Factory.defaults).run { w with manager := .create p }).2, []⟩

/-- The client in another workspace, with what it remembers there. -/
def resume (c : Client) (memory : Recollection) (w : Workspace) : Client :=
  ⟨w, memory.items w ++ c.got⟩

/-- The client after a computation, with what that returned. -/
def after (c : Client) (memory : Recollection) (x : Work (List Item)) : Client :=
  match x.run.run c.workspace with
  | (.ok returned, w) => ⟨w, returned ++ (c.resume memory w).got⟩
  | (.error _, w) => c.resume memory w

/-- All is as the rules want it, in the workspace and with what the client got. -/
structure Upholds (g : Rules) (c : Client) : Prop where
  state : g.state c.workspace
  got : ∀ i ∈ c.got, g.Good c.workspace i

/-- The client has become another and lost nothing. -/
structure Before (g : Rules) (c d : Client) : Prop where
  next : g.next c.workspace d.workspace
  got : ∀ i ∈ c.got, i ∈ d.got

/-- The client may have the transformer interned: it got it, or it may be made elsewhere. -/
def MayShare (g : Rules) (c : Client) (t : Transformer) : Prop :=
  .transformer t ∈ c.got ∨ g.admits c.workspace t

/-- What holds in the middle of an operation. -/
structure Continues (g : Rules) (c : Client) (memory : Recollection) (w : Workspace) : Prop where
  upholds : Upholds g (c.resume memory w)
  next : g.next c.workspace w

/-- The client has what an errand that was begun in `w` leaves and remembers, and it may share what
is provided. -/
structure Ends (g : Rules) (d : Client) (memory : Recollection) (x : Work (List Transformer))
    (w : Workspace) : Prop where
  workspace : (x.run.run w).2 = d.workspace
  remembered : ∀ i ∈ memory.items d.workspace, i ∈ d.got
  provided : ∀ {l}, (x.run.run w).1 = .ok l → ∀ t ∈ l, d.MayShare g t

/-- The client may ask for it: operands are among what it got, and it makes up nothing that the
rules do not let it. -/
structure Permits (g : Rules) (c : Client) (q : Request) : Prop where
  operands : ∀ i ∈ q.operands, i ∈ c.got
  shared : ∀ t, q = .share t → c.MayShare g t
  deferred : ∀ set steps, q = .value set (some steps) → g.defers steps

/-- A chain of operations leads from one client to another.  A resolver may be any whose errands do
nothing but lead the client on. -/
inductive Leads (g : Rules) : Client → Client → Prop
  | refl {c : Client} : Leads g c c
  | move {b c : Client} (h : Leads g b c) (w : Workspace) (hw : g.moves c.workspace w) :
      Leads g b ⟨w, c.got⟩
  | request {b c : Client} (h : Leads g b c) (q : Request) (hq : c.Permits g q) :
      Leads g b (c.after .none q.perform)
  /-- The client has become `done w e` when the errand `e`, begun in `w`, is done. -/
  | inquire {b c : Client} (h : Leads g b c) (q : Inquiry) (hq : ∀ i ∈ q.operands, i ∈ c.got)
      (r : Resolver) (memory : Recollection) (done : Workspace → Errand → Client)
      (hmemory : ∀ i ∈ memory.items c.workspace, i ∈ c.got)
      (herrand : ∀ w e, c.Continues g memory w → e.Due r →
        Leads g (c.resume memory w) (done w e))
      (hdone : ∀ w e, c.Continues g memory w → e.Due r →
        (done w e).Ends g memory (e.perform r) w) :
      Leads g b (c.after memory (q.perform r))

/-- The regime in the middle of an operation: what the client got, and what is remembered, stays as
it is expected to be. -/
def during (g : Rules) (c : Client) (memory : Recollection) : Regime where
  state := c.Continues g memory
  next w w' := g.next w w' ∧ (c.Continues g memory w → c.Continues g memory w')
  canonical := g.canonical
  shaped := g.shaped
  admits := g.admits

/-- A computation that returns adds what it returns. -/
theorem after_of_returns {x : Work (List Item)} {returned : List Item}
    (h : x.Returns c.workspace returned w) :
    c.after memory x = ⟨w, returned ++ (c.resume memory w).got⟩ := by
  rw [after, show _ = _ from h]

theorem after_of_stops {x : Work (List Item)} (h : x.Stops c.workspace w) :
    c.after memory x = c.resume memory w := by
  obtain ⟨fault, hrun⟩ := h
  rw [after, hrun]

/-- The errand leaves what an operation leaves. -/
theorem ends_after {x : Work (List Transformer)} {y : Work (List Item)} {l : List Transformer}
    {returned : List Item} (hx : x.Returns w l w') (hy : y.Returns w returned w')
    (hl : ∀ t ∈ l, .transformer t ∈ returned ∨ g.admits w' t) :
    ((c.resume memory w).after memory y).Ends g memory x w := by
  rw [after_of_returns (c := c.resume memory w) hy]
  refine ⟨congrArg Prod.snd hx, fun i hi => ?_, fun {l'} hl' t ht => ?_⟩
  · exact List.mem_append_right _ (List.mem_append_left _ hi)
  · rw [show _ = _ from hx] at hl'
    obtain rfl := Except.ok.inj hl'
    exact (hl t ht).imp_left fun hreturned => List.mem_append_left _ hreturned

/-- An operation that succeeds adds what it returns. -/
theorem Leads.request_returns (h : Leads g b c) {q : Request} {returned : List Item}
    (hq : c.Permits g q) (hreturns : q.perform.Returns c.workspace returned w) :
    Leads g b ⟨w, returned ++ c.got⟩ := by
  have hled := h.request q hq
  rwa [after_of_returns hreturns] at hled

theorem Leads.trans (h : Leads g b c) (h' : Leads g c d) : Leads g b d := by
  induction h' with
  | refl => exact h
  | move _ w hw ih => exact (ih h).move w hw
  | request _ q hq ih => exact (ih h).request q hq
  | inquire _ q hq r memory done hmemory herrand hdone ih _ =>
    exact (ih h).inquire q hq r memory done hmemory herrand hdone

/-- Binding an action changes the manager's factories only. -/
theorem manager_bindAction (action : String) (factory : Factory) (w : Workspace) :
    ((Workspace.bindAction action factory).run w).2.manager = w.manager.bind action factory := by
  unfold Workspace.bindAction
  by_cases hbound : (w.manager.factory? action).isSome = true
  · simp only [StateT.run_bind, StateT.run_get, pure_bind, hbound, if_true]
    rfl
  · simp only [StateT.run_bind, StateT.run_get, pure_bind, hbound]
    rfl

/-- Binding actions changes the manager's factories only. -/
theorem manager_bindActions (l : List (String × Factory)) (w : Workspace) :
    ((Workspace.bindActions l).run w).2.manager =
      l.foldl (fun m entry => m.bind entry.1 entry.2) w.manager := by
  induction l generalizing w with
  | nil => rfl
  | cons entry rest ih =>
    rw [List.foldl_cons, ← manager_bindAction]
    exact ih _

end Client

/-! ## One operation -/

section Operations

variable {g : Regime} (hg : g.Lawful) {w : Workspace} (hw : g.state w)

include hg hw

/-- **An operation of a manager** returns what may be handed out. -/
theorem Request.governs_perform {q : Request} (hoperands : ∀ i ∈ q.operands, g.Good w i)
    (hshared : ∀ t, q = .share t → g.Takes w t)
    (hdeferred : ∀ set steps, q = .value set (some steps) →
      ∀ set, g.shaped (.value (.draft set (some steps)))) :
    g.Governs w q.perform fun returned w' => ∀ i ∈ returned, g.Good w' i := by
  have hsingle : ∀ {α : Type} {x : Work α} {item : α → Item},
      (g.Governs w x fun a w' => g.Good w' (item a)) →
      g.Governs w (do return [item (← x)]) fun returned w' => ∀ i ∈ returned, g.Good w' i := by
    intro α x item hx
    refine hx.bind hg fun a w' _ ha => Regime.governs_pure hg fun i hi => ?_
    rw [List.mem_singleton.mp hi]
    exact ha
  have hvalue : ∀ {set : OptionalSet} {sequence : Option Sequence},
      g.shaped (.value (.draft set sequence)) →
      g.Governs w (Work.managed (Manager.internValue (.draft set sequence))) fun u w' =>
        g.Good w' (.value u) := by
    intro set sequence hshaped
    refine (Regime.manages_internValue hg hw rfl).governs.mono fun u w' _ hu => ⟨hu.1, ?_⟩
    exact hg.shape.contents hshaped (congrArg Item.value hu.2)
  cases q with
  | literal action x => exact hsingle (Regime.governs_make hg hw fun f => .literal x)
  | reference action ref => exact hsingle (Regime.governs_make hg hw fun f => .reference ref)
  | identity =>
    refine Regime.governs_get_bind (Regime.governs_pure hg fun i hi => ?_)
    rw [List.mem_singleton.mp hi]
    exact hg.identity hw
  | share t => exact hsingle (Regime.manages_intern hg hw (hshared t rfl)).governs
  | unknown type => exact hsingle (Regime.governs_topTransformer hg hw type)
  | compose first second =>
    have hfirst : g.Good w (.transformer first) := hoperands _ (by simp [operands])
    have hsecond : g.Good w (.transformer second) := hoperands _ (by simp [operands])
    refine hsingle ((Regime.manages_compose hg hw hfirst.2 hsecond.2).governs.mono ?_)
    exact fun c w' _ hc => hc.2 hfirst hsecond
  | edits t =>
    have ht : g.Good w (.transformer t) := hoperands _ (by simp [operands])
    exact hsingle (Regime.manages_nonComposed hg hw ht.2).governs
  | apply t v =>
    have ht : g.Good w (.transformer t) := hoperands _ (by simp [operands])
    have hv : g.Good w (.value v) := hoperands _ (by simp [operands])
    exact hsingle (Regime.manages_apply hg hw ht.2 hv.2).governs
  | concrete elements => exact hsingle (hvalue (hg.shape.plain _))
  | value set sequence =>
    cases sequence with
    | none => exact hsingle (hvalue (hg.shape.plain _))
    | some steps => exact hsingle (hvalue (hdeferred set steps rfl _))

/-- **An operation of a resolver** returns what may be handed out. -/
theorem Inquiry.governs_perform {r : Resolver} (hr : r.Respects g) {q : Inquiry}
    (hoperands : ∀ i ∈ q.operands, g.Good w i) :
    g.Governs w (q.perform r) fun returned w' => ∀ i ∈ returned, g.Good w' i := by
  cases q with
  | alternatives point symbol field type op =>
    refine (Resolver.governs_alternatives hg hr hw point symbol field type op).bind hg ?_
    intro found w' _ hgood
    cases houtcome : found.outcome with
    | error fault => exact Regime.governs_throw hg
    | ok l =>
      refine Regime.governs_pure hg fun i hi => ?_
      obtain ⟨t, ht, hi⟩ := List.mem_filterMap.mp hi
      obtain ⟨t, rfl, rfl⟩ := Option.map_eq_some_iff.mp hi
      exact hgood l houtcome t ht
  | finals field v =>
    have hv : g.Good w (.value v) := hoperands _ (by simp [operands])
    refine (Resolver.governs_finalValues hg hr hw field hv).bind hg fun values w' _ hgood => ?_
    refine Regime.governs_pure hg fun i hi => ?_
    obtain ⟨u, hu, hi⟩ := List.mem_filterMap.mp hi
    obtain ⟨u, rfl, rfl⟩ := Option.map_eq_some_iff.mp hi
    exact hgood u hu

end Operations

/-! ## Chains of operations -/

namespace Client

variable {g : Rules} {b c d : Client} {memory : Recollection} {w w' : Workspace}

variable (hg : g.Lawful)

include hg

/-- An operation goes on when what is remembered stays the same. -/
theorem Continues.step (h : c.Continues g memory w) (hnext : g.next w w')
    (hmemory : memory.items w' = memory.items w) : c.Continues g memory w' := by
  refine ⟨⟨hg.regime.state h.upholds.state hnext, fun i hi => ?_⟩, hg.regime.trans h.next hnext⟩
  rw [resume, hmemory] at hi
  exact (h.upholds.got i hi).mono hg.regime hnext

/-- **The middle of an operation** is governed by the same rules. -/
theorem lawful_during (c : Client) (memory : Recollection) : (c.during g memory).Lawful := by
  have hmanager : ∀ w m, memory.items { w with manager := m } = memory.items w :=
    fun w m => memory.outside w m w.log
  have hmanaged : ∀ {w : Workspace} {m : Manager}, g.next w { w with manager := m } →
      (c.during g memory).next w { w with manager := m } :=
    fun hnext => ⟨hnext, fun hw => hw.step hg hnext (hmanager _ _)⟩
  constructor
  case refl => exact fun w => ⟨hg.regime.refl w, id⟩
  case trans => exact fun h h' => ⟨hg.regime.trans h.1 h'.1, fun hw => h'.2 (h.2 hw)⟩
  case state => exact fun hw h => h.2 hw
  case canonical => exact fun hi h => hg.regime.canonical hi h.1
  case shape => exact hg.regime.shape
  case logged =>
    intro w log
    have hnext := hg.regime.logged w log
    exact ⟨hnext, fun hw => hw.step hg hnext (memory.outside w w.manager log)⟩
  case identity => exact fun hw => hg.regime.identity hw.upholds.state
  case intern =>
    intro w t u m hw ht h
    obtain ⟨hnext, hcanonical⟩ := hg.regime.intern hw.upholds.state ht h
    exact ⟨hmanaged hnext, hcanonical⟩
  case internValue =>
    intro w v u m hw hv h
    obtain ⟨hnext, hcanonical⟩ := hg.regime.internValue hw.upholds.state hv h
    exact ⟨hmanaged hnext, hcanonical⟩
  case craft =>
    intro w action f code outcome m hw hf hcode h
    obtain ⟨hnext, htakes⟩ := hg.regime.craft hw.upholds.state hf hcode h
    exact ⟨hmanaged hnext, htakes⟩

theorem Upholds.takes (hc : c.Upholds g) {t : Transformer} (ht : c.MayShare g t) :
    g.Takes c.workspace t := by
  rcases ht with hgot | hadmits
  · exact ⟨.inr (.inl (hc.got _ hgot).1), (hc.got _ hgot).2⟩
  · exact ⟨.inr (.inr hadmits), hg.admits hadmits⟩

/-- An operation starts with what the client got. -/
theorem Upholds.continues (hc : c.Upholds g) (hmemory : ∀ i ∈ memory.items c.workspace, i ∈ c.got) :
    c.Continues g memory c.workspace := by
  refine ⟨⟨hc.state, fun i hi => ?_⟩, hg.regime.refl _⟩
  rcases List.mem_append.mp hi with hi | hi
  · exact hc.got i (hmemory i hi)
  · exact hc.got i hi

/-- An errand that leads the client on lets the operation go on. -/
theorem Continues.governs {x : Work (List Transformer)} (h : c.Continues g memory w)
    (hd : d.Upholds g) (hbefore : (c.resume memory w).Before g d) (hends : d.Ends g memory x w) :
    (c.during g memory).Governs w x fun l w' => ∀ t ∈ l, g.Takes w' t := by
  have hnext : (c.during g memory).next w d.workspace := by
    refine ⟨hbefore.next, fun _ => ⟨⟨hd.state, fun i hi => hd.got i ?_⟩, ?_⟩⟩
    · rcases List.mem_append.mp hi with hi | hi
      · exact hends.remembered i hi
      · exact hbefore.got i (List.mem_append_right _ hi)
    · exact hg.regime.trans h.next hbefore.next
  constructor
  · intro l w' hreturns
    obtain rfl : d.workspace = w' := hends.workspace.symm.trans (congrArg Prod.snd hreturns)
    refine ⟨hnext, fun t ht => hd.takes hg ?_⟩
    exact hends.provided (congrArg Prod.fst hreturns) t ht
  · rintro w' ⟨fault, hrun⟩
    obtain rfl : d.workspace = w' := hends.workspace.symm.trans (congrArg Prod.snd hrun)
    exact hnext

omit hg in
/-- A resolver keeps to the rules if its errands do. -/
theorem respects_during {r : Resolver} (h : ∀ w (e : Errand), c.Continues g memory w → e.Due r →
    (c.during g memory).Governs w (e.perform r) fun l w' => ∀ t ∈ l, g.Takes w' t) :
    r.Respects (c.during g memory) := by
  constructor
  · intro w point symbol v hw hresult
    have hdone := h w (.finalize v) hw ⟨point, symbol, hresult⟩
    refine ⟨fun hreturns =>
      ⟨(hdone.returns (Work.returns_bind.mpr ⟨_, _, hreturns, rfl⟩)).1, trivial⟩,
      fun hstops => hdone.stops (Work.stops_bind.mpr (.inl hstops))⟩
  · intro w provide hw hprovider type
    have hdone := h w (.provide type) hw (by simp [Errand.Due, hprovider])
    rw [Errand.perform, hprovider] at hdone
    refine ⟨fun hreturns => ?_, fun hstops => hdone.stops (Work.stops_bind.mpr (.inl hstops))⟩
    obtain ⟨hnext, htakes⟩ := hdone.returns (Work.returns_bind.mpr ⟨_, _, hreturns, rfl⟩)
    exact ⟨hnext, htakes _ (List.mem_singleton_self _)⟩

omit hg in
/-- **The client after an operation.** -/
theorem upholds_after (hc : c.Continues g memory c.workspace) {x : Work (List Item)}
    (hx : (c.during g memory).Governs c.workspace x fun returned w' =>
      ∀ i ∈ returned, g.Good w' i) :
    (c.after memory x).Upholds g ∧ c.Before g (c.after memory x) := by
  unfold after
  split
  · rename_i returned w hrun
    obtain ⟨hnext, hreturned⟩ := hx.returns hrun
    have hcontinues := hnext.2 hc
    refine ⟨⟨hcontinues.upholds.state, fun i hi => ?_⟩, hnext.1, fun i hi => ?_⟩
    · rcases List.mem_append.mp hi with hi | hi
      · exact hreturned i hi
      · exact hcontinues.upholds.got i hi
    · exact List.mem_append_right _ (List.mem_append_right _ hi)
  · rename_i fault w hrun
    have hnext := hx.stops ⟨fault, hrun⟩
    exact ⟨(hnext.2 hc).upholds, hnext.1, fun i hi => List.mem_append_right _ hi⟩

theorem Before.trans (h : b.Before g c) (h' : c.Before g d) : b.Before g d :=
  ⟨hg.regime.trans h.next h'.next, fun i hi => h'.got i (h.got i hi)⟩

/-- **Along every chain of operations**, all is as the rules want it, and the client loses
nothing. -/
theorem upholds_of_leads (h : Leads g b c) (hb : b.Upholds g) : c.Upholds g ∧ b.Before g c := by
  induction h with
  | refl => exact ⟨hb, hg.regime.refl _, fun _ hi => hi⟩
  | @move b c _ w hw ih =>
    obtain ⟨hc, hbefore⟩ := ih hb
    have hnext : g.next c.workspace w := hg.moves hc.state hw
    have hmoved : Upholds g ⟨w, c.got⟩ :=
      ⟨hg.regime.state hc.state hnext, fun i hi => (hc.got i hi).mono hg.regime hnext⟩
    exact ⟨hmoved, hbefore.trans hg ⟨hnext, fun _ hi => hi⟩⟩
  | @request b c _ q hq ih =>
    obtain ⟨hc, hbefore⟩ := ih hb
    have hstart : c.Continues g .none c.workspace :=
      hc.continues hg fun i hi => absurd hi List.not_mem_nil
    obtain ⟨hafter, hgrown⟩ := upholds_after hstart (Request.governs_perform
      (lawful_during hg c .none) hstart (fun i hi => hc.got i (hq.operands i hi))
      (fun t ht => hc.takes hg (hq.shared t ht))
      (fun set steps hv => hg.defers (hq.deferred set steps hv)))
    exact ⟨hafter, hbefore.trans hg hgrown⟩
  | @inquire b c _ q hq r memory done hmemory _ hdone ih iherrand =>
    obtain ⟨hc, hbefore⟩ := ih hb
    have hstart := hc.continues hg hmemory
    -- The induction hypotheses are about the errands in the middle of the operation.
    have hrespects : r.Respects (c.during g memory) := by
      refine respects_during fun w e hw hdue => ?_
      obtain ⟨hd, hled⟩ := iherrand w e hw hdue hw.upholds
      exact hw.governs hg hd hled (hdone w e hw hdue)
    obtain ⟨hafter, hgrown⟩ := upholds_after hstart (Inquiry.governs_perform
      (lawful_during hg c memory) hstart hrespects fun i hi => hc.got i (hq i hi))
    exact ⟨hafter, hbefore.trans hg hgrown⟩

end Client

end FieldFlow
