import FieldFlow.Proofs.Clients

/-!
# Canonical instances

Whatever the hash function is, and whatever factories are registered, all that a client gets is the
canonical instance of its contents, and instances are never replaced.

The shortcuts of composition hand an operand back, so this rests on operands that the client got
before.  What was made elsewhere, by a factory or by what provides transformers for unknown values,
is interned.  It may have a serial number, as an object has that is kept outside the pool; then the
number must not be that of something else.  The code of a factory may use the pool, too, as long as
it only interns, gives out serial numbers and keeps objects.

Main definitions: `Factory.Tame`, `canonicity`, `Client.Works`.
Main results: `lawful_canonicity`, `Client.instances_canonical`.
-/

namespace FieldFlow

/-- Where serial numbers tell things apart, the code does nothing to the bench but intern, give out
serial numbers and keep objects, and what it makes has no serial number that belongs to something
else. -/
def Craft.Tame (code : Craft Transformer) : Prop :=
  ∀ b outcome b', b.pool.Numbered → b.Proper → Yields code.run b outcome b' →
    (∃ keys, b.Interns keys b') ∧ ∀ t, outcome = .ok t → b'.Admits (.transformer t)

/-- All code of the factory is tame. -/
def Factory.Tame (f : Factory) : Prop := ∀ action code, f.Runs action code → code.Tame

/-- The default factories are tame: they leave the bench alone, and what they make is new. -/
theorem Factory.tame_of_defaults {entry : String × Factory} (h : entry ∈ defaults) :
    entry.2.Tame := by
  intro action code hcode b outcome b' _ _ hrun
  obtain ⟨hsteady, hnew⟩ := hcode.of_defaults h
  obtain ⟨rfl, rfl⟩ := Yields.unique (hsteady b) hrun
  exact ⟨⟨[], .refl⟩, fun t ht => Bench.admits_new (hnew t ht)⟩

namespace Manager

variable {m m' m'' : Manager}

/-- The manager is orderly, serial numbers tell apart what is kept, and its factories are tame. -/
structure Reliable (m : Manager) : Prop extends m.Orderly where
  proper : m.bench.Proper
  registers : m.Registers Factory.Tame

/-- The second manager is what the first becomes by interning, if its factories stay tame. -/
structure Advances (m m' : Manager) : Prop where
  bench : ∃ keys, m.bench.Interns keys m'.bench
  identity : m'.identity = m.identity
  registers : m.Registers Factory.Tame → m'.Registers Factory.Tame

namespace Advances

theorem refl (m : Manager) : m.Advances m := ⟨⟨[], .refl⟩, rfl, id⟩

theorem trans (h : m.Advances m') (h' : m'.Advances m'') : m.Advances m'' := by
  obtain ⟨_, hkeys⟩ := h.bench
  obtain ⟨_, hkeys'⟩ := h'.bench
  exact ⟨⟨_, hkeys.trans hkeys'⟩, h'.identity.trans h.identity,
    fun hm => h'.registers (h.registers hm)⟩

theorem reliable (h : m.Advances m') (hm : m.Reliable) : m'.Reliable := by
  obtain ⟨_, hkeys⟩ := h.bench
  exact ⟨hm.toOrderly.grown h.bench h.identity, hkeys.proper hm.proper, h.registers hm.registers⟩

theorem found (h : m.Advances m') {k : String} {i : Item} (hi : m.pool.find? k = some i) :
    m'.pool.find? k = some i := by
  obtain ⟨_, hkeys⟩ := h.bench
  exact hkeys.pool.keeps.found hi

end Advances

theorem Evolves.advances (h : m.Evolves m') : m.Advances m' :=
  ⟨h.bench, h.identity, fun hm => by rwa [Registers, h.factories]⟩

theorem Reliable.craft (hm : m.Reliable) {code : Craft Transformer} (hcode : code.Tame)
    {outcome : Except Fault Transformer} (h : Yields (craft code).run m outcome m') :
    m.Advances m' ∧ ∀ t, outcome = .ok t → m'.bench.Admits (.transformer t) := by
  obtain ⟨hrun, hidentity, hfactories⟩ := craft_spec h
  obtain ⟨hinterns, hadmits⟩ := hcode _ _ _ hm.pool hm.proper hrun
  exact ⟨⟨hinterns, hidentity, fun hregisters => by rwa [Registers, hfactories]⟩, hadmits⟩

/-- What may happen outside of operations advances a manager, if serial numbers go on telling apart
what is kept. -/
theorem Moves.advances (h : m.Moves Factory.Tame m') (hproper : m'.bench.Proper) :
    m.Advances m' := by
  refine ⟨?_, ?_, fun hm => hm.moves h⟩
  · cases h with
    | stay => exact ⟨[], .refl⟩
    | issue => exact ⟨[], .issue .refl⟩
    | keep kept => exact ⟨[], .keep .refl kept hproper⟩
    | register action f hf => exact ⟨[], .refl⟩
  · cases h <;> rfl

end Manager

/-- What is handed out is expected to be canonical.  What was made elsewhere may be interned if its
serial number, should it have one, belongs to nothing else. -/
def canonicity : Rules where
  state w := w.manager.Reliable
  next w w' := w.manager.Advances w'.manager
  canonical w i := w.manager.pool.find? i.key = some i
  shaped _ := True
  admits w t := w.manager.bench.Admits (.transformer t)
  moves w w' := w.manager.Moves Factory.Tame w'.manager ∧ w'.manager.bench.Proper
  defers _ := True

/-- **The rules of canonicity are lawful.** -/
theorem lawful_canonicity : canonicity.Lawful where
  regime := {
    refl := fun w => .refl w.manager
    trans := .trans
    state := fun hw h => h.reliable hw
    canonical := fun hi h => h.found hi
    shape := Item.shape_true
    logged := fun w _ => .refl w.manager
    identity := fun hw => ⟨hw.identity, trivial⟩
    intern := by
      intro w t c m hw ht h
      have hadmits : w.manager.bench.Admits (.transformer t) := by
        rcases ht.1 with hnew | hfound | hadmits
        · exact Bench.admits_new hnew
        · exact Bench.admits_found hw.pool hw.proper hfound
        · exact hadmits
      obtain ⟨hevolves, hholds, _⟩ := Manager.intern_evolves hadmits h
      exact ⟨hevolves.advances, hholds⟩
    internValue := by
      intro w v u m hw hv h
      obtain ⟨hevolves, hfound, _⟩ := Manager.internValue_evolves hv h
      exact ⟨hevolves.advances, hfound⟩
    craft := by
      intro w action f code outcome m hw hf hcode h
      have htame := hw.registers _ (mem_of_lookup hf) action code hcode
      obtain ⟨hadvances, hadmits⟩ := hw.craft htame h
      exact ⟨hadvances, fun t ht => ⟨.inr (.inr (hadmits t ht)), trivial⟩⟩ }
  admits _ := trivial
  moves _ h := h.1.advances h.2
  defers _ _ := trivial

namespace Client

variable {b c d : Client} {w : Workspace} {hash : String → UInt64}

/-- A chain of operations, between which factories are registered and objects made outside the
pool. -/
def Works : Client → Client → Prop := Leads canonicity

/-- A client of a new manager has nothing yet. -/
theorem upholds_fresh (hash : String → UInt64) (w : Workspace) :
    (fresh hash w).Upholds canonicity := by
  refine ⟨⟨(Manager.create_interns hash).2, ?_, ?_⟩, fun i hi => absurd hi List.not_mem_nil⟩
  · exact fun t ht => absurd ht List.not_mem_nil
  · exact fun entry hentry => absurd hentry List.not_mem_nil

/-- Tame factories may be registered, as long as serial numbers tell apart what is kept. -/
theorem works_bindActions {l : List (String × Factory)} (hl : ∀ entry ∈ l, entry.2.Tame)
    (hc : c.manager.bench.Proper) :
    c.Works ⟨((Workspace.bindActions l).run c.workspace).2, c.got⟩ := by
  induction l generalizing c with
  | nil => exact .refl
  | cons entry rest ih =>
    obtain ⟨hentry, hrest⟩ := List.forall_mem_cons.mp hl
    have hmanager := manager_bindAction entry.1 entry.2 c.workspace
    have hproper :
        ((Workspace.bindAction entry.1 entry.2).run c.workspace).2.manager.bench.Proper := by
      rw [hmanager]
      exact hc
    have hbound : c.Works ⟨((Workspace.bindAction entry.1 entry.2).run c.workspace).2, c.got⟩ :=
      .move .refl _ ⟨hmanager ▸ .register entry.1 entry.2 hentry, hproper⟩
    exact hbound.trans (ih hrest hproper)

theorem works_equipped (hash : String → UInt64) (w : Workspace) :
    (fresh hash w).Works (equipped (.empty hash) w) :=
  works_bindActions (fun _ => Factory.tame_of_defaults) (upholds_fresh hash w).state.proper

/-- **Everything that a client gets is canonical.**  Whatever the hash function and the factories
are, after any chain of operations from a new manager on: what the client got is the instance that
the pool holds for its key; two such objects are the same exactly if they have the same contents; no
two instances share a key; the pool counts the different keys that were interned, in whatever way
the pool came about; and what was in the pool at an earlier time still is. -/
theorem instances_canonical (hc : (fresh hash w).Works c) (hd : c.Works d) :
    (∀ i ∈ d.got, d.pool.find? i.key = some i) ∧
    (∀ i ∈ d.got, ∀ j ∈ d.got,
      (i.serial = j.serial ↔ i.contents = j.contents) ∧ (i = j ↔ i.contents = j.contents)) ∧
    (d.pool.instances.map Item.key).Nodup ∧
    (∃ keys, (Pool.empty hash).Interns keys d.pool) ∧
    (∀ keys, (Pool.empty hash).Interns keys d.pool → d.pool.size = keys.toFinset.card) ∧
    ∀ k i, c.pool.find? k = some i → d.pool.find? k = some i := by
  obtain ⟨hupholds, hbefore⟩ := upholds_of_leads lawful_canonicity hc (upholds_fresh hash w)
  obtain ⟨hupholds', hbefore'⟩ := upholds_of_leads lawful_canonicity hd hupholds
  have hfound : ∀ i ∈ d.got, d.pool.find? i.key = some i := fun i hi => (hupholds'.got i hi).1
  obtain ⟨start, hstart⟩ := (Manager.create_interns hash).1
  obtain ⟨keys, hkeys⟩ := (hbefore.trans lawful_canonicity hbefore').next.bench
  have hinterns : (Pool.empty hash).Interns (keys ++ start) d.pool := hstart.trans hkeys.pool
  refine ⟨hfound, fun i hi j hj => ?_, (hinterns.tidy (Pool.tidy_empty hash)).nodup,
    ⟨_, hinterns⟩, fun _ h => h.size_eq, fun k i hi => hbefore'.next.found hi⟩
  have hequal : i = j ↔ i.contents = j.contents := by
    rw [← Item.key_eq_iff]
    exact ⟨congrArg Item.key, Pool.eq_of_key (hfound i hi) (hfound j hj)⟩
  refine ⟨?_, hequal⟩
  rw [← hequal]
  exact ⟨hupholds'.state.pool.eq_of_serial (hfound i hi) (hfound j hj), congrArg Item.serial⟩

/-! ## A factory with a memory, and a provider that does not intern -/

/-- A transformer that removes the element and adds it. -/
def swapping (x : Element) : Transformer :=
  .draft (some (.singleton x)) (some (.singleton x)) false none

/-- A factory that interns the transformer of each element and keeps another, and that hands out the
first that is kept. -/
def hoarding : Factory :=
  .custom
    (fun x => do
      let b ← get
      set (⟨(b.pool.intern (.transformer (swapping x))).2, b.kept ++ [swapping x]⟩ : Bench)
      return b.kept.headD (swapping x))
    fun ref => throw (.referenceOperand "hoard" ref)

theorem run_hoarding (action : String) (x : Element) (b : Bench) :
    (hoarding.ofLiteral action x).run.run b = (.ok (b.kept.headD (swapping x)),
      ⟨(b.pool.intern (.transformer (swapping x))).2, b.kept ++ [swapping x]⟩) := rfl

theorem tame_hoarding : hoarding.Tame := by
  rintro action _ (x | ref) b outcome b' _ hb h
  · rw [Yields, run_hoarding] at h
    obtain ⟨rfl, rfl⟩ := Prod.mk.inj h
    have hinterned := hb.intern (i := .transformer (swapping x)) (Bench.admits_new rfl)
    -- What is kept besides is new, so that it has no serial number.
    have hkept : ∀ t ∈ b.kept ++ [swapping x], t.serial ≠ 0 → t ∈ b.kept := by
      intro t ht hserial
      rcases List.mem_append.mp ht with ht | ht
      · exact ht
      · exact absurd (congrArg Transformer.serial (List.mem_singleton.mp ht)) hserial
    have hproper : Bench.Proper
        ⟨(b.pool.intern (.transformer (swapping x))).2, b.kept ++ [swapping x]⟩ := by
      intro t ht hserial
      obtain ⟨hle, hown, hothers⟩ := hinterned t (hkept t ht hserial) hserial
      refine ⟨hle, hown, fun u hu hsame => hothers u (hkept u hu ?_) hsame⟩
      exact hsame.trans_ne hserial
    refine ⟨⟨_, .keep (.intern .refl (.transformer (swapping x)) (Bench.admits_new rfl)) _ hproper⟩,
      ?_⟩
    intro t ht
    obtain rfl := Except.ok.inj ht
    refine hproper _ ?_
    cases b.kept <;> simp
  · obtain ⟨rfl, rfl⟩ := Prod.mk.inj h
    exact ⟨⟨[], .refl⟩, fun t ht => by cases ht⟩

/-- A solver that uses the manager to finalize a value.  It knows one value; for the others a
transformer is provided that is not interned. -/
def asking (known : Propagation) (offered : Transformer) : Resolver where
  resultAt _ symbol := if symbol = .nil then some known else none
  finalize v := do
    let _ ← Work.managed (Manager.newConcrete [.nil])
    return some v
  provider := some fun _ => do
    let _ ← Work.managed (Manager.newConcrete [.nil])
    return offered

/-- A client may ask this resolver for anything. -/
theorem works_asking (known : Propagation) {offered : Transformer} (hoffered : offered.serial = 0)
    {q : Inquiry} (hq : ∀ i ∈ q.operands, i ∈ c.got) :
    c.Works (c.after .none (q.perform (asking known offered))) := by
  refine .inquire .refl q hq (asking known offered) .none
    (fun w _ => (c.resume .none w).after .none (Request.concrete [.nil]).perform)
    (fun i hi => absurd hi List.not_mem_nil) ?_ ?_
  · intro w e _ _
    exact .request .refl (.concrete [.nil]) ⟨by simp [Request.operands], by simp, by simp⟩
  · intro w e _ _
    obtain ⟨u, m, hu⟩ := Yields.exists_run (Manager.newConcrete [.nil]) w.manager
    have hmade : (Request.concrete [.nil]).perform.Returns w [.value u] { w with manager := m } :=
      (Work.returns_managed_bind hu).mpr (Work.returns_pure.mpr ⟨rfl, rfl⟩)
    cases e with
    | finalize v =>
      have hfinalized : ((Errand.finalize v).perform (asking known offered)).Returns w []
          { w with manager := m } := Work.returns_bind.mpr ⟨some v, { w with manager := m },
            (Work.returns_managed_bind hu).mpr (Work.returns_pure.mpr ⟨rfl, rfl⟩), rfl⟩
      exact ends_after hfinalized hmade fun t ht => absurd ht List.not_mem_nil
    | provide type =>
      have hprovided : ((Errand.provide type).perform (asking known offered)).Returns w [offered]
          { w with manager := m } := Work.returns_bind.mpr ⟨offered, { w with manager := m },
            (Work.returns_managed_bind hu).mpr (Work.returns_pure.mpr ⟨rfl, rfl⟩), rfl⟩
      refine ends_after hprovided hmade fun t ht => .inr (Bench.admits_new ?_)
      rw [List.mem_singleton.mp ht]
      exact hoffered

/-- For an unknown value the client gets the canonical instance of what is provided. -/
theorem exists_mem_after_unknown (known : Propagation) (offered : Transformer)
    (field type op : String) :
    ∃ u, .transformer u ∈
      (c.after .none ((Inquiry.alternatives .nil (.string "x") field type op).perform
      (asking known offered))).got ∧ u.contents = offered.contents := by
  obtain ⟨v, m, hv⟩ := Yields.exists_run (Manager.newConcrete [.nil]) c.manager
  obtain ⟨u, m', hu⟩ := Yields.exists_run (Manager.intern offered) m
  have htop : ∀ log, ((asking known offered).top type).Returns { c.workspace with log := log } u
      { c.workspace with manager := m', log := log } := by
    intro log
    refine Work.returns_bind.mpr ⟨offered, { c.workspace with manager := m, log := log }, ?_, ?_⟩
    · exact (Work.returns_managed_bind (w := { c.workspace with log := log }) hv).mpr
        (Work.returns_pure.mpr ⟨rfl, rfl⟩)
    · exact Work.returns_managed.mpr ⟨m', hu, rfl⟩
  have hresult : (asking known offered).resultAt .nil (.string "x") = none := by simp [asking]
  obtain ⟨log, hfound⟩ := Resolver.exists_alternatives_of_unknown
    { c.workspace with manager := m' } hresult htop field op
  have hreturns : ((Inquiry.alternatives .nil (.string "x") field type op).perform
      (asking known offered)).Returns c.workspace [.transformer u] _ :=
    Work.returns_bind.mpr ⟨_, _, Work.returns_lift.mpr hfound, Work.returns_pure.mpr ⟨rfl, rfl⟩⟩
  refine ⟨u, ?_, (Manager.intern_canonical hu).2.2.2⟩
  rw [after_of_returns hreturns]
  exact List.mem_cons_self

/-- An object that is kept outside the pool, with the next serial number. -/
def keepsake (p : Pool) : Transformer := { swapping (.string "k") with serial := p.issued + 1 }

/-- A client makes an object outside the pool and registers the factory that keeps it. -/
theorem exists_works_hoarding (hb : b.Upholds canonicity) (hnone : b.manager.kept = []) :
    ∃ c, b.Works c ∧ c.manager.factory? "hoard" = some hoarding ∧
      c.manager.kept = [keepsake b.pool] := by
  have hproper : Bench.Proper ⟨b.pool.issue.2, [keepsake b.pool]⟩ := by
    intro t ht _
    obtain rfl := List.mem_singleton.mp ht
    refine ⟨Nat.le_refl _, fun hj hsame => ?_, fun u hu _ => ?_⟩
    · -- The serial number had not been given out before.
      have hle := (hb.state.pool.issued hj).2
      rw [hsame] at hle
      exact absurd hle (Nat.not_succ_le_self _)
    · rw [List.mem_singleton.mp hu]
  obtain ⟨c, hc, hbench⟩ : ∃ c, b.Works c ∧
      c.manager.bench = ⟨b.pool.issue.2, [keepsake b.pool]⟩ := by
    have hissue : canonicity.moves b.workspace
        { b.workspace with manager := { b.manager with pool := b.pool.issue.2 } } := by
      refine ⟨.issue, fun t ht => ?_⟩
      rw [Manager.bench, hnone] at ht
      exact absurd ht List.not_mem_nil
    refine ⟨_, .move (.move .refl _ hissue) { b.workspace with manager := { b.manager with
      pool := b.pool.issue.2, kept := [keepsake b.pool] } } ?_, rfl⟩
    exact ⟨.keep _, hproper⟩
  have hmanager := manager_bindAction "hoard" hoarding c.workspace
  refine ⟨_, .move hc ((Workspace.bindAction "hoard" hoarding).run c.workspace).2 ?_, ?_, ?_⟩
  · refine ⟨hmanager ▸ .register "hoard" hoarding tame_hoarding, ?_⟩
    rw [hmanager, show (c.manager.bind "hoard" hoarding).bench = _ from hbench]
    exact hproper
  · rw [manager, hmanager]
    simp [Manager.factory?, Manager.bind]
  · rw [manager, hmanager]
    exact congrArg Bench.kept hbench

/-- A client that asks this factory gets the canonical instance of the first object that is kept. -/
theorem exists_mem_after_hoard {t : Transformer} {kept : List Transformer}
    (hf : c.manager.factory? "hoard" = some hoarding) (hkept : c.manager.kept = t :: kept)
    (x : Element) :
    ∃ u, .transformer u ∈ (c.after .none (Request.literal "hoard" x).perform).got ∧
      u.contents = t.contents := by
  obtain ⟨m₁, hcraft⟩ : ∃ m₁,
      Yields (Manager.craft (hoarding.ofLiteral "hoard" x)).run c.manager (.ok t) m₁ := by
    have hhead : c.manager.bench.kept.headD (swapping x) = t := by
      rw [Manager.bench, hkept]
      rfl
    rw [← hhead]
    exact ⟨_, rfl⟩
  obtain ⟨u, m, hu⟩ := Yields.exists_run (Manager.intern t) m₁
  have hmade : Yields (Manager.makeLiteral "hoard" x).run c.manager (.ok u) m :=
    Manager.yields_make hf hcraft hu
  have hreturns : (Request.literal "hoard" x).perform.Returns c.workspace [.transformer u]
      { c.workspace with manager := m } :=
    Work.returns_bind.mpr ⟨u, _, Work.returns_attempt.mpr ⟨m, hmade, rfl⟩,
      Work.returns_pure.mpr ⟨rfl, rfl⟩⟩
  refine ⟨u, ?_, (Manager.intern_canonical hu).2.2.2⟩
  rw [after_of_returns hreturns]
  exact List.mem_cons_self

/-- Keys that all collide, a factory with a memory that uses the pool and hands out an object with a
serial number, a solver that uses the manager in between, and a transformer for unknown values that
is not interned when it is provided. -/
theorem instances_canonical_colliding : ∃ c d : Client, ∃ t u : Transformer,
    (fresh (fun _ => 0) .create).Works c ∧ c.Works d ∧
    .transformer t ∈ c.got ∧ t.contents = swapping (.string "k") ∧
    .transformer u ∈ d.got ∧ u.contents = swapping (.string "u") ∧
    (∀ i ∈ d.got, d.pool.find? i.key = some i) ∧
    (∀ i ∈ d.got, ∀ j ∈ d.got,
      (i.serial = j.serial ↔ i.contents = j.contents) ∧ (i = j ↔ i.contents = j.contents)) ∧
    (d.pool.instances.map Item.key).Nodup ∧
    (∃ keys, (Pool.empty fun _ => 0).Interns keys d.pool) ∧
    (∀ keys, (Pool.empty fun _ => 0).Interns keys d.pool → d.pool.size = keys.toFinset.card) ∧
    ∀ k i, c.pool.find? k = some i → d.pool.find? k = some i := by
  have hcontents : ∀ x n, ({ swapping x with serial := n } : Transformer).contents = swapping x :=
    fun x n => Transformer.contents_draft _ _ _ _
  have hequipped := works_equipped (fun _ => 0) .create
  obtain ⟨hupholds, _⟩ := upholds_of_leads lawful_canonicity hequipped (upholds_fresh _ _)
  obtain ⟨b, hb, hf, hkept⟩ := exists_works_hoarding hupholds rfl
  obtain ⟨t, ht, htcontents⟩ := exists_mem_after_hoard hf hkept .nil
  have hc := (hequipped.trans hb).request (.literal "hoard" .nil)
    ⟨by simp [Request.operands], by simp, by simp⟩
  generalize b.after .none (Request.literal "hoard" .nil).perform = c at ht hc
  have hnew : (swapping (.string "u")).serial = 0 := rfl
  have hknown : c.Works _ := works_asking (.paths 0 .empty) hnew
    (q := .alternatives .nil .nil "" "" "add") (by simp [Inquiry.operands])
  obtain ⟨u, hu, hucontents⟩ := exists_mem_after_unknown (.paths 0 .empty)
    (swapping (.string "u")) "" "" "add"
  have hd : c.Works _ := hknown.trans (works_asking (.paths 0 .empty) hnew
    (q := .alternatives .nil (.string "x") "" "" "add") (by simp [Inquiry.operands]))
  exact ⟨c, _, t, u, hc, hd, ht, htcontents.trans (hcontents _ _), hu,
    hucontents.trans (hcontents _ 0), instances_canonical hc hd⟩

end Client

end FieldFlow
