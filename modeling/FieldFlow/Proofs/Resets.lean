import FieldFlow.Proofs.Clients

/-!
# Clients that empty the pool

A client may empty the pool between two pieces of work.  What it got before is not canonical any
more, and it should not hand that to later operations.  The manager, however, hands out its identity
as before, and the pool no longer holds it. The next operation that makes a blank transformer
registers another instance, and from then on there are two.

So what operations return from one reset to the next is canonical, the identity apart; and the
identity is canonical, too, exactly as long as the pool holds it.  Of the factories nothing is asked
but that they do not empty the pool themselves: what is canonical is a matter of keys, not of serial
numbers.

Main definitions: `tending`, `Client.Uses`, `Client.forget`, `Client.Tended`.
Main results: `lawful_tending`, `Client.tended_of_lasts`, `Client.canonical_iff_holds_identity`.
-/

namespace FieldFlow

open Relation

namespace Transformer

variable {t u : Transformer}

/-- A blank transformer has nothing but its serial number. -/
theorem eq_blank_withSerial (h : t.contents = .blank) : t = { blank with serial := t.serial } := by
  rw [contents_eq] at h
  obtain ⟨serial, add, remove, clear, sequence⟩ := t
  injection h with _ hadd hremove hclear hsequence
  cases sequence with
  | none => exact (Transformer.mk.injEq ..).mpr ⟨rfl, hadd, hremove, hclear, rfl⟩
  | some steps => cases hsequence

/-- Blank transformers differ in their serial numbers only. -/
theorem eq_of_blank (ht : t.contents = .blank) (hu : u.contents = .blank)
    (h : t.serial = u.serial) : t = u := by
  rw [eq_blank_withSerial ht, eq_blank_withSerial hu, h]

/-- The edits of a blank transformer are blank. -/
theorem edits_of_blank (h : t.contents = .blank) : t.edits = .blank := by
  rw [eq_blank_withSerial h]
  rfl

end Transformer

/-- All code of the factory does nothing to the pool but intern and give out serial numbers. -/
def Factory.Mild (f : Factory) : Prop :=
  ∀ action code, f.Runs action code →
    ∀ b : Bench, ∃ keys, b.pool.Interns keys (code.run.run b).2.pool

namespace Manager

variable {m m' m'' : Manager}

/-- The identity is blank and has a serial number that was given out, and the factories are mild. -/
structure Tended (m : Manager) : Prop where
  blank : m.identity.contents = .blank
  numbered : 0 < m.identity.serial ∧ m.identity.serial ≤ m.pool.issued
  registers : m.Registers Factory.Mild

/-- The second manager is the first one with a pool that has grown; its factories stay mild. -/
structure Keeps (m m' : Manager) : Prop where
  pool : m.pool.Extends m'.pool
  identity : m'.identity = m.identity
  registers : m.Registers Factory.Mild → m'.Registers Factory.Mild

/-- The item is canonical, or it is the identity. -/
def Vouches (m : Manager) (i : Item) : Prop :=
  m.pool.find? i.key = some i ∨ i = .transformer m.identity

theorem Keeps.refl (m : Manager) : m.Keeps m := ⟨.refl _, rfl, id⟩

theorem Keeps.trans (h : m.Keeps m') (h' : m'.Keeps m'') : m.Keeps m'' :=
  ⟨h.pool.trans h'.pool, h'.identity.trans h.identity, fun hm => h'.registers (h.registers hm)⟩

theorem Keeps.tended (h : m.Keeps m') (hm : m.Tended) : m'.Tended := by
  refine ⟨?_, ?_, h.registers hm.registers⟩
  · rw [h.identity]
    exact hm.blank
  · rw [h.identity]
    exact ⟨hm.numbered.1, hm.numbered.2.trans h.pool.issued⟩

/-- What was canonical or the identity stays so. -/
theorem Keeps.vouches {i : Item} (h : m.Keeps m') (hi : m.Vouches i) : m'.Vouches i := by
  rw [Vouches, h.identity]
  exact hi.imp_left h.pool.found

/-- Interning an item keeps all instances, whatever its serial number is. -/
theorem keeps_intern (m : Manager) (i : Item) : m.Keeps { m with pool := (m.pool.intern i).2 } :=
  ⟨Pool.extends_intern _ _, rfl, id⟩

/-- What may happen outside of operations keeps all instances. -/
theorem Moves.keeps (h : m.Moves Factory.Mild m') : m.Keeps m' := by
  refine ⟨?_, ?_, fun hm => hm.moves h⟩
  · cases h with
    | issue => exact Pool.extends_issue _
    | stay | keep | register => exact .refl _
  · cases h <;> rfl

end Manager

/-- What is handed out is expected to be canonical, or to be the identity.  Whatever was made
elsewhere may be interned. -/
def tending : Rules where
  state w := w.manager.Tended
  next w w' := w.manager.Keeps w'.manager
  canonical w i := w.manager.Vouches i
  shaped _ := True
  admits _ _ := True
  moves w w' := w.manager.Moves Factory.Mild w'.manager
  defers _ := True

/-- **The rules of tending are lawful.**  What is canonical is a matter of keys, so that it makes no
difference which serial numbers things have. -/
theorem lawful_tending : tending.Lawful where
  regime := {
    refl := fun w => .refl w.manager
    trans := .trans
    state := fun hw h => h.tended hw
    canonical := fun hi h => h.vouches hi
    shape := Item.shape_true
    logged := fun w _ => .refl w.manager
    identity := fun _ => ⟨.inr rfl, trivial⟩
    intern := by
      intro w t c m _ _ h
      obtain ⟨rfl, _, hholds, _⟩ := Manager.intern_canonical h
      exact ⟨Manager.keeps_intern _ _, .inl hholds⟩
    internValue := by
      intro w v u m _ _ h
      obtain ⟨rfl, hfound, _⟩ := Manager.internValue_canonical h
      exact ⟨Manager.keeps_intern _ _, .inl hfound⟩
    craft := by
      intro w action f code outcome m hw hf hcode h
      obtain ⟨hrun, hidentity, hfactories⟩ := Manager.craft_spec h
      obtain ⟨_, hkeys⟩ := hw.registers _ (mem_of_lookup hf) action code hcode w.manager.bench
      rw [show _ = _ from hrun] at hkeys
      refine ⟨⟨hkeys.keeps, hidentity, fun hregisters => ?_⟩,
        fun t _ => ⟨.inr (.inr trivial), trivial⟩⟩
      rwa [Manager.Registers, hfactories] }
  admits _ := trivial
  moves _ h := h.keeps
  defers _ _ := trivial

namespace Client

variable {b c d : Client} {hash : String → UInt64} {w : Workspace} {i j : Item}

/-- The client with an emptied pool; it starts anew with what it gets. -/
def forget (c : Client) : Client :=
  ⟨{ c.workspace with manager := (Manager.resetPool.run c.manager).2 }, []⟩

/-- The client acts without emptying the pool. -/
def Uses : Client → Client → Prop := Leads tending

/-- The client acts, and empties the pool any number of times. -/
def Lasts : Client → Client → Prop := ReflTransGen fun c d => c.Uses d ∨ d = c.forget

/-- All that the client got since the pool was emptied is what the pool answers with, and the same
contents are the same object. -/
structure Canonical (c : Client) : Prop where
  interned : ∀ i ∈ c.got, (c.pool.intern i).1 = i
  identical : ∀ i ∈ c.got, ∀ j ∈ c.got, i.contents = j.contents → i = j

/-- Acting without emptying the pool is acting. -/
theorem Uses.lasts (h : c.Uses d) : c.Lasts d := .single (.inl h)

/-- All that the client got since the pool was emptied is canonical or is the identity. -/
def Tended (c : Client) : Prop := c.Upholds tending

/-- **Until the pool is emptied**, instances are kept, and what the client gets is canonical or the
identity. -/
theorem Tended.uses (hc : c.Tended) (h : c.Uses d) : d.Tended ∧ c.manager.Keeps d.manager ∧
    ∀ i ∈ c.got, i ∈ d.got := by
  obtain ⟨hd, hbefore⟩ := upholds_of_leads lawful_tending h hc
  exact ⟨hd, hbefore.next, hbefore.got⟩

/-- Emptying the pool leaves nothing to vouch for. -/
theorem Tended.forget (hc : c.Tended) : c.forget.Tended :=
  ⟨⟨hc.state.blank, hc.state.numbered, hc.state.registers⟩, fun _ hi => absurd hi List.not_mem_nil⟩

/-- A new client is tended, and its pool holds the identity. -/
theorem tended_fresh (hash : String → UInt64) (w : Workspace) :
    (fresh hash w).Tended ∧ (fresh hash w).pool.Holds (fresh hash w).manager.identity := by
  have horderly := (Manager.create_interns hash).2
  exact ⟨⟨⟨horderly.blank, horderly.pool.issued horderly.identity,
    fun _ hentry => absurd hentry List.not_mem_nil⟩, fun _ hi => absurd hi List.not_mem_nil⟩,
    horderly.identity⟩

/-- **However often the pool is emptied**, what the client got since then is canonical or the
identity. -/
theorem tended_of_lasts (h : (fresh hash w).Lasts c) : c.Tended := by
  induction h with
  | refl => exact (tended_fresh hash w).1
  | tail _ hnext ih =>
    rcases hnext with huses | rfl
    · exact (ih.uses huses).1
    · exact ih.forget

/-- What the client got is canonical or the identity. -/
theorem Tended.vouches (hc : c.Tended) (hi : i ∈ c.got) : c.manager.Vouches i := (hc.got i hi).1

/-- The pool goes on holding the identity. -/
theorem holds_identity (h : c.manager.Keeps d.manager) (hheld : c.pool.Holds c.manager.identity) :
    d.pool.Holds d.manager.identity := by
  rw [h.identity]
  exact hheld.mono h.pool

/-! ## The identity and other instances of the blank transformer -/

/-- What is canonical is the instance that the pool answers with. -/
theorem intern_eq_self (h : c.pool.find? i.key = some i) : (c.pool.intern i).1 = i := by
  rw [Pool.intern_of_some h]

theorem find?_forget (c : Client) (k : String) : c.forget.pool.find? k = none := by
  have hpool : c.forget.pool = c.pool.reset := rfl
  simp [hpool, Pool.reset, Pool.find?, Pool.bucket]

/-- An emptied pool does not hold the identity. -/
theorem not_holds_forget (c : Client) : ¬c.forget.pool.Holds c.forget.manager.identity := by
  intro hheld
  cases (find?_forget c _).symm.trans hheld

/-- A pool that does not hold the identity answers a new blank transformer with another instance. -/
theorem Tended.intern_blank_ne (hc : c.Tended) (hheld : ¬c.pool.Holds c.manager.identity) :
    (c.pool.intern (.transformer .blank)).1 ≠ .transformer c.manager.identity := by
  intro hanswer
  rcases Pool.intern_cases c.pool (.transformer .blank) with ⟨j, hj, heq⟩ |
    ⟨_, j, _, hnext, heq⟩ | ⟨_, hne, _⟩
  · rw [heq] at hanswer
    obtain rfl : j = .transformer c.manager.identity := hanswer
    rw [← Pool.key_of_find? hj] at hj
    exact hheld hj
  · -- The serial number of the identity would have been given out a second time.
    rw [heq] at hanswer
    obtain rfl : j = .transformer c.manager.identity := hanswer
    have hle := hc.state.numbered.2
    rw [show c.manager.identity.serial = c.pool.issued + 1 from hnext] at hle
    exact absurd hle (Nat.not_succ_le_self _)
  · exact hne rfl

/-- **The identity is displaced** while the pool does not hold it: the edits of the identity are
another instance of the blank transformer. -/
theorem Tended.exists_displaced (hc : c.Tended) (hheld : ¬c.pool.Holds c.manager.identity) :
    ∃ d t, c.Uses d ∧ .transformer d.manager.identity ∈ d.got ∧ .transformer t ∈ d.got ∧
      t.contents = d.manager.identity.contents ∧ t.serial ≠ d.manager.identity.serial ∧
      (d.pool.intern (.transformer d.manager.identity)).1 = .transformer t := by
  obtain ⟨t, m, ht⟩ := Yields.exists_run (Manager.nonComposed c.manager.identity) c.manager
  have hidentity :
      Request.identity.perform.Returns c.workspace [.transformer c.manager.identity] c.workspace :=
      rfl
  have hedits : (Request.edits c.manager.identity).perform.Returns c.workspace [.transformer t]
      { c.workspace with manager := m } :=
    (Work.returns_managed_bind ht).mpr (Work.returns_pure.mpr ⟨rfl, rfl⟩)
  have huses : c.Uses ⟨{ c.workspace with manager := m },
      .transformer t :: .transformer c.manager.identity :: c.got⟩ := by
    have hfirst := Leads.request_returns (g := tending) .refl
      ⟨by simp [Request.operands], by simp, by simp⟩ hidentity
    exact hfirst.request_returns ⟨by simp [Request.operands], by simp, by simp⟩ hedits
  obtain ⟨rfl, hanswer, hholds, hcontents⟩ := Manager.intern_canonical ht
  rw [Transformer.edits_of_blank hc.state.blank] at hanswer hcontents
  have hkey : t.key = c.manager.identity.key :=
    Transformer.key_eq_iff.mpr (hcontents.trans hc.state.blank.symm)
  refine ⟨_, t, huses, by simp, by simp, hcontents.trans hc.state.blank.symm, fun hserial => ?_, ?_⟩
  · rw [Transformer.eq_of_blank hcontents hc.state.blank hserial] at hanswer
    exact hc.intern_blank_ne hheld hanswer
  · rw [Pool.intern_of_some (j := .transformer t)]
    rw [Item.key, ← hkey]
    exact hholds

/-- Two objects with the same contents are the same, unless one of them is the identity. -/
theorem Tended.eq_of_contents (hc : c.Tended) (hi : i ∈ c.got) (hj : j ∈ c.got)
    (h : i.contents = j.contents) :
    i = j ∨ i = .transformer c.manager.identity ∨ j = .transformer c.manager.identity := by
  rcases hc.vouches hi with hfoundi | rfl
  · rcases hc.vouches hj with hfoundj | rfl
    · exact .inl (Pool.eq_of_key hfoundi hfoundj (Item.key_eq_iff.mpr h))
    · exact .inr (.inr rfl)
  · exact .inr (.inl rfl)

/-- Everything is canonical while the pool holds the identity. -/
theorem Tended.canonical (hc : c.Tended) (hheld : c.pool.Holds c.manager.identity) :
    c.Canonical := by
  have hfound : ∀ i ∈ c.got, c.pool.find? i.key = some i := by
    intro i hi
    rcases hc.vouches hi with hfound | rfl
    · exact hfound
    · exact hheld
  exact ⟨fun i hi => intern_eq_self (hfound i hi),
    fun i hi j hj h => Pool.eq_of_key (hfound i hi) (hfound j hj) (Item.key_eq_iff.mpr h)⟩

/-- Interning the identity first makes an emptied pool hold it again. -/
theorem Tended.exists_restored (hc : c.Tended) :
    ∃ d, c.forget.Uses d ∧ d.pool.Holds d.manager.identity := by
  obtain ⟨t, m, ht⟩ := Yields.exists_run (Manager.intern c.manager.identity) c.forget.manager
  have hshare : (Request.share c.manager.identity).perform.Returns c.forget.workspace
      [.transformer t]
      { c.forget.workspace with manager := m } :=
    (Work.returns_managed_bind ht).mpr (Work.returns_pure.mpr ⟨rfl, rfl⟩)
  refine ⟨_, Leads.request_returns (g := tending) .refl
    ⟨by simp [Request.operands], fun _ _ => .inr trivial, by simp⟩ hshare, ?_⟩
  obtain ⟨rfl, hanswer, hholds, _⟩ := Manager.intern_canonical ht
  have hserial : Item.serial (.transformer c.manager.identity) ≠ 0 :=
    Nat.ne_of_gt hc.state.numbered.1
  rw [Pool.intern_of_numbered (find?_forget c _) hserial] at hanswer
  obtain rfl : c.manager.identity = t := Item.transformer.inj hanswer
  exact hholds

/-- **Canonicity and emptied pools.**  Let a client act and empty the pool any number of times, and
look at what operations returned since the pool was emptied last.  Until it is emptied again, the
pool answers each of these objects with the object itself, the identity apart, and two with the same
contents are the same unless one of them is the identity.  All of them are canonical until then, the
identity included, exactly if the pool holds the identity.  It does as long as it is never emptied;
emptied, it does not, and it does again if the identity is interned first. -/
theorem canonical_iff_holds_identity (hc : (fresh hash w).Lasts c) :
    (∀ d, c.Uses d → d.manager.identity = c.manager.identity ∧
      (∀ i ∈ c.got, i ≠ .transformer c.manager.identity → (d.pool.intern i).1 = i) ∧
      ∀ i ∈ d.got, ∀ j ∈ d.got, i.contents = j.contents →
        i = j ∨ i = .transformer c.manager.identity ∨ j = .transformer c.manager.identity) ∧
    (c.pool.Holds c.manager.identity ↔ ∀ d, c.Uses d → d.Canonical) ∧
    ((fresh hash w).Uses c → c.pool.Holds c.manager.identity) ∧
    ¬c.forget.pool.Holds c.forget.manager.identity ∧
    ∃ d, c.forget.Uses d ∧ d.pool.Holds d.manager.identity := by
  have htended := tended_of_lasts hc
  refine ⟨fun d hd => ?_, ⟨fun hheld d hd => ?_, fun hcanonical => ?_⟩, fun huses => ?_,
    not_holds_forget c, htended.exists_restored⟩
  · obtain ⟨hd', hkeeps, hgot⟩ := htended.uses hd
    rw [← hkeeps.identity]
    refine ⟨rfl, fun i hi hne => ?_, fun i hi j hj => hd'.eq_of_contents hi hj⟩
    exact intern_eq_self ((hd'.vouches (hgot i hi)).resolve_right hne)
  · obtain ⟨hd', hkeeps, _⟩ := htended.uses hd
    exact hd'.canonical (holds_identity hkeeps hheld)
  · by_contra hheld
    obtain ⟨d, t, hd, hidentity, ht, hcontents, hserial, _⟩ := htended.exists_displaced hheld
    have hsame := (hcanonical d hd).identical _ ht _ hidentity (congrArg Item.transformer hcontents)
    exact hserial (congrArg Item.serial hsame)
  · obtain ⟨hfresh, hheld⟩ := tended_fresh hash w
    exact holds_identity (hfresh.uses huses).2.1 hheld

/-- A pool in which all keys collide is emptied, and a client gets the identity and its edits. -/
theorem canonical_iff_holds_identity_emptied :
    ∃ c : Client, (fresh (fun _ => 0) .create).Lasts c ∧ c.got ≠ [] ∧
    (∀ d, c.Uses d → d.manager.identity = c.manager.identity ∧
      (∀ i ∈ c.got, i ≠ .transformer c.manager.identity → (d.pool.intern i).1 = i) ∧
      ∀ i ∈ d.got, ∀ j ∈ d.got, i.contents = j.contents →
        i = j ∨ i = .transformer c.manager.identity ∨ j = .transformer c.manager.identity) ∧
    (c.pool.Holds c.manager.identity ↔ ∀ d, c.Uses d → d.Canonical) ∧
    ((fresh (fun _ => 0) .create).Uses c → c.pool.Holds c.manager.identity) ∧
    ¬c.forget.pool.Holds c.forget.manager.identity ∧
    ∃ d, c.forget.Uses d ∧ d.pool.Holds d.manager.identity := by
  have hfresh := (tended_fresh (fun _ => 0) .create).1
  obtain ⟨c, _, huses, hidentity, _⟩ := hfresh.forget.exists_displaced (not_holds_forget _)
  have hlasts : (fresh (fun _ => 0) .create).Lasts c := .head (.inr rfl) huses.lasts
  exact ⟨c, hlasts, List.ne_nil_of_mem hidentity, canonical_iff_holds_identity hlasts⟩

/-- After one reset, the identity and its edits have the same contents and are two objects, and the
pool answers the first of them with the second. -/
theorem identity_displaced : ∃ d t, (fresh (fun _ => 0) .create).forget.Uses d ∧
    .transformer d.manager.identity ∈ d.got ∧ .transformer t ∈ d.got ∧
      t.contents = d.manager.identity.contents ∧
    t.serial ≠ d.manager.identity.serial ∧
    (d.pool.intern (.transformer d.manager.identity)).1 = .transformer t := by
  have hfresh := (tended_fresh (fun _ => 0) .create).1
  exact hfresh.forget.exists_displaced (not_holds_forget _)

end Client

end FieldFlow
