import FieldFlow.Proofs.Joining
import Mathlib.Data.Option.NAry

/-!
# Propagation values as sets of paths

Up to equality a value is top or a set of what its paths hold.  To join two values is to unite their
sets, where top is the value whose set is missing, so joins have the laws of unions.  A value keeps
one path of each key, the first when paths are added and the last when values are joined; which one
does not show.

It does show in the values of a field, where instances are told apart.  If one pool gave out the
field values of all paths, then paths that count as equal hold the same instances, and the values of
a field over a join are those over the two values, each once and in order.

Main definitions: `Propagation.views`, `SamePaths`, `PathValue.Interned`.
Main results: `Propagation.equal_iff_views`, `Propagation.views_join`,
`Propagation.mem_valuesFor_join`, `Propagation.join_semilattice`.
-/

namespace FieldFlow

/-! ## Paths that count as equal -/

/-- Paths count as equal exactly if they hold the same. -/
theorem PathValue.equal_iff_view {p q : PathValue} : p.equal q = true ↔ p.view = q.view := by
  rw [equal_eq_true, ← key_eq_iff]
  exact ⟨view_eq_of_key, key_eq_of_view⟩

/-- The two lists have the same paths, up to equality, in whatever order and however often. -/
def SamePaths (ps qs : List PathValue) : Prop :=
  (∀ p ∈ ps, ∃ q ∈ qs, p.equal q = true) ∧ ∀ q ∈ qs, ∃ p ∈ ps, p.equal q = true

/-- What the paths of a list hold. -/
def viewsOf (ps : List PathValue) : Set View := {view | ∃ p ∈ ps, p.view = view}

/-- Two lists have the same paths exactly if their paths hold the same. -/
theorem samePaths_iff {ps qs : List PathValue} : SamePaths ps qs ↔ viewsOf ps = viewsOf qs := by
  simp only [SamePaths, PathValue.equal_iff_view]
  constructor
  · rintro ⟨hforth, hback⟩
    ext view
    constructor
    · rintro ⟨p, hp, rfl⟩
      obtain ⟨q, hq, hview⟩ := hforth p hp
      exact ⟨q, hq, hview.symm⟩
    · rintro ⟨q, hq, rfl⟩
      exact hback q hq
  · intro h
    constructor
    · intro p hp
      obtain ⟨q, hq, hview⟩ : p.view ∈ viewsOf qs := h ▸ ⟨p, hp, rfl⟩
      exact ⟨q, hq, hview.symm⟩
    · intro q hq
      exact (h ▸ ⟨q, hq, rfl⟩ : q.view ∈ viewsOf ps)

@[simp]
theorem viewsOf_nil : viewsOf [] = ∅ := by
  simp [viewsOf]

/-- The paths of two lists, one behind the other. -/
theorem viewsOf_append (ps qs : List PathValue) : viewsOf (ps ++ qs) = viewsOf ps ∪ viewsOf qs := by
  ext view
  show (∃ p ∈ ps ++ qs, p.view = view) ↔ (∃ p ∈ ps, p.view = view) ∨ ∃ p ∈ qs, p.view = view
  simp only [List.mem_append, or_and_right, exists_or]

namespace Propagation

/-! ## Values as sets -/

variable {a b : Propagation}

/-- What the paths of a value hold; nothing is known of top. -/
def views : Propagation → Option (Set View)
  | top => none
  | paths _ members => some (viewsOf members.toList)

theorem views_eq_some (h : a.isTop = false) : a.views = some (viewsOf a.toList) := by
  cases a with
  | top => cases h
  | paths => rfl

/-- **Values are equal** exactly if their paths hold the same. -/
theorem equal_iff_views : a.equal b = true ↔ a.views = b.views := by
  rw [equal_iff_sameKeys]
  cases a with
  | top =>
    cases b with
    | top => exact iff_of_true ⟨rfl, rfl⟩ rfl
    | paths => exact iff_of_false (fun h => nomatch h.isTop) (fun h => nomatch h)
  | paths n₁ first =>
    cases b with
    | top => exact iff_of_false (fun h => nomatch h.isTop) (fun h => nomatch h)
    | paths n₂ second =>
      have hviews : (paths n₁ first).views = (paths n₂ second).views ↔
          viewsOf first.toList = viewsOf second.toList :=
        Option.some_inj
      rw [hviews]
      constructor
      · intro h
        -- A key stands in both lists or in neither, and it tells what a path holds.
        have hsubset : ∀ {ps qs : List PathValue}, ps.map PathValue.key = qs.map PathValue.key →
            viewsOf ps ⊆ viewsOf qs := by
          rintro ps qs hkeys _ ⟨p, hp, rfl⟩
          obtain ⟨q, hq, hkey⟩ :=
            List.mem_map.mp (hkeys ▸ List.mem_map_of_mem hp : p.key ∈ qs.map PathValue.key)
          exact ⟨q, hq, PathValue.view_eq_of_key hkey⟩
        exact (hsubset h.keys).antisymm (hsubset h.keys.symm)
      · exact fun h => sameKeys_of_views rfl (Set.ext_iff.mp h)

/-- **The paths of a join** are those of both values. -/
@[simp]
theorem views_join (n : Nat) (a b : Propagation) :
    (a.join n b).views = Option.map₂ (· ∪ ·) a.views b.views := by
  cases hatop : a.isTop with
  | true =>
    cases a with
    | top => rfl
    | paths => cases hatop
  | false =>
    cases hbtop : b.isTop with
    | true =>
      cases b with
      | top => cases a <;> rfl
      | paths => cases hbtop
    | false =>
      have hjointop : (a.join n b).isTop = false := by simp [hatop, hbtop]
      rw [views_eq_some hatop, views_eq_some hbtop, views_eq_some hjointop]
      exact congrArg some (Set.ext fun view => exists_mem_join hatop hbtop (· = view))

/-- The paths of a listed value are those of the list. -/
@[simp]
theorem views_ofPaths (n : Nat) (ps : List PathValue) : (ofPaths n ps).views = some (viewsOf ps) :=
  congrArg some
    (Set.ext (Keyed.mem_ofList_keys PathValue.view fun _ _ _ _ => PathValue.view_eq_of_key))

theorem views_add (v : Propagation) (p : PathValue) :
    (v.add p).views = v.views.map (· ∪ viewsOf [p]) := by
  cases v with
  | top => rfl
  | paths n members =>
    have hview : ∀ view : View, ∀ q r : PathValue, q.key = r.key →
        (q.view = view ↔ r.view = view) :=
      fun view q r hkey => by rw [PathValue.view_eq_of_key hkey]
    exact congrArg some (Set.ext fun view => Keyed.exists_mem_union (hview view))

/-- Adding paths one after the other adds what they hold. -/
theorem views_foldl_add (v : Propagation) (ps : List PathValue) :
    (ps.foldl add v).views = v.views.map (· ∪ viewsOf ps) := by
  induction ps generalizing v with
  | nil => simp
  | cons p rest ih =>
    have hcons : viewsOf (p :: rest) = viewsOf [p] ∪ viewsOf rest := viewsOf_append [p] rest
    rw [List.foldl_cons, ih, views_add, Option.map_map, hcons]
    exact congrArg (Option.map · v.views) (funext fun s => Set.union_assoc s _ _)

end Propagation

/-! ## Values of a field -/

/-- The pool gave out the values of all fields. -/
def PathValue.Interned (pool : Pool) (p : PathValue) : Prop :=
  ∀ name v, p.entry? name = some (some v) → pool.find? v.key = some (.value v)

namespace PathValue

variable {pool : Pool} {p q : PathValue}

/-- The value of a field is an instance of the pool. -/
theorem Interned.find?_eq (hp : p.Interned pool) {field : String} {v : Value}
    (hv : p.value? field = some v) :
    pool.find? v.key = some (.value v) :=
  hp field v (Option.join_eq_some_iff.mp hv)

/-- Paths that hold the same hold the same instances. -/
theorem Interned.value?_eq (hp : p.Interned pool) (hq : q.Interned pool) (h : p.view = q.view)
    (field : String) :
    p.value? field = q.value? field := by
  have hentry : (p.entry? field).map (Option.map Value.contents) =
      (q.entry? field).map (Option.map Value.contents) :=
    congrFun h field
  have hcontents : (p.value? field).map Value.contents = (q.value? field).map Value.contents := by
    simpa [value?, Option.join_map_eq_map_join] using congrArg Option.join hentry
  cases hpv : p.value? field with
  | none => simpa [hpv, eq_comm] using hcontents
  | some v =>
    obtain ⟨u, hqv, hcontents⟩ : ∃ u, q.value? field = some u ∧ u.contents = v.contents := by
      simpa [hpv, eq_comm] using hcontents
    rw [hqv]
    exact congrArg some (Item.value.inj
      (Pool.eq_of_key (hp.find?_eq hpv) (hq.find?_eq hqv) (Value.key_eq_iff.mpr hcontents.symm)))

end PathValue

namespace Propagation

variable {a b : Propagation} {f : String} {n : Nat} {pool : Pool}

/-- Instances of one pool have different ranks. -/
theorem eq_of_rankOf {x y : Option Value}
    (hx : ∀ v, x = some v → pool.find? v.key = some (.value v))
    (hy : ∀ v, y = some v → pool.find? v.key = some (.value v)) (h : rankOf x = rankOf y) :
    x = y := by
  have hkey : (rankOf x).key = (rankOf y).key := congrArg Rank.key h
  cases x with
  | none =>
    cases y with
    | none => rfl
    | some v => exact absurd hkey (String.ne_of_lt v.empty_lt_key)
  | some u =>
    cases y with
    | none => exact absurd hkey.symm (String.ne_of_lt u.empty_lt_key)
    | some v => exact congrArg some (Item.value.inj (Pool.eq_of_key (hx u rfl) (hy v rfl) hkey))

/-- **The values of a field** are those that the paths have. -/
theorem mem_valuesFor (ha : ∀ p ∈ a.toList, p.Interned pool) {x : Option Value} :
    x ∈ a.valuesFor f ↔ ∃ p ∈ a.toList, p.value? f = x := by
  have hheld : ∀ y ∈ a.toList.map (·.value? f),
      ∀ v, y = some v → pool.find? v.key = some (.value v) := by
    rintro y hy v rfl
    obtain ⟨p, hp, hv⟩ := List.mem_map.mp hy
    exact (ha p hp).find?_eq hv
  have hsorted : (∃ y ∈ a.valuesFor f, id y = x) ↔ ∃ y ∈ a.toList.map (·.value? f), id y = x :=
    Ordered.mem_distinctBy_keys id (fun y hy z hz => eq_of_rankOf (hheld y hy) (hheld z hz)) x
  simpa using hsorted

/-- The paths of a join hold instances of the pool if those of the two values do. -/
theorem interned_join (n : Nat) (ha : ∀ p ∈ a.toList, p.Interned pool)
    (hb : ∀ p ∈ b.toList, p.Interned pool) :
    ∀ p ∈ (a.join n b).toList, p.Interned pool :=
  fun p hp => (mem_of_mem_join hp).elim (ha p) (hb p)

/-- **The values of a field over a join** are those over the two values. -/
theorem mem_valuesFor_join (hatop : a.isTop = false) (hbtop : b.isTop = false)
    (ha : ∀ p ∈ a.toList, p.Interned pool) (hb : ∀ p ∈ b.toList, p.Interned pool)
    {x : Option Value} :
    x ∈ (a.join n b).valuesFor f ↔ x ∈ a.valuesFor f ∨ x ∈ b.valuesFor f := by
  have hjoin := interned_join n ha hb
  rw [mem_valuesFor hjoin, mem_valuesFor ha, mem_valuesFor hb]
  constructor
  · rintro ⟨p, hp, hx⟩
    exact (mem_of_mem_join hp).imp (fun hp => ⟨p, hp, hx⟩) fun hp => ⟨p, hp, hx⟩
  · -- The join may have kept another path with the same key, which has the same instance.
    have hkept : ∀ p, p ∈ a.toList ∨ p ∈ b.toList →
        ∃ q ∈ (a.join n b).toList, q.value? f = p.value? f := by
      intro p hp
      obtain ⟨q, hq, hview⟩ := (exists_mem_join (n := n) hatop hbtop (· = p.view)).mpr
        (hp.imp (fun hp => ⟨p, hp, rfl⟩) fun hp => ⟨p, hp, rfl⟩)
      exact ⟨q, hq, (hjoin q hq).value?_eq (hp.elim (ha p) (hb p)) hview f⟩
    rintro (⟨p, hp, rfl⟩ | ⟨p, hp, rfl⟩)
    · exact hkept p (.inl hp)
    · exact hkept p (.inr hp)

/-- The values of a field stand in the order of their keys, each once, the missing one first. -/
theorem pairwise_valuesFor (ha : ∀ p ∈ a.toList, p.Interned pool) :
    (a.valuesFor f).Pairwise fun x y => x.map Value.key < y.map Value.key := by
  refine pairwise_sortValues fun u v hu hv hkey => ?_
  obtain ⟨p, hp, hpu⟩ := List.mem_map.mp hu
  obtain ⟨q, hq, hqv⟩ := List.mem_map.mp hv
  exact Item.value.inj (Pool.eq_of_key ((ha p hp).find?_eq hpu) ((ha q hq).find?_eq hqv) hkey)

/-! ## Laws -/

theorem equal_join {a' b' : Propagation} (ha : a.equal a' = true) (hb : b.equal b' = true)
    (n k : Nat) :
    (a.join n b).equal (a'.join k b') = true := by
  rw [equal_iff_views] at ha hb ⊢
  rw [views_join, views_join, ha, hb]

theorem equivalence_equal : Equivalence fun a b : Propagation => a.equal b = true := by
  simp only [equal_iff_views]
  exact ⟨fun _ => rfl, Eq.symm, Eq.trans⟩

/-- Values are equal if both are top, or if they hold the same paths. -/
theorem equal_iff_samePaths : a.equal b = true ↔ (a.isTop = true ∧ b.isTop = true) ∨
    (a.isTop = false ∧ b.isTop = false ∧ SamePaths a.toList b.toList) := by
  rw [equal_iff_views, samePaths_iff]
  cases a <;> cases b <;> simp [views, isTop, toList]

theorem equal_join_comm (a b : Propagation) (n k : Nat) :
    (a.join n b).equal (b.join k a) = true := by
  rw [equal_iff_views, views_join, views_join]
  exact Option.map₂_comm Set.union_comm

theorem equal_join_assoc (a b c : Propagation) (n k i j : Nat) :
    ((a.join n b).join k c).equal (a.join i (b.join j c)) = true := by
  simp only [equal_iff_views, views_join]
  exact Option.map₂_assoc Set.union_assoc

theorem equal_join_self (a : Propagation) (n : Nat) : (a.join n a).equal a = true := by
  rw [equal_iff_views, views_join]
  cases a.views <;> simp

theorem equal_join_nil (a : Propagation) (n k : Nat) :
    (a.join n (ofPaths k [])).equal a = true := by
  rw [equal_iff_views, views_join, views_ofPaths, viewsOf_nil]
  cases a.views <;> simp

theorem join_top (a : Propagation) (n : Nat) : a.join n top = top := by
  cases a <;> rfl

/-- Listed values are equal exactly if the lists have the same paths. -/
theorem equal_ofPaths {ps qs : List PathValue} {n k : Nat} :
    (ofPaths n ps).equal (ofPaths k qs) = true ↔ SamePaths ps qs := by
  rw [equal_iff_views, views_ofPaths, views_ofPaths, Option.some_inj, samePaths_iff]

/-- Adding the paths of a list one after the other makes the listed value. -/
theorem equal_foldl_add (ps : List PathValue) (n k : Nat) :
    (ps.foldl add (ofPaths n [])).equal (ofPaths k ps) = true := by
  rw [equal_iff_views, views_foldl_add, views_ofPaths, views_ofPaths, Option.map_some,
    ← viewsOf_append, List.nil_append]

theorem equal_join_ofPaths (ps qs : List PathValue) (n k i j : Nat) :
    ((ofPaths n ps).join k (ofPaths i qs)).equal (ofPaths j (ps ++ qs)) = true := by
  rw [equal_iff_views, views_join, views_ofPaths, views_ofPaths, views_ofPaths, viewsOf_append]
  rfl

/-- **Propagation values form a join semilattice of sets of paths.**  Two values are equal exactly
if both are top, or neither is and they hold the same paths, which is an equivalence.  Up to
equality joining respects equal values, is commutative, associative and idempotent, and has the
value without paths as its unit; top absorbs.  Values of listed paths are equal exactly if the lists
have the same paths, in whatever order and however often; adding the paths one after the other makes
the same value, and joining two listed values is listing both.  Where one pool gave out the field
values, the values of a field over a join are those over the two values, each once and in the order
of the keys. -/
theorem join_semilattice :
    (∀ a b : Propagation, a.equal b = true ↔ (a.isTop = true ∧ b.isTop = true) ∨
      (a.isTop = false ∧ b.isTop = false ∧ SamePaths a.toList b.toList)) ∧
    Equivalence (fun a b : Propagation => a.equal b = true) ∧
    (∀ (a b a' b' : Propagation) n k, a.equal a' = true → b.equal b' = true →
      (a.join n b).equal (a'.join k b') = true) ∧
    (∀ (a b : Propagation) n k, (a.join n b).equal (b.join k a) = true) ∧
    (∀ (a b c : Propagation) n k i j,
      ((a.join n b).join k c).equal (a.join i (b.join j c)) = true) ∧
    (∀ (a : Propagation) n, (a.join n a).equal a = true) ∧
    (∀ (a : Propagation) n k, ((ofPaths k []).join n a).equal a = true ∧
      (a.join n (ofPaths k [])).equal a = true) ∧
    (∀ (a : Propagation) n, top.join n a = top ∧ a.join n top = top) ∧
    (∀ ps qs n k, (ofPaths n ps).equal (ofPaths k qs) = true ↔ SamePaths ps qs) ∧
    (∀ (ps : List PathValue) n k, (ps.foldl add (ofPaths n [])).equal (ofPaths k ps) = true) ∧
    (∀ ps qs n k i j, ((ofPaths n ps).join k (ofPaths i qs)).equal (ofPaths j (ps ++ qs)) = true) ∧
    ∀ (pool : Pool) (a b : Propagation) n f, a.isTop = false → b.isTop = false →
      (∀ p ∈ a.toList, p.Interned pool) → (∀ p ∈ b.toList, p.Interned pool) →
      (∀ x, x ∈ (a.join n b).valuesFor f ↔ x ∈ a.valuesFor f ∨ x ∈ b.valuesFor f) ∧
      ((a.join n b).valuesFor f).Pairwise fun x y => x.map Value.key < y.map Value.key := by
  refine ⟨fun _ _ => equal_iff_samePaths, equivalence_equal,
    fun _ _ _ _ n k ha hb => equal_join ha hb n k,
    equal_join_comm, equal_join_assoc, equal_join_self, fun a n k => ⟨?_, equal_join_nil a n k⟩,
    fun a n => ⟨rfl, join_top a n⟩, fun _ _ _ _ => equal_ofPaths, equal_foldl_add,
    equal_join_ofPaths, ?_⟩
  · exact equivalence_equal.trans (equal_join_comm _ a n n) (equal_join_nil a n k)
  · intro pool a b n f hatop hbtop ha hb
    exact ⟨fun x => mem_valuesFor_join hatop hbtop ha hb,
      pairwise_valuesFor (interned_join n ha hb)⟩

/-- Two values of a field that one pool gave out, on paths that are listed in different orders. -/
theorem join_semilattice_shared : ∃ (pool : Pool) (u v : Value) (p q : PathValue),
    u.set = some (.singleton (.string "1")) ∧ v.set = some (.singleton (.string "2")) ∧
    p = PathValue.empty.set "f" (some u) ∧ q = PathValue.empty.set "f" (some v) ∧ p.Interned pool ∧
      q.Interned pool ∧
    ((ofPaths 1 [p]).join 3 (ofPaths 2 [q, p])).equal (ofPaths 2 [q, p]) = true ∧
    (ofPaths 1 [p, q, p]).equal (ofPaths 2 [q, p]) = true ∧
    (∀ x, x ∈ ((ofPaths 1 [p]).join 3 (ofPaths 2 [q, p])).valuesFor "f" ↔
      x ∈ (ofPaths 1 [p]).valuesFor "f" ∨ x ∈ (ofPaths 2 [q, p]).valuesFor "f") ∧
    (((ofPaths 1 [p]).join 3 (ofPaths 2 [q, p])).valuesFor "f").Pairwise
      fun x y => x.map Value.key < y.map Value.key := by
  -- The pool gives out both values.
  obtain ⟨u, m₁, hu⟩ := Yields.exists_run
    (Manager.internValue (.draft (some (.singleton (.string "1"))) none))
      (Manager.create (.empty hash))
  obtain ⟨v, m₂, hv⟩ :=
    Yields.exists_run (Manager.internValue (.draft (some (.singleton (.string "2"))) none)) m₁
  obtain ⟨_, hufound, hucontents⟩ := Manager.internValue_evolves rfl hu
  obtain ⟨hevolves, hvfound, hvcontents⟩ := Manager.internValue_evolves rfl hv
  have hinterned : ∀ {x : Value}, m₂.pool.find? x.key = some (.value x) →
      (PathValue.empty.set "f" (some x)).Interned m₂.pool := by
    intro x hx name y hy
    rw [PathValue.entry?_set] at hy
    split at hy
    · obtain rfl := Option.some.inj (Option.some.inj hy)
      exact hx
    · cases hy
  have hp := hinterned (hevolves.keeps.found hufound)
  have hq := hinterned hvfound
  obtain ⟨-, hequivalence, -, -, -, -, -, -, hlisted, -, happend, hvalues⟩ := join_semilattice
  have hpaths : ∀ {ps : List PathValue} {k : Nat}, (∀ r ∈ ps, r = PathValue.empty.set "f" (some u) ∨
      r = PathValue.empty.set "f" (some v)) → ∀ r ∈ (ofPaths k ps).toList, r.Interned m₂.pool := by
    intro ps k hps r hr
    rcases hps r (Keyed.mem_of_mem_ofList hr) with rfl | rfl
    · exact hp
    · exact hq
  obtain ⟨hmem, hordered⟩ := hvalues m₂.pool (ofPaths 1 [PathValue.empty.set "f" (some u)])
    (ofPaths 2 [PathValue.empty.set "f" (some v), PathValue.empty.set "f" (some u)]) 3 "f" rfl rfl
    (hpaths (by simp)) (hpaths (by simp))
  have hsame : ∀ r s : PathValue, SamePaths [r, s, r] [s, r] := fun r s => by
    refine samePaths_iff.mpr (Set.ext fun view => ?_)
    simp only [viewsOf, List.mem_cons, List.not_mem_nil, or_false]
    grind
  exact ⟨m₂.pool, u, v, _, _, congrArg Value.set hucontents, congrArg Value.set hvcontents, rfl,
    rfl, hp, hq,
    hequivalence.trans (happend _ _ 1 3 2 4) ((hlisted _ _ 4 2).mpr (hsame _ _)),
    (hlisted _ _ 1 2).mpr (hsame _ _),
    hmem, hordered⟩

end Propagation

end FieldFlow
