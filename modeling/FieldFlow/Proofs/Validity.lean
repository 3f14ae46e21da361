import FieldFlow.Model.Validation
import FieldFlow.Proofs.Versions
import Mathlib.Data.List.Nodup

/-!
# Which models are valid

A model must meet requirements, which are listed here in document order, each with the violation
that is reported where it is not met: first those on the version, then for each object those on its
identifier and on its paths, fields and operations.  Validation goes through the list up to the
first requirement that is not met.  Taken together the requirements say that the model is valid,
which is stated without any order.

Main definitions: `Model.Requirement`, `Model.requirements`, `Model.Checked`, `Model.IsValid`.
Main results: `Model.checked_validate`, `Model.forall_met_iff`, `Model.validate_accepts_exactly`.
-/

namespace FieldFlow.Model

/-! ## Requirements in document order -/

/-- What a model must meet, and the violation if it does not. -/
structure Requirement where
  violation : Violation
  Met : Prop

/-- The requirements on an operation, where `place` says what is wrong with which operation. -/
def Op.requirements (place : OpViolation → Violation) (op : Op) : List Requirement :=
  [⟨place .missingAction, op.action ≠ ""⟩,
    ⟨place (.withoutValues op.action), op.ref = none → op.action ∈ ["add", "remove", "replace"] →
      op.values ≠ []⟩,
    ⟨place .valuesAndRef, op.ref ≠ none → op.values = []⟩,
    ⟨place .incompleteRef, ∀ target, op.ref = some target → target.symbol ≠ "" ∧ target.point ≠ ""⟩]

/-- The requirements on a field: those on its name, then those on its operations. -/
def Field.requirements (id : ObjectId) (path : Nat) (f : Field) : List Requirement :=
  ⟨.unnamedField id path, f.name ≠ ""⟩ ::
    f.ops.zipIdx.flatMap fun op => op.1.requirements (.badOp id path f.name op.2)

/-- The requirements on an object that stands at the index behind the earlier ones: that it is
named, that it is none of the earlier ones, then those on its fields. -/
def Object.requirements (index : Nat) (earlier : List Object) (o : Object) : List Requirement :=
  ⟨.missingId index, o.symbol ≠ "" ∧ o.point ≠ ""⟩ ::
    ⟨.duplicated o.id, o.id ∉ earlier.map Object.id⟩ ::
    o.paths.zipIdx.flatMap fun p => p.1.fields.flatMap (Field.requirements o.id p.2)

/-- The requirements on a version. -/
def versionRequirements (version : String) : List Requirement :=
  [⟨.badVersion version, ∃ major, Version.Spells version major⟩,
    ⟨.unsupportedVersion version, Version.Spells version "1"⟩]

/-- The requirements on a model, in document order. -/
def requirements (m : Model) : List Requirement :=
  versionRequirements m.version ++
    m.objects.zipIdx.flatMap fun o => o.1.requirements o.2 (m.objects.take o.2)

/-! ## Checking one after the other -/

/-- Going through requirements up to the first that is not met. -/
inductive Checked : List Requirement → Except Violation Unit → Prop
  | nil : Checked [] (.ok ())
  | unmet {r : Requirement} {rest : List Requirement} (h : ¬r.Met) :
      Checked (r :: rest) (.error r.violation)
  | met {r : Requirement} {rest : List Requirement} {x : Except Violation Unit} (h : r.Met)
      (hrest : Checked rest x) :
      Checked (r :: rest) x

namespace Checked

variable {r : Requirement} {rs ss : List Requirement} {x y : Except Violation Unit} {v : Violation}

/-- Nothing is reported exactly if all requirements are met. -/
theorem eq_ok_iff (h : Checked rs x) : x = .ok () ↔ ∀ r ∈ rs, r.Met := by
  induction h with
  | nil => simp
  | unmet h => simp [h]
  | met h _ ih => rw [ih, List.forall_mem_cons, and_iff_right h]

/-- **What is reported** is the violation of the first requirement that is not met. -/
theorem eq_error_iff (h : Checked rs x) : x = .error v ↔
    ∃ before r after, rs = before ++ r :: after ∧ (∀ s ∈ before, s.Met) ∧ ¬r.Met ∧
      r.violation = v := by
  induction h with
  | nil => simp
  | @unmet r rest hunmet =>
    simp only [List.cons_eq_append_iff]
    constructor
    · intro h
      exact ⟨[], r, rest, .inl ⟨rfl, rfl⟩, by simp, hunmet, Except.error.inj h⟩
    · rintro ⟨before, r', after, ⟨rfl, heq⟩ | ⟨others, rfl, _⟩, hbefore, _, rfl⟩
      · rw [(List.cons.inj heq).1]
      · exact absurd (hbefore r List.mem_cons_self) hunmet
  | @met r rest x hmet _ ih =>
    rw [ih]
    simp only [List.cons_eq_append_iff]
    constructor
    · rintro ⟨before, r', after, rfl, hbefore, hunmet⟩
      exact ⟨r :: before, r', after, .inr ⟨before, rfl, rfl⟩,
        List.forall_mem_cons.mpr ⟨hmet, hbefore⟩, hunmet⟩
    · rintro ⟨before, r', after, ⟨rfl, heq⟩ | ⟨others, rfl, rfl⟩, hbefore, hunmet⟩
      · exact absurd ((List.cons.inj heq).1 ▸ hmet) hunmet.1
      · exact ⟨others, r', after, rfl, (List.forall_mem_cons.mp hbefore).2, hunmet⟩

/-- **Checks one after the other** go through the requirements of both. -/
theorem bind (hx : Checked rs x) (hy : Checked ss y) : Checked (rs ++ ss) (x >>= fun _ => y) := by
  induction hx with
  | nil => exact hy
  | unmet h => exact .unmet h
  | met h _ ih => exact .met h ih

theorem guard {P : Prop} [Decidable P] (hP : P ↔ ¬r.Met) (h : r.Met → Checked rs x) :
    Checked (r :: rs) (if P then .error r.violation else x) := by
  by_cases hmet : r.Met
  · rw [if_neg fun h => hP.mp h hmet]
    exact .met hmet (h hmet)
  · rw [if_pos (hP.mpr hmet)]
    exact .unmet hmet

end Checked

/-! ## What validation checks -/

theorem needsValues_iff {action : String} :
    needsValues action = true ↔ action ∈ ["add", "remove", "replace"] := by
  simp [needsValues, or_assoc]

/-- An operation is checked for its requirements. -/
theorem checked_validateOp (place : OpViolation → Violation) (op : Op) :
    Checked (op.requirements place) (op.validate.mapError place) := by
  unfold Op.requirements Op.validate
  cases op.ref with
  | none =>
    simp only [apply_ite (Except.mapError place)]
    refine .guard (by simp) fun _ => .guard ?_ fun _ => .met (by simp) (.met (by simp) .nil)
    simp [needsValues_iff]
  | some target =>
    simp only [apply_ite (Except.mapError place)]
    refine .guard (by simp) fun _ =>
      .met (by simp) (.guard (by simp) fun _ => .guard ?_ fun _ => .nil)
    simp [Classical.or_iff_not_imp_left]

/-- Operations are checked one after the other. -/
theorem checked_validateOps (id : ObjectId) (path : Nat) (field : String) (index : Nat)
    (ops : List Op) :
    Checked ((ops.zipIdx index).flatMap fun op => op.1.requirements (.badOp id path field op.2))
      (validateOps id path field index ops) := by
  induction ops generalizing index with
  | nil => exact .nil
  | cons op rest ih =>
    have hstep : validateOps id path field index (op :: rest)
        = op.validate.mapError (.badOp id path field index) >>= fun _ =>
          validateOps id path field (index + 1) rest := by
      rw [validateOps]
      cases op.validate <;> rfl
    rw [hstep, List.zipIdx_cons, List.flatMap_cons]
    exact (checked_validateOp _ op).bind (ih (index + 1))

theorem checked_validateFields (id : ObjectId) (path : Nat) (fields : List Field) :
    Checked (fields.flatMap (Field.requirements id path)) (validateFields id path fields) := by
  induction fields with
  | nil => exact .nil
  | cons f rest ih =>
    rw [validateFields, List.flatMap_cons, Field.requirements, List.cons_append]
    exact .guard (by simp) fun _ => (checked_validateOps id path f.name 0 f.ops).bind ih

theorem checked_validatePaths (id : ObjectId) (index : Nat) (paths : List Path) :
    Checked ((paths.zipIdx index).flatMap fun p => p.1.fields.flatMap (Field.requirements id p.2))
      (validatePaths id index paths) := by
  induction paths generalizing index with
  | nil => exact .nil
  | cons p rest ih =>
    rw [validatePaths, List.zipIdx_cons, List.flatMap_cons]
    exact (checked_validateFields id index p.fields).bind (ih (index + 1))

/-- **Objects are checked one after the other**, where `seen` are the identifiers of the earlier
ones. -/
theorem checked_validateObjects (earlier rest : List Object) {seen : List ObjectId}
    (hseen : ∀ id, id ∈ seen ↔ id ∈ earlier.map Object.id) :
    Checked ((rest.zipIdx earlier.length).flatMap fun o =>
      o.1.requirements o.2 ((earlier ++ rest).take o.2))
      (validateObjects earlier.length seen rest) := by
  induction rest generalizing earlier seen with
  | nil => exact .nil
  | cons o rest ih =>
    have hnow : ∀ id, id ∈ o.id :: seen ↔ id ∈ (earlier ++ [o]).map Object.id := by
      simp [hseen, or_comm]
    have hrest := ih (earlier ++ [o]) hnow
    rw [List.append_assoc, List.length_append, List.length_singleton,
      List.singleton_append] at hrest
    rw [validateObjects, List.zipIdx_cons, List.flatMap_cons, List.take_left, Object.requirements,
      List.cons_append, List.cons_append]
    refine .guard ?_ fun _ => .guard ?_ fun _ => (checked_validatePaths o.id 0 o.paths).bind hrest
    · simp [Classical.or_iff_not_imp_left]
    · rw [List.contains_iff_mem, hseen, not_not]

variable {find : String → Option String}

/-- A version is checked for its requirements. -/
theorem checked_validateVersion (hfind : Version.Recognizes find) (version : String) :
    Checked (versionRequirements version) (validateVersion find version) := by
  unfold versionRequirements validateVersion
  cases hmajor : find version with
  | none =>
    refine .unmet ?_
    rintro ⟨major, h⟩
    cases hmajor.symm.trans (hfind.mpr h)
  | some major =>
    refine .met ⟨major, hfind.mp hmajor⟩ ?_
    have hone : Version.Spells version "1" ↔ major = "1" := by
      rw [← hfind, hmajor, Option.some_inj]
    dsimp only
    by_cases h : major = "1"
    · rw [if_pos h]
      exact .met (hone.mpr h) .nil
    · rw [if_neg h]
      exact .unmet (mt hone.mp h)

/-- **A model is checked for its requirements**, in document order, whichever routine recognizes
versions. -/
theorem checked_validateBy (hfind : Version.Recognizes find) (m : Model) :
    Checked m.requirements (m.validateBy find) :=
  (checked_validateVersion hfind m.version).bind (checked_validateObjects [] m.objects (by simp))

theorem checked_validate (m : Model) : Checked m.requirements m.validate :=
  checked_validateBy Version.recognizes_major? m

/-! ## Valid models -/

/-- The operation has an action and the operands that it needs. -/
structure Op.IsComplete (op : Op) : Prop where
  action : op.action ≠ ""
  values : op.ref = none → op.action ∈ ["add", "remove", "replace"] → op.values ≠ []
  exclusive : op.ref ≠ none → op.values = []
  target : ∀ target, op.ref = some target → target.symbol ≠ "" ∧ target.point ≠ ""

/-- The version is a first major version, objects are named and distinct, fields are named, and
operations are complete. -/
structure IsValid (m : Model) : Prop where
  version : Version.Spells m.version "1"
  named : ∀ o ∈ m.objects, o.symbol ≠ "" ∧ o.point ≠ ""
  distinct : (m.objects.map Object.id).Nodup
  fields : ∀ o ∈ m.objects, ∀ p ∈ o.paths, ∀ f ∈ p.fields, f.name ≠ ""
  ops : ∀ o ∈ m.objects, ∀ p ∈ o.paths, ∀ f ∈ p.fields, ∀ op ∈ f.ops, op.IsComplete

/-- What holds of the members of a list holds of them with their indices. -/
theorem forall_mem_zipIdx {α : Type} {l : List α} {n : Nat} {P : α → Prop} :
    (∀ e ∈ l.zipIdx n, P e.1) ↔ ∀ x ∈ l, P x := by
  conv_rhs => rw [← List.zipIdx_map_fst n l]
  exact List.forall_mem_map.symm

/-- Behind earlier members, members are distinct from each other and from those exactly if none is
one of the members in front of it. -/
theorem notMem_take_iff {α β : Type} (f : α → β) (earlier rest : List α) :
    (∀ e ∈ rest.zipIdx earlier.length, f e.1 ∉ ((earlier ++ rest).take e.2).map f) ↔
      (rest.map f).Nodup ∧ ∀ x ∈ rest, f x ∉ earlier.map f := by
  induction rest generalizing earlier with
  | nil => simp
  | cons x rest ih =>
    have hrest := ih (earlier ++ [x])
    rw [List.append_assoc, List.length_append, List.length_singleton,
      List.singleton_append] at hrest
    rw [List.zipIdx_cons, List.forall_mem_cons, hrest, List.take_left, List.map_cons,
      List.nodup_cons, List.forall_mem_cons]
    simp only [List.map_append, List.mem_append, not_or, List.map_cons, List.map_nil,
      List.mem_singleton]
    grind

/-- The requirements on an operation are met if it is complete. -/
theorem Op.forall_met_iff {place : OpViolation → Violation} {op : Op} :
    (∀ r ∈ op.requirements place, r.Met) ↔ op.IsComplete := by
  simp only [Op.requirements, List.forall_mem_cons]
  exact ⟨fun ⟨h₁, h₂, h₃, h₄, _⟩ => ⟨h₁, h₂, h₃, h₄⟩,
    fun h => ⟨h.action, h.values, h.exclusive, h.target, by simp⟩⟩

/-- The requirements on a field are met if it is named and its operations are complete. -/
theorem Field.forall_met_iff {id : ObjectId} {path : Nat} {f : Field} :
    (∀ r ∈ f.requirements id path, r.Met) ↔ f.name ≠ "" ∧ ∀ op ∈ f.ops, op.IsComplete := by
  simp only [Field.requirements, List.forall_mem_cons, List.forall_mem_flatMap, Op.forall_met_iff]
  exact and_congr_right fun _ => forall_mem_zipIdx

/-- The requirements on an object are met if it is named, none of the earlier ones, and its fields
are as they should be. -/
theorem Object.forall_met_iff {index : Nat} {earlier : List Object} {o : Object} :
    (∀ r ∈ o.requirements index earlier, r.Met) ↔ (o.symbol ≠ "" ∧ o.point ≠ "") ∧
      o.id ∉ earlier.map Object.id ∧
      ∀ p ∈ o.paths, ∀ f ∈ p.fields, f.name ≠ "" ∧ ∀ op ∈ f.ops, op.IsComplete := by
  simp only [Object.requirements, List.forall_mem_cons, List.forall_mem_flatMap,
    Field.forall_met_iff]
  exact and_congr_right fun _ => and_congr_right fun _ =>
    forall_mem_zipIdx
      (P := fun p : Path => ∀ f ∈ p.fields, f.name ≠ "" ∧ ∀ op ∈ f.ops, op.IsComplete)

/-- **The requirements on a model are met** exactly if it is valid. -/
theorem forall_met_iff (m : Model) : (∀ r ∈ m.requirements, r.Met) ↔ m.IsValid := by
  have hdistinct : (∀ o ∈ m.objects.zipIdx, o.1.id ∉ (m.objects.take o.2).map Object.id) ↔
      (m.objects.map Object.id).Nodup :=
    (notMem_take_iff Object.id [] m.objects).trans (by simp)
  simp only [requirements, versionRequirements, List.forall_mem_append, List.forall_mem_cons,
    List.forall_mem_flatMap, Object.forall_met_iff]
  constructor
  · rintro ⟨⟨_, hversion, _⟩, hobjects⟩
    have hnamed : ∀ o ∈ m.objects, o.symbol ≠ "" ∧ o.point ≠ "" :=
      forall_mem_zipIdx.mp fun o ho => (hobjects o ho).1
    have hfields :
        ∀ o ∈ m.objects, ∀ p ∈ o.paths, ∀ f ∈ p.fields, f.name ≠ "" ∧ ∀ op ∈ f.ops, op.IsComplete :=
      forall_mem_zipIdx.mp fun o ho => (hobjects o ho).2.2
    exact ⟨hversion, hnamed, hdistinct.mp fun o ho => (hobjects o ho).2.1,
      fun o ho p hp f hf => (hfields o ho p hp f hf).1,
        fun o ho p hp f hf => (hfields o ho p hp f hf).2⟩
  · intro h
    refine ⟨⟨⟨"1", h.version⟩, h.version, by simp⟩, fun o ho => ?_⟩
    have hmem : o.1 ∈ m.objects := List.fst_mem_of_mem_zipIdx ho
    exact ⟨h.named _ hmem, hdistinct.mpr h.distinct o ho,
      fun p hp f hf => ⟨h.fields _ hmem p hp f hf, h.ops _ hmem p hp f hf⟩⟩

/-- **Validation accepts exactly the valid models.**  Any other model is refused with the violation
of the first requirement, in document order, that it does not meet, and the wording ends with the
remark that the model is invalid. -/
theorem validate_accepts_exactly (m : Model) :
    (m.validate = .ok () ↔ m.IsValid) ∧
    (∀ v, m.validate = .error v ↔ ∃ before r after, m.requirements = before ++ r :: after ∧
      (∀ s ∈ before, s.Met) ∧ ¬r.Met ∧ r.violation = v) ∧
    ∀ v, m.validate = .error v → v.message = v.text ++ ": invalid model" := by
  have h := checked_validate m
  exact ⟨h.eq_ok_iff.trans (forall_met_iff m), fun v => h.eq_error_iff, fun _ _ => rfl⟩

/-- A pre-release of the first major version with an object that is written twice, the second time
with a field that has no name. -/
def repeated : Model :=
  ⟨"v1.0.0-rc.1+build", [⟨"user", "exit", [⟨[⟨"kept", "", [⟨"add", ["1"], none⟩]⟩]⟩]⟩,
    ⟨"user", "exit", [⟨[⟨"", "", []⟩]⟩]⟩]⟩

/-- The object that is written twice is refused, and not its field. -/
theorem validate_accepts_exactly_repeated :
    repeated.validate = .error (.duplicated ⟨"user", "exit"⟩) ∧ ¬repeated.IsValid := by
  have hnumber : ∀ c : Char, c.isDigit = true → Version.IsNumber [c] := fun c hc =>
    ⟨by simp, by simpa using hc, by simp⟩
  have hname : Version.IsName "build".toList := Version.isLabel_iff.mp (by decide)
  have hstage : Version.IsStage "rc".toList := Version.isStage_iff.mp (by decide)
  have hone : Version.IsStage "1".toList := Version.isStage_iff.mp (by decide)
  have hversion : Version.Spells "v1.0.0-rc.1+build" "1" :=
    ⟨".0.0-rc.1+build".toList, by decide, hnumber '1' rfl,
      .number (hnumber '0' rfl) (.number (hnumber '0' rfl)
      (.both (.cons hstage (.single hone)) (.single hname)))⟩
  have hrefused : repeated.validate = .error (.duplicated ⟨"user", "exit"⟩) := by
    refine ((validate_accepts_exactly repeated).2.1 _).mpr ⟨[_, _, _, _, _, _, _, _, _, _], _, _,
      rfl, ?_, ?_, rfl⟩
    · simp only [List.forall_mem_cons]
      exact ⟨⟨_, hversion⟩, hversion, by decide, by decide, by decide, by decide, by decide,
        by decide, by decide, by decide, by simp⟩
    · decide
  refine ⟨hrefused, fun hvalid => ?_⟩
  rw [(validate_accepts_exactly repeated).1.mpr hvalid] at hrefused
  cases hrefused

end FieldFlow.Model
