import FieldFlow.Model.Version
import Mathlib.Data.List.TakeWhile

/-!
# The grammar of versions

A version is written as a `v` and one to three numbers with points between them.  After three
numbers there may be a pre-release behind a hyphen, and then a build behind a plus sign, both made
of labels with points between them.  The grammar is stated as relations on characters, and a version
is read exactly if the grammar gives it, with the number that stands first.

Main definitions: `Version.IsNumber`, `Version.Dotted`, `Version.IsTail`, `Version.Followed`,
`Version.Spells`.
Main results: `Version.number?_eq_some`, `Version.dotted_iff`, `Version.isSuffix_iff`,
`Version.recognizes_major?`.
-/

namespace FieldFlow.Version

variable {cs digits rest label : List Char}

/-! ## The grammar -/

/-- One or more digits; a zero stands first only if it stands alone. -/
structure IsNumber (digits : List Char) : Prop where
  nonempty : digits ≠ []
  isDigit : ∀ c ∈ digits, c.isDigit = true
  unpadded : digits.head? = some '0' → digits = ['0']

/-- One or more letters, digits and hyphens. -/
structure IsName (label : List Char) : Prop where
  nonempty : label ≠ []
  chars : ∀ c ∈ label, isLabelChar c = true

/-- A name that is a number if it has digits only. -/
structure IsStage (label : List Char) : Prop extends IsName label where
  number : (∀ c ∈ label, c.isDigit = true) → IsNumber label

/-- One or more labels with points between them. -/
inductive Dotted (P : List Char → Prop) : List Char → Prop
  | single {label : List Char} (h : P label) : Dotted P label
  | cons {label rest : List Char} (h : P label) (hrest : Dotted P rest) :
      Dotted P (label ++ '.' :: rest)

/-- What follows the third number: a pre-release and a build, both optional. -/
inductive IsTail : List Char → Prop
  | nil : IsTail []
  | preRelease {stages : List Char} (h : Dotted IsStage stages) : IsTail ('-' :: stages)
  | build {names : List Char} (h : Dotted IsName names) : IsTail ('+' :: names)
  | both {stages names : List Char} (h : Dotted IsStage stages) (h' : Dotted IsName names) :
      IsTail ('-' :: (stages ++ '+' :: names))

/-- Nothing, or a point and another number with what may follow that. -/
inductive Followed (P : List Char → Prop) : List Char → Prop
  | nil : Followed P []
  | number {digits rest : List Char} (h : IsNumber digits) (hrest : P rest) :
      Followed P ('.' :: (digits ++ rest))

/-- The text is a version, and `major` is how its first number is written. -/
def Spells (text major : String) : Prop :=
  ∃ rest, text.toList = 'v' :: (major.toList ++ rest) ∧ IsNumber major.toList ∧
    Followed (Followed IsTail) rest

/-! ## Numbers -/

/-- The characters do not start with a digit. -/
def Stops (rest : List Char) : Prop := ∀ c ∈ rest.head?, c.isDigit = false

theorem takeWhile_isDigit (hdigits : ∀ c ∈ digits, c.isDigit = true) (hrest : Stops rest) :
    (digits ++ rest).takeWhile Char.isDigit = digits ∧
      (digits ++ rest).dropWhile Char.isDigit = rest := by
  rw [List.takeWhile_append_of_pos hdigits, List.dropWhile_append_of_pos hdigits]
  cases rest with
  | nil => simp
  | cons c others =>
    have hc : c.isDigit = false := hrest c rfl
    simp [hc]

/-- What is left after the digits does not start with one. -/
theorem stops_dropWhile (cs : List Char) : Stops (cs.dropWhile Char.isDigit) := by
  intro c hc
  have h := List.head?_dropWhile_not Char.isDigit cs
  rw [Option.mem_def.mp hc] at h
  simpa using h

/-- **A number is read** up to where its digits stop. -/
theorem number?_eq_some :
    number? cs = some (digits, rest) ↔ IsNumber digits ∧ cs = digits ++ rest ∧ Stops rest := by
  constructor
  · intro h
    have hsplit := List.takeWhile_append_dropWhile (p := Char.isDigit) (l := cs)
    have hstops := stops_dropWhile cs
    have htaken : ∀ c ∈ cs.takeWhile Char.isDigit, c.isDigit = true :=
      fun c hc => List.mem_takeWhile_imp hc
    unfold number? at h
    generalize cs.takeWhile Char.isDigit = taken at h hsplit htaken
    generalize cs.dropWhile Char.isDigit = left at h hsplit hstops
    split at h
    · cases h
    · cases h
    · rename_i hnonempty hpadded
      obtain ⟨rfl, rfl⟩ := Prod.mk.inj (Option.some.inj h)
      refine ⟨⟨hnonempty, htaken, fun hzero => ?_⟩, hsplit.symm, hstops⟩
      obtain ⟨others, rfl⟩ := List.head?_eq_some_iff.mp hzero
      cases others with
      | nil => rfl
      | cons c others => exact absurd rfl (hpadded c others)
  · rintro ⟨hnumber, rfl, hrest⟩
    obtain ⟨htake, hdrop⟩ := takeWhile_isDigit hnumber.isDigit hrest
    unfold number?
    rw [htake, hdrop]
    split
    · exact absurd rfl hnumber.nonempty
    · cases hnumber.unpadded rfl
    · rfl

/-! ## Labels -/

/-- A character that is no point goes to the first part. -/
theorem splitPoints_cons {c : Char} {parts : List (List Char)} (hc : c ≠ '.')
    (h : splitPoints cs = label :: parts) :
    splitPoints (c :: cs) = (c :: label) :: parts := by
  rw [splitPoints, h]
  exact hc

theorem splitPoints_of_notMem (h : '.' ∉ label) : splitPoints label = [label] := by
  induction label with
  | nil => rfl
  | cons c others ih =>
    rw [List.mem_cons, not_or] at h
    exact splitPoints_cons (Ne.symm h.1) (ih h.2)

theorem splitPoints_append (h : '.' ∉ label) (rest : List Char) :
    splitPoints (label ++ '.' :: rest) = label :: splitPoints rest := by
  induction label with
  | nil => rfl
  | cons c others ih =>
    rw [List.mem_cons, not_or] at h
    exact splitPoints_cons (Ne.symm h.1) (ih h.2)

/-- **Labels with points between them** are characters whose parts between points are labels. -/
theorem dotted_iff {P : List Char → Prop} (hP : ∀ label, P label → '.' ∉ label) :
    Dotted P cs ↔ ∀ label ∈ splitPoints cs, P label := by
  constructor
  · intro h
    induction h with
    | single h =>
      rw [splitPoints_of_notMem (hP _ h)]
      exact List.forall_mem_singleton.mpr h
    | cons h _ ih =>
      rw [splitPoints_append (hP _ h)]
      exact List.forall_mem_cons.mpr ⟨h, ih⟩
  · -- By induction on the length, since what stands behind the first point is shorter.
    induction hlength : cs.length using Nat.strongRecOn generalizing cs with
    | ind n ih =>
      intro h
      by_cases hpoint : '.' ∈ cs
      · obtain ⟨label, rest, rfl, hlabel⟩ := List.eq_append_cons_of_mem hpoint
        rw [splitPoints_append hlabel, List.forall_mem_cons] at h
        refine .cons h.1 (ih rest.length ?_ rfl h.2)
        rw [← hlength, List.length_append, List.length_cons]
        omega
      · rw [splitPoints_of_notMem hpoint, List.forall_mem_singleton] at h
        exact .single h

theorem isLabel_iff : isLabel label = true ↔ IsName label := by
  simp only [isLabel, Bool.and_eq_true, Bool.not_eq_true', List.isEmpty_eq_false_iff,
    List.all_eq_true]
  exact ⟨fun h => ⟨h.1, h.2⟩, fun h => ⟨h.nonempty, h.chars⟩⟩

theorem isStage_iff : (isLabel label && !isPaddedNumber label) = true ↔ IsStage label := by
  rw [Bool.and_eq_true, isLabel_iff, Bool.not_eq_true']
  constructor
  · rintro ⟨hname, hpadded⟩
    refine ⟨hname, fun hdigits => ⟨hname.nonempty, hdigits, fun hzero => ?_⟩⟩
    obtain ⟨others, rfl⟩ := List.head?_eq_some_iff.mp hzero
    cases others with
    | nil => rfl
    | cons c others => exact absurd (List.all_eq_true.mpr hdigits) (Bool.eq_false_iff.mp hpadded)
  · intro h
    refine ⟨h.toIsName, ?_⟩
    unfold isPaddedNumber
    split
    · rw [Bool.eq_false_iff]
      intro hdigits
      cases (h.number (List.all_eq_true.mp hdigits)).unpadded rfl
    · rfl

theorem IsName.point_notMem (h : IsName label) : '.' ∉ label :=
  fun hpoint => absurd (h.chars _ hpoint) (by decide)

theorem IsName.plus_notMem (h : IsName label) : '+' ∉ label :=
  fun hplus => absurd (h.chars _ hplus) (by decide)

theorem isBuild_iff : isBuild cs = true ↔ Dotted IsName cs := by
  rw [isBuild, List.all_eq_true, dotted_iff fun _ => IsName.point_notMem]
  simp only [isLabel_iff]

theorem isPreRelease_iff : isPreRelease cs = true ↔ Dotted IsStage cs := by
  rw [isPreRelease, List.all_eq_true, dotted_iff fun _ h => h.toIsName.point_notMem]
  simp only [isStage_iff]

/-- A plus sign does not belong to a pre-release. -/
theorem Dotted.plus_notMem (h : Dotted IsStage cs) : '+' ∉ cs := by
  induction h with
  | single h => exact h.toIsName.plus_notMem
  | cons h _ ih => simp [h.toIsName.plus_notMem, ih]

/-! ## What follows the numbers -/

/-- Characters without a plus sign are all taken, up to the first one. -/
theorem takeWhile_plus (h : '+' ∉ label) (rest : List Char) :
    (label ++ rest).takeWhile (· ≠ '+') = label ++ rest.takeWhile (· ≠ '+') ∧
      (label ++ rest).dropWhile (· ≠ '+') = rest.dropWhile (· ≠ '+') := by
  have hlabel : ∀ c ∈ label, decide (c ≠ '+') = true :=
    fun c hc => decide_eq_true fun heq => h (heq ▸ hc)
  exact ⟨List.takeWhile_append_of_pos hlabel, List.dropWhile_append_of_pos hlabel⟩

/-- A pre-release behind its hyphen, without a build. -/
theorem isSuffix_hyphen (h : '+' ∉ label) : isSuffix ('-' :: label) = isPreRelease label := by
  obtain ⟨htake, hdrop⟩ := takeWhile_plus h []
  rw [List.append_nil] at htake hdrop
  rw [isSuffix, htake, hdrop]
  simp

/-- A pre-release behind its hyphen, with a build behind a plus sign. -/
theorem isSuffix_hyphen_plus (h : '+' ∉ label) (rest : List Char) :
    isSuffix ('-' :: (label ++ '+' :: rest)) = (isPreRelease label && isBuild rest) := by
  obtain ⟨htake, hdrop⟩ := takeWhile_plus h ('+' :: rest)
  rw [isSuffix, htake, hdrop]
  simp

/-- **The test for what follows the third number.** -/
theorem isSuffix_iff : isSuffix cs = true ↔ IsTail cs := by
  constructor
  · intro h
    have hopened := h
    unfold isSuffix at hopened
    split at hopened
    · exact .nil
    · exact .build (isBuild_iff.mp hopened)
    · rename_i stages
      by_cases hplus : '+' ∈ stages
      · obtain ⟨stages, names, rfl, hstages⟩ := List.eq_append_cons_of_mem hplus
        rw [isSuffix_hyphen_plus hstages, Bool.and_eq_true] at h
        exact .both (isPreRelease_iff.mp h.1) (isBuild_iff.mp h.2)
      · rw [isSuffix_hyphen hplus] at h
        exact .preRelease (isPreRelease_iff.mp h)
    · cases hopened
  · intro h
    cases h with
    | nil => rfl
    | preRelease h => rw [isSuffix_hyphen h.plus_notMem, isPreRelease_iff.mpr h]
    | build h => exact isBuild_iff.mpr h
    | both h h' =>
      rw [isSuffix_hyphen_plus h.plus_notMem, isPreRelease_iff.mpr h, isBuild_iff.mpr h',
        Bool.and_self]

/-- What follows the third number does not start with a digit. -/
theorem IsTail.stops (h : IsTail cs) : Stops cs := by
  intro c hc
  cases h with
  | nil => cases hc
  | preRelease | build | both =>
    obtain rfl := Option.some.inj hc
    decide

/-- What follows another number does not start with a digit. -/
theorem Followed.stops {P : List Char → Prop} (h : Followed P cs) : Stops cs := by
  intro c hc
  cases h with
  | nil => cases hc
  | number =>
    obtain rfl := Option.some.inj hc
    decide

/-- **A test for another number** and what may follow it. -/
theorem followed_iff {test : List Char → Bool} {P : List Char → Prop}
    (htest : ∀ cs, test cs = true ↔ P cs) (hstops : ∀ cs, P cs → Stops cs) :
    (match cs with
      | [] => true
      | '.' :: rest => match number? rest with
        | none => false
        | some (_, rest) => test rest
      | _ => false) = true ↔ Followed P cs := by
  constructor
  · intro h
    split at h
    · exact .nil
    · split at h
      · cases h
      · rename_i digits rest hnumber
        obtain ⟨hdigits, rfl, _⟩ := number?_eq_some.mp hnumber
        exact .number hdigits ((htest rest).mp h)
    · cases h
  · intro h
    cases h with
    | nil => rfl
    | number hdigits hrest =>
      simp only [number?_eq_some.mpr ⟨hdigits, rfl, hstops _ hrest⟩]
      exact (htest _).mpr hrest

/-- The test for what follows the second number. -/
theorem isAfterMinor_iff : isAfterMinor cs = true ↔ Followed IsTail cs :=
  followed_iff (fun _ => isSuffix_iff) fun _ => IsTail.stops

/-- The test for what follows the first number. -/
theorem isAfterMajor_iff : isAfterMajor cs = true ↔ Followed (Followed IsTail) cs :=
  followed_iff (fun _ => isAfterMinor_iff) fun _ => Followed.stops

/-- The routine recognizes semantic versions and gives their first number. -/
def Recognizes (find : String → Option String) : Prop :=
  ∀ {text major}, find text = some major ↔ Spells text major

/-- **A version is read** exactly if the grammar gives it. -/
theorem recognizes_major? : Recognizes major? := by
  intro text major
  unfold major? Spells
  constructor
  · intro h
    split at h
    · rename_i cs htext
      split at h
      · cases h
      · rename_i digits rest hnumber
        obtain ⟨hdigits, rfl, _⟩ := number?_eq_some.mp hnumber
        split at h
        · rename_i hafter
          obtain rfl := Option.some.inj h
          rw [String.toList_ofList]
          exact ⟨rest, htext, hdigits, isAfterMajor_iff.mp hafter⟩
        · cases h
    · cases h
  · rintro ⟨rest, htext, hdigits, hrest⟩
    simp only [htext, number?_eq_some.mpr ⟨hdigits, rfl, hrest.stops⟩,
      isAfterMajor_iff.mpr hrest, if_true, String.ofList_toList]

end FieldFlow.Version
