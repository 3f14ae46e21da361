import FieldFlow.Analysis
import FieldFlow.Proofs.Collections
import Mathlib.Data.List.Forall2
import Mathlib.Data.Nat.Digits.Defs

/-!
# Reading decimal integers

An integer is written as decimal digits, the most significant first, behind at most one sign.  The
reading accumulates the digits from the left and stops where the number leaves 64 bits; since a
number only grows with further digits, what is read is exactly the written integers of 64 bits.  A
list of texts is read one after the other, and the first that is no integer of 64 bits is the one
that is refused.

Main definitions: `Integer.magnitude`, `Integer.Denotes`, `Integer.Reads`.
Main results: `Integer.read_eq_ok`, `Analysis.readIntegers_eq_ok`, `Analysis.readIntegers_eq_error`.
-/

namespace FieldFlow

namespace Integer

variable {digits : List Char} {n : Int}

/-! ## What characters denote -/

/-- One or more decimal digits. -/
structure IsNumeral (digits : List Char) : Prop where
  nonempty : digits ≠ []
  isDigit : ∀ c ∈ digits, c.isDigit = true

/-- The number that digits denote, the most significant first. -/
def magnitude (digits : List Char) : Nat := Nat.ofDigits 10 (digits.map digitValue).reverse

/-- The characters are digits behind at most one sign, and denote the integer. -/
inductive Denotes : List Char → Int → Prop
  | unsigned {digits : List Char} (h : IsNumeral digits) : Denotes digits (magnitude digits)
  | positive {digits : List Char} (h : IsNumeral digits) :
      Denotes ('+' :: digits) (magnitude digits)
  | negative {digits : List Char} (h : IsNumeral digits) :
      Denotes ('-' :: digits) (-(magnitude digits : Int))

/-- The text is a decimal integer of 64 bits. -/
def Reads (text : String) (n : Int) : Prop := Denotes text.toList n ∧ -2 ^ 63 ≤ n ∧ n < 2 ^ 63

/-! ## Reading digits -/

/-- The number that digits take a number to. -/
def appended (start : Nat) (digits : List Char) : Nat :=
  digits.foldl (fun n c => n * 10 + digitValue c) start

/-- Digits alone denote what they take zero to. -/
theorem magnitude_eq (digits : List Char) : magnitude digits = appended 0 digits := by
  rw [magnitude, Nat.ofDigits_eq_foldr, List.foldr_reverse, List.foldl_map, appended]
  congr 1
  funext n c
  rw [Nat.cast_id, Nat.add_comm, Nat.mul_comm]

theorem le_appended (start : Nat) (digits : List Char) : start ≤ appended start digits := by
  induction digits generalizing start with
  | nil => exact Nat.le_refl start
  | cons c rest ih =>
    have hstep : start ≤ start * 10 + digitValue c := by omega
    exact hstep.trans (ih _)

/-- A digit is read if the number stays within 64 bits. -/
theorem readDigits_cons_of_isDigit {c : Char} (hdigit : c.isDigit = true) (start : Nat)
    (rest : List Char) :
    readDigits start (c :: rest) = if start * 10 + digitValue c < 2 ^ 64
      then readDigits (start * 10 + digitValue c) rest else .error .outOfRange := by
  rw [readDigits, if_pos hdigit]
  rfl

/-- Digits are read if there is nothing but digits and the number stays within 64 bits. -/
theorem readDigits_eq_ok {start n : Nat} (hstart : start < 2 ^ 64) :
    readDigits start digits = .ok n ↔
      (∀ c ∈ digits, c.isDigit = true) ∧ n = appended start digits ∧ n < 2 ^ 64 := by
  induction digits generalizing start with
  | nil =>
    simp only [readDigits, appended, List.foldl_nil, Except.ok.injEq, List.not_mem_nil,
      false_implies, implies_true, true_and]
    constructor
    · rintro rfl
      exact ⟨rfl, hstart⟩
    · rintro ⟨rfl, _⟩
      rfl
  | cons c rest ih =>
    have happended : appended start (c :: rest) = appended (start * 10 + digitValue c) rest := rfl
    rw [List.forall_mem_cons, happended]
    by_cases hdigit : c.isDigit = true
    · rw [readDigits_cons_of_isDigit hdigit]
      by_cases hfits : start * 10 + digitValue c < 2 ^ 64
      · rw [if_pos hfits, ih hfits]
        simp [hdigit]
      · -- no further digit brings the number back into range
        rw [if_neg hfits]
        have hle := le_appended (start * 10 + digitValue c) rest
        simp only [reduceCtorEq, false_iff]
        rintro ⟨_, rfl, hlt⟩
        exact hfits (hle.trans_lt hlt)
    · rw [readDigits, if_neg hdigit]
      simp [hdigit]

/-- A numeral is read if its number has 64 bits. -/
theorem readNumeral_eq_ok {n : Nat} :
    readNumeral digits = .ok n ↔ IsNumeral digits ∧ n = magnitude digits ∧ n < 2 ^ 64 := by
  cases digits with
  | nil =>
    simp only [readNumeral, reduceCtorEq, false_iff]
    rintro ⟨h, _⟩
    exact h.nonempty rfl
  | cons c rest =>
    rw [readNumeral, readDigits_eq_ok (by decide), magnitude_eq]
    · constructor
      · rintro ⟨hdigits, hn⟩
        exact ⟨⟨by simp, hdigits⟩, hn⟩
      · rintro ⟨hnumeral, hn⟩
        exact ⟨hnumeral.isDigit, hn⟩
    · simp

/-! ## Reading signs -/

theorem bounded_eq_ok {k : Int} : bounded n = .ok k ↔ n = k ∧ -2 ^ 63 ≤ n ∧ n < 2 ^ 63 := by
  unfold bounded inRange
  split
  · rename_i h
    simp only [Bool.and_eq_true, decide_eq_true_eq] at h
    simp [h]
  · rename_i h
    simp only [Bool.and_eq_true, decide_eq_true_eq] at h
    simp only [reduceCtorEq, false_iff]
    omega

/-- A numeral with a sign is read if the integer has 64 bits. -/
theorem readSigned_eq_ok (signed : Nat → Int) (hsigned : ∀ k, (signed k).natAbs = k) :
    (do bounded (signed (← readNumeral digits))) = Except.ok n ↔
      IsNumeral digits ∧ n = signed (magnitude digits) ∧ -2 ^ 63 ≤ n ∧ n < 2 ^ 63 := by
  constructor
  · intro h
    cases hread : readNumeral digits with
    | error refusal => rw [hread] at h; cases h
    | ok k =>
      rw [hread] at h
      obtain ⟨hnumeral, rfl, _⟩ := readNumeral_eq_ok.mp hread
      obtain ⟨rfl, hrange⟩ := bounded_eq_ok.mp h
      exact ⟨hnumeral, rfl, hrange⟩
  · rintro ⟨hnumeral, rfl, hrange⟩
    have hfits : magnitude digits < 2 ^ 64 := by
      have habs := hsigned (magnitude digits)
      omega
    rw [readNumeral_eq_ok.mpr ⟨hnumeral, rfl, hfits⟩]
    exact bounded_eq_ok.mpr ⟨rfl, hrange⟩

/-- A sign is no digit, so digits behind a sign are no numeral. -/
theorem not_isNumeral_cons {c : Char} (hc : c.isDigit = false) : ¬ IsNumeral (c :: digits) := by
  intro h
  have hdigit := h.isDigit c List.mem_cons_self
  rw [hc] at hdigit
  cases hdigit

/-- The characters behind the sign, if there is one. -/
def behindSign : List Char → List Char
  | '-' :: digits => digits
  | '+' :: digits => digits
  | digits => digits

/-- **A sign and a numeral**: the sign decides which integer is made of the number, in the reading
of a text as well as in what the text denotes. -/
theorem exists_signed (text : String) : ∃ signed : Nat → Int, (∀ k, (signed k).natAbs = k) ∧
    read text = (do bounded (signed (← readNumeral (behindSign text.toList)))) ∧
    ∀ n, Denotes text.toList n ↔
      IsNumeral (behindSign text.toList) ∧ n = signed (magnitude (behindSign text.toList)) := by
  unfold read
  generalize text.toList = chars
  split
  · rename_i digits
    refine ⟨fun k => -(k : Int), by simp, rfl, fun n => ⟨fun hdenotes => ?_, ?_⟩⟩
    · cases hdenotes with
      | unsigned h => exact absurd h (not_isNumeral_cons (by decide))
      | negative h => exact ⟨h, rfl⟩
    · rintro ⟨h, rfl⟩
      exact .negative h
  · rename_i digits
    refine ⟨fun k => (k : Int), by simp, rfl, fun n => ⟨fun hdenotes => ?_, ?_⟩⟩
    · cases hdenotes with
      | unsigned h => exact absurd h (not_isNumeral_cons (by decide))
      | positive h => exact ⟨h, rfl⟩
    · rintro ⟨h, rfl⟩
      exact .positive h
  · rename_i hminus hplus
    have hbehind : behindSign chars = chars := by
      unfold behindSign
      split
      · exact absurd rfl (hminus _)
      · exact absurd rfl (hplus _)
      · rfl
    rw [hbehind]
    refine ⟨fun k => (k : Int), by simp, rfl, fun n => ⟨fun hdenotes => ?_, ?_⟩⟩
    · cases hdenotes with
      | unsigned h => exact ⟨h, rfl⟩
      | positive h => exact absurd rfl (hplus _)
      | negative h => exact absurd rfl (hminus _)
    · rintro ⟨h, rfl⟩
      exact .unsigned h

/-- **What is read** are exactly the decimal integers of 64 bits. -/
theorem read_eq_ok {text : String} : read text = .ok n ↔ Reads text n := by
  obtain ⟨signed, hsigned, hread, hdenotes⟩ := exists_signed text
  rw [hread, readSigned_eq_ok signed hsigned, Reads, hdenotes, and_assoc]

/-- What is refused is no decimal integer of 64 bits. -/
theorem exists_read_eq_error {text : String} :
    (∃ refusal, read text = .error refusal) ↔ ¬∃ n, Reads text n := by
  simp only [← read_eq_ok]
  cases read text <;> simp

end Integer

/-! ## Reading lists -/

namespace Analysis

open Integer

variable {texts : List String}

/-- **Texts are read** if each is a decimal integer of 64 bits, and each gives its integer. -/
theorem readIntegers_eq_ok {elements : List Element} :
    readIntegers texts = .ok elements ↔
      ∃ numbers, List.Forall₂ Reads texts numbers ∧ elements = numbers.map Element.int := by
  induction texts generalizing elements with
  | nil => simp [readIntegers, List.forall₂_nil_left_iff, eq_comm]
  | cons text rest ih =>
    rw [readIntegers]
    cases hread : Integer.read text with
    | error refusal =>
      simp only [reduceCtorEq, false_iff]
      rintro ⟨_, hnumbers, _⟩
      cases hnumbers with
      | cons hfirst _ =>
        rw [read_eq_ok.mpr hfirst] at hread
        cases hread
    | ok n =>
      constructor
      · intro h
        cases hrest : readIntegers rest with
        | error fault =>
          simp only [hrest] at h
          cases h
        | ok others =>
          simp only [hrest] at h
          obtain ⟨numbers, hnumbers, rfl⟩ := ih.mp hrest
          refine ⟨n :: numbers, .cons (read_eq_ok.mp hread) hnumbers, ?_⟩
          exact (Except.ok.inj h).symm
      · rintro ⟨_, hnumbers, rfl⟩
        cases hnumbers with
        | cons hfirst hothers =>
          rw [read_eq_ok.mpr hfirst] at hread
          cases hread
          simp only [ih.mpr ⟨_, hothers, rfl⟩]
          rfl

/-- **The first text that is no decimal integer of 64 bits** is the one that is refused. -/
theorem readIntegers_eq_error {fault : Fault} :
    readIntegers texts = .error fault ↔
      ∃ before text after refusal, texts = before ++ text :: after ∧
      (∀ t ∈ before, ∃ n, Reads t n) ∧ Integer.read text = .error refusal ∧
        fault = .badInteger text refusal := by
  induction texts with
  | nil => simp [readIntegers]
  | cons text rest ih =>
    rw [readIntegers]
    cases hread : Integer.read text with
    | error refusal =>
      constructor
      · intro h
        exact ⟨[], text, rest, refusal, rfl, by simp, hread, (Except.error.inj h).symm⟩
      · rintro ⟨before, text', after, refusal', htexts, hbefore, hread', rfl⟩
        cases before with
        | nil =>
          obtain ⟨rfl, rfl⟩ := List.cons.inj htexts
          rw [hread] at hread'
          cases hread'
          rfl
        | cons first others =>
          obtain ⟨rfl, _⟩ := List.cons.inj htexts
          exact absurd (hbefore text List.mem_cons_self) (exists_read_eq_error.mp ⟨refusal, hread⟩)
    | ok n =>
      have hrest : (do return Element.int n :: (← readIntegers rest)) = Except.error fault ↔
          readIntegers rest = .error fault := by
        cases readIntegers rest <;> simp [bind, Except.bind, pure, Except.pure]
      rw [hrest, ih]
      constructor
      · rintro ⟨before, text', after, refusal, rfl, hbefore, hrefused, rfl⟩
        refine ⟨text :: before, text', after, refusal, rfl, ?_, hrefused, rfl⟩
        exact List.forall_mem_cons.mpr ⟨⟨n, read_eq_ok.mp hread⟩, hbefore⟩
      · rintro ⟨before, text', after, refusal, htexts, hbefore, hrefused, rfl⟩
        cases before with
        | nil =>
          obtain ⟨rfl, _⟩ := List.cons.inj htexts
          rw [hread] at hrefused
          cases hrefused
        | cons first others =>
          obtain ⟨rfl, rfl⟩ := List.cons.inj htexts
          exact ⟨others, text', after, refusal, rfl, (List.forall_mem_cons.mp hbefore).2,
            hrefused, rfl⟩

theorem exists_readIntegers_eq_ok :
    (∃ elements, readIntegers texts = .ok elements) ↔ ∀ text ∈ texts, ∃ n, Reads text n := by
  cases hread : readIntegers texts with
  | error fault =>
    obtain ⟨before, text, after, refusal, rfl, _, hrefused, _⟩ := readIntegers_eq_error.mp hread
    refine iff_of_false (by simp) fun hall => ?_
    exact exists_read_eq_error.mp ⟨refusal, hrefused⟩ (hall text (by simp))
  | ok elements =>
    obtain ⟨numbers, hnumbers, _⟩ := readIntegers_eq_ok.mp hread
    refine iff_of_true ⟨elements, rfl⟩ fun text htext => ?_
    obtain ⟨n, _, hn⟩ := (exists_of_forall₂ hnumbers).1 text htext
    exact ⟨n, hn⟩

end Analysis

end FieldFlow
