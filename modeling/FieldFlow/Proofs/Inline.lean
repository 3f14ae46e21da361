import FieldFlow.Proofs.Numerals
import Mathlib.Data.List.TakeWhile

/-!
# Values written in a model

The values of an integer field are written in the model as texts.  They are read exactly: all of
them or none, each as the integer that it denotes, and the written form of a 64 bit integer as that
integer.  If they are not read, the first text that is no integer of 64 bits is refused.  It is out
of range if it denotes an integer that is too wide, or if its digits go beyond 64 bits even without
a sign before anything else than a digit comes; otherwise it is malformed.

Main definitions: `Integer.Exceeds`.
Main results: `Integer.read_eq_error`, `Integer.reads_display`, `Analysis.read_int_exact`.
-/

namespace FieldFlow

namespace Integer

variable {digits : List Char} {text : String}

/-! ## Why a text is refused -/

/-- There are too many digits for 64 bits. -/
inductive Exceeds (chars : List Char) : Prop
  /-- An integer is denoted, and it does not have 64 bits. -/
  | wide {n : Int} (h : Denotes chars n) (hn : ¬(-2 ^ 63 ≤ n ∧ n < 2 ^ 63)) : Exceeds chars
  /-- The digits up to the first other character denote a number that does not have 64 bits without
  a sign. -/
  | long (h : 2 ^ 64 ≤ magnitude ((behindSign chars).takeWhile Char.isDigit)) : Exceeds chars

/-- Digits are out of range if those before the first other character are; what comes behind them is
not looked at. -/
theorem readDigits_eq_outOfRange {start : Nat} (hstart : start < 2 ^ 64) :
    readDigits start digits = .error .outOfRange ↔
      2 ^ 64 ≤ appended start (digits.takeWhile Char.isDigit) := by
  induction digits generalizing start with
  | nil => simpa [readDigits, appended] using hstart
  | cons c rest ih =>
    by_cases hdigit : c.isDigit = true
    · have happended : appended start (c :: rest.takeWhile Char.isDigit)
          = appended (start * 10 + digitValue c) (rest.takeWhile Char.isDigit) := rfl
      rw [readDigits_cons_of_isDigit hdigit, List.takeWhile_cons_of_pos hdigit, happended]
      by_cases hfits : start * 10 + digitValue c < 2 ^ 64
      · rw [if_pos hfits, ih hfits]
      · rw [if_neg hfits]
        exact iff_of_true rfl ((Nat.le_of_not_lt hfits).trans (le_appended _ _))
    · rw [readDigits, if_neg hdigit, List.takeWhile_cons_of_neg hdigit]
      simpa [appended] using hstart

/-- A numeral is out of range if its digits before the first other character are. -/
theorem readNumeral_eq_outOfRange :
    readNumeral digits = .error .outOfRange ↔
      2 ^ 64 ≤ magnitude (digits.takeWhile Char.isDigit) := by
  rw [magnitude_eq]
  cases digits with
  | nil => simp [readNumeral, appended]
  | cons c rest => exact readDigits_eq_outOfRange (by decide)

/-- An integer that does not have 64 bits is out of range. -/
theorem bounded_eq_outOfRange {n : Int} :
    bounded n = .error .outOfRange ↔ ¬(-2 ^ 63 ≤ n ∧ n < 2 ^ 63) := by
  have hok : bounded n = .ok n ↔ -2 ^ 63 ≤ n ∧ n < 2 ^ 63 := by
    rw [bounded_eq_ok, and_iff_right rfl]
  rw [← hok]
  unfold bounded
  split <;> simp

/-- **A text is out of range** if it has too many digits. -/
theorem read_eq_outOfRange : read text = .error .outOfRange ↔ Exceeds text.toList := by
  obtain ⟨signed, _, hread, hdenotes⟩ := exists_signed text
  rw [hread]
  constructor
  · intro h
    cases hnumeral : readNumeral (behindSign text.toList) with
    | error refusal =>
      rw [hnumeral] at h
      obtain rfl := Except.error.inj h
      exact .long (readNumeral_eq_outOfRange.mp hnumeral)
    | ok k =>
      rw [hnumeral] at h
      obtain ⟨hdigits, rfl, _⟩ := readNumeral_eq_ok.mp hnumeral
      exact .wide ((hdenotes _).mpr ⟨hdigits, rfl⟩) (bounded_eq_outOfRange.mp h)
  · rintro (⟨h, hn⟩ | h)
    · obtain ⟨hdigits, rfl⟩ := (hdenotes _).mp h
      by_cases hfits : magnitude (behindSign text.toList) < 2 ^ 64
      · rw [readNumeral_eq_ok.mpr ⟨hdigits, rfl, hfits⟩]
        exact bounded_eq_outOfRange.mpr hn
      · have hall : (behindSign text.toList).takeWhile Char.isDigit = behindSign text.toList :=
          List.takeWhile_eq_self_iff.mpr hdigits.isDigit
        rw [readNumeral_eq_outOfRange.mpr (hall.symm ▸ Nat.le_of_not_lt hfits)]
        rfl
    · rw [readNumeral_eq_outOfRange.mpr h]
      rfl

/-- **Why a text is refused.** -/
theorem read_eq_error {refusal : Refusal} :
    read text = .error refusal ↔ (¬∃ n, Reads text n) ∧
      (refusal = .outOfRange ↔ Exceeds text.toList) := by
  rw [← exists_read_eq_error, ← read_eq_outOfRange]
  cases read text with
  | ok n => simp
  | error reason => cases reason <;> cases refusal <;> simp

-- Both ends of the range, and a text with too many digits in front of something else.
example :
    read "-9223372036854775808" = .ok (-2 ^ 63) ∧ read "9223372036854775808" = .error .outOfRange ∧
    read "99999999999999999999x" = .error .outOfRange ∧ read "9x" = .error .malformed := by decide

/-! ## Written forms -/

/-- The written form of a number is a numeral. -/
theorem isNumeral_repr (k : Nat) : IsNumeral (Nat.repr k).toList := by
  rw [Nat.toList_repr]
  exact ⟨Nat.toDigits_ne_nil, fun c hc => Nat.isDigit_of_mem_toDigits (by decide) (by decide) hc⟩

theorem magnitude_repr (k : Nat) : magnitude (Nat.repr k).toList = k := by
  have happended : ∀ digits, appended 0 digits = Nat.ofDigitChars 10 digits 0 := by
    intro digits
    rw [appended, Nat.ofDigitChars_eq_foldl]
    congr 1
    funext n c
    rw [Nat.mul_comm]
    rfl
  rw [magnitude_eq, happended, Nat.toList_repr, Nat.ofDigitChars_toDigits (by decide) (by decide)]

/-- **The written form of an integer denotes it.** -/
theorem denotes_display (n : Int) : Denotes (display n).toList n := by
  have hmagnitude := magnitude_repr n.natAbs
  have hnumeral := isNumeral_repr n.natAbs
  unfold display
  split
  · rename_i hneg
    have hdenotes := Denotes.negative hnumeral
    rw [hmagnitude] at hdenotes
    rw [String.toList_append]
    rwa [show -(n.natAbs : Int) = n by omega] at hdenotes
  · rename_i hnonneg
    have hdenotes := Denotes.unsigned hnumeral
    rw [hmagnitude] at hdenotes
    rwa [show (n.natAbs : Int) = n by omega] at hdenotes

/-- The written form of an integer of 64 bits is read as that integer. -/
theorem reads_display (n : Int64) : Reads (display n.toInt) n.toInt :=
  ⟨denotes_display n.toInt, n.le_toInt, n.toInt_lt⟩

end Integer

namespace Analysis

open Integer

variable {texts : List String}

/-! ## Lists of values -/

theorem readIntegers_eq_ok_forall₂ {elements : List Element} :
    readIntegers texts = .ok elements ↔
      List.Forall₂ (fun text x => ∃ n, Reads text n ∧ x = .int n) texts elements := by
  rw [readIntegers_eq_ok]
  constructor
  · rintro ⟨numbers, hnumbers, rfl⟩
    exact List.forall₂_map_right_iff.mpr (hnumbers.imp fun _ n hn => ⟨n, hn, rfl⟩)
  · intro h
    induction h with
    | nil => exact ⟨[], .nil, rfl⟩
    | cons hfirst _ ih =>
      obtain ⟨n, hn, rfl⟩ := hfirst
      obtain ⟨numbers, hnumbers, rfl⟩ := ih
      exact ⟨n :: numbers, .cons hn hnumbers, rfl⟩

/-- **Integers in a model are read exactly.**  Texts are read if and only if each is one or more
decimal digits behind at most one sign and denotes an integer of 64 bits.  Position by position, the
elements are then the integers that the texts denote.  Otherwise there are no elements, and the
fault names the first text that is not such an integer; it says that this is out of range if its
digits are too many, and malformed if not.  The displayed forms of 64 bit integers are read as these
integers. -/
theorem read_int_exact (texts : List String) :
    ((∃ elements, Analysis.int.read texts = .ok elements) ↔ ∀ text ∈ texts, ∃ n, Reads text n) ∧
    (∀ elements, Analysis.int.read texts = .ok elements ↔
      List.Forall₂ (fun text x => ∃ n, Reads text n ∧ x = .int n) texts elements) ∧
    (∀ fault, Analysis.int.read texts = .error fault ↔ ∃ before text after refusal,
      texts = before ++ text :: after ∧ (∀ t ∈ before, ∃ n, Reads t n) ∧ (¬∃ n, Reads text n) ∧
      (refusal = .outOfRange ↔ Exceeds text.toList) ∧ fault = .badInteger text refusal) ∧
    (∀ numbers : List Int64, Analysis.int.read (numbers.map fun n => (Element.int n.toInt).display)
      = .ok (numbers.map fun n => .int n.toInt)) ∧
    Analyses.defaults.read "int" texts = Analysis.int.read texts := by
  refine ⟨exists_readIntegers_eq_ok, fun _ => readIntegers_eq_ok_forall₂, fun fault => ?_,
    fun numbers => ?_, rfl⟩
  · refine readIntegers_eq_error.trans ?_
    simp only [read_eq_error, and_assoc]
  · refine readIntegers_eq_ok_forall₂.mpr ?_
    rw [List.forall₂_map_left_iff, List.forall₂_map_right_iff, List.forall₂_same]
    exact fun n _ => ⟨n.toInt, reads_display n, rfl⟩

end Analysis

end FieldFlow
