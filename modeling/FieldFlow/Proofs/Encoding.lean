import FieldFlow.Text.Integer
import FieldFlow.Text.Quoted
import Mathlib.Algebra.Group.Nat.Defs

/-!
# Self-delimiting texts

A key is written by nesting: quoted texts inside elements, elements inside sets, sets inside
transformers.  What keeps such a key readable is that every part delimits itself: whatever text
stands behind it, the part can be told from every other part, and so can the place where it ends.

Main results: `delimits_quote`, `joined_cancel`, `Integer.display_injective`.
-/

namespace FieldFlow

/-! ## Codes -/

/-- The code of `x` delimits itself: in front of any text it shows what is coded, as far as `view`
looks at it, and where the code ends. -/
def Delimits {α β : Type} (code : α → String) (view : α → β) (x : α) : Prop :=
  ∀ (y : α) (r s : List Char),
    (code x).toList ++ r = (code y).toList ++ s → view x = view y ∧ r = s

section Joined

variable {α β : Type} {code : α → String} {view : α → β}

/-- A code that delimits itself tells its subjects apart. -/
theorem Delimits.view_eq {x y : α} (hx : Delimits code view x) (h : code x = code y) :
    view x = view y := by
  have happend : (code x).toList ++ [] = (code y).toList ++ [] := by rw [h]
  exact (hx y [] [] happend).1

/-- A joined text is its first part, then every other part behind a separator. -/
theorem toList_intercalate_cons (sep : String) (k : String) (ks : List String) :
    (String.intercalate sep (k :: ks)).toList
      = k.toList ++ ks.flatMap (fun k => sep.toList ++ k.toList) := by
  induction ks generalizing k with
  | nil => simp
  | cons k' ks ih =>
    rw [String.intercalate_cons_cons, String.toList_append, String.toList_append, ih k',
      List.flatMap_cons, List.append_assoc, List.append_assoc]

/-- Two texts without a character, each in front of it, can be told apart. -/
theorem front_cancel {c : Char} (p : List Char) : ∀ (q r s : List Char), c ∉ p → c ∉ q →
    p ++ c :: r = q ++ c :: s → p = q ∧ r = s := by
  induction p with
  | nil =>
    intro q r s _ hq h
    cases q with
    | nil => exact ⟨rfl, (List.cons.inj h).2⟩
    | cons d q => exact absurd ((List.cons.inj h).1 ▸ List.mem_cons_self) hq
  | cons d p ih =>
    intro q r s hp hq h
    cases q with
    | nil => exact absurd ((List.cons.inj h).1 ▸ List.mem_cons_self) hp
    | cons e q =>
      obtain ⟨hde, hrest⟩ := List.cons.inj h
      obtain ⟨hpq, hrs⟩ := ih q r s (fun hm => hp (List.mem_cons_of_mem d hm))
        (fun hm => hq (List.mem_cons_of_mem e hm)) hrest
      exact ⟨by rw [hde, hpq], hrs⟩

/-- Codes behind separators can be read one after the other, up to a closing character. -/
theorem separated_cancel {sep close : Char} (hsep : sep ≠ close) (xs : List α) :
    (∀ x ∈ xs, Delimits code view x) → ∀ (ys : List α) (r s : List Char),
      xs.flatMap (fun x => sep :: (code x).toList) ++ close :: r
        = ys.flatMap (fun y => sep :: (code y).toList) ++ close :: s →
      xs.map view = ys.map view ∧ r = s := by
  induction xs with
  | nil =>
    intro _ ys r s h
    cases ys with
    | nil => exact ⟨rfl, (List.cons.inj h).2⟩
    | cons y ys => exact absurd (List.cons.inj h).1.symm hsep
  | cons x xs ih =>
    intro hall ys r s h
    cases ys with
    | nil => exact absurd (List.cons.inj h).1 hsep
    | cons y ys =>
      rw [List.flatMap_cons, List.flatMap_cons, List.append_assoc, List.append_assoc] at h
      obtain ⟨hxy, hrest⟩ := hall x List.mem_cons_self y _ _ (List.cons.inj h).2
      obtain ⟨hviews, hrs⟩ := ih (fun z hz => hall z (List.mem_cons_of_mem x hz)) ys r s hrest
      exact ⟨by rw [List.map_cons, List.map_cons, hxy, hviews], hrs⟩

/-- **Joined codes** can be read one after the other, up to a closing character that starts none of
them. -/
theorem joined_cancel {sep close : Char} (hsep : sep ≠ close)
    (hstart : ∀ x : α, ∃ c rest, (code x).toList = c :: rest ∧ c ≠ close) {xs : List α}
    (hall : ∀ x ∈ xs, Delimits code view x) {ys : List α} {r s : List Char}
    (h : (String.intercalate (String.singleton sep) (xs.map code)).toList ++ close :: r
      = (String.intercalate (String.singleton sep) (ys.map code)).toList ++ close :: s) :
    xs.map view = ys.map view ∧ r = s := by
  cases xs with
  | nil =>
    cases ys with
    | nil => exact ⟨rfl, (List.cons.inj h).2⟩
    | cons y ys =>
      obtain ⟨c, rest, hy, hc⟩ := hstart y
      rw [List.map_cons, toList_intercalate_cons, hy] at h
      exact absurd (List.cons.inj h).1.symm hc
  | cons x xs =>
    cases ys with
    | nil =>
      obtain ⟨c, rest, hx, hc⟩ := hstart x
      rw [List.map_cons, toList_intercalate_cons, hx] at h
      exact absurd (List.cons.inj h).1 hc
    | cons y ys =>
      rw [List.map_cons, List.map_cons, toList_intercalate_cons, toList_intercalate_cons,
        List.append_assoc, List.append_assoc] at h
      obtain ⟨hxy, hrest⟩ := hall x List.mem_cons_self y _ _ h
      simp only [List.flatMap_map, String.toList_singleton, List.singleton_append] at hrest
      obtain ⟨hviews, hrs⟩ :=
        separated_cancel hsep xs (fun z hz => hall z (List.mem_cons_of_mem x hz)) ys r s hrest
      exact ⟨by rw [List.map_cons, List.map_cons, hxy, hviews], hrs⟩

end Joined

/-! ## Quoted texts -/

namespace Text

/-- The value of a digit of base sixteen. -/
def hexValue (c : Char) : Nat := if c.toNat < 58 then c.toNat - 48 else c.toNat - 87

/-- The number that digits of base sixteen denote, the highest first. -/
def hexNumber (digits : List Char) : Nat := digits.foldl (fun n c => n * 16 + hexValue c) 0

theorem hexValue_hexDigit (n : Nat) (h : n < 16) : hexValue (hexDigit n) = n := by
  revert n
  decide

theorem length_hexDigits (width n : Nat) : (hexDigits width n).length = width := by
  induction width generalizing n with
  | zero => rfl
  | succ width ih => rw [hexDigits, List.length_append, ih, List.length_singleton]

/-- A number that fits is read back from its digits. -/
theorem hexNumber_hexDigits (width n : Nat) (h : n < 16 ^ width) :
    hexNumber (hexDigits width n) = n := by
  induction width generalizing n with
  | zero =>
    have hn : n = 0 := by simpa using h
    rw [hn]
    rfl
  | succ width ih =>
    have hdiv : n / 16 < 16 ^ width := by
      rw [Nat.pow_succ] at h
      omega
    have hlast : hexValue (hexDigit (n % 16)) = n % 16 :=
      hexValue_hexDigit _ (Nat.mod_lt _ (by decide))
    have hfront := ih (n / 16) hdiv
    unfold hexNumber at hfront ⊢
    rw [hexDigits, List.foldl_append, hfront, List.foldl_cons, List.foldl_nil, hlast]
    omega

/-- What a letter behind a backslash stands for, and what is left of the text. -/
def unescapeLetter (letter : Char) (rest : List Char) : Char × List Char :=
  match letter with
  | 'a' => (Char.ofNat 7, rest)
  | 'b' => (Char.ofNat 8, rest)
  | 't' => (Char.ofNat 9, rest)
  | 'n' => (Char.ofNat 10, rest)
  | 'v' => (Char.ofNat 11, rest)
  | 'f' => (Char.ofNat 12, rest)
  | 'r' => (Char.ofNat 13, rest)
  | 'x' => (Char.ofNat (hexNumber (rest.take 2)), rest.drop 2)
  | 'u' => (Char.ofNat (hexNumber (rest.take 4)), rest.drop 4)
  | 'U' => (Char.ofNat (hexNumber (rest.take 8)), rest.drop 8)
  | c => (c, rest)

/-- Reads one written character off the front of a text. -/
def unescape : List Char → Option (Char × List Char)
  | '\\' :: letter :: rest => some (unescapeLetter letter rest)
  | c :: rest => some (c, rest)
  | [] => none

/-- A code written in a fixed number of digits is read back. -/
theorem ofNat_hexNumber_take (width : Nat) {c : Char} (h : c.toNat < 16 ^ width)
    (rest : List Char) :
    (Char.ofNat (hexNumber ((hexDigits width c.toNat ++ rest).take width)),
      (hexDigits width c.toNat ++ rest).drop width) = (c, rest) := by
  have hlen : (hexDigits width c.toNat).length = width := length_hexDigits width c.toNat
  rw [List.take_append_of_le_length (by omega), List.take_of_length_le (by omega),
    hexNumber_hexDigits width _ h, Char.ofNat_toNat]
  simp [hlen]

/-- A character that is written by its letter or its code is read back. -/
theorem unescape_escapeCode (c : Char) (rest : List Char) :
    unescape (escapeCode c ++ rest) = some (c, rest) := by
  unfold escapeCode
  split
  case h_8 =>
    -- the number of digits follows the size of the code
    have hmax : c.toNat < 16 ^ 8 := by
      rcases c.valid with hvalid | ⟨_, hvalid⟩
      · exact Nat.lt_trans hvalid (by decide)
      · exact Nat.lt_trans hvalid (by decide)
    split
    · rename_i hsmall
      exact congrArg some (ofNat_hexNumber_take 2 (by omega) rest)
    · split
      · rename_i hmiddle
        exact congrArg some (ofNat_hexNumber_take 4 (by omega) rest)
      · exact congrArg some (ofNat_hexNumber_take 8 hmax rest)
  all_goals
    rename_i h
    simp only [List.cons_append, List.nil_append, unescape, unescapeLetter]
    rw [← h, Char.ofNat_toNat]

/-- Whatever a character is written as, it is read back. -/
theorem unescape_escape (c : Char) (rest : List Char) :
    unescape (escape c ++ rest) = some (c, rest) := by
  unfold escape
  split
  · rename_i h
    rw [h]
    rfl
  · split
    · rename_i h
      rw [h]
      rfl
    · split
      · rename_i hslash _
        simp [unescape, hslash]
      · exact unescape_escapeCode c rest

/-- Nothing that is written inside quotes starts with a quote. -/
theorem escape_head (c : Char) : ∃ d rest, escape c = d :: rest ∧ d ≠ '"' := by
  unfold escape
  split
  · exact ⟨_, _, rfl, by decide⟩
  · rename_i hquote
    split
    · exact ⟨_, _, rfl, by decide⟩
    · split
      · exact ⟨_, _, rfl, hquote⟩
      · unfold escapeCode
        repeat' split
        all_goals exact ⟨_, _, rfl, by decide⟩

/-- What is written up to the closing quote can be read back. -/
theorem escaped_cancel (cs : List Char) : ∀ (ds r s : List Char),
    cs.flatMap escape ++ '"' :: r = ds.flatMap escape ++ '"' :: s → cs = ds ∧ r = s := by
  induction cs with
  | nil =>
    intro ds r s h
    cases ds with
    | nil => exact ⟨rfl, (List.cons.inj h).2⟩
    | cons d ds =>
      obtain ⟨e, rest, hd, he⟩ := escape_head d
      rw [List.flatMap_cons, hd] at h
      exact absurd (List.cons.inj h).1.symm he
  | cons c cs ih =>
    intro ds r s h
    cases ds with
    | nil =>
      obtain ⟨e, rest, hc, he⟩ := escape_head c
      rw [List.flatMap_cons, hc] at h
      exact absurd (List.cons.inj h).1 he
    | cons d ds =>
      rw [List.flatMap_cons, List.flatMap_cons, List.append_assoc, List.append_assoc] at h
      have hread := congrArg unescape h
      rw [unescape_escape, unescape_escape] at hread
      obtain ⟨hcd, hrest⟩ := Prod.mk.inj (Option.some.inj hread)
      obtain ⟨hcs, hrs⟩ := ih ds r s hrest
      exact ⟨by rw [hcd, hcs], hrs⟩

/-- **Quoted texts delimit themselves**, whatever characters they hold. -/
theorem delimits_quote (text : String) : Delimits quote id text := by
  intro other r s h
  unfold quote at h
  rw [String.toList_ofList, String.toList_ofList, List.cons_append, List.cons_append,
    List.append_assoc, List.append_assoc] at h
  obtain ⟨htexts, hrs⟩ := escaped_cancel _ _ _ _ (List.cons.inj h).2
  exact ⟨String.toList_inj.mp htexts, hrs⟩

end Text

/-! ## Integers -/

namespace Integer

theorem repr_ne_minus_append (m n : Nat) : Nat.repr m ≠ "-" ++ Nat.repr n := by
  intro h
  have hlist := congrArg String.toList h
  rw [String.toList_append] at hlist
  have hminus : '-' ∈ Nat.toDigits 10 m := by
    rw [← Nat.toList_repr, hlist]
    exact List.mem_cons_self
  have hdigit := Nat.isDigit_of_mem_toDigits (by decide) (by decide) hminus
  exact absurd hdigit (by decide)

/-- Different natural numbers are written differently. -/
theorem repr_injective {m n : Nat} (h : Nat.repr m = Nat.repr n) : m = n := by
  have hdigits : Nat.toDigits 10 m = Nat.toDigits 10 n := by
    rw [← Nat.toList_repr, ← Nat.toList_repr, h]
  rw [← Nat.ofDigitChars_toDigits (b := 10) (n := m) (by decide) (by decide), hdigits,
    Nat.ofDigitChars_toDigits (by decide) (by decide)]

/-- **Different integers are written differently.** -/
theorem display_injective {m n : Int} (h : display m = display n) : m = n := by
  unfold display at h
  split at h <;> split at h
  · have habs := repr_injective (String.append_right_inj "-" |>.mp h)
    omega
  · exact absurd h.symm (repr_ne_minus_append _ _)
  · exact absurd h (repr_ne_minus_append _ _)
  · have habs := repr_injective h
    omega

end Integer

end FieldFlow
