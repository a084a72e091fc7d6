import LinePattern.Proofs.Arguments
import Mathlib.Algebra.Group.Nat.Defs

/-!
# Numerals and their errors

A numeral is read char by char, with a test of the bound at each digit. What comes out is said here
of the text as a whole: its digits behind the sign, and the number that they write. A text that is
no numeral has one error. It is that of the bound exactly if the digits in front of the first other
char write too great a number already, for more digits do not make it smaller and the other char is
not met.

Main statements:

* `readDigits_eq`: the loop, from any number below the bound.
* `parse_eq`: the numeral, with its sign and the cases that have no digits.
* `ofArgs_of_limit_value`: the limit that arguments set.
-/

namespace LinePattern

namespace Numeral

/-- The text behind the plus sign, if one stands in front. A second one is not taken off. -/
def unsigned : List Char → List Char
  | '+' :: digits => digits
  | digits => digits

/-- The number that the digits write up to the first char that is none. -/
def leadingValue (v : List Char) : Nat :=
  Nat.ofDigitChars 10 ((unsigned v).takeWhile Char.isDigit) 0

/-- The text writes the number, which is one of 64 bits. -/
structure Writes (v : List Char) (n : Nat) : Prop where
  /-- There are digits. -/
  ne_nil : unsigned v ≠ []
  /-- There is nothing else. -/
  isDigit : ∀ c ∈ unsigned v, c.isDigit = true
  /-- The number is the one that the digits write in decimal. -/
  value : Nat.ofDigitChars 10 (unsigned v) 0 = n
  /-- The number has 64 bits. -/
  lt : n < 2 ^ 64

variable {v : List Char} {n value : Nat}

/-! ### Reading digits -/

/-- More digits do not make a number smaller. -/
theorem le_ofDigitChars (value : Nat) (cs : List Char) : value ≤ Nat.ofDigitChars 10 cs value := by
  rw [Nat.ofDigitChars_eq_ofDigitChars_zero]
  have h_le : value ≤ 10 ^ cs.length * value :=
    Nat.le_mul_of_pos_left value (Nat.pow_pos (by decide))
  exact Nat.le_add_right_of_le h_le

/-- **The loop.** The digits in front of the first other char decide whether the bound is met; if it
is not, that char is met, or the end. -/
theorem readDigits_eq (h_value : value < bound) (cs : List Char) :
    readDigits value cs =
      if bound ≤ Nat.ofDigitChars 10 (cs.takeWhile Char.isDigit) value then .error .tooLarge
      else if cs.all Char.isDigit then .ok (Nat.ofDigitChars 10 cs value)
      else .error .invalidDigit := by
  fun_induction readDigits value cs with
  | case1 value =>
    rw [List.takeWhile_nil, Nat.ofDigitChars_nil, if_neg h_value.not_ge, if_pos List.all_nil]
  | case2 value c cs h_digit h_lt ih =>
    -- The digit is read, and both numbers start from the one that it leads to.
    rw [List.takeWhile_cons_of_pos h_digit, Nat.ofDigitChars_cons, Nat.ofDigitChars_cons,
      List.all_cons, h_digit, Bool.true_and]
    exact ih h_lt
  | case3 value c cs h_digit h_ge =>
    -- The bound is met here, and the digits that follow do not lead below it again.
    rw [List.takeWhile_cons_of_pos h_digit, Nat.ofDigitChars_cons]
    have h_le := le_ofDigitChars (10 * value + digitValue c) (cs.takeWhile Char.isDigit)
    exact (if_pos ((Nat.le_of_not_lt h_ge).trans h_le)).symm
  | case4 value c cs h_digit =>
    -- The digits end here, below the bound.
    rw [List.takeWhile_cons_of_neg h_digit, Nat.ofDigitChars_nil, if_neg h_value.not_ge,
      List.all_cons, Bool.eq_false_iff.mpr h_digit, Bool.false_and, if_neg Bool.false_ne_true]

/-! ### Reading a numeral -/

/-- Where something is behind the sign, reading starts there, with nothing read yet. -/
theorem parse_eq_readDigits (h : unsigned v ≠ []) : parse v = readDigits 0 (unsigned v) := by
  unfold unsigned at h ⊢
  unfold parse
  split <;> simp_all

/-- **The numeral.** The bound is looked at before what is no digit. -/
theorem parse_eq (v : List Char) :
    parse v =
      if v = [] then .error .empty
      else if 2 ^ 64 ≤ leadingValue v then .error .tooLarge
      else if unsigned v ≠ [] ∧ (unsigned v).all Char.isDigit then
        .ok (Nat.ofDigitChars 10 (unsigned v) 0)
      else .error .invalidDigit := by
  by_cases h_unsigned : unsigned v = []
  · -- There is a sign at most.
    obtain rfl | rfl : v = [] ∨ v = ['+'] := by
      unfold unsigned at h_unsigned
      split at h_unsigned <;> simp_all
    · rfl
    · rfl
  · -- The loop starts behind the sign, from zero, which is below the bound.
    have h_ne : v ≠ [] := by
      rintro rfl
      exact h_unsigned rfl
    rw [parse_eq_readDigits h_unsigned, readDigits_eq (by decide), if_neg h_ne]
    simp only [leadingValue, h_unsigned, not_false_eq_true, ne_eq, true_and]
    rfl

/-- A text that writes a number has digits only, so its leading ones write the number. -/
theorem Writes.leadingValue_eq (h : Writes v n) : leadingValue v = n := by
  rw [leadingValue, List.takeWhile_eq_self_iff.mpr h.isDigit, h.value]

/-- **What is taken.** Exactly the texts that write a number of 64 bits are, as that number. -/
theorem parse_eq_ok_iff : parse v = .ok n ↔ Writes v n := by
  rw [parse_eq]
  refine ⟨?_, ?_⟩
  · -- Of the four outcomes one is a number, behind three conditions.
    intro h
    split at h
    · contradiction
    split at h
    · contradiction
    next h_lt =>
    split at h
    next h_digits =>
      -- All chars are digits, so the value of the leading ones is that of the text.
      rw [Except.ok.injEq] at h
      have h_writes : Writes v (leadingValue v) := by
        have h_all := List.all_eq_true.mp h_digits.2
        refine ⟨h_digits.1, h_all, ?_, Nat.lt_of_not_le h_lt⟩
        rw [leadingValue, List.takeWhile_eq_self_iff.mpr h_all]
      rwa [← h_writes.value, h] at h_writes
    · contradiction
  · intro h
    have h_ne : v ≠ [] := by
      rintro rfl
      exact h.ne_nil rfl
    rw [if_neg h_ne, h.leadingValue_eq, if_neg h.lt.not_ge,
      if_pos ⟨h.ne_nil, List.all_eq_true.mpr h.isDigit⟩, h.value]

/-- The empty text, and no other, is refused for being empty: a sign alone is a char that is no
digit. -/
theorem parse_eq_empty_iff : parse v = .error .empty ↔ v = [] := by
  rw [parse_eq]
  split_ifs <;> simp_all

/-- A text is refused for its number if the leading digits write too great a number, whatever
follows them. -/
theorem parse_eq_tooLarge_iff : parse v = .error .tooLarge ↔ 2 ^ 64 ≤ leadingValue v := by
  rw [parse_eq]
  split_ifs with h_nil h_le
  · rw [h_nil]
    exact iff_of_false nofun (by decide)
  · exact iff_of_true rfl h_le
  · exact iff_of_false nofun h_le
  · exact iff_of_false nofun h_le

/-- Every other text has a char that is no digit, or a sign and nothing else. -/
theorem parse_eq_invalidDigit_iff :
    parse v = .error .invalidDigit ↔ v ≠ [] ∧ leadingValue v < 2 ^ 64 ∧ ∀ n, ¬ Writes v n := by
  -- Each condition excludes one of the other outcomes.
  rw [← Nat.not_le, ← parse_eq_tooLarge_iff, ne_eq, ← parse_eq_empty_iff]
  simp only [← parse_eq_ok_iff]
  cases parse v with
  | ok n => simp
  | error cause => cases cause <;> simp

/-! ### Writing a numeral -/

/-- A text of digits has no sign. -/
theorem unsigned_of_isDigit (h : ∀ c ∈ v, c.isDigit = true) : unsigned v = v := by
  unfold unsigned
  split
  · next digits =>
    exact absurd (h '+' List.mem_cons_self) (by decide)
  · rfl

/-- The decimal text of a number writes it, with any number of zeros in front. -/
theorem writes_replicate_append_toDigits (h : n < 2 ^ 64) (zeros : Nat) :
    Writes (List.replicate zeros '0' ++ Nat.toDigits 10 n) n ∧
      Writes ('+' :: (List.replicate zeros '0' ++ Nat.toDigits 10 n)) n := by
  have h_ne : List.replicate zeros '0' ++ Nat.toDigits 10 n ≠ [] :=
    List.append_ne_nil_of_right_ne_nil _ Nat.toDigits_ne_nil
  have h_digit : ∀ c ∈ List.replicate zeros '0' ++ Nat.toDigits 10 n, c.isDigit = true := by
    intro c h_mem
    rcases List.mem_append.mp h_mem with h_mem | h_mem
    · rw [List.eq_of_mem_replicate h_mem]
      rfl
    · exact Nat.isDigit_of_mem_toDigits (by decide) (by decide) h_mem
  -- Zeros in front leave the value at zero.
  have h_value : Nat.ofDigitChars 10 (List.replicate zeros '0' ++ Nat.toDigits 10 n) 0 = n := by
    rw [Nat.ofDigitChars_append, Nat.ofDigitChars_replicate_zero, Nat.mul_zero,
      Nat.ofDigitChars_ten_toDigits]
  -- The text behind the sign is the same with the sign and without.
  have h_unsigned := unsigned_of_isDigit h_digit
  refine ⟨⟨?_, ?_, ?_, h⟩, ⟨h_ne, h_digit, h_value, h⟩⟩
  · rwa [h_unsigned]
  · rwa [h_unsigned]
  · rwa [h_unsigned]

end Numeral

namespace Request

open Numeral (Writes leadingValue)

variable {before after front back : List String} {value : String}

/-- The first limit decides alone, by what it writes. -/
theorem ofArgs_of_first_limit (first : "-E" ∉ before)
    (h_limit : before ++ after = front ++ ("--max-line-chars=" ++ value) :: back)
    (h_first : ∀ value', "--max-line-chars=" ++ value' ∉ front) (pattern : String) :
    (∀ n, ofArgs (before ++ "-E" :: pattern :: after) = .ok ⟨pattern, n⟩ ↔
      Numeral.parse value.toList = .ok n) ∧
    ∀ cause, ofArgs (before ++ "-E" :: pattern :: after) = .error (.invalidLimit value cause) ↔
      Numeral.parse value.toList = .error cause := by
  rw [ofArgs_append_pattern first, h_limit, readLimit_of_first h_first]
  cases Numeral.parse value.toList <;> simp [Except.map, Except.mapError]

/-- **The limit.** The text of the first limit is taken as `n` exactly if it writes `n` in decimal,
with one plus sign and leading zeros or without, and `n` has 64 bits. A text that is not taken has
one error: that of the empty text, or of digits in front that write a number of more bits, or else
of a char that is no digit. -/
theorem ofArgs_of_limit_value (first : "-E" ∉ before)
    (h_limit : before ++ after = front ++ ("--max-line-chars=" ++ value) :: back)
    (h_first : ∀ value', "--max-line-chars=" ++ value' ∉ front) (pattern : String) :
    (∀ n, ofArgs (before ++ "-E" :: pattern :: after) = .ok ⟨pattern, n⟩ ↔
      Writes value.toList n) ∧
    (ofArgs (before ++ "-E" :: pattern :: after) = .error (.invalidLimit value .empty) ↔
      value = "") ∧
    (ofArgs (before ++ "-E" :: pattern :: after) = .error (.invalidLimit value .tooLarge) ↔
      2 ^ 64 ≤ leadingValue value.toList) ∧
    (ofArgs (before ++ "-E" :: pattern :: after) = .error (.invalidLimit value .invalidDigit) ↔
      value ≠ "" ∧ leadingValue value.toList < 2 ^ 64 ∧ ∀ n, ¬ Writes value.toList n) ∧
    ∀ n < 2 ^ 64, ∀ zeros,
      (value.toList = List.replicate zeros '0' ++ Nat.toDigits 10 n ∨
        value.toList = '+' :: (List.replicate zeros '0' ++ Nat.toDigits 10 n)) →
      ofArgs (before ++ "-E" :: pattern :: after) = .ok ⟨pattern, n⟩ := by
  obtain ⟨h_ok, h_error⟩ := ofArgs_of_first_limit first h_limit h_first pattern
  simp only [h_ok, h_error, ne_eq, ← String.toList_eq_nil_iff]
  refine ⟨fun n => Numeral.parse_eq_ok_iff, Numeral.parse_eq_empty_iff,
    Numeral.parse_eq_tooLarge_iff, Numeral.parse_eq_invalidDigit_iff, ?_⟩
  intro n h_lt zeros h_value
  obtain ⟨h_plain, h_signed⟩ := Numeral.writes_replicate_append_toDigits h_lt zeros
  rw [Numeral.parse_eq_ok_iff]
  rcases h_value with h_value | h_value
  · rwa [h_value]
  · rwa [h_value]

/-- The greatest number of 64 bits is a limit, with a sign and a zero in front. The next one is too
large, even where a char behind it is no digit; and where that char comes first it is told. -/
theorem ofArgs_of_edge_limits :
    (∀ value', "--max-line-chars=" ++ value' ∉ ["tinygrep"]) ∧
      ofArgs ["tinygrep", "-E", "a", "--max-line-chars=+018446744073709551615"] =
        .ok ⟨"a", 2 ^ 64 - 1⟩ ∧
      ofArgs ["tinygrep", "-E", "a", "--max-line-chars=18446744073709551616x"] =
        .error (.invalidLimit "18446744073709551616x" .tooLarge) ∧
      ofArgs ["tinygrep", "-E", "a", "--max-line-chars=1844674407370955161x6"] =
        .error (.invalidLimit "1844674407370955161x6" .invalidDigit) := by
  have h_first : ∀ value', "--max-line-chars=" ++ value' ∉ ["tinygrep"] :=
    forall_limitText?_eq_none_iff.mp (by decide +kernel)
  have h (value : String) := @ofArgs_of_limit_value ["tinygrep"] ["--max-line-chars=" ++ value]
    ["tinygrep"] [] value (by decide) rfl h_first "a"
  refine ⟨h_first, ?_, ?_, ?_⟩
  · obtain ⟨-, -, -, -, h_numeral⟩ := h "+018446744073709551615"
    exact h_numeral (2 ^ 64 - 1) (by decide) 1 (.inr (by decide +kernel))
  · obtain ⟨-, -, h_tooLarge, -⟩ := h "18446744073709551616x"
    exact h_tooLarge.mpr (by decide +kernel)
  · obtain ⟨-, -, -, h_invalidDigit, -⟩ := h "1844674407370955161x6"
    refine h_invalidDigit.mpr ⟨by decide, by decide +kernel, ?_⟩
    intro n h_writes
    exact absurd (h_writes.isDigit 'x' (by decide +kernel)) (by decide)

end Request

end LinePattern
