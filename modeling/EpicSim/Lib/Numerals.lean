import Mathlib.Data.List.TakeWhile
import Mathlib.Data.Nat.Digits.Defs
import Mathlib.Data.Nat.Log
import Mathlib.Tactic.IntervalCases

/-
  Numerals of a fixed number of digits.

  A numeral with leading zeros is the digits of a number filled
  up on the left.  Without its leading zeros it is what the
  standard printer writes, but nothing for zero.
-/

----
-- Digits
----

namespace Numerals

/- The last `k` digits of a number. -/
def padded (b : Nat) : Nat → Nat → List Char
| 0, _ => []
| k + 1, n => padded b k (n / b) ++ [Nat.digitChar (n % b)]

theorem padded_add (b i j n : Nat) :
    padded b (i + j) n = padded b i (n / b ^ j) ++ padded b j n := by
  induction j generalizing n with
  | zero => rw [Nat.add_zero, pow_zero, Nat.div_one, padded, List.append_nil]
  | succ j ih =>
    rw [← Nat.add_assoc, padded, padded, ih, Nat.div_div_eq_div_mul, ← pow_succ', List.append_assoc]

/- Only the last digits matter. -/
theorem padded_mod (b k n : Nat) : padded b k (n % b ^ k) = padded b k n := by
  induction k generalizing n with
  | zero => rfl
  | succ k ih =>
    have hHigh : n % b ^ (k + 1) / b = n / b % b ^ k := by
      rw [pow_succ', Nat.mod_mul_right_div_self]
    have hLow : n % b ^ (k + 1) % b = n % b :=
      Nat.mod_mod_of_dvd n (dvd_pow_self b (Nat.succ_ne_zero k))
    rw [padded, padded, hHigh, hLow, ih]

/- Only the digit zero is written as a zero. -/
theorem digitChar_eq_zero_iff {d : Nat} (hDigit : d < 10) : d.digitChar = '0' ↔ d = 0 := by
  interval_cases d <;> decide

----
-- Leading Zeros
----

theorem dropWhile_padded {b : Nat} (hBase : 1 < b) (hTen : b ≤ 10) {k n : Nat} (hLt : n < b ^ k) :
    (padded b k n).dropWhile (fun ch => ch == '0') =
      if n = 0 then [] else Nat.toDigits b n := by
  induction k generalizing n with
  | zero =>
    have hZero : n = 0 := by
      rw [pow_zero] at hLt
      omega
    rw [if_pos hZero]
    rfl
  | succ k ih =>
    have hHigh : n / b < b ^ k := by
      rw [Nat.div_lt_iff_lt_mul (by omega)]
      exact hLt
    have hDigit : n % b < 10 := Nat.lt_of_lt_of_le (Nat.mod_lt n (by omega)) hTen
    rw [padded, List.dropWhile_append, ih hHigh]
    by_cases hShort : n / b = 0
    · have hLess : n < b := by
        rcases Nat.div_eq_zero_iff.mp hShort with hB | hB
        · omega
        · exact hB
      rw [if_pos hShort, Nat.mod_eq_of_lt hLess]
      rw [Nat.mod_eq_of_lt hLess] at hDigit
      by_cases hZero : n = 0
      · rw [if_pos hZero, hZero]
        rfl
      · have hNot : ¬ (n.digitChar == '0') = true := by
          rw [beq_iff_eq, digitChar_eq_zero_iff hDigit]
          exact hZero
        rw [if_neg hZero, Nat.toDigits_of_lt_base hLess]
        simp [hNot]
    · have hLong : b ≤ n := by
        by_contra hLess
        exact hShort (Nat.div_eq_of_lt (by omega))
      have hZero : n ≠ 0 := by omega
      have hSome : (Nat.toDigits b (n / b)).isEmpty = false := by simp
      rw [if_neg hShort, if_neg hZero, hSome, Nat.toDigits_of_base_le hBase hLong]
      rfl

/- All digits are zeros when the number is zero. -/
theorem all_padded {b : Nat} (hBase : 1 < b) (hTen : b ≤ 10) {k n : Nat} (hLt : n < b ^ k) :
    (padded b k n).all (fun ch => ch == '0') = decide (n = 0) := by
  have hDrop := dropWhile_padded hBase hTen hLt
  by_cases hZero : n = 0
  · rw [if_pos hZero, List.dropWhile_eq_nil_iff] at hDrop
    rw [decide_eq_true hZero, List.all_eq_true]
    exact hDrop
  · rw [if_neg hZero] at hDrop
    rw [decide_eq_false hZero, ← Bool.not_eq_true, List.all_eq_true]
    intro hAll
    rw [List.dropWhile_eq_nil_iff.mpr hAll] at hDrop
    exact Nat.toDigits_ne_nil hDrop.symm

----
-- Standard Numerals
----

open List (replicate)
open Nat (toDigits log)

theorem length_padded (b k n : Nat) : (padded b k n).length = k := by
  induction k generalizing n with
  | zero => rfl
  | succ k ih => rw [padded, List.length_append, ih, List.length_singleton]

theorem padded_zero (k : Nat) : padded 10 k 0 = replicate k '0' := by
  induction k with
  | zero => rfl
  | succ k ih =>
    rw [padded, Nat.zero_div, ih, List.replicate_succ']
    rfl

/- Zeros behind the digits. -/
theorem padded_mul (k j n : Nat) :
    padded 10 (k + j) (n * 10 ^ j) = padded 10 k n ++ replicate j '0' := by
  rw [padded_add, Nat.mul_div_cancel _ (Nat.pow_pos (by decide)), ← padded_mod 10 j,
    Nat.mul_mod_left, padded_zero]

/- Zeros before the digits. -/
theorem padded_of_lt {n k : Nat} (hLt : n < 10 ^ k) (j : Nat) :
    padded 10 (j + k) n = replicate j '0' ++ padded 10 k n := by
  rw [padded_add, Nat.div_eq_of_lt hLt, padded_zero]

theorem take_padded (i j n : Nat) : (padded 10 (i + j) n).take i = padded 10 i (n / 10 ^ j) := by
  rw [padded_add]
  exact List.take_left' (length_padded 10 i _)

theorem drop_padded (i j n : Nat) : (padded 10 (i + j) n).drop i = padded 10 j n := by
  rw [padded_add]
  exact List.drop_left' (length_padded 10 i _)

/- The standard numeral has as many digits as it needs. -/
theorem toDigits_of_bounds {k n : Nat} (hLow : 10 ^ k ≤ n ∨ k = 0) (hHigh : n < 10 ^ (k + 1)) :
    toDigits 10 n = padded 10 (k + 1) n := by
  induction k generalizing n with
  | zero =>
    have hDigit : n < 10 := hHigh
    rw [Nat.toDigits_of_lt_base hDigit, padded, padded, Nat.mod_eq_of_lt hDigit]
    rfl
  | succ k ih =>
    have hLow := hLow.resolve_right (Nat.succ_ne_zero k)
    have hHead : 10 ^ k ≤ n / 10 := by
      rw [Nat.le_div_iff_mul_le (by decide)]
      exact hLow
    have hLong : 10 ≤ n := by omega
    have hRest : n / 10 < 10 ^ (k + 1) := by
      rw [Nat.div_lt_iff_lt_mul (by decide)]
      exact hHigh
    rw [Nat.toDigits_of_base_le (by decide) hLong, padded, ih (Or.inl hHead) hRest]

theorem toDigits_eq (n : Nat) : toDigits 10 n = padded 10 (log 10 n + 1) n := by
  apply toDigits_of_bounds
  · rcases Nat.eq_zero_or_pos n with rfl | hPos
    · exact Or.inr (Nat.log_zero_right 10)
    · exact Or.inl (Nat.pow_log_le_self 10 (by omega))
  · exact Nat.lt_pow_succ_log_self (by decide) n

end Numerals
