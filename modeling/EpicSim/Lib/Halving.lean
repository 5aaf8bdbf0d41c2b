import Mathlib.Data.Nat.Log
import Mathlib.Data.Nat.Size

/-
  Counting how often a number can be halved: the size of the
  number, and of one less than it the logarithm rounded up.
-/

namespace Halving

variable {S : Type}

/- Count the turns of a loop that halves its state until it is
   zero.  The first argument bounds the turns. -/
def countHalvings (isZero : S → Bool) (half : S → Option S) : Nat → Nat → S → Option Nat
| 0, _, _ => none
| fuel + 1, res, s =>
  if isZero s then some res
  else
    match half s with
    | none => none
    | some s' => countHalvings isZero half fuel (res + 1) s'

/- The states stand for numbers, and the operations do what
   they are called. -/
structure Halves (isZero : S → Bool) (half : S → Option S) (Good : S → Prop)
    (number : S → Nat) : Prop where
  zero : ∀ s, Good s → (isZero s = true ↔ number s = 0)
  half : ∀ s, Good s → 0 < number s → ∃ s', half s = some s' ∧ Good s' ∧ number s' = number s / 2

theorem size_half {n : Nat} (h : 0 < n) : n.size = (n / 2).size + 1 := by
  apply Nat.le_antisymm
  · rw [Nat.size_le]
    have hHalf := Nat.lt_size_self (n / 2)
    omega
  · rw [Nat.succ_le_iff, Nat.lt_size]
    rcases Nat.eq_zero_or_pos (n / 2) with hZero | hPos
    · rw [hZero]
      exact h
    · obtain ⟨k, hk⟩ : ∃ k, (n / 2).size = k + 1 :=
        ⟨(n / 2).size - 1, by
          have hSize := Nat.size_pos.mpr hPos
          omega⟩
      have hLe : 2 ^ k ≤ n / 2 := by
        rw [← Nat.lt_size, hk]
        exact Nat.lt_succ_self k
      rw [hk]
      omega

/- The loop ends, and has counted the bits of the number. -/
theorem countHalvings_eq {isZero : S → Bool} {half : S → Option S} {Good : S → Prop}
    {number : S → Nat} (h : Halves isZero half Good number)
    (fuel res : Nat) (s : S) (hGood : Good s) (hFuel : (number s).size < fuel) :
    countHalvings isZero half fuel res s = some (res + (number s).size) := by
  induction fuel generalizing res s with
  | zero => cases hFuel
  | succ fuel ih =>
    unfold countHalvings
    rcases Nat.eq_zero_or_pos (number s) with hZero | hPos
    · rw [if_pos ((h.zero s hGood).mpr hZero), hZero, Nat.size_zero, Nat.add_zero]
    · have hNot : ¬isZero s = true :=
        mt (h.zero s hGood).mp (Nat.pos_iff_ne_zero.mp hPos)
      rcases h.half s hGood hPos with ⟨s', hHalf, hGood', hNumber⟩
      have hSize := size_half hPos
      rw [if_neg hNot, hHalf]
      simp only
      rw [ih (res + 1) s' hGood' (by rw [hNumber]; omega), hNumber]
      congr 1
      omega

/- The bits of one less are the least power of two that is not
   smaller. -/
theorem size_pred {n : Nat} (h : 0 < n) : (n - 1).size = Nat.clog 2 n := by
  have hIff : ∀ r, (n - 1).size ≤ r ↔ Nat.clog 2 n ≤ r := by
    intro r
    rw [Nat.size_le, Nat.clog_le_iff_le_pow (by decide)]
    omega
  exact Nat.le_antisymm ((hIff _).mpr (Nat.le_refl _)) ((hIff _).mp (Nat.le_refl _))

end Halving
