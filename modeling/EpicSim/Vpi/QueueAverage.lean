import Mathlib.Tactic.Ring
import Mathlib.Tactic.Linarith
import EpicSim.Vpi.SysQueue

/-
  The total of the waiting times in two words, and its
  division by the number of elements, bit by bit.
-/

namespace EpicSim

variable {high low dividend total result l : Nat}

/- Two words hold the sum as long as it fits. -/
theorem addToWaitTime_spec {c_time : Nat} (hLow : low < 2 ^ 64) (hTime : c_time < 2 ^ 64)
    (hFits : high * 2 ^ 64 + low + c_time < 2 ^ 128) :
    ∃ high' low', addToWaitTime high low c_time = some (high', low') ∧
      low' < 2 ^ 64 ∧
      high' * 2 ^ 64 + low' = high * 2 ^ 64 + low + c_time := by
  unfold addToWaitTime UINT64_MAX
  by_cases hCarry : 2 ^ 64 - 1 - low < c_time
  · simp only [if_pos hCarry]
    rw [if_pos (Or.inr (by omega))]
    grind
  · simp only [if_neg hCarry]
    grind

----
-- Shifting
----

variable {high low dividend total result : Nat}

/- One shift doubles the two words, apart from the carry. -/
theorem shift_spec (hHigh : high < 2 ^ 64) (hLow : low < 2 ^ 64) :
    ((if UINT64_MAX / 2 < high then 1 else 0) * 2 ^ 64 +
      (2 * high + low / 2 ^ 63) % 2 ^ 64) * 2 ^ 64 +
      2 * low % 2 ^ 64 = 2 * (high * 2 ^ 64 + low) := by
  unfold UINT64_MAX
  split <;> omega

/-
  The words are shifted until the total goes into them or
  until no bit of the result is left: `turns` times.
-/
theorem shiftTotal_spec (total left high low : Nat) (hTotal : total < 2 ^ 64) (hHigh : high < total)
    (hLow : low < 2 ^ 64) :
    ∃ turns left' carry high' low',
      shiftTotal total (left + 1) high low false = (left', high', low') ∧
      turns + left' = left + 1 ∧ 0 < turns ∧
      high' < 2 ^ 64 ∧ low' < 2 ^ 64 ∧
      (carry * 2 ^ 64 + high') * 2 ^ 64 + low' = (high * 2 ^ 64 + low) * 2 ^ turns ∧
      (high * 2 ^ 64 + low) * 2 ^ (turns - 1) < total * 2 ^ 64 ∧
      (0 < left' → total ≤ carry * 2 ^ 64 + high') := by
  induction left generalizing high low with
  | zero =>
    refine ⟨1, 0, if UINT64_MAX / 2 < high then 1 else 0, (2 * high + low / 2 ^ 63) % 2 ^ 64,
      2 * low % 2 ^ 64, ?_, rfl, Nat.one_pos, ?_, ?_, ?_, ?_, ?_⟩
    · rw [shiftTotal, if_pos ⟨hHigh, rfl⟩, shiftTotal]
    · exact Nat.mod_lt _ (by decide)
    · exact Nat.mod_lt _ (by decide)
    · rw [shift_spec (by omega) hLow]
      ring
    · omega
    · intro hNot
      omega
  | succ left ih =>
    rw [shiftTotal, if_pos ⟨hHigh, rfl⟩]
    have hDouble := shift_spec (Nat.lt_trans hHigh hTotal) hLow
    have hHigh' : (2 * high + low / 2 ^ 63) % 2 ^ 64 < 2 ^ 64 := Nat.mod_lt _ (by decide)
    have hLow' : 2 * low % 2 ^ 64 < 2 ^ 64 := Nat.mod_lt _ (by decide)
    have hBelow : high * 2 ^ 64 + low < total * 2 ^ 64 := by omega
    generalize (2 * high + low / 2 ^ 63) % 2 ^ 64 = high₁ at *
    generalize 2 * low % 2 ^ 64 = low₁ at *
    by_cases hCarry : UINT64_MAX / 2 < high
    · -- a carry ends the loop
      rw [if_pos hCarry] at hDouble
      refine ⟨1, left + 1, 1, high₁, low₁, ?_, ?_, Nat.one_pos, hHigh', hLow', ?_, ?_, ?_⟩
      · rw [shiftTotal]
        simp [hCarry]
      · omega
      · rw [hDouble]
        ring
      · rw [Nat.pow_zero, Nat.mul_one]
        exact hBelow
      · intro _
        omega
    · rw [if_neg hCarry, Nat.zero_mul, Nat.zero_add] at hDouble
      rw [decide_eq_false hCarry]
      by_cases hMore : high₁ < total
      · rcases ih high₁ low₁ hMore hLow' with
          ⟨turns, left', carry, high', low', hEq, hLeft,
            hPos, hHigh₂, hLow₂, hValue, hPrev, hEnough⟩
        refine ⟨turns + 1, left', carry, high', low', hEq,
          by omega, by omega, hHigh₂, hLow₂, ?_, ?_, hEnough⟩
        · rw [hValue, hDouble]
          ring
        · obtain ⟨t, rfl⟩ : ∃ t, turns = t + 1 :=
            ⟨turns - 1, by omega⟩
          rw [hDouble] at hPrev
          calc (high * 2 ^ 64 + low) * 2 ^ (t + 1)
              = 2 * (high * 2 ^ 64 + low) * 2 ^ t := by ring
            _ < total * 2 ^ 64 := hPrev
      · refine ⟨1, left + 1, 0, high₁, low₁, ?_, ?_, Nat.one_pos, hHigh', hLow', ?_, ?_, ?_⟩
        · rw [shiftTotal]
          simp [hMore]
        · omega
        · rw [Nat.zero_mul, Nat.zero_add, hDouble]
          ring
        · rw [Nat.pow_zero, Nat.mul_one]
          exact hBelow
        · intro _
          omega

----
-- The Average
----

/-
  The words hold what is left to divide, shifted by the bits
  of the result that are done: `left` is one more than the
  last of these.
-/
structure Dividing (dividend total left high low result : Nat) : Prop where
  high_lt : high < total
  low_lt : low < 2 ^ 64
  bits : left ≤ 65
  room : 2 ^ (left - 1) ∣ result
  rest : dividend * 2 ^ (65 - left) = result * total * 2 ^ (65 - left) + high * 2 ^ 64 + low

theorem quotient_of_below {rest : Nat}
    (hEq : dividend * 2 ^ 64 = result * total * 2 ^ 64 + rest) (hRest : rest < total * 2 ^ 64) :
    dividend / total = result := by
  apply Nat.div_eq_of_lt_le
  · omega
  · grind

/- The bit of a turn is set and the total is taken away. -/
theorem Dividing.turn {b carry high' low' : Nat}
    (hTotal : total < 2 ^ 64) (hBelow : b < l) (h : Dividing dividend total (l + 1) high low result)
    (hHigh : high' < 2 ^ 64) (hLow : low' < 2 ^ 64)
    (hValue : (carry * 2 ^ 64 + high') * 2 ^ 64 + low' = (high * 2 ^ 64 + low) * 2 ^ (l - b))
    (hPrev : (high * 2 ^ 64 + low) * 2 ^ (l - b - 1) < total * 2 ^ 64)
    (hEnough : total ≤ carry * 2 ^ 64 + high') :
    Dividing dividend total (b + 1)
      ((high' + 2 ^ 64 - total) % 2 ^ 64) low'
      (result ||| 2 ^ b) := by
  have hBits : l ≤ 64 := by
    have hLe := h.bits
    omega
  have hTwice : carry * 2 ^ 64 + high' < 2 * total := by
    have hPow : 2 ^ (l - b) = 2 * 2 ^ (l - b - 1) := by
      rw [← Nat.pow_succ']
      congr 1
      omega
    rw [hPow, Nat.mul_left_comm] at hValue
    omega
  have hLess : (high' + 2 ^ 64 - total) % 2 ^ 64 = carry * 2 ^ 64 + high' - total := by omega
  have hOr : result ||| 2 ^ b = result + 2 ^ b := by
    rcases h.room with ⟨q, hq⟩
    rw [hq, Nat.two_pow_add_eq_or_of_lt]
    exact Nat.pow_lt_pow_right (by decide) hBelow
  refine ⟨?_, hLow, by omega, ?_, ?_⟩
  · omega
  · rw [hOr]
    apply Nat.dvd_add _ (Nat.dvd_refl _)
    exact (Nat.pow_dvd_pow 2 (Nat.le_of_lt hBelow)).trans h.room
  · rw [hLess, hOr]
    have hRest := h.rest
    have hSplit : 2 ^ (65 - (b + 1)) = 2 ^ (65 - (l + 1)) * 2 ^ (l - b) := by
      rw [← Nat.pow_add]
      congr 1
      omega
    have hWhole : 2 ^ b * 2 ^ (65 - (b + 1)) = 2 ^ 64 := by
      rw [← Nat.pow_add]
      congr 1
      omega
    have hTake : total * 2 ^ 64 +
        (carry * 2 ^ 64 + high' - total) * 2 ^ 64 = (carry * 2 ^ 64 + high') * 2 ^ 64 := by
      rw [← Nat.add_mul, Nat.add_sub_of_le hEnough]
    calc dividend * 2 ^ (65 - (b + 1))
        = dividend * 2 ^ (65 - (l + 1)) * 2 ^ (l - b) := by rw [hSplit, Nat.mul_assoc]
      _ = result * total * 2 ^ (65 - (l + 1)) * 2 ^ (l - b) +
          (high * 2 ^ 64 + low) * 2 ^ (l - b) := by
          rw [hRest]
          ring
      _ = result * total * 2 ^ (65 - (b + 1)) +
          ((carry * 2 ^ 64 + high') * 2 ^ 64 + low') := by
          rw [hValue, hSplit, Nat.mul_assoc (result * total)]
      _ = result * total * 2 ^ (65 - (b + 1)) +
          2 ^ b * 2 ^ (65 - (b + 1)) * total +
          (carry * 2 ^ 64 + high' - total) * 2 ^ 64 + low' := by
          rw [hWhole, ← hTake]
          ring
      _ = (result + 2 ^ b) * total * 2 ^ (65 - (b + 1)) +
          (carry * 2 ^ 64 + high' - total) * 2 ^ 64 + low' := by
          ring

/- The result is the quotient when no bit is left. -/
theorem Dividing.quotient (h : Dividing dividend total 1 high low result) :
    dividend / total = result := by
  refine quotient_of_below (h.rest.trans (Nat.add_assoc _ _ _)) ?_
  have hHigh := h.high_lt
  have hLow := h.low_lt
  omega

/- The total did not go into the words any more. -/
theorem Dividing.quotient_of_small
    (h : Dividing dividend total (l + 1) high low result)
    (hSmall : (high * 2 ^ 64 + low) * 2 ^ l < total * 2 ^ 64) : dividend / total = result := by
  refine quotient_of_below ?_ hSmall
  have hBits := h.bits
  have hWhole : 2 ^ (65 - (l + 1)) * 2 ^ l = 2 ^ 64 := by
    rw [← Nat.pow_add]
    congr 1
    omega
  calc dividend * 2 ^ 64
      = dividend * 2 ^ (65 - (l + 1)) * 2 ^ l := by rw [Nat.mul_assoc, hWhole]
    _ = result * total * (2 ^ (65 - (l + 1)) * 2 ^ l) +
        (high * 2 ^ 64 + low) * 2 ^ l := by
        rw [h.rest]
        ring
    _ = result * total * 2 ^ 64 +
        (high * 2 ^ 64 + low) * 2 ^ l := by
        rw [hWhole]

/- One turn of the outer loop: it shifts at least once, and
   then has its result or one bit more of it. -/
theorem Dividing.shift (hTotal : total < 2 ^ 64)
    (h : Dividing dividend total (l + 1) high low result) :
    ∃ left' high' low',
      shiftTotal total (l + 1) high low false = (left', high', low') ∧
      left' ≤ l ∧
      (left' = 0 → dividend / total = result) ∧
      (0 < left' → Dividing dividend total left'
        ((high' + 2 ^ 64 - total) % 2 ^ 64) low'
        (result ||| 2 ^ (left' - 1))) := by
  rcases shiftTotal_spec total l high low hTotal h.high_lt h.low_lt with
    ⟨turns, left', carry, high', low', hShift, hTurns, hPos, hHigh', hLow', hValue, hPrev, hEnough⟩
  refine ⟨left', high', low', hShift, by omega, ?_, ?_⟩
  · rintro rfl
    have hTurnsEq : turns - 1 = l := by omega
    rw [hTurnsEq] at hPrev
    exact h.quotient_of_small hPrev
  · intro hEnd
    obtain ⟨b, rfl⟩ : ∃ b, left' = b + 1 := ⟨left' - 1, by omega⟩
    have hTurnsEq : turns = l - b := by omega
    rw [hTurnsEq] at hValue hPrev
    exact h.turn hTotal (by omega) hHigh' hLow' hValue hPrev (hEnough hEnd)

theorem averageLoop_spec (hTotal : total < 2 ^ 64) (fuel left high low result : Nat)
    (hFuel : left ≤ fuel) (hLeft : 1 < left) (h : Dividing dividend total left high low result) :
    averageLoop total fuel left high low result = some (dividend / total) := by
  induction fuel generalizing left high low result with
  | zero => omega
  | succ fuel ih =>
    obtain ⟨l, rfl⟩ : ∃ l, left = l + 1 := ⟨left - 1, by omega⟩
    rcases h.shift hTotal with ⟨left', high', low', hShift, hLe, hDone, hNext⟩
    rw [averageLoop, hShift]
    dsimp only
    rcases Nat.eq_zero_or_pos left' with rfl | hEnd
    · -- no bit is left and the total does not go into it
      rw [if_neg (Nat.lt_irrefl 0), if_neg (by decide), hDone rfl]
    · rw [if_pos hEnd]
      by_cases hMore : 1 < left'
      · grind
      · rw [if_neg hMore]
        obtain rfl : left' = 1 := by omega
        rw [(hNext hEnd).quotient]

/- The division has all its bits to do. -/
theorem Dividing.init (hHigh : high < total) (hLow : low < 2 ^ 64) :
    Dividing (high * 2 ^ 64 + low) total 65 high low 0 := by
  refine ⟨hHigh, hLow, Nat.le_refl 65, Nat.dvd_zero _, ?_⟩
  rw [Nat.pow_zero, Nat.mul_one, Nat.zero_mul, Nat.zero_add]

/- The average is the quotient, rounded down. -/
theorem calcAverageWaitTime_spec (hPos : 0 < total) (hTotal : total < 2 ^ 64) (hHigh : high < total)
    (hLow : low < 2 ^ 64) :
    calcAverageWaitTime high low total = some ((high * 2 ^ 64 + low) / total) := by
  rw [calcAverageWaitTime, if_neg (Nat.pos_iff_ne_zero.mp hPos)]
  by_cases hZero : high = 0
  · rw [if_pos hZero, hZero, Nat.zero_mul, Nat.zero_add]
  · rw [if_neg hZero, if_pos hHigh]
    exact averageLoop_spec hTotal _ _ _ _ _ (Nat.le_refl 65) (by decide) (Dividing.init hHigh hLow)

end EpicSim
