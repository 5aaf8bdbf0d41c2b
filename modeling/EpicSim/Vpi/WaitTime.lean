import EpicSim.Vpi.QueueAverage

/-
  The total of the waiting times over a run of additions, and
  the shifts by which its average is found.
-/

namespace EpicSim

----
-- Shift Amounts
----

/-
  The amounts by which `calc_average_wait_time` shifts a one
  into its result, for the loop that `averageLoop` is.
-/
def averageShifts (total : Nat) : Nat → Nat → Nat → Nat → List Nat
| 0, _, _, _ => []
| fuel + 1, left, high, low =>
  let (left, high, low) := shiftTotal total left high low false
  let (high, shifts) :=
    if 0 < left then
      ((high + 2 ^ 64 - total) % 2 ^ 64, [left - 1])
    else (high, [])
  if 1 < left then
    shifts ++ averageShifts total fuel left high low
  else shifts

/- The shifts of a call; the short way makes none. -/
def calcAverageShifts (high low total : Nat) : List Nat :=
  if high = 0 then [] else averageShifts total 65 65 high low

/- A turn has shifted the words first, so that the highest
   bit of the result is below the 64th. -/
theorem averageShifts_le {dividend total : Nat} (hTotal : total < 2 ^ 64)
    (fuel left high low result : Nat) (h : Dividing dividend total (left + 1) high low result) :
    ∀ shift ∈ averageShifts total fuel (left + 1) high low,
      shift < left := by
  induction fuel generalizing left high low result with
  | zero =>
    intro shift hMem
    cases hMem
  | succ fuel ih =>
    rcases h.shift hTotal with ⟨left', high', low', hShift, hLe, _, hNext⟩
    intro shift hMem
    rw [averageShifts, hShift] at hMem
    dsimp only at hMem
    rcases Nat.eq_zero_or_pos left' with rfl | hEnd
    · cases hMem
    · obtain ⟨b, rfl⟩ : ∃ b, left' = b + 1 :=
        ⟨left' - 1, by omega⟩
      grind

----
-- Sums
----

/- The total after a run of `add_to_wait_time` calls. -/
def addTimes (high low : Nat) : List Nat → Option (Nat × Nat)
| [] => some (high, low)
| c_time :: rest => do
    let (high, low) ← addToWaitTime high low c_time
    addTimes high low rest

/- The two words hold the sum of a run as long as it fits. -/
theorem addTimes_spec (times : List Nat) (hTimes : ∀ c_time ∈ times, c_time < 2 ^ 64) :
    ∀ high low : Nat, low < 2 ^ 64 →
      high * 2 ^ 64 + low + times.sum < 2 ^ 128 →
        ∃ high' low', addTimes high low times = some (high', low') ∧
          low' < 2 ^ 64 ∧
          high' * 2 ^ 64 + low' = high * 2 ^ 64 + low + times.sum := by
  induction times with
  | nil =>
    intro high low hLow _
    exact ⟨high, low, rfl, hLow, by simp⟩
  | cons c_time rest ih =>
    intro high low hLow hFits
    rw [List.sum_cons] at hFits ⊢
    have hHere : high * 2 ^ 64 + low + c_time < 2 ^ 128 := by omega
    rcases addToWaitTime_spec hLow (hTimes c_time List.mem_cons_self) hHere with
      ⟨high₁, low₁, hAdd, hLow₁, hSum₁⟩
    have hNext : high₁ * 2 ^ 64 + low₁ + rest.sum < 2 ^ 128 := by
      rw [hSum₁, Nat.add_assoc _ c_time]
      exact hFits
    rcases ih (fun t hMem => hTimes t
        (List.mem_cons_of_mem _ hMem)) high₁ low₁ hLow₁
        hNext with
      ⟨high₂, low₂, hRun, hLow₂, hSum₂⟩
    refine ⟨high₂, low₂, ?_, hLow₂, ?_⟩
    · unfold addTimes
      rw [hAdd]
      exact hRun
    · rw [hSum₂, hSum₁, Nat.add_assoc _ c_time]

/- The average of a total is the quotient, found by shifts
   that a word of 64 bits has, and a run of additions gives
   the total. -/
theorem wait_time_exact :
    (∀ high low total : Nat, low < 2 ^ 64 → total < 2 ^ 64 →
      0 < total → high < total →
        calcAverageWaitTime high low total = some ((high * 2 ^ 64 + low) / total) ∧
        ∀ shift ∈ calcAverageShifts high low total, shift ≤ 63) ∧
    (∀ times : List Nat, (∀ c_time ∈ times, c_time < 2 ^ 64) →
      times.sum < 2 ^ 128 →
        ∃ high low, addTimes 0 0 times = some (high, low) ∧
          high < 2 ^ 64 ∧ low < 2 ^ 64 ∧
          high * 2 ^ 64 + low = times.sum) := by
  constructor
  · intro high low total hLow hTotal hPos hHigh
    refine ⟨calcAverageWaitTime_spec hPos hTotal hHigh hLow, ?_⟩
    intro shift hMem
    unfold calcAverageShifts at hMem
    split_ifs at hMem with hZero
    · cases hMem
    · have hBelow := averageShifts_le hTotal 65 64 high low 0 (Dividing.init hHigh hLow) shift hMem
      omega
  · intro times hTimes hFits
    rcases addTimes_spec times hTimes 0 0 (by decide) (by omega) with ⟨high, low, hRun, hLow, hSum⟩
    refine ⟨high, low, hRun, ?_, hLow, by omega⟩
    omega

/- The average of 2^64 + 2 over 3 waits, and the total of two
   times that carry. -/
theorem wait_time_exact_three :
    (calcAverageWaitTime 1 2 3 = some ((1 * 2 ^ 64 + 2) / 3) ∧
      ∀ shift ∈ calcAverageShifts 1 2 3, shift ≤ 63) ∧
    ∃ high low,
      addTimes 0 0 [2 ^ 64 - 1, 2] = some (high, low) ∧
      high < 2 ^ 64 ∧ low < 2 ^ 64 ∧
      high * 2 ^ 64 + low = [2 ^ 64 - 1, 2].sum :=
  ⟨wait_time_exact.1 1 2 3 (by decide) (by decide) (by decide) (by decide),
      wait_time_exact.2 [2 ^ 64 - 1, 2] (by decide) (by decide)⟩

end EpicSim
