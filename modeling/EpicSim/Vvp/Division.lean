import EpicSim.Vvp.Arith

/-
  Division and modulus of nets: shift and subtract on packed
  words, native words for narrow operands, and the signs.
-/

----
-- Shift And Subtract
----

namespace EpicSim

open PackedWords Limbs

namespace VvpVector2

/- The first loop of `div_mod` moves the divisor up. -/
def divStartup : Nat → VvpVector2 → VvpVector2 → VvpVector2 → Option (VvpVector2 × VvpVector2)
| 0, dividend, divtmp, mask => if divtmp.lt dividend then none else some (divtmp, mask)
| rounds + 1, dividend, divtmp, mask =>
  if divtmp.lt dividend then
    divStartup rounds dividend (divtmp.shiftLeft 1) (mask.shiftLeft 1)
  else some (divtmp, mask)

/- One round of the second loop, once it has been entered. -/
def divRound (dividend quotient divtmp mask : VvpVector2) :
    Option (VvpVector2 × VvpVector2 × VvpVector2 × VvpVector2) := do
  let fits ← divtmp.le dividend
  let dividend ←
    if fits then dividend.subAssign divtmp else some dividend
  let quotient ←
    if fits then quotient.addAssign mask else some quotient
  let divtmp ← divtmp.shiftRight 1
  let mask ← mask.shiftRight 1
  return (dividend, quotient, divtmp, mask)

/- The second loop of `div_mod` takes the divisor off. -/
def divReduce (divisor : VvpVector2) :
    Nat → VvpVector2 → VvpVector2 → VvpVector2 → VvpVector2 →
      Option (VvpVector2 × VvpVector2 × VvpVector2)
| 0, dividend, quotient, _, mask =>
  if dividend.ge divisor then none
  else some (dividend, quotient, mask)
| rounds + 1, dividend, quotient, divtmp, mask =>
  if dividend.ge divisor then
    (divRound dividend quotient divtmp mask).bind (fun st =>
      divReduce divisor rounds st.1 st.2.1 st.2.2.1 st.2.2.2)
  else some (dividend, quotient, mask)

/-
  `div_mod`: the quotient and the remainder.  None where the
  source exits on a zero divisor, or has not come to an end
  after more rounds than there are bits.
-/
def divMod (dividend divisor : VvpVector2) : Option (VvpVector2 × VvpVector2) :=
  let quotient := ofLong 0#64 dividend.wid
  if divisor.eq quotient then none
  else if dividend.lt divisor then some (quotient, dividend)
  else
    let mask := ofLong 1#64 dividend.wid
    let rounds := dividend.wid + 2
    -- one more bit for the dividend, none for the mask
    let dividend := dividend.resize (dividend.wid + 1)
    let divtmp := divisor.resize dividend.wid
    (divStartup rounds dividend divtmp mask).bind (fun up =>
      (divReduce divisor rounds dividend quotient up.1
        up.2).map (fun down => (down.2.1, down.1.resize down.2.2.wid)))

/- A shift by one place is cut at the width. -/
theorem shiftLeft_one (v : VvpVector2) :
    (v.shiftLeft 1).wid = v.wid ∧
      (v.shiftLeft 1).whole = v.whole * 2 % 2 ^ v.wid := by
  rcases shiftLeft_spec v 1 with ⟨hWid, hWhole⟩
  exact ⟨hWid, by simpa using hWhole⟩

theorem shiftRight_one {v : VvpVector2} (hWid : 0 < v.wid) (hClean : v.Clean) :
    ∃ res, v.shiftRight 1 = some res ∧ res.wid = v.wid ∧
      res.whole = v.whole / 2 := by
  rcases (shiftRight_spec v 1).1 (Or.inl hWid) with ⟨res, hRes⟩
  rcases shiftRight_of_clean hClean hRes with ⟨hW, hWhole⟩
  exact ⟨res, hRes, hW, by simpa using hWhole⟩

variable {wid d n k : Nat} {dividend divtmp mask : VvpVector2}

/-
  The divisor goes up to the first double that is not below
  the dividend.  The mask follows it within its own width.
-/
theorem divStartup_spec (hD : 0 < d)
    (hDividend : dividend.whole = n) (hN : n < 2 ^ wid)
    {rounds : Nat} (hRounds : wid ≤ k + rounds)
    (hDivtmp : divtmp.wid = wid + 1 ∧ divtmp.whole = d * 2 ^ k)
    (hMask : mask.wid = wid ∧ mask.whole = 2 ^ k % 2 ^ wid) (hLow : k = 0 ∨ d * 2 ^ (k - 1) < n) :
    ∃ up m, divStartup rounds dividend divtmp mask = some up ∧
      n ≤ d * 2 ^ m ∧ (m = 0 ∨ d * 2 ^ (m - 1) < n) ∧
      (up.1.wid = wid + 1 ∧ up.1.whole = d * 2 ^ m) ∧
      (up.2.wid = wid ∧ up.2.whole = 2 ^ m % 2 ^ wid) := by
  induction rounds generalizing k divtmp mask with
  | zero =>
    have hHigh : n ≤ d * 2 ^ k := by
      have hPow := Nat.pow_le_pow_right (by decide : 0 < 2) hRounds
      have hMul := Nat.le_mul_of_pos_left (2 ^ k) hD
      rw [Nat.add_zero] at hPow
      omega
    have hNot : divtmp.lt dividend = false := by
      rw [← Bool.not_eq_true, lt_iff]
      omega
    refine ⟨(divtmp, mask), k, ?_, hHigh, hLow, hDivtmp, hMask⟩
    rw [divStartup, hNot]
    rfl
  | succ rounds ih =>
    rw [divStartup]
    by_cases hLess : d * 2 ^ k < n
    · have hLt : divtmp.lt dividend = true := by
        rw [lt_iff, hDivtmp.2, hDividend]
        exact hLess
      rw [if_pos hLt]
      rcases shiftLeft_one divtmp with ⟨hWid, hWhole⟩
      rcases shiftLeft_one mask with ⟨hMaskWid, hMaskWhole⟩
      refine ih (k := k + 1) (by omega) ?_ ?_ ?_
      · refine ⟨hWid.trans hDivtmp.1, ?_⟩
        rw [hWhole, hDivtmp.1, hDivtmp.2, Nat.mod_eq_of_lt]
        · rw [pow_succ, Nat.mul_assoc]
        · omega
      · refine ⟨hMaskWid.trans hMask.1, ?_⟩
        rw [hMaskWhole, hMask.1, hMask.2, pow_succ 2 k, Nat.mod_mul_mod]
      · exact Or.inr hLess
    · have hNot : ¬divtmp.lt dividend = true := by
        rw [lt_iff, hDivtmp.2, hDividend]
        exact hLess
      rw [if_neg hNot]
      exact ⟨(divtmp, mask), k, rfl, Nat.not_lt.mp hLess, hLow, hDivtmp, hMask⟩

/-
  A round subtracts the divisor at its place if it fits.  The
  mask is `c` at that place: 1, or 0 once it has been lost.
-/
theorem divRound_spec {c r t : Nat} (hWid : 0 < wid) (hC : c ≤ 1)
    (hN : n < 2 ^ wid) (hPlace : d * 2 ^ k < 2 ^ (wid + 1))
    (hPos : 0 < d) {quotient : VvpVector2}
    (hDividend : dividend.wid = wid + 1 ∧ dividend.whole = r)
    (hQuotient : quotient.wid = wid ∧ quotient.whole = c * t)
    (hDivtmp : divtmp.wid = wid + 1 ∧ divtmp.whole = d * 2 ^ k)
    (hMask : mask.wid = wid ∧ mask.whole = c * 2 ^ k)
    (hMaskLt : c * 2 ^ k < 2 ^ wid) (hSum : r + d * t = n) :
    ∃ st r' t',
      divRound dividend quotient divtmp mask = some st ∧
      r' + d * t' = n ∧
      r' = (if d * 2 ^ k ≤ r then r - d * 2 ^ k else r) ∧
      (st.1.wid = wid + 1 ∧ st.1.whole = r') ∧
      (st.2.1.wid = wid ∧ st.2.1.whole = c * t') ∧
      (st.2.2.1.wid = wid + 1 ∧ st.2.2.1.whole = d * 2 ^ k / 2) ∧
      (st.2.2.2.wid = wid ∧ st.2.2.2.whole = c * 2 ^ k / 2) := by
  have hCleanTmp : divtmp.Clean := by
    unfold Clean
    rw [hDivtmp.1, hDivtmp.2]
    exact hPlace
  have hCleanMask : mask.Clean := by
    unfold Clean
    rw [hMask.1, hMask.2]
    exact hMaskLt
  rcases shiftRight_one (by omega) hCleanTmp with ⟨tmp', hTmp', hTmpWid, hTmpWhole⟩
  rcases shiftRight_one (by omega) hCleanMask with ⟨mask', hMask', hMaskWid, hMaskWhole⟩
  have hLe : divtmp.le dividend = some (decide (d * 2 ^ k ≤ r)) := by
    rw [le_of_wid (hDivtmp.1.trans hDividend.1.symm), hDivtmp.2, hDividend.2]
  rw [hDivtmp.2] at hTmpWhole
  rw [hMask.2] at hMaskWhole
  rw [hDivtmp.1] at hTmpWid
  rw [hMask.1] at hMaskWid
  by_cases hFits : d * 2 ^ k ≤ r
  · rcases subAssign_of_le
        (hDividend.1.trans hDivtmp.1.symm)
        (by rw [hDivtmp.2, hDividend.2]; exact hFits) with
      ⟨rem, hRem, hRemWid, hRemWhole⟩
    rcases addAssign_spec (hQuotient.1.trans hMask.1.symm) with ⟨quot, hQuot, hQuotWid, hQuotWhole⟩
    have hTotal : d * (t + 2 ^ k) = d * t + d * 2 ^ k := Nat.mul_add _ _ _
    -- the quotient so far never exceeds the dividend
    have hRoom : c * (t + 2 ^ k) < 2 ^ wid := by
      have hMulD : t + 2 ^ k ≤ d * (t + 2 ^ k) := Nat.le_mul_of_pos_left _ hPos
      have hMulC : c * (t + 2 ^ k) ≤ 1 * (t + 2 ^ k) := Nat.mul_le_mul_right _ hC
      omega
    refine ⟨(rem, quot, tmp', mask'), r - d * 2 ^ k, t + 2 ^ k, ?_, ?_, ?_, ?_, ?_, ?_, ?_⟩
    · simp only [divRound, hLe, hRem, hQuot, hTmp', hMask', decide_eq_true hFits, if_true,
        Option.bind_eq_bind, Option.bind_some, Option.pure_def]
    · omega
    · rw [if_pos hFits]
    · grind
    · refine ⟨hQuotWid.trans hQuotient.1, ?_⟩
      rw [hQuotWhole, hQuotient.1, hQuotient.2, hMask.2, ← Nat.mul_add, Nat.mod_eq_of_lt hRoom]
    · exact ⟨hTmpWid, hTmpWhole⟩
    · exact ⟨hMaskWid, hMaskWhole⟩
  · refine ⟨(dividend, quotient, tmp', mask'), r, t, ?_, hSum, ?_, hDividend, hQuotient, ?_, ?_⟩
    · simp only [divRound, hLe, hTmp', hMask', decide_eq_false hFits, Bool.false_eq_true,
        if_false, Option.bind_eq_bind, Option.bind_some, Option.pure_def]
    · rw [if_neg hFits]
    · exact ⟨hTmpWid, hTmpWhole⟩
    · exact ⟨hMaskWid, hMaskWhole⟩

/- The remainder comes out right, with or without a mask. -/
theorem divReduce_spec {c : Nat} (hWid : 0 < wid) (hC : c ≤ 1)
    (hN : n < 2 ^ wid) (hPos : 0 < d) {divisor : VvpVector2}
    (hDivisor : divisor.whole = d) {rounds r t : Nat} {quotient : VvpVector2}
    (hRounds : k < rounds) (hPlace : d * 2 ^ k < 2 ^ (wid + 1))
    (hMaskLt : c * 2 ^ k < 2 ^ wid) (hBelow : r < d * 2 ^ (k + 1))
    (hDividend : dividend.wid = wid + 1 ∧ dividend.whole = r)
    (hQuotient : quotient.wid = wid ∧ quotient.whole = c * t)
    (hDivtmp : divtmp.wid = wid + 1 ∧ divtmp.whole = d * 2 ^ k)
    (hMask : mask.wid = wid ∧ mask.whole = c * 2 ^ k) (hSum : r + d * t = n) :
    ∃ down,
      divReduce divisor rounds dividend quotient divtmp mask = some down ∧
      (down.1.wid = wid + 1 ∧ down.1.whole = n % d) ∧
      (down.2.1.wid = wid ∧ down.2.1.whole = c * (n / d)) ∧
      down.2.2.wid = wid := by
  -- where the loop ends, the remainder is below the divisor
  have hEnd : ∀ {dividend quotient mask : VvpVector2} {r t : Nat},
      r < d → dividend.wid = wid + 1 ∧ dividend.whole = r →
      quotient.wid = wid ∧ quotient.whole = c * t →
      mask.wid = wid → r + d * t = n → ∀ rounds divtmp,
      ∃ down,
        divReduce divisor rounds dividend quotient divtmp mask = some down ∧
        (down.1.wid = wid + 1 ∧ down.1.whole = n % d) ∧
        (down.2.1.wid = wid ∧ down.2.1.whole = c * (n / d)) ∧
        down.2.2.wid = wid := by
    intro dividend quotient mask r t hLess hDividend hQuotient hMask hSum rounds divtmp
    have hNot : dividend.ge divisor = false := by
      rw [← Bool.not_eq_true, ge_iff]
      omega
    have hMod : n % d = r := by rw [← hSum, Nat.add_mul_mod_self_left, Nat.mod_eq_of_lt hLess]
    have hDiv : n / d = t := by
      rw [← hSum, Nat.add_mul_div_left _ _ hPos, Nat.div_eq_of_lt hLess, Nat.zero_add]
    refine ⟨(dividend, quotient, mask), ?_, ?_, ?_, hMask⟩
    · cases rounds with
      | zero => simp [divReduce, hNot]
      | succ rounds => simp [divReduce, hNot]
    · rw [hMod]
      exact hDividend
    · rw [hDiv]
      exact hQuotient
  induction k generalizing rounds r t dividend quotient divtmp mask with
  | zero =>
    by_cases hLess : r < d
    · exact hEnd hLess hDividend hQuotient hMask.1 hSum _ _
    · rcases Nat.exists_eq_succ_of_ne_zero (Nat.pos_iff_ne_zero.mp hRounds) with ⟨rest, hRest⟩
      have hGe : dividend.ge divisor = true := by
        rw [ge_iff]
        omega
      rcases divRound_spec hWid hC hN hPlace hPos hDividend
          hQuotient hDivtmp hMask hMaskLt hSum with
        ⟨st, r', t', hSt, hSum', hR', hRem, hQuot, -, hM⟩
      rw [hRest, divReduce, if_pos hGe, hSt]
      apply hEnd _ hRem hQuot hM.1 hSum'
      rw [hR', if_pos (by omega)]
      omega
  | succ k ih =>
    by_cases hLess : r < d
    · exact hEnd hLess hDividend hQuotient hMask.1 hSum _ _
    · rcases Nat.exists_eq_succ_of_ne_zero (show rounds ≠ 0 by omega) with ⟨rest, hRest⟩
      have hGe : dividend.ge divisor = true := by
        rw [ge_iff]
        omega
      rcases divRound_spec hWid hC hN hPlace hPos hDividend
          hQuotient hDivtmp hMask hMaskLt hSum with
        ⟨st, r', t', hSt, hSum', hR', hRem, hQuot, hT, hM⟩
      have hHalf : ∀ x : Nat, x * 2 ^ (k + 1) / 2 = x * 2 ^ k := by
        intro x
        rw [pow_succ, ← Nat.mul_assoc, Nat.mul_div_cancel _ (by decide)]
      rw [hHalf] at hT hM
      have hDouble : ∀ x : Nat, x * 2 ^ k ≤ x * 2 ^ (k + 1) :=
        fun x => Nat.mul_le_mul_left x (Nat.pow_le_pow_right (by decide) (Nat.le_succ k))
      have hPlaceLe := hDouble d
      have hMaskLe := hDouble c
      rw [hRest, divReduce, if_pos hGe, hSt]
      refine ih (by omega) (by omega) (by omega) ?_ hRem hQuot hT hM hSum'
      rw [hR']
      split_ifs with hFits
      · rw [pow_succ 2 (k + 1), ← Nat.mul_assoc] at hBelow
        omega
      · omega

/-
  The remainder is right; the quotient is lost where the mask
  needs the spare bit that only the dividend has.
-/
theorem divMod_spec {a b : VvpVector2} (hPos : 0 < a.wid) (hWid : a.wid = b.wid)
    (hA : a.Clean) (hNonzero : 0 < b.whole) :
    ∃ q r, divMod a b = some (q, r) ∧
      q.wid = a.wid ∧ r.wid = a.wid ∧
      r.whole = a.whole % b.whole ∧
      q.whole =
        if b.whole = 1 ∧ 2 ^ (a.wid - 1) < a.whole then 0
        else a.whole / b.whole := by
  have hZero : (ofLong 0#64 a.wid).whole = 0 := whole_ofLong 0#64 hPos
  have hOne : (ofLong 1#64 a.wid).whole = 1 := whole_ofLong 1#64 hPos
  have hNotEq : ¬b.eq (ofLong 0#64 a.wid) = true := by
    rw [eq_iff]
    omega
  have hALt : a.whole < 2 ^ a.wid := hA
  have hWords := wordsFor_bounds (a.wid + 1)
  have hPow := Nat.pow_le_pow_right (by decide : 0 < 2) hWords.1
  rw [divMod]
  simp only
  rw [if_neg hNotEq]
  by_cases hLess : a.whole < b.whole
  · rw [if_pos ((lt_iff a b).mpr hLess)]
    have hTop : ¬(b.whole = 1 ∧ 2 ^ (a.wid - 1) < a.whole) := by grind
    refine ⟨_, _, rfl, rfl, rfl, (Nat.mod_eq_of_lt hLess).symm, ?_⟩
    rw [if_neg hTop, hZero, Nat.div_eq_of_lt hLess]
  rw [if_neg (by rwa [lt_iff])]
  have hDividend : (a.resize (a.wid + 1)).wid = a.wid + 1 ∧
      (a.resize (a.wid + 1)).whole = a.whole := by
    refine ⟨rfl, ?_⟩
    rw [whole_resize, Nat.mod_eq_of_lt]
    omega
  have hDivtmp : (b.resize (a.wid + 1)).wid = a.wid + 1 ∧
      (b.resize (a.wid + 1)).whole = b.whole * 2 ^ 0 := by
    refine ⟨rfl, ?_⟩
    rw [whole_resize, Nat.mod_eq_of_lt (by omega), pow_zero, Nat.mul_one]
  have hMask : (ofLong 1#64 a.wid).wid = a.wid ∧
      (ofLong 1#64 a.wid).whole = 2 ^ 0 % 2 ^ a.wid := by
    refine ⟨rfl, ?_⟩
    rw [hOne, pow_zero, Nat.mod_eq_of_lt]
    exact Nat.one_lt_two_pow (by omega)
  have hRounds : a.wid ≤ 0 + (a.wid + 2) := by omega
  rcases divStartup_spec hNonzero hDividend.2 hALt hRounds hDivtmp hMask (Or.inl rfl) with
    ⟨up, m, hUp, hHigh, hLow, hUpTmp, hUpMask⟩
  have hDouble : m = 0 ∨ b.whole * 2 ^ m < 2 * a.whole := by
    rcases hLow with hNone | hLow
    · exact Or.inl hNone
    · by_cases hNone : m = 0
      · exact Or.inl hNone
      · right
        have hSucc : m - 1 + 1 = m := by omega
        rw [← hSucc, pow_succ, ← Nat.mul_assoc]
        omega
  have hPlace : b.whole * 2 ^ m < 2 ^ (a.wid + 1) := by grind
  have hBelow : a.whole < b.whole * 2 ^ (m + 1) := by
    rw [pow_succ, ← Nat.mul_assoc]
    omega
  have hWidth : m ≤ a.wid := by
    by_contra hPast
    have hGrow := Nat.pow_le_pow_right (by decide : 0 < 2) (Nat.lt_of_not_le hPast)
    have hMul := Nat.le_mul_of_pos_left (2 ^ m) hNonzero
    omega
  have hHalf : 2 ^ a.wid = 2 ^ (a.wid - 1) * 2 := by rw [← pow_succ, Nat.sub_add_cancel hPos]
  -- the mask is lost exactly when it reaches the width
  have hLost : ∃ c ≤ 1, up.2.whole = c * 2 ^ m ∧
      c * 2 ^ m < 2 ^ a.wid ∧
      c * (a.whole / b.whole) =
        if b.whole = 1 ∧ 2 ^ (a.wid - 1) < a.whole then 0
        else a.whole / b.whole := by
    rcases Nat.lt_or_eq_of_le hWidth with hIn | hOut
    · have hFits := Nat.pow_lt_pow_right (by decide : 1 < 2) hIn
      have hNotTop :
          ¬(b.whole = 1 ∧ 2 ^ (a.wid - 1) < a.whole) := by
        rintro ⟨hOneB, hAbove⟩
        have hLe := Nat.pow_le_pow_right (by decide : 0 < 2) (Nat.le_sub_one_of_lt hIn)
        rw [hOneB] at hHigh
        omega
      refine ⟨1, Nat.le_refl _, ?_, ?_, ?_⟩
      · rw [hUpMask.2, Nat.one_mul, Nat.mod_eq_of_lt hFits]
      · rwa [Nat.one_mul]
      · rw [if_neg hNotTop, Nat.one_mul]
    · have hTop : b.whole = 1 ∧ 2 ^ (a.wid - 1) < a.whole := by
        rcases hDouble with hNone | hDouble
        · omega
        · rw [hOut] at hDouble
          have hOneB : b.whole = 1 := by
            by_contra hNe
            have hTwo := Nat.mul_le_mul_right (2 ^ a.wid) (show 2 ≤ b.whole by omega)
            omega
          rw [hOneB] at hDouble
          exact ⟨hOneB, by omega⟩
      refine ⟨0, by decide, ?_, ?_, ?_⟩
      · rw [hUpMask.2, hOut, Nat.mod_self, Nat.zero_mul]
      · rw [Nat.zero_mul]
        exact Nat.two_pow_pos _
      · rw [if_pos hTop, Nat.zero_mul]
  rcases hLost with ⟨c, hC, hMaskWhole, hMaskLt, hQuotient⟩
  have hStart : (ofLong 0#64 a.wid).wid = a.wid ∧ (ofLong 0#64 a.wid).whole = c * 0 := ⟨rfl, hZero⟩
  have hEnough : m < a.wid + 2 := by omega
  have hNothing : a.whole + b.whole * 0 = a.whole := rfl
  rcases divReduce_spec hPos hC hALt hNonzero rfl hEnough hPlace
      hMaskLt hBelow hDividend hStart hUpTmp
      ⟨hUpMask.1, hMaskWhole⟩ hNothing with
    ⟨down, hDown, hRem, hQuot, hDownMask⟩
  have hSize : (a.resize (a.wid + 1)).wid = a.wid + 1 := rfl
  rw [hSize, hUp, Option.bind_some, hDown]
  refine ⟨_, _, rfl, hQuot.1, hDownMask, ?_, ?_⟩
  · have hModLt := Nat.mod_lt a.whole hNonzero
    have hFit := Nat.pow_le_pow_right (by decide : 0 < 2) (wordsFor_bounds a.wid).1
    rw [whole_resize, hDownMask, hRem.2, Nat.mod_eq_of_lt]
    omega
  · rw [hQuot.2, hQuotient]

/- `operator /`. -/
def div (dividend divisor : VvpVector2) : Option VvpVector2 :=
  (divMod dividend divisor).map (fun res => res.1)

/- `operator %`. -/
def mod (dividend divisor : VvpVector2) : Option VvpVector2 :=
  (divMod dividend divisor).map (fun res => res.2)

end VvpVector2

end EpicSim

----
-- Functors
----

namespace EpicSim

open VvpVector2

namespace VvpArith

/- Take the sign out of an operand, if it has one. -/
def stripWide (signed_flag : Bool) (op : VvpVector2) : Option (VvpVector2 × Bool) :=
  if signed_flag && op.value (op.wid - 1) then
    op.neg.map (fun op => (op, true))
  else some (op, false)

/- Put the sign back. -/
def restoreWide (negate : Bool) (res : VvpVector2) : Option VvpVector2 :=
  if negate then res.neg else some res

/- The same on native words, with the sign bits masked. -/
def stripNative (signed_flag : Bool) (op : VvpVector4) (val : BitVec 64) : BitVec 64 × Bool :=
  let signMask : BitVec 64 :=
    if op.size_ ≠ 64 then
      BitVec.allOnes 64 <<< (op.size_ % 64)
    else 0#64
  if signed_flag && op.value (op.size_ - 1) != .zero then
    (-val &&& ~~~signMask, true)
  else (val, false)

/- `vvp_arith_div::wide4_`. -/
def divWide (arith : VvpArith) : Option VvpVector4 :=
  let a2 := ofVector4 arith.op_a true
  let b2 := ofVector4 arith.op_b true
  if a2.isNaN then some arith.x_val
  else if b2.isNaN || b2.isZero then some arith.x_val
  else do
    let (a2, aNegate) ← stripWide arith.signed_flag a2
    let (b2, bNegate) ← stripWide arith.signed_flag b2
    let res ← a2.div b2
    let res ← restoreWide (aNegate != bNegate) res
    return res.toVector4 arith.wid

/- `vvp_arith_mod::wide_`. -/
def modWide (arith : VvpArith) : Option VvpVector4 :=
  let a2 := ofVector4 arith.op_a true
  let b2 := ofVector4 arith.op_b true
  if a2.isNaN then some arith.x_val
  else if b2.isNaN || b2.isZero then some arith.x_val
  else do
    let (a2, negate) ← stripWide arith.signed_flag a2
    let (b2, _) ← stripWide arith.signed_flag b2
    let res ← a2.mod b2
    let res ← restoreWide negate res
    return res.toVector4 res.wid

/- A vector of X bits, made where the divisor is zero. -/
def xVector (wid : Nat) : VvpVector4 :=
  (List.range wid).foldl (fun xval idx => xval.setBit idx .x) (VvpVector4.fill wid .x)

/- What `vvp_arith_div::recv_vec4` sends. -/
def divSend (arith : VvpArith) : Option VvpVector4 :=
  if 64 < arith.wid then divWide arith
  else
    match vector4ToValue arith.op_a with
    | none => some arith.x_val
    | some a =>
      match vector4ToValue arith.op_b with
      | none => some arith.x_val
      | some b =>
        let a := stripNative arith.signed_flag arith.op_a a
        let b := stripNative arith.signed_flag arith.op_b b
        if b.1 = 0#64 then some (xVector arith.wid)
        else
          let val := a.1 / b.1
          let val := if a.2 != b.2 then -val else val
          some (valueToVector4 arith.wid val)

/- What `vvp_arith_mod::recv_vec4` sends. -/
def modSend (arith : VvpArith) : Option VvpVector4 :=
  if 64 < arith.wid then modWide arith
  else
    match vector4ToValue arith.op_a with
    | none => some arith.x_val
    | some a =>
      match vector4ToValue arith.op_b with
      | none => some arith.x_val
      | some b =>
        let a := stripNative arith.signed_flag arith.op_a a
        let b := stripNative arith.signed_flag arith.op_b b
        if b.1 = 0#64 then some (xVector arith.wid)
        else
          let val := a.1 % b.1
          let val := if a.2 then -val else val
          some (valueToVector4 arith.wid val)

end VvpArith

end EpicSim

----
-- Signs
----

namespace EpicSim

open PackedWords VvpVector2

namespace VvpVector4

/- The sign that the functors take out. -/
def negative (v : VvpVector4) (signed : Bool) : Bool :=
  signed && v.topSet

/- The number without the sign. -/
def magnitude (v : VvpVector4) (signed : Bool) : Nat :=
  if v.negative signed then 2 ^ v.size_ - v.number else v.number

theorem integer_eq (v : VvpVector4) (signed : Bool) :
    v.integer signed =
      if v.negative signed then -(v.magnitude signed : Int)
      else v.magnitude signed := by
  have hLt := v.number_lt
  unfold integer magnitude
  change (if v.negative signed then _ else _) = _
  split_ifs
  · push_cast [Nat.le_of_lt hLt]
    omega
  · rfl

variable {v : VvpVector4}

theorem negative_number_pos {signed : Bool} (hSize : 0 < v.size_)
    (h : v.negative signed = true) : 2 ^ (v.size_ - 1) ≤ v.number := by
  rw [negative, Bool.and_eq_true] at h
  exact (topSet_iff hSize).mp h.2

/- A magnitude with a sign is at most half of the numbers. -/
theorem magnitude_signed_le (hSize : 0 < v.size_) :
    v.magnitude true ≤ 2 ^ (v.size_ - 1) := by
  have hHalf : 2 ^ v.size_ = 2 ^ (v.size_ - 1) * 2 := by rw [← pow_succ, Nat.sub_add_cancel hSize]
  unfold magnitude
  split_ifs with hNeg
  · have hTop := negative_number_pos hSize hNeg
    omega
  · rw [negative, Bool.true_and, topSet_iff hSize] at hNeg
    omega

theorem magnitude_eq_zero_iff {signed : Bool} :
    v.magnitude signed = 0 ↔ v.number = 0 := by
  have hLt := v.number_lt
  unfold magnitude
  split_ifs with hNeg
  · have hPos : v.number ≠ 0 := by
      intro hZero
      rw [negative, Bool.and_eq_true, topSet] at hNeg
      have hBit := testBit_number v (v.size_ - 1)
      rw [hNeg.2, hZero, Nat.zero_testBit] at hBit
      cases hBit
    omega
  · exact Iff.rfl

end VvpVector4

/- Division truncates toward zero, whatever the signs. -/
theorem tdiv_signs (s t : Bool) (a b : Nat) :
    Int.tdiv (if s then -(a : Int) else a) (if t then -(b : Int) else b) =
      if s != t then -((a / b : Nat) : Int)
      else ((a / b : Nat) : Int) := by
  cases s <;> cases t <;>
    simp [Int.tdiv_neg]

/- The remainder has the sign of the dividend. -/
theorem tmod_signs (s t : Bool) (a b : Nat) :
    Int.tmod (if s then -(a : Int) else a) (if t then -(b : Int) else b) =
      if s then -((a % b : Nat) : Int)
      else ((a % b : Nat) : Int) := by
  cases s <;> cases t <;>
    simp [Int.tmod_eq_emod_of_nonneg]

namespace VvpArith

theorem stripWide_spec {v : VvpVector4} (hSize : 0 < v.size_) (signed_flag : Bool) :
    ∃ res, stripWide signed_flag (copyFromThat v) = some (res, v.negative signed_flag) ∧
      res.wid = v.size_ ∧
      res.whole = v.magnitude signed_flag ∧ res.Clean := by
  have hClean := clean_copyFromThat v
  have hWhole := VvpVector4.whole_copyFromThat v
  have hWid : (copyFromThat v).wid = v.size_ := rfl
  have hTop : (copyFromThat v).value ((copyFromThat v).wid - 1) = v.topSet := by
    rw [value_eq, decide_eq_true (by omega), testBit_copyFromThat]
    rfl
  unfold stripWide VvpVector4.magnitude
  rw [hTop]
  change ∃ res, (if v.negative signed_flag then _ else _) = _ ∧ _
  by_cases hNeg : v.negative signed_flag = true
  · rcases neg_of_clean hClean with ⟨res, hRes, hResWid, hNum⟩
    have hPos := VvpVector4.negative_number_pos hSize hNeg
    have hHalf := Nat.two_pow_pos (v.size_ - 1)
    have hLt := v.number_lt
    rw [hWhole, hWid, Nat.mod_eq_of_lt (by omega)] at hNum
    refine ⟨res, ?_, hResWid, ?_, ?_⟩
    · rw [hRes, hNeg]
      rfl
    · rw [if_pos hNeg, hNum]
    · unfold Clean
      rw [hResWid, hWid]
      omega
  · grind

/- The sign goes back modulo the width. -/
theorem restoreWide_spec {res : VvpVector2} (hClean : res.Clean) (negate : Bool) :
    ∃ out, restoreWide negate res = some out ∧
      out.wid = res.wid ∧
      (out.whole : Int) ≡
        (if negate then -(res.whole : Int) else res.whole) [ZMOD 2 ^ res.wid] := by
  cases negate with
  | false => exact ⟨res, rfl, rfl, Int.ModEq.refl _⟩
  | true =>
    rcases neg_of_clean hClean with ⟨out, hOut, hWid, hWhole⟩
    refine ⟨out, hOut, hWid, ?_⟩
    have hLe : res.whole ≤ 2 ^ res.wid := Nat.le_of_lt hClean
    rw [hWhole]
    push_cast [hLe]
    simp only [if_true]
    refine (Int.mod_modEq _ _).trans ?_
    rw [Int.modEq_iff_dvd]
    exact ⟨-1, by ring⟩

theorem encodes_toVector4 {res : VvpVector2} {n : Int}
    (h : (res.whole : Int) ≡ n [ZMOD 2 ^ res.wid]) : (res.toVector4 res.wid).Encodes res.wid n := by
  rcases toVector4_spec res res.wid with ⟨hSize, hBits⟩
  refine VvpVector4.encodes_of_testBit hSize ?_ h
  intro idx hIdx
  rw [hBits idx hIdx, value_eq, decide_eq_true hIdx, Bool.true_and]

theorem toNat_signMask (n : Nat) (h : n ≤ 64) :
    (~~~(if n ≠ 64 then BitVec.allOnes 64 <<< (n % 64)
      else 0#64)).toNat = 2 ^ n - 1 := by
  by_cases hFull : n = 64
  · rw [hFull]
    decide
  · rw [if_pos hFull]
    apply Nat.eq_of_testBit_eq
    intro off
    rw [BitVec.testBit_toNat, BitVec.getLsbD_not, BitVec.getLsbD_shiftLeft,
      BitVec.getLsbD_allOnes]
    rw [Bool.eq_iff_iff]
    simp
    omega

theorem stripNative_spec {v : VvpVector4} (hSize : 0 < v.size_)
    (hNative : v.size_ ≤ 64) (hDefined : v.Defined)
    {val : BitVec 64} (hVal : val.toNat = v.number) (signed_flag : Bool) :
    ∃ res, stripNative signed_flag v val = (res, v.negative signed_flag) ∧
      res.toNat = v.magnitude signed_flag := by
  have hTop : (v.value (v.size_ - 1) != .zero) = v.topSet := by
    unfold VvpVector4.topSet
    rcases hDefined (v.size_ - 1) (by omega) with h | h <;>
      rw [h] <;> rfl
  unfold stripNative VvpVector4.magnitude
  rw [hTop]
  change ∃ res, (if v.negative signed_flag then _ else _) = _ ∧ _
  by_cases hNeg : v.negative signed_flag = true
  · have hPos := VvpVector4.negative_number_pos hSize hNeg
    have hHalf := Nat.two_pow_pos (v.size_ - 1)
    have hLt := v.number_lt
    refine ⟨-val &&& ~~~(if v.size_ ≠ 64 then
      BitVec.allOnes 64 <<< (v.size_ % 64) else 0#64), ?_, ?_⟩
    · rw [if_pos hNeg, hNeg]
    · rw [if_pos hNeg, BitVec.toNat_and, toNat_signMask _ hNative,
        Nat.and_two_pow_sub_one_eq_mod, BitVec.toNat_neg, hVal]
      have hSplit : 2 ^ 64 = 2 ^ v.size_ * 2 ^ (64 - v.size_) := by
        rw [← pow_add, Nat.add_sub_cancel' hNative]
      have hQuot := Nat.two_pow_pos (64 - v.size_)
      rw [Nat.mod_mod_of_dvd _ (Nat.pow_dvd_pow 2 hNative), hSplit]
      rcases Nat.exists_eq_succ_of_ne_zero (Nat.pos_iff_ne_zero.mp hQuot) with ⟨q, hq⟩
      rw [hq, Nat.mul_succ]
      have hSum : 2 ^ v.size_ * q + 2 ^ v.size_ - v.number =
          (2 ^ v.size_ - v.number) + 2 ^ v.size_ * q := by omega
      rw [hSum, Nat.add_mul_mod_self_left, Nat.mod_eq_of_lt]
      omega
  · grind

/- Native bits with their sign, modulo a narrow width. -/
theorem encodes_valueToVector4 {wid : Nat} (hNative : wid ≤ 64) (val : BitVec 64) (negate : Bool) :
    (valueToVector4 wid (if negate then -val else val)).Encodes
      wid (if negate then -(val.toNat : Int) else val.toNat) := by
  rcases valueToVector4_spec wid (if negate then -val else val) with ⟨hSize, hBits⟩
  refine VvpVector4.encodes_of_testBit hSize hBits ?_
  cases negate with
  | false => exact Int.ModEq.refl _
  | true =>
    simp only [if_true]
    have hDvd : (2 : Int) ^ wid ∣ 2 ^ 64 := pow_dvd_pow 2 hNative
    refine Int.ModEq.of_dvd hDvd ?_
    have hCast : ((2 ^ 64 - val.toNat : Nat) : Int) =
        2 ^ 64 - val.toNat := by omega
    rw [BitVec.toNat_neg, Int.natCast_mod, hCast]
    refine (Int.mod_modEq _ _).trans ?_
    rw [Int.modEq_iff_dvd]
    exact ⟨-1, by ring⟩

end VvpArith

end EpicSim

----
-- What Is Sent
----

namespace EpicSim

open VvpVector2

namespace VvpArith

/- Both operands are defined and the divisor is not zero. -/
def Divides (arith : VvpArith) : Prop :=
  arith.op_a.Defined ∧ arith.op_b.Defined ∧ arith.op_b.number ≠ 0

/-
  What division must send: the encoding of the result where
  there is one, and X in all bits otherwise.
-/
def SendsRight (op : Int → Int → Int) (arith : VvpArith) (out : VvpVector4) : Prop :=
  (arith.Divides →
    out.Encodes arith.wid
      (op (arith.op_a.integer arith.signed_flag) (arith.op_b.integer arith.signed_flag))) ∧
  (¬arith.Divides → out.AllX arith.wid)

/-
  The quotients that are lost: an unsigned dividend of the
  upper half, past the native width, divided by one.
-/
def QuotientLost (arith : VvpArith) : Prop :=
  64 < arith.wid ∧ arith.signed_flag = false ∧
    arith.op_a.Defined ∧ arith.op_b.Defined ∧
      arith.op_b.number = 1 ∧ 2 ^ (arith.wid - 1) < arith.op_a.number

variable {wid : Nat} {signed_flag : Bool} {arith : VvpArith}

theorem xVector_allX (wid : Nat) : (xVector wid).AllX wid := filled_spec wid .x

/- The word of a magnitude is zero where the number is. -/
theorem strip_eq_zero_iff {v : VvpVector4} {val : BitVec 64}
    (h : val.toNat = v.magnitude signed_flag) : val = 0#64 ↔ v.number = 0 := by
  rw [← VvpVector4.magnitude_eq_zero_iff, ← h]
  exact BitVec.toNat_eq

/- X bits anywhere, or a zero divisor, send X. -/
theorem send_of_not_divides (hWid : 0 < wid) (hLive : Live wid signed_flag arith)
    (hDivides : ¬arith.Divides) :
    (∃ out, arith.divSend = some out ∧ out.AllX wid) ∧
      ∃ out, arith.modSend = some out ∧ out.AllX wid := by
  rcases hLive.wired with ⟨hW, hSigned, hSizeA, hSizeB, hX⟩
  by_cases hWide : 64 < wid
  · have hA := VvpVector4.ofVector4_enabled (show 0 < arith.op_a.size_ by omega)
    have hB := VvpVector4.ofVector4_enabled (show 0 < arith.op_b.size_ by omega)
    have hSend : divWide arith = some arith.x_val ∧
        modWide arith = some arith.x_val := by
      unfold divWide modWide
      simp only
      rw [hA.1, hB.1]
      by_cases hDefA : arith.op_a.Defined
      · by_cases hDefB : arith.op_b.Defined
        · have hZero : (ofVector4 arith.op_b true).isZero =
              true := by
            rw [hB.2 hDefB, isZero_iff, VvpVector4.whole_copyFromThat]
            by_contra hNe
            exact hDivides ⟨hDefA, hDefB, hNe⟩
          simp [hZero]
        · simp [hDefB]
      · simp [hDefA]
    unfold divSend modSend
    rw [hW, if_pos hWide, if_pos hWide]
    exact ⟨⟨_, hSend.1, hX⟩, ⟨_, hSend.2, hX⟩⟩
  · unfold divSend modSend
    rw [hW, if_neg hWide, if_neg hWide]
    by_cases hDefA : arith.op_a.Defined
    · rcases vector4ToValue_of_defined (by omega) hDefA with ⟨a, hA, -⟩
      rw [hA]
      by_cases hDefB : arith.op_b.Defined
      · rcases vector4ToValue_of_defined (by omega) hDefB with ⟨b, hB, hBNum⟩
        rcases stripNative_spec (by omega) (by omega) hDefB
            hBNum arith.signed_flag with ⟨bs, hBs, hBsNum⟩
        have hZero : bs = 0#64 := by
          rw [strip_eq_zero_iff hBsNum]
          by_contra hNe
          exact hDivides ⟨hDefA, hDefB, hNe⟩
        rw [hB]
        simp only [hBs]
        rw [if_pos hZero, if_pos hZero]
        exact ⟨⟨_, rfl, xVector_allX wid⟩, ⟨_, rfl, xVector_allX wid⟩⟩
      · rw [vector4ToValue_of_not_defined hDefB]
        exact ⟨⟨_, rfl, hX⟩, ⟨_, rfl, hX⟩⟩
    · rw [vector4ToValue_of_not_defined hDefA]
      exact ⟨⟨_, rfl, hX⟩, ⟨_, rfl, hX⟩⟩

/- The native path. -/
theorem send_of_native (hWid : 0 < wid) (hNative : wid ≤ 64) (hLive : Live wid signed_flag arith)
    (hDivides : arith.Divides) :
    (∃ out, arith.divSend = some out ∧ out.Encodes wid
      (Int.tdiv (arith.op_a.integer signed_flag) (arith.op_b.integer signed_flag))) ∧
    ∃ out, arith.modSend = some out ∧ out.Encodes wid
      (Int.tmod (arith.op_a.integer signed_flag) (arith.op_b.integer signed_flag)) := by
  rcases hLive.wired with ⟨hW, hSigned, hSizeA, hSizeB, -⟩
  rcases hDivides with ⟨hDefA, hDefB, hNonzero⟩
  rcases vector4ToValue_of_defined (by omega) hDefA with ⟨a, hA, hANum⟩
  rcases vector4ToValue_of_defined (by omega) hDefB with ⟨b, hB, hBNum⟩
  rcases stripNative_spec (by omega) (by omega) hDefA hANum signed_flag with ⟨as, hAs, hAsNum⟩
  rcases stripNative_spec (by omega) (by omega) hDefB hBNum signed_flag with ⟨bs, hBs, hBsNum⟩
  have hBsNe : bs ≠ 0#64 := by
    rw [ne_eq, strip_eq_zero_iff hBsNum]
    exact hNonzero
  unfold divSend modSend
  rw [hW, if_neg (by omega), if_neg (by omega), hA, hB, hSigned]
  simp only [hAs, hBs]
  rw [if_neg hBsNe, if_neg hBsNe, VvpVector4.integer_eq, VvpVector4.integer_eq, tdiv_signs,
    tmod_signs, ← hAsNum, ← hBsNum]
  exact ⟨⟨_, rfl, encodes_valueToVector4 hNative _ _⟩, ⟨_, rfl, encodes_valueToVector4 hNative _ _⟩⟩

/- The wide path, with what becomes of a lost quotient. -/
theorem send_of_wide (hWide : 64 < wid) (hLive : Live wid signed_flag arith)
    (hDivides : arith.Divides) :
    (∃ out, arith.divSend = some out ∧
      (¬arith.QuotientLost → out.Encodes wid
        (Int.tdiv (arith.op_a.integer signed_flag) (arith.op_b.integer signed_flag))) ∧
      (arith.QuotientLost → out.Encodes wid 0)) ∧
    ∃ out, arith.modSend = some out ∧ out.Encodes wid
      (Int.tmod (arith.op_a.integer signed_flag) (arith.op_b.integer signed_flag)) := by
  rcases hLive.wired with ⟨hW, hSigned, hSizeA, hSizeB, -⟩
  rcases hDivides with ⟨hDefA, hDefB, hNonzero⟩
  have hPosA : 0 < arith.op_a.size_ := by omega
  have hPosB : 0 < arith.op_b.size_ := by omega
  have hA := VvpVector4.ofVector4_enabled hPosA
  have hB := VvpVector4.ofVector4_enabled hPosB
  rcases stripWide_spec hPosA signed_flag with ⟨as, hAs, hAsWid, hAsWhole, hAsClean⟩
  rcases stripWide_spec hPosB signed_flag with ⟨bs, hBs, hBsWid, hBsWhole, hBsClean⟩
  have hBsPos : 0 < bs.whole := by
    rw [hBsWhole]
    exact Nat.pos_of_ne_zero (fun h => hNonzero (VvpVector4.magnitude_eq_zero_iff.mp h))
  rcases divMod_spec (by omega) (by omega) hAsClean hBsPos with
    ⟨q, r, hQR, hQWid, hRWid, hRWhole, hQWhole⟩
  have hQ : as.div bs = some q := by
    rw [div, hQR]
    rfl
  have hR : as.mod bs = some r := by
    rw [mod, hQR]
    rfl
  have hLost : bs.whole = 1 ∧ 2 ^ (as.wid - 1) < as.whole ↔
      arith.QuotientLost := by
    rw [hAsWhole, hBsWhole, hAsWid, hSizeA]
    unfold QuotientLost
    rw [hW, hSigned]
    cases signed_flag with
    | false => simp [VvpVector4.magnitude, VvpVector4.negative, hDefA, hDefB, hWide]
    | true =>
      have hLe := VvpVector4.magnitude_signed_le hPosA
      rw [hSizeA] at hLe
      simp
      omega
  have hQClean : q.Clean := by
    unfold Clean
    rw [hQWid, hQWhole]
    split_ifs
    · exact Nat.two_pow_pos _
    · exact Nat.lt_of_le_of_lt (Nat.div_le_self _ _) hAsClean
  have hRClean : r.Clean := by
    unfold Clean
    rw [hRWid, hRWhole]
    exact Nat.lt_of_le_of_lt (Nat.mod_le _ _) hAsClean
  rcases restoreWide_spec hQClean
      (arith.op_a.negative signed_flag != arith.op_b.negative signed_flag) with
    ⟨qs, hQs, hQsWid, hQsMod⟩
  rcases restoreWide_spec hRClean (arith.op_a.negative signed_flag) with ⟨rs, hRs, hRsWid, hRsMod⟩
  have hWidQ : qs.wid = wid := by omega
  have hWidR : rs.wid = wid := by omega
  have hNaN : (copyFromThat arith.op_a).isNaN = false ∧
      (copyFromThat arith.op_b).isNaN = false ∧
      (copyFromThat arith.op_b).isZero = false := by
    rw [← hA.2 hDefA, ← hB.2 hDefB, hA.1, hB.1, ← Bool.not_eq_true (isZero _),
      hB.2 hDefB, isZero_iff, VvpVector4.whole_copyFromThat]
    exact ⟨by simp [hDefA], by simp [hDefB], hNonzero⟩
  have hDiv : arith.divSend = some (qs.toVector4 wid) := by
    unfold divSend divWide
    simp only [hNaN, hW, if_pos hWide, hA.2 hDefA, hB.2 hDefB, hSigned,
      hAs, hBs, hQ, hQs, Bool.or_self, Bool.false_eq_true, if_false,
      Option.bind_eq_bind, Option.bind_some, Option.pure_def]
  have hMod : arith.modSend = some (rs.toVector4 rs.wid) := by
    unfold modSend modWide
    simp only [hNaN, hW, if_pos hWide, hA.2 hDefA, hB.2 hDefB, hSigned,
      hAs, hBs, hR, hRs, Bool.or_self, Bool.false_eq_true, if_false,
      Option.bind_eq_bind, Option.bind_some, Option.pure_def]
  have hWidQ' : q.wid = wid := by omega
  have hWidR' : r.wid = wid := by omega
  rw [hWidQ', ← hWidQ] at hQsMod
  rw [hWidR', ← hWidR] at hRsMod
  have hQEncodes := encodes_toVector4 hQsMod
  have hREncodes := encodes_toVector4 hRsMod
  rw [hWidQ] at hQEncodes
  rw [VvpVector4.integer_eq, VvpVector4.integer_eq, tdiv_signs, tmod_signs, ← hAsWhole, ← hBsWhole]
  refine ⟨⟨_, hDiv, ?_, ?_⟩, ⟨_, hMod, ?_⟩⟩
  · grind
  · grind
  · rw [hRWhole, hWidR] at hREncodes
    rwa [hWidR]

/- A lost quotient is not the quotient. -/
theorem not_encodes_of_lost (hLive : Live wid signed_flag arith)
    (hLost : arith.QuotientLost) {out : VvpVector4} (hOut : out.Encodes wid 0) :
    ¬out.Encodes wid
      (Int.tdiv (arith.op_a.integer signed_flag) (arith.op_b.integer signed_flag)) := by
  rcases hLive.wired with ⟨hW, hSigned, hSizeA, -, -⟩
  rcases hLost with ⟨-, hUnsigned, -, -, hOne, hHigh⟩
  rw [hSigned] at hUnsigned
  subst hUnsigned
  intro hRight
  have hMod := (VvpVector4.Encodes.modEq hOut hRight).symm
  have hIntA : arith.op_a.integer false = arith.op_a.number := rfl
  have hIntB : arith.op_b.integer false = 1 := by
    change (arith.op_b.number : Int) = 1
    rw [hOne]
    rfl
  rw [hIntA, hIntB, Int.tdiv_one] at hMod
  have hNat : arith.op_a.number ≡ 0 [MOD 2 ^ wid] := by
    exact_mod_cast hMod
  have hLt := arith.op_a.number_lt
  rw [hSizeA] at hLt
  have hZero : arith.op_a.number = 0 := by
    rw [← Nat.mod_eq_of_lt hLt]
    exact hNat
  rw [hZero] at hHigh
  exact Nat.not_lt_zero _ hHigh

/-
  Division sends the right value except where the quotient is
  lost, the modulus always does.  For the vectors themselves
  the remainder is below the divisor, and quotient and
  remainder make up the dividend except for a dividend of the
  upper half divided by one.
-/
theorem div_mod_iff (hWid : 0 < wid) (hLive : Live wid signed_flag arith)
    {port : Nat} {bit : VvpVector4} (hBit : bit.size_ = wid) {arith' : VvpArith}
    (hPort : arith.dispatchOperand port bit = some arith') :
    (∃ out, arith.recvVec4 divSend port bit = some (arith', out) ∧
      (SendsRight Int.tdiv arith' out ↔ ¬arith'.QuotientLost)) ∧
    (∃ out, arith.recvVec4 modSend port bit = some (arith', out) ∧ SendsRight Int.tmod arith' out) ∧
    ∀ a b : VvpVector2, 0 < a.wid → a.wid = b.wid →
      a.Clean → b.Clean → b.number ≠ 0 →
        ∃ q r, a.div b = some q ∧ a.mod b = some r ∧
          r.number < b.number ∧
          (a.number = q.number * b.number + r.number ↔
            ¬(b.number = 1 ∧ 2 ^ (a.wid - 1) < a.number)) := by
  have hLive' := Live.dispatch hLive hBit hPort
  rcases hLive'.wired with ⟨hW, hSigned, -⟩
  have hRecv : ∀ {send out}, send arith' = some out →
      arith.recvVec4 send port bit = some (arith', out) := by
    intro send out hSend
    rw [recvVec4, hPort, Option.bind_some, hSend]
    rfl
  refine ⟨?_, ?_, ?_⟩
  · by_cases hDivides : arith'.Divides
    · by_cases hWide : 64 < wid
      · rcases (send_of_wide hWide hLive' hDivides).1 with ⟨out, hOut, hKept, hGone⟩
        refine ⟨out, hRecv hOut, ?_⟩
        unfold SendsRight
        rw [hW, hSigned]
        constructor
        · rintro ⟨hRight, -⟩ hLost
          exact not_encodes_of_lost hLive' hLost (hGone hLost) (hRight hDivides)
        · intro hNot
          exact ⟨fun _ => hKept hNot, fun h => absurd hDivides h⟩
      · rcases (send_of_native hWid (by omega) hLive' hDivides).1 with ⟨out, hOut, hRight⟩
        refine ⟨out, hRecv hOut, ?_⟩
        unfold SendsRight
        rw [hW, hSigned]
        constructor
        · rintro - ⟨hPast, -⟩
          omega
        · intro _
          exact ⟨fun _ => hRight, fun h => absurd hDivides h⟩
    · rcases (send_of_not_divides hWid hLive' hDivides).1 with ⟨out, hOut, hX⟩
      refine ⟨out, hRecv hOut, ?_⟩
      unfold SendsRight
      rw [hW]
      constructor
      · rintro - ⟨-, -, hDefA, hDefB, hOne, -⟩
        exact hDivides ⟨hDefA, hDefB, by omega⟩
      · intro _
        exact ⟨fun h => absurd h hDivides, fun _ => hX⟩
  · by_cases hDivides : arith'.Divides
    · have hSend : ∃ out, arith'.modSend = some out ∧
          out.Encodes wid
            (Int.tmod (arith'.op_a.integer signed_flag) (arith'.op_b.integer signed_flag)) := by
        by_cases hWide : 64 < wid
        · exact (send_of_wide hWide hLive' hDivides).2
        · exact (send_of_native hWid (by omega) hLive' hDivides).2
      rcases hSend with ⟨out, hOut, hRight⟩
      refine ⟨out, hRecv hOut, ?_⟩
      unfold SendsRight
      rw [hW, hSigned]
      exact ⟨fun _ => hRight, fun h => absurd hDivides h⟩
    · rcases (send_of_not_divides hWid hLive' hDivides).2 with ⟨out, hOut, hX⟩
      refine ⟨out, hRecv hOut, ?_⟩
      unfold SendsRight
      rw [hW]
      exact ⟨fun h => absurd h hDivides, fun _ => hX⟩
  · intro a b hPos hWidEq hA hB hNonzero
    rw [hB.number] at hNonzero
    rcases divMod_spec hPos hWidEq hA (Nat.pos_of_ne_zero hNonzero) with
      ⟨q, r, hQR, hQWid, hRWid, hRWhole, hQWhole⟩
    have hALt : a.whole < 2 ^ a.wid := hA
    have hModLt := Nat.mod_lt a.whole (Nat.pos_of_ne_zero hNonzero)
    have hRClean : r.Clean := by
      unfold Clean
      rw [hRWid, hRWhole]
      exact Nat.lt_of_le_of_lt (Nat.mod_le _ _) hALt
    have hQClean : q.Clean := by
      unfold Clean
      rw [hQWid, hQWhole]
      split_ifs
      · exact Nat.two_pow_pos _
      · exact Nat.lt_of_le_of_lt (Nat.div_le_self _ _) hALt
    refine ⟨q, r, by rw [div, hQR]; rfl, by rw [mod, hQR]; rfl, ?_, ?_⟩
    · rw [hRClean.number, hB.number, hRWhole]
      exact hModLt
    · rw [hA.number, hB.number, hQClean.number, hRClean.number, hRWhole, hQWhole]
      have hSum := Nat.div_add_mod a.whole b.whole
      split_ifs with hLost
      · have hNone : a.whole % b.whole = 0 := by
          rw [hLost.1, Nat.mod_one]
        have hHigh : 0 < a.whole := Nat.zero_lt_of_lt hLost.2
        rw [hNone]
        simp only [hLost, and_self, not_true, iff_false]
        exact Nat.pos_iff_ne_zero.mp hHigh
      · rw [Nat.mul_comm]
        exact ⟨fun _ => hLost, fun _ => hSum.symm⟩

/- Minus seven by two is minus three, in eight bits. -/
theorem div_mod_iff_byte :
    ∃ arith' out,
      recvVec4 divSend
        { new 8 true with op_a := valueToVector4 8 249#64 } 1
        (valueToVector4 8 2#64) = some (arith', out) ∧
      out.Encodes 8 (-3) := by
  have hLive : Live 8 true
      { new 8 true with op_a := valueToVector4 8 249#64 } :=
    @Live.dispatch 8 true _ _ 0 (valueToVector4 8 249#64) Live.new (by decide) rfl
  rcases (@div_mod_iff 8 true _ (by decide) hLive 1
      (valueToVector4 8 2#64) (by decide) _ rfl).1 with
    ⟨out, hOut, hIff⟩
  refine ⟨_, out, hOut, ?_⟩
  have hRight : out.Encodes 8
      (Int.tdiv ((valueToVector4 8 249#64).integer true) ((valueToVector4 8 2#64).integer true)) :=
    (hIff.mpr (fun hLost => absurd hLost.1 (by decide))).1
      ⟨by decide +kernel, by decide +kernel, by decide +kernel⟩
  have hQuotient :
      Int.tdiv ((valueToVector4 8 249#64).integer true)
        ((valueToVector4 8 2#64).integer true) = -3 := by
    decide +kernel
  rwa [hQuotient] at hRight

/-
  All ones of 65 bits, divided by one, are sent as zero.
-/
theorem divSend_not_right :
    ¬ ∀ (wid : Nat) (signed_flag : Bool) (arith : VvpArith),
      0 < wid → Live wid signed_flag arith →
        ∃ out, arith.divSend = some out ∧
          SendsRight Int.tdiv arith out := by
  intro h
  have hLive : Live 65 false
      { new 65 false with
        op_a := VvpVector4.fill 65 .one
        op_b := (VvpVector4.fill 65 .zero).setBit 0 .one } :=
    @Live.dispatch 65 false _ _ 1
      ((VvpVector4.fill 65 .zero).setBit 0 .one)
      (@Live.dispatch 65 false _ _ 0 (VvpVector4.fill 65 .one) Live.new rfl rfl) rfl rfl
  rcases h 65 false _ (by decide) hLive with ⟨out, hOut, hRight, -⟩
  have hLost : QuotientLost
      { new 65 false with
        op_a := VvpVector4.fill 65 .one
        op_b := (VvpVector4.fill 65 .zero).setBit 0 .one } := by
    refine ⟨by decide, rfl, ?_, ?_, ?_, ?_⟩ <;> decide +kernel
  have hDivides : Divides
      { new 65 false with
        op_a := VvpVector4.fill 65 .one
        op_b := (VvpVector4.fill 65 .zero).setBit 0 .one } := by
    refine ⟨hLost.2.2.1, hLost.2.2.2.1, ?_⟩
    rw [hLost.2.2.2.2.1]
    decide
  rcases (send_of_wide (by decide) hLive hDivides).1 with ⟨out', hOut', -, hGone⟩
  rw [hOut] at hOut'
  injection hOut' with hSame
  subst hSame
  exact not_encodes_of_lost hLive hLost (hGone hLost) (hRight hDivides)

end VvpArith

end EpicSim
