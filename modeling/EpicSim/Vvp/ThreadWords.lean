import EpicSim.Vvp.ThreadDivide

/-
  The arithmetic of words under procedural division.
-/

namespace EpicSim

open BitVec (lt_def toNat_add toNat_zero allOnes toNat_udiv le_def)
open PackedWords Limbs

----
-- Machine Words
----

theorem addWithCarry_spec (a b carry : BitVec 64) (hCarry : carry.toNat ≤ 1) :
    (addWithCarry a b carry).1.toNat + 2 ^ 64 * (addWithCarry a b carry).2.toNat =
      a.toNat + b.toNat + carry.toNat ∧
    (addWithCarry a b carry).2.toNat ≤ 1 := by
  have hZero : (0#64).toNat = 0 := rfl
  have hOne : (1#64).toNat = 1 := rfl
  simp only [addWithCarry, lt_def, toNat_add]
  split_ifs <;> omega

theorem adder_addWithCarry : Adder addWithCarry :=
  ⟨fun a b carry h => (addWithCarry_spec a b carry h).1,
    fun a b carry h => (addWithCarry_spec a b carry h).2⟩

/- The four products of the half words, column by column. -/
theorem multiplyWithCarry_spec (a b : BitVec 64) :
    (multiplyWithCarry a b).1.toNat + 2 ^ 64 * (multiplyWithCarry a b).2.toNat =
      a.toNat * b.toNat := by
  simp only [multiplyWithCarry]
  generalize hMask : (1#64 <<< 32 - 1#64 : BitVec 64) = mask
  have hLow : ∀ x : BitVec 64,
      (x &&& mask).toNat = x.toNat % 2 ^ 32 := by
    intro x
    rw [← hMask]
    exact (VvpVector2.toNat_half x).1
  have hHigh : ∀ x : BitVec 64,
      ((x >>> 32) &&& mask).toNat = x.toNat / 2 ^ 32 := by
    intro x
    rw [← hMask]
    exact (VvpVector2.toNat_half x).2
  rcases VvpVector2.mul_halves a b hMask with ⟨hTotal, hBound⟩
  have hProduct := Nat.mul_lt_mul'' a.isLt b.isLt
  rw [hTotal] at hProduct ⊢
  clear hTotal hBound hMask
  generalize (a &&& mask) * (b &&& mask) = p₀ at *
  generalize (a &&& mask) * (b >>> 32 &&& mask) = p₁ at *
  generalize (a >>> 32 &&& mask) * (b &&& mask) = p₂ at *
  generalize (a >>> 32 &&& mask) * (b >>> 32 &&& mask) = p₃ at *
  -- the second column
  have hR1 : (((p₀ >>> 32) &&& mask) + (p₁ &&& mask) +
      (p₂ &&& mask)).toNat = p₀.toNat / 2 ^ 32 + p₁.toNat % 2 ^ 32 + p₂.toNat % 2 ^ 32 := by
    rw [toNat_add, toNat_add, hHigh, hLow, hLow]
    omega
  generalize ((p₀ >>> 32) &&& mask) + (p₁ &&& mask) + (p₂ &&& mask) = r1 at *
  -- the third column
  have hR2 : (((r1 >>> 32) &&& mask) +
      (((p₁ >>> 32) &&& mask) + ((p₂ >>> 32) &&& mask) +
        (p₃ &&& mask))).toNat =
          r1.toNat / 2 ^ 32 + (p₁.toNat / 2 ^ 32 + p₂.toNat / 2 ^ 32 + p₃.toNat % 2 ^ 32) := by
    grind
  generalize ((r1 >>> 32) &&& mask) +
    (((p₁ >>> 32) &&& mask) + ((p₂ >>> 32) &&& mask) + (p₃ &&& mask)) = r2 at *
  -- the fourth column, where nothing is lost
  have hR3 : (((r2 >>> 32) &&& mask) +
      ((p₃ >>> 32) &&& mask)).toNat = r2.toNat / 2 ^ 32 + p₃.toNat / 2 ^ 32 := by
    rw [toNat_add, hHigh, hHigh]
    omega
  generalize ((r2 >>> 32) &&& mask) + ((p₃ >>> 32) &&& mask) = r3 at *
  have hJoin : ∀ x y : BitVec 64, x.toNat < 2 ^ 32 →
      y.toNat < 2 ^ 32 →
        ((x <<< 32) + y).toNat = x.toNat * 2 ^ 32 + y.toNat := by
    intro x y hX hY
    rw [toNat_add, BitVec.toNat_shiftLeft]
    omega
  rw [hJoin _ _ (by rw [hLow]; omega) (by rw [hLow]; omega),
    hJoin _ _ (by rw [hLow]; omega) (by rw [hLow]; omega), hLow, hLow, hLow, hLow]
  omega

/- A turn adds a product at its place, modulo the words. -/
theorem multiplyArrayTurn_spec (val : List (BitVec 64)) (imm : BitVec 64)
    {res : List (BitVec 64)} {mul_idx : Nat} (hIdx : mul_idx < res.length) :
    (multiplyArrayTurn val imm res mul_idx).length = res.length ∧
      toNat (multiplyArrayTurn val imm res mul_idx) =
        (toNat res + 2 ^ (64 * mul_idx) *
          ((wordAt val mul_idx).toNat * imm.toNat)) % 2 ^ (64 * res.length) := by
  have hProduct := multiplyWithCarry_spec (wordAt val mul_idx) imm
  generalize hWords : multiplyWithCarry (wordAt val mul_idx) imm = product at *
  rcases product with ⟨tmp, sum⟩
  have hRest : (res.drop mul_idx).length = res.length - mul_idx := List.length_drop
  have hTurn : multiplyArrayTurn val imm res mul_idx =
      res.take mul_idx ++
        (ripple addWithCarry (res.drop mul_idx)
          ((tmp :: sum ::
            List.replicate (res.length - mul_idx) 0#64).take (res.length - mul_idx)) 0#64).1 := by
    unfold multiplyArrayTurn
    rw [hWords, ← hRest]
  have hAddend :
      ((tmp :: sum ::
        List.replicate (res.length - mul_idx) 0#64).take (res.length - mul_idx)).length =
        res.length - mul_idx := by grind
  have hNumber :
      toNat ((tmp :: sum ::
        List.replicate (res.length - mul_idx) 0#64).take (res.length - mul_idx)) =
        (wordAt val mul_idx).toNat * imm.toNat % 2 ^ (64 * (res.length - mul_idx)) := by
    rw [toNat_take, toNat_cons, toNat_cons,
      toNat_replicate_zero, Nat.mul_zero, Nat.add_zero, hProduct]
  have hSum := ripple_at adder_addWithCarry
    (Nat.le_of_lt hIdx) hAddend (by decide : (0#64).toNat ≤ 1)
  rw [← hTurn] at hSum
  have hLength :
      (multiplyArrayTurn val imm res mul_idx).length = res.length := by
    rw [hTurn, List.length_append, List.length_take,
      ripple_length _ _ _ _ (hRest.trans hAddend.symm)]
    omega
  have hLt := toNat_lt (multiplyArrayTurn val imm res mul_idx)
  rw [hLength] at hLt
  refine ⟨hLength, ?_⟩
  rw [← Nat.mod_eq_of_lt hLt, ← Nat.add_mul_mod_self_left, hSum, hNumber,
    toNat_zero, Nat.add_zero, ← Nat.mul_mod_mul_left, ← pow_add,
    ← Nat.mul_add, Nat.add_sub_cancel' (Nat.le_of_lt hIdx), Nat.add_mod_mod]

/- The product is taken modulo the words. -/
theorem multiplyArrayImm_spec (val : List (BitVec 64)) (words : Nat) (imm : BitVec 64) :
    (multiplyArrayImm val words imm).length = words ∧
      toNat (multiplyArrayImm val words imm) = toNat val * imm.toNat % 2 ^ (64 * words) := by
  have hPrefix : ∀ n ≤ words,
      ((List.range n).foldl (multiplyArrayTurn val imm)
        (List.replicate words 0#64)).length = words ∧
      toNat ((List.range n).foldl (multiplyArrayTurn val imm)
        (List.replicate words 0#64)) = toNat (val.take n) * imm.toNat % 2 ^ (64 * words) := by
    intro n hn
    induction n with
    | zero => simp
    | succ n ih =>
      rcases ih (Nat.le_of_succ_le hn) with ⟨hSize, hNumber⟩
      rw [List.range_succ, List.foldl_append, List.foldl_cons, List.foldl_nil]
      generalize (List.range n).foldl _ _ = res at *
      rcases multiplyArrayTurn_spec val imm (show n < res.length by omega) with ⟨hLength, hTurn⟩
      refine ⟨hLength.trans hSize, ?_⟩
      rw [hTurn, hSize, hNumber, Nat.mod_add_mod, toNat_take_succ, Nat.add_mul, Nat.mul_assoc]
      rfl
  rcases hPrefix words (Nat.le_refl _) with ⟨hLength, hNumber⟩
  refine ⟨hLength, hNumber.trans ?_⟩
  rw [toNat_take, Nat.mod_mul_mod]

/- Negated words give the number modulo their range. -/
theorem negateWords_spec (val : List (BitVec 64)) :
    (negateWords val).length = val.length ∧
      toNat (negateWords val) = (2 ^ (64 * val.length) - toNat val) % 2 ^ (64 * val.length) :=
  toNat_negate adder_addWithCarry (by decide) rfl

----
-- Two Words by One
----

/- The range of a word, divided without a wider type. -/
theorem divideRange {b : BitVec 64} (hPos : 0 < b.toNat) :
    let tmp_result := allOnes 64 / b
    let remain := allOnes 64 % b + 1#64
    let step :=
      if b ≤ remain then (remain - b, tmp_result + 1#64)
      else (remain, tmp_result)
    step.1.toNat = 2 ^ 64 % b.toNat ∧
      step.2.toNat = 2 ^ 64 / b.toNat % 2 ^ 64 := by
  intro tmp_result remain step
  have hDiv : tmp_result.toNat = (2 ^ 64 - 1) / b.toNat := by rw [toNat_udiv, BitVec.toNat_allOnes]
  have hLess := Nat.mod_lt (2 ^ 64 - 1) hPos
  have hRem : remain.toNat = (2 ^ 64 - 1) % b.toNat + 1 := by
    rw [toNat_add, BitVec.toNat_umod, BitVec.toNat_allOnes, Nat.mod_eq_of_lt]
    · rfl
    · have hOne : (1#64).toNat = 1 := rfl
      omega
  have hSum := Nat.div_add_mod (2 ^ 64 - 1) b.toNat
  have hUnique : ∀ q r, r < b.toNat →
      b.toNat * q + r = 2 ^ 64 →
        r = 2 ^ 64 % b.toNat ∧ q = 2 ^ 64 / b.toNat := by
    intro q r hR hTotal
    rw [← hTotal, Nat.mul_add_mod, Nat.mod_eq_of_lt hR,
      Nat.mul_add_div hPos, Nat.div_eq_of_lt hR]
    exact ⟨rfl, rfl⟩
  by_cases hFull : b ≤ remain
  · have hStep : step = (remain - b, tmp_result + 1#64) :=
      if_pos hFull
    rw [le_def, hRem] at hFull
    rcases hUnique ((2 ^ 64 - 1) / b.toNat + 1) 0 hPos
        (by rw [Nat.mul_succ]; omega) with ⟨hMod, hQuot⟩
    grind
  · have hStep : step = (remain, tmp_result) := if_neg hFull
    rw [le_def] at hFull
    rcases hUnique ((2 ^ 64 - 1) / b.toNat)
        ((2 ^ 64 - 1) % b.toNat + 1) (by omega)
        (by omega) with ⟨hMod, hQuot⟩
    rw [hStep, ← hMod, ← hQuot]
    exact ⟨hRem, by rw [← hDiv, Nat.mod_eq_of_lt tmp_result.isLt]⟩

/- Each round takes a multiple of the divisor off. -/
theorem divide2wordsLoop_spec {b : BitVec 64} (hPos : 0 < b.toNat) {rounds : Nat}
    {a high result : BitVec 64} (hRounds : high.toNat * 2 ^ 64 + a.toNat ≤ rounds) :
    ∃ res, divide2wordsLoop b rounds a high result = some res ∧
      res.toNat = (result.toNat + (high.toNat * 2 ^ 64 + a.toNat) / b.toNat) % 2 ^ 64 := by
  -- where nothing is left above, one division ends the loop
  have hEnd : ∀ {a high result : BitVec 64}, high = 0#64 →
      (result + a / b).toNat =
        (result.toNat + (high.toNat * 2 ^ 64 + a.toNat) / b.toNat) % 2 ^ 64 := by
    intro a high result hHigh
    rw [hHigh, toNat_add, toNat_udiv, toNat_zero, Nat.zero_mul, Nat.zero_add]
  induction rounds generalizing a high result with
  | zero =>
    have hHigh : high = 0#64 := by
      apply BitVec.eq_of_toNat_eq
      rw [toNat_zero]
      omega
    refine ⟨result + a / b, ?_, hEnd hHigh⟩
    rw [divide2wordsLoop, if_pos hHigh]
  | succ rounds ih =>
    by_cases hHigh : high = 0#64
    · refine ⟨result + a / b, ?_, hEnd hHigh⟩
      rw [divide2wordsLoop, if_pos hHigh]
    · have hNonzero : 0 < high.toNat := by
        apply Nat.pos_of_ne_zero
        intro hZero
        exact hHigh (BitVec.eq_of_toNat_eq hZero)
      have hRange := divideRange hPos
      rw [divide2wordsLoop, if_neg hHigh]
      dsimp only at hRange ⊢
      generalize (if b ≤ allOnes 64 % b + 1#64 then
        (allOnes 64 % b + 1#64 - b, allOnes 64 / b + 1#64)
        else (allOnes 64 % b + 1#64, allOnes 64 / b)) = step at *
      rcases hRange with ⟨hRemain, hTimes⟩
      have hProduct := multiplyWithCarry_spec high step.1
      generalize multiplyWithCarry high step.1 = product at *
      have hRemainLt := Nat.mod_lt (2 ^ 64) hPos
      have hSum := Nat.div_add_mod (2 ^ 64) b.toNat
      rw [hRemain] at hProduct
      generalize 2 ^ 64 % b.toNat = r at *
      generalize hQ : 2 ^ 64 / b.toNat = q at *
      -- the new pair of words, and that it is smaller
      have hSmall : high.toNat * r + high.toNat ≤ high.toNat * (2 ^ 64 - 1) := by
        rw [← Nat.mul_succ]
        exact Nat.mul_le_mul_left _ (by omega)
      have hNext :
          (if a + product.1 < product.1 then
              product.2 + 1#64 else product.2).toNat * 2 ^ 64 +
            (a + product.1).toNat =
          high.toNat * r + a.toNat := by
        have hOne : (1#64).toNat = 1 := rfl
        simp only [lt_def, toNat_add]
        split_ifs
        · rw [toNat_add]
          omega
        · omega
      have hLess : high.toNat * r + a.toNat ≤ rounds := by omega
      rw [← hNext] at hLess
      rcases @ih _ _ (result + step.2 * high) hLess with ⟨res, hRes, hNumber⟩
      refine ⟨res, hRes, ?_⟩
      have hWhole : high.toNat * 2 ^ 64 + a.toNat =
          b.toNat * (q * high.toNat) + (high.toNat * r + a.toNat) := by
        rw [← hSum]
        ring
      rw [hNumber, hNext, hWhole, Nat.mul_add_div hPos, toNat_add, BitVec.toNat_mul,
        hTimes, Nat.mod_mul_mod, Nat.add_mod_mod, Nat.mod_add_mod, Nat.add_assoc]

/- The quotient of two words by one, in a word. -/
theorem divide2words_spec {b : BitVec 64} (hPos : 0 < b.toNat) (a high : BitVec 64) :
    ∃ res, divide2words a b high = some res ∧
      res.toNat = (high.toNat * 2 ^ 64 + a.toNat) / b.toNat % 2 ^ 64 := by
  have hRounds : high.toNat * 2 ^ 64 + a.toNat ≤ 2 ^ 128 := by omega
  rcases @divide2wordsLoop_spec b hPos _ _ _ 0#64 hRounds with ⟨res, hRes, hNumber⟩
  refine ⟨res, hRes, ?_⟩
  rw [hNumber, toNat_zero, Nat.zero_add]

end EpicSim
