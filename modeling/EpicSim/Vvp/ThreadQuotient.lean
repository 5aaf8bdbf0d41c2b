import EpicSim.Lib.LongDivision
import EpicSim.Vvp.ThreadWords

/-
  The long division of procedural code: what a guess does at
  its place, and what the loop leaves behind.
-/

namespace EpicSim

open BitVec (toNat_zero eq_of_toNat_eq le_def)
open PackedWords Limbs LongDivision

----
-- One Word of the Quotient
----

/- The top word of a number that is not zero. -/
theorem topWord_spec (bp : List (BitVec 64)) (n : Nat) (hLength : bp.length = n + 1) :
    topWord bp n ≤ n ∧
      (toNat bp = 0 ↔ topWord bp n = 0 ∧ wordAt bp 0 = 0#64) ∧
      (0 < toNat bp →
        topPlace 64 (toNat bp) = topWord bp n ∧
          (wordAt bp (topWord bp n)).toNat = toNat bp / 2 ^ (64 * topWord bp n) ∧
          0 < (wordAt bp (topWord bp n)).toNat) := by
  have hBelow : ∀ k ≤ n,
      toNat bp < 2 ^ (64 * (k + 1)) →
        topWord bp k ≤ k ∧
          toNat bp < 2 ^ (64 * (topWord bp k + 1)) ∧
          (topWord bp k = 0 ∨
            wordAt bp (topWord bp k) ≠ 0#64) := by
    intro k
    induction k with
    | zero =>
      intro _ hLt
      exact ⟨Nat.le_refl _, hLt, Or.inl rfl⟩
    | succ k ih =>
      intro hK hLt
      rw [topWord]
      by_cases hZero : wordAt bp (k + 1) = 0#64
      · rw [if_pos hZero]
        have hDigit := getD_toNat bp (k + 1)
        change (wordAt bp (k + 1)).toNat = _ at hDigit
        have hQuotient :
            toNat bp / 2 ^ (64 * (k + 1)) < 2 ^ 64 := by
          rw [Nat.div_lt_iff_lt_mul (Nat.two_pow_pos _), ← pow_add]
          rw [Nat.mul_succ 64 (k + 1), Nat.add_comm] at hLt
          exact hLt
        rw [hZero, toNat_zero, Nat.mod_eq_of_lt hQuotient,
          eq_comm, Nat.div_eq_zero_iff_lt (Nat.two_pow_pos _)] at hDigit
        rcases ih (by omega) hDigit with ⟨hLe, hRest⟩
        exact ⟨Nat.le_succ_of_le hLe, hRest⟩
      · rw [if_neg hZero]
        exact ⟨Nat.le_refl _, hLt, Or.inr hZero⟩
  have hAll := toNat_lt bp
  rw [hLength] at hAll
  rcases hBelow n (Nat.le_refl _) hAll with ⟨hLe, hLt, hTop⟩
  have hQuotient :
      toNat bp / 2 ^ (64 * topWord bp n) < 2 ^ 64 := by
    rw [Nat.div_lt_iff_lt_mul (Nat.two_pow_pos _), ← pow_add, Nat.add_comm]
    exact hLt
  have hWord : (wordAt bp (topWord bp n)).toNat = toNat bp / 2 ^ (64 * topWord bp n) := by
    have hDigit := getD_toNat bp (topWord bp n)
    rw [Nat.mod_eq_of_lt hQuotient] at hDigit
    exact hDigit
  have hPositive : 0 < toNat bp →
      0 < (wordAt bp (topWord bp n)).toNat := by
    intro hPos
    rcases hTop with hZero | hNe
    · rw [hWord, hZero, pow_zero, Nat.div_one]
      exact hPos
    · apply Nat.pos_of_ne_zero
      intro hZero
      exact hNe (eq_of_toNat_eq hZero)
  refine ⟨hLe, ?_, ?_⟩
  · constructor
    · intro hZero
      have hNone : wordAt bp (topWord bp n) = 0#64 := by
        apply eq_of_toNat_eq
        rw [hWord, hZero, Nat.zero_div, toNat_zero]
      grind
    · grind
  · intro hPos
    have hSome := hPositive hPos
    refine ⟨topPlace_eq ?_ hLt, hWord, hSome⟩
    rw [hWord] at hSome
    exact Nat.le_of_not_lt fun hLess => Nat.ne_of_gt hSome (Nat.div_eq_of_lt hLess)

variable {bp : List (BitVec 64)}

/- The loop ends with the first carry. -/
theorem addBack_spec {rounds : Nat} {ap : List (BitVec 64)} (hLength : bp.length = ap.length)
    (hRounds : 2 ^ (64 * ap.length) ≤ toNat ap + rounds * toNat bp) (cur_res : BitVec 64) :
    ∃ k ap', addBack bp rounds ap cur_res = some (ap', cur_res - BitVec.ofNat 64 k) ∧
      ap'.length = ap.length ∧
      toNat ap' + 2 ^ (64 * ap.length) = toNat ap + k * toNat bp ∧
      toNat ap' < toNat bp := by
  have hLt := toNat_lt ap
  induction rounds generalizing ap cur_res with
  | zero => omega
  | succ rounds ih =>
    have hSum := ripple_spec adder_addWithCarry hLength.symm (by decide : (0#64).toNat ≤ 1)
    have hSize := ripple_length addWithCarry ap bp 0#64 hLength.symm
    rw [addBack]
    dsimp only
    generalize ripple addWithCarry ap bp 0#64 = next at *
    rw [toNat_zero] at hSum
    by_cases hCarry : next.2 = 0#64
    · rw [hCarry, toNat_zero] at hSum
      have hNext := toNat_lt next.1
      rw [Nat.succ_mul rounds] at hRounds
      have hSameLength : bp.length = next.1.length := by omega
      have hRest : 2 ^ (64 * next.1.length) ≤ toNat next.1 + rounds * toNat bp := by
        rw [hSize]
        omega
      rcases ih hSameLength hRest (cur_res - 1#64) hNext with ⟨k, ap', hRun, hLen, hTotal, hLess⟩
      refine ⟨k + 1, ap', ?_, hLen.trans hSize, ?_, hLess⟩
      · rw [if_pos hCarry, hRun, sub_sub, Nat.add_comm k, BitVec.ofNat_add]
      · grind
    · have hSome : next.2.toNat ≠ 0 :=
        fun h => hCarry (eq_of_toNat_eq h)
      have hB := toNat_lt bp
      rw [hLength] at hB
      have hOne : next.2.toNat = 1 := by
        by_contra hNot
        have hTwo : 2 ^ (64 * ap.length) * 2 ≤ 2 ^ (64 * ap.length) * next.2.toNat :=
          Nat.mul_le_mul_left _ (by omega)
        omega
      rw [hOne] at hSum
      refine ⟨1, next.1, ?_, hSize, by omega, by omega⟩
      rw [if_neg hCarry]

/- What a guess does to the words from its place on. -/
theorem tryWord_spec {words cur_ptr : Nat} {ap : List (BitVec 64)}
    (hWords : ap.length = words) (hLength : bp.length = words)
    (hPlace : cur_ptr ≤ words) (hPos : 0 < toNat bp)
    (hLess : toNat bp < 2 ^ (64 * (words - cur_ptr)))
    (result : List (BitVec 64)) (cur_res : BitVec 64) :
    ∃ ap' digit,
      tryWord bp words cur_ptr ap result cur_res = some (ap', result.set cur_ptr digit) ∧
      ap'.length = words ∧
      toNat ap' % 2 ^ (64 * cur_ptr) = toNat ap % 2 ^ (64 * cur_ptr) ∧
      Trial (2 ^ (64 * (words - cur_ptr)))
        (toNat ap / 2 ^ (64 * cur_ptr)) (toNat bp)
        cur_res.toNat digit.toNat
        (toNat ap' / 2 ^ (64 * cur_ptr)) := by
  rcases multiplyArrayImm_spec bp (words - cur_ptr) cur_res with ⟨hDiffLength, hDiff⟩
  have hFlip := toNat_complement (multiplyArrayImm bp (words - cur_ptr) cur_res)
  have hRest : (ap.drop cur_ptr).length = words - cur_ptr := by rw [List.length_drop, hWords]
  have hSame : (ap.drop cur_ptr).length =
      ((multiplyArrayImm bp (words - cur_ptr) cur_res).map (fun word => ~~~word)).length := by
    rw [hRest, List.length_map, hDiffLength]
  have hSum := ripple_spec adder_addWithCarry hSame (by decide : (1#64).toNat ≤ 1)
  have hSize := ripple_length addWithCarry _ _ 1#64 hSame
  have hTake : toNat (bp.take (words - cur_ptr)) = toNat bp := by
    rw [toNat_take, Nat.mod_eq_of_lt hLess]
  have hTakeLength : (bp.take (words - cur_ptr)).length = words - cur_ptr := by
    rw [List.length_take]
    omega
  rw [tryWord]
  dsimp only
  generalize multiplyArrayImm bp (words - cur_ptr) cur_res = diff at *
  generalize ripple addWithCarry (ap.drop cur_ptr) (diff.map (fun word => ~~~word)) 1#64 = next at *
  have hX := toNat_lt (ap.drop cur_ptr)
  have hNext := toNat_lt next.1
  rw [hDiffLength] at hFlip
  rw [hSize, hRest] at hNext
  rw [hRest] at hSum hX
  rw [toNat_drop] at hSum hX
  generalize toNat ap / 2 ^ (64 * cur_ptr) = x at *
  have hOne : (1#64).toNat = 1 := rfl
  -- the sum with the complement tells a negative difference
  have hBorrow :
      toNat next.1 + 2 ^ (64 * (words - cur_ptr)) * next.2.toNat + toNat diff =
        x + 2 ^ (64 * (words - cur_ptr)) := by
    omega
  have hTooLarge : next.2.toNat ≤ 1 := by
    by_contra hNot
    have hTwo : 2 ^ (64 * (words - cur_ptr)) * 2 ≤ 2 ^ (64 * (words - cur_ptr)) * next.2.toNat :=
      Nat.mul_le_mul_left _ (by omega)
    omega
  have hAbove : ∀ high : List (BitVec 64),
      high.length = words - cur_ptr →
        (ap.take cur_ptr ++ high).length = words := by grind
  have hInside : cur_ptr ≤ ap.length := hWords ▸ hPlace
  have hBit : next.2 &&& 1#64 = 0#64 ↔ next.2.toNat = 0 := by
    constructor
    · intro hZero
      by_contra hNe
      have hIs : next.2 = 1#64 := eq_of_toNat_eq (by rw [hOne]; omega)
      rw [hIs] at hZero
      exact absurd hZero (by decide)
    · intro hZero
      have hIs : next.2 = 0#64 := eq_of_toNat_eq hZero
      rw [hIs]
      rfl
  by_cases hCarry : next.2 &&& 1#64 = 0#64
  · rw [if_pos hCarry]
    rw [hBit.mp hCarry] at hBorrow
    have hRounds : 2 ^ (64 * next.1.length) ≤
        toNat next.1 + 2 ^ (64 * (words - cur_ptr)) * toNat (bp.take (words - cur_ptr)) := by
      rw [hSize, hRest, hTake]
      exact Nat.le_add_left_of_le (Nat.le_mul_of_pos_right _ hPos)
    rcases addBack_spec (by rw [hTakeLength, hSize, hRest]) hRounds cur_res with
      ⟨k, high, hRun, hHigh, hTotal, hSmall⟩
    rw [hSize, hRest] at hHigh
    rw [hSize, hRest, hTake] at hTotal
    rw [hTake] at hSmall
    rcases toNat_above hInside high with ⟨hLow, hUp⟩
    refine ⟨ap.take cur_ptr ++ high, cur_res - BitVec.ofNat 64 k, ?_, hAbove high hHigh, hLow, ?_⟩
    · rw [hRun]
      rfl
    · rw [hUp]
      have hBack : toNat high + toNat bp * cur_res.toNat %
          2 ^ (64 * (words - cur_ptr)) = x + k * toNat bp := by
        omega
      have hCount := count_le hBack hSmall
      have hDigit : (cur_res - BitVec.ofNat 64 k).toNat = cur_res.toNat - k := by
        have hK : (BitVec.ofNat 64 k).toNat = k := by
          rw [BitVec.toNat_ofNat, Nat.mod_eq_of_lt (by omega)]
        rw [BitVec.toNat_sub_of_le (by rw [le_def, hK]; exact hCount), hK]
      rw [hDigit]
      apply Trial.counted _ hBack hSmall
      omega
  · rw [if_neg hCarry]
    have hIsOne : next.2.toNat = 1 := by
      rw [hBit] at hCarry
      omega
    rw [hIsOne] at hBorrow
    rcases toNat_above hInside next.1 with ⟨hLow, hUp⟩
    refine ⟨ap.take cur_ptr ++ next.1, cur_res, rfl, hAbove _ (hSize.trans hRest), hLow, ?_⟩
    have hRestNumber : toNat next.1 =
        x - toNat bp * cur_res.toNat % 2 ^ (64 * (words - cur_ptr)) := by
      omega
    rw [hUp, hRestNumber]
    apply Trial.kept
    omega

----
-- The Long Division
----

/- The operands of a division, as arrays of words. -/
structure DivideArrays (bp : List (BitVec 64)) (words btop : Nat) : Prop where
  length : bp.length = words
  positive : 0 < toNat bp
  place : topPlace 64 (toNat bp) = btop
  word : (wordAt bp btop).toNat = toNat bp / 2 ^ (64 * btop)
  top : 0 < (wordAt bp btop).toNat

/- The words at a place and above it give the guess. -/
theorem twoWords (ap : List (BitVec 64)) (p btop : Nat) :
    (wordAt ap (p + btop + 1)).toNat * 2 ^ 64 + (wordAt ap (p + btop)).toNat =
      toNat ap / 2 ^ (64 * p) / 2 ^ (64 * btop) % 2 ^ (64 * 2) := by
  have hLow := getD_toNat ap (p + btop)
  have hHigh := getD_toNat ap (p + btop + 1)
  rw [Nat.mul_succ, pow_add, ← Nat.div_div_eq_div_mul] at hHigh
  rw [Nat.div_div_eq_div_mul, ← pow_add, ← Nat.mul_add,
    Nat.mul_succ 64 1, pow_add 2 (64 * 1), Nat.mod_mul]
  change (ap.getD (p + btop + 1) 0#64).toNat * 2 ^ 64 + (ap.getD (p + btop) 0#64).toNat = _
  rw [hLow, hHigh, Nat.mul_comm (2 ^ 64), Nat.add_comm]

/- One turn tries one word, and sets the word at its place. -/
theorem divideTurn_spec {words btop cur_ptr : Nat} (hArrays : DivideArrays bp words btop)
    (hPlace : cur_ptr + btop < words) {ap result : List (BitVec 64)} (hAp : ap.length = words)
    (hResult : result.length = words) (hFresh : wordAt result cur_ptr = 0#64) :
    ∃ ap' result',
      divideTurn bp words btop cur_ptr ap result = some (ap', result') ∧
      ap'.length = words ∧
      result'.length = words ∧
      (∀ idx, idx ≠ cur_ptr → wordAt result' idx = wordAt result idx) ∧
      toNat ap' % 2 ^ (64 * cur_ptr) = toNat ap % 2 ^ (64 * cur_ptr) ∧
      Trial (2 ^ (64 * (words - cur_ptr)))
        (toNat ap / 2 ^ (64 * cur_ptr)) (toNat bp)
        (guess 64 btop (toNat ap / 2 ^ (64 * cur_ptr)) (toNat bp))
        (wordAt result' cur_ptr).toNat
        (toNat ap' / 2 ^ (64 * cur_ptr)) := by
  rcases hArrays with ⟨hLength, hPos, hTop, hWord, hNonzero⟩
  have hPair := twoWords ap cur_ptr btop
  have hGuess : ∀ res : BitVec 64,
      res.toNat =
        ((wordAt ap (cur_ptr + btop + 1)).toNat * 2 ^ 64 +
          (wordAt ap (cur_ptr + btop)).toNat) / (wordAt bp btop).toNat % 2 ^ 64 →
      res.toNat = guess 64 btop (toNat ap / 2 ^ (64 * cur_ptr)) (toNat bp) := by
    intro res hRes
    rw [hRes, hPair, hWord, guess]
  have hFits : toNat bp < 2 ^ (64 * (words - cur_ptr)) := by
    have hBelow := (topPlace_bounds (w := 64) (by decide) hPos).2
    exact Nat.lt_of_lt_of_le hBelow
      (Nat.pow_le_pow_right (by decide) (Nat.mul_le_mul_left 64 (by omega)))
  -- a guess is tried
  have hTry : ∀ res : BitVec 64,
      res.toNat = guess 64 btop (toNat ap / 2 ^ (64 * cur_ptr)) (toNat bp) →
      ∃ ap' result',
        tryWord bp words cur_ptr ap result res = some (ap', result') ∧
        ap'.length = words ∧
        result'.length = words ∧
        (∀ idx, idx ≠ cur_ptr → wordAt result' idx = wordAt result idx) ∧
        toNat ap' % 2 ^ (64 * cur_ptr) = toNat ap % 2 ^ (64 * cur_ptr) ∧
        Trial (2 ^ (64 * (words - cur_ptr)))
          (toNat ap / 2 ^ (64 * cur_ptr)) (toNat bp)
          (guess 64 btop (toNat ap / 2 ^ (64 * cur_ptr)) (toNat bp))
          (wordAt result' cur_ptr).toNat
          (toNat ap' / 2 ^ (64 * cur_ptr)) := by
    intro res hRes
    rcases tryWord_spec hAp hLength (by omega) hPos hFits result
        res with ⟨ap', digit, hRun, hSize, hLow, hTrial⟩
    refine ⟨ap', result.set cur_ptr digit, hRun, hSize,
      by rw [List.length_set, hResult], ?_, hLow, ?_⟩
    · intro idx hIdx
      rw [wordAt, wordAt, List.getD_eq_getElem?_getD,
        List.getElem?_set_ne (Ne.symm hIdx), List.getD_eq_getElem?_getD]
    · have hInside : cur_ptr < result.length := by omega
      have hRead :
          wordAt (result.set cur_ptr digit) cur_ptr = digit := by
        rw [wordAt, List.getD_eq_getElem?_getD, List.getElem?_set_self hInside, Option.getD_some]
      rw [hRead, ← hRes]
      exact hTrial
  -- a turn that is skipped has a guess of zero
  have hSkip :
      wordAt ap (cur_ptr + btop + 1) = 0#64 →
      ¬ wordAt bp btop ≤ wordAt ap (cur_ptr + btop) →
      Trial (2 ^ (64 * (words - cur_ptr)))
        (toNat ap / 2 ^ (64 * cur_ptr)) (toNat bp)
        (guess 64 btop (toNat ap / 2 ^ (64 * cur_ptr)) (toNat bp))
        (wordAt result cur_ptr).toNat
        (toNat ap / 2 ^ (64 * cur_ptr)) := by
    intro hNext hSmall
    rw [le_def, Nat.not_le] at hSmall
    have hNone : guess 64 btop (toNat ap / 2 ^ (64 * cur_ptr)) (toNat bp) = 0 := by
      rw [← hGuess 0#64]
      · rfl
      · rw [hNext, toNat_zero, Nat.zero_mul, Nat.zero_add, Nat.div_eq_of_lt hSmall, Nat.zero_mod]
    rw [hNone, hFresh]
    have hKept := @Trial.kept (2 ^ (64 * (words - cur_ptr)))
      (toNat ap / 2 ^ (64 * cur_ptr)) (toNat bp) 0
      (by rw [Nat.mul_zero]; exact Nat.zero_le _)
    exact hKept
  rw [divideTurn]
  dsimp only
  by_cases hLarge : wordAt bp btop ≤ wordAt ap (cur_ptr + btop)
  · have hHigh : (if cur_ptr + btop + 1 < words then
        wordAt ap (cur_ptr + btop + 1) else 0#64) = wordAt ap (cur_ptr + btop + 1) := by
      split_ifs with hIn
      · rfl
      · rw [wordAt, List.getD_eq_default]
        omega
    rcases divide2words_spec hNonzero
        (wordAt ap (cur_ptr + btop))
        (wordAt ap (cur_ptr + btop + 1)) with
      ⟨res, hRes, hNumber⟩
    rw [if_pos hLarge, hHigh, hRes]
    exact hTry res (hGuess res hNumber)
  · rw [if_neg hLarge]
    by_cases hEnd : words ≤ cur_ptr + btop + 1
    · have hNext : wordAt ap (cur_ptr + btop + 1) = 0#64 := by
        rw [wordAt, List.getD_eq_default]
        omega
      rw [if_pos hEnd]
      exact ⟨ap, result, rfl, hAp, hResult, fun _ _ => rfl, rfl, hSkip hNext hLarge⟩
    · rw [if_neg hEnd]
      by_cases hNext : wordAt ap (cur_ptr + btop + 1) = 0#64
      · grind
      · rcases divide2words_spec hNonzero
            (wordAt ap (cur_ptr + btop))
            (wordAt ap (cur_ptr + btop + 1)) with
          ⟨res, hRes, hNumber⟩
        rw [if_neg hNext, hRes]
        exact hTry res (hGuess res hNumber)

/- The guess fits at a place. -/
def FitsAt (words : Nat) (a b p : Nat) : Prop :=
  Fits (2 ^ (64 * (words - p))) (window 64 a b p) b (guess 64 (topPlace 64 b) (window 64 a b p) b)

/-
  The loop always ends.  While the guesses fit, the words are
  those of the quotient; the first that does not fit leaves a
  wrong word, which is not written again.
-/
theorem divideLoop_spec {words btop : Nat} (hArrays : DivideArrays bp words btop)
    (a : Nat) {cur : Nat} (hCur : cur + btop ≤ words)
    {ap result : List (BitVec 64)} (hAp : ap.length = words)
    (hResult : result.length = words) (hFresh : ∀ idx < cur, wordAt result idx = 0#64) :
    ∃ ap' result',
      divideLoop bp words btop cur ap result = some (ap', result') ∧
      ap'.length = words ∧
      result'.length = words ∧
      (∀ idx, cur ≤ idx → wordAt result' idx = wordAt result idx) ∧
      (toNat ap = left 64 a (toNat bp) cur →
        ((∀ p < cur, FitsAt words a (toNat bp) p) →
          toNat ap' = a % toNat bp ∧
            ∀ p < cur, (wordAt result' p).toNat = a / toNat bp / 2 ^ (64 * p) % 2 ^ 64) ∧
        ((∃ p < cur, ¬ FitsAt words a (toNat bp) p) →
          ∃ p < cur, (wordAt result' p).toNat ≠ a / toNat bp / 2 ^ (64 * p) % 2 ^ 64)) := by
  induction cur generalizing ap result with
  | zero =>
    refine ⟨ap, result, rfl, hAp, hResult, fun _ _ => rfl, ?_⟩
    intro hLeft
    rw [left_end] at hLeft
    grind
  | succ cur ih =>
    rcases divideTurn_spec hArrays (by omega) hAp hResult (hFresh cur (Nat.lt_succ_self cur)) with
      ⟨ap₁, result₁, hTurn, hAp₁, hResult₁, hOthers, hLow, hTrial⟩
    rcases ih (by omega) hAp₁ hResult₁
        (fun idx hIdx => by
          rw [hOthers idx (by omega)]
          exact hFresh idx (by omega)) with
      ⟨ap', result', hRun, hAp', hResult', hDone, hRest⟩
    refine ⟨ap', result', ?_, hAp', hResult', ?_, ?_⟩
    · rw [divideLoop, hTurn]
      exact hRun
    · grind
    · intro hLeft
      have hPos := hArrays.positive
      have hHere := hDone cur (Nat.le_refl _)
      have hWindow : toNat ap / 2 ^ (64 * cur) = window 64 a (toNat bp) cur := by rw [hLeft, window]
      have hX := toNat_lt ap
      rw [hAp] at hX
      have hXLt : window 64 a (toNat bp) cur < 2 ^ (64 * (words - cur)) := by
        rw [← hWindow, Nat.div_lt_iff_lt_mul (Nat.two_pow_pos _),
          ← pow_add, ← Nat.mul_add, Nat.sub_add_cancel (by omega)]
        exact hX
      have hBLt : toNat bp < 2 ^ (64 * (words - cur)) := by
        have hBelow := (topPlace_bounds (w := 64) (by decide) hPos).2
        rw [hArrays.place] at hBelow
        exact Nat.lt_of_lt_of_le hBelow
          (Nat.pow_le_pow_right (by decide) (Nat.mul_le_mul_left 64 (by omega)))
      rw [hWindow, ← hHere] at hTrial
      have hDigit := hTrial.digit_iff hPos hXLt hBLt
      rw [window_div, ← hArrays.place] at hDigit
      have hNext : FitsAt words a (toNat bp) cur →
          toNat ap₁ = left 64 a (toNat bp) cur := by
        intro hFits
        unfold FitsAt at hFits
        rw [hArrays.place] at hFits
        have hRem := (hTrial.of_fits hPos hFits).2
        rw [← left_step, ← hRem, ← hLeft, ← hLow, Nat.mod_add_div]
      constructor
      · intro hAll
        have hFits := hAll cur (Nat.lt_succ_self cur)
        rcases (hRest (hNext hFits)).1 (fun p hP => hAll p (by omega)) with ⟨hRem, hWords⟩
        refine ⟨hRem, ?_⟩
        intro p hP
        by_cases hSame : p = cur
        · rw [hSame]
          exact hDigit.mpr hFits
        · exact hWords p (by omega)
      · rintro ⟨p, hP, hNot⟩
        by_cases hFits : FitsAt words a (toNat bp) cur
        · have hOther : p ≠ cur := by
            rintro rfl
            exact hNot hFits
          rcases (hRest (hNext hFits)).2 ⟨p, by omega, hNot⟩ with ⟨q, hQ, hWrong⟩
          exact ⟨q, by omega, hWrong⟩
        · exact ⟨cur, Nat.lt_succ_self cur, fun h => hFits (hDigit.mp h)⟩

/-
  `divide_bits` always returns; quotient and remainder are
  right exactly if every guess fits.
-/
theorem divideBits_spec {ap bp : List (BitVec 64)} {wid : Nat} (hWid : 0 < wid)
    (hAp : ap.length = (wid + 64 - 1) / 64) (hBp : bp.length = (wid + 64 - 1) / 64) :
    (toNat bp = 0 → divideBits ap bp wid = some none) ∧
    (0 < toNat bp →
      ∃ ap' result,
        divideBits ap bp wid = some (some (ap', result)) ∧
        ap'.length = ap.length ∧
        result.length = ap.length ∧
        (Guessed 64 ap.length (toNat ap) (toNat bp) →
          toNat ap' = toNat ap % toNat bp ∧ toNat result = toNat ap / toNat bp) ∧
        (¬ Guessed 64 ap.length (toNat ap) (toNat bp) →
          ∃ p < ap.length - topPlace 64 (toNat bp),
            (wordAt result p).toNat ≠ toNat ap / toNat bp / 2 ^ (64 * p) % 2 ^ 64)) := by
  generalize hWords : (wid + 64 - 1) / 64 = words at *
  have hSome : words - 1 + 1 = words := by omega
  rcases topWord_spec bp (words - 1) (hBp.trans hSome.symm) with ⟨hTopLe, hZero, hTop⟩
  rw [divideBits, hWords]
  constructor
  · intro hNone
    rw [if_pos (hZero.mp hNone)]
  · intro hPos
    rcases hTop hPos with ⟨hPlace, hWord, hNonzero⟩
    rw [if_neg (fun h => by rw [hZero.mpr h] at hPos; omega)]
    have hArrays : DivideArrays bp words (topWord bp (words - 1)) :=
      ⟨hBp, hPos, hPlace, hWord, hNonzero⟩
    have hFresh : ∀ idx,
        wordAt (List.replicate words 0#64) idx = 0#64 := by
      intro idx
      rw [wordAt, List.getD_eq_getElem?_getD, List.getElem?_replicate]
      split_ifs <;> rfl
    have hALt := toNat_lt ap
    have hInside : topPlace 64 (toNat bp) < words := by omega
    rw [hAp] at hALt
    have hStart : toNat ap = left 64 (toNat ap) (toNat bp) (words - topWord bp (words - 1)) := by
      rw [← hPlace, left_start (by decide) hPos hInside hALt]
    have hPlaces : words - topWord bp (words - 1) +
        topWord bp (words - 1) ≤ words := by omega
    rcases divideLoop_spec hArrays (toNat ap) hPlaces hAp
        List.length_replicate (fun idx _ => hFresh idx) with
      ⟨ap', result, hRun, hAp', hResult, hAbove, hRest⟩
    rcases hRest hStart with ⟨hRight, hWrong⟩
    rw [← hPlace] at hRight hWrong hAbove
    rw [hAp]
    refine ⟨ap', result, by rw [hRun]; rfl, hAp', hResult, ?_, ?_⟩
    · intro hGuessed
      rcases hRight hGuessed with ⟨hRem, hDigits⟩
      refine ⟨hRem, ?_⟩
      apply toNat_of_digits
      · rw [hResult]
        exact Nat.lt_of_le_of_lt (Nat.div_le_self _ _) hALt
      · intro p _
        by_cases hIn : p < words - topPlace 64 (toNat bp)
        · exact hDigits p hIn
        · change (wordAt result p).toNat = _
          rw [hAbove p (by omega), hFresh,
            digit_above (by decide) hPos hInside hALt (Nat.le_of_not_lt hIn)]
          rfl
    · intro hNot
      apply hWrong
      unfold Guessed at hNot
      push Not at hNot
      exact hNot

end EpicSim
