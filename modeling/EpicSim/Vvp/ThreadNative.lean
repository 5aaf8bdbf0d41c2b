import EpicSim.Vvp.Division
import EpicSim.Vvp.ThreadRemainder
import EpicSim.Vvp.ThreadWords

/-
  Operands and results of procedural division: what a vector
  is as words, with its sign, and how a result is written.
-/

namespace EpicSim

open BitVec (allOnes getLsbD_or getLsbD_and getLsbD_not getLsbD_shiftLeft getLsbD_allOnes
  toInt_eq_toNat_cond intMin)
open PackedWords Limbs VvpVector4

----
-- Results
----

variable {v vala valb : VvpVector4}

/- A vector that is written from words encodes their number. -/
theorem setArray_encodes {val : List (BitVec 64)} {n : Int}
    (hMod : (toNat val : Int) ≡ n [ZMOD 2 ^ v.size_]) : (v.setArray val).Encodes v.size_ n := by
  refine encodes_of_testBit rfl ?_ hMod
  intro idx hIdx
  have hOff : idx % 64 < 64 := Nat.mod_lt _ (by decide)
  have hMask := @getLsbD_tailMask (v.size_ - 64 * (idx / 64)) _ hOff
  rw [decide_eq_true (by omega)] at hMask
  rw [value_of_lt (v := v.setArray val) hIdx, testBit_toNat (by decide)]
  unfold setArray
  dsimp only
  rw [bitAt_build _ hIdx, bitAt_build _ hIdx]
  generalize (if v.size_ - 64 * (idx / 64) < 64 then
    lowMask (v.size_ - 64 * (idx / 64))
    else allOnes 64) = mask at *
  rw [getLsbD_or, getLsbD_and, getLsbD_and, getLsbD_and, getLsbD_not, hMask]
  simp only [Bool.not_true, Bool.and_false, wordAt]
  cases (val.getD (idx / 64) 0#64).getLsbD (idx % 64) <;> rfl

variable {v : VvpVector4} {wid : Nat}

/- A native word is written bit by bit. -/
theorem writeWord_encodes {shift : BitVec 64 → BitVec 64}
    (hShift : ∀ x off, off + 1 < 64 → (shift x).getLsbD off = x.getLsbD (off + 1))
    (hNative : v.size_ ≤ 64) {lv : BitVec 64} {n : Int}
    (hMod : (lv.toNat : Int) ≡ n [ZMOD 2 ^ v.size_]) :
    (writeWord shift v lv).Encodes v.size_ n := by
  have hPrefix : ∀ k ≤ v.size_, ∃ res rest,
      (List.range k).foldl
        (fun (st : VvpVector4 × BitVec 64) idx =>
          (st.1.setBit idx
            (if st.2 &&& 1#64 ≠ 0#64 then .one else .zero),
            shift st.2)) (v, lv) = (res, rest) ∧
      res.size_ = v.size_ ∧
      (∀ off, off + k < 64 → rest.getLsbD off = lv.getLsbD (off + k)) ∧
      ∀ idx < k, res.value idx =
        if lv.toNat.testBit idx then .one else .zero := by
    intro k hK
    induction k with
    | zero => exact ⟨v, lv, rfl, rfl, fun _ _ => rfl, fun idx hIdx => by cases hIdx⟩
    | succ k ih =>
      rcases ih (Nat.le_of_succ_le hK) with ⟨res, rest, hRun, hSize, hRest, hBits⟩
      have hLow : rest &&& 1#64 ≠ 0#64 ↔
          lv.toNat.testBit k = true := by
        have hBit := hRest 0 (by omega)
        rw [Nat.zero_add] at hBit
        rw [BitVec.testBit_toNat, ← hBit, ne_eq, word_eq_zero_iff]
        constructor
        · intro hNot
          by_contra hClear
          apply hNot
          intro off hOff
          rw [getLsbD_and]
          by_cases hZero : off = 0
          · rw [hZero, Bool.eq_false_iff.mpr hClear, Bool.false_and]
          · simp [hZero]
        · intro hSet hAll
          have hFirst := hAll 0 (by decide)
          rw [getLsbD_and, hSet] at hFirst
          simp at hFirst
      rw [List.range_succ, List.foldl_append, hRun]
      refine ⟨_, _, rfl, hSize, ?_, ?_⟩
      · intro off hOff
        rw [hShift _ _ (by omega), hRest _ (by omega), Nat.add_right_comm, Nat.add_assoc]
      · intro idx hIdx
        dsimp only
        rw [value_setBit (by omega) _ (by omega)]
        by_cases hSame : idx = k
        · rw [if_pos hSame, hSame]
          simp only [hLow]
        · rw [if_neg hSame]
          exact hBits idx (by omega)
  rcases hPrefix v.size_ (Nat.le_refl _) with ⟨res, rest, hRun, hSize, -, hBits⟩
  have hSame : writeWord shift v lv = res := by rw [writeWord, hRun]
  rw [hSame]
  exact encodes_of_testBit hSize hBits hMod

----
-- Signs
----

/- Ones from a place on, above a number. -/
theorem toNat_extended {k : Nat} (hK : k ≤ 64) {x : BitVec 64} (hX : x.toNat < 2 ^ k) :
    (x ||| allOnes 64 <<< k).toNat = 2 ^ k * (2 ^ (64 - k) - 1) + x.toNat := by
  apply Nat.eq_of_testBit_eq
  intro off
  rw [Nat.testBit_two_pow_mul_add _ hX, BitVec.testBit_toNat, getLsbD_or, getLsbD_shiftLeft,
    getLsbD_allOnes, Nat.testBit_two_pow_sub_one, ← BitVec.testBit_toNat]
  by_cases hLow : off < k
  · rw [if_pos hLow, decide_eq_true hLow, Bool.not_true,
      Bool.and_false, Bool.false_and, Bool.or_false]
  · have hPow := Nat.pow_le_pow_right (by decide : 0 < 2) (Nat.not_lt.mp hLow)
    rw [if_neg hLow, decide_eq_false hLow, Nat.testBit_lt_two_pow (Nat.lt_of_lt_of_le hX hPow),
      Bool.false_or, Bool.not_false, Bool.and_true, ← Bool.decide_and, decide_eq_decide]
    omega

/- The number with its sign repeated up to `wid` bits. -/
def signExtended (v : VvpVector4) (wid : Nat) : Nat :=
  if v.topSet then
    2 ^ v.size_ * (2 ^ (wid - v.size_) - 1) + v.number
  else v.number

theorem signExtended_spec (hPos : 0 < v.size_) (hWid : v.size_ ≤ wid) :
    (v.topSet = true →
      signExtended v wid + v.magnitude true = 2 ^ wid ∧ 2 ^ (wid - 1) ≤ signExtended v wid) ∧
    (v.topSet = false →
      signExtended v wid = v.magnitude true ∧
        signExtended v wid < 2 ^ (wid - 1)) := by
  have hTop := topSet_iff hPos
  have hLt := v.number_lt
  have hHalf : 2 ^ v.size_ = 2 ^ (v.size_ - 1) * 2 := by rw [← pow_succ, Nat.sub_add_cancel hPos]
  have hHalfWid : 2 ^ wid = 2 ^ (wid - 1) * 2 := by rw [← pow_succ, Nat.sub_add_cancel (by omega)]
  have hBelow : 2 ^ (v.size_ - 1) ≤ 2 ^ (wid - 1) := Nat.pow_le_pow_right (by decide) (by omega)
  have hWhole : 2 ^ v.size_ * (2 ^ (wid - v.size_) - 1) + 2 ^ v.size_ = 2 ^ wid := by
    rw [← Nat.mul_succ, Nat.succ_eq_add_one, Nat.sub_add_cancel (Nat.two_pow_pos _),
      ← pow_add, Nat.add_sub_cancel' hWid]
  unfold signExtended magnitude negative
  rw [Bool.true_and]
  constructor
  · intro hSet
    have hLow := hTop.mp hSet
    rw [if_pos hSet, if_pos hSet]
    omega
  · intro hClear
    have hHigh : v.number < 2 ^ (v.size_ - 1) := by
      by_contra hNot
      rw [hTop.mpr (Nat.not_lt.mp hNot)] at hClear
      cases hClear
    rw [hClear]
    simp only [Bool.false_eq_true, if_false]
    exact ⟨trivial, Nat.lt_of_lt_of_le hHigh hBelow⟩

/- In a native word, that is the signed number. -/
theorem toInt_of_signExtended (hPos : 0 < v.size_) (hNative : v.size_ ≤ 64)
    {x : BitVec 64} (hX : x.toNat = signExtended v 64) : x.toInt = v.integer true := by
  rcases signExtended_spec hPos hNative with ⟨hSet, hClear⟩
  rw [toInt_eq_toNat_cond, hX, integer_eq, negative, Bool.true_and]
  cases hTop : v.topSet with
  | true =>
    rcases hSet hTop with ⟨hSum, hHalf⟩
    rw [if_pos rfl]
    omega
  | false =>
    rcases hClear hTop with ⟨hSame, hHalf⟩
    rw [if_pos (by omega), hSame]
    rfl

theorem length_subarray (v : VvpVector4) : (VvpVector2.subarray v).length = wordsFor v.size_ := by
  unfold VvpVector2.subarray
  rw [List.length_map, List.length_range]

/- The bits of the last word that are above the width. -/
theorem getLsbD_signMask {off : Nat} (hWid : 0 < wid) (hOff : off < 64) :
    (signMask wid).getLsbD off =
      decide (wid ≤ 64 * (wordsFor wid - 1) + off) := by
  have hBounds := wordsFor_bounds wid
  change (if wordsFor wid * 64 - wid ≠ 0 then
    allOnes 64 <<< (64 - (wordsFor wid * 64 - wid))
    else 0#64).getLsbD off = _
  split_ifs with hPart
  · rw [getLsbD_shiftLeft, getLsbD_allOnes, decide_eq_true hOff, Bool.true_and,
      decide_eq_true (by omega : off - (64 - (wordsFor wid * 64 - wid)) < 64), Bool.and_true,
      ← decide_not, decide_eq_decide]
    omega
  · rw [BitVec.getLsbD_zero, eq_comm, decide_eq_false_iff_not]
    omega

/- The sign is repeated in the last word. -/
theorem signExtendWords_spec (hPos : 0 < v.size_) :
    (signExtendWords v.size_ (VvpVector2.subarray v)).length = wordsFor v.size_ ∧
      toNat (signExtendWords v.size_ (VvpVector2.subarray v)) =
        signExtended v (64 * wordsFor v.size_) := by
  have hBounds := wordsFor_bounds v.size_
  have hLength := length_subarray v
  have hNumber := toNat_subarray v
  have hLt := v.number_lt
  have hInside : wordsFor v.size_ - 1 <
      (VvpVector2.subarray v).length := by omega
  have hWords : signExtendWords v.size_
      (VvpVector2.subarray v) =
        if wordAt (VvpVector2.subarray v)
            (wordsFor v.size_ - 1) &&& signMask v.size_ >>> 1 ≠ 0#64 then
          (VvpVector2.subarray v).set (wordsFor v.size_ - 1)
            (wordAt (VvpVector2.subarray v) (wordsFor v.size_ - 1) ||| signMask v.size_)
        else VvpVector2.subarray v := rfl
  rw [hWords]
  clear hWords
  have hDigit := getD_toNat (VvpVector2.subarray v) (wordsFor v.size_ - 1)
  have hSet := toNat_set hInside
  generalize VvpVector2.subarray v = ap at *
  generalize hN : wordsFor v.size_ = n at *
  change (wordAt ap (n - 1)).toNat = _ at hDigit
  change ∀ x, toNat (ap.set (n - 1) x) + 2 ^ (64 * (n - 1)) * (wordAt ap (n - 1)).toNat = _ at hSet
  have hTopWord : (wordAt ap (n - 1)).toNat = v.number / 2 ^ (64 * (n - 1)) := by
    rw [hDigit, hNumber]
    apply Nat.mod_eq_of_lt
    rw [Nat.div_lt_iff_lt_mul (Nat.two_pow_pos _), ← pow_add]
    exact Nat.lt_of_lt_of_le hLt (Nat.pow_le_pow_right (by decide) (by omega))
  have hSmall : (wordAt ap (n - 1)).toNat < 2 ^ (v.size_ - 64 * (n - 1)) := by
    rw [hTopWord, Nat.div_lt_iff_lt_mul (Nat.two_pow_pos _),
      ← pow_add, Nat.sub_add_cancel (by omega)]
    exact hLt
  have hBit : ∀ off, (wordAt ap (n - 1)).getLsbD off = v.number.testBit (64 * (n - 1) + off) := by
    intro off
    rw [← BitVec.testBit_toNat, hTopWord, Nat.testBit_div_two_pow, Nat.add_comm]
  have hMaskBit : ∀ off, off < 64 →
      (signMask v.size_ >>> 1).getLsbD off =
        (decide (off + 1 < 64) &&
          decide (v.size_ ≤ 64 * (n - 1) + (off + 1))) := by
    intro off hOff
    rw [BitVec.getLsbD_ushiftRight, Nat.add_comm 1]
    by_cases hNext : off + 1 < 64
    · rw [getLsbD_signMask hPos hNext, hN, decide_eq_true hNext, Bool.true_and]
    · rw [decide_eq_false hNext]
      exact BitVec.getLsbD_of_ge _ _ (Nat.not_lt.mp hNext)
  have hTop : v.topSet = v.number.testBit (v.size_ - 1) := by
    rw [testBit_number]
    rfl
  -- the tested bits are the sign, unless no bit is left over
  have hTest : wordAt ap (n - 1) &&& signMask v.size_ >>> 1 ≠
      0#64 ↔ v.topSet = true ∧ v.size_ < 64 * n := by
    rw [ne_eq, word_eq_zero_iff]
    push Not
    constructor
    · rintro ⟨off, hOff, hAnd⟩
      rw [getLsbD_and, hMaskBit off hOff, hBit] at hAnd
      simp only [Bool.not_eq_false, Bool.and_eq_true, decide_eq_true_eq] at hAnd
      rcases hAnd with ⟨hSetBit, hRoom, hAbove⟩
      have hIn : 64 * (n - 1) + off < v.size_ := by
        by_contra hOut
        rw [Nat.testBit_lt_two_pow (Nat.lt_of_lt_of_le hLt
          (Nat.pow_le_pow_right (by decide) (Nat.not_lt.mp hOut)))] at hSetBit
        cases hSetBit
      have hPlace : 64 * (n - 1) + off = v.size_ - 1 := by omega
      rw [hPlace, ← hTop] at hSetBit
      exact ⟨hSetBit, by omega⟩
    · rintro ⟨hSetBit, hRoom⟩
      refine ⟨v.size_ - 1 - 64 * (n - 1), by omega, ?_⟩
      rw [getLsbD_and, hMaskBit _ (by omega), hBit, Nat.add_sub_cancel' (by omega),
        ← hTop, hSetBit, decide_eq_true (by omega), decide_eq_true (by omega)]
      decide
  have hMask : v.size_ < 64 * n → signMask v.size_ = allOnes 64 <<< (v.size_ - 64 * (n - 1)) := by
    intro hRoom
    apply BitVec.eq_of_getLsbD_eq
    intro off hOff
    rw [getLsbD_signMask hPos hOff, getLsbD_shiftLeft, getLsbD_allOnes, decide_eq_true hOff,
      Bool.true_and, decide_eq_true (by omega : off - (v.size_ - 64 * (n - 1)) < 64), Bool.and_true,
      ← decide_not, decide_eq_decide]
    omega
  by_cases hExtend : wordAt ap (n - 1) &&& signMask v.size_ >>> 1 ≠ 0#64
  · rcases hTest.mp hExtend with ⟨hSigned, hRoom⟩
    rw [if_pos hExtend, List.length_set]
    refine ⟨hLength, ?_⟩
    have hOr := toNat_extended (by omega) hSmall
    have hSum := hSet (wordAt ap (n - 1) ||| signMask v.size_)
    rw [hMask hRoom] at hSum ⊢
    rw [hOr, Nat.mul_add, ← Nat.mul_assoc, ← pow_add,
      Nat.add_sub_cancel' (by omega)] at hSum
    have hExp : 64 - (v.size_ - 64 * (n - 1)) =
        64 * n - v.size_ := by omega
    rw [hExp] at hSum
    rw [signExtended, if_pos hSigned]
    omega
  · rw [if_neg hExtend]
    refine ⟨hLength, ?_⟩
    rw [hNumber, signExtended]
    split_ifs with hSigned
    · have hFull : 64 * n - v.size_ = 0 := by
        rw [hTest, not_and] at hExtend
        have := hExtend hSigned
        omega
      rw [hFull, pow_zero, Nat.sub_self, Nat.mul_zero, Nat.zero_add]
    · rfl

/- The sign is the top bit of the last word. -/
theorem positiveWords_spec {xs : List (BitVec 64)} {n : Nat} (hSome : 0 < n)
    (hLength : xs.length = n) :
    (positiveWords n xs).1.length = n ∧
      (2 ^ (64 * n - 1) ≤ toNat xs →
        (positiveWords n xs).2 = true ∧ toNat (positiveWords n xs).1 = 2 ^ (64 * n) - toNat xs) ∧
      (toNat xs < 2 ^ (64 * n - 1) →
        (positiveWords n xs).2 = false ∧
          toNat (positiveWords n xs).1 = toNat xs) := by
  have hLt := toNat_lt xs
  have hSign : (wordAt xs (n - 1)).toInt < 0 ↔
      2 ^ (64 * n - 1) ≤ toNat xs := by
    have hDigit := getD_toNat xs (n - 1)
    change (wordAt xs (n - 1)).toNat = _ at hDigit
    have hBelow : toNat xs / 2 ^ (64 * (n - 1)) < 2 ^ 64 := by
      rw [Nat.div_lt_iff_lt_mul (Nat.two_pow_pos _), ← pow_add]
      exact Nat.lt_of_lt_of_le hLt (Nat.pow_le_pow_right (by decide) (by omega))
    rw [Nat.mod_eq_of_lt hBelow] at hDigit
    have hHalf : 2 ^ 63 ≤ (wordAt xs (n - 1)).toNat ↔
        2 ^ (64 * n - 1) ≤ toNat xs := by
      rw [hDigit, Nat.le_div_iff_mul_le (Nat.two_pow_pos _), ← pow_add]
      have hExp : 63 + 64 * (n - 1) = 64 * n - 1 := by omega
      rw [hExp]
    rw [toInt_eq_toNat_cond]
    split_ifs <;> omega
  rcases negateWords_spec xs with ⟨hSize, hNegate⟩
  rw [hLength] at hSize hNegate
  unfold positiveWords
  split_ifs with hNeg
  · refine ⟨hSize, ?_, fun hLow => by omega⟩
    intro _
    have hPow := Nat.two_pow_pos (64 * n - 1)
    refine ⟨rfl, ?_⟩
    rw [hNegate]
    exact Nat.mod_eq_of_lt (by omega)
  · refine ⟨hLength, fun hHigh => absurd (hSign.mpr hHigh) hNeg, ?_⟩
    intro _
    exact ⟨rfl, rfl⟩

/- The words of an operand without its sign. -/
theorem positive_signExtended (hPos : 0 < v.size_) :
    let p := positiveWords (wordsFor v.size_)
      (signExtendWords v.size_ (VvpVector2.subarray v))
    p.1.length = wordsFor v.size_ ∧
      toNat p.1 = v.magnitude true ∧ p.2 = v.topSet := by
  intro p
  rcases signExtendWords_spec hPos with ⟨hLength, hNumber⟩
  rcases positiveWords_spec (wordsFor_pos hPos) hLength with ⟨hSize, hHigh, hLow⟩
  rcases signExtended_spec hPos (wordsFor_bounds v.size_).1 with ⟨hSet, hClear⟩
  rw [hNumber] at hHigh hLow
  cases hTop : v.topSet with
  | true =>
    rcases hSet hTop with ⟨hSum, hHalf⟩
    rcases hHigh hHalf with ⟨hFlag, hValue⟩
    exact ⟨hSize, by rw [hValue]; omega, hFlag⟩
  | false =>
    rcases hClear hTop with ⟨hSame, hHalf⟩
    rcases hLow hHalf with ⟨hFlag, hValue⟩
    exact ⟨hSize, by rw [hValue, hSame], hFlag⟩

/- Bits above the width do not count. -/
theorem masked_modEq (hWid : 0 < wid) (val : List (BitVec 64)) :
    toNat (val.set (wordsFor wid - 1) (wordAt val (wordsFor wid - 1) &&& ~~~signMask wid)) ≡
      toNat val [MOD 2 ^ wid] := by
  apply Nat.eq_of_testBit_eq
  intro idx
  rw [Nat.testBit_mod_two_pow, Nat.testBit_mod_two_pow]
  by_cases hIdx : idx < wid
  · have hOff : idx % 64 < 64 := Nat.mod_lt _ (by decide)
    rw [decide_eq_true hIdx, Bool.true_and, Bool.true_and,
      testBit_toNat (by decide), testBit_toNat (by decide)]
    by_cases hLast : idx / 64 = wordsFor wid - 1
    · by_cases hIn : wordsFor wid - 1 < val.length
      · have hRead : (val.set (wordsFor wid - 1)
            (wordAt val (wordsFor wid - 1) &&& ~~~signMask wid)).getD (idx / 64) 0#64 =
            wordAt val (wordsFor wid - 1) &&& ~~~signMask wid := by
          rw [hLast, List.getD_eq_getElem?_getD, List.getElem?_set_self hIn, Option.getD_some]
        rw [hRead, getLsbD_and, getLsbD_not, getLsbD_signMask hWid hOff, decide_eq_true hOff,
          decide_eq_false (by omega), hLast, wordAt, Bool.not_false, Bool.and_true, Bool.and_true]
      · rw [List.set_eq_of_length_le (Nat.not_lt.mp hIn)]
    · rw [List.getD_eq_getElem?_getD, List.getElem?_set_ne (Ne.symm hLast),
        ← List.getD_eq_getElem?_getD]
  · rw [decide_eq_false hIdx, Bool.false_and, Bool.false_and]

----
-- Native Words
----

/- A signed word is its number, modulo its range. -/
theorem toNat_modEq_toInt (hNative : wid ≤ 64) (x : BitVec 64) :
    (x.toNat : Int) ≡ x.toInt [ZMOD 2 ^ wid] := by
  have hDvd : (2 : Int) ^ wid ∣ 2 ^ 64 := pow_dvd_pow 2 hNative
  apply Int.ModEq.of_dvd hDvd
  rw [toInt_eq_toNat_cond]
  split_ifs
  · exact Int.ModEq.refl _
  · rw [Int.modEq_iff_dvd]
    exact ⟨-1, by push_cast; ring⟩

theorem one_word (hPos : 0 < wid) (hNative : wid ≤ 64) : wordsFor wid = 1 := by
  unfold wordsFor
  omega

/- A list of one word is its word. -/
theorem toNat_single {xs : List (BitVec 64)} (h : xs.length = 1) :
    toNat xs = (wordAt xs 0).toNat := by
  match xs, h with
  | [x], _ => simp [wordAt]

theorem integer_eq_zero_iff (v : VvpVector4) (signed : Bool) :
    v.integer signed = 0 ↔ v.number = 0 := by
  rw [integer_eq, ← @magnitude_eq_zero_iff v signed]
  split_ifs <;> omega

/- The native unsigned division. -/
theorem divideWord_right (hPos : 0 < vala.size_) (hNative : vala.size_ ≤ 64)
    (hSize : valb.size_ = vala.size_) :
    (wordAt (VvpVector2.subarray valb) 0 = 0#64 ↔ valb.number = 0) ∧
    (vala.setArray ((VvpVector2.subarray vala).set 0
      (wordAt (VvpVector2.subarray vala) 0 / wordAt (VvpVector2.subarray valb) 0))).Encodes
      vala.size_
      (Int.tdiv (vala.integer false) (valb.integer false)) := by
  have hOne := one_word hPos hNative
  have hLengthA := length_subarray vala
  have hLengthB := length_subarray valb
  rw [hOne] at hLengthA
  rw [hSize, hOne] at hLengthB
  have hA := toNat_single hLengthA
  have hB := toNat_single hLengthB
  rw [toNat_subarray] at hA hB
  constructor
  · rw [hB, ← BitVec.toNat_inj, BitVec.toNat_zero]
  · apply setArray_encodes
    have hSet : toNat ((VvpVector2.subarray vala).set 0
        (wordAt (VvpVector2.subarray vala) 0 / wordAt (VvpVector2.subarray valb) 0)) =
        vala.number / valb.number := by
      rw [toNat_single (by rw [List.length_set, hLengthA]), wordAt, List.getD_eq_getElem?_getD,
        List.getElem?_set_self (by omega), Option.getD_some, BitVec.toNat_udiv, hA, hB]
    rw [hSet]
    have hQuotient : Int.tdiv (vala.integer false)
        (valb.integer false) = ((vala.number / valb.number : Nat) : Int) := by
      exact (Int.ofNat_tdiv _ _).symm
    rw [hQuotient]

/- The native signed division. -/
theorem divideNative_right (hPos : 0 < vala.size_) (hNative : vala.size_ ≤ 64)
    (hSize : valb.size_ = vala.size_) :
    let out := divideNative vala
      (signExtendWords vala.size_ (VvpVector2.subarray vala))
      (signExtendWords vala.size_ (VvpVector2.subarray valb))
    (valb.number = 0 → out.AllX vala.size_) ∧
      (valb.number ≠ 0 → out.Encodes vala.size_
        (Int.tdiv (vala.integer true) (valb.integer true))) := by
  intro out
  have hOne := one_word hPos hNative
  have hSpecA := signExtendWords_spec hPos
  have hSpecB := @signExtendWords_spec valb (by omega)
  rw [hSize, hOne] at hSpecB
  rw [hOne] at hSpecA
  have hA := toNat_single hSpecA.1
  have hB := toNat_single hSpecB.1
  rw [hSpecA.2] at hA
  rw [hSpecB.2] at hB
  have hIntA := toInt_of_signExtended hPos hNative hA.symm
  have hIntB := @toInt_of_signExtended valb (by omega) (by omega)
    _ hB.symm
  have hLength := hSpecA.1
  have hMasked := @masked_modEq vala.size_ hPos
  have hOut : out = divideNative vala
      (signExtendWords vala.size_ (VvpVector2.subarray vala))
      (signExtendWords vala.size_ (VvpVector2.subarray valb)) :=
    rfl
  rw [hOut]
  unfold divideNative
  rw [hOne] at hMasked
  generalize signExtendWords vala.size_ (VvpVector2.subarray vala) = ap at *
  generalize signExtendWords vala.size_ (VvpVector2.subarray valb) = bp at *
  generalize wordAt ap 0 = a at *
  generalize wordAt bp 0 = b at *
  have hZero : b = 0#64 ↔ valb.number = 0 := by
    rw [← integer_eq_zero_iff valb true, ← hIntB, ← BitVec.toInt_inj, BitVec.toInt_zero]
  constructor
  · intro hNone
    rw [if_pos (hZero.mpr hNone)]
    exact fill_allX _
  · intro hSome
    rw [if_neg (mt hZero.mp hSome), ← hIntA, ← hIntB]
    split_ifs with hOverflow
    · -- only a full word holds the number without a negative
      have hFull : vala.size_ = 64 := by
        by_contra hNot
        rw [hOverflow.1, integer_eq] at hIntA
        have hLe := magnitude_signed_le hPos
        have hPow := Nat.pow_le_pow_right (by decide : 0 < 2) (show vala.size_ - 1 ≤ 62 by omega)
        have hMin : (intMin 64).toInt = -(2 ^ 63 : Nat) := by decide
        split_ifs at hIntA <;> omega
      rw [hOverflow.1, hOverflow.2, hFull]
      have hQuotient : Int.tdiv (intMin 64).toInt (allOnes 64).toInt = ((2 ^ 63 : Nat) : Int) := by
        decide
      rw [hQuotient]
      apply encodes_of_testBit rfl _ (Int.ModEq.refl _)
      intro idx hIdx
      change idx < 64 at hIdx
      apply (@value_setBit (fill 64 .zero) 63 (by decide) .one idx hIdx).trans
      rw [Nat.testBit_two_pow, value_fill hIdx]
      by_cases hTop : idx = 63
      · rw [if_pos hTop, decide_eq_true hTop.symm]
        rfl
      · rw [if_neg hTop, decide_eq_false (Ne.symm hTop)]
        rfl
    · apply setArray_encodes
      have hNe : a ≠ intMin 64 ∨ b ≠ -1#64 := by
        exact not_and_or.mp hOverflow
      have hRes := toNat_modEq_toInt hNative (a.sdiv b)
      rw [BitVec.toInt_sdiv_of_ne_or_ne a b hNe] at hRes
      have hMask := hMasked (ap.set 0 (a.sdiv b))
      have hRead : ∀ x, wordAt (ap.set 0 x) 0 = x := by
        intro x
        rw [wordAt, List.getD_eq_getElem?_getD, List.getElem?_set_self (by omega), Option.getD_some]
      have hSingle : ∀ x, toNat (ap.set 0 x) = x.toNat := by
        intro x
        rw [toNat_single (by rw [List.length_set, hLength]), hRead]
      rw [hRead, List.set_set, hSingle, hSingle] at hMask
      rw [hSingle]
      have hCast : (((a.sdiv b) &&& ~~~signMask
          vala.size_).toNat : Int) ≡ ((a.sdiv b).toNat : Int) [ZMOD 2 ^ vala.size_] := by
        have := Int.natCast_modEq_iff.mpr hMask
        rwa [Nat.cast_pow] at this
      exact hCast.trans hRes

/- A bit of an operand, read into a native word. -/
def wordBit (v : VvpVector4) (lv : BitVec 64) (idx : Nat) : Option (BitVec 64) :=
  match v.value idx with
  | .zero => some lv
  | .one => some (lv ||| 1#64 <<< idx)
  | _ => none

theorem readWord_eq (v : VvpVector4) :
    readWord v = (List.range v.size_).foldlM (wordBit v) 0#64 := rfl

/- The bits of an operand, read into a native word. -/
theorem readWord_defined (hNative : v.size_ ≤ 64) (hDefined : v.Defined) :
    ∃ lv, readWord v = some lv ∧ lv.toNat = v.number := by
  have hPrefix : ∀ n ≤ v.size_, ∃ lv,
      (List.range n).foldlM (wordBit v) 0#64 = some lv ∧
      lv.toNat = v.number % 2 ^ n := by
    intro n hn
    induction n with
    | zero => exact ⟨0#64, rfl, (Nat.mod_one _).symm⟩
    | succ n ih =>
      rcases ih (Nat.le_of_succ_le hn) with ⟨lv, hRun, hNumber⟩
      have hSucc := v.number_mod_succ n
      rw [List.range_succ, List.foldlM_append, hRun]
      simp only [List.foldlM_cons, wordBit]
      rcases hDefined n (by omega) with hZero | hOne
      · rw [hZero] at hSucc ⊢
        exact ⟨lv, rfl, by rw [hNumber, hSucc]; rfl⟩
      · rw [hOne] at hSucc ⊢
        refine ⟨lv ||| 1#64 <<< n, rfl, ?_⟩
        have hLess := Nat.mod_lt v.number (Nat.two_pow_pos n)
        have hBit : (1#64 <<< n).toNat = 2 ^ n * 1 := by
          rw [BitVec.toNat_shiftLeft, Nat.shiftLeft_eq, Nat.mod_eq_of_lt]
          · exact Nat.mul_comm _ _
          · have hPow := Nat.pow_lt_pow_right (by decide : 1 < 2) (show n < 64 by omega)
            rw [BitVec.toNat_ofNat]
            omega
        rw [BitVec.toNat_or, hBit, hNumber, Nat.or_comm,
          ← Nat.two_pow_add_eq_or_of_lt hLess, hSucc, if_pos rfl, Nat.add_comm]
  rcases hPrefix v.size_ (Nat.le_refl _) with ⟨lv, hRun, hNumber⟩
  rw [number_mod_size] at hNumber
  exact ⟨lv, (readWord_eq v).trans hRun, hNumber⟩

theorem readWord_undefined (h : ¬ v.Defined) : readWord v = none := by
  unfold Defined at h
  push Not at h
  rcases h with ⟨bad, hBad, hZero, hOne⟩
  have hFold : ∀ (l : List Nat) (lv : BitVec 64), bad ∈ l →
      l.foldlM (wordBit v) lv = none := by
    intro l
    induction l with
    | nil =>
      intro lv hMem
      cases hMem
    | cons idx l ih =>
      intro lv hMem
      rw [List.foldlM_cons, wordBit]
      rcases List.mem_cons.mp hMem with hHere | hRest
      · rw [← hHere]
        cases hValue : v.value bad with
        | zero => exact absurd hValue hZero
        | one => exact absurd hValue hOne
        | x => rfl
        | z => rfl
      · cases v.value idx with
        | zero => exact ih _ hRest
        | one => exact ih _ hRest
        | x => rfl
        | z => rfl
  exact hFold _ _ (List.mem_range.mpr hBad)

/- A native word with its sign repeated. -/
theorem signExtendNative_spec (hPos : 0 < v.size_) (hNative : v.size_ ≤ 64)
    {lv : BitVec 64} (hNumber : lv.toNat = v.number) :
    (signExtendNative v.size_ lv).toInt = v.integer true := by
  apply toInt_of_signExtended hPos hNative
  have hLt := v.number_lt
  rw [← hNumber] at hLt
  unfold signExtendNative signExtended
  by_cases hPart : v.size_ < 64
  · rw [if_pos hPart]
    have hTop : lv &&& (1#64 <<< (v.size_ - 1)) ≠ 0#64 ↔
        v.topSet = true := by
      have hBit : lv.getLsbD (v.size_ - 1) = v.topSet := by
        rw [← BitVec.testBit_toNat, hNumber, testBit_number]
        rfl
      rw [← hBit, ne_eq, word_eq_zero_iff]
      constructor
      · intro hNot
        by_contra hClear
        apply hNot
        intro off hOff
        rw [getLsbD_and, getLsbD_one_shift]
        by_cases hSame : off = v.size_ - 1
        · rw [hSame, Bool.eq_false_iff.mpr hClear, Bool.false_and]
        · rw [decide_eq_false hSame, Bool.and_false, Bool.and_false]
      · intro hSet hAll
        have hHere := hAll (v.size_ - 1) (by omega)
        rw [getLsbD_and, getLsbD_one_shift, hSet,
          decide_eq_true (by omega), decide_eq_true rfl] at hHere
        cases hHere
    by_cases hSigned : v.topSet = true
    · rw [if_pos (hTop.mpr hSigned), if_pos hSigned, toNat_extended hNative hLt, hNumber]
    · rw [if_neg (mt hTop.mp hSigned), if_neg hSigned, hNumber]
  · have hFull : v.size_ = 64 := by omega
    rw [if_neg hPart, hFull, pow_zero, Nat.sub_self,
      Nat.mul_zero, Nat.zero_add, ite_self, hNumber]

theorem shift_right (x : BitVec 64) (off : Nat) :
    off + 1 < 64 →
      (x >>> 1).getLsbD off = x.getLsbD (off + 1) := by
  intro _
  rw [BitVec.getLsbD_ushiftRight, Nat.add_comm]

theorem shift_signed (x : BitVec 64) (off : Nat) :
    off + 1 < 64 →
      (x.sshiftRight 1).getLsbD off = x.getLsbD (off + 1) := by
  intro hOff
  rw [BitVec.getLsbD_sshiftRight, decide_eq_false (by omega),
    Nat.add_comm 1, if_pos hOff, Bool.not_false, Bool.true_and]

/- The native unsigned modulus. -/
theorem modWord_right (hNative : vala.size_ ≤ 64) {lv rv : BitVec 64}
    (hA : lv.toNat = vala.number) (hB : rv.toNat = valb.number) :
    (writeWord (fun x => x >>> 1) vala (lv % rv)).Encodes
      vala.size_
      (Int.tmod (vala.integer false) (valb.integer false)) := by
  apply writeWord_encodes shift_right hNative
  have hRem : Int.tmod (vala.integer false)
      (valb.integer false) = ((vala.number % valb.number : Nat) : Int) := by
    exact (Int.ofNat_tmod _ _).symm
  rw [BitVec.toNat_umod, hA, hB, hRem]

/- The native signed modulus. -/
theorem modNative_right (hPos : 0 < vala.size_) (hNative : vala.size_ ≤ 64)
    (hSize : valb.size_ = vala.size_) {lv rv : BitVec 64}
    (hA : lv.toNat = vala.number) (hB : rv.toNat = valb.number) :
    (if lv = intMin 64 ∧ rv = allOnes 64 then
      fill vala.size_ .zero
    else
      writeWord (fun x => x.sshiftRight 1) vala
        ((signExtendNative vala.size_ lv).srem (signExtendNative vala.size_ rv))).Encodes vala.size_
      (Int.tmod (vala.integer true) (valb.integer true)) := by
  have hIntA := signExtendNative_spec hPos hNative hA
  have hIntB := @signExtendNative_spec valb (by omega) (by omega)
    _ hB
  rw [hSize] at hIntB
  split_ifs with hOverflow
  · -- these are the native words of a full width only
    have hFull : vala.size_ = 64 := by
      by_contra hNot
      have hLt := valb.number_lt
      have hPow := Nat.pow_lt_pow_right (by decide : 1 < 2) (show vala.size_ < 64 by omega)
      have hOnes : (allOnes 64).toNat = 2 ^ 64 - 1 := by decide
      rw [← hB, hOverflow.2, hSize] at hLt
      omega
    rw [hFull] at hIntA hIntB ⊢
    rw [← hIntA, ← hIntB, hOverflow.1, hOverflow.2]
    refine encodes_of_testBit rfl ?_ (Int.ModEq.refl ((0 : Nat) : Int))
    intro idx hIdx
    rw [value_fill hIdx, Nat.zero_testBit]
    rfl
  · apply writeWord_encodes shift_signed hNative
    have hRes := toNat_modEq_toInt hNative
      ((signExtendNative vala.size_ lv).srem (signExtendNative vala.size_ rv))
    rw [BitVec.toInt_srem, hIntA, hIntB] at hRes
    exact hRes

end EpicSim
