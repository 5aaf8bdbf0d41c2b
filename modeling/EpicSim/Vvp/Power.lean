import EpicSim.Vvp.Arith

/-
  The power of nets: square and multiply on packed words, and
  the table of results for negative exponents.
-/

----
-- Square And Multiply
----

namespace EpicSim

open PackedWords Limbs

namespace VvpVector2

/- `pow`, as deep as the rounds allow. -/
def powRounds : Nat → VvpVector2 → VvpVector2 → Option VvpVector2
| 0, _, _ => none
| rounds + 1, x, y =>
  if y.eq (ofLong 0#64 1) then some (ofLong 1#64 x.wid)
  else if y.value 0 then do
    let y ← y.setBit 0 false
    let res ← powRounds rounds x y
    x.mul res
  else do
    let y ← y.shiftRight 1
    let z ← powRounds rounds x y
    z.mul z

/- `pow`: two calls for each bit of the exponent's words. -/
def pow (x y : VvpVector2) : Option VvpVector2 :=
  powRounds (128 * wordsFor y.wid + 2) x y

/- Clearing the lowest bit of an odd number. -/
theorem clear_odd {y res : VvpVector2} (hRes : y.setBit 0 false = some res)
    (hOdd : y.whole % 2 = 1) : res.whole + 1 = y.whole := by
  have hBits := testBit_setBit hRes
  have hLow : res.whole % 2 = 0 := by
    have hBit := hBits 0
    simpa using hBit
  have hHigh : res.whole / 2 = y.whole / 2 := by
    apply Nat.eq_of_testBit_eq
    intro idx
    rw [← Nat.testBit_succ, ← Nat.testBit_succ, hBits, if_neg (Nat.succ_ne_zero idx)]
  omega

theorem halve {y : VvpVector2} (hWid : 0 < y.wid) :
    ∃ res, y.shiftRight 1 = some res ∧ res.wid = y.wid ∧
      res.whole ≤ y.whole / 2 ∧
      (y.Clean → res.Clean ∧ res.whole = y.whole / 2) := by
  rcases (shiftRight_spec y 1).1 (Or.inl hWid) with ⟨res, hRes⟩
  rcases (shiftRight_spec y 1).2 res hRes with ⟨hW, hWhole⟩
  refine ⟨res, hRes, hW, ?_, fun hClean => ?_⟩
  · rw [hWhole]
    exact Nat.mod_le _ _
  · have hExact := (shiftRight_of_clean hClean hRes).2
    have hLt : y.whole < 2 ^ y.wid := hClean
    refine ⟨?_, hExact⟩
    unfold Clean
    rw [hW]
    omega

/-
  The recursion ends for every exponent, clean or not: each
  second call at the latest halves it.  For a clean one the
  words hold the power.
-/
theorem powRounds_spec {x y : VvpVector2} {rounds k : Nat} (hBound : y.whole < 2 ^ k)
    (hRounds : 2 * k + y.whole % 2 < rounds) :
    ∃ res, powRounds rounds x y = some res ∧
      res.wid = x.wid ∧
      (0 < x.wid → y.Clean →
        res.whole ≡ x.whole ^ y.whole [MOD 2 ^ (64 * wordsFor x.wid)]) := by
  induction rounds generalizing k y with
  | zero => omega
  | succ rounds ih =>
    have hZeroWord : (ofLong 0#64 1).whole = 0 := whole_ofLong 0#64 Nat.one_pos
    rw [powRounds]
    by_cases hZero : y.whole = 0
    · have hEq : y.eq (ofLong 0#64 1) = true := by
        rw [eq_iff]
        exact hZero
      rw [if_pos hEq]
      refine ⟨_, rfl, rfl, fun hWid _ => ?_⟩
      rw [whole_ofLong 1#64 hWid, hZero]
      exact Nat.ModEq.refl _
    have hEq : ¬y.eq (ofLong 0#64 1) = true := by
      rw [eq_iff]
      exact hZero
    have hWid : 0 < y.wid := by
      by_contra hNone
      exact hZero (whole_of_wid_zero (by omega))
    have hLow : y.value 0 = decide (y.whole % 2 = 1) := by
      rw [value_eq, decide_eq_true hWid, Bool.true_and, Nat.testBit_zero]
    rw [if_neg hEq, hLow]
    by_cases hOdd : y.whole % 2 = 1
    · have hSet : ∃ odd, y.setBit 0 false = some odd := by
        unfold setBit
        rw [if_pos hWid]
        exact ⟨_, rfl⟩
      rcases hSet with ⟨odd, hOddSet⟩
      have hLess := clear_odd hOddSet hOdd
      rcases @ih odd k (by omega) (by omega) with ⟨res, hRes, hResWid, hResWhole⟩
      rcases mul_spec hResWid.symm with ⟨prod, hProd, hProdWid, hProdWhole⟩
      rw [decide_eq_true hOdd, if_pos rfl, hOddSet]
      refine ⟨prod, ?_, hProdWid, fun hX hClean => ?_⟩
      · simp only [Option.bind_eq_bind, Option.bind_some, hRes, hProd]
      · have hPow := hResWhole hX (clean_setBit hClean hOddSet)
        rw [hProdWhole, ← hLess, pow_succ, Nat.mul_comm _ x.whole]
        exact (Nat.mod_modEq _ _).trans (Nat.ModEq.mul_left x.whole hPow)
    · rcases halve hWid with ⟨half, hHalf, -, hHalfLe, hHalfClean⟩
      have hPlace : ∃ l, k = l + 1 := by
        cases k with
        | zero => exact absurd (Nat.lt_one_iff.mp hBound) hZero
        | succ l => exact ⟨l, rfl⟩
      rcases hPlace with ⟨l, rfl⟩
      rcases @ih half l (by omega) (by omega) with ⟨res, hRes, hResWid, hResWhole⟩
      rcases mul_spec (rfl : res.wid = res.wid) with ⟨prod, hProd, hProdWid, hProdWhole⟩
      rw [decide_eq_false hOdd, if_neg Bool.false_ne_true, hHalf]
      refine ⟨prod, ?_, hProdWid.trans hResWid, fun hX hClean => ?_⟩
      · simp only [Option.bind_eq_bind, Option.bind_some, hRes, hProd]
      · rcases hHalfClean hClean with ⟨hHalfC, hHalfEq⟩
        have hPow := hResWhole hX hHalfC
        have hTwice : y.whole = half.whole + half.whole := by omega
        rw [hProdWhole, hResWid, hTwice, pow_add]
        exact (Nat.mod_modEq _ _).trans (Nat.ModEq.mul hPow hPow)

/- The recursion of `pow` comes to an end. -/
theorem pow_spec (x y : VvpVector2) :
    ∃ res, pow x y = some res ∧ res.wid = x.wid ∧
      (0 < x.wid → y.Clean →
        res.whole ≡ x.whole ^ y.whole [MOD 2 ^ (64 * wordsFor x.wid)]) := by
  exact powRounds_spec y.whole_lt (by omega)

end VvpVector2

end EpicSim

----
-- Negative Exponents
----

namespace EpicSim

open PackedWords Limbs

/-
  `vector2_to_value`: 32 bits, and whether they are all.
-/
def vector2ToValue (a : VvpVector2) (is_signed : Bool) : BitVec 32 × Bool :=
  let val := (List.range (min a.wid 32)).foldl
    (fun (val : BitVec 32) idx => if a.value idx then val ||| 1#32 <<< idx else val) 0#32
  let val :=
    if is_signed && decide (a.wid < 32) &&
        a.value (a.wid - 1) then
      val ||| BitVec.allOnes 32 <<< a.wid
    else val
  (val, decide (a.wid ≤ 32))

namespace VvpVector4

/- `invert`, in place. -/
def invert (v : VvpVector4) : VvpVector4 where
  size_ := v.size_
  abits := build v.size_ (fun idx =>
    let remaining := v.size_ - 64 * idx
    let word := ~~~wordAt v.abits idx
    (if 64 ≤ remaining then word else lowMask remaining &&& word) ||| wordAt v.bbits idx)
  bbits := v.bbits
  abits_length := by simp
  bbits_length := v.bbits_length

/-
  From a double that is a small integer: the sign fills the
  words, the lowest one gets the rounded value.
-/
def ofReal (size : Nat) (val : Int) : VvpVector4 :=
  let zero := fill size .zero
  let filled := if val < 0 then zero.invert else zero
  { filled with
    abits := filled.abits.set 0 (BitVec.ofInt 64 val)
    abits_length := by rw [List.length_set, filled.abits_length] }

end VvpVector4

namespace VvpArith

open VvpVector2

/- What `vvp_arith_pow::recv_vec4` sends. -/
def powSend (arith : VvpArith) : Option VvpVector4 :=
  let a2 := ofVector4 arith.op_a true
  let b2 := ofVector4 arith.op_b true
  if a2.isNaN || b2.isNaN then some arith.x_val
  else if arith.signed_flag && b2.value (b2.wid - 1) then
    let (aVal, small) := vector2ToValue a2 true
    if small && aVal == 0#32 then some arith.x_val
    else
      let rVal : Int := 0
      let rVal := if small && aVal == 1#32 then 1 else rVal
      let rVal :=
        if small && aVal == BitVec.allOnes 32 then
          if b2.value 0 then -1 else 1
        else rVal
      some (VvpVector4.ofReal arith.wid rVal)
  else (pow a2 b2).map (fun res => res.toVector4 arith.wid)

end VvpArith

end EpicSim

----
-- Small Integers
----

namespace EpicSim

open PackedWords Limbs

namespace VvpVector4

theorem number_modEq_integer (v : VvpVector4) (signed : Bool) :
    (v.number : Int) ≡ v.integer signed [ZMOD 2 ^ v.size_] := by
  unfold integer
  split_ifs
  · rw [Int.modEq_iff_dvd]
    exact ⟨-1, by ring⟩
  · exact Int.ModEq.refl _

theorem integer_neg_iff (v : VvpVector4) (signed : Bool) :
    v.integer signed < 0 ↔ (signed && v.topSet) = true := by
  have hLt := v.number_lt
  have hCast : ((2 ^ v.size_ : Nat) : Int) = 2 ^ v.size_ := by norm_cast
  unfold integer
  split_ifs with h
  · simp only [h, iff_true]
    omega
  · simp only [h, Bool.false_eq_true, iff_false]
    omega

theorem bitAt_invert {v : VvpVector4} {idx : Nat} (h : idx < v.size_) :
    bitAt v.invert.abits idx = (!bitAt v.abits idx || bitAt v.bbits idx) := by
  have hOff : idx % 64 < 64 := Nat.mod_lt _ (by decide)
  simp only [invert]
  rw [bitAt_build _ h, BitVec.getLsbD_or]
  unfold bitAt
  congr 1
  split_ifs with hFull
  · rw [BitVec.getLsbD_not, decide_eq_true hOff, Bool.true_and]
  · rw [BitVec.getLsbD_and, getLsbD_lowMask (by omega), BitVec.getLsbD_not,
      decide_eq_true hOff, Bool.true_and, decide_eq_true (by omega), Bool.true_and]

theorem bitAt_fill_zero {size idx : Nat} (h : idx < size) :
    bitAt (fill size .zero).abits idx = false ∧
      bitAt (fill size .zero).bbits idx = false := by
  constructor <;>
  · simp only [fill]
    rw [bitAt_build _ h]
    simp [VvpBit4.abit, VvpBit4.bbit]

theorem bitAt_set_zero
    {words : List (BitVec 64)} (hWords : 0 < words.length) (word : BitVec 64) (idx : Nat) :
    bitAt (words.set 0 word) idx =
      if idx < 64 then word.getLsbD idx else bitAt words idx := by
  unfold bitAt wordAt
  split_ifs with hLow
  · grind
  · rw [List.getD_eq_getElem?_getD, List.getElem?_set_ne (by omega), ← List.getD_eq_getElem?_getD]

theorem size_ofReal (size : Nat) (val : Int) : (ofReal size val).size_ = size := by
  unfold ofReal
  simp only
  split_ifs <;> rfl

/- The lowest word is the value, the others repeat its sign. -/
theorem value_ofReal {size idx : Nat} (h : idx < size) (val : Int) :
    (ofReal size val).value idx =
      if (if idx < 64 then (BitVec.ofInt 64 val).getLsbD idx
        else decide (val < 0)) then .one else .zero := by
  rcases bitAt_fill_zero h with ⟨hA, hB⟩
  have hInvert : bitAt (fill size .zero).invert.abits idx =
      true := by
    rw [bitAt_invert h, hA]
    rfl
  have hFilled : bitAt
      (if val < 0 then (fill size .zero).invert
        else fill size .zero).abits idx = decide (val < 0) := by grind
  have hBbit : bitAt (ofReal size val).bbits idx = false := by
    unfold ofReal
    simp only
    split_ifs <;> exact hB
  have hLength : 0 < (if val < 0 then (fill size .zero).invert
      else fill size .zero).abits.length := by
    rw [VvpVector4.abits_length]
    unfold wordCount
    split_ifs <;> omega
  have hAbit : bitAt (ofReal size val).abits idx =
      if idx < 64 then (BitVec.ofInt 64 val).getLsbD idx
      else decide (val < 0) := by
    rw [← hFilled]
    exact bitAt_set_zero hLength (BitVec.ofInt 64 val) idx
  rw [value_of_lt (by rw [size_ofReal]; exact h), hBbit, hAbit]
  cases (if idx < 64 then (BitVec.ofInt 64 val).getLsbD idx
    else decide (val < 0)) <;> rfl

theorem ofReal_zero_encodes (size : Nat) : (ofReal size 0).Encodes size 0 := by
  refine @encodes_of_testBit _ size 0 0 (size_ofReal size 0) (fun idx hIdx => ?_) (Int.ModEq.refl _)
  rw [value_ofReal hIdx]
  simp

theorem ofReal_one_encodes (size : Nat) : (ofReal size 1).Encodes size 1 := by
  refine @encodes_of_testBit _ size 1 1 (size_ofReal size 1) (fun idx hIdx => ?_) (Int.ModEq.refl _)
  rw [value_ofReal hIdx]
  have hWord : (BitVec.ofInt 64 1).getLsbD idx = Nat.testBit 1 idx := rfl
  rw [hWord]
  by_cases hLow : idx < 64
  · rw [if_pos hLow]
  · grind

theorem ofReal_neg_one_encodes (size : Nat) : (ofReal size (-1)).Encodes size (-1) := by
  refine @encodes_of_testBit _ size (2 ^ size - 1) (-1)
    (size_ofReal size (-1)) (fun idx hIdx => ?_) ?_
  · rw [value_ofReal hIdx, Nat.testBit_two_pow_sub_one, decide_eq_true hIdx]
    have hOnes : BitVec.ofInt 64 (-1) = BitVec.allOnes 64 := by decide
    rw [hOnes, BitVec.getLsbD_allOnes]
    by_cases hLow : idx < 64 <;> simp [hLow]
  · have hPos := Nat.two_pow_pos size
    push_cast [hPos]
    rw [Int.modEq_iff_dvd]
    exact ⟨-1, by ring⟩

end VvpVector4

/- The 32 bits are the vector, extended by its sign. -/
theorem vector2ToValue_signExtend {a : VvpVector2} (hPos : 0 < a.wid) (hSmall : a.wid ≤ 32) :
    (vector2ToValue a true).1 = (BitVec.ofNat a.wid a.number).signExtend 32 := by
  have hFold : ∀ n ≤ 32, ∀ off,
      ((List.range n).foldl (fun (val : BitVec 32) idx =>
        if a.value idx then val ||| 1#32 <<< idx else val)
          0#32).getLsbD off =
        (decide (off < n) && a.value off) := by
    intro n hn off
    induction n with
    | zero => simp
    | succ n ih =>
      rw [List.range_succ, List.foldl_append, List.foldl_cons, List.foldl_nil]
      have hPrev := ih (Nat.le_of_succ_le hn)
      have hBit : (1#32 <<< n).getLsbD off =
          decide (off = n) := by
        rw [← BitVec.twoPow_eq, BitVec.getLsbD_twoPow,
          decide_eq_true (by omega : n < 32), Bool.true_and, decide_eq_decide]
        exact eq_comm
      by_cases hSame : off = n
      · subst hSame
        split_ifs with hValue
        · rw [BitVec.getLsbD_or, hBit, hValue]
          simp
        · rw [hPrev, Bool.eq_false_iff.mpr hValue]
          simp
      · grind
  have hNumber : ∀ off, (BitVec.ofNat a.wid a.number).getLsbD off = a.value off := by
    intro off
    rw [BitVec.getLsbD_ofNat, VvpVector2.number_eq, Nat.testBit_mod_two_pow, VvpVector2.value_eq]
    cases decide (off < a.wid) <;> simp
  have hMsb : (BitVec.ofNat a.wid a.number).msb = a.value (a.wid - 1) := by
    rw [BitVec.msb_eq_getLsbD_last, hNumber]
  apply BitVec.eq_of_getLsbD_eq
  intro off hOff
  rw [BitVec.getLsbD_signExtend, hNumber, hMsb, decide_eq_true hOff]
  unfold vector2ToValue
  simp only [Bool.true_and, Nat.min_eq_left hSmall]
  by_cases hFull : a.wid < 32
  · rw [decide_eq_true hFull, Bool.true_and]
    by_cases hTop : a.value (a.wid - 1) = true
    · rw [if_pos hTop, BitVec.getLsbD_or, hFold _ hSmall,
        BitVec.getLsbD_shiftLeft, BitVec.getLsbD_allOnes]
      by_cases hIn : off < a.wid
      · simp [hIn]
      · simp [hIn, hTop]
        omega
    · rw [if_neg hTop, hFold _ hSmall]
      by_cases hIn : off < a.wid
      · simp [hIn]
      · simp [hTop]
  · grind

/- For narrow vectors the 32 bits hold the integer. -/
theorem vector2ToValue_integer {v : VvpVector4} (hPos : 0 < v.size_) (hSmall : v.size_ ≤ 32) :
    (vector2ToValue (.copyFromThat v) true).1.toInt = v.integer true := by
  have hWid : (VvpVector2.copyFromThat v).wid = v.size_ := rfl
  have hNumber : (VvpVector2.copyFromThat v).number = v.number := by
    rw [(VvpVector2.clean_copyFromThat v).number, VvpVector4.whole_copyFromThat]
  have hLt := v.number_lt
  have hHalf : 2 ^ v.size_ = 2 ^ (v.size_ - 1) * 2 := by rw [← pow_succ, Nat.sub_add_cancel hPos]
  have hTop := VvpVector4.topSet_iff hPos
  have hFits : (VvpVector2.copyFromThat v).wid ≤ 32 := hSmall
  rw [vector2ToValue_signExtend hPos hSmall, BitVec.toInt_signExtend_of_le hFits,
    BitVec.toInt_eq_toNat_cond, BitVec.toNat_ofNat, hNumber, hWid, Nat.mod_eq_of_lt hLt]
  unfold VvpVector4.integer
  rw [Bool.true_and]
  by_cases hNeg : v.topSet = true
  · grind
  · grind

end EpicSim

----
-- What Is Sent
----

namespace EpicSim

open VvpVector2

/- The top bit of a vector, as it is copied. -/
theorem VvpVector2.top_copyFromThat {v : VvpVector4} (hPos : 0 < v.size_) :
    (copyFromThat v).value (v.size_ - 1) = v.topSet := by
  have hIn : v.size_ - 1 < (copyFromThat v).wid := by
    change v.size_ - 1 < v.size_
    omega
  rw [value_eq, decide_eq_true hIn, testBit_copyFromThat]
  rfl

/- The lowest bit tells odd numbers from even ones. -/
theorem VvpVector2.odd_copyFromThat {v : VvpVector4} (hPos : 0 < v.size_) (signed : Bool) :
    (copyFromThat v).value 0 = true ↔
      ¬v.integer signed % 2 = 0 := by
  have hIn : 0 < (copyFromThat v).wid := hPos
  have hMod : (v.number : Int) % 2 = v.integer signed % 2 :=
    (v.number_modEq_integer signed).of_dvd (dvd_pow_self 2 (by omega))
  rw [value_eq, decide_eq_true hIn, Bool.true_and,
    VvpVector4.whole_copyFromThat, Nat.testBit_zero, decide_eq_true_iff]
  omega

/- The power of two vectors, modulo the width of the base. -/
theorem VvpVector2.pow_number {vala : VvpVector4} (hPos : 0 < vala.size_) (valb : VvpVector4) :
    ∃ res, pow (copyFromThat vala) (copyFromThat valb) = some res ∧
      res.wid = vala.size_ ∧
      (res.whole : Int) ≡ (vala.number : Int) ^ valb.number [ZMOD 2 ^ vala.size_] := by
  rcases pow_spec (copyFromThat vala) (copyFromThat valb) with ⟨res, hRes, hWid, hPow⟩
  refine ⟨res, hRes, hWid, ?_⟩
  have hWords := hPow hPos (clean_copyFromThat _)
  rw [VvpVector4.whole_copyFromThat, VvpVector4.whole_copyFromThat] at hWords
  have hNat : res.whole ≡ vala.number ^ valb.number [MOD 2 ^ vala.size_] :=
    hWords.of_dvd (Nat.pow_dvd_pow 2 (wordsFor_bounds vala.size_).1)
  have hCast := Int.natCast_modEq_iff.mpr hNat
  push_cast at hCast
  exact hCast

namespace VvpArith

/- The first operand as the functor takes it. -/
def base (arith : VvpArith) : Int :=
  arith.op_a.integer arith.signed_flag

/- The second operand as the functor takes it. -/
def exponent (arith : VvpArith) : Int :=
  arith.op_b.integer arith.signed_flag

/- What a power must send. -/
structure PowerRight (arith : VvpArith) (out : VvpVector4) : Prop where
  nonneg : 0 ≤ arith.exponent → out.Encodes arith.wid (arith.base ^ arith.exponent.toNat)
  zero : arith.exponent < 0 → arith.base = 0 → out.AllX arith.wid
  one : arith.exponent < 0 → arith.base = 1 → out.Encodes arith.wid 1
  neg_one : arith.exponent < 0 → arith.base = -1 →
    out.Encodes arith.wid (if arith.exponent % 2 = 0 then 1 else -1)
  other : arith.exponent < 0 → arith.base ≠ 0 →
    arith.base ≠ 1 → arith.base ≠ -1 → out.Encodes arith.wid 0

/-
  The powers that are lost: past 32 bits, a negative exponent
  of 0, 1 or -1.
-/
def PowerLost (arith : VvpArith) : Prop :=
  32 < arith.wid ∧ arith.exponent < 0 ∧ (arith.base = 0 ∨ arith.base = 1 ∨ arith.base = -1)

variable {wid : Nat} {signed_flag : Bool} {arith : VvpArith}

section

variable (hWid : 0 < wid) (hLive : Live wid signed_flag arith)

include hWid hLive

/- The test for a negative exponent. -/
theorem exponent_neg_iff :
    (arith.signed_flag &&
      (copyFromThat arith.op_b).value (arith.op_b.size_ - 1)) =
        decide (arith.exponent < 0) := by
  rcases hLive.wired with ⟨-, -, -, hSizeB, -⟩
  rw [top_copyFromThat (by omega), Bool.eq_iff_iff, decide_eq_true_iff]
  exact (VvpVector4.integer_neg_iff _ _).symm

/- Defined operands are converted as they are. -/
theorem powSend_of_defined (hA : arith.op_a.Defined) (hB : arith.op_b.Defined) :
    ofVector4 arith.op_a true = copyFromThat arith.op_a ∧
      ofVector4 arith.op_b true = copyFromThat arith.op_b ∧
      (copyFromThat arith.op_a).isNaN = false ∧
      (copyFromThat arith.op_b).isNaN = false := by
  rcases hLive.wired with ⟨-, -, hSizeA, hSizeB, -⟩
  have hConvA := VvpVector4.ofVector4_enabled (show 0 < arith.op_a.size_ by omega)
  have hConvB := VvpVector4.ofVector4_enabled (show 0 < arith.op_b.size_ by omega)
  refine ⟨hConvA.2 hA, hConvB.2 hB, ?_, ?_⟩
  · rw [← hConvA.2 hA, hConvA.1]
    simp [hA]
  · rw [← hConvB.2 hB, hConvB.1]
    simp [hB]

/- Exponents that are not negative. -/
theorem powSend_of_nonneg
    (hA : arith.op_a.Defined) (hB : arith.op_b.Defined) (hSign : 0 ≤ arith.exponent) :
    ∃ out, arith.powSend = some out ∧
      out.Encodes wid (arith.base ^ arith.exponent.toNat) := by
  rcases hLive.wired with ⟨hW, -, hSizeA, hSizeB, -⟩
  rcases powSend_of_defined hWid hLive hA hB with ⟨hConvA, hConvB, hNaNA, hNaNB⟩
  rcases @pow_number arith.op_a (by omega) arith.op_b with ⟨res, hRes, hWidA, hInt⟩
  rw [hSizeA] at hWidA hInt
  have hNeg := exponent_neg_iff hWid hLive
  rw [decide_eq_false (by omega)] at hNeg
  have hExponent : arith.op_b.number = arith.exponent.toNat := by
    have hIff := VvpVector4.integer_neg_iff arith.op_b arith.signed_flag
    have hPlain : arith.exponent = arith.op_b.number := by
      exact if_neg (fun h => absurd (hIff.mpr h) (by
        change ¬arith.exponent < 0
        omega))
    rw [hPlain]
    rfl
  have hSend : arith.powSend = some (res.toVector4 wid) := by
    unfold powSend
    simp only [hConvA, hConvB, hNaNA, hNaNB, Bool.or_self]
    rw [show (copyFromThat arith.op_b).wid = arith.op_b.size_ from rfl, hNeg]
    simp only [Bool.false_eq_true, if_false, hRes, Option.map_some, hW]
  refine ⟨_, hSend, ?_⟩
  have hBase : (arith.op_a.number : Int) ≡ arith.base [ZMOD 2 ^ wid] := by
    rw [← hSizeA]
    exact VvpVector4.number_modEq_integer _ _
  rw [← hExponent]
  rcases toVector4_spec res wid with ⟨hSize, hBits⟩
  refine VvpVector4.encodes_of_testBit hSize ?_ (hInt.trans (hBase.pow _))
  intro idx hIdx
  rw [hBits idx hIdx, value_eq, hWidA, decide_eq_true hIdx, Bool.true_and]

/- The lowest bit tells odd exponents from even ones. -/
theorem value_zero_iff :
    (copyFromThat arith.op_b).value 0 = true ↔
      ¬arith.exponent % 2 = 0 := by
  rcases hLive.wired with ⟨-, -, -, hSizeB, -⟩
  exact odd_copyFromThat (by omega) arith.signed_flag

end

theorem not_modEq_small (hWid : 0 < wid) {n : Int} (hSmall : n = 1 ∨ n = -1) :
    ¬0 ≡ n [ZMOD 2 ^ wid] := by
  intro hMod
  have hDvd : (2 : Int) ∣ 2 ^ wid := dvd_pow_self 2 (by omega)
  have hTwo : (0 : Int) % 2 = n % 2 := hMod.of_dvd hDvd
  omega

/- The table of results for negative exponents. -/
theorem powSend_of_neg (hWid : 0 < wid) (hLive : Live wid signed_flag arith)
    (hA : arith.op_a.Defined) (hB : arith.op_b.Defined) (hSign : arith.exponent < 0) :
    (32 < wid → ∃ out, arith.powSend = some out ∧ out.Encodes wid 0) ∧
    (wid ≤ 32 → ∃ out, arith.powSend = some out ∧
      PowerRight arith out) := by
  rcases hLive.wired with ⟨hW, -, hSizeA, hSizeB, hX⟩
  rcases powSend_of_defined hWid hLive hA hB with ⟨hConvA, hConvB, hNaNA, hNaNB⟩
  have hNeg := exponent_neg_iff hWid hLive
  rw [decide_eq_true hSign] at hNeg
  have hSend : arith.powSend =
      (if (vector2ToValue (copyFromThat arith.op_a) true).2 &&
          (vector2ToValue (copyFromThat arith.op_a) true).1 == 0#32 then some arith.x_val
      else some (VvpVector4.ofReal wid
        (if (vector2ToValue (copyFromThat arith.op_a) true).2 &&
            (vector2ToValue (copyFromThat arith.op_a) true).1 == BitVec.allOnes 32 then
          if (copyFromThat arith.op_b).value 0 then -1 else 1
        else if
          (vector2ToValue (copyFromThat arith.op_a) true).2 &&
            (vector2ToValue (copyFromThat arith.op_a) true).1 == 1#32 then 1 else 0))) := by
    unfold powSend
    simp only [hConvA, hConvB, hNaNA, hNaNB, Bool.or_self, Bool.false_eq_true, if_false]
    rw [show (copyFromThat arith.op_b).wid = arith.op_b.size_ from rfl, hNeg]
    simp only [if_true, hW]
  have hSmall : (vector2ToValue (copyFromThat arith.op_a) true).2 = decide (wid ≤ 32) := by
    rw [← hSizeA]
    rfl
  have hSigned : arith.signed_flag = true := by
    rw [Bool.and_eq_true] at hNeg
    exact hNeg.1
  rw [hSend, hSmall]
  constructor
  · intro hWide
    rw [decide_eq_false (by omega)]
    exact ⟨_, rfl, VvpVector4.ofReal_zero_encodes wid⟩
  · intro hNarrow
    rw [decide_eq_true hNarrow]
    simp only [Bool.true_and, beq_iff_eq]
    have hInt := vector2ToValue_integer
      (show 0 < arith.op_a.size_ by omega)
      (show arith.op_a.size_ ≤ 32 by omega)
    have hBase : arith.op_a.integer true = arith.base := by rw [base, hSigned]
    rw [hBase] at hInt
    have hIs : ∀ (word : BitVec 32) (n : Int), word.toInt = n →
        ((vector2ToValue (copyFromThat arith.op_a) true).1 = word ↔ arith.base = n) := by
      intro word n hWord
      rw [← BitVec.toInt_inj, hInt, hWord]
    simp only [hIs 0#32 0 (by decide), hIs 1#32 1 (by decide),
      hIs (BitVec.allOnes 32) (-1) (by decide)]
    have hParity := value_zero_iff hWid hLive
    by_cases hZero : arith.base = 0
    · rw [if_pos hZero]
      refine ⟨_, rfl, ?_⟩
      rw [← hW] at hX
      exact
        { nonneg := fun h => by omega
          zero := fun _ _ => hX
          one := fun _ h => by omega
          neg_one := fun _ h => by omega
          other := fun _ h => absurd hZero h }
    · rw [if_neg hZero]
      refine ⟨_, rfl, ?_⟩
      by_cases hMinus : arith.base = -1
      · rw [if_pos hMinus, ← hW]
        exact
          { nonneg := fun h => by omega
            zero := fun _ h => by omega
            one := fun _ h => by omega
            neg_one := fun _ _ => by
              by_cases hEven : arith.exponent % 2 = 0
              · have hBit : ¬(copyFromThat arith.op_b).value 0 =
                    true := fun h => hParity.mp h hEven
                rw [if_pos hEven, if_neg hBit]
                exact VvpVector4.ofReal_one_encodes _
              · rw [if_neg hEven, if_pos (hParity.mpr hEven)]
                exact VvpVector4.ofReal_neg_one_encodes _
            other := fun _ _ _ h => absurd hMinus h }
      · rw [if_neg hMinus, ← hW]
        by_cases hOne : arith.base = 1
        · rw [if_pos hOne]
          exact
            { nonneg := fun h => by omega
              zero := fun _ h => by omega
              one := fun _ _ => VvpVector4.ofReal_one_encodes _
              neg_one := fun _ h => by omega
              other := fun _ _ h => absurd hOne h }
        · rw [if_neg hOne]
          exact
            { nonneg := fun h => by omega
              zero := fun _ h => by omega
              one := fun _ h => absurd h hOne
              neg_one := fun _ h => absurd h hMinus
              other := fun _ _ _ _ => VvpVector4.ofReal_zero_encodes _ }

/- Zero bits are not what a lost power must send. -/
theorem not_right_of_lost (hWid : 0 < wid) (hLive : Live wid signed_flag arith)
    (hLost : arith.PowerLost) {out : VvpVector4} (hOut : out.Encodes wid 0) :
    ¬PowerRight arith out := by
  have hW := hLive.wired.1
  rcases hLost with ⟨-, hSign, hZero | hOne | hMinus⟩
  · intro hRight
    have hX := (hRight.zero hSign hZero).2 0 (by omega)
    have hBit := hOut.2 0 hWid
    rw [hX] at hBit
    split_ifs at hBit
  · intro hRight
    have hRes := hRight.one hSign hOne
    rw [hW] at hRes
    exact not_modEq_small hWid (Or.inl rfl) (VvpVector4.Encodes.modEq hOut hRes)
  · intro hRight
    have hRes := hRight.neg_one hSign hMinus
    rw [hW] at hRes
    refine not_modEq_small hWid ?_ (VvpVector4.Encodes.modEq hOut hRes)
    split_ifs
    · exact Or.inl rfl
    · exact Or.inr rfl

/-
  A power of defined operands is sent as it must be, except
  that past 32 bits a negative exponent makes 0, 1 and -1 all
  into 0.  The recursion ends for every exponent.
-/
theorem power_iff (hWid : 0 < wid) (hLive : Live wid signed_flag arith)
    {port : Nat} {bit : VvpVector4} (hBit : bit.size_ = wid) {arith' : VvpArith}
    (hPort : arith.dispatchOperand port bit = some arith')
    (hA : arith'.op_a.Defined) (hB : arith'.op_b.Defined) :
    (∃ out, arith.recvVec4 powSend port bit = some (arith', out) ∧
      (PowerRight arith' out ↔ ¬arith'.PowerLost)) ∧
    ∀ x y : VvpVector2, ∃ res, pow x y = some res := by
  have hLive' := Live.dispatch hLive hBit hPort
  have hW := hLive'.wired.1
  have hRecv : ∀ {out}, powSend arith' = some out →
      arith.recvVec4 powSend port bit = some (arith', out) := by
    intro out hSend
    rw [recvVec4, hPort, Option.bind_some, hSend]
    rfl
  refine ⟨?_, fun x y => ?_⟩
  · by_cases hSign : arith'.exponent < 0
    · have hTable := powSend_of_neg hWid hLive' hA hB hSign
      by_cases hWide : 32 < wid
      · rcases hTable.1 hWide with ⟨out, hOut, hZero⟩
        refine ⟨out, hRecv hOut, ?_⟩
        constructor
        · intro hRight hLost
          exact not_right_of_lost hWid hLive' hLost hZero hRight
        · intro hKept
          have hNot : ∀ n : Int, (n = 0 ∨ n = 1 ∨ n = -1) →
              arith'.base ≠ n := by
            intro n hn hSame
            refine hKept ⟨by omega, hSign, ?_⟩
            rw [hSame]
            exact hn
          rw [← hW] at hZero
          exact
            { nonneg := fun h => by omega
              zero := fun _ h => absurd h (hNot 0 (by simp))
              one := fun _ h => absurd h (hNot 1 (by simp))
              neg_one := fun _ h => absurd h (hNot (-1) (by simp))
              other := fun _ _ _ _ => hZero }
      · rcases hTable.2 (by omega) with ⟨out, hOut, hRight⟩
        refine ⟨out, hRecv hOut, fun _ hLost => ?_, fun _ => hRight⟩
        have hPast := hLost.1
        omega
    · rcases powSend_of_nonneg hWid hLive' hA hB (by omega) with ⟨out, hOut, hRight⟩
      refine ⟨out, hRecv hOut, fun _ hLost => hSign hLost.2.1, fun _ => ?_⟩
      rw [← hW] at hRight
      exact
        { nonneg := fun _ => hRight
          zero := fun h => absurd h hSign
          one := fun h => absurd h hSign
          neg_one := fun h => absurd h hSign
          other := fun h => absurd h hSign }
  · rcases pow_spec x y with ⟨res, hRes, -⟩
    exact ⟨res, hRes⟩

/- Three to the fifth is 243, in eight bits. -/
theorem power_iff_byte :
    ∃ arith' out,
      recvVec4 powSend
        { new 8 true with op_a := valueToVector4 8 3#64 } 1
        (valueToVector4 8 5#64) = some (arith', out) ∧
      out.Encodes 8 243 := by
  have hLive : Live 8 true
      { new 8 true with op_a := valueToVector4 8 3#64 } :=
    @Live.dispatch 8 true _ _ 0 (valueToVector4 8 3#64) Live.new (by decide) rfl
  rcases (@power_iff 8 true _ (by decide) hLive 1
      (valueToVector4 8 5#64) (by decide) _ rfl
      (by decide) (by decide)).1 with
    ⟨out, hOut, hIff⟩
  refine ⟨_, out, hOut, ?_⟩
  have hBase : (valueToVector4 8 3#64).integer true = 3 := by decide
  have hExponent :
      (valueToVector4 8 5#64).integer true = 5 := by
    decide
  have hRight : out.Encodes 8
      ((valueToVector4 8 3#64).integer true ^ ((valueToVector4 8 5#64).integer true).toNat) :=
    (hIff.mpr (fun hLost => absurd hLost.1 (by decide))).nonneg
      (le_of_le_of_eq (by decide) hExponent.symm)
  rw [hBase, hExponent] at hRight
  exact hRight

/- One to the power of minus one is sent as 0 in 33 bits. -/
theorem powSend_not_right :
    ¬ ∀ (wid : Nat) (signed_flag : Bool) (arith : VvpArith),
      0 < wid → Live wid signed_flag arith →
        arith.op_a.Defined → arith.op_b.Defined →
          ∃ out, arith.powSend = some out ∧
            PowerRight arith out := by
  intro h
  have hLive : Live 33 true
      { new 33 true with
        op_a := valueToVector4 33 1#64
        op_b := VvpVector4.fill 33 .one } :=
    @Live.dispatch 33 true _ _ 1 (VvpVector4.fill 33 .one)
      (@Live.dispatch 33 true _ _ 0 (valueToVector4 33 1#64) Live.new (by decide) rfl) rfl rfl
  have hA : (valueToVector4 33 1#64).Defined := by decide
  have hB : (VvpVector4.fill 33 .one).Defined := by decide
  have hBase : (valueToVector4 33 1#64).integer true = 1 := by decide
  have hExponent :
      (VvpVector4.fill 33 .one).integer true = -1 := by
    decide
  have hSign : (VvpVector4.fill 33 .one).integer true < 0 := by
    rw [hExponent]
    decide
  rcases h 33 true _ (by decide) hLive hA hB with ⟨out, hOut, hRight⟩
  rcases (powSend_of_neg (by decide) hLive hA hB hSign).1 (by decide) with ⟨out', hOut', hZero⟩
  rw [hOut] at hOut'
  injection hOut' with hSame
  subst hSame
  exact not_right_of_lost (by decide) hLive ⟨by decide, hSign, Or.inr (Or.inl hBase)⟩ hZero hRight

end VvpArith

end EpicSim
