import EpicSim.Vvp.Arith
import EpicSim.Vvp.PartOpcode
import EpicSim.Vvp.SetVec
import EpicSim.Vvp.Subarray

/-
  Index words of the threads, made of vectors, and the shifts
  by them, beside the shifts of the net functors.

  A vector of several words is an index if the words above the
  lowest one repeat its sign.  The highest word of a vector is
  filled up with zeros, so that no negative vector with a part
  of a word on top passes for an index.
-/

----
-- Threads
----

namespace EpicSim

open PackedWords VvpVector4

/- The loop of `vec4_to_index` over the words of a vector: the
   flag and the lowest word. -/
def indexLoop (signed_flag : Bool) (bits : List (BitVec 64)) (val_size : Nat) :
    Nat → Nat → BitVec 64 → VvpBit4 × BitVec 64
| 0, _, v => (.zero, v)
| rounds + 1, idx, v =>
  if idx < val_size then
    let tmp := wordAt bits (idx / 8 / 8)
    if idx < 64 then
      indexLoop signed_flag bits val_size rounds (idx + 64) (v ||| (tmp <<< idx))
    else
      let overflow :=
        if signed_flag && v >>> 63 != 0#64 then ~~~tmp != 0#64
        else tmp != 0#64
      if overflow then (.x, v)
      else
        indexLoop signed_flag bits val_size rounds (idx + 64) v
  else (.zero, v)

/- `vec4_to_index`: flag 4 and the index. -/
def vec4ToIndex (signed_flag : Bool) (val : VvpVector4) : VvpBit4 × BitVec 64 :=
  let val_size := val.size_
  match val.subarrayAt 0 val_size false with
  | none => (.one, 0#64)
  | some bits =>
    let (flag, v) := indexLoop signed_flag bits val_size val_size 0 0#64
    if val_size < 64 then
      if signed_flag &&
          v &&& (1#64 <<< (val_size - 1)) != 0#64 then
        (flag, v ||| (BitVec.allOnes 64 <<< val_size))
      else (flag, v &&& ~~~(BitVec.allOnes 64 <<< val_size))
    else (flag, v)

/- `of_SHIFTL`. -/
def ofShiftl (flag4 : VvpBit4) (shift : BitVec 64) (val : VvpVector4) : Option VvpVector4 :=
  let wid := val.size_
  if flag4 = .one then some (fill wid .x)
  else if flag4 = .x ∨ wid ≤ shift.toNat then
    some (fill wid .zero)
  else if 0 < shift.toNat then do
    let blk ← val.subvalue 0 (wid - shift.toNat)
    let low ← val.setVec 0 (fill shift.toNat .zero)
    let res ← low.1.setVec shift.toNat blk
    return res.1
  else some val

/- The right shifts, that fill with a bit. -/
def shiftrWith (pad flag4 : VvpBit4) (shift : BitVec 64) (val : VvpVector4) : Option VvpVector4 :=
  let wid := val.size_
  if flag4 = .one then some (fill wid .x)
  else if flag4 = .x ∨ wid < shift.toNat then some (fill wid pad)
  else if 0 < shift.toNat then do
    let blk ← val.subvalue shift.toNat (wid - shift.toNat)
    let low ← val.setVec 0 blk
    let res ← low.1.setVec (wid - shift.toNat)
      (fill shift.toNat pad)
    return res.1
  else some val

/- `of_SHIFTR`. -/
def ofShiftr (flag4 : VvpBit4) (shift : BitVec 64) (val : VvpVector4) : Option VvpVector4 :=
  shiftrWith .zero flag4 shift val

/- `of_SHIFTR_S`. -/
def ofShiftrS (flag4 : VvpBit4) (shift : BitVec 64) (val : VvpVector4) : Option VvpVector4 :=
  shiftrWith (val.value (val.size_ - 1)) flag4 shift val

end EpicSim

----
-- Net Functors
----

namespace EpicSim

open VvpVector4

/- One round of `vector4_to_value` that reports overflows. -/
def vector4ToValueFlagStep (vec : VvpVector4) (st : (BitVec 64 × BitVec 64) × Bool)
    (idx : Nat) : Option ((BitVec 64 × BitVec 64) × Bool) :=
  let ((res, msk), overflow_flag) := st
  match vec.value idx with
  | .zero => some ((res, msk <<< 1), overflow_flag)
  | .one =>
    if msk = 0#64 then some ((res, msk <<< 1), true)
    else some ((res ||| msk, msk <<< 1), overflow_flag)
  | _ => none

/- `vector4_to_value`: the value and whether bits are lost. -/
def vector4ToValueFlag (vec : VvpVector4) : Option (BitVec 64 × Bool) :=
  ((List.range vec.size_).foldlM (vector4ToValueFlagStep vec)
    ((0#64, 1#64), false)).map (fun st => (st.1.1, st.2))

/- The amount of a shift, none if it is unknown. -/
def shiftAmount (op_b : VvpVector4) (size : Nat) : Option Nat :=
  (vector4ToValueFlag op_b).map fun (shift, overflow_flag) =>
    if overflow_flag || decide (size < shift.toNat) then size
    else shift.toNat

/- What `vvp_shiftl::recv_vec4` sends. -/
def vvpShiftlSend (arith : VvpArith) : Option VvpVector4 :=
  let out := fill arith.op_a.size_ .x
  match shiftAmount arith.op_b out.size_ with
  | none => some arith.x_val
  | some shift =>
    let size := out.size_
    let out := setBitLoop out 0 shift (fun idx => idx) (fun _ => .zero)
    some (setBitLoop out shift size (fun idx => idx) (fun idx => arith.op_a.value (idx - shift)))

/- What `vvp_shiftr::recv_vec4` sends. -/
def vvpShiftrSend (arith : VvpArith) : Option VvpVector4 :=
  let out := fill arith.op_a.size_ .x
  match shiftAmount arith.op_b out.size_ with
  | none => some arith.x_val
  | some shift =>
    let size := out.size_
    let out := setBitLoop out shift size (fun idx => idx - shift)
      arith.op_a.value
    let pad :=
      if arith.signed_flag ∧ 0 < arith.op_a.size_ then
        arith.op_a.value (arith.op_a.size_ - 1)
      else .zero
    some (setBitLoop out 0 shift (fun idx => idx + size - shift) (fun _ => pad))

end EpicSim

----
-- Index Words
----

namespace EpicSim

open PackedWords VvpVector4 TwosComplement

/- A bit of a vector that is one. -/
def VvpVector4.oneBit (v : VvpVector4) (idx : Nat) : Bool :=
  decide (v.value idx = .one)

theorem low_oneBit (v : VvpVector4) (n : Nat) : low v.oneBit n = v.number % 2 ^ n := by
  have hBit : ∀ i, v.oneBit i = v.number.testBit i := fun i => (testBit_number v i).symm
  rw [low_congr (fun i _ => hBit i)]
  exact low_testBit _ _

/- The integer of a vector, as a sequence of bits. -/
theorem integer_eq_value {v : VvpVector4} (hPos : 0 < v.size_) (signed : Bool) :
    v.integer signed = TwosComplement.value signed v.size_ v.oneBit := by
  have hSign : sign signed v.size_ v.oneBit = (signed && v.topSet) := by
    unfold sign
    rw [decide_eq_true hPos]
    rfl
  unfold VvpVector4.integer TwosComplement.value
  rw [hSign, low_oneBit, Nat.mod_eq_of_lt v.number_lt]

/- The test of a word above the lowest one. -/
def overflowAt (signed_flag : Bool) (v tmp : BitVec 64) : Bool :=
  if signed_flag && v >>> 63 != 0#64 then ~~~tmp != 0#64
  else tmp != 0#64

/- All words from one on pass for the sign. -/
def NoOverflow (signed_flag : Bool) (bits : List (BitVec 64)) (val_size : Nat) (v : BitVec 64)
    (k : Nat) : Prop :=
  ∀ i, k ≤ i → 64 * i < val_size → overflowAt signed_flag v (wordAt bits i) = false

/- The rounds above the lowest word find an overflow or end. -/
theorem indexLoop_rest (signed_flag : Bool) (bits : List (BitVec 64))
    (val_size : Nat) (v : BitVec 64) (rounds k : Nat) (hFirst : 1 ≤ k)
    (hRounds : val_size ≤ 64 * (k + rounds)) :
    (NoOverflow signed_flag bits val_size v k ∧
      indexLoop signed_flag bits val_size rounds (64 * k) v = (.zero, v)) ∨
    (¬NoOverflow signed_flag bits val_size v k ∧
      indexLoop signed_flag bits val_size rounds (64 * k) v = (.x, v)) := by
  induction rounds generalizing k with
  | zero =>
    refine Or.inl ⟨fun i hi hLt => ?_, rfl⟩
    omega
  | succ rounds ih =>
    have hWord : 64 * k / 8 / 8 = k := by omega
    have hNext : 64 * k + 64 = 64 * (k + 1) := by omega
    rw [indexLoop]
    by_cases hMore : 64 * k < val_size
    · rw [if_pos hMore]
      rw [if_neg (by omega), hWord]
      by_cases hOver : overflowAt signed_flag v (wordAt bits k) = true
      · refine Or.inr ⟨fun h => ?_, if_pos hOver⟩
        rw [h k (Nat.le_refl k) hMore] at hOver
        cases hOver
      · have hIff : NoOverflow signed_flag bits val_size v
            (k + 1) ↔
              NoOverflow signed_flag bits val_size v k := by
          constructor
          · intro h i hi hLt
            rcases Nat.lt_or_eq_of_le hi with hAbove | hSame
            · exact h i hAbove hLt
            · grind
          · exact fun h i hi => h i (by omega)
        rw [← hIff]
        rcases ih (k + 1) (by omega) (by omega) with ⟨hNone, hRest⟩ | ⟨hSome, hRest⟩
        · exact Or.inl ⟨hNone, (if_neg hOver).trans hRest⟩
        · exact Or.inr ⟨hSome, (if_neg hOver).trans hRest⟩
    · rw [if_neg hMore]
      refine Or.inl ⟨fun i hi hLt => ?_, rfl⟩
      omega

theorem overflowAt_false_iff (signed_flag : Bool) (v tmp : BitVec 64) :
    overflowAt signed_flag v tmp = false ↔
      ∀ off < 64, tmp.getLsbD off = (signed_flag && v.getLsbD 63) := by
  have hTop : (v >>> 63 != 0#64) = v.getLsbD 63 := by
    rw [Bool.eq_iff_iff, bne_iff_ne, ne_eq, word_eq_zero_iff]
    constructor
    · grind
    · intro hBit h
      have hZero := h 0 (by decide)
      rw [BitVec.getLsbD_ushiftRight, hBit] at hZero
      cases hZero
  unfold overflowAt
  rw [hTop]
  cases signed_flag && v.getLsbD 63 with
  | true =>
    rw [if_pos rfl, bne_eq_false_iff_eq, word_eq_zero_iff]
    refine forall_congr' fun off => forall_congr' fun hOff => ?_
    rw [BitVec.getLsbD_not, decide_eq_true hOff, Bool.true_and, Bool.not_eq_false']
  | false => rw [if_neg Bool.false_ne_true, bne_eq_false_iff_eq, word_eq_zero_iff]

end EpicSim

----
-- What An Index Is
----

namespace EpicSim

open PackedWords VvpVector4 TwosComplement

theorem value_neg_iff (signed : Bool) (len : Nat) (b : Nat → Bool) :
    TwosComplement.value signed len b < 0 ↔
      sign signed len b = true := by
  have hLt := low_lt b len
  have hCast := cast_two_pow len
  unfold TwosComplement.value
  cases sign signed len b with
  | false => simp
  | true => grind

/- Words that hold the bits of a two-state vector. -/
def HoldBits (bits : List (BitVec 64)) (v : VvpVector4) : Prop :=
  ∀ idx, bitAt bits idx = (decide (idx < v.size_) && v.oneBit idx)

/- What `subarray` gives for a whole vector. -/
theorem subarray_whole {v : VvpVector4} (hPos : 0 < v.size_) (hAllocated : v.Allocated) :
    (¬v.Defined → v.subarrayAt 0 v.size_ false = none) ∧
      (v.Defined → ∃ bits,
        v.subarrayAt 0 v.size_ false = some bits ∧
          HoldBits bits v) := by
  have hRight := @arraysRight v hAllocated 0 v.size_ hPos (by omega)
  have hXz : (∃ idx < v.size_, (v.value (0 + idx)).isXz = true) ↔
      ¬v.Defined := by
    unfold VvpVector4.Defined
    constructor
    · rintro ⟨idx, hIdx, hBit⟩ hDefined
      rw [Nat.zero_add] at hBit
      rcases hDefined idx hIdx with hZero | hOne
      · rw [hZero] at hBit
        cases hBit
      · rw [hOne] at hBit
        cases hBit
    · intro hNot
      push Not at hNot
      rcases hNot with ⟨idx, hIdx, hZero, hOne⟩
      refine ⟨idx, hIdx, ?_⟩
      rw [Nat.zero_add]
      cases hBit : v.value idx with
      | zero => exact absurd hBit hZero
      | one => exact absurd hBit hOne
      | x => rfl
      | z => rfl
  refine ⟨fun hNot => hRight.1.mpr (hXz.mpr hNot), fun hDefined => ?_⟩
  cases hSome : v.subarrayAt 0 v.size_ false with
  | none => exact absurd hDefined (hXz.mp (hRight.1.mp hSome))
  | some bits =>
    refine ⟨bits, rfl, fun idx => ?_⟩
    rw [(hRight.2 bits hSome).2.1 idx, Nat.zero_add]
    unfold VvpVector4.oneBit
    rw [Bool.decide_and]

/- The lowest word, filled up by the sign, is the index. -/
theorem index_word {v : VvpVector4} {bits : List (BitVec 64)}
    (hPos : 0 < v.size_) (hBits : HoldBits bits v) (signed : Bool) :
    (if v.size_ < 64 then
      if signed && wordAt bits 0 &&&
          (1#64 <<< (v.size_ - 1)) != 0#64 then
        wordAt bits 0 ||| (BitVec.allOnes 64 <<< v.size_)
      else wordAt bits 0 &&& ~~~(BitVec.allOnes 64 <<< v.size_)
    else wordAt bits 0) =
      BitVec.ofInt 64 (v.integer signed) := by
  have hWord : ∀ j < 64, (wordAt bits 0).getLsbD j = (decide (j < v.size_) && v.oneBit j) := by
    intro j hj
    rw [← hBits j, ← bitAt_word bits 0 hj, Nat.zero_add]
  rw [integer_eq_value hPos]
  refine eq_ofInt_of_bits (fun j hj => ?_)
  by_cases hShort : v.size_ < 64
  · rw [if_pos hShort]
    have hSign : (signed && wordAt bits 0 &&&
        (1#64 <<< (v.size_ - 1)) != 0#64) = sign signed v.size_ v.oneBit := by
      have hTest : (wordAt bits 0 &&&
          (1#64 <<< (v.size_ - 1)) != 0#64) = v.oneBit (v.size_ - 1) := by
        have hTop := hWord (v.size_ - 1) (by omega)
        rw [decide_eq_true (by omega), Bool.true_and] at hTop
        rw [← hTop, Bool.eq_iff_iff, bne_iff_ne, ne_eq, word_eq_zero_iff]
        constructor
        · grind
        · grind
      rw [hTest]
      unfold sign
      rw [decide_eq_true hPos, Bool.true_and]
    rw [hSign]
    have hFill : ((BitVec.allOnes 64) <<< v.size_).getLsbD j = !decide (j < v.size_) := by
      rw [BitVec.getLsbD_shiftLeft, BitVec.getLsbD_allOnes, decide_eq_true hj,
        decide_eq_true (show j - v.size_ < 64 by omega), Bool.true_and, Bool.and_true]
    cases hNeg : sign signed v.size_ v.oneBit with
    | true =>
      rw [if_pos rfl, BitVec.getLsbD_or, hWord j hj, hFill]
      by_cases hIn : j < v.size_
      · rw [extended_of_lt hIn, decide_eq_true hIn]
        simp
      · rw [extended_of_le (Nat.not_lt.mp hIn), hNeg, decide_eq_false hIn]
        rfl
    | false =>
      rw [if_neg Bool.false_ne_true, BitVec.getLsbD_and,
        BitVec.getLsbD_not, hWord j hj, hFill, decide_eq_true hj]
      by_cases hIn : j < v.size_
      · rw [extended_of_lt hIn, decide_eq_true hIn]
        simp
      · rw [extended_of_le (Nat.not_lt.mp hIn), hNeg, decide_eq_false hIn]
        rfl
  · rw [if_neg hShort, hWord j hj, extended_of_lt (by omega),
      decide_eq_true (show j < v.size_ by omega), Bool.true_and]

/- Where the loop over the higher words finds no overflow. -/
theorem noOverflow_iff {v : VvpVector4} {bits : List (BitVec 64)}
    (hLong : 64 < v.size_) (hBits : HoldBits bits v) (signed : Bool) :
    NoOverflow signed bits v.size_ (wordAt bits 0) 1 ↔
      Fits signed 64 (v.integer signed) ∧
        (v.size_ % 64 = 0 ∨ 0 ≤ v.integer signed) := by
  have hPos : 0 < v.size_ := by omega
  rw [integer_eq_value hPos]
  have hTop : (wordAt bits 0).getLsbD 63 = v.oneBit 63 := by
    rw [← bitAt_word bits 0 (by decide), hBits, decide_eq_true (by omega), Bool.true_and]
  have hWords : NoOverflow signed bits v.size_ (wordAt bits 0) 1 ↔
      ∀ j, 64 ≤ j → 64 * (j / 64) < v.size_ →
        bitAt bits j = (signed && v.oneBit 63) := by
    unfold NoOverflow
    simp only [overflowAt_false_iff, hTop]
    constructor
    · intro h j hj hLt
      have hOff := h (j / 64) (by omega) hLt (j % 64) (Nat.mod_lt _ (by decide))
      exact hOff
    · intro h i hi hLt off hOff
      rw [← bitAt_word _ _ hOff]
      exact h (64 * i + off) (by omega) (by omega)
  have hSign : sign signed 64 (extended signed v.size_ v.oneBit) = (signed && v.oneBit 63) := by
    unfold sign
    rw [extended_of_lt (by omega)]
    rfl
  have hFits := @fits_iff_extended signed v.size_ 64 v.oneBit
  rw [hSign] at hFits
  have hNeg : Fits signed 64
      (TwosComplement.value signed v.size_ v.oneBit) →
        (TwosComplement.value signed v.size_ v.oneBit < 0 ↔
          (signed && v.oneBit 63) = true) := by
    intro h
    have hValue : TwosComplement.value signed 64
        (extended signed v.size_ v.oneBit) = TwosComplement.value signed v.size_ v.oneBit :=
      (value_eq_iff (low_extended_modEq signed v.size_ v.oneBit 64)).mpr h
    rw [← hValue, value_neg_iff, hSign]
  have hLast : sign signed v.size_ v.oneBit = (signed && v.oneBit (v.size_ - 1)) := by
    unfold sign
    rw [decide_eq_true hPos, Bool.true_and]
  rw [hWords]
  cases hC : (signed && v.oneBit 63) with
  | false =>
    rw [hC] at hFits hNeg
    constructor
    · intro h
      have hAll : Fits signed 64 (TwosComplement.value signed v.size_ v.oneBit) := by
        refine hFits.mpr (fun j hj => ?_)
        have hIn : ∀ j, 64 ≤ j → j < v.size_ →
            v.oneBit j = false := by
          intro j hj hLt
          have hBit := h j hj (by omega)
          rwa [hBits, decide_eq_true hLt, Bool.true_and] at hBit
        by_cases hLt : j < v.size_
        · rw [extended_of_lt hLt]
          exact hIn j hj hLt
        · rw [extended_of_le (Nat.not_lt.mp hLt), hLast,
            hIn _ (by omega) (by omega), Bool.and_false]
      refine ⟨hAll, Or.inr (Int.not_lt.mp (fun hLt => ?_))⟩
      exact Bool.false_ne_true ((hNeg hAll).mp hLt)
    · rintro ⟨hAll, _⟩ j hj _
      rw [hBits]
      by_cases hLt : j < v.size_
      · have hBit := hFits.mp hAll j hj
        rw [extended_of_lt hLt] at hBit
        rw [hBit, Bool.and_false]
      · rw [decide_eq_false hLt, Bool.false_and]
  | true =>
    rw [hC] at hFits hNeg
    have hSigned : signed = true := (Bool.and_eq_true_iff.mp hC).1
    constructor
    · intro h
      have hIn : ∀ j, 64 ≤ j → j < v.size_ →
          v.oneBit j = true := by
        intro j hj hLt
        have hBit := h j hj (by omega)
        rwa [hBits, decide_eq_true hLt, Bool.true_and] at hBit
      refine ⟨hFits.mpr (fun j hj => ?_), Or.inl ?_⟩
      · by_cases hLt : j < v.size_
        · rw [extended_of_lt hLt]
          exact hIn j hj hLt
        · rw [extended_of_le (Nat.not_lt.mp hLt), hLast, hIn _ (by omega) (by omega), hSigned]
          rfl
      · by_contra hPart
        have hBit := h v.size_ (by omega) (by omega)
        rw [hBits, decide_eq_false (Nat.lt_irrefl _)] at hBit
        cases hBit
    · rintro ⟨hAll, hWhole | hNonneg⟩ j hj hLt
      · have hIn : j < v.size_ := by omega
        have hBit := hFits.mp hAll j hj
        rw [extended_of_lt hIn] at hBit
        rw [hBits, decide_eq_true hIn, Bool.true_and, hBit]
      · have hLess := (hNeg hAll).mpr rfl
        omega

end EpicSim

----
-- The Index And Its Flag
----

namespace EpicSim

open PackedWords VvpVector4 TwosComplement

/- The integer of an index word. -/
def indexInteger (signed : Bool) (word : BitVec 64) : Int :=
  TwosComplement.value signed 64 word.getLsbD

/- Flag 4 tells what the index is worth, and an index that is
   worth something is the value of the vector. -/
def IndexRight (signed : Bool) (v : VvpVector4) : Prop :=
  ((vec4ToIndex signed v).1 = .one ↔ ¬v.Defined) ∧
    (v.Defined →
      ((vec4ToIndex signed v).1 = .x ↔ ¬Fits signed 64 (v.integer signed)) ∧
      (Fits signed 64 (v.integer signed) →
        (vec4ToIndex signed v).1 = .zero ∧
          indexInteger signed (vec4ToIndex signed v).2 = v.integer signed))

/- When the index is right: unless the value is a negative one
   that 64 bits hold, in a vector with a part of a word on
   top of others. -/
def IndexHolds (signed : Bool) (v : VvpVector4) : Prop :=
  signed = false ∨ v.size_ ≤ 64 ∨ v.size_ % 64 = 0 ∨
    ¬v.Defined ∨ 0 ≤ v.integer signed ∨ v.integer signed < -2 ^ 63

/- What the loop lets pass for an index. -/
def PassesIndex (signed : Bool) (v : VvpVector4) : Prop :=
  Fits signed 64 (v.integer signed) ∧ (v.size_ ≤ 64 ∨ v.size_ % 64 = 0 ∨ 0 ≤ v.integer signed)

theorem vec4ToIndex_spec {v : VvpVector4} (hPos : 0 < v.size_) (hAllocated : v.Allocated)
    (signed : Bool) :
    (¬v.Defined → vec4ToIndex signed v = (.one, 0#64)) ∧
      (v.Defined → ∃ flag,
        vec4ToIndex signed v = (flag, BitVec.ofInt 64 (v.integer signed)) ∧
        (flag = .zero ∧ PassesIndex signed v ∨
          flag = .x ∧ ¬PassesIndex signed v)) := by
  rcases subarray_whole hPos hAllocated with ⟨hNone, hSome⟩
  constructor
  · intro hNot
    unfold vec4ToIndex
    simp only [hNone hNot]
  · intro hDefined
    rcases hSome hDefined with ⟨bits, hBits, hHold⟩
    have hLoop : indexLoop signed bits v.size_ v.size_ 0 0#64 =
        indexLoop signed bits v.size_ (v.size_ - 1) (64 * 1) (wordAt bits 0) := by
      obtain ⟨rounds, hRounds⟩ := Nat.exists_eq_succ_of_ne_zero (Nat.ne_of_gt hPos)
      rw [hRounds, indexLoop]
      simp
    have hWord := index_word hPos hHold signed
    have hGives : ∀ flag,
        indexLoop signed bits v.size_ v.size_ 0 0#64 = (flag, wordAt bits 0) →
        vec4ToIndex signed v = (flag, BitVec.ofInt 64 (v.integer signed)) := by
      intro flag hFlag
      rw [← hWord]
      unfold vec4ToIndex
      simp only [hBits, hFlag]
      split_ifs <;> rfl
    have hRest := indexLoop_rest signed bits v.size_
      (wordAt bits 0) (v.size_ - 1) 1 (Nat.le_refl 1) (by omega)
    rw [← hLoop] at hRest
    have hPasses : NoOverflow signed bits v.size_ (wordAt bits 0) 1 ↔ PassesIndex signed v := by
      unfold PassesIndex
      by_cases hLong : 64 < v.size_
      · rw [noOverflow_iff hLong hHold signed]
        have hNot : ¬v.size_ ≤ 64 := by omega
        simp [hNot]
      · refine iff_of_true (fun i hi hLt => by omega) ⟨?_, ?_⟩
        · rw [integer_eq_value hPos]
          exact (value_fits signed v.size_ v.oneBit).mono (by omega)
        · exact Or.inl (by omega)
    grind

/- A value that fits a word is the integer of its word. -/
theorem indexInteger_ofInt {signed : Bool} {n : Int} (hFits : Fits signed 64 n) :
    indexInteger signed (BitVec.ofInt 64 n) = n := by
  refine (value_eq_iff ?_).mpr hFits
  rw [low_getLsbD, BitVec.toNat_ofInt]
  have hPos : (0 : Int) ≤ n % ((2 ^ 64 : Nat) : Int) := Int.emod_nonneg _ (by decide)
  rw [Int.toNat_of_nonneg hPos]
  exact Int.mod_modEq n _

theorem integer_unsigned (v : VvpVector4) : v.integer false = v.number := rfl

theorem indexRight_iff {v : VvpVector4} (hPos : 0 < v.size_) (hAllocated : v.Allocated)
    (signed : Bool) : IndexRight signed v ↔ IndexHolds signed v := by
  rcases vec4ToIndex_spec hPos hAllocated signed with ⟨hUnknown, hKnown⟩
  unfold IndexRight IndexHolds
  by_cases hDefined : v.Defined
  · rcases hKnown hDefined with ⟨flag, hIndex, hFlag⟩
    have hUnsigned : signed = false → 0 ≤ v.integer signed := by
      intro hSame
      rw [hSame]
      exact Int.natCast_nonneg _
    have hFitsIff : Fits signed 64 (v.integer signed) →
        signed = true → -2 ^ 63 ≤ v.integer signed := by
      intro hFits hSame
      rw [hSame] at hFits ⊢
      unfold Fits at hFits
      rw [if_pos rfl] at hFits
      omega
    rw [hIndex]
    rcases hFlag with ⟨hZero, hFits, hCond⟩ | ⟨hX, hFail⟩
    · subst hZero
      refine iff_of_true ⟨?_, fun _ => ⟨?_, fun _ => ⟨rfl, ?_⟩⟩⟩ ?_
      · exact ⟨(fun h => by cases h), fun h => absurd hDefined h⟩
      · exact ⟨(fun h => by cases h), fun h => absurd hFits h⟩
      · exact indexInteger_ofInt hFits
      · omega
    · subst hX
      by_cases hFits : Fits signed 64 (v.integer signed)
      · have hCond : ¬(v.size_ ≤ 64 ∨ v.size_ % 64 = 0 ∨
            0 ≤ v.integer signed) := fun h => hFail ⟨hFits, h⟩
        refine iff_of_false ?_ ?_
        · grind
        · grind
      · refine iff_of_true ⟨?_, fun _ => ⟨?_, ?_⟩⟩ ?_
        · exact ⟨(fun h => by cases h), fun h => absurd hDefined h⟩
        · exact ⟨fun _ => hFits, fun _ => rfl⟩
        · exact fun h => absurd h hFits
        · by_cases hNonneg : 0 ≤ v.integer signed
          · exact Or.inr (Or.inr (Or.inr (Or.inr (Or.inl hNonneg))))
          · cases hSame : signed with
            | false => exact Or.inl rfl
            | true =>
              rw [hSame] at hFits hNonneg
              unfold Fits at hFits
              rw [if_pos rfl] at hFits
              omega
  · grind

/- An unsigned index is the number, if a word holds it. -/
theorem index_unsigned {v : VvpVector4} (hPos : 0 < v.size_) (hAllocated : v.Allocated)
    (hDefined : v.Defined) :
    (vec4ToIndex false v).1 = .zero ∧ v.number < 2 ^ 64 ∧ (vec4ToIndex false v).2.toNat = v.number ∨
      (vec4ToIndex false v).1 = .x ∧ 2 ^ 64 ≤ v.number := by
  rcases (vec4ToIndex_spec hPos hAllocated false).2 hDefined with ⟨flag, hIndex, hFlag⟩
  have hPasses : PassesIndex false v ↔ v.number < 2 ^ 64 := by
    unfold PassesIndex Fits
    rw [integer_unsigned, if_neg Bool.false_ne_true]
    omega
  rw [hIndex, integer_unsigned]
  rcases hFlag with ⟨hZero, hPass⟩ | ⟨hX, hFail⟩
  · grind
  · grind

end EpicSim

----
-- Amounts Of The Functors
----

namespace EpicSim

open PackedWords VvpVector4

/- The mask of a round is shifted out after 64 of them. -/
theorem one_shift_eq_zero_iff (n : Nat) : 1#64 <<< n = 0#64 ↔ 64 ≤ n := by
  rw [word_eq_zero_iff]
  constructor
  · grind
  · grind

/- The rounds keep the low ones and report the others. -/
theorem vector4ToValueFlagStep_fold {vec : VvpVector4} (hDefined : vec.Defined) {n : Nat}
    (hSize : n ≤ vec.size_) :
    ∃ res overflow_flag,
      (List.range n).foldlM (vector4ToValueFlagStep vec) ((0#64, 1#64), false) =
        some ((res, 1#64 <<< n), overflow_flag) ∧
      (∀ off < 64, res.getLsbD off = (decide (off < n) && vec.number.testBit off)) ∧
      (overflow_flag = true ↔
        ∃ idx < n, 64 ≤ idx ∧ vec.number.testBit idx = true) := by
  induction n with
  | zero => simp
  | succ n ih =>
    rcases ih (by omega) with ⟨res, flag, hRes, hBits, hFlag⟩
    have hMask : (1#64 <<< n) <<< 1 = 1#64 <<< (n + 1) := (BitVec.shiftLeft_add _ _ _).symm
    have hKeep : ∀ bit : Bool, vec.number.testBit n = bit →
        (n < 64 → bit = false) →
        ∀ off < 64, res.getLsbD off = (decide (off < n + 1) && vec.number.testBit off) := by grind
    have hMore : ∀ P : Prop,
        (P ↔ (flag = true ∨ (64 ≤ n ∧ vec.number.testBit n = true))) →
        (P ↔ ∃ idx < n + 1, 64 ≤ idx ∧
          vec.number.testBit idx = true) := by
      intro P hP
      rw [hP, hFlag]
      constructor
      · rintro (⟨idx, hIdx, hHigh⟩ | hHigh)
        · exact ⟨idx, by omega, hHigh⟩
        · exact ⟨n, Nat.lt_succ_self n, hHigh⟩
      · rintro ⟨idx, hIdx, hHigh⟩
        rcases Nat.lt_or_eq_of_le (Nat.le_of_lt_succ hIdx) with hBelow | hSame
        · exact Or.inl ⟨idx, hBelow, hHigh⟩
        · exact Or.inr (hSame ▸ hHigh)
    rw [List.range_succ, List.foldlM_append, hRes]
    simp only [List.foldlM_cons,
      vector4ToValueFlagStep, Option.bind_eq_bind, Option.bind_some]
    have hBit := testBit_number vec n
    rcases hDefined n (by omega) with hZero | hOne
    · rw [hZero] at hBit ⊢
      refine ⟨res, flag, by rw [hMask]; rfl, hKeep false hBit (fun _ => rfl), hMore _ ?_⟩
      rw [hBit]
      simp
    · rw [hOne] at hBit ⊢
      by_cases hHigh : 64 ≤ n
      · refine ⟨res, true, ?_, hKeep true hBit (fun hLt => by omega), hMore _ ?_⟩
        · rw [if_pos ((one_shift_eq_zero_iff n).mpr hHigh), hMask]
          rfl
        · exact iff_of_true rfl (Or.inr ⟨hHigh, hBit⟩)
      · refine ⟨res ||| 1#64 <<< n, flag, ?_, ?_, hMore _ ?_⟩
        · rw [if_neg (fun h =>
            hHigh ((one_shift_eq_zero_iff n).mp h)), hMask]
          rfl
        · intro off hOff
          rw [BitVec.getLsbD_or, hBits off hOff, getLsbD_one_shift]
          by_cases hSame : off = n
          · rw [hSame, hBit, decide_eq_true (by omega : n < 64)]
            simp
          · rw [decide_eq_false hSame, Bool.and_false, Bool.or_false]
            congr 1
            rw [decide_eq_decide]
            omega
        · simp [hHigh]

/- The amount is the number, but no more than the width. -/
theorem shiftAmount_of_defined {op_b : VvpVector4} (hDefined : op_b.Defined) {size : Nat}
    (hSize : size < 2 ^ 64) : shiftAmount op_b size = some (min size op_b.number) := by
  rcases vector4ToValueFlagStep_fold hDefined (Nat.le_refl _) with ⟨res, flag, hRes, hBits, hFlag⟩
  have hNumber : res.toNat = op_b.number % 2 ^ 64 := by
    apply Nat.eq_of_testBit_eq
    intro off
    rw [BitVec.testBit_toNat, Nat.testBit_mod_two_pow]
    by_cases hOff : off < 64
    · rw [hBits off hOff, decide_eq_true hOff]
      by_cases hIn : off < op_b.size_
      · rw [decide_eq_true hIn]
      · rw [decide_eq_false hIn]
        exact (Nat.testBit_lt_two_pow (Nat.lt_of_lt_of_le
          op_b.number_lt (Nat.pow_le_pow_right (by decide) (Nat.not_lt.mp hIn)))).symm
    · grind
  have hOver : flag = true ↔ 2 ^ 64 ≤ op_b.number := by
    rw [hFlag]
    constructor
    · rintro ⟨idx, _, hHigh, hBit⟩
      exact Nat.le_trans (Nat.pow_le_pow_right (by decide) hHigh) (Nat.ge_two_pow_of_testBit hBit)
    · intro hLe
      rcases Nat.exists_ge_and_testBit_of_ge_two_pow hLe with ⟨idx, hHigh, hBit⟩
      refine ⟨idx, ?_, hHigh, hBit⟩
      by_contra hOut
      rw [Nat.testBit_lt_two_pow (Nat.lt_of_lt_of_le
        op_b.number_lt (Nat.pow_le_pow_right (by decide) (Nat.not_lt.mp hOut)))] at hBit
      cases hBit
  unfold shiftAmount vector4ToValueFlag
  rw [hRes]
  simp only [Option.map_some, Option.some.injEq]
  by_cases hHigh : 2 ^ 64 ≤ op_b.number
  · rw [hOver.mpr hHigh, Bool.true_or, if_pos rfl]
    omega
  · grind

theorem shiftAmount_of_not_defined {op_b : VvpVector4} (hDefined : ¬op_b.Defined) (size : Nat) :
    shiftAmount op_b size = none := by
  have hNone : (List.range op_b.size_).foldlM
      (vector4ToValueFlagStep op_b) ((0#64, 1#64), false) =
        none := by
    refine foldlM_unknown (fun st bad hZero hOne => ?_) hDefined _
    unfold vector4ToValueFlagStep
    simp
  unfold shiftAmount vector4ToValueFlag
  rw [hNone]
  rfl

end EpicSim

----
-- Moving Bits
----

namespace EpicSim

open PackedWords VvpVector4

/- A vector of no bits is written anywhere at the start. -/
theorem setVec_empty {v that : VvpVector4} (hEmpty : that.size_ = 0) :
    ∃ diff_flag, v.setVec 0 that = some (v, diff_flag) := by
  have hMask : rangeMask 0 0 = 0#64 := by decide
  have hStore : ∀ words : List (BitVec 64),
      storeMasked words 0 0#64 0#64 = (words, false) := by
    intro words
    unfold storeMasked
    rw [BitVec.and_zero, if_neg (not_not.mpr rfl)]
  have hWords : ∀ words tmp : List (BitVec 64),
      setWords v.size_ 0 0 tmp words = (words, false) := by
    intro words tmp
    unfold setWords setInWord setFromWord
    simp [hMask, hStore]
  refine ⟨false, ?_⟩
  unfold VvpVector4.setVec
  simp [hEmpty, hWords]

end EpicSim

----
-- What A Shift Is
----

namespace EpicSim

open PackedWords VvpVector4

/- A vector of so many bits, given one by one. -/
def GivesBits (res : Option VvpVector4) (wid : Nat) (bit : Nat → VvpBit4) : Prop :=
  ∃ out, res = some out ∧ out.size_ = wid ∧ ∀ idx < wid, out.value idx = bit idx

/- A bit of a vector that is moved up. -/
def shiftlBit (val : VvpVector4) (amount idx : Nat) : VvpBit4 :=
  if idx < amount then .zero else val.value (idx - amount)

/- A bit of a vector that is moved down. -/
def shiftrBit (pad : VvpBit4) (val : VvpVector4) (amount idx : Nat) : VvpBit4 :=
  if idx + amount < val.size_ then val.value (idx + amount)
  else pad

/- What a right shift puts on top. -/
def shiftrPad (signed_flag : Bool) (val : VvpVector4) : VvpBit4 :=
  if signed_flag then val.value (val.size_ - 1) else .zero

theorem givesBits_fill {wid : Nat} {val : VvpBit4} {bit : Nat → VvpBit4}
    (h : ∀ idx < wid, bit idx = val) : GivesBits (some (fill wid val)) wid bit :=
  ⟨fill wid val, rfl, rfl, fun idx hIdx => by
    rw [value_fill hIdx, h idx hIdx]⟩

/- `%shiftl` by a known amount that is in the word or too
   much for it. -/
theorem givesBits_ofShiftl {val : VvpVector4} (hAllocated : val.Allocated)
    {flag4 : VvpBit4} {shift : BitVec 64} {amount : Nat}
    (hIndex : flag4 = .zero ∧ shift.toNat = amount ∨ flag4 = .x ∧ val.size_ ≤ amount) :
    GivesBits (ofShiftl flag4 shift val) val.size_ (shiftlBit val amount) := by
  have hOne : flag4 ≠ .one := by grind
  unfold Allocated at hAllocated
  unfold ofShiftl
  simp only [if_neg hOne]
  by_cases hAll : val.size_ ≤ amount
  · have hOut : flag4 = .x ∨ val.size_ ≤ shift.toNat := by grind
    rw [if_pos hOut]
    exact givesBits_fill (fun idx hIdx => if_pos (by omega))
  · rcases hIndex with ⟨hZero, hShift⟩ | ⟨_, hMore⟩
    · have hIn : ¬(flag4 = .x ∨ val.size_ ≤ shift.toNat) := by grind
      rw [if_neg hIn, hShift]
      by_cases hSome : 0 < amount
      · rw [if_pos hSome]
        obtain ⟨blk, hBlk, hBlkSize, hBlkBits⟩ :=
          (@selectsRight_iff val 0 (val.size_ - amount) (by omega)).mpr (by omega)
        obtain ⟨low, _, hLow, hLowSize, hLowBits, -⟩ :=
          @setVec_spec val (fill amount .zero) 0
            (by exact hSome) (by
              rw [size_fill]
              omega)
        obtain ⟨out, _, hOut, hOutSize, hOutBits, -⟩ :=
          @setVec_spec low blk amount (by omega) (by omega)
        refine ⟨out, ?_, by omega, fun idx hIdx => ?_⟩
        · simp [hBlk, hLow, hOut]
        · rw [hOutBits idx (by omega)]
          unfold shiftlBit
          by_cases hFill : idx < amount
          · have hRange : 0 ≤ idx ∧ idx < 0 + amount := by omega
            have hBefore : ¬(amount ≤ idx ∧
                idx < amount + blk.size_) := by omega
            rw [if_neg hBefore, if_pos hFill, hLowBits idx hIdx, size_fill, if_pos hRange]
            exact value_fill hFill _
          · grind
      · rw [if_neg hSome]
        have hNone : amount = 0 := by omega
        refine ⟨val, rfl, rfl, fun idx _ => ?_⟩
        unfold shiftlBit
        rw [hNone, if_neg (Nat.not_lt_zero idx), Nat.sub_zero]
    · exact absurd hMore hAll

/- `%shiftr` and `%shiftr/s`. -/
theorem givesBits_shiftrWith {val : VvpVector4} (hAllocated : val.Allocated)
    (pad : VvpBit4) {flag4 : VvpBit4} {shift : BitVec 64} {amount : Nat}
    (hIndex : flag4 = .zero ∧ shift.toNat = amount ∨ flag4 = .x ∧ val.size_ ≤ amount) :
    GivesBits (shiftrWith pad flag4 shift val) val.size_ (shiftrBit pad val amount) := by
  have hOne : flag4 ≠ .one := by grind
  unfold Allocated at hAllocated
  unfold shiftrWith
  simp only [if_neg hOne]
  by_cases hAll : flag4 = .x ∨ val.size_ < shift.toNat
  · rw [if_pos hAll]
    refine givesBits_fill (fun idx hIdx => if_neg ?_)
    grind
  · rw [if_neg hAll]
    rcases hIndex with ⟨hZero, hShift⟩ | ⟨hX, _⟩
    · rw [hShift] at hAll ⊢
      by_cases hSome : 0 < amount
      · rw [if_pos hSome]
        obtain ⟨blk, hBlk, hBlkSize, hBlkBits⟩ :=
          (@selectsRight_iff val amount (val.size_ - amount) (by omega)).mpr (by omega)
        have hLow : ∃ low diff, val.setVec 0 blk = some (low, diff) ∧
            low.size_ = val.size_ ∧
            ∀ idx < val.size_ - amount,
              low.value idx = blk.value idx := by
          by_cases hEmpty : blk.size_ = 0
          · obtain ⟨diff, hSame⟩ := @setVec_empty val blk hEmpty
            exact ⟨val, diff, hSame, rfl, fun idx hIdx => by omega⟩
          · obtain ⟨low, diff, hSet, hSize, hBits, -⟩ :=
              @setVec_spec val blk 0 (by omega) (by omega)
            refine ⟨low, diff, hSet, hSize, fun idx hIdx => ?_⟩
            rw [hBits idx (by omega), if_pos (by omega), Nat.sub_zero]
        obtain ⟨low, _, hSetLow, hLowSize, hLowBits⟩ := hLow
        obtain ⟨out, _, hOut, hOutSize, hOutBits, -⟩ :=
          @setVec_spec low (fill amount pad) (val.size_ - amount)
            (by exact hSome) (by
              rw [size_fill]
              omega)
        refine ⟨out, ?_, by omega, fun idx hIdx => ?_⟩
        · simp [hBlk, hSetLow, hOut]
        · rw [hOutBits idx (by omega), size_fill]
          unfold shiftrBit
          by_cases hMoved : idx + amount < val.size_
          · grind
          · have hRange : val.size_ - amount ≤ idx ∧
                idx < val.size_ - amount + amount := by omega
            have hFill : idx - (val.size_ - amount) < amount := by omega
            rw [if_pos hRange, if_neg hMoved, value_fill hFill]
      · rw [if_neg hSome]
        have hNone : amount = 0 := by omega
        refine ⟨val, rfl, rfl, fun idx hIdx => ?_⟩
        unfold shiftrBit
        rw [hNone, Nat.add_zero, if_pos hIdx]
    · exact absurd (Or.inl hX) hAll

end EpicSim

----
-- Both Sides
----

namespace EpicSim

open PackedWords VvpVector4

variable {arith : VvpArith}

/- What `vvp_shiftl` sends for a known amount. -/
theorem givesBits_vvpShiftlSend (hSize : arith.op_a.size_ < 2 ^ 64)
    (hDefined : arith.op_b.Defined) :
    GivesBits (vvpShiftlSend arith) arith.op_a.size_ (shiftlBit arith.op_a arith.op_b.number) := by
  have hAmount := shiftAmount_of_defined hDefined hSize
  unfold vvpShiftlSend
  simp only [size_fill, hAmount]
  generalize hMin : min arith.op_a.size_ arith.op_b.number = shift
  rcases @setBitLoop_spec (fill arith.op_a.size_ .x) 0 shift
      (fun idx => idx)
      (fun _ => .zero)
      (fun i _ hLt => by
        rw [size_fill]
        omega)
      (fun i j _ hLt _ => Nat.ne_of_lt hLt) with
    ⟨hLowSize, hLowBits, _⟩
  generalize setBitLoop (fill arith.op_a.size_ .x) 0 shift _ _ = low at *
  rw [size_fill] at hLowSize
  rcases @setBitLoop_spec low shift arith.op_a.size_
      (fun idx => idx)
      (fun idx => arith.op_a.value (idx - shift))
      (fun i _ hLt => by omega)
      (fun i j _ hLt _ => Nat.ne_of_lt hLt) with
    ⟨hOutSize, hOutBits, hOutRest⟩
  refine ⟨_, rfl, by omega, fun idx hIdx => ?_⟩
  unfold shiftlBit
  by_cases hFill : idx < arith.op_b.number
  · grind
  · grind

/- What `vvp_shiftr` sends for a known amount. -/
theorem givesBits_vvpShiftrSend (hSize : arith.op_a.size_ < 2 ^ 64)
    (hDefined : arith.op_b.Defined) :
    GivesBits (vvpShiftrSend arith) arith.op_a.size_
      (shiftrBit (shiftrPad arith.signed_flag arith.op_a) arith.op_a arith.op_b.number) := by
  have hAmount := shiftAmount_of_defined hDefined hSize
  unfold vvpShiftrSend
  simp only [size_fill, hAmount]
  generalize hMin : min arith.op_a.size_ arith.op_b.number = shift
  rcases @setBitLoop_spec (fill arith.op_a.size_ .x) shift
      arith.op_a.size_ (fun idx => idx - shift) arith.op_a.value
      (fun i hi hLt => by
        rw [size_fill]
        omega)
      (fun i j hi hLt _ => by
        omega) with
    ⟨hLowSize, hLowBits, _⟩
  generalize setBitLoop (fill arith.op_a.size_ .x) shift arith.op_a.size_ _ _ = low at *
  rw [size_fill] at hLowSize
  generalize hPad : (if arith.signed_flag = true ∧
    0 < arith.op_a.size_ then
      arith.op_a.value (arith.op_a.size_ - 1)
    else VvpBit4.zero) = pad
  rcases @setBitLoop_spec low 0 shift
      (fun idx => idx + arith.op_a.size_ - shift)
      (fun _ => pad)
      (fun i _ hLt => by
        omega)
      (fun i j _ hLt _ => by
        omega) with
    ⟨hOutSize, hOutBits, hOutRest⟩
  refine ⟨_, rfl, by omega, fun idx hIdx => ?_⟩
  unfold shiftrBit
  by_cases hMoved : idx + arith.op_b.number < arith.op_a.size_
  · have hSame : shift = arith.op_b.number := by omega
    have hBit := hLowBits (idx + shift) (by omega) (by omega)
    rw [Nat.add_sub_cancel] at hBit
    rw [if_pos hMoved, hOutRest idx (by omega) (fun i _ _ => by
      omega), hBit, hSame]
  · have hBit := hOutBits (idx + shift - arith.op_a.size_) (Nat.zero_le _) (by omega)
    have hPlace : idx + shift - arith.op_a.size_ +
        arith.op_a.size_ - shift = idx := by omega
    rw [hPlace] at hBit
    have hSign : pad = shiftrPad arith.signed_flag arith.op_a := by
      rw [← hPad]
      unfold shiftrPad
      have hPos : 0 < arith.op_a.size_ := by omega
      cases arith.signed_flag <;> simp [hPos]
    rw [if_neg hMoved, hBit, hSign]

/- A shift functor after operands of its width and amounts of
   any width have arrived. -/
inductive ShiftLive (wid : Nat) (signed_flag : Bool) :
    VvpArith → Prop where
| new : ShiftLive wid signed_flag (.new wid signed_flag)
| operand {arith arith' : VvpArith} {bit : VvpVector4} :
    ShiftLive wid signed_flag arith → bit.size_ = wid →
      arith.dispatchOperand 0 bit = some arith' → ShiftLive wid signed_flag arith'
| amount {arith arith' : VvpArith} {bit : VvpVector4} :
    ShiftLive wid signed_flag arith → 0 < bit.size_ →
      bit.Allocated → arith.dispatchOperand 1 bit = some arith' → ShiftLive wid signed_flag arith'

theorem ShiftLive.wired {wid : Nat} {signed_flag : Bool} (hPos : 0 < wid) (hWid : wid + 63 < 2 ^ 32)
    (h : ShiftLive wid signed_flag arith) :
    arith.op_a.size_ = wid ∧ 0 < arith.op_b.size_ ∧
      arith.op_b.Allocated ∧ arith.x_val.AllX wid := by
  induction h with
  | new =>
    have hB : (VvpArith.new wid signed_flag).op_b.size_ = wid := (VvpArith.filled_spec wid .z).1
    unfold Allocated
    rw [hB]
    exact ⟨hB, hPos, hWid, VvpArith.filled_spec wid .x⟩
  | operand _ hBit hDispatch ih =>
    injection hDispatch with hSame
    subst hSame
    exact ⟨hBit, ih.2⟩
  | amount _ hBitPos hBitWid hDispatch ih =>
    injection hDispatch with hSame
    subst hSame
    exact ⟨ih.1, hBitPos, hBitWid, ih.2.2.2⟩

/- All X for an unknown amount, and the moved bits for a known
   one. -/
def shiftedBit (amount : VvpVector4) (bit : Nat → Nat → VvpBit4) (idx : Nat) : VvpBit4 :=
  if amount.Defined then bit amount.number idx else .x

/- The thread and the functor shift to the left alike, and to
   the right. -/
def ShiftsAlike (arith : VvpArith) : Prop :=
  let (flag4, shift) := vec4ToIndex false arith.op_b
  let wid := arith.op_a.size_
  let left := shiftedBit arith.op_b (shiftlBit arith.op_a)
  let right := shiftedBit arith.op_b
    (shiftrBit (shiftrPad arith.signed_flag arith.op_a) arith.op_a)
  (GivesBits (ofShiftl flag4 shift arith.op_a) wid left ∧
      GivesBits (vvpShiftlSend arith) wid left) ∧
    GivesBits
        (if arith.signed_flag then
          ofShiftrS flag4 shift arith.op_a
        else ofShiftr flag4 shift arith.op_a) wid right ∧
      GivesBits (vvpShiftrSend arith) wid right

theorem shiftedBit_of_defined {amount : VvpVector4} (hDefined : amount.Defined)
    (bit : Nat → Nat → VvpBit4) : shiftedBit amount bit = bit amount.number := by
  funext idx
  exact if_pos hDefined

theorem shiftedBit_of_not_defined {amount : VvpVector4} (hDefined : ¬amount.Defined)
    (bit : Nat → Nat → VvpBit4) (idx : Nat) : shiftedBit amount bit idx = .x := if_neg hDefined

theorem ShiftLive.shiftsAlike
    {wid : Nat} {signed_flag : Bool} (hPos : 0 < wid) (hWid : wid + 63 < 2 ^ 32)
    (h : ShiftLive wid signed_flag arith) : ShiftsAlike arith := by
  rcases h.wired hPos hWid with ⟨hA, hB, hAllocatedB, hX⟩
  have hAllocatedA : arith.op_a.Allocated := by
    unfold Allocated
    rw [hA]
    exact hWid
  have hSize : arith.op_a.size_ < 2 ^ 64 := by omega
  unfold ShiftsAlike
  by_cases hDefined : arith.op_b.Defined
  · have hIndex : (vec4ToIndex false arith.op_b).1 = .zero ∧
          (vec4ToIndex false arith.op_b).2.toNat = arith.op_b.number ∨
        (vec4ToIndex false arith.op_b).1 = .x ∧
          arith.op_a.size_ ≤ arith.op_b.number := by
      rcases index_unsigned hB hAllocatedB hDefined with ⟨hZero, _, hShift⟩ | ⟨hX, hLarge⟩
      · exact Or.inl ⟨hZero, hShift⟩
      · exact Or.inr ⟨hX, by omega⟩
    rw [shiftedBit_of_defined hDefined, shiftedBit_of_defined hDefined]
    refine ⟨⟨givesBits_ofShiftl hAllocatedA hIndex,
      givesBits_vvpShiftlSend hSize hDefined⟩, ?_,
      givesBits_vvpShiftrSend hSize hDefined⟩
    have hRight := givesBits_shiftrWith hAllocatedA (shiftrPad arith.signed_flag arith.op_a) hIndex
    cases hSigned : arith.signed_flag with
    | true =>
      rw [hSigned] at hRight
      exact hRight
    | false =>
      rw [hSigned] at hRight
      exact hRight
  · have hIndex :=
      (vec4ToIndex_spec hB hAllocatedB false).1 hDefined
    have hAll : ∀ bit : Nat → Nat → VvpBit4,
        GivesBits (some (fill arith.op_a.size_ .x)) arith.op_a.size_ (shiftedBit arith.op_b bit) :=
      fun bit => givesBits_fill (fun idx _ => shiftedBit_of_not_defined hDefined bit idx)
    have hSent : ∀ bit : Nat → Nat → VvpBit4,
        GivesBits (some arith.x_val) arith.op_a.size_ (shiftedBit arith.op_b bit) := by
      intro bit
      refine ⟨arith.x_val, rfl, by rw [hX.1, hA], ?_⟩
      intro idx hIdx
      rw [hX.2 idx (hA ▸ hIdx), shiftedBit_of_not_defined hDefined]
    rw [hIndex]
    refine ⟨⟨hAll _, ?_⟩, ?_, ?_⟩
    · unfold vvpShiftlSend
      simp only [shiftAmount_of_not_defined hDefined]
      exact hSent _
    · have hLeft : (if arith.signed_flag = true then
            ofShiftrS .one 0#64 arith.op_a
          else ofShiftr .one 0#64 arith.op_a) =
            some (fill arith.op_a.size_ .x) := by
        cases arith.signed_flag <;> rfl
      rw [hLeft]
      exact hAll _
    · unfold vvpShiftrSend
      simp only [shiftAmount_of_not_defined hDefined]
      exact hSent _

/- Flag 4 and the index are right if and only if the condition
   holds, and shifts by an unsigned index are those of the
   functors. -/
theorem index_shift_exact (signed : Bool) :
    (∀ v : VvpVector4, 0 < v.size_ → v.Allocated → (IndexRight signed v ↔ IndexHolds signed v)) ∧
    ∀ (wid : Nat) (arith : VvpArith),
      0 < wid → wid + 63 < 2 ^ 32 → ShiftLive wid signed arith → ShiftsAlike arith :=
  ⟨fun _ hPos hAllocated => indexRight_iff hPos hAllocated signed,
    fun _ _ hPos hWid hLive => hLive.shiftsAlike hPos hWid⟩

/- An operand of four bits and an amount of two have arrived. -/
theorem index_shift_exact_negative :
    (IndexRight true (fill 64 .one) ↔ IndexHolds true (fill 64 .one)) ∧
    ShiftsAlike { VvpArith.new 4 true with op_a := fill 4 .one, op_b := fill 2 .one } :=
  ⟨(index_shift_exact true).1 (fill 64 .one) (by decide) (by decide),
    (index_shift_exact true).2 4 _ (by decide) (by decide)
      (@ShiftLive.amount 4 true { VvpArith.new 4 true with op_a := fill 4 .one } _ (fill 2 .one)
        (@ShiftLive.operand 4 true _ _ (fill 4 .one) .new rfl rfl) (by decide) (by decide) rfl)⟩

/- In 65 bits minus one does not pass for an index. -/
theorem signed_index_overflows : ¬IndexRight true (fill 65 .one) := by
  have hDefined : (fill 65 .one).Defined := fun idx hIdx => Or.inr (value_fill hIdx .one)
  have hFlag : (vec4ToIndex true (fill 65 .one)).1 = .x := by decide +kernel
  have hFits : TwosComplement.Fits true 64
      ((fill 65 .one).integer true) := by decide +kernel
  exact fun h => (h.2 hDefined).1.mp hFlag hFits

end EpicSim
