import EpicSim.Ivl.VerinumPowerRoom
import EpicSim.Vvp.FunMuxz
import EpicSim.Vvp.Power

/-
  The power of procedural code, beside that of constants.

  The exponent alone chooses the instruction, so that the
  table for negative exponents reads every base as a signed
  number.
-/

----
-- Instruction
----

namespace EpicSim

open VvpVector4 (encodes_of_testBit fill ofVector4_enabled topSet whole_copyFromThat)
open PackedWords VvpVector2

/- `is_all_one`, of a vector that has bits. -/
def VvpVector2.isAllOne (v : VvpVector2) : Bool :=
  let words := (v.wid - 1) / 64
  (List.range words).all (fun idx =>
      wordAt v.vec idx == BitVec.allOnes 64) &&
    (List.range (v.wid - words * 64)).all (fun idx => v.value (words * 64 + idx))

/- The pad and the lowest bit for a negative exponent. -/
def negativeBits (xv2 yv2 : VvpVector2) : Option (VvpBit4 × VvpBit4) :=
  let (a_val, small) := vector2ToValue xv2 true
  let minus : VvpBit4 × VvpBit4 := if yv2.value 0 then (.one, .one) else (.zero, .one)
  if small then
    if a_val = BitVec.allOnes 32 then some minus
    else if a_val = 1#32 then some (.zero, .one)
    else if a_val = 0#32 then some (.x, .x)
    else some (.zero, .zero)
  else if xv2.isZero then some (.x, .x)
  else
    xv2.isOne.map fun is_one =>
      if is_one then (.zero, .one)
      else if xv2.isAllOne then minus
      else (.zero, .zero)

/- `of_POW_base`: what replaces the two operands. -/
def ofPOWBase (signed_flag : Bool) (vala valb : VvpVector4) : Option VvpVector4 :=
  let wid := vala.size_
  let xv2 := ofVector4 vala true
  let yv2 := ofVector4 valb true
  if xv2.isNaN || yv2.isNaN then some (fill wid .x)
  else if signed_flag && yv2.value (yv2.wid - 1) then
    (negativeBits xv2 yv2).map fun (pad, lsb) => (fill wid pad).setBit 0 lsb
  else
    (pow xv2 yv2).map fun result =>
      (List.range wid).foldl (fun vala jdx =>
        vala.setBit jdx
          (if result.wid ≤ jdx then .zero
          else if result.value jdx then .one
          else .zero)) vala

/- `signed_flag` of `draw_binary_vec4_arith`. -/
def signedFlag (le_signed re_signed is_power_op : Bool) : Bool :=
  (le_signed || is_power_op) && re_signed

----
-- The Rule
----

/- The power of two integers; none is all X. -/
def powerRule (base exponent : Int) : Option Int :=
  if 0 ≤ exponent then some (base ^ exponent.toNat)
  else if base = 0 then none
  else if base = 1 then some 1
  else if base = -1 then
    some (if exponent % 2 = 0 then 1 else -1)
  else some 0

theorem powerRule_neg {base exponent : Int} (h : exponent < 0) :
    powerRule base exponent =
      if base = 0 then none
      else if base = 1 then some 1
      else if base = -1 then
        some (if exponent % 2 = 0 then 1 else -1)
      else some 0 :=
  if_neg (by omega)

/- The vector of a width that shows such a power. -/
def VvpVector4.Follows (v : VvpVector4) (wid : Nat) : Option Int → Prop
| none => v.AllX wid
| some n => v.Encodes wid n

/- The instruction, the constant and the rule give one value. -/
def PowersAgree (left right : Verinum) (vala valb : VvpVector4) : Prop :=
  ∃ out res,
    ofPOWBase (signedFlag left.has_sign right.has_sign true) vala valb = some out ∧
      (∀ calls, right.integer.toNat < calls → Verinum.pow calls left right = some res) ∧
      out.Follows left.len (powerRule left.integer right.integer) ∧
      ∀ idx < left.len, (res.get idx).bit4 = out.value idx

/- A base without a sign, of all ones, with an exponent below
   zero. -/
def UnsignedOnes (left right : Verinum) : Prop :=
  left.has_sign = false ∧ 1 < left.len ∧ left.integer = 2 ^ left.len - 1 ∧ right.integer < 0

----
-- Numbers
----

/- A sized constant with bits, none of them unknown. -/
structure SizedConstant (v : Verinum) : Prop where
  defined : v.Defined
  sized : v.has_len = true
  len_pos : 0 < v.len
  stored : v.len < 2 ^ 32

variable {v : Verinum} {vec : VvpVector4}

theorem SameBits.one_iff (hSame : SameBits v vec) (hDefined : v.Defined) {idx : Nat}
    (hIdx : idx < v.len) :
    (vec.value idx = .zero ∨ vec.value idx = .one) ∧
      decide (vec.value idx = .one) = v.bit idx := by
  rw [← hSame.2 idx (hSame.1 ▸ hIdx), Verinum.get_of_defined hDefined hIdx]
  cases v.bit idx <;> decide

/- A constant and its vector are one number. -/
theorem SameBits.number (hSame : SameBits v vec) (hDefined : v.Defined) :
    vec.number = v.number := by
  apply Nat.eq_of_testBit_eq
  intro idx
  by_cases hIdx : idx < v.len
  · rw [VvpVector4.testBit_number, (hSame.one_iff hDefined hIdx).2]
    exact (TwosComplement.testBit_low hIdx).symm
  · have hPow := Nat.pow_le_pow_right (by decide : 0 < 2) (Nat.not_lt.mp hIdx)
    have hLow := TwosComplement.low_lt v.bit v.len
    have hLt := vec.number_lt
    rw [← hSame.1] at hLt
    rw [Nat.testBit_lt_two_pow (Nat.lt_of_lt_of_le hLt hPow)]
    exact (Nat.testBit_lt_two_pow (Nat.lt_of_lt_of_le hLow hPow)).symm

theorem SameBits.integer (hSame : SameBits v vec) (hDefined : v.Defined) (hPos : 0 < v.len) :
    vec.integer v.has_sign = v.integer := by
  have hTop : vec.topSet = v.bit (v.len - 1) := by
    unfold topSet
    rw [← hSame.1]
    exact (hSame.one_iff hDefined (by omega)).2
  unfold VvpVector4.integer Verinum.integer TwosComplement.value TwosComplement.sign
  rw [hSame.number hDefined, hTop, ← hSame.1, decide_eq_true hPos]
  rfl

/- The signed number of a vector of at least two bits. -/
theorem VvpVector4.integer_small_iff (hSize : 1 < vec.size_) :
    (vec.integer true = 0 ↔ vec.number = 0) ∧
      (vec.integer true = 1 ↔ vec.number = 1) ∧
      (vec.integer true = -1 ↔
        vec.number + 1 = 2 ^ vec.size_) := by
  have hTop := vec.topSet_iff (by omega)
  have hLt := vec.number_lt
  have hHalf : 2 ^ vec.size_ = 2 ^ (vec.size_ - 1) * 2 := by
    rw [← pow_succ, Nat.sub_add_cancel (by omega)]
  have hTwo : 2 ^ 1 ≤ 2 ^ (vec.size_ - 1) := Nat.pow_le_pow_right (by decide) (by omega)
  have hCast : ((2 ^ vec.size_ : Nat) : Int) = 2 ^ vec.size_ := by norm_cast
  unfold integer
  rw [Bool.true_and]
  cases hSet : vec.topSet with
  | true =>
    have hHigh := hTop.mp hSet
    rw [if_pos rfl]
    omega
  | false => grind

/- All words and the bits above them are ones. -/
theorem isAllOne_iff (hPos : 0 < vec.size_) :
    (copyFromThat vec).isAllOne = true ↔
      vec.number + 1 = 2 ^ vec.size_ := by
  have hValue : ∀ idx < vec.size_,
      (copyFromThat vec).value idx = vec.number.testBit idx := by
    intro idx hIdx
    have hIn : idx < (copyFromThat vec).wid := hIdx
    rw [value_eq, decide_eq_true hIn, Bool.true_and, whole_copyFromThat]
  have hWord : ∀ idx off, off < 64 →
      (wordAt (copyFromThat vec).vec idx).getLsbD off = vec.number.testBit (64 * idx + off) := by
    intro idx off hOff
    rw [← whole_copyFromThat, whole, Limbs.testBit_toNat (by decide),
      Nat.mul_add_div (by decide), Nat.div_eq_of_lt hOff, Nat.mul_add_mod,
      Nat.mod_eq_of_lt hOff]
    rfl
  have hOnes : vec.number + 1 = 2 ^ vec.size_ ↔
      ∀ idx < vec.size_, vec.number.testBit idx = true := by
    have hLt := vec.number_lt
    constructor
    · intro hSum idx hIdx
      have hNumber : vec.number = 2 ^ vec.size_ - 1 := by omega
      rw [hNumber, Nat.testBit_two_pow_sub_one, decide_eq_true hIdx]
    · intro hAll
      have hNumber : vec.number = 2 ^ vec.size_ - 1 := by
        apply Nat.eq_of_testBit_eq
        intro idx
        rw [Nat.testBit_two_pow_sub_one]
        by_cases hIdx : idx < vec.size_
        · rw [hAll idx hIdx, decide_eq_true hIdx]
        · rw [decide_eq_false hIdx]
          exact Nat.testBit_lt_two_pow (Nat.lt_of_lt_of_le hLt
            (Nat.pow_le_pow_right (by decide) (Nat.not_lt.mp hIdx)))
      omega
  have hWid : (copyFromThat vec).wid = vec.size_ := rfl
  rw [hOnes]
  unfold isAllOne
  simp only [Bool.and_eq_true, List.all_eq_true, List.mem_range, beq_iff_eq, hWid]
  constructor
  · rintro ⟨hWords, hTail⟩ idx hIdx
    by_cases hIn : idx / 64 < (vec.size_ - 1) / 64
    · have hBit := hWord (idx / 64) (idx % 64) (Nat.mod_lt _ (by decide))
      rw [hWords _ hIn, BitVec.getLsbD_allOnes,
        decide_eq_true (Nat.mod_lt _ (by decide)), Nat.div_add_mod] at hBit
      exact hBit.symm
    · have hBit := hTail (idx - (vec.size_ - 1) / 64 * 64) (by omega)
      rw [Nat.add_sub_cancel' (by omega), hValue idx hIdx] at hBit
      exact hBit
  · intro hAll
    refine ⟨fun idx hIdx => ?_, fun idx hIdx => ?_⟩
    · apply BitVec.eq_of_getLsbD_eq
      intro off hOff
      rw [hWord idx off hOff, BitVec.getLsbD_allOnes, decide_eq_true hOff]
      exact hAll _ (by omega)
    · rw [hValue _ (by omega)]
      exact hAll _ (by omega)

----
-- Negative Exponents
----

/- Both ways to the table read the base as signed. -/
theorem negativeBits_eq (hPos : 0 < vec.size_) (yv2 : VvpVector2) :
    negativeBits (copyFromThat vec) yv2 =
      some (if vec.integer true = -1 then
          if yv2.value 0 then (.one, .one) else (.zero, .one)
        else if vec.integer true = 1 then (.zero, .one)
        else if vec.integer true = 0 then (.x, .x)
        else (.zero, .zero)) := by
  have hFlag : (vector2ToValue (copyFromThat vec) true).2 =
      decide (vec.size_ ≤ 32) := rfl
  unfold negativeBits
  dsimp only
  by_cases hSmall : vec.size_ ≤ 32
  · have hInteger := vector2ToValue_integer hPos hSmall
    have hIff : ∀ n : BitVec 32,
        (vector2ToValue (copyFromThat vec) true).1 = n ↔
          vec.integer true = n.toInt := by
      intro n
      rw [← BitVec.toInt_inj, hInteger]
    have hMinus : (BitVec.allOnes 32).toInt = -1 := by decide
    have hOne : (1#32).toInt = 1 := by decide
    have hZero : (0#32).toInt = 0 := by decide
    simp only [hFlag, hSmall, decide_true, if_true, hIff, hMinus, hOne, hZero]
    split_ifs <;> rfl
  · rcases vec.integer_small_iff (by omega) with ⟨hZero, hOne, hMinus⟩
    rw [hFlag, decide_eq_false hSmall, if_neg Bool.false_ne_true,
      isOne_of_pos (show 0 < (copyFromThat vec).wid from hPos), Option.map_some]
    simp only [isZero_iff, whole_copyFromThat,
      decide_eq_true_eq, isAllOne_iff hPos, hZero, hOne, hMinus]
    grind

/- A pad with a lowest bit shows a small number. -/
theorem padded_follows {wid : Nat} (hWid : 0 < wid) :
    ((fill wid .x).setBit 0 .x).AllX wid ∧
      ((fill wid .zero).setBit 0 .zero).Encodes wid 0 ∧
      ((fill wid .zero).setBit 0 .one).Encodes wid 1 ∧
      ((fill wid .one).setBit 0 .one).Encodes wid (-1) := by
  have hBits : ∀ (pad lsb : VvpBit4) (idx : Nat), idx < wid →
      ((fill wid pad).setBit 0 lsb).value idx =
        if idx = 0 then lsb else pad := by
    intro pad lsb idx hIdx
    rw [VvpVector4.value_setBit hWid _ hIdx, VvpVector4.value_fill hIdx]
  have hPow := Nat.two_pow_pos wid
  refine ⟨⟨rfl, fun idx hIdx => ?_⟩, ?_, ?_, ?_⟩
  · rw [hBits _ _ idx hIdx, ite_self]
  · refine encodes_of_testBit rfl ?_ (Int.ModEq.refl ((0 : Nat) : Int))
    grind
  · refine encodes_of_testBit rfl ?_ (Int.ModEq.refl ((1 : Nat) : Int))
    intro idx hIdx
    rw [hBits _ _ idx hIdx]
    simp only [Nat.testBit_one_eq_true_iff_self_eq_zero]
  · refine encodes_of_testBit (m := 2 ^ wid - 1)
      rfl ?_ ?_
    · grind
    · rw [Int.modEq_iff_dvd, Nat.cast_sub hPow]
      exact ⟨-1, by push_cast; ring⟩

----
-- The Instruction By Its Numbers
----

variable {vala valb : VvpVector4}

/- What the instruction leaves, for defined operands. -/
theorem ofPOWBase_spec (hA : vala.Defined) (hB : valb.Defined)
    (hPosA : 0 < vala.size_) (hPosB : 0 < valb.size_) (signed_flag : Bool) :
    ∃ out, ofPOWBase signed_flag vala valb = some out ∧
      (0 ≤ valb.integer signed_flag → ∀ signed,
        out.Encodes vala.size_ (vala.integer signed ^ (valb.integer signed_flag).toNat)) ∧
      (valb.integer signed_flag < 0 → out.Follows vala.size_
        (powerRule (vala.integer true) (valb.integer signed_flag))) := by
  have hConvA := ofVector4_enabled hPosA
  have hConvB := ofVector4_enabled hPosB
  have hNaNA := hConvA.1
  have hNaNB := hConvB.1
  rw [hConvA.2 hA, decide_eq_false (not_not.mpr hA)] at hNaNA
  rw [hConvB.2 hB, decide_eq_false (not_not.mpr hB)] at hNaNB
  have hNeg := VvpVector4.integer_neg_iff valb signed_flag
  have hTop := top_copyFromThat hPosB
  unfold ofPOWBase
  dsimp only
  rw [hConvA.2 hA, hConvB.2 hB, hNaNA, hNaNB,
    show (copyFromThat valb).wid = valb.size_ from rfl, hTop]
  by_cases hBelow : valb.integer signed_flag < 0
  · rw [if_pos (hNeg.mp hBelow), negativeBits_eq hPosA]
    refine ⟨_, rfl, fun h => absurd h (by omega), fun _ => ?_⟩
    have hOdd := odd_copyFromThat hPosB signed_flag
    rcases padded_follows hPosA with ⟨hX, hZero, hOne, hMinus⟩
    rw [powerRule_neg hBelow]
    by_cases hM : vala.integer true = -1
    · rw [hM]
      by_cases hEven : valb.integer signed_flag % 2 = 0
      · rw [if_neg (fun h => hOdd.mp h hEven)]
        simpa [hEven, VvpVector4.Follows] using hOne
      · rw [if_pos (hOdd.mpr hEven)]
        simpa [hEven, VvpVector4.Follows] using hMinus
    · by_cases hU : vala.integer true = 1
      · rw [hU]
        exact hOne
      · split_ifs
        · exact hX
        · exact hZero
  · rw [if_neg (mt hNeg.mpr hBelow)]
    rcases pow_number hPosA valb with ⟨res, hRes, hWid, hMod⟩
    have hExponent : valb.number = (valb.integer signed_flag).toNat := by
      have hPlain : valb.integer signed_flag = valb.number := if_neg (mt hNeg.mpr hBelow)
      omega
    rw [hRes]
    refine ⟨_, rfl, fun _ signed => ?_, fun h => absurd h hBelow⟩
    rcases VvpVector4.setBits_spec vala (fun jdx =>
        if res.wid ≤ jdx then .zero
        else if res.value jdx then .one else .zero)
      (Nat.le_refl _) with ⟨hSize, hBits⟩
    rw [← hExponent]
    refine encodes_of_testBit hSize ?_ (hMod.trans
      ((vala.number_modEq_integer signed).pow _))
    intro idx hIdx
    rw [hBits idx hIdx, if_neg (by omega), value_eq, decide_eq_true (by omega), Bool.true_and]

/- The bits of a constant are those of what it denotes. -/
theorem bits_of_denotes {res : Verinum} {out : VvpVector4} {len : Nat} {n : Int}
    (hRes : Verinum.Denotes true len n res)
    (hOut : out.Encodes len n) {idx : Nat} (hIdx : idx < len) :
    (res.get idx).bit4 = out.value idx := by
  rcases hRes.modulo rfl with ⟨-, hLen, hMod⟩
  have hLow := TwosComplement.low_modEq_value res.has_sign res.len res.bit
  rw [hLen] at hLow
  have hNumber : (n % 2 ^ len).toNat = TwosComplement.low res.bit len := by
    have hLt := TwosComplement.low_lt res.bit len
    have hSame : n % 2 ^ len = (TwosComplement.low res.bit len : Int) % 2 ^ len := by
      rw [hLow, ← hMod.eq]
      unfold Verinum.integer
      rw [hLen]
    rw [hSame]
    norm_cast
    exact Nat.mod_eq_of_lt hLt
  rw [Verinum.get_of_defined hRes.defined (by omega),
    hOut.2 idx hIdx, hNumber, TwosComplement.testBit_low hIdx]
  cases res.bit idx <;> rfl

----
-- Agreement
----

variable {left right : Verinum}

theorem SameBits.defined (hSame : SameBits v vec) (hDefined : v.Defined) : vec.Defined := by
  intro idx hIdx
  exact (hSame.one_iff hDefined (hSame.1 ▸ hIdx)).1

/- The power of constants follows the rule, bit by bit. -/
theorem pow_follows (hLeft : SizedConstant left) (hRight : SizedConstant right) :
    ∃ res,
      (∀ calls, right.integer.toNat < calls → Verinum.pow calls left right = some res) ∧
      ∀ out : VvpVector4,
        out.Follows left.len (powerRule left.integer right.integer) →
        ∀ idx < left.len, (res.get idx).bit4 = out.value idx := by
  rcases (Verinum.pow_exact hLeft.defined hRight.defined
      hLeft.len_pos hLeft.stored hRight.stored).1
      (Or.inl hLeft.sized) with ⟨res, hCalls, hNonneg, hNegative⟩
  rw [hLeft.sized] at hNonneg
  refine ⟨res, hCalls, fun out hOut idx hIdx => ?_⟩
  by_cases hBelow : right.integer < 0
  · have hTable := hNegative hBelow
    rw [powerRule_neg hBelow] at hOut
    by_cases hZero : left.integer = 0
    · have hX := hTable.zero hZero
      have hIn : idx < res.bits.length := by
        rw [(hX.modulo hLeft.sized).2.symm] at hIdx
        exact hIdx
      have hBit := hX.all_x _ (List.getElem_mem hIn)
      rw [if_pos hZero] at hOut
      rw [Verinum.get, List.getD_eq_getElem _ _ hIn, hBit]
      exact (hOut.2 idx hIdx).symm
    · rw [if_neg hZero] at hOut
      have hDenotes : ∃ n, Verinum.Denotes left.has_len left.len
          n res ∧ out.Follows left.len (some n) := by
        by_cases hOne : left.integer = 1
        · rw [if_pos hOne] at hOut
          exact ⟨_, hTable.one hOne, hOut⟩
        · rw [if_neg hOne] at hOut
          by_cases hMinus : left.integer = -1
          · have hSigned : left.has_sign = true := by
              have hFits := left.integer_fits
              by_contra hPlain
              rw [Bool.eq_false_of_not_eq_true hPlain, hMinus] at hFits
              exact absurd hFits.1 (by decide)
            rw [if_pos hMinus] at hOut
            exact ⟨_, hTable.minus_one hSigned hMinus, hOut⟩
          · rw [if_neg hMinus] at hOut
            exact ⟨_, hTable.other hZero hOne (fun h => hMinus h.2), hOut⟩
      rcases hDenotes with ⟨n, hDenotes, hShown⟩
      rw [hLeft.sized] at hDenotes
      exact bits_of_denotes hDenotes hShown hIdx
  · have hRule : powerRule left.integer right.integer = some (left.integer ^ right.integer.toNat) :=
      if_pos (by omega)
    rw [hRule] at hOut
    exact bits_of_denotes (hNonneg (by omega)) hOut hIdx

/- The instruction follows the rule but for a base of ones. -/
theorem ofPOWBase_follows_iff (hLeft : SizedConstant left) (hRight : SizedConstant right)
    (hA : SameBits left vala) (hB : SameBits right valb) :
    ∃ out, ofPOWBase right.has_sign vala valb = some out ∧
      (out.Follows left.len (powerRule left.integer right.integer) ↔
        ¬UnsignedOnes left right) := by
  have hPosA : 0 < vala.size_ := hA.1 ▸ hLeft.len_pos
  have hPosB : 0 < valb.size_ := hB.1 ▸ hRight.len_pos
  have hBase := hA.integer hLeft.defined hLeft.len_pos
  rcases ofPOWBase_spec (hA.defined hLeft.defined)
      (hB.defined hRight.defined) hPosA hPosB right.has_sign with
    ⟨out, hOut, hNonneg, hNegative⟩
  rw [hB.integer hRight.defined hRight.len_pos] at hNonneg hNegative
  refine ⟨out, hOut, ?_⟩
  rw [← hA.1] at hNonneg hNegative
  by_cases hBelow : right.integer < 0
  · have hTable := hNegative hBelow
    cases hSign : left.has_sign with
    | true =>
      rw [hSign] at hBase
      rw [hBase] at hTable
      exact iff_of_true hTable (fun h => by rw [h.1] at hSign; cases hSign)
    | false =>
      have hPlain : left.integer = vala.number := by
        rw [← hBase, hSign]
        rfl
      have hLt := vala.number_lt
      rw [← hA.1] at hLt
      rw [powerRule_neg hBelow] at hTable ⊢
      unfold UnsignedOnes
      rw [hPlain]
      by_cases hLong : 1 < left.len
      · rcases VvpVector4.integer_small_iff
          (show 1 < vala.size_ from hA.1 ▸ hLong) with
          ⟨hZero, hOne, hMinus⟩
        rw [← hA.1] at hMinus
        have hCast : ((2 ^ left.len : Nat) : Int) =
            2 ^ left.len := by norm_cast
        by_cases hOnes : vala.number + 1 = 2 ^ left.len
        · rw [if_neg (by omega), if_neg (by omega), if_pos (hMinus.mpr hOnes)] at hTable
          rw [if_neg (by omega), if_neg (by omega)]
          refine iff_of_false (fun hRule => ?_) (fun h => h ⟨hSign, hLong, by omega, hBelow⟩)
          exact VvpArith.not_modEq_small hLeft.len_pos
            (by split_ifs <;> simp)
            (VvpVector4.Encodes.modEq hRule hTable)
        · grind
      · refine iff_of_true ?_ (fun h => hLong h.2.1)
        have hLen : left.len = 1 := by
          have hPos := hLeft.len_pos
          omega
        rw [hLen] at hTable hLt ⊢
        have hTop := vala.topSet_iff hPosA
        rw [← hA.1, hLen] at hTop
        by_cases hNone : vala.number = 0
        · have hClear : vala.topSet = false := by
            rw [← Bool.not_eq_true, hTop]
            omega
          have hZero : vala.integer true = 0 := by
            unfold VvpVector4.integer
            rw [hClear, hNone]
            rfl
          grind
        · have hOne : vala.number = 1 := by omega
          have hSet : vala.topSet = true := hTop.mpr (by omega)
          have hMinus : vala.integer true = -1 := by
            unfold VvpVector4.integer
            rw [hSet, hOne, ← hA.1, hLen]
            rfl
          rw [hMinus] at hTable
          rw [hOne]
          refine (VvpVector4.encodes_iff hTable).mpr ?_
          split_ifs <;> decide
  · have hRule : powerRule left.integer right.integer = some (left.integer ^ right.integer.toNat) :=
      if_pos (by omega)
    rw [hRule, ← hBase]
    exact iff_of_true (hNonneg (by omega) _) (fun h => hBelow h.2.2.2)

/-
  The instruction, the power of constants and the rule agree
  but where the base has no sign and is all ones, below an
  exponent that is negative.
-/
theorem powers_agree_iff (hLeft : SizedConstant left) (hRight : SizedConstant right)
    (hA : SameBits left vala) (hB : SameBits right valb) :
    PowersAgree left right vala valb ↔
      ¬UnsignedOnes left right := by
  have hFlag : signedFlag left.has_sign right.has_sign true =
      right.has_sign := by
    unfold signedFlag
    rw [Bool.or_true, Bool.true_and]
  rcases ofPOWBase_follows_iff hLeft hRight hA hB with ⟨out, hOut, hIff⟩
  rcases pow_follows hLeft hRight with ⟨res, hCalls, hBits⟩
  rw [← hIff]
  constructor
  · rintro ⟨out', -, hOut', -, hFollows, -⟩
    rw [hFlag, hOut] at hOut'
    injection hOut' with hSame
    rw [hSame]
    exact hFollows
  · intro hFollows
    exact ⟨out, res, by rw [hFlag, hOut], hCalls, hFollows, hBits out hFollows⟩

/- Minus three to the power of minus one. -/
theorem powers_agree_signed :
    PowersAgree
      ⟨[.v1, .v0, .v1], true, true, false⟩
      ⟨[.v1, .v1], true, true, false⟩
      (((fill 3 .zero).setBit 0 .one).setBit 2 .one)
      (fill 2 .one) := by
  refine (powers_agree_iff ?_ ?_ ?_ ?_).mpr ?_
  · exact ⟨rfl, rfl, by decide, by decide⟩
  · exact ⟨rfl, rfl, by decide, by decide⟩
  · exact ⟨rfl, by decide⟩
  · exact ⟨rfl, by decide⟩
  · exact fun h => by cases h.1

/- Fifteen without a sign, to the power of minus two. -/
theorem powers_disagree :
    ¬∀ (left right : Verinum) (vala valb : VvpVector4),
      SizedConstant left → SizedConstant right →
      SameBits left vala → SameBits right valb →
        PowersAgree left right vala valb := by
  intro h
  have hOnes := h
    ⟨[.v1, .v1, .v1, .v1], true, false, false⟩
    ⟨[.v0, .v1], true, true, false⟩
    (fill 4 .one)
    ((fill 2 .zero).setBit 1 .one)
    ⟨rfl, rfl, by decide, by decide⟩
    ⟨rfl, rfl, by decide, by decide⟩
    (by unfold SameBits; decide) (by unfold SameBits; decide)
  rcases hOnes with ⟨out, -, hOut, -, hRule, -⟩
  have hFirst := hRule.2 0 (by decide)
  have hRun : (ofPOWBase true (fill 4 .one)
      ((fill 2 .zero).setBit 1 .one)).map (fun out => out.value 0) = some .one := by
    decide +kernel
  rw [show signedFlag false true true = true from rfl] at hOut
  rw [hOut, Option.map_some, hFirst] at hRun
  revert hRun
  decide

end EpicSim
