import EpicSim.Ivl.Clog2
import EpicSim.Vpi.VectorVal
import EpicSim.Vvp.Arith

/-
  `$clog2` of a net or a variable, and its agreement with the
  constant that the compiler folds.

  The vector is read through the VPI, trimmed, and one less
  than it is shifted down until nothing is left.
-/

----
-- The Run Time
----

namespace EpicSim

open Halving

/- The bits of the value, as they are read from its words. -/
def clogVector (bits : List VvpBit4) : VvpVector4 :=
  VvpVector4.setBitLoop (VvpVector4.fill bits.length .zero) 0
    bits.length (fun idx => idx)
    (vectorBit (formatVectorVal bits))

/- `vpip_calc_clog2` of a vector. -/
def vpipCalcClog2 (bits : List VvpBit4) : Option VpiVecval :=
  let vec4 := clogVector bits
  if vec4.hasXz then
    some ⟨0xffffffff#32, 0xffffffff#32⟩
  else
    let vec2 := (VvpVector2.ofVector4 vec4 false).trim
    let res :=
      if !vec2.isZero then
        (vec2.subAssign (VvpVector2.ofLong 1#64 vec2.wid)).bind
          fun vec2 => countHalvings VvpVector2.isZero
            (fun vec2 => vec2.shiftRight 1) (vec2.wid + 1) 0 vec2
      else some 0
    res.map fun res => ⟨BitVec.ofNat 32 res, 0#32⟩

----
-- Its Value
----

/- The vector has the bits of the value. -/
theorem clogVector_spec (bits : List VvpBit4) :
    (clogVector bits).size_ = bits.length ∧
      ∀ idx, ∀ h : idx < bits.length,
        (clogVector bits).value idx = bits[idx] := by
  rcases @VvpVector4.setBitLoop_spec
      (VvpVector4.fill bits.length .zero) 0 bits.length (fun idx => idx)
      (vectorBit (formatVectorVal bits))
      (fun idx _ hIdx => hIdx)
      (fun i j _ hLt _ => Nat.ne_of_lt hLt) with
    ⟨hSize, hBits, _⟩
  refine ⟨hSize, fun idx hIdx => ?_⟩
  exact (hBits idx (Nat.zero_le idx) hIdx).trans (vectorBit_formatVectorVal bits hIdx)

namespace VvpVector2

/- A clean vector that is not empty. -/
def Whole (v : VvpVector2) : Prop := v.Clean ∧ 0 < v.wid

theorem halves_shiftRight :
    Halves isZero (fun v : VvpVector2 => v.shiftRight 1) Whole
      whole := by
  refine ⟨fun v _ => isZero_iff v, fun v h _ => ?_⟩
  have hWid := h.2
  rcases (shiftRight_spec v 1).1 (Or.inl hWid) with ⟨res, hRes⟩
  rcases shiftRight_of_clean h.1 hRes with ⟨hSame, hWhole⟩
  refine ⟨res, hRes, ⟨?_, by rw [hSame]; exact hWid⟩, hWhole⟩
  unfold Clean
  rw [hWhole, hSame]
  exact Nat.lt_of_le_of_lt (Nat.div_le_self _ _) h.1

theorem trimWidth_pos (v : VvpVector2) {wid : Nat} (h : 0 < wid) : 0 < trimWidth v wid := by
  induction wid with
  | zero => exact h
  | succ wid ih =>
    cases wid with
    | zero => exact Nat.one_pos
    | succ wid =>
      unfold trimWidth
      grind

end VvpVector2

/- The bits of a two-state value. -/
def clogBits (value : List Bool) : List VvpBit4 :=
  value.map fun b => if b then .one else .zero

/- The number of a two-state value. -/
def clogNumber (value : List Bool) : Nat :=
  TwosComplement.low (fun i => value.getD i false) value.length

theorem getElem_clogBits {value : List Bool} {idx : Nat} (h : idx < (clogBits value).length) :
    (clogBits value)[idx] =
      if value.getD idx false then .one else .zero := by
  unfold clogBits at h ⊢
  rw [List.length_map] at h
  rw [List.getElem_map, List.getD_eq_getElem _ _ h]

theorem whole_clogVector (value : List Bool) :
    (VvpVector2.copyFromThat (clogVector (clogBits value))).whole = clogNumber value := by
  have hLength : (clogBits value).length = value.length := List.length_map _
  rcases clogVector_spec (clogBits value) with ⟨hSize, hBits⟩
  apply Nat.eq_of_testBit_eq
  intro idx
  rw [VvpVector2.testBit_copyFromThat]
  unfold clogNumber
  by_cases hIdx : idx < value.length
  · rw [TwosComplement.testBit_low hIdx, hBits idx (by rw [hLength]; exact hIdx), getElem_clogBits]
    cases value.getD idx false <;> rfl
  · have hOut : (clogVector (clogBits value)).value idx = .x := by
      unfold VvpVector4.value
      rw [hSize, hLength, if_pos (Nat.not_lt.mp hIdx)]
    rw [hOut, Nat.testBit_lt_two_pow]
    · rfl
    · exact Nat.lt_of_lt_of_le (TwosComplement.low_lt _ _)
        (Nat.pow_le_pow_right (by decide) (Nat.not_lt.mp hIdx))

/- A two-state value has no unknown bit. -/
theorem hasXz_clogVector {value : List Bool} (hPos : 0 < value.length) :
    (clogVector (clogBits value)).hasXz = false := by
  have hLength : (clogBits value).length = value.length := List.length_map _
  rcases clogVector_spec (clogBits value) with ⟨hSize, hBits⟩
  rw [VvpVector4.hasXz_eq_false_iff (by omega)]
  intro idx hIdx
  rw [hSize] at hIdx
  rw [hBits idx hIdx, getElem_clogBits]
  cases value.getD idx false
  · exact Or.inl rfl
  · exact Or.inr rfl

/- The value of a vector at run time is the least power of two
   that is not smaller. -/
theorem vpipCalcClog2_spec {value : List Bool} (hPos : 0 < value.length) :
    vpipCalcClog2 (clogBits value) =
      some ⟨BitVec.ofNat 32 (Nat.clog 2 (clogNumber value)), 0#32⟩ := by
  have hClean := VvpVector2.clean_copyFromThat (clogVector (clogBits value))
  have hNumber := whole_clogVector value
  have hWid : 0 < (VvpVector2.copyFromThat (clogVector (clogBits value))).trim.wid := by
    apply VvpVector2.trimWidth_pos
    change 0 < (clogVector (clogBits value)).size_
    rw [(clogVector_spec _).1]
    exact (@List.length_map _ _ value _).symm ▸ hPos
  rcases VvpVector2.trim_of_clean hClean with ⟨hTrim, hSame⟩
  rw [hNumber] at hSame
  have hVec : VvpVector2.ofVector4 (clogVector (clogBits value))
      false = VvpVector2.copyFromThat (clogVector (clogBits value)) := rfl
  unfold vpipCalcClog2
  simp only [hasXz_clogVector hPos, hVec]
  generalize (VvpVector2.copyFromThat (clogVector (clogBits value))).trim = vec2 at *
  have hCount : (if !vec2.isZero then
        (vec2.subAssign (VvpVector2.ofLong 1#64 vec2.wid)).bind
          fun vec2 => countHalvings VvpVector2.isZero
            (fun vec2 => vec2.shiftRight 1) (vec2.wid + 1) 0 vec2
      else some 0) = some (Nat.clog 2 (clogNumber value)) := by
    cases hZero : vec2.isZero with
    | true =>
      have hNone := (VvpVector2.isZero_iff vec2).mp hZero
      rw [hSame] at hNone
      rw [hNone]
      rfl
    | false =>
      have hSome : 0 < clogNumber value := by
        rw [← hSame]
        apply Nat.pos_of_ne_zero
        intro hNone
        rw [(VvpVector2.isZero_iff vec2).mpr hNone] at hZero
        cases hZero
      have hOne : (VvpVector2.ofLong 1#64 vec2.wid).whole = 1 := VvpVector2.whole_ofLong 1#64 hWid
      rcases VvpVector2.subAssign_of_le
          (a := vec2) (b := VvpVector2.ofLong 1#64 vec2.wid) rfl
          (by rw [hOne, hSame]; exact hSome) with
        ⟨less, hSub, hLessWid, hLess⟩
      rw [hOne, hSame] at hLess
      have hGood : VvpVector2.Whole less := by
        refine ⟨?_, by rw [hLessWid]; exact hWid⟩
        unfold VvpVector2.Clean at hTrim ⊢
        grind
      have hFuel : less.whole.size < less.wid + 1 := by
        rw [Nat.lt_succ_iff, Nat.size_le]
        exact hGood.1
      have hLoop := countHalvings_eq VvpVector2.halves_shiftRight (less.wid + 1) 0 less hGood hFuel
      rw [hLess, size_pred hSome, Nat.zero_add] at hLoop
      rw [hSub]
      exact hLoop
  rw [hCount]
  rfl

end EpicSim

----
-- Both Times
----

namespace EpicSim

/- The sized constant with some bits. -/
def clogConst (signed : Bool) (value : List Bool) : Verinum where
  bits := value.map VerinumV.ofBool
  has_len := true
  has_sign := signed
  is_single := false

/- Both values of `$clog2` are the least power of two that is
   not smaller than the number. -/
def ClogAgrees (signed : Bool) (value : List Bool) : Prop :=
  ∃ folded called,
    Verinum.evaluateClog2 32 (clogConst signed value) = some folded ∧
    vpipCalcClog2 (clogBits value) = some called ∧
    folded.Defined ∧ called.bval = 0#32 ∧
    folded.integer = called.aval.toInt ∧
    folded.integer = Nat.clog 2 (clogNumber value)

theorem clogConst_bits (signed : Bool) (value : List Bool) :
    (clogConst signed value).HasBits value.length (fun i => value.getD i false) := by
  apply Verinum.hasBits_of_map
  apply List.ext_getElem
  · simp [clogConst]
  · intro i hi hi'
    simp [clogConst] at hi ⊢
    simp [hi]

theorem clog_lt_iff (n : Nat) : Nat.clog 2 n < 32 ↔ n ≤ 2 ^ 31 := by
  rw [Nat.lt_succ_iff, Nat.clog_le_iff_le_pow (by decide)]

/- The constant folds to the width of an integer where it is
   negative and small. -/
theorem folded_integer (signed : Bool) {value : List Bool} (hPos : 1 ≤ value.length)
    (hLen : value.length < 2 ^ 31) :
    ∃ folded,
      Verinum.evaluateClog2 32 (clogConst signed value) = some folded ∧
      folded.Defined ∧
      folded.integer =
        (if (signed = true ∧
            value.getD (value.length - 1) false = true) ∧ clogNumber value ≤ 2 ^ 31 then 32
        else Nat.clog 2 (clogNumber value) : Nat) := by
  have hBits := clogConst_bits signed value
  have hLength := hBits.len_eq
  rcases Verinum.evaluateClog2_spec hBits.defined rfl
      (by rw [hLength]; exact hPos) (by rw [hLength]; exact hLen)
    with ⟨folded, hFolded, hDefined, hValue⟩
  refine ⟨folded, hFolded, hDefined, ?_⟩
  have hNumber : (clogConst signed value).number = clogNumber value := hBits.number
  have hNegative : (clogConst signed value).isNegative = true ↔
      signed = true ∧
        value.getD (value.length - 1) false = true := by
    unfold Verinum.isNegative
    rw [hLength, hBits.get_eq _ (by omega)]
    change (VerinumV.ofBool _ == .v1 && signed) = true ↔ _
    cases value.getD (value.length - 1) false <;>
      cases signed <;> decide
  simpa only [hNumber, hNegative, clog_lt_iff] using hValue

/- The compiler and the run time agree on `$clog2`, apart from
   negative constants of at most 2^31. -/
theorem clog2_agrees_iff (signed : Bool) (value : List Bool) (hPos : 1 ≤ value.length)
    (hLen : value.length < 2 ^ 31) :
    ClogAgrees signed value ↔
      (signed = true → value.getD (value.length - 1) false = true →
        2 ^ 31 < clogNumber value) := by
  rcases folded_integer signed hPos hLen with ⟨folded, hFolded, hDefined, hValue⟩
  have hClog : Nat.clog 2 (clogNumber value) < 2 ^ 31 := by
    refine Nat.lt_of_le_of_lt ?_ hLen
    rw [Nat.clog_le_iff_le_pow (by decide)]
    exact Nat.le_of_lt (TwosComplement.low_lt _ _)
  have hCalled : (BitVec.ofNat 32
      (Nat.clog 2 (clogNumber value))).toInt = Nat.clog 2 (clogNumber value) := by
    have hNat : (BitVec.ofNat 32
        (Nat.clog 2 (clogNumber value))).toNat = Nat.clog 2 (clogNumber value) :=
      Nat.mod_eq_of_lt (by omega)
    rw [BitVec.toInt_eq_toNat_of_lt (by rw [hNat]; omega), hNat]
  constructor
  · rintro ⟨folded', called, hEq, _, _, _, _, hRight⟩ hSigned hTop
    rw [hFolded, Option.some.injEq] at hEq
    subst hEq
    by_contra hLe
    have hSmall := Nat.not_lt.mp hLe
    have hBelow := (clog_lt_iff _).mpr hSmall
    rw [hValue, if_pos ⟨⟨hSigned, hTop⟩, hSmall⟩] at hRight
    omega
  · intro hLarge
    have hPlain : folded.integer = Nat.clog 2 (clogNumber value) := by
      rw [hValue, if_neg]
      rintro ⟨⟨hSigned, hTop⟩, hLe⟩
      exact absurd (hLarge hSigned hTop) (Nat.not_lt.mpr hLe)
    exact ⟨folded, _, hFolded, vpipCalcClog2_spec hPos, hDefined,
      rfl, by rw [hPlain]; exact hCalled.symm, hPlain⟩

/- A signed byte of ones. -/
theorem clog2_agrees_iff_byte :
    ClogAgrees true (List.replicate 8 true) ↔
      (true = true →
        (List.replicate 8 true).getD ((List.replicate 8 true).length - 1) false = true →
        2 ^ 31 < clogNumber (List.replicate 8 true)) :=
  clog2_agrees_iff true (List.replicate 8 true) (by decide) (by decide)

/- The constant `8'shff` folds to 32, and its bits have the
   logarithm 8. -/
theorem clog2_of_negative_byte :
    ¬∀ (signed : Bool) (value : List Bool), 1 ≤ value.length →
      value.length < 2 ^ 31 → ClogAgrees signed value := by
  intro h
  rcases @folded_integer true (List.replicate 8 true)
      (by decide) (by decide) with ⟨folded, hFolded, _, hValue⟩
  rcases h true (List.replicate 8 true) (by decide) (by decide)
    with ⟨folded', called, hEq, _, _, _, _, hRight⟩
  rw [hFolded, Option.some.injEq] at hEq
  subst hEq
  have hSmall : clogNumber (List.replicate 8 true) ≤ 2 ^ 31 := by decide
  have hBelow := (clog_lt_iff _).mpr hSmall
  rw [hValue, if_pos ⟨⟨rfl, rfl⟩, hSmall⟩] at hRight
  omega

end EpicSim
