import EpicSim.Lib.Halving
import EpicSim.Ivl.VerinumDivision
import EpicSim.Ivl.Netmisc

/-
  `$clog2` of a constant.

  The number is taken without its sign, and one less than it is
  shifted down until nothing is left.  A negative constant has
  at least the width of an integer as its result.
-/

----
-- Evaluation
----

namespace EpicSim

open Halving TwosComplement

namespace Verinum

/- `evaluate_clog2_` of a `NetEConst`. -/
def evaluateClog2 (integer_width : Nat) (arg : Verinum) : Option Verinum :=
  if !arg.isDefined then
    some ((fill .vx integer_width true).withSign true)
  else
    let is_neg := arg.isNegative
    let arg := if is_neg && !arg.has_len then arg.trimVnum else arg
    let arg := arg.withSign false
    let res :=
      if !arg.isZero then
        (arg.sub (ofUInt64 1#64 1)).bind fun arg =>
          countHalvings isZero (fun arg => some (arg.shiftRight 1)) (arg.len + 1) 0 arg
      else some 0
    res.map fun res =>
      let res :=
        if is_neg && decide (res < integer_width) then
          integer_width
        else res
      (ofUInt64 (BitVec.ofNat 64 res) integer_width).withSign true

----
-- Sized Numbers
----

/- A defined number without a sign, of a fixed length. -/
structure Sized (v : Verinum) : Prop where
  defined : v.Defined
  has_len : v.has_len = true
  has_sign : v.has_sign = false
  len_pos : 0 < v.len
  stored : v.len + 1 < 2 ^ 32

theorem Sized.isZero_iff {v : Verinum} (h : v.Sized) : v.isZero = true ↔ v.number = 0 := by
  rw [Verinum.isZero_iff h.defined, integer_eq_number h.has_sign]
  exact Int.natCast_eq_zero

/- Taking one away from a number that is not zero. -/
theorem Sized.sub_one {v : Verinum} (h : v.Sized) (hPos : 0 < v.number) :
    ∃ res, v.sub (ofUInt64 1#64 1) = some res ∧ res.Sized ∧
      res.len = v.len ∧ res.number = v.number - 1 := by
  have hOne : (ofUInt64 1#64 1).HasBits 1 (1#64).getLsbD := hasBits_of_map rfl
  have hOperands : Operands v (ofUInt64 1#64 1) :=
    { left_defined := h.defined
      right_defined := hOne.defined
      left_len := h.len_pos
      right_len := by decide
      has_sign := h.has_sign }
  have hMax : max v.len (ofUInt64 1#64 1).len = v.len := by
    exact Nat.max_eq_left h.len_pos
  have hRoom := h.stored
  rw [← hMax] at hRoom
  rcases sub_spec hOperands hRoom with ⟨res, hSub, hSummed⟩
  have hSized : (v.has_len && (ofUInt64 1#64 1).has_len) =
      true := by
    rw [h.has_len]
    rfl
  rw [hMax, hSized, h.has_sign] at hSummed
  rcases hSummed.modulo rfl with ⟨hLen, hMod⟩
  have hInteger : (ofUInt64 1#64 1).integer = 1 := by decide
  rw [integer_eq_number hSummed.has_sign, integer_eq_number h.has_sign] at hMod
  have hNat : res.number ≡ v.number - 1 [MOD 2 ^ v.len] := by
    rw [← Int.natCast_modEq_iff, Nat.cast_pred hPos]
    push_cast
    exact hMod
  have hRes := number_lt res
  rw [hLen] at hRes
  have hNumber : res.number = v.number - 1 :=
    hNat.eq_of_lt_of_lt hRes (Nat.lt_of_le_of_lt (Nat.sub_le _ _) (number_lt v))
  refine ⟨res, hSub, ?_, hLen, hNumber⟩
  exact
    { defined := hSummed.defined
      has_len := hSummed.has_len
      has_sign := hSummed.has_sign
      len_pos := by rw [hLen]; exact h.len_pos
      stored := by rw [hLen]; exact h.stored }

/- The loop of the evaluation halves its number. -/
theorem halves_shiftRight :
    Halves isZero (fun arg : Verinum => some (arg.shiftRight 1)) Sized number := by
  refine ⟨fun v h => h.isZero_iff, fun v h _ => ?_⟩
  have hStored := h.stored
  rcases shiftRight_spec h.defined h.len_pos (by omega) 1 with
    ⟨hDefined, hInteger, hHasLen, hHasSign, hLen, _⟩
  have hSame := hLen h.has_len
  have hSign := hHasSign.trans h.has_sign
  refine ⟨_, rfl, ?_, ?_⟩
  · exact
      { defined := hDefined
        has_len := hHasLen.trans h.has_len
        has_sign := hSign
        len_pos := by rw [hSame]; exact h.len_pos
        stored := by rw [hSame]; exact hStored }
  · rw [integer_eq_number hSign, integer_eq_number h.has_sign] at hInteger
    exact_mod_cast hInteger

/- A small result, as an integer of 32 bits. -/
theorem integer_result {res : Nat} (hLt : res < 2 ^ 31) :
    ((ofUInt64 (BitVec.ofNat 64 res) 32).withSign true).Defined ∧
    ((ofUInt64 (BitVec.ofNat 64 res) 32).withSign true).integer =
      res := by
  have hBits : ((ofUInt64 (BitVec.ofNat 64 res) 32).withSign
      true).HasBits 32 (BitVec.ofNat 64 res).getLsbD :=
    hasBits_of_map rfl
  have hBit : ∀ i < 32,
      (BitVec.ofNat 64 res).getLsbD i = res.testBit i := by grind
  refine ⟨hBits.defined, ?_⟩
  rw [hBits.integer, value_congr hBit]
  change value true 32 res.testBit = res
  rw [value_eq_iff]
  · unfold Fits
    rw [if_pos rfl]
    omega
  · rw [low_testBit]
    push_cast
    exact Int.mod_modEq _ _

/- The folded value of a sized constant: the least power of two
   that is not smaller, or the width of an integer for a
   negative one with less. -/
theorem evaluateClog2_spec {arg : Verinum} (hDefined : arg.Defined)
    (hSized : arg.has_len = true) (hPos : 0 < arg.len) (hLen : arg.len < 2 ^ 31) :
    ∃ res, evaluateClog2 32 arg = some res ∧ res.Defined ∧
      res.integer =
        (if arg.isNegative = true ∧ Nat.clog 2 arg.number < 32 then
          32
        else Nat.clog 2 arg.number : Nat) := by
  have hPlain : (arg.withSign false).Sized :=
    { defined := hDefined
      has_len := hSized
      has_sign := rfl
      len_pos := hPos
      stored := by
        change arg.len + 1 < 2 ^ 32
        omega }
  have hNumber : (arg.withSign false).number = arg.number := rfl
  have hClog : Nat.clog 2 arg.number ≤ arg.len := by
    rw [Nat.clog_le_iff_le_pow (by decide)]
    exact Nat.le_of_lt (number_lt arg)
  -- the loop counts up to the logarithm
  have hCount : (if !(arg.withSign false).isZero then
        ((arg.withSign false).sub (ofUInt64 1#64 1)).bind
          fun arg => countHalvings isZero (fun arg => some (arg.shiftRight 1)) (arg.len + 1) 0 arg
      else some 0) = some (Nat.clog 2 arg.number) := by
    cases hZero : (arg.withSign false).isZero with
    | true =>
      have hNone := hPlain.isZero_iff.mp hZero
      rw [hNumber] at hNone
      rw [hNone]
      rfl
    | false =>
      have hSome : 0 < arg.number := by
        apply Nat.pos_of_ne_zero
        intro hNone
        rw [hPlain.isZero_iff.mpr hNone] at hZero
        cases hZero
      rcases hPlain.sub_one (by rw [hNumber]; exact hSome) with
        ⟨less, hSub, hLess, hLessLen, hLessNumber⟩
      rw [hNumber] at hLessNumber
      have hFuel : less.number.size < less.len + 1 := by
        rw [Nat.lt_succ_iff, Nat.size_le]
        exact number_lt less
      have hLoop := countHalvings_eq halves_shiftRight (less.len + 1) 0 less hLess hFuel
      rw [hLessNumber, size_pred hSome, Nat.zero_add] at hLoop
      rw [hSub]
      exact hLoop
  have hDef : (!arg.isDefined) = false := by
    have hTrue : arg.isDefined = true := hDefined
    rw [hTrue]
    rfl
  unfold evaluateClog2
  rw [hDef]
  simp only [hSized, Bool.not_true, Bool.and_false,
    Bool.false_eq_true, if_false, hCount]
  have hBelow : (if (arg.isNegative &&
      decide (Nat.clog 2 arg.number < 32)) = true then 32
      else Nat.clog 2 arg.number) < 2 ^ 31 := by
    split_ifs <;> omega
  refine ⟨_, rfl, (integer_result hBelow).1, ?_⟩
  rw [(integer_result hBelow).2]
  simp only [Bool.and_eq_true, decide_eq_true_iff]

end Verinum

end EpicSim
