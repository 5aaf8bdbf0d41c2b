import EpicSim.Vvp.CompareAgree
import EpicSim.Vvp.ThreadDivide

/-
  The remainder of procedural code, one bit after another.
-/

namespace EpicSim

open PackedWords Limbs

----
-- Bits
----

theorem adder_addBits : Adder addBits := by
  have hTotal : ∀ a b carry : BitVec 1,
      (addBits a b carry).1.toNat + 2 ^ 1 * (addBits a b carry).2.toNat =
        a.toNat + b.toNat + carry.toNat := by
    decide
  constructor
  · intro a b carry _
    exact hTotal a b carry
  · omega

theorem bit_eq_one {bit : BitVec 1} (h : bit ≠ 0#1) : bit = 1#1 := by
  revert bit
  decide

/- The bits of a vector make up its number. -/
theorem readBits_spec (val : VvpVector4) (is_neg : Bool) :
    (readBits val is_neg).length = val.size_ ∧
      toNat (readBits val is_neg) =
        if is_neg then
          (2 ^ val.size_ - val.number) % 2 ^ val.size_
        else val.number := by
  have hLength : ((List.range val.size_).map fun idx =>
      if val.value idx = .one then 1#1 else 0#1).length =
        val.size_ := by
    rw [List.length_map, List.length_range]
  have hNumber : toNat ((List.range val.size_).map fun idx =>
      if val.value idx = .one then 1#1 else 0#1) =
        val.number := by
    apply Nat.eq_of_testBit_eq
    intro idx
    rw [testBit_toNat (by decide), VvpVector4.testBit_number, Nat.div_one,
      Nat.mod_one, List.getD_eq_getElem?_getD, List.getElem?_map]
    by_cases hIn : idx < val.size_
    · grind
    · have hPast : val.value idx = .x := by
        exact if_pos (Nat.not_lt.mp hIn)
      grind
  unfold readBits
  cases is_neg with
  | false => exact ⟨hLength, hNumber⟩
  | true =>
    have hNegate := toNat_negate adder_addBits (by decide) hLength
    grind

/- The last set bit bounds the number from both sides. -/
theorem lastSet_spec (bits : List (BitVec 1)) (len : Nat) :
    (lastSet bits len = -1 ∧ toNat (bits.take len) = 0) ∨
      ∃ m < len, lastSet bits len = m ∧
        2 ^ m ≤ toNat (bits.take len) ∧
        toNat (bits.take len) < 2 ^ (m + 1) := by
  induction len with
  | zero => exact Or.inl ⟨rfl, rfl⟩
  | succ len ih =>
    have hNext := toNat_take_succ len bits
    rw [Nat.one_mul] at hNext
    rw [lastSet, hNext]
    by_cases hSet : bits.getD len 0#1 ≠ 0#1
    · rw [bit_eq_one hSet]
      have hLow := toNat_take len bits
      have hLess := Nat.mod_lt (toNat bits) (Nat.two_pow_pos (1 * len))
      grind
    · rw [not_not.mp hSet]
      rcases ih with hNone | ⟨m, hM, hRest⟩
      · exact Or.inl hNone
      · exact Or.inr ⟨m, by omega, hRest⟩

----
-- The Loop
----

/-
  From each place on, the rest is below twice the divisor,
  and one subtraction there brings it below the divisor.
-/
theorem modLoop_spec {divisor : List (BitVec 1)} {copylen : Nat}
    (hPos : 0 < toNat divisor) (hCopy : copylen ≤ divisor.length)
    (hFits : 2 * toNat divisor ≤ 2 ^ copylen) {places : Nat}
    {z : List (BitVec 1)} (hInside : places + copylen ≤ z.length + 1)
    (hBelow : toNat z < toNat divisor * 2 ^ places) :
    (modLoop (divisor.map (fun bit => ~~~bit)) copylen places z).length = z.length ∧
      toNat (modLoop (divisor.map (fun bit => ~~~bit)) copylen
        places z) = toNat z % toNat divisor := by
  induction places generalizing z with
  | zero =>
    rw [pow_zero, Nat.mul_one] at hBelow
    exact ⟨rfl, (Nat.mod_eq_of_lt hBelow).symm⟩
  | succ current ih =>
    have hWindowLength :
        ((z.drop current).take copylen).length = copylen := by
      rw [List.length_take, List.length_drop]
      omega
    have hTake : toNat (divisor.take copylen) = toNat divisor := by
      rw [toNat_take, Nat.one_mul]
      exact Nat.mod_eq_of_lt (by omega)
    have hDivisorLength :
        (divisor.take copylen).length = copylen := by
      rw [List.length_take]
      omega
    have hHigh : toNat z / 2 ^ current < 2 * toNat divisor := by
      rw [Nat.div_lt_iff_lt_mul (Nat.two_pow_pos _), Nat.mul_comm 2, Nat.mul_assoc, ← Nat.pow_succ']
      exact hBelow
    have hWindow : toNat ((z.drop current).take copylen) = toNat z / 2 ^ current := by
      rw [toNat_take, toNat_drop, Nat.one_mul, Nat.one_mul]
      exact Nat.mod_eq_of_lt (by omega)
    have hNone : toNat (z.drop (current + copylen)) = 0 := by
      rw [toNat_drop, Nat.one_mul, Nat.pow_add, ← Nat.div_div_eq_div_mul]
      exact Nat.div_eq_of_lt (by omega)
    have hFlip := toNat_complement (divisor.take copylen)
    rw [List.map_take, hDivisorLength, Nat.one_mul] at hFlip
    have hSame : ((z.drop current).take copylen).length =
        ((divisor.map (fun bit => ~~~bit)).take copylen).length := by grind
    have hSum := ripple_spec adder_addBits hSame (by decide : (1#1).toNat ≤ 1)
    have hSize := ripple_length addBits _ _ 1#1 hSame
    rw [hWindowLength, Nat.one_mul] at hSum
    rw [hWindowLength] at hSize
    rw [modLoop]
    dsimp only
    generalize ripple addBits ((z.drop current).take copylen)
      ((divisor.map (fun bit => ~~~bit)).take copylen) 1#1 =
        next at *
    have hOne : (1#1).toNat = 1 := rfl
    have hNext := toNat_lt next.1
    rw [hSize, Nat.one_mul] at hNext
    have hSplit := Nat.mod_add_div (toNat z) (2 ^ current)
    have hRange : toNat divisor * 2 ^ current = 2 ^ current * toNat divisor := Nat.mul_comm _ _
    -- what the digits below a bound leave
    have hUnder : ∀ q, q < toNat divisor →
        toNat z % 2 ^ current + 2 ^ current * q < toNat divisor * 2 ^ current := by
      intro q hQ
      have hMul : 2 ^ current * (q + 1) ≤ 2 ^ current * toNat divisor := Nat.mul_le_mul_left _ hQ
      rw [Nat.mul_succ] at hMul
      omega
    by_cases hCarry : next.2 ≠ 0#1
    · rw [if_pos hCarry]
      rw [bit_eq_one hCarry, hOne] at hSum
      have hDifference : toNat next.1 + toNat divisor = toNat z / 2 ^ current := by omega
      have hTakeLength : (z.take current).length = current := by
        rw [List.length_take]
        omega
      have hLength : (z.take current ++ next.1 ++
          z.drop (current + copylen)).length = z.length := by grind
      have hNumber : toNat (z.take current ++ next.1 ++
          z.drop (current + copylen)) = toNat z % 2 ^ current + 2 ^ current * toNat next.1 := by
        rw [toNat_append, hNone, Nat.mul_zero, Nat.add_zero,
          toNat_append, hTakeLength, toNat_take, Nat.one_mul]
      have hRest : toNat (z.take current ++ next.1 ++
          z.drop (current + copylen)) + toNat divisor * 2 ^ current = toNat z := by grind
      rcases ih (z := z.take current ++ next.1 ++
          z.drop (current + copylen)) (by omega)
          (by rw [hNumber]; exact hUnder _ (by omega)) with
        ⟨hSizes, hMod⟩
      refine ⟨hSizes.trans hLength, ?_⟩
      rw [hMod, ← hRest, Nat.add_mul_mod_self_left]
    · rw [if_neg hCarry]
      rw [not_not.mp hCarry, BitVec.toNat_zero] at hSum
      apply ih (by omega)
      rw [← hSplit]
      exact hUnder _ (by omega)

----
-- The Modulus
----

theorem fill_allX (wid : Nat) : (VvpVector4.fill wid .x).AllX wid :=
  ⟨rfl, fun _ hIdx => VvpVector4.value_fill hIdx .x⟩

/- Bits that are written one by one encode their number. -/
theorem writeBits_encodes {wid : Nat} {out : List (BitVec 1)} {n : Int}
    (hMod : (toNat out : Int) ≡ n [ZMOD 2 ^ wid]) :
    ((List.range wid).foldl (fun tmp idx =>
      tmp.setBit idx (if out.getD idx 0#1 ≠ 0#1 then .one else .zero))
      (VvpVector4.fill wid .x)).Encodes wid n := by
  rcases VvpVector4.setBits_spec (VvpVector4.fill wid .x)
    (fun idx => if out.getD idx 0#1 ≠ 0#1 then .one else .zero)
    (Nat.le_refl wid) with ⟨hSize, hBits⟩
  refine VvpVector4.encodes_of_testBit hSize ?_ hMod
  intro idx hIdx
  rw [hBits idx hIdx, testBit_toNat (by decide), Nat.div_one, Nat.mod_one]
  generalize out.getD idx 0#1 = bit
  revert bit
  decide

theorem neg_modEq {r wid : Nat} (hLe : r ≤ 2 ^ wid) :
    (((2 ^ wid - r) % 2 ^ wid : Nat) : Int) ≡ -(r : Int) [ZMOD 2 ^ wid] := by
  have hCast : ((2 ^ wid - r : Nat) : Int) = 2 ^ wid - (r : Int) := by
    norm_cast
  rw [Int.natCast_mod, hCast]
  apply (Int.mod_modEq _ _).trans
  rw [Int.modEq_iff_dvd]
  exact ⟨-1, by ring⟩

/- The remainder of the bits, with the sign of the dividend. -/
theorem doVerylongMod_spec {vala valb : VvpVector4} (hSize : valb.size_ = vala.size_)
    (left_is_neg right_is_neg : Bool) :
    (¬ (vala.Defined ∧ valb.Defined) ∨ toNat (readBits valb right_is_neg) = 0 →
      (doVerylongMod vala valb left_is_neg right_is_neg).AllX vala.size_) ∧
    (vala.Defined → valb.Defined →
      0 < toNat (readBits valb right_is_neg) →
      (doVerylongMod vala valb left_is_neg
        right_is_neg).Encodes vala.size_
          (if left_is_neg then
            -((toNat (readBits vala left_is_neg) % toNat (readBits valb right_is_neg) : Nat) : Int)
          else
            (toNat (readBits vala left_is_neg) % toNat (readBits valb right_is_neg) : Nat))) := by
  have hXz : (List.range vala.size_).any (fun idx =>
      (vala.value idx).isXz || (valb.value idx).isXz) = true ↔
        ¬ (vala.Defined ∧ valb.Defined) := by
    rw [← VvpVector4.exists_isXz_iff hSize, List.any_eq_true]
    simp only [Bool.or_eq_true]
  have hLenA := (readBits_spec vala left_is_neg).1
  have hLenB := (readBits_spec valb right_is_neg).1
  rw [hSize] at hLenB
  unfold doVerylongMod
  dsimp only
  generalize vala.size_ = len at *
  generalize readBits vala left_is_neg = dividend at *
  generalize readBits valb right_is_neg = divisor at *
  have hLastB := lastSet_spec divisor len
  rw [List.take_of_length_le (Nat.le_of_eq hLenB)] at hLastB
  constructor
  · intro hBad
    by_cases hUndefined : ¬ (vala.Defined ∧ valb.Defined)
    · rw [if_pos (hXz.mpr hUndefined)]
      exact fill_allX len
    · have hZero := hBad.resolve_left hUndefined
      rw [if_neg (mt hXz.mp hUndefined)]
      rcases hLastB with ⟨hNone, -⟩ | ⟨m, -, -, hPow, -⟩
      · rw [if_pos hNone]
        exact fill_allX len
      · have hPos := Nat.two_pow_pos m
        omega
  · intro hDefA hDefB hPos
    rw [if_neg (fun h => hXz.mp h ⟨hDefA, hDefB⟩)]
    rcases hLastB with ⟨-, hZero⟩ | ⟨mxa, hMxa, hLast, hLow, hHigh⟩
    · omega
    rw [hLast]
    have hTakeA : (dividend ++ [0#1]).take len = dividend := by rw [← hLenA, List.take_left]
    have hLastA := lastSet_spec (dividend ++ [0#1]) len
    rw [hTakeA] at hLastA
    have hZLength : (dividend ++ [0#1]).length = len + 1 := by
      rw [List.length_append, hLenA]
      rfl
    have hZ : toNat (dividend ++ [0#1]) = toNat dividend := by
      rw [toNat_append]
      rfl
    -- the complement has one more bit than the divisor
    have hComplement :
        divisor.map (fun bit => ~~~bit) ++ [1#1] = (divisor ++ [0#1]).map (fun bit => ~~~bit) := by
      rw [List.map_append]
      rfl
    have hWider : toNat (divisor ++ [0#1]) = toNat divisor := by
      rw [toNat_append]
      rfl
    have hWiderLength : (divisor ++ [0#1]).length = len + 1 := by
      rw [List.length_append, hLenB]
      rfl
    rw [hComplement]
    have hRest : ∃ z,
        (if (mxa : Int) > lastSet (dividend ++ [0#1]) len then
          dividend ++ [0#1]
        else
          modLoop ((divisor ++ [0#1]).map (fun bit => ~~~bit))
            ((mxa : Int) + 2).toNat
            (lastSet (dividend ++ [0#1]) len - mxa + 1).toNat
            (dividend ++ [0#1])) = z ∧
        z.length = len + 1 ∧
        toNat z = toNat dividend % toNat divisor := by
      by_cases hAbove : (mxa : Int) > lastSet (dividend ++ [0#1]) len
      · refine ⟨_, if_pos hAbove, hZLength, ?_⟩
        rw [hZ, Nat.mod_eq_of_lt]
        rcases hLastA with ⟨-, hZero⟩ | ⟨mxz, -, hMxz, -, hTop⟩
        · omega
        · have hPow := Nat.pow_le_pow_right (by decide : 0 < 2) (show mxz + 1 ≤ mxa by omega)
          omega
      · rcases hLastA with ⟨hNone, -⟩ | ⟨mxz, hIn, hMxz, -, hTop⟩
        · omega
        · rw [hMxz] at hAbove ⊢
          have hCopy : ((mxa : Int) + 2).toNat = mxa + 2 := by omega
          have hPlaces : ((mxz : Int) - mxa + 1).toNat = mxz - mxa + 1 := by omega
          have hFits : 2 * toNat (divisor ++ [0#1]) ≤ 2 ^ (mxa + 2) := by
            rw [Nat.pow_succ 2 (mxa + 1)]
            omega
          have hBelow : toNat (dividend ++ [0#1]) <
              toNat (divisor ++ [0#1]) * 2 ^ (mxz - mxa + 1) := by
            rw [hZ, hWider]
            calc
              toNat dividend < 2 ^ (mxz + 1) := hTop
              _ = 2 ^ mxa * 2 ^ (mxz - mxa + 1) := by
                  rw [← pow_add]
                  congr 1
                  omega
              _ ≤ toNat divisor * 2 ^ (mxz - mxa + 1) := Nat.mul_le_mul_right _ hLow
          rcases modLoop_spec (by rw [hWider]; exact hPos)
              (by rw [hWiderLength]; omega) hFits
              (by rw [hZLength]; omega) hBelow with
            ⟨hLength, hMod⟩
          grind
    rcases hRest with ⟨z, hZEq, hLength, hNumber⟩
    rw [hZEq]
    have hLess : toNat dividend % toNat divisor < 2 ^ len := by
      have hLt := toNat_lt divisor
      rw [hLenB, Nat.one_mul] at hLt
      exact Nat.lt_trans (Nat.mod_lt _ hPos) hLt
    have hTake : toNat (z.take len) = toNat dividend % toNat divisor := by
      rw [toNat_take, Nat.one_mul, hNumber]
      exact Nat.mod_eq_of_lt hLess
    apply writeBits_encodes
    cases left_is_neg with
    | false =>
      simp only [Bool.false_eq_true, if_false]
      rw [hTake]
    | true =>
      simp only [if_true]
      have hTakeLength : (z.take len).length = len := by
        rw [List.length_take]
        omega
      have hNegate := (toNat_negate adder_addBits (by decide) hTakeLength).2
      rw [hTake, Nat.one_mul] at hNegate
      rw [hNegate]
      exact neg_modEq (Nat.le_of_lt hLess)

end EpicSim
