import EpicSim.Lib.Numerals

/-
  The text of a time in the units of `$timeformat`.

  Fewer zeros than needed are written behind the digits of a
  time that has several digits, all right of the point.
-/

----
-- The Text
----

namespace EpicSim

open List (replicate)
open Nat (toDigits log)
open Numerals

structure TimeformatInfo where
  units : Int
  suff : List Char

/- The loops that append zeros. -/
def zeros (n : Int) : List Char := replicate n.toNat '0'

/- Strip the leading zeros, but leave a single one. -/
def stripZeros : List Char → List Char
| '0' :: c :: value => stripZeros (c :: value)
| value => value

/- `get_time` -/
def getTime (timeformat_info : TimeformatInfo) (value : List Char) (prec time_units : Int) :
    List Char :=
  let shift := time_units - timeformat_info.units
  let value := stripZeros value
  let rtn :=
    if 0 ≤ shift then
      value ++ (if value.head? = some '0' then [] else zeros shift) ++
        (if 0 < prec then '.' :: zeros prec else [])
    else
      let len : Int := value.length
      let head := len + shift
      if 0 < head then
        value.take head.toNat ++
          if 0 < prec then
            '.' :: ((value.drop head.toNat).take prec.toNat ++ zeros (prec + shift))
          else []
      else
        let tail := prec + len + shift
        '0' :: ((if 0 < prec then ['.'] else []) ++ zeros (min (-head) prec) ++
          if 0 < tail then value.take tail.toNat ++ zeros (prec + shift + 1 - len) else [])
  rtn ++ timeformat_info.suff

/- A time, scaled by a power of ten and cut to some digits
   right of the point, in units of the last one. -/
def cutTime (time p : Nat) (exponent : Int) : Nat :=
  time * 10 ^ (p + exponent).toNat / 10 ^ (-(p + exponent)).toNat

/- A numeral with some digits right of the point. -/
def pointText (n p : Nat) : List Char :=
  toDigits 10 (n / 10 ^ p) ++ if p = 0 then [] else '.' :: padded 10 p n

----
-- Scaling
----

theorem head_toDigits (V : Nat) : (toDigits 10 V).head? = some '0' ↔ V = 0 := by
  constructor
  · intro hHead
    by_contra hPos
    have hDrop := dropWhile_padded (b := 10) (by decide) (by decide)
      (Nat.lt_pow_succ_log_self (by decide) V)
    rw [if_neg hPos] at hDrop
    have hNot := List.head?_dropWhile_not (fun ch => ch == '0') (padded 10 (log 10 V + 1) V)
    rw [hDrop, hHead] at hNot
    exact absurd hNot (by decide)
  · rintro rfl
    rfl

theorem stripZeros_spec (leading V : Nat) :
    stripZeros (replicate leading '0' ++ toDigits 10 V) = toDigits 10 V := by
  obtain ⟨c, value, hText⟩ := List.exists_cons_of_ne_nil (@Nat.toDigits_ne_nil V 10)
  induction leading with
  | zero =>
    rw [List.replicate_zero, List.nil_append]
    rcases Nat.eq_zero_or_pos V with rfl | hPos
    · rfl
    · have hHead := mt (head_toDigits V).mp (by omega)
      unfold stripZeros
      grind
  | succ leading ih =>
    obtain ⟨d, rest, hRest⟩ : ∃ d rest, replicate leading '0' ++ toDigits 10 V = d :: rest :=
      List.exists_cons_of_ne_nil (by rw [hText]; simp)
    rw [List.replicate_succ, List.cons_append, hRest, stripZeros, ← hRest, ih]

/- A time that is divided, to the left of the point. -/
theorem cutTime_div (V p m : Nat) : cutTime V p (-m) / 10 ^ p = V / 10 ^ m := by
  unfold cutTime
  rcases Nat.le_total m p with hLe | hLe
  · obtain ⟨j, rfl⟩ := Nat.exists_eq_add_of_le hLe
    have hUp : (((m + j : Nat) : Int) + -(m : Int)).toNat = j := by omega
    have hDown : (-(((m + j : Nat) : Int) + -(m : Int))).toNat = 0 := by omega
    rw [hUp, hDown, pow_zero, Nat.div_one, pow_add,
      Nat.mul_div_mul_right _ _ (Nat.pow_pos (by decide))]
  · obtain ⟨j, rfl⟩ := Nat.exists_eq_add_of_le hLe
    have hUp : ((p : Int) + -((p + j : Nat) : Int)).toNat = 0 := by omega
    have hDown : (-((p : Int) + -((p + j : Nat) : Int))).toNat = j := by omega
    rw [hUp, hDown, pow_zero, Nat.mul_one, Nat.div_div_eq_div_mul, ← pow_add, Nat.add_comm j p]

/- The digits right of the point are cut, or filled up. -/
theorem padded_cutTime (V p m : Nat) :
    padded 10 p (cutTime V p (-m)) = (padded 10 m V).take p ++ replicate (p - m) '0' := by
  unfold cutTime
  rcases Nat.le_total m p with hLe | hLe
  · obtain ⟨j, rfl⟩ := Nat.exists_eq_add_of_le hLe
    have hUp : (((m + j : Nat) : Int) + -(m : Int)).toNat = j := by omega
    have hDown : (-(((m + j : Nat) : Int) + -(m : Int))).toNat = 0 := by omega
    rw [hUp, hDown, pow_zero, Nat.div_one, padded_mul, Nat.add_sub_cancel_left,
      List.take_of_length_le (by rw [length_padded]; omega)]
  · obtain ⟨j, rfl⟩ := Nat.exists_eq_add_of_le hLe
    have hUp : ((p : Int) + -((p + j : Nat) : Int)).toNat = 0 := by omega
    have hDown : (-((p : Int) + -((p + j : Nat) : Int))).toNat = j := by omega
    rw [hUp, hDown, pow_zero, Nat.mul_one, take_padded, Nat.sub_eq_zero_of_le hLe,
      List.replicate_zero, List.append_nil]

/- A time that is multiplied. -/
theorem pointText_up (V p s : Nat) :
    pointText (cutTime V p s) p =
      toDigits 10 V ++ (if V = 0 then [] else replicate s '0') ++
        if p = 0 then [] else '.' :: replicate p '0' := by
  have hCut : cutTime V p s = V * 10 ^ s * 10 ^ p := by
    unfold cutTime
    have hUp : ((p : Int) + (s : Int)).toNat = s + p := by omega
    have hDown : (-((p : Int) + (s : Int))).toNat = 0 := by omega
    rw [hUp, hDown, pow_zero, Nat.div_one, pow_add, Nat.mul_assoc]
  have hFraction : padded 10 p (V * 10 ^ s * 10 ^ p) = replicate p '0' := by
    rw [← padded_mod, Nat.mul_mod_left, padded_zero]
  have hWhole : toDigits 10 (V * 10 ^ s) =
      toDigits 10 V ++ if V = 0 then [] else replicate s '0' := by
    split_ifs with hZero
    · rw [hZero, Nat.zero_mul, List.append_nil]
    · have hLow := Nat.pow_log_le_self 10 hZero
      have hHigh := Nat.lt_pow_succ_log_self (by decide : 1 < 10) V
      rw [toDigits_eq V, ← padded_mul, Nat.add_right_comm]
      apply toDigits_of_bounds
      · rw [pow_add]
        exact Or.inl (Nat.mul_le_mul_right _ hLow)
      · rw [Nat.add_right_comm, pow_add]
        exact Nat.mul_lt_mul_of_pos_right hHigh (Nat.pow_pos (by decide))
  rw [pointText, hCut, Nat.mul_div_cancel _ (Nat.pow_pos (by decide)), hWhole, hFraction]

/- A time that is divided, with digits on both sides of the
   point if it has more digits than it is divided by. -/
theorem pointText_down (V p m : Nat) (hDigits : m ≤ log 10 V) (hDown : 0 < m) :
    pointText (cutTime V p (-m)) p =
      (toDigits 10 V).take (log 10 V + 1 - m) ++ if p = 0 then [] else
        '.' :: (((toDigits 10 V).drop (log 10 V + 1 - m)).take p ++ replicate (p - m) '0') := by
  obtain ⟨i, hI⟩ := Nat.exists_eq_add_of_le' hDigits
  have hSplit : log 10 V + 1 = (i + 1) + m := by omega
  have hV : V ≠ 0 := by
    rintro rfl
    rw [Nat.log_zero_right] at hI
    omega
  have hLow : 10 ^ i ≤ V / 10 ^ m := by
    rw [Nat.le_div_iff_mul_le (Nat.pow_pos (by decide)), ← pow_add, ← hI]
    exact Nat.pow_log_le_self 10 hV
  have hHigh : V / 10 ^ m < 10 ^ (i + 1) := by
    rw [Nat.div_lt_iff_lt_mul (Nat.pow_pos (by decide)), ← pow_add, ← hSplit]
    exact Nat.lt_pow_succ_log_self (by decide) V
  rw [pointText, cutTime_div, padded_cutTime, toDigits_of_bounds (Or.inl hLow) hHigh, toDigits_eq V,
    hSplit, Nat.add_sub_cancel, take_padded, drop_padded]

/- All digits are right of the point. -/
theorem pointText_right (V p m : Nat) (hDigits : log 10 V < m) :
    pointText (cutTime V p (-m)) p =
      '0' :: if p = 0 then [] else
        '.' :: (replicate (min (m - (log 10 V + 1)) p) '0' ++
          (toDigits 10 V).take (p + (log 10 V + 1) - m) ++ replicate (p - m) '0') := by
  have hSmall : V < 10 ^ m :=
    Nat.lt_of_lt_of_le (Nat.lt_pow_succ_log_self (by decide) V)
      (Nat.pow_le_pow_right (by decide) hDigits)
  obtain ⟨j, hJ⟩ := Nat.exists_eq_add_of_le' hDigits
  have hTake : p - j = p + (log 10 V + 1) - m := by omega
  have hZeros : m - (log 10 V + 1) = j := by omega
  rw [pointText, cutTime_div, Nat.div_eq_of_lt hSmall, padded_cutTime, toDigits_eq V, hZeros, hJ,
    padded_of_lt (Nat.lt_pow_succ_log_self (by decide) V), List.take_append, List.length_replicate,
    List.take_replicate, ← hJ, hTake, Nat.min_comm]
  rfl

theorem zeros_natCast (n : Nat) : zeros n = replicate n '0' := rfl

/-
  The text is the time, cut to the precision, if and only if it
  is not a time of several digits, all right of the point, that
  has fewer digits right of the point than are asked for.
-/
theorem get_time_exact (info : TimeformatInfo) (leading V p : Nat) (time_units : Int) :
    getTime info (replicate leading '0' ++ toDigits 10 V) p time_units =
        pointText (cutTime V p (time_units - info.units)) p ++ info.suff ↔
      ¬(10 ≤ V ∧ V < 10 ^ (info.units - time_units).toNat ∧ info.units - time_units < p) := by
  have hLength : (toDigits 10 V).length = log 10 V + 1 := by
    rw [toDigits_eq, length_padded]
  have hPrec : (0 : Int) < p ↔ ¬p = 0 := by omega
  unfold getTime
  dsimp only
  rw [stripZeros_spec, List.append_left_inj, hLength]
  by_cases hUp : 0 ≤ time_units - info.units
  · obtain ⟨s, hS⟩ := Int.eq_ofNat_of_zero_le hUp
    have hOne : (info.units - time_units).toNat = 0 := by omega
    rw [if_pos hUp, hS, pointText_up, hOne, zeros_natCast, zeros_natCast]
    refine iff_of_true ?_ fun h => ?_
    · simp only [head_toDigits, hPrec, ite_not]
    · have := h.2.1
      omega
  obtain ⟨m, hM⟩ := Int.eq_ofNat_of_zero_le (show 0 ≤ info.units - time_units by omega)
  have hShift : time_units - info.units = -m := by omega
  rw [if_neg hUp, hShift, hM, Int.toNat_natCast]
  by_cases hBoth : m ≤ log 10 V
  · have hHead : 0 < ((log 10 V + 1 : Nat) : Int) + -m := by omega
    have hNat : (((log 10 V + 1 : Nat) : Int) + -m).toNat = log 10 V + 1 - m := by omega
    have hTail : ((p : Int) + -m).toNat = p - m := by omega
    rw [if_pos hHead, pointText_down V p m hBoth (by omega), hNat, zeros, hTail, Int.toNat_natCast]
    refine iff_of_true ?_ fun h => ?_
    · simp only [hPrec, ite_not]
    · have hLarge := Nat.pow_le_of_le_log (by omega) hBoth
      omega
  · have hNot : ¬0 < ((log 10 V + 1 : Nat) : Int) + -m := by omega
    have hSmall : V < 10 ^ m :=
      Nat.lt_of_lt_of_le (Nat.lt_pow_succ_log_self (by decide) V)
        (Nat.pow_le_pow_right (by decide) (by omega))
    have hLead : (min (-(((log 10 V + 1 : Nat) : Int) + -m)) (p : Int)).toNat =
        min (m - (log 10 V + 1)) p := by omega
    have hTen : 10 ≤ V ↔ 0 < log 10 V := by
      rw [Nat.log_pos_iff]
      simp
    rw [if_neg hNot, pointText_right V p m (by omega), zeros, hLead, hTen, List.cons_inj_right]
    by_cases hPoint : p = 0
    · rw [if_neg (by omega), if_neg (by omega), if_pos hPoint, hPoint, Nat.min_zero]
      exact iff_of_true rfl (by omega)
    rw [if_pos (by omega), if_neg hPoint, List.append_assoc, List.singleton_append,
      List.cons_inj_right, List.append_assoc, List.append_right_inj]
    by_cases hFits : 0 < (p : Int) + (log 10 V + 1 : Nat) + -m
    · have hTake : ((p : Int) + (log 10 V + 1 : Nat) + -m).toNat = p + (log 10 V + 1) - m := by
        omega
      have hCount : ((p : Int) + -m + 1 - (log 10 V + 1 : Nat)).toNat = p - m ↔
          ¬(0 < log 10 V ∧ V < 10 ^ m ∧ (m : Int) < p) := by omega
      rw [if_pos hFits, hTake, List.append_right_inj, zeros, List.replicate_inj]
      exact (and_iff_left (Or.inr rfl)).trans hCount
    · rw [if_neg hFits, Nat.sub_eq_zero_of_le (by omega), Nat.sub_eq_zero_of_le (by omega)]
      exact iff_of_true rfl (by omega)

/- 12 nanoseconds in microseconds are 0.0120 with four digits,
   but the last zero is missing. -/
theorem get_time_drops_zero :
    getTime ⟨-6, []⟩ (replicate 0 '0' ++ toDigits 10 12) 4 (-9) = "0.012".toList ∧
      getTime ⟨-6, []⟩ (replicate 0 '0' ++ toDigits 10 12) 4 (-9) ≠
        pointText (cutTime 12 4 (-9 - -6)) 4 ++ [] := by
  decide

end EpicSim
