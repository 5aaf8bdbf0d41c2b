import EpicSim.Vvp.VpipText
import Mathlib.Data.List.GetD
import Mathlib.Tactic.Linarith

/-
  What the readers make of the digits.

  The digits are a number modulo a power of 2.  Negating it in
  place and padding it by its top bit is right for a wider
  vector only where the digits leave room for the sign.
-/

namespace EpicSim

open Nat (testBit_zero mod_lt two_pow_pos mod_mod_of_dvd mod_eq_of_lt mod_mod)

namespace VpipText

open VvpBit4

----
-- Two-State Vectors
----

/- No bit is X or Z. -/
def TwoState (v : Vec4) : Prop := ∀ b ∈ v, b = .zero ∨ b = .one

instance (v : Vec4) : Decidable (TwoState v) :=
  inferInstanceAs (Decidable (∀ b ∈ v, _))

theorem unsignedPred_eq {slen : Nat} (hPos : 0 < slen) (hLt : slen < 2 ^ 32) :
    unsignedPred slen = slen - 1 := by
  unfold unsignedPred unsigned
  omega

/- The number of the bits that are 1. -/
def number : Vec4 → Nat
| [] => 0
| b :: rest => (if b = .one then 1 else 0) + 2 * number rest

/- The lowest bits of a number. -/
def ofNat (n x : Nat) : Vec4 :=
  (List.range n).map fun i => if x.testBit i then .one else .zero

/- The lowest bits of an integer. -/
def ofInt (n : Nat) (x : Int) : Vec4 := ofNat n (x % 2 ^ n).toNat

theorem number_lt (v : Vec4) : number v < 2 ^ v.length := by
  induction v with
  | nil => exact Nat.one_pos
  | cons b rest ih =>
    rw [number, List.length_cons]
    split_ifs <;> omega

theorem twoState_cons {b : VvpBit4} {rest : Vec4} :
    TwoState (b :: rest) ↔ (b = .zero ∨ b = .one) ∧ TwoState rest :=
  List.forall_mem_cons

theorem twoState_ofNat (n x : Nat) : TwoState (ofNat n x) := by
  intro b hMem
  rcases List.mem_map.mp hMem with ⟨i, _, rfl⟩
  split_ifs
  · exact Or.inr rfl
  · exact Or.inl rfl

@[simp] theorem length_ofNat (n x : Nat) : (ofNat n x).length = n := by
  unfold ofNat
  rw [List.length_map, List.length_range]

theorem ofNat_succ (n x : Nat) :
    ofNat (n + 1) x = (if x.testBit 0 then .one else .zero) :: ofNat n (x / 2) := by
  unfold ofNat
  rw [List.range_succ_eq_map, List.map_cons, List.map_map]
  congr 1
  apply List.map_congr_left
  intro i _
  show (if x.testBit (i + 1) then _ else _) = _
  rw [Nat.testBit_succ]

theorem number_ofNat (n x : Nat) : number (ofNat n x) = x % 2 ^ n := by
  induction n generalizing x with
  | zero =>
    rw [pow_zero, Nat.mod_one]
    rfl
  | succ n ih =>
    rw [ofNat_succ, number, ih, pow_succ, Nat.mul_comm (2 ^ n) 2, Nat.mod_mul]
    grind

variable {v : Vec4} {n m : Nat}

/- A two-state vector is its number. -/
theorem ofNat_number (hTwo : TwoState v) : ofNat v.length (number v) = v := by
  induction v with
  | nil => rfl
  | cons b rest ih =>
    rcases twoState_cons.mp hTwo with ⟨hBit, hRest⟩
    rw [List.length_cons, ofNat_succ, number]
    grind

theorem ofNat_mod (n x : Nat) : ofNat n (x % 2 ^ n) = ofNat n x := by
  have hTwo := ofNat_number (twoState_ofNat n x)
  rw [length_ofNat, number_ofNat] at hTwo
  exact hTwo

----
-- Negation
----

theorem addLoop_zero (hTwo : TwoState v) (carry : Bool) :
    addLoop v 0#64 (if carry then .one else .zero) = ofNat v.length (number v + carry.toNat) := by
  induction v generalizing carry with
  | nil => cases carry <;> rfl
  | cons b rest ih =>
    rcases twoState_cons.mp hTwo with ⟨hBit, hRest⟩
    cases carry with
    | false =>
      have hWhole := ofNat_number hTwo
      simp only [Bool.toNat_false, Nat.add_zero, hWhole]
      rw [addLoop, if_pos ⟨rfl, rfl⟩]
    | true =>
      rw [addLoop]
      rw [List.length_cons, ofNat_succ]
      rcases hBit with rfl | rfl
      · have hNext := ih hRest false
        have hHalf : (number (VvpBit4.zero :: rest) +
            true.toNat) / 2 = number rest + false.toNat := by
          simp [number]
          omega
        have hOdd : (number (VvpBit4.zero :: rest) + true.toNat).testBit 0 = true := by
          simp [number]
        rw [hHalf, hOdd, ← hNext]
        rfl
      · have hNext := ih hRest true
        have hHalf : (number (VvpBit4.one :: rest) +
            true.toNat) / 2 = number rest + true.toNat := by
          simp [number]
          omega
        have hEven : (number (VvpBit4.one :: rest) + true.toNat).testBit 0 = false := by
          simp [number]
          omega
        rw [hHalf, hEven, ← hNext]
        rfl

theorem addInt64_one (hTwo : TwoState v) : addInt64 v 1#64 = ofNat v.length (number v + 1) := by
  have hNone : v.any isXz = false := by
    rw [List.any_eq_false]
    intro b hMem
    rcases hTwo b hMem with rfl | rfl <;> decide
  unfold addInt64
  rw [hNone]
  cases v with
  | nil => rfl
  | cons b rest =>
    rcases twoState_cons.mp hTwo with ⟨hBit, hRest⟩
    have hShift : (1#64).sshiftRight 1 = 0#64 := by decide
    rw [addLoop]
    rw [List.length_cons, ofNat_succ]
    rcases hBit with rfl | rfl
    · have hNext := addLoop_zero hRest false
      have hHalf : (number (VvpBit4.zero :: rest) + 1) / 2 = number rest + false.toNat := by
        simp [number]
        omega
      have hOdd : (number (VvpBit4.zero :: rest) + 1).testBit 0 = true := by
        simp [number]
      rw [hHalf, hOdd, ← hNext]
      rfl
    · have hNext := addLoop_zero hRest true
      have hHalf : (number (VvpBit4.one :: rest) + 1) / 2 = number rest + true.toNat := by
        simp [number]
        omega
      have hEven : (number (VvpBit4.one :: rest) + 1).testBit 0 = false := by
        simp [number]
        omega
      rw [hHalf, hEven, ← hNext]
      rfl

theorem twoState_invert (hTwo : TwoState v) : TwoState (invert v) := by
  intro b hMem
  rcases List.mem_map.mp hMem with ⟨a, hA, rfl⟩
  rcases hTwo a hA with rfl | rfl
  · exact Or.inr rfl
  · exact Or.inl rfl

theorem number_invert (hTwo : TwoState v) : number (invert v) + number v + 1 = 2 ^ v.length := by
  induction v with
  | nil => rfl
  | cons b rest ih =>
    rcases twoState_cons.mp hTwo with ⟨hBit, hRest⟩
    have hNext := ih hRest
    unfold invert at hNext
    unfold invert
    rcases hBit with rfl | rfl
    · simp [number, VvpBit4.not]
      omega
    · simp [number, VvpBit4.not]
      omega

/- The digits negated in place. -/
theorem negate_eq (hTwo : TwoState v) :
    addInt64 (invert v) 1#64 = ofNat v.length (2 ^ v.length - number v) := by
  have hSum := number_invert hTwo
  have hLen : (invert v).length = v.length := List.length_map _
  have hEq : number (invert v) + 1 = 2 ^ v.length - number v := by omega
  rw [addInt64_one (twoState_invert hTwo), hLen, hEq]

----
-- Padding
----

theorem valueAt_ofNat {n x i : Nat} (hLt : i < n) :
    valueAt (ofNat n x) i =
      if x.testBit i then .one else .zero := by
  unfold valueAt
  rw [List.getD_eq_getElem _ _ (by rw [length_ofNat]; exact hLt)]
  unfold ofNat
  rw [List.getElem_map, List.getElem_range]

/- The digits as they are padded. -/
def signed (m : Nat) (negative : Bool) (x : Nat) : Nat :=
  if negative then (2 ^ m - x) % 2 ^ m else x

/- What the padding adds above them. -/
def above (n m : Nat) (negative : Bool) (x : Nat) : Nat :=
  if negative ∧ 2 ^ (m - 1) ≤ signed m negative x then
    2 ^ (n - m) - 1
  else 0

theorem signed_lt {m x : Nat} (negative : Bool) (hX : x < 2 ^ m) : signed m negative x < 2 ^ m := by
  unfold signed
  split_ifs
  · exact mod_lt _ (two_pow_pos m)
  · exact hX

/- The top bit of a vector that is not empty. -/
theorem testBit_top {m r : Nat} (hPos : 0 < m) (hLt : r < 2 ^ m) :
    r.testBit (m - 1) = decide (2 ^ (m - 1) ≤ r) := by
  have hSplit : 2 ^ m = 2 * 2 ^ (m - 1) := by rw [← pow_succ', Nat.sub_add_cancel hPos]
  rw [Nat.testBit_eq_decide_div_mod_eq]
  by_cases hLe : 2 ^ (m - 1) ≤ r
  · have hOne : r / 2 ^ (m - 1) = 1 :=
      Nat.div_eq_of_lt_le (by omega) (by omega)
    rw [hOne]
    simp [hLe]
  · rw [Nat.div_eq_of_lt (by omega)]
    simp [hLe]

/- The digits and the padding as one number. -/
theorem finish_eq {tval : Vec4} (n : Nat) (negative : Bool)
    (hTwo : TwoState tval) (hPos : 0 < tval.length) (hShort : tval.length < 2 ^ 32) :
    finish n negative tval =
      ofNat n (2 ^ tval.length * above n tval.length negative (number tval) +
        signed tval.length negative (number tval)) := by
  have hLt := number_lt tval
  have hSigned := signed_lt negative hLt
  have hDigits : (if negative then addInt64 (invert tval) 1#64
      else tval) = ofNat tval.length
        (signed tval.length negative (number tval)) := by
    unfold signed
    cases negative with
    | true => rw [if_pos rfl, if_pos rfl, negate_eq hTwo, ofNat_mod]
    | false => rw [if_neg Bool.false_ne_true, if_neg Bool.false_ne_true, ofNat_number hTwo]
  have hLast : unsignedPred tval.length = tval.length - 1 := by
    unfold unsignedPred unsigned
    omega
  unfold finish
  rw [hDigits]
  simp only [length_ofNat]
  rw [hLast, valueAt_ofNat (by omega), testBit_top hPos hSigned]
  conv_rhs => unfold ofNat
  apply List.map_congr_left
  intro i hI
  have hIn : i < n := List.mem_range.mp hI
  rw [Nat.testBit_two_pow_mul_add _ hSigned]
  by_cases hBelow : i < tval.length
  · rw [if_pos hBelow, if_pos hBelow, valueAt_ofNat hBelow]
  · rw [if_neg hBelow, if_neg hBelow]
    unfold above
    grind

/- Digits cut off to nothing leave X. -/
theorem finish_nil (n : Nat) (negative : Bool) : finish n negative [] = List.replicate n .x := by
  have hNone : (if negative then addInt64 (invert []) 1#64
      else []) = ([] : Vec4) := by
    cases negative <;> rfl
  unfold finish
  rw [hNone]
  simp [valueAt]

----
-- When The Number Is Right
----

/- When `m` bits of the digits of `x` give the number in a
   vector of `n` bits. -/
def ReadsBack (n m : Nat) (negative : Bool) (x : Nat) : Prop :=
  n ≤ m ∨ 0 < m ∧
    if negative then
      x % 2 ^ n ≤ 2 ^ (m - 1) ∨ 2 ^ n - 2 ^ (m - 1) < x % 2 ^ n
    else x % 2 ^ n < 2 ^ m

instance (n m : Nat) (negative : Bool) (x : Nat) : Decidable (ReadsBack n m negative x) :=
  inferInstanceAs (Decidable (_ ∨ _))

theorem ofNat_eq_iff (n x y : Nat) : ofNat n x = ofNat n y ↔ x % 2 ^ n = y % 2 ^ n := by
  constructor
  · intro hEq
    rw [← number_ofNat, hEq, number_ofNat]
  · intro hEq
    rw [← ofNat_mod, hEq, ofNat_mod]

/- A negated number modulo a power of 2. -/
theorem toNat_neg_mod (n x : Nat) : (-(x : Int) % 2 ^ n).toNat = (2 ^ n - x % 2 ^ n) % 2 ^ n := by
  have hPos := two_pow_pos n
  have hLt := mod_lt x hPos
  have hDiv := Nat.div_add_mod x (2 ^ n)
  have hCast : ((2 ^ n - x % 2 ^ n : Nat) : Int) =
      -(x : Int) + (2 : Int) ^ n * (x / 2 ^ n + 1 : Nat) := by grind
  have hMod : -(x : Int) % 2 ^ n = (((2 ^ n - x % 2 ^ n) % 2 ^ n : Nat) : Int) := by
    rw [Int.natCast_mod, hCast]
    push_cast
    rw [Int.add_mul_emod_self_left]
  rw [hMod, Int.toNat_natCast]

theorem positive_iff (x : Nat) (hPos : 0 < m) :
    (x % 2 ^ m) % 2 ^ n = x % 2 ^ n ↔ ReadsBack n m false x := by
  unfold ReadsBack
  by_cases hLe : n ≤ m
  · rw [mod_mod_of_dvd _ (pow_dvd_pow 2 hLe)]
    simp [hLe]
  · have hDvd : 2 ^ m ∣ 2 ^ n := pow_dvd_pow 2 (by omega)
    have hSmall : x % 2 ^ m < 2 ^ n :=
      lt_of_lt_of_le (mod_lt _ (two_pow_pos m)) (Nat.pow_le_pow_right (by omega) (by omega))
    have hMod := mod_mod_of_dvd x hDvd
    rw [mod_eq_of_lt hSmall]
    simp only [hLe, hPos, false_or, true_and]
    constructor
    · intro hEq
      rw [← hEq]
      exact mod_lt _ (two_pow_pos m)
    · intro hLt
      rw [← hMod, mod_eq_of_lt hLt]

/- What the upper bits of a wide number leave below. -/
theorem mod_of_near_top {n m j : Nat} (hLe : m ≤ n) (hJ : 0 < j) (hSmall : j < 2 ^ m) :
    (2 ^ n - j) % 2 ^ m = 2 ^ m - j := by
  have hWhole : 2 ^ n = 2 ^ m * 2 ^ (n - m) := by rw [← pow_add, Nat.add_sub_cancel' hLe]
  have hSplit : 2 ^ n - j = 2 ^ m * (2 ^ (n - m) - 1) + (2 ^ m - j) := by
    rw [Nat.mul_sub]
    have hBig : 2 ^ m ≤ 2 ^ n := Nat.pow_le_pow_right (by omega) hLe
    omega
  rw [hSplit, Nat.mul_add_mod, mod_eq_of_lt (Nat.sub_lt (two_pow_pos m) hJ)]

/- Below the width of the vector the sign is right only for a
   number that is small, or within reach of the power. -/
theorem negative_wide (x : Nat) (hPos : 0 < m) (hLt : m < n) :
    2 ^ m * above n m true (x % 2 ^ m) +
        signed m true (x % 2 ^ m) =
        (2 ^ n - x % 2 ^ n) % 2 ^ n ↔
      x % 2 ^ n ≤ 2 ^ (m - 1) ∨ 2 ^ n - 2 ^ (m - 1) < x % 2 ^ n := by
  have hHalf : 2 ^ m = 2 * 2 ^ (m - 1) := by rw [← pow_succ', Nat.sub_add_cancel hPos]
  have hBig : 2 ^ m * 2 ≤ 2 ^ n := by
    rw [← pow_succ]
    exact Nat.pow_le_pow_right (by omega) (by omega)
  have hTimes : 2 ^ m * (2 ^ (n - m) - 1) = 2 ^ n - 2 ^ m := by
    rw [Nat.mul_sub, Nat.mul_one, ← pow_add, Nat.add_sub_cancel' (Nat.le_of_lt hLt)]
  have hMod := mod_mod_of_dvd x (pow_dvd_pow 2 (Nat.le_of_lt hLt) : 2 ^ m ∣ 2 ^ n)
  -- a small remainder is the same at both widths
  have hSmall : x % 2 ^ n < 2 ^ m → x % 2 ^ m = x % 2 ^ n := by
    intro hS
    rw [← hMod, mod_eq_of_lt hS]
  -- one near the power is near it at both widths
  have hNear : 2 ^ n - 2 ^ (m - 1) < x % 2 ^ n →
      x % 2 ^ m = 2 ^ m - (2 ^ n - x % 2 ^ n) := by
    intro hN
    have hTop := @mod_of_near_top n m (2 ^ n - x % 2 ^ n) (Nat.le_of_lt hLt) (by omega) (by omega)
    rw [← hMod, ← hTop]
    congr 1
    omega
  have hNeg : (2 ^ n - x % 2 ^ n) % 2 ^ n =
      if x % 2 ^ n = 0 then 0 else 2 ^ n - x % 2 ^ n := by
    split_ifs with hZero
    · rw [hZero, Nat.sub_zero, Nat.mod_self]
    · exact mod_eq_of_lt (by omega)
  have hSigned : signed m true (x % 2 ^ m) =
      if x % 2 ^ m = 0 then 0 else 2 ^ m - x % 2 ^ m := by
    unfold signed
    rw [if_pos rfl]
    split_ifs with hZero
    · rw [hZero, Nat.sub_zero, Nat.mod_self]
    · exact mod_eq_of_lt (by omega)
  unfold above
  rw [hNeg, hSigned]
  simp only [true_and]
  split_ifs with hTop hZeroM hZeroN hZeroN hZeroM hZeroN hZeroN
  all_goals try rw [hTimes]
  all_goals
    constructor
    · intro hEq
      omega
    · rintro (hS | hN)
      · omega
      · omega

/- What is missing to a power of 2 negates a number. -/
theorem missing_add_self (x : Nat) (hLe : n ≤ m) : 2 ^ m - x % 2 ^ m + x ≡ 0 [MOD 2 ^ n] := by
  have hDiv := Nat.div_add_mod x (2 ^ m)
  have hSum : 2 ^ m - x % 2 ^ m + x = 2 ^ m * (x / 2 ^ m + 1) := by
    rw [Nat.mul_add]
    omega
  rw [hSum, Nat.modEq_zero_iff_dvd]
  exact Dvd.dvd.mul_right (pow_dvd_pow 2 hLe) _

/- Enough digits are negated as the vector would be. -/
theorem negative_narrow (x a : Nat) (hLe : n ≤ m) :
    (2 ^ m * a + signed m true (x % 2 ^ m)) % 2 ^ n = (2 ^ n - x % 2 ^ n) % 2 ^ n := by
  have hDvd : 2 ^ n ∣ 2 ^ m := pow_dvd_pow 2 hLe
  have hSame : 2 ^ m - x % 2 ^ m ≡ 2 ^ n - x % 2 ^ n [MOD 2 ^ n] :=
    Nat.ModEq.add_right_cancel' x
      ((missing_add_self x hLe).trans (missing_add_self x (le_refl n)).symm)
  unfold signed
  rw [if_pos rfl, Nat.add_mod, Nat.mod_eq_zero_of_dvd (Dvd.dvd.mul_right hDvd a),
    Nat.zero_add, mod_mod, mod_mod_of_dvd _ hDvd]
  exact hSame

theorem padded_lt (x : Nat) (negative : Bool) (hLe : m ≤ n) :
    2 ^ m * above n m negative (x % 2 ^ m) + signed m negative (x % 2 ^ m) < 2 ^ n := by
  have hLt := signed_lt negative (mod_lt x (two_pow_pos m))
  have hAbove : above n m negative (x % 2 ^ m) ≤ 2 ^ (n - m) - 1 := by
    unfold above
    split_ifs <;> omega
  have hTimes : 2 ^ m * (2 ^ (n - m) - 1) = 2 ^ n - 2 ^ m := by
    rw [Nat.mul_sub, Nat.mul_one, ← pow_add, Nat.add_sub_cancel' hLe]
  have hMul := Nat.mul_le_mul_left (2 ^ m) hAbove
  have hBig : 2 ^ m ≤ 2 ^ n := Nat.pow_le_pow_right (by omega) hLe
  omega

/- The padded digits are the number exactly where it reads
   back. -/
theorem digits_iff (negative : Bool) (x : Nat) (hPos : 0 < m) :
    ofNat n (2 ^ m * above n m negative (x % 2 ^ m) +
        signed m negative (x % 2 ^ m)) =
        ofInt n (if negative then -(x : Int) else x) ↔
      ReadsBack n m negative x := by
  unfold ofInt
  rw [ofNat_eq_iff]
  cases negative with
  | false =>
    have hCast : ((x : Int) % 2 ^ n).toNat = x % 2 ^ n := by grind
    simp only [Bool.false_eq_true, if_false]
    rw [hCast, ← positive_iff x hPos]
    simp [above, signed]
  | true =>
    simp only [if_true]
    rw [toNat_neg_mod, mod_mod]
    unfold ReadsBack
    by_cases hLe : n ≤ m
    · rw [negative_narrow x _ hLe]
      simp [hLe]
    · have hLt := Nat.lt_of_not_le hLe
      rw [mod_eq_of_lt (padded_lt x true (Nat.le_of_lt hLt)), negative_wide x hPos hLt]
      simp [hLe, hPos]

/- What the readers make of digits that are a number. -/
theorem finish_eq_iff (negative : Bool) (x : Nat) (hN : 0 < n) (hShort : m < 2 ^ 32) :
    finish n negative (ofNat m x) = ofInt n (if negative then -(x : Int) else x) ↔
      ReadsBack n m negative x := by
  by_cases hPos : 0 < m
  · have hFinish := @finish_eq (ofNat m x) n negative
      (twoState_ofNat m x) (by rw [length_ofNat]; exact hPos)
      (by rw [length_ofNat]; exact hShort)
    rw [hFinish, length_ofNat, number_ofNat, digits_iff negative x hPos]
  · have hZero : m = 0 := Nat.eq_zero_of_not_pos hPos
    rw [hZero, show ofNat 0 x = [] from rfl, finish_nil]
    have hNo : ¬ ReadsBack n 0 negative x := by
      unfold ReadsBack
      omega
    refine iff_of_false (fun hEq => ?_) hNo
    have hMem : VvpBit4.x ∈ List.replicate n VvpBit4.x := List.mem_replicate.mpr ⟨by omega, rfl⟩
    rw [hEq] at hMem
    rcases twoState_ofNat _ _ _ hMem with hBit | hBit <;> cases hBit

end VpipText

end EpicSim
