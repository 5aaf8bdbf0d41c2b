import Mathlib.Algebra.Order.Ring.Abs
import Mathlib.Data.Int.ModEq
import Mathlib.Data.Nat.Bits
import Mathlib.Tactic.Ring

/-
  Numbers as sequences of bits: the number below a place, the
  integer in two's complement, ripple-carry addition and the
  range that a number of bits can hold.
-/

----
-- Bits Below A Place
----

namespace TwosComplement

/- The number that the first bits make. -/
def low (b : Nat → Bool) : Nat → Nat
| 0 => 0
| n + 1 => low b n + (b n).toNat * 2 ^ n

theorem low_succ (b : Nat → Bool) (n : Nat) : low b (n + 1) = low b n + (b n).toNat * 2 ^ n := rfl

theorem low_lt (b : Nat → Bool) (n : Nat) : low b n < 2 ^ n := by
  induction n with
  | zero => exact Nat.one_pos
  | succ n ih =>
    rw [low_succ]
    cases b n <;> simp <;> omega

theorem low_congr {a b : Nat → Bool} {n : Nat} (h : ∀ i < n, a i = b i) : low a n = low b n := by
  induction n with
  | zero => rfl
  | succ n ih =>
    rw [low_succ, low_succ, ih (fun i hi => h i (Nat.lt_succ_of_lt hi)), h n (Nat.lt_succ_self n)]

theorem testBit_low {b : Nat → Bool} {n i : Nat} (hI : i < n) : (low b n).testBit i = b i := by
  induction n with
  | zero => cases hI
  | succ n ih =>
    rw [low_succ, Nat.add_comm, Nat.mul_comm, Nat.testBit_two_pow_mul_add _ (low_lt b n)]
    grind

/- More bits change nothing modulo the place. -/
theorem low_mod (b : Nat → Bool) {n m : Nat} (h : n ≤ m) : low b m % 2 ^ n = low b n := by
  induction m with
  | zero =>
    have hZero : n = 0 := Nat.le_zero.mp h
    rw [hZero]
    rfl
  | succ m ih =>
    rcases Nat.lt_or_eq_of_le h with hLt | hEq
    · have hLe : n ≤ m := Nat.le_of_lt_succ hLt
      have hSplit : (b m).toNat * 2 ^ m = 2 ^ n * ((b m).toNat * 2 ^ (m - n)) := by
        rw [Nat.mul_left_comm, ← pow_add, Nat.add_sub_cancel' hLe]
      rw [low_succ, hSplit, Nat.add_mul_mod_self_left, ih hLe]
    · rw [hEq, Nat.mod_eq_of_lt (low_lt b (m + 1))]

theorem low_false (n : Nat) : low (fun _ => false) n = 0 := by
  induction n with
  | zero => rfl
  | succ n ih => rw [low_succ, ih]; simp

/- The bits of a natural number. -/
theorem low_testBit (x n : Nat) : low x.testBit n = x % 2 ^ n := by
  induction n with
  | zero => rw [pow_zero, Nat.mod_one]; rfl
  | succ n ih =>
    rw [low_succ, ih, Nat.mod_pow_succ, Nat.testBit_eq_decide_div_mod_eq]
    rcases Nat.mod_two_eq_zero_or_one (x / 2 ^ n) with h | h
    · simp [h]
    · simp [h]

/- Bits moved up by some places. -/
theorem low_shiftLeft (b : Nat → Bool) (s n : Nat) :
    low (fun i => if i < s then false else b (i - s)) n = low b (n - s) * 2 ^ s % 2 ^ n := by
  induction n with
  | zero => rw [pow_zero, Nat.mod_one]; rfl
  | succ n ih =>
    rw [low_succ, ih]
    rcases Nat.lt_or_ge n s with hLow | hHigh
    · have hNone : n - s = 0 := by omega
      have hNone' : n + 1 - s = 0 := by omega
      rw [if_pos hLow, hNone, hNone']
      simp [low]
    · have hSucc : n + 1 - s = n - s + 1 := by omega
      have hPow : 2 ^ (n - s) * 2 ^ s = 2 ^ n := by rw [← pow_add, Nat.sub_add_cancel hHigh]
      have hLt := low_lt b (n - s)
      have hLt' := low_lt b (n - s + 1)
      have hFits : low b (n - s) * 2 ^ s < 2 ^ n := by
        rw [← hPow]
        exact Nat.mul_lt_mul_of_pos_right hLt (Nat.two_pow_pos s)
      have hFits' :
          low b (n - s + 1) * 2 ^ s < 2 ^ (n + 1) := by
        rw [pow_succ, ← hPow, Nat.mul_right_comm]
        exact Nat.mul_lt_mul_of_pos_right hLt' (Nat.two_pow_pos s)
      rw [if_neg (Nat.not_lt.mpr hHigh), hSucc, Nat.mod_eq_of_lt hFits,
        Nat.mod_eq_of_lt hFits', low_succ, Nat.add_mul, Nat.mul_assoc _ _ (2 ^ s), hPow]

/- Bits moved down by some places. -/
theorem low_shiftRight (b : Nat → Bool) (s n : Nat) :
    low (fun i => b (i + s)) n = low b (n + s) / 2 ^ s := by
  induction n with
  | zero =>
    rw [Nat.zero_add, Nat.div_eq_of_lt (low_lt b s)]
    rfl
  | succ n ih =>
    have hNext : n + 1 + s = n + s + 1 := by omega
    rw [low_succ, ih, hNext, low_succ, pow_add, ← Nat.mul_assoc,
      Nat.add_mul_div_right _ _ (Nat.two_pow_pos s)]

/- The bits from a place on count that much more. -/
theorem low_add (b : Nat → Bool) (s n : Nat) :
    low b (s + n) = low b s + 2 ^ s * low (fun i => b (s + i)) n := by
  induction n with
  | zero => rw [Nat.add_zero]; rfl
  | succ n ih =>
    rw [← Nat.add_assoc, low_succ, low_succ, ih, Nat.mul_add,
      pow_add, Nat.add_assoc, Nat.mul_left_comm]

/- Zeros above a place count nothing. -/
theorem low_trim_zero {b : Nat → Bool} {m n : Nat} (hLe : m ≤ n)
    (h : ∀ i, m ≤ i → i < n → b i = false) : low b n = low b m := by
  induction n with
  | zero => rw [Nat.le_zero.mp hLe]
  | succ n ih =>
    rcases Nat.lt_or_eq_of_le hLe with hLt | hEq
    · have hLe' : m ≤ n := Nat.le_of_lt_succ hLt
      rw [low_succ, h n hLe' (Nat.lt_succ_self n), Bool.toNat_false, Nat.zero_mul]
      exact ih hLe' (fun i hm hn => h i hm (by omega))
    · rw [hEq]

/- A one counts at least its place. -/
theorem le_low {b : Nat → Bool} {i n : Nat} (hBit : b i = true) (hLt : i < n) :
    2 ^ i ≤ low b n := by
  induction n with
  | zero => exact absurd hLt (Nat.not_lt_zero i)
  | succ n ih =>
    rw [low_succ]
    grind

/- A zero that becomes a one adds its place. -/
theorem low_update {b : Nat → Bool} {k n : Nat} (hBit : b k = false) (hLt : k < n) :
    low (fun i => if i = k then true else b i) n = low b n + 2 ^ k := by
  induction n with
  | zero => exact absurd hLt (Nat.not_lt_zero k)
  | succ n ih =>
    rw [low_succ, low_succ]
    rcases Nat.lt_or_eq_of_le (Nat.le_of_lt_succ hLt) with hBelow | hEq
    · rw [if_neg (Nat.ne_of_gt hBelow)]
      omega
    · have hSame : low (fun i => if i = k then true else b i) n = low b n :=
        low_congr (fun i hi => if_neg (by omega))
      rw [hSame, ← hEq, hBit]
      simp

/- The complement is what is missing to all ones. -/
theorem low_not (b : Nat → Bool) (n : Nat) : low (fun i => !b i) n + low b n + 1 = 2 ^ n := by
  induction n with
  | zero => rfl
  | succ n ih =>
    rw [low_succ, low_succ]
    cases b n <;> simp <;> omega

end TwosComplement

----
-- Addition
----

namespace TwosComplement

/- The carry into a place. -/
def carryAt (a b : Nat → Bool) (c : Bool) : Nat → Bool
| 0 => c
| n + 1 => Bool.atLeastTwo (a n) (b n) (carryAt a b c n)

/- The sum bit at a place. -/
def sumAt (a b : Nat → Bool) (c : Bool) (n : Nat) : Bool :=
  ((a n ^^ b n) ^^ carryAt a b c n)

theorem low_sumAt (a b : Nat → Bool) (c : Bool) (n : Nat) :
    low (sumAt a b c) n + (carryAt a b c n).toNat * 2 ^ n = low a n + low b n + c.toNat := by
  induction n with
  | zero => simp [low, carryAt]
  | succ n ih =>
    have hBit : (sumAt a b c n).toNat +
        2 * (carryAt a b c (n + 1)).toNat =
          (a n).toNat + (b n).toNat + (carryAt a b c n).toNat := by
      unfold sumAt
      rw [carryAt]
      cases a n <;> cases b n <;> cases carryAt a b c n <;>
        rfl
    have hScaled := congrArg (fun x => x * 2 ^ n) hBit
    simp only [Nat.add_mul] at hScaled
    rw [low_succ, low_succ, low_succ, pow_succ,
      Nat.mul_comm (2 ^ n) 2, ← Nat.mul_assoc, Nat.mul_comm _ 2]
    omega

/- A sum of n bits is right modulo the place. -/
theorem low_sumAt_modEq (a b : Nat → Bool) (c : Bool) (n : Nat) :
    low (sumAt a b c) n ≡ low a n + low b n + c.toNat [MOD 2 ^ n] := by
  rw [← low_sumAt]
  exact (Nat.modEq_iff_dvd' (Nat.le_add_right _ _)).mpr
    ⟨(carryAt a b c n).toNat, by
      rw [Nat.add_sub_cancel_left, Nat.mul_comm]⟩

end TwosComplement

----
-- Two's Complement
----

namespace TwosComplement

/- The sign of the first bits. -/
def sign (signed : Bool) (len : Nat) (b : Nat → Bool) : Bool :=
  signed && (decide (0 < len) && b (len - 1))

/- The integer that the first bits stand for. -/
def value (signed : Bool) (len : Nat) (b : Nat → Bool) : Int :=
  if sign signed len b then low b len - 2 ^ len else low b len

/- The bits, continued by the sign. -/
def extended (signed : Bool) (len : Nat) (b : Nat → Bool) (i : Nat) : Bool :=
  if i < len then b i else sign signed len b

/- The integers that so many bits can stand for. -/
def Fits (signed : Bool) (len : Nat) (n : Int) : Prop :=
  if signed then -2 ^ len ≤ 2 * n ∧ 2 * n < 2 ^ len
  else 0 ≤ n ∧ n < 2 ^ len

instance (signed : Bool) (len : Nat) (n : Int) : Decidable (Fits signed len n) := by
  unfold Fits
  infer_instance

theorem cast_two_pow (n : Nat) : ((2 ^ n : Nat) : Int) = 2 ^ n := by
  norm_cast

variable {signed : Bool} {b : Nat → Bool} {n : Nat} {x y : Int}

theorem value_congr {len : Nat} {a b : Nat → Bool} (h : ∀ i < len, a i = b i) :
    value signed len a = value signed len b := by
  have hSign : sign signed len a = sign signed len b := by
    unfold sign
    grind
  unfold value
  rw [hSign, low_congr h]

theorem value_fits (signed : Bool) (len : Nat) (b : Nat → Bool) :
    Fits signed len (value signed len b) := by
  have hLt := low_lt b len
  have hCast := cast_two_pow len
  unfold Fits value
  cases signed with
  | false =>
    simp only [sign, Bool.false_and, Bool.false_eq_true, if_false]
    omega
  | true =>
    rw [if_pos rfl]
    cases len with
    | zero => simp [sign, low]
    | succ len =>
      have hHalf := low_lt b len
      rw [low_succ] at hLt ⊢
      simp only [sign, Bool.true_and, Nat.succ_pos, decide_true, Nat.add_sub_cancel]
      grind

theorem Fits.eq {len : Nat} {n m : Int} (hN : Fits signed len n) (hM : Fits signed len m)
    (h : n ≡ m [ZMOD 2 ^ len]) : n = m := by
  rcases h.symm.dvd with ⟨k, hk⟩
  have hSmall : n - m < 2 ^ len ∧ -2 ^ len < n - m := by
    unfold Fits at hN hM
    grind
  have hZero : k = 0 := by
    rcases Int.lt_trichotomy k 0 with hNeg | hNone | hSome
    · have hMul : (2 : Int) ^ len * k ≤ 2 ^ len * (-1) :=
        Int.mul_le_mul_of_nonneg_left (by omega) (by omega)
      omega
    · exact hNone
    · have hMul : (2 : Int) ^ len * 1 ≤ 2 ^ len * k :=
        Int.mul_le_mul_of_nonneg_left (by omega) (by omega)
      omega
  rw [hZero] at hk
  omega

theorem Fits.mono {len len' : Nat} {n : Int} (hLe : len ≤ len') (h : Fits signed len n) :
    Fits signed len' n := by
  have hPow := Nat.pow_le_pow_right (by decide : 0 < 2) hLe
  have hCast := cast_two_pow len
  have hCast' := cast_two_pow len'
  unfold Fits at h ⊢
  split_ifs at h ⊢ <;> omega

theorem low_modEq_value (signed : Bool) (len : Nat) (b : Nat → Bool) :
    (low b len : Int) ≡ value signed len b [ZMOD 2 ^ len] := by
  unfold value
  split_ifs
  · rw [Int.modEq_iff_dvd]
    exact ⟨-1, by ring⟩
  · exact Int.ModEq.refl _

/- The value is the only integer in range that fits the bits. -/
theorem value_eq_iff {signed : Bool} {len : Nat} {b : Nat → Bool} {n : Int}
    (h : (low b len : Int) ≡ n [ZMOD 2 ^ len]) : value signed len b = n ↔ Fits signed len n := by
  constructor
  · intro hEq
    rw [← hEq]
    exact value_fits signed len b
  · intro hFits
    exact (value_fits signed len b).eq hFits ((low_modEq_value signed len b).symm.trans h)

theorem extended_of_lt {len i : Nat} (h : i < len) : extended signed len b i = b i := if_pos h

theorem extended_of_le {len i : Nat} (h : len ≤ i) : extended signed len b i = sign signed len b :=
  if_neg (Nat.not_lt.mpr h)

/- The extended bits below any place are the integer there. -/
theorem low_extended_modEq (signed : Bool) (len : Nat) (b : Nat → Bool) (n : Nat) :
    (low (extended signed len b) n : Int) ≡ value signed len b [ZMOD 2 ^ n] := by
  have hSame : low (extended signed len b) len = low b len :=
    low_congr (fun i hi => extended_of_lt hi)
  have hBeyond : ∀ k,
      (low (extended signed len b) (len + k) : Int) ≡ value signed len b [ZMOD 2 ^ (len + k)] := by
    intro k
    induction k with
    | zero =>
      rw [Nat.add_zero, hSame]
      exact low_modEq_value signed len b
    | succ k ih =>
      rw [← Nat.add_assoc, low_succ, extended_of_le (Nat.le_add_right len k)]
      have hExact :
          ∀ k, low (extended signed len b) (len + k) =
            low b len + (sign signed len b).toNat * (2 ^ (len + k) - 2 ^ len) := by
        intro k
        induction k with
        | zero => simp [hSame]
        | succ k ihk =>
          have hLe : 2 ^ len ≤ 2 ^ (len + k) := Nat.pow_le_pow_right (by decide) (by omega)
          rw [← Nat.add_assoc, low_succ, ihk, extended_of_le (Nat.le_add_right len k), pow_succ]
          cases sign signed len b with
          | false => simp
          | true => simp; omega
      have hLe : 2 ^ len ≤ 2 ^ (len + k) := Nat.pow_le_pow_right (by decide) (by omega)
      rw [hExact k]
      unfold value
      cases sign signed len b with
      | false => simp
      | true =>
        simp only [Bool.toNat_true]
        rw [Int.modEq_iff_dvd]
        refine ⟨-1, ?_⟩
        push_cast [hLe]
        ring
  rcases Nat.le_total len n with hLe | hGe
  · have hBack : len + (n - len) = n := by omega
    have hAt := hBeyond (n - len)
    rwa [hBack] at hAt
  · have hMod := low_mod (extended signed len b) hGe
    have hAt := hBeyond 0
    have hDvd : (2 : Int) ^ n ∣ 2 ^ len := pow_dvd_pow 2 hGe
    refine Int.ModEq.trans ?_ (hAt.of_dvd hDvd)
    rw [← hMod]
    push_cast
    exact Int.mod_modEq _ _

----
-- Redundant Bits
----

/- A repeated sign can be dropped. -/
theorem value_drop_sign (h : b (n + 1) = b n) : value true (n + 2) b = value true (n + 1) b := by
  have hPow : (2 : Int) ^ (n + 2) = 2 ^ (n + 1) * 2 := pow_succ 2 (n + 1)
  unfold value sign
  simp only [Bool.true_and, Nat.succ_pos, decide_true,
    Nat.add_sub_cancel, show n + 2 - 1 = n + 1 from rfl]
  rw [low_succ b (n + 1), h]
  cases b n with
  | false => simp
  | true =>
    simp only [Bool.toNat_true]
    push_cast
    omega

/- A leading zero can be dropped. -/
theorem value_drop_zero (h : b n = false) : value false (n + 1) b = value false n b := by
  unfold value sign
  simp [low_succ, h]

/- All bits from a place on repeat the sign. -/
theorem value_trim_sign {m k : Nat} (h : ∀ i, m ≤ i → i < m + k → b (i + 1) = b m) :
    value true (m + k + 1) b = value true (m + 1) b := by
  induction k with
  | zero => rfl
  | succ k ih =>
    have hTop := h (m + k) (by omega) (by omega)
    have hBelow : b (m + k) = b m := by
      cases k with
      | zero => rfl
      | succ k => exact h (m + k) (by omega) (by omega)
    rw [← ih (fun i hm hi => h i hm (by omega))]
    exact value_drop_sign (hTop.trans hBelow.symm)

/- All bits from a place on are zero. -/
theorem value_trim_zero {m k : Nat} (h : ∀ i, m ≤ i → i < m + k → b i = false) :
    value false (m + k) b = value false m b := by
  induction k with
  | zero => rfl
  | succ k ih =>
    rw [← ih (fun i hm hi => h i hm (by omega))]
    exact value_drop_zero (h (m + k) (by omega) (by omega))

/- A sign that differs from the bit below is needed. -/
theorem not_fits_of_ne (h : b (n + 1) ≠ b n) : ¬Fits true (n + 1) (value true (n + 2) b) := by
  have hPow : (2 : Int) ^ (n + 2) = 2 ^ (n + 1) * 2 := pow_succ 2 (n + 1)
  have hCast := cast_two_pow n
  have hLt := low_lt b n
  unfold Fits value sign
  rw [low_succ b (n + 1), low_succ b n]
  cases hTop : b (n + 1) with
  | false => grind
  | true =>
    have hNext : b n = false := by grind
    simp only [hNext, Bool.toNat_true, Bool.toNat_false]
    push_cast
    omega

/- Bits moved down divide toward minus infinity. -/
theorem value_shiftRight {len n s : Nat} (b : Nat → Bool) (hn : 0 < n) (hLen : len ≤ n + s) :
    value signed n (fun i => extended signed len b (i + s)) = value signed len b / 2 ^ s := by
  have hPos : (0 : Int) < 2 ^ s := by exact_mod_cast Nat.two_pow_pos s
  have hSplit : (2 : Int) ^ (n + s) = 2 ^ s * 2 ^ n := by rw [pow_add, mul_comm]
  have hLow : (low (fun i => extended signed len b (i + s)) n :
      Int) ≡ value signed len b / 2 ^ s [ZMOD 2 ^ n] := by
    rcases (low_extended_modEq signed len b (n + s)).dvd with ⟨k, hk⟩
    have hValue : value signed len b =
        low (extended signed len b) (n + s) + 2 ^ s * (2 ^ n * k) := by
      rw [← mul_assoc, ← hSplit]
      omega
    rw [low_shiftRight, hValue, Int.add_mul_ediv_left _ _ (ne_of_gt hPos)]
    push_cast
    rw [Int.modEq_iff_dvd]
    exact ⟨k, by ring⟩
  rw [value_eq_iff hLow]
  have hFits := (value_fits signed len b).mono hLen
  unfold Fits at hFits ⊢
  cases signed with
  | false =>
    rw [hSplit] at hFits
    exact ⟨Int.ediv_nonneg hFits.1 (le_of_lt hPos),
      Int.ediv_lt_of_lt_mul hPos (by
        rw [mul_comm]
        exact hFits.2)⟩
  | true =>
    simp only [if_true] at hFits ⊢
    obtain ⟨m, rfl⟩ : ∃ m, n = m + 1 := ⟨n - 1, by omega⟩
    have hPow : (2 : Int) ^ (m + 1) = 2 ^ m * 2 := pow_succ 2 m
    have hHalf : (2 : Int) ^ (m + 1 + s) = 2 ^ m * 2 ^ s * 2 := by
      rw [hSplit, hPow, mul_comm, mul_right_comm]
    have hBelow : value true len b / 2 ^ s < 2 ^ m := Int.ediv_lt_of_lt_mul hPos (by omega)
    have hAbove : -2 ^ m ≤ value true len b / 2 ^ s :=
      Int.le_ediv_of_mul_le hPos (by
        rw [neg_mul]
        omega)
    omega

----
-- Room For Results
----

theorem fits_add (hX : Fits signed n x) (hY : Fits signed n y) : Fits signed (n + 1) (x + y) := by
  unfold Fits at hX hY ⊢
  cases signed <;>
    simp only [Bool.false_eq_true, if_false, if_true] at hX hY ⊢ <;>
    omega

theorem fits_sub (hX : Fits true n x) (hY : Fits true n y) : Fits true (n + 1) (x - y) := by
  unfold Fits at hX hY ⊢
  simp only [if_true] at hX hY ⊢
  omega

theorem fits_mul {n m : Nat} (hX : Fits signed n x) (hY : Fits signed m y) :
    Fits signed (n + m) (x * y) := by
  have hPow : (2 : Int) ^ (n + m) = 2 ^ n * 2 ^ m := pow_add 2 n m
  have hPosN : (0 : Int) < 2 ^ n := by exact_mod_cast Nat.two_pow_pos n
  have hPosM : (0 : Int) < 2 ^ m := by exact_mod_cast Nat.two_pow_pos m
  unfold Fits at hX hY ⊢
  cases signed with
  | false =>
    rw [hPow]
    exact ⟨Int.mul_nonneg hX.1 hY.1, mul_lt_mul'' hX.2 hY.2 hX.1 hY.1⟩
  | true =>
    simp only [if_true] at hX hY ⊢
    have hAbsX : |2 * x| ≤ 2 ^ n := abs_le.mpr ⟨hX.1, le_of_lt hX.2⟩
    have hAbsY : |2 * y| ≤ 2 ^ m := abs_le.mpr ⟨hY.1, le_of_lt hY.2⟩
    have hProduct : |2 * x * (2 * y)| ≤ 2 ^ n * 2 ^ m := by
      rw [abs_mul]
      exact mul_le_mul hAbsX hAbsY (abs_nonneg _) (le_of_lt hPosN)
    have hFour : 2 * x * (2 * y) = 4 * (x * y) := by ring
    have hPos : (0 : Int) < 2 ^ n * 2 ^ m := Int.mul_pos hPosN hPosM
    rw [abs_le] at hProduct
    omega

theorem fits_shiftLeft (hX : Fits signed n x) (s : Nat) : Fits signed (n + s) (x * 2 ^ s) := by
  have hPow : (2 : Int) ^ (n + s) = 2 ^ n * 2 ^ s := pow_add 2 n s
  have hPos : (0 : Int) < 2 ^ s := by exact_mod_cast Nat.two_pow_pos s
  unfold Fits at hX ⊢
  cases signed with
  | false =>
    rw [hPow]
    exact ⟨Int.mul_nonneg hX.1 (le_of_lt hPos), Int.mul_lt_mul_of_pos_right hX.2 hPos⟩
  | true =>
    rw [hPow, ← mul_assoc, ← neg_mul]
    exact ⟨Int.mul_le_mul_of_nonneg_right hX.1 (le_of_lt hPos),
      Int.mul_lt_mul_of_pos_right hX.2 hPos⟩

----
-- Machine Words
----

theorem low_getLsbD {n : Nat} (x : BitVec n) : low x.getLsbD n = x.toNat := by
  have hBits := low_testBit x.toNat n
  rw [Nat.mod_eq_of_lt x.isLt] at hBits
  exact hBits

theorem value_getLsbD {n : Nat} (x : BitVec n) : value true n x.getLsbD = x.toInt := by
  have hSign : sign true n x.getLsbD = x.msb := by
    unfold sign
    grind
  unfold value
  rw [low_getLsbD, BitVec.toInt_eq_msb_cond]
  push_cast
  rfl

end TwosComplement

----
-- Deciding Bits
----

namespace TwosComplement

variable {a b : Nat → Bool} {k n : Nat}

/- A one above the last one of the other number. -/
theorem low_lt_of_zeros (hZeros : ∀ i, k ≤ i → i < n → a i = false)
    (hOne : ∃ i, k ≤ i ∧ i < n ∧ b i = true) : low a n < low b n := by
  rcases hOne with ⟨i, hLow, hHigh, hBit⟩
  have hPlace : 2 ^ i ≤ low b n := le_low hBit hHigh
  have hPow : 2 ^ k ≤ 2 ^ i := Nat.pow_le_pow_right (by decide) hLow
  have hTrim : low a n = low a k := low_trim_zero (by omega) hZeros
  have hLt := low_lt a k
  omega

/- A zero above the last zero of the other number. -/
theorem low_lt_of_ones (hOnes : ∀ i, k ≤ i → i < n → b i = true)
    (hZero : ∃ i, k ≤ i ∧ i < n ∧ a i = false) : low a n < low b n := by
  have hA := low_not a n
  have hB := low_not b n
  have hNot : low (fun i => !b i) n < low (fun i => !a i) n := by
    refine low_lt_of_zeros (k := k) (fun i hk hn => ?_) ?_
    · rw [hOnes i hk hn]
      rfl
    · grind
  omega

/- Equal bits on top leave the order to those below. -/
theorem low_le_iff_of_top (hLe : k ≤ n) (hTop : ∀ i, k ≤ i → i < n → a i = b i) :
    low a n ≤ low b n ↔ low a k ≤ low b k := by
  have hBack : k + (n - k) = n := by omega
  have hSame : low (fun i => a (k + i)) (n - k) = low (fun i => b (k + i)) (n - k) :=
    low_congr (fun i hi => hTop (k + i) (by omega) (by omega))
  rw [← hBack, low_add a k (n - k), low_add b k (n - k), hSame, Nat.add_le_add_iff_right]

/- The numbers are told apart by their bits. -/
theorem low_eq_iff (a b : Nat → Bool) (n : Nat) : low a n = low b n ↔ ∀ i < n, a i = b i := by
  constructor
  · intro h i hi
    have hA := testBit_low (b := a) hi
    have hB := testBit_low (b := b) hi
    rw [h] at hA
    exact hA.symm.trans hB
  · exact low_congr

theorem sign_extended {signed : Bool} {len n : Nat} (hLen : 0 < len) (hLe : len ≤ n)
    (b : Nat → Bool) : sign signed n (extended signed len b) = sign signed len b := by
  rcases Nat.lt_or_eq_of_le hLe with hLt | hEq
  · unfold sign
    rw [extended_of_le (by omega), decide_eq_true (show 0 < n by omega)]
    unfold sign
    rw [decide_eq_true hLen]
    cases signed <;> simp
  · rw [← hEq]
    unfold sign
    rw [extended_of_lt (by omega)]

/- Continuing a number by its sign keeps the integer. -/
theorem value_extended {signed : Bool} {len n : Nat} (hLe : len ≤ n) (b : Nat → Bool) :
    value signed n (extended signed len b) = value signed len b :=
  (value_eq_iff (low_extended_modEq signed len b n)).mpr ((value_fits signed len b).mono hLe)

theorem low_eq_of_modEq (h : (low a n : Int) ≡ low b n [ZMOD 2 ^ n]) : low a n = low b n := by
  have hA := low_lt a n
  have hB := low_lt b n
  have hCast := cast_two_pow n
  unfold Int.ModEq at h
  rw [Int.emod_eq_of_lt (by omega) (by omega), Int.emod_eq_of_lt (by omega) (by omega)] at h
  exact_mod_cast h

/- An integer fits where all further bits repeat the sign. -/
theorem fits_iff_extended {signed : Bool} {len k : Nat} (b : Nat → Bool) :
    Fits signed k (value signed len b) ↔
      ∀ j, k ≤ j → extended signed len b j = sign signed k (extended signed len b) := by
  constructor
  · intro hFits j hj
    have hValue : value signed k (extended signed len b) = value signed len b :=
      (value_eq_iff (low_extended_modEq signed len b k)).mpr hFits
    have hCut := low_extended_modEq signed k (extended signed len b) (j + 1)
    rw [hValue] at hCut
    have hLow := low_eq_of_modEq (hCut.trans (low_extended_modEq signed len b (j + 1)).symm)
    have hBit := (low_eq_iff _ _ _).mp hLow j (Nat.lt_succ_self j)
    rw [extended_of_le hj] at hBit
    exact hBit.symm
  · intro h
    have hSame : ∀ i, extended signed k (extended signed len b) i = extended signed len b i := by
      intro i
      by_cases hi : i < k
      · exact extended_of_lt hi
      · rw [extended_of_le (Nat.not_lt.mp hi)]
        exact (h i (Nat.not_lt.mp hi)).symm
    have hLow : low (extended signed k (extended signed len b))
        (max len k) = low (extended signed len b) (max len k) :=
      low_congr (fun i _ => hSame i)
    have hCut := low_extended_modEq signed k (extended signed len b) (max len k)
    rw [hLow] at hCut
    have hEq := ((value_fits signed len b).mono
      (Nat.le_max_left len k)).eq
      ((value_fits signed k (extended signed len b)).mono (Nat.le_max_right len k))
      ((low_extended_modEq signed len b (max len k)).symm.trans hCut)
    rw [hEq]
    exact value_fits signed k _

end TwosComplement
