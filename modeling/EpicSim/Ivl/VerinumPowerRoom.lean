import EpicSim.Ivl.VerinumPower
import Mathlib.Data.Nat.Size

/-
  Powers of numbers of no fixed length.

  The length of a product is the sum of two lengths, in a
  32-bit counter.  While no sum reaches its end a power is
  exact, and takes the least length of its integer.  A product
  that has lost its length is too small, and so is every power
  made of it.
-/

----
-- Least Lengths
----

namespace TwosComplement

/- The least number of bits that hold an integer and its
   sign. -/
def leastLen (n : Int) : Nat :=
  (if 0 ≤ n then n.toNat else (-n - 1).toNat).size + 1

theorem fits_succ_iff (len : Nat) (n : Int) : Fits true (len + 1) n ↔ leastLen n ≤ len + 1 := by
  have hPow : (2 : Int) ^ (len + 1) = 2 ^ len * 2 := pow_succ 2 len
  have hCast := cast_two_pow len
  unfold Fits leastLen
  rw [if_pos rfl, Nat.add_le_add_iff_right, Nat.size_le]
  split_ifs <;> omega

variable {len : Nat} {n : Int}

theorem leastLen_le (hLen : 0 < len) (h : Fits true len n) : leastLen n ≤ len := by
  rcases Nat.exists_eq_succ_of_ne_zero (Nat.pos_iff_ne_zero.mp hLen) with ⟨m, rfl⟩
  exact (fits_succ_iff m n).mp h

theorem leastLen_pos (n : Int) : 0 < leastLen n :=
  Nat.succ_pos _

theorem fits_leastLen (n : Int) : Fits true (leastLen n) n :=
  (fits_succ_iff _ n).mpr (Nat.le_refl _)

/- The last bit but one is needed. -/
theorem two_pow_leastLen_le (hn : n ≠ 0) : 2 ^ leastLen n ≤ 4 * n.natAbs := by
  unfold leastLen
  generalize hm : (if 0 ≤ n then n.toNat
    else (-n - 1).toNat) = m
  have hBound : m ≤ n.natAbs := by
    rw [← hm]
    split_ifs <;> omega
  by_cases hZero : m = 0
  · rw [hZero, Nat.size_zero]
    omega
  · have hPos : 0 < m.size :=
      Nat.size_pos.mpr (Nat.pos_of_ne_zero hZero)
    have hTop : 2 ^ (m.size - 1) ≤ m := Nat.lt_size.mp (by omega)
    have hBack : 2 ^ m.size = 2 ^ (m.size - 1) * 2 := by
      rw [← pow_succ]
      congr 1
      omega
    omega

/- The least length of a natural number is one above its
   size. -/
theorem lt_two_pow_leastLen (hn : 0 ≤ n) : n.toNat < 2 ^ (leastLen n - 1) := by
  unfold leastLen
  rw [if_pos hn]
  exact Nat.lt_size_self _

theorem leastLen_of_top {top : Nat} (hLow : (2 : Int) ^ top ≤ n) (hHigh : n < 2 ^ (top + 1)) :
    leastLen n = top + 2 := by
  have hCast := cast_two_pow top
  have hn : 0 ≤ n := by omega
  unfold leastLen
  rw [if_pos hn]
  have hLe : n.toNat.size ≤ top + 1 := Nat.size_le.mpr (by omega)
  have hGt : top < n.toNat.size := Nat.lt_size.mpr (by omega)
  omega

theorem leastLen_le_two (hn : n.natAbs ≤ 1) : leastLen n ≤ 2 := by
  rw [← fits_succ_iff 1 n]
  unfold Fits
  rw [if_pos rfl]
  omega

/- An integer in range is no larger than what it stands for. -/
theorem natAbs_le_of_modEq {signed : Bool} {m n : Int} (hFits : Fits signed len m)
    (hMod : m ≡ n [ZMOD 2 ^ len]) (hSign : signed = false → 0 ≤ n) : m.natAbs ≤ n.natAbs := by
  rcases hMod.dvd with ⟨k, hk⟩
  have hPos : (0 : Int) < 2 ^ len := by simp
  have hn : n = m + 2 ^ len * k := by omega
  rcases Int.lt_trichotomy k 0 with hNeg | hZero | hk
  · have hLe : 2 ^ len * k ≤ 2 ^ len * (-1) :=
      Int.mul_le_mul_of_nonneg_left (by omega) (Int.le_of_lt hPos)
    unfold Fits at hFits
    grind
  · rw [hn, hZero, Int.mul_zero, Int.add_zero]
  · have hGe : 2 ^ len * 1 ≤ 2 ^ len * k :=
      Int.mul_le_mul_of_nonneg_left (by omega) (Int.le_of_lt hPos)
    unfold Fits at hFits
    split_ifs at hFits <;> omega

theorem natAbs_lt_of_fits_any {signed : Bool} (h : Fits signed len n) : n.natAbs < 2 ^ len := by
  have hCast := cast_two_pow len
  unfold Fits at h
  split_ifs at h <;> omega

end TwosComplement

----
-- Products That Grow
----

namespace EpicSim

open TwosComplement

namespace Verinum

/- An unsized number of the least length of its integer. -/
structure LeastLike (signed : Bool) (n : Int) (res : Verinum) : Prop where
  defined : res.Defined
  has_len : res.has_len = false
  has_sign : res.has_sign = signed
  integer : res.integer = n
  len : res.len = leastLen n
  stored : res.len < 2 ^ 32

/- Trimming leaves the least length, where an unsigned number
   has a leading zero. -/
theorem trimVnum_least {v : Verinum} (h : v.Defined) (hLen : 2 ≤ v.len)
    (hUnsized : v.has_len = false) (hZero : v.has_sign = false → v.bit (v.len - 1) = false) :
    (trimVnum v).len = leastLen v.integer := by
  cases hSign : v.has_sign with
  | true =>
    have hTrim := trimVnum_spec h
    have hPos := trimVnum_pos (show 0 < v.len by omega)
    have hFits := integer_fits (trimVnum v)
    rw [hTrim.integer, hTrim.has_sign, hSign] at hFits
    exact Nat.le_antisymm
      (hTrim.minimal hUnsized hSign _ (leastLen_pos _) (fits_leastLen _))
      (leastLen_le hPos hFits)
  | false =>
    have hTop := hZero hSign
    rcases skipDown_spec v .v0 (v.len - 1) with ⟨hLe, hAll, hStop⟩
    unfold trimVnum
    rw [hUnsized, hSign]
    simp only [Bool.false_eq_true, if_false, Nat.not_lt.mpr hLen]
    generalize hSkip : skipDown v .v0 (v.len - 1) = top at *
    have hAbove : ∀ i, top + 1 ≤ i → i < v.len →
        v.bit i = false := by
      intro i hLow hHigh
      unfold bit
      rw [hAll i (by omega) (by omega)]
      rfl
    have hNumber : v.number = low v.bit (top + 1) := low_trim_zero (by omega) hAbove
    have hInteger := integer_eq_number hSign
    have hTake : ∀ n ≤ v.len,
        (ofBits (v.bits.take n) false).len = n := by
      intro n hn
      change (v.bits.take n).length = n
      rw [List.length_take]
      exact Nat.min_eq_left hn
    by_cases hBit : v.bit top = true
    · have hNe : top + 1 ≠ v.len := by grind
      have hGet : v.get top ≠ .v0 := by
        rw [get_of_defined h (by omega), hBit]
        decide
      rw [if_neg hNe, if_neg hGet, hTake _ (by omega), hInteger, hNumber]
      have hGe : 2 ^ top ≤ low v.bit (top + 1) := le_low hBit (by omega)
      have hLt := low_lt v.bit (top + 1)
      refine (leastLen_of_top ?_ ?_).symm
      · exact_mod_cast hGe
      · exact_mod_cast hLt
    · have hGet : v.get top = .v0 := by
        rw [get_of_defined h (by omega), Bool.eq_false_of_not_eq_true hBit]
        rfl
      have hFirst : top = 0 := by grind
      rw [if_neg (by omega), if_pos hGet, hTake _ (by omega), hInteger, hNumber, hFirst]
      rw [hFirst] at hBit
      have hOne : low v.bit 1 = 0 := by simp [low, Bool.eq_false_of_not_eq_true hBit]
      rw [hOne]
      rfl

theorem LeastLike.trim {signed : Bool} {n : Int} {res : Verinum} (h : LeastLike signed n res) :
    LeastLike signed n (trimVnum res) := by
  have hTrim := trimVnum_spec h.defined
  refine ⟨hTrim.defined, hTrim.has_len.trans h.has_len, hTrim.has_sign.trans h.has_sign,
    hTrim.integer.trans h.integer, ?_, Nat.lt_of_le_of_lt hTrim.len_le h.stored⟩
  by_cases hShort : res.len < 2
  · have hSame : trimVnum res = res := by
      unfold trimVnum
      rw [if_neg (by rw [h.has_len]; decide), if_pos hShort]
    rw [hSame]
    exact h.len
  · rw [← h.integer]
    refine trimVnum_least h.defined (by omega) h.has_len (fun hUnsigned => ?_)
    have hNumber := integer_eq_number hUnsigned
    have hLt := lt_two_pow_leastLen (show 0 ≤ n by rw [← h.integer]; omega)
    rw [← h.integer, hNumber] at hLt
    have hLenEq := h.len
    rw [← h.integer, hNumber] at hLenEq
    rw [← hLenEq] at hLt
    by_contra hBit
    have hGe : 2 ^ (res.len - 1) ≤ res.number :=
      le_low (Bool.eq_true_of_not_eq_false hBit) (by omega)
    omega

end Verinum

end EpicSim

----
-- One Product
----

namespace EpicSim

open TwosComplement

namespace Verinum

/- A product that has room is exact and of the least length. -/
theorem times_least {a b : Verinum} {n : Int} (hA : a.Defined) (hLen : 0 < a.len)
    (hOpen : a.has_len = false) (hB : LeastLike a.has_sign n b) (hRoom : a.len + b.len < 2 ^ 32) :
    ∃ res, (times a b).map trimVnum = some res ∧
      LeastLike a.has_sign (a.integer * n) res := by
  have hLenB : 0 < b.len := by
    rw [hB.len]
    exact leastLen_pos n
  have hOperands : Operands a b := ⟨hA, hB.defined, hLen, hLenB, hB.has_sign.symm⟩
  rcases mul_spec hOperands with ⟨res, hRes, hDefined, hResLen, hHasLen, hSign, hMod⟩
  rw [hOpen, Bool.false_and] at hResLen hHasLen
  rw [if_neg Bool.false_ne_true, unsigned_of_lt hRoom] at hResLen
  have hFits := (fits_of_room hOperands 0).1 hRoom
  rw [unsigned_of_lt hRoom] at hFits
  have hFits' := res.integer_fits
  rw [hSign, hResLen] at hFits'
  rw [hResLen] at hMod
  have hInteger : res.integer = a.integer * n := by
    rw [← hB.integer]
    exact hFits'.eq hFits hMod
  have hTrim := trimVnum_spec hDefined
  rw [times_of_pos hLenB, hRes]
  refine ⟨_, rfl, LeastLike.trim ?_⟩
  refine
    { defined := hTrim.defined
      has_len := hTrim.has_len.trans hHasLen
      has_sign := hTrim.has_sign.trans hSign
      integer := hTrim.integer.trans hInteger
      len := ?_
      stored := Nat.lt_of_le_of_lt hTrim.len_le (by omega) }
  rw [← hInteger]
  refine trimVnum_least hDefined (by omega) hHasLen (fun hUnsigned => ?_)
  -- an unsigned product leaves the zero of the right number
  have hNoSign : a.has_sign = false := hSign.symm.trans hUnsigned
  have hNoSignB : b.has_sign = false := hB.has_sign.trans hNoSign
  have hNumberB := integer_eq_number hNoSignB
  have hRight := lt_two_pow_leastLen (show 0 ≤ n by rw [← hB.integer]; omega)
  rw [← hB.integer, hNumberB, Int.toNat_natCast, ← hNumberB, hB.integer, ← hB.len] at hRight
  have hProduct : res.number = a.number * b.number := by
    have hEq := hInteger
    rw [integer_eq_number hUnsigned, integer_eq_number hNoSign, ← hB.integer, hNumberB] at hEq
    exact_mod_cast hEq
  have hLt : res.number < 2 ^ (res.len - 1) := by
    have hBack : res.len - 1 = a.len + (b.len - 1) := by omega
    rw [hProduct, hBack, pow_add]
    exact Nat.mul_lt_mul_of_lt_of_le a.number_lt (Nat.le_of_lt hRight) (Nat.two_pow_pos _)
  by_contra hBit
  have hGe : 2 ^ (res.len - 1) ≤ res.number := le_low (Bool.eq_true_of_not_eq_false hBit) (by omega)
  omega

/- Nothing times an unsigned number of no bits. -/
theorem mul_empty {a b : Verinum} (hA : a.Defined) (hB : b.Defined) (hLen : b.len = 0)
    (hSign : b.has_sign = false) :
    (mul a b).Defined ∧ (mul a b).integer = 0 ∧
      (mul a b).has_len = (a.has_len && b.has_len) ∧
      (mul a b).has_sign = false := by
  have hUndefined : (!a.isDefined || !b.isDefined) = false := by
    rw [show a.isDefined = true from hA, show b.isDefined = true from hB]
    rfl
  have hPadded : ∀ idx, b.padded idx = .v0 := by
    intro idx
    unfold padded signBit
    rw [if_neg (by omega), hSign, if_neg Bool.false_ne_true]
  have hSkip : ∀ (n : Nat) (start : Verinum),
      (List.range n).foldl (fun result rdx =>
        if b.padded rdx = .v0 then result
        else mulRow a rdx result) start = start := by
    intro n start
    induction n with
    | zero => rfl
    | succ n ih =>
      rw [List.range_succ, List.foldl_append, ih,
        List.foldl_cons, List.foldl_nil, if_pos (hPadded n)]
  unfold mul
  rw [hUndefined, if_neg Bool.false_ne_true, hSkip, hSign, Bool.and_false]
  generalize unsigned (if (a.has_len && b.has_len) = true then
    max a.len b.len else a.len + b.len) = len
  have hHas := hasBits_replicate false
    (show ((fill .v0 len (a.has_len && b.has_len)).withSign
      false).bits = List.replicate (unsigned len) _ from rfl)
  have hTrim := trimVnum_spec hHas.defined
  refine ⟨hTrim.defined, ?_, hTrim.has_len, hTrim.has_sign⟩
  rw [hTrim.integer, hHas.integer]
  change value false (unsigned len) _ = 0
  unfold value sign
  rw [low_false]
  rfl

/- An unsized number, no larger than another one. -/
structure Bounded (signed : Bool) (bound : Nat) (res : Verinum) : Prop where
  defined : res.Defined
  has_len : res.has_len = false
  has_sign : res.has_sign = signed
  natAbs : res.integer.natAbs < bound

/- A product is no larger than the true one, whatever room it
   has, and fits into the length that was computed. -/
theorem times_fits {a b res : Verinum} (hA : a.Defined) (hB : b.Defined)
    (hOpen : a.has_len = false) (hSign : b.has_sign = a.has_sign)
    (hLen : 0 < b.len → 0 < a.len) (hTimes : (times a b).map trimVnum = some res) :
    res.Defined ∧ res.has_len = false ∧
      res.has_sign = a.has_sign ∧
      Fits a.has_sign (unsigned (a.len + b.len)) res.integer ∧
      res.integer.natAbs ≤ (a.integer * b.integer).natAbs := by
  by_cases hEmpty : b.len = 0
  · have hUnsigned : b.has_sign = false := by
      by_contra hSigned
      unfold times at hTimes
      rw [if_pos ⟨Bool.eq_true_of_not_eq_false hSigned, hEmpty⟩] at hTimes
      cases hTimes
    rcases mul_empty hA hB hEmpty hUnsigned with ⟨hDefined, hInteger, hHasLen, hNoSign⟩
    unfold times at hTimes
    rw [if_neg (fun h => by
      rw [hUnsigned] at h
      exact Bool.false_ne_true h.1)] at hTimes
    have hRes : trimVnum (mul a b) = res := Option.some.inj hTimes
    have hTrim := trimVnum_spec hDefined
    rw [hRes] at hTrim
    rw [hOpen] at hHasLen
    have hZero : res.integer = 0 := hTrim.integer.trans hInteger
    refine ⟨hTrim.defined, hTrim.has_len.trans hHasLen,
      (hTrim.has_sign.trans hNoSign).trans (hUnsigned.symm.trans hSign), ?_, ?_⟩
    · rw [hZero]
      exact fits_zero _ _
    · rw [hZero]
      exact Nat.zero_le _
  · have hOperands : Operands a b :=
      ⟨hA, hB, hLen (by omega), by omega, hSign.symm⟩
    rcases mul_spec hOperands with ⟨raw, hRaw, hDefined, hRawLen, hHasLen, hRawSign, hMod⟩
    rw [hOpen] at hRawLen hHasLen
    rw [times_of_pos (by omega), hRaw] at hTimes
    have hRes : trimVnum (trimVnum raw) = res := Option.some.inj hTimes
    have hTrim := trimVnum_spec hDefined
    have hTrim' := trimVnum_spec hTrim.defined
    rw [hRes] at hTrim'
    have hInteger : res.integer = raw.integer := hTrim'.integer.trans hTrim.integer
    have hFits := raw.integer_fits
    rw [hRawSign, hRawLen] at hFits
    rw [hRawLen] at hMod
    refine ⟨hTrim'.defined, hTrim'.has_len.trans (hTrim.has_len.trans hHasLen),
      hTrim'.has_sign.trans (hTrim.has_sign.trans hRawSign), by rw [hInteger]; exact hFits, ?_⟩
    rw [hInteger]
    refine natAbs_le_of_modEq hFits hMod (fun hUnsigned => ?_)
    rw [integer_eq_number hUnsigned, integer_eq_number (hSign.trans hUnsigned)]
    exact Int.mul_nonneg (Int.natCast_nonneg _) (Int.natCast_nonneg _)

/- A product whose length has wrapped is too small. -/
theorem wrapped_lt {signed : Bool} {len : Nat} {m n : Int} (hLen : len < 2 ^ 32)
    (hWrap : 2 ^ 32 ≤ len + leastLen n) (hReach : leastLen n < 2 ^ 32) (hn : n ≠ 0)
    (hFits : Fits signed (unsigned (len + leastLen n)) m) : m.natAbs < 2 * n.natAbs := by
  have hLost : unsigned (len + leastLen n) ≤ leastLen n - 1 := by
    unfold unsigned
    omega
  have hPos := leastLen_pos n
  have hLt := natAbs_lt_of_fits_any hFits
  have hPow := Nat.pow_le_pow_right (by decide : 0 < 2) hLost
  have hTop := two_pow_leastLen_le hn
  have hBack : 2 ^ leastLen n = 2 ^ (leastLen n - 1) * 2 := by
    rw [← pow_succ, Nat.sub_add_cancel hPos]
  omega

end Verinum

end EpicSim

----
-- Room
----

namespace EpicSim

open TwosComplement

namespace Verinum

/-
  No product of the power runs out of length.  The exponents
  on the way are the leading bits of the whole one, and these
  with the lowest bit cleared.
-/
def PowRoom (len : Nat) (x : Int) (n : Nat) : Prop :=
  ∀ s,
    (n / 2 ^ s % 2 = 1 → len + leastLen (x ^ (n / 2 ^ s - 1)) < 2 ^ 32) ∧
    (2 ≤ n / 2 ^ s → leastLen (x ^ (n / 2 ^ s / 2)) + leastLen (x ^ (n / 2 ^ s / 2)) < 2 ^ 32)

theorem powRoom_odd (len : Nat) (x : Int) {n : Nat} (hOdd : n % 2 = 1) :
    PowRoom len x n ↔
      PowRoom len x (n - 1) ∧
        len + leastLen (x ^ (n - 1)) < 2 ^ 32 := by
  have hHalf : (n - 1) / 2 = n / 2 := by omega
  have hShift : ∀ s, (n - 1) / 2 ^ (s + 1) = n / 2 ^ (s + 1) := by
    intro s
    rw [pow_succ', ← Nat.div_div_eq_div_mul, hHalf, Nat.div_div_eq_div_mul]
  constructor
  · intro h
    have hFirst := h 0
    rw [pow_zero, Nat.div_one] at hFirst
    refine ⟨fun s => ?_, hFirst.1 hOdd⟩
    cases s with
    | zero => grind
    | succ s =>
      rw [hShift s]
      exact h (s + 1)
  · rintro ⟨h, hSum⟩ s
    cases s with
    | zero =>
      have hFirst := h 0
      grind
    | succ s =>
      rw [← hShift s]
      exact h (s + 1)

theorem powRoom_even (len : Nat) (x : Int) {n : Nat} (hn : n ≠ 0) (hEven : n % 2 = 0) :
    PowRoom len x n ↔
      PowRoom len x (n / 2) ∧
        leastLen (x ^ (n / 2)) + leastLen (x ^ (n / 2)) < 2 ^ 32 := by
  have hShift : ∀ s, n / 2 / 2 ^ s = n / 2 ^ (s + 1) := by
    intro s
    rw [pow_succ', ← Nat.div_div_eq_div_mul]
  constructor
  · intro h
    have hFirst := h 0
    rw [pow_zero, Nat.div_one] at hFirst
    refine ⟨fun s => ?_, hFirst.2 (by omega)⟩
    rw [hShift s]
    exact h (s + 1)
  · rintro ⟨h, hSum⟩ s
    cases s with
    | zero => grind
    | succ s =>
      rw [← hShift s]
      exact h s

theorem powRoom_zero (len : Nat) (x : Int) : PowRoom len x 0 := by
  intro s
  rw [Nat.zero_div]
  exact ⟨fun h => absurd h (by decide), fun h => absurd h (by decide)⟩

/- A number no larger than one leaves room. -/
theorem powRoom_of_small {len : Nat} {x : Int} (hLen : len + 2 < 2 ^ 32) (hx : x.natAbs ≤ 1)
    (n : Nat) : PowRoom len x n := by
  have hSmall : ∀ m, leastLen (x ^ m) ≤ 2 := by
    intro m
    apply leastLen_le_two
    have hPow := Nat.pow_le_pow_left hx m
    rwa [one_pow, ← Int.natAbs_pow] at hPow
  intro s
  have hA := hSmall (n / 2 ^ s - 1)
  have hB := hSmall (n / 2 ^ s / 2)
  exact ⟨fun _ => by omega, fun _ => by omega⟩

end Verinum

end EpicSim

----
-- Unsized Powers
----

namespace EpicSim

open TwosComplement

namespace Verinum

/- The power so far: exact where there was room, and otherwise
   missing or too small. -/
structure PowerState (left : Verinum) (n : Nat) (outcome : Option Verinum) : Prop where
  exact : PowRoom left.len left.integer n →
    ∃ res, outcome = some res ∧ LeastLike left.has_sign (left.integer ^ n) res
  lost : 2 ≤ left.integer.natAbs →
    ¬PowRoom left.len left.integer n →
      ∀ res, outcome = some res → Bounded left.has_sign (left.integer ^ n).natAbs res

theorem powerState_zero {left : Verinum} (hLen : 0 < left.len) (hStored : left.len < 2 ^ 32)
    (hOpen : left.has_len = false) :
    PowerState left 0 (some (trimVnum (makePOne left.len left.has_len left.has_sign))) := by
  have hOne := makePOne_denotes hLen hStored
  have hHas := makePOne_hasBits hLen hStored left.has_len
    left.has_sign
  refine ⟨fun _ => ⟨_, rfl, LeastLike.trim ?_⟩, fun _ hFull => absurd (powRoom_zero _ _) hFull⟩
  rw [pow_zero]
  have hTwo : (makePOne left.len left.has_len
      left.has_sign).len = 2 := by
    rw [hOpen]
    rfl
  exact ⟨hOne.defined, hOpen, rfl, hOne.exact hOpen, hTwo, by omega⟩

theorem powerState_odd {left : Verinum} (hLeft : left.Defined) (hLen : 0 < left.len)
    (hStored : left.len < 2 ^ 32) (hOpen : left.has_len = false)
    {n : Nat} {outcome : Option Verinum} (hOdd : n % 2 = 1) (h : PowerState left (n - 1) outcome) :
    PowerState left n ((outcome.bind (times left)).map trimVnum) := by
  have hPower : left.integer ^ n =
      left.integer * left.integer ^ (n - 1) := by
    rw [← pow_succ']
    congr 1
    omega
  have hIff := powRoom_odd left.len left.integer hOdd
  constructor
  · intro hRoom
    rcases hIff.mp hRoom with ⟨hBefore, hSum⟩
    rcases h.exact hBefore with ⟨part, rfl, hPart⟩
    rw [hPower]
    exact times_least hLeft hLen hOpen hPart (by rw [hPart.len]; exact hSum)
  · intro hLarge hFull res hRes
    cases outcome with
    | none => cases hRes
    | some part =>
      have hPos : 0 < (left.integer ^ (n - 1)).natAbs := by
        rw [Int.natAbs_pow]
        exact Nat.pow_pos (by omega)
      by_cases hBefore : PowRoom left.len left.integer (n - 1)
      · -- this product is the one that has no room
        rcases h.exact hBefore with ⟨_, hSome, hPart⟩
        cases hSome
        have hSum : 2 ^ 32 ≤
            left.len + leastLen (left.integer ^ (n - 1)) := by
          by_contra hLt
          exact hFull (hIff.mpr ⟨hBefore, by omega⟩)
        rcases times_fits hLeft hPart.defined hOpen hPart.has_sign (fun _ => hLen) hRes with
          ⟨hDefined, hHasLen, hSign, hFits, hLe⟩
        refine ⟨hDefined, hHasLen, hSign, ?_⟩
        rw [hPart.len] at hFits
        have hReach := hPart.stored
        rw [hPart.len] at hReach
        have hLess := wrapped_lt hStored hSum hReach (Int.natAbs_pos.mp hPos) hFits
        rw [hPower, Int.natAbs_mul]
        exact Nat.lt_of_lt_of_le hLess (Nat.mul_le_mul_right _ hLarge)
      · have hPart := h.lost hLarge hBefore part rfl
        rcases times_fits hLeft hPart.defined hOpen hPart.has_sign (fun _ => hLen) hRes with
          ⟨hDefined, hHasLen, hSign, _, hLe⟩
        refine ⟨hDefined, hHasLen, hSign, ?_⟩
        rw [hPower, Int.natAbs_mul]
        rw [Int.natAbs_mul] at hLe
        exact Nat.lt_of_le_of_lt hLe (Nat.mul_lt_mul_of_pos_left hPart.natAbs (by omega))

theorem powerState_even {left : Verinum} {n : Nat} {outcome : Option Verinum}
    (hn : n ≠ 0) (hEven : n % 2 = 0) (h : PowerState left (n / 2) outcome) :
    PowerState left n ((outcome.bind (fun result =>
      times result result)).map trimVnum) := by
  have hPower : left.integer ^ n =
      left.integer ^ (n / 2) * left.integer ^ (n / 2) := by
    rw [← pow_add]
    congr 1
    omega
  have hIff := powRoom_even left.len left.integer hn hEven
  constructor
  · intro hRoom
    rcases hIff.mp hRoom with ⟨hBefore, hSum⟩
    rcases h.exact hBefore with ⟨part, rfl, hPart⟩
    have hPos : 0 < part.len := by
      rw [hPart.len]
      exact leastLen_pos _
    have hSelf := hPart
    rw [← hPart.has_sign] at hSelf
    rcases times_least hPart.defined hPos hPart.has_len hSelf (by rw [hPart.len]; exact hSum) with
      ⟨res, hRes, hLike⟩
    rw [hPart.has_sign, hPart.integer, ← hPower] at hLike
    exact ⟨res, hRes, hLike⟩
  · intro hLarge hFull res hRes
    cases outcome with
    | none => cases hRes
    | some part =>
      have hPos : 2 ≤ (left.integer ^ (n / 2)).natAbs := by
        rw [Int.natAbs_pow]
        calc 2 ≤ left.integer.natAbs := hLarge
          _ = left.integer.natAbs ^ 1 := (pow_one _).symm
          _ ≤ left.integer.natAbs ^ (n / 2) := Nat.pow_le_pow_right (by omega) (by omega)
      by_cases hBefore : PowRoom left.len left.integer (n / 2)
      · -- this square is the product that has no room
        rcases h.exact hBefore with ⟨_, hSome, hPart⟩
        cases hSome
        have hSum : 2 ^ 32 ≤
            leastLen (left.integer ^ (n / 2)) + leastLen (left.integer ^ (n / 2)) := by
          by_contra hLt
          exact hFull (hIff.mpr ⟨hBefore, by omega⟩)
        rcases times_fits hPart.defined hPart.defined hPart.has_len rfl id hRes with
          ⟨hDefined, hHasLen, hSign, hFits, hLe⟩
        refine ⟨hDefined, hHasLen, hSign.trans hPart.has_sign, ?_⟩
        have hReach := hPart.stored
        rw [hPart.len] at hFits hReach
        have hLess := wrapped_lt hReach hSum hReach (Int.natAbs_pos.mp (by omega)) hFits
        rw [hPower, Int.natAbs_mul]
        exact Nat.lt_of_lt_of_le hLess (Nat.mul_le_mul_right _ hPos)
      · have hPart := h.lost hLarge hBefore part rfl
        rcases times_fits hPart.defined hPart.defined hPart.has_len rfl id hRes with
          ⟨hDefined, hHasLen, hSign, _, hLe⟩
        refine ⟨hDefined, hHasLen, hSign.trans hPart.has_sign, ?_⟩
        rw [hPower, Int.natAbs_mul]
        rw [Int.natAbs_mul] at hLe
        exact Nat.lt_of_le_of_lt hLe (Nat.mul_self_lt_mul_self hPart.natAbs)

/- Powers of an unsized number, to any exponent. -/
theorem pow_unsized {left right : Verinum} {n : Nat} (hLeft : left.Defined)
    (hLen : 0 < left.len) (hStored : left.len < 2 ^ 32)
    (hOpen : left.has_len = false) (hRight : right.Exponent n) :
    ∃ outcome, PowerState left n outcome ∧ ∀ calls, n < calls → pow calls left right = outcome :=
  pow_run hLeft (powerState_zero hLen hStored hOpen)
    (fun _ _ hOdd h => powerState_odd hLeft hLen hStored hOpen hOdd h)
    (fun _ _ hn hEven h => powerState_even hn hEven h) hRight

end Verinum

end EpicSim

----
-- Powers
----

namespace EpicSim

open TwosComplement

namespace Verinum

/- The power ends, and is what it must be. -/
def PowRight (left right : Verinum) : Prop :=
  ∃ res,
    (∀ calls, right.integer.toNat < calls → pow calls left right = some res) ∧
    (0 ≤ right.integer → Denotes left.has_len left.len (left.integer ^ right.integer.toNat) res) ∧
    (right.integer < 0 → NegativePower left right res)

/- A fixed length, a negative exponent, or room for every
   product. -/
def PowHolds (left right : Verinum) : Prop :=
  left.has_len = true ∨ right.integer < 0 ∨ PowRoom left.len left.integer right.integer.toNat

section

variable {left right : Verinum} (hLeft : left.Defined) (hRight : right.Defined)
  (hLen : 0 < left.len) (hStored : left.len < 2 ^ 32) (hStoredRight : right.len < 2 ^ 32)

include hLeft hRight hLen hStored hStoredRight

theorem powRight_of_holds (h : PowHolds left right) : PowRight left right := by
  by_cases hNegative : right.integer < 0
  · rcases pow_negative hLeft hRight hLen hStored hNegative with ⟨res, hRes, hCalls⟩
    exact ⟨res, fun calls h => hCalls calls (by omega), fun hNonneg => (by omega), fun _ => hRes⟩
  · have hExponent : right.Exponent right.integer.toNat :=
      ⟨hRight, hStoredRight, by omega⟩
    by_cases hSized : left.has_len = true
    · rcases pow_sized hLeft hLen hStored hSized hExponent with ⟨res, hRes, hCalls⟩
      exact ⟨res, hCalls, fun _ => hRes, fun h => absurd h hNegative⟩
    · have hOpen := Bool.eq_false_of_not_eq_true hSized
      have hRoom : PowRoom left.len left.integer
          right.integer.toNat := by
        rcases h with hSized' | hNegative' | hRoom
        · exact absurd hSized' hSized
        · exact absurd hNegative' hNegative
        · exact hRoom
      rcases pow_unsized hLeft hLen hStored hOpen hExponent with ⟨outcome, hState, hCalls⟩
      rcases hState.exact hRoom with ⟨res, rfl, hRes⟩
      refine ⟨res, hCalls, fun _ => ?_, fun h => absurd h hNegative⟩
      exact ⟨⟨fun _ => hRes.integer, fun hSized' => absurd hSized' hSized⟩, hRes.defined⟩

theorem not_powRight (hLarge : 2 ≤ left.integer.natAbs)
    (h : ¬PowHolds left right) : ¬PowRight left right := by
  unfold PowHolds at h
  push Not at h
  rcases h with ⟨hSized, hNonneg, hFull⟩
  rintro ⟨res, hPow, hDenotes, _⟩
  have hOpen := Bool.eq_false_of_not_eq_true hSized
  have hExponent : right.Exponent right.integer.toNat := ⟨hRight, hStoredRight, by omega⟩
  rcases pow_unsized hLeft hLen hStored hOpen hExponent with ⟨outcome, hState, hCalls⟩
  have hSome : outcome = some res :=
    (hCalls _ (Nat.lt_succ_self _)).symm.trans (hPow _ (Nat.lt_succ_self _))
  have hBounded := hState.lost hLarge hFull res hSome
  have hExact := (hDenotes hNonneg).exact hOpen
  have hLess := hBounded.natAbs
  rw [hExact] at hLess
  exact Nat.lt_irrefl _ hLess

end

/- The power is right where there is room, and else only by
   accident: for numbers no larger than one that are written
   in almost as many bits as a counter counts. -/
theorem pow_exact {left right : Verinum} (hLeft : left.Defined)
    (hRight : right.Defined) (hLen : 0 < left.len) (hStored : left.len < 2 ^ 32)
    (hStoredRight : right.len < 2 ^ 32) :
    (PowHolds left right → PowRight left right) ∧
      (2 ≤ left.integer.natAbs ∨ left.len + 2 < 2 ^ 32 →
        PowRight left right → PowHolds left right) := by
  refine ⟨powRight_of_holds hLeft hRight hLen hStored hStoredRight, fun hCase hPow => ?_⟩
  by_contra hFull
  by_cases hLarge : 2 ≤ left.integer.natAbs
  · exact not_powRight hLeft hRight hLen hStored hStoredRight hLarge hFull hPow
  · have hShort := hCase.resolve_left hLarge
    exact hFull (Or.inr (Or.inr (powRoom_of_small hShort (by omega) _)))

/- Three squared, of no fixed length. -/
theorem pow_exact_square :
    ∃ res, pow 3 ⟨[.v1, .v1, .v0], false, true, false⟩
      ⟨[.v0, .v1, .v0], false, true, false⟩ = some res ∧
        res.integer = 9 := by
  have hInteger : integer ⟨[.v1, .v1, .v0], false, true, false⟩ =
      3 := by decide
  have hExponent : integer
      ⟨[.v0, .v1, .v0], false, true, false⟩ = 2 := by decide
  have hExact := (@pow_exact
    ⟨[.v1, .v1, .v0], false, true, false⟩
    ⟨[.v0, .v1, .v0], false, true, false⟩
    rfl rfl (by decide) (by decide) (by decide)).1
  have hRoom : PowHolds ⟨[.v1, .v1, .v0], false, true, false⟩
      ⟨[.v0, .v1, .v0], false, true, false⟩ := by
    refine Or.inr (Or.inr ?_)
    rw [hInteger, hExponent]
    exact (powRoom_even 3 3 (by decide) (by decide)).mpr
      ⟨(powRoom_odd 3 3 (by decide)).mpr ⟨powRoom_zero 3 3, by decide⟩, by decide⟩
  rcases hExact hRoom with ⟨res, hPow, hDenotes, _⟩
  rw [hInteger, hExponent] at hDenotes
  exact ⟨res, hPow 3 (by decide), (hDenotes (by decide)).exact rfl⟩

theorem leastLen_two_pow (k : Nat) : leastLen (2 ^ k) = k + 2 := by
  refine leastLen_of_top (Int.le_refl _) ?_
  have hNat : 2 ^ k < 2 ^ (k + 1) := Nat.pow_lt_pow_right (by decide) (Nat.lt_succ_self k)
  exact_mod_cast hNat

/- 2^32, as an exponent. -/
def wideExponent : Verinum where
  bits := List.replicate 32 .v0 ++ [.v1, .v0]
  has_len := false
  has_sign := true
  is_single := false

/- Two to the power 2^32: its length has no place in the
   counter. -/
theorem pow_lost :
    ¬ ∀ left right : Verinum, left.Defined → right.Defined →
      0 < left.len → left.len < 2 ^ 32 → 0 < right.len →
        right.len < 2 ^ 32 → PowRight left right := by
  intro h
  have hInteger : integer ⟨[.v0, .v1, .v0], false, true, false⟩ =
      2 := by decide
  have hExponent : wideExponent.integer = 2 ^ 32 := by decide
  have hPow := h ⟨[.v0, .v1, .v0], false, true, false⟩
    wideExponent rfl rfl (by decide) (by decide) (by decide)
    (by decide)
  refine @not_powRight ⟨[.v0, .v1, .v0], false, true, false⟩
    wideExponent rfl rfl (by decide) (by decide) (by decide)
    (by rw [hInteger]; decide) ?_ hPow
  rintro (hSized | hNegative | hRoom)
  · cases hSized
  · omega
  · rw [hInteger] at hRoom
    have hSquare := (hRoom 0).2 (by decide)
    rw [leastLen_two_pow] at hSquare
    omega

end Verinum

end EpicSim
