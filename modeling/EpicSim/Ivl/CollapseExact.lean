import Mathlib.Data.List.Forall2
import EpicSim.Ivl.CollapseArray

/-
  When the index of a packed array is the canonical offset.

  A dimension is at fault where its index is normalized wrongly:
  one element over slices with width, or an ascending range
  below zero with more than 64 bits.  Without faults the sum is
  exact, and one fault is never made good.
-/

----
-- The Canonical Offset
----

namespace EpicSim

/- The offset of a bit in a packed array. -/
def packedOffset : List NetRange → List Int → Int
| rng :: dims, n :: ns => rng.place n * words dims + packedOffset dims ns
| _, _ => 0

variable {rng : NetRange} {n : Int} {dims : List NetRange}
  {ns : List Int}

theorem place_bounds (hIn : InRange rng n) : 0 ≤ rng.place n ∧ rng.place n < rng.width := by
  unfold InRange at hIn
  unfold NetRange.place NetRange.width
  split_ifs <;> omega

theorem position_eq (hIn : InRange rng n) (hWidth : rng.width < 2 ^ 62) :
    rng.position n = some (rng.place n) := by
  have hBounds := place_bounds hIn
  unfold NetRange.position
  unfold NetRange.place at hBounds ⊢
  split_ifs at hBounds ⊢ <;>
    exact long_of_range (by omega) (by omega)

theorem scaled_place_bounds (hIn : InRange rng n) (dims : List NetRange) :
    0 ≤ rng.place n * (words dims : Int) ∧
      rng.place n * (words dims : Int) + words dims ≤ words (rng :: dims) := by
  rcases place_bounds hIn with ⟨hLow, hHigh⟩
  have hMul : (rng.place n + 1) * (words dims : Int) ≤ (rng.width : Int) * words dims :=
    Int.mul_le_mul_of_nonneg_right (by omega) (by omega)
  have hProduct := cast_words_cons rng dims
  have hSplit : (rng.place n + 1) * (words dims : Int) =
      rng.place n * (words dims : Int) + words dims := by
    ring
  refine ⟨Int.mul_nonneg hLow (by omega), ?_⟩
  rw [← hSplit]
  exact hMul

theorem packedOffset_bounds (hIn : List.Forall₂ InRange dims ns) :
    0 ≤ packedOffset dims ns ∧
      packedOffset dims ns < words dims := by
  induction hIn with
  | nil => exact ⟨Int.le_refl 0, by decide⟩
  | @cons rng n dims ns hFirst hRest ih =>
    have hBounds := scaled_place_bounds hFirst dims
    unfold packedOffset
    exact ⟨by omega, by omega⟩

theorem words_concat (dims : List NetRange) (rng : NetRange) :
    words (dims ++ [rng]) = words dims * rng.width := by
  induction dims with
  | nil =>
    change rng.width * 1 = 1 * rng.width
    rw [Nat.mul_comm]
  | cons first dims ih => rw [List.cons_append, words, ih, words, Nat.mul_assoc]

/- The last index counts within the innermost dimension. -/
theorem packedOffset_concat (hLength : dims.length = ns.length) (rng : NetRange) (n : Int) :
    packedOffset (dims ++ [rng]) (ns ++ [n]) = packedOffset dims ns * rng.width + rng.place n := by
  induction dims generalizing ns with
  | nil =>
    cases ns with
    | cons m ns => cases hLength
    | nil =>
      change rng.place n * ((1 : Nat) : Int) + 0 = 0 * (rng.width : Int) + rng.place n
      push_cast
      ring
  | cons first dims ih =>
    cases ns with
    | nil => cases hLength
    | cons m ns =>
      have hRest := @ih ns (by simpa using hLength)
      rw [List.cons_append, List.cons_append, packedOffset, hRest, packedOffset, words_concat]
      push_cast
      ring

/- The walk of `sb_to_idx`, from the last index. -/
theorem sbToIdxLoop_eq (hIn : List.Forall₂ InRange dims ns) {acc wid : Nat} (hAcc : acc < wid)
    (hWords : words dims.reverse * wid < 2 ^ 62) :
    sbToIdxLoop dims ns acc wid = some (packedOffset dims.reverse ns.reverse * wid + acc) := by
  induction hIn generalizing acc wid with
  | nil =>
    change some (acc : Int) = some (0 * (wid : Int) + acc)
    rw [Int.zero_mul, Int.zero_add]
  | @cons rng n dims ns hFirst hRest ih =>
    rcases place_bounds hFirst with ⟨hLow, hHigh⟩
    rcases Int.eq_ofNat_of_zero_le hLow with ⟨place, hPlace⟩
    rw [List.reverse_cons, words_concat] at hWords
    have hStep : rng.width * wid ≤ words dims.reverse * (rng.width * wid) :=
      Nat.le_mul_of_pos_left _ (words_pos _)
    have hAssoc : words dims.reverse * rng.width * wid = words dims.reverse * (rng.width * wid) :=
      Nat.mul_assoc _ _ _
    have hOne : rng.width * 1 ≤ rng.width * wid := Nat.mul_le_mul_left _ (by omega)
    have hPlaced : place + 1 ≤ rng.width := by omega
    have hTerm : (place + 1) * wid ≤ rng.width * wid := Nat.mul_le_mul_right _ hPlaced
    rw [Nat.add_mul] at hTerm
    have hTmp : long ((place : Int) * wid) = some ((place * wid : Nat) : Int) := by
      exact long_of_range (by omega) (by omega)
    have hSum : long ((acc : Int) + ((place * wid : Nat) : Int)) =
        some ((acc + place * wid : Nat) : Int) := by
      exact long_of_range (by omega) (by omega)
    have hWid : toLong ((wid : Int) * (rng.width : Int)) = ((rng.width * wid : Nat) : Int) := by
      have hCast : (wid : Int) * (rng.width : Int) = ((rng.width * wid : Nat) : Int) := by
        push_cast
        ring
      rw [hCast]
      exact toLong_self (by omega) (by omega)
    have hLoop := @ih (acc + place * wid) (rng.width * wid) (by omega) (by omega)
    rw [sbToIdxLoop, position_eq hFirst (by omega), hPlace]
    rw [Option.bind_eq_bind, Option.bind_some, hTmp, Option.bind_some, hSum, Option.bind_some, hWid,
      hLoop, List.reverse_cons, List.reverse_cons,
      packedOffset_concat (by rw [List.length_reverse, List.length_reverse, hRest.length_eq]),
      hPlace]
    refine congrArg some ?_
    push_cast
    ring

/- `sb_to_idx` is the canonical offset. -/
theorem sbToIdx_eq (hIn : List.Forall₂ InRange dims ns) (hSome : dims ≠ [])
    (hWords : words dims < 2 ^ 32) :
    sbToIdx dims ns.dropLast (ns.getLastD 0) = some (packedOffset dims ns) := by
  have hLength := hIn.length_eq
  have hBoth := List.forall₂_reverse_iff.mpr hIn
  unfold sbToIdx
  rw [if_pos (by
    have hPos := List.length_pos_iff.mpr hSome
    rw [List.length_dropLast]
    omega)]
  generalize hDims : dims.reverse = dims' at hBoth
  generalize hNs : ns.reverse = ns' at hBoth
  rw [List.reverse_eq_iff] at hDims hNs
  subst hDims hNs
  cases hBoth with
  | nil => exact absurd rfl hSome
  | @cons rng n dims ns hFirst hRest =>
    rcases place_bounds hFirst with ⟨hLow, hHigh⟩
    rcases Int.eq_ofNat_of_zero_le hLow with ⟨place, hPlace⟩
    rw [List.reverse_cons, words_concat] at hWords
    have hOne : 1 * rng.width ≤ words dims.reverse * rng.width :=
      Nat.mul_le_mul_right _ (words_pos _)
    have hLoop := @sbToIdxLoop_eq _ _ hRest place rng.width (by omega) (by omega)
    rw [List.reverse_cons, List.reverse_cons,
      List.dropLast_concat, List.getLastD_concat,
      packedOffset_concat (by
        rw [List.length_reverse, List.length_reverse, hRest.length_eq])]
    dsimp only
    rw [position_eq hFirst (by omega), hPlace, List.reverse_reverse,
      toLong_self (by omega) (by omega)]
    exact hLoop

end EpicSim

----
-- Normalized Indices
----

namespace EpicSim

open TwosComplement NetExpr

/-
  The code normalizes an index of a width rightly: the range is
  ascending and is not below zero with a difference of more than
  64 bits, or descending, or one element over bits.
-/
def Faultless (rng : NetRange) (slice width : Nat) : Prop :=
  if rng.msb < rng.lsb then
    rng.lsb ≠ 2 ^ 63 - 1 ∧ (0 ≤ rng.lsb ∨ max (bitsFor rng.lsb) width ≤ 62)
  else
    rng.lsb ≠ -2 ^ 63 ∧ (rng.lsb < rng.msb ∨ slice = 1)

instance (rng : NetRange) (slice width : Nat) : Decidable (Faultless rng slice width) := by
  unfold Faultless
  infer_instance

theorem cutTo_eq_self_iff {signed : Bool} {width : Nat} {n m : Int} (h : Fits signed width m) :
    cutTo signed width n = m ↔ (2 : Int) ^ width ∣ n - m := by
  constructor
  · intro hEq
    have hMod := cutTo_modEq signed width n
    rw [hEq] at hMod
    exact Int.modEq_iff_dvd.mp hMod.symm
  · intro hDvd
    rw [cutTo_congr (Int.modEq_iff_dvd.mpr hDvd).symm]
    exact cutTo_of_fits h

/- What a normalized index is, and whether it is the position. -/
structure Normal (rng : NetRange) (slice : Nat) (index result : Index) : Prop where
  fits : Fits result.signed result.width result.value
  place : Fits result.signed result.width (rng.place index.value)
  sound : result.value = rng.place index.value ↔ Faultless rng slice index.width

variable {rng : NetRange} {slice : Nat} {index : Index}

/- An ascending dimension: the index is subtracted. -/
theorem normalized_ascending (hLong : rng.Long) (hFits : Fits index.signed index.width index.value)
    (hIn : InRange rng index.value) (hUp : rng.msb < rng.lsb) :
    match index.normalized rng slice with
    | some result => Normal rng slice index result
    | none => ¬Faultless rng slice index.width := by
  have hLsb := hLong.lsb
  rcases place_bounds hIn with ⟨hLow, -⟩
  have hPlace : rng.place index.value = rng.lsb - index.value := by
    exact if_neg (by omega)
  unfold Index.normalized
  split_ifs with hMost
  · unfold Faultless
    rw [if_pos hUp]
    exact fun h => h.1 hMost
  dsimp only
  generalize (index.signed || decide (rng.lsb < 0 ∨
    bitsFor (rng.lsb + 1) ≤ max (bitsFor rng.lsb) index.width + 2)) = signed
  have hBits := bitsFor_bounds hLsb.1 hLsb.2 (Nat.le_max_left (bitsFor rng.lsb) index.width)
  have hBase := hFits.mono (Nat.le_max_right (bitsFor rng.lsb) index.width)
  have hMax : max (bitsFor rng.lsb) index.width ≤ 62 ↔
      max (bitsFor rng.lsb) index.width + 2 ≤ 64 := by omega
  have hPow := two_pow_add_two (max (bitsFor rng.lsb) index.width)
  have hRoom : Fits signed
      (max (bitsFor rng.lsb) index.width + 2)
      (rng.place index.value) := by
    refine fits_of_nonneg signed hLow ?_
    unfold Fits at hBase
    split_ifs at hBase <;> omega
  refine ⟨cutTo_fits _ _ _, hRoom, ?_⟩
  rw [cutTo_eq_self_iff hRoom, hPlace]
  unfold Faultless
  rw [if_pos hUp, hMax]
  by_cases hNeg : rng.lsb < 0
  · have hDiff : rng.lsb % 2 ^ 64 - index.value -
        (rng.lsb - index.value) = 2 ^ 64 := by omega
    rw [hDiff, two_pow_dvd_iff]
    exact ⟨fun h => ⟨hMost, Or.inr h⟩, fun h => h.2.resolve_left (by omega)⟩
  · have hDiff : rng.lsb % 2 ^ 64 - index.value -
        (rng.lsb - index.value) = 0 := by omega
    rw [hDiff]
    exact ⟨fun _ => ⟨hMost, Or.inl (by omega)⟩, fun _ => dvd_zero _⟩

/- The offset of an index is subtracted without loss. -/
theorem fits_sub_offset (hFits : Fits index.signed index.width index.value)
    {offset : Int} (hRange : -2 ^ 63 < offset ∧ offset < 2 ^ 63) :
    Fits (index.signed || decide (0 < offset))
      (max (bitsFor (-offset)) index.width + 2)
      (index.value - offset) := by
  have hBits := @bitsFor_bounds (-offset) (by omega) (by omega) _
    (Nat.le_max_left (bitsFor (-offset)) index.width)
  have hBase := hFits.mono (Nat.le_max_right (bitsFor (-offset)) index.width)
  have hPow := two_pow_add_two (max (bitsFor (-offset)) index.width)
  unfold Fits at hBase ⊢
  cases hSigned : index.signed with
  | true => grind
  | false => grind

section

variable (hLong : rng.Long) (hSlice : 0 < slice ∧ slice < 2 ^ 32)
  (hFits : Fits index.signed index.width index.value) (hIn : InRange rng index.value)

include hLong hSlice hFits hIn

/- A dimension that is not ascending, with its offset. -/
theorem normalized_offset (hDown : ¬rng.msb < rng.lsb) :
    match index.normalized rng slice with
    | some result => Normal rng slice index result
    | none => ¬Faultless rng slice index.width := by
  have hLsb := hLong.lsb
  rcases place_bounds hIn with ⟨hLow, -⟩
  have hPlace : rng.place index.value = index.value - rng.lsb := by
    exact if_pos (by omega)
  have hBetween : rng.lsb ≤ index.value ∧ index.value ≤ rng.msb := by
    unfold InRange at hIn
    omega
  have hOffset : ∃ offset, (if rng.lsb < rng.msb then rng.lsb
      else toLong (rng.lsb + (slice - 1))) = offset ∧
      (-2 ^ 63 ≤ offset ∧ offset < 2 ^ 63) ∧
      (offset = rng.lsb ↔ rng.lsb < rng.msb ∨ slice = 1) := by
    refine ⟨_, rfl, ?_, ?_⟩
    · split_ifs
      · exact hLsb
      · exact toLong_range _
    · split_ifs with hMore
      · exact ⟨fun _ => Or.inl hMore, fun _ => rfl⟩
      · have hCases := toLong_cases (n := rng.lsb + (slice - 1)) (by omega) (by omega)
        have hRange := toLong_range (rng.lsb + (slice - 1))
        omega
  rcases hOffset with ⟨offset, hEq, hRange, hSame⟩
  have hSound : Faultless rng slice index.width ↔
      rng.lsb ≠ -2 ^ 63 ∧ offset = rng.lsb := by
    unfold Faultless
    rw [if_neg hDown, hSame]
  have hZero : ¬offset = rng.lsb → rng.place index.value = 0 := by
    intro hNot
    omega
  unfold Index.normalized
  dsimp only
  rw [hEq]
  split_ifs with hLeast hNone
  · rw [hSound]
    omega
  · -- an offset of zero leaves the index as it is
    refine ⟨hFits, ?_, ?_⟩
    · by_cases hLsbZero : offset = rng.lsb
      · have hIndex : rng.place index.value = index.value := by omega
        rw [hIndex]
        exact hFits
      · rw [hZero hLsbZero]
        exact fits_of_nonneg _ (Int.le_refl 0) (by exact_mod_cast Nat.two_pow_pos _)
    · rw [hSound]
      omega
  · have hSub := @fits_sub_offset _ hFits offset (by omega)
    have hValue := cutTo_of_fits hSub
    refine ⟨cutTo_fits _ _ _, ?_, ?_⟩
    · by_cases hLsbSame : offset = rng.lsb
      · rw [hPlace, ← hLsbSame]
        exact hSub
      · rw [hZero hLsbSame]
        exact fits_of_nonneg _ (Int.le_refl 0) (by exact_mod_cast Nat.two_pow_pos _)
    · rw [hSound]
      dsimp only
      omega

theorem normalized_spec :
    match index.normalized rng slice with
    | some result => Normal rng slice index result
    | none => ¬Faultless rng slice index.width := by
  by_cases hUp : rng.msb < rng.lsb
  · exact normalized_ascending hLong hFits hIn hUp
  · exact normalized_offset hLong hSlice hFits hIn hUp

end

end EpicSim

----
-- Sums Of Places
----

namespace EpicSim

open TwosComplement NetExpr

/- A sum with room for the slices below it. -/
structure PartialSum.Room (sum : PartialSum) (slice : Nat) : Prop where
  low : 0 ≤ sum.place
  room : Fits sum.signed sum.width (sum.place + (slice - 1))
  shown : Fits sum.signed sum.width (sum.place + sum.drift)

/- A number below one that fits, read with less sign. -/
theorem fits_below {signed : Bool} {width wid : Nat} {n m : Int}
    (hFits : Fits signed width m) (hLow : 0 ≤ n) (hLe : n ≤ m)
    (hWidth : width ≤ wid) (other : Bool) : Fits (signed && other) wid n := by
  have hMono := hFits.mono hWidth
  cases signed with
  | true =>
    refine fits_of_nonneg _ hLow ?_
    unfold Fits at hMono
    rw [if_pos rfl] at hMono
    omega
  | false =>
    unfold Fits at hMono ⊢
    grind

/- A position scaled by a slice leaves room for the slice. -/
theorem fits_scaled {signed : Bool} {width bits slice : Nat} {n : Int}
    (hFits : Fits signed width n) (hWidth : 0 < width)
    (hLow : 0 ≤ n) (hPos : 0 < slice) (hHigh : (slice : Int) ≤ 2 ^ bits) :
    Fits signed (width + bits) (n * slice + (slice - 1)) := by
  rcases Nat.exists_eq_succ_of_ne_zero hWidth.ne' with ⟨half, rfl⟩
  have hPow : (2 : Int) ^ (half + 1 + bits) = 2 ^ (half + 1) * 2 ^ bits := pow_add 2 (half + 1) bits
  have hHalf : (2 : Int) ^ (half + 1) = 2 ^ half * 2 := pow_succ 2 half
  have hScaled : n * (slice : Int) + (slice - 1) =
      (n + 1) * slice - 1 := by ring
  have hProduct : 0 ≤ n * (slice : Int) := Int.mul_nonneg hLow (by omega)
  -- the number of positions, times the bits of a position
  have hMul : ∀ limit : Int, n + 1 ≤ limit →
      (n + 1) * (slice : Int) ≤ limit * 2 ^ bits := by
    intro limit hLimit
    have hFirst : (n + 1) * (slice : Int) ≤ limit * slice :=
      Int.mul_le_mul_of_nonneg_right hLimit (by omega)
    have hSecond : limit * (slice : Int) ≤ limit * 2 ^ bits :=
      Int.mul_le_mul_of_nonneg_left hHigh (by omega)
    exact Int.le_trans hFirst hSecond
  unfold Fits at hFits ⊢
  rw [hPow, hHalf]
  split_ifs at hFits ⊢
  · have hLimit := hMul (2 ^ half) (by omega)
    grind
  · have hLimit := hMul (2 ^ half * 2) (by omega)
    omega

variable {log2 : Int → Nat} {sum term : PartialSum}
  {slice next : Nat}

/- What an index adds has room for its slice. -/
theorem term_spec (hLog : Log2Covers log2) {rng : NetRange} {slice : Nat}
    {index : Index} (hLong : rng.Long) (hSlice : 0 < slice ∧ slice < 2 ^ 32)
    (hFits : Fits index.signed index.width index.value) (hIn : InRange rng index.value) :
    match index.term log2 rng slice with
    | some term =>
      term.place = rng.place index.value * slice ∧
        term.Room slice ∧
        (term.drift = 0 ↔ Faultless rng slice index.width)
    | none => ¬Faultless rng slice index.width := by
  have hNormal := normalized_spec hLong hSlice hFits hIn
  have hPlace := (place_bounds hIn).1
  have hCovers := hLog slice (by omega) (by omega)
  unfold Index.term
  cases hCase : index.normalized rng slice with
  | none =>
    rw [hCase] at hNormal
    exact hNormal
  | some result =>
    rw [hCase] at hNormal
    refine ⟨rfl, ⟨Int.mul_nonneg hPlace (by omega), ?_, ?_⟩, ?_⟩
    · unfold Index.scaled
      split_ifs with hOne
      · rw [hOne]
        have hFit := hNormal.place
        simpa using hFit
      · exact fits_scaled (hNormal.place.mono (by omega)) (by omega) hPlace hSlice.1 hCovers
    · have hValue : rng.place index.value * (slice : Int) +
          (result.value - rng.place index.value) * slice =
            result.value * slice := by ring
      rw [hValue]
      unfold Index.scaled
      split_ifs with hOne
      · rw [hOne]
        have hFit := hNormal.fits
        simpa using hFit
      · exact fits_mul (hNormal.fits.mono (by omega)) (by omega) hCovers
    · rw [← hNormal.sound]
      rw [Int.mul_eq_zero]
      omega

/- A sum keeps room for what is below the next dimension. -/
theorem PartialSum.Room.add (hSum : sum.Room slice) (hTerm : term.Room next) (hNext : 0 < next)
    (hFew : term.place + next ≤ slice) : (sum.add term).Room next := by
  have hLow := hSum.low
  have hTermLow := hTerm.low
  refine ⟨by unfold PartialSum.add; dsimp only; omega, ?_, ?_⟩
  · exact fits_below hSum.room (by dsimp only [PartialSum.add]; omega)
      (by dsimp only [PartialSum.add]; omega) (Nat.le_max_left _ _) _
  · unfold PartialSum.add
    rw [add_sub_cancel]
    exact cutTo_fits _ _ _

/- The drift of a sum is what its width does not cut off. -/
theorem PartialSum.drift_add_iff (hRoom : (sum.add term).Room next) (hNext : 0 < next) :
    (sum.add term).drift = 0 ↔
      (2 : Int) ^ max sum.width term.width ∣ sum.drift + term.drift := by
  have hLow := hRoom.low
  have hFits : Fits (sum.signed && term.signed)
      (max sum.width term.width) (sum.place + term.place) := by
    have hBelow := fits_below hRoom.room hLow (by omega) (Nat.le_refl _) true
    rw [Bool.and_true] at hBelow
    exact hBelow
  have hCut := cutTo_eq_self_iff (n := sum.place + term.place + (sum.drift + term.drift)) hFits
  rw [add_sub_cancel_left] at hCut
  unfold PartialSum.add
  dsimp only
  omega

/- A drift is less than the width can tell. -/
theorem PartialSum.Room.drift_bounds (h : sum.Room slice) (hSlice : 0 < slice) :
    -2 ^ sum.width < sum.drift ∧ sum.drift < 2 ^ sum.width := by
  have hLow := h.low
  have hRoom := h.room
  have hShown := h.shown
  unfold Fits at hRoom hShown
  split_ifs at hRoom hShown <;> omega

/- A drift stays where what is added has none. -/
theorem PartialSum.drift_add_zero (hSum : sum.Room slice) (hTerm : term.Room next)
    (hNext : 0 < next) (hFew : term.place + next ≤ slice) (hZero : sum.drift = 0 ∨ term.drift = 0) :
    (sum.add term).drift = 0 ↔ sum.drift + term.drift = 0 := by
  have hTermLow := hTerm.low
  have hSumBounds := hSum.drift_bounds (by omega)
  have hTermBounds := hTerm.drift_bounds hNext
  have hLeft := two_pow_le (Nat.le_max_left sum.width term.width)
  have hRight := two_pow_le (Nat.le_max_right sum.width term.width)
  rw [PartialSum.drift_add_iff (hSum.add hTerm hNext hFew) hNext]
  constructor
  · intro hDvd
    exact Int.eq_zero_of_abs_lt_dvd hDvd (by
      rw [abs_lt]
      omega)
  · intro hNone
    rw [hNone]
    exact dvd_zero _

/- The dimensions whose index is normalized wrongly. -/
def faults : List NetRange → List Index → Nat
| rng :: dims, index :: indices =>
  (if Faultless rng (words dims) index.width then 0 else 1) + faults dims indices
| _, _ => 0

/- A known index in the range of its dimension. -/
structure Inside (rng : NetRange) (index : Index) : Prop where
  long : rng.Long
  fits : Fits index.signed index.width index.value
  inRange : InRange rng index.value

/- What a sum is, and that one fault is not made good. -/
structure SumOf (dims : List NetRange) (indices : List Index) (start : PartialSum)
    (result : PartialSum) : Prop where
  place : result.place = start.place + packedOffset dims (indices.map Index.value)
  kept : faults dims indices = 0 → (result.drift = 0 ↔ start.drift = 0)
  gained : faults dims indices = 1 → start.drift = 0 → result.drift ≠ 0

/- The sum over the rest of the dimensions. -/
theorem sumIndices_some (hLog : Log2Covers log2) {dims : List NetRange}
    {indices : List Index} (hWords : words dims < 2 ^ 32)
    (hInside : List.Forall₂ Inside dims indices) {sum : PartialSum}
    (hRoom : sum.Room (words dims)) :
    match sumIndices log2 dims indices (some sum) with
    | some result => SumOf dims indices sum result
    | none => faults dims indices ≠ 0 := by
  induction hInside generalizing sum with
  | nil =>
    refine ⟨?_, fun _ => Iff.rfl, fun h => absurd h Nat.zero_ne_one⟩
    exact (Int.add_zero _).symm
  | @cons rng index dims indices hFirst hRest ih =>
    have hLe := words_le rng dims
    have hPos := words_pos dims
    have hTerm := @term_spec _ hLog _ (words dims) _ hFirst.long
      (by omega) hFirst.fits hFirst.inRange
    have hScaled := (scaled_place_bounds hFirst.inRange dims).2
    rw [sumIndices]
    cases hCase : index.term log2 rng (words dims) with
    | none =>
      rw [hCase] at hTerm
      rw [Option.bind_none]
      unfold faults
      rw [if_neg hTerm]
      omega
    | some term =>
      rw [hCase] at hTerm
      rcases hTerm with ⟨hPlace, hTermRoom, hSound⟩
      rw [← hPlace] at hScaled
      have hTail := ih (by omega) (hRoom.add hTermRoom hPos hScaled)
      have hDrift := PartialSum.drift_add_zero hRoom hTermRoom hPos hScaled
      rw [Option.bind_some]
      have hFaults : faults (rng :: dims) (index :: indices) =
          (if term.drift = 0 then 0 else 1) + faults dims indices := by
        rw [faults]
        simp only [hSound]
      cases hResult : sumIndices log2 dims indices (some (sum.add term)) with
      | none =>
        rw [hResult] at hTail
        omega
      | some result =>
        rw [hResult] at hTail
        have hAll : SumOf dims indices (sum.add term) result := hTail
        refine ⟨?_, fun hNone => ?_, fun hOne hStart => ?_⟩
        · rw [hAll.place, List.map_cons, packedOffset, ← hPlace]
          change sum.place + term.place + _ = _
          ring
        · rw [hFaults] at hNone
          have hTermZero : term.drift = 0 := by grind
          rw [hAll.kept (by omega), hDrift (Or.inr hTermZero), hTermZero, Int.add_zero]
        · rw [hFaults] at hOne
          have hSum := hDrift (Or.inl hStart)
          rw [hStart, Int.zero_add] at hSum
          by_cases hTermZero : term.drift = 0
          · rw [if_pos hTermZero, Nat.zero_add] at hOne
            exact hAll.gained hOne (hSum.mpr hTermZero)
          · rw [if_neg hTermZero] at hOne
            rw [Ne, hAll.kept (by omega), hSum]
            exact hTermZero

/- The sum over all dimensions. -/
theorem sumIndices_spec (hLog : Log2Covers log2) {dims : List NetRange}
    {indices : List Index} (hSome : dims ≠ []) (hWords : words dims < 2 ^ 32)
    (hInside : List.Forall₂ Inside dims indices) :
    match sumIndices log2 dims indices none with
    | some result =>
      result.place = packedOffset dims (indices.map Index.value) ∧
      (faults dims indices = 0 → result.drift = 0) ∧
      (faults dims indices = 1 → result.drift ≠ 0)
    | none => faults dims indices ≠ 0 := by
  cases hInside with
  | nil => exact absurd rfl hSome
  | @cons rng index dims indices hFirst hRest =>
    have hLe := words_le rng dims
    have hPos := words_pos dims
    have hTerm := @term_spec _ hLog _ (words dims) _ hFirst.long
      (by omega) hFirst.fits hFirst.inRange
    rw [sumIndices]
    cases hCase : index.term log2 rng (words dims) with
    | none =>
      rw [hCase] at hTerm
      rw [Option.bind_none]
      unfold faults
      rw [if_neg hTerm]
      omega
    | some term =>
      rw [hCase] at hTerm
      rcases hTerm with ⟨hPlace, hTermRoom, hSound⟩
      have hTail := sumIndices_some hLog (by omega) hRest hTermRoom
      have hFaults : faults (rng :: dims) (index :: indices) =
          (if term.drift = 0 then 0 else 1) + faults dims indices := by
        rw [faults]
        simp only [hSound]
      rw [Option.bind_some]
      cases hResult : sumIndices log2 dims indices (some term) with
      | none =>
        rw [hResult] at hTail
        omega
      | some result =>
        rw [hResult] at hTail
        have hAll : SumOf dims indices term result := hTail
        refine ⟨?_, fun hNone => ?_, fun hOne => ?_⟩
        · rw [hAll.place, List.map_cons, packedOffset, ← hPlace]
        · rw [hFaults] at hNone
          have hTermZero : term.drift = 0 := by grind
          exact (hAll.kept (by omega)).mpr hTermZero
        · rw [hFaults] at hOne
          by_cases hTermZero : term.drift = 0
          · rw [if_pos hTermZero, Nat.zero_add] at hOne
            exact hAll.gained hOne hTermZero
          · rw [if_neg hTermZero] at hOne
            rw [Ne, hAll.kept (by omega)]
            exact hTermZero

end EpicSim

----
-- The Collapsed Index
----

namespace EpicSim

open TwosComplement NetExpr

/- The built index is the offset that `sb_to_idx` gives. -/
def CollapsesRight (log2 : Int → Nat) (env : Env) (dims : List NetRange)
    (exprs : List NetExpr) : Prop :=
  ∃ e, collapseArrayExprs log2 dims exprs = some e ∧
    (e.eval env).Defined ∧
    sbToIdx dims (exprs.map (denotes env)).dropLast ((exprs.map (denotes env)).getLastD 0) =
      some (e.denotes env)

/- The first index is a position, where it is all there is; or
   the faults of the dimensions cancel. -/
def Settles (log2 : Int → Nat) (env : Env) (dims : List NetRange) (exprs : List NetExpr) : Prop :=
  if words dims.tail = 1 then
    ∀ rng ∈ dims.head?, ∀ e ∈ exprs.head?, rng.place (e.denotes env) = e.denotes env
  else
    ∃ sum, sumIndices log2 dims (exprs.map (Index.of env)) none = some sum ∧ sum.drift = 0

/- The indices of an array, with what they stand for. -/
theorem inside_of_allInRange {env : Env} {dims : List NetRange} {exprs : List NetExpr}
    (hLong : ∀ rng ∈ dims, rng.Long) (hIn : AllInRange env dims exprs) :
    List.Forall₂ Inside dims (exprs.map (Index.of env)) ∧
      List.Forall₂ InRange dims (exprs.map (denotes env)) ∧
      ∀ e ∈ exprs, (e.eval env).Defined := by
  induction hIn with
  | nil => exact ⟨List.Forall₂.nil, List.Forall₂.nil, fun e hMem => nomatch hMem⟩
  | @cons rng e dims exprs hFirst hRest ih =>
    rcases ih (fun r hMem => hLong r (List.mem_cons_of_mem _ hMem))
      with ⟨hInside, hRanges, hDefined⟩
    refine ⟨List.Forall₂.cons ⟨hLong rng List.mem_cons_self,
      denotes_fits env e, hFirst.2⟩ hInside,
      List.Forall₂.cons hFirst.2 hRanges, fun other hMem => ?_⟩
    grind

/- Over slices of one bit, the first index is the offset. -/
theorem packedOffset_of_bits {rng : NetRange} {dims : List NetRange} {n : Int}
    {ns : List Int} (hIn : List.Forall₂ InRange dims ns) (hOne : words dims = 1) :
    packedOffset (rng :: dims) (n :: ns) = rng.place n := by
  have hBounds := packedOffset_bounds hIn
  rw [packedOffset, hOne]
  push_cast at hBounds ⊢
  omega

/- A collapsed list of indices is right when its sum settles:
   always without a faulty dimension, never with exactly one. -/
theorem collapse_array_exact {log2 : Int → Nat} (hLog : Log2Covers log2) {env : Env}
    {dims : List NetRange} {exprs : List NetExpr}
    (hSome : dims ≠ []) (hLong : ∀ rng ∈ dims, rng.Long)
    (hWords : words dims < 2 ^ 32) (hSized : ∀ e ∈ exprs, e.Sized)
    (hIn : AllInRange env dims exprs) :
    (CollapsesRight log2 env dims exprs ↔ Settles log2 env dims exprs) ∧
    (words dims.tail ≠ 1 →
      (faults dims (exprs.map (Index.of env)) = 0 → Settles log2 env dims exprs) ∧
      (faults dims (exprs.map (Index.of env)) = 1 →
        ¬Settles log2 env dims exprs)) := by
  have hValues : (exprs.map (Index.of env)).map Index.value = exprs.map (denotes env) := by
    rw [List.map_map]
    rfl
  rcases inside_of_allInRange hLong hIn with ⟨hInside, hRanges, hDefined⟩
  have hTail : sliceWidth dims 1 = words dims.tail := by
    rw [sliceWidth_eq hWords (List.length_pos_iff.mpr hSome), List.drop_one]
  have hIdx := sbToIdx_eq hRanges hSome hWords
  unfold CollapsesRight Settles collapseArrayExprs
  rw [hTail, hIdx]
  by_cases hOne : words dims.tail = 1
  · -- the first index is returned as it is
    rw [if_pos hOne, if_pos hOne]
    refine ⟨?_, fun hNot => absurd hOne hNot⟩
    cases hIn with
    | nil => exact absurd rfl hSome
    | @cons rng e dims exprs hFirst hRest =>
      cases hRanges with
      | cons _ hRest =>
        have hOffset := @packedOffset_of_bits rng _ (e.denotes env) _ hRest hOne
        have hFirstDefined := hFirst.1
        rw [List.map_cons, hOffset]
        simp [hFirstDefined]
  · rw [if_neg hOne, if_neg hOne]
    have hSpec := sumIndices_spec hLog hSome hWords hInside
    have hLoop := collapseLoop_spec hLog hWords
      (List.drop_zero (l := dims)) hLong
      (fun e hMem => ⟨hSized e hMem, hDefined e hMem⟩)
      Option.Rel.none
    rw [hValues] at hSpec
    generalize collapseLoop log2 dims 0 dims exprs none = built at hLoop ⊢
    generalize sumIndices log2 dims (exprs.map (Index.of env)) none = sums at hLoop hSpec ⊢
    cases hLoop with
    | none =>
      refine ⟨⟨fun ⟨_, h, _⟩ => (nomatch h),
        fun ⟨_, h, _⟩ => (nomatch h)⟩, fun _ =>
        ⟨fun hNone => absurd hNone hSpec, fun _ ⟨_, h, _⟩ => (nomatch h)⟩⟩
    | @some e sum hKnown =>
      rcases hSpec with ⟨hPlace, hKept, hGained⟩
      have hDenotes := hKnown.denotes
      have hWhole := hKnown.defined
      simp only [Option.some.injEq, exists_eq_left', hWhole, true_and]
      exact ⟨by omega, fun _ => ⟨hKept, hGained⟩⟩

theorem log2Covers_ceilLog2 : Log2Covers ceilLog2 := by
  intro val hLow hHigh
  have hBound := @bitLoop_bound 64 (val - 1).toNat (by omega)
  have hCast := cast_two_pow (bitLoop 64 (val - 1).toNat)
  unfold ceilLog2
  omega

/- Two words of four bits, the last one ascending. -/
theorem collapse_array_exact_words :
    CollapsesRight ceilLog2 (fun _ _ => .v1) [⟨1, 0⟩, ⟨0, 3⟩]
      [indexSignal "i" 1 false, indexSignal "j" 2 false] := by
  rcases @collapse_array_exact _ log2Covers_ceilLog2 (fun _ _ => .v1)
      [⟨1, 0⟩, ⟨0, 3⟩] [indexSignal "i" 1 false, indexSignal "j" 2 false] (by decide)
      (fun rng hMem => by
        simp only [List.mem_cons, List.not_mem_nil, or_false] at hMem
        rcases hMem with rfl | rfl <;>
          exact ⟨by decide, by decide⟩)
      (by decide)
      (fun e hMem => by
        simp only [List.mem_cons, List.not_mem_nil, or_false] at hMem
        rcases hMem with rfl | rfl <;> trivial)
      (by decide) with ⟨hRight, hFaults⟩
  exact hRight.mpr ((hFaults (by decide)).1 (by decide))

/- One word of four bits: its first bit is sought at 116; and
   one bit in each of four words, counted from 4. -/
theorem single_element_misplaced :
    ¬CollapsesRight ceilLog2 (fun _ _ => .v0) [⟨0, 0⟩, ⟨3, 0⟩]
        [indexSignal "i" 1 false, indexSignal "j" 2 false] ∧
    ¬CollapsesRight ceilLog2 (fun _ idx => .ofBool (idx == 2))
        [⟨7, 4⟩, ⟨0, 0⟩]
        [indexSignal "i" 3 false, indexSignal "j" 1 false] := by
  constructor
  · rintro ⟨e, hBuilt, -, hIdx⟩
    have hValue : (collapseArrayExprs ceilLog2 [⟨0, 0⟩, ⟨3, 0⟩]
        [indexSignal "i" 1 false, indexSignal "j" 2 false]).map
          (denotes fun _ _ => .v0) = some 116 := by decide
    have hCanonical : sbToIdx [⟨0, 0⟩, ⟨3, 0⟩] [0] 0 = some 0 := by decide
    rw [hBuilt, Option.map_some] at hValue
    rw [hValue] at hIdx
    exact absurd (hCanonical.symm.trans hIdx) (by decide)
  · rintro ⟨e, hBuilt, -, hIdx⟩
    have hValue : (collapseArrayExprs ceilLog2 [⟨7, 4⟩, ⟨0, 0⟩]
        [indexSignal "i" 3 false, indexSignal "j" 1 false]).map
          (denotes fun _ idx => .ofBool (idx == 2)) =
            some 4 := by decide
    have hCanonical : sbToIdx [⟨7, 4⟩, ⟨0, 0⟩] [4] 0 = some 0 := by decide
    rw [hBuilt, Option.map_some] at hValue
    rw [hValue] at hIdx
    exact absurd (hCanonical.symm.trans hIdx) (by decide)

end EpicSim
