import EpicSim.Ivl.SliceBase

/-
  When the base of a variable slice is the right offset.

  The width is grown to the size of a bound only where the
  bound fits, or is its own number of bits.  Then the position
  is right where the subtraction fits the width, and the sum
  where a signed one has room.
-/

----
-- Constant Slices
----

namespace EpicSim

variable {dims : List NetRange} {pcur : NetRange}

/- The width of a slice is what the indices leave. -/
theorem foldl_width (hWords : words dims < 2 ^ 32) :
    dims.reverse.foldl (fun acc_wid pcur => acc_wid * pcur.width % 2 ^ 64) 1 = words dims := by
  induction dims with
  | nil => rfl
  | cons rng dims ih =>
    have hLe := (words_le rng dims).1
    rw [List.reverse_cons, List.foldl_append, ih (by omega),
      List.foldl_cons, Nat.mul_comm]
    exact Nat.mod_eq_of_lt (by rw [words] at hWords; omega)

theorem prefixLoop_range {indices : List Int} {acc_wid : Nat} {acc_off loff : Int}
    (hAcc : -2 ^ 63 ≤ acc_off ∧ acc_off < 2 ^ 63)
    (h : prefixLoop pcur dims indices acc_wid acc_off = some loff) :
    -2 ^ 63 ≤ loff ∧ loff < 2 ^ 63 := by
  induction dims generalizing pcur indices acc_wid acc_off with
  | nil =>
    cases indices with
    | nil =>
      rw [prefixLoop, Option.some.injEq] at h
      rw [← h]
      exact hAcc
    | cons icur indices =>
      cases h
  | cons next dims ih =>
    cases indices with
    | nil =>
      rw [prefixLoop, Option.some.injEq] at h
      rw [← h]
      exact hAcc
    | cons icur indices =>
      rw [prefixLoop] at h
      cases hPos : next.position icur with
      | none =>
        rw [hPos] at h
        cases h
      | some tmp_off =>
        rw [hPos] at h
        exact ih (toLong_range _) h

theorem prefixToSlice_range (hWords : words dims < 2 ^ 32) {indices : List Int}
    {sb loff : Int} {lwid : Nat} (h : prefixToSlice dims indices sb = some (loff, lwid)) :
    (-2 ^ 63 ≤ loff ∧ loff < 2 ^ 63) ∧
      lwid = words (dims.drop (indices.length + 1)) := by
  unfold prefixToSlice at h
  rw [foldl_width (Nat.lt_of_le_of_lt (words_drop_le dims _) hWords)] at h
  cases hDims : (dims.take (indices.length + 1)).reverse with
  | nil =>
    rw [hDims] at h
    cases h
  | cons pcur outer =>
    rw [hDims] at h
    dsimp only at h
    split_ifs at h
    simp only [Option.bind_eq_bind, Option.bind_eq_some_iff, Option.some.injEq, Prod.mk.injEq] at h
    rcases h with ⟨tmp_off, -, off, hLoop, hOff, hWid⟩
    rw [← hOff]
    exact ⟨prefixLoop_range (toLong_range _) hLoop, hWid.symm⟩

theorem toLong_natCast {n : Nat} (h : n < 2 ^ 62) : toLong (n : Int) = n :=
  toLong_self (by omega) (by omega)

/- The walk over a prefix inside its dimensions. -/
theorem prefixLoop_eq {indices : List Int} (hIn : List.Forall₂ InRange dims indices)
    {acc_wid acc_off : Nat} (hAcc : acc_off < acc_wid * pcur.width)
    (hWords : words dims.reverse * (acc_wid * pcur.width) < 2 ^ 62) :
    prefixLoop pcur dims indices acc_wid acc_off =
      some (packedOffset dims.reverse indices.reverse *
        (acc_wid * pcur.width : Nat) + acc_off) := by
  induction hIn generalizing pcur acc_wid acc_off with
  | nil =>
    change some (acc_off : Int) = some (0 * ((acc_wid * pcur.width : Nat) : Int) + acc_off)
    rw [Int.zero_mul, Int.zero_add]
  | @cons next n dims ns hFirst hRest ih =>
    rcases place_bounds hFirst with ⟨hLow, hHigh⟩
    rcases Int.eq_ofNat_of_zero_le hLow with ⟨place, hPlace⟩
    rw [List.reverse_cons, words_concat, Nat.mul_assoc] at hWords
    generalize hWid : acc_wid * pcur.width = wid at *
    have hStep : next.width * wid ≤ words dims.reverse * (next.width * wid) :=
      Nat.le_mul_of_pos_left _ (words_pos _)
    have hOne : next.width * 1 ≤ next.width * wid := Nat.mul_le_mul_left _ (by omega)
    have hPlaced : place + 1 ≤ next.width := by omega
    have hTerm : (place + 1) * wid ≤ next.width * wid := Nat.mul_le_mul_right _ hPlaced
    rw [Nat.add_mul, Nat.one_mul] at hTerm
    have hMod : wid % 2 ^ 64 = wid := Nat.mod_eq_of_lt (by omega)
    have hSum : toLong ((acc_off : Int) + (place : Int) * wid) =
        ((acc_off + place * wid : Nat) : Int) := by
      have hSmall : acc_off + place * wid < 2 ^ 62 := by omega
      exact toLong_natCast hSmall
    have hNext : acc_off + place * wid < wid * next.width := by grind
    have hLoop := @ih next wid (acc_off + place * wid) hNext
      (by rw [Nat.mul_comm wid]; exact hWords)
    rw [prefixLoop, position_eq hFirst (by omega), hPlace, hWid, Option.bind_eq_bind,
      Option.bind_some, hMod, hSum, hLoop, List.reverse_cons, List.reverse_cons,
      packedOffset_concat (by rw [List.length_reverse, List.length_reverse, hRest.length_eq]),
      hPlace]
    refine congrArg some ?_
    push_cast
    ring

theorem words_split {n : Nat} (hCur : dims[n]? = some pcur) :
    words dims = words (dims.take n) * (pcur.width * words (dims.drop (n + 1))) := by
  rcases List.getElem?_eq_some_iff.mp hCur with ⟨hLt, hEq⟩
  have hDrop : dims.drop n = pcur :: dims.drop (n + 1) := by rw [List.drop_eq_getElem_cons hLt, hEq]
  have hAll := words_append (dims.take n) (dims.drop n)
  rw [List.take_append_drop, hDrop] at hAll
  exact hAll

/- A slice whose prefix is inside its dimensions. -/
theorem prefixToSlice_eq (hWords : words dims < 2 ^ 32) {indices : List Int}
    {pcur : NetRange} (hCur : dims[indices.length]? = some pcur)
    (hIn : List.Forall₂ InRange (dims.take indices.length) indices) {sb : Int}
    (hSb : InRange pcur sb) :
    prefixToSlice dims indices sb =
      some ((packedOffset (dims.take indices.length) indices *
          pcur.width + pcur.place sb) * words (dims.drop (indices.length + 1)),
        words (dims.drop (indices.length + 1))) := by
  have hFold := @foldl_width (dims.drop (indices.length + 1))
    (Nat.lt_of_le_of_lt (words_drop_le dims _) hWords)
  have hTake : (dims.take (indices.length + 1)).reverse =
      pcur :: (dims.take indices.length).reverse := by
    rw [List.take_add_one, hCur]
    simp
  have hSplit := words_split hCur
  rcases place_bounds hSb with ⟨hLow, hHigh⟩
  rcases Int.eq_ofNat_of_zero_le hLow with ⟨place, hPlace⟩
  have hPos := words_pos (dims.drop (indices.length + 1))
  generalize words (dims.drop (indices.length + 1)) = lwid at *
  have hDim : 1 * (pcur.width * lwid) ≤ words (dims.take indices.length) * (pcur.width * lwid) :=
    Nat.mul_le_mul_right _ (words_pos _)
  have hWidth : pcur.width * 1 ≤ pcur.width * lwid := Nat.mul_le_mul_left _ hPos
  have hPlaced : (place + 1) * lwid ≤ pcur.width * lwid := Nat.mul_le_mul_right _ (by omega)
  rw [Nat.add_mul] at hPlaced
  have hOff : toLong ((place : Int) * lwid) = ((place * lwid : Nat) : Int) := by
    have hSmall : place * lwid < 2 ^ 62 := by omega
    exact toLong_natCast hSmall
  have hFew : place * lwid < lwid * pcur.width := by
    rw [Nat.mul_comm lwid]
    omega
  have hLoop := @prefixLoop_eq _ pcur _
    (List.forall₂_reverse_iff.mpr hIn) _ _ hFew
    (by rw [List.reverse_reverse, Nat.mul_comm lwid]; omega)
  rw [List.reverse_reverse, List.reverse_reverse] at hLoop
  unfold InRange at hSb
  unfold prefixToSlice
  rw [hFold, hTake]
  dsimp only
  rw [if_neg (by omega), if_neg (by omega), position_eq hSb (by omega), hPlace,
    Option.bind_eq_bind, Option.bind_some, hOff, hLoop]
  refine congrArg some ?_
  rw [Prod.mk.injEq]
  refine ⟨?_, rfl⟩
  push_cast
  ring

end EpicSim

----
-- The Exact Condition
----

namespace EpicSim

open TwosComplement NetExpr

/- The width of the sum that a slice needs. -/
def sliceWidthOf (log2 : Int → Nat) (pcur : NetRange) (base : NetExpr) (lwid : Nat)
    (loff : Int) : Nat :=
  sumWidth (sizedWidth pcur base.exprWidth base.hasSign + log2 lwid) loff

/- The sum before it is cut to that width. -/
def sliceSum (env : Env) (pcur : NetRange) (base : NetExpr) (lwid : Nat) (loff : Int) : Int :=
  reachedOffset pcur (foundPlace pcur base.exprWidth base.hasSign (base.denotes env)) loff lwid

/-
  The base is padded to the sizes of the bounds; it is the
  offset of the slice, or no bit of the slice is in the
  dimension that is addressed.
-/
def SliceRight (log2 : Int → Nat) (env : Env) (dims : List NetRange)
    (indices : List Int) (base : NetExpr) (pcur : NetRange) : Prop :=
  SizesAsked pcur base.exprWidth base.hasSign ∧
  ∃ e lwid, normalizeVariableSliceBase log2 dims indices base = some (e, lwid) ∧
    (e.eval env).Defined ∧
    if InRange pcur (base.denotes env) then
      prefixToSlice dims indices (base.denotes env) = some (e.denotes env, lwid)
    else
      ∀ low, prefixToSlice dims indices pcur.lsb = some (low, lwid) →
        e.denotes env + lwid ≤ low ∨ low + pcur.width * lwid ≤ e.denotes env

/-
  The bounds are harmless, no `long` overflows, and an index in
  range has an offset that fits and that the sum agrees with; no
  offset in the dimension agrees with the sum of another index.
-/
def SliceExact (log2 : Int → Nat) (env : Env) (dims : List NetRange)
    (indices : List Int) (base : NetExpr) (pcur : NetRange) : Prop :=
  Harmless (signedWidth pcur base.exprWidth base.hasSign) pcur.lsb ∧
  Harmless (max (signedWidth pcur base.exprWidth base.hasSign) (bitsFor pcur.lsb)) pcur.msb ∧
  ∃ loff lwid, prefixToSlice dims indices (min pcur.lsb pcur.msb) = some (loff, lwid) ∧
    loff ≠ -2 ^ 63 ∧
    if InRange pcur (base.denotes env) then
      ∃ off, prefixToSlice dims indices (base.denotes env) = some (off, lwid) ∧
        Fits (sliceSigned pcur base.hasSign) (sliceWidthOf log2 pcur base lwid loff) off ∧
        2 ^ sliceWidthOf log2 pcur base lwid loff ∣ sliceSum env pcur base lwid loff - off
    else
      ∀ low off, prefixToSlice dims indices pcur.lsb = some (low, lwid) →
        low - lwid < off → off < low + pcur.width * lwid →
        Fits (sliceSigned pcur base.hasSign) (sliceWidthOf log2 pcur base lwid loff) off →
        ¬2 ^ sliceWidthOf log2 pcur base lwid loff ∣ sliceSum env pcur base lwid loff - off

/- A base without an offset, or one that overflows. -/
theorem normalizeVariableSliceBase_none
    {log2 : Int → Nat} {dims : List NetRange} {indices : List Int}
    {base : NetExpr} {pcur : NetRange} (hCur : dims[indices.length]? = some pcur)
    (hNone : ∀ loff lwid, prefixToSlice dims indices
      (min pcur.lsb pcur.msb) = some (loff, lwid) → loff = -2 ^ 63) :
    normalizeVariableSliceBase log2 dims indices base = none := by
  unfold normalizeVariableSliceBase
  simp only [hCur, Option.bind_eq_bind, Option.bind_some]
  cases hSlice : prefixToSlice dims indices (min pcur.lsb pcur.msb) with
  | none => rfl
  | some slice =>
    have hLoff := hNone slice.1 slice.2 hSlice
    cases askedWidth pcur base.exprWidth base.hasSign with
    | none => rfl
    | some min_wid =>
      have hRoom : ∀ e : NetExpr, e.roomFor slice.1 = none := by
        intro e
        unfold NetExpr.roomFor
        rw [hLoff, numBits_least, Option.map_none]
      simp only [Option.bind_some, hRoom, Option.bind_none, ite_self]

theorem sliceRight_iff {log2 : Int → Nat} (hLog : Log2Covers log2) {env : Env}
    {dims : List NetRange} {indices : List Int} {base : NetExpr}
    {pcur : NetRange} (hCur : dims[indices.length]? = some pcur)
    (hLong : pcur.Long) (hWords : words dims < 2 ^ 32) (hSized : base.Sized)
    (hDefined : (base.eval env).Defined) :
    SliceRight log2 env dims indices base pcur ↔
      SliceExact log2 env dims indices base pcur := by
  unfold SliceRight SliceExact
  rw [sizesAsked_iff hLong, and_assoc]
  refine and_congr_right fun hLsb => and_congr_right fun hMsb => ?_
  have hAsked := (sizesAsked_iff hLong base.exprWidth base.hasSign).mpr ⟨hLsb, hMsb⟩
  by_cases hSlice : ∃ loff lwid, prefixToSlice dims indices
      (min pcur.lsb pcur.msb) = some (loff, lwid) ∧ loff ≠ -2 ^ 63
  · rcases hSlice with ⟨loff, lwid, hSlice, hLeast⟩
    rcases prefixToSlice_range hWords hSlice with ⟨hRange, hWid⟩
    have hPos := words_pos (dims.drop (indices.length + 1))
    have hDrop := words_drop_le dims (indices.length + 1)
    rcases known_normalizeVariableSliceBase hLog
      (known_self hSized hDefined) hCur hSlice (by omega)
      (by omega) hAsked with ⟨e, hBuilt, hKnown⟩
    have hValue : e.denotes env =
        cutTo (sliceSigned pcur base.hasSign)
          (sliceWidthOf log2 pcur base lwid loff)
          (sliceSum env pcur base lwid loff) := hKnown.denotes
    have hFits := cutTo_fits (sliceSigned pcur base.hasSign)
      (sliceWidthOf log2 pcur base lwid loff)
      (sliceSum env pcur base lwid loff)
    have hDvd := (cutTo_eq_self_iff hFits).mp rfl
    rw [← hValue] at hFits hDvd
    constructor
    · rintro ⟨e', lwid', hResult, -, hPlaced⟩
      rw [hBuilt] at hResult
      cases hResult
      refine ⟨loff, lwid, hSlice, hLeast, ?_⟩
      split_ifs at hPlaced ⊢ with hIn
      · exact ⟨e.denotes env, hPlaced, hFits, hDvd⟩
      · intro low off hLow hAbove hBelow hOff hSame
        rw [(cutTo_eq_self_iff hOff).mpr hSame] at hValue
        rcases hPlaced low hLow with hUnder | hOver <;> omega
    · rintro ⟨loff', lwid', hOther, -, hPlaced⟩
      rw [hSlice] at hOther
      cases hOther
      refine ⟨e, lwid, hBuilt, hKnown.defined, ?_⟩
      split_ifs at hPlaced ⊢ with hIn
      · rcases hPlaced with ⟨off, hOff, hOffFits, hSame⟩
        rw [hValue, (cutTo_eq_self_iff hOffFits).mpr hSame]
        exact hOff
      · grind
  · have hNone := @normalizeVariableSliceBase_none log2 _ _ base _ hCur (fun loff lwid h => by
        by_contra hNot
        exact hSlice ⟨loff, lwid, h, hNot⟩)
    rw [hNone]
    constructor
    · rintro ⟨e, lwid, h, -⟩
      cases h
    · rintro ⟨loff, lwid, h, hNot, -⟩
      exact absurd ⟨loff, lwid, h, hNot⟩ hSlice

end EpicSim

----
-- Sums At A Width
----

namespace EpicSim

open TwosComplement NetExpr

/- A small multiple of a width. -/
theorem dvd_small {m n : Int} (h : m ∣ n) (hLow : -(2 * m) < n) (hHigh : n < 2 * m) :
    n = -m ∨ n = 0 ∨ n = m := by
  rcases h with ⟨k, rfl⟩
  have hPos : 0 < m := by omega
  have hLowK : -2 < k := by
    by_contra hNot
    have hMul := Int.mul_le_mul_of_nonneg_left (show k ≤ -2 by omega) (Int.le_of_lt hPos)
    omega
  have hHighK : k < 2 := by
    by_contra hNot
    have hMul := Int.mul_le_mul_of_nonneg_left (show 2 ≤ k by omega) (Int.le_of_lt hPos)
    omega
  have hCases : k = -1 ∨ k = 0 ∨ k = 1 := by omega
  rcases hCases with rfl | rfl | rfl <;> omega

/- A scaled position, an offset and the room for their sum. -/
structure Scaled (signed : Bool) (room full scaled loff lwid : Int) : Prop where
  pos : 0 < lwid
  start : loff = 0 ∧ full = room ∨ 0 < loff ∧ 2 * room ≤ full ∧ 2 * loff < full
  fits : if signed then -room ≤ 2 * scaled ∧ 2 * scaled < room
    else 0 ≤ scaled ∧ scaled + lwid ≤ room

variable {signed : Bool} {width : Nat}
variable {room scaled loff lwid low size : Int}

section

variable (h : Scaled signed room (2 ^ width) scaled loff lwid)

include h

/- The offset of an index that is in a descending range. -/
theorem exact_descending {place : Int}
    (hPlace : 0 ≤ place ∧ place < room) :
    (Fits signed width (loff + place) ∧ (2 : Int) ^ width ∣ scaled + loff - (loff + place)) ↔
      scaled = place ∧
        ¬(signed = true ∧ (2 : Int) ^ width ≤ 2 * (scaled + loff)) := by
  have hLwid := h.pos
  have hLoff := h.start
  have hScaled := h.fits
  unfold Fits
  cases signed with
  | true =>
    simp only [if_true, true_and] at hScaled ⊢
    constructor
    · rintro ⟨hFits, hDvd⟩
      have hCases := dvd_small hDvd (by omega) (by omega)
      omega
    · rintro ⟨rfl, hFew⟩
      refine ⟨by omega, ?_⟩
      rw [show scaled + loff - (loff + scaled) = 0 by omega]
      exact dvd_zero _
  | false =>
    simp only [Bool.false_eq_true, if_false, false_and, not_false_eq_true, and_true] at hScaled ⊢
    constructor
    · rintro ⟨hFits, hDvd⟩
      have hCases := dvd_small hDvd (by omega) (by omega)
      omega
    · rintro rfl
      refine ⟨by omega, ?_⟩
      rw [show scaled + loff - (loff + scaled) = 0 by omega]
      exact dvd_zero _

/- The offset of an index that is in an ascending range. -/
theorem exact_ascending
    (hSome : 0 < loff) {place : Int} (hPlace : 0 ≤ place ∧ place < room ∧ place ≤ loff) :
    (Fits signed width (loff - place) ∧ (2 : Int) ^ width ∣ loff - scaled - (loff - place)) ↔
      scaled = place := by
  have hLwid := h.pos
  have hLoff := h.start
  have hScaled := h.fits
  constructor
  · rintro ⟨-, hDvd⟩
    have hCases := dvd_small hDvd (by split_ifs at hScaled <;> omega)
      (by split_ifs at hScaled <;> omega)
    split_ifs at hScaled <;> omega
  · rintro rfl
    refine ⟨fits_of_nonneg _ (by omega) (by omega), ?_⟩
    rw [Int.sub_self]
    exact dvd_zero _

/- An index that is out of a descending range. -/
theorem outside_descending (hFew : 2 * lwid ≤ room) (hLow : 0 ≤ loff)
    (hSplit : (0 ≤ scaled ∧ scaled + lwid ≤ size) ∨ scaled ≤ -lwid ∨ size ≤ scaled) :
    (∀ off, loff - lwid < off → off < loff + size →
      Fits signed width off →
      ¬(2 : Int) ^ width ∣ scaled + loff - off) ↔
    (0 ≤ scaled → scaled + lwid ≤ size →
      signed = true ∧ (2 : Int) ^ width ≤ 2 * (scaled + loff)) := by
  have hLwid := h.pos
  have hLoff := h.start
  have hScaled := h.fits
  constructor
  · intro hNone hNonneg hBelow
    by_contra hNot
    refine hNone (scaled + loff) (by omega) (by omega) ?_ (by
      rw [Int.sub_self]
      exact dvd_zero _)
    unfold Fits
    grind
  · intro hOver off hAbove hBelow hFits hDvd
    unfold Fits at hFits
    have hCases := dvd_small hDvd
      (by split_ifs at hScaled hFits <;> omega)
      (by split_ifs at hScaled hFits <;> omega)
    grind

/- An index that is out of an ascending range. -/
theorem outside_ascending
    (hFew : 2 * lwid ≤ room) (hSome : 0 < loff) (hLow : 0 ≤ low) (hTop : loff = low + size - lwid)
    (hSplit : (0 ≤ scaled ∧ scaled + lwid ≤ size) ∨ scaled ≤ -lwid ∨ size ≤ scaled) :
    (∀ off, low - lwid < off → off < low + size →
      Fits signed width off →
      ¬(2 : Int) ^ width ∣ loff - scaled - off) ↔
    ¬(0 ≤ scaled ∧ scaled + lwid ≤ size) := by
  have hLwid := h.pos
  have hLoff := h.start
  have hScaled := h.fits
  constructor
  · rintro hNone ⟨hNonneg, hBelow⟩
    exact hNone (loff - scaled) (by omega) (by omega)
      (fits_of_nonneg _ (by omega) (by omega)) (by
        rw [Int.sub_self]
        exact dvd_zero _)
  · intro hOut off hAbove hBelow hFits hDvd
    have hCases := dvd_small hDvd
      (by unfold Fits at hFits; split_ifs at hScaled hFits <;> omega)
      (by unfold Fits at hFits; split_ifs at hScaled hFits <;> omega)
    split_ifs at hScaled hFits <;> omega

end

end EpicSim

----
-- Slices Of A Vector
----

namespace EpicSim

open TwosComplement NetExpr

/- A signed sum needs more than its width. -/
def Overflows (log2 : Int → Nat) (env : Env) (pcur : NetRange) (base : NetExpr) (loff : Int)
    (lwid : Nat) : Prop :=
  sliceSigned pcur base.hasSign = true ∧ pcur.lsb ≤ pcur.msb ∧
    2 ^ sliceWidthOf log2 pcur base lwid loff ≤ 2 * sliceSum env pcur base lwid loff

/-
  The position of an index in range is found and its sum has
  room; another index is not taken for a position whose sum has
  room.
-/
def PlaceExact (log2 : Int → Nat) (env : Env) (pcur : NetRange) (base : NetExpr) (loff : Int)
    (lwid : Nat) : Prop :=
  let place := foundPlace pcur base.exprWidth base.hasSign
    (base.denotes env)
  if InRange pcur (base.denotes env) then
    place = base.denotes env - min pcur.lsb pcur.msb ∧ ¬Overflows log2 env pcur base loff lwid
  else
    0 ≤ place → place < pcur.width → Overflows log2 env pcur base loff lwid

variable {pcur : NetRange} {log2 : Int → Nat} {env : Env}
  {base : NetExpr} {lwid : Nat}

/- The base is below the power of the padded width. -/
theorem base_sub_lt {width : Nat} {signed : Bool} {n : Int} (hLong : pcur.Long)
    (hFits : Fits (sliceSigned pcur signed) (sizedWidth pcur width signed) n) :
    n - min pcur.lsb pcur.msb < 2 ^ sizedWidth pcur width signed := by
  have hLsb := bitsFor_bounds hLong.lsb.1 hLong.lsb.2
    (show bitsFor pcur.lsb ≤ sizedWidth pcur width signed by
      unfold sizedWidth
      omega)
  have hMsb := bitsFor_bounds hLong.msb.1 hLong.msb.2
    (show bitsFor pcur.msb ≤ sizedWidth pcur width signed by
      unfold sizedWidth
      omega)
  have hSign : sliceSigned pcur signed = true ∨
      0 ≤ min pcur.lsb pcur.msb := by
    unfold sliceSigned
    rw [Bool.or_eq_true, decide_eq_true_eq]
    omega
  unfold Fits at hFits
  split_ifs at hFits with hSigned
  · omega
  · have hNonneg := hSign.resolve_left hSigned
    omega

/- The parts of the sum of a slice. -/
theorem scaled_slice (hLog : Log2Covers log2) {signed : Bool} {width : Nat}
    {place loff : Int} {lwid : Nat} (hFits : Fits signed width place)
    (hWid : 0 < lwid ∧ lwid < 2 ^ 32) (hLoff : 0 ≤ loff ∧ loff < 2 ^ 63) :
    Scaled signed (2 ^ (width + log2 lwid))
      (2 ^ sumWidth (width + log2 lwid) loff) (place * lwid) loff
      lwid := by
  have hCovers := hLog lwid (by omega) (by omega)
  have hMul := fits_mul hFits (by omega) hCovers
  refine ⟨by omega, ?_, ?_⟩
  · unfold sumWidth
    by_cases hZero : loff = 0
    · rw [hZero, bitsFor_zero, Nat.max_zero]
      exact Or.inl ⟨rfl, rfl⟩
    · have hBits := bitsFor_bounds (by omega) hLoff.2
        (Nat.le_max_right (width + log2 lwid) (bitsFor loff))
      have hRoom := two_pow_le (Nat.le_max_left (width + log2 lwid) (bitsFor loff))
      rw [if_neg hZero]
      exact Or.inr ⟨by omega, by omega, by omega⟩
  · unfold Fits at hFits hMul
    split_ifs at hFits hMul ⊢
    · exact hMul
    · have hProduct : (2 : Int) ^ width * lwid ≤ 2 ^ width * 2 ^ log2 lwid :=
        Int.mul_le_mul_of_nonneg_left hCovers (by omega)
      have hNext : (place + 1) * (lwid : Int) ≤ 2 ^ width * lwid :=
        Int.mul_le_mul_of_nonneg_right (by omega) (by omega)
      grind

theorem fits_base (hSized : base.Sized) (hDefined : (base.eval env).Defined) :
    Fits (sliceSigned pcur base.hasSign)
      (sizedWidth pcur base.exprWidth base.hasSign)
      (base.denotes env) :=
  (known_padSigned (known_self hSized hDefined) pcur).fits

/- A dimension of more than the index 0 has a width. -/
theorem sizedWidth_pos {width : Nat} {signed : Bool} {n : Int} (hLong : pcur.Long)
    (hFits : Fits (sliceSigned pcur signed) (sizedWidth pcur width signed) n)
    (hOut : ¬InRange pcur n) : 0 < sizedWidth pcur width signed := by
  by_contra hNot
  have hZero : sizedWidth pcur width signed = 0 := by omega
  have hLsb := bitsFor_bounds hLong.lsb.1 hLong.lsb.2
    (show bitsFor pcur.lsb ≤ sizedWidth pcur width signed by
      unfold sizedWidth
      omega)
  have hMsb := bitsFor_bounds hLong.msb.1 hLong.msb.2
    (show bitsFor pcur.msb ≤ sizedWidth pcur width signed by
      unfold sizedWidth
      omega)
  rw [hZero] at hFits hLsb hMsb
  unfold InRange at hOut
  unfold Fits at hFits
  split_ifs at hFits <;> omega

/- Comparing positions by the offsets of their slices. -/
theorem scaled_cases (hWid : 0 < lwid) (place size : Int) :
    (0 ≤ place * (lwid : Int) ↔ 0 ≤ place) ∧
      (place * (lwid : Int) + lwid ≤ size * lwid ↔ place < size) ∧
      ((0 ≤ place * (lwid : Int) ∧ place * (lwid : Int) + lwid ≤ size * lwid) ∨
        place * (lwid : Int) ≤ -lwid ∨
        size * (lwid : Int) ≤ place * lwid) := by
  have hPos : (0 : Int) < lwid := by omega
  have hNext : place * (lwid : Int) + lwid =
      (place + 1) * lwid := by ring
  have hZero : (0 : Int) ≤ place * lwid ↔ 0 ≤ place :=
    ⟨fun h => Int.nonneg_of_mul_nonneg_left h hPos, fun h => Int.mul_nonneg h (Int.le_of_lt hPos)⟩
  have hLess : (place + 1) * (lwid : Int) ≤ size * lwid ↔
      place < size :=
    ⟨fun h => Int.le_of_mul_le_mul_right h hPos,
      fun h => Int.mul_le_mul_of_nonneg_right h (Int.le_of_lt hPos)⟩
  rw [hNext]
  refine ⟨hZero, hLess, ?_⟩
  rcases Int.lt_or_le place 0 with hNeg | hNonneg
  · have hMul := Int.mul_le_mul_of_nonneg_right (show place ≤ -1 by omega) (Int.le_of_lt hPos)
    rw [Int.neg_one_mul] at hMul
    exact Or.inr (Or.inl hMul)
  · rcases Int.lt_or_le place size with hIn | hOver
    · exact Or.inl ⟨hZero.mpr hNonneg, hLess.mpr hIn⟩
    · exact Or.inr (Or.inr (Int.mul_le_mul_of_nonneg_right hOver (Int.le_of_lt hPos)))

/- A position below a width, scaled by a slice. -/
theorem scaled_lt {width bits lwid : Nat} {place : Int}
    (hPlace : 0 ≤ place ∧ place < 2 ^ width) (hWid : 0 < lwid) (hCovers : (lwid : Int) ≤ 2 ^ bits) :
    0 ≤ place * (lwid : Int) ∧
      place * (lwid : Int) < 2 ^ (width + bits) := by
  have hLess := Int.mul_lt_mul_of_pos_right hPlace.2 (show (0 : Int) < lwid by omega)
  have hRoom : (2 : Int) ^ width * lwid ≤ 2 ^ width * 2 ^ bits :=
    Int.mul_le_mul_of_nonneg_left hCovers (by omega)
  rw [pow_add]
  exact ⟨Int.mul_nonneg hPlace.1 (by omega), by omega⟩

/- A position has room for a slice beside it. -/
theorem twice_lwid_le {width bits lwid : Nat} (hWidth : 0 < width)
    (hCovers : (lwid : Int) ≤ 2 ^ bits) : 2 * (lwid : Int) ≤ 2 ^ (width + bits) := by
  have hRoom := two_pow_le (show bits + 1 ≤ width + bits by omega)
  omega

/- A descending dimension: the sum grows with the index. -/
theorem descending_exact {loff : Int} (hDown : pcur.lsb ≤ pcur.msb) (hLong : pcur.Long)
    (hLoff : 0 ≤ loff) (hWid : 0 < lwid) (hCovers : (lwid : Int) ≤ 2 ^ log2 lwid)
    (hFits : Fits (sliceSigned pcur base.hasSign)
      (sizedWidth pcur base.exprWidth base.hasSign)
      (base.denotes env))
    (hScaled : Scaled (sliceSigned pcur base.hasSign)
      (2 ^ (sizedWidth pcur base.exprWidth base.hasSign + log2 lwid))
      (2 ^ sliceWidthOf log2 pcur base lwid loff)
      (foundPlace pcur base.exprWidth base.hasSign (base.denotes env) * lwid) loff lwid) :
    (if InRange pcur (base.denotes env) then
      Fits (sliceSigned pcur base.hasSign)
          (sliceWidthOf log2 pcur base lwid loff)
          (loff + (base.denotes env - pcur.lsb) * lwid) ∧
        2 ^ sliceWidthOf log2 pcur base lwid loff ∣
          sliceSum env pcur base lwid loff - (loff + (base.denotes env - pcur.lsb) * lwid)
    else
      ∀ off, loff - lwid < off → off < loff + pcur.width * lwid →
        Fits (sliceSigned pcur base.hasSign) (sliceWidthOf log2 pcur base lwid loff) off →
        ¬2 ^ sliceWidthOf log2 pcur base lwid loff ∣ sliceSum env pcur base lwid loff - off) ↔
      PlaceExact log2 env pcur base loff lwid := by
  have hMin : min pcur.lsb pcur.msb = pcur.lsb := by omega
  have hSum : sliceSum env pcur base lwid loff =
      foundPlace pcur base.exprWidth base.hasSign (base.denotes env) * lwid + loff := if_pos hDown
  unfold PlaceExact Overflows
  rw [hSum]
  generalize hPlace : foundPlace pcur base.exprWidth base.hasSign (base.denotes env) = place at *
  split_ifs with hIn
  · have hBelow := base_sub_lt hLong hFits
    have hNonneg : 0 ≤ base.denotes env - pcur.lsb := by
      unfold InRange at hIn
      omega
    rw [hMin] at hBelow
    rw [exact_descending hScaled (scaled_lt ⟨hNonneg, hBelow⟩ hWid hCovers)]
    simp [hDown, hWid.ne']
  · have hWidth := sizedWidth_pos hLong hFits hIn
    rcases scaled_cases hWid place pcur.width with ⟨hZero, hLess, hSplit⟩
    rw [outside_descending hScaled (twice_lwid_le hWidth hCovers) hLoff hSplit, hZero, hLess]
    simp [hDown]

/- An ascending dimension: the sum falls with the index. -/
theorem ascending_exact {loff low : Int} (hUp : ¬pcur.lsb ≤ pcur.msb)
    (hLong : pcur.Long) (hLow : 0 ≤ low) (hTop : loff = low + pcur.width * lwid - lwid)
    (hLoff : loff < 2 ^ 63) (hWid : 0 < lwid) (hCovers : (lwid : Int) ≤ 2 ^ log2 lwid)
    (hFits : Fits (sliceSigned pcur base.hasSign)
      (sizedWidth pcur base.exprWidth base.hasSign)
      (base.denotes env))
    (hScaled : Scaled (sliceSigned pcur base.hasSign)
      (2 ^ (sizedWidth pcur base.exprWidth base.hasSign + log2 lwid))
      (2 ^ sliceWidthOf log2 pcur base lwid loff)
      (foundPlace pcur base.exprWidth base.hasSign (base.denotes env) * lwid) loff lwid) :
    (if InRange pcur (base.denotes env) then
      Fits (sliceSigned pcur base.hasSign)
          (sliceWidthOf log2 pcur base lwid loff)
          (loff - (base.denotes env - pcur.msb) * lwid) ∧
        2 ^ sliceWidthOf log2 pcur base lwid loff ∣
          sliceSum env pcur base lwid loff - (loff - (base.denotes env - pcur.msb) * lwid)
    else
      ∀ off, low - lwid < off → off < low + pcur.width * lwid →
        Fits (sliceSigned pcur base.hasSign) (sliceWidthOf log2 pcur base lwid loff) off →
        ¬2 ^ sliceWidthOf log2 pcur base lwid loff ∣ sliceSum env pcur base lwid loff - off) ↔
      PlaceExact log2 env pcur base loff lwid := by
  have hMin : min pcur.lsb pcur.msb = pcur.msb := by omega
  have hTwo : 2 ≤ pcur.width := by
    unfold NetRange.width
    rw [if_neg hUp]
    omega
  have hDouble : 2 * (lwid : Int) ≤ pcur.width * lwid :=
    Int.mul_le_mul_of_nonneg_right (by omega) (by omega)
  have hSome : 0 < loff := by omega
  have hSum : sliceSum env pcur base lwid loff =
      loff - foundPlace pcur base.exprWidth base.hasSign (base.denotes env) * lwid := by
    unfold sliceSum reachedOffset
    rw [if_neg hUp, Int.emod_eq_of_lt (by omega) (by omega)]
  unfold PlaceExact Overflows
  rw [hSum, hMin]
  generalize hPlace : foundPlace pcur base.exprWidth base.hasSign (base.denotes env) = place at *
  split_ifs with hIn
  · have hBelow := base_sub_lt hLong hFits
    have hBetween : 0 ≤ base.denotes env - pcur.msb ∧
        base.denotes env - pcur.msb < pcur.width := by
      unfold InRange at hIn
      unfold NetRange.width
      rw [if_neg hUp]
      omega
    rw [hMin] at hBelow
    have hLess := scaled_lt ⟨hBetween.1, hBelow⟩ hWid hCovers
    have hInside := (scaled_cases hWid (base.denotes env - pcur.msb) pcur.width).2.1.mpr hBetween.2
    rw [exact_ascending hScaled hSome ⟨hLess.1, hLess.2, by omega⟩]
    simp [hUp, hWid.ne']
  · have hWidth := sizedWidth_pos hLong hFits hIn
    rcases scaled_cases hWid place pcur.width with ⟨hZero, hLess, hSplit⟩
    rw [outside_ascending hScaled (twice_lwid_le hWidth hCovers)
      hSome hLow hTop hSplit, hZero, hLess]
    simp [hUp]

/- The lowest offset of a dimension is known. -/
theorem forall_low_iff {P : Int → Int → Prop} (low : Int) (lwid : Nat) :
    (∀ low' off : Int, some (low, lwid) = some (low', lwid) → P low' off) ↔ ∀ off, P low off :=
  ⟨fun h off => h low off rfl, fun h low' off hSame => by cases hSame; exact h off⟩

/- Inside its prefix, the condition is on the position. -/
theorem sliceExact_iff (hLog : Log2Covers log2) {env : Env} {dims : List NetRange}
    {indices : List Int} {base : NetExpr} {pcur : NetRange}
    (hCur : dims[indices.length]? = some pcur) (hLong : pcur.Long)
    (hWords : words dims < 2 ^ 32) (hSized : base.Sized) (hDefined : (base.eval env).Defined)
    (hIn : List.Forall₂ InRange (dims.take indices.length) indices) :
    SliceExact log2 env dims indices base pcur ↔
      Harmless (signedWidth pcur base.exprWidth base.hasSign) pcur.lsb ∧
      Harmless (max (signedWidth pcur base.exprWidth base.hasSign) (bitsFor pcur.lsb)) pcur.msb ∧
      ∃ loff lwid, prefixToSlice dims indices (min pcur.lsb pcur.msb) = some (loff, lwid) ∧
        PlaceExact log2 env pcur base loff lwid := by
  refine and_congr_right fun _ => and_congr_right fun _ => ?_
  have hFits := @fits_base pcur _ _ hSized hDefined
  have hFound : Fits (sliceSigned pcur base.hasSign)
      (sizedWidth pcur base.exprWidth base.hasSign)
      (foundPlace pcur base.exprWidth base.hasSign (base.denotes env)) := cutTo_fits _ _ _
  have hPrefix := packedOffset_bounds hIn
  have hSplit := words_split hCur
  have hWidPos := words_pos (dims.drop (indices.length + 1))
  have hDrop := words_drop_le dims (indices.length + 1)
  have hAt := fun sb hSb => @prefixToSlice_eq _ hWords _ _ hCur hIn sb hSb
  have hMin : InRange pcur (min pcur.lsb pcur.msb) := by
    unfold InRange
    omega
  have hLsb : InRange pcur pcur.lsb := by
    unfold InRange
    omega
  have hCovers := hLog (words (dims.drop (indices.length + 1))) (by omega) (by omega)
  generalize packedOffset (dims.take indices.length) indices = front at *
  generalize words (dims.drop (indices.length + 1)) = lwid at *
  have hTotal : (front * pcur.width + pcur.width) * (lwid : Int) ≤ words dims := by
    have hNext : front + 1 ≤ words (dims.take indices.length) := by omega
    have hMul : (front + 1) * ((pcur.width * lwid : Nat) : Int) ≤
        words (dims.take indices.length) * ((pcur.width * lwid : Nat) : Int) :=
      Int.mul_le_mul_of_nonneg_right hNext (by omega)
    grind
  have hPlaceLsb : pcur.place pcur.lsb = 0 := by
    unfold NetRange.place
    split_ifs <;> omega
  have hMinBounds := place_bounds hMin
  have hFront : 0 ≤ front * (pcur.width : Int) * lwid :=
    Int.mul_nonneg (Int.mul_nonneg hPrefix.1 (by omega)) (by omega)
  have hStart : (front * pcur.width + pcur.place
      (min pcur.lsb pcur.msb)) * (lwid : Int) =
        front * pcur.width * lwid +
          pcur.place (min pcur.lsb pcur.msb) * lwid := by ring
  have hTop : (front * pcur.width + pcur.width) * (lwid : Int) =
      front * pcur.width * lwid + pcur.width * lwid := by ring
  have hInside := scaled_cases hWidPos (pcur.place (min pcur.lsb pcur.msb)) pcur.width
  have hLoff : 0 ≤ (front * pcur.width + pcur.place
      (min pcur.lsb pcur.msb)) * (lwid : Int) ∧
      (front * pcur.width + pcur.place (min pcur.lsb pcur.msb)) * (lwid : Int) < 2 ^ 63 := by
    omega
  have hScaled := @scaled_slice _ hLog _ _ _ _ lwid hFound (by omega) hLoff
  have hKey : ∀ loff : Int, loff = (front * pcur.width +
      pcur.place (min pcur.lsb pcur.msb)) * (lwid : Int) →
      ((if InRange pcur (base.denotes env) then
        ∃ off, prefixToSlice dims indices (base.denotes env) = some (off, lwid) ∧
          Fits (sliceSigned pcur base.hasSign) (sliceWidthOf log2 pcur base lwid loff) off ∧
          2 ^ sliceWidthOf log2 pcur base lwid loff ∣ sliceSum env pcur base lwid loff - off
      else
        ∀ low off, prefixToSlice dims indices pcur.lsb = some (low, lwid) →
          low - lwid < off → off < low + pcur.width * lwid →
          Fits (sliceSigned pcur base.hasSign) (sliceWidthOf log2 pcur base lwid loff) off →
          ¬2 ^ sliceWidthOf log2 pcur base lwid loff ∣ sliceSum env pcur base lwid loff - off) ↔
        PlaceExact log2 env pcur base loff lwid) := by
    intro loff hEq
    rw [← hEq] at hLoff hScaled
    by_cases hDown : pcur.lsb ≤ pcur.msb
    · have hMinEq : min pcur.lsb pcur.msb = pcur.lsb := by omega
      rw [hMinEq, hPlaceLsb] at hEq
      rw [← descending_exact hDown hLong hLoff.1 hWidPos hCovers hFits hScaled]
      split_ifs with hR
      · have hOff : (front * pcur.width + pcur.place
            (base.denotes env)) * (lwid : Int) = loff + (base.denotes env - pcur.lsb) * lwid := by
          rw [hEq, NetRange.place, if_pos hDown]
          ring
        rw [hAt _ hR, hOff]
        simp
      · rw [hAt _ hLsb, hPlaceLsb, ← hEq]
        exact forall_low_iff _ _
    · have hMinEq : min pcur.lsb pcur.msb = pcur.msb := by omega
      have hPlaceMsb : pcur.place pcur.msb = pcur.width - 1 := by
        unfold NetRange.place NetRange.width
        rw [if_neg hDown, if_neg hDown]
        omega
      rw [hMinEq, hPlaceMsb] at hEq
      have hLowTop : loff = front * pcur.width * lwid + pcur.width * lwid - lwid := by
        rw [hEq]
        ring
      rw [← ascending_exact hDown hLong hFront hLowTop hLoff.2 hWidPos hCovers hFits hScaled]
      split_ifs with hR
      · have hOff : (front * pcur.width + pcur.place
            (base.denotes env)) * (lwid : Int) = loff - (base.denotes env - pcur.msb) * lwid := by
          have hWidth : (pcur.width : Int) = pcur.lsb - pcur.msb + 1 := by
            unfold NetRange.width
            rw [if_neg hDown]
            omega
          rw [hEq, NetRange.place, if_neg hDown, hWidth]
          ring
        rw [hAt _ hR, hOff]
        simp
      · have hLowEq : (front * pcur.width + 0) * (lwid : Int) =
            front * pcur.width * lwid := by ring
        rw [hAt _ hLsb, hPlaceLsb, hLowEq]
        exact forall_low_iff _ _
  constructor
  · rintro ⟨loff, wid, hSlice, -, hPlaced⟩
    rw [hAt _ hMin] at hSlice
    cases hSlice
    exact ⟨_, _, hAt _ hMin, (hKey _ rfl).mp hPlaced⟩
  · grind

/- The base of a slice is right when it is exact; under a prefix
   in range that is arithmetic on the bounds and the widths. -/
theorem slice_base_exact {log2 : Int → Nat} (hLog : Log2Covers log2) {env : Env}
    {dims : List NetRange} {indices : List Int} {base : NetExpr}
    {pcur : NetRange} (hCur : dims[indices.length]? = some pcur)
    (hLong : pcur.Long) (hWords : words dims < 2 ^ 32) (hSized : base.Sized)
    (hDefined : (base.eval env).Defined) :
    (SliceRight log2 env dims indices base pcur ↔ SliceExact log2 env dims indices base pcur) ∧
    (List.Forall₂ InRange (dims.take indices.length) indices →
      (SliceRight log2 env dims indices base pcur ↔
        Harmless (signedWidth pcur base.exprWidth base.hasSign) pcur.lsb ∧
        Harmless (max (signedWidth pcur base.exprWidth base.hasSign) (bitsFor pcur.lsb)) pcur.msb ∧
        ∃ loff lwid, prefixToSlice dims indices (min pcur.lsb pcur.msb) = some (loff, lwid) ∧
          PlaceExact log2 env pcur base loff lwid)) := by
  have hExact := @sliceRight_iff _ hLog _ _ indices _ _ hCur hLong hWords hSized hDefined
  refine ⟨hExact, fun hIn => ?_⟩
  rw [hExact]
  exact sliceExact_iff hLog hCur hLong hWords hSized hDefined hIn

/- The last of four bytes. -/
theorem slice_base_exact_byte :
    SliceRight ceilLog2 (fun _ _ => .v1) [⟨3, 0⟩, ⟨7, 0⟩] [] (indexSignal "i" 2 false) ⟨3, 0⟩ := by
  have hExact := @slice_base_exact _ log2Covers_ceilLog2 (fun _ _ => .v1)
    [⟨3, 0⟩, ⟨7, 0⟩] [] (indexSignal "i" 2 false) ⟨3, 0⟩ (by decide) ⟨by decide, by decide⟩
    (by decide) trivial
    (by decide)
  refine (hExact.2 List.Forall₂.nil).mpr ⟨by decide, by decide, 0, 8, by decide, ?_⟩
  unfold PlaceExact Overflows
  decide

/- Slices from -8 to 7: an index of two bits is padded to the
   number -8, one of three bits has no room for the bound. -/
theorem negative_bound_as_width :
    (askedWidth ⟨7, -8⟩ 2 false = some 4294967288 ∧
      ¬SliceRight ceilLog2 (fun _ _ => .v0) [⟨7, -8⟩, ⟨3, 0⟩] []
        (indexSignal "i" 2 false) ⟨7, -8⟩) ∧
    ¬SliceRight ceilLog2 (fun _ _ => .v0) [⟨7, -8⟩, ⟨3, 0⟩] []
      (indexSignal "i" 3 false) ⟨7, -8⟩ := by
  refine ⟨⟨by decide, ?_⟩, ?_⟩
  · rintro ⟨hSizes, -⟩
    have hGrow : growTo (signedWidth ⟨7, -8⟩ 2 false) (-8) =
        some 4294967288 := by decide
    have hSize : max (signedWidth ⟨7, -8⟩ 2 false) (bitsFor (-8)) =
        4 := by decide
    have hAsked := hSizes.1
    change growTo (signedWidth ⟨7, -8⟩ 2 false) (-8) =
      some (max (signedWidth ⟨7, -8⟩ 2 false) (bitsFor (-8)))
      at hAsked
    rw [hGrow, hSize] at hAsked
    exact absurd hAsked (by decide)
  · rintro ⟨-, e, lwid, hBuilt, -, hPlaced⟩
    have hValue : (normalizeVariableSliceBase ceilLog2
        [⟨7, -8⟩, ⟨3, 0⟩] [] (indexSignal "i" 3 false)).map
          (fun slice => slice.1.denotes fun _ _ => .v0) =
        some (-32) := by decide
    have hOffset : prefixToSlice [⟨7, -8⟩, ⟨3, 0⟩] [] 0 =
        some (32, 4) := by decide
    have hIndex : (indexSignal "i" 3 false).denotes
        (fun _ _ => .v0) = 0 := by decide
    rw [hBuilt, Option.map_some, Option.some.injEq] at hValue
    rw [hIndex, if_pos (by decide), hOffset, hValue] at hPlaced
    exact absurd hPlaced (by simp)

end EpicSim
