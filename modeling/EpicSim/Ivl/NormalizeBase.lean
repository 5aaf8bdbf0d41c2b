import EpicSim.Ivl.BuiltExpr

/-
  When the normalized base of a select is the right integer.

  The base is widened by two bits over the offset, the slice
  and the base itself, and then subtracted from a constant or
  added to one.  The result is read at its own width and sign,
  so it is right where the integer meant fits there.
-/

----
-- The Exact Condition
----

namespace EpicSim

open TwosComplement

/- The index of the lowest selected bit when the base is 0,
   counted from the bound on the far side. -/
def exactOffset (msb lsb : Int) (wid : Nat) (is_up : Bool) : Int :=
  if msb < lsb then
    if is_up then lsb - (wid - 1) else lsb
  else
    if is_up then lsb else lsb + (wid - 1)

/- The canonical offset of a select with base `n`. -/
def canonicalBase (msb lsb n : Int) (wid : Nat) (is_up : Bool) (soff : Int) : Int :=
  if msb < lsb then exactOffset msb lsb wid is_up - n + soff
  else n - exactOffset msb lsb wid is_up + soff

/- The bits that the offset, the slice and the base need. -/
def roomBits (offset soff : Int) (width : Nat) : Nat :=
  max (max (bitsFor offset) (bitsFor soff)) width

/-
  When the built expression is exact.  No step overflows a
  `long`; an offset that has not wrapped leaves only a signed
  base whose result needs one bit more than the room, and for
  a descending subtraction an unsigned base below the select
  whose bound fills the width.  An offset that has wrapped is
  made good only where the width is that of a `long`.
-/
def NormalizeExact (signed : Bool) (width : Nat) (n msb lsb : Int) (wid : Nat) (is_up : Bool)
    (soff : Int) : Prop :=
  let start := exactOffset msb lsb wid is_up
  let offset := toLong start
  let target := canonicalBase msb lsb n wid is_up soff
  if msb < lsb then
    let room := roomBits offset soff width
    offset ≠ -2 ^ 63 ∧ lsb ≠ 2 ^ 63 - 1 ∧ offset + soff < 2 ^ 63 ∧
      if offset = start then
        (room ≤ 62 ∨ 0 ≤ offset + soff) ∧
          if signed then target < 2 ^ (room + 1)
          else
            lsb < 0 ∨ bitsFor (lsb + 1) ≤ room + 2 ∨ 0 ≤ target
      else
        signed ∧ (room = 62 ∧ -2 ^ 63 ≤ target ∨ room = 63 ∧ offset + soff < 0 ∧ -2 ^ 64 ≤ target)
  else
    let room := roomBits (-offset) soff width
    soff - offset < 2 ^ 63 ∧
      if offset = start then
        soff = offset ∨ signed = false ∨ target < 2 ^ (room + 1)
      else signed ∧ room = 62 ∧ -2 ^ 63 ≤ target

instance
    (signed : Bool) (width : Nat) (n msb lsb : Int) (wid : Nat) (is_up : Bool) (soff : Int) :
    Decidable (NormalizeExact signed width n msb lsb wid is_up soff) := by
  unfold NormalizeExact
  infer_instance

theorem two_pow_dvd_iff (n m : Nat) : (2 : Int) ^ n ∣ 2 ^ m ↔ n ≤ m := by
  have hCast := @Nat.pow_dvd_pow_iff_le_right 2 n m (by decide)
  rw [← hCast]
  exact_mod_cast Iff.rfl

/- Which multiples of the words are lost in a width. -/
theorem modEq_word_iff {width : Nat} {a b n k : Int} (h : b = a + k * 2 ^ 64) :
    a - n ≡ b - n [ZMOD 2 ^ width] ↔
      (2 : Int) ^ width ∣ k * 2 ^ 64 := by
  rw [Int.modEq_iff_dvd, h]
  have hDiff : a + k * 2 ^ 64 - n - (a - n) = k * 2 ^ 64 := by ring
  rw [hDiff]

end EpicSim

----
-- Exact Arithmetic
----

namespace EpicSim

open TwosComplement

/- An offset, a slice and a base that fit the room. -/
structure Roomy (room : Nat) (signed : Bool) (offset soff n : Int) : Prop where
  offset_low : -2 ^ room ≤ 2 * offset
  offset_high : offset < 2 ^ room
  soff_low : 0 ≤ soff
  soff_high : soff < 2 ^ room
  base : Fits signed room n
  base_low : -2 ^ 61 ≤ n
  base_high : n < 2 ^ 61

theorem two_pow_add_two (room : Nat) : (2 : Int) ^ (room + 2) = 2 ^ room * 4 := by
  rw [pow_add]
  rfl

theorem two_pow_le {n m : Nat} (h : n ≤ m) : (2 : Int) ^ n ≤ 2 ^ m := by
  exact_mod_cast Nat.pow_le_pow_right (by decide : 0 < 2) h

variable {room : Nat} {signed signed' : Bool}
  {offset soff n : Int}

section

variable (h : Roomy room signed offset soff n) (hLow : -2 ^ 63 < offset)
  (hHigh : offset + soff < 2 ^ 63) (hSigned : signed = true → signed' = true)

include h hLow hHigh hSigned

/- A subtraction whose offset has not wrapped. -/
theorem sub_exact_iff :
    ((offset + soff) % 2 ^ 64 - n ≡ offset - n + soff [ZMOD 2 ^ (room + 2)] ∧
      Fits signed' (room + 2) (offset - n + soff)) ↔
    (room ≤ 62 ∨ 0 ≤ offset + soff) ∧
      if signed then offset - n + soff < 2 ^ (room + 1)
      else signed' ∨ 0 ≤ offset - n + soff := by
  have hTarget : offset - n + soff = offset + soff - n := by ring
  rw [hTarget]
  have hMod : (offset + soff) % 2 ^ 64 - n ≡ offset + soff - n
      [ZMOD 2 ^ (room + 2)] ↔ room ≤ 62 ∨ 0 ≤ offset + soff := by
    by_cases hNeg : offset + soff < 0
    · have hLoss : offset + soff = (offset + soff) % 2 ^ 64 + -1 * 2 ^ 64 := by
        have := h.soff_low
        omega
      rw [modEq_word_iff hLoss, Int.neg_one_mul, dvd_neg, two_pow_dvd_iff]
      omega
    · have hSame : (offset + soff) % 2 ^ 64 = offset + soff :=
        Int.emod_eq_of_lt (by omega) (by omega)
      rw [hSame]
      exact ⟨fun _ => Or.inr (by omega), fun _ => rfl⟩
  rw [hMod]
  refine and_congr_right fun _ => ?_
  have hOffLow := h.offset_low
  have hOffHigh := h.offset_high
  have hSoffLow := h.soff_low
  have hSoffHigh := h.soff_high
  have hBase := h.base
  have hOne : (2 : Int) ^ (room + 1) = 2 ^ room * 2 := pow_succ 2 room
  unfold Fits at hBase ⊢
  rw [two_pow_add_two]
  cases signed with
  | true => grind
  | false => grind

/- A subtraction whose offset has wrapped around. -/
theorem sub_wrapped_iff :
    ((offset + soff) % 2 ^ 64 - n ≡ offset - 2 ^ 64 - n + soff [ZMOD 2 ^ (room + 2)] ∧
      Fits signed' (room + 2) (offset - 2 ^ 64 - n + soff)) ↔
    signed = true ∧
      (room = 62 ∧ -2 ^ 63 ≤ offset - 2 ^ 64 - n + soff ∨
        room = 63 ∧ offset + soff < 0 ∧
          -2 ^ 64 ≤ offset - 2 ^ 64 - n + soff) := by
  have hTarget : offset - 2 ^ 64 - n + soff =
      offset + soff - 2 ^ 64 - n := by ring
  rw [hTarget]
  have hSoffLow := h.soff_low
  have hBaseLow := h.base_low
  have hBase := h.base
  have hMod : (offset + soff) % 2 ^ 64 - n ≡
      offset + soff - 2 ^ 64 - n [ZMOD 2 ^ (room + 2)] ↔
        room ≤ 62 ∨ room = 63 ∧ offset + soff < 0 := by
    by_cases hNeg : offset + soff < 0
    · have hLoss : offset + soff - 2 ^ 64 =
          (offset + soff) % 2 ^ 64 + -2 * 2 ^ 64 := by omega
      have hTwo : (-2 : Int) * 2 ^ 64 = -2 ^ 65 := by norm_num
      rw [modEq_word_iff hLoss, hTwo, dvd_neg, two_pow_dvd_iff]
      omega
    · have hLoss : offset + soff - 2 ^ 64 =
          (offset + soff) % 2 ^ 64 + -1 * 2 ^ 64 := by omega
      rw [modEq_word_iff hLoss, Int.neg_one_mul, dvd_neg, two_pow_dvd_iff]
      omega
  rw [hMod]
  have hUnsigned : signed = false → 0 ≤ n := by
    rintro rfl
    exact hBase.1
  unfold Fits
  rw [two_pow_add_two]
  constructor
  · rintro ⟨hRoom, hFits⟩
    have hReads : signed' = true := by grind
    rw [hReads, if_pos rfl] at hFits
    rcases Nat.lt_or_ge room 62 with hSmall | hLarge
    · have hPow := two_pow_le (Nat.le_of_lt_succ hSmall)
      omega
    · grind
  · grind

end

/- An addition whose offset has not wrapped. -/
theorem add_exact_iff (h : Roomy room signed (-offset) soff n)
    (hSigned : signed' = true ↔ signed = true ∨ 0 < offset) :
    (n + (soff - offset) ≡ n - offset + soff [ZMOD 2 ^ (room + 2)] ∧
      Fits signed' (room + 2) (n - offset + soff)) ↔
    signed = false ∨ n - offset + soff < 2 ^ (room + 1) := by
  have hTarget : n + (soff - offset) = n - offset + soff := by ring
  have hOffLow := h.offset_low
  have hOffHigh := h.offset_high
  have hSoffLow := h.soff_low
  have hSoffHigh := h.soff_high
  have hBase := h.base
  have hOne : (2 : Int) ^ (room + 1) = 2 ^ room * 2 := pow_succ 2 room
  rw [hTarget]
  unfold Fits at hBase ⊢
  rw [two_pow_add_two]
  cases signed with
  | true =>
    rw [hSigned.mpr (Or.inl rfl)]
    simp only [if_true, Bool.true_eq_false, false_or] at hBase ⊢
    exact ⟨fun h => by omega, fun h => ⟨rfl, by omega⟩⟩
  | false =>
    simp only [Bool.false_eq_true, if_false, false_or, true_or, iff_true] at hBase hSigned ⊢
    refine ⟨rfl, ?_⟩
    grind

/- An addition whose offset has wrapped around. -/
theorem add_wrapped_iff (h : Roomy room signed (-offset) soff n) (hHigh : soff - offset < 2 ^ 63)
    (hSigned : signed' = true ↔ signed = true ∨ 0 < offset) :
    (n + (soff - offset) ≡ n - (offset + 2 ^ 64) + soff [ZMOD 2 ^ (room + 2)] ∧
      Fits signed' (room + 2) (n - (offset + 2 ^ 64) + soff)) ↔
    signed = true ∧ room = 62 ∧
      -2 ^ 63 ≤ n - (offset + 2 ^ 64) + soff := by
  have hOffHigh := h.offset_high
  have hSoffHigh := h.soff_high
  have hBaseHigh := h.base_high
  have hBase := h.base
  have hMod : n + (soff - offset) ≡ n - (offset + 2 ^ 64) + soff
      [ZMOD 2 ^ (room + 2)] ↔ room ≤ 62 := by
    rw [Int.modEq_iff_dvd]
    have hDiff : n - (offset + 2 ^ 64) + soff -
        (n + (soff - offset)) = -2 ^ 64 := by ring
    rw [hDiff, dvd_neg, two_pow_dvd_iff]
    omega
  rw [hMod]
  unfold Fits at hBase ⊢
  rw [two_pow_add_two]
  constructor
  · rintro ⟨hRoom, hFits⟩
    have hReads : signed' = true := by grind
    rw [hReads, if_pos rfl] at hFits
    have hRoom62 : room = 62 := by
      rcases Nat.lt_or_ge room 62 with hSmall | hLarge
      · have hPow := two_pow_le (Nat.le_of_lt_succ hSmall)
        omega
      · omega
    grind
  · grind

end EpicSim

----
-- Normalized Bases
----

namespace EpicSim

open Option (bind_some bind_eq_bind)
open TwosComplement

theorem numBits_least : numBits (-2 ^ 63) = none := by
  decide

theorem long_none {n : Int} (h : ¬ (-2 ^ 63 ≤ n ∧ n < 2 ^ 63)) : long n = none := if_neg h

/- An offset that the code wraps keeps its residue. -/
theorem toLong_cases {n : Int} (hLow : -2 ^ 63 - 2 ^ 64 ≤ n) (hHigh : n < 2 ^ 63 + 2 ^ 64) :
    toLong n = n ∨ toLong n = n + 2 ^ 64 ∨
      toLong n = n - 2 ^ 64 := by
  unfold toLong
  split_ifs <;> omega

theorem roomy_of_bounds {env : NetExpr.Env} {base : NetExpr}
    (hNarrow : base.exprWidth < 62) {offset soff : Int}
    (hOffset : -2 ^ 63 ≤ offset ∧ offset < 2 ^ 63) (hSoff : 0 ≤ soff ∧ soff < 2 ^ 63) :
    Roomy (roomBits offset soff base.exprWidth) base.hasSign offset soff (base.denotes env) := by
  have hRoom : bitsFor offset ≤ roomBits offset soff base.exprWidth := by
    unfold roomBits
    omega
  have hRoomSoff : bitsFor soff ≤ roomBits offset soff base.exprWidth := by
    unfold roomBits
    omega
  have hRoomBase : base.exprWidth ≤ roomBits offset soff base.exprWidth := by
    unfold roomBits
    omega
  have hFits := base.denotes_fits env
  have hLow := bitsFor_bounds hOffset.1 hOffset.2 hRoom
  have hHigh := bitsFor_bounds (by omega) hSoff.2 hRoomSoff
  have hSmall : Fits base.hasSign 61 (base.denotes env) := hFits.mono (by omega)
  refine ⟨hLow.1, hLow.2, hSoff.1, hHigh.2, hFits.mono hRoomBase, ?_, ?_⟩ <;>
  · unfold Fits at hSmall
    split_ifs at hSmall <;> omega

theorem leavesRoomBelow_of_range
    {lsb : Int} (hLow : -2 ^ 63 ≤ lsb) (hHigh : lsb < 2 ^ 63 - 1) (width : Nat) :
    leavesRoomBelow lsb width = some (decide (lsb < 0 ∨ bitsFor (lsb + 1) ≤ width)) := by
  unfold leavesRoomBelow
  by_cases hNeg : lsb < 0
  · rw [if_pos hNeg, decide_eq_true (Or.inl hNeg)]
  · rw [long_of_range (by omega) (by omega),
      bind_some, numBits_of_range (by omega)]
    simp [hNeg]

section

variable {env : NetExpr.Env} {base : NetExpr} (hDefined : (base.eval env).Defined)
  (hSized : base.Sized) (hNarrow : base.exprWidth < 62) {msb lsb soff : Int} {wid : Nat}
  {is_up : Bool} (hLsb : -2 ^ 63 ≤ lsb ∧ lsb < 2 ^ 63) (hSoff : 0 ≤ soff ∧ soff < 2 ^ 63)
  (hWid : 1 ≤ wid ∧ wid < 2 ^ 64)

include hDefined hSized hNarrow hLsb hSoff hWid

/- A subtraction from the offset. -/
theorem normalize_sub_exact (hLt : msb < lsb) :
    (∃ e,
      normalizeVariableBase base msb lsb wid is_up soff = some e ∧
        e.denotes env = canonicalBase msb lsb (base.denotes env) wid is_up soff) ↔
      NormalizeExact base.hasSign base.exprWidth (base.denotes env) msb lsb wid is_up soff := by
  have hOffset : (if is_up = true then toLong (lsb - (wid - 1))
      else lsb) = toLong (exactOffset msb lsb wid is_up) := by
    unfold exactOffset
    split_ifs
    · rfl
    · exact (toLong_self hLsb.1 hLsb.2).symm
  have hStart : toLong (exactOffset msb lsb wid is_up) = exactOffset msb lsb wid is_up ∨
      exactOffset msb lsb wid is_up = toLong (exactOffset msb lsb wid is_up) - 2 ^ 64 := by
    have hRange := toLong_range (exactOffset msb lsb wid is_up)
    have hCases : -2 ^ 63 - 2 ^ 64 ≤ exactOffset msb lsb wid is_up ∧
        exactOffset msb lsb wid is_up < 2 ^ 63 := by
      unfold exactOffset
      split_ifs <;> omega
    rcases toLong_cases hCases.1 (by omega) with h | h | h
    · exact Or.inl h
    · exact Or.inr (by omega)
    · omega
  unfold normalizeVariableBase NormalizeExact canonicalBase
  simp only [if_pos hLt, hOffset]
  have hRange := toLong_range (exactOffset msb lsb wid is_up)
  generalize exactOffset msb lsb wid is_up = start at *
  generalize toLong start = offset at *
  by_cases hLeast : offset = -2 ^ 63
  · rw [hLeast, numBits_least]
    simp
  rw [numBits_of_range (by omega), numBits_of_range (by omega)]
  simp only [bind_eq_bind, bind_some]
  by_cases hMax : lsb = 2 ^ 63 - 1
  · rw [hMax]
    simp [leavesRoomBelow, long]
  rw [leavesRoomBelow_of_range hLsb.1 (by omega), bind_some]
  by_cases hHigh : offset + soff < 2 ^ 63
  swap
  · rw [long_none (fun h => hHigh h.2)]
    grind
  rw [long_of_range (by omega) hHigh, bind_some]
  have hRoomy := @roomy_of_bounds env _ hNarrow _ _ hRange hSoff
  have hPad := NetExpr.stands_padToWidth hDefined hSized
    (show base.exprWidth < roomBits offset soff base.exprWidth + 2
      by unfold roomBits; omega)
  have hStands := hPad.castIf (decide (lsb < 0 ∨
    bitsFor (lsb + 1) ≤ roomBits offset soff base.exprWidth + 2))
  have hIff := @NetExpr.denotes_makeSubExpr_iff _ _ _ _ _
    (offset + soff) (start - base.denotes env + soff) hStands
  have hWidth := hPad.exprWidth
  unfold roomBits at hWidth hIff
  rw [hWidth]
  simp only [Option.some.injEq, exists_eq_left']
  refine hIff.trans ?_
  rw [and_iff_right hLeast, and_iff_right hMax, and_iff_right hHigh]
  unfold roomBits at hRoomy ⊢
  have hSigned : base.hasSign = true →
      (base.hasSign || decide (lsb < 0 ∨ bitsFor (lsb + 1) ≤
        max (max (bitsFor offset) (bitsFor soff)) base.exprWidth + 2)) = true := by
    intro hTrue
    rw [hTrue, Bool.true_or]
  have hAbove : -2 ^ 63 < offset := by omega
  rcases hStart with hSame | hWrapped
  · rw [← hSame, if_pos rfl, sub_exact_iff hRoomy hAbove hHigh hSigned]
    refine and_congr_right fun _ => ?_
    cases base.hasSign <;> simp [or_assoc]
  · rw [hWrapped, if_neg (by omega)]
    exact sub_wrapped_iff hRoomy hAbove hHigh hSigned

/- An addition to the base. -/
theorem normalize_add_exact (hLe : ¬ msb < lsb) :
    (∃ e,
      normalizeVariableBase base msb lsb wid is_up soff = some e ∧
        e.denotes env = canonicalBase msb lsb (base.denotes env) wid is_up soff) ↔
      NormalizeExact base.hasSign base.exprWidth (base.denotes env) msb lsb wid is_up soff := by
  have hOffset : (if is_up = true then lsb
      else toLong (lsb + (wid - 1))) =
        toLong (exactOffset msb lsb wid is_up) := by
    unfold exactOffset
    split_ifs
    · exact (toLong_self hLsb.1 hLsb.2).symm
    · rfl
  have hStart : toLong (exactOffset msb lsb wid is_up) = exactOffset msb lsb wid is_up ∨
      exactOffset msb lsb wid is_up = toLong (exactOffset msb lsb wid is_up) + 2 ^ 64 := by
    have hRange := toLong_range (exactOffset msb lsb wid is_up)
    have hCases : -2 ^ 63 ≤ exactOffset msb lsb wid is_up ∧
        exactOffset msb lsb wid is_up < 2 ^ 63 + 2 ^ 64 := by
      unfold exactOffset
      split_ifs <;> omega
    rcases toLong_cases (by omega) hCases.2 with h | h | h
    · exact Or.inl h
    · omega
    · exact Or.inr (by omega)
  unfold normalizeVariableBase NormalizeExact canonicalBase
  simp only [if_neg hLe, hOffset]
  have hRange := toLong_range (exactOffset msb lsb wid is_up)
  generalize exactOffset msb lsb wid is_up = start at *
  generalize toLong start = offset at *
  by_cases hHigh : soff - offset < 2 ^ 63
  swap
  · rw [long_none (fun h => hHigh h.2)]
    grind
  rw [long_of_range (by omega) hHigh, and_iff_right hHigh]
  simp only [bind_eq_bind, bind_some]
  by_cases hZero : soff - offset = 0
  · rw [if_pos hZero]
    simp only [Option.some.injEq, exists_eq_left']
    have hRoomy := @roomy_of_bounds env _ hNarrow _ _
      (show -2 ^ 63 ≤ -offset ∧ -offset < 2 ^ 63 by omega) hSoff
    have hBaseHigh := hRoomy.base_high
    grind
  · rw [if_neg hZero, long_of_range (by omega) (by omega),
      numBits_of_range (by omega), bind_some, numBits_of_range (by omega)]
    have hRoomy := @roomy_of_bounds env _ hNarrow _ _
      (show -2 ^ 63 ≤ -offset ∧ -offset < 2 ^ 63 by omega) hSoff
    have hPad := NetExpr.stands_padToWidth hDefined hSized
      (show base.exprWidth < roomBits (-offset) soff base.exprWidth + 2
        by unfold roomBits; omega)
    have hStands := hPad.castIf (decide (0 < offset))
    have hAbove : -2 ^ 63 < soff - offset := by omega
    have hApart : ¬ soff = offset := by omega
    have hIff := @NetExpr.makeAddExpr_iff _ _ _ _ _ _
      (base.denotes env - start + soff) hStands hZero
      hAbove hHigh
    refine hIff.trans ?_
    have hSigned : (base.hasSign || decide (0 < offset)) = true ↔
        base.hasSign = true ∨ 0 < offset := by
      rw [Bool.or_eq_true, decide_eq_true_iff]
    rcases hStart with hSame | hWrapped
    · rw [← hSame, if_pos rfl, add_exact_iff hRoomy hSigned]
      rw [or_iff_right hApart]
    · rw [hWrapped, if_neg (by omega)]
      exact add_wrapped_iff hRoomy hHigh hSigned

end

end EpicSim

----
-- Constant Bases
----

namespace EpicSim

open TwosComplement

theorem long_eq_some_iff {n m : Int} : long n = some m ↔ m = n ∧ -2 ^ 63 ≤ n ∧ n < 2 ^ 63 := by
  unfold long
  split_ifs with h
  · grind
  · exact ⟨fun hNone => (by cases hNone), fun hEq => absurd hEq.2 h⟩

variable {dims : List NetRange} {indices : List Int}

/- The walk adds the same address to every first offset. -/
theorem sbToIdxLoop_shift {a b p q wid : Int} (hA : sbToIdxLoop dims indices a wid = some p)
    (hB : sbToIdxLoop dims indices b wid = some q) : p - a = q - b := by
  induction dims generalizing indices a b wid with
  | nil =>
    cases indices with
    | nil =>
      simp only [sbToIdxLoop, Option.some.injEq] at hA hB
      omega
    | cons idx indices => simp [sbToIdxLoop] at hA
  | cons rng dims ih =>
    cases indices with
    | nil =>
      simp only [sbToIdxLoop, Option.some.injEq] at hA hB
      omega
    | cons idx indices =>
      simp only [sbToIdxLoop, Option.bind_eq_bind, Option.bind_eq_some_iff] at hA hB
      rcases hA with ⟨tmp, hTmp, prod, hProd, acc, hAcc, hA⟩
      rcases hB with ⟨tmp', hTmp', prod', hProd', acc', hAcc', hB⟩
      rw [hTmp, Option.some.injEq] at hTmp'
      subst hTmp'
      rw [hProd, Option.some.injEq] at hProd'
      subst hProd'
      have hEq := ih hA hB
      have hSum := (long_eq_some_iff.mp hAcc).1
      have hSum' := (long_eq_some_iff.mp hAcc').1
      omega

theorem sbToIdxLoop_range {a p wid : Int} (hA : -2 ^ 63 ≤ a ∧ a < 2 ^ 63)
    (hP : sbToIdxLoop dims indices a wid = some p) : -2 ^ 63 ≤ p ∧ p < 2 ^ 63 := by
  induction dims generalizing indices a wid with
  | nil =>
    cases indices with
    | nil =>
      simp only [sbToIdxLoop, Option.some.injEq] at hP
      omega
    | cons idx indices => simp [sbToIdxLoop] at hP
  | cons rng dims ih =>
    cases indices with
    | nil =>
      simp only [sbToIdxLoop, Option.some.injEq] at hP
      omega
    | cons idx indices =>
      simp only [sbToIdxLoop, Option.bind_eq_bind, Option.bind_eq_some_iff] at hP
      rcases hP with ⟨tmp, -, prod, -, acc, hAcc, hP⟩
      rcases long_eq_some_iff.mp hAcc with ⟨hSum, hRange⟩
      rw [hSum] at hP
      exact ih hRange hP

theorem sbToIdx_range {sb p : Int} (hP : sbToIdx dims indices sb = some p) :
    -2 ^ 63 ≤ p ∧ p < 2 ^ 63 := by
  unfold sbToIdx at hP
  split_ifs at hP
  cases hDims : dims.reverse with
  | nil =>
    rw [hDims] at hP
    cases hP
  | cons first rest =>
    rw [hDims] at hP
    simp only [Option.bind_eq_bind, Option.bind_eq_some_iff] at hP
    rcases hP with ⟨a, hA, hP⟩
    refine sbToIdxLoop_range ?_ hP
    unfold NetRange.position at hA
    split_ifs at hA <;>
    · rcases long_eq_some_iff.mp hA with ⟨rfl, hRange⟩
      exact hRange

/- Two indices of the last dimension, located. -/
theorem sbToIdx_shift {rng : NetRange} {sb sb' p q : Int} (hLast : dims.getLast? = some rng)
    (hP : sbToIdx dims indices sb = some p) (hQ : sbToIdx dims indices sb' = some q) :
    p - q = if rng.msb < rng.lsb then sb' - sb else sb - sb' := by
  unfold sbToIdx at hP hQ
  split_ifs at hP hQ with hLength
  have hHead : dims.reverse.head? = some rng := by rw [List.head?_reverse, hLast]
  cases hDims : dims.reverse with
  | nil =>
    rw [hDims] at hHead
    cases hHead
  | cons first rest =>
    rw [hDims, List.head?_cons, Option.some.injEq] at hHead
    subst hHead
    rw [hDims] at hP hQ
    simp only [Option.bind_eq_bind, Option.bind_eq_some_iff] at hP hQ
    rcases hP with ⟨a, hA, hP⟩
    rcases hQ with ⟨b, hB, hQ⟩
    have hEq := sbToIdxLoop_shift hP hQ
    unfold NetRange.position at hA hB
    by_cases hDown : first.lsb ≤ first.msb
    · rw [if_pos hDown] at hA hB
      have hSum := (long_eq_some_iff.mp hA).1
      have hSum' := (long_eq_some_iff.mp hB).1
      omega
    · rw [if_neg hDown] at hA hB
      have hSum := (long_eq_some_iff.mp hA).1
      have hSum' := (long_eq_some_iff.mp hB).1
      omega

/-
  When the offset of a constant base is the canonical one: a
  downward select of a one-bit vector is not moved down, and
  otherwise no step leaves a `long`.
-/
def ConstantExact (dims : List NetRange) (indices : List Int) (rng : NetRange)
    (n : Int) (wid : Nat) (is_up : Bool) (target : Int) : Prop :=
  (sbToIdx dims indices n).isSome ∧
    if rng.msb = rng.lsb then is_up ∨ wid = 1
    else if rng.msb < rng.lsb ↔ is_up then
      wid ≤ 2 ^ 63 + 1 ∧ -2 ^ 63 ≤ target
    else True

instance
    (dims : List NetRange) (indices : List Int) (rng : NetRange)
    (n : Int) (wid : Nat) (is_up : Bool) (target : Int) :
    Decidable (ConstantExact dims indices rng n wid is_up target) := by
  unfold ConstantExact
  infer_instance

theorem asLong_of_narrow {v : Verinum} (h : v.Defined) (hNarrow : v.len < 62) :
    v.asLong.toInt = v.integer := by
  have hFits := v.integer_fits
  rcases Nat.eq_zero_or_pos v.len with hEmpty | hLen
  · have hZero : v.integer = 0 := by
      unfold Fits at hFits
      rw [hEmpty] at hFits
      split_ifs at hFits <;> omega
    rw [hZero]
    unfold Verinum.asLong
    rw [if_pos hEmpty]
    rfl
  · rw [Verinum.asLong_toInt h hLen, cutLong_of_fits]
    have hWide := hFits.mono (Nat.le_of_lt hNarrow)
    unfold Fits at hWide ⊢
    rw [if_pos rfl]
    split_ifs at hWide <;> omega

theorem constant_base_exact {rng : NetRange} {soff : Int} {value : Verinum} {wid : Nat}
    {is_up : Bool} (hDefined : value.Defined)
    (hNarrow : value.len < 62) (hWid : 1 ≤ wid ∧ wid < 2 ^ 64)
    (hLast : dims.getLast? = some rng) (hSoff : sbToIdx dims indices rng.lsb = some soff) :
    elaborateLvalNetIdx dims indices value wid is_up =
        some (canonicalBase rng.msb rng.lsb value.integer wid is_up soff) ↔
      ConstantExact dims indices rng value.integer wid is_up
        (canonicalBase rng.msb rng.lsb value.integer wid is_up soff) := by
  unfold elaborateLvalNetIdx ConstantExact
  rw [hLast, asLong_of_narrow hDefined hNarrow]
  generalize value.integer = n
  simp only [Option.bind_eq_bind, Option.bind_some]
  cases hFound : sbToIdx dims indices n with
  | none => simp
  | some p =>
    have hShift := sbToIdx_shift hLast hFound hSoff
    have hRange := sbToIdx_range hFound
    rw [Option.bind_some, long_eq_some_iff, Option.isSome_some, and_iff_right rfl]
    unfold canonicalBase exactOffset
    rcases Int.lt_trichotomy rng.msb rng.lsb with hUp | hSame | hDown
    · have hNe : ¬ rng.msb = rng.lsb := by omega
      have hNot : ¬ rng.lsb < rng.msb := by omega
      simp only [hUp, hNe, hNot, if_true, if_false, true_and,
        false_and, or_false, true_iff] at hShift ⊢
      cases is_up with
      | true =>
        simp only [if_true]
        unfold toLong
        split_ifs <;> omega
      | false => grind
    · grind
    · have hNe : ¬ rng.msb = rng.lsb := by omega
      have hNot : ¬ rng.msb < rng.lsb := by omega
      simp only [hDown, hNe, hNot, if_false, true_and, false_and, false_or] at hShift ⊢
      cases is_up with
      | true => grind
      | false =>
        simp only [Bool.not_false, Bool.false_eq_true, if_false]
        unfold toLong
        split_ifs <;> omega

/-
  The built expression and the constant form give the canonical
  offset exactly under their conditions.
-/
theorem index_normalisation_exact {env : NetExpr.Env} {base : NetExpr}
    (hDefined : (base.eval env).Defined) (hSized : base.Sized)
    (hNarrow : base.exprWidth < 62) {msb lsb soff : Int}
    {wid : Nat} {is_up : Bool} (hLsb : -2 ^ 63 ≤ lsb ∧ lsb < 2 ^ 63)
    (hSoff : 0 ≤ soff ∧ soff < 2 ^ 63) (hWid : 1 ≤ wid ∧ wid < 2 ^ 64) :
    ((∃ e,
      normalizeVariableBase base msb lsb wid is_up soff = some e ∧
        e.denotes env = canonicalBase msb lsb (base.denotes env) wid is_up soff) ↔
      NormalizeExact base.hasSign base.exprWidth (base.denotes env) msb lsb wid is_up soff) ∧
    ∀ (dims : List NetRange) (indices : List Int)
      (value : Verinum), value.Defined → value.len < 62 →
        value.integer = base.denotes env →
        dims.getLast? = some ⟨msb, lsb⟩ →
        sbToIdx dims indices lsb = some soff →
        (elaborateLvalNetIdx dims indices value wid is_up =
            some (canonicalBase msb lsb (base.denotes env) wid is_up soff) ↔
          ConstantExact dims indices ⟨msb, lsb⟩
            (base.denotes env) wid is_up
            (canonicalBase msb lsb (base.denotes env) wid is_up soff)) := by
  constructor
  · by_cases hLt : msb < lsb
    · exact normalize_sub_exact hDefined hSized hNarrow hLsb hSoff hWid hLt
    · exact normalize_add_exact hDefined hSized hNarrow hLsb hSoff hWid hLt
  · intro dims indices value hValue hShort hSame hLast hFound
    rw [← hSame]
    exact constant_base_exact hValue hShort hWid hLast hFound

/- A two-bit base. -/
def twoBitBase : NetExpr :=
  .signal {
    name := "b"
    vector_width := 2
    get_signed := false
    data_type := .logic } false

theorem index_normalisation_exact_three :
    (∃ e,
      normalizeVariableBase twoBitBase 0 3 2 true 0 = some e ∧
        e.denotes (fun _ _ => .v1) =
          canonicalBase 0 3 (twoBitBase.denotes fun _ _ => .v1) 2 true 0) ∧
    elaborateLvalNetIdx [⟨0, 3⟩] []
        { bits := [.v1, .v1], has_len := true
          has_sign := false, is_single := false } 2 true =
      some (-1) := by
  rcases @index_normalisation_exact (fun _ _ => .v1) twoBitBase
      (by decide) trivial (by decide) 0 3 0 2 true (by decide)
      (by decide) (by decide) with ⟨hExpr, hConst⟩
  exact ⟨hExpr.mpr (by decide),
    (hConst [⟨0, 3⟩] []
      { bits := [.v1, .v1], has_len := true
        has_sign := false, is_single := false }
      rfl (by decide) (by decide) rfl (by decide)).mpr
      (by decide)⟩

/- `v[b +: 32]` of `[0:31] v` with `b` 3 starts at 13, not at
   -3; `r[0 -: 2]` of `[0:0] r` starts at 0, not at -1. -/
theorem index_normalisation_wide :
    (normalizeVariableBase twoBitBase 0 31 32 true 0).map
        (fun e => e.denotes fun _ _ => .v1) = some 13 ∧
      canonicalBase 0 31 (twoBitBase.denotes fun _ _ => .v1) 32 true 0 = -3 ∧
      elaborateLvalNetIdx [⟨0, 0⟩] []
        { bits := [.v0], has_len := true
          has_sign := false, is_single := false } 2 false =
        some 0 ∧
      canonicalBase 0 0 0 2 false 0 = -1 := by
  decide

end EpicSim
