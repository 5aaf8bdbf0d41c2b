import EpicSim.Vvp.PartWords

/-
  The forces of a part, and all part writes together.
-/

namespace EpicSim

open List (length_map length_range mem_map mem_range replicate)
open PartUpdate (overwrite overwrite_length overwrite_getD
  eq_of_getD)
open VvpNet (subvalue_length bitValue_subvalue)

----
-- Forces
----

variable {net : VvpNet} {val : List VvpBit4} {base : Int}
  {W w : Nat}

/- A force of a part that is in the net. -/
theorem forceMasked {W b : Nat} {mask : List Bool} (hFits : net.fil.Fits W)
    (hMask : mask.length = W)
    (hBits : ∀ idx, idx < W → (mask.getD idx false = true ↔ b ≤ idx ∧ idx < b + val.length)) :
    ∃ net',
      net.forceVec4 (overwrite net.fil.vec4Value b val) mask = some net' ∧
      net'.fil.vec4Value = placed net.fil.vec4Value val b := by
  have hValue : net.fil.vec4Value.length = W := by rw [VvpWireVec4.vec4Value_length, hFits.bits4]
  have hNew :
      (overwrite net.fil.vec4Value b val).length = W := by
    rw [overwrite_length, hValue]
  rcases VvpWireVec4.forceFilVec4_spec hFits hNew hMask with ⟨fil', hForce, hFits', hDriven, hView⟩
  let new := overwrite net.fil.vec4Value b val
  have hRun :
      net.forceVec4 new mask = some ⟨fil', net.out ++ [PartUpdate.full new]⟩ := by
    unfold VvpNet.forceVec4
    rw [hForce]
    rfl
  refine ⟨_, hRun, ?_⟩
  apply eq_of_getD .x
  · rw [placed_length, hValue, VvpWireVec4.vec4Value_length, hFits'.bits4]
  · intro idx hIdx
    rw [VvpWireVec4.vec4Value_length, hFits'.bits4] at hIdx
    have hBefore : bitValue net.fil.vec4Value idx = net.fil.value idx :=
      VvpWireVec4.bitValue_vec4Value (by
        rw [hFits.bits4]
        exact hIdx)
    have hAfter : bitValue fil'.vec4Value idx = fil'.value idx :=
      VvpWireVec4.bitValue_vec4Value (by
        rw [hFits'.bits4]
        exact hIdx)
    show bitValue fil'.vec4Value idx = _
    rw [hAfter, hView idx hIdx, placed_getD (by omega)]
    by_cases hHere : b ≤ idx ∧ idx < b + val.length
    · have hPlace : ((idx : Int) - b).toNat = idx - b := by
        omega
      have hOld : idx < net.fil.vec4Value.length := by omega
      rw [if_pos ((hBits idx hIdx).mpr hHere), if_pos (by omega),
        hPlace, bitValue, overwrite_getD VvpBit4.x hOld, if_pos hHere]
      rfl
    · have hNot : ¬ mask.getD idx false = true :=
        fun h => hHere ((hBits idx hIdx).mp h)
      rw [if_neg hNot, if_neg (by omega), ← hBefore]
      rfl

/- The bits of the mask, from a base in the net on. -/
theorem forceMask_getD {W b n idx : Nat} (hIn : b + n ≤ W) (hTargetSize : W < 2 ^ 31)
    (hIdx : idx < W) :
    ((List.range W).map fun k =>
        ((List.range n).map fun i : Nat => toUnsigned ((b : Int) + i)).contains k).getD idx false =
        true ↔
      b ≤ idx ∧ idx < b + n := by
  have hLength : idx < ((List.range W).map fun k =>
      ((List.range n).map fun i : Nat =>
        toUnsigned ((b : Int) + i)).contains k).length := by
    rw [length_map, length_range]
    exact hIdx
  rw [List.getD_eq_getElem _ _ hLength, List.getElem_map,
    List.getElem_range, List.contains_iff_mem, mem_map]
  constructor
  · rintro ⟨i, hMem, hEq⟩
    rw [mem_range] at hMem
    rw [toUnsigned_of_small (by omega) (by omega)] at hEq
    omega
  · intro hHere
    refine ⟨idx - b, mem_range.mpr (by omega), ?_⟩
    rw [toUnsigned_of_small (by omega) (by omega)]
    omega

/- No bit of the mask is missing. -/
theorem forceMask_any {W b n : Nat} (hIn : b + n ≤ W) (hTargetSize : W < 2 ^ 31) :
    (((List.range n).map fun i : Nat =>
      toUnsigned ((b : Int) + i)).any fun k => W ≤ k) = false := by
  rw [List.any_eq_false]
  intro k hMem
  rw [mem_map] at hMem
  rcases hMem with ⟨i, hRange, hEq⟩
  rw [mem_range] at hRange
  rw [toUnsigned_of_small (by omega) (by omega)] at hEq
  rw [decide_eq_true_eq]
  omega

/- The first bit of the mask is missing. -/
theorem forceMask_missing {W n : Nat} (hSome : 0 < n) (hMissing : W ≤ toUnsigned base) :
    (((List.range n).map fun i : Nat =>
      toUnsigned (base + i)).any fun k => W ≤ k) = true := by
  rw [List.any_eq_true]
  refine ⟨toUnsigned (base + (0 : Nat)), ?_, ?_⟩
  · exact mem_map.mpr ⟨0, mem_range.mpr hSome, rfl⟩
  · grind

/- A net that is driven with zeros, and not forced. -/
def zeroNet (W : Nat) : VvpNet :=
  ⟨VvpWireVec4.create W .zero, []⟩

theorem zeroNet_fits (W : Nat) : (zeroNet W).fil.Fits W :=
  VvpWireVec4.fits_create W .zero

theorem zeroNet_value (W : Nat) : (zeroNet W).fil.vec4Value = replicate W .zero := rfl

/-
  A force of part of a net: nothing for a base outside, and
  otherwise the part as it is, or a failed assertion.
-/
theorem forceClips_iff {write : VvpNet → VvpBit4 → List VvpBit4 → Option VvpNet}
    (hTarget : 0 < W) (hPart : 0 < w) (hOutside :
      ∀ net flag4 val,
        net.fil.Fits W →
        flag4 ≠ .one →
        ((W : Int) ≤ base ∨ base < -W) →
        write net flag4 val = some net)
    (hFails :
      ∀ net flag4 val,
        net.fil.Fits W →
        flag4 ≠ .one →
        val.length = w →
        ((base < 0 ∧ -W ≤ base) ∨ (0 ≤ base ∧ base < W ∧ W < base + w)) →
        write net flag4 val = none)
    (hInside :
      ∀ net flag4 val,
        net.fil.Fits W →
        flag4 ≠ .one →
        val.length = w →
        0 ≤ base →
        base + w ≤ W →
        ∃ net',
          write net flag4 val = some net' ∧
          net'.fil.vec4Value = placed net.fil.vec4Value val base) :
    PartWrite.ForceClips W w base write ↔
      W ≤ base ∨
      (0 ≤ base ∧ base + w ≤ W) ∨
      (base < -W ∧ base ≤ -w) := by
  have hZero : VvpBit4.zero ≠ .one := by decide
  have hOnes : (replicate w VvpBit4.one).length = w := List.length_replicate
  constructor
  · intro hClips
    have hMust := hClips (zeroNet W) .zero (replicate w .one) (zeroNet_fits W) hZero hOnes
    by_contra hUnsafe
    push Not at hUnsafe
    rcases hUnsafe with ⟨hHigh, hOver, hFar⟩
    rcases hMust with ⟨net', hRun, hView⟩
    by_cases hApart : base < -W
    · have hSame := hOutside (zeroNet W) .zero
        (replicate w .one) (zeroNet_fits W) hZero
        (Or.inr hApart)
      rw [hSame] at hRun
      rw [← Option.some.inj hRun, zeroNet_value] at hView
      have hLow := hFar hApart
      apply placed_ne hTarget hPart hLow hHigh (Or.inr (Int.le_refl _))
      rw [← hView]
      symm
      apply placed_nothing
      right
      rw [List.length_replicate]
    · have hNone := hFails (zeroNet W) .zero
        (replicate w .one) (zeroNet_fits W) hZero hOnes
        (by omega)
      rw [hNone] at hRun
      cases hRun
  · intro hSafe net flag4 val hFits hFlag hValue
    by_cases hIn : 0 ≤ base ∧ base + w ≤ W
    · exact hInside net flag4 val hFits hFlag hValue hIn.1 hIn.2
    · refine ⟨net, ?_, ?_⟩
      · apply hOutside net flag4 val hFits hFlag
        omega
      · symm
        apply placed_nothing
        rw [VvpWireVec4.vec4Value_length, hFits.bits4]
        omega

/- Setting a part of the value of a net. -/
theorem setVec_over {W off : Nat} (hFits : net.fil.Fits W) (hOver : W < off + val.length) :
    setVec net.fil.vec4Value off val = none := by
  unfold setVec
  rw [VvpWireVec4.vec4Value_length, hFits.bits4, if_neg (Nat.not_le.mpr hOver)]

theorem setVec_inside {W off : Nat} (hFits : net.fil.Fits W) (hIn : off + val.length ≤ W) :
    setVec net.fil.vec4Value off val = some (overwrite net.fil.vec4Value off val) := by
  unfold setVec
  rw [VvpWireVec4.vec4Value_length, hFits.bits4, if_pos hIn]

theorem forcePart_fails (hTargetSize : W < 2 ^ 31) (hPart : 0 < val.length) (hFits : net.fil.Fits W)
    (h : (base < 0 ∧ -W ≤ base) ∨ (0 ≤ base ∧ base < W ∧ W < base + val.length)) :
    forcePart net base val = none := by
  unfold forcePart
  rw [hFits.bits4]
  by_cases hNeg : base < 0
  · have hMissing : W ≤ toUnsigned base := by
      unfold toUnsigned
      omega
    have hSome :
        0 < if (W : Int) < base + val.length then
          (W - base).toNat else val.length := by
      split <;> omega
    simp only [forceMask_missing hSome hMissing, if_true]
  · have hOff : toUnsigned base = base.toNat := toUnsigned_of_small (by omega) (by omega)
    have hSet : setVec net.fil.vec4Value (toUnsigned base) val = none :=
      setVec_over hFits (by omega)
    rw [hSet]
    simp only [bind, Option.bind, ite_self]

theorem forcePart_inside (hTargetSize : W < 2 ^ 31) (hFits : net.fil.Fits W) (hLow : 0 ≤ base)
    (hHigh : base + val.length ≤ W) :
    ∃ net',
      forcePart net base val = some net' ∧
      net'.fil.vec4Value = placed net.fil.vec4Value val base := by
  obtain ⟨b, hBase⟩ := Int.eq_ofNat_of_zero_le hLow
  subst hBase
  have hIn : b + val.length ≤ W := by omega
  have hOff : toUnsigned (b : Int) = b := by
    rw [toUnsigned_of_small (by omega) (by omega)]
    rfl
  have hAll : ¬ (W : Int) < (b : Int) + val.length := by omega
  have hSet := setVec_inside hFits hIn
  have hMask := fun idx hIdx => @forceMask_getD W b val.length idx hIn hTargetSize hIdx
  rcases forceMasked hFits (by rw [length_map, length_range]) hMask with ⟨net', hForce, hView⟩
  refine ⟨net', ?_, hView⟩
  unfold forcePart
  rw [hFits.bits4]
  simp only [if_neg hAll, forceMask_any hIn hTargetSize, hOff, hSet]
  exact hForce

theorem force_clips_iff (hTarget : 0 < W) (hTargetSize : W < 2 ^ 31) (hPart : 0 < w) :
    PartWrite.Clips .forceVec4Off W w base ↔
      PartWrite.Safe .forceVec4Off W w base := by
  apply forceClips_iff hTarget hPart
  · intro net flag4 val hFits hFlag hOutside
    unfold ofForceVec4Off
    rw [hFits.bits4]
    grind
  · intro net flag4 val hFits hFlag hValue hBad
    unfold ofForceVec4Off
    rw [hFits.bits4]
    simp only [if_neg hFlag]
    rw [if_neg (by omega), if_neg (by omega)]
    apply forcePart_fails hTargetSize (by omega) hFits
    rw [hValue]
    exact hBad
  · intro net flag4 val hFits hFlag hValue hLow hHigh
    unfold ofForceVec4Off
    rw [hFits.bits4]
    simp only [if_neg hFlag]
    rw [if_neg (by omega), if_neg (by omega)]
    apply forcePart_inside hTargetSize hFits hLow
    rw [hValue]
    exact hHigh

theorem forceEvent_fails (hTargetSize : W < 2 ^ 31) (hPart : 0 < val.length)
    (hPartSize : val.length < 2 ^ 31) (hFits : net.fil.Fits W)
    (h : (base < 0 ∧ -W ≤ base) ∨ (0 ≤ base ∧ base < W ∧ W < base + val.length)) :
    ForceEvent.run ⟨toUnsigned base, W, val⟩ net = none := by
  unfold ForceEvent.run
  by_cases hNeg : base < 0
  · have hBase : (toUnsigned base : Int) = 2 ^ 32 + base := by
      unfold toUnsigned
      omega
    have hMissing : W ≤ toUnsigned (toUnsigned base : Nat) := by
      unfold toUnsigned at hBase ⊢
      omega
    have hSome :
        0 < if W < toUnsigned (toUnsigned base + val.length) then
          toUnsigned (W - toUnsigned base)
          else val.length := by
      split
      · unfold toUnsigned at hBase ⊢
        omega
      · exact hPart
    simp only [forceMask_missing hSome hMissing, if_true]
  · have hOff : toUnsigned base = base.toNat :=
      toUnsigned_of_small (by omega) (by omega)
    have hSet : setVec net.fil.vec4Value (toUnsigned base) val = none :=
      setVec_over hFits (by omega)
    simp only [hSet, bind, Option.bind, ite_self]

theorem forceEvent_inside (hTargetSize : W < 2 ^ 31) (hFits : net.fil.Fits W) (hLow : 0 ≤ base)
    (hHigh : base + val.length ≤ W) :
    ∃ net',
      ForceEvent.run ⟨toUnsigned base, W, val⟩ net = some net' ∧
      net'.fil.vec4Value = placed net.fil.vec4Value val base := by
  obtain ⟨b, hBase⟩ := Int.eq_ofNat_of_zero_le hLow
  subst hBase
  have hIn : b + val.length ≤ W := by omega
  have hOff : toUnsigned (b : Int) = b := by
    rw [toUnsigned_of_small (by omega) (by omega)]
    rfl
  have hEnd : toUnsigned (b + val.length) = b + val.length := by
    rw [toUnsigned_of_small (by omega) (by omega)]
    omega
  have hAll : ¬ W < b + val.length := by omega
  have hSet := setVec_inside hFits hIn
  have hMask := fun idx hIdx => @forceMask_getD W b val.length idx hIn hTargetSize hIdx
  rcases forceMasked hFits (by rw [length_map, length_range]) hMask with ⟨net', hForce, hView⟩
  refine ⟨net', ?_, hView⟩
  unfold ForceEvent.run
  simp only [hOff, hEnd, if_neg hAll, forceMask_any hIn hTargetSize, hSet]
  exact hForce

theorem force_delayed_clips_iff (hTarget : 0 < W) (hTargetSize : W < 2 ^ 31) (hPart : 0 < w)
    (hPartSize : w < 2 ^ 31) :
    PartWrite.Clips .forceVec4OffD W w base ↔
      PartWrite.Safe .forceVec4OffD W w base := by
  apply forceClips_iff hTarget hPart
  · intro net flag4 val hFits hFlag hOutside
    unfold ofForceVec4OffD
    simp only [if_neg hFlag]
    rcases hOutside with hHigh | hLow
    · rw [if_pos hHigh]
      rfl
    · rw [if_pos hLow, ite_self]
      rfl
  · intro net flag4 val hFits hFlag hValue hBad
    unfold ofForceVec4OffD
    simp only [if_neg hFlag]
    rw [if_neg (by omega), if_neg (by omega)]
    apply forceEvent_fails hTargetSize (by omega) (by omega) hFits
    rw [hValue]
    exact hBad
  · intro net flag4 val hFits hFlag hValue hLow hHigh
    unfold ofForceVec4OffD
    simp only [if_neg hFlag]
    rw [if_neg (by omega), if_neg (by omega)]
    apply forceEvent_inside hTargetSize hFits hLow
    rw [hValue]
    exact hHigh

----
-- All Part Writes
----

/-
  An instruction clips the value to the target exactly with
  the bases that are safe for it.
-/
theorem part_write_clips (i : PartWrite) (W w : Nat) (hTarget : 0 < W)
    (hTargetSize : W < 2 ^ 31) (hPart : 0 < w) (hPartSize : w < 2 ^ 31) (base : Int) :
    i.Clips W w base ↔ i.Safe W w base := by
  have hWords := @storePart_places W w base hTarget hPart hTargetSize hPartSize
  have hAssigns := @assignWordPart_places W w base hTarget hPart hTargetSize hPartSize
  have hAssign :
      ∀ twoState,
        PartWrite.ArrayClips twoState W w base
            (fun arr flag4 adr val =>
              runScheduled ArrayWordEvent.run (assignVec4A W flag4 adr base val) arr) ↔
          (assignWordPart W w base).Places twoState W w base := by
    intro twoState
    apply arrayClips_iff hTarget hPart (assignWordPart_within hPartSize)
    intro arr flag4 adr val hFits hFlag hAdr hValue
    rw [assignVec4A_write hFlag hAdr, hValue]
  have hOff :
      PartWrite.SignalClips W w base
          (fun sig flag4 val => runScheduled VectorEvent.run (assignVec4Off W flag4 base val) sig) ↔
        toInt base = base ∨
        toInt base ≤ -w ∨
        (W : Int) ≤ toInt base := by
    apply signalClips_iff hTarget hTargetSize hPart hPartSize
    intro sig flag4 val hLength hMask hFlag hValue
    rw [← hLength]
    exact assignVec4Off_eq (by omega) (by omega) hMask hFlag
  cases i with
  | storeVec4 =>
    apply signalClips_iff hTarget hTargetSize hPart hPartSize
    intro sig flag4 val hLength hMask hFlag hValue
    rw [← hValue]
    exact ofStoreVec4_eq hMask hFlag
  | storeVec4A twoState =>
    rw [← hWords twoState]
    unfold PartWrite.Clips
    apply arrayClips_iff hTarget hPart (storePart_within hPartSize)
    intro arr flag4 adr val hFits hFlag hAdr hValue
    rw [ofStoreVec4A_write hTargetSize hFits hFlag hAdr, hValue]
  | assignVec4AD twoState =>
    rw [← hAssigns twoState]
    exact hAssign twoState
  | assignVec4AE twoState =>
    have hSame :
        PartWrite.Safe (.assignVec4AE twoState) W w base ↔
          PartWrite.Safe (.assignVec4AD twoState) W w base := by
      cases twoState <;> exact Iff.rfl
    rw [hSame, ← hAssigns twoState]
    exact hAssign twoState
  | assignVec4OffD => exact hOff
  | assignVec4OffE => exact hOff
  | cassignVec4Off => exact cassign_clips_iff hTarget hPart
  | forceVec4Off => exact force_clips_iff hTarget hTargetSize hPart
  | forceVec4OffD => exact force_delayed_clips_iff hTarget hTargetSize hPart hPartSize

/- A store of four bits below a word of eight. -/
theorem part_write_clips_store :
    PartWrite.Clips (.storeVec4A false) 8 4 (-2) ∧ PartWrite.Clips .storeVec4 8 4 (-2) :=
  ⟨(part_write_clips (.storeVec4A false) 8 4 (by decide)
      (by decide) (by decide) (by decide) (-2)).mpr
      (by unfold PartWrite.Safe; decide),
    (part_write_clips .storeVec4 8 4 (by decide) (by decide)
      (by decide) (by decide) (-2)).mpr
      (by unfold PartWrite.Safe; decide)⟩

/-
  Of two bits one below a net of eight, the force fails its
  assertion.  The continuous assignment writes the wrong one.
-/
theorem part_write_overhangs :
    ofForceVec4Off ⟨VvpWireVec4.create 8 .zero, []⟩ .zero (-1) [.one, .zero] = none ∧
      ofForceVec4Off ⟨VvpWireVec4.create 8 .zero, []⟩ .zero 7 [.one, .zero] = none ∧
      (ofCassignVec4Off ⟨replicate 2 .zero, []⟩ .zero (-1)
        [.one, .zero]).map SignalVar.bits4 =
        some [.one, .zero] ∧
      placed (replicate 2 .zero) [.one, .zero] (-1) = [.zero, .zero] ∧
      ofStoreVec4A ⟨2, false, [[.x, .x]]⟩ .zero 0 (-3) [.one, .zero] = none ∧
      ofAssignVec4AD 8 .zero 0 (-3) [.one, .zero] = none :=
  ⟨by decide, by decide, by decide, by decide, by decide, by decide⟩

end EpicSim
