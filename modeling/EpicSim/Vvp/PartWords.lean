import EpicSim.Vvp.PartPlaced

/-
  The part writes to a word of an array.
-/

namespace EpicSim

open PartUpdate (overwrite overwrite_length overwrite_getD
  eq_of_getD)
open VvpNet (subvalue_length bitValue_subvalue)

----
-- Array Words
----

/- What is to be written to a word of an array. -/
inductive WordPart where
| fails
| nothing
| part (off skip : Nat)
deriving DecidableEq

namespace WordPart

/- Write it, as far as it is in a word of this width. -/
def write (p : WordPart) (W : Nat) (arr : VvpArray) (adr : Nat)
    (val : List VvpBit4) : Option VvpArray :=
  match p with
  | .fails => none
  | .nothing => some arr
  | .part off skip => arr.setWord adr off (subvalue val skip (min (val.length - skip) (W - off)))

/- It is the part that belongs there, and a word takes it. -/
def Places (p : WordPart) (twoState : Bool) (W w : Nat) (base : Int) : Prop :=
  match p with
  | .fails => False
  | .nothing => base ≤ -w ∨ (W : Int) ≤ base
  | .part off skip =>
    (if twoState then off = 0 ∧ W ≤ w - skip
      else off < W ∨ W % 64 ≠ 0) ∧
    (base = off - skip ∨ off = W ∨ skip = w)

/-
  A part within the word and within the value.  It is where
  the base says, or the base is apart from the word.
-/
def Within (p : WordPart) (W w : Nat) (base : Int) : Prop :=
  match p with
  | .part off skip =>
    off ≤ W ∧ skip ≤ w ∧ (off = 0 ∨ skip = 0) ∧
    (base = off - skip ∨ base ≤ -w ∨ (W : Int) ≤ base)
  | _ => True

end WordPart

namespace VvpArray

theorem getWord_mem {arr : VvpArray} {address : Nat} (hAdr : address < arr.words.length) :
    arr.getWord address ∈ arr.words := by
  unfold getWord
  rw [List.getD_eq_getElem _ _ hAdr]
  exact List.getElem_mem hAdr

/- To write back what is there changes nothing. -/
theorem placedAt_nothing {arr : VvpArray} {address W : Nat} {val : List VvpBit4}
    {base : Int} (hFits : arr.Fits W) (hAdr : address < arr.words.length)
    (hApart : base ≤ -val.length ∨ (W : Int) ≤ base) : arr.placedAt address val base = arr := by
  have hWord := hFits.words _ (getWord_mem hAdr)
  have hSame :
      placed (arr.getWord address)
          (if arr.twoState then val.map VvpBit4.toTwoState
            else val)
          base =
        arr.getWord address := by
    apply placed_nothing
    grind
  unfold placedAt
  rw [hSame]
  unfold getWord
  rw [List.getD_eq_getElem _ _ hAdr, List.set_getElem_self]

/- The two-state bits of a part. -/
theorem map_subvalue {val : List VvpBit4} {skip n : Nat} (hLong : skip + n ≤ val.length) :
    (subvalue val skip n).map VvpBit4.toTwoState =
      subvalue (val.map VvpBit4.toTwoState) skip n := by
  unfold subvalue
  rw [List.map_map]
  apply List.map_congr_left
  intro idx hMem
  rw [List.mem_range] at hMem
  have hIdx : skip + idx < val.length := by omega
  have hIdx' :
      skip + idx < (val.map VvpBit4.toTwoState).length := by
    rwa [List.length_map]
  unfold bitValue
  rw [Function.comp, List.getD_eq_getElem _ _ hIdx,
    List.getD_eq_getElem _ _ hIdx', List.getElem_map]

section

variable {arr : VvpArray} {address W off skip : Nat} {val : List VvpBit4} (hFits : arr.Fits W)
  (hAdr : address < arr.words.length) (hOff : off ≤ W)

include hFits hAdr hOff

/- A part of a value that a word takes. -/
theorem setWord_part (hSkip : skip ≤ val.length) (hOne : off = 0 ∨ skip = 0) (hTakes :
      if arr.twoState then off = 0 ∧ W ≤ val.length - skip
      else off < W ∨ W % 64 ≠ 0) :
    arr.setWord address off (subvalue val skip (min (val.length - skip) (W - off))) =
      some (arr.placedAt address val (off - skip)) := by
  have hWord := hFits.words _ (getWord_mem hAdr)
  have hClip :
      ∀ value : List VvpBit4, value.length = val.length →
        overwrite (arr.getWord address) off
            (subvalue value skip (min (val.length - skip) (W - off))) =
          placed (arr.getWord address) value (off - skip) := by
    intro value hValue
    apply overwrite_part rfl
    intro idx hIdx
    omega
  unfold setWord placedAt
  rw [if_neg (Nat.not_le_of_lt hAdr)]
  by_cases hState : arr.twoState = true
  · rw [if_pos hState] at hTakes
    rcases hTakes with ⟨hZero, hFull⟩
    have hSize : min (val.length - skip) (W - off) = W := by omega
    rw [if_pos hState, if_pos hState, subvalue_length, hSize,
      if_pos ⟨hZero, hFits.width.symm⟩, map_subvalue (by omega)]
    have hTwo := hClip (val.map VvpBit4.toTwoState) (List.length_map _)
    rw [hSize, hZero] at hTwo
    rw [PartUpdate.overwrite_all (by rw [subvalue_length, hWord])] at hTwo
    rw [hTwo, hZero]
  · rw [if_neg hState] at hTakes
    rw [if_neg hState, if_neg hState, subvalue_length]
    by_cases hFull : off ≠ 0 ∨ min (val.length - skip) (W - off) ≠ arr.valsWidth
    · have hRoom : off / 64 < (W + 63) / 64 := by omega
      have hEnd :
          off + min (val.length - skip) (W - off) ≤ W := by
        omega
      rw [if_pos hFull]
      unfold setVecWord setVec
      rw [hWord, if_pos hRoom, subvalue_length, if_pos hEnd, hClip val rfl]
      rfl
    · push Not at hFull
      rcases hFull with ⟨hZero, hAll⟩
      have hFour := hClip val rfl
      rw [hFits.width] at hAll
      rw [if_neg (by rw [hFits.width]; omega)]
      rw [hZero, PartUpdate.overwrite_all (by rw [subvalue_length, hWord]; omega)] at hFour
      rw [hZero, hFour]

/- A part that a word does not take. -/
theorem setWord_fails (hPart : 0 < W) (hTakes :
      ¬ if arr.twoState then off = 0 ∧ W ≤ val.length - skip
        else off < W ∨ W % 64 ≠ 0) :
    arr.setWord address off (subvalue val skip (min (val.length - skip) (W - off))) =
      none := by
  have hWord := hFits.words _ (getWord_mem hAdr)
  unfold setWord
  rw [if_neg (Nat.not_le_of_lt hAdr)]
  by_cases hState : arr.twoState = true
  · rw [if_pos hState] at hTakes
    rw [if_pos hState, if_neg]
    rw [subvalue_length, hFits.width]
    omega
  · rw [if_neg hState] at hTakes
    have hRoom : ¬ off / 64 < (W + 63) / 64 := by omega
    rw [if_neg hState, if_pos (Or.inl (by omega))]
    unfold setVecWord
    rw [hWord, if_neg hRoom]
    rfl

end

/- A part that belongs where it is written. -/
theorem write_of_places {arr : VvpArray} {p : WordPart} {address W : Nat}
    {val : List VvpBit4} {base : Int} (hTarget : 0 < W)
    (hPart : 0 < val.length) (hFits : arr.Fits W)
    (hAdr : address < arr.words.length) (hWithin : p.Within W val.length base)
    (hPlaces : p.Places arr.twoState W val.length base) :
    p.write W arr address val = some (arr.placedAt address val base) := by
  cases p with
  | fails => exact absurd hPlaces id
  | nothing =>
    rw [placedAt_nothing hFits hAdr hPlaces]
    rfl
  | part off skip =>
    rcases hPlaces with ⟨hTakes, hSame⟩
    rcases hWithin with ⟨hOff, hSkip, hOne, hFar⟩
    rw [WordPart.write, setWord_part hFits hAdr hOff hSkip hOne hTakes]
    by_cases hHere : base = off - skip
    · rw [hHere]
    · have hApart := hFar.resolve_left hHere
      have hEdge :
          (off - skip : Int) ≤ -val.length ∨
            (W : Int) ≤ off - skip := by
        omega
      rw [placedAt_nothing hFits hAdr hApart, placedAt_nothing hFits hAdr hEdge]

end VvpArray

variable {W w : Nat} {base : Int}

/- A write of a part of the value to a word of an array. -/
theorem arrayClips_iff {twoState : Bool}
    {write : VvpArray → VvpBit4 → Int → List VvpBit4 → Option VvpArray}
    {p : WordPart} (hTarget : 0 < W) (hPart : 0 < w) (hWithin : p.Within W w base) (hWrite :
      ∀ (arr : VvpArray) (flag4 : VvpBit4) (adr : Nat)
        (val : List VvpBit4),
        arr.Fits W →
        flag4 ≠ .one →
        adr < 2 ^ 32 →
        val.length = w →
        write arr flag4 adr val = p.write W arr adr val) :
    PartWrite.ArrayClips twoState W w base write ↔
      p.Places twoState W w base := by
  constructor
  · intro hClips
    let word := List.replicate W VvpBit4.zero
    let arr : VvpArray := ⟨W, twoState, [word]⟩
    let ones := List.replicate w VvpBit4.one
    have hWord : word.length = W := List.length_replicate
    have hOnes : ones.length = w := List.length_replicate
    have hZero : VvpBit4.zero ≠ .one := by decide
    have hFits : arr.Fits W := by
      refine ⟨rfl, ?_⟩
      intro word' hMem
      rw [List.mem_singleton.mp hMem, hWord]
    have hAdr : 0 < arr.words.length := Nat.zero_lt_one
    -- Two-state words keep zeros and ones.
    have hState :
        (if twoState then ones.map VvpBit4.toTwoState
          else ones) = ones := by
      cases twoState with
      | false => rfl
      | true => exact List.map_replicate
    have hPlaced :
        ∀ b : Int,
          (arr.placedAt 0 ones b).words = [placed word ones b] := by
      intro b
      show [placed word (if twoState then _ else _) b] = _
      rw [hState]
    have hDoes := hWrite arr .zero 0 ones hFits hZero (by decide) hOnes
    have hMust := hClips arr .zero 0 ones hFits rfl hZero hAdr (by decide) hOnes
    rw [hDoes] at hMust
    have hDiffer :
        ∀ b b' : Int,
          -w < b →
          b < W →
          (b' ≤ -w ∨ (W : Int) ≤ b') →
          some (arr.placedAt 0 ones b) ≠ some (arr.placedAt 0 ones b') := by
      intro b b' hLow hHigh hOther hEq
      apply placed_ne hTarget hPart hLow hHigh hOther
      grind
    cases p with
    | fails => cases hMust
    | nothing =>
      have hNothing := @VvpArray.placedAt_nothing arr 0 W ones W hFits hAdr (Or.inr (Int.le_refl _))
      by_contra hHere
      simp only [WordPart.Places] at hHere
      push Not at hHere
      apply hDiffer base W hHere.1 hHere.2 (Or.inr (Int.le_refl _))
      rw [hNothing]
      exact hMust.symm
    | part off skip =>
      rcases hWithin with ⟨hOff, hSkip, hOne, hFar⟩
      rw [← hOnes] at hSkip
      have hTakes :
          if twoState then off = 0 ∧ W ≤ w - skip
          else off < W ∨ W % 64 ≠ 0 := by
        by_contra hNot
        rw [← hOnes] at hNot
        have hFails := @VvpArray.setWord_fails arr 0 W off skip ones hFits hAdr hOff hTarget hNot
        rw [WordPart.write, hFails] at hMust
        cases hMust
      refine ⟨hTakes, ?_⟩
      rw [← hOnes] at hTakes
      have hRun := @VvpArray.setWord_part arr 0 W off skip ones hFits hAdr hOff hSkip hOne hTakes
      rw [WordPart.write, hRun] at hMust
      by_contra hNot
      push Not at hNot
      rcases hNot with ⟨hNe, hOffEdge, hSkipEdge⟩
      exact hDiffer (off - skip) base (by omega) (by omega) (by omega) hMust
  · intro hPlaces arr flag4 adr val hFits hState hFlag hAdr hSmall hValue
    rw [hWrite arr flag4 adr val hFits hFlag hSmall hValue]
    subst hValue
    rw [← hState] at hPlaces
    exact VvpArray.write_of_places hTarget hPart hFits hAdr hWithin hPlaces

/- What a store writes to a word. -/
def storePart (W w : Nat) (base : Int) : WordPart :=
  if base < 0 then
    if toUnsigned (-base) ≤ w then .part 0 (toUnsigned (-base))
    else .fails
  else if base ≤ W then .part base.toNat 0
  else .fails

theorem storePart_within (hPartSize : w < 2 ^ 31) : (storePart W w base).Within W w base := by
  unfold storePart
  split
  · next hNeg =>
      have hFar : base = -(toUnsigned (-base) : Int) ∨
          base ≤ -2 ^ 32 := by
        unfold toUnsigned
        omega
      split
      · next hBelow => exact ⟨Nat.zero_le _, hBelow, Or.inl rfl, by omega⟩
      · exact trivial
  · split
    · exact ⟨by omega, Nat.zero_le _, Or.inr rfl, by omega⟩
    · exact trivial

theorem ofStoreVec4A_write {arr : VvpArray} {flag4 : VvpBit4} {adr W : Nat}
    {val : List VvpBit4} (hTargetSize : W < 2 ^ 31)
    (hFits : arr.Fits W) (hFlag : flag4 ≠ .one) (hAdr : adr < 2 ^ 32) :
    ofStoreVec4A arr flag4 adr base val = (storePart W val.length base).write W arr adr val := by
  have hAddress : toUnsigned adr = adr := by
    rw [toUnsigned_of_small (by omega) (by omega)]
    rfl
  unfold ofStoreVec4A storePart
  rw [if_neg hFlag, hAddress, hFits.width]
  by_cases hNeg : base < 0
  · simp only [if_pos hNeg]
    by_cases hBelow : toUnsigned (-base) ≤ val.length
    · have hPart :
          partOf val (toUnsigned (-base)) (val.length - toUnsigned (-base)) =
            some (subvalue val (toUnsigned (-base)) (val.length - toUnsigned (-base))) := by
        rw [partOf_some (by omega)]
        congr 2
        omega
      have hRoom : ((W : Int) - 0).toNat = W - 0 := by omega
      rw [if_pos hBelow, hPart]
      simp only [bind, Option.bind, cutAbove_part (Int.natCast_nonneg W)]
      rfl
    · rw [if_neg hBelow, partOf_none (by omega)]
      rfl
  · simp only [if_neg hNeg]
    by_cases hHigh : base ≤ W
    · have hRoom : ((W : Int) - base).toNat = W - base.toNat := by
        omega
      have hOff : toUnsigned base = base.toNat := toUnsigned_of_small (by omega) (by omega)
      have hPart := @cutAbove_part val 0 W val.length base hHigh
      rw [← eq_subvalue, hRoom] at hPart
      simp only [if_pos hHigh, bind, Option.bind, hPart, hOff]
      rfl
    · simp only [if_neg hHigh, cutAbove_none (Int.not_le.mp hHigh)]
      rfl

/- What an assignment writes to a word. -/
def assignWordPart (W w : Nat) (base : Int) : WordPart :=
  if W ≤ base ∨ (base < 0 ∧ W ≤ toUnsigned (-base)) then .nothing
  else if base < 0 then
    if toUnsigned (-base) < w then .part 0 (toUnsigned (-base))
    else .fails
  else .part base.toNat 0

theorem assignWordPart_within (hPartSize : w < 2 ^ 31) :
    (assignWordPart W w base).Within W w base := by
  unfold assignWordPart
  split
  · exact trivial
  · next hSome =>
      split
      · next hNeg =>
          have hFar : base = -(toUnsigned (-base) : Int) ∨
              base ≤ -2 ^ 32 := by
            unfold toUnsigned
            omega
          split
          · next hBelow => exact ⟨Nat.zero_le _, Nat.le_of_lt hBelow, Or.inl rfl, by omega⟩
          · exact trivial
      · exact ⟨by omega, Nat.zero_le _, Or.inr rfl, by omega⟩

theorem assignVec4A_write {arr : VvpArray} {flag4 : VvpBit4} {adr W : Nat}
    {val : List VvpBit4} (hFlag : flag4 ≠ .one) (hAdr : adr < 2 ^ 32) :
    runScheduled ArrayWordEvent.run (assignVec4A W flag4 adr base val) arr =
      (assignWordPart W val.length base).write W arr adr val := by
  have hAddress : toUnsigned adr = adr := by
    rw [toUnsigned_of_small (by omega) (by omega)]
    rfl
  unfold assignVec4A assignWordPart
  rw [if_neg hFlag, hAddress]
  by_cases hNothing : (W : Int) ≤ base ∨ (base < 0 ∧ W ≤ toUnsigned (-base))
  · rw [assignPart_nothing hNothing, if_pos hNothing]
    rfl
  · rw [if_neg hNothing]
    push Not at hNothing
    rcases hNothing with ⟨hHigh, hLimit⟩
    by_cases hNeg : base < 0
    · rw [if_pos hNeg]
      by_cases hBelow : toUnsigned (-base) < val.length
      · have hZero : base.toNat = 0 := by omega
        rw [if_pos hBelow, assignPart_part hHigh (fun h => ⟨hLimit h, hBelow⟩), if_pos hNeg, hZero]
        rfl
      · rw [if_neg hBelow, assignPart_short hNeg (hLimit hNeg) (Nat.le_of_not_lt hBelow)]
        rfl
    · rw [if_neg hNeg, assignPart_part hHigh (fun h => absurd h hNeg), if_neg hNeg]
      rfl

theorem storePart_places {W w : Nat} {base : Int} (hTarget : 0 < W) (hPart : 0 < w)
    (hTargetSize : W < 2 ^ 31) (hPartSize : w < 2 ^ 31) (twoState : Bool) :
    (storePart W w base).Places twoState W w base ↔
      PartWrite.Safe (.storeVec4A twoState) W w base := by
  unfold storePart
  by_cases hNeg : base < 0
  · rw [if_pos hNeg]
    by_cases hBelow : toUnsigned (-base) ≤ w
    · rw [if_pos hBelow]
      cases twoState
      · simp only [WordPart.Places, PartWrite.Safe, Bool.false_eq_true, if_false]
        omega
      · simp only [WordPart.Places, PartWrite.Safe, if_true, true_and]
        unfold toUnsigned at *
        omega
    · rw [if_neg hBelow]
      cases twoState
      · simp only [WordPart.Places, PartWrite.Safe, false_iff]
        omega
      · simp only [WordPart.Places, PartWrite.Safe, false_iff]
        unfold toUnsigned at *
        omega
  · rw [if_neg hNeg]
    by_cases hHigh : base ≤ W
    · rw [if_pos hHigh]
      cases twoState
      · simp only [WordPart.Places, PartWrite.Safe, Bool.false_eq_true, if_false]
        omega
      · simp only [WordPart.Places, PartWrite.Safe, if_true]
        omega
    · rw [if_neg hHigh]
      cases twoState
      · simp only [WordPart.Places, PartWrite.Safe, false_iff]
        omega
      · simp only [WordPart.Places, PartWrite.Safe, false_iff]
        omega

theorem assignWordPart_places {W w : Nat} {base : Int} (hTarget : 0 < W) (hPart : 0 < w)
    (hTargetSize : W < 2 ^ 31) (hPartSize : w < 2 ^ 31) (twoState : Bool) :
    (assignWordPart W w base).Places twoState W w base ↔
      PartWrite.Safe (.assignVec4AD twoState) W w base := by
  unfold assignWordPart
  split
  · cases twoState
    · simp only [WordPart.Places, PartWrite.Safe]
      omega
    · simp only [WordPart.Places, PartWrite.Safe]
      omega
  · next hSome =>
      split
      · next hNeg =>
          split
          · next hBelow =>
              cases twoState
              · simp only [WordPart.Places, PartWrite.Safe, Bool.false_eq_true, if_false]
                omega
              · simp only [WordPart.Places, PartWrite.Safe, if_true, true_and]
                omega
          · cases twoState
            · simp only [WordPart.Places, PartWrite.Safe, false_iff]
              omega
            · simp only [WordPart.Places, PartWrite.Safe, false_iff]
              omega
      · next hNonneg =>
          cases twoState
          · simp only [WordPart.Places, PartWrite.Safe, Bool.false_eq_true, if_false]
            omega
          · simp only [WordPart.Places, PartWrite.Safe, if_true]
            unfold toUnsigned
            omega

end EpicSim
