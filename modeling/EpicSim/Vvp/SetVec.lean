import EpicSim.Vvp.PackedStore

/-
  Writing a vector into a part of another one.

  The source does the same to the abits and to the bbits: here
  it is a function of the words of one of them.  Four cases are
  told apart by the lengths and by the offset in a word.
-/

namespace EpicSim

namespace PackedWords

----
-- The Four Cases
----

/- Both vectors in one word. -/
def setInWord (adr size : Nat) (that words : List (BitVec 64)) : List (BitVec 64) × Bool :=
  let mask := rangeMask adr (adr + size)
  storeMasked words 0 mask ((wordAt that 0 <<< adr) &&& mask)

/- A word into a part of several words. -/
def setFromWord (adr size : Nat) (that words : List (BitVec 64)) : List (BitVec 64) × Bool :=
  let dptr := adr / 64
  let doff := adr % 64
  let mask := rangeMask doff (doff + size)
  let st := storeMasked words dptr mask ((wordAt that 0 <<< doff) &&& mask)
  if 64 < doff + size then
    let tail := doff + size - 64
    let mask := lowMask tail
    andThen st fun words =>
      storeMasked words (dptr + 1) mask ((wordAt that 0 >>> (size - tail)) &&& mask)
  else st

/- `while (remain >= BITS_PER_WORD)` on whole words, and the
   words that are left. -/
def setAlignedLoop (that : List (BitVec 64)) :
    Nat → Nat → Nat → Nat → List (BitVec 64) × Bool → List (BitVec 64) × Bool
| 0, _, _, _, st => st
| rounds + 1, remain, sptr, dptr, st =>
  if 64 ≤ remain then
    setAlignedLoop that rounds (remain - 64) (sptr + 1) (dptr + 1)
      (andThen st fun words => storeWord words dptr (wordAt that sptr))
  else if 0 < remain then
    let mask := lowMask remain
    andThen st fun words => storeMasked words dptr mask (wordAt that sptr &&& mask)
  else st

/- Several words, at the start of a word. -/
def setAligned (adr size : Nat) (that words : List (BitVec 64)) : List (BitVec 64) × Bool :=
  setAlignedLoop that (size + 1) size 0 (adr / 64) (words, false)

/- `while (remain >= BITS_PER_WORD)` on words that are split,
   and the bits that are left. -/
def setSplitLoop (doff : Nat) (that : List (BitVec 64)) :
    Nat → Nat → Nat → Nat → List (BitVec 64) × Bool → List (BitVec 64) × Bool
| 0, _, _, _, st => st
| rounds + 1, remain, sptr, dptr, st =>
  let lmask := lowMask doff
  let ndoff := 64 - doff
  if 64 ≤ remain then
    let st := andThen st fun words =>
      storeMasked words dptr (~~~lmask) ((wordAt that sptr <<< doff) &&& ~~~lmask)
    let st := andThen st fun words =>
      storeMasked words (dptr + 1) lmask ((wordAt that sptr >>> ndoff) &&& lmask)
    setSplitLoop doff that rounds (remain - 64) (sptr + 1) (dptr + 1) st
  else if 0 < remain then
    let mask := rangeMask doff (doff + remain)
    let st := andThen st fun words =>
      storeMasked words dptr mask ((wordAt that sptr <<< doff) &&& mask)
    if 64 < doff + remain then
      let tail := doff + remain - 64
      let mask := if 64 ≤ tail then BitVec.allOnes 64 else lowMask tail
      andThen st fun words =>
        storeMasked words (dptr + 1) mask ((wordAt that sptr >>> (remain - tail)) &&& mask)
    else st
  else st

/- Several words, in the middle of a word. -/
def setSplit (adr size : Nat) (that words : List (BitVec 64)) : List (BitVec 64) × Bool :=
  setSplitLoop (adr % 64) that (size + 1) size 0 (adr / 64) (words, false)

/- `set_vec` on the words of a vector of `dsize` bits. -/
def setWords (dsize adr size : Nat) (that words : List (BitVec 64)) : List (BitVec 64) × Bool :=
  if dsize ≤ 64 then setInWord adr size that words
  else if size ≤ 64 then setFromWord adr size that words
  else if adr % 64 = 0 then setAligned adr size that words
  else setSplit adr size that words

----
-- Lengths
----

theorem length_setAlignedLoop (that : List (BitVec 64)) :
    ∀ (rounds remain sptr dptr : Nat)
      (st : List (BitVec 64) × Bool),
      (setAlignedLoop that rounds remain sptr dptr st).1.length = st.1.length
| 0, _, _, _, _ => rfl
| rounds + 1, remain, sptr, dptr, st => by
    rw [setAlignedLoop]
    split_ifs
    · rw [length_setAlignedLoop]
      exact length_storeWord _ _ _
    · exact length_storeMasked _ _ _ _
    · rfl

theorem length_setSplitLoop (doff : Nat) (that : List (BitVec 64)) :
    ∀ (rounds remain sptr dptr : Nat)
      (st : List (BitVec 64) × Bool),
      (setSplitLoop doff that rounds remain sptr dptr st).1.length = st.1.length
| 0, _, _, _, _ => rfl
| rounds + 1, remain, sptr, dptr, st => by
    rw [setSplitLoop]
    split_ifs
    · rw [length_setSplitLoop]
      simp [andThen]
    · simp [andThen]
    · simp [andThen]
    · rfl

theorem length_setWords (dsize adr size : Nat) (that words : List (BitVec 64)) :
    (setWords dsize adr size that words).1.length = words.length := by
  unfold setWords
  split_ifs
  · exact length_storeMasked _ _ _ _
  · unfold setFromWord
    simp only
    split_ifs
    · simp [andThen]
    · exact length_storeMasked _ _ _ _
  · exact length_setAlignedLoop _ _ _ _ _ _
  · exact length_setSplitLoop _ _ _ _ _ _ _

----
-- Each Case Copies The Range
----

section Cases

variable {that words : List (BitVec 64)}

/- The bits of a word that a shift moves up. -/
theorem getLsbD_shiftUp {word : BitVec 64} {count off : Nat} (hOff : off < 64) :
    (word <<< count).getLsbD off = (decide (count ≤ off) && word.getLsbD (off - count)) := by
  rw [BitVec.getLsbD_shiftLeft, decide_eq_true hOff, Bool.true_and, ← decide_not]
  congr 1
  rw [decide_eq_decide]
  omega

/- A word that begins at an offset, up to the end of a word. -/
theorem copied_low {adr lo hi doff dptr sptr : Nat} {mask : BitVec 64}
    (hIn : dptr < words.length) (hDoff : doff < 64)
    (hLo : lo = 64 * dptr + doff) (hAdr : lo = adr + 64 * sptr) (hHi : hi ≤ 64 * dptr + 64)
    (hMask : ∀ off < 64, mask.getLsbD off = decide (lo ≤ 64 * dptr + off ∧ 64 * dptr + off < hi)) :
    Copied that adr words lo hi
      (storeMasked words dptr mask ((wordAt that sptr <<< doff) &&& mask)) := by
  apply copied_storeMasked hIn (by omega) hHi hMask
  intro off hOff
  rw [BitVec.getLsbD_and, getLsbD_shiftUp hOff, hMask off hOff, Bool.and_comm]
  by_cases hRange : lo ≤ 64 * dptr + off ∧ 64 * dptr + off < hi
  · have hPlace : 64 * dptr + off - adr = 64 * sptr + (off - doff) := by
      omega
    rw [decide_eq_true hRange, Bool.true_and, Bool.true_and, decide_eq_true (by omega : doff ≤ off),
      Bool.true_and, hPlace, bitAt_word that sptr (by omega)]
  · rw [decide_eq_false hRange, Bool.false_and, Bool.false_and]

/- The rest of a word, from the start of the next one. -/
theorem copied_high {adr lo hi ndoff dptr sptr : Nat} {mask : BitVec 64}
    (hIn : dptr < words.length) (hLo : lo = 64 * dptr)
    (hAdr : lo = adr + 64 * sptr + ndoff) (hHi : hi + ndoff ≤ 64 * dptr + 64)
    (hMask : ∀ off < 64, mask.getLsbD off = decide (lo ≤ 64 * dptr + off ∧ 64 * dptr + off < hi)) :
    Copied that adr words lo hi
      (storeMasked words dptr mask ((wordAt that sptr >>> ndoff) &&& mask)) := by
  apply copied_storeMasked hIn (by omega) (by omega) hMask
  intro off hOff
  rw [BitVec.getLsbD_and, BitVec.getLsbD_ushiftRight, hMask off hOff, Bool.and_comm]
  by_cases hRange : lo ≤ 64 * dptr + off ∧ 64 * dptr + off < hi
  · have hPlace : 64 * dptr + off - adr = 64 * sptr + (ndoff + off) := by
      omega
    rw [decide_eq_true hRange, Bool.true_and, Bool.true_and,
      hPlace, bitAt_word that sptr (by omega)]
  · rw [decide_eq_false hRange, Bool.false_and, Bool.false_and]

theorem copied_setInWord {adr size : Nat} (hIn : 0 < words.length) (hSize : 0 < size)
    (hEnd : adr + size ≤ 64) :
    Copied that adr words adr (adr + size) (setInWord adr size that words) := by
  apply copied_low hIn (by omega) (by omega) (by omega) (by omega)
  intro off hOff
  rw [getLsbD_rangeMask (by omega) hOff, Nat.zero_add]

theorem copied_setFromWord {adr size : Nat} (hIn : ∀ j < adr + size, j / 64 < words.length)
    (hPos : 0 < size) (hSize : size ≤ 64) :
    Copied that adr words adr (adr + size) (setFromWord adr size that words) := by
  have hDoff : adr % 64 < 64 := Nat.mod_lt adr (by decide)
  have hFirstWord := hIn adr (by omega)
  have hMask : ∀ off < 64,
      (rangeMask (adr % 64) (adr % 64 + size)).getLsbD off =
        decide (adr ≤ 64 * (adr / 64) + off ∧
          64 * (adr / 64) + off < min (adr + size) (64 * (adr / 64) + 64)) := by
    intro off hOff
    rw [getLsbD_rangeMask hDoff hOff, decide_eq_decide]
    omega
  have hFirst := @copied_low that words adr adr
    (min (adr + size) (64 * (adr / 64) + 64)) (adr % 64)
    (adr / 64) 0 _ hFirstWord hDoff (by omega) (by omega)
    (by omega) hMask
  unfold setFromWord
  simp only
  split_ifs with hTail
  · apply hFirst.trans (by omega) (by omega)
    apply copied_high
    · rw [hFirst.length]
      have hLastWord := hIn (64 * (adr / 64) + 64) (by omega)
      omega
    · omega
    · omega
    · omega
    · intro off hOff
      rw [getLsbD_lowMask (by omega), decide_eq_decide]
      omega
  · grind

theorem copied_setAlignedLoop {adr size : Nat} (hIn : ∀ j < adr + size, j / 64 < words.length)
    (hAligned : adr % 64 = 0) :
    ∀ {rounds remain sptr dptr : Nat}
      {st : List (BitVec 64) × Bool},
      remain < 64 * rounds →
      64 * sptr + remain = size →
      64 * dptr = adr + 64 * sptr →
      Copied that adr words adr (64 * dptr) st →
      Copied that adr words adr (adr + size) (setAlignedLoop that rounds remain sptr dptr st)
| 0, remain, _, _, _, hRounds, _, _, _ => by omega
| rounds + 1, remain, sptr, dptr, st, hRounds, hSize, hPlace,
    hDone => by
    have hLen := hDone.length
    rw [setAlignedLoop]
    split_ifs with hWhole hPart
    · apply copied_setAlignedLoop hIn hAligned (by omega) (by omega) (by omega)
      apply hDone.trans (by omega) (by omega)
      rw [storeWord_eq]
      have hWord := hIn (64 * dptr) (by omega)
      have hBits : ∀ off < 64,
          (BitVec.allOnes 64).getLsbD off =
            decide (64 * dptr ≤ 64 * dptr + off ∧
              64 * dptr + off < 64 * (dptr + 1)) := by
        intro off hOff
        rw [BitVec.getLsbD_allOnes, decide_eq_decide]
        omega
      apply copied_storeMasked (by omega) (by omega) (by omega) hBits
      intro off hOff
      have hSrc : 64 * dptr + off - adr = 64 * sptr + off := by omega
      rw [BitVec.getLsbD_allOnes, decide_eq_true hOff,
        Bool.true_and, hSrc, bitAt_word that sptr hOff]
    · apply hDone.trans (by omega) (by omega)
      have hWord := hIn (64 * dptr) (by omega)
      have hBits : ∀ off < 64, (lowMask remain).getLsbD off =
          decide (64 * dptr ≤ 64 * dptr + off ∧
            64 * dptr + off < adr + size) := by
        intro off hOff
        rw [getLsbD_lowMask (by omega), decide_eq_decide]
        omega
      apply copied_storeMasked (by omega) (by omega) (by omega) hBits
      intro off hOff
      rw [BitVec.getLsbD_and, Bool.and_comm]
      have hSrc : 64 * dptr + off - adr = 64 * sptr + off := by omega
      rw [hSrc, bitAt_word that sptr hOff]
    · have hEnd : 64 * dptr = adr + size := by omega
      rw [← hEnd]
      exact hDone

theorem copied_setSplitLoop {adr size : Nat} (hIn : ∀ j < adr + size, j / 64 < words.length)
    (hSplit : 0 < adr % 64) :
    ∀ {rounds remain sptr dptr : Nat}
      {st : List (BitVec 64) × Bool},
      remain < 64 * rounds →
      64 * sptr + remain = size →
      64 * dptr + adr % 64 = adr + 64 * sptr →
      Copied that adr words adr (64 * dptr + adr % 64) st →
      Copied that adr words adr (adr + size)
        (setSplitLoop (adr % 64) that rounds remain sptr dptr st)
| 0, remain, _, _, _, hRounds, _, _, _ => by omega
| rounds + 1, remain, sptr, dptr, st, hRounds, hSize, hPlace,
    hDone => by
    have hDoff : adr % 64 < 64 := Nat.mod_lt adr (by decide)
    have hLen := hDone.length
    rw [setSplitLoop]
    split_ifs with hWhole hPart hTail
    · apply copied_setSplitLoop hIn hSplit (by omega) (by omega) (by omega)
      have hWord := hIn (64 * dptr) (by omega)
      have hNext := hIn (64 * dptr + 64) (by omega)
      have hLow : Copied that adr words adr (64 * dptr + 64)
          (andThen st fun words =>
            storeMasked words dptr (~~~lowMask (adr % 64))
              ((wordAt that sptr <<< (adr % 64)) &&& ~~~lowMask (adr % 64))) := by
        apply hDone.trans (by omega) (by omega)
        apply copied_low (by omega) hDoff rfl (by omega) (by omega)
        intro off hOff
        rw [BitVec.getLsbD_not, getLsbD_lowMask hDoff, decide_eq_true hOff,
          Bool.true_and, ← decide_not, decide_eq_decide]
        omega
      apply hLow.trans (by omega) (by omega)
      have hLowLen := hLow.length
      apply copied_high (by omega) (by omega) (by omega) (by omega)
      intro off hOff
      rw [getLsbD_lowMask hDoff, decide_eq_decide]
      omega
    · have hNext := hIn (adr + size - 1) (by omega)
      have hLow : Copied that adr words adr (64 * dptr + 64)
          (andThen st fun words =>
            storeMasked words dptr
              (rangeMask (adr % 64) (adr % 64 + remain))
              ((wordAt that sptr <<< (adr % 64)) &&&
                rangeMask (adr % 64) (adr % 64 + remain))) := by
        apply hDone.trans (by omega) (by omega)
        apply copied_low (by omega) hDoff rfl (by omega) (by omega)
        intro off hOff
        rw [getLsbD_rangeMask hDoff hOff, decide_eq_decide]
        omega
      have hLowLen := hLow.length
      apply hLow.trans (by omega) (by omega)
      apply copied_high (by omega) (by omega) (by omega) (by omega)
      intro off hOff
      rw [getLsbD_highMask _ hOff, decide_eq_decide]
      omega
    · have hWord := hIn (64 * dptr + adr % 64) (by omega)
      apply hDone.trans (by omega) (by omega)
      apply copied_low (by omega) hDoff rfl (by omega) (by omega)
      intro off hOff
      rw [getLsbD_rangeMask hDoff hOff, decide_eq_decide]
      omega
    · have hEnd : 64 * dptr + adr % 64 = adr + size := by omega
      rw [← hEnd]
      exact hDone

end Cases

/- All four cases copy the bits of the range. -/
theorem copied_setWords {that words : List (BitVec 64)} {dsize adr size : Nat}
    (hWords : words.length = wordCount dsize) (hPos : 0 < size) (hEnd : adr + size ≤ dsize) :
    Copied that adr words adr (adr + size) (setWords dsize adr size that words) := by
  have hIn : ∀ j < adr + size, j / 64 < words.length := by
    intro j hJ
    rw [hWords]
    exact div_lt_wordCount (by omega)
  unfold setWords
  split_ifs with hShort hSmall hAligned
  · exact copied_setInWord (hIn 0 (by omega)) hPos (by omega)
  · exact copied_setFromWord hIn hPos hSmall
  · apply copied_setAlignedLoop hIn hAligned (by omega) (by omega) (by omega)
    have hStart : 64 * (adr / 64) = adr := by omega
    rw [hStart]
    exact Copied.none that adr words adr
  · apply copied_setSplitLoop hIn (by omega) (by omega) (by omega) (by omega)
    rw [Nat.div_add_mod]
    exact Copied.none that adr words adr

end PackedWords

----
-- Vectors
----

open PackedWords

namespace VvpVector4

/- `set_vec`: the vector and whether a bit of it has changed;
   none for a part that is not inside of the vector. -/
def setVec (v : VvpVector4) (adr : Nat) (that : VvpVector4) : Option (VvpVector4 × Bool) :=
  if adr + that.size_ ≤ v.size_ then
    let a := setWords v.size_ adr that.size_ that.abits v.abits
    let b := setWords v.size_ adr that.size_ that.bbits v.bbits
    some
      ({ size_ := v.size_
         abits := a.1
         bbits := b.1
         abits_length := by rw [length_setWords, v.abits_length]
         bbits_length := by
          rw [length_setWords, v.bbits_length] },
        a.2 || b.2)
  else none

/- Bits are different where their abits or their bbits are. -/
theorem ofBits_ne_iff (b a b' a' : Bool) :
    VvpBit4.ofBits b a ≠ VvpBit4.ofBits b' a' ↔
      a ≠ a' ∨ b ≠ b' := by
  cases b <;> cases a <;> cases b' <;> cases a' <;> decide

theorem setVec_spec {v that : VvpVector4} {adr : Nat} (hPos : 1 ≤ that.size_)
    (hIn : adr + that.size_ ≤ v.size_) :
    ∃ res diff_flag,
      v.setVec adr that = some (res, diff_flag) ∧
      res.size_ = v.size_ ∧
      (∀ idx < v.size_, res.value idx =
        if adr ≤ idx ∧ idx < adr + that.size_ then
          that.value (idx - adr)
        else v.value idx) ∧
      (diff_flag = true ↔
        ∃ idx < v.size_, res.value idx ≠ v.value idx) := by
  have hA := @copied_setWords that.abits _ v.size_ adr that.size_ v.abits_length hPos hIn
  have hB := @copied_setWords that.bbits _ v.size_ adr that.size_ v.bbits_length hPos hIn
  have hSome : v.setVec adr that = some (_, _) := if_pos hIn
  refine ⟨_, _, hSome, rfl, ?_, ?_⟩
  · intro idx hIdx
    rw [value_of_lt (by exact hIdx), value_of_lt hIdx]
    split_ifs with hRange
    · rw [value_of_lt (by omega)]
      rw [hA.inside idx hRange.1 hRange.2, hB.inside idx hRange.1 hRange.2]
    · rw [hA.outside idx hRange, hB.outside idx hRange]
  · rw [Bool.or_eq_true, hA.changed, hB.changed]
    constructor
    · rintro (⟨idx, hLo, hHi, hNe⟩ | ⟨idx, hLo, hHi, hNe⟩)
      · have hIdx : idx < v.size_ := by omega
        refine ⟨idx, hIdx, ?_⟩
        rw [value_of_lt (by exact hIdx), value_of_lt hIdx, ofBits_ne_iff]
        exact Or.inl hNe
      · have hIdx : idx < v.size_ := by omega
        refine ⟨idx, hIdx, ?_⟩
        rw [value_of_lt (by exact hIdx), value_of_lt hIdx, ofBits_ne_iff]
        exact Or.inr hNe
    · rintro ⟨idx, hIdx, hNe⟩
      rw [value_of_lt (by exact hIdx), value_of_lt hIdx, ofBits_ne_iff] at hNe
      have hRange : adr ≤ idx ∧ idx < adr + that.size_ := by
        by_contra hOut
        rcases hNe with hNe | hNe
        · exact hNe (hA.outside idx hOut)
        · exact hNe (hB.outside idx hOut)
      grind

/- The part has the bits of the other vector, the rest is as it
   was, and the flag tells whether a bit has changed. -/
theorem setVec_exact {v that : VvpVector4} {adr : Nat} (hPos : 1 ≤ that.size_)
    (hIn : adr + that.size_ ≤ v.size_) :
    ∃ res diff_flag,
      v.setVec adr that = some (res, diff_flag) ∧
      res.size_ = v.size_ ∧
      (∀ idx < v.size_, res.value idx =
        if adr ≤ idx ∧ idx < adr + that.size_ then
          that.value (idx - adr)
        else v.value idx) ∧
      (diff_flag = true ↔ ∃ idx < v.size_, res.value idx ≠ v.value idx) :=
  setVec_spec hPos hIn

/- Three bits across the border of two words. -/
theorem setVec_exact_border :
    ∃ res diff_flag,
      (fill 70 .x).setVec 63 (fill 3 .one) = some (res, diff_flag) ∧
      res.size_ = 70 ∧
      (∀ idx < 70, res.value idx =
        if 63 ≤ idx ∧ idx < 63 + 3 then
          (fill 3 .one).value (idx - 63)
        else (fill 70 .x).value idx) ∧
      (diff_flag = true ↔ ∃ idx < 70, res.value idx ≠ (fill 70 .x).value idx) :=
  setVec_exact (by decide) (by decide)

end VvpVector4

end EpicSim
