import EpicSim.Vvp.Vector4

/-
  Masked stores into an array of words.

  A store replaces the bits of one word that a mask selects.
  Stores whose ranges of bits follow each other copy the whole
  range, and report a change if one of them does.
-/

namespace EpicSim

namespace PackedWords

----
-- Masks
----

/- The mask of the bits from `lo` up to `hi`, of which `hi` may
   be past the word. -/
def rangeMask (lo hi : Nat) : BitVec 64 :=
  (if 64 ≤ hi then BitVec.allOnes 64 else lowMask hi) &&& ~~~(lowMask lo)

theorem getLsbD_highMask (hi : Nat) {off : Nat} (hOff : off < 64) :
    (if 64 ≤ hi then BitVec.allOnes 64
      else lowMask hi).getLsbD off = decide (off < hi) := by
  split_ifs with hFull
  · rw [BitVec.getLsbD_allOnes, decide_eq_true hOff, decide_eq_true (by omega)]
  · exact getLsbD_lowMask (Nat.not_le.mp hFull) off

theorem getLsbD_rangeMask {lo hi off : Nat} (hLo : lo < 64) (hOff : off < 64) :
    (rangeMask lo hi).getLsbD off =
      decide (lo ≤ off ∧ off < hi) := by
  unfold rangeMask
  rw [BitVec.getLsbD_and, getLsbD_highMask hi hOff, BitVec.getLsbD_not, getLsbD_lowMask hLo,
    decide_eq_true hOff, Bool.true_and, ← decide_not, ← Bool.decide_and, decide_eq_decide]
  omega

/- The ones from a place on, `-1UL << count`. -/
theorem getLsbD_allOnes_shiftLeft {count off : Nat} (hOff : off < 64) :
    (BitVec.allOnes 64 <<< count).getLsbD off =
      decide (count ≤ off) := by
  rw [BitVec.getLsbD_shiftLeft, BitVec.getLsbD_allOnes, decide_eq_true hOff, Bool.true_and,
    decide_eq_true (by omega : off - count < 64), Bool.and_true, ← decide_not, decide_eq_decide]
  omega

----
-- One Word
----

theorem bitAt_set {words : List (BitVec 64)} {wdx : Nat}
    (hLt : wdx < words.length) (word : BitVec 64) (j : Nat) :
    bitAt (words.set wdx word) j =
      if j / 64 = wdx then word.getLsbD (j % 64)
      else bitAt words j := by
  unfold bitAt wordAt
  rw [List.getD_eq_getElem?_getD, List.getD_eq_getElem?_getD]
  split_ifs with hSame
  · rw [hSame, List.getElem?_set_self hLt, Option.getD_some]
  · rw [List.getElem?_set_ne (Ne.symm hSame)]

/- Words are the same where their bits are. -/
theorem word_ext {x y : BitVec 64} (hBits : ∀ off < 64, x.getLsbD off = y.getLsbD off) : x = y :=
  BitVec.eq_of_getLsbD_eq hBits

/- Store the bits that a mask selects, if they differ. -/
def storeMasked (words : List (BitVec 64)) (dptr : Nat)
    (mask tmp : BitVec 64) : List (BitVec 64) × Bool :=
  if wordAt words dptr &&& mask ≠ tmp then
    (words.set dptr ((wordAt words dptr &&& ~~~mask) ||| tmp), true)
  else (words, false)

/- Store a word, if it differs. -/
def storeWord (words : List (BitVec 64)) (dptr : Nat)
    (word : BitVec 64) : List (BitVec 64) × Bool :=
  if wordAt words dptr ≠ word then (words.set dptr word, true)
  else (words, false)

/- One store after others. -/
def andThen (st : List (BitVec 64) × Bool) (store : List (BitVec 64) → List (BitVec 64) × Bool) :
    List (BitVec 64) × Bool :=
  ((store st.1).1, st.2 || (store st.1).2)

@[simp] theorem length_storeMasked (words : List (BitVec 64)) (dptr : Nat) (mask tmp : BitVec 64) :
    (storeMasked words dptr mask tmp).1.length = words.length := by
  unfold storeMasked
  split_ifs
  · exact List.length_set
  · rfl

theorem storeWord_eq (words : List (BitVec 64)) (dptr : Nat) (word : BitVec 64) :
    storeWord words dptr word = storeMasked words dptr (BitVec.allOnes 64) word := by
  unfold storeWord storeMasked
  rw [BitVec.and_allOnes, BitVec.not_allOnes, BitVec.and_zero, BitVec.zero_or]

@[simp] theorem length_storeWord (words : List (BitVec 64)) (dptr : Nat) (word : BitVec 64) :
    (storeWord words dptr word).1.length = words.length := by
  rw [storeWord_eq, length_storeMasked]

----
-- Ranges
----

/- The bits from `lo` up to `hi` are those of `src` from
   `lo - adr` on, and the flag tells whether one has changed. -/
structure Copied (src : List (BitVec 64)) (adr : Nat) (dst : List (BitVec 64)) (lo hi : Nat)
    (res : List (BitVec 64) × Bool) : Prop where
  length : res.1.length = dst.length
  inside : ∀ j, lo ≤ j → j < hi → bitAt res.1 j = bitAt src (j - adr)
  outside : ∀ j, ¬ (lo ≤ j ∧ j < hi) → bitAt res.1 j = bitAt dst j
  changed : res.2 = true ↔ ∃ j, lo ≤ j ∧ j < hi ∧ bitAt res.1 j ≠ bitAt dst j

/- Nothing is copied. -/
theorem Copied.none (src : List (BitVec 64)) (adr : Nat) (dst : List (BitVec 64)) (lo : Nat) :
    Copied src adr dst lo lo (dst, false) := by
  constructor
  · rfl
  · intro j hLo hHi
    omega
  · intro j _
    rfl
  · simp

/- Ranges that follow each other are one range. -/
theorem Copied.trans {src dst : List (BitVec 64)} {adr lo mid hi : Nat}
    {st : List (BitVec 64) × Bool} {store : List (BitVec 64) → List (BitVec 64) × Bool}
    (hLo : lo ≤ mid) (hHi : mid ≤ hi) (hFirst : Copied src adr dst lo mid st)
    (hSecond : Copied src adr st.1 mid hi (store st.1)) :
    Copied src adr dst lo hi (andThen st store) := by
  unfold andThen
  constructor
  · rw [hSecond.length, hFirst.length]
  · intro j hFrom hTo
    by_cases hMid : mid ≤ j
    · exact hSecond.inside j hMid hTo
    · rw [hSecond.outside j (by omega)]
      exact hFirst.inside j hFrom (by omega)
  · intro j hOut
    rw [hSecond.outside j (by omega), hFirst.outside j (by omega)]
  · simp only [Bool.or_eq_true]
    rw [hFirst.changed, hSecond.changed]
    constructor
    · rintro (⟨j, hFrom, hTo, hNe⟩ | ⟨j, hFrom, hTo, hNe⟩)
      · refine ⟨j, hFrom, by omega, ?_⟩
        rw [hSecond.outside j (by omega)]
        exact hNe
      · refine ⟨j, by omega, hTo, ?_⟩
        rw [← hFirst.outside j (by omega)]
        exact hNe
    · rintro ⟨j, hFrom, hTo, hNe⟩
      by_cases hMid : mid ≤ j
      · refine Or.inr ⟨j, hMid, hTo, ?_⟩
        rw [hFirst.outside j (by omega)]
        exact hNe
      · refine Or.inl ⟨j, hFrom, by omega, ?_⟩
        rw [← hSecond.outside j (by omega)]
        exact hNe

/- A masked store copies a range inside of one word. -/
theorem copied_storeMasked {src dst : List (BitVec 64)} {adr lo hi dptr : Nat}
    {mask tmp : BitVec 64} (hIn : dptr < dst.length)
    (hLo : 64 * dptr ≤ lo) (hHi : hi ≤ 64 * dptr + 64)
    (hMask : ∀ off < 64, mask.getLsbD off = decide (lo ≤ 64 * dptr + off ∧ 64 * dptr + off < hi))
    (hTmp : ∀ off < 64, tmp.getLsbD off = (mask.getLsbD off && bitAt src (64 * dptr + off - adr))) :
    Copied src adr dst lo hi (storeMasked dst dptr mask tmp) := by
  have hSplit : ∀ j, j / 64 = dptr → 64 * dptr + j % 64 = j := by
    intro j hWord
    omega
  by_cases hSame : wordAt dst dptr &&& mask = tmp
  · have hBits : ∀ j, lo ≤ j → j < hi →
        bitAt dst j = bitAt src (j - adr) := by
      intro j hFrom hTo
      have hOff : j % 64 < 64 := Nat.mod_lt j (by decide)
      have hWord : j / 64 = dptr := by omega
      have hAt := hSplit j hWord
      have hBit := congrArg (fun w => w.getLsbD (j % 64)) hSame
      rw [BitVec.getLsbD_and, hTmp _ hOff, hMask _ hOff, hAt,
        decide_eq_true ⟨hFrom, hTo⟩, Bool.and_true, Bool.true_and] at hBit
      rw [← hBit, ← hWord]
      rfl
    have hStore : storeMasked dst dptr mask tmp = (dst, false) := by
      unfold storeMasked
      rw [if_neg (not_not.mpr hSame)]
    rw [hStore]
    constructor
    · rfl
    · exact hBits
    · intro j _
      rfl
    · simp
  · have hStore : storeMasked dst dptr mask tmp =
        (dst.set dptr ((wordAt dst dptr &&& ~~~mask) ||| tmp),
          true) := by
      unfold storeMasked
      rw [if_pos hSame]
    have hWordBit : ∀ off < 64,
        ((wordAt dst dptr &&& ~~~mask) ||| tmp).getLsbD off =
          if lo ≤ 64 * dptr + off ∧ 64 * dptr + off < hi then
            bitAt src (64 * dptr + off - adr)
          else (wordAt dst dptr).getLsbD off := by grind
    have hInside : ∀ j, lo ≤ j → j < hi →
        bitAt (dst.set dptr ((wordAt dst dptr &&& ~~~mask) ||| tmp)) j = bitAt src (j - adr) := by
      intro j hFrom hTo
      have hWord : j / 64 = dptr := by omega
      have hAt := hSplit j hWord
      rw [bitAt_set hIn, if_pos hWord,
        hWordBit _ (Nat.mod_lt j (by decide)), hAt, if_pos ⟨hFrom, hTo⟩]
    rw [hStore]
    constructor
    · exact List.length_set
    · exact hInside
    · intro j hOut
      rw [bitAt_set hIn]
      split_ifs with hWord
      · rw [hWordBit _ (Nat.mod_lt j (by decide)), hSplit j hWord, if_neg hOut, ← hWord]
        rfl
      · rfl
    · refine ⟨fun _ => ?_, fun _ => rfl⟩
      by_contra hNone
      apply hSame
      apply word_ext
      intro off hOff
      rw [BitVec.getLsbD_and, hTmp off hOff, hMask off hOff]
      by_cases hRange : lo ≤ 64 * dptr + off ∧ 64 * dptr + off < hi
      · rw [decide_eq_true hRange, Bool.and_true, ← bitAt_word dst dptr hOff]
        grind
      · rw [decide_eq_false hRange, Bool.and_false, Bool.false_and]

end PackedWords

end EpicSim
