import EpicSim.Vvp.CopyBits

/-
  Reading a part of a vector: as a vector, where the bits past
  the end are X, and as packed words of its two-state bits,
  which are written back the same way.

  Where the source does the same to the abits and to the bbits
  it is a function of the words of one of them.
-/

namespace EpicSim

open BitVec (getLsbD_ushiftRight getLsbD_and getLsbD_shiftLeft getLsbD_or)

namespace PackedWords

----
-- Part Select
----

/- `while (trans < wid)`. -/
def subvalueLoop (wid off : Nat) (that : List (BitVec 64)) :
    Nat → Nat → Nat → Nat → List (BitVec 64) → List (BitVec 64)
| 0, _, _, _, words => words
| rounds + 1, moved, ptr, dst, words =>
  let noff := 64 - off
  let lmask := lowMask off
  if moved < wid then
    let words := words.set dst
      ((wordAt that ptr &&& ~~~lmask) >>> off)
    let moved := moved + noff
    if wid ≤ moved then words
    else if noff ≠ 64 then
      let words := words.set dst
        (wordAt words dst ||| ((wordAt that (ptr + 1) &&& lmask) <<< noff))
      subvalueLoop wid off that rounds (moved + off) (ptr + 1) (dst + 1) words
    else
      subvalueLoop wid off that rounds moved (ptr + 1) (dst + 1) words
  else words

/- A word of bits out of several words. -/
def subvalueWord (adr wid : Nat) (that : List (BitVec 64)) : BitVec 64 :=
  let ptr := adr / 64
  let off := adr % 64
  let trans := if wid < 64 - off then wid else 64 - off
  if trans = 64 then wordAt that ptr
  else
    let lmask := lowMask trans <<< off
    let word := (wordAt that ptr &&& lmask) >>> off
    if trans < wid then
      let hmask := lowMask (wid - trans)
      word ||| ((wordAt that (ptr + 1) &&& hmask) <<< trans)
    else word

/- The words of a part that is inside of a vector of
   `that_size` bits, put into the words of the result. -/
def subvalueWords (that_size adr wid : Nat) (that words : List (BitVec 64)) : List (BitVec 64) :=
  if 64 < wid then
    subvalueLoop wid (adr % 64) that (wid + 1) 0 (adr / 64) 0 words
  else if 64 < that_size then
    words.set 0 (subvalueWord adr wid that)
  else if wid = 64 then words.set 0 (wordAt that 0)
  else
    let mask := lowMask wid <<< adr
    words.set 0 ((wordAt that 0 &&& mask) >>> adr)

theorem length_subvalueLoop (wid off : Nat) (that : List (BitVec 64)) :
    ∀ (rounds moved ptr dst : Nat) (words : List (BitVec 64)),
      (subvalueLoop wid off that rounds moved ptr dst words).length = words.length
| 0, _, _, _, _ => rfl
| rounds + 1, moved, ptr, dst, words => by
    rw [subvalueLoop]
    by_cases hMore : moved < wid
    · simp only [if_pos hMore]
      split_ifs
      · exact List.length_set
      · rw [length_subvalueLoop, List.length_set, List.length_set]
      · rw [length_subvalueLoop, List.length_set]
    · simp only [if_neg hMore]

theorem length_subvalueWords (that_size adr wid : Nat) (that words : List (BitVec 64)) :
    (subvalueWords that_size adr wid that words).length = words.length := by
  unfold subvalueWords
  split_ifs <;>
    simp only [length_subvalueLoop, List.length_set]

/- The bits of a word from an offset on. -/
theorem getLsbD_shiftDown (words : List (BitVec 64)) {adr off : Nat} (hOff : adr % 64 + off < 64) :
    (wordAt words (adr / 64) >>> (adr % 64)).getLsbD off = bitAt words (adr + off) := by
  have hPlace : adr + off = 64 * (adr / 64) + (adr % 64 + off) := by omega
  rw [getLsbD_ushiftRight, hPlace, bitAt_word _ _ hOff]

/- The low bits of a word of the result. -/
theorem getLsbD_lowPart (that : List (BitVec 64)) (adr off : Nat) :
    ((wordAt that (adr / 64) &&& ~~~(lowMask (adr % 64))) >>> (adr % 64)).getLsbD off =
      (decide (off < 64 - adr % 64) && bitAt that (adr + off)) := by
  have hMod : adr % 64 < 64 := Nat.mod_lt adr (by decide)
  by_cases hFits : adr % 64 + off < 64
  · have hBit := @getLsbD_shiftDown that adr off hFits
    rw [decide_eq_true (by omega : off < 64 - adr % 64), ← hBit, getLsbD_ushiftRight, getLsbD_and,
      BitVec.getLsbD_not, getLsbD_lowMask hMod, decide_eq_true hFits]
    simp
  · grind

/- The high bits of a word of the result, from the next word. -/
theorem getLsbD_highPart (that : List (BitVec 64)) {adr off : Nat} (hOff : off < 64) :
    ((wordAt that (adr / 64 + 1) &&& lowMask (adr % 64)) <<< (64 - adr % 64)).getLsbD off =
      (decide (64 - adr % 64 ≤ off) && bitAt that (adr + off)) := by
  have hMod : adr % 64 < 64 := Nat.mod_lt adr (by decide)
  rw [getLsbD_shiftLeft, decide_eq_true hOff, Bool.true_and,
    getLsbD_and, getLsbD_lowMask hMod, ← decide_not]
  by_cases hHigh : 64 - adr % 64 ≤ off
  · have hPlace : adr + off = 64 * (adr / 64 + 1) + (off - (64 - adr % 64)) := by
      omega
    rw [decide_eq_true (by omega), decide_eq_true (by omega), decide_eq_true hHigh,
      Bool.true_and, Bool.true_and, Bool.and_true, hPlace, bitAt_word _ _ (by omega)]
  · rw [decide_eq_false (by omega), decide_eq_false hHigh, Bool.false_and, Bool.false_and]

theorem subvalueLoop_spec {wid adr : Nat} {that words : List (BitVec 64)}
    (hWords : ∀ i < wid, i / 64 < words.length) :
    ∀ {rounds dst : Nat} {st : List (BitVec 64)},
      wid < 64 * dst + 64 * rounds →
      st.length = words.length →
      (∀ i < 64 * dst, bitAt st i = bitAt that (adr + i)) →
      ∀ i < wid,
        bitAt (subvalueLoop wid (adr % 64) that rounds (64 * dst)
          (adr / 64 + dst) dst st) i = bitAt that (adr + i)
| 0, dst, st, hRounds, _, hDone, i, hI => hDone i (by omega)
| rounds + 1, dst, st, hRounds, hLen, hDone, i, hI => by
    have hMod : adr % 64 < 64 := Nat.mod_lt adr (by decide)
    rw [subvalueLoop]
    by_cases hMore : 64 * dst < wid
    · have hIn := hWords (64 * dst) hMore
      have hDst : dst < st.length := by omega
      have hPtr : (adr + 64 * dst) / 64 = adr / 64 + dst := by omega
      have hSame : (adr + 64 * dst) % 64 = adr % 64 := by omega
      have hLow := fun off => @getLsbD_lowPart that (adr + 64 * dst) off
      have hHigh := fun off => @getLsbD_highPart that (adr + 64 * dst) off
      simp only [hPtr, hSame] at hLow hHigh
      have hPlace : ∀ j, j / 64 = dst →
          adr + 64 * dst + j % 64 = adr + j := by
        intro j hJ
        omega
      rw [if_pos hMore]
      by_cases hEnd : wid ≤ 64 * dst + (64 - adr % 64)
      · rw [if_pos hEnd, bitAt_set hDst]
        by_cases hHere : i / 64 = dst
        · rw [if_pos hHere, hLow _,
            decide_eq_true (by omega), Bool.true_and, hPlace i hHere]
        · rw [if_neg hHere]
          exact hDone i (by omega)
      · rw [if_neg hEnd]
        by_cases hSplit : 64 - adr % 64 ≠ 64
        · have hTrans : 64 * dst + (64 - adr % 64) + adr % 64 = 64 * (dst + 1) := by
            omega
          simp only [if_pos hSplit, hTrans]
          apply subvalueLoop_spec hWords (by omega)
            (by rw [List.length_set, List.length_set, hLen]) _ i hI
          intro j hJ
          rw [bitAt_set (by rw [List.length_set]; exact hDst)]
          by_cases hHere : j / 64 = dst
          · have hOff : j % 64 < 64 := Nat.mod_lt j (by decide)
            have hWord : wordAt (st.set dst
                ((wordAt that (adr / 64 + dst) &&& ~~~(lowMask (adr % 64))) >>> (adr % 64))) dst =
                (wordAt that (adr / 64 + dst) &&& ~~~(lowMask (adr % 64))) >>> (adr % 64) := by
              unfold wordAt
              rw [List.getD_eq_getElem?_getD, List.getElem?_set_self hDst, Option.getD_some]
            rw [if_pos hHere, hWord, getLsbD_or, hLow _, hHigh _ hOff, hPlace j hHere]
            by_cases hPart : j % 64 < 64 - adr % 64
            · rw [decide_eq_true hPart, decide_eq_false (by omega),
                Bool.true_and, Bool.false_and, Bool.or_false]
            · rw [decide_eq_false hPart, decide_eq_true (by omega),
                Bool.true_and, Bool.false_and, Bool.false_or]
          · rw [if_neg hHere, bitAt_set hDst, if_neg hHere]
            exact hDone j (by omega)
        · have hTrans : 64 * dst + (64 - adr % 64) = 64 * (dst + 1) := by
            omega
          simp only [if_neg hSplit, hTrans]
          apply subvalueLoop_spec hWords (by omega) (by rw [List.length_set, hLen]) _ i hI
          intro j hJ
          rw [bitAt_set hDst]
          by_cases hHere : j / 64 = dst
          · rw [if_pos hHere, hLow _,
              decide_eq_true (by omega), Bool.true_and, hPlace j hHere]
          · rw [if_neg hHere]
            exact hDone j (by omega)
    · rw [if_neg hMore]
      exact hDone i (by omega)

/- The lowest bits of a word of the result. -/
theorem getLsbD_subvalueWord {that : List (BitVec 64)} {adr wid : Nat} (hWid : wid ≤ 64) {off : Nat}
    (hOff : off < wid) : (subvalueWord adr wid that).getLsbD off = bitAt that (adr + off) := by
  unfold subvalueWord
  simp only
  have hTrans : (if wid < 64 - adr % 64 then wid
      else 64 - adr % 64) = min wid (64 - adr % 64) := by
    split_ifs <;> omega
  rw [hTrans]
  by_cases hFull : min wid (64 - adr % 64) = 64
  · have hPlace : adr + off = 64 * (adr / 64) + off := by omega
    rw [if_pos hFull, hPlace, bitAt_word _ _ (by omega)]
  · have hTransLt : min wid (64 - adr % 64) < 64 := by omega
    have hLow : ((wordAt that (adr / 64) &&&
          lowMask (min wid (64 - adr % 64)) <<< (adr % 64)) >>> (adr % 64)).getLsbD off =
        (decide (off < min wid (64 - adr % 64)) && bitAt that (adr + off)) := by
      rw [getLsbD_ushiftRight, getLsbD_and, getLsbD_shiftLeft,
        Nat.add_sub_cancel_left, getLsbD_lowMask hTransLt]
      by_cases hPart : off < min wid (64 - adr % 64)
      · have hPlace : adr + off = 64 * (adr / 64) + (adr % 64 + off) := by
          omega
        rw [decide_eq_true hPart, decide_eq_true (by omega), hPlace, bitAt_word _ _ (by omega)]
        simp
      · rw [decide_eq_false hPart, Bool.and_false, Bool.and_false, Bool.false_and]
    rw [if_neg hFull]
    by_cases hMore : min wid (64 - adr % 64) < wid
    · have hCut : min wid (64 - adr % 64) = 64 - adr % 64 := by
        omega
      rw [if_pos hMore, getLsbD_or, hLow, hCut, getLsbD_shiftLeft, getLsbD_and,
        getLsbD_lowMask (by omega), decide_eq_true (by omega : off < 64), Bool.true_and]
      by_cases hHigh : off < 64 - adr % 64
      · rw [decide_eq_true hHigh, Bool.not_true, Bool.true_and, Bool.false_and, Bool.or_false]
      · have hPlace : adr + off = 64 * (adr / 64 + 1) + (off - (64 - adr % 64)) := by
          omega
        have hLast : off - (64 - adr % 64) < wid - (64 - adr % 64) := by omega
        rw [decide_eq_false hHigh, decide_eq_true hLast, Bool.not_false, Bool.false_and,
          Bool.false_or, Bool.true_and, Bool.and_true, hPlace, bitAt_word _ _ (by omega)]
    · rw [if_neg hMore, hLow, decide_eq_true (by omega), Bool.true_and]

/- A part inside of a vector has its bits. -/
theorem bitAt_subvalueWords {that_size adr wid : Nat} {that words : List (BitVec 64)}
    (hWords : words.length = wordCount wid) (hIn : adr + wid ≤ that_size) {i : Nat} (hI : i < wid) :
    bitAt (subvalueWords that_size adr wid that words) i = bitAt that (adr + i) := by
  have hLen : ∀ j < wid, j / 64 < words.length := by
    intro j hJ
    rw [hWords]
    exact div_lt_wordCount hJ
  have hFirst : 0 < words.length := hLen 0 (by omega)
  unfold subvalueWords
  by_cases hLong : 64 < wid
  · rw [if_pos hLong]
    exact @subvalueLoop_spec wid adr that words hLen (wid + 1) 0
      words (by omega) rfl
      (fun j hJ => absurd hJ (Nat.not_lt_zero j)) i hI
  · have hZero : i / 64 = 0 := Nat.div_eq_of_lt (by omega)
    have hMod : i % 64 = i := Nat.mod_eq_of_lt (by omega)
    rw [if_neg hLong]
    by_cases hThat : 64 < that_size
    · rw [if_pos hThat, bitAt_set hFirst, if_pos hZero, hMod]
      exact getLsbD_subvalueWord (by omega) hI
    · rw [if_neg hThat]
      by_cases hFull : wid = 64
      · have hAdr : adr + i = 64 * 0 + i := by omega
        rw [if_pos hFull, bitAt_set hFirst, if_pos hZero, hMod, hAdr, bitAt_word that 0 (by omega)]
      · have hAdr : adr + i = 64 * 0 + (adr + i) := by omega
        rw [if_neg hFull, bitAt_set hFirst, if_pos hZero, hMod, getLsbD_ushiftRight, getLsbD_and,
          getLsbD_shiftLeft, Nat.add_sub_cancel_left, getLsbD_lowMask (by omega),
          decide_eq_true (by omega), decide_eq_true hI]
        conv_rhs => rw [hAdr, bitAt_word that 0 (by omega)]
        simp

end PackedWords

----
-- Part Select Of Vectors
----

open PackedWords

namespace VvpVector4

/- Writing the first bits leaves the others. -/
theorem setBits_above (v : VvpVector4) (bit : Nat → VvpBit4) {n idx : Nat} (hAbove : n ≤ idx)
    (hIdx : idx < v.size_) :
    ((List.range n).foldl (fun vec i => vec.setBit i (bit i)) v).value idx = v.value idx := by
  induction n with
  | zero => rfl
  | succ n ih =>
    have hSize := (setBits_spec v bit (by omega : n ≤ v.size_)).1
    rw [List.range_succ, List.foldl_append, List.foldl_cons, List.foldl_nil,
      value_setBit (by omega) _ (by omega), if_neg (by omega)]
    exact ih (by omega)

/- The constructor for a part of another vector; none where the
   number of words wraps, so that the bits have no place. -/
def subvalue (that : VvpVector4) (adr wid : Nat) : Option VvpVector4 :=
  if 64 < wid ∧ (wid + 63) % 2 ^ 32 / 64 ≠ (wid + 63) / 64 then none
  else
    let res := fill wid .x
    if that.size_ ≤ adr then some res
    else if that.size_ < (adr + wid) % 2 ^ 32 then
      let use_wid := that.size_ - adr
      some ((List.range use_wid).foldl (fun res idx => res.setBit idx (that.value (adr + idx))) res)
    else
      some
        { size_ := wid
          abits := subvalueWords that.size_ adr wid that.abits res.abits
          bbits := subvalueWords that.size_ adr wid that.bbits res.bbits
          abits_length := by
            rw [length_subvalueWords]
            exact res.abits_length
          bbits_length := by
            rw [length_subvalueWords]
            exact res.bbits_length }

/- The part has the bits of the vector, and X past its end. -/
def SelectsRight (that : VvpVector4) (adr wid : Nat) : Prop :=
  ∃ res, that.subvalue adr wid = some res ∧ res.size_ = wid ∧
    ∀ idx < wid, res.value idx =
      if adr + idx < that.size_ then that.value (adr + idx) else .x

theorem selectsRight_iff (that : VvpVector4) {adr wid : Nat} (hSum : adr + wid < 2 ^ 32) :
    SelectsRight that adr wid ↔ wid + 63 < 2 ^ 32 := by
  constructor
  · rintro ⟨res, hSome, _⟩
    by_contra hWrap
    have hNone : that.subvalue adr wid = none := if_pos ⟨by omega, by omega⟩
    rw [hNone] at hSome
    cases hSome
  · intro hFits
    have hCount : ¬ (64 < wid ∧
        (wid + 63) % 2 ^ 32 / 64 ≠ (wid + 63) / 64) := by
      rw [Nat.mod_eq_of_lt hFits]
      exact fun h => h.2 rfl
    unfold SelectsRight subvalue
    simp only [if_neg hCount, Nat.mod_eq_of_lt hSum]
    by_cases hPast : that.size_ ≤ adr
    · refine ⟨_, if_pos hPast, rfl, fun idx hIdx => ?_⟩
      rw [value_fill hIdx, if_neg (by omega)]
    · by_cases hOver : that.size_ < adr + wid
      · rcases setBits_spec (fill wid .x)
          (fun idx => that.value (adr + idx))
          (by
            show that.size_ - adr ≤ wid
            omega) with ⟨hSize, hBits⟩
        refine ⟨_, (if_neg hPast).trans (if_pos hOver), hSize, ?_⟩
        intro idx hIdx
        by_cases hIn : adr + idx < that.size_
        · rw [if_pos hIn]
          exact hBits idx (by omega)
        · rw [if_neg hIn, setBits_above (fill wid .x)
            (fun i => that.value (adr + i)) (by omega) hIdx]
          exact value_fill hIdx .x
      · refine ⟨_, (if_neg hPast).trans (if_neg hOver), rfl, ?_⟩
        intro idx hIdx
        have hIn : adr + idx < that.size_ := by omega
        rw [if_pos hIn, value_of_lt (by exact hIdx), value_of_lt hIn]
        have hWhole : adr + wid ≤ that.size_ := by omega
        have hA : (fill wid .x).abits.length = wordCount wid := (fill wid .x).abits_length
        have hB : (fill wid .x).bbits.length = wordCount wid := (fill wid .x).bbits_length
        rw [bitAt_subvalueWords hA hWhole hIdx, bitAt_subvalueWords hB hWhole hIdx]

end VvpVector4

end EpicSim
