import EpicSim.Vvp.PackedStore

/-
  Copying the bits of another vector, and changing the size.

  The source does the same to the abits and to the bbits: here
  it is a function of the words of one of them.  Sizes are
  32-bit numbers, and so is the sum that counts the words.
-/

namespace EpicSim

open BitVec (allOnes getLsbD_or getLsbD_and getLsbD_not getLsbD_zero)

namespace PackedWords

----
-- Copying
----

/- `while (bits_to_copy >= BITS_PER_WORD)` on whole words, and
   the bits that are left. -/
def copyLoop (that : List (BitVec 64)) : Nat → Nat → Nat → List (BitVec 64) → List (BitVec 64)
| 0, _, _, words => words
| rounds + 1, bits_to_copy, word, words =>
  if 64 ≤ bits_to_copy then
    copyLoop that rounds (bits_to_copy - 64) (word + 1) (words.set word (wordAt that word))
  else if 0 < bits_to_copy then
    let mask := lowMask bits_to_copy
    words.set word ((wordAt words word &&& ~~~mask) ||| (wordAt that word &&& mask))
  else words

/- `copy_bits` on the words of vectors of these sizes. -/
def copyWords (size that_size : Nat) (that words : List (BitVec 64)) : List (BitVec 64) :=
  if size = that_size then
    if 64 < size then build size (wordAt that)
    else words.set 0 (wordAt that 0)
  else if size ≤ 64 ∧ that_size ≤ 64 then
    let bits_to_copy := if that_size < size then that_size else size
    let mask := lowMask bits_to_copy
    words.set 0 ((wordAt words 0 &&& ~~~mask) ||| (wordAt that 0 &&& mask))
  else if size ≤ 64 then
    let word := wordAt that 0
    words.set 0 (if size < 64 then word &&& lowMask size else word)
  else if that_size ≤ 64 then
    if that_size < 64 then
      let mask := lowMask that_size
      words.set 0 ((wordAt words 0 &&& ~~~mask) ||| (wordAt that 0 &&& mask))
    else
      -- The word of the destination is not cleared here.
      let mask := allOnes 64
      words.set 0 (wordAt words 0 ||| (wordAt that 0 &&& mask))
  else
    let bits_to_copy := if that_size < size then that_size else size
    copyLoop that (bits_to_copy + 1) bits_to_copy 0 words

theorem length_copyLoop (that : List (BitVec 64)) :
    ∀ (rounds bits_to_copy word : Nat) (words : List (BitVec 64)),
      (copyLoop that rounds bits_to_copy word words).length = words.length
| 0, _, _, _ => rfl
| rounds + 1, bits_to_copy, word, words => by
    rw [copyLoop]
    split_ifs
    · rw [length_copyLoop, List.length_set]
    · exact List.length_set
    · rfl

variable {size newsize : Nat} {words : List (BitVec 64)}

variable {words that : List (BitVec 64)} {off i : Nat}

theorem length_copyWords (that_size : Nat) (that : List (BitVec 64))
    (hWords : words.length = wordCount size) :
    (copyWords size that_size that words).length = wordCount size := by
  unfold copyWords
  split_ifs <;>
    simp only [build_length, List.length_set, length_copyLoop, hWords]

/- The bits of two words under a mask of the lowest ones. -/
theorem getLsbD_blend (old word : BitVec 64) {count : Nat} (hCount : count < 64)
    (hOff : off < 64) :
    ((old &&& ~~~(lowMask count)) ||| (word &&& lowMask count)).getLsbD off =
      if off < count then word.getLsbD off else old.getLsbD off := by
  rw [getLsbD_or, getLsbD_and, getLsbD_and, getLsbD_not,
    getLsbD_lowMask hCount, decide_eq_true hOff]
  split_ifs with hLow
  · simp [hLow]
  · simp [hLow]

/- The first bits are those of `that`, the others of `words`. -/
structure CopiedTo (that words : List (BitVec 64)) (n : Nat) (res : List (BitVec 64)) : Prop where
  length : res.length = words.length
  bits : ∀ i, bitAt res i =
    if i < n then bitAt that i else bitAt words i

/- A whole word more. -/
theorem CopiedTo.whole {st : List (BitVec 64)} {word : Nat}
    (hDone : CopiedTo that words (64 * word) st) (hIn : word < words.length) :
    CopiedTo that words (64 * (word + 1)) (st.set word (wordAt that word)) := by
  have hLen := hDone.length
  constructor
  · rw [List.length_set, hLen]
  · intro i
    rw [bitAt_set (by omega), hDone.bits]
    by_cases hWord : i / 64 = word
    · rw [if_pos hWord, if_pos (by omega), ← hWord]
      rfl
    · grind

/- The lowest bits of a word more. -/
theorem CopiedTo.part {st : List (BitVec 64)} {word count : Nat}
    (hDone : CopiedTo that words (64 * word) st) (hIn : word < words.length) (hCount : count < 64) :
    CopiedTo that words (64 * word + count)
      (st.set word
        ((wordAt st word &&& ~~~(lowMask count)) ||| (wordAt that word &&& lowMask count))) := by
  have hLen := hDone.length
  constructor
  · rw [List.length_set, hLen]
  · intro i
    have hOff : i % 64 < 64 := Nat.mod_lt i (by decide)
    rw [bitAt_set (by omega)]
    by_cases hWord : i / 64 = word
    · rw [if_pos hWord, getLsbD_blend _ _ hCount hOff]
      by_cases hLow : i % 64 < count
      · rw [if_pos hLow, if_pos (by omega), ← hWord]
        rfl
      · have hOld := hDone.bits i
        rw [if_neg (by omega)] at hOld
        rw [if_neg hLow, if_neg (by omega), ← hOld, ← hWord]
        rfl
    · rw [if_neg hWord, hDone.bits]
      grind

theorem CopiedTo.none (that words : List (BitVec 64)) : CopiedTo that words 0 words :=
  ⟨rfl, fun i => by rw [if_neg (Nat.not_lt_zero i)]⟩

theorem copyLoop_spec {that words : List (BitVec 64)} :
    ∀ {rounds bits_to_copy word : Nat} {st : List (BitVec 64)},
      bits_to_copy < 64 * rounds →
      (∀ i < 64 * word + bits_to_copy, i / 64 < words.length) →
      CopiedTo that words (64 * word) st →
      CopiedTo that words (64 * word + bits_to_copy) (copyLoop that rounds bits_to_copy word st)
| 0, _, _, _, hRounds, _, _ => by omega
| rounds + 1, bits_to_copy, word, st, hRounds, hIn, hDone => by
    rw [copyLoop]
    split_ifs with hWhole hPart
    · have hWord := hIn (64 * word) (by omega)
      have hSum : 64 * (word + 1) + (bits_to_copy - 64) = 64 * word + bits_to_copy := by omega
      have hNext := @copyLoop_spec that words rounds
        (bits_to_copy - 64) (word + 1) _ (by omega)
        (by rw [hSum]; exact hIn) (hDone.whole (by omega))
      rw [hSum] at hNext
      exact hNext
    · have hWord := hIn (64 * word) (by omega)
      exact hDone.part (by omega) (by omega)
    · have hZero : bits_to_copy = 0 := by omega
      rw [hZero, Nat.add_zero]
      exact hDone

theorem CopiedTo.at {res : List (BitVec 64)} {n m : Nat}
    (hCopied : CopiedTo that words n res) (hSame : i < n ↔ i < m) :
    bitAt res i = if i < m then bitAt that i else bitAt words i := by
  rw [hCopied.bits]
  simp only [hSame]

/- Outside of one case the bits that both vectors have are
   copied, and those of a longer destination stay. -/
theorem bitAt_copyWords {size that_size : Nat} {that words : List (BitVec 64)}
    (hWords : words.length = wordCount size)
    (hNot : ¬ (64 < size ∧ that_size = 64)) {i : Nat} (hI : i < size) :
    bitAt (copyWords size that_size that words) i =
      if i < that_size then bitAt that i else bitAt words i := by
  have hIn : ∀ j < size, j / 64 < words.length := by
    intro j hJ
    rw [hWords]
    exact div_lt_wordCount hJ
  have hFirst : 0 < words.length := hIn 0 (by omega)
  have hStart := CopiedTo.none that words
  have hWhole := hStart.whole hFirst
  unfold copyWords
  by_cases hSame : size = that_size
  · have hThat : i < that_size := by omega
    rw [if_pos hSame]
    by_cases hLong : 64 < size
    · rw [if_pos hLong, if_pos hThat, bitAt_build _ hI]
      rfl
    · rw [if_neg hLong]
      exact hWhole.at (by omega)
  · rw [if_neg hSame]
    by_cases hBoth : size ≤ 64 ∧ that_size ≤ 64
    · rw [if_pos hBoth]
      have hMin : (if that_size < size then that_size else size) = min that_size size := by
        split_ifs <;> omega
      exact (hStart.part hFirst (by omega)).at (by omega)
    · rw [if_neg hBoth]
      by_cases hShort : size ≤ 64
      · have hZero : i / 64 = 0 := Nat.div_eq_of_lt (by omega)
        have hLess : i < that_size := by omega
        have hThat : bitAt that i = (wordAt that 0).getLsbD (i % 64) := by
          unfold bitAt
          rw [hZero]
        simp only [if_pos hShort]
        rw [bitAt_set hFirst, hThat]
        split_ifs with hPart
        · rw [getLsbD_and, getLsbD_lowMask hPart, decide_eq_true (by omega), Bool.and_true]
        · rfl
      · rw [if_neg hShort]
        by_cases hSmall : that_size ≤ 64
        · have hPart : that_size < 64 := by omega
          rw [if_pos hSmall, if_pos hPart]
          exact (hStart.part hFirst hPart).at (by omega)
        · rw [if_neg hSmall]
          have hMin : (if that_size < size then that_size else size) = min that_size size := by
            split_ifs <;> omega
          simp only [hMin]
          have hLoop := @copyLoop_spec that words
            (min that_size size + 1) (min that_size size) 0 words
            (by omega) (fun j hJ => hIn j (by omega)) hStart
          exact hLoop.at (by omega)

/- A word into a longer vector: the old bits are left in. -/
theorem bitAt_copyWords_word
    (hWords : words.length = wordCount size) (hSize : 64 < size) (i : Nat) :
    bitAt (copyWords size 64 that words) i =
      if i < 64 then bitAt words i || bitAt that i
      else bitAt words i := by
  have hFirst : 0 < words.length := by
    rw [hWords]
    exact div_lt_wordCount (by omega : 0 < size)
  unfold copyWords
  rw [if_neg (by omega), if_neg (by omega), if_neg (by omega),
    if_pos (le_refl 64), if_neg (Nat.lt_irrefl 64), bitAt_set hFirst]
  by_cases hLow : i < 64
  · have hZero : i / 64 = 0 := Nat.div_eq_of_lt hLow
    rw [if_pos hZero, if_pos hLow, getLsbD_or, BitVec.and_allOnes]
    unfold bitAt
    rw [hZero]
  · rw [if_neg (by omega), if_neg hLow]

----
-- Resizing
----

/- The word of the old last bit, with the pad above it. -/
def padAbove (fill : Nat) (pad word : BitVec 64) : BitVec 64 :=
  (word &&& ~~~(allOnes 64 <<< fill)) ||| (pad <<< fill)

/- The words of a new array, of which the first ones are
   copied. -/
def newWords (size newsize : Nat) (pad : BitVec 64) (newcnt : Nat)
    (words : List (BitVec 64)) : List (BitVec 64) :=
  let cnt := (size + 63) / 64
  let trans := if 1 < cnt then (if newcnt < cnt then newcnt else cnt)
    else 1
  let newbits := (List.range newcnt).map fun idx => if idx < trans then wordAt words idx else 0#64
  if size < newsize then
    let fill := size % 64
    let newbits :=
      if fill ≠ 0 then
        newbits.set (cnt - 1) (padAbove fill pad (wordAt newbits (cnt - 1)))
      else newbits
    (List.range newcnt).map fun idx => if cnt ≤ idx then pad else wordAt newbits idx
  else newbits

/- `resize` on the words of a vector of this size, with the
   number of new words. -/
def resizeWords (size newsize : Nat) (pad : BitVec 64) (newcnt : Nat)
    (words : List (BitVec 64)) : List (BitVec 64) :=
  let cnt := (size + 63) / 64
  if 64 < newsize then
    if newcnt = cnt then
      if size < newsize ∧ size % 64 ≠ 0 then
        words.set (cnt - 1) (padAbove (size % 64) pad (wordAt words (cnt - 1)))
      else words
    else newWords size newsize pad newcnt words
  else
    let word := wordAt words 0
    [if size < newsize then padAbove size pad word else word]

theorem length_newWords (size newsize : Nat) (pad : BitVec 64) (newcnt : Nat)
    (words : List (BitVec 64)) : (newWords size newsize pad newcnt words).length = newcnt := by
  unfold newWords
  split_ifs <;> simp

theorem length_resizeWords (pad : BitVec 64)
    (hWords : words.length = wordCount size) :
    (resizeWords size newsize pad ((newsize + 63) / 64) words).length = wordCount newsize := by
  unfold resizeWords wordCount
  by_cases hLong : 64 < newsize
  · rw [if_pos hLong, if_pos hLong]
    by_cases hSame : (newsize + 63) / 64 = (size + 63) / 64
    · have hCount : words.length = (newsize + 63) / 64 := by
        rw [hWords, hSame]
        unfold wordCount
        rw [if_pos (by omega)]
      grind
    · rw [if_neg hSame, length_newWords]
  · rw [if_neg hLong, if_neg hLong]
    rfl

theorem getLsbD_padAbove (word : BitVec 64) (on : Bool) (fill : Nat) (hOff : off < 64) :
    (padAbove fill (if on then allOnes 64 else 0#64) word).getLsbD off =
      if off < fill then word.getLsbD off else on := by
  unfold padAbove
  rw [getLsbD_or, getLsbD_and, getLsbD_not,
    getLsbD_allOnes_shiftLeft hOff, decide_eq_true hOff]
  cases on with
  | true =>
    rw [if_pos rfl, getLsbD_allOnes_shiftLeft hOff]
    grind
  | false =>
    by_cases hLow : off < fill
    · simp [hLow]
    · simp [Nat.le_of_not_lt hLow]

/- A word that repeats a bit. -/
def padWord (on : Bool) : BitVec 64 :=
  if on then allOnes 64 else 0#64

theorem getLsbD_padWord (on : Bool) (hOff : off < 64) :
    (padWord on).getLsbD off = on := by
  cases on with
  | true =>
    unfold padWord
    rw [if_pos rfl, BitVec.getLsbD_allOnes, decide_eq_true hOff]
  | false => exact getLsbD_zero

theorem wordAt_range (f : Nat → BitVec 64) {n idx : Nat} (hIdx : idx < n) :
    wordAt ((List.range n).map f) idx = f idx := by
  unfold wordAt
  rw [List.getD_eq_getElem _ _ (by rw [List.length_map, List.length_range]; exact hIdx),
    List.getElem_map, List.getElem_range]

/- A word that is filled up where the old size ends in it. -/
theorem bitAt_padAbove (on : Bool) (hIn : size / 64 < words.length)
    (hI : i / 64 ≤ size / 64) :
    bitAt (words.set (size / 64) (padAbove (size % 64) (padWord on) (wordAt words (size / 64)))) i =
      if i < size then bitAt words i else on := by
  have hOff : i % 64 < 64 := Nat.mod_lt i (by decide)
  rw [bitAt_set hIn]
  by_cases hLast : i / 64 = size / 64
  · unfold padWord
    rw [if_pos hLast, getLsbD_padAbove _ on _ hOff]
    by_cases hLow : i < size
    · rw [if_pos (by omega), if_pos hLow, ← hLast]
      rfl
    · rw [if_neg (by omega), if_neg hLow]
  · rw [if_neg hLast, if_pos (by omega)]

/- The bits of a new array. -/
theorem bitAt_newWords (on : Bool) (hLong : 64 < newsize)
    (hDiffer : (newsize + 63) / 64 ≠ (size + 63) / 64) (hI : i < newsize) :
    bitAt (newWords size newsize (padWord on) ((newsize + 63) / 64) words) i =
      if i < size then bitAt words i else on := by
  have hOff : i % 64 < 64 := Nat.mod_lt i (by decide)
  have hWord : i / 64 < (newsize + 63) / 64 := by omega
  unfold newWords
  by_cases hGrow : size < newsize
  · simp only [if_pos hGrow]
    by_cases hPast : (size + 63) / 64 ≤ i / 64
    · have hOut : ¬ i < size := by omega
      rw [if_neg hOut]
      unfold bitAt
      rw [wordAt_range _ hWord, if_pos hPast, getLsbD_padWord on hOff]
    · have hCopied : ∀ idx < (size + 63) / 64,
          wordAt ((List.range ((newsize + 63) / 64)).map fun idx =>
            if idx < (if 1 < (size + 63) / 64 then
                (if (newsize + 63) / 64 < (size + 63) / 64 then
                  (newsize + 63) / 64 else (size + 63) / 64)
              else 1) then wordAt words idx else 0#64) idx =
            wordAt words idx := by
        intro idx hIdx
        rw [wordAt_range _ (by omega), if_pos]
        split_ifs <;> omega
      generalize hBits : (List.range ((newsize + 63) / 64)).map
        (fun idx =>
          if idx < (if 1 < (size + 63) / 64 then
              (if (newsize + 63) / 64 < (size + 63) / 64 then
                (newsize + 63) / 64 else (size + 63) / 64)
            else 1) then wordAt words idx else 0#64) =
          newbits at hCopied ⊢
      have hLen : newbits.length = (newsize + 63) / 64 := by
        rw [← hBits, List.length_map, List.length_range]
      have hBit : ∀ j, j / 64 < (size + 63) / 64 →
          bitAt newbits j = bitAt words j := by
        intro j hJ
        unfold bitAt
        rw [hCopied _ hJ]
      have hOuter : ∀ ws : List (BitVec 64),
          bitAt ((List.range ((newsize + 63) / 64)).map fun idx =>
            if (size + 63) / 64 ≤ idx then padWord on
            else wordAt ws idx) i = bitAt ws i := by
        intro ws
        unfold bitAt
        rw [wordAt_range _ hWord, if_neg hPast]
      rw [hOuter]
      by_cases hFill : size % 64 = 0
      · grind
      · have hLast : (size + 63) / 64 - 1 = size / 64 := by omega
        rw [if_pos hFill, hLast, bitAt_padAbove on (by omega) (by omega), hBit i (by omega)]
  · have hIn : i < size := by omega
    have hTrans : i / 64 < (if 1 < (size + 63) / 64 then
        (if (newsize + 63) / 64 < (size + 63) / 64 then
          (newsize + 63) / 64 else (size + 63) / 64)
        else 1) := by grind
    simp only [if_neg hGrow]
    rw [if_pos hIn]
    unfold bitAt
    rw [wordAt_range _ hWord, if_pos hTrans]

/- The old bits stay, and the new ones are the pad. -/
theorem bitAt_resizeWords (on : Bool) (hWords : words.length = wordCount size)
    (hI : i < newsize) :
    bitAt (resizeWords size newsize (padWord on) ((newsize + 63) / 64) words) i =
      if i < size then bitAt words i else on := by
  unfold resizeWords
  by_cases hLong : 64 < newsize
  · simp only [if_pos hLong]
    by_cases hSame : (newsize + 63) / 64 = (size + 63) / 64
    · rw [if_pos hSame]
      have hCount : words.length = (size + 63) / 64 := by
        rw [hWords]
        unfold wordCount
        rw [if_pos (by omega)]
      by_cases hGrow : size < newsize ∧ size % 64 ≠ 0
      · have hLast : (size + 63) / 64 - 1 = size / 64 := by omega
        rw [if_pos hGrow, hLast]
        exact bitAt_padAbove on (by omega) (by omega)
      · rw [if_neg hGrow, if_pos (by omega)]
    · rw [if_neg hSame]
      exact bitAt_newWords on hLong hSame hI
  · simp only [if_neg hLong]
    have hZero : i / 64 = 0 := Nat.div_eq_of_lt (by omega)
    have hMod : i % 64 = i := Nat.mod_eq_of_lt (by omega)
    unfold bitAt
    rw [hZero, hMod]
    by_cases hGrow : size < newsize
    · simp only [if_pos hGrow]
      exact getLsbD_padAbove _ on size (by omega)
    · simp only [if_neg hGrow]
      rw [if_pos (by omega)]
      rfl

end PackedWords

----
-- Vectors
----

open PackedWords

namespace VvpVector4

/- `copy_bits`. -/
def copyBits (v that : VvpVector4) : VvpVector4 where
  size_ := v.size_
  abits := copyWords v.size_ that.size_ that.abits v.abits
  bbits := copyWords v.size_ that.size_ that.bbits v.bbits
  abits_length := length_copyWords _ _ v.abits_length
  bbits_length := length_copyWords _ _ v.bbits_length

/- `resize`: none where the number of new words wraps, so that
   the bits have no place. -/
def resize (v : VvpVector4) (newsize : Nat) (pad_bit : VvpBit4) : Option VvpVector4 :=
  if v.size_ = newsize then some v
  else
    let newcnt := (newsize + 63) % 2 ^ 32 / 64
    if newcnt = (newsize + 63) / 64 then
      some
        { size_ := newsize
          abits := resizeWords v.size_ newsize (padWord pad_bit.abit) ((newsize + 63) / 64) v.abits
          bbits := resizeWords v.size_ newsize (padWord pad_bit.bbit) ((newsize + 63) / 64) v.bbits
          abits_length := length_resizeWords _ v.abits_length
          bbits_length := length_resizeWords _ v.bbits_length }
    else none

/- The bits that both vectors have are copied, the others and
   the size stay. -/
def CopiesRight (v that : VvpVector4) : Prop :=
  (v.copyBits that).size_ = v.size_ ∧
  ∀ idx < v.size_, (v.copyBits that).value idx =
    if idx < that.size_ then that.value idx else v.value idx

/- The old bits below the new size stay, and the bits from the
   old size on are the pad. -/
def ResizesRight (v : VvpVector4) (newsize : Nat) (pad_bit : VvpBit4) : Prop :=
  ∃ res, v.resize newsize pad_bit = some res ∧
    res.size_ = newsize ∧
    ∀ idx < newsize, res.value idx =
      if idx < v.size_ then v.value idx else pad_bit

/- The size of a vector that the source can allocate. -/
def Allocated (v : VvpVector4) : Prop := v.size_ + 63 < 2 ^ 32

instance (v : VvpVector4) : Decidable v.Allocated :=
  inferInstanceAs (Decidable (_ < _))

/- Both planes of a bit are or'ed with those of another one:
   the other one comes out. -/
theorem ofBits_or_eq_iff (b a b' a' : Bool) :
    VvpBit4.ofBits (b || b') (a || a') = VvpBit4.ofBits b' a' ↔
      VvpBit4.ofBits b a = .zero ∨ VvpBit4.ofBits b' a' = .x ∨
        VvpBit4.ofBits b a = VvpBit4.ofBits b' a' := by
  cases b <;> cases a <;> cases b' <;> cases a' <;> decide

theorem copiesRight_iff (v that : VvpVector4) :
    CopiesRight v that ↔
      (64 < v.size_ → that.size_ = 64 → ∀ idx < 64,
        v.value idx = .zero ∨ that.value idx = .x ∨
          v.value idx = that.value idx) := by
  by_cases hCase : 64 < v.size_ ∧ that.size_ = 64
  · rcases hCase with ⟨hLong, hWord⟩
    have hBit : ∀ idx < v.size_,
        (v.copyBits that).value idx =
          if idx < 64 then
            VvpBit4.ofBits
              (bitAt v.bbits idx || bitAt that.bbits idx)
              (bitAt v.abits idx || bitAt that.abits idx)
          else v.value idx := by
      intro idx hIdx
      rw [value_of_lt (by exact hIdx), value_of_lt hIdx]
      unfold copyBits
      simp only [hWord]
      rw [bitAt_copyWords_word v.abits_length hLong, bitAt_copyWords_word v.bbits_length hLong]
      split_ifs <;> rfl
    constructor
    · intro hRight _ _ idx hIdx
      have hCopied := hRight.2 idx (by omega)
      rw [hBit idx (by omega), if_pos hIdx, if_pos (by omega),
        value_of_lt (by omega), ofBits_or_eq_iff] at hCopied
      rw [value_of_lt (by omega), value_of_lt (by omega)]
      exact hCopied
    · intro hCover
      refine ⟨rfl, fun idx hIdx => ?_⟩
      rw [hBit idx hIdx, hWord]
      split_ifs with hLow
      · have hEither := hCover hLong hWord idx hLow
        rw [value_of_lt (by omega), value_of_lt (by omega)] at hEither
        rw [value_of_lt (by omega), ofBits_or_eq_iff]
        exact hEither
      · rfl
  · refine ⟨fun _ hLong hWord => absurd ⟨hLong, hWord⟩ hCase, fun _ => ⟨rfl, fun idx hIdx => ?_⟩⟩
    rw [value_of_lt (by exact hIdx)]
    unfold copyBits
    rw [bitAt_copyWords v.abits_length hCase hIdx, bitAt_copyWords v.bbits_length hCase hIdx]
    split_ifs with hThat
    · rw [value_of_lt hThat]
    · rw [value_of_lt hIdx]

theorem resizesRight_iff {v : VvpVector4} (hAllocated : v.Allocated) {newsize : Nat}
    (hSize : newsize < 2 ^ 32) (pad_bit : VvpBit4) :
    ResizesRight v newsize pad_bit ↔ newsize + 63 < 2 ^ 32 := by
  unfold Allocated at hAllocated
  by_cases hSame : v.size_ = newsize
  · refine ⟨fun _ => by omega, fun _ => ⟨v, if_pos hSame, hSame, ?_⟩⟩
    intro idx hIdx
    rw [if_pos (by omega)]
  · by_cases hFits : newsize + 63 < 2 ^ 32
    · refine ⟨fun _ => hFits, fun _ => ?_⟩
      have hCount : (newsize + 63) % 2 ^ 32 / 64 = (newsize + 63) / 64 := by
        rw [Nat.mod_eq_of_lt hFits]
      have hSome : v.resize newsize pad_bit = some _ := (if_neg hSame).trans (if_pos hCount)
      refine ⟨_, hSome, rfl, fun idx hIdx => ?_⟩
      rw [value_of_lt (by exact hIdx)]
      rw [bitAt_resizeWords _ v.abits_length hIdx, bitAt_resizeWords _ v.bbits_length hIdx]
      split_ifs with hOld
      · rw [value_of_lt hOld]
      · exact VvpBit4.ofBits_bits pad_bit
    · refine iff_of_false ?_ hFits
      rintro ⟨res, hSome, _⟩
      have hCount : (newsize + 63) % 2 ^ 32 / 64 ≠ (newsize + 63) / 64 := by omega
      have hNone : v.resize newsize pad_bit = none := (if_neg hSame).trans (if_neg hCount)
      rw [hNone] at hSome
      cases hSome

/- Copying is right but for a word of 64 bits into a longer
   vector, whose old bits are left in.  Resizing is right where
   the number of new words does not wrap. -/
theorem copy_resize_exact (v : VvpVector4) :
    (∀ that : VvpVector4,
      CopiesRight v that ↔
        (64 < v.size_ → that.size_ = 64 → ∀ idx < 64,
          v.value idx = .zero ∨ that.value idx = .x ∨ v.value idx = that.value idx)) ∧
    (∀ (newsize : Nat) (pad_bit : VvpBit4),
      v.Allocated → newsize < 2 ^ 32 →
      (ResizesRight v newsize pad_bit ↔ newsize + 63 < 2 ^ 32)) :=
  ⟨copiesRight_iff v, fun _ pad_bit hAllocated hSize => resizesRight_iff hAllocated hSize pad_bit⟩

theorem copy_resize_exact_small :
    CopiesRight (.fill 3 .x) (.fill 70 .one) ∧ ResizesRight (.fill 3 .one) 130 .z :=
  ⟨((copy_resize_exact (.fill 3 .x)).1 (.fill 70 .one)).mpr (fun hLong => absurd hLong (by decide)),
      ((copy_resize_exact (.fill 3 .one)).2 130 .z (by decide) (by decide)).mpr (by decide)⟩

/- 64 bits of 0 into 65 bits of 1. -/
theorem word_is_not_cleared : ¬ CopiesRight (.fill 65 .one) (.fill 64 .zero) := by
  intro hRight
  exact absurd (hRight.2 0 (by decide)) (by decide)

end VvpVector4

end EpicSim
