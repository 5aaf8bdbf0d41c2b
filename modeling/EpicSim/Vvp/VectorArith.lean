import EpicSim.Vvp.PackedStore
import EpicSim.Vvp.ThreadWords

/-
  Addition, subtraction and multiplication of vectors in place.

  Each operator has a path for less than a word, one for exactly
  a word and one for more.  The bits of the last word above the
  size may be anything in both operands.
-/

----
-- One Word
----

namespace EpicSim

open BitVec (allOnes getLsbD_and getLsbD_or and_zero getLsbD_allOnes)
open PackedWords Limbs

namespace VvpVector4

/- `~(-1UL << count)`. -/
def belowMask (count : Nat) : BitVec 64 :=
  ~~~(allOnes 64 <<< count)

/- Store one word of the abits. -/
def setAbits (v : VvpVector4) (idx : Nat) (word : BitVec 64) : VvpVector4 :=
  { v with
    abits := v.abits.set idx word
    abits_length := by rw [List.length_set, v.abits_length] }

/- Or a mask into a word of both planes. -/
def orWord (v : VvpVector4) (idx : Nat) (mask : BitVec 64) : VvpVector4 where
  size_ := v.size_
  abits := v.abits.set idx (wordAt v.abits idx ||| mask)
  bbits := v.bbits.set idx (wordAt v.bbits idx ||| mask)
  abits_length := by rw [List.length_set, v.abits_length]
  bbits_length := by rw [List.length_set, v.bbits_length]

/-
  The paths for up to 64 bits, which are the same in the three
  operators but for the operation on the words.  WORD_X is all
  ones in both planes, so or'ing it in is storing it.
-/
def wordOp (op : BitVec 64 → BitVec 64 → BitVec 64) (v that : VvpVector4) : VvpVector4 :=
  let xz := wordAt v.bbits 0 ||| wordAt that.bbits 0
  let val := op (wordAt v.abits 0) (wordAt that.abits 0)
  if v.size_ < 64 then
    let mask := belowMask v.size_
    if xz &&& mask ≠ 0#64 then v.orWord 0 mask
    else v.setAbits 0 (val &&& mask)
  else if xz ≠ 0#64 then v.orWord 0 (allOnes 64)
  else v.setAbits 0 val

----
-- Sums of Many Words
----

/- The same words in both planes. -/
def xWords (v : VvpVector4) (word : Nat → BitVec 64) : VvpVector4 where
  size_ := v.size_
  abits := build v.size_ word
  bbits := build v.size_ word
  abits_length := build_length _ _
  bbits_length := build_length _ _

/- Add a word of `that` with the carry. -/
def addInto (inv : BitVec 64 → BitVec 64) (that : VvpVector4) (st : VvpVector4 × BitVec 64)
    (idx : Nat) : VvpVector4 × BitVec 64 :=
  let sum := addWithCarry (wordAt st.1.abits idx)
    (inv (wordAt that.abits idx)) st.2
  (st.1.setAbits idx sum.1, sum.2)

/- A whole word; none is the jump to x_out. -/
def addWord (inv : BitVec 64 → BitVec 64) (that : VvpVector4) (st : VvpVector4 × BitVec 64)
    (idx : Nat) : Option (VvpVector4 × BitVec 64) :=
  if wordAt st.1.bbits idx ||| wordAt that.bbits idx ≠ 0#64 then
    none
  else some (addInto inv that st idx)

/- The word with the last `tail` bits. -/
def addTail (inv : BitVec 64 → BitVec 64) (that : VvpVector4) (tail : Nat)
    (st : VvpVector4 × BitVec 64) (cnt : Nat) : Option VvpVector4 :=
  let mask := belowMask tail
  if (wordAt st.1.bbits cnt ||| wordAt that.bbits cnt) &&& mask ≠
      0#64 then
    none
  else
    let sum := (addInto inv that st cnt).1
    some (sum.setAbits cnt (wordAt sum.abits cnt &&& mask))

/-
  `add` and `sub`, which differ in the operation, in the words
  of `that` and in the first carry.  None is the assertion
  that the sizes are the same.
-/
def addSub (op : BitVec 64 → BitVec 64 → BitVec 64)
    (inv : BitVec 64 → BitVec 64) (carry : BitVec 64) (v that : VvpVector4) : Option VvpVector4 :=
  if v.size_ ≠ that.size_ then none
  else if v.size_ ≤ 64 then some (wordOp op v that)
  else
    let cnt := v.size_ / 64
    let tail := v.size_ % 64
    let sum :=
      ((List.range cnt).foldlM (addWord inv that)
        (v, carry)).bind fun st =>
          if tail ≠ 0 then addTail inv that tail st cnt
          else some st.1
    match sum with
    | some res => some res
    | none =>
      -- x_out stores over the words that are added already
      some (v.xWords fun idx =>
        if idx < cnt then allOnes 64
        else allOnes 64 &&& belowMask tail)

def add (v that : VvpVector4) : Option VvpVector4 :=
  addSub (fun x y => x + y) (fun x => x) 0#64 v that

def sub (v that : VvpVector4) : Option VvpVector4 :=
  addSub (fun x y => x - y) (fun x => ~~~x) 1#64 v that

----
-- Products of Many Words
----

/- A word, of which the last is masked. -/
def maskedWord (words : List (BitVec 64)) (cnt : Nat) (mask : BitVec 64) (idx : Nat) : BitVec 64 :=
  if idx = cnt - 1 then wordAt words idx &&& mask
  else wordAt words idx

/- The products of one word, each added at its place. -/
def mulRow (that : List (BitVec 64)) (cnt : Nat) (mask lval : BitVec 64) (mul_a : Nat)
    (res : List (BitVec 64)) : List (BitVec 64) :=
  (List.range (cnt - mul_a)).foldl (fun res mul_b =>
    let rval := maskedWord that cnt mask mul_b
    let (tmp, sum) := multiplyWithCarry lval rval
    addAt addWithCarry (mul_a + mul_b) tmp sum res) res

/- The array `res`, before its last word is masked. -/
def mulWords (abits that : List (BitVec 64)) (cnt : Nat) (mask : BitVec 64) : List (BitVec 64) :=
  (List.range cnt).foldl (fun res mul_a =>
    let lval := maskedWord abits cnt mask mul_a
    mulRow that cnt mask lval mul_a res)
    (List.replicate cnt 0#64)

/- The mask of the last word of `size` bits. -/
def lastMask (size : Nat) : BitVec 64 :=
  if size % 64 ≠ 0 then belowMask (size % 64)
  else allOnes 64

/- The first pass, which looks for X and Z. -/
def anyXz (v that : VvpVector4) (cnt : Nat) (mask : BitVec 64) : Bool :=
  (List.range cnt).any fun idx =>
    let lval := maskedWord v.bbits cnt mask idx
    let rval := maskedWord that.bbits cnt mask idx
    lval != 0#64 || rval != 0#64

/- Copy words over the abits. -/
def replaceAbits (v : VvpVector4) (res : List (BitVec 64)) : VvpVector4 :=
  { v with
    abits := build v.size_ (wordAt res)
    abits_length := build_length _ _ }

/- `mul`; none is the assertion that the sizes are the same. -/
def mul (v that : VvpVector4) : Option VvpVector4 :=
  if v.size_ ≠ that.size_ then none
  else if v.size_ ≤ 64 then
    some (wordOp (fun x y => x * y) v that)
  else
    let cnt := (v.size_ + 63) / 64
    let mask := lastMask v.size_
    if anyXz v that cnt mask then
      some (v.xWords fun xdx =>
        if xdx < cnt - 1 then allOnes 64
        else allOnes 64 &&& mask)
    else
      let res := mulWords v.abits that.abits cnt mask
      some (v.replaceAbits (res.set (cnt - 1) (wordAt res (cnt - 1) &&& mask)))

----
-- Bits of the Words
----

variable {off size : Nat} {op : BitVec 64 → BitVec 64 → BitVec 64} {f : Int → Int → Int}

theorem getLsbD_belowMask {count : Nat} (hOff : off < 64) :
    (belowMask count).getLsbD off = decide (off < count) := by
  unfold belowMask
  rw [BitVec.getLsbD_not, getLsbD_allOnes_shiftLeft hOff,
    decide_eq_true hOff, Bool.true_and, ← decide_not, decide_eq_decide]
  omega

/- The bits of a range of words are clear if its whole words
   are, and the low part of the next one. -/
theorem words_clear_iff (word : Nat → BitVec 64) (size : Nat) :
    (∀ idx < size, (word (idx / 64)).getLsbD (idx % 64) = false) ↔
      (∀ wdx < size / 64, word wdx = 0#64) ∧
        word (size / 64) &&& belowMask (size % 64) = 0#64 := by
  constructor
  · intro hClear
    have hBit : ∀ wdx off, off < 64 → 64 * wdx + off < size →
        (word wdx).getLsbD off = false := by grind
    constructor
    · intro wdx hWdx
      rw [word_eq_zero_iff]
      exact fun off hOff => hBit wdx off hOff (by omega)
    · rw [word_eq_zero_iff]
      intro off hOff
      rw [getLsbD_and, getLsbD_belowMask hOff]
      grind
  · rintro ⟨hWhole, hTail⟩ idx hIdx
    by_cases hIn : idx / 64 < size / 64
    · rw [hWhole _ hIn, BitVec.getLsbD_zero]
    · have hSame : idx / 64 = size / 64 := by omega
      have hOff : idx % 64 < 64 := Nat.mod_lt _ (by decide)
      have hBit := (word_eq_zero_iff _).mp hTail _ hOff
      rw [getLsbD_and, getLsbD_belowMask hOff, decide_eq_true (by omega), Bool.and_true] at hBit
      rw [hSame]
      exact hBit

/- Numbers with the same low bits are the same modulo them. -/
theorem modEq_of_testBit {x y n : Nat} (hBits : ∀ idx < n, x.testBit idx = y.testBit idx) :
    x ≡ y [MOD 2 ^ n] := by
  apply Nat.eq_of_testBit_eq
  intro idx
  rw [Nat.testBit_mod_two_pow, Nat.testBit_mod_two_pow]
  by_cases hIn : idx < n
  · rw [hBits idx hIn]
  · rw [decide_eq_false hIn, Bool.false_and, Bool.false_and]

variable {v that : VvpVector4}

/- Neither vector has an X or Z. -/
theorem defined_both_iff (hSize : v.size_ = that.size_) :
    v.Defined ∧ that.Defined ↔
      ∀ idx < v.size_,
        (wordAt v.bbits (idx / 64) |||
          wordAt that.bbits (idx / 64)).getLsbD (idx % 64) =
            false := by
  rw [defined_iff, defined_iff, ← hSize, ← forall₂_and]
  refine forall₂_congr fun idx _ => ?_
  rw [getLsbD_or, Bool.or_eq_false_iff]
  rfl

/- The words of a defined vector give its number. -/
theorem words_number (hDefined : v.Defined) {words : List (BitVec 64)}
    (hBits : ∀ idx < v.size_, bitAt words idx = bitAt v.abits idx) :
    toNat words ≡ v.number [MOD 2 ^ v.size_] := by
  apply modEq_of_testBit
  intro idx hIdx
  rw [testBit_toNat (by decide), testBit_number,
    value_of_lt hIdx, (defined_iff v).mp hDefined idx hIdx]
  change bitAt words idx = _
  rw [hBits idx hIdx]
  cases bitAt v.abits idx <;> rfl

/- A vector whose low bits are those of words encodes their
   number. -/
theorem encodes_of_words {v : VvpVector4} (hDefined : ∀ idx < v.size_, bitAt v.bbits idx = false)
    {words : List (BitVec 64)}
    (hBits : ∀ idx < v.size_, bitAt v.abits idx = bitAt words idx) {n : Int}
    (hMod : (toNat words : Int) ≡ n [ZMOD 2 ^ v.size_]) : v.Encodes v.size_ n := by
  refine encodes_of_testBit rfl (fun idx hIdx => ?_) hMod
  rw [testBit_toNat (by decide), value_of_lt hIdx, hDefined idx hIdx, hBits idx hIdx]
  change VvpBit4.ofBits false (bitAt words idx) =
    if bitAt words idx then _ else _
  cases bitAt words idx <;> rfl

/- Bits that are set in both planes are X. -/
theorem xWords_allX (v : VvpVector4) {word : Nat → BitVec 64}
    (hWord : ∀ idx < v.size_, (word (idx / 64)).getLsbD (idx % 64) = true) :
    (v.xWords word).AllX v.size_ := by
  refine ⟨rfl, fun idx hIdx => ?_⟩
  have hBit : bitAt (build v.size_ word) idx = true := by rw [bitAt_build word hIdx, hWord idx hIdx]
  have hIn : idx < (v.xWords word).size_ := hIdx
  rw [value_of_lt hIn]
  change VvpBit4.ofBits (bitAt (build v.size_ word) idx) (bitAt (build v.size_ word) idx) = .x
  rw [hBit]
  rfl

----
-- One Word Is Right
----

/- The three operations, as they act on integers. -/
structure WordOperation (op : BitVec 64 → BitVec 64 → BitVec 64) (f : Int → Int → Int) : Prop where
  word : ∀ x y, ((op x y).toNat : Int) ≡ f x.toNat y.toNat [ZMOD 2 ^ 64]
  modEq : ∀ {m a a' b b' : Int}, a ≡ a' [ZMOD m] → b ≡ b' [ZMOD m] → f a b ≡ f a' b' [ZMOD m]

theorem wordOperation_add : WordOperation (fun x y => x + y) (fun a b => a + b) where
  word := by
    intro x y
    rw [BitVec.toNat_add]
    push_cast
    exact Int.mod_modEq _ _
  modEq := fun hA hB => hA.add hB

theorem wordOperation_sub : WordOperation (fun x y => x - y) (fun a b => a - b) where
  word := by
    intro x y
    have hY := y.isLt
    rw [BitVec.toNat_sub]
    push_cast [Nat.cast_sub (Nat.le_of_lt hY)]
    refine (Int.mod_modEq _ _).trans ?_
    refine Int.modEq_iff_dvd.mpr ⟨-1, ?_⟩
    ring
  modEq := fun hA hB => hA.sub hB

theorem wordOperation_mul : WordOperation (fun x y => x * y) (fun a b => a * b) where
  word := by
    intro x y
    rw [BitVec.toNat_mul]
    push_cast
    exact Int.mod_modEq _ _
  modEq := fun hA hB => hA.mul hB

/- A short vector is one word. -/
theorem abits_short (hShort : v.size_ ≤ 64) :
    v.abits.length = 1 ∧ v.bbits.length = 1 ∧
      toNat v.abits = (wordAt v.abits 0).toNat := by
  have hCount : wordCount v.size_ = 1 := if_neg (Nat.not_lt.mpr hShort)
  have hLength := v.abits_length.trans hCount
  refine ⟨hLength, v.bbits_length.trans hCount, ?_⟩
  rcases List.length_eq_one_iff.mp hLength with ⟨word, hWord⟩
  rw [hWord]
  rfl

/- The result of the word paths when nothing is X or Z. -/
theorem setAbits_encodes (hSize : v.size_ = that.size_) (hShort : v.size_ ≤ 64)
    (hV : v.Defined) (hThat : that.Defined)
    (hOp : WordOperation op f) {word : BitVec 64}
    (hWord : ∀ off < v.size_, word.getLsbD off =
      (op (wordAt v.abits 0) (wordAt that.abits 0)).getLsbD off) :
    (v.setAbits 0 word).Encodes v.size_ (f v.number that.number) := by
  rcases abits_short hShort with ⟨hLength, -, hAbits⟩
  have hAbits' := (abits_short (hSize ▸ hShort)).2.2
  have hA := words_number hV fun idx _ => rfl
  have hB := words_number hThat fun idx _ => rfl
  rw [hAbits] at hA
  rw [hAbits', ← hSize] at hB
  refine @encodes_of_words (v.setAbits 0 word)
    ((defined_iff v).mp hV)
    [op (wordAt v.abits 0) (wordAt that.abits 0)] ?_ _ ?_
  · intro idx hIdx
    have hIn : idx < v.size_ := hIdx
    have hFirst : idx / 64 = 0 := Nat.div_eq_of_lt (by omega)
    have hOff : idx % 64 = idx := Nat.mod_eq_of_lt (by omega)
    change bitAt (v.abits.set 0 word) idx = _
    rw [bitAt_set (by omega), hOff, hWord _ hIn]
    unfold bitAt
    rw [hFirst, hOff]
    rfl
  · have hDvd : (2 : Int) ^ v.size_ ∣ 2 ^ 64 := pow_dvd_pow 2 hShort
    refine ((hOp.word _ _).of_dvd hDvd).trans (hOp.modEq ?_ ?_)
    · exact_mod_cast hA
    · exact_mod_cast hB

/- All bits of a short vector become X. -/
theorem orWord_allX (hShort : v.size_ ≤ 64) {mask : BitVec 64}
    (hMask : ∀ off < v.size_, mask.getLsbD off = true) : (v.orWord 0 mask).AllX v.size_ := by
  rcases abits_short hShort with ⟨hA, hB, -⟩
  refine ⟨rfl, fun idx hIdx => ?_⟩
  have hIn : idx < (v.orWord 0 mask).size_ := hIdx
  have hFirst : idx / 64 = 0 := Nat.div_eq_of_lt (by omega)
  have hOff : idx % 64 = idx := Nat.mod_eq_of_lt (by omega)
  rw [value_of_lt hIn]
  change VvpBit4.ofBits
    (bitAt (v.bbits.set 0 (wordAt v.bbits 0 ||| mask)) idx)
    (bitAt (v.abits.set 0 (wordAt v.abits 0 ||| mask)) idx) = .x
  rw [bitAt_set (by omega), bitAt_set (by omega), if_pos hFirst, if_pos hFirst, hOff,
    getLsbD_or, getLsbD_or, hMask idx hIdx, Bool.or_true, Bool.or_true]
  rfl

/- What an operator leaves, with `f` on the integers. -/
def Leaves (f : Int → Int → Int) (v that res : VvpVector4) : Prop :=
  (v.Defined ∧ that.Defined → res.Encodes v.size_ (f v.number that.number)) ∧
    (¬ (v.Defined ∧ that.Defined) → res.AllX v.size_)

theorem wordOp_leaves (hSize : v.size_ = that.size_) (hShort : v.size_ ≤ 64)
    (hOp : WordOperation op f) :
    Leaves f v that (wordOp op v that) := by
  have hBoth := defined_both_iff hSize
  rw [words_clear_iff (fun wdx => wordAt v.bbits wdx ||| wordAt that.bbits wdx)] at hBoth
  unfold wordOp
  by_cases hPart : v.size_ < 64
  · have hZero : v.size_ / 64 = 0 := Nat.div_eq_of_lt hPart
    rw [hZero, Nat.mod_eq_of_lt hPart] at hBoth
    have hClear : v.Defined ∧ that.Defined ↔
        (wordAt v.bbits 0 ||| wordAt that.bbits 0) &&& belowMask v.size_ = 0#64 := by grind
    simp only [if_pos hPart]
    split_ifs with hXz
    · refine ⟨fun hDefined => ?_, fun _ => ?_⟩
      · exact absurd (hClear.mp hDefined) hXz
      · apply orWord_allX hShort
        intro off hOff
        rw [getLsbD_belowMask (by omega), decide_eq_true hOff]
    · have hDefined := hClear.mpr (not_not.mp hXz)
      refine ⟨fun _ => ?_, fun hNot => absurd hDefined hNot⟩
      apply setAbits_encodes hSize hShort hDefined.1 hDefined.2 hOp
      intro off hOff
      rw [getLsbD_and, getLsbD_belowMask (by omega), decide_eq_true hOff, Bool.and_true]
  · have hFull : v.size_ = 64 := by omega
    have hClear : v.Defined ∧ that.Defined ↔
        wordAt v.bbits 0 ||| wordAt that.bbits 0 = 0#64 := by
      rw [hBoth, hFull]
      constructor
      · exact fun hAll => hAll.1 0 (by decide)
      · intro hWord
        refine ⟨fun wdx hWdx => ?_, ?_⟩
        · grind
        · exact and_zero
    simp only [if_neg hPart]
    split_ifs with hXz
    · refine ⟨fun hDefined => ?_, fun _ => ?_⟩
      · exact absurd (hClear.mp hDefined) hXz
      · apply orWord_allX hShort
        intro off hOff
        rw [getLsbD_allOnes, decide_eq_true (by omega)]
    · have hDefined := hClear.mpr (not_not.mp hXz)
      refine ⟨fun _ => ?_, fun hNot => absurd hDefined hNot⟩
      exact setAbits_encodes hSize hShort hDefined.1 hDefined.2 hOp fun off _ => rfl

----
-- Sums Are Right
----

/-
  What the loop has done after `n` words: the sum of the words
  below is there, but for the carry, and the others are as they
  were.
-/
structure Added (inv : BitVec 64 → BitVec 64) (carry : BitVec 64) (v that : VvpVector4) (n : Nat)
    (st : VvpVector4 × BitVec 64) : Prop where
  size : st.1.size_ = v.size_
  bbits : st.1.bbits = v.bbits
  rest : ∀ idx ≥ n, wordAt st.1.abits idx = wordAt v.abits idx
  bound : st.2.toNat ≤ 1
  sum :
    toNat (st.1.abits.take n) + 2 ^ (64 * n) * st.2.toNat =
      toNat (v.abits.take n) + toNat ((that.abits.map inv).take n) + carry.toNat

theorem addInto_added {inv : BitVec 64 → BitVec 64} {carry : BitVec 64} {n : Nat}
    (hV : n < v.abits.length) (hThat : n < that.abits.length)
    {st : VvpVector4 × BitVec 64} (hAdded : Added inv carry v that n st) :
    Added inv carry v that (n + 1) (addInto inv that st n) := by
  have hWord := addWithCarry_spec (wordAt st.1.abits n)
    (inv (wordAt that.abits n)) st.2 hAdded.bound
  have hIn : n < st.1.abits.length := by
    rw [st.1.abits_length, hAdded.size, ← v.abits_length]
    exact hV
  unfold addInto
  generalize addWithCarry (wordAt st.1.abits n) (inv (wordAt that.abits n)) st.2 = sum at *
  have hMap : ((that.abits.map inv).getD n 0#64) = inv (wordAt that.abits n) := by
    unfold wordAt
    grind
  refine ⟨hAdded.size, hAdded.bbits, ?_, hWord.2, ?_⟩
  · intro idx hIdx
    rw [← hAdded.rest idx (Nat.le_of_succ_le hIdx)]
    change (st.1.abits.set n sum.1).getD idx 0#64 = _
    rw [List.getD_eq_getElem?_getD, List.getElem?_set_ne (by omega)]
    exact List.getD_eq_getElem?_getD.symm
  · have hSet : (st.1.abits.set n sum.1).getD n 0#64 = sum.1 := by
      rw [List.getD_eq_getElem?_getD, List.getElem?_set_self hIn, Option.getD_some]
    have hOld : v.abits.getD n 0#64 = wordAt st.1.abits n := (hAdded.rest n (le_refl n)).symm
    change toNat ((st.1.abits.set n sum.1).take (n + 1)) + 2 ^ (64 * (n + 1)) * sum.2.toNat = _
    rw [toNat_take_succ, toNat_take_succ, toNat_take_succ, hSet,
      hMap, hOld, List.take_set_of_le (le_refl n)]
    have hSum := hAdded.sum
    grind

/- The loop goes through unless a whole word has an X or Z. -/
theorem addWords_spec {inv : BitVec 64 → BitVec 64} {carry : BitVec 64}
    (hCarry : carry.toNat ≤ 1) {v that : VvpVector4} {n : Nat}
    (hV : n ≤ v.abits.length) (hThat : n ≤ that.abits.length) :
    ((∀ idx < n, wordAt v.bbits idx ||| wordAt that.bbits idx = 0#64) →
      ∃ st, (List.range n).foldlM (addWord inv that) (v, carry) =
          some st ∧ Added inv carry v that n st) ∧
    ((List.range n).foldlM (addWord inv that) (v, carry) = none ∨
      ∀ idx < n,
        wordAt v.bbits idx ||| wordAt that.bbits idx = 0#64) := by
  induction n with
  | zero =>
    refine ⟨fun _ => ⟨(v, carry), rfl, rfl, rfl,
      fun _ _ => rfl, hCarry, ?_⟩, Or.inr fun idx hIdx => ?_⟩
    · simp
    · exact absurd hIdx (Nat.not_lt_zero idx)
  | succ n ih =>
    rcases ih (Nat.le_of_succ_le hV) (Nat.le_of_succ_le hThat) with ⟨hRuns, hStops⟩
    rw [List.range_succ, List.foldlM_append]
    have hLast : ∀ st, Added inv carry v that n st →
        [n].foldlM (addWord inv that) st =
          if wordAt v.bbits n ||| wordAt that.bbits n ≠ 0#64
          then none else some (addInto inv that st n) := by
      intro st hAdded
      rw [List.foldlM_cons]
      simp only [addWord, hAdded.bbits]
      split_ifs <;> rfl
    rcases hStops with hNone | hClear
    · refine ⟨fun hAll => ?_, Or.inl ?_⟩
      · grind
      · rw [hNone]
        rfl
    · rcases hRuns hClear with ⟨st, hSome, hAdded⟩
      rw [hSome, Option.bind_eq_bind, Option.bind_some, hLast st hAdded]
      split_ifs with hXz
      · grind
      · refine ⟨fun _ => ⟨_, rfl, ?_⟩, Or.inr ?_⟩
        · exact addInto_added (by omega) (by omega) hAdded
        · grind

/- How the words of `that` enter the sum. -/
def Enters (inv : BitVec 64 → BitVec 64) (carry : BitVec 64) (f : Int → Int → Int) : Prop :=
  ∀ (n : Int) (words : List (BitVec 64)),
    n + (toNat (words.map inv) + carry.toNat : Nat) ≡
      f n (toNat words) [ZMOD 2 ^ (64 * words.length)]

theorem enters_add : Enters (fun x => x) 0#64 (fun a b => a + b) := by
  intro n words
  rw [List.map_id' words]
  exact Int.ModEq.refl _

/- The complement and a carry of one subtract. -/
theorem enters_sub : Enters (fun x => ~~~x) 1#64 (fun a b => a - b) := by
  intro n words
  have hFlip := toNat_complement words
  have hOne : (1#64).toNat = 1 := rfl
  have hCast : ((toNat (words.map fun x => ~~~x) +
      (1#64).toNat : Nat) : Int) = 2 ^ (64 * words.length) - toNat words := by grind
  rw [hCast]
  refine Int.modEq_iff_dvd.mpr ⟨-1, ?_⟩
  ring

/- When all words are added, the sum is there. -/
theorem added_encodes (hSize : v.size_ = that.size_) (hV : v.Defined)
    (hThat : that.Defined) {inv : BitVec 64 → BitVec 64}
    {carry : BitVec 64} (hOp : WordOperation op f)
    (hEnters : Enters inv carry f) {st : VvpVector4 × BitVec 64}
    (hAdded : Added inv carry v that v.abits.length st)
    {res : VvpVector4} (hResSize : res.size_ = v.size_) (hResXz : res.bbits = v.bbits)
    (hBits : ∀ idx < v.size_, bitAt res.abits idx = bitAt st.1.abits idx) :
    res.Encodes v.size_ (f v.number that.number) := by
  have hLength : st.1.abits.length = v.abits.length := by
    rw [st.1.abits_length, hAdded.size, v.abits_length]
  have hSame : that.abits.length = v.abits.length := by
    rw [that.abits_length, ← hSize, v.abits_length]
  have hSum := hAdded.sum
  rw [← hLength, List.take_length, hLength, List.take_length,
    List.take_of_length_le (by rw [List.length_map, hSame])]
    at hSum
  rw [← hResSize] at hBits ⊢
  refine encodes_of_words ?_ hBits ?_
  · rw [hResXz, hResSize]
    exact (defined_iff v).mp hV
  · have hRange : (2 : Int) ^ res.size_ ∣ 2 ^ (64 * v.abits.length) := by
      apply pow_dvd_pow
      rw [v.abits_length]
      unfold wordCount
      split_ifs <;> omega
    have hA := words_number hV fun idx _ => rfl
    have hB := words_number hThat fun idx _ => rfl
    rw [← hResSize] at hA
    rw [← hSize, ← hResSize] at hB
    have hWords := hEnters (toNat v.abits) that.abits
    rw [hSame] at hWords
    have hWhole : (toNat st.1.abits : Int) ≡
        f (toNat v.abits) (toNat that.abits) [ZMOD 2 ^ (64 * v.abits.length)] := by
      refine Int.ModEq.trans ?_ hWords
      refine Int.modEq_iff_dvd.mpr ⟨st.2.toNat, ?_⟩
      have hCast : (toNat v.abits : Int) +
          (toNat (that.abits.map inv) + carry.toNat : Nat) =
            toNat st.1.abits + 2 ^ (64 * v.abits.length) * st.2.toNat := by grind
      rw [hCast]
      ring
    refine (hWhole.of_dvd hRange).trans (hOp.modEq ?_ ?_)
    · exact_mod_cast hA
    · exact_mod_cast hB

/- The words that `x_out` stores are X below the size. -/
theorem xOut_allX (v : VvpVector4) (mask : BitVec 64) {cnt : Nat}
    (hMask : ∀ idx < v.size_, cnt ≤ idx / 64 → mask.getLsbD (idx % 64) = true) :
    (v.xWords fun idx =>
      if idx < cnt then allOnes 64
      else allOnes 64 &&& mask).AllX v.size_ := by
  apply xWords_allX
  intro idx hIdx
  have hOff : idx % 64 < 64 := Nat.mod_lt _ (by decide)
  split_ifs with hWhole
  · rw [getLsbD_allOnes, decide_eq_true hOff]
  · rw [getLsbD_and, getLsbD_allOnes, decide_eq_true hOff,
      Bool.true_and, hMask idx hIdx (Nat.not_lt.mp hWhole)]

theorem addSub_leaves (hSize : v.size_ = that.size_) {inv : BitVec 64 → BitVec 64}
    {carry : BitVec 64} (hCarry : carry.toNat ≤ 1)
    {op : BitVec 64 → BitVec 64 → BitVec 64} {f : Int → Int → Int}
    (hOp : WordOperation op f) (hEnters : Enters inv carry f) :
    ∃ res, addSub op inv carry v that = some res ∧
      Leaves f v that res := by
  unfold addSub
  rw [if_neg (not_not.mpr hSize)]
  by_cases hShort : v.size_ ≤ 64
  · rw [if_pos hShort]
    exact ⟨_, rfl, wordOp_leaves hSize hShort hOp⟩
  rw [if_neg hShort]
  have hCount : v.abits.length = (v.size_ + 63) / 64 := by
    rw [v.abits_length]
    exact if_pos (by omega)
  have hSame : that.abits.length = v.abits.length := by
    rw [that.abits_length, ← hSize, v.abits_length]
  have hBoth := defined_both_iff hSize
  rw [words_clear_iff (fun wdx => wordAt v.bbits wdx ||| wordAt that.bbits wdx)] at hBoth
  rcases @addWords_spec inv carry hCarry v that (v.size_ / 64)
    (by omega) (by omega) with ⟨hRuns, hStops⟩
  have hX := @xOut_allX v (belowMask (v.size_ % 64))
    (v.size_ / 64) (by
      intro idx hIdx hLast
      rw [getLsbD_belowMask (Nat.mod_lt _ (by decide)), decide_eq_true (by omega)])
  rcases hStops with hNone | hClear
  · simp only [hNone]
    refine ⟨_, rfl, fun hDefined => ?_, fun _ => hX⟩
    grind
  · rcases hRuns hClear with ⟨st, hSome, hAdded⟩
    simp only [hSome, Option.bind_some]
    by_cases hTail : v.size_ % 64 = 0
    · rw [if_neg (not_not.mpr hTail)]
      have hDefined : v.Defined ∧ that.Defined := by
        rw [hBoth]
        refine ⟨hClear, ?_⟩
        rw [hTail]
        exact and_zero
      refine ⟨st.1, rfl, fun _ => ?_, fun hNot => absurd hDefined hNot⟩
      have hWords : v.size_ / 64 = v.abits.length := by omega
      rw [hWords] at hAdded
      exact added_encodes hSize hDefined.1 hDefined.2 hOp hEnters
        hAdded hAdded.size hAdded.bbits fun _ _ => rfl
    · rw [if_pos hTail]
      unfold addTail
      rw [hAdded.bbits]
      by_cases hXz : (wordAt v.bbits (v.size_ / 64) |||
          wordAt that.bbits (v.size_ / 64)) &&& belowMask (v.size_ % 64) = 0#64
      · have hDefined := hBoth.mpr ⟨hClear, hXz⟩
        have hWords : v.size_ / 64 + 1 = v.abits.length := by omega
        have hAll := addInto_added (by omega) (by omega) hAdded
        rw [hWords] at hAll
        simp only [if_neg (not_not.mpr hXz)]
        refine ⟨_, rfl, fun _ => ?_, fun hNot => absurd hDefined hNot⟩
        refine added_encodes hSize hDefined.1 hDefined.2 hOp hEnters hAll hAll.size hAll.bbits ?_
        intro idx hIdx
        generalize addInto inv that st (v.size_ / 64) = sum at *
        have hIn : v.size_ / 64 < sum.1.abits.length := by
          rw [sum.1.abits_length, hAll.size, ← v.abits_length]
          omega
        change bitAt (sum.1.abits.set _ _) idx = _
        rw [bitAt_set hIn]
        split_ifs with hLast
        · rw [getLsbD_and, getLsbD_belowMask (Nat.mod_lt _ (by decide)),
            decide_eq_true (by omega), Bool.and_true, ← hLast]
          rfl
        · rfl
      · simp only [ne_eq, hXz]
        exact ⟨_, rfl, fun hDefined => absurd (hBoth.mp hDefined).2 hXz, fun _ => hX⟩

----
-- Products Are Right
----

theorem multiplier_multiplyWithCarry : Multiplier multiplyWithCarry :=
  multiplyWithCarry_spec

/- The words of a factor, the last one masked. -/
def maskedWords (words : List (BitVec 64)) (cnt : Nat) (mask : BitVec 64) : List (BitVec 64) :=
  (List.range cnt).map (maskedWord words cnt mask)

theorem getD_maskedWords (words : List (BitVec 64)) {cnt : Nat} (mask : BitVec 64) {idx : Nat}
    (hIdx : idx < cnt) :
    (maskedWords words cnt mask).getD idx 0#64 = maskedWord words cnt mask idx := by
  have hIn : idx < (maskedWords words cnt mask).length := by
    unfold maskedWords
    rwa [List.length_map, List.length_range]
  rw [List.getD_eq_getElem _ _ hIn]
  simp [maskedWords]

theorem mulRow_eq (that : List (BitVec 64)) (cnt : Nat) (mask lval : BitVec 64) (mul_a : Nat)
    (res : List (BitVec 64)) :
    mulRow that cnt mask lval mul_a res =
      addRow addWithCarry multiplyWithCarry mul_a lval
        (maskedWords that cnt mask) (cnt - mul_a) res := by
  apply List.foldl_ext
  intro res mul_b hMem
  have hIn : mul_b < cnt := by
    have hLt := List.mem_range.mp hMem
    omega
  rw [getD_maskedWords that mask hIn]

/- The words multiplied, modulo the words of the result. -/
theorem mulWords_spec (abits that : List (BitVec 64)) (cnt : Nat) (mask : BitVec 64) :
    (mulWords abits that cnt mask).length = cnt ∧
      toNat (mulWords abits that cnt mask) ≡
        toNat (maskedWords abits cnt mask) *
          toNat (maskedWords that cnt mask) [MOD 2 ^ (64 * cnt)] := by
  have hLength : (List.replicate cnt 0#64).length = cnt := List.length_replicate
  have hRows : mulWords abits that cnt mask =
      addRows addWithCarry multiplyWithCarry
        (maskedWords abits cnt mask) (maskedWords that cnt mask)
        cnt cnt (List.replicate cnt 0#64) := by
    apply List.foldl_ext
    intro res mul_a hMem
    rw [getD_maskedWords abits mask (List.mem_range.mp hMem), mulRow_eq]
  have hSpec := addRows_spec adder_addWithCarry
    multiplier_multiplyWithCarry (maskedWords abits cnt mask)
    (maskedWords that cnt mask) (List.replicate cnt 0#64)
    (n := cnt) (Nat.le_of_eq hLength.symm)
  have hFactor : (maskedWords abits cnt mask).take cnt = maskedWords abits cnt mask := by
    apply List.take_of_length_le
    unfold maskedWords
    rw [List.length_map, List.length_range]
  rw [hLength, toNat_replicate_zero, Nat.zero_add, hFactor, ← hRows] at hSpec
  exact hSpec

theorem getLsbD_lastMask (hOff : off < 64)
    (hIn : 64 * ((size + 63) / 64 - 1) + off < size) : (lastMask size).getLsbD off = true := by
  unfold lastMask
  split_ifs with hTail
  · rw [getLsbD_belowMask hOff, decide_eq_true (by omega)]
  · rw [getLsbD_allOnes, decide_eq_true hOff]

/- Masking keeps the bits below the size and clears the rest. -/
theorem getLsbD_maskedWord (words : List (BitVec 64)) {wdx : Nat}
    (hWdx : wdx < (size + 63) / 64) (hOff : off < 64) :
    (maskedWord words ((size + 63) / 64)
      (lastMask size) wdx).getLsbD off =
      (decide (64 * wdx + off < size) && (wordAt words wdx).getLsbD off) := by
  unfold maskedWord
  by_cases hLast : wdx = (size + 63) / 64 - 1
  · rw [if_pos hLast, getLsbD_and, Bool.and_comm]
    congr 1
    unfold lastMask
    split_ifs with hTail
    · rw [getLsbD_belowMask hOff, decide_eq_decide]
      omega
    · rw [getLsbD_allOnes, decide_eq_decide]
      omega
  · rw [if_neg hLast, decide_eq_true (by omega), Bool.true_and]

/- The masked words are zero where the bits are clear. -/
theorem maskedWord_zero_iff (words : List (BitVec 64)) (size : Nat) :
    (∀ wdx < (size + 63) / 64, maskedWord words ((size + 63) / 64) (lastMask size) wdx = 0#64) ↔
      ∀ idx < size, bitAt words idx = false := by
  constructor
  · intro hWords idx hIdx
    have hOff : idx % 64 < 64 := Nat.mod_lt _ (by decide)
    have hWdx : idx / 64 < (size + 63) / 64 := by omega
    have hBit := (word_eq_zero_iff _).mp (hWords _ hWdx) _ hOff
    rw [getLsbD_maskedWord words hWdx hOff, Nat.div_add_mod,
      decide_eq_true hIdx] at hBit
    exact hBit
  · intro hBits wdx hWdx
    rw [word_eq_zero_iff]
    intro off hOff
    rw [getLsbD_maskedWord words hWdx hOff]
    by_cases hIn : 64 * wdx + off < size
    · have hBit := hBits _ hIn
      rw [bitAt_word words wdx hOff] at hBit
      rw [hBit, Bool.and_false]
    · rw [decide_eq_false hIn, Bool.false_and]

/- The first pass finds the X and Z bits of both factors. -/
theorem anyXz_iff (hSize : v.size_ = that.size_) :
    anyXz v that ((v.size_ + 63) / 64) (lastMask v.size_) = false ↔
      v.Defined ∧ that.Defined := by
  rw [defined_iff, defined_iff, ← hSize, ← maskedWord_zero_iff v.bbits,
    ← maskedWord_zero_iff that.bbits, ← forall₂_and]
  unfold anyXz
  simp only [List.any_eq_false, List.mem_range, Bool.or_eq_true, bne_iff_ne, not_or, not_not]

/- The masked words of a defined factor give its number. -/
theorem maskedWords_number (hDefined : v.Defined) :
    toNat (maskedWords v.abits ((v.size_ + 63) / 64)
      (lastMask v.size_)) ≡
      v.number [MOD 2 ^ v.size_] := by
  apply words_number hDefined
  intro idx hIdx
  have hOff : idx % 64 < 64 := Nat.mod_lt _ (by decide)
  have hWdx : idx / 64 < (v.size_ + 63) / 64 := by omega
  have hMasked := getLsbD_maskedWord v.abits hWdx hOff
  rw [← getD_maskedWords v.abits _ hWdx, Nat.div_add_mod,
    decide_eq_true hIdx] at hMasked
  exact hMasked

/- The bits of the last word below the size pass the mask. -/
theorem bitAt_masked_last {res : List (BitVec 64)}
    (hLength : res.length = (size + 63) / 64) {idx : Nat} (hIdx : idx < size) :
    bitAt (res.set ((size + 63) / 64 - 1) (wordAt res ((size + 63) / 64 - 1) &&& lastMask size))
      idx = bitAt res idx := by
  rw [bitAt_set (by omega)]
  split_ifs with hWord
  · have hOff : idx % 64 < 64 := Nat.mod_lt _ (by decide)
    rw [getLsbD_and, getLsbD_lastMask hOff (by omega), Bool.and_true, ← hWord]
    rfl
  · rfl

/- The product of defined factors. -/
theorem product_encodes (hSize : v.size_ = that.size_) (hV : v.Defined)
    (hThat : that.Defined) {res : List (BitVec 64)}
    (hBits : ∀ idx < v.size_, bitAt res idx =
      bitAt (mulWords v.abits that.abits ((v.size_ + 63) / 64) (lastMask v.size_)) idx) :
    (v.replaceAbits res).Encodes v.size_ (v.number * that.number) := by
  have hProduct := (mulWords_spec v.abits that.abits ((v.size_ + 63) / 64) (lastMask v.size_)).2
  have hA := maskedWords_number hV
  have hB := maskedWords_number hThat
  rw [← hSize] at hB
  have hDvd : 2 ^ v.size_ ∣ 2 ^ (64 * ((v.size_ + 63) / 64)) := pow_dvd_pow 2 (by omega)
  have hNat := (hProduct.of_dvd hDvd).trans (hA.mul hB)
  refine encodes_of_words (v := v.replaceAbits res)
    ((defined_iff v).mp hV) ?_ (by exact_mod_cast hNat)
  intro idx hIdx
  rw [← hBits idx hIdx]
  exact bitAt_build (wordAt res) hIdx

theorem mul_leaves (hSize : v.size_ = that.size_) :
    ∃ res, mul v that = some res ∧
      Leaves (fun a b => a * b) v that res := by
  unfold mul
  rw [if_neg (not_not.mpr hSize)]
  by_cases hShort : v.size_ ≤ 64
  · rw [if_pos hShort]
    exact ⟨_, rfl, wordOp_leaves hSize hShort wordOperation_mul⟩
  rw [if_neg hShort]
  have hXz := anyXz_iff hSize
  by_cases hAny : anyXz v that ((v.size_ + 63) / 64) (lastMask v.size_) = true
  · simp only [if_pos hAny]
    refine ⟨_, rfl, fun hDefined => ?_, fun _ => ?_⟩
    · rw [hXz.mpr hDefined] at hAny
      cases hAny
    · apply v.xOut_allX (lastMask v.size_)
      intro idx hIdx hAbove
      exact getLsbD_lastMask (Nat.mod_lt _ (by decide)) (by omega)
  · have hDefined := hXz.mp (Bool.eq_false_iff.mpr hAny)
    simp only [if_neg hAny]
    refine ⟨_, rfl, fun _ => ?_, fun hNot => absurd hDefined hNot⟩
    apply product_encodes hSize hDefined.1 hDefined.2
    intro idx hIdx
    exact bitAt_masked_last (mulWords_spec _ _ _ _).1 hIdx

----
-- The Operators
----

/-
  Vectors of one size, with anything above the size in their
  last words: the three operators leave the encoding of the
  sum, the difference and the product, or all X.
-/
theorem in_place_exact {v that : VvpVector4} (hSize : v.size_ = that.size_) :
    ∃ sum difference product,
      v.add that = some sum ∧
      v.sub that = some difference ∧
      v.mul that = some product ∧
      (v.Defined ∧ that.Defined →
        sum.Encodes v.size_ (v.number + that.number) ∧
        difference.Encodes v.size_ (v.number - that.number) ∧
        product.Encodes v.size_ (v.number * that.number)) ∧
      (¬ (v.Defined ∧ that.Defined) →
        sum.AllX v.size_ ∧ difference.AllX v.size_ ∧
          product.AllX v.size_) := by
  have hAdd : (0#64).toNat ≤ 1 := by decide
  have hSub : (1#64).toNat ≤ 1 := by decide
  rcases addSub_leaves hSize hAdd wordOperation_add enters_add with ⟨sum, hSum, hSumLeaves⟩
  rcases addSub_leaves hSize hSub wordOperation_sub enters_sub
    with
    ⟨difference, hDifference, hDifferenceLeaves⟩
  rcases mul_leaves hSize with ⟨product, hProduct, hProductLeaves⟩
  refine ⟨sum, difference, product, hSum, hDifference, hProduct, fun hDefined => ?_, fun hNot => ?_⟩
  · exact ⟨hSumLeaves.1 hDefined, hDifferenceLeaves.1 hDefined, hProductLeaves.1 hDefined⟩
  · exact ⟨hSumLeaves.2 hNot, hDifferenceLeaves.2 hNot, hProductLeaves.2 hNot⟩

theorem in_place_exact_short :
    ∃ sum difference product : VvpVector4,
      (fill 4 .one).add (fill 4 .one) = some sum ∧
      (fill 4 .one).sub (fill 4 .one) = some difference ∧
      (fill 4 .one).mul (fill 4 .one) = some product ∧
      sum.Encodes 4 30 ∧ difference.Encodes 4 0 ∧
      product.Encodes 4 225 := by
  have hNumber : (fill 4 .one).number = 15 := by decide
  have hDefined : (fill 4 .one).Defined := by decide
  rcases @in_place_exact (fill 4 .one) (fill 4 .one) rfl with
    ⟨sum, difference, product, hSum, hDifference,
      hProduct, hRight, -⟩
  rcases hRight ⟨hDefined, hDefined⟩ with ⟨hS, hD, hP⟩
  rw [hNumber] at hS hD hP
  exact ⟨sum, difference, product, hSum, hDifference, hProduct, hS, hD, hP⟩

end VvpVector4

end EpicSim
