import EpicSim.Vvp.Scalar
import Mathlib.Data.List.GetD

/-
  Vectors of four-state bits, packed in 64-bit words.

  Each bit has an abit and a bbit in two arrays of words:
  0 is 00, 1 is 01, X is 11 and Z is 10 (bbit first).  The
  source keeps a vector of up to 64 bits in one word beside
  the size; here that is an array of one word.
-/

----
-- Words
----

namespace EpicSim

open BitVec (getLsbD_or getLsbD_and getLsbD_not allOnes)

/- The bit stored as a bbit and an abit. -/
def VvpBit4.ofBits : Bool → Bool → VvpBit4
| false, false => .zero
| false, true => .one
| true, true => .x
| true, false => .z

/- The abit of a bit. -/
def VvpBit4.abit (val : VvpBit4) : Bool :=
  decide (val = .one ∨ val = .x)

/- The bbit of a bit. -/
def VvpBit4.bbit (val : VvpBit4) : Bool :=
  decide (val = .x ∨ val = .z)

@[simp] theorem VvpBit4.ofBits_bits (val : VvpBit4) : VvpBit4.ofBits val.bbit val.abit = val := by
  cases val <;> rfl

namespace PackedWords

/- Number of words for a vector of `size` bits. -/
def wordCount (size : Nat) : Nat :=
  if 64 < size then (size + 63) / 64 else 1

/- The word at an index of the array. -/
def wordAt (words : List (BitVec 64)) (wdx : Nat) : BitVec 64 :=
  words.getD wdx 0#64

/- The stored bit at an index of the vector. -/
def bitAt (words : List (BitVec 64)) (idx : Nat) : Bool :=
  (wordAt words (idx / 64)).getLsbD (idx % 64)

theorem bitAt_word (words : List (BitVec 64)) (wdx : Nat) {off : Nat} (hOff : off < 64) :
    bitAt words (64 * wdx + off) = (wordAt words wdx).getLsbD off := by
  unfold bitAt
  rw [Nat.mul_add_div (by decide), Nat.div_eq_of_lt hOff,
    Nat.add_zero, Nat.mul_add_mod, Nat.mod_eq_of_lt hOff]

/- Set or clear one stored bit. -/
def putBit (words : List (BitVec 64)) (idx : Nat) (on : Bool) : List (BitVec 64) :=
  let mask := 1#64 <<< (idx % 64)
  words.set (idx / 64)
    (if on then wordAt words (idx / 64) ||| mask
      else wordAt words (idx / 64) &&& ~~~mask)

/- An array computed word by word. -/
def build (size : Nat) (word : Nat → BitVec 64) : List (BitVec 64) :=
  (List.range (wordCount size)).map word

/- The mask of the lowest `count` bits. -/
def lowMask (count : Nat) : BitVec 64 :=
  1#64 <<< count - 1#64

theorem div_lt_wordCount {size idx : Nat} (h : idx < size) : idx / 64 < wordCount size := by
  unfold wordCount
  split_ifs <;> omega

@[simp] theorem build_length (size : Nat) (word : Nat → BitVec 64) :
    (build size word).length = wordCount size := by
  simp [build]

theorem wordAt_build {size wdx : Nat} (word : Nat → BitVec 64) (h : wdx < wordCount size) :
    wordAt (build size word) wdx = word wdx := by
  have hLength : wdx < (build size word).length := by rwa [build_length]
  rw [wordAt, List.getD_eq_getElem _ _ hLength]
  simp [build]

theorem bitAt_build {size idx : Nat} (word : Nat → BitVec 64) (h : idx < size) :
    bitAt (build size word) idx = (word (idx / 64)).getLsbD (idx % 64) := by
  rw [bitAt, wordAt_build word (div_lt_wordCount h)]

@[simp] theorem putBit_length (words : List (BitVec 64)) (idx : Nat) (on : Bool) :
    (putBit words idx on).length = words.length := by
  simp [putBit]

/- A stored bit changes alone. -/
theorem bitAt_putBit {words : List (BitVec 64)} {idx : Nat}
    (h : idx / 64 < words.length) (on : Bool) (j : Nat) :
    bitAt (putBit words idx on) j =
      if j = idx then on else bitAt words j := by
  have hOff : j % 64 < 64 := Nat.mod_lt j (by decide)
  have hMask : (1#64 <<< (idx % 64)).getLsbD (j % 64) =
      decide (j % 64 = idx % 64) := by grind
  by_cases hWord : j / 64 = idx / 64
  · have hSame : j = idx ↔ j % 64 = idx % 64 := by omega
    have hLength : j / 64 < (words.set (idx / 64)
        (if on then wordAt words (idx / 64) ||| 1#64 <<< (idx % 64)
          else wordAt words (idx / 64) &&&
            ~~~(1#64 <<< (idx % 64)))).length := by
      rw [List.length_set, hWord]
      exact h
    rw [bitAt, putBit, wordAt, List.getD_eq_getElem _ _ hLength]
    simp only [hWord, List.getElem_set_self, hSame]
    cases on with
    | true =>
      simp only [if_true, getLsbD_or, hMask]
      split_ifs with hBit
      · simp [hBit]
      · simp [hBit, bitAt, hWord]
    | false =>
      simp only [Bool.false_eq_true, if_false, getLsbD_and, getLsbD_not, hMask]
      split_ifs with hBit
      · simp [hBit]
      · simp [hBit, bitAt, hWord, hOff]
  · have hNe : j ≠ idx := by
      intro hEq
      exact hWord (by rw [hEq])
    rw [if_neg hNe, bitAt, bitAt, putBit]
    simp only [wordAt, List.getD_eq_getElem?_getD, List.getElem?_set_ne (Ne.symm hWord)]

theorem getLsbD_lowMask {count : Nat} (h : count < 64) (off : Nat) :
    (lowMask count).getLsbD off = decide (off < count) := by
  have hPow : 2 ^ count < 2 ^ 64 := Nat.pow_lt_pow_right (by decide) h
  have hPos : 0 < 2 ^ count := Nat.two_pow_pos count
  have hNat : (lowMask count).toNat = 2 ^ count - 1 := by
    rw [lowMask, BitVec.toNat_sub, BitVec.toNat_shiftLeft]
    simp only [BitVec.toNat_ofNat]
    omega
  rw [BitVec.getLsbD, hNat, Nat.testBit_two_pow_sub_one]

end PackedWords

----
-- Vectors
----

open PackedWords

/- A vector of four-state bits. -/
structure VvpVector4 where
  size_ : Nat
  abits : List (BitVec 64)
  bbits : List (BitVec 64)
  abits_length : abits.length = wordCount size_
  bbits_length : bbits.length = wordCount size_
deriving DecidableEq

namespace VvpVector4

/- A vector that repeats one bit. -/
def fill (size : Nat) (val : VvpBit4) : VvpVector4 where
  size_ := size
  abits := build size (fun _ => if val.abit then allOnes 64 else 0#64)
  bbits := build size (fun _ => if val.bbit then allOnes 64 else 0#64)
  abits_length := by simp
  bbits_length := by simp

/- The bit at an index; past the end it reads as X. -/
def value (v : VvpVector4) (idx : Nat) : VvpBit4 :=
  if v.size_ ≤ idx then .x
  else VvpBit4.ofBits (bitAt v.bbits idx) (bitAt v.abits idx)

/- Write one bit.  The source asserts `idx < size_`. -/
def setBit (v : VvpVector4) (idx : Nat) (val : VvpBit4) : VvpVector4 where
  size_ := v.size_
  abits := putBit v.abits idx val.abit
  bbits := putBit v.bbits idx val.bbit
  abits_length := by simp [v.abits_length]
  bbits_length := by simp [v.bbits_length]

/-
  Exact equality: full words are compared as they are, the
  last partial word under a mask.
-/
def eeq (v that : VvpVector4) : Bool :=
  if v.size_ ≠ that.size_ then false
  else
    let words := v.size_ / 64
    let same :=
      (List.range words).all (fun idx =>
        wordAt v.abits idx == wordAt that.abits idx && wordAt v.bbits idx == wordAt that.bbits idx)
    let mask := lowMask (v.size_ % 64)
    let tail :=
      if 0 < v.size_ % 64 then
        (wordAt v.abits words &&& mask) == (wordAt that.abits words &&& mask) &&
          (wordAt v.bbits words &&& mask) == (wordAt that.bbits words &&& mask)
      else true
    same && tail

/- Apply word functions of two vectors. -/
def wordwise (v that : VvpVector4) (aword bword :
      BitVec 64 → BitVec 64 → BitVec 64 → BitVec 64 →
        BitVec 64) : VvpVector4 where
  size_ := v.size_
  abits := build v.size_ (fun idx =>
    aword (wordAt v.abits idx) (wordAt v.bbits idx) (wordAt that.abits idx) (wordAt that.bbits idx))
  bbits := build v.size_ (fun idx =>
    bword (wordAt v.abits idx) (wordAt v.bbits idx) (wordAt that.abits idx) (wordAt that.bbits idx))
  abits_length := by simp
  bbits_length := by simp

/- `operator &=`, for vectors of one size. -/
def andAssign (v that : VvpVector4) : VvpVector4 :=
  wordwise v that
    (fun a b a' b' => (a ||| b) &&& (a' ||| b'))
    (fun a b a' b' => ((a ||| b) &&& b') ||| ((a' ||| b') &&& b))

/- `operator |=`, for vectors of one size. -/
def orAssign (v that : VvpVector4) : VvpVector4 :=
  wordwise v that
    (fun a b a' b' => a ||| b ||| a' ||| b')
    (fun a b a' b' => ((~~~a ||| b) &&& b') ||| ((~~~a' ||| b') &&& b))

/- `operator ~`: the last partial word is masked. -/
def inverted (v : VvpVector4) : VvpVector4 where
  size_ := v.size_
  abits := build v.size_ (fun idx =>
    let remaining := v.size_ - 64 * idx
    let word := wordAt v.bbits idx ||| ~~~wordAt v.abits idx
    if 64 ≤ remaining then word
    else lowMask remaining &&& word)
  bbits := v.bbits
  abits_length := by simp
  bbits_length := v.bbits_length

----
-- Reading Back
----

@[simp] theorem size_fill (size : Nat) (val : VvpBit4) : (fill size val).size_ = size := rfl

@[simp] theorem size_setBit (v : VvpVector4) (idx : Nat) (val : VvpBit4) :
    (v.setBit idx val).size_ = v.size_ := rfl

@[simp] theorem size_andAssign (v that : VvpVector4) : (andAssign v that).size_ = v.size_ := rfl

@[simp] theorem size_orAssign (v that : VvpVector4) : (orAssign v that).size_ = v.size_ := rfl

variable {v that : VvpVector4}

theorem value_of_lt {idx : Nat} (h : idx < v.size_) :
    v.value idx = VvpBit4.ofBits (bitAt v.bbits idx) (bitAt v.abits idx) := by
  rw [value, if_neg (Nat.not_le.mpr h)]

theorem value_fill {size idx : Nat} (h : idx < size) (val : VvpBit4) :
    (fill size val).value idx = val := by
  have hOff : idx % 64 < 64 := Nat.mod_lt idx (by decide)
  have hBit : ∀ on : Bool,
      (if on = true then allOnes 64
        else 0#64).getLsbD (idx % 64) = on := by
    intro on
    cases on with
    | true =>
      rw [if_pos rfl, BitVec.getLsbD_allOnes]
      simpa using hOff
    | false => simp
  rw [value_of_lt (by exact h)]
  simp only [fill]
  rw [bitAt_build _ h, bitAt_build _ h, hBit, hBit, VvpBit4.ofBits_bits]

theorem value_setBit {v : VvpVector4} {idx : Nat} (h : idx < v.size_) (val : VvpBit4) {j : Nat}
    (hj : j < v.size_) :
    (v.setBit idx val).value j =
      if j = idx then val else v.value j := by
  have hA : idx / 64 < v.abits.length := by
    rw [v.abits_length]
    exact div_lt_wordCount h
  have hB : idx / 64 < v.bbits.length := by
    rw [v.bbits_length]
    exact div_lt_wordCount h
  rw [value_of_lt (by exact hj), value_of_lt hj]
  simp only [setBit]
  rw [bitAt_putBit hA, bitAt_putBit hB]
  split_ifs
  · rw [VvpBit4.ofBits_bits]
  · rfl

/- Writing the bits one after another. -/
theorem setBits_spec (v : VvpVector4) (bit : Nat → VvpBit4) {n : Nat} (hn : n ≤ v.size_) :
    ((List.range n).foldl (fun vec idx =>
        vec.setBit idx (bit idx)) v).size_ = v.size_ ∧
      ∀ idx < n,
        ((List.range n).foldl (fun vec idx =>
          vec.setBit idx (bit idx)) v).value idx = bit idx := by
  induction n with
  | zero => exact ⟨rfl, fun idx hIdx => by cases hIdx⟩
  | succ n ih =>
    rcases ih (Nat.le_of_succ_le hn) with ⟨hSize, hBits⟩
    rw [List.range_succ, List.foldl_append, List.foldl_cons, List.foldl_nil]
    generalize (List.range n).foldl _ _ = res at *
    refine ⟨hSize, fun idx hIdx => ?_⟩
    rw [value_setBit (by omega) _ (by omega)]
    grind

/- `for (idx = first; idx < last; idx += 1)` around a
   `set_bit`. -/
def setBitLoop (out : VvpVector4) (first last : Nat) (place : Nat → Nat)
    (bit : Nat → VvpBit4) : VvpVector4 :=
  (List.range' first (last - first)).foldl (fun out idx => out.setBit (place idx) (bit idx)) out

/- The loop writes its places and no others. -/
theorem setBitLoop_spec (v : VvpVector4) {first last : Nat} {place : Nat → Nat}
    (bit : Nat → VvpBit4) (hIn : ∀ i, first ≤ i → i < last → place i < v.size_)
    (hDistinct : ∀ i j, first ≤ i → i < j → j < last → place i ≠ place j) :
    (setBitLoop v first last place bit).size_ = v.size_ ∧
      (∀ i, first ≤ i → i < last → (setBitLoop v first last place bit).value (place i) = bit i) ∧
      ∀ j < v.size_, (∀ i, first ≤ i → i < last → place i ≠ j) →
        (setBitLoop v first last place bit).value j = v.value j := by
  have hRounds : ∀ k, first + k ≤ max first last →
      ∀ res, res = (List.range' first k).foldl (fun out idx => out.setBit (place idx) (bit idx)) v →
      res.size_ = v.size_ ∧
        (∀ i, first ≤ i → i < first + k → res.value (place i) = bit i) ∧
        ∀ j < v.size_,
          (∀ i, first ≤ i → i < first + k → place i ≠ j) →
            res.value j = v.value j := by
    intro k
    induction k with
    | zero => grind
    | succ k ih =>
      intro hLe res hRes
      rcases ih (by omega) _ rfl with ⟨hSize, hBits, hRest⟩
      have hNew : first + k < last := by omega
      have hPlace := hIn (first + k) (by omega) hNew
      rw [List.range'_1_concat, List.foldl_append, List.foldl_cons, List.foldl_nil] at hRes
      generalize (List.range' first k).foldl _ _ = prev at *
      subst hRes
      refine ⟨hSize, fun i hi hLt => ?_, fun j hj hOther => ?_⟩
      · rw [value_setBit (by omega) _ (by
          rw [hSize]
          exact hIn i hi (by omega))]
        by_cases hSame : i = first + k
        · rw [hSame, if_pos rfl]
        · rw [if_neg (hDistinct i (first + k) hi (by omega) hNew)]
          exact hBits i hi (by omega)
      · rw [value_setBit (by omega) _ (by omega),
          if_neg (fun h => hOther (first + k) (by omega) (by omega) h.symm)]
        exact hRest j hj (fun i hi hLt => hOther i hi (by omega))
  rcases hRounds (last - first) (by omega) _ rfl with ⟨hSize, hBits, hRest⟩
  exact ⟨hSize, fun i hi hLt => hBits i hi (by omega),
    fun j hj hOther => hRest j hj (fun i hi hLt => hOther i hi (by omega))⟩

theorem value_wordwise (v that : VvpVector4)
    (aword bword : BitVec 64 → BitVec 64 → BitVec 64 → BitVec 64 → BitVec 64)
    {idx : Nat} (h : idx < v.size_) :
    (wordwise v that aword bword).value idx =
      VvpBit4.ofBits
        ((bword (wordAt v.abits (idx / 64))
          (wordAt v.bbits (idx / 64))
          (wordAt that.abits (idx / 64))
          (wordAt that.bbits (idx / 64))).getLsbD (idx % 64))
        ((aword (wordAt v.abits (idx / 64))
          (wordAt v.bbits (idx / 64))
          (wordAt that.abits (idx / 64))
          (wordAt that.bbits (idx / 64))).getLsbD (idx % 64)) := by
  rw [value_of_lt (by exact h)]
  simp only [wordwise]
  rw [bitAt_build _ h, bitAt_build _ h]

/- The word-wise conjunction is the conjunction of each bit. -/
theorem value_andAssign (hSize : that.size_ = v.size_) {idx : Nat} (h : idx < v.size_) :
    (andAssign v that).value idx = (v.value idx).and (that.value idx) := by
  rw [andAssign, value_wordwise v that _ _ h, value_of_lt h, value_of_lt (by omega)]
  simp only [getLsbD_and, getLsbD_or]
  simp only [bitAt]
  cases (wordAt v.abits (idx / 64)).getLsbD (idx % 64) <;>
  cases (wordAt v.bbits (idx / 64)).getLsbD (idx % 64) <;>
  cases (wordAt that.abits (idx / 64)).getLsbD (idx % 64) <;>
  cases (wordAt that.bbits (idx / 64)).getLsbD (idx % 64) <;>
  rfl

/- The word-wise disjunction is the disjunction of each bit. -/
theorem value_orAssign (hSize : that.size_ = v.size_) {idx : Nat} (h : idx < v.size_) :
    (orAssign v that).value idx = (v.value idx).or (that.value idx) := by
  have hOff : idx % 64 < 64 := Nat.mod_lt idx (by decide)
  rw [orAssign, value_wordwise v that _ _ h, value_of_lt h, value_of_lt (by omega)]
  simp only [getLsbD_and, getLsbD_or, getLsbD_not, hOff]
  simp only [bitAt]
  cases (wordAt v.abits (idx / 64)).getLsbD (idx % 64) <;>
  cases (wordAt v.bbits (idx / 64)).getLsbD (idx % 64) <;>
  cases (wordAt that.abits (idx / 64)).getLsbD (idx % 64) <;>
  cases (wordAt that.bbits (idx / 64)).getLsbD (idx % 64) <;>
  rfl

theorem value_inverted {idx : Nat} (h : idx < v.size_) :
    v.inverted.value idx = (v.value idx).not := by
  have hOff : idx % 64 < 64 := Nat.mod_lt idx (by decide)
  have hWord :
      bitAt v.inverted.abits idx = (bitAt v.bbits idx || !bitAt v.abits idx) := by
    simp only [inverted]
    rw [bitAt_build _ h]
    simp only [bitAt]
    split_ifs with hFull
    · simp [hOff]
    · have hIn : idx % 64 < v.size_ - 64 * (idx / 64) := by
        omega
      rw [getLsbD_and, getLsbD_lowMask (Nat.not_le.mp hFull)]
      simp [hIn, hOff]
  rw [value_of_lt (by exact h), value_of_lt h, hWord]
  simp only [inverted]
  cases bitAt v.abits idx <;> cases bitAt v.bbits idx <;> rfl

/- Vectors that compare equal have the same bits. -/
theorem value_of_eeq (h : v.eeq that = true) :
    v.size_ = that.size_ ∧
      ∀ idx, v.value idx = that.value idx := by
  unfold eeq at h
  split_ifs at h with hSize hTail
  · simp only [Bool.and_eq_true, List.all_eq_true, List.mem_range, beq_iff_eq] at h
    rcases h with ⟨hWords, hLastA, hLastB⟩
    rw [not_not] at hSize
    refine ⟨hSize, ?_⟩
    intro idx
    by_cases hIdx : idx < v.size_
    · have hMask : ∀ w w' : BitVec 64,
          w &&& lowMask (v.size_ % 64) = w' &&& lowMask (v.size_ % 64) →
          ∀ off < v.size_ % 64, w.getLsbD off = w'.getLsbD off := by
        intro w w' hw off hOff
        have hBit := congrArg (fun b => b.getLsbD off) hw
        simpa [getLsbD_and, getLsbD_lowMask (Nat.mod_lt v.size_ (by decide)), hOff] using hBit
      rw [value_of_lt hIdx, value_of_lt (by omega)]
      simp only [bitAt]
      by_cases hWord : idx / 64 < v.size_ / 64
      · rw [(hWords _ hWord).1, (hWords _ hWord).2]
      · have hLast : idx / 64 = v.size_ / 64 := by omega
        rw [hLast, hMask _ _ hLastA (idx % 64) (by omega), hMask _ _ hLastB (idx % 64) (by omega)]
    · rw [value, value, if_pos (by omega), if_pos (by omega)]
  · simp only [Bool.and_true, List.all_eq_true, List.mem_range, Bool.and_eq_true, beq_iff_eq] at h
    rw [not_not] at hSize
    refine ⟨hSize, ?_⟩
    intro idx
    by_cases hIdx : idx < v.size_
    · rw [value_of_lt hIdx, value_of_lt (by omega)]
      simp only [bitAt]
      have hWord : idx / 64 < v.size_ / 64 := by omega
      rw [(h _ hWord).1, (h _ hWord).2]
    · rw [value, value, if_pos (by omega), if_pos (by omega)]

end VvpVector4

end EpicSim
