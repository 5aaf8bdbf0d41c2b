import EpicSim.Vvp.Compare

/-
  What comparisons are to give, and what their loops over
  words and bits find.
-/

namespace EpicSim

open PackedWords Limbs

----
-- What a Comparison Is To Give
----

/- Two bits that are 0 and 1. -/
def BitsDiffer (a b : VvpBit4) : Prop :=
  (a = .zero ∧ b = .one) ∨ (a = .one ∧ b = .zero)

instance (a b : VvpBit4) : Decidable (BitsDiffer a b) :=
  inferInstanceAs (Decidable (_ ∨ _))

/- Some bits of two vectors are 0 and 1. -/
def VvpVector4.Differ (l r : VvpVector4) : Prop :=
  ∃ idx < l.size_, BitsDiffer (l.value idx) (r.value idx)

instance (l r : VvpVector4) : Decidable (l.Differ r) :=
  inferInstanceAs (Decidable (∃ idx < l.size_, _))

/- The values of `==`. -/
def eqValue (signed : Bool) (l r : VvpVector4) : VvpBit4 :=
  if l.Defined ∧ r.Defined then
    if l.integer signed = r.integer signed then .one else .zero
  else if l.Differ r then .zero
  else .x

/- The values of `<`. -/
def ltValue (signed : Bool) (l r : VvpVector4) : VvpBit4 :=
  if l.Defined ∧ r.Defined then
    if l.integer signed < r.integer signed then .one else .zero
  else .x

/- The values of `===`. -/
def caseEqValue (l r : VvpVector4) : VvpBit4 :=
  if ∀ idx < l.size_, l.value idx = r.value idx then .one
  else .zero

----
-- Numbers of Defined Vectors
----

namespace VvpVector4

theorem number_mod_succ (v : VvpVector4) (n : Nat) :
    v.number % 2 ^ (n + 1) = v.number % 2 ^ n + 2 ^ n * (if v.value n = .one then 1 else 0) := by
  have hBit := v.testBit_number n
  rw [Nat.testBit_eq_decide_div_mod_eq] at hBit
  have hIff := decide_eq_decide.mp hBit
  rw [Nat.pow_succ, Nat.mod_mul]
  by_cases hOne : v.value n = .one
  · rw [if_pos hOne, hIff.mpr hOne]
  · grind

theorem number_mod_size (v : VvpVector4) : v.number % 2 ^ v.size_ = v.number :=
  Nat.mod_eq_of_lt v.number_lt

variable {l r : VvpVector4}

section

variable (hSize : r.size_ = l.size_) (hLeft : l.Defined) (hRight : r.Defined)

include hSize hLeft hRight

/- The scan compares the numbers of the bits below. -/
theorem firstDifference_spec :
    ∀ n, n ≤ l.size_ →
      firstDifference l r n =
        if l.number % 2 ^ n < r.number % 2 ^ n then some .zero
        else if r.number % 2 ^ n < l.number % 2 ^ n then
          some .one
        else none := by
  intro n
  induction n with
  | zero =>
    intro _
    simp [firstDifference, Nat.mod_one]
  | succ n ih =>
    intro hn
    have hL := hLeft n (by omega)
    have hR := hRight n (by omega)
    rw [number_mod_succ, number_mod_succ]
    unfold firstDifference
    rcases hL with hL | hL <;> rcases hR with hR | hR
    · grind
    · rw [hL, hR]
      simp only [reduceCtorEq, if_false, if_true]
      rw [if_pos (by omega)]
    · rw [hL, hR]
      simp only [reduceCtorEq, if_false, if_true]
      rw [if_neg (by omega), if_pos (by omega)]
    · grind

/- Defined vectors of one number have the same bits. -/
theorem number_eq_iff :
    l.number = r.number ↔
      ∀ idx < l.size_, l.value idx = r.value idx := by
  constructor
  · intro hEq idx hIdx
    have hOne : l.value idx = .one ↔ r.value idx = .one := by
      rw [← decide_eq_decide, ← testBit_number, ← testBit_number, hEq]
    rcases hLeft idx hIdx with hL | hL
    · rcases hRight idx (by omega) with hR | hR
      · rw [hL, hR]
      · rw [hOne.mpr hR, hR]
    · rw [hOne.mp hL, hL]
  · intro hBits
    apply Nat.eq_of_testBit_eq
    intro idx
    rw [testBit_number, testBit_number]
    by_cases hIdx : idx < l.size_
    · rw [hBits idx hIdx]
    · have hL : l.value idx = .x := if_pos (by omega)
      have hR : r.value idx = .x := if_pos (by omega)
      rw [hL, hR]

theorem differ_iff :
    l.Differ r ↔ l.number ≠ r.number := by
  rw [Ne, number_eq_iff hSize hLeft hRight]
  push Not
  constructor
  · rintro ⟨idx, hIdx, hBits⟩
    refine ⟨idx, hIdx, ?_⟩
    rcases hBits with ⟨hL, hR⟩ | ⟨hL, hR⟩
    · rw [hL, hR]
      decide
    · rw [hL, hR]
      decide
  · rintro ⟨idx, hIdx, hNe⟩
    refine ⟨idx, hIdx, ?_⟩
    rcases hLeft idx hIdx with hL | hL
    · rcases hRight idx (by omega) with hR | hR
      · exact absurd (hL.trans hR.symm) hNe
      · exact Or.inl ⟨hL, hR⟩
    · rcases hRight idx (by omega) with hR | hR
      · exact Or.inr ⟨hL, hR⟩
      · exact absurd (hL.trans hR.symm) hNe

end

/- The sign of a two's complement number is its top bit. -/
theorem integer_signed {v : VvpVector4} (hSize : 0 < v.size_) :
    let low := v.number % 2 ^ (v.size_ - 1)
    v.integer true =
      if v.value (v.size_ - 1) = .one then
        (low : Int) - (2 ^ (v.size_ - 1) : Nat)
      else low := by
  intro low
  have hPred : v.size_ - 1 + 1 = v.size_ := Nat.sub_add_cancel hSize
  have hSucc := v.number_mod_succ (v.size_ - 1)
  rw [hPred, number_mod_size] at hSucc
  have hPow : (2 : Int) ^ v.size_ = (2 ^ (v.size_ - 1) : Nat) + (2 ^ (v.size_ - 1) : Nat) := by
    grind
  unfold integer topSet
  rw [Bool.true_and]
  by_cases hOne : v.value (v.size_ - 1) = .one
  · grind
  · grind

/- Two's complement numbers, by sign and by the bits below. -/
theorem integer_lt_iff {l r : VvpVector4} (hSize : r.size_ = l.size_) (hPos : 0 < l.size_) :
    let top := l.size_ - 1
    l.integer true < r.integer true ↔
      (l.value top = .one ∧ r.value top ≠ .one) ∨
      ((l.value top = .one ↔ r.value top = .one) ∧
        l.number % 2 ^ top < r.number % 2 ^ top) := by
  intro top
  have hL : l.integer true =
      if l.value top = .one then
        ((l.number % 2 ^ top : Nat) : Int) - (2 ^ top : Nat)
      else (l.number % 2 ^ top : Nat) :=
    integer_signed hPos
  have hR := @integer_signed r (by omega)
  rw [hSize] at hR
  change r.integer true =
    if r.value top = .one then
      ((r.number % 2 ^ top : Nat) : Int) - (2 ^ top : Nat)
    else (r.number % 2 ^ top : Nat) at hR
  rw [hL, hR]
  by_cases hTopL : l.value top = .one
  · by_cases hTopR : r.value top = .one
    · rw [if_pos hTopL, if_pos hTopR]
      simp only [hTopL, hTopR, ne_eq, not_true, true_and, false_or]
      omega
    · rw [if_pos hTopL, if_neg hTopR]
      simp only [hTopL, hTopR, ne_eq, not_false_eq_true, and_self, true_or, iff_true]
      omega
  · by_cases hTopR : r.value top = .one
    · rw [if_neg hTopL, if_pos hTopR]
      simp only [hTopL, hTopR, not_true, false_iff, false_and, or_self, iff_false]
      omega
    · rw [if_neg hTopL, if_neg hTopR]
      simp only [hTopL, hTopR, false_and, true_and, false_or]
      omega

theorem integer_eq_iff (hSize : r.size_ = l.size_) (hPos : 0 < l.size_) (signed : Bool) :
    l.integer signed = r.integer signed ↔
      l.number = r.number := by
  cases signed with
  | false =>
    exact Int.ofNat_inj
  | true =>
    constructor
    · intro hEq
      have hLeft := (integer_lt_iff hSize hPos).not.mp (by rw [hEq]; exact Int.lt_irrefl _)
      have hRight := (@integer_lt_iff r l hSize.symm
        (by omega)).not.mp (by rw [hEq]; exact Int.lt_irrefl _)
      rw [hSize] at hRight
      have hL := l.number_mod_succ (l.size_ - 1)
      have hR := r.number_mod_succ (l.size_ - 1)
      have hPred : l.size_ - 1 + 1 = l.size_ := Nat.sub_add_cancel hPos
      rw [hPred, number_mod_size] at hL
      rw [hPred, ← hSize, number_mod_size, hSize] at hR
      by_cases hTopL : l.value (l.size_ - 1) = .one
      · grind
      · grind
    · intro hEq
      have hTop :
          l.value (l.size_ - 1) = .one ↔
            r.value (l.size_ - 1) = .one := by
        rw [← decide_eq_decide, ← testBit_number, ← testBit_number, hEq]
      have hR := @integer_signed r (by omega)
      rw [hSize, ← hEq] at hR
      rw [integer_signed hPos, hR]
      simp only [hTop]

end VvpVector4

----
-- Words and Bits
----

theorem mapM_all_some {α β : Type} {f : α → Option β} {g : α → β} {xs : List α}
    (h : ∀ x ∈ xs, f x = some (g x)) : xs.mapM f = some (xs.map g) := by
  induction xs with
  | nil => rfl
  | cons x xs ih => grind

theorem mapM_some_none {α β : Type} {f : α → Option β} {xs : List α} {x : α} (hMem : x ∈ xs)
    (hNone : f x = none) : xs.mapM f = none := by
  induction xs with
  | nil => cases hMem
  | cons y ys ih =>
    rw [List.mapM_cons]
    rcases List.mem_cons.mp hMem with hHere | hRest
    · rw [← hHere, hNone]
      rfl
    · rw [ih hRest]
      cases f y <;> rfl

namespace VvpVector4

/- The mask keeps the bits of the word. -/
theorem getLsbD_tailMask {wid off : Nat} (hOff : off < 64) :
    (if wid < 64 then lowMask wid
      else BitVec.allOnes 64).getLsbD off =
      decide (off < wid) := by
  split
  · next hPart => exact getLsbD_lowMask hPart off
  · rw [BitVec.getLsbD_allOnes, decide_eq_decide]
    omega

theorem subarray_defined {v : VvpVector4} (h : v.Defined) :
    v.subarray = some (VvpVector2.subarray v) := by
  apply mapM_all_some
  intro wdx hMem
  have hZero :
      wordAt v.bbits wdx &&&
          (if v.size_ - 64 * wdx < 64 then
            lowMask (v.size_ - 64 * wdx)
          else BitVec.allOnes 64) = 0#64 := by
    rw [word_eq_zero_iff]
    intro off hOff
    rw [BitVec.getLsbD_and, getLsbD_tailMask hOff]
    by_cases hIn : off < v.size_ - 64 * wdx
    · have hBit := (defined_iff v).mp h (64 * wdx + off) (by omega)
      rw [bitAt_word _ _ hOff] at hBit
      rw [hBit, Bool.false_and]
    · rw [decide_eq_false hIn, Bool.and_false]
  simp only [hZero, ne_eq, not_true, if_false]
  rw [BitVec.not_zero, BitVec.and_allOnes]

theorem subarray_undefined {v : VvpVector4} (h : ¬ v.Defined) : v.subarray = none := by
  rw [defined_iff] at h
  push Not at h
  rcases h with ⟨idx, hIdx, hBit⟩
  apply mapM_some_none (List.mem_range.mpr (VvpVector2.wordsFor_div hIdx))
  have hOff : idx % 64 < 64 := Nat.mod_lt _ (by decide)
  have hWord :
      wordAt v.bbits (idx / 64) &&&
          (if v.size_ - 64 * (idx / 64) < 64 then
            lowMask (v.size_ - 64 * (idx / 64))
          else BitVec.allOnes 64) ≠ 0#64 := by
    intro hZero
    have hClear := (word_eq_zero_iff _).mp hZero _ hOff
    rw [BitVec.getLsbD_and, getLsbD_tailMask hOff,
      decide_eq_true (by omega), Bool.and_true] at hClear
    exact hBit hClear
  exact if_pos hWord

theorem toNat_subarray (v : VvpVector4) : toNat (VvpVector2.subarray v) = v.number :=
  whole_copyFromThat v

/- Words with the same bits, and the bits of the last one. -/
theorem words_eq_of_bits {n : Nat} {words words' : List (BitVec 64)}
    (h : ∀ idx < n, bitAt words idx = bitAt words' idx) :
    (∀ wdx < n / 64, wordAt words wdx = wordAt words' wdx) ∧
      wordAt words (n / 64) &&& lowMask (n % 64) = wordAt words' (n / 64) &&& lowMask (n % 64) := by
  have hLess : n % 64 < 64 := Nat.mod_lt _ (by decide)
  constructor
  · intro wdx hWdx
    apply BitVec.eq_of_getLsbD_eq
    intro off hOff
    rw [← bitAt_word _ _ hOff, ← bitAt_word _ _ hOff]
    exact h _ (by omega)
  · apply BitVec.eq_of_getLsbD_eq
    intro off hOff
    rw [BitVec.getLsbD_and, BitVec.getLsbD_and, getLsbD_lowMask hLess]
    by_cases hIn : off < n % 64
    · rw [← bitAt_word _ _ hOff, ← bitAt_word _ _ hOff, h _ (by omega)]
    · rw [decide_eq_false hIn, Bool.and_false, Bool.and_false]

/- Vectors with the same bits compare as exactly equal. -/
theorem eeq_of_value {l r : VvpVector4} (hSize : r.size_ = l.size_)
    (hBits : ∀ idx < l.size_, l.value idx = r.value idx) : l.eeq r = true := by
  have hBoth :
      ∀ idx < l.size_,
        bitAt l.abits idx = bitAt r.abits idx ∧
        bitAt l.bbits idx = bitAt r.bbits idx := by
    intro idx hIdx
    have hSame := hBits idx hIdx
    rw [value_of_lt hIdx, value_of_lt (by omega)] at hSame
    revert hSame
    cases bitAt l.abits idx <;> cases bitAt l.bbits idx <;>
      cases bitAt r.abits idx <;> cases bitAt r.bbits idx <;>
      decide
  rcases words_eq_of_bits (fun idx hIdx => (hBoth idx hIdx).1) with ⟨hFullA, hTailA⟩
  rcases words_eq_of_bits (fun idx hIdx => (hBoth idx hIdx).2) with ⟨hFullB, hTailB⟩
  unfold eeq
  rw [if_neg (not_not_intro hSize.symm)]
  simp only [Bool.and_eq_true, List.all_eq_true, List.mem_range, beq_iff_eq]
  refine ⟨fun wdx hWdx => ⟨hFullA wdx hWdx, hFullB wdx hWdx⟩, ?_⟩
  split
  · grind
  · rfl

theorem eeq_iff {l r : VvpVector4} (hSize : r.size_ = l.size_) :
    l.eeq r = true ↔ ∀ idx < l.size_, l.value idx = r.value idx :=
  ⟨fun h idx _ => (value_of_eeq h).2 idx, eeq_of_value hSize⟩

end VvpVector4

----
-- Loops Over the Bits
----

theorem BitsDiffer.ne {a b : VvpBit4} (h : BitsDiffer a b) : a ≠ b := by
  rcases h with ⟨ha, hb⟩ | ⟨ha, hb⟩
  · rw [ha, hb]
    decide
  · rw [ha, hb]
    decide

theorem compareBits_differ {l r : VvpVector4} {idx : Nat} {rest : List Nat} {eq eeq : VvpBit4}
    (h : BitsDiffer (l.value idx) (r.value idx)) :
    compareBits l r (idx :: rest) eq eeq = (.zero, .zero) := by
  unfold compareBits
  rcases h with ⟨hL, hR⟩ | ⟨hL, hR⟩
  · simp [hL, hR]
  · simp [hL, hR]

theorem compareBits_same {l r : VvpVector4} {idx : Nat} {rest : List Nat}
    {eq eeq : VvpBit4} (hEq : eq ≠ .zero) (h : ¬ BitsDiffer (l.value idx) (r.value idx)) :
    compareBits l r (idx :: rest) eq eeq =
      compareBits l r rest
        (if eq = .one ∧
            ((l.value idx).isXz ∨ (r.value idx).isXz) then .x
          else eq)
        (if l.value idx ≠ r.value idx then .zero else eeq) := by
  have hUp : ¬ (l.value idx = .zero ∧ r.value idx = .one) := fun hBits => h (Or.inl hBits)
  have hDown : ¬ (l.value idx = .one ∧ r.value idx = .zero) := fun hBits => h (Or.inr hBits)
  have hNext :
      (if eq = .one ∧
          ((l.value idx).isXz ∨ (r.value idx).isXz) then .x
        else eq) ≠ VvpBit4.zero := by
    split
    · decide
    · exact hEq
  rw [compareBits]
  simp only [if_neg hUp, if_neg hDown, if_neg hNext]

/- The loop finds the bits that differ and those X or Z. -/
theorem compareBits_spec (l r : VvpVector4) (idxs : List Nat) :
    ∀ eq eeq : VvpBit4, eq ≠ .zero →
      compareBits l r idxs eq eeq =
        if ∃ idx ∈ idxs,
            BitsDiffer (l.value idx) (r.value idx) then
          (.zero, .zero)
        else
          (if eq = .one ∧ ∃ idx ∈ idxs,
              ((l.value idx).isXz ∨ (r.value idx).isXz) then .x
            else eq,
           if ∃ idx ∈ idxs, l.value idx ≠ r.value idx then .zero
            else eeq) := by
  induction idxs with
  | nil =>
    intro eq eeq _
    simp [compareBits]
  | cons idx rest ih =>
    intro eq eeq hEq
    simp only [List.mem_cons, exists_eq_or_imp]
    by_cases hHere : BitsDiffer (l.value idx) (r.value idx)
    · rw [compareBits_differ hHere, if_pos (Or.inl hHere)]
    · have hNext :
          (if eq = .one ∧
              ((l.value idx).isXz ∨ (r.value idx).isXz) then .x
            else eq) ≠ VvpBit4.zero := by
        split
        · decide
        · exact hEq
      rw [compareBits_same hEq hHere, ih _ _ hNext]
      simp only [hHere, false_or]
      split
      · rfl
      · congr 1
        · grind
        · by_cases hNe : l.value idx = r.value idx
          · simp [hNe]
          · simp [hNe]

theorem cmpEqLoop_cons (l r : VvpVector4) (idx : Nat) (rest : List Nat) (res : VvpBit4) :
    cmpEqLoop l r (idx :: rest) res =
      if BitsDiffer (l.value idx) (r.value idx) then .zero
      else
        cmpEqLoop l r rest
          (if (l.value idx).isXz ∨ (r.value idx).isXz then .x
            else res) := by
  rw [cmpEqLoop]
  generalize l.value idx = a
  generalize r.value idx = b
  cases a <;> cases b <;> rfl

/- The loop of nets finds the same. -/
theorem cmpEqLoop_spec (l r : VvpVector4) (idxs : List Nat) :
    ∀ res : VvpBit4,
      cmpEqLoop l r idxs res =
        if ∃ idx ∈ idxs,
            BitsDiffer (l.value idx) (r.value idx) then .zero
        else if ∃ idx ∈ idxs, ((l.value idx).isXz ∨ (r.value idx).isXz) then .x
        else res := by
  induction idxs with
  | nil =>
    intro res
    simp [cmpEqLoop]
  | cons idx rest ih =>
    intro res
    rw [cmpEqLoop_cons, ih]
    simp only [List.mem_cons, exists_eq_or_imp]
    by_cases hHere : BitsDiffer (l.value idx) (r.value idx)
    · rw [if_pos hHere, if_pos (Or.inl hHere)]
    · rw [if_neg hHere]
      simp only [hHere, false_or]
      by_cases hXz : (l.value idx).isXz ∨ (r.value idx).isXz
      · simp only [hXz, true_or, if_true, ite_self]
      · simp only [hXz, false_or, if_false]

end EpicSim
