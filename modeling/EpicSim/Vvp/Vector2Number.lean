import EpicSim.Vvp.Vector2

/-
  What the operations on two-state vectors do to the number
  of the whole words, tail bits included.
-/

----
-- Whole Words
----

namespace EpicSim

open PackedWords Limbs

theorem wordsFor_bounds (wid : Nat) : wid ≤ 64 * wordsFor wid ∧ 64 * wordsFor wid < wid + 64 := by
  unfold wordsFor
  omega

theorem wordsFor_pos {wid : Nat} (h : 0 < wid) : 0 < wordsFor wid := by
  unfold wordsFor
  omega

namespace VvpVector2

/- The number of the whole words, tail bits included. -/
def whole (v : VvpVector2) : Nat := toNat v.vec

/- The tail bits are zero. -/
def Clean (v : VvpVector2) : Prop := v.whole < 2 ^ v.wid

theorem whole_lt (v : VvpVector2) : v.whole < 2 ^ (64 * wordsFor v.wid) := by
  have hLt := toNat_lt v.vec
  rwa [v.vec_length] at hLt

theorem wordsFor_div {idx wid : Nat} (h : idx < wid) : idx / 64 < wordsFor wid := by
  unfold wordsFor
  omega

theorem bitAt_eq (words : List (BitVec 64)) (idx : Nat) :
    bitAt words idx = (toNat words).testBit idx := by
  rw [testBit_toNat (by decide)]
  rfl

theorem value_eq (v : VvpVector2) (idx : Nat) :
    v.value idx = (decide (idx < v.wid) && v.whole.testBit idx) := by
  unfold value whole
  rw [bitAt_eq]
  by_cases h : idx < v.wid
  · rw [if_neg (Nat.not_le.mpr h), decide_eq_true h, Bool.true_and]
  · rw [if_pos (Nat.not_lt.mp h), decide_eq_false h, Bool.false_and]

theorem number_eq (v : VvpVector2) : v.number = v.whole % 2 ^ v.wid := by
  apply Nat.eq_of_testBit_eq
  intro idx
  rw [Nat.testBit_mod_two_pow, number]
  by_cases h : idx < v.wid
  · rw [Nat.testBit_ofBits_lt _ _ h, value_eq]
  · rw [Nat.testBit_ofBits_ge _ _ (Nat.not_lt.mp h), decide_eq_false h, Bool.false_and]

theorem number_lt (v : VvpVector2) : v.number < 2 ^ v.wid := by
  rw [number_eq]
  exact Nat.mod_lt _ (Nat.two_pow_pos _)

theorem Clean.number {v : VvpVector2} (h : v.Clean) : v.number = v.whole := by
  rw [number_eq, Nat.mod_eq_of_lt h]

theorem clean_of_number {v : VvpVector2} (h : v.whole = v.number) : v.Clean := by
  unfold Clean
  rw [h]
  exact v.number_lt

theorem clean_of_testBit {v : VvpVector2} (h : ∀ idx, v.wid ≤ idx → v.whole.testBit idx = false) :
    v.Clean :=
  Nat.lt_pow_two_of_testBit _ h

end VvpVector2

end EpicSim

----
-- Constructors
----

namespace EpicSim

open PackedWords Limbs

namespace VvpVector2

theorem whole_ofLong (v : BitVec 64) {wid : Nat} (h : 0 < wid) :
    (ofLong v wid).whole = v.toNat := by
  rcases Nat.exists_eq_succ_of_ne_zero (Nat.pos_iff_ne_zero.mp (wordsFor_pos h)) with ⟨n, hn⟩
  simp [whole, ofLong, hn, List.replicate_succ]

theorem whole_ofFill (fill : Bool) (wid : Nat) :
    (ofFill fill wid).whole =
      if fill then 2 ^ (64 * wordsFor wid) - 1 else 0 := by
  cases fill with
  | false => simp [whole, ofFill]
  | true =>
    have hOnes := toNat_complement (List.replicate (wordsFor wid) (0#64))
    rw [List.map_replicate, toNat_replicate_zero, List.length_replicate] at hOnes
    simp only [whole, ofFill, if_true]
    grind

theorem whole_resize (that : VvpVector2) (newsize : Nat) :
    (that.resize newsize).whole = that.whole % 2 ^ (64 * wordsFor newsize) := by
  apply Nat.eq_of_testBit_eq
  intro idx
  rw [whole, testBit_toNat (by decide), Nat.testBit_mod_two_pow, whole, testBit_toNat (by decide)]
  simp only [resize]
  by_cases h : idx / 64 < wordsFor newsize
  · have hIdx : idx < 64 * wordsFor newsize := by omega
    rw [decide_eq_true hIdx, Bool.true_and, List.getD_eq_getElem _ _ (by simpa using h)]
    simp only [List.getElem_map, List.getElem_range]
    split_ifs with hOld
    · rfl
    · rw [List.getD_eq_default _ _ (by
        rw [that.vec_length]
        exact Nat.not_lt.mp hOld)]
  · grind

/- A bit of a conversion is set where the vector has a 1. -/
theorem testBit_copyFromThat (that : VvpVector4) (idx : Nat) :
    (copyFromThat that).whole.testBit idx =
      decide (that.value idx = .one) := by
  rw [whole, testBit_toNat (by decide)]
  simp only [copyFromThat, subarray]
  have hOff : idx % 64 < 64 := Nat.mod_lt _ (by decide)
  by_cases h : idx < that.size_
  · have hWord : idx / 64 < wordsFor that.size_ :=
      wordsFor_div h
    have hMask : BitVec.getLsbD
        (if that.size_ - 64 * (idx / 64) < 64 then
          lowMask (that.size_ - 64 * (idx / 64))
        else BitVec.allOnes 64) (idx % 64) = true := by
      split_ifs with hPart
      · rw [getLsbD_lowMask hPart, decide_eq_true]
        omega
      · rw [BitVec.getLsbD_allOnes, decide_eq_true hOff]
    rw [List.getD_eq_getElem _ _ (by simpa using hWord)]
    simp only [List.getElem_map, List.getElem_range, BitVec.getLsbD_and, BitVec.getLsbD_not,
      hMask, hOff]
    unfold VvpVector4.value bitAt
    rw [if_neg (Nat.not_le.mpr h)]
    cases BitVec.getLsbD (wordAt that.abits (idx / 64)) (idx % 64) <;>
      cases BitVec.getLsbD (wordAt that.bbits (idx / 64)) (idx % 64) <;>
      simp [VvpBit4.ofBits]
  · have hValue : that.value idx = .x := by
      unfold VvpVector4.value
      rw [if_pos (Nat.not_lt.mp h)]
    rw [hValue]
    by_cases hWord : idx / 64 < wordsFor that.size_
    · have hPart : that.size_ - 64 * (idx / 64) < 64 := by omega
      have hMask : BitVec.getLsbD
          (lowMask (that.size_ - 64 * (idx / 64)))
          (idx % 64) = false := by
        rw [getLsbD_lowMask hPart, decide_eq_false]
        omega
      grind
    · grind

theorem clean_copyFromThat (that : VvpVector4) : (copyFromThat that).Clean := by
  apply clean_of_testBit
  intro idx h
  have hValue : that.value idx = .x := by
    exact if_pos h
  rw [testBit_copyFromThat, hValue]
  rfl

/- A bit that is written changes alone. -/
theorem testBit_setBit {v res : VvpVector2} {idx : Nat} {bit : Bool}
    (h : v.setBit idx bit = some res) (j : Nat) :
    res.whole.testBit j =
      if j = idx then bit else v.whole.testBit j := by
  unfold setBit at h
  split_ifs at h with hIdx
  injection h with h
  subst h
  have hLength : idx / 64 < v.vec.length := by
    rw [v.vec_length]
    exact wordsFor_div hIdx
  unfold whole
  rw [← bitAt_eq, ← bitAt_eq]
  exact bitAt_putBit hLength bit j

theorem clean_setBit {v res : VvpVector2} (h : v.Clean) {idx : Nat} {bit : Bool}
    (hRes : v.setBit idx bit = some res) : res.Clean := by
  have hBits := testBit_setBit hRes
  have hIdx : idx < v.wid ∧ res.wid = v.wid := by
    unfold setBit at hRes
    grind
  apply clean_of_testBit
  intro j hj
  rw [hIdx.2] at hj
  rw [hBits, if_neg (by omega)]
  exact Nat.testBit_lt_two_pow (Nat.lt_of_lt_of_le h (Nat.pow_le_pow_right (by decide) hj))

end VvpVector2

end EpicSim

----
-- Addition And Subtraction
----

namespace EpicSim

open PackedWords Limbs

namespace VvpVector2

/- The mask of the tail keeps the width. -/
theorem toNat_maskTail {wid : Nat} (hWid : 0 < wid) {vec : List (BitVec 64)}
    (hVec : vec.length = wordsFor wid) : toNat (maskTail wid vec) = toNat vec % 2 ^ wid := by
  have hPos := wordsFor_pos hWid
  have hCount : 64 - (64 - (64 - wid % 64) % 64) =
      (64 - wid % 64) % 64 := by omega
  have hTotal : 64 * (wordsFor wid - 1) + (64 - (64 - wid % 64) % 64) = wid := by
    unfold wordsFor
    omega
  have hLast : wordsFor wid - 1 + 1 = wordsFor wid := Nat.sub_add_cancel hPos
  have hTop := toNat_lt vec
  rw [hVec, ← hLast] at hTop
  have hMask := toNat_modify_mask (by omega) hTop (Nat.sub_le 64 ((64 - wid % 64) % 64))
  rw [hCount, hTotal] at hMask
  exact hMask

/- A sum wraps exactly where the test for a carry says so. -/
theorem toNat_add_word (x y : BitVec 64) :
    (x + y).toNat + (if BitVec.allOnes 64 - x < y then 2 ^ 64 else 0) = x.toNat + y.toNat := by
  have hX := x.isLt
  have hY := y.isLt
  have hRoom : (BitVec.allOnes 64 - x).toNat = 2 ^ 64 - 1 - x.toNat := by grind
  rw [BitVec.toNat_add]
  simp only [BitVec.lt_def]
  generalize (2 : Nat) ^ 64 = p at *
  split_ifs with h
  · rw [Nat.mod_eq_sub_mod (by omega), Nat.mod_eq_of_lt (by omega)]
    omega
  · rw [Nat.mod_eq_of_lt (by omega), Nat.add_zero]

/- With a carry of at most one, at most one test succeeds. -/
theorem addCarry_spec (a b carry : BitVec 64) (hCarry : carry.toNat ≤ 1) :
    (addCarry a b carry).1.toNat + 2 ^ 64 * (addCarry a b carry).2.toNat =
      a.toNat + b.toNat + carry.toNat ∧
    (addCarry a b carry).2.toNat ≤ 1 := by
  have hA := a.isLt
  have hB := b.isLt
  have hFirst := toNat_add_word carry a
  have hSecond := toNat_add_word (carry + a) b
  have hZero : (0 : BitVec 64).toNat = 0 := rfl
  have hOne : (0 + 1 : BitVec 64).toNat = 1 := rfl
  simp only [addCarry]
  generalize (2 : Nat) ^ 64 = p at *
  split_ifs at hFirst hSecond ⊢ with h₁ h₂ h₂
  · omega
  · rw [hOne]
    omega
  · rw [hOne]
    omega
  · rw [hZero]
    omega

theorem adder_addCarry : Adder addCarry :=
  ⟨fun a b carry h => (addCarry_spec a b carry h).1,
    fun a b carry h => (addCarry_spec a b carry h).2⟩

variable {a b : VvpVector2}

theorem length_eq_of_wid (h : a.wid = b.wid) : a.vec.length = b.vec.length := by
  rw [a.vec_length, b.vec_length, h]

/- Numbers modulo the words are numbers modulo the width. -/
theorem mod_words_mod (x wid : Nat) : x % 2 ^ (64 * wordsFor wid) % 2 ^ wid = x % 2 ^ wid :=
  Nat.mod_mod_of_dvd x (Nat.pow_dvd_pow 2 (wordsFor_bounds wid).1)

theorem addAssign_spec (h : a.wid = b.wid) :
    ∃ res, a.addAssign b = some res ∧ res.wid = a.wid ∧
      res.whole = (a.whole + b.whole) % 2 ^ a.wid := by
  unfold addAssign
  rw [dif_pos h]
  by_cases hWid : a.wid = 0
  · rw [if_pos hWid]
    have hA := a.whole_lt
    have hWords : wordsFor a.wid = 0 := by
      rw [hWid]
      rfl
    grind
  · rw [if_neg hWid]
    refine ⟨_, rfl, rfl, ?_⟩
    have hSame := length_eq_of_wid h
    change toNat (maskTail a.wid _) = _
    rw [toNat_maskTail (Nat.pos_of_ne_zero hWid)
      (by rw [ripple_length _ _ _ _ hSame, a.vec_length]),
      ripple_mod adder_addCarry hSame (by decide),
      a.vec_length, mod_words_mod]
    simp [whole]

theorem subAssign_spec (h : a.wid = b.wid) :
    ∃ res, a.subAssign b = some res ∧ res.wid = a.wid ∧
      res.whole =
        (a.whole + (2 ^ (64 * wordsFor a.wid) - b.whole)) % 2 ^ (64 * wordsFor a.wid) := by
  unfold subAssign
  rw [dif_pos h]
  by_cases hWid : a.wid = 0
  · rw [if_pos hWid]
    have hA := a.whole_lt
    have hWords : wordsFor a.wid = 0 := by
      rw [hWid]
      rfl
    grind
  · rw [if_neg hWid]
    refine ⟨_, rfl, rfl, ?_⟩
    have hSame : a.vec.length = (b.vec.map (fun word => ~~~word)).length := by
      rw [List.length_map, length_eq_of_wid h]
    have hNot := toNat_complement b.vec
    rw [b.vec_length, ← h] at hNot
    change toNat (ripple _ _ _ _).1 = _
    rw [ripple_mod adder_addCarry hSame (by decide), a.vec_length]
    have hOne : (1#64).toNat = 1 := rfl
    have hTail : toNat (b.vec.map (fun word => ~~~word)) + 1 =
        2 ^ (64 * wordsFor a.wid) - b.whole := by
      unfold whole at *
      omega
    rw [Nat.add_assoc, hOne, hTail]
    rfl

/- Subtraction of a number that is not greater. -/
theorem subAssign_of_le (h : a.wid = b.wid) (hLe : b.whole ≤ a.whole) :
    ∃ res, a.subAssign b = some res ∧ res.wid = a.wid ∧
      res.whole = a.whole - b.whole := by
  rcases subAssign_spec h with ⟨res, hRes, hWid, hWhole⟩
  refine ⟨res, hRes, hWid, ?_⟩
  have hA := a.whole_lt
  have hSum : a.whole +
      (2 ^ (64 * wordsFor a.wid) - b.whole) = (a.whole - b.whole) + 2 ^ (64 * wordsFor a.wid) := by
    omega
  rw [hWhole, hSum, Nat.add_mod_right, Nat.mod_eq_of_lt]
  omega

theorem neg_spec (that : VvpVector2) :
    ∃ res, that.neg = some res ∧ res.wid = that.wid ∧
      res.whole = (2 ^ (64 * wordsFor that.wid) - that.whole) % 2 ^ that.wid := by
  unfold neg
  by_cases hWid : that.wid = 0
  · rw [if_pos hWid]
    have hThat := that.whole_lt
    have hWords : wordsFor that.wid = 0 := by
      rw [hWid]
      rfl
    grind
  · rw [if_neg hWid]
    have hNot := toNat_complement that.vec
    rw [that.vec_length] at hNot
    rcases addAssign_spec
        (a := { vec := that.vec.map (fun word => ~~~word)
                wid := that.wid
                vec_length := by simp [that.vec_length] })
        (b := ofLong 1#64 that.wid) rfl with
      ⟨res, hRes, hResWid, hWhole⟩
    refine ⟨res, hRes, hResWid, ?_⟩
    rw [hWhole, whole_ofLong _ (Nat.pos_of_ne_zero hWid)]
    have hOne : (1#64).toNat = 1 := rfl
    have hSum : toNat (that.vec.map (fun word => ~~~word)) + 1 =
        2 ^ (64 * wordsFor that.wid) - that.whole := by
      unfold whole at *
      omega
    change (toNat (that.vec.map (fun word => ~~~word)) + (1#64).toNat) % 2 ^ that.wid = _
    rw [hOne, hSum]

/- The negative of a number without tail bits. -/
theorem neg_of_clean {that : VvpVector2} (h : that.Clean) :
    ∃ res, that.neg = some res ∧ res.wid = that.wid ∧
      res.whole = (2 ^ that.wid - that.whole) % 2 ^ that.wid := by
  rcases neg_spec that with ⟨res, hRes, hWid, hWhole⟩
  refine ⟨res, hRes, hWid, ?_⟩
  have hBound := (wordsFor_bounds that.wid).1
  have hSplit : 2 ^ (64 * wordsFor that.wid) =
      2 ^ that.wid * 2 ^ (64 * wordsFor that.wid - that.wid) := by
    rw [← pow_add, Nat.add_sub_cancel' hBound]
  have hPos := Nat.two_pow_pos (64 * wordsFor that.wid - that.wid)
  rw [hWhole, hSplit]
  generalize 2 ^ (64 * wordsFor that.wid - that.wid) = k at *
  have hK : 2 ^ that.wid * k = 2 ^ that.wid + 2 ^ that.wid * (k - 1) := by
    rw [Nat.mul_sub]
    have hLe := Nat.le_mul_of_pos_right (2 ^ that.wid) hPos
    omega
  have hLt : that.whole < 2 ^ that.wid := h
  have hSum : 2 ^ that.wid * k - that.whole =
      (2 ^ that.wid - that.whole) + 2 ^ that.wid * (k - 1) := by
    omega
  rw [hSum, Nat.add_mul_mod_self_left]

end VvpVector2

end EpicSim

----
-- Shifts
----

namespace EpicSim

open PackedWords Limbs

namespace VvpVector2

theorem whole_of_wid_zero {v : VvpVector2} (h : v.wid = 0) : v.whole = 0 := by
  have hLt := v.whole_lt
  rw [h] at hLt
  exact Nat.lt_one_iff.mp hLt

/- A shift by more than all words leaves nothing. -/
theorem mul_pow_mod_of_le (x : Nat) {shift count : Nat} (h : count ≤ shift) :
    x * 2 ^ shift % 2 ^ count = 0 :=
  Nat.mod_eq_zero_of_dvd (Dvd.dvd.mul_left (Nat.pow_dvd_pow 2 h) x)

/-
  A shift that moves bits within words is cut at the width,
  one by whole words only at the last word.
-/
theorem shiftLeft_spec (v : VvpVector2) (shift : Nat) :
    (v.shiftLeft shift).wid = v.wid ∧
      (v.shiftLeft shift).whole =
        v.whole * 2 ^ shift %
          2 ^ (if shift % 64 = 0 then 64 * wordsFor v.wid
            else v.wid) := by
  have hBounds := wordsFor_bounds v.wid
  have hShift : 64 * (shift / 64) + shift % 64 = shift := Nat.div_add_mod shift 64
  unfold shiftLeft
  by_cases hWid : v.wid = 0
  · rw [if_pos hWid, whole_of_wid_zero hWid]
    simp
  rw [if_neg hWid]
  by_cases hGone : wordsFor v.wid ≤ shift / 64
  · rw [dif_pos hGone]
    refine ⟨rfl, ?_⟩
    change toNat (List.replicate _ _) = _
    rw [toNat_replicate_zero, mul_pow_mod_of_le]
    split_ifs
    · omega
    · omega
  rw [dif_neg hGone]
  -- the words that are shifted out are those past the end
  have hWords :
      toNat (List.replicate (shift / 64) 0#64 ++ v.vec.take (wordsFor v.wid - shift / 64)) =
        v.whole * 2 ^ (64 * (shift / 64)) % 2 ^ (64 * wordsFor v.wid) := by
    have hSplit : 64 * wordsFor v.wid =
        64 * (wordsFor v.wid - shift / 64) +
          64 * (shift / 64) := by omega
    rw [toNat_append, toNat_replicate_zero, Nat.zero_add, List.length_replicate,
      toNat_take, hSplit, pow_add, Nat.mul_mod_mul_right, Nat.mul_comm]
    rfl
  have hLength :
      (List.replicate (shift / 64) 0#64 ++
        v.vec.take (wordsFor v.wid - shift / 64)).length = wordsFor v.wid := by
    rw [List.length_append, List.length_replicate, List.length_take, v.vec_length]
    omega
  by_cases hOff : shift % 64 = 0
  · rw [if_neg (not_not.mpr hOff), if_pos hOff]
    refine ⟨rfl, ?_⟩
    change toNat (_ ++ _) = _
    rw [hWords, ← hShift, hOff, Nat.add_zero, Nat.mul_div_cancel_left _ (by decide : 0 < 64)]
  · rw [if_pos hOff, if_neg hOff]
    refine ⟨rfl, ?_⟩
    change toNat (maskTail _ _) = _
    rw [toNat_maskTail (Nat.pos_of_ne_zero hWid) (by rw [shiftUp_length, hLength]),
      shiftUp_spec (Nat.le_of_lt (Nat.mod_lt _ (by decide))) (Nat.two_pow_pos _), hLength,
      hWords, mod_words_mod, BitVec.toNat_zero, Nat.add_zero, Nat.mul_mod, mod_words_mod,
      ← Nat.mul_mod, Nat.mul_assoc, ← pow_add, hShift]

/- Clearing from the top leaves the low bits. -/
theorem cleanTail_spec {useWords maskShift : Nat} {vec : List (BitVec 64)}
    (hLength : useWords ≤ vec.length) (hTop : toNat vec < 2 ^ (64 * useWords)) :
    (maskShift ≤ 64 * useWords →
      ∃ res, cleanTail useWords maskShift vec = some res ∧
        toNat res = toNat vec % 2 ^ (64 * useWords - maskShift)) ∧
    (64 * useWords < maskShift →
      cleanTail useWords maskShift vec = none) := by
  induction useWords generalizing maskShift vec with
  | zero =>
    constructor
    · intro hShift
      obtain rfl : maskShift = 0 := by omega
      refine ⟨vec, rfl, ?_⟩
      rw [Nat.mod_eq_of_lt hTop]
    · intro hShift
      rw [cleanTail, if_neg (by omega)]
  | succ useWords ih =>
    rw [cleanTail]
    by_cases hWord : 64 ≤ maskShift
    · rw [if_pos hWord]
      have hSet := toNat_set_zero hTop
      have hRest := @ih (maskShift - 64)
        (vec.set useWords 0#64)
        (by
          rw [List.length_set]
          exact Nat.le_of_succ_le hLength)
        (by
          rw [hSet]
          exact Nat.mod_lt _ (Nat.two_pow_pos _))
      constructor
      · intro hShift
        rcases hRest.1 (by omega) with ⟨res, hRes, hNat⟩
        refine ⟨res, hRes, ?_⟩
        have hExp : 64 * useWords - (maskShift - 64) =
            64 * (useWords + 1) - maskShift := by omega
        rw [hNat, hSet, hExp]
        exact Nat.mod_mod_of_dvd _ (Nat.pow_dvd_pow 2 (by omega))
      · intro hShift
        exact hRest.2 (by omega)
    · rw [if_neg hWord]
      refine ⟨fun _ => ?_, fun hShift => by omega⟩
      by_cases hSome : 0 < maskShift
      · rw [if_pos hSome]
        refine ⟨_, rfl, ?_⟩
        have hCount : 64 - (64 - maskShift) = maskShift := by omega
        have hMask := toNat_modify_mask (n := useWords) hLength hTop (Nat.sub_le 64 maskShift)
        have hExp : 64 * useWords + (64 - maskShift) =
            64 * (useWords + 1) - maskShift := by omega
        rw [hCount, hExp] at hMask
        unfold onesAfter
        rw [Nat.mod_eq_of_lt (by omega : maskShift < 64)]
        exact hMask
      · rw [if_neg hSome]
        refine ⟨vec, rfl, ?_⟩
        obtain rfl : maskShift = 0 := by omega
        rw [Nat.sub_zero, Nat.mod_eq_of_lt hTop]

/-
  The shift fails when its bits within a word are more than
  the vector has.  It clears all above the width, and more.
-/
theorem shiftRight_spec (v : VvpVector2) (shift : Nat) :
    (shift % 64 ≤ v.wid ∨ wordsFor v.wid ≤ shift / 64 → ∃ res, v.shiftRight shift = some res) ∧
    ∀ res, v.shiftRight shift = some res →
      res.wid = v.wid ∧
        res.whole =
          v.whole / 2 ^ shift %
            2 ^ (if shift % 64 = 0 then 64 * wordsFor v.wid
              else v.wid - shift % 64) := by
  have hShift : 64 * (shift / 64) + shift % 64 = shift := Nat.div_add_mod shift 64
  unfold shiftRight
  simp only
  by_cases hWid : v.wid = 0
  · rw [if_pos hWid]
    refine ⟨fun _ => ⟨v, rfl⟩, fun res hRes => ?_⟩
    injection hRes with hRes
    subst hRes
    rw [whole_of_wid_zero hWid]
    simp
  rw [if_neg hWid]
  by_cases hGone : wordsFor v.wid ≤ shift / 64
  · rw [dif_pos hGone]
    refine ⟨fun _ => ⟨_, rfl⟩, fun res hRes => ?_⟩
    injection hRes with hRes
    subst hRes
    refine ⟨rfl, ?_⟩
    change toNat (List.replicate _ _) = _
    rw [toNat_replicate_zero, Nat.div_eq_of_lt, Nat.zero_mod]
    exact Nat.lt_of_lt_of_le v.whole_lt (Nat.pow_le_pow_right (by decide) (by omega))
  rw [dif_neg hGone]
  have hWords :
      toNat (v.vec.drop (shift / 64) ++ List.replicate (shift / 64) 0#64) =
        v.whole / 2 ^ (64 * (shift / 64)) := by
    rw [toNat_append, toNat_replicate_zero, toNat_drop]
    rfl
  have hLength :
      (v.vec.drop (shift / 64) ++ List.replicate (shift / 64) 0#64).length = wordsFor v.wid := by
    rw [List.length_append, List.length_replicate, List.length_drop, v.vec_length]
    omega
  have hFits : ∀ n, v.whole / n < 2 ^ (64 * wordsFor v.wid) :=
    fun n => Nat.lt_of_le_of_lt (Nat.div_le_self _ _) v.whole_lt
  by_cases hOff : shift % 64 = 0
  · have hZero : ¬0 < shift % 64 := by omega
    rw [if_neg hZero, if_pos hOff]
    refine ⟨fun _ => ⟨_, rfl⟩, fun res hRes => ?_⟩
    injection hRes with hRes
    subst hRes
    refine ⟨rfl, ?_⟩
    have hExp : 64 * (shift / 64) = shift := by omega
    change toNat (_ ++ _) = _
    rw [hWords, hExp, Nat.mod_eq_of_lt (hFits _)]
  · have hSome : 0 < shift % 64 := Nat.pos_of_ne_zero hOff
    rw [if_pos hSome, if_neg hOff]
    have hFine := (shiftDown_spec
      (Nat.le_of_lt (Nat.mod_lt shift (by decide : 0 < 64)))
      (v.vec.drop (shift / 64) ++ List.replicate (shift / 64) 0#64)).1
    rw [hWords, Nat.div_div_eq_div_mul, ← pow_add, hShift] at hFine
    have hClean := @cleanTail_spec (wordsFor v.wid)
      ((64 - v.wid % 64) % 64 + shift % 64)
      ((shiftDown (shift % 64) (v.vec.drop (shift / 64) ++ List.replicate (shift / 64) 0#64)).1)
      (by rw [shiftDown_length, hLength])
      (by
        rw [hFine]
        exact hFits _)
    have hTail : 64 * wordsFor v.wid = v.wid + (64 - v.wid % 64) % 64 := by
      unfold wordsFor
      omega
    constructor
    · rintro (hLe | hBad)
      · rcases hClean.1 (by omega) with ⟨words, hRes, -⟩
        split
        next hNone =>
          rw [hRes] at hNone
          cases hNone
        next => exact ⟨_, rfl⟩
      · exact absurd hBad hGone
    · intro res hRes
      split at hRes
      next => cases hRes
      next words hSomeWords =>
        injection hRes with hRes
        subst hRes
        refine ⟨rfl, ?_⟩
        change toNat words = _
        rcases Nat.lt_or_ge (64 * wordsFor v.wid) ((64 - v.wid % 64) % 64 + shift % 64) with
          hBad | hLe
        · grind
        · grind

/- Without tail bits nothing is lost but what is shifted out. -/
theorem shiftRight_of_clean {v res : VvpVector2} (h : v.Clean) {shift : Nat}
    (hRes : v.shiftRight shift = some res) : res.wid = v.wid ∧ res.whole = v.whole / 2 ^ shift := by
  rcases (shiftRight_spec v shift).2 res hRes with ⟨hWid, hWhole⟩
  refine ⟨hWid, ?_⟩
  rw [hWhole, Nat.mod_eq_of_lt]
  split_ifs with hOff
  · exact Nat.lt_of_le_of_lt (Nat.div_le_self _ _) v.whole_lt
  · rw [Nat.div_lt_iff_lt_mul (Nat.two_pow_pos _), ← pow_add]
    refine Nat.lt_of_lt_of_le h (Nat.pow_le_pow_right (by decide) ?_)
    omega

end VvpVector2

end EpicSim

----
-- Multiplication
----

namespace EpicSim

open PackedWords Limbs

namespace VvpVector2

theorem toNat_half (x : BitVec 64) :
    (x &&& (1#64 <<< 32 - 1#64)).toNat = x.toNat % 2 ^ 32 ∧
      ((x >>> 32) &&& (1#64 <<< 32 - 1#64)).toNat = x.toNat / 2 ^ 32 := by
  have hMask : (1#64 <<< 32 - 1#64 : BitVec 64).toNat =
      2 ^ 32 - 1 := by decide
  constructor
  · rw [BitVec.toNat_and, hMask, Nat.and_two_pow_sub_one_eq_mod]
  · rw [BitVec.toNat_and, hMask, Nat.and_two_pow_sub_one_eq_mod,
      BitVec.toNat_ushiftRight]
    omega

theorem toNat_join {hig low : BitVec 64} (hHig : hig.toNat < 2 ^ 32) (hLow : low.toNat < 2 ^ 32) :
    ((hig <<< 32) ||| low).toNat = hig.toNat * 2 ^ 32 + low.toNat := by
  have hShift : (hig <<< 32).toNat = hig.toNat <<< 32 := by
    rw [BitVec.toNat_shiftLeft]
    omega
  rw [BitVec.toNat_or, hShift, ← Nat.shiftLeft_add_eq_or_of_lt hLow, Nat.shiftLeft_eq]

theorem toNat_mul_half {x y : BitVec 64} (hX : x.toNat < 2 ^ 32) (hY : y.toNat < 2 ^ 32) :
    (x * y).toNat = x.toNat * y.toNat ∧
      x.toNat * y.toNat ≤ (2 ^ 32 - 1) * (2 ^ 32 - 1) := by
  have hProduct : x.toNat * y.toNat ≤ (2 ^ 32 - 1) * (2 ^ 32 - 1) :=
    Nat.mul_le_mul (Nat.le_sub_one_of_lt hX) (Nat.le_sub_one_of_lt hY)
  refine ⟨?_, hProduct⟩
  rw [BitVec.toNat_mul]
  omega

theorem toNat_add_of_lt {x y : BitVec 64} (h : x.toNat + y.toNat < 2 ^ 64) :
    (x + y).toNat = x.toNat + y.toNat := by
  rw [BitVec.toNat_add, Nat.mod_eq_of_lt h]

theorem toNat_upper (x : BitVec 64) : (x >>> 32).toNat = x.toNat / 2 ^ 32 := by
  rw [BitVec.toNat_ushiftRight, Nat.shiftRight_eq_div_pow]

/- A product of words is made of the products of their halves,
   each of which leaves room for two more halves. -/
theorem mul_halves (a b : BitVec 64) {mask : BitVec 64} (hMask : 1#64 <<< 32 - 1#64 = mask) :
    a.toNat * b.toNat =
        ((a &&& mask) * (b &&& mask)).toNat +
          2 ^ 32 * (((a >>> 32 &&& mask) * (b &&& mask)).toNat +
            ((a &&& mask) * (b >>> 32 &&& mask)).toNat) +
          2 ^ 64 * ((a >>> 32 &&& mask) * (b >>> 32 &&& mask)).toNat ∧
      ∀ x y : BitVec 64, ((x &&& mask) * (y &&& mask)).toNat ≤ (2 ^ 32 - 1) * (2 ^ 32 - 1) := by
  have hLow : ∀ x : BitVec 64, (x &&& mask).toNat = x.toNat % 2 ^ 32 := by
    intro x
    rw [← hMask]
    exact (toNat_half x).1
  have hHigh : ∀ x : BitVec 64,
      (x >>> 32 &&& mask).toNat = x.toNat / 2 ^ 32 := by
    intro x
    rw [← hMask]
    exact (toNat_half x).2
  have hMul := fun x y : BitVec 64 =>
    @toNat_mul_half (x &&& mask) (y &&& mask) (by rw [hLow]; omega) (by rw [hLow]; omega)
  refine ⟨?_, fun x y => (hMul x y).1 ▸ (hMul x y).2⟩
  have hA := Nat.mod_add_div a.toNat (2 ^ 32)
  have hB := Nat.mod_add_div b.toNat (2 ^ 32)
  rw [← hLow, ← hHigh] at hA hB
  rw [(hMul a b).1, (hMul (a >>> 32) b).1, (hMul a (b >>> 32)).1,
    (hMul (a >>> 32) (b >>> 32)).1, ← hA, ← hB]
  ring

/- The four products of the half words, with their carries. -/
theorem multiplyLong_spec (a b : BitVec 64) :
    (multiplyLong a b).1.toNat + 2 ^ 64 * (multiplyLong a b).2.toNat = a.toNat * b.toNat := by
  simp only [multiplyLong]
  generalize hMask : (1#64 <<< 32 - 1#64 : BitVec 64) = mask
  have hLow : ∀ x : BitVec 64,
      (x &&& mask).toNat = x.toNat % 2 ^ 32 := by
    intro x
    rw [← hMask]
    exact (toNat_half x).1
  rcases mul_halves a b hMask with ⟨hTotal, hBound⟩
  have hB₁ := hBound (a >>> 32) b
  have hB₂ := hBound a (b >>> 32)
  have hB₃ := hBound (a >>> 32) (b >>> 32)
  rw [hTotal]
  clear hTotal hBound hMask
  generalize (a &&& mask) * (b &&& mask) = p₀ at *
  generalize (a >>> 32 &&& mask) * (b &&& mask) = p₁ at *
  generalize (a &&& mask) * (b >>> 32 &&& mask) = p₂ at *
  generalize (a >>> 32 &&& mask) * (b >>> 32 &&& mask) = p₃ at *
  -- the middle column, in two steps
  have hMid₁ : (p₀ >>> 32 + p₁).toNat = p₀.toNat / 2 ^ 32 + p₁.toNat := by
    rw [toNat_add_of_lt, toNat_upper]
    rw [toNat_upper]
    omega
  have hMid₂ : (((p₀ >>> 32 + p₁) &&& mask) + p₂).toNat =
      (p₀ >>> 32 + p₁).toNat % 2 ^ 32 + p₂.toNat := by
    rw [toNat_add_of_lt, hLow]
    rw [hLow]
    omega
  generalize p₀ >>> 32 + p₁ = r₁ at *
  generalize (r₁ &&& mask) + p₂ = s₁ at *
  -- the high column
  have hHigh₁ : (r₁ >>> 32 + s₁ >>> 32).toNat = r₁.toNat / 2 ^ 32 + s₁.toNat / 2 ^ 32 := by
    rw [toNat_add_of_lt, toNat_upper, toNat_upper]
    rw [toNat_upper, toNat_upper]
    omega
  generalize r₁ >>> 32 + s₁ >>> 32 = r₂ at *
  have hHigh₂ : ((r₂ &&& mask) + p₃).toNat = r₂.toNat % 2 ^ 32 + p₃.toNat := by
    rw [toNat_add_of_lt, hLow]
    rw [hLow]
    omega
  generalize (r₂ &&& mask) + p₃ = s₂ at *
  have hTop : (r₂ >>> 32 + s₂ >>> 32).toNat = r₂.toNat / 2 ^ 32 + s₂.toNat / 2 ^ 32 := by
    rw [toNat_add_of_lt, toNat_upper, toNat_upper]
    rw [toNat_upper, toNat_upper]
    omega
  generalize r₂ >>> 32 + s₂ >>> 32 = r₃ at *
  rw [toNat_join (by rw [hLow]; omega) (by rw [hLow]; omega),
    toNat_join (by omega) (by rw [hLow]; omega), hLow, hLow, hLow]
  omega

/- A product is added at its place, modulo the words. -/
theorem addProduct_spec (pos : Nat) (low hig : BitVec 64) (r : List (BitVec 64)) :
    toNat (addProduct pos low hig r) =
      (toNat r + 2 ^ (64 * pos) * (low.toNat + 2 ^ 64 * hig.toNat)) % 2 ^ (64 * r.length) :=
  addAt_spec adder_addCarry pos low hig r

/- The words of a number, each with what it adds to the sum. -/
theorem sumWords_spec {words r : List (BitVec 64)} {w : Nat}
    {f : List (BitVec 64) → Nat → BitVec 64 → List (BitVec 64)} (hLength : words.length = r.length)
    (hStep : ∀ r' n word, r'.length = r.length →
      (f r' n word).length = r.length ∧
        toNat (f r' n word) ≡ toNat r' + w * (2 ^ (64 * n) * word.toNat)
          [MOD 2 ^ (64 * r.length)]) :
    toNat ((List.range r.length).foldl (fun r n =>
      let word := words.getD n 0#64
      if word = 0#64 then r else f r n word) r) ≡
        toNat r + w * toNat words [MOD 2 ^ (64 * r.length)] := by
  have hPrefix : ∀ n,
      ((List.range n).foldl (fun r n =>
        let word := words.getD n 0#64
        if word = 0#64 then r else f r n word) r).length = r.length ∧
      toNat ((List.range n).foldl (fun r n =>
        let word := words.getD n 0#64
        if word = 0#64 then r else f r n word) r) ≡
        toNat r + w * toNat (words.take n) [MOD 2 ^ (64 * r.length)] := by
    intro n
    induction n with
    | zero => exact ⟨rfl, Nat.ModEq.refl _⟩
    | succ n ih =>
      rcases ih with ⟨hSize, hSum⟩
      rw [List.range_succ, List.foldl_append, List.foldl_cons]
      generalize (List.range n).foldl _ r = r' at *
      rw [toNat_take_succ]
      simp only
      generalize words.getD n 0#64 = word
      split_ifs with hZero
      · grind
      · rcases hStep r' n word hSize with ⟨hSame, hTerm⟩
        refine ⟨hSame, hTerm.trans ?_⟩
        rw [Nat.mul_add, ← Nat.add_assoc]
        exact hSum.add_right _
  have hAll := (hPrefix r.length).2
  rw [List.take_of_length_le (Nat.le_of_eq hLength)] at hAll
  exact hAll

/- One row adds the product with a word. -/
theorem multiplyRow_spec {a r : List (BitVec 64)} (hLength : a.length = r.length) (bdx : Nat)
    (tmpb : BitVec 64) :
    toNat (multiplyRow a bdx tmpb r) ≡
      toNat r + 2 ^ (64 * bdx) * tmpb.toNat * toNat a [MOD 2 ^ (64 * r.length)] := by
  refine @sumWords_spec a r _ (fun r adx tmpa =>
    addProduct (adx + bdx) (multiplyLong tmpa tmpb).1
      (multiplyLong tmpa tmpb).2 r) hLength fun r' n tmpa hSize => ?_
  refine ⟨by rw [addProduct_length, hSize], ?_⟩
  rw [addProduct_spec, multiplyLong_spec, hSize]
  have hTerm : 2 ^ (64 * (n + bdx)) * (tmpa.toNat * tmpb.toNat) =
      2 ^ (64 * bdx) * tmpb.toNat * (2 ^ (64 * n) * tmpa.toNat) := by
    ring
  rw [hTerm]
  exact Nat.mod_modEq _ _

theorem multiplyWords_spec {a b r : List (BitVec 64)} (hA : a.length = r.length)
    (hB : b.length = r.length) :
    toNat (multiplyWords a b r) ≡ toNat r + toNat a * toNat b [MOD 2 ^ (64 * r.length)] := by
  refine @sumWords_spec b r _ (fun r bdx tmpb => multiplyRow a bdx tmpb r)
    hB fun r' n tmpb hSize => ?_
  refine ⟨by rw [multiplyRow_length, hSize], ?_⟩
  have hRow := multiplyRow_spec (hA.trans hSize.symm) n tmpb
  rw [hSize, Nat.mul_comm (2 ^ (64 * n) * tmpb.toNat)] at hRow
  exact hRow

/- The product is taken modulo the words, not the width. -/
theorem mul_spec {a b : VvpVector2} (h : a.wid = b.wid) :
    ∃ res, a.mul b = some res ∧ res.wid = a.wid ∧
      res.whole = a.whole * b.whole % 2 ^ (64 * wordsFor a.wid) := by
  unfold mul
  rw [if_pos h]
  refine ⟨_, rfl, rfl, ?_⟩
  have hR : (ofLong 0#64 a.wid).vec.length = wordsFor a.wid := (ofLong 0#64 a.wid).vec_length
  have hZero : toNat (ofLong 0#64 a.wid).vec = 0 := by
    rcases Nat.eq_zero_or_pos a.wid with hWid | hWid
    · exact whole_of_wid_zero (v := ofLong 0#64 a.wid) hWid
    · exact whole_ofLong 0#64 hWid
  have hSpec := multiplyWords_spec
    (a.vec_length.trans hR.symm)
    ((length_eq_of_wid h).symm.trans (a.vec_length.trans hR.symm))
  rw [hZero, Nat.zero_add, hR] at hSpec
  have hLt := toNat_lt (multiplyWords a.vec b.vec (ofLong 0#64 a.wid).vec)
  rw [multiplyWords_length, hR] at hLt
  change toNat (multiplyWords a.vec b.vec _) = _
  rw [← Nat.mod_eq_of_lt hLt]
  exact hSpec

end VvpVector2

end EpicSim

----
-- Comparisons And Trimming
----

namespace EpicSim

open PackedWords Limbs

namespace VvpVector2

/- The comparisons compare the whole words. -/
theorem compare_eq (greater less equal : Bool) (a b : VvpVector2) :
    compare greater less equal a b =
      if b.whole < a.whole then greater
      else if a.whole < b.whole then less
      else equal := by
  apply compareDown_spec
  · rw [a.vec_length]
    split_ifs <;> omega
  · rw [b.vec_length]
    split_ifs <;> omega

theorem gt_iff (a b : VvpVector2) : a.gt b = true ↔ b.whole < a.whole := by
  unfold gt
  rw [compare_eq]
  split_ifs with h₁ h₂ <;> simp [h₁]

theorem lt_iff (a b : VvpVector2) : a.lt b = true ↔ a.whole < b.whole := by
  unfold lt
  rw [compare_eq]
  split_ifs with h₁ h₂
  · simp
    omega
  · simp [h₂]
  · simp [h₂]

theorem ge_iff (a b : VvpVector2) : a.ge b = true ↔ b.whole ≤ a.whole := by
  unfold ge
  rw [compare_eq]
  split_ifs with h₁ h₂
  · simp
    omega
  · simp
    omega
  · simp
    omega

theorem eq_iff (a b : VvpVector2) : a.eq b = true ↔ a.whole = b.whole := by
  unfold eq
  rw [compare_eq]
  split_ifs with h₁ h₂
  · simp
    omega
  · simp
    omega
  · simp
    omega

theorem le_of_wid {a b : VvpVector2} (h : a.wid = b.wid) :
    a.le b = some (decide (a.whole ≤ b.whole)) := by
  unfold le
  rw [if_pos h, compare_eq]
  congr 1
  split_ifs with h₁ h₂
  · rw [eq_comm, decide_eq_false_iff_not]
    omega
  · rw [eq_comm, decide_eq_true_iff]
    omega
  · rw [eq_comm, decide_eq_true_iff]
    omega

theorem isZero_iff (v : VvpVector2) : v.isZero = true ↔ v.whole = 0 := by
  unfold isZero whole
  rw [toNat_eq_zero_iff, List.all_eq_true]
  simp only [beq_iff_eq]

theorem isOne_of_pos {v : VvpVector2} (h : 0 < v.wid) : v.isOne = some (decide (v.whole = 1)) := by
  have hPos := wordsFor_pos h
  rw [← v.vec_length] at hPos
  unfold isOne whole
  cases hVec : v.vec with
  | nil =>
    rw [hVec] at hPos
    cases hPos
  | cons word rest =>
    rw [Option.some.injEq, Bool.eq_iff_iff, decide_eq_true_iff, Bool.and_eq_true, List.all_eq_true]
    simp only [beq_iff_eq, toNat_cons]
    rw [← toNat_eq_zero_iff, ← BitVec.toNat_inj]
    have hOne : (1#64).toNat = 1 := rfl
    constructor
    · rintro ⟨hWordOne, hRest⟩
      omega
    · omega

/- Trimming drops zero bits only. -/
theorem number_trimWidth (v : VvpVector2) {wid : Nat} (h : wid ≤ v.wid) :
    v.whole % 2 ^ trimWidth v wid = v.whole % 2 ^ wid := by
  induction wid with
  | zero => rfl
  | succ wid ih =>
    cases wid with
    | zero => rfl
    | succ wid =>
      simp only [trimWidth]
      by_cases hBit : v.value (wid + 1) = true
      · rw [if_pos hBit]
      · rw [if_neg hBit, ih (Nat.le_of_succ_le h)]
        rw [value_eq, decide_eq_true (by omega), Bool.true_and, Bool.not_eq_true] at hBit
        apply Nat.eq_of_testBit_eq
        grind

theorem trim_spec (v : VvpVector2) :
    (v.trim).whole =
      v.whole % 2 ^ (64 * wordsFor (v.trim).wid) ∧
      v.whole % 2 ^ (v.trim).wid = v.number := by
  constructor
  · exact toNat_take _ _
  · rw [number_eq]
    exact number_trimWidth v (Nat.le_refl _)

theorem trim_of_clean {v : VvpVector2} (h : v.Clean) :
    (v.trim).Clean ∧ (v.trim).whole = v.whole := by
  rcases trim_spec v with ⟨hWhole, hNumber⟩
  rw [h.number] at hNumber
  have hLt : v.whole < 2 ^ (v.trim).wid := by omega
  have hSame : (v.trim).whole = v.whole := by
    rw [hWhole, Nat.mod_eq_of_lt]
    exact Nat.lt_of_lt_of_le hLt (Nat.pow_le_pow_right (by decide) (wordsFor_bounds _).1)
  refine ⟨?_, hSame⟩
  unfold Clean
  rw [hSame]
  exact hLt

/- Converting back, the bits are those of the vector. -/
theorem toVector4_spec (that : VvpVector2) (wid : Nat) :
    (that.toVector4 wid).size_ = wid ∧
      ∀ idx < wid, (that.toVector4 wid).value idx =
        if that.value idx then .one else .zero := by
  exact VvpVector4.setBits_spec (VvpVector4.fill wid .x) _ (Nat.le_refl wid)

end VvpVector2

end EpicSim
