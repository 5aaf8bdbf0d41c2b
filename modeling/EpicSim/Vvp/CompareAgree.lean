import EpicSim.Vvp.CompareLoops

/-
  The comparisons give the order of the numbers, and those of
  procedural code agree with those of nets, but for the eq flag
  that a signed comparison sets for X and Z bits.
-/

namespace EpicSim

open Limbs (compareUp_spec)

----
-- All Instructions
----

namespace VvpVector4

theorem isXz_iff (v : VvpBit4) : v.isXz = true ↔ ¬ (v = .zero ∨ v = .one) := by
  cases v <;> decide

/- Some bit is X or Z in one of two vectors. -/
theorem exists_isXz_iff {l r : VvpVector4} (hSize : r.size_ = l.size_) :
    (∃ idx ∈ List.range l.size_, ((l.value idx).isXz ∨ (r.value idx).isXz)) ↔
      ¬ (l.Defined ∧ r.Defined) := by
  constructor
  · rintro ⟨idx, hMem, hXz⟩ ⟨hL, hR⟩
    rw [List.mem_range] at hMem
    rw [isXz_iff, isXz_iff] at hXz
    rcases hXz with hXz | hXz
    · exact hXz (hL idx hMem)
    · exact hXz (hR idx (by omega))
  · intro hNot
    by_contra hNone
    apply hNot
    have hBoth :
        ∀ idx < l.size_,
          ¬ (l.value idx).isXz ∧ ¬ (r.value idx).isXz := by grind
    constructor
    · intro idx hIdx
      have hXz := (hBoth idx hIdx).1
      rwa [isXz_iff, not_not] at hXz
    · intro idx hIdx
      have hXz := (hBoth idx (by omega)).2
      rwa [isXz_iff, not_not] at hXz

theorem exists_differ_iff (l r : VvpVector4) :
    (∃ idx ∈ List.range l.size_, BitsDiffer (l.value idx) (r.value idx)) ↔
      l.Differ r := by
  simp only [List.mem_range]
  rfl

theorem exists_ne_iff (l r : VvpVector4) :
    (∃ idx ∈ List.range l.size_, l.value idx ≠ r.value idx) ↔
      ¬ ∀ idx < l.size_, l.value idx = r.value idx := by
  simp only [List.mem_range]
  push Not
  rfl

end VvpVector4

open VvpVector4

variable {l r : VvpVector4} {arith : VvpArith}

/- The two ways to say when vectors are equal. -/
theorem eqValue_eq (hSize : r.size_ = l.size_) (hPos : 0 < l.size_) (signed : Bool) :
    eqValue signed l r =
      if l.Differ r then .zero
      else if ¬ (l.Defined ∧ r.Defined) then .x
      else .one := by
  unfold eqValue
  by_cases hDefined : l.Defined ∧ r.Defined
  · have hDiffer := differ_iff hSize hDefined.1 hDefined.2
    have hEquals := integer_eq_iff hSize hPos signed
    grind
  · rw [if_neg hDefined, if_pos hDefined]

theorem compareBits_eq (hSize : r.size_ = l.size_) (hPos : 0 < l.size_) (signed : Bool) :
    compareBits l r (List.range l.size_) .one .one = (eqValue signed l r, caseEqValue l r) := by
  rw [compareBits_spec l r _ _ _ (by decide), eqValue_eq hSize hPos signed]
  simp only [exists_differ_iff, exists_isXz_iff hSize, exists_ne_iff, true_and]
  unfold caseEqValue
  by_cases hDiffer : l.Differ r
  · have hNe :
        ¬ ∀ idx < l.size_, l.value idx = r.value idx := by
      intro hSame
      rcases hDiffer with ⟨idx, hIdx, hBits⟩
      exact hBits.ne (hSame idx hIdx)
    rw [if_pos hDiffer, if_pos hDiffer, if_neg hNe]
  · grind

/- What a net sends for `==`. -/
theorem vvpCmpEq_eq (hSize : arith.op_b.size_ = arith.op_a.size_) (hPos : 0 < arith.op_a.size_)
    (signed : Bool) : vvpCmpEq arith = some (eqValue signed arith.op_a arith.op_b) := by
  unfold vvpCmpEq
  rw [if_neg (not_not_intro hSize.symm), cmpEqLoop_spec, eqValue_eq hSize hPos signed]
  simp only [exists_differ_iff, exists_isXz_iff hSize]

theorem hasXz_iff (hSize : r.size_ = l.size_) (hPos : 0 < l.size_) :
    (l.hasXz = true ∨ r.hasXz = true) ↔
      ¬ (l.Defined ∧ r.Defined) := by
  have hL := hasXz_eq_false_iff hPos
  have hR := @hasXz_eq_false_iff r (by omega)
  rw [← hL, ← hR, not_and_or, Bool.not_eq_false, Bool.not_eq_false]

/- Without X and Z, all comparisons for equality are one. -/
theorem caseEqValue_defined (hSize : r.size_ = l.size_) (hPos : 0 < l.size_)
    (hDefined : l.Defined ∧ r.Defined) (signed : Bool) : caseEqValue l r = eqValue signed l r := by
  have hEquals := (integer_eq_iff hSize hPos signed).trans
    (number_eq_iff hSize hDefined.1 hDefined.2)
  unfold caseEqValue eqValue
  rw [if_pos hDefined]
  by_cases hSame : ∀ idx < l.size_, l.value idx = r.value idx
  · rw [if_pos hSame, if_pos (hEquals.mpr hSame)]
  · rw [if_neg hSame, if_neg (fun h => hSame (hEquals.mp h))]

theorem eeq_caseEqValue (hSize : r.size_ = l.size_) :
    (if l.eeq r then VvpBit4.one else .zero) = caseEqValue l r := by
  unfold caseEqValue
  simp only [eeq_iff hSize]

theorem doCMPE_eq {flags : CmpFlags} (hSize : r.size_ = l.size_) (hPos : 0 < l.size_)
    (signed : Bool) : doCMPE flags l r = some ⟨eqValue signed l r, flags.lt, caseEqValue l r⟩ := by
  unfold doCMPE
  rw [if_neg (not_not_intro hSize)]
  simp only [hasXz_iff hSize hPos]
  by_cases hDefined : l.Defined ∧ r.Defined
  · rw [if_neg (not_not_intro hDefined), eeq_caseEqValue hSize,
      ← caseEqValue_defined hSize hPos hDefined signed]
  · rw [if_pos hDefined, compareBits_eq hSize hPos signed]

theorem doCMPU_eq {l r : VvpVector4} {flags : CmpFlags} (hSize : r.size_ = l.size_)
    (hPos : 0 < l.size_) :
    doCMPU flags l r = some ⟨eqValue false l r, ltValue false l r, caseEqValue l r⟩ := by
  unfold doCMPU
  rw [if_neg (not_not_intro hSize)]
  by_cases hDefined : l.Defined ∧ r.Defined
  · have hCase := caseEqValue_defined hSize hPos hDefined false
    have hLength :
        (VvpVector2.subarray l).length = (VvpVector2.subarray r).length := by
      simp only [VvpVector2.subarray, List.length_map, hSize]
    rw [hCase, subarray_defined hDefined.1, subarray_defined hDefined.2]
    simp only [compareUp_spec _ _ _ _ _ hLength, toNat_subarray]
    unfold eqValue ltValue
    rw [if_pos hDefined, if_pos hDefined]
    have hEq : l.integer false = r.integer false ↔
        l.number = r.number :=
      integer_eq_iff hSize hPos false
    have hLt : l.integer false < r.integer false ↔ l.number < r.number := Int.ofNat_lt
    rcases Nat.lt_trichotomy l.number r.number with h | h | h
    · rw [if_pos h, if_pos (hLt.mpr h), if_neg (fun hSame => Nat.ne_of_lt h (hEq.mp hSame))]
    · grind
    · grind
  · have hHard :
        some (cmpuTheHardWay l r) =
          some (CmpFlags.mk (eqValue false l r) .x (caseEqValue l r)) := by
      unfold cmpuTheHardWay
      rw [compareBits_eq hSize hPos false]
    have hLt : ltValue false l r = .x := if_neg hDefined
    rw [hLt, ← hHard]
    by_cases hLeft : l.Defined
    · have hRight : ¬ r.Defined := fun h => hDefined ⟨hLeft, h⟩
      rw [subarray_defined hLeft, subarray_undefined hRight]
    · rw [subarray_undefined hLeft]

/- With X or Z bits, a signed comparison gives X for `==`. -/
theorem doCMPS_undefined {l r : VvpVector4} {flags : CmpFlags}
    (hSize : r.size_ = l.size_) (hPos : 0 < l.size_) (h : ¬ (l.Defined ∧ r.Defined)) :
    doCMPS flags l r = some ⟨.x, ltValue true l r, caseEqValue l r⟩ := by
  have hLt : ltValue true l r = .x := if_neg h
  unfold doCMPS
  rw [if_neg (not_not_intro hSize),
    if_pos ((hasXz_iff hSize hPos).mpr h), hLt, eeq_caseEqValue hSize]

/- With one sign, the bits below it decide. -/
theorem same_sign {l r : VvpVector4} (hSize : r.size_ = l.size_) (hPos : 0 < l.size_)
    (hSign : l.value (l.size_ - 1) = r.value (l.size_ - 1)) :
    let top := l.size_ - 1
    (l.number = r.number ↔ l.number % 2 ^ top = r.number % 2 ^ top) ∧
    (l.integer true < r.integer true ↔ l.number % 2 ^ top < r.number % 2 ^ top) ∧
    (l.number < r.number ↔
      l.number % 2 ^ top < r.number % 2 ^ top) := by
  intro top
  have hLt := integer_lt_iff hSize hPos
  have hSuccL := l.number_mod_succ top
  have hSuccR := r.number_mod_succ top
  have hPred : top + 1 = l.size_ := Nat.sub_add_cancel hPos
  rw [hPred, number_mod_size] at hSuccL
  rw [hPred, ← hSize, number_mod_size] at hSuccR
  change l.value top = r.value top at hSign
  rw [hSign] at hSuccL
  refine ⟨by omega, hLt.trans ?_, by omega⟩
  constructor
  · grind
  · grind

theorem doCMPS_defined {l r : VvpVector4} {flags : CmpFlags}
    (hSize : r.size_ = l.size_) (hPos : 0 < l.size_) (hDefined : l.Defined ∧ r.Defined) :
    doCMPS flags l r = some ⟨eqValue true l r, ltValue true l r, caseEqValue l r⟩ := by
  have hTop : l.size_ - 1 < l.size_ := by omega
  have hTopR : l.size_ - 1 < r.size_ := by omega
  have hLt := integer_lt_iff hSize hPos
  have hEq := integer_eq_iff hSize hPos true
  unfold doCMPS
  rw [if_neg (not_not_intro hSize), if_neg (fun h => (hasXz_iff hSize hPos).mp h hDefined),
    caseEqValue_defined hSize hPos hDefined true]
  simp only
  rw [firstDifference_spec hSize hDefined.1 hDefined.2 _ (by omega)]
  unfold eqValue ltValue
  rw [if_pos hDefined, if_pos hDefined]
  by_cases hSign : l.value (l.size_ - 1) = r.value (l.size_ - 1)
  · rcases same_sign hSize hPos hSign with ⟨hSame, hOrder, _⟩
    have hNeg :
        ¬ (l.value (l.size_ - 1) = .one ∧
          r.value (l.size_ - 1) = .zero) := by grind
    have hNonneg :
        ¬ (l.value (l.size_ - 1) = .zero ∧
          r.value (l.size_ - 1) = .one) := by grind
    rw [hSame] at hEq
    rw [if_neg hNeg, if_neg hNonneg]
    rcases Nat.lt_trichotomy
        (l.number % 2 ^ (l.size_ - 1))
        (r.number % 2 ^ (l.size_ - 1)) with h | h | h
    · grind
    · grind
    · grind
  · rcases hDefined.1 _ hTop with hL | hL
    · rcases hDefined.2 _ hTopR with hR | hR
      · exact absurd (hL.trans hR.symm) hSign
      · -- The left number is not negative, the right one is.
        have hOver : r.integer true < l.integer true := by
          have hOther := @integer_lt_iff r l hSize.symm (by omega)
          rw [hSize] at hOther
          refine hOther.mpr (Or.inl ⟨hR, ?_⟩)
          rw [hL]
          decide
        rw [if_neg (by rw [hL]; rintro ⟨h, _⟩; cases h), if_pos ⟨hL, hR⟩,
          if_neg (Int.lt_asymm hOver), if_neg (Int.ne_of_gt hOver)]
    · rcases hDefined.2 _ hTopR with hR | hR
      · grind
      · exact absurd (hL.trans hR.symm) hSign

----
-- Nets
----

/- Unsigned comparison of vectors of one size. -/
theorem compareGtge_eq (hSize : r.size_ = l.size_) (hPos : 0 < l.size_) (outIfEqual : VvpBit4) :
    compareGtge l r outIfEqual =
      if l.Defined ∧ r.Defined then
        if l.number < r.number then .zero
        else if r.number < l.number then .one
        else outIfEqual
      else .x := by
  have hXz := hasXz_iff hSize hPos
  unfold compareGtge
  simp only [hSize, Nat.min_self, Nat.sub_self, List.range_zero,
    List.any_nil, Bool.false_eq_true, if_false]
  rw [if_neg (Nat.ne_of_gt hPos)]
  by_cases hDefined : l.Defined ∧ r.Defined
  · have hNone := hXz.not.mpr (not_not_intro hDefined)
    rw [if_pos hDefined, if_neg (fun h => hNone (Or.inl h)), if_neg (fun h => hNone (Or.inr h)),
      firstDifference_spec hSize hDefined.1 hDefined.2 _ (Nat.le_refl _), number_mod_size]
    have hRight := r.number_mod_size
    rw [hSize] at hRight
    grind
  · grind

theorem compareGtgeSigned_eq (hSize : r.size_ = l.size_) (hPos : 0 < l.size_)
    (outIfEqual : VvpBit4) :
    compareGtgeSigned l r outIfEqual =
      some
        (if l.Defined ∧ r.Defined then
          if l.integer true < r.integer true then .zero
          else if r.integer true < l.integer true then .one
          else outIfEqual
        else .x) := by
  have hTop : l.size_ - 1 < l.size_ := by omega
  have hTopR : l.size_ - 1 < r.size_ := by omega
  have hLt := integer_lt_iff hSize hPos
  have hGt := @integer_lt_iff r l hSize.symm (by omega)
  rw [hSize] at hGt
  unfold compareGtgeSigned
  rw [if_neg (not_not_intro hSize.symm)]
  simp only [isXz_iff]
  by_cases hDefined : l.Defined ∧ r.Defined
  · have hL := hDefined.1 _ hTop
    have hR := hDefined.2 _ hTopR
    have hNone := (hasXz_iff hSize hPos).not.mpr (not_not_intro hDefined)
    rw [if_neg (not_not_intro hL), if_neg (not_not_intro hR), if_pos hDefined]
    by_cases hSign : l.value (l.size_ - 1) = r.value (l.size_ - 1)
    · have hUp := same_sign hSize hPos hSign
      have hDown := @same_sign r l hSize.symm (by omega) (by rw [hSize]; exact hSign.symm)
      rw [if_pos hSign, compareGtge_eq hSize hPos, if_pos hDefined]
      congr 1
      simp only [hUp.2.1, hUp.2.2, hDown.2.1, hDown.2.2]
    · rw [if_neg hSign, if_neg (fun h => hNone (Or.inl h)), if_neg (fun h => hNone (Or.inr h))]
      rcases hL with hL | hL
      · grind
      · grind
  · rw [if_neg hDefined]
    by_cases hL : l.value (l.size_ - 1) = .zero ∨ l.value (l.size_ - 1) = .one
    · by_cases hR : r.value (l.size_ - 1) = .zero ∨ r.value (l.size_ - 1) = .one
      · rw [if_neg (not_not_intro hL), if_neg (not_not_intro hR),
          compareGtge_eq hSize hPos, if_neg hDefined]
        rcases (hasXz_iff hSize hPos).mpr hDefined with hXz | hXz
        · rw [if_pos hXz, ite_self]
        · rw [if_pos hXz, ite_self, ite_self]
      · rw [if_neg (not_not_intro hL), if_pos hR]
    · rw [if_pos hL]

/- What a net sends for `<`, with its operands exchanged. -/
theorem vvpCmpGtge_lt (hSize : arith.op_b.size_ = arith.op_a.size_) (hPos : 0 < arith.op_a.size_) :
    vvpCmpGtge arith .zero = some (ltValue arith.signed_flag arith.op_b arith.op_a) := by
  have hSwap :
      (arith.op_a.Defined ∧ arith.op_b.Defined) ↔ (arith.op_b.Defined ∧ arith.op_a.Defined) :=
    And.comm
  unfold vvpCmpGtge ltValue
  by_cases hDefined : arith.op_a.Defined ∧ arith.op_b.Defined
  · rw [if_pos (hSwap.mp hDefined)]
    cases hFlag : arith.signed_flag with
    | false =>
      have hLt : arith.op_b.integer false <
          arith.op_a.integer false ↔ arith.op_b.number < arith.op_a.number :=
        Int.ofNat_lt
      rw [if_neg Bool.false_ne_true, compareGtge_eq hSize hPos, if_pos hDefined]
      grind
    | true =>
      rw [if_pos rfl, compareGtgeSigned_eq hSize hPos, if_pos hDefined]
      grind
  · rw [if_neg (fun h => hDefined (hSwap.mpr h)), compareGtge_eq hSize hPos,
      compareGtgeSigned_eq hSize hPos, if_neg hDefined, if_neg hDefined, ite_self]

/- What a net sends for `>=`. -/
theorem vvpCmpGtge_ge (hSize : arith.op_b.size_ = arith.op_a.size_) (hPos : 0 < arith.op_a.size_) :
    vvpCmpGtge arith .one = some (ltValue arith.signed_flag arith.op_a arith.op_b).not := by
  unfold vvpCmpGtge ltValue
  by_cases hDefined : arith.op_a.Defined ∧ arith.op_b.Defined
  · rw [if_pos hDefined]
    cases hFlag : arith.signed_flag with
    | false =>
      have hLt : arith.op_a.integer false <
          arith.op_b.integer false ↔ arith.op_a.number < arith.op_b.number :=
        Int.ofNat_lt
      rw [compareGtge_eq hSize hPos, if_pos hDefined, ite_self]
      by_cases hLess : arith.op_a.number < arith.op_b.number
      · rw [if_pos hLess, if_pos (hLt.mpr hLess)]
        rfl
      · rw [if_neg hLess, if_neg (fun h => hLess (hLt.mp h))]
        rfl
    | true =>
      rw [compareGtgeSigned_eq hSize hPos, if_pos hDefined, ite_self]
      by_cases hLess : arith.op_a.integer true < arith.op_b.integer true
      · rw [if_pos hLess, if_pos hLess]
        rfl
      · rw [if_neg hLess, if_neg hLess]
        rfl
  · rw [if_neg hDefined, compareGtge_eq hSize hPos, compareGtgeSigned_eq hSize hPos,
      if_neg hDefined, if_neg hDefined, ite_self]
    rfl

----
-- Agreement
----

/- Whether an instruction compares signed numbers. -/
def CmpOp.signed : CmpOp → Bool
| .cmpS => true
| _ => false

/- The functor compares these operands. -/
structure VvpArith.Compares (arith : VvpArith) (a b : VvpVector4) : Prop where
  opA : arith.op_a = a
  opB : arith.op_b = b

/-
  The flags are those of the integer order, with X for what X
  and Z bits leave open, and nets send the same.  The lt flag
  is not for `%cmp/e`.
-/
structure CmpFlags.Right (i : CmpOp) (old flags : CmpFlags) (l r : VvpVector4) : Prop where
  eq : flags.eq = eqValue i.signed l r
  lt : flags.lt = if i = .cmpE then old.lt else ltValue i.signed l r
  eeq : flags.eeq = caseEqValue l r
  netEq : ∀ arith : VvpArith, arith.Compares l r → vvpCmpEq arith = some flags.eq
  netLt :
    i ≠ .cmpE →
      ∀ arith : VvpArith, arith.signed_flag = i.signed →
        arith.Compares r l →
        vvpCmpGtge arith .zero = some flags.lt
  netGe :
    i ≠ .cmpE →
      ∀ arith : VvpArith, arith.signed_flag = i.signed →
        arith.Compares l r →
        vvpCmpGtge arith .one = some flags.lt.not

/- An instruction that sets the right flags. -/
def CmpOp.Agrees (i : CmpOp) (l r : VvpVector4) : Prop :=
  ∀ old, ∃ flags, i.run old l r = some flags ∧ CmpFlags.Right i old flags l r

/- Flags that are right but perhaps for eq are right. -/
theorem CmpFlags.right_of_eq {i : CmpOp} {old flags : CmpFlags} (hSize : r.size_ = l.size_)
    (hPos : 0 < l.size_) (hEq : flags.eq = eqValue i.signed l r) (hLt :
      flags.lt =
        if i = .cmpE then old.lt else ltValue i.signed l r)
    (hCase : flags.eeq = caseEqValue l r) :
    CmpFlags.Right i old flags l r where
  eq := hEq
  lt := hLt
  eeq := hCase
  netEq := by
    rintro arith ⟨hA, hB⟩
    subst hA hB
    rw [hEq]
    exact vvpCmpEq_eq hSize hPos i.signed
  netLt := by
    rintro hOp arith hFlag ⟨hA, hB⟩
    subst hA hB
    rw [hLt, if_neg hOp, ← hFlag]
    exact vvpCmpGtge_lt hSize.symm (by omega)
  netGe := by
    rintro hOp arith hFlag ⟨hA, hB⟩
    subst hA hB
    rw [hLt, if_neg hOp, ← hFlag]
    exact vvpCmpGtge_ge hSize hPos

/-
  The comparisons agree, but a signed one of vectors in which
  there are both bits that differ and bits that are X or Z.
-/
theorem comparisons_agree (i : CmpOp) (l r : VvpVector4) (hSize : r.size_ = l.size_)
    (hPos : 0 < l.size_) :
    i.Agrees l r ↔
      (i = .cmpS →
        (l.Defined ∧ r.Defined) ∨ ¬ l.Differ r) := by
  cases i with
  | cmpE =>
    refine ⟨(fun _ h => by cases h), fun _ old => ?_⟩
    refine ⟨_, doCMPE_eq hSize hPos false, ?_⟩
    exact CmpFlags.right_of_eq hSize hPos rfl rfl rfl
  | cmpU =>
    refine ⟨(fun _ h => by cases h), fun _ old => ?_⟩
    refine ⟨_, @doCMPU_eq l r old hSize hPos, ?_⟩
    exact CmpFlags.right_of_eq hSize hPos rfl rfl rfl
  | cmpS =>
    by_cases hDefined : l.Defined ∧ r.Defined
    · refine ⟨fun _ _ => Or.inl hDefined, fun _ old => ?_⟩
      refine ⟨_, @doCMPS_defined l r old hSize hPos hDefined, ?_⟩
      exact CmpFlags.right_of_eq hSize hPos rfl rfl rfl
    · have hEqValue : eqValue true l r =
          if l.Differ r then .zero else .x :=
        if_neg hDefined
      constructor
      · intro hAgrees _
        right
        intro hDiffer
        rcases hAgrees ⟨.x, .x, .x⟩ with ⟨flags, hRun, hRight⟩
        have hDoes := @doCMPS_undefined l r ⟨.x, .x, .x⟩ hSize hPos hDefined
        have hSame := hDoes.symm.trans hRun
        have hEq := hRight.eq
        rw [← Option.some.inj hSame] at hEq
        change VvpBit4.x = eqValue true l r at hEq
        rw [hEqValue, if_pos hDiffer] at hEq
        cases hEq
      · intro h old
        have hSame := (h rfl).resolve_left hDefined
        refine ⟨_, @doCMPS_undefined l r old hSize hPos hDefined, ?_⟩
        apply CmpFlags.right_of_eq hSize hPos _ rfl rfl
        show VvpBit4.x = eqValue true l r
        rw [hEqValue, if_neg hSame]

/- An X in the one bit of an operand. -/
theorem comparisons_agree_x : CmpOp.Agrees .cmpU (VvpVector4.fill 1 .x) (VvpVector4.fill 1 .one) :=
  (comparisons_agree .cmpU (VvpVector4.fill 1 .x)
    (VvpVector4.fill 1 .one) rfl (by decide)).mpr (fun h => by cases h)

/-
  An X in the upper bits, and 0 and 1 in the lower ones: the
  signed comparison leaves open whether they are equal, and
  the unsigned one and the net do not.
-/
theorem signed_comparison_open :
    let l := (VvpVector4.fill 2 .x).setBit 0 .zero
    let r := (VvpVector4.fill 2 .x).setBit 0 .one
    let old : CmpFlags := ⟨.zero, .zero, .zero⟩
    (CmpOp.cmpS.run old l r).map CmpFlags.eq = some .x ∧
      (CmpOp.cmpU.run old l r).map CmpFlags.eq = some .zero ∧
      vvpCmpEq ⟨2, true, l, r, l⟩ = some .zero :=
  ⟨by decide, by decide, by decide⟩

end EpicSim
