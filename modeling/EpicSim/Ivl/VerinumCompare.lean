import EpicSim.Ivl.VerinumOps

/-
  The compiler's comparisons of two-state numbers of any
  lengths: they compare the integers.

  The shorter number is continued by its sign.  A bit of the
  longer one that differs from this sign decides alone, since
  the numbers are only compared so far when their signs agree.
-/

----
-- Operators
----

namespace EpicSim

namespace Verinum

/- `operator >`. -/
def gt (left right : Verinum) : VerinumV := lt right left

/- `operator >=`. -/
def ge (left right : Verinum) : VerinumV := le right left

/- `operator !=`; an enumeration is false at zero only. -/
def ne (left right : Verinum) : VerinumV :=
  if equalTo left right ≠ .v0 then .v0 else .v1

end Verinum

----
-- Operands
----

open TwosComplement

namespace Verinum

/- The sign a number has in a calculation. -/
def padBit (signed : Bool) (v : Verinum) : Bool :=
  sign signed v.len v.bit

/- The bits of a number in a calculation, without end. -/
def comparedBit (signed : Bool) (v : Verinum) : Nat → Bool :=
  extended signed v.len v.bit

variable {v : Verinum} {signed : Bool} {left right : Verinum}

theorem pad_eq (h : v.Defined) (hLen : 0 < v.len) (signed : Bool) :
    (if signed then v.get (v.len - 1) else .v0) = VerinumV.ofBool (padBit signed v) := by
  unfold padBit
  rw [sign_of_pos signed hLen v.bit]
  cases signed with
  | false => rfl
  | true => rw [if_pos rfl, get_of_defined h (by omega), Bool.true_and]

/- Some bit from a place on differs from a padding. -/
theorem any_differs_iff (h : v.Defined) (n : Nat) (pad : Bool) :
    (List.range (v.len - n)).any (fun k =>
      v.get (v.len - 1 - k) != VerinumV.ofBool pad) = true ↔
        ∃ i, n ≤ i ∧ i < v.len ∧ v.bit i = !pad := by
  have hDiffers : ∀ i < v.len,
      (v.get i != VerinumV.ofBool pad) = true ↔
        v.bit i = !pad := by
    intro i hi
    rw [get_of_defined h hi]
    cases v.bit i <;> cases pad <;> decide
  rw [List.any_eq_true]
  constructor
  · grind
  · rintro ⟨i, hLow, hHigh, hBit⟩
    have hBack : v.len - 1 - (v.len - 1 - i) = i := by omega
    grind

/- The integer, read from any number of continued bits. -/
theorem integer_eq_compared (hSign : v.has_sign = signed) {n : Nat} (hLe : v.len ≤ n) :
    v.integer = value signed n (comparedBit signed v) := by
  unfold comparedBit integer
  rw [value_extended hLe, hSign]

/- Numbers of one sign are ordered as their bits are. -/
theorem integer_le_iff (hLeft : left.has_sign = signed)
    (hRight : right.has_sign = signed) (hLenLeft : 0 < left.len) (hLenRight : 0 < right.len)
    (hPad : padBit signed left = padBit signed right) {n : Nat}
    (hLe : left.len ≤ n) (hLe' : right.len ≤ n) :
    left.integer ≤ right.integer ↔
      low (comparedBit signed left) n ≤ low (comparedBit signed right) n := by
  have hSame : sign signed n (comparedBit signed left) =
      sign signed n (comparedBit signed right) := by
    unfold comparedBit
    rw [sign_extended hLenLeft hLe, sign_extended hLenRight hLe']
    exact hPad
  rw [integer_eq_compared hLeft hLe, integer_eq_compared hRight hLe', value_le_iff_of_sign hSame]

/- A negative number is less than one that is not. -/
theorem integer_lt_of_pad (hLeft : left.has_sign = signed) (hRight : right.has_sign = signed)
    (hPadLeft : padBit signed left = true) (hPadRight : padBit signed right = false) :
    left.integer < right.integer := by
  have hL := low_lt left.bit left.len
  have hCast := cast_two_pow left.len
  unfold padBit at hPadLeft hPadRight
  unfold integer value
  rw [hLeft, hRight, hPadLeft, hPadRight, if_pos rfl, if_neg Bool.false_ne_true]
  omega

/- A bit of the longer number that leaves the padding. -/
theorem compared_lt_of_differs {short long : Verinum} {n : Nat} (hLe : long.len ≤ n)
    (h : ∃ i, short.len ≤ i ∧ i < long.len ∧ long.bit i = !padBit signed short) :
    if padBit signed short then
      low (comparedBit signed long) n < low (comparedBit signed short) n
    else
      low (comparedBit signed short) n < low (comparedBit signed long) n := by
  have hShort : ∀ i, short.len ≤ i → i < n →
      comparedBit signed short i = padBit signed short :=
    fun i hi _ => extended_of_le hi
  rcases h with ⟨i, hi, hLong, hBit⟩
  have hAt : comparedBit signed long i = !padBit signed short := (extended_of_lt hLong).trans hBit
  cases hCase : padBit signed short with
  | false =>
    rw [hCase] at hShort hAt
    exact low_lt_of_zeros hShort ⟨i, hi, by omega, hAt⟩
  | true =>
    rw [hCase] at hShort hAt
    exact low_lt_of_ones hShort ⟨i, hi, by omega, hAt⟩

/- No bit above the shorter number leaves the padding. -/
theorem compared_eq_of_none (hPad : padBit signed left = padBit signed right)
    (hLeft : ¬∃ i, right.len ≤ i ∧ i < left.len ∧ left.bit i = !padBit signed right)
    (hRight : ¬∃ i, left.len ≤ i ∧ i < right.len ∧ right.bit i = !padBit signed left)
    (i : Nat) (hi : min left.len right.len ≤ i) :
    comparedBit signed left i = comparedBit signed right i := by
  have hAll : ∀ {v : Verinum} {k : Nat} {pad : Bool},
      (¬∃ i, k ≤ i ∧ i < v.len ∧ v.bit i = !pad) →
        pad = padBit signed v →
          k ≤ i → comparedBit signed v i = pad := by
    intro v k pad hNone hSame hk
    by_cases hLt : i < v.len
    · refine (extended_of_lt hLt).trans ?_
      by_contra hNe
      refine hNone ⟨i, hk, hLt, ?_⟩
      cases hBit : v.bit i <;> cases pad
      · exact absurd hBit hNe
      · rfl
      · rfl
      · exact absurd hBit hNe
    · exact (extended_of_le (Nat.not_lt.mp hLt)).trans hSame.symm
  rcases Nat.le_total left.len right.len with hLe | hLe
  · grind
  · grind

end Verinum

end EpicSim

----
-- The Three Loops
----

namespace EpicSim

open TwosComplement

namespace Verinum

variable {signed : Bool} {left right : Verinum}

theorem signed_of_pad {v : Verinum} (h : padBit signed v = true) : signed = true := by
  exact (Bool.and_eq_true_iff.mp h).1

/- What the loops of an order find, whatever they answer. -/
def orderSteps (left right : Verinum) (signed : Bool) (below above : VerinumV)
    (common : VerinumV) : VerinumV :=
  if padBit signed left && !padBit signed right then below
  else if !padBit signed left && padBit signed right then above
  else if (List.range (left.len - right.len)).any (fun k =>
      left.get (left.len - 1 - k) != VerinumV.ofBool (padBit signed right)) then
    if padBit signed left then below else above
  else if (List.range (right.len - left.len)).any (fun k =>
      right.get (right.len - 1 - k) != VerinumV.ofBool (padBit signed left)) then
    if padBit signed right then above else below
  else common

theorem signed_and_pad (signed : Bool) (v : Verinum) :
    (signed && padBit signed v) = padBit signed v := by
  cases hPad : padBit signed v with
  | false => exact Bool.and_false signed
  | true => rw [signed_of_pad hPad, Bool.true_and]

theorem signed_and_pads (signed b : Bool) (v : Verinum) :
    (signed && !b && padBit signed v) = (!b && padBit signed v) := by
  cases hPad : padBit signed v with
  | false => rw [Bool.and_false, Bool.and_false]
  | true => rw [signed_of_pad hPad, Bool.true_and]

theorem ofBool_eq_v0 (b : Bool) : (VerinumV.ofBool b == VerinumV.v0) = !b := by
  cases b <;> rfl

theorem ofBool_eq_v1 (b : Bool) : (VerinumV.ofBool b == VerinumV.v1) = b := by
  cases b <;> rfl

section

variable (hLeft : left.Defined) (hRight : right.Defined) (hLenLeft : 0 < left.len)
  (hLenRight : 0 < right.len)

include hLeft hRight hLenLeft hLenRight

theorem le_eq_steps (hSign : (left.has_sign && right.has_sign) = signed) :
    le left right = orderSteps left right signed .v1 .v0
      (le.leDown left right (min left.len right.len)) := by
  unfold le orderSteps
  simp only [hSign, pad_eq hLeft hLenLeft signed, pad_eq hRight hLenRight signed,
    ofBool_eq_v0, ofBool_eq_v1, signed_and_pad, signed_and_pads]

theorem lt_eq_steps (hSign : (left.has_sign && right.has_sign) = signed) :
    lt left right = orderSteps left right signed .v1 .v0
      (lt.ltDown left right (min left.len right.len)) := by
  unfold lt orderSteps
  simp only [hSign, pad_eq hLeft hLenLeft signed, pad_eq hRight hLenRight signed,
    ofBool_eq_v0, ofBool_eq_v1, signed_and_pad, signed_and_pads]

/- The steps find the order of the integers, and leave the
   common bits only what they decide. -/
theorem orderSteps_spec (hSignLeft : left.has_sign = signed) (hSignRight : right.has_sign = signed)
    (common : VerinumV) :
    (left.integer < right.integer ∧ orderSteps left right signed .v1 .v0 common = .v1) ∨
    (right.integer < left.integer ∧ orderSteps left right signed .v1 .v0 common = .v0) ∨
    ((left.integer ≤ right.integer ↔
        low left.bit (min left.len right.len) ≤ low right.bit (min left.len right.len)) ∧
      (right.integer ≤ left.integer ↔
        low right.bit (min left.len right.len) ≤ low left.bit (min left.len right.len)) ∧
      orderSteps left right signed .v1 .v0 common = common) := by
  unfold orderSteps
  by_cases hPad : padBit signed left = padBit signed right
  · have hLe := integer_le_iff hSignLeft hSignRight hLenLeft
      hLenRight hPad (Nat.le_max_left left.len right.len)
      (Nat.le_max_right left.len right.len)
    have hGe := integer_le_iff hSignRight hSignLeft hLenRight
      hLenLeft hPad.symm (Nat.le_max_right left.len right.len)
      (Nat.le_max_left left.len right.len)
    have hNoTop : ∀ b : Bool, (b && !b) = false ∧
        (!b && b) = false := by decide
    rw [hPad, (hNoTop _).1, (hNoTop _).2]
    by_cases hTop : ∃ i, right.len ≤ i ∧ i < left.len ∧ left.bit i = !padBit signed right
    · -- a bit of the left number above the right one
      rw [if_pos ((any_differs_iff hLeft _ _).mpr hTop)]
      have hOrder := compared_lt_of_differs (Nat.le_max_left left.len right.len) hTop
      cases hCase : padBit signed right with
      | false =>
        rw [hCase] at hOrder
        refine Or.inr (Or.inl ⟨?_, rfl⟩)
        exact Int.not_le.mp (mt hLe.mp (Nat.not_le.mpr hOrder))
      | true =>
        rw [hCase] at hOrder
        refine Or.inl ⟨?_, rfl⟩
        exact Int.not_le.mp (mt hGe.mp (Nat.not_le.mpr hOrder))
    · rw [if_neg (mt (any_differs_iff hLeft _ _).mp hTop)]
      rw [hPad.symm]
      by_cases hTop' : ∃ i, left.len ≤ i ∧ i < right.len ∧ right.bit i = !padBit signed left
      · -- a bit of the right number above the left one
        rw [if_pos ((any_differs_iff hRight _ _).mpr hTop')]
        have hOrder := compared_lt_of_differs (Nat.le_max_right left.len right.len) hTop'
        cases hCase : padBit signed left with
        | false =>
          rw [hCase] at hOrder
          refine Or.inl ⟨?_, rfl⟩
          exact Int.not_le.mp (mt hGe.mp (Nat.not_le.mpr hOrder))
        | true =>
          rw [hCase] at hOrder
          refine Or.inr (Or.inl ⟨?_, rfl⟩)
          exact Int.not_le.mp (mt hLe.mp (Nat.not_le.mpr hOrder))
      · -- only the common bits are left
        rw [if_neg (mt (any_differs_iff hRight _ _).mp hTop')]
        have hSame := compared_eq_of_none hPad hTop hTop'
        have hCommon : ∀ v : Verinum, ∀ k ≤ v.len,
            low (comparedBit signed v) k = low v.bit k :=
          fun v k hk => low_congr (fun i hi => extended_of_lt (Nat.lt_of_lt_of_le hi hk))
        refine Or.inr (Or.inr ⟨hLe.trans ?_, hGe.trans ?_, rfl⟩)
        · rw [low_le_iff_of_top (by omega) (fun i hi _ => hSame i hi),
            hCommon left _ (Nat.min_le_left _ _), hCommon right _ (Nat.min_le_right _ _)]
        · rw [low_le_iff_of_top (by omega) (fun i hi _ => (hSame i hi).symm),
            hCommon left _ (Nat.min_le_left _ _), hCommon right _ (Nat.min_le_right _ _)]
  · cases hL : padBit signed left with
    | false =>
      have hR : padBit signed right = true := by grind
      rw [hR]
      exact Or.inr (Or.inl ⟨integer_lt_of_pad hSignRight hSignLeft hR hL, rfl⟩)
    | true =>
      have hR : padBit signed right = false := by grind
      rw [hR]
      exact Or.inl ⟨integer_lt_of_pad hSignLeft hSignRight hL hR, rfl⟩

end

end Verinum

end EpicSim

----
-- Comparisons of Integers
----

namespace EpicSim

open TwosComplement

namespace Verinum

variable {left right : Verinum}

section

variable (hLeft : left.Defined) (hRight : right.Defined)

include hLeft hRight

theorem le_integer
    (hSign : left.has_sign = right.has_sign) (hLenLeft : 0 < left.len) (hLenRight : 0 < right.len) :
    le left right = .ofBool (decide (left.integer ≤ right.integer)) := by
  have hCalc : (left.has_sign && right.has_sign) =
      right.has_sign := by rw [hSign, Bool.and_self]
  rw [le_eq_steps hLeft hRight hLenLeft hLenRight hCalc]
  rcases orderSteps_spec hLeft hRight hLenLeft hLenRight hSign rfl
      (le.leDown left right (min left.len right.len)) with
    ⟨hLt, hStep⟩ | ⟨hGt, hStep⟩ | ⟨hLe, _, hStep⟩
  · rw [hStep, decide_eq_true (Int.le_of_lt hLt)]
    rfl
  · rw [hStep, decide_eq_false (Int.not_le.mpr hGt)]
    rfl
  · rw [hStep, leDown_eq hLeft hRight (Nat.le_refl _)]
    by_cases hLow : low left.bit (min left.len right.len) ≤ low right.bit (min left.len right.len)
    · rw [if_pos hLow, decide_eq_true (hLe.mpr hLow)]
      rfl
    · rw [if_neg hLow, decide_eq_false (mt hLe.mp hLow)]
      rfl

theorem lt_integer
    (hSign : left.has_sign = right.has_sign) (hLenLeft : 0 < left.len) (hLenRight : 0 < right.len) :
    lt left right = .ofBool (decide (left.integer < right.integer)) := by
  have hCalc : (left.has_sign && right.has_sign) =
      right.has_sign := by rw [hSign, Bool.and_self]
  rw [lt_eq_steps hLeft hRight hLenLeft hLenRight hCalc]
  rcases orderSteps_spec hLeft hRight hLenLeft hLenRight hSign rfl
      (lt.ltDown left right (min left.len right.len)) with
    ⟨hLt, hStep⟩ | ⟨hGt, hStep⟩ | ⟨_, hGe, hStep⟩
  · rw [hStep, decide_eq_true hLt]
    rfl
  · rw [hStep, decide_eq_false (Int.not_lt.mpr (Int.le_of_lt hGt))]
    rfl
  · rw [hStep, ltDown_eq hLeft hRight (Nat.le_refl _)]
    by_cases hLow : low left.bit (min left.len right.len) < low right.bit (min left.len right.len)
    · have hLt := mt hGe.mp (Nat.not_le.mpr hLow)
      rw [if_pos hLow, decide_eq_true (Int.not_le.mp hLt)]
      rfl
    · have hLe := hGe.mpr (Nat.not_lt.mp hLow)
      rw [if_neg hLow, decide_eq_false (Int.not_lt.mpr hLe)]
      rfl

/- The bits that `==` compares. -/
theorem all_same_iff (signed : Bool) (n : Nat) :
    ((List.range n).all fun idx =>
      (if idx < left.len then left.get idx
        else VerinumV.ofBool (padBit signed left)) ==
      (if idx < right.len then right.get idx
        else VerinumV.ofBool (padBit signed right))) = true ↔
      low (comparedBit signed left) n = low (comparedBit signed right) n := by
  have hBit : ∀ v : Verinum, v.Defined → ∀ idx,
      (if idx < v.len then v.get idx
        else VerinumV.ofBool (padBit signed v)) =
          VerinumV.ofBool (comparedBit signed v idx) := by
    intro v hv idx
    unfold comparedBit
    split_ifs with hLt
    · rw [get_of_defined hv hLt, extended_of_lt hLt]
    · rw [extended_of_le (Nat.not_lt.mp hLt)]
      rfl
  have hInj : ∀ a b : Bool,
      (VerinumV.ofBool a == VerinumV.ofBool b) = true ↔ a = b := by
    decide
  simp only [hBit left hLeft, hBit right hRight, List.all_eq_true, List.mem_range, hInj]
  exact (low_eq_iff _ _ n).symm

theorem equalTo_integer
    (hSign : left.has_sign = right.has_sign) (hLenLeft : 0 < left.len) (hLenRight : 0 < right.len) :
    equalTo left right = .ofBool (decide (left.integer = right.integer)) := by
  have hCalc : (left.has_sign && right.has_sign) =
      right.has_sign := by rw [hSign, Bool.and_self]
  unfold equalTo
  simp only [hCalc, pad_eq hLeft hLenLeft right.has_sign, pad_eq hRight hLenRight right.has_sign,
    ofBool_eq_v0, ofBool_eq_v1, signed_and_pad, signed_and_pads]
  by_cases hPad : padBit right.has_sign left = padBit right.has_sign right
  · have hNoTop : ∀ b : Bool, (b && !b) = false ∧
        (!b && b) = false := by decide
    have hLe := integer_le_iff hSign rfl hLenLeft hLenRight hPad
      (Nat.le_max_left left.len right.len)
      (Nat.le_max_right left.len right.len)
    have hGe := integer_le_iff rfl hSign hLenRight hLenLeft
      hPad.symm (Nat.le_max_right left.len right.len)
      (Nat.le_max_left left.len right.len)
    have hAll := all_same_iff hLeft hRight right.has_sign (max left.len right.len)
    rw [hPad] at hAll ⊢
    rw [(hNoTop _).1, (hNoTop _).2]
    refine congrArg VerinumV.ofBool (Bool.eq_iff_iff.mpr (hAll.trans ?_))
    rw [decide_eq_true_iff]
    omega
  · cases hL : padBit right.has_sign left with
    | false =>
      have hR : padBit right.has_sign right = true := by grind
      have hLt := integer_lt_of_pad rfl hSign hR hL
      rw [hR, decide_eq_false (by omega)]
      rfl
    | true =>
      have hR : padBit right.has_sign right = false := by grind
      have hLt := integer_lt_of_pad hSign rfl hL hR
      rw [hR, decide_eq_false (by omega)]
      rfl

end

/- The answers of the six comparisons. -/
structure Compared (left right : Verinum) : Prop where
  eq : equalTo left right = .ofBool (decide (left.integer = right.integer))
  ne : ne left right = .ofBool (decide (left.integer ≠ right.integer))
  lt : lt left right = .ofBool (decide (left.integer < right.integer))
  le : le left right = .ofBool (decide (left.integer ≤ right.integer))
  gt : gt left right = .ofBool (decide (left.integer > right.integer))
  ge : ge left right = .ofBool (decide (left.integer ≥ right.integer))

theorem compared_of_defined (hLeft : left.Defined) (hRight : right.Defined)
    (hSign : left.has_sign = right.has_sign) (hLenLeft : 0 < left.len) (hLenRight : 0 < right.len) :
    Compared left right := by
  have hEq := equalTo_integer hLeft hRight hSign hLenLeft hLenRight
  refine ⟨hEq, ?_, lt_integer hLeft hRight hSign hLenLeft hLenRight,
    le_integer hLeft hRight hSign hLenLeft hLenRight,
    lt_integer hRight hLeft hSign.symm hLenRight hLenLeft,
    le_integer hRight hLeft hSign.symm hLenRight hLenLeft⟩
  unfold ne
  rw [hEq]
  by_cases hSame : left.integer = right.integer
  · rw [decide_eq_true hSame, decide_eq_false (not_not_intro hSame)]
    rfl
  · rw [decide_eq_false hSame, decide_eq_true hSame]
    rfl

/- The comparisons of two-state numbers are those of the
   integers, and one of three holds alone. -/
theorem comparison_exact {left right : Verinum} (hLeft : left.Defined) (hRight : right.Defined)
    (hSign : left.has_sign = right.has_sign) (hLenLeft : 0 < left.len) (hLenRight : 0 < right.len) :
    Compared left right ∧
      ((lt left right, equalTo left right, gt left right) = (.v1, .v0, .v0) ∨
        (lt left right, equalTo left right, gt left right) = (.v0, .v1, .v0) ∨
        (lt left right, equalTo left right, gt left right) = (.v0, .v0, .v1)) := by
  have hAll := compared_of_defined hLeft hRight hSign hLenLeft hLenRight
  refine ⟨hAll, ?_⟩
  rw [hAll.lt, hAll.eq, hAll.gt]
  rcases Int.lt_trichotomy left.integer right.integer with hLt | hSame | hGt
  · rw [decide_eq_true hLt, decide_eq_false (by omega), decide_eq_false (by omega)]
    exact Or.inl rfl
  · rw [decide_eq_false (by omega), decide_eq_true hSame, decide_eq_false (by omega)]
    exact Or.inr (Or.inl rfl)
  · rw [decide_eq_false (by omega), decide_eq_false (by omega), decide_eq_true hGt]
    exact Or.inr (Or.inr rfl)

/- -3 in three bits, and -1 in one. -/
theorem comparison_exact_negative :
    Compared ⟨[.v1, .v0, .v1], true, true, false⟩ ⟨[.v1], true, true, false⟩ ∧
      ((lt ⟨[.v1, .v0, .v1], true, true, false⟩ ⟨[.v1], true, true, false⟩,
        equalTo ⟨[.v1, .v0, .v1], true, true, false⟩ ⟨[.v1], true, true, false⟩,
        gt ⟨[.v1, .v0, .v1], true, true, false⟩ ⟨[.v1], true, true, false⟩) = (.v1, .v0, .v0)) := by
  rcases @comparison_exact
      ⟨[.v1, .v0, .v1], true, true, false⟩
      ⟨[.v1], true, true, false⟩
      rfl rfl rfl (by decide) (by decide) with
    ⟨hAll, _⟩
  exact ⟨hAll, by decide⟩

end Verinum

end EpicSim
