import EpicSim.Ivl.VerinumNative

/-
  The long division of the compiler's numbers: magnitudes,
  the rounds that subtract a shifted divisor, and the casts
  that end both operators.
-/

----
-- Comparison Without Sign
----

namespace EpicSim

open TwosComplement VerinumV

namespace Verinum

variable {v left right : Verinum} {n d : Nat} {num den : Verinum}

theorem bit_of_le {idx : Nat} (h : v.len ≤ idx) : v.bit idx = false := by
  unfold bit get
  rw [List.getD_eq_default _ _ h]
  rfl

theorem number_lt (v : Verinum) : v.number < 2 ^ v.len :=
  low_lt v.bit v.len

theorem integer_eq_number (h : v.has_sign = false) : v.integer = v.number := by
  unfold integer value sign number
  rw [h]
  rfl

/- Some bit from a place on is not zero. -/
theorem any_top_iff (h : v.Defined) (n : Nat) :
    (List.range (v.len - n)).any (fun k =>
      v.get (v.len - 1 - k) != .v0) = true ↔
        ∃ i, n ≤ i ∧ i < v.len ∧ v.bit i = true := by
  rw [List.any_eq_true]
  constructor
  · rintro ⟨k, hk, hBit⟩
    rw [List.mem_range] at hk
    refine ⟨v.len - 1 - k, by omega, by omega, ?_⟩
    rw [get_of_defined h (by omega)] at hBit
    cases hGet : v.bit (v.len - 1 - k) with
    | false => rw [hGet] at hBit; cases hBit
    | true => rfl
  · rintro ⟨i, hLow, hHigh, hBit⟩
    have hBack : v.len - 1 - (v.len - 1 - i) = i := by omega
    refine ⟨v.len - 1 - i, List.mem_range.mpr (by omega), ?_⟩
    rw [hBack, get_of_defined h hHigh, hBit]
    rfl

variable {n room : Nat} {result : Verinum}

theorem leDown_eq (hLeft : left.Defined) (hRight : right.Defined)
    (hn : n ≤ min left.len right.len) :
    le.leDown left right n =
      if low left.bit n ≤ low right.bit n then .v1 else .v0 := by
  induction n with
  | zero => rfl
  | succ n ih =>
    have hL := low_lt left.bit n
    have hR := low_lt right.bit n
    rw [le.leDown, get_of_defined hLeft (by omega),
      get_of_defined hRight (by omega), ih (by omega), low_succ, low_succ]
    cases left.bit n <;> cases right.bit n <;>
      simp only [Bool.toNat_false, Bool.toNat_true, Nat.zero_mul, Nat.one_mul]
    · rfl
    · exact (if_pos (show low left.bit n ≤ low right.bit n + 2 ^ n by omega)).symm
    · exact (if_neg (show ¬low left.bit n + 2 ^ n ≤ low right.bit n by omega)).symm
    · simp only [Nat.add_le_add_iff_right]
      rfl

theorem le_eq (hLeft : left.Defined) (hRight : right.Defined) (hSign : left.has_sign = false) :
    le left right =
      if left.number ≤ right.number then .v1 else .v0 := by
  unfold le
  simp only [hSign, Bool.false_and, Bool.false_eq_true, if_false]
  by_cases hTopLeft : ∃ i, right.len ≤ i ∧ i < left.len ∧ left.bit i = true
  · rw [if_pos ((any_top_iff hLeft _).mpr hTopLeft)]
    rcases hTopLeft with ⟨i, hLow, hHigh, hBit⟩
    have hPlace : 2 ^ i ≤ left.number := le_low hBit hHigh
    have hPow : 2 ^ right.len ≤ 2 ^ i := Nat.pow_le_pow_right (by decide) hLow
    have hLt := right.number_lt
    rw [if_neg (by omega)]
  · rw [if_neg (mt (any_top_iff hLeft _).mp hTopLeft)]
    by_cases hTopRight : ∃ i, left.len ≤ i ∧ i < right.len ∧ right.bit i = true
    · rw [if_pos ((any_top_iff hRight _).mpr hTopRight)]
      rcases hTopRight with ⟨i, hLow, hHigh, hBit⟩
      have hPlace : 2 ^ i ≤ right.number := le_low hBit hHigh
      have hPow : 2 ^ left.len ≤ 2 ^ i := Nat.pow_le_pow_right (by decide) hLow
      have hLt := left.number_lt
      rw [if_pos (by omega)]
    · rw [if_neg (mt (any_top_iff hRight _).mp hTopRight), leDown_eq hLeft hRight (Nat.le_refl _)]
      have hZero : ∀ {v : Verinum} {m : Nat},
          (¬∃ i, m ≤ i ∧ i < v.len ∧ v.bit i = true) →
            ∀ i, m ≤ i → i < v.len → v.bit i = false := by simp
      have hL : left.number = low left.bit (min left.len right.len) :=
        low_trim_zero (Nat.min_le_left _ _) (fun i hm hi => hZero hTopLeft i (by omega) hi)
      have hR : right.number = low right.bit (min left.len right.len) :=
        low_trim_zero (Nat.min_le_right _ _) (fun i hm hi => hZero hTopRight i (by omega) hi)
      rw [hL, hR]

theorem le_ne_v0_iff (hLeft : left.Defined) (hRight : right.Defined)
    (hSign : left.has_sign = false) : le left right ≠ .v0 ↔ left.number ≤ right.number := by
  rw [le_eq hLeft hRight hSign]
  split_ifs with hLe
  · exact ⟨fun _ => hLe, fun _ h => by cases h⟩
  · exact ⟨fun h => absurd rfl h, fun h => absurd h hLe⟩

/- The number ends at its used width. -/
theorem usedWidth_spec (h : v.Defined) (hn : n ≤ v.len) :
    usedWidth v n ≤ n ∧
      low v.bit n = low v.bit (usedWidth v n) ∧
      (usedWidth v n = 0 ∨
        2 ^ (usedWidth v n - 1) ≤ low v.bit n) := by
  induction n with
  | zero => exact ⟨Nat.le_refl _, rfl, Or.inl rfl⟩
  | succ n ih =>
    rw [usedWidth, get_of_defined h (by omega)]
    cases hBit : v.bit n with
    | false =>
      rw [if_pos (show ofBool false = .v0 from rfl), low_succ,
        hBit, Bool.toNat_false, Nat.zero_mul]
      rcases ih (by omega) with ⟨hLe, hLow, hTop⟩
      exact ⟨by omega, hLow, hTop⟩
    | true =>
      exact ⟨Nat.le_refl _, rfl, Or.inr (le_low hBit (Nat.lt_succ_self n))⟩

----
-- Numbers Without Sign Or Length
----

/- A defined number of neither sign nor fixed length. -/
structure Plain (v : Verinum) (n : Nat) : Prop where
  defined : v.Defined
  has_len : v.has_len = false
  has_sign : v.has_sign = false
  len_pos : 0 < v.len
  number : v.number = n

theorem Plain.integer (h : v.Plain n) : v.integer = n := by
  rw [integer_eq_number h.has_sign, h.number]

theorem Plain.lt (h : v.Plain n) : n < 2 ^ v.len := by
  rw [← h.number]
  exact v.number_lt

theorem Plain.sub {l r : Nat} (hLeft : left.Plain l) (hRight : right.Plain r) (hLe : r ≤ l)
    (hRoom : max left.len right.len + 1 < 2 ^ 32) :
    ∃ res, left.sub right = some res ∧ res.Plain (l - r) ∧
      res.len = max left.len right.len := by
  have hOperands : Operands left right :=
    { left_defined := hLeft.defined
      right_defined := hRight.defined
      left_len := hLeft.len_pos
      right_len := hRight.len_pos
      has_sign := hLeft.has_sign.trans hRight.has_sign.symm }
  rcases sub_spec hOperands hRoom with ⟨res, hRes, hSummed⟩
  have hGrown : (left.has_sign && !(left.has_len && right.has_len)) = false := by
    rw [hLeft.has_sign]
    rfl
  rcases hSummed.modulo hGrown with ⟨hLen, hMod⟩
  have hSign : res.has_sign = false := hSummed.has_sign.trans hLeft.has_sign
  have hHasLen : res.has_len = false := by
    rw [hSummed.has_len, hLeft.has_len]
    rfl
  have hPow : 2 ^ left.len ≤ 2 ^ res.len := Nat.pow_le_pow_right (by decide) (by omega)
  have hFits : Fits false res.len ((l - r : Nat) : Int) := by
    have hLt := hLeft.lt
    have hCast := cast_two_pow res.len
    unfold Fits
    rw [if_neg Bool.false_ne_true]
    omega
  have hFits' := res.integer_fits
  rw [hSign] at hFits'
  have hEq : res.integer = ((l - r : Nat) : Int) := by
    apply hFits'.eq hFits
    rw [hLen, Nat.cast_sub hLe, ← hLeft.integer, ← hRight.integer]
    exact hMod
  refine ⟨res, hRes, ⟨hSummed.defined, hHasLen, hSign, ?_, ?_⟩, hLen⟩
  · have hPos := hLeft.len_pos
    omega
  · rw [integer_eq_number hSign] at hEq
    exact_mod_cast hEq

/- Trimming leaves a bit. -/
theorem trimVnum_pos (hLen : 0 < v.len) : 0 < (trimVnum v).len := by
  unfold trimVnum
  have hTake : ∀ n has_len, 0 < n →
      0 < (ofBits (v.bits.take n) has_len).len := by
    intro n has_len hn
    unfold len at hLen ⊢
    change 0 < (v.bits.take n).length
    rw [List.length_take]
    omega
  split_ifs
  · exact hLen
  · exact hLen
  · exact hTake _ false (Nat.succ_pos _)
  · grind

theorem Plain.trimVnum (h : v.Plain n) : (Verinum.trimVnum v).Plain n := by
  have hTrim := trimVnum_spec h.defined
  have hSign := hTrim.has_sign.trans h.has_sign
  refine
    { defined := hTrim.defined
      has_len := hTrim.has_len.trans h.has_len
      has_sign := hSign
      len_pos := trimVnum_pos h.len_pos
      number := ?_ }
  have hInteger := hTrim.integer
  rw [integer_eq_number hSign, h.integer] at hInteger
  exact_mod_cast hInteger

theorem Plain.shiftLeft (h : v.Plain n) {s : Nat} (hRoom : v.len + s < 2 ^ 32) :
    (v.shiftLeft s).Plain (n * 2 ^ s) ∧
      (v.shiftLeft s).len ≤ v.len + s := by
  rcases shiftLeft_spec h.defined s with ⟨res, hRes, hDefined, hLen, hHasLen, hSign, hMod⟩
  rw [h.has_len, if_neg Bool.false_ne_true, unsigned_of_lt hRoom] at hLen
  have hFits := fits_shiftLeft v.integer_fits s
  have hFits' := res.integer_fits
  rw [← hLen, h.has_sign] at hFits
  rw [hSign, h.has_sign] at hFits'
  have hEq := hFits'.eq hFits hMod
  rw [integer_eq_number (hSign.trans h.has_sign), h.integer] at hEq
  have hPlain : res.Plain (n * 2 ^ s) :=
    { defined := hDefined
      has_len := hHasLen.trans h.has_len
      has_sign := hSign.trans h.has_sign
      len_pos := by
        have hPos := h.len_pos
        omega
      number := by exact_mod_cast hEq }
  rw [hRes]
  exact ⟨hPlain.trimVnum, Nat.le_trans (trimVnum_spec hDefined).len_le (Nat.le_of_eq hLen)⟩

theorem shiftRight_pos (hLen : 0 < v.len) (hStored : v.len < 2 ^ 32) (s : Nat) :
    0 < (v.shiftRight s).len := by
  unfold shiftRight
  generalize (if v.has_sign then v.get (v.len - 1)
    else VerinumV.v0) = sign_bit
  by_cases hFar : v.len ≤ s
  · rw [if_pos hFar]
    change 0 < (List.replicate (unsigned _) _).length
    rw [List.length_replicate, unsigned_of_lt]
    · split_ifs <;> omega
    · split_ifs <;> omega
  · rw [if_neg hFar]
    apply trimVnum_pos
    change 0 < (List.map _ _).length
    rw [List.length_map, List.length_range]
    split_ifs <;> omega

theorem Plain.shiftRight (h : v.Plain n) (hStored : v.len < 2 ^ 32) :
    (v.shiftRight 1).Plain (n / 2) ∧
      (v.shiftRight 1).len ≤ v.len := by
  rcases shiftRight_spec h.defined h.len_pos hStored 1 with
    ⟨hDefined, hInteger, hHasLen, hSign, -, hLe⟩
  have hSign' := hSign.trans h.has_sign
  rw [integer_eq_number hSign', h.integer] at hInteger
  exact ⟨
    { defined := hDefined
      has_len := hHasLen.trans h.has_len
      has_sign := hSign'
      len_pos := shiftRight_pos h.len_pos hStored 1
      number := by exact_mod_cast hInteger }, hLe⟩

----
-- The Long Path
----

/- A bit that is set in the quotient. -/
theorem set_spec (h : v.Defined) {idx : Nat} (hIdx : idx < v.len) (hBit : v.bit idx = false) :
    (v.set idx .v1).Defined ∧ (v.set idx .v1).len = v.len ∧
      (∀ i, i ≠ idx → (v.set idx .v1).bit i = v.bit i) ∧
      (v.set idx .v1).number = v.number + 2 ^ idx := by
  have hLen : (v.set idx .v1).len = v.len := List.length_set
  have hGet : ∀ i < v.len, (v.set idx .v1).get i = ofBool (if i = idx then true else v.bit i) := by
    intro i hi
    change (v.bits.set idx .v1).getD i .vx = _
    rw [List.getD_eq_getElem?_getD, List.getElem?_set]
    by_cases hSame : idx = i
    · rw [if_pos hSame, if_pos hSame.symm, if_pos (show idx < v.bits.length from hIdx)]
      rfl
    · rw [if_neg hSame, if_neg (Ne.symm hSame), ← get_of_defined h hi]
      rfl
  have hHas : (v.set idx .v1).HasBits v.len (fun i => if i = idx then true else v.bit i) :=
    ⟨hLen, hGet⟩
  refine ⟨hHas.defined, hLen, fun i hi => ?_, ?_⟩
  · rcases Nat.lt_or_ge i v.len with hIn | hOut
    · rw [hHas.bit_eq hIn, if_neg hi]
    · rw [bit_of_le (by omega), bit_of_le hOut]
  · rw [hHas.number, low_update hBit hIdx]
    rfl

/-
  In every round the divisor is at the place of the next bit
  of the quotient, and the rest is below twice the divisor.
-/
theorem divideLoop_spec (hPos : 0 < d) (hRoom : room + 1 < 2 ^ 32)
    (idx : Nat) {num den : Verinum} {e : Nat}
    (hNum : num.Plain n) (hDen : den.Plain e) (hNumLen : num.len ≤ room) (hDenLen : den.len ≤ room)
    (hPlace : ∀ k, idx = k + 1 → e = d * 2 ^ k)
    (hRest : n < d * 2 ^ idx) (hDefined : result.Defined)
    (hIdx : idx ≤ result.len) (hFree : ∀ i < idx, result.bit i = false) :
    ∃ res, divideLoop idx num den result = some res ∧
      res.Defined ∧ res.len = result.len ∧
      res.has_len = result.has_len ∧
      res.has_sign = result.has_sign ∧
      res.is_single = result.is_single ∧
      res.number = result.number + n / d := by
  induction idx generalizing num den result n e with
  | zero =>
    rw [pow_zero, Nat.mul_one] at hRest
    refine ⟨result, rfl, hDefined, rfl, rfl, rfl, rfl, ?_⟩
    rw [Nat.div_eq_of_lt hRest, Nat.add_zero]
  | succ idx ih =>
    have hE : e = d * 2 ^ idx := hPlace idx rfl
    have hHalf := hDen.shiftRight (by omega)
    have hNext : ∀ k, idx = k + 1 → e / 2 = d * 2 ^ k := by
      intro k hk
      rw [hE, hk, pow_succ, ← Nat.mul_assoc, Nat.mul_div_cancel _ (by decide)]
    rw [divideLoop]
    by_cases hFit : e ≤ n
    · rcases hNum.sub hDen hFit (by omega) with ⟨dif, hDif, hPlain, hDifLen⟩
      rcases set_spec hDefined hIdx (hFree idx (by omega)) with ⟨hSet, hSetLen, hSetBit, hSetNumber⟩
      have hRest' : n - e < d * 2 ^ idx := by
        rw [pow_succ, ← Nat.mul_assoc] at hRest
        omega
      rcases ih hPlain hHalf.1 (by omega) (by omega) hNext
          hRest' hSet (by omega) (fun i hi => by
            rw [hSetBit i (by omega)]
            exact hFree i (by omega)) with
        ⟨res, hRes, hResDefined, hResLen, hHasLen, hSign, hSingle, hNumber⟩
      refine ⟨res, ?_, hResDefined, hResLen.trans hSetLen, hHasLen, hSign, hSingle, ?_⟩
      · rw [if_pos ((le_ne_v0_iff hDen.defined hNum.defined
          hDen.has_sign).mpr (by
            rw [hDen.number, hNum.number]
            exact hFit)), hDif]
        exact hRes
      · have hDiv : n / d = 2 ^ idx + (n - e) / d := by
          have hBack : n = n - e + d * 2 ^ idx := by omega
          conv_lhs => rw [hBack]
          rw [Nat.add_mul_div_left _ _ hPos, Nat.add_comm]
        omega
    · have hRest' : n < d * 2 ^ idx := by omega
      rw [if_neg (mt (le_ne_v0_iff hDen.defined hNum.defined
        hDen.has_sign).mp (by
          rw [hDen.number, hNum.number]
          exact hFit))]
      exact ih hNum hHalf.1 hNumLen (by omega) hNext hRest'
        hDefined (by omega) (fun i hi => hFree i (by omega))

theorem modulusLoop_spec (hRoom : room + 1 < 2 ^ 32) (idx : Nat)
    {num den : Verinum} {e : Nat} (hNum : num.Plain n)
    (hDen : den.Plain e) (hNumLen : num.len ≤ room) (hDenLen : den.len ≤ room)
    (hPlace : ∀ k, idx = k + 1 → e = d * 2 ^ k) (hRest : n < d * 2 ^ idx) :
    ∃ res, modulusLoop idx num den = some res ∧
      res.Plain (n % d) ∧ num.len ≤ res.len ∧
      res.len ≤ room := by
  induction idx generalizing num den n e with
  | zero =>
    rw [pow_zero, Nat.mul_one] at hRest
    refine ⟨num, rfl, ?_, Nat.le_refl _, hNumLen⟩
    rwa [Nat.mod_eq_of_lt hRest]
  | succ idx ih =>
    have hE : e = d * 2 ^ idx := hPlace idx rfl
    have hHalf := hDen.shiftRight (by omega)
    have hNext : ∀ k, idx = k + 1 → e / 2 = d * 2 ^ k := by
      intro k hk
      rw [hE, hk, pow_succ, ← Nat.mul_assoc, Nat.mul_div_cancel _ (by decide)]
    rw [modulusLoop]
    by_cases hFit : e ≤ n
    · rcases hNum.sub hDen hFit (by omega) with ⟨dif, hDif, hPlain, hDifLen⟩
      have hRest' : n - e < d * 2 ^ idx := by
        rw [pow_succ, ← Nat.mul_assoc] at hRest
        omega
      rcases ih hPlain hHalf.1 (by omega) (by omega) hNext hRest' with
        ⟨res, hRes, hResPlain, hLow, hHigh⟩
      have hMod : (n - e) % d = n % d := by
        have hBack : n = n - e + d * 2 ^ idx := by omega
        conv_rhs => rw [hBack]
        rw [Nat.add_mul_mod_self_left]
      rw [hMod] at hResPlain
      refine ⟨res, ?_, hResPlain, by omega, hHigh⟩
      rw [if_pos ((le_ne_v0_iff hDen.defined hNum.defined
        hDen.has_sign).mpr (by
          rw [hDen.number, hNum.number]
          exact hFit)), hDif]
      exact hRes
    · have hRest' : n < d * 2 ^ idx := by omega
      rw [if_neg (mt (le_ne_v0_iff hDen.defined hNum.defined
        hDen.has_sign).mp (by
          rw [hDen.number, hNum.number]
          exact hFit))]
      exact ih hNum hHalf.1 hNumLen (by omega) hNext hRest'

@[simp] theorem withLen_len (v : Verinum) (flag : Bool) : (v.withLen flag).len = v.len := rfl

@[simp] theorem usedWidth_withLen (v : Verinum) (flag : Bool) (n : Nat) :
    usedWidth (v.withLen flag) n = usedWidth v n := by
  induction n with
  | zero => rfl
  | succ n ih =>
    rw [usedWidth, ih]
    rfl

/- The place where the division starts. -/
theorem start_spec (hNum : num.Plain n) (hDen : den.Plain d) (hPos : 0 < d) :
    0 < usedWidth den den.len ∧
      (usedWidth num num.len < usedWidth den den.len → n < d) ∧
      (usedWidth den den.len ≤ usedWidth num num.len →
        n < d * 2 ^ (usedWidth num num.len - usedWidth den den.len + 1)) := by
  rcases usedWidth_spec hNum.defined (Nat.le_refl num.len) with ⟨-, hNumLow, -⟩
  rcases usedWidth_spec hDen.defined (Nat.le_refl den.len) with ⟨-, hDenLow, hDenTop⟩
  have hN : n < 2 ^ usedWidth num num.len := by
    rw [← hNum.number, Verinum.number, hNumLow]
    exact low_lt _ _
  have hD : low den.bit den.len = d := hDen.number
  rw [hD] at hDenLow hDenTop
  have hWidth : 0 < usedWidth den den.len := by
    by_contra hNone
    rw [Nat.eq_zero_of_not_pos hNone] at hDenLow
    exact absurd hDenLow (Nat.ne_of_gt hPos)
  have hTop : 2 ^ (usedWidth den den.len - 1) ≤ d := hDenTop.resolve_left (Nat.ne_of_gt hWidth)
  refine ⟨hWidth, fun hLt => ?_, fun hLe => ?_⟩
  · have hPow : 2 ^ usedWidth num num.len ≤ 2 ^ (usedWidth den den.len - 1) :=
      Nat.pow_le_pow_right (by decide) (by omega)
    omega
  · have hSplit : usedWidth num num.len =
        (usedWidth den den.len - 1) + (usedWidth num num.len - usedWidth den den.len + 1) := by
      omega
    have hPow : 2 ^ usedWidth num num.len =
        2 ^ (usedWidth den den.len - 1) *
          2 ^ (usedWidth num num.len - usedWidth den den.len + 1) := by
      rw [← pow_add, ← hSplit]
    rw [hPow] at hN
    exact Nat.lt_of_lt_of_le hN (Nat.mul_le_mul_right _ hTop)

/- The quotient of two numbers, with room for a sign. -/
structure Quotient (signed_result : Bool) (len q : Nat) (res : Verinum) : Prop where
  defined : res.Defined
  len_pos : 0 < res.len
  len_le : res.len ≤ len + 1
  has_len : res.has_len = true
  is_single : res.is_single = false
  integer : res.integer = q
  negative : signed_result = true → Fits res.has_sign res.len (-q)

theorem unsignedDivide_spec (signed_result : Bool) (hNum : (num.withLen false).Plain n)
    (hDen : (den.withLen false).Plain d) (hPos : 0 < d) (hRoom : room + 1 < 2 ^ 32)
    (hNumLen : num.len ≤ room)
    (hReach : den.len + (usedWidth num num.len - usedWidth den den.len) ≤ room) :
    ∃ res, unsignedDivide num den signed_result = some res ∧
      Quotient signed_result (usedWidth num num.len) (n / d)
        res := by
  rcases start_spec hNum hDen hPos with ⟨hWidth, hFew, hMany⟩
  simp only [withLen_len, usedWidth_withLen] at hWidth hFew hMany
  unfold unsignedDivide
  simp only [withLen_len, usedWidth_withLen]
  by_cases hLt : usedWidth num num.len < usedWidth den den.len
  · rw [if_pos hLt]
    have hHas : (fill .v0 1 true).HasBits 1 (fun _ => false) := hasBits_replicate false rfl
    have hZero : n / d = 0 := Nat.div_eq_of_lt (hFew hLt)
    rw [hZero]
    exact ⟨_, rfl,
      { defined := hHas.defined
        len_pos := Nat.one_pos
        len_le := Nat.succ_le_succ (Nat.zero_le _)
        has_len := rfl
        is_single := rfl
        integer := hHas.integer
        negative := fun _ => by decide }⟩
  · rw [if_neg hLt]
    have hRest := hMany (by omega)
    generalize hShift : usedWidth num num.len - usedWidth den den.len = shift at *
    have hShifted := hDen.shiftLeft (show den.len + shift < 2 ^ 32 by omega)
    have hShiftedLen : ((den.withLen false).shiftLeft shift).len ≤ den.len + shift := hShifted.2
    have hNumLen' : (num.withLen false).len ≤ room := hNumLen
    have hPlace : ∀ k, shift + 1 = k + 1 →
        d * 2 ^ shift = d * 2 ^ k := by
      intro k hk
      rw [Nat.succ.inj hk]
    have hQ : n / d < 2 ^ (shift + 1) := Nat.div_lt_of_lt_mul hRest
    have hBound := (usedWidth_spec hNum.defined (Nat.le_refl num.len)).1
    rw [usedWidth_withLen] at hBound
    cases signed_result with
    | false =>
      have hHas : (fill .v0 (shift + 1) true).HasBits (shift + 1) (fun _ => false) := by
        apply hasBits_replicate false
        change List.replicate (unsigned _) _ = _
        rw [unsigned_of_lt (by omega)]
        rfl
      rcases divideLoop_spec hPos hRoom (shift + 1) hNum
          hShifted.1 hNumLen' (by omega) hPlace hRest
          hHas.defined (Nat.le_of_eq hHas.len_eq.symm)
          (fun i hi => hHas.bit_eq hi) with
        ⟨res, hRes, hDefined, hResLen, hHasLen, hSign, hSingle, hNumber⟩
      rw [hHas.len_eq] at hResLen
      rw [hHas.number, low_false, Nat.zero_add] at hNumber
      exact ⟨res, hRes,
        { defined := hDefined
          len_pos := by omega
          len_le := by omega
          has_len := hHasLen
          is_single := hSingle
          integer := by rw [integer_eq_number hSign, hNumber]
          negative := fun h => by cases h }⟩
    | true =>
      have hFill : (fill .v0 (shift + 1 + 1) true).HasBits (shift + 1 + 1) (fun _ => false) := by
        apply hasBits_replicate false
        change List.replicate (unsigned _) _ = _
        rw [unsigned_of_lt (by omega)]
        rfl
      have hHas : (((fill .v0 (shift + 1 + 1) true).set
          (shift + 1) .v0).withSign true).HasBits (shift + 1 + 1) (fun _ => false) := by
        have hSame : ((fill .v0 (shift + 1 + 1) true).set
            (shift + 1) .v0).bits = (fill .v0 (shift + 1 + 1) true).bits := by
          change (List.replicate (unsigned _) VerinumV.v0).set
            _ _ = List.replicate (unsigned _) _
          rw [List.set_replicate_self]
        constructor
        · change ((fill .v0 (shift + 1 + 1) true).set (shift + 1) .v0).bits.length = _
          rw [hSame]
          exact hFill.len_eq
        · intro i hi
          change ((fill .v0 (shift + 1 + 1) true).set (shift + 1) .v0).bits.getD i .vx = _
          rw [hSame]
          exact hFill.get_eq i hi
      rcases divideLoop_spec hPos hRoom (shift + 1) hNum
          hShifted.1 hNumLen' (by omega) hPlace hRest
          hHas.defined (by rw [hHas.len_eq]; omega)
          (fun i hi => hHas.bit_eq (by omega)) with
        ⟨res, hRes, hDefined, hResLen, hHasLen, hSign, hSingle, hNumber⟩
      rw [hHas.len_eq] at hResLen
      rw [hHas.number, low_false, Nat.zero_add] at hNumber
      have hSign' : res.has_sign = true := hSign
      have hCast := cast_two_pow (shift + 1)
      have hFits : Fits true res.len ((n / d : Nat) : Int) := by
        unfold Fits
        rw [if_pos rfl, hResLen]
        omega
      have hFits' := res.integer_fits
      rw [hSign'] at hFits'
      have hMod := res.number_modEq_integer
      rw [hNumber] at hMod
      exact ⟨res, hRes,
        { defined := hDefined
          len_pos := by omega
          len_le := by omega
          has_len := hHasLen
          is_single := hSingle
          integer := hFits'.eq hFits hMod.symm
          negative := fun _ => by
            unfold Fits
            rw [hSign', if_pos rfl, hResLen]
            omega }⟩

theorem unsignedModulus_spec (hNum : (num.withLen false).Plain n)
    (hDen : (den.withLen false).Plain d) (hPos : 0 < d) (hRoom : room + 1 < 2 ^ 32)
    (hNumLen : num.len ≤ room)
    (hReach : den.len + (usedWidth num num.len - usedWidth den den.len) ≤ room) :
    ∃ res, unsignedModulus num den = some res ∧
      res.Plain (n % d) ∧ num.len ≤ res.len ∧
      res.len ≤ room := by
  rcases start_spec hNum hDen hPos with ⟨hWidth, hFew, hMany⟩
  simp only [withLen_len, usedWidth_withLen] at hWidth hFew hMany
  unfold unsignedModulus
  simp only [withLen_len, usedWidth_withLen]
  by_cases hLt : usedWidth num num.len < usedWidth den den.len
  · rw [if_pos hLt, Nat.mod_eq_of_lt (hFew hLt)]
    exact ⟨_, rfl, hNum, Nat.le_refl _, hNumLen⟩
  · rw [if_neg hLt]
    have hShifted := hDen.shiftLeft
      (show den.len + (usedWidth num num.len - usedWidth den den.len) < 2 ^ 32 by omega)
    exact modulusLoop_spec hRoom _ hNum hShifted.1 hNumLen
      (Nat.le_trans hShifted.2 hReach)
      (fun k hk => by rw [← Nat.succ.inj hk])
      (hMany (by omega))

----
-- Magnitudes
----

/- A sum or difference in range, by its bits alone. -/
theorem Summed.number_modEq {sized signed grown : Bool} {len : Nat} {n : Int}
    {res : Verinum} (h : Summed sized signed grown len n res) (hFits : Fits signed (len + 1) n) :
    (res.number : Int) ≡ n [ZMOD 2 ^ res.len] := by
  cases grown with
  | true =>
    rw [← h.exact rfl hFits]
    exact res.number_modEq_integer
  | false =>
    rcases h.modulo rfl with ⟨hLen, hMod⟩
    rw [← hLen] at hMod
    exact res.number_modEq_integer.trans hMod

theorem number_eq_of_modEq (hMod : (v.number : Int) ≡ n [ZMOD 2 ^ v.len]) (hLt : n < 2 ^ v.len) :
    v.number = n := by
  have hNat : v.number ≡ n [MOD 2 ^ v.len] := by
    apply Int.natCast_modEq_iff.mp
    exact hMod
  exact Nat.ModEq.eq_of_lt_of_lt hNat v.number_lt hLt

/- The magnitude of a signed number keeps at most one bit more. -/
theorem magnitude_spec (h : v.Defined) (hSign : v.has_sign = true) (hLen : 0 < v.len)
    (hRoom : v.len + 1 < 2 ^ 32) :
    ∃ m, v.magnitude = some m ∧
      (m.withLen false).Plain v.integer.natAbs ∧
      v.len ≤ m.len ∧ m.len ≤ v.len + 1 := by
  have hFits := v.integer_fits
  rw [hSign] at hFits
  have hCast := cast_two_pow v.len
  unfold magnitude
  rw [isNegative_eq hLen]
  by_cases hNeg : v.integer < 0
  · rw [decide_eq_true hNeg]
    rcases neg_spec h hLen hRoom with ⟨res, hRes, hSummed⟩
    rw [hSign] at hSummed
    rw [hRes]
    have hZero : Fits true v.len 0 := by
      have hPos := Nat.two_pow_pos v.len
      unfold Fits
      rw [if_pos rfl]
      omega
    have hDiff := fits_sub hZero hFits
    rw [zero_sub] at hDiff
    have hMod := hSummed.number_modEq hDiff
    have hAbs : -v.integer = v.integer.natAbs := by omega
    have hPow : 2 ^ v.len ≤ 2 ^ res.len := Nat.pow_le_pow_right (by decide) hSummed.len_le.1
    have hLt : v.integer.natAbs < 2 ^ res.len := by
      unfold Fits at hFits
      rw [if_pos rfl] at hFits
      omega
    rw [hAbs] at hMod
    have hResLen := hSummed.len_le
    exact ⟨_, rfl,
      { defined := hSummed.defined
        has_len := rfl
        has_sign := rfl
        len_pos := by
          change 0 < res.len
          omega
        number := number_eq_of_modEq hMod hLt },
      hResLen⟩
  · rw [decide_eq_false hNeg]
    have hAbs : v.integer = v.integer.natAbs := by omega
    have hMod := v.number_modEq_integer
    rw [hAbs] at hMod
    have hLt : v.integer.natAbs < 2 ^ v.len := by
      unfold Fits at hFits
      rw [if_pos rfl] at hFits
      omega
    exact ⟨_, rfl,
      { defined := h
        has_len := rfl
        has_sign := rfl
        len_pos := hLen
        number := number_eq_of_modEq hMod hLt },
      Nat.le_refl _, Nat.le_succ _⟩

/- A number below a place needs no bits from there on. -/
theorem usedWidth_le (h : (v.withLen false).Plain n) {m : Nat} (hn : n < 2 ^ m) :
    usedWidth v v.len ≤ m := by
  rcases usedWidth_spec h.defined (Nat.le_refl _) with ⟨-, -, hTop⟩
  rw [withLen_len, usedWidth_withLen] at hTop
  by_contra hMore
  have hPlace : 2 ^ (usedWidth v v.len - 1) ≤ n := by
    have hNumber := hTop.resolve_left (by omega)
    rwa [show low (v.withLen false).bit v.len = n from h.number] at hNumber
  have hPow : 2 ^ m ≤ 2 ^ (usedWidth v v.len - 1) := Nat.pow_le_pow_right (by decide) (by omega)
  omega

theorem natAbs_lt_of_fits {signed : Bool} {len : Nat} {n : Int} (h : Fits signed len n) :
    n.natAbs < 2 ^ len := by
  have hCast := cast_two_pow len
  unfold Fits at h
  split_ifs at h <;> omega

----
-- The End Of Both Operators
----

/- The bits of a number in another width. -/
theorem castToWidth_spec {that : Verinum} (h : that.Defined) (hLen : 0 < that.len) {width : Nat}
    (hWide : that.is_single = false ∨ width ≤ that.len) :
    (that.castToWidth width).HasBits width (extended that.has_sign that.len that.bit) ∧
      (that.castToWidth width).has_len = true := by
  have hBits : ∀ i < that.len, that.get i =
      ofBool (extended that.has_sign that.len that.bit i) := by
    intro i hi
    rw [get_of_defined h hi, extended_of_lt hi]
  unfold castToWidth
  by_cases hSame : (that.has_len && that.len == width) = true
  · rw [if_pos hSame]
    rw [Bool.and_eq_true, beq_iff_eq] at hSame
    rw [← hSame.2]
    exact ⟨⟨rfl, hBits⟩, hSame.1⟩
  · rw [if_neg hSame]
    by_cases hNarrow : width ≤ that.len
    · rw [if_pos hNarrow]
      have hTake : (that.resized width).bits = that.bits.take width := by
        unfold resized
        simp only
        rw [Nat.min_eq_left hNarrow, Nat.sub_self, List.replicate_zero, List.append_nil]
      refine ⟨⟨?_, fun i hi => ?_⟩, rfl⟩
      · rw [len, hTake, List.length_take]
        exact Nat.min_eq_left hNarrow
      · rw [get, hTake, List.getD_eq_getElem?_getD,
          List.getElem?_take_of_lt hi]
        exact hBits i (by omega)
    · rw [if_neg hNarrow, if_neg (Nat.ne_of_gt hLen)]
      have hPad : (let pad := that.get (that.len - 1)
          let pad :=
            if pad = .v1 ∧ !that.has_sign ∧ !that.is_single then
              .v0
            else pad
          if that.has_len && !that.has_sign && !that.is_single then
            if pad = .vx ∨ pad = .vz then .v0 else pad
          else pad) =
            ofBool (sign that.has_sign that.len that.bit) := by
        unfold sign
        rw [get_of_defined h (by omega), hWide.resolve_right hNarrow, decide_eq_true hLen]
        cases that.has_sign <;> cases that.has_len <;>
          cases that.bit (that.len - 1) <;> rfl
      simp only at hPad ⊢
      rw [hPad]
      refine ⟨⟨?_, fun i hi => ?_⟩, rfl⟩
      · change (that.bits ++ List.replicate _ _).length = _
        rw [List.length_append, List.length_replicate]
        unfold len
        unfold len at hNarrow
        omega
      · change (that.bits ++ List.replicate _ _).getD i .vx = _
        rw [List.getD_eq_getElem?_getD]
        rcases Nat.lt_or_ge i that.len with hIn | hOut
        · rw [List.getElem?_append_left hIn]
          exact hBits i hIn
        · rw [List.getElem?_append_right hOut, List.getElem?_replicate,
            if_pos (by unfold len at *; omega), extended_of_le hOut]
          rfl

/- The claimed result, in the claimed length. -/
structure Answer (sized : Bool) (len : Nat) (n : Int) (res : Verinum) : Prop where
  has_len : res.has_len = sized
  exact : sized = false → res.integer = n
  modulo : sized = true → res.integer ≡ n [ZMOD 2 ^ len]

theorem trimVnum_sized (h : v.has_len = true) : trimVnum v = v := by
  unfold trimVnum
  rw [if_pos h]

/- A sized result only has to be right modulo the length. -/
theorem finish_sized (h : result.Defined) (hLen : 0 < result.len) {use_len : Nat}
    (hWide : result.is_single = false ∨ use_len ≤ result.len)
    (signed : Bool) {n : Int} (hMod : result.integer ≡ n [ZMOD 2 ^ use_len]) :
    Answer true use_len n (finish use_len true signed result) := by
  rcases castToWidth_spec h hLen hWide with ⟨hHas, hSized⟩
  have hHas' : ((result.castToWidth use_len).withSign
      signed).HasBits use_len (extended result.has_sign result.len result.bit) :=
    ⟨hHas.len_eq, hHas.get_eq⟩
  unfold finish
  simp only [if_true]
  rw [trimVnum_sized (show ((result.castToWidth use_len).withSign
    signed).has_len = true from hSized)]
  exact
    { has_len := hSized
      exact := fun h => by cases h
      modulo := fun _ => by
        have hInteger := ((result.castToWidth use_len).withSign signed).number_modEq_integer
        rw [hHas'.len_eq, hHas'.number] at hInteger
        exact (hInteger.symm.trans (low_extended_modEq _ _ _ _)).trans hMod }

/- An unsized result keeps its bits, but for the trimming. -/
theorem finish_unsized (h : result.Defined) (use_len : Nat) (signed : Bool) :
    (finish use_len false signed result).has_len = result.has_len ∧
      (finish use_len false signed result).integer = value signed result.len result.bit := by
  have hTrim := trimVnum_spec (show (result.withSign signed).Defined from h)
  exact ⟨hTrim.has_len, hTrim.integer⟩

end Verinum

end EpicSim
