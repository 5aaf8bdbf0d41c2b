import EpicSim.Ivl.VerinumDivide

/-
  Division and remainder of the compiler's numbers against
  the truncating division of integers.

  The short path is right wherever the right number survives
  in a word of the machine or is out of reach there as well;
  the long quotient always has a fixed length, the long
  remainder is always right.
-/

----
-- Truncating Division
----

namespace EpicSim

open TwosComplement VerinumV

theorem fits_zero (signed : Bool) (len : Nat) : Fits signed len 0 := by
  have hCast := cast_two_pow len
  have hPos := Nat.two_pow_pos len
  unfold Fits
  split_ifs <;> omega

variable {len : Nat} {n l r : Int}

theorem natAbs_lt_of_fits_signed (h : Fits true len n) : 2 * n.natAbs ≤ 2 ^ len := by
  have hCast := cast_two_pow len
  unfold Fits at h
  rw [if_pos rfl] at h
  omega

theorem fits_of_natAbs_lt (h : 2 * n.natAbs < 2 ^ len) : Fits true len n := by
  have hCast := cast_two_pow len
  unfold Fits
  rw [if_pos rfl]
  omega

/- Only the least number divided by -1 is out of range. -/
theorem fits_tdiv_iff (hL : Fits true len l) :
    Fits true len (l.tdiv r) ↔
      ¬(2 * l = -2 ^ len ∧ r = -1) := by
  have hPos := Nat.two_pow_pos len
  by_cases hMinus : r = -1
  · have hNeg : l.tdiv (-1) = -l := by
      rw [Int.tdiv_neg, Int.tdiv_one]
    rw [hMinus]
    unfold Fits at hL ⊢
    rw [if_pos rfl] at hL ⊢
    omega
  · by_cases hOne : r = 1
    · rw [hOne, Int.tdiv_one]
      exact ⟨fun _ h => by omega, fun _ => hL⟩
    · have hAbs : (l.tdiv r).natAbs = l.natAbs / r.natAbs :=
        Int.natAbs_tdiv l r
      have hHalf : l.natAbs / r.natAbs ≤ l.natAbs / 2 := by
        by_cases hZero : r = 0
        · rw [hZero]
          simp
        · exact Nat.div_le_div_left (by omega) (by decide)
      have hTwice := natAbs_lt_of_fits_signed hL
      refine ⟨fun _ h => hMinus h.2, fun _ => ?_⟩
      apply fits_of_natAbs_lt
      omega

theorem fits_tmod (hL : Fits true len l) (r : Int) : Fits true len (l.tmod r) := by
  have hAbs : (l.tmod r).natAbs = l.natAbs % r.natAbs := Int.natAbs_tmod l r
  have hLe : l.natAbs % r.natAbs ≤ l.natAbs := Nat.mod_le _ _
  unfold Fits at hL ⊢
  rw [if_pos rfl] at hL ⊢
  rcases lt_or_ge l 0 with hNeg | hPos
  · have hSign : (l.tmod r) ≤ 0 := by
      have hFlip := Int.tmod_nonneg r (show 0 ≤ -l by omega)
      rw [Int.neg_tmod] at hFlip
      omega
    omega
  · omega

/- The quotient by magnitudes and signs. -/
theorem tdiv_eq_natAbs (l r : Int) :
    l.tdiv r =
      if decide (l < 0) != decide (r < 0) then
        -((l.natAbs / r.natAbs : Nat) : Int)
      else (l.natAbs / r.natAbs : Nat) := by
  have hDiv : ((l.natAbs / r.natAbs : Nat) : Int) = (l.natAbs : Int).tdiv r.natAbs := rfl
  rw [hDiv]
  by_cases hL : l < 0 <;> by_cases hR : r < 0
  · have hLeft : (l.natAbs : Int) = -l := by omega
    have hRight : (r.natAbs : Int) = -r := by omega
    simp [hL, hR, hLeft, hRight]
  · have hLeft : (l.natAbs : Int) = -l := by omega
    have hRight : (r.natAbs : Int) = r := by omega
    simp only [hL, hR, hLeft, hRight]
    simp
  · have hLeft : (l.natAbs : Int) = l := by omega
    have hRight : (r.natAbs : Int) = -r := by omega
    simp only [hL, hR, hLeft, hRight]
    simp
  · grind

theorem tmod_eq_natAbs (l r : Int) :
    l.tmod r =
      if l < 0 then -((l.natAbs % r.natAbs : Nat) : Int)
      else (l.natAbs % r.natAbs : Nat) := by
  have hAbs : (l.tmod r).natAbs = l.natAbs % r.natAbs := Int.natAbs_tmod l r
  split_ifs with hNeg
  · have hFlip := Int.tmod_nonneg r (show 0 ≤ -l by omega)
    rw [Int.neg_tmod] at hFlip
    omega
  · have hSign := Int.tmod_nonneg r (show 0 ≤ l by omega)
    omega

theorem tdiv_eq_zero_of_natAbs_lt (h : l.natAbs < r.natAbs) : l.tdiv r = 0 := by
  have hAbs : (l.tdiv r).natAbs = l.natAbs / r.natAbs := Int.natAbs_tdiv l r
  rw [Nat.div_eq_of_lt h] at hAbs
  omega

theorem tdiv_ne_zero_of_natAbs_le (hR : r ≠ 0) (h : r.natAbs ≤ l.natAbs) : l.tdiv r ≠ 0 := by
  have hAbs : (l.tdiv r).natAbs = l.natAbs / r.natAbs := Int.natAbs_tdiv l r
  have hPos := Nat.div_pos h (by omega : 0 < r.natAbs)
  omega

/- What a word loses of an integer is out of reach otherwise. -/
theorem natAbs_of_not_fits (h : ¬Fits true 64 n) :
    2 ^ 63 ≤ n.natAbs ∧ (n.natAbs = 2 ^ 63 → cutLong n = 0) := by
  unfold Fits at h
  rw [if_pos rfl] at h
  constructor
  · omega
  · intro hLeast
    have hEq : n = 2 ^ 63 := by omega
    rw [hEq]
    decide

/-
  The quotient of words is the quotient of the integers if
  the divisor survives, or if both are zero.
-/
theorem tdiv_cutLong_iff
    {sized : Bool} (hShort : len ≤ 63) {l r : Int} (hL : Fits true len l) (hR : r ≠ 0) :
    (cutLong r ≠ 0 ∧
      l.tdiv (cutLong r) ≡ l.tdiv r [ZMOD 2 ^ len] ∧
      (sized = true ∨ Fits true len (l.tdiv r))) ↔
    (Fits true 64 r ∨ l.natAbs < (cutLong r).natAbs) ∧
      ¬(sized = false ∧ 2 * l = -2 ^ len ∧ r = -1) := by
  rw [fits_tdiv_iff hL]
  by_cases hFits : Fits true 64 r
  · rw [cutLong_of_fits hFits]
    constructor
    · grind
    · rintro ⟨-, hNot⟩
      refine ⟨hR, Int.ModEq.refl _, ?_⟩
      grind
  · have hFar := (natAbs_of_not_fits hFits).1
    have hTwice := natAbs_lt_of_fits_signed hL
    have hPow : 2 ^ len ≤ 2 ^ 63 := Nat.pow_le_pow_right (by decide) hShort
    have hNone : l.tdiv r = 0 := tdiv_eq_zero_of_natAbs_lt (by omega)
    have hOther : r ≠ -1 := by omega
    rw [hNone]
    constructor
    · rintro ⟨hCut, hMod, -⟩
      refine ⟨Or.inr ?_, fun h => hOther h.2.2⟩
      by_contra hReach
      have hAbs := Int.natAbs_tdiv_le_natAbs l (cutLong r)
      have hNe := tdiv_ne_zero_of_natAbs_le hCut (Nat.not_lt.mp hReach)
      have hZero := Int.eq_zero_of_abs_lt_dvd
        (Int.modEq_zero_iff_dvd.mp hMod) (by
          have hCast := cast_two_pow len
          rw [Int.abs_eq_natAbs]
          omega)
      exact hNe hZero
    · rintro ⟨hSome, -⟩
      have hLt := hSome.resolve_left hFits
      refine ⟨by omega, ?_, Or.inr (fun h => hOther h.2)⟩
      rw [tdiv_eq_zero_of_natAbs_lt hLt]

theorem tmod_cutLong_iff {sized : Bool} {len : Nat} (hShort : len ≤ 64) {l r : Int}
    (hL : Fits true len l) (hR : r ≠ 0) :
    (cutLong r ≠ 0 ∧
      l.tmod (cutLong r) ≡ l.tmod r [ZMOD 2 ^ len] ∧
      (sized = true ∨ Fits true len (l.tmod r))) ↔
    (Fits true 64 r ∨ l.natAbs < (cutLong r).natAbs) := by
  have hRange : ∀ n, Fits true len (l.tmod n) := fits_tmod hL
  by_cases hFits : Fits true 64 r
  · rw [cutLong_of_fits hFits]
    exact ⟨fun _ => Or.inl hFits, fun _ => ⟨hR, Int.ModEq.refl _, Or.inr (hRange r)⟩⟩
  · rcases natAbs_of_not_fits hFits with ⟨hFar, hLeast⟩
    have hTwice := natAbs_lt_of_fits_signed hL
    have hPow : 2 ^ len ≤ 2 ^ 64 := Nat.pow_le_pow_right (by decide) hShort
    have hKeep : cutLong r ≠ 0 → l.tmod r = l := by
      intro hCut
      have hNone : l.tdiv r = 0 := tdiv_eq_zero_of_natAbs_lt (by omega)
      have hSum := Int.mul_tdiv_add_tmod l r
      rw [hNone] at hSum
      omega
    constructor
    · rintro ⟨hCut, hMod, -⟩
      right
      by_contra hReach
      rw [hKeep hCut] at hMod
      have hEq := (hRange (cutLong r)).eq hL hMod
      have hSum := Int.mul_tdiv_add_tmod l (cutLong r)
      have hNe := tdiv_ne_zero_of_natAbs_le hCut (Nat.not_lt.mp hReach)
      have hZero : cutLong r * l.tdiv (cutLong r) = 0 := by omega
      rcases Int.mul_eq_zero.mp hZero with hOne | hTwo
      · exact hCut hOne
      · exact hNe hTwo
    · intro hSome
      have hLt := hSome.resolve_left hFits
      have hCut : cutLong r ≠ 0 := by omega
      have hSum := Int.mul_tdiv_add_tmod l (cutLong r)
      rw [tdiv_eq_zero_of_natAbs_lt hLt] at hSum
      refine ⟨hCut, ?_, Or.inr (hRange r)⟩
      have hEq : l.tmod (cutLong r) = l := by omega
      rw [hKeep hCut, hEq]

namespace Verinum

----
-- What Both Operators Must Return
----

/- The quotient is the truncated one. -/
def DivideRight (left right : Verinum) : Prop :=
  ∃ res, left.divide right = some res ∧
    Answer (bothSized left right) left.len (left.integer.tdiv right.integer) res

/- The remainder is what the truncated quotient leaves. -/
def ModulusRight (left right : Verinum) : Prop :=
  ∃ res, left.modulus right = some res ∧
    Answer (bothSized left right) left.len
      (left.integer - right.integer * left.integer.tdiv right.integer) res

/-
  The right number survives in a word of the machine, or the
  quotient is zero there as well.
-/
def NativeRight (left right : Verinum) : Prop :=
  if left.has_sign then
    Fits true 64 right.integer ∨ left.integer.natAbs < (cutLong right.integer).natAbs
  else
    right.integer < 2 ^ 64 ∨ left.integer ≠ 2 ^ 64 - 1

/-
  Short numbers go through words; there only the least number
  divided by -1 needs a bit more than an open length grows.
  Longer quotients have a fixed length whatever the operands.
-/
def DivideExact (left right : Verinum) : Prop :=
  if left.len ≤ (if left.has_sign then 63 else 64) then
    NativeRight left right ∧
      ¬(left.has_sign = true ∧ bothSized left right = false ∧
        2 * left.integer = -2 ^ left.len ∧ right.integer = -1)
  else bothSized left right = true

def ModulusExact (left right : Verinum) : Prop :=
  left.len ≤ 64 → NativeRight left right

/- There is no long path, or it computes no length that wraps. -/
def Room (short : Nat) (left right : Verinum) : Prop :=
  left.len ≤ short ∨ left.len + right.len + 1 < 2 ^ 32

variable {v left right res : Verinum}

theorem isZero_iff (h : v.Defined) : v.isZero = true ↔ v.integer = 0 := by
  have hBits : v.isZero = true ↔
      ∀ i < v.len, v.bit i = false := by
    unfold isZero
    rw [List.all_eq_true]
    constructor
    · intro hAll i hi
      have hMem : v.get i ∈ v.bits := by
        unfold get
        rw [List.getD_eq_getElem _ _ hi]
        exact List.getElem_mem _
      have hBit := hAll _ hMem
      rw [get_of_defined h hi] at hBit
      cases hGet : v.bit i with
      | false => rfl
      | true => rw [hGet] at hBit; cases hBit
    · intro hAll b hb
      rcases List.getElem_of_mem hb with ⟨i, hi, rfl⟩
      have hGet := get_of_defined h hi
      unfold get at hGet
      rw [List.getD_eq_getElem _ _ hi, hAll i hi] at hGet
      rw [hGet]
      rfl
  have hMod := v.number_modEq_integer
  have hZero : Fits v.has_sign v.len 0 := fits_zero _ _
  rw [hBits]
  constructor
  · intro hAll
    have hNumber : v.number = 0 := low_trim_zero (Nat.zero_le _) (fun i _ hi => hAll i hi)
    rw [hNumber] at hMod
    exact v.integer_fits.eq hZero hMod.symm
  · intro hNone i hi
    rw [hNone] at hMod
    have hNumber : v.number = 0 := number_eq_of_modEq hMod (Nat.two_pow_pos _)
    by_contra hBit
    have hPlace : 2 ^ i ≤ v.number := le_low (Bool.eq_true_of_not_eq_false hBit) hi
    have hPos := Nat.two_pow_pos i
    omega

theorem isZero_eq_false (h : v.Defined) (hNe : v.integer ≠ 0) : v.isZero = false :=
  Bool.eq_false_iff.mpr (mt (isZero_iff h).mp hNe)

/- Neither operator gives up on such operands. -/
theorem Operands.proceed (h : Operands left right) (hNe : right.integer ≠ 0) :
    (!left.isDefined || !right.isDefined || right.isZero) =
      false := by
  rw [h.isDefined, isZero_eq_false h.right_defined hNe]
  rfl

----
-- The Short Path
----

variable {sized : Bool} {len : Nat} {res num den : Verinum}

/- A word that is written as the result. -/
theorem native_answer_iff {signed : Bool} (hLen : 0 < len)
    (hWord : len ≤ 64) {w : BitVec 64} {x n : Int} (hW : (w.toNat : Int) ≡ x [ZMOD 2 ^ 64]) :
    Answer sized len n (finish len sized signed
        (ofBits ((List.range len).map (fun i => ofBool (w.getLsbD i))) sized)) ↔
      x ≡ n [ZMOD 2 ^ len] ∧
        (sized = true ∨ Fits signed len n) := by
  generalize hResult : ofBits ((List.range len).map (fun i => ofBool (w.getLsbD i))) sized = result
  have hHas : result.HasBits len w.getLsbD := by
    rw [← hResult]
    exact hasBits_of_map rfl
  have hFlags : result.has_len = sized ∧
      result.has_sign = false ∧ result.is_single = false := by
    rw [← hResult]
    exact ⟨rfl, rfl, rfl⟩
  have hPos : 0 < result.len := by
    rw [hHas.len_eq]
    exact hLen
  have hLow : (low w.getLsbD len : Int) ≡ x [ZMOD 2 ^ len] := by
    have hMod := low_mod w.getLsbD hWord
    rw [low_getLsbD] at hMod
    rw [← hMod]
    push_cast
    exact (Int.mod_modEq _ _).trans (hW.of_dvd (pow_dvd_pow 2 hWord))
  cases sized with
  | true =>
    have hInteger : result.integer ≡ x [ZMOD 2 ^ len] := by
      rw [integer_eq_number hFlags.2.1, hHas.number]
      exact hLow
    constructor
    · intro hAnswer
      have hX := finish_sized hHas.defined hPos (Or.inl hFlags.2.2) signed hInteger
      exact ⟨(hX.modulo rfl).symm.trans (hAnswer.modulo rfl), Or.inl rfl⟩
    · rintro ⟨hMod, -⟩
      exact finish_sized hHas.defined hPos (Or.inl hFlags.2.2) signed (hInteger.trans hMod)
  | false =>
    rcases finish_unsized hHas.defined len signed with ⟨hHasLen, hInteger⟩
    have hValue : value signed result.len result.bit = value signed len w.getLsbD := by
      rw [hHas.len_eq]
      exact value_congr (fun i hi => hHas.bit_eq hi)
    rw [hValue] at hInteger
    constructor
    · intro hAnswer
      have hExact := hAnswer.exact rfl
      rw [hInteger] at hExact
      rw [← hExact]
      exact ⟨hLow.symm.trans (low_modEq_value _ _ _), Or.inr (value_fits _ _ _)⟩
    · rintro ⟨hMod, hFits⟩
      have hFits' := hFits.resolve_left Bool.false_ne_true
      exact
        { has_len := hHasLen.trans hFlags.1
          exact := fun _ => by
            rw [hInteger]
            exact (value_eq_iff (hLow.trans hMod)).mpr hFits'
          modulo := fun h => by cases h }

theorem toNat_modEq_toInt (w : BitVec 64) : (w.toNat : Int) ≡ w.toInt [ZMOD 2 ^ 64] := by
  rw [← low_getLsbD, ← value_getLsbD]
  exact low_modEq_value _ _ _

theorem asLong_eq_zero_iff (h : v.Defined) (hLen : 0 < v.len) :
    v.asLong = 0#64 ↔ cutLong v.integer = 0 := by
  rw [← asLong_toInt h hLen]
  constructor
  · intro hZero
    rw [hZero]
    rfl
  · intro hZero
    exact BitVec.eq_of_toInt_eq hZero

/- A short signed number is itself as a word. -/
theorem asLong_of_short (h : v.Defined) (hLen : 0 < v.len) (hShort : v.len ≤ 64)
    (hSign : v.has_sign = true) : v.asLong.toInt = v.integer := by
  have hFits := v.integer_fits
  rw [hSign] at hFits
  rw [asLong_toInt h hLen, cutLong_of_fits (hFits.mono hShort)]

theorem longMin_toInt : longMin.toInt = -2 ^ 63 := by
  decide

/- A word that is not divided by leaves no answer. -/
theorem answered_iff {word : BitVec 64} {P : Verinum → Prop} {zero good : Prop}
    (hZero : word = 0#64 ↔ zero) (hGood : P res ↔ good) :
    (∃ r, (if word = 0#64 then none else some res) = some r ∧ P r) ↔ ¬zero ∧ good := by
  rw [← hZero, ← hGood]
  split_ifs with hWord
  · simp [hWord]
  · simp [hWord]

theorem divide_native_signed (h : Operands left right) (hNe : right.integer ≠ 0)
    (hSign : left.has_sign = true) (hShort : left.len ≤ 63) :
    DivideRight left right ↔
      NativeRight left right ∧
        ¬(bothSized left right = false ∧
          2 * left.integer = -2 ^ left.len ∧
            right.integer = -1) := by
  have hFits := left.integer_fits
  rw [hSign] at hFits
  have hL := asLong_of_short h.left_defined h.left_len (by omega) hSign
  have hR := asLong_toInt h.right_defined h.right_len
  have hNoOverflow : (left.asLong == longMin &&
      right.asLong == BitVec.allOnes 64) = false := by
    rw [Bool.and_eq_false_iff]
    left
    rw [beq_eq_false_iff_ne]
    intro hMin
    rw [hMin, longMin_toInt] at hL
    have hTwice := natAbs_lt_of_fits_signed hFits
    have hPow : 2 ^ left.len ≤ 2 ^ 63 := Nat.pow_le_pow_right (by decide) hShort
    omega
  have hDivide : left.divide right =
      (if right.asLong = 0#64 then none
      else some (finish left.len (bothSized left right) true
        (ofBits ((List.range left.len).map (fun i =>
          ofBool ((left.asLong.sdiv right.asLong).getLsbD i)))
          (bothSized left right)))) := by
    unfold divide
    simp only
    rw [h.proceed hNe, if_neg Bool.false_ne_true, h.signed,
      hSign, if_pos (show left.len ≤ 8 * 8 - 1 from
        hShort), hNoOverflow, if_neg Bool.false_ne_true,
      nativeBits_sshiftRight (by omega)]
    by_cases hZero : right.asLong = 0#64
    · rw [if_pos hZero, if_pos hZero]
      rfl
    · rw [if_neg hZero, if_neg hZero]
      rfl
  have hWord : ((left.asLong.sdiv right.asLong).toNat : Int) ≡
      left.integer.tdiv (cutLong right.integer) [ZMOD 2 ^ 64] := by
    refine (toNat_modEq_toInt _).trans ?_
    rw [BitVec.toInt_sdiv, hL, hR]
    exact Int.bmod_emod
  unfold NativeRight
  rw [hSign, if_pos rfl, ← tdiv_cutLong_iff hShort hFits hNe]
  unfold DivideRight
  rw [hDivide]
  exact answered_iff (asLong_eq_zero_iff h.right_defined h.right_len)
    (native_answer_iff h.left_len (by omega) hWord)

/- The remainder as `operator %` is asked for it. -/
theorem remainder_eq (l r : Int) : l - r * l.tdiv r = l.tmod r := by
  have hSum := Int.mul_tdiv_add_tmod l r
  omega

theorem modulus_native_signed (h : Operands left right) (hNe : right.integer ≠ 0)
    (hSign : left.has_sign = true) (hShort : left.len ≤ 64) :
    ModulusRight left right ↔ NativeRight left right := by
  have hFits := left.integer_fits
  rw [hSign] at hFits
  have hL := asLong_of_short h.left_defined h.left_len hShort hSign
  have hR := asLong_toInt h.right_defined h.right_len
  -- Where the source avoids the overflow, the remainder is 0.
  have hModulus : ∃ w : BitVec 64,
      w.toInt = left.integer.tmod (cutLong right.integer) ∧
      left.modulus right =
        (if right.asLong = 0#64 then none
        else some (finish left.len (bothSized left right) true
          (ofBits ((List.range left.len).map (fun i =>
            ofBool (w.getLsbD i))) (bothSized left right)))) := by
    unfold modulus
    simp only
    rw [h.proceed hNe, if_neg Bool.false_ne_true, h.signed,
      hSign, if_pos rfl, if_pos (show left.len ≤ 8 * 8 from
        hShort)]
    cases hOverflow : left.asLong == longMin &&
        right.asLong == BitVec.allOnes 64 with
    | true =>
      rw [Bool.and_eq_true, beq_iff_eq, beq_iff_eq] at hOverflow
      have hMinus : cutLong right.integer = -1 := by
        rw [← hR, hOverflow.2]
        decide
      refine ⟨0#64, ?_, ?_⟩
      · rw [hMinus, Int.tmod_neg, Int.tmod_one]
        rfl
      · rw [if_pos rfl, nativeBits_sshiftRight hShort, if_neg (by rw [hOverflow.2]; decide)]
        rfl
    | false =>
      refine ⟨left.asLong.srem right.asLong, ?_, ?_⟩
      · rw [BitVec.toInt_srem, hL, hR]
      · rw [if_neg Bool.false_ne_true, nativeBits_sshiftRight hShort]
        by_cases hZero : right.asLong = 0#64
        · rw [if_pos hZero, if_pos hZero]
          rfl
        · rw [if_neg hZero, if_neg hZero]
          rfl
  rcases hModulus with ⟨w, hInt, hModulus⟩
  have hWord : (w.toNat : Int) ≡
      left.integer.tmod (cutLong right.integer) [ZMOD 2 ^ 64] := by
    rw [← hInt]
    exact toNat_modEq_toInt w
  unfold NativeRight
  rw [hSign, ← @tmod_cutLong_iff (bothSized left right) _ hShort _ _ hFits hNe]
  unfold ModulusRight
  rw [hModulus, remainder_eq]
  exact answered_iff (asLong_eq_zero_iff h.right_defined h.right_len)
    (native_answer_iff h.left_len hShort hWord)

/-
  Both results of unsigned words, where the divisor is at
  most the largest word.
-/
theorem native_unsigned_iff {l r : Nat} (hWord : len ≤ 64) (hL : l < 2 ^ len) (hR : 0 < r) :
    (((l / min r (2 ^ 64 - 1) : Nat) : Int) ≡ (l : Int).tdiv r [ZMOD 2 ^ len] ∧
      (sized = true ∨ Fits false len ((l : Int).tdiv r)) ↔
      ((r : Int) < 2 ^ 64 ∨ (l : Int) ≠ 2 ^ 64 - 1)) ∧
    (((l % min r (2 ^ 64 - 1) : Nat) : Int) ≡ (l : Int).tmod r [ZMOD 2 ^ len] ∧
      (sized = true ∨ Fits false len ((l : Int).tmod r)) ↔
      ((r : Int) < 2 ^ 64 ∨ (l : Int) ≠ 2 ^ 64 - 1)) := by
  have hDiv : (l : Int).tdiv r = ((l / r : Nat) : Int) := rfl
  have hMod : (l : Int).tmod r = ((l % r : Nat) : Int) := rfl
  have hFits : ∀ n ≤ l, Fits false len (n : Int) := by
    intro n hn
    have hCast := cast_two_pow len
    unfold Fits
    rw [if_neg Bool.false_ne_true]
    omega
  have hDivLe := Nat.div_le_self l r
  have hModLe := Nat.mod_le l r
  have hPow : 2 ^ len ≤ 2 ^ 64 := Nat.pow_le_pow_right (by decide) hWord
  rw [hDiv, hMod]
  by_cases hSmall : r < 2 ^ 64
  · have hMin : min r (2 ^ 64 - 1) = r := by omega
    have hLess : (r : Int) < 2 ^ 64 := by exact_mod_cast hSmall
    rw [hMin]
    exact ⟨⟨fun _ => Or.inl hLess, fun _ =>
        ⟨Int.ModEq.refl _, Or.inr (hFits _ hDivLe)⟩⟩,
      ⟨fun _ => Or.inl hLess, fun _ => ⟨Int.ModEq.refl _, Or.inr (hFits _ hModLe)⟩⟩⟩
  · have hMin : min r (2 ^ 64 - 1) = 2 ^ 64 - 1 := by omega
    have hNone : l / r = 0 := Nat.div_eq_of_lt (by omega)
    have hAll : l % r = l := Nat.mod_eq_of_lt (by omega)
    rw [hMin, hNone, hAll]
    by_cases hTop : l = 2 ^ 64 - 1
    · have hWrong : ¬((r : Int) < 2 ^ 64 ∨
          (l : Int) ≠ 2 ^ 64 - 1) := by
        omega
      have hOne : l / (2 ^ 64 - 1) = 1 := by
        rw [hTop]
        decide
      have hZero : l % (2 ^ 64 - 1) = 0 := by
        rw [hTop]
        decide
      rw [hOne, hZero]
      refine ⟨⟨fun hBoth => ?_, fun h => absurd h hWrong⟩,
        ⟨fun hBoth => ?_, fun h => absurd h hWrong⟩⟩
      · have hEq := (hFits 1 (by omega)).eq (hFits 0 (by omega)) hBoth.1
        omega
      · have hEq := (hFits 0 (by omega)).eq (hFits l (Nat.le_refl _)) hBoth.1
        omega
    · have hGood : (r : Int) < 2 ^ 64 ∨
          (l : Int) ≠ 2 ^ 64 - 1 := by
        omega
      have hZero : l / (2 ^ 64 - 1) = 0 := Nat.div_eq_of_lt (by omega)
      have hSame : l % (2 ^ 64 - 1) = l := Nat.mod_eq_of_lt (by omega)
      rw [hZero, hSame]
      exact ⟨⟨fun _ => hGood, fun _ =>
          ⟨Int.ModEq.refl _, Or.inr (hFits 0 (Nat.zero_le _))⟩⟩,
        ⟨fun _ => hGood, fun _ => ⟨Int.ModEq.refl _, Or.inr (hFits l (Nat.le_refl _))⟩⟩⟩

theorem division_native_unsigned (h : Operands left right) (hNe : right.integer ≠ 0)
    (hSign : left.has_sign = false) (hShort : left.len ≤ 64) :
    (DivideRight left right ↔ NativeRight left right) ∧
      (ModulusRight left right ↔ NativeRight left right) := by
  have hL := asULong_toNat h.left_defined h.left_len
  have hR := asULong_toNat h.right_defined h.right_len
  have hLt := left.number_lt
  have hLInt := integer_eq_number hSign
  have hRInt := integer_eq_number (h.has_sign.symm.trans hSign)
  have hPow : 2 ^ left.len ≤ 2 ^ 64 := Nat.pow_le_pow_right (by decide) hShort
  have hPos : 0 < right.number := by
    omega
  rw [Nat.min_eq_left (by omega)] at hL
  have hZero : right.asULong ≠ 0#64 := by grind
  have hDivide : left.divide right =
      some (finish left.len (bothSized left right) false
        (ofBits ((List.range left.len).map (fun i =>
          ofBool ((left.asULong / right.asULong).getLsbD i)))
          (bothSized left right))) := by
    unfold divide
    rw [h.proceed hNe, hSign, if_neg Bool.false_ne_true,
      if_pos (show left.len ≤ 8 * 8 from hShort), if_neg hZero, nativeBits_ushiftRight hShort]
    rfl
  have hModulus : left.modulus right =
      some (finish left.len (bothSized left right) false
        (ofBits ((List.range left.len).map (fun i =>
          ofBool ((left.asULong % right.asULong).getLsbD i)))
          (bothSized left right))) := by
    unfold modulus
    rw [h.proceed hNe, if_neg Bool.false_ne_true, h.signed, hSign, if_neg Bool.false_ne_true,
      if_pos (show left.len ≤ 8 * 8 from hShort), if_neg hZero, nativeBits_ushiftRight hShort]
    rfl
  have hQuotient : ((left.asULong / right.asULong).toNat : Int) ≡
      ((left.number / min right.number (2 ^ 64 - 1) : Nat) : Int) [ZMOD 2 ^ 64] := by
    rw [BitVec.toNat_udiv, hL, hR]
  have hRemainder :
      ((left.asULong % right.asULong).toNat : Int) ≡
      ((left.number % min right.number (2 ^ 64 - 1) : Nat) : Int) [ZMOD 2 ^ 64] := by
    rw [BitVec.toNat_umod, hL, hR]
  have hBoth := @native_unsigned_iff (bothSized left right) _ _ _ hShort hLt hPos
  have hNative : NativeRight left right ↔
      ((right.number : Int) < 2 ^ 64 ∨
        (left.number : Int) ≠ 2 ^ 64 - 1) := by
    unfold NativeRight
    rw [hSign, if_neg Bool.false_ne_true, hLInt, hRInt]
  rw [hNative]
  constructor
  · rw [← hBoth.1, ← native_answer_iff h.left_len hShort hQuotient]
    unfold DivideRight
    rw [hDivide, hLInt, hRInt]
    constructor
    · rintro ⟨res, hRes, hAnswer⟩
      cases hRes
      exact hAnswer
    · intro hAnswer
      exact ⟨_, rfl, hAnswer⟩
  · rw [← hBoth.2, ← native_answer_iff h.left_len hShort hRemainder]
    unfold ModulusRight
    rw [hModulus, remainder_eq, hLInt, hRInt]
    simp

----
-- The Long Path
----

/- The long path of `operator /`, before the common end. -/
def longQuotient (left right : Verinum) : Option Verinum :=
  if left.has_sign then do
    let use_left ← left.magnitude
    let use_right ← right.magnitude
    let result ← unsignedDivide use_left use_right true
    if left.isNegative != right.isNegative then result.neg
    else some result
  else unsignedDivide left right false

/- The long path of `operator %`, before the common end. -/
def longRemainder (left right : Verinum) : Option Verinum :=
  if left.has_sign then do
    let use_left ← left.magnitude
    let use_right ← right.magnitude
    let result ← unsignedModulus use_left use_right
    if left.isNegative then result.neg else some result
  else unsignedModulus left right

theorem divide_long (h : Operands left right) (hNe : right.integer ≠ 0)
    (hLong : ¬left.len ≤ (if left.has_sign then 63 else 64)) :
    left.divide right = (longQuotient left right).map
      (finish left.len (bothSized left right) left.has_sign) := by
  unfold divide longQuotient
  rw [h.proceed hNe, if_neg Bool.false_ne_true, h.signed]
  cases hSign : left.has_sign with
  | true =>
    rw [hSign] at hLong
    rw [if_neg (show ¬left.len ≤ 8 * 8 - 1 from hLong)]
    rfl
  | false =>
    rw [hSign] at hLong
    rw [if_neg (show ¬left.len ≤ 8 * 8 from hLong)]
    rfl

theorem modulus_long (h : Operands left right) (hNe : right.integer ≠ 0) (hLong : ¬left.len ≤ 64) :
    left.modulus right = (longRemainder left right).map
      (finish left.len (bothSized left right) left.has_sign) := by
  have hLong' : ¬left.len ≤ 8 * 8 := hLong
  unfold modulus longRemainder
  rw [h.proceed hNe, if_neg Bool.false_ne_true, h.signed]
  cases left.has_sign with
  | true =>
    rw [if_neg hLong']
    rfl
  | false =>
    rw [if_neg Bool.false_ne_true, if_neg hLong']
    rfl

/- A long quotient has a fixed length. -/
theorem divideLoop_has_len (idx : Nat) {result : Verinum}
    (h : divideLoop idx num den result = some res) : res.has_len = result.has_len := by
  induction idx generalizing num den result with
  | zero =>
    cases h
    rfl
  | succ idx ih =>
    rw [divideLoop] at h
    split_ifs at h
    · rcases Option.bind_eq_some_iff.mp h with ⟨dif, -, hRest⟩
      have hKeep := ih hRest
      exact hKeep
    · exact ih h

theorem unsignedDivide_has_len {signed_result : Bool}
    (h : unsignedDivide num den signed_result = some res) : res.has_len = true := by
  unfold unsignedDivide at h
  simp only at h
  split_ifs at h
  · cases h
    rfl
  · exact divideLoop_has_len _ h
  · exact divideLoop_has_len _ h

theorem neg_has_len (h : v.neg = some res) : res.has_len = v.has_len := by
  unfold neg at h
  simp only at h
  split_ifs at h <;> cases h <;> rfl

theorem neg_is_single (h : v.neg = some res) : res.is_single = false := by
  unfold neg at h
  simp only at h
  split_ifs at h <;> cases h <;> rfl

theorem longQuotient_has_len (h : longQuotient left right = some res) : res.has_len = true := by
  unfold longQuotient at h
  by_cases hSign : left.has_sign = true
  · rw [if_pos hSign] at h
    rcases Option.bind_eq_some_iff.mp h with ⟨m, -, h⟩
    rcases Option.bind_eq_some_iff.mp h with ⟨n, -, h⟩
    rcases Option.bind_eq_some_iff.mp h with ⟨q, hQ, h⟩
    have hSized := unsignedDivide_has_len hQ
    split_ifs at h with hNegative
    · exact (neg_has_len h).trans hSized
    · cases h
      exact hSized
  · rw [if_neg hSign] at h
    exact unsignedDivide_has_len h

/- Numbers without sign as the rounds take them. -/
theorem plain_of_unsigned (h : v.Defined) (hLen : 0 < v.len) (hSign : v.has_sign = false) :
    (v.withLen false).Plain v.number :=
  { defined := h
    has_len := rfl
    has_sign := hSign
    len_pos := hLen
    number := rfl }

/- The rounds stay below the sum of both lengths. -/
theorem reach_le {n d len' : Nat}
    (hNum : (num.withLen false).Plain n) (hDen : (den.withLen false).Plain d) (hPos : 0 < d)
    (hLt : n < 2 ^ len) (hLen : 0 < len) (hDenLen : den.len ≤ len' + 1) :
    den.len + (usedWidth num num.len - usedWidth den den.len) ≤ len + len' := by
  have hWidth := (start_spec hNum hDen hPos).1
  rw [withLen_len, usedWidth_withLen] at hWidth
  have hUsed := usedWidth_le hNum hLt
  omega

theorem longQuotient_spec (h : Operands left right) (hNe : right.integer ≠ 0)
    (hRoom : left.len + right.len + 1 < 2 ^ 32) :
    ∃ res, longQuotient left right = some res ∧
      res.Defined ∧ 0 < res.len ∧ res.is_single = false ∧
      res.integer = left.integer.tdiv right.integer := by
  have hLeftLen := h.left_len
  have hRightLen := h.right_len
  have hPos : 0 < right.integer.natAbs := by omega
  unfold longQuotient
  cases hSign : left.has_sign with
  | true =>
    rcases magnitude_spec h.left_defined hSign hLeftLen (by omega) with ⟨m, hM, hPlain, hMLen⟩
    rcases magnitude_spec h.right_defined (h.has_sign.symm.trans hSign) hRightLen (by omega) with
      ⟨n, hN, hPlain', hNLen⟩
    have hFits := left.integer_fits
    have hLt := natAbs_lt_of_fits hFits
    have hUsed := usedWidth_le hPlain hLt
    rcases unsignedDivide_spec true hPlain hPlain' hPos hRoom
        (by omega)
        (reach_le hPlain hPlain' hPos hLt hLeftLen hNLen.2)
        with ⟨q, hQ, hQuotient⟩
    rw [hM, hN]
    change ∃ res, (unsignedDivide m n true).bind _ = some res ∧ _
    rw [hQ]
    change ∃ res, (if left.isNegative != right.isNegative then
      q.neg else some q) = some res ∧ _
    rw [isNegative_eq hLeftLen, isNegative_eq hRightLen, tdiv_eq_natAbs]
    by_cases hSigns : (decide (left.integer < 0) != decide (right.integer < 0)) = true
    · rw [if_pos hSigns, if_pos hSigns]
      have hQLen := hQuotient.len_le
      rcases neg_spec hQuotient.defined hQuotient.len_pos (by omega) with ⟨res, hRes, hSummed⟩
      have hGrown : (q.has_sign && !q.has_len) = false := by
        rw [hQuotient.has_len]
        exact Bool.and_false _
      rcases hSummed.modulo hGrown with ⟨hResLen, hMod⟩
      rw [hQuotient.integer] at hMod
      have hNegative := hQuotient.negative rfl
      have hResFits := res.integer_fits
      rw [hSummed.has_sign, hResLen] at hResFits
      refine ⟨res, hRes, hSummed.defined, ?_, ?_, ?_⟩
      · have hQPos := hQuotient.len_pos
        omega
      · exact neg_is_single hRes
      · exact hResFits.eq hNegative hMod
    · rw [if_neg hSigns, if_neg hSigns]
      exact ⟨q, rfl, hQuotient.defined, hQuotient.len_pos, hQuotient.is_single, hQuotient.integer⟩
  | false =>
    have hSign' := h.has_sign.symm.trans hSign
    have hPlain := plain_of_unsigned h.left_defined hLeftLen hSign
    have hPlain' := plain_of_unsigned h.right_defined hRightLen hSign'
    have hLInt := integer_eq_number hSign
    have hRInt := integer_eq_number hSign'
    have hPos' : 0 < right.number := by
      rw [hRInt] at hPos
      exact hPos
    rcases unsignedDivide_spec false hPlain hPlain' hPos' hRoom
        (by omega)
        (reach_le hPlain hPlain' hPos' left.number_lt hLeftLen (Nat.le_succ _)) with
      ⟨q, hQ, hQuotient⟩
    rw [hLInt, hRInt]
    exact ⟨q, hQ, hQuotient.defined, hQuotient.len_pos, hQuotient.is_single, hQuotient.integer⟩

theorem longRemainder_spec (h : Operands left right) (hNe : right.integer ≠ 0)
    (hRoom : left.len + right.len + 1 < 2 ^ 32) :
    ∃ res, longRemainder left right = some res ∧
      res.Defined ∧ res.has_len = false ∧
      left.len ≤ res.len ∧
      (res.number : Int) ≡ left.integer.tmod right.integer [ZMOD 2 ^ res.len] := by
  have hLeftLen := h.left_len
  have hRightLen := h.right_len
  have hPos : 0 < right.integer.natAbs := by omega
  unfold longRemainder
  cases hSign : left.has_sign with
  | true =>
    rcases magnitude_spec h.left_defined hSign hLeftLen (by omega) with ⟨m, hM, hPlain, hMLen⟩
    rcases magnitude_spec h.right_defined (h.has_sign.symm.trans hSign) hRightLen (by omega) with
      ⟨n, hN, hPlain', hNLen⟩
    have hFits := left.integer_fits
    have hLt := natAbs_lt_of_fits hFits
    rcases unsignedModulus_spec hPlain hPlain' hPos hRoom
        (by omega)
        (reach_le hPlain hPlain' hPos hLt hLeftLen hNLen.2)
        with
      ⟨res, hRes, hResPlain, hLow, hHigh⟩
    rw [hM, hN]
    change ∃ res, (unsignedModulus m n).bind _ = some res ∧ _
    rw [hRes]
    change ∃ res', (if left.isNegative then res.neg
      else some res) = some res' ∧ _
    rw [isNegative_eq hLeftLen, tmod_eq_natAbs]
    by_cases hNeg : left.integer < 0
    · rw [decide_eq_true hNeg, if_pos hNeg]
      rcases neg_spec hResPlain.defined hResPlain.len_pos (by omega) with ⟨res', hRes', hSummed⟩
      have hGrown : (res.has_sign && !res.has_len) = false := by
        rw [hResPlain.has_sign]
        rfl
      rcases hSummed.modulo hGrown with ⟨hLen, hMod⟩
      rw [hResPlain.integer, ← hLen] at hMod
      exact ⟨res', hRes', hSummed.defined, hSummed.has_len.trans hResPlain.has_len,
        by omega, res'.number_modEq_integer.trans hMod⟩
    · rw [decide_eq_false hNeg, if_neg hNeg]
      refine ⟨res, rfl, hResPlain.defined, hResPlain.has_len, by omega, ?_⟩
      rw [hResPlain.number]
  | false =>
    have hSign' := h.has_sign.symm.trans hSign
    have hPlain := plain_of_unsigned h.left_defined hLeftLen hSign
    have hPlain' := plain_of_unsigned h.right_defined hRightLen hSign'
    have hLInt := integer_eq_number hSign
    have hRInt := integer_eq_number hSign'
    have hPos' : 0 < right.number := by
      rw [hRInt] at hPos
      exact hPos
    rcases unsignedModulus_spec hPlain hPlain' hPos' hRoom
        (by omega)
        (reach_le hPlain hPlain' hPos' left.number_lt hLeftLen (Nat.le_succ _)) with
      ⟨res, hRes, hResPlain, hLow, -⟩
    rw [hLInt, hRInt]
    refine ⟨res, hRes, hResPlain.defined, hResPlain.has_len, hLow, ?_⟩
    rw [hResPlain.number]
    rfl

/- A remainder that is long enough ends right. -/
theorem finish_remainder {result : Verinum} (h : result.Defined)
    (hUnsized : result.has_len = false) {use_len : Nat}
    (hLen : 0 < use_len) (hLow : use_len ≤ result.len) {signed : Bool} {n : Int}
    (hMod : (result.number : Int) ≡ n [ZMOD 2 ^ result.len]) (hFits : Fits signed use_len n) :
    Answer sized use_len n (finish use_len sized signed result) := by
  cases sized with
  | true =>
    have hInteger : result.integer ≡ n [ZMOD 2 ^ use_len] :=
      (result.number_modEq_integer.symm.trans hMod).of_dvd (pow_dvd_pow 2 hLow)
    exact finish_sized h (by omega) (Or.inr hLow) signed hInteger
  | false =>
    rcases finish_unsized h use_len signed with ⟨hHasLen, hInteger⟩
    exact
      { has_len := hHasLen.trans hUnsized
        exact := fun _ => by
          rw [hInteger]
          exact (value_eq_iff hMod).mpr (hFits.mono hLow)
        modulo := fun h => by cases h }

section

variable (h : Operands left right) (hNe : right.integer ≠ 0)

include h hNe

theorem modulus_long_right (hLong : ¬left.len ≤ 64)
    (hRoom : left.len + right.len + 1 < 2 ^ 32) : ModulusRight left right := by
  rcases longRemainder_spec h hNe hRoom with ⟨res, hRes, hDefined, hUnsized, hLow, hMod⟩
  have hFits : Fits left.has_sign left.len (left.integer.tmod right.integer) := by
    have hLeftFits := left.integer_fits
    cases hSign : left.has_sign with
    | true =>
      rw [hSign] at hLeftFits
      exact fits_tmod hLeftFits _
    | false =>
      have hLInt := integer_eq_number hSign
      have hRInt := integer_eq_number (h.has_sign.symm.trans hSign)
      have hRest : left.integer.tmod right.integer =
          ((left.number % right.number : Nat) : Int) := by
        rw [hLInt, hRInt]
        rfl
      have hLe := Nat.mod_le left.number right.number
      have hLt := left.number_lt
      have hCast := cast_two_pow left.len
      unfold Fits
      rw [if_neg Bool.false_ne_true]
      omega
  unfold ModulusRight
  rw [modulus_long h hNe hLong, hRes, remainder_eq]
  exact ⟨_, rfl, finish_remainder hDefined hUnsized h.left_len hLow hMod hFits⟩

/- A long quotient of an open length would have to stay open. -/
theorem divide_long_sized
    (hLong : ¬left.len ≤ (if left.has_sign then 63 else 64)) (hRight : DivideRight left right) :
    bothSized left right = true := by
  rcases hRight with ⟨res, hRes, hAnswer⟩
  rw [divide_long h hNe hLong] at hRes
  rcases Option.map_eq_some_iff.mp hRes with ⟨q, hQ, hFinish⟩
  have hSized := longQuotient_has_len hQ
  by_contra hOpen
  have hOpen' := Bool.eq_false_iff.mpr hOpen
  rw [hOpen'] at hFinish
  have hHasLen := hAnswer.has_len
  rw [hOpen', ← hFinish] at hHasLen
  unfold finish at hHasLen
  simp only [Bool.false_eq_true, if_false] at hHasLen
  rw [trimVnum_sized (show (q.withSign left.has_sign).has_len = true from hSized)] at hHasLen
  exact absurd (hSized.symm.trans hHasLen) (by decide)

theorem divide_long_right (hLong : ¬left.len ≤ (if left.has_sign then 63 else 64))
    (hRoom : left.len + right.len + 1 < 2 ^ 32) (hSized : bothSized left right = true) :
    DivideRight left right := by
  rcases longQuotient_spec h hNe hRoom with ⟨res, hRes, hDefined, hLen, hSingle, hInteger⟩
  unfold DivideRight
  rw [divide_long h hNe hLong, hRes, hSized]
  refine ⟨_, rfl, finish_sized hDefined hLen (Or.inl hSingle) left.has_sign ?_⟩
  rw [hInteger]

----
-- Both Paths
----

theorem divide_short_iff (hShort : left.len ≤ (if left.has_sign then 63 else 64)) :
    DivideRight left right ↔ DivideExact left right := by
  unfold DivideExact
  rw [if_pos hShort]
  cases hSign : left.has_sign with
  | true =>
    rw [hSign] at hShort
    rw [divide_native_signed h hNe hSign hShort]
    simp
  | false =>
    rw [hSign] at hShort
    rw [(division_native_unsigned h hNe hSign hShort).1]
    simp

theorem modulus_short_iff
    (hShort : left.len ≤ 64) : ModulusRight left right ↔ NativeRight left right := by
  cases hSign : left.has_sign with
  | true => exact modulus_native_signed h hNe hSign hShort
  | false => exact (division_native_unsigned h hNe hSign hShort).2

end

/-
  Both operators are right only under their conditions, and
  under them wherever the long path has room.
-/
theorem division_iff {left right : Verinum} (h : Operands left right) (hNe : right.integer ≠ 0) :
    (DivideRight left right → DivideExact left right) ∧
    (Room (if left.has_sign then 63 else 64) left right →
      DivideExact left right → DivideRight left right) ∧
    (ModulusRight left right → ModulusExact left right) ∧
    (Room 64 left right →
      ModulusExact left right → ModulusRight left right) := by
  refine ⟨?_, ?_, ?_, ?_⟩
  · intro hRight
    by_cases hShort : left.len ≤ (if left.has_sign then 63 else 64)
    · exact (divide_short_iff h hNe hShort).mp hRight
    · unfold DivideExact
      rw [if_neg hShort]
      exact divide_long_sized h hNe hShort hRight
  · intro hRoom hExact
    by_cases hShort : left.len ≤ (if left.has_sign then 63 else 64)
    · exact (divide_short_iff h hNe hShort).mpr hExact
    · unfold DivideExact at hExact
      rw [if_neg hShort] at hExact
      exact divide_long_right h hNe hShort (hRoom.resolve_left hShort) hExact
  · intro hRight hShort
    exact (modulus_short_iff h hNe hShort).mp hRight
  · intro hRoom hExact
    by_cases hShort : left.len ≤ 64
    · exact (modulus_short_iff h hNe hShort).mpr (hExact hShort)
    · exact modulus_long_right h hNe hShort (hRoom.resolve_left hShort)

/- Minus seven by minus two, in four and in two bits. -/
theorem division_iff_small :
    DivideRight ⟨[.v1, .v0, .v0, .v1], true, true, false⟩ ⟨[.v0, .v1], true, true, false⟩ :=
  (@division_iff
    ⟨[.v1, .v0, .v0, .v1], true, true, false⟩
    ⟨[.v0, .v1], true, true, false⟩
    ⟨rfl, rfl, by decide, by decide, rfl⟩ (by decide)).2.1
    (Or.inl (by decide)) (by
      unfold DivideExact NativeRight
      rw [if_pos (by decide)]
      exact ⟨Or.inl (by decide), fun h => by
        exact absurd h.2.1 (by decide)⟩)

/-
  One by 2 to the 64th: the divisor is cut to zero, and the
  processor divides by it.
-/
theorem divide_native_zero :
    ¬ ∀ left right : Verinum, Operands left right →
      left.len < 2 ^ 32 → right.len < 2 ^ 32 →
        right.integer ≠ 0 → DivideRight left right := by
  intro h
  have hOne := h ⟨[.v1, .v0], true, true, false⟩
    ⟨List.replicate 64 .v0 ++ [.v1, .v0], true, true, false⟩
    ⟨rfl, by unfold Defined; decide, by decide, by decide, rfl⟩
    (by decide) (by decide) (by decide)
  rcases hOne with ⟨res, hRes, -⟩
  have hNone : divide ⟨[.v1, .v0], true, true, false⟩
      ⟨List.replicate 64 .v0 ++ [.v1, .v0], true, true, false⟩ =
        none := by
    decide
  rw [hNone] at hRes
  cases hRes

end Verinum

end EpicSim
