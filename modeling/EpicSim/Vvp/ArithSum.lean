import EpicSim.Vvp.Arith
import EpicSim.Lib.TwosComplement

/-
  The functors for the sum and the difference of two nets.

  The bits are added one by one, and an operand that is
  narrower than the output is padded: with 0 in the sum, with
  1 in the difference, where the second operand is inverted.
-/

----
-- Functors
----

namespace EpicSim

open VvpVector4 (fill)
open TwosComplement (low low_succ low_congr low_not low_testBit
  low_trim_zero testBit_low sumAt carryAt low_sumAt_modEq)

/- The loop over the bits; none where a sum is X. -/
def rippleBits (a b : Nat → VvpBit4) : Nat → Nat → VvpBit4 → VvpVector4 → Option VvpVector4
| 0, _, _, value => some value
| rounds + 1, idx, carry, value =>
  let cur := VvpBit4.addWithCarry (a idx) (b idx) carry
  if cur.1 = .x then none
  else rippleBits a b rounds (idx + 1) cur.2 (value.setBit idx cur.1)

namespace VvpArith

/- `vvp_arith_sum`: what it sends. -/
def sum (arith : VvpArith) : VvpVector4 :=
  let pad : VvpBit4 := .zero
  let a := fun idx => if arith.op_a.size_ ≤ idx then pad else arith.op_a.value idx
  let b := fun idx => if arith.op_b.size_ ≤ idx then pad else arith.op_b.value idx
  (rippleBits a b arith.wid 0 .zero (fill arith.wid .x)).getD arith.x_val

/- `vvp_arith_sub`: what it sends. -/
def sub (arith : VvpArith) : VvpVector4 :=
  let pad : VvpBit4 := .one
  let a := fun idx => if arith.op_a.size_ ≤ idx then pad else arith.op_a.value idx
  let b := fun idx =>
    if arith.op_b.size_ ≤ idx then pad
    else (arith.op_b.value idx).not
  (rippleBits a b arith.wid 0 .one (fill arith.wid .x)).getD arith.x_val

/- A functor that operands of any width have arrived at. -/
inductive Running (wid : Nat) : VvpArith → Prop where
| new : Running wid (new wid false)
| dispatch {arith arith' : VvpArith} {port : Nat}
    {bit : VvpVector4} :
    Running wid arith → arith.dispatchOperand port bit = some arith' → Running wid arith'

theorem Running.wired {wid : Nat} {arith : VvpArith} (hRun : Running wid arith) :
    arith.wid = wid ∧ arith.x_val.AllX wid := by
  induction hRun with
  | new => exact ⟨rfl, filled_spec wid .x⟩
  | dispatch _ hDispatch ih =>
    unfold dispatchOperand at hDispatch
    grind

end VvpArith

----
-- The Ripple
----

/- A bit of the two. -/
def bitOfBool (on : Bool) : VvpBit4 := if on then .one else .zero

theorem addWithCarry_bits (a b c : Bool) :
    VvpBit4.addWithCarry (bitOfBool a) (bitOfBool b) (bitOfBool c) =
      (bitOfBool ((a ^^ b) ^^ c), bitOfBool (Bool.atLeastTwo a b c)) := by
  cases a <;> cases b <;> cases c <;> rfl

theorem addWithCarry_xz {a b : VvpBit4} (hXz : a.isXz = true ∨ b.isXz = true) (c : VvpBit4) :
    (VvpBit4.addWithCarry a b c).1 = .x := by
  have hAny : (a.isXz || b.isXz || c.isXz) = true := by grind
  unfold VvpBit4.addWithCarry
  rw [if_pos hAny]

theorem bitOfBool_ne_x (on : Bool) : bitOfBool on ≠ .x := by
  cases on <;> decide

/- Two-state operands give the sum bits. -/
theorem rippleBits_spec {a b : Nat → VvpBit4} {p q : Nat → Bool} {c : Bool} :
    ∀ {rounds idx : Nat} {value : VvpVector4},
      (∀ i < idx + rounds, a i = bitOfBool (p i) ∧ b i = bitOfBool (q i)) →
      idx + rounds = value.size_ →
      (∀ i < idx, value.value i = bitOfBool (sumAt p q c i)) →
      ∃ res,
        rippleBits a b rounds idx (bitOfBool (carryAt p q c idx)) value = some res ∧
        res.size_ = value.size_ ∧
        ∀ i < res.size_, res.value i = bitOfBool (sumAt p q c i)
| 0, idx, value, _, hEnd, hDone => ⟨value, rfl, rfl, fun i hI => hDone i (by omega)⟩
| rounds + 1, idx, value, hBits, hEnd, hDone => by
    rcases hBits idx (by omega) with ⟨hA, hB⟩
    rw [rippleBits, hA, hB]
    simp only [addWithCarry_bits]
    rw [if_neg (bitOfBool_ne_x _)]
    apply @rippleBits_spec a b p q c rounds (idx + 1)
      (value.setBit idx (bitOfBool (sumAt p q c idx)))
    · intro i hI
      exact hBits i (by omega)
    · rw [VvpVector4.size_setBit]
      omega
    · intro i hI
      rw [VvpVector4.value_setBit (by omega) _ (by omega)]
      by_cases hSame : i = idx
      · rw [if_pos hSame, hSame]
      · rw [if_neg hSame]
        exact hDone i (by omega)

/- An operand bit that is X or Z ends the loop. -/
theorem rippleBits_xz {a b : Nat → VvpBit4} {i : Nat}
    (hXz : (a i).isXz = true ∨ (b i).isXz = true) :
    ∀ {rounds idx : Nat} {carry : VvpBit4} {value : VvpVector4},
      idx ≤ i → i < idx + rounds →
      rippleBits a b rounds idx carry value = none
| 0, _, _, _, hLow, hHigh => by omega
| rounds + 1, idx, carry, value, hLow, hHigh => by
    rw [rippleBits]
    by_cases hHere : idx = i
    · subst hHere
      rw [if_pos (addWithCarry_xz hXz carry)]
    · split_ifs
      · rfl
      · exact rippleBits_xz hXz (by omega) (by omega)

----
-- Two-State Operands
----

namespace VvpArith

variable {v : VvpVector4} {wid : Nat}

/- A bit of the number of an operand. -/
theorem value_of_defined (hDefined : v.Defined) {idx : Nat} (hIdx : idx < v.size_) :
    v.value idx = bitOfBool (v.number.testBit idx) := by
  rw [VvpVector4.testBit_number]
  rcases hDefined idx hIdx with hBit | hBit <;> rw [hBit] <;> rfl

/- An operand that is padded with 0. -/
theorem low_padded_zero (hWid : v.size_ ≤ wid) : low v.number.testBit wid = v.number := by
  rw [low_testBit]
  exact Nat.mod_eq_of_lt (lt_of_lt_of_le v.number_lt (Nat.pow_le_pow_right (by decide) hWid))

/- An operand that is padded with 1. -/
theorem low_padded_one (hWid : v.size_ ≤ wid) :
    low (fun i => decide (v.size_ ≤ i) || v.number.testBit i) wid +
        2 ^ v.size_ = v.number + 2 ^ wid := by
  have hOuter := low_not (fun i => decide (v.size_ ≤ i) || v.number.testBit i) wid
  have hTrim : low (fun i =>
        !(decide (v.size_ ≤ i) || v.number.testBit i)) wid =
      low (fun i => !v.number.testBit i) v.size_ := by
    rw [low_trim_zero hWid (by intro i hLe _; simp [hLe])]
    apply low_congr
    intro i hI
    simp [Nat.not_le.mpr hI]
  have hInner := low_not v.number.testBit v.size_
  rw [low_padded_zero (le_refl v.size_)] at hInner
  omega

theorem ripple_encodes {a b : Nat → VvpBit4} {p q : Nat → Bool} {c : Bool} {n : Int}
    (hBits : ∀ i < wid, a i = bitOfBool (p i) ∧ b i = bitOfBool (q i))
    (hMod : (low p wid + low q wid + c.toNat : Int) ≡ n [ZMOD 2 ^ wid]) :
    ∃ res,
      rippleBits a b wid 0 (bitOfBool c) (fill wid .x) = some res ∧
      res.Encodes wid n := by
  have hStart : (0 : Nat) + wid = (fill wid .x).size_ := Nat.zero_add wid
  rcases @rippleBits_spec a b p q c wid 0 (fill wid .x)
    (fun i hI => hBits i (by omega)) hStart
    (fun i hI => absurd hI (Nat.not_lt_zero i)) with
    ⟨res, hRipple, hSize, hValue⟩
  have hWid : res.size_ = wid := hSize
  refine ⟨res, hRipple, ?_⟩
  apply VvpVector4.encodes_of_testBit hWid (m := low (sumAt p q c) wid)
  · intro i hI
    rw [hValue i (by omega)]
    unfold bitOfBool
    rw [testBit_low hI]
  · refine Int.ModEq.trans ?_ hMod
    have hNat := low_sumAt_modEq p q c wid
    exact_mod_cast (Int.natCast_modEq_iff.mpr hNat)

end VvpArith

----
-- What Is Sent
----

/- One of the first bits of an operand is X or Z. -/
def VvpVector4.UnknownBelow (v : VvpVector4) (wid : Nat) : Prop :=
  ∃ idx < wid, idx < v.size_ ∧ (v.value idx).isXz = true

/- Two-state operands that are no wider than the output give
   the number, and X or Z in its width gives all X. -/
def SendsRight (wid : Nat) (a b : VvpVector4) (n : Int) (out : VvpVector4) : Prop :=
  (a.Defined → b.Defined → a.size_ ≤ wid → b.size_ ≤ wid → out.Encodes wid n) ∧
  (a.UnknownBelow wid ∨ b.UnknownBelow wid → out.AllX wid)

namespace VvpArith

variable {wid : Nat} {arith : VvpArith}

theorem sum_sends (hRun : Running wid arith) :
    SendsRight wid arith.op_a arith.op_b (arith.op_a.number + arith.op_b.number) arith.sum := by
  rcases hRun.wired with ⟨hWid, hX⟩
  constructor
  · intro hA hB hALe hBLe
    have hPadded : ∀ {v : VvpVector4}, v.Defined → ∀ i,
        (if v.size_ ≤ i then VvpBit4.zero else v.value i) = bitOfBool (v.number.testBit i) := by
      intro v hV i
      split_ifs with hPast
      · rw [Nat.testBit_lt_two_pow (lt_of_lt_of_le v.number_lt
          (Nat.pow_le_pow_right (by decide) hPast))]
        rfl
      · exact value_of_defined hV (Nat.lt_of_not_le hPast)
    rcases ripple_encodes (c := false) (n := arith.op_a.number + arith.op_b.number)
      (fun i (_ : i < wid) => ⟨hPadded hA i, hPadded hB i⟩)
      (by
        rw [low_padded_zero hALe, low_padded_zero hBLe]
        simp) with
      ⟨res, hRipple, hRes⟩
    have hSum : arith.sum = res := by
      unfold sum
      rw [hWid]
      exact congrArg (fun r => r.getD arith.x_val) hRipple
    rw [hSum]
    exact hRes
  · intro hUnknown
    have hNone : arith.sum = arith.x_val := by
      unfold sum
      simp only
      rcases hUnknown with ⟨i, hI, hIn, hXz⟩ | ⟨i, hI, hIn, hXz⟩
      · rw [rippleBits_xz (i := i)
          (Or.inl (by rw [if_neg (Nat.not_le.mpr hIn)]; exact hXz))
          (Nat.zero_le i) (by omega)]
        rfl
      · rw [rippleBits_xz (i := i)
          (Or.inr (by rw [if_neg (Nat.not_le.mpr hIn)]; exact hXz))
          (Nat.zero_le i) (by omega)]
        rfl
    rw [hNone]
    exact hX

/- Two-state operands give the difference with the first one
   padded with 1. -/
theorem sub_encodes (hRun : Running wid arith) (hA : arith.op_a.Defined)
    (hB : arith.op_b.Defined) (hALe : arith.op_a.size_ ≤ wid) (hBLe : arith.op_b.size_ ≤ wid) :
    arith.sub.Encodes wid (arith.op_a.number - arith.op_b.number - 2 ^ arith.op_a.size_) := by
  have hWid := hRun.wired.1
  have hPaddedA : ∀ i,
      (if arith.op_a.size_ ≤ i then VvpBit4.one
        else arith.op_a.value i) =
        bitOfBool (decide (arith.op_a.size_ ≤ i) || arith.op_a.number.testBit i) := by
    intro i
    split_ifs with hPast
    · rw [decide_eq_true hPast]
      rfl
    · rw [decide_eq_false hPast]
      exact value_of_defined hA (Nat.lt_of_not_le hPast)
  have hPaddedB : ∀ i,
      (if arith.op_b.size_ ≤ i then VvpBit4.one
        else (arith.op_b.value i).not) =
        bitOfBool (!arith.op_b.number.testBit i) := by
    intro i
    split_ifs with hPast
    · rw [Nat.testBit_lt_two_pow
        (lt_of_lt_of_le arith.op_b.number_lt (Nat.pow_le_pow_right (by decide) hPast))]
      rfl
    · rw [value_of_defined hB (Nat.lt_of_not_le hPast)]
      cases arith.op_b.number.testBit i <;> rfl
  have hLowA := low_padded_one hALe
  have hLowB := low_not arith.op_b.number.testBit wid
  rw [low_padded_zero hBLe] at hLowB
  have hTwo : ((2 ^ wid : Nat) : Int) = 2 ^ wid := by norm_cast
  have hTwoA : ((2 ^ arith.op_a.size_ : Nat) : Int) = 2 ^ arith.op_a.size_ := by norm_cast
  rcases ripple_encodes (c := true)
    (n := arith.op_a.number - arith.op_b.number - 2 ^ arith.op_a.size_)
    (fun i (_ : i < wid) => ⟨hPaddedA i, hPaddedB i⟩)
    (by
      apply Int.modEq_iff_dvd.mpr
      refine ⟨-2, ?_⟩
      simp only [Bool.toNat_true]
      omega) with
    ⟨res, hRipple, hRes⟩
  have hSub : arith.sub = res := by
    unfold sub
    rw [hWid]
    exact congrArg (fun r => r.getD arith.x_val) hRipple
  rw [hSub]
  exact hRes

theorem sub_unknown (hRun : Running wid arith)
    (hUnknown : arith.op_a.UnknownBelow wid ∨ arith.op_b.UnknownBelow wid) :
    arith.sub.AllX wid := by
  rcases hRun.wired with ⟨hWid, hX⟩
  have hNot : ∀ {bit : VvpBit4}, bit.isXz = true →
      bit.not.isXz = true := by
    intro bit hXz
    cases bit
    · exact absurd hXz (by decide)
    · exact absurd hXz (by decide)
    · rfl
    · rfl
  have hNone : arith.sub = arith.x_val := by
    unfold sub
    simp only
    rcases hUnknown with ⟨i, hI, hIn, hXz⟩ | ⟨i, hI, hIn, hXz⟩
    · rw [rippleBits_xz (i := i)
        (Or.inl (by rw [if_neg (Nat.not_le.mpr hIn)]; exact hXz))
        (Nat.zero_le i) (by omega)]
      rfl
    · rw [rippleBits_xz (i := i)
        (Or.inr (by
          rw [if_neg (Nat.not_le.mpr hIn)]
          exact hNot hXz))
        (Nat.zero_le i) (by omega)]
      rfl
  rw [hNone]
  exact hX

theorem sub_sends_iff (hRun : Running wid arith) :
    SendsRight wid arith.op_a arith.op_b (arith.op_a.number - arith.op_b.number) arith.sub ↔
      (arith.op_a.Defined → arith.op_b.Defined →
        arith.op_a.size_ ≤ wid → arith.op_b.size_ ≤ wid →
        arith.op_a.size_ = wid) := by
  constructor
  · intro hRight hA hB hALe hBLe
    have hMod := (sub_encodes hRun hA hB hALe hBLe).modEq (hRight.1 hA hB hALe hBLe)
    have hDvd := Int.modEq_iff_dvd.mp hMod
    rw [sub_sub_cancel] at hDvd
    have hNat : 2 ^ wid ∣ 2 ^ arith.op_a.size_ := by exact_mod_cast hDvd
    have hLe := (Nat.pow_dvd_pow_iff_le_right (by decide)).mp hNat
    exact le_antisymm hALe hLe
  · intro hSize
    refine ⟨fun hA hB hALe hBLe => ?_, sub_unknown hRun⟩
    have hEncodes := sub_encodes hRun hA hB hALe hBLe
    rw [hSize hA hB hALe hBLe] at hEncodes
    refine ⟨hEncodes.1, fun idx hIdx => ?_⟩
    rw [hEncodes.2 idx hIdx, Int.sub_emod_right]

/- The sum is right in every run.  The difference is right
   exactly where the first operand has the width of the output,
   if both are of two states and no wider. -/
theorem sum_difference_exact {wid : Nat} {arith : VvpArith} (hRun : Running wid arith)
    {port : Nat} (hPort : port < 2) (bit : VvpVector4) :
    ∃ arith',
      Running wid arith' ∧
      arith.recvVec4 (fun a => some a.sum) port bit = some (arith', arith'.sum) ∧
      arith.recvVec4 (fun a => some a.sub) port bit = some (arith', arith'.sub) ∧
      SendsRight wid arith'.op_a arith'.op_b (arith'.op_a.number + arith'.op_b.number) arith'.sum ∧
      (SendsRight wid arith'.op_a arith'.op_b (arith'.op_a.number - arith'.op_b.number) arith'.sub ↔
        (arith'.op_a.Defined → arith'.op_b.Defined →
          arith'.op_a.size_ ≤ wid → arith'.op_b.size_ ≤ wid →
          arith'.op_a.size_ = wid)) := by
  have hSome : ∃ arith', arith.dispatchOperand port bit = some arith' := by
    rcases Nat.lt_succ_iff_lt_or_eq.mp hPort with hZero | hOne
    · rw [Nat.lt_one_iff.mp hZero]
      exact ⟨_, rfl⟩
    · rw [hOne]
      exact ⟨_, rfl⟩
  rcases hSome with ⟨arith', hDispatch⟩
  have hNext := Running.dispatch hRun hDispatch
  refine ⟨arith', hNext, ?_, ?_, sum_sends hNext, sub_sends_iff hNext⟩
  · unfold recvVec4
    rw [hDispatch]
    rfl
  · unfold recvVec4
    rw [hDispatch]
    rfl

/- 1 of one bit arrives after 3 of two bits: in two bits the sum
   is 0 and the difference 2. -/
theorem sum_difference_exact_new :
    ∃ first arith', (new 2 false).dispatchOperand 0 (.fill 2 .one) = some first ∧
      first.recvVec4 (fun a => some a.sum) 1 (.fill 1 .one) = some (arith', arith'.sum) ∧
      first.recvVec4 (fun a => some a.sub) 1 (.fill 1 .one) = some (arith', arith'.sub) ∧
      arith'.sum.Encodes 2 (3 + 1) ∧ arith'.sub.Encodes 2 (3 - 1) := by
  have hFirst : Running 2 { new 2 false with op_a := .fill 2 .one } :=
    @Running.dispatch 2 _ _ 0 (.fill 2 .one) Running.new rfl
  rcases sum_difference_exact hFirst (show 1 < 2 by decide) (.fill 1 .one) with
    ⟨arith', -, hSum, hSub, hSumRight, hSubRight⟩
  have hState := congrArg Prod.fst (Option.some.inj hSum)
  simp only at hState
  subst hState
  refine ⟨_, _, rfl, hSum, hSub, ?_, ?_⟩
  · exact hSumRight.1 (by decide) (by decide) (by decide) (by decide)
  · exact (hSubRight.mpr fun _ _ _ _ => rfl).1 (by decide) (by decide) (by decide) (by decide)

/- One bit less than two bits: 1 - 0 comes out as 3. -/
def narrowMinuend : VvpArith :=
  { new 2 false with
    op_a := .fill 1 .one
    op_b := .fill 2 .zero }

theorem narrow_minuend_wraps :
    Running 2 narrowMinuend ∧
      ¬ SendsRight 2 narrowMinuend.op_a narrowMinuend.op_b
        (narrowMinuend.op_a.number - narrowMinuend.op_b.number)
        narrowMinuend.sub := by
  refine ⟨?_, fun hRight => ?_⟩
  · have hFirst : Running 2
        { new 2 false with op_a := fill 1 .one } :=
      @Running.dispatch 2 _ _ 0 (.fill 1 .one) Running.new rfl
    exact @Running.dispatch 2 _ _ 1 (.fill 2 .zero) hFirst rfl
  · have hEncodes := hRight.1 (by decide) (by decide) (by decide) (by decide)
    exact absurd (hEncodes.2 1 (by decide)) (by decide)

end VvpArith

end EpicSim
