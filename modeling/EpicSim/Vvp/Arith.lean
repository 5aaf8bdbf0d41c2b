import EpicSim.Vvp.Vector2Number

/-
  The arithmetic functors: their operands, the conversion of
  four-state bits to native words and back, and the numbers
  the bits stand for.
-/

----
-- Numbers
----

namespace EpicSim

open PackedWords Limbs

namespace VvpVector4

/- Every bit is 0 or 1. -/
def Defined (v : VvpVector4) : Prop :=
  ∀ idx < v.size_, v.value idx = .zero ∨ v.value idx = .one

instance (v : VvpVector4) : Decidable v.Defined :=
  inferInstanceAs (Decidable (∀ idx < v.size_, _))

/- The number whose bits are the ones. -/
def number (v : VvpVector4) : Nat :=
  Nat.ofBits (fun idx : Fin v.size_ => decide (v.value idx = .one))

/- The top bit is 1. -/
def topSet (v : VvpVector4) : Bool :=
  decide (v.value (v.size_ - 1) = .one)

/- The integer, in two's complement where it is signed. -/
def integer (v : VvpVector4) (signed : Bool) : Int :=
  if signed && v.topSet then v.number - 2 ^ v.size_
  else v.number

/- All bits of the width are X. -/
def AllX (v : VvpVector4) (wid : Nat) : Prop :=
  v.size_ = wid ∧ ∀ idx < wid, v.value idx = .x

/- The two's complement encoding of an integer in a width. -/
def Encodes (v : VvpVector4) (wid : Nat) (n : Int) : Prop :=
  v.size_ = wid ∧
    ∀ idx < wid, v.value idx =
      if (n % 2 ^ wid).toNat.testBit idx then .one else .zero

theorem testBit_number (v : VvpVector4) (idx : Nat) :
    v.number.testBit idx = decide (v.value idx = .one) := by
  unfold number
  by_cases h : idx < v.size_
  · rw [Nat.testBit_ofBits_lt _ _ h]
  · have hPast : v.value idx = .x := by
      unfold value
      rw [if_pos (Nat.not_lt.mp h)]
    rw [Nat.testBit_ofBits_ge _ _ (Nat.not_lt.mp h), hPast]
    rfl

theorem number_lt (v : VvpVector4) : v.number < 2 ^ v.size_ :=
  Nat.ofBits_lt_two_pow _

theorem whole_copyFromThat (v : VvpVector4) : (VvpVector2.copyFromThat v).whole = v.number := by
  apply Nat.eq_of_testBit_eq
  intro idx
  rw [VvpVector2.testBit_copyFromThat, testBit_number]

/- The top bit is the upper half of the numbers. -/
theorem topSet_iff {v : VvpVector4} (h : 0 < v.size_) :
    v.topSet = true ↔ 2 ^ (v.size_ - 1) ≤ v.number := by
  unfold topSet
  rw [← testBit_number]
  have hLt := v.number_lt
  have hSize : v.size_ - 1 + 1 = v.size_ := Nat.sub_add_cancel h
  constructor
  · exact Nat.ge_two_pow_of_testBit
  · intro hLe
    rw [← hSize] at hLt
    rw [Nat.testBit_eq_decide_div_mod_eq, decide_eq_true_iff]
    have hDiv : v.number / 2 ^ (v.size_ - 1) = 1 := by
      apply Nat.div_eq_of_lt_le
      · omega
      · omega
    rw [hDiv]

/- A vector with the bits of a number encodes it. -/
theorem encodes_of_testBit {v : VvpVector4} {wid m : Nat} {n : Int} (hSize : v.size_ = wid)
    (hBits : ∀ idx < wid, v.value idx =
      if m.testBit idx then .one else .zero)
    (hMod : (m : Int) ≡ n [ZMOD 2 ^ wid]) : v.Encodes wid n := by
  refine ⟨hSize, fun idx hIdx => ?_⟩
  have hNat : (n % 2 ^ wid).toNat = m % 2 ^ wid := by
    rw [← hMod.eq]
    norm_cast
  rw [hBits idx hIdx, hNat, Nat.testBit_mod_two_pow, decide_eq_true hIdx, Bool.true_and]

/- What is encoded is known modulo the width. -/
theorem Encodes.modEq {v : VvpVector4} {wid : Nat} {n m : Int} (hN : v.Encodes wid n)
    (hM : v.Encodes wid m) : n ≡ m [ZMOD 2 ^ wid] := by
  have hPos : (0 : Int) < 2 ^ wid := by exact_mod_cast Nat.two_pow_pos wid
  have hNat : ∀ k : Int, (k % 2 ^ wid).toNat < 2 ^ wid := by
    intro k
    have hCast : (((2 ^ wid : Nat) : Int)) = 2 ^ wid := by norm_cast
    omega
  have hSame : (n % 2 ^ wid).toNat = (m % 2 ^ wid).toNat := by
    apply Nat.eq_of_testBit_eq
    intro idx
    by_cases hIdx : idx < wid
    · have hBit := (hN.2 idx hIdx).symm.trans (hM.2 idx hIdx)
      grind
    · have hPow := Nat.pow_le_pow_right (by decide : 0 < 2) (Nat.not_lt.mp hIdx)
      rw [Nat.testBit_lt_two_pow (Nat.lt_of_lt_of_le (hNat n) hPow),
          Nat.testBit_lt_two_pow (Nat.lt_of_lt_of_le (hNat m) hPow)]
  have hNonneg := fun k : Int => Int.emod_nonneg k (ne_of_gt hPos)
  change n % 2 ^ wid = m % 2 ^ wid
  rw [← Int.toNat_of_nonneg (hNonneg n), hSame, Int.toNat_of_nonneg (hNonneg m)]

/- Two encodings are one if the numbers agree. -/
theorem encodes_iff {v : VvpVector4} {wid : Nat} {m n : Int} (h : v.Encodes wid m) :
    v.Encodes wid n ↔ m ≡ n [ZMOD 2 ^ wid] := by
  constructor
  · exact Encodes.modEq h
  · intro hMod
    refine ⟨h.1, ?_⟩
    rw [← hMod.eq]
    exact h.2

end VvpVector4

----
-- Bits That Are X Or Z
----

theorem getLsbD_onesAfter {count : Nat} (off : Nat) :
    (onesAfter count).getLsbD off =
      decide (off < 64 - count % 64) := by
  unfold onesAfter
  rw [BitVec.getLsbD_ushiftRight, BitVec.getLsbD_allOnes]
  rw [decide_eq_decide]
  omega

theorem word_eq_zero_iff (word : BitVec 64) :
    word = 0#64 ↔ ∀ off < 64, word.getLsbD off = false := by
  constructor
  · rintro rfl off -
    exact BitVec.getLsbD_zero
  · grind

theorem and_onesAfter_eq_zero_iff (word : BitVec 64) (count : Nat) :
    word &&& onesAfter count = 0#64 ↔
      ∀ off < 64 - count % 64, word.getLsbD off = false := by
  rw [word_eq_zero_iff]
  simp only [BitVec.getLsbD_and, getLsbD_onesAfter, Bool.and_eq_false_iff, decide_eq_false_iff_not]
  constructor
  · grind
  · grind

namespace VvpVector4

theorem defined_iff (v : VvpVector4) :
    v.Defined ↔
      ∀ idx < v.size_, bitAt v.bbits idx = false := by
  refine forall_congr' fun idx => forall_congr' fun hIdx => ?_
  rw [value_of_lt hIdx]
  cases bitAt v.bbits idx <;>
    cases bitAt v.abits idx <;>
    simp [VvpBit4.ofBits]

/- A vector without X and Z bits is defined. -/
theorem hasXz_eq_false_iff {v : VvpVector4} (h : 0 < v.size_) : v.hasXz = false ↔ v.Defined := by
  rw [defined_iff]
  unfold hasXz
  split_ifs with hSmall hOne
  · rw [bne_eq_false_iff_eq, and_onesAfter_eq_zero_iff]
    have hCount : 64 - (64 - v.size_) % 64 = v.size_ := by omega
    rw [hCount]
    refine forall_congr' fun idx => forall_congr' fun hIdx => ?_
    unfold bitAt
    rw [Nat.div_eq_of_lt (by omega), Nat.mod_eq_of_lt (by omega)]
  · rw [bne_eq_false_iff_eq, word_eq_zero_iff, hOne]
    refine forall_congr' fun idx => forall_congr' fun hIdx => ?_
    unfold bitAt
    rw [Nat.div_eq_of_lt hIdx, Nat.mod_eq_of_lt hIdx]
  · simp only [Bool.or_eq_false_iff, List.any_eq_false, List.mem_range, Bool.and_eq_false_iff,
      bne_iff_ne, bne_eq_false_iff_eq, decide_eq_false_iff_not, not_not, and_onesAfter_eq_zero_iff]
    simp only [word_eq_zero_iff (wordAt _ _)]
    constructor
    · rintro ⟨hWords, hTail⟩ idx hIdx
      by_cases hFull : idx / 64 < v.size_ / 64
      · exact hWords _ hFull _ (Nat.mod_lt _ (by decide))
      · rcases hTail with hNone | hPart
        · omega
        · have hWord : idx / 64 = v.size_ / 64 := by omega
          unfold bitAt
          rw [hWord]
          exact hPart _ (by omega)
    · intro hBits
      refine ⟨fun wdx hWdx off hOff => ?_, ?_⟩
      · have hBit := hBits (64 * wdx + off) (by omega)
        unfold bitAt at hBit
        rwa [Nat.mul_add_div (by decide), Nat.div_eq_of_lt hOff,
          Nat.add_zero, Nat.mul_add_mod, Nat.mod_eq_of_lt hOff] at hBit
      · by_cases hPart : 0 < v.size_ % 64
        · right
          intro off hOff
          have hBit := hBits (64 * (v.size_ / 64) + off) (by omega)
          have hLt : off < 64 := by omega
          unfold bitAt at hBit
          rwa [Nat.mul_add_div (by decide), Nat.div_eq_of_lt hLt,
            Nat.add_zero, Nat.mul_add_mod, Nat.mod_eq_of_lt hLt] at hBit
        · exact Or.inl hPart

/- A conversion is NaN where bits are X or Z. -/
theorem ofVector4_enabled {v : VvpVector4} (h : 0 < v.size_) :
    (VvpVector2.ofVector4 v true).isNaN = decide (¬v.Defined) ∧
      (v.Defined → VvpVector2.ofVector4 v true = VvpVector2.copyFromThat v) := by
  unfold VvpVector2.ofVector4
  by_cases hDefined : v.Defined
  · rw [(hasXz_eq_false_iff h).mpr hDefined]
    simp only [Bool.true_and, Bool.false_eq_true, if_false,
      hDefined, true_implies, and_true]
    exact beq_eq_false_iff_ne.mpr (Nat.pos_iff_ne_zero.mp h)
  · have hXz : v.hasXz = true := by
      rw [← Bool.not_eq_false, hasXz_eq_false_iff h]
      exact hDefined
    rw [hXz]
    simp [hDefined, VvpVector2.isNaN, VvpVector2.empty]

end VvpVector4

end EpicSim

----
-- Native Words
----

namespace EpicSim

open PackedWords Limbs

/-
  One round of `vector4_to_value` for native words; the
  overflow is not reported to the callers here.
-/
def vector4ToValueStep (vec : VvpVector4) (st : BitVec 64 × BitVec 64)
    (idx : Nat) : Option (BitVec 64 × BitVec 64) :=
  let (res, msk) := st
  match vec.value idx with
  | .zero => some (res, msk <<< 1)
  | .one => some (if msk = 0#64 then res else res ||| msk, msk <<< 1)
  | _ => none

/- `vector4_to_value` to a native word; none on X and Z. -/
def vector4ToValue (vec : VvpVector4) : Option (BitVec 64) :=
  ((List.range vec.size_).foldlM (vector4ToValueStep vec) (0#64, 1#64)).map (fun st => st.1)

/- The loop that turns a native word into bits. -/
def valueToVector4 (wid : Nat) (val : BitVec 64) : VvpVector4 :=
  ((List.range wid).foldl (fun (st : VvpVector4 × BitVec 64) idx =>
    (st.1.setBit idx
      (if st.2 &&& 1#64 ≠ 0#64 then .one else .zero),
      st.2 >>> 1)) (VvpVector4.fill wid .x, val)).1

theorem getLsbD_one_shift {n : Nat} (off : Nat) :
    (1#64 <<< n).getLsbD off = (decide (n < 64) && decide (off = n)) := by
  rw [← BitVec.twoPow_eq, BitVec.getLsbD_twoPow]
  congr 1
  rw [decide_eq_decide]
  exact eq_comm

/- The rounds read the lowest bits into the word. -/
theorem vector4ToValueStep_fold
    (vec : VvpVector4) {n : Nat} (hSize : n ≤ vec.size_) (hWord : n ≤ 64) :
    (∀ idx < n, vec.value idx = .zero ∨ vec.value idx = .one) →
      ∃ res, (List.range n).foldlM (vector4ToValueStep vec)
        (0#64, 1#64) = some (res, 1#64 <<< n) ∧
        ∀ off, res.getLsbD off = (decide (off < n) && vec.number.testBit off) := by
  induction n with
  | zero =>
    intro _
    exact ⟨0#64, rfl, fun off => by simp⟩
  | succ n ih =>
    intro hDefined
    rcases ih (by omega) (by omega) (fun idx hIdx => hDefined idx (by omega)) with
      ⟨res, hRes, hBits⟩
    have hMask : (1#64 <<< n) <<< 1 = 1#64 <<< (n + 1) := (BitVec.shiftLeft_add _ _ _).symm
    have hNe : 1#64 <<< n ≠ 0#64 := by
      intro hZero
      have hBit := getLsbD_one_shift (n := n) n
      rw [hZero, decide_eq_true (by omega : n < 64)] at hBit
      simp at hBit
    rw [List.range_succ, List.foldlM_append, hRes]
    simp only [List.foldlM_cons,
      vector4ToValueStep, Option.bind_eq_bind, Option.bind_some]
    rcases hDefined n (Nat.lt_succ_self n) with hZero | hOne
    · refine ⟨res, by rw [hZero, hMask]; rfl, ?_⟩
      intro off
      rw [hBits]
      by_cases hOff : off = n
      · rw [hOff, VvpVector4.testBit_number, hZero]
        simp
      · congr 1
        rw [decide_eq_decide]
        omega
    · refine ⟨res ||| 1#64 <<< n, by rw [hOne, hMask, if_neg hNe]; rfl, ?_⟩
      intro off
      rw [BitVec.getLsbD_or, hBits, getLsbD_one_shift]
      by_cases hOff : off = n
      · rw [hOff, VvpVector4.testBit_number, hOne, decide_eq_true (by omega : n < 64)]
        simp
      · grind

theorem vector4ToValue_of_defined {vec : VvpVector4} (hSize : vec.size_ ≤ 64)
    (hDefined : vec.Defined) :
    ∃ val, vector4ToValue vec = some val ∧
      val.toNat = vec.number := by
  rcases vector4ToValueStep_fold vec (Nat.le_refl _) hSize hDefined with ⟨res, hRes, hBits⟩
  refine ⟨res, by rw [vector4ToValue, hRes]; rfl, ?_⟩
  apply Nat.eq_of_testBit_eq
  intro off
  rw [BitVec.testBit_toNat, hBits]
  by_cases hOff : off < vec.size_
  · rw [decide_eq_true hOff, Bool.true_and]
  · rw [decide_eq_false hOff]
    exact (Nat.testBit_lt_two_pow (Nat.lt_of_lt_of_le
      vec.number_lt (Nat.pow_le_pow_right (by decide) (Nat.not_lt.mp hOff)))).symm

/- One X or Z bit ends a loop over the bits of a vector that
   has nothing to do with such bits. -/
theorem foldlM_unknown {α : Type} {vec : VvpVector4} {step : α → Nat → Option α}
    (hStep : ∀ st bad, vec.value bad ≠ .zero → vec.value bad ≠ .one → step st bad = none)
    (hDefined : ¬vec.Defined) (st : α) : (List.range vec.size_).foldlM step st = none := by
  unfold VvpVector4.Defined at hDefined
  push Not at hDefined
  rcases hDefined with ⟨bad, hBad, hZero, hOne⟩
  have hFold : ∀ (l : List Nat) st, bad ∈ l →
      l.foldlM step st = none := by
    intro l
    induction l with
    | nil =>
      intro st hMem
      cases hMem
    | cons idx l ih =>
      intro st hMem
      rw [List.foldlM_cons]
      cases hMem with
      | head => rw [hStep st bad hZero hOne]; rfl
      | tail _ hMem =>
        cases step st idx with
        | none => rfl
        | some st' => exact ih st' hMem
  exact hFold _ st (List.mem_range.mpr hBad)

theorem vector4ToValue_of_not_defined {vec : VvpVector4} (hDefined : ¬vec.Defined) :
    vector4ToValue vec = none := by
  have hNone : (List.range vec.size_).foldlM (vector4ToValueStep vec) (0#64, 1#64) = none := by
    refine foldlM_unknown (fun st bad hZero hOne => ?_) hDefined _
    unfold vector4ToValueStep
    simp
  unfold vector4ToValue
  rw [hNone]
  rfl

/- The bits that come out are those of the word. -/
theorem valueToVector4_spec (wid : Nat) (val : BitVec 64) :
    (valueToVector4 wid val).size_ = wid ∧
      ∀ idx < wid, (valueToVector4 wid val).value idx =
        if val.toNat.testBit idx then .one else .zero := by
  have hPrefix : ∀ n ≤ wid, ∃ res,
      (List.range n).foldl (fun (st : VvpVector4 × BitVec 64) idx =>
        (st.1.setBit idx
          (if st.2 &&& 1#64 ≠ 0#64 then .one else .zero),
          st.2 >>> 1)) (VvpVector4.fill wid .x, val) =
        (res, val >>> n) ∧ res.size_ = wid ∧
      ∀ idx < n, res.value idx =
        if val.toNat.testBit idx then .one else .zero := by
    intro n hn
    induction n with
    | zero => exact ⟨VvpVector4.fill wid .x, by simp, rfl, fun idx hIdx => by cases hIdx⟩
    | succ n ih =>
      rcases ih (Nat.le_of_succ_le hn) with ⟨res, hRes, hSize, hBits⟩
      have hShift : val >>> n >>> 1 = val >>> (n + 1) := (BitVec.shiftRight_add _ _ _).symm
      have hLow : val >>> n &&& 1#64 ≠ 0#64 ↔
          val.toNat.testBit n = true := by
        rw [ne_eq, word_eq_zero_iff, BitVec.testBit_toNat]
        constructor
        · simp
        · simp
      rw [List.range_succ, List.foldl_append, hRes]
      refine ⟨res.setBit n (if val >>> n &&& 1#64 ≠ 0#64 then .one else .zero),
          by rw [← hShift]; rfl, hSize, ?_⟩
      intro idx hIdx
      rw [VvpVector4.value_setBit (by omega) _ (by omega)]
      grind
  rcases hPrefix wid (Nat.le_refl _) with ⟨res, hRes, hSize, hBits⟩
  have hSame : valueToVector4 wid val = res := by rw [valueToVector4, hRes]
  rw [hSame]
  exact ⟨hSize, hBits⟩

end EpicSim

----
-- Functors
----

namespace EpicSim

/-
  `vvp_arith_`, with the `signed_flag_` of those functors
  that have one.
-/
structure VvpArith where
  wid : Nat
  signed_flag : Bool
  op_a : VvpVector4
  op_b : VvpVector4
  x_val : VvpVector4
deriving DecidableEq

namespace VvpArith

/- The operands are Z until they arrive. -/
def new (wid : Nat) (signed_flag : Bool) : VvpArith :=
  let filled := fun val : VvpBit4 =>
    (List.range wid).foldl (fun vec idx => vec.setBit idx val) (VvpVector4.fill wid .x)
  { wid := wid
    signed_flag := signed_flag
    op_a := filled .z
    op_b := filled .z
    x_val := filled .x }

/- `dispatch_operand_`; other ports fail an assertion. -/
def dispatchOperand (arith : VvpArith) (port : Nat) (bit : VvpVector4) : Option VvpArith :=
  match port with
  | 0 => some { arith with op_a := bit }
  | 1 => some { arith with op_b := bit }
  | _ => none

/- Keep an operand, then send what the functor computes. -/
def recvVec4 (send : VvpArith → Option VvpVector4) (arith : VvpArith) (port : Nat)
    (bit : VvpVector4) : Option (VvpArith × VvpVector4) :=
  (arith.dispatchOperand port bit).bind (fun arith => (send arith).map (fun out => (arith, out)))

/- A functor after operands of its width have arrived. -/
inductive Live (wid : Nat) (signed_flag : Bool) :
    VvpArith → Prop where
| new : Live wid signed_flag (new wid signed_flag)
| dispatch {arith arith' : VvpArith} {port : Nat}
    {bit : VvpVector4} :
    Live wid signed_flag arith → bit.size_ = wid →
      arith.dispatchOperand port bit = some arith' → Live wid signed_flag arith'

theorem filled_spec (wid : Nat) (val : VvpBit4) :
    ((List.range wid).foldl (fun vec idx => vec.setBit idx val)
      (VvpVector4.fill wid .x)).size_ = wid ∧
    ∀ idx < wid,
      ((List.range wid).foldl
        (fun vec idx => vec.setBit idx val)
        (VvpVector4.fill wid .x)).value idx = val := by
  rcases VvpVector4.setBits_spec (VvpVector4.fill wid .x)
    (fun _ => val) (Nat.le_refl wid) with ⟨hSize, hBits⟩
  exact ⟨hSize, hBits⟩

/- Operands have the width, and `x_val` stays all X. -/
theorem Live.wired {wid : Nat} {signed_flag : Bool} {arith : VvpArith}
    (h : Live wid signed_flag arith) :
    arith.wid = wid ∧ arith.signed_flag = signed_flag ∧
      arith.op_a.size_ = wid ∧ arith.op_b.size_ = wid ∧
      arith.x_val.AllX wid := by
  induction h with
  | new => exact ⟨rfl, rfl, (filled_spec wid .z).1, (filled_spec wid .z).1, filled_spec wid .x⟩
  | dispatch _ hBit hDispatch ih =>
    rcases ih with ⟨hWid, hSigned, hA, hB, hX⟩
    unfold dispatchOperand at hDispatch
    grind

end VvpArith

end EpicSim
