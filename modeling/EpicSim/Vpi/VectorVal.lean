import EpicSim.Vpi.SysQueue
import Mathlib.Data.List.GetD
import EpicSim.Vvp.Scalar

/-
  Vectors in the words of the VPI: bit `idx` of a vector is
  bit `idx % 32` of both halves of word `idx / 32`.
-/

namespace EpicSim

----
-- Reading
----

/- `scalar_to_bit4`, of the scalars that two bits make. -/
def scalarToBit4 (bitmask : BitVec 32) : VvpBit4 :=
  if bitmask = 0#32 then .zero
  else if bitmask = 1#32 then .one
  else if bitmask = 3#32 then .x
  else .z

/- One bit of a vector of words. -/
def vectorBit (vector : List VpiVecval) (idx : Nat) : VvpBit4 :=
  let word := vector.getD (idx / 32) ⟨0, 0⟩
  let aval := word.aval >>> (idx % 32)
  let bval := word.bval >>> (idx % 32)
  scalarToBit4 ((aval &&& 1#32) ||| ((bval <<< 1) &&& 2#32))

/- `vec4_from_vpi_value` of a `vpiVectorVal`. -/
def vec4FromVectorVal (vector : List VpiVecval) (wid : Nat) : List VvpBit4 :=
  (List.range wid).map (vectorBit vector)

/- The bit that one bit of each half stands for. -/
def bitOfVecval : Bool → Bool → VvpBit4
| false, false => .zero
| true, false => .one
| true, true => .x
| false, true => .z

theorem bitmask_eq (aval bval : BitVec 32) :
    (aval &&& 1#32) ||| ((bval <<< 1) &&& 2#32) =
      (if aval.getLsbD 0 then 1#32 else 0#32) ||| (if bval.getLsbD 0 then 2#32 else 0#32) := by
  have hTwo : (bval <<< 1) &&& 2#32 = (bval &&& 1#32) <<< 1 :=
    (BitVec.shiftLeft_and_distrib bval 1#32 1).symm
  have hOne : ∀ word : BitVec 32, word &&& 1#32 =
      BitVec.setWidth 32 (BitVec.ofBool (word.getLsbD 0)) :=
    fun word => BitVec.and_one_eq_setWidth_ofBool_getLsbD
  rw [hTwo, hOne, hOne]
  cases aval.getLsbD 0 <;> cases bval.getLsbD 0 <;> rfl

/- A bit of the vector is a bit of each half of its word. -/
theorem vectorBit_eq (vector : List VpiVecval) (idx : Nat) :
    vectorBit vector idx =
      bitOfVecval
        ((vector.getD (idx / 32) ⟨0, 0⟩).aval.getLsbD (idx % 32))
        ((vector.getD (idx / 32) ⟨0, 0⟩).bval.getLsbD (idx % 32)) := by
  unfold vectorBit
  simp only [bitmask_eq, BitVec.getLsbD_ushiftRight]
  generalize BitVec.getLsbD _ _ = a
  generalize BitVec.getLsbD _ _ = b
  cases a <;> cases b <;> rfl

----
-- Writing
----

/- One bit of a value, in the word under construction. -/
def VpiVecval.put (op : VpiVecval) (obit : Nat) (bit : VvpBit4) : VpiVecval :=
  match bit with
  | .zero => ⟨op.aval &&& ~~~(1#32 <<< obit), op.bval &&& ~~~(1#32 <<< obit)⟩
  | .one => ⟨op.aval ||| (1#32 <<< obit), op.bval &&& ~~~(1#32 <<< obit)⟩
  | .x => ⟨op.aval ||| (1#32 <<< obit), op.bval ||| (1#32 <<< obit)⟩
  | .z => ⟨op.aval &&& ~~~(1#32 <<< obit), op.bval ||| (1#32 <<< obit)⟩

/- The loop of `format_vpiVectorVal`: the words that are full,
   and the one at `op` with its next bit. -/
def formatLoop : List VvpBit4 → List VpiVecval → VpiVecval → Nat → List VpiVecval
| [], full, op, obit => if obit = 0 then full else full ++ [op]
| bit :: rest, full, op, obit =>
  let op := op.put obit bit
  if (obit + 1) % 32 = 0 then
    formatLoop rest (full ++ [op]) ⟨0#32, 0#32⟩ 0
  else formatLoop rest full op (obit + 1)

/- `format_vpiVectorVal` of a whole signal. -/
def formatVectorVal (bits : List VvpBit4) : List VpiVecval :=
  formatLoop bits [] ⟨0#32, 0#32⟩ 0

----
-- What Is Written Can Be Read
----

/- The bit of one word. -/
def VpiVecval.at (op : VpiVecval) (idx : Nat) : VvpBit4 :=
  bitOfVecval (op.aval.getLsbD idx) (op.bval.getLsbD idx)

theorem VpiVecval.at_put (op : VpiVecval) {obit : Nat} (hObit : obit < 32) (bit : VvpBit4)
    (idx : Nat) :
    (op.put obit bit).at idx =
      if idx = obit then bit else op.at idx := by
  have hOne : (1#32 <<< obit).getLsbD idx =
      decide (idx = obit) := by grind
  have hWord : ∀ word : BitVec 32,
      (word ||| (1#32 <<< obit)).getLsbD idx = (word.getLsbD idx || decide (idx = obit)) ∧
        (word &&& ~~~(1#32 <<< obit)).getLsbD idx = (word.getLsbD idx && !decide (idx = obit)) := by
    grind
  unfold VpiVecval.at
  cases bit <;>
    simp only [VpiVecval.put, (hWord _).1, (hWord _).2] <;>
    by_cases hSame : idx = obit <;>
    simp [hSame, bitOfVecval]

theorem vectorBit_at (vector : List VpiVecval) (idx : Nat) :
    vectorBit vector idx = (vector.getD (idx / 32) ⟨0, 0⟩).at (idx % 32) :=
  vectorBit_eq vector idx

/- The bits of the words before the last ones. -/
theorem vectorBit_append (full rest : List VpiVecval) {idx : Nat} (h : idx < 32 * full.length) :
    vectorBit (full ++ rest) idx = vectorBit full idx := by
  rw [vectorBit_at, vectorBit_at, List.getD_append _ _ _ _ (by omega)]

/- The bits of the word after some others. -/
theorem vectorBit_next (full : List VpiVecval) (op : VpiVecval) (rest : List VpiVecval) {k : Nat}
    (hk : k < 32) : vectorBit (full ++ op :: rest) (32 * full.length + k) = op.at k := by
  have hWord : (32 * full.length + k) / 32 = full.length := by omega
  have hBit : (32 * full.length + k) % 32 = k := by omega
  rw [vectorBit_at, hWord, hBit, List.getD_append_right _ _ _ _
    (Nat.le_refl _), Nat.sub_self, List.getD_cons_zero]

/- The bits that are written stay, and the others come to
   their places. -/
theorem vectorBit_formatLoop (bits : List VvpBit4) :
    ∀ (full : List VpiVecval) (op : VpiVecval) (obit : Nat),
      obit < 32 →
        (∀ idx < 32 * full.length + obit,
          vectorBit (formatLoop bits full op obit) idx = vectorBit (full ++ [op]) idx) ∧
        ∀ k, ∀ hk : k < bits.length,
          vectorBit (formatLoop bits full op obit) (32 * full.length + obit + k) = bits[k] := by
  induction bits with
  | nil =>
    intro full op obit _
    refine ⟨fun idx hIdx => ?_, fun k hk => absurd hk (by simp)⟩
    unfold formatLoop
    split_ifs with hZero
    · rw [vectorBit_append full [op] (by omega)]
    · rfl
  | cons bit rest ih =>
    intro full op obit hObit
    have hHere : ∀ idx < 32 * full.length + obit,
        vectorBit (full ++ [op.put obit bit]) idx = vectorBit (full ++ [op]) idx := by
      intro idx hIdx
      rcases Nat.lt_or_ge idx (32 * full.length) with hLow | hHigh
      · rw [vectorBit_append _ _ hLow, vectorBit_append _ _ hLow]
      · obtain ⟨k, rfl⟩ : ∃ k, idx = 32 * full.length + k :=
          ⟨idx - 32 * full.length, by omega⟩
        rw [vectorBit_next _ _ _ (by omega), vectorBit_next _ _ _ (by omega),
          VpiVecval.at_put op hObit, if_neg (by omega)]
    have hNew : vectorBit (full ++ [op.put obit bit]) (32 * full.length + obit) = bit := by
      rw [vectorBit_next _ _ _ hObit, VpiVecval.at_put op hObit, if_pos rfl]
    -- the rest goes on in this word or in the next one
    have hRest : ∃ full' op' obit', obit' < 32 ∧
        32 * full'.length + obit' = 32 * full.length + obit + 1 ∧
        formatLoop (bit :: rest) full op obit = formatLoop rest full' op' obit' ∧
        ∀ idx < 32 * full.length + obit + 1,
          vectorBit (full' ++ [op']) idx = vectorBit (full ++ [op.put obit bit]) idx := by
      by_cases hFull : (obit + 1) % 32 = 0
      · refine ⟨full ++ [op.put obit bit], ⟨0#32, 0#32⟩, 0, by decide, ?_, ?_, ?_⟩
        · rw [List.length_append, List.length_singleton]
          omega
        · simp only [formatLoop, if_pos hFull]
        · intro idx hIdx
          apply vectorBit_append
          rw [List.length_append, List.length_singleton]
          omega
      · refine ⟨full, op.put obit bit, obit + 1, by omega, rfl, ?_, fun idx _ => rfl⟩
        simp only [formatLoop, if_neg hFull]
    rcases hRest with ⟨full', op', obit', hLt, hPlace, hLoop, hSame⟩
    rcases ih full' op' obit' hLt with ⟨hBefore, hAfter⟩
    rw [hPlace] at hBefore hAfter
    rw [hLoop]
    constructor
    · intro idx hIdx
      rw [hBefore idx (by omega), hSame idx (by omega), hHere idx hIdx]
    · grind

/- A value that is written is read back. -/
theorem vectorBit_formatVectorVal (bits : List VvpBit4) {k : Nat} (hk : k < bits.length) :
    vectorBit (formatVectorVal bits) k = bits[k] := by
  have hLoop := (vectorBit_formatLoop bits [] ⟨0#32, 0#32⟩ 0 (by decide)).2 k hk
  simpa [formatVectorVal] using hLoop

end EpicSim
