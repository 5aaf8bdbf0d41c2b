import EpicSim.Ivl.FoldArith
import EpicSim.TgtVvp.Literals
import EpicSim.Vvp.FunMuxz
import EpicSim.Vvp.VectorArith

/-
  The code of sums and products.

  The operands are pushed and an opcode puts its result in
  their place.  A constant at the right, of which only the
  lowest 32 bits are not zero, becomes an immediate operand.
-/

----
-- Code Generation
----

namespace EpicSim

open BitVec (getLsbD_zero getLsbD_setWidth)
open VvpVector4 PackedWords Verinum

/- `%add`, `%sub` and `%mul`, their immediate forms, and the pushes
   of constants and of other operands. -/
inductive ArithCode (ι : Type) where
| vec4 (op : Vec4Op)
| load (expr : ι)
| arith (op : ArithOp)
| immediate (op : ArithOp) (vala valb : BitVec 64) (wid : Nat)

namespace ArithExpr

variable {ι : Type}

/- `test_immediate_vec4_ok`, with the bits of the number. -/
def immediateBits : ArithExpr ι → Option (List VvpBit4)
| const value =>
  let imm := value.bits.map VerinumV.bit4
  if (imm.drop 32).all (· = .zero) then some imm else none
| _ => none

/- `draw_eval_vec4`, with `draw_binary_vec4_arith` of operands of
   one width; the words of an immediate operand are scanned from
   the top bit on. -/
def draw : ArithExpr ι → List (ArithCode ι)
| const value => (drawConcatNumberVec4 (value.bits.map VerinumV.bit4) false).map .vec4
| other expr => [.load expr]
| binary op left right =>
  match right.immediateBits with
  | some imm =>
    draw left ++ [.immediate op (scanned VvpBit4.abit imm) (scanned VvpBit4.bbit imm) imm.length]
  | none => draw left ++ (draw right ++ [.arith op])

end ArithExpr

----
-- Execution
----

/- `get_immediate_rval`. -/
def getImmediateRval (vala valb : BitVec 32) (wid : Nat) : Option VvpVector4 :=
  let val := VvpVector4.fill wid .zero
  if valb = 0#32 then
    if vala = 0#32 then some val
    else val.setarray 0 (min wid 64) [vala.setWidth 64]
  else some (immediateLoop wid 0 vala valb val)

/- The operator in place. -/
def ArithOp.vector : ArithOp → VvpVector4 → VvpVector4 → Option VvpVector4
| add => VvpVector4.add
| sub => VvpVector4.sub
| mult => VvpVector4.mul

namespace ArithCode

variable {ι : Type}

/- `of_ADD`, `of_ADDI` and the others. -/
def step (env : ι → VvpVector4) : ArithCode ι → List VvpVector4 → Option (List VvpVector4)
| vec4 op, stack => op.step stack
| load expr, stack => some (env expr :: stack)
| arith op, r :: l :: stack => (op.vector l r).map (· :: stack)
| immediate op vala valb wid, l :: stack => do
  let r ← getImmediateRval (vala.setWidth 32) (valb.setWidth 32) wid
  let res ← op.vector l r
  some (res :: stack)
| _, _ => none

def run (env : ι → VvpVector4) (code : List (ArithCode ι)) (stack : List VvpVector4) :
    Option (List VvpVector4) :=
  code.foldlM (fun stack op => op.step env stack) stack

theorem run_vec4 (env : ι → VvpVector4) (code : List Vec4Op) (stack : List VvpVector4) :
    run env (code.map .vec4) stack = Vec4Op.run code stack := by
  induction code generalizing stack with
  | nil => rfl
  | cons op code ih => exact congrArg ((op.step stack).bind ·) (funext ih)

end ArithCode

----
-- Operators
----

variable {ι : Type} {wid : Nat} {signed : Bool} {b c : Bits} {v w : VvpVector4}

/- The vector has these bits. -/
structure Shows (wid : Nat) (b : Bits) (v : VvpVector4) : Prop where
  length : b.length = wid
  bits : v.bits = b.map VerinumV.bit4

theorem Shows.size (h : Shows wid b v) : v.size_ = wid := by
  rw [← length_bits, h.bits, List.length_map, h.length]

theorem Shows.value (h : Shows wid b v) {i : Nat} (hI : i < b.length) :
    v.value i = b[i].bit4 := by
  have hGet : v.bits[i]? = (b.map VerinumV.bit4)[i]? := by rw [h.bits]
  rw [List.getElem?_map, List.getElem?_eq_getElem hI, VvpVector4.bits, List.getElem?_map,
    List.getElem?_range (by rwa [h.size, ← h.length])] at hGet
  exact Option.some.inj hGet

theorem Shows.defined_iff (h : Shows wid b v) : v.Defined ↔ b.Defined := by
  rw [Bits.defined_iff_all, List.forall_mem_iff_forall_getElem]
  unfold VvpVector4.Defined
  rw [h.size, ← h.length]
  refine forall₂_congr fun i hI => ?_
  rw [h.value hI]
  cases b[i] <;> decide

theorem Shows.number (h : Shows wid b v) : v.number = b.number := by
  have hLt : v.number < 2 ^ b.length := h.length ▸ h.size ▸ VvpVector4.number_lt v
  rw [← Nat.mod_eq_of_lt hLt, ← TwosComplement.low_testBit]
  refine TwosComplement.low_congr fun i hI => ?_
  rw [testBit_number, h.value hI, Verinum.bit, Verinum.get, Bits.toVerinum,
    List.getD_eq_getElem _ _ hI]
  cases b[i] <;> decide

theorem shows_vector (op : ArithOp) (hV : Shows wid b v) (hW : Shows wid c w) :
    ∃ res, op.vector v w = some res ∧ Shows wid (Bits.arith op.eval wid b c) res := by
  have hSize : v.size_ = w.size_ := hV.size.trans hW.size.symm
  have hLeaves : ∃ res, op.vector v w = some res ∧ Leaves op.eval v w res := by
    cases op with
    | add => exact addSub_leaves hSize (by decide) wordOperation_add enters_add
    | sub => exact addSub_leaves hSize (by decide) wordOperation_sub enters_sub
    | mult => exact mul_leaves hSize
  rcases hLeaves with ⟨res, hRes, hKnown, hUnknown⟩
  refine ⟨res, hRes, Bits.length_arith _ _ _ _, ?_⟩
  rw [hV.size, hV.defined_iff, hW.defined_iff] at hKnown hUnknown
  unfold Bits.arith
  split_ifs with hBoth
  · rcases hKnown hBoth with ⟨hRange, hBits⟩
    rw [bits_eq hRange hBits, Bits.ofInt, List.map_map, hV.number, hW.number]
    refine List.map_congr_left fun i _ => ?_
    rw [Function.comp_apply, VerinumV.ofBool]
    split_ifs <;> rfl
  · rcases hUnknown hBoth with ⟨hRange, hBits⟩
    rw [bits_eq hRange hBits, List.map_const', List.length_range, Bits.unknown, List.map_replicate]
    rfl

----
-- Immediate Operands
----

theorem getImmediateRval_spec (hWid : 0 < wid) (vala valb : BitVec 32) :
    ∃ r, getImmediateRval vala valb wid = some r ∧
      r.bits = (List.range wid).map (maskBit vala valb) := by
  unfold getImmediateRval
  split_ifs with hKnown hZero
  · rcases pushiValue_spec hWid vala valb with ⟨r, hPush, hBits⟩
    rw [pushiValue, if_pos ⟨hZero, hKnown⟩] at hPush
    exact ⟨r, hPush, hBits⟩
  · have hPut := @setarrayWords_spec wid 0 (min wid 64) [vala.setWidth 64]
      (fill wid .zero).abits (fill wid .zero).bbits
      (fill wid .zero).abits_length (fill wid .zero).bbits_length (by omega) (by omega)
    refine ⟨_, if_pos (by rw [Nat.zero_add]; exact Nat.min_le_left _ _), bits_eq rfl fun i hI => ?_⟩
    have hFill := (value_of_lt (v := fill wid .zero) hI).symm.trans (value_fill hI .zero)
    rw [value_of_lt (by exact hI)]
    dsimp only
    rw [show (fill wid .zero).size_ = wid from rfl, hPut.abit, hPut.bbit, maskBit, hKnown,
      getLsbD_zero]
    by_cases hLow : i < 64
    · rw [if_pos (by omega), if_pos (by omega), bitAt, wordAt, Nat.sub_zero,
        Nat.div_eq_of_lt hLow, Nat.mod_eq_of_lt hLow, List.getD_cons_zero, getLsbD_setWidth,
        decide_eq_true hLow, Bool.true_and]
    · rw [if_neg (by omega), if_neg (by omega), hFill, BitVec.getLsbD_of_ge _ _ (by omega)]
      rfl
  · exact ⟨_, rfl, bits_immediateLoop wid vala valb⟩

/- The immediate operand is the constant. -/
theorem immediateBits_spec {right : ArithExpr ι} {imm : List VvpBit4}
    (hImm : right.immediateBits = some imm) (hWid : 0 < wid) (hRight : right.Elaborated wid signed)
    (values : ι → Bits) :
    ∃ r, getImmediateRval ((scanned VvpBit4.abit imm).setWidth 32)
        ((scanned VvpBit4.bbit imm).setWidth 32) imm.length = some r ∧
      Shows wid (right.meaning wid values) r := by
  cases right with
  | other expr => cases hImm
  | binary op left right => cases hImm
  | const value =>
    simp only [ArithExpr.immediateBits] at hImm
    split_ifs at hImm with hHigh
    cases hImm
    have hZeros : ZerosFrom 32 (value.bits.map VerinumV.bit4) := by
      intro i hI
      rw [List.getD_eq_getElem?_getD, ← Nat.add_sub_cancel' hI, ← List.getElem?_drop]
      rcases hGet : ((value.bits.map VerinumV.bit4).drop 32)[i - 32]? with _ | bit
      · rfl
      · exact of_decide_eq_true (List.all_eq_true.mp hHigh bit (List.mem_of_getElem? hGet))
    have hLength : (value.bits.map VerinumV.bit4).length = wid := by
      rw [List.length_map]
      exact hRight.len
    rcases getImmediateRval_spec (hLength ▸ hWid) _ _ with ⟨r, hR, hBits⟩
    exact ⟨r, hR, hRight.len, hBits.trans (map_scanned hZeros)⟩

----
-- Expressions
----

/- The code pushes what the expression stands for. -/
theorem run_draw (hWid : 0 < wid) {values : ι → Bits} {env : ι → VvpVector4}
    (hEnv : ∀ i, Shows wid (values i) (env i)) {expr : ArithExpr ι}
    (h : expr.Elaborated wid signed) (stack : List VvpVector4) :
    ∃ v, ArithCode.run env expr.draw stack = some (v :: stack) ∧
      Shows wid (expr.meaning wid values) v := by
  induction expr generalizing stack with
  | const value =>
    have hSome : value.bits.map VerinumV.bit4 ≠ [] := by
      rw [← List.length_pos_iff, List.length_map]
      exact hWid.trans_eq h.len.symm
    rcases (numberBuilt _).1 hSome stack with ⟨v, hRun, hBits⟩
    rw [ArithExpr.draw, ArithCode.run_vec4]
    exact ⟨v, hRun, h.len, hBits⟩
  | other expr => exact ⟨env expr, rfl, hEnv expr⟩
  | binary op left right ihLeft ihRight =>
    rcases ihLeft h.1 stack with ⟨l, hL, hLeft⟩
    rw [ArithExpr.draw]
    rcases hImm : right.immediateBits with _ | imm
    · rcases ihRight h.2 (l :: stack) with ⟨r, hR, hRight⟩
      rcases shows_vector op hLeft hRight with ⟨res, hRes, hShows⟩
      have hStep : ArithCode.step env (.arith op) (r :: l :: stack) = some (res :: stack) :=
        congrArg (Option.map (· :: stack)) hRes
      refine ⟨res, ?_, hShows⟩
      unfold ArithCode.run at hL hR ⊢
      simp [hL, hR, hStep]
    · rcases immediateBits_spec hImm hWid h.2 values with ⟨r, hR, hRight⟩
      rcases shows_vector op hLeft hRight with ⟨res, hRes, hShows⟩
      refine ⟨res, ?_, hShows⟩
      unfold ArithCode.run at hL ⊢
      rw [List.foldlM_append, hL]
      simp [ArithCode.step, hR, hRes]

/-
  The code of an elaborated expression and the code of what
  `eval_tree` leaves of it push what the expression stands for,
  whatever its operands are.
-/
theorem folded_code_exact (hWid : 0 < wid) (hRoom : wid + 1 < 2 ^ 32) {expr : ArithExpr ι}
    (h : expr.Elaborated wid signed) :
    ∃ res, expr.evalTree wid = some res ∧ res.Elaborated wid signed ∧
      ∀ (values : ι → Bits) (env : ι → VvpVector4), (∀ i, Shows wid (values i) (env i)) →
        ∀ stack, ∃ v v',
          ArithCode.run env expr.draw stack = some (v :: stack) ∧
          ArithCode.run env res.draw stack = some (v' :: stack) ∧
          Shows wid (expr.meaning wid values) v ∧ Shows wid (expr.meaning wid values) v' := by
  rcases ArithExpr.evalTree_spec hWid hRoom h with ⟨res, hRes, hElaborated, hMeaning⟩
  refine ⟨res, hRes, hElaborated, fun values env hEnv stack => ?_⟩
  rcases run_draw hWid hEnv h stack with ⟨v, hRun, hShows⟩
  rcases run_draw hWid hEnv hElaborated stack with ⟨v', hRun', hShows'⟩
  rw [hMeaning] at hShows'
  exact ⟨v, v', hRun, hRun', hShows, hShows'⟩

set_option maxRecDepth 5000 in
/- `(v + 1) - 1` of two bits is folded to `v - 0`. -/
theorem folded_code_exact_chain :
    ∃ v, ArithCode.run (fun _ : Unit => VvpVector4.fill 2 .one)
        (ArithExpr.binary .sub (.other ()) (.const ⟨[.v0, .v0], true, false, false⟩)).draw [] =
          some [v] ∧
      Shows 2 [.v1, .v1] v := by
  rcases @folded_code_exact Unit 2 false (by decide) (by decide)
    (.binary .sub (.binary .add (.other ()) (.const ⟨[.v1, .v0], true, false, false⟩))
      (.const ⟨[.v1, .v0], true, false, false⟩))
    ⟨⟨trivial, rfl, rfl, rfl⟩, rfl, rfl, rfl⟩ with ⟨res, hRes, -, hRuns⟩
  obtain rfl : .binary .sub (.other ()) (.const ⟨[.v0, .v0], true, false, false⟩) = res :=
    Option.some.inj hRes
  rcases hRuns (fun _ => [.v1, .v1]) (fun _ => VvpVector4.fill 2 .one)
    (fun _ => ⟨rfl, by decide⟩) []
    with ⟨v, v', -, hRun, -, hShows⟩
  exact ⟨v', hRun, hShows⟩

end EpicSim
