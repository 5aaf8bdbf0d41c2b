import EpicSim.Ivl.Netmisc
import EpicSim.Ivl.VerinumNative

/-
  What the expressions built for index arithmetic denote.

  A padded operand keeps its integer; a sum or a difference is
  right modulo the width of its node, and denotes the integer
  meant exactly where that fits the width and the sign.
-/

----
-- Bits Of A Long
----

namespace EpicSim

open TwosComplement

theorem bitLoop_bound {rounds arg : Nat} (h : arg < 2 ^ rounds) : arg < 2 ^ bitLoop rounds arg := by
  induction rounds generalizing arg with
  | zero =>
    have hZero : arg = 0 := by simpa using h
    rw [hZero]
    exact Nat.one_pos
  | succ rounds ih =>
    unfold bitLoop
    grind

/- A number in range needs no more than the bits counted. -/
theorem bitsFor_bounds {arg : Int} (hLow : -2 ^ 63 ≤ arg) (hHigh : arg < 2 ^ 63) {n : Nat}
    (h : bitsFor arg ≤ n) : -2 ^ n ≤ 2 * arg ∧ arg < 2 ^ n := by
  have hCast := cast_two_pow n
  unfold bitsFor at h
  split_ifs at h with hNeg
  · have hBound := @bitLoop_bound 64 (-arg - 1).toNat (by omega)
    have hMono : 2 ^ (bitLoop 64 (-arg - 1).toNat + 1) ≤ 2 ^ n := Nat.pow_le_pow_right (by omega) h
    omega
  · have hBound := @bitLoop_bound 64 arg.toNat (by omega)
    have hMono : 2 ^ bitLoop 64 arg.toNat ≤ 2 ^ n := Nat.pow_le_pow_right (by omega) h
    omega

theorem long_of_range {n : Int} (hLow : -2 ^ 63 ≤ n) (hHigh : n < 2 ^ 63) :
    long n = some n := if_pos ⟨hLow, hHigh⟩

theorem numBits_of_range {arg : Int} (hLow : -2 ^ 63 < arg) : numBits arg = some (bitsFor arg) := by
  unfold numBits
  split_ifs with hNeg
  · rw [long_of_range (by omega) (by omega)]
    rfl
  · rfl

theorem toLong_range (n : Int) : -2 ^ 63 ≤ toLong n ∧ toLong n < 2 ^ 63 := by
  unfold toLong
  split_ifs <;> omega

theorem toLong_self {n : Int} (hLow : -2 ^ 63 ≤ n) (hHigh : n < 2 ^ 63) : toLong n = n := by
  unfold toLong
  split_ifs <;> omega

end EpicSim

----
-- Reading At A Width
----

namespace EpicSim

open TwosComplement

/- An integer read back at a width and a sign. -/
def cutTo (signed : Bool) (width : Nat) (n : Int) : Int :=
  if signed ∧ 2 ^ width ≤ 2 * (n % 2 ^ width) then
    n % 2 ^ width - 2 ^ width
  else n % 2 ^ width

theorem cutTo_fits (signed : Bool) (width : Nat) (n : Int) :
    Fits signed width (cutTo signed width n) := by
  have hPos : (0 : Int) < 2 ^ width := by exact_mod_cast Nat.two_pow_pos width
  have hLow := Int.emod_nonneg n hPos.ne'
  have hHigh := Int.emod_lt_of_pos n hPos
  unfold Fits cutTo
  cases signed with
  | true =>
    simp only [true_and]
    split_ifs <;> omega
  | false =>
    exact ⟨hLow, hHigh⟩

theorem cutTo_modEq (signed : Bool) (width : Nat) (n : Int) :
    n ≡ cutTo signed width n [ZMOD 2 ^ width] := by
  unfold cutTo
  split_ifs
  · have hMod := (Int.mod_modEq n (2 ^ width)).sub
      (Int.modEq_zero_iff_dvd.mpr (dvd_refl (2 ^ width : Int)))
    rw [Int.sub_zero] at hMod
    exact hMod.symm
  · exact (Int.mod_modEq n _).symm

theorem cutTo_of_fits {signed : Bool} {width : Nat} {n : Int} (h : Fits signed width n) :
    cutTo signed width n = n :=
  (cutTo_fits signed width n).eq h (cutTo_modEq signed width n).symm

/- A small number that is not negative fits any sign. -/
theorem fits_of_nonneg {width : Nat} {n : Int} (signed : Bool) (hLow : 0 ≤ n)
    (hHigh : 2 * n < 2 ^ width) : Fits signed width n := by
  unfold Fits
  split_ifs <;> omega

namespace Bits

theorem defined_iff_all (bits : Bits) : bits.Defined ↔ ∀ b ∈ bits, b = .v0 ∨ b = .v1 := by
  unfold Defined Verinum.isDefined toVerinum
  rw [List.all_eq_true]
  refine forall₂_congr fun b _ => ?_
  cases b <;> decide

theorem padTo_of_le {bits : Bits} {width : Nat} (signed : Bool) (h : width ≤ bits.length) :
    bits.padTo signed width = bits.take width := by
  unfold padTo
  rw [Nat.sub_eq_zero_of_le h, List.replicate_zero, List.append_nil]

theorem padTo_self (signed : Bool) (bits : Bits) : bits.padTo signed bits.length = bits := by
  rw [padTo_of_le signed (Nat.le_refl _), List.take_length]

/- Padding hides only the bits that it cuts off. -/
theorem defined_padTo_iff (signed : Bool) (width : Nat) (bits : Bits) :
    (bits.padTo signed width).Defined ↔
      Defined (bits.take width) := by
  rcases Nat.le_total width bits.length with hCut | hPad
  · rw [padTo_of_le signed hCut]
  · rw [List.take_of_length_le hPad]
    refine ⟨fun h => ?_, fun h => defined_padTo h signed width⟩
    rw [defined_iff_all] at h ⊢
    intro b hMem
    refine h b (List.mem_append_left _ ?_)
    rw [List.take_of_length_le hPad]
    exact hMem

theorem not_defined_unknown {width : Nat} (h : 0 < width) : ¬ (unknown width).Defined := by
  rw [defined_iff_all]
  intro hAll
  rcases hAll .vx (List.mem_replicate.mpr ⟨by omega, rfl⟩) with hZero | hOne
  · cases hZero
  · cases hOne

theorem take_unknown (n width : Nat) : (unknown width).take n = unknown (min n width) :=
  List.take_replicate

end Bits

end EpicSim

----
-- Values Of Built Expressions
----

namespace EpicSim

open TwosComplement

namespace NetExpr

/- An expression whose constant is not an unbased literal. -/
def Sized : NetExpr → Prop
| .const value => value.is_single = false
| _ => True

/- A two-state expression of a width and sign that stands for
   an integer modulo its width. -/
structure Stands (env : Env) (expr : NetExpr) (width : Nat) (signed : Bool) (n : Int) : Prop where
  exprWidth : expr.exprWidth = width
  hasSign : expr.hasSign = signed
  defined : (expr.eval env).Defined
  modEq : expr.denotes env ≡ n [ZMOD 2 ^ width]

theorem denotes_fits (env : Env) (expr : NetExpr) :
    Fits expr.hasSign expr.exprWidth (expr.denotes env) := by
  rw [← length_eval env expr]
  exact Bits.integer_fits _ _

/- What a sum or difference denotes. -/
theorem denotes_add_iff {env : Env} {op : AddOp} {l r : NetExpr} {width : Nat}
    {signed : Bool} {a b m : Int} (hL : (l.eval env).Defined)
    (hR : (r.eval env).Defined) (hA : l.denotes env ≡ a [ZMOD 2 ^ width])
    (hB : r.denotes env ≡ b [ZMOD 2 ^ width]) :
    (NetExpr.add op l r width signed).denotes env = m ↔
      evalAdd op a b ≡ m [ZMOD 2 ^ width] ∧
        Fits signed width m := by
  have hLeft := (Bits.number_padTo hL l.hasSign width).trans hA
  have hRight := (Bits.number_padTo hR r.hasSign width).trans hB
  have hSum : evalAdd op
      ((l.eval env).padTo l.hasSign width).number
      ((r.eval env).padTo r.hasSign width).number ≡ evalAdd op a b [ZMOD 2 ^ width] := by
    cases op with
    | add => exact hLeft.add hRight
    | sub => exact hLeft.sub hRight
  unfold denotes
  rw [eval, Bits.arith_of_defined _ _
    (Bits.defined_padTo hL _ _) (Bits.defined_padTo hR _ _),
    Bits.integer_ofInt_iff]
  exact and_congr_left fun _ => ⟨fun h => hSum.symm.trans h, fun h => hSum.trans h⟩

variable {wid : Nat} {base : NetExpr} {env : Env} {width : Nat}
  {signed : Bool}

theorem bits_padToWidth {value : Verinum} (hDefined : value.Defined)
    (hPlain : value.is_single = false) (hLt : value.len < wid) :
    (value.padToWidth wid).bits = Bits.padTo value.has_sign wid value.bits := by
  have hTake : value.bits.take wid = value.bits := List.take_of_length_le (Nat.le_of_lt hLt)
  unfold Bits.padTo Verinum.padToWidth
  rw [if_neg (Nat.not_le_of_lt hLt), hTake]
  by_cases hEmpty : value.len = 0
  · have hNil : value.bits = [] :=
      List.length_eq_zero_iff.mp hEmpty
    rw [if_pos hEmpty, hNil]
    unfold Bits.top
    cases value.has_sign <;> simp
  · rw [if_neg hEmpty]
    have hLast : value.len - 1 < value.bits.length := by
      have hLen : value.bits.length = value.len := rfl
      omega
    have hTop := (Verinum.defined_iff value).mp hDefined (value.len - 1) hLast
    have hSame : Bits.top value.bits = value.get (value.len - 1) := by
      unfold Verinum.get Bits.top
      rw [List.getD_eq_getElem _ _ hLast]
      exact List.getD_eq_getElem _ _ hLast
    rw [hSame, hPlain]
    generalize value.get (value.len - 1) = top at hTop ⊢
    rcases hTop with rfl | rfl <;>
      cases value.has_sign <;> cases value.has_len <;> rfl

theorem padToWidth_of_not_const (hNot : ∀ value, base ≠ .const value) (hLt : base.exprWidth < wid) :
    base.padToWidth wid = .pad base wid base.hasSign := by
  unfold padToWidth
  rw [if_neg (Nat.not_le_of_lt hLt)]
  cases base with
  | const value => exact absurd rfl (hNot value)
  | _ => rfl

theorem padToWidth_const {value : Verinum} (hLt : value.len < wid) :
    (NetExpr.const value).padToWidth wid = .const (value.padToWidth wid) := by
  have hNot : ¬ wid ≤ (NetExpr.const value).exprWidth := by
    rw [exprWidth]
    omega
  unfold padToWidth
  rw [if_neg hNot]

theorem exprWidth_const (value : Verinum) : (NetExpr.const value).exprWidth = value.len := by
  rw [exprWidth]

theorem eval_padToWidth (hDefined : (base.eval env).Defined) (hSized : base.Sized)
    (hLt : base.exprWidth < wid) :
    (base.padToWidth wid).eval env = (base.eval env).padTo base.hasSign wid := by
  by_cases hConst : ∃ value, base = .const value
  · rcases hConst with ⟨value, rfl⟩
    rw [padToWidth_const hLt]
    exact bits_padToWidth hDefined hSized hLt
  · rw [padToWidth_of_not_const (fun value hEq => hConst ⟨value, hEq⟩) hLt, eval]

theorem hasSign_padToWidth (hLt : base.exprWidth < wid) :
    (base.padToWidth wid).hasSign = base.hasSign := by
  by_cases hConst : ∃ value, base = .const value
  · rcases hConst with ⟨value, rfl⟩
    rw [padToWidth_const hLt]
    unfold Verinum.padToWidth
    split_ifs <;> rfl
  · rw [padToWidth_of_not_const (fun value hEq => hConst ⟨value, hEq⟩) hLt]
    rfl

theorem stands_padToWidth (hDefined : (base.eval env).Defined) (hSized : base.Sized)
    (hLt : base.exprWidth < wid) :
    (base.padToWidth wid).Stands env wid base.hasSign (base.denotes env) := by
  have hEval := eval_padToWidth hDefined hSized hLt
  have hWidth : (base.padToWidth wid).exprWidth = wid := by
    rw [← length_eval env, hEval, Bits.length_padTo]
  have hSign := hasSign_padToWidth hLt
  refine ⟨hWidth, hSign, ?_, ?_⟩
  · rw [hEval]
    exact Bits.defined_padTo hDefined _ _
  · unfold denotes
    rw [hEval, hSign, Bits.integer_padTo hDefined (by rw [length_eval]; exact Nat.le_of_lt hLt)]

/- Reading a vector as signed keeps it modulo its width. -/
theorem Stands.castSigned {expr : NetExpr} {n : Int} (h : expr.Stands env width signed n) :
    (expr.castSigned width).Stands env width true n := by
  have hLength : (expr.eval env).length = width := by rw [length_eval, h.exprWidth]
  refine ⟨by unfold NetExpr.castSigned; rw [NetExpr.exprWidth], rfl, ?_, ?_⟩
  · exact Bits.defined_padTo h.defined _ _
  · have hOld := Bits.number_modEq expr.hasSign (expr.eval env)
    have hNew := Bits.number_padTo h.defined true width
    have hRead := Bits.number_modEq true ((expr.eval env).padTo true width)
    have hTrue := Bits.number_modEq true (expr.eval env)
    rw [hLength] at hOld hTrue
    rw [Bits.length_padTo] at hRead
    exact hRead.symm.trans (hNew.trans (hTrue.symm.trans (hOld.trans h.modEq)))

/- A cast of an expression that may be unsigned. -/
theorem Stands.castIf {expr : NetExpr} {n : Int} (h : expr.Stands env width signed n)
    (flag : Bool) :
    (if (flag && !expr.hasSign) = true then
        expr.castSigned width
      else expr).Stands env width (signed || flag) n := by
  rw [h.hasSign]
  cases signed with
  | true => cases flag <;> exact h
  | false =>
    cases flag with
    | true => exact h.castSigned
    | false => exact h

/- The constant has the 64 bits of the value. -/
theorem longConst_spec (env : Env) (expr : NetExpr) (val : Int) :
    ((expr.longConst val).eval env).Defined ∧
      (expr.longConst val).denotes env ≡ val % 2 ^ 64 [ZMOD 2 ^ expr.exprWidth] := by
  have hBits : ((Verinum.ofUInt64 (BitVec.ofInt 64 val)
      expr.exprWidth).withSign expr.hasSign).HasBits expr.exprWidth (BitVec.ofInt 64 val).getLsbD :=
    Verinum.hasBits_of_map rfl
  have hLow : low (BitVec.ofInt 64 val).getLsbD expr.exprWidth =
      (BitVec.ofInt 64 val).toNat % 2 ^ expr.exprWidth :=
    low_testBit _ _
  have hNat : ((BitVec.ofInt 64 val).toNat : Int) = val % 2 ^ 64 := by
    rw [BitVec.toNat_ofInt]
    omega
  refine ⟨hBits.defined, ?_⟩
  have hNumber := Verinum.number_modEq_integer
    ((Verinum.ofUInt64 (BitVec.ofInt 64 val) expr.exprWidth).withSign expr.hasSign)
  rw [hBits.number, hBits.len_eq, hLow] at hNumber
  refine hNumber.symm.trans ?_
  rw [← hNat]
  push_cast
  exact Int.mod_modEq _ _

section

variable {env : Env} {expr : NetExpr} {width : Nat} {signed : Bool} {n val m : Int}
  (h : expr.Stands env width signed n)

include h

theorem denotes_makeSubExpr_iff :
    (makeSubExpr val expr).denotes env = m ↔
      val % 2 ^ 64 - n ≡ m [ZMOD 2 ^ width] ∧
        Fits signed width m := by
  rcases longConst_spec env expr val with ⟨hDefined, hConst⟩
  rw [h.exprWidth] at hConst
  unfold makeSubExpr
  rw [h.exprWidth, h.hasSign]
  exact denotes_add_iff hDefined h.defined hConst h.modEq

/- A summand that is a `long` other than the least one. -/
theorem makeAddExpr_iff (hNonzero : val ≠ 0) (hLow : -2 ^ 63 < val) (hHigh : val < 2 ^ 63) :
    (∃ e, expr.makeAddExpr val = some e ∧ e.denotes env = m) ↔
      n + val ≡ m [ZMOD 2 ^ width] ∧ Fits signed width m := by
  unfold makeAddExpr
  rw [if_neg hNonzero]
  split_ifs with hNeg
  · rcases longConst_spec env expr (-val) with ⟨hDefined, hConst⟩
    rw [Int.emod_eq_of_lt (by omega) (by omega), h.exprWidth] at hConst
    rw [long_of_range (by omega) (by omega), h.exprWidth, h.hasSign]
    have hIff := @denotes_add_iff _ .sub _ _ _ signed _ _ m h.defined hDefined h.modEq hConst
    have hSum : evalAdd .sub n (-val) = n + val := by
      change n - -val = n + val
      omega
    rw [hSum] at hIff
    simpa using hIff
  · rcases longConst_spec env expr val with ⟨hDefined, hConst⟩
    rw [Int.emod_eq_of_lt (by omega) (by omega), h.exprWidth] at hConst
    rw [h.exprWidth, h.hasSign]
    have hIff := @denotes_add_iff _ .add _ _ _ signed _ _ m h.defined hDefined h.modEq hConst
    have hSum : evalAdd .add n val = n + val := rfl
    rw [hSum] at hIff
    simpa using hIff

end

theorem denotes_add {op : AddOp} {l r : NetExpr} {a b : Int}
    (hL : (l.eval env).Defined) (hR : (r.eval env).Defined)
    (hA : l.denotes env ≡ a [ZMOD 2 ^ width]) (hB : r.denotes env ≡ b [ZMOD 2 ^ width]) :
    (NetExpr.add op l r width signed).denotes env = cutTo signed width (evalAdd op a b) :=
  (denotes_add_iff hL hR hA hB).mpr ⟨cutTo_modEq _ _ _, cutTo_fits _ _ _⟩

theorem padToWidth_of_le (h : wid ≤ base.exprWidth) : base.padToWidth wid = base := if_pos h

/- A widened expression that is not a constant. -/
theorem eval_padToWidth_of_not_const (env : Env) (hNot : ∀ value, base ≠ .const value)
    (hLe : base.exprWidth ≤ wid) :
    (base.padToWidth wid).eval env = (base.eval env).padTo base.hasSign wid ∧
      (base.padToWidth wid).hasSign = base.hasSign ∧
      ∀ value, base.padToWidth wid ≠ .const value := by
  rcases Nat.eq_or_lt_of_le hLe with hSame | hLt
  · rw [padToWidth_of_le (Nat.le_of_eq hSame.symm)]
    refine ⟨?_, rfl, hNot⟩
    rw [← hSame, ← length_eval env, Bits.padTo_self]
  · rw [padToWidth_of_not_const hNot hLt]
    refine ⟨by rw [eval], rfl, fun value hEq => ?_⟩
    cases hEq

theorem exprWidth_padToWidth_of_not_const (hNot : ∀ value, base ≠ .const value)
    (hLe : base.exprWidth ≤ wid) : (base.padToWidth wid).exprWidth = wid := by
  rw [← length_eval fun _ _ => .v0, (eval_padToWidth_of_not_const _ hNot hLe).1, Bits.length_padTo]

end NetExpr

end EpicSim
