import EpicSim.Ivl.BuiltExpr

/-
  Folding of sums and products.

  `evalTree` is `eval_tree` on the nodes of `NetEBAdd` and
  `NetEBMult`.  Two constants are folded, and a constant at
  the right of a sum is taken into the one at the right of
  the sum to its left.
-/

----
-- Folding
----

namespace EpicSim

open Verinum

/- `op_` of `NetEBAdd` and `NetEBMult`. -/
inductive ArithOp where
| add | sub | mult
deriving DecidableEq

namespace ArithOp

/- The operator of two constants. -/
def apply : ArithOp → Verinum → Verinum → Option Verinum
| add => Verinum.add
| sub => Verinum.sub
| mult => fun l r => some (l.mul r)

/- What the operator stands for. -/
def eval : ArithOp → Int → Int → Int
| add => (· + ·)
| sub => (· - ·)
| mult => (· * ·)

/- The operator of the right constants of two sums. -/
def chained : ArithOp → ArithOp → Option ArithOp
| mult, _ | _, mult => none
| op, seOp => some (if op = seOp then add else sub)

end ArithOp

/- Sums and products, of one width, of constants and of other
   expressions. -/
inductive ArithExpr (ι : Type) where
| const (value : Verinum)
| other (expr : ι)
| binary (op : ArithOp) (left right : ArithExpr ι)

namespace ArithExpr

variable {ι : Type}

/- `eval_arguments_` of two constants. -/
def fold (wid : Nat) (op : ArithOp) (lval rval : Verinum) : Option Verinum :=
  if 0 < wid ∧ lval.len = wid ∧ rval.len = wid then
    (op.apply lval rval).map fun val => val.castToWidth wid
  else none

/- The node, with its operands evaluated. -/
def evalBinary (wid : Nat) (op : ArithOp) : ArithExpr ι → ArithExpr ι → Option (ArithExpr ι)
| const lval, const rval => (fold wid op lval rval).map const
| binary seOp left (const lval), const rval =>
  match op.chained seOp with
  | some valOp => (fold wid valOp rval lval).map fun val => binary op left (const val)
  | none => some (binary op (binary seOp left (const lval)) (const rval))
| left, right => some (binary op left right)

/- `eval_tree`; none is an assertion that fails. -/
def evalTree (wid : Nat) : ArithExpr ι → Option (ArithExpr ι)
| const value => some (const value)
| other expr => some (other expr)
| binary op left right => do
  let left ← evalTree wid left
  let right ← evalTree wid right
  evalBinary wid op left right

/- What an expression stands for at run time. -/
def meaning (wid : Nat) (env : ι → Bits) : ArithExpr ι → Bits
| const value => value.bits
| other expr => env expr
| binary op left right => Bits.arith op.eval wid (meaning wid env left) (meaning wid env right)

/- A constant of the width and sign of the expression. -/
structure Sized (wid : Nat) (signed : Bool) (value : Verinum) : Prop where
  has_len : value.has_len = true
  len : value.len = wid
  has_sign : value.has_sign = signed

/- All constants have been brought to one width and sign. -/
def Elaborated (wid : Nat) (signed : Bool) : ArithExpr ι → Prop
| const value => Sized wid signed value
| other _ => True
| binary _ left right => Elaborated wid signed left ∧ Elaborated wid signed right

end ArithExpr

end EpicSim

----
-- Operators On Vectors
----

namespace EpicSim

namespace Bits

variable {wid : Nat} {f g h : Int → Int → Int} {a b c : Bits}

theorem ofInt_congr {n m : Int} (hMod : n ≡ m [ZMOD 2 ^ wid]) : ofInt wid n = ofInt wid m := by
  unfold ofInt
  rw [hMod]

theorem defined_arith_iff (hWid : 0 < wid) :
    (arith f wid a b).Defined ↔ a.Defined ∧ b.Defined := by
  unfold arith
  split_ifs with hBoth
  · exact iff_of_true (defined_ofInt _ _) hBoth
  · exact iff_of_false (not_defined_unknown hWid) hBoth

/- The operands may be replaced by their remainders. -/
theorem eval_modEq (op : ArithOp) {n x x' y y' : Int} (hX : x ≡ x' [ZMOD n])
    (hY : y ≡ y' [ZMOD n]) : op.eval x y ≡ op.eval x' y' [ZMOD n] := by
  cases op with
  | add => exact hX.add hY
  | sub => exact hX.sub hY
  | mult => exact hX.mul hY

/- The right operands of two operators are put together. -/
theorem arith_chained (hWid : 0 < wid) (op : ArithOp)
    (hSame : ∀ x y z, op.eval (g x y) z = op.eval x (h z y)) :
    arith op.eval wid (arith g wid a b) c = arith op.eval wid a (arith h wid c b) := by
  by_cases hAll : a.Defined ∧ b.Defined ∧ c.Defined
  · rcases hAll with ⟨hA, hB, hC⟩
    have hRound : ∀ n : Int, ((ofInt wid n).number : Int) ≡ n [ZMOD 2 ^ wid] := by
      intro n
      rw [number_ofInt]
      exact Int.mod_modEq _ _
    rw [arith_of_defined g wid hA hB, arith_of_defined h wid hC hB,
      arith_of_defined op.eval wid (defined_ofInt _ _) hC,
      arith_of_defined op.eval wid hA (defined_ofInt _ _)]
    apply ofInt_congr
    calc op.eval (ofInt wid (g a.number b.number)).number c.number
        ≡ op.eval (g a.number b.number) c.number [ZMOD 2 ^ wid] :=
          eval_modEq op (hRound _) (Int.ModEq.refl _)
      _ = op.eval a.number (h c.number b.number) := hSame _ _ _
      _ ≡ op.eval a.number (ofInt wid (h c.number b.number)).number [ZMOD 2 ^ wid] :=
          eval_modEq op (Int.ModEq.refl _) (hRound _).symm
  · have hLeft : ¬ ((arith g wid a b).Defined ∧ c.Defined) := by
      rw [defined_arith_iff hWid]
      tauto
    have hRight : ¬ (a.Defined ∧ (arith h wid c b).Defined) := by
      rw [defined_arith_iff hWid]
      tauto
    exact (if_neg hLeft).trans (if_neg hRight).symm

/- A two-state number of the width has the bits of its integer. -/
theorem bits_eq_ofInt {value : Verinum} (hDefined : value.Defined) (hLen : value.len = wid)
    {n : Int}
    (hMod : value.integer ≡ n [ZMOD 2 ^ wid]) : value.bits = ofInt wid n := by
  have hNumber : (n % 2 ^ wid).toNat = value.number := by
    have hLt : value.number < 2 ^ wid := hLen ▸ TwosComplement.low_lt _ _
    rw [← hMod, ← hLen, ← Verinum.number_modEq_integer value, hLen,
      Int.emod_eq_of_lt (by omega) (by exact_mod_cast hLt), Int.toNat_natCast]
  apply List.ext_getElem
  · rw [length_ofInt]
    exact hLen
  · intro i hI _
    have hGet := Verinum.get_of_defined hDefined hI
    rw [Verinum.get, List.getD_eq_getElem _ _ hI] at hGet
    simp only [hGet, ofInt, List.getElem_map, List.getElem_range, hNumber]
    exact congrArg VerinumV.ofBool (TwosComplement.testBit_low hI).symm

end Bits

end EpicSim

----
-- Operators On Constants
----

namespace EpicSim

open Verinum

/- `(x + y) - z` is `x - (z - y)`, and so on. -/
theorem ArithOp.chained_spec {op seOp valOp : ArithOp} (h : op.chained seOp = some valOp)
    (x y z : Int) :
    op.eval (seOp.eval x y) z = op.eval x (valOp.eval z y) := by
  cases op <;> cases seOp <;> cases h <;> simp [ArithOp.eval] <;> omega

namespace ArithExpr

variable {ι : Type} {wid : Nat} {signed : Bool} {lval rval : Verinum} (hWid : 0 < wid)
  (hRoom : wid + 1 < 2 ^ 32)

include hRoom

/- The result where an operand is not known. -/
theorem apply_unknown (op : ArithOp) (hL : Sized wid signed lval)
    (hR : Sized wid signed rval) (hNot : ¬ (lval.Defined ∧ rval.Defined)) :
    ∃ val, op.apply lval rval = some val ∧ Sized wid signed val ∧ val.bits = Bits.unknown wid := by
  have hFlag : (!lval.isDefined || !rval.isDefined) = true := by
    rw [← Bool.not_and, Bool.not_eq_true', Bool.eq_false_iff, ne_eq, Bool.and_eq_true]
    exact hNot
  have hWidth : unsigned wid = wid := unsigned_of_lt (by omega)
  have hBits : (undefinedResult wid true signed).bits = Bits.unknown wid :=
    congrArg (List.replicate · VerinumV.vx) hWidth
  refine ⟨undefinedResult wid true signed, ?_, ⟨rfl, ?_, rfl⟩, hBits⟩
  · cases op <;> simp only [ArithOp.apply, Verinum.add, Verinum.sub, Verinum.mul, hFlag, if_true,
      hL.has_len, hR.has_len, hL.len, hR.len, hL.has_sign, hR.has_sign, Bool.and_self, max_self,
      hWidth]
  · rw [len, hBits, Bits.length_unknown]

include hWid

/- The result of two known constants of the width. -/
theorem apply_known (op : ArithOp) (hL : Sized wid signed lval) (hR : Sized wid signed rval)
    (hLeft : lval.Defined) (hRight : rval.Defined) :
    ∃ val, op.apply lval rval = some val ∧ Sized wid signed val ∧ val.Defined ∧
      val.integer ≡ op.eval lval.integer rval.integer [ZMOD 2 ^ wid] := by
  have hOperands : Operands lval rval :=
    ⟨hLeft, hRight, hL.len ▸ hWid, hR.len ▸ hWid, hL.has_sign.trans hR.has_sign.symm⟩
  have hMax : max lval.len rval.len = wid := by rw [hL.len, hR.len, max_self]
  cases op with
  | add =>
    rcases add_spec hOperands (by rwa [hMax]) with ⟨val, hVal, hSum⟩
    rw [hMax, hL.has_len, hR.has_len, hL.has_sign] at hSum
    rcases hSum.modulo rfl with ⟨hLen, hMod⟩
    exact ⟨val, hVal, ⟨hSum.has_len, hLen, hSum.has_sign⟩, hSum.defined, hMod⟩
  | sub =>
    rcases sub_spec hOperands (by rwa [hMax]) with ⟨val, hVal, hSum⟩
    rw [hMax, hL.has_len, hR.has_len, hL.has_sign] at hSum
    rcases hSum.modulo (Bool.and_false signed) with ⟨hLen, hMod⟩
    exact ⟨val, hVal, ⟨hSum.has_len, hLen, hSum.has_sign⟩, hSum.defined, hMod⟩
  | mult =>
    rcases mul_spec hOperands with ⟨val, hVal, hKnown, hLen, hHasLen, hSign, hMod⟩
    rw [hL.has_len, hR.has_len] at hLen hHasLen
    have hWidth : val.len = wid := by
      rw [hLen, Bool.and_self, if_pos rfl, hMax, unsigned_of_lt (by omega)]
    rw [hWidth] at hMod
    exact ⟨val, congrArg some (hVal.trans ((trimVnum_spec hKnown).sized hHasLen)),
      ⟨hHasLen, hWidth, hSign.trans hL.has_sign⟩, hKnown, hMod⟩

/- The assertions hold, the cast changes nothing, and the bits are
   those that the operator makes at run time. -/
theorem fold_spec (op : ArithOp) (hL : Sized wid signed lval) (hR : Sized wid signed rval) :
    ∃ val, fold wid op lval rval = some val ∧ Sized wid signed val ∧
      val.bits = Bits.arith op.eval wid lval.bits rval.bits := by
  have hApply : ∃ val, op.apply lval rval = some val ∧ Sized wid signed val ∧
      val.bits = Bits.arith op.eval wid lval.bits rval.bits := by
    by_cases hBoth : lval.Defined ∧ rval.Defined
    · rcases apply_known hWid hRoom op hL hR hBoth.1 hBoth.2 with ⟨val, hVal, hSized, hKnown, hMod⟩
      refine ⟨val, hVal, hSized, ?_⟩
      rw [Bits.arith_of_defined op.eval wid hBoth.1 hBoth.2]
      refine Bits.bits_eq_ofInt hKnown hSized.len (hMod.trans (Bits.eval_modEq op ?_ ?_))
      · rw [← hL.len]
        exact (number_modEq_integer lval).symm
      · rw [← hR.len]
        exact (number_modEq_integer rval).symm
    · rcases apply_unknown hRoom op hL hR hBoth with ⟨val, hVal, hSized, hBits⟩
      exact ⟨val, hVal, hSized, hBits.trans (if_neg hBoth).symm⟩
  rcases hApply with ⟨val, hVal, hSized, hBits⟩
  refine ⟨val, ?_, hSized, hBits⟩
  have hCast : val.castToWidth wid = val := by
    rw [castToWidth, hSized.has_len, hSized.len, beq_self_eq_true, Bool.and_self, if_pos rfl]
  rw [fold, if_pos ⟨hWid, hL.len, hR.len⟩, hVal, Option.map_some, hCast]

----
-- The Pass
----

variable {left right expr : ArithExpr ι}

theorem evalBinary_spec (op : ArithOp) (hLeft : left.Elaborated wid signed)
    (hRight : right.Elaborated wid signed) :
    ∃ res, evalBinary wid op left right = some res ∧ res.Elaborated wid signed ∧
      ∀ env, res.meaning wid env = (binary op left right).meaning wid env := by
  unfold evalBinary
  split
  next lval rval =>
    rcases fold_spec hWid hRoom op hLeft hRight with ⟨val, hVal, hSized, hBits⟩
    exact ⟨const val, by rw [hVal]; rfl, hSized, fun _ => hBits⟩
  next seOp inner lval rval =>
    rcases hChained : op.chained seOp with _ | valOp
    · exact ⟨_, rfl, ⟨hLeft, hRight⟩, fun _ => rfl⟩
    · rcases fold_spec hWid hRoom valOp hRight hLeft.2 with ⟨val, hVal, hSized, hBits⟩
      refine ⟨binary op inner (const val), by simp only [hVal]; rfl, ⟨hLeft.1, hSized⟩,
        fun env => ?_⟩
      simp only [ArithExpr.meaning]
      rw [hBits, Bits.arith_chained hWid op (ArithOp.chained_spec hChained)]
  next => exact ⟨binary op left right, rfl, ⟨hLeft, hRight⟩, fun _ => rfl⟩

/- `eval_tree` keeps what an elaborated expression stands for. -/
theorem evalTree_spec (h : expr.Elaborated wid signed) :
    ∃ res, evalTree wid expr = some res ∧ res.Elaborated wid signed ∧
      ∀ env, res.meaning wid env = expr.meaning wid env := by
  induction expr with
  | const value => exact ⟨const value, rfl, h, fun _ => rfl⟩
  | other expr => exact ⟨other expr, rfl, trivial, fun _ => rfl⟩
  | binary op left right ihLeft ihRight =>
    rcases ihLeft h.1 with ⟨l, hL, hLeft, hMeanLeft⟩
    rcases ihRight h.2 with ⟨r, hR, hRight, hMeanRight⟩
    rcases evalBinary_spec hWid hRoom op hLeft hRight with ⟨res, hRes, hElaborated, hMean⟩
    refine ⟨res, ?_, hElaborated, fun env => ?_⟩
    · simp only [evalTree, hL, hR, Option.bind_eq_bind, Option.bind_some, hRes]
    · simp only [hMean, ArithExpr.meaning, hMeanLeft, hMeanRight]

end ArithExpr

end EpicSim
