import EpicSim.Ivl.UnpackedAddress

/-
  Built expressions whose integer is known.

  Each function that builds a node of the index arithmetic has
  a rule for the width, the sign and the integer of what it
  builds; a sum or a difference is cut to its width, a product
  is not.
-/

----
-- Cutting
----

namespace EpicSim

open TwosComplement

/- What is cut is seen modulo the width only. -/
theorem cutTo_congr {signed : Bool} {width : Nat} {n m : Int} (h : n ≡ m [ZMOD 2 ^ width]) :
    cutTo signed width n = cutTo signed width m := by
  have hMod : n % 2 ^ width = m % 2 ^ width := h
  unfold cutTo
  rw [hMod]

/- A product of numbers that fit their widths. -/
theorem fits_mul {signed : Bool} {width bits : Nat} {n val : Int}
    (h : Fits signed width n) (hLow : 0 < val) (hHigh : val ≤ 2 ^ bits) :
    Fits signed (width + bits) (n * val) := by
  have hPow : (2 : Int) ^ (width + bits) = 2 ^ width * 2 ^ bits := pow_add 2 width bits
  have hPos : (0 : Int) < 2 ^ width := by exact_mod_cast Nat.two_pow_pos width
  have hRoom : (2 : Int) ^ width * val ≤ 2 ^ width * 2 ^ bits :=
    Int.mul_le_mul_of_nonneg_left hHigh (Int.le_of_lt hPos)
  unfold Fits at h ⊢
  split_ifs at h ⊢
  · have hTwice : 2 * (n * val) = 2 * n * val := by ring
    have hUp := Int.mul_lt_mul_of_pos_right h.2 hLow
    have hDown := Int.mul_le_mul_of_nonneg_right h.1 (Int.le_of_lt hLow)
    rw [Int.neg_mul] at hDown
    omega
  · have hUp := Int.mul_lt_mul_of_pos_right h.2 hLow
    exact ⟨Int.mul_nonneg h.1 (Int.le_of_lt hLow), by omega⟩

end EpicSim

----
-- Known Expressions
----

namespace EpicSim

open TwosComplement

namespace NetExpr

/- A two-state expression of a width, a sign and an integer. -/
structure Known (env : Env) (expr : NetExpr) (width : Nat) (signed : Bool) (n : Int) : Prop where
  exprWidth : expr.exprWidth = width
  hasSign : expr.hasSign = signed
  sized : expr.Sized
  defined : (expr.eval env).Defined
  denotes : expr.denotes env = n

variable {env : Env} {expr other : NetExpr}
variable {width : Nat} {signed : Bool} {n : Int}

theorem known_self (hSized : expr.Sized) (hDefined : (expr.eval env).Defined) :
    expr.Known env expr.exprWidth expr.hasSign (expr.denotes env) :=
  ⟨rfl, rfl, hSized, hDefined, rfl⟩

theorem Known.fits (h : expr.Known env width signed n) : Fits signed width n := by
  rw [← h.denotes, ← h.hasSign, ← h.exprWidth]
  exact denotes_fits env expr

theorem sized_padToWidth {wid : Nat} (hSized : expr.Sized) : (expr.padToWidth wid).Sized := by
  unfold padToWidth
  split_ifs
  · exact hSized
  · cases expr with
    | const value =>
      change (value.padToWidth wid).is_single = false
      unfold Verinum.padToWidth
      split_ifs
      · exact hSized
      · rfl
      · rfl
    | _ => trivial

/- A widened operand keeps its integer. -/
theorem Known.padToWidth (h : expr.Known env width signed n) {wid : Nat} (hLe : width ≤ wid) :
    (expr.padToWidth wid).Known env wid signed n := by
  have hWidth := h.exprWidth
  rcases Nat.eq_or_lt_of_le hLe with hSame | hLt
  · rw [padToWidth_of_le (by omega), ← hSame]
    exact h
  · have hStands := @stands_padToWidth wid _ _ h.defined h.sized (by omega)
    rw [h.hasSign, h.denotes] at hStands
    refine ⟨hStands.exprWidth, hStands.hasSign, sized_padToWidth h.sized, hStands.defined, ?_⟩
    have hFits := denotes_fits env (expr.padToWidth wid)
    rw [hStands.hasSign, hStands.exprWidth] at hFits
    exact hFits.eq (h.fits.mono hLe) hStands.modEq

/- A vector read as signed at its own width. -/
theorem Known.castSigned (h : expr.Known env width signed n) :
    (expr.castSigned width).Known env width true (cutTo true width n) := by
  have hStands : expr.Stands env width signed n :=
    ⟨h.exprWidth, h.hasSign, h.defined, by rw [h.denotes]⟩
  have hCast := hStands.castSigned
  refine ⟨hCast.exprWidth, hCast.hasSign, trivial, hCast.defined, ?_⟩
  have hFits := denotes_fits env (expr.castSigned width)
  exact hFits.eq (cutTo_fits _ _ _) (hCast.modEq.trans (cutTo_modEq _ _ _))

/- A sum or a difference. -/
theorem known_add {op : AddOp} {l r : NetExpr} {a b : Int}
    (hL : (l.eval env).Defined) (hR : (r.eval env).Defined)
    (hA : l.denotes env ≡ a [ZMOD 2 ^ width]) (hB : r.denotes env ≡ b [ZMOD 2 ^ width]) :
    (NetExpr.add op l r width signed).Known env width signed
      (cutTo signed width (evalAdd op a b)) := by
  refine ⟨by rw [NetExpr.exprWidth], rfl, trivial, ?_, denotes_add hL hR hA hB⟩
  rw [eval, Bits.arith_of_defined _ _ (Bits.defined_padTo hL _ _) (Bits.defined_padTo hR _ _)]
  exact Bits.defined_ofInt _ _

theorem Known.makeSubExpr (h : expr.Known env width signed n) (val : Int) :
    (NetExpr.makeSubExpr val expr).Known env width signed
      (cutTo signed width (val % 2 ^ 64 - n)) := by
  have hConst := longConst_spec env expr val
  rw [h.exprWidth] at hConst
  unfold NetExpr.makeSubExpr
  rw [h.exprWidth, h.hasSign]
  exact known_add hConst.1 h.defined hConst.2 (by rw [h.denotes])

/- A summand that is a `long` other than the least one. -/
theorem Known.makeAddExpr (h : expr.Known env width signed n) {val : Int} (hLow : -2 ^ 63 < val)
    (hHigh : val < 2 ^ 63) :
    ∃ sum, expr.makeAddExpr val = some sum ∧
      sum.Known env width signed (cutTo signed width (n + val)) := by
  unfold NetExpr.makeAddExpr
  split_ifs with hZero hNeg
  · rw [hZero, Int.add_zero, cutTo_of_fits h.fits]
    exact ⟨expr, rfl, h⟩
  · rw [long_of_range (by omega) (by omega)]
    refine ⟨_, rfl, ?_⟩
    have hConst := longConst_spec env expr (-val)
    rw [Int.emod_eq_of_lt (by omega) (by omega), h.exprWidth] at hConst
    rw [h.exprWidth, h.hasSign]
    have hSum := @known_add _ _ signed .sub _ _ n _
      h.defined hConst.1 (by rw [h.denotes]) hConst.2
    have hVal : evalAdd .sub n (-val) = n + val := by
      change n - -val = n + val
      omega
    rw [hVal] at hSum
    exact hSum
  · refine ⟨_, rfl, ?_⟩
    have hConst := longConst_spec env expr val
    rw [Int.emod_eq_of_lt (by omega) (by omega), h.exprWidth] at hConst
    rw [h.exprWidth, h.hasSign]
    exact @known_add _ _ _ .add _ _ n _ h.defined hConst.1 (by rw [h.denotes]) hConst.2

/- A product with a positive number is lossless. -/
theorem Known.makeMultExpr (h : expr.Known env width signed n) {log2 : Int → Nat}
    {val : Int} (hLow : 0 < val) (hHigh : val < 2 ^ 64) (hLog : val ≤ 2 ^ log2 val) :
    (expr.makeMultExpr log2 val).Known env (width + log2 val) signed (n * val) := by
  have hPad := @Known.padToWidth _ _ _ _ _ h (width + log2 val) (by omega)
  have hConst := longConst_spec env (expr.padToWidth (width + log2 val)) val
  rw [Int.emod_eq_of_lt (by omega) hHigh, hPad.exprWidth] at hConst
  have hEq : expr.makeMultExpr log2 val =
      .mult (expr.padToWidth (width + log2 val))
        ((expr.padToWidth (width + log2 val)).longConst val)
        (width + log2 val) signed := by
    unfold NetExpr.makeMultExpr NetExpr.longConst
    rw [hPad.exprWidth, hPad.hasSign, h.exprWidth, h.hasSign]
  rw [hEq]
  refine ⟨by rw [NetExpr.exprWidth], rfl, trivial, ?_, ?_⟩
  · rw [eval, Bits.arith_of_defined _ _
      (Bits.defined_padTo hPad.defined _ _)
      (Bits.defined_padTo hConst.1 _ _)]
    exact Bits.defined_ofInt _ _
  · rw [denotes_mult hPad.defined hConst.1 (Int.ModEq.refl _) hConst.2,
      hPad.denotes, cutTo_of_fits (fits_mul h.fits hLow hLog)]

end NetExpr

end EpicSim
