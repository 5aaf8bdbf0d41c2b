import EpicSim.Ivl.CollapseExact

/-
  The base of a variable slice of a packed array.

  The index of the slice is padded to a width, less the smaller
  bound, times the width of the slice, and added to or taken
  from the offset of the lowest index.  The width is grown to
  the value of a bound that does not fit it, not to its size.
-/

----
-- Constant Slices
----

namespace EpicSim

/- The walk over the prefix, from its last index. -/
def prefixLoop : NetRange → List NetRange → List Int → Nat → Int → Option Int
| pcur, next :: dims, icur :: indices, acc_wid, acc_off => do
    let acc_wid := acc_wid * pcur.width % 2 ^ 64
    let tmp_off ← next.position icur
    prefixLoop next dims indices acc_wid (toLong (acc_off + tmp_off * acc_wid))
| _, _, [], _, acc_off => some acc_off
| _, [], _ :: _, _, _ => none

/- `prefix_to_slice`: the offset and the width of the slice; none
   where the index is out of range or a `long` overflows. -/
def prefixToSlice (dims : List NetRange) (indices : List Int) (sb : Int) : Option (Int × Nat) :=
  let acc_wid := (dims.drop (indices.length + 1)).reverse.foldl
    (fun acc_wid pcur => acc_wid * pcur.width % 2 ^ 64) 1
  match (dims.take (indices.length + 1)).reverse with
  | [] => none
  | pcur :: outer =>
    if sb < pcur.msb ∧ sb < pcur.lsb then none
    else if pcur.msb < sb ∧ pcur.lsb < sb then none
    else do
      let tmp_off ← pcur.position sb
      let loff ← prefixLoop pcur outer indices.reverse acc_wid
        (toLong (tmp_off * acc_wid))
      some (loff, acc_wid)

----
-- Variable Slices
----

namespace NetExpr

/- `make_sub_expr(NetExpr*, long)`. -/
def makeSubConst (expr : NetExpr) (val : Int) : NetExpr :=
  .add .sub expr (expr.longConst val) expr.exprWidth expr.hasSign

end NetExpr

/- `min_wid = bound` where the bound does not fit the width. -/
def growTo (min_wid : Nat) (bound : Int) : Option Nat :=
  (numBits bound).map fun bits => if min_wid < bits then (bound % 2 ^ 32).toNat else min_wid

/- The width that the base is padded to. -/
def askedWidth (pcur : NetRange) (width : Nat)
    (signed : Bool) : Option Nat := do
  let sb := min pcur.lsb pcur.msb
  let min_wid := if sb < 0 && !signed then width + 1 else width
  let min_wid ← growTo min_wid pcur.lsb
  growTo min_wid pcur.msb

/- The padded base, cast where it has to be. -/
def NetExpr.padSigned (base : NetExpr) (pcur : NetRange) (min_wid : Nat) : NetExpr :=
  if min pcur.lsb pcur.msb < 0 && !(base.padToWidth min_wid).hasSign
  then (base.padToWidth min_wid).castSigned min_wid
  else base.padToWidth min_wid

/- The base less a bound that is not 0. -/
def NetExpr.lessBound (base : NetExpr) (bound : Int) : NetExpr :=
  if bound = 0 then base else base.makeSubConst bound

/- A product, with room for the offset. -/
def NetExpr.roomFor (base : NetExpr) (loff : Int) : Option NetExpr :=
  (numBits loff).map fun bits =>
    base.padToWidth (max base.exprWidth bits + if loff = 0 then 0 else 1)

open NetExpr in
/- `normalize_variable_slice_base`, with the slice width. -/
def normalizeVariableSliceBase (log2 : Int → Nat) (packed_dims : List NetRange) (indices : List Int)
    (base : NetExpr) : Option (NetExpr × Nat) := do
  let pcur ← packed_dims[indices.length]?
  let sb := min pcur.lsb pcur.msb
  let slice ← prefixToSlice packed_dims indices sb
  let loff := slice.1
  let lwid := slice.2
  let min_wid ← askedWidth pcur base.exprWidth base.hasSign
  let base := base.padSigned pcur min_wid
  if pcur.lsb ≤ pcur.msb then do
    let base := (base.lessBound pcur.lsb).makeMultExpr log2 lwid
    let base ← base.roomFor loff
    let base ← base.makeAddExpr loff
    some (base, lwid)
  else do
    let base := (base.lessBound pcur.msb).makeMultExpr log2 lwid
    let base ← base.roomFor loff
    some (makeSubExpr loff base, lwid)

----
-- Widths
----

open TwosComplement NetExpr

/- The sign that the index is read with. -/
def sliceSigned (pcur : NetRange) (signed : Bool) : Bool :=
  signed || decide (min pcur.lsb pcur.msb < 0)

/- The base, with a bit for the sign it may need. -/
def signedWidth (pcur : NetRange) (width : Nat) (signed : Bool) : Nat :=
  if min pcur.lsb pcur.msb < 0 && !signed then width + 1 else width

/- The width from the sizes of the base and of the bounds. -/
def sizedWidth (pcur : NetRange) (width : Nat) (signed : Bool) : Nat :=
  max (max (signedWidth pcur width signed) (bitsFor pcur.lsb)) (bitsFor pcur.msb)

/- A width is only grown to the size of a bound. -/
def SizesAsked (pcur : NetRange) (width : Nat) (signed : Bool) : Prop :=
  growTo (signedWidth pcur width signed) pcur.lsb =
      some (max (signedWidth pcur width signed) (bitsFor pcur.lsb)) ∧
    growTo (max (signedWidth pcur width signed) (bitsFor pcur.lsb)) pcur.msb =
      some (sizedWidth pcur width signed)

/- A bound that fits a width, or is its own number of bits. -/
def Harmless (min_wid : Nat) (bound : Int) : Prop :=
  bound ≠ -2 ^ 63 ∧ (bitsFor bound ≤ min_wid ∨ bound % 2 ^ 32 = bitsFor bound)

instance (min_wid : Nat) (bound : Int) : Decidable (Harmless min_wid bound) :=
  inferInstanceAs (Decidable (_ ∧ _))

theorem growTo_eq_iff {min_wid : Nat} {bound : Int} (hLow : -2 ^ 63 ≤ bound) :
    growTo min_wid bound = some (max min_wid (bitsFor bound)) ↔
      Harmless min_wid bound := by
  unfold growTo Harmless
  by_cases hLeast : bound = -2 ^ 63
  · rw [hLeast, numBits_least]
    simp
  · rw [numBits_of_range (by omega), Option.map_some, Option.some.injEq]
    split_ifs <;> omega

theorem sizesAsked_iff {pcur : NetRange} (hLong : pcur.Long) (width : Nat) (signed : Bool) :
    SizesAsked pcur width signed ↔
      Harmless (signedWidth pcur width signed) pcur.lsb ∧
      Harmless (max (signedWidth pcur width signed) (bitsFor pcur.lsb)) pcur.msb := by
  unfold SizesAsked sizedWidth
  rw [growTo_eq_iff hLong.lsb.1, growTo_eq_iff hLong.msb.1]

variable {width : Nat} {signed : Bool} {env : Env}
  {expr : NetExpr} {n : Int}

theorem askedWidth_eq {pcur : NetRange} (h : SizesAsked pcur width signed) :
    askedWidth pcur width signed = some (sizedWidth pcur width signed) := by
  change (growTo (signedWidth pcur width signed) pcur.lsb).bind
    (fun min_wid => growTo min_wid pcur.msb) = _
  rw [h.1, Option.bind_some, h.2]

----
-- What Is Built
----

theorem NetExpr.Known.makeSubConst (h : expr.Known env width signed n) (val : Int) :
    (expr.makeSubConst val).Known env width signed (cutTo signed width (n - val % 2 ^ 64)) := by
  have hConst := longConst_spec env expr val
  rw [h.exprWidth] at hConst
  unfold NetExpr.makeSubConst
  rw [h.exprWidth, h.hasSign]
  exact @known_add _ _ _ .sub _ _ n _ h.defined hConst.1 (by rw [h.denotes]) hConst.2

/- The position of the index, as the code computes it. -/
def foundPlace (pcur : NetRange) (width : Nat) (signed : Bool) (n : Int) : Int :=
  cutTo (sliceSigned pcur signed) (sizedWidth pcur width signed)
    (n - min pcur.lsb pcur.msb % 2 ^ 64)

/- The width of the sum with the offset. -/
def sumWidth (width : Nat) (loff : Int) : Nat :=
  max width (bitsFor loff) + if loff = 0 then 0 else 1

/- The sum before it is cut to its width. -/
def reachedOffset (pcur : NetRange) (place loff : Int) (lwid : Nat) : Int :=
  if pcur.lsb ≤ pcur.msb then place * lwid + loff
  else loff % 2 ^ 64 - place * lwid

theorem signedWidth_le_sizedWidth (pcur : NetRange) (width : Nat) (signed : Bool) :
    signedWidth pcur width signed ≤ sizedWidth pcur width signed :=
  Nat.le_trans (Nat.le_max_left _ _) (Nat.le_max_left _ _)

theorem width_le_signedWidth (pcur : NetRange) (width : Nat) (signed : Bool) :
    width ≤ signedWidth pcur width signed := by
  unfold signedWidth
  split_ifs <;> omega

theorem known_padSigned {base : NetExpr} (h : base.Known env width signed n) (pcur : NetRange) :
    (base.padSigned pcur (sizedWidth pcur width signed)).Known env
      (sizedWidth pcur width signed) (sliceSigned pcur signed)
      n := by
  have hSized := signedWidth_le_sizedWidth pcur width signed
  have hWidth := width_le_signedWidth pcur width signed
  have hPad := h.padToWidth (Nat.le_trans hWidth hSized)
  unfold NetExpr.padSigned
  by_cases hCast : (decide (min pcur.lsb pcur.msb < 0) && !signed) = true
  · -- a bit is left for the sign
    have hLt : width < sizedWidth pcur width signed := by
      unfold signedWidth at hSized
      rw [if_pos hCast] at hSized
      omega
    exact known_castIf hPad (fits_twice h.fits hLt)
  · have hSame : sliceSigned pcur signed = signed := by
      unfold sliceSigned
      revert hCast
      cases signed <;> simp
    rw [hPad.hasSign, if_neg hCast, hSame]
    exact hPad

/- The index less the smaller bound. -/
theorem known_place (h : expr.Known env width signed n) (bound : Int) :
    (expr.lessBound bound).Known env width signed (cutTo signed width (n - bound % 2 ^ 64)) := by
  unfold NetExpr.lessBound
  split_ifs with hZero
  · rw [hZero, Int.zero_emod, Int.sub_zero, cutTo_of_fits h.fits]
    exact h
  · exact h.makeSubConst bound

theorem known_roomFor (h : expr.Known env width signed n) {loff : Int} (hLoff : -2 ^ 63 < loff) :
    ∃ e, expr.roomFor loff = some e ∧
      e.Known env (sumWidth width loff) signed n := by
  unfold NetExpr.roomFor
  rw [numBits_of_range hLoff, h.exprWidth]
  refine ⟨_, rfl, h.padToWidth ?_⟩
  omega

/- The built expression is the sum cut to its width. -/
theorem known_normalizeVariableSliceBase {log2 : Int → Nat} (hLog : Log2Covers log2) {env : Env}
    {base : NetExpr} {width : Nat} {signed : Bool} {n : Int} (h : base.Known env width signed n)
    {packed_dims : List NetRange} {indices : List Int} {pcur : NetRange}
    (hCur : packed_dims[indices.length]? = some pcur) {loff : Int} {lwid : Nat}
    (hSlice : prefixToSlice packed_dims indices (min pcur.lsb pcur.msb) = some (loff, lwid))
    (hLoff : -2 ^ 63 < loff ∧ loff < 2 ^ 63) (hWid : 0 < lwid ∧ lwid < 2 ^ 32)
    (hAsked : SizesAsked pcur width signed) :
    ∃ e, normalizeVariableSliceBase log2 packed_dims indices base = some (e, lwid) ∧
      e.Known env
        (sumWidth (sizedWidth pcur width signed + log2 lwid) loff)
        (sliceSigned pcur signed)
        (cutTo (sliceSigned pcur signed)
          (sumWidth (sizedWidth pcur width signed + log2 lwid) loff)
          (reachedOffset pcur (foundPlace pcur width signed n) loff lwid)) := by
  have hCovers := hLog lwid (by omega) (by omega)
  have hPadded := known_padSigned h pcur
  have hPlace := known_place hPadded (min pcur.lsb pcur.msb)
  have hScaled := @Known.makeMultExpr _ _ _ _ _ hPlace log2 lwid (by omega) (by omega) hCovers
  rcases known_roomFor hScaled hLoff.1 with ⟨room, hRoom, hKnown⟩
  have hWidths := askedWidth_eq hAsked
  unfold normalizeVariableSliceBase reachedOffset
  simp only [hCur, hSlice, h.exprWidth, h.hasSign, hWidths, Option.bind_eq_bind, Option.bind_some]
  by_cases hDown : pcur.lsb ≤ pcur.msb
  · have hBound : min pcur.lsb pcur.msb = pcur.lsb := by omega
    rw [hBound] at hRoom hKnown
    rcases hKnown.makeAddExpr hLoff.1 hLoff.2 with ⟨sum, hSum, hResult⟩
    rw [if_pos hDown, if_pos hDown, hRoom, Option.bind_some, hSum]
    refine ⟨sum, rfl, ?_⟩
    rw [foundPlace, hBound]
    exact hResult
  · have hBound : min pcur.lsb pcur.msb = pcur.msb := by omega
    rw [hBound] at hRoom hKnown
    rw [if_neg hDown, if_neg hDown, hRoom]
    refine ⟨_, rfl, ?_⟩
    rw [foundPlace, hBound]
    exact hKnown.makeSubExpr loff

end EpicSim
