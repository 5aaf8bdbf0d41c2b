import EpicSim.Ivl.KnownExpr
import EpicSim.Ivl.NormalizeBase

/-
  The single index of a select in a packed array.

  Each index is normalized for its dimension, scaled by the
  width of a slice and added to the others.  A dimension of one
  element is normalized as a descending one over the slice, and
  an array of one-bit slices is not normalized at all.
-/

----
-- Slices
----

namespace EpicSim

/- `netrange_width`, an `unsigned` number. -/
def netrangeWidth (packed : List NetRange) : Nat :=
  packed.foldl (fun wid cur => wid * cur.width % 2 ^ 32) 1

/- The loop of `calculate_slice_widths_from_packed_dims_`. -/
def sliceWids : Nat → List NetRange → List Nat
| _, [] => []
| wid, cur :: dims => wid :: sliceWids (wid / cur.width) dims

/- `NetNet::slice_width`. -/
def sliceWidth (dims : List NetRange) (depth : Nat) : Nat :=
  if dims.length < depth then 0
  else if depth = dims.length then 1
  else (sliceWids (netrangeWidth dims) dims).getD depth 0

----
-- Building The Index
----

namespace NetExpr

/- `make_add_expr(loc, expr1, expr2)`. -/
def makeAddExprs (expr1 expr2 : NetExpr) : NetExpr :=
  let use_wid := max expr1.exprWidth expr2.exprWidth
  .add .add (expr1.padToWidth use_wid) (expr2.padToWidth use_wid)
    use_wid (expr1.hasSign && expr2.hasSign)

/- A normalized index, scaled where the slice has width. -/
def scaleSlice (log2 : Int → Nat) (slice : Nat) (tmp : NetExpr) : NetExpr :=
  if slice = 1 then tmp
  else if tmp.exprWidth ≤ bitsFor slice then
    (tmp.padToWidth (bitsFor slice + 1)).makeMultExpr log2 slice
  else tmp.makeMultExpr log2 slice

end NetExpr

/- The loop of `collapse_array_exprs`. -/
def collapseLoop (log2 : Int → Nat) (packed_dims : List NetRange) :
    Nat → List NetRange → List NetExpr → Option NetExpr → Option NetExpr
| idx, pcur :: pdims, ecur :: exprs, base => do
    let cur_slice_width := sliceWidth packed_dims (idx + 1)
    let tmp ← normalizeVariableBase ecur pcur.msb pcur.lsb
      cur_slice_width (decide (pcur.lsb < pcur.msb)) 0
    let tmp := tmp.scaleSlice log2 cur_slice_width
    collapseLoop log2 packed_dims (idx + 1) pdims exprs <| some <|
      match base with
      | some base => base.makeAddExprs tmp
      | none => tmp
| _, _, _, base => base

/- `collapse_array_exprs`, of the elaborated indices. -/
def collapseArrayExprs (log2 : Int → Nat) (packed_dims : List NetRange)
    (exprs : List NetExpr) : Option NetExpr :=
  if sliceWidth packed_dims 1 = 1 then exprs.head?
  else collapseLoop log2 packed_dims 0 packed_dims exprs none

----
-- Slice Widths
----

theorem netrangeWidth_eq {dims : List NetRange} (hWords : words dims < 2 ^ 32) :
    netrangeWidth dims = words dims := by
  have hFold : ∀ (rest : List NetRange) (wid : Nat),
      wid * words rest < 2 ^ 32 →
      rest.foldl (fun wid cur => wid * cur.width % 2 ^ 32) wid = wid * words rest := by
    intro rest
    induction rest with
    | nil =>
      intro wid _
      exact (Nat.mul_one wid).symm
    | cons cur rest ih =>
      intro wid hRest
      rw [words, ← Nat.mul_assoc] at hRest
      have hLe : wid * cur.width ≤ wid * cur.width * words rest :=
        Nat.le_mul_of_pos_right _ (words_pos rest)
      rw [List.foldl_cons, Nat.mod_eq_of_lt (by omega), ih _ hRest, words, Nat.mul_assoc]
  have hAll := hFold dims 1 (by rw [Nat.one_mul]; exact hWords)
  rw [Nat.one_mul] at hAll
  exact hAll

theorem sliceWids_getD (dims : List NetRange) {depth : Nat} (hDepth : depth < dims.length) :
    (sliceWids (words dims) dims).getD depth 0 = words (dims.drop depth) := by
  induction dims generalizing depth with
  | nil => cases hDepth
  | cons cur rest ih =>
    cases depth with
    | zero => rfl
    | succ depth =>
      rw [List.length_cons] at hDepth
      have hDiv : words (cur :: rest) / cur.width = words rest :=
        Nat.mul_div_cancel_left _ cur.width_pos
      rw [sliceWids, hDiv]
      exact ih (by omega)

theorem words_drop_le (dims : List NetRange) (depth : Nat) :
    words (dims.drop depth) ≤ words dims := by
  induction depth generalizing dims with
  | zero => exact Nat.le_refl _
  | succ depth ih =>
    cases dims with
    | nil => exact Nat.le_refl _
    | cons rng dims => exact Nat.le_trans (ih dims) (words_le rng dims).1

/- The width of a slice is the number of bits below it. -/
theorem sliceWidth_eq {dims : List NetRange} (hWords : words dims < 2 ^ 32) {depth : Nat}
    (hDepth : depth ≤ dims.length) : sliceWidth dims depth = words (dims.drop depth) := by
  unfold sliceWidth
  rw [if_neg (Nat.not_lt.mpr hDepth)]
  split_ifs with hLast
  · rw [hLast, List.drop_length]
    rfl
  · rw [netrangeWidth_eq hWords]
    exact sliceWids_getD dims (by omega)

----
-- Indices
----

open TwosComplement NetExpr

/- A known index: its width, its sign and its value. -/
structure Index where
  width : Nat
  signed : Bool
  value : Int
deriving DecidableEq

/- The index an expression stands for. -/
def Index.of (env : Env) (expr : NetExpr) : Index :=
  ⟨expr.exprWidth, expr.hasSign, expr.denotes env⟩

namespace Index

/-
  The normalized index of a dimension over slices of a width;
  none where the code leaves a `long`.
-/
def normalized (rng : NetRange) (slice : Nat) (index : Index) : Option Index :=
  if rng.msb < rng.lsb then
    if rng.lsb = 2 ^ 63 - 1 then none
    else
      let width := max (bitsFor rng.lsb) index.width + 2
      let signed := index.signed ||
        decide (rng.lsb < 0 ∨ bitsFor (rng.lsb + 1) ≤ width)
      some ⟨width, signed, cutTo signed width (rng.lsb % 2 ^ 64 - index.value)⟩
  else
    let offset :=
      if rng.lsb < rng.msb then rng.lsb
      else toLong (rng.lsb + (slice - 1))
    if offset = -2 ^ 63 then none
    else if offset = 0 then some index
    else
      let width := max (bitsFor (-offset)) index.width + 2
      let signed := index.signed || decide (0 < offset)
      some ⟨width, signed, cutTo signed width (index.value - offset)⟩

end Index

/- An expression with the width, sign and value of an index. -/
def NetExpr.Shows (env : Env) (expr : NetExpr) (index : Index) : Prop :=
  expr.Known env index.width index.signed index.value

theorem bitsFor_zero : bitsFor 0 = 0 := by decide

theorem numBits_zero : numBits 0 = some 0 := by decide

/- The sign of a base that is padded and may be cast. -/
theorem known_castIf {env : Env} {expr : NetExpr} {width : Nat} {signed : Bool}
    {n : Int} (h : expr.Known env width signed n) {flag : Bool} (hRoom : 2 * n < 2 ^ width) :
    (if (flag && !expr.hasSign) = true then expr.castSigned width
      else expr).Known env width (signed || flag) n := by
  have hFits := h.fits
  rw [h.hasSign]
  cases signed with
  | true => cases flag <;> exact h
  | false =>
    cases flag with
    | false => exact h
    | true =>
      have hCut : cutTo true width n = n := by
        refine cutTo_of_fits ?_
        unfold Fits at hFits ⊢
        simp only [Bool.false_eq_true, if_false, if_true] at hFits ⊢
        omega
      have hCast := h.castSigned
      rw [hCut] at hCast
      exact hCast

/- Widening by a bit makes room for a sign. -/
theorem fits_twice {signed : Bool} {width wid : Nat} {n : Int} (h : Fits signed width n)
    (hLt : width < wid) : 2 * n < 2 ^ wid := by
  have hPow := two_pow_le (Nat.succ_le_of_lt hLt)
  unfold Fits at h
  split_ifs at h <;> omega

theorem known_normalizeVariableBase {env : Env} {expr : NetExpr} {index : Index}
    (h : expr.Shows env index) {rng : NetRange} (hLong : rng.Long) (slice : Nat) :
    match index.normalized rng slice with
    | some result =>
      ∃ e, normalizeVariableBase expr rng.msb rng.lsb slice
          (decide (rng.lsb < rng.msb)) 0 = some e ∧
        e.Shows env result
    | none =>
      normalizeVariableBase expr rng.msb rng.lsb slice (decide (rng.lsb < rng.msb)) 0 = none := by
  have hMsb := hLong.msb
  have hLsb := hLong.lsb
  have hWidth := h.exprWidth
  unfold Index.normalized normalizeVariableBase
  by_cases hDown : rng.msb < rng.lsb
  · -- an ascending dimension: the index is subtracted
    have hNotUp : ¬rng.lsb < rng.msb := by omega
    simp only [if_pos hDown, decide_eq_false hNotUp, Bool.false_eq_true, if_false,
      numBits_zero, numBits_of_range (show -2 ^ 63 < rng.lsb by omega), Option.bind_eq_bind,
      Option.bind_some, Nat.max_zero, hWidth, Int.add_zero, long_of_range hLsb.1 hLsb.2]
    have hPad := @Known.padToWidth _ _ _ _ _ h (max (bitsFor rng.lsb) index.width + 2) (by omega)
    split_ifs with hMost
    · have hNone : leavesRoomBelow rng.lsb
          (expr.padToWidth (max (bitsFor rng.lsb) index.width + 2)).exprWidth = none := by
        unfold leavesRoomBelow
        rw [hMost]
        rfl
      rw [hNone]
      rfl
    · rw [hPad.exprWidth, leavesRoomBelow_of_range hLsb.1 (by omega)]
      refine ⟨_, rfl, ?_⟩
      have hCast := @known_castIf _ _ _ _ _ hPad (decide (rng.lsb < 0 ∨
        bitsFor (rng.lsb + 1) ≤ max (bitsFor rng.lsb) index.width + 2))
        (fits_twice h.fits (by omega))
      exact hCast.makeSubExpr rng.lsb
  · -- the offset is subtracted from the index
    simp only [decide_eq_true_eq]
    have hRange : -2 ^ 63 ≤ (if rng.lsb < rng.msb then rng.lsb
        else toLong (rng.lsb + (slice - 1))) ∧
        (if rng.lsb < rng.msb then rng.lsb
          else toLong (rng.lsb + (slice - 1))) < 2 ^ 63 := by
      split_ifs
      · exact hLsb
      · exact toLong_range _
    generalize (if rng.lsb < rng.msb then rng.lsb
      else toLong (rng.lsb + (slice - 1))) = offset at hRange ⊢
    rw [Int.zero_sub]
    split_ifs with hLeast hZero
    · rw [hLeast]
      rfl
    · rw [hZero]
      exact ⟨expr, rfl, h⟩
    · have hPad := @Known.padToWidth _ _ _ _ _ h
        (max (bitsFor (-offset)) index.width + 2) (by omega)
      have hCast := @known_castIf _ _ _ _ _ hPad (decide (0 < offset))
        (fits_twice h.fits (by omega))
      rcases @Known.makeAddExpr _ _ _ _ _ hCast (-offset) (by omega) (by omega) with
        ⟨sum, hSum, hKnown⟩
      have hNonzero : -offset ≠ 0 := by omega
      simp only [long_of_range (show -2 ^ 63 ≤ -offset by omega) (show -offset < 2 ^ 63 by omega),
        Option.bind_eq_bind, Option.bind_some, if_neg hNonzero, numBits_zero,
        numBits_of_range (show -2 ^ 63 < -offset by omega), Nat.max_zero, hWidth]
      exact ⟨sum, hSum, hKnown⟩

end EpicSim

----
-- Sums
----

namespace EpicSim

open TwosComplement NetExpr

/- The position of an index in its dimension. -/
def NetRange.place (rng : NetRange) (n : Int) : Int :=
  if rng.lsb ≤ rng.msb then n - rng.lsb else rng.lsb - n

/- A sum of scaled indices: what it has to be, and by how much
   the expression is off. -/
structure PartialSum where
  width : Nat
  signed : Bool
  place : Int
  drift : Int
deriving DecidableEq

namespace Index

/- A normalized index, scaled where the slice has width. -/
def scaled (log2 : Int → Nat) (slice : Nat) (index : Index) : Index :=
  if slice = 1 then index
  else
    { index with
      width := max index.width (bitsFor slice + 1) + log2 slice
      value := index.value * slice }

/- What an index adds. -/
def term (log2 : Int → Nat) (rng : NetRange) (slice : Nat) (index : Index) : Option PartialSum :=
  (index.normalized rng slice).map fun result =>
    { width := (result.scaled log2 slice).width
      signed := result.signed
      place := rng.place index.value * slice
      drift := (result.value - rng.place index.value) * slice }

end Index

/- A sum is cut to the wider of its operands. -/
def PartialSum.add (a b : PartialSum) : PartialSum where
  width := max a.width b.width
  signed := a.signed && b.signed
  place := a.place + b.place
  drift :=
    cutTo (a.signed && b.signed) (max a.width b.width) (a.place + b.place + (a.drift + b.drift)) -
      (a.place + b.place)

/- The sum over the dimensions. -/
def sumIndices (log2 : Int → Nat) :
    List NetRange → List Index → Option PartialSum → Option PartialSum
| rng :: dims, index :: indices, sum =>
  (index.term log2 rng (words dims)).bind fun term =>
    sumIndices log2 dims indices <| some <|
      match sum with
      | some sum => sum.add term
      | none => term
| _, _, sum => sum

/- An expression with the width, sign and value of a sum. -/
def NetExpr.ShowsSum (env : Env) (expr : NetExpr) (sum : PartialSum) : Prop :=
  expr.Known env sum.width sum.signed (sum.place + sum.drift)

/- `log2` of the source on the widths of slices. -/
def Log2Covers (log2 : Int → Nat) : Prop :=
  ∀ val : Int, 0 < val → val < 2 ^ 32 → val ≤ 2 ^ log2 val

variable {env : Env} {log2 : Int → Nat}

theorem known_scaleSlice {expr : NetExpr} {index : Index}
    (h : expr.Shows env index)
    (hLog : Log2Covers log2) {slice : Nat} (hPos : 0 < slice) (hSlice : slice < 2 ^ 32) :
    (expr.scaleSlice log2 slice).Shows env (index.scaled log2 slice) := by
  have hCovers := hLog slice (by omega) (by omega)
  unfold NetExpr.scaleSlice Index.scaled NetExpr.Shows
  by_cases hOne : slice = 1
  · rw [if_pos hOne, if_pos hOne]
    exact h
  · rw [if_neg hOne, if_neg hOne, h.exprWidth]
    by_cases hNarrow : index.width ≤ bitsFor slice
    · have hMax : max index.width (bitsFor slice + 1) =
          bitsFor slice + 1 := by omega
      rw [if_pos hNarrow, hMax]
      exact (h.padToWidth (by omega)).makeMultExpr (by omega) (by omega) hCovers
    · have hMax : max index.width (bitsFor slice + 1) =
          index.width := by omega
      rw [if_neg hNarrow, hMax]
      exact Known.makeMultExpr h (by omega) (by omega) hCovers

theorem known_makeAddExprs {expr1 expr2 : NetExpr} {a b : PartialSum}
    (hA : expr1.ShowsSum env a) (hB : expr2.ShowsSum env b) :
    (expr1.makeAddExprs expr2).ShowsSum env (a.add b) := by
  have hLeft := @Known.padToWidth _ _ _ _ _ hA (max a.width b.width) (by omega)
  have hRight := @Known.padToWidth _ _ _ _ _ hB (max a.width b.width) (by omega)
  unfold NetExpr.makeAddExprs
  rw [hA.exprWidth, hB.exprWidth, hA.hasSign, hB.hasSign]
  have hSum := @known_add _ (max a.width b.width) (a.signed && b.signed) .add _ _
    (a.place + a.drift) (b.place + b.drift) hLeft.defined hRight.defined
    (by rw [hLeft.denotes]) (by rw [hRight.denotes])
  have hValue : evalAdd .add (a.place + a.drift)
      (b.place + b.drift) = a.place + b.place + (a.drift + b.drift) := by
    change _ + _ = _
    ring
  rw [hValue] at hSum
  unfold NetExpr.ShowsSum PartialSum.add
  rw [add_sub_cancel]
  exact hSum

/- A scaled index shows what it adds. -/
theorem shows_term {tmp : NetExpr} {result : Index}
    (h : tmp.Shows env result)
    (hLog : Log2Covers log2) {slice : Nat} (hPos : 0 < slice)
    (hSlice : slice < 2 ^ 32) (place : Int) :
    (tmp.scaleSlice log2 slice).ShowsSum env
      { width := (result.scaled log2 slice).width
        signed := result.signed
        place := place * slice
        drift := (result.value - place) * slice } := by
  have hScaled := known_scaleSlice h hLog hPos hSlice
  have hSigned : (result.scaled log2 slice).signed = result.signed := by
    unfold Index.scaled
    split_ifs <;> rfl
  have hValue : (result.scaled log2 slice).value =
      place * slice + (result.value - place) * slice := by
    unfold Index.scaled
    grind
  unfold NetExpr.Shows at hScaled
  rw [hSigned, hValue] at hScaled
  exact hScaled

/- The built expression shows the sum. -/
theorem collapseLoop_spec (hLog : Log2Covers log2)
    {packed_dims : List NetRange} (hWords : words packed_dims < 2 ^ 32) {idx : Nat}
    {dims : List NetRange} {exprs : List NetExpr}
    (hDims : packed_dims.drop idx = dims) (hLong : ∀ rng ∈ dims, rng.Long)
    (hExprs : ∀ e ∈ exprs, e.Sized ∧ (e.eval env).Defined)
    {base : Option NetExpr} {sum : Option PartialSum}
    (hBase : Option.Rel (NetExpr.ShowsSum env) base sum) :
    Option.Rel (NetExpr.ShowsSum env)
      (collapseLoop log2 packed_dims idx dims exprs base)
      (sumIndices log2 dims (exprs.map (Index.of env)) sum) := by
  induction dims generalizing idx exprs base sum with
  | nil =>
    exact hBase
  | cons rng dims ih =>
    cases exprs with
    | nil =>
      exact hBase
    | cons expr exprs =>
      have hRest : packed_dims.drop (idx + 1) = dims := by
        rw [← List.drop_drop, hDims, List.drop_one, List.tail_cons]
      have hIdx : idx < packed_dims.length := by
        by_contra hNot
        rw [List.drop_of_length_le (by omega)] at hDims
        cases hDims
      have hSlice : sliceWidth packed_dims (idx + 1) = words dims := by
        rw [sliceWidth_eq hWords (by omega), hRest]
      have hSmall : words dims < 2 ^ 32 := by
        rw [← hRest]
        exact Nat.lt_of_le_of_lt (words_drop_le _ _) hWords
      rw [collapseLoop, List.map_cons, sumIndices, hSlice]
      have hShows : expr.Shows env (Index.of env expr) :=
        known_self (hExprs expr List.mem_cons_self).1 (hExprs expr List.mem_cons_self).2
      have hNormal := known_normalizeVariableBase hShows (hLong rng List.mem_cons_self) (words dims)
      unfold Index.term
      cases hCase : (Index.of env expr).normalized rng (words dims) with
      | none =>
        rw [hCase] at hNormal
        rw [hNormal]
        exact Option.Rel.none
      | some result =>
        rw [hCase] at hNormal
        rcases hNormal with ⟨tmp, hTmp, hKnown⟩
        rw [hTmp]
        refine ih hRest
          (fun r hMem => hLong r (List.mem_cons_of_mem _ hMem))
          (fun e hMem => hExprs e (List.mem_cons_of_mem _ hMem))
          (Option.Rel.some ?_)
        have hTerm := shows_term hKnown hLog (words_pos dims)
          hSmall (rng.place (Index.of env expr).value)
        cases hBase with
        | none => exact hTerm
        | some hSum => exact known_makeAddExprs hSum hTerm

end EpicSim
