import EpicSim.Ivl.BuiltExpr
import Mathlib.Data.List.Forall2

/-
  When the address of an array word is the row-major one.

  Constant indices are checked one dimension at a time.  Index
  expressions are only scaled and summed: an index that is out
  of its range stays unnoticed where the sum, less what its
  nodes lose, is the number of a word.
-/

----
-- Row-Major Addresses
----

namespace EpicSim

open TwosComplement

/- The number of words. -/
def words : List NetRange → Nat
| [] => 1
| rng :: dims => rng.width * words dims

/- The address that a list of indices means. -/
def rowMajor : List NetRange → List Int → Int
| rng :: dims, n :: ns => (n - min rng.msb rng.lsb) * words dims + rowMajor dims ns
| _, _ => 0

/- An index lies between the bounds of its dimension. -/
def InRange (rng : NetRange) (n : Int) : Prop :=
  min rng.msb rng.lsb ≤ n ∧ n ≤ max rng.msb rng.lsb

instance (rng : NetRange) (n : Int) : Decidable (InRange rng n) :=
  inferInstanceAs (Decidable (_ ∧ _))

theorem NetRange.useBase_eq (rng : NetRange) : rng.useBase = min rng.msb rng.lsb := by
  unfold NetRange.useBase
  split_ifs <;> omega

theorem inRange_iff (rng : NetRange) (n : Int) :
    InRange rng n ↔
      0 ≤ n - rng.useBase ∧ n - rng.useBase < rng.width := by
  unfold InRange NetRange.useBase NetRange.width
  split_ifs <;> omega

theorem NetRange.width_pos (rng : NetRange) : 0 < rng.width := by
  unfold NetRange.width
  split_ifs <;> omega

theorem words_pos : ∀ dims : List NetRange, 0 < words dims
| [] => Nat.one_pos
| rng :: dims => Nat.mul_pos rng.width_pos (words_pos dims)

theorem words_le (rng : NetRange) (dims : List NetRange) :
    words dims ≤ words (rng :: dims) ∧ rng.width ≤ words (rng :: dims) :=
  ⟨Nat.le_mul_of_pos_left _ rng.width_pos, Nat.le_mul_of_pos_right _ (words_pos dims)⟩

theorem cast_words_cons (rng : NetRange) (dims : List NetRange) :
    (words (rng :: dims) : Int) = rng.width * words dims :=
  Int.natCast_mul _ _

/- The stride of each dimension. -/
def strides : List NetRange → List Int
| [] => []
| _ :: dims => words dims :: strides dims

theorem makeStrides_eq {dims : List NetRange} (hDims : dims ≠ []) (hWords : words dims < 2 ^ 62) :
    makeStrides dims = some (strides dims) := by
  induction dims with
  | nil => exact absurd rfl hDims
  | cons first dims ih =>
    cases dims with
    | nil => rfl
    | cons rng dims =>
      have hRest := (words_le first (rng :: dims)).1
      have hWidth := (words_le rng dims).2
      have hProduct := cast_words_cons rng dims
      have hStride := @toLong_self rng.width (by omega) (by omega)
      have hLong := @long_of_range (words (rng :: dims)) (by omega) (by omega)
      have hStep : makeStrides (first :: rng :: dims) =
          (makeStrides (rng :: dims)).bind fun stride =>
            stride.head?.bind fun head =>
              (long (toLong rng.width * head)).bind fun tmp => some (tmp :: stride) := rfl
      rw [hStep, ih (by simp) (by omega), Option.bind_some, strides, List.head?_cons,
        Option.bind_some, hStride, ← hProduct, hLong, Option.bind_some]
      rw [strides, strides]

/- The terms of an address in range. -/
theorem offset_mul_bounds {rng : NetRange} {dims : List NetRange} {n : Int} (hIn : InRange rng n) :
    0 ≤ (n - rng.useBase) * (words dims : Int) ∧
      (n - rng.useBase) * (words dims : Int) + words dims ≤ words (rng :: dims) := by
  rcases (inRange_iff rng n).mp hIn with ⟨hLow, hHigh⟩
  have hMul : (n - rng.useBase + 1) * (words dims : Int) ≤ (rng.width : Int) * words dims :=
    Int.mul_le_mul_of_nonneg_right (by omega) (by omega)
  have hProduct := cast_words_cons rng dims
  have hSplit : (n - rng.useBase + 1) * (words dims : Int) =
      (n - rng.useBase) * (words dims : Int) + words dims := by
    ring
  refine ⟨Int.mul_nonneg hLow (by omega), ?_⟩
  rw [← hSplit]
  exact hMul

theorem rowMajor_bounds {dims : List NetRange} {ns : List Int}
    (hIn : List.Forall₂ InRange dims ns) :
    0 ≤ rowMajor dims ns ∧ rowMajor dims ns < words dims := by
  induction hIn with
  | nil => exact ⟨Int.le_refl 0, by decide⟩
  | cons hFirst hRest ih =>
    rename_i rng n dims ns
    rcases @offset_mul_bounds rng dims n hFirst with ⟨hLow, hHigh⟩
    unfold rowMajor
    rw [← rng.useBase_eq]
    exact ⟨by omega, by omega⟩

end EpicSim

----
-- Constant Indices
----

namespace EpicSim

open TwosComplement

/- No offset that is looked at leaves a `long`. -/
def OffsetsFit : List NetRange → List Int → Prop
| rng :: dims, n :: ns =>
  (-2 ^ 63 ≤ n - rng.useBase ∧ n - rng.useBase < 2 ^ 63) ∧ (InRange rng n → OffsetsFit dims ns)
| _, _ => True

instance decidableOffsetsFit :
    ∀ (dims : List NetRange) (ns : List Int), Decidable (OffsetsFit dims ns)
| rng :: dims, n :: ns =>
  have := decidableOffsetsFit dims ns
  inferInstanceAs (Decidable
    ((-2 ^ 63 ≤ n - rng.useBase ∧ n - rng.useBase < 2 ^ 63) ∧ (InRange rng n → OffsetsFit dims ns)))
| [], _ => inferInstanceAs (Decidable True)
| _ :: _, [] => inferInstanceAs (Decidable True)

theorem long_eq_none_iff {n : Int} : long n = none ↔ ¬ (-2 ^ 63 ≤ n ∧ n < 2 ^ 63) := by
  unfold long
  split_ifs with h
  · exact ⟨fun hSome => (by cases hSome), fun hNot => absurd h hNot⟩
  · exact ⟨fun _ => h, fun _ => rfl⟩

/- The walk over constant indices. -/
theorem canonicalAddr_spec {dims : List NetRange} {ns : List Int} {addr : Int}
    (hLength : ns.length = dims.length) (hWords : words dims < 2 ^ 62) (hLow : 0 ≤ addr)
    (hHigh : addr + words dims < 2 ^ 63) :
    (List.Forall₂ InRange dims ns →
      canonicalAddr dims (strides dims) ns addr = some (some (addr + rowMajor dims ns))) ∧
    (¬ List.Forall₂ InRange dims ns →
      canonicalAddr dims (strides dims) ns addr =
        if OffsetsFit dims ns then some none else none) := by
  induction dims generalizing ns addr with
  | nil =>
    have hNil : ns = [] := List.length_eq_zero_iff.mp hLength
    rw [hNil]
    refine ⟨fun _ => ?_, fun hNot => absurd .nil hNot⟩
    rw [rowMajor, Int.add_zero]
    · rfl
    · intro _ _ _ _ hCons
      cases hCons
  | cons rng dims ih =>
    cases ns with
    | nil => cases hLength
    | cons n ns =>
      have hLe := words_le rng dims
      have hRange := inRange_iff rng n
      rw [strides, canonicalAddr, toLong_self (by omega) (by omega), List.forall₂_cons]
      by_cases hFit : -2 ^ 63 ≤ n - rng.useBase ∧ n - rng.useBase < 2 ^ 63
      swap
      · rw [long_eq_none_iff.mpr hFit]
        refine ⟨fun h => ?_, fun _ => ?_⟩
        · have := hRange.mp h.1
          omega
        · rw [if_neg (fun h => hFit h.1)]
          rfl
      rw [long_of_range hFit.1 hFit.2, Option.bind_eq_bind, Option.bind_some]
      by_cases hIn : InRange rng n
      · have hBetween := hRange.mp hIn
        rcases @offset_mul_bounds rng dims n hIn with ⟨hTerm, hSum⟩
        have hFits : OffsetsFit (rng :: dims) (n :: ns) ↔
            OffsetsFit dims ns :=
          ⟨fun h => h.2 hIn, fun h => ⟨hFit, fun _ => h⟩⟩
        simp only [hFits, hIn, true_and]
        rw [if_neg (by omega), long_of_range (by omega) (by omega),
          Option.bind_some, long_of_range (by omega) (by omega), rowMajor, ← rng.useBase_eq,
          ← Int.add_assoc]
        exact ih (Nat.succ.inj hLength) (by omega) (by omega) (by omega)
      · have hOut : n - rng.useBase < 0 ∨
            (rng.width : Int) ≤ n - rng.useBase := by
          by_contra hNot
          exact hIn (hRange.mpr (by omega))
        have hFits : OffsetsFit (rng :: dims) (n :: ns) := ⟨hFit, fun hAbs => absurd hAbs hIn⟩
        rw [if_pos hOut, if_pos hFits]
        exact ⟨fun h => absurd h.1 hIn, fun _ => rfl⟩

end EpicSim

----
-- Scaled Offsets
----

namespace EpicSim

open TwosComplement

/-
  A sum as the design reads it: its value, none where a bit is
  unknown, at the width and the sign of its node.
-/
structure Place where
  value : Option Int
  width : Nat
  signed : Bool
deriving DecidableEq

/- The `long` that a constant index is taken for. -/
def constIndex (env : NetExpr.Env) (index : NetExpr) : Int :=
  if (index.eval env).Defined then cutLong (index.denotes env)
  else 0

/- What a sum of so many bits sees of an unknown index. -/
def seenIndex (room : Option Nat) (bits : Bits) : Option Int :=
  room.bind fun room =>
    if Bits.Defined (bits.take room) then
      some (Bits.number (bits.take room))
    else none

/- The width and the value of a scaled offset. -/
def scaledOffset (log2 : Int → Nat) (signed : Bool) (width : Nat)
    (stride offset : Int) : Nat × Int :=
  if stride = 1 then (width, cutTo signed width offset)
  else
    (width + log2 stride, cutTo signed (width + log2 stride) (cutTo signed width offset * stride))

/-
  What one index adds: none where the arithmetic leaves a
  `long`, and none inside for the constant zero.  An unknown
  index without arithmetic may lose its unknown bits.
-/
def indexPlace (log2 : Int → Nat) (env : NetExpr.Env) (rng : NetRange)
    (stride : Int) (index : NetExpr) (room : Option Nat) : Option (Option Place) :=
  (indexWidth rng stride index.exprWidth).bind fun width =>
    match index with
    | .const _ =>
      (long (constIndex env index - rng.useBase)).bind fun n =>
        (long (n * stride)).map fun n => if n = 0 then none else some ⟨some n, int64Bits n, true⟩
    | _ =>
      let place := scaledOffset log2 index.hasSign width stride
        (index.denotes env - rng.useBase)
      let value :=
        if (index.eval env).Defined then some place.2
        else if rng.useBase = 0 ∧ stride = 1 then
          seenIndex room (index.eval env)
        else none
      some (some ⟨value, place.1, index.hasSign⟩)

namespace NetExpr

/- An expression has the value, the width and the sign. -/
structure Reads (env : Env) (expr : NetExpr) (place : Place) : Prop where
  exprWidth : expr.exprWidth = place.width
  hasSign : expr.hasSign = place.signed
  defined : (expr.eval env).Defined ↔ place.value.isSome = true
  denotes : ∀ n ∈ place.value, expr.denotes env = n

/- An expression has the value in a sum of so many bits. -/
structure Seen (env : Env) (room : Nat) (expr : NetExpr) (place : Place) : Prop where
  hasSign : expr.hasSign = place.signed
  defined : ((expr.eval env).padTo expr.hasSign room).Defined ↔ place.value.isSome = true
  modEq : ∀ n ∈ place.value,
    (((expr.eval env).padTo expr.hasSign room).number : Int) ≡ n [ZMOD 2 ^ room]

/- How the next sum, if there is one, sees an expression. -/
def SeenIn (env : Env) (room : Option Nat) (expr : NetExpr) (place : Place) : Prop :=
  match room with
  | none => expr.Reads env place
  | some room => expr.Seen env room place

theorem seenIn_of_defined {env : Env} {expr : NetExpr} {place : Place} {n : Int}
    (room : Option Nat) (hWidth : expr.exprWidth = place.width)
    (hSign : expr.hasSign = place.signed) (hDefined : (expr.eval env).Defined)
    (hValue : place.value = some n) (hDenotes : expr.denotes env = n) :
    expr.SeenIn env room place := by
  cases room with
  | none =>
    refine ⟨hWidth, hSign, ?_, fun m hMem => ?_⟩
    · grind
    · grind
  | some room =>
    refine ⟨hSign, ?_, fun m hMem => ?_⟩
    · rw [hValue]
      exact ⟨fun _ => rfl, fun _ => Bits.defined_padTo hDefined _ _⟩
    · rw [hValue, Option.mem_some_iff] at hMem
      rw [← hMem, ← hDenotes]
      exact Bits.number_padTo hDefined _ _

theorem seenIn_of_unknown {env : Env} {expr : NetExpr} {place : Place} {width : Nat}
    {room : Option Nat} (hRoom : ∀ n ∈ room, 0 < n)
    (hPos : 0 < width) (hWidth : expr.exprWidth = place.width) (hSign : expr.hasSign = place.signed)
    (hEval : expr.eval env = Bits.unknown width) (hValue : place.value = none) :
    expr.SeenIn env room place := by
  cases room with
  | none =>
    refine ⟨hWidth, hSign, ?_, fun m hMem => ?_⟩
    · rw [hValue, hEval]
      exact ⟨fun h => absurd h (Bits.not_defined_unknown hPos), fun h => by cases h⟩
    · rw [hValue] at hMem
      cases hMem
  | some room =>
    have hSome := hRoom room rfl
    refine ⟨hSign, ?_, fun m hMem => ?_⟩
    · rw [hValue, hEval, Bits.defined_padTo_iff, Bits.take_unknown]
      exact ⟨fun h => absurd h (Bits.not_defined_unknown (by omega)), fun h => by cases h⟩
    · rw [hValue] at hMem
      cases hMem

end NetExpr

end EpicSim

----
-- Terms Of The Sum
----

namespace EpicSim

open TwosComplement

theorem int64Bits_fits {n : Int} (hLow : -2 ^ 63 ≤ n) (hHigh : n < 2 ^ 63) :
    Fits true (int64Bits n) n := by
  have hTdiv : ∀ m : Int, (m.tdiv 2).natAbs = m.natAbs / 2 := fun m => Int.natAbs_tdiv m 2
  have hHalf : (if n < 0 then (n + 1).tdiv 2
      else n.tdiv 2).natAbs < 2 ^ 64 ∧
        -2 * ((if n < 0 then (n + 1).tdiv 2
          else n.tdiv 2).natAbs : Int) - 2 ≤ n ∧
        n ≤ 2 * ((if n < 0 then (n + 1).tdiv 2
          else n.tdiv 2).natAbs : Int) + 1 := by
    split_ifs with hNeg
    · rw [hTdiv]
      omega
    · rw [hTdiv]
      omega
  unfold int64Bits
  generalize (if n < 0 then (n + 1).tdiv 2
    else n.tdiv 2).natAbs = half at hHalf ⊢
  have hBound := bitLoop_bound hHalf.1
  have hCast := cast_two_pow (bitLoop 64 half)
  unfold Fits
  rw [if_pos rfl, pow_add]
  omega

theorem ofInt64_spec (env : NetExpr.Env) {n : Int} (hLow : -2 ^ 63 ≤ n) (hHigh : n < 2 ^ 63) :
    (NetExpr.const (Verinum.ofInt64 n)).exprWidth = int64Bits n ∧
      ((NetExpr.const (Verinum.ofInt64 n)).eval env).Defined ∧
      (NetExpr.const (Verinum.ofInt64 n)).denotes env = n := by
  refine ⟨?_, ?_, ?_⟩
  · exact Bits.length_ofInt _ _
  · exact Bits.defined_ofInt _ _
  · exact Bits.integer_ofInt_iff.mpr ⟨Int.ModEq.refl n, int64Bits_fits hLow hHigh⟩

/- The arithmetic on an index is wider than the index, than
   its dimension, and leaves room for the stride. -/
theorem indexWidth_bounds {rng : NetRange} {stride : Int} {expr_width width : Nat}
    (h : indexWidth rng stride expr_width = some width)
    (hStride : 0 < stride ∧ stride < 2 ^ 62) (hWidth : rng.width < 2 ^ 62) :
    expr_width ≤ width ∧ 0 < width ∧
      2 * (rng.width * stride) < 2 ^ width := by
  unfold indexWidth at h
  rw [toLong_self (by omega) (by omega)] at h
  have hBits : ∀ n : Int, 0 ≤ n → n < 2 ^ 63 →
      numBits n = some (bitsFor n) ∧ n < 2 ^ bitsFor n := by
    intro n hLow hHigh
    exact ⟨numBits_of_range (by omega), (bitsFor_bounds (by omega) hHigh (Nat.le_refl _)).2⟩
  have hDim := hBits (rng.width + 1) (by omega) (by omega)
  have hBase : ∃ base_wid, rng.baseBits = some base_wid := by
    cases hEq : rng.baseBits with
    | none =>
      rw [hEq] at h
      cases h
    | some base_wid => exact ⟨base_wid, rfl⟩
  rcases hBase with ⟨base_wid, hBase⟩
  rw [hBase, Option.bind_eq_bind, Option.bind_some, hDim.1, Option.bind_some] at h
  generalize hMin : (if rng.useBase ≠ 0 ∧ expr_width ≤ base_wid then
    base_wid + 1 else expr_width) = min_wid at h
  have hMinLe : expr_width ≤ min_wid := by
    rw [← hMin]
    split_ifs <;> omega
  generalize hWide : (if min_wid ≤ bitsFor (rng.width + 1) then
    bitsFor (rng.width + 1) + 1 else min_wid) = wide at h
  have hWideLe : min_wid ≤ wide ∧
      bitsFor (rng.width + 1) + 1 ≤ wide := by
    rw [← hWide]
    split_ifs <;> omega
  have hPow : (2 : Int) ^ (bitsFor (rng.width + 1) + 1) ≤ 2 ^ wide := by
    exact_mod_cast Nat.pow_le_pow_right (by decide : 0 < 2) hWideLe.2
  have hRoom : 2 * (rng.width : Int) < 2 ^ wide := by omega
  split_ifs at h with hOne
  · grind
  · have hScale := hBits stride (by omega) (by omega)
    rw [hScale.1, Option.map_some, Option.some.injEq] at h
    rw [← h, pow_add]
    refine ⟨by omega, by omega, ?_⟩
    have hPos : (0 : Int) < 2 ^ wide := by exact_mod_cast Nat.two_pow_pos wide
    calc
      2 * ((rng.width : Int) * stride) =
          2 * (rng.width : Int) * stride := by ring
      _ ≤ 2 ^ wide * stride := Int.mul_le_mul_of_nonneg_right (by omega) (by omega)
      _ < 2 ^ wide * 2 ^ bitsFor stride := Int.mul_lt_mul_of_pos_left hScale.2 hPos

theorem asLong_of_not_defined {value : Verinum} (h : ¬ value.Defined) : value.asLong = 0#64 := by
  have hNot : (!value.isDefined) = true := by
    rw [Bool.not_eq_true']
    exact Bool.eq_false_iff.mpr h
  unfold Verinum.asLong
  split_ifs <;> rfl

namespace NetExpr

/- A constant index, widened and read as a `long`. -/
theorem asLong_padToWidth {env : Env} {value : Verinum} {wid : Nat}
    (hPlain : value.is_single = false) (hPos : 0 < wid) (hLe : value.len ≤ wid) :
    ∃ value', (NetExpr.const value).padToWidth wid = .const value' ∧
      value'.asLong.toInt = constIndex env (.const value) := by
  unfold constIndex denotes
  rw [eval]
  by_cases hDefined : value.Defined
  · have hCond : Bits.Defined value.bits := hDefined
    rw [if_pos hCond]
    rcases Nat.eq_or_lt_of_le hLe with hSame | hLt
    · refine ⟨value, padToWidth_of_le ?_, ?_⟩
      · rw [exprWidth_const]
        omega
      · exact Verinum.asLong_toInt hDefined (by omega)
    · refine ⟨value.padToWidth wid, padToWidth_const hLt, ?_⟩
      have hBits := bits_padToWidth hDefined hPlain hLt
      have hSign : (value.padToWidth wid).has_sign = value.has_sign := by
        unfold Verinum.padToWidth
        split_ifs <;> rfl
      have hLen : (value.padToWidth wid).len = wid := by
        unfold Verinum.len
        rw [hBits, Bits.length_padTo]
      have hNew : (value.padToWidth wid).Defined := by
        have hPad := Bits.defined_padTo hCond value.has_sign wid
        rw [← hBits] at hPad
        exact hPad
      have hInteger : (value.padToWidth wid).integer = Bits.integer value.has_sign value.bits := by
        rw [← Bits.integer_padTo hCond hLe, ← hBits, ← hSign]
        rfl
      rw [Verinum.asLong_toInt hNew (by omega), hInteger]
      rfl
  · have hCond : ¬ Bits.Defined value.bits := hDefined
    rw [if_neg hCond]
    rcases Nat.eq_or_lt_of_le hLe with hSame | hLt
    · refine ⟨value, padToWidth_of_le ?_, ?_⟩
      · rw [exprWidth_const]
        omega
      · rw [asLong_of_not_defined hDefined]
        rfl
    · refine ⟨value.padToWidth wid, padToWidth_const hLt, ?_⟩
      rw [asLong_of_not_defined]
      · rfl
      · intro hNew
        apply hDefined
        unfold Verinum.Defined Verinum.isDefined at hNew ⊢
        unfold Verinum.padToWidth at hNew
        rw [if_neg (Nat.not_le_of_lt hLt)] at hNew
        split_ifs at hNew with hEmpty
        · rw [List.length_eq_zero_iff.mp hEmpty]
          rfl
        · grind

end NetExpr

end EpicSim

namespace EpicSim

open TwosComplement NetExpr

theorem long_range {n m : Int} (h : long n = some m) : m = n ∧ -2 ^ 63 ≤ n ∧ n < 2 ^ 63 := by
  unfold long at h
  split_ifs at h with hRange
  rw [Option.some.injEq] at h
  exact ⟨h.symm, hRange⟩

theorem indexPlace_const (log2 : Int → Nat) (env : Env) (rng : NetRange) (stride : Int)
    (value : Verinum) (room : Option Nat) :
    indexPlace log2 env rng stride (.const value) room =
      (indexWidth rng stride (NetExpr.const value).exprWidth).bind
        fun _ =>
          (long (constIndex env (.const value) - rng.useBase)).bind
            fun n => (long (n * stride)).map fun n =>
              if n = 0 then none
              else some ⟨some n, int64Bits n, true⟩ := rfl

theorem indexPlace_of_not_const {index : NetExpr} (log2 : Int → Nat) (env : Env)
    (rng : NetRange) (stride : Int) (room : Option Nat) (hNot : ∀ value, index ≠ .const value) :
    indexPlace log2 env rng stride index room =
      (indexWidth rng stride index.exprWidth).map fun width =>
        let place := scaledOffset log2 index.hasSign width stride
          (index.denotes env - rng.useBase)
        some ⟨if (index.eval env).Defined then some place.2
          else if rng.useBase = 0 ∧ stride = 1 then
            seenIndex room (index.eval env)
          else none, place.1, index.hasSign⟩ := by
  unfold indexPlace
  cases indexWidth rng stride index.exprWidth with
  | none => rfl
  | some width => simp

theorem scaleIndex_of_not_const {index : NetExpr} {rng : NetRange} {stride : Int}
    {width : Nat} (log2 : Int → Nat) (hWidth : indexWidth rng stride index.exprWidth = some width)
    (hNot : ∀ value, index.padToWidth width ≠ .const value) :
    scaleIndex log2 rng stride index =
      (rng.offsetExpr (index.padToWidth width)).map fun tmp =>
        some (if stride = 1 then tmp
          else tmp.makeMultExpr log2 stride) := by
  unfold scaleIndex
  rw [hWidth, Option.bind_eq_bind, Option.bind_some]
  cases hPad : index.padToWidth width with
  | const value => exact absurd hPad (hNot value)
  | _ =>
    rw [Option.map_eq_bind]
    rfl

/- The terms of constant indices agree. -/
theorem scaleIndex_const {rng : NetRange} {stride : Int} {value : Verinum}
    (log2 : Int → Nat) (env : Env) (room : Option Nat)
    (hPlain : value.is_single = false) (hStride : 0 < stride ∧ stride < 2 ^ 62)
    (hDim : rng.width < 2 ^ 62) :
    Option.Rel (Option.Rel (NetExpr.SeenIn env room))
      (scaleIndex log2 rng stride (.const value))
      (indexPlace log2 env rng stride (.const value) room) := by
  rw [indexPlace_const]
  unfold scaleIndex
  cases hWidth : indexWidth rng stride (NetExpr.const value).exprWidth with
  | none => exact Option.Rel.none
  | some width =>
    rcases indexWidth_bounds hWidth hStride hDim with ⟨hLe, hPos, -⟩
    rcases @asLong_padToWidth env value width hPlain hPos hLe with ⟨value', hPad, hLong⟩
    rw [Option.bind_eq_bind, Option.bind_some, Option.bind_some, hPad]
    dsimp only
    rw [hLong]
    cases hVal : long (constIndex env (.const value) - rng.useBase) with
    | none => exact Option.Rel.none
    | some val =>
      rw [Option.bind_eq_bind, Option.bind_some, Option.bind_some]
      cases hScaled : long (val * stride) with
      | none => exact Option.Rel.none
      | some scaled =>
        rcases long_range hScaled with ⟨rfl, hLow, hHigh⟩
        rw [Option.map_some]
        apply Option.Rel.some
        split_ifs with hZero
        · exact Option.Rel.none
        · rcases ofInt64_spec env hLow hHigh with ⟨hWide, hDefined, hDenotes⟩
          exact Option.Rel.some (seenIn_of_defined room hWide rfl hDefined rfl hDenotes)

/- An index of the width and the sign of the sum, less its
   base; `value` is its value if it is known. -/
structure Offset (env : Env) (rng : NetRange) (index : NetExpr) (width : Nat)
    (tmp : NetExpr) : Prop where
  not_const : ∀ value, tmp ≠ .const value
  exprWidth : tmp.exprWidth = width
  hasSign : tmp.hasSign = index.hasSign
  known : (index.eval env).Defined →
    (tmp.eval env).Defined ∧
      tmp.denotes env = cutTo index.hasSign width (index.denotes env - rng.useBase)
  unknown : ¬ (index.eval env).Defined → rng.useBase ≠ 0 → tmp.eval env = Bits.unknown width
  plain : rng.useBase = 0 → tmp.eval env = (index.eval env).padTo index.hasSign width

end EpicSim

namespace EpicSim

open TwosComplement NetExpr

variable {env : Env} {width : Nat}

/- What a product denotes. -/
theorem NetExpr.denotes_mult {l r : NetExpr} {signed : Bool}
    {a b : Int} (hL : (l.eval env).Defined) (hR : (r.eval env).Defined)
    (hA : l.denotes env ≡ a [ZMOD 2 ^ width]) (hB : r.denotes env ≡ b [ZMOD 2 ^ width]) :
    (NetExpr.mult l r width signed).denotes env = cutTo signed width (a * b) := by
  have hLeft := (Bits.number_padTo hL l.hasSign width).trans hA
  have hRight := (Bits.number_padTo hR r.hasSign width).trans hB
  unfold NetExpr.denotes
  rw [eval, Bits.arith_of_defined _ _
    (Bits.defined_padTo hL _ _) (Bits.defined_padTo hR _ _),
    Bits.integer_ofInt_iff]
  exact ⟨(hLeft.mul hRight).trans (cutTo_modEq _ _ _), cutTo_fits _ _ _⟩

theorem Bits.arith_unknown (f : Int → Int → Int) (width : Nat) {l r : Bits}
    (h : ¬ (l.Defined ∧ r.Defined)) : Bits.arith f width l r = Bits.unknown width := if_neg h

/- A summand of the width of an operand that is not known. -/
theorem NetExpr.eval_add_of_not_defined {op : AddOp} {l r : NetExpr}
    {signed : Bool} (hWidth : l.exprWidth ≤ width) (hNot : ¬ (l.eval env).Defined) :
    (NetExpr.add op l r width signed).eval env = Bits.unknown width := by
  apply Bits.arith_unknown
  rintro ⟨hLeft, -⟩
  rw [Bits.defined_padTo_iff, List.take_of_length_le] at hLeft
  · exact hNot hLeft
  · rw [length_eval]
    exact hWidth

theorem offsetExpr_spec {rng : NetRange} {stride : Int} {index : NetExpr}
    (hNot : ∀ value, index ≠ .const value)
    (hBase : -2 ^ 63 ≤ rng.useBase ∧ rng.useBase < 2 ^ 63)
    (hWidth : indexWidth rng stride index.exprWidth = some width) (hLe : index.exprWidth ≤ width) :
    ∃ tmp, rng.offsetExpr (index.padToWidth width) = some tmp ∧
      Offset env rng index width tmp := by
  rcases eval_padToWidth_of_not_const env hNot hLe with ⟨hEval, hSign, hPadNot⟩
  have hPadWidth := exprWidth_padToWidth_of_not_const hNot hLe
  have hPadDenotes : (index.eval env).Defined →
      (index.padToWidth width).denotes env = index.denotes env := by
    intro hDefined
    unfold NetExpr.denotes
    rw [hEval, hSign, Bits.integer_padTo hDefined (by rw [length_eval]; exact hLe)]
  have hFits := (index.denotes_fits env).mono hLe
  unfold NetRange.offsetExpr
  by_cases hZero : rng.useBase = 0
  · refine ⟨_, if_pos hZero, hPadNot, hPadWidth, hSign, ?_, ?_, fun _ => hEval⟩
    · intro hDefined
      rw [hPadDenotes hDefined, hZero, Int.sub_zero, cutTo_of_fits hFits, hEval]
      exact ⟨Bits.defined_padTo hDefined _ _, rfl⟩
    · intro _ hNonzero
      exact absurd hZero hNonzero
  · have hLeast : rng.useBase ≠ -2 ^ 63 := by
      intro hEq
      unfold indexWidth at hWidth
      have hNone : rng.baseBits = none := by
        unfold NetRange.baseBits
        rw [hEq]
        rfl
      rw [hNone] at hWidth
      cases hWidth
    rw [if_neg hZero, long_of_range (by omega) (by omega), Option.bind_some]
    unfold NetExpr.makeAddExpr
    rw [if_neg (by omega), hPadWidth, hSign]
    have hSum : ∀ (op : AddOp) (val : Int), 0 ≤ val → val < 2 ^ 64 →
        evalAdd op (index.denotes env) val = index.denotes env - rng.useBase →
        Offset env rng index width
          (.add op (index.padToWidth width)
            ((index.padToWidth width).longConst val) width
            index.hasSign) := by
      intro op val hLow hHigh hVal
      have hConst := longConst_spec env (index.padToWidth width) val
      rw [Int.emod_eq_of_lt hLow hHigh, hPadWidth] at hConst
      constructor
      · intro value hEq
        cases hEq
      · rw [NetExpr.exprWidth]
      · rfl
      · intro hDefined
        have hPad : ((index.padToWidth width).eval env).Defined := by
          rw [hEval]
          exact Bits.defined_padTo hDefined _ _
        rw [denotes_add hPad hConst.1 (Int.ModEq.refl _) hConst.2, hPadDenotes hDefined, hVal]
        refine ⟨?_, rfl⟩
        rw [eval,
          Bits.arith_of_defined _ _ (Bits.defined_padTo hPad _ _) (Bits.defined_padTo hConst.1 _ _)]
        exact Bits.defined_ofInt _ _
      · intro hUnknown _
        apply eval_add_of_not_defined (Nat.le_of_eq hPadWidth)
        rw [hEval, Bits.defined_padTo_iff, List.take_of_length_le]
        · exact hUnknown
        · rw [length_eval]
          exact hLe
      · intro hAbs
        exact absurd hAbs hZero
    split_ifs with hNeg
    · rw [long_of_range (by omega) (by omega)]
      exact ⟨_, rfl, hSum .sub (- -rng.useBase) (by omega) (by omega) (by change _ - _ = _; omega)⟩
    · exact ⟨_, rfl, hSum .add (-rng.useBase) (by omega) (by omega) (by change _ + _ = _; omega)⟩

/- A product with a stride. -/
theorem makeMultExpr_spec {tmp : NetExpr} {stride : Int} (log2 : Int → Nat)
    (hNot : ∀ value, tmp ≠ .const value) (hStride : 0 < stride ∧ stride < 2 ^ 62) :
    (tmp.makeMultExpr log2 stride).exprWidth = tmp.exprWidth + log2 stride ∧
      (tmp.makeMultExpr log2 stride).hasSign = tmp.hasSign ∧
      ((tmp.eval env).Defined →
        ((tmp.makeMultExpr log2 stride).eval env).Defined ∧
          (tmp.makeMultExpr log2 stride).denotes env =
            cutTo tmp.hasSign (tmp.exprWidth + log2 stride) (tmp.denotes env * stride)) ∧
      (¬ (tmp.eval env).Defined →
        (tmp.makeMultExpr log2 stride).eval env = Bits.unknown (tmp.exprWidth + log2 stride)) := by
  have hLe : tmp.exprWidth ≤ tmp.exprWidth + log2 stride := by omega
  rcases eval_padToWidth_of_not_const env hNot hLe with ⟨hEval, hSign, -⟩
  have hPadWidth := exprWidth_padToWidth_of_not_const hNot hLe
  have hEq : tmp.makeMultExpr log2 stride =
      .mult (tmp.padToWidth (tmp.exprWidth + log2 stride))
        ((tmp.padToWidth (tmp.exprWidth + log2 stride)).longConst
          stride) (tmp.exprWidth + log2 stride) tmp.hasSign := by
    unfold NetExpr.makeMultExpr NetExpr.longConst
    rw [hPadWidth, hSign]
  have hConst := longConst_spec env (tmp.padToWidth (tmp.exprWidth + log2 stride)) stride
  rw [Int.emod_eq_of_lt (by omega) (by omega), hPadWidth] at hConst
  rw [hEq]
  refine ⟨by rw [NetExpr.exprWidth], rfl, fun hDefined => ?_, fun hUnknown => ?_⟩
  · have hPad : ((tmp.padToWidth (tmp.exprWidth + log2 stride)).eval env).Defined := by
      rw [hEval]
      exact Bits.defined_padTo hDefined _ _
    have hDenotes : (tmp.padToWidth
        (tmp.exprWidth + log2 stride)).denotes env = tmp.denotes env := by
      unfold NetExpr.denotes
      rw [hEval, hSign, Bits.integer_padTo hDefined (by rw [length_eval]; exact hLe)]
    rw [denotes_mult hPad hConst.1 (Int.ModEq.refl _) hConst.2, hDenotes]
    refine ⟨?_, rfl⟩
    rw [eval,
      Bits.arith_of_defined _ _ (Bits.defined_padTo hPad _ _) (Bits.defined_padTo hConst.1 _ _)]
    exact Bits.defined_ofInt _ _
  · apply Bits.arith_unknown
    rintro ⟨hLeft, -⟩
    apply hUnknown
    rw [Bits.defined_padTo_iff, hEval, List.take_of_length_le (by rw [Bits.length_padTo]),
      Bits.defined_padTo_iff, List.take_of_length_le (by rw [length_eval]; exact hLe)] at hLeft
    exact hLeft

end EpicSim

namespace EpicSim

open TwosComplement NetExpr

/- A padded unknown index in the next sum. -/
theorem seenIn_of_plain {env : Env} {index tmp : NetExpr} {width : Nat}
    (room : Option Nat) (hLe : index.exprWidth ≤ width)
    (hUnknown : ¬ (index.eval env).Defined) (hWidth : tmp.exprWidth = width)
    (hSign : tmp.hasSign = index.hasSign)
    (hEval : tmp.eval env = (index.eval env).padTo index.hasSign width) :
    tmp.SeenIn env room ⟨seenIndex room (index.eval env), width, index.hasSign⟩ := by
  have hLength : (index.eval env).length ≤ width := by
    rw [length_eval]
    exact hLe
  have hPad : ¬ Bits.Defined ((index.eval env).padTo index.hasSign width) := by
    rw [Bits.defined_padTo_iff, List.take_of_length_le hLength]
    exact hUnknown
  cases room with
  | none =>
    refine ⟨hWidth, hSign, ?_, fun n hMem => by cases hMem⟩
    rw [hEval]
    exact ⟨fun h => absurd h hPad, fun h => by cases h⟩
  | some room =>
    have hTake : room ≤ (index.eval env).length →
        ((index.eval env).padTo index.hasSign width).padTo
          index.hasSign room = (index.eval env).take room := by
      intro hRoom
      rw [Bits.padTo_of_le _ (by rw [Bits.length_padTo]; omega)]
      unfold Bits.padTo
      grind
    have hSeen : seenIndex (some room) (index.eval env) =
        if Bits.Defined ((index.eval env).take room) then
          some (Bits.number ((index.eval env).take room) : Int)
        else none := rfl
    rcases Nat.le_total room (index.eval env).length with hCut | hAll
    · refine ⟨hSign, ?_, fun n hMem => ?_⟩
      · grind
      · rw [hSeen] at hMem
        split_ifs at hMem with hDefined
        · rw [Option.mem_some_iff] at hMem
          rw [hEval, hSign, hTake hCut, hMem]
        · cases hMem
    · have hNone : seenIndex (some room) (index.eval env) =
          none := by
        rw [hSeen, List.take_of_length_le hAll]
        exact if_neg hUnknown
      rw [hNone]
      refine ⟨hSign, ?_, fun n hMem => by cases hMem⟩
      have hShort : ¬ Bits.Defined
          (((index.eval env).padTo index.hasSign width).padTo index.hasSign room) := by
        rw [Bits.defined_padTo_iff]
        intro hDefined
        apply hUnknown
        rw [Bits.defined_iff_all] at hDefined ⊢
        intro b hMem
        apply hDefined
        unfold Bits.padTo
        rw [List.take_of_length_le hLength, List.take_append]
        rw [List.take_of_length_le hAll]
        exact List.mem_append_left _ hMem
      rw [hEval, hSign]
      exact ⟨fun h => absurd h hShort, fun h => by cases h⟩

/- The terms of index expressions agree. -/
theorem scaleIndex_seen {env : Env} {rng : NetRange} {stride : Int} {index : NetExpr}
    {room : Option Nat} (log2 : Int → Nat) (hSized : index.Sized)
    (hBase : -2 ^ 63 ≤ rng.useBase ∧ rng.useBase < 2 ^ 63)
    (hStride : 0 < stride ∧ stride < 2 ^ 62) (hDim : rng.width < 2 ^ 62)
    (hRoom : ∀ n ∈ room, 0 < n) :
    Option.Rel (Option.Rel (NetExpr.SeenIn env room))
      (scaleIndex log2 rng stride index)
      (indexPlace log2 env rng stride index room) := by
  by_cases hConst : ∃ value, index = .const value
  · rcases hConst with ⟨value, rfl⟩
    exact scaleIndex_const log2 env room hSized hStride hDim
  have hNot : ∀ value, index ≠ .const value := fun value hEq => hConst ⟨value, hEq⟩
  rw [indexPlace_of_not_const log2 env rng stride room hNot]
  cases hWidth : indexWidth rng stride index.exprWidth with
  | none =>
    unfold scaleIndex
    rw [hWidth]
    exact Option.Rel.none
  | some width =>
    rcases indexWidth_bounds hWidth hStride hDim with ⟨hLe, hPos, -⟩
    rcases @offsetExpr_spec env _ _ _ _ hNot hBase hWidth hLe with ⟨tmp, hTmp, hOffset⟩
    have hPadNot := (eval_padToWidth_of_not_const env hNot hLe).2.2
    rw [scaleIndex_of_not_const log2 hWidth hPadNot, hTmp]
    apply Option.Rel.some
    apply Option.Rel.some
    have hTmpUnknown : ¬ (index.eval env).Defined →
        ¬ (tmp.eval env).Defined := by
      intro hUnknown
      by_cases hZero : rng.useBase = 0
      · rw [hOffset.plain hZero, Bits.defined_padTo_iff,
          List.take_of_length_le (by rw [length_eval]; exact hLe)]
        exact hUnknown
      · rw [hOffset.unknown hUnknown hZero]
        exact Bits.not_defined_unknown hPos
    unfold scaledOffset
    by_cases hOne : stride = 1
    · rw [if_pos hOne, if_pos hOne]
      by_cases hDefined : (index.eval env).Defined
      · rw [if_pos hDefined]
        have hKnown := hOffset.known hDefined
        exact seenIn_of_defined room hOffset.exprWidth hOffset.hasSign hKnown.1 rfl hKnown.2
      · rw [if_neg hDefined]
        by_cases hZero : rng.useBase = 0
        · rw [if_pos ⟨hZero, hOne⟩]
          exact seenIn_of_plain room hLe hDefined
            hOffset.exprWidth hOffset.hasSign
            (hOffset.plain hZero)
        · rw [if_neg (fun h => hZero h.1)]
          exact seenIn_of_unknown hRoom hPos hOffset.exprWidth
            hOffset.hasSign (hOffset.unknown hDefined hZero) rfl
    · rw [if_neg hOne, if_neg hOne]
      rcases @makeMultExpr_spec env tmp stride log2
        hOffset.not_const hStride with ⟨hMultWidth, hMultSign, hMultKnown, hMultUnknown⟩
      rw [hOffset.exprWidth] at hMultWidth hMultKnown hMultUnknown
      rw [hOffset.hasSign] at hMultSign hMultKnown
      by_cases hDefined : (index.eval env).Defined
      · rw [if_pos hDefined]
        have hKnown := hOffset.known hDefined
        have hProduct := hMultKnown hKnown.1
        rw [hKnown.2] at hProduct
        exact seenIn_of_defined room hMultWidth hMultSign hProduct.1 rfl hProduct.2
      · rw [if_neg hDefined, if_neg (fun h => hOne h.2)]
        exact seenIn_of_unknown hRoom (by omega) hMultWidth
          hMultSign (hMultUnknown (hTmpUnknown hDefined)) rfl

end EpicSim

----
-- The Sum Over The Indices
----

namespace EpicSim

open TwosComplement NetExpr

/- A sum one bit wider than what it continues. -/
def Place.add (sum term : Place) : Place where
  value :=
    sum.value.bind fun a => term.value.map fun b =>
      cutTo (sum.signed && term.signed) (sum.width + 1) (a + b)
  width := sum.width + 1
  signed := sum.signed && term.signed

/-
  Where the sum of the scaled offsets lands: each offset, each
  product and each partial sum is read at the width and the
  sign that the arithmetic gives it.
-/
def landing (log2 : Int → Nat) (env : Env) :
    List NetRange → List NetExpr → Option Place → Option (Option Place)
| rng :: dims, index :: indices, sum =>
  (indexPlace log2 env rng (words dims) index
    (sum.map fun sum => sum.width + 1)).bind fun term =>
      landing log2 env dims indices <|
        match term with
        | none => sum
        | some term =>
          some (match sum with
          | none => term
          | some sum => sum.add term)
| _, [], sum => some sum
| _, _ :: _, _ => none

theorem reads_add {env : Env} {expr tmp : NetExpr} {sum term : Place}
    (hSum : expr.Reads env sum) (hTerm : tmp.Seen env (sum.width + 1) term) :
    (NetExpr.add .add expr tmp (expr.exprWidth + 1)
      (expr.hasSign && tmp.hasSign)).Reads env (sum.add term) := by
  have hAll : ((expr.eval env).padTo expr.hasSign
      (expr.exprWidth + 1)).Defined ↔ (expr.eval env).Defined := by
    rw [Bits.defined_padTo_iff, List.take_of_length_le]
    rw [length_eval]
    exact Nat.le_succ _
  have hLeft := hAll.trans hSum.defined
  have hRight := hTerm.defined
  rw [← hSum.exprWidth] at hRight
  constructor
  · rw [hSum.exprWidth]
    rfl
  · rw [hSum.hasSign, hTerm.hasSign]
    rfl
  · rw [eval]
    unfold Place.add Bits.arith
    cases hA : sum.value with
    | none =>
      rw [hA] at hLeft
      rw [if_neg (fun h => by cases hLeft.mp h.1)]
      exact ⟨fun h => absurd h (Bits.not_defined_unknown (Nat.succ_pos _)), fun h => by cases h⟩
    | some a =>
      cases hB : term.value with
      | none =>
        rw [hB] at hRight
        rw [if_neg (fun h => by cases hRight.mp h.2)]
        exact ⟨fun h => absurd h (Bits.not_defined_unknown (Nat.succ_pos _)), fun h => by cases h⟩
      | some b =>
        rw [hA] at hLeft
        rw [hB] at hRight
        rw [if_pos ⟨hLeft.mpr rfl, hRight.mpr rfl⟩]
        exact ⟨fun _ => rfl, fun _ => Bits.defined_ofInt _ _⟩
  · intro n hMem
    unfold Place.add at hMem
    cases hA : sum.value with
    | none =>
      rw [hA] at hMem
      cases hMem
    | some a =>
      cases hB : term.value with
      | none =>
        rw [hA, hB] at hMem
        cases hMem
      | some b =>
        rw [hA, hB, Option.bind_some, Option.map_some, Option.mem_some_iff] at hMem
        rw [hA] at hLeft
        rw [hB] at hRight
        have hDefined := hSum.defined.mpr (by rw [hA]; rfl)
        have hNumber := Bits.number_padTo hDefined expr.hasSign (expr.exprWidth + 1)
        have hDenotes := hSum.denotes a (by rw [hA]; rfl)
        unfold NetExpr.denotes at hDenotes
        rw [hDenotes] at hNumber
        have hSeen := hTerm.modEq b (by rw [hB]; rfl)
        rw [← hSum.exprWidth] at hSeen
        unfold NetExpr.denotes
        rw [eval, Bits.arith_of_defined _ _ (hLeft.mpr rfl) (hRight.mpr rfl),
          ← hMem, Bits.integer_ofInt_iff, ← hSum.exprWidth, ← hSum.hasSign, ← hTerm.hasSign]
        exact ⟨(hNumber.add hSeen).trans (cutTo_modEq _ _ _), cutTo_fits _ _ _⟩

/- The built sum is read where the offsets land. -/
theorem canonicalExpr_reads {env : Env} {dims : List NetRange} {indices : List NetExpr}
    {expr : Option NetExpr} {sum : Option Place}
    (log2 : Int → Nat) (hSized : ∀ index ∈ indices, index.Sized)
    (hBase : ∀ rng ∈ dims, -2 ^ 63 ≤ rng.useBase ∧ rng.useBase < 2 ^ 63)
    (hWords : words dims < 2 ^ 62) (hReads : Option.Rel (NetExpr.Reads env) expr sum) :
    Option.Rel (Option.Rel (NetExpr.Reads env))
      (canonicalExpr log2 dims (strides dims) indices expr)
      (landing log2 env dims indices sum) := by
  induction dims generalizing indices expr sum with
  | nil =>
    cases indices with
    | nil => exact Option.Rel.some hReads
    | cons _ _ => exact Option.Rel.none
  | cons rng dims ih =>
    cases indices with
    | nil => exact Option.Rel.some hReads
    | cons index indices =>
      have hLe := words_le rng dims
      have hPos := words_pos dims
      have hRoom : ∀ n ∈ sum.map fun sum => sum.width + 1,
          0 < n := by simp
      have hTerm := @scaleIndex_seen env rng (words dims) index
        (sum.map fun sum => sum.width + 1) log2
        (hSized index (List.mem_cons_self ..))
        (hBase rng (List.mem_cons_self ..))
        (by omega) (by omega) hRoom
      have hRest := fun {expr sum} => @ih indices expr sum
        (fun index hMem => hSized index (List.mem_cons_of_mem _ hMem))
        (fun rng hMem => hBase rng (List.mem_cons_of_mem _ hMem))
        (by omega)
      rw [strides, canonicalExpr, landing]
      generalize scaleIndex log2 rng (words dims) index = built at hTerm ⊢
      generalize indexPlace log2 env rng (words dims) index
        (sum.map fun sum => sum.width + 1) = place at hTerm ⊢
      cases hTerm with
      | none => exact Option.Rel.none
      | some hTerm =>
        cases hTerm with
        | none => exact hRest hReads
        | some hTerm =>
          apply hRest
          apply Option.Rel.some
          cases hReads with
          | none => exact hTerm
          | some hReads => exact reads_add hReads hTerm

end EpicSim

----
-- Indices In Range
----

namespace EpicSim

open TwosComplement NetExpr

/- The bounds are `long` values. -/
structure NetRange.Long (rng : NetRange) : Prop where
  msb : -2 ^ 63 ≤ rng.msb ∧ rng.msb < 2 ^ 63
  lsb : -2 ^ 63 ≤ rng.lsb ∧ rng.lsb < 2 ^ 63

/- Every index is known and in the range of its dimension. -/
def AllInRange (env : Env) (dims : List NetRange) (indices : List NetExpr) : Prop :=
  List.Forall₂
    (fun rng index => (index.eval env).Defined ∧ InRange rng (index.denotes env))
    dims indices

instance
    (env : Env) (dims : List NetRange) (indices : List NetExpr) :
    Decidable (AllInRange env dims indices) := by
  unfold AllInRange
  infer_instance

theorem inRange_long {rng : NetRange} {n : Int} (hLong : rng.Long) (hIn : InRange rng n) :
    -2 ^ 63 ≤ n ∧ n < 2 ^ 63 := by
  have hMsb := hLong.msb
  have hLsb := hLong.lsb
  unfold InRange at hIn
  omega

variable {env : Env} {dims : List NetRange} {log2 : Int → Nat}

/- The term of an index in range, with room for the rest. -/
theorem indexPlace_of_inRange {rng : NetRange} {index : NetExpr} {room : Option Nat}
    {term : Option Place} (hLong : rng.Long) (hWords : words (rng :: dims) < 2 ^ 62)
    (hDefined : (index.eval env).Defined) (hIn : InRange rng (index.denotes env))
    (hTerm : indexPlace log2 env rng (words dims) index room = some term) :
    (term = none ∧ (index.denotes env - rng.useBase) * (words dims : Int) = 0) ∨
      ∃ place, term = some place ∧
        place.value = some ((index.denotes env - rng.useBase) * words dims) ∧
        (index.denotes env - rng.useBase) * (words dims : Int) + words dims ≤ 2 ^ place.width := by
  have hLe := words_le rng dims
  have hPos := words_pos dims
  have hRange := inRange_long hLong hIn
  rcases (inRange_iff rng _).mp hIn with ⟨hZero, hTop⟩
  rcases @offset_mul_bounds rng dims _ hIn with ⟨hLow, hHigh⟩
  have hProduct := cast_words_cons rng dims
  have hStride : (0 : Int) < words dims ∧
      (words dims : Int) < 2 ^ 62 := by omega
  by_cases hConst : ∃ value, index = .const value
  · rcases hConst with ⟨value, rfl⟩
    have hIndex : constIndex env (.const value) = (NetExpr.const value).denotes env := by
      unfold constIndex
      rw [if_pos hDefined]
      apply cutLong_of_fits
      unfold Fits
      rw [if_pos rfl]
      omega
    rw [indexPlace_const, hIndex] at hTerm
    cases hWidth : indexWidth rng (words dims) (NetExpr.const value).exprWidth with
    | none =>
      rw [hWidth] at hTerm
      cases hTerm
    | some width =>
      rw [hWidth, Option.bind_some, long_of_range (by omega) (by omega), Option.bind_some,
        long_of_range (by omega) (by omega), Option.map_some, Option.some.injEq] at hTerm
      split_ifs at hTerm with hNone
      · exact Or.inl ⟨hTerm.symm, hNone⟩
      · refine Or.inr ⟨_, hTerm.symm, rfl, ?_⟩
        have hFits := @int64Bits_fits
          (((NetExpr.const value).denotes env - rng.useBase) * words dims) (by omega) (by omega)
        unfold Fits at hFits
        rw [if_pos rfl] at hFits
        have hOne : 1 ≤ (NetExpr.const value).denotes env - rng.useBase := by grind
        have hMul : 1 * (words dims : Int) ≤
            ((NetExpr.const value).denotes env - rng.useBase) * words dims :=
          Int.mul_le_mul_of_nonneg_right hOne (by omega)
        dsimp only
        omega
  · have hNot : ∀ value, index ≠ .const value :=
      fun value hEq => hConst ⟨value, hEq⟩
    rw [indexPlace_of_not_const log2 env rng _ room hNot] at hTerm
    cases hWidth : indexWidth rng (words dims) index.exprWidth with
    | none =>
      rw [hWidth] at hTerm
      cases hTerm
    | some width =>
      rw [hWidth, Option.map_some, Option.some.injEq] at hTerm
      refine Or.inr ⟨_, hTerm.symm, ?_, ?_⟩
      all_goals
        have hBounds := (indexWidth_bounds hWidth hStride (by omega)).2.2
        have hMono : (2 : Int) ^ width ≤ 2 ^ (width + log2 (words dims)) := by
          exact_mod_cast Nat.pow_le_pow_right (by decide : 0 < 2) (Nat.le_add_right _ _)
      · unfold scaledOffset
        rw [cutTo_of_fits (fits_of_nonneg _ hZero (by omega))]
        split_ifs with hOne
        · rw [hOne, Int.mul_one]
        · rw [cutTo_of_fits (fits_of_nonneg _ hLow (by omega))]
      · unfold scaledOffset
        split_ifs <;> dsimp only <;> omega

/- A sum that is not empty has its value; an empty one is 0. -/
def HasSum : Option Place → Int → Prop
| none, n => n = 0
| some sum, n => sum.value = some n

/- The rest of the address fits the next sum. -/
def LeavesRoom : Option Place → Int → Prop
| none, _ => True
| some sum, n => n ≤ 2 ^ sum.width

/- Indices in range land on the row-major address. -/
theorem landing_of_allInRange {indices : List NetExpr} {sum result : Option Place}
    {addr : Int} (hLong : ∀ rng ∈ dims, rng.Long) (hWords : words dims < 2 ^ 62)
    (hIn : AllInRange env dims indices) (hAddr : 0 ≤ addr)
    (hSum : HasSum sum addr) (hRoom : LeavesRoom sum (addr + words dims))
    (hLanding : landing log2 env dims indices sum = some result) :
    HasSum result (addr + rowMajor dims (indices.map (denotes env))) := by
  induction hIn generalizing sum addr with
  | nil =>
    rw [landing, Option.some.injEq] at hLanding
    · rw [← hLanding, rowMajor]
      · rw [Int.add_zero]
        exact hSum
      · intro _ _ _ _ h
        cases h
  | @cons rng index dims indices hFirst hRest ih =>
    rcases @offset_mul_bounds rng dims _ hFirst.2 with ⟨hLow, hHigh⟩
    rw [landing] at hLanding
    rw [List.map_cons, rowMajor, ← rng.useBase_eq, ← Int.add_assoc]
    cases hTerm : indexPlace log2 env rng (words dims) index (sum.map fun sum => sum.width + 1) with
    | none =>
      rw [hTerm] at hLanding
      cases hLanding
    | some term =>
      rw [hTerm] at hLanding
      have hNext := fun {sum addr} => @ih sum addr
        (fun rng hMem => hLong rng (List.mem_cons_of_mem _ hMem))
        (by omega)
      rcases indexPlace_of_inRange
          (hLong rng (List.mem_cons_self ..)) hWords hFirst.1
          hFirst.2 hTerm with
        ⟨rfl, hZero⟩ | ⟨place, rfl, hValue, hPlace⟩
      · rw [hZero, Int.add_zero]
        refine hNext hAddr hSum ?_ hLanding
        cases sum with
        | none => trivial
        | some sum =>
          unfold LeavesRoom at hRoom ⊢
          omega
      · refine hNext (by omega) ?_ ?_ hLanding
        · cases sum with
          | none =>
            rw [hSum, Int.zero_add]
            exact hValue
          | some sum =>
            change addr + words (rng :: dims) ≤ 2 ^ sum.width at hRoom
            have hPos := words_pos dims
            change (sum.add place).value = _
            unfold Place.add
            rw [hSum, hValue, Option.bind_some, Option.map_some, cutTo_of_fits]
            apply fits_of_nonneg _ (by omega)
            omega
        · cases sum with
          | none =>
            change addr = 0 at hSum
            change _ ≤ (2 : Int) ^ place.width
            omega
          | some sum =>
            change addr + words (rng :: dims) ≤ 2 ^ sum.width at hRoom
            change _ ≤ (2 : Int) ^ (sum.width + 1)
            omega

/- A sum with a variable index is not empty. -/
theorem landing_isSome {indices : List NetExpr} {sum result : Option Place}
    (hVariable : sum.isSome = true ∨ ∃ index ∈ indices, ∀ value, index ≠ .const value)
    (hLanding : landing log2 env dims indices sum = some result) : result.isSome = true := by
  induction dims generalizing indices sum with
  | nil =>
    cases indices with
    | nil =>
      rw [landing, Option.some.injEq] at hLanding
      · grind
    | cons _ _ => cases hLanding
  | cons rng dims ih =>
    cases indices with
    | nil =>
      rw [landing, Option.some.injEq] at hLanding
      · grind
    | cons index indices =>
      rw [landing] at hLanding
      cases hTerm : indexPlace log2 env rng (words dims) index
          (sum.map fun sum => sum.width + 1) with
      | none =>
        rw [hTerm] at hLanding
        cases hLanding
      | some term =>
        rw [hTerm] at hLanding
        refine ih ?_ hLanding
        cases term with
        | some place => exact Or.inl rfl
        | none =>
          rcases hVariable with hSome | ⟨found, hMem, hNot⟩
          · exact Or.inl hSome
          · rcases List.mem_cons.mp hMem with rfl | hMem
            · rw [indexPlace_of_not_const log2 env rng _ _ hNot] at hTerm
              cases hWidth : indexWidth rng (words dims) found.exprWidth with
              | none =>
                rw [hWidth] at hTerm
                cases hTerm
              | some width =>
                rw [hWidth] at hTerm
                cases hTerm
            · exact Or.inr ⟨found, hMem, hNot⟩

end EpicSim

----
-- The Exact Condition
----

namespace EpicSim

open TwosComplement NetExpr

theorem NetRange.Long.useBase {rng : NetRange} (h : rng.Long) :
    -2 ^ 63 ≤ rng.useBase ∧ rng.useBase < 2 ^ 63 := by
  have hMsb := h.msb
  have hLsb := h.lsb
  rw [rng.useBase_eq]
  omega

variable {dims : List NetRange}

theorem offsetsFit_of_inRange {ns : List Int} (hWords : words dims < 2 ^ 62)
    (hIn : List.Forall₂ InRange dims ns) : OffsetsFit dims ns := by
  induction hIn with
  | nil => trivial
  | @cons rng n dims ns hFirst _ ih =>
    have hLe := words_le rng dims
    have hBetween := (inRange_iff rng n).mp hFirst
    exact ⟨by omega, fun _ => ih (by omega)⟩

/- What the address of constant indices has to be. -/
def LongAddress (env : Env) (dims : List NetRange) (ns : List Int) : Option NetExpr → Prop
| none => ¬ List.Forall₂ InRange dims ns
| some e => List.Forall₂ InRange dims ns ∧ (e.eval env).Defined ∧ e.denotes env = rowMajor dims ns

/- What the address of index expressions has to be. -/
def ExprAddress (env : Env) (dims : List NetRange) (indices : List NetExpr) (e : NetExpr) : Prop :=
  if AllInRange env dims indices then
    (e.eval env).Defined ∧ e.denotes env = rowMajor dims (indices.map (denotes env))
  else
    (e.eval env).Defined → e.denotes env < 0 ∨ words dims ≤ e.denotes env

/- No number below a bound. -/
def Outside (bound : Nat) (n : Int) : Prop :=
  n < 0 ∨ bound ≤ n

/- Where a sum lands, it is not the number of a word. -/
def Misses (dims : List NetRange) (place : Place) : Prop :=
  ∀ n ∈ place.value, Outside (words dims) n

theorem longAddress_exact {env : Env} {ns : List Int}
    (hDims : dims ≠ []) (hLength : ns.length = dims.length) (hWords : words dims < 2 ^ 62) :
    (∃ r, normalizeUnpackedLong dims ns = some r ∧ LongAddress env dims ns r) ↔
      OffsetsFit dims ns := by
  have hSpec := @canonicalAddr_spec dims ns 0 hLength hWords (Int.le_refl 0) (by omega)
  unfold normalizeUnpackedLong
  rw [makeStrides_eq hDims hWords, Option.bind_eq_bind, Option.bind_some]
  by_cases hIn : List.Forall₂ InRange dims ns
  · have hBounds := rowMajor_bounds hIn
    rcases ofInt64_spec env (show -2 ^ 63 ≤ rowMajor dims ns by
      omega) (by omega) with ⟨-, hDefined, hDenotes⟩
    rw [hSpec.1 hIn, Int.zero_add]
    exact ⟨fun _ => offsetsFit_of_inRange hWords hIn, fun _ => ⟨_, rfl, hIn, hDefined, hDenotes⟩⟩
  · rw [hSpec.2 hIn]
    by_cases hFit : OffsetsFit dims ns
    · rw [if_pos hFit]
      exact ⟨fun _ => hFit, fun _ => ⟨_, rfl, hIn⟩⟩
    · grind

theorem exprAddress_exact {log2 : Int → Nat} {env : Env}
    {indices : List NetExpr} (hDims : dims ≠ [])
    (hLong : ∀ rng ∈ dims, rng.Long) (hWords : words dims < 2 ^ 62)
    (hSized : ∀ index ∈ indices, index.Sized)
    (hVariable : ∃ index ∈ indices, ∀ value, index ≠ .const value) :
    (∃ e, normalizeUnpacked log2 dims indices = some e ∧ ExprAddress env dims indices e) ↔
      ∃ place, landing log2 env dims indices none = some (some place) ∧
        (AllInRange env dims indices ∨ Misses dims place) := by
  have hRel := @canonicalExpr_reads env dims indices none none log2
    hSized (fun rng hMem => (hLong rng hMem).useBase) hWords
    Option.Rel.none
  unfold normalizeUnpacked
  rw [makeStrides_eq hDims hWords, Option.bind_eq_bind, Option.bind_some]
  cases hLanding : landing log2 env dims indices none with
  | none =>
    rw [hLanding] at hRel
    cases hExpr : canonicalExpr log2 dims (strides dims) indices none with
    | some expr =>
      rw [hExpr] at hRel
      cases hRel
    | none => simp
  | some result =>
    have hSome := landing_isSome (Or.inr hVariable) hLanding
    rw [hLanding] at hRel
    cases hExpr : canonicalExpr log2 dims (strides dims) indices none with
    | none =>
      rw [hExpr] at hRel
      cases hRel
    | some expr =>
      rw [hExpr] at hRel
      rcases hRel with hRel | _
      cases hRel with
      | none => cases hSome
      | @some e place hReads =>
        have hBoth : (∃ e', (some (some e)).join = some e' ∧
            ExprAddress env dims indices e') ↔
              ExprAddress env dims indices e := by
          simp
        rw [hBoth]
        simp only [Option.some.injEq, exists_eq_left']
        unfold ExprAddress
        split_ifs with hIn
        · have hSum := landing_of_allInRange hLong hWords hIn
            (Int.le_refl 0) (show HasSum none 0 from rfl)
            trivial hLanding
          rw [Int.zero_add] at hSum
          refine ⟨fun _ => Or.inl hIn, fun _ => ⟨?_, ?_⟩⟩
          · exact hReads.defined.mpr (by rw [hSum]; rfl)
          · exact hReads.denotes _ (by rw [hSum]; rfl)
        · rw [or_iff_right hIn]
          unfold Misses Outside
          cases hValue : place.value with
          | none =>
            refine ⟨fun _ n hMem => (by cases hMem), fun _ hDefined => ?_⟩
            have hAbs := hReads.defined.mp hDefined
            rw [hValue] at hAbs
            cases hAbs
          | some n =>
            have hDefined := hReads.defined.mpr (by rw [hValue]; rfl)
            rw [hReads.denotes n (by rw [hValue]; rfl)]
            grind

end EpicSim

----
-- Losses Of The Sum
----

namespace EpicSim

open TwosComplement NetExpr

variable {dims : List NetRange} {log2 : Int → Nat} {env : Env}

/-
  What the indices add, one after another; `room` is the width
  of the sum that the next one enters.
-/
def terms (log2 : Int → Nat) (env : Env) :
    List NetRange → List NetExpr → Option Nat → Option (List Place)
| rng :: dims, index :: indices, room =>
  (indexPlace log2 env rng (words dims) index room).bind fun term =>
    match term with
    | none => terms log2 env dims indices room
    | some term =>
      (terms log2 env dims indices (some (room.getD term.width + 1))).map
        fun ts => term :: ts
| _, [], _ => some []
| _, _ :: _, _ => none

/- The sum of the terms. -/
def total (ts : List Place) : Int :=
  (ts.map fun t => t.value.getD 0).sum

/- What the sums lose that continue a sum with terms. -/
def lost : Place → List Place → Int
| _, [] => 0
| sum, t :: ts =>
  sum.value.getD 0 + t.value.getD 0 - (sum.add t).value.getD 0 + lost (sum.add t) ts

/- The first terms fit one bit more for each of them. -/
def PartsFit (t : Place) (ts : List Place) : Prop :=
  ∀ k < ts.length,
    Fits ((t :: ts.take (k + 1)).all Place.signed) (t.width + (k + 1))
      (total (t :: ts.take (k + 1)))

theorem landing_eq (dims : List NetRange) (indices : List NetExpr) (sum : Option Place) :
    landing log2 env dims indices sum =
      (terms log2 env dims indices (sum.map fun sum => sum.width + 1)).map fun ts =>
        ts.foldl (fun sum t => some (sum.elim t fun sum => sum.add t)) sum := by
  induction dims generalizing indices sum with
  | nil => cases indices <;> rfl
  | cons rng dims ih =>
    cases indices with
    | nil => rfl
    | cons index indices =>
      rw [landing, terms]
      cases indexPlace log2 env rng (words dims) index (sum.map fun sum => sum.width + 1) with
      | none => rfl
      | some term =>
        cases term with
        | none => exact ih indices sum
        | some term =>
          rw [Option.bind_some, Option.bind_some, Option.map_map]
          cases sum with
          | none => exact ih indices (some term)
          | some sum => exact ih indices (some (sum.add term))

theorem foldl_add (t : Place) (ts : List Place) :
    ts.foldl (fun sum t => some (sum.elim t fun sum => sum.add t)) (some t) =
      some (ts.foldl Place.add t) := by
  induction ts generalizing t with
  | nil => rfl
  | cons u ts ih => exact ih (t.add u)

/- A sum is known if its terms are, and is what they sum up
   to less what is lost. -/
theorem foldl_add_value (t : Place) (ts : List Place) :
    (ts.foldl Place.add t).value =
      if ∃ x ∈ t :: ts, x.value = none then none else some (total (t :: ts) - lost t ts) := by
  induction ts generalizing t with
  | nil =>
    rw [List.foldl_nil]
    cases hValue : t.value with
    | none => simp [hValue]
    | some n => simp [hValue, total, lost]
  | cons u ts ih =>
    rw [List.foldl_cons, ih (t.add u)]
    have hNone : (t.add u).value = none ↔ t.value = none ∨ u.value = none := by
      unfold Place.add
      cases t.value <;> cases u.value <;> simp
    simp only [List.mem_cons, exists_eq_or_imp, hNone, or_assoc]
    split_ifs with hUnknown
    · rfl
    · congr 1
      simp only [total, lost, List.map_cons, List.sum_cons]
      omega

/- Sums that fit lose nothing. -/
theorem lost_of_fits {t : Place} {ts : List Place} (hFit : PartsFit t ts)
    (hKnown : ∀ x ∈ t :: ts, x.value ≠ none) : lost t ts = 0 := by
  induction ts generalizing t with
  | nil => rfl
  | cons u ts ih =>
    rcases Option.ne_none_iff_exists'.mp (hKnown t List.mem_cons_self) with ⟨a, ha⟩
    rcases Option.ne_none_iff_exists'.mp
      (hKnown u (List.mem_cons_of_mem _ List.mem_cons_self)) with ⟨b, hb⟩
    have hFirst := hFit 0 (Nat.succ_pos _)
    simp only [total, List.take_succ_cons, List.take_zero, List.all_cons, List.all_nil,
      Bool.and_true, List.map_cons, List.map_nil, List.sum_cons, List.sum_nil, Int.add_zero,
      ha, hb, Option.getD_some, Nat.zero_add] at hFirst
    have hAdd : (t.add u).value = some (a + b) := by
      unfold Place.add
      rw [ha, hb, Option.bind_some, Option.map_some, cutTo_of_fits hFirst]
    have hRest : lost (t.add u) ts = 0 := by
      refine ih ?_ ?_
      · intro k hk
        have hNext := hFit (k + 1) (Nat.succ_lt_succ hk)
        simp only [total, List.take_succ_cons, List.all_cons, List.map_cons, List.sum_cons,
          ha, hb, Option.getD_some] at hNext
        simp only [total, List.all_cons, List.map_cons, List.sum_cons, hAdd, Option.getD_some]
        rw [Int.add_assoc]
        show Fits (t.signed && u.signed && _) (t.width + 1 + (k + 1)) _
        rw [Bool.and_assoc, Nat.add_assoc t.width 1, Nat.add_comm 1]
        exact hNext
      · grind
    rw [lost, ha, hb, hAdd, hRest]
    simp only [Option.getD_some]
    omega

theorem words_append (before after : List NetRange) :
    words (before ++ after) = words before * words after := by
  induction before with
  | nil => exact (Nat.one_mul _).symm
  | cons rng before ih => rw [List.cons_append, words, words, ih, Nat.mul_assoc]

theorem rowMajor_append {before after : List NetRange} {ns ms : List Int}
    (hLength : ns.length = before.length) :
    rowMajor (before ++ after) (ns ++ ms) =
      rowMajor before ns * words after + rowMajor after ms := by
  induction before generalizing ns with
  | nil =>
    rw [List.length_eq_zero_iff.mp hLength]
    simp [rowMajor]
  | cons rng before ih =>
    cases ns with
    | nil => cases hLength
    | cons n ns =>
      rw [List.cons_append, List.cons_append, rowMajor, rowMajor, words_append,
        ih (Nat.succ.inj hLength)]
      push_cast
      ring

/- Terms that are known and sum up to the address. -/
def SumUp (log2 : Int → Nat) (env : Env) (dims : List NetRange) (indices : List NetExpr) : Prop :=
  ∀ room ts, terms log2 env dims indices room = some ts →
    (∀ x ∈ ts, x.value ≠ none) ∧ total ts = rowMajor dims (indices.map (denotes env))

/- One more index, which adds what it should. -/
theorem SumUp.cons {rng : NetRange} {index : NetExpr} {indices : List NetExpr}
    (hRest : SumUp log2 env dims indices)
    (hTerm : ∀ room term, indexPlace log2 env rng (words dims) index room = some term →
      (term = none ∧ (index.denotes env - rng.useBase) * (words dims : Int) = 0) ∨
        ∃ place, term = some place ∧
          place.value = some ((index.denotes env - rng.useBase) * words dims)) :
    SumUp log2 env (rng :: dims) (index :: indices) := by
  intro room ts hTerms
  rw [terms] at hTerms
  rw [List.map_cons, rowMajor, ← rng.useBase_eq]
  cases hPlace : indexPlace log2 env rng (words dims) index room with
  | none =>
    rw [hPlace] at hTerms
    cases hTerms
  | some term =>
    rw [hPlace, Option.bind_some] at hTerms
    rcases hTerm room term hPlace with ⟨rfl, hZero⟩ | ⟨place, rfl, hValue⟩
    · rw [hZero, Int.zero_add]
      exact hRest room ts hTerms
    · rcases Option.map_eq_some_iff.mp hTerms with ⟨later, hLater, rfl⟩
      rcases hRest _ later hLater with ⟨hKnown, hSum⟩
      constructor
      · grind
      · rw [total, List.map_cons, List.sum_cons, hValue, Option.getD_some]
        exact congrArg _ hSum

/- Indices in range before others. -/
theorem SumUp.append {before after : List NetRange} {ins outs : List NetExpr}
    (hLong : ∀ rng ∈ before, rng.Long) (hWords : words (before ++ after) < 2 ^ 62)
    (hIn : AllInRange env before ins) (hRest : SumUp log2 env after outs) :
    SumUp log2 env (before ++ after) (ins ++ outs) := by
  induction hIn with
  | nil => exact hRest
  | @cons rng index before ins hFirst _ ih =>
    have hLe := words_le rng (before ++ after)
    refine SumUp.cons (ih (fun rng hMem => hLong rng (List.mem_cons_of_mem _ hMem))
      (Nat.lt_of_le_of_lt hLe.1 hWords)) ?_
    intro room term hTerm
    rcases indexPlace_of_inRange (hLong rng List.mem_cons_self) hWords hFirst.1 hFirst.2 hTerm
      with hNone | ⟨place, hPlace, hValue, -⟩
    · exact Or.inl hNone
    · exact Or.inr ⟨place, hPlace, hValue⟩

theorem sumUp_of_allInRange {indices : List NetExpr} (hLong : ∀ rng ∈ dims, rng.Long)
    (hWords : words dims < 2 ^ 62) (hIn : AllInRange env dims indices) :
    SumUp log2 env dims indices := by
  have hNil : SumUp log2 env [] [] := by
    intro room ts hTerms
    cases hTerms
    exact ⟨fun _ hMem => (nomatch hMem), rfl⟩
  rw [← List.append_nil dims] at hWords ⊢
  rw [← List.append_nil indices]
  exact SumUp.append hLong hWords hIn hNil

theorem AllInRange.middle {before after : List NetRange} {rng : NetRange}
    {ins outs : List NetExpr} {index : NetExpr} (hIn : AllInRange env before ins)
    (hAll : AllInRange env (before ++ rng :: after) (ins ++ index :: outs)) :
    InRange rng (index.denotes env) := by
  induction hIn with
  | nil =>
    rcases hAll with _ | ⟨hFirst, _⟩
    exact hFirst.2
  | cons _ _ ih =>
    rcases hAll with _ | ⟨_, hRest⟩
    exact ih hRest

/- An address in a row is outside where the row is. -/
theorem outside_mul_add {rows stride : Nat} {row rest : Int} (hLow : 0 ≤ rest)
    (hHigh : rest < stride) :
    Outside (rows * stride) (row * stride + rest) ↔ Outside rows row := by
  unfold Outside
  have hStep : ∀ m : Int, row + 1 ≤ m → (row + 1) * (stride : Int) ≤ m * stride :=
    fun m hLe => Int.mul_le_mul_of_nonneg_right hLe (by omega)
  have hSucc : (row + 1) * (stride : Int) = row * stride + stride := by ring
  push_cast
  constructor
  · rintro (hNeg | hHigh')
    · left
      by_contra hNot
      have := Int.mul_nonneg (Int.not_lt.mp hNot) (show (0 : Int) ≤ stride by omega)
      omega
    · grind
  · rintro (hNeg | hLe)
    · left
      have := hStep 0 (by omega)
      omega
    · right
      have := Int.mul_le_mul_of_nonneg_right hLe (show (0 : Int) ≤ stride by omega)
      omega

/-
  Constant indices give the row-major address or none exactly
  where no offset overflows.  Index expressions give it, or
  miss every word, exactly where they are all in range, one is
  unknown in the sum, or the sum of the scaled offsets, less
  what is lost, is no word.  Nothing is lost where the first
  terms always fit; then one index out of its range is noticed
  exactly where its offset leaves the rows of the dimensions up
  to its own.
-/
theorem unpacked_address_exact {log2 : Int → Nat} {env : Env} {dims : List NetRange}
    {indices : List NetExpr} (hLength : indices.length = dims.length)
    (hLong : ∀ rng ∈ dims, rng.Long) (hWords : words dims < 2 ^ 62)
    (hSized : ∀ index ∈ indices, index.Sized)
    (hVariable : ∃ index ∈ indices, ∀ value, index ≠ .const value) :
    (∀ ns : List Int, ns.length = dims.length →
      ((∃ r, normalizeUnpackedLong dims ns = some r ∧ LongAddress env dims ns r) ↔
        OffsetsFit dims ns)) ∧
    ((∃ e, normalizeUnpacked log2 dims indices = some e ∧ ExprAddress env dims indices e) ↔
      ∃ t ts, terms log2 env dims indices none = some (t :: ts) ∧
        (AllInRange env dims indices ∨ (∃ x ∈ t :: ts, x.value = none) ∨
          Outside (words dims) (total (t :: ts) - lost t ts))) ∧
    ∀ t ts, terms log2 env dims indices none = some (t :: ts) → PartsFit t ts →
      ((∀ x ∈ t :: ts, x.value ≠ none) → lost t ts = 0) ∧
      ∀ before rng after ins index outs,
        dims = before ++ rng :: after → indices = ins ++ index :: outs →
        AllInRange env before ins → AllInRange env after outs →
        ¬InRange rng (index.denotes env) →
        (∀ room, ∃ place, indexPlace log2 env rng (words after) index room = some (some place) ∧
          place.value = some ((index.denotes env - rng.useBase) * words after)) →
        ((∃ e, normalizeUnpacked log2 dims indices = some e ∧ ExprAddress env dims indices e) ↔
          Outside (words before * rng.width)
            (rowMajor before (ins.map (denotes env)) * rng.width +
              (index.denotes env - rng.useBase))) := by
  have hDims : dims ≠ [] := by
    rintro rfl
    rcases hVariable with ⟨_, hMem, -⟩
    rw [List.length_eq_zero_iff.mp hLength] at hMem
    cases hMem
  have hExpr :
      (∃ e, normalizeUnpacked log2 dims indices = some e ∧ ExprAddress env dims indices e) ↔
      ∃ t ts, terms log2 env dims indices none = some (t :: ts) ∧
        (AllInRange env dims indices ∨ (∃ x ∈ t :: ts, x.value = none) ∨
          Outside (words dims) (total (t :: ts) - lost t ts)) := by
    rw [exprAddress_exact hDims hLong hWords hSized hVariable, landing_eq, Option.map_none]
    have hMisses : ∀ t ts, Misses dims (ts.foldl Place.add t) ↔
        (∃ x ∈ t :: ts, x.value = none) ∨
          Outside (words dims) (total (t :: ts) - lost t ts) := by
      intro t ts
      unfold Misses
      rw [foldl_add_value]
      split_ifs with hUnknown
      · exact ⟨fun _ => Or.inl hUnknown, fun _ n hMem => nomatch hMem⟩
      · rw [or_iff_right hUnknown]
        simp
    cases hTerms : terms log2 env dims indices none with
    | none => simp
    | some ts =>
      cases ts with
      | nil => simp
      | cons t ts =>
        rw [Option.map_some, List.foldl_cons, Option.elim_none, foldl_add]
        simp only [Option.some.injEq, exists_eq_left', List.cons.injEq, hMisses]
        simp only [and_assoc, exists_and_left, exists_eq_left']
  refine ⟨fun ns hNs => longAddress_exact hDims hNs hWords, hExpr, ?_⟩
  intro t ts hTerms hFit
  refine ⟨lost_of_fits hFit, ?_⟩
  rintro before rng after ins index outs rfl rfl hBefore hAfter hOut hTerm
  have hLongAfter : ∀ rng ∈ after, rng.Long :=
    fun rng hMem => hLong rng (List.mem_append_right _ (List.mem_cons_of_mem _ hMem))
  have hWordsAfter : words after < 2 ^ 62 := by
    have hLe := (words_le rng after).1
    have hPos := words_pos before
    rw [words_append] at hWords
    have hMul := Nat.le_mul_of_pos_left (words (rng :: after)) hPos
    omega
  have hRest : SumUp log2 env (rng :: after) (index :: outs) := by
    refine (sumUp_of_allInRange hLongAfter hWordsAfter hAfter).cons ?_
    intro room term hPlace
    rcases hTerm room with ⟨place, hSome, hValue⟩
    rw [hSome, Option.some.injEq] at hPlace
    exact Or.inr ⟨place, hPlace.symm, hValue⟩
  have hSum := SumUp.append (fun rng hMem => hLong rng (List.mem_append_left _ hMem)) hWords
    hBefore hRest none _ hTerms
  have hRow := rowMajor_bounds (List.forall₂_map_right_iff.mpr (hAfter.imp fun _ _ h => h.2))
  have hAddress : rowMajor (before ++ rng :: after) ((ins ++ index :: outs).map (denotes env)) =
      (rowMajor before (ins.map (denotes env)) * rng.width + (index.denotes env - rng.useBase)) *
        words after + rowMajor after (outs.map (denotes env)) := by
    rw [List.map_append, List.map_cons,
      rowMajor_append (by rw [List.length_map, hBefore.length_eq]),
      rowMajor, words, ← rng.useBase_eq]
    push_cast
    ring
  rw [hExpr, ← outside_mul_add hRow.1 hRow.2, ← hAddress, ← hSum.2, Nat.mul_assoc,
    ← words, ← words_append]
  simp only [hTerms, Option.some.injEq, List.cons.injEq]
  have hNot : ¬∃ x ∈ t :: ts, x.value = none := fun ⟨x, hMem, hNone⟩ => hSum.1 x hMem hNone
  have hNotAll : ¬AllInRange env (before ++ rng :: after) (ins ++ index :: outs) :=
    fun hAll => hOut (hBefore.middle hAll)
  constructor
  · rintro ⟨t', ts', ⟨rfl, rfl⟩, hCase⟩
    rw [or_iff_right hNotAll, or_iff_right hNot, lost_of_fits hFit hSum.1, Int.sub_zero] at hCase
    exact hCase
  · intro hCase
    refine ⟨t, ts, ⟨rfl, rfl⟩, Or.inr (Or.inr ?_)⟩
    rwa [lost_of_fits hFit hSum.1, Int.sub_zero]

/- `ceil(log2((double)val))` of small values. -/
def ceilLog2 (val : Int) : Nat :=
  bitLoop 64 (val - 1).toNat

/- A variable of the design as an index. -/
def indexSignal (name : String) (vector_width : Nat) (get_signed : Bool) : NetExpr :=
  .signal {
    name := name
    vector_width := vector_width
    get_signed := get_signed
    data_type := .logic } get_signed

/-
  `mem[i][j]` of `[0:1][0:1]`: both indices 1 reach word 3, and
  constants do so too; where `j` is 2, an `i` of 1 misses all
  words and an `i` of 0 does not.
-/
theorem unpacked_address_exact_square :
    (∃ e, normalizeUnpacked ceilLog2 [⟨0, 1⟩, ⟨0, 1⟩]
          [indexSignal "i" 1 false, indexSignal "j" 1 false] =
        some e ∧
      ExprAddress (fun _ _ => .v1) [⟨0, 1⟩, ⟨0, 1⟩]
        [indexSignal "i" 1 false, indexSignal "j" 1 false] e) ∧
    (∃ r, normalizeUnpackedLong [⟨0, 1⟩, ⟨0, 1⟩] [1, 1] = some r ∧
      LongAddress (fun _ _ => .v1) [⟨0, 1⟩, ⟨0, 1⟩] [1, 1] r) ∧
    ∀ i : Bool,
      (∃ e, normalizeUnpacked ceilLog2 [⟨0, 1⟩, ⟨0, 1⟩]
            [indexSignal "i" 1 false, indexSignal "j" 2 false] =
          some e ∧
        ExprAddress (fun name idx => .ofBool (if name = "i" then i else idx == 1))
          [⟨0, 1⟩, ⟨0, 1⟩] [indexSignal "i" 1 false, indexSignal "j" 2 false] e) ↔ i = true := by
  have hLong : ∀ rng ∈ [(⟨0, 1⟩ : NetRange), ⟨0, 1⟩], rng.Long := by
    intro rng hMem
    simp only [List.mem_cons, List.not_mem_nil, or_false, or_self] at hMem
    rw [hMem]
    exact ⟨by decide, by decide⟩
  have hSized : ∀ m, ∀ index ∈ [indexSignal "i" 1 false, indexSignal "j" m false],
      index.Sized := by
    intro m index hMem
    simp only [List.mem_cons, List.not_mem_nil, or_false] at hMem
    rcases hMem with rfl | rfl <;> trivial
  rcases @unpacked_address_exact ceilLog2 (fun _ _ => .v1) [⟨0, 1⟩, ⟨0, 1⟩]
      [indexSignal "i" 1 false, indexSignal "j" 1 false] rfl hLong (by decide) (hSized 1)
      ⟨_, List.mem_cons_self .., fun _ hEq => by cases hEq⟩ with
    ⟨hConst, hExpr, -⟩
  refine ⟨hExpr.mpr ⟨⟨some 2, 6, false⟩, [⟨some 1, 3, false⟩], by decide, ?_⟩,
    (hConst [1, 1] rfl).mpr (by decide), fun i => ?_⟩
  · exact Or.inl (by decide)
  · have hSquare := (@unpacked_address_exact ceilLog2
      (fun name idx => .ofBool (if name = "i" then i else idx == 1)) [⟨0, 1⟩, ⟨0, 1⟩]
      [indexSignal "i" 1 false, indexSignal "j" 2 false] rfl hLong (by decide) (hSized 2)
      ⟨_, List.mem_cons_self .., fun _ hEq => by cases hEq⟩).2.2
    cases i with
    | false =>
      rw [(hSquare ⟨some 0, 6, false⟩ [⟨some 2, 3, false⟩] (by decide)
        (by unfold PartsFit; decide)).2 [⟨0, 1⟩] ⟨0, 1⟩ [] [indexSignal "i" 1 false]
        (indexSignal "j" 2 false) [] rfl rfl (by decide) (by decide) (by decide)
        (fun room => ⟨_, rfl, rfl⟩)]
      unfold Outside
      decide
    | true =>
      rw [(hSquare ⟨some 2, 6, false⟩ [⟨some 2, 3, false⟩] (by decide)
        (by unfold PartsFit; decide)).2 [⟨0, 1⟩] ⟨0, 1⟩ [] [indexSignal "i" 1 false]
        (indexSignal "j" 2 false) [] rfl rfl (by decide) (by decide) (by decide)
        (fun room => ⟨_, rfl, rfl⟩)]
      unfold Outside
      decide

/-
  `mem[i][j]` of `[0:1][0:1]` with `i` 0 and `j` 2 is word 2,
  the word of `[1][0]`; `mem[i]` of `[-1:1]` with an 8-bit `i`
  of 255 is word 0; a 16-bit `j` of 256 is cut to word 0.
-/
theorem unpacked_address_aliases :
    ((normalizeUnpacked ceilLog2 [⟨0, 1⟩, ⟨0, 1⟩]
        [indexSignal "i" 2 false, indexSignal "j" 2 false]).map
          (denotes fun name idx => .ofBool (name == "j" && idx == 1)) = some 2 ∧
      ¬ InRange ⟨0, 1⟩ 2 ∧
      rowMajor [⟨0, 1⟩, ⟨0, 1⟩] [1, 0] = 2) ∧
    ((normalizeUnpacked ceilLog2 [⟨-1, 1⟩]
        [indexSignal "i" 8 false]).map (denotes fun _ _ => .v1) = some 0 ∧
      ¬ InRange ⟨-1, 1⟩ 255) ∧
    (normalizeUnpacked ceilLog2 [⟨0, 1⟩, ⟨0, 1⟩]
        [indexSignal "i" 1 false, indexSignal "j" 16 false]).map
          (denotes fun name idx => .ofBool (name == "j" && idx == 8)) = some 0 ∧
      ¬ InRange ⟨0, 1⟩ 256 := by
  decide

end EpicSim
