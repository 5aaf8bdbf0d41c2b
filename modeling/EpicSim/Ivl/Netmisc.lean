import EpicSim.Ivl.NetExpr

/-
  Expressions that the elaborator builds for the index
  arithmetic of vectors and arrays.

  Bounds and offsets are `long` values, modelled as integers;
  signed arithmetic that leaves the type gives none.
-/

----
-- Long Arithmetic
----

namespace EpicSim

/- The result of signed arithmetic, none on overflow. -/
def long (n : Int) : Option Int :=
  if -2 ^ 63 ≤ n ∧ n < 2 ^ 63 then some n else none

/- An `unsigned long` result stored in a `long`. -/
def toLong (n : Int) : Int :=
  if n % 2 ^ 64 < 2 ^ 63 then n % 2 ^ 64
  else n % 2 ^ 64 - 2 ^ 64

/- The rounds of `while (arg) { res += 1; arg >>= 1; }`. -/
def bitLoop : Nat → Nat → Nat
| 0, _ => 0
| rounds + 1, arg => if arg = 0 then 0 else bitLoop rounds (arg / 2) + 1

/- The bits `num_bits` counts. -/
def bitsFor (arg : Int) : Nat :=
  if arg < 0 then bitLoop 64 (-arg - 1).toNat + 1
  else bitLoop 64 arg.toNat

/- `num_bits`; a negative argument is negated. -/
def numBits (arg : Int) : Option Nat :=
  if arg < 0 then (long (-arg)).map fun _ => bitsFor arg
  else some (bitsFor arg)

----
-- Constants
----

namespace Verinum

open VerinumV

/- `verinum(uint64_t val, unsigned n)`. -/
def ofUInt64 (val : BitVec 64) (n : Nat) : Verinum where
  bits := (List.range n).map fun idx => ofBool (val.getLsbD idx)
  has_len := true
  has_sign := false
  is_single := false

/- `pad_to_width(const verinum& that, unsigned width)`. -/
def padToWidth (that : Verinum) (width : Nat) : Verinum :=
  if width ≤ that.len then that
  else if that.len = 0 then
    { that with
      bits := List.replicate width .v0
      is_single := false }
  else
    let top := that.get (that.len - 1)
    let plain := !that.has_sign && !that.is_single
    let pad := if top == .v1 && plain then .v0 else top
    let pad :=
      if that.has_len && plain && (pad == .vx || pad == .vz) then
        .v0
      else pad
    { that with
      bits := that.bits ++ List.replicate (width - that.len) pad
      is_single := false }

end Verinum

----
-- Building Expressions
----

namespace NetExpr

/- `pad_to_width(NetExpr*, unsigned, ...)`. -/
def padToWidth (expr : NetExpr) (wid : Nat) : NetExpr :=
  if wid ≤ expr.exprWidth then expr
  else
    match expr with
    | .const value => .const (value.padToWidth wid)
    | expr => .pad expr wid expr.hasSign

/- `val_c` of the functions below. -/
def longConst (expr : NetExpr) (val : Int) : NetExpr :=
  .const ((Verinum.ofUInt64 (BitVec.ofInt 64 val) expr.exprWidth).withSign expr.hasSign)

/- `make_add_expr(NetExpr*, long)`. -/
def makeAddExpr (expr : NetExpr) (val : Int) : Option NetExpr :=
  if val = 0 then some expr
  else if val < 0 then
    (long (-val)).map fun val => .add .sub expr (expr.longConst val) expr.exprWidth expr.hasSign
  else
    some (.add .add expr (expr.longConst val) expr.exprWidth expr.hasSign)

/- `make_sub_expr(long, NetExpr*)`. -/
def makeSubExpr (val : Int) (expr : NetExpr) : NetExpr :=
  .add .sub (expr.longConst val) expr expr.exprWidth expr.hasSign

/- The select that hides the sign of a padded base. -/
def castSigned (expr : NetExpr) (wid : Nat) : NetExpr :=
  .pad expr wid true

end NetExpr

----
-- Variable Bases
----

/- `lsb < 0 || num_bits(lsb + 1) <= base->expr_width()`. -/
def leavesRoomBelow (lsb : Int) (width : Nat) : Option Bool :=
  if lsb < 0 then some true
  else
    (long (lsb + 1)).bind fun next => (numBits next).map fun bits => decide (bits ≤ width)

open NetExpr in
/- `normalize_variable_base(base, msb, lsb, wid, is_up, soff)`. -/
def normalizeVariableBase (base : NetExpr) (msb lsb : Int) (wid : Nat) (is_up : Bool)
    (soff : Int) : Option NetExpr :=
  if msb < lsb then do
    let offset := if is_up then toLong (lsb - (wid - 1)) else lsb
    let min_wid := max (max (← numBits offset) (← numBits soff))
      base.exprWidth + 2
    let base := base.padToWidth min_wid
    let negative ← leavesRoomBelow lsb base.exprWidth
    let base :=
      if negative && !base.hasSign then base.castSigned min_wid
      else base
    let val ← long (offset + soff)
    some (makeSubExpr val base)
  else do
    let offset := if is_up then lsb else toLong (lsb + (wid - 1))
    let val ← long (soff - offset)
    if val = 0 then some base
    else do
      let min_wid := max (max (← numBits (← long (-offset))) (← numBits soff)) base.exprWidth + 2
      let base := base.padToWidth min_wid
      let base :=
        if 0 < offset && !base.hasSign then base.castSigned min_wid
        else base
      base.makeAddExpr val

----
-- Constant Bases
----

/- `netrange_t`. -/
structure NetRange where
  msb : Int
  lsb : Int
deriving DecidableEq

namespace NetRange

/- `width`, an `unsigned long`. -/
def width (rng : NetRange) : Nat :=
  if rng.lsb ≤ rng.msb then (rng.msb - rng.lsb + 1).toNat
  else (rng.lsb - rng.msb + 1).toNat

/- The position of an index within its dimension. -/
def position (rng : NetRange) (idx : Int) : Option Int :=
  if rng.lsb ≤ rng.msb then long (idx - rng.lsb)
  else long (rng.lsb - idx)

end NetRange

/- The walk of `sb_to_idx` from the last index to the first. -/
def sbToIdxLoop : List NetRange → List Int → Int → Int → Option Int
| rng :: dims, idx :: indices, acc_off, acc_wid => do
    let tmp_off ← rng.position idx
    let acc_off ← long (acc_off + (← long (tmp_off * acc_wid)))
    sbToIdxLoop dims indices acc_off (toLong (acc_wid * rng.width))
| [], _ :: _, _, _ => none
| _, [], acc_off, _ => some acc_off

/- `NetNet::sb_to_idx`. -/
def sbToIdx (packed_dims : List NetRange) (indices : List Int) (sb : Int) : Option Int :=
  if indices.length + 1 = packed_dims.length then
    match packed_dims.reverse with
    | [] => none
    | rng :: dims => do
        let acc_off ← rng.position sb
        sbToIdxLoop dims indices.reverse acc_off (toLong rng.width)
  else none

/- `elaborate_lval_net_idx_` with a defined constant base: the
   canonical offset `rel_base`. -/
def elaborateLvalNetIdx (packed_dims : List NetRange) (prefix_indices : List Int)
    (base_c : Verinum) (wid : Nat)
    (is_up : Bool) : Option Int := do
  let lsv := base_c.asLong.toInt
  let rng ← packed_dims.getLast?
  let offset :=
    if (rng.msb < rng.lsb ∧ is_up) ∨ (rng.lsb < rng.msb ∧ !is_up) then
      toLong (1 - wid)
    else 0
  long ((← sbToIdx packed_dims prefix_indices lsv) + offset)

----
-- Array Words
----

/- The rounds of `while (tmp != 0) { nbits_ += 1; tmp /= 2; }`
   and the two bits around them in `verinum(int64_t that)`. -/
def int64Bits (that : Int) : Nat :=
  bitLoop 64 (if that < 0 then (that + 1).tdiv 2
    else that.tdiv 2).natAbs + 2

/- `verinum(int64_t that)`. -/
def Verinum.ofInt64 (that : Int) : Verinum where
  bits := Bits.ofInt (int64Bits that) that
  has_len := false
  has_sign := true
  is_single := false

/- `make_mult_expr(NetExpr*, unsigned long)`; `log2` stands for
   `ceil(log2((double)val))`. -/
def NetExpr.makeMultExpr (log2 : Int → Nat) (expr : NetExpr) (val : Int) : NetExpr :=
  let use_wid := expr.exprWidth + log2 val
  let val_c := NetExpr.const ((Verinum.ofUInt64
    (BitVec.ofInt 64 val) use_wid).withSign expr.hasSign)
  .mult (expr.padToWidth use_wid) val_c use_wid expr.hasSign

/- `make_strides`. -/
def makeStrides : List NetRange → Option (List Int)
| [] => none
| [_] => some [1]
| _ :: rng :: dims => do
    let stride ← makeStrides (rng :: dims)
    let tmp ← long (toLong rng.width * (← stride.head?))
    some (tmp :: stride)

/- `use_base`: the smaller bound of a dimension. -/
def NetRange.useBase (rng : NetRange) : Int :=
  if rng.lsb ≤ rng.msb then rng.lsb else rng.msb

/- The sum over constant indices; none inside where one is out
   of its range. -/
def canonicalAddr : List NetRange → List Int → List Int → Int → Option (Option Int)
| rng :: dims, use_stride :: stride, cur :: indices, addr => do
    let tmp ← long (cur - rng.useBase)
    if tmp < 0 ∨ toLong rng.width ≤ tmp then some none
    else
      let addr ← long (addr + (← long (tmp * use_stride)))
      canonicalAddr dims stride indices addr
| _, _, [], addr => some (some addr)
| _, _, _ :: _, _ => none

/- `normalize_variable_unpacked(dims, list<long>)`. -/
def normalizeUnpackedLong (dims : List NetRange)
    (indices : List Int) : Option (Option NetExpr) := do
  let stride ← makeStrides dims
  let addr ← canonicalAddr dims stride indices 0
  some (addr.map fun addr => .const (Verinum.ofInt64 addr))

/- `num_bits(use_base)`, which a base of 0 does not ask for. -/
def NetRange.baseBits (rng : NetRange) : Option Nat :=
  if rng.useBase = 0 then some 0 else numBits rng.useBase

/- `min_wid`: the width of the arithmetic on one index. -/
def indexWidth (rng : NetRange) (use_stride : Int)
    (expr_width : Nat) : Option Nat := do
  let tmp_wid ← rng.baseBits
  let min_wid := if rng.useBase ≠ 0 ∧ expr_width ≤ tmp_wid then
    tmp_wid + 1 else expr_width
  let tmp_wid ← numBits (toLong (rng.width + 1))
  let min_wid := if min_wid ≤ tmp_wid then tmp_wid + 1 else min_wid
  if use_stride = 1 then some min_wid
  else (numBits use_stride).map (min_wid + ·)

/- An index expression less the base of its dimension. -/
def NetRange.offsetExpr (rng : NetRange) (tmp : NetExpr) : Option NetExpr :=
  if rng.useBase = 0 then some tmp
  else (long (-rng.useBase)).bind tmp.makeAddExpr

/- The scaled offset of one index; none inside where it is the
   constant zero. -/
def scaleIndex (log2 : Int → Nat) (rng : NetRange) (use_stride : Int)
    (tmp : NetExpr) : Option (Option NetExpr) := do
  let min_wid ← indexWidth rng use_stride tmp.exprWidth
  match tmp.padToWidth min_wid with
  | .const value =>
    let val ← long (value.asLong.toInt - rng.useBase)
    let val ← long (val * use_stride)
    some (if val = 0 then none
      else some (.const (Verinum.ofInt64 val)))
  | tmp =>
    let tmp_scaled ← rng.offsetExpr tmp
    some (some (if use_stride = 1 then tmp_scaled
      else tmp_scaled.makeMultExpr log2 use_stride))

/- The sum over the index expressions. -/
def canonicalExpr (log2 : Int → Nat) :
    List NetRange → List Int → List NetExpr → Option NetExpr → Option (Option NetExpr)
| rng :: dims, use_stride :: stride, cur :: indices, expr => do
    match ← scaleIndex log2 rng use_stride cur with
    | none => canonicalExpr log2 dims stride indices expr
    | some tmp_scaled =>
      canonicalExpr log2 dims stride indices <| some <|
        match expr with
        | none => tmp_scaled
        | some expr =>
          .add .add expr tmp_scaled (expr.exprWidth + 1) (expr.hasSign && tmp_scaled.hasSign)
| _, _, [], expr => some expr
| _, _, _ :: _, _ => none

/- `normalize_variable_unpacked(dims, list<NetExpr*>)`; none
   where no index leaves an expression. -/
def normalizeUnpacked (log2 : Int → Nat) (dims : List NetRange)
    (indices : List NetExpr) : Option NetExpr := do
  let stride ← makeStrides dims
  (canonicalExpr log2 dims stride indices none).join

end EpicSim
