import EpicSim.Lib.CText
import Mathlib.Data.BitVec
import Mathlib.Data.Fin.VecNotation

/-
  Four-state bits, strength-modelled scalars and the default
  net resolution function of the run time.

  A scalar packs two nibbles `VSSS`: the high nibble is the
  drive closest to supply1, the low nibble the drive closest
  to supply0.  `fullyFeaturedResolv` follows the four cases
  of the source on the packed byte, mask by mask.
-/

----
-- Four-State Bits
----

namespace EpicSim

/- `BIT4_0`, `BIT4_1`, `BIT4_X` and `BIT4_Z`. -/
inductive VvpBit4 where
| zero : VvpBit4
| one : VvpBit4
| x : VvpBit4
| z : VvpBit4
deriving DecidableEq, Repr

namespace VvpBit4

/- Encoding of the enumeration: 0, 1, X = 3, Z = 2. -/
def toNat : VvpBit4 → Nat
| .zero => 0
| .one => 1
| .x => 3
| .z => 2

/- A bit that is neither 0 nor 1. -/
def isXz (a : VvpBit4) : Bool :=
  decide (2 ≤ a.toNat)

/- Negation: an unknown bit stays unknown. -/
def not : VvpBit4 → VvpBit4
| .zero => .one
| .one => .zero
| .x => .x
| .z => .x

/- Disjunction: 1 dominates, anything unknown gives X. -/
def or (a b : VvpBit4) : VvpBit4 :=
  if a = .one ∨ b = .one then .one
  else if a = .zero ∧ b = .zero then .zero
  else .x

/- Conjunction: 0 dominates, anything unknown gives X. -/
def and (a b : VvpBit4) : VvpBit4 :=
  if a = .zero ∨ b = .zero then .zero
  else if a = .one ∧ b = .one then .one
  else .x

/- Exclusive or: any unknown operand gives X. -/
def xor (a b : VvpBit4) : VvpBit4 :=
  if a.isXz then .x
  else if b.isXz then .x
  else if a = .zero then b
  else if b = .zero then a
  else .zero

/- `add_with_carry` of single bits: the sum and the carry. -/
def addWithCarry (a b c : VvpBit4) : VvpBit4 × VvpBit4 :=
  if a.isXz || b.isXz || c.isXz then (.x, .x)
  else
    let sum := a.toNat + b.toNat + c.toNat
    (if sum % 2 = 1 then .one else .zero,
      if 2 ≤ sum then .one else .zero)

end VvpBit4

----
-- Strength-Modelled Scalars
----

/- One strength-modelled bit, packed as in the source. -/
structure VvpScalar where
  value_ : BitVec 8
deriving DecidableEq, Repr

namespace VvpScalar

/- The default scalar is HiZ. -/
def hiz : VvpScalar := ⟨0#8⟩

/-
  Build a scalar from a bit value and its two drive
  strengths.  A driver whose strengths are both zero drives
  nothing, whatever the bit.
-/
def ofBit (val : VvpBit4) (str0 str1 : Fin 8) : VvpScalar :=
  let s0 := BitVec.ofNat 8 str0
  let s1 := BitVec.ofNat 8 str1
  if str0 = 0 ∧ str1 = 0 then
    ⟨0x00#8⟩
  else
    match val with
    | .zero => ⟨s0 ||| (s0 <<< 4)⟩
    | .one => ⟨s1 ||| (s1 <<< 4) ||| 0x88#8⟩
    | .x => ⟨s0 ||| (s1 <<< 4) ||| 0x80#8⟩
    | .z => ⟨0x00#8⟩

/- Both strengths are zero. -/
def isHiz (a : VvpScalar) : Bool :=
  (a.value_ &&& 0x77#8) == 0#8

/- The four-state value of a scalar. -/
def value (a : VvpScalar) : VvpBit4 :=
  if (a.value_ &&& 0x77#8) == 0#8 then .z
  else if (a.value_ &&& 0x88#8) == 0x00#8 then .zero
  else if (a.value_ &&& 0x88#8) == 0x88#8 then .one
  else .x

/- `STREN0` as a bit vector. -/
def stren0 (v : BitVec 8) : BitVec 8 :=
  v &&& 0x07#8

/- `STREN1` as a bit vector. -/
def stren1 (v : BitVec 8) : BitVec 8 :=
  (v &&& 0x70#8) >>> 4

/- Strength of the drive closest to supply0. -/
def strength0 (a : VvpScalar) : Fin 8 :=
  Fin.ofNat 8 (stren0 a.value_).toNat

/- Strength of the drive closest to supply1. -/
def strength1 (a : VvpScalar) : Fin 8 :=
  Fin.ofNat 8 (stren1 a.value_).toNat

/- The two nibbles are identical. -/
def unambig (v : BitVec 8) : Bool :=
  (v &&& 0x0f#8) == ((v >>> 4) &&& 0x0f#8)

/- The drive closest to supply1 as a signed strength. -/
def signed1 (v : BitVec 8) : Int :=
  if (v &&& 0x80#8) == 0#8 then
    -((stren1 v).toNat : Int)
  else (stren1 v).toNat

/- The drive closest to supply0 as a signed strength. -/
def signed0 (v : BitVec 8) : Int :=
  if (v &&& 0x08#8) == 0#8 then
    -((stren0 v).toNat : Int)
  else (stren0 v).toNat

/-
  An unambiguous signal sweeps up the weaker parts of an
  ambiguous one, nibble by nibble.
-/
def sweep (a b : BitVec 8) : VvpScalar :=
  let high :=
    if b &&& 0x70#8 < a &&& 0x70#8 then a &&& 0xf0#8
    else b &&& 0xf0#8
  let low :=
    if b &&& 0x07#8 < a &&& 0x07#8 then a &&& 0x0f#8
    else b &&& 0x0f#8
  ⟨high ||| low⟩

/- Two ambiguous signals give an even wider ambiguity. -/
def widen (a b : BitVec 8) : VvpScalar :=
  let sv1 := max (max (max (signed1 a) (signed0 a)) (signed1 b)) (signed0 b)
  let sv0 := min (min (min (signed0 a) (signed1 a)) (signed1 b)) (signed0 b)
  let high :=
    if 0 < sv1 then
      0x80#8 ||| (BitVec.ofInt 8 sv1 <<< 4)
    else
      (a &&& b &&& 0x80#8) ||| (BitVec.ofInt 8 (-sv1) <<< 4)
  let low :=
    if 0 < sv0 then 0x08#8 ||| BitVec.ofInt 8 sv0
    else BitVec.ofInt 8 (-sv0)
  let res := high ||| low
  if (res &&& 0x77#8) == 0#8 then ⟨0#8⟩ else ⟨res⟩

/-
  The full resolution function, called when neither operand
  is HiZ and the two differ.
-/
def fullyFeaturedResolv (a b : VvpScalar) : VvpScalar :=
  if unambig a.value_ && unambig b.value_ then
    if a.value_ &&& 0x07#8 < b.value_ &&& 0x07#8 then b
    else if b.value_ &&& 0x77#8 = a.value_ &&& 0x77#8 then
      ⟨(a.value_ &&& 0x77#8) ||| 0x80#8⟩
    else a
  else if unambig a.value_ then
    sweep a.value_ b.value_
  else if unambig b.value_ then
    sweep b.value_ a.value_
  else
    widen a.value_ b.value_

/- Resolve two drives of one net. -/
def resolve (a b : VvpScalar) : VvpScalar :=
  if a.isHiz then b
  else if b.isHiz then a
  else if a = b then a
  else fullyFeaturedResolv a b

end VvpScalar

/-
  Strength reduction of the switch devices.  The argument
  selects between non-resistive and resistive devices.
-/
def vvpSwitchStrengthMap (resistive : Bool) : Fin 8 → Fin 8 :=
  if resistive then
    ![0, 1, 1, 2, 2, 3, 5, 5]
  else
    ![0, 1, 2, 3, 4, 5, 6, 6]

end EpicSim
