import EpicSim.Lib.TwosComplement
import Mathlib.Data.List.GetD

/-
  Numbers of the compiler: four-state bits with flags for a
  fixed length and a sign, and their arithmetic.

  Lengths are 32-bit counters in the source.  Where one is
  computed it wraps, and an array of wrapped size that is
  written past its end gives none.
-/

----
-- Numbers
----

namespace EpicSim

/- `verinum::V`. -/
inductive VerinumV where
| v0 | v1 | vx | vz
deriving DecidableEq

namespace VerinumV

/- `operator ~`. -/
def not : VerinumV → VerinumV
| v0 => v1
| v1 => v0
| _ => vx

/- A bit of a defined number. -/
def ofBool (b : Bool) : VerinumV := if b then v1 else v0

/- `add_with_carry`: the sum and the new carry. -/
def addWithCarry (l r c : VerinumV) : VerinumV × VerinumV :=
  if c = vx ∨ c = vz then (vx, vx)
  else if l = vx ∨ l = vz then (vx, vx)
  else if r = vx ∨ r = vz then (vx, vx)
  else
    let sum := (if c = v1 then 1 else 0) +
      (if l = v1 then 1 else 0) + (if r = v1 then 1 else 0)
    (if sum % 2 = 1 then v1 else v0, if 2 ≤ sum then v1 else v0)

end VerinumV

/- A number, lowest bit first. -/
structure Verinum where
  bits : List VerinumV
  has_len : Bool
  has_sign : Bool
  is_single : Bool
deriving DecidableEq

namespace Verinum

open VerinumV

/- `nbits_`. -/
def len (v : Verinum) : Nat := v.bits.length

/- `get`; the source asserts that there is such a bit. -/
def get (v : Verinum) (idx : Nat) : VerinumV :=
  v.bits.getD idx .vx

/- A value of the source's type `unsigned`. -/
def unsigned (n : Nat) : Nat := n % 2 ^ 32

/- `verinum(V val, unsigned n, bool h)`. -/
def fill (val : VerinumV) (n : Nat) (has_len : Bool) : Verinum where
  bits := List.replicate (unsigned n) val
  has_len := has_len
  has_sign := false
  is_single := false

/- `verinum(const V* bits, unsigned nbits, bool has_len)`. -/
def ofBits (bits : List VerinumV) (has_len : Bool) : Verinum where
  bits := bits
  has_len := has_len
  has_sign := false
  is_single := false

/- `has_sign(flag)`. -/
def withSign (v : Verinum) (flag : Bool) : Verinum :=
  { v with has_sign := flag }

/- `has_len(flag)`. -/
def withLen (v : Verinum) (flag : Bool) : Verinum :=
  { v with has_len := flag }

/- `set(idx, val)`. -/
def set (v : Verinum) (idx : Nat) (val : VerinumV) : Verinum :=
  { v with bits := v.bits.set idx val }

/- `verinum(const verinum& that, unsigned nbits)`. -/
def resized (that : Verinum) (nbits : Nat) : Verinum where
  bits :=
    let copy := min nbits that.len
    let pad :=
      if that.has_sign || that.is_single then
        that.get (copy - 1)
      else .v0
    that.bits.take copy ++ List.replicate (nbits - copy) pad
  has_len := true
  has_sign := that.has_sign
  is_single := false

/- `is_defined`. -/
def isDefined (v : Verinum) : Bool :=
  v.bits.all (fun b => b != .vx && b != .vz)

/- `is_zero`. -/
def isZero (v : Verinum) : Bool :=
  v.bits.all (fun b => b == .v0)

/- `is_negative`. -/
def isNegative (v : Verinum) : Bool :=
  v.get (v.len - 1) == .v1 && v.has_sign

/- `sign_bit`. -/
def signBit (v : Verinum) : VerinumV :=
  if v.has_sign then v.get (v.len - 1) else .v0

/- A bit of an operand, or its padding. -/
def padded (v : Verinum) (idx : Nat) : VerinumV :=
  if idx < v.len then v.get idx else v.signBit

/- `cast_to_width`. -/
def castToWidth (that : Verinum) (width : Nat) : Verinum :=
  if that.has_len && that.len == width then that
  else if width ≤ that.len then that.resized width
  else if that.len = 0 then
    (fill .v0 width true).withSign that.has_sign
  else
    let pad := that.get (that.len - 1)
    let pad :=
      if pad = .v1 ∧ !that.has_sign ∧ !that.is_single then .v0
      else pad
    let pad :=
      if that.has_len && !that.has_sign && !that.is_single then
        if pad = .vx ∨ pad = .vz then .v0 else pad
      else pad
    (ofBits (that.bits ++ List.replicate (width - that.len) pad) true).withSign that.has_sign

/- Down to the first bit that differs, or to the lowest. -/
def skipDown (v : Verinum) (bit : VerinumV) : Nat → Nat
| 0 => 0
| top + 1 => if v.get (top + 1) = bit then skipDown v bit top else top + 1

/- `trim_vnum`. -/
def trimVnum (that : Verinum) : Verinum :=
  if that.has_len then that
  else if that.len < 2 then that
  else if that.has_sign then
    let sign := that.get (that.len - 1)
    let top := skipDown that sign (that.len - 1)
    let top := if that.get top ≠ sign then top + 1 else top
    (ofBits (that.bits.take (top + 1)) false).withSign true
  else
    let top := skipDown that .v0 (that.len - 1)
    if top + 1 = that.len then that
    else
      let tlen := top + 2
      let tlen := if that.get top = .v0 then tlen - 1 else tlen
      ofBits (that.bits.take tlen) false

/- `operator <=`. -/
def le (left right : Verinum) : VerinumV :=
  let signed_calc := left.has_sign && right.has_sign
  let left_pad := if signed_calc then left.get (left.len - 1) else .v0
  let right_pad := if signed_calc then right.get (right.len - 1) else .v0
  if signed_calc && left_pad == .v1 && right_pad == .v0 then .v1
  else if signed_calc && left_pad == .v0 && right_pad == .v1 then
    .v0
  else if (List.range (left.len - right.len)).any (fun k =>
      left.get (left.len - 1 - k) != right_pad) then
    if signed_calc && left_pad == .v1 then .v1 else .v0
  else if (List.range (right.len - left.len)).any (fun k =>
      right.get (right.len - 1 - k) != left_pad) then
    if signed_calc && right_pad == .v1 then .v0 else .v1
  else leDown left right (min left.len right.len)
where
  /- The common bits, from the top. -/
  leDown (left right : Verinum) : Nat → VerinumV
  | 0 => .v1
  | idx + 1 =>
    let l := left.get idx
    let r := right.get idx
    if l = .vx ∨ l = .vz ∨ r = .vx ∨ r = .vz then .vx
    else if l = .v1 ∧ r = .v0 then .v0
    else if l = .v0 ∧ r = .v1 then .v1
    else leDown left right idx

end Verinum

----
-- Arithmetic
----

namespace Verinum

open VerinumV

/- The bits of a sum, lowest first, and the carry. -/
def addLoop (l r : Nat → VerinumV) (carry : VerinumV) : Nat → List VerinumV × VerinumV
| 0 => ([], carry)
| n + 1 =>
  let (val_bits, carry) := addLoop l r carry n
  let (bit, carry) := addWithCarry (l n) (r n) carry
  (val_bits ++ [bit], carry)

/- The result where an operand is undefined. -/
def undefinedResult (len : Nat) (has_len_flag signed_flag : Bool) : Verinum :=
  (fill .vx (if has_len_flag then len else 1) has_len_flag).withSign signed_flag

/- `operator +`. -/
def add (left right : Verinum) : Option Verinum :=
  let has_len_flag := left.has_len && right.has_len
  let signed_flag := left.has_sign && right.has_sign
  let max_len := max left.len right.len
  if !left.isDefined || !right.isDefined then
    some (undefinedResult max_len has_len_flag signed_flag)
  else if unsigned (max_len + 1) ≤ max_len then none
  else
    let (val_bits, carry) := addLoop left.padded right.padded .v0 max_len
    let top := (addWithCarry left.signBit right.signBit carry).1
    let grows := !has_len_flag &&
      if signed_flag then top != val_bits.getD (max_len - 1) .vx
      else top != .v0
    some ((ofBits (if grows then val_bits ++ [top] else val_bits)
      has_len_flag).withSign signed_flag)

/- `operator -` of two numbers. -/
def sub (left right : Verinum) : Option Verinum :=
  let has_len_flag := left.has_len && right.has_len
  let signed_flag := left.has_sign && right.has_sign
  let max_len := max left.len right.len
  if !left.isDefined || !right.isDefined then
    some (undefinedResult max_len has_len_flag signed_flag)
  else if unsigned (max_len + 1) ≤ max_len then none
  else
    let (val_bits, carry) := addLoop left.padded (fun idx => (right.padded idx).not) .v1 max_len
    let top := (addWithCarry left.signBit right.signBit.not carry).1
    let grows := signed_flag && !has_len_flag &&
      top != val_bits.getD (max_len - 1) .vx
    some ((ofBits (if grows then val_bits ++ [top] else val_bits)
      has_len_flag).withSign signed_flag)

/- `operator -` of one number. -/
def neg (right : Verinum) : Option Verinum :=
  let has_len_flag := right.has_len
  let signed_flag := right.has_sign
  let len := right.len
  if !right.isDefined then
    some (undefinedResult len has_len_flag signed_flag)
  else if unsigned (len + 1) ≤ len then none
  else
    let (val_bits, carry) := addLoop (fun _ => .v0) (fun idx => (right.get idx).not) .v1 len
    let top := (addWithCarry .v0 right.signBit.not carry).1
    let grows := signed_flag && !has_len_flag &&
      top != val_bits.getD (len - 1) .vx
    some ((ofBits (if grows then val_bits ++ [top] else val_bits)
      has_len_flag).withSign signed_flag)

/- One row of the product: the left number, moved up. -/
def mulRow (left : Verinum) (rdx : Nat) (result : Verinum) : Verinum :=
  { result with
    bits := result.bits.take rdx ++
      (addLoop left.padded (fun ldx => result.get (rdx + ldx)) .v0 (result.len - rdx)).1 }

/- `operator *`. -/
def mul (left right : Verinum) : Verinum :=
  let has_len_flag := left.has_len && right.has_len
  let signed_flag := left.has_sign && right.has_sign
  let len := unsigned
    (if has_len_flag then max left.len right.len
      else left.len + right.len)
  if !left.isDefined || !right.isDefined then
    undefinedResult len has_len_flag signed_flag
  else
    trimVnum ((List.range len).foldl (fun result rdx =>
      if right.padded rdx = .v0 then result
      else mulRow left rdx result)
      ((fill .v0 len has_len_flag).withSign signed_flag))

/- `operator <<`. -/
def shiftLeft (that : Verinum) (shift : Nat) : Verinum :=
  let len := unsigned
    (if that.has_len then that.len else that.len + shift)
  trimVnum ((ofBits ((List.range len).map (fun idx =>
    if idx < shift then .v0 else that.get (idx - shift)))
    that.has_len).withSign that.has_sign)

/- `operator >>`. -/
def shiftRight (that : Verinum) (shift : Nat) : Verinum :=
  let len := that.len
  let sign_bit := if that.has_sign then that.get (len - 1) else .v0
  if len ≤ shift then
    (fill sign_bit (if that.has_len then len else 1) that.has_len).withSign that.has_sign
  else
    let new_len := if that.has_len then len else len - shift
    trimVnum ((ofBits ((List.range new_len).map (fun idx =>
      if idx < len - shift then that.get (idx + shift)
      else sign_bit)) that.has_len).withSign that.has_sign)

end Verinum

----
-- Division
----

namespace Verinum

/- The bits without the zeros at the top. -/
def usedWidth (v : Verinum) : Nat → Nat
| 0 => 0
| n + 1 => if v.get n = .v0 then usedWidth v n else n + 1

/- The rounds of the long division. -/
def divideLoop : Nat → Verinum → Verinum → Verinum → Option Verinum
| 0, _, _, result => some result
| idx + 1, num, den, result =>
  if le den num ≠ .v0 then
    (num.sub den).bind (fun dif => divideLoop idx dif (den.shiftRight 1) (result.set idx .v1))
  else divideLoop idx num (den.shiftRight 1) result

/- `unsigned_divide`. -/
def unsignedDivide (num den : Verinum) (signed_result : Bool) : Option Verinum :=
  let num := num.withLen false
  let den := den.withLen false
  let nwid := usedWidth num num.len
  let dwid := usedWidth den den.len
  if nwid < dwid then some (fill .v0 1 true)
  else
    let den := den.shiftLeft (nwid - dwid)
    let idx := nwid - dwid + 1
    let result := fill .v0 (if signed_result then idx + 1 else idx) true
    let result :=
      if signed_result then (result.set idx .v0).withSign true
      else result
    divideLoop idx num den result

/- The rounds that leave the remainder. -/
def modulusLoop : Nat → Verinum → Verinum → Option Verinum
| 0, num, _ => some num
| idx + 1, num, den =>
  if le den num ≠ .v0 then
    (num.sub den).bind (fun dif => modulusLoop idx dif (den.shiftRight 1))
  else modulusLoop idx num (den.shiftRight 1)

/- `unsigned_modulus`. -/
def unsignedModulus (num den : Verinum) : Option Verinum :=
  let num := num.withLen false
  let den := den.withLen false
  let nwid := usedWidth num num.len
  let dwid := usedWidth den den.len
  if nwid < dwid then some num
  else
    modulusLoop (nwid - dwid + 1) num (den.shiftLeft (nwid - dwid))

/- The loop of `as_ulong`, which saturates. -/
def asULongLoop (v : Verinum) : Nat → Nat → BitVec 64 → BitVec 64 → BitVec 64
| 0, _, val, _ => val
| n + 1, idx, val, mask =>
  if v.get idx = .v1 then
    if mask = 0#64 then ~~~mask
    else asULongLoop v n (idx + 1) (val ||| mask) (mask <<< 1)
  else asULongLoop v n (idx + 1) val (mask <<< 1)

/- `as_ulong`. -/
def asULong (v : Verinum) : BitVec 64 :=
  if v.len = 0 then 0#64
  else if !v.isDefined then 0#64
  else asULongLoop v v.len 0 0#64 1#64

/- `as_long`, which cuts off the bits from the 64th on. -/
def asLong (v : Verinum) : BitVec 64 :=
  if v.len = 0 then 0#64
  else if !v.isDefined then 0#64
  else
    let top := min v.len 63
    if v.has_sign && v.get (v.len - 1) == .v1 then
      ((List.range top).foldl
        (fun (st : BitVec 64 × BitVec 64) idx =>
          (if v.get idx = .v0 then st.1 &&& st.2 else st.1, st.2 <<< 1 ||| 1#64))
        (BitVec.allOnes 64, ~~~1#64)).1
    else
      ((List.range top).foldl
        (fun (st : BitVec 64 × BitVec 64) idx =>
          (if v.get idx = .v1 then st.1 ||| st.2 else st.1, st.2 <<< 1)) (0#64, 1#64)).1

/- The loop that turns a native word into bits. -/
def nativeBits (shift : BitVec 64 → BitVec 64) : Nat → BitVec 64 → List VerinumV
| 0, _ => []
| n + 1, v => (if v &&& 1#64 ≠ 0#64 then .v1 else .v0) :: nativeBits shift n (shift v)

/- `LONG_MIN`. -/
def longMin : BitVec 64 := 1#64 <<< 63

/- The magnitude of an operand of the long paths. -/
def magnitude (v : Verinum) : Option Verinum :=
  (if v.isNegative then v.neg else some v).map (fun v => v.withSign false)

/- The end of both operators. -/
def finish (use_len : Nat) (has_len_flag signed_flag : Bool) (result : Verinum) : Verinum :=
  let result := if has_len_flag then result.castToWidth use_len else result
  trimVnum (result.withSign signed_flag)

/- `operator /`.  None for a native division by zero. -/
def divide (left right : Verinum) : Option Verinum :=
  let has_len_flag := left.has_len && right.has_len
  let signed_flag := left.has_sign && right.has_sign
  let use_len := left.len
  if !left.isDefined || !right.isDefined || right.isZero then
    some ((fill .vx use_len has_len_flag).withSign signed_flag)
  else
    let result : Option Verinum :=
      if signed_flag then
        if use_len ≤ 8 * 8 - 1 then
          let l := left.asLong
          let r := right.asLong
          let overflow := l == longMin && r == BitVec.allOnes 64
          if overflow then
            some (ofBits (nativeBits (fun v => v.sshiftRight 1) use_len longMin) has_len_flag)
          else if r = 0#64 then none
          else
            some (ofBits (nativeBits (fun v => v.sshiftRight 1) use_len (l.sdiv r)) has_len_flag)
        else do
          let use_left ← left.magnitude
          let use_right ← right.magnitude
          let result ← unsignedDivide use_left use_right true
          if left.isNegative != right.isNegative then result.neg
          else some result
      else if use_len ≤ 8 * 8 then
        let l := left.asULong
        let r := right.asULong
        if r = 0#64 then none
        else
          some (ofBits (nativeBits (fun v => v >>> 1) use_len (l / r)) has_len_flag)
      else unsignedDivide left right false
    result.map (finish use_len has_len_flag signed_flag)

/- `operator %`.  None for a native division by zero. -/
def modulus (left right : Verinum) : Option Verinum :=
  let has_len_flag := left.has_len && right.has_len
  let signed_flag := left.has_sign && right.has_sign
  let use_len := left.len
  if !left.isDefined || !right.isDefined || right.isZero then
    some ((fill .vx use_len has_len_flag).withSign signed_flag)
  else
    let result : Option Verinum :=
      if signed_flag then
        if use_len ≤ 8 * 8 then
          let l := left.asLong
          let r := right.asLong
          let overflow := l == longMin && r == BitVec.allOnes 64
          if overflow then
            some (ofBits (nativeBits (fun v => v.sshiftRight 1) use_len 0#64) has_len_flag)
          else if r = 0#64 then none
          else
            some (ofBits (nativeBits (fun v => v.sshiftRight 1) use_len (l.srem r)) has_len_flag)
        else do
          let use_left ← left.magnitude
          let use_right ← right.magnitude
          let result ← unsignedModulus use_left use_right
          if left.isNegative then result.neg else some result
      else if use_len ≤ 8 * 8 then
        let l := left.asULong
        let r := right.asULong
        if r = 0#64 then none
        else
          some (ofBits (nativeBits (fun v => v >>> 1) use_len (l % r)) has_len_flag)
      else unsignedModulus left right
    result.map (finish use_len has_len_flag signed_flag)

end Verinum

end EpicSim
