import EpicSim.Lib.CText
import EpicSim.Vvp.Scalar
import EpicSim.Lib.TwosComplement

/-
  Vectors as binary, octal and hex text.

  The readers take the digits from the end of the text; the
  writers fill a buffer from its end.  Lengths and places are
  32-bit counters that wrap.  A failed assertion, and a write
  past the buffer, give none.
-/

----
-- Vectors
----

namespace EpicSim

namespace VpipText

open VvpBit4

/- A value of the source's type `unsigned`. -/
def unsigned (n : Nat) : Nat := n % 2 ^ 32

/- The `unsigned` before a value. -/
def unsignedPred (n : Nat) : Nat := unsigned (n + 2 ^ 32 - 1)

/- The bits of a vector, lowest first. -/
abbrev Vec4 := List VvpBit4

/- `value(idx)`: X outside of the vector. -/
def valueAt (v : Vec4) (idx : Nat) : VvpBit4 := v.getD idx .x

/- The loop of `operator +=` from a place on. -/
def addLoop : Vec4 → BitVec 64 → VvpBit4 → Vec4
| [], _, _ => []
| bit :: rest, that, carry =>
  if that = 0#64 ∧ carry = .zero then bit :: rest
  else
    let that_bit : VvpBit4 := if that.getLsbD 0 then .one else .zero
    if that_bit = .zero ∧ carry = .zero then
      bit :: addLoop rest (that.sshiftRight 1) carry
    else
      let res := VvpBit4.addWithCarry bit that_bit carry
      res.1 :: addLoop rest (that.sshiftRight 1) res.2

/- `operator += (int64_t)`. -/
def addInt64 (v : Vec4) (that : BitVec 64) : Vec4 :=
  if v.any isXz then List.replicate v.length .x
  else addLoop v that .zero

/- `invert`. -/
def invert (v : Vec4) : Vec4 := v.map VvpBit4.not

/- What the readers do with the digits: negate them, and copy
   them with the padding their top bit asks for. -/
def finish (n : Nat) (negative : Bool) (tval : Vec4) : Vec4 :=
  let tval := if negative then addInt64 (invert tval) 1#64 else tval
  let pad :=
    match valueAt tval (unsignedPred tval.length) with
    | .x => .x
    | .z => .z
    | .one => if negative then .one else .zero
    | .zero => .zero
  (List.range n).map fun idx => if idx < tval.length then valueAt tval idx else pad

----
-- Readers
----

/- The number of a hex digit. -/
def hexValue (ch : Char) : Option Nat :=
  if '0' ≤ ch ∧ ch ≤ '9' then some (ch.toNat - '0'.toNat)
  else if 'a' ≤ ch ∧ ch ≤ 'f' then some (ch.toNat - 'a'.toNat + 10)
  else if 'A' ≤ ch ∧ ch ≤ 'F' then some (ch.toNat - 'A'.toNat + 10)
  else none

/- The number of an octal digit. -/
def octValue (ch : Char) : Option Nat :=
  if '0' ≤ ch ∧ ch ≤ '7' then some (ch.toNat - '0'.toNat) else none

/- The number of a binary digit. -/
def binValue (ch : Char) : Option Nat :=
  if ch = '0' then some 0 else if ch = '1' then some 1 else none

/- A bit of a digit; none for an invalid one. -/
def digitBit (value : Char → Option Nat) (ch : Char) (bit_off : Nat) : Option VvpBit4 :=
  match value ch with
  | some tmp => some (if tmp.testBit bit_off then .one else .zero)
  | none =>
    if ch = 'x' ∨ ch = 'X' then some .x
    else if ch = 'z' ∨ ch = 'Z' then some .z
    else none

/- The number of `-` and `_` in the text. -/
def skipChars (str : List Char) : Nat :=
  str.countP fun ch => ch = '-' || ch = '_'

/- Skip the underscores before a digit. -/
def skipUnderscores (str : List Char) (str_off : Nat) : Nat → Nat → Option (Char × Nat)
| 0, _ => none
| rounds + 1, skip_chars =>
  let ch := str.getD (str.length - str_off - 1 - skip_chars) '-'
  if ch = '_' then
    if str_off + (skip_chars + 1) < str.length then
      skipUnderscores str str_off rounds (skip_chars + 1)
    else none
  else some (ch, skip_chars)

/- The loop over the bits of the digits: none inside where a
   digit is invalid. -/
def digitsLoop (width : Nat) (value : Char → Option Nat) (str : List Char) :
    Nat → Nat → Nat → Vec4 → Option (Option Vec4)
| 0, _, _, tval => some (some tval)
| rounds + 1, idx, skip_chars, tval =>
  let str_off := idx / width
  if str_off + skip_chars < str.length then
    match skipUnderscores str str_off str.length skip_chars with
    | none => none
    | some (ch, skip_chars) =>
      if ch = '-' then none
      else
        match digitBit value ch (idx % width) with
        | none => some none
        | some bit => digitsLoop width value str rounds (idx + 1) skip_chars (tval.set idx bit)
  else none

/- The readers of octal and hex text, for a vector of `n` bits. -/
def digitsStrToVec4 (width : Nat) (value : Char → Option Nat) (n : Nat)
    (str : List Char) : Option Vec4 :=
  let size := unsigned (width * (str.length - skipChars str))
  match digitsLoop width value str size 0 0
      (List.replicate size .x) with
  | none => none
  | some none => some (List.replicate n .x)
  | some (some tval) => some (finish n (str.head? = some '-') tval)

/- `vpip_hex_str_to_vec4`. -/
def vpipHexStrToVec4 : Nat → List Char → Option Vec4 :=
  digitsStrToVec4 4 hexValue

/- `vpip_oct_str_to_vec4`. -/
def vpipOctStrToVec4 : Nat → List Char → Option Vec4 :=
  digitsStrToVec4 3 octValue

/- `while (*ebuf == '_')`. -/
def skipBack (str : List Char) : Nat → Option Nat
| 0 => if str.getD 0 '-' = '_' then none else some 0
| ebuf + 1 =>
  if str.getD (ebuf + 1) '-' = '_' then
    if 0 < ebuf then skipBack str ebuf else none
  else some (ebuf + 1)

/- `while (ebuf > buf)`. -/
def binLoop (str : List Char) : Nat → Nat → Nat → Vec4 → Option (Option Vec4)
| 0, _, _, _ => none
| rounds + 1, ebuf, idx, tval =>
  if 0 < ebuf then
    match skipBack str (ebuf - 1) with
    | none => none
    | some ebuf =>
      let ch := str.getD ebuf '-'
      if ch = '-' then
        if ebuf = 0 then some (some tval) else none
      else if idx < tval.length then
        match digitBit binValue ch 0 with
        | none => some none
        | some bit => binLoop str rounds ebuf (idx + 1) (tval.set idx bit)
      else none
  else some (some tval)

/- `vpip_bin_str_to_vec4`. -/
def vpipBinStrToVec4 (n : Nat) (str : List Char) : Option Vec4 :=
  let size := unsigned (str.length - skipChars str)
  match binLoop str (str.length + 1) str.length 0
      (List.replicate size .x) with
  | none => none
  | some none => some (List.replicate n .x)
  | some (some tval) => some (finish n (str.head? = some '-') tval)

----
-- Writers
----

/- `buf[idx] = ch`, inside the buffer. -/
def putChar (buf : List Char) (idx : Nat) (ch : Char) : Option (List Char) :=
  if idx < buf.length then some (buf.set idx ch) else none

/- The two bits that a bit adds to a digit. -/
def digitCode : VvpBit4 → Nat
| .zero => 0
| .one => 1
| .x => 2
| .z => 3

/- The tables `hex_digits` and `oct_digits`. -/
def digitTable (width : Nat) (digits : List Char) (val : Nat) : Char :=
  let codes := (List.range width).map fun bdx => val / 4 ^ bdx % 4
  let cnt_z := codes.count 3
  let cnt_x := codes.count 2
  let bv := (List.range width).foldl
    (fun bv bdx => if val / 4 ^ bdx % 4 = 1 then bv + 2 ^ bdx
      else bv) 0
  if cnt_z = width then 'z'
  else if cnt_x = width then 'x'
  else if 0 < cnt_z ∧ cnt_x = 0 then 'Z'
  else if 0 < cnt_x then 'X'
  else digits.getD bv nul

/- One bit of the loop: the buffer, the place of the last digit
   and the bits of the next one. -/
def writeStep (width : Nat) (table : Nat → Char) (bit : VvpBit4) (idx : Nat) :
    List Char × Nat × Nat → Option (List Char × Nat × Nat)
| (buf, slen, val) =>
  let vs := idx % width
  let val := val + digitCode bit * 4 ^ vs
  if vs + 1 = width then
    (putChar buf (unsignedPred slen) (table val)).map fun buf => (buf, unsignedPred slen, 0)
  else some (buf, slen, val)

/- The loop over the bits. -/
def writeLoop (width : Nat) (table : Nat → Char) :
    Vec4 → Nat → List Char × Nat × Nat → Option (List Char × Nat × Nat)
| [], _, st => some st
| bit :: bits, idx, st =>
  (writeStep width table bit idx st).bind (writeLoop width table bits (idx + 1))

/- The partial digit of a value that is all X or all Z. -/
def fillXz (width part val : Nat) : Nat :=
  if part = 0 then val
  else if val = (4 ^ part - 1) / 3 * 2 then (4 ^ width - 1) / 3 * 2
  else if val = 4 ^ part - 1 then 4 ^ width - 1
  else val

/- The writers of octal and hex text into a buffer. -/
def digitsVec4ToStr (width : Nat) (table : Nat → Char) (bits : Vec4)
    (buf : List Char) : Option (List Char) := do
  let slen := unsigned (bits.length + (width - 1)) / width
  if slen < buf.length then
    let buf ← putChar buf slen nul
    let (buf, slen, val) ← writeLoop width table bits 0
      (buf, slen, 0)
    let val := fillXz width (bits.length % width) val
    if 0 < slen then putChar buf (slen - 1) (table val)
    else some buf
  else none

def hexDigits : List Char := "0123456789abcdef".toList

def octDigits : List Char := "01234567".toList

/- `vpip_vec4_to_hex_str`. -/
def vpipVec4ToHexStr : Vec4 → List Char → Option (List Char) :=
  digitsVec4ToStr 4 (digitTable 4 hexDigits)

/- `vpip_vec4_to_oct_str`. -/
def vpipVec4ToOctStr : Vec4 → List Char → Option (List Char) :=
  digitsVec4ToStr 3 (digitTable 3 octDigits)

/- `vvp_bit4_to_ascii`. -/
def bitToAscii : VvpBit4 → Char
| .zero => '0'
| .one => '1'
| .x => 'x'
| .z => 'z'

/- The loop of `vpiBinStrVal`. -/
def binWriteLoop (width : Nat) : Vec4 → Nat → List Char → Option (List Char)
| [], _, buf => some buf
| bit :: bits, idx, buf =>
  match putChar buf (width - idx - 1) (bitToAscii bit) with
  | none => none
  | some buf => binWriteLoop width bits (idx + 1) buf

/- `vpiBinStrVal`. -/
def vpipVec4ToBinStr (bits : Vec4)
    (buf : List Char) : Option (List Char) := do
  let buf ← binWriteLoop bits.length bits 0 buf
  putChar buf bits.length nul

end VpipText

end EpicSim
