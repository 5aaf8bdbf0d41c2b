import EpicSim.Vvp.Compare

/-
  Division and modulus of procedural code.

  Wide quotients come from a long division word by word, wide
  remainders from a subtraction bit by bit.
-/

namespace EpicSim

open VvpVector4 (fill)
open BitVec (allOnes intMin)
open PackedWords Limbs

----
-- Machine Words
----

/- `add_with_carry`: the sum and the new carry. -/
def addWithCarry (a b carry : BitVec 64) : BitVec 64 × BitVec 64 :=
  let tmp := b + carry
  let sum := a + tmp
  let carry := 0#64
  let carry := if tmp < b then 1#64 else carry
  let carry := if sum < tmp then 1#64 else carry
  let carry := if sum < a then 1#64 else carry
  (sum, carry)

/- `multiply_with_carry`: the low and the high word. -/
def multiplyWithCarry (a b : BitVec 64) : BitVec 64 × BitVec 64 :=
  let mask : BitVec 64 := 1#64 <<< 32 - 1#64
  let a0 := a &&& mask
  let a1 := (a >>> 32) &&& mask
  let b0 := b &&& mask
  let b1 := (b >>> 32) &&& mask
  let tmp := a0 * b0
  let r00 := tmp &&& mask
  let c00 := (tmp >>> 32) &&& mask
  let tmp := a0 * b1
  let r01 := tmp &&& mask
  let c01 := (tmp >>> 32) &&& mask
  let tmp := a1 * b0
  let r10 := tmp &&& mask
  let c10 := (tmp >>> 32) &&& mask
  let tmp := a1 * b1
  let r11 := tmp &&& mask
  let c11 := (tmp >>> 32) &&& mask
  let r1 := c00 + r01 + r10
  let r2 := (r1 >>> 32) &&& mask
  let r1 := r1 &&& mask
  let r2 := r2 + (c01 + c10 + r11)
  let r3 := (r2 >>> 32) &&& mask
  let r2 := r2 &&& mask
  let r3 := r3 + c11
  let r3 := r3 &&& mask
  ((r1 <<< 32) + r00, (r3 <<< 32) + r2)

/- One turn of the outer loop of `multiply_array_imm`. -/
def multiplyArrayTurn (val : List (BitVec 64)) (imm : BitVec 64) (res : List (BitVec 64))
    (mul_idx : Nat) : List (BitVec 64) :=
  let (tmp, sum) := multiplyWithCarry (wordAt val mul_idx) imm
  let rest := res.drop mul_idx
  let addend := (tmp :: sum :: List.replicate rest.length 0#64).take rest.length
  res.take mul_idx ++ (ripple addWithCarry rest addend 0#64).1

/- `multiply_array_imm`. -/
def multiplyArrayImm (val : List (BitVec 64)) (words : Nat) (imm : BitVec 64) : List (BitVec 64) :=
  (List.range words).foldl (multiplyArrayTurn val imm) (List.replicate words 0#64)

/- `negate_words`. -/
def negateWords (val : List (BitVec 64)) : List (BitVec 64) :=
  (ripple addWithCarry (List.replicate val.length 0#64) (val.map (fun word => ~~~word)) 1#64).1

/-
  The loop of `divide2words`, for a divisor that is not zero;
  none if the rounds do not suffice.
-/
def divide2wordsLoop (b : BitVec 64) : Nat → BitVec 64 → BitVec 64 → BitVec 64 → Option (BitVec 64)
| 0, a, high, result => if high = 0#64 then some (result + a / b) else none
| rounds + 1, a, high, result =>
  if high = 0#64 then some (result + a / b)
  else
    let tmp_result := allOnes 64 / b
    let remain := allOnes 64 % b + 1#64
    let (remain, tmp_result) :=
      if b ≤ remain then (remain - b, tmp_result + 1#64)
      else (remain, tmp_result)
    let result := result + tmp_result * high
    let (remain, high) := multiplyWithCarry high remain
    let a := a + remain
    let high := if a < remain then high + 1#64 else high
    divide2wordsLoop b rounds a high result

/- `divide2words`; none where it would not return. -/
def divide2words (a b high : BitVec 64) : Option (BitVec 64) :=
  divide2wordsLoop b (2 ^ 128) a high 0#64

----
-- Quotients
----

/- The scan of `divide_bits` for the top word of a divisor. -/
def topWord (bp : List (BitVec 64)) : Nat → Nat
| 0 => 0
| btop + 1 =>
  if wordAt bp (btop + 1) = 0#64 then topWord bp btop
  else btop + 1

/-
  The loop that adds the divisor back, on the words from the
  current one on, until a carry comes out.
-/
def addBack (bp : List (BitVec 64)) :
    Nat → List (BitVec 64) → BitVec 64 → Option (List (BitVec 64) × BitVec 64)
| 0, _, _ => none
| rounds + 1, ap, cur_res =>
  let cur_res := cur_res - 1#64
  let (ap, carry) := ripple addWithCarry ap bp 0#64
  if carry = 0#64 then addBack bp rounds ap cur_res
  else some (ap, cur_res)

/- Subtract the product of a guess, and set a result word. -/
def tryWord (bp : List (BitVec 64)) (words cur_ptr : Nat) (ap result : List (BitVec 64))
    (cur_res : BitVec 64) : Option (List (BitVec 64) × List (BitVec 64)) :=
  let count := words - cur_ptr
  let diff := multiplyArrayImm bp count cur_res
  let (high, carry) := ripple addWithCarry (ap.drop cur_ptr) (diff.map (fun word => ~~~word)) 1#64
  if carry &&& 1#64 = 0#64 then
    (addBack (bp.take count) (2 ^ (64 * count)) high cur_res).map fun (high, cur_res) =>
      (ap.take cur_ptr ++ high, result.set cur_ptr cur_res)
  else
    some (ap.take cur_ptr ++ high, result.set cur_ptr cur_res)

/- One turn of the loop of `divide_bits`. -/
def divideTurn (bp : List (BitVec 64)) (words btop cur_ptr : Nat) (ap result : List (BitVec 64)) :
    Option (List (BitVec 64) × List (BitVec 64)) :=
  let top := wordAt ap (cur_ptr + btop)
  let next := cur_ptr + btop + 1
  if wordAt bp btop ≤ top then
    let high := if next < words then wordAt ap next else 0#64
    (divide2words top (wordAt bp btop) high).bind (tryWord bp words cur_ptr ap result)
  else if words ≤ next then some (ap, result)
  else if wordAt ap next = 0#64 then some (ap, result)
  else
    (divide2words top (wordAt bp btop) (wordAt ap next)).bind (tryWord bp words cur_ptr ap result)

/- The loop of `divide_bits`, from `cur` words down. -/
def divideLoop (bp : List (BitVec 64)) (words btop : Nat) :
    Nat → List (BitVec 64) → List (BitVec 64) → Option (List (BitVec 64) × List (BitVec 64))
| 0, ap, result => some (ap, result)
| cur_ptr + 1, ap, result =>
  (divideTurn bp words btop cur_ptr ap result).bind fun st =>
    divideLoop bp words btop cur_ptr st.1 st.2

/-
  `divide_bits`: the remainder and the quotient.  The outer
  option is none where it does not return, the inner one for
  the null pointer of a division by zero.
-/
def divideBits (ap bp : List (BitVec 64)) (wid : Nat) :
    Option (Option (List (BitVec 64) × List (BitVec 64))) :=
  let words := (wid + 64 - 1) / 64
  let btop := topWord bp (words - 1)
  if btop = 0 ∧ wordAt bp 0 = 0#64 then some none
  else
    (divideLoop bp words btop (words - btop) ap (List.replicate words 0#64)).map some

/- `setarray` of a whole vector. -/
def VvpVector4.setArray (v : VvpVector4) (val : List (BitVec 64)) : VvpVector4 :=
  let mask (idx : Nat) : BitVec 64 :=
    if v.size_ - 64 * idx < 64 then lowMask (v.size_ - 64 * idx)
    else allOnes 64
  { size_ := v.size_
    abits := build v.size_ (fun idx =>
      wordAt v.abits idx &&& ~~~mask idx ||| mask idx &&& wordAt val idx)
    bbits := build v.size_ (fun idx => wordAt v.bbits idx &&& ~~~mask idx)
    abits_length := build_length _ _
    bbits_length := build_length _ _ }

/- `of_DIV`: what replaces the two operands. -/
def ofDIV (vala valb : VvpVector4) : Option VvpVector4 :=
  if vala.size_ ≠ valb.size_ then none
  else
    let wid := vala.size_
    match vala.subarray with
    | none => some (fill wid .x)
    | some ap =>
      match valb.subarray with
      | none => some (fill wid .x)
      | some bp =>
        if wid ≤ 64 then
          if wordAt bp 0 = 0#64 then
            some (fill wid .x)
          else
            some (vala.setArray (ap.set 0 (wordAt ap 0 / wordAt bp 0)))
        else
          (divideBits ap bp wid).map fun
            | none => fill wid .x
            | some (_, result) => vala.setArray result

/- The bits above the width in the last word. -/
def signMask (wid : Nat) : BitVec 64 :=
  let words := (wid + 64 - 1) / 64
  let sign_bits := words * 64 - wid
  if sign_bits ≠ 0 then allOnes 64 <<< (64 - sign_bits)
  else 0#64

/- Sign extend the last word. -/
def signExtendWords (wid : Nat) (ap : List (BitVec 64)) : List (BitVec 64) :=
  let words := (wid + 64 - 1) / 64
  let top := wordAt ap (words - 1)
  if top &&& (signMask wid >>> 1) ≠ 0#64 then
    ap.set (words - 1) (top ||| signMask wid)
  else ap

/- Make a number positive, and tell whether it was not. -/
def positiveWords (words : Nat) (ap : List (BitVec 64)) : List (BitVec 64) × Bool :=
  if (wordAt ap (words - 1)).toInt < 0 then
    (negateWords ap, true)
  else (ap, false)

/- The part of `of_DIV_S` for a single word. -/
def divideNative (vala : VvpVector4) (ap bp : List (BitVec 64)) : VvpVector4 :=
  let wid := vala.size_
  let a := wordAt ap 0
  let b := wordAt bp 0
  if b = 0#64 then fill wid .x
  else if a = intMin 64 ∧ b = allOnes 64 then
    (fill wid .zero).setBit (wid - 1) .one
  else
    vala.setArray (ap.set 0 (a.sdiv b &&& ~~~signMask wid))

/- The part of `of_DIV_S` for many words. -/
def divideWide (vala : VvpVector4) (ap bp : List (BitVec 64)) : Option VvpVector4 :=
  let wid := vala.size_
  let words := (wid + 64 - 1) / 64
  let a := positiveWords words ap
  let b := positiveWords words bp
  (divideBits a.1 b.1 wid).map fun
    | none => fill wid .x
    | some (_, result) =>
      let result := if a.2 ^^ b.2 then negateWords result else result
      vala.setArray (result.set (words - 1) (wordAt result (words - 1) &&& ~~~signMask wid))

/- `of_DIV_S`. -/
def ofDIVS (vala valb : VvpVector4) : Option VvpVector4 :=
  if vala.size_ ≠ valb.size_ then none
  else
    let wid := vala.size_
    match vala.subarray with
    | none => some (fill wid .x)
    | some ap =>
      match valb.subarray with
      | none => some (fill wid .x)
      | some bp =>
        let ap := signExtendWords wid ap
        let bp := signExtendWords wid bp
        if wid ≤ 64 then some (divideNative vala ap bp)
        else divideWide vala ap bp

----
-- Remainders
----

/- One addition of single bits, as the loops do it. -/
def addBits (a b carry : BitVec 1) : BitVec 1 × BitVec 1 :=
  let temp := a.toNat + b.toNat + carry.toNat
  (BitVec.ofNat 1 temp, BitVec.ofNat 1 (temp >>> 1))

/- The bits of a vector, or those of its negative. -/
def readBits (val : VvpVector4) (is_neg : Bool) : List (BitVec 1) :=
  let bits := (List.range val.size_).map fun idx => if val.value idx = .one then 1#1 else 0#1
  if is_neg then
    (ripple addBits (List.replicate bits.length 0#1) (bits.map (fun bit => ~~~bit)) 1#1).1
  else bits

/- The last index below `len` with a set bit, or -1. -/
def lastSet (bits : List (BitVec 1)) : Nat → Int
| 0 => -1
| len + 1 => if bits.getD len 0#1 ≠ 0#1 then len else lastSet bits len

/-
  The loop of `do_verylong_mod`: subtract the divisor at each
  place, from `current` down, unless that turns negative.
-/
def modLoop (a : List (BitVec 1)) (copylen : Nat) : Nat → List (BitVec 1) → List (BitVec 1)
| 0, z => z
| current + 1, z =>
  let window := (z.drop current).take copylen
  let (t, carry) := ripple addBits window (a.take copylen) 1#1
  let z :=
    if carry ≠ 0#1 then
      z.take current ++ t ++ z.drop (current + copylen)
    else z
  modLoop a copylen current z

/- `do_verylong_mod`. -/
def doVerylongMod (vala valb : VvpVector4) (left_is_neg right_is_neg : Bool) : VvpVector4 :=
  let len := vala.size_
  if (List.range len).any (fun idx =>
      (vala.value idx).isXz || (valb.value idx).isXz) then
    fill len .x
  else
    let divisor := readBits valb right_is_neg
    -- one more bit, and the divisor is complemented
    let z := readBits vala left_is_neg ++ [0#1]
    let a := divisor.map (fun bit => ~~~bit) ++ [1#1]
    let mxa := lastSet divisor len
    let mxz := lastSet z len
    if mxa = -1 then fill len .x
    else
      let z :=
        if mxa > mxz then z
        else
          modLoop a (mxa + 2).toNat (mxz - mxa + 1).toNat z
      let out :=
        if left_is_neg then
          (ripple addBits (List.replicate len 0#1) ((z.take len).map (fun bit => ~~~bit)) 1#1).1
        else z.take len
      (List.range len).foldl (fun tmp idx =>
        tmp.setBit idx (if out.getD idx 0#1 ≠ 0#1 then .one else .zero))
        (fill len .x)

/- Read the bits of an operand into a native word. -/
def readWord (val : VvpVector4) : Option (BitVec 64) :=
  (List.range val.size_).foldlM (fun lv idx =>
    match val.value idx with
    | .zero => some lv
    | .one => some (lv ||| 1#64 <<< idx)
    | _ => none) 0#64

/- Write the bits of a native word over the operand. -/
def writeWord (shift : BitVec 64 → BitVec 64) (vala : VvpVector4) (lv : BitVec 64) : VvpVector4 :=
  ((List.range vala.size_).foldl
    (fun (st : VvpVector4 × BitVec 64) idx =>
      (st.1.setBit idx (if st.2 &&& 1#64 ≠ 0#64 then .one else .zero), shift st.2)) (vala, lv)).1

/- `of_MOD`. -/
def ofMOD (vala valb : VvpVector4) : Option VvpVector4 :=
  if vala.size_ ≠ valb.size_ then none
  else
    let wid := vala.size_
    if wid ≤ 64 then
      match readWord vala, readWord valb with
      | some lv, some rv =>
        if rv = 0#64 then some (fill wid .x)
        else some (writeWord (fun x => x >>> 1) vala (lv % rv))
      | _, _ => some (fill wid .x)
    else some (doVerylongMod vala valb false false)

/- Sign extend a native word of `wid` bits. -/
def signExtendNative (wid : Nat) (lv : BitVec 64) : BitVec 64 :=
  if wid < 64 then
    if lv &&& (1#64 <<< (wid - 1)) ≠ 0#64 then
      lv ||| allOnes 64 <<< wid
    else lv
  else lv

/- `of_MOD_S`. -/
def ofMODS (vala valb : VvpVector4) : Option VvpVector4 :=
  if vala.size_ ≠ valb.size_ then none
  else
    let wid := vala.size_
    if wid ≤ 64 then
      match readWord vala, readWord valb with
      | some lv, some rv =>
        if rv = 0#64 then some (fill wid .x)
        else if lv = intMin 64 ∧
            rv = allOnes 64 then
          some (fill wid .zero)
        else
          let lv := signExtendNative wid lv
          let rv := signExtendNative wid rv
          some (writeWord (fun x => x.sshiftRight 1) vala (lv.srem rv))
      | _, _ => some (fill wid .x)
    else
      some (doVerylongMod vala valb
        (vala.value (vala.size_ - 1) = .one)
        (valb.value (valb.size_ - 1) = .one))

/- The dividing instructions. -/
inductive DivideOp where
| div
| divS
| mod
| modS
deriving DecidableEq

/- What an instruction makes of its operands. -/
def DivideOp.run (i : DivideOp) (vala valb : VvpVector4) : Option VvpVector4 :=
  match i with
  | .div => ofDIV vala valb
  | .divS => ofDIVS vala valb
  | .mod => ofMOD vala valb
  | .modS => ofMODS vala valb

end EpicSim
