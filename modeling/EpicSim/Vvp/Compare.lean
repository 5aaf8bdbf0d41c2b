import EpicSim.Vvp.Arith

/-
  The comparisons of procedural code and of nets.
-/

namespace EpicSim

open PackedWords Limbs

----
-- Procedural Comparisons
----

/- The flags 4, 5 and 6 of a thread. -/
structure CmpFlags where
  eq : VvpBit4
  lt : VvpBit4
  eeq : VvpBit4
deriving DecidableEq

/-
  `subarray` of a whole vector with at least one bit: none if
  a bit is X or Z.
-/
def VvpVector4.subarray (that : VvpVector4) : Option (List (BitVec 64)) :=
  (List.range (wordsFor that.size_)).mapM fun idx =>
    let wid := that.size_ - 64 * idx
    let mask := if wid < 64 then lowMask wid else BitVec.allOnes 64
    let atmp := wordAt that.abits idx &&& mask
    let btmp := wordAt that.bbits idx &&& mask
    if btmp ≠ 0#64 then none else some atmp

/-
  The loop over the bits that `do_CMPE` and
  `of_CMPU_the_hard_way` have in common: eq and eeq.
-/
def compareBits (lval rval : VvpVector4) : List Nat → VvpBit4 → VvpBit4 → VvpBit4 × VvpBit4
| [], eq, eeq => (eq, eeq)
| idx :: rest, eq, eeq =>
  let lv := lval.value idx
  let rv := rval.value idx
  let eeq := if lv ≠ rv then .zero else eeq
  let eq := if eq = .one ∧ (lv.isXz ∨ rv.isXz) then .x else eq
  let eq := if lv = .zero ∧ rv = .one then .zero else eq
  let eq := if lv = .one ∧ rv = .zero then .zero else eq
  if eq = .zero then (eq, eeq)
  else compareBits lval rval rest eq eeq

/- `do_CMPE`, which does not touch the lt flag. -/
def doCMPE (flags : CmpFlags) (lval rval : VvpVector4) : Option CmpFlags :=
  if rval.size_ ≠ lval.size_ then none
  else if lval.hasXz ∨ rval.hasXz then
    let (eq, eeq) := compareBits lval rval (List.range lval.size_) .one .one
    some { flags with eq := eq, eeq := eeq }
  else
    let same := if lval.eeq rval then .one else .zero
    some { flags with eq := same, eeq := same }

/- `of_CMPU_the_hard_way`. -/
def cmpuTheHardWay (lval rval : VvpVector4) : CmpFlags :=
  let (eq, eeq) := compareBits lval rval (List.range lval.size_) .one .one
  ⟨eq, .x, eeq⟩

/- `do_CMPU`; the last pair of words that differs decides. -/
def doCMPU (_flags : CmpFlags) (lval rval : VvpVector4) : Option CmpFlags :=
  if rval.size_ ≠ lval.size_ then none
  else
    match lval.subarray, rval.subarray with
    | some larray, some rarray =>
      some (compareUp ⟨.zero, .zero, .zero⟩ ⟨.zero, .one, .zero⟩ ⟨.one, .zero, .one⟩ larray rarray)
    | _, _ => some (cmpuTheHardWay lval rval)

/-
  Scan from below an index down to the first bit that differs,
  and return the left one.
-/
def firstDifference (lval rval : VvpVector4) : Nat → Option VvpBit4
| 0 => none
| idx + 1 =>
  if lval.value idx = rval.value idx then
    firstDifference lval rval idx
  else some (lval.value idx)

/- `do_CMPS`. -/
def doCMPS (_flags : CmpFlags) (lval rval : VvpVector4) : Option CmpFlags :=
  if rval.size_ ≠ lval.size_ then none
  -- The eq flag is X here, whatever the other bits are.
  else if lval.hasXz ∨ rval.hasXz then
    some ⟨.x, .x, if lval.eeq rval then .one else .zero⟩
  else
    let wid := lval.size_
    let sig1 := lval.value (wid - 1)
    let sig2 := rval.value (wid - 1)
    if sig1 = .one ∧ sig2 = .zero then some ⟨.zero, .one, .zero⟩
    else if sig1 = .zero ∧ sig2 = .one then
      some ⟨.zero, .zero, .zero⟩
    else
      match firstDifference lval rval (wid - 1) with
      | some lv => some ⟨.zero, if lv = .zero then .one else .zero, .zero⟩
      | none => some ⟨.one, .zero, .one⟩

/- The comparing instructions. -/
inductive CmpOp where
| cmpE
| cmpU
| cmpS
deriving DecidableEq

/- What an instruction does to the flags. -/
def CmpOp.run (i : CmpOp) (flags : CmpFlags) (lval rval : VvpVector4) : Option CmpFlags :=
  match i with
  | .cmpE => doCMPE flags lval rval
  | .cmpU => doCMPU flags lval rval
  | .cmpS => doCMPS flags lval rval

----
-- Net Comparisons
----

/- The loop of `vvp_cmp_eq`. -/
def cmpEqLoop (opA opB : VvpVector4) : List Nat → VvpBit4 → VvpBit4
| [], res => res
| idx :: rest, res =>
  let a := opA.value idx
  let b := opB.value idx
  if a = .x then cmpEqLoop opA opB rest .x
  else if a = .z then cmpEqLoop opA opB rest .x
  else if b = .x then cmpEqLoop opA opB rest .x
  else if b = .z then cmpEqLoop opA opB rest .x
  else if a ≠ b then .zero
  else cmpEqLoop opA opB rest res

/- The bit that `vvp_cmp_eq::recv_vec4` sends. -/
def vvpCmpEq (arith : VvpArith) : Option VvpBit4 :=
  if arith.op_a.size_ ≠ arith.op_b.size_ then none
  else
    some (cmpEqLoop arith.op_a arith.op_b (List.range arith.op_a.size_) .one)

/- `compare_gtge`, for vectors of any two sizes. -/
def compareGtge (lef rig : VvpVector4) (outIfEqual : VvpBit4) : VvpBit4 :=
  let minSize := min lef.size_ rig.size_
  if minSize = 0 then .x
  else if lef.hasXz then .x
  else if rig.hasXz then .x
  else if (List.range (lef.size_ - rig.size_)).any
      (fun k => lef.value (rig.size_ + k) = .one) then .one
  else if (List.range (rig.size_ - lef.size_)).any
      (fun k => rig.value (lef.size_ + k) = .one) then .zero
  else
    match firstDifference lef rig minSize with
    | some lv => if lv = .one then .one else .zero
    | none => outIfEqual

/- `compare_gtge_signed`. -/
def compareGtgeSigned (a b : VvpVector4) (outIfEqual : VvpBit4) : Option VvpBit4 :=
  if a.size_ ≠ b.size_ then none
  else
    let signIdx := a.size_ - 1
    let aSign := a.value signIdx
    let bSign := b.value signIdx
    if aSign.isXz then some .x
    else if bSign.isXz then some .x
    else if aSign = bSign then some (compareGtge a b outIfEqual)
    else if a.hasXz then some .x
    else if b.hasXz then some .x
    else if aSign = .zero then some .one
    else some .zero

/- `recv_vec4_base_`: the bit that a functor for > or ≥ sends. -/
def vvpCmpGtge (arith : VvpArith) (outIfEqual : VvpBit4) : Option VvpBit4 :=
  if arith.signed_flag then
    compareGtgeSigned arith.op_a arith.op_b outIfEqual
  else some (compareGtge arith.op_a arith.op_b outIfEqual)

end EpicSim
