import EpicSim.Vvp.PartSelect

/-
  The instructions that write a part of a variable, of an
  array word or of a forced net.

  An index register holds a signed 64-bit number, sizes are
  unsigned 32-bit numbers.  A value of which a part is taken
  with a negative width, or a failed assertion, is none.
-/

namespace EpicSim

open PartUpdate (overwrite)

----
-- Machine Numbers
----

/- A number as `unsigned`. -/
def toUnsigned (n : Int) : Nat := (n % 2 ^ 32).toNat

/- A number as `int`. -/
def toInt (n : Int) : Int :=
  (n + 2 ^ 31) % 2 ^ 32 - 2 ^ 31

/-
  `subvalue` where the width is a difference: a negative one
  wraps around.
-/
def partOf (val : List VvpBit4) (adr : Nat) (wid : Int) : Option (List VvpBit4) :=
  if wid < 0 then none else some (subvalue val adr wid.toNat)

/- The bits of a value that a target of this size has. -/
def cutAbove (size : Nat) (off : Int) (val : List VvpBit4) : Option (List VvpBit4) :=
  if size < off + val.length then partOf val 0 (size - off)
  else some val

----
-- Targets
----

/-
  `vvp_fun_signal4_sa`.  The mask of a procedural continuous
  assignment has size 0 if there is none.
-/
structure SignalVar where
  bits4 : List VvpBit4
  assignMask : List Bool
deriving DecidableEq

namespace SignalVar

/- `recv_vec4` on port 0. -/
def recvVec4 (s : SignalVar) (bit : List VvpBit4) : Option SignalVar :=
  if s.assignMask.length = 0 then
    if bit.length = s.bits4.length then some { s with bits4 := bit }
    else none
  else if s.bits4.length = s.assignMask.length then
    some { s with
      bits4 := s.bits4.mapIdx fun idx old =>
        if s.assignMask.getD idx false then old
        else bit.getD idx old }
  else none

/- `recv_vec4_pv` on port 0. -/
def recvVec4Pv (s : SignalVar) (bit : List VvpBit4) (base vwid : Nat) : Option SignalVar :=
  if s.bits4.length ≠ vwid then none
  else if s.assignMask.length = 0 then
    some { s with bits4 := overwrite s.bits4 base bit }
  else if s.bits4.length = s.assignMask.length then
    some { s with
      bits4 := s.bits4.mapIdx fun idx old =>
        if s.assignMask.getD idx false then old
        else (overwrite s.bits4 base bit).getD idx old }
  else none

/- `recv_vec4_pv` on port 1, the continuous assign value. -/
def recvVec4PvAssign (s : SignalVar) (bit : List VvpBit4) (base vwid : Nat) : Option SignalVar :=
  if s.bits4.length ≠ vwid then none
  else
    let assignMask :=
      if s.assignMask.length = 0 then
        List.replicate s.bits4.length false
      else s.assignMask
    some
      { bits4 := overwrite s.bits4 base bit
        assignMask := overwrite assignMask base (List.replicate bit.length true) }

end SignalVar

/-
  An array of words: of four-state words in `vals4`, or of
  two-state words in `vals`.
-/
structure VvpArray where
  valsWidth : Nat
  twoState : Bool
  words : List (List VvpBit4)
deriving DecidableEq

/- `set_vec`, which touches no word of bits behind the last. -/
def setVecWord (bits : List VvpBit4) (adr : Nat) (that : List VvpBit4) : Option (List VvpBit4) :=
  if adr / 64 < (bits.length + 63) / 64 then setVec bits adr that
  else none

/- What a two-state word keeps of a bit. -/
def VvpBit4.toTwoState : VvpBit4 → VvpBit4
| .one => .one
| _ => .zero

namespace VvpArray

/- `get_word`: an address beyond the array gives X. -/
def getWord (arr : VvpArray) (address : Nat) : List VvpBit4 :=
  arr.words.getD address (List.replicate arr.valsWidth .x)

/- `set_word`. -/
def setWord (arr : VvpArray) (address partOff : Nat) (val : List VvpBit4) : Option VvpArray :=
  if arr.words.length ≤ address then some arr
  else if arr.twoState then
    if partOff = 0 ∧ val.length = arr.valsWidth then
      some { arr with words := arr.words.set address (val.map VvpBit4.toTwoState) }
    else none
  else if partOff ≠ 0 ∨ val.length ≠ arr.valsWidth then do
    let tmp ← setVecWord (arr.getWord address) partOff val
    some { arr with words := arr.words.set address tmp }
  else some { arr with words := arr.words.set address val }

end VvpArray

----
-- Stores
----

/-
  `%store/vec4` with its offset in a register, to a variable;
  `wid` is how much of the value is taken.
-/
def ofStoreVec4 (sig : SignalVar) (flag4 : VvpBit4) (offset : Int) (wid : Nat)
    (val : List VvpBit4) : Option SignalVar :=
  let off := toInt offset
  let sigValueSize := sig.bits4.length
  if val.length < wid then none
  else
    let val := val.take wid
    if flag4 = .one then some sig
    else if off ≤ -wid then some sig
    else if sigValueSize ≤ off then some sig
    else do
      -- Below the vector, only the high bits are assigned.
      let val ←
        (if off < 0 then partOf val (-off).toNat (wid + off)
          else some val)
      let off := off.toNat
      let val ← cutAbove sigValueSize off val
      (if off = 0 ∧ val.length = sigValueSize then
          sig.recvVec4 val
        else sig.recvVec4Pv val off sigValueSize)

/- `%store/vec4a`, with the address and the offset. -/
def ofStoreVec4A (arr : VvpArray) (flag4 : VvpBit4) (adr offset : Int)
    (value : List VvpBit4) : Option VvpArray :=
  if flag4 = .one then some arr
  else do
    let shift := toUnsigned (-offset)
    let value ←
      (if offset < 0 then
          partOf value shift (value.length - shift)
        else some value)
    let off := if offset < 0 then 0 else offset
    let value ← cutAbove arr.valsWidth off value
    arr.setWord (toUnsigned adr) (toUnsigned off) value

----
-- Assignments
----

/-
  How the assignments cut the value: none of it is left, or a
  part that goes to an offset.  `limit` is what the bits below
  the target are compared with.
-/
def assignPart (limit wid : Nat) (off : Int)
    (val : List VvpBit4) : Option (Option (Nat × List VvpBit4)) :=
  if wid ≤ off then some none
  else if off < 0 ∧ limit ≤ toUnsigned (-off) then some none
  else do
    let useOff := toUnsigned (-off)
    -- With the assertion that the value reaches the target.
    let val ←
      (if off < 0 then
          if useOff < val.length then
            partOf val useOff (val.length - useOff)
          else none
        else some val)
    let off := off.toNat
    let val ← cutAbove wid off val
    some (some (off, val))

/- A write to an array word that is to come. -/
structure ArrayWordEvent where
  address : Nat
  off : Nat
  val : List VvpBit4
deriving DecidableEq

/- `assign_array_word_s` and `evctl_array`. -/
def ArrayWordEvent.run (e : ArrayWordEvent) (arr : VvpArray) : Option VvpArray :=
  arr.setWord e.address e.off e.val

/-
  The assignments to an array word of this width.  The event is scheduled
  or waits for its count; there may be none.
-/
def assignVec4A (arrayWid : Nat) (flag4 : VvpBit4) (adr offset : Int)
    (val : List VvpBit4) : Option (Option ArrayWordEvent) :=
  if flag4 = .one then some none
  else
    (assignPart arrayWid arrayWid offset val).map
      fun part => part.map fun p => ⟨toUnsigned adr, p.1, p.2⟩

/- `%assign/vec4/a/d`. -/
def ofAssignVec4AD (arrayWid : Nat) (flag4 : VvpBit4) (adr offset : Int)
    (val : List VvpBit4) : Option (Option ArrayWordEvent) :=
  assignVec4A arrayWid flag4 adr offset val

/- `%assign/vec4/a/e`. -/
def ofAssignVec4AE (arrayWid : Nat) (flag4 : VvpBit4) (adr offset : Int)
    (val : List VvpBit4) : Option (Option ArrayWordEvent) :=
  assignVec4A arrayWid flag4 adr offset val

/- A write to a variable that is to come. -/
structure VectorEvent where
  base : Nat
  vwid : Nat
  val : List VvpBit4
deriving DecidableEq

/- `assign_vector4_event_s` and `evctl_vector`. -/
def VectorEvent.run (e : VectorEvent) (sig : SignalVar) : Option SignalVar :=
  if e.vwid > 0 then sig.recvVec4Pv e.val e.base e.vwid
  else sig.recvVec4 e.val

/- The assignments to a variable of this size. -/
def assignVec4Off (valueSize : Nat) (flag4 : VvpBit4) (offset : Int)
    (val : List VvpBit4) : Option (Option VectorEvent) :=
  if flag4 = .one then some none
  else
    (assignPart val.length valueSize (toInt offset) val).map
      fun part => part.map fun p => ⟨p.1, valueSize, p.2⟩

/- `%assign/vec4/off/d`. -/
def ofAssignVec4OffD (valueSize : Nat) (flag4 : VvpBit4) (offset : Int)
    (val : List VvpBit4) : Option (Option VectorEvent) :=
  assignVec4Off valueSize flag4 offset val

/- `%assign/vec4/off/e`. -/
def ofAssignVec4OffE (valueSize : Nat) (flag4 : VvpBit4) (offset : Int)
    (val : List VvpBit4) : Option (Option VectorEvent) :=
  assignVec4Off valueSize flag4 offset val

/- `%cassign/vec4/off`. -/
def ofCassignVec4Off (sig : SignalVar) (flag4 : VvpBit4) (base : Int)
    (value : List VvpBit4) : Option SignalVar :=
  let valueSize := sig.bits4.length
  if flag4 = .one then some sig
  else if base < 0 ∧ value.length ≤ toUnsigned (-base) then
    some sig
  else if valueSize ≤ base then some sig
  else
    -- `resize` keeps the low bits.
    let value :=
      if base < 0 then
        value.take (value.length - toUnsigned (-base))
      else value
    let value := value.take (valueSize - base.toNat)
    sig.recvVec4PvAssign value base.toNat valueSize

----
-- Forces
----

/-
  Force a part of a net: bit by bit into a mask, which asserts
  that each is there, and the whole value into the vector.
-/
def forcePart (net : VvpNet) (base : Int)
    (value : List VvpBit4) : Option VvpNet := do
  let useSize := net.fil.bits4.length
  let wid :=
    if useSize < base + value.length then (useSize - base).toNat
    else value.length
  let maskBits := (List.range wid).map fun idx : Nat => toUnsigned (base + idx)
  if maskBits.any fun k => useSize ≤ k then none
  else
    let mask := (List.range useSize).map fun k => maskBits.contains k
    let tmp ← setVec net.fil.vec4Value (toUnsigned base) value
    net.forceVec4 tmp mask

/- `%force/vec4/off`. -/
def ofForceVec4Off (net : VvpNet) (flag4 : VvpBit4) (base : Int)
    (value : List VvpBit4) : Option VvpNet :=
  let useSize := net.fil.bits4.length
  if flag4 = .one then some net
  else if useSize ≤ base then some net
  else if base < -useSize then some net
  else forcePart net base value

/- A force that is to come. -/
structure ForceEvent where
  base : Nat
  vwid : Nat
  val : List VvpBit4
deriving DecidableEq

/- `force_vector4_event_s::run_run`. -/
def ForceEvent.run (e : ForceEvent) (net : VvpNet) : Option VvpNet :=
  let wid :=
    if e.vwid < toUnsigned (e.base + e.val.length) then
      toUnsigned (e.vwid - e.base)
    else e.val.length
  let maskBits := (List.range wid).map fun idx : Nat => toUnsigned (e.base + idx)
  if maskBits.any fun k => e.vwid ≤ k then none
  else do
    let mask := (List.range e.vwid).map fun k => maskBits.contains k
    let tmp ← setVec net.fil.vec4Value e.base e.val
    net.forceVec4 tmp mask

/- `%force/vec4/off/d`. -/
def ofForceVec4OffD (useSize : Nat) (flag4 : VvpBit4) (base : Int)
    (value : List VvpBit4) : Option ForceEvent :=
  if flag4 = .one then none
  else if useSize ≤ base then none
  else if base < -useSize then none
  else some ⟨toUnsigned base, useSize, value⟩

end EpicSim
