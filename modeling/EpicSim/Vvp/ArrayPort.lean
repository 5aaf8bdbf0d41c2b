import EpicSim.Vvp.PartWrite

/-
  The read ports of an array of variables, and the procedural
  reads and writes of its words.
-/

namespace EpicSim

----
-- Ports
----

/- What a port sends: at first it may be the real number 0. -/
inductive PortValue where
| vec4 (val : List VvpBit4)
| realZero
deriving DecidableEq

/- The last value a port has sent: that of its event on the
   init list, or a word. -/
inductive PortSent where
| nothing
| initial (val : PortValue)
| word (val : List VvpBit4)
deriving DecidableEq

def PortSent.value : PortSent → Option PortValue
| .nothing => none
| .initial val => some val
| .word val => some (.vec4 val)

/- Where the address of a port comes from. -/
inductive AddressInput where
| unset
| const (addr : Int)
| vec4 (bit : List VvpBit4)
deriving DecidableEq

/-
  `vvp_fun_arrayport_sa`, with the value of its event on the
  init list, the last value it sent and what its address came
  from.
-/
structure ArrayPort where
  addr : Nat
  pending : Option PortValue
  sent : PortSent
  input : AddressInput
deriving DecidableEq

/- A new array. -/
def VvpArray.create (valsWidth arrayCount : Nat) (twoState : Bool) : VvpArray where
  valsWidth := valsWidth
  twoState := twoState
  words := List.replicate arrayCount (List.replicate valsWidth (if twoState then .zero else .x))

namespace ArrayPort

/-
  The loop of `vector4_to_value` over a list of bits, with a
  number of 64 bits, behind which the mask gets lost.
-/
def vector4ToValueLoop : List VvpBit4 → Nat → Nat → Bool → Option (Bool × Nat)
| [], res, _, overflowFlag => some (overflowFlag, res)
| .zero :: vec, res, msk, overflowFlag => vector4ToValueLoop vec res (2 * msk % 2 ^ 64) overflowFlag
| .one :: vec, res, msk, overflowFlag =>
  if msk = 0 then
    vector4ToValueLoop vec res (2 * msk % 2 ^ 64) true
  else
    vector4ToValueLoop vec (res ||| msk) (2 * msk % 2 ^ 64) overflowFlag
| _ :: _, _, _, _ => none

/- `vector4_to_value`, which does not pass the overflow on. -/
def vector4ToValue (vec : List VvpBit4) : Option Nat :=
  (vector4ToValueLoop vec 0 1 false).map Prod.snd

/-
  A new port.  `array_attach_port` appends its initial value
  to the init list: X, or 0.0 for an array of two states.
-/
def create (arr : VvpArray) (input : AddressInput) : ArrayPort where
  addr :=
    match input with
    | .const addr => (addr % 2 ^ 64).toNat
    | _ => 0
  pending := some
    (if arr.twoState then .realZero
      else .vec4 (List.replicate arr.valsWidth .x))
  sent := .nothing
  input := input

/- The event on the init list. -/
def initPropagate (port : ArrayPort) : ArrayPort :=
  match port.pending with
  | none => port
  | some val => { port with pending := none, sent := .initial val }

/- `recv_vec4`: a new address. -/
def recvVec4 (port : ArrayPort) (arr : VvpArray) (bit : List VvpBit4) : ArrayPort :=
  let addr :=
    match vector4ToValue bit with
    | some val => val
    | none => arr.words.length
  { port with
    addr := addr
    sent := .word (arr.getWord (toUnsigned addr))
    input := .vec4 bit }

/- `check_word_change`. -/
def checkWordChange (arr : VvpArray) (addr : Nat) (port : ArrayPort) : ArrayPort :=
  if addr ≠ port.addr then port
  else
    { port with sent := .word (arr.getWord (toUnsigned port.addr)) }

end ArrayPort

----
-- Arrays with Ports
----

structure ArrayNet where
  arr : VvpArray
  ports : List ArrayPort
deriving DecidableEq

/- What is done to an array and its ports. -/
inductive ArrayOp where
| initPropagate (port : Nat)
| recvVec4 (port : Nat) (bit : List VvpBit4)
| setWord (address partOff : Nat) (val : List VvpBit4)
| storeVec4A
    (flag4 : VvpBit4) (adr offset : Int) (value : List VvpBit4)

namespace ArrayNet

/- An array with its ports, before anything happens. -/
def create (valsWidth arrayCount : Nat) (twoState : Bool) (inputs : List AddressInput) : ArrayNet :=
  let arr := VvpArray.create valsWidth arrayCount twoState
  ⟨arr, inputs.map (ArrayPort.create arr)⟩

/- `word_change`, which `set_word` ends with. -/
def wordChange (net : ArrayNet) (addr : Nat) : ArrayNet :=
  { net with ports := net.ports.map (ArrayPort.checkWordChange net.arr addr) }

/- `set_word`. -/
def setWord (net : ArrayNet) (address partOff : Nat) (val : List VvpBit4) : Option ArrayNet :=
  if net.arr.words.length ≤ address then some net
  else do
    let arr ← net.arr.setWord address partOff val
    some (wordChange { net with arr := arr } address)

/- `%store/vec4a` on an array with ports. -/
def storeVec4A (net : ArrayNet) (flag4 : VvpBit4) (adr offset : Int)
    (value : List VvpBit4) : Option ArrayNet := do
  let arr ← ofStoreVec4A net.arr flag4 adr offset value
  if flag4 = .one ∨ net.arr.words.length ≤ toUnsigned adr then
    some net
  else some (wordChange { net with arr := arr } (toUnsigned adr))

/- `%load/vec4a`. -/
def loadVec4A (net : ArrayNet) (flag4 : VvpBit4) (adr : Int) : List VvpBit4 :=
  if flag4 = .one then List.replicate net.arr.valsWidth .x
  else net.arr.getWord (toUnsigned adr)

def step (net : ArrayNet) : ArrayOp → Option ArrayNet
| .initPropagate port => some { net with ports := net.ports.modify port ArrayPort.initPropagate }
| .recvVec4 port bit =>
  some { net with ports := net.ports.modify port fun p => p.recvVec4 net.arr bit }
| .setWord address partOff val => net.setWord address partOff val
| .storeVec4A flag4 adr offset value => net.storeVec4A flag4 adr offset value

end ArrayNet

end EpicSim
