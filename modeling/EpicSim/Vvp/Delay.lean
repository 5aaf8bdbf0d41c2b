import EpicSim.Lib.WakeClock
import EpicSim.Vvp.WireVec4

/-
  Delayed nets and module paths.

  A delayed net keeps its pending outputs in a queue of its
  own, a module path keeps one pending value; both ask the
  scheduler for wake-ups.  Vectors are lists of bits, lowest
  first, and times wrap at 64 bits.
-/

namespace EpicSim

/- The value of a `vvp_time64_t`. -/
def time64 (t : Nat) : Nat := t % 2 ^ 64

----
-- Delays
----

/- `vvp_delay_t`. -/
structure VvpDelay where
  rise : Nat
  fall : Nat
  decay : Nat
  minDelay : Nat
deriving DecidableEq

namespace VvpDelay

/- The delays of a rise and a fall. -/
def ofTwo (rise fall : Nat) : VvpDelay :=
  let decay := if fall < rise then fall else rise
  ⟨rise, fall, decay, decay⟩

/- `get_delay`. -/
def getDelay (d : VvpDelay) : VvpBit4 → VvpBit4 → Nat
| .zero, .zero => 0
| .zero, .one => d.rise
| .zero, .x => d.minDelay
| .zero, .z => d.decay
| .one, .zero => d.fall
| .one, .one => 0
| .one, .x => d.minDelay
| .one, .z => d.decay
| .x, .zero => d.fall
| .x, .one => d.rise
| .x, .x => 0
| .x, .z => d.decay
| .z, .zero => d.fall
| .z, .one => d.rise
| .z, .x => d.minDelay
| .z, .z => 0

/- The maximum delay of the first bits, bit 0 at least. -/
def maxDelay (d : VvpDelay) (old new : Nat → VvpBit4) (wid : Nat) : Nat :=
  (List.range' 1 (wid - 1)).foldl
    (fun useDelay idx =>
      let tmp := d.getDelay (old idx) (new idx)
      if tmp > useDelay then tmp else useDelay)
    (d.getDelay (old 0) (new 0))

end VvpDelay

----
-- Delayed Nets
----

/- A pending output. -/
structure DelayEvent where
  simTime : Nat
  ptrVec4 : List VvpBit4
deriving DecidableEq

/-
  `vvp_fun_delay` as far as four-state vectors go.  The first
  entry of the list is `list_->next`, the last is `list_`.
-/
structure VvpFunDelay where
  delay : VvpDelay
  initial : Bool
  curVec4 : List VvpBit4
  list : List DelayEvent
deriving DecidableEq

namespace VvpFunDelay

/- A new functor. -/
def create (width : Nat) (delay : VvpDelay) : VvpFunDelay where
  delay := delay
  initial := true
  curVec4 := List.replicate width .x
  list := []

/-
  The delay of a new value.  It is counted from the current
  output, or from the output that is due now; the first value
  is compared with bit 0 in all its bits.
-/
def useDelay (d : VvpFunDelay) (now : Nat) (bit : List VvpBit4) : Nat :=
  if d.initial then
    d.delay.maxDelay (fun _ => bitValue d.curVec4 0) (bitValue bit) bit.length
  else
    let useVec4 := match d.list with
      | [] => d.curVec4
      | head :: _ => if head.simTime = now then head.ptrVec4 else d.curVec4
    d.delay.maxDelay (bitValue useVec4) (bitValue bit)
      (if bit.length < useVec4.length then bit.length
        else useVec4.length)

/- `clean_pulse_events_`: drop what is still to come. -/
def cleanPulseEvents (now useDelay : Nat) : List DelayEvent → List DelayEvent
| [] => []
| cur :: rest =>
  if time64 (cur.simTime + useDelay) ≤ time64 (useDelay + now)
  then cur :: rest
  else cleanPulseEvents now useDelay rest

/- The new value is that of the first pending output. -/
def skips (d : VvpFunDelay) (bit : List VvpBit4) : Bool :=
  match d.list with
  | [] => false
  | head :: _ => decide (head.ptrVec4 = bit)

/-
  `recv_vec4` on port 0: the functor, the value that is sent
  and the delay of the wake-up that is requested.
-/
def recvVec4 (d : VvpFunDelay) (now : Nat) (bit : List VvpBit4) :
    VvpFunDelay × Option (List VvpBit4) × Option Nat :=
  let useDelay := d.useDelay now bit
  if d.skips bit then (d, none, none)
  else
    let list := cleanPulseEvents now useDelay d.list
    if useDelay = 0 ∧ list = [] then
      ({ d with curVec4 := bit, initial := false, list := list }, some bit, none)
    else
      ({ d with
          list := list ++ [⟨time64 (now + useDelay), bit⟩] },
        none, some useDelay)

/- `run_run`. -/
def runRun (d : VvpFunDelay) (now : Nat) : VvpFunDelay × Option (List VvpBit4) :=
  match d.list with
  | [] => (d, none)
  | cur :: rest =>
    if cur.simTime > now then (d, none)
    else
      ({ d with
          curVec4 := cur.ptrVec4, initial := false, list := rest },
        some cur.ptrVec4)

end VvpFunDelay

----
-- Module Paths
----

/- `edge`: 1 for a positive edge, -1 for a negative one. -/
def edgeOf : VvpBit4 → VvpBit4 → Int
| .zero, .one => 1
| .zero, .x => 1
| .zero, .z => 1
| .x, .one => 1
| .z, .one => 1
| .one, .zero => -1
| .one, .x => -1
| .one, .z => -1
| .x, .zero => -1
| .z, .zero => -1
| _, _ => 0

/- What `vvp_fun_modpath_edge` adds to a source. -/
structure ModpathEdge where
  oldValue : VvpBit4
  posedge : Bool
  negedge : Bool
deriving DecidableEq

/- `vvp_fun_modpath_src`, edge sensitive or not. -/
structure VvpFunModpathSrc where
  delay : Fin 12 → Nat
  wakeTime : Nat
  conditionFlag : Bool
  edge : Option ModpathEdge
deriving DecidableEq

namespace VvpFunModpathSrc

/- A new source. -/
def create (delay : Fin 12 → Nat) (edge : Option (Bool × Bool)) : VvpFunModpathSrc where
  delay := delay
  wakeTime := 0
  conditionFlag := true
  edge := edge.map (fun sides => ⟨.x, sides.1, sides.2⟩)

/- `test_vec4`, and what it keeps of the value. -/
def testVec4 (src : VvpFunModpathSrc) (bit : List VvpBit4) : VvpFunModpathSrc × Bool :=
  match src.edge with
  | none => (src, true)
  | some e =>
    let new := bitValue bit 0
    let edgeFlag := edgeOf e.oldValue new
    ({ src with edge := some { e with oldValue := new } },
      if edgeFlag > 0 then e.posedge
      else if edgeFlag < 0 then e.negedge
      else false)

/- `recv_vec4`: the input of the path, or its condition. -/
def recvVec4 (src : VvpFunModpathSrc) (now port : Nat) (bit : List VvpBit4) : VvpFunModpathSrc :=
  if port = 0 then
    let (src', awake) := src.testVec4 bit
    if awake then { src' with wakeTime := now } else src'
  else if port = 1 then
    { src with conditionFlag := decide (bitValue bit 0 = .one) }
  else src

/- One of the twelve output times, counted from now. -/
def outAt (src : VvpFunModpathSrc) (now : Nat) (idx : Fin 12) : Nat :=
  let tmp := time64 (src.wakeTime + src.delay idx)
  if tmp ≤ now then 0 else tmp - now

end VvpFunModpathSrc

/- `vvp_fun_modpath`. -/
structure VvpFunModpath where
  curVec4 : List VvpBit4
  srcList : List VvpFunModpathSrc
  ifnoneList : List VvpFunModpathSrc
deriving DecidableEq

/- `delay_from_edge`: the entry for a change. -/
def edgeTable : VvpBit4 → VvpBit4 → Fin 12
| .zero, .zero => 0
| .zero, .one => 0
| .zero, .z => 2
| .zero, .x => 6
| .one, .zero => 1
| .one, .one => 1
| .one, .z => 4
| .one, .x => 8
| .z, .zero => 5
| .z, .one => 3
| .z, .z => 5
| .z, .x => 11
| .x, .zero => 9
| .x, .one => 7
| .x, .z => 10
| .x, .x => 9

namespace VvpFunModpath

/- A source is added to the candidates, or replaces them. -/
def addCandidate (acc : List VvpFunModpathSrc × Nat)
    (cur : VvpFunModpathSrc) : List VvpFunModpathSrc × Nat :=
  if cur.conditionFlag = false then acc
  else if acc.1 = [] then ([cur], cur.wakeTime)
  else if cur.wakeTime = acc.2 then (acc.1 ++ [cur], acc.2)
  else if cur.wakeTime > acc.2 then ([cur], cur.wakeTime)
  else acc

/- The same for an ifnone source. -/
def addIfnone (candidateWakeTime : Nat) (acc : List VvpFunModpathSrc × Nat)
    (cur : VvpFunModpathSrc) : List VvpFunModpathSrc × Nat :=
  if acc.1 = [] then ([cur], cur.wakeTime)
  else if cur.wakeTime = acc.2 ∧ acc.2 > candidateWakeTime then
    (acc.1 ++ [cur], acc.2)
  else if cur.wakeTime > acc.2 then ([cur], cur.wakeTime)
  else acc

/- The sources that apply now. -/
def candidates (f : VvpFunModpath) : List VvpFunModpathSrc :=
  let acc := f.srcList.foldl addCandidate ([], 0)
  (f.ifnoneList.foldl (addIfnone acc.2) acc).1

/- The minimum of the output times of the candidates. -/
def minOutAt (now : Nat) (src : VvpFunModpathSrc) (rest : List VvpFunModpathSrc)
    (idx : Fin 12) : Nat :=
  rest.foldl
    (fun acc cur =>
      let tmp := cur.outAt now idx
      if tmp < acc then tmp else acc)
    (src.outAt now idx)

/- The delay of a new value, 0 without a path that applies. -/
def selectDelay (f : VvpFunModpath) (now : Nat) (bit : List VvpBit4) : Nat :=
  match f.candidates with
  | [] => 0
  | src :: rest => minOutAt now src rest (edgeTable (bitValue f.curVec4 0) (bitValue bit 0))

/- `assert(tmp == use_delay)` for the bits above bit 0. -/
def sameDelay (f : VvpFunModpath) (now : Nat) (bit : List VvpBit4) : Bool :=
  match f.candidates with
  | [] => true
  | src :: rest =>
    (List.range bit.length).all (fun idx =>
      decide (idx = 0) ||
      decide (bitValue f.curVec4 idx = bitValue bit idx) ||
      decide
        (minOutAt now src rest (edgeTable (bitValue f.curVec4 idx) (bitValue bit idx)) =
          f.selectDelay now bit))

/-
  `recv_vec4` on port 0: the functor and the delay of the
  wake-up that is requested.
-/
def recvVec4 (f : VvpFunModpath) (now : Nat)
    (bit : List VvpBit4) : Option (VvpFunModpath × Option Nat) :=
  if f.curVec4 = bit then some (f, none)
  else if f.sameDelay now bit then
    some ({ f with curVec4 := bit }, some (f.selectDelay now bit))
  else none

end VvpFunModpath

end EpicSim
