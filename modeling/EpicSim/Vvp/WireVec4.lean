import EpicSim.Lib.PartUpdate
import EpicSim.Vvp.Scalar

/-
  The filter of a four-state wire: the driven value, the
  force on top of it, and what of both goes to the fan-out.

  Vectors are lists of bits, lowest first.  None stands for
  a failed assertion of the source.
-/

----
-- Filters
----

namespace EpicSim

/- `prop_t`, with the replacement that goes with `REPL`. -/
inductive PropT where
| stop : PropT
| prop : PropT
| repl (rep : List VvpBit4) : PropT
deriving DecidableEq

/-
  `vvp_wire_vec4` and its part of `vvp_net_fil_t`.  A force
  mask or a forced value of size 0 is not there yet.
-/
structure VvpWireVec4 where
  bits4 : List VvpBit4
  needsInit : Bool
  force4 : List VvpBit4
  forceMask : List Bool
  forcePropagate : Bool
deriving DecidableEq

/- `value(idx)`: a bit beyond the vector is X. -/
def bitValue (bits : List VvpBit4) (idx : Nat) : VvpBit4 :=
  bits.getD idx .x

/- `subvalue`: the bits beyond the vector are X. -/
def subvalue (bits : List VvpBit4) (adr wid : Nat) : List VvpBit4 :=
  (List.range wid).map (fun idx => bitValue bits (adr + idx))

namespace VvpWireVec4

open PartUpdate

/- A new wire. -/
def create (wid : Nat) (init : VvpBit4) : VvpWireVec4 where
  bits4 := List.replicate wid init
  needsInit := true
  force4 := []
  forceMask := []
  forcePropagate := false

/- `test_force_mask`. -/
def testForceMask (w : VvpWireVec4) (bit : Nat) : Bool :=
  w.forceMask.getD bit false

/- `test_force_mask_is_zero`. -/
def testForceMaskIsZero (w : VvpWireVec4) : Bool :=
  w.forceMask.all (fun bit => !bit)

/- `filter_mask_` of a part that is placed at `base`. -/
def filterMask (w : VvpWireVec4) (val : List VvpBit4) (base : Nat) : Option (VvpWireVec4 × PropT) :=
  if w.testForceMaskIsZero then some (w, .prop)
  else if w.forceMask.length = w.force4.length ∧
      base + val.length ≤ w.forceMask.length then
    let filter := val.mapIdx (fun idx bit =>
      if w.testForceMask (base + idx) then
        bitValue w.force4 (base + idx)
      else bit)
    let propagateFlag := w.forcePropagate ||
      (List.range val.length).any (fun idx => !w.testForceMask (base + idx))
    some
      ({ w with forcePropagate := false },
        if propagateFlag then .repl filter else .stop)
  else none

/- Take the driven value, and filter what came in. -/
def drive (w : VvpWireVec4) (bits : List VvpBit4) (val : List VvpBit4)
    (base : Nat) : Option (VvpWireVec4 × PropT) :=
  if w.bits4 = bits ∧ w.needsInit = false then some (w, .stop)
  else
    filterMask { w with bits4 := bits, needsInit := false } val base

/- `filter_vec4`. -/
def filterVec4 (w : VvpWireVec4) (bit : List VvpBit4)
    (base vwid : Nat) : Option (VvpWireVec4 × PropT) :=
  -- A vector of no bits stands for one of X bits.
  if base = 0 ∧ vwid = 0 then
    let tmp := List.replicate w.bits4.length .x
    w.drive tmp tmp 0
  else if w.bits4.length ≠ vwid then none
  else if base = 0 ∧ bit.length = vwid then w.drive bit bit base
  else if base + bit.length ≤ w.bits4.length then
    w.drive (overwrite w.bits4 base bit) bit base
  else none

/- `force_mask`. -/
def setForceMask (w : VvpWireVec4) (mask : List Bool) : Option VvpWireVec4 :=
  let forceMask :=
    if w.forceMask.length = 0 then
      List.replicate mask.length false
    else w.forceMask
  if forceMask.length = mask.length then
    some { w with
      forceMask := forceMask.zipWith (fun old new => old || new) mask
      forcePropagate := w.forcePropagate || mask.any (fun bit => bit) }
  else none

/- `release_mask`. -/
def releaseMask (w : VvpWireVec4) (mask : List Bool) : Option VvpWireVec4 :=
  if w.forceMask.length = 0 then some w
  else if w.forceMask.length = mask.length then
    let forceMask := w.forceMask.zipWith (fun old new => old && !new) mask
    some { w with forceMask := if forceMask.all (fun bit => !bit) then [] else forceMask }
  else none

/- `force_fil_vec4`. -/
def forceFilVec4 (w : VvpWireVec4) (val : List VvpBit4)
    (mask : List Bool) : Option VvpWireVec4 := do
  let w' ← w.setForceMask mask
  if w'.force4.length = 0 then
    some { w' with force4 := val }
  else if (List.range mask.length).all (fun idx =>
      !mask.getD idx false || decide (idx < w'.force4.length)) then
    some { w' with
      force4 := w'.force4.mapIdx (fun idx bit =>
        if mask.getD idx false then bitValue val idx else bit) }
  else none

/- `filtered_value_` and `value`. -/
def value (w : VvpWireVec4) (idx : Nat) : VvpBit4 :=
  if w.testForceMask idx then bitValue w.force4 idx
  else bitValue w.bits4 idx

/- `vec4_value`. -/
def vec4Value (w : VvpWireVec4) : List VvpBit4 :=
  if w.testForceMaskIsZero then w.bits4
  else w.bits4.mapIdx (fun idx _ => w.value idx)

end VvpWireVec4

----
-- Nets
----

/-
  `vvp_net_t` with its filter, and the values that were sent
  to the fan-out, the last one at the end.
-/
structure VvpNet where
  fil : VvpWireVec4
  out : List (PartUpdate VvpBit4)
deriving DecidableEq

namespace VvpNet

/- What a filter lets through of a value. -/
def propagate (val : List VvpBit4) : PropT → Option (List VvpBit4)
| .stop => none
| .prop => some val
| .repl rep => some rep

/- `send_vec4`. -/
def sendVec4 (net : VvpNet)
    (val : List VvpBit4) : Option VvpNet := do
  let (fil, rc) ← net.fil.filterVec4 val 0 val.length
  return ⟨fil, net.out ++ ((propagate val rc).map PartUpdate.full).toList⟩

/- `send_vec4_pv`; `wid` is the size of the value. -/
def sendVec4Pv (net : VvpNet) (val : List VvpBit4)
    (base vwid : Nat) : Option VvpNet := do
  let (fil, rc) ← net.fil.filterVec4 val base vwid
  return ⟨fil, net.out ++ ((propagate val rc).map (PartUpdate.part base)).toList⟩

/- `force_vec4`. -/
def forceVec4 (net : VvpNet) (val : List VvpBit4)
    (mask : List Bool) : Option VvpNet := do
  let fil ← net.fil.forceFilVec4 val mask
  return ⟨fil, net.out ++ [PartUpdate.full val]⟩

/- `release` of a net. -/
def release (net : VvpNet) : Option VvpNet := do
  let mask := List.replicate net.fil.bits4.length true
  let fil ← net.fil.releaseMask mask
  sendVec4 { net with fil := { fil with needsInit := decide (fil.force4 ≠ fil.bits4) } } fil.bits4

/- `release_pv` of a net. -/
def releasePv (net : VvpNet) (base wid : Nat) : Option VvpNet :=
  if base + wid ≤ net.fil.bits4.length then do
    let mask := PartUpdate.overwrite
      (List.replicate net.fil.bits4.length false) base
      (List.replicate wid true)
    let fil ← net.fil.releaseMask mask
    sendVec4Pv
      { net with
        fil := { fil with
          needsInit := decide (subvalue fil.force4 base wid ≠ subvalue fil.bits4 base wid) } }
      (subvalue fil.bits4 base wid) base fil.bits4.length
  else none

end VvpNet

----
-- Runs
----

/- What is done to a net. -/
inductive WireOp where
| drive (bit : List VvpBit4) : WireOp
| drivePv (bit : List VvpBit4) (base : Nat) : WireOp
| force (val : List VvpBit4) (mask : List Bool) : WireOp
| release : WireOp
| releasePv (base wid : Nat) : WireOp

/- An operation at work. -/
def VvpNet.step (net : VvpNet) : WireOp → Option VvpNet
| .drive bit => net.sendVec4 bit
| .drivePv bit base => net.sendVec4Pv bit base net.fil.bits4.length
| .force val mask => net.forceVec4 val mask
| .release => net.release
| .releasePv base wid => net.releasePv base wid

/-
  Values and masks have the width of the net, parts lie in
  it, and a force leaves the bits it does not mask as they
  are.
-/
def WireOp.Allowed (fil : VvpWireVec4) : WireOp → Prop
| .drive bit => bit.length = fil.bits4.length
| .drivePv bit base => base + bit.length ≤ fil.bits4.length
| .force val mask =>
  val.length = fil.bits4.length ∧
  mask.length = fil.bits4.length ∧
  ∀ idx, idx < fil.bits4.length →
    mask.getD idx false = false →
    bitValue val idx = bitValue fil.vec4Value idx
| .release => True
| .releasePv base wid => base + wid ≤ fil.bits4.length

instance WireOp.decidableAllowed (fil : VvpWireVec4) (op : WireOp) : Decidable (op.Allowed fil) :=
  match op with
  | .drive _ => inferInstanceAs (Decidable (_ = _))
  | .drivePv _ _ => inferInstanceAs (Decidable (_ ≤ _))
  | .force _ _ => inferInstanceAs (Decidable (_ ∧ _ ∧ _))
  | .release => inferInstanceAs (Decidable True)
  | .releasePv _ _ => inferInstanceAs (Decidable (_ ≤ _))

/- The driven value after an operation. -/
def WireOp.driven (bits : List VvpBit4) : WireOp → List VvpBit4
| .drive bit => bit
| .drivePv bit base => PartUpdate.overwrite bits base bit
| .force _ _ => bits
| .release => bits
| .releasePv _ _ => bits

/- For every bit, the last one that was driven. -/
def lastDriven (wid : Nat) (init : VvpBit4) (ops : List WireOp) : List VvpBit4 :=
  ops.foldl WireOp.driven (List.replicate wid init)

/- A net reached from a new one by allowed operations. -/
inductive WireRun (wid : Nat) (init : VvpBit4) : List WireOp → VvpNet → Prop where
| start : WireRun wid init [] ⟨.create wid init, []⟩
| step {ops : List WireOp} {net net' : VvpNet} {op : WireOp} :
    WireRun wid init ops net →
    op.Allowed net.fil →
    net.step op = some net' →
    WireRun wid init (ops ++ [op]) net'

end EpicSim
