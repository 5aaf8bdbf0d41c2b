import EpicSim.Vvp.Island

/-
  Running a tran island.
-/

----
-- Ports
----

namespace EpicSim

/-
  What an island port carries between runs: the values from
  and to the outside and the force filter of its net.
-/
structure IslandPort where
  invalue : VvpVector8
  outvalue : VvpVector8
  forceMask : List Bool
  force : VvpVector8
deriving DecidableEq, Repr

/- `filter_input_vec8`: forced bits replace the input bits. -/
def IslandPort.filterInput (port : IslandPort) : VvpVector8 :=
  (List.range port.invalue.size).map (fun idx =>
    if port.forceMask.getD idx false then port.force.value idx
    else port.invalue.value idx)

/- `island_get_value`: the input, after the force filter. -/
def islandGetValue (port : IslandPort) : VvpVector8 :=
  if port.forceMask.any id then port.filterInput
  else port.invalue

/- The ports of an island. -/
abbrev IslandPorts := Nat → IslandPort

/- The values collected at the ports during a run. -/
abbrev IslandValues := Nat → VvpVector8

----
-- Branches
----

namespace TranBranch

/-
  The enable value: the value sent by the enable port when
  there is one, else its input.
-/
def enableVal (port : IslandPort) : VvpBit4 :=
  if port.outvalue.size ≠ 0 then (port.outvalue.value 0).value
  else if port.invalue.size = 0 then .z
  else (port.invalue.value 0).value

/- `run_test_enabled`: the state to cache. -/
def testEnabled (br : TranBranch) (ports : IslandPorts) : TranState :=
  match br.en with
  | none => .enabled
  | some ep =>
    match enableVal (ports ep) with
    | .zero => if br.activeHigh then .disabled else .enabled
    | .one => if br.activeHigh then .enabled else .disabled
    | _ => .unknown

def runTestEnabled (br : TranBranch) (ports : IslandPorts) : TranBranch :=
  { br with state := br.testEnabled ports }

/-
  What `resolve_ambiguous` makes of a passed bit: reduced
  strengths, and a bit that is only maybe there.
-/
def passBit (br : TranBranch) (bit : VvpScalar) : VvpScalar :=
  let strMap := vvpSwitchStrengthMap br.resistive
  let bBit := VvpScalar.ofBit bit.value
    (strMap bit.strength0) (strMap bit.strength1)
  if br.state = .unknown then
    match bBit.value with
    | .zero => VvpScalar.ofBit .x bBit.strength0 0
    | .one => VvpScalar.ofBit .x 0 bBit.strength1
    | _ => bBit
  else bBit

/- The value a branch passes on from the side `srcAb`. -/
def passValue (br : TranBranch) (srcAb : Bool) (val : VvpVector8) : VvpVector8 :=
  if br.width = 0 then val.map br.passBit
  else if srcAb then
    VvpVector8.partExpand val br.width br.offset
  else VvpVector8.subvalue val br.offset br.part

end TranBranch

----
-- Resolution
----

namespace VvpIsland

/-
  `push_value_through_branch`.  The pushed value is read from
  the source port at the time of the push: the source passes
  it by reference.  `none` stands for a push that did not end
  within the fuel, or a failed assertion on the sizes.
-/
def pushValueThroughBranch (isl : VvpIsland) (ports : IslandPorts) :
    Nat → IslandValues → BranchPtr → Option IslandValues
| 0, _, _ => none
| fuel + 1, value, cur =>
  match isl.branches[cur.ptr]? with
  | none => none
  | some br =>
    if br.state = .disabled then some value
    else
      let src := br.net cur.port
      let dst := br.net (!cur.port)
      let oldVal := value dst
      let start :=
        if oldVal.size = 0 then islandGetValue (ports dst)
        else oldVal
      if start.size = 0 then some value
      else
        let passed := br.passValue cur.port (value src)
        if start.size ≠ passed.size then none
        else
          let merged := VvpVector8.resolve start passed
          if merged = oldVal then some value
          else
            match isl.collectNode cur.other with
            | none => none
            | some connections =>
              connections.foldlM
                (pushValueThroughBranch isl ports fuel)
                (Function.update value dst merged)

/-
  One side of `run_resolution`: a port not visited yet pushes
  its input through all branches connected to it.
-/
def resolveSide (isl : VvpIsland) (ports : IslandPorts) (fuel : Nat) (value : IslandValues)
    (side : BranchPtr) : Option IslandValues :=
  match isl.net side with
  | none => none
  | some port =>
    if (value port).size = 0 then
      match isl.collectNode side with
      | none => none
      | some connections =>
        let input := islandGetValue (ports port)
        if input.size ≠ 0 then
          connections.foldlM
            (isl.pushValueThroughBranch ports fuel)
            (Function.update value port input)
        else some value
    else some value

/- The sides in the order `run_resolution` takes them. -/
def sides (isl : VvpIsland) : List BranchPtr :=
  (List.range isl.branches.length).reverse.flatMap (fun ptr => [⟨ptr, false⟩, ⟨ptr, true⟩])

/-
  `run_resolution` for all branches, the one added last
  first.
-/
def resolveIsland (isl : VvpIsland) (ports : IslandPorts) (fuel : Nat)
    (value : IslandValues) : Option IslandValues :=
  isl.sides.foldlM (isl.resolveSide ports fuel) value

/- `run_test_enabled` for all branches. -/
def testEnabled (isl : VvpIsland) (ports : IslandPorts) : VvpIsland :=
  { isl with branches := isl.branches.map (fun br => br.runTestEnabled ports) }

/- `island_send_value`: an unchanged value is not sent. -/
def sendValue (ports : IslandPorts) (port : Nat) (val : VvpVector8) :
    IslandPorts × List (Nat × VvpVector8) :=
  if (ports port).outvalue = val then (ports, [])
  else
    (Function.update ports port { ports port with outvalue := val }, [(port, val)])

/- One side of `run_output`: send the value and forget it. -/
def outputSide (isl : VvpIsland) (s : IslandPorts × IslandValues × List (Nat × VvpVector8))
    (side : BranchPtr) : IslandPorts × IslandValues × List (Nat × VvpVector8) :=
  match isl.net side with
  | none => s
  | some port =>
    if (s.2.1 port).size ≠ 0 then
      let sent := sendValue s.1 port (s.2.1 port)
      (sent.1, Function.update s.2.1 port VvpVector8.nil, s.2.2 ++ sent.2)
    else s

/-
  `run_island`: test the enables, resolve all branches, send
  the outputs.  The result holds the island with its cached
  states, the ports, the values left and the vectors sent.
-/
def runIsland (isl : VvpIsland) (fuel : Nat) (ports : IslandPorts) (value : IslandValues) :
    Option (VvpIsland × IslandPorts × IslandValues × List (Nat × VvpVector8)) :=
  let isl := isl.testEnabled ports
  match isl.resolveIsland ports fuel value with
  | none => none
  | some value => some (isl, isl.sides.foldl isl.outputSide (ports, value, []))

end VvpIsland

end EpicSim
