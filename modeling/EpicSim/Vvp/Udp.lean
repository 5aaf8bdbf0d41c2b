import EpicSim.Vvp.Scalar
import Mathlib.Data.List.GetD

/-
  Sequential user-defined primitives: rows of characters are
  compiled into bit masks, and the masks are searched for the
  next output.

  None stands for a failed assertion of the source.  The int
  `1` is shifted as the processor does it, by the count modulo
  32; the language says nothing of counts from 32 on.
-/

----
-- Tables
----

namespace EpicSim

/- `udp_levels_table`. -/
structure UdpLevelsTable where
  mask0 : BitVec 64
  mask1 : BitVec 64
  maskx : BitVec 64
deriving DecidableEq

/- `udp_edges_table`. -/
structure UdpEdgesTable where
  edge_position : BitVec 8
  edge_mask0 : Bool
  edge_mask1 : Bool
  edge_maskx : Bool
  mask0 : BitVec 64
  mask1 : BitVec 64
  maskx : BitVec 64
deriving DecidableEq

/- A table row before any of its positions is read. -/
def UdpLevelsTable.empty : UdpLevelsTable := ⟨0#64, 0#64, 0#64⟩

def UdpEdgesTable.empty : UdpEdgesTable :=
  ⟨0#8, false, false, false, 0#64, 0#64, 0#64⟩

/-
  What a character sets at its position: bits of the three
  masks, and the masks of the edge if it is one.
-/
structure UdpCode where
  mask0 : Bool
  maskx : Bool
  mask1 : Bool
  edge : Option (Bool × Bool × Bool)

namespace UdpCode

/- A level. -/
def level (mask0 maskx mask1 : Bool) : UdpCode :=
  ⟨mask0, maskx, mask1, none⟩

/- The level after an edge, and the levels before it. -/
def change (mask0 maskx mask1 edge_mask0 edge_maskx edge_mask1 : Bool) : UdpCode :=
  ⟨mask0, maskx, mask1, some (edge_mask0, edge_maskx, edge_mask1)⟩

/- The characters that both kinds of rows share. -/
def ofLevel : Char → Option UdpCode
| '0' => some (level true false false)
| '1' => some (level false false true)
| 'x' => some (level false true false)
| 'b' => some (level true false true)
| 'l' => some (level true true false)
| 'h' => some (level false true true)
| '?' => some (level true true true)
| _ => none

/- The characters of edges. -/
def ofEdge : Char → Option UdpCode
| 'B' => some (change true false true false true false)
| 'f' => some (change true false false false false true)
| 'F' => some (change true false false false true false)
| 'M' => some (change false true false false false true)
| 'N' => some (change true true false false false true)
| 'P' => some (change false true true true false false)
| 'q' => some (change false true false true false true)
| 'Q' => some (change false true false true false false)
| 'r' => some (change false false true true false false)
| 'R' => some (change false false true false true false)
| '%' => some (change false true false true false true)
| '+' => some (change false false true true true false)
| '_' => some (change true false false false true true)
| _ => none

end UdpCode

/- `mask |= mask_bit`, if the position has the bit. -/
def orMask (mask mask_bit : BitVec 64) (flag : Bool) : BitVec 64 :=
  if flag then mask ||| mask_bit else mask

/- `or_based_on_char`. -/
def orBasedOnChar (cur : UdpLevelsTable) (flag : Char)
    (mask_bit : BitVec 64) : Option UdpLevelsTable :=
  (UdpCode.ofLevel flag).map (fun code =>
    { mask0 := orMask cur.mask0 mask_bit code.mask0
      mask1 := orMask cur.mask1 mask_bit code.mask1
      maskx := orMask cur.maskx mask_bit code.maskx })

/- `1 << pos`, an int that becomes an unsigned long. -/
def intShift (pos : Nat) : BitVec 64 :=
  (1#32 <<< (pos % 32)).signExtend 64

/- `edge_based_on_char`. -/
def edgeBasedOnChar (cur : UdpEdgesTable) (chr : Char)
    (pos : Nat) : Option UdpEdgesTable := do
  let mask_bit := intShift pos
  let code ← (UdpCode.ofLevel chr).or (UdpCode.ofEdge chr)
  let cur :=
    { cur with
      mask0 := orMask cur.mask0 mask_bit code.mask0
      mask1 := orMask cur.mask1 mask_bit code.mask1
      maskx := orMask cur.maskx mask_bit code.maskx }
  match code.edge with
  | none => some cur
  | some (edge_mask0, edge_maskx, edge_mask1) =>
    some { cur with
      edge_position := BitVec.ofNat 8 pos
      edge_mask0 := edge_mask0
      edge_maskx := edge_maskx
      edge_mask1 := edge_mask1 }

/- `strspn`. -/
def strspn (row accept : List Char) : Nat :=
  (row.takeWhile (fun c => accept.contains c)).length

/- The characters that `compile_table` takes for levels. -/
def levelChars : List Char := ['0', '1', 'x', 'b', 'l', 'h', '?']

----
-- Compilation
----

/- `vvp_udp_seq_s`: the inputs and the seven tables. -/
structure VvpUdpSeq where
  port_count : Nat
  levels0 : List UdpLevelsTable
  levels1 : List UdpLevelsTable
  levelsx : List UdpLevelsTable
  levelsL : List UdpLevelsTable
  edges0 : List UdpEdgesTable
  edges1 : List UdpEdgesTable
  edgesL : List UdpEdgesTable
deriving DecidableEq

namespace VvpUdpSeq

/- A primitive without rows. -/
def new (port_count : Nat) : VvpUdpSeq :=
  ⟨port_count, [], [], [], [], [], [], []⟩

/- Character of a row; the end of a string reads as zero. -/
def charAt (row : List Char) (idx : Nat) : Char :=
  row.getD idx '\x00'

/- A row that has levels only. -/
def levelsOnly (port_count : Nat) (row : List Char) : Bool :=
  decide (port_count + 1 ≤ strspn row levelChars)

/- A row of levels; the current output has the last place. -/
def levelRow (port_count : Nat)
    (row : List Char) : Option UdpLevelsTable := do
  let cur ← (List.range port_count).foldlM (fun cur pp =>
    orBasedOnChar cur (charAt row (pp + 1)) (1#64 <<< pp)) .empty
  orBasedOnChar cur (charAt row 0) (1#64 <<< port_count)

/- The entries that a row with an edge expands to. -/
structure EdgeRow where
  cur : UdpEdgesTable
  need_ext0_table : Bool
  ext0 : UdpEdgesTable
  need_ext1_table : Bool
  ext1 : UdpEdgesTable

/- One position of a row with an edge. -/
def EdgeRow.step (st : EdgeRow) (chr : Char) (pp : Nat) : Option EdgeRow :=
  match chr with
  | 'n' => do
      let cur ← edgeBasedOnChar st.cur 'N' pp
      let ext0 ← edgeBasedOnChar st.ext0 '_' pp
      some { st with cur := cur, ext0 := ext0, need_ext0_table := true }
  | 'p' => do
      let cur ← edgeBasedOnChar st.cur 'P' pp
      let ext0 ← edgeBasedOnChar st.ext0 '+' pp
      some { st with cur := cur, ext0 := ext0, need_ext0_table := true }
  | '*' => do
      let cur ← edgeBasedOnChar st.cur 'P' pp
      let ext0 ← edgeBasedOnChar st.ext0 'N' pp
      let ext1 ← edgeBasedOnChar st.ext1 'B' pp
      some
        { cur := cur
          need_ext0_table := true
          ext0 := ext0
          need_ext1_table := true
          ext1 := ext1 }
  | chr => do
      let cur ← edgeBasedOnChar st.cur chr pp
      let ext0 ← edgeBasedOnChar st.ext0 chr pp
      let ext1 ← edgeBasedOnChar st.ext1 chr pp
      some { st with cur := cur, ext0 := ext0, ext1 := ext1 }

def edgeRow (port_count : Nat)
    (row : List Char) : Option EdgeRow := do
  let st ← (List.range port_count).foldlM (fun (st : EdgeRow) pp =>
    st.step (charAt row (pp + 1)) pp)
    ⟨.empty, false, .empty, false, .empty⟩
  let cur ← edgeBasedOnChar st.cur (charAt row 0) port_count
  let ext0 ← edgeBasedOnChar st.ext0 (charAt row 0) port_count
  let ext1 ← edgeBasedOnChar st.ext1 (charAt row 0) port_count
  some { st with cur := cur, ext0 := ext0, ext1 := ext1 }

/- The entries in the order they are stored. -/
def EdgeRow.entries (st : EdgeRow) : List UdpEdgesTable :=
  st.cur :: (if st.need_ext0_table then [st.ext0] else []) ++
    (if st.need_ext1_table then [st.ext1] else [])

/- Compiles one row into the table of its output. -/
def addRow (u : VvpUdpSeq) (row : List Char) : Option VvpUdpSeq :=
  if levelsOnly u.port_count row then do
    let cur ← levelRow u.port_count row
    match charAt row (u.port_count + 1) with
    | '0' => some { u with levels0 := u.levels0 ++ [cur] }
    | '1' => some { u with levels1 := u.levels1 ++ [cur] }
    | 'x' => some { u with levelsx := u.levelsx ++ [cur] }
    | '-' => some { u with levelsL := u.levelsL ++ [cur] }
    | _ => none
  else do
    let st ← edgeRow u.port_count row
    match charAt row (u.port_count + 1) with
    | '0' => some { u with edges0 := u.edges0 ++ st.entries }
    | '1' => some { u with edges1 := u.edges1 ++ st.entries }
    | 'x' => some u
    | '-' => some { u with edgesL := u.edgesL ++ st.entries }
    | _ => none

/-
  The first pass: how many entries the edge tables get.  The
  level tables get one for each row in both passes.
-/
structure EdgeCounts where
  nedges0 : Nat
  nedges1 : Nat
  nedgesL : Nat
deriving DecidableEq

def extra (row : List Char) : Nat :=
  if row.contains '*' then 2
  else if row.contains 'p' then 1
  else if row.contains 'n' then 1
  else 0

def countRow (port_count : Nat) (counts : EdgeCounts) (row : List Char) : Option EdgeCounts :=
  if row.length ≠ port_count + 2 then none
  else if levelsOnly port_count row then
    match charAt row (port_count + 1) with
    | '0' | '1' | 'x' | '-' => some counts
    | _ => none
  else
    match charAt row (port_count + 1) with
    | '0' => some { counts with nedges0 := counts.nedges0 + (1 + extra row) }
    | '1' => some { counts with nedges1 := counts.nedges1 + (1 + extra row) }
    | 'x' => some counts
    | '-' => some { counts with nedgesL := counts.nedgesL + (1 + extra row) }
    | _ => none

/- `compile_table`. -/
def compileTable (port_count : Nat)
    (tab : List (List Char)) : Option VvpUdpSeq := do
  let counts ← tab.foldlM (countRow port_count) ⟨0, 0, 0⟩
  let u ← tab.foldlM addRow (new port_count)
  if u.edges0.length = counts.nedges0 ∧
      u.edges1.length = counts.nedges1 ∧
      u.edgesL.length = counts.nedgesL then
    some u
  else none

end VvpUdpSeq

----
-- The Next Output
----

/- Each level of the inputs is one that the row has. -/
def UdpLevelsTable.within (cur : UdpLevelsTable) (mask0 mask1 maskx : BitVec 64) : Bool :=
  cur.mask0 == cur.mask0 &&& mask0 &&
    cur.mask1 == cur.mask1 &&& mask1 &&
    cur.maskx == cur.maskx &&& maskx

namespace VvpUdpSeq

/- The current output, read from the place past the inputs. -/
def currentOutput (u : VvpUdpSeq)
    (cur : UdpLevelsTable) : Option VvpBit4 :=
  let bit := intShift u.port_count
  if cur.mask0 &&& bit ≠ 0#64 then some .zero
  else if cur.mask1 &&& bit ≠ 0#64 then some .one
  else if cur.maskx &&& bit ≠ 0#64 then some .x
  else none

/- `test_levels_`: the next output, or Z without a match. -/
def testLevels (u : VvpUdpSeq) (cur : UdpLevelsTable) : Option VvpBit4 :=
  let hit (row : UdpLevelsTable) : Bool := cur.within row.mask0 row.mask1 row.maskx
  if u.levels0.any hit then some .zero
  else if u.levels1.any hit then some .one
  else if u.levelsx.any hit then some .x
  else if u.levelsL.any hit then u.currentOutput cur
  else some .z

/- Counts the zeros below the lowest one. -/
def lowestBit : Nat → BitVec 64 → Nat → BitVec 64 × Nat
| 0, edge_mask, edge_position => (edge_mask, edge_position)
| n + 1, edge_mask, edge_position =>
  if edge_mask &&& 1#64 = 0#64 then
    lowestBit n (edge_mask >>> 1) (edge_position + 1)
  else (edge_mask, edge_position)

/- An entry of an edge table fits the inputs and the edge. -/
def edgeHit (cur prev : UdpLevelsTable) (edge_position : Nat) (row : UdpEdgesTable) : Bool :=
  let edge_mask := 1#64 <<< edge_position
  row.edge_position.toNat == edge_position &&
    (prev.mask0 &&& edge_mask == 0#64 || row.edge_mask0) &&
    (prev.maskx &&& edge_mask == 0#64 || row.edge_maskx) &&
    (prev.mask1 &&& edge_mask == 0#64 || row.edge_mask1) &&
    cur.within row.mask0 row.mask1 row.maskx

/- `test_edges_`. -/
def testEdges (u : VvpUdpSeq) (cur prev : UdpLevelsTable) : Option VvpBit4 :=
  let edge_mask :=
    ((cur.mask0 ^^^ prev.mask0) ||| (cur.maskx ^^^ prev.maskx) |||
      (cur.mask1 ^^^ prev.mask1)) &&&
      ~~~(BitVec.allOnes 64 <<< u.port_count)
  if edge_mask = 0#64 then some .x
  else
    let (edge_mask, edge_position) := lowestBit 64 edge_mask 0
    if edge_mask ≠ 1#64 then none
    else
      let hit := edgeHit cur prev edge_position
      if u.edges0.any hit then some .zero
      else if u.edges1.any hit then some .one
      else if u.edgesL.any hit then u.currentOutput cur
      else some .x

/- The inputs with the current output at the place past them. -/
def withOutput (u : VvpUdpSeq) (cur : UdpLevelsTable) (cur_out : VvpBit4) : UdpLevelsTable :=
  let mask_out := 1#64 <<< u.port_count
  match cur_out with
  | .zero => { cur with mask0 := cur.mask0 ||| mask_out }
  | .one => { cur with mask1 := cur.mask1 ||| mask_out }
  | _ => { cur with maskx := cur.maskx ||| mask_out }

/- `calculate_output`. -/
def calculateOutput (u : VvpUdpSeq) (cur prev : UdpLevelsTable)
    (cur_out : VvpBit4) : Option VvpBit4 :=
  if cur = prev then some cur_out
  else do
    let cur_tmp := u.withOutput cur cur_out
    let lev ← u.testLevels cur_tmp
    if lev = .z then u.testEdges cur_tmp prev else some lev

end VvpUdpSeq

/- `vvp_udp_fun_core`: an instance of a primitive. -/
structure VvpUdpFunCore where
  def_ : VvpUdpSeq
  cur_out : VvpBit4
  current : UdpLevelsTable

namespace UdpLevelsTable

/- All inputs are unknown at first. -/
def initial (port_count : Nat) : UdpLevelsTable :=
  ⟨0#64, 0#64, ~~~(BitVec.allOnes 64 <<< port_count)⟩

/- The masks after a value of an input has come in. -/
def receive (current : UdpLevelsTable) (port : Nat) (value : VvpBit4) : UdpLevelsTable :=
  let mask := 1#64 <<< port
  match value with
  | .zero => ⟨current.mask0 ||| mask, current.mask1 &&& ~~~mask, current.maskx &&& ~~~mask⟩
  | .one => ⟨current.mask0 &&& ~~~mask, current.mask1 ||| mask, current.maskx &&& ~~~mask⟩
  | _ => ⟨current.mask0 &&& ~~~mask, current.mask1 &&& ~~~mask, current.maskx ||| mask⟩

end UdpLevelsTable

namespace VvpUdpFunCore

/- `vvp_udp_fun_core`, as an instance is made. -/
def new (def_ : VvpUdpSeq) (init : VvpBit4) : VvpUdpFunCore :=
  ⟨def_, init, .initial def_.port_count⟩

/- `recv_vec4_from_inputs`. -/
def recvVec4FromInputs (core : VvpUdpFunCore) (port : Nat)
    (value : VvpBit4) : Option VvpUdpFunCore := do
  let prev := core.current
  let current := core.current.receive port value
  let out_bit ← core.def_.calculateOutput current prev core.cur_out
  some { core with current := current, cur_out := out_bit }

end VvpUdpFunCore

end EpicSim
