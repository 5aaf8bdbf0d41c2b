import EpicSim.Vvp.Logic

/-
  The `.functor` records the code generator emits for an
  n-input logic gate, and their evaluation by the run time.
-/

----
-- Records
----

namespace EpicSim

/- The n-input gate types of the design. -/
inductive IvlLogicType where
| and : IvlLogicType
| nand : IvlLogicType
| or : IvlLogicType
| nor : IvlLogicType
| xor : IvlLogicType
| xnor : IvlLogicType
deriving DecidableEq, Repr

/- `L_<gate>/<level>/<inst>`, or `L_<gate>` for the output. -/
inductive FunctorLabel where
| node (level inst : Nat) : FunctorLabel
| gate : FunctorLabel
deriving DecidableEq, Repr

/- An input of a record: a gate input, a label, a constant. -/
inductive FunctorInput where
| net (pdx : Nat) : FunctorInput
| label (label : FunctorLabel) : FunctorInput
| const (bit : VvpBit4) (width : Nat) : FunctorInput
deriving DecidableEq, Repr

/- One `.functor` record with its four inputs. -/
structure FunctorRecord where
  label : FunctorLabel
  type : FunctorType
  width : Nat
  args : Fin 4 → FunctorInput

namespace IvlLogicType

/- The type of the last record. -/
def ltype : IvlLogicType → FunctorType
| .and => .AND
| .nand => .NAND
| .or => .OR
| .nor => .NOR
| .xor => .XOR
| .xnor => .XNOR

/- The type of the cascade records, when it differs. -/
def lcascOverride : IvlLogicType → Option FunctorType
| .nand => some .AND
| .nor => some .OR
| .xnor => some .XOR
| _ => none

/- The type of the cascade records. -/
def lcasc (type : IvlLogicType) : FunctorType :=
  type.lcascOverride.getD type.ltype

/- The bit that pads unused inputs: 0 unless set otherwise. -/
def identityVal : IvlLogicType → VvpBit4
| .and => .one
| .nand => .one
| _ => .zero

end IvlLogicType

/- What an input of a level refers to. -/
def levelInput (level pdx : Nat) : FunctorInput :=
  if level ≠ 0 then .label (.node (level - 1) (pdx * 4))
  else .net pdx

/- The label of the record at `inst` of a level. -/
def levelLabel (ninp level inst : Nat) : FunctorLabel :=
  if 4 < ninp then .node level inst else .gate

/- The record at `inst` of a level with `ninp` inputs. -/
def levelRecord (type : IvlLogicType) (width ninp level inst : Nat) : FunctorRecord where
  label := levelLabel ninp level inst
  type := if 4 < ninp then type.lcasc else type.ltype
  width := width
  args := fun j =>
    if inst + j < ninp then levelInput level (inst + j)
    else .const type.identityVal width

/- One turn of the outer loop: a record for every four inputs. -/
def drawLevel (type : IvlLogicType) (width ninp level : Nat) : List FunctorRecord :=
  (List.range ((ninp + 3) / 4)).map (fun k => levelRecord type width ninp level (4 * k))

/- The outer loop, until one record has been drawn. -/
def drawLevels (type : IvlLogicType) (width ninp level : Nat) : List FunctorRecord :=
  if ninp = 0 then []
  else
    drawLevel type width ninp level ++
      drawLevels type width (if 4 < ninp then (ninp + 3) / 4 else 0) (level + 1)
termination_by ninp
decreasing_by
  split_ifs <;> omega

/- The records of a gate with `ninp` inputs. -/
def drawLogicInScope (type : IvlLogicType) (width ninp : Nat) : List FunctorRecord :=
  drawLevels type width ninp 0

----
-- Evaluation
----

/- The settled nets of the functors evaluated so far. -/
abbrev FunctorEnv := FunctorLabel → Option VvpVector4

/- The value of a record input; `none` if it is unresolved. -/
def evalInput (nets : List VvpVector4) (env : FunctorEnv) : FunctorInput → Option VvpVector4
| .net pdx => nets[pdx]?
| .label label => env label
| .const bit width => some (VvpVector4.fill width bit)

/- A new functor after it has received its four inputs. -/
def connect (type : FunctorType) (width : Nat) (input : Fin 4 → VvpVector4) : VvpFunBoolean :=
  ((((VvpFunBoolean.new type.compile.1 width
    type.compile.2).recvVec4 0 (input 0)).recvVec4
      1 (input 1)).recvVec4 2 (input 2)).recvVec4 3 (input 3)

/-
  The vector on the net of a record: what its functor sends, or
  Z as on every net as long as no input has scheduled it.
-/
def evalRecord (nets : List VvpVector4) (env : FunctorEnv)
    (r : FunctorRecord) : Option VvpVector4 := do
  let a ← evalInput nets env (r.args 0)
  let b ← evalInput nets env (r.args 1)
  let c ← evalInput nets env (r.args 2)
  let d ← evalInput nets env (r.args 3)
  let f := connect r.type r.width ![a, b, c, d]
  return if f.net_ then f.runRun else VvpVector4.fill r.width .z

/- Evaluate the records in the order they were emitted. -/
def evalRecords (nets : List VvpVector4) : FunctorEnv → List FunctorRecord → Option FunctorEnv
| env, [] => some env
| env, r :: rest =>
  match evalRecord nets env r with
  | none => none
  | some out => evalRecords nets (Function.update env r.label (some out)) rest

/- The output of a gate on its input vectors. -/
def evalGate (type : IvlLogicType) (width : Nat) (nets : List VvpVector4) : Option VvpVector4 :=
  match evalRecords nets (fun _ => none)
      (drawLogicInScope type width nets.length) with
  | none => none
  | some env => env .gate

theorem evalRecords_append (nets : List VvpVector4) (env : FunctorEnv)
    (left right : List FunctorRecord) :
    evalRecords nets env (left ++ right) =
      (evalRecords nets env left).bind (fun env => evalRecords nets env right) := by
  induction left generalizing env with
  | nil => rfl
  | cons r left ih =>
    rw [List.cons_append, evalRecords, evalRecords]
    cases evalRecord nets env r with
    | none => rfl
    | some out => exact ih _

end EpicSim
