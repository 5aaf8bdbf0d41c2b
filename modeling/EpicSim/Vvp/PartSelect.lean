import EpicSim.Vvp.WireVec4

/-
  Part selects of a vector: with a constant base or with a
  base that is an input, in static scopes and in automatic
  scopes, where each context has its own instance.

  Vectors are lists of bits, lowest first, and contexts are
  numbers.  None stands for a failed assertion of the source
  and for a call that a class does not have.
-/

namespace EpicSim

open PartUpdate

----
-- Deliveries
----

/- A value on the output net, in a context or in none. -/
structure PartSend where
  context : Option Nat
  value : List VvpBit4
deriving DecidableEq

/-
  A step for each entry of a list, from one state to the
  next, with all that is sent on the way.
-/
def forEach {σ ι : Type} (step : σ → ι → Option (σ × List PartSend)) :
    List ι → σ → Option (σ × List PartSend)
| [], s => some (s, [])
| x :: xs, s =>
  match step s x with
  | none => none
  | some (s', out) =>
    match forEach step xs s' with
    | none => none
    | some (s'', out') => some (s'', out ++ out')

/- The contexts of a delivery: no context means all live ones. -/
def contextsOf (live : List Nat) : Option Nat → List Nat
| some c => [c]
| none => live

/- `set_vec`, which asserts that the part fits. -/
def setVec (bits : List VvpBit4) (adr : Nat) (that : List VvpBit4) : Option (List VvpBit4) :=
  if adr + that.length ≤ bits.length then
    some (overwrite bits adr that)
  else none

----
-- Constant Bases
----

/-
  `vvp_fun_part_sa`.  The functor is scheduled while its
  `net_` is set.
-/
structure VvpFunPartSa where
  base : Nat
  wid : Nat
  val : List VvpBit4
  scheduled : Bool
deriving DecidableEq

namespace VvpFunPartSa

/- `recv_vec4`. -/
def recvVec4 (f : VvpFunPartSa) (bit : List VvpBit4) : VvpFunPartSa :=
  let tmp := subvalue bit f.base f.wid
  if f.val = tmp then f
  else { f with val := tmp, scheduled := true }

/- The vector of which a part is delivered, as `val_` shows it. -/
def rebuild (base : Nat) (val bit : List VvpBit4)
    (pos vwid : Nat) : Option (List VvpBit4) := do
  let tmp ← setVec (List.replicate vwid .z) base val
  setVec tmp pos bit

/- `recv_vec4_pv`. -/
def recvVec4Pv (f : VvpFunPartSa) (bit : List VvpBit4) (base vwid : Nat) : Option VvpFunPartSa :=
  (rebuild f.base f.val bit base vwid).map f.recvVec4

/- `run_run`, which is only called when it was scheduled. -/
def runRun (f : VvpFunPartSa) : Option (VvpFunPartSa × PartSend) :=
  if f.scheduled then
    some ({ f with scheduled := false }, ⟨none, f.val⟩)
  else none

end VvpFunPartSa

/- `vvp_fun_part_aa`: an instance for each context. -/
structure VvpFunPartAa where
  base : Nat
  wid : Nat
  vals : Nat → List VvpBit4
  liveContexts : List Nat

namespace VvpFunPartAa

/- `recv_vec4` in a context. -/
def recvIn (f : VvpFunPartAa) (bit : List VvpBit4) (c : Nat) : VvpFunPartAa × List PartSend :=
  let tmp := (List.range f.wid).map (fun idx =>
    if idx + f.base < bit.length then bitValue bit (f.base + idx)
    else .x)
  if f.vals c = tmp then (f, [])
  else
    ({ f with
        vals := fun c' => if c' = c then tmp else f.vals c' },
      [⟨some c, tmp⟩])

/- `recv_vec4`. -/
def recvVec4 (f : VvpFunPartAa) (bit : List VvpBit4) (context : Option Nat) :
    Option (VvpFunPartAa × List PartSend) :=
  match context with
  | some c => some (f.recvIn bit c)
  | none => forEach (fun f c => some (recvIn f bit c)) f.liveContexts f

/- `recv_vec4_pv` in a context. -/
def recvPvIn (f : VvpFunPartAa) (bit : List VvpBit4) (base vwid c : Nat) :
    Option (VvpFunPartAa × List PartSend) :=
  (VvpFunPartSa.rebuild f.base (f.vals c) bit base vwid).map (fun tmp => f.recvIn tmp c)

/- `recv_vec4_pv`. -/
def recvVec4Pv (f : VvpFunPartAa) (bit : List VvpBit4) (base vwid : Nat) (context : Option Nat) :
    Option (VvpFunPartAa × List PartSend) :=
  match context with
  | some c => f.recvPvIn bit base vwid c
  | none => forEach (fun f c => recvPvIn f bit base vwid c) f.liveContexts f

/- `alloc_instance`. -/
def allocInstance (f : VvpFunPartAa) (c : Nat) : VvpFunPartAa :=
  { f with vals := fun c' => if c' = c then [] else f.vals c' }

/- `reset_instance`. -/
def resetInstance (f : VvpFunPartAa) (c : Nat) : VvpFunPartAa :=
  { f with
    vals := fun c' =>
      if c' = c then List.replicate (f.vals c).length .x
      else f.vals c' }

end VvpFunPartAa

----
-- Bases That Are Inputs
----

/-
  `vector4_to_value` to a 32-bit integer: none for an X or Z
  in its low bits.
-/
def vector4ToInt32 (vec : List VvpBit4) (is_signed : Bool) : Option (BitVec 32) :=
  let low := vec.take 32
  if low.all (fun bit => decide (bit = .zero ∨ bit = .one)) then
    let res := (low.zipIdx).foldl
      (fun res entry => if entry.1 = .one then res ||| (1#32 <<< entry.2) else res)
      0#32
    some
      (if is_signed = true ∧ vec.length < 32 ∧
          0 < vec.length ∧
          bitValue vec (vec.length - 1) = .one then
        res ||| (BitVec.allOnes 32 <<< vec.length)
      else res)
  else none

/- The state of `vvp_fun_part_var`, also of one context. -/
structure PartVarState where
  base : BitVec 32
  source : List VvpBit4
  ref : List VvpBit4
deriving DecidableEq

namespace PartVarState

/- A new state. -/
def start : PartVarState := ⟨0#32, [], []⟩

/-
  The bits for some positions of the result.  Those before
  the vector are X, and so are all from its end on.
-/
def selectFrom (s : PartVarState) : List Nat → List VvpBit4
| [] => []
| idx :: rest =>
  let adr := s.base + BitVec.ofNat 32 idx
  if adr.toInt < 0 then .x :: s.selectFrom rest
  else if s.source.length ≤ adr.toNat then
    List.replicate (rest.length + 1) .x
  else bitValue s.source adr.toNat :: s.selectFrom rest

/- The selected bits. -/
def select (s : PartVarState) (wid : Nat) : List VvpBit4 :=
  s.selectFrom (List.range wid)

/- Send the selected bits if they changed. -/
def refresh (s : PartVarState) (wid : Nat) : PartVarState × Option (List VvpBit4) :=
  let res := s.select wid
  if s.ref = res then (s, none)
  else ({ s with ref := res }, some res)

/- `recv_vec4_` on port 0. -/
def recvSource (s : PartVarState) (wid : Nat)
    (bit : List VvpBit4) : PartVarState × Option (List VvpBit4) :=
  { s with source := bit }.refresh wid

/- `recv_vec4_` on port 1: an unknown base is `INT32_MIN`. -/
def recvBase (s : PartVarState) (wid : Nat) (is_signed : Bool)
    (bit : List VvpBit4) : PartVarState × Option (List VvpBit4) :=
  let tmp := (vector4ToInt32 bit is_signed).getD (BitVec.intMin 32)
  if tmp = s.base then (s, none)
  else { s with base := tmp }.refresh wid

/- The source vector with a part of it replaced. -/
def rebuild (s : PartVarState) (bit : List VvpBit4) (base vwid : Nat) : Option (List VvpBit4) :=
  let tmp :=
    if s.source.length = 0 then List.replicate vwid .x
    else s.source
  if tmp.length = vwid then setVec tmp base bit else none

end PartVarState

/- `vvp_fun_part_var_sa`. -/
structure VvpFunPartVarSa where
  wid : Nat
  is_signed : Bool
  state : PartVarState
deriving DecidableEq

namespace VvpFunPartVarSa

/- A state with the value that is sent, if there is one. -/
def sending (f : VvpFunPartVarSa) (res : PartVarState × Option (List VvpBit4)) :
    VvpFunPartVarSa × List PartSend :=
  ({ f with state := res.1 }, (res.2.map (fun value => PartSend.mk none value)).toList)

/- `recv_vec4` on port 0. -/
def recvVec4 (f : VvpFunPartVarSa) (bit : List VvpBit4) : VvpFunPartVarSa × List PartSend :=
  f.sending (f.state.recvSource f.wid bit)

/- `recv_vec4` on port 1. -/
def recvBase (f : VvpFunPartVarSa) (bit : List VvpBit4) : VvpFunPartVarSa × List PartSend :=
  f.sending (f.state.recvBase f.wid f.is_signed bit)

/- `recv_vec4_pv` on port 0. -/
def recvVec4Pv (f : VvpFunPartVarSa) (bit : List VvpBit4) (base vwid : Nat) :
    Option (VvpFunPartVarSa × List PartSend) :=
  (f.state.rebuild bit base vwid).map f.recvVec4

end VvpFunPartVarSa

/- `vvp_fun_part_var_aa`: a state for each context. -/
structure VvpFunPartVarAa where
  wid : Nat
  is_signed : Bool
  states : Nat → PartVarState
  liveContexts : List Nat

namespace VvpFunPartVarAa

/- The state of a context with the value that is sent. -/
def sending (f : VvpFunPartVarAa) (c : Nat) (res : PartVarState × Option (List VvpBit4)) :
    VvpFunPartVarAa × List PartSend :=
  ({ f with
      states := fun c' => if c' = c then res.1 else f.states c' },
    (res.2.map (fun value => PartSend.mk (some c) value)).toList)

/- `recv_vec4` on port 0 in a context. -/
def recvIn (f : VvpFunPartVarAa) (bit : List VvpBit4) (c : Nat) : VvpFunPartVarAa × List PartSend :=
  f.sending c ((f.states c).recvSource f.wid bit)

/- `recv_vec4` on port 0. -/
def recvVec4 (f : VvpFunPartVarAa) (bit : List VvpBit4) (context : Option Nat) :
    Option (VvpFunPartVarAa × List PartSend) :=
  match context with
  | some c => some (f.recvIn bit c)
  | none => forEach (fun f c => some (recvIn f bit c)) f.liveContexts f

/- `recv_vec4` on port 1 in a context. -/
def recvBaseIn (f : VvpFunPartVarAa) (bit : List VvpBit4)
    (c : Nat) : VvpFunPartVarAa × List PartSend :=
  f.sending c ((f.states c).recvBase f.wid f.is_signed bit)

/- `recv_vec4` on port 1. -/
def recvBase (f : VvpFunPartVarAa) (bit : List VvpBit4) (context : Option Nat) :
    Option (VvpFunPartVarAa × List PartSend) :=
  match context with
  | some c => some (f.recvBaseIn bit c)
  | none => forEach (fun f c => some (recvBaseIn f bit c)) f.liveContexts f

/-
  `recv_vec4_pv` on port 0.  Without a context the part goes
  to `recv_vec4` of each live context.
-/
def recvVec4Pv (f : VvpFunPartVarAa) (bit : List VvpBit4) (base vwid : Nat) (context : Option Nat) :
    Option (VvpFunPartVarAa × List PartSend) :=
  match context with
  | some c => ((f.states c).rebuild bit base vwid).map (fun tmp => f.recvIn tmp c)
  | none => forEach (fun f c => some (recvIn f bit c)) f.liveContexts f

/- `alloc_instance`. -/
def allocInstance (f : VvpFunPartVarAa) (c : Nat) : VvpFunPartVarAa :=
  { f with states := fun c' => if c' = c then .start else f.states c' }

/- `reset_instance`. -/
def resetInstance (f : VvpFunPartVarAa) (c : Nat) : VvpFunPartVarAa :=
  { f with
    states := fun c' =>
      if c' = c then
        ⟨0#32, List.replicate (f.states c).source.length .x,
          List.replicate (f.states c).ref.length .x⟩
      else f.states c' }

end VvpFunPartVarAa

----
-- Calls
----

/- What is called on a part select. -/
inductive PartCall where
| full (bit : List VvpBit4) (context : Option Nat) : PartCall
| part (bit : List VvpBit4) (base vwid : Nat)
    (context : Option Nat) : PartCall
| select (bit : List VvpBit4) (context : Option Nat) : PartCall
| live (contexts : List Nat) : PartCall
| alloc (context : Nat) : PartCall
| reset (context : Nat) : PartCall
| run : PartCall

/-
  A class of part selects: its first state, the instances
  that a delivery reaches, and its calls.
-/
structure PartClass (σ : Type) where
  start : σ
  contexts : σ → Option Nat → List Nat
  step : σ → PartCall → Option (σ × List PartSend)

namespace PartClass

/- `vvp_fun_part_sa`, one instance. -/
def partSa (base wid : Nat) : PartClass VvpFunPartSa where
  start := ⟨base, wid, [], false⟩
  contexts := fun _ _ => [0]
  step := fun f call =>
    match call with
    | .full bit _ => some (f.recvVec4 bit, [])
    | .part bit pos vwid _ => (f.recvVec4Pv bit pos vwid).map (fun f' => (f', []))
    | .run => f.runRun.map (fun res => (res.1, [res.2]))
    | _ => none

/- `vvp_fun_part_aa`. -/
def partAa (base wid : Nat) : PartClass VvpFunPartAa where
  start := ⟨base, wid, fun _ => [], []⟩
  contexts := fun f context => contextsOf f.liveContexts context
  step := fun f call =>
    match call with
    | .full bit context => f.recvVec4 bit context
    | .part bit pos vwid context => f.recvVec4Pv bit pos vwid context
    | .live contexts => some ({ f with liveContexts := contexts }, [])
    | .alloc c => some (f.allocInstance c, [])
    | .reset c => some (f.resetInstance c, [])
    | _ => none

/- `vvp_fun_part_var_sa`, one instance. -/
def partVarSa (wid : Nat) (is_signed : Bool) : PartClass VvpFunPartVarSa where
  start := ⟨wid, is_signed, .start⟩
  contexts := fun _ _ => [0]
  step := fun f call =>
    match call with
    | .full bit _ => some (f.recvVec4 bit)
    | .part bit pos vwid _ => f.recvVec4Pv bit pos vwid
    | .select bit _ => some (f.recvBase bit)
    | _ => none

/- `vvp_fun_part_var_aa`. -/
def partVarAa (wid : Nat) (is_signed : Bool) : PartClass VvpFunPartVarAa where
  start := ⟨wid, is_signed, fun _ => .start, []⟩
  contexts := fun f context => contextsOf f.liveContexts context
  step := fun f call =>
    match call with
    | .full bit context => f.recvVec4 bit context
    | .part bit pos vwid context => f.recvVec4Pv bit pos vwid context
    | .select bit context => f.recvBase bit context
    | .live contexts => some ({ f with liveContexts := contexts }, [])
    | .alloc c => some (f.allocInstance c, [])
    | .reset c => some (f.resetInstance c, [])
    | .run => none

end PartClass

end EpicSim
