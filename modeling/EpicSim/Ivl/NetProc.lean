import EpicSim.Ivl.Netmisc
import EpicSim.Ivl.VerinumOps
import EpicSim.Lib.LexicalScopes

/-
  Constant functions, and how the compiler evaluates them.

  The context map of a function, and of every block with a
  scope of its own, has a number of its own; a variable of an
  outer map is entered as a reference.  One marker says which
  scope is being disabled.  A failed assertion and a read
  through a null pointer are errors, and so is running out of
  steps.
-/

----
-- Statements
----

namespace EpicSim

/- An expression of a function: a number, a whole variable, an
   operator with its `eval_arguments_`, `?:` and a call. -/
inductive FuncExpr where
| const (value : Verinum)
| signal (net : NetNet)
| operator
    (evalArguments : List Verinum → Option Verinum) (parms : List FuncExpr)
| ternary (cond true_val false_val : FuncExpr) (signed : Bool)
| ufunc (func : Nat) (parms : List FuncExpr)

/- `NetCase::TYPE`. -/
inductive CaseType where
| eq | eqx | eqz
deriving DecidableEq

/- `NetProc`.  Scopes are known by their numbers; an item of a
   case without a guard is the default. -/
inductive NetProc where
| block (subscope : Option Nat) (list : List NetProc)
| case
    (type : CaseType) (expr : FuncExpr) (items : List (Option FuncExpr × Option NetProc))
| condit (expr : FuncExpr) (if_ else_ : Option NetProc)
| disable (target : Option Nat)
| doWhile (cond : FuncExpr) (proc : NetProc)
| forever (statement : NetProc)
| repeat (expr : FuncExpr) (statement : NetProc)
| while (cond : FuncExpr) (proc : NetProc)
| assign (lval : NetNet) (rval : FuncExpr)
| stask

/- The variables of a `NetScope`, each with whether it is a
   port, and the statement that initialises them. -/
structure NetScope where
  basename : String
  signals_map : List (NetNet × Bool)
  var_init : Option NetProc

/- `NetFuncDef`. -/
structure NetFuncDef where
  result_sig : NetNet
  ports : List NetNet
  proc : Option NetProc

/- The scopes by number, and the functions among them. -/
structure Design where
  scope : Nat → NetScope
  func_def : Nat → Option NetFuncDef

/- Why an evaluation gives nothing. -/
inductive Halt where
| assertFailed | nullPointer | outOfSteps
deriving DecidableEq

----
-- Context Maps
----

open LexicalScopes

/- `LocalVar`, without arrays. -/
abbrev LocalVar := Entry (Option Verinum)

/- `map<perm_string, LocalVar>`. -/
abbrev ContextMap := String → Option LocalVar

/- The maps of the function and of its open blocks. -/
abbrev ContextMaps := Maps String (Option Verinum)

/- `fix_assign_value`. -/
def fixAssignValue (lhs : NetNet) (rhs : Option Verinum) : Option Verinum :=
  rhs.map fun ce =>
    let rhs :=
      if ce.len < lhs.vector_width then
        ce.padToWidth lhs.vector_width
      else if lhs.vector_width < ce.len then
        ce.resized lhs.vector_width
      else ce
    rhs.withSign lhs.get_signed

/- `NetScope::evaluate_function_find_locals`. -/
def findLocals (signals : List (NetNet × Bool)) (map : ContextMap) : ContextMap :=
  signals.foldl (fun map cur =>
    if cur.2 then map
    else Function.update map cur.1.name (some (.value none))) map

/- The loop of `NetFuncDef::evaluate_function` over the input
   ports. -/
def loadPorts : List NetNet → List (Option Verinum) → ContextMap → ContextMap
| pnet :: ports, arg :: args, map =>
  loadPorts ports args (Function.update map pnet.name (some (.value (fixAssignValue pnet arg))))
| _, _, map => map

/- The value of a variable never assigned: all x, or all 0 for
   a variable of two states. -/
def NetNet.initial (net : NetNet) : Verinum :=
  match net.data_type with
  | .bool => Verinum.fill .v0 net.vector_width true
  | .logic => Verinum.fill .vx net.vector_width true

/- How a bit of a case value and one of a guard compare. -/
def CaseType.bitMatches (type : CaseType) (bit_a bit_b : VerinumV) : Bool :=
  (bit_a == .vx && type == .eqx) ||
  (bit_b == .vx && type == .eqx) ||
  (bit_a == .vz && type != .eq) ||
  (bit_b == .vz && type != .eq) ||
  bit_a == bit_b

/- The comparison loop of `NetCase::evaluate_function_vect_`. -/
def CaseType.matchLoop (type : CaseType) : Bits → Bits → Bool
| bit_a :: case_val, bit_b :: item_val =>
  if type.bitMatches bit_a bit_b then
    type.matchLoop case_val item_val
  else false
| _, _ => true

end EpicSim

----
-- Evaluation
----

namespace EpicSim

open LexicalScopes

/- The context maps and the global `disable`. -/
structure FuncState where
  maps : ContextMaps
  disable : Option Nat

/- The assertion that a result is there. -/
def asserted {α : Type} : Option α → Except Halt α
| some x => .ok x
| none => .error .assertFailed

/- What a read through a pointer gives. -/
def pointee {α : Type} : Option α → Except Halt α
| some x => .ok x
| none => .error .nullPointer

/- The values of operands that are all there. -/
def allValues : List (Option Verinum) → Option (List Verinum)
| [] => some []
| some v :: vals => (allValues vals).map (v :: ·)
| none :: _ => none

mutual

variable (d : Design)

/- `NetExpr::evaluate_function`: a constant or the null
   pointer, and the marker after it. -/
def evalExpr : Nat → FuncState → Nat → FuncExpr → Except Halt (Option Verinum × Option Nat)
| 0, _, _, _ => .error .outOfSteps
| _ + 1, st, _, .const value => .ok (some value, st.disable)
| _ + 1, st, cur, .signal net =>
  match st.maps cur net.name with
  | none => .ok (none, st.disable)
  | some _ => do
      let var ← asserted (follow st.maps net.name 2 cur)
      .ok (some (var.2.getD net.initial), st.disable)
| steps + 1, st, cur, .operator evalArguments parms => do
    let (vals, disable) ← evalParms steps st cur parms
    .ok ((allValues vals).bind evalArguments, disable)
| steps + 1, st, cur, .ternary cond true_val false_val signed => do
    let (cval, disable) ← evalExpr steps st cur cond
    let st := { st with disable := disable }
    let cval ← pointee cval
    match NetExpr.constLogical cval.bits .v0 with
    | .v0 => evalExpr steps st cur false_val
    | .v1 => evalExpr steps st cur true_val
    | _ => do
        let (tval, disable) ← evalExpr steps st cur true_val
        let st := { st with disable := disable }
        let (fval, disable) ← evalExpr steps st cur false_val
        let tval ← pointee tval
        let fval ← pointee fval
        .ok (some (NetExpr.blended signed tval fval), disable)
| steps + 1, st, cur, .ufunc func parms => do
    let (args, disable) ← evalParms steps st cur parms
    evaluateFunction steps func args disable
termination_by structural steps => steps

/- The operands of a node, in order. -/
def evalParms :
    Nat → FuncState → Nat → List FuncExpr → Except Halt (List (Option Verinum) × Option Nat)
| 0, _, _, _ => .error .outOfSteps
| _ + 1, st, _, [] => .ok ([], st.disable)
| steps + 1, st, cur, parm :: parms => do
    let (val, disable) ← evalExpr steps st cur parm
    let st := { st with disable := disable }
    let (vals, disable) ← evalParms steps st cur parms
    .ok (val :: vals, disable)
termination_by structural steps => steps

/- `NetFuncDef::evaluate_function`. -/
def evaluateFunction :
    Nat → Nat → List (Option Verinum) → Option Nat → Except Halt (Option Verinum × Option Nat)
| 0, _, _, _ => .error .outOfSteps
| steps + 1, func, args, disable => do
    let defn ← asserted (d.func_def func)
    let scope := d.scope func
    if defn.ports.length ≠ args.length then .error .assertFailed
    else
      let map : ContextMap := Function.update (fun _ => none) scope.basename (some (.value none))
      let map := loadPorts defn.ports args map
      let map := findLocals scope.signals_map map
      let st : FuncState :=
        { maps := Function.update (fun _ _ => none) 0 map
          disable := disable }
      let (_, st) ← evalOptional steps st 0 scope.var_init
      let (flag, st) ← evalOptional steps st 0 defn.proc
      let flag := flag && defn.proc.isSome
      let res :=
        match st.maps 0 scope.basename with
        | some (.value value) => value
        | _ => none
      if st.disable ≠ none ∧ st.disable ≠ some func then
        .error .assertFailed
      else .ok (if flag then res else none, none)
termination_by structural steps => steps

/- A statement that may be missing. -/
def evalOptional : Nat → FuncState → Nat → Option NetProc → Except Halt (Bool × FuncState)
| 0, _, _, _ => .error .outOfSteps
| _ + 1, st, _, none => .ok (true, st)
| steps + 1, st, cur, some proc => evalProc steps st cur proc
termination_by structural steps => steps

/- `NetProc::evaluate_function`. -/
def evalProc : Nat → FuncState → Nat → NetProc → Except Halt (Bool × FuncState)
| 0, _, _, _ => .error .outOfSteps
| steps + 1, st, cur, .block subscope list =>
  if list.isEmpty then .ok (true, st)
  else
    match subscope with
    | none => blockLoop steps st cur list true
    | some subscope => do
        let scope := d.scope subscope
        let map := findLocals scope.signals_map (references st.maps cur)
        let st := { st with maps := Function.update st.maps (cur + 1) map }
        let (_, st) ←
          evalOptional steps st (cur + 1) scope.var_init
        let (flag, st) ← blockLoop steps st (cur + 1) list true
        .ok (flag,
          { maps := Function.update st.maps (cur + 1) (fun _ => none)
            disable :=
              if st.disable = some subscope then none
              else st.disable })
| steps + 1, st, cur, .case type expr items => do
    let (case_expr, disable) ← evalExpr steps st cur expr
    let st := { st with disable := disable }
    match case_expr with
    | none => .ok (false, st)
    | some case_val => itemLoop steps st cur type case_val none items
| steps + 1, st, cur, .condit expr if_ else_ => do
    let (cond, disable) ← evalExpr steps st cur expr
    let st := { st with disable := disable }
    match cond with
    | none => .ok (false, st)
    | some cond =>
      if cond.asLong ≠ 0#64 then evalOptional steps st cur if_
      else evalOptional steps st cur else_
| _ + 1, st, _, .disable target => .ok (true, { st with disable := target })
| steps + 1, st, cur, .doWhile cond proc => doWhileLoop steps st cur cond proc true
| steps + 1, st, cur, .forever statement => foreverLoop steps st cur statement true
| steps + 1, st, cur, .repeat expr statement => do
    let (count, disable) ← evalExpr steps st cur expr
    let st := { st with disable := disable }
    match count with
    | none => .ok (false, st)
    | some count => repeatLoop steps st cur statement count.asLong.toInt true
| steps + 1, st, cur, .while cond proc => whileLoop steps st cur cond proc true
| steps + 1, st, cur, .assign lval rval => do
    let (rval, disable) ← evalExpr steps st cur rval
    let st := { st with disable := disable }
    match rval with
    | none => .ok (false, st)
    | some rval =>
      let (map, _) ← asserted (follow st.maps lval.name 2 cur)
      .ok (true, { st with maps := write st.maps map lval.name (fixAssignValue lval (some rval)) })
| _ + 1, st, _, .stask => .ok (true, st)
termination_by structural steps => steps

/- The loop of `NetBlock::evaluate_function`. -/
def blockLoop : Nat → FuncState → Nat → List NetProc → Bool → Except Halt (Bool × FuncState)
| 0, _, _, _, _ => .error .outOfSteps
| _ + 1, st, _, [], flag => .ok (flag, st)
| steps + 1, st, cur, proc :: list, flag => do
    let (cur_flag, st) ← evalProc steps st cur proc
    let flag := flag && cur_flag
    if st.disable = none then blockLoop steps st cur list flag
    else .ok (flag, st)
termination_by structural steps => steps

/- The loop of `NetCase::evaluate_function_vect_`. -/
def itemLoop :
    Nat → FuncState → Nat → CaseType → Verinum →
      Option NetProc →
      List (Option FuncExpr × Option NetProc) →
      Except Halt (Bool × FuncState)
| 0, _, _, _, _, _, _ => .error .outOfSteps
| steps + 1, st, cur, _, _, default_statement, [] => evalOptional steps st cur default_statement
| steps + 1, st, cur, type, case_val, _, (none, item) :: items =>
  itemLoop steps st cur type case_val item items
| steps + 1, st, cur, type, case_val, default_statement,
    (some guard, item) :: items => do
    let (item_expr, disable) ← evalExpr steps st cur guard
    let st := { st with disable := disable }
    match item_expr with
    | none => .ok (false, st)
    | some item_val =>
      if item_val.len ≠ case_val.len then .error .assertFailed
      else if type.matchLoop case_val.bits item_val.bits then do
        let item ← pointee item
        evalProc steps st cur item
      else
        itemLoop steps st cur type case_val default_statement items
termination_by structural steps => steps

/- The loop of `NetDoWhile::evaluate_function`. -/
def doWhileLoop : Nat → FuncState → Nat → FuncExpr → NetProc → Bool → Except Halt (Bool × FuncState)
| 0, _, _, _, _, _ => .error .outOfSteps
| steps + 1, st, cur, cond_, proc, flag =>
  if st.disable ≠ none then .ok (flag, st)
  else do
    let (flag, st) ← evalProc steps st cur proc
    if flag then do
      let (cond, disable) ← evalExpr steps st cur cond_
      let st := { st with disable := disable }
      match cond with
      | none => .ok (false, st)
      | some cond =>
        if cond.asLong = 0#64 then .ok (flag, st)
        else doWhileLoop steps st cur cond_ proc flag
    else .ok (flag, st)
termination_by structural steps => steps

/- The loop of `NetForever::evaluate_function`. -/
def foreverLoop : Nat → FuncState → Nat → NetProc → Bool → Except Halt (Bool × FuncState)
| 0, _, _, _, _ => .error .outOfSteps
| steps + 1, st, cur, statement, flag =>
  if flag && st.disable == none then do
    let (flag, st) ← evalProc steps st cur statement
    foreverLoop steps st cur statement flag
  else .ok (flag, st)
termination_by structural steps => steps

/- The loop of `NetRepeat::evaluate_function`. -/
def repeatLoop : Nat → FuncState → Nat → NetProc → Int → Bool → Except Halt (Bool × FuncState)
| 0, _, _, _, _, _ => .error .outOfSteps
| steps + 1, st, cur, statement, count, flag =>
  if decide (0 < count) && flag && st.disable == none then do
    let (flag, st) ← evalProc steps st cur statement
    repeatLoop steps st cur statement (count - 1) flag
  else .ok (flag, st)
termination_by structural steps => steps

/- The loop of `NetWhile::evaluate_function`. -/
def whileLoop : Nat → FuncState → Nat → FuncExpr → NetProc → Bool → Except Halt (Bool × FuncState)
| 0, _, _, _, _, _ => .error .outOfSteps
| steps + 1, st, cur, cond_, proc, flag =>
  if flag && st.disable == none then do
    let (cond, disable) ← evalExpr steps st cur cond_
    let st := { st with disable := disable }
    match cond with
    | none => .ok (false, st)
    | some cond =>
      if cond.asLong = 0#64 then .ok (flag, st)
      else do
        let (tmp_flag, st) ← evalProc steps st cur proc
        whileLoop steps st cur cond_ proc tmp_flag
  else .ok (flag, st)
termination_by structural steps => steps

end

end EpicSim
