import EpicSim.Ivl.FuncMeaning
import Mathlib.Data.List.Forall2

/-
  Runs of a constant function that the compiler follows.

  A run is sound if every condition with a 1 in it is defined
  and is negative or has a 1 in its low 63 bits, every count
  is below 2 ^ 63, every chosen item has a statement, every
  function has assigned its name when it ends, and the
  condition of a loop left by a disable makes no call.
-/

----
-- Values
----

namespace EpicSim

open TwosComplement VerinumV

namespace Verinum

theorem mem_take_iff_bit (v : Verinum) (n : Nat) :
    .v1 ∈ v.bits.take n ↔ ∃ i < min v.len n, v.bit i = true := by
  unfold bit get len
  rw [List.mem_iff_getElem]
  constructor
  · rintro ⟨i, hLt, hGet⟩
    rw [List.length_take] at hLt
    rw [List.getElem_take] at hGet
    refine ⟨i, by omega, ?_⟩
    rw [List.getD_eq_getElem _ _ (by omega), hGet]
    rfl
  · grind

/- What makes the word of a condition differ from 0. -/
theorem asLong_ne_zero_iff (v : Verinum) :
    v.asLong ≠ 0#64 ↔
      v.isDefined = true ∧
        (v.isNegative = true ∨ .v1 ∈ v.bits.take 63) := by
  by_cases hLen : v.len = 0
  · have hBits := List.eq_nil_of_length_eq_zero hLen
    unfold asLong isNegative get
    rw [if_pos hLen, hBits]
    simp
  by_cases hDefined : v.isDefined = true
  · have hPos : 0 < v.len := Nat.pos_of_ne_zero hLen
    rw [isNegative_eq hPos, ← sign_eq_decide, mem_take_iff_bit]
    constructor
    · intro hNe
      refine ⟨hDefined, ?_⟩
      by_contra hNone
      apply hNe
      apply BitVec.eq_of_getLsbD_eq
      intro i hi
      rw [asLong_getLsbD hDefined hPos hi]
      grind
    · rintro ⟨_, hSign | ⟨i, hIn, hBit⟩⟩ hZero
      · have hTop := asLong_getLsbD hDefined hPos (by decide : 63 < 64)
        rw [if_neg (by omega), hSign, hZero] at hTop
        cases hTop
      · have hLow := asLong_getLsbD hDefined hPos (by omega : i < 64)
        rw [if_pos hIn, hBit, hZero, BitVec.getLsbD_zero] at hLow
        cases hLow
  · unfold asLong
    simp [hDefined]

/- Whatever the word says is so. -/
theorem truth_of_asLong {v : Verinum} (hWord : v.asLong ≠ 0#64) : v.truth := by
  rcases (asLong_ne_zero_iff v).mp hWord with ⟨_, hNeg | hLow⟩
  · unfold isNegative get at hNeg
    rw [Bool.and_eq_true] at hNeg
    have hTop := eq_of_beq hNeg.1
    by_cases hLen : 0 < v.len
    · rw [List.getD_eq_getElem _ _ (by unfold len at hLen ⊢; omega)] at hTop
      exact List.mem_of_getElem hTop
    · have hNil := List.eq_nil_of_length_eq_zero (Nat.eq_zero_of_not_pos hLen)
      rw [hNil] at hTop
      cases hTop
  · exact List.mem_of_mem_take hLow

/- The word of a count. -/
theorem asLong_count {v : Verinum} (hCount : v.isDefined = true → v.integer < 2 ^ 63) :
    v.asLong.toInt.toNat = v.repeatCount := by
  unfold repeatCount
  by_cases hLen : v.len = 0
  · have hInteger : v.integer = 0 := by
      unfold integer value
      rw [hLen]
      simp [low, sign]
    rw [hInteger]
    unfold asLong
    rw [if_pos hLen]
    simp
  by_cases hDefined : v.isDefined = true
  · rw [asLong_toInt hDefined (Nat.pos_of_ne_zero hLen)]
    have hBelow := hCount hDefined
    unfold cutLong
    grind
  · rw [if_neg hDefined]
    unfold asLong
    rw [if_neg hLen, if_pos (by simpa using hDefined)]
    rfl

end Verinum

/- Padding extends a number with its extension bit. -/
theorem Verinum.padToWidth_bits {v : Verinum} {width : Nat} (hLt : v.len < width) :
    v.padToWidth width =
      { v with
        bits := v.bits ++ List.replicate (width - v.len) v.extension
        is_single := false } := by
  unfold Verinum.padToWidth
  rw [if_neg (Nat.not_le_of_gt hLt)]
  by_cases hLen : v.len = 0
  · have hNil := List.eq_nil_of_length_eq_zero hLen
    unfold Verinum.extension
    rw [hNil, hLen]
    rfl
  · have hIdx : v.bits.length - 1 < v.bits.length := by
      unfold Verinum.len at hLen
      omega
    have hTop : v.bits.getLast? = some (v.get (v.len - 1)) := by
      unfold Verinum.get Verinum.len
      rw [List.getD_eq_getElem _ _ hIdx, List.getLast?_eq_getElem?, List.getElem?_eq_getElem hIdx]
    rw [if_neg hLen]
    unfold Verinum.extension
    rw [hTop]
    cases v.get (v.len - 1) <;> cases v.has_sign <;>
      cases v.is_single <;> cases v.has_len <;> rfl

/- The r-value is resized to what the variable stores. -/
theorem fixAssignValue_eq (lhs : NetNet) (v : Verinum) :
    fixAssignValue lhs (some v) = some (lhs.stored v) := by
  unfold fixAssignValue NetNet.stored
  rw [Option.map_some]
  rcases Nat.lt_trichotomy v.len lhs.vector_width with hLt | hEq | hGt
  · have hTake : v.bits.take lhs.vector_width = v.bits :=
      List.take_of_length_le (Nat.le_of_lt hLt)
    simp only [if_pos hLt, Verinum.padToWidth_bits hLt, Verinum.withSign, hTake,
      Nat.not_lt_of_gt hLt, Nat.ne_of_lt hLt, decide_false, Bool.or_false, Bool.and_false]
  · have hTake : v.bits.take lhs.vector_width = v.bits :=
      List.take_of_length_le (Nat.le_of_eq hEq)
    simp only [hEq, Nat.lt_irrefl, if_false, Verinum.withSign, hTake, Nat.sub_self,
      List.replicate_zero, List.append_nil, decide_true, decide_false, Bool.or_false, Bool.and_true]
  · have hMin : min lhs.vector_width v.len = lhs.vector_width :=
      Nat.min_eq_left (Nat.le_of_lt hGt)
    simp only [if_neg (Nat.not_lt_of_gt hGt), if_pos hGt, Verinum.resized, Verinum.withSign,
      hMin, Nat.sub_self, List.replicate_zero, Nat.sub_eq_zero_of_le (Nat.le_of_lt hGt),
      decide_eq_true hGt, Bool.or_true, Nat.ne_of_gt hGt, decide_false, Bool.and_false]

/- The bits are compared as the kind of the case asks. -/
theorem CaseType.bitMatches_iff (type : CaseType) (a b : VerinumV) :
    type.bitMatches a b = true ↔ type.Alike a b := by
  cases type <;> cases a <;> cases b <;>
    simp [CaseType.bitMatches, CaseType.Alike]

theorem CaseType.matchLoop_iff (type : CaseType) :
    ∀ {case_val item_val : Bits},
      item_val.length = case_val.length →
      (type.matchLoop case_val item_val = true ↔ List.Forall₂ type.Alike case_val item_val)
| [], [], _ => by simp [CaseType.matchLoop]
| a :: case_val, b :: item_val, hLen => by
    have hRest := CaseType.matchLoop_iff type
      (Nat.succ.inj hLen : item_val.length = case_val.length)
    rw [CaseType.matchLoop, List.forall₂_cons, ← hRest, ← type.bitMatches_iff]
    cases type.bitMatches a b <;> simp

/- The value of a condition of `?:`. -/
theorem constLogical_eq (bits : Bits) (res : VerinumV) :
    NetExpr.constLogical bits res =
      if .v1 ∈ bits then .v1
      else if bits.all (fun b => b != .vx && b != .vz) then res
      else .vx := by
  induction bits generalizing res with
  | nil => rfl
  | cons b bits ih => cases b <;> rw [NetExpr.constLogical] <;> simp [ih]

----
-- Sound Runs
----

open LexicalScopes Filter

mutual

/- The value of an expression that makes no call. -/
def FuncExpr.withoutCalls (env : Scopes) : FuncExpr → Option Verinum
| .const value => some value
| .signal net => (lookup env net.name).map (·.getD net.initial)
| .operator f parms => (FuncExpr.allWithoutCalls env parms).bind f
| .ternary cond t f signed => do
    let c ← cond.withoutCalls env
    if c.truth then t.withoutCalls env
    else if c.isDefined then f.withoutCalls env
    else do
      let v ← t.withoutCalls env
      let w ← f.withoutCalls env
      some (NetExpr.blended signed v w)
| .ufunc _ _ => none

/- The values of operands that make no call. -/
def FuncExpr.allWithoutCalls (env : Scopes) : List FuncExpr → Option (List Verinum)
| [] => some []
| parm :: parms => do
    let v ← parm.withoutCalls env
    let vals ← FuncExpr.allWithoutCalls env parms
    some (v :: vals)

end

/- What the compiler gets right when it meets it. -/
def Sound : Met → Prop
| .condition v => v.truth →
    v.isDefined = true ∧ (v.isNegative = true ∨ .v1 ∈ v.bits.take 63)
| .count v => v.isDefined = true → v.integer < 2 ^ 63
| .item statement => statement.isSome = true
| .returned val => val.isSome = true
| .left env cond => (cond.withoutCalls env).isSome = true

theorem condition_eq {v : Verinum} (hMet : Sound (.condition v)) : v.asLong ≠ 0#64 ↔ v.truth :=
  ⟨Verinum.truth_of_asLong, fun hTrue => (Verinum.asLong_ne_zero_iff v).mpr (hMet hTrue)⟩

/- The marker that an outcome leaves. -/
def Outcome.marker : Outcome → Option Nat
| .normal => none
| .disabled target => some target

section Simulations

variable (d : Design)

/- With enough steps the compiler finds the value. -/
def EvalSim (env : Scopes) (e : FuncExpr) (v : Verinum) : Prop :=
  ∀ maps, Mirrors maps env → ∀ᶠ steps in atTop,
    evalExpr d steps ⟨maps, none⟩ (env.length - 1) e = .ok (some v, none)

def EvalsSim (env : Scopes) (parms : List FuncExpr) (vals : List Verinum) : Prop :=
  ∀ maps, Mirrors maps env → ∀ᶠ steps in atTop,
    evalParms d steps ⟨maps, none⟩ (env.length - 1) parms = .ok (vals.map some, none)

def CallSim (func : Nat) (args : List Verinum) (v : Verinum) : Prop :=
  ∀ᶠ steps in atTop, evaluateFunction d steps func (args.map some) none = .ok (some v, none)

/- With enough steps the compiler gets to the same scopes, and
   the marker says how the statement has ended. -/
def ExecSim (env : Scopes) (statement : Option NetProc) (env' : Scopes) (out : Outcome) : Prop :=
  Follows env env' fun steps maps maps' cur =>
    evalOptional d steps ⟨maps, none⟩ cur statement = .ok (true, ⟨maps', out.marker⟩)

def ExecAllSim (env : Scopes) (list : List NetProc) (env' : Scopes) (out : Outcome) : Prop :=
  Follows env env' fun steps maps maps' cur =>
    blockLoop d steps ⟨maps, none⟩ cur list true = .ok (true, ⟨maps', out.marker⟩)

def RepeatsSim (env : Scopes) (statement : NetProc) (n : Nat) (env' : Scopes)
    (out : Outcome) : Prop :=
  ∀ count : Int, count.toNat = n → Follows env env' fun steps maps maps' cur =>
    repeatLoop d steps ⟨maps, none⟩ cur statement count true = .ok (true, ⟨maps', out.marker⟩)

/- The loop over the items ends with the chosen statement. -/
def PicksSim (env : Scopes) (type : CaseType) (v : Verinum) (old : Option NetProc)
    (items : List (Option FuncExpr × Option NetProc)) (chosen : Option NetProc) : Prop :=
  ∀ env' out, ExecSim d env chosen env' out → Follows env env' fun steps maps maps' cur =>
    itemLoop d steps ⟨maps, none⟩ cur type v old items = .ok (true, ⟨maps', out.marker⟩)

end Simulations

end EpicSim

----
-- Expressions
----

namespace EpicSim

open LexicalScopes Filter

section Expressions

variable {d : Design} {maps : ContextMaps} {env : Scopes}

/- A whole variable, whatever is being disabled. -/
theorem evalExpr_signal (hMirror : Mirrors maps env) {net : NetNet} {val : Option Verinum}
    (hLookup : lookup env net.name = some val) (steps : Nat) (marker : Option Nat) :
    evalExpr d (steps + 1) ⟨maps, marker⟩ (env.length - 1) (.signal net) =
      .ok (some (val.getD net.initial), marker) := by
  cases env with
  | nil => cases hLookup
  | cons s rest =>
    rcases hMirror.follow hLookup with ⟨k, hPlace, hFollow⟩
    have hEntry : ∃ entry, maps rest.length net.name = some entry := by
      rcases hMirror.innermost hPlace with ⟨hHere, w, hMap⟩ | ⟨_, hRef⟩
      · rw [hHere] at hMap
        exact ⟨_, hMap⟩
      · exact ⟨_, hRef⟩
    rcases hEntry with ⟨entry, hEntry⟩
    simp only [evalExpr, List.length_cons, Nat.add_sub_cancel, hEntry, hFollow]
    rfl

theorem allValues_map_some (vals : List Verinum) : allValues (vals.map some) = some vals := by
  induction vals with
  | nil => rfl
  | cons v vals ih =>
    rw [List.map_cons, allValues, ih]
    rfl

variable {steps cur : Nat} {marker : Option Nat}

theorem evalExpr_operator {f : List Verinum → Option Verinum} {parms : List FuncExpr}
    {vals : List Verinum} {v : Verinum} (hValue : f vals = some v)
    (hParms : evalParms d steps ⟨maps, marker⟩ cur parms = .ok (vals.map some, marker)) :
    evalExpr d (steps + 1) ⟨maps, marker⟩ cur (.operator f parms) = .ok (some v, marker) := by
  rw [evalExpr, hParms]
  show Except.ok ((allValues (vals.map some)).bind f, marker) = _
  rw [allValues_map_some, Option.bind_some, hValue]

theorem constLogical_true {c : Verinum} (hTrue : c.truth) : NetExpr.constLogical c.bits .v0 = .v1 :=
  (constLogical_eq _ _).trans (if_pos hTrue)

theorem constLogical_false {c : Verinum} (hFalse : ¬ c.truth) (hDefined : c.isDefined = true) :
    NetExpr.constLogical c.bits .v0 = .v0 :=
  ((constLogical_eq _ _).trans (if_neg hFalse)).trans (if_pos hDefined)

theorem constLogical_unknown {c : Verinum} (hFalse : ¬ c.truth)
    (hUndefined : ¬ c.isDefined = true) : NetExpr.constLogical c.bits .v0 = .vx :=
  ((constLogical_eq _ _).trans (if_neg hFalse)).trans (if_neg hUndefined)

/- The arm that a known condition takes. -/
theorem evalExpr_ternary {cond t f : FuncExpr} {signed : Bool} {c : Verinum}
    (hCond : evalExpr d steps ⟨maps, marker⟩ cur cond = .ok (some c, marker))
    {res : Except Halt (Option Verinum × Option Nat)}
    (hTrue : c.truth → evalExpr d steps ⟨maps, marker⟩ cur t = res)
    (hFalse : ¬ c.truth → c.isDefined = true → evalExpr d steps ⟨maps, marker⟩ cur f = res)
    (hKnown : c.truth ∨ c.isDefined = true) :
    evalExpr d (steps + 1) ⟨maps, marker⟩ cur (.ternary cond t f signed) = res := by
  rw [evalExpr, hCond]
  by_cases hTruth : c.truth
  · rw [← hTrue hTruth]
    simp only [Bind.bind, Except.bind, pointee, constLogical_true hTruth]
  · have hDefined := hKnown.resolve_left hTruth
    rw [← hFalse hTruth hDefined]
    simp only [Bind.bind, Except.bind, pointee, constLogical_false hTruth hDefined]

/- Both arms of an unknown condition are blended. -/
theorem evalExpr_blend {cond t f : FuncExpr} {signed : Bool} {c v w : Verinum}
    (hFalse : ¬ c.truth) (hUndefined : ¬ c.isDefined = true)
    (hCond : evalExpr d steps ⟨maps, marker⟩ cur cond = .ok (some c, marker))
    (hTrueArm : evalExpr d steps ⟨maps, marker⟩ cur t = .ok (some v, marker))
    (hFalseArm : evalExpr d steps ⟨maps, marker⟩ cur f = .ok (some w, marker)) :
    evalExpr d (steps + 1) ⟨maps, marker⟩ cur (.ternary cond t f signed) =
      .ok (some (NetExpr.blended signed v w), marker) := by
  rw [evalExpr, hCond]
  simp only [Bind.bind, Except.bind, pointee,
    constLogical_unknown hFalse hUndefined, hTrueArm, hFalseArm]

theorem evalParms_cons {parm : FuncExpr} {parms : List FuncExpr} {v : Verinum} {vals : List Verinum}
    (hParm : evalExpr d steps ⟨maps, marker⟩ cur parm = .ok (some v, marker))
    (hParms : evalParms d steps ⟨maps, marker⟩ cur parms = .ok (vals.map some, marker)) :
    evalParms d (steps + 1) ⟨maps, marker⟩ cur (parm :: parms) =
      .ok ((v :: vals).map some, marker) := by
  rw [evalParms, hParm]
  simp only [Bind.bind, Except.bind, hParms, List.map_cons]

mutual

/- An expression without calls has its value, whatever is being
   disabled. -/
theorem evalExpr_withoutCalls (hMirror : Mirrors maps env) (marker : Option Nat) :
    ∀ {e : FuncExpr} {v : Verinum}, e.withoutCalls env = some v →
      ∀ᶠ steps in atTop, evalExpr d steps ⟨maps, marker⟩ (env.length - 1) e = .ok (some v, marker)
| .const value, v, hValue => by
    cases hValue
    exact eventually_add 1 (fun _ _ => by rw [evalExpr]) (Eventually.of_forall fun _ => trivial)
| .signal net, v, hValue => by
    rcases Option.map_eq_some_iff.mp hValue with ⟨val, hLookup, rfl⟩
    exact eventually_add 1
      (fun n _ => evalExpr_signal hMirror hLookup n marker)
      (Eventually.of_forall fun _ => trivial)
| .operator f parms, v, hValue => by
    rcases Option.bind_eq_some_iff.mp hValue with ⟨vals, hParms, hF⟩
    exact eventually_add 1 (fun _ => evalExpr_operator hF)
      (evalParms_withoutCalls hMirror marker hParms)
| .ternary cond t f signed, v, hValue => by
    rcases Option.bind_eq_some_iff.mp hValue with ⟨c, hCond, hArms⟩
    have hCondSim := evalExpr_withoutCalls hMirror marker hCond
    split_ifs at hArms with hTruth hDefined
    · refine eventually_add 1 (fun _ h =>
        evalExpr_ternary h.1 (fun _ => h.2) (fun hNot => absurd hTruth hNot) (Or.inl hTruth))
        (hCondSim.and (evalExpr_withoutCalls hMirror marker hArms))
    · refine eventually_add 1 (fun _ h =>
        evalExpr_ternary h.1 (fun hTrue => absurd hTrue hTruth) (fun _ _ => h.2) (Or.inr hDefined))
        (hCondSim.and (evalExpr_withoutCalls hMirror marker hArms))
    · rcases Option.bind_eq_some_iff.mp hArms with ⟨a, hA, hRest⟩
      rcases Option.bind_eq_some_iff.mp hRest with ⟨b, hB, hV⟩
      cases hV
      exact eventually_add 1 (fun _ h =>
        evalExpr_blend hTruth hDefined h.1 h.2.1 h.2.2)
        (hCondSim.and
          ((evalExpr_withoutCalls hMirror marker hA).and (evalExpr_withoutCalls hMirror marker hB)))
| .ufunc _ _, v, hValue => by cases hValue

theorem evalParms_withoutCalls (hMirror : Mirrors maps env) (marker : Option Nat) :
    ∀ {parms : List FuncExpr} {vals : List Verinum},
      FuncExpr.allWithoutCalls env parms = some vals →
      ∀ᶠ steps in atTop,
        evalParms d steps ⟨maps, marker⟩ (env.length - 1) parms = .ok (vals.map some, marker)
| [], vals, hVals => by
    cases hVals
    exact eventually_add 1 (fun _ _ => by rw [evalParms]; rfl)
      (Eventually.of_forall fun _ => trivial)
| parm :: parms, vals, hVals => by
    rcases Option.bind_eq_some_iff.mp hVals with ⟨v, hParm, hRest⟩
    rcases Option.bind_eq_some_iff.mp hRest with ⟨rest, hParms, hEq⟩
    cases hEq
    exact eventually_add 1 (fun _ h => evalParms_cons h.1 h.2)
      ((evalExpr_withoutCalls hMirror marker hParm).and
        (evalParms_withoutCalls hMirror marker hParms))

end

end Expressions

----
-- Maps Of New Scopes
----

theorem findLocals_eq (scope : NetScope) (map : ContextMap) (n : String) :
    findLocals scope.signals_map map n =
      match scope.locals n with
      | some v => some (.value v)
      | none => map n := by
  unfold findLocals NetScope.locals
  induction scope.signals_map generalizing map with
  | nil => rfl
  | cons cur rest ih =>
    rw [List.foldl_cons, ih, List.any_cons]
    grind

theorem loadPorts_eq (ports : List NetNet) (args : List Verinum) (map : ContextMap) (n : String) :
    loadPorts ports (args.map some) map n =
      match NetFuncDef.inputs ports args n with
      | some v => some (.value v)
      | none => map n := by
  induction ports generalizing args map with
  | nil => rfl
  | cons pnet ports ih =>
    cases args with
    | nil => rfl
    | cons arg args =>
      rw [List.map_cons, loadPorts, ih, NetFuncDef.inputs, fixAssignValue_eq]
      grind

/- The first map of a function. -/
def functionMap (scope : NetScope) (ports : List NetNet) (args : List Verinum) : ContextMap :=
  findLocals scope.signals_map
    (loadPorts ports (args.map some)
      (Function.update (fun _ => none) scope.basename (some (.value none))))

theorem mirrors_frame (scope : NetScope) (ports : List NetNet) (args : List Verinum) :
    Mirrors
      (Function.update (fun _ _ => none) 0 (functionMap scope ports args))
      [NetFuncDef.frame scope ports args] := by
  refine ⟨fun n => ?_, trivial⟩
  rw [List.length_nil, Function.update_self]
  unfold functionMap NetFuncDef.frame
  rw [findLocals_eq, loadPorts_eq]
  cases scope.locals n with
  | some v => rfl
  | none =>
    cases NetFuncDef.inputs ports args n with
    | some v => rfl
    | none =>
      by_cases hName : n = scope.basename
      · simp [hName]
      · simp [hName, place]

end EpicSim

----
-- Statements
----

namespace EpicSim

open LexicalScopes Filter

section Statements

variable {d : Design} {env env₁ env' : Scopes} {out : Outcome}

theorem ExecSim.missing : ExecSim d env none env .normal := Follows.refl 1 fun _ _ _ => rfl

theorem ExecSim.empty {subscope : Option Nat} :
    ExecSim d env (some (.block subscope [])) env .normal := Follows.refl 2 fun _ _ _ => rfl

theorem ExecSim.stask : ExecSim d env (some .stask) env .normal := Follows.refl 2 fun _ _ _ => rfl

theorem ExecSim.disable {target : Nat} :
    ExecSim d env (some (.disable (some target))) env (.disabled target) :=
  Follows.refl 2 fun _ _ _ => rfl

variable {list : List NetProc} {v : Verinum} {type : CaseType}
  {expr : FuncExpr}
  {items : List (Option FuncExpr × Option NetProc)}
  {proc : NetProc} {target : Nat} {statement : NetProc}
  {cond : FuncExpr}

/- A block without a scope is its statements. -/
theorem ExecSim.block (hList : ExecAllSim d env list env' out) :
    ExecSim d env (some (.block none list)) env' out := by
  refine hList.later 2 fun n maps maps' cur h => ?_
  cases list with
  | nil =>
    cases n with
    | zero => cases h
    | succ n => exact h
  | cons proc list => exact h

/- The marker at the end of a scope. -/
theorem Outcome.marker_leave (out : Outcome) (scope : Nat) :
    (out.leave scope).marker =
      if out.marker = some scope then none else out.marker := by
  cases out with
  | normal => rfl
  | disabled target =>
    rw [Outcome.leave]
    by_cases hEq : target = scope
    · rw [if_pos hEq, hEq]
      exact (if_pos rfl).symm
    · rw [if_neg hEq]
      exact (if_neg fun h => hEq (Option.some.inj h)).symm

/- A block with a scope has a map of its own. -/
theorem ExecSim.scope {subscope : Nat} {s : Scope String (Option Verinum)} (hList : list ≠ [])
    (hInit : ExecSim d ((d.scope subscope).locals :: env) (d.scope subscope).var_init env₁ .normal)
    (hExec : ExecAllSim d env₁ list (s :: env') out) :
    ExecSim d env (some (.block (some subscope) list)) env' (out.leave subscope) := by
  intro maps hNe hMirror
  cases env with
  | nil => exact absurd rfl hNe
  | cons top rest =>
    have hEnter : Mirrors
        (Function.update maps (rest.length + 1)
          (findLocals (d.scope subscope).signals_map (references maps rest.length)))
        ((d.scope subscope).locals :: top :: rest) := by
      apply hMirror.enter
      intro n
      rw [findLocals_eq]
      cases (d.scope subscope).locals n <;> rfl
    rcases hInit _ (List.cons_ne_nil _ _) hEnter with ⟨hLen₁, maps₁, hMirror₁, hSteps₁⟩
    have hNe₁ := ne_nil_of_length hLen₁ (List.cons_ne_nil _ _)
    rcases hExec maps₁ hNe₁ hMirror₁ with ⟨hLen₂, maps₂, hMirror₂, hSteps₂⟩
    rw [List.length_cons] at hLen₁ hLen₂
    have hLen : env'.length = (top :: rest).length := by omega
    refine ⟨hLen, _, hMirror₂.leave (fun _ => none), ?_⟩
    refine eventually_add 2 (fun n h => ?_) (hSteps₁.and hSteps₂)
    rcases h with ⟨hInitStep, hLoopStep⟩
    have hCur : env₁.length - 1 = rest.length + 1 := by
      rw [List.length_cons] at hLen₁
      omega
    rw [hCur] at hLoopStep
    have hEmpty : list.isEmpty = false := by grind
    have hBlock : evalProc d (n + 1) ⟨maps, none⟩ rest.length
        (.block (some subscope) list) =
        .ok (true, ⟨Function.update maps₂ (rest.length + 1)
          (fun _ => none),
          if out.marker = some subscope then none
          else out.marker⟩) := by
      rw [evalProc, hEmpty, if_neg Bool.false_ne_true]
      simp only [List.length_cons, Nat.add_sub_cancel] at hInitStep
      simp only [Bind.bind, Except.bind, hInitStep]
      rw [show Outcome.normal.marker = none from rfl, hLoopStep]
    rw [hLen, Outcome.marker_leave]
    exact hBlock

theorem ExecSim.assign {lval : NetNet} {rval : FuncExpr} (hValue : EvalSim d env rval v)
    (hAssign : assign env lval.name (some (lval.stored v)) = some env') :
    ExecSim d env (some (.assign lval rval)) env' .normal := by
  intro maps hNe hMirror
  rcases lookup_of_assign hAssign with ⟨old, hLookup⟩
  cases env with
  | nil => cases hAssign
  | cons top rest =>
    rcases hMirror.follow hLookup with ⟨k, hPlace, hFollow⟩
    refine ⟨length_assign hAssign, _, (hMirror.write hAssign hPlace).1, ?_⟩
    refine eventually_add 2 (fun n h => ?_) (hValue maps hMirror)
    have hProc : evalProc d (n + 1) ⟨maps, none⟩
        ((top :: rest).length - 1) (.assign lval rval) =
        .ok (true, ⟨write maps k lval.name (some (lval.stored v)), none⟩) := by
      rw [evalProc, h]
      simp only [Bind.bind, Except.bind, List.length_cons,
        Nat.add_sub_cancel, hFollow, asserted, fixAssignValue_eq]
    exact hProc

/- The value of an expression before a run. -/
theorem cond_before {P : Nat → ContextMaps → ContextMaps → Nat → Prop}
    (h : Follows env env' P) (hCond : EvalSim d env expr v) :
    Follows env env' fun n maps maps' cur =>
      evalExpr d n ⟨maps, none⟩ cur expr = .ok (some v, none) ∧ P n maps maps' cur :=
  h.before (p := fun n maps cur => evalExpr d n ⟨maps, none⟩ cur expr = _) hCond

theorem cond_after {P : Nat → ContextMaps → ContextMaps → Nat → Prop}
    (h : Follows env env' P) (hCond : EvalSim d env' expr v) :
    Follows env env' fun n maps maps' cur =>
      P n maps maps' cur ∧ evalExpr d n ⟨maps', none⟩ cur expr = .ok (some v, none) :=
  h.after (p := fun n maps cur => evalExpr d n ⟨maps, none⟩ cur expr = _) hCond

theorem ExecSim.case {chosen : Option NetProc} (hExpr : EvalSim d env expr v)
    (hPick : PicksSim d env type v none items chosen) (hExec : ExecSim d env chosen env' out) :
    ExecSim d env (some (.case type expr items)) env' out := by
  refine (cond_before (hPick env' out hExec) hExpr).later 2 fun n maps maps' cur h => ?_
  rw [evalOptional, evalProc, h.1]
  exact h.2

theorem ExecSim.condit {if_ else_ : Option NetProc} (hExpr : EvalSim d env expr v)
    (hMet : Sound (.condition v))
    (hExec : ExecSim d env (if v.truth then if_ else else_) env' out) :
    ExecSim d env (some (.condit expr if_ else_)) env' out := by
  refine (cond_before hExec hExpr).later 2 fun n maps maps' cur h => ?_
  rw [evalOptional, evalProc, h.1, ← h.2]
  simp only [Bind.bind, Except.bind]
  by_cases hTruth : v.truth
  · rw [if_pos ((condition_eq hMet).mpr hTruth), if_pos hTruth]
  · rw [if_neg (mt (condition_eq hMet).mp hTruth), if_neg hTruth]

/- A statement that is there runs as such. -/
theorem ExecSim.runs {m : Option Nat} (h : ExecSim d env (some proc) env' out)
    (hMarker : out.marker = m) :
    Follows env env' fun n maps maps' cur =>
      evalProc d n ⟨maps, none⟩ cur proc = .ok (true, ⟨maps', m⟩) := by
  rw [← hMarker]
  exact h.sooner 1 fun _ _ _ _ h => h

theorem ExecAllSim.nil : ExecAllSim d env [] env .normal := Follows.refl 1 fun _ _ _ => rfl

theorem ExecAllSim.next (hProc : ExecSim d env (some proc) env₁ .normal)
    (hRest : ExecAllSim d env₁ list env' out) : ExecAllSim d env (proc :: list) env' out := by
  refine ((hProc.runs (m := none) rfl).seq hRest).later 1 ?_
  rintro n maps maps' cur ⟨maps₁, hHead, hTail⟩
  rw [blockLoop, hHead, ← hTail]
  rfl

theorem ExecAllSim.left (hProc : ExecSim d env (some proc) env' (.disabled target)) :
    ExecAllSim d env (proc :: list) env' (.disabled target) := by
  refine (hProc.runs (m := some target) rfl).later 1 fun n maps maps' cur h => ?_
  rw [blockLoop, h]
  rfl

/- The items of a case. -/
theorem PicksSim.default {old : Option NetProc} : PicksSim d env type v old [] old :=
  fun _ _ hExec => hExec.later 1 fun _ _ _ _ h => h

theorem PicksSim.unguarded {old item chosen : Option NetProc}
    (hRest : PicksSim d env type v item items chosen) :
    PicksSim d env type v old ((none, item) :: items) chosen :=
  fun env' out hExec => (hRest env' out hExec).later 1 fun _ _ _ _ h => h

theorem PicksSim.chosen {v w : Verinum} {old item : Option NetProc} {guard : FuncExpr}
    (hGuard : EvalSim d env guard w) (hMatch : type.Matches v w) (hMet : Sound (.item item)) :
    PicksSim d env type v old ((some guard, item) :: items) item := by
  intro env' out hExec
  rcases Option.isSome_iff_exists.mp hMet with ⟨proc, rfl⟩
  refine (cond_before (hExec.runs (m := out.marker) rfl) hGuard).later 1
    fun n maps maps' cur h => ?_
  have hLen : w.len = v.len := hMatch.length_eq.symm
  have hLoop : type.matchLoop v.bits w.bits = true := (type.matchLoop_iff hLen).mpr hMatch
  rw [itemLoop, h.1]
  simp only [Bind.bind, Except.bind, hLen, ne_eq, not_true,
    if_false, hLoop, if_true, pointee, h.2]

theorem PicksSim.passed {v w : Verinum} {old item chosen : Option NetProc}
    {guard : FuncExpr} (hGuard : EvalSim d env guard w)
    (hLen : w.len = v.len) (hOther : ¬ type.Matches v w)
    (hRest : PicksSim d env type v old items chosen) :
    PicksSim d env type v old ((some guard, item) :: items) chosen := by
  intro env' out hExec
  refine (cond_before (hRest env' out hExec) hGuard).later 1 fun n maps maps' cur h => ?_
  have hLoop : type.matchLoop v.bits w.bits = false :=
    Bool.eq_false_iff.mpr (mt (type.matchLoop_iff hLen).mp hOther)
  rw [itemLoop, h.1]
  simp only [Bind.bind, Except.bind, hLen, ne_eq, not_true,
    if_false, hLoop, Bool.false_eq_true, h.2]

/- A count that has run out. -/
theorem RepeatsSim.zero {statement : NetProc} : RepeatsSim d env statement 0 env .normal := by
  refine fun count hCount => Follows.refl 1 fun n maps cur => ?_
  rw [repeatLoop, decide_eq_false (by omega)]
  rfl

theorem RepeatsSim.again {n : Nat} (hProc : ExecSim d env (some statement) env₁ .normal)
    (hRest : RepeatsSim d env₁ statement n env' out) :
    RepeatsSim d env statement (n + 1) env' out := by
  intro count hCount
  refine ((hProc.runs (m := none) rfl).seq (hRest (count - 1) (by omega))).later 1 ?_
  rintro k maps maps' cur ⟨maps₁, hHead, hTail⟩
  rw [repeatLoop, decide_eq_true (by omega), ← hTail]
  simp only [Bool.true_and, beq_self_eq_true, if_true, Bind.bind, Except.bind, hHead]

theorem RepeatsSim.left {n target : Nat}
    (hProc : ExecSim d env (some statement) env' (.disabled target)) :
    RepeatsSim d env statement (n + 1) env' (.disabled target) := by
  intro count hCount
  refine Follows.later 2 (hProc.sooner 2 fun _ _ _ _ h => h) fun k maps maps' cur h => ?_
  have hHead : evalProc d (k + 1) ⟨maps, none⟩ cur statement =
    .ok (true, ⟨maps', some target⟩) := h
  rw [repeatLoop, decide_eq_true (by omega)]
  simp only [Bind.bind, Except.bind, hHead]
  rw [repeatLoop, show (some target == none) = false from rfl,
    Bool.and_false]
  rfl

theorem ExecSim.repeat (hExpr : EvalSim d env expr v) (hMet : Sound (.count v))
    (hTimes : RepeatsSim d env statement v.repeatCount env' out) :
    ExecSim d env (some (.repeat expr statement)) env' out := by
  refine (cond_before (hTimes v.asLong.toInt (Verinum.asLong_count hMet)) hExpr).later 2
    fun n maps maps' cur h => ?_
  rw [evalOptional, evalProc, h.1]
  exact h.2

/- The word of a condition that is false. -/
theorem asLong_of_false (hFalse : ¬ v.truth) : v.asLong = 0#64 :=
  not_not.mp (mt Verinum.truth_of_asLong hFalse)

/- A statement that is a loop. -/
theorem execSim_loop {proc : NetProc}
    {loop : Nat → FuncState → Nat → Except Halt (Bool × FuncState)}
    (hLoop : ∀ n st cur, evalProc d (n + 1) st cur proc = loop n st cur) :
    ExecSim d env (some proc) env' out ↔
      Follows env env' fun n maps maps' cur =>
        loop n ⟨maps, none⟩ cur = .ok (true, ⟨maps', out.marker⟩) :=
  ⟨fun h => h.sooner 2 fun n _ _ cur h => (hLoop n _ cur).symm.trans h,
    fun h => h.later 2 fun n _ _ cur h => (hLoop n _ cur).trans h⟩

theorem execSim_while :
    ExecSim d env (some (.while cond proc)) env' out ↔
      Follows env env' fun n maps maps' cur =>
        whileLoop d n ⟨maps, none⟩ cur cond proc true = .ok (true, ⟨maps', out.marker⟩) :=
  execSim_loop fun _ _ _ => rfl

theorem execSim_doWhile :
    ExecSim d env (some (.doWhile cond proc)) env' out ↔
      Follows env env' fun n maps maps' cur =>
        doWhileLoop d n ⟨maps, none⟩ cur cond proc true = .ok (true, ⟨maps', out.marker⟩) :=
  execSim_loop fun _ _ _ => rfl

theorem execSim_forever :
    ExecSim d env (some (.forever statement)) env' out ↔
      Follows env env' fun n maps maps' cur =>
        foreverLoop d n ⟨maps, none⟩ cur statement true = .ok (true, ⟨maps', out.marker⟩) :=
  execSim_loop fun _ _ _ => rfl

theorem ExecSim.while_done (hCond : EvalSim d env cond v) (hFalse : ¬ v.truth) :
    ExecSim d env (some (.while cond proc)) env .normal := by
  have hStay : Follows env env fun _ maps maps' _ => maps' = maps :=
    Follows.refl 0 fun _ _ _ => rfl
  rw [execSim_while]
  refine (cond_before hStay hCond).later 1 ?_
  rintro n maps maps' cur ⟨hCond, rfl⟩
  rw [whileLoop]
  simp only [Bool.true_and, beq_self_eq_true, if_true, Bind.bind,
    Except.bind, hCond, asLong_of_false hFalse]
  rfl

theorem ExecSim.while_again (hCond : EvalSim d env cond v) (hMet : Sound (.condition v))
    (hTrue : v.truth) (hProc : ExecSim d env (some proc) env₁ .normal)
    (hRest : ExecSim d env₁ (some (.while cond proc)) env' out) :
    ExecSim d env (some (.while cond proc)) env' out := by
  rw [execSim_while] at hRest ⊢
  refine ((cond_before (hProc.runs (m := none) rfl) hCond).seq hRest).later 1 ?_
  rintro n maps maps' cur ⟨maps₁, ⟨hCond, hHead⟩, hTail⟩
  rw [whileLoop]
  simp only [Bool.true_and, beq_self_eq_true, if_true, Bind.bind, Except.bind,
    hCond, if_neg ((condition_eq hMet).mpr hTrue), hHead, hTail]

theorem ExecSim.while_left (hCond : EvalSim d env cond v) (hMet : Sound (.condition v))
    (hTrue : v.truth) (hProc : ExecSim d env (some proc) env' (.disabled target)) :
    ExecSim d env (some (.while cond proc)) env' (.disabled target) := by
  rw [execSim_while]
  refine Follows.later 2 ((cond_before (hProc.runs (m := some target) rfl) hCond).sooner 1
    fun _ _ _ _ h => h) fun n maps maps' cur h => ?_
  rw [whileLoop]
  simp only [Bind.bind,
    Except.bind, h.1, if_neg ((condition_eq hMet).mpr hTrue), h.2]
  rfl

theorem ExecSim.doWhile_done (hProc : ExecSim d env (some proc) env' .normal)
    (hCond : EvalSim d env' cond v) (hFalse : ¬ v.truth) :
    ExecSim d env (some (.doWhile cond proc)) env' .normal := by
  rw [execSim_doWhile]
  refine (cond_after (hProc.runs (m := none) rfl) hCond).later 1 fun n maps maps' cur h => ?_
  rw [doWhileLoop]
  simp only [ne_eq, not_true, if_false, Bind.bind, Except.bind,
    h.1, if_true, h.2, asLong_of_false hFalse]
  rfl

theorem ExecSim.doWhile_again (hProc : ExecSim d env (some proc) env₁ .normal)
    (hCond : EvalSim d env₁ cond v) (hMet : Sound (.condition v)) (hTrue : v.truth)
    (hRest : ExecSim d env₁ (some (.doWhile cond proc)) env' out) :
    ExecSim d env (some (.doWhile cond proc)) env' out := by
  rw [execSim_doWhile] at hRest ⊢
  refine ((cond_after (hProc.runs (m := none) rfl) hCond).seq hRest).later 1 ?_
  rintro n maps maps' cur ⟨maps₁, ⟨hHead, hCond⟩, hTail⟩
  rw [doWhileLoop]
  simp only [ne_eq, not_true, if_false, Bind.bind, Except.bind, hHead,
    if_true, hCond, if_neg ((condition_eq hMet).mpr hTrue), hTail]

/- The condition is evaluated although the loop is left. -/
theorem ExecSim.doWhile_left (hProc : ExecSim d env (some proc) env' (.disabled target))
    (hMet : Sound (.left env' cond)) :
    ExecSim d env (some (.doWhile cond proc)) env' (.disabled target) := by
  rcases Option.isSome_iff_exists.mp hMet with ⟨v, hValue⟩
  have hRuns := (hProc.runs (m := some target) rfl).after
    (p := fun n maps cur => evalExpr d n ⟨maps, some target⟩ cur cond = .ok (some v, some target))
    fun maps hMirror => evalExpr_withoutCalls hMirror (some target) hValue
  rw [execSim_doWhile]
  refine Follows.later 2 (hRuns.sooner 1 fun _ _ _ _ h => h) fun n maps maps' cur h => ?_
  rw [doWhileLoop]
  simp only [ne_eq, not_true, if_false, Bind.bind, Except.bind, h.1, if_true, h.2]
  split_ifs
  · rfl
  · rfl

theorem ExecSim.forever_again (hProc : ExecSim d env (some statement) env₁ .normal)
    (hRest : ExecSim d env₁ (some (.forever statement)) env' out) :
    ExecSim d env (some (.forever statement)) env' out := by
  rw [execSim_forever] at hRest ⊢
  refine ((hProc.runs (m := none) rfl).seq hRest).later 1 ?_
  rintro n maps maps' cur ⟨maps₁, hHead, hTail⟩
  rw [foreverLoop]
  simp only [Bool.true_and, beq_self_eq_true, if_true, Bind.bind, Except.bind, hHead, hTail]

theorem ExecSim.forever_left (hProc : ExecSim d env (some statement) env' (.disabled target)) :
    ExecSim d env (some (.forever statement)) env' (.disabled target) := by
  rw [execSim_forever]
  refine Follows.later 2 ((hProc.runs (m := some target) rfl).sooner 1 fun _ _ _ _ h => h)
    fun n maps maps' cur h => ?_
  rw [foreverLoop]
  simp only [h]
  rfl

/- A call has maps of its own, and clears the marker. -/
theorem CallSim.returns {func : Nat} {args : List Verinum} {defn : NetFuncDef}
    {proc : NetProc} {val : Option Verinum} (hDef : d.func_def func = some defn)
    (hPorts : defn.ports.length = args.length)
    (hInit : ExecSim d
      [NetFuncDef.frame (d.scope func) defn.ports args]
      (d.scope func).var_init env .normal)
    (hProc : defn.proc = some proc) (hExec : ExecSim d env (some proc) env' out)
    (hOut : out.leave func = .normal) (hResult : lookup env' (d.scope func).basename = some val)
    (hMet : Sound (.returned val)) : CallSim d func args (val.getD defn.result_sig.initial) := by
  rcases Option.isSome_iff_exists.mp hMet with ⟨v, rfl⟩
  have hStart := mirrors_frame (d.scope func) defn.ports args
  rcases hInit _ (List.cons_ne_nil _ _) hStart with ⟨hLen₁, maps₁, hMirror₁, hSteps₁⟩
  have hNe₁ := ne_nil_of_length hLen₁ (List.cons_ne_nil _ _)
  rcases hExec maps₁ hNe₁ hMirror₁ with ⟨hLen₂, maps₂, hMirror₂, hSteps₂⟩
  have hZero : env.length - 1 = 0 := by rw [hLen₁]; rfl
  rw [hZero] at hSteps₂
  have hValue : maps₂ 0 (d.scope func).basename = some (.value (some v)) := by
    rcases Mirrors.place_of_lookup hResult with ⟨k, hPlace⟩
    rcases hMirror₂.at_place hPlace with ⟨w, hW, hMap⟩
    have hLt := place_lt hPlace
    grind
  have hMarker : out.marker = none ∨ out.marker = some func := by
    have hLeave := out.marker_leave func
    rw [hOut] at hLeave
    by_cases hEq : out.marker = some func
    · exact Or.inr hEq
    · rw [if_neg hEq] at hLeave
      exact Or.inl hLeave.symm
  refine eventually_add 1 (fun n h => ?_) (hSteps₁.and hSteps₂)
  have hInitStep : evalOptional d n
      ⟨Function.update (fun _ _ => none) 0 (functionMap (d.scope func) defn.ports args), none⟩ 0
      (d.scope func).var_init = .ok (true, ⟨maps₁, none⟩) := h.1
  have hPass : ¬ (out.marker ≠ none ∧ out.marker ≠ some func) := by
    rintro ⟨hA, hB⟩
    exact hMarker.elim hA hB
  unfold functionMap at hInitStep
  rw [evaluateFunction, hDef]
  simp only [asserted, Bind.bind, Except.bind, List.length_map, hPorts, ne_eq, hInitStep, hProc,
    h.2, hValue]
  rw [if_neg hPass]
  rfl

/- The expressions. -/
theorem EvalSim.const {value : Verinum} : EvalSim d env (.const value) value :=
  fun _ _ => eventually_add 1 (fun _ _ => rfl) (Eventually.of_forall fun _ => trivial)

theorem EvalSim.signal {net : NetNet} {val : Option Verinum}
    (hLookup : lookup env net.name = some val) :
    EvalSim d env (.signal net) (val.getD net.initial) :=
  fun _ hMirror => eventually_add 1
    (fun n _ => evalExpr_signal hMirror hLookup n none)
    (Eventually.of_forall fun _ => trivial)

theorem EvalSim.ufunc {func : Nat} {parms : List FuncExpr} {args : List Verinum}
    (hParms : EvalsSim d env parms args) (hCall : CallSim d func args v) :
    EvalSim d env (.ufunc func parms) v := by
  intro maps hMirror
  refine eventually_add 1 (fun n h => ?_) ((hParms maps hMirror).and hCall)
  rw [evalExpr, h.1]
  exact h.2

end Statements

end EpicSim

----
-- Runs
----

namespace EpicSim

open LexicalScopes Filter

variable {d : Design}

mutual

/- Every sound evaluation is followed, by induction on it. -/
theorem evalSim {env : Scopes} {e : FuncExpr} {v : Verinum} :
    Eval d Sound env e v → EvalSim d env e v
| .const => EvalSim.const
| .signal hLookup => EvalSim.signal hLookup
| .operator hParms hValue => fun maps hMirror =>
  eventually_add 1 (fun _ => evalExpr_operator hValue) (evalsSim hParms maps hMirror)
| .ternary_true hCond hTrue hValue => fun maps hMirror =>
  eventually_add 1
    (fun _ h => evalExpr_ternary h.1 (fun _ => h.2) (fun hNot => absurd hTrue hNot) (Or.inl hTrue))
    ((evalSim hCond maps hMirror).and (evalSim hValue maps hMirror))
| .ternary_false hCond hFalse hDefined hValue =>
  fun maps hMirror => eventually_add 1
    (fun _ h => evalExpr_ternary h.1
      (fun hTrue => absurd hTrue hFalse) (fun _ _ => h.2)
      (Or.inr hDefined))
    ((evalSim hCond maps hMirror).and (evalSim hValue maps hMirror))
| .ternary_blend hCond hFalse hUndefined hTrueArm hFalseArm =>
  fun maps hMirror => eventually_add 1
    (fun _ h => evalExpr_blend hFalse hUndefined h.1 h.2.1 h.2.2)
    ((evalSim hCond maps hMirror).and
      ((evalSim hTrueArm maps hMirror).and (evalSim hFalseArm maps hMirror)))
| .ufunc hParms hCall => EvalSim.ufunc (evalsSim hParms) (callSim hCall)

theorem evalsSim {env : Scopes} {parms : List FuncExpr} {vals : List Verinum} :
    Evals d Sound env parms vals → EvalsSim d env parms vals
| .nil => fun _ _ => eventually_add 1 (fun _ _ => rfl)
    (Eventually.of_forall fun _ => trivial)
| .cons hParm hParms => fun maps hMirror =>
  eventually_add 1 (fun _ h => evalParms_cons h.1 h.2)
    ((evalSim hParm maps hMirror).and (evalsSim hParms maps hMirror))

theorem callSim {func : Nat} {args : List Verinum} {v : Verinum} :
    Call d Sound func args v → CallSim d func args v
| .returns hDef hPorts hInit hProc hExec hOut hResult hMet =>
  CallSim.returns hDef hPorts (execSim hInit) hProc (execSim hExec) hOut hResult hMet

theorem execSim {env env' : Scopes} {statement : Option NetProc} {out : Outcome} :
    Exec d Sound env statement env' out → ExecSim d env statement env' out
| .missing => ExecSim.missing
| .empty => ExecSim.empty
| .block hList => ExecSim.block (execAllSim hList)
| .scope hList hInit hExec => ExecSim.scope hList (execSim hInit) (execAllSim hExec)
| .case hExpr hPick hExec => ExecSim.case (evalSim hExpr) (picksSim hPick) (execSim hExec)
| .condit hExpr hMet hExec => ExecSim.condit (evalSim hExpr) hMet (execSim hExec)
| .disable => ExecSim.disable
| .doWhile_done hProc hCond _ hFalse => ExecSim.doWhile_done (execSim hProc) (evalSim hCond) hFalse
| .doWhile_again hProc hCond hMet hTrue hRest =>
  ExecSim.doWhile_again (execSim hProc) (evalSim hCond) hMet hTrue (execSim hRest)
| .doWhile_left hProc hMet => ExecSim.doWhile_left (execSim hProc) hMet
| .forever_again hProc hRest => ExecSim.forever_again (execSim hProc) (execSim hRest)
| .forever_left hProc => ExecSim.forever_left (execSim hProc)
| .repeat hExpr hMet hTimes => ExecSim.repeat (evalSim hExpr) hMet (repeatsSim hTimes)
| .while_done hCond _ hFalse => ExecSim.while_done (evalSim hCond) hFalse
| .while_again hCond hMet hTrue hProc hRest =>
  ExecSim.while_again (evalSim hCond) hMet hTrue (execSim hProc) (execSim hRest)
| .while_left hCond hMet hTrue hProc =>
  ExecSim.while_left (evalSim hCond) hMet hTrue (execSim hProc)
| .assign hValue hAssign => ExecSim.assign (evalSim hValue) hAssign
| .stask => ExecSim.stask

theorem execAllSim {env env' : Scopes} {list : List NetProc} {out : Outcome} :
    ExecAll d Sound env list env' out → ExecAllSim d env list env' out
| .nil => ExecAllSim.nil
| .next hProc hRest => ExecAllSim.next (execSim hProc) (execAllSim hRest)
| .left hProc => ExecAllSim.left (execSim hProc)

theorem picksSim {env : Scopes} {type : CaseType} {v : Verinum} {old chosen : Option NetProc}
    {items : List (Option FuncExpr × Option NetProc)} :
    Picks d Sound env type v old items chosen → PicksSim d env type v old items chosen
| .default => PicksSim.default
| .unguarded hRest => PicksSim.unguarded (picksSim hRest)
| .chosen hGuard hMatch hMet => PicksSim.chosen (evalSim hGuard) hMatch hMet
| .passed hGuard hLen hOther hRest => PicksSim.passed (evalSim hGuard) hLen hOther (picksSim hRest)

theorem repeatsSim {env env' : Scopes} {statement : NetProc} {n : Nat} {out : Outcome} :
    Repeats d Sound env statement n env' out → RepeatsSim d env statement n env' out
| .zero => RepeatsSim.zero
| .again hProc hRest => RepeatsSim.again (execSim hProc) (repeatsSim hRest)
| .left hProc => RepeatsSim.left (execSim hProc)

end

/-
  A constant function whose run is sound returns what it means,
  with enough steps, and nothing is being disabled then.
-/
theorem constant_function_exact {func : Nat} {args : List Verinum} {v : Verinum}
    (hCall : Call d Sound func args v) :
    ∃ enough, ∀ steps, enough ≤ steps →
      evaluateFunction d steps func (args.map some) none = .ok (some v, none) :=
  eventually_atTop.mp (callSim hCall)

/- A number of four bits. -/
def nibble (n : Nat) : Verinum :=
  (Bits.ofInt 4 n).toVerinum false

/- A variable of four bits. -/
def nibbleNet (name : String) : NetNet where
  name := name
  vector_width := 4
  get_signed := false
  data_type := .logic

/- A named block with a variable of its own, which it leaves
   before its end. -/
def leavingBlock : Design where
  scope := fun scope =>
    if scope = 0 then ⟨"f", [], none⟩
    else ⟨"b", [(nibbleNet "x", false)], none⟩
  func_def := fun _ => some
    { result_sig := nibbleNet "f"
      ports := []
      proc := some (.block (some 1)
        [.assign (nibbleNet "x") (.const (nibble 5)),
          .assign (nibbleNet "f") (.signal (nibbleNet "x")),
          .disable (some 1),
          .assign (nibbleNet "f") (.const (nibble 0))]) }

theorem constant_function_exact_block :
    ∃ enough, ∀ steps, enough ≤ steps →
      evaluateFunction leavingBlock steps 0 [] none = .ok (some (nibble 5), none) := by
  have hAll : ∃ s env', ExecAll leavingBlock Sound
      [(leavingBlock.scope 1).locals, NetFuncDef.frame (leavingBlock.scope 0) [] []]
      [.assign (nibbleNet "x") (.const (nibble 5)),
        .assign (nibbleNet "f") (.signal (nibbleNet "x")),
        .disable (some 1), .assign (nibbleNet "f") (.const (nibble 0))]
      (s :: env') (.disabled 1) ∧ lookup env' "f" = some (some (nibble 5)) :=
    ⟨_, _, .next (.assign .const rfl) (.next (.assign (.signal rfl) rfl) (.left .disable)), rfl⟩
  rcases hAll with ⟨s, env', hAll, hResult⟩
  have hCall : Call leavingBlock Sound 0 [] (nibble 5) :=
    @Call.returns _ _ 0 [] _ _ _ _ _ (some (nibble 5)) rfl rfl
      .missing rfl (.scope (List.cons_ne_nil _ _) .missing hAll)
      rfl hResult rfl
  exact constant_function_exact hCall

/- Two bits of which one is unknown. -/
def oneUnknown : Verinum := Bits.toVerinum false [.vx, .v1]

/- A loop whose condition has an unknown bit and a 1. -/
def unknownLoop : Design where
  scope := fun _ => ⟨"f", [(nibbleNet "v", false)], none⟩
  func_def := fun _ => some
    { result_sig := nibbleNet "f"
      ports := []
      proc := some (.block none
        [.assign (nibbleNet "f") (.const (nibble 1)),
          .assign (nibbleNet "v") (.const oneUnknown),
          .while (.signal (nibbleNet "v"))
            (.block none
              [.assign (nibbleNet "f") (.const (nibble 3)),
                .assign (nibbleNet "v") (.const (nibble 0))])]) }

theorem unknown_bit_ends_loop :
    Call unknownLoop (fun _ => True) 0 [] (nibble 3) ∧
      ∀ steps, evaluateFunction unknownLoop (steps + 12) 0 [] none =
        .ok (some (nibble 1), none) := by
  constructor
  · have hAll : ∃ env', ExecAll unknownLoop (fun _ => True)
        [NetFuncDef.frame (unknownLoop.scope 0) [] []]
        [.assign (nibbleNet "f") (.const (nibble 1)),
          .assign (nibbleNet "v") (.const oneUnknown),
          .while (.signal (nibbleNet "v"))
            (.block none
              [.assign (nibbleNet "f") (.const (nibble 3)),
                .assign (nibbleNet "v") (.const (nibble 0))])]
        env' .normal ∧ lookup env' "f" = some (some (nibble 3)) :=
      ⟨_, .next (.assign .const rfl) (.next (.assign .const rfl)
        (.next (.while_again (.signal rfl) trivial (by decide)
          (.block (.next (.assign .const rfl) (.next (.assign .const rfl) .nil)))
          (.while_done (.signal rfl) trivial (by decide))) .nil)), rfl⟩
    rcases hAll with ⟨env', hAll, hResult⟩
    exact .returns rfl rfl .missing rfl (.block hAll) rfl hResult
      trivial
  · intro steps
    rfl
end EpicSim
