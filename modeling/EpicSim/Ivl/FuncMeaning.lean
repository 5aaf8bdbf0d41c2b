import EpicSim.Ivl.NetProc

/-
  What a constant function means.

  A big-step semantics over a stack of scopes: a condition is
  true if some bit is 1, a disable leaves everything up to the
  end of its scope, a block with a scope starts with new
  variables without values, and a call has scopes of its own.
  Every rule names what its step meets, so that runs can be
  asked to meet only some things.
-/

----
-- Values
----

namespace EpicSim

namespace Verinum

open VerinumV

/- Some bit is 1. -/
def truth (v : Verinum) : Prop := v1 ∈ v.bits

instance (v : Verinum) : Decidable v.truth :=
  inferInstanceAs (Decidable (_ ∈ _))

/- How often a statement is repeated. -/
def repeatCount (v : Verinum) : Nat :=
  if v.isDefined then v.integer.toNat else 0

/- The bit that a value is extended with: the sign of a signed
   value, an unknown top bit of one without a length. -/
def extension (v : Verinum) : VerinumV :=
  match v.bits.getLast? with
  | none => v0
  | some top =>
    if v.has_sign || v.is_single then top
    else if !v.has_len && (top == vx || top == vz) then top
    else v0

end Verinum

/- What a variable holds after an assignment: the value at the
   width and with the sign of the variable. -/
def NetNet.stored (lhs : NetNet) (v : Verinum) : Verinum where
  bits := v.bits.take lhs.vector_width ++ List.replicate (lhs.vector_width - v.len) v.extension
  has_len := v.has_len || decide (lhs.vector_width < v.len)
  has_sign := lhs.get_signed
  is_single := v.is_single && decide (v.len = lhs.vector_width)

/- A bit of a case value and one of a guard are alike, or one
   of them is not cared for. -/
def CaseType.Alike (type : CaseType) (a b : VerinumV) : Prop :=
  match type with
  | .eq => a = b
  | .eqz => a = b ∨ a = .vz ∨ b = .vz
  | .eqx => a = b ∨ a = .vz ∨ b = .vz ∨ a = .vx ∨ b = .vx

/- A guard matches the case value. -/
def CaseType.Matches (type : CaseType) (v guard : Verinum) : Prop :=
  List.Forall₂ type.Alike v.bits guard.bits

----
-- Scopes
----

open LexicalScopes

/- The open scopes of a function, the innermost first. -/
abbrev Scopes := List (Scope String (Option Verinum))

/- The variables that a scope declares, without values. -/
def NetScope.locals (scope : NetScope) : Scope String (Option Verinum) :=
  fun n =>
    if scope.signals_map.any (fun cur =>
        !cur.2 && cur.1.name == n) then
      some none
    else none

/- The input ports with their values. -/
def NetFuncDef.inputs : List NetNet → List Verinum → Scope String (Option Verinum)
| pnet :: ports, arg :: args, n =>
  match inputs ports args n with
  | some v => some v
  | none =>
    if n = pnet.name then some (some (pnet.stored arg))
    else none
| _, _, _ => none

/- The variables that a function starts with. -/
def NetFuncDef.frame (scope : NetScope) (ports : List NetNet)
    (args : List Verinum) : Scope String (Option Verinum) :=
  fun n =>
    match scope.locals n with
    | some v => some v
    | none =>
      match inputs ports args n with
      | some v => some v
      | none => if n = scope.basename then some none else none

----
-- Runs
----

/- How a statement ends: after its last step, or on the way to
   the end of a scope. -/
inductive Outcome where
| normal
| disabled (scope : Nat)
deriving DecidableEq

/- The outcome at the end of a scope. -/
def Outcome.leave (scope : Nat) : Outcome → Outcome
| .normal => .normal
| .disabled target => if target = scope then .normal else .disabled target

/- What the steps of a run meet: the value of a condition or of
   a count, the statement of a chosen item, what a function has
   returned, and the condition of a loop left by a disable. -/
inductive Met where
| condition (value : Verinum)
| count (value : Verinum)
| item (statement : Option NetProc)
| returned (value : Option Verinum)
| left (scopes : Scopes) (cond : FuncExpr)

mutual

variable (d : Design) (ok : Met → Prop)

/- The value of an expression. -/
inductive Eval : Scopes → FuncExpr → Verinum → Prop where
| const
    {env : Scopes} {value : Verinum} :
    Eval env (.const value) value
| signal
    {env : Scopes} {net : NetNet} {val : Option Verinum}
    (hLookup : lookup env net.name = some val) :
    Eval env (.signal net) (val.getD net.initial)
| operator
    {env : Scopes} {f : List Verinum → Option Verinum}
    {parms : List FuncExpr} {vals : List Verinum} {v : Verinum} (hParms : Evals env parms vals)
    (hValue : f vals = some v) :
    Eval env (.operator f parms) v
| ternary_true
    {env : Scopes} {cond t f : FuncExpr} {signed : Bool}
    {c v : Verinum} (hCond : Eval env cond c) (hTrue : c.truth)
    (hValue : Eval env t v) :
    Eval env (.ternary cond t f signed) v
| ternary_false
    {env : Scopes} {cond t f : FuncExpr} {signed : Bool}
    {c v : Verinum} (hCond : Eval env cond c) (hFalse : ¬ c.truth) (hDefined : c.isDefined = true)
    (hValue : Eval env f v) :
    Eval env (.ternary cond t f signed) v
| ternary_blend
    {env : Scopes} {cond t f : FuncExpr} {signed : Bool} {c v w : Verinum} (hCond : Eval env cond c)
    (hFalse : ¬ c.truth) (hUndefined : ¬ c.isDefined = true) (hTrueArm : Eval env t v)
    (hFalseArm : Eval env f w) :
    Eval env (.ternary cond t f signed) (NetExpr.blended signed v w)
| ufunc
    {env : Scopes} {func : Nat} {parms : List FuncExpr}
    {args : List Verinum} {v : Verinum} (hParms : Evals env parms args)
    (hCall : Call func args v) :
    Eval env (.ufunc func parms) v

/- The values of operands. -/
inductive Evals : Scopes → List FuncExpr → List Verinum → Prop where
| nil {env : Scopes} : Evals env [] []
| cons
    {env : Scopes} {parm : FuncExpr} {parms : List FuncExpr}
    {v : Verinum} {vals : List Verinum} (hParm : Eval env parm v)
    (hParms : Evals env parms vals) :
    Evals env (parm :: parms) (v :: vals)

/- What a function returns: the variable of its name, when its
   statement has ended or has disabled the function. -/
inductive Call : Nat → List Verinum → Verinum → Prop where
| returns
    {func : Nat} {args : List Verinum} {defn : NetFuncDef}
    {proc : NetProc} {env env' : Scopes} {out : Outcome}
    {val : Option Verinum} (hDef : d.func_def func = some defn)
    (hPorts : defn.ports.length = args.length)
    (hInit : Exec
      [NetFuncDef.frame (d.scope func) defn.ports args]
      (d.scope func).var_init env .normal)
    (hProc : defn.proc = some proc) (hExec : Exec env (some proc) env' out)
    (hOut : out.leave func = .normal) (hResult : lookup env' (d.scope func).basename = some val)
    (hMet : ok (.returned val)) :
    Call func args (val.getD defn.result_sig.initial)

/- A statement, which may be missing. -/
inductive Exec :
    Scopes → Option NetProc → Scopes → Outcome → Prop where
| missing {env : Scopes} : Exec env none env .normal
| empty
    {env : Scopes} {subscope : Option Nat} :
    Exec env (some (.block subscope [])) env .normal
| block
    {env env' : Scopes} {list : List NetProc} {out : Outcome}
    (hList : ExecAll env list env' out) :
    Exec env (some (.block none list)) env' out
| scope
    {env env₁ env' : Scopes} {subscope : Nat} {s : Scope String (Option Verinum)}
    {list : List NetProc} {out : Outcome} (hList : list ≠ [])
    (hInit : Exec ((d.scope subscope).locals :: env) (d.scope subscope).var_init env₁ .normal)
    (hExec : ExecAll env₁ list (s :: env') out) :
    Exec env (some (.block (some subscope) list)) env' (out.leave subscope)
| case
    {env env' : Scopes} {type : CaseType} {expr : FuncExpr}
    {items : List (Option FuncExpr × Option NetProc)}
    {v : Verinum} {chosen : Option NetProc} {out : Outcome}
    (hExpr : Eval env expr v) (hPick : Picks env type v none items chosen)
    (hExec : Exec env chosen env' out) :
    Exec env (some (.case type expr items)) env' out
| condit
    {env env' : Scopes} {expr : FuncExpr} {if_ else_ : Option NetProc} {v : Verinum} {out : Outcome}
    (hExpr : Eval env expr v) (hMet : ok (.condition v))
    (hExec : Exec env (if v.truth then if_ else else_) env' out) :
    Exec env (some (.condit expr if_ else_)) env' out
| disable
    {env : Scopes} {target : Nat} :
    Exec env (some (.disable (some target))) env (.disabled target)
| doWhile_done
    {env env' : Scopes} {cond : FuncExpr} {proc : NetProc}
    {v : Verinum} (hProc : Exec env (some proc) env' .normal)
    (hCond : Eval env' cond v) (hMet : ok (.condition v))
    (hFalse : ¬ v.truth) :
    Exec env (some (.doWhile cond proc)) env' .normal
| doWhile_again
    {env env₁ env' : Scopes} {cond : FuncExpr} {proc : NetProc}
    {v : Verinum} {out : Outcome} (hProc : Exec env (some proc) env₁ .normal)
    (hCond : Eval env₁ cond v) (hMet : ok (.condition v)) (hTrue : v.truth)
    (hRest : Exec env₁ (some (.doWhile cond proc)) env' out) :
    Exec env (some (.doWhile cond proc)) env' out
| doWhile_left
    {env env' : Scopes} {cond : FuncExpr} {proc : NetProc} {target : Nat}
    (hProc : Exec env (some proc) env' (.disabled target))
    (hMet : ok (.left env' cond)) :
    Exec env (some (.doWhile cond proc)) env' (.disabled target)
| forever_again
    {env env₁ env' : Scopes} {statement : NetProc} {out : Outcome}
    (hProc : Exec env (some statement) env₁ .normal)
    (hRest : Exec env₁ (some (.forever statement)) env' out) :
    Exec env (some (.forever statement)) env' out
| forever_left
    {env env' : Scopes} {statement : NetProc} {target : Nat}
    (hProc : Exec env (some statement) env' (.disabled target)) :
    Exec env (some (.forever statement)) env' (.disabled target)
| repeat
    {env env' : Scopes} {expr : FuncExpr} {statement : NetProc}
    {v : Verinum} {out : Outcome} (hExpr : Eval env expr v) (hMet : ok (.count v))
    (hTimes : Repeats env statement v.repeatCount env' out) :
    Exec env (some (.repeat expr statement)) env' out
| while_done
    {env : Scopes} {cond : FuncExpr} {proc : NetProc}
    {v : Verinum} (hCond : Eval env cond v) (hMet : ok (.condition v))
    (hFalse : ¬ v.truth) :
    Exec env (some (.while cond proc)) env .normal
| while_again
    {env env₁ env' : Scopes} {cond : FuncExpr} {proc : NetProc}
    {v : Verinum} {out : Outcome} (hCond : Eval env cond v)
    (hMet : ok (.condition v)) (hTrue : v.truth) (hProc : Exec env (some proc) env₁ .normal)
    (hRest : Exec env₁ (some (.while cond proc)) env' out) :
    Exec env (some (.while cond proc)) env' out
| while_left
    {env env' : Scopes} {cond : FuncExpr} {proc : NetProc}
    {v : Verinum} {target : Nat} (hCond : Eval env cond v)
    (hMet : ok (.condition v)) (hTrue : v.truth)
    (hProc : Exec env (some proc) env' (.disabled target)) :
    Exec env (some (.while cond proc)) env' (.disabled target)
| assign
    {env env' : Scopes} {lval : NetNet} {rval : FuncExpr} {v : Verinum} (hValue : Eval env rval v)
    (hAssign : assign env lval.name (some (lval.stored v)) = some env') :
    Exec env (some (.assign lval rval)) env' .normal
| stask {env : Scopes} : Exec env (some .stask) env .normal

/- Statements one after the other. -/
inductive ExecAll :
    Scopes → List NetProc → Scopes → Outcome → Prop where
| nil {env : Scopes} : ExecAll env [] env .normal
| next
    {env env₁ env' : Scopes} {proc : NetProc} {list : List NetProc} {out : Outcome}
    (hProc : Exec env (some proc) env₁ .normal)
    (hRest : ExecAll env₁ list env' out) :
    ExecAll env (proc :: list) env' out
| left
    {env env' : Scopes} {proc : NetProc} {list : List NetProc} {target : Nat}
    (hProc : Exec env (some proc) env' (.disabled target)) :
    ExecAll env (proc :: list) env' (.disabled target)

/- The statement that a case chooses: that of the first guard
   that matches, or else that of the default. -/
inductive Picks :
    Scopes → CaseType → Verinum → Option NetProc →
      List (Option FuncExpr × Option NetProc) →
      Option NetProc → Prop where
| default
    {env : Scopes} {type : CaseType} {v : Verinum}
    {default_statement : Option NetProc} :
    Picks env type v default_statement [] default_statement
| unguarded
    {env : Scopes} {type : CaseType} {v : Verinum} {old item chosen : Option NetProc}
    {items : List (Option FuncExpr × Option NetProc)}
    (hRest : Picks env type v item items chosen) :
    Picks env type v old ((none, item) :: items) chosen
| chosen
    {env : Scopes} {type : CaseType} {v w : Verinum} {old item : Option NetProc} {guard : FuncExpr}
    {items : List (Option FuncExpr × Option NetProc)}
    (hGuard : Eval env guard w) (hMatch : type.Matches v w)
    (hMet : ok (.item item)) :
    Picks env type v old ((some guard, item) :: items) item
| passed
    {env : Scopes} {type : CaseType} {v w : Verinum}
    {old item chosen : Option NetProc} {guard : FuncExpr}
    {items : List (Option FuncExpr × Option NetProc)}
    (hGuard : Eval env guard w) (hLen : w.len = v.len) (hOther : ¬ type.Matches v w)
    (hRest : Picks env type v old items chosen) :
    Picks env type v old ((some guard, item) :: items) chosen

/- A statement a number of times. -/
inductive Repeats :
    Scopes → NetProc → Nat → Scopes → Outcome → Prop where
| zero
    {env : Scopes} {statement : NetProc} :
    Repeats env statement 0 env .normal
| again
    {env env₁ env' : Scopes} {statement : NetProc} {n : Nat} {out : Outcome}
    (hProc : Exec env (some statement) env₁ .normal)
    (hRest : Repeats env₁ statement n env' out) :
    Repeats env statement (n + 1) env' out
| left
    {env env' : Scopes} {statement : NetProc} {n target : Nat}
    (hProc : Exec env (some statement) env' (.disabled target)) :
    Repeats env statement (n + 1) env' (.disabled target)

end

end EpicSim
