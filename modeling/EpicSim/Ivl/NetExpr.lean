import EpicSim.Ivl.NetValue

/-
  Expressions of the elaborated design, and their values.

  `NetExpr` has the node classes of vector expressions; a
  part select without a base is the node that pads or cuts an
  operand.  `eval` is what such an expression stands for at
  run time.
-/

----
-- Expressions
----

namespace EpicSim

/- `ivl_variable_type_t` of a vector. -/
inductive VariableType where
| bool | logic
deriving DecidableEq

/- The parts of a `NetNet` that an expression reads. -/
structure NetNet where
  name : String
  vector_width : Nat
  get_signed : Bool
  data_type : VariableType
deriving DecidableEq

/- The operators of `NetEBAdd`. -/
inductive AddOp where
| add | sub
deriving DecidableEq

/- The operators of `NetEBComp`: `<`, `>`, `L`, `G`, `e`, `n`,
   `E`, `N`, `w`, `W`. -/
inductive CompOp where
| lt | gt | leeq | gteq | eqeq | neq | eqeqeq | neqeq | weqeq | wneq
deriving DecidableEq

/- The operators of `NetEBShift`: `l`, `r`, `R`. -/
inductive ShiftOp where
| left | right | arith
deriving DecidableEq

/- The operators of `NetEUnary`: `+`, `-`, `m`, `~`. -/
inductive UnaryOp where
| plus | minus | abs | not
deriving DecidableEq

/- The operators of `NetEUReduce`: `!`, `&`, `A`, `|`, `N`, `^`,
   `X`. -/
inductive ReduceOp where
| not | and | nand | or | nor | xor | xnor
deriving DecidableEq

/- `NetExpr`.  The width and the sign of a node are kept where
   its constructor takes them. -/
inductive NetExpr where
| const (value : Verinum)
| signal (net : NetNet) (signed : Bool)
| add
    (op : AddOp) (left right : NetExpr) (width : Nat) (signed : Bool)
| mult (left right : NetExpr) (width : Nat) (signed : Bool)
| comp (op : CompOp) (left right : NetExpr)
| shift
    (op : ShiftOp) (left right : NetExpr) (width : Nat) (signed : Bool)
| unary (op : UnaryOp) (expr : NetExpr) (width : Nat) (signed : Bool)
| reduce (op : ReduceOp) (expr : NetExpr)
| ternary
    (cond true_val false_val : NetExpr) (width : Nat) (signed : Bool)
| concat
    (rep : Nat) (parms : List NetExpr) (signed : Bool) (type : VariableType)
| select (expr base : NetExpr) (width : Nat) (signed : Bool)
| pad (expr : NetExpr) (width : Nat) (signed : Bool)

namespace NetExpr

mutual

/- `expr_width`. -/
def exprWidth : NetExpr → Nat
| .const value => value.len
| .signal net _ => net.vector_width
| .add _ _ _ width _ => width
| .mult _ _ width _ => width
| .comp _ _ _ => 1
| .shift _ _ _ width _ => width
| .unary _ _ width _ => width
| .reduce _ _ => 1
| .ternary _ _ _ width _ => width
| .concat rep parms _ _ => rep * parmsWidth parms
| .select _ _ width _ => width
| .pad _ width _ => width

/- The width of one repeat of a concatenation. -/
def parmsWidth : List NetExpr → Nat
| [] => 0
| expr :: parms => exprWidth expr + parmsWidth parms

end

/- `has_sign`. -/
def hasSign : NetExpr → Bool
| .const value => value.has_sign
| .signal _ signed => signed
| .add _ _ _ _ signed => signed
| .mult _ _ _ signed => signed
| .comp _ _ _ => false
| .shift _ _ _ _ signed => signed
| .unary _ _ _ signed => signed
| .reduce _ _ => false
| .ternary _ _ _ _ signed => signed
| .concat _ _ signed _ => signed
| .select _ _ _ signed => signed
| .pad _ _ signed => signed

----
-- Values
----

/- The bits of the variables of a design. -/
abbrev Env := String → Nat → VerinumV

def evalAdd : AddOp → Int → Int → Int
| .add => (· + ·)
| .sub => (· - ·)

/- A comparison of operands of one width. -/
def evalComp (signed : Bool) (l r : Bits) : CompOp → VerinumV
| .lt => Bits.compare (fun a b => a < b) signed l r
| .gt => Bits.compare (fun a b => b < a) signed l r
| .leeq => Bits.compare (fun a b => a ≤ b) signed l r
| .gteq => Bits.compare (fun a b => b ≤ a) signed l r
| .eqeq => Bits.equal l r
| .neq => (Bits.equal l r).not
| .eqeqeq => .ofBool (l = r)
| .neqeq => .ofBool (l ≠ r)
| .weqeq => Bits.wildEqual l r
| .wneq => (Bits.wildEqual l r).not

def evalShift (signed : Bool) (l amount : Bits) : ShiftOp → Bits
| .left => Bits.shiftBy Bits.shiftLeft l amount
| .right => Bits.shiftBy (Bits.shiftRight .v0) l amount
| .arith => Bits.shiftBy (Bits.shiftRight (if signed then l.top else .v0)) l amount

def evalUnary (signed : Bool) (width : Nat) (bits : Bits) : UnaryOp → Bits
| .plus => bits
| .minus => Bits.arithOne (fun n => -n) signed width bits
| .abs => Bits.arithOne (fun n => |n|) signed width bits
| .not => bits.map VerinumV.not

def evalReduce (bits : Bits) : ReduceOp → VerinumV
| .not => bits.logical.not
| .and => bits.foldl Bits.andBit .v1
| .nand => (bits.foldl Bits.andBit .v1).not
| .or => bits.foldl Bits.orBit .v0
| .nor => (bits.foldl Bits.orBit .v0).not
| .xor => bits.foldl Bits.xorBit .v0
| .xnor => (bits.foldl Bits.xorBit .v0).not

mutual

/- What an expression stands for at run time. -/
def eval (env : Env) : NetExpr → Bits
| .const value => value.bits
| .signal net _ => (List.range net.vector_width).map (env net.name)
| .add op left right width _ =>
  Bits.arith (evalAdd op) width
    ((eval env left).padTo left.hasSign width)
    ((eval env right).padTo right.hasSign width)
| .mult left right width _ =>
  Bits.arith (· * ·) width
    ((eval env left).padTo left.hasSign width)
    ((eval env right).padTo right.hasSign width)
| .comp op left right =>
  let width := max left.exprWidth right.exprWidth
  [evalComp (left.hasSign && right.hasSign)
    ((eval env left).padTo left.hasSign width)
    ((eval env right).padTo right.hasSign width) op]
| .shift op left right width _ =>
  evalShift left.hasSign ((eval env left).padTo left.hasSign width) (eval env right) op
| .unary op expr width _ =>
  evalUnary expr.hasSign width ((eval env expr).padTo expr.hasSign width) op
| .reduce op expr => [evalReduce (eval env expr) op]
| .ternary cond true_val false_val width _ =>
  let t := (eval env true_val).padTo true_val.hasSign width
  let f := (eval env false_val).padTo false_val.hasSign width
  match (eval env cond).logical with
  | .v1 => t
  | .v0 => f
  | _ => Bits.blend t f
| .concat rep parms _ _ => (List.replicate rep (evalParms env parms)).flatten
| .select expr base width _ => Bits.select base.hasSign width (eval env expr) (eval env base)
| .pad expr width signed => (eval env expr).padTo signed width

/- The last operand of a concatenation is the lowest. -/
def evalParms (env : Env) : List NetExpr → Bits
| [] => []
| expr :: parms => evalParms env parms ++ eval env expr

end

/- The integer an expression denotes at its width and sign. -/
def denotes (env : Env) (expr : NetExpr) : Int :=
  (expr.eval env).integer expr.hasSign

theorem length_evalShift (signed : Bool) (l amount : Bits) (op : ShiftOp) :
    (evalShift signed l amount op).length = l.length := by
  cases op with
  | left => exact Bits.length_shiftBy Bits.length_shiftLeft _ _
  | right => exact Bits.length_shiftBy (Bits.length_shiftRight _) _ _
  | arith => exact Bits.length_shiftBy (Bits.length_shiftRight _) _ _

theorem length_evalUnary (signed : Bool) (bits : Bits) (op : UnaryOp) :
    (evalUnary signed bits.length bits op).length = bits.length := by
  cases op with
  | plus => rfl
  | minus => exact Bits.length_arithOne _ _ _ _
  | abs => exact Bits.length_arithOne _ _ _ _
  | not => exact List.length_map _

mutual

/- An expression has as many bits as it is wide. -/
theorem length_eval (env : Env) : ∀ expr : NetExpr, (expr.eval env).length = expr.exprWidth
| .const value => by rw [eval, exprWidth]; rfl
| .signal net _ => by
    rw [eval, exprWidth, List.length_map, List.length_range]
| .add _ _ _ _ _ => by
    rw [eval, exprWidth, Bits.length_arith]
| .mult _ _ _ _ => by
    rw [eval, exprWidth, Bits.length_arith]
| .comp _ _ _ => by rw [eval, exprWidth]; rfl
| .shift _ _ _ _ _ => by
    rw [eval, exprWidth, length_evalShift, Bits.length_padTo]
| .unary op expr width _ => by
    rw [eval, exprWidth]
    have hLength := length_evalUnary expr.hasSign ((expr.eval env).padTo expr.hasSign width) op
    rw [Bits.length_padTo] at hLength
    exact hLength
| .reduce _ _ => by rw [eval, exprWidth]; rfl
| .ternary _ _ _ _ _ => by
    rw [eval, exprWidth]
    split
    · exact Bits.length_padTo _ _ _
    · exact Bits.length_padTo _ _ _
    · unfold Bits.blend
      rw [List.length_zipWith, Bits.length_padTo, Bits.length_padTo, Nat.min_self]
| .concat rep parms _ _ => by
    rw [eval, exprWidth, List.length_flatten, List.map_replicate,
      List.sum_replicate_nat, length_evalParms env parms]
| .select _ _ _ _ => by
    rw [eval, exprWidth, Bits.length_select]
| .pad _ _ _ => by
    rw [eval, exprWidth, Bits.length_padTo]

theorem length_evalParms (env : Env) :
    ∀ parms : List NetExpr, (evalParms env parms).length = parmsWidth parms
| [] => by rw [evalParms, parmsWidth]; rfl
| expr :: parms => by
    rw [evalParms, parmsWidth, List.length_append,
      length_eval env expr, length_evalParms env parms, Nat.add_comm]

end

end NetExpr

end EpicSim
