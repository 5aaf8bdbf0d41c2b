import EpicSim.Lib.CText
import EpicSim.Vvp.Vector4

/-
  The run-time functors of the n-input logic gates.
-/

----
-- Functors
----

namespace EpicSim

/- The types of `.functor` record that stand for n-input gates. -/
inductive FunctorType where
| AND : FunctorType
| NAND : FunctorType
| OR : FunctorType
| NOR : FunctorType
| XOR : FunctorType
| XNOR : FunctorType
deriving DecidableEq, Repr

/- `vvp_fun_and`, `vvp_fun_or` and `vvp_fun_xor`. -/
inductive BooleanKind where
| and : BooleanKind
| or : BooleanKind
| xor : BooleanKind
deriving DecidableEq, Repr

namespace BooleanKind

/- The bit operator of a functor. -/
def op : BooleanKind → VvpBit4 → VvpBit4 → VvpBit4
| .and => VvpBit4.and
| .or => VvpBit4.or
| .xor => VvpBit4.xor

end BooleanKind

/- The value that leaves a conjunction, or the like, unchanged. -/
def BooleanKind.unit : BooleanKind → VvpBit4
| .and => .one
| .or => .zero
| .xor => .zero

/- A leading unit is lost on the next operand. -/
theorem BooleanKind.op_unit (kind : BooleanKind) (a b : VvpBit4) :
    kind.op (kind.op kind.unit a) b = kind.op a b := by
  cases kind <;> cases a <;> cases b <;> rfl

/- The functor `compile_functor` makes, and its invert flag. -/
def FunctorType.compile : FunctorType → BooleanKind × Bool
| .AND => (.and, false)
| .NAND => (.and, true)
| .OR => (.or, false)
| .NOR => (.or, true)
| .XOR => (.xor, false)
| .XNOR => (.xor, true)

/-
  A boolean functor with its four input vectors, and with the
  net only where it is scheduled.
-/
structure VvpFunBoolean where
  kind : BooleanKind
  net_ : Bool
  invert_ : Bool
  input_ : Fin 4 → VvpVector4

namespace VvpFunBoolean

/- The constructor: every input starts as Z. -/
def new (kind : BooleanKind) (wid : Nat) (invert : Bool) : VvpFunBoolean where
  kind := kind
  net_ := false
  invert_ := invert
  input_ := fun _ => VvpVector4.fill wid .z

/-
  `recv_vec4`: an unchanged input is dropped.  A changed one
  schedules `run_run`.
-/
def recvVec4 (f : VvpFunBoolean) (port : Fin 4) (bit : VvpVector4) : VvpFunBoolean :=
  if (f.input_ port).eeq bit then f
  else
    { f with
      input_ := Function.update f.input_ port bit
      net_ := true }

/-
  The inner loop of `run_run` over the ports after the first.
  An input that is too short ends it with X.
-/
def portLoop (op : VvpBit4 → VvpBit4 → VvpBit4) (idx : Nat) : List VvpVector4 → VvpBit4 → VvpBit4
| [], bitbit => bitbit
| input :: rest, bitbit =>
  if input.size_ < idx then .x
  else portLoop op idx rest (op bitbit (input.value idx))

/- The negation of the last stage, when asked for. -/
def invertIf (invert : Bool) (bitbit : VvpBit4) : VvpBit4 :=
  if invert then bitbit.not else bitbit

/- The loop of `run_run` over the bits of the result. -/
def bitLoop (f : VvpFunBoolean) : VvpVector4 :=
  (List.range (f.input_ 0).size_).foldl
    (fun result idx =>
      result.setBit idx (invertIf f.invert_
        (portLoop f.kind.op idx [f.input_ 1, f.input_ 2, f.input_ 3] (result.value idx))))
    (f.input_ 0)

/-
  The word-wise branch, taken by `vvp_fun_and` and
  `vvp_fun_or` when the first two inputs have one size.
-/
def fastPath (f : VvpFunBoolean) (assign : VvpVector4 → VvpVector4 → VvpVector4) : VvpVector4 :=
  let result := assign (f.input_ 0) (f.input_ 1)
  if f.invert_ then result.inverted else result

/- `run_run`: the vector sent to the output net. -/
def runRun (f : VvpFunBoolean) : VvpVector4 :=
  match f.kind with
  | .and =>
    if (f.input_ 0).size_ = (f.input_ 1).size_ then
      f.fastPath VvpVector4.andAssign
    else f.bitLoop
  | .or =>
    if (f.input_ 0).size_ = (f.input_ 1).size_ then
      f.fastPath VvpVector4.orAssign
    else f.bitLoop
  | .xor => f.bitLoop

end VvpFunBoolean

----
-- What A Functor Sends
----

namespace VvpFunBoolean

/- A dropped input has the same bits as the stored one. -/
theorem recvVec4_input (f : VvpFunBoolean) (port : Fin 4) (bit : VvpVector4) :
    ((f.recvVec4 port bit).input_ port).size_ = bit.size_ ∧
      ∀ idx,
        ((f.recvVec4 port bit).input_ port).value idx = bit.value idx := by
  unfold recvVec4
  split_ifs with hSame
  · exact VvpVector4.value_of_eeq hSame
  · simp

theorem recvVec4_other (f : VvpFunBoolean) {port other : Fin 4} (bit : VvpVector4)
    (h : other ≠ port) : (f.recvVec4 port bit).input_ other = f.input_ other := by
  unfold recvVec4
  split_ifs
  · rfl
  · simp [h]

@[simp] theorem recvVec4_kind (f : VvpFunBoolean) (port : Fin 4) (bit : VvpVector4) :
    (f.recvVec4 port bit).kind = f.kind := by
  unfold recvVec4
  split_ifs <;> rfl

@[simp] theorem recvVec4_invert (f : VvpFunBoolean) (port : Fin 4) (bit : VvpVector4) :
    (f.recvVec4 port bit).invert_ = f.invert_ := by
  unfold recvVec4
  split_ifs <;> rfl

/- A functor is scheduled by an input that differs. -/
theorem recvVec4_net (f : VvpFunBoolean) (port : Fin 4) (bit : VvpVector4) :
    (f.recvVec4 port bit).net_ = (f.net_ || !(f.input_ port).eeq bit) := by
  unfold recvVec4
  split_ifs with hSame
  · rw [hSame, Bool.not_true, Bool.or_false]
  · rw [Bool.eq_false_of_not_eq_true hSame, Bool.not_false, Bool.or_true]

/- Each turn of the bit loop writes its own bit once. -/
theorem bitLoop_spec (f : VvpFunBoolean) :
    f.bitLoop.size_ = (f.input_ 0).size_ ∧
      ∀ idx < (f.input_ 0).size_,
        f.bitLoop.value idx =
          invertIf f.invert_
            (portLoop f.kind.op idx
              [f.input_ 1, f.input_ 2, f.input_ 3]
              ((f.input_ 0).value idx)) := by
  have hPrefix :
      ∀ n ≤ (f.input_ 0).size_,
        let result := (List.range n).foldl
          (fun result idx =>
            result.setBit idx (invertIf f.invert_
              (portLoop f.kind.op idx [f.input_ 1, f.input_ 2, f.input_ 3] (result.value idx))))
          (f.input_ 0)
        result.size_ = (f.input_ 0).size_ ∧
          ∀ idx < (f.input_ 0).size_,
            result.value idx =
              if idx < n then
                invertIf f.invert_
                  (portLoop f.kind.op idx
                    [f.input_ 1, f.input_ 2, f.input_ 3]
                    ((f.input_ 0).value idx))
              else (f.input_ 0).value idx := by
    intro n
    induction n with
    | zero => simp
    | succ n ih =>
      intro hn
      rcases ih (by omega) with ⟨hSize, hValue⟩
      simp only [List.range_succ, List.foldl_append, List.foldl_cons, List.foldl_nil]
      refine ⟨hSize, ?_⟩
      intro idx hIdx
      rw [VvpVector4.value_setBit (by omega) _ (by omega),
        hValue n (by omega), hValue idx hIdx]
      grind
  rcases hPrefix _ le_rfl with ⟨hSize, hValue⟩
  refine ⟨hSize, ?_⟩
  intro idx hIdx
  have hBit := hValue idx hIdx
  rwa [if_pos hIdx] at hBit

/-
  How many inputs `run_run` looks at when all inputs have
  one size: the word-wise branch stops after the second.
-/
def portsRead : BooleanKind → Nat
| .and => 2
| .or => 2
| .xor => 4

theorem fastPath_spec (f : VvpFunBoolean) {assign : VvpVector4 → VvpVector4 → VvpVector4}
    {op : VvpBit4 → VvpBit4 → VvpBit4} (hSize : (f.input_ 1).size_ = (f.input_ 0).size_)
    (hAssignSize : ∀ v that, (assign v that).size_ = v.size_) (hAssign :
      ∀ {v that : VvpVector4}, that.size_ = v.size_ →
        ∀ {idx : Nat}, idx < v.size_ →
          (assign v that).value idx = op (v.value idx) (that.value idx)) :
    (f.fastPath assign).size_ = (f.input_ 0).size_ ∧
      ∀ idx < (f.input_ 0).size_,
        (f.fastPath assign).value idx =
          invertIf f.invert_ (op ((f.input_ 0).value idx) ((f.input_ 1).value idx)) := by
  unfold fastPath
  cases hInvert : f.invert_ with
  | false =>
    refine ⟨hAssignSize _ _, ?_⟩
    intro idx hIdx
    exact hAssign hSize hIdx
  | true =>
    refine ⟨hAssignSize _ _, ?_⟩
    intro idx hIdx
    have hIdx' : idx < (assign (f.input_ 0) (f.input_ 1)).size_ := by rwa [hAssignSize]
    simp only [if_true]
    rw [VvpVector4.value_inverted hIdx', hAssign hSize hIdx]
    rfl

/-
  With inputs of one size, every bit sent is the fold of the
  bits of the inputs read, inverted at the end.
-/
theorem runRun_spec (f : VvpFunBoolean) {width : Nat}
    (hSize : ∀ port, (f.input_ port).size_ = width) :
    f.runRun.size_ = width ∧
      ∀ idx < width,
        f.runRun.value idx =
          invertIf f.invert_
            (((List.range (portsRead f.kind)).map
              (fun j => (f.input_ (Fin.ofNat 4 j)).value idx)).foldl
              f.kind.op f.kind.unit) := by
  have hFirst := hSize 0
  have hTwo : (f.input_ 1).size_ = (f.input_ 0).size_ := by rw [hSize, hSize]
  have hStart : ∀ (a b : VvpBit4) (rest : List VvpBit4),
      (a :: b :: rest).foldl f.kind.op f.kind.unit = rest.foldl f.kind.op (f.kind.op a b) := by
    intro a b rest
    rw [List.foldl_cons, List.foldl_cons, BooleanKind.op_unit]
  unfold runRun
  cases hKind : f.kind with
  | and =>
    have hFast := fastPath_spec f hTwo VvpVector4.size_andAssign VvpVector4.value_andAssign
    rw [hFirst] at hFast
    rw [hKind] at hStart
    simp only [if_pos hTwo.symm]
    refine ⟨hFast.1, ?_⟩
    intro idx hIdx
    rw [hFast.2 idx hIdx]
    exact congrArg _ (hStart _ _ []).symm
  | or =>
    have hFast := fastPath_spec f hTwo VvpVector4.size_orAssign VvpVector4.value_orAssign
    rw [hFirst] at hFast
    rw [hKind] at hStart
    simp only [if_pos hTwo.symm]
    refine ⟨hFast.1, ?_⟩
    intro idx hIdx
    rw [hFast.2 idx hIdx]
    exact congrArg _ (hStart _ _ []).symm
  | xor =>
    have hLoop := bitLoop_spec f
    rw [hFirst] at hLoop
    rw [hKind] at hStart
    refine ⟨hLoop.1, ?_⟩
    intro idx hIdx
    have hLong : ∀ port, ¬(f.input_ port).size_ < idx := by
      intro port
      rw [hSize]
      omega
    rw [hLoop.2 idx hIdx, hKind]
    simp only [portLoop, hLong]
    exact congrArg _ (hStart _ _ [_, _]).symm

end VvpFunBoolean

end EpicSim
