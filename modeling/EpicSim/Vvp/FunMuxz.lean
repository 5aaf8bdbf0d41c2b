import EpicSim.Ivl.Netmisc
import EpicSim.Ivl.VerinumOps
import EpicSim.Lib.DeferredUpdate
import EpicSim.Vvp.SetVec

/-
  The functor of a conditional expression, and the blend of two
  vectors under an unknown condition: in the functor, in the
  instruction and in the evaluation of constants.

  A change that cannot show is kept without a run.  When the
  functor is not scheduled, the last vector it has sent is what
  the inputs ask for.
-/

----
-- The Functor
----

namespace EpicSim

open VvpVector4

/- `SEL_PORT0`, `SEL_PORT1` and `SEL_BOTH`. -/
inductive SelType where
| port0 | port1 | both
deriving DecidableEq

/- `vvp_fun_muxz`, with the net only where it is scheduled. -/
structure VvpFunMuxz where
  a_ : VvpVector4
  b_ : VvpVector4
  net_ : Bool
  select_ : SelType
  has_run_ : Bool

namespace VvpFunMuxz

/- The constructor. -/
def new (wid : Nat) : VvpFunMuxz where
  a_ := fill wid .z
  b_ := fill wid .z
  net_ := false
  select_ := .both
  has_run_ := false

/- `schedule_functor`, unless it is scheduled. -/
def schedule (mux : VvpFunMuxz) : VvpFunMuxz :=
  { mux with net_ := true }

/- `recv_vec4`; none where the assertion fails. -/
def recvVec4 (mux : VvpFunMuxz) (port : Nat) (bit : VvpVector4) : Option VvpFunMuxz :=
  match port with
  | 0 =>
    if mux.a_.eeq bit ∧ mux.has_run_ then some mux
    else
      let mux := { mux with a_ := bit }
      some (if mux.select_ = .port1 then mux else mux.schedule)
  | 1 =>
    if mux.b_.eeq bit ∧ mux.has_run_ then some mux
    else
      let mux := { mux with b_ := bit }
      some (if mux.select_ = .port0 then mux else mux.schedule)
  | 2 =>
    if bit.size_ ≠ 1 then none
    else
      match bit.value 0 with
      | .zero =>
        if mux.select_ = .port0 then some mux
        else some { mux with select_ := .port0 }.schedule
      | .one =>
        if mux.select_ = .port1 then some mux
        else some { mux with select_ := .port1 }.schedule
      | _ =>
        if mux.select_ = .both ∧ mux.has_run_ then some mux
        else some { mux with select_ := .both }.schedule
  | _ => some mux

/- `recv_vec4_pv`; none where an assertion fails. -/
def recvVec4Pv (mux : VvpFunMuxz) (port : Nat) (bit : VvpVector4)
    (base wid vwid : Nat) : Option VvpFunMuxz :=
  if bit.size_ ≠ wid ∨ vwid < base + wid then none
  else
    match port with
    | 0 => do
        let (a, flag) ← mux.a_.setVec base bit
        let mux := { mux with a_ := a }
        if flag = false ∧ mux.has_run_ then some mux
        else if mux.select_ = .port1 then some mux
        else some mux.schedule
    | 1 => do
        let (b, flag) ← mux.b_.setVec base bit
        let mux := { mux with b_ := b }
        if flag = false ∧ mux.has_run_ then some mux
        else if mux.select_ = .port0 then some mux
        else some mux.schedule
    | 2 => if base = 0 ∧ wid = 1 then mux.recvVec4 2 bit else none
    | _ => some mux

/- The blend of `run_run`. -/
def blend (a b : VvpVector4) : VvpVector4 :=
  let min_size := if b.size_ < a.size_ then b.size_ else a.size_
  let max_size := if a.size_ < b.size_ then b.size_ else a.size_
  let res := fill max_size .x
  let res := setBitLoop res 0 min_size (fun idx => idx)
    (fun idx =>
      let v := a.value idx
      if v = b.value idx ∧ v ≠ .z then a.value idx else .x)
  setBitLoop res min_size max_size (fun idx => idx) (fun _ => .x)

/- `run_run`: the functor and what it sends. -/
def runRun (mux : VvpFunMuxz) : VvpFunMuxz × VvpVector4 :=
  ({ mux with has_run_ := true, net_ := false },
    match mux.select_ with
    | .port0 => mux.a_
    | .port1 => mux.b_
    | .both => blend mux.a_ mux.b_)

end VvpFunMuxz

/- `of_BLEND`, of the top of the stack and the one below. -/
def ofBlend (vala valb : VvpVector4) : Option VvpVector4 :=
  if vala.size_ ≠ valb.size_ then none
  else
    some ((List.range vala.size_).foldl
      (fun vala idx =>
        let v := vala.value idx
        if v = valb.value idx ∧ v ≠ .z then vala
        else vala.setBit idx .x) vala)

end EpicSim

----
-- Blends
----

namespace EpicSim

open VvpVector4

/- What two bits have in common. -/
def blendBit (a b : VvpBit4) : VvpBit4 :=
  if a = b ∧ a ≠ .z then a else .x

/- A bit of the compiler at run time. -/
def VerinumV.bit4 : VerinumV → VvpBit4
| .v0 => .zero
| .v1 => .one
| .vx => .x
| .vz => .z

/- A constant of the compiler and a vector have one value. -/
def SameBits (val : Verinum) (vec : VvpVector4) : Prop :=
  val.len = vec.size_ ∧ ∀ idx < vec.size_, (val.get idx).bit4 = vec.value idx

/- A vector with the blend of two others. -/
def IsBlend (res a b : VvpVector4) : Prop :=
  res.size_ = a.size_ ∧ ∀ idx < a.size_, res.value idx = blendBit (a.value idx) (b.value idx)

theorem blend_isBlend {a b : VvpVector4} (hSize : a.size_ = b.size_) :
    IsBlend (VvpFunMuxz.blend a b) a b := by
  unfold VvpFunMuxz.blend IsBlend
  rw [if_neg (by omega), if_neg (by omega)]
  rcases @setBitLoop_spec (fill a.size_ .x) 0 a.size_
      (fun idx => idx)
      (fun idx =>
        let v := a.value idx
        if v = b.value idx ∧ v ≠ .z then a.value idx else .x)
      (fun i _ hLt => hLt)
      (fun i j _ hLt _ => Nat.ne_of_lt hLt) with
    ⟨hResSize, hBits, _⟩
  have hNone : ∀ res : VvpVector4,
      setBitLoop res a.size_ a.size_ (fun idx => idx) (fun _ => .x) = res := by
    intro res
    unfold setBitLoop
    rw [Nat.sub_self]
    rfl
  rw [hNone]
  exact ⟨hResSize, fun idx hIdx => hBits idx (Nat.zero_le idx) hIdx⟩

theorem ofBlend_isBlend {vala valb : VvpVector4} (hSize : vala.size_ = valb.size_) :
    ∃ res, ofBlend vala valb = some res ∧
      IsBlend res vala valb := by
  have hPrefix : ∀ n ≤ vala.size_, ∀ res,
      res = (List.range n).foldl
        (fun vala idx =>
          let v := vala.value idx
          if v = valb.value idx ∧ v ≠ .z then vala
          else vala.setBit idx .x) vala →
      res.size_ = vala.size_ ∧
        ∀ idx < vala.size_, res.value idx =
          if idx < n then
            blendBit (vala.value idx) (valb.value idx)
          else vala.value idx := by
    intro n
    induction n with
    | zero => simp
    | succ n ih =>
      intro hLe res hRes
      rcases ih (by omega) _ rfl with ⟨hPrev, hBits⟩
      rw [List.range_succ, List.foldl_append, List.foldl_cons, List.foldl_nil] at hRes
      generalize (List.range n).foldl _ _ = prev at *
      have hHere := hBits n (by omega)
      rw [if_neg (Nat.lt_irrefl n)] at hHere
      simp only [hHere] at hRes
      have hNext : ∀ idx, idx ≠ n → (idx < n + 1 ↔ idx < n) := by
        intro idx hNe
        omega
      by_cases hKeep : vala.value n = valb.value n ∧ vala.value n ≠ .z
      · rw [if_pos hKeep] at hRes
        subst hRes
        refine ⟨hPrev, fun idx hIdx => ?_⟩
        rw [hBits idx hIdx]
        by_cases hSame : idx = n
        · rw [hSame, if_neg (Nat.lt_irrefl n), if_pos (Nat.lt_succ_self n)]
          exact (if_pos hKeep).symm
        · simp only [hNext idx hSame]
      · rw [if_neg hKeep] at hRes
        subst hRes
        refine ⟨hPrev, fun idx hIdx => ?_⟩
        rw [value_setBit (by omega) _ (by omega)]
        by_cases hSame : idx = n
        · rw [if_pos hSame, hSame, if_pos (Nat.lt_succ_self n)]
          exact (if_neg hKeep).symm
        · grind
  rcases hPrefix vala.size_ (Nat.le_refl _) _ rfl with ⟨hResSize, hBits⟩
  refine ⟨_, if_neg (not_not.mpr hSize), hResSize, ?_⟩
  intro idx hIdx
  rw [hBits idx hIdx, if_pos hIdx]

/- The evaluation of constants blends the same bits. -/
theorem blended_isBlend {t f : Verinum} {a b : VvpVector4} (hSize : a.size_ = b.size_)
    (hT : SameBits t a) (hF : SameBits f b) (signed : Bool) :
    (NetExpr.blended signed t f).len = a.size_ ∧
      ∀ idx < a.size_,
        ((NetExpr.blended signed t f).get idx).bit4 = blendBit (a.value idx) (b.value idx) := by
  have hBit : ∀ tv fv : VerinumV,
      (if tv = fv ∧ (tv = .v0 ∨ tv = .v1) then tv
        else VerinumV.vx).bit4 = blendBit tv.bit4 fv.bit4 := by
    intro tv fv
    cases tv <;> cases fv <;> decide
  have hMax : max t.len f.len = a.size_ := by rw [hT.1, hF.1, ← hSize, Nat.max_self]
  constructor
  · unfold NetExpr.blended Verinum.withSign Verinum.ofBits
    unfold Verinum.len at hMax ⊢
    simp [hMax]
  · intro idx hIdx
    rw [← hT.2 idx hIdx, ← hF.2 idx (hSize ▸ hIdx), ← hBit]
    congr 1
    unfold NetExpr.blended Verinum.withSign Verinum.ofBits
    rw [hMax]
    have hIn : idx < t.len ∧ idx < f.len := by
      rw [hT.1, hF.1, ← hSize]
      exact ⟨hIdx, hIdx⟩
    unfold Verinum.get at *
    simp [hIdx, hIn.1, hIn.2]

end EpicSim

----
-- Changes
----

namespace EpicSim

open VvpVector4

/- A change that arrives at a port, of all bits or of some. -/
inductive MuxzChange where
| full (port : Nat) (bit : VvpVector4)
| part (port : Nat) (bit : VvpVector4) (base wid vwid : Nat)

namespace MuxzChange

/- The width of a port. -/
def portWidth (wid : Nat) : Nat → Nat
| 2 => 1
| _ => wid

/- The change is of the width of its port. -/
def Fits (wid : Nat) : MuxzChange → Prop
| full port bit => bit.size_ = portWidth wid port
| part port bit base pwid vwid =>
  bit.size_ = pwid ∧ 1 ≤ pwid ∧ base + pwid ≤ vwid ∧ vwid = portWidth wid port

end MuxzChange

/- The receive functions. -/
def VvpFunMuxz.recv (mux : VvpFunMuxz) : MuxzChange → Option VvpFunMuxz
| .full port bit => mux.recvVec4 port bit
| .part port bit base wid vwid => mux.recvVec4Pv port bit base wid vwid

/- The values on the inputs. -/
structure MuxzInputs (wid : Nat) where
  a : Fin wid → VvpBit4
  b : Fin wid → VvpBit4
  sel : VvpBit4

/- The bits of a vector. -/
def bitsOf (wid : Nat) (v : VvpVector4) : Fin wid → VvpBit4 :=
  fun i => v.value i

/- Some bits with a part of them replaced. -/
def partReplaced {wid : Nat} (bits : Fin wid → VvpBit4) (bit : VvpVector4)
    (base : Nat) : Fin wid → VvpBit4 :=
  fun i =>
    if base ≤ i ∧ i < base + bit.size_ then bit.value (i - base)
    else bits i

namespace MuxzInputs

variable {wid : Nat}

def start : MuxzInputs wid where
  a := fun _ => .z
  b := fun _ => .z
  sel := .z

/- The inputs after a change. -/
def change (inputs : MuxzInputs wid) : MuxzChange → MuxzInputs wid
| .full 0 bit => { inputs with a := bitsOf wid bit }
| .full 1 bit => { inputs with b := bitsOf wid bit }
| .full 2 bit => { inputs with sel := bit.value 0 }
| .full _ _ => inputs
| .part 0 bit base _ _ => { inputs with a := partReplaced inputs.a bit base }
| .part 1 bit base _ _ => { inputs with b := partReplaced inputs.b bit base }
| .part 2 bit _ _ _ => { inputs with sel := bit.value 0 }
| .part _ _ _ _ _ => inputs

/- What a conditional expression is. -/
def chosen (inputs : MuxzInputs wid) : Fin wid → VvpBit4 :=
  match inputs.sel with
  | .zero => inputs.a
  | .one => inputs.b
  | _ => fun i => blendBit (inputs.a i) (inputs.b i)

end MuxzInputs

/- The functor, the values on its inputs and the vectors it has
   sent, after any changes and runs. -/
inductive MuxzRuns (wid : Nat) :
    VvpFunMuxz → MuxzInputs wid → List VvpVector4 → Prop where
| new : MuxzRuns wid (.new wid) .start []
| change {mux mux' : VvpFunMuxz} {inputs : MuxzInputs wid}
    {sent : List VvpVector4} {change : MuxzChange} :
    MuxzRuns wid mux inputs sent → change.Fits wid →
      mux.recv change = some mux' → MuxzRuns wid mux' (inputs.change change) sent
| run {mux : VvpFunMuxz} {inputs : MuxzInputs wid}
    {sent : List VvpVector4} :
    MuxzRuns wid mux inputs sent → mux.net_ = true →
      MuxzRuns wid mux.runRun.1 inputs (sent ++ [mux.runRun.2])

end EpicSim

----
-- Updates Of The Functor
----

namespace EpicSim

open VvpVector4

/- What is selected by a bit. -/
def selTypeOf : VvpBit4 → SelType
| .zero => .port0
| .one => .port1
| _ => .both

/- The functor as a value that is updated later. -/
def muxzUpdate {wid : Nat} (mux : VvpFunMuxz) (inputs : MuxzInputs wid) (sent : List VvpVector4) :
    DeferredUpdate (MuxzInputs wid) (Fin wid → VvpBit4) where
  inputs := inputs
  waiting := mux.net_
  latest := sent.getLast?.map (bitsOf wid)

/- The functor keeps the inputs. -/
structure MuxzKeeps {wid : Nat} (mux : VvpFunMuxz) (inputs : MuxzInputs wid) : Prop where
  size_a : mux.a_.size_ = wid
  size_b : mux.b_.size_ = wid
  bits_a : bitsOf wid mux.a_ = inputs.a
  bits_b : bitsOf wid mux.b_ = inputs.b
  select : mux.select_ = selTypeOf inputs.sel

variable {wid : Nat} {inputs : MuxzInputs wid}

theorem chosen_of_port0 (h : selTypeOf inputs.sel = .port0) : inputs.chosen = inputs.a := by
  unfold MuxzInputs.chosen
  revert h
  cases inputs.sel <;> simp [selTypeOf]

theorem chosen_of_port1 (h : selTypeOf inputs.sel = .port1) : inputs.chosen = inputs.b := by
  unfold MuxzInputs.chosen
  revert h
  cases inputs.sel <;> simp [selTypeOf]

theorem chosen_of_both (h : selTypeOf inputs.sel = .both) :
    inputs.chosen = fun i => blendBit (inputs.a i) (inputs.b i) := by
  unfold MuxzInputs.chosen
  revert h
  cases inputs.sel <;> simp [selTypeOf]

/- A run sends what the inputs ask for. -/
theorem MuxzKeeps.runRun {mux : VvpFunMuxz} (h : MuxzKeeps mux inputs) :
    mux.runRun.2.size_ = wid ∧
      bitsOf wid mux.runRun.2 = inputs.chosen := by
  have hSelect := h.select
  unfold VvpFunMuxz.runRun
  cases hSel : mux.select_ with
  | port0 =>
    rw [hSel] at hSelect
    rw [chosen_of_port0 hSelect.symm]
    exact ⟨h.size_a, h.bits_a⟩
  | port1 =>
    rw [hSel] at hSelect
    rw [chosen_of_port1 hSelect.symm]
    exact ⟨h.size_b, h.bits_b⟩
  | both =>
    rw [hSel] at hSelect
    rw [chosen_of_both hSelect.symm, ← h.bits_a, ← h.bits_b]
    have hBlend := blend_isBlend (h.size_a.trans h.size_b.symm)
    rw [IsBlend, h.size_a] at hBlend
    exact ⟨hBlend.1, funext fun i => hBlend.2 i i.isLt⟩

/- What a change does: the inputs are kept, and the functor is
   scheduled, or it is as it was and nothing new can show. -/
structure MuxzReceives {wid : Nat} (mux mux' : VvpFunMuxz)
    (inputs inputs' : MuxzInputs wid) : Prop where
  keeps : MuxzKeeps mux' inputs'
  run : mux'.has_run_ = mux.has_run_
  net : mux'.net_ = true ∨
    mux'.net_ = mux.net_ ∧ inputs'.chosen = inputs.chosen ∧
      (inputs' = inputs ∨ mux.has_run_ = true ∨ mux.select_ ≠ .both)

end EpicSim

----
-- Receiving
----

namespace EpicSim

open VvpVector4

section Receives

variable {wid : Nat}
variable {mux mux' : VvpFunMuxz}
variable {inputs : MuxzInputs wid}

/- A vector at the first port: the functor is scheduled, or
   the vector is no other one or is not selected. -/
theorem MuxzKeeps.receives_a (h : MuxzKeeps mux inputs) {a : VvpVector4}
    {bits : Fin wid → VvpBit4} (hSize : a.size_ = wid) (hBits : bitsOf wid a = bits)
    (hSend : mux' = { mux with a_ := a }.schedule ∨
      mux' = { mux with a_ := a } ∧ (bits = inputs.a ∨ mux.select_ = .port1)) :
    MuxzReceives mux mux' inputs { inputs with a := bits } := by
  rcases hSend with hRun | ⟨hQuiet, hWhy⟩
  · subst hRun
    exact ⟨⟨hSize, h.size_b, hBits, h.bits_b, h.select⟩, rfl, Or.inl rfl⟩
  · subst hQuiet
    refine ⟨⟨hSize, h.size_b, hBits, h.bits_b, h.select⟩, rfl, Or.inr ⟨rfl, ?_⟩⟩
    rcases hWhy with hSame | hOther
    · rw [hSame]
      exact ⟨rfl, Or.inl rfl⟩
    · have hSel := h.select.symm.trans hOther
      refine ⟨?_, Or.inr (Or.inr ?_)⟩
      · rw [chosen_of_port1 (by exact hSel), chosen_of_port1 hSel]
      · rw [hOther]
        decide

/- A vector at the second port. -/
theorem MuxzKeeps.receives_b (h : MuxzKeeps mux inputs) {b : VvpVector4}
    {bits : Fin wid → VvpBit4} (hSize : b.size_ = wid) (hBits : bitsOf wid b = bits)
    (hSend : mux' = { mux with b_ := b }.schedule ∨
      mux' = { mux with b_ := b } ∧ (bits = inputs.b ∨ mux.select_ = .port0)) :
    MuxzReceives mux mux' inputs { inputs with b := bits } := by
  rcases hSend with hRun | ⟨hQuiet, hWhy⟩
  · subst hRun
    exact ⟨⟨h.size_a, hSize, h.bits_a, hBits, h.select⟩, rfl, Or.inl rfl⟩
  · subst hQuiet
    refine ⟨⟨h.size_a, hSize, h.bits_a, hBits, h.select⟩, rfl, Or.inr ⟨rfl, ?_⟩⟩
    rcases hWhy with hSame | hOther
    · rw [hSame]
      exact ⟨rfl, Or.inl rfl⟩
    · have hSel := h.select.symm.trans hOther
      refine ⟨?_, Or.inr (Or.inr ?_)⟩
      · rw [chosen_of_port0 (by exact hSel), chosen_of_port0 hSel]
      · rw [hOther]
        decide

/- A bit at the select. -/
theorem MuxzKeeps.receives_select (h : MuxzKeeps mux inputs) {bit : VvpVector4}
    (hBit : bit.size_ = 1) :
    ∃ mux', mux.recvVec4 2 bit = some mux' ∧
      MuxzReceives mux mux' inputs
        { inputs with sel := bit.value 0 } := by
  have hSet : ∀ select, selTypeOf (bit.value 0) = select →
      MuxzReceives mux
        { mux with select_ := select }.schedule inputs
        { inputs with sel := bit.value 0 } :=
    fun select hSelect => ⟨⟨h.size_a, h.size_b, h.bits_a, h.bits_b, hSelect.symm⟩, rfl, Or.inl rfl⟩
  have hStay : ∀ select, selTypeOf (bit.value 0) = select →
      mux.select_ = select →
      (mux.has_run_ = true ∨ mux.select_ ≠ .both) →
        MuxzReceives mux mux inputs
          { inputs with sel := bit.value 0 } := by
    intro select hNew hOld hAsked
    have hSel := h.select.symm.trans hOld
    refine ⟨⟨h.size_a, h.size_b, h.bits_a, h.bits_b, ?_⟩, rfl, Or.inr ⟨rfl, ?_, Or.inr hAsked⟩⟩
    · rw [hOld]
      exact hNew.symm
    · cases select with
      | port0 => rw [chosen_of_port0 (by exact hNew), chosen_of_port0 hSel]
      | port1 => rw [chosen_of_port1 (by exact hNew), chosen_of_port1 hSel]
      | both => rw [chosen_of_both (by exact hNew), chosen_of_both hSel]
  unfold VvpFunMuxz.recvVec4
  simp only [if_neg (not_not.mpr hBit)]
  cases hValue : bit.value 0 with
  | zero =>
    rw [hValue] at hSet hStay
    by_cases hOld : mux.select_ = .port0
    · refine ⟨mux, if_pos hOld, hStay .port0 rfl hOld ?_⟩
      rw [hOld]
      exact Or.inr (by decide)
    · exact ⟨_, if_neg hOld, hSet .port0 rfl⟩
  | one =>
    rw [hValue] at hSet hStay
    by_cases hOld : mux.select_ = .port1
    · refine ⟨mux, if_pos hOld, hStay .port1 rfl hOld ?_⟩
      rw [hOld]
      exact Or.inr (by decide)
    · exact ⟨_, if_neg hOld, hSet .port1 rfl⟩
  | x =>
    rw [hValue] at hSet hStay
    by_cases hOld : mux.select_ = .both ∧ mux.has_run_ = true
    · exact ⟨mux, if_pos hOld, hStay .both rfl hOld.1 (Or.inl hOld.2)⟩
    · exact ⟨_, if_neg hOld, hSet .both rfl⟩
  | z =>
    rw [hValue] at hSet hStay
    by_cases hOld : mux.select_ = .both ∧ mux.has_run_ = true
    · exact ⟨mux, if_pos hOld, hStay .both rfl hOld.1 (Or.inl hOld.2)⟩
    · exact ⟨_, if_neg hOld, hSet .both rfl⟩

/- A port that the functor does not have. -/
theorem MuxzKeeps.receives_nothing (h : MuxzKeeps mux inputs) :
    MuxzReceives mux mux inputs inputs :=
  ⟨h, rfl, Or.inr ⟨rfl, rfl, Or.inl rfl⟩⟩

/- A vector that compares equal has the same bits. -/
theorem bitsOf_eq_of_eeq {v that : VvpVector4} (h : v.eeq that = true) :
    bitsOf wid v = bitsOf wid that :=
  funext fun i => (value_of_eeq h).2 i

/- What `set_vec` leaves, and what its flag tells. -/
theorem bitsOf_setVec {v bit : VvpVector4} {base : Nat} (hSize : v.size_ = wid)
    (hPos : 1 ≤ bit.size_) (hIn : base + bit.size_ ≤ wid) :
    ∃ res flag, v.setVec base bit = some (res, flag) ∧
      res.size_ = wid ∧
      bitsOf wid res = partReplaced (bitsOf wid v) bit base ∧
      (flag = false → bitsOf wid res = bitsOf wid v) := by
  rcases setVec_spec hPos (by omega : base + bit.size_ ≤ v.size_)
    with ⟨res, flag, hSome, hRes, hBits, hFlag⟩
  refine ⟨res, flag, hSome, by omega, ?_, ?_⟩
  · funext i
    exact hBits i (by omega)
  · intro hFalse
    funext i
    by_contra hNe
    rw [hFlag.mpr ⟨i, by omega, hNe⟩] at hFalse
    cases hFalse

/- Every change of the width of its port is received. -/
theorem MuxzKeeps.receives (h : MuxzKeeps mux inputs) {change : MuxzChange}
    (hFits : change.Fits wid) :
    ∃ mux', mux.recv change = some mux' ∧
      MuxzReceives mux mux' inputs (inputs.change change) := by
  cases change with
  | full port bit =>
    match port, hFits with
    | 0, hFits =>
      by_cases hDrop : mux.a_.eeq bit = true ∧ mux.has_run_ = true
      · have hSame : bitsOf wid bit = inputs.a := by
          rw [← bitsOf_eq_of_eeq hDrop.1, h.bits_a]
        exact ⟨mux, if_pos hDrop,
          h.receives_a h.size_a (h.bits_a.trans hSame.symm) (Or.inr ⟨rfl, Or.inl hSame⟩)⟩
      · refine ⟨_, if_neg hDrop, h.receives_a hFits rfl ?_⟩
        grind
    | 1, hFits =>
      by_cases hDrop : mux.b_.eeq bit = true ∧ mux.has_run_ = true
      · have hSame : bitsOf wid bit = inputs.b := by
          rw [← bitsOf_eq_of_eeq hDrop.1, h.bits_b]
        exact ⟨mux, if_pos hDrop,
          h.receives_b h.size_b (h.bits_b.trans hSame.symm) (Or.inr ⟨rfl, Or.inl hSame⟩)⟩
      · refine ⟨_, if_neg hDrop, h.receives_b hFits rfl ?_⟩
        grind
    | 2, hFits => exact h.receives_select hFits
    | port + 3, _ => exact ⟨mux, rfl, h.receives_nothing⟩
  | part port bit base pwid vwid =>
    rcases hFits with ⟨hSize, hPos, hIn, hWidth⟩
    have hNo : ¬(bit.size_ ≠ pwid ∨ vwid < base + pwid) := by omega
    simp only [VvpFunMuxz.recv, VvpFunMuxz.recvVec4Pv, if_neg hNo]
    match port, hWidth with
    | 0, hWidth =>
      have hWid : vwid = wid := hWidth
      rcases bitsOf_setVec h.size_a (by omega) (by omega : base + bit.size_ ≤ wid) with
        ⟨a, flag, hSome, hA, hBits, hFlag⟩
      rw [h.bits_a] at hBits hFlag
      simp only [hSome, Option.bind_eq_bind, Option.bind_some]
      by_cases hDrop : flag = false ∧ mux.has_run_ = true
      · refine ⟨_, if_pos hDrop, h.receives_a hA hBits (Or.inr ⟨rfl, Or.inl ?_⟩)⟩
        rw [← hBits]
        exact hFlag hDrop.1
      · rw [if_neg hDrop]
        by_cases hOther : mux.select_ = .port1
        · exact ⟨_, if_pos hOther, h.receives_a hA hBits (Or.inr ⟨rfl, Or.inr hOther⟩)⟩
        · exact ⟨_, if_neg hOther, h.receives_a hA hBits (Or.inl rfl)⟩
    | 1, hWidth =>
      have hWid : vwid = wid := hWidth
      rcases bitsOf_setVec h.size_b (by omega) (by omega : base + bit.size_ ≤ wid) with
        ⟨b, flag, hSome, hB, hBits, hFlag⟩
      rw [h.bits_b] at hBits hFlag
      simp only [hSome, Option.bind_eq_bind, Option.bind_some]
      by_cases hDrop : flag = false ∧ mux.has_run_ = true
      · refine ⟨_, if_pos hDrop, h.receives_b hB hBits (Or.inr ⟨rfl, Or.inl ?_⟩)⟩
        rw [← hBits]
        exact hFlag hDrop.1
      · rw [if_neg hDrop]
        by_cases hOther : mux.select_ = .port0
        · exact ⟨_, if_pos hOther, h.receives_b hB hBits (Or.inr ⟨rfl, Or.inr hOther⟩)⟩
        · exact ⟨_, if_neg hOther, h.receives_b hB hBits (Or.inl rfl)⟩
    | 2, hWidth =>
      have hWid : vwid = 1 := hWidth
      have hBase : base = 0 ∧ pwid = 1 := by omega
      simp only [if_pos hBase]
      exact h.receives_select (by omega)
    | port + 3, _ => exact ⟨mux, rfl, h.receives_nothing⟩

end Receives

end EpicSim

----
-- Runs
----

namespace EpicSim

open VvpVector4 DeferredUpdate

/- What holds after any changes and runs. -/
structure MuxzInv {wid : Nat} (mux : VvpFunMuxz) (inputs : MuxzInputs wid)
    (sent : List VvpVector4) : Prop where
  keeps : MuxzKeeps mux inputs
  run : mux.has_run_ = sent.getLast?.isSome
  sizes : ∀ out ∈ sent.getLast?, out.size_ = wid
  asked : Asked (muxzUpdate mux inputs sent) ∨ mux.select_ = .both ∧ inputs = .start
  steps : Relation.ReflTransGen (Step MuxzInputs.chosen)
    (DeferredUpdate.start .start) (muxzUpdate mux inputs sent)

theorem muxzInv_new (wid : Nat) : MuxzInv (.new wid) (.start : MuxzInputs wid) [] := by
  have hZ : bitsOf wid (fill wid .z) = fun _ => .z := funext fun i => value_fill i.isLt .z
  refine ⟨⟨rfl, rfl, hZ, hZ, rfl⟩, rfl, ?_, Or.inr ⟨rfl, rfl⟩, .refl⟩
  intro out hOut
  cases hOut

variable {wid : Nat} {sent : List VvpVector4} {mux : VvpFunMuxz}
  {inputs : MuxzInputs wid}

/- A change is a step of the update, or no step. -/
theorem MuxzInv.change {mux mux' : VvpFunMuxz} {inputs inputs' : MuxzInputs wid}
    (h : MuxzInv mux inputs sent) (hReceives : MuxzReceives mux mux' inputs inputs') :
    MuxzInv mux' inputs' sent := by
  have hRun := hReceives.run.trans h.run
  rcases hReceives.net with hNet | ⟨hNet, hChosen, hWhy⟩
  · have hStep : Step MuxzInputs.chosen
        (muxzUpdate mux inputs sent)
        (muxzUpdate mux' inputs' sent) := by
      unfold muxzUpdate
      rw [hNet]
      exact Step.ask
    exact ⟨hReceives.keeps, hRun, h.sizes, Or.inl (Or.inl hNet), h.steps.tail hStep⟩
  · have hAsked : Asked (muxzUpdate mux inputs sent) ∨
        inputs' = inputs := by
      rcases hWhy with hSame | hHas | hSelect
      · exact Or.inr hSame
      · refine Or.inl (Or.inr ?_)
        show (sent.getLast?.map (bitsOf wid)).isSome = true
        rw [Option.isSome_map, ← h.run]
        exact hHas
      · rcases h.asked with hAsked | ⟨hBoth, _⟩
        · exact Or.inl hAsked
        · exact absurd hBoth hSelect
    have hUpdate : muxzUpdate mux' inputs' sent =
        { muxzUpdate mux inputs sent with inputs := inputs' } := by
      unfold muxzUpdate
      rw [hNet]
    rcases hAsked with hAsked | hSame
    · have hStep := hAsked.keep (f := MuxzInputs.chosen) hChosen
      rw [← hUpdate] at hStep
      exact ⟨hReceives.keeps, hRun, h.sizes, Or.inl (hAsked.step hStep), h.steps.tail hStep⟩
    · subst hSame
      have hUpdate' : muxzUpdate mux' inputs' sent = muxzUpdate mux inputs' sent := hUpdate
      have hSelect : mux'.select_ = mux.select_ := hReceives.keeps.select.trans h.keeps.select.symm
      refine ⟨hReceives.keeps, hRun, h.sizes, ?_, ?_⟩
      · rw [hUpdate', hSelect]
        exact h.asked
      · rw [hUpdate']
        exact h.steps

/- A run is an update. -/
theorem MuxzInv.runRun (h : MuxzInv mux inputs sent) (hNet : mux.net_ = true) :
    MuxzInv mux.runRun.1 inputs (sent ++ [mux.runRun.2]) := by
  rcases h.keeps.runRun with ⟨hSize, hBits⟩
  have hUpdate :
      muxzUpdate mux.runRun.1 inputs (sent ++ [mux.runRun.2]) =
        { muxzUpdate mux inputs sent with
          waiting := false
          latest := some inputs.chosen } := by
    unfold muxzUpdate
    rw [List.getLast?_concat, Option.map_some, hBits]
    rfl
  have hStep : Step MuxzInputs.chosen
      (muxzUpdate mux inputs sent)
      (muxzUpdate mux.runRun.1 inputs (sent ++ [mux.runRun.2])) := by
    rw [hUpdate]
    exact Step.update hNet
  refine ⟨⟨h.keeps.size_a, h.keeps.size_b, h.keeps.bits_a,
    h.keeps.bits_b, h.keeps.select⟩, ?_, ?_, Or.inl (Or.inr ?_),
    h.steps.tail hStep⟩
  · rw [List.getLast?_concat]
    rfl
  · grind
  · rw [hUpdate]
    rfl

theorem MuxzRuns.inv (h : MuxzRuns wid mux inputs sent) : MuxzInv mux inputs sent := by
  induction h with
  | new => exact muxzInv_new wid
  | change _ hFits hSome ih =>
    rcases ih.keeps.receives hFits with ⟨mux', hRecv, hReceives⟩
    have hSame := Option.some.inj (hSome.symm.trans hRecv)
    subst hSame
    exact ih.change hReceives
  | run _ hNet ih => exact ih.runRun hNet

/- The last vector sent is of the width and has these bits. -/
def LastSent {wid : Nat} (sent : List VvpVector4) (bits : Fin wid → VvpBit4) : Prop :=
  ∃ out, sent.getLast? = some out ∧ out.size_ = wid ∧ bitsOf wid out = bits

theorem MuxzInv.lastSent (h : MuxzInv mux inputs sent) (hAsked : Asked (muxzUpdate mux inputs sent))
    (hDone : mux.net_ = false) : LastSent sent inputs.chosen := by
  have hSettled := settled_of_steps (settled_start _) h.steps
  have hLast : sent.getLast?.map (bitsOf wid) = some inputs.chosen :=
    latest_of_settled hSettled hAsked hDone
  rcases Option.map_eq_some_iff.mp hLast with ⟨out, hOut, hBits⟩
  exact ⟨out, hOut, h.sizes out hOut, hBits⟩

/- Nothing has been sent and nothing has arrived, or the last
   vector is right. -/
theorem MuxzInv.settled (h : MuxzInv mux inputs sent) (hDone : mux.net_ = false) :
    (sent = [] ∧ inputs = .start) ∨
      LastSent sent inputs.chosen := by
  rcases h.asked with hAsked | ⟨_, hStart⟩
  · exact Or.inr (h.lastSent hAsked hDone)
  · by_cases hNone : sent = []
    · exact Or.inl ⟨hNone, hStart⟩
    · refine Or.inr (h.lastSent (Or.inr ?_) hDone)
      show (sent.getLast?.map (bitsOf wid)).isSome = true
      rw [Option.isSome_map]
      exact List.getLast?_isSome.mpr hNone

/-
  After the last run the functor has sent what the values on
  its inputs ask for, or nothing has been sent and nothing has
  arrived.  A run of the functor sends that and takes it off the
  schedule.  Every change that fits its port is received.  The
  three blends are the same.
-/
theorem muxz_settles :
    (∀ (wid : Nat) (mux : VvpFunMuxz) (inputs : MuxzInputs wid)
      (sent : List VvpVector4),
      MuxzRuns wid mux inputs sent →
        (mux.net_ = false → (sent = [] ∧ inputs = .start) ∨ LastSent sent inputs.chosen) ∧
        (mux.runRun.1.net_ = false ∧ mux.runRun.2.size_ = wid ∧
          bitsOf wid mux.runRun.2 = inputs.chosen) ∧
        ∀ change : MuxzChange, change.Fits wid → ∃ mux', mux.recv change = some mux') ∧
    ∀ (a b : VvpVector4) (t f : Verinum) (signed : Bool),
      a.size_ = b.size_ → SameBits t a → SameBits f b →
        ∃ res, ofBlend a b = some res ∧
          IsBlend res a b ∧ IsBlend (VvpFunMuxz.blend a b) a b ∧
          SameBits (NetExpr.blended signed t f) res := by
  refine ⟨fun wid mux inputs sent hRuns => ?_, ?_⟩
  · have hInv := hRuns.inv
    refine ⟨hInv.settled, ⟨rfl, hInv.keeps.runRun⟩, fun change hFits => ?_⟩
    rcases hInv.keeps.receives hFits with ⟨mux', hSome, _⟩
    exact ⟨mux', hSome⟩
  · intro a b t f signed hSize hT hF
    rcases ofBlend_isBlend hSize with ⟨res, hSome, hBlend⟩
    rcases blended_isBlend hSize hT hF signed with ⟨hLen, hBits⟩
    refine ⟨res, hSome, hBlend, blend_isBlend hSize, ?_, ?_⟩
    · rw [hLen, hBlend.1]
    · intro idx hIdx
      rw [hBlend.1] at hIdx
      rw [hBits idx hIdx, hBlend.2 idx hIdx]

/- The data are 00 and 11, the select turns to one, and the
   functor runs. -/
theorem muxz_settles_selected :
    (∃ mux, ∃ inputs : MuxzInputs 2, ∃ sent,
      MuxzRuns 2 mux inputs sent ∧
      inputs.a = (fun _ => .zero) ∧ inputs.sel = .one ∧
      LastSent sent (fun _ : Fin 2 => .one)) ∧
    ∃ res, ofBlend (fill 1 .one) (fill 1 .z) = some res ∧
      IsBlend res (fill 1 .one) (fill 1 .z) ∧
      IsBlend (VvpFunMuxz.blend (fill 1 .one) (fill 1 .z)) (fill 1 .one) (fill 1 .z) ∧
      SameBits (NetExpr.blended false (.fill .v1 1 true) (.fill .vz 1 true)) res := by
  have hData : MuxzRuns 2
      { VvpFunMuxz.new 2 with
        a_ := fill 2 .zero
        b_ := fill 2 .one
        net_ := true }
      ((MuxzInputs.start.change (.full 0 (fill 2 .zero))).change
        (.full 1 (fill 2 .one))) [] :=
    .change (.change .new rfl rfl) rfl rfl
  have hSelect : MuxzRuns 2 _ (MuxzInputs.change _ (.full 2 (fill 1 .one))) [] :=
    .change hData rfl rfl
  have hRun := MuxzRuns.run hSelect rfl
  have hOne : bitsOf 2 (fill 2 .one) = fun _ => .one :=
    funext fun i => value_fill i.isLt .one
  refine ⟨⟨_, _, _, hRun, funext fun i => value_fill i.isLt .zero, rfl, ?_⟩, ?_⟩
  · rcases (muxz_settles.1 _ _ _ _ hRun).1 rfl with ⟨hNone, -⟩ | hLast
    · cases hNone
    · rw [← hOne]
      exact hLast
  · exact muxz_settles.2 _ _ _ _ false rfl ⟨rfl, by decide⟩ ⟨rfl, by decide⟩

end EpicSim
