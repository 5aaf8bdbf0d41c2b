import EpicSim.Lib.CText
import EpicSim.Vvp.Vector4

/-
  Flip-flops and latches.

  A flip-flop remembers the clock only while it is enabled and
  its asynchronous input is 0, so that it judges an edge by a
  level of long ago.
-/

----
-- Flip-flops
----

namespace EpicSim

open VvpVector4 (fill)

/- `vvp_dff` and the classes derived from it. -/
inductive DffKind where
| plain
| aclr
| aset
| asc (asc_value_ : VvpVector4)

/- The set or clear value, with `d_` of a width. -/
def DffKind.asyncValue (width : Nat) : DffKind → Option VvpVector4
| .plain => none
| .aclr => some (fill width .zero)
| .aset => some (fill width .one)
| .asc asc_value_ => some asc_value_

/- What a functor does with a value. -/
inductive NetAction where
| schedulePropagateVector (bit : VvpVector4)
| sendVec4 (bit : VvpVector4)

/- The value that is scheduled. -/
def NetAction.scheduled : Option NetAction → Option VvpVector4
| some (.schedulePropagateVector bit) => some bit
| _ => none

open NetAction (scheduled)

structure VvpDff where
  kind : DffKind
  clk_active_ : VvpBit4
  clk_ : VvpBit4
  ena_ : VvpBit4
  asc_ : VvpBit4
  d_ : VvpVector4

/- The active level of the clock. -/
def activeLevel (negedge : Bool) : VvpBit4 :=
  if negedge then .zero else .one

namespace VvpDff

def new (kind : DffKind) (width : Nat) (negedge : Bool) : VvpDff :=
  ⟨kind, activeLevel negedge, .x, .x, .z, fill width .x⟩

/- `recv_vec4`; none is a failed assertion. -/
def recvVec4 (f : VvpDff) (port : Fin 4) (bit : VvpVector4) : Option (VvpDff × Option NetAction) :=
  match port with
  | 0 => some ({ f with d_ := bit }, none)
  | 1 =>
    if bit.size_ ≠ 1 then none
    else if f.asc_ ≠ .zero then some (f, none)
    else if f.ena_ ≠ .one then some (f, none)
    else
      let tmp := f.clk_
      let f := { f with clk_ := bit.value 0 }
      if f.clk_ = f.clk_active_ ∧ tmp ≠ f.clk_active_ then
        some (f, some (.schedulePropagateVector f.d_))
      else some (f, none)
  | 2 =>
    if bit.size_ ≠ 1 then none
    else some ({ f with ena_ := bit.value 0 }, none)
  | 3 =>
    if bit.size_ ≠ 1 then none
    else
      let tmp := f.asc_
      let f := { f with asc_ := bit.value 0 }
      if f.asc_ = .one ∧ tmp ≠ .one then
        -- `recv_async`, which the plain flip-flop must not reach
        (f.kind.asyncValue f.d_.size_).map fun value => (f, some (.schedulePropagateVector value))
      else if tmp = .z then
        some (f, some (.sendVec4 (fill f.d_.size_ .x)))
      else some (f, none)

/- What each value that arrives leads to. -/
def run : VvpDff → List (Fin 4 × VvpVector4) → Option (List (Option NetAction))
| _, [] => some []
| f, (port, bit) :: inputs => do
  let (f, action) ← f.recvVec4 port bit
  let actions ← run f inputs
  some (action :: actions)

end VvpDff

----
-- Latches
----

structure VvpLatch where
  en_ : VvpBit4
  d_ : VvpVector4

namespace VvpLatch

def new (width : Nat) : VvpLatch := ⟨.x, fill width .x⟩

/- `recv_vec4`; none is a failed assertion. -/
def recvVec4 (f : VvpLatch) (port : Fin 4)
    (bit : VvpVector4) : Option (VvpLatch × Option NetAction) :=
  match port with
  | 0 =>
    let f := { f with d_ := bit }
    some (f, if f.en_ = .one then
      some (.schedulePropagateVector f.d_) else none)
  | 1 =>
    if bit.size_ ≠ 1 then none
    else
      let tmp := f.en_
      let f := { f with en_ := bit.value 0 }
      some (f, if f.en_ = .one ∧ tmp ≠ .one then
        some (.schedulePropagateVector f.d_) else none)
  | 2 => none
  | 3 => some (f, some (.sendVec4 (fill f.d_.size_ .x)))

def run : VvpLatch → List (Fin 4 × VvpVector4) → Option (List (Option NetAction))
| _, [] => some []
| f, (port, bit) :: inputs => do
  let (f, action) ← f.recvVec4 port bit
  let actions ← run f inputs
  some (action :: actions)

end VvpLatch

----
-- Levels
----

/-
  The levels that have arrived at a flip-flop.  `held` is the
  clock as it last arrived while the flip-flop was enabled.
-/
structure DffLevels where
  d : VvpVector4
  clk : VvpBit4
  ena : VvpBit4
  asc : VvpBit4
  held : VvpBit4

namespace DffLevels

def start (width : Nat) : DffLevels :=
  ⟨fill width .x, .x, .x, .z, .x⟩

/- CE is 1, and the asynchronous input 0. -/
def Enabled (lv : DffLevels) : Prop :=
  lv.ena = .one ∧ lv.asc = .zero

instance (lv : DffLevels) : Decidable lv.Enabled :=
  inferInstanceAs (Decidable (_ ∧ _))

def arrive (lv : DffLevels) (port : Fin 4) (bit : VvpVector4) : DffLevels :=
  match port with
  | 0 => { lv with d := bit }
  | 1 =>
    { lv with
      clk := bit.value 0
      held := if lv.Enabled then bit.value 0 else lv.held }
  | 2 => { lv with ena := bit.value 0 }
  | 3 => { lv with asc := bit.value 0 }

/- What is to be scheduled when a value arrives. -/
def due (kind : DffKind) (active : VvpBit4) (lv : DffLevels) (port : Fin 4)
    (bit : VvpVector4) : Option VvpVector4 :=
  if port = 1 ∧ lv.Enabled ∧ bit.value 0 = active ∧
      lv.clk ≠ active then
    some lv.d
  else if port = 3 ∧ bit.value 0 = .one ∧ lv.asc ≠ .one then
    kind.asyncValue lv.d.size_
  else none

def duesFrom (kind : DffKind) (active : VvpBit4) :
    DffLevels → List (Fin 4 × VvpVector4) → List (Option VvpVector4)
| _, [] => []
| lv, (port, bit) :: inputs =>
  due kind active lv port bit :: duesFrom kind active (lv.arrive port bit) inputs

/- An edge of an enabled flip-flop is one from both levels. -/
def Judged (active : VvpBit4) (lv : DffLevels) (port : Fin 4) (bit : VvpVector4) : Prop :=
  port = 1 → lv.Enabled → bit.value 0 = active → (lv.held = active ↔ lv.clk = active)

def JudgedFrom (active : VvpBit4) : DffLevels → List (Fin 4 × VvpVector4) → Prop
| _, [] => True
| lv, (port, bit) :: inputs =>
  lv.Judged active port bit ∧ JudgedFrom active (lv.arrive port bit) inputs

end DffLevels

/- A value that a port takes.  The plain flip-flop has nothing
   connected to the asynchronous input. -/
def DffKind.Fits (kind : DffKind) (port : Fin 4) (bit : VvpVector4) : Prop :=
  (port ≠ 0 → bit.size_ = 1) ∧ (kind = .plain → port = 3 → bit.value 0 ≠ .one)

/- A run schedules what is due, and nothing else. -/
def DffFollows (kind : DffKind) (width : Nat) (negedge : Bool)
    (inputs : List (Fin 4 × VvpVector4)) : Prop :=
  ∃ actions,
    (VvpDff.new kind width negedge).run inputs = some actions ∧
      actions.map scheduled =
        DffLevels.duesFrom kind (activeLevel negedge) (DffLevels.start width) inputs

/- The levels at a latch, and D at the last time EN was 1. -/
structure LatchLevels where
  d : VvpVector4
  en : VvpBit4
  last : Option VvpVector4

def LatchLevels.arrive (lv : LatchLevels) (input : Fin 4 × VvpVector4) : LatchLevels :=
  let d := if input.1 = 0 then input.2 else lv.d
  let en := if input.1 = 1 then input.2.value 0 else lv.en
  ⟨d, en, if en = .one then some d else lv.last⟩

/- The last value that is scheduled. -/
def lastScheduled (first : Option VvpVector4)
    (actions : List (Option NetAction)) : Option VvpVector4 :=
  actions.foldl (fun last action => (scheduled action).or last) first

/- The last scheduled value is D of the last time EN was 1. -/
def LatchFollows (width : Nat) (inputs : List (Fin 4 × VvpVector4)) : Prop :=
  ∃ actions, (VvpLatch.new width).run inputs = some actions ∧
    lastScheduled none actions =
      (inputs.foldl LatchLevels.arrive ⟨fill width .x, .x, none⟩).last

/- A value that a port of a latch takes. -/
def LatchFits (input : Fin 4 × VvpVector4) : Prop :=
  (input.1 = 1 → input.2.size_ = 1) ∧ input.1 ≠ 2

----
-- Steps
----

variable {f f' : VvpDff} {lv : DffLevels} {active : VvpBit4}

/- The state of a flip-flop, by the levels that have arrived. -/
structure VvpDff.Tracks (f : VvpDff) (active : VvpBit4) (lv : DffLevels) : Prop where
  clk_active_ : f.clk_active_ = active
  clk_ : f.clk_ = lv.held
  ena_ : f.ena_ = lv.ena
  asc_ : f.asc_ = lv.asc
  d_ : f.d_ = lv.d

/- A step follows the levels, and schedules what is due where
   the edge is judged well. -/
theorem VvpDff.recvVec4_spec (h : f.Tracks active lv) {port : Fin 4} {bit : VvpVector4}
    (hFits : f.kind.Fits port bit) :
    ∃ f' action, f.recvVec4 port bit = some (f', action) ∧
      f'.kind = f.kind ∧
      f'.Tracks active (lv.arrive port bit) ∧
      (scheduled action = lv.due f.kind active port bit ↔
        lv.Judged active port bit) := by
  rcases f with ⟨kind, clkActive, clk, ena, asc, d⟩
  rcases lv with ⟨d', clk', ena', asc', held⟩
  rcases h with ⟨hActive, hClk, hEna, hAsc, hD⟩
  subst hActive hClk hEna hAsc hD
  rcases hFits with ⟨hSize, hPlain⟩
  unfold recvVec4 DffLevels.arrive DffLevels.due DffLevels.Judged DffLevels.Enabled
  match port with
  | 0 =>
    exact ⟨_, _, rfl, rfl, ⟨rfl, rfl, rfl, rfl, rfl⟩,
      iff_of_true rfl (fun h => absurd h (by decide))⟩
  | 1 =>
    rw [if_neg (not_not.mpr (hSize (by decide)))]
    by_cases hAsc : asc = .zero
    · rw [if_neg (not_not.mpr hAsc)]
      by_cases hEna : ena = .one
      · rw [if_neg (not_not.mpr hEna)]
        by_cases hNow : bit.value 0 = clkActive
        · by_cases hBefore : clk = clkActive
          · rw [if_neg (fun h => h.2 hBefore)]
            refine ⟨_, _, rfl, rfl, ⟨rfl, (if_pos ⟨hEna, hAsc⟩).symm, rfl, rfl, rfl⟩, ?_⟩
            by_cases hLast : clk' = clkActive
            · simp [scheduled, hBefore]
            · simp [scheduled, hBefore]
          · rw [if_pos ⟨hNow, hBefore⟩]
            refine ⟨_, _, rfl, rfl, ⟨rfl, (if_pos ⟨hEna, hAsc⟩).symm, rfl, rfl, rfl⟩, ?_⟩
            by_cases hLast : clk' = clkActive
            · simp [scheduled, hBefore, hNow, hEna, hAsc]
            · simp [scheduled, hBefore, hNow, hEna, hAsc]
        · rw [if_neg (fun h => hNow h.1)]
          refine ⟨_, _, rfl, rfl, ⟨rfl, (if_pos ⟨hEna, hAsc⟩).symm, rfl, rfl, rfl⟩, ?_⟩
          simp [scheduled, hNow]
      · rw [if_pos hEna]
        refine ⟨_, _, rfl, rfl, ⟨rfl, (if_neg (fun h => hEna h.1)).symm, rfl, rfl, rfl⟩, ?_⟩
        simp [scheduled, hEna]
    · rw [if_pos hAsc]
      refine ⟨_, _, rfl, rfl, ⟨rfl, (if_neg (fun h => hAsc h.2)).symm, rfl, rfl, rfl⟩, ?_⟩
      simp [scheduled, hAsc]
  | 2 =>
    have hOne : bit.size_ = 1 := hSize (by decide)
    simp only [hOne]
    refine ⟨_, _, rfl, ?_, ?_, ?_⟩
    · rfl
    · exact ⟨rfl, rfl, rfl, rfl, rfl⟩
    · exact iff_of_true rfl (fun h => absurd h (by decide))
  | 3 =>
    have hOne : bit.size_ = 1 := hSize (by decide)
    simp only [hOne]
    by_cases hSet : bit.value 0 = .one ∧ asc ≠ .one
    · have hValue : ∃ value,
          kind.asyncValue d.size_ = some value := by
        cases kind with
        | plain => exact absurd hSet.1 (hPlain rfl rfl)
        | aclr => exact ⟨_, rfl⟩
        | aset => exact ⟨_, rfl⟩
        | asc => exact ⟨_, rfl⟩
      rcases hValue with ⟨value, hValue⟩
      rw [if_pos hSet, hValue]
      refine ⟨_, _, rfl, ?_, ?_, ?_⟩
      · rfl
      · exact ⟨rfl, rfl, rfl, rfl, rfl⟩
      · simp [scheduled, hSet]
    · rw [if_neg hSet]
      by_cases hFirst : asc = .z
      · rw [if_pos hFirst]
        refine ⟨_, _, rfl, ?_, ?_, ?_⟩
        · rfl
        · exact ⟨rfl, rfl, rfl, rfl, rfl⟩
        · simp [scheduled, hSet]
      · rw [if_neg hFirst]
        refine ⟨_, _, rfl, ?_, ?_, ?_⟩
        · rfl
        · exact ⟨rfl, rfl, rfl, rfl, rfl⟩
        · simp [scheduled, hSet]

/- A step of a latch, by the levels at it. -/
theorem VvpLatch.recvVec4_spec {latch : VvpLatch} {lv : LatchLevels} (hD : latch.d_ = lv.d)
    (hEn : latch.en_ = lv.en) (hLast : lv.en = .one → lv.last = some lv.d)
    {input : Fin 4 × VvpVector4} (hFits : LatchFits input) :
    ∃ latch' action,
      latch.recvVec4 input.1 input.2 = some (latch', action) ∧
      latch'.d_ = (lv.arrive input).d ∧
      latch'.en_ = (lv.arrive input).en ∧
      ((lv.arrive input).en = .one → (lv.arrive input).last = some (lv.arrive input).d) ∧
      (scheduled action).or lv.last = (lv.arrive input).last := by
  rcases latch with ⟨en, d⟩
  rcases lv with ⟨d', en', last⟩
  rcases input with ⟨port, bit⟩
  dsimp only at hD hEn hLast
  subst hD hEn
  rcases hFits with ⟨hSize, hPort⟩
  unfold recvVec4 LatchLevels.arrive
  match port with
  | 0 =>
    refine ⟨_, _, rfl, rfl, rfl, fun h => if_pos h, ?_⟩
    by_cases hOpen : en = .one
    · simp [scheduled, hOpen]
    · simp [scheduled, hOpen]
  | 1 =>
    rw [if_neg (not_not.mpr (hSize rfl))]
    refine ⟨_, _, rfl, rfl, rfl, fun h => if_pos h, ?_⟩
    by_cases hNow : bit.value 0 = .one
    · by_cases hOpen : en = .one
      · simp [scheduled, hOpen, hLast hOpen]
      · simp [scheduled, hOpen, hNow]
    · simp [scheduled, hNow]
  | 2 => exact absurd rfl hPort
  | 3 =>
    refine ⟨_, _, rfl, rfl, rfl, fun h => if_pos h, ?_⟩
    by_cases hOpen : en = .one
    · simp [scheduled, hLast hOpen]
    · simp [scheduled, hOpen]

----
-- Runs
----

theorem VvpDff.run_spec {inputs : List (Fin 4 × VvpVector4)} (h : f.Tracks active lv)
    (hFits : ∀ input ∈ inputs, f.kind.Fits input.1 input.2) :
    ∃ actions, f.run inputs = some actions ∧
      (actions.map scheduled = DffLevels.duesFrom f.kind active lv inputs ↔
        DffLevels.JudgedFrom active lv inputs) := by
  induction inputs generalizing f lv with
  | nil => exact ⟨[], rfl, iff_of_true rfl trivial⟩
  | cons input inputs ih =>
    rcases List.forall_mem_cons.mp hFits with ⟨hFirst, hRest⟩
    rcases recvVec4_spec h hFirst with ⟨f', action, hStep, hKind, hTracks, hIff⟩
    rw [← hKind] at hRest
    rcases ih hTracks hRest with ⟨actions, hRun, hAll⟩
    refine ⟨action :: actions, ?_, ?_⟩
    · simp only [run, hStep, hRun, Option.bind_eq_bind, Option.bind_some]
    · rw [List.map_cons, DffLevels.duesFrom,
        DffLevels.JudgedFrom, List.cons.injEq, hIff, ← hAll, hKind]

theorem VvpLatch.run_spec {latch : VvpLatch} {lv : LatchLevels}
    {inputs : List (Fin 4 × VvpVector4)} (hD : latch.d_ = lv.d)
    (hEn : latch.en_ = lv.en) (hLast : lv.en = .one → lv.last = some lv.d)
    (hFits : ∀ input ∈ inputs, LatchFits input) :
    ∃ actions, latch.run inputs = some actions ∧
      lastScheduled lv.last actions = (inputs.foldl LatchLevels.arrive lv).last := by
  induction inputs generalizing latch lv with
  | nil => exact ⟨[], rfl, rfl⟩
  | cons input inputs ih =>
    rcases List.forall_mem_cons.mp hFits with ⟨hFirst, hRest⟩
    rcases recvVec4_spec hD hEn hLast hFirst with ⟨latch', action, hStep, hD', hEn', hLast', hNext⟩
    rcases ih hD' hEn' hLast' hRest with ⟨actions, hRun, hAll⟩
    refine ⟨action :: actions, ?_, ?_⟩
    · simp only [run, hStep, hRun, Option.bind_eq_bind, Option.bind_some]
    · rw [lastScheduled, List.foldl_cons, hNext]
      exact hAll

/-
  In every run a flip-flop schedules what is due if and only
  if each edge is judged well; a latch always shows D of the
  last time that EN was 1.
-/
theorem flip_flops_exact (kind : DffKind) (width : Nat) (negedge : Bool)
    {inputs latchInputs : List (Fin 4 × VvpVector4)}
    (hFits : ∀ input ∈ inputs, kind.Fits input.1 input.2)
    (hLatch : ∀ input ∈ latchInputs, LatchFits input) :
    (DffFollows kind width negedge inputs ↔
      DffLevels.JudgedFrom (activeLevel negedge) (DffLevels.start width) inputs) ∧
    LatchFollows width latchInputs := by
  constructor
  · have hStart : (VvpDff.new kind width negedge).Tracks
        (activeLevel negedge) (DffLevels.start width) :=
      ⟨rfl, rfl, rfl, rfl, rfl⟩
    rcases VvpDff.run_spec hStart hFits with ⟨actions, hRun, hIff⟩
    rw [← hIff]
    constructor
    · rintro ⟨actions', hRun', hDue⟩
      rw [hRun] at hRun'
      injection hRun' with hSame
      rw [hSame]
      exact hDue
    · exact fun hDue => ⟨actions, hRun, hDue⟩
  · have hShut : VvpBit4.x = .one →
        (none : Option VvpVector4) = some (fill width .x) := by
      intro h
      cases h
    exact @VvpLatch.run_spec (VvpLatch.new width)
      ⟨fill width .x, .x, none⟩ _ rfl rfl hShut hLatch

/- An edge of an enabled flip-flop, from the initial level. -/
theorem flip_flops_exact_edge :
    DffFollows .aclr 4 false
      [(3, fill 1 .zero), (2, fill 1 .one), (1, fill 1 .one)] ∧
      LatchFollows 4 [(1, fill 1 .one)] := by
  have hBoth := @flip_flops_exact .aclr 4 false
    [(3, fill 1 .zero), (2, fill 1 .one), (1, fill 1 .one)]
    [(1, fill 1 .one)] (by simp [DffKind.Fits])
    (by simp [LatchFits])
  refine ⟨hBoth.1.mpr ?_, hBoth.2⟩
  simp only [DffLevels.JudgedFrom, DffLevels.Judged]
  decide

/- The clock falls while the flip-flop is not enabled: its next
   edge is missed. -/
theorem edge_missed :
    ¬∀ (kind : DffKind) (width : Nat) (negedge : Bool)
      (inputs : List (Fin 4 × VvpVector4)),
      (∀ input ∈ inputs, kind.Fits input.1 input.2) →
        DffFollows kind width negedge inputs := by
  intro h
  rcases h .aclr 1 false
    [(3, fill 1 .zero), (2, fill 1 .one), (1, fill 1 .one),
      (2, fill 1 .zero), (1, fill 1 .zero), (2, fill 1 .one),
      (1, fill 1 .one)] (by simp [DffKind.Fits]) with
    ⟨actions, hRun, hDue⟩
  injection hRun with hSame
  rw [← hSame] at hDue
  have hLast := congrArg (fun dues => (dues.getD 6 none).isSome) hDue
  revert hLast
  decide

end EpicSim
