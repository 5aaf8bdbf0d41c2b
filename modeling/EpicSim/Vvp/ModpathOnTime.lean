import EpicSim.Vvp.Delay

/-
  When a module path delivers a value early.

  All pending outputs share one value, so that a wake-up
  shows the newest value; it is early when the wake-up was
  asked for by an older one.
-/

namespace EpicSim

----
-- Runs
----

/- The call that made a value the pending one. -/
structure ModpathRecv where
  time : Nat
  delay : Nat
deriving DecidableEq

/- A value on the net, and the call that made it pending. -/
structure ModpathSend where
  time : Nat
  value : List VvpBit4
  made : Option ModpathRecv
deriving DecidableEq

/- A module path, its scheduler and what was sent. -/
structure ModpathNet where
  fn : VvpFunModpath
  clock : WakeClock
  made : Option ModpathRecv
  sent : List ModpathSend
deriving DecidableEq

namespace ModpathNet

/- A new functor with its sources. -/
def create (width : Nat) (srcList ifnoneList : List VvpFunModpathSrc) : ModpathNet where
  fn := ⟨List.replicate width .x, srcList, ifnoneList⟩
  clock := .start
  made := none
  sent := []

/- A value arrives at port 0. -/
def recv (s : ModpathNet) (bit : List VvpBit4) : Option ModpathNet :=
  match s.fn.recvVec4 (time64 s.clock.now) bit with
  | none => none
  | some (fn, none) => some { s with fn := fn }
  | some (fn, some delay) =>
    some { s with
      fn := fn
      clock := s.clock.request delay
      made := some ⟨s.clock.now, delay⟩ }

/- A value arrives at a source. -/
def recvSrc (s : ModpathNet) (ifnone : Bool) (src port : Nat) (bit : List VvpBit4) : ModpathNet :=
  let wake := fun list : List VvpFunModpathSrc =>
    list.modify src (fun cur => cur.recvVec4 (time64 s.clock.now) port bit)
  { s with
    fn :=
      if ifnone then
        { s.fn with ifnoneList := wake s.fn.ifnoneList }
      else { s.fn with srcList := wake s.fn.srcList } }

/- A wake-up is delivered: `run_run`. -/
def wake (s : ModpathNet) : ModpathNet :=
  { s with
    clock := s.clock.deliver
    sent := ⟨s.clock.now, s.fn.curVec4, s.made⟩ :: s.sent }

/- Time goes on. -/
def advance (s : ModpathNet) (t : Nat) : ModpathNet :=
  { s with clock := s.clock.advance t }

/- Every value was sent at its time or later. -/
def OnTime (s : ModpathNet) : Prop :=
  ∀ out, out ∈ s.sent → ∃ call, out.made = some call ∧ call.time + call.delay ≤ out.time

end ModpathNet

/-
  The states of runs with single bits, where every value that
  arrives meets a condition.
-/
inductive ModpathReach (Ok : ModpathNet → List VvpBit4 → Prop) (width : Nat)
    (srcList ifnoneList : List VvpFunModpathSrc) :
    ModpathNet → Prop where
| start :
    ModpathReach Ok width srcList ifnoneList (.create width srcList ifnoneList)
| recv {s s' : ModpathNet} {bit : List VvpBit4} :
    ModpathReach Ok width srcList ifnoneList s →
    bit.length = 1 →
    Ok s bit →
    s.recv bit = some s' →
    ModpathReach Ok width srcList ifnoneList s'
| recvSrc {s : ModpathNet} {bit : List VvpBit4} :
    ModpathReach Ok width srcList ifnoneList s →
    (ifnone : Bool) →
    (src port : Nat) →
    ModpathReach Ok width srcList ifnoneList (s.recvSrc ifnone src port bit)
| wake {s : ModpathNet} :
    ModpathReach Ok width srcList ifnoneList s →
    s.clock.CanDeliver →
    ModpathReach Ok width srcList ifnoneList s.wake
| advance {s : ModpathNet} {t : Nat} :
    ModpathReach Ok width srcList ifnoneList s →
    s.clock.CanAdvance t →
    ModpathReach Ok width srcList ifnoneList (s.advance t)

/-
  The condition on a value that arrives and differs from the
  pending one: no pending wake-up comes before its delay is
  over.
-/
def ModpathNet.InOrder (s : ModpathNet) (bit : List VvpBit4) : Prop :=
  s.fn.curVec4 ≠ bit →
  ∀ p, p ∈ s.clock.wakeups → s.clock.now + s.fn.selectDelay (time64 s.clock.now) bit ≤ p

----
-- The Invariant
----

namespace ModpathNet

variable {s : ModpathNet}
  {srcList ifnoneList : List VvpFunModpathSrc}

/- Single bits never fail the assertion. -/
theorem recv_isSome {bit : List VvpBit4} (hBit : bit.length = 1) : (s.recv bit).isSome := by
  have hSame : s.fn.sameDelay (time64 s.clock.now) bit = true := by
    unfold VvpFunModpath.sameDelay
    grind
  unfold recv VvpFunModpath.recvVec4
  by_cases hEqual : s.fn.curVec4 = bit
  · rw [if_pos hEqual]
    rfl
  · rw [if_neg hEqual, if_pos hSame]
    rfl

/- What a value does that arrives. -/
theorem recv_cases {s s' : ModpathNet} {bit : List VvpBit4} (h : s.recv bit = some s') :
    s.fn.curVec4 = bit ∧ s' = s ∨
    s.fn.curVec4 ≠ bit ∧
      s' =
        { s with
          fn := { s.fn with curVec4 := bit }
          clock := s.clock.request (s.fn.selectDelay (time64 s.clock.now) bit)
          made := some ⟨s.clock.now,
            s.fn.selectDelay (time64 s.clock.now) bit⟩ } := by
  unfold recv VvpFunModpath.recvVec4 at h
  by_cases hEqual : s.fn.curVec4 = bit
  · rw [if_pos hEqual] at h
    left
    exact ⟨hEqual, (Option.some.inj h).symm⟩
  · grind

/-
  No pending wake-up comes before the delay of the pending
  value is over, and no value was sent early.
-/
structure Inv (s : ModpathNet) : Prop where
  pending : ∀ p, p ∈ s.clock.wakeups → ∃ call, s.made = some call ∧ call.time + call.delay ≤ p
  onTime : s.OnTime

theorem inv_create (width : Nat) (srcList ifnoneList : List VvpFunModpathSrc) :
    (create width srcList ifnoneList).Inv where
  pending := by
    intro p hp
    cases hp
  onTime := by
    intro out hOut
    cases hOut

theorem Inv.recv {s s' : ModpathNet} {bit : List VvpBit4} (h : s.Inv) (hOk : s.InOrder bit)
    (hRecv : s.recv bit = some s') : s'.Inv := by
  rcases recv_cases hRecv with ⟨_, rfl⟩ | ⟨hOther, rfl⟩
  · exact h
  · refine ⟨?_, h.onTime⟩
    intro p hp
    refine ⟨_, rfl, ?_⟩
    rcases List.mem_cons.mp hp with rfl | hp
    · exact Nat.le_refl _
    · exact hOk hOther p hp

theorem Inv.wake (h : s.Inv) (hWake : s.clock.CanDeliver) : s.wake.Inv where
  pending := by
    intro p hp
    exact h.pending p (List.mem_of_mem_erase hp)
  onTime := by
    intro out hOut
    rcases List.mem_cons.mp hOut with rfl | hOut
    · exact h.pending _ hWake
    · exact h.onTime out hOut

theorem inv_of_reach {width : Nat}
    (hReach : ModpathReach ModpathNet.InOrder width srcList ifnoneList s) : s.Inv := by
  induction hReach with
  | start => exact inv_create width srcList ifnoneList
  | recv _ _ hOk hRecv ih => exact ih.recv hOk hRecv
  | recvSrc _ _ _ _ ih => exact ⟨ih.pending, ih.onTime⟩
  | wake _ hWake ih => exact ih.wake hWake
  | advance _ _ ih => exact ⟨ih.pending, ih.onTime⟩

----
-- Out of Order
----

theorem ahead_of_reach {Ok : ModpathNet → List VvpBit4 → Prop} {width : Nat}
    (hReach : ModpathReach Ok width srcList ifnoneList s) : s.clock.Ahead := by
  induction hReach with
  | start => exact WakeClock.ahead_start
  | recv _ _ _ hRecv ih =>
    rcases recv_cases hRecv with ⟨_, rfl⟩ | ⟨_, rfl⟩
    · exact ih
    · exact ih.request _
  | recvSrc _ _ _ _ ih => exact ih
  | wake _ _ ih => exact ih.deliver
  | advance _ hAdvance _ => exact WakeClock.ahead_advance hAdvance

/- A pending wake-up that no other one comes before. -/
theorem exists_first {wakeups : List Nat} {p : Nat} (hp : p ∈ wakeups) :
    ∃ q, q ∈ wakeups ∧ q ≤ p ∧ ∀ r, r ∈ wakeups → q ≤ r := by
  induction wakeups generalizing p with
  | nil => cases hp
  | cons w rest ih =>
    by_cases hRest : ∃ r, r ∈ rest ∧ r < w
    · rcases hRest with ⟨r, hr, hLess⟩
      rcases ih hr with ⟨q, hq, hLe, hFirst⟩
      refine ⟨q, by simp [hq], ?_, ?_⟩
      · rcases List.mem_cons.mp hp with rfl | hp
        · omega
        · exact hFirst p hp
      · intro r' hr'
        rcases List.mem_cons.mp hr' with rfl | hr'
        · omega
        · exact hFirst r' hr'
    · grind

/- The next wake-up shows a value whose delay is not over. -/
theorem early_of_pending
    {Ok : ModpathNet → List VvpBit4 → Prop} {width p : Nat} {call : ModpathRecv}
    (hReach : ModpathReach Ok width srcList ifnoneList s)
    (hMade : s.made = some call) (hp : p ∈ s.clock.wakeups) (hEarly : p < call.time + call.delay) :
    ∃ t,
      (t = s ∨ ∃ q, t = s.advance q) ∧
      ModpathReach Ok width srcList ifnoneList t.wake ∧
      ¬ t.wake.OnTime := by
  rcases exists_first hp with ⟨q, hq, hLe, hFirst⟩
  have hAhead := ahead_of_reach hReach q hq
  -- Go to the time of the wake-up, if it is not there yet.
  have hDue :
      ∃ t : ModpathNet,
        (t = s ∨ ∃ q, t = s.advance q) ∧
        ModpathReach Ok width srcList ifnoneList t ∧
        t.made = some call ∧
        t.clock.now = q ∧
        t.clock.CanDeliver := by
    by_cases hNow : s.clock.now = q
    · refine ⟨s, Or.inl rfl, hReach, hMade, hNow, ?_⟩
      unfold WakeClock.CanDeliver
      rw [hNow]
      exact hq
    · exact ⟨s.advance q, Or.inr ⟨q, rfl⟩, hReach.advance ⟨by omega, hFirst⟩, hMade, rfl, hq⟩
  rcases hDue with ⟨t, hNext, hReach', hMade', hNow, hDeliver⟩
  refine ⟨t, hNext, hReach'.wake hDeliver, ?_⟩
  intro hOnTime
  rcases hOnTime ⟨t.clock.now, t.fn.curVec4, t.made⟩ (List.mem_cons_self ..) with
    ⟨call', hCall, hTime⟩
  rw [hMade'] at hCall
  cases hCall
  simp only at hTime
  omega

end ModpathNet

----
-- Times of Delivery
----

/-
  When every value that arrives meets the condition, no value
  is sent early.  A value that arrives in any run without
  meeting it is received, and unless another one comes first,
  the next wake-up sends it early.
-/
theorem modpath_on_time {width : Nat} {srcList ifnoneList : List VvpFunModpathSrc} :
    (∀ s : ModpathNet, ModpathReach ModpathNet.InOrder width srcList ifnoneList s → s.OnTime) ∧
    ∀ (s : ModpathNet) (bit : List VvpBit4),
      ModpathReach (fun _ _ => True) width srcList ifnoneList s →
      bit.length = 1 →
      ∃ s', s.recv bit = some s' ∧
        (¬ s.InOrder bit →
          ∃ t,
            (t = s' ∨ ∃ q, t = s'.advance q) ∧
            ModpathReach (fun _ _ => True) width srcList ifnoneList t.wake ∧
            ¬ t.wake.OnTime) := by
  constructor
  · intro s hReach
    exact (ModpathNet.inv_of_reach hReach).onTime
  · intro s bit hReach hBit
    rcases Option.isSome_iff_exists.mp (ModpathNet.recv_isSome hBit) with ⟨s', hRecv⟩
    refine ⟨s', hRecv, ?_⟩
    intro hDisorder
    have hReach' := hReach.recv hBit trivial hRecv
    rcases ModpathNet.recv_cases hRecv with ⟨hEqual, _⟩ | ⟨_, rfl⟩
    · exact absurd (fun hOther => absurd hEqual hOther) hDisorder
    · unfold ModpathNet.InOrder at hDisorder
      push Not at hDisorder
      rcases hDisorder with ⟨_, p, hp, hLess⟩
      exact ModpathNet.early_of_pending hReach' rfl (List.mem_cons_of_mem _ hp) hLess

/- A path that takes ten units for every change. -/
def tenUnits : VvpFunModpathSrc := .create (fun _ => 10) none

/- The value of that path changes once. -/
def tenUnitsRise : ModpathNet :=
  ⟨⟨[.one], [tenUnits], []⟩, ⟨0, [10]⟩, some ⟨0, 10⟩, []⟩

theorem modpath_on_time_rise : ((tenUnitsRise.advance 10).wake).OnTime := by
  have hArrives :
      ModpathNet.InOrder (.create 1 [tenUnits] []) [.one] := by
    intro _ p hp
    cases hp
  have hReach :
      ModpathReach ModpathNet.InOrder 1 [tenUnits] [] (tenUnitsRise.advance 10).wake := by
    apply ModpathReach.wake _ (by decide)
    apply ModpathReach.advance _ (by decide)
    exact ModpathReach.recv ModpathReach.start rfl hArrives (by decide)
  exact modpath_on_time.1 _ hReach

/- And changes back at time 5, after the input of the path. -/
def tenUnitsPulse : ModpathNet :=
  ⟨⟨[.zero], [{ tenUnits with wakeTime := 5 }], []⟩, ⟨5, [15, 10]⟩, some ⟨5, 10⟩, []⟩

/-
  The value of time 5 is shown at time 10, by the wake-up for
  the first value.
-/
theorem modpath_early :
    ¬ ∀ (width : Nat) (srcList ifnoneList : List VvpFunModpathSrc) (s : ModpathNet),
      ModpathReach (fun _ _ => True) width srcList ifnoneList s →
      s.OnTime := by
  intro hAll
  have hOnTime := hAll 1 [tenUnits] []
    (tenUnitsPulse.advance 10).wake (by
      apply ModpathReach.wake _ (by decide)
      apply ModpathReach.advance _ (by decide)
      have hRise : ModpathReach (fun _ _ => True) 1 [tenUnits] [] tenUnitsRise :=
        @ModpathReach.recv _ _ _ _ _ _ [.one] ModpathReach.start
          rfl trivial (by decide)
      have hSource :
          ModpathReach (fun _ _ => True) 1 [tenUnits] []
            ((tenUnitsRise.advance 5).recvSrc false 0 0 [.one]) :=
        (hRise.advance (by decide)).recvSrc false 0 0
      exact @ModpathReach.recv _ _ _ _ _ _ [.zero] hSource
        rfl trivial (by decide))
  rcases hOnTime ⟨10, [.zero], some ⟨5, 10⟩⟩ (by decide) with ⟨call, hCall, hTime⟩
  cases hCall
  revert hTime
  decide

end EpicSim
