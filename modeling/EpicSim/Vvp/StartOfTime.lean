import EpicSim.Vvp.OnTime

/-
  Callbacks at the start of a time step.  Their queue is only
  drained when the time advances to its cell.
-/

----
-- Start Callbacks
----

namespace EpicSim

/- `schedule_at_start_of_simtime`. -/
def scheduleAtStartOfSimtime {ε : Type*} (obj : ε) (delay : Nat) : SchedCall ε :=
  .scheduleEvent obj delay .seqStart

/-
  The call of `make_at_start_of_sim_time`, given the present
  time and the time asked for, which must not be past.
-/
def makeAtStartOfSimTime {ε : Type*} (cb : ε) (cur tv : Nat) : Option (SchedCall ε) :=
  if cur > tv then none
  else if cur = tv then some (scheduleAtStartOfSimtime cb 0)
  else some (scheduleAtStartOfSimtime cb (tv - cur))

theorem makeAtStartOfSimTime_eq_some {ε : Type*} {cb obj : ε} {cur tv delay : Nat} {q : EventQueueT}
    (h : makeAtStartOfSimTime cb cur tv = some (.scheduleEvent obj delay q)) :
    q = .seqStart ∧ (0 < delay ↔ cur < tv) := by
  unfold makeAtStartOfSimTime scheduleAtStartOfSimtime at h
  split_ifs at h with hPast hNow
  · grind
  · grind

/-
  The start calls that are served: those for a later time and
  those made while the start events of the step run.
-/
def Scheduled.OnStart (c : Scheduled) : Prop :=
  0 < c.delay ∨ c.phase = .startLoop

----
-- Served And Forgotten Start Events
----

namespace Agenda

/-
  Start events that are served wait for the advance to their
  time; the others came too late for it.
-/
structure Started (a : Agenda) : Prop where
  kept :
    ∀ c, .scheduled c ∈ a.trace → c.queue = .seqStart →
      c.OnStart →
        c.id ∈ executedIds a.trace ∨
          c.id ∈ a.slot c.due .seqStart ∧
            (a.time < c.due ∨ a.time = c.due ∧ (a.phase = .startLoop ∨ a.phase = .aborted))
  late :
    ∀ c, .scheduled c ∈ a.trace → c.queue = .seqStart →
      ¬c.OnStart →
        c.id ∉ executedIds a.trace ∧ c.due ≤ a.time ∧ (a.time = c.due → a.phase ≠ .startLoop)
  deleted :
    ∀ due earlier, .deleted due :: earlier <:+ a.trace →
      ∀ c, .scheduled c ∈ earlier → c.queue = .seqStart →
        c.due = due → c.OnStart → c.id ∈ executedIds earlier

/- A new call, whatever its queue. -/
theorem started_scheduled {a : Agenda} (hLedger : a.Ledger) (h : a.Started)
    (q : EventQueueT) (push : Bool) (delay : Nat) {slot : Nat → EventQueueT → List Nat}
    (hSlot : ∀ time q' id, id ∈ a.slot time q' → id ∈ slot time q')
    (hNew : a.fresh ∈ slot (a.time + delay) q) :
    Started
      { a with
        slot := slot
        fresh := a.fresh + 1
        trace :=
          .scheduled (a.record q push delay) :: a.trace } := by
  refine ⟨?_, ?_, ?_⟩
  · intro c hc hStart hOn
    rcases List.mem_cons.mp hc with hEq | hOld
    · injection hEq with hEq
      subst hEq
      have hQueue : q = .seqStart := hStart
      subst hQueue
      right
      refine ⟨hNew, ?_⟩
      rcases hOn with hDelay | hPhase
      · exact Or.inl (Nat.lt_add_of_pos_right hDelay)
      · rcases Nat.eq_zero_or_pos delay with rfl | hDelay
        · exact Or.inr ⟨rfl, Or.inl hPhase⟩
        · exact Or.inl (Nat.lt_add_of_pos_right hDelay)
    · rcases h.kept c hOld hStart hOn with hDone | ⟨hId, hRest⟩
      · exact Or.inl hDone
      · exact Or.inr ⟨hSlot _ _ _ hId, hRest⟩
  · intro c hc hStart hOff
    rcases List.mem_cons.mp hc with hEq | hOld
    · injection hEq with hEq
      subst hEq
      have hDelay : delay = 0 := Nat.eq_zero_of_not_pos fun hPos => hOff (Or.inl hPos)
      subst hDelay
      exact ⟨hLedger.fresh_not_executed, Nat.le_refl _, fun _ hPhase => hOff (Or.inr hPhase)⟩
    · exact h.late c hOld hStart hOff
  · intro due earlier hSuffix
    rcases List.suffix_cons_iff.mp hSuffix with hEq | hOld
    · cases hEq
    · exact h.deleted due earlier hOld

/-
  A step that runs nothing: the records stay, and the events
  that are served wait on.
-/
theorem started_frame {a a' : Agenda} (h : a.Started)
    (hTrace : a'.trace = a.trace ∨ ∃ q due, a'.trace = .activated q due :: a.trace) (hKept :
      ∀ due, a.slot due .seqStart ≠ [] →
        (a.time < due ∨ a.time = due ∧ (a.phase = .startLoop ∨ a.phase = .aborted)) →
        a'.slot due .seqStart = a.slot due .seqStart ∧
          (a'.time < due ∨ a'.time = due ∧ (a'.phase = .startLoop ∨ a'.phase = .aborted)))
    (hLate :
      ∀ due, due ≤ a.time →
        (a.time = due → a.phase ≠ .startLoop) →
          due ≤ a'.time ∧ (a'.time = due → a'.phase ≠ .startLoop)) : a'.Started := by
  have hScheduled : ∀ c, .scheduled c ∈ a'.trace →
      .scheduled c ∈ a.trace := by grind
  have hIds : executedIds a'.trace = executedIds a.trace := by
    rcases hTrace with hTrace | ⟨q, due, hTrace⟩
    · rw [hTrace]
    · rw [hTrace]
      rfl
  refine ⟨?_, ?_, ?_⟩
  · intro c hc hStart hOn
    rw [hIds]
    rcases h.kept c (hScheduled c hc) hStart hOn with hDone | ⟨hId, hRest⟩
    · exact Or.inl hDone
    · rcases hKept c.due (List.ne_nil_of_mem hId) hRest with ⟨hSlot, hNew⟩
      rw [hSlot]
      exact Or.inr ⟨hId, hNew⟩
  · intro c hc hStart hOff
    rw [hIds]
    rcases h.late c (hScheduled c hc) hStart hOff with ⟨hNever, hDue, hPhase⟩
    exact ⟨hNever, hLate c.due hDue hPhase⟩
  · intro due earlier hSuffix
    rcases hTrace with hTrace | ⟨q, time, hTrace⟩
    · rw [hTrace] at hSuffix
      exact h.deleted due earlier hSuffix
    · rw [hTrace] at hSuffix
      rcases List.suffix_cons_iff.mp hSuffix with hEq | hOld
      · cases hEq
      · exact h.deleted due earlier hOld

/- Running an event: a start event only in its own loop. -/
theorem started_execute {a : Agenda} (hLedger : a.Ledger) (h : a.Started)
    {q : EventQueueT} {id : Nat} {rest : List Nat} {phase : Phase}
    (hRuns : Runs q a.phase phase) (hSlot : a.slot a.time q = id :: rest) :
    (a.execute q id rest phase).Started := by
  have hHead : id ∈ a.slot a.time q := by
    rw [hSlot]
    exact List.mem_cons_self
  have hStay : a.phase = .startLoop → phase = .startLoop := by
    intro hPhase
    rw [hPhase] at hRuns
    cases q <;> cases phase <;> simp [Runs] at hRuns ⊢
  have hBack : phase = .startLoop → a.phase = .startLoop := by
    rintro rfl
    cases q <;> cases hPhase : a.phase <;>
      simp [Runs, hPhase] at hRuns ⊢
  have hLive : a.phase ≠ .aborted := by
    intro hPhase
    rw [hPhase] at hRuns
    cases q <;> cases phase <;> simp [Runs] at hRuns
  refine ⟨?_, ?_, ?_⟩
  · intro c hc hStart hOn
    have hc : Entry.scheduled c ∈ a.trace := by simpa [execute] using hc
    simp only [execute, executedIds_executed, List.mem_cons]
    rcases h.kept c hc hStart hOn with hDone | ⟨hId, hRest⟩
    · exact Or.inl (Or.inr hDone)
    · by_cases hMe : c.id = id
      · exact Or.inl (Or.inl hMe)
      · right
        refine ⟨?_, ?_⟩
        · by_cases hSame : c.due = a.time ∧ EventQueueT.seqStart = q
          · rw [hSame.1, ← hSame.2, setSlot_self]
            grind
          · rw [setSlot_of_ne a hSame]
            exact hId
        · grind
  · intro c hc hStart hOff
    have hc : Entry.scheduled c ∈ a.trace := by simpa [execute] using hc
    rcases h.late c hc hStart hOff with ⟨hNever, hDue, hPhase⟩
    refine ⟨?_, hDue, fun hNow hStarting => hPhase hNow (hBack hStarting)⟩
    simp only [execute, executedIds_executed, List.mem_cons, not_or]
    refine ⟨?_, hNever⟩
    -- a late start event waits in no queue that runs
    intro hMe
    rcases hLedger.waiting _ _ _ hHead with ⟨c', hc', hId', hDue', hWaits⟩
    obtain rfl := hLedger.single c' c hc' hc (hId'.trans hMe.symm)
    rcases hWaits with hQueue | ⟨-, hPromoted⟩
    · rw [hQueue, hStart] at hRuns
      refine hPhase hDue'.symm ?_
      cases hNow : a.phase <;> cases phase <;>
        simp [Runs, hNow] at hRuns ⊢
    · rw [hStart] at hPromoted
      exact hPromoted
  · intro due earlier hSuffix
    rcases List.suffix_cons_iff.mp hSuffix with hEq | hOld
    · cases hEq
    · exact h.deleted due earlier hOld

/- The cell of the current time goes with its last event. -/
theorem started_deleteCell {a : Agenda} (h : a.Started) (hPhase : a.phase = .delThreadLoop) :
    Started
      { a with
        slot := Function.update a.slot a.time (fun _ => [])
        phase := .loopTop
        trace := .deleted a.time :: a.trace } := by
  have hNow : ∀ c, .scheduled c ∈ a.trace →
      c.queue = .seqStart → c.OnStart →
        c.id ∈ executedIds a.trace ∨
          c.id ∈ a.slot c.due .seqStart ∧ a.time < c.due := by
    intro c hc hStart hOn
    rcases h.kept c hc hStart hOn with hDone | ⟨hId, hLater | ⟨-, hBad⟩⟩
    · exact Or.inl hDone
    · exact Or.inr ⟨hId, hLater⟩
    · grind
  refine ⟨?_, ?_, ?_⟩
  · intro c hc hStart hOn
    have hc : Entry.scheduled c ∈ a.trace := by simpa using hc
    rcases hNow c hc hStart hOn with hDone | ⟨hId, hLater⟩
    · exact Or.inl hDone
    · right
      refine ⟨?_, Or.inl hLater⟩
      simp only [Function.update_of_ne (Nat.ne_of_gt hLater)]
      exact hId
  · intro c hc hStart hOff
    have hc : Entry.scheduled c ∈ a.trace := by simpa using hc
    rcases h.late c hc hStart hOff with ⟨hNever, hDue, -⟩
    exact ⟨hNever, hDue, fun _ hBad => by cases hBad⟩
  · intro due earlier hSuffix c hc hStart hDue hOn
    rcases List.suffix_cons_iff.mp hSuffix with hEq | hOld
    · grind
    · exact h.deleted due earlier hOld c hc hStart hDue hOn

theorem started_of_step {a a' : Agenda} (hLedger : a.Ledger) (h : a.Started)
    (hStep : AgendaStep a a') : a'.Started := by
  cases hStep with
  | append q delay hCalling =>
    exact started_scheduled hLedger h q false delay
      (fun time q' id hId => (mem_append_iff a q delay false time q' id).mpr (Or.inl hId))
      ((mem_append_iff a q delay false _ _ _).mpr (Or.inr ⟨rfl, rfl, rfl⟩))
  | push hCalling =>
    exact started_scheduled hLedger h .seqActive true 0
      (fun time q' id hId => (mem_push_iff a time q' id).mpr (Or.inl hId))
      ((mem_push_iff a _ _ _).mpr (Or.inr ⟨rfl, rfl, rfl⟩))
  | execute q id rest phase hRuns hSlot => exact started_execute hLedger h hRuns hSlot
  | activate q hPhase hq hReady hSome =>
    refine started_frame h (Or.inr ⟨_, _, rfl⟩) ?_ ?_
    · intro due hWaits hWhen
      rw [hPhase] at hWhen
      have hLater : a.time < due := by simpa using hWhen
      exact ⟨congrFun (activate_slot_of_ne a q (Nat.ne_of_gt hLater)) _, Or.inl hLater⟩
    · exact fun due hDue _ => ⟨hDue, fun _ hBad => by cases hBad⟩
  | activateRosync hPhase hReady =>
    refine started_frame h (Or.inr ⟨_, _, rfl⟩) ?_ ?_
    · grind
    · exact fun due hDue _ => ⟨hDue, fun _ hBad => by cases hBad⟩
  | advance time hPhase hLater hBefore =>
    refine started_frame h (Or.inl rfl) ?_ ?_
    · grind
    · grind
  | deleteCell hPhase hEmpty => exact started_deleteCell h hPhase
  | move phase hMoves =>
    refine started_frame h (Or.inl rfl) ?_ ?_
    · intro due hWaits hWhen
      refine ⟨rfl, ?_⟩
      rcases hWhen with hLater | ⟨rfl, hPhase⟩
      · exact Or.inl hLater
      · right
        refine ⟨rfl, ?_⟩
        rcases hPhase with hPhase | hPhase
        · rw [hPhase] at hMoves
          cases phase <;> simp [Moves] at hMoves ⊢
          exact absurd hMoves hWaits
        · rw [hPhase] at hMoves
          cases phase <;> simp [Moves] at hMoves ⊢
    · intro due hDue hPhase
      refine ⟨hDue, fun hNow hBad => ?_⟩
      subst hBad
      cases hOld : a.phase <;> simp [hOld, Moves] at hMoves

theorem started_of_reachable {a : Agenda} (h : a.Reachable) : a.Started := by
  induction h with
  | start => exact ⟨by simp [Agenda.start], by simp [Agenda.start], by simp [Agenda.start]⟩
  | step hReach hStep ih => exact started_of_step (ledger_of_reachable hReach) ih hStep

end Agenda

----
-- Start Events In Simulations
----

namespace Scheduler

variable {σ ε : Type*}

/-
  A start callback runs once before its time cell is deleted
  exactly when it asks for a later time or is made while the
  start events run.  Otherwise it never runs.
-/
theorem startOfTime_iff (client : Client σ ε) (world : σ) (calls : List (SchedCall ε))
    (n : Nat) {c : Scheduled} (hScheduled : .scheduled c ∈ (simulate client world calls n).trace)
    {cb obj : ε} {tv : Nat}
    (hCall : makeAtStartOfSimTime cb c.time tv = some (.scheduleEvent obj c.delay c.queue)) :
    (∀ earlier,
      .deleted c.due :: earlier <:+ (simulate client world calls n).trace →
        .scheduled c ∈ earlier →
          ((executedIds earlier).count c.id = 1 ↔ c.time < tv ∨ c.phase = .startLoop)) ∧
      ((simulate client world calls n).phase = .done →
        ((executedIds
          (simulate client world calls n).trace).count c.id = 1 ↔
          c.time < tv ∨ c.phase = .startLoop)) ∧
      (¬(c.time < tv ∨ c.phase = .startLoop) →
        c.id ∉ executedIds (simulate client world calls n).trace) := by
  rcases represents_simulate client world calls n with ⟨a, hReach, hRep⟩
  have hSound := Agenda.sound_of_reachable hReach
  have hLedger := Agenda.ledger_of_reachable hReach
  have hStarted := Agenda.started_of_reachable hReach
  rcases makeAtStartOfSimTime_eq_some hCall with ⟨hQueue, hDelay⟩
  rw [← hDelay]
  rw [← hRep.trace] at hScheduled ⊢
  have hNever : ¬c.OnStart → c.id ∉ executedIds a.trace :=
    fun hOff => (hStarted.late c hScheduled hQueue hOff).1
  -- what has run earlier has run once
  have hOnce : ∀ earlier, earlier <:+ a.trace →
      (c.OnStart → c.id ∈ executedIds earlier) →
        ((executedIds earlier).count c.id = 1 ↔
          c.OnStart) := by
    intro earlier hSuffix hServed
    have hIds : executedIds earlier <:+ executedIds a.trace := hSuffix.filterMap _
    constructor
    · intro hCount
      by_contra hOff
      refine hNever hOff (hIds.subset ?_)
      exact List.count_pos_iff.mp (by omega)
    · intro hOn
      exact List.count_eq_one_of_mem (hLedger.once.sublist hIds.sublist) (hServed hOn)
  refine ⟨?_, ?_, hNever⟩
  · intro earlier hSuffix hEarlier
    exact hOnce earlier ((List.suffix_cons _ _).trans hSuffix)
      (hStarted.deleted c.due earlier hSuffix c hEarlier hQueue rfl)
  · intro hDone
    refine hOnce a.trace List.suffix_rfl (fun hOn => ?_)
    rcases hStarted.kept c hScheduled hQueue hOn with hRan | ⟨hId, -⟩
    · exact hRan
    · rw [hSound.finished (hRep.phase.trans hDone)] at hId
      cases hId

/-
  An event that asks for start callbacks at its own time and
  two units later.
-/
def callbackClient : Client Unit Bool
| .event true, time, _, _ =>
  ((), (makeAtStartOfSimTime false time time).toList ++
    (makeAtStartOfSimTime false time (time + 2)).toList)
| _, _, _, _ => ((), [])

theorem startOfTime_iff_callback :
    (executedIds (simulate callbackClient ()
      [.scheduleEvent true 5 .seqActive] 40).trace).count 2 = 1 ∧
    1 ∉ executedIds (simulate callbackClient () [.scheduleEvent true 5 .seqActive] 40).trace :=
  ⟨((startOfTime_iff callbackClient () _ 40
      (c := ⟨2, .seqStart, false, .running, 5, 2, 7⟩)
      (by decide +kernel)
      (show makeAtStartOfSimTime false 5 7 =
        some (.scheduleEvent false 2 .seqStart) from rfl)).2.1
        (by decide +kernel)).mpr (Or.inl (by decide)),
    (startOfTime_iff callbackClient () _ 40
      (c := ⟨1, .seqStart, false, .running, 5, 0, 5⟩)
      (by decide +kernel)
      (show makeAtStartOfSimTime false 5 5 =
        some (.scheduleEvent false 0 .seqStart) from rfl)).2.2
        (by decide)⟩

/-
  A callback for the present time, made before the loop and
  made by an active event, and deleted with its time cell.
-/
theorem startOfTime_lost :
    (∃ earlier,
      .deleted 0 :: earlier <:+ (simulate callbackClient ()
        (makeAtStartOfSimTime false 0 0).toList 20).trace ∧
      .scheduled ⟨0, .seqStart, false, .init, 0, 0, 0⟩ ∈ earlier ∧
      (executedIds earlier).count 0 = 0) ∧
    (∃ earlier,
      .deleted 5 :: earlier <:+ (simulate callbackClient ()
        [.scheduleEvent true 5 .seqActive] 13).trace ∧
      .scheduled ⟨1, .seqStart, false, .running, 5, 0, 5⟩ ∈ earlier ∧
      (executedIds earlier).count 1 = 0) := by
  refine ⟨⟨_, ⟨[], rfl⟩, ?_, ?_⟩, ⟨_, ⟨[], rfl⟩, ?_, ?_⟩⟩
  · decide +kernel
  · decide +kernel
  · decide +kernel
  · decide +kernel

end Scheduler

end EpicSim
