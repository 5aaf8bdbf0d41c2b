import EpicSim.Vvp.Ledger
import EpicSim.Vvp.ScheduleAgenda

/-
  Every event is executed once and on time.
-/

----
-- Waiting Events
----

namespace EpicSim

open CircularList DeltaList

namespace Scheduler

variable {σ ε : Type*}

/- The event waits in a queue of the cell of a time. -/
def Waiting (s : Scheduler σ ε) (id time : Nat) (q : EventQueueT) : Prop :=
  ∃ body tail k, (time, body) ∈ s.cells ∧ body q = some tail ∧ s.next^[k] tail = id

theorem waiting_iff {s : Scheduler σ ε} {a : Agenda} (h : Represents s a) (id time : Nat)
    (q : EventQueueT) : s.Waiting id time q ↔ id ∈ a.slot time q := by
  constructor
  · rintro ⟨body, tail, k, hCell, hTail, hId⟩
    exact (mem_queued_iff (h.cells.queued _ _ hCell q) id).mpr ⟨tail, k, hTail, hId⟩
  · intro hId
    by_cases hCell : ∃ body, (time, body) ∈ s.cells
    · rcases hCell with ⟨body, hCell⟩
      rcases (mem_queued_iff (h.cells.queued _ _ hCell q) id).mp hId with ⟨tail, k, hTail, hReach⟩
      exact ⟨body, tail, k, hCell, hTail, hReach⟩
    · rw [h.cells.empty time (fun body hMem => hCell ⟨body, hMem⟩) q] at hId
      cases hId

/- A call moves no event that waits. -/
theorem waiting_perform {s : Scheduler σ ε} {a : Agenda} (hSound : a.Sound)
    (h : Represents s a) (hCalling : s.phase.Calling)
    (call : SchedCall ε) {id time : Nat} {q : EventQueueT} (hWaiting : s.Waiting id time q) :
    (s.perform call).Waiting id time q := by
  have hId := (waiting_iff h id time q).mp hWaiting
  cases call with
  | scheduleEvent obj delay q' =>
    rcases represents_scheduleEvent hSound h hCalling obj delay q' false with hNew | hAborted
    · exact (waiting_iff hNew id time q).mpr
        ((Agenda.mem_append_iff a _ _ _ _ _ _).mpr (Or.inl hId))
    · exact (waiting_iff hAborted id time q).mpr hId
  | scheduleEventPush obj =>
    rcases represents_scheduleEventPush hSound h hCalling obj with hNew | hAborted
    · exact (waiting_iff hNew id time q).mpr ((Agenda.mem_push_iff a _ _ _).mpr (Or.inl hId))
    · exact (waiting_iff hAborted id time q).mpr hId
  | scheduleStop => exact hWaiting
  | scheduleSingleStep => exact hWaiting

end Scheduler

end EpicSim

----
-- One Step
----

namespace EpicSim

open CircularList DeltaList

namespace Scheduler

variable {σ ε : Type*}

/- What a step that runs an event changes and keeps. -/
structure Executed (s s' : Scheduler σ ε) : Prop where
  phase : s'.phase = s.phase
  fresh : s'.fresh = s.fresh
  cells : s'.schedList.length = s.schedList.length
  stoppedFlag : s'.stoppedFlag = s.stoppedFlag
  trace : ∃ id time due, s'.trace = .executed id time due :: s.trace

/- An event runs, or its pointer is wild. -/
theorem runRun_cases (client : Client σ ε) (cur : Nat) (s : Scheduler σ ε) :
    ((runRun client cur s).phase = .aborted ∧ (runRun client cur s).trace = s.trace) ∨
      Executed s (runRun client cur s) := by
  unfold runRun
  cases s.obj cur with
  | none => exact Or.inl ⟨rfl, rfl⟩
  | some obj => exact Or.inr ⟨rfl, rfl, rfl, rfl, _, _, _, rfl⟩

/- A loop runs an event, or is left, or the run aborts. -/
theorem drain_cases (client : Client σ ε) (q : EventQueueT)
    (leave : Scheduler σ ε → Scheduler σ ε) (s : Scheduler σ ε) :
    ((s.drain client q leave).phase = .aborted ∧ (s.drain client q leave).trace = s.trace) ∨
      s.drain client q leave = leave s ∨
      Executed s (s.drain client q leave) := by
  unfold drain
  split
  · exact Or.inl ⟨rfl, rfl⟩
  next ctim after hList =>
    split
    · exact Or.inr (Or.inl rfl)
    next tail hTail =>
      rcases runRun_cases client (pull s.next tail).1
          (s.setQueue ctim after q (pull s.next tail).2) with
        hAborted | h
      · exact Or.inl hAborted
      · refine Or.inr (Or.inr ⟨h.phase, h.fresh, ?_, h.stoppedFlag, h.trace⟩)
        rw [h.cells, hList]
        rfl

/- The loop itself schedules nothing. -/
theorem scheduled_of_loopStep (client : Client σ ε) (s : Scheduler σ ε) {c : Scheduled}
    (h : .scheduled c ∈ (s.loopStep client).trace) : .scheduled c ∈ s.trace := by
  have hDrain : ∀ (s : Scheduler σ ε) q leave,
      .scheduled c ∈ (s.drain client q leave).trace →
      (∀ s : Scheduler σ ε, .scheduled c ∈ (leave s).trace →
        .scheduled c ∈ s.trace) →
        .scheduled c ∈ s.trace := by
    intro s q leave hMem hLeave
    rcases drain_cases client q leave s with ⟨-, hTrace⟩ | hLeft | hRan
    · rw [hTrace] at hMem
      exact hMem
    · rw [hLeft] at hMem
      exact hLeave s hMem
    · rcases hRan.trace with ⟨id, time, due, hTrace⟩
      grind
  cases hPhase : s.phase with
  | init =>
    simp only [loopStep, hPhase] at h
    exact h
  | loopTop =>
    simp only [loopStep, hPhase] at h
    unfold loopTop at h
    split at h
    · exact h
    · split_ifs at h
      · exact h
      · exact h
      · exact h
  | stopped =>
    simp only [loopStep, hPhase] at h
    exact h
  | startLoop =>
    simp only [loopStep, hPhase] at h
    exact hDrain s _ _ h (fun _ hMem => hMem)
  | dispatch =>
    simp only [loopStep, hPhase] at h
    unfold advanceQueues at h
    split at h
    · exact h
    next ctim after hList =>
      have hTrace : ∀ s' : Scheduler σ ε,
          s'.trace = s.activate ctim.body →
            .scheduled c ∈ s'.trace →
              .scheduled c ∈ s.trace := by
        intro s' hEq hMem
        rw [hEq] at hMem
        unfold activate at hMem
        grind
      grind
  | pull =>
    simp only [loopStep, hPhase] at h
    have hMem := hDrain _ _ _ h (fun _ hMem => hMem)
    unfold checkSingleStep at hMem
    split_ifs at hMem
    · exact hMem
    · exact hMem
  | running =>
    simp only [loopStep, hPhase] at h
    exact h
  | rosyncLoop =>
    simp only [loopStep, hPhase] at h
    exact hDrain s _ _ h (fun _ hMem => hMem)
  | delThreadLoop =>
    simp only [loopStep, hPhase] at h
    refine hDrain s _ _ h (fun s hMem => ?_)
    rcases List.mem_cons.mp hMem with hEq | hMem
    · cases hEq
    · exact hMem
  | done =>
    simp only [loopStep, hPhase] at h
    exact h
  | aborted =>
    simp only [loopStep, hPhase] at h
    exact h

/- The record that a call leaves. -/
theorem scheduled_of_perform (s : Scheduler σ ε) (call : SchedCall ε) {c : Scheduled}
    (h : .scheduled c ∈ (s.perform call).trace) :
    .scheduled c ∈ s.trace ∨
      (∃ obj delay q, call = .scheduleEvent obj delay q ∧ c = s.record q false delay) ∨
      (∃ obj, call = .scheduleEventPush obj ∧
        c = s.record .seqActive true 0) := by
  have hEvent : ∀ obj delay q push,
      .scheduled c ∈ (s.scheduleEvent obj delay q push).trace →
        .scheduled c ∈ s.trace ∨
          c = s.record q push delay := by
    intro obj delay q push hMem
    simp only [scheduleEvent] at hMem
    grind
  cases call with
  | scheduleEvent obj delay q =>
    rcases hEvent obj delay q false h with hOld | hNew
    · exact Or.inl hOld
    · exact Or.inr (Or.inl ⟨obj, delay, q, rfl, hNew⟩)
  | scheduleEventPush obj =>
    simp only [perform, scheduleEventPush] at h
    split at h
    · grind
    · grind
  | scheduleStop => exact Or.inl h
  | scheduleSingleStep => exact Or.inl h

end Scheduler

end EpicSim

----
-- Disciplined Runs
----

namespace EpicSim

open CircularList DeltaList

variable {σ ε : Type*}

/-
  The calls that may be made in a phase.  Nothing is put into
  the start queue, the inactive queue takes no delay, and
  what late events schedule without delay is late itself.
-/
def SchedCall.Allowed (phase : Phase) : SchedCall ε → Prop
| .scheduleEvent _ delay q =>
  q ≠ .seqStart ∧ (q = .seqInactive → delay = 0) ∧
    (delay = 0 →
      (phase = .rosyncLoop → q = .seqRosync ∨ q = .delThread) ∧
        (phase = .delThreadLoop → q = .delThread))
| .scheduleEventPush _ => phase ≠ .rosyncLoop ∧ phase ≠ .delThreadLoop
| .scheduleStop => True
| .scheduleSingleStep => True

instance (phase : Phase) (call : SchedCall ε) : Decidable (call.Allowed phase) :=
  match call with
  | .scheduleEvent _ _ _ => inferInstanceAs (Decidable (_ ∧ _))
  | .scheduleEventPush _ => inferInstanceAs (Decidable (_ ∧ _))
  | .scheduleStop => inferInstanceAs (Decidable True)
  | .scheduleSingleStep => inferInstanceAs (Decidable True)

/- All calls of a run are allowed where they are made. -/
def Disciplined (client : Client σ ε) (world : σ) (calls : List (SchedCall ε)) : Prop :=
  ∀ n, ∀ call ∈ (Scheduler.simulate client world calls n).calls,
    call.Allowed (Scheduler.simulate client world calls n).phase

namespace Scheduler

theorem simulate_succ (client : Client σ ε) (world : σ) (calls : List (SchedCall ε)) (n : Nat) :
    simulate client world calls (n + 1) = (simulate client world calls n).step client :=
  Function.iterate_succ_apply' _ _ _

variable {client : Client σ ε} {world : σ}
  {calls : List (SchedCall ε)} {s : Scheduler σ ε}

/- A run that has come to its end stays there. -/
theorem simulate_of_done {n : Nat} (hDone : (simulate client world calls n).phase = .done)
    (hCalls : (simulate client world calls n).calls = []) {m : Nat} (h : n ≤ m) :
    simulate client world calls m = simulate client world calls n := by
  induction m with
  | zero =>
    obtain rfl := Nat.le_zero.mp h
    rfl
  | succ m ih =>
    rcases Nat.le_or_eq_of_le_succ h with hEarlier | rfl
    · rw [simulate_succ, ih hEarlier]
      simp [step, loopStep, hDone, hCalls]
    · rfl

/- The records of a disciplined run are lawful. -/
theorem lawful_of_disciplined (h : Disciplined client world calls) (n : Nat) :
    ∀ c, .scheduled c ∈ (simulate client world calls n).trace →
      c.Lawful ∧ c.queue ≠ .seqStart := by
  induction n with
  | zero =>
    intro c hc
    cases hc
  | succ n ih =>
    intro c hc
    rw [simulate_succ] at hc
    generalize hs : simulate client world calls n = s at *
    have hAllowed : ∀ call ∈ s.calls,
        call.Allowed s.phase := by
      rw [← hs]
      exact h n
    unfold step at hc
    split_ifs at hc with hAborted
    · exact ih c hc
    · split at hc
      · exact ih c (scheduled_of_loopStep client s hc)
      next call rest hCalls =>
        have hHead := hAllowed call (by
          rw [hCalls]
          exact List.mem_cons_self)
        rcases scheduled_of_perform _ call hc with
          hOld | ⟨obj, delay, q, rfl, rfl⟩ | ⟨obj, rfl, rfl⟩
        · exact ih c hOld
        · exact ⟨hHead.2.2, hHead.1⟩
        · refine ⟨fun _ => ⟨?_, ?_⟩, by simp [record]⟩
          · exact fun hPhase => absurd hPhase hHead.1
          · exact fun hPhase => absurd hPhase hHead.2

theorem perform_ne_aborted {call : SchedCall ε} {phase : Phase} (hAllowed : call.Allowed phase)
    (hPhase : s.phase ≠ .aborted) : (s.perform call).phase ≠ .aborted := by
  have hEvent : ∀ obj delay q push,
      (q = .seqInactive → delay = 0) →
        (s.scheduleEvent obj delay q push).phase ≠ .aborted := by
    intro obj delay q push hZero
    simp only [scheduleEvent]
    split_ifs with hAssert
    · rw [hZero hAssert.1] at hAssert
      exact absurd (locate_zero _ _).2.2 hAssert.2
    · exact hPhase
  cases call with
  | scheduleEvent obj delay q => exact hEvent obj delay q false hAllowed.2.1
  | scheduleEventPush obj =>
    simp only [perform, scheduleEventPush]
    grind
  | scheduleStop => exact hPhase
  | scheduleSingleStep => exact hPhase

/- Inside the loop no pointer is wild. -/
theorem drain_ne_aborted {a : Agenda} (hSound : a.Sound) (h : Represents s a)
    (hCalling : s.phase.Calling) (hInStep : s.phase.InStep)
    (client : Client σ ε) (q : EventQueueT) {leave : Scheduler σ ε → Scheduler σ ε}
    (hLeave : a.slot a.time q = [] → (leave s).phase ≠ .aborted) :
    (s.drain client q leave).phase ≠ .aborted := by
  rcases represents_drain hSound h hCalling hInStep client q
      leave with ⟨id, rest, -, hNew⟩ | ⟨hEmpty, hDrain⟩
  · rw [← hNew.phase]
    change a.phase ≠ .aborted
    rw [h.phase]
    intro hEq
    rw [hEq] at hCalling
    exact hCalling
  · rw [hDrain]
    exact hLeave hEmpty

theorem loopStep_ne_aborted {a : Agenda} (hSound : a.Sound) (h : Represents s a)
    (hCalls : s.calls = []) (hAborted : s.phase ≠ .aborted) (client : Client σ ε) :
    (s.loopStep client).phase ≠ .aborted := by
  cases hPhase : s.phase with
  | init =>
    simp only [loopStep, hPhase]
    simp
  | loopTop =>
    simp only [loopStep, hPhase, loopTop]
    split
    · simp
    · split_ifs
      · simp [runCode]
      · simp [advance, runCode]
      · simp
  | stopped =>
    simp only [loopStep, hPhase]
    simp
  | startLoop =>
    simp only [loopStep, hPhase]
    exact drain_ne_aborted hSound h (by rw [hPhase]; trivial)
      (by rw [hPhase]; trivial) client _ (fun _ => by simp)
  | dispatch =>
    simp only [loopStep, hPhase, advanceQueues]
    rcases h.inStep (by rw [hPhase]; trivial) with ⟨ctim, after, hList, -⟩
    grind
  | pull =>
    simp only [loopStep, hPhase]
    refine drain_ne_aborted hSound.running
      (represents_checkSingleStep h hPhase hCalls) trivial
      trivial client _ ?_
    intro hEmpty
    exact absurd hEmpty (hSound.pulling (h.phase.trans hPhase))
  | running =>
    simp only [loopStep, hPhase]
    simp
  | rosyncLoop =>
    simp only [loopStep, hPhase]
    exact drain_ne_aborted hSound h (by rw [hPhase]; trivial)
      (by rw [hPhase]; trivial) client _ (fun _ => by simp)
  | delThreadLoop =>
    simp only [loopStep, hPhase]
    exact drain_ne_aborted hSound h (by rw [hPhase]; trivial)
      (by rw [hPhase]; trivial) client _
      (fun _ => by simp [deleteCell])
  | done =>
    simp only [loopStep, hPhase]
    simp
  | aborted => exact absurd hPhase hAborted

/- A disciplined run never aborts. -/
theorem simulate_ne_aborted (h : Disciplined client world calls) (n : Nat) :
    (simulate client world calls n).phase ≠ .aborted := by
  induction n with
  | zero =>
    change Phase.init ≠ .aborted
    simp
  | succ n ih =>
    rw [simulate_succ]
    rcases represents_simulate client world calls n with ⟨a, hReach, hRep⟩
    have hAllowed := h n
    generalize simulate client world calls n = s at *
    unfold step
    rw [if_neg ih]
    split
    next hCalls =>
      exact loopStep_ne_aborted (Agenda.sound_of_reachable hReach) hRep hCalls ih client
    next call rest hCalls =>
      refine perform_ne_aborted (hAllowed call ?_) ih
      rw [hCalls]
      exact List.mem_cons_self

end Scheduler

end EpicSim

----
-- Termination
----

namespace EpicSim

namespace Scheduler

variable {σ ε : Type*}

/- How far a phase is from the end of the loop body. -/
def phaseWeight : Phase → Nat
| .init => 6
| .stopped => 6
| .running => 6
| .loopTop => 5
| .startLoop => 4
| .dispatch => 3
| .pull => 2
| .rosyncLoop => 2
| .delThreadLoop => 1
| .done => 0
| .aborted => 0

/-
  What a quiet loop uses up: events that have not run, time
  cells, a pending stop and the rest of the loop body.
-/
def weight (s : Scheduler σ ε) : Nat :=
  10 * (s.fresh - (executedIds s.trace).length) +
    10 * s.schedList.length + 2 * s.stoppedFlag.toNat +
    phaseWeight s.phase

theorem weight_of_executed {s s' : Scheduler σ ε} (h : Executed s s')
    (hBound : (executedIds s'.trace).length ≤ s'.fresh) : s'.weight + 10 = s.weight := by
  rcases h.trace with ⟨id, time, due, hTrace⟩
  rw [hTrace, executedIds_executed, List.length_cons, h.fresh] at hBound
  simp only [weight, h.phase, h.fresh, h.cells, h.stoppedFlag,
    hTrace, executedIds_executed, List.length_cons]
  omega

variable {client : Client σ ε} {s : Scheduler σ ε}

/- A turn of a draining loop, or its exit, weighs less. -/
theorem weight_drain {q : EventQueueT} {leave : Scheduler σ ε → Scheduler σ ε}
    (hPhase : (s.drain client q leave).phase ≠ .aborted)
    (hBound : (executedIds (s.drain client q leave).trace).length ≤ (s.drain client q leave).fresh)
    (hLeave : (leave s).weight < s.weight) : (s.drain client q leave).weight < s.weight := by
  rcases drain_cases client q leave s with ⟨hAborted, -⟩ | hLeft | hRan
  · exact absurd hAborted hPhase
  · rw [hLeft]
    exact hLeave
  · have hEq := weight_of_executed hRan hBound
    omega

/- Pulling an active event weighs less by that event. -/
theorem weight_drain_active {limit : Nat}
    (hPhase : (s.drain client .seqActive (fun s => { s with phase := .aborted })).phase ≠ .aborted)
    (hBound :
      (executedIds (s.drain client .seqActive
        (fun s => { s with phase := .aborted })).trace).length ≤
      (s.drain client .seqActive (fun s => { s with phase := .aborted })).fresh)
    (hStart : s.weight < limit + 10) :
    (s.drain client .seqActive
      (fun s => { s with phase := .aborted })).weight <
        limit := by
  rcases drain_cases client .seqActive
      (fun s => { s with phase := .aborted }) s with
    ⟨hBad, -⟩ | hLeft | hRan
  · exact absurd hBad hPhase
  · rw [hLeft] at hPhase
    exact absurd rfl hPhase
  · have hEq := weight_of_executed hRan hBound
    omega

/- A step of a quiet loop that has not ended weighs less. -/
theorem weight_loopStep (hInStep :
      s.phase.InStep → ∃ ctim after, s.schedList = ctim :: after ∧ ctim.delay = 0)
    (hAborted : (s.loopStep client).phase ≠ .aborted)
    (hBound : (executedIds (s.loopStep client).trace).length ≤ (s.loopStep client).fresh)
    (hDone : s.phase ≠ .done) : (s.loopStep client).weight < s.weight := by
  cases hPhase : s.phase with
  | init =>
    simp only [loopStep]
    simp [weight, hPhase, phaseWeight]
  | loopTop =>
    simp only [loopStep, hPhase]
    unfold loopTop
    split
    · simp [weight, hPhase, phaseWeight]
    next ctim after hList =>
      split_ifs with hStopped hLater
      · simp [weight, runCode, hPhase, phaseWeight, hStopped]
      · simp [weight, advance, runCode, hPhase, phaseWeight, hList]
      · simp [weight, hPhase, phaseWeight]
  | stopped =>
    simp only [loopStep]
    simp [weight, hPhase, phaseWeight]
  | startLoop =>
    simp only [loopStep, hPhase] at hAborted hBound ⊢
    refine weight_drain hAborted hBound ?_
    simp [weight, hPhase, phaseWeight]
  | dispatch =>
    simp only [loopStep] at hAborted ⊢
    rcases hInStep (by rw [hPhase]; trivial) with ⟨ctim, after, hList, -⟩
    have hIds : executedIds (s.activate ctim.body) = executedIds s.trace := by
      unfold activate
      split <;> rfl
    unfold advanceQueues at hAborted ⊢
    simp only [hList]
    split_ifs
    · simp [weight, hPhase, phaseWeight, hList, hIds]
    · simp [weight, hPhase, phaseWeight, hList, hIds]
  | pull =>
    simp only [loopStep, hPhase] at hAborted hBound ⊢
    -- the running phase weighs less than an event
    have hStart :
        ({ s.checkSingleStep with phase := .running } : Scheduler σ ε).weight < s.weight + 10 := by
      unfold checkSingleStep
      split_ifs
      · cases hStop : s.stoppedFlag <;>
          simp [weight, hPhase, phaseWeight, hStop]
      · simp [weight, hPhase, phaseWeight]
    exact weight_drain_active hAborted hBound hStart
  | running =>
    simp only [loopStep]
    simp [weight, hPhase, phaseWeight]
  | rosyncLoop =>
    simp only [loopStep, hPhase] at hAborted hBound ⊢
    refine weight_drain hAborted hBound ?_
    simp [weight, hPhase, phaseWeight]
  | delThreadLoop =>
    simp only [loopStep, hPhase] at hAborted hBound ⊢
    refine weight_drain hAborted hBound ?_
    rcases hInStep (by rw [hPhase]; trivial) with ⟨ctim, after, hList, -⟩
    simp only [weight, deleteCell, phaseWeight, hList,
      executedIds_deleted, List.tail_cons, List.length_cons]
    omega
  | done => exact absurd hPhase hDone
  | aborted =>
    simp only [loopStep, hPhase] at hAborted
    exact absurd rfl hAborted

/- Executed events were made, each once. -/
theorem executed_length_le {a : Agenda} (h : a.Ledger) :
    (executedIds a.trace).length ≤ a.fresh := by
  have hSub : executedIds a.trace ⊆ List.range a.fresh := by
    intro id hId
    rcases (mem_executedIds _ _).mp hId with ⟨time, due, hEntry⟩
    rcases h.executed _ _ _ hEntry with ⟨c, hc, rfl, -⟩
    exact List.mem_range.mpr (h.made c hc)
  have hLe := (List.subperm_of_subset h.once hSub).length_le
  rwa [List.length_range] at hLe

/- When no more calls are made the loop comes to its end. -/
theorem exists_done {world : σ} {calls : List (SchedCall ε)}
    (h : Disciplined client world calls) {quiet : Nat}
    (hQuiet : ∀ n, quiet ≤ n → (simulate client world calls n).calls = []) :
    ∃ n, (simulate client world calls n).phase = .done := by
  by_contra hNever
  rw [not_exists] at hNever
  have hStep : ∀ n, quiet ≤ n →
      (simulate client world calls (n + 1)).weight < (simulate client world calls n).weight := by
    intro n hn
    rcases represents_simulate client world calls n with ⟨a, hReach, hRep⟩
    rcases represents_simulate client world calls (n + 1) with ⟨a', hReach', hRep'⟩
    have hBound := executed_length_le (Agenda.ledger_of_reachable hReach')
    have hPhase := simulate_ne_aborted h n
    have hPhase' := simulate_ne_aborted h (n + 1)
    have hCalls := hQuiet n hn
    have hDone := hNever n
    rw [hRep'.trace, hRep'.fresh] at hBound
    rw [simulate_succ] at hBound hPhase' ⊢
    generalize simulate client world calls n = s at *
    unfold step at hBound hPhase' ⊢
    rw [if_neg hPhase] at hBound hPhase' ⊢
    rw [hCalls] at hBound hPhase' ⊢
    exact weight_loopStep hRep.inStep hPhase' hBound hDone
  have hDescent : ∀ k,
      (simulate client world calls (quiet + k)).weight + k ≤
        (simulate client world calls quiet).weight := by
    intro k
    induction k with
    | zero => exact Nat.le_refl _
    | succ k ih => grind
  have hTooFar := hDescent ((simulate client world calls quiet).weight + 1)
  omega

end Scheduler

----
-- Once And On Time
----

open DeltaList

namespace Scheduler

variable {σ ε : Type*}

/-
  The times in the list differ, every event is executed at
  most once and only at its time, and the others still wait
  for theirs.
-/
structure OnTime (s : Scheduler σ ε) : Prop where
  spaced : Spaced s.schedList
  single : ∀ c c', .scheduled c ∈ s.trace → .scheduled c' ∈ s.trace → c.id = c'.id → c = c'
  once : ∀ id, (executedIds s.trace).count id ≤ 1
  onTime :
    ∀ c, .scheduled c ∈ s.trace → ∀ time due,
      .executed c.id time due ∈ s.trace → due = c.due ∧ time = (c.time + c.delay) % 2 ^ 64
  waiting :
    ∀ c, .scheduled c ∈ s.trace →
      (executedIds s.trace).count c.id = 1 ∨ s.elapsed ≤ c.due ∧ ∃ q, s.Waiting c.id c.due q

theorem onTime_of_represents
    {s : Scheduler σ ε} {a : Agenda} (hReach : a.Reachable) (h : Represents s a)
    (hLawful : ∀ c, .scheduled c ∈ s.trace → c.Lawful ∧ c.queue ≠ .seqStart) : s.OnTime := by
  have hSound := Agenda.sound_of_reachable hReach
  have hLedger := Agenda.ledger_of_reachable hReach
  have hServed : a.Served :=
    Agenda.served_of_reachable hReach (by
      intro c hc
      rw [h.trace] at hc
      exact (hLawful c hc).1)
  rw [← h.trace] at hLawful
  refine ⟨h.spaced, ?_, ?_, ?_, ?_⟩
  · rw [← h.trace]
    exact hLedger.single
  · intro id
    rw [← h.trace]
    exact List.nodup_iff_count_le_one.mp hLedger.once id
  · rw [← h.trace]
    intro c hc time due hExecuted
    rcases hLedger.executed _ _ _ hExecuted with ⟨c', hc', hId, hDue, hTime⟩
    obtain rfl := hLedger.single c' c hc' hc hId
    rcases hLedger.stamped c' hc with ⟨start, hStart, hClock⟩
    refine ⟨hDue.symm, ?_⟩
    rw [hTime, ← hDue, hStart, hClock, Nat.mod_add_mod]
  · rw [← h.trace, ← h.time]
    intro c hc
    rcases hServed.served c hc (hLawful c hc).2 with hDone | ⟨q, -, hId⟩
    · left
      exact List.count_eq_one_of_mem hLedger.once hDone
    · right
      refine ⟨?_, q, (waiting_iff h _ _ _).mpr hId⟩
      by_contra hPast
      rw [hSound.past c.due q (Nat.not_le.mp hPast)] at hId
      cases hId

/-
  Whatever disciplined calls are made, every event is
  executed at its time and once: once and no later than its
  time when the time goes on, and in any case when the loop
  ends, which it does as soon as no more calls are made.  No
  call moves an event that waits.
-/
theorem simulate_onTime (client : Client σ ε) (world : σ) (calls : List (SchedCall ε))
    (hDisciplined : Disciplined client world calls) :
    (∀ n, (simulate client world calls n).OnTime) ∧
      (∀ n, (simulate client world calls n).calls ≠ [] →
        ∀ id time q,
          (simulate client world calls n).Waiting id time q →
            (simulate client world calls (n + 1)).Waiting id time q) ∧
      (∀ n, (simulate client world calls n).phase = .done →
        ∀ c,
          .scheduled c ∈ (simulate client world calls n).trace →
            (executedIds (simulate client world calls n).trace).count c.id = 1) ∧
      ((∃ quiet, ∀ n, quiet ≤ n → (simulate client world calls n).calls = []) →
        ∃ n, (simulate client world calls n).phase = .done) := by
  have hOnTime : ∀ n,
      (simulate client world calls n).OnTime := by
    intro n
    rcases represents_simulate client world calls n with ⟨a, hReach, hRep⟩
    exact onTime_of_represents hReach hRep (lawful_of_disciplined hDisciplined n)
  refine ⟨hOnTime, ?_, ?_, ?_⟩
  · intro n hCalls id time q hWaiting
    have hPhase := simulate_ne_aborted hDisciplined n
    rcases represents_simulate client world calls n with ⟨a, hReach, hRep⟩
    rw [simulate_succ]
    generalize simulate client world calls n = s at *
    have hCalling : s.phase.Calling := by
      rcases hRep.calling hCalls with hCalling | hAborted
      · exact hCalling
      · exact absurd hAborted hPhase
    unfold step
    rw [if_neg hPhase]
    split
    next hNil => exact absurd hNil hCalls
    next call rest hCons =>
      have hRest : Represents { s with calls := rest } a :=
        hRep.withCalls (fun _ => Or.inl hCalling)
      exact waiting_perform (Agenda.sound_of_reachable hReach) hRest hCalling call hWaiting
  · intro n hDone c hc
    rcases (hOnTime n).waiting c hc with hOnce | ⟨-, q, hWaiting⟩
    · exact hOnce
    · rcases represents_simulate client world calls n with ⟨a, hReach, hRep⟩
      have hId := (waiting_iff hRep _ _ _).mp hWaiting
      rw [(Agenda.sound_of_reachable hReach).finished (hRep.phase.trans hDone)] at hId
      cases hId
  · rintro ⟨quiet, hQuiet⟩
    exact exists_done hDisciplined hQuiet

/- An event that schedules a later and a delayed one. -/
def relayClient : Client Unit Bool
| .event true, _, _, _ =>
  ((), [.scheduleEvent false 0 .seqNbassign, .scheduleEvent false 3 .seqActive])
| _, _, _, _ => ((), [])

/- The run that pushes such an event and delays another. -/
theorem relayClient_disciplined :
    Disciplined relayClient () [.scheduleEvent true 2 .seqActive, .scheduleEventPush true] := by
  have hFirst : ∀ n < 60, ∀ call ∈ (simulate relayClient ()
      [.scheduleEvent true 2 .seqActive, .scheduleEventPush true] n).calls,
      call.Allowed (simulate relayClient ()
        [.scheduleEvent true 2 .seqActive,
          .scheduleEventPush true] n).phase := by
    decide +kernel
  intro n
  rcases Nat.lt_or_ge n 60 with hn | hn
  · exact hFirst n hn
  · rw [simulate_of_done (n := 59) (by decide +kernel) (by decide +kernel) (by omega)]
    exact hFirst 59 (by decide +kernel)

theorem simulate_onTime_relay :
    (∀ n, (simulate relayClient ()
      [.scheduleEvent true 2 .seqActive, .scheduleEventPush true] n).OnTime) ∧
    (∃ n, (simulate relayClient ()
      [.scheduleEvent true 2 .seqActive, .scheduleEventPush true] n).phase = .done) ∧
    executedIds (simulate relayClient ()
      [.scheduleEvent true 2 .seqActive, .scheduleEventPush true] 59).trace =
      [5, 3, 4, 0, 2, 1] := by
  have hAll := simulate_onTime relayClient () _ relayClient_disciplined
  refine ⟨hAll.1, hAll.2.2.2 ⟨59, fun n hn => ?_⟩, by decide +kernel⟩
  rw [simulate_of_done (n := 59) (by decide +kernel) (by decide +kernel) hn]
  decide +kernel

/-
  As `SchedCall.Allowed`, but a deletion may also schedule a
  read-only event without delay.
-/
def AllowedRosync (phase : Phase) : SchedCall ε → Prop
| .scheduleEvent _ delay q =>
  q ≠ .seqStart ∧ (q = .seqInactive → delay = 0) ∧
    (delay = 0 → phase = .rosyncLoop ∨ phase = .delThreadLoop → q = .seqRosync)
| .scheduleEventPush _ => phase ≠ .rosyncLoop ∧ phase ≠ .delThreadLoop
| .scheduleStop => True
| .scheduleSingleStep => True

instance (phase : Phase) (call : SchedCall ε) : Decidable (AllowedRosync phase call) :=
  match call with
  | .scheduleEvent _ _ _ => inferInstanceAs (Decidable (_ ∧ _))
  | .scheduleEventPush _ => inferInstanceAs (Decidable (_ ∧ _))
  | .scheduleStop => inferInstanceAs (Decidable True)
  | .scheduleSingleStep => inferInstanceAs (Decidable True)

/- A deletion that schedules a read-only event. -/
def deletionClient : Client Unit Bool
| .event true, _, _, _ => ((), [.scheduleEvent false 0 .seqRosync])
| _, _, _, _ => ((), [])

/- The cell is deleted together with the read-only event. -/
theorem simulate_loses_rosync :
    (∀ n, ∀ call ∈ (simulate deletionClient () [.scheduleEvent true 0 .delThread] n).calls,
      AllowedRosync (simulate deletionClient () [.scheduleEvent true 0 .delThread] n).phase call) ∧
    (∃ n c, .scheduled c ∈ (simulate deletionClient () [.scheduleEvent true 0 .delThread] n).trace ∧
      c.time + c.delay = 0 ∧
      ∀ m, c.id ∉ executedIds (simulate deletionClient ()
        [.scheduleEvent true 0 .delThread] m).trace) := by
  have hCalls : ∀ n < 20, ∀ call ∈ (simulate deletionClient ()
        [.scheduleEvent true 0 .delThread] n).calls,
      AllowedRosync (simulate deletionClient ()
        [.scheduleEvent true 0 .delThread] n).phase call := by
    decide +kernel
  have hTrace : ∀ n < 20, 1 ∉ executedIds
      (simulate deletionClient () [.scheduleEvent true 0 .delThread] n).trace := by
    decide +kernel
  have hEnd : ∀ n, 19 ≤ n → simulate deletionClient () [.scheduleEvent true 0 .delThread] n =
      simulate deletionClient ()
        [.scheduleEvent true 0 .delThread] 19 := fun n hn =>
    simulate_of_done (by decide +kernel) (by decide +kernel) hn
  refine ⟨fun n => ?_, 19,
    { id := 1, queue := .seqRosync, push := false,
      phase := .delThreadLoop, time := 0, delay := 0,
      due := 0 }, by decide +kernel, rfl, fun n => ?_⟩
  · rcases Nat.lt_or_ge n 20 with hn | hn
    · exact hCalls n hn
    · rw [hEnd n (by omega)]
      exact hCalls 19 (by decide +kernel)
  · rcases Nat.lt_or_ge n 20 with hn | hn
    · exact hTrace n hn
    · rw [hEnd n (by omega)]
      exact hTrace 19 (by decide +kernel)

end Scheduler

end EpicSim
