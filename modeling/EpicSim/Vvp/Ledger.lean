import EpicSim.Vvp.Agenda

/-
  The history of an agenda: which events were scheduled, when
  they are due and which of them have been executed.
-/

----
-- Histories
----

namespace EpicSim

open List (mem_cons mem_cons_of_mem mem_cons_self)

/- The event an entry executes. -/
def Entry.executedId : Entry → Option Nat
| .executed id _ _ => some id
| _ => none

/- The events executed, latest first. -/
def executedIds (trace : List Entry) : List Nat :=
  trace.filterMap Entry.executedId

@[simp] theorem executedIds_scheduled (c : Scheduled) (trace : List Entry) :
    executedIds (.scheduled c :: trace) = executedIds trace :=
  rfl

@[simp] theorem executedIds_activated (q : EventQueueT) (due : Nat) (trace : List Entry) :
    executedIds (.activated q due :: trace) = executedIds trace :=
  rfl

@[simp] theorem executedIds_deleted (due : Nat) (trace : List Entry) :
    executedIds (.deleted due :: trace) = executedIds trace :=
  rfl

@[simp] theorem executedIds_executed (id time due : Nat) (trace : List Entry) :
    executedIds (.executed id time due :: trace) = id :: executedIds trace :=
  rfl

theorem mem_executedIds (id : Nat) (trace : List Entry) :
    id ∈ executedIds trace ↔
      ∃ time due, Entry.executed id time due ∈ trace := by
  simp only [executedIds, List.mem_filterMap]
  constructor
  · rintro ⟨entry, hEntry, hId⟩
    cases entry with
    | scheduled c => cases hId
    | activated q due => cases hId
    | executed id' time due =>
      cases hId
      exact ⟨time, due, hEntry⟩
    | deleted due => cases hId
  · rintro ⟨time, due, hEntry⟩
    exact ⟨_, hEntry, rfl⟩

/- The queues that are made active in their turn. -/
def EventQueueT.Promoted : EventQueueT → Prop
| .seqInactive => True
| .seqNbassign => True
| .seqRwsync => True
| _ => False

/- A queue in which an event can wait after it was scheduled. -/
def Scheduled.WaitsIn (c : Scheduled) (q : EventQueueT) : Prop :=
  q = c.queue ∨ q = .seqActive ∧ c.queue.Promoted

----
-- Ledgers
----

namespace Agenda

/-
  What the history says about the events: every event was
  scheduled by one call, waits where this call put it, and
  was executed when it was due, at most once.
-/
structure Ledger (a : Agenda) : Prop where
  made : ∀ c, .scheduled c ∈ a.trace → c.id < a.fresh
  single : ∀ c c', .scheduled c ∈ a.trace → .scheduled c' ∈ a.trace → c.id = c'.id → c = c'
  stamped : ∀ c, .scheduled c ∈ a.trace → ∃ time, c.due = time + c.delay ∧ c.time = time % 2 ^ 64
  waiting :
    ∀ time q id, id ∈ a.slot time q →
      ∃ c, .scheduled c ∈ a.trace ∧ c.id = id ∧ c.due = time ∧ c.WaitsIn q
  executed :
    ∀ id time due, .executed id time due ∈ a.trace →
      ∃ c, .scheduled c ∈ a.trace ∧ c.id = id ∧ c.due = due ∧ time = due % 2 ^ 64
  once : (executedIds a.trace).Nodup
  waits : ∀ time q id, id ∈ a.slot time q → id ∉ executedIds a.trace

variable {a : Agenda}

theorem Ledger.fresh_not_executed (h : a.Ledger) : a.fresh ∉ executedIds a.trace := by
  intro hId
  rcases (mem_executedIds _ _).mp hId with ⟨time, due, hIn⟩
  rcases h.executed _ _ _ hIn with ⟨c, hc, hcId, -⟩
  have hLt := h.made c hc
  omega

/- A new record, and its event in the slot it names. -/
theorem ledger_scheduled (h : a.Ledger) (q : EventQueueT) (push : Bool) (delay : Nat)
    {slot : Nat → EventQueueT → List Nat} (hSlot :
      ∀ time q' id, id ∈ slot time q' →
        id ∈ a.slot time q' ∨ id = a.fresh ∧ time = a.time + delay ∧ q' = q) :
    Ledger
      { a with
        slot := slot
        fresh := a.fresh + 1
        trace :=
          .scheduled (a.record q push delay) :: a.trace } := by
  have hMem : ∀ c,
      Entry.scheduled c ∈ Entry.scheduled (a.record q push delay) :: a.trace ↔
        c = a.record q push delay ∨ .scheduled c ∈ a.trace := by
    intro c
    simp
  refine ⟨?_, ?_, ?_, ?_, ?_, h.once, ?_⟩
  · intro c hc
    rcases (hMem c).mp hc with rfl | hOld
    · exact Nat.lt_succ_self _
    · exact Nat.lt_succ_of_lt (h.made c hOld)
  · intro c c' hc hc' hId
    rcases (hMem c).mp hc with rfl | hOld
    · rcases (hMem c').mp hc' with rfl | hOld'
      · rfl
      · have hLt := h.made c' hOld'
        simp only [record] at hId
        omega
    · rcases (hMem c').mp hc' with rfl | hOld'
      · have hLt := h.made c hOld
        simp only [record] at hId
        omega
      · exact h.single c c' hOld hOld' hId
  · intro c hc
    rcases (hMem c).mp hc with rfl | hOld
    · exact ⟨a.time, rfl, rfl⟩
    · exact h.stamped c hOld
  · intro time q' id hId
    rcases hSlot time q' id hId with hOld | ⟨rfl, rfl, rfl⟩
    · rcases h.waiting time q' id hOld with ⟨c, hc, hRest⟩
      exact ⟨c, mem_cons_of_mem _ hc, hRest⟩
    · exact ⟨_, mem_cons_self, rfl, rfl, Or.inl rfl⟩
  · intro id time due hIn
    rcases mem_cons.mp hIn with hEq | hIn
    · cases hEq
    · rcases h.executed id time due hIn with ⟨c, hc, hRest⟩
      exact ⟨c, mem_cons_of_mem _ hc, hRest⟩
  · intro time q' id hId
    rcases hSlot time q' id hId with hOld | ⟨rfl, -, -⟩
    · exact h.waits time q' id hOld
    · exact h.fresh_not_executed

/- Entries that neither schedule nor execute. -/
theorem ledger_frame {a a' : Agenda} (h : a.Ledger) (hFresh : a'.fresh = a.fresh)
    (hScheduled : ∀ c, .scheduled c ∈ a'.trace ↔ .scheduled c ∈ a.trace)
    (hExecuted : ∀ id time due, .executed id time due ∈ a'.trace ↔ .executed id time due ∈ a.trace)
    (hIds : executedIds a'.trace = executedIds a.trace) (hSlot :
      ∀ time q id, id ∈ a'.slot time q →
        id ∈ a.slot time q ∨ q = .seqActive ∧ ∃ q', q'.Promoted ∧ id ∈ a.slot time q') :
    a'.Ledger := by
  refine ⟨?_, ?_, ?_, ?_, ?_, ?_, ?_⟩
  · intro c hc
    rw [hFresh]
    exact h.made c ((hScheduled c).mp hc)
  · intro c c' hc hc'
    exact h.single c c' ((hScheduled c).mp hc) ((hScheduled c').mp hc')
  · intro c hc
    exact h.stamped c ((hScheduled c).mp hc)
  · intro time q id hId
    rcases hSlot time q id hId with hOld | ⟨rfl, q', hPromoted, hOld⟩
    · rcases h.waiting time q id hOld with ⟨c, hc, hRest⟩
      exact ⟨c, (hScheduled c).mpr hc, hRest⟩
    · rcases h.waiting time q' id hOld with ⟨c, hc, hId, hDue, hEq | ⟨rfl, -⟩⟩
      · refine ⟨c, (hScheduled c).mpr hc, hId, hDue, Or.inr ⟨rfl, ?_⟩⟩
        rw [← hEq]
        exact hPromoted
      · exact hPromoted.elim
  · intro id time due hIn
    rcases h.executed id time due ((hExecuted id time due).mp hIn) with ⟨c, hc, hRest⟩
    exact ⟨c, (hScheduled c).mpr hc, hRest⟩
  · rw [hIds]
    exact h.once
  · intro time q id hId
    rw [hIds]
    rcases hSlot time q id hId with hOld | ⟨-, q', -, hOld⟩
    · exact h.waits time q id hOld
    · exact h.waits time q' id hOld

/- The first event of a queue is executed. -/
theorem ledger_execute (hSound : a.Sound) (h : a.Ledger) {q : EventQueueT} {id : Nat}
    {rest : List Nat} (hSlot : a.slot a.time q = id :: rest) (phase : Phase) :
    (a.execute q id rest phase).Ledger := by
  have hWaits : id ∈ a.slot a.time q := by
    rw [hSlot]
    exact mem_cons_self
  have hOld : ∀ time q' id',
      id' ∈ (a.execute q id rest phase).slot time q' →
        id' ∈ a.slot time q' ∧ id' ≠ id := by
    intro time q' id' hId'
    by_cases hSame : time = a.time ∧ q' = q
    · rcases hSame with ⟨rfl, rfl⟩
      have hNodup := hSound.nodup a.time q'
      rw [hSlot] at hNodup ⊢
      simp only [execute, setSlot_self] at hId'
      grind
    · simp only [execute, setSlot_of_ne a hSame] at hId'
      refine ⟨hId', ?_⟩
      rintro rfl
      exact hSame (hSound.apart _ _ _ _ _ hId' hWaits)
  have hScheduled : ∀ c,
      Entry.scheduled c ∈ (a.execute q id rest phase).trace ↔
        .scheduled c ∈ a.trace := by
    intro c
    simp [execute]
  refine ⟨?_, ?_, ?_, ?_, ?_, ?_, ?_⟩
  · intro c hc
    exact h.made c ((hScheduled c).mp hc)
  · intro c c' hc hc'
    exact h.single c c' ((hScheduled c).mp hc) ((hScheduled c').mp hc')
  · intro c hc
    exact h.stamped c ((hScheduled c).mp hc)
  · intro time q' id' hId'
    rcases h.waiting time q' id' (hOld _ _ _ hId').1 with ⟨c, hc, hRest⟩
    exact ⟨c, (hScheduled c).mpr hc, hRest⟩
  · intro id' time due hIn
    rcases mem_cons.mp hIn with hEq | hIn
    · injection hEq with hId hTime hDue
      rcases h.waiting _ _ _ hWaits with ⟨c, hc, hcId, hcDue, -⟩
      exact ⟨c, (hScheduled c).mpr hc, hcId.trans hId.symm,
        hcDue.trans hDue.symm, by rw [hTime, hDue]⟩
    · rcases h.executed id' time due hIn with ⟨c, hc, hRest⟩
      exact ⟨c, (hScheduled c).mpr hc, hRest⟩
  · exact List.nodup_cons.mpr ⟨h.waits _ _ _ hWaits, h.once⟩
  · intro time q' id' hId'
    rcases hOld time q' id' hId' with ⟨hWas, hNe⟩
    simp only [execute, executedIds_executed, mem_cons, not_or]
    exact ⟨hNe, h.waits time q' id' hWas⟩

/- Deleting the cell of the current time empties its slot. -/
theorem mem_of_mem_deleteCell {time : Nat} {q : EventQueueT} {id : Nat}
    (h : id ∈ Function.update a.slot a.time (fun _ => []) time q) :
    time ≠ a.time ∧ id ∈ a.slot time q := by
  by_cases hTime : time = a.time
  · subst hTime
    rw [Function.update_self] at h
    cases h
  · rw [Function.update_of_ne hTime] at h
    exact ⟨hTime, h⟩

theorem promoted_of_ready {q : EventQueueT} (hReady : a.Ready q) (hq : q ≠ .seqRosync) :
    q.Promoted := by
  cases q with
  | seqInactive => trivial
  | seqNbassign => trivial
  | seqRwsync => trivial
  | seqRosync => exact absurd rfl hq
  | seqStart => exact hReady
  | seqActive => exact hReady
  | delThread => exact hReady

theorem ledger_of_step {a a' : Agenda} (hSound : a.Sound) (h : a.Ledger) (hStep : AgendaStep a a') :
    a'.Ledger := by
  cases hStep with
  | append q delay hCalling =>
    exact ledger_scheduled h q false delay
      (fun time q' id => (mem_append_iff a q delay false time q' id).mp)
  | push hCalling =>
    exact ledger_scheduled h .seqActive true 0 (fun time q' id => (mem_push_iff a time q' id).mp)
  | execute q id rest phase hRuns hSlot => exact ledger_execute hSound h hSlot phase
  | activate q hPhase hq hReady hSome =>
    refine ledger_frame h rfl (by simp [activate]) (by simp [activate]) rfl ?_
    intro time q' id hId
    rcases mem_of_mem_activate hId with ⟨-, hWas⟩
    split_ifs at hWas with hActive
    · exact Or.inr ⟨hActive.2, q, promoted_of_ready hReady hq, hWas⟩
    · exact Or.inl hWas
  | activateRosync hPhase hReady =>
    exact ledger_frame h rfl (by simp) (by simp) rfl (fun _ _ _ hId => Or.inl hId)
  | advance time hPhase hLater hBefore =>
    exact ledger_frame h rfl (by simp) (by simp) rfl (fun _ _ _ hId => Or.inl hId)
  | deleteCell hPhase hEmpty =>
    exact ledger_frame h rfl (by simp) (by simp) rfl
      (fun _ _ _ hId => Or.inl (mem_of_mem_deleteCell hId).2)
  | move phase hMoves =>
    exact ledger_frame h rfl (by simp) (by simp) rfl (fun _ _ _ hId => Or.inl hId)

theorem ledger_of_reachable (h : a.Reachable) : a.Ledger := by
  induction h with
  | start =>
    exact ⟨by simp [Agenda.start], by simp [Agenda.start],
      by simp [Agenda.start], by simp [Agenda.start], by simp [Agenda.start],
      by simp [Agenda.start, executedIds], by simp [Agenda.start]⟩
  | step hReach hStep ih => exact ledger_of_step (sound_of_reachable hReach) ih hStep

end Agenda

----
-- Served Events
----

/-
  A call without delay made by a read-only event asks for
  another read-only event or for the deletion of a thread,
  and one made by a deletion for another deletion.
-/
def Scheduled.Lawful (c : Scheduled) : Prop :=
  c.delay = 0 →
    (c.phase = .rosyncLoop → c.queue = .seqRosync ∨ c.queue = .delThread) ∧
      (c.phase = .delThreadLoop → c.queue = .delThread)

namespace Agenda

/- All calls so far were lawful. -/
def Lawful (a : Agenda) : Prop :=
  ∀ c, .scheduled c ∈ a.trace → c.Lawful

/-
  No event is lost: all but the start events wait in the slot
  of their due time until they are executed.
-/
structure Served (a : Agenda) : Prop where
  served :
    ∀ c, .scheduled c ∈ a.trace → c.queue ≠ .seqStart →
      c.id ∈ executedIds a.trace ∨ ∃ q, q ≠ .seqStart ∧ c.id ∈ a.slot c.due q
  drained :
    a.phase = .rosyncLoop ∨ a.phase = .delThreadLoop →
      ∀ q, q = .seqActive ∨ q.Promoted → a.slot a.time q = []
  synced : a.phase = .delThreadLoop → a.slot a.time .seqRosync = []

variable {a a' : Agenda}

/- A lawful call leaves the drained queues empty. -/
theorem served_scheduled (h : a.Served) {q : EventQueueT} {push : Bool} (delay : Nat)
    (hLawful : (a.record q push delay).Lawful) {l : List Nat}
    (hSlot : a'.slot = a.setSlot (a.time + delay) q l)
    (hOld : ∀ id ∈ a.slot (a.time + delay) q, id ∈ l)
    (hNew : a.fresh ∈ l) (hTime : a'.time = a.time) (hPhase : a'.phase = a.phase)
    (hTrace : a'.trace = .scheduled (a.record q push delay) :: a.trace) : a'.Served := by
  have hKeep : ∀ time q' id, id ∈ a.slot time q' →
      id ∈ a'.slot time q' := by
    intro time q' id hId
    rw [hSlot]
    by_cases hSame : time = a.time + delay ∧ q' = q
    · rcases hSame with ⟨rfl, rfl⟩
      rw [setSlot_self]
      exact hOld id hId
    · rw [setSlot_of_ne a hSame]
      exact hId
  have hEmpty : ∀ q', a.slot a.time q' = [] →
      (delay = 0 → q' ≠ q) → a'.slot a.time q' = [] := by
    intro q' hNil hNe
    rw [hSlot, setSlot_of_ne a]
    · exact hNil
    · rintro ⟨hEq, hQueue⟩
      exact hNe (by omega) hQueue
  refine ⟨?_, ?_, ?_⟩
  · intro c hc hStart
    rw [hTrace] at hc ⊢
    rcases mem_cons.mp hc with hEq | hc
    · injection hEq with hEq
      subst hEq
      refine Or.inr ⟨q, hStart, ?_⟩
      rw [hSlot]
      simp only [record, setSlot_self]
      exact hNew
    · rcases h.served c hc hStart with hDone | ⟨q', hq', hId⟩
      · exact Or.inl hDone
      · exact Or.inr ⟨q', hq', hKeep _ _ _ hId⟩
  · intro hLate q' hq'
    rw [hPhase] at hLate
    rw [hTime]
    refine hEmpty q' (h.drained hLate q' hq') ?_
    rintro hZero rfl
    rcases hLawful hZero with ⟨hRosync, hDelete⟩
    rcases hLate with hLate | hLate
    · rcases hRosync hLate with hEq | hEq
      · have hEq' : q' = .seqRosync := hEq
        subst hEq'
        rcases hq' with hq' | hq'
        · cases hq'
        · exact hq'
      · have hEq' : q' = .delThread := hEq
        subst hEq'
        rcases hq' with hq' | hq'
        · cases hq'
        · exact hq'
    · have hEq' : q' = .delThread := hDelete hLate
      subst hEq'
      rcases hq' with hq' | hq'
      · cases hq'
      · exact hq'
  · intro hLate
    rw [hPhase] at hLate
    rw [hTime]
    refine hEmpty _ (h.synced hLate) ?_
    rintro hZero rfl
    have hEq : EventQueueT.seqRosync = .delThread := (hLawful hZero).2 hLate
    cases hEq

/- Steps outside the late loops that keep all events. -/
theorem served_frame (h : a.Served)
    (hScheduled : ∀ c, .scheduled c ∈ a'.trace → .scheduled c ∈ a.trace)
    (hIds : ∀ id, id ∈ executedIds a.trace → id ∈ executedIds a'.trace) (hSlot :
      ∀ time q id, q ≠ .seqStart → id ∈ a.slot time q →
        id ∈ executedIds a'.trace ∨ ∃ q', q' ≠ .seqStart ∧ id ∈ a'.slot time q')
    (hDrained :
      a'.phase = .rosyncLoop ∨ a'.phase = .delThreadLoop →
        ∀ q, q = .seqActive ∨ q.Promoted → a'.slot a'.time q = [])
    (hSynced : a'.phase = .delThreadLoop → a'.slot a'.time .seqRosync = []) : a'.Served := by
  refine ⟨?_, hDrained, hSynced⟩
  intro c hc hStart
  rcases h.served c (hScheduled c hc) hStart with hDone | ⟨q, hq, hId⟩
  · exact Or.inl (hIds _ hDone)
  · exact hSlot _ q _ hq hId

theorem served_of_step (h : a.Served) (hStep : AgendaStep a a') (hLawful : a'.Lawful) :
    a'.Served := by
  cases hStep with
  | append q delay hCalling =>
    refine served_scheduled h delay (hLawful _ mem_cons_self) rfl ?_ ?_ rfl rfl rfl
    · exact fun id hId => List.mem_append_left _ hId
    · exact List.mem_append_right _ mem_cons_self
  | push hCalling =>
    refine served_scheduled h 0 (hLawful _ mem_cons_self) rfl ?_ ?_ rfl rfl rfl
    · exact fun id hId => mem_cons_of_mem _ hId
    · exact mem_cons_self
  | execute q id rest phase hRuns hSlot =>
    have hSame : ∀ q', q' ≠ q →
        (a.execute q id rest phase).slot a.time q' = a.slot a.time q' :=
      fun q' hNe => setSlot_of_ne a (fun hEq => hNe hEq.2) _
    have hLate :
        phase = .rosyncLoop ∨ phase = .delThreadLoop →
          a.phase = phase ∧ q ≠ .seqActive ∧ ¬q.Promoted ∧
            (phase = .delThreadLoop → q ≠ .seqRosync) := by
      rintro (rfl | rfl)
      · cases q <;> cases hPhase : a.phase <;>
          simp [Runs, hPhase, EventQueueT.Promoted] at hRuns ⊢
      · cases q <;> cases hPhase : a.phase <;>
          simp [Runs, hPhase, EventQueueT.Promoted] at hRuns ⊢
    refine served_frame h (by simp [execute]) (by simp +contextual [execute]) ?_ ?_ ?_
    · intro time q' id' hq' hId'
      by_cases hHere : time = a.time ∧ q' = q
      · rcases hHere with ⟨rfl, rfl⟩
        rw [hSlot] at hId'
        rcases mem_cons.mp hId' with rfl | hId'
        · exact Or.inl mem_cons_self
        · refine Or.inr ⟨q', hq', ?_⟩
          simp only [execute, setSlot_self]
          exact hId'
      · refine Or.inr ⟨q', hq', ?_⟩
        simp only [execute, setSlot_of_ne a hHere]
        exact hId'
    · intro hPhase q' hq'
      rcases hLate hPhase with ⟨hWas, hActive, hPromoted, -⟩
      have hNe : q' ≠ q := by grind
      refine (hSame q' hNe).trans (h.drained ?_ q' hq')
      rw [hWas]
      exact hPhase
    · intro hPhase
      rcases hLate (Or.inr hPhase) with ⟨hWas, -, -, hNe⟩
      refine (hSame _ (hNe hPhase).symm).trans (h.synced (hWas.trans hPhase))
  | activate q hPhase hq hReady hSome =>
    refine served_frame h (by simp [activate])
      (by simp [activate]) ?_
      (fun hLate => by
        rcases hLate with hLate | hLate <;> cases hLate)
      (fun hLate => by cases hLate)
    intro time q' id hq' hId
    right
    by_cases hTime : time = a.time
    · subst hTime
      by_cases hQueue : q' = q
      · refine ⟨.seqActive, by simp, ?_⟩
        have hNe : EventQueueT.seqActive ≠ q := by
          rintro rfl
          exact hReady
        rw [activate_slot, if_neg hNe, ← hQueue]
        exact hId
      · by_cases hActive : q' = .seqActive
        · subst hActive
          have hEmpty : a.slot a.time .seqActive = [] := by
            cases q with
            | seqInactive => exact hReady
            | seqNbassign => exact hReady.1
            | seqRwsync => exact hReady.1
            | seqRosync => exact hReady.1
            | seqStart => exact hReady.elim
            | seqActive => exact hReady.elim
            | delThread => exact hReady.elim
          rw [hEmpty] at hId
          cases hId
        · refine ⟨q', hq', ?_⟩
          rw [activate_slot, if_neg hQueue, if_neg hActive]
          exact hId
    · refine ⟨q', hq', ?_⟩
      rw [activate_slot_of_ne a q hTime]
      exact hId
  | activateRosync hPhase hReady =>
    refine served_frame h (by simp) (by simp)
      (fun _ q _ hq hId => Or.inr ⟨q, hq, hId⟩) ?_
      (fun hLate => by cases hLate)
    intro _ q hq
    rcases hReady with ⟨hActive, hInactive, hNba, hRwsync⟩
    cases q with
    | seqActive => exact hActive
    | seqInactive => exact hInactive
    | seqNbassign => exact hNba
    | seqRwsync => exact hRwsync
    | seqStart => rcases hq with hq | hq <;> cases hq
    | seqRosync => rcases hq with hq | hq <;> cases hq
    | delThread => rcases hq with hq | hq <;> cases hq
  | advance time hPhase hLater hBefore =>
    exact served_frame h (by simp) (by simp)
      (fun _ q _ hq hId => Or.inr ⟨q, hq, hId⟩)
      (fun hLate => by
        rcases hLate with hLate | hLate <;> cases hLate)
      (fun hLate => by cases hLate)
  | deleteCell hPhase hEmpty =>
    refine served_frame h (by simp) (by simp) ?_
      (fun hLate => by
        rcases hLate with hLate | hLate <;> cases hLate)
      (fun hLate => by cases hLate)
    intro time q id hq hId
    right
    by_cases hTime : time = a.time
    · subst hTime
      have hNil : a.slot a.time q = [] := by
        cases q with
        | seqStart => exact absurd rfl hq
        | seqActive => exact h.drained (Or.inr hPhase) _ (Or.inl rfl)
        | seqInactive => exact h.drained (Or.inr hPhase) _ (Or.inr trivial)
        | seqNbassign => exact h.drained (Or.inr hPhase) _ (Or.inr trivial)
        | seqRwsync => exact h.drained (Or.inr hPhase) _ (Or.inr trivial)
        | seqRosync => exact h.synced hPhase
        | delThread => exact hEmpty
      rw [hNil] at hId
      cases hId
    · refine ⟨q, hq, ?_⟩
      change id ∈ Function.update a.slot a.time (fun _ => []) time q
      rw [Function.update_of_ne hTime]
      exact hId
  | move phase hMoves =>
    refine served_frame h (by simp) (by simp) (fun _ q _ hq hId => Or.inr ⟨q, hq, hId⟩) ?_ ?_
    · intro hLate q hq
      refine h.drained ?_ q hq
      rcases hLate with hLate | hLate
      · have hEq : phase = .rosyncLoop := hLate
        subst hEq
        cases hPhase : a.phase <;>
          simp only [hPhase, Moves] at hMoves
      · have hEq : phase = .delThreadLoop := hLate
        subst hEq
        cases hPhase : a.phase <;>
          simp only [hPhase, Moves] at hMoves
        exact Or.inl rfl
    · intro hLate
      have hEq : phase = .delThreadLoop := hLate
      subst hEq
      cases hPhase : a.phase <;>
        simp only [hPhase, Moves] at hMoves
      exact hMoves

theorem trace_subset_of_step (hStep : AgendaStep a a') : ∀ entry ∈ a.trace, entry ∈ a'.trace := by
  intro entry hEntry
  cases hStep with
  | append => exact mem_cons_of_mem _ hEntry
  | push => exact mem_cons_of_mem _ hEntry
  | execute => exact mem_cons_of_mem _ hEntry
  | activate => exact mem_cons_of_mem _ hEntry
  | activateRosync => exact mem_cons_of_mem _ hEntry
  | advance => exact hEntry
  | deleteCell => exact mem_cons_of_mem _ hEntry
  | move => exact hEntry

theorem served_of_reachable (h : a.Reachable) (hLawful : a.Lawful) : a.Served := by
  induction h with
  | start => exact ⟨by simp [Agenda.start], by simp [Agenda.start], by simp [Agenda.start]⟩
  | step hReach hStep ih =>
    refine served_of_step (ih ?_) hStep hLawful
    intro c hc
    exact hLawful c (trace_subset_of_step hStep _ hc)

end Agenda

end EpicSim
