import EpicSim.Vvp.Agenda

/-
  The scheduler refines the agenda.

  Time cells with relative delays represent the slots of the
  absolute times, and circular lists represent their queues.
  Every step of the scheduler is a step of the agenda, or
  leaves it as it is.
-/

----
-- Representation
----

namespace EpicSim

open CircularList DeltaList

variable {σ ε : Type*}

/- The cells of a scheduler with their absolute times. -/
def Scheduler.cells (s : Scheduler σ ε) : List (Nat × EventTime) :=
  timed s.elapsed s.schedList

/-
  Time cells represent slots: the queues of a cell hold the
  events of its slot, and a time without cell has none.
-/
structure CellsRepresent (next : Nat → Nat) (cells : List (Nat × EventTime))
    (slot : Nat → EventQueueT → List Nat) : Prop where
  queued : ∀ time body, (time, body) ∈ cells → ∀ q, Queued next (body q) (slot time q)
  empty : ∀ time, (∀ body, (time, body) ∉ cells) → ∀ q, slot time q = []

/- A scheduler represents an agenda. -/
structure Represents (s : Scheduler σ ε) (a : Agenda) : Prop where
  time : a.time = s.elapsed
  fresh : a.fresh = s.fresh
  phase : a.phase = s.phase
  trace : a.trace = s.trace
  clock : s.scheduleTime = s.elapsed % 2 ^ 64
  spaced : Spaced s.schedList
  cells : CellsRepresent s.next s.cells a.slot
  made : ∀ id < s.fresh, s.obj id ≠ none
  calling : s.calls ≠ [] → s.phase.Calling ∨ s.phase = .aborted
  inStep : s.phase.InStep → ∃ ctim after, s.schedList = ctim :: after ∧ ctim.delay = 0

variable {s : Scheduler σ ε} {a : Agenda}

theorem Represents.record (h : Represents s a) (q : EventQueueT) (push : Bool) (delay : Nat) :
    a.record q push delay = s.record q push delay := by
  simp only [Agenda.record, Scheduler.record, h.time, h.fresh, h.phase, h.clock]

/- The calls still to make are not on the agenda. -/
theorem Represents.withCalls (h : Represents s a) {calls : List (SchedCall ε)}
    (hCalling : calls ≠ [] → s.phase.Calling ∨ s.phase = .aborted) :
    Represents { s with calls := calls } a :=
  ⟨h.time, h.fresh, h.phase, h.trace, h.clock, h.spaced, h.cells, h.made, hCalling, h.inStep⟩

/- The queues of the place found represent its slot. -/
theorem queued_locate {next : Nat → Nat} {start : Nat} (delay : Nat)
    {cells : List (DeltaCell EventTime)}
    {slot : Nat → EventQueueT → List Nat} (hSpaced : Spaced cells)
    (h : CellsRepresent next (timed start cells) slot) (q : EventQueueT) :
    Queued next ((locate EventTime.new delay cells).cell.body q) (slot (start + delay) q) := by
  rcases locate_cell start delay hSpaced with hOld | ⟨hNew, hNone⟩
  · exact h.queued _ _ hOld q
  · rw [hNew, h.empty _ (fun body hMem => hNone _ hMem rfl) q]
    rfl

/-
  Filling the place of a delay, when the new body represents
  the new slot and the links of all other queues stay.
-/
theorem cellsRepresent_fill {next next' : Nat → Nat} {start delay : Nat}
    {cells : List (DeltaCell EventTime)}
    {slot slot' : Nat → EventQueueT → List Nat} {body : EventTime}
    (hSpaced : Spaced cells) (h : CellsRepresent next (timed start cells) slot)
    (hOther : ∀ time, time ≠ start + delay → slot' time = slot time)
    (hBody : ∀ q, Queued next' (body q) (slot' (start + delay) q))
    (hLinks : ∀ time q, time ≠ start + delay → ∀ x ∈ slot time q, next' x = next x) :
    CellsRepresent next'
      (timed start ((locate EventTime.new delay cells).fill body))
      slot' := by
  refine ⟨?_, ?_⟩
  · intro time body' hMem q
    rcases (mem_timed_fill hSpaced body (time, body')).mp hMem with hEq | ⟨hOld, hNe⟩
    · grind
    · rw [hOther time hNe]
      exact queued_frame (hLinks time q hNe) (h.queued time body' hOld q)
  · intro time hNone q
    have hNe : time ≠ start + delay := by
      rintro rfl
      exact hNone body ((mem_timed_fill hSpaced body _).mpr (Or.inl rfl))
    rw [hOther time hNe]
    refine h.empty time (fun body' hMem => ?_) q
    exact hNone body' ((mem_timed_fill hSpaced body _).mpr (Or.inr ⟨hMem, hNe⟩))

/- A cell at the current time is the place of delay 0. -/
theorem locate_head {ctim : DeltaCell EventTime} (h : ctim.delay = 0)
    (after : List (DeltaCell EventTime)) :
    locate EventTime.new 0 (ctim :: after) = ⟨[], ctim, after, 0⟩ := by
  cases after <;> simp [locate, search, settle, h]

/- Changing one queue changes the cells as it should. -/
theorem cellsRepresent_setSlot (hSound : a.Sound) (h : Represents s a) (delay : Nat)
    {q : EventQueueT} {next' : Nat → Nat} {tail : Option Nat}
    {l : List Nat} (hQueued : Queued next' tail l)
    (hLinks : ∀ x, x ∉ a.slot (a.time + delay) q → x ≠ a.fresh → next' x = s.next x) :
    CellsRepresent next'
      (timed s.elapsed
        ((locate EventTime.new delay s.schedList).fill
          (Function.update (locate EventTime.new delay s.schedList).cell.body q tail)))
      (a.setSlot (a.time + delay) q l) := by
  have hTime := h.time
  have hOthers : ∀ time q', ¬(time = a.time + delay ∧ q' = q) →
      ∀ x ∈ a.slot time q', next' x = s.next x := by
    intro time q' hNe x hx
    apply hLinks
    · intro hx'
      exact hNe (hSound.apart _ _ _ _ x hx hx')
    · rintro rfl
      exact Nat.lt_irrefl _ (hSound.made _ _ _ hx)
  rw [hTime] at hOthers
  rw [hTime]
  refine cellsRepresent_fill h.spaced h.cells ?_ ?_ ?_
  · intro time hNe
    funext q'
    exact a.setSlot_of_ne (fun hBoth => hNe hBoth.1) l
  · intro q'
    by_cases hQueue : q' = q
    · subst hQueue
      rw [Agenda.setSlot_self, Function.update_self]
      exact hQueued
    · rw [a.setSlot_of_ne (fun hBoth => hQueue hBoth.2), Function.update_of_ne hQueue]
      exact queued_frame
        (hOthers _ _ (fun hBoth => hQueue hBoth.2))
        (queued_locate delay h.spaced h.cells q')
  · grind

end EpicSim

----
-- Scheduling Calls
----

namespace EpicSim

open CircularList DeltaList

variable {σ ε : Type*}

theorem made_update {obj : Nat → Option ε} {fresh : Nat} (h : ∀ id < fresh, obj id ≠ none)
    (new : ε) :
    ∀ id < fresh + 1,
      Function.update obj fresh (some new) id ≠ none := by
  intro id hId
  by_cases hSelf : id = fresh
  · grind
  · rw [Function.update_of_ne hSelf]
    exact h id (by omega)

variable {s : Scheduler σ ε} {a : Agenda}

/- Events are appended to the slot of their due time. -/
theorem represents_scheduleEvent (hSound : a.Sound) (h : Represents s a)
    (hCalling : s.phase.Calling) (obj : ε) (delay : Nat) (q : EventQueueT) (push : Bool) :
    Represents (s.scheduleEvent obj delay q push) (a.append q delay push) ∨
      Represents (s.scheduleEvent obj delay q push)
        { a with phase := .aborted } := by
  unfold Scheduler.scheduleEvent
  by_cases hAssert : q = .seqInactive ∧ (locate EventTime.new delay s.schedList).rest ≠ 0
  · right
    simp only [if_pos hAssert]
    exact ⟨h.time, h.fresh, rfl, h.trace, h.clock, h.spaced,
      h.cells, h.made, fun _ => Or.inr rfl, fun hIn => hIn.elim⟩
  · left
    simp only [if_neg hAssert]
    have hOld := queued_locate delay h.spaced h.cells q
    rw [← h.time] at hOld
    have hOut : s.fresh ∉ a.slot (a.time + delay) q := by
      rw [← h.fresh]
      intro hMem
      exact Nat.lt_irrefl _ (hSound.made _ _ _ hMem)
    rcases queued_enqueue hOld hOut with ⟨hNew, hLinks⟩
    rw [← h.fresh] at hNew hLinks ⊢
    refine ⟨h.time, rfl, h.phase, ?_, h.clock, spaced_locate _ _ h.spaced _,
      cellsRepresent_setSlot hSound h delay hNew hLinks, ?_, fun _ => Or.inl hCalling, ?_⟩
    · simp only [Agenda.append, h.record, h.trace]
    · refine made_update ?_ obj
      rw [h.fresh]
      exact h.made
    · intro hIn
      rcases h.inStep hIn with ⟨ctim, after, hList, hZero⟩
      rw [hList]
      exact head_fill _ delay hZero after _

/- Nothing waits before the first cell. -/
theorem slot_of_before (h : Represents s a) {time : Nat}
    (hBefore : ∀ ctim after, s.schedList = ctim :: after → time < s.elapsed + ctim.delay)
    (q : EventQueueT) : a.slot time q = [] := by
  refine h.cells.empty time ?_ q
  intro body hMem
  have hSpaced := h.spaced
  unfold Scheduler.cells at hMem
  cases hList : s.schedList with
  | nil =>
    rw [hList] at hMem
    cases hMem
  | cons ctim after =>
    rw [hList] at hMem hSpaced
    exact absurd (le_of_mem_timed hSpaced hMem) (Nat.not_le.mpr (hBefore ctim after hList))

theorem represents_scheduleEventPush
    (hSound : a.Sound) (h : Represents s a) (hCalling : s.phase.Calling) (obj : ε) :
    Represents (s.scheduleEventPush obj) a.push ∨
      Represents (s.scheduleEventPush obj)
        { a with phase := .aborted } := by
  -- without a cell for the current time its slot is empty, and
  -- the end of the active events is their front
  have hAppend :
      a.slot a.time .seqActive = [] →
        Represents (s.scheduleEvent obj 0 .seqActive true) a.push ∨
          Represents (s.scheduleEvent obj 0 .seqActive true)
            { a with phase := .aborted } := by
    intro hEmpty
    have hPush : a.append .seqActive 0 true = a.push := by
      simp only [Agenda.append, Agenda.push, Nat.add_zero, hEmpty, List.nil_append]
    rw [← hPush]
    exact represents_scheduleEvent hSound h hCalling obj 0 .seqActive true
  cases hList : s.schedList with
  | nil =>
    simp only [Scheduler.scheduleEventPush, hList]
    apply hAppend
    apply slot_of_before h
    grind
  | cons ctim after =>
    simp only [Scheduler.scheduleEventPush, hList]
    by_cases hLate : 0 < ctim.delay
    · rw [if_pos hLate]
      apply hAppend
      apply slot_of_before h
      intro ctim' after' hCons
      rw [hList] at hCons
      injection hCons with hHead
      rw [h.time, ← hHead]
      omega
    · rw [if_neg hLate]
      left
      have hZero : ctim.delay = 0 := by omega
      have hFound := locate_head hZero after
      rw [← hList] at hFound
      have hOld := queued_locate 0 h.spaced h.cells .seqActive
      rw [← h.time] at hOld
      have hOut : s.fresh ∉ a.slot a.time .seqActive := by
        rw [← h.fresh]
        intro hMem
        exact Nat.lt_irrefl _ (hSound.made _ _ _ hMem)
      rcases queued_pushFront hOld hOut with ⟨hNew, hLinks⟩
      rw [← h.fresh] at hNew hLinks ⊢
      have hCells := cellsRepresent_setSlot hSound h 0 hNew hLinks
      have hSpaced := spaced_locate EventTime.new 0 h.spaced
        (Function.update ctim.body .seqActive (pushFront s.next (ctim.body .seqActive) a.fresh).2)
      rw [hFound] at hCells hSpaced
      refine ⟨h.time, rfl, h.phase, ?_, h.clock, hSpaced, hCells, ?_,
        fun _ => Or.inl hCalling, fun _ => ⟨_, _, rfl, hZero⟩⟩
      · simp only [Agenda.push, h.record, h.trace]
      · refine made_update ?_ obj
        rw [h.fresh]
        exact h.made

/- The agenda after a step, or no step at all. -/
def AgendaMove (a a' : Agenda) : Prop :=
  a' = a ∨ AgendaStep a a'

theorem agendaMove_aborted (a : Agenda) : AgendaMove a { a with phase := .aborted } := by
  refine Or.inr (.move a .aborted ?_)
  cases a.phase <;> trivial

/- Every call is a step of the agenda. -/
theorem represents_perform (hSound : a.Sound) (h : Represents s a) (hCalling : s.phase.Calling)
    (call : SchedCall ε) : ∃ a', AgendaMove a a' ∧ Represents (s.perform call) a' := by
  have hCalling' : a.phase.Calling := by
    rw [h.phase]
    exact hCalling
  cases call with
  | scheduleEvent obj delay q =>
    rcases represents_scheduleEvent hSound h hCalling obj delay q false with hNew | hAborted
    · exact ⟨_, Or.inr (.append a q delay hCalling'), hNew⟩
    · exact ⟨_, agendaMove_aborted a, hAborted⟩
  | scheduleEventPush obj =>
    rcases represents_scheduleEventPush hSound h hCalling obj with hNew | hAborted
    · exact ⟨_, Or.inr (.push a hCalling'), hNew⟩
    · exact ⟨_, agendaMove_aborted a, hAborted⟩
  | scheduleStop =>
    exact ⟨a, Or.inl rfl, h.time, h.fresh, h.phase, h.trace, h.clock,
      h.spaced, h.cells, h.made, h.calling, h.inStep⟩
  | scheduleSingleStep =>
    exact ⟨a, Or.inl rfl, h.time, h.fresh, h.phase, h.trace, h.clock,
      h.spaced, h.cells, h.made, h.calling, h.inStep⟩

end EpicSim

----
-- The Loop
----

namespace EpicSim

open Function (update_eq_self update_of_ne update_self)
open CircularList DeltaList Scheduler

variable {σ ε : Type*}

variable {s : Scheduler σ ε} {a : Agenda}

theorem represents_runCode (h : Represents s a) (hCalling : s.phase.Calling) (client : Client σ ε)
    (code : Code ε) : Represents (runCode client code s) a :=
  ⟨h.time, h.fresh, h.phase, h.trace, h.clock, h.spaced,
    h.cells, h.made, fun _ => Or.inl hCalling, h.inStep⟩

variable {ctim : DeltaCell EventTime} {after : List (DeltaCell EventTime)} {q : EventQueueT}

/- The queues of the cell for the current time. -/
theorem queued_head (h : Represents s a)
    (hList : s.schedList = ctim :: after) (hZero : ctim.delay = 0) (q : EventQueueT) :
    Queued s.next (ctim.body q) (a.slot a.time q) := by
  have hFound := locate_head hZero after
  rw [← hList] at hFound
  have hOld := queued_locate 0 h.spaced h.cells q
  rw [hFound, ← h.time] at hOld
  exact hOld

/- Running the first event of a queue of the current cell. -/
theorem represents_runRun (hSound : a.Sound) (h : Represents s a)
    (hCalling : s.phase.Calling) (client : Client σ ε)
    (hList : s.schedList = ctim :: after) (hZero : ctim.delay = 0) {tail : Nat}
    (hTail : ctim.body q = some tail) :
    ∃ id rest, a.slot a.time q = id :: rest ∧
      Represents
        (runRun client (pull s.next tail).1 (s.setQueue ctim after q (pull s.next tail).2))
        (a.execute q id rest a.phase) := by
  have hQueue := queued_head h hList hZero q
  rw [hTail] at hQueue
  rcases queued_pull hQueue with ⟨rest, hSlot, hRest, hLinks⟩
  have hMade : (pull s.next tail).1 < s.fresh := by
    rw [← h.fresh]
    refine hSound.made a.time q _ ?_
    rw [hSlot]
    exact List.mem_cons_self
  rcases Option.ne_none_iff_exists'.mp (h.made _ hMade) with ⟨obj, hObj⟩
  have hFound := locate_head hZero after
  rw [← hList] at hFound
  have hCells := cellsRepresent_setSlot hSound h 0 hRest (fun x hx _ => hLinks x hx)
  have hSpaced := spaced_locate EventTime.new 0 h.spaced
    (Function.update ctim.body q (pull s.next tail).2.2)
  rw [hFound] at hCells hSpaced
  refine ⟨_, rest, hSlot, ?_⟩
  have hRun : runRun client (pull s.next tail).1
      (s.setQueue ctim after q (pull s.next tail).2) =
        runCode client (.event obj)
          { s.setQueue ctim after q (pull s.next tail).2 with
            trace := .executed (pull s.next tail).1 s.scheduleTime s.elapsed :: s.trace } := by
    simp only [runRun, setQueue, hObj]
  rw [hRun]
  refine represents_runCode ?_ ?_ client _
  swap
  · exact hCalling
  refine ⟨h.time, h.fresh, h.phase, ?_, h.clock, hSpaced,
    hCells, h.made, h.calling, fun _ => ⟨_, _, rfl, hZero⟩⟩
  simp only [Agenda.execute, h.trace, h.clock, h.time]

/- One turn of a draining loop. -/
theorem represents_drain (hSound : a.Sound) (h : Represents s a)
    (hCalling : s.phase.Calling) (hInStep : s.phase.InStep)
    (client : Client σ ε) (q : EventQueueT) (leave : Scheduler σ ε → Scheduler σ ε) :
    (∃ id rest, a.slot a.time q = id :: rest ∧
        Represents (s.drain client q leave) (a.execute q id rest a.phase)) ∨
      a.slot a.time q = [] ∧
        s.drain client q leave = leave s := by
  rcases h.inStep hInStep with ⟨ctim, after, hList, hZero⟩
  cases hTail : ctim.body q with
  | none =>
    right
    have hQueue := queued_head h hList hZero q
    refine ⟨(queued_nil_iff hQueue).mp hTail, ?_⟩
    simp only [drain, hList, hTail]
  | some tail =>
    left
    have hDrain : s.drain client q leave =
        runRun client (pull s.next tail).1 (s.setQueue ctim after q (pull s.next tail).2) := by
      simp only [drain, hList, hTail]
    rw [hDrain]
    exact represents_runRun hSound h hCalling client hList hZero hTail

/- How the queues advance, by the queue that is activated. -/
theorem promote_of_activated {ctim : EventTime} (h : ctim.activated = some q) :
    ctim .seqActive = none ∧
      (q ≠ .seqRosync → ctim q ≠ none ∧ ctim.promote = ctim.promoteFrom q) ∧
      (q = .seqRosync → ctim.promote = ctim ∧ ctim .seqRwsync = none) ∧
      (q = .seqNbassign ∨ q = .seqRwsync ∨ q = .seqRosync → ctim .seqInactive = none) ∧
      (q = .seqRwsync ∨ q = .seqRosync → ctim .seqNbassign = none) ∧
      (q = .seqInactive ∨ q = .seqNbassign ∨ q = .seqRwsync ∨
        q = .seqRosync) := by
  have hSkip : ∀ q' : EventQueueT, q' ≠ .seqActive →
      ctim .seqActive = none → ctim q' = none →
        ctim.promoteFrom q' = ctim := by
    intro q' hNe hActive hNone
    have hSame : Function.update ctim .seqActive none =
        ctim := by
      rw [← hActive]
      exact update_eq_self _ _
    rw [EventTime.promoteFrom, hNone, hSame, ← hNone]
    exact update_eq_self _ _
  have hMoved : ∀ q' : EventQueueT, q' ≠ .seqActive →
      ctim.promoteFrom q' .seqActive = ctim q' := by
    intro q' hNe
    rw [EventTime.promoteFrom, update_of_ne hNe.symm, update_self]
  unfold EventTime.activated at h
  split_ifs at h with hActive hInactive hNbassign hRwsync
  · cases h
    have hNone := not_not.mp hActive
    refine ⟨hNone, fun _ => ⟨hInactive, ?_⟩, by simp, by simp, by simp, Or.inl rfl⟩
    simp only [EventTime.promote, if_pos hNone, hMoved .seqInactive (by simp), if_neg hInactive]
  · cases h
    have hNone := not_not.mp hActive
    have hNone₁ := not_not.mp hInactive
    refine ⟨hNone, fun _ => ⟨hNbassign, ?_⟩, by simp, fun _ => hNone₁, by simp, by simp⟩
    simp only [EventTime.promote, if_pos hNone, hSkip .seqInactive (by simp) hNone hNone₁,
      hMoved .seqNbassign (by simp), if_neg hNbassign]
  · cases h
    have hNone := not_not.mp hActive
    have hNone₁ := not_not.mp hInactive
    have hNone₂ := not_not.mp hNbassign
    refine ⟨hNone, fun _ => ⟨hRwsync, ?_⟩, by simp, fun _ => hNone₁, fun _ => hNone₂, by simp⟩
    simp only [EventTime.promote, if_pos hNone, hSkip .seqInactive (by simp) hNone hNone₁,
      hSkip .seqNbassign (by simp) hNone hNone₂]
  · cases h
    have hNone := not_not.mp hActive
    have hNone₁ := not_not.mp hInactive
    have hNone₂ := not_not.mp hNbassign
    have hNone₃ := not_not.mp hRwsync
    refine ⟨hNone, by simp, fun _ => ⟨?_, hNone₃⟩, fun _ => hNone₁, fun _ => hNone₂, by simp⟩
    simp only [EventTime.promote, if_pos hNone, hSkip .seqInactive (by simp) hNone hNone₁,
      hSkip .seqNbassign (by simp) hNone hNone₂, hSkip .seqRwsync (by simp) hNone hNone₃]

section

variable (h : Represents s a)

include h

/- Activating a queue of the first cell. -/
theorem represents_activate (hList : s.schedList = ctim :: after) (hZero : ctim.delay = 0)
    (hCalls : s.calls = []) (hq : q ≠ .seqActive) :
    Represents
      { s with
        schedList := { ctim with body := ctim.body.promoteFrom q } :: after
        trace := .activated q s.elapsed :: s.trace
        phase := .pull }
      (a.activate q) := by
  have hQueue := queued_head h hList hZero
  have hFound := locate_head hZero after
  rw [← hList] at hFound
  have hSpaced := spaced_locate EventTime.new 0 h.spaced (ctim.body.promoteFrom q)
  have hCells : CellsRepresent s.next
      (timed s.elapsed ((locate EventTime.new 0 s.schedList).fill (ctim.body.promoteFrom q)))
      (a.activate q).slot := by
    refine cellsRepresent_fill h.spaced h.cells ?_ ?_ (fun _ _ _ _ _ => rfl)
    · intro time hNe
      rw [← h.time] at hNe
      exact Agenda.activate_slot_of_ne a q hNe
    · intro q'
      rw [Nat.add_zero, ← h.time, Agenda.activate_slot, EventTime.promoteFrom]
      by_cases hSame : q' = q
      · subst hSame
        rw [update_self, if_pos rfl]
        rfl
      · grind
  rw [hFound] at hCells hSpaced
  refine ⟨h.time, h.fresh, rfl, ?_, h.clock, hSpaced, hCells, h.made,
    fun hNe => absurd hCalls hNe, fun _ => ⟨_, _, rfl, hZero⟩⟩
  simp only [Agenda.activate, h.trace, h.time]

theorem represents_advanceQueues (hPhase : s.phase = .dispatch)
    (hCalls : s.calls = []) : ∃ a', AgendaMove a a' ∧ Represents s.advanceQueues a' := by
  have hIn : s.phase.InStep := by
    rw [hPhase]
    trivial
  rcases h.inStep hIn with ⟨ctim, after, hList, hZero⟩
  have hNil : ∀ q, ctim.body q = none ↔
      a.slot a.time q = [] :=
    fun q => queued_nil_iff (queued_head h hList hZero q)
  have hPhase' : a.phase = .dispatch := h.phase.trans hPhase
  cases hActivated : ctim.body.activated with
  | none =>
    have hActive : ctim.body .seqActive ≠ none := by
      intro hNone
      unfold EventTime.activated at hActivated
      rw [if_neg (not_not.mpr hNone)] at hActivated
      split_ifs at hActivated
    have hPromote : ctim.body.promote = ctim.body := by rw [EventTime.promote, if_neg hActive]
    refine ⟨{ a with phase := .pull }, Or.inr (.move a _ ?_), ?_⟩
    · rw [hPhase']
      exact fun hEmpty => hActive ((hNil _).mpr hEmpty)
    · simp only [advanceQueues, hList, hPromote, if_neg hActive, activate, hActivated]
      refine ⟨h.time, h.fresh, rfl, h.trace, h.clock, ?_, ?_, h.made,
        fun hNe => absurd hCalls hNe, fun _ => ⟨_, _, rfl, hZero⟩⟩
      · have hSpaced := h.spaced
        rw [hList] at hSpaced
        exact hSpaced
      · have hCells := h.cells
        rw [Scheduler.cells, hList] at hCells
        exact hCells
  | some q =>
    rcases promote_of_activated hActivated with
      ⟨hActive, hMove, hRosync, hInactive, hNbassign, hOrder⟩
    by_cases hq : q = .seqRosync
    · subst hq
      rcases hRosync rfl with ⟨hPromote, hRwsync⟩
      refine ⟨_, Or.inr (.activateRosync a hPhase' ⟨?_, ?_, ?_, ?_⟩), ?_⟩
      · exact (hNil _).mp hActive
      · exact (hNil _).mp (hInactive (by simp))
      · exact (hNil _).mp (hNbassign (by simp))
      · exact (hNil _).mp hRwsync
      · simp only [advanceQueues, hList, hPromote, if_pos hActive, activate, hActivated]
        refine ⟨h.time, h.fresh, rfl, ?_, h.clock, ?_, ?_, h.made,
          fun hNe => absurd hCalls hNe, fun _ => ⟨_, _, rfl, hZero⟩⟩
        · simp only [h.trace, h.time]
        · have hSpaced := h.spaced
          rw [hList] at hSpaced
          exact hSpaced
        · have hCells := h.cells
          rw [Scheduler.cells, hList] at hCells
          exact hCells
    · rcases hMove hq with ⟨hSome, hPromote⟩
      have hqActive : q ≠ .seqActive := by
        rintro rfl
        simp at hOrder
      have hNewActive :
          ctim.body.promoteFrom q .seqActive ≠ none := by
        rw [EventTime.promoteFrom, update_of_ne hqActive.symm]
        exact hSome
      refine ⟨_, Or.inr (.activate a q hPhase' hq ?_ ?_), ?_⟩
      · rcases hOrder with rfl | rfl | rfl | rfl
        · exact (hNil _).mp hActive
        · exact ⟨(hNil _).mp hActive, (hNil _).mp (hInactive (by simp))⟩
        · exact ⟨(hNil _).mp hActive, (hNil _).mp (hInactive (by simp)),
            (hNil _).mp (hNbassign (by simp))⟩
        · exact absurd rfl hq
      · exact fun hEmpty => hSome ((hNil q).mpr hEmpty)
      · simp only [advanceQueues, hList, hPromote, if_neg hNewActive, activate, hActivated]
        exact represents_activate h hList hZero hCalls hqActive

/- The time advances to the time of the first cell. -/
theorem represents_advance (hPhase : s.phase = .loopTop)
    (client : Client σ ε) (hList : s.schedList = ctim :: after)
    (hLater : 0 < ctim.delay) :
    ∃ a', AgendaMove a a' ∧
      Represents (s.advance client ctim after) a' := by
  refine ⟨_, Or.inr (.advance a (a.time + ctim.delay) (h.phase.trans hPhase) (by omega) ?_), ?_⟩
  · intro time hLt q
    apply slot_of_before h
    intro ctim' after' hCons
    rw [hList] at hCons
    injection hCons with hHead
    rw [← hHead, ← h.time]
    exact hLt
  · refine represents_runCode ?_ ?_ client _
    swap
    · trivial
    have hSpaced := h.spaced
    have hCells := h.cells
    rw [Scheduler.cells, hList] at hCells
    rw [hList] at hSpaced
    refine ⟨?_, h.fresh, rfl, h.trace, ?_, hSpaced, hCells, h.made,
      fun _ => Or.inl trivial, fun _ => ⟨_, _, rfl, rfl⟩⟩
    · rw [h.time]
    · rw [h.clock, Nat.mod_add_mod]

theorem represents_deleteCell (hPhase : s.phase = .delThreadLoop)
    (hCalls : s.calls = []) (hEmpty : a.slot a.time .delThread = []) :
    ∃ a', AgendaMove a a' ∧ Represents s.deleteCell a' := by
  have hIn : s.phase.InStep := by
    rw [hPhase]
    trivial
  rcases h.inStep hIn with ⟨ctim, after, hList, hZero⟩
  have hSpaced := h.spaced
  rw [hList] at hSpaced
  -- the other cells are those of later times
  have hMem : ∀ entry : Nat × EventTime,
      entry ∈ timed s.elapsed after ↔
        entry ∈ s.cells ∧ entry.1 ≠ s.elapsed := by
    intro entry
    rw [Scheduler.cells, hList, timed, hZero, List.mem_cons]
    constructor
    · intro hEntry
      have hLt := lt_of_mem_timed hSpaced hEntry
      exact ⟨Or.inr hEntry, by omega⟩
    · grind
  refine ⟨_, Or.inr (.deleteCell a (h.phase.trans hPhase) hEmpty), ?_⟩
  refine ⟨h.time, h.fresh, rfl, ?_, h.clock, ?_, ⟨?_, ?_⟩,
    h.made, fun hNe => absurd hCalls hNe, fun hIn => hIn.elim⟩
  · simp only [deleteCell, h.trace, h.time]
  · simp only [deleteCell, hList]
    intro c hc
    exact hSpaced c (List.mem_of_mem_tail hc)
  · intro time body hEntry q
    simp only [deleteCell, hList] at hEntry
    rcases (hMem _).mp hEntry with ⟨hOld, hNe⟩
    change Queued s.next (body q) (Function.update a.slot a.time (fun _ => []) time q)
    rw [h.time, update_of_ne hNe]
    exact h.cells.queued time body hOld q
  · intro time hNone q
    change Function.update a.slot a.time (fun _ => []) time q = []
    by_cases hTime : time = s.elapsed
    · rw [h.time, hTime, update_self]
    · rw [h.time, update_of_ne hTime]
      refine h.cells.empty time (fun body hOld => ?_) q
      apply hNone body
      simp only [deleteCell, hList]
      exact (hMem _).mpr ⟨hOld, hTime⟩

/- A change of phase alone. -/
theorem represents_phase (phase : Phase)
    (hMoves : a.Moves a.phase phase) (hCalls : s.calls = [])
    (hIn : phase.InStep → ∃ ctim after, s.schedList = ctim :: after ∧ ctim.delay = 0) :
    AgendaMove a { a with phase := phase } ∧
      Represents { s with phase := phase } { a with phase := phase } :=
  ⟨Or.inr (.move a phase hMoves), h.time, h.fresh, rfl, h.trace, h.clock,
    h.spaced, h.cells, h.made, fun hNe => absurd hCalls hNe, hIn⟩

theorem represents_loopTop (hPhase : s.phase = .loopTop) (hCalls : s.calls = [])
    (client : Client σ ε) :
    ∃ a', AgendaMove a a' ∧
      Represents (s.loopTop client) a' := by
  have hPhase' : a.phase = .loopTop := h.phase.trans hPhase
  unfold loopTop
  split
  next hList =>
    refine ⟨_, represents_phase h .done ?_ hCalls (fun hIn => hIn.elim)⟩
    rw [hPhase']
    intro time q
    apply slot_of_before h
    grind
  next ctim after hList =>
    split_ifs with hStopped hLater
    · refine ⟨{ a with phase := .stopped }, Or.inr (.move a _ ?_), ?_⟩
      · rw [hPhase']
        trivial
      · refine represents_runCode ?_ ?_ client _
        swap
        · trivial
        exact ⟨h.time, h.fresh, rfl, h.trace, h.clock, h.spaced, h.cells,
          h.made, fun hNe => absurd hCalls hNe, fun hIn => hIn.elim⟩
    · exact represents_advance h hPhase client hList hLater
    · refine ⟨_, represents_phase h .dispatch ?_ hCalls (fun _ => ⟨ctim, after, hList, by omega⟩)⟩
      rw [hPhase']
      trivial

end

/- Draining a loop of the current time step. -/
theorem represents_drainLoop (hSound : a.Sound) (h : Represents s a)
    (hCalling : s.phase.Calling) (hInStep : s.phase.InStep)
    (client : Client σ ε) (hRuns : Agenda.Runs q s.phase s.phase)
    {leave : Scheduler σ ε → Scheduler σ ε}
    (hLeave : a.slot a.time q = [] → ∃ a', AgendaMove a a' ∧ Represents (leave s) a') :
    ∃ a', AgendaMove a a' ∧
      Represents (s.drain client q leave) a' := by
  rcases represents_drain hSound h hCalling hInStep client q
      leave with ⟨id, rest, hSlot, hNew⟩ | ⟨hEmpty, hDrain⟩
  · rw [← h.phase] at hRuns
    exact ⟨_, Or.inr (.execute a q id rest _ hRuns hSlot), hNew⟩
  · rw [hDrain]
    exact hLeave hEmpty

/- The event pulled runs in the next phase. -/
theorem represents_checkSingleStep
    (h : Represents s a) (hPhase : s.phase = .pull) (hCalls : s.calls = []) :
    Represents { s.checkSingleStep with phase := .running }
      { a with phase := .running } := by
  have hIn := h.inStep (by rw [hPhase]; trivial)
  unfold checkSingleStep
  split_ifs
  · exact ⟨h.time, h.fresh, rfl, h.trace, h.clock, h.spaced, h.cells,
      h.made, fun hNe => absurd hCalls hNe, fun _ => hIn⟩
  · exact ⟨h.time, h.fresh, rfl, h.trace, h.clock, h.spaced, h.cells,
      h.made, fun hNe => absurd hCalls hNe, fun _ => hIn⟩

theorem represents_loopStep (hSound : a.Sound) (h : Represents s a) (hCalls : s.calls = [])
    (client : Client σ ε) :
    ∃ a', AgendaMove a a' ∧
      Represents (s.loopStep client) a' := by
  have hMoves : ∀ phase, a.Moves s.phase phase →
      a.Moves a.phase phase := by
    intro phase hMoves
    rw [h.phase]
    exact hMoves
  cases hPhase : s.phase with
  | init =>
    simp only [loopStep, hPhase]
    exact ⟨_,
      represents_phase h .loopTop (hMoves _ (by rw [hPhase]; trivial)) hCalls (fun hIn => hIn.elim)⟩
  | loopTop =>
    simp only [loopStep, hPhase]
    exact represents_loopTop h hPhase hCalls client
  | stopped =>
    simp only [loopStep, hPhase]
    exact ⟨_,
      represents_phase h .loopTop (hMoves _ (by rw [hPhase]; trivial)) hCalls (fun hIn => hIn.elim)⟩
  | startLoop =>
    simp only [loopStep, hPhase]
    refine represents_drainLoop hSound h (by rw [hPhase]; trivial)
      (by rw [hPhase]; trivial) client
      (by rw [hPhase]; trivial) ?_
    intro hEmpty
    exact ⟨_, represents_phase h .dispatch
      (hMoves _ (by rw [hPhase]; exact hEmpty)) hCalls
      (fun _ => h.inStep (by rw [hPhase]; trivial))⟩
  | dispatch =>
    simp only [loopStep, hPhase]
    exact represents_advanceQueues h hPhase hCalls
  | pull =>
    simp only [loopStep, hPhase]
    have hRunning := represents_checkSingleStep h hPhase hCalls
    have hSome := hSound.pulling (h.phase.trans hPhase)
    rcases represents_drain hSound.running hRunning trivial trivial
        client .seqActive
        (fun s => { s with phase := .aborted }) with
      ⟨id, rest, hSlot, hNew⟩ | ⟨hEmpty, -⟩
    · refine ⟨_, Or.inr (.execute a .seqActive id rest .running ?_ hSlot), hNew⟩
      rw [h.phase, hPhase]
      trivial
    · exact absurd hEmpty hSome
  | running =>
    simp only [loopStep, hPhase]
    exact ⟨_,
      represents_phase h .loopTop (hMoves _ (by rw [hPhase]; trivial)) hCalls (fun hIn => hIn.elim)⟩
  | rosyncLoop =>
    simp only [loopStep, hPhase]
    refine represents_drainLoop hSound h (by rw [hPhase]; trivial)
      (by rw [hPhase]; trivial) client
      (by rw [hPhase]; trivial) ?_
    intro hEmpty
    refine ⟨{ a with phase := .delThreadLoop },
      Or.inr (.move a _ (hMoves _ (by rw [hPhase]; exact hEmpty))), ?_⟩
    exact ⟨h.time, h.fresh, rfl, h.trace, h.clock, h.spaced, h.cells, h.made,
      fun hNe => absurd hCalls hNe, fun _ => h.inStep (by rw [hPhase]; trivial)⟩
  | delThreadLoop =>
    simp only [loopStep, hPhase]
    exact represents_drainLoop hSound h (by rw [hPhase]; trivial)
      (by rw [hPhase]; trivial) client
      (by rw [hPhase]; trivial)
      (represents_deleteCell h hPhase hCalls)
  | done =>
    simp only [loopStep, hPhase]
    exact ⟨a, Or.inl rfl, h⟩
  | aborted =>
    simp only [loopStep, hPhase]
    exact ⟨a, Or.inl rfl, h⟩

/- Every step of the scheduler is a move of the agenda. -/
theorem Represents.step {s : Scheduler σ ε} {a : Agenda} (hSound : a.Sound) (h : Represents s a)
    (client : Client σ ε) : ∃ a', AgendaMove a a' ∧ Represents (s.step client) a' := by
  unfold Scheduler.step
  by_cases hAborted : s.phase = .aborted
  · rw [if_pos hAborted]
    exact ⟨a, Or.inl rfl, h⟩
  · rw [if_neg hAborted]
    cases hCalls : s.calls with
    | nil => exact represents_loopStep hSound h hCalls client
    | cons call calls =>
      have hCalling : s.phase.Calling := by
        refine (h.calling ?_).resolve_right hAborted
        rw [hCalls]
        exact List.cons_ne_nil _ _
      have hRest : Represents { s with calls := calls } a := h.withCalls (fun _ => Or.inl hCalling)
      exact represents_perform hSound hRest hCalling call

theorem represents_start (world : σ) (calls : List (SchedCall ε)) :
    Represents (Scheduler.start world calls) .start := by
  refine ⟨rfl, rfl, rfl, rfl, rfl, ?_, ⟨?_, fun _ _ _ => rfl⟩,
    ?_, fun _ => Or.inl trivial, fun hIn => hIn.elim⟩
  · intro c hc
    cases hc
  · intro time body hMem
    cases hMem
  · intro id hId
    exact absurd hId (Nat.not_lt_zero id)

/- Every state of a simulation represents a reachable agenda. -/
theorem represents_simulate (client : Client σ ε) (world : σ) (calls : List (SchedCall ε))
    (steps : Nat) :
    ∃ a : Agenda, a.Reachable ∧
      Represents (simulate client world calls steps) a := by
  induction steps with
  | zero => exact ⟨_, .start, represents_start world calls⟩
  | succ steps ih =>
    rcases ih with ⟨a, hReach, h⟩
    rw [simulate, Function.iterate_succ_apply']
    rcases h.step (Agenda.sound_of_reachable hReach) client with ⟨a', rfl | hStep, h'⟩
    · exact ⟨a', hReach, h'⟩
    · exact ⟨a', .step hReach hStep, h'⟩

end EpicSim
