import EpicSim.Vvp.OnTime

/-
  The stratified order of events.

  Histories have their latest entry first, so a suffix of a
  history that starts with an entry is what had happened when
  the entry was made.
-/

----
-- Strata
----

namespace EpicSim

open List (mem_cons suffix_cons_iff pairwise_append mem_singleton mem_cons_self suffix_rfl
  mem_cons_of_mem)

/- The place of a queue in the order of a time step. -/
def EventQueueT.stratum : EventQueueT → Nat
| .seqActive => 1
| .seqInactive => 2
| .seqNbassign => 3
| .seqRwsync => 4
| .seqRosync => 5
| .seqStart => 0
| .delThread => 0

/- A queue that must be empty before another is activated. -/
def EventQueueT.Precedes (q' q : EventQueueT) : Prop :=
  0 < q'.stratum ∧ q'.stratum < q.stratum

/- Events of one time and queue, neither of them pushed. -/
def Peers (c c' : Scheduled) : Prop :=
  c.due = c'.due ∧ c.queue = c'.queue ∧ c.push = false ∧ c'.push = false

namespace Agenda

/- Before an activation the preceding queues are empty. -/
theorem slot_of_ready {a : Agenda} {q : EventQueueT} (h : a.Ready q) {q' : EventQueueT}
    (hPrecedes : q'.Precedes q) : a.slot a.time q' = [] := by
  cases q <;> cases q' <;>
    simp [EventQueueT.Precedes, EventQueueT.stratum, Ready] at hPrecedes h ⊢ <;>
    simp [h]

theorem active_of_ready {a : Agenda} {q : EventQueueT} (h : a.Ready q) :
    a.slot a.time .seqActive = [] := by
  cases q <;> simp [Ready] at h
  all_goals simp [h]

end Agenda

----
-- First Come, First Served
----

/- The second event, if a peer of the first, came later. -/
def InLine (trace : List Entry) (i j : Nat) : Prop :=
  ∀ c c', .scheduled c ∈ trace → .scheduled c' ∈ trace → c.id = i → c'.id = j → Peers c c' → i < j

namespace Agenda

/-
  Calls are numbered in their order.  Peers wait in this
  order, behind all that have been executed.
-/
structure Lined (a : Agenda) : Prop where
  numbered :
    ∀ c earlier, .scheduled c :: earlier <:+ a.trace → ∀ c', .scheduled c' ∈ earlier → c'.id < c.id
  waiting :
    ∀ time q, q ≠ .seqActive → (a.slot time .seqActive ++ a.slot time q).Pairwise (InLine a.trace)
  behind : ∀ time q j, j ∈ a.slot time q → ∀ i ∈ executedIds a.trace, InLine a.trace i j

variable {a a' : Agenda}

variable {time i j : Nat} {q q' : EventQueueT}

/- Events that wait in different queues are no peers. -/
theorem inLine_of_queue (hLedger : a.Ledger) (hi : i ∈ a.slot time q) (hj : j ∈ a.slot time q')
    (hApart : ∀ c c' : Scheduled, c.WaitsIn q → c'.WaitsIn q' → c.queue ≠ c'.queue) :
    InLine a.trace i j := by
  intro c c' hc hc' rfl rfl hPeers
  rcases hLedger.waiting _ _ _ hi with ⟨d, hd, hId, -, hIn⟩
  rcases hLedger.waiting _ _ _ hj with ⟨d', hd', hId', -, hIn'⟩
  obtain rfl := hLedger.single d c hd hc hId
  obtain rfl := hLedger.single d' c' hd' hc' hId'
  exact absurd hPeers.2.1 (hApart d d' hIn hIn')

/- A new record concerns its own event only. -/
theorem inLine_scheduled {trace : List Entry} (h : InLine trace i j)
    {c : Scheduled} (hi : i < c.id) (hj : j < c.id) : InLine (.scheduled c :: trace) i j := by
  intro d d' hd hd' hId hId' hPeers
  rcases mem_cons.mp hd with hEq | hd
  · injection hEq with hEq
    rw [hEq] at hId
    omega
  · rcases mem_cons.mp hd' with hEq | hd'
    · injection hEq with hEq
      rw [hEq] at hId'
      omega
    · exact h d d' hd hd' hId hId' hPeers

theorem inLine_frame {trace trace' : List Entry} (h : InLine trace i j)
    (hScheduled : ∀ c, .scheduled c ∈ trace' → .scheduled c ∈ trace) : InLine trace' i j :=
  fun c c' hc hc' => h c c' (hScheduled c hc) (hScheduled c' hc')

/- A pushed event has no peers. -/
theorem inLine_of_push (hLedger : a.Ledger) (j : Nat) :
    InLine (.scheduled (a.record .seqActive true 0) :: a.trace) a.fresh j := by
  intro c c' hc hc' hId hId' hPeers
  rcases mem_cons.mp hc with hEq | hc
  · injection hEq with hEq
    rw [hEq] at hPeers
    exact absurd hPeers.2.2.1 (by simp [record])
  · have hLt := hLedger.made c hc
    omega

/- A new record keeps the order of what waits and has run. -/
theorem lined_scheduled (hLedger : a.Ledger) (h : a.Lined)
    {push : Bool} {delay : Nat} (hTrace : a'.trace = .scheduled (a.record q push delay) :: a.trace)
    (hMem : ∀ time q' id, id ∈ a'.slot time q' → id ∈ a.slot time q' ∨ id = a.fresh) (hWaiting :
      ∀ time q', q' ≠ .seqActive →
        (a'.slot time .seqActive ++ a'.slot time q').Pairwise (InLine a'.trace)) : a'.Lined := by
  have hRan : ∀ i ∈ executedIds a.trace, i < a.fresh := by
    intro i hi
    rcases (mem_executedIds _ _).mp hi with ⟨time, due, hIn⟩
    rcases hLedger.executed _ _ _ hIn with ⟨c, hc, rfl, -⟩
    exact hLedger.made c hc
  have hIds : executedIds a'.trace = executedIds a.trace := by
    rw [hTrace]
    rfl
  refine ⟨?_, hWaiting, ?_⟩
  · intro c earlier hSuffix c' hc'
    rw [hTrace] at hSuffix
    rcases suffix_cons_iff.mp hSuffix with hEq | hOld
    · injection hEq with hEntry hEarlier
      injection hEntry with hEntry
      subst hEntry
      subst hEarlier
      exact hLedger.made c' hc'
    · exact h.numbered c earlier hOld c' hc'
  · intro time q' j hj i hi
    rw [hIds] at hi
    rw [hTrace]
    rcases hMem time q' j hj with hWas | rfl
    · rcases hLedger.waiting _ _ _ hWas with ⟨c, hc, rfl, -⟩
      exact inLine_scheduled (h.behind time q' _ hWas i hi) (hRan i hi) (hLedger.made c hc)
    · exact fun _ _ _ _ _ _ _ => hRan i hi

/- Steps that neither schedule nor run keep the order. -/
theorem lined_frame (h : a.Lined) (hTrace :
      a'.trace = a.trace ∨
        (∃ q due, a'.trace = .activated q due :: a.trace) ∨
        ∃ due, a'.trace = .deleted due :: a.trace)
    (hMem : ∀ time q id, id ∈ a'.slot time q → ∃ q', id ∈ a.slot time q') (hWaiting :
      ∀ time q, q ≠ .seqActive →
        (a'.slot time .seqActive ++ a'.slot time q).Pairwise (InLine a.trace)) : a'.Lined := by
  have hScheduled : ∀ c, .scheduled c ∈ a'.trace →
      .scheduled c ∈ a.trace := by grind
  have hIds : executedIds a'.trace = executedIds a.trace := by
    rcases hTrace with hTrace | ⟨q, due, hTrace⟩ | ⟨due, hTrace⟩
    · rw [hTrace]
    · rw [hTrace]
      rfl
    · rw [hTrace]
      rfl
  have hSuffix : ∀ entry earlier,
      entry :: earlier <:+ a'.trace →
        (∀ q due, entry ≠ .activated q due) →
          (∀ due, entry ≠ .deleted due) →
            entry :: earlier <:+ a.trace := by
    intro entry earlier hIn hActivated hDeleted
    rcases hTrace with hTrace | ⟨q, due, hTrace⟩ | ⟨due, hTrace⟩
    · rw [hTrace] at hIn
      exact hIn
    · rw [hTrace] at hIn
      rcases suffix_cons_iff.mp hIn with hEq | hOld
      · grind
      · exact hOld
    · rw [hTrace] at hIn
      rcases suffix_cons_iff.mp hIn with hEq | hOld
      · grind
      · exact hOld
  refine ⟨?_, ?_, ?_⟩
  · intro c earlier hIn
    exact h.numbered c earlier (hSuffix _ _ hIn (by simp) (by simp))
  · intro time q hq
    exact (hWaiting time q hq).imp (fun hLine => inLine_frame hLine hScheduled)
  · intro time q j hj i hi
    rw [hIds] at hi
    rcases hMem time q j hj with ⟨q', hWas⟩
    exact inLine_frame (h.behind time q' j hWas i hi) hScheduled

/- What waits is older than a new record, and stays in line. -/
theorem waiting_lt (hSound : a.Sound)
    (hi : i ∈ a.slot time .seqActive ++ a.slot time q') : i < a.fresh := by
  rcases List.mem_append.mp hi with hi | hi
  · exact hSound.made _ _ _ hi
  · exact hSound.made _ _ _ hi

theorem lined_recorded {a : Agenda} (hSound : a.Sound) (h : a.Lined) {time : Nat}
    {q' : EventQueueT} (hq' : q' ≠ .seqActive) (q : EventQueueT) (push : Bool) (delay : Nat) :
    (a.slot time .seqActive ++ a.slot time q').Pairwise
      (InLine (.scheduled (a.record q push delay) :: a.trace)) :=
  (h.waiting time q' hq').imp_of_mem (fun hi hj hLine =>
    inLine_scheduled hLine (waiting_lt hSound hi) (waiting_lt hSound hj))

/- A new active event is no peer of what waits elsewhere. -/
theorem inLine_active (hLedger : a.Ledger)
    (hq' : q' ≠ .seqActive) (hj : j ∈ a.slot time q') (delay : Nat) :
    InLine
      (.scheduled (a.record .seqActive false delay) :: a.trace)
      a.fresh j := by
  intro c c' hc hc' hcId hcId' hPeers
  rcases hLedger.waiting _ _ _ hj with ⟨d, hd, hId, -, hIn⟩
  have hLt := hLedger.made d hd
  have hOld : Entry.scheduled c' ∈ a.trace := by
    rcases mem_cons.mp hc' with hEq | hc'
    · injection hEq with hEq
      rw [hEq] at hcId'
      simp only [record] at hcId'
      omega
    · exact hc'
  obtain rfl := hLedger.single d c' hd hOld (hId.trans hcId'.symm)
  have hQueue : c.queue = .seqActive := by
    rcases mem_cons.mp hc with hEq | hc
    · injection hEq with hEq
      rw [hEq]
      rfl
    · have hMade := hLedger.made c hc
      omega
  rcases hIn with hIn | ⟨hIn, -⟩
  · rw [← hPeers.2.1, hQueue] at hIn
    exact absurd hIn hq'
  · exact absurd hIn hq'

/- The new event comes last in its queue. -/
theorem lined_append (hLedger : a.Ledger) (hSound : a.Sound) (h : a.Lined) (q : EventQueueT)
    (delay : Nat) : (a.append q delay false).Lined := by
  refine lined_scheduled hLedger h rfl ?_ ?_
  · intro time q' id hId
    rcases (mem_append_iff a q delay false time q' id).mp hId with hWas | ⟨hNew, -⟩
    · exact Or.inl hWas
    · exact Or.inr hNew
  · intro time q' hq'
    have hPairs := @lined_recorded a hSound h time q' hq' q false delay
    by_cases hActive : time = a.time + delay ∧ EventQueueT.seqActive = q
    · rcases hActive with ⟨rfl, rfl⟩
      simp only [append, setSlot_self, setSlot_of_ne a (fun hBoth => hq' hBoth.2)]
      rw [List.append_assoc]
      refine (pairwise_append.mp hPairs).elim fun hFirst hRest => ?_
      refine pairwise_append.mpr ⟨hFirst,
        pairwise_append.mpr ⟨List.pairwise_singleton _ _, hRest.1, ?_⟩, ?_⟩
      · -- the new event is active, the others are not
        intro i hi j hj
        obtain rfl := mem_singleton.mp hi
        exact inLine_active hLedger hq' hj delay
      · intro i hi j hj
        rcases List.mem_append.mp hj with hj | hj
        · obtain rfl := mem_singleton.mp hj
          exact fun _ _ _ _ _ _ _ => hSound.made _ _ _ hi
        · exact hRest.2 i hi j hj
    · simp only [append, setSlot_of_ne a hActive]
      by_cases hSame : time = a.time + delay ∧ q' = q
      · rcases hSame with ⟨rfl, rfl⟩
        rw [setSlot_self, ← List.append_assoc]
        refine pairwise_append.mpr ⟨hPairs, List.pairwise_singleton _ _, ?_⟩
        intro i hi j hj
        obtain rfl := mem_singleton.mp hj
        exact fun _ _ _ _ _ _ _ => waiting_lt hSound hi
      · rw [setSlot_of_ne a hSame]
        exact hPairs

theorem lined_push (hLedger : a.Ledger) (hSound : a.Sound) (h : a.Lined) : a.push.Lined := by
  refine lined_scheduled hLedger h rfl ?_ ?_
  · intro time q' id hId
    rcases (mem_push_iff a time q' id).mp hId with hWas | ⟨hNew, -⟩
    · exact Or.inl hWas
    · exact Or.inr hNew
  · intro time q' hq'
    have hPairs := @lined_recorded a hSound h time q' hq' .seqActive true 0
    simp only [push, setSlot_of_ne a (fun hBoth => hq' hBoth.2)]
    by_cases hTime : time = a.time
    · subst hTime
      rw [setSlot_self]
      exact List.pairwise_cons.mpr ⟨fun j _ => inLine_of_push hLedger j, hPairs⟩
    · rw [setSlot_of_ne a (fun hBoth => hTime hBoth.1)]
      exact hPairs

/- The first event of a queue has no peer before it. -/
theorem lined_execute (hLedger : a.Ledger) (h : a.Lined)
    {id : Nat} {rest : List Nat} {phase : Phase} (hRuns : Runs q a.phase phase)
    (hSlot : a.slot a.time q = id :: rest) : (a.execute q id rest phase).Lined := by
  have hHead : id ∈ a.slot a.time q := by
    rw [hSlot]
    exact mem_cons_self
  have hScheduled : ∀ c,
      .scheduled c ∈ (a.execute q id rest phase).trace →
        .scheduled c ∈ a.trace := by
    intro c hc
    simpa [execute] using hc
  have hSub : ∀ time q',
      ((a.execute q id rest phase).slot time q').Sublist (a.slot time q') := by
    intro time q'
    simp only [execute]
    by_cases hSame : time = a.time ∧ q' = q
    · rcases hSame with ⟨rfl, rfl⟩
      rw [setSlot_self, hSlot]
      exact List.sublist_cons_self _ _
    · rw [setSlot_of_ne a hSame]
  -- what still waits is behind the event
  have hBehind : ∀ time q' j,
      j ∈ (a.execute q id rest phase).slot time q' →
        InLine a.trace id j := by
    intro time q' j hj
    have hWas : j ∈ a.slot time q' := (hSub time q').subset hj
    by_cases hTime : time = a.time
    · subst hTime
      by_cases hActive : q = .seqActive
      · subst hActive
        by_cases hq' : q' = .seqActive
        · subst hq'
          have hPairs := h.waiting a.time .seqInactive (by decide)
          rw [hSlot] at hPairs
          simp only [execute, setSlot_self] at hj
          exact List.rel_of_pairwise_cons hPairs (List.mem_append_left _ hj)
        · have hPairs := h.waiting a.time q' hq'
          rw [hSlot] at hPairs
          exact List.rel_of_pairwise_cons hPairs (List.mem_append_right _ hWas)
      · by_cases hq' : q' = q
        · subst hq'
          have hPairs := (pairwise_append.mp (h.waiting a.time q' hActive)).2.1
          rw [hSlot] at hPairs
          simp only [execute, setSlot_self] at hj
          exact List.rel_of_pairwise_cons hPairs hj
        · refine inLine_of_queue hLedger hHead hWas ?_
          intro c c' hIn hIn' hQueue
          rcases hIn with hIn | ⟨hIn, -⟩
          · rcases hIn' with hIn' | ⟨-, hIn'⟩
            · rw [hIn, hIn', hQueue] at hq'
              exact hq' rfl
            · rw [← hQueue, ← hIn] at hIn'
              cases q <;> simp [EventQueueT.Promoted] at hIn'
              all_goals
                simp [Runs] at hRuns
          · exact hActive hIn
    · intro c c' hc hc' rfl rfl hPeers
      rcases hLedger.waiting _ _ _ hHead with ⟨d, hd, hId, hDue, -⟩
      rcases hLedger.waiting _ _ _ hWas with ⟨d', hd', hId', hDue', -⟩
      obtain rfl := hLedger.single d c hd hc hId
      obtain rfl := hLedger.single d' c' hd' hc' hId'
      exact absurd (hDue'.symm.trans (hPeers.1.symm.trans hDue)) hTime
  refine ⟨?_, ?_, ?_⟩
  · intro c earlier hIn
    rcases suffix_cons_iff.mp hIn with hEq | hOld
    · cases hEq
    · exact h.numbered c earlier hOld
  · intro time q' hq'
    refine ((h.waiting time q' hq').sublist ((hSub time _).append (hSub time q'))).imp ?_
    exact fun hLine => inLine_frame hLine hScheduled
  · intro time q' j hj i hi
    refine inLine_frame ?_ hScheduled
    simp only [execute, executedIds_executed, mem_cons] at hi
    rcases hi with rfl | hi
    · exact hBehind time q' j hj
    · exact h.behind time q' j ((hSub time q').subset hj) i hi

/- A queue that is activated finds no active events. -/
theorem lined_activate (hLedger : a.Ledger) (h : a.Lined) (hq : q ≠ .seqRosync)
    (hReady : a.Ready q) : (a.activate q).Lined := by
  have hActive : q ≠ .seqActive := by
    rintro rfl
    exact hReady
  refine lined_frame h (Or.inr (Or.inl ⟨_, _, rfl⟩)) ?_ ?_
  · intro time q' id hId
    exact ⟨_, (mem_of_mem_activate hId).2⟩
  · intro time q' hq'
    by_cases hTime : time = a.time
    · subst hTime
      rw [activate_slot, activate_slot, if_neg hActive.symm, if_pos rfl]
      have hPairs := (pairwise_append.mp (h.waiting a.time q hActive)).2.1
      split_ifs with hSame
      · rw [List.append_nil]
        exact hPairs
      · refine pairwise_append.mpr ⟨hPairs, (pairwise_append.mp (h.waiting a.time q' hq')).2.1, ?_⟩
        intro i hi j hj
        refine inLine_of_queue hLedger hi hj ?_
        intro c c' hIn hIn' hQueue
        rcases hIn with hIn | ⟨hIn, -⟩
        · rcases hIn' with hIn' | ⟨hIn', -⟩
          · grind
          · exact hq' hIn'
        · exact hActive hIn
    · rw [activate_slot_of_ne a q hTime]
      exact h.waiting time q' hq'

theorem lined_of_step (hSound : a.Sound) (hLedger : a.Ledger) (h : a.Lined)
    (hStep : AgendaStep a a') : a'.Lined := by
  cases hStep with
  | append q delay hCalling => exact lined_append hLedger hSound h q delay
  | push hCalling => exact lined_push hLedger hSound h
  | execute q id rest phase hRuns hSlot => exact lined_execute hLedger h hRuns hSlot
  | activate q hPhase hq hReady hSome => exact lined_activate hLedger h hq hReady
  | activateRosync hPhase hReady =>
    exact lined_frame h (Or.inr (Or.inl ⟨_, _, rfl⟩)) (fun _ q _ hId => ⟨q, hId⟩) h.waiting
  | advance time hPhase hLater hBefore =>
    exact lined_frame h (Or.inl rfl) (fun _ q _ hId => ⟨q, hId⟩) h.waiting
  | deleteCell hPhase hEmpty =>
    refine lined_frame h (Or.inr (Or.inr ⟨_, rfl⟩))
      (fun _ q _ hId => ⟨q, (mem_of_mem_deleteCell hId).2⟩)
      ?_
    intro time q hq
    by_cases hTime : time = a.time
    · grind
    · simp only [Function.update_of_ne hTime]
      exact h.waiting time q hq
  | move phase hMoves => exact lined_frame h (Or.inl rfl) (fun _ q _ hId => ⟨q, hId⟩) h.waiting

theorem lined_of_reachable (h : a.Reachable) : a.Lined := by
  induction h with
  | start => exact ⟨by simp [Agenda.start], by simp [Agenda.start], by simp [Agenda.start]⟩
  | step hReach hStep ih =>
    exact lined_of_step (sound_of_reachable hReach) (ledger_of_reachable hReach) ih hStep

end Agenda

----
-- What A Step Enters
----

namespace Agenda

variable {a a' : Agenda}

/- A step adds one entry to the history, or none. -/
theorem trace_of_step (hStep : AgendaStep a a') :
    a'.trace = a.trace ∨
      ∃ entry, a'.trace = entry :: a.trace := by
  cases hStep with
  | append => exact Or.inr ⟨_, rfl⟩
  | push => exact Or.inr ⟨_, rfl⟩
  | execute => exact Or.inr ⟨_, rfl⟩
  | activate => exact Or.inr ⟨_, rfl⟩
  | activateRosync => exact Or.inr ⟨_, rfl⟩
  | advance => exact Or.inl rfl
  | deleteCell => exact Or.inr ⟨_, rfl⟩
  | move => exact Or.inl rfl

theorem suffix_of_step (hStep : AgendaStep a a') : a.trace <:+ a'.trace := by
  rcases trace_of_step hStep with hSame | ⟨entry, hNew⟩
  · exact hSame ▸ suffix_rfl
  · rw [hNew]
    exact List.suffix_cons _ _

/- An entry is old, or was made in the step. -/
theorem entry_of_step (hStep : AgendaStep a a') {entry : Entry} {earlier : List Entry}
    (h : entry :: earlier <:+ a'.trace) :
    entry :: earlier <:+ a.trace ∨
      earlier = a.trace ∧ a'.trace = entry :: a.trace := by
  rcases trace_of_step hStep with hSame | ⟨new, hNew⟩
  · rw [hSame] at h
    exact Or.inl h
  · rw [hNew] at h
    rcases suffix_cons_iff.mp h with hEq | hOld
    · grind
    · exact Or.inl hOld

variable {q : EventQueueT} {id time : Nat}

theorem activated_of_step (hStep : AgendaStep a a') {due : Nat}
    (h : a'.trace = .activated q due :: a.trace) : due = a.time ∧ a.Ready q := by
  cases hStep with
  | append => simp [append] at h
  | push => simp [push] at h
  | execute => simp [execute] at h
  | activate q' hPhase hq hReady hSome =>
    simp only [activate, List.cons.injEq, and_true] at h
    injection h with hQueue hDue
    subst hQueue
    exact ⟨hDue.symm, hReady⟩
  | activateRosync hPhase hReady => grind
  | advance => simp at h
  | deleteCell => simp at h
  | move => simp at h

theorem executed_of_step (hStep : AgendaStep a a') {due : Nat}
    (h : a'.trace = .executed id time due :: a.trace) :
    ∃ q rest phase, Runs q a.phase phase ∧
      a.slot a.time q = id :: rest := by
  cases hStep with
  | append => simp [append] at h
  | push => simp [push] at h
  | execute q id' rest phase hRuns hSlot =>
    simp only [execute, List.cons.injEq, and_true] at h
    injection h with hId
    subst hId
    exact ⟨q, rest, phase, hRuns, hSlot⟩
  | activate => simp [activate] at h
  | activateRosync => simp at h
  | advance => simp at h
  | deleteCell => simp at h
  | move => simp at h

/- An event that waits did so before, moved or is new. -/
theorem waiting_of_step (hStep : AgendaStep a a')
    (h : id ∈ a'.slot time q) :
    id ∈ a.slot time q ∨
      (q = .seqActive ∧ time = a.time ∧
        ∃ q', q' ≠ .seqActive ∧ id ∈ a.slot a.time q' ∧
          a'.trace = .activated q' a.time :: a.trace) ∨
      (id = a.fresh ∧
        ∃ c, a'.trace = .scheduled c :: a.trace ∧
          c.id = a.fresh ∧ c.queue = q) := by
  cases hStep with
  | append q' delay hCalling =>
    rcases (mem_append_iff a q' delay false time q id).mp h with hWas | ⟨hNew, -, hQueue⟩
    · exact Or.inl hWas
    · exact Or.inr (Or.inr ⟨hNew, _, rfl, rfl, hQueue.symm⟩)
  | push hCalling =>
    rcases (mem_push_iff a time q id).mp h with hWas | ⟨hNew, -, hQueue⟩
    · exact Or.inl hWas
    · exact Or.inr (Or.inr ⟨hNew, _, rfl, rfl, hQueue.symm⟩)
  | execute q' id' rest phase hRuns hSlot =>
    left
    simp only [execute] at h
    by_cases hSame : time = a.time ∧ q = q'
    · rcases hSame with ⟨rfl, rfl⟩
      rw [setSlot_self] at h
      rw [hSlot]
      exact mem_cons_of_mem _ h
    · rw [setSlot_of_ne a hSame] at h
      exact h
  | activate q' hPhase hq hReady hSome =>
    rcases mem_of_mem_activate h with ⟨-, hWas⟩
    split_ifs at hWas with hActive
    · refine Or.inr (Or.inl ⟨hActive.2, hActive.1, q', ?_, ?_, rfl⟩)
      · rintro rfl
        exact hReady
      · rw [← hActive.1]
        exact hWas
    · exact Or.inl hWas
  | activateRosync hPhase hReady => exact Or.inl h
  | advance time' hPhase hLater hBefore => exact Or.inl h
  | deleteCell hPhase hEmpty => exact Or.inl (mem_of_mem_deleteCell h).2
  | move phase hMoves => exact Or.inl h

/- What waits after a step and was made before it waited. -/
theorem waited_of_step (hStep : AgendaStep a a') (h : id ∈ a'.slot time q) (hMade : id < a.fresh) :
    ∃ q', id ∈ a.slot time q' := by
  rcases waiting_of_step hStep h with hWas | ⟨-, rfl, q', -, hWas, -⟩ | ⟨rfl, -⟩
  · exact ⟨q, hWas⟩
  · exact ⟨q', hWas⟩
  · exact absurd hMade (Nat.lt_irrefl _)

end Agenda

----
-- Activations
----

namespace Agenda

/-
  An activation shuts the preceding queues for what was
  scheduled before it, and opens its own.
-/
structure Gated (a : Agenda) : Prop where
  shut :
    ∀ q due before, .activated q due :: before <:+ a.trace →
      ∀ c, .scheduled c ∈ before → c.due = due →
        c.queue.Precedes q → ∀ time q', c.id ∉ a.slot time q'
  opened :
    ∀ time c, c.id ∈ a.slot time .seqActive →
      .scheduled c ∈ a.trace → c.queue.Promoted →
        ∃ before, .activated c.queue c.due :: before <:+ a.trace ∧ .scheduled c ∈ before
  synced : a.phase = .rosyncLoop → ∃ before, .activated .seqRosync a.time :: before <:+ a.trace

variable {a a' : Agenda}

theorem shut_of_step (hLedger : a.Ledger) (h : a.Gated) (hStep : AgendaStep a a')
    {q : EventQueueT} {due : Nat} {before : List Entry}
    (hSuffix : .activated q due :: before <:+ a'.trace) {c : Scheduled} (hc : .scheduled c ∈ before)
    (hDue : c.due = due) (hPrecedes : c.queue.Precedes q) (time : Nat) (q' : EventQueueT) :
    c.id ∉ a'.slot time q' := by
  intro hWaits
  have hScheduled : Entry.scheduled c ∈ a.trace := by
    rcases entry_of_step hStep hSuffix with hOld | ⟨rfl, -⟩
    · exact hOld.subset (mem_cons_of_mem _ hc)
    · exact hc
  rcases waited_of_step hStep hWaits (hLedger.made c hScheduled) with ⟨q₀, hWas⟩
  rcases entry_of_step hStep hSuffix with hOld | ⟨-, hNew⟩
  · exact h.shut q due before hOld c hc hDue hPrecedes _ _ hWas
  · -- the queues in which it could wait are empty
    rcases activated_of_step hStep hNew with ⟨hTime, hReady⟩
    rcases hLedger.waiting _ _ _ hWas with ⟨d, hd, hId, hWhen, hIn⟩
    obtain rfl := hLedger.single d c hd hScheduled hId
    have hNow : time = a.time := hWhen.symm.trans (hDue.trans hTime)
    subst hNow
    rcases hIn with rfl | ⟨rfl, -⟩
    · rw [slot_of_ready hReady hPrecedes] at hWas
      cases hWas
    · rw [active_of_ready hReady] at hWas
      cases hWas

theorem opened_of_step (hSound : a.Sound) (hLedger : a.Ledger) (h : a.Gated)
    (hStep : AgendaStep a a') {time : Nat} {c : Scheduled} (hWaits : c.id ∈ a'.slot time .seqActive)
    (hScheduled : .scheduled c ∈ a'.trace) (hPromoted : c.queue.Promoted) :
    ∃ before,
      .activated c.queue c.due :: before <:+ a'.trace ∧
        .scheduled c ∈ before := by
  -- an event that is older than the step has its record there
  have hOld : c.id < a.fresh → .scheduled c ∈ a.trace := by
    intro hLt
    cases hStep with
    | append q delay hCalling =>
      rcases mem_cons.mp hScheduled with hEq | hOld
      · injection hEq with hEq
        rw [hEq] at hLt
        exact absurd hLt (Nat.lt_irrefl _)
      · exact hOld
    | push hCalling =>
      rcases mem_cons.mp hScheduled with hEq | hOld
      · injection hEq with hEq
        rw [hEq] at hLt
        exact absurd hLt (Nat.lt_irrefl _)
      · exact hOld
    | execute => simpa [execute] using hScheduled
    | activate => simpa [activate] using hScheduled
    | activateRosync => simpa using hScheduled
    | advance => exact hScheduled
    | deleteCell => simpa using hScheduled
    | move => exact hScheduled
  rcases waiting_of_step hStep hWaits with
    hWas | ⟨-, rfl, q, hActive, hWas, hTrace⟩ | ⟨hNew, d, hTrace, hId, hQueue⟩
  · rcases h.opened time c hWas (hOld (hSound.made _ _ _ hWas)) hPromoted with ⟨before, hSuffix, hc⟩
    exact ⟨before, hSuffix.trans (suffix_of_step hStep), hc⟩
  · have hc := hOld (hSound.made _ _ _ hWas)
    rcases hLedger.waiting _ _ _ hWas with ⟨d, hd, hId, hDue, hIn⟩
    obtain rfl := hLedger.single d c hd hc hId
    rcases hIn with rfl | ⟨hBad, -⟩
    · grind
    · exact absurd hBad hActive
  · rw [hTrace] at hScheduled
    rcases mem_cons.mp hScheduled with hEq | hOld
    · injection hEq with hEq
      rw [hEq, hQueue] at hPromoted
      exact hPromoted.elim
    · have hLt := hLedger.made c hOld
      omega

theorem synced_of_step (h : a.Gated) (hStep : AgendaStep a a') (hPhase : a'.phase = .rosyncLoop) :
    ∃ before,
      .activated .seqRosync a'.time :: before <:+ a'.trace := by
  have hKeep : a.phase = .rosyncLoop → a'.time = a.time →
      ∃ before,
        .activated .seqRosync a'.time :: before <:+ a'.trace := by
    intro hWas hTime
    rcases h.synced hWas with ⟨before, hSuffix⟩
    rw [hTime]
    exact ⟨before, hSuffix.trans (suffix_of_step hStep)⟩
  cases hStep with
  | append q delay hCalling => exact hKeep hPhase rfl
  | push hCalling => exact hKeep hPhase rfl
  | execute q id rest phase hRuns hSlot =>
    refine hKeep ?_ rfl
    have hEq : phase = .rosyncLoop := hPhase
    subst hEq
    cases q <;> cases hWas : a.phase <;>
      simp [Runs, hWas] at hRuns ⊢
  | activate q hWas hq hReady hSome => cases hPhase
  | activateRosync hWas hReady => exact ⟨a.trace, suffix_rfl⟩
  | advance time hWas hLater hBefore => cases hPhase
  | deleteCell hWas hEmpty => cases hPhase
  | move phase hMoves =>
    have hEq : phase = .rosyncLoop := hPhase
    subst hEq
    cases hWas : a.phase <;> simp [Moves, hWas] at hMoves

theorem gated_of_step (hSound : a.Sound) (hLedger : a.Ledger) (h : a.Gated)
    (hStep : AgendaStep a a') : a'.Gated :=
  ⟨fun _ _ _ hSuffix _ hc hDue hPrecedes =>
      shut_of_step hLedger h hStep hSuffix hc hDue hPrecedes,
    fun _ _ hWaits hScheduled hPromoted =>
      opened_of_step hSound hLedger h hStep hWaits hScheduled hPromoted,
    fun hPhase => synced_of_step h hStep hPhase⟩

theorem gated_of_reachable (h : a.Reachable) : a.Gated := by
  induction h with
  | start => exact ⟨by simp [Agenda.start], by simp [Agenda.start], by simp [Agenda.start]⟩
  | step hReach hStep ih =>
    exact gated_of_step (sound_of_reachable hReach) (ledger_of_reachable hReach) ih hStep

end Agenda

----
-- Pushed Events
----

/- The phases whose pushes run next. -/
def Phase.Prompt : Phase → Prop
| .init => True
| .stopped => True
| .running => True
| _ => False

/- The phases after which an active event runs next. -/
def Phase.Polling : Phase → Prop
| .init => True
| .stopped => True
| .running => True
| .loopTop => True
| .dispatch => True
| .pull => True
| .aborted => True
| _ => False

theorem Phase.Prompt.polling {phase : Phase} (h : phase.Prompt) : phase.Polling := by
  cases phase <;> simp [Phase.Prompt, Phase.Polling] at h ⊢

namespace Agenda

/-
  A pushed event that waits is the first active event but
  for those pushed since.
-/
def Pushed (a : Agenda) : Prop :=
  ∀ c before between,
    a.trace = between ++ .scheduled c :: before →
      c.push = true → c.phase.Prompt →
        c.id ∉ executedIds a.trace →
          a.phase.Polling ∧ ∃ ahead rest,
            a.slot a.time .seqActive = ahead ++ c.id :: rest ∧
              ∀ id ∈ ahead, ∃ c', .scheduled c' ∈ between ∧ c'.id = id ∧ c'.push = true

/- The pushed event waits, so the time does not go on. -/
theorem pushed_of_step {a a' : Agenda} (h : a.Pushed) (hStep : AgendaStep a a') : a'.Pushed := by
  intro c before between hTrace hPush hPrompt hWaits
  cases hStep with
  | append q delay hCalling =>
    cases between with
    | nil =>
      injection hTrace with hEntry _
      injection hEntry with hEntry
      rw [← hEntry] at hPush
      cases hPush
    | cons entry between =>
      injection hTrace with _ hTrace
      rcases h c before between hTrace hPush hPrompt hWaits
        with ⟨hPhase, ahead, rest, hSlot, hAhead⟩
      have hAhead' : ∀ id ∈ ahead,
          ∃ c', .scheduled c' ∈ entry :: between ∧
            c'.id = id ∧ c'.push = true := by grind
      refine ⟨hPhase, ahead, ?_⟩
      by_cases hSame : a.time = a.time + delay ∧ .seqActive = q
      · refine ⟨rest ++ [a.fresh], ?_, hAhead'⟩
        simp only [append]
        rw [← hSame.1, ← hSame.2, setSlot_self, hSlot]
        simp
      · refine ⟨rest, ?_, hAhead'⟩
        simp only [append]
        rw [setSlot_of_ne a hSame, hSlot]
  | push hCalling =>
    cases between with
    | nil =>
      injection hTrace with hEntry _
      injection hEntry with hEntry
      subst hEntry
      refine ⟨Phase.Prompt.polling hPrompt, [], a.slot a.time .seqActive, ?_, by simp⟩
      simp only [push]
      rw [setSlot_self]
      rfl
    | cons entry between =>
      injection hTrace with hEntry hTrace
      rcases h c before between hTrace hPush hPrompt hWaits
        with ⟨hPhase, ahead, rest, hSlot, hAhead⟩
      refine ⟨hPhase, a.fresh :: ahead, rest, ?_, ?_⟩
      · simp only [push]
        rw [setSlot_self, hSlot]
        rfl
      · intro id hId
        rcases mem_cons.mp hId with rfl | hId
        · exact ⟨a.record .seqActive true 0, by rw [← hEntry]; exact mem_cons_self, rfl, rfl⟩
        · grind
  | execute q id rest phase hRuns hSlot =>
    cases between with
    | nil => cases hTrace
    | cons entry between =>
      injection hTrace with _ hTrace
      simp only [execute, executedIds_executed, mem_cons, not_or] at hWaits
      rcases h c before between hTrace hPush hPrompt hWaits.2 with
        ⟨hPhase, ahead, rest', hActive, hAhead⟩
      have hRun : q = .seqActive ∧ phase = .running := by
        cases q <;> cases hWas : a.phase <;>
          cases phase <;>
          simp [Runs, Phase.Polling, hWas] at hRuns hPhase ⊢
      rcases hRun with ⟨rfl, rfl⟩
      rw [hSlot] at hActive
      cases ahead with
      | nil => grind
      | cons first ahead =>
        injection hActive with hEq hActive
        refine ⟨trivial, ahead, rest', ?_, ?_⟩
        · simp only [execute]
          rw [setSlot_self]
          exact hActive
        · grind
  | activate q hPhase hq hReady hSome =>
    cases between with
    | nil => cases hTrace
    | cons entry between =>
      injection hTrace with _ hTrace
      rcases h c before between hTrace hPush hPrompt hWaits with ⟨-, ahead, rest, hSlot, -⟩
      rw [active_of_ready hReady] at hSlot
      simp at hSlot
  | activateRosync hPhase hReady =>
    cases between with
    | nil => cases hTrace
    | cons entry between =>
      injection hTrace with _ hTrace
      rcases h c before between hTrace hPush hPrompt hWaits with ⟨-, ahead, rest, hSlot, -⟩
      rw [active_of_ready hReady] at hSlot
      simp at hSlot
  | advance time hPhase hLater hBefore =>
    rcases h c before between hTrace hPush hPrompt hWaits with ⟨-, ahead, rest, hSlot, -⟩
    rw [hBefore a.time hLater] at hSlot
    simp at hSlot
  | deleteCell hPhase hEmpty =>
    cases between with
    | nil => cases hTrace
    | cons entry between =>
      injection hTrace with _ hTrace
      rcases h c before between hTrace hPush hPrompt hWaits with ⟨hPolling, -⟩
      rw [hPhase] at hPolling
      exact hPolling.elim
  | move phase hMoves =>
    rcases h c before between hTrace hPush hPrompt hWaits
      with ⟨hPolling, ahead, rest, hSlot, hAhead⟩
    refine ⟨?_, ahead, rest, hSlot, hAhead⟩
    cases hWas : a.phase <;> cases phase <;>
      simp [Moves, Phase.Polling, hWas] at hMoves hPolling ⊢
    have hEmpty := hMoves a.time .seqActive
    rw [hSlot] at hEmpty
    simp at hEmpty

theorem pushed_of_reachable {a : Agenda} (h : a.Reachable) : a.Pushed := by
  induction h with
  | start =>
    intro c before between hTrace
    simp [Agenda.start] at hTrace
  | step hReach hStep ih => exact pushed_of_step ih hStep

end Agenda

----
-- Stratified Histories
----

namespace Agenda

/- The agenda in which an event of the history was run. -/
theorem agenda_of_executed {a : Agenda} (h : a.Reachable) {id time due : Nat} {earlier : List Entry}
    (hSuffix : .executed id time due :: earlier <:+ a.trace) :
    ∃ a' : Agenda, a'.Reachable ∧ a'.trace = earlier ∧
      ∃ q rest phase, Runs q a'.phase phase ∧
        a'.slot a'.time q = id :: rest := by
  induction h with
  | start => simp [Agenda.start] at hSuffix
  | step hReach hStep ih =>
    rcases entry_of_step hStep hSuffix with hOld | ⟨hEarlier, hNew⟩
    · exact ih hOld
    · exact ⟨_, hReach, hEarlier.symm, executed_of_step hStep hNew⟩

/- The record of an event that waits or has been executed. -/
theorem Ledger.record_of_executed {a : Agenda} (h : a.Ledger) {id : Nat}
    (hId : id ∈ executedIds a.trace) : ∃ c, .scheduled c ∈ a.trace ∧ c.id = id := by
  rcases (mem_executedIds _ _).mp hId with ⟨time, due, hIn⟩
  rcases h.executed _ _ _ hIn with ⟨c, hc, hcId, -⟩
  exact ⟨c, hc, hcId⟩

end Agenda

/-
  The stratified order of a history.

  Peers are executed in the order of their calls.  An event
  of a preceding queue that was scheduled before an activation
  is executed before it or never.  Promoted events wait for an
  activation of their queue, and read-only ones for that of
  theirs.  An event that is pushed outside of the start and
  read-only loops is the next one executed, but for events
  that are pushed after it.
-/
structure Stratified (trace : List Entry) : Prop where
  firstCome :
    ∀ c c' before, .scheduled c' :: before <:+ trace →
      .scheduled c ∈ before → Peers c c' →
        ∀ time due earlier,
          .executed c.id time due :: earlier <:+ trace → c'.id ∉ executedIds earlier
  shut :
    ∀ q due before, .activated q due :: before <:+ trace →
      ∀ c, .scheduled c ∈ before → c.due = due →
        c.queue.Precedes q → c.id ∈ executedIds trace → c.id ∈ executedIds before
  opened :
    ∀ c, .scheduled c ∈ trace → c.queue.Promoted →
      ∀ time due earlier,
        .executed c.id time due :: earlier <:+ trace →
          ∃ before, .activated c.queue c.due :: before <:+ earlier ∧ .scheduled c ∈ before
  synced :
    ∀ c, .scheduled c ∈ trace → c.queue = .seqRosync →
      ∀ time due earlier,
        .executed c.id time due :: earlier <:+ trace →
          ∃ before, .activated .seqRosync c.due :: before <:+ earlier
  pushed :
    ∀ c before between id time due,
      .executed id time due :: (between ++ .scheduled c :: before) <:+ trace →
        c.push = true → c.phase.Prompt →
          c.id ∉ executedIds (between ++ .scheduled c :: before) →
            id = c.id ∨ ∃ c', .scheduled c' ∈ between ∧ c'.id = id ∧ c'.push = true

namespace Agenda

variable {a : Agenda} {c : Scheduled} {due : Nat}

theorem firstCome_of_reachable (h : a.Reachable) {c' : Scheduled} {before : List Entry}
    (hLater : .scheduled c' :: before <:+ a.trace)
    (hEarlier : .scheduled c ∈ before) (hPeers : Peers c c') {time : Nat} {earlier : List Entry}
    (hSuffix : .executed c.id time due :: earlier <:+ a.trace) : c'.id ∉ executedIds earlier := by
  intro hRan
  have hLedger := ledger_of_reachable h
  have hLt := (lined_of_reachable h).numbered c' before hLater c hEarlier
  have hc : .scheduled c ∈ a.trace := hLater.subset (mem_cons_of_mem _ hEarlier)
  have hc' : .scheduled c' ∈ a.trace := hLater.subset mem_cons_self
  rcases agenda_of_executed h hSuffix with ⟨b, hReach, rfl, q, rest, phase, -, hSlot⟩
  have hHead : c.id ∈ b.slot b.time q := by
    rw [hSlot]
    exact mem_cons_self
  have hOld : ∀ d, Entry.scheduled d ∈ b.trace →
      .scheduled d ∈ a.trace := fun d hd =>
    hSuffix.subset (mem_cons_of_mem _ hd)
  rcases (ledger_of_reachable hReach).record_of_executed hRan with ⟨d', hd', hId'⟩
  obtain rfl := hLedger.single d' c' (hOld _ hd') hc' hId'
  rcases (ledger_of_reachable hReach).waiting _ _ _ hHead with ⟨d, hd, hId, -⟩
  obtain rfl := hLedger.single d c (hOld _ hd) hc hId
  have hBehind := (lined_of_reachable hReach).behind _ _ _ hHead
    _ hRan d' d hd' hd rfl rfl
    ⟨hPeers.1.symm, hPeers.2.1.symm, hPeers.2.2.2, hPeers.2.2.1⟩
  omega

theorem shut_of_reachable (h : a.Reachable) {q : EventQueueT}
    {before : List Entry} (hSuffix : .activated q due :: before <:+ a.trace)
    (hc : .scheduled c ∈ before)
    (hDue : c.due = due) (hPrecedes : c.queue.Precedes q) (hRan : c.id ∈ executedIds a.trace) :
    c.id ∈ executedIds before := by
  rcases (mem_executedIds _ _).mp hRan with ⟨time, due', hIn⟩
  rcases List.append_of_mem hIn with ⟨later, earlier, hSplit⟩
  have hRun : .executed c.id time due' :: earlier <:+ a.trace := ⟨later, hSplit.symm⟩
  rcases List.suffix_or_suffix_of_suffix hSuffix hRun with hFirst | hFirst
  · -- the event would be run after the activation
    rcases suffix_cons_iff.mp hFirst with hEq | hFirst
    · cases hEq
    · rcases agenda_of_executed h hRun with ⟨b, hReach, rfl, q', rest, phase, -, hSlot⟩
      refine absurd ?_ ((gated_of_reachable hReach).shut q due
        before hFirst c hc hDue hPrecedes b.time q')
      rw [hSlot]
      exact mem_cons_self
  · rcases suffix_cons_iff.mp hFirst with hEq | hFirst
    · cases hEq
    · exact (mem_executedIds _ _).mpr ⟨time, due', hFirst.subset mem_cons_self⟩

/- Only active events are run after a promotion. -/
theorem opened_of_reachable (h : a.Reachable) (hc : .scheduled c ∈ a.trace)
    (hGate : c.queue.Promoted ∨ c.queue = .seqRosync) {time : Nat} {earlier : List Entry}
    (hSuffix : .executed c.id time due :: earlier <:+ a.trace) :
    ∃ before, .activated c.queue c.due :: before <:+ earlier ∧
      (c.queue.Promoted → .scheduled c ∈ before) := by
  rcases agenda_of_executed h hSuffix with ⟨b, hReach, rfl, q, rest, phase, hRuns, hSlot⟩
  have hGated := gated_of_reachable hReach
  have hHead : c.id ∈ b.slot b.time q := by
    rw [hSlot]
    exact mem_cons_self
  rcases (ledger_of_reachable hReach).waiting _ _ _ hHead with ⟨d, hd, hId, hDue, hIn⟩
  obtain rfl := (ledger_of_reachable h).single d c (hSuffix.subset (mem_cons_of_mem _ hd)) hc hId
  rcases hIn with rfl | ⟨rfl, hPromoted⟩
  · rcases hGate with hPromoted | hRosync
    · cases hQueue : d.queue <;>
        simp [hQueue, EventQueueT.Promoted] at hPromoted <;>
        simp [hQueue, Runs] at hRuns
    · rw [hRosync] at hRuns ⊢
      have hPhase : b.phase = .rosyncLoop := by
        cases hWas : b.phase <;> cases phase <;>
          simp [Runs, hWas] at hRuns ⊢
      rcases hGated.synced hPhase with ⟨before, hBefore⟩
      rw [← hDue] at hBefore
      exact ⟨before, hBefore, fun hBad => hBad.elim⟩
  · rcases hGated.opened _ _ hHead hd hPromoted with ⟨before, hBefore, hScheduled⟩
    exact ⟨before, hBefore, fun _ => hScheduled⟩

theorem stratified_of_reachable (h : a.Reachable) : Stratified a.trace where
  firstCome _ _ _ hLater hEarlier hPeers _ _ _ hSuffix :=
    firstCome_of_reachable h hLater hEarlier hPeers hSuffix
  shut _ _ _ hSuffix _ hc hDue hPrecedes hRan := shut_of_reachable h hSuffix hc hDue hPrecedes hRan
  opened c hc hPromoted _ _ _ hSuffix := by
    rcases opened_of_reachable h hc (Or.inl hPromoted) hSuffix with ⟨before, hBefore, hScheduled⟩
    exact ⟨before, hBefore, hScheduled hPromoted⟩
  synced c hc hRosync _ _ _ hSuffix := by
    rcases opened_of_reachable h hc (Or.inr hRosync) hSuffix with ⟨before, hBefore, -⟩
    rw [hRosync] at hBefore
    exact ⟨before, hBefore⟩
  pushed c before between id time due hSuffix hPush hPrompt
      hWaits := by
    rcases agenda_of_executed h hSuffix with ⟨b, hReach, hTrace, q, rest, phase, hRuns, hSlot⟩
    rw [← hTrace] at hWaits
    rcases pushed_of_reachable hReach c before between hTrace
      hPush hPrompt hWaits with
      ⟨hPhase, ahead, rest', hActive, hAhead⟩
    have hRun : q = .seqActive := by
      cases q <;> cases hWas : b.phase <;> cases phase <;>
        simp [Runs, Phase.Polling, hWas] at hRuns hPhase ⊢
    subst hRun
    rw [hSlot] at hActive
    cases ahead with
    | nil =>
      injection hActive with hEq _
      exact Or.inl hEq
    | cons first ahead =>
      injection hActive with hEq _
      subst hEq
      exact Or.inr (hAhead id mem_cons_self)

end Agenda

namespace Scheduler

variable {σ ε : Type*}

/-
  Every history is stratified, and whenever a queue is
  activated those that precede it are empty.
-/
theorem simulate_stratified
    (client : Client σ ε) (world : σ) (calls : List (SchedCall ε)) (n : Nat) :
    Stratified (simulate client world calls n).trace ∧
      ∀ q due,
        (simulate client world calls (n + 1)).trace =
            .activated q due :: (simulate client world calls n).trace →
          due = (simulate client world calls n).elapsed ∧
            ∀ q', q'.Precedes q → ∀ id,
              ¬(simulate client world calls n).Waiting id due q' := by
  rcases represents_simulate client world calls n with ⟨a, hReach, hRep⟩
  constructor
  · rw [← hRep.trace]
    exact Agenda.stratified_of_reachable hReach
  · intro q due hTrace
    rw [simulate_succ] at hTrace
    rcases hRep.step (Agenda.sound_of_reachable hReach) client with ⟨a', hMove, hRep'⟩
    rw [← hRep.trace, ← hRep'.trace] at hTrace
    rcases hMove with rfl | hStep
    · simp at hTrace
    · rcases Agenda.activated_of_step hStep hTrace with ⟨rfl, hReady⟩
      refine ⟨hRep.time, fun q' hPrecedes id hWaiting => ?_⟩
      have hId := (waiting_iff hRep _ _ _).mp hWaiting
      rw [Agenda.slot_of_ready hReady hPrecedes] at hId
      cases hId

/- An event runs while another of its time step waits. -/
def Overtakes (trace : List Entry) (d c : Scheduled) : Prop :=
  .scheduled d ∈ trace ∧ c.due = d.due ∧
    ∃ time earlier,
      .executed d.id time d.due :: earlier <:+ trace ∧
        .scheduled c ∈ earlier ∧ c.id ∉ executedIds earlier

/- The code of an event is the calls it makes. -/
def scriptClient (script : Nat → List (SchedCall Nat)) : Client Unit Nat
| .event i, _, _, _ => ((), script i)
| _, _, _, _ => ((), [])

/- The first event schedules an active one. -/
def activating : Nat → List (SchedCall Nat)
| 0 => [.scheduleEvent 2 0 .seqActive]
| _ => []

/- The first event pushes two others. -/
def pushing : Nat → List (SchedCall Nat)
| 0 => [.scheduleEventPush 1, .scheduleEventPush 2]
| _ => []

/-
  The order is no stricter: the queues are promoted as a
  whole, so a non-blocking assignment overtakes the active
  events of one promoted with it, and read-only events those
  of each other.  A pushed event is overtaken by a second
  push, and by the start and read-only events left to run.
-/
theorem simulate_not_strict :
    (∃ d c : Scheduled,
      d.queue = .seqNbassign ∧ c.queue = .seqActive ∧
        Overtakes (simulate (scriptClient activating) ()
          [.scheduleEvent 0 0 .seqNbassign, .scheduleEvent 1 0 .seqNbassign] 11).trace d c) ∧
    (∃ d c : Scheduled,
      d.queue = .seqRosync ∧ c.queue = .seqActive ∧
        Overtakes (simulate (scriptClient activating) ()
          [.scheduleEvent 0 0 .seqRosync, .scheduleEvent 1 0 .seqRosync] 8).trace d c) ∧
    (∃ d c : Scheduled,
      d.id ≠ c.id ∧ c.push = true ∧ c.phase = .running ∧
        Overtakes (simulate (scriptClient pushing) ()
          [.scheduleEvent 0 0 .seqActive] 11).trace d c) ∧
    (∃ d c : Scheduled,
      d.push = false ∧ c.push = true ∧ c.phase = .startLoop ∧
        Overtakes (simulate (scriptClient pushing) ()
          [.scheduleEvent 0 1 .seqStart, .scheduleEvent 1 1 .seqStart] 8).trace d c) ∧
    (∃ d c : Scheduled,
      d.push = false ∧ c.push = true ∧
        c.phase = .rosyncLoop ∧
        Overtakes (simulate (scriptClient pushing) ()
          [.scheduleEvent 0 0 .seqRosync,
            .scheduleEvent 1 0 .seqRosync] 9).trace d c) := by
  refine ⟨?_, ?_, ?_, ?_, ?_⟩
  · exact ⟨⟨1, .seqNbassign, false, .init, 0, 0, 0⟩, ⟨2, .seqActive, false, .running, 0, 0, 0⟩, rfl,
      rfl, by decide +kernel, rfl, 0, _, ⟨[], rfl⟩, by decide +kernel, by decide +kernel⟩
  · exact ⟨⟨1, .seqRosync, false, .init, 0, 0, 0⟩, ⟨2, .seqActive, false, .rosyncLoop, 0, 0, 0⟩,
      rfl, rfl, by decide +kernel, rfl, 0, _, ⟨[], rfl⟩, by decide +kernel, by decide +kernel⟩
  · exact ⟨⟨2, .seqActive, true, .running, 0, 0, 0⟩,
      ⟨1, .seqActive, true, .running, 0, 0, 0⟩, by decide, rfl, rfl, by decide +kernel, rfl,
      0, _, ⟨[], rfl⟩, by decide +kernel, by decide +kernel⟩
  · exact ⟨⟨1, .seqStart, false, .init, 0, 1, 1⟩, ⟨2, .seqActive, true, .startLoop, 1, 0, 1⟩, rfl,
      rfl, rfl, by decide +kernel, rfl, 1, _, ⟨[], rfl⟩, by decide +kernel, by decide +kernel⟩
  · exact ⟨⟨1, .seqRosync, false, .init, 0, 0, 0⟩, ⟨2, .seqActive, true, .rosyncLoop, 0, 0, 0⟩, rfl,
      rfl, rfl, by decide +kernel, rfl, 0, _, ⟨[], rfl⟩, by decide +kernel, by decide +kernel⟩

end Scheduler

end EpicSim
