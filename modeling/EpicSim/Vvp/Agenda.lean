import EpicSim.Vvp.Schedule

/-
  The event queue as an agenda: for every absolute time and
  every queue the events that wait there, in their order.

  The agenda says what the time cells with their relative
  delays and circular lists are for.  Its steps are the
  effects a step of the scheduler can have.
-/

----
-- Agendas
----

namespace EpicSim

open Function (update_self update_of_ne update)

/- The phases in which running code can make calls. -/
def Phase.Calling : Phase → Prop
| .init => True
| .stopped => True
| .startLoop => True
| .running => True
| .rosyncLoop => True
| .delThreadLoop => True
| _ => False

/- The phases inside a time step. -/
def Phase.InStep : Phase → Prop
| .startLoop => True
| .dispatch => True
| .pull => True
| .running => True
| .rosyncLoop => True
| .delThreadLoop => True
| _ => False

/- The events that wait, with the time and the history. -/
structure Agenda where
  time : Nat
  slot : Nat → EventQueueT → List Nat
  fresh : Nat
  phase : Phase
  trace : List Entry

namespace Agenda

/- The record of a call made now. -/
def record (a : Agenda) (q : EventQueueT) (push : Bool) (delay : Nat) : Scheduled where
  id := a.fresh
  queue := q
  push := push
  phase := a.phase
  time := a.time % 2 ^ 64
  delay := delay
  due := a.time + delay

/- The slots with one queue replaced. -/
def setSlot (a : Agenda) (time : Nat) (q : EventQueueT)
    (l : List Nat) : Nat → EventQueueT → List Nat :=
  update a.slot time (update (a.slot time) q l)

/- An event behind those of its slot. -/
def append (a : Agenda) (q : EventQueueT) (delay : Nat) (push : Bool) : Agenda :=
  { a with
    slot := a.setSlot (a.time + delay) q (a.slot (a.time + delay) q ++ [a.fresh])
    fresh := a.fresh + 1
    trace := .scheduled (a.record q push delay) :: a.trace }

/- An event before the active ones of the current time. -/
def push (a : Agenda) : Agenda :=
  { a with
    slot := a.setSlot a.time .seqActive (a.fresh :: a.slot a.time .seqActive)
    fresh := a.fresh + 1
    trace := .scheduled (a.record .seqActive true 0) :: a.trace }

/- Run the first event of a queue of the current time. -/
def execute (a : Agenda) (q : EventQueueT) (id : Nat) (rest : List Nat) (phase : Phase) : Agenda :=
  { a with
    slot := a.setSlot a.time q rest
    phase := phase
    trace := .executed id (a.time % 2 ^ 64) a.time :: a.trace }

/- Make a queue of the current time the active one. -/
def activate (a : Agenda) (q : EventQueueT) : Agenda :=
  { a with
    slot := update a.slot a.time
      (update (update (a.slot a.time) .seqActive (a.slot a.time q)) q [])
    phase := .pull
    trace := .activated q a.time :: a.trace }

/- Nothing waits before a queue in the order of a time step. -/
def Ready (a : Agenda) : EventQueueT → Prop
| .seqInactive => a.slot a.time .seqActive = []
| .seqNbassign => a.slot a.time .seqActive = [] ∧ a.slot a.time .seqInactive = []
| .seqRwsync =>
  a.slot a.time .seqActive = [] ∧ a.slot a.time .seqInactive = [] ∧ a.slot a.time .seqNbassign = []
| .seqRosync =>
  a.slot a.time .seqActive = [] ∧
    a.slot a.time .seqInactive = [] ∧
    a.slot a.time .seqNbassign = [] ∧
    a.slot a.time .seqRwsync = []
| _ => False

/- The loops that run events, and where they go on. -/
def Runs : EventQueueT → Phase → Phase → Prop
| .seqStart, .startLoop, .startLoop => True
| .seqActive, .pull, .running => True
| .seqRosync, .rosyncLoop, .rosyncLoop => True
| .delThread, .delThreadLoop, .delThreadLoop => True
| _, _, _ => False

/- The changes of phase that change nothing else. -/
def Moves (a : Agenda) : Phase → Phase → Prop
| .init, .loopTop => True
| .loopTop, .stopped => True
| .stopped, .loopTop => True
| .running, .loopTop => True
| .loopTop, .dispatch => True
| .startLoop, .dispatch => a.slot a.time .seqStart = []
| .dispatch, .pull => a.slot a.time .seqActive ≠ []
| .rosyncLoop, .delThreadLoop => a.slot a.time .seqRosync = []
| .loopTop, .done => ∀ time q, a.slot time q = []
| _, .aborted => True
| _, _ => False

end Agenda

open Agenda in
/- What a step of the scheduler does to the agenda. -/
inductive AgendaStep : Agenda → Agenda → Prop where
| append (a : Agenda) (q : EventQueueT) (delay : Nat) :
    a.phase.Calling → AgendaStep a (a.append q delay false)
| push (a : Agenda) :
    a.phase.Calling → AgendaStep a a.push
| execute
    (a : Agenda) (q : EventQueueT)
    (id : Nat) (rest : List Nat) (phase : Phase) :
    Runs q a.phase phase →
    a.slot a.time q = id :: rest → AgendaStep a (a.execute q id rest phase)
| activate (a : Agenda) (q : EventQueueT) :
    a.phase = .dispatch →
    q ≠ .seqRosync →
    a.Ready q →
    a.slot a.time q ≠ [] → AgendaStep a (a.activate q)
| activateRosync (a : Agenda) :
    a.phase = .dispatch →
    a.Ready .seqRosync →
      AgendaStep a
        { a with
          phase := .rosyncLoop
          trace := .activated .seqRosync a.time :: a.trace }
| advance (a : Agenda) (time : Nat) :
    a.phase = .loopTop →
    a.time < time →
    (∀ t < time, ∀ q, a.slot t q = []) → AgendaStep a { a with time := time, phase := .startLoop }
| deleteCell (a : Agenda) :
    a.phase = .delThreadLoop →
    a.slot a.time .delThread = [] →
      AgendaStep a
        { a with
          slot := update a.slot a.time (fun _ => [])
          phase := .loopTop
          trace := .deleted a.time :: a.trace }
| move (a : Agenda) (phase : Phase) :
    a.Moves a.phase phase → AgendaStep a { a with phase := phase }

/- An agenda with nothing on it, before the loop. -/
def Agenda.start : Agenda where
  time := 0
  slot := fun _ _ => []
  fresh := 0
  phase := .init
  trace := []

/- The agendas that steps lead to. -/
inductive Agenda.Reachable : Agenda → Prop where
| start : Reachable .start
| step {a a' : Agenda} :
    Reachable a → AgendaStep a a' → Reachable a'

----
-- Slots
----

namespace Agenda

theorem setSlot_self (a : Agenda) (time : Nat) (q : EventQueueT) (l : List Nat) :
    a.setSlot time q l time q = l := by
  simp [setSlot]

theorem setSlot_of_ne (a : Agenda) {time time' : Nat} {q q' : EventQueueT}
    (h : ¬(time' = time ∧ q' = q)) (l : List Nat) :
    a.setSlot time q l time' q' = a.slot time' q' := by
  unfold setSlot
  by_cases hTime : time' = time
  · subst hTime
    have hQueue : q' ≠ q := fun hEq => h ⟨rfl, hEq⟩
    rw [update_self, update_of_ne hQueue]
  · rw [update_of_ne hTime]

/- The new event waits where the call puts it, as do the old. -/
theorem mem_append_iff (a : Agenda) (q : EventQueueT) (delay : Nat) (push : Bool)
    (time : Nat) (q' : EventQueueT) (id : Nat) :
    id ∈ (a.append q delay push).slot time q' ↔
      id ∈ a.slot time q' ∨
        id = a.fresh ∧ time = a.time + delay ∧ q' = q := by
  simp only [append]
  by_cases hSame : time = a.time + delay ∧ q' = q
  · rcases hSame with ⟨rfl, rfl⟩
    rw [setSlot_self]
    simp
  · rw [setSlot_of_ne a hSame]
    simp [hSame]

theorem mem_push_iff (a : Agenda) (time : Nat) (q' : EventQueueT) (id : Nat) :
    id ∈ a.push.slot time q' ↔
      id ∈ a.slot time q' ∨
        id = a.fresh ∧ time = a.time ∧ q' = .seqActive := by
  simp only [push]
  by_cases hSame : time = a.time ∧ q' = .seqActive
  · rcases hSame with ⟨rfl, rfl⟩
    rw [setSlot_self]
    simp [or_comm]
  · rw [setSlot_of_ne a hSame]
    simp [hSame]

/-
  What holds of the slots alone: events are made before they
  wait, wait once, and not in the past.
-/
structure Sound (a : Agenda) : Prop where
  made : ∀ time q id, id ∈ a.slot time q → id < a.fresh
  nodup : ∀ time q, (a.slot time q).Nodup
  apart : ∀ time q time' q' id, id ∈ a.slot time q → id ∈ a.slot time' q' → time = time' ∧ q = q'
  past : ∀ time q, time < a.time → a.slot time q = []
  pulling : a.phase = .pull → a.slot a.time .seqActive ≠ []
  finished : a.phase = .done → ∀ time q, a.slot time q = []

variable {a : Agenda}

theorem Sound.running (h : a.Sound) : Sound { a with phase := .running } :=
  ⟨h.made, h.nodup, h.apart, h.past, (fun hPull => by cases hPull), fun hDone => by cases hDone⟩

theorem plain_of_calling {phase : Phase} (h : phase.Calling) : phase ≠ .pull ∧ phase ≠ .done := by
  constructor
  · rintro rfl
    exact h
  · rintro rfl
    exact h

/- Replacing one queue by old events and a new one. -/
theorem sound_setSlot (h : a.Sound) {time : Nat} {q : EventQueueT} {l : List Nat}
    (hTime : a.time ≤ time) (hNodup : l.Nodup) (hMem : ∀ id ∈ l, id = a.fresh ∨ id ∈ a.slot time q)
    {fresh : Nat} (hFresh : a.fresh ≤ fresh) (hNew : a.fresh ∈ l → a.fresh < fresh) {phase : Phase}
    (hPhase : phase ≠ .pull ∧ phase ≠ .done) (trace : List Entry) :
    Sound
      { a with
        slot := a.setSlot time q l
        fresh := fresh
        phase := phase
        trace := trace } := by
  -- an event that waits now did so before, or is the new one
  have hOrigin : ∀ time' q' id,
      id ∈ a.setSlot time q l time' q' →
        (id = a.fresh ∧ time' = time ∧ q' = q ∧ id ∈ l) ∨
          id ∈ a.slot time' q' := by
    intro time' q' id hId
    by_cases hSame : time' = time ∧ q' = q
    · rcases hSame with ⟨rfl, rfl⟩
      rw [setSlot_self] at hId
      grind
    · rw [setSlot_of_ne a hSame] at hId
      exact Or.inr hId
  have hOld : ∀ time' q', a.fresh ∉ a.slot time' q' := by
    intro time' q' hId
    exact Nat.lt_irrefl _ (h.made time' q' _ hId)
  refine ⟨?_, ?_, ?_, ?_, fun hPull => absurd hPull hPhase.1, fun hDone => absurd hDone hPhase.2⟩
  · intro time' q' id hId
    rcases hOrigin time' q' id hId with ⟨rfl, -, -, hNewMem⟩ | hWas
    · exact hNew hNewMem
    · exact Nat.lt_of_lt_of_le (h.made time' q' id hWas) hFresh
  · intro time' q'
    change (a.setSlot time q l time' q').Nodup
    by_cases hSame : time' = time ∧ q' = q
    · rcases hSame with ⟨rfl, rfl⟩
      rw [setSlot_self]
      exact hNodup
    · rw [setSlot_of_ne a hSame]
      exact h.nodup time' q'
  · intro time₁ q₁ time₂ q₂ id h₁ h₂
    rcases hOrigin time₁ q₁ id h₁ with ⟨rfl, rfl, rfl, -⟩ | hWas₁
    · grind
    · rcases hOrigin time₂ q₂ id h₂ with ⟨rfl, -, -, -⟩ | hWas₂
      · exact absurd hWas₁ (hOld time₁ q₁)
      · exact h.apart time₁ q₁ time₂ q₂ id hWas₁ hWas₂
  · intro time' q' hLt
    change a.setSlot time q l time' q' = []
    rw [setSlot_of_ne a (fun hEq => by
      rw [hEq.1] at hLt
      exact absurd hLt (Nat.not_lt.mpr hTime))]
    exact h.past time' q' hLt

theorem activate_slot_of_ne (a : Agenda) (q : EventQueueT) {time : Nat} (h : time ≠ a.time) :
    (a.activate q).slot time = a.slot time := by
  simp [activate, h]

/- Activating a queue moves its events and no others. -/
theorem activate_slot (a : Agenda) (q q' : EventQueueT) :
    (a.activate q).slot a.time q' =
      if q' = q then []
      else if q' = .seqActive then a.slot a.time q
      else a.slot a.time q' := by
  simp only [activate, update_self]
  by_cases hq : q' = q
  · subst hq
    simp
  · grind

/- Where an event of an activated agenda waited before. -/
theorem mem_of_mem_activate {q q' : EventQueueT} {time id : Nat}
    (h : id ∈ (a.activate q).slot time q') :
    ¬(time = a.time ∧ q' = q) ∧
      id ∈ a.slot time (if time = a.time ∧ q' = .seqActive then q else q') := by
  by_cases hTime : time = a.time
  · subst hTime
    rw [activate_slot] at h
    by_cases hq : q' = q
    · rw [if_pos hq] at h
      cases h
    · grind
  · rw [activate_slot_of_ne a q hTime] at h
    rw [if_neg (fun hBoth => hTime hBoth.1)]
    exact ⟨fun hBoth => hTime hBoth.1, h⟩

theorem sound_activate (h : a.Sound) {q : EventQueueT} (hReady : a.Ready q)
    (hSome : a.slot a.time q ≠ []) : (a.activate q).Sound := by
  have hq : q ≠ .seqActive := by
    rintro rfl
    exact hReady
  refine ⟨?_, ?_, ?_, ?_, ?_, fun hDone => by cases hDone⟩
  · intro time q' id hId
    exact h.made _ _ id (mem_of_mem_activate hId).2
  · intro time q'
    by_cases hTime : time = a.time
    · subst hTime
      rw [activate_slot]
      split_ifs
      · exact List.nodup_nil
      · exact h.nodup a.time q
      · exact h.nodup a.time q'
    · rw [activate_slot_of_ne a q hTime]
      exact h.nodup time q'
  · intro time₁ q₁ time₂ q₂ id h₁ h₂
    rcases mem_of_mem_activate h₁ with ⟨hNot₁, hWas₁⟩
    rcases mem_of_mem_activate h₂ with ⟨hNot₂, hWas₂⟩
    rcases h.apart _ _ _ _ id hWas₁ hWas₂ with ⟨rfl, hQueue⟩
    grind
  · intro time q' hLt
    rw [activate_slot_of_ne a q (Nat.ne_of_lt hLt)]
    exact h.past time q' hLt
  · intro _
    change (a.activate q).slot a.time .seqActive ≠ []
    rw [activate_slot, if_neg hq.symm]
    exact hSome

/- Steps keep the slots sound. -/
theorem sound_of_step {a a' : Agenda} (h : a.Sound) (hStep : AgendaStep a a') : a'.Sound := by
  have hFresh : ∀ time q, a.fresh ∉ a.slot time q := by
    intro time q hId
    exact Nat.lt_irrefl _ (h.made time q _ hId)
  cases hStep with
  | append q delay hCalling =>
    refine sound_setSlot h (Nat.le_add_right _ _) ?_ ?_
      (Nat.le_succ _) (fun _ => Nat.lt_succ_self _)
      (plain_of_calling hCalling) _
    · exact List.nodup_append.mpr ⟨h.nodup _ _,
        List.nodup_singleton _, by
          rintro x hx y hy rfl
          rw [List.mem_singleton.mp hy] at hx
          exact hFresh _ _ hx⟩
    · grind
  | push hCalling =>
    refine sound_setSlot h (Nat.le_refl _) ?_ ?_
      (Nat.le_succ _) (fun _ => Nat.lt_succ_self _)
      (plain_of_calling hCalling) _
    · exact List.nodup_cons.mpr ⟨hFresh _ _, h.nodup _ _⟩
    · intro id hId
      exact List.mem_cons.mp hId
  | execute q id rest phase hRuns hSlot =>
    have hNodup := h.nodup a.time q
    rw [hSlot] at hNodup
    refine sound_setSlot h (Nat.le_refl _) (List.nodup_cons.mp hNodup).2 ?_ (Nat.le_refl _) ?_ ?_ _
    · grind
    · grind
    · cases q <;> cases hPhase : a.phase <;>
        cases phase <;> simp [Runs, hPhase] at hRuns ⊢
  | activate q hPhase hq hReady hSome => exact sound_activate h hReady hSome
  | activateRosync hPhase hReady =>
    exact ⟨h.made, h.nodup, h.apart, h.past,
      (fun hPull => by cases hPull), fun hDone => by cases hDone⟩
  | advance time hPhase hLater hBefore =>
    exact ⟨h.made, h.nodup, h.apart, fun time' q hLt => hBefore time' hLt q,
      (fun hPull => by cases hPull), fun hDone => by cases hDone⟩
  | deleteCell hPhase hEmpty =>
    have hSlot : ∀ time q, (update a.slot a.time
        (fun _ => [])) time q = [] ∨
          (update a.slot a.time (fun _ => [])) time q = a.slot time q := by
      intro time q
      by_cases hTime : time = a.time
      · subst hTime
        exact Or.inl (by rw [update_self])
      · exact Or.inr (by rw [update_of_ne hTime])
    have hMem : ∀ time q id, id ∈ (update a.slot
        a.time (fun _ => [])) time q →
          id ∈ a.slot time q := by grind
    refine ⟨?_, ?_, ?_, ?_, (fun hPull => by cases hPull), fun hDone => by cases hDone⟩
    · exact fun time q id hId => h.made time q id (hMem time q id hId)
    · intro time q
      change (update a.slot a.time (fun _ => []) time q).Nodup
      rcases hSlot time q with hNil | hSame
      · rw [hNil]
        exact List.nodup_nil
      · rw [hSame]
        exact h.nodup time q
    · exact fun time q time' q' id h₁ h₂ =>
        h.apart time q time' q' id (hMem _ _ _ h₁) (hMem _ _ _ h₂)
    · intro time q hLt
      rcases hSlot time q with hNil | hSame
      · exact hNil
      · exact hSame.trans (h.past time q hLt)
  | move phase hMoves =>
    refine ⟨h.made, h.nodup, h.apart, h.past, ?_, ?_⟩
    · intro hPull
      have hEq : phase = .pull := hPull
      subst hEq
      cases hPhase : a.phase <;>
        simp only [hPhase, Moves] at hMoves
      exact hMoves
    · intro hDone
      have hEq : phase = .done := hDone
      subst hEq
      cases hPhase : a.phase <;>
        simp only [hPhase, Moves] at hMoves
      exact hMoves

theorem sound_of_reachable (h : a.Reachable) : a.Sound := by
  induction h with
  | start =>
    exact ⟨by simp [Agenda.start], by simp [Agenda.start], by simp [Agenda.start],
      by simp [Agenda.start], by simp [Agenda.start], by simp [Agenda.start]⟩
  | step _ hStep ih => exact sound_of_step ih hStep

end Agenda

end EpicSim
