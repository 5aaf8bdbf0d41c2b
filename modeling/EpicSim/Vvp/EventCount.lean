import EpicSim.Vvp.Event
import Mathlib.Data.List.Induction

/-
  Runs of an event: registrations and triggers.

  An assignment that is registered after some triggers with a
  count is due that many triggers later.  As long as no
  assignment triggers its own event while it is applied, each
  is applied once, when it is due, and in the order of
  registration.
-/

namespace EpicSim

open List (cons_append reverseRecOn length_append append_assoc append_inj')
open WaitableHooks LinkedHeap

----
-- Runs
----

/-
  What happens to an event: `%assign/vec4/e` and its like
  register, a value that arrives triggers.
-/
inductive EventAct where
| register (assignment ecount : Nat)
| trigger (netlist : List Nat → Nat)

namespace EventAct

def step (fuel : Nat) (s : WaitableHooks) : EventAct → Except EvctlFault WaitableHooks
| register assignment ecount => s.scheduleEvctl assignment ecount
| trigger netlist => s.runWaitingThreads netlist fuel

def run (fuel : Nat) : List EventAct → WaitableHooks → Except EvctlFault WaitableHooks
| [], s => .ok s
| act :: acts, s => step fuel s act >>= run fuel acts

/- How many triggers there are. -/
def triggers : List EventAct → Nat
| [] => 0
| register _ _ :: acts => triggers acts
| trigger _ :: acts => triggers acts + 1

end EventAct

/-
  A registration: how many triggers started before it, what it
  assigns, its count, and the entry that is made for it.
-/
structure Registration where
  before : Nat
  assignment : Nat
  ecount : Nat
  entry : Nat

/- The trigger at which an assignment is due. -/
def Registration.dueAt (r : Registration) : Nat :=
  r.before + r.ecount

namespace EventAct

def registrationsFrom : Nat → Nat → List EventAct → List Registration
| _, _, [] => []
| before, entry, register assignment ecount :: acts =>
  ⟨before, assignment, ecount, entry⟩ :: registrationsFrom before (entry + 1) acts
| before, entry, trigger _ :: acts => registrationsFrom (before + 1) entry acts

/- The registrations of a run, in their order. -/
def registrations (acts : List EventAct) : List Registration :=
  registrationsFrom 0 0 acts

/- The assignments that are due at a trigger. -/
def firedAt (acts : List EventAct) (k : Nat) : List Nat :=
  (registrations acts).filterMap fun r => if r.dueAt = k then some r.assignment else none

/- All that was due so far, trigger by trigger. -/
def fired (acts : List EventAct) : List Nat :=
  (List.range (triggers acts)).flatMap fun k => firedAt acts (k + 1)

/- The entries of the assignments that are not due yet. -/
def pending (acts : List EventAct) : List (Nat × Evctl) :=
  (registrations acts).filterMap fun r =>
    if triggers acts < r.dueAt then
      some (r.entry, ⟨r.dueAt - triggers acts, r.assignment⟩)
    else none

/-
  No trigger of the event starts while one of its assignments
  is applied.
-/
def Quiet (acts : List EventAct) : Prop :=
  ∀ past netlist rest,
    acts = past ++ trigger netlist :: rest →
    QuietWalk netlist (fired past) (firedAt past (triggers past + 1))

----
-- One More Act
----

theorem run_concat (fuel : Nat) (acts : List EventAct) (act : EventAct) (s : WaitableHooks) :
    run fuel (acts ++ [act]) s = (run fuel acts s >>= fun s' => step fuel s' act) := by
  induction acts generalizing s with
  | nil =>
    show (step fuel s act >>= fun s' => .ok s') = step fuel s act
    cases step fuel s act <;> rfl
  | cons first acts ih =>
    show (step fuel s first >>= run fuel (acts ++ [act])) = _
    rw [run]
    cases step fuel s first with
    | error fault => rfl
    | ok s₁ => exact ih s₁

theorem registrationsFrom_register (before entry : Nat) (acts : List EventAct)
    (assignment ecount : Nat) :
    registrationsFrom before entry (acts ++ [register assignment ecount]) =
      registrationsFrom before entry acts ++
        [⟨before + triggers acts, assignment, ecount,
          entry + (registrationsFrom before entry acts).length⟩] := by
  induction acts generalizing before entry with
  | nil => rfl
  | cons act acts ih =>
    cases act with
    | register assignment' ecount' =>
      rw [cons_append, registrationsFrom, ih, registrationsFrom, cons_append,
        triggers, List.length_cons, Nat.add_right_comm, Nat.add_assoc]
    | trigger netlist =>
      rw [cons_append, registrationsFrom, ih, registrationsFrom,
        triggers, Nat.add_right_comm, Nat.add_assoc]

theorem registrationsFrom_trigger (before entry : Nat) (acts : List EventAct)
    (netlist : List Nat → Nat) :
    registrationsFrom before entry (acts ++ [trigger netlist]) =
      registrationsFrom before entry acts := by
  induction acts generalizing before entry with
  | nil => rfl
  | cons act acts ih =>
    cases act with
    | register assignment ecount => rw [cons_append, registrationsFrom, ih, registrationsFrom]
    | trigger netlist' => rw [cons_append, registrationsFrom, ih, registrationsFrom]

@[simp] theorem registrations_register (acts : List EventAct) (assignment ecount : Nat) :
    registrations (acts ++ [register assignment ecount]) =
      registrations acts ++
        [⟨triggers acts, assignment, ecount,
          (registrations acts).length⟩] := by
  unfold registrations
  rw [registrationsFrom_register, Nat.zero_add, Nat.zero_add]

@[simp] theorem registrations_trigger (acts : List EventAct) (netlist : List Nat → Nat) :
    registrations (acts ++ [trigger netlist]) = registrations acts :=
  registrationsFrom_trigger 0 0 acts netlist

@[simp] theorem triggers_register (acts : List EventAct) (assignment ecount : Nat) :
    triggers (acts ++ [register assignment ecount]) = triggers acts := by
  induction acts with
  | nil => rfl
  | cons act acts ih =>
    cases act with
    | register => exact ih
    | trigger => exact congrArg (· + 1) ih

@[simp] theorem triggers_trigger (acts : List EventAct) (netlist : List Nat → Nat) :
    triggers (acts ++ [trigger netlist]) = triggers acts + 1 := by
  induction acts with
  | nil => rfl
  | cons act acts ih =>
    cases act with
    | register => exact ih
    | trigger => exact congrArg (· + 1) ih

variable {acts : List EventAct} {s : WaitableHooks} {fuel : Nat}
  {netlist : List Nat → Nat}

/- Entries are numbered in the order of registration. -/
theorem entry_lt {r : Registration} (hMem : r ∈ registrations acts) :
    r.entry < (registrations acts).length := by
  induction acts using reverseRecOn with
  | nil => cases hMem
  | append_singleton acts act ih =>
    cases act with
    | register assignment ecount =>
      rw [registrations_register] at hMem ⊢
      grind
    | trigger netlist =>
      rw [registrations_trigger] at hMem ⊢
      exact ih hMem

theorem registrations_length_le (acts : List EventAct) :
    (registrations acts).length ≤ acts.length := by
  induction acts using reverseRecOn with
  | nil => exact Nat.le_refl _
  | append_singleton acts act ih =>
    cases act with
    | register assignment ecount =>
      rw [registrations_register, length_append, length_append]
      exact Nat.succ_le_succ ih
    | trigger netlist =>
      rw [registrations_trigger, length_append]
      exact Nat.le_succ_of_le ih

----
-- What is Due
----

theorem fired_register (acts : List EventAct) (assignment ecount : Nat) (hCount : 1 ≤ ecount) :
    fired (acts ++ [register assignment ecount]) = fired acts := by
  unfold fired
  rw [triggers_register]
  apply List.flatMap_congr
  intro k hk
  rw [List.mem_range] at hk
  -- The new assignment is due later.
  have hLater : triggers acts + ecount ≠ k + 1 := by omega
  simp [firedAt, Registration.dueAt, hLater]

theorem fired_trigger (acts : List EventAct) (netlist : List Nat → Nat) :
    fired (acts ++ [trigger netlist]) = fired acts ++ firedAt acts (triggers acts + 1) := by
  have hSame : ∀ k,
      firedAt (acts ++ [trigger netlist]) k = firedAt acts k := by
    intro k
    unfold firedAt
    rw [registrations_trigger]
  unfold fired
  simp only [triggers_trigger, hSame, List.range_succ, List.flatMap_append, List.flatMap_singleton]

theorem pending_register (acts : List EventAct) (assignment ecount : Nat) (hCount : 1 ≤ ecount) :
    pending (acts ++ [register assignment ecount]) =
      pending acts ++ [((registrations acts).length, ⟨ecount, assignment⟩)] := by
  have hLater : triggers acts < triggers acts + ecount := by omega
  unfold pending
  rw [registrations_register, triggers_register,
    List.filterMap_append, List.filterMap_cons, List.filterMap_nil]
  simp only [Registration.dueAt, if_pos hLater, Nat.add_sub_cancel_left]

theorem due_pending (acts : List EventAct) :
    due (pending acts) = firedAt acts (triggers acts + 1) := by
  unfold due pending firedAt
  rw [List.filterMap_filterMap]
  congr 1
  funext r
  by_cases hLater : triggers acts < r.dueAt
  · grind
  · grind

theorem counted_pending (acts : List EventAct) (netlist : List Nat → Nat) :
    counted (pending acts) = pending (acts ++ [trigger netlist]) := by
  unfold counted pending
  rw [List.filterMap_filterMap, registrations_trigger, triggers_trigger]
  congr 1
  funext r
  by_cases hLater : triggers acts < r.dueAt
  · grind
  · grind

theorem pending_counts {p : Nat × Evctl} (hMem : p ∈ pending acts) : p.2.ecount ≠ 0 := by
  rcases List.mem_filterMap.mp hMem with ⟨r, _, hEntry⟩
  by_cases hLater : triggers acts < r.dueAt
  · grind
  · rw [if_neg hLater] at hEntry
    cases hEntry

/- The next entry to be made is not linked. -/
theorem fresh_entry (acts : List EventAct) :
    (registrations acts).length ∉ addresses (pending acts) := by
  intro hMem
  rcases List.mem_map.mp hMem with ⟨p, hp, hEq⟩
  rcases List.mem_filterMap.mp hp with ⟨r, hr, hEntry⟩
  by_cases hLater : triggers acts < r.dueAt
  · rw [if_pos hLater] at hEntry
    cases hEntry
    exact Nat.lt_irrefl _ (hEq ▸ entry_lt hr)
  · rw [if_neg hLater] at hEntry
    cases hEntry

theorem pending_length (acts : List EventAct) : (pending acts).length ≤ acts.length :=
  Nat.le_trans (List.length_filterMap_le _ _) (registrations_length_le acts)

----
-- The State after a Run
----

/- The state is what the acts say. -/
structure Reached (acts : List EventAct) (s : WaitableHooks) : Prop where
  entries : s.Pending (pending acts)
  applied : s.applied = fired acts
  allocated : s.allocated = (registrations acts).length

theorem reached_empty : Reached [] WaitableHooks.empty where
  entries := ⟨holds_empty, rfl⟩
  applied := rfl
  allocated := rfl

/- A registration appends its entry. -/
theorem Reached.register (hReached : Reached acts s) (assignment ecount : Nat)
    (hCount : 1 ≤ ecount) :
    ∃ s',
      s.scheduleEvctl assignment ecount = .ok s' ∧
      Reached (acts ++ [EventAct.register assignment ecount]) s' := by
  have hFresh : s.allocated ∉ addresses (pending acts) := by
    rw [hReached.allocated]
    exact fresh_entry acts
  rcases hReached.entries.holds.append hFresh ⟨ecount, assignment⟩ with ⟨ctls, hWrite, hHolds⟩
  rw [← hReached.entries.last] at hWrite
  refine
    ⟨{ s with
        event_ctls := ctls
        last := some s.allocated
        allocated := s.allocated + 1 }, ?_, ?_, ?_, ?_⟩
  · unfold scheduleEvctl writeLast
    simp only [hWrite]
    rfl
  · rw [pending_register acts assignment ecount hCount, ← hReached.allocated]
    exact ⟨hHolds, (slotAfter_concat _ _ _).symm⟩
  · rw [fired_register acts assignment ecount hCount]
    exact hReached.applied
  · rw [registrations_register, length_append]
    rw [hReached.allocated]
    rfl

/- A trigger counts down and fires what is due. -/
theorem Reached.trigger (hReached : Reached acts s) (hFuel : acts.length < fuel)
    (hQuiet : QuietWalk netlist (fired acts) (firedAt acts (triggers acts + 1))) :
    ∃ s',
      s.runWaitingThreads netlist fuel = .ok s' ∧
      Reached (acts ++ [EventAct.trigger netlist]) s' := by
  have hHolds := hReached.entries.holds
  rw [← due_pending, ← hReached.applied] at hQuiet
  have hEnough : (pending acts).length < fuel := Nat.lt_of_le_of_lt (pending_length acts) hFuel
  rcases walk_quiet (A := []) (B := pending acts)
    (s := { s with last := none })
    hHolds rfl (fun p hp => pending_counts hp) hQuiet hEnough
    with ⟨s', hWalk, hPending, hApplied, hAlloc⟩
  refine ⟨s', ?_, ?_, ?_, ?_⟩
  · unfold runWaitingThreads
    rw [hHolds.head]
    exact hWalk
  · rw [← counted_pending]
    exact hPending
  · rw [fired_trigger, hApplied, due_pending]
    exact congrArg (· ++ _) hReached.applied
  · rw [registrations_trigger, hAlloc]
    exact hReached.allocated

/- A trigger that comes to its end was a quiet one. -/
theorem Reached.quiet {s r : WaitableHooks} (hReached : Reached acts s)
    (hOk : s.runWaitingThreads netlist fuel = .ok r) :
    QuietWalk netlist (fired acts) (firedAt acts (triggers acts + 1)) := by
  have hHolds := hReached.entries.holds
  unfold runWaitingThreads at hOk
  rw [hHolds.head] at hOk
  have hQuiet :=
    quiet_of_walk (A := []) (B := pending acts)
    (s := { s with last := none }) hHolds rfl hOk
  rw [due_pending] at hQuiet
  rw [← hReached.applied]
  exact hQuiet

----
-- Quiet Runs
----

theorem quiet_past {act : EventAct} (hQuiet : Quiet (acts ++ [act])) : Quiet acts := by
  intro past netlist rest hSplit
  apply hQuiet past netlist (rest ++ [act])
  rw [hSplit, append_assoc]
  rfl

theorem quiet_register {assignment ecount : Nat} (hQuiet : Quiet acts) :
    Quiet (acts ++ [register assignment ecount]) := by
  intro past netlist rest hSplit
  rcases List.eq_nil_or_concat rest with rfl | ⟨rest', act, rfl⟩
  · have hLast := (append_inj' hSplit rfl).2
    cases hLast
  · rw [List.concat_eq_append, ← cons_append, ← append_assoc] at hSplit
    exact hQuiet past netlist rest' (append_inj' hSplit rfl).1

theorem quiet_trigger (hQuiet : Quiet acts)
    (hWalk : QuietWalk netlist (fired acts) (firedAt acts (triggers acts + 1))) :
    Quiet (acts ++ [trigger netlist]) := by
  intro past netlist' rest hSplit
  rcases List.eq_nil_or_concat rest with rfl | ⟨rest', act, rfl⟩
  · rcases append_inj' hSplit rfl with ⟨hPast, hLast⟩
    cases hLast
    rw [← hPast]
    exact hWalk
  · rw [List.concat_eq_append, ← cons_append, ← append_assoc] at hSplit
    exact hQuiet past netlist' rest' (append_inj' hSplit rfl).1

section

variable (hCounts : ∀ assignment ecount, register assignment ecount ∈ acts → 1 ≤ ecount)
  (hFuel : acts.length < fuel)

include hCounts hFuel

/- Runs of quiet triggers reach what the acts say. -/
theorem reached_of_quiet (hQuiet : Quiet acts) :
    ∃ s,
      run fuel acts WaitableHooks.empty = .ok s ∧
      Reached acts s := by
  induction acts using reverseRecOn with
  | nil => exact ⟨WaitableHooks.empty, rfl, reached_empty⟩
  | append_singleton acts act ih =>
    rw [length_append] at hFuel
    have hLess : acts.length < fuel := Nat.lt_of_succ_lt hFuel
    rcases ih
      (fun assignment ecount hMem => hCounts assignment ecount (List.mem_append_left _ hMem))
      hLess (quiet_past hQuiet) with ⟨s, hRun, hReached⟩
    have hStep :
        ∃ s', step fuel s act = .ok s' ∧
          Reached (acts ++ [act]) s' := by
      cases act with
      | register assignment ecount =>
        exact hReached.register assignment ecount (hCounts assignment ecount (by simp))
      | trigger netlist => exact hReached.trigger hLess (hQuiet acts netlist [] rfl)
    rcases hStep with ⟨s', hStep, hReached'⟩
    refine ⟨s', ?_, hReached'⟩
    rw [run_concat, hRun]
    exact hStep

/- Runs that come to their end are quiet. -/
theorem quiet_of_run (hRun : run fuel acts WaitableHooks.empty = .ok s) :
    Quiet acts := by
  induction acts using reverseRecOn generalizing s with
  | nil =>
    intro past netlist rest hSplit
    cases past <;> cases hSplit
  | append_singleton acts act ih =>
    rw [length_append] at hFuel
    have hLess : acts.length < fuel := Nat.lt_of_succ_lt hFuel
    have hCountsPast : ∀ assignment ecount, register assignment ecount ∈ acts → 1 ≤ ecount :=
      fun assignment ecount hMem => hCounts assignment ecount (List.mem_append_left _ hMem)
    rw [run_concat] at hRun
    cases hPast : run fuel acts WaitableHooks.empty with
    | error fault =>
      rw [hPast] at hRun
      cases hRun
    | ok s₀ =>
      rw [hPast] at hRun
      have hQuiet := ih hCountsPast hLess hPast
      rcases reached_of_quiet hCountsPast hLess hQuiet with ⟨s₁, hPast₁, hReached⟩
      have hSame : s₀ = s₁ := by
        rw [hPast] at hPast₁
        injection hPast₁
      rw [← hSame] at hReached
      cases act with
      | register assignment ecount => exact quiet_register hQuiet
      | trigger netlist => exact quiet_trigger hQuiet (hReached.quiet hRun)

end

end EventAct

open EventAct

----
-- Assignments at their Count
----

/-
  A run comes to its end, with every assignment applied at its
  trigger and in order, the others linked and `last` behind
  them, exactly when no trigger starts while an assignment is
  applied.
-/
theorem fires_at_count (acts : List EventAct)
    (hCounts : ∀ assignment ecount, register assignment ecount ∈ acts → 1 ≤ ecount) :
    (∃ enough, ∀ fuel ≥ enough,
      ∃ s,
        run fuel acts WaitableHooks.empty = .ok s ∧
        s.applied = fired acts ∧
        s.event_ctls.Holds (pending acts) ∧
        s.last = slotAfter (pending acts)) ↔
    Quiet acts := by
  constructor
  · rintro ⟨enough, hRuns⟩
    rcases hRuns (max enough (acts.length + 1)) (Nat.le_max_left _ _) with ⟨s, hRun, _⟩
    exact quiet_of_run hCounts (Nat.lt_of_succ_le (Nat.le_max_right _ _)) hRun
  · intro hQuiet
    refine ⟨acts.length + 1, ?_⟩
    intro fuel hFuel
    rcases reached_of_quiet hCounts (Nat.lt_of_succ_le hFuel) hQuiet with ⟨s, hRun, hReached⟩
    exact ⟨s, hRun, hReached.applied, hReached.entries.holds, hReached.entries.last⟩

/- Two assignments, a count of two and a count of one. -/
theorem fires_at_count_two :
    (∃ enough, ∀ fuel ≥ enough,
      ∃ s,
        run fuel
          [register 7 2, register 8 1, trigger (fun _ => 0), trigger (fun _ => 0)]
          WaitableHooks.empty = .ok s ∧
        s.applied = [8, 7] ∧
        s.event_ctls.Holds [] ∧
        s.last = none) ↔
    Quiet [register 7 2, register 8 1, trigger (fun _ => 0), trigger (fun _ => 0)] :=
  fires_at_count
    [register 7 2, register 8 1, trigger (fun _ => 0), trigger (fun _ => 0)]
    (by
      intro assignment ecount hMem
      simp only [List.mem_cons, register.injEq, reduceCtorEq, List.not_mem_nil, or_false] at hMem
      omega)

/-
  `q <= @(q) 0` and then `q = 1`: the assignment of the zero
  triggers the event again, and the walk that this starts
  finds the entry with its count at zero.
-/
theorem assertion_fails :
    ¬ ∃ enough, ∀ fuel ≥ enough,
      ∃ s,
        run fuel [register 7 1, trigger (fun _ => 1)] WaitableHooks.empty = .ok s ∧
        s.applied = fired [register 7 1, trigger (fun _ => 1)] ∧
        s.event_ctls.Holds (pending [register 7 1, trigger (fun _ => 1)]) ∧
        s.last = slotAfter (pending [register 7 1, trigger (fun _ => 1)]) := by
  rintro ⟨enough, hRuns⟩
  rcases hRuns (enough + 2) (Nat.le_add_right _ _) with ⟨s, hRun, _⟩
  have hFault :
      run (enough + 2) [register 7 1, trigger (fun _ => 1)]
        WaitableHooks.empty = .error .assertion := rfl
  rw [hFault] at hRun
  cases hRun

end EpicSim
