import EpicSim.Lib.LinkedHeap

/-
  Event-controlled assignments: the pending list of an event.

  A walk of the list counts every entry down; an entry whose
  count comes to zero is applied, which sends a value into the
  netlist, and is then unlinked.  What the netlist does while
  the value is sent is a parameter: how many triggers of the
  same event it causes.  Instructions of threads do not run
  then, so there are no registrations during a walk.
-/

namespace EpicSim

/- An entry; `assignment` stands for what it sends and where. -/
structure Evctl where
  ecount : Nat
  assignment : Nat
deriving DecidableEq

/- How a walk goes wrong, or that the fuel was too little. -/
inductive EvctlFault where
| assertion
| freed
| fuel
deriving DecidableEq

/-
  `last` is the slot behind the last entry, `allocated` the
  number of entries made so far, `applied` the assignments
  done so far.
-/
structure WaitableHooks where
  event_ctls : LinkedHeap Evctl
  last : Option Nat
  allocated : Nat
  applied : List Nat

namespace WaitableHooks

open LinkedHeap

----
-- Operations
----

def empty : WaitableHooks :=
  { event_ctls := LinkedHeap.empty
    last := none
    allocated := 0
    applied := [] }

/- Write the slot that `last` points to. -/
def writeLast (s : WaitableHooks) (p : Option Nat) : Except EvctlFault WaitableHooks :=
  match s.event_ctls.write s.last p with
  | none => .error .freed
  | some ctls => .ok { s with event_ctls := ctls }

/- A new entry behind the last one. -/
def scheduleEvctl (s : WaitableHooks) (assignment : Nat)
    (ecount : Nat) : Except EvctlFault WaitableHooks := do
  let entry := s.allocated
  let s :=
    { s with
      event_ctls := s.event_ctls.put entry ⟨none, ⟨ecount, assignment⟩⟩
      allocated := entry + 1 }
  let s ← s.writeLast (some entry)
  .ok { s with last := some entry }

/- The same thing a number of times. -/
def times (f : WaitableHooks → Except EvctlFault WaitableHooks) :
    Nat → WaitableHooks → Except EvctlFault WaitableHooks
| 0, s => .ok s
| n + 1, s => f s >>= times f n

/-
  The loop of `run_waiting_threads_` from an entry on.  The
  netlist answers the assignments done so far, the present one
  included, with a number of triggers of this event.
-/
def walk (netlist : List Nat → Nat) :
    Nat → WaitableHooks → Option Nat → Except EvctlFault WaitableHooks
| 0, _, _ => .error .fuel
| _ + 1, s, none => .ok s
| fuel + 1, s, some cur =>
  match s.event_ctls.heap cur with
  | none => .error .freed
  | some ⟨next, entry⟩ =>
    -- `dec_and_run`
    if entry.ecount = 0 then .error .assertion
    else
      let entry := { entry with ecount := entry.ecount - 1 }
      let s := { s with event_ctls := s.event_ctls.put cur ⟨next, entry⟩ }
      if entry.ecount = 0 then do
        let s := { s with applied := s.applied ++ [entry.assignment] }
        let s ←
          times
            (fun s => walk netlist fuel { s with last := none } s.event_ctls.head)
            (netlist s.applied) s
        -- The entry is read again after it has run.
        match s.event_ctls.heap cur with
        | none => .error .freed
        | some ⟨next, entry⟩ =>
          if entry.ecount = 0 then do
            let s ←
              { s with
                event_ctls := s.event_ctls.free cur }.writeLast
                next
            walk netlist fuel s next
          else
            walk netlist fuel { s with last := some cur } next
      else
        walk netlist fuel { s with last := some cur } next

/- A trigger of the event. -/
def runWaitingThreads (netlist : List Nat → Nat) (fuel : Nat)
    (s : WaitableHooks) : Except EvctlFault WaitableHooks :=
  walk netlist fuel { s with last := none } s.event_ctls.head

----
-- Lists of Entries
----

/- The assignments that are due at the next trigger. -/
def due (L : List (Nat × Evctl)) : List Nat :=
  L.filterMap fun p => if p.2.ecount = 1 then some p.2.assignment else none

/- The entries that stay, counted down. -/
def counted (L : List (Nat × Evctl)) : List (Nat × Evctl) :=
  L.filterMap fun p =>
    if p.2.ecount = 1 then none
    else some (p.1, { p.2 with ecount := p.2.ecount - 1 })

/- No due assignment makes the netlist trigger the event. -/
def QuietWalk (netlist : List Nat → Nat) (applied : List Nat) (ids : List Nat) : Prop :=
  ∀ i < ids.length, netlist (applied ++ ids.take (i + 1)) = 0

/- The entries are linked and `last` is behind them. -/
structure Pending (s : WaitableHooks) (L : List (Nat × Evctl)) : Prop where
  holds : s.event_ctls.Holds L
  last : s.last = slotAfter L

theorem quietWalk_cons {netlist : List Nat → Nat} {applied : List Nat} {id : Nat} {ids : List Nat} :
    QuietWalk netlist applied (id :: ids) ↔
      netlist (applied ++ [id]) = 0 ∧
      QuietWalk netlist (applied ++ [id]) ids := by
  constructor
  · intro hQuiet
    constructor
    · exact hQuiet 0 (Nat.zero_lt_succ _)
    · intro i hi
      have hNext := hQuiet (i + 1) (Nat.succ_lt_succ hi)
      rw [List.append_assoc]
      exact hNext
  · rintro ⟨hFirst, hQuiet⟩ i hi
    cases i with
    | zero => exact hFirst
    | succ i =>
      have hNext := hQuiet i (Nat.lt_of_succ_lt_succ hi)
      rw [List.append_assoc] at hNext
      exact hNext

theorem due_cons (c : Nat) (entry : Evctl) (L : List (Nat × Evctl)) :
    due ((c, entry) :: L) =
      if entry.ecount = 1 then entry.assignment :: due L
      else due L := by
  unfold due
  rw [List.filterMap_cons]
  by_cases hOne : entry.ecount = 1
  · simp only [if_pos hOne]
  · simp only [if_neg hOne]

theorem counted_cons (c : Nat) (entry : Evctl) (L : List (Nat × Evctl)) :
    counted ((c, entry) :: L) =
      if entry.ecount = 1 then counted L
      else (c, { entry with ecount := entry.ecount - 1 }) ::
        counted L := by
  unfold counted
  rw [List.filterMap_cons]
  by_cases hOne : entry.ecount = 1
  · simp only [if_pos hOne]
  · simp only [if_neg hOne]

----
-- Steps of a Walk
----

variable {netlist : List Nat → Nat}
variable {s : WaitableHooks}
variable {A B : List (Nat × Evctl)}
variable {c : Nat} {entry : Evctl}

/- An entry that is not due stays behind the walk. -/
theorem walk_keeps (netlist : List Nat → Nat) (fuel : Nat)
    (hHolds : s.event_ctls.Holds (A ++ (c, entry) :: B))
    (hZero : entry.ecount ≠ 0) (hOne : entry.ecount ≠ 1) :
    ∃ s' : WaitableHooks,
      walk netlist (fuel + 1) s (some c) = walk netlist fuel s' (first B) ∧
      s'.event_ctls.Holds ((A ++ [(c, { entry with ecount := entry.ecount - 1 })]) ++ B) ∧
      s'.last = slotAfter (A ++ [(c, { entry with ecount := entry.ecount - 1 })]) ∧
      s'.applied = s.applied ∧
      s'.allocated = s.allocated := by
  have hLess : entry.ecount - 1 ≠ 0 := by omega
  have hUpdate := hHolds.update { entry with ecount := entry.ecount - 1 }
  refine
    ⟨{ s with
        event_ctls := s.event_ctls.put c ⟨first B, { entry with ecount := entry.ecount - 1 }⟩
        last := some c },
      ?_, ?_, (slotAfter_concat _ _ _).symm, rfl, rfl⟩
  · rw [walk, hHolds.read]
    simp only [if_neg hZero, if_neg hLess]
  · rw [List.append_assoc]
    exact hUpdate

/- A due entry is applied and unlinked. -/
theorem walk_applies (fuel : Nat) (hHolds : s.event_ctls.Holds (A ++ (c, entry) :: B))
    (hLast : s.last = slotAfter A) (hOne : entry.ecount = 1)
    (hQuiet : netlist (s.applied ++ [entry.assignment]) = 0) :
    ∃ s' : WaitableHooks,
      walk netlist (fuel + 1) s (some c) = walk netlist fuel s' (first B) ∧
      s'.event_ctls.Holds (A ++ B) ∧
      s'.last = slotAfter A ∧
      s'.applied = s.applied ++ [entry.assignment] ∧
      s'.allocated = s.allocated := by
  have hZero : entry.ecount ≠ 0 := by omega
  have hLess : entry.ecount - 1 = 0 := by omega
  have hUpdate := hHolds.update { entry with ecount := entry.ecount - 1 }
  rcases hUpdate.unlink with ⟨ctls, hWrite, hUnlinked⟩
  refine
    ⟨{ s with
        event_ctls := ctls
        applied := s.applied ++ [entry.assignment] },
      ?_, hUnlinked, hLast, rfl, rfl⟩
  rw [walk, hHolds.read]
  simp only [if_neg hZero, if_pos hLess, hQuiet, times, bind,
    Except.bind, hUpdate.read, writeLast, hLast, hWrite]

/-
  A netlist that triggers the event again starts a walk at the
  head while the entry, with count zero, is still linked.
-/
theorem walk_triggers (fuel : Nat) (hHolds : s.event_ctls.Holds (A ++ (c, entry) :: B))
    (hOne : entry.ecount = 1) (hTriggers : netlist (s.applied ++ [entry.assignment]) ≠ 0) (hStuck :
      ∀ (s' r : WaitableHooks),
        s'.event_ctls.Holds (A ++ (c, { entry with ecount := 0 }) :: B) →
        s'.last = none →
        walk netlist fuel s' s'.event_ctls.head ≠ .ok r)
    (r : WaitableHooks) : walk netlist (fuel + 1) s (some c) ≠ .ok r := by
  have hZero : entry.ecount ≠ 0 := by omega
  have hLess : entry.ecount - 1 = 0 := by omega
  have hUpdate := hHolds.update { entry with ecount := entry.ecount - 1 }
  rcases Nat.exists_eq_succ_of_ne_zero hTriggers with ⟨k, hk⟩
  unfold walk
  rw [hHolds.read]
  simp only [if_neg hZero, if_pos hLess, hk, times]
  intro hOk
  have hNested :=
    hStuck
      { s with
        event_ctls := s.event_ctls.put c ⟨first B, { entry with ecount := entry.ecount - 1 }⟩
        applied := s.applied ++ [entry.assignment]
        last := none }
  rw [hLess] at hUpdate
  cases hRun :
      walk netlist fuel
        { s with
          event_ctls := s.event_ctls.put c ⟨first B, { entry with ecount := entry.ecount - 1 }⟩
          applied := s.applied ++ [entry.assignment]
          last := none }
        (s.event_ctls.put c
          ⟨first B,
            { entry with ecount := entry.ecount - 1 }⟩).head with
  | error fault =>
    simp only [hRun] at hOk
    cases hOk
  | ok s' => grind

----
-- Walks
----

variable {B A : List (Nat × Evctl)} {s : WaitableHooks} {fuel : Nat}

/-
  A walk over entries that are not at zero, in a netlist that
  does not trigger the event again.
-/
theorem walk_quiet (hHolds : s.event_ctls.Holds (A ++ B))
    (hLast : s.last = slotAfter A) (hCounts : ∀ p ∈ B, p.2.ecount ≠ 0)
    (hQuiet : QuietWalk netlist s.applied (due B)) (hFuel : B.length < fuel) :
    ∃ s',
      walk netlist fuel s (first B) = .ok s' ∧
      s'.Pending (A ++ counted B) ∧
      s'.applied = s.applied ++ due B ∧
      s'.allocated = s.allocated := by
  induction B generalizing A s fuel with
  | nil =>
    rcases Nat.exists_eq_succ_of_ne_zero (Nat.ne_zero_of_lt hFuel) with ⟨fuel, rfl⟩
    refine ⟨s, rfl, ⟨hHolds, ?_⟩, ?_, rfl⟩
    · rw [counted, List.filterMap_nil, List.append_nil]
      exact hLast
    · rw [due, List.filterMap_nil, List.append_nil]
  | cons p B ih =>
    rcases p with ⟨c, entry⟩
    rcases Nat.exists_eq_succ_of_ne_zero (Nat.ne_zero_of_lt hFuel) with ⟨fuel, rfl⟩
    have hZero : entry.ecount ≠ 0 := hCounts (c, entry) List.mem_cons_self
    have hRest : ∀ p ∈ B, p.2.ecount ≠ 0 := fun p hp => hCounts p (List.mem_cons_of_mem _ hp)
    have hShorter : B.length < fuel := Nat.lt_of_succ_lt_succ hFuel
    rw [due_cons] at hQuiet
    rw [due_cons, counted_cons]
    by_cases hOne : entry.ecount = 1
    · rw [if_pos hOne] at hQuiet
      rw [if_pos hOne, if_pos hOne]
      rw [quietWalk_cons] at hQuiet
      rcases walk_applies fuel hHolds hLast hOne hQuiet.1 with
        ⟨s₁, hStep, hHolds₁, hLast₁, hApplied₁, hAlloc₁⟩
      rw [← hApplied₁] at hQuiet
      rcases ih hHolds₁ hLast₁ hRest hQuiet.2 hShorter with ⟨s', hWalk, hPending, hApplied, hAlloc⟩
      refine ⟨s', hStep.trans hWalk, hPending, ?_, hAlloc.trans hAlloc₁⟩
      rw [hApplied, hApplied₁, List.append_assoc]
      rfl
    · rw [if_neg hOne] at hQuiet
      rw [if_neg hOne, if_neg hOne]
      rcases walk_keeps netlist fuel hHolds hZero hOne
        with ⟨s₁, hStep, hHolds₁, hLast₁, hApplied₁, hAlloc₁⟩
      rw [← hApplied₁] at hQuiet
      rcases ih hHolds₁ hLast₁ hRest hQuiet hShorter with ⟨s', hWalk, hPending, hApplied, hAlloc⟩
      refine ⟨s', hStep.trans hWalk, ?_, ?_, hAlloc.trans hAlloc₁⟩
      · rw [List.append_assoc] at hPending
        exact hPending
      · rw [hApplied, hApplied₁]

/-
  A walk towards an entry with count zero does not come to an
  end: it fails there if it has not failed before.
-/
theorem walk_stuck {C : List (Nat × Evctl)}
    (hHolds : s.event_ctls.Holds (A ++ (B ++ (c, entry) :: C)))
    (hLast : s.last = slotAfter A) (hZero : entry.ecount = 0) (r : WaitableHooks) :
    walk netlist fuel s (first (B ++ (c, entry) :: C)) ≠ .ok r := by
  induction fuel generalizing A B C c entry s r with
  | zero =>
    intro hOk
    cases hOk
  | succ fuel ih =>
    cases B with
    | nil =>
      show walk netlist (fuel + 1) s (some c) ≠ .ok r
      unfold walk
      rw [hHolds.read]
      simp only [if_pos hZero]
      intro hOk
      cases hOk
    | cons p B =>
      rcases p with ⟨b, first⟩
      show walk netlist (fuel + 1) s (some b) ≠ .ok r
      by_cases hFirst : first.ecount = 0
      · unfold walk
        rw [hHolds.read]
        grind
      · by_cases hOne : first.ecount = 1
        · by_cases hQuiet : netlist (s.applied ++ [first.assignment]) = 0
          · rcases walk_applies fuel hHolds hLast hOne hQuiet
              with ⟨s₁, hStep, hHolds₁, hLast₁, _, _⟩
            rw [hStep]
            exact ih hHolds₁ hLast₁ hZero r
          · apply walk_triggers fuel hHolds hOne hQuiet
            intro s' r' hHolds' hLast'
            rw [hHolds'.head]
            exact ih (A := []) hHolds' hLast' rfl r'
        · rcases walk_keeps netlist fuel hHolds
            hFirst hOne
            with ⟨s₁, hStep, hHolds₁, hLast₁, _, _⟩
          rw [hStep]
          exact ih hHolds₁ hLast₁ hZero r

/- A walk that comes to its end was a quiet one. -/
theorem quiet_of_walk {r : WaitableHooks}
    (hHolds : s.event_ctls.Holds (A ++ B)) (hLast : s.last = slotAfter A)
    (hOk : walk netlist fuel s (first B) = .ok r) : QuietWalk netlist s.applied (due B) := by
  induction B generalizing A s fuel with
  | nil =>
    intro i hi
    cases hi
  | cons p B ih =>
    rcases p with ⟨c, entry⟩
    cases fuel with
    | zero => cases hOk
    | succ fuel =>
      rw [due_cons]
      by_cases hZero : entry.ecount = 0
      · exact absurd hOk (walk_stuck (B := []) hHolds hLast hZero r)
      · by_cases hOne : entry.ecount = 1
        · rw [if_pos hOne, quietWalk_cons]
          by_cases hQuiet : netlist (s.applied ++ [entry.assignment]) = 0
          · rcases walk_applies fuel hHolds hLast hOne hQuiet
              with ⟨s₁, hStep, hHolds₁, hLast₁, hApplied, _⟩
            have hNext := ih hHolds₁ hLast₁ (hStep.symm.trans hOk)
            rw [hApplied] at hNext
            exact ⟨hQuiet, hNext⟩
          · refine absurd hOk (walk_triggers fuel hHolds hOne hQuiet ?_ r)
            intro s' r' hHolds' hLast'
            rw [hHolds'.head]
            exact walk_stuck (A := []) hHolds' hLast' rfl r'
        · rw [if_neg hOne]
          rcases walk_keeps netlist fuel hHolds
            hZero hOne
            with ⟨s₁, hStep, hHolds₁, hLast₁, hApplied, _⟩
          have hNext := ih hHolds₁ hLast₁ (hStep.symm.trans hOk)
          rw [hApplied] at hNext
          exact hNext

end WaitableHooks

end EpicSim
