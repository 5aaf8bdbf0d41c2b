import EpicSim.Lib.LinkedHeap

/-
  Value-change callbacks of one object.

  A run walks the list with the pointers `next` and `prev` and
  calls the routines on its way.  A routine may add callbacks,
  remove callbacks and change the value of the object, which
  starts another run on top of the one it was called by.  What
  the user does, and which callbacks are ready, is chosen step
  by step.
-/

namespace EpicSim

open List (mem_append mem_cons map_nil)

----
-- Runs and Routines
----

/- The loop of `run_vpi_callbacks`, before its test. -/
structure CallbackWalk where
  run : Nat
  next : Option Nat
  prev : Option Nat

/- A routine that a run has called. -/
structure CallbackRoutine where
  run : Nat
  cur : Nat
  next : Option Nat

/- A callback that a run came to with its routine not null,
   and whether it was ready. -/
structure CallbackVisit where
  run : Nat
  callback : Nat
  ready : Bool
deriving DecidableEq

/- What user code does next. -/
inductive UserCommand where
| add
| remove (handle : Nat)
| change
| ret
deriving DecidableEq

/-
  A node is touched after it was deleted, an assertion fails,
  or the user removes a callback that does not exist.
-/
inductive RunFault where
| freed
| assertion
| badHandle
deriving DecidableEq

/-
  The list, where a node holds whether its `cb_rtn` is not
  null; the numbers of callbacks and of runs made so far; the
  walk that is going on, if user code is not running; and the
  routines that have not returned, the last one first.  Visits
  and calls, each by a run, are kept in their order.
-/
structure ValueCallbacks where
  vpi_callbacks : LinkedHeap Bool
  allocated : Nat
  runs : Nat
  walking : Option CallbackWalk
  routines : List CallbackRoutine
  visits : List CallbackVisit
  calls : List (Nat × Nat)
  removed : List Nat

namespace ValueCallbacks

open LinkedHeap

def start : ValueCallbacks :=
  { vpi_callbacks := LinkedHeap.empty
    allocated := 0
    runs := 0
    walking := none
    routines := []
    visits := []
    calls := []
    removed := [] }

/- Push a new callback onto the list. -/
def addVpiCallback (s : ValueCallbacks) : ValueCallbacks :=
  let cb := s.allocated
  let l := s.vpi_callbacks
  { s with
    vpi_callbacks := { l.put cb ⟨l.head, true⟩ with head := some cb }
    allocated := cb + 1 }

/- Clear the routine of a callback. -/
def vpiRemoveCb (s : ValueCallbacks) (handle : Nat) : Except RunFault ValueCallbacks :=
  match s.vpi_callbacks.heap handle with
  | none => .error .badHandle
  | some node =>
    .ok
      { s with
        vpi_callbacks := s.vpi_callbacks.put handle { node with data := false }
        removed := handle :: s.removed }

/- Start a run at the head of the list. -/
def runVpiCallbacks (s : ValueCallbacks) : ValueCallbacks :=
  { s with
    runs := s.runs + 1
    walking := some ⟨s.runs, s.vpi_callbacks.head, none⟩ }

def command (s : ValueCallbacks) : UserCommand → Except RunFault ValueCallbacks
| .add => .ok s.addVpiCallback
| .remove handle => s.vpiRemoveCb handle
| .change => .ok s.runVpiCallbacks
| .ret =>
  match s.routines with
  | [] => .ok s
  | f :: routines =>
    .ok
      { s with
        walking := some ⟨f.run, f.next, some f.cur⟩
        routines := routines }

/- The slot before a node that is to be deleted. -/
def slotBefore (s : ValueCallbacks) (w : CallbackWalk) (cur : Nat) : Except RunFault (Option Nat) :=
  match w.prev with
  | none => .ok none
  | some prev =>
    match s.vpi_callbacks.heap prev with
    | none => .error .freed
    | some node =>
      if node.next = some cur then .ok (some prev)
      else .error .assertion

/- Unlink a callback without a routine and delete it. -/
def reap (s : ValueCallbacks) (w : CallbackWalk) (cur : Nat)
    (next : Option Nat) : Except RunFault ValueCallbacks := do
  let slot ← s.slotBefore w cur
  match s.vpi_callbacks.write slot next with
  | none => .error .freed
  | some l =>
    .ok
      { s with
        vpi_callbacks := l.free cur
        walking := some { w with next := next } }

/- The body of the loop of `run_vpi_callbacks`. -/
def visit (s : ValueCallbacks) (ready : Bool) (w : CallbackWalk)
    (cur : Nat) : Except RunFault ValueCallbacks :=
  match s.vpi_callbacks.heap cur with
  | none => .error .freed
  | some ⟨next, true⟩ =>
    let s := { s with visits := s.visits ++ [CallbackVisit.mk w.run cur ready] }
    if ready then
      .ok
        { s with
          calls := s.calls ++ [(w.run, cur)]
          walking := none
          routines := ⟨w.run, cur, next⟩ :: s.routines }
    else .ok { s with walking := some ⟨w.run, next, some cur⟩ }
  | some ⟨next, false⟩ => s.reap w cur next

/-
  One step: of the walk, where `ready` is what
  `test_value_callback_ready` answers, or of user code.
-/
def step (ready : Bool) (c : UserCommand) (s : ValueCallbacks) : Except RunFault ValueCallbacks :=
  match s.walking with
  | none => s.command c
  | some w =>
    match w.next with
    | none => .ok { s with walking := none }
    | some cur => s.visit ready w cur

----
-- Pointers that Runs Hold
----

/- The nodes that a run uses again when its routine returns. -/
def CallbackRoutine.held (f : CallbackRoutine) : List Nat :=
  f.cur :: f.next.toList

/-
  The step does not delete a node that a run holds which is
  waiting for a routine.
-/
def Careful (s : ValueCallbacks) : Prop :=
  ∀ w cur next,
    s.walking = some w →
    w.next = some cur →
    s.vpi_callbacks.heap cur = some ⟨next, false⟩ →
    ∀ f ∈ s.routines, cur ∉ CallbackRoutine.held f

/- The runs that have not come to their end. -/
def active (s : ValueCallbacks) : List Nat :=
  s.walking.toList.map CallbackWalk.run ++ s.routines.map CallbackRoutine.run

/- The list is linked, and ready visits are calls. -/
structure Linked (s : ValueCallbacks) (L : List (Nat × Bool)) : Prop where
  holds : s.vpi_callbacks.Holds L
  bound : ∀ c ∈ addresses L, c < s.allocated
  marks : ∀ c x, (c, x) ∈ L → (x = false ↔ c ∈ s.removed)
  removed : ∀ c ∈ s.removed, c < s.allocated
  walk : ∀ w, s.walking = some w → w.prev = none → w.next = s.vpi_callbacks.head
  routine : ∀ f ∈ s.routines, ∀ c, f.next = some c → c < s.allocated
  calls : s.calls = (s.visits.filter CallbackVisit.ready).map fun v => (v.run, v.callback)
  runs : ∀ r ∈ s.active, r < s.runs
  distinct : s.active.Nodup
  visits : ∀ v ∈ s.visits, v.run < s.runs

/- The nodes that a walk and the waiting runs come from are on
   the list, before those that they go to. -/
structure Kept (s : ValueCallbacks) : Prop where
  walk : ∀ w prev, s.walking = some w → w.prev = some prev →
    ∃ x, s.vpi_callbacks.heap prev = some ⟨w.next, x⟩
  routine : ∀ f ∈ s.routines, ∃ x, s.vpi_callbacks.heap f.cur = some ⟨f.next, x⟩

theorem kept_start : start.Kept where
  walk := by
    intro w prev hWalk
    cases hWalk
  routine := by
    intro f hMem
    cases hMem

theorem linked_start : start.Linked [] where
  holds := holds_empty
  bound := by
    intro c hMem
    cases hMem
  marks := by
    intro c x hMem
    cases hMem
  removed := by
    intro c hMem
    cases hMem
  walk := by
    intro w hWalk
    cases hWalk
  routine := by
    intro f hMem
    cases hMem
  calls := rfl
  runs := by
    intro r hMem
    cases hMem
  distinct := List.nodup_nil
  visits := by
    intro v hMem
    cases hMem

----
-- What a Step Can Do
----

/- How a callback is unlinked. -/
theorem reap_cases {s s' : ValueCallbacks} {w : CallbackWalk} {cur : Nat} {next : Option Nat}
    (hOk : s.reap w cur next = .ok s') :
    (∀ prev, w.prev = some prev → ∃ x, s.vpi_callbacks.heap prev = some ⟨some cur, x⟩) ∧
    ∃ l,
      s.vpi_callbacks.write w.prev next = some l ∧
      s' =
        { s with
          vpi_callbacks := l.free cur
          walking := some { w with next := next } } := by
  unfold reap slotBefore at hOk
  cases hPrev : w.prev with
  | none =>
    rw [hPrev] at hOk
    cases hOk
    refine ⟨?_, _, rfl, rfl⟩
    intro prev hSome
    cases hSome
  | some prev =>
    rw [hPrev] at hOk
    cases hNode : s.vpi_callbacks.heap prev with
    | none =>
      simp only [hNode] at hOk
      cases hOk
    | some node =>
      simp only [hNode] at hOk
      by_cases hNext : node.next = some cur
      · rw [if_pos hNext] at hOk
        simp only [bind, Except.bind, write, hNode] at hOk
        cases hOk
        refine ⟨?_, _, ?_, rfl⟩
        · intro prev' hSome
          cases hSome
          exact ⟨node.data, by rw [hNode, ← hNext]⟩
        · simp only [write, hNode]
      · rw [if_neg hNext] at hOk
        cases hOk

/- What a visit can do. -/
theorem visit_cases {s s' : ValueCallbacks} {ready : Bool} {w : CallbackWalk} {cur : Nat}
    (hOk : s.visit ready w cur = .ok s') :
    ∃ next,
      (s.vpi_callbacks.heap cur = some ⟨next, true⟩ ∧
        ready = true ∧
        s' =
          { s with
            visits := s.visits ++ [⟨w.run, cur, true⟩]
            calls := s.calls ++ [(w.run, cur)]
            walking := none
            routines := ⟨w.run, cur, next⟩ :: s.routines }) ∨
      (s.vpi_callbacks.heap cur = some ⟨next, true⟩ ∧
        ready = false ∧
        s' =
          { s with
            visits := s.visits ++ [⟨w.run, cur, false⟩]
            walking := some ⟨w.run, next, some cur⟩ }) ∨
      (s.vpi_callbacks.heap cur = some ⟨next, false⟩ ∧
        s.reap w cur next = .ok s') := by
  unfold visit at hOk
  cases hNode : s.vpi_callbacks.heap cur with
  | none =>
    rw [hNode] at hOk
    cases hOk
  | some node => grind

----
-- Steps of a Walk
----

variable {s s' : ValueCallbacks}
variable {L : List (Nat × Bool)}
variable {w : CallbackWalk}
variable {cur : Nat}
variable {next : Option Nat}

/- The walk stands before a node, behind the one it is from. -/
theorem Linked.here (hLinked : s.Linked L) (hWalk : s.walking = some w)
    (hNext : w.next = some cur)
    (hPrev : ∀ prev, w.prev = some prev → ∃ x, s.vpi_callbacks.heap prev = some ⟨some cur, x⟩) :
    ∃ A x B,
      L = A ++ (cur, x) :: B ∧
      slotAfter A = w.prev := by
  cases hSlot : w.prev with
  | none =>
    have hFirst := hLinked.walk w hWalk hSlot
    rw [hNext, hLinked.holds.head] at hFirst
    cases L with
    | nil => cases hFirst
    | cons entry B =>
      rcases entry with ⟨a, x⟩
      cases hFirst
      exact ⟨[], x, B, rfl, rfl⟩
  | some prev =>
    rcases hPrev prev hSlot with ⟨y, hRead⟩
    rcases hLinked.holds.split hRead with ⟨A, C, rfl, hFirst⟩
    cases C with
    | nil => cases hFirst
    | cons entry B =>
      rcases entry with ⟨a, x⟩
      cases hFirst
      refine ⟨A ++ [(prev, y)], x, B, ?_, ?_⟩
      · rw [List.append_assoc]
        rfl
      · exact slotAfter_concat A prev y

/- What a node has behind it is an old node. -/
theorem Linked.next_lt (hLinked : s.Linked L) {x : Bool}
    (hRead : s.vpi_callbacks.heap cur = some ⟨next, x⟩) :
    ∀ c, next = some c → c < s.allocated := by
  intro c hNext
  rcases hLinked.holds.split hRead with ⟨A, B, rfl, hFirst⟩
  apply hLinked.bound
  cases B with
  | nil => exact absurd (hFirst.trans hNext) (by simp [first])
  | cons entry B =>
    rw [hNext] at hFirst
    cases hFirst
    simp [addresses]

theorem Linked.end (hLinked : s.Linked L) :
    ({ s with walking := none } : ValueCallbacks).Linked L where
  holds := hLinked.holds
  bound := hLinked.bound
  marks := hLinked.marks
  removed := hLinked.removed
  walk := by
    intro w hWalk
    cases hWalk
  routine := hLinked.routine
  calls := hLinked.calls
  runs := by
    intro r hMem
    exact hLinked.runs r (List.mem_append_right _ hMem)
  distinct := hLinked.distinct.sublist (List.sublist_append_right _ _)
  visits := hLinked.visits

section

variable (hLinked : s.Linked L) (hWalk : s.walking = some w)

include hLinked hWalk

/- A visit is one of a run that is going on. -/
theorem Linked.visit (ready : Bool) :
    ∀ v ∈ s.visits ++ [⟨w.run, cur, ready⟩],
      CallbackVisit.run v < s.runs := by
  intro v hMem
  rcases mem_append.mp hMem with hOld | hNew
  · exact hLinked.visits v hOld
  · rw [List.mem_singleton] at hNew
    rw [hNew]
    apply hLinked.runs
    simp [active, hWalk]

/- The walk goes on behind a node that is not ready. -/
theorem Linked.pass :
    ({ s with
        visits := s.visits ++ [⟨w.run, cur, false⟩]
        walking := some ⟨w.run, next, some cur⟩ } :
      ValueCallbacks).Linked L where
  holds := hLinked.holds
  bound := hLinked.bound
  marks := hLinked.marks
  removed := hLinked.removed
  walk := by
    intro w' hWalk' hNone
    cases hWalk'
    cases hNone
  routine := hLinked.routine
  calls := by
    show s.calls = _
    rw [hLinked.calls, List.filter_append, List.filter_cons_of_neg (by simp), List.filter_nil,
      List.append_nil]
  runs := by
    have hRuns := hLinked.runs
    simp only [active, hWalk] at hRuns
    exact hRuns
  distinct := by
    have hDistinct := hLinked.distinct
    simp only [active, hWalk] at hDistinct
    exact hDistinct
  visits := hLinked.visit hWalk false

/- The routine of a node is called. -/
theorem Linked.call {x : Bool}
    (hRead : s.vpi_callbacks.heap cur = some ⟨next, x⟩) :
    ({ s with
        visits := s.visits ++ [⟨w.run, cur, true⟩]
        calls := s.calls ++ [(w.run, cur)]
        walking := none
        routines := ⟨w.run, cur, next⟩ :: s.routines } :
      ValueCallbacks).Linked L where
  holds := hLinked.holds
  bound := hLinked.bound
  marks := hLinked.marks
  removed := hLinked.removed
  walk := by
    intro w' hWalk'
    cases hWalk'
  routine := by
    intro f hMem
    rcases mem_cons.mp hMem with hNew | hOld
    · rw [hNew]
      exact hLinked.next_lt hRead
    · exact hLinked.routine f hOld
  calls := by
    show s.calls ++ _ = _
    rw [hLinked.calls, List.filter_append, List.filter_cons_of_pos rfl, List.map_append]
    rfl
  runs := by
    have hRuns := hLinked.runs
    simp only [active, hWalk] at hRuns
    exact hRuns
  distinct := by
    have hDistinct := hLinked.distinct
    simp only [active, hWalk] at hDistinct
    exact hDistinct
  visits := hLinked.visit hWalk true

end

/- A node without a routine is unlinked and deleted. -/
theorem Linked.reap {A B : List (Nat × Bool)} (hLinked : s.Linked (A ++ (cur, false) :: B))
    (hWalk : s.walking = some w) (hSlot : slotAfter A = w.prev)
    (hOk : s.reap w cur (first B) = .ok s') :
    s'.Linked (A ++ B) ∧
    s'.active = s.active := by
  rcases reap_cases hOk with ⟨_, l, hWrite, rfl⟩
  rw [← hSlot] at hWrite
  rcases hLinked.holds.unlink_write with ⟨l', hWrite', hHolds⟩
  rw [hWrite] at hWrite'
  cases hWrite'
  have hSub : (A ++ B).Sublist (A ++ (cur, false) :: B) :=
    (List.sublist_cons_self _ _).append_left A
  have hActive :
      ({ s with
          vpi_callbacks := l.free cur
          walking := some { w with next := first B } } :
        ValueCallbacks).active = s.active := by
    simp only [active, hWalk]
    rfl
  refine ⟨?_, hActive⟩
  constructor
  · exact hHolds
  · intro c hMem
    exact hLinked.bound c ((hSub.map Prod.fst).subset hMem)
  · intro c x hMem
    exact hLinked.marks c x (hSub.subset hMem)
  · exact hLinked.removed
  · intro w' hWalk' hNone
    cases hWalk'
    have hNil : slotAfter A = none := hSlot.trans hNone
    have hEmpty := eq_nil_of_slotAfter hNil
    rw [hHolds.head, hEmpty]
    rfl
  · exact hLinked.routine
  · exact hLinked.calls
  · rw [hActive]
    exact hLinked.runs
  · rw [hActive]
    exact hLinked.distinct
  · exact hLinked.visits

----
-- Steps of User Code
----

theorem Linked.add (hLinked : s.Linked L) (hUser : s.walking = none) :
    s.addVpiCallback.Linked ((s.allocated, true) :: L) := by
  have hFresh : s.allocated ∉ addresses L := fun hMem => Nat.lt_irrefl _ (hLinked.bound _ hMem)
  constructor
  · exact hLinked.holds.push hFresh true
  · intro c hMem
    rcases mem_cons.mp hMem with hNew | hOld
    · rw [hNew]
      exact Nat.lt_succ_self _
    · exact Nat.lt_succ_of_lt (hLinked.bound c hOld)
  · intro c x hMem
    rcases mem_cons.mp hMem with hNew | hOld
    · cases hNew
      constructor
      · intro hEq
        cases hEq
      · intro hRemoved
        exact absurd (hLinked.removed _ hRemoved) (Nat.lt_irrefl _)
    · exact hLinked.marks c x hOld
  · intro c hMem
    exact Nat.lt_succ_of_lt (hLinked.removed c hMem)
  · intro w hWalk
    have hNone : s.walking = some w := hWalk
    rw [hUser] at hNone
    cases hNone
  · intro f hMem c hNext
    exact Nat.lt_succ_of_lt (hLinked.routine f hMem c hNext)
  · exact hLinked.calls
  · exact hLinked.runs
  · exact hLinked.distinct
  · exact hLinked.visits

theorem Linked.remove {A B : List (Nat × Bool)} {handle : Nat} {x : Bool}
    (hLinked : s.Linked (A ++ (handle, x) :: B)) (hUser : s.walking = none)
    (hOk : s.vpiRemoveCb handle = .ok s') :
    s'.Linked (A ++ (handle, false) :: B) ∧
    s'.removed = handle :: s.removed ∧
    s'.allocated = s.allocated ∧
    s'.runs = s.runs ∧
    s'.walking = s.walking ∧
    s'.routines = s.routines ∧
    s'.visits = s.visits := by
  unfold vpiRemoveCb at hOk
  rw [hLinked.holds.read] at hOk
  cases hOk
  refine ⟨?_, rfl, rfl, rfl, rfl, rfl, rfl⟩
  have hApart := hLinked.holds.not_mem_left
  constructor
  · exact hLinked.holds.update false
  · intro c hMem
    apply hLinked.bound c
    simpa [addresses] using hMem
  · intro c y hMem
    by_cases hEq : c = handle
    · have hFalse : y = false := by
        rw [hEq] at hMem
        rcases mem_append.mp hMem with hLeft | hRight
        · exact absurd (List.mem_map_of_mem (f := Prod.fst) hLeft) hApart.1
        · rcases mem_cons.mp hRight with hHere | hLater
          · cases hHere
            rfl
          · exact absurd (List.mem_map_of_mem (f := Prod.fst) hLater) hApart.2
      grind
    · have hOld : (c, y) ∈ A ++ (handle, x) :: B := by grind
      rw [hLinked.marks c y hOld, mem_cons]
      grind
  · intro c hMem
    rcases mem_cons.mp hMem with hNew | hOld
    · rw [hNew]
      apply hLinked.bound
      simp [addresses]
    · exact hLinked.removed c hOld
  · grind
  · exact hLinked.routine
  · exact hLinked.calls
  · exact hLinked.runs
  · exact hLinked.distinct
  · exact hLinked.visits

theorem Linked.change (hLinked : s.Linked L) (hUser : s.walking = none) :
    s.runVpiCallbacks.Linked L := by
  have hOld := hLinked.runs
  simp only [active, hUser] at hOld
  constructor
  · exact hLinked.holds
  · exact hLinked.bound
  · exact hLinked.marks
  · exact hLinked.removed
  · intro w hWalk _
    cases hWalk
    rfl
  · exact hLinked.routine
  · exact hLinked.calls
  · intro r hMem
    rcases mem_cons.mp hMem with hNew | hBefore
    · rw [hNew]
      exact Nat.lt_succ_self _
    · exact Nat.lt_succ_of_lt (hOld r hBefore)
  · have hDistinct := hLinked.distinct
    simp only [active, hUser] at hDistinct
    exact List.nodup_cons.mpr ⟨fun hMem => Nat.lt_irrefl _ (hOld _ hMem), hDistinct⟩
  · intro v hMem
    exact Nat.lt_succ_of_lt (hLinked.visits v hMem)

theorem Linked.ret {f : CallbackRoutine} {routines : List CallbackRoutine}
    (hLinked : s.Linked L) (hUser : s.walking = none) (hTop : s.routines = f :: routines) :
    ({ s with
        walking := some ⟨f.run, f.next, some f.cur⟩
        routines := routines } : ValueCallbacks).Linked L where
  holds := hLinked.holds
  bound := hLinked.bound
  marks := hLinked.marks
  removed := hLinked.removed
  walk := by
    intro w hWalk hNone
    cases hWalk
    cases hNone
  routine := by
    intro g hMem
    apply hLinked.routine g
    rw [hTop]
    exact List.mem_cons_of_mem _ hMem
  calls := hLinked.calls
  runs := by
    have hRuns := hLinked.runs
    simp only [active, hUser, hTop] at hRuns
    exact hRuns
  distinct := by
    have hDistinct := hLinked.distinct
    simp only [active, hUser, hTop] at hDistinct
    exact hDistinct
  visits := hLinked.visits

----
-- Steps
----

/-
  What a step does to a linked state, and to the nodes of its
  list.
-/
inductive Moves (s : ValueCallbacks) (L : List (Nat × Bool)) :
    ValueCallbacks → List (Nat × Bool) → Prop where
| finish (w : CallbackWalk)
    (hWalk : s.walking = some w)
    (hNext : w.next = none) :
    Moves s L { s with walking := none } L
| pass (w : CallbackWalk) (cur : Nat) (next : Option Nat)
    (hWalk : s.walking = some w) (hNext : w.next = some cur)
    (hRead : s.vpi_callbacks.heap cur = some ⟨next, true⟩) :
    Moves s L
      { s with
        visits := s.visits ++ [⟨w.run, cur, false⟩]
        walking := some ⟨w.run, next, some cur⟩ }
      L
| call (w : CallbackWalk) (cur : Nat) (next : Option Nat)
    (hWalk : s.walking = some w) (hNext : w.next = some cur)
    (hRead : s.vpi_callbacks.heap cur = some ⟨next, true⟩) :
    Moves s L
      { s with
        visits := s.visits ++ [⟨w.run, cur, true⟩]
        calls := s.calls ++ [(w.run, cur)]
        walking := none
        routines := ⟨w.run, cur, next⟩ :: s.routines }
      L
| reap (w : CallbackWalk) (cur : Nat)
    (A B : List (Nat × Bool)) (l : LinkedHeap Bool) (hList : L = A ++ (cur, false) :: B)
    (hWalk : s.walking = some w) (hNext : w.next = some cur)
    (hSlot : slotAfter A = w.prev)
    (hFrame : ∀ c, c ≠ cur → w.prev ≠ some c → l.heap c = s.vpi_callbacks.heap c) :
    Moves s L
      { s with
        vpi_callbacks := l
        walking := some { w with next := first B } }
      (A ++ B)
| add
    (hUser : s.walking = none) :
    Moves s L s.addVpiCallback ((s.allocated, true) :: L)
| remove (handle : Nat) (x : Bool)
    (A B : List (Nat × Bool)) (l : LinkedHeap Bool) (hList : L = A ++ (handle, x) :: B)
    (hUser : s.walking = none)
    (hFrame : ∀ c next y, s.vpi_callbacks.heap c = some ⟨next, y⟩ →
      ∃ y', l.heap c = some ⟨next, y'⟩) :
    Moves s L
      { s with
        vpi_callbacks := l
        removed := handle :: s.removed }
      (A ++ (handle, false) :: B)
| change
    (hUser : s.walking = none) :
    Moves s L s.runVpiCallbacks L
| ret (f : CallbackRoutine) (routines : List CallbackRoutine)
    (hUser : s.walking = none)
    (hTop : s.routines = f :: routines) :
    Moves s L
      { s with
        walking := some ⟨f.run, f.next, some f.cur⟩
        routines := routines }
      L
| idle
    (hUser : s.walking = none)
    (hTop : s.routines = []) :
    Moves s L s L

/- A step of a linked state that touches no deleted node. -/
theorem Linked.step {ready : Bool} {c : UserCommand} (hLinked : s.Linked L)
    (hOk : step ready c s = .ok s') :
    ∃ L', s.Moves L s' L' ∧ s'.Linked L' := by
  unfold ValueCallbacks.step at hOk
  cases hWalk : s.walking with
  | none =>
    rw [hWalk] at hOk
    cases c with
    | add =>
      cases hOk
      exact ⟨_, Moves.add hWalk, hLinked.add hWalk⟩
    | remove handle =>
      cases hRead : s.vpi_callbacks.heap handle with
      | none =>
        simp only [command, vpiRemoveCb, hRead] at hOk
        cases hOk
      | some node =>
        rcases node with ⟨next, x⟩
        rcases hLinked.holds.split hRead with ⟨A, B, rfl, _⟩
        have hNext := (hLinked.remove hWalk hOk).1
        simp only [command, vpiRemoveCb, hRead] at hOk
        cases hOk
        refine ⟨_, Moves.remove handle x A B _ rfl hWalk ?_, hNext⟩
        intro c next' y hNode
        show ∃ y', (if c = handle then some _ else s.vpi_callbacks.heap c) = some ⟨next', y'⟩
        grind
    | change =>
      cases hOk
      exact ⟨_, Moves.change hWalk, hLinked.change hWalk⟩
    | ret =>
      cases hTop : s.routines with
      | nil =>
        simp only [command, hTop] at hOk
        cases hOk
        exact ⟨_, Moves.idle hWalk hTop, hLinked⟩
      | cons f routines =>
        simp only [command, hTop] at hOk
        cases hOk
        exact ⟨_, Moves.ret f routines hWalk hTop, hLinked.ret hWalk hTop⟩
  | some w =>
    rw [hWalk] at hOk
    cases hNext : w.next with
    | none =>
      simp only [hNext] at hOk
      cases hOk
      exact ⟨_, Moves.finish w hWalk hNext, hLinked.end⟩
    | some cur =>
      simp only [hNext] at hOk
      rcases visit_cases hOk with ⟨next, ⟨hRead, _, rfl⟩ | ⟨hRead, _, rfl⟩ | ⟨hRead, hReap⟩⟩
      · exact ⟨_, Moves.call w cur next hWalk hNext hRead, hLinked.call hWalk hRead⟩
      · exact ⟨_, Moves.pass w cur next hWalk hNext hRead, hLinked.pass hWalk⟩
      · rcases hLinked.here hWalk hNext (reap_cases hReap).1 with ⟨A, x, B, rfl, hSlot⟩
        have hHere := hLinked.holds.read
        rw [hRead] at hHere
        cases hHere
        have hAfter := (hLinked.reap hWalk hSlot hReap).1
        rcases reap_cases hReap with ⟨_, l, hWrite, rfl⟩
        refine ⟨_, Moves.reap w cur A B _ rfl hWalk hNext hSlot ?_, hAfter⟩
        intro c hne hOther
        rw [← write_heap hWrite hOther]
        exact if_neg hne

/- A careful step keeps what waiting runs hold. -/
theorem Kept.move {L' : List (Nat × Bool)} (hKept : s.Kept) (hLinked : s.Linked L)
    (hCareful : s.Careful) (hLinked' : s'.Linked L') (hMove : s.Moves L s' L') : s'.Kept := by
  cases hMove with
  | finish w hWalk hNext => exact ⟨fun w' prev hWalk' => (by cases hWalk'), hKept.routine⟩
  | pass w cur next hWalk hNext hRead =>
    refine ⟨fun w' prev hWalk' hPrev => ?_, hKept.routine⟩
    cases hWalk'
    cases hPrev
    exact ⟨_, hRead⟩
  | call w cur next hWalk hNext hRead =>
    refine ⟨fun w' prev hWalk' => (by cases hWalk'), fun f hMem => ?_⟩
    rcases mem_cons.mp hMem with hNew | hOld
    · rw [hNew]
      exact ⟨_, hRead⟩
    · exact hKept.routine f hOld
  | reap w cur A B l hList hWalk hNext hSlot hFrame =>
    subst hList
    constructor
    · intro w' prev hWalk' hPrev
      cases hWalk'
      rcases concat_of_slotAfter (hSlot.trans hPrev) with ⟨A', x, rfl⟩
      have hHolds := hLinked'.holds
      rw [List.append_assoc] at hHolds
      exact ⟨x, hHolds.read⟩
    · intro f hMem
      rcases hKept.routine f hMem with ⟨x, hNode⟩
      have hHeld := hCareful w cur (first B) hWalk hNext hLinked.holds.read f hMem
      rw [CallbackRoutine.held, mem_cons, not_or] at hHeld
      refine ⟨x, (hFrame f.cur (fun hEq => hHeld.1 hEq.symm) fun hEq => ?_).trans hNode⟩
      -- The node before the deleted one has it as its `next`.
      rcases hKept.walk w f.cur hWalk hEq with ⟨y, hBefore⟩
      grind
  | add hUser =>
    constructor
    · intro w prev hWalk
      rw [show s.walking = some w from hWalk] at hUser
      cases hUser
    · intro f hMem
      rcases hKept.routine f hMem with ⟨x, hNode⟩
      refine ⟨x, (if_neg fun hEq => ?_ : (if f.cur = s.allocated then some _ else
        s.vpi_callbacks.heap f.cur) = _).trans hNode⟩
      rw [hEq, hLinked.holds.heap_none
        (fun hOld => Nat.lt_irrefl _ (hLinked.bound _ hOld))] at hNode
      cases hNode
  | remove handle x A B l hList hUser hFrame =>
    refine ⟨fun w prev hWalk => ?_, fun f hMem => ?_⟩
    · grind
    · rcases hKept.routine f hMem with ⟨y, hNode⟩
      exact hFrame f.cur f.next y hNode
  | change hUser =>
    refine ⟨fun w prev hWalk hPrev => ?_, hKept.routine⟩
    cases hWalk
    cases hPrev
  | ret f routines hUser hTop =>
    have hRoutine := hKept.routine
    rw [hTop] at hRoutine
    refine ⟨fun w prev hWalk hPrev => ?_, fun g hMem => hRoutine g (List.mem_cons_of_mem _ hMem)⟩
    cases hWalk
    cases hPrev
    exact hRoutine f List.mem_cons_self
  | idle hUser hTop => exact hKept

/- Where these are kept no step touches a deleted node. -/
theorem Linked.no_fault {ready : Bool} {c : UserCommand} {fault : RunFault} (hLinked : s.Linked L)
    (hKept : s.Kept) (hError : ValueCallbacks.step ready c s = .error fault) :
    fault = .badHandle := by
  unfold ValueCallbacks.step at hError
  cases hWalk : s.walking with
  | none =>
    rw [hWalk] at hError
    cases c with
    | add => cases hError
    | remove handle =>
      cases hRead : s.vpi_callbacks.heap handle with
      | none =>
        simp only [command, vpiRemoveCb, hRead] at hError
        cases hError
        rfl
      | some node =>
        simp only [command, vpiRemoveCb, hRead] at hError
        cases hError
    | change => cases hError
    | ret =>
      cases hTop : s.routines with
      | nil =>
        simp only [command, hTop] at hError
        cases hError
      | cons f routines =>
        simp only [command, hTop] at hError
        cases hError
  | some w =>
    rw [hWalk] at hError
    cases hNext : w.next with
    | none =>
      simp only [hNext] at hError
      cases hError
    | some cur =>
      simp only [hNext] at hError
      have hPrev : ∀ prev, w.prev = some prev →
          ∃ x, s.vpi_callbacks.heap prev = some ⟨some cur, x⟩ := by
        intro prev hSome
        rw [← hNext]
        exact hKept.walk w prev hWalk hSome
      rcases hLinked.here hWalk hNext hPrev with ⟨A, x, B, rfl, hSlot⟩
      unfold ValueCallbacks.visit at hError
      rw [hLinked.holds.read] at hError
      cases x with
      | true => cases ready <;> cases hError
      | false =>
        rcases hLinked.holds.unlink_write with ⟨l, hWrite, _⟩
        rw [hSlot] at hWrite
        have hBefore :
            s.slotBefore w cur = .ok w.prev := by
          unfold slotBefore
          grind
        unfold ValueCallbacks.reap at hError
        simp only [hBefore, bind, Except.bind, hWrite] at hError
        cases hError

end ValueCallbacks

end EpicSim
