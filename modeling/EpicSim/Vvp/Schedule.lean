import EpicSim.Lib.CircularList
import EpicSim.Lib.DeltaList
import Mathlib.Algebra.Group.Nat.Defs

/-
  The stratified event queue and its simulation loop.

  Events are cells of a heap, linked in circular queues that
  each time cell knows by their tails.  The code an event
  runs is a client of the scheduler: it changes a world of
  its own and makes a list of scheduling calls.  The loop is
  cut into steps, with one call for each step, so that every
  state inside a running event is a state of the run.  The
  simulation is never finished by a call.
-/

----
-- Events And Time Cells
----

namespace EpicSim

/- The queues of a time step, `event_queue_t`. -/
inductive EventQueueT where
| seqStart : EventQueueT
| seqActive : EventQueueT
| seqInactive : EventQueueT
| seqNbassign : EventQueueT
| seqRwsync : EventQueueT
| seqRosync : EventQueueT
| delThread : EventQueueT
deriving DecidableEq, Repr

/- A time cell: for each queue its last event, if any. -/
abbrev EventTime := EventQueueT → Option Nat

namespace EventTime

/- A new cell, with all queues empty. -/
def new : EventTime := fun _ => none

/- Make another queue the active one. -/
def promoteFrom (ctim : EventTime) (q : EventQueueT) : EventTime :=
  Function.update (Function.update ctim .seqActive (ctim q)) q none

/- Without active events, advance the event queues. -/
def promote (ctim : EventTime) : EventTime :=
  if ctim .seqActive = none then
    let ctim := ctim.promoteFrom .seqInactive
    if ctim .seqActive = none then
      let ctim := ctim.promoteFrom .seqNbassign
      if ctim .seqActive = none then
        ctim.promoteFrom .seqRwsync
      else ctim
    else ctim
  else ctim

/- The queue that is activated when the queues advance. -/
def activated (ctim : EventTime) : Option EventQueueT :=
  if ctim .seqActive ≠ none then none
  else if ctim .seqInactive ≠ none then some .seqInactive
  else if ctim .seqNbassign ≠ none then some .seqNbassign
  else if ctim .seqRwsync ≠ none then some .seqRwsync
  else some .seqRosync

end EventTime

/- Where the simulation loop stands. -/
inductive Phase where
| init : Phase
| loopTop : Phase
| stopped : Phase
| startLoop : Phase
| dispatch : Phase
| pull : Phase
| running : Phase
| rosyncLoop : Phase
| delThreadLoop : Phase
| done : Phase
| aborted : Phase
deriving DecidableEq, Repr

/- What running code can ask of the scheduler. -/
inductive SchedCall (ε : Type*) where
| scheduleEvent :
    ε → Nat → EventQueueT → SchedCall ε
| scheduleEventPush : ε → SchedCall ε
| scheduleStop : SchedCall ε
| scheduleSingleStep : SchedCall ε

/- The code that the loop runs. -/
inductive Code (ε : Type*) where
| event : ε → Code ε
| nextSimTime : Code ε
| stopHandler : Code ε

/-
  What the code does, given the time and whether the
  scheduler is at the read-only synchronisation.
-/
abbrev Client (σ ε : Type*) :=
  Code ε → Nat → Bool → σ → σ × List (SchedCall ε)

/-
  The record of a scheduling call: the event, how and when
  it was scheduled, and its due time without wraparound.
-/
structure Scheduled where
  id : Nat
  queue : EventQueueT
  push : Bool
  phase : Phase
  time : Nat
  delay : Nat
  due : Nat
deriving DecidableEq, Repr

/- The history of a run; the scheduler never reads it. -/
inductive Entry where
| scheduled : Scheduled → Entry
| activated (queue : EventQueueT) (due : Nat) : Entry
| executed (id time due : Nat) : Entry
| deleted (due : Nat) : Entry
deriving DecidableEq, Repr

/-
  The scheduler and the world of its client.  `fresh` counts
  the events made, `calls` are the calls that the running
  code has still to make, `elapsed` is the time without
  wraparound and `trace` the history, latest entry first.
-/
structure Scheduler (σ ε : Type*) where
  world : σ
  next : Nat → Nat
  obj : Nat → Option ε
  fresh : Nat
  schedList : List (DeltaCell EventTime)
  scheduleTime : Nat
  simAtRosync : Bool
  stoppedFlag : Bool
  singleStepFlag : Bool
  phase : Phase
  calls : List (SchedCall ε)
  elapsed : Nat
  trace : List Entry

----
-- Scheduling Functions
----

open CircularList

namespace Scheduler

variable {σ ε : Type*}

/- The record of a call made now. -/
def record (s : Scheduler σ ε) (q : EventQueueT) (push : Bool) (delay : Nat) : Scheduled where
  id := s.fresh
  queue := q
  push := push
  phase := s.phase
  time := s.scheduleTime
  delay := delay
  due := s.elapsed + delay

/-
  `schedule_event_`.  The inactive queue asserts that nothing
  of the delay is left.
-/
def scheduleEvent (s : Scheduler σ ε) (obj : ε) (delay : Nat) (q : EventQueueT)
    (push : Bool) : Scheduler σ ε :=
  let cur := s.fresh
  let place := DeltaList.locate EventTime.new delay s.schedList
  let ctim := place.cell.body
  if q = .seqInactive ∧ place.rest ≠ 0 then
    { s with phase := .aborted }
  else
    let linked := enqueue s.next (ctim q) cur
    { s with
      next := linked.1
      obj := Function.update s.obj cur (some obj)
      fresh := cur + 1
      schedList := place.fill (Function.update ctim q linked.2)
      trace := .scheduled (s.record q push delay) :: s.trace }

/- `schedule_event_push_`: in front of the active events. -/
def scheduleEventPush (s : Scheduler σ ε) (obj : ε) : Scheduler σ ε :=
  match s.schedList with
  | [] => s.scheduleEvent obj 0 .seqActive true
  | ctim :: after =>
    if 0 < ctim.delay then
      s.scheduleEvent obj 0 .seqActive true
    else
      let cur := s.fresh
      let linked := pushFront s.next
        (ctim.body .seqActive) cur
      { s with
        next := linked.1
        obj := Function.update s.obj cur (some obj)
        fresh := cur + 1
        schedList := { ctim with body := Function.update ctim.body .seqActive linked.2 } :: after
        trace := .scheduled (s.record .seqActive true 0) :: s.trace }

/- Make one call. -/
def perform (s : Scheduler σ ε) : SchedCall ε → Scheduler σ ε
| .scheduleEvent obj delay q => s.scheduleEvent obj delay q false
| .scheduleEventPush obj => s.scheduleEventPush obj
| .scheduleStop => { s with stoppedFlag := true }
| .scheduleSingleStep => { s with singleStepFlag := true }

end Scheduler

end EpicSim

----
-- The Simulation Loop
----

namespace EpicSim

open CircularList

namespace Scheduler

variable {σ ε : Type*}

/- Let code run; its calls are made in the steps that follow. -/
def runCode (client : Client σ ε) (code : Code ε) (s : Scheduler σ ε) : Scheduler σ ε :=
  let result := client code s.scheduleTime s.simAtRosync s.world
  { s with
    world := result.1
    calls := result.2 }

/- Run an event; a dangling pointer would abort. -/
def runRun (client : Client σ ε) (cur : Nat) (s : Scheduler σ ε) : Scheduler σ ε :=
  match s.obj cur with
  | none => { s with phase := .aborted }
  | some obj =>
    runCode client (.event obj)
      { s with trace := .executed cur s.scheduleTime s.elapsed :: s.trace }

/- The first cell with another queue. -/
def setQueue (s : Scheduler σ ε) (ctim : DeltaCell EventTime)
    (after : List (DeltaCell EventTime)) (q : EventQueueT)
    (links : (Nat → Nat) × Option Nat) : Scheduler σ ε :=
  { s with
    next := links.1
    schedList := { ctim with body := Function.update ctim.body q links.2 } :: after }

/-
  One turn of a loop that drains a queue of the first cell,
  with what follows when the queue is empty.
-/
def drain (client : Client σ ε) (q : EventQueueT) (leave : Scheduler σ ε → Scheduler σ ε)
    (s : Scheduler σ ε) : Scheduler σ ε :=
  match s.schedList with
  | [] => { s with phase := .aborted }
  | ctim :: after =>
    match ctim.body q with
    | none => leave s
    | some tail =>
      let pulled := pull s.next tail
      runRun client pulled.1 (s.setQueue ctim after q pulled.2)

/- The time advances to the first cell. -/
def advance (client : Client σ ε) (ctim : DeltaCell EventTime) (after : List (DeltaCell EventTime))
    (s : Scheduler σ ε) : Scheduler σ ε :=
  runCode client .nextSimTime
    { s with
      scheduleTime := (s.scheduleTime + ctim.delay) % 2 ^ 64
      elapsed := s.elapsed + ctim.delay
      schedList := { ctim with delay := 0 } :: after
      phase := .startLoop }

/- The history of an advance of the queues. -/
def activate (s : Scheduler σ ε) (ctim : EventTime) : List Entry :=
  match ctim.activated with
  | none => s.trace
  | some q => .activated q s.elapsed :: s.trace

/- Advance the event queues of the first cell. -/
def advanceQueues (s : Scheduler σ ε) : Scheduler σ ε :=
  match s.schedList with
  | [] => { s with phase := .aborted }
  | ctim :: after =>
    let body := ctim.body.promote
    let s :=
      { s with
        schedList := { ctim with body := body } :: after
        trace := s.activate ctim.body }
    if body .seqActive = none then
      { s with phase := .rosyncLoop, simAtRosync := true }
    else { s with phase := .pull }

/- The end of `run_rosync`: delete the time cell. -/
def deleteCell (s : Scheduler σ ε) : Scheduler σ ε :=
  { s with
    schedList := s.schedList.tail
    phase := .loopTop
    trace := .deleted s.elapsed :: s.trace }

/- The single-step flag stops the loop after this event. -/
def checkSingleStep (s : Scheduler σ ε) : Scheduler σ ε :=
  if s.singleStepFlag then
    { s with stoppedFlag := true, singleStepFlag := false }
  else s

/- The top of the loop. -/
def loopTop (client : Client σ ε) (s : Scheduler σ ε) : Scheduler σ ε :=
  match s.schedList with
  | [] => { s with phase := .done }
  | ctim :: after =>
    if s.stoppedFlag then
      runCode client .stopHandler { s with stoppedFlag := false, phase := .stopped }
    else if 0 < ctim.delay then
      s.advance client ctim after
    else { s with phase := .dispatch }

/- One step of the loop when no calls are left to make. -/
def loopStep (client : Client σ ε) (s : Scheduler σ ε) : Scheduler σ ε :=
  match s.phase with
  | .init => { s with phase := .loopTop }
  | .loopTop => s.loopTop client
  | .stopped => { s with phase := .loopTop }
  | .startLoop => s.drain client .seqStart (fun s => { s with phase := .dispatch })
  | .dispatch => s.advanceQueues
  | .pull =>
    { s.checkSingleStep with phase := .running }.drain client
      .seqActive (fun s => { s with phase := .aborted })
  | .running => { s with phase := .loopTop }
  | .rosyncLoop =>
    s.drain client .seqRosync (fun s => { s with phase := .delThreadLoop, simAtRosync := false })
  | .delThreadLoop => s.drain client .delThread deleteCell
  | .done => s
  | .aborted => s

/- One step of the simulation. -/
def step (client : Client σ ε) (s : Scheduler σ ε) : Scheduler σ ε :=
  if s.phase = .aborted then s
  else
    match s.calls with
    | [] => s.loopStep client
    | call :: calls => { s with calls := calls }.perform call

/- The scheduler before the loop, with the calls made there. -/
def start (world : σ) (calls : List (SchedCall ε)) : Scheduler σ ε where
  world := world
  next := id
  obj := fun _ => none
  fresh := 0
  schedList := []
  scheduleTime := 0
  simAtRosync := false
  stoppedFlag := false
  singleStepFlag := false
  phase := .init
  calls := calls
  elapsed := 0
  trace := []

/- `schedule_simulate`, after a number of steps. -/
def simulate (client : Client σ ε) (world : σ) (calls : List (SchedCall ε))
    (steps : Nat) : Scheduler σ ε :=
  (step client)^[steps] (start world calls)

end Scheduler

end EpicSim
