import EpicSim.Lib.DeferredUpdate
import EpicSim.Vvp.Vector4

/-
  Functions in continuous assignments.

  A change of an input starts a thread, that copies the inputs
  to the ports of the function, runs its code and propagates
  the result.  While there is a thread the changes start no
  other one: right for changes before the copy, and wrong for
  those after it that the function can tell.
-/

----
-- The Functor
----

namespace EpicSim

open VvpVector4

/- A variable that is a port of a function. -/
inductive UfuncPort where
| real
| vec (wid : Nat)
deriving DecidableEq

/- A value of a port, or of a function. -/
inductive UfuncValue (R : Type) where
| real (val : R)
| vec (val : VvpVector4)
deriving DecidableEq

/- How far the thread of a functor is. -/
inductive UfuncThread (R : Type) where
| scheduled
| called (args : List (UfuncValue R))
| ended (val : UfuncValue R)
| propagated (val : UfuncValue R)
deriving DecidableEq

/- `ufunc_core`, with the values that it has propagated. -/
structure UfuncCore (R : Type) where
  ports_ : List UfuncPort
  port_values_ : Nat → VvpVector4
  port_rvalues_ : Option (Nat → R)
  thread_ : Option (UfuncThread R)
  sent : List (UfuncValue R)

/- What may happen to a functor. -/
inductive UfuncEvent (R : Type) where
| vec4 (port : Nat) (bit : VvpVector4)
| real (port : Nat) (bit : R)
| trigger
| start
| finish
| propagate
| done

namespace UfuncCore

variable {R : Type}

/- The constructor: no vector has bits. -/
def new (ports : List UfuncPort) : UfuncCore R where
  ports_ := ports
  port_values_ := fun _ => fill 0 .x
  port_rvalues_ := none
  thread_ := none
  sent := []

/- `value_r`. -/
def valueR [Zero R] (core : UfuncCore R) (idx : Nat) : R :=
  match core.port_rvalues_ with
  | none => 0
  | some values => values idx

/- What `assign_bits_to_ports` copies to a port. -/
def portBits [Zero R] (core : UfuncCore R) (idx : Nat) : UfuncPort → UfuncValue R
| .real => .real (core.valueR idx)
| .vec wid =>
  let tmp_val := core.port_values_ idx
  if tmp_val.size_ = 0 then .vec (fill wid .x) else .vec tmp_val

/- `assign_bits_to_ports`. -/
def assignBitsToPorts [Zero R] (core : UfuncCore R) : List (UfuncValue R) :=
  core.ports_.mapIdx core.portBits

/- `invoke_thread_`. -/
def invokeThread (core : UfuncCore R) : UfuncCore R :=
  match core.thread_ with
  | none => { core with thread_ := some .scheduled }
  | some _ => core

/-
  The first half of `dispatch_vec4_from_input_` and of
  `dispatch_real_from_input_`, that keeps a value.  New real
  values are some junk until they arrive.
-/
def keep (junk : Nat → R) (core : UfuncCore R) : UfuncEvent R → UfuncCore R
| .vec4 port bit => { core with port_values_ := Function.update core.port_values_ port bit }
| .real port bit =>
  { core with port_rvalues_ := some (Function.update (core.port_rvalues_.getD junk) port bit) }
| _ => core

/-
  One event: an input or the trigger, or the next instruction
  of the thread.  `code` is what the function returns; none
  where an assertion fails or the thread is elsewhere.
-/
def step [Zero R] (code : List (UfuncValue R) → UfuncValue R) (junk : Nat → R) (core : UfuncCore R)
    (event : UfuncEvent R) : Option (UfuncCore R) :=
  match event with
  | .vec4 port _ | .real port _ =>
    if port < core.ports_.length then
      some (core.keep junk event).invokeThread
    else none
  | .trigger => some core.invokeThread
  | .start =>
    match core.thread_ with
    | some .scheduled => some { core with thread_ := some (.called core.assignBitsToPorts) }
    | _ => none
  | .finish =>
    match core.thread_ with
    | some (.called args) => some { core with thread_ := some (.ended (code args)) }
    | _ => none
  | .propagate =>
    match core.thread_ with
    | some (.ended val) =>
      some { core with
        thread_ := some (.propagated val)
        sent := core.sent ++ [val] }
    | _ => none
  | .done =>
    match core.thread_ with
    | some (.propagated _) => some { core with thread_ := none }
    | _ => none

/- The ports have been copied and the thread is still there. -/
def Deaf (core : UfuncCore R) : Prop :=
  core.thread_ ≠ none ∧ core.thread_ ≠ some .scheduled

/- The event is no change, for the function, of what a thread
   has copied. -/
def Undisturbed [Zero R] (code : List (UfuncValue R) → UfuncValue R) (junk : Nat → R)
    (core : UfuncCore R) (event : UfuncEvent R) : Prop :=
  core.Deaf → code (core.keep junk event).assignBitsToPorts = code core.assignBitsToPorts

/- The last value propagated is the result for the last input
   values. -/
def LastResult [Zero R] (code : List (UfuncValue R) → UfuncValue R) (core : UfuncCore R) : Prop :=
  core.sent.getLast? = some (code core.assignBitsToPorts)

end UfuncCore

/- A functor after any events. -/
inductive UfuncRuns {R : Type} [Zero R] (code : List (UfuncValue R) → UfuncValue R) (junk : Nat → R)
    (ports : List UfuncPort) : UfuncCore R → Prop where
| new : UfuncRuns code junk ports (.new ports)
| step {core core' : UfuncCore R} {event : UfuncEvent R} :
    UfuncRuns code junk ports core →
      core.step code junk event = some core' → UfuncRuns code junk ports core'

/- A functor after events that change nothing that has been
   copied. -/
inductive QuietRuns {R : Type} [Zero R] (code : List (UfuncValue R) → UfuncValue R) (junk : Nat → R)
    (ports : List UfuncPort) : UfuncCore R → Prop where
| new : QuietRuns code junk ports (.new ports)
| step {core core' : UfuncCore R} {event : UfuncEvent R} :
    QuietRuns code junk ports core →
      core.Undisturbed code junk event →
      core.step code junk event = some core' → QuietRuns code junk ports core'

end EpicSim

----
-- Updates Of The Functor
----

namespace EpicSim

open DeferredUpdate

namespace UfuncCore

variable {R : Type} [Zero R]
variable {code : List (UfuncValue R) → UfuncValue R}
variable {junk : Nat → R}

/- The value that is on its way, or the last one sent. -/
def latest (code : List (UfuncValue R) → UfuncValue R)
    (core : UfuncCore R) : Option (UfuncValue R) :=
  match core.thread_ with
  | some (.called args) => some (code args)
  | some (.ended val) => some val
  | some (.propagated val) => some val
  | _ => core.sent.getLast?

/- The functor as a value that is updated later: the copy is
   the update. -/
def asUpdate (code : List (UfuncValue R) → UfuncValue R) (core : UfuncCore R) :
    DeferredUpdate (List (UfuncValue R)) (UfuncValue R) where
  inputs := core.assignBitsToPorts
  waiting := match core.thread_ with
    | some .scheduled => true
    | _ => false
  latest := core.latest code

/- A value that has been propagated is the last one sent. -/
def SentLast (core : UfuncCore R) : Prop :=
  ∀ val, core.thread_ = some (.propagated val) → core.sent.getLast? = some val

/- Inputs and triggers: an update is asked for, or there is a
   thread. -/
theorem asUpdate_invokeThread (core : UfuncCore R) :
    (core.thread_ = none ∧
      core.invokeThread.asUpdate code = { core.asUpdate code with waiting := true }) ∨
    core.thread_ ≠ none ∧ core.invokeThread = core := by
  cases hThread : core.thread_ with
  | none =>
    refine Or.inl ⟨rfl, ?_⟩
    simp only [invokeThread, hThread, asUpdate, latest]
    rfl
  | some thread =>
    refine Or.inr ⟨by simp, ?_⟩
    simp only [invokeThread, hThread]

/- Keeping a value changes the inputs and nothing else. -/
theorem asUpdate_keep (core : UfuncCore R) (event : UfuncEvent R) :
    (core.keep junk event).thread_ = core.thread_ ∧
      (core.keep junk event).asUpdate code =
        { core.asUpdate code with
          inputs :=
            (core.keep junk event).assignBitsToPorts } := by
  cases event <;> exact ⟨rfl, rfl⟩

variable {core core' : UfuncCore R} {event : UfuncEvent R} {ports : List UfuncPort}

/- A value that arrives. -/
theorem steps_input
    (hQuiet : core.Undisturbed code junk event) :
    Step code (core.asUpdate code) ((core.keep junk event).invokeThread.asUpdate code) := by
  rcases @asUpdate_keep _ _ code junk core event with ⟨hThread, hKeep⟩
  rcases @asUpdate_invokeThread _ _ code (core.keep junk event) with ⟨_, hAsk⟩ | ⟨hBusy, hSame⟩
  · rw [hAsk, hKeep]
    exact Step.ask
  · rw [hSame, hKeep]
    rw [hThread] at hBusy
    cases hNow : core.thread_ with
    | none => exact absurd hNow hBusy
    | some thread =>
      cases thread with
      | scheduled =>
        refine Step.wait ?_
        simp only [asUpdate, hNow]
      | called args =>
        refine Step.ignore ?_ (hQuiet ?_)
        · simp [asUpdate, latest, hNow]
        · simp [Deaf, hNow]
      | ended val =>
        refine Step.ignore ?_ (hQuiet ?_)
        · simp [asUpdate, latest, hNow]
        · simp [Deaf, hNow]
      | propagated val =>
        refine Step.ignore ?_ (hQuiet ?_)
        · simp [asUpdate, latest, hNow]
        · simp [Deaf, hNow]

/- A value that has been sent stays the last one. -/
omit [Zero R] in
theorem sentLast_input {core : UfuncCore R} (h : core.SentLast) (event : UfuncEvent R) :
    (core.keep junk event).invokeThread.SentLast := by
  have hThread : (core.keep junk event).thread_ = core.thread_ := by cases event <;> rfl
  have hSent : (core.keep junk event).sent = core.sent := by cases event <;> rfl
  intro val hVal
  unfold invokeThread at hVal ⊢
  rw [hThread] at hVal ⊢
  cases hNow : core.thread_ with
  | none =>
    rw [hNow] at hVal
    cases hVal
  | some thread =>
    rw [hNow] at hVal
    simp only [hThread, hNow] at hVal
    simp only [hSent]
    exact h val (hNow.trans hVal)

/- What holds after any quiet events. -/
structure Inv (code : List (UfuncValue R) → UfuncValue R) (ports : List UfuncPort)
    (core : UfuncCore R) : Prop where
  last : core.SentLast
  asked : Asked (core.asUpdate code) ∨ core = .new ports
  settled : Settled code (core.asUpdate code)

theorem inv_new (ports : List UfuncPort) : Inv code ports (.new ports : UfuncCore R) := by
  refine ⟨fun val hVal => ?_, Or.inr rfl, Or.inr (Or.inl rfl)⟩
  cases hVal

/- After an input or a trigger an update has been asked for. -/
theorem asked_input (core : UfuncCore R) (event : UfuncEvent R)
    (h : core.thread_ ≠ none → Asked (core.asUpdate code)) :
    Asked ((core.keep junk event).invokeThread.asUpdate code) := by
  rcases @asUpdate_keep _ _ code junk core event with ⟨hThread, hKeep⟩
  rcases @asUpdate_invokeThread _ _ code (core.keep junk event) with ⟨_, hAsk⟩ | ⟨hBusy, hSame⟩
  · rw [hAsk]
    exact Or.inl rfl
  · rw [hSame, hKeep]
    rw [hThread] at hBusy
    exact h hBusy

theorem Inv.input
    (h : Inv code ports core) (hQuiet : core.Undisturbed code junk event) :
    Inv code ports (core.keep junk event).invokeThread := by
  refine ⟨sentLast_input h.last event, Or.inl (asked_input core event (fun hBusy => ?_)),
    h.settled.step (steps_input hQuiet)⟩
  rcases h.asked with hAsked | hNew
  · exact hAsked
  · rw [hNew] at hBusy
    exact absurd rfl hBusy

/- A step of the thread that leaves the update as it is. -/
theorem Inv.same
    (h : Inv code ports core) (hLast : core'.SentLast) (hBusy : core.thread_ ≠ none)
    (hSame : core'.asUpdate code = core.asUpdate code) : Inv code ports core' := by
  refine ⟨hLast, Or.inl ?_, ?_⟩
  · rw [hSame]
    rcases h.asked with hAsked | hNew
    · exact hAsked
    · rw [hNew] at hBusy
      exact absurd rfl hBusy
  · rw [hSame]
    exact h.settled

/- What one event can do. -/
theorem step_cases
    (hStep : core.step code junk event = some core') :
    core' = (core.keep junk event).invokeThread ∨
    (core.thread_ = some .scheduled ∧
      core' = { core with thread_ := some (.called core.assignBitsToPorts) }) ∨
    (∃ args, core.thread_ = some (.called args) ∧
      core' = { core with thread_ := some (.ended (code args)) }) ∨
    (∃ val, core.thread_ = some (.ended val) ∧
      core' = { core with
        thread_ := some (.propagated val)
        sent := core.sent ++ [val] }) ∨
    ∃ val, core.thread_ = some (.propagated val) ∧
      core' = { core with thread_ := none } := by
  cases event with
  | vec4 port bit =>
    simp only [UfuncCore.step] at hStep
    split_ifs at hStep
    exact Or.inl (Option.some.inj hStep).symm
  | real port bit =>
    simp only [UfuncCore.step] at hStep
    split_ifs at hStep
    exact Or.inl (Option.some.inj hStep).symm
  | trigger => exact Or.inl (Option.some.inj hStep).symm
  | start =>
    simp only [UfuncCore.step] at hStep
    grind
  | finish =>
    simp only [UfuncCore.step] at hStep
    grind
  | propagate =>
    simp only [UfuncCore.step] at hStep
    grind
  | done =>
    simp only [UfuncCore.step] at hStep
    grind

theorem Inv.step
    (h : Inv code ports core) (hQuiet : core.Undisturbed code junk event)
    (hStep : core.step code junk event = some core') : Inv code ports core' := by
  rcases step_cases hStep with hInput | ⟨hNow, hStart⟩ |
    ⟨args, hNow, hFinish⟩ | ⟨val, hNow, hPropagate⟩ |
    ⟨val, hNow, hDone⟩
  · subst hInput
    exact h.input hQuiet
  · have hUpdate :
        Step code (core.asUpdate code) (core'.asUpdate code) := by
      rw [hStart]
      refine Step.update ?_
      simp only [asUpdate, hNow]
    refine ⟨fun val hVal => ?_, Or.inl (Or.inr ?_), h.settled.step hUpdate⟩
    · rw [hStart] at hVal
      cases hVal
    · rw [hStart]
      rfl
  · subst hFinish
    refine h.same (fun val hVal => ?_) ?_ ?_
    · cases hVal
    · rw [hNow]
      exact Option.some_ne_none _
    · simp only [asUpdate, latest, hNow]
      rfl
  · subst hPropagate
    refine h.same (fun val' hVal => ?_) ?_ ?_
    · cases hVal
      exact List.getLast?_concat
    · rw [hNow]
      exact Option.some_ne_none _
    · simp only [asUpdate, latest, hNow]
      rfl
  · subst hDone
    refine h.same (fun val' hVal => ?_) ?_ ?_
    · cases hVal
    · rw [hNow]
      exact Option.some_ne_none _
    · simp only [asUpdate, latest, hNow, h.last val hNow]
      rfl

end UfuncCore

----
-- Runs
----

section Runs

variable {R : Type} [Zero R]
variable {code : List (UfuncValue R) → UfuncValue R}
variable {junk : Nat → R}
variable {ports : List UfuncPort}

theorem QuietRuns.inv {core : UfuncCore R} (h : QuietRuns code junk ports core) :
    core.Inv code ports := by
  induction h with
  | new => exact UfuncCore.inv_new ports
  | step _ hQuiet hStep ih => exact ih.step hQuiet hStep

/- When there is no thread, the last value propagated is the
   result for the inputs, or nothing has happened. -/
theorem ufunc_settles {core : UfuncCore R} (hRuns : QuietRuns code junk ports core)
    (hIdle : core.thread_ = none) : core = .new ports ∨ core.LastResult code := by
  have hInv := hRuns.inv
  rcases hInv.asked with hAsked | hNew
  · refine Or.inr ?_
    have hLatest := latest_of_settled hInv.settled hAsked (by
      simp only [UfuncCore.asUpdate, hIdle])
    simp only [UfuncCore.asUpdate, UfuncCore.latest, hIdle] at hLatest
    exact hLatest
  · exact Or.inl hNew

end Runs

/- A function that tells whether its bit is known. -/
def knownBit (args : List (UfuncValue Nat)) : UfuncValue Nat :=
  if args = [.vec (.fill 1 .x)] then .vec (.fill 1 .zero)
  else .vec (.fill 1 .one)

/- A call without a change after the copy. -/
theorem ufunc_settles_call :
    ∃ core : UfuncCore Nat, core.sent ≠ [] ∧
      (core = .new [.vec 1] ∨ core.LastResult knownBit) := by
  have hQuiet : ∀ (core : UfuncCore Nat) (event : UfuncEvent Nat),
      core.keep (fun _ => 0) event = core →
        core.Undisturbed knownBit (fun _ => 0) event := by
    intro core event hSame _
    rw [hSame]
  have hInput := @QuietRuns.step Nat _ knownBit (fun _ => 0)
    [.vec 1] (.new [.vec 1]) _ (.vec4 0 (.fill 1 .one)) .new
    (fun hDeaf => absurd rfl hDeaf.1) rfl
  have hStart := hInput.step (hQuiet _ .start rfl) rfl
  have hFinish := hStart.step (hQuiet _ .finish rfl) rfl
  have hPropagate := hFinish.step (hQuiet _ .propagate rfl) rfl
  have hDone := hPropagate.step (hQuiet _ .done rfl) rfl
  exact ⟨_, by decide, ufunc_settles hDone rfl⟩

/- The result goes back to the input, and is not seen. -/
theorem ufunc_feedback_lost :
    ∃ core : UfuncCore Nat,
      UfuncRuns knownBit (fun _ => 0) [.vec 1] core ∧
        core.thread_ = none ∧
        ¬(core = .new [.vec 1] ∨ core.LastResult knownBit) := by
  have hInput := @UfuncRuns.step Nat _ knownBit (fun _ => 0)
    [.vec 1] (.new [.vec 1]) _ (.vec4 0 (.fill 1 .x)) .new rfl
  have hStart := @UfuncRuns.step Nat _ _ _ _ _ _ .start hInput rfl
  have hFinish := @UfuncRuns.step Nat _ _ _ _ _ _ .finish hStart rfl
  have hPropagate := @UfuncRuns.step Nat _ _ _ _ _ _ .propagate hFinish rfl
  have hBack := @UfuncRuns.step Nat _ _ _ _ _ _ (.vec4 0 (.fill 1 .zero)) hPropagate rfl
  have hDone := @UfuncRuns.step Nat _ _ _ _ _ _ .done hBack rfl
  refine ⟨_, hDone, rfl, ?_⟩
  rintro (hNew | hLast)
  · have hSent := congrArg UfuncCore.sent hNew
    exact absurd hSent (by decide)
  · exact absurd hLast (by
      unfold UfuncCore.LastResult
      decide)

end EpicSim
