import Mathlib.Data.List.Nodup

/-
  Callbacks for the next simulation time.

  The list is drained from its head while the routines that
  are called push onto the same head and clear the routines of
  entries that are still to come.
-/

namespace EpicSim

----
-- The Callback List
----

/- `cb_rtn` tells whether the routine is not null. -/
structure SimulatorCallback where
  handle : Nat
  cb_rtn : Bool
deriving DecidableEq

/- What VPI code does to the callbacks for the next time. -/
inductive VpiCommand where
| register
| remove (handle : Nat)
deriving DecidableEq

/- How it goes wrong, or that the fuel was too little. -/
inductive CallbackFault where
| nullCall
| freed
| fuel
deriving DecidableEq

/-
  The list from its head, the number of callbacks made so far,
  the callback whose routine is running, the number of
  advances, and the calls, each with its advance.
-/
structure NextSimTime where
  list : List SimulatorCallback
  registered : Nat
  running : Option Nat
  advances : Nat
  called : List (Nat × Nat)

namespace NextSimTime

def start : NextSimTime :=
  { list := []
    registered := 0
    running := none
    advances := 0
    called := [] }

/- `make_prepost` for `cbNextSimTime`. -/
def vpiRegisterCb (s : NextSimTime) : NextSimTime :=
  { s with
    list := ⟨s.registered, true⟩ :: s.list
    registered := s.registered + 1 }

/- Clear the routine of a callback. -/
def clear (handle : Nat) (cb : SimulatorCallback) : SimulatorCallback :=
  if cb.handle = handle then { cb with cb_rtn := false } else cb

/-
  The callback is on the list, or it is the one that is
  running; any other has been deleted.
-/
def vpiRemoveCb (s : NextSimTime) (handle : Nat) : Except CallbackFault NextSimTime :=
  if handle ∈ s.list.map SimulatorCallback.handle then
    .ok { s with list := s.list.map (clear handle) }
  else if s.running = some handle then .ok s
  else .error .freed

def command (s : NextSimTime) : VpiCommand → Except CallbackFault NextSimTime
| .register => .ok s.vpiRegisterCb
| .remove handle => s.vpiRemoveCb handle

def commands : List VpiCommand → NextSimTime → Except CallbackFault NextSimTime
| [], s => .ok s
| c :: cs, s => s.command c >>= commands cs

/-
  The loop of `vpiNextSimTime`.  The user answers the calls
  made so far with what the last routine does.
-/
def drain (user : List (Nat × Nat) → List VpiCommand) :
    Nat → NextSimTime → Except CallbackFault NextSimTime
| 0, _ => .error .fuel
| fuel + 1, s =>
  match s.list with
  | [] => .ok s
  | cur :: rest =>
    if cur.cb_rtn then do
      let s :=
        { s with
          list := rest
          running := some cur.handle
          called := s.called ++ [(s.advances, cur.handle)] }
      let s ← commands (user s.called) s
      drain user fuel { s with running := none }
    else .error .nullCall

/- An advance of simulation time. -/
def vpiNextSimTime (user : List (Nat × Nat) → List VpiCommand) (fuel : Nat)
    (s : NextSimTime) : Except CallbackFault NextSimTime :=
  drain user fuel { s with advances := s.advances + 1 }

/- A routine at most removes its own callback. -/
def QuietCalls (user : List (Nat × Nat) → List VpiCommand) (n : Nat) :
    List (Nat × Nat) → List Nat → Prop
| _, [] => True
| called, handle :: batch =>
  (∀ c ∈ user (called ++ [(n, handle)]), c = .remove handle) ∧
  QuietCalls user n (called ++ [(n, handle)]) batch

end NextSimTime

----
-- Commands
----

namespace NextSimTime

variable {s s' : NextSimTime} {handle : Nat} {c : VpiCommand}
  {cs : List VpiCommand}

/- What a removal can do. -/
theorem vpiRemoveCb_cases (hOk : s.vpiRemoveCb handle = .ok s') :
    (handle ∈ s.list.map SimulatorCallback.handle ∧
      s' = { s with list := s.list.map (clear handle) }) ∨
    (s.running = some handle ∧ s' = s) := by
  unfold vpiRemoveCb at hOk
  by_cases hOnList : handle ∈ s.list.map SimulatorCallback.handle
  · grind
  · grind

/- A command leaves the other parts of the state alone. -/
theorem command_frame (hOk : s.command c = .ok s') :
    s'.called = s.called ∧
    s'.advances = s.advances ∧
    s'.running = s.running ∧
    s.registered ≤ s'.registered := by
  cases c with
  | register =>
    cases hOk
    exact ⟨rfl, rfl, rfl, Nat.le_succ _⟩
  | remove handle =>
    rcases vpiRemoveCb_cases hOk with ⟨_, rfl⟩ | ⟨_, rfl⟩
    · exact ⟨rfl, rfl, rfl, Nat.le_refl _⟩
    · exact ⟨rfl, rfl, rfl, Nat.le_refl _⟩

/- Callbacks stay on the list, and removed ones removed. -/
theorem command_keeps (hOk : s.command c = .ok s') {cb : SimulatorCallback} (hMem : cb ∈ s.list) :
    ∃ cb' ∈ s'.list,
      cb'.handle = cb.handle ∧
      (cb.cb_rtn = false → cb'.cb_rtn = false) := by
  cases c with
  | register =>
    cases hOk
    exact ⟨cb, List.mem_cons_of_mem _ hMem, rfl, id⟩
  | remove handle =>
    rcases vpiRemoveCb_cases hOk with ⟨_, rfl⟩ | ⟨_, rfl⟩
    · refine ⟨clear handle cb, List.mem_map_of_mem hMem, ?_⟩
      unfold clear
      grind
    · exact ⟨cb, hMem, rfl, id⟩

/- Splitting off the first command. -/
theorem commands_cons (hOk : commands (c :: cs) s = .ok s') :
    ∃ s₁, s.command c = .ok s₁ ∧ commands cs s₁ = .ok s' := by
  unfold commands at hOk
  cases hStep : s.command c with
  | error fault =>
    rw [hStep] at hOk
    cases hOk
  | ok s₁ =>
    rw [hStep] at hOk
    exact ⟨s₁, rfl, hOk⟩

section

variable (hOk : commands cs s = .ok s')

include hOk

theorem commands_frame :
    s'.called = s.called ∧
    s'.advances = s.advances ∧
    s'.running = s.running ∧
    s.registered ≤ s'.registered := by
  induction cs generalizing s with
  | nil =>
    cases hOk
    exact ⟨rfl, rfl, rfl, Nat.le_refl _⟩
  | cons c cs ih =>
    rcases commands_cons hOk with ⟨s₁, hFirst, hRest⟩
    rcases command_frame hFirst with ⟨hC, hA, hR, hReg⟩
    rcases ih hRest with ⟨hC', hA', hR', hReg'⟩
    exact ⟨hC'.trans hC, hA'.trans hA, hR'.trans hR, Nat.le_trans hReg hReg'⟩

theorem commands_keep {cb : SimulatorCallback} (hMem : cb ∈ s.list) :
    ∃ cb' ∈ s'.list,
      cb'.handle = cb.handle ∧
      (cb.cb_rtn = false → cb'.cb_rtn = false) := by
  induction cs generalizing s cb with
  | nil =>
    cases hOk
    exact ⟨cb, hMem, rfl, id⟩
  | cons c cs ih =>
    rcases commands_cons hOk with ⟨s₁, hFirst, hRest⟩
    rcases command_keeps hFirst hMem with ⟨cb₁, hMem₁, hHandle₁, hNull₁⟩
    rcases ih hRest hMem₁ with ⟨cb', hMem', hHandle', hNull'⟩
    exact ⟨cb', hMem', hHandle'.trans hHandle₁, fun h => hNull' (hNull₁ h)⟩

/- A registration is on the list afterwards. -/
theorem commands_register (hMem : VpiCommand.register ∈ cs) :
    ∃ cb ∈ s'.list, s.registered ≤ cb.handle := by
  induction cs generalizing s with
  | nil => cases hMem
  | cons c cs ih =>
    rcases commands_cons hOk with ⟨s₁, hFirst, hRest⟩
    rcases List.mem_cons.mp hMem with hHere | hLater
    · rw [← hHere] at hFirst
      cases hFirst
      have hNew : ⟨s.registered, true⟩ ∈ s.vpiRegisterCb.list := List.mem_cons_self
      rcases commands_keep hRest hNew with ⟨cb, hCb, hHandle, _⟩
      exact ⟨cb, hCb, Nat.le_of_eq hHandle.symm⟩
    · rcases ih hRest hLater with ⟨cb, hCb, hHandle⟩
      exact ⟨cb, hCb, Nat.le_trans (command_frame hFirst).2.2.2 hHandle⟩

/- A removed callback stays on the list without a routine. -/
theorem commands_remove (hMem : VpiCommand.remove handle ∈ cs) :
    s.running = some handle ∨
    ∃ cb ∈ s'.list, cb.cb_rtn = false := by
  induction cs generalizing s with
  | nil => cases hMem
  | cons c cs ih =>
    rcases commands_cons hOk with ⟨s₁, hFirst, hRest⟩
    rcases List.mem_cons.mp hMem with hHere | hLater
    · rw [← hHere] at hFirst
      rcases vpiRemoveCb_cases hFirst with ⟨hOnList, hNext⟩ | ⟨hRunning, _⟩
      · right
        rcases List.mem_map.mp hOnList with ⟨cb, hCb, hHandle⟩
        have hCleared : clear handle cb ∈ s₁.list := by
          rw [hNext]
          exact List.mem_map_of_mem hCb
        rcases commands_keep hRest hCleared with ⟨cb', hCb', _, hNull⟩
        refine ⟨cb', hCb', hNull ?_⟩
        unfold clear
        rw [if_pos hHandle]
      · exact Or.inl hRunning
    · rcases ih hRest hLater with hRunning | hNull
      · left
        rw [← (command_frame hFirst).2.2.1]
        exact hRunning
      · exact Or.inr hNull

end

/- Removing the callback that is running does nothing. -/
theorem commands_self (hRunning : s.running = some handle)
    (hGone : handle ∉ s.list.map SimulatorCallback.handle) (hSelf : ∀ c ∈ cs, c = .remove handle) :
    commands cs s = .ok s := by
  induction cs with
  | nil => rfl
  | cons c cs ih =>
    have hFirst : c = .remove handle := hSelf c List.mem_cons_self
    have hStep : s.command c = .ok s := by
      rw [hFirst]
      show s.vpiRemoveCb handle = .ok s
      unfold vpiRemoveCb
      rw [if_neg hGone, if_pos hRunning]
    unfold commands
    rw [hStep]
    exact ih fun c hc => hSelf c (List.mem_cons_of_mem _ hc)

end NextSimTime

----
-- Draining the List
----

namespace NextSimTime

variable {user : List (Nat × Nat) → List VpiCommand}

variable {fuel : Nat} {s r : NextSimTime}

/- One call of a drain that comes to its end. -/
theorem drain_cons {cur : SimulatorCallback} {rest : List SimulatorCallback}
    (hList : s.list = cur :: rest) (hOk : drain user (fuel + 1) s = .ok r) :
    cur.cb_rtn = true ∧
    ∃ s',
      commands
          (user (s.called ++ [(s.advances, cur.handle)]))
          { s with
            list := rest
            running := some cur.handle
            called := s.called ++ [(s.advances, cur.handle)] } =
        .ok s' ∧
      drain user fuel { s' with running := none } = .ok r := by
  unfold drain at hOk
  rw [hList] at hOk
  simp only at hOk
  by_cases hLive : cur.cb_rtn = true
  · rw [if_pos hLive] at hOk
    refine ⟨hLive, ?_⟩
    cases hCommands :
        commands
          (user (s.called ++ [(s.advances, cur.handle)]))
          { s with
            list := rest
            running := some cur.handle
            called :=
              s.called ++ [(s.advances, cur.handle)] } with
    | error fault =>
      simp only [hCommands] at hOk
      cases hOk
    | ok s' =>
      simp only [hCommands] at hOk
      exact ⟨s', rfl, hOk⟩
  · rw [if_neg hLive] at hOk
    cases hOk

/- A null routine on the list would be called. -/
theorem drain_live (hOk : drain user fuel s = .ok r) {cb : SimulatorCallback} (hMem : cb ∈ s.list) :
    cb.cb_rtn = true := by
  induction fuel generalizing s cb with
  | zero => cases hOk
  | succ fuel ih =>
    cases hList : s.list with
    | nil =>
      rw [hList] at hMem
      cases hMem
    | cons cur rest =>
      rw [hList] at hMem
      rcases drain_cons hList hOk with ⟨hLive, s', hCommands, hRest⟩
      rcases List.mem_cons.mp hMem with hHere | hLater
      · rw [hHere]
        exact hLive
      · rcases commands_keep hCommands hLater with ⟨cb', hCb', _, hNull⟩
        have hLive' := ih hRest hCb'
        grind

/- Calls that were made stay in the record. -/
theorem drain_extends (hOk : drain user fuel s = .ok r) {p : Nat × Nat} (hMem : p ∈ s.called) :
    p ∈ r.called := by
  induction fuel generalizing s with
  | zero => cases hOk
  | succ fuel ih =>
    cases hList : s.list with
    | nil =>
      unfold drain at hOk
      rw [hList] at hOk
      cases hOk
      exact hMem
    | cons cur rest =>
      rcases drain_cons hList hOk with ⟨_, s', hCommands, hRest⟩
      apply ih hRest
      rw [(commands_frame hCommands).1]
      exact List.mem_append_left _ hMem

/- All that is on the list is called. -/
theorem drain_calls (hOk : drain user fuel s = .ok r) {cb : SimulatorCallback}
    (hMem : cb ∈ s.list) : ∃ p ∈ r.called, p.2 = cb.handle := by
  induction fuel generalizing s cb with
  | zero => cases hOk
  | succ fuel ih =>
    cases hList : s.list with
    | nil =>
      rw [hList] at hMem
      cases hMem
    | cons cur rest =>
      rw [hList] at hMem
      rcases drain_cons hList hOk with ⟨_, s', hCommands, hRest⟩
      rcases List.mem_cons.mp hMem with hHere | hLater
      · refine ⟨(s.advances, cur.handle), ?_, ?_⟩
        · apply drain_extends hRest
          rw [(commands_frame hCommands).1]
          exact List.mem_append_right _ (List.mem_singleton.mpr rfl)
        · rw [hHere]
      · rcases commands_keep hCommands hLater with ⟨cb', hCb', hHandle, _⟩
        rcases ih hRest hCb' with ⟨p, hp, hEq⟩
        exact ⟨p, hp, hEq.trans hHandle⟩

/- A list of callbacks that all have their routines. -/
def live (handles : List Nat) : List SimulatorCallback :=
  handles.map fun handle => ⟨handle, true⟩

@[simp] theorem live_handles (handles : List Nat) :
    (live handles).map SimulatorCallback.handle = handles := by
  unfold live
  rw [List.map_map]
  exact List.map_id handles

/-
  Where the routines do nothing, the callbacks are called from
  the head on.
-/
theorem drain_quiet {handles : List Nat} (hList : s.list = live handles)
    (hRunning : s.running = none) (hNodup : handles.Nodup)
    (hQuiet : QuietCalls user s.advances s.called handles) (hFuel : handles.length < fuel) :
    drain user fuel s =
      .ok
        { s with
          list := []
          called :=
            s.called ++ handles.map fun handle => (s.advances, handle) } := by
  induction handles generalizing s fuel with
  | nil =>
    rcases Nat.exists_eq_succ_of_ne_zero (Nat.ne_zero_of_lt hFuel) with ⟨fuel, rfl⟩
    unfold drain
    rw [hList]
    simp only [live, List.map_nil, List.append_nil]
    rw [← show s.list = [] from hList]
  | cons handle handles ih =>
    rcases Nat.exists_eq_succ_of_ne_zero (Nat.ne_zero_of_lt hFuel) with ⟨fuel, rfl⟩
    rcases List.nodup_cons.mp hNodup with ⟨hGone, hNodup'⟩
    rcases hQuiet with ⟨hSelf, hQuiet'⟩
    have hCommands :=
      commands_self
        (s :=
          { s with
            list := live handles
            running := some handle
            called := s.called ++ [(s.advances, handle)] })
        rfl (by rw [live_handles]; exact hGone) hSelf
    have hRest :=
      ih
        (s :=
          { s with
            list := live handles
            running := none
            called := s.called ++ [(s.advances, handle)] })
        rfl rfl hNodup' hQuiet' (Nat.lt_of_succ_lt_succ hFuel)
    unfold drain
    rw [hList]
    simp only [live, List.map_cons, if_true, bind, Except.bind]
    rw [show
        handles.map (fun handle => (⟨handle, true⟩ : SimulatorCallback)) = live handles from rfl,
      hCommands]
    simp only [hRest, hRunning, List.append_assoc, List.singleton_append]

/-
  A drain that comes to its end and calls nothing new: the
  routines removed at most their own callbacks.
-/
theorem quiet_of_drain {handles : List Nat} (hList : s.list = live handles)
    (hNodup : handles.Nodup) (hOk : drain user fuel s = .ok r)
    (hOld : ∀ p ∈ r.called, p.2 < s.registered) : QuietCalls user s.advances s.called handles := by
  induction handles generalizing s fuel with
  | nil => exact trivial
  | cons handle handles ih =>
    cases fuel with
    | zero => cases hOk
    | succ fuel =>
      rcases List.nodup_cons.mp hNodup with ⟨hGone, hNodup'⟩
      have hCons : s.list = ⟨handle, true⟩ :: live handles := hList
      rcases drain_cons hCons hOk with ⟨_, s', hCommands, hRest⟩
      have hSelf :
          ∀ c ∈ user (s.called ++ [(s.advances, handle)]),
            c = .remove handle := by
        intro c hc
        cases c with
        | register =>
          -- A new callback would be called in this drain.
          rcases commands_register hCommands hc with ⟨cb, hCb, hNew⟩
          rcases drain_calls hRest hCb with ⟨p, hp, hEq⟩
          grind
        | remove other =>
          rcases commands_remove hCommands hc with hRunning | ⟨cb, hCb, hNull⟩
          · grind
          · have hLive := drain_live hRest hCb
            rw [hNull] at hLive
            cases hLive
      have hSame :=
        commands_self
          (s :=
            { s with
              list := live handles
              running := some handle
              called := s.called ++ [(s.advances, handle)] })
          rfl (by rw [live_handles]; exact hGone) hSelf
      rw [hSame] at hCommands
      cases hCommands
      exact ⟨hSelf, ih rfl hNodup' hRest hOld⟩

end NextSimTime

end EpicSim
