import EpicSim.Vvp.NextSimTime
import Mathlib.Data.List.Induction

/-
  The book of callbacks for the next simulation time.

  The book is what is meant: an advance of time calls what was
  registered before it and is not removed, once each; what is
  registered meanwhile waits for the following advance.
-/

namespace EpicSim

open List (mem_cons mem_cons_self mem_cons_of_mem foldl_cons append_nil append_assoc map_map
  cons_append)

----
-- What is Meant
----

/- The registered callbacks, newest first, and the removed. -/
structure CallbackBook where
  pending : List Nat
  removed : List Nat
  registered : Nat
  advances : Nat
  called : List (Nat × Nat)

namespace CallbackBook

def start : CallbackBook :=
  { pending := []
    removed := []
    registered := 0
    advances := 0
    called := [] }

def command (b : CallbackBook) : VpiCommand → CallbackBook
| .register =>
  { b with
    pending := b.registered :: b.pending
    registered := b.registered + 1 }
| .remove handle => { b with removed := handle :: b.removed }

/- Call those that are not removed when their turn comes. -/
def callAll (user : List (Nat × Nat) → List VpiCommand) : List Nat → CallbackBook → CallbackBook
| [], b => b
| handle :: batch, b =>
  if handle ∈ b.removed then callAll user batch b
  else
    let b := { b with called := b.called ++ [(b.advances, handle)] }
    callAll user batch ((user b.called).foldl command b)

/- An advance of time is about what is registered before. -/
def advance (user : List (Nat × Nat) → List VpiCommand) (b : CallbackBook) : CallbackBook :=
  callAll user b.pending { b with pending := [], advances := b.advances + 1 }

end CallbackBook

----
-- Runs
----

/- VPI code outside of these callbacks, or an advance. -/
inductive VpiAct where
| command (c : VpiCommand)
| advance (user : List (Nat × Nat) → List VpiCommand)

namespace VpiAct

def step (fuel : Nat) (s : NextSimTime) : VpiAct → Except CallbackFault NextSimTime
| command c => s.command c
| advance user => s.vpiNextSimTime user fuel

def run (fuel : Nat) : List VpiAct → NextSimTime → Except CallbackFault NextSimTime
| [], s => .ok s
| act :: acts, s => step fuel s act >>= run fuel acts

def bookStep (b : CallbackBook) : VpiAct → CallbackBook
| command c => b.command c
| advance user => b.advance user

/- The book after a run. -/
def book (acts : List VpiAct) : CallbackBook :=
  acts.foldl bookStep CallbackBook.start

/-
  No callback is removed before an advance, no routine
  registers a callback or removes another, and only callbacks
  that are there are removed.
-/
structure Undisturbed (acts : List VpiAct) : Prop where
  advance :
    ∀ past user rest,
      acts = past ++ VpiAct.advance user :: rest →
      (∀ handle ∈ (book past).pending, handle ∉ (book past).removed) ∧
      NextSimTime.QuietCalls user ((book past).advances + 1) (book past).called (book past).pending
  remove :
    ∀ past handle rest,
      acts = past ++ VpiAct.command (.remove handle) :: rest →
      handle ∈ (book past).pending

end VpiAct

/- The list and the calls are those of the book. -/
structure NextSimTime.Matches (s : NextSimTime) (b : CallbackBook) : Prop where
  list : s.list = b.pending.map fun handle => ⟨handle, decide (handle ∉ b.removed)⟩
  registered : s.registered = b.registered
  running : s.running = none
  advances : s.advances = b.advances
  called : s.called = b.called

namespace VpiAct

/- Every state of the run is as the book says. -/
def AsBooked (acts : List VpiAct) : Prop :=
  ∀ past rest, acts = past ++ rest →
    ∃ enough, ∀ fuel ≥ enough, ∃ s, run fuel past NextSimTime.start = .ok s ∧ s.Matches (book past)

end VpiAct

----
-- The Book
----

namespace CallbackBook

variable {user : List (Nat × Nat) → List VpiCommand}

/- Numbers of callbacks are those that were given out. -/
structure Sound (b : CallbackBook) : Prop where
  pending : ∀ handle ∈ b.pending, handle < b.registered
  removed : ∀ handle ∈ b.removed, handle < b.registered
  called : ∀ p ∈ b.called, p.2 < b.registered
  nodup : b.pending.Nodup

theorem sound_start : start.Sound where
  pending := by
    intro handle hMem
    cases hMem
  removed := by
    intro handle hMem
    cases hMem
  called := by
    intro p hMem
    cases hMem
  nodup := List.nodup_nil

variable {b : CallbackBook}

theorem Sound.register (hSound : b.Sound) : (b.command .register).Sound where
  pending := by
    intro handle hMem
    rcases mem_cons.mp hMem with hNew | hOld
    · rw [hNew]
      exact Nat.lt_succ_self _
    · exact Nat.lt_succ_of_lt (hSound.pending handle hOld)
  removed := fun handle hMem => Nat.lt_succ_of_lt (hSound.removed handle hMem)
  called := fun p hMem => Nat.lt_succ_of_lt (hSound.called p hMem)
  nodup := List.nodup_cons.mpr ⟨fun hMem => Nat.lt_irrefl _ (hSound.pending _ hMem), hSound.nodup⟩

theorem Sound.remove (hSound : b.Sound) {handle : Nat} (hMem : handle ∈ b.pending) :
    (b.command (.remove handle)).Sound where
  pending := hSound.pending
  removed := by
    intro other hOther
    rcases mem_cons.mp hOther with hNew | hOld
    · rw [hNew]
      exact hSound.pending handle hMem
    · exact hSound.removed other hOld
  called := hSound.called
  nodup := hSound.nodup

/- Removals only add to the removed. -/
theorem foldl_self {cs : List VpiCommand} {handle : Nat} (b : CallbackBook)
    (hSelf : ∀ c ∈ cs, c = .remove handle) :
    ∃ removed,
      cs.foldl command b = { b with removed := removed } ∧
      ∀ h ∈ removed, h ∈ b.removed ∨ h = handle := by
  induction cs generalizing b with
  | nil => exact ⟨b.removed, rfl, fun h hMem => Or.inl hMem⟩
  | cons c cs ih =>
    have hFirst : c = .remove handle := hSelf c mem_cons_self
    rcases ih (b.command c)
      (fun c hc => hSelf c (mem_cons_of_mem _ hc)) with
      ⟨removed, hEq, hRemoved⟩
    rw [hFirst] at hEq hRemoved
    refine ⟨removed, ?_, ?_⟩
    · rw [hFirst]
      exact hEq
    · intro h hMem
      rcases hRemoved h hMem with hOld | hNew
      · rcases mem_cons.mp hOld with hHere | hBefore
        · exact Or.inr hHere
        · exact Or.inl hBefore
      · exact Or.inr hNew

/- Where the routines do nothing, all are called. -/
theorem callAll_quiet {batch : List Nat} (hNodup : batch.Nodup)
    (hLive : ∀ handle ∈ batch, handle ∉ b.removed)
    (hQuiet : NextSimTime.QuietCalls user b.advances b.called batch) :
    ∃ removed,
      callAll user batch b =
        { b with
          removed := removed
          called := b.called ++ batch.map fun handle => (b.advances, handle) } ∧
      ∀ h ∈ removed, h ∈ b.removed ∨ h ∈ batch := by
  induction batch generalizing b with
  | nil =>
    refine ⟨b.removed, ?_, fun h hMem => Or.inl hMem⟩
    rw [callAll, List.map_nil, append_nil]
  | cons handle batch ih =>
    rcases List.nodup_cons.mp hNodup with ⟨hGone, hNodup'⟩
    rcases hQuiet with ⟨hSelf, hQuiet'⟩
    rcases foldl_self
      { b with called := b.called ++ [(b.advances, handle)] }
      hSelf with ⟨removed, hFold, hRemoved⟩
    have hLive' : ∀ h ∈ batch, h ∉ removed := by grind
    rcases ih
      (b :=
        { b with
          called := b.called ++ [(b.advances, handle)]
          removed := removed })
      hNodup' hLive' hQuiet' with ⟨removed', hEq, hRemoved'⟩
    refine ⟨removed', ?_, ?_⟩
    · rw [callAll, if_neg (hLive handle mem_cons_self)]
      simp only [hFold]
      rw [hEq, append_assoc]
      rfl
    · grind

theorem foldl_called (cs : List VpiCommand) (b : CallbackBook) :
    (cs.foldl command b).called = b.called := by
  induction cs generalizing b with
  | nil => rfl
  | cons c cs ih =>
    rw [foldl_cons, ih]
    cases c <;> rfl

/- Only callbacks of the batch are called. -/
theorem callAll_called {batch : List Nat} {p : Nat × Nat}
    (hMem : p ∈ (callAll user batch b).called) : p ∈ b.called ∨ p.2 ∈ batch := by
  induction batch generalizing b with
  | nil => exact Or.inl hMem
  | cons handle batch ih =>
    rw [callAll] at hMem
    by_cases hRemoved : handle ∈ b.removed
    · grind
    · rw [if_neg hRemoved] at hMem
      rcases ih hMem with hOld | hNew
      · rw [foldl_called] at hOld
        grind
      · exact Or.inr (mem_cons_of_mem _ hNew)

end CallbackBook

----
-- Steps
----

namespace NextSimTime

variable {s : NextSimTime} {b : CallbackBook}
variable {user : List (Nat × Nat) → List VpiCommand}

section

variable (hMatches : s.Matches b)

include hMatches

theorem Matches.handles :
    s.list.map SimulatorCallback.handle = b.pending := by
  rw [hMatches.list, map_map]
  exact List.map_id b.pending

theorem Matches.register (hSound : b.Sound) :
    s.vpiRegisterCb.Matches (b.command .register) where
  list := by
    have hNew : b.registered ∉ b.removed := fun hMem => Nat.lt_irrefl _ (hSound.removed _ hMem)
    show (⟨s.registered, true⟩ : SimulatorCallback) :: s.list =
      ⟨b.registered, decide (b.registered ∉ b.removed)⟩ ::
        b.pending.map fun handle => ⟨handle, decide (handle ∉ b.removed)⟩
    rw [decide_eq_true hNew, hMatches.list, hMatches.registered]
  registered := congrArg (· + 1) hMatches.registered
  running := hMatches.running
  advances := hMatches.advances
  called := hMatches.called

theorem Matches.remove {handle : Nat} (hMem : handle ∈ b.pending) :
    ∃ s',
      s.vpiRemoveCb handle = .ok s' ∧
      s'.Matches (b.command (.remove handle)) := by
  refine ⟨{ s with list := s.list.map (clear handle) }, ?_, ?_⟩
  · unfold vpiRemoveCb
    rw [hMatches.handles, if_pos hMem]
  · refine ⟨?_, hMatches.registered, hMatches.running, hMatches.advances, hMatches.called⟩
    rw [hMatches.list, map_map]
    apply List.map_congr_left
    intro other _
    simp only [Function.comp, clear, CallbackBook.command]
    grind

/- The list at an advance before which nothing is removed. -/
theorem Matches.live (hLive : ∀ handle ∈ b.pending, handle ∉ b.removed) :
    s.list = live b.pending := by
  rw [hMatches.list]
  apply List.map_congr_left
  intro handle hMem
  rw [decide_eq_true (hLive handle hMem)]

theorem Matches.advance (hSound : b.Sound)
    (hLive : ∀ handle ∈ b.pending, handle ∉ b.removed)
    (hQuiet : QuietCalls user (b.advances + 1) b.called b.pending) {fuel : Nat}
    (hFuel : b.pending.length < fuel) :
    ∃ s',
      s.vpiNextSimTime user fuel = .ok s' ∧
      s'.Matches (b.advance user) ∧
      (b.advance user).Sound := by
  rcases CallbackBook.callAll_quiet
    (b := { b with pending := [], advances := b.advances + 1 })
    hSound.nodup hLive hQuiet with ⟨removed, hBook, hRemoved⟩
  have hDrain :=
    drain_quiet (s := { s with advances := s.advances + 1 })
      (hMatches.live hLive) hMatches.running
      hSound.nodup
      (by rw [hMatches.advances, hMatches.called]; exact hQuiet)
      hFuel
  refine ⟨_, hDrain, ?_, ?_⟩
  · unfold CallbackBook.advance
    rw [hBook]
    refine ⟨rfl, hMatches.registered, hMatches.running, congrArg (· + 1) hMatches.advances, ?_⟩
    simp only [hMatches.called, hMatches.advances]
  · unfold CallbackBook.advance
    rw [hBook]
    refine ⟨?_, ?_, ?_, List.nodup_nil⟩
    · intro handle hMem
      cases hMem
    · intro handle hMem
      rcases hRemoved handle hMem with hOld | hNew
      · exact hSound.removed handle hOld
      · exact hSound.pending handle hNew
    · intro p hMem
      rcases List.mem_append.mp hMem with hOld | hNew
      · exact hSound.called p hOld
      · rcases List.mem_map.mp hNew with ⟨handle, hHandle, rfl⟩
        exact hSound.pending handle hHandle

end

/- An advance that goes as the book says was quiet. -/
theorem Matches.quiet {r : NextSimTime} {fuel : Nat} (hMatches : s.Matches b)
    (hSound : b.Sound) (hOk : s.vpiNextSimTime user fuel = .ok r)
    (hAfter : r.Matches (b.advance user)) :
    (∀ handle ∈ b.pending, handle ∉ b.removed) ∧
    QuietCalls user (b.advances + 1) b.called b.pending := by
  have hLive : ∀ handle ∈ b.pending, handle ∉ b.removed := by
    intro handle hMem
    have hEntry :
        ⟨handle, decide (handle ∉ b.removed)⟩ ∈ s.list := by
      rw [hMatches.list]
      exact List.mem_map_of_mem hMem
    exact of_decide_eq_true (drain_live hOk hEntry)
  have hOld : ∀ p ∈ r.called, p.2 < s.registered := by
    intro p hMem
    rw [hAfter.called] at hMem
    rw [hMatches.registered]
    rcases CallbackBook.callAll_called hMem with hBefore | hHere
    · exact hSound.called p hBefore
    · exact hSound.pending p.2 hHere
  have hQuiet :=
    quiet_of_drain (s := { s with advances := s.advances + 1 })
      (hMatches.live hLive) hSound.nodup hOk hOld
  rw [← hMatches.advances, ← hMatches.called]
  exact ⟨hLive, hQuiet⟩

end NextSimTime

----
-- Undisturbed Runs
----

namespace VpiAct

theorem run_concat (fuel : Nat) (acts : List VpiAct) (act : VpiAct) (s : NextSimTime) :
    run fuel (acts ++ [act]) s = (run fuel acts s >>= fun s' => step fuel s' act) := by
  induction acts generalizing s with
  | nil =>
    show (step fuel s act >>= fun s' => .ok s') = step fuel s act
    cases step fuel s act <;> rfl
  | cons first acts ih =>
    show (step fuel s first >>= run fuel (acts ++ [act])) = _
    rw [run]
    cases step fuel s first with
    | error fault => rfl
    | ok s₁ => exact ih s₁

theorem book_concat (acts : List VpiAct) (act : VpiAct) :
    book (acts ++ [act]) = bookStep (book acts) act := by
  unfold book
  rw [List.foldl_append, foldl_cons, List.foldl_nil]

variable {acts rest : List VpiAct}

theorem Undisturbed.past (hQuiet : Undisturbed (acts ++ rest)) :
    Undisturbed acts where
  advance := by
    intro past user more hSplit
    apply hQuiet.advance past user (more ++ rest)
    rw [hSplit, append_assoc, cons_append]
  remove := by
    intro past handle more hSplit
    apply hQuiet.remove past handle (more ++ rest)
    rw [hSplit, append_assoc, cons_append]

/- The state of an undisturbed run. -/
theorem matches_of_undisturbed (hQuiet : Undisturbed acts) :
    (book acts).Sound ∧
    ∃ enough, ∀ fuel ≥ enough,
      ∃ s,
        run fuel acts NextSimTime.start = .ok s ∧
        s.Matches (book acts) := by
  induction acts using List.reverseRecOn with
  | nil =>
    refine ⟨CallbackBook.sound_start, 0, ?_⟩
    intro fuel _
    exact ⟨NextSimTime.start, rfl, rfl, rfl, rfl, rfl, rfl⟩
  | append_singleton acts act ih =>
    rcases ih hQuiet.past with ⟨hSound, enough, hRuns⟩
    rw [book_concat]
    cases act with
    | command c =>
      cases c with
      | register =>
        refine ⟨hSound.register, enough, ?_⟩
        intro fuel hFuel
        rcases hRuns fuel hFuel with ⟨s, hRun, hMatches⟩
        refine ⟨_, ?_, hMatches.register hSound⟩
        rw [run_concat, hRun]
        rfl
      | remove handle =>
        have hMem := hQuiet.remove acts handle [] rfl
        refine ⟨hSound.remove hMem, enough, ?_⟩
        intro fuel hFuel
        rcases hRuns fuel hFuel with ⟨s, hRun, hMatches⟩
        rcases hMatches.remove hMem with ⟨s', hStep, hMatches'⟩
        refine ⟨s', ?_, hMatches'⟩
        rw [run_concat, hRun]
        exact hStep
    | advance user =>
      rcases hQuiet.advance acts user [] rfl with ⟨hLive, hCalls⟩
      constructor
      · rcases hRuns enough (Nat.le_refl _) with ⟨s, _, hMatches⟩
        rcases hMatches.advance hSound hLive hCalls (Nat.lt_succ_self _) with ⟨_, _, _, hSound'⟩
        exact hSound'
      · refine ⟨max enough ((book acts).pending.length + 1), ?_⟩
        intro fuel hFuel
        rcases hRuns fuel
          (Nat.le_trans (Nat.le_max_left _ _) hFuel) with
          ⟨s, hRun, hMatches⟩
        have hEnough : (book acts).pending.length < fuel :=
          Nat.le_trans (Nat.le_max_right _ _) hFuel
        rcases hMatches.advance hSound hLive hCalls hEnough with ⟨s', hStep, hMatches', _⟩
        refine ⟨s', ?_, hMatches'⟩
        rw [run_concat, hRun]
        exact hStep

theorem AsBooked.past (hBooked : AsBooked (acts ++ rest)) :
    AsBooked acts := by
  intro past more hSplit
  apply hBooked past (more ++ rest)
  rw [hSplit, append_assoc]

/- The last step of a run that goes as the book says. -/
theorem AsBooked.last {act : VpiAct} (hBooked : AsBooked (acts ++ [act])) :
    ∃ fuel s r,
      s.Matches (book acts) ∧
      step fuel s act = .ok r ∧
      r.Matches (book (acts ++ [act])) := by
  rcases hBooked acts [act] rfl with ⟨enough, hRuns⟩
  rcases hBooked (acts ++ [act]) [] (append_nil _).symm with ⟨enough', hRuns'⟩
  rcases hRuns (max enough enough') (Nat.le_max_left _ _) with ⟨s, hRun, hMatches⟩
  rcases hRuns' (max enough enough') (Nat.le_max_right _ _) with ⟨r, hRun', hMatches'⟩
  rw [run_concat, hRun] at hRun'
  exact ⟨_, s, r, hMatches, hRun', hMatches'⟩

/- The last act of a list, or an earlier one. -/
theorem split_concat {past : List VpiAct} {act other : VpiAct}
    (hSplit : acts ++ [act] = past ++ other :: rest) :
    (acts = past ∧ act = other) ∨
    ∃ rest', acts = past ++ other :: rest' := by
  rcases List.eq_nil_or_concat rest with rfl | ⟨rest', last, rfl⟩
  · rcases List.append_inj' hSplit rfl with ⟨hPast, hLast⟩
    injection hLast with hLast
    exact Or.inl ⟨hPast, hLast⟩
  · rw [List.concat_eq_append, ← cons_append, ← append_assoc] at hSplit
    exact Or.inr ⟨rest', (List.append_inj' hSplit rfl).1⟩

/- Runs that go as the book says are undisturbed. -/
theorem undisturbed_of_booked (hBooked : AsBooked acts) :
    Undisturbed acts := by
  induction acts using List.reverseRecOn with
  | nil =>
    constructor
    · simp
    · simp
  | append_singleton acts act ih =>
    have hQuiet := ih hBooked.past
    have hSound := (matches_of_undisturbed hQuiet).1
    rcases hBooked.last with ⟨fuel, s, r, hMatches, hStep, hAfter⟩
    rw [book_concat] at hAfter
    constructor
    · intro past user rest hSplit
      rcases split_concat hSplit with ⟨rfl, rfl⟩ | ⟨rest', hOld⟩
      · exact hMatches.quiet hSound hStep hAfter
      · exact hQuiet.advance past user rest' hOld
    · intro past handle rest hSplit
      rcases split_concat hSplit with ⟨rfl, rfl⟩ | ⟨rest', hOld⟩
      · rcases NextSimTime.vpiRemoveCb_cases hStep with ⟨hMem, _⟩ | ⟨hRunning, _⟩
        · rw [hMatches.handles] at hMem
          exact hMem
        · rw [hMatches.running] at hRunning
          cases hRunning
      · exact hQuiet.remove past handle rest' hOld

end VpiAct

open VpiAct

----
-- Advances of Time
----

/-
  Every state of a run is as the book says exactly when no
  callback is removed before its turn and no routine registers
  a callback.
-/
theorem next_time_as_booked (acts : List VpiAct) : AsBooked acts ↔ Undisturbed acts := by
  constructor
  · exact undisturbed_of_booked
  · intro hQuiet past rest hSplit
    rw [hSplit] at hQuiet
    exact (matches_of_undisturbed hQuiet.past).2

/-
  A callback that is removed before the advance is called
  through a null routine; and one that a routine registers is
  called in the same advance.
-/
theorem next_time_disturbed :
    ¬ AsBooked [command .register, command (.remove 0), advance fun _ => []] ∧
    ¬ AsBooked
        [command .register,
          advance fun called =>
            if called = [(1, 0)] then [.register] else []] := by
  constructor
  · intro hBooked
    rcases hBooked _ [] (append_nil _).symm with ⟨enough, hRuns⟩
    rcases hRuns (enough + 1) (Nat.le_succ _) with ⟨s, hRun, _⟩
    cases hRun
  · intro hBooked
    rcases hBooked _ [] (append_nil _).symm with ⟨enough, hRuns⟩
    rcases hRuns (enough + 3) (Nat.le_add_right _ _) with ⟨s, hRun, hMatches⟩
    cases hRun
    have hCalled := hMatches.called
    revert hCalled
    decide

end EpicSim
