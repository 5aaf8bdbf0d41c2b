import EpicSim.Vvp.Delay
import Mathlib.Data.List.Pairwise

/-
  When a delayed net settles on its input.

  Every pending output has a wake-up at its time as long as
  the queue is in the order of time.  A value that would be
  queued before the last pending output, or that is skipped
  while another one is the last, breaks this; so does a value
  that is sent before the first X, which waits on the init
  list.
-/

namespace EpicSim

----
-- Runs
----

/-
  A delayed net and its scheduler: the value that waits on the
  init list, and the wake-ups.  What was sent and what was
  received is kept, the last value first.
-/
structure DelayNet where
  fn : VvpFunDelay
  init : Option (List VvpBit4)
  clock : WakeClock
  sent : List (List VvpBit4)
  received : List (List VvpBit4)
deriving DecidableEq

namespace DelayNet

/- A new functor: an X is appended to the init list. -/
def create (delay : VvpDelay) (width : Nat) : DelayNet where
  fn := .create width delay
  init := some (List.replicate width .x)
  clock := .start
  sent := []
  received := []

/- The event of the init list sends its value. -/
def initPropagate (s : DelayNet) : DelayNet :=
  { s with init := none, sent := s.init.toList ++ s.sent }

/- A value arrives at port 0. -/
def recv (s : DelayNet) (bit : List VvpBit4) : DelayNet :=
  let (fn, out, wake) := s.fn.recvVec4 (time64 s.clock.now) bit
  { fn := fn
    init := s.init
    clock := match wake with
      | none => s.clock
      | some delay => s.clock.request delay
    sent := out.toList ++ s.sent
    received := bit :: s.received }

/- A wake-up is delivered. -/
def wake (s : DelayNet) : DelayNet :=
  let (fn, out) := s.fn.runRun (time64 s.clock.now)
  { fn := fn
    init := s.init
    clock := s.clock.deliver
    sent := out.toList ++ s.sent
    received := s.received }

/- Time goes on. -/
def advance (s : DelayNet) (t : Nat) : DelayNet :=
  { s with clock := s.clock.advance t }

end DelayNet

/-
  The states of runs with values of `wid` bits, where every
  value that arrives meets a condition.  Values may arrive
  before the functor's event of the init list has run, from
  other events of that list; the scheduler starts after it.
-/
inductive DelayReach (Ok : DelayNet → List VvpBit4 → Prop) (delay : VvpDelay)
    (width wid : Nat) : DelayNet → Prop where
| start : DelayReach Ok delay width wid (.create delay width)
| init {s : DelayNet} :
    DelayReach Ok delay width wid s →
    DelayReach Ok delay width wid s.initPropagate
| recv {s : DelayNet} {bit : List VvpBit4} :
    DelayReach Ok delay width wid s →
    bit.length = wid →
    Ok s bit →
    DelayReach Ok delay width wid (s.recv bit)
| wake {s : DelayNet} :
    DelayReach Ok delay width wid s →
    s.init = none →
    s.clock.CanDeliver →
    DelayReach Ok delay width wid s.wake
| advance {s : DelayNet} {t : Nat} :
    DelayReach Ok delay width wid s →
    s.init = none →
    s.clock.CanAdvance t →
    DelayReach Ok delay width wid (s.advance t)

/- Without wake-ups, the last value sent is the last received. -/
def DelayNet.Settled (s : DelayNet) : Prop :=
  s.clock.wakeups = [] →
  ∀ v rest, s.received = v :: rest → s.sent.head? = some v

/-
  The condition on a value that arrives.  No sum of a time
  and the delay leaves 64 bits, and: a value that is skipped
  as equal to the first pending output is equal to the last
  one too; a value that comes while the first pending output
  is due is not to be shown before the last pending one.
-/
def VvpFunDelay.Settles (d : VvpFunDelay) (now : Nat) (bit : List VvpBit4) : Prop :=
  let useDelay := d.useDelay now bit
  now + useDelay < 2 ^ 64 ∧
  (∀ e, e ∈ d.list → e.simTime + useDelay < 2 ^ 64) ∧
  ∀ head last, d.list.head? = some head →
    d.list.getLast? = some last →
    if head.ptrVec4 = bit then last.ptrVec4 = bit
    else head.simTime ≤ now → last.simTime ≤ now + useDelay

/-
  And a value without delay does not come before the first X
  has been sent, unless an output is due before it, or it is
  that X.
-/
def DelayNet.Settles (s : DelayNet) (bit : List VvpBit4) : Prop :=
  s.fn.Settles s.clock.now bit ∧
  (s.fn.useDelay s.clock.now bit = 0 →
    (∀ head, s.fn.list.head? = some head → s.clock.now < head.simTime ∧ head.ptrVec4 ≠ bit) →
    ∀ first, s.init = some first → first = bit)

----
-- The Invariant
----

namespace DelayNet

/- The queue is in order, and every entry has its wake-up. -/
structure Inv (s : DelayNet) : Prop where
  ahead : s.clock.Ahead
  small : ∀ p, p ∈ s.clock.wakeups → p < 2 ^ 64
  sorted : s.fn.list.Pairwise (fun a b => a.simTime ≤ b.simTime)
  covered : ∀ t, (s.fn.list.map DelayEvent.simTime).count t ≤ s.clock.wakeups.count t
  last :
    ∀ v rest, s.received = v :: rest →
      match s.fn.list.getLast? with
      | some e => e.ptrVec4 = v
      | none => s.sent.head? = some v ∧ ∀ first, s.init = some first → first = v

variable {s : DelayNet} {list : List DelayEvent}

/- A pending output has a wake-up at its time. -/
theorem Inv.mem_wakeups {e : DelayEvent} (h : s.Inv) (he : e ∈ s.fn.list) :
    e.simTime ∈ s.clock.wakeups := by
  apply List.count_pos_iff.mp
  have hCount : 0 < (s.fn.list.map DelayEvent.simTime).count e.simTime :=
    List.count_pos_iff.mpr (List.mem_map_of_mem he)
  have hCovered := h.covered e.simTime
  omega

theorem Inv.now_le {e : DelayEvent} (h : s.Inv) (he : e ∈ s.fn.list) : s.clock.now ≤ e.simTime :=
  h.ahead _ (h.mem_wakeups he)

theorem inv_create (delay : VvpDelay) (width : Nat) : (create delay width).Inv where
  ahead := WakeClock.ahead_start
  small := by
    intro p hp
    cases hp
  sorted := List.Pairwise.nil
  covered := by
    intro t
    exact Nat.zero_le _
  last := by
    intro v rest h
    cases h

theorem Inv.initPropagate (h : s.Inv) : s.initPropagate.Inv where
  ahead := h.ahead
  small := h.small
  sorted := h.sorted
  covered := h.covered
  last := by
    intro v rest hReceived
    have hLast := h.last v rest hReceived
    show
      match s.fn.list.getLast? with
      | some e => e.ptrVec4 = v
      | none => (s.init.toList ++ s.sent).head? = some v ∧ _
    cases hList : s.fn.list.getLast? with
    | some e =>
      rw [hList] at hLast
      exact hLast
    | none =>
      rw [hList] at hLast
      refine ⟨?_, fun first hFirst => by cases hFirst⟩
      cases hInit : s.init with
      | none => exact hLast.1
      | some first => exact congrArg some (hLast.2 first hInit)

theorem Inv.advance {t : Nat} (h : s.Inv) (hAdvance : s.clock.CanAdvance t) :
    (s.advance t).Inv where
  ahead := WakeClock.ahead_advance hAdvance
  small := h.small
  sorted := h.sorted
  covered := h.covered
  last := h.last

/- A wake-up shows the first output if it is due. -/
theorem Inv.wake (h : s.Inv) (hInit : s.init = none) (hWake : s.clock.CanDeliver) :
    s.wake.Inv := by
  have hNow : time64 s.clock.now = s.clock.now := Nat.mod_eq_of_lt (h.small _ hWake)
  have hSmall :
      ∀ p, p ∈ s.clock.deliver.wakeups → p < 2 ^ 64 := by
    intro p hp
    exact h.small p (List.mem_of_mem_erase hp)
  unfold DelayNet.wake VvpFunDelay.runRun
  rw [hNow]
  cases hList : s.fn.list with
  | nil =>
    refine ⟨h.ahead.deliver, hSmall, by rw [hList]; exact .nil, ?_, ?_⟩
    · intro t
      simp [hList]
    · exact h.last
  | cons cur rest =>
    have hCur : s.clock.now ≤ cur.simTime := h.now_le (by simp [hList])
    have hSorted := h.sorted
    rw [hList] at hSorted
    have hRest := List.pairwise_cons.mp hSorted
    by_cases hLater : cur.simTime > s.clock.now
    · simp only [if_pos hLater]
      refine ⟨h.ahead.deliver, hSmall, h.sorted, ?_, h.last⟩
      intro t
      rw [WakeClock.count_deliver]
      have hCovered := h.covered t
      show (s.fn.list.map DelayEvent.simTime).count t ≤ _
      split_ifs with ht
      · have hNone :
            (s.fn.list.map DelayEvent.simTime).count t = 0 := by
          apply List.count_eq_zero.mpr
          grind
        omega
      · omega
    · simp only [if_neg hLater]
      refine ⟨h.ahead.deliver, hSmall, hRest.2, ?_, ?_⟩
      · intro t
        rw [WakeClock.count_deliver]
        have hCovered := h.covered t
        grind
      · intro v vs hReceived
        have hLast := h.last v vs hReceived
        grind

/- The entries of a queue in order are before its last one. -/
theorem le_last {last : DelayEvent} (hSorted : list.Pairwise (fun a b => a.simTime ≤ b.simTime))
    (hLast : list.getLast? = some last) : ∀ e, e ∈ list → e.simTime ≤ last.simTime := by
  rcases List.getLast?_eq_some_iff.mp hLast with ⟨front, rfl⟩
  intro e he
  rcases List.mem_append.mp he with he | he
  · have hPair := (List.pairwise_append.mp hSorted).2.2
    exact hPair e he last (by simp)
  · rw [List.mem_singleton.mp he]

/- Either everything is dropped, or the first output is due. -/
theorem cleanPulseEvents_spec {now useDelay : Nat} (hNow : now + useDelay < 2 ^ 64)
    (hTimes : ∀ e, e ∈ list → e.simTime + useDelay < 2 ^ 64)
    (hSorted : list.Pairwise (fun a b => a.simTime ≤ b.simTime)) :
    VvpFunDelay.cleanPulseEvents now useDelay list = [] ∨
    VvpFunDelay.cleanPulseEvents now useDelay list = list ∧
      ∃ head, list.head? = some head ∧ head.simTime ≤ now := by
  have hSum : time64 (useDelay + now) = useDelay + now := Nat.mod_eq_of_lt (by omega)
  induction list with
  | nil => exact Or.inl rfl
  | cons cur rest ih =>
    have hPair := List.pairwise_cons.mp hSorted
    have hCur : time64 (cur.simTime + useDelay) = cur.simTime + useDelay :=
      Nat.mod_eq_of_lt (hTimes cur (by simp))
    unfold VvpFunDelay.cleanPulseEvents
    rw [hSum, hCur]
    by_cases hDue : cur.simTime + useDelay ≤ useDelay + now
    · grind
    · rw [if_neg hDue]
      have hRest := ih (fun e he => hTimes e (by simp [he])) hPair.2
      left
      rcases hRest with hNone | ⟨hAll, head, hHead, hTime⟩
      · exact hNone
      · exfalso
        have hLe := hPair.1 head (List.mem_of_mem_head? hHead)
        omega

/- Where everything is dropped, the first output is later. -/
theorem cleanPulseEvents_later {now useDelay : Nat} (hNow : now + useDelay < 2 ^ 64)
    (hTimes : ∀ e, e ∈ list → e.simTime + useDelay < 2 ^ 64)
    (hNone : VvpFunDelay.cleanPulseEvents now useDelay list = []) {head : DelayEvent}
    (hHead : list.head? = some head) : now < head.simTime := by
  rcases List.head?_eq_some_iff.mp hHead with ⟨tail, rfl⟩
  have hSum : time64 (useDelay + now) = useDelay + now := Nat.mod_eq_of_lt (by omega)
  have hTime : time64 (head.simTime + useDelay) = head.simTime + useDelay :=
    Nat.mod_eq_of_lt (hTimes head (by simp))
  unfold VvpFunDelay.cleanPulseEvents at hNone
  rw [hSum, hTime] at hNone
  split_ifs at hNone
  omega

/- A new output at the end of what is left of the queue. -/
theorem Inv.enqueue {useDelay : Nat} {bit : List VvpBit4} (h : s.Inv)
    (hSmall : s.clock.now + useDelay < 2 ^ 64) (hList : list.Sublist s.fn.list)
    (hBefore : ∀ e, e ∈ list → e.simTime ≤ s.clock.now + useDelay) :
    Inv
      ⟨{ s.fn with
          list := list ++ [⟨s.clock.now + useDelay, bit⟩] },
        s.init, s.clock.request useDelay, s.sent,
        bit :: s.received⟩ where
  ahead := h.ahead.request useDelay
  small := by
    intro p hp
    rcases List.mem_cons.mp hp with rfl | hp
    · exact hSmall
    · exact h.small p hp
  sorted := by
    apply List.pairwise_append.mpr
    refine ⟨h.sorted.sublist hList, List.pairwise_singleton _ _, ?_⟩
    intro a ha b hb
    rw [List.mem_singleton.mp hb]
    exact hBefore a ha
  covered := by
    intro t
    have hCovered := h.covered t
    have hFewer :
        (list.map DelayEvent.simTime).count t ≤ (s.fn.list.map DelayEvent.simTime).count t :=
      (hList.map _).count_le t
    rw [WakeClock.count_request, List.map_append, List.count_append]
    simp only [List.map_cons, List.map_nil, List.count_singleton, beq_iff_eq]
    omega
  last := by
    intro v rest hReceived
    have hValue : bit = v := (List.cons.inj hReceived).1
    show
      match (list ++ [_]).getLast? with
      | some e => e.ptrVec4 = v
      | none => _
    rw [List.getLast?_append]
    exact hValue

/- What arrives under the condition keeps the invariant. -/
theorem Inv.recv {s : DelayNet} {bit : List VvpBit4} (h : s.Inv)
    (hOk : s.Settles bit) : (s.recv bit).Inv := by
  rcases hOk with ⟨⟨hSum, hTimes, hOrder⟩, hFirst⟩
  have hNow : time64 s.clock.now = s.clock.now := Nat.mod_eq_of_lt (by omega)
  have hTime :
      time64 (s.clock.now + s.fn.useDelay s.clock.now bit) =
        s.clock.now + s.fn.useDelay s.clock.now bit :=
    Nat.mod_eq_of_lt hSum
  unfold DelayNet.recv VvpFunDelay.recvVec4
  rw [hNow]
  by_cases hSkip : s.fn.skips bit = true
  · simp only [hSkip]
    refine ⟨h.ahead, h.small, h.sorted, h.covered, ?_⟩
    intro v rest hReceived
    have hValue : bit = v := (List.cons.inj hReceived).1
    show
      match s.fn.list.getLast? with
      | some e => e.ptrVec4 = v
      | none => _
    unfold VvpFunDelay.skips at hSkip
    cases hList : s.fn.list with
    | nil =>
      rw [hList] at hSkip
      cases hSkip
    | cons head tail => grind
  · simp only [hSkip, if_false, Bool.false_eq_true]
    rcases cleanPulseEvents_spec hSum hTimes h.sorted with hNone | ⟨hAll, head, hHead, hDue⟩
    · rw [hNone]
      by_cases hZero : s.fn.useDelay s.clock.now bit = 0
      · rw [if_pos ⟨hZero, rfl⟩]
        refine ⟨h.ahead, h.small, List.Pairwise.nil, ?_, ?_⟩
        · intro t
          exact Nat.zero_le _
        · intro v rest hReceived
          have hValue : bit = v := (List.cons.inj hReceived).1
          rw [← hValue]
          refine ⟨rfl, hFirst hZero (fun head hHead => ⟨?_, ?_⟩)⟩
          · exact cleanPulseEvents_later hSum hTimes hNone hHead
          · intro hEqual
            apply hSkip
            unfold VvpFunDelay.skips
            grind
      · rw [if_neg (fun hBoth => hZero hBoth.1), hTime]
        exact h.enqueue hSum (List.nil_sublist _) (by simp)
    · rw [hAll]
      have hNil : s.fn.list ≠ [] := by
        intro hNil
        rw [hNil] at hHead
        cases hHead
      rw [if_neg (fun hBoth => hNil hBoth.2), hTime]
      apply h.enqueue hSum (List.Sublist.refl _)
      have hOther : head.ptrVec4 ≠ bit := by
        intro hEqual
        apply hSkip
        unfold VvpFunDelay.skips
        grind
      cases hLast : s.fn.list.getLast? with
      | none => exact absurd (List.getLast?_eq_none_iff.mp hLast) hNil
      | some last =>
        have hLater := hOrder head last hHead hLast
        rw [if_neg hOther] at hLater
        intro e he
        exact (le_last h.sorted hLast e he).trans (hLater hDue)

theorem inv_of_reach {delay : VvpDelay} {width wid : Nat}
    (hReach : DelayReach DelayNet.Settles delay width wid s) : s.Inv := by
  induction hReach with
  | start => exact inv_create delay width
  | init _ ih => exact ih.initPropagate
  | recv _ _ hOk ih => exact ih.recv hOk
  | wake _ hInit hWake ih => exact ih.wake hInit hWake
  | advance _ _ hAdvance ih => exact ih.advance hAdvance

end DelayNet

----
-- Settling
----

/-
  When every value that arrives meets the condition, the net
  settles on its input.
-/
theorem delay_settles {delay : VvpDelay} {width wid : Nat} {s : DelayNet}
    (hReach : DelayReach DelayNet.Settles delay width wid s) : s.Settled := by
  intro hNone v rest hReceived
  have h := DelayNet.inv_of_reach hReach
  have hLast := h.last v rest hReceived
  cases hList : s.fn.list with
  | nil =>
    rw [hList] at hLast
    exact hLast.1
  | cons head tail =>
    exfalso
    have hMem := h.mem_wakeups (e := head) (by simp [hList])
    rw [hNone] at hMem
    cases hMem

/- A value that comes before the first X, and is shown after
   its delay. -/
theorem delay_settles_rise :
    (((DelayNet.create (.ofTwo 5 5) 1).recv [.one]).initPropagate.advance 5).wake.sent =
      [[.one], [.x]] ∧
    (((DelayNet.create (.ofTwo 5 5) 1).recv [.one]).initPropagate.advance 5).wake.Settled := by
  have hArrives : DelayNet.Settles (.create (.ofTwo 5 5) 1) [.one] := by
    refine ⟨⟨by decide, by decide, ?_⟩, fun hZero => absurd hZero (by decide)⟩
    intro head last hHead
    cases hHead
  have hReach :
      DelayReach DelayNet.Settles (.ofTwo 5 5) 1 1
        (((DelayNet.create (.ofTwo 5 5) 1).recv [.one]).initPropagate.advance 5).wake := by
    apply DelayReach.wake _ rfl (by decide)
    apply DelayReach.advance _ rfl (by decide)
    apply DelayReach.init
    exact DelayReach.recv DelayReach.start rfl hArrives
  exact ⟨by decide, delay_settles hReach⟩

/-
  A pulse of 0 is over in the time step in which it begins,
  before the wake-up that shows the 1 before it: the second 1
  is skipped, and the net ends at 0.
-/
theorem delay_stuck :
    ¬ ∀ (delay : VvpDelay) (width wid : Nat) (s : DelayNet),
      DelayReach (fun _ _ => True) delay width wid s →
      s.Settled := by
  intro hAll
  have hSettled := hAll (.ofTwo 5 5) 1 1
    ((((((DelayNet.create (.ofTwo 5 5) 1).initPropagate.recv [.one]).advance
      5).recv [.zero]).recv [.one]).wake.advance 10).wake (by
      apply DelayReach.wake _ rfl (by decide)
      apply DelayReach.advance _ rfl (by decide)
      apply DelayReach.wake _ rfl (by decide)
      refine DelayReach.recv ?_ rfl trivial
      refine DelayReach.recv ?_ rfl trivial
      apply DelayReach.advance _ rfl (by decide)
      exact DelayReach.recv (DelayReach.init DelayReach.start) rfl trivial)
  have hLast := hSettled (by decide) [.one] [[.zero], [.one]] (by decide)
  revert hLast
  decide

end EpicSim
