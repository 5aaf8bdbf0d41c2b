import Mathlib.Algebra.Order.BigOperators.Group.List
import Mathlib.Algebra.Group.Action.Defs
import EpicSim.Lib.RingBuffer
import EpicSim.Vpi.QueueAverage

/-
  What a queue is for: it keeps what was added in order of
  arrival, and all that was measured since it was initialized.
-/

namespace EpicSim

open List (zipWith length_append length_singleton head?_cons length_cons getLast?_singleton
  mem_singleton mem_append tail_cons mem_cons_self sum_cons mem_map)
open Option (bind_eq_bind bind_some some_or map_some)
open RingBuffer

----
-- Histories
----

/-
  A queue with its history: the elements that wait, in order
  of arrival, the times of all the adds, the waits of all the
  removed elements, and all the lengths it has had.
-/
structure QueueHistory where
  lifo : Bool
  length : Nat
  waiting : List QueueElem
  adds : List Nat
  waits : List Nat
  lengths : List Nat

namespace QueueHistory

def start (lifo : Bool) (length : Nat) : QueueHistory :=
  ⟨lifo, length, [], [], [], []⟩

def add (h : QueueHistory) (e : QueueElem) : QueueHistory :=
  { h with
    waiting := h.waiting ++ [e]
    adds := h.adds ++ [e.time]
    lengths := h.lengths ++ [h.waiting.length + 1] }

/- The element that leaves next, and those that stay. -/
def next (h : QueueHistory) : Option (QueueElem × List QueueElem) :=
  if h.lifo then
    h.waiting.getLast?.map fun e => (e, h.waiting.dropLast)
  else
    h.waiting.head?.map fun e => (e, h.waiting.tail)

def remove (h : QueueHistory) (now : Nat) (e : QueueElem) (rest : List QueueElem) : QueueHistory :=
  { h with
    waiting := rest
    waits := h.waits ++ [now - e.time]
    lengths := h.lengths ++ [rest.length] }

/- The times between arrivals. -/
def gaps (h : QueueHistory) : List Nat :=
  zipWith (fun a b => b - a) h.adds h.adds.tail

def mean (h : QueueHistory) : Nat :=
  h.gaps.sum / h.gaps.length

def maxLength (h : QueueHistory) : Nat :=
  h.lengths.foldl max 0

/- How long the elements that wait have waited so far. -/
def waitsNow (h : QueueHistory) (now : Nat) : List Nat :=
  h.waiting.map fun e => now - e.time

def average (h : QueueHistory) (now : Nat) : Nat :=
  (h.waits.sum + (h.waitsNow now).sum) / h.adds.length

end QueueHistory

namespace QueueReply

def valueOr : Option Nat → QueueReply
| some n => ⟨.OK, none, some n⟩
| none => .only .NO_STATISTICS

end QueueReply

/- The six statistics of a queue. -/
def QueueHistory.exam (h : QueueHistory) (code : Int) (now : Nat) : QueueReply :=
  if code = 1 then .valueOr (some h.waiting.length)
  else if code = 2 then
    .valueOr (if h.adds.length ≥ 2 then some h.mean else none)
  else if code = 3 then .valueOr (some h.maxLength)
  else if code = 4 then .valueOr h.waits.min?
  else if code = 5 then .valueOr (h.waitsNow now).max?
  else if code = 6 then
    .valueOr (if h.adds = [] then none
      else some (h.average now))
  else .only .UNDEFINED_STAT_CODE

namespace QueueCall

/- What a call does to the queues, known by their ids. -/
def specStep (queues : Int → Option QueueHistory) (now : Nat) :
    QueueCall → QueueReply × (Int → Option QueueHistory)
| initialise none _ _ _ => (.only .UNDEFINED_ID, queues)
| initialise _ none _ _ => (.only .UNSUPPORTED_TYPE, queues)
| initialise (some id) (some type) length memory =>
  if type ≠ IVL_QUEUE_FIFO ∧ type ≠ IVL_QUEUE_LIFO then
    (.only .UNSUPPORTED_TYPE, queues)
  else
    match length with
    | none => (.only .INVALID_LENGTH, queues)
    | some length =>
      if length ≤ 0 then (.only .INVALID_LENGTH, queues)
      else if (queues id).isSome then
        (.only .DUPLICATE_ID, queues)
      else if memory then
        (.only .OK, Function.update queues id (some (.start (type = IVL_QUEUE_LIFO) length.toNat)))
      else (.only .OUT_OF_MEMORY, queues)
| add id job inform =>
  match id.bind fun id => (queues id).map (id, ·) with
  | none => (.only .UNDEFINED_ID, queues)
  | some (id, h) =>
    if h.waiting.length < h.length then
      (.only .OK, Function.update queues id (some (h.add ⟨now, job, inform⟩)))
    else (.only .FULL, queues)
| remove id =>
  match id.bind fun id => (queues id).map (id, ·) with
  | none => (.only .UNDEFINED_ID, queues)
  | some (id, h) =>
    match h.next with
    | none => (.only .EMPTY, queues)
    | some (e, rest) =>
      (⟨.OK, some (e.job, e.inform), none⟩, Function.update queues id (some (h.remove now e rest)))
| full id =>
  match id.bind queues with
  | none => (.only .UNDEFINED_ID, queues)
  | some h => (⟨.OK, none, some (if h.length ≤ h.waiting.length then 1 else 0)⟩, queues)
| exam id code =>
  match id.bind queues with
  | none => (.only .UNDEFINED_ID, queues)
  | some h =>
    match code with
    | none => (.only .UNDEFINED_STAT_CODE, queues)
    | some code => (h.exam code now, queues)

/- The replies to a sequence of calls, and the queues after. -/
def specRun :
    (Int → Option QueueHistory) → List (Nat × QueueCall) →
      List QueueReply × (Int → Option QueueHistory)
| queues, [] => ([], queues)
| queues, (now, call) :: calls =>
  let (reply, queues) := specStep queues now call
  let (replies, queues) := specRun queues calls
  (reply :: replies, queues)

end QueueCall

----
-- The Relation
----

/-
  The fields of a queue are those that its history asks for,
  at a time that is not before anything in the history.
-/
structure QueueBase.Represents (b : QueueBase) (h : QueueHistory) (now : Nat) : Prop where
  type : b.type =
    if h.lifo then IVL_QUEUE_LIFO else IVL_QUEUE_FIFO
  length : b.length = h.length
  cells : b.queue.length = h.length
  ring : ∃ head : Nat, b.head = head ∧ (h.lifo → head = 0) ∧ Buffered b.queue head h.waiting
  elems : b.elems = h.waiting.length
  longest : b.max_len = h.maxLength
  within : h.waiting.length ≤ h.maxLength
  adds : b.number_of_adds = h.adds.length
  first : ∀ t, h.adds.head? = some t → b.first_add_time = t
  latest : ∀ t, h.adds.getLast? = some t → b.latest_add_time = t
  sorted : h.adds.Pairwise (· ≤ ·)
  past : ∀ t ∈ h.adds, t ≤ now
  arrival : h.waiting.Pairwise fun e f => e.time ≤ f.time
  waitingPast : ∀ e ∈ h.waiting, e.time ≤ now
  count : h.waits.length + h.waiting.length = h.adds.length
  bound : h.adds.length ≤ UINT64_MAX
  low : b.wait_time_low < 2 ^ 64
  total : b.wait_time_high * 2 ^ 64 + b.wait_time_low = h.waits.sum
  waits : ∀ w ∈ h.waits, w ≤ UINT64_MAX
  shortest : b.shortest_wait_time = h.waits.foldl min UINT64_MAX
  measured : b.have_shortest_statistic = true ↔ h.waits ≠ []

variable {b : QueueBase} {h : QueueHistory} {now now' : Nat}

/- Time may pass. -/
theorem QueueBase.Represents.later (hRep : b.Represents h now) (hNow : now ≤ now') :
    b.Represents h now' :=
  { hRep with
    past := fun t ht => (hRep.past t ht).trans hNow
    waitingPast := fun e he => (hRep.waitingPast e he).trans hNow }

theorem queue_start (id : Int) {type length : Int}
    (hType : type = IVL_QUEUE_FIFO ∨ type = IVL_QUEUE_LIFO) (hLength : 0 < length) (now : Nat) :
    (createQueue id type length).Represents
      (.start (decide (type = IVL_QUEUE_LIFO)) length.toNat)
      now where
  type := by rcases hType with rfl | rfl <;> rfl
  length := (Int.toNat_of_nonneg hLength.le).symm
  cells := List.length_replicate
  ring := ⟨0, rfl, fun _ => rfl, Buffered.empty (by omega)⟩
  elems := rfl
  longest := rfl
  within := Nat.le_refl 0
  adds := rfl
  first := fun _ ht => by cases ht
  latest := fun _ ht => by cases ht
  sorted := List.Pairwise.nil
  past := fun _ ht => by cases ht
  arrival := List.Pairwise.nil
  waitingPast := fun _ he => by cases he
  count := rfl
  bound := Nat.zero_le _
  low := Nat.two_pow_pos 64
  total := by
    rw [createQueue, Nat.zero_mul]
    rfl
  waits := fun _ hw => by cases hw
  shortest := rfl
  measured := by simp [createQueue, QueueHistory.start]

----
-- Adding
----

theorem writeElem_place {queue : List (Option QueueElem)} {place : Nat}
    (hPlace : place < queue.length) (e : QueueElem) :
    writeElem queue place e = some (queue.set place (some e)) := by
  rw [writeElem, if_pos]
  · rfl
  · exact ⟨Int.natCast_nonneg place, hPlace⟩

variable {e : QueueElem} {rest : List QueueElem}

theorem readElem_place {queue : List (Option QueueElem)} {place : Nat}
    (hCell : queue[place]? = some (some e)) : readElem queue place = some e := by
  rw [readElem, Int.toNat_natCast, hCell]
  rfl

/- A new element goes behind the ones that wait. -/
theorem addLoc_spec {head : Nat} (hRep : b.Represents h now)
    (hHead : b.head = head) (hLifo : h.lifo → head = 0)
    (hRing : Buffered b.queue head h.waiting) (hRoom : h.waiting.length < h.length)
    (hFits : b.type = IVL_QUEUE_FIFO → b.head + b.elems < 2 ^ 31) :
    addLoc b = some
      (((head + h.waiting.length) % b.queue.length : Nat) :
        Int) := by
  have hHeadLt := hRing.head_lt
  rw [hRep.cells] at hHeadLt ⊢
  have hType := hRep.type
  unfold addLoc
  by_cases hKind : h.lifo
  · rw [if_pos hKind] at hType
    have hZero : b.head = 0 := by
      rw [hHead, hLifo hKind]
      rfl
    rw [if_pos hType, if_pos hZero, hLifo hKind, hRep.elems, Nat.zero_add, Nat.mod_eq_of_lt hRoom]
  · rw [if_neg hKind] at hType
    have hSum := hFits hType
    rw [hHead, hRep.elems] at hSum
    rw [if_neg (by rw [hType]; decide), if_pos hType, hHead,
      hRep.elems, addInt32, if_pos ⟨by omega, hSum⟩, hRep.length]
    rw [← place_of_sum hHeadLt hRoom]
    change (if (head : Int) + h.waiting.length ≥ h.length
      then _ else _) = _
    grind

theorem foldl_max_append (l : List Nat) (n : Nat) :
    (l ++ [n]).foldl max 0 = max (l.foldl max 0) n := by
  rw [List.foldl_append]
  rfl

theorem queue_add (hRep : b.Represents h now) (hRoom : h.waiting.length < h.length)
    (hFits : b.type = IVL_QUEUE_FIFO → b.head + b.elems < 2 ^ 31)
    (hAdds : b.number_of_adds < UINT64_MAX) (job inform : VpiVecval) :
    ∃ b', addToQueue b job inform now = some (false, b') ∧
      b'.id = b.id ∧
      b'.Represents (h.add ⟨now, job, inform⟩) now := by
  rcases hRep.ring with ⟨head, hHead, hLifo, hRing⟩
  have hLoc := addLoc_spec hRep hHead hLifo hRing hRoom hFits
  have hElems := hRep.elems
  have hLength := hRep.length
  unfold addToQueue
  rw [if_pos (by omega), if_neg (by omega), hLoc]
  simp only [bind_eq_bind, bind_some, writeElem_place (hRing.place_lt _), if_pos hAdds]
  refine ⟨_, rfl, rfl, ?_⟩
  have hLongest := hRep.longest
  have hWithin := hRep.within
  have hMax : (h.add ⟨now, job, inform⟩).maxLength = max h.maxLength (h.waiting.length + 1) :=
    foldl_max_append h.lengths (h.waiting.length + 1)
  have hCount := hRep.count
  have hNumber := hRep.adds
  refine
    { type := hRep.type
      length := hRep.length
      cells := ?_
      ring := ⟨head, hHead, hLifo, ?_⟩
      elems := ?_
      longest := ?_
      within := ?_
      adds := ?_
      first := ?_
      latest := ?_
      sorted := ?_
      past := ?_
      arrival := ?_
      waitingPast := ?_
      count := ?_
      bound := ?_
      low := hRep.low
      total := hRep.total
      waits := hRep.waits
      shortest := hRep.shortest
      measured := hRep.measured }
  · rw [List.length_set]
    exact hRep.cells
  · apply hRing.push
    rw [hRep.cells]
    exact hRoom
  · simp only [QueueHistory.add, length_append, length_singleton]
    omega
  · dsimp only
    split <;> omega
  · rw [hMax]
    simp only [QueueHistory.add, length_append, length_singleton]
    omega
  · simp only [QueueHistory.add, length_append, length_singleton]
    omega
  · intro t ht
    rcases hOld : h.adds with _ | ⟨t₀, older⟩
    · rw [hOld] at hNumber
      simp only [QueueHistory.add, hOld, List.nil_append, head?_cons, Option.some.injEq] at ht
      rw [hNumber, List.length_nil, if_pos (Nat.zero_add 1), ht]
    · rw [hOld] at hNumber
      have hFirst := hRep.first t₀ (by rw [hOld]; rfl)
      simp only [QueueHistory.add, hOld, List.cons_append, head?_cons, Option.some.injEq] at ht
      grind
  · intro t ht
    simp only [QueueHistory.add, List.getLast?_append,
      getLast?_singleton, some_or, Option.some.injEq] at ht
    exact ht
  · rw [QueueHistory.add, List.pairwise_append]
    refine ⟨hRep.sorted, List.pairwise_singleton _ _, ?_⟩
    intro t ht u hu
    rw [mem_singleton.mp hu]
    exact hRep.past t ht
  · intro t ht
    rcases mem_append.mp ht with ht | ht
    · exact hRep.past t ht
    · exact Nat.le_of_eq (mem_singleton.mp ht)
  · rw [QueueHistory.add, List.pairwise_append]
    refine ⟨hRep.arrival, List.pairwise_singleton _ _, ?_⟩
    intro e he f hf
    rw [mem_singleton.mp hf]
    exact hRep.waitingPast e he
  · intro e he
    rcases mem_append.mp he with he | he
    · exact hRep.waitingPast e he
    · rw [mem_singleton.mp he]
  · simp only [QueueHistory.add, length_append, length_singleton]
    omega
  · simp only [QueueHistory.add, length_append, length_singleton]
    omega

theorem addToQueue_full (hRep : b.Represents h now) (hFull : ¬h.waiting.length < h.length)
    (job inform : VpiVecval) : addToQueue b job inform now = some (true, b) := by
  rcases hRep.ring with ⟨head, -, -, hRing⟩
  have hFitsRing := hRing.fits
  have hElems := hRep.elems
  have hLength := hRep.length
  rw [hRep.cells] at hFitsRing
  unfold addToQueue
  rw [if_pos (by omega), if_pos (by omega)]

----
-- Removing
----

/- Where the next element is, and what the ring keeps. -/
theorem removeLoc_spec {head : Nat} (hRep : b.Represents h now)
    (hHead : b.head = head) (hLifo : h.lifo → head = 0)
    (hRing : Buffered b.queue head h.waiting) (hNext : h.next = some (e, rest)) :
    ∃ place head' : Nat,
      removeLoc b = some ((place : Int), (head' : Int)) ∧
      b.queue[place]? = some (some e) ∧
      (h.lifo → head' = 0) ∧ Buffered b.queue head' rest := by
  have hType := hRep.type
  have hElems := hRep.elems
  unfold QueueHistory.next at hNext
  unfold removeLoc
  by_cases hKind : h.lifo
  · rw [if_pos hKind] at hType hNext
    rcases List.eq_nil_or_concat h.waiting with hNil | ⟨front, last, hWaiting⟩
    · rw [hNil] at hNext
      cases hNext
    · rw [List.concat_eq_append] at hWaiting
      rw [hWaiting] at hNext hRing hElems
      simp only [List.getLast?_append, List.dropLast_concat, getLast?_singleton,
        some_or, map_some, Option.some.injEq, Prod.mk.injEq] at hNext
      rcases hNext with ⟨rfl, rfl⟩
      rcases hRing.popBack with ⟨hCell, hRest⟩
      have hFits := hRing.fits
      have hZero := hLifo hKind
      rw [length_append, length_singleton] at hFits hElems
      rw [hZero] at hCell
      have hHeadZero : b.head = 0 := by
        rw [hHead, hZero]
        rfl
      refine ⟨front.length, head, ?_, ?_, hLifo, hRest⟩
      · grind
      · rwa [Nat.zero_add, Nat.mod_eq_of_lt (by omega)] at hCell
  · rw [if_neg hKind] at hType hNext
    rcases hWaiting : h.waiting with _ | ⟨first, others⟩
    · rw [hWaiting] at hNext
      cases hNext
    · rw [hWaiting] at hNext hRing
      rcases hNext with ⟨rfl, rfl⟩
      rcases hRing.popFront with ⟨hCell, hRest⟩
      have hHeadLt := hRing.head_lt
      have hPlace := place_succ hHeadLt
      rw [← hPlace] at hRest
      refine ⟨head, _, ?_, hCell, fun hNot => absurd hNot hKind, hRest⟩
      rw [if_neg (by rw [hType]; decide), if_pos hType, hHead, hRep.length, ← hRep.cells]
      grind

/- The next element is one of those that wait. -/
theorem next_spec (hNext : h.next = some (e, rest)) :
    h.waiting.Perm (e :: rest) ∧ rest.Sublist h.waiting := by
  unfold QueueHistory.next at hNext
  by_cases hKind : h.lifo
  · rw [if_pos hKind] at hNext
    rcases List.eq_nil_or_concat h.waiting with hNil | ⟨front, last, hWaiting⟩
    · rw [hNil] at hNext
      cases hNext
    · rw [List.concat_eq_append] at hWaiting
      rw [hWaiting] at hNext ⊢
      simp only [List.getLast?_append, List.dropLast_concat] at hNext
      rcases hNext with ⟨rfl, rfl⟩
      exact ⟨List.perm_append_singleton _ _, List.sublist_append_left _ _⟩
  · rw [if_neg hKind] at hNext
    rcases hWaiting : h.waiting with _ | ⟨first, others⟩
    · rw [hWaiting] at hNext
      cases hNext
    · grind

theorem next_none (hNext : h.next = none) : h.waiting = [] := by
  unfold QueueHistory.next at hNext
  split at hNext
  · rw [Option.map_eq_none_iff] at hNext
    exact List.getLast?_eq_none_iff.mp hNext
  · rw [Option.map_eq_none_iff] at hNext
    exact List.head?_eq_none_iff.mp hNext

/- The waits measured so far fit well into two words. -/
theorem sum_le_length (l : List Nat) (bound : Nat) (h : ∀ n ∈ l, n ≤ bound) :
    l.sum ≤ l.length * bound := by
  have hSum := List.sum_le_card_nsmul l bound h
  rwa [smul_eq_mul] at hSum

theorem queue_remove (hRep : b.Represents h now) (hNow : now < 2 ^ 64)
    (hNext : h.next = some (e, rest)) :
    ∃ b', removeFromQueue b now = some (some (e.job, e.inform), b') ∧
      b'.id = b.id ∧
      b'.Represents (h.remove now e rest) now := by
  rcases hRep.ring with ⟨head, hHead, hLifo, hRing⟩
  rcases removeLoc_spec hRep hHead hLifo hRing hNext with
    ⟨place, head', hLoc, hCell, hLifo', hRing'⟩
  rcases next_spec hNext with ⟨hPerm, hSub⟩
  have hElems := hRep.elems
  have hLength := hPerm.length_eq
  rw [length_cons] at hLength
  have hPast : e.time ≤ now := hRep.waitingPast e (hPerm.mem_iff.mpr mem_cons_self)
  have hCount := hRep.count
  have hBound := hRep.bound
  have hWaits := sum_le_length _ _ hRep.waits
  have hTotal := hRep.total
  have hRoom : b.wait_time_high * 2 ^ 64 + b.wait_time_low +
      (now - e.time) < (2 ^ 64 - 1) * 2 ^ 64 := by
    have hFew : h.waits.length * UINT64_MAX ≤ (2 ^ 64 - 2) * UINT64_MAX := by
      apply Nat.mul_le_mul_right
      unfold UINT64_MAX at hBound
      omega
    unfold UINT64_MAX at hFew hWaits
    omega
  rcases addToWaitTime_spec hRep.low (by omega) (Nat.lt_of_lt_of_le hRoom (by decide)) with
    ⟨high, low, hAdd, hLow, hSum⟩
  unfold removeFromQueue
  rw [if_pos (by omega), if_neg (by omega), hLoc]
  simp only [bind_eq_bind, bind_some, readElem_place hCell, if_pos hPast, hAdd]
  refine ⟨_, rfl, rfl, ?_⟩
  have hMax : (h.remove now e rest).maxLength = max h.maxLength rest.length :=
    foldl_max_append h.lengths rest.length
  have hWithin := hRep.within
  refine
    { type := hRep.type
      length := hRep.length
      cells := hRep.cells
      ring := ⟨head', rfl, hLifo', hRing'⟩
      elems := ?_
      longest := ?_
      within := ?_
      adds := hRep.adds
      first := hRep.first
      latest := hRep.latest
      sorted := hRep.sorted
      past := hRep.past
      arrival := hRep.arrival.sublist hSub
      waitingPast := fun f hf => hRep.waitingPast f (hSub.subset hf)
      count := ?_
      bound := hRep.bound
      low := hLow
      total := ?_
      waits := ?_
      shortest := ?_
      measured := ?_ }
  · simp only [QueueHistory.remove]
    omega
  · rw [hMax, Nat.max_eq_left (by omega)]
    exact hRep.longest
  · rw [hMax]
    exact Nat.le_max_right _ _
  · simp only [QueueHistory.remove, length_append, length_singleton]
    omega
  · change high * 2 ^ 64 + low = (h.waits ++ [now - e.time]).sum
    rw [List.sum_append, List.sum_singleton, hSum, hTotal]
  · intro w hw
    rcases mem_append.mp hw with hw | hw
    · exact hRep.waits w hw
    · rw [mem_singleton.mp hw]
      unfold UINT64_MAX
      omega
  · simp only [QueueHistory.remove, List.foldl_append,
      List.foldl_cons, List.foldl_nil, ← hRep.shortest]
    split <;> omega
  · simp [QueueHistory.remove]

theorem removeFromQueue_empty (hRep : b.Represents h now) (hNext : h.next = none) :
    removeFromQueue b now = some (none, b) := by
  have hElems := hRep.elems
  rw [next_none hNext, List.length_nil] at hElems
  unfold removeFromQueue
  rw [if_pos (by omega), if_pos (by omega)]

----
-- Statistics
----

/- The gaps between ordered times add up to the whole span. -/
theorem sum_gaps (first : Nat) (times : List Nat) (last : Nat)
    (hSorted : (first :: times).Pairwise (· ≤ ·)) (hLast : (first :: times).getLast? = some last) :
    (zipWith (fun a b => b - a) (first :: times) times).sum = last - first ∧ first ≤ last := by
  induction times generalizing first with
  | nil =>
    rw [getLast?_singleton, Option.some_inj] at hLast
    rw [hLast, Nat.sub_self]
    exact ⟨rfl, Nat.le_refl last⟩
  | cons second times ih =>
    rw [List.pairwise_cons] at hSorted
    rcases ih second hSorted.2 hLast with ⟨hSum, hLe⟩
    have hFirst := hSorted.1 second mem_cons_self
    rw [List.zipWith_cons_cons, sum_cons]
    omega

theorem getMean_spec (hRep : b.Represents h now) (hTwo : h.adds.length ≥ 2) :
    getMeanInterarrivalTime b = h.mean := by
  have hNumber := hRep.adds
  unfold getMeanInterarrivalTime QueueHistory.mean QueueHistory.gaps
  rcases hAdds : h.adds with _ | ⟨first, times⟩
  · rw [hAdds] at hTwo
    cases hTwo
  · have hFirst := hRep.first first (by rw [hAdds]; rfl)
    obtain ⟨last, hLast⟩ : ∃ t, h.adds.getLast? = some t := by
      rw [hAdds]
      exact ⟨_, List.getLast?_cons⟩
    have hSorted := hRep.sorted
    have hLatest := hRep.latest last hLast
    rw [hAdds] at hSorted hLast hNumber
    rw [tail_cons, (sum_gaps _ _ _ hSorted hLast).1, hFirst, hLatest, hNumber,
      List.length_zipWith, length_cons, Nat.add_sub_cancel, Nat.min_eq_right (Nat.le_succ _)]

theorem foldl_min_of_le {bound first : Nat} {rest : List Nat} (hFirst : first ≤ bound) :
    (first :: rest).foldl min bound = rest.foldl min first := by
  rw [List.foldl_cons, Nat.min_eq_right hFirst]

theorem shortest_spec (hRep : b.Represents h now) (hSome : h.waits ≠ []) :
    h.waits.min? = some b.shortest_wait_time := by
  have hShort := hRep.shortest
  have hBound := hRep.waits
  rcases hWaits : h.waits with _ | ⟨first, rest⟩
  · exact absurd hWaits hSome
  · rw [hWaits] at hShort hBound
    rw [hShort, List.min?_cons', foldl_min_of_le (hBound first mem_cons_self)]

section

variable {first : QueueElem} {others : List QueueElem} (hRep : b.Represents h now)
  (hWaiting : h.waiting = first :: others)

include hRep hWaiting

/- The oldest of the waiting elements has waited longest. -/
theorem longest_spec : (h.waitsNow now).max? = some (now - first.time) := by
  have hArrival := hRep.arrival
  rw [hWaiting, List.pairwise_cons] at hArrival
  rw [QueueHistory.waitsNow, hWaiting, List.max?_eq_some_iff]
  refine ⟨mem_map.mpr ⟨first, mem_cons_self, rfl⟩, ?_⟩
  intro w hw
  rcases mem_map.mp hw with ⟨e, he, rfl⟩
  rcases List.mem_cons.mp he with rfl | he
  · exact Nat.le_refl _
  · have hLe := hArrival.1 e he
    omega

theorem getLongest_spec :
    getLongestQueueTime b now = some (now - first.time) := by
  rcases hRep.ring with ⟨head, hHead, -, hRing⟩
  have hPast := hRep.waitingPast first (by rw [hWaiting]; exact mem_cons_self)
  rw [hWaiting] at hRing
  unfold getLongestQueueTime
  rw [hHead, readElem_place hRing.popFront.1]
  exact if_pos hPast

end

/- The walk over the ring adds the waits of what is in it. -/
theorem waitingTotal_spec {content : List QueueElem} {place high low : Nat}
    (hLength : b.length = b.queue.length)
    (hRing : Buffered b.queue place content) (hNow : now < 2 ^ 64)
    (hPast : ∀ e ∈ content, e.time ≤ now) (hLow : low < 2 ^ 64)
    (hFits : high * 2 ^ 64 + low + content.length * UINT64_MAX < (2 ^ 64 - 1) * 2 ^ 64) :
    ∃ high' low', waitingTotal b now content.length place high low = some (high', low') ∧
      low' < 2 ^ 64 ∧
      high' * 2 ^ 64 + low' = high * 2 ^ 64 + low + (content.map fun e => now - e.time).sum := by
  induction content generalizing place high low with
  | nil => exact ⟨high, low, rfl, hLow, (Nat.add_zero _).symm⟩
  | cons e rest ih =>
    rcases hRing.popFront with ⟨hCell, hRest⟩
    have hPastE := hPast e mem_cons_self
    rw [length_cons, Nat.succ_mul] at hFits
    have hWait : now - e.time < 2 ^ 64 := Nat.lt_of_le_of_lt (Nat.sub_le _ _) hNow
    have hMax : now - e.time ≤ UINT64_MAX := by
      unfold UINT64_MAX
      omega
    have hRoom : high * 2 ^ 64 + low + (now - e.time) < (2 ^ 64 - 1) * 2 ^ 64 := by omega
    rcases addToWaitTime_spec hLow hWait (Nat.lt_of_lt_of_le hRoom (by decide)) with
      ⟨high₁, low₁, hAdd, hLow₁, hSum₁⟩
    have hMore : high₁ * 2 ^ 64 + low₁ + rest.length * UINT64_MAX < (2 ^ 64 - 1) * 2 ^ 64 := by
      rw [hSum₁, Nat.add_assoc (high * 2 ^ 64 + low), Nat.add_comm (now - e.time)]
      exact Nat.lt_of_le_of_lt (Nat.add_le_add_left (Nat.add_le_add_left hMax _) _) hFits
    rcases ih hRest
        (fun f hf => hPast f (List.mem_cons_of_mem _ hf))
        hLow₁ hMore with
      ⟨high', low', hTotal, hLow', hSum'⟩
    have hPlace : (if (place : Int) + 1 = b.queue.length
        then 0 else (place : Int) + 1) = (((place + 1) % b.queue.length : Nat) : Int) := by
      rw [← place_succ hRing.head_lt]
      grind
    refine ⟨high', low', ?_, hLow', ?_⟩
    · rw [length_cons, waitingTotal]
      simp only [bind_eq_bind, bind_some, readElem_place hCell,
        if_pos hPastE, hAdd, hLength, hPlace, hTotal]
    · rw [List.map_cons, sum_cons, hSum', hSum₁, Nat.add_assoc]

theorem getAverage_spec (hRep : b.Represents h now) (hNow : now < 2 ^ 64) (hSome : h.adds ≠ []) :
    getAverageWaitTime b now = some (h.average now) := by
  rcases hRep.ring with ⟨head, hHead, -, hRing⟩
  have hCount := hRep.count
  have hBound := hRep.bound
  have hTotal := hRep.total
  have hWaits := sum_le_length _ _ hRep.waits
  have hWaiting : (h.waitsNow now).sum ≤ h.waiting.length * UINT64_MAX := by
    have hSum := sum_le_length (h.waitsNow now) UINT64_MAX
      (fun w hw => by
        rcases mem_map.mp hw with ⟨e, -, rfl⟩
        unfold UINT64_MAX
        omega)
    rwa [QueueHistory.waitsNow, List.length_map] at hSum
  have hAll : h.waits.length * UINT64_MAX +
      h.waiting.length * UINT64_MAX = h.adds.length * UINT64_MAX := by
    rw [← Nat.add_mul, hCount]
  have hMost : h.adds.length * UINT64_MAX ≤ UINT64_MAX * UINT64_MAX := Nat.mul_le_mul_right _ hBound
  have hSpan : h.adds.length * UINT64_MAX < h.adds.length * 2 ^ 64 :=
    Nat.mul_lt_mul_of_pos_left (by decide) (List.length_pos_iff.mpr hSome)
  have hRoom : b.wait_time_high * 2 ^ 64 + b.wait_time_low +
      h.waiting.length * UINT64_MAX < (2 ^ 64 - 1) * 2 ^ 64 := by
    have hSquare : UINT64_MAX * UINT64_MAX < (2 ^ 64 - 1) * 2 ^ 64 := by decide
    omega
  have hLengths : b.length = b.queue.length := by rw [hRep.length, hRep.cells]
  rcases waitingTotal_spec hLengths hRing hNow hRep.waitingPast hRep.low hRoom with
    ⟨high, low, hWalk, hLow, hSum⟩
  have hSumEq : high * 2 ^ 64 + low = h.waits.sum + (h.waitsNow now).sum := by
    rw [hSum, hTotal, QueueHistory.waitsNow]
  unfold getAverageWaitTime
  rw [hHead, hRep.elems, Int.toNat_natCast, hWalk]
  simp only [bind_eq_bind, bind_some]
  rw [hRep.adds, calcAverageWaitTime_spec
    (List.length_pos_iff.mpr hSome)
    (by unfold UINT64_MAX at hBound; omega) ?_ hLow, hSumEq]
  · rfl
  · by_contra hNot
    omega

/- Every statistic is the one of the history. -/
theorem examQueue_spec {code : Int} (hRep : b.Represents h now) (hNow : now < 2 ^ 64)
    (hCode : ¬(code ≤ 0 ∨ code > 6)) : examQueue b code now = some (h.exam code now) := by
  have hElems := hRep.elems
  have hNumber := hRep.adds
  unfold examQueue QueueHistory.exam
  by_cases h1 : code = 1
  · rw [if_pos h1, if_pos h1, hElems]
    rfl
  rw [if_neg h1, if_neg h1]
  by_cases h2 : code = 2
  · rw [if_pos h2, if_pos h2, hNumber]
    by_cases hTwo : h.adds.length ≥ 2
    · rw [if_pos hTwo, if_pos hTwo, getMean_spec hRep hTwo]
      rfl
    · rw [if_neg hTwo, if_neg hTwo]
      rfl
  rw [if_neg h2, if_neg h2]
  by_cases h3 : code = 3
  · rw [if_pos h3, if_pos h3, hRep.longest]
    rfl
  rw [if_neg h3, if_neg h3]
  by_cases h4 : code = 4
  · rw [if_pos h4, if_pos h4]
    by_cases hSome : h.waits = []
    · rw [if_neg, hSome]
      · rfl
      · rw [hRep.measured]
        exact fun hNot => hNot hSome
    · rw [if_pos (hRep.measured.mpr hSome), shortest_spec hRep hSome]
      rfl
  rw [if_neg h4, if_neg h4]
  by_cases h5 : code = 5
  · rw [if_pos h5, if_pos h5]
    rcases hWaiting : h.waiting with _ | ⟨first, others⟩
    · have hZero : b.elems = 0 := by
        rw [hElems, hWaiting]
        rfl
      rw [if_pos hZero, QueueHistory.waitsNow, hWaiting]
      rfl
    · rw [hWaiting, length_cons] at hElems
      rw [if_neg (by omega), longest_spec hRep hWaiting, getLongest_spec hRep hWaiting]
      rfl
  rw [if_neg h5, if_neg h5]
  have h6 : code = 6 := by omega
  rw [if_pos h6, if_pos h6, hNumber]
  by_cases hSome : h.adds = []
  · rw [if_pos hSome, if_neg]
    · rfl
    · rw [hSome]
      exact Nat.not_succ_le_zero 0
  · have hOne : h.adds.length ≥ 1 :=
      List.length_pos_iff.mpr hSome
    rw [if_neg hSome, if_pos hOne, getAverage_spec hRep hNow hSome]
    rfl

end EpicSim
