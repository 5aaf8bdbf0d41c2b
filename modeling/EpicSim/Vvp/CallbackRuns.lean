import EpicSim.Vvp.ValueCallback

/-
  What a run over the callbacks does, whatever runs are nested
  in it.
-/

namespace EpicSim

open List (map_cons mem_cons dropWhile_cons_of_pos map_append nodup_append mem_cons_self
  nodup_cons map_nil mem_append mem_singleton mem_cons_of_mem)

namespace ValueCallbacks

open LinkedHeap

----
-- The Rest of a List
----

/- The addresses from a pointer on. -/
def rest : Option Nat → List Nat → List Nat
| none, _ => []
| some c, X => X.dropWhile (· ≠ c)

theorem rest_first (L : List (Nat × Bool)) : rest (first L) (addresses L) = addresses L := by
  cases L with
  | nil => rfl
  | cons entry L =>
    show (entry.1 :: addresses L).dropWhile (· ≠ entry.1) = _
    rw [List.dropWhile_cons_of_neg (by simp)]
    rfl

variable {A B : List (Nat × Bool)} {c : Nat} {x : Bool}

theorem rest_skip (hGone : c ∉ addresses A) (hFirst : first B = some c) :
    rest (some c) (addresses (A ++ B)) = addresses B := by
  induction A with
  | nil =>
    rw [← hFirst]
    exact rest_first B
  | cons entry A ih =>
    rw [addresses, map_cons, mem_cons, not_or] at hGone
    show (entry.1 :: addresses (A ++ B)).dropWhile (· ≠ c) = _
    rw [dropWhile_cons_of_pos]
    · exact ih hGone.2
    · simpa using fun hEq : entry.1 = c => hGone.1 hEq.symm

/- The rest from a node on, and from behind it. -/
theorem rest_node (hNodup : (addresses (A ++ (c, x) :: B)).Nodup) :
    rest (some c) (addresses (A ++ (c, x) :: B)) = c :: addresses B ∧
    rest (first B) (addresses (A ++ (c, x) :: B)) = addresses B ∧
    rest (first B) (addresses (A ++ B)) = addresses B := by
  have hSplit := hNodup
  rw [addresses, map_append, nodup_append] at hSplit
  rcases hSplit with ⟨_, hRight, hApart⟩
  have hGone : c ∉ addresses A := fun hMem => hApart c hMem c mem_cons_self rfl
  refine ⟨rest_skip hGone rfl, ?_⟩
  cases B with
  | nil => exact ⟨rfl, rfl⟩
  | cons entry B =>
    rcases entry with ⟨b, y⟩
    have hLater : b ∉ addresses A := by
      intro hMem
      exact hApart b hMem b (by simp) rfl
    have hOther : b ≠ c := by grind
    constructor
    · have hAssoc :
          A ++ (c, x) :: (b, y) :: B = (A ++ [(c, x)]) ++ (b, y) :: B := by
        simp
      rw [hAssoc]
      apply rest_skip ?_ rfl
      simp only [addresses, map_append, map_cons, map_nil, mem_append, mem_singleton, not_or]
      exact ⟨hLater, hOther⟩
    · exact rest_skip hLater rfl

theorem mem_of_mem_rest {p : Option Nat} {X : List Nat} (hMem : c ∈ rest p X) : c ∈ X := by
  cases p with
  | none => cases hMem
  | some d => exact (List.dropWhile_suffix _).subset hMem

/- Another node than the pointer's is taken away. -/
theorem mem_rest_filter {p : Option Nat} {X : List Nat} {c d : Nat} (hOther : p ≠ some d)
    (hne : c ≠ d) : c ∈ rest p (X.filter (· ≠ d)) ↔ c ∈ rest p X := by
  cases p with
  | none => exact Iff.rfl
  | some a =>
    have had : d ≠ a := fun hEq => hOther (by rw [hEq])
    induction X with
    | nil => exact Iff.rfl
    | cons b X ih =>
      simp only [rest] at ih ⊢
      by_cases hbd : b = d
      · rw [List.filter_cons_of_neg (by simp [hbd]), dropWhile_cons_of_pos (by simp [hbd, had])]
        exact ih
      · rw [List.filter_cons_of_pos (by simp [hbd])]
        by_cases hba : b = a
        · rw [List.dropWhile_cons_of_neg (by simp [hba]),
            List.dropWhile_cons_of_neg (by simp [hba])]
          simp [hne]
        · rw [dropWhile_cons_of_pos (by simp [hba]), dropWhile_cons_of_pos (by simp [hba])]
          exact ih

theorem addresses_filter (hNodup : (addresses (A ++ (c, x) :: B)).Nodup) :
    addresses (A ++ B) = (addresses (A ++ (c, x) :: B)).filter (· ≠ c) := by
  rw [addresses, map_append, nodup_append] at hNodup
  rcases hNodup with ⟨_, hRight, hApart⟩
  simp only [addresses, map_append, map_cons]
  rw [List.filter_append, List.filter_cons_of_neg (by simp)]
  congr 1
  · symm
    rw [List.filter_eq_self]
    intro a hMem
    simpa using hApart a hMem c mem_cons_self
  · symm
    rw [List.filter_eq_self]
    grind

----
-- A Run that Goes On
----

/- The callbacks that a run came to, in its order. -/
def visited (s : ValueCallbacks) (r : Nat) : List Nat :=
  (s.visits.filter (·.run = r)).map CallbackVisit.callback

/- The callbacks whose routines a run has called. -/
def called (s : ValueCallbacks) (r : Nat) : List Nat :=
  (s.calls.filter (·.1 = r)).map Prod.snd

/- Where a run goes on. -/
def Stands (s : ValueCallbacks) (r : Nat) (next : Option Nat) : Prop :=
  (∃ w, s.walking = some w ∧ w.run = r ∧ w.next = next) ∨
  (∃ f ∈ s.routines, CallbackRoutine.run f = r ∧ CallbackRoutine.next f = next)

/-
  A run that was started in the state `s₀` with the nodes
  `X₀` on the list and goes on at `next`.
-/
structure Underway
    (s₀ : ValueCallbacks) (X₀ : List Nat) (r : Nat) (next : Option Nat) (s : ValueCallbacks)
    (X : List Nat) : Prop where
  here : ∀ c, next = some c → c ∈ X
  once : (s.visited r).Nodup
  past : ∀ c ∈ s.visited r, c ∈ X₀ ∧ c ∉ s₀.removed
  ahead : ∀ c ∈ rest next X, c ∈ X₀ ∧ c ∉ s.visited r
  kept : ∀ c ∈ X₀, c ∈ X → c ∈ s.visited r ∨ c ∈ rest next X
  added : ∀ c ∈ X, c ∈ X₀ ∨ s₀.allocated ≤ c
  live : ∀ c, (c ∈ X₀ ∨ (s₀.allocated ≤ c ∧ c < s.allocated)) → c ∉ s.removed → c ∈ X
  removed : ∀ c ∈ s₀.removed, c ∈ s.removed
  allocated : s₀.allocated ≤ s.allocated
  bound : ∀ c ∈ X₀, c < s₀.allocated

/- The first node is one of the list. -/
theorem mem_of_first {L : List (Nat × Bool)} {c : Nat} (hFirst : first L = some c) :
    c ∈ addresses L := by
  cases L with
  | nil => cases hFirst
  | cons entry L =>
    cases hFirst
    exact mem_cons_self

variable {s₀ s s' : ValueCallbacks}
variable {X₀ X X' : List Nat}
variable {r : Nat}
variable {next : Option Nat}

/- A run that waits for a routine, and goes on at a node that
   was deleted. -/
def Doomed (s : ValueCallbacks) (X : List Nat) (r : Nat) : Prop :=
  ∃ c, s.Stands r (some c) ∧ c ∉ X ∧ c < s.allocated

theorem visited_append {v : CallbackVisit} (hVisits : s'.visits = s.visits ++ [v]) :
    s'.visited r = s.visited r ++ if v.run = r then [v.callback] else [] := by
  unfold visited
  rw [hVisits, List.filter_append, map_append]
  by_cases hRun : v.run = r
  · grind
  · grind

/- Steps that the run does not see. -/
theorem Underway.same (hRun : Underway s₀ X₀ r next s X) (hVisited : s'.visited r = s.visited r)
    (hRemoved : ∀ c ∈ s.removed, c ∈ s'.removed) (hAllocated : s'.allocated = s.allocated) :
    Underway s₀ X₀ r next s' X where
  here := hRun.here
  once := by
    rw [hVisited]
    exact hRun.once
  past := by
    rw [hVisited]
    exact hRun.past
  ahead := by
    rw [hVisited]
    exact hRun.ahead
  kept := by
    rw [hVisited]
    exact hRun.kept
  added := hRun.added
  live := by
    rw [hAllocated]
    intro c hOld hNot
    exact hRun.live c hOld fun hMem => hNot (hRemoved c hMem)
  removed := fun c hMem => hRemoved c (hRun.removed c hMem)
  allocated := by
    rw [hAllocated]
    exact hRun.allocated
  bound := hRun.bound

/- The run comes to a callback with a routine. -/
theorem Underway.visit (hRun : Underway s₀ X₀ r (some c) s (addresses (A ++ (c, x) :: B)))
    (hNodup : (addresses (A ++ (c, x) :: B)).Nodup) (hLive : c ∉ s.removed)
    (hVisited : s'.visited r = s.visited r ++ [c]) (hRemoved : s'.removed = s.removed)
    (hAllocated : s'.allocated = s.allocated) :
    Underway s₀ X₀ r (first B) s' (addresses (A ++ (c, x) :: B)) := by
  rcases rest_node hNodup with ⟨hHere, hBehind, _⟩
  have hAhead := hRun.ahead
  have hKept := hRun.kept
  rw [hHere] at hAhead hKept
  have hOnce : c ∉ addresses B := by
    rw [addresses, map_append, nodup_append] at hNodup
    exact (nodup_cons.mp hNodup.2.1).1
  constructor
  · intro a hFirst
    have hMem := mem_of_first hFirst
    rw [addresses, map_append, map_cons]
    exact List.mem_append_right _ (mem_cons_of_mem _ hMem)
  · rw [hVisited, nodup_append]
    refine ⟨hRun.once, List.nodup_singleton c, ?_⟩
    grind
  · rw [hVisited]
    intro a hMem
    rcases mem_append.mp hMem with hOld | hNew
    · exact hRun.past a hOld
    · rw [mem_singleton] at hNew
      rw [hNew]
      exact ⟨(hAhead c mem_cons_self).1, fun hBad => hLive (hRun.removed c hBad)⟩
  · grind
  · grind
  · exact hRun.added
  · rw [hRemoved, hAllocated]
    exact hRun.live
  · rw [hRemoved]
    exact hRun.removed
  · rw [hAllocated]
    exact hRun.allocated
  · exact hRun.bound

/-
  A removed callback is deleted, either by the run itself,
  which stands before it, or by another.
-/
theorem Underway.reap {next' : Option Nat}
    (hRun : Underway s₀ X₀ r next s (addresses (A ++ (c, x) :: B)))
    (hNodup : (addresses (A ++ (c, x) :: B)).Nodup) (hDead : c ∈ s.removed)
    (hNext : (next = some c ∧ next' = first B) ∨ (next ≠ some c ∧ next' = next))
    (hVisited : s'.visited r = s.visited r) (hRemoved : s'.removed = s.removed)
    (hAllocated : s'.allocated = s.allocated) : Underway s₀ X₀ r next' s' (addresses (A ++ B)) := by
  have hFilter := addresses_filter hNodup
  have hLess : ∀ a,
      a ∈ addresses (A ++ B) ↔
        a ∈ addresses (A ++ (c, x) :: B) ∧ a ≠ c := by
    intro a
    rw [hFilter]
    simp
  have hRest : ∀ a, a ≠ c →
      (a ∈ rest next' (addresses (A ++ B)) ↔
        a ∈ rest next (addresses (A ++ (c, x) :: B))) := by
    intro a hne
    rcases hNext with ⟨hHere, hAfter⟩ | ⟨hOther, hSame⟩
    · rcases rest_node hNodup with ⟨hFrom, _, hBehind⟩
      grind
    · rw [hSame, hFilter]
      exact mem_rest_filter hOther hne
  have hGone : c ∉ addresses (A ++ B) := fun hMem => ((hLess c).mp hMem).2 rfl
  constructor
  · intro a hSome
    rcases hNext with ⟨_, hAfter⟩ | ⟨hOther, hSame⟩
    · rw [hAfter] at hSome
      rw [addresses, map_append]
      exact List.mem_append_right _ (mem_of_first hSome)
    · rw [hSame] at hSome
      refine (hLess a).mpr ⟨hRun.here a hSome, fun hEq => hOther ?_⟩
      rw [hSome, hEq]
  · rw [hVisited]
    exact hRun.once
  · rw [hVisited]
    exact hRun.past
  · rw [hVisited]
    intro a hMem
    have hne : a ≠ c := by
      intro hEq
      rw [hEq] at hMem
      exact hGone (mem_of_mem_rest hMem)
    exact hRun.ahead a ((hRest a hne).mp hMem)
  · rw [hVisited]
    intro a hOld hMem
    rcases (hLess a).mp hMem with ⟨hBefore, hne⟩
    rw [hRest a hne]
    exact hRun.kept a hOld hBefore
  · intro a hMem
    exact hRun.added a ((hLess a).mp hMem).1
  · rw [hRemoved, hAllocated]
    intro a hOld hNot
    rw [hLess]
    refine ⟨hRun.live a hOld hNot, ?_⟩
    intro hEq
    rw [hEq] at hNot
    exact hNot hDead
  · rw [hRemoved]
    exact hRun.removed
  · rw [hAllocated]
    exact hRun.allocated
  · exact hRun.bound

/- A callback is added. -/
theorem Underway.add (hRun : Underway s₀ X₀ r next s X) (hBound : ∀ c ∈ X, c < s.allocated) :
    Underway s₀ X₀ r next s.addVpiCallback (s.allocated :: X) := by
  have hRest : rest next (s.allocated :: X) = rest next X := by
    cases next with
    | none => rfl
    | some c =>
      have hLess := hBound c (hRun.here c rfl)
      have hne : s.allocated ≠ c := Nat.ne_of_gt hLess
      show (s.allocated :: X).dropWhile (· ≠ c) = _
      rw [dropWhile_cons_of_pos (by simpa using hne)]
      rfl
  constructor
  · exact fun c hSome => mem_cons_of_mem _ (hRun.here c hSome)
  · exact hRun.once
  · exact hRun.past
  · rw [hRest]
    exact hRun.ahead
  · intro c hOld hMem
    rw [hRest]
    apply hRun.kept c hOld
    rcases mem_cons.mp hMem with hEq | hLater
    · have hLess :=
        Nat.lt_of_lt_of_le (hRun.bound c hOld) hRun.allocated
      exact absurd hEq (Nat.ne_of_lt hLess)
    · exact hLater
  · intro c hMem
    rcases mem_cons.mp hMem with hEq | hLater
    · rw [hEq]
      exact Or.inr hRun.allocated
    · exact hRun.added c hLater
  · intro c hOld hNot
    by_cases hEq : c = s.allocated
    · rw [hEq]
      exact mem_cons_self
    · apply mem_cons_of_mem
      apply hRun.live c ?_ hNot
      rcases hOld with hFirst | ⟨hFrom, hTo⟩
      · exact Or.inl hFirst
      · exact Or.inr ⟨hFrom, Nat.lt_of_le_of_ne (Nat.le_of_lt_succ hTo) hEq⟩
  · exact hRun.removed
  · exact Nat.le_succ_of_le hRun.allocated
  · exact hRun.bound

----
-- Steps of Other Runs
----

variable {L L' : List (Nat × Bool)}

/- A run number names one walk or routine. -/
theorem Stands.walk (hLinked : s.Linked L) {w : CallbackWalk} (hWalk : s.walking = some w)
    (hStands : s.Stands r next) :
    (w.run = r ∧ w.next = next) ∨
    (w.run ≠ r ∧
      ∃ f ∈ s.routines,
        CallbackRoutine.run f = r ∧
        CallbackRoutine.next f = next) := by
  rcases hStands with ⟨w', hWalk', hRun, hNext⟩ | ⟨f, hMem, hRun, hNext⟩
  · grind
  · right
    refine ⟨?_, f, hMem, hRun, hNext⟩
    intro hEq
    have hDistinct := hLinked.distinct
    simp only [active, hWalk] at hDistinct
    apply (nodup_cons.mp hDistinct).1
    rw [hEq, ← hRun]
    exact List.mem_map_of_mem hMem

/- Without a walk, a run waits for a routine. -/
theorem Stands.user (hUser : s.walking = none) (hStands : s.Stands r next) :
    ∃ f ∈ s.routines,
      CallbackRoutine.run f = r ∧
      CallbackRoutine.next f = next := by
  rcases hStands with ⟨w, hWalk, _⟩ | hWaits
  · rw [hUser] at hWalk
    cases hWalk
  · exact hWaits

/- A node that has a routine is not among the removed. -/
theorem Linked.not_removed (hLinked : s.Linked L) {c : Nat}
    (hRead : s.vpi_callbacks.heap c = some ⟨next, true⟩) :
    ∃ A B,
      L = A ++ (c, true) :: B ∧
      first B = next ∧
      c ∉ s.removed := by
  rcases hLinked.holds.split hRead with ⟨A, B, rfl, hFirst⟩
  refine ⟨A, B, rfl, hFirst, ?_⟩
  intro hMem
  have hMarks := hLinked.marks c true (by simp)
  exact absurd (hMarks.mpr hMem) (by simp)

/- A run that does not move waits on. -/
theorem Stands.move (hStands : s.Stands r next) (hLinked : s.Linked L)
    (hOther : ∀ w, s.walking = some w → w.run ≠ r) (hMove : s.Moves L s' L') :
    s'.Stands r next := by
  have hWaits : ∀ w, s.walking = some w → ∃ f ∈ s.routines,
      CallbackRoutine.run f = r ∧ CallbackRoutine.next f = next := by
    intro w hWalk
    rcases hStands.walk hLinked hWalk with ⟨hEq, _⟩ | ⟨_, hWaits⟩
    · exact absurd hEq (hOther w hWalk)
    · exact hWaits
  cases hMove with
  | finish w hWalk hNext => exact Or.inr (hWaits w hWalk)
  | pass w cur next₁ hWalk hNext hRead => exact Or.inr (hWaits w hWalk)
  | call w cur next₁ hWalk hNext hRead =>
    rcases hWaits w hWalk with ⟨f, hMem, hIs⟩
    exact Or.inr ⟨f, mem_cons_of_mem _ hMem, hIs⟩
  | reap w cur A B l hList hWalk hNext hSlot hFrame => exact Or.inr (hWaits w hWalk)
  | add hUser => exact Or.inr (hStands.user hUser)
  | remove handle x A B l hList hUser hFrame => exact Or.inr (hStands.user hUser)
  | change hUser =>
    have hUserWaits := hStands.user hUser
    exact Or.inr hUserWaits
  | ret f routines hUser hTop =>
    rcases hStands.user hUser with ⟨g, hMem, hEq, hNext⟩
    rw [hTop] at hMem
    rcases mem_cons.mp hMem with hHere | hLater
    · rw [hHere] at hEq hNext
      exact Or.inl ⟨_, rfl, hEq, hNext⟩
    · exact Or.inr ⟨g, hLater, hEq, hNext⟩
  | idle hUser hTop => exact hStands

/-
  One step: the run goes on, or its next node is deleted by
  another one, or it was before its end and is over.
-/
theorem Underway.move (hRun : Underway s₀ X₀ r next s (addresses L))
    (hStands : s.Stands r next) (hLinked : s.Linked L) (hMove : s.Moves L s' L') :
    (∃ next', s'.Stands r next' ∧ Underway s₀ X₀ r next' s' (addresses L')) ∨
    s'.Doomed (addresses L') r ∨ (r ∉ s'.active ∧ r < s'.runs) := by
  by_cases hMover : ∃ w, s.walking = some w ∧ w.run = r
  · rcases hMover with ⟨w, hHere, hEq⟩
    have hNow : w.next = next := by
      rcases hStands.walk hLinked hHere with ⟨_, hNext⟩ | ⟨hne, _⟩
      · exact hNext
      · exact absurd hEq hne
    subst hNow
    cases hMove with
    | finish w' hWalk hNext =>
      cases hHere.symm.trans hWalk
      have hDistinct := hLinked.distinct
      have hRuns := hLinked.runs
      simp only [active, hWalk] at hDistinct hRuns
      rw [← hEq]
      exact Or.inr (Or.inr ⟨(nodup_cons.mp hDistinct).1, hRuns _ mem_cons_self⟩)
    | pass w' cur next₁ hWalk hNext hRead =>
      cases hHere.symm.trans hWalk
      rw [hNext] at hRun
      rcases hLinked.not_removed hRead with ⟨A, B, rfl, rfl, hLive⟩
      refine Or.inl ⟨first B, Or.inl ⟨_, rfl, hEq, rfl⟩, ?_⟩
      refine hRun.visit hLinked.holds.nodup hLive ?_ rfl rfl
      rw [visited_append rfl, if_pos hEq]
    | call w' cur next₁ hWalk hNext hRead =>
      cases hHere.symm.trans hWalk
      rw [hNext] at hRun
      rcases hLinked.not_removed hRead with ⟨A, B, rfl, rfl, hLive⟩
      refine Or.inl ⟨first B, Or.inr ⟨_, mem_cons_self, hEq, rfl⟩, ?_⟩
      refine hRun.visit hLinked.holds.nodup hLive ?_ rfl rfl
      rw [visited_append rfl, if_pos hEq]
    | reap w' cur A B l hList hWalk hNext hSlot hFrame =>
      cases hHere.symm.trans hWalk
      subst hList
      have hDead : cur ∈ s.removed := (hLinked.marks cur false (by simp)).mp rfl
      refine Or.inl ⟨first B, Or.inl ⟨_, rfl, hEq, rfl⟩, ?_⟩
      exact hRun.reap hLinked.holds.nodup hDead (Or.inl ⟨hNext, rfl⟩) rfl rfl rfl
    | add hUser => exact absurd hHere (by simp [hUser])
    | remove handle x A B l hList hUser hFrame => exact absurd hHere (by simp [hUser])
    | change hUser => exact absurd hHere (by simp [hUser])
    | ret f routines hUser hTop => exact absurd hHere (by simp [hUser])
    | idle hUser hTop => exact absurd hHere (by simp [hUser])
  · have hOther : ∀ w, s.walking = some w → w.run ≠ r :=
      fun w hWalk hEq => hMover ⟨w, hWalk, hEq⟩
    have hThere := hStands.move hLinked hOther hMove
    cases hMove with
    | finish w hWalk hNext => exact Or.inl ⟨next, hThere, hRun.same rfl (fun _ hMem => hMem) rfl⟩
    | pass w cur next₁ hWalk hNext hRead =>
      refine Or.inl ⟨next, hThere, hRun.same ?_ (fun _ hMem => hMem) rfl⟩
      rw [visited_append rfl, if_neg (hOther w hWalk), List.append_nil]
    | call w cur next₁ hWalk hNext hRead =>
      refine Or.inl ⟨next, hThere, hRun.same ?_ (fun _ hMem => hMem) rfl⟩
      rw [visited_append rfl, if_neg (hOther w hWalk), List.append_nil]
    | reap w cur A B l hList hWalk hNext hSlot hFrame =>
      subst hList
      have hDead : cur ∈ s.removed := (hLinked.marks cur false (by simp)).mp rfl
      by_cases hEq : next = some cur
      · refine Or.inr (Or.inl ⟨cur, hEq ▸ hThere, ?_, hLinked.removed cur hDead⟩)
        rw [addresses_filter hLinked.holds.nodup]
        simp
      · refine Or.inl ⟨next, hThere, ?_⟩
        exact hRun.reap hLinked.holds.nodup hDead (Or.inr ⟨hEq, rfl⟩) rfl rfl rfl
    | add hUser => exact Or.inl ⟨next, hThere, hRun.add hLinked.bound⟩
    | remove handle x A B l hList hUser hFrame =>
      subst hList
      have hSame :
          addresses (A ++ (handle, false) :: B) = addresses (A ++ (handle, x) :: B) := by
        simp [addresses]
      refine Or.inl ⟨next, hThere, ?_⟩
      rw [hSame]
      exact hRun.same rfl (fun _ hMem => mem_cons_of_mem _ hMem) rfl
    | change hUser => exact Or.inl ⟨next, hThere, hRun.same rfl (fun _ hMem => hMem) rfl⟩
    | ret f routines hUser hTop =>
      exact Or.inl ⟨next, hThere, hRun.same rfl (fun _ hMem => hMem) rfl⟩
    | idle hUser hTop => exact Or.inl ⟨next, hThere, hRun.same rfl (fun _ hMem => hMem) rfl⟩

/- Such a run never goes on. -/
theorem Doomed.move (hDoomed : s.Doomed (addresses L) r) (hLinked : s.Linked L)
    (hMove : s.Moves L s' L') : s'.Doomed (addresses L') r := by
  rcases hDoomed with ⟨c, hStands, hGone, hOld⟩
  have hNowhere : ∀ node, s.vpi_callbacks.heap c ≠ some node := by
    intro node hNode
    rw [hLinked.holds.heap_none hGone] at hNode
    cases hNode
  have hOther : ∀ w, s.walking = some w → w.run ≠ r := by
    intro w hHere hEq
    have hNow : w.next = some c := by
      rcases hStands.walk hLinked hHere with ⟨_, hNext⟩ | ⟨hne, _⟩
      · exact hNext
      · exact absurd hEq hne
    cases hMove with
    | finish w' hWalk hNext => grind
    | pass w' cur next₁ hWalk hNext hRead => grind
    | call w' cur next₁ hWalk hNext hRead => grind
    | reap w' cur A B l hList hWalk hNext hSlot hFrame =>
      cases hHere.symm.trans hWalk
      cases hNow.symm.trans hNext
      subst hList
      exact hNowhere _ hLinked.holds.read
    | add hUser => exact absurd hHere (by simp [hUser])
    | remove handle x A B l hList hUser hFrame => exact absurd hHere (by simp [hUser])
    | change hUser => exact absurd hHere (by simp [hUser])
    | ret f routines hUser hTop => exact absurd hHere (by simp [hUser])
    | idle hUser hTop => exact absurd hHere (by simp [hUser])
  have hThere := hStands.move hLinked hOther hMove
  cases hMove with
  | reap w cur A B l hList hWalk hNext hSlot hFrame =>
    subst hList
    refine ⟨c, hThere, fun hMem => hGone ?_, hOld⟩
    rw [addresses_filter hLinked.holds.nodup] at hMem
    exact List.mem_of_mem_filter hMem
  | add hUser =>
    refine ⟨c, hThere, fun hMem => ?_, Nat.lt_succ_of_lt hOld⟩
    rcases mem_cons.mp hMem with hEq | hLater
    · exact absurd hEq (Nat.ne_of_lt hOld)
    · exact hGone hLater
  | remove handle x A B l hList hUser hFrame =>
    subst hList
    refine ⟨c, hThere, ?_, hOld⟩
    simpa [addresses] using hGone
  | finish w hWalk hNext => exact ⟨c, hThere, hGone, hOld⟩
  | pass w cur next₁ hWalk hNext hRead => exact ⟨c, hThere, hGone, hOld⟩
  | call w cur next₁ hWalk hNext hRead => exact ⟨c, hThere, hGone, hOld⟩
  | change hUser => exact ⟨c, hThere, hGone, hOld⟩
  | ret f routines hUser hTop => exact ⟨c, hThere, hGone, hOld⟩
  | idle hUser hTop => exact ⟨c, hThere, hGone, hOld⟩

/- A run that is over does not start again. -/
theorem over_move (hOver : r ∉ s.active) (hOld : r < s.runs) (hMove : s.Moves L s' L') :
    r ∉ s'.active ∧ r < s'.runs := by
  cases hMove with
  | finish w hWalk hNext => exact ⟨fun hMem => hOver (List.mem_append_right _ hMem), hOld⟩
  | pass w cur next₁ hWalk hNext hRead =>
    simp only [active, hWalk] at hOver
    exact ⟨hOver, hOld⟩
  | call w cur next₁ hWalk hNext hRead =>
    simp only [active, hWalk] at hOver
    exact ⟨hOver, hOld⟩
  | reap w cur A B l hList hWalk hNext hSlot hFrame =>
    simp only [active, hWalk] at hOver
    exact ⟨hOver, hOld⟩
  | add hUser => exact ⟨hOver, hOld⟩
  | remove handle x A B l hList hUser hFrame => exact ⟨hOver, hOld⟩
  | change hUser =>
    simp only [active, hUser] at hOver
    refine ⟨?_, Nat.lt_succ_of_lt hOld⟩
    intro hMem
    rcases mem_cons.mp hMem with hNew | hBefore
    · exact absurd hNew (Nat.ne_of_lt hOld)
    · exact hOver hBefore
  | ret f routines hUser hTop =>
    simp only [active, hUser, hTop] at hOver
    exact ⟨hOver, hOld⟩
  | idle hUser hTop => exact ⟨hOver, hOld⟩

----
-- Steps of All Runs
----

/-
  Steps of walks and of user code that touch no deleted node,
  each from a state that meets a condition.
-/
inductive CallbackSteps (Ok : ValueCallbacks → Prop) (s : ValueCallbacks) :
    ValueCallbacks → Prop where
| refl : CallbackSteps Ok s s
| next {s₁ s₂ : ValueCallbacks} (ready : Bool) (c : UserCommand)
    (hSteps : CallbackSteps Ok s s₁) (hState : Ok s₁)
    (hOk : step ready c s₁ = .ok s₂) :
    CallbackSteps Ok s s₂

variable {Ok : ValueCallbacks → Prop}

theorem CallbackSteps.linked (hSteps : CallbackSteps Ok s s') (hLinked : s.Linked L) :
    ∃ L', s'.Linked L' := by
  induction hSteps with
  | refl => exact ⟨L, hLinked⟩
  | next ready c hSteps hState hOk ih =>
    rcases ih with ⟨L₁, hLinked₁⟩
    rcases hLinked₁.step hOk with ⟨L₂, _, hLinked₂⟩
    exact ⟨L₂, hLinked₂⟩

theorem CallbackSteps.kept (hSteps : CallbackSteps Careful s s') (hLinked : s.Linked L)
    (hKept : s.Kept) : ∃ L', s'.Linked L' ∧ s'.Kept := by
  induction hSteps with
  | refl => exact ⟨L, hLinked, hKept⟩
  | next ready c hSteps hCareful hOk ih =>
    rcases ih with ⟨L₁, hLinked₁, hKept₁⟩
    rcases hLinked₁.step hOk with ⟨L₂, hMove, hLinked₂⟩
    exact ⟨L₂, hLinked₂, hKept₁.move hLinked₁ hCareful hLinked₂ hMove⟩

/- A run through any steps. -/
theorem Underway.steps (hSteps : CallbackSteps Ok s s')
    (hRun : Underway s₀ X₀ r next s (addresses L))
    (hStands : s.Stands r next) (hLinked : s.Linked L) :
    ∃ L',
      s'.Linked L' ∧
      ((∃ next', s'.Stands r next' ∧ Underway s₀ X₀ r next' s' (addresses L')) ∨
      s'.Doomed (addresses L') r ∨ (r ∉ s'.active ∧ r < s'.runs)) := by
  induction hSteps with
  | refl => exact ⟨L, hLinked, Or.inl ⟨next, hStands, hRun⟩⟩
  | next ready c hSteps hState hOk ih =>
    rcases ih with ⟨L₁, hLinked₁, hNow⟩
    rcases hLinked₁.step hOk with ⟨L₂, hMove, hLinked₂⟩
    refine ⟨L₂, hLinked₂, ?_⟩
    rcases hNow with ⟨next₁, hStands₁, hRun₁⟩ | hDoomed | ⟨hOver, hOld⟩
    · exact hRun₁.move hStands₁ hLinked₁ hMove
    · exact Or.inr (Or.inl (hDoomed.move hLinked₁ hMove))
    · exact Or.inr (Or.inr (over_move hOver hOld hMove))

/- A callback that a run came to once is called if it was
   ready. -/
theorem Linked.called_count {c : Nat} (hLinked : s.Linked L)
    (hOnce : (s.visited r).count c = 1) :
    ∃ v ∈ s.visits, v.run = r ∧ v.callback = c ∧
      (s.called r).count c = if v.ready then 1 else 0 := by
  have hMem : c ∈ s.visited r := List.count_pos_iff.mp (by omega)
  rcases List.mem_map.mp hMem with ⟨v, hVisit, hCallback⟩
  rw [List.mem_filter, decide_eq_true_iff] at hVisit
  refine ⟨v, hVisit.1, hVisit.2, hCallback, ?_⟩
  rcases List.append_of_mem hVisit.1 with ⟨A, B, hSplit⟩
  have hVisited : (s.visited r).count c =
      s.visits.countP fun v => v.callback == c && decide (v.run = r) := by
    rw [visited, List.count_eq_countP, List.countP_map, List.countP_filter]
    rfl
  have hCalled : (s.called r).count c = s.visits.countP fun v =>
      (v.callback == c && decide (v.run = r)) && v.ready := by
    rw [called, hLinked.calls, List.count_eq_countP, List.countP_map, List.countP_filter,
      List.countP_map, List.countP_filter]
    rfl
  have hHere : (v.callback == c && decide (v.run = r)) = true := by simp [hCallback, hVisit.2]
  rw [hOnce, hSplit, List.countP_append, List.countP_cons, if_pos hHere] at hVisited
  have hLess : ∀ l : List CallbackVisit,
      (l.countP fun v => (v.callback == c && decide (v.run = r)) && v.ready) ≤
        l.countP fun v => v.callback == c && decide (v.run = r) :=
    fun l => List.countP_mono_left fun a _ hBoth => ((Bool.and_eq_true _ _).mp hBoth).1
  have hA := hLess A
  have hB := hLess B
  rw [hCalled, hSplit, List.countP_append, List.countP_cons, hHere, Bool.true_and]
  omega

/- A run calls callbacks that it has come to. -/
theorem Linked.visited_of_called {c : Nat} (hLinked : s.Linked L) (hMem : c ∈ s.called r) :
    c ∈ s.visited r := by
  rw [called, hLinked.calls] at hMem
  rcases List.mem_map.mp hMem with ⟨call, hCall, rfl⟩
  rcases List.mem_filter.mp hCall with ⟨hCall, hRun⟩
  rcases List.mem_map.mp hCall with ⟨v, hVisit, rfl⟩
  exact List.mem_map_of_mem (List.mem_filter.mpr ⟨List.mem_of_mem_filter hVisit, hRun⟩)

/- A run that starts. -/
theorem underway_start (hLinked : s.Linked L) :
    Underway s (addresses L) s.runs s.vpi_callbacks.head s.runVpiCallbacks (addresses L) := by
  have hNothing : s.visited s.runs = [] := by
    unfold visited
    rw [List.map_eq_nil_iff, List.filter_eq_nil_iff]
    intro v hMem hEq
    have hRun : v.run = s.runs := by simpa using hEq
    exact Nat.ne_of_lt (hLinked.visits v hMem) hRun
  have hRest :
      rest s.vpi_callbacks.head (addresses L) = addresses L := by
    rw [hLinked.holds.head]
    exact rest_first L
  constructor
  · intro c hSome
    rw [hLinked.holds.head] at hSome
    exact mem_of_first hSome
  · show (s.visited s.runs).Nodup
    rw [hNothing]
    exact List.nodup_nil
  · intro c hMem
    have hNil : c ∈ s.visited s.runs := hMem
    rw [hNothing] at hNil
    cases hNil
  · rw [hRest]
    intro c hMem
    refine ⟨hMem, ?_⟩
    show c ∉ s.visited s.runs
    rw [hNothing]
    exact List.not_mem_nil
  · rw [hRest]
    intro c _ hMem
    exact Or.inr hMem
  · intro c hMem
    exact Or.inl hMem
  · intro c hOld _
    rcases hOld with hMem | ⟨hFrom, hTo⟩
    · exact hMem
    · exact absurd hTo (Nat.not_lt_of_le hFrom)
  · intro c hMem
    exact hMem
  · exact Nat.le_refl _
  · exact hLinked.bound

end ValueCallbacks

open ValueCallbacks LinkedHeap

----
-- Runs of Callbacks
----

/-
  As long as no run deletes a node that a waiting run holds,
  no step touches a deleted node.  And whenever a run comes to
  its end, it has come once to each callback that was on the
  list and is not removed, and to no other, and has called each
  of these once if it was ready.  The list then has the
  callbacks that the run came to and the new ones, all that
  are not removed among them with their routines, and none of
  those removed before the run began.
-/
theorem value_callbacks_run (s : ValueCallbacks) :
    (CallbackSteps Careful ValueCallbacks.start s →
      ∀ ready c fault, ValueCallbacks.step ready c s = .error fault → fault = .badHandle) ∧
    (CallbackSteps (fun _ => True) ValueCallbacks.start s → s.walking = none →
      ∀ (s' : ValueCallbacks) (prev : Option Nat),
      CallbackSteps (fun _ => True) s.runVpiCallbacks s' →
      s'.walking = some ⟨s.runs, none, prev⟩ →
      ∃ L L',
        s.vpi_callbacks.Holds L ∧
        s'.vpi_callbacks.Holds L' ∧
        (∀ c ∈ addresses L, c ∉ s'.removed → (s'.visited s.runs).count c = 1) ∧
        (∀ c ∈ s'.visited s.runs,
          c ∈ addresses L ∧ c ∉ s.removed ∧
          (s'.visited s.runs).count c = 1 ∧
          ∃ v ∈ s'.visits, v.run = s.runs ∧ v.callback = c ∧
            (s'.called s.runs).count c = if v.ready then 1 else 0) ∧
        (∀ c ∈ s'.called s.runs, c ∈ s'.visited s.runs) ∧
        (∀ c ∈ addresses L', c ∈ s'.visited s.runs ∨ s.allocated ≤ c) ∧
        (∀ c,
          (c ∈ addresses L ∨ (s.allocated ≤ c ∧ c < s'.allocated)) →
          c ∉ s'.removed → (c, true) ∈ L') ∧
        (∀ c ∈ s.removed, c ∉ addresses L')) := by
  constructor
  · intro hSteps ready c fault hError
    rcases hSteps.kept linked_start kept_start with ⟨L, hLinked, hKept⟩
    exact hLinked.no_fault hKept hError
  · intro hSteps hUser s' prev hRunSteps hEnd
    rcases hSteps.linked linked_start with ⟨L, hLinked⟩
    have hStands : s.runVpiCallbacks.Stands s.runs s.vpi_callbacks.head := Or.inl ⟨_, rfl, rfl, rfl⟩
    rcases (underway_start hLinked).steps hRunSteps hStands
      (hLinked.change hUser) with ⟨L', hLinked', hNow⟩
    -- The run is still there, with nothing before it.
    have hRun :
        Underway s (addresses L) s.runs none s' (addresses L') := by
      rcases hNow with ⟨next', hThere, hRun⟩ | ⟨c, hThere, _⟩ | ⟨hOver, _⟩
      · rcases hThere.walk hLinked' hEnd with ⟨_, hNext⟩ | ⟨hOther, _⟩
        · rw [show next' = none from hNext.symm] at hRun
          exact hRun
        · exact absurd rfl hOther
      · rcases hThere.walk hLinked' hEnd with ⟨_, hNext⟩ | ⟨hOther, _⟩
        · cases hNext
        · exact absurd rfl hOther
      · exfalso
        apply hOver
        simp [active, hEnd]
    have hOnce : ∀ c ∈ s'.visited s.runs,
        (s'.visited s.runs).count c = 1 :=
      fun c hMem => List.count_eq_one_of_mem hRun.once hMem
    have hSeen : ∀ c ∈ addresses L, c ∈ addresses L' →
        c ∈ s'.visited s.runs := by
      intro c hOld hMem
      rcases hRun.kept c hOld hMem with hPast | hRest
      · exact hPast
      · cases hRest
    refine ⟨L, L', hLinked.holds, hLinked'.holds, ?_, ?_,
      fun c hMem => hLinked'.visited_of_called hMem, ?_, ?_, ?_⟩
    · intro c hOld hNot
      exact hOnce c (hSeen c hOld (hRun.live c (Or.inl hOld) hNot))
    · intro c hMem
      rcases hRun.past c hMem with ⟨hOld, hNot⟩
      exact ⟨hOld, hNot, hOnce c hMem, hLinked'.called_count (hOnce c hMem)⟩
    · intro c hMem
      rcases hRun.added c hMem with hOld | hNew
      · exact Or.inl (hSeen c hOld hMem)
      · exact Or.inr hNew
    · intro c hOld hNot
      have hMem := hRun.live c hOld hNot
      rcases List.mem_map.mp hMem with ⟨⟨a, x⟩, hEntry, hEq⟩
      rw [show a = c from hEq] at hEntry
      cases x with
      | true => exact hEntry
      | false => exact absurd ((hLinked'.marks c false hEntry).mp rfl) hNot
    · intro c hRemoved hMem
      have hOld : c ∈ addresses L := by
        rcases hRun.added c hMem with hOld | hNew
        · exact hOld
        · exact absurd (hLinked.removed c hRemoved) (Nat.not_lt_of_le hNew)
      exact (hRun.past c (hSeen c hOld hMem)).2 hRemoved

/-
  Two callbacks of which the second is not ready: the run comes
  to both and calls the first.
-/
theorem value_callbacks_run_called :
    (∀ ready c fault, ValueCallbacks.step ready c ValueCallbacks.start = .error fault →
      fault = .badHandle) ∧
    ∃ s s' : ValueCallbacks, s'.walking = some ⟨s.runs, none, some 0⟩ ∧
      s'.visited s.runs = [1, 0] ∧
      (s'.called s.runs).count 1 = 1 ∧ (s'.called s.runs).count 0 = 0 := by
  refine ⟨(value_callbacks_run _).1 .refl, ?_⟩
  have hAdded :
      CallbackSteps (fun _ => True) ValueCallbacks.start
        ValueCallbacks.start.addVpiCallback.addVpiCallback :=
    .next false .add (.next false .add .refl trivial rfl) trivial rfl
  have hDone : CallbackSteps (fun _ => True)
      ValueCallbacks.start.addVpiCallback.addVpiCallback.runVpiCallbacks
      { ValueCallbacks.start.addVpiCallback.addVpiCallback.runVpiCallbacks with
        visits := [⟨0, 1, true⟩, ⟨0, 0, false⟩]
        calls := [(0, 1)]
        walking := some ⟨0, none, some 0⟩ } :=
    CallbackSteps.next false .ret (.next false .ret (.next true .ret
      (@CallbackSteps.refl (fun _ => True)
        ValueCallbacks.start.addVpiCallback.addVpiCallback.runVpiCallbacks)
      trivial rfl) trivial rfl) trivial rfl
  rcases (value_callbacks_run _).2 hAdded rfl _ _ hDone rfl with ⟨L, L', _, _, _, hPast, _⟩
  refine ⟨ValueCallbacks.start.addVpiCallback.addVpiCallback,
    { ValueCallbacks.start.addVpiCallback.addVpiCallback.runVpiCallbacks with
      visits := [⟨0, 1, true⟩, ⟨0, 0, false⟩]
      calls := [(0, 1)]
      walking := some ⟨0, none, some 0⟩ }, rfl, rfl, ?_, ?_⟩
  · rcases (hPast 1 (by decide)).2.2.2 with ⟨v, hVisit, -, hCallback, hCount⟩
    rw [hCount]
    revert hCallback
    rcases mem_cons.mp hVisit with rfl | hVisit
    · decide
    · rw [mem_singleton.mp hVisit]
      decide
  · rcases (hPast 0 (by decide)).2.2.2 with ⟨v, hVisit, -, hCallback, hCount⟩
    rw [hCount]
    revert hCallback
    rcases mem_cons.mp hVisit with rfl | hVisit
    · decide
    · rw [mem_singleton.mp hVisit]
      decide

/- Steps one after another. -/
def playCallbacks : List (Bool × UserCommand) → ValueCallbacks → Except RunFault ValueCallbacks
| [], s => .ok s
| (ready, c) :: steps, s => ValueCallbacks.step ready c s >>= playCallbacks steps

/-
  Two callbacks; the routine of the first one removes the
  second and changes the value.  The nested run deletes the
  second, which the outer run then comes to.  And a callback
  that removes itself is still on the list after the run.
-/
theorem value_callbacks_freed :
    playCallbacks
        [(false, .add), (false, .add), (false, .change), (true, .ret),
          (false, .remove 0), (false, .change), (false, .ret),
          (false, .ret), (false, .ret), (false, .ret), (false, .ret)]
        ValueCallbacks.start = .error .freed ∧
    ∃ s,
      playCallbacks
          [(false, .add), (false, .change), (true, .ret),
            (false, .remove 0), (false, .ret), (false, .ret)]
          ValueCallbacks.start = .ok s ∧
      s.walking = none ∧
      s.routines = [] ∧
      s.removed = [0] ∧
      s.vpi_callbacks.head = some 0 ∧
      s.vpi_callbacks.heap 0 = some ⟨none, false⟩ := by
  constructor
  · rfl
  · exact ⟨_, rfl, rfl, rfl, rfl, rfl, rfl⟩

end EpicSim
