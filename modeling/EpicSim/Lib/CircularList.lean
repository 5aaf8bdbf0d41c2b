import Mathlib.Data.List.Nodup
import Mathlib.Data.List.Perm.Basic
import Mathlib.Logic.Function.Iterate

/-
  Circular lists held together by a `next` pointer, and the
  queues that are known by the last element of such a list.
-/

namespace CircularList

open Function (update update_of_ne update_self)

variable {α : Type*}

/- Following `next` from `a` visits the list and reaches `b`. -/
def Segment (next : α → α) : α → List α → α → Prop
| a, [], b => a = b
| a, x :: l, b => a = x ∧ Segment next (next x) l b

/- The list is one full turn around a ring. -/
def Ring (next : α → α) : List α → Prop
| [] => False
| a :: rest => (a :: rest).Nodup ∧ Segment next (next a) rest a

theorem segment_append (next : α → α) (left right : List α) (a c : α) :
    Segment next a (left ++ right) c ↔
      ∃ b, Segment next a left b ∧ Segment next b right c := by
  induction left generalizing a with
  | nil => simp [Segment]
  | cons x left ih =>
    rw [List.cons_append]
    simp only [Segment, ih]
    grind

variable {l : List α} {next : α → α} {rest : List α}

/- Only the pointers of the visited elements matter. -/
theorem segment_frame {next next' : α → α} {a b : α} (hSame : ∀ x ∈ l, next' x = next x)
    (h : Segment next a l b) : Segment next' a l b := by
  induction l generalizing a with
  | nil => exact h
  | cons x l ih =>
    rw [List.forall_mem_cons] at hSame
    refine ⟨h.1, ?_⟩
    rw [hSame.1]
    exact ih hSame.2 h.2

/- A ring, as a segment from an element to itself. -/
theorem ring_segment {a : α} (h : Ring next (a :: rest)) : Segment next a (a :: rest) a :=
  ⟨rfl, h.2⟩

theorem ring_nodup (h : Ring next l) : l.Nodup := by
  cases l with
  | nil => exact h.elim
  | cons a rest => exact h.1

theorem ring_frame {next next' : α → α} (hSame : ∀ x ∈ l, next' x = next x) (h : Ring next l) :
    Ring next' l := by
  cases l with
  | nil => exact h.elim
  | cons a rest =>
    rw [List.forall_mem_cons] at hSame
    refine ⟨h.1, ?_⟩
    rw [hSame.1]
    exact segment_frame hSame.2 h.2

theorem ring_singleton {a : α} (h : next a = a) : Ring next [a] := by
  refine ⟨List.nodup_singleton a, ?_⟩
  rw [h]
  rfl

/- A turn may start at any element. -/
theorem ring_rotate {next : α → α} {left right : List α} (h : Ring next (left ++ right)) :
    Ring next (right ++ left) := by
  cases right with
  | nil => simpa using h
  | cons b right =>
    cases left with
    | nil => simpa using h
    | cons a left =>
      have hSegment := ring_segment h
      rcases (segment_append next (a :: left) _ a a).mp hSegment with ⟨m, hLeft, hm, hRight⟩
      subst hm
      refine ⟨?_, ?_⟩
      · have hPerm : ((a :: left) ++ m :: right).Perm ((m :: right) ++ (a :: left)) :=
          List.perm_append_comm
        exact hPerm.nodup_iff.mp (ring_nodup h)
      · exact (segment_append next right (a :: left) (next m) m).mpr ⟨a, hRight, hLeft⟩

/- Every element starts a turn that visits the same elements. -/
theorem ring_from (h : Ring next l) {x : α} (hx : x ∈ l) :
    ∃ rest, (x :: rest).Perm l ∧ Ring next (x :: rest) := by
  rcases List.append_of_mem hx with ⟨left, right, rfl⟩
  refine ⟨right ++ left, ?_, ?_⟩
  · rw [← List.cons_append]
    exact List.perm_append_comm
  · exact ring_rotate h

/- Insert an element after the first one. -/
theorem ring_insert [DecidableEq α] {a x : α} (h : Ring next (a :: rest)) (hx : x ∉ a :: rest) :
    Ring (update (update next x (next a)) a x) (a :: x :: rest) := by
  have hxa : x ≠ a := by
    intro hEq
    exact hx (hEq ▸ List.mem_cons_self)
  have hxRest : x ∉ rest := fun hMem => hx (List.mem_cons_of_mem _ hMem)
  have haRest : a ∉ rest := (List.nodup_cons.mp h.1).1
  refine ⟨?_, ?_⟩
  · rw [List.nodup_cons, List.nodup_cons, List.mem_cons, not_or]
    exact ⟨⟨Ne.symm hxa, haRest⟩, hxRest, (List.nodup_cons.mp h.1).2⟩
  · rw [update_self]
    refine ⟨rfl, ?_⟩
    rw [update_of_ne hxa, update_self]
    refine segment_frame ?_ h.2
    grind

/- Remove the element after the first one. -/
theorem ring_remove [DecidableEq α] {a x : α} (h : Ring next (a :: x :: rest)) :
    next a = x ∧
      Ring (update next a (next x)) (a :: rest) := by
  rcases h with ⟨hNodup, hx, hRest⟩
  rw [List.nodup_cons, List.nodup_cons, List.mem_cons, not_or] at hNodup
  refine ⟨hx, ?_, ?_⟩
  · grind
  · rw [update_self]
    refine segment_frame ?_ hRest
    grind

----
-- Walking Around
----

/-
  The elements from `a` on until the walk is back at `stop`,
  in at most `fuel` steps.
-/
def collect [DecidableEq α] (next : α → α) (stop : α) : Nat → α → Option (List α)
| 0, _ => none
| fuel + 1, a =>
  if a = stop then some []
  else (collect next stop fuel (next a)).map (a :: ·)

/- The walk from the successor visits the rest of the ring. -/
theorem collect_of_ring [DecidableEq α]
    {stop : α} (h : Ring next (stop :: rest)) {fuel : Nat} (hFuel : rest.length < fuel) :
    collect next stop fuel (next stop) = some rest := by
  rcases h with ⟨hNodup, hSegment⟩
  have hStop : stop ∉ rest := (List.nodup_cons.mp hNodup).1
  clear hNodup
  generalize next stop = a at hSegment
  induction rest generalizing a fuel with
  | nil =>
    obtain ⟨fuel, rfl⟩ : ∃ f, fuel = f + 1 :=
      ⟨fuel - 1, by
        omega⟩
    have hBack : a = stop := hSegment
    rw [collect, if_pos hBack]
  | cons x rest ih =>
    obtain ⟨fuel, rfl⟩ : ∃ f, fuel = f + 1 := ⟨fuel - 1, by omega⟩
    rcases hSegment with ⟨rfl, hSegment⟩
    rw [List.mem_cons, not_or] at hStop
    rw [collect, if_neg (Ne.symm hStop.1), ih (by simpa using hFuel) hStop.2 _ hSegment]
    rfl

end CircularList

----
-- Queues Addressed By Their Tail
----

namespace CircularList

open Function (update update_of_ne update_self)
open List (cons_append mem_append_right mem_cons_self nodup_cons)

variable {α : Type*}

/-
  A queue is known by its last element, whose successor is
  the first one.
-/
def Queued (next : α → α) : Option α → List α → Prop
| none, l => l = []
| some tail, l => ∃ front, l = front ++ [tail] ∧ Ring next (tail :: front)

/- Put an element at the end of a queue. -/
def enqueue [DecidableEq α] (next : α → α) (tail : Option α) (cur : α) : (α → α) × Option α :=
  let next := update next cur cur
  match tail with
  | none => (next, some cur)
  | some q =>
    let next := update next cur (next q)
    (update next q cur, some cur)

/- Put an element in front of a queue. -/
def pushFront [DecidableEq α] (next : α → α) (tail : Option α) (cur : α) : (α → α) × Option α :=
  match tail with
  | none => (update next cur cur, some cur)
  | some q =>
    let next := update next cur (next q)
    (update next q cur, some q)

/- Take the first element of a queue with a given tail. -/
def pull [DecidableEq α] (next : α → α) (tail : α) : α × (α → α) × Option α :=
  let cur := next tail
  if next cur = cur then (cur, next, none)
  else (cur, update next tail (next cur), some tail)

variable {next : α → α} {tail : Option α} {l : List α} {a b x : α}

theorem queued_nodup (h : Queued next tail l) : l.Nodup := by
  cases tail with
  | none => rw [h]; exact List.nodup_nil
  | some tail =>
    rcases h with ⟨front, rfl, hRing⟩
    exact (List.perm_append_singleton _ _).nodup_iff.mpr (ring_nodup hRing)

theorem queued_nil_iff (h : Queued next tail l) : tail = none ↔ l = [] := by
  cases tail with
  | none => simpa [Queued] using h
  | some tail =>
    rcases h with ⟨front, rfl, -⟩
    simp

/- A queue does not see links of other elements. -/
theorem queued_frame {next next' : α → α} (hSame : ∀ x ∈ l, next' x = next x)
    (h : Queued next tail l) : Queued next' tail l := by
  cases tail with
  | none => exact h
  | some tail =>
    rcases h with ⟨front, rfl, hRing⟩
    refine ⟨front, rfl, ring_frame ?_ hRing⟩
    grind

theorem queued_enqueue [DecidableEq α] (h : Queued next tail l) {cur : α} (hCur : cur ∉ l) :
    Queued (enqueue next tail cur).1 (enqueue next tail cur).2 (l ++ [cur]) ∧
      ∀ x, x ∉ l → x ≠ cur →
        (enqueue next tail cur).1 x = next x := by
  cases tail with
  | none =>
    have hNil : l = [] := h
    subst hNil
    refine ⟨⟨[], rfl, ?_⟩, ?_⟩
    · exact ring_singleton (by simp [enqueue])
    · intro x _ hx
      simp [enqueue, hx]
  | some q =>
    rcases h with ⟨front, rfl, hRing⟩
    have hOut : cur ∉ q :: front := by grind
    have hNe : q ≠ cur := by
      rintro rfl
      exact hOut mem_cons_self
    have hLinks : (enqueue next (some q) cur).1 =
        update (update next cur (next q)) q cur := by
      simp [enqueue, update_of_ne hNe]
    refine ⟨⟨front ++ [q], rfl, ?_⟩, ?_⟩
    · rw [hLinks]
      have hInsert : Ring _ ([q] ++ cur :: front) := ring_insert hRing hOut
      exact ring_rotate hInsert
    · intro x hx hxCur
      rw [hLinks]
      grind

theorem queued_pushFront [DecidableEq α] (h : Queued next tail l) {cur : α} (hCur : cur ∉ l) :
    Queued (pushFront next tail cur).1 (pushFront next tail cur).2 (cur :: l) ∧
      ∀ x, x ∉ l → x ≠ cur →
        (pushFront next tail cur).1 x = next x := by
  cases tail with
  | none =>
    have hNil : l = [] := h
    subst hNil
    refine ⟨⟨[], rfl, ?_⟩, ?_⟩
    · exact ring_singleton (by simp [pushFront])
    · intro x _ hx
      simp [pushFront, hx]
  | some q =>
    rcases h with ⟨front, rfl, hRing⟩
    have hOut : cur ∉ q :: front := by grind
    refine ⟨⟨cur :: front, rfl, ring_insert hRing hOut⟩, ?_⟩
    intro x hx hxCur
    have hxq : x ≠ q := by grind
    simp [pushFront, hxq, hxCur]

theorem queued_pull [DecidableEq α] {tail : α} (h : Queued next (some tail) l) :
    ∃ rest, l = (pull next tail).1 :: rest ∧
      Queued (pull next tail).2.1 (pull next tail).2.2 rest ∧
      ∀ x, x ∉ l → (pull next tail).2.1 x = next x := by
  rcases h with ⟨front, rfl, hRing⟩
  cases front with
  | nil =>
    have hSelf : next tail = tail := hRing.2
    refine ⟨[], ?_, ?_, ?_⟩
    · simp [pull, hSelf]
    · simp [pull, hSelf, Queued]
    · intro x _
      simp [pull, hSelf]
  | cons cur front =>
    rcases ring_remove hRing with ⟨hCur, hRest⟩
    -- the first element is followed by another one
    have hNe : next cur ≠ cur := by
      intro hSelf
      have hNodup := ring_nodup hRing
      have hTurn := hRing.2.2
      rw [hSelf] at hTurn
      cases front with
      | nil =>
        have hTail : cur = tail := hTurn
        rw [hTail] at hNodup
        simp at hNodup
      | cons x front =>
        rw [hTurn.1] at hNodup
        simp at hNodup
    refine ⟨front ++ [tail], ?_, ?_, ?_⟩
    · simp [pull, hCur, hNe]
    · simp only [pull, hCur, if_neg hNe]
      exact ⟨front, rfl, hRest⟩
    · intro x hx
      have hxTail : x ≠ tail := by grind
      simp [pull, hCur, hNe, hxTail]

theorem segment_reaches (h : Segment next a l b) {x : α} (hx : x ∈ l) : ∃ k, next^[k] a = x := by
  induction l generalizing a with
  | nil => cases hx
  | cons y l ih =>
    rcases h with ⟨rfl, hRest⟩
    rcases List.mem_cons.mp hx with rfl | hx
    · exact ⟨0, rfl⟩
    · rcases ih hRest hx with ⟨k, hk⟩
      exact ⟨k + 1, hk⟩

theorem segment_closed (h : Segment next a l b) {x : α} (hx : x ∈ l) : next x ∈ l ∨ next x = b := by
  induction l generalizing a with
  | nil => cases hx
  | cons y l ih =>
    rcases h with ⟨rfl, hRest⟩
    rcases List.mem_cons.mp hx with rfl | hx
    · cases l with
      | nil => exact Or.inr hRest
      | cons z l =>
        left
        rw [hRest.1]
        exact List.mem_cons_of_mem _ mem_cons_self
    · exact (ih hRest hx).imp_left (List.mem_cons_of_mem _)

/- The elements of a ring are those that its tail leads to. -/
theorem mem_ring_iff {rest : List α} (h : Ring next (a :: rest)) (x : α) :
    x ∈ a :: rest ↔ ∃ k, next^[k] a = x := by
  constructor
  · exact fun hx => segment_reaches (ring_segment h) hx
  · rintro ⟨k, rfl⟩
    induction k with
    | zero => exact mem_cons_self
    | succ k ih =>
      rw [Function.iterate_succ_apply']
      rcases segment_closed (ring_segment h) ih with hMem | hEq
      · exact hMem
      · rw [hEq]
        exact mem_cons_self

theorem mem_queued_iff (h : Queued next tail l) (x : α) :
    x ∈ l ↔ ∃ q k, tail = some q ∧ next^[k] q = x := by
  cases tail with
  | none =>
    have hNil : l = [] := h
    simp [hNil]
  | some q =>
    rcases h with ⟨front, rfl, hRing⟩
    have hMem : x ∈ front ++ [q] ↔ x ∈ q :: front := (List.perm_append_singleton q front).mem_iff
    rw [hMem, mem_ring_iff hRing]
    simp

----
-- Joining And Leaving Queues
----

/- Exchanging the successors of two rings makes one ring. -/
theorem ring_splice [DecidableEq α]
    {xs ys : List α} (hA : Ring next (a :: xs)) (hB : Ring next (b :: ys))
    (hApart : ∀ x ∈ a :: xs, x ∉ b :: ys) :
    Ring (update (update next a (next b)) b (next a)) (b :: (xs ++ a :: ys)) := by
  have hab : a ≠ b := by
    rintro rfl
    exact hApart a mem_cons_self mem_cons_self
  have hPerm : (b :: (xs ++ a :: ys)).Perm ((a :: xs) ++ b :: ys) := by grind
  have hNodup : (b :: (xs ++ a :: ys)).Nodup :=
    hPerm.nodup_iff.mpr
      (List.nodup_append.mpr ⟨ring_nodup hA, ring_nodup hB,
        fun x hx y hy hEq => hApart x hx (hEq ▸ hy)⟩)
  have hSame : ∀ x, x ≠ a → x ≠ b →
      update (update next a (next b)) b (next a) x = next x := by
    intro x hxa hxb
    rw [update_of_ne hxb, update_of_ne hxa]
  refine ⟨hNodup, ?_⟩
  rw [update_self]
  apply (segment_append _ xs (a :: ys) (next a) b).mpr
  refine ⟨a, ?_, rfl, ?_⟩
  · apply segment_frame _ hA.2
    grind
  · rw [update_of_ne hab, update_self]
    apply segment_frame _ hB.2
    grind

theorem queued_splice [DecidableEq α]
    {l m : List α} (hA : Queued next (some a) l) (hB : Queued next (some b) m)
    (hApart : ∀ x ∈ l, x ∉ m) :
    Queued (update (update next a (next b)) b (next a)) (some b) (l ++ m) := by
  rcases hA with ⟨xs, rfl, hRingA⟩
  rcases hB with ⟨ys, rfl, hRingB⟩
  refine ⟨xs ++ a :: ys, by simp, ?_⟩
  apply ring_splice hRingA hRingB
  intro x hxA hxB
  apply hApart x
  · exact (List.perm_append_singleton a xs).mem_iff.mpr hxA
  · exact (List.perm_append_singleton b ys).mem_iff.mpr hxB

variable {left right before : List α} {p : α}

/- The walk from the last element to the one before `x`. -/
theorem queued_walk {next : α → α} {tail x : α}
    (h : Queued next (some tail) (left ++ x :: right)) : Segment next tail (tail :: left) x := by
  rcases h with ⟨front, hEq, hRing⟩
  have hTurn := ring_segment hRing
  rcases List.eq_nil_or_concat right with rfl | ⟨right, y, rfl⟩
  · rcases List.append_inj' hEq rfl with ⟨rfl, hLast⟩
    cases hLast
    exact hTurn
  · rw [List.concat_eq_append, ← cons_append, ← List.append_assoc] at hEq
    rcases List.append_inj' hEq rfl with ⟨rfl, hLast⟩
    rcases (segment_append next (tail :: left) _ _ _).mp hTurn with ⟨b, hWalk, hb, -⟩
    rw [← hb]
    exact hWalk

/- What follows an element in a queue ends with the tail. -/
theorem queued_tail {tail x y : α}
    (h : Queued next (some tail) (left ++ x :: y :: right)) : tail ∈ y :: right := by
  rcases h with ⟨front, hEq, -⟩
  rcases List.eq_nil_or_concat (y :: right) with hNil | ⟨before, z, hEnd⟩
  · cases hNil
  · rw [List.concat_eq_append] at hEnd
    rw [hEnd, ← cons_append, ← List.append_assoc] at hEq
    rcases List.append_inj' hEq rfl with ⟨-, hLast⟩
    grind

/- Remove an element after the one before it. -/
theorem queued_unlink [DecidableEq α] {tail x : α}
    (h : Queued next (some tail) (left ++ x :: right))
    (hBefore : tail :: left = before ++ [p]) (hMore : p ≠ x) :
    Queued (update next p (next x))
      (some (if tail = x then p else tail))
      (left ++ right) := by
  have hNodup := queued_nodup h
  rcases h with ⟨front, hEq, hRing⟩
  rcases List.eq_nil_or_concat right with rfl | ⟨right, y, rfl⟩
  · rcases List.append_inj' hEq rfl with ⟨rfl, hLast⟩
    obtain rfl : x = tail := by simpa using hLast
    rw [if_pos rfl, List.append_nil]
    cases before with
    | nil =>
      exact absurd (List.cons.inj hBefore).1.symm hMore
    | cons y before =>
      rcases List.cons.inj hBefore with ⟨rfl, rfl⟩
      have hFrom : Ring next (p :: x :: before) := @ring_rotate α next (x :: before) [p] hRing
      exact ⟨before, rfl, (ring_remove hFrom).2⟩
  · rw [List.concat_eq_append, ← cons_append, ← List.append_assoc] at hEq
    rcases List.append_inj' hEq rfl with ⟨rfl, hLast⟩
    obtain rfl : y = tail := by simpa using hLast
    have hTail : y ≠ x := by grind
    rw [if_neg hTail, List.concat_eq_append, ← List.append_assoc]
    refine ⟨left ++ right, rfl, ?_⟩
    have hTurn : Ring next (before ++ p :: x :: right) := by grind
    have hLess : Ring (update next p (next x)) ((p :: right) ++ before) :=
      (ring_remove (ring_rotate hTurn)).2
    have hBack := ring_rotate hLess
    rw [← cons_append, hBefore]
    simpa using hBack

/- Only the last visited element is followed by the end. -/
theorem segment_before {a x : α} (h : Segment next a (before ++ [p]) x)
    (hOnce : x ∉ (before ++ [p]).tail) : ∀ y ∈ before, next y ≠ x := by
  induction before generalizing a with
  | nil =>
    intro y hy
    cases hy
  | cons z before ih =>
    rcases h with ⟨rfl, hRest⟩
    have hNext : next a ∈ before ++ [p] := by
      cases before with
      | nil =>
        rw [hRest.1]
        exact mem_cons_self
      | cons w before =>
        rw [hRest.1]
        exact mem_cons_self
    have hOut : x ∉ before ++ [p] := hOnce
    intro y hy
    rcases List.mem_cons.mp hy with rfl | hy
    · intro hEq
      rw [hEq] at hNext
      exact hOut hNext
    · exact ih hRest (fun hMem => hOut (List.mem_of_mem_tail hMem)) y hy

theorem segment_last {a x : α} (h : Segment next a (before ++ [p]) x) :
    next p = x := by
  rcases (segment_append next before [p] a x).mp h with ⟨b, -, rfl, hEnd⟩
  exact hEnd

/- An element that follows itself is alone. -/
theorem queued_self (h : Queued next tail l) (hx : x ∈ l) (hSelf : next x = x) : l = [x] := by
  cases tail with
  | none =>
    rw [h] at hx
    cases hx
  | some tail =>
    rcases h with ⟨front, rfl, hRing⟩
    have hMem : x ∈ tail :: front := (List.perm_append_singleton tail front).mem_iff.mp hx
    rcases ring_from hRing hMem with ⟨rest, hPerm, hFrom⟩
    have hNil : rest = [] := by
      rcases hFrom with ⟨hNodup, hTurn⟩
      rw [hSelf] at hTurn
      cases rest with
      | nil => rfl
      | cons y rest =>
        rw [hTurn.1] at hNodup
        exact absurd mem_cons_self (nodup_cons.mp hNodup).1
    rw [hNil] at hPerm
    have hAlone : [x].Perm (front ++ [tail]) := hPerm.trans (List.perm_append_singleton _ _).symm
    exact (List.singleton_perm.mp hAlone).symm

end CircularList
