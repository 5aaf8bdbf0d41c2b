import Mathlib.Data.List.Pairwise
import Mathlib.Tactic.Common

/-
  Lists of cells with relative delays.

  Every cell stores its delay after the cell before it, so
  that the absolute time of a cell is a sum of delays.  An
  insertion finds the cell of an absolute time, or makes one
  and takes its delay away from the cell behind it.
-/

----
-- Cells
----

/- A cell and its delay after the cell before it. -/
structure DeltaCell (α : Type*) where
  delay : Nat
  body : α
deriving DecidableEq, Repr

namespace DeltaList

variable {α : Type*}

/-
  The place of a delay in a list: its cell, old or new, with
  the cells around it, and what the walk has left of the
  delay.
-/
structure Place (α : Type*) where
  before : List (DeltaCell α)
  cell : DeltaCell α
  after : List (DeltaCell α)
  rest : Nat

/- The list again, with a new body in the cell found. -/
def Place.fill (p : Place α) (body : α) : List (DeltaCell α) :=
  p.before ++ { p.cell with body := body } :: p.after

/- Walk past one cell. -/
def Place.skip (p : Place α) (c : DeltaCell α) : Place α :=
  { p with before := c :: p.before }

/- A new cell in front of a later one. -/
def split (empty : α) (delay : Nat) (ctim : DeltaCell α)
    (after : List (DeltaCell α)) : Place α where
  before := []
  cell := ⟨delay, empty⟩
  after := { ctim with delay := ctim.delay - delay } :: after
  rest := delay

/- The walk has stopped at a cell that is not too early. -/
def settle (empty : α) (delay : Nat) (ctim : DeltaCell α) (after : List (DeltaCell α)) : Place α :=
  if delay < ctim.delay then split empty delay ctim after
  else ⟨[], ctim, after, delay⟩

/- Walk along the cells, counting the delay down. -/
def search (empty : α) : Nat → DeltaCell α → List (DeltaCell α) → Place α
| delay, ctim, [] =>
  if ctim.delay < delay then
    ⟨[ctim], ⟨delay - ctim.delay, empty⟩, [], delay⟩
  else settle empty delay ctim []
| delay, ctim, next :: after =>
  if ctim.delay < delay then
    (search empty (delay - ctim.delay) next after).skip ctim
  else settle empty delay ctim (next :: after)

/- Find the place of a delay. -/
def locate (empty : α) (delay : Nat) : List (DeltaCell α) → Place α
| [] => ⟨[], ⟨delay, empty⟩, [], delay⟩
| ctim :: after =>
  if delay < ctim.delay then split empty delay ctim after
  else search empty delay ctim after

end DeltaList

----
-- Absolute Times
----

namespace DeltaList

variable {α : Type*}

/- The bodies with their absolute times, from a start time. -/
def timed : Nat → List (DeltaCell α) → List (Nat × α)
| _, [] => []
| t, c :: cells => (t + c.delay, c.body) :: timed (t + c.delay) cells

/-
  A place fits a delay: filling its cell gives the list with
  one entry at the absolute time, which was there before or
  is new and empty.
-/
def Fits (empty : α) (t delay : Nat) (cells : List (DeltaCell α)) (p : Place α) : Prop :=
  ∃ left right,
    (∀ body,
      timed t (p.fill body) = left ++ (t + delay, body) :: right) ∧
      (timed t cells = left ++ (t + delay, p.cell.body) :: right ∨
        p.cell.body = empty ∧ timed t cells = left ++ right)

variable {delay : Nat} {ctim : DeltaCell α}

theorem split_fits (empty : α) (t : Nat)
    (h : delay < ctim.delay) (after : List (DeltaCell α)) :
    Fits empty t delay (ctim :: after) (split empty delay ctim after) := by
  have hSum : t + delay + (ctim.delay - delay) = t + ctim.delay := by omega
  refine ⟨[], timed t (ctim :: after), ?_, Or.inr ⟨rfl, rfl⟩⟩
  intro body
  simp only [split, Place.fill, timed, List.nil_append, hSum]

theorem settle_fits (empty : α) (t : Nat)
    (h : ¬ctim.delay < delay) (after : List (DeltaCell α)) :
    Fits empty t delay (ctim :: after) (settle empty delay ctim after) := by
  unfold settle
  split_ifs with hLater
  · exact split_fits empty t hLater after
  · have hEq : ctim.delay = delay := by omega
    refine ⟨[], timed (t + delay) after, ?_, Or.inl ?_⟩
    · intro body
      simp [Place.fill, timed, hEq]
    · simp [timed, hEq]

theorem skip_fits {empty : α} {t : Nat}
    (h : ctim.delay < delay) {cells : List (DeltaCell α)} {p : Place α}
    (hFits : Fits empty (t + ctim.delay) (delay - ctim.delay) cells p) :
    Fits empty t delay (ctim :: cells) (p.skip ctim) := by
  have hSum : t + ctim.delay + (delay - ctim.delay) = t + delay := by omega
  rcases hFits with ⟨left, right, hFill, hOld⟩
  rw [hSum] at hFill hOld
  refine ⟨(t + ctim.delay, ctim.body) :: left, right, ?_, ?_⟩
  · intro body
    have hRest := hFill body
    simp only [Place.fill] at hRest
    simp [Place.fill, Place.skip, timed, hRest]
  · rcases hOld with hOld | ⟨hEmpty, hOld⟩
    · left
      rw [timed, hOld]
      rfl
    · right
      rw [timed, hOld]
      exact ⟨hEmpty, rfl⟩

theorem search_fits (empty : α) (t delay : Nat) (ctim : DeltaCell α) (after : List (DeltaCell α)) :
    Fits empty t delay (ctim :: after) (search empty delay ctim after) := by
  induction after generalizing t delay ctim with
  | nil =>
    unfold search
    split_ifs with hEarly
    · have hSum : t + ctim.delay + (delay - ctim.delay) = t + delay := by
        omega
      refine ⟨[(t + ctim.delay, ctim.body)], [], ?_, Or.inr ⟨rfl, rfl⟩⟩
      intro body
      simp [Place.fill, timed, hSum]
    · exact settle_fits empty t hEarly []
  | cons next after ih =>
    unfold search
    split_ifs with hEarly
    · exact skip_fits hEarly (ih _ _ next)
    · exact settle_fits empty t hEarly (next :: after)

/- The place found fits, wherever the list starts. -/
theorem locate_timed (empty : α) (t delay : Nat) (cells : List (DeltaCell α)) :
    Fits empty t delay cells (locate empty delay cells) := by
  cases cells with
  | nil => exact ⟨[], [], fun body => rfl, Or.inr ⟨rfl, rfl⟩⟩
  | cons ctim after =>
    simp only [locate]
    split_ifs with hLater
    · exact split_fits empty t hLater after
    · exact search_fits empty t delay ctim after

/- Without a delay the place is the front of the list. -/
theorem locate_zero (empty : α) (cells : List (DeltaCell α)) :
    (locate empty 0 cells).before = [] ∧
      (locate empty 0 cells).cell.delay = 0 ∧
      (locate empty 0 cells).rest = 0 := by
  cases cells with
  | nil => exact ⟨rfl, rfl, rfl⟩
  | cons ctim after =>
    simp only [locate]
    split_ifs with hLater
    · exact ⟨rfl, rfl, rfl⟩
    · have hZero : ctim.delay = 0 := by omega
      cases after with
      | nil => simp [search, settle, hZero]
      | cons next after => simp [search, settle, hZero]

end DeltaList

----
-- Spacing
----

namespace DeltaList

variable {α : Type*}

/- No two cells have the same absolute time. -/
def Spaced (cells : List (DeltaCell α)) : Prop :=
  ∀ c ∈ cells.tail, 0 < c.delay

variable {delay : Nat} {ctim : DeltaCell α} {after cells : List (DeltaCell α)}

theorem settle_positive (empty : α) (hDelay : 0 < delay)
    (hCells : ∀ c ∈ ctim :: after, 0 < c.delay) (body : α) :
    ∀ c ∈ (settle empty delay ctim after).fill body,
      0 < c.delay := by
  rw [List.forall_mem_cons] at hCells
  unfold settle
  split_ifs with hLater
  · simp only [split, Place.fill, List.nil_append, List.forall_mem_cons]
    exact ⟨hDelay, by omega, hCells.2⟩
  · simp only [Place.fill, List.nil_append, List.forall_mem_cons]
    exact hCells

theorem search_positive (empty : α) (hDelay : 0 < delay)
    (hCells : ∀ c ∈ ctim :: after, 0 < c.delay) (body : α) :
    ∀ c ∈ (search empty delay ctim after).fill body,
      0 < c.delay := by
  induction after generalizing delay ctim with
  | nil =>
    unfold search
    split_ifs with hEarly
    · simp only [Place.fill, List.singleton_append, List.forall_mem_cons]
      exact ⟨hCells _ List.mem_cons_self, by omega, by simp⟩
    · exact settle_positive empty hDelay hCells body
  | cons next after ih =>
    unfold search
    split_ifs with hEarly
    · rw [List.forall_mem_cons] at hCells
      have hLeft : 0 < delay - ctim.delay := by omega
      have hRest := ih hLeft hCells.2
      intro c hc
      rcases List.mem_cons.mp hc with rfl | hc
      · exact hCells.1
      · exact hRest c hc
    · exact settle_positive empty hDelay hCells body

/- An insertion keeps the cells apart. -/
theorem spaced_locate
    (empty : α) (delay : Nat) (h : Spaced cells) (body : α) :
    Spaced ((locate empty delay cells).fill body) := by
  cases cells with
  | nil => simp [Spaced, locate, Place.fill]
  | cons ctim after =>
    simp only [locate]
    have hAfter : ∀ c ∈ after, 0 < c.delay := h
    split_ifs with hLater
    · simp only [Spaced, split, Place.fill, List.nil_append, List.tail_cons, List.forall_mem_cons]
      exact ⟨by omega, hAfter⟩
    · by_cases hEarly : ctim.delay < delay
      · cases after with
        | nil =>
          simp only [search, if_pos hEarly]
          intro c hc
          rw [List.mem_singleton.mp hc]
          exact Nat.sub_pos_of_lt hEarly
        | cons next after =>
          simp only [search, if_pos hEarly]
          intro c hc
          exact search_positive empty (Nat.sub_pos_of_lt hEarly) hAfter body c hc
      · have hFound : search empty delay ctim after = ⟨[], ctim, after, delay⟩ := by
          cases after <;>
            simp only [search, settle, if_neg hEarly, if_neg hLater]
        rw [hFound]
        exact hAfter

variable {t : Nat} {cells : List (DeltaCell α)}

theorem lt_of_mem_timed (h : ∀ c ∈ cells, 0 < c.delay) {entry : Nat × α}
    (hEntry : entry ∈ timed t cells) : t < entry.1 := by
  induction cells generalizing t with
  | nil => cases hEntry
  | cons c cells ih =>
    rw [List.forall_mem_cons] at h
    rcases List.mem_cons.mp hEntry with rfl | hEntry
    · omega
    · have hLater := ih h.2 hEntry
      omega

theorem pairwise_of_positive (h : ∀ c ∈ cells, 0 < c.delay) :
    ((timed t cells).map Prod.fst).Pairwise (· < ·) := by
  induction cells generalizing t with
  | nil => exact List.Pairwise.nil
  | cons c cells ih =>
    rw [List.forall_mem_cons] at h
    refine List.Pairwise.cons ?_ (ih h.2)
    intro time hTime
    rcases List.mem_map.mp hTime with ⟨entry, hEntry, rfl⟩
    exact lt_of_mem_timed h.2 hEntry

/- Spaced cells have increasing absolute times. -/
theorem pairwise_timed (t : Nat) (h : Spaced cells) :
    ((timed t cells).map Prod.fst).Pairwise (· < ·) := by
  cases cells with
  | nil => exact List.Pairwise.nil
  | cons c cells =>
    refine List.Pairwise.cons ?_ (pairwise_of_positive h)
    intro time hTime
    rcases List.mem_map.mp hTime with ⟨entry, hEntry, rfl⟩
    exact lt_of_mem_timed h hEntry

/-
  Filling the place of a delay changes the entry at its
  absolute time and no other one.
-/
theorem mem_timed_fill {empty : α} {t : Nat} (hSpaced : Spaced cells) (body : α)
    (entry : Nat × α) :
    entry ∈ timed t ((locate empty delay cells).fill body) ↔
      entry = (t + delay, body) ∨
        entry ∈ timed t cells ∧ entry.1 ≠ t + delay := by
  rcases locate_timed empty t delay cells with ⟨left, right, hFill, hOld⟩
  have hSorted := pairwise_timed t (spaced_locate empty delay hSpaced body)
  rw [hFill body, List.map_append, List.map_cons,
    List.pairwise_append, List.pairwise_cons] at hSorted
  rcases hSorted with ⟨-, ⟨hRight, -⟩, hLeft⟩
  -- the other entries are strictly before or after it
  have hOther : entry ∈ left ++ right →
      entry.1 ≠ t + delay := by
    intro hMem
    rcases List.mem_append.mp hMem with hMem | hMem
    · exact Nat.ne_of_lt (hLeft _ (List.mem_map_of_mem hMem)
        _ List.mem_cons_self)
    · exact Nat.ne_of_gt (hRight _ (List.mem_map_of_mem hMem))
  have hCells : entry ∈ timed t cells ∧
      entry.1 ≠ t + delay ↔ entry ∈ left ++ right := by
    rcases hOld with hOld | ⟨-, hOld⟩
    · grind
    · grind
  rw [hCells, hFill body, List.mem_append, List.mem_cons, List.mem_append]
  exact or_left_comm

/- The cell found is the old one, or new and empty. -/
theorem locate_cell {empty : α} (t delay : Nat)
    (hSpaced : Spaced cells) :
    (t + delay, (locate empty delay cells).cell.body) ∈ timed t cells ∨
      (locate empty delay cells).cell.body = empty ∧
        ∀ entry ∈ timed t cells, entry.1 ≠ t + delay := by
  rcases locate_timed empty t delay cells with ⟨left, right, hFill, hOld | ⟨hEmpty, hOld⟩⟩
  · grind
  · right
    refine ⟨hEmpty, ?_⟩
    intro entry hEntry
    have hMem := (mem_timed_fill hSpaced
      (locate empty delay cells).cell.body entry).mp (by
        rw [hFill, List.mem_append, List.mem_cons]
        rw [hOld, List.mem_append] at hEntry
        exact hEntry.imp_right Or.inr)
    rcases hMem with rfl | ⟨-, hNe⟩
    · exfalso
      have hSorted := pairwise_timed t
        (spaced_locate empty delay hSpaced (locate empty delay cells).cell.body)
      rw [hFill, List.map_append, List.map_cons,
        List.pairwise_append, List.pairwise_cons] at hSorted
      rcases hSorted with ⟨-, ⟨hRight, -⟩, hLeft⟩
      rw [hOld] at hEntry
      rcases List.mem_append.mp hEntry with hMem | hMem
      · exact Nat.lt_irrefl _ (hLeft _ (List.mem_map_of_mem hMem) _ List.mem_cons_self)
      · exact Nat.lt_irrefl _ (hRight _ (List.mem_map_of_mem hMem))
    · exact hNe

/- An insertion leaves a first cell without delay in front. -/
theorem head_fill (empty : α) (delay : Nat)
    (h : ctim.delay = 0) (after : List (DeltaCell α)) (body : α) :
    ∃ ctim' after',
      (locate empty delay (ctim :: after)).fill body = ctim' :: after' ∧
        ctim'.delay = 0 := by
  by_cases hDelay : 0 < delay
  · have hEarly : ctim.delay < delay := by omega
    refine ⟨ctim, ?_⟩
    cases after with
    | nil =>
      simp only [locate, if_neg (Nat.lt_asymm hEarly), search, if_pos hEarly]
      exact ⟨_, rfl, h⟩
    | cons next after =>
      simp only [locate, if_neg (Nat.lt_asymm hEarly), search, if_pos hEarly]
      exact ⟨_, rfl, h⟩
  · have hZero : delay = 0 := by omega
    subst hZero
    rcases locate_zero empty (ctim :: after) with ⟨hBefore, hCell, -⟩
    rw [Place.fill, hBefore]
    exact ⟨_, _, rfl, hCell⟩

/- The entries of a list come after its first delay. -/
theorem le_of_mem_timed
    (h : Spaced (ctim :: after)) {entry : Nat × α} (hEntry : entry ∈ timed t (ctim :: after)) :
    t + ctim.delay ≤ entry.1 := by
  rcases List.mem_cons.mp hEntry with rfl | hEntry
  · exact Nat.le_refl _
  · exact Nat.le_of_lt (lt_of_mem_timed h hEntry)

end DeltaList
