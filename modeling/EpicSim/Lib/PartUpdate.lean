import Mathlib.Data.List.GetD

/-
  A view of a sequence that is kept up to date by full and
  partial updates.

  A full update replaces the view, a partial update replaces
  a range of it.
-/

----
-- Overwriting a Range
----

namespace PartUpdate

variable {α : Type}

/- Replace the bits from `adr` on by those of `that`. -/
def overwrite (bits : List α) (adr : Nat) (that : List α) : List α :=
  bits.mapIdx (fun idx bit => if adr ≤ idx then that.getD (idx - adr) bit else bit)

@[simp] theorem overwrite_length (bits : List α) (adr : Nat) (that : List α) :
    (overwrite bits adr that).length = bits.length := by
  simp [overwrite]

theorem overwrite_getElem {bits that : List α} {adr idx : Nat}
    (h : idx < (overwrite bits adr that).length) :
    (overwrite bits adr that)[idx] =
      if adr ≤ idx then
        that.getD (idx - adr) (bits.get ⟨idx, overwrite_length bits adr that ▸ h⟩)
      else bits.get ⟨idx, overwrite_length bits adr that ▸ h⟩ := by
  simp only [overwrite, List.getElem_mapIdx, List.get_eq_getElem]

/- What a range holds after it is overwritten. -/
theorem overwrite_getD {bits that : List α} {adr idx : Nat} (d : α) (hIdx : idx < bits.length) :
    (overwrite bits adr that).getD idx d =
      if adr ≤ idx ∧ idx < adr + that.length then
        that.getD (idx - adr) d
      else bits.getD idx d := by
  have hLength : idx < (overwrite bits adr that).length := by rwa [overwrite_length]
  rw [List.getD_eq_getElem _ _ hLength, List.getD_eq_getElem _ _ hIdx,
    overwrite_getElem hLength, List.get_eq_getElem]
  by_cases hLow : adr ≤ idx
  · grind
  · rw [if_neg hLow, if_neg (fun h => hLow h.1)]

/- Overwriting the whole range. -/
theorem overwrite_all {bits that : List α} (h : that.length = bits.length) :
    overwrite bits 0 that = that := by
  apply List.ext_getElem
  · rw [overwrite_length, h]
  · intro idx hLeft hRight
    rw [overwrite_getElem hLeft, if_pos (Nat.zero_le idx),
      Nat.sub_zero, List.getD_eq_getElem _ _ hRight]

/- Two sequences of one length with equal entries. -/
theorem eq_of_getD {as bs : List α} (d : α) (hLength : as.length = bs.length)
    (h : ∀ idx, idx < as.length → as.getD idx d = bs.getD idx d) : as = bs := by
  apply List.ext_getElem hLength
  intro idx hLeft hRight
  have hEq := h idx hLeft
  rwa [List.getD_eq_getElem _ _ hLeft, List.getD_eq_getElem _ _ hRight] at hEq

----
-- Updates
----

end PartUpdate

/- An update of a view. -/
inductive PartUpdate (α : Type) where
| full (bits : List α) : PartUpdate α
| part (base : Nat) (bits : List α) : PartUpdate α
deriving DecidableEq, Repr

namespace PartUpdate

variable {α : Type}

/- The view after an update. -/
def apply (view : List α) : PartUpdate α → List α
| full bits => bits
| part base bits => overwrite view base bits

/- The view after a sequence of updates. -/
def mergeAll (view : List α) (us : List (PartUpdate α)) : List α :=
  us.foldl apply view

/- The update is about sequences of this length. -/
def Fits (size : Nat) : PartUpdate α → Prop
| full bits => bits.length = size
| part base bits => base + bits.length ≤ size

/- The update has an entry at this index. -/
def Covers (idx : Nat) : PartUpdate α → Prop
| full bits => idx < bits.length
| part base bits => base ≤ idx ∧ idx < base + bits.length

@[simp] theorem mergeAll_append (view : List α) (us vs : List (PartUpdate α)) :
    mergeAll view (us ++ vs) = mergeAll (mergeAll view us) vs := by
  simp [mergeAll]

@[simp] theorem mergeAll_nil (view : List α) : mergeAll view [] = view := rfl

@[simp] theorem mergeAll_singleton (view : List α) (u : PartUpdate α) :
    mergeAll view [u] = u.apply view := rfl

theorem apply_length {size : Nat} {view : List α} {u : PartUpdate α} (hView : view.length = size)
    (hFits : u.Fits size) : (u.apply view).length = size := by
  cases u with
  | full bits => exact hFits
  | part base bits => rw [apply, overwrite_length, hView]

theorem mergeAll_length {size : Nat} {us : List (PartUpdate α)} {view : List α}
    (hView : view.length = size) (hFits : ∀ u, u ∈ us → u.Fits size) :
    (mergeAll view us).length = size := by
  induction us generalizing view with
  | nil => exact hView
  | cons u us ih =>
    apply ih
    · exact apply_length hView (hFits u (by simp))
    · intro v hv
      exact hFits v (by simp [hv])

/- A covered entry does not depend on the view before. -/
theorem apply_covered {size idx : Nat} {view view' : List α} {u : PartUpdate α}
    (d : α) (hView : view.length = size) (hView' : view'.length = size) (hIdx : idx < size)
    (hSame : u.Covers idx ∨ view.getD idx d = view'.getD idx d) :
    (u.apply view).getD idx d = (u.apply view').getD idx d := by
  cases u with
  | full bits => rfl
  | part base bits =>
    unfold apply
    rw [overwrite_getD d (by omega), overwrite_getD d (by omega)]
    by_cases hRange : base ≤ idx ∧ idx < base + bits.length
    · rw [if_pos hRange, if_pos hRange]
    · rw [if_neg hRange, if_neg hRange]
      exact hSame.resolve_left hRange

/-
  After any updates, the entries that some update covered do
  not depend on the first view.
-/
theorem mergeAll_covered {size idx : Nat} {us : List (PartUpdate α)}
    {view view' : List α} (d : α) (hView : view.length = size)
    (hView' : view'.length = size) (hFits : ∀ u, u ∈ us → u.Fits size) (hIdx : idx < size)
    (hSame : (∃ u, u ∈ us ∧ u.Covers idx) ∨ view.getD idx d = view'.getD idx d) :
    (mergeAll view us).getD idx d = (mergeAll view' us).getD idx d := by
  induction us generalizing view view' with
  | nil =>
    apply hSame.resolve_left
    rintro ⟨u, hu, _⟩
    simp at hu
  | cons u us ih =>
    have hu : u.Fits size := hFits u (by simp)
    apply ih (apply_length hView hu) (apply_length hView' hu)
    · intro v hv
      exact hFits v (by simp [hv])
    · rcases hSame with ⟨v, hv, hCovers⟩ | hSame
      · rcases List.mem_cons.mp hv with rfl | hv
        · right
          exact apply_covered d hView hView' hIdx (Or.inl hCovers)
        · left
          exact ⟨v, hv, hCovers⟩
      · right
        exact apply_covered d hView hView' hIdx (Or.inr hSame)

end PartUpdate
