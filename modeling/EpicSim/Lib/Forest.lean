import Mathlib.Data.Finset.Basic

/-
  Forests whose nodes know their parents and their children:
  a new leaf, and a leaf that is taken away.  A rank grows
  from a parent to its children.
-/

open Function (update update_of_ne update_self)

structure Forest {α : Type} (up : α → Option α) (kids : α → Finset α) (rank : α → Nat) :
    Prop where
  mem_iff : ∀ v t, v ∈ kids t ↔ up v = some t
  rises : ∀ v t, up v = some t → rank t < rank v

namespace Forest

variable {α : Type} [DecidableEq α] {up : α → Option α} {kids : α → Finset α}
  {rank : α → Nat} {t v : α}

/- A node that is no node's child becomes a leaf of another. -/
theorem graft (h : Forest up kids rank) (hUp : up v = none) (hKids : kids v = ∅)
    (hNe : t ≠ v) :
    Forest (update up v (some t)) (update kids t (insert v (kids t)))
      (update rank v (rank t + 1)) := by
  have hNotUp : ∀ w, up w ≠ some v := by
    intro w hw
    rw [← h.mem_iff, hKids] at hw
    cases hw
  constructor
  · intro w p
    by_cases hw : w = v
    · rw [hw, update_self, Option.some_inj]
      by_cases hp : p = t
      · simp [hp]
      · rw [update_of_ne hp, h.mem_iff, hUp]
        simp [Ne.symm hp]
    · rw [update_of_ne hw, ← h.mem_iff]
      by_cases hp : p = t
      · rw [hp, update_self, Finset.mem_insert]
        exact or_iff_right hw
      · rw [update_of_ne hp]
  · intro w p hw
    by_cases hwv : w = v
    · rw [hwv, update_self, Option.some_inj] at hw
      rw [hwv, update_self, ← hw, update_of_ne hNe]
      exact Nat.lt_succ_self _
    · rw [update_of_ne hwv] at hw
      have hp : p ≠ v := by
        rintro rfl
        exact hNotUp w hw
      rw [update_of_ne hwv, update_of_ne hp]
      exact h.rises w p hw

/- A leaf is taken from its parent. -/
theorem prune (h : Forest up kids rank) (hUp : up v = some t) :
    Forest (update up v none) (update kids t ((kids t).erase v)) rank := by
  constructor
  · intro w p
    by_cases hw : w = v
    · rw [hw, update_self]
      by_cases hp : p = t
      · simp [hp]
      · rw [update_of_ne hp, h.mem_iff, hUp, Option.some_inj]
        simp [Ne.symm hp]
    · rw [update_of_ne hw, ← h.mem_iff]
      by_cases hp : p = t
      · rw [hp, update_self, Finset.mem_erase]
        exact and_iff_right hw
      · rw [update_of_ne hp]
  · intro w p hw
    by_cases hwv : w = v
    · rw [hwv, update_self] at hw
      cases hw
    · rw [update_of_ne hwv] at hw
      exact h.rises w p hw

end Forest
