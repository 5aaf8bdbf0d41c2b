import Mathlib.Data.List.Count

/-
  A clock with pending wake-ups.

  A wake-up is requested some delay ahead.  It is delivered
  when the clock shows its time, and the clock does not pass
  it before.
-/

/- The time, and the times of the pending wake-ups. -/
structure WakeClock where
  now : Nat
  wakeups : List Nat
deriving DecidableEq, Repr

namespace WakeClock

/- A clock at time zero. -/
def start : WakeClock := ⟨0, []⟩

/- Ask for a wake-up. -/
def request (c : WakeClock) (delay : Nat) : WakeClock :=
  { c with wakeups := (c.now + delay) :: c.wakeups }

/- A wake-up that is due is taken. -/
def deliver (c : WakeClock) : WakeClock :=
  { c with wakeups := c.wakeups.erase c.now }

/- Time goes on. -/
def advance (c : WakeClock) (t : Nat) : WakeClock :=
  { c with now := t }

/- Some wake-up is due. -/
def CanDeliver (c : WakeClock) : Prop := c.now ∈ c.wakeups

/- No wake-up is passed. -/
def CanAdvance (c : WakeClock) (t : Nat) : Prop :=
  c.now < t ∧ ∀ p, p ∈ c.wakeups → t ≤ p

instance (c : WakeClock) : Decidable c.CanDeliver :=
  inferInstanceAs (Decidable (_ ∈ _))

instance (c : WakeClock) (t : Nat) : Decidable (c.CanAdvance t) :=
  inferInstanceAs (Decidable (_ ∧ _))

/- Nothing pending is in the past. -/
def Ahead (c : WakeClock) : Prop :=
  ∀ p, p ∈ c.wakeups → c.now ≤ p

theorem ahead_start : start.Ahead := by
  intro p hp
  cases hp

theorem Ahead.request {c : WakeClock} (h : c.Ahead) (delay : Nat) : (c.request delay).Ahead := by
  intro p hp
  rcases List.mem_cons.mp hp with rfl | hp
  · exact Nat.le_add_right _ _
  · exact h p hp

theorem Ahead.deliver {c : WakeClock} (h : c.Ahead) : c.deliver.Ahead := by
  intro p hp
  exact h p (List.mem_of_mem_erase hp)

theorem ahead_advance {c : WakeClock} {t : Nat} (h : c.CanAdvance t) : (c.advance t).Ahead := h.2

/- How many wake-ups are left for each time. -/
theorem count_request (c : WakeClock) (delay t : Nat) :
    (c.request delay).wakeups.count t = c.wakeups.count t + if c.now + delay = t then 1 else 0 := by
  rw [request, List.count_cons]
  simp only [beq_iff_eq]

theorem count_deliver (c : WakeClock) (t : Nat) :
    c.deliver.wakeups.count t = c.wakeups.count t - if c.now = t then 1 else 0 := by
  rw [deliver, List.count_erase]
  simp only [beq_iff_eq]

end WakeClock
