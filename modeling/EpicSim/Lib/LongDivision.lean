import Mathlib.Data.Nat.Log
import Mathlib.Tactic.Ring

/-
  Long division in base `2 ^ w` with guessed digits.

  At each place the digit is guessed from the two top words of
  what is left and the top word of the divisor.  The product of
  the guess is taken modulo `m`, and a guess that proves too
  large is counted down until the rest is not negative.
-/

namespace LongDivision

----
-- One Place
----

/- What becomes of the guess `g` for `x` divided by `b`. -/
inductive Trial (m x b g : Nat) : Nat → Nat → Prop where
| kept
    (hLow : b * g % m ≤ x) :
    Trial m x b g g (x - b * g % m)
| counted
    {k rest : Nat} (hHigh : x < b * g % m) (hBack : rest + b * g % m = x + k * b)
    (hRest : rest < b) :
    Trial m x b g (g - k) rest

/- The guess is not too small, and its product is not cut. -/
def Fits (m x b g : Nat) : Prop :=
  x / b ≤ g ∧ b * g < m

instance (m x b g : Nat) : Decidable (Fits m x b g) :=
  inferInstanceAs (Decidable (_ ∧ _))

variable {m x b g digit rest : Nat}

/- The counting back never passes zero. -/
theorem count_le {k : Nat} (hBack : rest + b * g % m = x + k * b) (hRest : rest < b) : k ≤ g := by
  have hCut := Nat.mod_le (b * g) m
  have hLess : k * b < (g + 1) * b := by
    rw [Nat.add_mul, Nat.mul_comm g]
    omega
  exact Nat.lt_succ_iff.mp (Nat.lt_of_mul_lt_mul_right hLess)

/- A guess that fits gives quotient and remainder. -/
theorem Trial.of_fits (hPos : 0 < b) (h : Trial m x b g digit rest) (hFits : Fits m x b g) :
    digit = x / b ∧ rest = x % b := by
  rcases hFits with ⟨hLeast, hUncut⟩
  have hMod := Nat.mod_eq_of_lt hUncut
  have hUnique :
      ∀ q r, r < b → r + b * q = x → q = x / b ∧ r = x % b := by
    intro q r hR hSum
    rw [← hSum, Nat.add_mul_div_left _ _ hPos, Nat.add_mul_mod_self_left,
      Nat.div_eq_of_lt hR, Nat.mod_eq_of_lt hR, Nat.zero_add]
    exact ⟨rfl, rfl⟩
  cases h with
  | kept hLow =>
    rw [hMod] at hLow ⊢
    have hMost : g ≤ x / b := by
      rw [Nat.le_div_iff_mul_le hPos, Nat.mul_comm]
      exact hLow
    have hSame : g = x / b := Nat.le_antisymm hMost hLeast
    have hSum := Nat.div_add_mod x b
    rw [← hSame] at hSum
    exact ⟨hSame, by omega⟩
  | @counted k _ hHigh hBack hRest =>
    have hCount := count_le hBack hRest
    apply hUnique _ _ hRest
    have hSplit : b * g = b * (g - k) + k * b := by
      rw [Nat.mul_comm k, ← Nat.mul_add, Nat.sub_add_cancel hCount]
    omega

/- Only a guess that fits gives the right digit. -/
theorem Trial.digit_iff (hPos : 0 < b) (hX : x < m) (hB : b < m) (h : Trial m x b g digit rest) :
    digit = x / b ↔ Fits m x b g := by
  constructor
  · intro hDigit
    by_contra hNot
    have hSum := Nat.div_add_mod x b
    have hCut := Nat.div_add_mod (b * g) m
    cases h with
    | kept hLow =>
      rw [← hDigit] at hSum
      exact hNot ⟨hDigit.ge, by omega⟩
    | @counted k _ hHigh hBack hRest =>
      have hCount := count_le hBack hRest
      have hSplit : b * g = b * (g - k) + k * b := by
        rw [Nat.mul_comm k, ← Nat.mul_add, Nat.sub_add_cancel hCount]
      rw [hDigit] at hSplit
      have hWhole : b * g / m ≠ 0 := by
        intro hZero
        apply hNot
        rw [Nat.div_eq_zero_iff_lt (by omega)] at hZero
        exact ⟨by omega, hZero⟩
      -- the cut part would have to be below the divisor
      have hPart : m ≤ m * (b * g / m) := Nat.le_mul_of_pos_right m (Nat.pos_of_ne_zero hWhole)
      omega
  · intro hFits
    exact (h.of_fits hPos hFits).1

----
-- All Places
----

/- What is left when the places from `p` on are divided. -/
def left (w a b p : Nat) : Nat :=
  a % (b * 2 ^ (w * p))

/- What is divided at the place `p`. -/
def window (w a b p : Nat) : Nat :=
  left w a b (p + 1) / 2 ^ (w * p)

/- The top two words above `t`, by the top word of `b`. -/
def guess (w t x b : Nat) : Nat :=
  x / 2 ^ (w * t) % 2 ^ (w * 2) / (b / 2 ^ (w * t)) % 2 ^ w

/- The place of the top word of a divisor. -/
def topPlace (w b : Nat) : Nat :=
  Nat.log (2 ^ w) b

/- In `n` words, the guess fits at every place. -/
def Guessed (w n a b : Nat) : Prop :=
  ∀ p < n - topPlace w b,
    Fits (2 ^ (w * (n - p))) (window w a b p) b (guess w (topPlace w b) (window w a b p) b)

instance (w n a b : Nat) : Decidable (Guessed w n a b) :=
  inferInstanceAs (Decidable (∀ p < _, Fits _ _ _ _))

theorem topPlace_bounds {w b : Nat} (hw : 0 < w) (hPos : 0 < b) :
    2 ^ (w * topPlace w b) ≤ b ∧
      b < 2 ^ (w * (topPlace w b + 1)) := by
  have hBase : 1 < 2 ^ w := Nat.one_lt_two_pow (by omega)
  rw [pow_mul, pow_mul]
  exact ⟨Nat.pow_log_le_self _ (by omega), Nat.lt_pow_succ_log_self hBase b⟩

theorem topPlace_eq {w b t : Nat} (hLow : 2 ^ (w * t) ≤ b) (hHigh : b < 2 ^ (w * (t + 1))) :
    topPlace w b = t := by
  rw [pow_mul] at hLow hHigh
  exact Nat.log_eq_of_pow_le_of_lt_pow hLow hHigh

theorem two_pow_succ (w p : Nat) : 2 ^ (w * (p + 1)) = 2 ^ (w * p) * 2 ^ w := by
  rw [Nat.mul_succ, pow_add]

/- A place divides by the digit of the quotient there. -/
theorem window_div (w a b p : Nat) : window w a b p / b = a / b / 2 ^ (w * p) % 2 ^ w := by
  unfold window left
  rw [two_pow_succ, ← Nat.mul_assoc, Nat.div_div_eq_div_mul, Nat.mul_comm (2 ^ (w * p)),
    Nat.mod_mul_right_div_self, Nat.div_div_eq_div_mul]

/- The remainder at a place is what the next one starts from. -/
theorem left_step (w a b p : Nat) :
    left w a b (p + 1) % 2 ^ (w * p) + 2 ^ (w * p) * (window w a b p % b) =
      left w a b p := by
  rw [window, ← Nat.mod_mul, left, two_pow_succ, left,
    ← Nat.mul_assoc, Nat.mul_comm b, Nat.mod_mul_right_mod]

/- At the first place everything is left. -/
theorem left_start {w n a b : Nat} (hw : 0 < w) (hPos : 0 < b) (hTop : topPlace w b < n)
    (hA : a < 2 ^ (w * n)) : left w a b (n - topPlace w b) = a := by
  apply Nat.mod_eq_of_lt
  have hBelow := (topPlace_bounds hw hPos).1
  calc
    a < 2 ^ (w * n) := hA
    _ = 2 ^ (w * topPlace w b) * 2 ^ (w * (n - topPlace w b)) := by
        rw [← pow_add, ← Nat.mul_add, Nat.add_sub_cancel' (Nat.le_of_lt hTop)]
    _ ≤ b * 2 ^ (w * (n - topPlace w b)) := Nat.mul_le_mul_right _ hBelow

theorem left_end (w a b : Nat) : left w a b 0 = a % b := by
  rw [left, Nat.mul_zero, pow_zero, Nat.mul_one]

/- The quotient has no digits from the first place on. -/
theorem digit_above {w n a b p : Nat} (hw : 0 < w) (hPos : 0 < b)
    (hTop : topPlace w b < n) (hA : a < 2 ^ (w * n)) (hP : n - topPlace w b ≤ p) :
    a / b / 2 ^ (w * p) % 2 ^ w = 0 := by
  have hBelow := (topPlace_bounds hw hPos).1
  have hZero : a / b / 2 ^ (w * p) = 0 := by
    rw [Nat.div_div_eq_div_mul]
    apply Nat.div_eq_of_lt
    calc
      a < 2 ^ (w * n) := hA
      _ ≤ 2 ^ (w * topPlace w b + w * p) := by
          apply Nat.pow_le_pow_right (by decide)
          rw [← Nat.mul_add]
          exact Nat.mul_le_mul_left w (by omega)
      _ = 2 ^ (w * topPlace w b) * 2 ^ (w * p) := pow_add _ _ _
      _ ≤ b * 2 ^ (w * p) := Nat.mul_le_mul_right _ hBelow
  rw [hZero, Nat.zero_mod]

/- With a divisor of one word the guess is the digit. -/
theorem guessed_of_small {w n a b : Nat} (hPos : 0 < b) (hSmall : b < 2 ^ w)
    (hA : a < 2 ^ (w * n)) : Guessed w n a b := by
  have hTop : topPlace w b = 0 := by
    apply topPlace_eq
    · exact hPos
    · rw [Nat.mul_one]
      exact hSmall
  intro p hP
  rw [hTop, Nat.sub_zero] at hP
  rw [hTop]
  have hWindow : window w a b p < b * 2 ^ w := by
    unfold window left
    rw [Nat.div_lt_iff_lt_mul (Nat.two_pow_pos _),
      two_pow_succ, Nat.mul_comm (2 ^ (w * p)), ← Nat.mul_assoc]
    apply Nat.mod_lt
    exact Nat.mul_pos (Nat.mul_pos hPos (Nat.two_pow_pos w)) (Nat.two_pow_pos _)
  have hTwo : window w a b p < 2 ^ (w * 2) := by
    rw [Nat.mul_succ, pow_add, Nat.mul_one]
    exact Nat.lt_trans hWindow (Nat.mul_lt_mul_of_pos_right hSmall (Nat.two_pow_pos w))
  have hDigit : window w a b p / b < 2 ^ w := by
    rw [Nat.div_lt_iff_lt_mul hPos, Nat.mul_comm]
    exact hWindow
  have hGuess :
      guess w 0 (window w a b p) b = window w a b p / b := by
    rw [guess, Nat.mul_zero, pow_zero, Nat.div_one, Nat.div_one,
      Nat.mod_eq_of_lt hTwo, Nat.mod_eq_of_lt hDigit]
  rw [hGuess]
  constructor
  · exact Nat.le_refl _
  · have hAll : window w a b p ≤ a / 2 ^ (w * p) :=
      Nat.div_le_div_right (Nat.mod_le _ _)
    have hRoom : a / 2 ^ (w * p) < 2 ^ (w * (n - p)) := by
      rw [Nat.div_lt_iff_lt_mul (Nat.two_pow_pos _), ← pow_add,
        ← Nat.mul_add, Nat.sub_add_cancel (Nat.le_of_lt hP)]
      exact hA
    have hBack := Nat.mul_div_le (window w a b p) b
    omega

end LongDivision
