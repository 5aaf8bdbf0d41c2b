import Mathlib.Data.List.Basic
import Mathlib.Data.Nat.ModEq

/-
  Ring buffers: a list of cells of fixed length, a place where
  the content starts, and a content that may wrap around.
-/

namespace RingBuffer

variable {α : Type*}

/-
  The cells hold the content in its order from `head` on. A
  cell outside of the content may hold anything, or nothing.
-/
structure Buffered (cells : List (Option α)) (head : Nat) (content : List α) : Prop where
  head_lt : head < cells.length
  fits : content.length ≤ cells.length
  cell : ∀ i x, content[i]? = some x → cells[(head + i) % cells.length]? = some (some x)

/- The place after `head`, back at the first after the last. -/
theorem place_succ {head length : Nat} (hHead : head < length) :
    (if head + 1 = length then 0 else head + 1) = (head + 1) % length := by
  by_cases hEnd : head + 1 = length
  · rw [if_pos hEnd, hEnd, Nat.mod_self]
  · rw [if_neg hEnd, Nat.mod_eq_of_lt (by omega)]

theorem place_of_sum {head i length : Nat} (hHead : head < length) (hi : i < length) :
    (if head + i ≥ length then head + i - length
      else head + i) = (head + i) % length := by
  by_cases hWrap : head + i ≥ length
  · rw [if_pos hWrap, Nat.mod_eq_sub_mod hWrap, Nat.mod_eq_of_lt (by omega)]
  · rw [if_neg hWrap, Nat.mod_eq_of_lt (by omega)]

theorem place_inj {head i j length : Nat} (hi : i < length) (hj : j < length)
    (h : (head + i) % length = (head + j) % length) : i = j := by
  have hMod : i ≡ j [MOD length] := Nat.ModEq.add_left_cancel' head h
  exact Nat.ModEq.eq_of_lt_of_lt hMod hi hj

namespace Buffered

variable {cells : List (Option α)} {head : Nat}
  {content : List α}

theorem place_lt (h : Buffered cells head content) (i : Nat) :
    (head + i) % cells.length < cells.length :=
  Nat.mod_lt _ (Nat.lt_of_le_of_lt (Nat.zero_le _) h.head_lt)

/- A new element goes to the place behind the last one. -/
theorem push (h : Buffered cells head content) (hRoom : content.length < cells.length) (x : α) :
    Buffered
      (cells.set ((head + content.length) % cells.length) (some x))
      head (content ++ [x]) := by
  refine ⟨?_, ?_, ?_⟩
  · rw [List.length_set]
    exact h.head_lt
  · rw [List.length_set, List.length_append]
    exact hRoom
  · intro i y hy
    rw [List.length_set]
    rcases Nat.lt_or_ge i content.length with hi | hi
    · rw [List.getElem?_append_left hi] at hy
      rw [List.getElem?_set_ne]
      · exact h.cell i y hy
      · intro hEq
        have hSame := place_inj hRoom (by omega) hEq
        omega
    · rw [List.getElem?_append_right hi] at hy
      have hLast : i = content.length := by grind
      rw [hLast, Nat.sub_self] at hy
      have hxy : x = y := Option.some.inj hy
      rw [hLast, List.getElem?_set_self (h.place_lt _), hxy]

/- The first element leaves from the start. -/
theorem popFront {x : α} {rest : List α} (h : Buffered cells head (x :: rest)) :
    cells[head]? = some (some x) ∧
      Buffered cells ((head + 1) % cells.length) rest := by
  refine ⟨?_, h.place_lt 1, ?_, ?_⟩
  · have hCell := h.cell 0 x rfl
    rwa [Nat.add_zero, Nat.mod_eq_of_lt h.head_lt] at hCell
  · have hFits := h.fits
    rw [List.length_cons] at hFits
    omega
  · intro i y hy
    have hCell := h.cell (i + 1) y hy
    rw [Nat.mod_add_mod, Nat.add_assoc, Nat.add_comm 1 i]
    exact hCell

/- The last element leaves from behind. -/
theorem popBack {x : α} {rest : List α} (h : Buffered cells head (rest ++ [x])) :
    cells[(head + rest.length) % cells.length]? = some (some x) ∧
      Buffered cells head rest := by
  refine ⟨?_, h.head_lt, ?_, ?_⟩
  · apply h.cell
    rw [List.getElem?_append_right (Nat.le_refl _), Nat.sub_self]
    rfl
  · have hFits := h.fits
    rw [List.length_append] at hFits
    omega
  · intro i y hy
    apply h.cell
    grind

theorem empty {length : Nat} (hLength : 0 < length) :
    Buffered (List.replicate length (none : Option α)) 0 [] := by
  refine ⟨?_, Nat.zero_le _, ?_⟩
  · rw [List.length_replicate]
    exact hLength
  · intro i x hx
    cases hx

end Buffered

end RingBuffer
