import Mathlib.Data.List.Basic
import Mathlib.Data.List.Induction
import Mathlib.Data.Nat.Digits.Defs

/-
  Cascades of cells with four inputs, of which each cell
  combines only the first `keep`.

  A level maps a sequence to the sequence of its cells.
  After any number of levels the first cell is the fold over
  the positions whose base-4 digits are all below `keep`.
-/

namespace QuaternaryCascade

variable {α : Type*}

/- The cell over positions `4 * k` to `4 * k + 3`. -/
def cell (op : α → α → α) (e : α) (keep : Nat) (v : Nat → α) (k : Nat) : α :=
  ((List.range keep).map (fun j => v (4 * k + j))).foldl op e

/- The sequence after a number of levels. -/
def cascade (op : α → α → α) (e : α) (keep : Nat) : Nat → (Nat → α) → Nat → α
| 0, v => v
| levels + 1, v => cascade op e keep levels (cell op e keep v)

/- The positions that reach the first cell, in order. -/
def kept (keep : Nat) : Nat → List Nat
| 0 => [0]
| levels + 1 => (kept keep levels).flatMap (fun k => (List.range keep).map (fun j => 4 * k + j))

/-
  Laws of an associative operation whose unit need not be
  neutral on values that are not results.
-/
structure FoldLaws (op : α → α → α) (e : α) : Prop where
  assoc : ∀ a b c, op (op a b) c = op a (op b c)
  unit : op e e = e
  absorb : ∀ a b, op (op a b) e = op a b

variable {op : α → α → α} {e : α}

section

variable (h : FoldLaws op e)

include h

theorem foldl_normal (l : List α) {a : α} (ha : op a e = a) :
    op (l.foldl op a) e = l.foldl op a := by
  induction l generalizing a with
  | nil => exact ha
  | cons b l ih => exact ih (h.absorb a b)

/- A fold may be cut at any result. -/
theorem foldl_cut (l : List α) {a : α} (ha : op a e = a) :
    l.foldl op a = op a (l.foldl op e) := by
  induction l using List.reverseRecOn with
  | nil => exact ha.symm
  | append_singleton l b ih =>
    rw [List.foldl_append, List.foldl_append, ih]
    exact h.assoc _ _ _

theorem foldl_append (left right : List α) :
    (left ++ right).foldl op e = op (left.foldl op e) (right.foldl op e) := by
  rw [List.foldl_append]
  exact foldl_cut h right (foldl_normal h left h.unit)

/- Trailing units change nothing. -/
theorem foldl_replicate_unit (l : List α) (n : Nat) :
    (List.replicate n e).foldl op (l.foldl op e) = l.foldl op e := by
  induction n with
  | zero => rfl
  | succ n ih => rw [List.replicate_succ, List.foldl_cons, foldl_normal h l h.unit, ih]

/- Folding groups first changes nothing. -/
theorem foldl_groups {ι : Type*} (group : ι → List α) (l : List ι) :
    (l.map (fun k => (group k).foldl op e)).foldl op e = (l.flatMap group).foldl op e := by
  induction l using List.reverseRecOn with
  | nil => rfl
  | append_singleton l k ih =>
    rw [List.map_append, List.foldl_append, ih, List.flatMap_append, foldl_append h]
    simp

/- The first cell after some levels folds the kept positions. -/
theorem cascade_eq (keep levels : Nat) (v : Nat → α) :
    cascade op e keep (levels + 1) v 0 = ((kept keep (levels + 1)).map v).foldl op e := by
  induction levels generalizing v with
  | zero => simp [cascade, cell, kept]
  | succ levels ih =>
    have hStep :
        cascade op e keep (levels + 2) v 0 =
          cascade op e keep (levels + 1) (cell op e keep v) 0 := rfl
    have hGroups := foldl_groups h
      (fun k => (List.range keep).map (fun j => v (4 * k + j)))
      (kept keep (levels + 1))
    rw [hStep, ih]
    change ((kept keep (levels + 1)).map (fun k =>
      ((List.range keep).map (fun j => v (4 * k + j))).foldl op e)).foldl op e =
      _
    rw [hGroups]
    congr 1
    conv_rhs => rw [kept]
    rw [List.map_flatMap]
    simp only [List.map_map, Function.comp_def]

end

/- The kept positions by their base-4 digits. -/
theorem mem_kept {keep : Nat} (hPos : 0 < keep) (hFour : keep ≤ 4) (levels i : Nat) :
    i ∈ kept keep levels ↔
      i < 4 ^ levels ∧ ∀ d ∈ Nat.digits 4 i, d < keep := by
  induction levels generalizing i with
  | zero =>
    simp only [kept, List.mem_singleton, Nat.pow_zero, Nat.lt_one_iff]
    constructor
    · rintro rfl
      simp
    · exact fun hi => hi.1
  | succ levels ih =>
    have hDigits :
        (∀ d ∈ Nat.digits 4 i, d < keep) ↔
          i % 4 < keep ∧
            ∀ d ∈ Nat.digits 4 (i / 4), d < keep := by
      rcases Nat.eq_zero_or_pos i with rfl | hi
      · simpa using hPos
      · rw [Nat.digits_def' (by decide) hi]
        simp
    have hPow : i < 4 ^ (levels + 1) ↔ i / 4 < 4 ^ levels := by
      rw [Nat.pow_succ, Nat.div_lt_iff_lt_mul (by decide)]
    rw [hDigits, hPow, kept, List.mem_flatMap]
    constructor
    · grind
    · rintro ⟨hLt, hMod, hDiv⟩
      refine ⟨i / 4, (ih (i / 4)).mpr ⟨hLt, hDiv⟩, ?_⟩
      refine List.mem_map.mpr ⟨i % 4, ?_, by omega⟩
      exact List.mem_range.mpr hMod

/- With four inputs kept every position is. -/
theorem kept_four (levels : Nat) : kept 4 levels = List.range (4 ^ levels) := by
  have hGroups : ∀ n : Nat,
      (List.range n).flatMap (fun k => (List.range 4).map (fun j => 4 * k + j)) =
        List.range (4 * n) := by
    intro n
    induction n with
    | zero => rfl
    | succ n ih =>
      have hMul : 4 * (n + 1) = 4 * n + 4 := by ring
      rw [List.range_succ (n := n), List.flatMap_append, ih, hMul, List.range_add]
      simp
  induction levels with
  | zero => rfl
  | succ levels ih => rw [kept, ih, hGroups, Nat.pow_succ, Nat.mul_comm]

end QuaternaryCascade
