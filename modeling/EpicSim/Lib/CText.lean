import Mathlib.Algebra.Group.Int.Defs
import Mathlib.Algebra.GroupWithZero.Nat
import Mathlib.Algebra.NeZero
import Mathlib.Data.List.Lex
import Mathlib.Data.List.TakeWhile
import Mathlib.Order.Fin.Basic

/-
  Texts of C: bytes before the first zero.

  Bytes, and two smaller types of that kind, have one instance
  for a size: a literal reads the same in every module.
-/

instance neZero_port : NeZero 4 := ⟨by decide⟩

instance neZero_strength : NeZero 8 := ⟨by decide⟩

instance neZero_byte : NeZero 256 := ⟨by decide⟩

/- The end of a text in a buffer of characters. -/
def nul : Char := Char.ofNat 0

/- The text that a buffer holds. -/
def textOf (buf : List Char) : List Char :=
  buf.takeWhile fun ch => ch != nul

/- The bytes of a text. -/
abbrev CText := { s : List (Fin 256) // 0 ∉ s }

namespace CText

/- The text that starts at some bytes. -/
def ofBytes (bytes : List (Fin 256)) : CText :=
  ⟨bytes.takeWhile (· ≠ 0), fun hMem => by
    simpa using List.mem_takeWhile_imp hMem⟩

theorem ofBytes_text (s : CText) : ofBytes s.1 = s := by
  apply Subtype.ext
  rw [ofBytes, List.takeWhile_eq_self_iff]
  exact fun c hMem => decide_eq_true (ne_of_mem_of_not_mem hMem s.2)

end CText

/- The difference of the first bytes that differ, where a text
   ends with a zero. -/
def strcmp : List (Fin 256) → List (Fin 256) → Int
| [], [] => 0
| [], d :: _ => 0 - d.val
| c :: _, [] => c.val
| c :: s, d :: t => if c = d then strcmp s t else c.val - d.val

theorem strcmp_self : ∀ s : List (Fin 256), strcmp s s = 0
| [] => rfl
| c :: s => by
    rw [strcmp, if_pos rfl]
    exact strcmp_self s

theorem val_pos_of_text {c : Fin 256} {s : List (Fin 256)} (h : 0 ∉ c :: s) : 0 < c.val := by
  apply Nat.pos_of_ne_zero
  intro hZero
  apply h
  rw [show c = 0 from Fin.ext hZero]
  exact List.mem_cons_self

theorem strcmp_eq_zero_iff {s t : List (Fin 256)} (hS : 0 ∉ s) (hT : 0 ∉ t) :
    strcmp s t = 0 ↔ s = t := by
  constructor
  · intro h
    induction s generalizing t with
    | nil =>
      cases t with
      | nil => rfl
      | cons d t =>
        have hD := val_pos_of_text hT
        rw [strcmp] at h
        omega
    | cons c s ih =>
      cases t with
      | nil =>
        have hC := val_pos_of_text hS
        rw [strcmp] at h
        omega
      | cons d t =>
        rw [strcmp] at h
        grind
  · intro h
    rw [h]
    exact strcmp_self t

/- It is negative where the first text comes before the second
   one in the dictionary. -/
theorem strcmp_neg_iff {s t : List (Fin 256)} (hS : 0 ∉ s) (hT : 0 ∉ t) :
    strcmp s t < 0 ↔ s < t := by
  induction s generalizing t with
  | nil =>
    cases t with
    | nil => simp [strcmp]
    | cons d t =>
      have hD := val_pos_of_text hT
      rw [strcmp]
      constructor
      · exact fun _ => List.nil_lt_cons d t
      · intro _
        omega
  | cons c s ih =>
    cases t with
    | nil =>
      rw [strcmp]
      simp
    | cons d t =>
      rw [strcmp, List.cons_lt_cons_iff]
      by_cases hSame : c = d
      · grind
      · omega

/- What a search by `strcmp` decides. -/
theorem strcmp_text_eq_zero_iff (s t : CText) : strcmp s t = 0 ↔ s = t := by
  rw [strcmp_eq_zero_iff s.2 t.2, Subtype.ext_iff]

theorem strcmp_text_neg_iff (s t : CText) : strcmp s t < 0 ↔ s < t := by
  rw [strcmp_neg_iff s.2 t.2, Subtype.coe_lt_coe]
