import Mathlib.Data.List.Rotate
import EpicSim.Lib.CircularList

/-
  Joining the classes of an equivalence relation, and the
  circular lists that such classes are kept in.
-/

----
-- Joining Classes
----

namespace Joining

variable {α : Type*}

/-
  Joining everything that has the property to one element,
  when what has it is one class already.
-/
theorem eqvGen_join {R : α → α → Prop} {P : α → Prop} {t r : α}
    (hR : Equivalence R) (hClass : ∀ a, P a → R a t) (ht : P t) (a b : α) :
    Relation.EqvGen (fun a b => R a b ∨ (P a ∧ b = r)) a b ↔
      R a b ∨ (R a t ∧ R r b) ∨ (R a r ∧ R t b) := by
  constructor
  · intro h
    induction h with
    | rel a b h =>
      rcases h with h | ⟨ha, rfl⟩
      · exact Or.inl h
      · exact Or.inr (Or.inl ⟨hClass a ha, hR.refl _⟩)
    | refl a => exact Or.inl (hR.refl a)
    | symm a b _ ih =>
      rcases ih with h | ⟨h, h'⟩ | ⟨h, h'⟩
      · exact Or.inl (hR.symm h)
      · exact Or.inr (Or.inr ⟨hR.symm h', hR.symm h⟩)
      · exact Or.inr (Or.inl ⟨hR.symm h', hR.symm h⟩)
    | trans a b c _ _ ihab ihbc =>
      rcases ihab with h | ⟨h, h'⟩ | ⟨h, h'⟩
      · rcases ihbc with k | ⟨k, k'⟩ | ⟨k, k'⟩
        · exact Or.inl (hR.trans h k)
        · exact Or.inr (Or.inl ⟨hR.trans h k, k'⟩)
        · exact Or.inr (Or.inr ⟨hR.trans h k, k'⟩)
      · rcases ihbc with k | ⟨k, k'⟩ | ⟨k, k'⟩
        · exact Or.inr (Or.inl ⟨h, hR.trans h' k⟩)
        · exact Or.inr (Or.inl ⟨h, k'⟩)
        · exact Or.inl (hR.trans h k')
      · rcases ihbc with k | ⟨k, k'⟩ | ⟨k, k'⟩
        · exact Or.inr (Or.inr ⟨h, hR.trans h' k⟩)
        · exact Or.inl (hR.trans h k')
        · exact Or.inr (Or.inr ⟨h, k'⟩)
  · have hStep : Relation.EqvGen (fun a b => R a b ∨ (P a ∧ b = r)) t r :=
      Relation.EqvGen.rel _ _ (Or.inr ⟨ht, rfl⟩)
    have hOld : ∀ a b, R a b → Relation.EqvGen (fun a b => R a b ∨ (P a ∧ b = r)) a b :=
      fun a b h => Relation.EqvGen.rel _ _ (Or.inl h)
    rintro (h | ⟨h, h'⟩ | ⟨h, h'⟩)
    · exact hOld a b h
    · exact ((hOld a t h).trans _ _ _ hStep).trans _ _ _ (hOld r b h')
    · exact ((hOld a r h).trans _ _ _ (hStep.symm _ _)).trans _ _ _ (hOld t b h')

/- Joining nothing to an element changes nothing. -/
theorem eqvGen_nothing {R : α → α → Prop} {P : α → Prop} {r : α} (hR : Equivalence R)
    (hNone : ∀ a, ¬P a) (a b : α) :
    Relation.EqvGen (fun a b => R a b ∨ (P a ∧ b = r)) a b ↔
      R a b := by
  constructor
  · intro h
    induction h with
    | rel a b h => exact h.resolve_right fun h => hNone a h.1
    | refl a => exact hR.refl a
    | symm a b _ ih => exact hR.symm ih
    | trans a b c _ _ ihab ihbc => exact hR.trans ihab ihbc
  · exact fun h => Relation.EqvGen.rel _ _ (Or.inl h)

end Joining

----
-- Turns Around A Ring
----

namespace CircularList

variable {α : Type*}

theorem ring_from_rotated {next : α → α} {l : List α} (h : Ring next l) {x : α} (hx : x ∈ l) :
    ∃ rest, (x :: rest).IsRotated l ∧ Ring next (x :: rest) := by
  rcases List.append_of_mem hx with ⟨left, right, rfl⟩
  refine ⟨right ++ left, ?_, ?_⟩
  · rw [← List.cons_append]
    exact List.isRotated_append
  · exact ring_rotate h

theorem segment_unique {next : α → α} {a b : α} {l m : List α}
    (hL : Segment next a l b) (hM : Segment next a m b) (hbL : b ∉ l) (hbM : b ∉ m) : l = m := by
  induction l generalizing a m with
  | nil =>
    cases m with
    | nil => rfl
    | cons y m =>
      have hb : a = b := hL
      rw [hb] at hM
      rw [hM.1] at hbM
      exact absurd List.mem_cons_self hbM
  | cons x l ih =>
    rcases hL with ⟨rfl, hL⟩
    cases m with
    | nil =>
      have hb : a = b := hM
      rw [hb] at hbL
      exact absurd List.mem_cons_self hbL
    | cons y m =>
      rcases hM with ⟨rfl, hM⟩
      rw [List.mem_cons, not_or] at hbL hbM
      rw [ih hL hM hbL.2 hbM.2]

/- Two rings with a common element are one ring. -/
theorem ring_unique {next : α → α} {l m : List α} {x : α} (hL : Ring next l)
    (hM : Ring next m) (hxL : x ∈ l) (hxM : x ∈ m) : l.IsRotated m := by
  rcases ring_from_rotated hL hxL with ⟨rest, hRot, hRing⟩
  rcases ring_from_rotated hM hxM with ⟨rest', hRot', hRing'⟩
  have hEq : rest = rest' :=
    segment_unique hRing.2 hRing'.2 (List.nodup_cons.mp hRing.1).1 (List.nodup_cons.mp hRing'.1).1
  rw [hEq] at hRot
  exact hRot.symm.trans hRot'

end CircularList
