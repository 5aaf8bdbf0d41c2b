import Mathlib.Data.List.Perm.Subperm

/-
  Matching the elements of two lists one to one by a relation,
  in any order.
-/

namespace EpicSim

namespace Matching

variable {α β : Type}

/- The first list matches some order of the second one. -/
def Matched (R : α → β → Prop) (l : List α) (m : List β) : Prop :=
  ∃ m', m'.Perm m ∧ List.Forall₂ R l m'

variable {R : α → β → Prop} {l : List α} {m : List β}

/- Each element of either list has one in the other. -/
theorem Matched.left (h : Matched R l m) {a : α} (ha : a ∈ l) : ∃ b ∈ m, R a b := by
  rcases h with ⟨m', hPerm, hAll⟩
  induction hAll generalizing m with
  | nil => cases ha
  | @cons x y l m' hxy _ ih =>
    rcases List.mem_cons.mp ha with rfl | hMem
    · exact ⟨y, hPerm.mem_iff.mp List.mem_cons_self, hxy⟩
    · rcases ih hMem (List.Perm.refl m') with ⟨b, hb, hab⟩
      exact ⟨b, hPerm.mem_iff.mp (List.mem_cons_of_mem _ hb), hab⟩

theorem Matched.right (h : Matched R l m) {b : β} (hb : b ∈ m) : ∃ a ∈ l, R a b := by
  rcases h with ⟨m', hPerm, hAll⟩
  rw [← hPerm.mem_iff] at hb
  clear hPerm
  induction hAll with
  | nil => cases hb
  | @cons x y l m' hxy _ ih => grind

theorem Matched.length_eq (h : Matched R l m) : l.length = m.length := by
  rcases h with ⟨m', hPerm, hAll⟩
  rw [hAll.length_eq, hPerm.length_eq]

/- Related elements that differ, one for each element. -/
theorem exists_related (hNodup : l.Nodup) (hOnce : ∀ a ∈ l, ∀ b ∈ l, ∀ c, R a c → R b c → a = b)
    (hEach : ∀ a ∈ l, ∃ b ∈ m, R a b) : ∃ m', List.Forall₂ R l m' ∧ m'.Nodup ∧ m' ⊆ m := by
  induction l with
  | nil => exact ⟨[], List.Forall₂.nil, List.nodup_nil, List.nil_subset m⟩
  | cons a l ih =>
    rw [List.nodup_cons] at hNodup
    rcases ih hNodup.2
        (fun x hx y hy => hOnce x (List.mem_cons_of_mem _ hx) y (List.mem_cons_of_mem _ hy))
        (fun x hx => hEach x (List.mem_cons_of_mem _ hx)) with
      ⟨m', hAll, hNodup', hSub⟩
    rcases hEach a List.mem_cons_self with ⟨b, hb, hab⟩
    have hNew : b ∉ m' := by
      intro hMem
      rcases Matched.right ⟨m', List.Perm.refl m', hAll⟩ hMem with ⟨x, hx, hxb⟩
      grind
    refine ⟨b :: m', List.Forall₂.cons hab hAll, List.nodup_cons.mpr ⟨hNew, hNodup'⟩, ?_⟩
    grind

/-
  When no two elements of the first list are related to the
  same one, a related element for each and equal lengths
  make a matching.
-/
theorem matched_iff (hNodup : l.Nodup) (hOnce : ∀ a ∈ l, ∀ b ∈ l, ∀ c, R a c → R b c → a = b) :
    Matched R l m ↔
      (∀ a ∈ l, ∃ b ∈ m, R a b) ∧ m.length = l.length := by
  constructor
  · intro h
    exact ⟨fun a ha => h.left ha, h.length_eq.symm⟩
  · rintro ⟨hEach, hLength⟩
    rcases exists_related hNodup hOnce hEach with ⟨m', hAll, hNodup', hSub⟩
    refine ⟨m', ?_, hAll⟩
    apply (hNodup'.subperm hSub).perm_of_length_le
    exact Nat.le_of_eq (hLength.trans hAll.length_eq)

/- What is related alike holds of some in both lists. -/
theorem Matched.exists_congr {P : α → Prop} {Q : β → Prop} (h : Matched R l m)
    (hSame : ∀ a b, R a b → (P a ↔ Q b)) : (∃ a ∈ l, P a) ↔ ∃ b ∈ m, Q b := by
  constructor
  · rintro ⟨a, ha, hP⟩
    rcases h.left ha with ⟨b, hb, hab⟩
    exact ⟨b, hb, (hSame a b hab).mp hP⟩
  · rintro ⟨b, hb, hQ⟩
    rcases h.right hb with ⟨a, ha, hab⟩
    exact ⟨a, ha, (hSame a b hab).mpr hQ⟩

end Matching

end EpicSim
