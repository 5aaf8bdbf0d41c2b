import Mathlib.Data.List.Perm.Basic
import Mathlib.Tactic.Ring

/-
  Reduction of a list by a tree that groups four
  neighbours at every level.
-/

----
-- Levels
----

namespace QuaternaryTree

variable {α β : Type*}

/- Fold the first group of at most four entries. -/
def groupFold (op : α → α → α) : List α → Option α
| [] => none
| a :: rest => some ((rest.take 3).foldl op a)

/- One level of the tree: every group of four is folded. -/
def level (op : α → α → α) : List α → List α
| [] => []
| a :: rest => (rest.take 3).foldl op a :: level op (rest.drop 3)
termination_by entries => entries.length
decreasing_by
  simp only [List.length_cons, List.length_drop]
  omega

theorem level_length (op : α → α → α) (entries : List α) :
    (level op entries).length = (entries.length + 3) / 4 := by
  induction entries using level.induct with
  | case1 => simp [level]
  | case2 a rest ih =>
    rw [level, List.length_cons, ih, List.length_drop, List.length_cons]
    omega

/- Entry `j` of a level folds the group starting at `4 * j`. -/
theorem level_getElem? (op : α → α → α) (entries : List α) (j : Nat) :
    (level op entries)[j]? = groupFold op (entries.drop (4 * j)) := by
  induction j generalizing entries with
  | zero =>
    cases entries with
    | nil => simp [level, groupFold]
    | cons a rest => simp [level, groupFold]
  | succ j ih =>
    cases entries with
    | nil => simp [level, groupFold]
    | cons a rest =>
      have hIndex : 4 * (j + 1) = (3 + 4 * j) + 1 := by ring
      rw [level, List.getElem?_cons_succ, ih, hIndex, List.drop_succ_cons, List.drop_drop]

variable {entries : List α}

theorem level_length_lt (op : α → α → α) (h : 1 < entries.length) :
    (level op entries).length < entries.length := by
  rw [level_length]
  omega

/- A change past the first group is not seen by its fold. -/
theorem groupFold_set_of_ge (op : α → α → α) (entries : List α) {p : Nat} (x : α) (h : 4 ≤ p) :
    groupFold op (entries.set p x) = groupFold op entries := by
  cases entries with
  | nil => rfl
  | cons a rest =>
    obtain ⟨k, rfl⟩ : ∃ k, p = k + 1 := ⟨p - 1, by omega⟩
    rw [List.set_cons_succ]
    simp only [groupFold]
    rw [List.take_set_of_le (by omega)]

variable {op : α → α → α} {p : α → Prop}

/- A fold keeps what its operation keeps. -/
theorem foldl_forall (hOp : ∀ a b, p a → p b → p (op a b)) {rest : List α}
    (hRest : ∀ b ∈ rest, p b) {a : α} (hHead : p a) : p (rest.foldl op a) := by
  induction rest generalizing a with
  | nil => exact hHead
  | cons b rest ih =>
    rw [List.forall_mem_cons] at hRest
    exact ih hRest.2 (hOp a b hHead hRest.1)

theorem groupFold_forall (hOp : ∀ a b, p a → p b → p (op a b))
    (hEntries : ∀ a ∈ entries, p a) {out : α} (hOut : groupFold op entries = some out) : p out := by
  cases entries with
  | nil => simp [groupFold] at hOut
  | cons a rest =>
    rw [List.forall_mem_cons] at hEntries
    rw [groupFold, Option.some_inj] at hOut
    rw [← hOut]
    refine foldl_forall hOp ?_ hEntries.1
    intro b hb
    exact hEntries.2 b (List.mem_of_mem_take hb)

theorem level_forall (hOp : ∀ a b, p a → p b → p (op a b))
    (hEntries : ∀ a ∈ entries, p a) : ∀ a ∈ level op entries, p a := by
  intro a ha
  rcases List.mem_iff_getElem?.mp ha with ⟨j, hj⟩
  rw [level_getElem?] at hj
  refine groupFold_forall hOp ?_ hj
  intro b hb
  exact hEntries b (List.mem_of_mem_drop hb)

/- A changed entry changes one entry of the level above. -/
theorem level_set (op : α → α → α) (entries : List α) {p : Nat}
    (hp : p < entries.length) (x out : α)
    (hOut : groupFold op ((entries.set p x).drop (4 * (p / 4))) = some out) :
    level op (entries.set p x) = (level op entries).set (p / 4) out := by
  have hLength := level_length op entries
  apply List.ext_getElem?
  intro j
  rw [level_getElem?]
  by_cases hj : j = p / 4
  · subst hj
    rw [hOut, List.getElem?_set_self (by omega)]
  · rw [List.getElem?_set_ne (Ne.symm hj), level_getElem?]
    rcases Nat.lt_or_ge p (4 * j) with hLow | hHigh
    · rw [List.drop_set_of_lt hLow]
    · rw [List.drop_set, if_neg (by omega)]
      exact groupFold_set_of_ge op _ x (by omega)

/- Reduce level by level until at most one entry is left. -/
def treeFold (op : α → α → α) (entries : List α) : Option α :=
  if 1 < entries.length then
    treeFold op (level op entries)
  else
    entries.head?
termination_by entries.length
decreasing_by
  exact level_length_lt op ‹_›

theorem treeFold_of_one_lt (op : α → α → α) (h : 1 < entries.length) :
    treeFold op entries = treeFold op (level op entries) := by
  rw [treeFold, if_pos h]

@[simp] theorem treeFold_nil (op : α → α → α) : treeFold op [] = none := by
  rw [treeFold]
  simp

@[simp] theorem treeFold_singleton (op : α → α → α) (a : α) : treeFold op [a] = some a := by
  rw [treeFold]
  simp

theorem treeFold_isSome (op : α → α → α) (h : entries ≠ []) :
    (treeFold op entries).isSome := by
  induction entries using treeFold.induct op with
  | case1 entries hLong ih =>
    rw [treeFold_of_one_lt op hLong]
    apply ih
    have hLength := level_length op entries
    grind
  | case2 entries hShort =>
    cases entries with
    | nil => exact absurd rfl h
    | cons a rest => rw [treeFold, if_neg hShort]; rfl

end QuaternaryTree

----
-- Joins Through The Tree
----

namespace QuaternaryTree

variable {α β : Type*}
variable [SemilatticeSup β] [OrderBot β]

/- The join of a list. -/
def joinAll (values : List β) : β :=
  values.foldr (· ⊔ ·) ⊥

@[simp] theorem joinAll_nil : joinAll ([] : List β) = ⊥ := rfl

@[simp] theorem joinAll_cons (x : β) (values : List β) :
    joinAll (x :: values) = x ⊔ joinAll values := rfl

theorem joinAll_append (left right : List β) :
    joinAll (left ++ right) = joinAll left ⊔ joinAll right := by
  induction left with
  | nil => simp
  | cons x left ih => simp [ih, sup_assoc]

theorem joinAll_perm {left right : List β} (h : left.Perm right) :
    joinAll left = joinAll right := by
  induction h with
  | nil => rfl
  | cons x _ ih => simp [ih]
  | swap x y l => simp [sup_left_comm]
  | trans _ _ ih₁ ih₂ => exact ih₁.trans ih₂

variable {op : α → α → α} {R : α → β → Prop}

variable {values : List β} {entries : List α}

section

variable (hOp : ∀ a b x y, R a x → R b y → R (op a b) (x ⊔ y))

include hOp

/- A left fold along a relation that respects joins. -/
theorem foldl_rel {rest : List α}
    (hRest : List.Forall₂ R rest values) {a : α} {x : β} (hHead : R a x) :
    R (rest.foldl op a) (x ⊔ joinAll values) := by
  induction hRest generalizing a x with
  | nil => simpa using hHead
  | cons hStep _ ih =>
    rw [joinAll_cons, ← sup_assoc]
    exact ih (hOp _ _ _ _ hHead hStep)

/- A level relates to joins of the matching groups. -/
theorem level_rel (hEntries : List.Forall₂ R entries values) :
    ∃ grouped,
      List.Forall₂ R (level op entries) grouped ∧
        joinAll grouped = joinAll values := by
  induction entries using level.induct generalizing values with
  | case1 =>
    cases hEntries
    exact ⟨[], by simp [level], rfl⟩
  | case2 a rest ih =>
    cases hEntries with
    | @cons _ x _ tail hHead hTail =>
      rcases ih (List.forall₂_drop 3 hTail) with ⟨grouped, hGrouped, hJoin⟩
      refine ⟨(x ⊔ joinAll (tail.take 3)) :: grouped, ?_, ?_⟩
      · rw [level]
        refine List.Forall₂.cons ?_ hGrouped
        exact foldl_rel hOp (List.forall₂_take 3 hTail) hHead
      · rw [joinAll_cons, hJoin, sup_assoc, ← joinAll_append, List.take_append_drop, joinAll_cons]

/- The root of the tree relates to the join of the leaves. -/
theorem treeFold_rel (hEntries : List.Forall₂ R entries values) {root : α}
    (hRoot : treeFold op entries = some root) : R root (joinAll values) := by
  induction entries using treeFold.induct op generalizing values with
  | case1 entries hLong ih =>
    rcases level_rel hOp hEntries with ⟨grouped, hGrouped, hJoin⟩
    rw [treeFold_of_one_lt op hLong] at hRoot
    rw [← hJoin]
    exact ih hGrouped hRoot
  | case2 entries hShort =>
    cases hEntries with
    | nil => simp at hRoot
    | @cons a x rest tail hHead hTail =>
      cases hTail with
      | nil =>
        rw [treeFold_singleton] at hRoot
        cases hRoot
        simpa using hHead
      | cons _ _ => simp at hShort

/-
  Permuting the leaves leaves the root related to the same
  join.
-/
theorem treeFold_perm {permuted : List α} (hPerm : entries.Perm permuted)
    (hEntries : ∀ a ∈ entries, ∃ x, R a x) {root root' : α}
    (hRoot : treeFold op entries = some root) (hRoot' : treeFold op permuted = some root') :
    ∃ x, R root x ∧ R root' x := by
  have hValues : ∃ values, List.Forall₂ R entries values := by
    clear hPerm hRoot
    induction entries with
    | nil => exact ⟨[], .nil⟩
    | cons a rest ih =>
      rw [List.forall_mem_cons] at hEntries
      rcases hEntries.1 with ⟨x, hx⟩
      rcases ih hEntries.2 with ⟨values, hRest⟩
      exact ⟨x :: values, .cons hx hRest⟩
  rcases hValues with ⟨values, hValues⟩
  rcases List.perm_comp_forall₂ hPerm.symm hValues with ⟨values', hValues', hPerm'⟩
  refine ⟨joinAll values, treeFold_rel hOp hValues hRoot, ?_⟩
  rw [← joinAll_perm hPerm']
  exact treeFold_rel hOp hValues' hRoot'

end

end QuaternaryTree
