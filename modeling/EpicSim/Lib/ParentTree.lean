import Mathlib.Data.List.Nodup
import Mathlib.Order.Basic
import Mathlib.Order.Lattice

/-
  Binary search trees of cells that know their parents.

  A heap maps addresses to cells; a tree is known by the
  address of its root.  Deletion hangs the right subtree of a
  node under the rightmost node of the left one.
-/

----
-- Cells
----

/- A cell: what it holds, its children and its parent. -/
structure TreeCell (α : Type) where
  data : α
  left : Option Nat
  right : Option Nat
  up : Option Nat
deriving DecidableEq

/- Allocated cells by address. -/
abbrev TreeHeap (α : Type) := Nat → Option (TreeCell α)

namespace TreeHeap

variable {α : Type}

/- Allocate a cell, or overwrite it. -/
def put (h : TreeHeap α) (a : Nat) (c : TreeCell α) : TreeHeap α :=
  fun b => if b = a then some c else h b

/- Free a cell. -/
def free (h : TreeHeap α) (a : Nat) : TreeHeap α :=
  fun b => if b = a then none else h b

/- Change an allocated cell. -/
def modify (h : TreeHeap α) (a : Nat) (f : TreeCell α → TreeCell α) : Option (TreeHeap α) :=
  (h a).map fun c => h.put a (f c)

@[simp] theorem put_same (h : TreeHeap α) (a : Nat) (c : TreeCell α) :
    h.put a c a = some c := if_pos rfl

theorem put_other (h : TreeHeap α) {a b : Nat} (c : TreeCell α) (hNe : b ≠ a) :
    h.put a c b = h b := if_neg hNe

theorem free_other (h : TreeHeap α) {a b : Nat} (hNe : b ≠ a) : h.free a b = h b := if_neg hNe

theorem modify_eq {h : TreeHeap α} {a : Nat} {c : TreeCell α} (f : TreeCell α → TreeCell α)
    (hCell : h a = some c) : h.modify a f = some (h.put a (f c)) := by
  unfold modify
  rw [hCell]
  rfl

end TreeHeap

----
-- Trees
----

/- A tree with the addresses of its nodes. -/
inductive PTree (α : Type) where
| nil
| node (left : PTree α) (addr : Nat) (data : α) (right : PTree α)
deriving DecidableEq

namespace PTree

variable {α : Type}

/- The address of the root. -/
def root : PTree α → Option Nat
| nil => none
| node _ a _ _ => some a

/- The addresses of the nodes, from the left. -/
def addresses : PTree α → List Nat
| nil => []
| node l a _ r => l.addresses ++ a :: r.addresses

/- What the nodes hold, from the left. -/
def entries : PTree α → List α
| nil => []
| node l _ x r => l.entries ++ x :: r.entries

/- What the nodes hold, each node before its subtrees. -/
def preorder : PTree α → List α
| nil => []
| node l _ x r => x :: (l.preorder ++ r.preorder)

theorem preorder_perm : ∀ t : PTree α, t.preorder.Perm t.entries
| nil => List.Perm.refl _
| node l a x r => by
    rw [preorder, entries]
    exact (((preorder_perm l).append (preorder_perm r)).cons x).trans List.perm_middle.symm

/- The number of nodes. -/
def size : PTree α → Nat
| nil => 0
| node l _ _ r => l.size + r.size + 1

theorem length_addresses : ∀ t : PTree α, t.addresses.length = t.size
| nil => rfl
| node l a x r => by
    rw [addresses, size, List.length_append, List.length_cons,
      length_addresses l, length_addresses r]
    omega

/- The heap has the tree at its root, below a parent. -/
def Rep (h : TreeHeap α) : Option Nat → PTree α → Prop
| _, nil => True
| up, node l a x r => h a = some ⟨x, l.root, r.root, up⟩ ∧ Rep h (some a) l ∧ Rep h (some a) r

variable {l r : PTree α} {a b : Nat} {t : PTree α}

variable {x : α} {h : TreeHeap α} {up : Option Nat}

/- The addresses of a node and of its subtrees. -/
theorem nodup_node (hNodup : (node l a x r).addresses.Nodup) :
    a ∉ l.addresses ∧ a ∉ r.addresses ∧ l.addresses.Nodup ∧
      r.addresses.Nodup ∧
      ∀ b ∈ l.addresses, b ∉ r.addresses := by
  rw [addresses, List.nodup_middle, List.nodup_cons,
    List.mem_append, not_or, List.nodup_append] at hNodup
  rcases hNodup with ⟨⟨hL, hR⟩, hNL, hNR, hApart⟩
  exact ⟨hL, hR, hNL, hNR, fun b hB hIn => hApart b hB b hIn rfl⟩

theorem mem_addresses_node :
    b ∈ (node l a x r).addresses ↔
      b ∈ l.addresses ∨ b = a ∨ b ∈ r.addresses := by
  rw [addresses, List.mem_append, List.mem_cons]

theorem ne_of_not_mem_node (h : b ∉ (node l a x r).addresses) : b ≠ a := by
  rw [mem_addresses_node, not_or, not_or] at h
  exact h.2.1

theorem eq_nil_of_root (hRoot : t.root = none) : t = nil := by
  cases t with
  | nil => rfl
  | node l a x r => cases hRoot

theorem root_mem_addresses (hRoot : t.root = some a) : a ∈ t.addresses := by
  cases t with
  | nil => cases hRoot
  | node l b x r =>
    cases hRoot
    exact mem_addresses_node.mpr (Or.inr (Or.inl rfl))

theorem ne_root_of_not_mem (hRoot : t.root = some a) (hMem : b ∉ t.addresses) : b ≠ a :=
  (ne_of_mem_of_not_mem (root_mem_addresses hRoot) hMem).symm

/- A tree is known by the cells at its addresses. -/
theorem Rep.frame {h' : TreeHeap α} (hRep : Rep h up t)
    (hSame : ∀ a ∈ t.addresses, h' a = h a) : Rep h' up t := by
  induction t generalizing up with
  | nil => trivial
  | node l a x r ihL ihR =>
    rcases hRep with ⟨hCell, hLeft, hRight⟩
    simp only [mem_addresses_node] at hSame
    refine ⟨?_, ihL hLeft ?_, ihR hRight ?_⟩
    · rw [hSame a (Or.inr (Or.inl rfl))]
      exact hCell
    · exact fun b hB => hSame b (Or.inl hB)
    · exact fun b hB => hSame b (Or.inr (Or.inr hB))

/- The root of a tree that is there is allocated. -/
theorem Rep.root_cell (hRep : Rep h up t)
    (hRoot : t.root = some a) : ∃ c, h a = some c ∧ c.up = up := by
  cases t with
  | nil => cases hRoot
  | node l b x r =>
    cases hRoot
    exact ⟨_, hRep.1, rfl⟩

/- A tree under another parent. -/
theorem Rep.reparent {up' : Option Nat} {c : TreeCell α}
    (hRep : Rep h up t) (hNodup : t.addresses.Nodup) (hRoot : t.root = some a)
    (hCell : h a = some c) : Rep (h.put a { c with up := up' }) up' t := by
  cases t with
  | nil => cases hRoot
  | node l b x r =>
    cases hRoot
    rcases hRep with ⟨hNode, hLeft, hRight⟩
    rcases nodup_node hNodup with ⟨hNL, hNR, _, _, _⟩
    rw [hNode, Option.some.injEq] at hCell
    refine ⟨?_, hLeft.frame ?_, hRight.frame ?_⟩
    · rw [TreeHeap.put_same, ← hCell]
    · exact fun n hMem => TreeHeap.put_other _ _ (ne_of_mem_of_not_mem hMem hNL)
    · exact fun n hMem => TreeHeap.put_other _ _ (ne_of_mem_of_not_mem hMem hNR)

----
-- Searching
----

section Search

variable {κ : Type} [LinearOrder κ]
variable (key : α → κ)

/- The node with a key. -/
def find (n : κ) : PTree α → Option (Nat × α)
| nil => none
| node l a x r =>
  if n = key x then some (a, x)
  else if n < key x then find n l
  else find n r

/- A new node for an entry, or a change of the node that has
   its key. -/
def insert (a : Nat) (x : α) (f : α → α) : PTree α → PTree α
| nil => node nil a x nil
| node l b y r =>
  if key x = key y then node l b (f y) r
  else if key x < key y then node (insert a x f l) b y r
  else node l b y (insert a x f r)

/- The second tree, hung under the rightmost node. -/
def hang : PTree α → PTree α → PTree α
| nil, s => s
| node l a x r, s => node l a x (hang r s)

/- Without the node that has the key. -/
def delete (n : κ) : PTree α → PTree α
| nil => nil
| node l a x r =>
  if n = key x then hang l r
  else if n < key x then node (delete n l) a x r
  else node l a x (delete n r)

/- A search tree: its keys grow from the left to the right. -/
def Ordered (t : PTree α) : Prop :=
  t.entries.Pairwise fun x y => key x < key y

theorem hang_nil : ∀ t : PTree α, t.hang nil = t
| nil => rfl
| node l a x r => by rw [hang, hang_nil r]

theorem entries_hang : ∀ t s : PTree α, (t.hang s).entries = t.entries ++ s.entries
| nil, _ => rfl
| node l a x r, s => by
    rw [hang, entries, entries, entries_hang r s]
    simp

theorem addresses_hang : ∀ t s : PTree α, (t.hang s).addresses = t.addresses ++ s.addresses
| nil, _ => rfl
| node l a x r, s => by
    rw [hang, addresses, addresses, addresses_hang r s]
    simp

variable {t : PTree α} {a : Nat} {n : κ} {f : α → α}

omit [LinearOrder κ] in
theorem root_hang_of_root (hRoot : t.root = some a) (s : PTree α) : (t.hang s).root = some a := by
  cases t with
  | nil => cases hRoot
  | node l b x r => exact hRoot

variable {key}

variable {x : α} {t : PTree α}

theorem ordered_node {l r : PTree α} :
    (node l a x r).Ordered key ↔
      (∀ y ∈ l.entries, key y < key x) ∧
        (∀ y ∈ r.entries, key x < key y) ∧
        l.Ordered key ∧ r.Ordered key := by
  unfold Ordered
  rw [entries, List.pairwise_append, List.pairwise_cons]
  constructor
  · grind
  · grind

theorem mem_addresses_of_find (h : t.find key n = some (a, x)) : a ∈ t.addresses := by
  induction t with
  | nil => cases h
  | node l b y r ihL ihR =>
    rw [find] at h
    rw [mem_addresses_node]
    grind

theorem Rep.cell_of_find {h : TreeHeap α} {up : Option Nat} (hRep : Rep h up t)
    (hFind : t.find key n = some (a, x)) : ∃ c, h a = some c ∧ c.data = x := by
  induction t generalizing up with
  | nil => cases hFind
  | node l b y r ihL ihR =>
    rw [find] at hFind
    split_ifs at hFind with hEq hLt
    · cases hFind
      exact ⟨_, hRep.1, rfl⟩
    · exact ihL hRep.2.1 hFind
    · exact ihR hRep.2.2 hFind

/- A search finds the entry with the key. -/
theorem find_eq_some_iff (hOrdered : t.Ordered key) :
    (t.find key n).map Prod.snd = some x ↔
      x ∈ t.entries ∧ key x = n := by
  induction t with
  | nil => simp [find, entries]
  | node l a y r ihL ihR =>
    rcases ordered_node.mp hOrdered with ⟨hL, hR, hLeft, hRight⟩
    rw [find, entries, List.mem_append, List.mem_cons]
    rcases lt_trichotomy n (key y) with hLt | hEq | hGt
    · grind
    · grind
    · grind

/- An entry that is inserted is found, and no other one is
   moved. -/
theorem find_insert (hKey : ∀ y, key (f y) = key y) (n : κ) (a : Nat) (x : α) (t : PTree α) :
    (t.insert key a x f).find key n =
      if n = key x then
        some (match t.find key n with
        | none => (a, x)
        | some (b, y) => (b, f y))
      else t.find key n := by
  induction t with
  | nil =>
    rw [insert, find, find]
    split_ifs <;> rfl
  | node l b y r ihL ihR =>
    rw [insert]
    by_cases hSame : key x = key y
    · rw [if_pos hSame, find, hKey, find, hSame]
      split_ifs <;> rfl
    · rw [if_neg hSame]
      by_cases hLt : key x < key y
      · rw [if_pos hLt, find, find, ihL]
        grind
      · rw [if_neg hLt, find, find, ihR]
        grind

/- Nothing is found outside the range of the keys. -/
theorem find_none_of_lt (h : ∀ y ∈ t.entries, n < key y) : t.find key n = none := by
  induction t with
  | nil => rfl
  | node l a x r ihL _ =>
    have hX := h x (by rw [entries]; simp)
    rw [find, if_neg (ne_of_lt hX), if_pos hX]
    exact ihL fun y hMem => h y (by rw [entries]; simp [hMem])

/- Two trees on both sides of a key, one hung in the other. -/
theorem find_hang {k : κ} {s : PTree α} (hT : ∀ y ∈ t.entries, key y < k)
    (hS : ∀ y ∈ s.entries, k < key y) (n : κ) :
    (t.hang s).find key n =
      if n < k then t.find key n else s.find key n := by
  induction t with
  | nil =>
    split_ifs with hLt
    · exact find_none_of_lt fun y hMem => lt_trans hLt (hS y hMem)
    · rfl
  | node l a x r _ ihR =>
    have hX := hT x (by rw [entries]; simp)
    have hR := ihR fun y hMem => hT y (by rw [entries]; simp [hMem])
    rw [hang, find, find, hR]
    grind

/- A deleted key is not found, and no other one is lost. -/
theorem find_delete (hOrdered : t.Ordered key) (m n : κ) :
    (t.delete key m).find key n =
      if n = m then none else t.find key n := by
  induction t with
  | nil =>
    split_ifs <;> rfl
  | node l a x r ihL ihR =>
    rcases ordered_node.mp hOrdered with ⟨hL, hR, hLeft, hRight⟩
    rw [delete]
    by_cases hSame : m = key x
    · rw [if_pos hSame, find_hang hL hR, find, hSame]
      rcases lt_trichotomy n (key x) with hLt | hEq | hGt
      · rw [if_neg (ne_of_lt hLt), if_neg (ne_of_lt hLt)]
      · rw [if_pos hEq, if_neg (not_lt.mpr (le_of_eq hEq.symm))]
        exact find_none_of_lt fun y hMem => hEq ▸ hR y hMem
      · rw [if_neg (ne_of_gt hGt), if_neg (ne_of_gt hGt)]
    · rw [if_neg hSame]
      by_cases hLt : m < key x
      · rw [if_pos hLt, find, find, ihL hLeft]
        grind
      · rw [if_neg hLt, find, find, ihR hRight]
        grind

theorem delete_of_find_none (h : t.find key n = none) : t.delete key n = t := by
  induction t with
  | nil => rfl
  | node l a x r ihL ihR =>
    rw [find] at h
    rw [delete]
    grind

/- Deletion leaves entries out. -/
theorem entries_delete_sublist (n : κ) (t : PTree α) :
    (t.delete key n).entries.Sublist t.entries := by
  induction t with
  | nil => exact List.Sublist.refl _
  | node l a x r ihL ihR =>
    rw [delete]
    split_ifs
    · rw [entries_hang]
      exact List.Sublist.append_left (List.sublist_cons_self x r.entries) l.entries
    · exact List.Sublist.append_right ihL _
    · exact List.Sublist.append_left (List.Sublist.cons_cons x ihR) _

theorem addresses_delete_sublist (n : κ) (t : PTree α) :
    (t.delete key n).addresses.Sublist t.addresses := by
  induction t with
  | nil => exact List.Sublist.refl _
  | node l a x r ihL ihR =>
    rw [delete]
    split_ifs
    · rw [addresses_hang]
      exact List.Sublist.append_left (List.sublist_cons_self a r.addresses) l.addresses
    · exact List.Sublist.append_right ihL _
    · exact List.Sublist.append_left (List.Sublist.cons_cons a ihR) _

theorem ordered_delete (hOrdered : t.Ordered key) (n : κ) : (t.delete key n).Ordered key :=
  List.Pairwise.sublist (entries_delete_sublist n t) hOrdered

/- The node with the key is gone. -/
theorem not_mem_addresses_delete (hNodup : t.addresses.Nodup) {n : κ} {a : Nat}
    (hFind : t.find key n = some (a, x)) : a ∉ (t.delete key n).addresses := by
  induction t with
  | nil => cases hFind
  | node l b y r ihL ihR =>
    rcases nodup_node hNodup with ⟨hBL, hBR, hL, hR, hApart⟩
    rw [find] at hFind
    rw [delete]
    split_ifs at hFind ⊢ with hEq hLt
    · cases hFind
      rw [addresses_hang, List.mem_append]
      exact not_or_intro hBL hBR
    · have hMem := mem_addresses_of_find hFind
      rw [mem_addresses_node]
      grind
    · have hMem := mem_addresses_of_find hFind
      rw [mem_addresses_node]
      grind

/- Insertion has the old keys and the new one. -/
theorem key_of_mem_insert (hKey : ∀ y, key (f y) = key y) {a : Nat} {y : α}
    (hMem : y ∈ (t.insert key a x f).entries) : key y = key x ∨ ∃ z ∈ t.entries, key y = key z := by
  induction t with
  | nil =>
    rw [insert, entries, entries, List.nil_append, List.mem_singleton] at hMem
    rw [hMem]
    exact Or.inl rfl
  | node l b z r ihL ihR =>
    rw [insert] at hMem
    simp only [entries, List.mem_append, List.mem_cons]
    split_ifs at hMem with hEq hLt
    · rw [entries, List.mem_append, List.mem_cons] at hMem
      grind
    · rw [entries, List.mem_append, List.mem_cons] at hMem
      grind
    · rw [entries, List.mem_append, List.mem_cons] at hMem
      grind

theorem ordered_insert (hKey : ∀ y, key (f y) = key y) (a : Nat) (x : α)
    (hOrdered : t.Ordered key) : (t.insert key a x f).Ordered key := by
  induction t with
  | nil => exact List.pairwise_singleton _ _
  | node l b z r ihL ihR =>
    rcases ordered_node.mp hOrdered with ⟨hL, hR, hLeft, hRight⟩
    rw [insert]
    split_ifs with hEq hLt
    · refine ordered_node.mpr ⟨?_, ?_, hLeft, hRight⟩
      · intro y hY
        rw [hKey]
        exact hL y hY
      · intro y hY
        rw [hKey]
        exact hR y hY
    · refine ordered_node.mpr ⟨?_, hR, ihL hLeft, hRight⟩
      intro y hY
      rcases key_of_mem_insert hKey hY with hNew | ⟨w, hW, hOld⟩
      · rw [hNew]
        exact hLt
      · rw [hOld]
        exact hL w hW
    · refine ordered_node.mpr ⟨hL, ?_, hLeft, ihR hRight⟩
      intro y hY
      rcases key_of_mem_insert hKey hY with hNew | ⟨w, hW, hOld⟩
      · grind
      · rw [hOld]
        exact hR w hW

/- The nodes of a tree after an insertion. -/
theorem addresses_insert (f : α → α) (a : Nat) (x : α) (t : PTree α) :
    (t.insert key a x f).addresses.Perm
      (if (t.find key (key x)).isSome then t.addresses
        else a :: t.addresses) := by
  induction t with
  | nil => exact List.Perm.refl _
  | node l b z r ihL ihR =>
    rw [insert, find]
    by_cases hEq : key x = key z
    · rw [if_pos hEq, if_pos hEq]
      exact List.Perm.refl _
    · by_cases hLt : key x < key z
      · split_ifs at ihL ⊢
        · exact List.Perm.append_right _ ihL
        · exact List.Perm.append_right _ ihL
      · split_ifs at ihR ⊢
        · exact List.Perm.append_left _ (ihR.cons b)
        · have hMove : (b :: (r.insert key a x f).addresses).Perm (a :: b :: r.addresses) :=
            (ihR.cons b).trans (List.Perm.swap a b _)
          exact (List.Perm.append_left _ hMove).trans List.perm_middle

end Search

end PTree
