import Mathlib.Data.List.Nodup

/-
  Singly linked lists of nodes that are allocated and freed.

  A heap maps addresses to nodes, a list is known by the
  address of its first node.  A slot is a place that holds an
  address: the head of the list, or the `next` of a node.
-/

/- A node: the address of the next one, and what it holds. -/
structure HeapNode (α : Type) where
  next : Option Nat
  data : α

/- A heap with the head of a list. -/
structure LinkedHeap (α : Type) where
  heap : Nat → Option (HeapNode α)
  head : Option Nat

namespace LinkedHeap

variable {α : Type}

----
-- Operations
----

/- A list without nodes. -/
def empty : LinkedHeap α := ⟨fun _ => none, none⟩

/- Allocate a node, or overwrite it. -/
def put (l : LinkedHeap α) (n : Nat) (node : HeapNode α) : LinkedHeap α :=
  { l with heap := fun m => if m = n then some node else l.heap m }

/- Free a node. -/
def free (l : LinkedHeap α) (n : Nat) : LinkedHeap α :=
  { l with heap := fun m => if m = n then none else l.heap m }

/- Write a slot; the node that it is in must be allocated. -/
def write (l : LinkedHeap α) (slot : Option Nat) (p : Option Nat) : Option (LinkedHeap α) :=
  match slot with
  | none => some { l with head := p }
  | some n =>
    match l.heap n with
    | none => none
    | some node => some (l.put n { node with next := p })

----
-- Layouts
----

/- The address of the first node. -/
def first : List (Nat × α) → Option Nat
| [] => none
| (a, _) :: _ => some a

/- The slot behind the last node. -/
def slotAfter (L : List (Nat × α)) : Option Nat :=
  L.getLast?.map Prod.fst

/- The addresses of the nodes. -/
def addresses (L : List (Nat × α)) : List Nat := L.map Prod.fst

/- The heap with these nodes, linked in this order. -/
def layout : List (Nat × α) → Nat → Option (HeapNode α)
| [], _ => none
| (a, x) :: L, n => if n = a then some ⟨first L, x⟩ else layout L n

/- The nodes of the heap are the list. -/
structure Holds (l : LinkedHeap α) (L : List (Nat × α)) : Prop where
  head : l.head = first L
  heap : l.heap = layout L
  nodup : (addresses L).Nodup

theorem holds_empty : (empty : LinkedHeap α).Holds [] where
  head := rfl
  heap := rfl
  nodup := List.nodup_nil

@[simp] theorem slotAfter_concat (L : List (Nat × α)) (a : Nat) (x : α) :
    slotAfter (L ++ [(a, x)]) = some a := by
  simp [slotAfter]

variable {L : List (Nat × α)} {n : Nat} {A B : List (Nat × α)}

theorem slotAfter_mem (h : slotAfter L = some n) : n ∈ addresses L := by
  rcases Option.map_eq_some_iff.mp h with ⟨entry, hLast, rfl⟩
  exact List.mem_map_of_mem (List.mem_of_getLast? hLast)

theorem eq_nil_of_slotAfter (h : slotAfter L = none) : L = [] :=
  List.getLast?_eq_none_iff.mp (Option.map_eq_none_iff.mp h)

theorem concat_of_slotAfter (h : slotAfter L = some n) : ∃ A x, L = A ++ [(n, x)] := by
  rcases List.eq_nil_or_concat L with rfl | ⟨A, ⟨a, x⟩, rfl⟩
  · cases h
  · rw [List.concat_eq_append] at h ⊢
    rw [slotAfter_concat] at h
    cases h
    exact ⟨A, x, rfl⟩

/- Writing a slot leaves the other nodes alone. -/
theorem write_heap {l l' : LinkedHeap α} {slot p : Option Nat}
    (hWrite : l.write slot p = some l') {m : Nat} (hOther : slot ≠ some m) :
    l'.heap m = l.heap m := by
  cases slot with
  | none =>
    cases hWrite
    rfl
  | some n =>
    cases hNode : l.heap n with
    | none =>
      simp only [write, hNode] at hWrite
      cases hWrite
    | some node =>
      simp only [write, hNode] at hWrite
      cases hWrite
      exact if_neg fun hEq => hOther (by rw [hEq])

theorem layout_none (h : n ∉ addresses L) : layout L n = none := by
  induction L with
  | nil => rfl
  | cons entry L ih =>
    rw [addresses, List.map_cons, List.mem_cons, not_or] at h
    unfold layout
    rw [if_neg h.1]
    exact ih h.2

theorem layout_at {a : Nat} {x : α} (h : a ∉ addresses A) :
    layout (A ++ (a, x) :: B) a = some ⟨first B, x⟩ := by
  induction A with
  | nil => simp [layout]
  | cons entry A ih =>
    rw [addresses, List.map_cons, List.mem_cons, not_or] at h
    show layout (entry :: (A ++ (a, x) :: B)) a = _
    unfold layout
    rw [if_neg h.1]
    exact ih h.2

/- Nodes that are not among the first ones. -/
theorem layout_skip (h : n ∉ addresses A) : layout (A ++ B) n = layout B n := by
  induction A with
  | nil => rfl
  | cons entry A ih =>
    rw [addresses, List.map_cons, List.mem_cons, not_or] at h
    rw [List.cons_append, layout, if_neg h.1]
    exact ih h.2

theorem first_append {A B C : List (Nat × α)} (h : first B = first C) :
    first (A ++ B) = first (A ++ C) := by
  cases A with
  | nil => exact h
  | cons entry A => rfl

/- Away from a node, the layout does not see its data. -/
theorem layout_data {a n : Nat} (x y : α) (h : n ≠ a) :
    layout (A ++ (a, x) :: B) n = layout (A ++ (a, y) :: B) n := by
  induction A with
  | nil => simp [layout, h]
  | cons entry A ih =>
    show layout (entry :: (A ++ (a, x) :: B)) n = layout (entry :: (A ++ (a, y) :: B)) n
    unfold layout
    rw [ih, first_append (show first ((a, x) :: B) = first ((a, y) :: B) from rfl)]

/-
  Another rest after the first nodes: only the last of them
  changes, and the nodes of the rest.
-/
theorem layout_rest {A B C : List (Nat × α)} (hSlot : slotAfter A ≠ some n)
    (hRest : layout B n = layout C n) : layout (A ++ B) n = layout (A ++ C) n := by
  induction A with
  | nil => exact hRest
  | cons entry A ih =>
    show layout (entry :: (A ++ B)) n = layout (entry :: (A ++ C)) n
    unfold layout
    cases A with
    | nil =>
      have hn : n ≠ entry.1 := fun hEq => hSlot (by rw [hEq]; rfl)
      rw [if_neg hn, if_neg hn]
      exact hRest
    | cons entry' A =>
      rw [ih hSlot]
      rfl

----
-- Nodes of a List
----

namespace Holds

variable {l : LinkedHeap α}

variable {A B : List (Nat × α)} {a : Nat} {x : α}
  {L : List (Nat × α)}

theorem not_mem_left (h : l.Holds (A ++ (a, x) :: B)) : a ∉ addresses A ∧ a ∉ addresses B := by
  have hNodup := h.nodup
  rw [addresses, List.map_append, List.nodup_append] at hNodup
  rcases hNodup with ⟨_, hRight, hApart⟩
  constructor
  · intro hMem
    exact hApart a hMem a (by simp) rfl
  · exact (List.nodup_cons.mp hRight).1

/- Reading a node. -/
theorem read (h : l.Holds (A ++ (a, x) :: B)) : l.heap a = some ⟨first B, x⟩ := by
  rw [h.heap]
  exact layout_at h.not_mem_left.1

theorem heap_none {n : Nat} (h : l.Holds L) (hn : n ∉ addresses L) : l.heap n = none := by
  rw [h.heap]
  exact layout_none hn

/- Writing the data of a node. -/
theorem update (h : l.Holds (A ++ (a, x) :: B)) (y : α) :
    (l.put a ⟨first B, y⟩).Holds (A ++ (a, y) :: B) where
  head := by
    show l.head = _
    rw [h.head]
    exact first_append rfl
  heap := by
    funext n
    simp only [put, h.heap]
    by_cases hn : n = a
    · rw [if_pos hn, hn, layout_at h.not_mem_left.1]
    · rw [if_neg hn]
      exact layout_data x y hn
  nodup := by
    have hNodup := h.nodup
    simpa [addresses] using hNodup

/- A new node at the end. -/
theorem append {n : Nat} (h : l.Holds L) (hn : n ∉ addresses L) (x : α) :
    ∃ l',
      (l.put n ⟨none, x⟩).write (slotAfter L) (some n) = some l' ∧
      l'.Holds (L ++ [(n, x)]) := by
  have hPut : ∀ m, m ≠ n → (l.put n ⟨none, x⟩).heap m = l.heap m := fun m hm => if_neg hm
  have hNodup : (addresses (L ++ [(n, x)])).Nodup := by
    rw [addresses, List.map_append, List.nodup_append]
    refine ⟨h.nodup, List.nodup_singleton _, ?_⟩
    intro m hm m' hm' hEq
    rw [List.map_cons, List.map_nil, List.mem_singleton] at hm'
    rw [hEq, hm'] at hm
    exact hn hm
  -- The slot is in a node of the list, or it is the head.
  rcases List.eq_nil_or_concat L with rfl | ⟨L', entry, rfl⟩
  · refine ⟨_, rfl, rfl, ?_, hNodup⟩
    funext m
    simp only [put, h.heap]
    rfl
  · rcases entry with ⟨a, y⟩
    rw [List.concat_eq_append] at h hn hNodup ⊢
    have hne : a ≠ n := by
      intro hEq
      apply hn
      simp [addresses, hEq]
    have hHere : l.Holds (L' ++ (a, y) :: []) := h
    have hRead : (l.put n ⟨none, x⟩).heap a = some ⟨none, y⟩ := by
      rw [hPut a hne, hHere.read]
      rfl
    refine ⟨(l.put n ⟨none, x⟩).put a ⟨some n, y⟩, ?_, ?_, ?_, hNodup⟩
    · rw [slotAfter_concat]
      simp only [write, hRead]
    · show l.head = _
      rw [h.head, List.append_assoc]
      exact first_append rfl
    · funext m
      have hAssoc :
          L' ++ [(a, y)] ++ [(n, x)] = L' ++ (a, y) :: [(n, x)] := by
        simp
      rw [hAssoc]
      by_cases hma : m = a
      · rw [hma, layout_at hHere.not_mem_left.1]
        exact if_pos rfl
      · have hOuter : ((l.put n ⟨none, x⟩).put a ⟨some n, y⟩).heap m = (l.put n ⟨none, x⟩).heap m :=
          if_neg hma
        rw [hOuter]
        by_cases hmn : m = n
        · have hSkip : m ∉ addresses (L' ++ [(a, y)]) := by
            rw [hmn]
            exact hn
          rw [← hAssoc, layout_skip hSkip, hmn]
          simp [put, layout, first]
        · rw [hPut m hmn, h.heap]
          have hSlot : slotAfter (L' ++ [(a, y)]) ≠ some m := by
            simpa using fun hEq : a = m => hma hEq.symm
          have hRest : layout ([] : List (Nat × α)) m = layout [(n, x)] m := by simp [layout, hmn]
          have hSame := layout_rest hSlot hRest
          rw [List.append_nil, hAssoc] at hSame
          exact hSame

/- A new node at the head. -/
theorem push {L : List (Nat × α)} {n : Nat} (h : l.Holds L) (hn : n ∉ addresses L) (x : α) :
    Holds { l.put n ⟨l.head, x⟩ with head := some n } ((n, x) :: L) where
  head := rfl
  heap := by
    funext m
    simp only [put, h.heap, h.head, layout]
  nodup := List.nodup_cons.mpr ⟨hn, h.nodup⟩

/- A node is freed and the slot before it gets its `next`. -/
theorem unlink (h : l.Holds (A ++ (a, x) :: B)) :
    ∃ l',
      (l.free a).write (slotAfter A) (first B) = some l' ∧
      l'.Holds (A ++ B) := by
  have hApart := h.not_mem_left
  have hNodup : (addresses (A ++ B)).Nodup := by
    have hAll := h.nodup
    rw [addresses, List.map_append] at hAll
    rw [addresses, List.map_append]
    exact hAll.sublist ((List.sublist_cons_self _ _).append_left _)
  have hFree : ∀ m, m ≠ a → (l.free a).heap m = l.heap m := fun m hm => if_neg hm
  rcases List.eq_nil_or_concat A with rfl | ⟨A', entry, rfl⟩
  · refine ⟨_, rfl, rfl, ?_, hNodup⟩
    funext m
    by_cases hm : m = a
    · rw [hm, List.nil_append, layout_none hApart.2]
      exact if_pos rfl
    · have hSame : (l.free a).heap m = l.heap m := hFree m hm
      rw [hSame, h.heap, List.nil_append, List.nil_append, layout, if_neg hm]
  · rcases entry with ⟨b, y⟩
    rw [List.concat_eq_append] at h hApart hNodup ⊢
    have hHere : l.Holds (A' ++ (b, y) :: (a, x) :: B) := by simpa using h
    have hne : b ≠ a := by
      intro hEq
      apply hApart.1
      simp [addresses, hEq]
    have hRead : (l.free a).heap b = some ⟨some a, y⟩ := by
      rw [hFree b hne, hHere.read]
      rfl
    refine ⟨(l.free a).put b ⟨first B, y⟩, ?_, ?_, ?_, hNodup⟩
    · rw [slotAfter_concat]
      simp only [write, hRead]
    · show l.head = _
      rw [hHere.head, List.append_assoc]
      exact first_append rfl
    · funext m
      rw [List.append_assoc, List.singleton_append]
      by_cases hmb : m = b
      · rw [hmb, layout_at hHere.not_mem_left.1]
        exact if_pos rfl
      · have hOuter : ((l.free a).put b ⟨first B, y⟩).heap m = (l.free a).heap m :=
          if_neg hmb
        rw [hOuter]
        by_cases hma : m = a
        · have hSkip : m ∉ addresses (A' ++ (b, y) :: B) := by
            rw [hma]
            have hBoth := hApart
            simp only [addresses, List.map_append, List.map_cons,
              List.mem_append, List.mem_cons, not_or] at hBoth ⊢
            exact ⟨hBoth.1.1, hBoth.1.2.1, hBoth.2⟩
          rw [layout_none hSkip, hma]
          exact if_pos rfl
        · rw [hFree m hma, hHere.heap]
          have hSlot : slotAfter (A' ++ [(b, y)]) ≠ some m := by
            simpa using fun hEq : b = m => hmb hEq.symm
          have hRest : layout ((a, x) :: B) m = layout B m := by rw [layout, if_neg hma]
          have hSame := layout_rest hSlot hRest
          rw [List.append_assoc, List.append_assoc] at hSame
          exact hSame

/- A slot is written before another node is freed. -/
theorem write_free {slot p : Option Nat} {l l' : LinkedHeap α} (hSlot : slot ≠ some a)
    (hWrite : (l.free a).write slot p = some l') :
    ∃ l₁, l.write slot p = some l₁ ∧ l₁.free a = l' := by
  cases slot with
  | none =>
    cases hWrite
    exact ⟨_, rfl, rfl⟩
  | some n =>
    have hne : n ≠ a := fun hEq => hSlot (by rw [hEq])
    have hSame : (l.free a).heap n = l.heap n := if_neg hne
    simp only [write, hSame] at hWrite
    cases hNode : l.heap n with
    | none =>
      simp only [hNode] at hWrite
      cases hWrite
    | some node =>
      simp only [hNode] at hWrite
      cases hWrite
      refine ⟨l.put n { node with next := p }, ?_, ?_⟩
      · simp only [write, hNode]
      · simp only [free, put, mk.injEq, and_true]
        funext m
        grind

/- The same with the slot written first. -/
theorem unlink_write (h : l.Holds (A ++ (a, x) :: B)) :
    ∃ l',
      l.write (slotAfter A) (first B) = some l' ∧
      (l'.free a).Holds (A ++ B) := by
  have hSlot : slotAfter A ≠ some a := fun hEq => h.not_mem_left.1 (slotAfter_mem hEq)
  rcases h.unlink with ⟨l', hWrite, hHolds⟩
  rcases write_free hSlot hWrite with ⟨l₁, hFirst, hFree⟩
  rw [← hFree] at hHolds
  exact ⟨l₁, hFirst, hHolds⟩

/- A node that is read is in the list. -/
theorem split {next : Option Nat} (h : l.Holds L) (hRead : l.heap a = some ⟨next, x⟩) :
    ∃ A B, L = A ++ (a, x) :: B ∧ first B = next := by
  have hMem : a ∈ addresses L := by
    by_contra hNot
    rw [h.heap_none hNot] at hRead
    cases hRead
  rcases List.mem_map.mp hMem with ⟨⟨b, y⟩, hEntry, hEq⟩
  rcases List.append_of_mem hEntry with ⟨A, B, rfl⟩
  have hHere := h.read
  rw [show b = a from hEq, hRead] at hHere
  cases hHere
  refine ⟨A, B, ?_, rfl⟩
  rw [show b = a from hEq]

end Holds

end LinkedHeap
