import EpicSim.Ivlpp.MacroTable

/-
  The cells of the macro table form a search tree.
-/

namespace EpicSim

open TreeHeap (free_other modify_eq put_other put_same)
open Option (bind_eq_bind bind_some)
open PTree

namespace MacroState

----
-- Searching
----

variable {h : TreeHeap Define} {up : Option Nat}
  {t : PTree Define} {new cur : Nat} {d c : TreeCell Define}
  {a : Nat} {l r : PTree Define} {u : TreeCell Define}
  {s : MacroState} {x : Define}

/- The loop of the lookup searches the tree. -/
theorem lookupLoop_spec (hRep : t.Rep h up) (name : CText) {fuel : Nat} (hFuel : t.size ≤ fuel) :
    lookupLoop h name fuel t.root = some ((t.find Define.name name).map Prod.fst) := by
  induction t generalizing up fuel with
  | nil =>
    cases fuel with
    | zero => rfl
    | succ fuel => rfl
  | node l a x r ihL ihR =>
    rcases hRep with ⟨hCell, hLeft, hRight⟩
    cases fuel with
    | zero => exact absurd hFuel (Nat.not_succ_le_zero _)
    | succ fuel =>
      rw [size] at hFuel
      rw [root, lookupLoop, hCell, find]
      simp only [bind_eq_bind, bind_some]
      by_cases hEq : name = x.name
      · rw [if_pos ((strcmp_text_eq_zero_iff _ _).mpr hEq), if_pos hEq]
        rfl
      · rw [if_neg (mt (strcmp_text_eq_zero_iff _ _).mp hEq), if_neg hEq]
        by_cases hLt : name < x.name
        · rw [if_pos ((strcmp_text_neg_iff _ _).mpr hLt), if_pos hLt]
          exact ihL hLeft (by omega)
        · rw [if_neg (mt (strcmp_text_neg_iff _ _).mp hLt), if_neg hLt]
          exact ihR hRight (by omega)

----
-- Insertion
----

/- A redefined macro takes the new value. -/
def takeValue (d old : Define) : Define :=
  { old with value := d.value }

theorem takeValue_name (d old : Define) : (takeValue d old).name = old.name := rfl

theorem root_insert {b : Nat} (hRoot : t.root = some b) (a : Nat) (x : Define)
    (f : Define → Define) : (t.insert Define.name a x f).root = some b := by
  cases t with
  | nil => cases hRoot
  | node l c y r =>
    rw [PTree.insert]
    split_ifs
    · exact hRoot
    · exact hRoot
    · exact hRoot

/- Where the search for the place of a cell goes on. -/
theorem placeLoop_same (hNew : h new = some d) (hCell : h cur = some c)
    (hName : d.data.name = c.data.name) (fuel : Nat) :
    placeLoop h new (fuel + 1) cur =
      some ((h.put cur
        { c with data := takeValue d.data c.data }).free new) := by
  rw [placeLoop, hNew, hCell]
  simp only [bind_eq_bind, bind_some]
  rw [if_pos ((strcmp_text_eq_zero_iff _ _).mpr hName)]
  rfl

theorem placeLoop_left (hNew : h new = some d) (hCell : h cur = some c)
    (hName : d.data.name < c.data.name) (fuel : Nat) :
    placeLoop h new (fuel + 1) cur =
      match c.left with
      | some l => placeLoop h new fuel l
      | none =>
        some ((h.put cur { c with left := some new }).put new
          { d with up := some cur }) := by
  have hNe : ¬ d.data.name = c.data.name := ne_of_lt hName
  rw [placeLoop, hNew, hCell]
  exact (if_neg (mt (strcmp_text_eq_zero_iff _ _).mp hNe)).trans
    (if_pos ((strcmp_text_neg_iff _ _).mpr hName))

theorem placeLoop_right (hNew : h new = some d) (hCell : h cur = some c)
    (hName : c.data.name < d.data.name) (fuel : Nat) :
    placeLoop h new (fuel + 1) cur =
      match c.right with
      | some r => placeLoop h new fuel r
      | none =>
        some ((h.put cur { c with right := some new }).put new
          { d with up := some cur }) := by
  have hNe : ¬ d.data.name = c.data.name := ne_of_gt hName
  rw [placeLoop, hNew, hCell]
  exact (if_neg (mt (strcmp_text_eq_zero_iff _ _).mp hNe)).trans
    (if_neg (mt (strcmp_text_neg_iff _ _).mp (not_lt_of_gt hName)))

/- The loop of the definition inserts the cell. -/
theorem placeLoop_spec {d : Define} (hNew : h new = some ⟨d, none, none, none⟩)
    {up : Option Nat} {t : PTree Define} (hRep : t.Rep h up)
    (hNodup : t.addresses.Nodup) (hApart : new ∉ t.addresses)
    {cur : Nat} (hRoot : t.root = some cur) {fuel : Nat} (hFuel : t.size ≤ fuel) :
    ∃ h', placeLoop h new fuel cur = some h' ∧
      (t.insert Define.name new d (takeValue d)).Rep h' up ∧
      ∀ a, a ∉ t.addresses → a ≠ new → h' a = h a := by
  induction t generalizing up fuel cur with
  | nil => cases hRoot
  | node l b x r ihL ihR =>
    cases hRoot
    rcases hRep with ⟨hCell, hLeft, hRight⟩
    rcases nodup_node hNodup with ⟨hBL, hBR, hNL, hNR, hDisj⟩
    rw [addresses, List.mem_append, List.mem_cons, not_or, not_or] at hApart
    rcases hApart with ⟨hAL, hAB, hAR⟩
    cases fuel with
    | zero => exact absurd hFuel (Nat.not_succ_le_zero _)
    | succ fuel =>
      rw [size] at hFuel
      rw [PTree.insert]
      have hOff : ∀ {c c' : TreeCell Define} {v : PTree Define},
          v.Rep h (some b) → new ∉ v.addresses →
          b ∉ v.addresses →
          v.Rep ((h.put b c).put new c') (some b) := by
        intro c c' v hV hNewV hBV
        apply hV.frame
        intro a hA
        rw [put_other _ _ (ne_of_mem_of_not_mem hA hNewV),
          put_other _ _ (ne_of_mem_of_not_mem hA hBV)]
      have hOut : ∀ {c c' : TreeCell Define} {a : Nat},
          a ≠ b → a ≠ new → (h.put b c).put new c' a = h a := by
        intro c c' a hB hNe
        rw [put_other _ _ hNe, put_other _ _ hB]
      rcases lt_trichotomy d.name x.name with hLt | hEq | hGt
      · rw [if_neg (ne_of_lt hLt), if_pos hLt, placeLoop_left hNew hCell hLt]
        have hSmall : l.size ≤ fuel := by omega
        cases hL : l.root with
        | none =>
          rw [eq_nil_of_root hL]
          refine ⟨_, rfl, ⟨?_, ⟨?_, trivial, trivial⟩,
            hOff hRight hAR hBR⟩,
            fun a hA => hOut (ne_of_not_mem_node hA)⟩
          · rw [put_other _ _ (Ne.symm hAB), put_same]
            rfl
          · rw [put_same]
            rfl
        | some c =>
          rcases ihL hLeft hNL hAL hL hSmall with ⟨h', hLoop, hRep', hSame⟩
          refine ⟨h', hLoop, ⟨?_, hRep', ?_⟩, ?_⟩
          · rw [hSame b hBL (Ne.symm hAB), hCell, hL, root_insert hL]
          · apply hRight.frame
            intro a hA
            exact hSame a (fun hIn => hDisj a hIn hA) (ne_of_mem_of_not_mem hA hAR)
          · intro a hA hNe
            rw [mem_addresses_node, not_or] at hA
            exact hSame a hA.1 hNe
      · rw [if_pos hEq, placeLoop_same hNew hCell hEq]
        refine ⟨_, rfl, ⟨?_, ?_, ?_⟩, ?_⟩
        · rw [free_other _ (Ne.symm hAB), put_same]
        · apply hLeft.frame
          intro a hA
          rw [free_other _ (ne_of_mem_of_not_mem hA hAL),
            put_other _ _ (ne_of_mem_of_not_mem hA hBL)]
        · apply hRight.frame
          intro a hA
          rw [free_other _ (ne_of_mem_of_not_mem hA hAR),
            put_other _ _ (ne_of_mem_of_not_mem hA hBR)]
        · intro a hA hNe
          rw [mem_addresses_node, not_or, not_or] at hA
          rw [free_other _ hNe, put_other _ _ hA.2.1]
      · rw [if_neg (ne_of_gt hGt), if_neg (not_lt_of_gt hGt), placeLoop_right hNew hCell hGt]
        have hSmall : r.size ≤ fuel := by omega
        cases hR : r.root with
        | none =>
          rw [eq_nil_of_root hR]
          refine ⟨_, rfl, ⟨?_, hOff hLeft hAL hBL,
            ⟨?_, trivial, trivial⟩⟩,
            fun a hA => hOut (ne_of_not_mem_node hA)⟩
          · rw [put_other _ _ (Ne.symm hAB), put_same]
            rfl
          · rw [put_same]
            rfl
        | some c =>
          rcases ihR hRight hNR hAR hR hSmall with ⟨h', hLoop, hRep', hSame⟩
          refine ⟨h', hLoop, ⟨?_, ?_, hRep'⟩, ?_⟩
          · rw [hSame b hBR (Ne.symm hAB), hCell, hR, root_insert hR]
          · apply hLeft.frame
            intro a hA
            exact hSame a (hDisj a hA) (ne_of_mem_of_not_mem hA hAL)
          · intro a hA hNe
            rw [mem_addresses_node, not_or, not_or] at hA
            exact hSame a hA.2.2 hNe

----
-- The right subtree under the left one
----

/- The parent of a subtree is set. -/
theorem setUp_spec (hRep : t.Rep h up) (hNodup : t.addresses.Nodup) (hRoot : t.root = some a)
    (up' : Option Nat) :
    ∃ h', setUp h a up' = some h' ∧ t.Rep h' up' ∧
      ∀ b, b ≠ a → h' b = h b := by
  rcases hRep.root_cell hRoot with ⟨c, hCell, _⟩
  refine ⟨_, modify_eq _ hCell, hRep.reparent hNodup hRoot hCell, ?_⟩
  intro b hNe
  exact put_other _ _ hNe

/- The way to the rightmost cell starts to the right. -/
theorem hangRight_right {a b : Nat} (hCell : h a = some c) (hRight : c.right = some b)
    (fuel right : Nat) : hangRight h (fuel + 1) a right = hangRight h fuel b right := by
  unfold hangRight
  rw [tailLoop, hCell]
  simp only [bind_eq_bind, bind_some]
  rw [hRight]

theorem hangRight_spec {up upR : Option Nat} (hL : l.Rep h up) (hR : r.Rep h upR)
    (hNodup : (l.addresses ++ r.addresses).Nodup) {left right : Nat} (hLeft : l.root = some left)
    (hRight : r.root = some right) {fuel : Nat} (hFuel : l.size ≤ fuel) :
    ∃ h', hangRight h fuel left right = some h' ∧
      (l.hang r).Rep h' up ∧
      ∀ b, b ∉ l.addresses → b ≠ right → h' b = h b := by
  induction l generalizing up fuel left with
  | nil => cases hLeft
  | node ll a x lr _ ihR =>
    cases hLeft
    rcases hL with ⟨hCell, hLL, hLR⟩
    rcases List.nodup_append.mp hNodup with ⟨hNL, hNR, hApart⟩
    rcases nodup_node hNL with ⟨hALL, hALR, _, hNLR, hDisj⟩
    have hRightIn : right ∈ r.addresses := root_mem_addresses hRight
    have hARight : a ≠ right :=
      hApart a (mem_addresses_node.mpr (Or.inr (Or.inl rfl)))
        right hRightIn
    cases fuel with
    | zero => exact absurd hFuel (Nat.not_succ_le_zero _)
    | succ fuel =>
      rw [size] at hFuel
      cases hRoot : lr.root with
      | none =>
        rw [eq_nil_of_root hRoot] at hCell ⊢
        have hTail : tailLoop h (fuel + 1) a = some a := by
          rw [tailLoop, hCell]
          rfl
        have hOld : r.Rep (h.put a ⟨x, ll.root, some right, up⟩)
            upR := by
          apply hR.frame
          intro b hB
          exact put_other _ _
            (Ne.symm (hApart a (mem_addresses_node.mpr (Or.inr (Or.inl rfl))) b hB))
        rcases setUp_spec hOld hNR hRight (some a) with ⟨h', hUp, hRep', hSame⟩
        have hKept : ∀ b, b ≠ a → b ≠ right → h' b = h b := by
          intro b hA hB
          rw [hSame b hB, put_other _ _ hA]
        refine ⟨h', ?_, ⟨?_, ?_, hRep'⟩, ?_⟩
        · unfold hangRight
          rw [hTail, bind_eq_bind, bind_some, modify_eq _ hCell]
          exact hUp
        · rw [hSame a hARight, put_same, hang, hRight]
        · apply hLL.frame
          intro b hB
          exact hKept b (ne_of_mem_of_not_mem hB hALL)
            (hApart b (mem_addresses_node.mpr (Or.inl hB)) right hRightIn)
        · exact fun b hB => hKept b (ne_of_not_mem_node hB)
      | some b =>
        have hSmall : lr.size ≤ fuel := by omega
        have hNodup' : (lr.addresses ++ r.addresses).Nodup := by
          rw [List.nodup_append]
          exact ⟨hNLR, hNR, fun c hC => hApart c (mem_addresses_node.mpr (Or.inr (Or.inr hC)))⟩
        rcases ihR hLR hNodup' hRoot hSmall with ⟨h', hHang, hRep', hSame⟩
        refine ⟨h', ?_, ⟨?_, ?_, hRep'⟩, ?_⟩
        · rw [hangRight_right hCell hRoot]
          exact hHang
        · rw [hSame a hALR hARight, hCell, root_hang_of_root hRoot, hRoot]
        · apply hLL.frame
          intro c hC
          exact hSame c (hDisj c hC) (hApart c (mem_addresses_node.mpr (Or.inl hC)) right hRightIn)
        · intro c hC hNe
          rw [mem_addresses_node, not_or, not_or] at hC
          exact hSame c hC.2.2 hNe

----
-- Links from above
----

/- The link of a cell to a child, changed. -/
def linkTo (c : TreeCell Define) (old child : Option Nat) : TreeCell Define :=
  if c.left = old then { c with left := child }
  else { c with right := child }

theorem relink_spec {up cur : Nat} (hUp : h up = some u)
    (hLink : u.left = some cur ∨ u.right = some cur) (child : Option Nat) :
    relink h up cur child = some (h.put up (linkTo u (some cur) child)) := by
  unfold relink linkTo
  rw [hUp, bind_eq_bind, bind_some]
  by_cases hLeft : u.left = some cur
  · rw [if_pos hLeft, if_pos hLeft]
  · rw [if_neg hLeft, if_neg hLeft, if_pos (hLink.resolve_left hLeft)]

/- What is above a subtree points to its root. -/
def Above (s : MacroState) (child : Option Nat) : Option Nat → Prop
| none => s.defTable = child
| some up => ∃ u, s.heap up = some u ∧
    (u.left = child ∨ (u.left ≠ child ∧ u.right = child))

/- What is above a subtree points to another root. -/
def Relinked (s s' : MacroState) (old child : Option Nat) : Option Nat → Prop
| none => s'.defTable = child
| some up => s'.defTable = s.defTable ∧
    ∀ u, s.heap up = some u → s'.heap up = some (linkTo u old child)

theorem Relinked.same {s s' : MacroState} {child up : Option Nat} (hAbove : Above s child up)
    (hTable : s'.defTable = s.defTable) (hCell : ∀ a, up = some a → s'.heap a = s.heap a) :
    Relinked s s' child child up := by
  cases up with
  | none => exact hTable.trans hAbove
  | some a =>
    refine ⟨hTable, ?_⟩
    intro u hU
    rcases hAbove with ⟨v, hV, hLink⟩
    rw [hCell a rfl, hU]
    rw [hU, Option.some.injEq] at hV
    unfold linkTo
    rcases hLink with hLeft | ⟨hLeft, hRight⟩
    · rw [hV, if_pos hLeft, ← hLeft]
    · rw [hV, if_neg hLeft, ← hRight]

----
-- Removal
----

theorem relinked_below {s s' : MacroState} {up : Nat} {old child : Option Nat}
    (hUp : s.heap up = some u) (hTable : s'.defTable = s.defTable)
    (hCell : s'.heap up = some (linkTo u old child)) : Relinked s s' old child (some up) := by
  refine ⟨hTable, ?_⟩
  intro v hV
  rw [hUp, Option.some.injEq] at hV
  rw [hCell, hV]

/- The right subtree is hung into the left one, which gets
   another parent. -/
theorem hangRight_setUp {up upR : Option Nat} (hL : l.Rep h up) (hR : r.Rep h upR)
    (hNodup : (l.addresses ++ r.addresses).Nodup) {left right : Nat} (hLeft : l.root = some left)
    (hRight : r.root = some right) {fuel : Nat} (hFuel : l.size ≤ fuel) :
    ∃ h', hangRight h fuel left right = some h' ∧
      (l.hang r).Rep h' up ∧
      (l.hang r).addresses.Nodup ∧
      (l.hang r).root = some left ∧
      ∀ b, b ∉ l.addresses → b ∉ r.addresses → h' b = h b := by
  rcases hangRight_spec hL hR hNodup hLeft hRight hFuel with ⟨h', hHang, hRep', hSame⟩
  refine ⟨h', hHang, hRep', ?_, root_hang_of_root hLeft r, ?_⟩
  · rw [addresses_hang]
    exact hNodup
  · intro b hBL hBR
    apply hSame b hBL
    rintro rfl
    exact hBR (root_mem_addresses hRight)

/- The root of a tree leaves the table: its subtrees take its
   place. -/
theorem unlink_top (hRep : (node l a x r).Rep s.heap none)
    (hNodup : (node l a x r).addresses.Nodup) (hFuel : l.size ≤ s.next) :
    ∃ s', s.unlink a = some s' ∧
      (l.hang r).Rep s'.heap none ∧
      s'.defTable = (l.hang r).root ∧
      s'.next = s.next ∧
      ∀ b, b ∉ (node l a x r).addresses →
        s'.heap b = s.heap b := by
  rcases hRep with ⟨hCell, hLeft, hRight⟩
  rcases nodup_node hNodup with ⟨_, _, hNL, hNR, hDisj⟩
  simp only [mem_addresses_node, not_or]
  cases hL : l.root with
  | none =>
    rw [hL] at hCell
    cases hR : r.root with
    | none =>
      rw [hR] at hCell
      rw [eq_nil_of_root hL, eq_nil_of_root hR]
      refine ⟨{ s with defTable := none }, ?_, trivial, rfl, rfl, fun _ _ => rfl⟩
      unfold unlink
      rw [hCell]
      rfl
    | some right =>
      rw [hR] at hCell
      rcases setUp_spec hRight hNR hR none with ⟨h', hUp, hRep', hSame⟩
      rw [eq_nil_of_root hL]
      refine ⟨{ s with heap := h', defTable := some right }, ?_, hRep', hR.symm, rfl, ?_⟩
      · unfold unlink
        grind
      · rintro b ⟨_, _, hB⟩
        exact hSame b (ne_root_of_not_mem hR hB)
  | some left =>
    rw [hL] at hCell
    cases hR : r.root with
    | none =>
      rw [hR] at hCell
      rcases setUp_spec hLeft hNL hL none with ⟨h', hUp, hRep', hSame⟩
      rw [eq_nil_of_root hR, hang_nil]
      refine ⟨{ s with heap := h', defTable := some left }, ?_, hRep', hL.symm, rfl, ?_⟩
      · unfold unlink
        grind
      · rintro b ⟨hB, _, _⟩
        exact hSame b (ne_root_of_not_mem hL hB)
    | some right =>
      rw [hR] at hCell
      have hApart : (l.addresses ++ r.addresses).Nodup :=
        List.nodup_append.mpr ⟨hNL, hNR, fun b hB c hC hEq => hDisj b hB (hEq ▸ hC)⟩
      rcases hangRight_setUp hLeft hRight hApart hL hR hFuel with
        ⟨h₁, hHang, hRep₁, hN₁, hRoot₁, hSame₁⟩
      rcases setUp_spec hRep₁ hN₁ hRoot₁ none with ⟨h₂, hUp, hRep₂, hSame₂⟩
      refine ⟨{ s with heap := h₂, defTable := some left }, ?_, hRep₂, hRoot₁.symm, rfl, ?_⟩
      · unfold unlink
        grind
      · rintro b ⟨hBL, _, hBR⟩
        change h₂ b = s.heap b
        rw [hSame₂ b (ne_root_of_not_mem hL hBL), hSame₁ b hBL hBR]

/- A cell below another one leaves the table. -/
theorem unlink_inner {a up : Nat} (hRep : (node l a x r).Rep s.heap (some up))
    (hNodup : (node l a x r).addresses.Nodup) (hFuel : l.size ≤ s.next) (hUp : s.heap up = some u)
    (hLink : u.left = some a ∨ u.right = some a) (hOut : up ∉ (node l a x r).addresses) :
    ∃ s', s.unlink a = some s' ∧
      (l.hang r).Rep s'.heap (some up) ∧
      s'.heap up = some (linkTo u (some a) (l.hang r).root) ∧
      s'.defTable = s.defTable ∧
      s'.next = s.next ∧
      ∀ b, b ∉ (node l a x r).addresses → b ≠ up →
        s'.heap b = s.heap b := by
  rcases hRep with ⟨hCell, hLeft, hRight⟩
  rcases nodup_node hNodup with ⟨_, _, hNL, hNR, hDisj⟩
  simp only [mem_addresses_node, not_or]
  rw [mem_addresses_node, not_or, not_or] at hOut
  rcases hOut with ⟨hUpL, _, hUpR⟩
  have hAbove : ∀ {h : TreeHeap Define} {v : PTree Define}
      {c : TreeCell Define} {p : Option Nat},
      v.Rep h p → up ∉ v.addresses → v.Rep (h.put up c) p := by
    intro h v c p hV hNot
    apply hV.frame
    intro b hB
    exact put_other _ _ (ne_of_mem_of_not_mem hB hNot)
  cases hL : l.root with
  | none =>
    rw [hL] at hCell
    rw [eq_nil_of_root hL, hang]
    cases hR : r.root with
    | none =>
      rw [hR] at hCell
      rw [eq_nil_of_root hR]
      have hRel := relink_spec hUp hLink none
      refine ⟨⟨s.heap.put up (linkTo u (some a) none), s.defTable,
        s.next⟩, ?_, trivial, put_same _ _ _, rfl, rfl,
        fun b _ hNe => put_other _ _ hNe⟩
      unfold unlink
      grind
    | some right =>
      rw [hR] at hCell
      have hRel := relink_spec hUp hLink (some right)
      rcases setUp_spec (hAbove hRight hUpR) hNR hR (some up) with ⟨h', hSet, hRep', hSame⟩
      refine ⟨{ s with heap := h' }, ?_, hRep', ?_, rfl, rfl, ?_⟩
      · unfold unlink
        rw [hCell]
        simp only [bind_eq_bind, bind_some]
        rw [hRel, bind_some, hSet]
        rfl
      · exact (hSame up (ne_root_of_not_mem hR hUpR)).trans (put_same _ _ _)
      · rintro b ⟨_, _, hB⟩ hNe
        exact (hSame b (ne_root_of_not_mem hR hB)).trans (put_other _ _ hNe)
  | some left =>
    rw [hL] at hCell
    cases hR : r.root with
    | none =>
      rw [hR] at hCell
      have hRel := relink_spec hUp hLink (some left)
      rcases setUp_spec (hAbove hLeft hUpL) hNL hL (some up) with ⟨h', hSet, hRep', hSame⟩
      rw [eq_nil_of_root hR, hang_nil]
      refine ⟨{ s with heap := h' }, ?_, hRep', ?_, rfl, rfl, ?_⟩
      · unfold unlink
        rw [hCell]
        simp only [bind_eq_bind, bind_some]
        rw [hRel, bind_some, hSet]
        rfl
      · rw [hL]
        exact (hSame up (ne_root_of_not_mem hL hUpL)).trans (put_same _ _ _)
      · rintro b ⟨hB, _, _⟩ hNe
        exact (hSame b (ne_root_of_not_mem hL hB)).trans (put_other _ _ hNe)
    | some right =>
      rw [hR] at hCell
      have hApart : (l.addresses ++ r.addresses).Nodup :=
        List.nodup_append.mpr ⟨hNL, hNR, fun b hB c hC hEq => hDisj b hB (hEq ▸ hC)⟩
      rcases hangRight_setUp hLeft hRight hApart hL hR hFuel with
        ⟨h₁, hHang, hRep₁, hN₁, hRoot₁, hSame₁⟩
      have hUp₁ : h₁ up = some u := (hSame₁ up hUpL hUpR).trans hUp
      have hRel := relink_spec hUp₁ hLink (some left)
      have hUpIn : up ∉ (l.hang r).addresses := by
        rw [addresses_hang, List.mem_append]
        exact not_or_intro hUpL hUpR
      rcases setUp_spec (hAbove hRep₁ hUpIn) hN₁ hRoot₁ (some up) with ⟨h₂, hSet, hRep₂, hSame₂⟩
      refine ⟨{ s with heap := h₂ }, ?_, hRep₂, ?_, rfl, rfl, ?_⟩
      · unfold unlink
        rw [hCell]
        simp only [bind_eq_bind, bind_some]
        rw [hHang, bind_some, hRel, bind_some, hSet]
        rfl
      · rw [hRoot₁]
        exact (hSame₂ up (ne_root_of_not_mem hL hUpL)).trans (put_same _ _ _)
      · rintro b ⟨hBL, _, hBR⟩ hNe
        change h₂ b = s.heap b
        rw [hSame₂ b (ne_root_of_not_mem hL hBL), put_other _ _ hNe, hSame₁ b hBL hBR]

/- The cell that a search finds leaves the table. -/
theorem unlink_spec {name : CText} (hFind : t.find Define.name name = some (a, x))
    (hRep : t.Rep s.heap up) (hNodup : t.addresses.Nodup)
    (hFuel : t.size ≤ s.next) (hAbove : Above s t.root up)
    (hOut : ∀ p, up = some p → p ∉ t.addresses) :
    ∃ s', s.unlink a = some s' ∧
      (t.delete Define.name name).Rep s'.heap up ∧
      Relinked s s' t.root (t.delete Define.name name).root up ∧
      s'.next = s.next ∧
      ∀ b, b ∉ t.addresses → up ≠ some b →
        s'.heap b = s.heap b := by
  induction t generalizing up with
  | nil => cases hFind
  | node l b y r ihL ihR =>
    have hNode := hRep
    rcases hRep with ⟨hCell, hLeft, hRight⟩
    rcases nodup_node hNodup with ⟨hBL, hBR, hNL, hNR, hDisj⟩
    rw [find] at hFind
    rw [delete]
    rw [size] at hFuel
    have hSmallL : l.size ≤ s.next := by omega
    have hSmallR : r.size ≤ s.next := by omega
    split_ifs at hFind ⊢ with hEq hLt
    · cases hFind
      cases up with
      | none =>
        rcases unlink_top hNode hNodup hSmallL with ⟨s', hUnlink, hRep', hTable, hNext, hSame⟩
        exact ⟨s', hUnlink, hRep', hTable, hNext, fun c hC _ => hSame c hC⟩
      | some p =>
        rcases hAbove with ⟨u, hU, hLink⟩
        have hLink' : u.left = some a ∨ u.right = some a := hLink.imp_right And.right
        rcases unlink_inner hNode hNodup hSmallL hU hLink'
          (hOut p rfl) with
          ⟨s', hUnlink, hRep', hCell', hTable, hNext, hSame⟩
        refine ⟨s', hUnlink, hRep', relinked_below hU hTable hCell', hNext, ?_⟩
        intro c hC hNe
        exact hSame c hC (fun h => hNe (h ▸ rfl))
    · rcases ihL hFind hLeft hNL hSmallL
        ⟨_, hCell, Or.inl rfl⟩
        (fun p hP => Option.some.inj hP ▸ hBL) with
        ⟨s', hUnlink, hRep', ⟨hTable, hLink⟩, hNext, hSame⟩
      have hSame' : ∀ c, c ∉ (node l b y r).addresses →
          s'.heap c = s.heap c := by
        intro c hC
        have hNe := ne_of_not_mem_node hC
        rw [mem_addresses_node, not_or] at hC
        exact hSame c hC.1 (fun h => hNe (Option.some.inj h).symm)
      refine ⟨s', hUnlink, ⟨?_, hRep', ?_⟩, ?_, hNext, fun c hC _ => hSame' c hC⟩
      · rw [hLink _ hCell]
        unfold linkTo
        rw [if_pos rfl]
      · apply hRight.frame
        intro c hC
        exact hSame c (fun hIn => hDisj c hIn hC) (fun h => hBR (Option.some.inj h ▸ hC))
      · exact Relinked.same hAbove hTable (fun c hC => hSame' c (hOut c hC))
    · have hRoot : l.root ≠ r.root := by
        intro hSameRoot
        rcases hR : r.root with _ | c
        · rw [eq_nil_of_root hR] at hFind
          cases hFind
        · exact hDisj c (root_mem_addresses (hSameRoot.trans hR)) (root_mem_addresses hR)
      rcases ihR hFind hRight hNR hSmallR
        ⟨_, hCell, Or.inr ⟨hRoot, rfl⟩⟩
        (fun p hP => Option.some.inj hP ▸ hBR) with
        ⟨s', hUnlink, hRep', ⟨hTable, hLink⟩, hNext, hSame⟩
      have hSame' : ∀ c, c ∉ (node l b y r).addresses →
          s'.heap c = s.heap c := by
        intro c hC
        have hNe := ne_of_not_mem_node hC
        rw [mem_addresses_node, not_or, not_or] at hC
        exact hSame c hC.2.2 (fun h => hNe (Option.some.inj h).symm)
      refine ⟨s', hUnlink, ⟨?_, ?_, hRep'⟩, ?_, hNext, fun c hC _ => hSame' c hC⟩
      · rw [hLink _ hCell]
        unfold linkTo
        rw [if_neg hRoot]
      · apply hLeft.frame
        intro c hC
        exact hSame c (hDisj c hC) (fun h => hBL (Option.some.inj h ▸ hC))
      · exact Relinked.same hAbove hTable (fun c hC => hSame' c (hOut c hC))

end MacroState

end EpicSim
