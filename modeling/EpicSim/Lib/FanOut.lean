import Mathlib.Data.List.Nodup

/-
  Lists threaded through their elements, one for each of many
  heads.

  Every element has one cell for the element after it, so that
  it is on one list at a time.  A new element is put in front,
  and the cell before an element is searched for from the head
  when it is taken out.
-/

----
-- Operations
----

/- The first element of each head, and the element after each
   other one. -/
structure FanOut (D P : Type) where
  out : D → Option P
  next : P → Option P

namespace FanOut

open Function (update update_of_ne update_self)

variable {D P : Type} [DecidableEq D] [DecidableEq P]

/- Put an element in front. -/
def push (s : FanOut D P) (d : D) (p : P) : FanOut D P where
  out := update s.out d (some p)
  next := update s.next p (s.out d)

/- Search for the cell that leads to an element; none when out
   of fuel. -/
def scan (next : P → Option P) (p : P) : Nat → Option P → Option (Option P)
| 0, _ => none
| _ + 1, none => some none
| fuel + 1, some cur =>
  if next cur = some p then some (some cur)
  else scan next p fuel (next cur)

/- Take out an element. -/
def remove (fuel : Nat) (s : FanOut D P) (d : D) (p : P) : Option (FanOut D P) :=
  if s.out d = some p then
    some
      { out := update s.out d (s.next p)
        next := update s.next p none }
  else
    match s.out d with
    | none => some { s with next := update s.next p none }
    | some cur =>
      (scan s.next p fuel (some cur)).map fun
        | none => { s with next := update s.next p none }
        | some cur =>
          { s with
            next := update (update s.next cur (s.next p)) p none }

----
-- Lists
----

/- The elements from a place on. -/
def Chain (next : P → Option P) : Option P → List P → Prop
| start, [] => start = none
| start, p :: L => start = some p ∧ Chain next (next p) L

/- The elements of each head are a list, and no element is on
   two of them. -/
structure Holds (s : FanOut D P) (fan : D → List P) : Prop where
  chain : ∀ d, Chain s.next (s.out d) (fan d)
  nodup : ∀ d, (fan d).Nodup
  apart : ∀ d d' p, p ∈ fan d → p ∈ fan d' → d = d'

variable {start : Option P} {L : List P} {next : P → Option P}
  {p : P} {fan : D → List P} {pre post : List P} {c : P}
  {s : FanOut D P}

omit [DecidableEq P] in
/- Only the cells of the elements matter. -/
theorem chain_frame {next next' : P → Option P} (hSame : ∀ p ∈ L, next' p = next p)
    (h : Chain next start L) : Chain next' start L := by
  induction L generalizing start with
  | nil => exact h
  | cons p L ih =>
    rcases h with ⟨hStart, hRest⟩
    refine ⟨hStart, ?_⟩
    rw [hSame p List.mem_cons_self]
    exact ih (fun q hq => hSame q (List.mem_cons_of_mem p hq)) hRest

omit [DecidableEq P] in
theorem chain_head (h : Chain next start L) : start = L.head? := by
  cases L with
  | nil => exact h
  | cons p L => exact h.1

omit [DecidableEq P] in
/- A place leads to one list. -/
theorem chain_unique {L L' : List P} (h : Chain next start L) (h' : Chain next start L') :
    L = L' := by
  induction L generalizing start L' with
  | nil =>
    cases L' with
    | nil => rfl
    | cons p L' => cases h.symm.trans h'.1
  | cons p L ih =>
    cases L' with
    | nil => cases h.1.symm.trans h'
    | cons p' L' =>
      have hSame : p = p' := Option.some.inj (h.1.symm.trans h'.1)
      subst hSame
      rw [ih h.2 h'.2]

theorem chain_update (hOut : p ∉ L) (val : Option P) (h : Chain next start L) :
    Chain (update next p val) start L :=
  chain_frame (fun q hq => update_of_ne (by
    rintro rfl
    exact hOut hq) _ _) h

/- A node is linked behind the last one. -/
theorem chain_concat {x y : P} (h : Chain next start (L ++ [x])) (hOnce : (L ++ [x]).Nodup)
    (hNew : y ∉ L ++ [x]) (hEnd : next y = none) :
    Chain (update next x (some y)) start (L ++ [x, y]) := by
  induction L generalizing start with
  | nil =>
    have hApart : y ≠ x := by simpa using hNew
    refine ⟨h.1, by rw [update_self], ?_⟩
    change update next x (some y) y = none
    rw [update_of_ne hApart, hEnd]
  | cons z L ih =>
    rw [List.cons_append, List.nodup_cons] at hOnce
    rw [List.cons_append, List.mem_cons, not_or] at hNew
    have hApart : z ≠ x := by grind
    refine ⟨h.1, ?_⟩
    rw [update_of_ne hApart]
    exact ih h.2 hOnce.2 hNew.2

omit [DecidableEq D] [DecidableEq P] in
theorem Holds.congr {s s' : FanOut D P} (h : s.Holds fan) (hOut : s'.out = s.out)
    (hNext : s'.next = s.next) : s'.Holds fan := by
  rcases s with ⟨out, next⟩
  rcases s' with ⟨out', next'⟩
  obtain rfl : out' = out := hOut
  obtain rfl : next' = next := hNext
  exact h

variable {s : FanOut D P} {p : P} {fuel : Nat} {d : D}

/- A new element in front of a list. -/
theorem Holds.push {fan : D → List P} (h : s.Holds fan) (d : D)
    (hFree : ∀ d', p ∉ fan d') : (s.push d p).Holds (update fan d (p :: fan d)) := by
  constructor
  · intro d'
    by_cases hSame : d' = d
    · subst hSame
      simp only [FanOut.push]
      rw [update_self, update_self]
      refine ⟨rfl, ?_⟩
      rw [update_self]
      exact chain_update (hFree d') _ (h.chain d')
    · simp only [FanOut.push]
      rw [update_of_ne hSame, update_of_ne hSame]
      exact chain_update (hFree d') _ (h.chain d')
  · intro d'
    by_cases hSame : d' = d
    · subst hSame
      rw [update_self]
      exact List.nodup_cons.mpr ⟨hFree d', h.nodup d'⟩
    · rw [update_of_ne hSame]
      exact h.nodup d'
  · have hCases : ∀ d' q,
        q ∈ update fan d (p :: fan d) d' →
          (q = p ∧ d' = d) ∨ q ∈ fan d' := by grind
    intro d₁ d₂ q h₁ h₂
    rcases hCases d₁ q h₁ with ⟨hq, hd₁⟩ | hOld₁
    · grind
    · rcases hCases d₂ q h₂ with ⟨hq, _⟩ | hOld₂
      · exact absurd (hq ▸ hOld₁) (hFree d₁)
      · exact h.apart d₁ d₂ q hOld₁ hOld₂

----
-- Taking Out
----

omit [DecidableEq P] in
theorem chain_start (h : Chain next start (p :: L)) : start = some p := h.1

/- The search stops at the cell before the element. -/
theorem scan_spec (h : Chain next start (pre ++ c :: p :: post))
    (hNodup : (pre ++ c :: p :: post).Nodup) (hFuel : pre.length < fuel) :
    scan next p fuel start = some (some c) := by
  induction pre generalizing start fuel with
  | nil =>
    obtain ⟨fuel, rfl⟩ := Nat.exists_eq_succ_of_ne_zero (Nat.ne_of_gt hFuel)
    rw [chain_start h, scan, if_pos (chain_start h.2)]
  | cons q pre ih =>
    obtain ⟨fuel, rfl⟩ :=
      Nat.exists_eq_succ_of_ne_zero (Nat.ne_of_gt (Nat.lt_of_le_of_lt (Nat.zero_le _) hFuel))
    have hRest : Chain next (next q) (pre ++ c :: p :: post) := h.2
    have hNot : next q ≠ some p := by
      intro hNext
      cases pre with
      | nil =>
        have hSame := hNext.symm.trans (chain_start hRest)
        simp [Option.some.inj hSame] at hNodup
      | cons q' pre =>
        have hSame := hNext.symm.trans (chain_start hRest)
        simp [← Option.some.inj hSame] at hNodup
    have hStart : start = some q := h.1
    rw [hStart, scan, if_neg hNot]
    exact ih hRest (List.nodup_cons.mp hNodup).2 (Nat.lt_of_succ_lt_succ hFuel)

/- The cell before the element leads to the one behind it. -/
theorem chain_unlink (h : Chain next start (pre ++ c :: p :: post))
    (hOnce : (pre ++ c :: p :: post).Nodup) :
    Chain (update next c (next p)) start (pre ++ c :: post) := by
  induction pre generalizing start with
  | nil =>
    rcases h with ⟨hStart, -, hPost⟩
    rw [List.nil_append, List.nodup_cons, List.mem_cons, not_or] at hOnce
    refine ⟨hStart, ?_⟩
    rw [update_self]
    refine chain_frame (fun y hy => update_of_ne ?_ _ _) hPost
    rintro rfl
    exact hOnce.1.2 hy
  | cons q pre ih =>
    rw [List.cons_append, List.nodup_cons] at hOnce
    have hApart : q ≠ c := by grind
    refine ⟨h.1, ?_⟩
    rw [update_of_ne hApart]
    exact ih h.2 hOnce.2

/- A list without an element, whose cell is cleared. -/
theorem chain_splice (h : Chain next start (pre ++ c :: p :: post))
    (hNodup : (pre ++ c :: p :: post).Nodup) :
    Chain (update (update next c (next p)) p none) start (pre ++ c :: post) := by
  refine chain_update (fun hMem => ?_) _ (chain_unlink h hNodup)
  rw [List.append_cons, List.nodup_middle, List.nodup_cons, ← List.append_cons] at hNodup
  exact hNodup.1 hMem

/- What taking out an element changes: its own cell, and the
   place that has led to it. -/
structure Removed (s s' : FanOut D P) (d : D) (L : List P) (p : P) : Prop where
  cell : s'.next p = none
  cells : ∀ q, q ≠ p → ¬(q ∈ L ∧ s.next q = some p) → s'.next q = s.next q
  heads : ∀ d', ¬(d' = d ∧ s.out d' = some p) → s'.out d' = s.out d'

/- The lists without an element of one of them. -/
theorem Holds.removed {s' : FanOut D P} (h : s.Holds fan)
    (hIn : p ∈ fan d) (hRemoved : Removed s s' d (fan d) p)
    (hChain : Chain s'.next (s'.out d) ((fan d).erase p)) :
    s'.Holds (update fan d ((fan d).erase p)) := by
  constructor
  · intro d'
    by_cases hSame : d' = d
    · subst hSame
      rw [update_self]
      exact hChain
    · rw [update_of_ne hSame, hRemoved.heads d' (fun hHead => hSame hHead.1)]
      refine chain_frame (fun q hq => ?_) (h.chain d')
      refine hRemoved.cells q ?_ ?_
      · rintro rfl
        exact hSame (h.apart d' d q hq hIn)
      · rintro ⟨hQ, _⟩
        exact hSame (h.apart d' d q hq hQ)
  · intro d'
    by_cases hSame : d' = d
    · subst hSame
      rw [update_self]
      exact (h.nodup d').erase p
    · rw [update_of_ne hSame]
      exact h.nodup d'
  · have hOld : ∀ d' q,
        q ∈ update fan d ((fan d).erase p) d' →
          q ∈ fan d' := by grind
    exact fun d₁ d₂ q h₁ h₂ => h.apart d₁ d₂ q (hOld d₁ q h₁) (hOld d₂ q h₂)

omit [DecidableEq P] in
theorem chain_next (h : Chain next start (pre ++ c :: p :: post)) : next c = some p := by
  induction pre generalizing start with
  | nil => exact chain_start h.2
  | cons q pre ih => exact ih h.2

/- The first element is taken out. -/
theorem remove_first (hChain : Chain s.next (s.out d) (p :: post))
    (hNodup : (p :: post).Nodup) (fuel : Nat) :
    ∃ s', remove fuel s d p = some s' ∧
      Removed s s' d (p :: post) p ∧
      Chain s'.next (s'.out d) post := by
  have hPost : p ∉ post := (List.nodup_cons.mp hNodup).1
  refine ⟨_, if_pos hChain.1, ⟨update_self .., ?_, ?_⟩, ?_⟩
  · exact fun q hq _ => update_of_ne hq _ _
  · intro d' hOther
    refine update_of_ne (fun hSame => hOther ?_) _ _
    subst hSame
    exact ⟨rfl, hChain.1⟩
  · simp only
    rw [update_self]
    exact chain_update hPost _ hChain.2

/- An element behind another one is taken out. -/
theorem remove_inner (hChain : Chain s.next (s.out d) (pre ++ c :: p :: post))
    (hNodup : (pre ++ c :: p :: post).Nodup) (hFuel : pre.length < fuel) :
    ∃ s', remove fuel s d p = some s' ∧
      Removed s s' d (pre ++ c :: p :: post) p ∧
      Chain s'.next (s'.out d) (pre ++ c :: post) := by
  have hHead : s.out d ≠ some p := by
    intro hHead
    cases pre with
    | nil =>
      have hSame := (chain_start hChain).symm.trans hHead
      simp [Option.some.inj hSame] at hNodup
    | cons q pre =>
      have hSame := (chain_start hChain).symm.trans hHead
      simp [Option.some.inj hSame] at hNodup
  have hSome : remove fuel s d p =
      some
        { s with
          next := update (update s.next c (s.next p)) p none } := by
    have hScan := scan_spec hChain hNodup hFuel
    unfold remove
    rw [if_neg hHead]
    cases hStart : s.out d with
    | none =>
      rw [hStart] at hChain
      cases pre <;> cases chain_start hChain
    | some cur =>
      rw [hStart] at hScan
      simp only [hScan]
      rfl
  refine ⟨_, hSome, ⟨update_self .., ?_, fun _ _ => rfl⟩, chain_splice hChain hNodup⟩
  intro q hq hOther
  simp only
  rw [update_of_ne hq, update_of_ne]
  rintro rfl
  exact hOther ⟨by simp, chain_next hChain⟩

/- An element is taken out of the list of its head, with fuel
   for the length of the list. -/
theorem Holds.remove (h : s.Holds fan) (hIn : p ∈ fan d)
    (hFuel : (fan d).length ≤ fuel) :
    ∃ s', remove fuel s d p = some s' ∧
      Removed s s' d (fan d) p ∧
      s'.Holds (update fan d ((fan d).erase p)) := by
  have hChain := h.chain d
  have hNodup := h.nodup d
  obtain ⟨pre, post, hList⟩ := List.append_of_mem hIn
  rcases List.eq_nil_or_concat pre with hFirst | ⟨pre', c, hPre⟩
  · rw [hFirst, List.nil_append] at hList
    rw [hList] at hChain hNodup
    obtain ⟨s', hSome, hRemoved, hRest⟩ := remove_first hChain hNodup fuel
    rw [← hList] at hRemoved
    refine ⟨s', hSome, hRemoved, h.removed hIn hRemoved ?_⟩
    rw [hList, List.erase_cons_head]
    exact hRest
  · rw [hPre, List.concat_eq_append, List.append_assoc, List.singleton_append] at hList
    rw [hList] at hChain hNodup hFuel
    have hLength : pre'.length < fuel := by grind
    obtain ⟨s', hSome, hRemoved, hRest⟩ := remove_inner hChain hNodup hLength
    rw [← hList] at hRemoved
    refine ⟨s', hSome, hRemoved, h.removed hIn hRemoved ?_⟩
    grind

/- More fuel changes nothing. -/
theorem scan_mono {fuel' : Nat} (hLe : fuel ≤ fuel') {start : Option P} {res : Option P}
    (h : scan next p fuel start = some res) : scan next p fuel' start = some res := by
  induction fuel generalizing start fuel' with
  | zero => cases h
  | succ fuel ih =>
    obtain ⟨more, rfl⟩ := Nat.exists_eq_add_of_le' hLe
    cases start with
    | none => exact h
    | some cur =>
      rw [scan] at h
      rw [← Nat.add_assoc, scan]
      grind

theorem remove_mono {fuel' : Nat} (hLe : fuel ≤ fuel') {s' : FanOut D P}
    (h : remove fuel s d p = some s') : remove fuel' s d p = some s' := by
  unfold remove at h ⊢
  split_ifs at h ⊢
  · exact h
  · cases hStart : s.out d with
    | none =>
      rw [hStart] at h
      exact h
    | some cur =>
      rw [hStart] at h
      rcases Option.map_eq_some_iff.mp h with ⟨res, hScan, hRes⟩
      simp only [scan_mono hLe hScan, Option.map_some, hRes]

end FanOut
