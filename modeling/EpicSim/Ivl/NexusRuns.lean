import EpicSim.Ivl.NexusRings

/-
  The nexuses partition the links: after any sequence of
  operations every connected link is on one circular list,
  the last link of the list and its nexus point to each
  other, and two links share a list exactly when the calls
  so far have connected them.
-/

namespace EpicSim

open Function (update_self update_of_ne update_apply update_idem update)
open Option (bind_eq_bind bind_some some_ne_none isSome_iff_exists some_inj ne_none_iff_exists')
open CircularList

variable {α ν : Type}

----
-- The Setters
----

theorem heap_of_list {s : LinkStore α ν} {n : ν} {t : α} (hn : s.list n = some t) :
    ∃ c, s.heap n = some c ∧ c.list_ = some t := by
  unfold LinkStore.list at hn
  rcases hHeap : s.heap n with _ | c
  · rw [hHeap] at hn
    cases hn
  · rw [hHeap] at hn
    exact ⟨c, rfl, hn⟩

section Setters

variable (s : LinkStore α ν) (l : α) (n : ν)

theorem list_setCell [DecidableEq ν] (c : Option (NexusCell α)) :
    (s.setCell n c).list = update s.list n (c.bind NexusCell.list_) := by
  funext m
  simp only [LinkStore.list, LinkStore.setCell]
  by_cases hm : m = n
  · rw [hm, update_self, update_self]
  · rw [update_of_ne hm, update_of_ne hm]
    rfl

theorem list_setNext [DecidableEq α] (p : Option α) : (s.setNext l p).list = s.list :=
  rfl

theorem list_setNexus [DecidableEq α] (p : Option ν) : (s.setNexus l p).list = s.list :=
  rfl

/- Deleting an empty nexus changes no list. -/
theorem deleteNexus_spec [DecidableEq ν]
    {c : NexusCell α} (hHeap : s.heap n = some c) (hEmpty : c.list_ = none) :
    s.deleteNexus n = some (s.setCell n none) := by
  unfold LinkStore.deleteNexus
  rw [hHeap]
  change (if c.list_ = none then some (s.setCell n none)
    else none) = _
  rw [if_pos hEmpty]

end Setters

variable [DecidableEq α] [DecidableEq ν] {s : LinkStore α ν} {ring : ν → List α}
  {owner : α → Option ν} {n m : ν} {x t r : α}

----
-- Connecting
----

/- The owners after a link and its ring joined a nexus. -/
def joinedOwner (owner : α → Option ν) (n : ν) (r y : α) : Option ν :=
  if y = r ∨ (owner r ≠ none ∧ owner y = owner r) then some n
  else owner y

namespace Rings

theorem newNexus (h : Rings s ring owner) (hFree : s.heap n = none) (hx : s.next_ x = none)
    (hLink : x ∈ s.links) :
    ∃ s', s.newNexus n x = some s' ∧
      s'.links = s.links ∧ (s'.heap n).isSome ∧
      Rings s' (update ring n [x]) (update owner x (some n)) := by
  have hn : s.list n = none := by
    unfold LinkStore.list
    rw [hFree]
    rfl
  refine ⟨((s.setCell n (some ⟨some x, .NO_GUESS, none⟩)).setNext
    x (some x)).setNexus x (some n), ?_, rfl, ?_, ?_⟩
  · rw [LinkStore.newNexus, if_pos hx]
  · simp [LinkStore.setCell, LinkStore.setNext, LinkStore.setNexus]
  · refine h.first hn hx hLink ?_ ?_ ?_ ?_
    · rfl
    · rfl
    · rfl
    · rw [list_setNexus, list_setNext, list_setCell]
      rfl

theorem joinedOwner_self (hr : owner r = some n) : joinedOwner owner n r = owner := by
  funext y
  unfold joinedOwner
  grind

theorem joinedOwner_unlinked (hr : owner r = none) :
    joinedOwner owner n r = update owner r (some n) := by
  funext y
  simp only [joinedOwner]
  grind

theorem joinedOwner_linked (hr : owner r = some m) :
    joinedOwner owner n r = fun y => if owner y = some m then some n else owner y := by
  funext y
  unfold joinedOwner
  grind

variable {c : NexusCell α}

section

variable (h : Rings s ring owner)

include h

/- A nexus without links is given those of another one. -/
theorem nexusConnect_empty (hCell : s.heap n = some c)
    (hEmpty : c.list_ = none) (hLink : r ∈ s.links) :
    ∃ s' ring', s.nexusConnect n r = some s' ∧
      s'.links = s.links ∧
      Rings s' ring' (joinedOwner owner n r) := by
  have hn : s.list n = none := by
    unfold LinkStore.list
    rw [hCell]
    exact hEmpty
  have hNot : owner r ≠ some n := by
    intro hr
    rcases h.list_of_owner hr with ⟨t, ht⟩
    rw [hn] at ht
    cases ht
  simp only [LinkStore.nexusConnect, h.linkedNexus,
    bind_eq_bind, bind_some, if_neg hNot, hCell, hEmpty]
  rcases hr : owner r with _ | m
  · have hNext := (h.linked r).mpr hr
    rw [if_pos hNext, joinedOwner_unlinked hr]
    refine ⟨_, _, rfl, rfl, h.first hn hNext hLink rfl rfl rfl ?_⟩
    rw [list_setNexus, list_setNext, list_setCell]
    rfl
  · have hNext : s.next_ r ≠ none := by
      rw [Ne, h.linked, hr]
      exact some_ne_none m
    rcases h.list_of_owner hr with ⟨u, hu⟩
    rcases heap_of_list hu with ⟨d, hOther, hLast⟩
    rw [if_neg hNext, joinedOwner_linked hr]
    simp only [bind_some, hOther, hLast]
    rw [deleteNexus_spec _ _ (update_self _ _ _) rfl]
    refine ⟨_, _, rfl, rfl, h.takeOver hn hu rfl rfl rfl ?_⟩
    rw [list_setCell, list_setCell, list_setNexus, list_setCell, update_idem]
    rfl

/- A link that is alone goes to the end of a nexus. -/
theorem nexusConnect_alone (hn : s.list n = some t) (hr : owner r = none)
    (hLink : r ∈ s.links) :
    ∃ s', s.nexusConnect n r = some s' ∧ s'.dir = s.dir ∧
      s'.links = s.links ∧
      Rings s' (update ring n (ring n ++ [r])) (update owner r (some n)) := by
  rcases heap_of_list hn with ⟨c, hCell, hLast⟩
  have hNext := (h.linked r).mpr hr
  have hNot : owner r ≠ some n := by
    rw [hr]
    exact (some_ne_none n).symm
  simp only [LinkStore.nexusConnect, h.linkedNexus,
    bind_eq_bind, bind_some, if_neg hNot, hCell, hLast]
  rw [if_pos hNext]
  refine ⟨_, rfl, rfl, rfl, h.append hn hNext hLink rfl rfl rfl ?_⟩
  rw [list_setCell]
  rfl

/- A nexus with links takes those of another one as well. -/
theorem nexusConnect_more (hCell : s.heap n = some c)
    (hLast : c.list_ = some t) (hNot : owner r ≠ some n) (hLink : r ∈ s.links) :
    ∃ s' ring', s.nexusConnect n r = some s' ∧
      s'.links = s.links ∧
      Rings s' ring' (joinedOwner owner n r) := by
  have hn : s.list n = some t := by
    unfold LinkStore.list
    rw [hCell]
    exact hLast
  rcases hr : owner r with _ | m
  · rw [joinedOwner_unlinked hr]
    rcases h.nexusConnect_alone hn hr hLink with ⟨s', hRun, -, hLinks, hRings⟩
    exact ⟨s', _, hRun, hLinks, hRings⟩
  · have hNext : s.next_ r ≠ none := by
      rw [Ne, h.linked, hr]
      exact some_ne_none m
    have hnm : n ≠ m := by
      rintro rfl
      exact hNot hr
    rcases h.list_of_owner hr with ⟨u, hu⟩
    rcases heap_of_list hu with ⟨d, hOther, hLastM⟩
    rw [hr] at hNot
    simp only [LinkStore.nexusConnect, h.linkedNexus, hr,
      bind_eq_bind, bind_some, if_neg hNot, hCell, hLast]
    rw [if_neg hNext, joinedOwner_linked hr]
    simp only [bind_some, hOther, hLastM]
    rw [deleteNexus_spec _ _ (update_self _ _ _) rfl]
    refine ⟨_, _, rfl, rfl, h.splice hnm hn hu rfl rfl rfl ?_⟩
    rw [list_setCell, list_setCell, list_setCell, update_idem]
    rfl

theorem nexusConnect (hHeap : (s.heap n).isSome) (hLink : r ∈ s.links) :
    ∃ s' ring', s.nexusConnect n r = some s' ∧
      s'.links = s.links ∧
      Rings s' ring' (joinedOwner owner n r) := by
  rcases isSome_iff_exists.mp hHeap with ⟨c, hCell⟩
  by_cases hr : owner r = some n
  · refine ⟨s, ring, ?_, rfl, ?_⟩
    · simp only [LinkStore.nexusConnect, h.linkedNexus, bind_eq_bind, bind_some, if_pos hr]
    · rw [joinedOwner_self hr]
      exact h
  · rcases hList : c.list_ with _ | t
    · exact h.nexusConnect_empty hCell hList hLink
    · exact h.nexusConnect_more hCell hList hr hLink

----
-- Unlinking
----

theorem nexusUnlink_alone (hCell : s.heap n = some c)
    (hLast : c.list_ = some t) (hx : ring n = [x]) :
    ∃ s' ring' d, s.nexusUnlink n x = some s' ∧
      s'.links = s.links ∧ s'.heap n = some d ∧
      Rings s' ring' (update owner x none) := by
  have hn : s.list n = some t := by
    unfold LinkStore.list
    rw [hCell]
    exact hLast
  have hQueued := h.queued n
  rw [hn, hx] at hQueued
  rcases hQueued with ⟨front, hEq, hRing⟩
  have hFront : [x] = [] ++ [x] := rfl
  rw [hFront] at hEq
  rcases List.append_inj' hEq rfl with ⟨rfl, hOne⟩
  obtain rfl : x = t := by simpa using hOne
  have hNext : s.next_ x = some x := by
    rw [h.next_eq]
    · exact congrArg some hRing.2
    · rw [h.owner_last hn]
      exact some_ne_none n
  have hNexus := (h.back x n).mpr hn
  simp only [LinkStore.nexusUnlink, bind_eq_bind, bind_some, hCell]
  rw [if_pos hNext, if_pos ⟨hNexus, hLast⟩]
  refine ⟨_, update ring n [], _, rfl, rfl, update_self _ _ _, ?_⟩
  refine h.leaveLast hx ?_ ?_ ?_ ?_
  · rfl
  · rfl
  · rfl
  · rw [list_setNext, list_setNexus, list_setCell]
    rfl

end

theorem nexusUnlink_more {p : α} {left right before : List α} (h : Rings s ring owner)
    (hCell : s.heap n = some c) (hLast : c.list_ = some t)
    (hRing : ring n = left ++ x :: right) (hBefore : t :: left = before ++ [p]) (hMore : p ≠ x) :
    ∃ s' ring' d, s.nexusUnlink n x = some s' ∧
      s'.links = s.links ∧ s'.heap n = some d ∧
      Rings s' ring' (update owner x none) := by
  have hn : s.list n = some t := by
    unfold LinkStore.list
    rw [hCell]
    exact hLast
  have hOwners : ∀ y, y ∈ ring n → s.next_ y = some (s.succ y) := by
    intro y hy
    apply h.next_eq
    rw [(h.mem n y).mp hy]
    exact some_ne_none n
  have hxMem : x ∈ ring n := by grind
  have hLeft : ∀ y ∈ before ++ [p], y ∈ ring n := by
    intro y hy
    rw [← hBefore] at hy
    rcases List.mem_cons.mp hy with rfl | hy
    · exact h.last_mem hn
    · rw [hRing]
      exact List.mem_append_left _ hy
  have hQueued := h.queued n
  rw [hn, hRing] at hQueued
  have hOnce : x ∉ left := by
    have hNodup := queued_nodup hQueued
    rw [List.nodup_middle, List.nodup_cons] at hNodup
    exact fun hMem => hNodup.1 (List.mem_append_left _ hMem)
  have hWalk := queued_walk hQueued
  rw [hBefore] at hWalk
  have hNot : s.next_ x ≠ some x := by
    intro hSelf
    rw [hOwners x hxMem, some_inj] at hSelf
    have hAlone := queued_self hQueued (List.mem_append_right _ List.mem_cons_self) hSelf
    have hpOnly : p ∈ left ++ x :: right := by grind
    rw [hAlone, List.mem_singleton] at hpOnly
    exact hMore hpOnly
  have hPrev : s.prevLoop x s.links.card t = some p := by
    apply prevLoop_spec hWalk
    · apply segment_before hWalk
      rw [← hBefore]
      exact hOnce
    · intro y hy
      exact hOwners y (hLeft y hy)
    · have hBound := h.length_le n
      have hSame := congrArg List.length hBefore
      grind
  simp only [LinkStore.nexusUnlink, bind_eq_bind, bind_some, hCell, if_neg hNot, hLast, hPrev]
  by_cases htx : t = x
  · have hNexus : s.nexus_ x = some n := by
      rw [← htx]
      exact (h.back t n).mpr hn
    rw [if_pos htx]
    change ∃ s' ring' d, (if s.nexus_ x = some n then _
      else none) = some s' ∧ _
    rw [if_pos hNexus]
    refine ⟨_, update ring n (left ++ right), _, rfl, rfl, update_self _ _ _, ?_⟩
    refine h.leave hn hRing hBefore hMore ?_ ?_ ?_ ?_
    · rfl
    · rfl
    · rw [if_pos htx]
      rfl
    · rw [list_setNext, list_setNexus, list_setNexus, list_setCell, if_pos htx]
      rfl
  · rw [if_neg htx]
    refine ⟨_, update ring n (left ++ right), _, rfl, rfl, update_self _ _ _, ?_⟩
    refine h.leave hn hRing hBefore hMore ?_ ?_ ?_ ?_
    · rfl
    · rfl
    · rw [if_neg htx]
      rfl
    · rw [list_setNext, list_setNexus, list_setCell, if_neg htx]
      rfl

theorem nexusUnlink (h : Rings s ring owner) (hx : owner x = some n) :
    ∃ s' ring' d, s.nexusUnlink n x = some s' ∧
      s'.links = s.links ∧ s'.heap n = some d ∧
      Rings s' ring' (update owner x none) := by
  rcases h.list_of_owner hx with ⟨t, hn⟩
  rcases heap_of_list hn with ⟨c, hCell, hLast⟩
  have hMem := (h.mem n x).mpr hx
  rcases List.append_of_mem hMem with ⟨left, right, hRing⟩
  rcases List.eq_nil_or_concat (t :: left) with hNil | ⟨before, p, hBefore⟩
  · cases hNil
  · rw [List.concat_eq_append] at hBefore
    by_cases hMore : p = x
    · apply h.nexusUnlink_alone hCell hLast
      have hQueued := h.queued n
      rw [hn, hRing] at hQueued
      have hWalk := queued_walk hQueued
      rw [hBefore, hMore] at hWalk
      rw [hRing]
      exact queued_self hQueued (List.mem_append_right _ List.mem_cons_self) (segment_last hWalk)
    · exact h.nexusUnlink_more hCell hLast hRing hBefore hMore

theorem linkUnlink (h : Rings s ring owner) (x : α) :
    ∃ s' ring' owner', s.linkUnlink x = some s' ∧
      Rings s' ring' owner' ∧
      ∀ a b, SameRing owner' a b ↔
        a = b ∨ (SameRing owner a b ∧ a ≠ x ∧ b ≠ x) := by
  rcases hx : owner x with _ | n
  · have hNext := (h.linked x).mpr hx
    refine ⟨s, ring, owner, ?_, h, ?_⟩
    · unfold LinkStore.linkUnlink LinkStore.is_linked
      rw [hNext]
      rfl
    · unfold SameRing
      grind
  · have hNext : s.next_ x = some (s.succ x) := by
      apply h.next_eq
      rw [hx]
      exact some_ne_none n
    by_cases hSelf : s.succ x = x
    · -- the only link of a nexus stays on it
      have hAlone := queued_self (h.queued n) ((h.mem n x).mpr hx) hSelf
      have hOnly : ∀ y, owner y = some n → y = x := by
        intro y hy
        rw [← h.mem, hAlone] at hy
        exact List.mem_singleton.mp hy
      refine ⟨s, ring, owner, ?_, h, ?_⟩
      · unfold LinkStore.linkUnlink LinkStore.is_linked
        rw [hNext]
        simp [hSelf]
      · intro a b
        unfold SameRing
        grind
    · rcases h.nexusUnlink hx with ⟨s', ring', d, hRun, -, -, hRings⟩
      refine ⟨s', ring', _, ?_, hRings, ?_⟩
      · unfold LinkStore.linkUnlink LinkStore.is_linked
        rw [hNext, h.findNexus hx]
        simp [hSelf, hRun]
      · simp only [SameRing]
        grind

/- Only the set of existing links changes. -/
omit [DecidableEq ν] in
theorem erase (h : Rings s ring owner) (hx : owner x = none) :
    Rings { s with links := s.links.erase x } ring owner := by
  refine ⟨h.queued, h.mem, h.linked, h.back, ?_⟩
  intro y hy
  apply Finset.mem_erase.mpr
  refine ⟨?_, h.exist y hy⟩
  rintro rfl
  exact hy hx

theorem linkDestroy (h : Rings s ring owner) (x : α) :
    ∃ s' ring', s.linkDestroy x = some s' ∧
      s'.links = s.links.erase x ∧
      Rings s' ring' (update owner x none) := by
  rcases hx : owner x with _ | n
  · have hNext := (h.linked x).mpr hx
    refine ⟨{ s with links := s.links.erase x }, ring, ?_, rfl, ?_⟩
    · rw [LinkStore.linkDestroy, if_pos hNext]
    · rw [← hx, Function.update_eq_self]
      exact h.erase hx
  · have hNext : s.next_ x ≠ none := by
      rw [Ne, h.linked, hx]
      exact some_ne_none n
    rcases h.nexusUnlink hx with ⟨s', ring', d, hRun, hLinks, hCell, hRings⟩
    rw [LinkStore.linkDestroy, if_neg hNext, h.findNexus hx]
    simp only [bind_eq_bind, bind_some, hRun, hCell]
    by_cases hEmpty : d.list_ = none
    · rw [if_pos hEmpty, deleteNexus_spec _ _ hCell hEmpty]
      refine ⟨_, ring', rfl, congrArg (·.erase x) hLinks, ?_⟩
      have hDeleted : Rings (s'.setCell n none) ring' (update owner x none) := by
        have hList : (s'.setCell n none).list = s'.list := by
          rw [list_setCell]
          funext m
          by_cases hm : m = n
          · rw [hm, update_self]
            unfold LinkStore.list
            rw [hCell]
            exact hEmpty.symm
          · rw [update_of_ne hm]
        refine ⟨?_, hRings.mem, hRings.linked, ?_, hRings.exist⟩
        · rw [hList]
          exact hRings.queued
        · rw [hList]
          exact hRings.back
      exact hDeleted.erase (update_self _ _ _)
    · rw [if_neg hEmpty]
      exact ⟨_, ring', rfl, congrArg (·.erase x) hLinks, hRings.erase (update_self _ _ _)⟩

----
-- The Connections
----

omit [DecidableEq α] [DecidableEq ν] in
theorem sameRing_equivalence (owner : α → Option ν) : Equivalence (SameRing owner) := by
  refine ⟨fun a => Or.inl rfl, ?_, ?_⟩
  · intro a b h
    unfold SameRing at *
    grind
  · intro a b c h h'
    unfold SameRing at *
    grind

theorem sameRing_joined (ht : owner t = some n) (a b : α) :
    SameRing (joinedOwner owner n r) a b ↔
      SameRing owner a b ∨
      (SameRing owner a t ∧ SameRing owner r b) ∨
      (SameRing owner a r ∧ SameRing owner t b) := by
  unfold SameRing joinedOwner
  grind

/- Joining a nexus without links connects nothing. -/
theorem sameRing_joined_empty (hEmpty : ∀ y, owner y ≠ some n) (a b : α) :
    SameRing (joinedOwner owner n r) a b ↔
      SameRing owner a b := by
  unfold SameRing joinedOwner
  grind

omit [DecidableEq ν] in
theorem sameRing_fresh (hEmpty : ∀ y, owner y ≠ some n) (hx : owner x = none) (a b : α) :
    SameRing (update owner x (some n)) a b ↔
      SameRing owner a b := by
  have hA := hEmpty a
  have hB := hEmpty b
  simp only [SameRing, update_apply]
  grind

omit [DecidableEq α] [DecidableEq ν] in
theorem owner_of_free (h : Rings s ring owner) (hFree : s.heap n = none) (y : α) :
    owner y ≠ some n := by
  intro hy
  rcases h.list_of_owner hy with ⟨t, ht⟩
  unfold LinkStore.list at ht
  rw [hFree] at ht
  cases ht

omit [DecidableEq ν] in
theorem sameRing_left (x a b : α) :
    SameRing (update owner x none) a b ↔
      a = b ∨ (SameRing owner a b ∧ a ≠ x ∧ b ≠ x) := by
  simp only [SameRing, update_apply]
  grind

theorem connect {l : α} (h : Rings s ring owner) (hl : l ∈ s.links)
    (hr : r ∈ s.links) (hlr : l ≠ r) (hFree : s.heap n = none) :
    ∃ s' ring' owner', s.connect n l r = some s' ∧
      Rings s' ring' owner' ∧
      ∀ a b, SameRing owner' a b ↔
        SameRing owner a b ∨
        (SameRing owner a l ∧ SameRing owner r b) ∨
        (SameRing owner a r ∧ SameRing owner l b) := by
  simp only [LinkStore.connect, if_neg hlr, h.linkedNexus]
  rcases hOwnL : owner l with _ | m
  · rcases hOwnR : owner r with _ | m
    · rcases h.newNexus hFree ((h.linked l).mpr hOwnL) hl with ⟨s₁, hNew, hLinks, hHeap, hFirst⟩
      rw [← hLinks] at hr
      rcases hFirst.nexusConnect hHeap hr with ⟨s', ring', hRun, -, hRings⟩
      rw [hNew]
      refine ⟨s', ring', _, hRun, hRings, ?_⟩
      intro a b
      have hFresh := sameRing_fresh (h.owner_of_free hFree) hOwnL
      rw [sameRing_joined (update_self _ _ _), hFresh, hFresh, hFresh, hFresh, hFresh]
    · rcases h.list_of_owner hOwnR with ⟨t, hList⟩
      rcases heap_of_list hList with ⟨c, hCell, -⟩
      rcases h.nexusConnect (isSome_iff_exists.mpr ⟨c, hCell⟩) hl with ⟨s', ring', hRun, -, hRings⟩
      refine ⟨s', ring', _, hRun, hRings, ?_⟩
      intro a b
      rw [sameRing_joined hOwnR]
      exact or_congr_right or_comm
  · rcases h.list_of_owner hOwnL with ⟨t, hList⟩
    rcases heap_of_list hList with ⟨c, hCell, -⟩
    rcases h.nexusConnect (isSome_iff_exists.mpr ⟨c, hCell⟩) hr with ⟨s', ring', hRun, -, hRings⟩
    exact ⟨s', ring', _, hRun, hRings, sameRing_joined hOwnL⟩

/- Asking for the nexus of a link connects nothing. -/
theorem linkNexus (h : Rings s ring owner) (hx : x ∈ s.links) (hFree : s.heap n = none) :
    ∃ s' ring' owner' m, s.linkNexus n x = some (some m, s') ∧
      Rings s' ring' owner' ∧ owner' x = some m ∧
      ∀ a b, SameRing owner' a b ↔ SameRing owner a b := by
  rcases hOwn : owner x with _ | m
  · have hNext := (h.linked x).mpr hOwn
    have hNexus : s.nexus_ x = none := by
      rcases hAt : s.nexus_ x with _ | m
      · rfl
      · rw [h.owner_last ((h.back x m).mp hAt)] at hOwn
        cases hOwn
    rcases h.newNexus hFree hNext hx with ⟨s', hNew, -, -, hFirst⟩
    refine ⟨s', _, _, n, ?_, hFirst, update_self _ _ _, sameRing_fresh (h.owner_of_free hFree) hOwn⟩
    rw [LinkStore.linkNexus, if_pos hNext, if_pos hNexus, hNew]
    rfl
  · have hNext : s.next_ x ≠ none := by
      rw [Ne, h.linked, hOwn]
      exact some_ne_none m
    refine ⟨s, ring, owner, m, ?_, h, hOwn, fun a b => Iff.rfl⟩
    rw [LinkStore.linkNexus, if_neg hNext, h.findNexus hOwn]
    rfl

end Rings

----
-- The Partition
----

/- The list is one full turn around a circle of links. -/
def LinkStore.Circle (s : LinkStore α ν) (l : List α) : Prop :=
  Ring s.succ l ∧ ∀ x ∈ l, s.next_ x ≠ none

/-
  What holds of the links and of the nexuses between two
  operations, where `connected` are the connections that the
  calls so far have made.
-/
structure NexusPartition (s : LinkStore α ν) (connected : α → α → Prop) : Prop where
  circle : ∀ x, s.next_ x ≠ none →
    ∃ l, s.Circle l ∧ x ∈ l ∧ ∀ l', s.Circle l' → x ∈ l' → l'.IsRotated l
  last : ∀ l, s.Circle l → ∃ t n c,
    t ∈ l ∧ s.nexus_ t = some n ∧ s.heap n = some c ∧
      c.list_ = some t ∧ ∀ x ∈ l, s.nexus_ x ≠ none → x = t
  owner : ∀ n c t, s.heap n = some c → c.list_ = some t →
    (∃ l, s.Circle l ∧ t ∈ l) ∧ ∀ x, s.nexus_ x = some n ↔ x = t
  existing : ∀ x n, s.nexus_ x = some n → s.next_ x ≠ none ∧ (s.heap n).isSome
  alive : ∀ x, s.next_ x ≠ none → x ∈ s.links
  found : ∀ x, s.next_ x ≠ none → ∃ n c t l,
    s.findNexus x = some (some n) ∧ s.heap n = some c ∧
      c.list_ = some t ∧ s.Circle l ∧ t ∈ l ∧ x ∈ l
  connections : ∀ a b, a ≠ b → ((∃ l, s.Circle l ∧ a ∈ l ∧ b ∈ l) ↔ connected a b)

namespace Rings

omit [DecidableEq α] [DecidableEq ν] in
theorem owner_of_next (h : Rings s ring owner) (hx : s.next_ x ≠ none) : ∃ n, owner x = some n := by
  rw [Ne, h.linked] at hx
  exact ne_none_iff_exists'.mp hx

omit [DecidableEq α] [DecidableEq ν] in
theorem circle_of_owner (h : Rings s ring owner) (hn : s.list n = some t) :
    ∃ l, s.Circle l ∧ ∀ y, y ∈ l ↔ owner y = some n := by
  have hQueued := h.queued n
  rw [hn] at hQueued
  rcases hQueued with ⟨front, hEq, hRing⟩
  have hOwners : ∀ y, y ∈ t :: front ↔ owner y = some n := by
    intro y
    rw [← h.mem, hEq]
    exact (List.perm_append_singleton t front).mem_iff.symm
  refine ⟨t :: front, ⟨hRing, ?_⟩, hOwners⟩
  intro y hy
  rw [Ne, h.linked, (hOwners y).mp hy]
  exact some_ne_none n

omit [DecidableEq α] [DecidableEq ν] in
theorem owner_of_circle {l : List α} (h : Rings s ring owner) (hl : s.Circle l)
    (hx : x ∈ l) (hOwn : owner x = some n) (y : α) : y ∈ l ↔ owner y = some n := by
  rcases h.list_of_owner hOwn with ⟨t, hn⟩
  rcases h.circle_of_owner hn with ⟨m, hm, hMem⟩
  have hRot := ring_unique hl.1 hm.1 hx ((hMem x).mpr hOwn)
  rw [hRot.mem_iff, hMem]

omit [DecidableEq ν] in
theorem partition (h : Rings s ring owner) : NexusPartition s (SameRing owner) := by
  refine ⟨?_, ?_, ?_, ?_, ?_, ?_, ?_⟩
  · intro x hx
    rcases h.owner_of_next hx with ⟨n, hOwn⟩
    rcases h.list_of_owner hOwn with ⟨t, hn⟩
    rcases h.circle_of_owner hn with ⟨l, hl, hMem⟩
    have hxl := (hMem x).mpr hOwn
    exact ⟨l, hl, hxl, fun l' hl' hx' => ring_unique hl'.1 hl.1 hx' hxl⟩
  · intro l hl
    rcases List.exists_mem_of_ne_nil l (fun hNil => by rw [hNil] at hl; exact hl.1) with ⟨x, hx⟩
    rcases h.owner_of_next (hl.2 x hx) with ⟨n, hOwn⟩
    rcases h.list_of_owner hOwn with ⟨t, hn⟩
    rcases heap_of_list hn with ⟨c, hCell, hLast⟩
    have hMem := h.owner_of_circle hl hx hOwn
    refine ⟨t, n, c, (hMem t).mpr (h.owner_last hn), (h.back t n).mpr hn, hCell, hLast, ?_⟩
    intro y hy hNexus
    rcases ne_none_iff_exists'.mp hNexus with ⟨m, hm⟩
    have hyn := (h.back y m).mp hm
    have hOwnY := h.owner_last hyn
    grind
  · intro n c t hCell hLast
    have hn : s.list n = some t := by
      unfold LinkStore.list
      rw [hCell]
      exact hLast
    rcases h.circle_of_owner hn with ⟨l, hl, hMem⟩
    refine ⟨⟨l, hl, (hMem t).mpr (h.owner_last hn)⟩, ?_⟩
    intro x
    rw [h.back, hn, some_inj]
    exact eq_comm
  · intro x n hx
    have hn := (h.back x n).mp hx
    rcases heap_of_list hn with ⟨c, hCell, -⟩
    refine ⟨?_, isSome_iff_exists.mpr ⟨c, hCell⟩⟩
    rw [Ne, h.linked, h.owner_last hn]
    exact some_ne_none n
  · intro x hx
    apply h.exist
    rwa [Ne, ← h.linked]
  · intro x hx
    rcases h.owner_of_next hx with ⟨n, hOwn⟩
    rcases h.list_of_owner hOwn with ⟨t, hn⟩
    rcases heap_of_list hn with ⟨c, hCell, hLast⟩
    rcases h.circle_of_owner hn with ⟨l, hl, hMem⟩
    exact ⟨n, c, t, l, h.findNexus hOwn, hCell, hLast, hl,
      (hMem t).mpr (h.owner_last hn), (hMem x).mpr hOwn⟩
  · intro a b hab
    constructor
    · rintro ⟨l, hl, ha, hb⟩
      rcases h.owner_of_next (hl.2 a ha) with ⟨n, hOwn⟩
      have hMem := h.owner_of_circle hl ha hOwn
      right
      rw [hOwn, (hMem b).mp hb]
      exact ⟨some_ne_none n, rfl⟩
    · rintro (hEq | ⟨hSome, hSame⟩)
      · exact absurd hEq hab
      · rcases ne_none_iff_exists'.mp hSome with ⟨n, hOwn⟩
        rcases h.list_of_owner hOwn with ⟨t, hn⟩
        rcases h.circle_of_owner hn with ⟨l, hl, hMem⟩
        grind

/- An operation keeps the rings and makes its connections. -/
theorem step (h : Rings s ring owner) (op : LinkOp α ν) (hAllowed : op.Allowed s) :
    ∃ s' ring' owner', op.run s = some s' ∧
      Rings s' ring' owner' ∧
      ∀ a b, op.relate s (SameRing owner) a b ↔
        SameRing owner' a b := by
  have hEquiv := sameRing_equivalence owner
  cases op with
  | connect fresh l r =>
    rcases hAllowed with ⟨hl, hr, hlr, hFree⟩
    rcases h.connect hl hr hlr hFree with ⟨s', ring', owner', hRun, hRings, hSame⟩
    refine ⟨s', ring', owner', hRun, hRings, ?_⟩
    intro a b
    rw [hSame]
    apply @Joining.eqvGen_join α (SameRing owner) (fun y => y = l) l r hEquiv _ rfl
    rintro y rfl
    exact hEquiv.refl y
  | nexusConnect n r =>
    rcases h.nexusConnect hAllowed.1 hAllowed.2 with ⟨s', ring', hRun, -, hRings⟩
    refine ⟨s', ring', _, hRun, hRings, ?_⟩
    intro a b
    have hOn : ∀ y, s.linkedNexus y = some (some n) ↔
        owner y = some n := by
      intro y
      rw [h.linkedNexus, some_inj]
    simp only [LinkOp.relate, hOn]
    by_cases hEmpty : ∀ y, owner y ≠ some n
    · rw [sameRing_joined_empty hEmpty]
      exact Joining.eqvGen_nothing hEquiv hEmpty a b
    · push Not at hEmpty
      rcases hEmpty with ⟨t, ht⟩
      rw [sameRing_joined ht]
      apply Joining.eqvGen_join hEquiv _ ht
      intro y hy
      right
      rw [hy, ht]
      exact ⟨some_ne_none n, rfl⟩
  | nexus fresh l =>
    rcases h.linkNexus hAllowed.1 hAllowed.2 with ⟨s', ring', owner', m, hRun, hRings, -, hSame⟩
    refine ⟨s', ring', owner', ?_, hRings, fun a b => (hSame a b).symm⟩
    rw [LinkOp.run, hRun]
    rfl
  | unlink l =>
    rcases h.linkUnlink l with ⟨s', ring', owner', hRun, hRings, hSame⟩
    exact ⟨s', ring', owner', hRun, hRings, fun a b => (hSame a b).symm⟩
  | destroy l =>
    rcases h.linkDestroy l with ⟨s', ring', hRun, -, hRings⟩
    refine ⟨s', ring', _, hRun, hRings, ?_⟩
    intro a b
    exact (sameRing_left l a b).symm
  | construct l =>
    refine ⟨_, ring, owner, rfl, ?_, fun a b => Iff.rfl⟩
    refine ⟨h.queued, h.mem, h.linked, h.back, ?_⟩
    intro y hy
    exact Finset.mem_insert_of_mem (h.exist y hy)
  | nexusUnlink n l =>
    have hOwn : owner l = some n := by
      have hOn := hAllowed.2
      rw [h.linkedNexus, some_inj] at hOn
      exact hOn
    rcases h.nexusUnlink hOwn with ⟨s', ring', -, hRun, -, -, hRings⟩
    refine ⟨s', ring', _, hRun, hRings, ?_⟩
    intro a b
    exact (sameRing_left l a b).symm

end Rings

/- Every state of a run has its rings. -/
theorem LinkRun.rings {connected : α → α → Prop} (h : LinkRun s connected) :
    ∃ (ring : ν → List α) (owner : α → Option ν),
      Rings s ring owner ∧ connected = SameRing owner := by
  induction h with
  | start links dir =>
    refine ⟨fun _ => [], fun _ => none, ?_, ?_⟩
    · refine ⟨fun _ => rfl, ?_, ?_, ?_, ?_⟩
      · intro n x
        simp
      · intro x
        exact ⟨fun _ => rfl, fun _ => rfl⟩
      · intro x n
        simp [LinkStore.start, LinkStore.list]
      · intro x hx
        exact absurd rfl hx
    · funext a b
      simp [SameRing]
  | step op _ hAllowed hRun ih =>
    rcases ih with ⟨ring, owner, hRings, rfl⟩
    rcases hRings.step op hAllowed with ⟨s', ring', owner', hRun', hRings', hSame⟩
    grind

/-
  In every state that a sequence of operations reaches the
  nexuses partition the links, and no further operation
  fails.
-/
theorem nexus_rings {connected : α → α → Prop} (h : LinkRun s connected) :
    NexusPartition s connected ∧
      ∀ op : LinkOp α ν, op.Allowed s → (op.run s).isSome := by
  rcases h.rings with ⟨ring, owner, hRings, rfl⟩
  refine ⟨hRings.partition, ?_⟩
  intro op hAllowed
  rcases hRings.step op hAllowed with ⟨s', -, -, hRun, -⟩
  rw [hRun]
  rfl

/- Three links after two calls and an unlink of the first. -/
theorem nexus_rings_three :
    ∃ s₁ s₂ s₃ : LinkStore Nat Nat,
      (LinkOp.connect 7 0 1).run (LinkStore.start {0, 1, 2} fun _ => .PASSIVE) = some s₁ ∧
      (LinkOp.connect 8 2 0).run s₁ = some s₂ ∧
      (LinkOp.unlink 0).run s₂ = some s₃ ∧
      ∃ connected, NexusPartition s₃ connected := by
  refine ⟨_, _, _, rfl, rfl, rfl, _, (nexus_rings
    (LinkRun.step (.unlink 0)
      (LinkRun.step (.connect 8 2 0)
        (LinkRun.step (.connect 7 0 1)
          (LinkRun.start {0, 1, 2} fun _ => .PASSIVE)
          ?_ rfl) ?_ rfl) ?_ rfl)).1⟩
  · exact ⟨by decide, by decide, by decide, rfl⟩
  · exact ⟨by decide, by decide, by decide, rfl⟩
  · exact Finset.mem_insert_self 0 {1, 2}

end EpicSim
