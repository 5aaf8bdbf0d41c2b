import EpicSim.Lib.Joining
import EpicSim.Ivl.NetLink

/-
  The rings of the nexuses: what one ring of links looks
  like in a store, what each way of splicing makes of the
  rings, and what the walks along a ring find.
-/

namespace EpicSim

open Function (update_self update_of_ne update_apply update)
open List (mem_cons_self mem_cons length_cons mem_cons_of_mem)
open CircularList

variable {α ν : Type}

namespace LinkStore

/- The next link, or the link itself when it has none. -/
def succ (s : LinkStore α ν) (l : α) : α :=
  (s.next_ l).getD l

/- The last link of a nexus. -/
def list (s : LinkStore α ν) (n : ν) : Option α :=
  (s.heap n).bind NexusCell.list_

end LinkStore

----
-- The Invariant
----

/-
  `ring n` lists the links of the nexus `n` in their order,
  and `owner x` is the nexus that the link `x` is on.
-/
structure Rings (s : LinkStore α ν) (ring : ν → List α) (owner : α → Option ν) : Prop where
  queued : ∀ n, Queued s.succ (s.list n) (ring n)
  mem : ∀ n x, x ∈ ring n ↔ owner x = some n
  linked : ∀ x, s.next_ x = none ↔ owner x = none
  back : ∀ x n, s.nexus_ x = some n ↔ s.list n = some x
  exist : ∀ x, owner x ≠ none → x ∈ s.links

/- Two links are the same, or on the ring of one nexus. -/
def SameRing (owner : α → Option ν) (a b : α) : Prop :=
  a = b ∨ (owner a ≠ none ∧ owner a = owner b)

section Rings

variable {s s' : LinkStore α ν} {ring : ν → List α}
  {owner : α → Option ν} {n m : ν} {x t p : α}

theorem succ_of_next [DecidableEq α] (hNext : s'.next_ = update s.next_ x (some p)) :
    s'.succ = update s.succ x p := by
  funext y
  unfold LinkStore.succ
  rw [hNext]
  by_cases hy : y = x
  · rw [hy, update_self, update_self]
    rfl
  · rw [update_of_ne hy, update_of_ne hy]

namespace Rings

section

variable (h : Rings s ring owner)

include h

theorem next_eq (hx : owner x ≠ none) : s.next_ x = some (s.succ x) := by
  rcases hNext : s.next_ x with _ | y
  · exact absurd ((h.linked x).mp hNext) hx
  · rw [LinkStore.succ, hNext]
    rfl

theorem last_mem (hn : s.list n = some t) : t ∈ ring n := by
  have hQueued := h.queued n
  rw [hn] at hQueued
  rcases hQueued with ⟨front, hEq, -⟩
  rw [hEq]
  exact List.mem_append_right _ mem_cons_self

theorem owner_last (hn : s.list n = some t) : owner t = some n :=
  (h.mem n t).mp (h.last_mem hn)

theorem list_of_owner (hx : owner x = some n) :
    ∃ t, s.list n = some t := by
  have hMem := (h.mem n x).mpr hx
  rcases hList : s.list n with _ | t
  · rw [(queued_nil_iff (h.queued n)).mp hList] at hMem
    cases hMem
  · exact ⟨t, rfl⟩

theorem length_le (n : ν) : (ring n).length ≤ s.links.card := by
  classical
  rw [← List.toFinset_card_of_nodup (queued_nodup (h.queued n))]
  apply Finset.card_le_card
  intro x hx
  apply h.exist x
  rw [(h.mem n x).mp (List.mem_toFinset.mp hx)]
  exact Option.some_ne_none n

/- A ring is kept by what changes no pointer of its links. -/
theorem queued_of_same (hList : s'.list m = s.list m)
    (hSame : ∀ y, owner y = some m → s'.succ y = s.succ y) :
    Queued s'.succ (s'.list m) (ring m) := by
  rw [hList]
  apply queued_frame _ (h.queued m)
  intro y hy
  exact hSame y ((h.mem m y).mp hy)

end

variable [DecidableEq α] [DecidableEq ν]

/- An unconnected link becomes the only link of a nexus. -/
theorem first (h : Rings s ring owner) (hn : s.list n = none)
    (hx : s.next_ x = none) (hLink : x ∈ s.links) (hLinks : s'.links = s.links)
    (hNext : s'.next_ = update s.next_ x (some x))
    (hNexus : s'.nexus_ = update s.nexus_ x (some n))
    (hList : s'.list = update s.list n (some x)) :
    Rings s' (update ring n [x]) (update owner x (some n)) := by
  have hOwner := (h.linked x).mp hx
  have hNil := (queued_nil_iff (h.queued n)).mp hn
  have hSucc := succ_of_next hNext
  have hNot : ∀ m, s.list m ≠ some x := by
    intro m hm
    rw [h.owner_last hm] at hOwner
    cases hOwner
  refine ⟨?_, ?_, ?_, ?_, ?_⟩
  · intro m
    by_cases hm : m = n
    · rw [hm, hList, update_self, update_self]
      refine ⟨[], rfl, ring_singleton ?_⟩
      rw [hSucc, update_self]
    · rw [update_of_ne hm]
      apply h.queued_of_same
      · rw [hList, update_of_ne hm]
      · intro y hy
        have hyx : y ≠ x := by
          rintro rfl
          rw [hOwner] at hy
          cases hy
        rw [hSucc, update_of_ne hyx]
  · intro m y
    have hMem := h.mem m y
    grind
  · intro y
    have hLinked := h.linked y
    simp only [hNext]
    grind
  · intro y m
    have hBack := h.back y m
    simp only [hNexus, hList]
    grind
  · intro y
    have hExist := h.exist y
    grind

/- An unconnected link goes to the end of a nexus. -/
theorem append (h : Rings s ring owner) (hn : s.list n = some t)
    (hx : s.next_ x = none) (hLink : x ∈ s.links) (hLinks : s'.links = s.links)
    (hNext : s'.next_ = update (update s.next_ x (s.next_ t)) t (some x))
    (hNexus : s'.nexus_ = update (update s.nexus_ x (some n)) t none)
    (hList : s'.list = update s.list n (some x)) :
    Rings s' (update ring n (ring n ++ [x])) (update owner x (some n)) := by
  have hOwner := (h.linked x).mp hx
  have hLast := h.owner_last hn
  have hNot : ∀ m, s.list m ≠ some x := by
    intro m hm
    rw [h.owner_last hm] at hOwner
    cases hOwner
  have hSucc : s'.succ = (enqueue s.succ (some t) x).1 := by
    have hNextT : s.next_ t = some (s.succ t) := by
      apply h.next_eq
      rw [hLast]
      exact Option.some_ne_none n
    funext y
    unfold LinkStore.succ enqueue at *
    rw [hNext]
    grind
  refine ⟨?_, ?_, ?_, ?_, ?_⟩
  · intro m
    have hQueued := h.queued n
    rw [hn] at hQueued
    have hOut : x ∉ ring n := by
      intro hMem
      rw [(h.mem n x).mp hMem] at hOwner
      cases hOwner
    rcases queued_enqueue hQueued hOut with ⟨hNew, hFrame⟩
    by_cases hm : m = n
    · rw [hm, hList, update_self, update_self, hSucc]
      exact hNew
    · rw [update_of_ne hm]
      apply h.queued_of_same
      · rw [hList, update_of_ne hm]
      · intro y hy
        rw [hSucc]
        apply hFrame
        · intro hMem
          rw [(h.mem n y).mp hMem] at hy
          exact hm (Option.some.inj hy).symm
        · rintro rfl
          rw [hOwner] at hy
          cases hy
  · intro m y
    have hMem := h.mem m y
    grind
  · intro y
    have hLinked := h.linked y
    have hLinkedT := h.linked t
    simp only [hNext]
    grind
  · intro y m
    have hBack := h.back y m
    have hBackT := h.back t n
    simp only [hNexus, hList]
    grind
  · intro y
    have hExist := h.exist y
    grind

/-
  A nexus without links takes over all the links of another
  one, which is left without links.
-/
theorem takeOver (h : Rings s ring owner) (hn : s.list n = none)
    (hm : s.list m = some t) (hLinks : s'.links = s.links) (hNext : s'.next_ = s.next_)
    (hNexus : s'.nexus_ = update s.nexus_ t (some n))
    (hList : s'.list = update (update s.list n (some t)) m none) :
    Rings s'
      (update (update ring n (ring m)) m [])
      (fun y => if owner y = some m then some n
        else owner y) := by
  have hNil := (queued_nil_iff (h.queued n)).mp hn
  have hSucc : s'.succ = s.succ := by
    unfold LinkStore.succ
    rw [hNext]
  refine ⟨?_, ?_, ?_, ?_, ?_⟩
  · intro k
    rw [hList, hSucc]
    by_cases hk : k = m
    · rw [hk, update_self, update_self]
      rfl
    · rw [update_of_ne hk, update_of_ne hk]
      by_cases hkn : k = n
      · rw [hkn, update_self, update_self, ← hm]
        exact h.queued m
      · rw [update_of_ne hkn, update_of_ne hkn]
        exact h.queued k
  · intro k y
    have hMem := h.mem k y
    have hMemM := h.mem m y
    grind
  · intro y
    have hLinked := h.linked y
    grind
  · intro y k
    have hBack := h.back y k
    have hBackM := h.back y m
    simp only [hNexus, hList]
    grind
  · intro y
    have hExist := h.exist y
    grind

/- The links of another nexus go to the end of a nexus. -/
theorem splice {u : α} (h : Rings s ring owner) (hnm : n ≠ m)
    (hn : s.list n = some t) (hm : s.list m = some u) (hLinks : s'.links = s.links)
    (hNext : s'.next_ = update (update s.next_ t (s.next_ u)) u (s.next_ t))
    (hNexus : s'.nexus_ = update (update s.nexus_ t none) u (some n))
    (hList : s'.list = update (update s.list n (some u)) m none) :
    Rings s'
      (update (update ring n (ring n ++ ring m)) m [])
      (fun y => if owner y = some m then some n
        else owner y) := by
  have hLastT := h.owner_last hn
  have hLastU := h.owner_last hm
  have hNextT : s.next_ t = some (s.succ t) := by
    apply h.next_eq
    rw [hLastT]
    exact Option.some_ne_none n
  have hNextU : s.next_ u = some (s.succ u) := by
    apply h.next_eq
    rw [hLastU]
    exact Option.some_ne_none m
  have hSucc : s'.succ = update (update s.succ t (s.succ u)) u (s.succ t) := by
    funext y
    unfold LinkStore.succ at *
    rw [hNext]
    grind
  refine ⟨?_, ?_, ?_, ?_, ?_⟩
  · intro k
    by_cases hk : k = m
    · rw [hk, hList, update_self, update_self]
      rfl
    · rw [update_of_ne hk]
      by_cases hkn : k = n
      · rw [hkn, hList, update_self, update_of_ne hnm, update_self, hSucc]
        have hQueuedN := h.queued n
        have hQueuedM := h.queued m
        rw [hn] at hQueuedN
        rw [hm] at hQueuedM
        apply queued_splice hQueuedN hQueuedM
        intro y hy hy'
        rw [h.mem] at hy hy'
        rw [hy] at hy'
        exact hnm (Option.some.inj hy')
      · rw [update_of_ne hkn]
        apply h.queued_of_same
        · rw [hList, update_of_ne hk, update_of_ne hkn]
        · intro y hy
          rw [hSucc]
          grind
  · intro k y
    have hMem := h.mem k y
    have hMemM := h.mem m y
    grind
  · intro y
    have hLinked := h.linked y
    simp only [hNext]
    grind
  · intro y k
    have hBack := h.back y k
    have hBackTN := h.back t n
    have hBackUM := h.back u m
    simp only [hNexus, hList]
    grind
  · intro y
    have hExist := h.exist y
    grind

/- The only link of a nexus leaves it. -/
theorem leaveLast (h : Rings s ring owner) (hn : ring n = [x]) (hLinks : s'.links = s.links)
    (hNext : s'.next_ = update s.next_ x none)
    (hNexus : s'.nexus_ = update s.nexus_ x none)
    (hList : s'.list = update s.list n none) :
    Rings s' (update ring n []) (update owner x none) := by
  have hOwner : owner x = some n := by
    rw [← h.mem, hn]
    exact mem_cons_self
  have hOnly : ∀ y, owner y = some n → y = x := by
    intro y hy
    rw [← h.mem, hn] at hy
    exact List.mem_singleton.mp hy
  refine ⟨?_, ?_, ?_, ?_, ?_⟩
  · intro m
    by_cases hm : m = n
    · rw [hm, hList, update_self, update_self]
      rfl
    · rw [update_of_ne hm]
      apply h.queued_of_same
      · rw [hList, update_of_ne hm]
      · intro y hy
        have hyx : y ≠ x := by grind
        unfold LinkStore.succ
        rw [hNext, update_of_ne hyx]
  · intro m y
    have hMem := h.mem m y
    grind
  · intro y
    have hLinked := h.linked y
    simp only [hNext]
    grind
  · intro y m
    have hBack := h.back y m
    have hLastM : s.list m = some y → owner y = some m := h.owner_last
    simp only [hNexus, hList]
    grind
  · intro y
    have hExist := h.exist y
    grind

/- A link leaves a nexus that keeps other links. -/
theorem leave {left right before : List α} (h : Rings s ring owner)
    (hn : s.list n = some t) (hRing : ring n = left ++ x :: right)
    (hBefore : t :: left = before ++ [p]) (hMore : p ≠ x) (hLinks : s'.links = s.links)
    (hNext : s'.next_ = update (update s.next_ p (s.next_ x)) x none)
    (hNexus : s'.nexus_ = update
      (if t = x then update s.nexus_ p (some n)
        else s.nexus_) x none)
    (hList : s'.list = update s.list n (some (if t = x then p else t))) :
    Rings s' (update ring n (left ++ right)) (update owner x none) := by
  have hOwner : owner x = some n := by
    rw [← h.mem, hRing]
    exact List.mem_append_right _ mem_cons_self
  have hNextX : s.next_ x = some (s.succ x) := by
    apply h.next_eq
    rw [hOwner]
    exact Option.some_ne_none n
  have hQueued := h.queued n
  rw [hn, hRing] at hQueued
  have hOnce : x ∉ left ++ right := by
    have hNodup := queued_nodup hQueued
    rw [List.nodup_middle, List.nodup_cons] at hNodup
    exact hNodup.1
  have hpLeft : p ∈ t :: left := by grind
  have hpOwner : owner p = some n := by
    rcases mem_cons.mp hpLeft with rfl | hp
    · exact h.owner_last hn
    · rw [← h.mem, hRing]
      exact List.mem_append_left _ hp
  have hSucc : ∀ y, y ≠ x →
      s'.succ y = update s.succ p (s.succ x) y := by
    intro y hy
    unfold LinkStore.succ at *
    rw [hNext]
    grind
  refine ⟨?_, ?_, ?_, ?_, ?_⟩
  · intro m
    by_cases hm : m = n
    · rw [hm, hList, update_self, update_self]
      apply queued_frame _ (queued_unlink hQueued hBefore hMore)
      intro y hy
      exact hSucc y fun hEq => hOnce (hEq ▸ hy)
    · rw [update_of_ne hm]
      apply h.queued_of_same
      · rw [hList, update_of_ne hm]
      · grind
  · intro m y
    have hMem := h.mem m y
    grind
  · intro y
    have hLinked := h.linked y
    simp only [hNext]
    grind
  · intro y m
    have hBack := h.back y m
    have hLastM : s.list m = some y → owner y = some m := h.owner_last
    simp only [hNexus, hList, update_apply]
    by_cases htx : t = x
    · grind
    · grind
  · intro y
    have hExist := h.exist y
    grind

end Rings

end Rings

----
-- Looking For A Nexus
----

section Walks

variable [DecidableEq α]
variable {s : LinkStore α ν} {ring : ν → List α}
  {owner : α → Option ν} {n : ν} {x : α}

/- The walk stops at the only link that has the nexus. -/
theorem findLoop_spec {rest : List α} {t cur : α} {fuel : Nat}
    (hSegment : Segment s.succ cur rest x) (hOut : x ∉ rest)
    (hNext : ∀ y ∈ rest, s.next_ y = some (s.succ y))
    (hNexus : ∀ y ∈ rest, s.nexus_ y = none ∨ s.nexus_ y = some n)
    (ht : t ∈ rest) (hLast : s.nexus_ t = some n) (hFuel : rest.length ≤ fuel) :
    s.findLoop x fuel cur = some (some n) := by
  induction rest generalizing cur fuel with
  | nil => cases ht
  | cons y rest ih =>
    rcases hSegment with ⟨rfl, hRest⟩
    rw [mem_cons, not_or] at hOut
    obtain ⟨fuel, rfl⟩ : ∃ f, fuel = f + 1 :=
      ⟨fuel - 1, by
        rw [length_cons] at hFuel
        omega⟩
    rw [LinkStore.findLoop, if_neg (Ne.symm hOut.1)]
    rcases hNexus cur mem_cons_self with hNone | hSome
    · grind
    · rw [hSome]

namespace Rings

theorem findNexus (h : Rings s ring owner) (hx : owner x = some n) :
    s.findNexus x = some (some n) := by
  rcases h.list_of_owner hx with ⟨t, hList⟩
  have hQueued := h.queued n
  rw [hList] at hQueued
  rcases hQueued with ⟨front, hRing, hTurn⟩
  have hOwners : ∀ y, y ∈ t :: front ↔ owner y = some n := by
    intro y
    rw [← h.mem, hRing]
    exact (List.perm_append_singleton t front).mem_iff.symm
  rcases ring_from hTurn ((hOwners x).mpr hx) with ⟨rest, hPerm, hRest⟩
  have hRestOwner : ∀ y ∈ rest, owner y = some n := by grind
  have hNexus : ∀ y, owner y = some n →
      s.nexus_ y = none ∨ s.nexus_ y = some n := by
    intro y hy
    rcases hAt : s.nexus_ y with _ | m
    · exact Or.inl rfl
    · have hLast := h.owner_last ((h.back y m).mp hAt)
      grind
  have hNext : ∀ y, owner y = some n →
      s.next_ y = some (s.succ y) := by
    intro y hy
    apply h.next_eq
    rw [hy]
    exact Option.some_ne_none n
  unfold LinkStore.findNexus
  rw [hNext x hx]
  rcases hNexus x hx with hNone | hSome
  · have hBack := (h.back t n).mpr hList
    have ht : t ∈ rest := by grind
    have hLength : rest.length ≤ s.links.card := by
      have hBound := h.length_le n
      have hSame := hPerm.length_eq
      grind
    rw [hNone]
    exact findLoop_spec hRest.2 (List.nodup_cons.mp hRest.1).1
      (fun y hy => hNext y (hRestOwner y hy))
      (fun y hy => hNexus y (hRestOwner y hy))
      ht hBack hLength
  · rw [Option.bind_eq_bind, Option.bind_some, hSome]

theorem linkedNexus (h : Rings s ring owner) (x : α) : s.linkedNexus x = some (owner x) := by
  unfold LinkStore.linkedNexus
  rcases hx : owner x with _ | n
  · rw [if_pos ((h.linked x).mpr hx)]
  · rw [if_neg, h.findNexus hx]
    rw [h.linked, hx]
    exact Option.some_ne_none n

end Rings

theorem prevLoop_spec {before : List α} {p cur : α} {fuel : Nat}
    (hSegment : Segment s.succ cur (before ++ [p]) x) (hNot : ∀ y ∈ before, s.succ y ≠ x)
    (hNext : ∀ y ∈ before ++ [p], s.next_ y = some (s.succ y)) (hFuel : before.length < fuel) :
    s.prevLoop x fuel cur = some p := by
  induction before generalizing cur fuel with
  | nil =>
    obtain ⟨fuel, rfl⟩ : ∃ f, fuel = f + 1 := ⟨fuel - 1, by omega⟩
    rcases hSegment with ⟨rfl, hEnd⟩
    rw [LinkStore.prevLoop, if_pos]
    rw [hNext cur mem_cons_self, hEnd]
  | cons y before ih =>
    obtain ⟨fuel, rfl⟩ : ∃ f, fuel = f + 1 := ⟨fuel - 1, by omega⟩
    rcases hSegment with ⟨rfl, hRest⟩
    rw [LinkStore.prevLoop, hNext cur mem_cons_self, if_neg]
    · apply ih hRest
      · intro y hy
        exact hNot y (mem_cons_of_mem _ hy)
      · intro y hy
        exact hNext y (mem_cons_of_mem _ hy)
      · rw [length_cons] at hFuel
        omega
    · grind

end Walks

end EpicSim
