import EpicSim.Ivl.NetEvent

/-
  What the search for similar probes finds: the state of the
  links during a search, the links of a nexus in the order
  in which they are visited, and the probes that are found.
-/

namespace EpicSim

open List (mem_cons length_cons mem_cons_self mem_cons_of_mem mem_singleton length_tail)
open Option (some_ne_none bind_eq_bind bind_some some_inj)
open CircularList

variable {α ν π ε σ : Type}

----
-- The Links During A Search
----

/-
  The links are on rings that make the given connections,
  and a nexus for a link that has none gets a free address.
-/
structure SearchState
    (fresh : α → ν) (connected : α → α → Prop) (ring : ν → List α) (owner : α → Option ν)
    (c : CachedLinks α ν) : Prop where
  rings : Rings c.store ring owner
  connections : ∀ a b, SameRing owner a b ↔ connected a b
  free : ∀ l, owner l = none → c.store.heap (fresh l) = none

/-
  What a search leaves alone: the links that exist, and the
  rings that links were on.
-/
structure SearchKeeps (owner owner' : α → Option ν) (c c' : CachedLinks α ν) : Prop where
  links : c'.store.links = c.store.links
  kept : ∀ y, owner y ≠ none → owner' y = owner y
  next : ∀ y, owner y ≠ none → c'.store.next_nlink y = c.store.next_nlink y

section Search

theorem SearchKeeps.refl (owner : α → Option ν) (c : CachedLinks α ν) :
    SearchKeeps owner owner c c :=
  ⟨rfl, fun _ _ => rfl, fun _ _ => rfl⟩

theorem SearchKeeps.trans {owner owner' owner'' : α → Option ν} {c c' c'' : CachedLinks α ν}
    (h : SearchKeeps owner owner' c c') (h' : SearchKeeps owner' owner'' c' c'') :
    SearchKeeps owner owner'' c c'' := by
  have hSome : ∀ y, owner y ≠ none → owner' y ≠ none := by
    intro y hy
    rw [h.kept y hy]
    exact hy
  refine ⟨h'.links.trans h.links, ?_, ?_⟩
  · intro y hy
    rw [h'.kept y (hSome y hy), h.kept y hy]
  · intro y hy
    rw [h'.next y (hSome y hy), h.next y hy]

variable [DecidableEq α] [DecidableEq ν]
  {fresh : α → ν} {connected : α → α → Prop}
  {ring : ν → List α} {owner : α → Option ν}
  {c : CachedLinks α ν} {x y : α}

namespace SearchState

section

variable (h : SearchState fresh connected ring owner c) (hFresh : Function.Injective fresh)

include h hFresh

/- A link that is on no ring gets a nexus of its own. -/
theorem alone (hx : x ∈ c.store.links) (hAlone : owner x = none) :
    ∃ s ring' owner', c.store.newNexus (fresh x) x = some s ∧
      SearchState fresh connected ring' owner' { c with store := s } ∧
      SearchKeeps owner owner' c { c with store := s } ∧
      owner' x = some (fresh x) ∧
      (c.Current → CachedLinks.Current { c with store := s }) := by
  have hNext := (h.rings.linked x).mpr hAlone
  have hFree := h.free x hAlone
  have hList : c.store.list (fresh x) = none := by
    unfold LinkStore.list
    rw [hFree]
    rfl
  have hRings : Rings
      (((c.store.setCell (fresh x)
        (some ⟨some x, .NO_GUESS, none⟩)).setNext x (some x)).setNexus x (some (fresh x)))
      (Function.update ring (fresh x) [x])
      (Function.update owner x (some (fresh x))) := by
    refine h.rings.first hList hNext hx rfl rfl rfl ?_
    rw [list_setNexus, list_setNext, list_setCell]
    rfl
  have hOther : ∀ y, owner y ≠ none → y ≠ x := by
    rintro y hy rfl
    exact hy hAlone
  refine ⟨_, _, _, newNexus_alone hNext, ⟨hRings, ?_, ?_⟩,
    ⟨rfl, ?_, ?_⟩, Function.update_self _ _ _, ?_⟩
  · intro a b
    rw [Rings.sameRing_fresh (h.rings.owner_of_free hFree) hAlone, h.connections]
  · intro l hl
    have hlx : l ≠ x := by grind
    rw [Function.update_of_ne hlx] at hl
    change Function.update c.store.heap (fresh x) _ (fresh l) = _
    rw [Function.update_of_ne (hFresh.ne hlx)]
    exact h.free l hl
  · intro y hy
    rw [Function.update_of_ne (hOther y hy)]
  · intro y hy
    simp only [LinkStore.next_nlink, LinkStore.setNexus, LinkStore.setNext,
      LinkStore.setCell, Function.update_of_ne (hOther y hy)]
  · intro hCurrent
    exact h.rings.current_newNexus hCurrent hFree hNext hx (newNexus_alone hNext)

/- `Link::nexus` during a search -/
theorem linkNexus (hx : x ∈ c.store.links) :
    ∃ s ring' owner' n,
      c.store.linkNexus (fresh x) x = some (some n, s) ∧
      SearchState fresh connected ring' owner' { c with store := s } ∧
      SearchKeeps owner owner' c { c with store := s } ∧
      owner' x = some n ∧
      (c.Current → CachedLinks.Current { c with store := s }) := by
  rcases hOwn : owner x with _ | n
  · rcases h.alone hFresh hx hOwn with ⟨s, ring', owner', hNew, hState, hKeeps, hOn, hCur⟩
    have hNexus : c.store.nexus_ x = none := by
      rcases hAt : c.store.nexus_ x with _ | m
      · rfl
      · rw [h.rings.owner_last ((h.rings.back x m).mp hAt)] at hOwn
        cases hOwn
    refine ⟨s, ring', owner', fresh x, ?_, hState, hKeeps, hOn, hCur⟩
    rw [LinkStore.linkNexus, if_pos ((h.rings.linked x).mpr hOwn), if_pos hNexus, hNew]
    rfl
  · refine ⟨c.store, ring, owner, n, ?_, h, SearchKeeps.refl owner c, hOwn, id⟩
    have hNext : c.store.next_ x ≠ none := by
      rw [Ne, h.rings.linked, hOwn]
      exact some_ne_none n
    rw [LinkStore.linkNexus, if_neg hNext, h.rings.findNexus hOwn]
    rfl

/- `Link::find_nexus_post_elab` during a search -/
theorem lookup (hCurrent : c.Current) (hx : x ∈ c.store.links) :
    ∃ c' ring' owner' n,
      c.find_nexus_post_elab (fresh x) x = some (some n, c') ∧
      SearchState fresh connected ring' owner' c' ∧
      SearchKeeps owner owner' c c' ∧
      owner' x = some n ∧ c'.Current := by
  rcases hOwn : owner x with _ | n
  · rcases h.alone hFresh hx hOwn with ⟨s, ring', owner', hNew, hState, hKeeps, hOn, hCur⟩
    refine ⟨_, ring', owner', fresh x, ?_, hState, hKeeps, hOn, hCur hCurrent⟩
    simp only [CachedLinks.find_nexus_post_elab, (h.rings.linked x).mpr hOwn,
      hNew, bind_eq_bind, bind_some]
  · rcases h.rings.find_nexus_post_elab hCurrent hOwn (fresh x) with ⟨c', hFound, hStore, hCur⟩
    refine ⟨c', ring, owner, n, hFound, ?_, ?_, hOwn, hCur⟩
    · refine ⟨?_, h.connections, ?_⟩
      · rw [hStore]
        exact h.rings
      · rw [hStore]
        exact h.free
    · refine ⟨?_, fun _ _ => rfl, ?_⟩
      · rw [hStore]
      · intro y _
        rw [hStore]

end

omit [DecidableEq α] [DecidableEq ν] in
theorem equivalence (h : SearchState fresh connected ring owner c) : Equivalence connected := by
  have hSame : connected = SameRing owner := by
    funext a b
    exact propext (h.connections a b).symm
  rw [hSame]
  exact Rings.sameRing_equivalence owner

/- Two links are connected when they have one nexus. -/
omit [DecidableEq α] [DecidableEq ν] in
theorem connected_of_owner {n : ν} (h : SearchState fresh connected ring owner c)
    (hx : owner x = some n) (hy : owner y = some n) : connected x y := by
  rw [← h.connections]
  right
  rw [hx, hy]
  exact ⟨some_ne_none n, rfl⟩

omit [DecidableEq α] [DecidableEq ν] in
theorem owner_eq (h : SearchState fresh connected ring owner c) (hxy : connected x y) :
    owner x = owner y := by
  rw [← h.connections] at hxy
  rcases hxy with rfl | ⟨-, hSame⟩
  · rfl
  · exact hSame

end SearchState

end Search

----
-- Links Of One Ring
----

section Walks

variable [DecidableEq α] {s : LinkStore α ν} {x y t : α}
  {fuel : Nat}

theorem reachLoop_spec {rest : List α} {cur : α}
    (hSegment : Segment s.succ cur rest x) (hOut : x ∉ rest)
    (hNext : ∀ z ∈ rest, s.next_ z = some (s.succ z)) (hFuel : rest.length < fuel) :
    s.reachLoop x y fuel cur = some (decide (y ∈ rest)) := by
  induction rest generalizing cur fuel with
  | nil =>
    obtain ⟨fuel, rfl⟩ : ∃ f, fuel = f + 1 := ⟨fuel - 1, by omega⟩
    have hEq : cur = x := hSegment
    rw [LinkStore.reachLoop, if_pos hEq]
    simp
  | cons z rest ih =>
    rcases hSegment with ⟨rfl, hRest⟩
    rw [mem_cons, not_or] at hOut
    obtain ⟨fuel, rfl⟩ : ∃ f, fuel = f + 1 := ⟨fuel - 1, by omega⟩
    have hShort : rest.length < fuel := by
      rw [length_cons] at hFuel
      omega
    rw [LinkStore.reachLoop, if_neg (Ne.symm hOut.1)]
    grind

/- The links that a walk along a nexus visits. -/
def LinkStore.Visits (s : LinkStore α ν) : Option α → List α → Prop
| none, [] => True
| some l, y :: rest => l = y ∧ Visits s (s.next_nlink y) rest
| _, _ => False

omit [DecidableEq α] in
theorem visits_segment {front : List α} {cur : α} {n : ν} (hSegment : Segment s.succ cur front t)
    (hNext : ∀ z ∈ front, s.next_ z = some (s.succ z))
    (hNot : ∀ z ∈ front, s.nexus_ z = none) (hLast : s.nexus_ t = some n) :
    s.Visits (some cur) (front ++ [t]) := by
  induction front generalizing cur with
  | nil =>
    have hEq : cur = t := hSegment
    refine ⟨hEq, ?_⟩
    rw [LinkStore.next_nlink, hLast]
    exact True.intro
  | cons z front ih =>
    rcases hSegment with ⟨rfl, hRest⟩
    refine ⟨rfl, ?_⟩
    rw [LinkStore.next_nlink, hNot cur mem_cons_self]
    rw [hNext cur mem_cons_self]
    exact ih hRest
      (fun w hw => hNext w (mem_cons_of_mem _ hw))
      (fun w hw => hNot w (mem_cons_of_mem _ hw))

namespace Rings

variable {ring : ν → List α} {owner : α → Option ν} {n : ν}

omit [DecidableEq α] in
theorem next_of_owner (h : Rings s ring owner) (z : α) (hz : owner z = some n) :
    s.next_ z = some (s.succ z) := by
  apply h.next_eq
  rw [hz]
  exact some_ne_none n

/- The walk visits the links of a nexus in their order. -/
omit [DecidableEq α] in
theorem visits (h : Rings s ring owner) (hx : owner x = some n) :
    ∃ lcur, s.first_nlink n = some lcur ∧
      s.Visits lcur (ring n) := by
  rcases h.list_of_owner hx with ⟨t, hList⟩
  rcases heap_of_list hList with ⟨cell, hHeap, hCell⟩
  have hQueued := h.queued n
  rw [hList] at hQueued
  rcases hQueued with ⟨front, hRing, hTurn⟩
  have hOwners : ∀ z ∈ front, owner z = some n := by
    intro z hz
    rw [← h.mem, hRing]
    exact List.mem_append_left _ hz
  refine ⟨s.next_ t, ?_, ?_⟩
  · simp only [LinkStore.first_nlink, hHeap, hCell, bind_eq_bind, bind_some]
  · rw [h.next_of_owner t (h.owner_last hList), hRing]
    apply visits_segment hTurn.2
    · intro z hz
      exact h.next_of_owner z (hOwners z hz)
    · intro z hz
      rcases hAt : s.nexus_ z with _ | m
      · rfl
      · have hzm := (h.back z m).mp hAt
        have hOwn := h.owner_last hzm
        rw [hOwners z hz, some_inj] at hOwn
        rw [← hOwn, hList, some_inj] at hzm
        rw [← hzm] at hz
        exact absurd hz (List.nodup_cons.mp hTurn.1).1
    · exact (h.back t n).mpr hList

/- A link that is alone on its ring is not linked. -/
theorem is_linked_of_ne
    (h : Rings s ring owner) (hx : owner x = some n) (hy : owner y = some n) (hxy : x ≠ y) :
    s.is_linked x = true := by
  rw [LinkStore.is_linked, h.next_of_owner x hx]
  dsimp only
  rw [if_neg]
  intro hSelf
  rcases h.list_of_owner hx with ⟨t, hList⟩
  rcases h.circle_of_owner hList with ⟨l, hCircle, hMem⟩
  rcases ring_from hCircle.1 ((hMem x).mpr hx) with ⟨rest, hPerm, hRest⟩
  have hyRest : y ∈ x :: rest := hPerm.mem_iff.mpr ((hMem y).mpr hy)
  cases rest with
  | nil =>
    rw [mem_singleton] at hyRest
    exact hxy hyRest.symm
  | cons z rest =>
    have hz : s.succ x = z := hRest.2.1
    rw [hSelf] at hz
    have hOut := (List.nodup_cons.mp hRest.1).1
    rw [hz] at hOut
    exact hOut mem_cons_self

/- The walk to another link passes all of its own ring. -/
theorem reach [DecidableEq ν]
    {c : CachedLinks α ν} (h : Rings c.store ring owner) (hx : owner x = some n) (y : α) :
    ∃ rest, (∀ z, z ∈ x :: rest ↔ owner z = some n) ∧
      c.store.reachLoop x y c.store.links.card (c.store.succ x) = some (decide (y ∈ rest)) := by
  rcases h.rest_of_owner hx with ⟨rest, hSegment, hOut, hOwners, hLength, -⟩
  refine ⟨rest, hOwners, reachLoop_spec hSegment hOut ?_ hLength⟩
  intro z hz
  exact h.next_of_owner z ((hOwners z).mp (mem_cons_of_mem _ hz))

theorem is_linked_to [DecidableEq ν]
    {c : CachedLinks α ν} (h : Rings c.store ring owner) (hxy : x ≠ y) :
    ∃ b, c.store.is_linked_to x y = some b ∧
      (b = true ↔ SameRing owner x y) := by
  unfold LinkStore.is_linked_to
  by_cases hSame : ∃ n, owner x = some n ∧ owner y = some n
  · rcases hSame with ⟨n, hx, hy⟩
    rcases h.reach hx y with ⟨rest, hOwners, hLoop⟩
    have hyRest : y ∈ rest := by grind
    rw [h.is_linked_of_ne hx hy hxy, h.is_linked_of_ne hy hx (Ne.symm hxy)]
    refine ⟨true, ?_, ?_⟩
    · simp only [Bool.true_eq_false, if_false, h.next_of_owner x hx,
        bind_eq_bind, bind_some, hLoop, hyRest, decide_true]
    · refine ⟨fun _ => Or.inr ⟨?_, ?_⟩, fun _ => rfl⟩
      · rw [hx]
        exact some_ne_none n
      · rw [hx, hy]
  · have hNot : ¬SameRing owner x y := by
      rintro (hEq | ⟨hSome, hEq⟩)
      · exact hxy hEq
      · rcases Option.ne_none_iff_exists'.mp hSome with ⟨n, hn⟩
        exact hSame ⟨n, hn, hEq ▸ hn⟩
    refine ⟨false, ?_, ?_⟩
    · by_cases hx : c.store.is_linked x = false
      · rw [if_pos hx]
      · rw [if_neg hx]
        by_cases hy : c.store.is_linked y = false
        · rw [if_pos hy]
        · rw [if_neg hy]
          have hxNext : c.store.next_ x ≠ none := by
            intro hNone
            rw [LinkStore.is_linked, hNone] at hx
            exact hx rfl
          rcases h.owner_of_next hxNext with ⟨n, hOwn⟩
          rcases h.reach hOwn y with ⟨rest, hOwners, hLoop⟩
          have hyRest : y ∉ rest := by grind
          simp only [h.next_of_owner x hOwn, bind_eq_bind, bind_some, hLoop, hyRest, decide_false]
    · simp [hNot]

end Rings

end Walks

----
-- Probes That Are Found
----

namespace EventTable

variable (t : EventTable α π ε σ)

/- What a quick search finds out about the other event. -/
def QuickFound [DecidableEq π] (connected : α → α → Prop) (this : π) (isquick : Nat)
    (q : π) : Prop :=
  (isquick = 1 → t.probes_ (t.event q) = [q]) ∧
  (isquick = 2 → ∃ mine q', t.enext_ this = some mine ∧
    t.probes_ (t.event q) = [q, q'] ∧
    t.edge q' = t.edge mine ∧
    connected (t.pin0 q') (t.pin0 mine))

/- A probe that the search takes for a similar one. -/
structure Judged [DecidableEq π] (connected : α → α → Prop) (this : π) (isquick : Nat)
    (q : π) : Prop where
  other : q ≠ this
  edge : t.edge this = t.edge q
  later : List.Forall₂ connected (t.pins this).tail (t.pins q).tail
  quick : t.QuickFound connected this isquick q

/-
  A probe that the search finds: some pin of it, perhaps not
  its first one, is on the nexus of the first pin.
-/
def Found [DecidableEq π] (connected : α → α → Prop) (this : π) (isquick : Nat) (q : π) : Prop :=
  (∃ l ∈ t.pins q, connected (t.pin0 this) l) ∧ t.Judged connected this isquick q

/- The pins of the probes are links that exist. -/
def Alive (c : CachedLinks α ν) : Prop :=
  ∀ p, ∀ l ∈ t.pins p, l ∈ c.store.links

end EventTable

section Found

variable [DecidableEq α] [DecidableEq ν]
  {t : EventTable α π ε σ}
  {fresh : α → ν} {connected : α → α → Prop}
  {ring : ν → List α} {owner : α → Option ν}
  {c : CachedLinks α ν} {this p q tmp : π} {isquick : Nat}

omit [DecidableEq α] in
theorem pin0_mem (t : EventTable α π ε σ) (p : π) : t.pin0 p ∈ t.pins p :=
  List.head_mem (t.pin_zero p)

omit [DecidableEq α] in
/- A link is a pin of one probe only. -/
theorem pin_ne {l r : α} (hpq : p ≠ q) (hl : l ∈ t.pins p) (hr : r ∈ t.pins q) : l ≠ r := by
  rintro rfl
  rw [← t.pin_object] at hl hr
  rw [hl] at hr
  injection hr with hEq
  injection hEq with hEq
  exact hpq hEq

theorem pinsLinked_spec {ls rs : List α} (h : SearchState fresh connected ring owner c)
    (hLength : ls.length = rs.length) (hNe : ∀ l ∈ ls, ∀ r ∈ rs, l ≠ r) :
    ∃ b, c.store.pinsLinked ls rs = some b ∧
      (b = true ↔ List.Forall₂ connected ls rs) := by
  induction ls generalizing rs with
  | nil =>
    rw [List.length_eq_zero_iff.mp hLength.symm]
    exact ⟨true, rfl, fun _ => List.Forall₂.nil, fun _ => rfl⟩
  | cons l ls ih =>
    cases rs with
    | nil => cases hLength
    | cons r rs =>
      have hlr := hNe l mem_cons_self r mem_cons_self
      rcases h.rings.is_linked_to hlr with ⟨b, hLinked, hb⟩
      rw [h.connections] at hb
      simp only [LinkStore.pinsLinked, hLinked]
      rw [List.forall₂_cons]
      cases b with
      | false => grind
      | true => grind

/-
  The state after a part of a search. Remembered nexuses
  matter to the quick search of two edges only.
-/
def Searched (fresh : α → ν) (connected : α → α → Prop) (needed : Prop) (owner : α → Option ν)
    (c c' : CachedLinks α ν) : Prop :=
  ∃ ring' owner', SearchState fresh connected ring' owner' c' ∧
    SearchKeeps owner owner' c c' ∧ (needed → c'.Current)

theorem searched_same {needed : Prop} (h : SearchState fresh connected ring owner c)
    (hCurrent : needed → c.Current) : Searched fresh connected needed owner c c :=
  ⟨ring, owner, h, SearchKeeps.refl owner c, hCurrent⟩

/- Two lookups compare the nexuses of two links. -/
theorem lookup_both {x y : α} (h : SearchState fresh connected ring owner c)
    (hFresh : Function.Injective fresh) (hCurrent : c.Current)
    (hx : x ∈ c.store.links) (hy : y ∈ c.store.links) :
    ∃ n m c₁ c₂,
      c.find_nexus_post_elab (fresh x) x = some (n, c₁) ∧
      c₁.find_nexus_post_elab (fresh y) y = some (m, c₂) ∧
      Searched fresh connected True owner c c₂ ∧
      (n = m ↔ connected x y) := by
  rcases h.lookup hFresh hCurrent hx with
    ⟨c₁, ring₁, owner₁, n, hFirst, hState₁, hKeeps₁, hOn₁, hCurrent₁⟩
  rw [← hKeeps₁.links] at hy
  rcases hState₁.lookup hFresh hCurrent₁ hy with
    ⟨c₂, ring₂, owner₂, m, hSecond, hState₂, hKeeps₂, hOn₂, hCurrent₂⟩
  refine ⟨some n, some m, c₁, c₂, hFirst, hSecond,
    ⟨ring₂, owner₂, hState₂, hKeeps₁.trans hKeeps₂, fun _ => hCurrent₂⟩, ?_⟩
  have hSome : owner₁ x ≠ none := by
    rw [hOn₁]
    exact some_ne_none n
  have hOnX := hKeeps₂.kept x hSome
  rw [hOn₁] at hOnX
  constructor
  · intro hEq
    rw [hEq] at hOnX
    exact hState₂.connected_of_owner hOnX hOn₂
  · intro hConnected
    rw [← hOnX, ← hOn₂]
    exact hState₂.owner_eq hConnected

variable [DecidableEq π]

omit [DecidableEq α] in
theorem enext_second {mine : π} (hMine : t.probes_ (t.event this) = [this, mine]) :
    t.enext_ this = some mine := by
  rw [EventTable.enext_, hMine]
  simp

theorem secondProbe_spec {mine : π} (h : SearchState fresh connected ring owner c)
    (hFresh : Function.Injective fresh) (hAlive : t.Alive c)
    (hCurrent : c.Current) (hMine : t.probes_ (t.event this) = [this, mine])
    (hOther : tmp ≠ this) (hEdge : t.edge this = t.edge tmp) :
    ∃ b c', t.secondProbe fresh this tmp c = some (b, c') ∧
      Searched fresh connected True owner c c' ∧
      (b = true ↔ ∃ q', t.probes_ (t.event tmp) = [tmp, q'] ∧
        t.edge q' = t.edge mine ∧
        connected (t.pin0 q') (t.pin0 mine)) := by
  have hSame := searched_same h fun _ : True => hCurrent
  have hIn : tmp ∈ t.probes_ (t.event tmp) := (t.listed tmp _).mpr rfl
  unfold EventTable.secondProbe
  rcases hList : t.probes_ (t.event tmp) with _ | ⟨p, enext⟩
  · rw [hList] at hIn
    cases hIn
  · dsimp only
    by_cases hp : p = tmp
    · rw [if_neg (not_not_intro hp)]
      rcases enext with _ | ⟨q, _ | ⟨q₂, enext⟩⟩
      · refine ⟨false, c, rfl, hSame, ?_⟩
        simp
      · have hApart : q ≠ mine := by
          rintro rfl
          have hMineIn : q ∈ t.probes_ (t.event this) := by
            rw [hMine]
            simp
          have hqIn : q ∈ t.probes_ (t.event tmp) := by
            rw [hList]
            simp
          rw [t.listed] at hMineIn hqIn
          grind
        simp only [enext_second hMine, bind_eq_bind, bind_some,
          hp, hEdge, ne_eq, not_true_eq_false, false_or]
        by_cases hEdges : t.edge q = t.edge mine
        · rw [if_neg (not_not_intro hEdges)]
          rcases lookup_both h hFresh hCurrent
              (hAlive q _ (pin0_mem t q))
              (hAlive mine _ (pin0_mem t mine))
            with ⟨n, m, c₁, c₂, hFirst, hSecond, hDone, hEq⟩
          refine ⟨decide (n = m), c₂, ?_, hDone, ?_⟩
          · simp only [hFirst, hSecond, bind_some]
          · rw [decide_eq_true_iff, hEq]
            simp [hEdges]
        · rw [if_pos hEdges]
          refine ⟨false, c, rfl, hSame, ?_⟩
          simp [hEdges]
      · refine ⟨false, c, rfl, hSame, ?_⟩
        simp
    · rw [if_pos hp]
      refine ⟨false, c, rfl, hSame, ?_⟩
      simp [hp]

/- A quick search of two edges starts at the first one. -/
def EventTable.QuickReady (t : EventTable α π ε σ) (this : π) (isquick : Nat)
    (c : CachedLinks α ν) : Prop :=
  isquick = 2 → c.Current ∧ ∃ mine, t.probes_ (t.event this) = [this, mine]

theorem quickCheck_spec (h : SearchState fresh connected ring owner c)
    (hFresh : Function.Injective fresh) (hAlive : t.Alive c)
    (hReady : t.QuickReady this isquick c) (hOther : tmp ≠ this)
    (hEdge : t.edge this = t.edge tmp) :
    ∃ b c', t.quickCheck fresh this isquick tmp c = some (b, c') ∧
      Searched fresh connected (isquick = 2) owner c c' ∧
      (b = true ↔
        t.QuickFound connected this isquick tmp) := by
  have hSame := searched_same h fun hTwo => (hReady hTwo).1
  unfold EventTable.quickCheck EventTable.QuickFound
  by_cases hOne : isquick = 1
  · rw [if_pos hOne]
    have hIn : tmp ∈ t.probes_ (t.event tmp) := (t.listed tmp _).mpr rfl
    rcases hList : t.probes_ (t.event tmp) with _ | ⟨p, enext⟩
    · rw [hList] at hIn
      cases hIn
    · grind
  · rw [if_neg hOne]
    by_cases hTwo : isquick = 2
    · rw [if_pos hTwo]
      rcases hReady hTwo with ⟨hCurrent, mine, hMine⟩
      rcases secondProbe_spec h hFresh hAlive hCurrent hMine hOther hEdge with
        ⟨b, c', hRun, ⟨ring', owner', hState, hKeeps, hCur⟩, hb⟩
      refine ⟨b, c', hRun, ⟨ring', owner', hState, hKeeps, fun _ => hCur True.intro⟩, ?_⟩
      rw [hb]
      simp [hTwo, enext_second hMine]
    · rw [if_neg hTwo]
      refine ⟨true, c, rfl, hSame, ?_⟩
      simp [hOne, hTwo]

omit [DecidableEq α] [DecidableEq π] in
theorem pin_count_of_later (h : List.Forall₂ connected (t.pins this).tail (t.pins q).tail) :
    t.pin_count q = t.pin_count this := by
  have hTails := h.length_eq
  have hThis := List.length_pos_iff.mpr (t.pin_zero this)
  have hQ := List.length_pos_iff.mpr (t.pin_zero q)
  rw [length_tail, length_tail] at hTails
  unfold EventTable.pin_count
  omega

theorem similarStep_spec (h : SearchState fresh connected ring owner c)
    (hFresh : Function.Injective fresh) (hAlive : t.Alive c)
    (hReady : t.QuickReady this isquick c) (lcur : α) :
    ∃ here c', t.similarStep fresh this isquick lcur c = some (here, c') ∧
      Searched fresh connected (isquick = 2) owner c c' ∧
      ∀ q, q ∈ here ↔ t.get_obj lcur = some (.probe q) ∧
        t.Judged connected this isquick q := by
  have hSame := searched_same h fun hTwo => (hReady hTwo).1
  unfold EventTable.similarStep
  rcases hObj : t.get_obj lcur with _ | _ | _
  · exact ⟨[], c, rfl, hSame, by simp⟩
  · next tmp =>
      dsimp only
      by_cases hCount : t.pin_count tmp = t.pin_count this
      · rw [if_neg (not_not_intro hCount)]
        by_cases hThis : tmp = this
        · rw [if_pos hThis]
          refine ⟨[], c, rfl, hSame, ?_⟩
          intro q
          constructor
          · intro hNil
            cases hNil
          · rintro ⟨hEq, hJudged⟩
            injection hEq with hEq
            injection hEq with hEq
            exact absurd (hEq.symm.trans hThis) hJudged.other
        · rw [if_neg hThis]
          by_cases hEdge : t.edge this = t.edge tmp
          · rw [if_neg (not_not_intro hEdge)]
            have hTails : (t.pins this).tail.length = (t.pins tmp).tail.length := by
              unfold EventTable.pin_count at hCount
              rw [length_tail, length_tail, hCount]
            rcases pinsLinked_spec h hTails
                (fun l hl r hr => pin_ne (Ne.symm hThis)
                  (List.mem_of_mem_tail hl)
                  (List.mem_of_mem_tail hr)) with
              ⟨ok_flag, hOk, hLater⟩
            rcases quickCheck_spec h hFresh hAlive hReady hThis
                hEdge with ⟨quick, c', hQuick, hDone, hFound⟩
            simp only [hOk, hQuick]
            refine ⟨_, c', rfl, hDone, ?_⟩
            intro q
            constructor
            · intro hMem
              split at hMem
              · next hBoth =>
                  rw [mem_singleton] at hMem
                  rw [hMem]
                  exact ⟨rfl, hThis, hEdge, hLater.mp hBoth.2, hFound.mp hBoth.1⟩
              · cases hMem
            · rintro ⟨hEq, hJudged⟩
              injection hEq with hEq
              injection hEq with hEq
              rw [hEq] at hLater hFound ⊢
              rw [if_pos ⟨hFound.mpr hJudged.quick, hLater.mpr hJudged.later⟩]
              exact List.mem_singleton_self q
          · rw [if_pos hEdge]
            refine ⟨[], c, rfl, hSame, ?_⟩
            intro q
            constructor
            · intro hNil
              cases hNil
            · rintro ⟨hEq, hJudged⟩
              injection hEq with hEq
              injection hEq with hEq
              rw [hEq] at hEdge
              exact absurd hJudged.edge hEdge
      · rw [if_pos hCount]
        refine ⟨[], c, rfl, hSame, ?_⟩
        intro q
        constructor
        · intro hNil
          cases hNil
        · rintro ⟨hEq, hJudged⟩
          injection hEq with hEq
          injection hEq with hEq
          rw [hEq] at hCount
          exact absurd (pin_count_of_later hJudged.later) hCount
  · exact ⟨[], c, rfl, hSame, by simp⟩

omit [DecidableEq α] [DecidableEq ν] [DecidableEq π] in
theorem visits_congr {s s' : LinkStore α ν} {lcur : Option α} {l : List α}
    (hSame : ∀ y ∈ l, s'.next_nlink y = s.next_nlink y) (h : s.Visits lcur l) :
    s'.Visits lcur l := by
  induction l generalizing lcur with
  | nil =>
    cases lcur with
    | none => exact True.intro
    | some x => exact h.elim
  | cons y l ih =>
    cases lcur with
    | none => exact h.elim
    | some x =>
      rcases h with ⟨hxy, hRest⟩
      refine ⟨hxy, ?_⟩
      rw [hSame y mem_cons_self]
      exact ih (fun z hz => hSame z (mem_cons_of_mem _ hz)) hRest

/- The walk judges the object of each link it visits. -/
theorem similarLoop_spec {visited : List α} {lcur : Option α} {fuel : Nat}
    (h : SearchState fresh connected ring owner c)
    (hFresh : Function.Injective fresh) (hAlive : t.Alive c)
    (hReady : t.QuickReady this isquick c) (hVisits : c.store.Visits lcur visited)
    (hOn : ∀ y ∈ visited, owner y ≠ none) (hFuel : visited.length ≤ fuel) :
    ∃ plist c', t.similarLoop fresh this isquick fuel lcur c = some (plist, c') ∧
      Searched fresh connected (isquick = 2) owner c c' ∧
      ∀ q, q ∈ plist ↔
        (∃ y ∈ visited, t.get_obj y = some (.probe q)) ∧
        t.Judged connected this isquick q := by
  induction visited generalizing lcur fuel c ring owner with
  | nil =>
    cases lcur with
    | some x => exact hVisits.elim
    | none =>
      refine ⟨[], c, by rw [EventTable.similarLoop],
        searched_same h fun hTwo => (hReady hTwo).1, ?_⟩
      simp
  | cons y visited ih =>
    cases lcur with
    | none => exact hVisits.elim
    | some x =>
      rcases hVisits with ⟨rfl, hRest⟩
      obtain ⟨fuel, rfl⟩ : ∃ f, fuel = f + 1 :=
        ⟨fuel - 1, by
          rw [length_cons] at hFuel
          omega⟩
      have hShort : visited.length ≤ fuel := by
        rw [length_cons] at hFuel
        omega
      have hOnRest : ∀ z ∈ visited, owner z ≠ none := fun z hz => hOn z (mem_cons_of_mem _ hz)
      rcases similarStep_spec h hFresh hAlive hReady x with
        ⟨here, c₁, hStep, ⟨ring₁, owner₁, hState₁, hKeeps₁, hCurrent₁⟩, hHere⟩
      have hAlive₁ : t.Alive c₁ := by
        intro p l hl
        rw [hKeeps₁.links]
        exact hAlive p l hl
      have hReady₁ : t.QuickReady this isquick c₁ := fun hTwo => ⟨hCurrent₁ hTwo, (hReady hTwo).2⟩
      have hVisits₁ : c₁.store.Visits (c₁.store.next_nlink x) visited := by
        rw [hKeeps₁.next x (hOn x mem_cons_self)]
        apply visits_congr _ hRest
        intro z hz
        exact hKeeps₁.next z (hOnRest z hz)
      have hOn₁ : ∀ z ∈ visited, owner₁ z ≠ none := by
        intro z hz
        rw [hKeeps₁.kept z (hOnRest z hz)]
        exact hOnRest z hz
      rcases ih hState₁ hAlive₁ hReady₁ hVisits₁ hOn₁ hShort with
        ⟨plist, c₂, hLoop, ⟨ring₂, owner₂, hState₂, hKeeps₂, hCurrent₂⟩, hList⟩
      refine ⟨here ++ plist, c₂, ?_, ⟨ring₂, owner₂, hState₂, hKeeps₁.trans hKeeps₂, hCurrent₂⟩, ?_⟩
      · rw [EventTable.similarLoop]
        simp only [hStep, hLoop, bind_eq_bind, bind_some]
      · grind

theorem find_similar_probes_spec (h : SearchState fresh connected ring owner c)
    (hFresh : Function.Injective fresh) (hAlive : t.Alive c)
    (hReady : t.QuickReady this isquick c) :
    ∃ plist c', t.find_similar_probes fresh this isquick c = some (plist, c') ∧
      Searched fresh connected (isquick = 2) owner c c' ∧
      ∀ q, q ∈ plist ↔ t.Found connected this isquick q := by
  rcases h.linkNexus hFresh (hAlive this _ (pin0_mem t this)) with
    ⟨s, ring₁, owner₁, n, hNexus, hState₁, hKeeps₁, hOn₁, hCurrent₁⟩
  rcases hState₁.rings.visits hOn₁ with ⟨lcur, hFirst, hVisits⟩
  have hAlive₁ : t.Alive { c with store := s } := by
    intro p l hl
    rw [hKeeps₁.links]
    exact hAlive p l hl
  have hReady₁ :
      t.QuickReady this isquick { c with store := s } :=
    fun hTwo => ⟨hCurrent₁ (hReady hTwo).1, (hReady hTwo).2⟩
  have hOn : ∀ y ∈ ring₁ n, owner₁ y ≠ none := by
    intro y hy
    rw [(hState₁.rings.mem n y).mp hy]
    exact some_ne_none n
  rcases similarLoop_spec hState₁ hFresh hAlive₁ hReady₁
      hVisits hOn (hState₁.rings.length_le n) with
    ⟨plist, c₂, hLoop, ⟨ring₂, owner₂, hState₂, hKeeps₂, hCurrent₂⟩, hList⟩
  refine ⟨plist, c₂, ?_, ⟨ring₂, owner₂, hState₂, hKeeps₁.trans hKeeps₂, hCurrent₂⟩, ?_⟩
  · simp only [EventTable.find_similar_probes, hNexus, hFirst, bind_eq_bind, bind_some]
    exact hLoop
  · intro q
    have hRing : ∀ y, y ∈ ring₁ n ↔
        connected (t.pin0 this) y := by
      intro y
      rw [hState₁.rings.mem]
      constructor
      · exact fun hy => hState₁.connected_of_owner hOn₁ hy
      · intro hy
        rw [← hState₁.owner_eq hy]
        exact hOn₁
    rw [hList, EventTable.Found]
    simp only [hRing, t.pin_object, and_comm]

end Found

end EpicSim
