import EpicSim.Ivl.NexusRuns

/-
  The nexus that a link remembers once it was looked up after
  elaboration. Nothing clears it when links are connected or
  unlinked later.
-/

namespace EpicSim

open Option (bind_eq_bind bind_eq_some_iff some_ne_none some_inj)
open CircularList

variable {α ν : Type}

/- The links with their `lnexus_` fields. -/
structure CachedLinks (α ν : Type) where
  store : LinkStore α ν
  lnexus_ : α → Option ν

namespace CachedLinks

variable [DecidableEq α]

----
-- Looking For The Nexus After Elaboration
----

/-
  The walk from the next link on to a link that knows a
  nexus. It gives the nexus and the link.
-/
def postElabLoop (c : CachedLinks α ν) (this : α) : Nat → α → Option (Option (ν × α))
| 0, _ => none
| fuel + 1, cur =>
  if cur = this then some none
  else
    match c.store.nexus_ cur with
    | some nn => some (some (nn, cur))
    | none =>
      match c.lnexus_ cur with
      | some nn => some (some (nn, cur))
      | none => do
          let cur ← c.store.next_ cur
          postElabLoop c this fuel cur

/- The links that the walk passed remember the nexus. -/
def rememberLoop (next_ : α → Option α) (nn : ν) (stop : α) :
    Nat → α → (α → Option ν) → Option (α → Option ν)
| 0, _, _ => none
| fuel + 1, cur, lnexus_ =>
  if cur = stop then some lnexus_
  else do
    let next ← next_ cur
    rememberLoop next_ nn stop fuel next (Function.update lnexus_ cur (some nn))

/-
  `Link::find_nexus_post_elab`. A link that is not on a ring
  gets a new nexus, at the address `fresh`.
-/
def find_nexus_post_elab [DecidableEq ν] (c : CachedLinks α ν) (fresh : ν)
    (this : α) : Option (Option ν × CachedLinks α ν) :=
  match c.store.next_ this with
  | none => do
      let s ← c.store.newNexus fresh this
      some (some fresh, { c with store := s })
  | some next =>
    match c.store.nexus_ this with
    | some n => some (some n, c)
    | none =>
      match c.lnexus_ this with
      | some n => some (some n, c)
      | none => do
          let fuel := c.store.links.card
          match ← c.postElabLoop this fuel next with
          | none => some (none, c)
          | some (nn, cur) =>
            let lnexus_ ← rememberLoop c.store.next_ nn
              cur fuel next c.lnexus_
            some (some nn, { c with lnexus_ := Function.update lnexus_ this (some nn) })

/-
  Every nexus that a link remembers is the nexus that the
  link is on.
-/
def Current [DecidableEq ν] (c : CachedLinks α ν) : Prop :=
  ∀ x ∈ c.store.links, ∀ n, c.lnexus_ x = some n → c.store.linkedNexus x = some (some n)

end CachedLinks

----
-- Histories
----

/- Only a new link starts without a nexus to remember. -/
def LinkOp.keepCache [DecidableEq α] (lnexus_ : α → Option ν) : LinkOp α ν → α → Option ν
| .construct l => Function.update lnexus_ l none
| _ => lnexus_

/-
  A state that some sequence of operations on links and of
  lookups after elaboration reaches, with the connections
  that were made.
-/
inductive CachedRun {α ν : Type} [DecidableEq α] [DecidableEq ν] :
    CachedLinks α ν → (α → α → Prop) → Prop
| start (links : Finset α) (dir : α → LinkDir) :
    CachedRun ⟨LinkStore.start links dir, fun _ => none⟩ Eq
| link {c : CachedLinks α ν} {s : LinkStore α ν}
    {connected : α → α → Prop} (op : LinkOp α ν) :
    CachedRun c connected → op.Allowed c.store →
    op.run c.store = some s →
    CachedRun ⟨s, op.keepCache c.lnexus_⟩ (op.relate c.store connected)
| lookup {c c' : CachedLinks α ν} {connected : α → α → Prop}
    {n : Option ν} (fresh : ν) (l : α) :
    CachedRun c connected → l ∈ c.store.links →
    c.store.heap fresh = none →
    c.find_nexus_post_elab fresh l = some (n, c') →
    CachedRun c' connected

----
-- What A Lookup Changes
----

section Lookup

variable [DecidableEq α] [DecidableEq ν]
  {c c' : CachedLinks α ν} {fresh : ν} {x : α}
  {found : Option ν}

/- A lookup makes a new nexus, or changes no link. -/
theorem find_nexus_post_elab_store (h : c.find_nexus_post_elab fresh x = some (found, c')) :
    (c.store.next_ x = none ∧ c.store.newNexus fresh x = some c'.store) ∨
    c'.store = c.store := by
  unfold CachedLinks.find_nexus_post_elab at h
  rcases hNext : c.store.next_ x with _ | next
  · left
    simp only [hNext, bind_eq_bind, bind_eq_some_iff] at h
    grind
  · right
    simp only [hNext] at h
    rcases hNexus : c.store.nexus_ x with _ | n
    · simp only [hNexus] at h
      rcases hCached : c.lnexus_ x with _ | n
      · simp only [hCached, bind_eq_bind, bind_eq_some_iff] at h
        rcases h with ⟨_ | ⟨nn, cur⟩, -, h⟩
        · cases h
          rfl
        · simp only [bind_eq_some_iff] at h
          grind
      · simp only [hCached] at h
        cases h
        rfl
    · simp only [hNexus] at h
      cases h
      rfl

/- The links of a history are those of a run of links. -/
theorem CachedRun.linkRun {connected : α → α → Prop} (h : CachedRun c connected) :
    LinkRun c.store connected := by
  induction h with
  | start links dir => exact LinkRun.start links dir
  | link op _ hAllowed hRun ih => exact LinkRun.step op ih hAllowed hRun
  | @lookup c c' connected found fresh l _ hl hFree hRun ih =>
    rcases find_nexus_post_elab_store hRun with ⟨hNext, hNew⟩ | hSame
    · have hNexus : c.store.nexus_ l = none := by
        rcases ih.rings with ⟨ring, owner, hRings, -⟩
        rcases hAt : c.store.nexus_ l with _ | m
        · rfl
        · have hOwn := hRings.owner_last ((hRings.back l m).mp hAt)
          rw [(hRings.linked l).mp hNext] at hOwn
          cases hOwn
      refine LinkRun.step (.nexus fresh l) ih ⟨hl, hFree⟩ ?_
      rw [LinkOp.run, LinkStore.linkNexus, if_pos hNext, if_pos hNexus, hNew]
      rfl
    · rw [hSame]
      exact ih

end Lookup

----
-- What A Lookup Finds
----

section Walks

variable [DecidableEq α] {c : CachedLinks α ν} {n : ν}
  {x t cur : α} {fuel : Nat}

/- The walk stops at a link that knows a nexus. -/
theorem postElabLoop_spec {rest : List α} (hSegment : Segment c.store.succ cur rest x)
    (hOut : x ∉ rest) (hNext : ∀ y ∈ rest, c.store.next_ y = some (c.store.succ y))
    (ht : t ∈ rest) (hLast : c.store.nexus_ t = some n) (hFuel : rest.length ≤ fuel) :
    ∃ before y after nn, rest = before ++ y :: after ∧
      c.postElabLoop x fuel cur = some (some (nn, y)) ∧
      (c.store.nexus_ y = some nn ∨ c.lnexus_ y = some nn) := by
  induction rest generalizing cur fuel with
  | nil => cases ht
  | cons y rest ih =>
    rcases hSegment with ⟨rfl, hRest⟩
    rw [List.mem_cons, not_or] at hOut
    obtain ⟨fuel, rfl⟩ : ∃ f, fuel = f + 1 :=
      ⟨fuel - 1, by
        rw [List.length_cons] at hFuel
        omega⟩
    rw [CachedLinks.postElabLoop, if_neg (Ne.symm hOut.1)]
    rcases hNexus : c.store.nexus_ cur with _ | nn
    · rcases hCached : c.lnexus_ cur with _ | nn
      · have hRestT : t ∈ rest := by grind
        have hShort : rest.length ≤ fuel := by
          rw [List.length_cons] at hFuel
          omega
        grind
      · exact ⟨[], cur, rest, nn, rfl, rfl, Or.inr hCached⟩
    · exact ⟨[], cur, rest, nn, rfl, rfl, Or.inl hNexus⟩

/- Only the links that were passed remember the nexus. -/
theorem rememberLoop_spec {next_ : α → Option α} {succ : α → α} {passed : List α}
    {lnexus_ : α → Option ν} (hSegment : Segment succ cur passed t) (hOut : t ∉ passed)
    (hNext : ∀ y ∈ passed, next_ y = some (succ y)) (hFuel : passed.length < fuel) :
    ∃ lnexus_', CachedLinks.rememberLoop next_ n t fuel cur lnexus_ = some lnexus_' ∧
      ∀ y m, lnexus_' y = some m →
        lnexus_ y = some m ∨ (y ∈ passed ∧ m = n) := by
  induction passed generalizing cur fuel lnexus_ with
  | nil =>
    obtain ⟨fuel, rfl⟩ : ∃ f, fuel = f + 1 := ⟨fuel - 1, by omega⟩
    have hEq : cur = t := hSegment
    refine ⟨lnexus_, ?_, fun y m hy => Or.inl hy⟩
    rw [CachedLinks.rememberLoop, if_pos hEq]
  | cons y passed ih =>
    rcases hSegment with ⟨rfl, hRest⟩
    rw [List.mem_cons, not_or] at hOut
    obtain ⟨fuel, rfl⟩ : ∃ f, fuel = f + 1 := ⟨fuel - 1, by omega⟩
    have hShort : passed.length < fuel := by
      rw [List.length_cons] at hFuel
      omega
    rcases @ih _ _ (Function.update lnexus_ cur (some n)) hRest hOut.2
        (fun y hy => hNext y (List.mem_cons_of_mem _ hy))
        hShort with ⟨lnexus_', hLoop, hOnly⟩
    refine ⟨lnexus_', ?_, ?_⟩
    · rw [CachedLinks.rememberLoop, if_neg (Ne.symm hOut.1), hNext cur List.mem_cons_self]
      exact hLoop
    · grind

end Walks

section Found

variable [DecidableEq α] [DecidableEq ν]
  {c : CachedLinks α ν} {ring : ν → List α}
  {owner : α → Option ν} {fresh n : ν} {x : α}

theorem newNexus_alone {s : LinkStore α ν} (hNext : s.next_ x = none) :
    s.newNexus fresh x = some
      (((s.setCell fresh (some ⟨some x, .NO_GUESS, none⟩)).setNext
        x (some x)).setNexus x (some fresh)) := by
  rw [LinkStore.newNexus, if_pos hNext]

namespace Rings

/- The other links of a ring, from the next one on. -/
omit [DecidableEq α] [DecidableEq ν] in
theorem rest_of_owner (h : Rings c.store ring owner) (hx : owner x = some n) :
    ∃ rest, Segment c.store.succ (c.store.succ x) rest x ∧
      x ∉ rest ∧ (∀ y, y ∈ x :: rest ↔ owner y = some n) ∧
      rest.length < c.store.links.card ∧
      (x :: rest).Nodup := by
  rcases h.list_of_owner hx with ⟨t, hList⟩
  have hQueued := h.queued n
  rw [hList] at hQueued
  rcases hQueued with ⟨front, hRing, hTurn⟩
  have hOwners : ∀ y, y ∈ t :: front ↔ owner y = some n := by
    intro y
    rw [← h.mem, hRing]
    exact (List.perm_append_singleton t front).mem_iff.symm
  rcases ring_from hTurn ((hOwners x).mpr hx) with ⟨rest, hPerm, hRest⟩
  refine ⟨rest, hRest.2, (List.nodup_cons.mp hRest.1).1, ?_, ?_, hRest.1⟩
  · intro y
    rw [hPerm.mem_iff, hOwners]
  · have hBound := h.length_le n
    have hSame := hPerm.length_eq
    grind

/- A link on a ring is told its nexus. -/
theorem find_nexus_post_elab (h : Rings c.store ring owner) (hCurrent : c.Current)
    (hx : owner x = some n) (fresh : ν) :
    ∃ c', c.find_nexus_post_elab fresh x = some (some n, c') ∧
      c'.store = c.store ∧ c'.Current := by
  have hNext : ∀ y, owner y = some n →
      c.store.next_ y = some (c.store.succ y) := by
    intro y hy
    apply h.next_eq
    rw [hy]
    exact some_ne_none n
  have hNexus : ∀ y m, c.store.nexus_ y = some m →
      owner y = some m :=
    fun y m hy => h.owner_last ((h.back y m).mp hy)
  have hCached : ∀ y m, owner y ≠ none →
      c.lnexus_ y = some m → owner y = some m := by
    intro y m hy hm
    have hOn := hCurrent y (h.exist y hy) m hm
    rw [h.linkedNexus, some_inj] at hOn
    exact hOn
  have hSome : ∀ y, owner y = some n → owner y ≠ none := by
    intro y hy
    rw [hy]
    exact some_ne_none n
  simp only [CachedLinks.find_nexus_post_elab, hNext x hx]
  rcases hAt : c.store.nexus_ x with _ | m
  · rcases hMine : c.lnexus_ x with _ | m
    · rcases h.rest_of_owner hx with ⟨rest, hSegment, hOut, hOwners, hLength, hNodup⟩
      have hOn : ∀ y ∈ rest, owner y = some n := by grind
      rcases h.list_of_owner hx with ⟨t, hList⟩
      have hLast := (h.back t n).mpr hList
      have ht : t ∈ rest := by grind
      rcases postElabLoop_spec hSegment hOut
          (fun y hy => hNext y (hOn y hy)) ht hLast hLength.le with
        ⟨before, y, after, nn, hSplit, hLoop, hKnown⟩
      have hy : owner y = some n := by
        apply hOn
        rw [hSplit]
        exact List.mem_append_right _ List.mem_cons_self
      have hnn : nn = n := by
        have hOwn : owner y = some nn := by
          rcases hKnown with hAtY | hMineY
          · exact hNexus y nn hAtY
          · exact hCached y nn (hSome y hy) hMineY
        rw [hy] at hOwn
        exact (Option.some.inj hOwn).symm
      rw [hSplit, segment_append] at hSegment
      rcases hSegment with ⟨y', hBefore, rfl, -⟩
      have hOnce : y' ∉ before := by
        rw [hSplit] at hNodup
        have hMid := (List.nodup_cons.mp hNodup).2
        rw [List.nodup_middle, List.nodup_cons] at hMid
        exact fun hMem => hMid.1 (List.mem_append_left _ hMem)
      have hMemBefore : ∀ z ∈ before, owner z = some n := by grind
      have hShort : before.length < c.store.links.card := by
        rw [hSplit, List.length_append] at hLength
        omega
      rcases @rememberLoop_spec _ _ _ nn _ _ _ _ _ _ c.lnexus_ hBefore hOnce
          (fun z hz => hNext z (hMemBefore z hz)) hShort with
        ⟨lnexus_, hRemember, hOnly⟩
      simp only [hLoop, bind_eq_bind, Option.bind_some, hRemember]
      rw [hnn]
      refine ⟨_, rfl, rfl, ?_⟩
      intro z hz m hm
      rw [h.linkedNexus]
      congr 1
      change Function.update lnexus_ x (some n) z = some m at hm
      rw [Function.update_apply] at hm
      split at hm
      · next hEq =>
          rw [hEq, hx]
          exact hm
      · rcases hOnly z m hm with hOld | ⟨hMem, rfl⟩
        · have hOn' := hCurrent z hz m hOld
          rw [h.linkedNexus, some_inj] at hOn'
          exact hOn'
        · rw [hMemBefore z hMem, hnn]
    · grind
  · grind

/- A new nexus is remembered by nobody. -/
theorem current_newNexus {s : LinkStore α ν} (h : Rings c.store ring owner)
    (hCurrent : c.Current) (hFree : c.store.heap fresh = none)
    (hNext : c.store.next_ x = none) (hx : x ∈ c.store.links)
    (hNew : c.store.newNexus fresh x = some s) : CachedLinks.Current ⟨s, c.lnexus_⟩ := by
  rcases h.newNexus hFree hNext hx with ⟨s', hRun, hLinks, -, hRings⟩
  rw [hNew, some_inj] at hRun
  rw [← hRun] at hLinks hRings
  intro y hy m hm
  rw [hLinks] at hy
  have hOn := hCurrent y hy m hm
  rw [h.linkedNexus] at hOn
  have hyx : y ≠ x := by
    rintro rfl
    rw [(h.linked y).mp hNext] at hOn
    cases hOn
  rw [hRings.linkedNexus, Function.update_of_ne hyx, hOn]

/- Destroying a link forgets what it remembered. -/
theorem current_destroy {s : LinkStore α ν} (h : Rings c.store ring owner) (hCurrent : c.Current)
    (hRun : c.store.linkDestroy x = some s) : CachedLinks.Current ⟨s, c.lnexus_⟩ := by
  rcases h.linkDestroy x with ⟨s', ring', hRun', hLinks, hRings⟩
  rw [hRun, some_inj] at hRun'
  rw [← hRun'] at hLinks hRings
  intro y hy m hm
  rw [hLinks, Finset.mem_erase] at hy
  have hOn := hCurrent y hy.2 m hm
  rw [h.linkedNexus] at hOn
  rw [hRings.linkedNexus, Function.update_of_ne hy.1, hOn]

end Rings

end Found

----
-- Histories That Keep The Cache Right
----

/-
  A history in which nothing is connected or unlinked after
  the first lookup. Links may still be destroyed.
-/
inductive SettledRun {α ν : Type} [DecidableEq α] [DecidableEq ν] :
    CachedLinks α ν → (α → α → Prop) → Prop
| elaborated {s : LinkStore α ν}
    {connected : α → α → Prop} :
    LinkRun s connected →
    SettledRun ⟨s, fun _ => none⟩ connected
| lookup {c c' : CachedLinks α ν} {connected : α → α → Prop}
    {n : Option ν} (fresh : ν) (l : α) :
    SettledRun c connected → l ∈ c.store.links →
    c.store.heap fresh = none →
    c.find_nexus_post_elab fresh l = some (n, c') →
    SettledRun c' connected
| destroy {c : CachedLinks α ν} {s : LinkStore α ν}
    {connected : α → α → Prop} (l : α) :
    SettledRun c connected → l ∈ c.store.links →
    c.store.linkDestroy l = some s →
    SettledRun ⟨s, c.lnexus_⟩ ((LinkOp.destroy l).relate c.store connected)

section Settled

variable [DecidableEq α] [DecidableEq ν]
  {c : CachedLinks α ν} {connected : α → α → Prop}

theorem CachedRun.of_linkRun {s : LinkStore α ν} (h : LinkRun s connected) :
    CachedRun ⟨s, fun _ => none⟩ connected := by
  induction h with
  | start links dir => exact CachedRun.start links dir
  | step op _ hAllowed hRun ih =>
    have hNothing : op.keepCache (fun _ => (none : Option ν)) = fun _ => none := by
      cases op with
      | construct l => exact Function.update_eq_self l _
      | _ => rfl
    have hStep := CachedRun.link op ih hAllowed hRun
    rw [hNothing] at hStep
    exact hStep

theorem SettledRun.cachedRun (h : SettledRun c connected) : CachedRun c connected := by
  induction h with
  | elaborated hRun => exact CachedRun.of_linkRun hRun
  | lookup fresh l _ hl hFree hFind ih => exact CachedRun.lookup fresh l ih hl hFree hFind
  | destroy l _ hl hRun ih => exact CachedRun.link (.destroy l) ih hl hRun

/- Such a history leaves every remembered nexus right. -/
theorem settled_run_current (h : SettledRun c connected) : c.Current := by
  induction h with
  | elaborated _ =>
    intro x _ n hn
    cases hn
  | @lookup c c' connected found fresh l hRun hl hFree hFind ih =>
    rcases hRun.cachedRun.linkRun.rings with ⟨ring, owner, hRings, -⟩
    rcases hOwn : owner l with _ | n
    · have hNext := (hRings.linked l).mpr hOwn
      simp only [CachedLinks.find_nexus_post_elab, hNext, bind_eq_bind, bind_eq_some_iff] at hFind
      rcases hFind with ⟨s, hNew, hEq⟩
      cases hEq
      exact hRings.current_newNexus ih hFree hNext hl hNew
    · rcases hRings.find_nexus_post_elab ih hOwn fresh with ⟨c₁, hFound, -, hCurrent⟩
      rw [hFind] at hFound
      cases hFound
      exact hCurrent
  | destroy l hRun hl hDestroy ih =>
    rcases hRun.cachedRun.linkRun.rings with ⟨ring, owner, hRings, -⟩
    exact hRings.current_destroy ih hDestroy

end Settled

/- A link looks up the nexus of the link it was connected to. -/
theorem settled_run_current_two :
    ∃ c : CachedLinks Nat Nat, c.lnexus_ 0 = some 7 ∧ c.Current :=
  ⟨_, rfl, settled_run_current (.lookup (n := some 7) 8 0
    (.elaborated (.step (.connect 7 0 1) (.start {0, 1} fun _ => .PASSIVE)
      ⟨by decide, by decide, by decide, rfl⟩ rfl)) (by decide) rfl rfl)⟩

end EpicSim
