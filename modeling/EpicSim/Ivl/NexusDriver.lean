import EpicSim.Ivl.NexusRuns

/-
  Replacing the driver of a nexus: every link that drives it
  is to move to the circle of another link. The walk moves
  links while it follows their pointers, so it works for one
  driver only.
-/

namespace EpicSim

open Function (update_of_ne update_self)
open Option (some_inj some_ne_none bind_eq_bind bind_some bind_eq_some_iff any_some)
open CircularList

/- `NetNet::Type` -/
inductive NetType
| NONE
| IMPLICIT
| IMPLICIT_REG
| INTEGER
| WIRE
| TRI
| TRI1
| SUPPLY0
| SUPPLY1
| WAND
| TRIAND
| TRI0
| WOR
| TRIOR
| REG
| TRIREG
| UNRESOLVED_WIRE
deriving DecidableEq, Repr

/- The types that the switch of the walk names. -/
def NetType.drives : NetType → Bool
| .WAND | .WOR | .TRIAND | .TRIOR | .REG => true
| _ => false

namespace LinkStore

variable {α ν : Type} [DecidableEq α] [DecidableEq ν]

----
-- The Walk
----

/- A link that has a nexus is the last one of its list. -/
def nextNlink (s : LinkStore α ν) (l : α) : Option α :=
  match s.nexus_ l with
  | some _ => none
  | none => s.next_ l

def firstNlink (s : LinkStore α ν) (this : ν) : Option α :=
  match s.list this with
  | some list_ => s.next_ list_
  | none => none

/-
  The two calls with which a link leaves the nexus and goes
  to the circle of `l`.
-/
def moveTo (s : LinkStore α ν) (this fresh : ν)
    (l cur : α) : Option (LinkStore α ν) := do
  let s ← s.nexusUnlink this cur
  s.connect fresh cur l

/-
  The second test of the body, on the link's direction and
  on the type of the net whose pin it is, if it is the pin
  of a net.
-/
def replaceByType (obj : α → Option NetType) (this fresh : ν) (l cur : α)
    (s : LinkStore α ν) : Option (LinkStore α ν) :=
  if s.dir cur = .INPUT then some s
  else
    match obj cur with
    | some type =>
      if type.drives then s.moveTo this fresh l cur
      else some s
    | none => some s

/- The body of the walk. A moved output is tested again. -/
def replaceStep (obj : α → Option NetType) (this fresh : ν) (l cur : α)
    (s : LinkStore α ν) : Option (LinkStore α ν) := do
  let s ←
    if s.dir cur = .OUTPUT then s.moveTo this fresh l cur
    else some s
  s.replaceByType obj this fresh l cur

/-
  The walk, with the links that it visits. A walk that
  succeeds makes one nexus at most, at the address `fresh`.
-/
def replaceLoop (obj : α → Option NetType) (this fresh : ν) (l : α) :
    Nat → Option α → LinkStore α ν → Option (LinkStore α ν × List α)
| _, none, s => some (s, [])
| 0, some _, _ => none
| fuel + 1, some cur, s => do
    let s ← s.replaceStep obj this fresh l cur
    let (s', visited) ←
      replaceLoop obj this fresh l fuel (s.nextNlink cur) s
    some (s', cur :: visited)

/- `Nexus::replace_driver` -/
def replaceDriver (s : LinkStore α ν) (obj : α → Option NetType) (this fresh : ν) (l : α)
    (fuel : Nat) : Option (LinkStore α ν × List α) :=
  replaceLoop obj this fresh l fuel (s.firstNlink this) s

----
-- What It Is For
----

/- The link is on the circle of the nexus. -/
def OnNexus (s : LinkStore α ν) (n : ν) (x : α) : Prop :=
  s.linkedNexus x = some (some n)

instance (s : LinkStore α ν) (n : ν) (x : α) : Decidable (s.OnNexus n x) :=
  inferInstanceAs (Decidable (s.linkedNexus x = some (some n)))

/-
  A driver is an output, or a passive pin of a net of one of
  those types.
-/
def IsDriver (s : LinkStore α ν) (obj : α → Option NetType) (x : α) : Prop :=
  s.dir x = .OUTPUT ∨ (s.dir x = .PASSIVE ∧ (obj x).any NetType.drives)

instance (s : LinkStore α ν) (obj : α → Option NetType) (x : α) : Decidable (s.IsDriver obj x) :=
  inferInstanceAs (Decidable (_ ∨ _))

/- The drivers went to the circle of `l`, the others stayed. -/
structure DriversMoved (s s' : LinkStore α ν) (obj : α → Option NetType) (this : ν)
    (l : α) : Prop where
  moved : ∀ x, s.OnNexus this x → s.IsDriver obj x → ∃ k, s'.OnNexus k x ∧ s'.OnNexus k l
  kept : ∀ x, s.OnNexus this x → ¬s.IsDriver obj x → s'.OnNexus this x

/- The walk ends and does what it is for. -/
def ReplacesRight (s : LinkStore α ν) (obj : α → Option NetType) (this fresh : ν) (l : α) : Prop :=
  ∃ fuel s' visited,
    s.replaceDriver obj this fresh l fuel = some (s', visited) ∧
      (∀ x ∈ visited, s.OnNexus this x) ∧
      DriversMoved s s' obj this l

/-
  Nothing drives the nexus, or one link does that the walk
  moves once, and `l` is on a circle already.
-/
def ReplaceHolds (s : LinkStore α ν) (obj : α → Option NetType) (this : ν) (l : α) : Prop :=
  (∀ x, s.OnNexus this x → ¬s.IsDriver obj x) ∨
    ∃ d, s.OnNexus this d ∧ s.IsDriver obj d ∧
      (∀ x, s.OnNexus this x → s.IsDriver obj x → x = d) ∧
      s.next_ l ≠ none ∧
      ¬(s.dir d = .OUTPUT ∧ (obj d).any NetType.drives)

end LinkStore

variable {α ν : Type} {s s' : LinkStore α ν} {ring : ν → List α}
  {owner : α → Option ν} {n k this fresh : ν}
  {x d l t : α} {obj : α → Option NetType}

----
-- Following The Pointers
----

namespace Rings

theorem onRing_succ (h : Rings s ring owner) (hx : owner x = some n) :
    owner (s.succ x) = some n := by
  have hMem := (h.mem n x).mpr hx
  rcases (mem_queued_iff (h.queued n) x).mp hMem with ⟨q, i, hList, rfl⟩
  rw [← h.mem, mem_queued_iff (h.queued n)]
  refine ⟨q, i + 1, hList, ?_⟩
  rw [Function.iterate_succ_apply']

section Split

variable {left right : List α}

theorem owner_middle (h : Rings s ring owner) (hRing : ring n = left ++ x :: right) :
    owner x = some n := by
  rw [← h.mem, hRing]
  exact List.mem_append_right _ List.mem_cons_self

theorem owner_right {y : α} (h : Rings s ring owner) (hRing : ring n = left ++ x :: right)
    (hy : y ∈ right) : owner y = some n := by
  rw [← h.mem, hRing]
  exact List.mem_append_right _ (List.mem_cons_of_mem _ hy)

theorem not_mem_right (h : Rings s ring owner) (hRing : ring n = left ++ x :: right) :
    x ∉ right := by
  have hNodup := queued_nodup (h.queued n)
  rw [hRing, List.nodup_middle, List.nodup_cons] at hNodup
  exact fun hMem => hNodup.1 (List.mem_append_right _ hMem)

/- The next link is the next one in the order of the ring. -/
theorem nextNlink (h : Rings s ring owner) (hRing : ring n = left ++ x :: right) :
    s.nextNlink x = right.head? := by
  have hOwn := h.owner_middle hRing
  rcases h.list_of_owner hOwn with ⟨t, hList⟩
  have hQueued := h.queued n
  rw [hList, hRing] at hQueued
  have hNodup := queued_nodup hQueued
  unfold LinkStore.nextNlink
  cases right with
  | nil =>
    rcases hQueued with ⟨front, hEq, -⟩
    rcases List.append_inj' hEq rfl with ⟨-, hLast⟩
    obtain rfl : x = t := by simpa using hLast
    rw [(h.back x n).mpr hList]
    rfl
  | cons y right =>
    have hNexus : s.nexus_ x = none := by
      rcases hAt : s.nexus_ x with _ | m
      · rfl
      · have hLast := (h.back x m).mp hAt
        have hSame := h.owner_last hLast
        rw [hOwn, some_inj] at hSame
        rw [← hSame, hList, some_inj] at hLast
        have ht : t ∈ y :: right := queued_tail hQueued
        grind
    have hSucc : s.succ x = y := by
      have hFrom : left ++ x :: y :: right = (left ++ [x]) ++ y :: right := by
        rw [List.append_assoc]
        rfl
      rw [hFrom] at hQueued
      have hWalk := queued_walk hQueued
      rw [← List.cons_append] at hWalk
      exact segment_last hWalk
    rw [hNexus, List.head?_cons, ← hSucc]
    apply h.next_eq
    rw [hOwn]
    exact some_ne_none n

end Split

theorem firstNlink (h : Rings s ring owner) (n : ν) : s.firstNlink n = (ring n).head? := by
  have hQueued := h.queued n
  unfold LinkStore.firstNlink
  rcases hList : s.list n with _ | t
  · rw [(queued_nil_iff hQueued).mp hList]
    rfl
  · rw [hList] at hQueued
    rcases hRing : ring n with _ | ⟨a, rest⟩
    · have hMem := h.last_mem hList
      rw [hRing] at hMem
      cases hMem
    · rw [hRing] at hQueued
      have hWalk := @queued_walk α [] rest s.succ t a hQueued
      have hSucc : s.succ t = a := hWalk.2
      rw [List.head?_cons, ← hSucc]
      apply h.next_eq
      rw [h.owner_last hList]
      exact some_ne_none n

variable [DecidableEq α]

/- The walk of an unlink does not find a link elsewhere. -/
theorem prevLoop_elsewhere (h : Rings s ring owner) (hd : owner d ≠ some n) (fuel : Nat)
    (hx : owner x = some n) : s.prevLoop d fuel x = none := by
  induction fuel generalizing x with
  | zero => rfl
  | succ fuel ih =>
    have hNext : s.next_ x = some (s.succ x) := by
      apply h.next_eq
      rw [hx]
      exact some_ne_none n
    have hOwn := h.onRing_succ hx
    rw [LinkStore.prevLoop, hNext, if_neg]
    · exact ih hOwn
    · grind

variable [DecidableEq ν]

theorem nexusUnlink_elsewhere (h : Rings s ring owner) (hd : owner d ≠ some n) :
    s.nexusUnlink n d = none := by
  unfold LinkStore.nexusUnlink
  rcases hHeap : s.heap n with _ | cell
  · rfl
  · simp only [bind_eq_bind, bind_some]
    by_cases hSelf : s.next_ d = some d
    · rw [if_pos hSelf, if_neg]
      rintro ⟨hNexus, -⟩
      exact hd (h.owner_last ((h.back d n).mp hNexus))
    · rw [if_neg hSelf]
      rcases hLast : cell.list_ with _ | t
      · rfl
      · have hn : s.list n = some t := by
          unfold LinkStore.list
          rw [hHeap]
          exact hLast
        rw [bind_some, h.prevLoop_elsewhere hd _ (h.owner_last hn)]
        rfl

end Rings

variable [DecidableEq α] [DecidableEq ν]

/- An unlink keeps the directions and the other nexuses. -/
theorem nexusUnlink_frame (h : s.nexusUnlink n x = some s') :
    s'.dir = s.dir ∧ ∀ m, m ≠ n → s'.heap m = s.heap m := by
  simp only [LinkStore.nexusUnlink, bind_eq_bind, bind_eq_some_iff] at h
  rcases h with ⟨cell, -, h⟩
  have hOther : ∀ c m, m ≠ n →
      Function.update s.heap n c m = s.heap m :=
    fun c m hm => update_of_ne hm c s.heap
  by_cases hSelf : s.next_ x = some x
  · rw [if_pos hSelf] at h
    split_ifs at h
    cases h
    exact ⟨rfl, hOther _⟩
  · rw [if_neg hSelf] at h
    simp only [bind_eq_some_iff] at h
    rcases h with ⟨list_, -, prev, -, h⟩
    split_ifs at h
    all_goals
      cases h
      exact ⟨rfl, hOther _⟩

theorem newNexus_dir (hx : s.next_ x = none) (h : s.newNexus n x = some s') : s'.dir = s.dir := by
  rw [LinkStore.newNexus, if_pos hx] at h
  cases h
  rfl

----
-- Moving A Link
----

namespace Rings

/- The link becomes the last one on the circle of `l`. -/
theorem moveTo_linked (h : Rings s ring owner) (hd : owner d = some this) (hl : owner l = some k)
    (hk : k ≠ this) :
    ∃ s' ring', s.moveTo this fresh l d = some s' ∧
      s'.dir = s.dir ∧ s'.nextNlink d = none ∧
      Rings s' ring' (Function.update owner d (some k)) := by
  have hLink : d ∈ s.links := by
    apply h.exist
    rw [hd]
    exact some_ne_none this
  have hdl : d ≠ l := by grind
  rcases h.nexusUnlink hd with ⟨s₁, ring₁, c, hUnlink, hLinks, -, hRings⟩
  have hOwnL : Function.update owner d none l = some k := by
    rw [update_of_ne hdl.symm]
    exact hl
  have hOwnD : Function.update owner d none d = none := update_self _ _ _
  rcases hRings.list_of_owner hOwnL with ⟨t, hList⟩
  rw [← hLinks] at hLink
  rcases hRings.nexusConnect_alone hList hOwnD hLink with ⟨s', hConnect, hDir, -, hMoved⟩
  rw [Function.update_idem] at hMoved
  refine ⟨s', _, ?_, ?_, ?_, hMoved⟩
  · unfold LinkStore.moveTo LinkStore.connect
    simp only [hUnlink, hRings.linkedNexus, hOwnL, hOwnD, bind_eq_bind, bind_some, if_neg hdl]
    exact hConnect
  · rw [hDir, (nexusUnlink_frame hUnlink).1]
  · exact hMoved.nextNlink (update_self _ _ _)

/-
  An unlinked `l` follows the link on the nexus that the two
  are given.
-/
theorem moveTo_unlinked (h : Rings s ring owner) (hd : owner d = some this)
    (hl : owner l = none) (hLink : l ∈ s.links) (hFree : s.heap fresh = none)
    (hThis : fresh ≠ this) :
    ∃ s' ring' owner', s.moveTo this fresh l d = some s' ∧
      s'.dir = s.dir ∧ s'.nextNlink d = some l ∧
      Rings s' ring' owner' ∧ owner' d = some fresh := by
  have hLinkD : d ∈ s.links := by
    apply h.exist
    rw [hd]
    exact some_ne_none this
  have hdl : d ≠ l := by
    rintro rfl
    rw [hd] at hl
    cases hl
  rcases h.nexusUnlink hd with ⟨s₁, ring₁, c, hUnlink, hLinks, -, hRings⟩
  have hFrame := nexusUnlink_frame hUnlink
  have hOwnL : Function.update owner d none l = none := by
    rw [update_of_ne hdl.symm]
    exact hl
  have hOwnD : Function.update owner d none d = none := update_self _ _ _
  have hNext := (hRings.linked d).mpr hOwnD
  rw [← hLinks] at hLink hLinkD
  have hFree₁ : s₁.heap fresh = none := by
    rw [hFrame.2 fresh hThis]
    exact hFree
  rcases hRings.newNexus hFree₁ hNext hLinkD with ⟨s₂, hNew, hLinks₂, -, hFirst⟩
  have hOwnL₂ : Function.update
      (Function.update owner d none) d (some fresh) l =
      none := by
    rw [update_of_ne hdl.symm]
    exact hOwnL
  rcases hFirst.list_of_owner (update_self _ _ _) with ⟨t, hList⟩
  rw [← hLinks₂] at hLink
  rcases hFirst.nexusConnect_alone hList hOwnL₂ hLink with ⟨s', hConnect, hDir, -, hMoved⟩
  refine ⟨s', _, _, ?_, ?_, ?_, hMoved, ?_⟩
  · unfold LinkStore.moveTo LinkStore.connect
    simp only [hUnlink, hRings.linkedNexus, hOwnL, hOwnD, bind_eq_bind, bind_some, if_neg hdl, hNew]
    exact hConnect
  · rw [hDir, newNexus_dir hNext hNew, hFrame.1]
  · apply @Rings.nextNlink α ν s' _ _ fresh d [] [l] hMoved
    rw [update_self, update_self]
    rfl
  · rw [update_of_ne hdl, update_self]

end Rings

----
-- Runs Of The Walk
----

namespace LinkStore

/- The walk from a link on ends after some steps. -/
def Walk (obj : α → Option NetType) (this fresh : ν) (l : α) (cur : Option α) (s s' : LinkStore α ν)
    (visited : List α) : Prop :=
  ∃ fuel, replaceLoop obj this fresh l fuel cur s = some (s', visited)

variable {visited : List α}

theorem walk_none :
    Walk obj this fresh l none s s' visited ↔
      s' = s ∧ visited = [] := by
  have hLoop : ∀ fuel, replaceLoop obj this fresh l fuel none s = some (s, []) := by
    intro fuel
    cases fuel <;> rfl
  unfold Walk
  simp only [hLoop, some_inj, Prod.mk.injEq, exists_const]
  exact and_congr eq_comm eq_comm

theorem walk_some :
    Walk obj this fresh l (some x) s s' visited ↔
      ∃ s₁ rest, s.replaceStep obj this fresh l x = some s₁ ∧
        Walk obj this fresh l (s₁.nextNlink x) s₁ s' rest ∧
        visited = x :: rest := by
  constructor
  · rintro ⟨fuel, hRun⟩
    cases fuel with
    | zero => cases hRun
    | succ fuel =>
      simp only [replaceLoop, bind_eq_bind, bind_eq_some_iff] at hRun
      rcases hRun with ⟨s₁, hStep, ⟨s₂, rest⟩, hRest, rfl, rfl⟩
      exact ⟨s₁, rest, hStep, ⟨fuel, hRest⟩, rfl⟩
  · rintro ⟨s₁, rest, hStep, ⟨fuel, hRest⟩, rfl⟩
    refine ⟨fuel + 1, ?_⟩
    simp only [replaceLoop, hStep, hRest, bind_eq_bind, bind_some]

theorem replaceByType_stays (hx : s.dir x = .INPUT ∨ ¬(obj x).any NetType.drives) :
    s.replaceByType obj this fresh l x = some s := by
  unfold replaceByType
  by_cases hInput : s.dir x = .INPUT
  · rw [if_pos hInput]
  · grind

theorem replaceByType_moves (hDir : s.dir x ≠ .INPUT) (hAny : (obj x).any NetType.drives) :
    s.replaceByType obj this fresh l x = s.moveTo this fresh l x := by
  unfold replaceByType
  rw [if_neg hDir]
  rcases hObj : obj x with _ | type
  · rw [hObj] at hAny
    cases hAny
  · rw [hObj] at hAny
    exact if_pos hAny

theorem replaceStep_output (hOut : s.dir x = .OUTPUT) :
    s.replaceStep obj this fresh l x =
      (s.moveTo this fresh l x).bind (replaceByType obj this fresh l x) := by
  unfold replaceStep
  rw [if_pos hOut]
  rfl

theorem replaceStep_not_output (hOut : s.dir x ≠ .OUTPUT) :
    s.replaceStep obj this fresh l x = s.replaceByType obj this fresh l x := by
  unfold replaceStep
  rw [if_neg hOut]
  rfl

theorem replaceStep_other (hx : ¬s.IsDriver obj x) : s.replaceStep obj this fresh l x = some s := by
  rw [IsDriver, not_or, not_and] at hx
  rw [replaceStep_not_output hx.1, replaceByType_stays]
  cases hDir : s.dir x with
  | INPUT => exact Or.inl rfl
  | OUTPUT => exact absurd hDir hx.1
  | PASSIVE => exact Or.inr (hx.2 hDir)

/- A driver of one kind only moves once. -/
theorem replaceStep_once {s₁ : LinkStore α ν} (hd : s.IsDriver obj d)
    (hOnce : ¬(s.dir d = .OUTPUT ∧ (obj d).any NetType.drives))
    (hMove : s.moveTo this fresh l d = some s₁) : s.replaceStep obj this fresh l d = some s₁ := by
  rcases hd with hOut | ⟨hPassive, hAny⟩
  · have hNot : ¬(obj d).any NetType.drives :=
      fun hAny => hOnce ⟨hOut, hAny⟩
    rw [replaceStep_output hOut, hMove, bind_some, replaceByType_stays (Or.inr hNot)]
  · rw [replaceStep_not_output (by rw [hPassive]; decide),
      replaceByType_moves (by rw [hPassive]; decide) hAny, hMove]

/- An output of such a net is to leave the nexus twice. -/
theorem replaceStep_twice {s₁ : LinkStore α ν}
    (hTwice : s.dir d = .OUTPUT ∧ (obj d).any NetType.drives)
    (hMove : s.moveTo this fresh l d = some s₁) (hDir : s₁.dir = s.dir)
    (hGone : s₁.nexusUnlink this d = none) : s.replaceStep obj this fresh l d = none := by
  have hNot : s₁.dir d ≠ .INPUT := by
    rw [hDir, hTwice.1]
    decide
  rw [replaceStep_output hTwice.1, hMove, bind_some,
    replaceByType_moves hNot hTwice.2, moveTo, hGone]
  rfl

end LinkStore

namespace Rings

/- The walk passes the links that are no drivers. -/
theorem walk_others {left others right visited : List α} (h : Rings s ring owner)
    (hRing : ring n = left ++ (others ++ right)) (hOthers : ∀ x ∈ others, ¬s.IsDriver obj x) :
    LinkStore.Walk obj this fresh l (others ++ right).head? s s' visited ↔
      ∃ rest, LinkStore.Walk obj this fresh l right.head? s s' rest ∧ visited = others ++ rest := by
  induction others generalizing left visited with
  | nil => simp
  | cons x others ih =>
    rw [List.forall_mem_cons] at hOthers
    have hNext : s.nextNlink x = (others ++ right).head? := h.nextNlink hRing
    have hShift : ring n = (left ++ [x]) ++ (others ++ right) := by
      rw [hRing, List.append_assoc]
      rfl
    rw [List.cons_append, List.head?_cons, LinkStore.walk_some,
      LinkStore.replaceStep_other hOthers.1]
    constructor
    · grind
    · rintro ⟨rest, hWalk, rfl⟩
      refine ⟨s, others ++ rest, rfl, ?_, rfl⟩
      rw [hNext, ih hShift hOthers.2]
      exact ⟨rest, hWalk, rfl⟩

end Rings

----
-- Exactly When The Driver Is Replaced
----

namespace Rings

omit [DecidableEq ν] in
theorem onNexus_iff (h : Rings s ring owner) : s.OnNexus n x ↔ owner x = some n := by
  rw [LinkStore.OnNexus, h.linkedNexus, some_inj]

/- Without a driver the walk passes the whole list. -/
theorem replaces_no_driver (h : Rings s ring owner) (hNone : ∀ x ∈ ring this, ¬s.IsDriver obj x) :
    s.ReplacesRight obj this fresh l := by
  have hWalk := @h.walk_others α ν s s ring owner this
    this fresh l obj _ _ [] (ring this) [] (ring this)
    (by simp) hNone
  rw [List.append_nil] at hWalk
  rcases hWalk.mpr ⟨[], LinkStore.walk_none.mpr ⟨rfl, rfl⟩,
    (List.append_nil _).symm⟩ with ⟨fuel, hRun⟩
  rw [← h.firstNlink] at hRun
  refine ⟨fuel, s, ring this, hRun, ?_, ?_, ?_⟩
  · intro x hx
    rw [h.onNexus_iff]
    exact (h.mem this x).mp hx
  · intro x hx hDriver
    rw [h.onNexus_iff, ← h.mem] at hx
    exact absurd hDriver (hNone x hx)
  · intro x hx _
    exact hx

section FirstDriver

variable {others right visited : List α}

section

variable (h : Rings s ring owner)

include h

/- The walk comes to the first driver. -/
theorem replaceDriver_iff (hRing : ring this = others ++ d :: right)
    (hOthers : ∀ x ∈ others, ¬s.IsDriver obj x) :
    (∃ fuel, s.replaceDriver obj this fresh l fuel =
      some (s', visited)) ↔
      ∃ rest, LinkStore.Walk obj this fresh l (some d) s s' rest ∧ visited = others ++ rest := by
  have hWalk := @h.walk_others α ν s s' ring owner this
    this fresh l obj _ _ [] others (d :: right) visited
    hRing hOthers
  rw [← hRing, ← h.firstNlink] at hWalk
  exact hWalk

omit [DecidableEq ν] in
theorem only_driver (hRing : ring this = others ++ d :: right)
    (hOthers : ∀ x ∈ others, ¬s.IsDriver obj x)
    (hRight : ∀ x ∈ right, ¬s.IsDriver obj x) (x : α) (hx : s.OnNexus this x)
    (hDriver : s.IsDriver obj x) : x = d := by
  rw [h.onNexus_iff, ← h.mem, hRing] at hx
  rcases List.mem_append.mp hx with hx | hx
  · exact absurd hDriver (hOthers x hx)
  · grind

/- The first move takes the driver off the nexus. -/
theorem moveTo_some (hd : owner d = some this)
    (hl : owner l ≠ some this) (hLink : l ∈ s.links)
    (hFree : s.heap fresh = none) (hThis : fresh ≠ this) :
    ∃ s₁, s.moveTo this fresh l d = some s₁ ∧
      s₁.dir = s.dir ∧ s₁.nexusUnlink this d = none := by
  rcases hOwn : owner l with _ | k
  · rcases h.moveTo_unlinked hd hOwn hLink hFree hThis with
      ⟨s₁, ring₁, owner₁, hMove, hDir, -, hRings, hOwnD⟩
    refine ⟨s₁, hMove, hDir, hRings.nexusUnlink_elsewhere ?_⟩
    rw [hOwnD, Ne, some_inj]
    exact hThis
  · have hk : k ≠ this := by
      rintro rfl
      exact hl hOwn
    rcases @h.moveTo_linked α ν s ring owner k this fresh
      d l _ _ hd hOwn hk with ⟨s₁, ring₁, hMove, hDir, -, hRings⟩
    refine ⟨s₁, hMove, hDir, hRings.nexusUnlink_elsewhere ?_⟩
    rw [update_self, Ne, some_inj]
    exact hk

section

variable (hRing : ring this = others ++ d :: right) (hOthers : ∀ x ∈ others, ¬s.IsDriver obj x)

include hRing hOthers

/- A driver that is to move twice makes the walk fail. -/
theorem not_replaces_twice (hl : owner l ≠ some this) (hLink : l ∈ s.links)
    (hFree : s.heap fresh = none) (hThis : fresh ≠ this)
    (hTwice : s.dir d = .OUTPUT ∧ (obj d).any NetType.drives) :
    ¬s.ReplacesRight obj this fresh l := by
  rintro ⟨fuel, s', visited, hRun, -, -⟩
  rcases (h.replaceDriver_iff hRing hOthers).mp ⟨fuel, hRun⟩ with ⟨rest, hWalk, -⟩
  rcases LinkStore.walk_some.mp hWalk with ⟨s₂, -, hStep, -, -⟩
  have hd := h.owner_middle hRing
  rcases h.moveTo_some hd hl hLink hFree hThis with ⟨s₁, hMove, hDir, hGone⟩
  rw [LinkStore.replaceStep_twice hTwice hMove hDir hGone] at hStep
  cases hStep

/- After the first driver the walk follows an unlinked `l`. -/
theorem not_replaces_unlinked (hDriver : s.IsDriver obj d) (hl : owner l = none)
    (hLink : l ∈ s.links) (hFree : s.heap fresh = none) (hThis : fresh ≠ this)
    (hOnce : ¬(s.dir d = .OUTPUT ∧ (obj d).any NetType.drives)) :
    ¬s.ReplacesRight obj this fresh l := by
  rintro ⟨fuel, s', visited, hRun, hVisited, -⟩
  rcases (h.replaceDriver_iff hRing hOthers).mp ⟨fuel, hRun⟩ with ⟨rest, hWalk, rfl⟩
  rcases LinkStore.walk_some.mp hWalk with ⟨s₂, rest, hStep, hRest, rfl⟩
  have hd := h.owner_middle hRing
  rcases h.moveTo_unlinked hd hl hLink hFree hThis with ⟨s₁, ring₁, owner₁, hMove, -, hNext, -, -⟩
  rw [LinkStore.replaceStep_once hDriver hOnce hMove, some_inj] at hStep
  rw [← hStep, hNext] at hRest
  rcases LinkStore.walk_some.mp hRest with ⟨-, last, -, -, rfl⟩
  have hOn : s.OnNexus this l := hVisited l (by simp)
  rw [h.onNexus_iff, hl] at hOn
  cases hOn

/- After the first driver the walk is at its end. -/
theorem replaces_linked (hDriver : s.IsDriver obj d) (hl : owner l = some k) (hk : k ≠ this)
    (hOnce : ¬(s.dir d = .OUTPUT ∧ (obj d).any NetType.drives)) :
    s.ReplacesRight obj this fresh l ↔
      ∀ x ∈ right, ¬s.IsDriver obj x := by
  have hd := h.owner_middle hRing
  have hdl : l ≠ d := by grind
  have hOut := h.not_mem_right hRing
  rcases @h.moveTo_linked α ν s ring owner k this fresh
    d l _ _ hd hl hk with ⟨s₁, ring₁, hMove, -, hNext, hRings⟩
  have hStep := LinkStore.replaceStep_once hDriver hOnce hMove
  have hOwnL : Function.update owner d (some k) l = some k := by
    rw [update_of_ne hdl]
    exact hl
  constructor
  · rintro ⟨fuel, s', visited, hRun, -, hMoved⟩ x hx hDriverX
    rcases (h.replaceDriver_iff hRing hOthers).mp ⟨fuel, hRun⟩ with ⟨rest, hWalk, rfl⟩
    rcases LinkStore.walk_some.mp hWalk with ⟨s₂, rest, hStep₂, hRest, rfl⟩
    rw [hStep, some_inj] at hStep₂
    rw [← hStep₂, hNext, LinkStore.walk_none] at hRest
    rcases hRest with ⟨rfl, -⟩
    have hOwnX := h.owner_right hRing hx
    rcases hMoved.moved x (h.onNexus_iff.mpr hOwnX) hDriverX with ⟨m, hOnX, hOnL⟩
    have hxd : x ≠ d := by
      rintro rfl
      exact hOut hx
    rw [hRings.onNexus_iff, update_of_ne hxd, hOwnX, some_inj] at hOnX
    rw [hRings.onNexus_iff, hOwnL, some_inj] at hOnL
    exact hk (hOnL.trans hOnX.symm)
  · intro hRight
    have hEnd : LinkStore.Walk obj this fresh l (s₁.nextNlink d) s₁ s₁ [] := by
      rw [hNext]
      exact LinkStore.walk_none.mpr ⟨rfl, rfl⟩
    rcases (h.replaceDriver_iff hRing hOthers).mpr
      ⟨[d], LinkStore.walk_some.mpr ⟨s₁, [], hStep, hEnd, rfl⟩, rfl⟩ with ⟨fuel, hRun⟩
    have hOnly := h.only_driver hRing hOthers hRight
    refine ⟨fuel, s₁, others ++ [d], hRun, ?_, ?_, ?_⟩
    · intro x hx
      rw [h.onNexus_iff, ← h.mem, hRing]
      grind
    · intro x hx hDriverX
      rw [hOnly x hx hDriverX]
      refine ⟨k, ?_, hRings.onNexus_iff.mpr hOwnL⟩
      rw [hRings.onNexus_iff, update_self]
    · intro x hx hNot
      have hxd : x ≠ d := by
        rintro rfl
        exact hNot hDriver
      rw [hRings.onNexus_iff, update_of_ne hxd]
      exact h.onNexus_iff.mp hx

end

end

end FirstDriver

/- The first driver of a ring that has one. -/
omit [DecidableEq α] [DecidableEq ν] in
theorem first_driver (h : Rings s ring owner) (hx : owner x = some this)
    (hDriver : s.IsDriver obj x) :
    ∃ others d right, ring this = others ++ d :: right ∧
      (∀ y ∈ others, ¬s.IsDriver obj y) ∧
      s.IsDriver obj d := by
  have hMem := (h.mem this x).mpr hx
  have hFind : ((ring this).find? (fun y => decide (s.IsDriver obj y))).isSome := by grind
  rcases Option.isSome_iff_exists.mp hFind with ⟨d, hd⟩
  rcases List.find?_eq_some_iff_append.mp hd with ⟨hTrue, others, right, hRing, hOthers⟩
  refine ⟨others, d, right, hRing, ?_, of_decide_eq_true hTrue⟩
  intro y hy hDriverY
  have hNot := hOthers y hy
  rw [decide_eq_true hDriverY] at hNot
  cases hNot

end Rings

/-
  The walk replaces the drivers of a nexus exactly when
  there is at most one, which moves once, and the other link
  is on a circle.
-/
theorem replaces_right_iff {connected : α → α → Prop} (hRun : LinkRun s connected)
    (hThis : (s.heap this).isSome) (hLink : l ∈ s.links)
    (hOther : ¬s.OnNexus this l) (hFree : s.heap fresh = none) :
    s.ReplacesRight obj this fresh l ↔
      s.ReplaceHolds obj this l := by
  rcases hRun.rings with ⟨ring, owner, h, -⟩
  rw [h.onNexus_iff] at hOther
  have hFresh : fresh ≠ this := by
    rintro rfl
    rw [hFree] at hThis
    cases hThis
  by_cases hAny : ∃ x, owner x = some this ∧ s.IsDriver obj x
  · rcases hAny with ⟨x, hx, hDriverX⟩
    rcases h.first_driver hx hDriverX with ⟨others, d, right, hRing, hOthers, hDriver⟩
    have hd := h.owner_middle hRing
    constructor
    · intro hRight
      have hOnce : ¬(s.dir d = .OUTPUT ∧
          (obj d).any NetType.drives) :=
        fun hTwice => h.not_replaces_twice hRing hOthers hOther hLink hFree hFresh hTwice hRight
      rcases hl : owner l with _ | k
      · exact absurd hRight (h.not_replaces_unlinked hRing
          hOthers hDriver hl hLink hFree hFresh hOnce)
      · have hk : k ≠ this := by
          rintro rfl
          exact hOther hl
        have hLast := (h.replaces_linked hRing hOthers hDriver hl hk hOnce).mp hRight
        right
        refine ⟨d, h.onNexus_iff.mpr hd, hDriver, ?_, ?_, hOnce⟩
        · exact h.only_driver hRing hOthers hLast
        · rw [Ne, h.linked, hl]
          exact some_ne_none k
    · rintro (hNone | ⟨e, -, -, hOnly, hNext, hOnce⟩)
      · exact absurd hDriver (hNone d (h.onNexus_iff.mpr hd))
      · obtain rfl := hOnly d (h.onNexus_iff.mpr hd) hDriver
        rcases h.owner_of_next hNext with ⟨k, hl⟩
        have hk : k ≠ this := by
          rintro rfl
          exact hOther hl
        apply (h.replaces_linked hRing hOthers hDriver hl hk hOnce).mpr
        intro y hy hDriverY
        have hOn := h.onNexus_iff.mpr (h.owner_right hRing hy)
        rw [hOnly y hOn hDriverY] at hy
        exact h.not_mem_right hRing hy
  · have hNone : ∀ x, s.OnNexus this x →
        ¬s.IsDriver obj x := by
      intro x hx hDriver
      exact hAny ⟨x, h.onNexus_iff.mp hx, hDriver⟩
    constructor
    · intro _
      exact Or.inl hNone
    · intro _
      apply h.replaces_no_driver
      intro x hx
      exact hNone x (h.onNexus_iff.mpr ((h.mem this x).mp hx))

/- One output among three links, and a circle of two. -/
theorem replaces_right_iff_one :
    ∃ s₁ s₂ s₃ : LinkStore (Fin 5) Nat,
      (LinkOp.connect 7 0 1).run
        (LinkStore.start {0, 1, 2, 3, 4} fun x => if x = 0 then .OUTPUT else .PASSIVE) = some s₁ ∧
      (LinkOp.connect 8 2 0).run s₁ = some s₂ ∧
      (LinkOp.connect 9 3 4).run s₂ = some s₃ ∧
      s₃.ReplacesRight (fun _ => none) 7 10 3 := by
  refine ⟨_, _, _, rfl, rfl, rfl, (replaces_right_iff
    (LinkRun.step (.connect 9 3 4)
      (LinkRun.step (.connect 8 2 0)
        (LinkRun.step (.connect 7 0 1)
          (LinkRun.start {0, 1, 2, 3, 4} fun x => if x = 0 then .OUTPUT else .PASSIVE)
          ?_ rfl) ?_ rfl) ?_ rfl) ?_ ?_ ?_ rfl).mpr
    (Or.inr ⟨0, ?_⟩)⟩
  · exact ⟨by decide, by decide, by decide, rfl⟩
  · exact ⟨by decide, by decide, by decide, rfl⟩
  · exact ⟨by decide, by decide, by decide, rfl⟩
  · rfl
  · decide
  · decide
  · decide

/- The second of two outputs stays on its nexus. -/
theorem second_driver_stays :
    ∃ (s : LinkStore (Fin 5) Nat)
      (connected : Fin 5 → Fin 5 → Prop),
      LinkRun s connected ∧ (s.heap 7).isSome ∧
        3 ∈ s.links ∧ s.linkedNexus 3 = some (some 9) ∧
        s.heap 10 = none ∧
        ¬s.ReplacesRight (fun _ => none) 7 10 3 := by
  refine ⟨_, _,
    LinkRun.step (.connect 9 3 4)
      (LinkRun.step (.connect 8 2 0)
        (LinkRun.step (.connect 7 0 1)
          (LinkRun.start {0, 1, 2, 3, 4} fun x => if x < 2 then .OUTPUT else .PASSIVE)
          ⟨by decide, by decide, by decide, rfl⟩ rfl)
        ⟨by decide, by decide, by decide, rfl⟩ rfl)
      ⟨by decide, by decide, by decide, rfl⟩ rfl,
    rfl, by decide, by decide, rfl, ?_⟩
  rintro ⟨fuel, s', visited, hRun, -, hMoved⟩
  rcases LinkStore.walk_some.mp ⟨fuel, hRun⟩ with ⟨s₁, rest, hStep, hWalk, -⟩
  obtain rfl := Option.some.inj hStep
  rcases LinkStore.walk_none.mp hWalk with ⟨rfl, -⟩
  rcases hMoved.moved 1 (by decide) (by decide) with ⟨k, hOn, hOnL⟩
  have hFirst : some (some 7) = some (some k) := hOn
  have hSecond : some (some 9) = some (some k) := hOnL
  cases hFirst
  cases hSecond

end EpicSim
