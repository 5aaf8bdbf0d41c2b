import EpicSim.Lib.CircularList
import EpicSim.Vvp.Vector8

/-
  Islands: ports joined by branches.

  Every end of a branch hangs in a circular list with the
  other ends at the same port.  `addBranch` hooks both ends
  of a new branch into their lists, next to an anchor end
  that the symbol tables remember for each port.
-/

----
-- Branches
----

namespace EpicSim

open Function (update_of_ne update_self update)

/- The cached state of a branch. -/
inductive TranState where
| disabled : TranState
| enabled : TranState
| unknown : TranState
deriving DecidableEq, Repr

/-
  A tran branch between the ports `a` and `b`.  A width of 0
  means no part select; otherwise `b` is the part of `a`.
-/
structure TranBranch where
  a : Nat
  b : Nat
  en : Option Nat
  activeHigh : Bool
  width : Nat
  part : Nat
  offset : Nat
  resistive : Bool
  state : TranState
deriving DecidableEq, Repr

/- One end of a branch: side `a` or side `b`. -/
structure BranchPtr where
  ptr : Nat
  port : Bool
deriving DecidableEq, Repr

namespace TranBranch

/- The constructor: only a branch without enable starts enabled. -/
def new (a b : Nat) (en : Option Nat) (activeHigh : Bool) (width part offset : Nat)
    (resistive : Bool) : TranBranch where
  a := a
  b := b
  en := en
  activeHigh := activeHigh
  width := width
  part := part
  offset := offset
  resistive := resistive
  state := if en.isSome then .disabled else .enabled

/- The port at one side. -/
def net (br : TranBranch) (ab : Bool) : Nat :=
  if ab then br.b else br.a

end TranBranch

/- The other end of the branch. -/
def BranchPtr.other (e : BranchPtr) : BranchPtr :=
  { e with port := !e.port }

/-
  An island: the branches in the order they were added, the
  links of their ends and the anchors of the ports.
-/
structure VvpIsland where
  branches : List TranBranch
  link : BranchPtr → BranchPtr
  anodes : Nat → Option Nat
  bnodes : Nat → Option Nat

namespace VvpIsland

/- An island without branches. -/
def empty : VvpIsland where
  branches := []
  link := id
  anodes := fun _ => none
  bnodes := fun _ => none

/- Put an end behind another one in its circular list. -/
def linkAfter (isl : VvpIsland) (cur self : BranchPtr) : VvpIsland :=
  { isl with link := update (update isl.link self (isl.link cur)) cur self }

/- Start the circular list of a port with a single end. -/
def linkFirst (isl : VvpIsland) (self : BranchPtr) (key : Nat) : VvpIsland :=
  if self.port then
    { isl with
      link := update isl.link self self
      bnodes := update isl.bnodes key (some self.ptr) }
  else
    { isl with
      link := update isl.link self self
      anodes := update isl.anodes key (some self.ptr) }

/- Hook one end into the list of its port. -/
def attach (isl : VvpIsland) (self : BranchPtr) (key : Nat) : VvpIsland :=
  match isl.anodes key with
  | some cur => isl.linkAfter ⟨cur, false⟩ self
  | none =>
    match isl.bnodes key with
    | some cur => isl.linkAfter ⟨cur, true⟩ self
    | none => isl.linkFirst self key

/- `add_branch`: hook side `a`, then side `b`. -/
def addBranch (isl : VvpIsland) (br : TranBranch) : VvpIsland :=
  let id := isl.branches.length
  let linked := (isl.attach ⟨id, false⟩ br.a).attach
    ⟨id, true⟩ br.b
  { linked with branches := isl.branches ++ [br] }

/- The island after all branches have been added. -/
def build (branches : List TranBranch) : VvpIsland :=
  branches.foldl addBranch empty

/- The port an end is attached to. -/
def net (isl : VvpIsland) (e : BranchPtr) : Option Nat :=
  (isl.branches[e.ptr]?).map (fun br => br.net e.port)

/-
  `island_collect_node`: an end and the others around its
  circular list.  `none` would be a walk that never returns.
-/
def collectNode (isl : VvpIsland) (cur : BranchPtr) : Option (List BranchPtr) :=
  (CircularList.collect isl.link cur (2 * isl.branches.length) (isl.link cur)).map (cur :: ·)

end VvpIsland

----
-- Circular Lists Of The Ports
----

open CircularList

namespace VvpIsland

/- The end the symbol tables remember for a port. -/
def anchor (isl : VvpIsland) (key : Nat) : Option BranchPtr :=
  match isl.anodes key with
  | some cur => some ⟨cur, false⟩
  | none => (isl.bnodes key).map (fun cur => ⟨cur, true⟩)

/-
  Of the ends attached so far, those of each port form one
  ring that starts at the anchor.
-/
def Anchored (isl : VvpIsland) (ends : BranchPtr → Option Nat) : Prop :=
  ∀ key,
    (isl.anchor key = none ∧ ∀ e, ends e ≠ some key) ∨
      ∃ first rest,
        isl.anchor key = some first ∧
          Ring isl.link (first :: rest) ∧
          ∀ e, e ∈ first :: rest ↔ ends e = some key

variable {isl : VvpIsland} {key : Nat}

theorem attach_of_anchor {first : BranchPtr} (h : isl.anchor key = some first) (self : BranchPtr) :
    isl.attach self key = isl.linkAfter first self := by
  unfold anchor at h
  unfold attach
  cases hA : isl.anodes key with
  | some cur =>
    simp only [hA, Option.some_inj] at h
    simp only [h]
  | none => grind

theorem attach_of_no_anchor (h : isl.anchor key = none) (self : BranchPtr) :
    isl.attach self key = isl.linkFirst self key := by
  unfold anchor at h
  unfold attach
  cases hA : isl.anodes key with
  | some cur => simp [hA] at h
  | none => grind

theorem anchor_linkFirst (h : isl.anchor key = none) (self : BranchPtr) :
    (isl.linkFirst self key).anchor key = some self ∧
      ∀ other, other ≠ key →
        (isl.linkFirst self key).anchor other = isl.anchor other := by
  rcases self with ⟨ptr, port⟩
  unfold anchor at h
  cases hA : isl.anodes key with
  | some cur => simp [hA] at h
  | none =>
    cases port with
    | false =>
      refine ⟨?_, ?_⟩
      · simp [anchor, linkFirst]
      · intro other hOther
        simp [anchor, linkFirst, update_of_ne hOther]
    | true =>
      refine ⟨?_, ?_⟩
      · simp [anchor, linkFirst, hA]
      · intro other hOther
        simp [anchor, linkFirst, update_of_ne hOther]

theorem link_linkFirst (isl : VvpIsland) (self : BranchPtr) (key : Nat) :
    (isl.linkFirst self key).link = update isl.link self self := by
  unfold linkFirst
  split_ifs <;> rfl

/- The ring of another port stays where its links do. -/
theorem anchored_other {isl isl' : VvpIsland} {ends : BranchPtr → Option Nat}
    {self : BranchPtr} {key other : Nat} (hAnchored : isl.Anchored ends) (hFresh : ends self = none)
    (hKey : other ≠ key) (hAnchor : isl'.anchor other = isl.anchor other)
    (hLink : ∀ e, ends e = some other → isl'.link e = isl.link e) :
    (isl'.anchor other = none ∧ ∀ e, update ends self (some key) e ≠ some other) ∨
      ∃ first rest,
        isl'.anchor other = some first ∧
          Ring isl'.link (first :: rest) ∧
          ∀ e, e ∈ first :: rest ↔
            update ends self (some key) e = some other := by
  have hSame : ∀ e,
      update ends self (some key) e = some other ↔
        ends e = some other := by grind
  rw [hAnchor]
  rcases hAnchored other with ⟨hNone, hEmpty⟩ | ⟨first, rest, hFirst, hRing, hMem⟩
  · exact Or.inl ⟨hNone, fun e => mt (hSame e).mp (hEmpty e)⟩
  · refine Or.inr ⟨first, rest, hFirst, ?_, ?_⟩
    · exact ring_frame (fun e he => hLink e ((hMem e).mp he)) hRing
    · intro e
      rw [hMem, hSame]

/- Attaching a new end keeps one ring per port. -/
theorem attach_anchored {ends : BranchPtr → Option Nat}
    (hAnchored : isl.Anchored ends) {self : BranchPtr} (hFresh : ends self = none) (key : Nat) :
    (isl.attach self key).Anchored (update ends self (some key)) := by
  have hNotSelf : ∀ e other, ends e = some other → e ≠ self := by
    rintro e other he rfl
    rw [hFresh] at he
    cases he
  rcases hAnchored key with ⟨hNone, hEmpty⟩ | ⟨first, rest, hFirst, hRing, hMem⟩
  · rw [attach_of_no_anchor hNone]
    rcases anchor_linkFirst hNone self with ⟨hSelf, hRest⟩
    intro other
    by_cases hKey : other = key
    · subst hKey
      right
      refine ⟨self, [], hSelf, ?_, ?_⟩
      · apply ring_singleton
        rw [link_linkFirst, update_self]
      · grind
    · apply anchored_other hAnchored hFresh hKey (hRest other hKey)
      intro e he
      rw [link_linkFirst]
      exact update_of_ne (hNotSelf e other he) _ _
  · rw [attach_of_anchor hFirst]
    have hSelfOut : self ∉ first :: rest := by
      rw [hMem, hFresh]
      simp
    intro other
    by_cases hKey : other = key
    · subst hKey
      right
      refine ⟨first, self :: rest, hFirst, ring_insert hRing hSelfOut, ?_⟩
      grind
    · have hAnchor :
          (isl.linkAfter first self).anchor other = isl.anchor other := rfl
      apply anchored_other hAnchored hFresh hKey hAnchor
      intro e he
      have heFirst : e ≠ first := by grind
      simp only [linkAfter]
      rw [update_of_ne heFirst, update_of_ne (hNotSelf e other he)]

/- The ends of each port form one ring. -/
def Linked (isl : VvpIsland) : Prop :=
  isl.Anchored isl.net

theorem net_addBranch (isl : VvpIsland) (br : TranBranch) :
    (isl.addBranch br).net =
      update
        (update isl.net ⟨isl.branches.length, false⟩ (some br.a))
        ⟨isl.branches.length, true⟩ (some br.b) := by
  funext e
  rcases e with ⟨ptr, port⟩
  rcases Nat.lt_trichotomy ptr isl.branches.length with hLt | rfl | hGt
  · have hNe : ∀ port', (⟨ptr, port⟩ : BranchPtr) ≠ ⟨isl.branches.length, port'⟩ := by
      intro port' hEq
      injection hEq
      omega
    rw [update_of_ne (hNe true), update_of_ne (hNe false)]
    simp [net, addBranch, List.getElem?_append_left hLt]
  · cases port with
    | false =>
      simp [net, addBranch, TranBranch.net]
    | true =>
      simp [net, addBranch, TranBranch.net]
  · have hNe : ∀ port', (⟨ptr, port⟩ : BranchPtr) ≠ ⟨isl.branches.length, port'⟩ := by
      intro port' hEq
      injection hEq
      omega
    rw [update_of_ne (hNe true), update_of_ne (hNe false)]
    have hOld : isl.branches[ptr]? = none := List.getElem?_eq_none (by omega)
    have hNew : (isl.branches ++ [br])[ptr]? = none :=
      List.getElem?_eq_none (by
        rw [List.length_append, List.length_singleton]
        omega)
    simp [net, addBranch, hOld, hNew]

/- Adding a branch keeps the rings. -/
theorem addBranch_linked (h : isl.Linked) (br : TranBranch) : (isl.addBranch br).Linked := by
  have hFreshA :
      isl.net ⟨isl.branches.length, false⟩ = none := by
    simp [net]
  have hFreshB :
      update isl.net
          ⟨isl.branches.length, false⟩ (some br.a)
          ⟨isl.branches.length, true⟩ = none := by
    simp [net]
  have hBoth := attach_anchored (attach_anchored h hFreshA br.a) hFreshB br.b
  unfold Linked
  rw [net_addBranch]
  exact hBoth

/- Every island built by adding branches is linked. -/
theorem linked_build (branches : List TranBranch) :
    (build branches).Linked ∧
      (build branches).branches = branches := by
  have hFold :
      ∀ (branches : List TranBranch) (isl : VvpIsland),
        isl.Linked →
          (branches.foldl addBranch isl).Linked ∧
            (branches.foldl addBranch isl).branches = isl.branches ++ branches := by
    intro branches
    induction branches with
    | nil => simp
    | cons br branches ih =>
      intro isl h
      rw [List.foldl_cons]
      rcases ih (isl.addBranch br) (addBranch_linked h br) with ⟨hLinked, hBranches⟩
      refine ⟨hLinked, ?_⟩
      rw [hBranches]
      simp [addBranch]
  have hEmpty : empty.Linked := by
    intro key
    left
    simp [anchor, empty, net]
  exact hFold branches empty hEmpty

/- All ends of the branches. -/
def allEnds (isl : VvpIsland) : List BranchPtr :=
  (List.range isl.branches.length).flatMap (fun ptr => [⟨ptr, false⟩, ⟨ptr, true⟩])

theorem mem_allEnds (isl : VvpIsland) (e : BranchPtr) :
    e ∈ isl.allEnds ↔ e.ptr < isl.branches.length := by
  rcases e with ⟨ptr, port⟩
  cases port <;> simp [allEnds]

theorem net_isSome_iff (isl : VvpIsland) (e : BranchPtr) :
    (∃ key, isl.net e = some key) ↔
      e.ptr < isl.branches.length := by
  simp only [net, Option.map_eq_some_iff]
  constructor
  · grind
  · intro hLt
    exact ⟨_, _, List.getElem?_eq_getElem hLt, rfl⟩

/- Collecting a node finds the ends at its port, each once. -/
theorem collectNode_of_linked (h : isl.Linked) {e : BranchPtr} {key : Nat}
    (he : isl.net e = some key) :
    ∃ ends, isl.collectNode e = some ends ∧ ends.Nodup ∧
      ∀ e', e' ∈ ends ↔ isl.net e' = some key := by
  rcases h key with ⟨-, hEmpty⟩ | ⟨first, rest, -, hRing, hMem⟩
  · exact absurd he (hEmpty e)
  · rcases ring_from hRing ((hMem e).mpr he) with ⟨others, hPerm, hRing'⟩
    have hNodup := ring_nodup hRing'
    have hLength : others.length < 2 * isl.branches.length := by
      have hSub : (e :: others) ⊆ isl.allEnds := by
        intro e' he'
        rw [mem_allEnds, ← net_isSome_iff]
        exact ⟨key, (hMem e').mp (hPerm.mem_iff.mp he')⟩
      have hLe := (hNodup.subperm hSub).length_le
      have hAll : isl.allEnds.length = 2 * isl.branches.length := by simp [allEnds, Nat.mul_comm]
      rw [List.length_cons] at hLe
      omega
    refine ⟨e :: others, ?_, hNodup, ?_⟩
    · rw [collectNode, collect_of_ring hRing' hLength]
      rfl
    · intro e'
      rw [hPerm.mem_iff]
      exact hMem e'

end VvpIsland

end EpicSim
