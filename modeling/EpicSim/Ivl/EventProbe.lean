import EpicSim.Lib.FanOut
import Mathlib.Data.Fintype.Basic

/-
  The probes of an event are linked from `probes_`, and the
  event knows its last one in `lprobe_`.

  A probe that is deleted is unlinked, but `lprobe_` stays, so
  that it dangles where the last of several probes goes.
-/

----
-- Probes
----

namespace EpicSim

open FanOut (Chain chain_frame chain_head chain_unique chain_concat scan scan_spec)
open Function (update update_of_ne update_self)

/- `NetEvProbe`, of its links. -/
structure ProbeCell (π ε : Type) where
  event_ : ε
  enext_ : Option π

/-
  The probes that are allocated, and the two ends of the list
  of each event.  No list is longer than `made`, the number of
  probes that were made.
-/
structure ProbeHeap (π ε : Type) where
  heap : π → Option (ProbeCell π ε)
  probes_ : ε → Option π
  lprobe_ : ε → Option π
  made : Nat

/- What becomes of a probe. -/
inductive ProbeOp (π ε : Type) where
| create (p : π) (e : ε)
| delete (p : π)

namespace ProbeHeap

variable {π ε : Type} [DecidableEq π] [DecidableEq ε]

/- Events without probes. -/
def start : ProbeHeap π ε := ⟨fun _ => none, fun _ => none, fun _ => none, 0⟩

/-
  `NetEvProbe::NetEvProbe`, at an address that is free.  None
  is a write through a null pointer or into a deleted probe.
-/
def create (s : ProbeHeap π ε) (p : π) (e : ε) : Option (ProbeHeap π ε) :=
  let heap := update s.heap p (some ⟨e, none⟩)
  match s.probes_ e with
  | none =>
    some
      { heap := heap
        probes_ := update s.probes_ e (some p)
        lprobe_ := update s.lprobe_ e (some p)
        made := s.made + 1 }
  | some _ => do
    let last ← s.lprobe_ e
    let cell ← heap last
    some
      { heap := update heap last (some { cell with enext_ := some p })
        probes_ := s.probes_
        lprobe_ := update s.lprobe_ e (some p)
        made := s.made + 1 }

/- The search for the probe before this one, which is asserted. -/
def unlinkLoop (heap : π → Option (ProbeCell π ε)) (this : π) (enext : Option π) :
    Nat → π → Option (π → Option (ProbeCell π ε))
| 0, _ => none
| fuel + 1, cur => do
  let cell ← heap cur
  if cell.enext_ = some this then
    some (update heap cur (some { cell with enext_ := enext }))
  else
    let next ← cell.enext_
    unlinkLoop heap this enext fuel next

/- `NetEvProbe::~NetEvProbe` -/
def delete (s : ProbeHeap π ε) (this : π) : Option (ProbeHeap π ε) := do
  let cell ← s.heap this
  if s.probes_ cell.event_ = some this then
    some
      { s with
        heap := update s.heap this none
        probes_ := update s.probes_ cell.event_ cell.enext_ }
  else
    let cur ← s.probes_ cell.event_
    let heap ← unlinkLoop s.heap this cell.enext_ s.made cur
    some { s with heap := update heap this none }

def step (s : ProbeHeap π ε) : ProbeOp π ε → Option (ProbeHeap π ε)
| .create p e => s.create p e
| .delete p => s.delete p

def run (s : ProbeHeap π ε) : List (ProbeOp π ε) → Option (ProbeHeap π ε)
| [] => some s
| op :: ops => do
  let s ← s.step op
  run s ops

/- The probe behind one. -/
def nextIn (heap : π → Option (ProbeCell π ε)) (p : π) : Option π :=
  (heap p).bind ProbeCell.enext_

end ProbeHeap

----
-- What the Lists Are to Hold
----

section Lists

variable {π ε : Type} [DecidableEq π] [DecidableEq ε]

/- The live probes with their events, in creation order. -/
def liveAfter (live : List (π × ε)) : ProbeOp π ε → List (π × ε)
| .create p e => live ++ [(p, e)]
| .delete p => live.filter fun entry => entry.1 ≠ p

def liveProbes (ops : List (ProbeOp π ε)) : List (π × ε) :=
  ops.foldl liveAfter []

/- The live probes of an event. -/
def probesOf (live : List (π × ε)) (e : ε) : List π :=
  (live.filter fun entry => entry.2 = e).map Prod.fst

/- A probe is made at a free address, and a live one deleted. -/
def ProbeOp.Allowed (live : List (π × ε)) : ProbeOp π ε → Prop
| .create p _ => p ∉ live.map Prod.fst
| .delete p => p ∈ live.map Prod.fst

instance ProbeOp.decidableAllowed (live : List (π × ε)) :
    ∀ op : ProbeOp π ε, Decidable (op.Allowed live)
| .create p _ => inferInstanceAs (Decidable (p ∉ live.map Prod.fst))
| .delete p => inferInstanceAs (Decidable (p ∈ live.map Prod.fst))

def AllowedFrom : List (π × ε) → List (ProbeOp π ε) → Prop
| _, [] => True
| live, op :: ops => op.Allowed live ∧ AllowedFrom (liveAfter live op) ops

/-
  The list of each event has its live probes, in the order of
  their creation, and `lprobe_` is the last of them.
-/
def ProbeHeap.ListsRight (s : ProbeHeap π ε) (live : List (π × ε)) : Prop :=
  ∀ e, Chain (ProbeHeap.nextIn s.heap) (s.probes_ e) (probesOf live e) ∧
    (probesOf live e ≠ [] → s.lprobe_ e = (probesOf live e).getLast?)

/- The last probe of an event is deleted only as its only one. -/
def ProbeOp.KeepsTail (live : List (π × ε)) : ProbeOp π ε → Prop
| .create _ _ => True
| .delete p => ∀ e, (probesOf live e).getLast? = some p → probesOf live e = [p]

instance ProbeOp.decidableKeepsTail [Fintype ε] (live : List (π × ε)) :
    ∀ op : ProbeOp π ε, Decidable (op.KeepsTail live)
| .create _ _ => inferInstanceAs (Decidable True)
| .delete p => inferInstanceAs
    (Decidable (∀ e, (probesOf live e).getLast? = some p → probesOf live e = [p]))

def KeepsTailFrom : List (π × ε) → List (ProbeOp π ε) → Prop
| _, [] => True
| live, op :: ops => op.KeepsTail live ∧ KeepsTailFrom (liveAfter live op) ops

end Lists

----
-- Live Probes
----

section Live

variable {π ε : Type} [DecidableEq ε] {live : List (π × ε)} {p : π} {e : ε}

theorem mem_probesOf : p ∈ probesOf live e ↔ (p, e) ∈ live := by
  simp [probesOf]

theorem probesOf_sublist : (probesOf live e).Sublist (live.map Prod.fst) :=
  List.filter_sublist.map Prod.fst

theorem probesOf_create (e' : ε) :
    probesOf (live ++ [(p, e)]) e' =
      if e' = e then probesOf live e' ++ [p] else probesOf live e' := by
  unfold probesOf
  rw [List.filter_append, List.map_append]
  split_ifs with hEvent
  · rw [List.filter_cons_of_pos (by simp [hEvent])]
    rfl
  · grind

variable [DecidableEq π]

theorem probesOf_delete (e' : ε) :
    probesOf (live.filter fun entry => entry.1 ≠ p) e' = (probesOf live e').filter (· ≠ p) := by
  unfold probesOf
  rw [List.filter_map, List.filter_filter, List.filter_filter]
  refine congrArg (List.map Prod.fst) (List.filter_congr fun entry _ => ?_)
  exact Bool.and_comm _ _

/- The event of a live probe. -/
omit [DecidableEq ε] [DecidableEq π] in
theorem event_unique (hOnce : (live.map Prod.fst).Nodup) {e' : ε} (h : (p, e) ∈ live)
    (h' : (p, e') ∈ live) : e = e' := by
  have hSame := List.inj_on_of_nodup_map hOnce h h' rfl
  exact congrArg Prod.snd hSame

end Live

----
-- One Step
----

namespace ProbeHeap

variable {π ε : Type} {s : ProbeHeap π ε} {live : List (π × ε)} {p : π} {e : ε}

/- What holds of the heap, whatever `lprobe_` is. -/
structure Inv [DecidableEq ε] (s : ProbeHeap π ε) (live : List (π × ε)) : Prop where
  once : (live.map Prod.fst).Nodup
  cells : ∀ p e, (s.heap p).map ProbeCell.event_ = some e ↔ (p, e) ∈ live
  chain : ∀ e, Chain (nextIn s.heap) (s.probes_ e) (probesOf live e)
  made : live.length ≤ s.made

/- `lprobe_` is the last probe of each event that has one. -/
def TailRight [DecidableEq ε] (s : ProbeHeap π ε) (live : List (π × ε)) : Prop :=
  ∀ e, probesOf live e ≠ [] → s.lprobe_ e = (probesOf live e).getLast?

section Cells

variable [DecidableEq ε]

theorem inv_start [DecidableEq π] : (start : ProbeHeap π ε).Inv [] where
  once := List.nodup_nil
  cells := fun p e => by simp [start]
  chain := fun e => rfl
  made := Nat.le_refl 0

/- A live probe is allocated, for its event. -/
theorem Inv.cell (h : s.Inv live) (hLive : (p, e) ∈ live) :
    ∃ enext, s.heap p = some ⟨e, enext⟩ := by
  have hCell := (h.cells p e).mpr hLive
  rcases Option.map_eq_some_iff.mp hCell with ⟨⟨event, enext⟩, hHeap, rfl⟩
  exact ⟨enext, hHeap⟩

theorem Inv.cell_mem (h : s.Inv live) (hMem : p ∈ probesOf live e) :
    ∃ enext, s.heap p = some ⟨e, enext⟩ :=
  h.cell (mem_probesOf.mp hMem)

/- The heads and the links of the heap. -/
def links (s : ProbeHeap π ε) : FanOut ε π := ⟨s.probes_, nextIn s.heap⟩

theorem Inv.links (h : s.Inv live) : s.links.Holds (probesOf live) where
  chain := h.chain
  nodup := fun _ => probesOf_sublist.nodup h.once
  apart := fun _ _ _ hMem hMem' => event_unique h.once (mem_probesOf.mp hMem)
    (mem_probesOf.mp hMem')

theorem not_mem_of_free (hFree : p ∉ live.map Prod.fst) : p ∉ probesOf live e :=
  fun hMem => hFree (probesOf_sublist.mem hMem)

end Cells

variable [DecidableEq π]

/- The links after a cell is written or freed. -/
theorem nextIn_update (heap : π → Option (ProbeCell π ε)) (p : π)
    (cell : Option (ProbeCell π ε)) :
    nextIn (update heap p cell) = update (nextIn heap) p (cell.bind ProbeCell.enext_) := by
  funext q
  unfold nextIn
  by_cases hSame : q = p
  · rw [hSame, update_self, update_self]
  · rw [update_of_ne hSame, update_of_ne hSame]

variable [DecidableEq ε]

/- Allocated are the live probes and the new one. -/
theorem Inv.cells_put (h : s.Inv live) (hFree : p ∉ live.map Prod.fst) (q : π) (e' : ε) :
    (update s.heap p (some ⟨e, none⟩) q).map ProbeCell.event_ = some e' ↔
      (q, e') ∈ live ++ [(p, e)] := by
  rw [List.mem_append, List.mem_singleton]
  by_cases hSame : q = p
  · grind
  · rw [update_of_ne hSame, h.cells]
    simp [hSame]

/- A cell that is written keeps its event. -/
omit [DecidableEq ε] in
theorem map_event_put {heap : π → Option (ProbeCell π ε)} {cell : ProbeCell π ε}
    (hCell : heap p = some cell) (enext : Option π) (q : π) :
    (update heap p (some { cell with enext_ := enext }) q).map ProbeCell.event_ =
      (heap q).map ProbeCell.event_ := by
  by_cases hSame : q = p
  · rw [hSame, update_self, hCell]
    rfl
  · rw [update_of_ne hSame]

omit [DecidableEq π] [DecidableEq ε] in
theorem once_create (hOnce : (live.map Prod.fst).Nodup) (hFree : p ∉ live.map Prod.fst) :
    ((live ++ [(p, e)]).map Prod.fst).Nodup := by
  rw [List.map_append]
  exact List.nodup_append.mpr ⟨hOnce, List.nodup_singleton p, fun a ha b hb => by
    rintro rfl
    rw [List.mem_singleton.mp hb] at ha
    exact hFree ha⟩

/- A new probe is linked behind the last one. -/
theorem create_spec (h : s.Inv live) (hTail : s.TailRight live)
    (hFree : p ∉ live.map Prod.fst) (e : ε) :
    ∃ s', s.create p e = some s' ∧ s'.Inv (live ++ [(p, e)]) ∧
      s'.TailRight (live ++ [(p, e)]) := by
  have hMade : (live ++ [(p, e)]).length ≤ s.made + 1 := by
    rw [List.length_append]
    exact Nat.succ_le_succ h.made
  have hOnce := once_create (e := e) h.once hFree
  have hTail' : ∀ e', probesOf (live ++ [(p, e)]) e' ≠ [] →
      update s.lprobe_ e (some p) e' = (probesOf (live ++ [(p, e)]) e').getLast? := by
    intro e' hSome
    rw [probesOf_create] at hSome ⊢
    by_cases hEvent : e' = e
    · rw [if_pos hEvent, hEvent, update_self, List.getLast?_concat]
    · rw [if_neg hEvent] at hSome ⊢
      rw [update_of_ne hEvent, hTail e' hSome]
  have hApart : ∀ e', ∀ q ∈ probesOf live e', q ≠ p := by
    rintro e' q hMem rfl
    exact not_mem_of_free hFree hMem
  unfold create
  cases hHead : s.probes_ e with
  | none =>
    have hNil : probesOf live e = [] := by
      have hChain := h.chain e
      rw [hHead] at hChain
      exact chain_unique hChain rfl
    refine ⟨_, rfl, ⟨hOnce, h.cells_put hFree, fun e' => ?_, hMade⟩, hTail'⟩
    rw [nextIn_update, probesOf_create]
    by_cases hEvent : e' = e
    · rw [if_pos hEvent, hEvent, hNil]
      dsimp only
      rw [update_self]
      exact ⟨rfl, update_self _ _ _⟩
    · rw [if_neg hEvent]
      dsimp only
      rw [update_of_ne hEvent]
      exact chain_frame (fun q hq => update_of_ne (hApart e' q hq) _ _) (h.chain e')
  | some first =>
    have hSome : probesOf live e ≠ [] := by
      intro hNil
      have hStart := chain_head (h.chain e)
      rw [hHead, hNil] at hStart
      cases hStart
    rcases List.eq_nil_or_concat (probesOf live e) with hNil | ⟨before, last, hList⟩
    · exact absurd hNil hSome
    rw [List.concat_eq_append] at hList
    have hLast : s.lprobe_ e = some last := by
      rw [hTail e hSome, hList, List.getLast?_concat]
    have hMem : last ∈ probesOf live e := by grind
    rcases h.cell_mem hMem with ⟨enext, hCell⟩
    have hOther : last ≠ p := hApart e last hMem
    have hHeap : update s.heap p (some ⟨e, none⟩) last = some ⟨e, enext⟩ := by
      rw [update_of_ne hOther, hCell]
    simp only [hLast, hHeap, Option.bind_eq_bind, Option.bind_some]
    refine ⟨_, rfl, ⟨hOnce, fun q e' => ?_, fun e' => ?_, hMade⟩, hTail'⟩
    · rw [← h.cells_put hFree, ← map_event_put hHeap (some p) q]
    · rw [nextIn_update, nextIn_update, probesOf_create]
      have hFrame : Chain (update (nextIn s.heap) p none) (s.probes_ e') (probesOf live e') :=
        chain_frame (fun q hq => update_of_ne (hApart e' q hq) _ _) (h.chain e')
      by_cases hEvent : e' = e
      · subst hEvent
        rw [if_pos rfl, hList, List.append_assoc]
        rw [hList] at hFrame
        have hNodup := h.links.nodup e'
        rw [hList] at hNodup
        refine chain_concat hFrame hNodup ?_ (update_self _ _ _)
        rw [← hList]
        exact not_mem_of_free hFree
      · rw [if_neg hEvent]
        refine chain_frame (fun q hq => update_of_ne ?_ _ _) hFrame
        rintro rfl
        exact hEvent (h.links.apart _ _ _ hq hMem)

/- The probe before one is found as in a fan-out. -/
omit [DecidableEq ε] in
theorem unlinkLoop_spec {heap : π → Option (ProbeCell π ε)} {this before cur : π} {fuel : Nat}
    (hScan : scan (nextIn heap) this fuel (some cur) = some (some before)) (enext : Option π) :
    unlinkLoop heap this enext fuel cur =
      (heap before).map fun cell => update heap before (some { cell with enext_ := enext }) := by
  induction fuel generalizing cur with
  | zero => cases hScan
  | succ fuel ih =>
    rw [scan] at hScan
    rw [unlinkLoop]
    cases hCell : heap cur with
    | none =>
      rw [nextIn, hCell] at hScan
      cases fuel <;> cases hScan
    | some cell =>
      have hNext : nextIn heap cur = cell.enext_ := by
        rw [nextIn, hCell]
        rfl
      rw [hNext] at hScan
      rw [Option.bind_eq_bind, Option.bind_some]
      split_ifs at hScan ⊢ with hFound
      · cases hScan
        rw [hCell]
        rfl
      · cases hEnext : cell.enext_ with
        | none =>
          rw [hEnext] at hScan
          cases fuel <;> cases hScan
        | some next =>
          rw [hEnext] at hScan
          exact ih hScan

/- Allocated are the live probes without the one that goes. -/
theorem Inv.cells_free (h : s.Inv live) (q : π) (e' : ε) :
    (update s.heap p none q).map ProbeCell.event_ = some e' ↔
      (q, e') ∈ live.filter fun entry => entry.1 ≠ p := by
  by_cases hSame : q = p
  · simp [hSame]
  · rw [update_of_ne hSame, h.cells]
    simp [hSame]

/- Only the list of its event has a probe that goes. -/
theorem Inv.probesOf_erase (h : s.Inv live) (hMem : p ∈ probesOf live e) :
    update (probesOf live) e ((probesOf live e).erase p) =
      probesOf (live.filter fun entry => entry.1 ≠ p) := by
  funext e'
  rw [probesOf_delete]
  by_cases hEvent : e' = e
  · rw [hEvent, update_self, (h.links.nodup e).erase_eq_filter]
    exact List.filter_congr fun q _ => (decide_not ..).symm
  · rw [update_of_ne hEvent, eq_comm, List.filter_eq_self]
    intro q hq
    rw [decide_eq_true_iff]
    rintro rfl
    exact hEvent (h.links.apart _ _ _ hq hMem)

/- A live probe is unlinked, and `lprobe_` stays. -/
theorem delete_spec (h : s.Inv live) (hLive : p ∈ live.map Prod.fst) :
    ∃ s', s.delete p = some s' ∧ s'.Inv (live.filter fun entry => entry.1 ≠ p) ∧
      s'.lprobe_ = s.lprobe_ := by
  rcases List.mem_map.mp hLive with ⟨⟨q, e⟩, hEntry, rfl⟩
  have hMem : q ∈ probesOf live e := mem_probesOf.mpr hEntry
  rcases h.cell hEntry with ⟨enext, hCell⟩
  have hLink : nextIn s.heap q = enext := by
    rw [nextIn, hCell]
    rfl
  have hOnce : ((live.filter fun entry => entry.1 ≠ q).map Prod.fst).Nodup :=
    (List.filter_sublist.map Prod.fst).nodup h.once
  have hMade : (live.filter fun entry => entry.1 ≠ q).length ≤ s.made :=
    Nat.le_trans (List.length_filter_le _ _) h.made
  have hLong : (probesOf live e).length ≤ s.made := by
    have hLength := (@probesOf_sublist π ε _ live e).length_le
    rw [List.length_map] at hLength
    exact hLength.trans h.made
  rcases h.links.remove hMem hLong with ⟨fan, hRemove, -, hHolds⟩
  rw [h.probesOf_erase hMem] at hHolds
  unfold FanOut.remove links at hRemove
  unfold delete
  rw [hCell, Option.bind_eq_bind, Option.bind_some]
  dsimp only at hRemove ⊢
  rw [hLink] at hRemove
  split_ifs at hRemove ⊢ with hFirst
  · cases hRemove
    refine ⟨_, rfl, ⟨hOnce, h.cells_free, fun e' => ?_, hMade⟩, rfl⟩
    rw [nextIn_update]
    exact hHolds.chain e'
  · have hChain := h.chain e
    have hNodup := h.links.nodup e
    rcases List.append_of_mem hMem with ⟨front, right, hList⟩
    rcases List.eq_nil_or_concat front with rfl | ⟨left, before, hFront⟩
    · rw [hList] at hChain
      exact absurd hChain.1 hFirst
    rw [hFront, List.concat_eq_append, List.append_assoc, List.singleton_append] at hList
    have hBefore : before ∈ probesOf live e := by
      rw [hList]
      exact List.mem_append_right _ List.mem_cons_self
    rcases h.cell_mem hBefore with ⟨next, hCellBefore⟩
    cases hCur : s.probes_ e with
    | none =>
      rw [hCur] at hChain
      rw [chain_unique hChain (show Chain _ none [] from rfl)] at hMem
      cases hMem
    | some cur =>
      rw [hList, List.length_append, List.length_cons] at hLong
      rw [hCur, hList] at hChain
      rw [hList] at hNodup
      have hScan := scan_spec hChain hNodup (show left.length < s.made by omega)
      rw [hCur] at hRemove
      simp only [hScan, Option.map_some] at hRemove
      cases hRemove
      rw [Option.bind_eq_bind, Option.bind_some, unlinkLoop_spec hScan, hCellBefore]
      refine ⟨_, rfl, ⟨hOnce, fun r e' => ?_, fun e' => ?_, hMade⟩, rfl⟩
      · rw [← h.cells_free]
        grind
      · rw [nextIn_update, nextIn_update]
        exact hHolds.chain e'

end ProbeHeap

----
-- All Steps
----

namespace ProbeHeap

variable {π ε : Type} [DecidableEq π] [DecidableEq ε]
variable {s : ProbeHeap π ε} {live : List (π × ε)}

omit [DecidableEq π] in
theorem Inv.listsRight_iff (h : s.Inv live) : s.ListsRight live ↔ s.TailRight live :=
  ⟨fun hRight e => (hRight e).2, fun hTail e => ⟨h.chain e, hTail e⟩⟩

/- `lprobe_` stays right, unless the last one of several goes. -/
theorem tailRight_delete_iff {s' : ProbeHeap π ε} (h : s.Inv live) (hTail : s.TailRight live)
    {p : π} (hSame : s'.lprobe_ = s.lprobe_) :
    s'.TailRight (live.filter fun entry => entry.1 ≠ p) ↔
      (ProbeOp.delete p : ProbeOp π ε).KeepsTail live := by
  unfold TailRight ProbeOp.KeepsTail
  refine forall_congr' fun e => ?_
  have hNodup := h.links.nodup e
  have hHere := hTail e
  rw [probesOf_delete, hSame]
  rcases List.eq_nil_or_concat (probesOf live e) with hNil | ⟨left, last, hList⟩
  · simp [hNil]
  · rw [List.concat_eq_append] at hList
    rw [hList] at hNodup hHere ⊢
    rw [hHere (by simp), List.getLast?_concat]
    by_cases hLast : last = p
    · subst hLast
      rw [List.nodup_middle, List.nodup_cons, List.append_nil] at hNodup
      have hLeft : (left ++ [last]).filter (· ≠ last) = left := by
        rw [List.filter_append, List.filter_cons_of_neg (by simp), List.filter_nil,
          List.append_nil, List.filter_eq_self]
        grind
      rw [hLeft]
      constructor
      · grind
      · grind
    · have hKeep : (left ++ [last]).filter (· ≠ p) = left.filter (· ≠ p) ++ [last] := by
        rw [List.filter_append, List.filter_cons_of_pos (by simpa using hLast), List.filter_nil]
      rw [hKeep, List.getLast?_concat]
      exact iff_of_true (fun _ => rfl) fun hEq => absurd (Option.some.inj hEq) hLast

theorem step_spec (h : s.Inv live) (hTail : s.TailRight live) {op : ProbeOp π ε}
    (hAllowed : op.Allowed live) :
    ∃ s', s.step op = some s' ∧ s'.Inv (liveAfter live op) ∧
      (s'.TailRight (liveAfter live op) ↔ op.KeepsTail live) := by
  cases op with
  | create p e =>
    rcases create_spec h hTail hAllowed e with ⟨s', hStep, hInv, hTail'⟩
    exact ⟨s', hStep, hInv, iff_of_true hTail' trivial⟩
  | delete p =>
    rcases delete_spec h hAllowed with ⟨s', hStep, hInv, hSame⟩
    exact ⟨s', hStep, hInv, tailRight_delete_iff h hTail hSame⟩

theorem run_spec {ops : List (ProbeOp π ε)} (h : s.Inv live) (hTail : s.TailRight live)
    (hAllowed : AllowedFrom live ops) :
    (∀ before, before <+: ops → ∃ s', s.run before = some s' ∧
        s'.ListsRight (before.foldl liveAfter live)) ↔
      KeepsTailFrom live ops := by
  induction ops generalizing s live with
  | nil =>
    refine iff_of_true (fun before hPrefix => ?_) trivial
    rw [List.prefix_nil] at hPrefix
    subst hPrefix
    exact ⟨s, rfl, h.listsRight_iff.mpr hTail⟩
  | cons op ops ih =>
    rcases step_spec h hTail hAllowed.1 with ⟨s₁, hStep, hInv, hIff⟩
    have hRun : ∀ before, s.run (op :: before) = s₁.run before := by
      intro before
      rw [run, hStep]
      rfl
    constructor
    · intro hAll
      rcases hAll [op] (List.prefix_cons_inj op |>.mpr List.nil_prefix) with ⟨s', hOne, hRight⟩
      rw [hRun] at hOne
      cases hOne
      have hTail₁ := hInv.listsRight_iff.mp hRight
      refine ⟨hIff.mp hTail₁, (ih hInv hTail₁ hAllowed.2).mp fun before hPrefix => ?_⟩
      rw [← hRun]
      exact hAll (op :: before) ((List.prefix_cons_inj op).mpr hPrefix)
    · rintro ⟨hKeeps, hRest⟩ before hPrefix
      rcases List.prefix_cons_iff.mp hPrefix with rfl | ⟨before, rfl, hPrefix⟩
      · exact ⟨s, rfl, h.listsRight_iff.mpr hTail⟩
      · rw [hRun]
        have hShort := (List.prefix_cons_inj op).mp hPrefix
        exact (ih hInv (hIff.mpr hKeeps) hAllowed.2).mpr hRest before hShort

end ProbeHeap

/-
  After every step of a run the lists are right, if and only
  if no last probe of several is ever deleted.
-/
theorem probe_lists_exact {π ε : Type} [DecidableEq π] [DecidableEq ε]
    (ops : List (ProbeOp π ε)) (hAllowed : AllowedFrom [] ops) :
    (∀ before, before <+: ops → ∃ s, ProbeHeap.start.run before = some s ∧
        s.ListsRight (liveProbes before)) ↔
      KeepsTailFrom [] ops :=
  ProbeHeap.run_spec ProbeHeap.inv_start (fun _ hSome => absurd rfl hSome) hAllowed

/- The first of two probes goes, and another one is made. -/
theorem probe_lists_exact_first :
    ∃ s, (ProbeHeap.start (π := Nat) (ε := Fin 1)).run
        [.create 0 0, .create 1 0, .delete 0, .create 2 0] = some s ∧
      s.ListsRight (liveProbes [.create 0 0, .create 1 0, .delete 0, .create 2 0]) := by
  refine (probe_lists_exact [.create 0 0, .create 1 0, .delete 0, .create 2 0] ?_).mpr
    ⟨trivial, trivial, ?_, trivial, trivial⟩ _ (List.prefix_refl _)
  · exact ⟨by decide, by decide, by decide, by decide, trivial⟩
  · decide

/- The second of two probes goes, and the next one is linked
   behind it. -/
theorem last_probe_dangles :
    ¬∀ ops : List (ProbeOp Nat (Fin 1)), AllowedFrom [] ops →
      ∀ before, before <+: ops → ∃ s, ProbeHeap.start.run before = some s ∧
        s.ListsRight (liveProbes before) := by
  intro h
  rcases h [.create 0 0, .create 1 0, .delete 1, .create 2 0]
    ⟨by decide, by decide, by decide, by decide, trivial⟩ _ (List.prefix_refl _) with
    ⟨s, hRun, -⟩
  have hGone : (ProbeHeap.start.run [ProbeOp.create 0 (0 : Fin 1), .create 1 0, .delete 1,
    .create 2 0]).isSome = false := by decide
  rw [hRun] at hGone
  cases hGone

end EpicSim
