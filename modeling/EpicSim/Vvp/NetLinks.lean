import EpicSim.Lib.CText
import EpicSim.Lib.FanOut

/-
  Links of ports to the nets that drive them.

  The ports that a net drives are a list from its output
  pointer, through the cells of the ports.  A filter that is
  forced by a net has a net of its own between, whose third
  port keeps the source and whose fourth keeps the destination
  and is never linked.
-/

----
-- Nets
----

namespace EpicSim

open Function (update_self update_of_ne update)

/- `vvp_net_ptr_t`, where it is not nil. -/
structure NetPtr where
  ptr : Nat
  port : Fin 4
deriving DecidableEq

/- The pointers of `vvp_net_t`. -/
structure VvpNetCells where
  port : Fin 4 → Option NetPtr
  out_ : Option NetPtr

/- The nets that are allocated, and `force_link_` of the filter
   of each. -/
structure NetHeap where
  nets : Nat → VvpNetCells
  count : Nat
  force_link_ : Nat → Option Nat

namespace NetHeap

/- Before any net. -/
def start : NetHeap where
  nets := fun _ => ⟨fun _ => none, none⟩
  count := 0
  force_link_ := fun _ => none

/- `port[port]` of a net. -/
def cell (s : NetHeap) (p : NetPtr) : Option NetPtr :=
  (s.nets p.ptr).port p.port

def setPort (s : NetHeap) (p : NetPtr) (val : Option NetPtr) : NetHeap :=
  let net := s.nets p.ptr
  { s with
    nets := update s.nets p.ptr { net with port := update net.port p.port val } }

def setOut (s : NetHeap) (d : Nat) (val : Option NetPtr) : NetHeap :=
  { s with nets := update s.nets d { s.nets d with out_ := val } }

/- `new vvp_net_t`. -/
def newNet (s : NetHeap) : NetHeap × Nat :=
  ({ s with
     nets := update s.nets s.count ⟨fun _ => none, none⟩
     count := s.count + 1 }, s.count)

/- `link`. -/
def link (s : NetHeap) (d : Nat) (port_to_link : NetPtr) : NetHeap :=
  (s.setPort port_to_link (s.nets d).out_).setOut d (some port_to_link)

/- The loop of `unlink`; none when out of fuel. -/
def scan (s : NetHeap) (dst_ptr : NetPtr) : Nat → Option NetPtr → Option (Option NetPtr)
| 0, _ => none
| _ + 1, none => some none
| fuel + 1, some cur =>
  if s.cell cur = some dst_ptr then some (some cur)
  else scan s dst_ptr fuel (s.cell cur)

/- `unlink`. -/
def unlink (fuel : Nat) (s : NetHeap) (d : Nat) (dst_ptr : NetPtr) : Option NetHeap :=
  if (s.nets d).out_ = some dst_ptr then
    some ((s.setOut d (s.cell dst_ptr)).setPort dst_ptr none)
  else
    match (s.nets d).out_ with
    | none => some (s.setPort dst_ptr none)
    | some cur =>
      (s.scan dst_ptr fuel (some cur)).map fun
        | none => s.setPort dst_ptr none
        | some cur => (s.setPort cur (s.cell dst_ptr)).setPort dst_ptr none

/- `force_unlink`. -/
def forceUnlink (fuel : Nat) (s : NetHeap) (dst : Nat) : Option NetHeap :=
  match s.force_link_ dst with
  | none => some s
  | some thunk =>
    match s.cell ⟨thunk, 2⟩ with
    | none => some s
    | some src => (s.unlink fuel src.ptr ⟨thunk, 0⟩).map fun s => s.setPort ⟨thunk, 2⟩ none

/- The net of a filter, a new one if there is none. -/
def forceNet (s : NetHeap) (dst : Nat) : NetHeap × Nat :=
  match s.force_link_ dst with
  | some thunk => (s, thunk)
  | none =>
    let (s, thunk) := s.newNet
    let s := s.setPort ⟨thunk, 3⟩ (some ⟨dst, 0⟩)
    let s := s.setPort ⟨thunk, 2⟩ none
    ({ s with force_link_ := update s.force_link_ dst (some thunk) }, thunk)

/- `force_link`; none where the assertion fails. -/
def forceLink (fuel : Nat) (s : NetHeap) (dst src : Nat) : Option NetHeap :=
  let (s, thunk) := s.forceNet dst
  (s.forceUnlink fuel dst).bind fun s =>
    if s.cell ⟨thunk, 2⟩ = none then
      some ((s.setPort ⟨thunk, 2⟩ (some ⟨src, 0⟩)).link src ⟨thunk, 0⟩)
    else none

/- A net that a filter has made. -/
def Thunk (s : NetHeap) (n : Nat) : Prop :=
  ∃ dst, s.force_link_ dst = some n

/- The list of a driver. -/
def Fans (s : NetHeap) (d : Nat) (L : List NetPtr) : Prop :=
  FanOut.Chain s.cell (s.nets d).out_ L

end NetHeap

/-
  The nets and the driver that each port is linked to, after
  any calls where a port is linked while it is not linked and
  unlinked from its driver.  The ports of a filter's own net
  are linked and unlinked by the filter alone.
-/
inductive LinkRuns : NetHeap → (NetPtr → Option Nat) → Prop where
| start : LinkRuns .start (fun _ => none)
| new {s : NetHeap} {linked : NetPtr → Option Nat} :
    LinkRuns s linked → LinkRuns s.newNet.1 linked
| link {s : NetHeap} {linked : NetPtr → Option Nat}
    {d : Nat} {p : NetPtr} :
    LinkRuns s linked → d < s.count → p.ptr < s.count →
      ¬s.Thunk p.ptr → linked p = none → LinkRuns (s.link d p) (update linked p (some d))
| unlink {s s' : NetHeap} {linked : NetPtr → Option Nat}
    {fuel d : Nat} {p : NetPtr} :
    LinkRuns s linked → ¬s.Thunk p.ptr → linked p = some d →
      s.unlink fuel d p = some s' → LinkRuns s' (update linked p none)
| forceLink {s s' : NetHeap} {linked : NetPtr → Option Nat}
    {fuel dst src : Nat} :
    LinkRuns s linked → src < s.count →
      s.forceLink fuel dst src = some s' →
        LinkRuns s' (update linked ⟨(s.forceNet dst).2, 0⟩ (some src))
| forceUnlink {s s' : NetHeap} {linked : NetPtr → Option Nat}
    {fuel dst thunk : Nat} :
    LinkRuns s linked → s.force_link_ dst = some thunk →
      s.forceUnlink fuel dst = some s' → LinkRuns s' (update linked ⟨thunk, 0⟩ none)
| forceUnlinkNone {s s' : NetHeap} {linked : NetPtr → Option Nat}
    {fuel dst : Nat} :
    LinkRuns s linked → s.force_link_ dst = none →
      s.forceUnlink fuel dst = some s' → LinkRuns s' linked

----
-- Cells
----

namespace NetHeap

@[simp] theorem cell_setPort (s : NetHeap) (p : NetPtr) (val : Option NetPtr) :
    (s.setPort p val).cell = update s.cell p val := by
  funext q
  simp only [setPort, cell]
  by_cases hSame : q = p
  · rw [hSame, update_self, update_self]
    exact update_self ..
  · rw [update_of_ne hSame]
    by_cases hPtr : q.ptr = p.ptr
    · have hPort : q.port ≠ p.port := by
        intro hPort
        apply hSame
        cases q
        cases p
        simp_all
      simp only [hPtr]
      rw [update_self]
      simp only
      rw [update_of_ne hPort, ← hPtr]
      rfl
    · rw [update_of_ne hPtr]
      rfl

@[simp] theorem cell_setOut (s : NetHeap) (d : Nat) (val : Option NetPtr) :
    (s.setOut d val).cell = s.cell := by
  funext q
  simp only [setOut, cell]
  by_cases hSame : q.ptr = d
  · rw [hSame, update_self]
  · rw [update_of_ne hSame]

/- The output pointers. -/
def outs (s : NetHeap) (d : Nat) : Option NetPtr := (s.nets d).out_

@[simp] theorem outs_setPort (s : NetHeap) (p : NetPtr) (val : Option NetPtr) :
    (s.setPort p val).outs = s.outs := by
  funext d
  simp only [setPort, outs]
  by_cases hSame : d = p.ptr
  · rw [hSame, update_self]
  · rw [update_of_ne hSame]

@[simp] theorem outs_setOut (s : NetHeap) (d : Nat) (val : Option NetPtr) :
    (s.setOut d val).outs = update s.outs d val := by
  funext d'
  simp only [setOut, outs]
  by_cases hSame : d' = d
  · rw [hSame, update_self, update_self]
  · rw [update_of_ne hSame, update_of_ne hSame]
    rfl

/- The nets as lists that go through the ports. -/
def fanOut (s : NetHeap) : FanOut Nat NetPtr := ⟨s.outs, s.cell⟩

theorem fanOut_link (s : NetHeap) (d : Nat) (p : NetPtr) :
    (s.link d p).fanOut = s.fanOut.push d p := by
  unfold fanOut link FanOut.push
  simp only [cell_setOut, cell_setPort, outs_setOut, outs_setPort]
  rfl

theorem scan_eq (s : NetHeap) (p : NetPtr) (fuel : Nat) (cur : Option NetPtr) :
    s.scan p fuel cur = FanOut.scan s.cell p fuel cur := by
  induction fuel generalizing cur with
  | zero => rfl
  | succ fuel ih =>
    cases cur with
    | none => rfl
    | some cur => rw [scan, FanOut.scan, ih]

/- The rest of the heap is as it was. -/
structure SameNets (s s' : NetHeap) : Prop where
  count : s'.count = s.count
  force : s'.force_link_ = s.force_link_

theorem sameNets_unlink {fuel : Nat} {s s' : NetHeap} {d : Nat} {p : NetPtr}
    (h : s.unlink fuel d p = some s') : SameNets s s' := by
  unfold unlink at h
  split_ifs at h
  · cases h
    exact ⟨rfl, rfl⟩
  · split at h
    · cases h
      exact ⟨rfl, rfl⟩
    · rcases Option.map_eq_some_iff.mp h with ⟨cur, _, hSame⟩
      cases cur with
      | none =>
        subst hSame
        exact ⟨rfl, rfl⟩
      | some cur =>
        subst hSame
        exact ⟨rfl, rfl⟩

theorem fanOut_unlink (fuel : Nat) (s : NetHeap) (d : Nat) (p : NetPtr) :
    (s.unlink fuel d p).map fanOut = s.fanOut.remove fuel d p := by
  unfold unlink FanOut.remove
  by_cases hFirst : (s.nets d).out_ = some p
  · have hFirst' : s.fanOut.out d = some p := hFirst
    rw [if_pos hFirst, if_pos hFirst']
    simp only [Option.map_some, fanOut, cell_setOut, cell_setPort, outs_setOut, outs_setPort]
  · have hFirst' : ¬s.fanOut.out d = some p := hFirst
    rw [if_neg hFirst, if_neg hFirst']
    cases hOut : (s.nets d).out_ with
    | none =>
      have hOut' : s.fanOut.out d = none := hOut
      simp only [hOut', Option.map_some]
      simp only [fanOut, cell_setPort, outs_setPort]
    | some cur =>
      have hOut' : s.fanOut.out d = some cur := hOut
      simp only [hOut', scan_eq]
      rw [Option.map_map]
      congr 1
      funext cur
      cases cur <;>
        simp only [Function.comp_apply, fanOut, cell_setPort, outs_setPort]

end NetHeap

----
-- Lists Of The Drivers
----

namespace NetHeap

/- Each driver has a list of the ports that are linked to it. -/
def Lists (s : NetHeap) (linked : NetPtr → Option Nat) (fan : Nat → List NetPtr) : Prop :=
  s.fanOut.Holds fan ∧ ∀ d p, p ∈ fan d ↔ linked p = some d

variable {s : NetHeap} {linked : NetPtr → Option Nat}
  {fan : Nat → List NetPtr}

theorem Lists.link (h : Lists s linked fan) {p : NetPtr} (hFree : linked p = none) (d : Nat) :
    Lists (s.link d p) (update linked p (some d))
      (update fan d (p :: fan d)) := by
  have hOut : ∀ d', p ∉ fan d' := by
    intro d' hIn
    cases hFree.symm.trans ((h.2 d' p).mp hIn)
  constructor
  · rw [fanOut_link]
    exact h.1.push d hOut
  · intro d' q
    by_cases hD : d' = d
    · subst hD
      rw [update_self, List.mem_cons, h.2]
      grind
    · rw [update_of_ne hD, h.2]
      grind

/- A port is taken out of the list of its driver: the loop ends
   and there is one result. -/
theorem Lists.unlink (h : Lists s linked fan) {d : Nat} {p : NetPtr} (hIn : linked p = some d) :
    (∀ fuel, (fan d).length ≤ fuel → ∃ s', s.unlink fuel d p = some s') ∧
    ∀ fuel s', s.unlink fuel d p = some s' →
      FanOut.Removed s.fanOut s'.fanOut d (fan d) p ∧
        Lists s' (update linked p none) (update fan d ((fan d).erase p)) := by
  have hMem := (h.2 d p).mpr hIn
  constructor
  · intro fuel hFuel
    rcases h.1.remove hMem hFuel with ⟨s', hSome, _⟩
    rw [← fanOut_unlink] at hSome
    rcases Option.map_eq_some_iff.mp hSome with ⟨s', hSome, _⟩
    exact ⟨s', hSome⟩
  · intro fuel s' hSome
    have hRemove : s.fanOut.remove fuel d p = some s'.fanOut := by
      rw [← fanOut_unlink, hSome]
      rfl
    have hMore := FanOut.remove_mono (Nat.le_max_left fuel (fan d).length) hRemove
    rcases h.1.remove hMem (Nat.le_max_right fuel _) with ⟨s'', hSame, hRemoved, hHolds⟩
    have hEq := Option.some.inj (hSame.symm.trans hMore)
    rw [hEq] at hRemoved hHolds
    refine ⟨hRemoved, hHolds, fun d' q => ?_⟩
    by_cases hD : d' = d
    · subst hD
      rw [update_self, (h.1.nodup d').mem_erase_iff, h.2]
      grind
    · rw [update_of_ne hD, h.2]
      grind

/- A cell of a port that is not linked. -/
theorem Lists.setPort (h : Lists s linked fan) {p : NetPtr} (hFree : linked p = none)
    (val : Option NetPtr) : Lists (s.setPort p val) linked fan := by
  refine ⟨⟨fun d => ?_, h.1.nodup, h.1.apart⟩, h.2⟩
  have hOut : p ∉ fan d := by
    intro hIn
    cases hFree.symm.trans ((h.2 d p).mp hIn)
  simp only [fanOut, cell_setPort, outs_setPort]
  exact FanOut.chain_update hOut val (h.1.chain d)

theorem outs_newNet (s : NetHeap) : s.newNet.1.outs = update s.outs s.count none := by
  funext d
  simp only [newNet, outs]
  by_cases hSame : d = s.count
  · rw [hSame, update_self, update_self]
  · rw [update_of_ne hSame, update_of_ne hSame]
    rfl

theorem cell_newNet (s : NetHeap) (p : NetPtr) :
    s.newNet.1.cell p =
      if p.ptr = s.count then none else s.cell p := by
  simp only [newNet, cell]
  split_ifs with hSame
  · rw [hSame, update_self]
  · rw [update_of_ne hSame]

/- A net that nothing is linked to, and not linked. -/
theorem Lists.newNet (h : Lists s linked fan)
    (hOld : ∀ p d, linked p = some d → p.ptr < s.count ∧ d < s.count) :
    Lists s.newNet.1 linked fan := by
  refine ⟨⟨fun d => ?_, h.1.nodup, h.1.apart⟩, h.2⟩
  simp only [fanOut, outs_newNet]
  by_cases hNew : d = s.count
  · have hNone : fan d = [] := by
      rw [List.eq_nil_iff_forall_not_mem]
      intro p hIn
      have hLt := (hOld p d ((h.2 d p).mp hIn)).2
      omega
    rw [hNew, update_self]
    rw [hNew] at hNone
    rw [hNone]
    rfl
  · rw [update_of_ne hNew]
    refine FanOut.chain_frame (fun p hIn => ?_) (h.1.chain d)
    rw [cell_newNet, if_neg]
    · rfl
    · have hLt := (hOld p d ((h.2 d p).mp hIn)).1
      omega

/- The net of a filter: its first port may be linked, and its
   third one keeps the driver of the first. -/
structure ThunkRight (s : NetHeap) (linked : NetPtr → Option Nat) (thunk : Nat) : Prop where
  old : thunk < s.count
  free : ∀ port, port ≠ 0 → linked ⟨thunk, port⟩ = none
  source : s.cell ⟨thunk, 2⟩ = (linked ⟨thunk, 0⟩).map (fun src => ⟨src, 0⟩)

/- What holds after any calls. -/
structure LinkInv (s : NetHeap) (linked : NetPtr → Option Nat) : Prop where
  lists : ∃ fan, Lists s linked fan
  old : ∀ p d, linked p = some d → p.ptr < s.count ∧ d < s.count
  thunk : ∀ dst thunk, s.force_link_ dst = some thunk → ThunkRight s linked thunk
  apart : ∀ dst dst' thunk, s.force_link_ dst = some thunk →
    s.force_link_ dst' = some thunk → dst = dst'

end NetHeap

----
-- Calls
----

namespace NetHeap

variable {s s' : NetHeap} {linked linked' : NetPtr → Option Nat}

theorem ThunkRight.frame {thunk : Nat} (h : ThunkRight s linked thunk) (hCount : s.count ≤ s'.count)
    (hCell : s'.cell ⟨thunk, 2⟩ = s.cell ⟨thunk, 2⟩)
    (hLinked : ∀ port, linked' ⟨thunk, port⟩ = linked ⟨thunk, port⟩) :
    ThunkRight s' linked' thunk where
  old := Nat.lt_of_lt_of_le h.old hCount
  free := fun port hPort => by
    rw [hLinked]
    exact h.free port hPort
  source := by
    rw [hCell, hLinked]
    exact h.source

theorem cell_link (s : NetHeap) (d : Nat) (p : NetPtr) :
    (s.link d p).cell = update s.cell p (s.outs d) :=
  congrArg FanOut.next (fanOut_link s d p)

theorem update_other {p q : NetPtr} (hPtr : q.ptr ≠ p.ptr) (val : Option Nat) :
    update linked p val q = linked q :=
  update_of_ne (fun hSame => hPtr (by rw [hSame])) _ _

section

variable (h : LinkInv s linked)

include h

theorem LinkInv.link {d : Nat} {p : NetPtr}
    (hD : d < s.count) (hP : p.ptr < s.count) (hThunk : ¬s.Thunk p.ptr) (hFree : linked p = none) :
    LinkInv (s.link d p) (update linked p (some d)) := by
  obtain ⟨fan, hFan⟩ := h.lists
  refine ⟨⟨_, hFan.link hFree d⟩, fun q d' hQ => ?_, fun dst thunk hForce => ?_, h.apart⟩
  · by_cases hSame : q = p
    · subst hSame
      rw [update_self] at hQ
      cases hQ
      exact ⟨hP, hD⟩
    · rw [update_of_ne hSame] at hQ
      exact h.old q d' hQ
  · have hNe : thunk ≠ p.ptr := by
      rintro rfl
      exact hThunk ⟨dst, hForce⟩
    refine (h.thunk dst thunk hForce).frame (Nat.le_refl _) ?_ (fun port => update_other hNe _)
    rw [cell_link]
    exact update_of_ne (fun hSame => hNe (by rw [← hSame])) _ _

/- What taking out a port leaves alone. -/
theorem LinkInv.thunk_unlink {fan : Nat → List NetPtr}
    (hFan : Lists s linked fan) {d : Nat} {p : NetPtr}
    (hRemoved : FanOut.Removed s.fanOut s'.fanOut d (fan d) p)
    {dst thunk : Nat} (hForce : s.force_link_ dst = some thunk) (hNe : (⟨thunk, 2⟩ : NetPtr) ≠ p) :
    s'.cell ⟨thunk, 2⟩ = s.cell ⟨thunk, 2⟩ := by
  refine hRemoved.cells _ hNe ?_
  rintro ⟨hIn, _⟩
  have hLinked := (hFan.2 d _).mp hIn
  rw [(h.thunk dst thunk hForce).free 2 (by decide)] at hLinked
  cases hLinked

theorem LinkInv.unlink {fuel d : Nat} {p : NetPtr}
    (hThunk : ¬s.Thunk p.ptr) (hIn : linked p = some d) (hSome : s.unlink fuel d p = some s') :
    LinkInv s' (update linked p none) := by
  obtain ⟨fan, hFan⟩ := h.lists
  rcases (hFan.unlink hIn).2 fuel s' hSome with ⟨hRemoved, hLists⟩
  have hSame := sameNets_unlink hSome
  refine ⟨⟨_, hLists⟩, fun q d' hQ => ?_,
    fun dst thunk hForce => ?_, fun dst dst' thunk h₁ h₂ => ?_⟩
  · by_cases hEq : q = p
    · subst hEq
      rw [update_self] at hQ
      cases hQ
    · rw [update_of_ne hEq] at hQ
      rw [hSame.count]
      exact h.old q d' hQ
  · rw [hSame.force] at hForce
    have hNe : thunk ≠ p.ptr := by
      rintro rfl
      exact hThunk ⟨dst, hForce⟩
    refine (h.thunk dst thunk hForce).frame
      (Nat.le_of_eq hSame.count.symm) ?_
      (fun port => update_other hNe _)
    refine h.thunk_unlink hFan hRemoved hForce ?_
    rintro rfl
    exact hNe rfl
  · rw [hSame.force] at h₁ h₂
    exact h.apart dst dst' thunk h₁ h₂

theorem LinkInv.newNet : LinkInv s.newNet.1 linked := by
  obtain ⟨fan, hFan⟩ := h.lists
  refine ⟨⟨fan, hFan.newNet h.old⟩, fun q d hQ => ?_, fun dst thunk hForce => ?_, h.apart⟩
  · have hOld := h.old q d hQ
    exact ⟨Nat.lt_succ_of_lt hOld.1, Nat.lt_succ_of_lt hOld.2⟩
  · have hThunk := h.thunk dst thunk hForce
    refine hThunk.frame (Nat.le_succ _) ?_ (fun _ => rfl)
    rw [cell_newNet, if_neg (Nat.ne_of_lt hThunk.old)]

/- `force_unlink` of a filter with a net: the first port of it
   is linked no longer. -/
theorem LinkInv.forceUnlink {fuel dst thunk : Nat}
    (hForce : s.force_link_ dst = some thunk) (hSome : s.forceUnlink fuel dst = some s') :
    LinkInv s' (update linked ⟨thunk, 0⟩ none) ∧
      SameNets s s' ∧ s'.cell ⟨thunk, 2⟩ = none := by
  have hThunk := h.thunk dst thunk hForce
  unfold NetHeap.forceUnlink at hSome
  simp only [hForce] at hSome
  cases hCell : s.cell ⟨thunk, 2⟩ with
  | none =>
    have hFree : linked ⟨thunk, 0⟩ = none :=
      Option.map_eq_none_iff.mp (hThunk.source.symm.trans hCell)
    rw [hCell] at hSome
    cases hSome
    have hNothing :
        update linked ⟨thunk, 0⟩ none = linked := by
      rw [← hFree]
      exact Function.update_eq_self _ _
    rw [hNothing]
    exact ⟨h, ⟨rfl, rfl⟩, hCell⟩
  | some src =>
    have hLinked : linked ⟨thunk, 0⟩ = some src.ptr := by
      have hSource := hThunk.source.symm.trans hCell
      rcases Option.map_eq_some_iff.mp hSource with ⟨d, hD, hSrc⟩
      rw [hD, ← hSrc]
    simp only [hCell] at hSome
    rcases Option.map_eq_some_iff.mp hSome with ⟨s₁, hUnlink, hSet⟩
    subst hSet
    obtain ⟨fan, hFan⟩ := h.lists
    rcases (hFan.unlink hLinked).2 fuel s₁ hUnlink with ⟨hRemoved, hLists⟩
    have hSame := sameNets_unlink hUnlink
    have hFree2 : update linked ⟨thunk, 0⟩ none ⟨thunk, 2⟩ = none := by
      have hNe : (⟨thunk, 2⟩ : NetPtr) ≠ ⟨thunk, 0⟩ :=
        fun hPtr => by cases congrArg NetPtr.port hPtr
      rw [update_of_ne hNe]
      exact hThunk.free 2 (by decide)
    refine ⟨⟨⟨_, hLists.setPort hFree2 none⟩, fun q d hQ => ?_,
      fun dst' thunk' hForce' => ?_,
      fun dst₁ dst₂ thunk' h₁ h₂ => ?_⟩,
      ⟨hSame.count, hSame.force⟩, ?_⟩
    · show q.ptr < s₁.count ∧ d < s₁.count
      rw [hSame.count]
      by_cases hEq : q = ⟨thunk, 0⟩
      · rw [hEq, update_self] at hQ
        cases hQ
      · rw [update_of_ne hEq] at hQ
        exact h.old q d hQ
    · have hForceOld : s.force_link_ dst' = some thunk' :=
        hSame.force ▸ hForce'
      by_cases hEq : thunk' = thunk
      · subst hEq
        refine ⟨?_, fun port hPort => ?_, ?_⟩
        · show thunk' < s₁.count
          rw [hSame.count]
          exact hThunk.old
        · rw [update_of_ne (by
            intro hPtr
            exact hPort (congrArg NetPtr.port hPtr))]
          exact hThunk.free port hPort
        · rw [cell_setPort, update_self, update_self]
          rfl
      · refine (h.thunk dst' thunk' hForceOld).frame
          (Nat.le_of_eq hSame.count.symm) ?_
          (fun port => update_other hEq _)
        rw [cell_setPort, update_of_ne (by
          intro hPtr
          exact hEq (congrArg NetPtr.ptr hPtr))]
        refine h.thunk_unlink hFan hRemoved hForceOld ?_
        intro hPtr
        exact hEq (congrArg NetPtr.ptr hPtr)
    · have h₁' : s.force_link_ dst₁ = some thunk' :=
        hSame.force ▸ h₁
      have h₂' : s.force_link_ dst₂ = some thunk' := hSame.force ▸ h₂
      exact h.apart dst₁ dst₂ thunk' h₁' h₂'
    · rw [cell_setPort, update_self]

/- The net of a filter is there, and nothing else is new. -/
theorem LinkInv.forceNet (dst : Nat) :
    LinkInv (s.forceNet dst).1 linked ∧
      (s.forceNet dst).1.force_link_ dst = some (s.forceNet dst).2 ∧
      s.count ≤ (s.forceNet dst).1.count := by
  unfold NetHeap.forceNet
  cases hForce : s.force_link_ dst with
  | some thunk => exact ⟨h, hForce, Nat.le_refl _⟩
  | none =>
    have hFresh : ∀ port, linked ⟨s.count, port⟩ = none := by
      intro port
      by_contra hSome
      obtain ⟨d, hD⟩ := Option.ne_none_iff_exists'.mp hSome
      exact Nat.lt_irrefl _ (h.old _ d hD).1
    have hNew := h.newNet
    obtain ⟨fan, hFan⟩ := hNew.lists
    have hLists := (hFan.setPort (hFresh 3) (some ⟨dst, 0⟩)).setPort (hFresh 2) none
    refine ⟨⟨⟨fan, hLists⟩, hNew.old,
      fun dst' thunk' hForce' => ?_,
      fun dst₁ dst₂ thunk' h₁ h₂ => ?_⟩,
      update_self .., Nat.le_succ _⟩
    · have hCell : ∀ n, (⟨n, 2⟩ : NetPtr) ≠ ⟨s.count, 3⟩ := by
        intro n hSame
        cases congrArg NetPtr.port hSame
      by_cases hSame : dst' = dst
      · rw [hSame] at hForce'
        simp only [update_self, Option.some.injEq] at hForce'
        subst hForce'
        refine ⟨Nat.lt_succ_self _, fun port _ => hFresh port, ?_⟩
        have hEmpty : ((s.newNet.1.setPort ⟨s.count, 3⟩
            (some ⟨dst, 0⟩)).setPort ⟨s.count, 2⟩ none).cell ⟨s.count, 2⟩ = none := by
          rw [cell_setPort, update_self]
        show ((s.newNet.1.setPort ⟨s.count, 3⟩
            (some ⟨dst, 0⟩)).setPort ⟨s.count, 2⟩ none).cell ⟨s.count, 2⟩ =
          (linked ⟨s.count, 0⟩).map (fun src => ⟨src, 0⟩)
        rw [hEmpty, hFresh 0]
        rfl
      · have hOld : s.force_link_ dst' = some thunk' := by
          simp only [update_of_ne hSame] at hForce'
          exact hForce'
        have hThunk := hNew.thunk dst' thunk' hOld
        have hNe := Nat.ne_of_lt (h.thunk dst' thunk' hOld).old
        refine hThunk.frame (Nat.le_refl _) ?_ (fun _ => rfl)
        show ((s.newNet.1.setPort ⟨s.count, 3⟩
            (some ⟨dst, 0⟩)).setPort ⟨s.count, 2⟩ none).cell ⟨thunk', 2⟩ =
          s.newNet.1.cell ⟨thunk', 2⟩
        rw [cell_setPort, update_of_ne (by
          intro hPtr
          exact hNe (congrArg NetPtr.ptr hPtr)), cell_setPort,
          update_of_ne (hCell _)]
    · by_cases hSame₁ : dst₁ = dst
      · by_cases hSame₂ : dst₂ = dst
        · rw [hSame₁, hSame₂]
        · rw [hSame₁] at h₁
          simp only [update_self, Option.some.injEq] at h₁
          simp only [update_of_ne hSame₂] at h₂
          have hOld := (h.thunk dst₂ thunk' h₂).old
          exact absurd h₁ (Nat.ne_of_gt hOld)
      · simp only [update_of_ne hSame₁] at h₁
        by_cases hSame₂ : dst₂ = dst
        · rw [hSame₂] at h₂
          simp only [update_self, Option.some.injEq] at h₂
          have hOld := (h.thunk dst₁ thunk' h₁).old
          exact absurd h₂ (Nat.ne_of_gt hOld)
        · simp only [update_of_ne hSame₂] at h₂
          exact h.apart dst₁ dst₂ thunk' h₁ h₂

end

end NetHeap

namespace NetHeap

section ForceLink

variable {s s' : NetHeap} {linked : NetPtr → Option Nat}

/- `force_unlink` ends. -/
theorem LinkInv.forceUnlink_ends (h : LinkInv s linked) (dst : Nat) :
    ∃ least, ∀ fuel, least ≤ fuel →
      ∃ s', s.forceUnlink fuel dst = some s' := by
  unfold NetHeap.forceUnlink
  cases hForce : s.force_link_ dst with
  | none => exact ⟨0, fun fuel _ => ⟨s, rfl⟩⟩
  | some thunk =>
    have hThunk := h.thunk dst thunk hForce
    cases hCell : s.cell ⟨thunk, 2⟩ with
    | none => exact ⟨0, fun fuel _ => ⟨s, by simp only [hCell]⟩⟩
    | some src =>
      have hLinked : linked ⟨thunk, 0⟩ = some src.ptr := by
        have hSource := hThunk.source.symm.trans hCell
        rcases Option.map_eq_some_iff.mp hSource with ⟨d, hD, hSrc⟩
        rw [hD, ← hSrc]
      obtain ⟨fan, hFan⟩ := h.lists
      refine ⟨(fan src.ptr).length, fun fuel hFuel => ?_⟩
      rcases (hFan.unlink hLinked).1 fuel hFuel with ⟨s₁, hSome⟩
      simp only [hCell, hSome]
      exact ⟨_, rfl⟩

/- The first port of the filter's net is linked to the source. -/
theorem LinkInv.linkThunk (h : LinkInv s linked) {dst thunk src : Nat}
    (hForce : s.force_link_ dst = some thunk) (hSrc : src < s.count)
    (hFree : linked ⟨thunk, 0⟩ = none) :
    LinkInv
      ((s.setPort ⟨thunk, 2⟩ (some ⟨src, 0⟩)).link src ⟨thunk, 0⟩)
      (update linked ⟨thunk, 0⟩ (some src)) := by
  obtain ⟨fan, hFan⟩ := h.lists
  have hThunk := h.thunk dst thunk hForce
  have hFree2 := hThunk.free 2 (by decide)
  have hPorts : ∀ n, (⟨n, 2⟩ : NetPtr) ≠ ⟨thunk, 0⟩ :=
    fun n hPtr => by cases congrArg NetPtr.port hPtr
  refine ⟨⟨_, (hFan.setPort hFree2 (some ⟨src, 0⟩)).link hFree
    src⟩, fun q d hQ => ?_, fun dst' thunk' hForce' => ?_,
    h.apart⟩
  · by_cases hEq : q = ⟨thunk, 0⟩
    · rw [hEq, update_self] at hQ
      cases hQ
      rw [hEq]
      exact ⟨hThunk.old, hSrc⟩
    · rw [update_of_ne hEq] at hQ
      exact h.old q d hQ
  · by_cases hEq : thunk' = thunk
    · subst hEq
      refine ⟨hThunk.old, fun port hPort => ?_, ?_⟩
      · rw [update_of_ne (by
          intro hPtr
          exact hPort (congrArg NetPtr.port hPtr))]
        exact hThunk.free port hPort
      · rw [cell_link, update_of_ne (hPorts _), cell_setPort, update_self, update_self]
        rfl
    · refine (h.thunk dst' thunk' hForce').frame (Nat.le_refl _) ?_ (fun port => update_other hEq _)
      rw [cell_link, update_of_ne (hPorts _),
        cell_setPort, update_of_ne (by
          intro hPtr
          exact hEq (congrArg NetPtr.ptr hPtr))]

/- `force_link` ends. -/
theorem LinkInv.forceLink_ends (h : LinkInv s linked) (dst : Nat) :
    ∃ least, ∀ fuel, least ≤ fuel →
      ∀ src, ∃ s', s.forceLink fuel dst src = some s' := by
  rcases h.forceNet dst with ⟨hNet, hForce, _⟩
  rcases hNet.forceUnlink_ends dst with ⟨least, hEnds⟩
  refine ⟨least, fun fuel hFuel src => ?_⟩
  rcases hEnds fuel hFuel with ⟨s₂, hSome⟩
  rcases hNet.forceUnlink hForce hSome with ⟨_, _, hCell⟩
  unfold NetHeap.forceLink
  simp only [hSome, Option.bind_some, if_pos hCell]
  exact ⟨_, rfl⟩

/- `force_link` leaves the filter with its net.  The source drives
   that net, and no other net does. -/
theorem LinkInv.forceLink (h : LinkInv s linked) {fuel dst src : Nat} (hSrc : src < s.count)
    (hSome : s.forceLink fuel dst src = some s') :
    s'.force_link_ dst = some (s.forceNet dst).2 ∧
      LinkInv s' (update linked ⟨(s.forceNet dst).2, 0⟩ (some src)) := by
  rcases h.forceNet dst with ⟨hNet, hForce, hCount⟩
  unfold NetHeap.forceLink at hSome
  generalize s.forceNet dst = net at *
  rcases net with ⟨s₁, thunk⟩
  rcases Option.bind_eq_some_iff.mp hSome with ⟨s₂, hUnlink, hLink⟩
  rcases hNet.forceUnlink hForce hUnlink with ⟨hInv, hSame, hCell⟩
  rw [if_pos hCell] at hLink
  cases hLink
  have hForce₂ : s₂.force_link_ dst = some thunk := by
    rw [hSame.force]
    exact hForce
  have hSrc₂ : src < s₂.count := by
    rw [hSame.count]
    exact Nat.lt_of_lt_of_le hSrc hCount
  have hLinked := hInv.linkThunk hForce₂ hSrc₂ (update_self ..)
  rw [Function.update_idem] at hLinked
  exact ⟨hForce₂, hLinked⟩

theorem linkInv_start : LinkInv .start (fun _ => none) := by
  refine ⟨⟨fun _ => [], ⟨fun _ => rfl, fun _ => List.nodup_nil,
    fun _ _ p hIn => ?_⟩, fun d p => ?_⟩, ?_, ?_, ?_⟩
  · cases hIn
  · simp
  · intro p d hP
    cases hP
  · intro dst thunk hForce
    cases hForce
  · intro dst dst' thunk hForce
    cases hForce

end ForceLink

end NetHeap

theorem LinkRuns.inv {s : NetHeap} {linked : NetPtr → Option Nat} (h : LinkRuns s linked) :
    s.LinkInv linked := by
  induction h with
  | start => exact NetHeap.linkInv_start
  | new _ ih => exact ih.newNet
  | link _ hD hP hThunk hFree ih => exact ih.link hD hP hThunk hFree
  | unlink _ hThunk hIn hSome ih => exact ih.unlink hThunk hIn hSome
  | forceLink _ hSrc hSome ih => exact (ih.forceLink hSrc hSome).2
  | forceUnlink _ hForce hSome ih => exact (ih.forceUnlink hForce hSome).1
  | forceUnlinkNone _ hForce hSome ih =>
    unfold NetHeap.forceUnlink at hSome
    simp only [hForce, Option.some.injEq] at hSome
    rwa [← hSome]

/- What `unlink` may change: the list of the driver, by the port,
   and in the cells and output pointers the entry that has led
   to the port. -/
structure OnlyUnlinked (s s' : NetHeap) (linked : NetPtr → Option Nat) (d : Nat)
    (p : NetPtr) : Prop where
  same : s.SameNets s'
  lists : ∀ d' L, s.Fans d' L → s'.Fans d' (if d' = d then L.erase p else L)
  cell : s'.cell p = none
  cells : ∀ q, q ≠ p → ¬(linked q = some d ∧ s.cell q = some p) → s'.cell q = s.cell q
  outs : ∀ d', ¬(d' = d ∧ s.outs d' = some p) → s'.outs d' = s.outs d'

/-
  After any calls each driver has a finite list of exactly the
  ports that are linked to it, each once.  Every `unlink` of a
  linked port ends and removes its entry only, and forcing and
  releasing end.
-/
theorem fan_out_exact {s : NetHeap} {linked : NetPtr → Option Nat} (hRuns : LinkRuns s linked) :
    (∀ d, ∃ L, s.Fans d L ∧ L.Nodup ∧ ∀ p, p ∈ L ↔ linked p = some d) ∧
    (∀ d p, linked p = some d →
      (∃ least, ∀ fuel, least ≤ fuel → ∃ s', s.unlink fuel d p = some s') ∧
      ∀ fuel s', s.unlink fuel d p = some s' → OnlyUnlinked s s' linked d p) ∧
    ∀ dst, ∃ least, ∀ fuel, least ≤ fuel →
      (∃ s', s.forceUnlink fuel dst = some s') ∧
        ∀ src, ∃ s', s.forceLink fuel dst src = some s' := by
  have hInv := hRuns.inv
  obtain ⟨fan, hFan⟩ := hInv.lists
  refine ⟨fun d => ?_, fun d p hIn => ⟨?_, ?_⟩, fun dst => ?_⟩
  · exact ⟨fan d, hFan.1.chain d, hFan.1.nodup d, hFan.2 d⟩
  · exact ⟨(fan d).length, (hFan.unlink hIn).1⟩
  · intro fuel s' hSome
    rcases (hFan.unlink hIn).2 fuel s' hSome with ⟨hRemoved, hLists⟩
    refine ⟨NetHeap.sameNets_unlink hSome, fun d' L hL => ?_,
      hRemoved.cell, fun q hQ hOther => ?_, hRemoved.heads⟩
    · have hSame := FanOut.chain_unique hL (hFan.1.chain d')
      subst hSame
      have hChain := hLists.1.chain d'
      by_cases hD : d' = d
      · subst hD
        rw [if_pos rfl]
        rw [update_self] at hChain
        exact hChain
      · rw [if_neg hD]
        rw [update_of_ne hD] at hChain
        exact hChain
    · refine hRemoved.cells q hQ ?_
      rintro ⟨hMem, hNext⟩
      exact hOther ⟨(hFan.2 d q).mp hMem, hNext⟩
  · rcases hInv.forceUnlink_ends dst with ⟨least, hUnlink⟩
    rcases hInv.forceLink_ends dst with ⟨least', hLink⟩
    exact ⟨max least least', fun fuel hFuel => ⟨hUnlink fuel (by omega), hLink fuel (by omega)⟩⟩

/- Two ports of one net on the list of another, and one of them
   is taken out. -/
theorem fan_out_exact_two :
    ∃ s linked, (linked ⟨1, 0⟩ = some 0 ∧ linked ⟨1, 1⟩ = some 0) ∧
      (∀ d, ∃ L, NetHeap.Fans s d L ∧ L.Nodup ∧ ∀ p, p ∈ L ↔ linked p = some d) ∧
      (∀ d p, linked p = some d →
        (∃ least, ∀ fuel, least ≤ fuel → ∃ s', s.unlink fuel d p = some s') ∧
        ∀ fuel s', s.unlink fuel d p = some s' → OnlyUnlinked s s' linked d p) ∧
      ∀ dst, ∃ least, ∀ fuel, least ≤ fuel →
        (∃ s', s.forceUnlink fuel dst = some s') ∧
          ∀ src, ∃ s', s.forceLink fuel dst src = some s' := by
  have hNets := LinkRuns.new (.new .start)
  have hFirst := LinkRuns.link (d := 0) (p := ⟨1, 0⟩) hNets
    (by decide) (by decide)
    (fun hThunk => by
      rcases hThunk with ⟨dst, hForce⟩
      cases hForce) rfl
  have hSecond := LinkRuns.link (d := 0) (p := ⟨1, 1⟩) hFirst
    (by decide) (by decide)
    (fun hThunk => by
      rcases hThunk with ⟨dst, hForce⟩
      cases hForce) (by decide)
  exact ⟨_, _, ⟨by decide, by decide⟩, fan_out_exact hSecond⟩

end EpicSim
