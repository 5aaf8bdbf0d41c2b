import EpicSim.Lib.PushNetwork
import EpicSim.Vvp.Absorption
import EpicSim.Vvp.IslandTran

/-
  A tran island as a push network: the ports are the nodes,
  the branch ends the edges, and the resolution of the island
  is a run of the network.
-/

----
-- The Network Of An Island
----

namespace EpicSim

open Function (update update_of_ne update_self)
open VvpVector8 (resolve)
open PushNetwork

/- The nil vector stands for no value. -/
def nonNil (v : VvpVector8) : Option VvpVector8 :=
  if v.size = 0 then none else some v

theorem nonNil_eq_some_iff (v w : VvpVector8) : nonNil v = some w ↔ v.size ≠ 0 ∧ v = w := by
  unfold nonNil
  split_ifs with h
  · simp [h]
  · simp [h]

theorem nonNil_eq_none_iff (v : VvpVector8) : nonNil v = none ↔ v.size = 0 := by
  unfold nonNil
  split_ifs with h <;> simp [h]

/- The values of a run as values of network nodes. -/
def view (value : IslandValues) : Values Nat VvpVector8 :=
  fun port => nonNil (value port)

theorem view_update (value : IslandValues) (port : Nat) {v : VvpVector8} (hv : v.size ≠ 0) :
    view (update value port v) = update (view value) port (some v) := by
  funext p
  by_cases hp : p = port
  · subst hp
    simp [view, nonNil, hv]
  · simp [view, hp]

namespace VvpIsland

/- Ports as nodes, branch ends as edges. -/
def network (isl : VvpIsland) (ports : IslandPorts) : PushNetwork Nat BranchPtr VvpVector8 where
  src e := (isl.net e).getD 0
  dst e := (isl.net e.other).getD 0
  live e :=
    match isl.branches[e.ptr]? with
    | none => false
    | some br => decide (br.state ≠ .disabled)
  input port := nonNil (islandGetValue (ports port))
  pass e v :=
    match isl.branches[e.ptr]? with
    | none => v
    | some br => br.passValue e.port v
  merge := resolve
  onward e := (isl.collectNode e.other).getD []

/-
  Branches join ports of matching widths, and every port has
  no input or one of its width.
-/
structure Consistent (isl : VvpIsland) (ports : IslandPorts) (width : Nat → Nat) : Prop where
  branch :
    ∀ br ∈ isl.branches,
      if br.width = 0 then width br.a = width br.b
      else
        br.width = width br.a ∧ br.part = width br.b ∧ 0 < br.part ∧ br.offset + br.part ≤ br.width
  input :
    ∀ port, (islandGetValue (ports port)).size = 0 ∨ (islandGetValue (ports port)).size = width port

theorem live_iff (isl : VvpIsland) (ports : IslandPorts) (e : BranchPtr) :
    (isl.network ports).live e = true ↔
      ∃ br, isl.branches[e.ptr]? = some br ∧
        br.state ≠ .disabled := by
  simp only [network]
  cases isl.branches[e.ptr]? with
  | none => simp
  | some br => simp

variable {br : TranBranch} {width : Nat → Nat}

theorem network_of_branch {isl : VvpIsland} (ports : IslandPorts) {e : BranchPtr}
    (h : isl.branches[e.ptr]? = some br) :
    (isl.network ports).src e = br.net e.port ∧
      (isl.network ports).dst e = br.net (!e.port) ∧
      (isl.network ports).pass e = br.passValue e.port := by
  refine ⟨?_, ?_, ?_⟩
  · simp [network, net, h]
  · simp [network, net, BranchPtr.other, h]
  · funext v
    simp [network, h]

theorem size_passValue (br : TranBranch) (srcAb : Bool) (v : VvpVector8) :
    (br.passValue srcAb v).size =
      if br.width = 0 then v.size
      else if srcAb then br.width else br.part := by
  unfold TranBranch.passValue
  split_ifs <;> simp [VvpVector8.size]

/- What a branch passes has the width of the other port. -/
theorem size_passValue_of_consistent {isl : VvpIsland} {ports : IslandPorts}
    (h : isl.Consistent ports width)
    (hBr : br ∈ isl.branches) (ab : Bool) {v : VvpVector8} (hv : v.size = width (br.net ab)) :
    (br.passValue ab v).size = width (br.net !ab) := by
  have hBranch := h.branch br hBr
  rw [size_passValue]
  by_cases hWidth : br.width = 0
  · rw [if_pos hWidth] at hBranch ⊢
    rw [hv]
    cases ab with
    | false => exact hBranch
    | true => exact hBranch.symm
  · rw [if_neg hWidth] at hBranch ⊢
    cases ab with
    | false => exact hBranch.2.1
    | true => exact hBranch.1

/- Every value has the width of its port, or none. -/
def Sized (width : Nat → Nat) (value : IslandValues) : Prop :=
  ∀ port, (value port).size = 0 ∨ (value port).size = width port

theorem sized_update {value : IslandValues}
    (h : Sized width value) {port : Nat} {v : VvpVector8} (hv : v.size = width port) :
    Sized width (update value port v) := by
  intro p
  by_cases hp : p = port
  · subst hp
    simp [hv]
  · simpa [hp] using h p

----
-- The Run Is A Push Run
----

/- The island runs as the network does, unless this is refused. -/
def Refines (width : Nat → Nat) (run : Option IslandValues)
    (value : IslandValues) : Except Stop (Values Nat VvpVector8) → Prop
| .ok vals' =>
  ∃ value', run = some value' ∧ view value' = vals' ∧
    Sized width value' ∧
    ∀ port, (value port).size ≠ 0 → (value' port).size ≠ 0
| .error .fuel => run = none
| .error .refused => True

theorem foldlM_refines {ι : Type*}
    (step : IslandValues → ι → Option IslandValues)
    (step' : Values Nat VvpVector8 → ι →
      Except Stop (Values Nat VvpVector8))
    (ok : ι → Prop) (needs : ι → Nat → Prop) (hStep :
      ∀ value i, ok i → Sized width value →
        (∀ port, needs i port → (value port).size ≠ 0) →
          Refines width (step value i) value (step' (view value) i))
    (items : List ι) (value : IslandValues) (hSized : Sized width value)
    (hOk : ∀ i ∈ items, ok i)
    (hStart : ∀ i ∈ items, ∀ port, needs i port → (value port).size ≠ 0) :
    Refines width (items.foldlM step value) value
      (items.foldlM step' (view value)) := by
  induction items generalizing value with
  | nil => exact ⟨value, rfl, rfl, hSized, fun _ h => h⟩
  | cons i items ih =>
    rw [List.forall_mem_cons] at hStart hOk
    rw [List.foldlM_cons, List.foldlM_cons]
    have hFirst := hStep value i hOk.1 hSized hStart.1
    cases hRun : step' (view value) i with
    | error stop =>
      rw [hRun] at hFirst
      cases stop with
      | refused => trivial
      | fuel =>
        rw [show step value i = none from hFirst]
        rfl
    | ok vals₁ =>
      rw [hRun] at hFirst
      rcases hFirst with ⟨value₁, hRun₁, rfl, hSized₁, hKeep₁⟩
      rw [hRun₁]
      have hRest := ih value₁ hSized₁ hOk.2
        (fun i hi port hPort => hKeep₁ _ (hStart.2 i hi port hPort))
      simp only [Option.bind_eq_bind, Option.bind_some]
      change Refines width _ value (items.foldlM step' (view value₁))
      revert hRest
      cases items.foldlM step' (view value₁) with
      | error stop => cases stop <;> exact id
      | ok vals₂ =>
        rintro ⟨value₂, hRun₂, hView₂, hSized₂, hKeep₂⟩
        exact ⟨value₂, hRun₂, hView₂, hSized₂,
          fun port h => hKeep₂ port (hKeep₁ port h)⟩

/- A run that starts from more values keeps fewer of them. -/
theorem refines_of_keeps {run : Option IslandValues}
    {value value₁ : IslandValues}
    {vals : Except Stop (Values Nat VvpVector8)}
    (hKeep : ∀ port, (value port).size ≠ 0 → (value₁ port).size ≠ 0)
    (h : Refines width run value₁ vals) : Refines width run value vals := by
  cases vals with
  | error stop => cases stop <;> exact h
  | ok vals' =>
    rcases h with ⟨value', hRun, hView, hSized, hMore⟩
    exact ⟨value', hRun, hView, hSized,
      fun port hPort => hMore port (hKeep port hPort)⟩

variable {isl : VvpIsland} {ports : IslandPorts}
variable {width : Nat → Nat}
variable (meets : BranchPtr → VvpVector8 → VvpVector8 → Prop)
variable [∀ e v w, Decidable (meets e v w)]

theorem net_of_branch {e : BranchPtr} (h : isl.branches[e.ptr]? = some br) :
    isl.net e = some (br.net e.port) := by
  simp [net, h]

/-
  A push of the island follows the push of the network, as
  long as the sizes agree.  Induction on the fuel.
-/
theorem push_refines (hLinked : isl.Linked)
    (hCons : isl.Consistent ports width) (fuel : Nat) :
    ∀ (value : IslandValues) (e : BranchPtr),
      e.ptr < isl.branches.length →
      Sized width value →
      (value ((isl.network ports).src e)).size ≠ 0 →
        Refines width
          (isl.pushValueThroughBranch ports fuel value e)
          value
          ((isl.network ports).push meets fuel (view value) e) := by
  induction fuel with
  | zero => exact fun _ _ _ _ _ => rfl
  | succ fuel ih =>
    intro value e hValid hSized hSrc
    have hBr : isl.branches[e.ptr]? = some isl.branches[e.ptr] :=
      List.getElem?_eq_getElem hValid
    generalize isl.branches[e.ptr] = br at hBr
    have hMem : br ∈ isl.branches := List.mem_of_getElem? hBr
    have hStay : Refines width (some value) value (.ok (view value)) :=
      ⟨value, rfl, rfl, hSized, fun _ h => h⟩
    rcases network_of_branch ports hBr with ⟨hSrcEq, hDstEq, hPassEq⟩
    rw [hSrcEq] at hSrc
    rw [pushValueThroughBranch, push]
    simp only [hBr]
    by_cases hDisabled : br.state = .disabled
    · have hDead : (isl.network ports).live e = false := by
        simp [network, hBr, hDisabled]
      rw [if_pos hDead, if_pos hDisabled]
      exact hStay
    have hLive : ¬(isl.network ports).live e = false := by
      simp [network, hBr, hDisabled]
    rw [if_neg hLive, if_neg hDisabled]
    have hViewSrc :
        view value ((isl.network ports).src e) =
          some (value (br.net e.port)) := by
      rw [hSrcEq, view, nonNil_eq_some_iff]
      exact ⟨hSrc, rfl⟩
    have hTarget :
        (isl.network ports).target (view value) (br.net !e.port) =
          nonNil (if (value (br.net !e.port)).size = 0 then
              islandGetValue (ports (br.net !e.port))
            else value (br.net !e.port)) := by
      by_cases hNil : (value (br.net !e.port)).size = 0
      · simp [target, view, network, hNil, nonNil]
      · simp [target, view, hNil, nonNil]
    simp only [hViewSrc, hDstEq, hTarget, hPassEq]
    have hStartSize :
        (if (value (br.net !e.port)).size = 0 then
            islandGetValue (ports (br.net !e.port))
          else value (br.net !e.port)).size = 0 ∨
        (if (value (br.net !e.port)).size = 0 then
            islandGetValue (ports (br.net !e.port))
          else value (br.net !e.port)).size =
            width (br.net !e.port) := by
      split_ifs with hNil
      · exact hCons.input _
      · exact hSized _
    generalize
      (if (value (br.net !e.port)).size = 0 then
          islandGetValue (ports (br.net !e.port))
        else value (br.net !e.port)) = start
      at hStartSize
    by_cases hStartNil : start.size = 0
    · rw [if_pos hStartNil, (nonNil_eq_none_iff start).mpr hStartNil]
      exact hStay
    rw [if_neg hStartNil, (nonNil_eq_some_iff start start).mpr ⟨hStartNil, rfl⟩]
    have hStartWidth := hStartSize.resolve_left hStartNil
    have hSrcWidth := (hSized _).resolve_left hSrc
    have hPassed :=
      size_passValue_of_consistent hCons hMem e.port hSrcWidth
    have hAgree : ¬start.size ≠
        (br.passValue e.port (value (br.net e.port))).size := by
      rw [hStartWidth, hPassed]
      simp
    have hMergedSize :
        (resolve start (br.passValue e.port
          (value (br.net e.port)))).size = width (br.net !e.port) := by
      rw [VvpVector8.size_resolve (hStartWidth.trans hPassed.symm), hStartWidth]
    have hMergedNe :
        (resolve start (br.passValue e.port
          (value (br.net e.port)))).size ≠ 0 := by
      rw [hMergedSize, ← hStartWidth]
      exact hStartNil
    have hMerge : (isl.network ports).merge = resolve := rfl
    rw [if_neg hAgree, hMerge]
    by_cases hSame :
        resolve start (br.passValue e.port
          (value (br.net e.port))) = value (br.net !e.port)
    · have hViewDst : view value (br.net !e.port) =
          some (resolve start (br.passValue e.port
            (value (br.net e.port)))) := by
        rw [view, nonNil_eq_some_iff, ← hSame]
        exact ⟨hMergedNe, rfl⟩
      simp only [if_pos hViewDst, if_pos hSame]
      exact hStay
    have hViewDst : ¬view value (br.net !e.port) =
        some (resolve start (br.passValue e.port
          (value (br.net e.port)))) := by
      rw [view, nonNil_eq_some_iff]
      exact fun h => hSame h.2.symm
    simp only [if_neg hViewDst, if_neg hSame]
    by_cases hMeets : meets e (value (br.net e.port)) start
    swap
    · rw [if_neg hMeets]
      trivial
    rw [if_pos hMeets]
    have hNetOther :
        isl.net e.other = some (br.net !e.port) := by
      simp [net, BranchPtr.other, hBr]
    rcases collectNode_of_linked hLinked hNetOther with
      ⟨ends, hEnds, -, hEndsMem⟩
    have hOnward : (isl.network ports).onward e = ends := by
      simp [network, hEnds]
    rw [hOnward, ← view_update value _ hMergedNe]
    simp only [hEnds]
    have hEndsNet : ∀ e' ∈ ends,
        e'.ptr < isl.branches.length ∧
          (isl.network ports).src e' = br.net (!e.port) := by
      intro e' he'
      have hNet := (hEndsMem e').mp he'
      refine ⟨(net_isSome_iff isl e').mp ⟨_, hNet⟩, ?_⟩
      simp [network, hNet]
    refine refines_of_keeps ?_ (foldlM_refines _ _
      (fun e' => e'.ptr < isl.branches.length)
      (fun e' port => port = (isl.network ports).src e')
      (fun value e' hOk hSized hSrc => ih value e' hOk hSized (hSrc _ rfl))
      ends
      (update value (br.net !e.port) _)
      (sized_update hSized hMergedSize)
      (fun e' he' => (hEndsNet e' he').1)
      (by
        rintro e' he' port rfl
        rw [(hEndsNet e' he').2, update_self]
        exact hMergedNe))
    grind

/- The node a side starts from, with the ends at its port. -/
def startOf (isl : VvpIsland) (side : BranchPtr) : Nat × List BranchPtr :=
  ((isl.net side).getD 0, (isl.collectNode side).getD [])

theorem resolveSide_refines (hLinked : isl.Linked)
    (hCons : isl.Consistent ports width) (fuel : Nat)
    (value : IslandValues) {side : BranchPtr}
    (hValid : side.ptr < isl.branches.length)
    (hSized : Sized width value) :
    Refines width (isl.resolveSide ports fuel value side) value
      ((isl.network ports).visit meets fuel (view value)
        (isl.startOf side)) := by
  obtain ⟨port, hNet⟩ := (net_isSome_iff isl side).mpr hValid
  rcases collectNode_of_linked hLinked hNet with ⟨ends, hEnds, -, hEndsMem⟩
  have hStart : isl.startOf side = (port, ends) := by
    simp [startOf, hNet, hEnds]
  have hInput : (isl.network ports).input port =
      nonNil (islandGetValue (ports port)) := rfl
  have hStay : Refines width (some value) value (.ok (view value)) :=
    ⟨value, rfl, rfl, hSized, fun _ h => h⟩
  rw [resolveSide, hStart, visit]
  simp only [hNet, hEnds, hInput]
  by_cases hNil : (value port).size = 0
  · rw [if_pos hNil, show view value port = none from
      (nonNil_eq_none_iff _).mpr hNil]
    by_cases hNoInput : (islandGetValue (ports port)).size = 0
    · rw [if_neg (by simp [hNoInput]), (nonNil_eq_none_iff _).mpr hNoInput]
      exact hStay
    · have hWidth := (hCons.input port).resolve_left hNoInput
      rw [if_pos hNoInput, (nonNil_eq_some_iff _ _).mpr ⟨hNoInput, rfl⟩]
      simp only
      rw [← view_update value port hNoInput]
      have hEndsNet : ∀ e ∈ ends,
          e.ptr < isl.branches.length ∧
            (isl.network ports).src e = port := by
        intro e he
        have hNet' := (hEndsMem e).mp he
        refine ⟨(net_isSome_iff isl e).mp ⟨_, hNet'⟩, ?_⟩
        simp [network, hNet']
      refine refines_of_keeps ?_ (foldlM_refines _ _
        (fun e => e.ptr < isl.branches.length)
        (fun e port => port = (isl.network ports).src e)
        (fun value e hOk hSized hSrc =>
          push_refines meets hLinked hCons fuel value e hOk hSized
            (hSrc _ rfl))
        ends (update value port _)
        (sized_update hSized hWidth)
        (fun e he => (hEndsNet e he).1)
        (by
          rintro e he p rfl
          rw [(hEndsNet e he).2, update_self]
          exact hNoInput))
      grind
  · rw [if_neg hNil, show view value port = some (value port) from
      (nonNil_eq_some_iff _ _).mpr ⟨hNil, rfl⟩]
    exact hStay

theorem mem_sides (isl : VvpIsland) (e : BranchPtr) :
    e ∈ isl.sides ↔ e.ptr < isl.branches.length := by
  rcases e with ⟨ptr, port⟩
  cases port <;> simp [sides]

/- A run of the network of an island, watched. -/
def run (isl : VvpIsland) (ports : IslandPorts) (fuel : Nat) :
    Except Stop (Values Nat VvpVector8) :=
  (isl.network ports).pushAll meets fuel (fun _ => none)
    (isl.sides.map isl.startOf)

/- The resolution of an island is a run of its network. -/
theorem resolveIsland_refines (hLinked : isl.Linked)
    (hCons : isl.Consistent ports width) (fuel : Nat) :
    Refines width
      (isl.resolveIsland ports fuel (fun _ => VvpVector8.nil))
      (fun _ => VvpVector8.nil) (run meets isl ports fuel) := by
  have hFold := foldlM_refines
    (isl.resolveSide ports fuel)
    (fun vals side =>
      (isl.network ports).visit meets fuel vals (isl.startOf side))
    (fun side => side.ptr < isl.branches.length)
    (fun _ _ => False)
    (fun value side hOk hSized _ =>
      resolveSide_refines meets hLinked hCons fuel value hOk hSized)
    isl.sides (fun _ => VvpVector8.nil)
    (fun _ => Or.inl rfl)
    (fun side hSide => (mem_sides isl side).mp hSide)
    (by simp)
  rw [run, pushAll, List.foldlM_map]
  exact hFold

end VvpIsland

end EpicSim

----
-- Fuel
----

namespace EpicSim

namespace VvpIsland

theorem foldlM_mono {ι σ : Type*} {step step' : σ → ι → Option σ}
    (h : ∀ s i r, step s i = some r → step' s i = some r)
    (items : List ι) (s r : σ) (hRun : items.foldlM step s = some r) :
    items.foldlM step' s = some r := by
  induction items generalizing s with
  | nil => exact hRun
  | cons i items ih =>
    rw [List.foldlM_cons] at hRun ⊢
    cases hFirst : step s i with
    | none =>
      rw [hFirst] at hRun
      cases hRun
    | some s' => grind

/- More fuel gives the same result. -/
theorem pushValueThroughBranch_succ (isl : VvpIsland) (ports : IslandPorts) (fuel : Nat) :
    ∀ (value : IslandValues) (e : BranchPtr)
      (r : IslandValues),
      isl.pushValueThroughBranch ports fuel value e = some r →
        isl.pushValueThroughBranch ports (fuel + 1) value e = some r := by
  induction fuel with
  | zero =>
    intro value e r h
    cases h
  | succ fuel ih =>
    intro value e r h
    rw [pushValueThroughBranch] at h ⊢
    revert h
    cases isl.branches[e.ptr]? with
    | none => exact id
    | some br =>
      simp only
      generalize
        (if (value (br.net !e.port)).size = 0 then
            islandGetValue (ports (br.net !e.port))
          else value (br.net !e.port)) = start
      split_ifs
      · exact id
      · exact id
      · exact id
      · exact id
      · cases isl.collectNode e.other with
        | none => exact id
        | some ends => exact foldlM_mono ih ends _ r

theorem resolveIsland_mono (isl : VvpIsland) (ports : IslandPorts) {fuel fuel' : Nat}
    (hFuel : fuel ≤ fuel') (value r : IslandValues)
    (h : isl.resolveIsland ports fuel value = some r) :
    isl.resolveIsland ports fuel' value = some r := by
  induction hFuel with
  | refl => exact h
  | @step fuel' _ ih =>
    refine foldlM_mono ?_ isl.sides value r ih
    intro value side r hSide
    unfold resolveSide at hSide ⊢
    revert hSide
    cases isl.net side with
    | none => exact id
    | some port =>
      simp only
      split_ifs with hNil hInput
      · cases isl.collectNode side with
        | none => exact id
        | some ends => exact foldlM_mono (isl.pushValueThroughBranch_succ ports fuel') ends _ r
      · exact id
      · exact id

end VvpIsland

----
-- Runs To The End
----

open PushNetwork

namespace VvpIsland

theorem net_testEnabled (isl : VvpIsland) (ports : IslandPorts) :
    (isl.testEnabled ports).net = isl.net := by
  funext e
  simp only [net, testEnabled, List.getElem?_map, Option.map_map]
  rfl

variable {isl : VvpIsland} {ports : IslandPorts}
  {width : Nat → Nat}
variable {meets : BranchPtr → VvpVector8 → VvpVector8 → Prop}
variable [∀ e v w, Decidable (meets e v w)]

theorem linked_testEnabled (h : isl.Linked) (ports : IslandPorts) :
    (isl.testEnabled ports).Linked := by
  unfold Linked
  rw [net_testEnabled]
  exact h

theorem consistent_testEnabled (h : isl.Consistent ports width) :
    (isl.testEnabled ports).Consistent ports width where
  branch := by
    intro br hBr
    rcases List.mem_map.mp hBr with ⟨br', hBr', rfl⟩
    exact h.branch br' hBr'
  input := h.input

/- The ends at a port, collected from a live edge. -/
theorem network_onward (hLinked : isl.Linked) (ports : IslandPorts) :
    (isl.network ports).Onward := by
  have hNet : ∀ e, (isl.network ports).live e = true →
      isl.net e = some ((isl.network ports).src e) ∧
        isl.net e.other = some ((isl.network ports).dst e) := by
    intro e hLive
    rcases (live_iff isl ports e).mp hLive with ⟨br, hBr, -⟩
    constructor
    · simp [network, net, hBr]
    · simp [network, net, BranchPtr.other, hBr]
  refine ⟨?_, ?_⟩
  · intro e hLive e' he'
    rcases collectNode_of_linked hLinked (hNet e hLive).2 with ⟨ends, hEnds, -, hMem⟩
    have hOnward : (isl.network ports).onward e = ends := by simp [network, hEnds]
    rw [hOnward, hMem] at he'
    change (isl.net e').getD 0 = _
    rw [he']
    rfl
  · intro e hLive e' hLive' hSrc
    rcases collectNode_of_linked hLinked (hNet e hLive).2 with ⟨ends, hEnds, -, hMem⟩
    have hOnward : (isl.network ports).onward e = ends := by simp [network, hEnds]
    rw [hOnward, hMem, (hNet e' hLive').1, hSrc]

theorem network_start (hLinked : isl.Linked) (ports : IslandPorts) {side : BranchPtr}
    (hSide : side ∈ isl.sides) : (isl.network ports).Start (isl.startOf side) := by
  obtain ⟨port, hNet⟩ := (net_isSome_iff isl side).mpr ((mem_sides isl side).mp hSide)
  rcases collectNode_of_linked hLinked hNet with ⟨ends, hEnds, -, hMem⟩
  have hStart : isl.startOf side = (port, ends) := by simp [startOf, hNet, hEnds]
  rw [hStart]
  refine ⟨?_, ?_⟩
  · intro e he
    change (isl.net e).getD 0 = port
    rw [(hMem e).mp he]
    rfl
  · intro e hLive hSrc
    rcases (live_iff isl ports e).mp hLive with ⟨br, hBr, -⟩
    rw [(network_of_branch ports hBr).1] at hSrc
    rw [hMem, net_of_branch hBr, hSrc]

/- The values at a port have its width. -/
theorem network_fitting (hCons : isl.Consistent ports width) :
    (isl.network ports).Fitting (fun port v => v.size = width port) where
  input := by
    intro port v hInput
    rcases (nonNil_eq_some_iff _ _).mp hInput with ⟨hNil, rfl⟩
    exact (hCons.input _).resolve_left hNil
  pass := by
    intro e v hLive hv
    rcases (live_iff isl ports e).mp hLive with ⟨br, hBr, -⟩
    rcases network_of_branch ports hBr with ⟨hSrc, hDst, hPass⟩
    rw [hSrc] at hv
    rw [hDst, hPass]
    exact size_passValue_of_consistent hCons (List.mem_of_getElem? hBr)
      e.port hv
  merge := by
    intro port w g hw hg
    exact (VvpVector8.size_resolve (hw.trans hg.symm)).trans hw

/- Resolving values that do not clash absorbs at every port. -/
theorem network_absorbing (exact : Bool)
    (hCons : isl.Consistent ports width) :
    (isl.network ports).Absorbing (fun port v => v.size = width port)
      (VvpVector8.Clashes exact) (VvpVector8.Absorbs exact)
      (VvpVector8.rank exact) where
  toFitting := network_fitting hCons
  own := fun _ i _ => VvpVector8.absorbs_self i
  same := by
    intro w g h
    rw [VvpVector8.Absorbs, show VvpVector8.resolve w g = w from h]
  again := by
    intro port w g hw hg hClash
    exact (VvpVector8.absorbs_of_not_clashes (hw.trans hg.symm) hClash).1
  keeps := by
    intro port w g h hw hg hh hClash hOld
    exact (VvpVector8.absorbs_of_not_clashes (hw.trans hg.symm) hClash).2 h
      (hw.trans hh.symm) hOld
  lower := by
    intro port w g hw hg hClash hNe
    exact VvpVector8.rank_resolve_lt (hw.trans hg.symm) hClash hNe

/-
  When no push resolves values that clash, the island
  resolves, with fuel to spare.
-/
theorem resolveIsland_stable (exact : Bool) (hLinked : isl.Linked)
    (hCons : isl.Consistent ports width)
    (hMeets : ∀ e v w, meets e v w →
      ¬VvpVector8.Clashes exact w ((isl.network ports).pass e v))
    (hRun : ∀ fuel, run meets isl ports fuel ≠ .error .refused) :
    ∃ value enough,
      (∀ fuel, enough ≤ fuel →
        isl.resolveIsland ports fuel (fun _ => VvpVector8.nil) =
          some value) ∧
        run meets isl ports enough = .ok (view value) ∧
        (isl.network ports).Stable (fun port v => v.size = width port)
          (VvpVector8.Absorbs exact)
          ((isl.sides.map isl.startOf).map (fun start => start.1))
          (view value) := by
  have hNodes : ∀ e, (isl.network ports).live e = true →
      (isl.network ports).dst e ∈
        (isl.allEnds.map (isl.network ports).dst).toFinset := by
    intro e hLive
    rcases (live_iff isl ports e).mp hLive with ⟨br, hBr, -⟩
    rw [List.mem_toFinset]
    refine List.mem_map_of_mem ?_
    rw [mem_allEnds]
    exact (List.getElem?_eq_some_iff.mp hBr).1
  have hStarts : ∀ start ∈ isl.sides.map isl.startOf,
      (isl.network ports).Start start := by
    intro start hStart
    rcases List.mem_map.mp hStart with ⟨side, hSide, rfl⟩
    exact network_start hLinked ports hSide
  rcases pushAll_settles (network_absorbing exact hCons) hMeets hNodes
      (network_onward hLinked ports) _ hStarts hRun with
    ⟨enough, vals, hEnd, hStable⟩
  have hRefines := resolveIsland_refines meets hLinked hCons enough
  rw [show run meets isl ports enough = .ok vals from hEnd] at hRefines
  rcases hRefines with ⟨value, hResolve, rfl, -, -⟩
  exact ⟨value, enough,
    fun fuel hFuel => isl.resolveIsland_mono ports hFuel _ value hResolve,
    hEnd, hStable⟩

end VvpIsland

end EpicSim
