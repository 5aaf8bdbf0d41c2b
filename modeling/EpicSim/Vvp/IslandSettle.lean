import EpicSim.Vvp.IslandNetwork

/-
  When a tran island settles.
-/

----
-- Two Ports
----

namespace EpicSim

open VvpVector8 (nil)
open VvpScalar

namespace VvpIsland

/- Two one-bit ports and the port of an enable. -/
def pairPorts (a b en : VvpScalar) : IslandPorts
| 0 => ⟨[a], nil, [], nil⟩
| 1 => ⟨[b], nil, [], nil⟩
| 2 => ⟨[en], nil, [], nil⟩
| _ => ⟨nil, nil, [], nil⟩

theorem consistent_pairPorts (a b en : VvpScalar) {branches : List TranBranch}
    (h : ∀ br ∈ branches, br.width = 0) :
    (build branches).Consistent (pairPorts a b en) (fun _ => 1) := by
  refine ⟨?_, ?_⟩
  · rw [(linked_build branches).2]
    intro br hBr
    rw [if_pos (h br hBr)]
  · intro port
    match port with
    | 0 | 1 | 2 => exact Or.inr rfl
    | _ + 3 => exact Or.inl rfl

end VvpIsland

end EpicSim

----
-- Settled Islands
----

namespace EpicSim

open PushNetwork

namespace VvpIsland

/-
  An island at rest: every port with an input has a value
  that absorbs this input and what the branches that are not
  disabled pass to it; a port without such a branch has just
  its input.
-/
structure SettledValues (exact : Bool) (isl : VvpIsland)
    (ports : IslandPorts) (value : IslandValues) : Prop where
  valued :
    ∀ e port, isl.net e = some port → (islandGetValue (ports port)).size ≠ 0 → (value port).size ≠ 0
  branch :
    ∀ (e : BranchPtr) (br : TranBranch),
      isl.branches[e.ptr]? = some br →
      br.state ≠ .disabled →
      (value (br.net e.port)).size ≠ 0 →
      (value (br.net !e.port)).size ≠ 0 →
        VvpVector8.Absorbs exact (value (br.net !e.port))
          (br.passValue e.port (value (br.net e.port)))
  own :
    ∀ port, (value port).size ≠ 0 →
      VvpVector8.Absorbs exact (value port) (islandGetValue (ports port))
  isolated :
    ∀ e port, isl.net e = some port →
      (∀ br ∈ isl.branches, br.state ≠ .disabled →
        br.a ≠ port ∧ br.b ≠ port) →
        value port = islandGetValue (ports port)

/- A stable run of the network leaves the island at rest. -/
theorem settledValues_of_stable {exact : Bool} {width : Nat → Nat}
    {isl : VvpIsland} {ports : IslandPorts} {value : IslandValues}
    (hStable : (isl.network ports).Stable (fun port v => v.size = width port)
      (VvpVector8.Absorbs exact)
      ((isl.sides.map isl.startOf).map (fun start => start.1))
      (view value)) : isl.SettledValues exact ports value := by
  have hValued : ∀ e port, isl.net e = some port →
      (islandGetValue (ports port)).size ≠ 0 →
        (value port).size ≠ 0 := by
    intro e port hNet hInput hNil
    have hMem : port ∈ (isl.sides.map isl.startOf).map (fun start => start.1) := by
      rw [List.map_map]
      refine List.mem_map.mpr ⟨e, ?_, ?_⟩
      · rw [mem_sides]
        exact (net_isSome_iff isl e).mp ⟨port, hNet⟩
      · simp [startOf, hNet]
    exact hStable.valued port hMem _
      ((nonNil_eq_some_iff _ _).mpr ⟨hInput, rfl⟩)
      ((nonNil_eq_none_iff _).mpr hNil)
  refine ⟨hValued, ?_, ?_, ?_⟩
  · intro e br hBr hLive hSrc hDst
    rcases network_of_branch ports hBr with ⟨hSrcEq, hDstEq, hPassEq⟩
    have hLive' : (isl.network ports).live e = true := (live_iff isl ports e).mpr ⟨br, hBr, hLive⟩
    have hViewDst : view value (br.net !e.port) = some (value (br.net !e.port)) :=
      (nonNil_eq_some_iff _ _).mpr ⟨hDst, rfl⟩
    obtain ⟨i, hi⟩ := Option.ne_none_iff_exists'.mp
      (hStable.invariant.given (br.net !e.port) (by simp [hViewDst]))
    rcases hStable.settled e hLive' (value (br.net e.port)) i
        (by
          rw [hSrcEq]
          exact (nonNil_eq_some_iff _ _).mpr ⟨hSrc, rfl⟩)
        (by rw [hDstEq]; exact hi) with ⟨w, hw, hAbsorbs⟩
    rw [hDstEq, hViewDst, Option.some_inj] at hw
    subst hw
    rw [hPassEq] at hAbsorbs
    exact hAbsorbs
  · intro port hPort
    have hView : view value port = some (value port) := (nonNil_eq_some_iff _ _).mpr ⟨hPort, rfl⟩
    obtain ⟨i, hi⟩ := Option.ne_none_iff_exists'.mp
      (hStable.invariant.given port (by simp [hView]))
    have hOwn := hStable.invariant.own _ _ i hView hi
    rcases (nonNil_eq_some_iff _ _).mp hi with ⟨-, rfl⟩
    exact hOwn
  · intro e port hNet hIsolated
    have hNoEdge : ∀ e, (isl.network ports).live e = true →
        (isl.network ports).dst e ≠ port := by
      intro e hLive
      rcases (live_iff isl ports e).mp hLive with ⟨br, hBr, hState⟩
      rw [(network_of_branch ports hBr).2.1]
      have hBoth := hIsolated br (List.mem_of_getElem? hBr) hState
      cases e.port with
      | false => exact hBoth.2
      | true => exact hBoth.1
    by_cases hPort : (value port).size = 0
    · by_contra hNe
      apply hValued e port hNet ?_ hPort
      intro hInput
      apply hNe
      have hLeft : value port = [] := List.length_eq_zero_iff.mp hPort
      have hRight : islandGetValue (ports port) = [] := List.length_eq_zero_iff.mp hInput
      rw [hLeft, hRight]
    · have hView : view value port = some (value port) :=
        (nonNil_eq_some_iff _ _).mpr ⟨hPort, rfl⟩
      have hInput := hStable.invariant.isolated _ _ hView hNoEdge
      exact ((nonNil_eq_some_iff _ _).mp hInput).2.symm

/- The output loop forgets the values it has sent. -/
theorem outputs_clear (isl : VvpIsland) (ports : IslandPorts) {value : IslandValues}
    (hReached : ∀ port, (value port).size ≠ 0 → ∃ e, isl.net e = some port) :
    (isl.sides.foldl isl.outputSide (ports, value, [])).2.1 = fun _ => VvpVector8.nil := by
  have hFold :
      ∀ (sides : List BranchPtr)
        (s : IslandPorts × IslandValues × List (Nat × VvpVector8)) (port : Nat),
        (s.2.1 port = VvpVector8.nil ∨ ∃ e ∈ sides, isl.net e = some port) →
          (sides.foldl isl.outputSide s).2.1 port = VvpVector8.nil := by
    intro sides
    induction sides with
    | nil => simp
    | cons side sides ih =>
      intro s port h
      apply ih
      unfold outputSide
      cases hNet : isl.net side with
      | none =>
        rcases h with h | ⟨e, he, hPort⟩
        · exact Or.inl h
        · rcases List.mem_cons.mp he with rfl | he
          · rw [hNet] at hPort
            cases hPort
          · exact Or.inr ⟨e, he, hPort⟩
      | some q =>
        simp only
        by_cases hq : q = port
        · subst hq
          left
          split_ifs with hSize
          · simp
          · simp only [not_not] at hSize
            exact List.length_eq_zero_iff.mp hSize
        · have hKeep :
              (if (s.2.1 q).size ≠ 0 then
                ((sendValue s.1 q (s.2.1 q)).1,
                  Function.update s.2.1 q VvpVector8.nil,
                  s.2.2 ++ (sendValue s.1 q (s.2.1 q)).2)
                else s).2.1 port = s.2.1 port := by
            split_ifs
            · simp [Ne.symm hq]
            · rfl
          grind
  funext port
  apply hFold
  by_cases hPort : (value port).size = 0
  · exact Or.inl (List.length_eq_zero_iff.mp hPort)
  · rcases hReached port hPort with ⟨e, he⟩
    refine Or.inr ⟨e, ?_, he⟩
    rw [mem_sides]
    exact (net_isSome_iff isl e).mp ⟨port, he⟩

theorem reached_of_stable {exact : Bool} {width : Nat → Nat}
    {isl : VvpIsland} {ports : IslandPorts} {value : IslandValues}
    (hStable : (isl.network ports).Stable (fun port v => v.size = width port)
      (VvpVector8.Absorbs exact)
      ((isl.sides.map isl.startOf).map (fun start => start.1))
      (view value))
    {port : Nat} (hPort : (value port).size ≠ 0) : ∃ e, isl.net e = some port := by
  have hView : view value port ≠ none := by
    rw [view, ne_eq, nonNil_eq_none_iff]
    exact hPort
  rcases hStable.reached port hView with hMem | ⟨e, hLive, hDst⟩
  · rw [List.map_map] at hMem
    rcases List.mem_map.mp hMem with ⟨side, hSide, hEq⟩
    obtain ⟨q, hq⟩ := (net_isSome_iff isl side).mpr ((mem_sides isl side).mp hSide)
    simp only [Function.comp_apply, startOf, hq, Option.getD_some] at hEq
    exact ⟨side, by rw [hq, hEq]⟩
  · rcases (live_iff isl ports e).mp hLive with ⟨br, hBr, -⟩
    refine ⟨e.other, ?_⟩
    rw [← hDst, (network_of_branch ports hBr).2.1]
    simp [net, BranchPtr.other, hBr]

section Circling

variable {isl : VvpIsland}
variable {ports : IslandPorts}
variable {value : IslandValues}
variable {e : BranchPtr}
variable {br : TranBranch}

/- A push that changes nothing leaves the values alone. -/
theorem push_of_same (fuel : Nat) (hBr : isl.branches[e.ptr]? = some br)
    (hOld : (value (br.net !e.port)).size ≠ 0) (hSame :
      VvpVector8.resolve (value (br.net !e.port)) (br.passValue e.port (value (br.net e.port))) =
        value (br.net !e.port)) :
    isl.pushValueThroughBranch ports fuel value e = none ∨
      isl.pushValueThroughBranch ports fuel value e = some value := by
  cases fuel with
  | zero => exact Or.inl rfl
  | succ fuel =>
    rw [pushValueThroughBranch]
    grind

/-
  A push that changes its destination does not end when the
  pushes from there do not.
-/
theorem push_of_change {fuel : Nat} (start merged : VvpVector8)
    (ends : List BranchPtr) {value' : IslandValues}
    (hBr : isl.branches[e.ptr]? = some br) (hState : br.state ≠ .disabled) (hStart :
      (if (value (br.net !e.port)).size = 0 then
        islandGetValue (ports (br.net !e.port))
      else value (br.net !e.port)) = start)
    (hNonNil : start.size ≠ 0)
    (hMerged : VvpVector8.resolve start (br.passValue e.port (value (br.net e.port))) = merged)
    (hChange : merged ≠ value (br.net !e.port)) (hEnds : isl.collectNode e.other = some ends)
    (hValue' : Function.update value (br.net !e.port) merged = value')
    (hLoop : ends.foldlM (isl.pushValueThroughBranch ports fuel) value' = none) :
    isl.pushValueThroughBranch ports (fuel + 1) value e =
      none := by
  rw [pushValueThroughBranch]
  simp only [hBr, hStart, hMerged, hEnds, hValue',
    if_neg hState, if_neg hNonNil, hLoop]
  split_ifs <;> rfl

theorem foldlM_none_of_first {fuel : Nat} {first : BranchPtr} (rest : List BranchPtr)
    (hFirst : isl.pushValueThroughBranch ports fuel value first = none) :
    (first :: rest).foldlM (isl.pushValueThroughBranch ports fuel) value = none := by
  rw [List.foldlM_cons, hFirst]
  rfl

theorem foldlM_none_of_second {fuel : Nat} {first second : BranchPtr} (rest : List BranchPtr)
    (hFirst :
      isl.pushValueThroughBranch ports fuel value first = none ∨
        isl.pushValueThroughBranch ports fuel value first = some value)
    (hSecond : isl.pushValueThroughBranch ports fuel value second = none) :
    (first :: second :: rest).foldlM (isl.pushValueThroughBranch ports fuel) value = none := by
  rcases hFirst with hFirst | hFirst
  · exact foldlM_none_of_first _ hFirst
  · grind

end Circling

/- Values of two ports. -/
def pairValues (a b : BitVec 8) : IslandValues :=
  Function.update (Function.update (fun _ => VvpVector8.nil) 0 [⟨a⟩]) 1 [⟨b⟩]

theorem update_pairValues_zero (a b c : BitVec 8) :
    Function.update (pairValues a b) 0 [⟨c⟩] = pairValues c b := by
  rw [pairValues, Function.update_comm (by decide), Function.update_idem]
  rfl

theorem update_pairValues_one (a b c : BitVec 8) :
    Function.update (pairValues a b) 1 [⟨c⟩] = pairValues a c := by
  rw [pairValues, Function.update_idem]
  rfl

/- A resistive tran beside a tranif of unknown enable. -/
def circlingBranches : List TranBranch :=
  [.new 0 1 none false 0 0 0 true, .new 0 1 (some 2) true 0 0 0 false]

/- Pull 0 on one side, maybe strong 0 on the other. -/
def circlingPorts : IslandPorts :=
  pairPorts (.ofBit .zero 5 5) (.ofBit .x 6 0) (.ofBit .x 6 6)

/- The pushes go round through four pairs of values. -/
theorem push_circles (fuel : Nat) :
    let push := ((build circlingBranches).testEnabled
      circlingPorts).pushValueThroughBranch circlingPorts fuel
    push (pairValues 0x56 0x06) ⟨0, false⟩ = none ∧
      push (pairValues 0x56 0x56) ⟨1, true⟩ = none ∧
      push (pairValues 0x06 0x56) ⟨1, false⟩ = none ∧
      push (pairValues 0x06 0x06) ⟨0, true⟩ = none := by
  intro push
  induction fuel with
  | zero => exact ⟨rfl, rfl, rfl, rfl⟩
  | succ fuel ih =>
    rcases ih with ⟨hFirst, hSecond, hThird, hFourth⟩
    refine ⟨?_, ?_, ?_, ?_⟩
    · refine push_of_change [⟨0x06⟩] [⟨0x56⟩]
        [⟨0, true⟩, ⟨1, true⟩] rfl (by decide) (by decide)
        (by decide) (by decide) (by decide) (by decide)
        (update_pairValues_one _ _ _) ?_
      exact foldlM_none_of_second _ (push_of_same fuel rfl (by decide) (by decide)) hSecond
    · refine push_of_change [⟨0x56⟩] [⟨0x06⟩]
        [⟨1, false⟩, ⟨0, false⟩] rfl (by decide) (by decide)
        (by decide) (by decide) (by decide) (by decide)
        (update_pairValues_zero _ _ _) ?_
      exact foldlM_none_of_first _ hThird
    · refine push_of_change [⟨0x56⟩] [⟨0x06⟩]
        [⟨1, true⟩, ⟨0, true⟩] rfl (by decide) (by decide)
        (by decide) (by decide) (by decide) (by decide)
        (update_pairValues_one _ _ _) ?_
      exact foldlM_none_of_second _ (push_of_same fuel rfl (by decide) (by decide)) hFourth
    · refine push_of_change [⟨0x06⟩] [⟨0x56⟩]
        [⟨0, false⟩, ⟨1, false⟩] rfl (by decide) (by decide)
        (by decide) (by decide) (by decide) (by decide)
        (update_pairValues_zero _ _ _) ?_
      exact foldlM_none_of_first _ hFirst

/- The first push from the first port enters the circle. -/
theorem push_enters_circle (fuel : Nat) :
    ((build circlingBranches).testEnabled circlingPorts).pushValueThroughBranch circlingPorts
      (fuel + 3)
      (Function.update (fun _ => VvpVector8.nil) 0 [⟨0x55⟩])
      ⟨1, false⟩ = none := by
  have hBoth := push_circles fuel
  refine push_of_change [⟨0x86⟩] [⟨0x86⟩]
    [⟨1, true⟩, ⟨0, true⟩] rfl (by decide) (by decide)
    (by decide) (by decide) (by decide) (by decide)
    (rfl : _ = pairValues 0x55 0x86) ?_
  refine foldlM_none_of_first _ ?_
  refine push_of_change [⟨0x55⟩] [⟨0x56⟩]
    [⟨1, false⟩, ⟨0, false⟩] rfl (by decide) (by decide)
    (by decide) (by decide) (by decide) (by decide)
    (update_pairValues_zero _ _ _) ?_
  refine foldlM_none_of_second _ (push_of_same _ rfl (by decide) (by decide)) ?_
  refine push_of_change [⟨0x86⟩] [⟨0x56⟩]
    [⟨0, true⟩, ⟨1, true⟩] rfl (by decide) (by decide)
    (by decide) (by decide) (by decide) (by decide)
    (update_pairValues_one _ _ _) ?_
  exact foldlM_none_of_second _ (push_of_same fuel rfl (by decide) (by decide)) hBoth.2.1

/- A tranif of unknown enable between two drives of 0. -/
def strayBranches : List TranBranch :=
  [.new 0 1 (some 2) true 0 0 0 false]

def strayPorts : IslandPorts :=
  pairPorts (.ofBit .zero 6 6) (.ofBit .zero 5 5) (.ofBit .x 6 6)

/- A push that resolves no values that clash. -/
abbrev Smooth (exact : Bool) (isl : VvpIsland) (ports : IslandPorts)
    (e : BranchPtr) (v w : VvpVector8) : Prop :=
  ¬VvpVector8.Clashes exact w ((isl.network ports).pass e v)

/- No push of the run, however long, resolves values that clash. -/
def NeverClashes (exact : Bool) (isl : VvpIsland) (ports : IslandPorts) :
    Prop :=
  ∀ fuel, run (isl.Smooth exact ports) isl ports fuel ≠ .error .refused

/-
  Settling: when no push of a run resolves values that clash,
  the run of the island ends.  Just before the outputs every
  branch is at rest, and the run leaves no values behind.
  Drives clash when one undercuts the other, or as encodings
  of HiZ.
-/
theorem runIsland_settles (exact : Bool) (branches : List TranBranch)
    (ports : IslandPorts) (width : Nat → Nat)
    (hCons : (build branches).Consistent ports width)
    (hRun : ((build branches).testEnabled ports).NeverClashes exact ports) :
    (∃ value enough, ∃ ports' sent,
      (∀ fuel, enough ≤ fuel →
        ((build branches).testEnabled ports).resolveIsland ports fuel
            (fun _ => VvpVector8.nil) = some value ∧
          (build branches).runIsland fuel ports (fun _ => VvpVector8.nil) =
            some ((build branches).testEnabled ports, ports',
              (fun _ => VvpVector8.nil), sent)) ∧
        ((build branches).testEnabled ports).SettledValues exact ports value) ∧
      ∀ a b : VvpScalar, a.IsDriver → b.IsDriver →
        (a.Clashes exact b ↔
          a.Undercut b ∨ b.Undercut a ∨ VvpScalar.HiZSwap exact a b) := by
  refine ⟨?_, fun a b => VvpScalar.clashes_iff⟩
  have hLinked := linked_testEnabled (linked_build branches).1 ports
  rcases resolveIsland_stable exact hLinked (consistent_testEnabled hCons)
      (fun _ _ _ h => h) hRun with ⟨value, enough, hEnd, -, hStable⟩
  have hClear := outputs_clear
    ((build branches).testEnabled ports) ports
    (fun port hPort => reached_of_stable hStable hPort)
  cases hOut :
      ((build branches).testEnabled ports).sides.foldl
        ((build branches).testEnabled ports).outputSide
        (ports, value, []) with
  | mk ports' rest =>
    rcases rest with ⟨value', sent⟩
    rw [hOut] at hClear
    simp only at hClear
    refine ⟨value, enough, ports', sent, ?_, settledValues_of_stable hStable⟩
    intro fuel hFuel
    refine ⟨hEnd fuel hFuel, ?_⟩
    simp only [runIsland, hEnd fuel hFuel, hOut, hClear]

/- Two trans between an x that reaches down to 3, a 0 and a 1. -/
def chainBranches : List TranBranch :=
  [.new 0 1 none false 0 0 0 false, .new 2 0 none false 0 0 0 false]

def chainPorts : IslandPorts :=
  pairPorts (.ofBit .x 6 3) (.ofBit .zero 5 5) (.ofBit .one 6 6)

/-
  The x would be undercut by the 0, but meets the 1 first.
-/
theorem runIsland_settles_chain :
    (∃ value enough, ∃ ports' sent,
      (∀ fuel, enough ≤ fuel →
        ((build chainBranches).testEnabled chainPorts).resolveIsland
            chainPorts fuel (fun _ => VvpVector8.nil) = some value ∧
          (build chainBranches).runIsland fuel chainPorts
              (fun _ => VvpVector8.nil) =
            some ((build chainBranches).testEnabled chainPorts, ports',
              (fun _ => VvpVector8.nil), sent)) ∧
        ((build chainBranches).testEnabled chainPorts).SettledValues true
          chainPorts value) ∧
      ∀ a b : VvpScalar, a.IsDriver → b.IsDriver →
        (a.Clashes true b ↔
          a.Undercut b ∨ b.Undercut a ∨ VvpScalar.HiZSwap true a b) := by
  refine runIsland_settles true chainBranches chainPorts (fun _ => 1)
    (consistent_pairPorts _ _ _ (by decide)) ?_
  have hEnd : (run (((build chainBranches).testEnabled chainPorts).Smooth
      true chainPorts) ((build chainBranches).testEnabled chainPorts)
        chainPorts 9).isOk = true := by
    decide +kernel
  exact pushAll_not_refused _ _ hEnd

/-
  A consistent island whose run never ends, and one whose run
  ends before its branch is at rest.
-/
theorem runIsland_circles :
    ((build circlingBranches).Consistent circlingPorts (fun _ => 1) ∧
        ∀ fuel, (build circlingBranches).runIsland fuel
          circlingPorts (fun _ => VvpVector8.nil) = none) ∧
      ((build strayBranches).Consistent strayPorts (fun _ => 1) ∧
        ∃ fuel value,
          ((build strayBranches).testEnabled
              strayPorts).resolveIsland strayPorts fuel
              (fun _ => VvpVector8.nil) = some value ∧
            ∀ exact, ¬((build strayBranches).testEnabled
              strayPorts).SettledValues exact strayPorts value) := by
  refine ⟨⟨consistent_pairPorts _ _ _ (by decide), ?_⟩, consistent_pairPorts _ _ _ (by decide), ?_⟩
  · intro fuel
    have hNever : ((build circlingBranches).testEnabled
        circlingPorts).resolveIsland circlingPorts (fuel + 3) (fun _ => VvpVector8.nil) = none := by
      have hSides : ((build circlingBranches).testEnabled
          circlingPorts).sides = ⟨1, false⟩ :: [⟨1, true⟩, ⟨0, false⟩, ⟨0, true⟩] := by
        decide
      rw [resolveIsland, hSides, List.foldlM_cons]
      have hSide : ((build circlingBranches).testEnabled
          circlingPorts).resolveSide circlingPorts (fuel + 3)
            (fun _ => VvpVector8.nil) ⟨1, false⟩ = none := by
        have hNet : ((build circlingBranches).testEnabled
          circlingPorts).net ⟨1, false⟩ = some 0 := rfl
        have hEnds : ((build circlingBranches).testEnabled
          circlingPorts).collectNode ⟨1, false⟩ = some [⟨1, false⟩, ⟨0, false⟩] := by decide
        rw [resolveSide]
        simp only [hNet, hEnds]
        exact foldlM_none_of_first _ (push_enters_circle fuel)
      rw [hSide]
      rfl
    cases hRun : ((build circlingBranches).testEnabled
        circlingPorts).resolveIsland circlingPorts fuel (fun _ => VvpVector8.nil) with
    | none => simp only [runIsland, hRun]
    | some value =>
      have hMore := resolveIsland_mono _ circlingPorts (Nat.le_add_right fuel 3) _ value hRun
      rw [hNever] at hMore
      cases hMore
  · have hRun :
        (((build strayBranches).testEnabled
            strayPorts).resolveIsland strayPorts 3 (fun _ => VvpVector8.nil)).map
            (fun value => (value 0, value 1)) =
          some ([⟨0x66⟩], [⟨0x56⟩]) := by
      decide
    rcases Option.map_eq_some_iff.mp hRun with ⟨value, hValue, hEq⟩
    injection hEq with hZero hOne
    refine ⟨3, value, hValue, ?_⟩
    intro exact hSettled
    have hSrc : value (TranBranch.net
        (strayBranches[0].runTestEnabled strayPorts) false) = [⟨0x66⟩] := hZero
    have hDst : value (TranBranch.net
        (strayBranches[0].runTestEnabled strayPorts) true) = [⟨0x56⟩] := hOne
    have hRest := hSettled.branch ⟨0, false⟩
      (strayBranches[0].runTestEnabled strayPorts) rfl
      (by decide)
      (by rw [hSrc]; decide)
      (by rw [Bool.not_false, hDst]; decide)
    rw [Bool.not_false, hSrc, hDst] at hRest
    cases exact <;> exact absurd hRest (by decide)

end VvpIsland

end EpicSim
