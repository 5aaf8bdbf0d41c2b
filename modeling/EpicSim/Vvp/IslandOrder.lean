import EpicSim.Vvp.IslandSettle

/-
  The order of the branches of a tran island.

  Two islands have the same branches, added in different
  orders and with the ends of symmetric branches swapped.
  The final value of a port absorbs what the other island
  passes to the port, or the two islands differ there.
-/

----
-- Rearranged Branches
----

namespace EpicSim

/- The branch with its two ends swapped. -/
def TranBranch.swapEnds (br : TranBranch) : TranBranch :=
  { br with a := br.b, b := br.a }

/- The same branch, or a symmetric one seen from its other end. -/
def TranBranch.Turned (br br' : TranBranch) : Prop :=
  br' = br ∨ br.width = 0 ∧ br' = br.swapEnds

/- The same branches in another order, some of them turned. -/
def Rearranged (branches branches' : List TranBranch) : Prop :=
  ∃ middle, branches.Perm middle ∧ List.Forall₂ TranBranch.Turned middle branches'

theorem TranBranch.Turned.symm {br br' : TranBranch} (h : br.Turned br') : br'.Turned br := by
  rcases h with rfl | ⟨hWidth, rfl⟩
  · exact Or.inl rfl
  · exact Or.inr ⟨hWidth, rfl⟩

/- Turned branches cache the same state. -/
theorem TranBranch.Turned.runTestEnabled
    {br br' : TranBranch} (h : br.Turned br') (ports : IslandPorts) :
    (br.runTestEnabled ports).Turned (br'.runTestEnabled ports) := by
  rcases h with rfl | ⟨hWidth, rfl⟩
  · exact Or.inl rfl
  · exact Or.inr ⟨hWidth, rfl⟩

theorem Rearranged.exists_turned {branches branches' : List TranBranch}
    (h : Rearranged branches branches') {br : TranBranch} (hBr : br ∈ branches) :
    ∃ br' ∈ branches', br.Turned br' := by
  rcases h with ⟨middle, hPerm, hTurned⟩
  have hMem : br ∈ middle := hPerm.mem_iff.mp hBr
  clear hPerm
  induction hTurned with
  | nil => cases hMem
  | @cons br₁ br₁' _ _ hHead _ ih => grind

theorem Rearranged.symm {branches branches' : List TranBranch} (h : Rearranged branches branches') :
    ∀ br' ∈ branches', ∃ br ∈ branches, br'.Turned br := by
  rcases h with ⟨middle, hPerm, hTurned⟩
  intro br' hBr'
  have hMiddle : ∃ br ∈ middle, br'.Turned br := by
    clear hPerm
    induction hTurned with
    | nil => cases hBr'
    | @cons br₁ br₁' _ _ hHead _ ih =>
      rcases List.mem_cons.mp hBr' with rfl | hBr'
      · exact ⟨br₁, List.mem_cons_self, hHead.symm⟩
      · grind
  rcases hMiddle with ⟨br, hBr, hTurn⟩
  exact ⟨br, hPerm.mem_iff.mpr hBr, hTurn⟩

----
-- The Same Edges
----

open PushNetwork

namespace VvpIsland

/- Every branch of the first island is in the second one. -/
def Covers (isl isl' : VvpIsland) : Prop :=
  ∀ br ∈ isl.branches, ∃ br' ∈ isl'.branches, br.Turned br'

variable {isl isl' : VvpIsland}

theorem covers_testEnabled (h : isl.Covers isl') (ports : IslandPorts) :
    (isl.testEnabled ports).Covers (isl'.testEnabled ports) := by
  intro br hBr
  rcases List.mem_map.mp hBr with ⟨br₀, hBr₀, rfl⟩
  rcases h br₀ hBr₀ with ⟨br', hBr', hTurn⟩
  exact ⟨_, List.mem_map_of_mem hBr', hTurn.runTestEnabled ports⟩

/- An end of a turned branch is an end of the branch. -/
theorem exists_end_of_turned {br br' : TranBranch} (h : br.Turned br') (port : Bool) :
    ∃ port', br'.net port' = br.net port ∧
      br'.net (!port') = br.net (!port) ∧
      br'.passValue port' = br.passValue port := by
  rcases h with rfl | ⟨hWidth, rfl⟩
  · exact ⟨port, rfl, rfl, rfl⟩
  · refine ⟨!port, ?_, ?_, ?_⟩
    · cases port <;> rfl
    · cases port <;> rfl
    · funext v
      have hWidth' : br.swapEnds.width = 0 := hWidth
      have hBit : br.swapEnds.passBit = br.passBit := rfl
      rw [TranBranch.passValue, TranBranch.passValue, if_pos hWidth', if_pos hWidth, hBit]

theorem consistent_of_covers {ports : IslandPorts} {width : Nat → Nat} (h : isl'.Covers isl)
    (hCons : isl.Consistent ports width) : isl'.Consistent ports width := by
  refine ⟨?_, hCons.input⟩
  intro br' hBr'
  rcases h br' hBr' with ⟨br, hBr, hTurn⟩
  have hWidths := hCons.branch br hBr
  rcases hTurn with rfl | ⟨hWidth, rfl⟩
  · exact hWidths
  · have hSwapped : br'.swapEnds.width = 0 := hWidth
    rw [if_pos hSwapped] at hWidths
    rw [if_pos hWidth]
    exact hWidths.symm

/- The ports of an island are those of the other one. -/
theorem net_of_covers (h : isl.Covers isl') {e : BranchPtr} {port : Nat}
    (hNet : isl.net e = some port) : ∃ e', isl'.net e' = some port := by
  rcases Option.map_eq_some_iff.mp hNet with ⟨br, hBr, rfl⟩
  rcases h br (List.mem_of_getElem? hBr) with ⟨br', hBr', hTurn⟩
  rcases List.mem_iff_getElem?.mp hBr' with ⟨ptr', hPtr'⟩
  rcases exists_end_of_turned hTurn e.port with ⟨port', hPort', -, -⟩
  exact ⟨⟨ptr', port'⟩, by rw [net, hPtr', Option.map_some, hPort']⟩

/- Where one island is at rest, so is the other one. -/
theorem settledValues_of_covers {exact : Bool} {ports : IslandPorts}
    {value : IslandValues} (h : isl.Covers isl') (h' : isl'.Covers isl)
    (hSettled : isl'.SettledValues exact ports value) :
    isl.SettledValues exact ports value where
  valued := by
    intro e port hNet
    rcases net_of_covers h hNet with ⟨e', hNet'⟩
    exact hSettled.valued e' port hNet'
  branch := by
    intro e br hBr hState
    rcases h br (List.mem_of_getElem? hBr) with ⟨br', hBr', hTurn⟩
    rcases List.mem_iff_getElem?.mp hBr' with ⟨ptr', hPtr'⟩
    rcases exists_end_of_turned hTurn e.port with ⟨port', hSrc, hDst, hPass⟩
    have hState' : br'.state ≠ .disabled := by
      rcases hTurn with rfl | ⟨-, rfl⟩
      · exact hState
      · exact hState
    have hRest := hSettled.branch ⟨ptr', port'⟩ br' hPtr' hState'
    rw [hSrc, hDst, hPass] at hRest
    exact hRest
  own := hSettled.own
  isolated := by
    intro e port hNet hIsolated
    rcases net_of_covers h hNet with ⟨e', hNet'⟩
    refine hSettled.isolated e' port hNet' ?_
    intro br' hBr' hState'
    rcases h' br' hBr' with ⟨br, hBr, hTurn⟩
    rcases hTurn with rfl | ⟨-, rfl⟩
    · exact hIsolated br hBr hState'
    · exact (hIsolated br'.swapEnds hBr hState').symm

end VvpIsland

end EpicSim

----
-- Watched Runs
----

namespace EpicSim

open VvpVector8 (nil Absorbs Driven)
open PushNetwork

namespace VvpIsland

/-
  A branch passes a value that the port `rest` absorbs as one
  that it absorbs behind the branch.
-/
def Keeps (isl : VvpIsland) (ports : IslandPorts) (rest : IslandValues)
    (e : BranchPtr) (v _w : VvpVector8) : Prop :=
  Absorbs false (rest ((isl.network ports).src e)) v →
    Absorbs false
      ((isl.network ports).pass e (rest ((isl.network ports).src e)))
      ((isl.network ports).pass e v)

/- The value `a` absorbs what is passed to the port. -/
def Takes (isl : VvpIsland) (ports : IslandPorts) (port : Nat)
    (a : VvpVector8) (e : BranchPtr) (v _w : VvpVector8) : Prop :=
  (isl.network ports).dst e = port →
    Absorbs false a ((isl.network ports).pass e v)

instance (isl : VvpIsland) (ports : IslandPorts) (rest : IslandValues)
    (e : BranchPtr) (v w : VvpVector8) :
    Decidable (isl.Keeps ports rest e v w) := by
  unfold Keeps
  infer_instance

instance (isl : VvpIsland) (ports : IslandPorts) (port : Nat)
    (a : VvpVector8) (e : BranchPtr) (v w : VvpVector8) :
    Decidable (isl.Takes ports port a e v w) := by
  unfold Takes
  infer_instance

variable {isl isl' : VvpIsland} {ports : IslandPorts} {width : Nat → Nat}
variable {fuel fuel' : Nat} {value value' : IslandValues}

/- An island that ends is watched to its end, or refused. -/
theorem run_ok {meets : BranchPtr → VvpVector8 → VvpVector8 → Prop}
    [∀ e v w, Decidable (meets e v w)] (hLinked : isl.Linked)
    (hCons : isl.Consistent ports width)
    (hRun : isl.resolveIsland ports fuel (fun _ => nil) = some value)
    (hWatch : run meets isl ports fuel ≠ .error .refused) :
    run meets isl ports fuel = .ok (view value) ∧ Sized width value := by
  have hRefines := resolveIsland_refines meets hLinked hCons fuel
  rw [hRun] at hRefines
  cases hEnd : run meets isl ports fuel with
  | error stop =>
    rw [hEnd] at hRefines hWatch
    cases stop with
    | refused => exact absurd rfl hWatch
    | fuel => cases hRefines
  | ok vals =>
    rw [hEnd] at hRefines
    rcases hRefines with ⟨value₁, hValue, rfl, hSized, -⟩
    grind

/- A driven value that takes all that a run passes to a port. -/
theorem absorbs_of_takes {port : Nat} {a : VvpVector8}
    (hLinked : isl.Linked) (hCons : isl.Consistent ports width)
    (hRun : isl.resolveIsland ports fuel (fun _ => nil) = some value)
    (hPort : (value port).size ≠ 0) (ha : Driven a)
    (haSize : a.size = width port)
    (hOwn : Absorbs false a (islandGetValue (ports port)))
    (hWatch : run (isl.Takes ports port a) isl ports fuel ≠
      .error .refused) :
    Absorbs false a (value port) := by
  rcases run_ok hLinked hCons hRun hWatch with ⟨hEnd, -⟩
  have hAbsorbed := absorbedBy_of_run (Absorbs false) (· = port)
    (fun _ => some a)
    (network_fitting hCons) ?_ ?_ ?_ hEnd
  · have hView : view value port = some (value port) :=
      (nonNil_eq_some_iff _ _).mpr ⟨hPort, rfl⟩
    rcases (hAbsorbed port _ hView).2 rfl with ⟨a', hEq, h⟩
    rw [Option.some_inj] at hEq
    rwa [hEq]
  · rintro n a' w g rfl hEq hw hg hAbsw hAbsg
    rw [Option.some_inj] at hEq
    subst hEq
    exact VvpVector8.absorbs_resolve (haSize.trans hw.symm)
      (haSize.trans hg.symm) ha hAbsw hAbsg
  · rintro n i rfl hInput
    rcases (nonNil_eq_some_iff _ _).mp hInput with ⟨-, rfl⟩
    exact ⟨a, rfl, hOwn⟩
  · intro e v w _ hTakes hOn _ _ b hEq
    rw [Option.some_inj] at hEq
    rw [← hEq]
    exact hTakes hOn

/- What a branch passes of a driven value is driven. -/
theorem driven_passValue (br : TranBranch) (ab : Bool) {v : VvpVector8}
    (hv : Driven v) : Driven (br.passValue ab v) := by
  have hBit : ∀ bit : VvpScalar, (br.passBit bit).IsDriver := by
    intro bit
    unfold TranBranch.passBit
    dsimp only
    split_ifs
    · split
      · exact ⟨_, _, _, rfl⟩
      · exact ⟨_, _, _, rfl⟩
      · exact ⟨_, _, _, rfl⟩
    · exact ⟨_, _, _, rfl⟩
  unfold TranBranch.passValue VvpVector8.partExpand VvpVector8.subvalue
  split_ifs
  · exact List.forall_mem_map.mpr fun bit _ => hBit bit
  · refine List.forall_mem_map.mpr fun idx _ => ?_
    split_ifs
    · exact ⟨.z, 0, 0, rfl⟩
    · exact VvpVector8.driven_value hv _
  · exact List.forall_mem_map.mpr fun idx _ =>
      VvpVector8.driven_value hv _

/-
  The values of an island at rest absorb those of a run when
  its branches keep what they absorb.
-/
theorem absorbs_of_keeps (hLinked : isl.Linked)
    (hCons : isl.Consistent ports width)
    (hRun : isl.resolveIsland ports fuel (fun _ => nil) = some value)
    (hRest : isl.SettledValues false ports value')
    (hSized : Sized width value') (hDriven : ∀ port, Driven (value' port))
    (hWatch : run (isl.Keeps ports value') isl ports fuel ≠
      .error .refused)
    {e : BranchPtr} {port : Nat} (hNet : isl.net e = some port)
    (hPort : (value port).size ≠ 0) :
    (value' port).size ≠ 0 ∧ Absorbs false (value' port) (value port) := by
  rcases run_ok hLinked hCons hRun hWatch with ⟨hEnd, -⟩
  have hAbsorbed := absorbedBy_of_run (Absorbs false)
    (fun port => ∃ e, isl.net e = some port) (view value')
    (network_fitting hCons) ?_ ?_ ?_ hEnd
  · have hView : view value port = some (value port) :=
      (nonNil_eq_some_iff _ _).mpr ⟨hPort, rfl⟩
    rcases (hAbsorbed port _ hView).2 ⟨e, hNet⟩ with ⟨a, hEq, h⟩
    rcases (nonNil_eq_some_iff _ _).mp hEq with ⟨hNil, rfl⟩
    exact ⟨hNil, h⟩
  · rintro n a w g - hEq hw hg hAbsw hAbsg
    rcases (nonNil_eq_some_iff _ _).mp hEq with ⟨hNil, rfl⟩
    have hSize := (hSized n).resolve_left hNil
    exact VvpVector8.absorbs_resolve (hSize.trans hw.symm)
      (hSize.trans hg.symm) (hDriven n) hAbsw hAbsg
  · rintro n i ⟨e, hOn⟩ hInput
    rcases (nonNil_eq_some_iff _ _).mp hInput with ⟨hNil, rfl⟩
    have hValued := hRest.valued e n hOn hNil
    exact ⟨_, (nonNil_eq_some_iff _ _).mpr ⟨hValued, rfl⟩,
      hRest.own n hValued⟩
  · intro e v w hLive hKeeps _ hv hSrc b hEq
    rcases (live_iff isl ports e).mp hLive with ⟨br, hBr, hState⟩
    rcases network_of_branch ports hBr with ⟨hSrcEq, hDstEq, hPassEq⟩
    rcases (nonNil_eq_some_iff _ _).mp hEq with ⟨hNil, rfl⟩
    rw [Keeps, hSrcEq, hPassEq] at hKeeps
    rw [hSrcEq] at hSrc hv
    rw [hDstEq] at hNil ⊢
    rw [hPassEq]
    rcases hSrc ⟨e, net_of_branch hBr⟩ with ⟨a, ha, hAbs⟩
    rcases (nonNil_eq_some_iff _ _).mp ha with ⟨haNil, rfl⟩
    have haSize := (hSized (br.net e.port)).resolve_left haNil
    have hMem := List.mem_of_getElem? hBr
    have hPassed := size_passValue_of_consistent hCons hMem e.port haSize
    have hPassedv := size_passValue_of_consistent hCons hMem e.port hv
    have hSize := (hSized (br.net !e.port)).resolve_left hNil
    exact VvpVector8.absorbs_trans (hSize.trans hPassed.symm)
      (hPassed.trans hPassedv.symm) (hDriven _)
      (driven_passValue br e.port (hDriven _))
      (hRest.branch e br hBr hState haNil hNil) (hKeeps hAbs)

end VvpIsland

end EpicSim

----
-- Plain Islands
----

namespace EpicSim

open VvpVector8 (nil Absorbs)
open PushNetwork

namespace VvpScalar

/- A value that a driver below supply can emit. -/
structure IsPlain (s : VvpScalar) : Prop where
  driver : s.IsDriver
  strength0 : s.strength0 ≠ 7
  strength1 : s.strength1 ≠ 7

/- Below supply is what an open drive of strong ends absorbs. -/
theorem below_supply_iff (s : VvpScalar) :
    s.strength0 ≠ 7 ∧ s.strength1 ≠ 7 ↔ (amb 6 6).Absorbs false s := by
  have hByte : ∀ v : BitVec 8,
      (strength0 ⟨v⟩ ≠ 7 ∧ strength1 ⟨v⟩ ≠ 7) ↔
        (amb 6 6).Absorbs false ⟨v⟩ := by
    decide +kernel
  exact hByte s.value_

/- Plain values that do not clash resolve to a plain value. -/
theorem isPlain_resolve {a b : VvpScalar} (ha : a.IsPlain) (hb : b.IsPlain)
    (hClash : ¬a.Clashes false b) : (resolve a b).IsPlain := by
  have hBelow := (below_supply_iff (resolve a b)).mpr
    (absorbs_resolve ⟨_, _, _, rfl⟩
      ((below_supply_iff a).mp ⟨ha.strength0, ha.strength1⟩)
      ((below_supply_iff b).mp ⟨hb.strength0, hb.strength1⟩))
  refine ⟨?_, hBelow.1, hBelow.2⟩
  rw [clashes_iff ha.driver hb.driver, not_or, not_or] at hClash
  cases haHiz : a.isHiz with
  | true =>
    rw [resolve_of_isHiz_left b haHiz]
    exact hb.driver
  | false =>
    rcases resolve_drives ha.driver hb.driver hClash.1 hClash.2.1 with
      ⟨hDriver, hAbs, -⟩
    rwa [canon_of_not_isHiz (isHiz_of_absorbs haHiz hAbs)] at hDriver

/- A plain branch passes a plain value as it is. -/
theorem passBit_of_isPlain {br : TranBranch} (hResistive : br.resistive = false)
    (hState : br.state ≠ .unknown) {s : VvpScalar} (hs : s.IsPlain) :
    br.passBit s = s.canon := by
  have hBit : ∀ val : VvpBit4, ∀ s0 s1 : Fin 8,
      (ofBit val s0 s1).strength0 ≠ 7 → (ofBit val s0 s1).strength1 ≠ 7 →
        ofBit (ofBit val s0 s1).value
            (vvpSwitchStrengthMap false (ofBit val s0 s1).strength0)
            (vvpSwitchStrengthMap false (ofBit val s0 s1).strength1) =
          (ofBit val s0 s1).canon := by
    intro val
    cases val <;> decide +kernel
  rcases hs with ⟨⟨val, s0, s1, rfl⟩, h0, h1⟩
  simp only [TranBranch.passBit, hResistive, if_neg hState]
  exact hBit val s0 s1 h0 h1

end VvpScalar

namespace VvpVector8

/- Every lane is plain. -/
def Plain (v : VvpVector8) : Prop :=
  ∀ s ∈ v, s.IsPlain

variable {v w g : VvpVector8}

theorem driven_of_plain (h : Plain v) : Driven v :=
  fun s hs => (h s hs).driver

theorem plain_value (h : Plain v) (i : Nat) : (v.value i).IsPlain := by
  by_cases hi : i < v.length
  · rw [value_of_lt hi]
    exact h _ (List.getElem_mem hi)
  · rw [value, List.getD_eq_default _ _ (not_lt.mp hi)]
    exact ⟨⟨.z, 0, 0, rfl⟩, by decide, by decide⟩

theorem plain_resolve (hSize : w.size = g.size) (hw : Plain w)
    (hg : Plain g) (hClash : ¬Clashes false w g) : Plain (resolve w g) := by
  intro s hs
  rcases List.mem_iff_getElem.mp hs with ⟨i, hi, rfl⟩
  have hiw : i < w.size := by
    rw [← size_resolve hSize]
    exact hi
  rw [← value_of_lt hi, value_resolve rfl hSize.symm hiw]
  exact VvpScalar.isPlain_resolve (plain_value hw i) (plain_value hg i)
    (fun h => hClash ⟨i, hiw, h⟩)

/- What a plain branch passes of a plain value is plain. -/
theorem plain_passValue {br : TranBranch} (hResistive : br.resistive = false)
    (hState : br.state ≠ .unknown) (ab : Bool) (hv : Plain v) :
    Plain (br.passValue ab v) := by
  have hHiz : VvpScalar.hiz.IsPlain :=
    ⟨⟨.z, 0, 0, rfl⟩, by decide, by decide⟩
  unfold TranBranch.passValue partExpand subvalue
  split_ifs
  · refine List.forall_mem_map.mpr fun bit hBit => ?_
    rw [VvpScalar.passBit_of_isPlain hResistive hState (hv bit hBit)]
    unfold VvpScalar.canon
    split_ifs
    · exact hHiz
    · exact hv bit hBit
  · refine List.forall_mem_map.mpr fun idx _ => ?_
    split_ifs
    · exact hHiz
    · exact plain_value hv _
  · exact List.forall_mem_map.mpr fun idx _ => plain_value hv _

theorem absorbs_range {n : Nat} {f g : Nat → VvpScalar}
    (h : ∀ i, (f i).Absorbs false (g i)) :
    Absorbs false ((List.range n).map f) ((List.range n).map g) := by
  have hValue : ∀ f : Nat → VvpScalar, ∀ i < n,
      VvpVector8.value ((List.range n).map f) i = f i := by
    intro f i hi
    rw [value_of_lt (by simpa using hi)]
    simp
  rw [absorbs_iff (by simp [size])]
  intro i hi
  have hi' : i < n := by simpa [size] using hi
  rw [hValue f i hi', hValue g i hi']
  exact h i

/- A plain branch passes absorbed values as absorbed values. -/
theorem absorbs_passValue {br : TranBranch}
    (hResistive : br.resistive = false) (hState : br.state ≠ .unknown)
    (ab : Bool) (hSize : w.size = v.size) (hw : Plain w) (hv : Plain v)
    (h : Absorbs false w v) :
    Absorbs false (br.passValue ab w) (br.passValue ab v) := by
  have hLane : ∀ i, (w.value i).Absorbs false (v.value i) := by
    intro i
    by_cases hi : i < w.size
    · exact (absorbs_iff hSize).mp h i hi
    · rw [value, value, List.getD_eq_default _ _ (not_lt.mp hi),
        List.getD_eq_default _ _ (by simp only [size] at *; omega)]
      exact VvpScalar.absorbs_self _
  unfold TranBranch.passValue
  split_ifs
  · have hMap : ∀ {u : VvpVector8}, Plain u →
        u.map br.passBit = u.map VvpScalar.canon := by
      intro u hu
      exact List.map_congr_left fun s hs =>
        VvpScalar.passBit_of_isPlain hResistive hState (hu s hs)
    rw [hMap hw, hMap hv]
    refine absorbs_congr ?_ ?_ h
    · simp [Function.comp_def]
    · simp [Function.comp_def]
  · refine absorbs_range fun i => ?_
    split_ifs
    · exact VvpScalar.absorbs_self _
    · exact hLane _
  · exact absorbs_range fun i => hLane _

end VvpVector8

namespace VvpIsland

/-
  Branches that are not resistive and whose enables are
  known, between ports driven below supply.
-/
structure PlainlyDriven (isl : VvpIsland) (ports : IslandPorts) : Prop where
  branch :
    ∀ br ∈ isl.branches, br.resistive = false ∧ br.state ≠ .unknown
  input :
    ∀ e port, isl.net e = some port → (islandGetValue (ports port)).Plain

theorem plainlyDriven_of_covers {isl isl' : VvpIsland} {ports : IslandPorts}
    (h : isl'.Covers isl) (hPlain : isl.PlainlyDriven ports) :
    isl'.PlainlyDriven ports where
  branch := by
    intro br' hBr'
    rcases h br' hBr' with ⟨br, hBr, rfl | ⟨-, rfl⟩⟩
    · exact hPlain.branch br hBr
    · exact hPlain.branch br'.swapEnds hBr
  input := by
    intro e port hNet
    rcases net_of_covers h hNet with ⟨e', hNet'⟩
    exact hPlain.input e' port hNet'

variable {isl : VvpIsland} {ports : IslandPorts} {width : Nat → Nat}
variable {fuel : Nat} {value : IslandValues}

/- The values of a plainly driven run, at ports with inputs. -/
def PlainRun (ports : IslandPorts) (width : Nat → Nat)
    (val : Values Nat VvpVector8) : Prop :=
  ∀ n v, val n = some v →
    v.size = width n ∧ v.Plain ∧ (islandGetValue (ports n)).size ≠ 0

theorem plainRun_update {val : Values Nat VvpVector8} {n : Nat}
    {v : VvpVector8} (h : PlainRun ports width val)
    (hSize : v.size = width n) (hv : v.Plain)
    (hInput : (islandGetValue (ports n)).size ≠ 0) :
    PlainRun ports width (Function.update val n (some v)) := by
  intro m u hu
  by_cases hm : m = n
  · grind
  · rw [Function.update_of_ne hm] at hu
    exact h m u hu

/-
  A plainly driven run without clashes has plain values, and
  its branches keep what such values absorb.
-/
theorem plain_of_smooth (hLinked : isl.Linked)
    (hCons : isl.Consistent ports width) (hPlain : isl.PlainlyDriven ports)
    (hRun : isl.resolveIsland ports fuel (fun _ => nil) = some value)
    (hWatch : run (isl.Smooth false ports) isl ports fuel ≠
      .error .refused) :
    (∀ port, (value port).Plain) ∧
      ∀ rest : IslandValues, Sized width rest → (∀ port, (rest port).Plain) →
        (∀ e port, isl.net e = some port →
          (islandGetValue (ports port)).size ≠ 0 → (rest port).size ≠ 0) →
          run (isl.Keeps ports rest) isl ports fuel ≠ .error .refused := by
  rcases run_ok hLinked hCons hRun hWatch with ⟨hEnd, -⟩
  have hFits : (isl.network ports).Fitting _ := network_fitting hCons
  have hInput : ∀ n i, (∃ e, isl.net e = some n) →
      (isl.network ports).input n = some i →
        i.size = width n ∧ i.Plain ∧ (islandGetValue (ports n)).size ≠ 0 := by
    rintro n i ⟨e, hNet⟩ hi
    have hSize := hFits.input n i hi
    rcases (nonNil_eq_some_iff _ _).mp hi with ⟨hNil, rfl⟩
    exact ⟨hSize, hPlain.input e n hNet, hNil⟩
  have hStep : ∀ val e v w, PlainRun ports width val →
      (isl.network ports).Changes val e v w → isl.Smooth false ports e v w →
        PlainRun ports width ((isl.network ports).pushed val e v w) := by
    intro val e v w hVal hChanges hSmooth
    rcases (live_iff isl ports e).mp hChanges.live with ⟨br, hBr, -⟩
    rcases network_of_branch ports hBr with ⟨-, hDstEq, hPassEq⟩
    rcases hPlain.branch br (List.mem_of_getElem? hBr) with
      ⟨hResistive, hState⟩
    rcases hVal _ v hChanges.src with ⟨hvSize, hv, -⟩
    have hgSize := hFits.pass e v hChanges.live hvSize
    have hOn : ∃ e', isl.net e' = some ((isl.network ports).dst e) :=
      ⟨e.other, by rw [hDstEq]; simp [net, BranchPtr.other, hBr]⟩
    have hw : w.size = width ((isl.network ports).dst e) ∧ w.Plain ∧
        (islandGetValue (ports ((isl.network ports).dst e))).size ≠ 0 := by
      rcases target_cases hChanges.dst with hOld | hi
      · exact hVal _ w hOld
      · exact hInput _ w hOn hi
    have hg : VvpVector8.Plain ((isl.network ports).pass e v) := by
      rw [hPassEq]
      exact VvpVector8.plain_passValue hResistive hState e.port hv
    have hBoth := hw.1.trans hgSize.symm
    exact plainRun_update hVal (hFits.merge _ _ _ hw.1 hgSize)
      (VvpVector8.plain_resolve hBoth hw.2.1 hg hSmooth) hw.2.2
  have hVisit : ∀ val, ∀ start ∈ isl.sides.map isl.startOf, ∀ i,
      PlainRun ports width val → val start.1 = none →
        (isl.network ports).input start.1 = some i →
          PlainRun ports width
            (Function.update val start.1 (some i)) := by
    intro val start hStart i hVal _ hi
    rcases List.mem_map.mp hStart with ⟨side, hSide, rfl⟩
    obtain ⟨port, hNet⟩ :=
      (net_isSome_iff isl side).mpr ((mem_sides isl side).mp hSide)
    have hPort : (isl.startOf side).1 = port := by simp [startOf, hNet]
    rw [hPort] at hi ⊢
    rcases hInput port i ⟨side, hNet⟩ hi with ⟨hSize, hv, hNil⟩
    exact plainRun_update hVal hSize hv hNil
  have hStart : PlainRun ports width (fun _ => none) := by
    intro n v hv
    cases hv
  constructor
  · intro port
    by_cases hNil : (value port).size = 0
    · rw [List.length_eq_zero_iff.mp hNil]
      simp [VvpVector8.Plain]
    · have hEndPlain := (pushAll_invariant (isl.Smooth false ports)
        (fun val e v w hVal hChanges hSmooth =>
          ⟨hStep val e v w hVal hChanges hSmooth, hSmooth⟩)
        hVisit hStart hEnd).1
      exact (hEndPlain port _
        ((nonNil_eq_some_iff _ _).mpr ⟨hNil, rfl⟩)).2.1
  · intro rest hSized hRest hValued
    have hKept := (pushAll_invariant (isl.Keeps ports rest)
      (fun val e v w hVal hChanges hSmooth =>
        ⟨hStep val e v w hVal hChanges hSmooth, ?_⟩)
      hVisit hStart hEnd).2
    · rw [show run (isl.Keeps ports rest) isl ports fuel = _ from hKept]
      simp
    · rcases (live_iff isl ports e).mp hChanges.live with ⟨br, hBr, -⟩
      rcases network_of_branch ports hBr with ⟨hSrcEq, -, hPassEq⟩
      rcases hPlain.branch br (List.mem_of_getElem? hBr) with
        ⟨hResistive, hState⟩
      rcases hVal _ v hChanges.src with ⟨hvSize, hv, hNil⟩
      rw [hSrcEq] at hvSize hNil
      have hSize := (hSized (br.net e.port)).resolve_left
        (hValued e _ (net_of_branch hBr) hNil)
      intro hAbs
      rw [hSrcEq] at hAbs ⊢
      rw [hPassEq]
      exact VvpVector8.absorbs_passValue hResistive hState e.port
        (hSize.trans hvSize.symm) (hRest _) hv hAbs

end VvpIsland

end EpicSim

----
-- Order Independence
----

namespace EpicSim

open VvpVector8 (nil Absorbs Driven)
open PushNetwork

namespace VvpIsland

theorem covers_of_rearranged {branches branches' : List TranBranch}
    (h : Rearranged branches branches') :
    (build branches).Covers (build branches') ∧
      (build branches').Covers (build branches) := by
  constructor
  · intro br hBr
    rw [(linked_build branches).2] at hBr
    rw [(linked_build branches').2]
    exact h.exists_turned hBr
  · intro br hBr
    rw [(linked_build branches').2] at hBr
    rw [(linked_build branches).2]
    exact h.symm br hBr

/- The values of two runs at a port, up to encodings of HiZ. -/
def SameAt (value value' : IslandValues) (port : Nat) : Prop :=
  (value port).map VvpScalar.canon = (value' port).map VvpScalar.canon

instance (value value' : IslandValues) (port : Nat) :
    Decidable (SameAt value value' port) := by
  unfold SameAt
  infer_instance

variable {isl isl' : VvpIsland} {ports : IslandPorts} {width : Nat → Nat}
variable {fuel fuel' : Nat} {value value' : IslandValues}

/- Runs that keep what the other one ends with agree. -/
theorem sameAt_of_keeps (hLinked : isl.Linked) (hLinked' : isl'.Linked)
    (hCovers : isl.Covers isl') (hCovers' : isl'.Covers isl)
    (hCons : isl.Consistent ports width)
    (hRun : isl.resolveIsland ports fuel (fun _ => nil) = some value)
    (hRun' : isl'.resolveIsland ports fuel' (fun _ => nil) = some value')
    (hRest : isl.SettledValues false ports value)
    (hRest' : isl'.SettledValues false ports value')
    (hDriven : ∀ port, Driven (value port))
    (hDriven' : ∀ port, Driven (value' port))
    (hWatch : run (isl.Keeps ports value') isl ports fuel ≠
      .error .refused)
    (hWatch' : run (isl'.Keeps ports value) isl' ports fuel' ≠
      .error .refused)
    {e : BranchPtr} {port : Nat} (hNet : isl.net e = some port) :
    SameAt value value' port := by
  have hCons' := consistent_of_covers hCovers' hCons
  have hSized := (run_ok hLinked hCons hRun hWatch).2
  have hSized' := (run_ok hLinked' hCons' hRun' hWatch').2
  rcases net_of_covers hCovers hNet with ⟨e', hNet'⟩
  have hLeft := fun hPort => absorbs_of_keeps hLinked hCons hRun
    (settledValues_of_covers hCovers hCovers' hRest') hSized' hDriven'
    hWatch hNet hPort
  have hRight := fun hPort => absorbs_of_keeps hLinked' hCons' hRun'
    (settledValues_of_covers hCovers' hCovers hRest) hSized hDriven
    hWatch' hNet' hPort
  by_cases hNil : (value port).size = 0
  · have hNil' : (value' port).size = 0 := by
      by_contra h
      exact (hRight h).1 hNil
    rw [SameAt, List.length_eq_zero_iff.mp hNil,
      List.length_eq_zero_iff.mp hNil']
  · rcases hLeft hNil with ⟨hNil', hAbs⟩
    refine VvpVector8.absorbs_antisymm ?_ (hRight hNil').2 hAbs
    rw [(hSized port).resolve_left hNil, (hSized' port).resolve_left hNil']

/- Equal values take the same runs. -/
theorem takes_of_same (hLinked : isl.Linked)
    (hCons : isl.Consistent ports width)
    (hRun : isl.resolveIsland ports fuel (fun _ => nil) = some value)
    {port : Nat} {a a' : VvpVector8}
    (hSame : a.map VvpScalar.canon = a'.map VvpScalar.canon)
    (h : run (isl.Takes ports port a) isl ports fuel ≠ .error .refused) :
    run (isl.Takes ports port a') isl ports fuel ≠ .error .refused := by
  have hTaken := (pushAll_invariant (isl.Takes ports port a') (P := fun _ => True)
    (fun _ e v w _ _ hTakes => ⟨trivial, fun hDst =>
      VvpVector8.absorbs_congr hSame rfl (hTakes hDst)⟩)
    (fun _ _ _ _ _ _ _ => trivial) trivial
    (run_ok hLinked hCons hRun h).1).2
  rw [show run (isl.Takes ports port a') isl ports fuel = _ from hTaken]
  simp

/-
  At a port whose final values absorb what their own runs
  resolved there, the runs agree exactly when the final
  values absorb what the other runs passed to the port.
-/
theorem sameAt_iff_takes (hLinked : isl.Linked) (hLinked' : isl'.Linked)
    (hCons : isl.Consistent ports width) (hCons' : isl'.Consistent ports width)
    (hRun : isl.resolveIsland ports fuel (fun _ => nil) = some value)
    (hRun' : isl'.resolveIsland ports fuel' (fun _ => nil) = some value')
    {port : Nat} (hPort : (value port).size ≠ 0)
    (hPort' : (value' port).size ≠ 0) (hDriven : Driven (value port))
    (hDriven' : Driven (value' port))
    (hInput : Absorbs false (value port) (islandGetValue (ports port)))
    (hInput' : Absorbs false (value' port) (islandGetValue (ports port)))
    (hOwn : run (isl.Takes ports port (value port)) isl ports fuel ≠
      .error .refused)
    (hOwn' : run (isl'.Takes ports port (value' port)) isl' ports fuel' ≠
      .error .refused) :
    SameAt value value' port ↔
      run (isl.Takes ports port (value' port)) isl ports fuel ≠
          .error .refused ∧
        run (isl'.Takes ports port (value port)) isl' ports fuel' ≠
          .error .refused := by
  have hSized := (run_ok hLinked hCons hRun hOwn).2
  have hSized' := (run_ok hLinked' hCons' hRun' hOwn').2
  have hSize := (hSized port).resolve_left hPort
  have hSize' := (hSized' port).resolve_left hPort'
  constructor
  · intro hSame
    exact ⟨takes_of_same hLinked hCons hRun hSame hOwn,
      takes_of_same hLinked' hCons' hRun' hSame.symm hOwn'⟩
  · rintro ⟨hOther, hOther'⟩
    refine VvpVector8.absorbs_antisymm (hSize.trans hSize'.symm) ?_ ?_
    · exact absorbs_of_takes hLinked' hCons' hRun' hPort' hDriven hSize
        hInput hOther'
    · exact absorbs_of_takes hLinked hCons hRun hPort hDriven' hSize'
        hInput' hOther

/- Plainly driven islands that never clash agree. -/
theorem sameAt_of_plain (hLinked : isl.Linked) (hLinked' : isl'.Linked)
    (hCovers : isl.Covers isl') (hCovers' : isl'.Covers isl)
    (hCons : isl.Consistent ports width) (hPlain : isl.PlainlyDriven ports)
    (hSmooth : isl.NeverClashes false ports)
    (hSmooth' : isl'.NeverClashes false ports) :
    ∃ value value' enough, (∀ fuel, enough ≤ fuel →
      isl.resolveIsland ports fuel (fun _ => nil) = some value ∧
        isl'.resolveIsland ports fuel (fun _ => nil) = some value') ∧
      ∀ e port, isl.net e = some port → SameAt value value' port := by
  have hCons' := consistent_of_covers hCovers' hCons
  have hPlain' := plainlyDriven_of_covers hCovers' hPlain
  rcases resolveIsland_stable false hLinked hCons (fun _ _ _ h => h)
      hSmooth with ⟨value, enough, hRuns, -, hStable⟩
  rcases resolveIsland_stable false hLinked' hCons' (fun _ _ _ h => h)
      hSmooth' with ⟨value', enough', hRuns', -, hStable'⟩
  refine ⟨value, value', max enough enough', ?_, ?_⟩
  · grind
  have hRun := hRuns enough le_rfl
  have hRun' := hRuns' enough' le_rfl
  have hRest := settledValues_of_stable hStable
  have hRest' := settledValues_of_stable hStable'
  have hSized := (run_ok hLinked hCons hRun (hSmooth enough)).2
  have hSized' := (run_ok hLinked' hCons' hRun' (hSmooth' enough')).2
  rcases plain_of_smooth hLinked hCons hPlain hRun (hSmooth enough) with
    ⟨hValue, hKeeps⟩
  rcases plain_of_smooth hLinked' hCons' hPlain' hRun'
    (hSmooth' enough') with ⟨hValue', hKeeps'⟩
  intro e port hNet
  refine sameAt_of_keeps hLinked hLinked' hCovers hCovers' hCons hRun hRun'
    hRest hRest' (fun port => VvpVector8.driven_of_plain (hValue port))
    (fun port => VvpVector8.driven_of_plain (hValue' port)) ?_ ?_ hNet
  · refine hKeeps value' hSized' hValue' ?_
    exact (settledValues_of_covers hCovers hCovers' hRest').valued
  · refine hKeeps' value hSized hValue ?_
    exact (settledValues_of_covers hCovers' hCovers hRest).valued

/- The branches added in order, with their enables tested. -/
abbrev ready (branches : List TranBranch) (ports : IslandPorts) :
    VvpIsland :=
  (build branches).testEnabled ports

/- The value `a` absorbs all that the run passes to the port. -/
def TakesRun (isl : VvpIsland) (ports : IslandPorts) (fuel port : Nat)
    (a : VvpVector8) : Prop :=
  run (isl.Takes ports port a) isl ports fuel ≠ .error .refused

/-
  The final value of a port is one that drivers can emit, and
  absorbs the input and all that its own run passed there.
-/
structure Holds (isl : VvpIsland) (ports : IslandPorts) (fuel : Nat)
    (value : IslandValues) (port : Nat) : Prop where
  valued : (value port).size ≠ 0
  driven : Driven (value port)
  input : Absorbs false (value port) (islandGetValue (ports port))
  passed : isl.TakesRun ports fuel port (value port)

/-
  The run ends at rest, with values that drivers can emit;
  its branches keep what the values `rest` absorb.
-/
structure RestsKeeping (isl : VvpIsland) (ports : IslandPorts)
    (fuel : Nat) (value rest : IslandValues) : Prop where
  settled : isl.SettledValues false ports value
  driven : ∀ port, Driven (value port)
  keeps : run (isl.Keeps ports rest) isl ports fuel ≠ .error .refused

/-
  Two rearranged islands.  Where the final values of a port
  hold, they are the same exactly when each absorbs what the
  other run passed to the port.  Runs at rest that keep what
  the other one absorbs agree everywhere.  Plainly driven
  islands do so when no push resolves values that clash.
-/
theorem resolveIsland_order (branches branches' : List TranBranch)
    (hRearranged : Rearranged branches branches') (ports : IslandPorts)
    (width : Nat → Nat) (hCons : (build branches).Consistent ports width) :
    (∀ fuel fuel' value value',
      (ready branches ports).resolveIsland ports fuel (fun _ => nil) =
        some value →
      (ready branches' ports).resolveIsland ports fuel' (fun _ => nil) =
        some value' →
        (∀ port, (ready branches ports).Holds ports fuel value port →
          (ready branches' ports).Holds ports fuel' value' port →
            (SameAt value value' port ↔
              (ready branches ports).TakesRun ports fuel port
                  (value' port) ∧
                (ready branches' ports).TakesRun ports fuel' port
                  (value port))) ∧
          ((ready branches ports).RestsKeeping ports fuel value value' →
            (ready branches' ports).RestsKeeping ports fuel' value' value →
              ∀ e port, (ready branches ports).net e = some port →
                SameAt value value' port)) ∧
      ((ready branches ports).PlainlyDriven ports →
        (ready branches ports).NeverClashes false ports →
        (ready branches' ports).NeverClashes false ports →
          ∃ value value' enough, (∀ fuel, enough ≤ fuel →
            (ready branches ports).resolveIsland ports fuel (fun _ => nil) =
                some value ∧
              (ready branches' ports).resolveIsland ports fuel
                (fun _ => nil) = some value') ∧
            ∀ e port, (ready branches ports).net e = some port →
              SameAt value value' port) := by
  rcases covers_of_rearranged hRearranged with ⟨hCovers, hCovers'⟩
  replace hCovers := covers_testEnabled hCovers ports
  replace hCovers' := covers_testEnabled hCovers' ports
  have hLinked := linked_testEnabled (linked_build branches).1 ports
  have hLinked' := linked_testEnabled (linked_build branches').1 ports
  replace hCons := consistent_testEnabled hCons
  have hCons' := consistent_of_covers hCovers' hCons
  refine ⟨?_, sameAt_of_plain hLinked hLinked' hCovers hCovers' hCons⟩
  intro fuel fuel' value value' hRun hRun'
  constructor
  · intro port h h'
    exact sameAt_iff_takes hLinked hLinked' hCons hCons' hRun hRun'
      h.valued h'.valued h.driven h'.driven h.input h'.input h.passed
      h'.passed
  · intro h h' e port hNet
    exact sameAt_of_keeps hLinked hLinked' hCovers hCovers' hCons hRun hRun'
      h.settled h'.settled h.driven h'.driven h.keeps h'.keeps hNet

/- A tran between two ports, in both directions. -/
def tranBranches : List TranBranch :=
  [.new 0 1 none false 0 0 0 false]

def turnedBranches : List TranBranch :=
  [.new 1 0 none false 0 0 0 false]

/- An x from strong 0 to weak 1 against the pull 0 that undercuts it. -/
def undercutPorts : IslandPorts :=
  pairPorts (.ofBit .x 6 3) (.ofBit .zero 5 5) .hiz

/- A 1 of strengths strong 0 and highz 1 beside an undriven port. -/
def undrivenPorts : IslandPorts :=
  pairPorts (.ofBit .one 6 0) .hiz .hiz

/-
  The undercut pair resolves to a strong 0 both ways, and so
  do the two encodings of HiZ.
-/
theorem resolveIsland_order_tran :
    (∃ value value',
      (ready tranBranches undercutPorts).resolveIsland undercutPorts 9
          (fun _ => nil) = some value ∧
        (ready turnedBranches undercutPorts).resolveIsland undercutPorts 9
          (fun _ => nil) = some value' ∧
        ∀ port : Fin 2, SameAt value value' port) ∧
      ∃ value value' enough, (∀ fuel, enough ≤ fuel →
        (ready tranBranches undrivenPorts).resolveIsland undrivenPorts fuel
            (fun _ => nil) = some value ∧
          (ready turnedBranches undrivenPorts).resolveIsland undrivenPorts
            fuel (fun _ => nil) = some value') ∧
        ∀ e port, (ready tranBranches undrivenPorts).net e = some port →
          SameAt value value' port := by
  have hTurned : Rearranged tranBranches turnedBranches :=
    ⟨_, .refl _, .cons (Or.inr ⟨rfl, rfl⟩) .nil⟩
  constructor
  · have hOrder := (resolveIsland_order tranBranches turnedBranches hTurned
      undercutPorts (fun _ => 1) (consistent_pairPorts _ _ _ (by decide))).1
    have hFirst :
        ((ready tranBranches undercutPorts).resolveIsland undercutPorts 9
          (fun _ => nil)).map (fun value => (value 0, value 1)) =
            some ([⟨0x66⟩], [⟨0x66⟩]) := by
      decide
    have hSecond :
        ((ready turnedBranches undercutPorts).resolveIsland undercutPorts 9
          (fun _ => nil)).map (fun value => (value 0, value 1)) =
            some ([⟨0x66⟩], [⟨0x66⟩]) := by
      decide
    rcases Option.map_eq_some_iff.mp hFirst with ⟨value, hRun, hValue⟩
    rcases Option.map_eq_some_iff.mp hSecond with ⟨value', hRun', hValue'⟩
    injection hValue with h0 h1
    injection hValue' with h0' h1'
    have hStrong : ∀ port : Fin 2,
        value port = [⟨0x66⟩] ∧ value' port = [⟨0x66⟩] := by
      rw [Fin.forall_fin_two]
      exact ⟨⟨h0, h0'⟩, h1, h1'⟩
    have hDriven : Driven [(⟨0x66⟩ : VvpScalar)] :=
      List.forall_mem_singleton.mpr ⟨.zero, 6, 6, rfl⟩
    have hEnds : ∀ port : Fin 2,
        Absorbs false [⟨0x66⟩] (islandGetValue (undercutPorts port)) ∧
          (run ((ready tranBranches undercutPorts).Takes undercutPorts port
            [⟨0x66⟩]) (ready tranBranches undercutPorts) undercutPorts
            9).isOk = true ∧
          (run ((ready turnedBranches undercutPorts).Takes undercutPorts
            port [⟨0x66⟩]) (ready turnedBranches undercutPorts)
            undercutPorts 9).isOk = true := by
      decide
    refine ⟨value, value', hRun, hRun', fun port => ?_⟩
    rcases hStrong port with ⟨hPort, hPort'⟩
    rcases hEnds port with ⟨hInput, hEnd, hEnd'⟩
    have hTakes := pushAll_not_refused _ _ hEnd 9
    have hTakes' := pushAll_not_refused _ _ hEnd' 9
    rw [← hPort] at hTakes
    rw [← hPort'] at hTakes'
    refine ((hOrder 9 9 value value' hRun hRun').1 port
      ⟨by simp [hPort, VvpVector8.size], hPort ▸ hDriven, hPort ▸ hInput,
        hTakes⟩
      ⟨by simp [hPort', VvpVector8.size], hPort' ▸ hDriven,
        hPort' ▸ hInput, hTakes'⟩).mpr ?_
    rw [hPort, ← hPort'] at hTakes
    rw [hPort', ← hPort] at hTakes'
    exact ⟨hTakes, hTakes'⟩
  · refine (resolveIsland_order tranBranches turnedBranches hTurned
      undrivenPorts (fun _ => 1)
      (consistent_pairPorts _ _ _ (by decide))).2 ⟨by decide, ?_⟩ ?_ ?_
    · intro e port _
      have hHiz : VvpVector8.Plain [VvpScalar.hiz] :=
        List.forall_mem_singleton.mpr
          ⟨⟨.z, 0, 0, rfl⟩, by decide, by decide⟩
      rcases port with _ | _ | _ | port
      · exact List.forall_mem_singleton.mpr
          ⟨⟨.one, 6, 0, rfl⟩, by decide, by decide⟩
      · exact hHiz
      · exact hHiz
      · exact List.forall_mem_nil _
    · exact pushAll_not_refused _ _ (show (run _ _ _ 9).isOk = true by
        decide +kernel)
    · exact pushAll_not_refused _ _ (show (run _ _ _ 9).isOk = true by
        decide +kernel)

/- A port that a tran and a tranif of unknown enable share. -/
def sharedBranches : List TranBranch :=
  [.new 2 0 (some 3) true 0 0 0 false, .new 1 0 none false 0 0 0 false]

/- A weak 1, a strong 0 and, beyond the tranif, a weak 0. -/
def sharedPorts : IslandPorts
| 0 => ⟨[.ofBit .one 3 3], nil, [], nil⟩
| 1 => ⟨[.ofBit .zero 6 6], nil, [], nil⟩
| 2 => ⟨[.ofBit .zero 3 3], nil, [], nil⟩
| 3 => ⟨[.ofBit .x 6 6], nil, [], nil⟩
| _ => ⟨nil, nil, [], nil⟩

/- The branch added last decides what the weak 0 becomes. -/
theorem resolveIsland_not_order :
    ¬∀ (branches branches' : List TranBranch)
      (ports : IslandPorts) (width : Nat → Nat),
      Rearranged branches branches' →
      (build branches).Consistent ports width →
        ∃ value enough, ∀ fuel, enough ≤ fuel →
          ((build branches).testEnabled ports).resolveIsland ports fuel (fun _ => nil) =
              some value ∧
            ((build branches').testEnabled
                ports).resolveIsland ports fuel
                (fun _ => nil) = some value := by
  intro hOrder
  have hPerm : sharedBranches.Perm sharedBranches.reverse := (List.reverse_perm _).symm
  have hConsistent :
      (build sharedBranches).Consistent sharedPorts (fun _ => 1) := by
    refine ⟨by decide, ?_⟩
    intro port
    match port with
    | 0 | 1 | 2 | 3 => exact Or.inr rfl
    | _ + 4 => exact Or.inl rfl
  rcases hOrder sharedBranches sharedBranches.reverse
      sharedPorts (fun _ => 1)
      ⟨_, hPerm, List.forall₂_same.mpr (fun _ _ => Or.inl rfl)⟩ hConsistent with
    ⟨value, enough, hRuns⟩
  -- both orders end within nine nested pushes, at port 2 with
  -- different values
  have hFirst :
      (((build sharedBranches).testEnabled
          sharedPorts).resolveIsland sharedPorts 9 (fun _ => nil)).map
          (fun value => value 2) =
        some [⟨0x36⟩] := by
    decide
  have hSecond :
      (((build sharedBranches.reverse).testEnabled
          sharedPorts).resolveIsland sharedPorts 9 (fun _ => nil)).map
          (fun value => value 2) =
        some [⟨0xb6⟩] := by
    decide
  rcases Option.map_eq_some_iff.mp hFirst with ⟨value₁, hRun₁, hPort₁⟩
  rcases Option.map_eq_some_iff.mp hSecond with ⟨value₂, hRun₂, hPort₂⟩
  have hBoth := hRuns (enough + 9) (Nat.le_add_right _ _)
  have hMore₁ := resolveIsland_mono _ sharedPorts (Nat.le_add_left 9 enough) _ value₁ hRun₁
  have hMore₂ := resolveIsland_mono _ sharedPorts (Nat.le_add_left 9 enough) _ value₂ hRun₂
  rw [hBoth.1, Option.some_inj] at hMore₁
  rw [hBoth.2, Option.some_inj] at hMore₂
  rw [← hMore₁] at hPort₁
  rw [← hMore₂, hPort₁] at hPort₂
  exact absurd hPort₂ (by decide)

end VvpIsland

end EpicSim
