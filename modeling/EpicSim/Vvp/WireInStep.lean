import EpicSim.Vvp.WireVec4

/-
  Whoever merges the values that a wire sent to its fan-out
  has the value of the wire.

  One lemma says what a filter lets through; driving and
  releasing are two uses of it, and a force sends the whole
  value.
-/

namespace EpicSim

open List (getD_eq_getElem getD_eq_default replicate length_replicate)
open PartUpdate

namespace VvpWireVec4

----
-- Sizes and Values
----

/- Everything has the width of the wire, or is not there. -/
structure Fits (wid : Nat) (w : VvpWireVec4) : Prop where
  bits4 : w.bits4.length = wid
  force4 : w.force4.length = 0 ∨ w.force4.length = wid
  forceMask : w.forceMask.length = 0 ∨ w.forceMask.length = wid ∧ w.force4.length = wid

theorem fits_create (wid : Nat) (init : VvpBit4) : (create wid init).Fits wid where
  bits4 := by simp [create]
  force4 := Or.inl rfl
  forceMask := Or.inl rfl

variable {w : VvpWireVec4} {wid base : Nat} {mask : List Bool}

theorem testForceMask_of_isZero (h : w.testForceMaskIsZero = true) (idx : Nat) :
    w.testForceMask idx = false := by
  unfold testForceMask
  by_cases hIdx : idx < w.forceMask.length
  · rw [getD_eq_getElem _ _ hIdx]
    have hAll := List.all_eq_true.mp h
    simpa using hAll _ (List.getElem_mem hIdx)
  · exact getD_eq_default _ _ (by omega)

@[simp] theorem vec4Value_length (w : VvpWireVec4) : w.vec4Value.length = w.bits4.length := by
  unfold vec4Value
  split_ifs <;> simp

theorem bitValue_vec4Value {idx : Nat} (hIdx : idx < w.bits4.length) :
    bitValue w.vec4Value idx = w.value idx := by
  unfold vec4Value
  by_cases hZero : w.testForceMaskIsZero
  · rw [if_pos hZero]
    unfold value
    rw [testForceMask_of_isZero hZero]
    rfl
  · rw [if_neg hZero]
    unfold bitValue
    rw [getD_eq_getElem _ _ (by simpa using hIdx)]
    simp

/- The value does not see the flags. -/
theorem value_congr {w w' : VvpWireVec4} {idx : Nat}
    (hMask : w'.testForceMask idx = w.testForceMask idx)
    (hForce : bitValue w'.force4 idx = bitValue w.force4 idx)
    (hBits : bitValue w'.bits4 idx = bitValue w.bits4 idx) : w'.value idx = w.value idx := by
  unfold value
  rw [hMask, hForce, hBits]

----
-- Filtering
----

/-
  A value taken at a base: the driven bits are now `bits`,
  and what was sent is the value of the wire there.  Nothing
  is sent where nothing changed, or all bits are forced.
-/
structure Taken (w : VvpWireVec4) (bits val : List VvpBit4) (base : Nat) (w' : VvpWireVec4)
    (sent : Option (List VvpBit4)) : Prop where
  bits4 : w'.bits4 = bits
  force4 : w'.force4 = w.force4
  forceMask : w'.forceMask = w.forceMask
  shown :
    ∀ rep, sent = some rep →
      rep.length = val.length ∧
      ∀ idx, idx < val.length → bitValue rep idx = w'.value (base + idx)
  kept :
    sent = none →
      (w.bits4 = bits ∧ w.needsInit = false) ∨
      ∀ idx, idx < val.length → w.testForceMask (base + idx) = true

theorem filterMask_spec {val : List VvpBit4} (hFits : w.Fits wid) (hRange : base + val.length ≤ wid)
    (hVal : ∀ idx, idx < val.length → bitValue w.bits4 (base + idx) = bitValue val idx) :
    ∃ w' rc,
      w.filterMask val base = some (w', rc) ∧
      w'.bits4 = w.bits4 ∧
      w'.force4 = w.force4 ∧
      w'.forceMask = w.forceMask ∧
      (∀ rep, VvpNet.propagate val rc = some rep →
        rep.length = val.length ∧
        ∀ idx, idx < val.length → bitValue rep idx = w.value (base + idx)) ∧
      (VvpNet.propagate val rc = none →
        ∀ idx, idx < val.length →
          w.testForceMask (base + idx) = true) := by
  unfold filterMask
  by_cases hZero : w.testForceMaskIsZero
  · rw [if_pos hZero]
    refine ⟨w, .prop, rfl, rfl, rfl, rfl, ?_, ?_⟩
    · rintro rep ⟨⟩
      constructor
      · rfl
      · intro idx hIdx
        unfold value
        rw [testForceMask_of_isZero hZero, ← hVal idx hIdx]
        rfl
    · intro h
      cases h
  · rw [if_neg hZero]
    have hSizes :
        w.forceMask.length = wid ∧ w.force4.length = wid := by
      rcases hFits.forceMask with hNone | hSizes
      · exfalso
        apply hZero
        rw [testForceMaskIsZero, List.length_eq_zero_iff.mp hNone]
        rfl
      · exact hSizes
    rw [if_pos ⟨by omega, by omega⟩]
    refine ⟨_, _, rfl, rfl, rfl, rfl, ?_, ?_⟩
    · intro rep hRep
      split_ifs at hRep with hFlag
      · cases hRep
        constructor
        · simp
        · intro idx hIdx
          have hBit : val[idx] = bitValue w.bits4 (base + idx) := by
            rw [hVal idx hIdx]
            exact (getD_eq_getElem _ _ hIdx).symm
          have hRep :
              ∀ f : Nat → VvpBit4 → VvpBit4,
                bitValue (val.mapIdx f) idx = f idx val[idx] := by
            intro f
            unfold bitValue
            rw [getD_eq_getElem _ _ (by simpa using hIdx)]
            simp
          rw [hRep, hBit]
          rfl
      · cases hRep
    · intro hNone idx hIdx
      split_ifs at hNone with hFlag
      · cases hNone
      · grind

theorem drive_spec {bits val : List VvpBit4} (hFits : w.Fits wid)
    (hBits : bits.length = wid) (hRange : base + val.length ≤ wid)
    (hVal : ∀ idx, idx < val.length → bitValue bits (base + idx) = bitValue val idx) :
    ∃ w' rc,
      w.drive bits val base = some (w', rc) ∧
      w.Taken bits val base w' (VvpNet.propagate val rc) := by
  unfold drive
  by_cases hSame : w.bits4 = bits ∧ w.needsInit = false
  · rw [if_pos hSame]
    refine ⟨w, .stop, rfl, hSame.1, rfl, rfl, ?_, ?_⟩
    · intro rep h
      cases h
    · intro _
      exact Or.inl hSame
  · rw [if_neg hSame]
    have hFits' :
        Fits wid { w with bits4 := bits, needsInit := false } :=
      ⟨hBits, hFits.force4, hFits.forceMask⟩
    rcases filterMask_spec hFits' hRange hVal with
      ⟨w', rc, hFilter, hBits4, hForce, hMask, hSent, hKept⟩
    refine ⟨w', rc, hFilter, hBits4, hForce, hMask, ?_, ?_⟩
    · intro rep hRep
      rcases hSent rep hRep with ⟨hLength, hRep⟩
      refine ⟨hLength, ?_⟩
      intro idx hIdx
      rw [hRep idx hIdx]
      apply value_congr
      · unfold testForceMask
        rw [hMask]
      · rw [hForce]
      · rw [hBits4]
    · intro hNone
      right
      exact hKept hNone

/- The filter takes a value that lies in the wire where it is. -/
theorem filterVec4_eq_drive {bit : List VvpBit4} (hFits : w.Fits wid)
    (hRange : base + bit.length ≤ wid) :
    w.filterVec4 bit base wid = w.drive (overwrite w.bits4 base bit) bit base := by
  unfold filterVec4
  by_cases hEmpty : base = 0 ∧ wid = 0
  · rw [if_pos hEmpty]
    have hNil : w.bits4 = [] := by
      apply List.length_eq_zero_iff.mp
      rw [hFits.bits4, hEmpty.2]
    have hBit : bit = [] := by
      apply List.length_eq_zero_iff.mp
      omega
    rw [hNil, hBit, hEmpty.1]
    rfl
  · rw [if_neg hEmpty, if_neg (by rw [hFits.bits4]; simp)]
    by_cases hFull : base = 0 ∧ bit.length = wid
    · have hAll : overwrite w.bits4 base bit = bit := by
        rw [hFull.1]
        exact overwrite_all (by rw [hFits.bits4, hFull.2])
      rw [if_pos hFull, hAll]
    · rw [if_neg hFull, if_pos (by rw [hFits.bits4]; exact hRange)]

/- What a filter does with a value that lies in the wire. -/
theorem filterVec4_spec {bit : List VvpBit4} (hFits : w.Fits wid)
    (hRange : base + bit.length ≤ wid) :
    ∃ w' rc,
      w.filterVec4 bit base wid = some (w', rc) ∧
      w.Taken (overwrite w.bits4 base bit) bit base w' (VvpNet.propagate bit rc) := by
  have hLength : (overwrite w.bits4 base bit).length = wid := by rw [overwrite_length, hFits.bits4]
  have hVal :
      ∀ idx, idx < bit.length →
        bitValue (overwrite w.bits4 base bit) (base + idx) = bitValue bit idx := by
    intro idx hIdx
    have hInside : base + idx < w.bits4.length := by
      rw [hFits.bits4]
      omega
    unfold bitValue
    rw [overwrite_getD _ hInside, if_pos ⟨by omega, by omega⟩]
    congr 1
    omega
  rw [filterVec4_eq_drive hFits hRange]
  exact drive_spec hFits hLength hRange hVal

theorem Taken.fits {w w' : VvpWireVec4} {bits val : List VvpBit4}
    {sent : Option (List VvpBit4)} (h : w.Taken bits val base w' sent) (hFits : w.Fits wid)
    (hBits : bits.length = wid) :
    w'.Fits wid where
  bits4 := by rw [h.bits4, hBits]
  force4 := by rw [h.force4]; exact hFits.force4
  forceMask := by
    rw [h.forceMask, h.force4]
    exact hFits.forceMask

----
-- Forcing and Releasing
----

theorem getD_zipWith {as bs : List Bool} {f : Bool → Bool → Bool}
    (hLength : as.length = bs.length) (hf : f false false = false) (idx : Nat) :
    (as.zipWith f bs).getD idx false = f (as.getD idx false) (bs.getD idx false) := by
  by_cases hIdx : idx < as.length
  · grind
  · grind

theorem setForceMask_spec (hFits : w.Fits wid) (hMask : mask.length = wid) :
    ∃ w',
      w.setForceMask mask = some w' ∧
      w'.bits4 = w.bits4 ∧
      w'.force4 = w.force4 ∧
      w'.forceMask.length = wid ∧
      ∀ idx,
        w'.testForceMask idx = (w.testForceMask idx || mask.getD idx false) := by
  unfold setForceMask
  by_cases hNone : w.forceMask.length = 0
  · rw [if_pos hNone]
    have hLength : (replicate mask.length false).length = mask.length := by simp
    rw [if_pos hLength]
    refine ⟨_, rfl, rfl, rfl, by simpa using hMask, ?_⟩
    intro idx
    have hFresh :
        (replicate mask.length false).getD idx false = false := by simp
    have hOld :
        w.testForceMask idx = (replicate mask.length false).getD idx false := by
      rw [hFresh]
      exact getD_eq_default _ _ (by omega)
    rw [hOld]
    exact getD_zipWith (f := fun old new => old || new) hLength rfl idx
  · have hSizes := hFits.forceMask.resolve_left hNone
    have hLength : w.forceMask.length = mask.length := by omega
    rw [if_neg hNone, if_pos hLength]
    refine ⟨_, rfl, rfl, rfl, by simp; omega, ?_⟩
    intro idx
    exact getD_zipWith hLength rfl idx

/- What a force does to a wire. -/
theorem forceFilVec4_spec {val : List VvpBit4} (hFits : w.Fits wid) (hVal : val.length = wid)
    (hMask : mask.length = wid) :
    ∃ w',
      w.forceFilVec4 val mask = some w' ∧
      w'.Fits wid ∧
      w'.bits4 = w.bits4 ∧
      ∀ idx, idx < wid →
        w'.value idx =
          if mask.getD idx false then bitValue val idx
          else w.value idx := by
  rcases setForceMask_spec hFits hMask with ⟨w₁, hSet, hBits, hForce, hLength, hTest⟩
  have hValue :
      ∀ force4 : List VvpBit4, ∀ idx,
        bitValue force4 idx =
            (if mask.getD idx false then bitValue val idx
              else bitValue w.force4 idx) ∨
          w.testForceMask idx = false ∧ bitValue force4 idx = bitValue val idx →
        value { w₁ with force4 := force4 } idx =
          if mask.getD idx false then bitValue val idx
          else w.value idx := by
    intro force4 idx hBit
    have hTest₁ :
        testForceMask { w₁ with force4 := force4 } idx =
          (w.testForceMask idx || mask.getD idx false) :=
      hTest idx
    unfold value
    rw [hTest₁, hBits]
    by_cases hNew : mask.getD idx false = true
    · grind
    · grind
  unfold forceFilVec4
  rw [hSet]
  by_cases hNone : w₁.force4.length = 0
  · refine ⟨{ w₁ with force4 := val }, if_pos hNone, ?_, hBits, ?_⟩
    · exact ⟨by rw [hBits, hFits.bits4], Or.inr hVal, Or.inr ⟨hLength, hVal⟩⟩
    · intro idx hIdx
      apply hValue
      right
      refine ⟨?_, rfl⟩
      apply getD_eq_default
      rw [hForce] at hNone
      have := hFits.forceMask
      omega
  · have hSize : w.force4.length = wid := by
      rw [hForce] at hNone
      exact hFits.force4.resolve_left hNone
    have hAll : (List.range mask.length).all (fun idx =>
        !mask.getD idx false || decide (idx < w₁.force4.length)) := by grind
    refine ⟨_, (if_neg hNone).trans (if_pos hAll), ?_, hBits, ?_⟩
    · refine ⟨by rw [hBits, hFits.bits4], Or.inr ?_, Or.inr ⟨hLength, ?_⟩⟩
      · simp [hForce, hSize]
      · simp [hForce, hSize]
    · intro idx hIdx
      apply hValue
      left
      have hIdx' : idx < w₁.force4.length := by
        rw [hForce, hSize]
        exact hIdx
      unfold bitValue
      rw [getD_eq_getElem _ _ (by simpa using hIdx'),
        List.getElem_mapIdx, ← hForce, getD_eq_getElem _ _ hIdx']

/- What releasing a mask does to a wire. -/
theorem releaseMask_spec (hFits : w.Fits wid) (hMask : mask.length = wid) :
    ∃ w',
      w.releaseMask mask = some w' ∧
      w'.Fits wid ∧
      w'.bits4 = w.bits4 ∧
      w'.force4 = w.force4 ∧
      ∀ idx,
        w'.testForceMask idx = (w.testForceMask idx && !mask.getD idx false) := by
  unfold releaseMask
  by_cases hNone : w.forceMask.length = 0
  · rw [if_pos hNone]
    refine ⟨w, rfl, hFits, rfl, rfl, ?_⟩
    intro idx
    have hFalse : w.testForceMask idx = false := getD_eq_default _ _ (by omega)
    rw [hFalse, Bool.false_and]
  · have hSizes := hFits.forceMask.resolve_left hNone
    rw [if_neg hNone, if_pos (by omega)]
    refine ⟨_, rfl, ⟨hFits.bits4, hFits.force4, ?_⟩, rfl, rfl, ?_⟩
    · grind
    · intro idx
      have hBit := getD_zipWith
        (f := fun old new => old && !new)
        (hSizes.1.trans hMask.symm) rfl idx
      unfold testForceMask
      split_ifs with hZero
      · rw [← hBit]
        have hLeft := testForceMask_of_isZero
          (w := { w with forceMask := w.forceMask.zipWith (fun old new => old && !new) mask })
          hZero idx
        unfold testForceMask at hLeft
        rw [hLeft]
        rfl
      · exact hBit

end VvpWireVec4

namespace VvpNet

open VvpWireVec4

----
-- Observers
----

/-
  The driven value is the given one, and the merged values
  of the fan-out are the value of the wire.
-/
structure InStep (wid : Nat) (init : VvpBit4) (driven : List VvpBit4) (net : VvpNet) : Prop where
  fits : net.fil.Fits wid
  bits4 : net.fil.bits4 = driven
  out : ∀ u, u ∈ net.out → u.Fits wid
  seen : ∀ idx, idx < wid → bitValue (mergeAll (replicate wid init) net.out) idx = net.fil.value idx

theorem inStep_create (wid : Nat) (init : VvpBit4) :
    InStep wid init (replicate wid init) ⟨.create wid init, []⟩ where
  fits := fits_create wid init
  bits4 := rfl
  out := by simp
  seen := by
    intro idx _
    rfl

variable {wid : Nat} {init : VvpBit4} {driven : List VvpBit4}
  {net : VvpNet}

theorem InStep.view_length (h : InStep wid init driven net) :
    (mergeAll (replicate wid init) net.out).length = wid :=
  mergeAll_length (by simp) h.out

/-
  Sending a filtered value.  `fil` is the wire as the filter
  finds it; where nothing is sent, it must already have the
  value that the observers know.
-/
theorem InStep.taken {wid base : Nat} {driven bit : List VvpBit4}
    {fil fil' : VvpWireVec4} {sent : Option (List VvpBit4)}
    {update : List VvpBit4 → PartUpdate VvpBit4}
    (h : InStep wid init driven net) (hFits : fil.Fits wid) (hBits : fil.bits4 = net.fil.bits4)
    (hUpdate :
      ∀ view rep : List VvpBit4,
        view.length = wid → rep.length = bit.length →
        (update rep).Fits wid ∧
        (update rep).apply view = overwrite view base rep)
    (hOutside :
      ∀ idx, idx < wid → idx < base ∨ base + bit.length ≤ idx → fil.value idx = net.fil.value idx)
    (hSame :
      overwrite fil.bits4 base bit = fil.bits4 →
      fil.needsInit = false →
      ∀ idx, idx < wid → fil.value idx = net.fil.value idx)
    (hMasked : ∀ idx, idx < wid → fil.testForceMask idx = true → fil.value idx = net.fil.value idx)
    (hTaken : fil.Taken (overwrite fil.bits4 base bit) bit base fil' sent) :
    InStep wid init (overwrite driven base bit) ⟨fil', net.out ++ (sent.map update).toList⟩ := by
  have hView := h.view_length
  have hLength : fil.bits4.length = wid := hFits.bits4
  -- Outside of the range the wire keeps its value.
  have hFar :
      ∀ idx, idx < wid →
        idx < base ∨ base + bit.length ≤ idx →
        fil'.value idx = net.fil.value idx := by
    intro idx hIdx hFar
    rw [← hOutside idx hIdx hFar]
    apply value_congr
    · unfold testForceMask
      rw [hTaken.forceMask]
    · rw [hTaken.force4]
    · rw [hTaken.bits4]
      unfold bitValue
      rw [overwrite_getD _ (by omega), if_neg (by omega)]
  have hFits' : fil'.Fits wid := hTaken.fits hFits (by rw [overwrite_length, hLength])
  have hBits4 : fil'.bits4 = overwrite driven base bit := by rw [hTaken.bits4, hBits, h.bits4]
  cases hSent : sent with
  | none =>
    refine ⟨hFits', hBits4, by simpa using h.out, ?_⟩
    intro idx hIdx
    have hOld :
        bitValue (mergeAll (replicate wid init) (net.out ++ (Option.map update none).toList)) idx =
          net.fil.value idx := by
      simpa using h.seen idx hIdx
    rw [hOld]
    by_cases hNear : idx < base ∨ base + bit.length ≤ idx
    · exact (hFar idx hIdx hNear).symm
    · rcases hTaken.kept hSent with hKept | hForced
      · rw [← hSame hKept.1.symm hKept.2 idx hIdx]
        symm
        apply value_congr
        · unfold testForceMask
          rw [hTaken.forceMask]
        · rw [hTaken.force4]
        · rw [hTaken.bits4, ← hKept.1]
      · have hMask := hForced (idx - base) (by omega)
        rw [Nat.add_sub_cancel' (by omega)] at hMask
        rw [← hMasked idx hIdx hMask]
        unfold value testForceMask
        unfold testForceMask at hMask
        rw [hTaken.forceMask, hTaken.force4, hMask]
        rfl
  | some rep =>
    rcases hTaken.shown rep hSent with ⟨hRep, hShown⟩
    rcases hUpdate _ rep hView hRep with ⟨hFit, hApply⟩
    refine ⟨hFits', hBits4, ?_, ?_⟩
    · intro u hu
      rcases List.mem_append.mp hu with hu | hu
      · exact h.out u hu
      · grind
    · intro idx hIdx
      have hMerge :
          mergeAll (replicate wid init) (net.out ++ (Option.map update (some rep)).toList) =
            overwrite
              (mergeAll (replicate wid init) net.out)
              base rep := by
        rw [← hApply]
        simp
      rw [hMerge]
      unfold bitValue
      rw [overwrite_getD _ (by omega)]
      by_cases hNear : base ≤ idx ∧ idx < base + rep.length
      · rw [if_pos hNear]
        have hBit := hShown (idx - base) (by omega)
        rw [Nat.add_sub_cancel' hNear.1] at hBit
        exact hBit
      · rw [if_neg hNear, hFar idx hIdx (by omega)]
        exact h.seen idx hIdx

/- A full value through the filter. -/
theorem InStep.sendVec4 (h : InStep wid init driven net) (fil : VvpWireVec4)
    (bit : List VvpBit4) (hFits : fil.Fits wid)
    (hBits : fil.bits4 = net.fil.bits4) (hBit : bit.length = wid) (hSame :
      bit = fil.bits4 →
      fil.needsInit = false →
      ∀ idx, idx < wid → fil.value idx = net.fil.value idx)
    (hMasked :
      ∀ idx, idx < wid → fil.testForceMask idx = true → fil.value idx = net.fil.value idx) :
    ∃ net',
      VvpNet.sendVec4 { net with fil := fil } bit = some net' ∧
      net'.fil.forceMask = fil.forceMask ∧
      InStep wid init bit net' := by
  have hRange : 0 + bit.length ≤ wid := by omega
  rcases filterVec4_spec hFits hRange with ⟨fil', rc, hFilter, hTaken⟩
  have hDriven : overwrite driven 0 bit = bit :=
    overwrite_all (by rw [← h.bits4, ← hBits, hFits.bits4, hBit])
  have hAll : overwrite fil.bits4 0 bit = bit := overwrite_all (by rw [hFits.bits4, hBit])
  have hNext :
      InStep wid init (overwrite driven 0 bit)
        ⟨fil', net.out ++ ((propagate bit rc).map PartUpdate.full).toList⟩ := by
    apply h.taken hFits hBits _ _ _ hMasked hTaken
    · intro view rep hView hRep
      refine ⟨by rw [PartUpdate.Fits, hRep, hBit], ?_⟩
      have hAll : overwrite view 0 rep = rep := overwrite_all (by omega)
      exact hAll.symm
    · intro idx hIdx hFar
      omega
    · grind
  rw [hDriven] at hNext
  refine ⟨_, ?_, hTaken.forceMask, hNext⟩
  simp only [VvpNet.sendVec4, hBit, hFilter]
  rfl

/- A part through the filter. -/
theorem InStep.sendVec4Pv (h : InStep wid init driven net) (fil : VvpWireVec4)
    (bit : List VvpBit4) (base : Nat) (hFits : fil.Fits wid)
    (hBits : fil.bits4 = net.fil.bits4) (hRange : base + bit.length ≤ wid) (hOutside :
      ∀ idx, idx < wid → idx < base ∨ base + bit.length ≤ idx → fil.value idx = net.fil.value idx)
    (hSame :
      overwrite fil.bits4 base bit = fil.bits4 →
      fil.needsInit = false →
      ∀ idx, idx < wid → fil.value idx = net.fil.value idx)
    (hMasked :
      ∀ idx, idx < wid → fil.testForceMask idx = true → fil.value idx = net.fil.value idx) :
    ∃ net',
      VvpNet.sendVec4Pv { net with fil := fil } bit base wid = some net' ∧
      net'.fil.forceMask = fil.forceMask ∧
      InStep wid init (overwrite driven base bit) net' := by
  rcases filterVec4_spec hFits hRange with ⟨fil', rc, hFilter, hTaken⟩
  refine ⟨⟨fil', net.out ++
    ((propagate bit rc).map (PartUpdate.part base)).toList⟩,
    ?_, hTaken.forceMask, ?_⟩
  · simp only [VvpNet.sendVec4Pv, hFilter]
    rfl
  · apply h.taken hFits hBits _ hOutside hSame hMasked hTaken
    intro view rep _ hRep
    refine ⟨?_, rfl⟩
    rw [PartUpdate.Fits, hRep]
    exact hRange

/- A force sends the whole value. -/
theorem InStep.forceVec4 {driven val : List VvpBit4} {mask : List Bool}
    (h : InStep wid init driven net) (hVal : val.length = wid) (hMask : mask.length = wid) (hRest :
      ∀ idx, idx < wid → mask.getD idx false = false → bitValue val idx = net.fil.value idx) :
    ∃ net',
      net.forceVec4 val mask = some net' ∧
      InStep wid init driven net' := by
  rcases forceFilVec4_spec h.fits hVal hMask with ⟨fil, hForce, hFits, hBits, hValue⟩
  refine ⟨⟨fil, net.out ++ [PartUpdate.full val]⟩, ?_, hFits, ?_, ?_, ?_⟩
  · simp only [VvpNet.forceVec4, hForce]
    rfl
  · rw [hBits, h.bits4]
  · intro u hu
    rcases List.mem_append.mp hu with hu | hu
    · exact h.out u hu
    · rw [List.mem_singleton.mp hu]
      exact hVal
  · intro idx hIdx
    rw [hValue idx hIdx, mergeAll_append]
    by_cases hNew : mask.getD idx false = true
    · rw [if_pos hNew]
      rfl
    · rw [if_neg hNew]
      exact hRest idx hIdx (by simpa using hNew)

----
-- Releasing
----

/- A released wire that compares equal has its old value. -/
theorem value_of_released {w w' : VvpWireVec4} {idx : Nat} {mask : List Bool}
    (hBits : w'.bits4 = w.bits4) (hForce : w'.force4 = w.force4)
    (hTest : w'.testForceMask idx = (w.testForceMask idx && !mask.getD idx false))
    (hSame : mask.getD idx false = true → bitValue w.force4 idx = bitValue w.bits4 idx) :
    w'.value idx = w.value idx := by
  unfold value
  rw [hTest, hBits, hForce]
  by_cases hNew : mask.getD idx false = true
  · rw [hSame hNew]
    simp
  · rw [Bool.not_eq_true] at hNew
    rw [hNew]
    simp

theorem subvalue_length (bits : List VvpBit4) (adr wid : Nat) :
    (subvalue bits adr wid).length = wid := by
  simp [subvalue]

theorem bitValue_subvalue {bits : List VvpBit4} {adr wid idx : Nat} (hIdx : idx < wid) :
    bitValue (subvalue bits adr wid) idx = bitValue bits (adr + idx) := by
  have hLength : idx < (subvalue bits adr wid).length := by rwa [subvalue_length]
  rw [bitValue, getD_eq_getElem _ _ hLength]
  simp [subvalue]

/- Writing a part of a vector back. -/
theorem overwrite_subvalue {bits : List VvpBit4} {base len : Nat} :
    overwrite bits base (subvalue bits base len) = bits := by
  apply eq_of_getD .x (overwrite_length _ _ _)
  intro idx hIdx
  rw [overwrite_length] at hIdx
  rw [overwrite_getD _ hIdx, subvalue_length]
  by_cases hNear : base ≤ idx ∧ idx < base + len
  · rw [if_pos hNear]
    have hBit :
        bitValue (subvalue bits base len) (idx - base) = bitValue bits (base + (idx - base)) :=
      bitValue_subvalue (by omega)
    rw [Nat.add_sub_cancel' hNear.1] at hBit
    exact hBit
  · rw [if_neg hNear]

/- The mask of a range. -/
theorem rangeMask_getD {wid base len idx : Nat} (hIdx : idx < wid) :
    (overwrite (replicate wid false) base (replicate len true)).getD idx false =
      decide (base ≤ idx ∧ idx < base + len) := by
  rw [overwrite_getD _ (by simpa using hIdx), length_replicate]
  by_cases hNear : base ≤ idx ∧ idx < base + len
  · rw [getD_eq_getElem _ _ (by simp; omega)]
    simp [hNear]
  · grind

theorem InStep.release (h : InStep wid init driven net) :
    ∃ net',
      net.release = some net' ∧
      (∀ idx, idx < wid → net'.fil.testForceMask idx = false) ∧
      InStep wid init driven net' := by
  have hMaskLength :
      (replicate net.fil.bits4.length true).length = wid := by
    rw [length_replicate, h.fits.bits4]
  rcases releaseMask_spec h.fits hMaskLength with ⟨fil, hRelease, hFits, hBits, hForce, hTest⟩
  have hFree :
      ∀ idx, idx < wid → fil.testForceMask idx = false := by grind
  have hSend := h.sendVec4
    { fil with needsInit := decide (fil.force4 ≠ fil.bits4) }
    fil.bits4 ⟨hFits.bits4, hFits.force4, hFits.forceMask⟩
    hBits hFits.bits4 ?_ ?_
  · rcases hSend with ⟨net', hSend, hMask', hStep⟩
    refine ⟨net', ?_, ?_, ?_⟩
    · simp only [VvpNet.release, hRelease]
      exact hSend
    · intro idx hIdx
      unfold testForceMask
      rw [hMask']
      exact hFree idx hIdx
    · rw [hBits, h.bits4] at hStep
      exact hStep
  · intro _ hEqual idx hIdx
    have hEq : fil.force4 = fil.bits4 := by simpa using hEqual
    apply value_of_released hBits hForce (hTest idx)
    intro _
    rw [← hForce, ← hBits, hEq]
  · intro idx hIdx hMasked
    exfalso
    have hMasked' : fil.testForceMask idx = true := hMasked
    rw [hFree idx hIdx] at hMasked'
    cases hMasked'

theorem InStep.releasePv {wid base len : Nat} (h : InStep wid init driven net)
    (hRange : base + len ≤ wid) :
    ∃ net',
      net.releasePv base len = some net' ∧
      (∀ idx, base ≤ idx → idx < base + len → net'.fil.testForceMask idx = false) ∧
      InStep wid init driven net' := by
  have hWid := h.fits.bits4
  have hMaskLength :
      (overwrite (replicate net.fil.bits4.length false) base
        (replicate len true)).length = wid := by
    rw [overwrite_length, length_replicate, hWid]
  rcases releaseMask_spec h.fits hMaskLength with ⟨fil, hRelease, hFits, hBits, hForce, hTest⟩
  have hMask :
      ∀ idx, idx < wid →
        (overwrite (replicate net.fil.bits4.length false)
            base (replicate len true)).getD idx false =
          decide (base ≤ idx ∧ idx < base + len) := by
    intro idx hIdx
    exact rangeMask_getD (by omega)
  have hFree :
      ∀ idx, base ≤ idx → idx < base + len →
        fil.testForceMask idx = false := by grind
  have hSend := h.sendVec4Pv
    { fil with needsInit := decide (subvalue fil.force4 base len ≠ subvalue fil.bits4 base len) }
    (subvalue fil.bits4 base len) base
    ⟨hFits.bits4, hFits.force4, hFits.forceMask⟩ hBits
    (by rw [subvalue_length]; exact hRange) ?_ ?_ ?_
  · rcases hSend with ⟨net', hSend, hMask', hStep⟩
    refine ⟨net', ?_, ?_, ?_⟩
    · simp only [VvpNet.releasePv]
      grind
    · intro idx hLow hHigh
      unfold testForceMask
      rw [hMask']
      exact hFree idx hLow hHigh
    · rw [hBits, h.bits4, overwrite_subvalue] at hStep
      exact hStep
  · intro idx hIdx hFar
    rw [subvalue_length] at hFar
    apply value_of_released hBits hForce (hTest idx)
    grind
  · intro _ hEqual idx hIdx
    have hEq :
        subvalue fil.force4 base len = subvalue fil.bits4 base len := by
      simpa using hEqual
    apply value_of_released hBits hForce (hTest idx)
    intro hNear
    rw [hMask idx hIdx] at hNear
    have hNear := of_decide_eq_true hNear
    have hBit :
        bitValue (subvalue fil.force4 base len) (idx - base) =
          bitValue (subvalue fil.bits4 base len) (idx - base) := by
      rw [hEq]
    rw [bitValue_subvalue (by omega), bitValue_subvalue (by omega),
      Nat.add_sub_cancel' hNear.1, hForce, hBits] at hBit
    exact hBit
  · intro idx hIdx hMasked
    apply value_of_released hBits hForce (hTest idx)
    intro hNear
    exfalso
    have hMasked' : fil.testForceMask idx = true := hMasked
    rw [hTest idx, hNear, Bool.not_true, Bool.and_false] at hMasked'
    cases hMasked'

----
-- Runs
----

/- Every operation that is allowed runs and stays in step. -/
theorem InStep.step {wid : Nat} {init : VvpBit4} {driven : List VvpBit4}
    {net : VvpNet} {op : WireOp} (h : InStep wid init driven net) (hAllowed : op.Allowed net.fil) :
    ∃ net',
      net.step op = some net' ∧
      InStep wid init (op.driven driven) net' := by
  have hWid := h.fits.bits4
  cases op with
  | drive bit =>
    have hSend := h.sendVec4 net.fil bit h.fits rfl
      (hAllowed.trans hWid) (fun _ _ _ _ => rfl)
      (fun _ _ _ => rfl)
    rcases hSend with ⟨net', hSend, _, hNext⟩
    exact ⟨net', hSend, hNext⟩
  | drivePv bit base =>
    have hSend := h.sendVec4Pv net.fil bit base h.fits rfl
      (by rw [← hWid]; exact hAllowed) (fun _ _ _ => rfl)
      (fun _ _ _ _ => rfl) (fun _ _ _ => rfl)
    rcases hSend with ⟨net', hSend, _, hNext⟩
    unfold VvpNet.step
    rw [hWid]
    exact ⟨net', hSend, hNext⟩
  | force val mask =>
    rcases hAllowed with ⟨hVal, hMask, hRest⟩
    apply h.forceVec4 (hVal.trans hWid) (hMask.trans hWid)
    intro idx hIdx hFree
    rw [hRest idx (by omega) hFree]
    exact bitValue_vec4Value (by omega)
  | release =>
    rcases h.release with ⟨net', hRelease, _, hNext⟩
    exact ⟨net', hRelease, hNext⟩
  | releasePv base len =>
    have hRange : base + len ≤ wid := by
      rw [← hWid]
      exact hAllowed
    rcases h.releasePv hRange with ⟨net', hRelease, _, hNext⟩
    exact ⟨net', hRelease, hNext⟩

/- The observers have the whole value. -/
theorem InStep.merged (h : InStep wid init driven net) :
    mergeAll (replicate wid init) net.out = net.fil.vec4Value := by
  have hView := h.view_length
  apply eq_of_getD .x
  · rw [hView, vec4Value_length, h.fits.bits4]
  · intro idx hIdx
    rw [hView] at hIdx
    rw [← bitValue, h.seen idx hIdx]
    exact (bitValue_vec4Value (by rw [h.fits.bits4]; exact hIdx)).symm

/- A bit is the force's or the driven one. -/
theorem InStep.value {wid idx : Nat} (h : InStep wid init driven net) (hIdx : idx < wid) :
    bitValue net.fil.vec4Value idx =
      if net.fil.testForceMask idx then
        bitValue net.fil.force4 idx
      else bitValue driven idx := by
  rw [bitValue_vec4Value (by rw [h.fits.bits4]; exact hIdx), ← h.bits4]
  rfl

theorem inStep_of_run {ops : List WireOp} (hRun : WireRun wid init ops net) :
    InStep wid init (lastDriven wid init ops) net := by
  induction hRun with
  | start => exact inStep_create wid init
  | step hRun hAllowed hStep ih =>
    rcases ih.step hAllowed with ⟨net'', hStep', hNext⟩
    rw [hStep] at hStep'
    cases hStep'
    rw [lastDriven, List.foldl_append]
    exact hNext

end VvpNet

/-
  In every run of a wire: the fan-out, merging what it was
  sent over the first value of the net, has the value of the
  net, and so has anyone else on every bit that was ever
  sent; a bit of the value is the force's or the last one
  driven; and the next operation runs, a release showing the
  driven bits again.
-/
theorem observers_in_step {wid : Nat} {init : VvpBit4} {ops : List WireOp} {net : VvpNet}
    (hRun : WireRun wid init ops net) :
    mergeAll (replicate wid init) net.out = net.fil.vec4Value ∧
    (∀ view : List VvpBit4, view.length = wid →
      ∀ idx, idx < wid →
        (∃ u, u ∈ net.out ∧ u.Covers idx) →
        bitValue (mergeAll view net.out) idx = bitValue net.fil.vec4Value idx) ∧
    (∀ idx, idx < wid →
      bitValue net.fil.vec4Value idx =
        if net.fil.testForceMask idx then
          bitValue net.fil.force4 idx
        else bitValue (lastDriven wid init ops) idx) ∧
    (∀ op : WireOp, op.Allowed net.fil → ∃ net', net.step op = some net') ∧
    (∀ net', net.step .release = some net' → net'.fil.vec4Value = lastDriven wid init ops) ∧
    ∀ base len net', base + len ≤ wid →
      net.step (.releasePv base len) = some net' →
      ∀ idx, base ≤ idx → idx < base + len →
        bitValue net'.fil.vec4Value idx = bitValue (lastDriven wid init ops) idx := by
  have h := VvpNet.inStep_of_run hRun
  refine ⟨h.merged, ?_, fun idx hIdx => h.value hIdx, ?_, ?_, ?_⟩
  · intro view hView idx hIdx hCovered
    have hFirst : (replicate wid init).length = wid := length_replicate
    rw [← h.merged]
    exact mergeAll_covered .x hView hFirst h.out hIdx (Or.inl hCovered)
  · intro op hAllowed
    rcases h.step hAllowed with ⟨net', hStep, _⟩
    exact ⟨net', hStep⟩
  · intro net' hStep
    rcases h.release with ⟨net'', hRelease, hFree, hNext⟩
    rw [VvpNet.step, hRelease] at hStep
    cases hStep
    have hWid := hNext.fits.bits4
    apply eq_of_getD .x
    · rw [VvpWireVec4.vec4Value_length, hNext.bits4]
    · intro idx hIdx
      rw [VvpWireVec4.vec4Value_length, hWid] at hIdx
      rw [← bitValue, hNext.value hIdx, hFree idx hIdx]
      rfl
  · intro base len net' hRange hStep idx hLow hHigh
    rcases h.releasePv hRange with ⟨net'', hRelease, hFree, hNext⟩
    rw [VvpNet.step, hRelease] at hStep
    cases hStep
    rw [hNext.value (by omega), hFree idx hLow hHigh]
    rfl

/-
  A part is driven, a bit is forced, another value is driven,
  and the force is released.
-/
theorem observers_in_step_release :
    mergeAll [.z, .z] [.part 0 [.one], .full [.zero, .z], .full [.zero, .one], .part 0 [.one]] =
      ([.one, .one] : List VvpBit4) := by
  have hDrive :
      WireRun 2 .z [.drivePv [.one] 0] ⟨⟨[.one, .z], false, [], [], false⟩, [.part 0 [.one]]⟩ :=
    @WireRun.step _ _ [] _ _ _ WireRun.start (by decide) (by decide)
  have hForce :
      WireRun 2 .z
        [.drivePv [.one] 0, .force [.zero, .z] [true, false]]
        ⟨⟨[.one, .z], false, [.zero, .z], [true, false], true⟩,
          [.part 0 [.one], .full [.zero, .z]]⟩ :=
    @WireRun.step _ _ [_] _ _ _ hDrive (by decide) (by decide)
  have hOther :
      WireRun 2 .z
        [.drivePv [.one] 0, .force [.zero, .z] [true, false], .drive [.one, .one]]
        ⟨⟨[.one, .one], false, [.zero, .z], [true, false], false⟩,
          [.part 0 [.one], .full [.zero, .z], .full [.zero, .one]]⟩ :=
    @WireRun.step _ _ [_, _] _ _ _ hForce (by decide) (by decide)
  have hRelease :
      WireRun 2 .z
        [.drivePv [.one] 0, .force [.zero, .z] [true, false], .drive [.one, .one], .releasePv 0 1]
        ⟨⟨[.one, .one], false, [.zero, .z], [], false⟩,
          [.part 0 [.one], .full [.zero, .z], .full [.zero, .one], .part 0 [.one]]⟩ :=
    @WireRun.step _ _ [_, _, _] _ _ _ hOther (by decide) (by decide)
  exact (observers_in_step hRelease).1

end EpicSim
