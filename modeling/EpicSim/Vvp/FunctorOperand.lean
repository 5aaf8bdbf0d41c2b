import EpicSim.Vvp.WireInStep

/-
  What a functor on the fan-out of a wire makes of parts.

  A functor that has no use for parts takes the bits outside of
  a part for undriven.  It has the value of the wire exactly as
  long as that is so.
-/

namespace EpicSim

open List (replicate length_replicate append_nil)
open PartUpdate

----
-- Operands
----

/- `vvp_net_fun_t::recv_vec4_pv_`: the vector that it gives to
   `recv_vec4`. -/
def recvVec4Pv (bit : List VvpBit4) (base wid vwid : Nat) : Option (List VvpBit4) :=
  if bit.length = wid ∧ base + wid ≤ vwid then
    some (overwrite (replicate vwid .z) base bit)
  else none

/- What `recv_vec4` gets of what is sent to the fan-out. -/
def received (vwid : Nat) : PartUpdate VvpBit4 → Option (List VvpBit4)
| full bits => some bits
| part base bits => recvVec4Pv bits base bits.length vwid

/- The last operand that a functor got. -/
def operand (vwid : Nat) (out : List (PartUpdate VvpBit4)) : Option (List VvpBit4) :=
  out.getLast?.bind (received vwid)

/- A part and undriven bits are the value they make if it is
   undriven outside of the part. -/
theorem recvVec4Pv_eq_iff {wid base : Nat} {view rep : List VvpBit4} (hView : view.length = wid)
    (hRange : base + rep.length ≤ wid) :
    recvVec4Pv rep base rep.length wid = some (overwrite view base rep) ↔
      ∀ idx, idx < wid → idx < base ∨ base + rep.length ≤ idx →
        bitValue view idx = .z := by
  unfold recvVec4Pv
  rw [if_pos ⟨rfl, hRange⟩, Option.some.injEq]
  have hZ : ∀ idx, idx < wid →
      (replicate wid VvpBit4.z).getD idx .x = .z := by grind
  constructor
  · intro hSame idx hIdx hFar
    have hBit :
        (overwrite (replicate wid .z) base rep).getD idx .x =
          (overwrite view base rep).getD idx .x := by
      rw [hSame]
    rw [overwrite_getD _ (by simpa using hIdx), overwrite_getD _ (by omega),
      if_neg (by omega), if_neg (by omega), hZ idx hIdx] at hBit
    exact hBit.symm
  · intro hUndriven
    apply eq_of_getD .x
    · rw [overwrite_length, overwrite_length, hView, length_replicate]
    · intro idx hIdx
      rw [overwrite_length, length_replicate] at hIdx
      rw [overwrite_getD _ (by simpa using hIdx), overwrite_getD _ (by omega)]
      by_cases hNear : base ≤ idx ∧ idx < base + rep.length
      · rw [if_pos hNear, if_pos hNear]
      · rw [if_neg hNear, if_neg hNear, hZ idx hIdx]
        exact (hUndriven idx hIdx (by omega)).symm

----
-- Parts
----

/- A part of the driven value is new, and a force lets some of
   it through. -/
def VvpWireVec4.SendsAt (w : VvpWireVec4) (bit : List VvpBit4) (base : Nat) : Prop :=
  ¬ (w.bits4 = overwrite w.bits4 base bit ∧ w.needsInit = false) ∧
    (w.testForceMaskIsZero = true ∨ w.forcePropagate = true ∨
      ∃ idx, idx < bit.length ∧ w.testForceMask (base + idx) = false)

namespace WireOp

/- The operation is about a part of the wire, and some of it
   goes to the fan-out. -/
def SendsPart (fil : VvpWireVec4) : WireOp → Prop
| .drivePv bit base => fil.SendsAt bit base
| .releasePv base wid => subvalue fil.force4 base wid ≠ subvalue fil.bits4 base wid
| _ => False

/- The bits that the operation is not about. -/
def Outside (idx : Nat) : WireOp → Prop
| .drivePv bit base => idx < base ∨ base + bit.length ≤ idx
| .releasePv base wid => idx < base ∨ base + wid ≤ idx
| _ => False

/- Where a part is sent, the value of the wire is undriven
   outside of it. -/
def Undriven (fil : VvpWireVec4) (op : WireOp) : Prop :=
  op.SendsPart fil → ∀ idx, idx < fil.bits4.length →
    op.Outside idx → bitValue fil.vec4Value idx = .z

/- A part that is released has a bit. -/
def Nonempty : WireOp → Prop
| .releasePv _ wid => 0 < wid
| _ => True

end WireOp

----
-- What is Sent
----

namespace VvpWireVec4

/- A force lets something through. -/
theorem filterMask_sends_iff {w w' : VvpWireVec4} {val : List VvpBit4} {base : Nat} {rc : PropT}
    (h : w.filterMask val base = some (w', rc)) :
    VvpNet.propagate val rc ≠ none ↔
      w.testForceMaskIsZero = true ∨ w.forcePropagate = true ∨
        ∃ idx, idx < val.length ∧
          w.testForceMask (base + idx) = false := by
  unfold filterMask at h
  by_cases hZero : w.testForceMaskIsZero = true
  · rw [if_pos hZero] at h
    cases h
    constructor
    · exact fun _ => Or.inl hZero
    · exact fun _ => nofun
  · rw [if_neg hZero] at h
    by_cases hSizes : w.forceMask.length = w.force4.length ∧ base + val.length ≤ w.forceMask.length
    · rw [if_pos hSizes] at h
      cases h
      by_cases hFlag : (w.forcePropagate ||
          (List.range val.length).any fun idx => !w.testForceMask (base + idx)) = true
      · rw [if_pos hFlag]
        constructor
        · grind
        · exact fun _ => nofun
      · rw [if_neg hFlag]
        constructor
        · intro hNone
          exact absurd rfl hNone
        · rw [Bool.or_eq_true, not_or] at hFlag
          grind
    · rw [if_neg hSizes] at h
      cases h

/- A value goes through that is new to the wire. -/
theorem filterVec4_sends_iff {wid base : Nat} {w w' : VvpWireVec4} {bit : List VvpBit4}
    {rc : PropT} (hFits : w.Fits wid) (hRange : base + bit.length ≤ wid)
    (h : w.filterVec4 bit base wid = some (w', rc)) :
    VvpNet.propagate bit rc ≠ none ↔ w.SendsAt bit base := by
  rw [filterVec4_eq_drive hFits hRange] at h
  unfold drive at h
  unfold SendsAt
  by_cases hSame : w.bits4 = overwrite w.bits4 base bit ∧ w.needsInit = false
  · rw [if_pos hSame] at h
    cases h
    constructor
    · intro hNone
      exact absurd rfl hNone
    · intro hNew
      exact absurd hSame hNew.1
  · rw [if_neg hSame] at h
    rw [and_iff_right hSame]
    exact filterMask_sends_iff
      (w := { w with bits4 := overwrite w.bits4 base bit, needsInit := false }) h

end VvpWireVec4

namespace VvpNet

open VvpWireVec4

variable {wid : Nat} {net net' : VvpNet} {op : WireOp}
  {init : VvpBit4} {ops : List WireOp}

/- A full value goes on as a full value. -/
theorem sendVec4_out {val : List VvpBit4} (hFits : net.fil.Fits wid) (hVal : val.length = wid)
    (h : net.sendVec4 val = some net') :
    (net.fil.SendsAt val 0 ∧ ∃ v, net'.out = net.out ++ [full v]) ∨
    (¬ net.fil.SendsAt val 0 ∧ net'.out = net.out) := by
  have hRange : 0 + val.length ≤ wid := by omega
  rcases filterVec4_spec hFits hRange with ⟨fil, rc, hFilter, _⟩
  have hSends := filterVec4_sends_iff hFits hRange hFilter
  unfold sendVec4 at h
  rw [hVal, hFilter] at h
  cases h
  cases hRep : propagate val rc with
  | none => grind
  | some rep => grind

/- A part goes on as a part. -/
theorem sendVec4Pv_out {wid base : Nat} {val : List VvpBit4}
    (hFits : net.fil.Fits wid) (hRange : base + val.length ≤ wid)
    (h : net.sendVec4Pv val base wid = some net') :
    (net.fil.SendsAt val base ∧ ∃ rep, rep.length = val.length ∧
      net'.out = net.out ++ [part base rep]) ∨
    (¬ net.fil.SendsAt val base ∧ net'.out = net.out) := by
  rcases filterVec4_spec hFits hRange with ⟨fil, rc, hFilter, hTaken⟩
  have hSends := filterVec4_sends_iff hFits hRange hFilter
  unfold sendVec4Pv at h
  rw [hFilter] at h
  cases h
  cases hRep : propagate val rc with
  | none => grind
  | some rep =>
    left
    refine ⟨hSends.mp (by rw [hRep]; nofun), rep, ?_, rfl⟩
    exact (hTaken.shown rep hRep).1

/- What a release sends. -/
theorem release_out (hFits : net.fil.Fits wid) (h : net.release = some net') :
    (net.fil.force4 ≠ net.fil.bits4 ∧ ∃ v, net'.out = net.out ++ [full v]) ∨
    (¬ net.fil.force4 ≠ net.fil.bits4 ∧ net'.out = net.out) := by
  have hMaskLength :
      (replicate net.fil.bits4.length true).length = wid := by
    rw [length_replicate, hFits.bits4]
  rcases releaseMask_spec hFits hMaskLength with ⟨fil, hRelease, hFits', hBits, hForce, hTest⟩
  have hSend : sendVec4
      { net with fil := { fil with needsInit := decide (fil.force4 ≠ fil.bits4) } }
      fil.bits4 = some net' := by
    rw [← h]
    simp only [VvpNet.release]
    rw [hRelease]
    rfl
  have hOut := sendVec4_out ⟨hFits'.bits4, hFits'.force4, hFits'.forceMask⟩ hFits'.bits4 hSend
  have hAt : VvpWireVec4.SendsAt
      { fil with needsInit := decide (fil.force4 ≠ fil.bits4) }
      fil.bits4 0 ↔ net.fil.force4 ≠ net.fil.bits4 := by
    unfold VvpWireVec4.SendsAt
    rw [overwrite_all rfl, ← hForce, ← hBits]
    constructor
    · grind
    · intro hNe
      have hLen : 0 < fil.bits4.length := by
        apply Nat.pos_of_ne_zero
        intro hNone
        apply hNe
        have hForce4 := hFits'.force4
        rw [← hFits'.bits4, hNone, or_self] at hForce4
        rw [List.length_eq_zero_iff.mp hNone, List.length_eq_zero_iff.mp hForce4]
      refine ⟨fun hOld => of_decide_eq_false hOld.2 hNe, Or.inr (Or.inr ⟨0, hLen, ?_⟩)⟩
      have hFree := hTest (0 + 0)
      rw [List.getD_eq_getElem _ _ (by
          rw [length_replicate, ← hBits]
          exact hLen), List.getElem_replicate,
        Bool.not_true, Bool.and_false] at hFree
      exact hFree
  rw [hAt] at hOut
  exact hOut

/- What a release of a part sends. -/
theorem releasePv_out {wid base len : Nat} (hFits : net.fil.Fits wid) (hRange : base + len ≤ wid)
    (h : net.releasePv base len = some net') :
    (subvalue net.fil.force4 base len ≠ subvalue net.fil.bits4 base len ∧
      ∃ rep, rep.length = len ∧ net'.out = net.out ++ [part base rep]) ∨
    (¬ subvalue net.fil.force4 base len ≠
        subvalue net.fil.bits4 base len ∧ net'.out = net.out) := by
  have hWid := hFits.bits4
  have hMaskLength :
      (overwrite (replicate net.fil.bits4.length false) base
        (replicate len true)).length = wid := by
    rw [overwrite_length, length_replicate, hWid]
  rcases releaseMask_spec hFits hMaskLength with ⟨fil, hRelease, hFits', hBits, hForce, hTest⟩
  have hSend : sendVec4Pv
      { net with
        fil := { fil with
          needsInit := decide (subvalue fil.force4 base len ≠ subvalue fil.bits4 base len) } }
      (subvalue fil.bits4 base len) base wid = some net' := by
    rw [← h]
    simp only [VvpNet.releasePv]
    rw [if_pos (by omega), hRelease, ← hFits'.bits4]
    rfl
  have hOut := sendVec4Pv_out
    ⟨hFits'.bits4, hFits'.force4, hFits'.forceMask⟩
    (by rw [subvalue_length]; exact hRange) hSend
  have hAt : VvpWireVec4.SendsAt
      { fil with needsInit := decide (subvalue fil.force4 base len ≠ subvalue fil.bits4 base len) }
      (subvalue fil.bits4 base len) base ↔
      subvalue net.fil.force4 base len ≠ subvalue net.fil.bits4 base len := by
    unfold VvpWireVec4.SendsAt
    rw [overwrite_subvalue, subvalue_length, ← hForce, ← hBits]
    constructor
    · grind
    · intro hNe
      have hLen : 0 < len := by
        apply Nat.pos_of_ne_zero
        rintro rfl
        exact hNe rfl
      refine ⟨fun hOld => of_decide_eq_false hOld.2 hNe, Or.inr (Or.inr ⟨0, hLen, ?_⟩)⟩
      have hMask :
          (overwrite (replicate wid false) base
            (replicate len true)).getD base false =
            decide (base ≤ base ∧ base < base + len) :=
        rangeMask_getD (by omega)
      have hFree := hTest (base + 0)
      rw [Nat.add_zero, hWid, hMask, decide_eq_true ⟨Nat.le_refl base, by omega⟩,
        Bool.not_true, Bool.and_false] at hFree
      exact hFree
  rw [hAt, subvalue_length] at hOut
  exact hOut

/- What goes to the fan-out in an operation. -/
theorem step_out (hFits : net.fil.Fits wid) (hAllowed : op.Allowed net.fil)
    (hStep : net.step op = some net') :
    (op.SendsPart net.fil ∧ ∃ base rep,
      net'.out = net.out ++ [part base rep] ∧
      base + rep.length ≤ wid ∧
      ∀ idx, op.Outside idx ↔ idx < base ∨ base + rep.length ≤ idx) ∨
    (¬ op.SendsPart net.fil ∧ (net'.out = net.out ∨
      ∃ v, net'.out = net.out ++ [full v])) := by
  have hWid := hFits.bits4
  cases op with
  | drive bit =>
    rcases sendVec4_out hFits (hAllowed.trans hWid) hStep with ⟨_, hOut⟩ | ⟨_, hOut⟩
    · exact Or.inr ⟨id, Or.inr hOut⟩
    · exact Or.inr ⟨id, Or.inl hOut⟩
  | drivePv bit base =>
    have hRange : base + bit.length ≤ wid := by
      rw [← hWid]
      exact hAllowed
    rw [VvpNet.step, hWid] at hStep
    rcases sendVec4Pv_out hFits hRange hStep with ⟨hAt, rep, hRep, hOut⟩ | ⟨hAt, hOut⟩
    · refine Or.inl ⟨hAt, base, rep, hOut, by omega, ?_⟩
      intro idx
      rw [hRep]
      exact Iff.rfl
    · exact Or.inr ⟨hAt, Or.inl hOut⟩
  | force val mask =>
    rw [VvpNet.step, VvpNet.forceVec4] at hStep
    cases hForce : net.fil.forceFilVec4 val mask with
    | none =>
      rw [hForce] at hStep
      cases hStep
    | some fil =>
      rw [hForce] at hStep
      cases hStep
      exact Or.inr ⟨id, Or.inr ⟨val, rfl⟩⟩
  | release =>
    rcases release_out hFits hStep with ⟨_, hOut⟩ | ⟨_, hOut⟩
    · exact Or.inr ⟨id, Or.inr hOut⟩
    · exact Or.inr ⟨id, Or.inl hOut⟩
  | releasePv base len =>
    have hRange : base + len ≤ wid := by
      rw [← hWid]
      exact hAllowed
    rcases releasePv_out hFits hRange hStep with ⟨hNe, rep, hRep, hOut⟩ | ⟨hSame, hOut⟩
    · refine Or.inl ⟨hNe, base, rep, hOut, by omega, ?_⟩
      intro idx
      rw [hRep]
      exact Iff.rfl
    · exact Or.inr ⟨hSame, Or.inl hOut⟩

----
-- Steps
----

theorem operand_concat (wid : Nat) (out : List (PartUpdate VvpBit4)) (u : PartUpdate VvpBit4) :
    operand wid (out ++ [u]) = received wid u := by
  unfold operand
  rw [List.getLast?_append]
  rfl

/- A functor that has the value of the wire has it after the
   next operation if and only if a part that is sent is all of
   it. -/
theorem InStep.operand_step {driven driven' : List VvpBit4} (h : InStep wid init driven net)
    (hNext : InStep wid init driven' net') (hAllowed : op.Allowed net.fil)
    (hStep : net.step op = some net')
    (hSeen : operand wid net.out = some net.fil.vec4Value ∨ net'.out ≠ net.out) :
    operand wid net'.out = some net'.fil.vec4Value ↔
      op.Undriven net.fil := by
  have hWid := h.fits.bits4
  have hOld := h.merged
  have hNew := hNext.merged
  rcases step_out h.fits hAllowed hStep with
    ⟨hSends, base, rep, hOut, hRange, hOutside⟩ | ⟨hNot, hOut⟩
  · rw [hOut, operand_concat]
    rw [hOut, mergeAll_append, hOld] at hNew
    rw [← hNew]
    have hLength : net.fil.vec4Value.length = wid := by rw [vec4Value_length, hWid]
    change recvVec4Pv rep base rep.length wid = some (overwrite net.fil.vec4Value base rep) ↔ _
    rw [recvVec4Pv_eq_iff hLength hRange]
    constructor
    · intro hZ _ idx hIdx hFar
      exact hZ idx (by omega) ((hOutside idx).mp hFar)
    · intro hZ idx hIdx hFar
      exact hZ hSends idx (by omega) ((hOutside idx).mpr hFar)
  · constructor
    · intro _ hSends
      exact absurd hSends hNot
    · intro _
      rcases hOut with hOut | ⟨v, hOut⟩
      · grind
      · rw [hOut, mergeAll_append] at hNew
        rw [hOut, operand_concat, ← hNew]
        rfl

/- The first operation on a new wire sends something. -/
theorem create_sends (hWid : 0 < wid) (hInit : init ≠ .x) (hNonempty : op.Nonempty)
    (hAllowed : op.Allowed (create wid init))
    (hStep : VvpNet.step ⟨create wid init, []⟩ op = some net) : net.out ≠ [] := by
  have hFits := fits_create wid init
  have hAt : ∀ bit base, (create wid init).SendsAt bit base :=
    fun bit base => ⟨(fun hOld => absurd hOld.2 Bool.false_ne_true.symm), Or.inl rfl⟩
  cases op with
  | drive bit =>
    have hVal : bit.length = wid := hAllowed.trans hFits.bits4
    rcases sendVec4_out hFits hVal hStep with ⟨_, v, hOut⟩ | ⟨hNot, _⟩
    · grind
    · exact absurd (hAt bit 0) hNot
  | drivePv bit base =>
    rw [VvpNet.step, hFits.bits4] at hStep
    have hRange : base + bit.length ≤ wid := by
      rw [← hFits.bits4]
      exact hAllowed
    rcases sendVec4Pv_out hFits hRange hStep with ⟨_, rep, _, hOut⟩ | ⟨hNot, _⟩
    · grind
    · exact absurd (hAt bit base) hNot
  | force val mask =>
    rw [VvpNet.step, VvpNet.forceVec4] at hStep
    cases hForce : (create wid init).forceFilVec4 val mask with
    | none =>
      rw [hForce] at hStep
      cases hStep
    | some fil => grind
  | release =>
    rcases release_out hFits hStep with ⟨_, v, hOut⟩ | ⟨hSame, _⟩
    · grind
    · exfalso
      apply hSame
      intro hEq
      have hLength : 0 = wid := by
        rw [← hFits.bits4]
        exact congrArg List.length hEq
      omega
  | releasePv base len =>
    have hRange : base + len ≤ wid := by
      rw [← hFits.bits4]
      exact hAllowed
    have hLen : 0 < len := hNonempty
    rcases releasePv_out hFits hRange hStep with ⟨_, rep, _, hOut⟩ | ⟨hSame, _⟩
    · grind
    · exfalso
      apply hSame
      intro hEq
      have hBit : bitValue (subvalue [] base len) 0 =
          bitValue (subvalue (replicate wid init) base len) 0 :=
        congrArg (fun bits => bitValue bits 0) hEq
      rw [bitValue_subvalue hLen, bitValue_subvalue hLen] at hBit
      unfold bitValue at hBit
      grind

----
-- Runs
----

/- A run of the last operation comes after a run of the others. -/
theorem run_concat (hRun : WireRun wid init (ops ++ [op]) net') :
    ∃ net, WireRun wid init ops net ∧ op.Allowed net.fil ∧
      net.step op = some net' := by
  generalize hOps : ops ++ [op] = all at hRun
  cases hRun with
  | start => exact absurd hOps (by simp)
  | step hBefore hAllowed hStep =>
    rcases List.append_inj' hOps rfl with ⟨hSame, hLast⟩
    grind

/- There is one run of given operations. -/
theorem run_unique (h : WireRun wid init ops net) (h' : WireRun wid init ops net') :
    net' = net := by
  induction h generalizing net' with
  | start =>
    generalize hOps : [] = all at h'
    cases h' with
    | start => rfl
    | step _ _ _ => exact absurd hOps (by simp)
  | step hRun hAllowed hStep ih =>
    rcases run_concat h' with ⟨net₀, hRun', _, hStep'⟩
    rw [ih hRun', hStep, Option.some.injEq] at hStep'
    exact hStep'.symm

/- A run has a run of its first operations. -/
theorem run_prefix {before ops : List WireOp} (hRun : WireRun wid init ops net)
    (hPrefix : before <+: ops) : ∃ net₀, WireRun wid init before net₀ := by
  rcases hPrefix with ⟨after, hOps⟩
  rw [← hOps] at hRun
  induction after using List.reverseRecOn generalizing net ops with
  | nil =>
    rw [append_nil] at hRun
    exact ⟨net, hRun⟩
  | append_singleton after op ih =>
    rw [← List.append_assoc] at hRun
    rcases run_concat hRun with ⟨net₁, hRun₁, _, _⟩
    exact ih hRun₁ rfl

/- Something was sent in a run with an operation. -/
theorem run_sends (hWid : 0 < wid) (hInit : init ≠ .x) (hNonempty : ∀ op ∈ ops, op.Nonempty)
    (hRun : WireRun wid init ops net) (hOps : ops ≠ []) : net.out ≠ [] := by
  induction hRun with
  | start => exact absurd rfl hOps
  | @step ops net net' op hRun hAllowed hStep ih =>
    by_cases hFirst : ops = []
    · rw [hFirst] at hRun
      rw [run_unique WireRun.start hRun] at hAllowed hStep
      exact create_sends hWid hInit (hNonempty op (by simp)) hAllowed hStep
    · have hOld := ih (fun o hMem => hNonempty o (by simp [hMem])) hFirst
      rcases step_out (inStep_of_run hRun).fits hAllowed hStep with
        ⟨_, base, rep, hOut, _⟩ | ⟨_, hOut | ⟨v, hOut⟩⟩
      · rw [hOut]
        simp
      · rw [hOut]
        exact hOld
      · rw [hOut]
        simp

end VvpNet

/-
  In every run of a wire: after each operation the functor has
  the value of the net, if and only if each time a part of the
  net is sent, the value is undriven outside of that part.
-/
theorem operand_exact {wid : Nat} {init : VvpBit4} {ops : List WireOp}
    {net : VvpNet} (hWid : 0 < wid) (hInit : init ≠ .x)
    (hNonempty : ∀ op ∈ ops, op.Nonempty) (hRun : WireRun wid init ops net) :
    (∀ before net', before <+: ops → before ≠ [] →
      WireRun wid init before net' →
      operand wid net'.out = some net'.fil.vec4Value) ↔
    ∀ before op net', before ++ [op] <+: ops →
      WireRun wid init before net' → op.Undriven net'.fil := by
  constructor
  · intro hSeen before op net₁ hPrefix hRun₁
    rcases VvpNet.run_prefix hRun hPrefix with ⟨net₂, hRun₂⟩
    rcases VvpNet.run_concat hRun₂ with ⟨net₀, hRun₀, hAllowed, hStep⟩
    rw [VvpNet.run_unique hRun₁ hRun₀] at hAllowed hStep
    have hOps : before ++ [op] ≠ [] := by simp
    have hAfter := hSeen _ net₂ hPrefix hOps hRun₂
    refine ((VvpNet.inStep_of_run hRun₁).operand_step
      (VvpNet.inStep_of_run hRun₂) hAllowed hStep ?_).mp hAfter
    by_cases hFirst : before = []
    · right
      rw [hFirst] at hRun₁
      rw [VvpNet.run_unique WireRun.start hRun₁]
      exact VvpNet.run_sends hWid hInit (fun o hMem => hNonempty o (hPrefix.subset hMem)) hRun₂ hOps
    · left
      exact hSeen before net₁ ((List.prefix_append before [op]).trans hPrefix) hFirst hRun₁
  · intro hUndriven before
    induction before using List.reverseRecOn with
    | nil => exact fun _ _ hNe => absurd rfl hNe
    | append_singleton before op ih =>
      intro net₂ hPrefix hOps hRun₂
      rcases VvpNet.run_concat hRun₂ with ⟨net₁, hRun₁, hAllowed, hStep⟩
      refine ((VvpNet.inStep_of_run hRun₁).operand_step
        (VvpNet.inStep_of_run hRun₂) hAllowed hStep ?_).mpr
        (hUndriven before op net₁ hPrefix hRun₁)
      by_cases hFirst : before = []
      · right
        rw [hFirst] at hRun₁
        rw [VvpNet.run_unique WireRun.start hRun₁]
        exact VvpNet.run_sends hWid hInit
          (fun o hMem => hNonempty o (hPrefix.subset hMem)) hRun₂
          hOps
      · left
        exact ih net₁ ((List.prefix_append before [op]).trans hPrefix) hFirst hRun₁

/- A driver of one bit. -/
theorem operand_exact_bit :
    WireRun 2 .z [.drivePv [.one] 0] ⟨⟨[.one, .z], false, [], [], false⟩, [.part 0 [.one]]⟩ ∧
      operand 2 [.part 0 [.one]] = some [.one, .z] := by
  have hRun : WireRun 2 .z [.drivePv [.one] 0]
      ⟨⟨[.one, .z], false, [], [], false⟩, [.part 0 [.one]]⟩ :=
    @WireRun.step _ _ [] _ _ _ WireRun.start (by decide) (by decide)
  have hSeen := (operand_exact (by decide) (by decide)
    (fun op hMem => by
      rw [List.mem_singleton.mp hMem]
      exact trivial) hRun).mpr (fun before op net' hPrefix hRun' => by
    have hFirst : before = [] := by
      have hLength := hPrefix.length_le
      exact List.length_eq_zero_iff.mp (by simpa using hLength)
    rw [hFirst] at hRun'
    rw [VvpNet.run_unique WireRun.start hRun']
    intro _ idx hIdx _
    have hTwo : idx = 0 ∨ idx = 1 := by
      have hLt : idx < 2 := hIdx
      omega
    rcases hTwo with hZero | hOne
    · rw [hZero]
      rfl
    · rw [hOne]
      rfl)
  exact ⟨hRun, hSeen _ _ List.prefix_rfl (by decide) hRun⟩

/- Both bits are driven, one of them is forced, and the force
   is released as a part: the functor sees an undriven bit. -/
theorem operand_loses_bit :
    ∃ net, WireRun 2 .z
      [.drive [.one, .one], .force [.zero, .one] [true, false], .releasePv 0 1] net ∧
      net.fil.vec4Value = [.one, .one] ∧
      operand 2 net.out = some [.one, .z] := by
  have hDrive : WireRun 2 .z [.drive [.one, .one]]
      ⟨⟨[.one, .one], false, [], [], false⟩, [.full [.one, .one]]⟩ :=
    @WireRun.step _ _ [] _ _ _ WireRun.start (by decide) (by decide)
  have hForce : WireRun 2 .z
      [.drive [.one, .one], .force [.zero, .one] [true, false]]
      ⟨⟨[.one, .one], false, [.zero, .one], [true, false], true⟩,
        [.full [.one, .one], .full [.zero, .one]]⟩ :=
    @WireRun.step _ _ [_] _ _ _ hDrive (by decide) (by decide)
  exact ⟨_, @WireRun.step _ _ [_, _] _
    ⟨⟨[.one, .one], false, [.zero, .one], [], true⟩,
      [.full [.one, .one], .full [.zero, .one], .part 0 [.one]]⟩ _
    hForce (by decide) (by decide), by decide, by decide⟩

end EpicSim
