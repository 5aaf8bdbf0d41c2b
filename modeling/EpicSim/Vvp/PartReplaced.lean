import EpicSim.Vvp.PartSelect

/-
  Part deliveries against full deliveries.

  The reference replaces every delivery of a part by a full
  delivery of the last full input with the part overwritten,
  to the same contexts.  A class whose instances hold enough
  of the last full input sends the same values.
-/

namespace EpicSim

open PartUpdate (overwrite overwrite_length overwrite_getD
  eq_of_getD overwrite_all)

----
-- The Reference
----

/- A part select, and the last full input of each context. -/
structure Replaced (σ : Type) where
  state : σ
  last : Nat → Option (List VvpBit4)

namespace PartClass

variable {σ : Type}

/- The first state of a class, without any input. -/
def replacedStart (K : PartClass σ) : Replaced σ :=
  ⟨K.start, fun _ => none⟩

/- The replaced delivery of a part to one context. -/
def replacedPart (K : PartClass σ) (bit : List VvpBit4) (base : Nat) (r : Replaced σ)
    (c : Nat) : Option (Replaced σ × List PartSend) :=
  match r.last c with
  | none => none
  | some full =>
    let bit' := overwrite full base bit
    (K.step r.state (.full bit' (some c))).map (fun res =>
      (⟨res.1, fun c' => if c' = c then some bit' else r.last c'⟩, res.2))

/- The last full inputs after a call that is no part. -/
def lastAfter (K : PartClass σ) (r : Replaced σ) : PartCall → Nat → Option (List VvpBit4)
| .full bit context, c => if c ∈ K.contexts r.state context then some bit else r.last c
| .alloc c', c => if c = c' then none else r.last c
| .reset c', c => if c = c' then none else r.last c
| _, c => r.last c

/- A call with the deliveries of parts replaced. -/
def replacedStep (K : PartClass σ) (r : Replaced σ)
    (call : PartCall) : Option (Replaced σ × List PartSend) :=
  match call with
  | .part bit base _ context => forEach (K.replacedPart bit base) (K.contexts r.state context) r
  | _ => (K.step r.state call).map (fun res => (⟨res.1, K.lastAfter r call⟩, res.2))

/-
  A part is part of the vector that each context got last.
  So a context has had a full delivery before.
-/
def Proper (K : PartClass σ) (r : Replaced σ) : PartCall → Prop
| .part bit base vwid context =>
  ∀ c, c ∈ K.contexts r.state context →
    ∃ full, r.last c = some full ∧ full.length = vwid ∧ base + bit.length ≤ vwid
| _ => True

/- Calls that meet a condition, each in its state. -/
def Meets (K : PartClass σ) (P : Replaced σ → PartCall → Prop) : List PartCall → Replaced σ → Prop
| [], _ => True
| call :: calls, r =>
  P r call ∧
  ∀ r' out, K.replacedStep r call = some (r', out) → K.Meets P calls r'

theorem meets_cons {K : PartClass σ} {P : Replaced σ → PartCall → Prop}
    {call : PartCall} {calls : List PartCall} {r r' : Replaced σ}
    {out : List PartSend} (hStep : K.replacedStep r call = some (r', out))
    (hCall : P r call) (hRest : K.Meets P calls r') : K.Meets P (call :: calls) r := by
  refine ⟨hCall, ?_⟩
  intro r'' out' hStep'
  rw [hStep] at hStep'
  cases hStep'
  exact hRest

----
-- Instances That Hold Their Input
----

/-
  What makes parts and full deliveries agree: a relation
  between an instance and its last full input that every call
  keeps, and parts that are delivered like full inputs.
-/
structure Holding (K : PartClass σ) (Ok : σ → PartCall → Prop) where
  Holds : σ → Nat → List VvpBit4 → Prop
  full :
    ∀ s bit context s' out,
      K.step s (.full bit context) = some (s', out) →
      (∀ context', K.contexts s' context' = K.contexts s context') ∧
      (∀ c, c ∈ K.contexts s context → Holds s' c bit) ∧
      ∀ c old, c ∉ K.contexts s context → Holds s c old → Holds s' c old
  other :
    ∀ s call s' out,
      (∀ bit context, call ≠ .full bit context) →
      (∀ bit base vwid context, call ≠ .part bit base vwid context) →
      K.step s call = some (s', out) →
      ∀ c old, call ≠ .alloc c → call ≠ .reset c → Holds s c old → Holds s' c old
  partIn :
    ∀ s bit base vwid context c old,
      Ok s (.part bit base vwid context) →
      K.contexts s (some c) = [c] →
      Holds s c old → old.length = vwid →
      base + bit.length ≤ vwid →
      K.step s (.part bit base vwid (some c)) = K.step s (.full (overwrite old base bit) (some c))
  partAll :
    ∀ s bit base vwid context,
      Ok s (.part bit base vwid context) →
      (∀ c, c ∈ K.contexts s context →
        ∃ old, Holds s c old ∧ old.length = vwid ∧ base + bit.length ≤ vwid) →
      K.step s (.part bit base vwid context) =
        forEach (fun s c => K.step s (.part bit base vwid (some c))) (K.contexts s context) s
  stable :
    ∀ s bit context s' out call,
      K.step s (.full bit context) = some (s', out) →
      Ok s call → Ok s' call
  single : ∀ s context c, c ∈ K.contexts s context → K.contexts s (some c) = [c]

namespace Holding

variable {K : PartClass σ}
variable {Ok : σ → PartCall → Prop}

/- Every instance holds its last full input. -/
def Inv (h : K.Holding Ok) (r : Replaced σ) : Prop :=
  ∀ c old, r.last c = some old → h.Holds r.state c old

/- What is left of a replaced run: the state and what is sent. -/
def shown (res : Option (Replaced σ × List PartSend)) : Option (σ × List PartSend) :=
  res.map (fun res => (res.1.state, res.2))

variable {r : Replaced σ}

/- Parts that go to some contexts, one after the other. -/
theorem parts_eq (h : K.Holding Ok) {bit : List VvpBit4} {base vwid : Nat}
    {context : Option Nat} {cs : List Nat} (hInv : h.Inv r)
    (hOk : Ok r.state (.part bit base vwid context))
    (hSingle : ∀ c, c ∈ cs → K.contexts r.state (some c) = [c]) (hProper :
      ∀ c, c ∈ cs → ∃ full, r.last c = some full ∧ full.length = vwid ∧ base + bit.length ≤ vwid) :
    shown (forEach (K.replacedPart bit base) cs r) =
        forEach (fun s c => K.step s (.part bit base vwid (some c))) cs r.state ∧
      ∀ r' out,
        forEach (K.replacedPart bit base) cs r = some (r', out) →
        h.Inv r' := by
  induction cs generalizing r with
  | nil =>
    refine ⟨rfl, ?_⟩
    intro r' out hRun
    cases hRun
    exact hInv
  | cons c cs ih =>
    rcases hProper c (by simp) with ⟨old, hLast, hLength, hFit⟩
    have hOne := hSingle c (by simp)
    have hPart := h.partIn r.state bit base vwid context c old hOk
      hOne (hInv c old hLast) hLength hFit
    have hStep :
        K.replacedPart bit base r c =
          (K.step r.state (.full (overwrite old base bit) (some c))).map
            (fun res =>
              (⟨res.1, fun c' =>
                if c' = c then some (overwrite old base bit)
                else r.last c'⟩, res.2)) := by
      unfold replacedPart
      rw [hLast]
    unfold forEach
    rw [hStep, hPart]
    cases hFull : K.step r.state (.full (overwrite old base bit) (some c)) with
    | none =>
      refine ⟨rfl, ?_⟩
      intro r' out hRun
      cases hRun
    | some res =>
      rcases res with ⟨s', out⟩
      rcases h.full r.state _ _ s' out hFull with ⟨hContexts, hReached, hOthers⟩
      have hInv' :
          h.Inv ⟨s', fun c' =>
            if c' = c then some (overwrite old base bit)
            else r.last c'⟩ := by
        intro c' old' hLast'
        simp only at hLast'
        split_ifs at hLast' with hc
        · grind
        · apply hOthers c' old'
          · rw [hOne]
            simpa using hc
          · exact hInv c' old' hLast'
      have hRest := ih hInv'
        (h.stable _ _ _ _ _ _ hFull hOk)
        (by
          intro c' hc'
          rw [hContexts]
          exact hSingle c' (by simp [hc']))
        (by
          intro c' hc'
          by_cases hc : c' = c
          · refine ⟨overwrite old base bit, ?_, ?_, hFit⟩
            · simp [hc]
            · rw [overwrite_length, hLength]
          · rcases hProper c' (by simp [hc']) with ⟨full, hFull', hRest⟩
            refine ⟨full, ?_, hRest⟩
            simp only [if_neg hc]
            exact hFull')
      rcases hRest with ⟨hShown, hKeep⟩
      simp only [Option.map_some]
      constructor
      · rw [← hShown]
        cases forEach (K.replacedPart bit base) cs
            ⟨s', fun c' =>
              if c' = c then some (overwrite old base bit)
              else r.last c'⟩ <;> rfl
      · grind

/- A call that is no part is the same call in both runs. -/
theorem replacedStep_other {call : PartCall}
    (hNoPart : ∀ bit base vwid context, call ≠ .part bit base vwid context) :
    K.replacedStep r call =
      (K.step r.state call).map (fun res =>
        (⟨res.1, K.lastAfter r call⟩, res.2)) := by
  cases call with
  | part bit base vwid context => exact absurd rfl (hNoPart bit base vwid context)
  | _ => rfl

/- A context that keeps its last full input. -/
theorem last_of_lastAfter {call : PartCall} {c : Nat} {old : List VvpBit4}
    (hNoFull : ∀ bit context, call ≠ .full bit context) (hLast : K.lastAfter r call c = some old) :
    call ≠ .alloc c ∧ call ≠ .reset c ∧ r.last c = some old := by
  cases call with
  | full bit context => exact absurd rfl (hNoFull bit context)
  | alloc c' =>
    by_cases hc : c = c'
    · simp [lastAfter, hc] at hLast
    · simp only [lastAfter, if_neg hc] at hLast
      exact ⟨by simpa using fun hEq => hc hEq.symm, by simp, hLast⟩
  | reset c' =>
    by_cases hc : c = c'
    · simp [lastAfter, hc] at hLast
    · simp only [lastAfter, if_neg hc] at hLast
      exact ⟨by simp, by simpa using fun hEq => hc hEq.symm, hLast⟩
  | part bit base vwid context => exact ⟨by simp, by simp, hLast⟩
  | select bit context => exact ⟨by simp, by simp, hLast⟩
  | live contexts => exact ⟨by simp, by simp, hLast⟩
  | run => exact ⟨by simp, by simp, hLast⟩

/- One call. -/
theorem step_eq (h : K.Holding Ok) {call : PartCall}
    (hInv : h.Inv r) (hOk : Ok r.state call) (hProper : K.Proper r call) :
    shown (K.replacedStep r call) = K.step r.state call ∧
      ∀ r' out, K.replacedStep r call = some (r', out) →
        h.Inv r' := by
  by_cases hPart : ∃ bit base vwid context, call = .part bit base vwid context
  · rcases hPart with ⟨bit, base, vwid, context, rfl⟩
    have hAll := h.partAll r.state bit base vwid context hOk (by
      intro c hc
      rcases hProper c hc with ⟨full, hLast, hRest⟩
      exact ⟨full, hInv c full hLast, hRest⟩)
    rw [hAll]
    exact h.parts_eq hInv hOk (h.single r.state context) hProper
  · have hNoPart :
        ∀ bit base vwid context,
          call ≠ .part bit base vwid context := by grind
    rw [replacedStep_other hNoPart]
    cases hCall : K.step r.state call with
    | none =>
      refine ⟨rfl, ?_⟩
      intro r' out hStep
      cases hStep
    | some res =>
      refine ⟨rfl, ?_⟩
      intro r' out hStep c old hLast
      cases hStep
      by_cases hFull : ∃ bit context, call = .full bit context
      · rcases hFull with ⟨bit, context, rfl⟩
        rcases h.full _ _ _ _ _ hCall with ⟨_, hReached, hOthers⟩
        simp only [lastAfter] at hLast
        by_cases hc : c ∈ K.contexts r.state context
        · grind
        · rw [if_neg hc] at hLast
          exact hOthers c old hc (hInv c old hLast)
      · have hNoFull : ∀ bit context, call ≠ .full bit context := by grind
        rcases last_of_lastAfter hNoFull hLast with ⟨hAlloc, hReset, hOld⟩
        exact h.other _ _ _ _ hNoFull hNoPart hCall c old hAlloc hReset (hInv c old hOld)

/- A run of calls. -/
theorem run_eq (h : K.Holding Ok) {calls : List PartCall} (hInv : h.Inv r)
    (hMeets :
      K.Meets (fun r call =>
        K.Proper r call ∧ Ok r.state call)
        calls r) : shown (forEach K.replacedStep calls r) = forEach K.step calls r.state := by
  induction calls generalizing r with
  | nil => rfl
  | cons call calls ih =>
    rcases hMeets with ⟨⟨hProper, hOk⟩, hRest⟩
    rcases h.step_eq hInv hOk hProper with ⟨hShown, hKeep⟩
    unfold forEach
    rw [← hShown]
    cases hStep : K.replacedStep r call with
    | none => rfl
    | some res =>
      rcases res with ⟨r', out⟩
      have hNext := ih (hKeep r' out hStep) (hRest r' out hStep)
      simp only [shown, Option.map_some]
      rw [← hNext]
      cases forEach K.replacedStep calls r' <;> rfl

end Holding

end PartClass

----
-- Loops over Contexts
----

section Loops

variable {σ : Type}
variable {step : σ → Nat → Option (σ × List PartSend)}

theorem forEach_single (step : σ → Nat → Option (σ × List PartSend)) (s : σ) (c : Nat) :
    forEach step [c] s = step s c := by
  unfold forEach
  cases step s c with
  | none => rfl
  | some res => simp [forEach]

/- The first turn of the loop and the others. -/
theorem forEach_cons {c : Nat} {cs : List Nat} {s s' : σ} {out : List PartSend}
    (hRun : forEach step (c :: cs) s = some (s', out)) :
    ∃ first out' rest, step s c = some (first, out') ∧
      forEach step cs first = some (s', rest) := by
  unfold forEach at hRun
  cases hFirst : step s c with
  | none =>
    rw [hFirst] at hRun
    cases hRun
  | some res => grind

/- What every step keeps is kept by the loop. -/
theorem forEach_frame {ρ : Type} {part : σ → ρ} {cs : List Nat} {s s' : σ} {out : List PartSend}
    (hStep : ∀ s c s' out, step s c = some (s', out) → part s' = part s)
    (hRun : forEach step cs s = some (s', out)) : part s' = part s := by
  induction cs generalizing s out with
  | nil =>
    cases hRun
    rfl
  | cons c cs ih =>
    rcases forEach_cons hRun with ⟨first, out', rest, hFirst, hRest⟩
    rw [ih hRest]
    exact hStep s c first out' hFirst

/- A loop delivers to all its contexts and to no other. -/
theorem forEach_delivers {Holds : σ → Nat → List VvpBit4 → Prop} {bit : List VvpBit4}
    {cs : List Nat} {s s' : σ} {out : List PartSend}
    (hAt : ∀ s c s' out, step s c = some (s', out) → Holds s' c bit) (hKeep :
      ∀ s c s' out, step s c = some (s', out) → ∀ c' old, c' ≠ c → Holds s c' old → Holds s' c' old)
    (hRun : forEach step cs s = some (s', out)) :
    (∀ c, c ∈ cs → Holds s' c bit) ∧
      ∀ c old, c ∉ cs → Holds s c old → Holds s' c old := by
  induction cs generalizing s out with
  | nil =>
    cases hRun
    simp
  | cons c cs ih =>
    rcases forEach_cons hRun with ⟨first, out', rest, hFirst, hRest⟩
    rcases ih hRest with ⟨hReached, hOthers⟩
    constructor
    · grind
    · grind

end Loops

----
-- Selected Bits
----

theorem setVec_some {bits that : List VvpBit4} {adr : Nat} (h : adr + that.length ≤ bits.length) :
    setVec bits adr that = some (overwrite bits adr that) :=
  if_pos h

/- Two vectors with the same bits from a base on. -/
theorem subvalue_congr {as bs : List VvpBit4} {base wid : Nat}
    (h : ∀ idx, base ≤ idx → idx < base + wid → bitValue as idx = bitValue bs idx) :
    subvalue as base wid = subvalue bs base wid := by
  apply List.map_congr_left
  intro idx hIdx
  have := List.mem_range.mp hIdx
  exact h _ (by omega) (by omega)

/- The rebuilt vector shows the same selection. -/
theorem rebuild_spec {base wid pos vwid : Nat} {old bit : List VvpBit4}
    (hOld : old.length = vwid) (hInside : base + wid ≤ vwid) (hFit : pos + bit.length ≤ vwid) :
    ∃ tmp,
      VvpFunPartSa.rebuild base (subvalue old base wid) bit pos vwid = some tmp ∧
      subvalue tmp base wid = subvalue (overwrite old pos bit) base wid := by
  have hVal : (subvalue old base wid).length = wid := by simp [subvalue]
  refine ⟨overwrite (overwrite (List.replicate vwid .z) base
    (subvalue old base wid)) pos bit, ?_, ?_⟩
  · unfold VvpFunPartSa.rebuild
    rw [setVec_some (by rw [hVal, List.length_replicate]; omega)]
    exact setVec_some (by
      rw [overwrite_length, List.length_replicate]
      exact hFit)
  · apply subvalue_congr
    intro idx hLow hHigh
    have hOuter :
        idx < (overwrite (List.replicate vwid VvpBit4.z) base (subvalue old base wid)).length := by
      rw [overwrite_length, List.length_replicate]
      omega
    have hInner : idx < (List.replicate vwid VvpBit4.z).length := by
      rw [List.length_replicate]
      omega
    have hIdx : idx < old.length := by omega
    unfold bitValue
    rw [overwrite_getD .x hOuter, overwrite_getD .x hInner,
      @overwrite_getD _ old bit pos idx .x hIdx, hVal,
      if_pos (show base ≤ idx ∧ idx < base + wid from
        ⟨hLow, hHigh⟩)]
    have hBit : (subvalue old base wid).getD (idx - base) .x = old.getD idx .x := by
      rw [List.getD_eq_getElem _ _ (by rw [hVal]; omega)]
      simp only [subvalue, bitValue, List.getElem_map, List.getElem_range, Nat.add_sub_cancel' hLow]
    rw [hBit]

/- The rebuilt source of a select with an input base. -/
theorem PartVarState.rebuild_spec {s : PartVarState} {bit : List VvpBit4} {base vwid : Nat}
    (hSource : s.source.length = vwid) (hFit : base + bit.length ≤ vwid) :
    s.rebuild bit base vwid = some (overwrite s.source base bit) := by
  have hTmp :
      (if s.source.length = 0 then List.replicate vwid .x
        else s.source) = s.source := by grind
  unfold rebuild
  rw [hTmp, if_pos hSource]
  exact setVec_some (by rw [hSource]; exact hFit)

@[simp] theorem PartVarState.recvSource_source (s : PartVarState) (wid : Nat) (bit : List VvpBit4) :
    (s.recvSource wid bit).1.source = bit := by
  simp only [recvSource, refresh]
  split_ifs <;> rfl

@[simp] theorem PartVarState.recvBase_source
    (s : PartVarState) (wid : Nat) (is_signed : Bool) (bit : List VvpBit4) :
    (s.recvBase wid is_signed bit).1.source = s.source := by
  simp only [recvBase, refresh]
  split_ifs <;> rfl

----
-- The Four Classes
----

namespace PartClass

/- The select lies in the vector of which a part arrives. -/
def Inside (base wid : Nat) : PartCall → Prop
| .part _ _ vwid _ => base + wid ≤ vwid
| _ => True

/-
  A part that arrives without a context is the whole vector,
  or there is no live context.
-/
def Addressed (live : List Nat) : PartCall → Prop
| .part bit _ vwid none => live = [] ∨ bit.length = vwid
| _ => True

/- `vvp_fun_part_sa` holds the selected bits. -/
def holdingSa (base wid : Nat) : (partSa base wid).Holding (fun f => Inside f.base f.wid) where
  Holds := fun f c old => c = 0 → f.val = subvalue old f.base f.wid
  full := by
    intro f bit context f' out hStep
    cases hStep
    refine ⟨fun _ => rfl, ?_, ?_⟩
    · intro c _ _
      unfold VvpFunPartSa.recvVec4
      by_cases hSame : f.val = subvalue bit f.base f.wid
      · rw [if_pos hSame]
        exact hSame
      · rw [if_neg hSame]
    · intro c old hc _ hZero
      exact absurd (List.mem_singleton.mpr hZero) hc
  other := by
    intro f call f' out hFull hPart hStep c old _ _ hOld hZero
    cases call with
    | full bit context => exact absurd rfl (hFull bit context)
    | part bit base vwid context => exact absurd rfl (hPart bit base vwid context)
    | run =>
      simp only [partSa, VvpFunPartSa.runRun] at hStep
      split_ifs at hStep
      · cases hStep
        exact hOld hZero
      · cases hStep
    | select bit context => cases hStep
    | live contexts => cases hStep
    | alloc c' => cases hStep
    | reset c' => cases hStep
  partIn := by
    intro f bit pos vwid context c old hOk hOne hOld hLength hFit
    have hZero : c = 0 := (List.singleton_inj.mp hOne).symm
    rcases rebuild_spec hLength hOk hFit with ⟨tmp, hTmp, hShows⟩
    simp only [partSa, VvpFunPartSa.recvVec4Pv]
    rw [hOld hZero, hTmp]
    simp only [Option.map_some, VvpFunPartSa.recvVec4, hShows]
  partAll := by
    intro f bit pos vwid context hOk _
    exact (forEach_single (fun s c =>
      (partSa base wid).step s (.part bit pos vwid (some c))) f
      0).symm
  stable := by
    intro f bit context f' out call hStep hOk
    cases hStep
    have hConfig :
        (f.recvVec4 bit).base = f.base ∧
          (f.recvVec4 bit).wid = f.wid := by
      simp only [VvpFunPartSa.recvVec4]
      split_ifs <;> exact ⟨rfl, rfl⟩
    rw [hConfig.1, hConfig.2]
    exact hOk
  single := by
    intro f context c hc
    rw [List.mem_singleton.mp hc]
    rfl

/- `vvp_fun_part_var_sa` holds the whole vector. -/
def holdingVarSa (wid : Nat) (is_signed : Bool) :
    (partVarSa wid is_signed).Holding (fun _ _ => True) where
  Holds := fun f c old => c = 0 → f.state.source = old
  full := by
    intro f bit context f' out hStep
    cases hStep
    refine ⟨fun _ => rfl, ?_, ?_⟩
    · intro c _ _
      exact PartVarState.recvSource_source _ _ _
    · intro c old hc _ hZero
      exact absurd (List.mem_singleton.mpr hZero) hc
  other := by
    intro f call f' out hFull hPart hStep c old _ _ hOld hZero
    cases call with
    | full bit context => exact absurd rfl (hFull bit context)
    | part bit base vwid context => exact absurd rfl (hPart bit base vwid context)
    | select bit context =>
      cases hStep
      exact (PartVarState.recvBase_source _ _ _ _).trans (hOld hZero)
    | run => cases hStep
    | live contexts => cases hStep
    | alloc c' => cases hStep
    | reset c' => cases hStep
  partIn := by
    intro f bit pos vwid context c old _ hOne hOld hLength hFit
    have hZero : c = 0 := (List.singleton_inj.mp hOne).symm
    have hSource := hOld hZero
    simp only [partVarSa, VvpFunPartVarSa.recvVec4Pv]
    rw [PartVarState.rebuild_spec (by rw [hSource]; exact hLength) hFit, hSource]
    rfl
  partAll := by
    intro f bit pos vwid context _ _
    exact (forEach_single (fun s c =>
      (partVarSa wid is_signed).step s (.part bit pos vwid (some c))) f 0).symm
  stable := by
    intro f bit context f' out call _ _
    trivial
  single := by
    intro f context c hc
    rw [List.mem_singleton.mp hc]
    rfl

/- The loop over the result takes the selected bits. -/
theorem selected_eq (vec : List VvpBit4) (base wid : Nat) :
    (List.range wid).map (fun idx =>
      if idx + base < vec.length then bitValue vec (base + idx)
      else .x) = subvalue vec base wid := by
  apply List.map_congr_left
  intro idx _
  by_cases hIdx : idx + base < vec.length
  · rw [if_pos hIdx]
  · rw [if_neg hIdx]
    exact (List.getD_eq_default _ _ (by omega)).symm

/- What a delivery in one context does to all instances. -/
theorem recvIn_vals (f : VvpFunPartAa) (bit : List VvpBit4) (c c' : Nat) :
    (f.recvIn bit c).1.vals c' =
      if c' = c then subvalue bit f.base f.wid else f.vals c' := by
  simp only [VvpFunPartAa.recvIn, selected_eq]
  by_cases hSame : f.vals c = subvalue bit f.base f.wid
  · grind
  · rw [if_neg hSame]

/- The rest of the functor stays. -/
theorem recvIn_config (f : VvpFunPartAa) (bit : List VvpBit4) (c : Nat) :
    (f.recvIn bit c).1.base = f.base ∧
      (f.recvIn bit c).1.wid = f.wid ∧
      (f.recvIn bit c).1.liveContexts = f.liveContexts := by
  simp only [VvpFunPartAa.recvIn]
  split_ifs <;> exact ⟨rfl, rfl, rfl⟩

/- A delivery depends on the selected bits alone. -/
theorem recvIn_congr {f : VvpFunPartAa} {bit bit' : List VvpBit4} {c : Nat}
    (h : subvalue bit f.base f.wid = subvalue bit' f.base f.wid) :
    f.recvIn bit c = f.recvIn bit' c := by
  simp only [VvpFunPartAa.recvIn, selected_eq, h]

theorem recvVec4_eq (f : VvpFunPartAa) (bit : List VvpBit4) (context : Option Nat) :
    f.recvVec4 bit context =
      forEach (fun f c => some (f.recvIn bit c)) (contextsOf f.liveContexts context) f := by
  cases context with
  | none => rfl
  | some c => exact (forEach_single (fun f c => some (VvpFunPartAa.recvIn f bit c)) f c).symm

theorem recvVec4_config {f f' : VvpFunPartAa} {bit : List VvpBit4}
    {context : Option Nat} {out : List PartSend} (h : f.recvVec4 bit context = some (f', out)) :
    f'.base = f.base ∧ f'.wid = f.wid ∧
      f'.liveContexts = f.liveContexts := by
  rw [recvVec4_eq] at h
  let config := fun f : VvpFunPartAa => (f.base, f.wid, f.liveContexts)
  have hFrame : config f' = config f := by
    apply forEach_frame _ h
    intro g c g' out hStep
    have hNext : (g.recvIn bit c).1 = g' := congrArg Prod.fst (Option.some.inj hStep)
    rcases recvIn_config g bit c with ⟨hBase, hWid, hLive⟩
    show (g'.base, g'.wid, g'.liveContexts) = _
    rw [← hNext, hBase, hWid, hLive]
  have hParts := Prod.mk.inj hFrame
  have hMore := Prod.mk.inj hParts.2
  exact ⟨hParts.1, hMore.1, hMore.2⟩

/- A context holds the selected bits of its last full input. -/
def HoldsSelected (f : VvpFunPartAa) (c : Nat) (old : List VvpBit4) : Prop :=
  f.vals c = subvalue old f.base f.wid

/- A context holds its last full input. -/
def HoldsSource (f : VvpFunPartVarAa) (c : Nat) (old : List VvpBit4) : Prop :=
  (f.states c).source = old

/- `vvp_fun_part_aa` holds the selected bits of each context. -/
def holdingAa (base wid : Nat) : (partAa base wid).Holding (fun f => Inside f.base f.wid) where
  Holds := HoldsSelected
  full := by
    intro f bit context f' out hStep
    rcases recvVec4_config hStep with ⟨_, _, hLive⟩
    have hRun : f.recvVec4 bit context = some (f', out) := hStep
    rw [recvVec4_eq] at hRun
    refine ⟨?_, ?_⟩
    · intro context'
      exact congrArg (fun live => contextsOf live context') hLive
    · apply forEach_delivers _ _ hRun
      · intro g c g' out hAt
        have hNext : (g.recvIn bit c).1 = g' := congrArg Prod.fst (Option.some.inj hAt)
        rcases recvIn_config g bit c with ⟨hBase, hWid, _⟩
        rw [HoldsSelected, ← hNext, recvIn_vals, if_pos rfl, hBase, hWid]
      · intro g c g' out hAt c' old hc hOld
        have hNext : (g.recvIn bit c).1 = g' := congrArg Prod.fst (Option.some.inj hAt)
        rcases recvIn_config g bit c with ⟨hBase, hWid, _⟩
        rw [HoldsSelected, ← hNext, recvIn_vals, if_neg hc, hBase, hWid]
        exact hOld
  other := by
    intro f call f' out hFull hPart hStep c old hAlloc hReset hOld
    cases call with
    | full bit context => exact absurd rfl (hFull bit context)
    | part bit base vwid context => exact absurd rfl (hPart bit base vwid context)
    | live contexts =>
      cases hStep
      exact hOld
    | alloc c' =>
      cases hStep
      have hc : c ≠ c' := fun hEq => hAlloc (by rw [hEq])
      exact (if_neg hc).trans hOld
    | reset c' =>
      cases hStep
      have hc : c ≠ c' := fun hEq => hReset (by rw [hEq])
      exact (if_neg hc).trans hOld
    | select bit context => cases hStep
    | run => cases hStep
  partIn := by
    intro f bit pos vwid context c old hOk _ hOld hLength hFit
    rcases rebuild_spec hLength hOk hFit with ⟨tmp, hTmp, hShows⟩
    have hVals : f.vals c = subvalue old f.base f.wid := hOld
    simp only [partAa, VvpFunPartAa.recvVec4Pv, VvpFunPartAa.recvPvIn, VvpFunPartAa.recvVec4]
    rw [hVals, hTmp]
    exact congrArg some (recvIn_congr hShows)
  partAll := by
    intro f bit pos vwid context _ _
    cases context with
    | none => rfl
    | some c =>
      exact (forEach_single (fun s c =>
        (partAa base wid).step s (.part bit pos vwid (some c))) f
        c).symm
  stable := by
    intro f bit context f' out call hStep hOk
    rcases recvVec4_config hStep with ⟨hBase, hWid, _⟩
    rw [hBase, hWid]
    exact hOk
  single := by
    intro f context c _
    rfl

/- The source of each context after a delivery in one. -/
theorem varRecvIn_source (f : VvpFunPartVarAa) (bit : List VvpBit4) (c c' : Nat) :
    ((f.recvIn bit c).1.states c').source =
      if c' = c then bit else (f.states c').source := by
  simp only [VvpFunPartVarAa.recvIn, VvpFunPartVarAa.sending]
  by_cases hc : c' = c
  · rw [if_pos hc, if_pos hc, PartVarState.recvSource_source]
  · rw [if_neg hc, if_neg hc]

theorem varRecvBaseIn_source (f : VvpFunPartVarAa) (bit : List VvpBit4) (c c' : Nat) :
    ((f.recvBaseIn bit c).1.states c').source = (f.states c').source := by
  simp only [VvpFunPartVarAa.recvBaseIn, VvpFunPartVarAa.sending]
  by_cases hc : c' = c
  · rw [if_pos hc, PartVarState.recvBase_source, hc]
  · rw [if_neg hc]

theorem varRecvVec4_eq (f : VvpFunPartVarAa) (bit : List VvpBit4) (context : Option Nat) :
    f.recvVec4 bit context =
      forEach (fun f c => some (f.recvIn bit c)) (contextsOf f.liveContexts context) f := by
  cases context with
  | none => rfl
  | some c => exact (forEach_single (fun f c => some (VvpFunPartVarAa.recvIn f bit c)) f c).symm

theorem varRecvVec4_live {f f' : VvpFunPartVarAa} {bit : List VvpBit4}
    {context : Option Nat} {out : List PartSend} (h : f.recvVec4 bit context = some (f', out)) :
    f'.liveContexts = f.liveContexts := by
  rw [varRecvVec4_eq] at h
  apply forEach_frame _ h
  intro g c g' out hStep
  have hNext : (g.recvIn bit c).1 = g' := congrArg Prod.fst (Option.some.inj hStep)
  rw [← hNext]
  rfl

/- Parts that are whole vectors are delivered like full ones. -/
theorem wholeParts_eq {bit : List VvpBit4} {vwid : Nat} {cs : List Nat}
    {f : VvpFunPartVarAa} (hWhole : bit.length = vwid)
    (hSources : ∀ c, c ∈ cs → (f.states c).source.length = vwid) :
    forEach (fun f c => some (f.recvIn bit c)) cs f =
      forEach (fun f c =>
        ((f.states c).rebuild bit 0 vwid).map (fun tmp => f.recvIn tmp c)) cs f := by
  induction cs generalizing f with
  | nil => rfl
  | cons c cs ih =>
    have hSource := hSources c (by simp)
    have hRebuild :
        (f.states c).rebuild bit 0 vwid = some bit := by
      rw [PartVarState.rebuild_spec hSource (by omega), overwrite_all (by omega)]
    have hRest := ih (f := (f.recvIn bit c).1) (by
      intro c' hc'
      rw [varRecvIn_source]
      by_cases hc : c' = c
      · rw [if_pos hc]
        exact hWhole
      · rw [if_neg hc]
        exact hSources c' (by simp [hc']))
    simp only [forEach, hRebuild, Option.map_some, hRest]

/- `vvp_fun_part_var_aa` holds the whole vector of each context. -/
def holdingVarAa (wid : Nat) (is_signed : Bool) :
    (partVarAa wid is_signed).Holding (fun f => Addressed f.liveContexts) where
  Holds := HoldsSource
  full := by
    intro f bit context f' out hStep
    have hLive := varRecvVec4_live hStep
    have hRun : f.recvVec4 bit context = some (f', out) := hStep
    rw [varRecvVec4_eq] at hRun
    refine ⟨?_, ?_⟩
    · intro context'
      exact congrArg (fun live => contextsOf live context') hLive
    · apply forEach_delivers _ _ hRun
      · intro g c g' out hAt
        have hNext : (g.recvIn bit c).1 = g' := congrArg Prod.fst (Option.some.inj hAt)
        rw [HoldsSource, ← hNext, varRecvIn_source, if_pos rfl]
      · intro g c g' out hAt c' old hc hOld
        have hNext : (g.recvIn bit c).1 = g' := congrArg Prod.fst (Option.some.inj hAt)
        rw [HoldsSource, ← hNext, varRecvIn_source, if_neg hc]
        exact hOld
  other := by
    intro f call f' out hFull hPart hStep c old hAlloc hReset hOld
    cases call with
    | full bit context => exact absurd rfl (hFull bit context)
    | part bit base vwid context => exact absurd rfl (hPart bit base vwid context)
    | select bit context =>
      have hRun :
          forEach (fun f c => some (f.recvBaseIn bit c))
            (contextsOf f.liveContexts context) f =
            some (f', out) := by
        rw [← hStep]
        cases context with
        | none => rfl
        | some c => exact forEach_single (fun f c => some (VvpFunPartVarAa.recvBaseIn f bit c)) f c
      have hFrame :
          (f'.states c).source = (f.states c).source := by
        apply @forEach_frame _ _ _
          (fun f : VvpFunPartVarAa => (f.states c).source) _ _ _ _
          _ hRun
        intro g c' g' out hAt
        have hNext : (g.recvBaseIn bit c').1 = g' := congrArg Prod.fst (Option.some.inj hAt)
        rw [← hNext]
        exact varRecvBaseIn_source g bit c' c
      exact hFrame.trans hOld
    | live contexts =>
      cases hStep
      exact hOld
    | alloc c' =>
      cases hStep
      have hc : c ≠ c' := fun hEq => hAlloc (by rw [hEq])
      exact (congrArg PartVarState.source (if_neg hc)).trans hOld
    | reset c' =>
      cases hStep
      have hc : c ≠ c' := fun hEq => hReset (by rw [hEq])
      exact (congrArg PartVarState.source (if_neg hc)).trans hOld
    | run => cases hStep
  partIn := by
    intro f bit pos vwid context c old _ _ hOld hLength hFit
    have hSource : (f.states c).source = old := hOld
    simp only [partVarAa, VvpFunPartVarAa.recvVec4Pv, VvpFunPartVarAa.recvVec4]
    rw [PartVarState.rebuild_spec (by rw [hSource]; exact hLength) hFit, hSource]
    rfl
  partAll := by
    intro f bit pos vwid context hOk hHeld
    cases context with
    | some c =>
      exact (forEach_single (fun s c =>
        (partVarAa wid is_signed).step s (.part bit pos vwid (some c))) f c).symm
    | none =>
      rcases hOk with hNone | hWhole
      · show forEach _ f.liveContexts f = forEach _ f.liveContexts f
        rw [hNone]
        rfl
      · show forEach _ f.liveContexts f = forEach _ f.liveContexts f
        cases hLive : f.liveContexts with
        | nil => rfl
        | cons first rest =>
          rw [← hLive]
          rcases hHeld first (by
            show first ∈ f.liveContexts
            rw [hLive]
            simp) with ⟨_, _, _, hFit⟩
          have hPos : pos = 0 := by omega
          rw [hPos]
          apply wholeParts_eq hWhole
          intro c hc
          rcases hHeld c hc with ⟨old, hOld, hLength, _⟩
          have hSource : (f.states c).source = old := hOld
          rw [hSource]
          exact hLength
  stable := by
    intro f bit context f' out call hStep hOk
    rw [varRecvVec4_live hStep]
    exact hOk
  single := by
    intro f context c _
    rfl

end PartClass

----
-- Parts as Full Deliveries
----

open PartClass PartClass.Holding

/-
  The values sent with parts replaced by full deliveries are
  the values sent: for a constant base when the select lies
  in the vector, for an input base in a static scope always,
  and in an automatic scope when a part without a context
  finds no live context or is the whole vector.
-/
theorem partial_as_full (base wid : Nat) (is_signed : Bool) (calls : List PartCall) :
    ((partSa base wid).Meets
        (fun r call =>
          (partSa base wid).Proper r call ∧
          PartClass.Inside r.state.base r.state.wid call)
        calls (partSa base wid).replacedStart →
      shown (forEach (partSa base wid).replacedStep calls (partSa base wid).replacedStart) =
        forEach (partSa base wid).step calls (partSa base wid).start) ∧
    ((partAa base wid).Meets
        (fun r call =>
          (partAa base wid).Proper r call ∧
          PartClass.Inside r.state.base r.state.wid call)
        calls (partAa base wid).replacedStart →
      shown (forEach (partAa base wid).replacedStep calls (partAa base wid).replacedStart) =
        forEach (partAa base wid).step calls (partAa base wid).start) ∧
    ((partVarSa wid is_signed).Meets
        (fun r call => (partVarSa wid is_signed).Proper r call ∧ True)
        calls (partVarSa wid is_signed).replacedStart →
      shown (forEach (partVarSa wid is_signed).replacedStep calls
          (partVarSa wid is_signed).replacedStart) =
        forEach (partVarSa wid is_signed).step calls (partVarSa wid is_signed).start) ∧
    ((partVarAa wid is_signed).Meets
        (fun r call =>
          (partVarAa wid is_signed).Proper r call ∧
          Addressed r.state.liveContexts call)
        calls (partVarAa wid is_signed).replacedStart →
      shown (forEach (partVarAa wid is_signed).replacedStep calls
          (partVarAa wid is_signed).replacedStart) =
        forEach (partVarAa wid is_signed).step calls (partVarAa wid is_signed).start) := by
  exact ⟨(holdingSa base wid).run_eq (fun _ _ h => nomatch h),
    (holdingAa base wid).run_eq (fun _ _ h => nomatch h),
    (holdingVarSa wid is_signed).run_eq (fun _ _ h => nomatch h),
    (holdingVarAa wid is_signed).run_eq (fun _ _ h => nomatch h)⟩

/- A part for one of two contexts. -/
theorem partial_as_full_context :
    (forEach (partVarAa 1 false).step
        [.live [1, 2], .full [.zero, .one] none, .part [.one] 0 2 (some 2)]
        (partVarAa 1 false).start).map Prod.snd =
      some [⟨some 1, [.zero]⟩, ⟨some 2, [.zero]⟩, ⟨some 2, [.one]⟩] := by
  have hSame := (partial_as_full 0 1 false
    [.live [1, 2], .full [.zero, .one] none,
      .part [.one] 0 2 (some 2)]).2.2.2 (by
    apply meets_cons rfl ⟨trivial, trivial⟩
    apply meets_cons rfl ⟨trivial, trivial⟩
    refine meets_cons rfl ⟨?_, trivial⟩ ?_
    swap
    · trivial
    intro c hc
    rw [List.mem_singleton.mp hc]
    exact ⟨[.zero, .one], rfl, rfl, by decide⟩)
  rw [← hSame]
  rfl

/-
  A part for all contexts is taken as a full input of one
  bit, so that bit 0 changes with bit 1.  And a select that
  is not all in the vector fails an assertion.
-/
theorem partial_broadcast :
    (¬ ∀ (wid : Nat) (is_signed : Bool) (calls : List PartCall),
      (partVarAa wid is_signed).Meets
          (partVarAa wid is_signed).Proper calls
          (partVarAa wid is_signed).replacedStart →
        shown (forEach (partVarAa wid is_signed).replacedStep calls
            (partVarAa wid is_signed).replacedStart) =
          forEach (partVarAa wid is_signed).step calls (partVarAa wid is_signed).start) ∧
    ¬ ∀ (base wid : Nat) (calls : List PartCall),
      (partSa base wid).Meets (partSa base wid).Proper calls (partSa base wid).replacedStart →
        shown (forEach (partSa base wid).replacedStep calls (partSa base wid).replacedStart) =
          forEach (partSa base wid).step calls (partSa base wid).start := by
  constructor
  · intro hAll
    have hSame := hAll 1 false
      [.live [1], .full [.zero, .zero] none,
        .part [.one] 1 2 none] (by
      apply meets_cons rfl trivial
      apply meets_cons rfl trivial
      refine meets_cons rfl ?_ ?_
      swap
      · trivial
      intro c hc
      rw [List.mem_singleton.mp hc]
      exact ⟨[.zero, .zero], rfl, rfl, by decide⟩)
    have hSent := congrArg (Option.map Prod.snd) hSame
    have hCode :
        (forEach (partVarAa 1 false).step
            [.live [1], .full [.zero, .zero] none, .part [.one] 1 2 none]
            (partVarAa 1 false).start).map Prod.snd =
          some [⟨some 1, [.zero]⟩, ⟨some 1, [.one]⟩] := rfl
    have hReference :
        (shown (forEach (partVarAa 1 false).replacedStep
            [.live [1], .full [.zero, .zero] none, .part [.one] 1 2 none]
            (partVarAa 1 false).replacedStart)).map Prod.snd =
          some [⟨some 1, [.zero]⟩] := rfl
    rw [hCode, hReference] at hSent
    cases hSent
  · intro hAll
    have hSame := hAll 1 2
      [.full [.zero, .zero] none, .part [.one] 0 2 none] (by
      apply meets_cons rfl trivial
      refine meets_cons rfl ?_ ?_
      swap
      · trivial
      intro c hc
      rw [List.mem_singleton.mp hc]
      exact ⟨[.zero, .zero], rfl, rfl, by decide⟩)
    have hCode :
        forEach (partSa 1 2).step
            [.full [.zero, .zero] none, .part [.one] 0 2 none]
            (partSa 1 2).start = none := rfl
    rw [hCode] at hSame
    cases hSame

end EpicSim
