import Mathlib.Data.List.Nodup
import EpicSim.Vpi.QueueHistory

/-
  Runs of the `$q_` tasks: every reply is that of queues with
  their histories, as long as the sum of two 32-bit integers
  that places a new element does not overflow.
-/

namespace EpicSim

open Option (bind_eq_bind bind_some bind_eq_some_iff)

/- The vector of queues holds the queues of the histories. -/
structure QueuesMatch (base : List QueueBase) (queues : Int → Option QueueHistory)
    (now : Nat) : Prop where
  distinct : (base.map QueueBase.id).Nodup
  known : ∀ b ∈ base, ∃ h, queues b.id = some h ∧ b.Represents h now
  present : ∀ id h, queues id = some h → ∃ b ∈ base, b.id = id

namespace QueueCall

/-
  The indices and the places that the call computes fit in
  the integers that hold them, and the adds can be counted.
-/
def Fits (base : List QueueBase) : QueueCall → Prop
| initialise _ _ _ _ => True
| add id _ _ => ∀ idx b,
    lookupQueue base id = some (idx, b) → b.elems < b.length →
      (b.type = IVL_QUEUE_FIFO → b.head + b.elems < 2 ^ 31) ∧ b.number_of_adds < UINT64_MAX
| remove id => ∀ i idx, id = some i →
    getIdIndex base i = some idx → idx < 2 ^ 31
| full id => ∀ i idx, id = some i →
    getIdIndex base i = some idx → idx < 2 ^ 31
| exam id _ => ∀ i idx, id = some i →
    getIdIndex base i = some idx → idx < 2 ^ 31

/- Every call of the run fits in the state it is made in. -/
def FitsRun : List QueueBase → List (Nat × QueueCall) → Prop
| _, [] => True
| base, (now, call) :: calls =>
  call.Fits base ∧ ∀ reply base', call.step base now = some (reply, base') → FitsRun base' calls

/- No call is before the previous one. -/
def TimedFrom : Nat → List (Nat × QueueCall) → Prop
| _, [] => True
| past, (now, _) :: calls => past ≤ now ∧ now < 2 ^ 64 ∧ TimedFrom now calls

/- The time of the last call. -/
def lastTime : Nat → List (Nat × QueueCall) → Nat
| past, [] => past
| _, (now, _) :: calls => lastTime now calls

end QueueCall

----
-- Looking Up A Queue
----

section Lookup

variable {base : List QueueBase}
  {queues : Int → Option QueueHistory} {now now' : Nat}

theorem getIdIndex_some {id : Int} {idx : Nat} (hIdx : getIdIndex base id = some idx) :
    ∃ b, base[idx]? = some b ∧ b.id = id := by
  rcases List.findIdx?_eq_some_iff_getElem.mp hIdx with ⟨hLt, hId, -⟩
  exact ⟨base[idx], List.getElem?_eq_getElem hLt, of_decide_eq_true hId⟩

theorem getIdIndex_none {id : Int} (hIdx : getIdIndex base id = none) {b : QueueBase}
    (hb : b ∈ base) : b.id ≠ id := by
  have hNot := List.findIdx?_eq_none_iff.mp hIdx b hb
  exact of_decide_eq_false hNot

namespace QueuesMatch

theorem later (hMatch : QueuesMatch base queues now) (hNow : now ≤ now') :
    QueuesMatch base queues now' := by
  refine ⟨hMatch.distinct, ?_, hMatch.present⟩
  intro b hb
  rcases hMatch.known b hb with ⟨h, hQueue, hRep⟩
  exact ⟨h, hQueue, hRep.later hNow⟩

/- An id has an index exactly when it has a history. -/
theorem getIdIndex (hMatch : QueuesMatch base queues now) (id : Int) :
    (getIdIndex base id = none ∧ queues id = none) ∨
      ∃ idx b h, getIdIndex base id = some idx ∧
        base[idx]? = some b ∧ b.id = id ∧
        queues id = some h ∧ b.Represents h now := by
  rcases hIdx : EpicSim.getIdIndex base id with _ | idx
  · left
    refine ⟨rfl, ?_⟩
    rcases hQueue : queues id with _ | h
    · rfl
    · rcases hMatch.present id h hQueue with ⟨b, hb, hId⟩
      exact absurd hId (getIdIndex_none hIdx hb)
  · right
    rcases getIdIndex_some hIdx with ⟨b, hb, hId⟩
    rcases hMatch.known b (List.mem_of_getElem? hb) with ⟨h, hQueue, hRep⟩
    rw [hId] at hQueue
    exact ⟨idx, b, h, rfl, hb, hId, hQueue, hRep⟩

/- A queue changes, and no other one does. -/
theorem set {idx : Nat} {b b' : QueueBase} {h' : QueueHistory}
    (hMatch : QueuesMatch base queues now) (hb : base[idx]? = some b) (hId : b'.id = b.id)
    (hRep : b'.Represents h' now) :
    QueuesMatch (base.set idx b') (Function.update queues b.id (some h')) now := by
  rcases List.getElem?_eq_some_iff.mp hb with ⟨hLt, hAt⟩
  have hIds : (base.set idx b').map QueueBase.id = base.map QueueBase.id := by
    rw [List.map_set, hId, ← hAt]
    have hSame : (base.map QueueBase.id)[idx]? = some base[idx].id := by grind
    rcases List.getElem?_eq_some_iff.mp hSame with ⟨hLt', hEq⟩
    rw [← hEq, List.set_getElem_self]
  have hPlace : (base.set idx b')[idx]? = some b' := List.getElem?_set_self hLt
  refine ⟨?_, ?_, ?_⟩
  · rw [hIds]
    exact hMatch.distinct
  · intro c hc
    by_cases hSame : c.id = b.id
    · have hc' : c = b' := by
        have hDistinct := hMatch.distinct
        rw [← hIds] at hDistinct
        apply List.inj_on_of_nodup_map hDistinct hc (List.mem_of_getElem? hPlace)
        rw [hSame, hId]
      rw [hc', hId, Function.update_self]
      exact ⟨h', rfl, hRep⟩
    · rw [Function.update_of_ne hSame]
      have hMem : c ∈ base := by grind
      exact hMatch.known c hMem
  · intro id h hQueue
    by_cases hSame : id = b.id
    · exact ⟨b', List.mem_of_getElem? hPlace, hId.trans hSame.symm⟩
    · rw [Function.update_of_ne hSame] at hQueue
      rcases hMatch.present id h hQueue with ⟨c, hc, rfl⟩
      have hIn : c.id ∈ (base.set idx b').map QueueBase.id := by
        rw [hIds]
        exact List.mem_map.mpr ⟨c, hc, rfl⟩
      rcases List.mem_map.mp hIn with ⟨d, hd, hEq⟩
      exact ⟨d, hd, hEq⟩

theorem same {idx : Nat} {b : QueueBase} (hb : base[idx]? = some b) : base.set idx b = base := by
  rcases List.getElem?_eq_some_iff.mp hb with ⟨hLt, hAt⟩
  rw [← hAt, List.set_getElem_self]

/- A queue with a new id comes after the others. -/
theorem create {b : QueueBase} {h : QueueHistory} (hMatch : QueuesMatch base queues now)
    (hNew : queues b.id = none) (hRep : b.Represents h now) :
    QueuesMatch (base ++ [b]) (Function.update queues b.id (some h)) now := by
  have hFresh : ∀ c ∈ base, c.id ≠ b.id := by
    intro c hc hEq
    rcases hMatch.known c hc with ⟨h', hQueue, -⟩
    rw [hEq, hNew] at hQueue
    cases hQueue
  refine ⟨?_, ?_, ?_⟩
  · rw [List.map_append, List.nodup_append]
    refine ⟨hMatch.distinct, List.nodup_singleton _, ?_⟩
    grind
  · intro c hc
    rcases List.mem_append.mp hc with hc | hc
    · rw [Function.update_of_ne (hFresh c hc)]
      exact hMatch.known c hc
    · grind
  · intro id h' hQueue
    by_cases hSame : id = b.id
    · exact ⟨b, List.mem_append_right _ List.mem_cons_self, hSame.symm⟩
    · rw [Function.update_of_ne hSame] at hQueue
      rcases hMatch.present id h' hQueue with ⟨c, hc, hId⟩
      exact ⟨c, List.mem_append_left _ hc, hId⟩

end QueuesMatch

/- An index below `2 ^ 31` is kept by the narrow lookup. -/
theorem lookupQueue32_eq {id : Option Int}
    (hFits : ∀ i idx, id = some i → getIdIndex base i = some idx → idx < 2 ^ 31) :
    lookupQueue32 base id = lookupQueue base id := by
  rcases id with _ | i
  · rfl
  · unfold lookupQueue32 lookupQueue
    simp only [bind_eq_bind, bind_some]
    rcases hIdx : getIdIndex base i with _ | idx
    · rfl
    · have hLt := hFits i idx rfl hIdx
      have hInt : (BitVec.ofNat 32 idx).toInt = idx := by
        rw [BitVec.toInt_ofNat']
        rw [Int.bmod_eq_of_le] <;> omega
      simp only [bind_some, hInt, Int.toNat_natCast]
      rw [if_neg (by omega)]

end Lookup

----
-- One Call
----

namespace QueuesMatch

variable {base : List QueueBase}
  {queues : Int → Option QueueHistory} {now : Nat}

section

variable (hMatch : QueuesMatch base queues now)

include hMatch

/- A lookup finds the queue of a history, or neither does. -/
theorem lookup (id : Option Int) :
    (lookupQueue base id = none ∧ id.bind queues = none ∧
      (id.bind fun id => (queues id).map (id, ·)) = none) ∨
    ∃ idx b h, lookupQueue base id = some (idx, b) ∧
      base[idx]? = some b ∧ id.bind queues = some h ∧
      (id.bind fun id => (queues id).map (id, ·)) = some (b.id, h) ∧ b.Represents h now := by
  rcases id with _ | id
  · exact Or.inl ⟨rfl, rfl, rfl⟩
  · unfold lookupQueue
    simp only [bind_eq_bind, bind_some]
    rcases hMatch.getIdIndex id with ⟨hIdx, hQueue⟩ | ⟨idx, b, h, hIdx, hb, hId, hQueue, hRep⟩
    · grind
    · grind

theorem initialise (id type length : Option Int)
    (memory : Bool) :
    (sysQInitialize base id type length memory).1 =
        (QueueCall.specStep queues now (.initialise id type length memory)).1 ∧
      QueuesMatch
        (sysQInitialize base id type length memory).2
        (QueueCall.specStep queues now (.initialise id type length memory)).2 now := by
  rcases id with _ | id
  · exact ⟨rfl, hMatch⟩
  rcases type with _ | type
  · exact ⟨rfl, hMatch⟩
  simp only [sysQInitialize, QueueCall.specStep]
  by_cases hType : type ≠ IVL_QUEUE_FIFO ∧ type ≠ IVL_QUEUE_LIFO
  · grind
  rw [if_neg hType, if_neg hType]
  rcases length with _ | length
  · exact ⟨rfl, hMatch⟩
  dsimp only
  by_cases hLength : length ≤ 0
  · grind
  rw [if_neg hLength, if_neg hLength]
  rcases hMatch.getIdIndex id with ⟨hIdx, hQueue⟩ | ⟨idx, b, h, hIdx, -, -, hQueue, -⟩
  · simp only [hIdx, hQueue]
    cases memory with
    | false => exact ⟨rfl, hMatch⟩
    | true =>
      refine ⟨rfl, ?_⟩
      have hKind : type = IVL_QUEUE_FIFO ∨
          type = IVL_QUEUE_LIFO := by omega
      exact @QueuesMatch.create _ _ _
        (createQueue id type length) _ hMatch hQueue
        (queue_start id hKind (by omega) now)
  · grind

theorem add (id : Option Int)
    (job inform : VpiVecval) (hFits : (QueueCall.add id job inform).Fits base) :
    ∃ base', sysQAdd base id job inform now =
        some ((QueueCall.specStep queues now (.add id job inform)).1, base') ∧
      QueuesMatch base' (QueueCall.specStep queues now (.add id job inform)).2 now := by
  simp only [sysQAdd, QueueCall.specStep]
  rcases hMatch.lookup id with ⟨hLook, -, hSpec⟩ | ⟨idx, b, h, hLook, hb, -, hSpec, hRep⟩
  · rw [hLook, hSpec]
    exact ⟨base, rfl, hMatch⟩
  · rw [hLook, hSpec]
    simp only [bind_eq_bind]
    have hElems := hRep.elems
    have hLength := hRep.length
    by_cases hRoom : h.waiting.length < h.length
    · rcases hFits idx b hLook (by omega) with ⟨hPlace, hAdds⟩
      rcases queue_add hRep hRoom hPlace hAdds job inform with ⟨b', hAdd, hId, hRep'⟩
      rw [hAdd, if_pos hRoom]
      exact ⟨base.set idx b', rfl, hMatch.set hb hId hRep'⟩
    · rw [addToQueue_full hRep hRoom, if_neg hRoom]
      refine ⟨base.set idx b, rfl, ?_⟩
      rw [same hb]
      exact hMatch

theorem remove (hNow : now < 2 ^ 64)
    (id : Option Int) (hFits : (QueueCall.remove id).Fits base) :
    ∃ base', sysQRemove base id now = some ((QueueCall.specStep queues now (.remove id)).1, base') ∧
      QueuesMatch base' (QueueCall.specStep queues now (.remove id)).2 now := by
  simp only [sysQRemove, QueueCall.specStep]
  rw [lookupQueue32_eq hFits]
  rcases hMatch.lookup id with ⟨hLook, -, hSpec⟩ | ⟨idx, b, h, hLook, hb, -, hSpec, hRep⟩
  · rw [hLook, hSpec]
    exact ⟨base, rfl, hMatch⟩
  · rw [hLook, hSpec]
    simp only [bind_eq_bind]
    rcases hNext : h.next with _ | ⟨e, rest⟩
    · rw [removeFromQueue_empty hRep hNext]
      refine ⟨base.set idx b, rfl, ?_⟩
      rw [same hb]
      exact hMatch
    · rcases queue_remove hRep hNow hNext with ⟨b', hRemove, hId, hRep'⟩
      rw [hRemove]
      exact ⟨base.set idx b', rfl, hMatch.set hb hId hRep'⟩

theorem full (id : Option Int)
    (hFits : (QueueCall.full id).Fits base) :
    sysQFull base id = (QueueCall.specStep queues now (.full id)).1 ∧
      (QueueCall.specStep queues now (.full id)).2 =
        queues := by
  simp only [sysQFull, QueueCall.specStep]
  rw [lookupQueue32_eq hFits]
  rcases hMatch.lookup id with ⟨hLook, hSpec, -⟩ | ⟨idx, b, h, hLook, hb, hSpec, -, hRep⟩
  · rw [hLook, hSpec]
    exact ⟨rfl, rfl⟩
  · rw [hLook, hSpec]
    have hElems := hRep.elems
    have hLength := hRep.length
    have hSame : isQueueFull b = true ↔
        h.length ≤ h.waiting.length := by
      unfold isQueueFull
      grind
    grind

theorem exam (hNow : now < 2 ^ 64)
    (id code : Option Int) (hFits : (QueueCall.exam id code).Fits base) :
    sysQExam base id code now = some (QueueCall.specStep queues now (.exam id code)).1 ∧
      (QueueCall.specStep queues now (.exam id code)).2 =
        queues := by
  simp only [sysQExam, QueueCall.specStep]
  rw [lookupQueue32_eq hFits]
  rcases hMatch.lookup id with ⟨hLook, hSpec, -⟩ | ⟨idx, b, h, hLook, hb, hSpec, -, hRep⟩
  · rw [hLook, hSpec]
    exact ⟨rfl, rfl⟩
  · rw [hLook, hSpec]
    rcases code with _ | code
    · exact ⟨rfl, rfl⟩
    · refine ⟨?_, rfl⟩
      dsimp only
      by_cases hCode : code ≤ 0 ∨ code > 6
      · rw [if_pos hCode]
        unfold QueueHistory.exam
        repeat rw [if_neg (by omega)]
      · rw [if_neg hCode]
        exact examQueue_spec hRep hNow hCode

/- A call that fits has the reply of the histories. -/
theorem step (hNow : now < 2 ^ 64)
    (call : QueueCall) (hFits : call.Fits base) :
    ∃ base', call.step base now = some ((call.specStep queues now).1, base') ∧
      QueuesMatch base' (call.specStep queues now).2 now := by
  cases call with
  | initialise id type length memory =>
    rcases hMatch.initialise id type length memory with ⟨hReply, hMatch'⟩
    refine ⟨_, ?_, hMatch'⟩
    rw [QueueCall.step, ← hReply]
  | add id job inform => exact hMatch.add id job inform hFits
  | remove id => exact hMatch.remove hNow id hFits
  | full id =>
    rcases hMatch.full id hFits with ⟨hReply, hSame⟩
    refine ⟨base, ?_, ?_⟩
    · rw [QueueCall.step, hReply]
    · rw [hSame]
      exact hMatch
  | exam id code =>
    rcases hMatch.exam hNow id code hFits with ⟨hReply, hSame⟩
    refine ⟨base, ?_, ?_⟩
    · rw [QueueCall.step, hReply]
      rfl
    · rw [hSame]
      exact hMatch

end

end QueuesMatch

----
-- Runs
----

/- The same for a run that starts in a matching state. -/
theorem QueuesMatch.run {queues : Int → Option QueueHistory} {past : Nat}
    (calls : List (Nat × QueueCall)) (base : List QueueBase)
    (hMatch : QueuesMatch base queues past) (hTimed : QueueCall.TimedFrom past calls)
    (hFits : QueueCall.FitsRun base calls) :
    ∃ base', QueueCall.run base calls = some ((QueueCall.specRun queues calls).1, base') ∧
      QueuesMatch base' (QueueCall.specRun queues calls).2 (QueueCall.lastTime past calls) := by
  induction calls generalizing base queues past with
  | nil => exact ⟨base, rfl, hMatch⟩
  | cons entry calls ih =>
    rcases entry with ⟨now, call⟩
    rcases hTimed with ⟨hPast, hNow, hTimed⟩
    rcases (hMatch.later hPast).step hNow call hFits.1 with ⟨base₁, hStep, hMatch₁⟩
    rcases ih base₁ hMatch₁ hTimed (hFits.2 _ _ hStep) with ⟨base', hRun, hMatch'⟩
    refine ⟨base', ?_, hMatch'⟩
    rw [QueueCall.run, hStep]
    simp only [bind_eq_bind, bind_some, hRun]
    rfl

theorem queues_none : QueuesMatch [] (fun _ => none) 0 := by
  refine ⟨List.nodup_nil, ?_, ?_⟩
  · intro b hb
    cases hb
  · intro id h hQueue
    cases hQueue

/-
  In a run whose calls all fit, every reply is that of the
  histories, and the vector holds their queues at the end.
-/
theorem queues_as_specified (calls : List (Nat × QueueCall)) (hTimed : QueueCall.TimedFrom 0 calls)
    (hFits : QueueCall.FitsRun [] calls) :
    ∃ base, QueueCall.run [] calls = some ((QueueCall.specRun (fun _ => none) calls).1, base) ∧
      QueuesMatch base (QueueCall.specRun (fun _ => none) calls).2 (QueueCall.lastTime 0 calls) :=
  queues_none.run calls [] hTimed hFits

theorem fitsRun_cons {base base' : List QueueBase} {now : Nat} {call : QueueCall}
    {reply : QueueReply} {calls : List (Nat × QueueCall)}
    (hFits : call.Fits base) (hStep : call.step base now = some (reply, base'))
    (hRest : QueueCall.FitsRun base' calls) : QueueCall.FitsRun base ((now, call) :: calls) := by
  refine ⟨hFits, ?_⟩
  intro reply' base'' hStep'
  rw [hStep] at hStep'
  cases hStep'
  exact hRest

/- A queue of each type with the jobs 7 and 8: one gives the 7
   first, the other one the 8. -/
def twoTypes : List (Nat × QueueCall) :=
  [(0, .initialise (some 1) (some 1) (some 2) true),
    (0, .initialise (some 2) (some 2) (some 2) true),
    (3, .add (some 1) ⟨7, 0⟩ ⟨9, 0⟩), (4, .add (some 1) ⟨8, 0⟩ ⟨9, 0⟩),
    (5, .add (some 2) ⟨7, 0⟩ ⟨9, 0⟩), (6, .add (some 2) ⟨8, 0⟩ ⟨9, 0⟩),
    (8, .remove (some 1)), (8, .remove (some 2))]

theorem queues_as_specified_one :
    ∃ base, QueueCall.run [] twoTypes =
      some ([.only .OK, .only .OK, .only .OK, .only .OK, .only .OK, .only .OK,
        ⟨.OK, some (⟨7, 0⟩, ⟨9, 0⟩), none⟩, ⟨.OK, some (⟨8, 0⟩, ⟨9, 0⟩), none⟩], base) := by
  have hAdd : ∀ {base : List QueueBase} {i idx : Nat} {b : QueueBase} {job inform : VpiVecval},
      lookupQueue base (some i) = some (idx, b) → b.head + b.elems < 2 ^ 31 →
        b.number_of_adds < UINT64_MAX → QueueCall.Fits base (.add (some i) job inform) := by
    intro base i idx b job inform hLook hHead hAdds idx' b' hLook'
    cases hLook.symm.trans hLook'
    exact fun _ => ⟨fun _ => hHead, hAdds⟩
  have hRemove : ∀ {base : List QueueBase} {i idx : Nat}, getIdIndex base i = some idx →
      idx < 2 ^ 31 → QueueCall.Fits base (.remove (some i)) := by
    intro base i idx hAt hLt i' idx' hId hAt'
    cases hId
    cases hAt.symm.trans hAt'
    exact hLt
  rcases queues_as_specified twoTypes (by simp [twoTypes, QueueCall.TimedFrom])
    (fitsRun_cons trivial rfl
    (fitsRun_cons trivial rfl
    (fitsRun_cons (hAdd rfl (by decide) (by decide)) rfl
    (fitsRun_cons (hAdd rfl (by decide) (by decide)) rfl
    (fitsRun_cons (hAdd rfl (by decide) (by decide)) rfl
    (fitsRun_cons (hAdd rfl (by decide) (by decide)) rfl
    (fitsRun_cons (hRemove rfl (by decide)) rfl
    (fitsRun_cons (hRemove rfl (by decide)) rfl trivial)))))))) with ⟨base, hRun, -⟩
  exact ⟨base, hRun⟩

----
-- Overflow
----

section Overflow

variable {b b' : QueueBase} {base : List QueueBase} {now : Nat}
  {job inform : VpiVecval}

theorem addToQueue_fields (h : addToQueue b job inform now = some (false, b')) :
    b'.head = b.head ∧ b'.elems = b.elems + 1 ∧
      b'.length = b.length ∧ b'.type = b.type ∧
      b'.number_of_adds = b.number_of_adds + 1 := by
  unfold addToQueue at h
  split at h
  · split at h
    · cases h
    · simp only [bind_eq_bind, bind_eq_some_iff] at h
      grind
  · cases h

theorem removeFromQueue_fields {pair : VpiVecval × VpiVecval}
    (h : removeFromQueue b now = some (some pair, b'))
    (hType : b.type = IVL_QUEUE_FIFO) (hEnd : b.head + 1 ≠ b.length) :
    b'.head = b.head + 1 ∧ b'.elems = b.elems - 1 ∧
      b'.length = b.length ∧ b'.type = b.type ∧
      b'.number_of_adds = b.number_of_adds := by
  have hLoc : removeLoc b = some (b.head, b.head + 1) := by
    unfold removeLoc
    rw [if_neg (by rw [hType]; decide), if_pos hType, if_neg hEnd]
  unfold removeFromQueue at h
  split at h
  · split at h
    · cases h
    · simp only [hLoc, bind_eq_bind, bind_some, bind_eq_some_iff] at h
      rcases h with ⟨elem, -, h⟩
      split at h
      · simp only [bind_eq_some_iff] at h
        grind
      · cases h
  · cases h

/-
  One FIFO queue of the greatest length, whose content starts
  at `head`.
-/
def OneQueue (head elems adds : Nat) (base : List QueueBase) : Prop :=
  ∃ b h, base = [b] ∧ b.id = 1 ∧ b.type = IVL_QUEUE_FIFO ∧
    b.length = 2 ^ 31 - 1 ∧ b.head = head ∧ b.elems = elems ∧
    b.number_of_adds = adds ∧ b.Represents h 0

def zeroWord : VpiVecval :=
  ⟨0, 0⟩

variable {head elems adds : Nat}

theorem lookup_one (hId : b.id = 1) : lookupQueue [b] (some 1) = some (0, b) := by
  simp [lookupQueue, getIdIndex, hId]

theorem OneQueue.add (h : OneQueue head elems adds base)
    (hRoom : elems + 1 < 2 ^ 31) (hFits : head + elems < 2 ^ 31) (hAdds : adds < UINT64_MAX) :
    ∃ reply base',
      (QueueCall.add (some 1) zeroWord zeroWord).step base 0 = some (reply, base') ∧
      OneQueue head (elems + 1) (adds + 1) base' := by
  rcases h with ⟨b, h, rfl, hId, hType, hLength, hHead, hElems, hNumber, hRep⟩
  have hRepElems := hRep.elems
  have hRepLength := hRep.length
  rcases @queue_add b h 0 hRep (by omega) (fun _ => by omega) (by omega) zeroWord zeroWord with
    ⟨b', hAdd, hId', hRep'⟩
  rcases addToQueue_fields hAdd with ⟨hHead', hElems', hLength', hType', hNumber'⟩
  refine ⟨.only .OK, [b'], ?_, b', _, rfl, by omega,
    hType'.trans hType, by omega, by omega, by omega, by omega, hRep'⟩
  simp only [QueueCall.step, sysQAdd, lookup_one hId, hAdd]
  rfl

theorem OneQueue.remove (h : OneQueue head (elems + 1) adds base) (hEnd : head + 1 < 2 ^ 31 - 1) :
    ∃ reply base',
      (QueueCall.remove (some 1)).step base 0 = some (reply, base') ∧
      OneQueue (head + 1) elems adds base' := by
  rcases h with ⟨b, h, rfl, hId, hType, hLength, hHead, hElems, hNumber, hRep⟩
  have hRepElems := hRep.elems
  rcases hNext : h.next with _ | ⟨e, rest⟩
  · rw [next_none hNext, List.length_nil] at hRepElems
    omega
  · rcases queue_remove hRep (Nat.two_pow_pos 64) hNext with ⟨b', hRemove, hId', hRep'⟩
    rcases removeFromQueue_fields hRemove hType (by omega) with
      ⟨hHead', hElems', hLength', hType', hNumber'⟩
    refine ⟨⟨.OK, some (e.job, e.inform), none⟩, [b'], ?_, b', _, rfl, by omega,
      hType'.trans hType, by omega, by omega, by omega, by omega, hRep'⟩
    have hLook : lookupQueue32 [b] (some 1) = some (0, b) := by
      simp [lookupQueue32, getIdIndex, hId]
    simp only [QueueCall.step, sysQRemove, hLook, hRemove]
    rfl

/- The place of the new element does not fit. -/
theorem OneQueue.overflow (h : OneQueue head elems adds base) (hRoom : elems + 1 < 2 ^ 31)
    (hOver : 2 ^ 31 ≤ head + elems) :
    (QueueCall.add (some 1) zeroWord zeroWord).step base 0 =
      none := by
  rcases h with ⟨b, h, rfl, hId, hType, hLength, hHead, hElems, hNumber, hRep⟩
  have hLoc : addLoc b = none := by
    unfold addLoc addInt32
    rw [if_neg (by rw [hType]; decide), if_pos hType, if_neg (by omega)]
    rfl
  have hAdd : addToQueue b zeroWord zeroWord 0 = none := by
    unfold addToQueue
    rw [if_pos (by omega), if_neg (by omega), hLoc]
    rfl
  simp only [QueueCall.step, sysQAdd, lookup_one hId, hAdd]
  rfl

theorem run_none {call : QueueCall} {calls : List (Nat × QueueCall)}
    {reply : QueueReply} {base' : List QueueBase} (hStep : call.step base now = some (reply, base'))
    (hRun : QueueCall.run base' calls = none) :
    QueueCall.run base ((now, call) :: calls) = none := by
  rw [QueueCall.run, hStep]
  simp only [bind_eq_bind, bind_some, hRun, Option.bind_none]

/- A job leaves and a job comes, so many times. -/
def turns : Nat → List (Nat × QueueCall) → List (Nat × QueueCall)
| 0, calls => calls
| n + 1, calls => (0, .remove (some 1)) :: (0, .add (some 1) zeroWord zeroWord) :: turns n calls

theorem run_turns {calls : List (Nat × QueueCall)} (n head : Nat)
    (base : List QueueBase) (h : OneQueue head 3 (head + 3) base) (hFits : head + n + 3 ≤ 2 ^ 31)
    (hRest : ∀ base', OneQueue (head + n) 3 (head + n + 3)
      base' → QueueCall.run base' calls = none) : QueueCall.run base (turns n calls) = none := by
  induction n generalizing head base with
  | zero => exact hRest base h
  | succ n ih =>
    rcases h.remove (by omega) with ⟨reply₁, base₁, hStep₁, h₁⟩
    rcases h₁.add (by decide) (by omega) (by unfold UINT64_MAX; omega) with
      ⟨reply₂, base₂, hStep₂, h₂⟩
    apply run_none hStep₁
    apply run_none hStep₂
    grind

theorem timedFrom_zero (calls : List (Nat × QueueCall)) (hZero : ∀ c ∈ calls, c.1 = 0) :
    QueueCall.TimedFrom 0 calls := by
  induction calls with
  | nil => trivial
  | cons entry calls ih =>
    rcases entry with ⟨now, call⟩
    obtain rfl : now = 0 := hZero _ List.mem_cons_self
    exact ⟨Nat.le_refl 0, Nat.two_pow_pos 64, ih fun c hc => hZero c (List.mem_cons_of_mem _ hc)⟩

theorem turns_zero {calls : List (Nat × QueueCall)} (hZero : ∀ c ∈ calls, c.1 = 0) (n : Nat) :
    ∀ c ∈ turns n calls, c.1 = 0 := by
  induction n with
  | zero => exact hZero
  | succ n ih =>
    intro c hc
    rcases List.mem_cons.mp hc with rfl | hc
    · rfl
    · grind

end Overflow

/-
  A FIFO queue of length `2 ^ 31 - 1` that never holds more
  than three jobs.
-/
def overflowCalls : List (Nat × QueueCall) :=
  (0, .initialise (some 1) (some IVL_QUEUE_FIFO) (some (2 ^ 31 - 1)) true) ::
    (0, .add (some 1) zeroWord zeroWord) ::
    (0, .add (some 1) zeroWord zeroWord) ::
    (0, .add (some 1) zeroWord zeroWord) ::
    turns (2 ^ 31 - 3) [(0, .remove (some 1)), (0, .add (some 1) zeroWord zeroWord)]

theorem overflowCalls_timed : QueueCall.TimedFrom 0 overflowCalls := by
  apply timedFrom_zero
  have hTurns := @turns_zero
    [(0, .remove (some 1)), (0, .add (some 1) zeroWord zeroWord)]
    (by simp) (2 ^ 31 - 3)
  intro c hc
  simp only [overflowCalls, List.mem_cons] at hc
  rcases hc with rfl | rfl | rfl | rfl | hc
  · rfl
  · rfl
  · rfl
  · rfl
  · exact hTurns c hc

theorem overflowCalls_fail : QueueCall.run [] overflowCalls = none := by
  have hStart : OneQueue 0 0 0 [createQueue 1 IVL_QUEUE_FIFO (2 ^ 31 - 1)] :=
    ⟨_, _, rfl, rfl, rfl, rfl, rfl, rfl, rfl, queue_start 1 (Or.inl rfl) (by decide) 0⟩
  have hCreate : (QueueCall.initialise (some 1)
      (some IVL_QUEUE_FIFO) (some (2 ^ 31 - 1)) true).step []
        0 = some (.only .OK, [createQueue 1 IVL_QUEUE_FIFO (2 ^ 31 - 1)]) := rfl
  rcases hStart.add (by decide) (by decide) (by decide) with ⟨reply₁, base₁, hAdd₁, h₁⟩
  rcases h₁.add (by decide) (by decide) (by decide) with ⟨reply₂, base₂, hAdd₂, h₂⟩
  rcases h₂.add (by decide) (by decide) (by decide) with ⟨reply₃, base₃, hAdd₃, h₃⟩
  apply run_none hCreate
  apply run_none hAdd₁
  apply run_none hAdd₂
  apply run_none hAdd₃
  apply run_turns (2 ^ 31 - 3) 0 base₃ h₃ (by decide)
  intro base' h'
  rcases h'.remove (by decide) with ⟨reply, base'', hStep, h''⟩
  apply run_none hStep
  rw [QueueCall.run, h''.overflow (by decide) (by decide)]
  rfl

/-
  After `2 ^ 31 - 2` jobs have left the queue, the place for
  the next one is computed with an overflow.
-/
theorem queue_place_overflows :
    ¬∀ calls, QueueCall.TimedFrom 0 calls →
      ∃ base, QueueCall.run [] calls =
        some ((QueueCall.specRun (fun _ => none) calls).1,
          base) := by
  intro hClaim
  rcases hClaim overflowCalls overflowCalls_timed with ⟨base, hRun⟩
  rw [overflowCalls_fail] at hRun
  cases hRun

end EpicSim
