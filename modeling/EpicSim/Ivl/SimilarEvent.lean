import EpicSim.Lib.CText
import EpicSim.Lib.Matching
import EpicSim.Ivl.ProbeSearch

/-
  Similar events. Two events are similar when their probes
  match one to one by edge and by the nexus of each pin, and
  then whoever waits for the one may wait for the other.

  The search compares the first pin of a probe with any pin,
  a quick search compares two probes in their order and by
  the first pin of the second one, and it trusts the nexuses
  that links remember. Where this makes no difference the
  search finds the similar events.
-/

namespace EpicSim

open List (mem_cons mem_filter mem_map mem_cons_self length_cons mem_singleton mem_singleton_self
  mem_cons_of_mem map_cons count_pos_iff)
open Option (bind_eq_bind bind_some some_inj)
open Matching

variable {α ν π ε σ ω : Type}

----
-- Similarity
----

namespace EventTable

variable (t : EventTable α π ε σ) (connected : α → α → Prop)

/- The probes have one edge, and one nexus pin by pin. -/
def SameProbe (p q : π) : Prop :=
  t.edge p = t.edge q ∧ List.Forall₂ connected (t.pins p) (t.pins q)

/- The events have an identical set of probes, not empty. -/
def Similar (e f : ε) : Prop :=
  t.probes_ e ≠ [] ∧ Matched (t.SameProbe connected) (t.probes_ e) (t.probes_ f)

def NoDuplicates (e : ε) : Prop :=
  ∀ p ∈ t.probes_ e, ∀ q ∈ t.probes_ e, t.SameProbe connected p q → p = q

/-
  What the search takes for granted. A probe with a later
  pin on the nexus of the first pin has its first pin there
  as well, if the later pins agree. Two edges are never met
  in the opposite order. Second edges on one nexus agree in
  all their pins. Remembered nexuses are right.
-/
structure Tellable [DecidableEq α] [DecidableEq ν] [DecidableEq ε] [DecidableEq σ]
    (c : CachedLinks α ν) (e : ε) : Prop where
  first : ∀ p ∈ t.probes_ e, ∀ q,
    t.mayMerge e (t.event q) = true → t.edge p = t.edge q →
    List.Forall₂ connected (t.pins p).tail (t.pins q).tail →
    (∃ l ∈ (t.pins q).tail, connected (t.pin0 p) l) →
    connected (t.pin0 p) (t.pin0 q)
  order : t.quickpath e = true → ∀ p p', t.probes_ e = [p, p'] →
    ∀ f q q', t.mayMerge e f = true → t.probes_ f = [q, q'] →
    ¬(t.SameProbe connected p q' ∧ t.SameProbe connected p' q)
  second : t.quickpath e = true →
    ∀ p p', t.probes_ e = [p, p'] →
    ∀ f q q', t.mayMerge e f = true → t.probes_ f = [q, q'] →
    connected (t.pin0 p') (t.pin0 q') →
    List.Forall₂ connected (t.pins p').tail (t.pins q').tail
  current : t.quickpath e = true → (t.probes_ e).length = 2 → c.Current

end EventTable

section Similarity

variable {t : EventTable α π ε σ} {fresh : α → ν} {connected : α → α → Prop}
  {ring : ν → List α} {owner : α → Option ν}
  {c : CachedLinks α ν} {e : ε}

theorem pins_eq (t : EventTable α π ε σ) (p : π) : t.pins p = t.pin0 p :: (t.pins p).tail :=
  (List.cons_head_tail (t.pin_zero p)).symm

theorem sameProbe_iff (p q : π) :
    t.SameProbe connected p q ↔ t.edge p = t.edge q ∧
      connected (t.pin0 p) (t.pin0 q) ∧
      List.Forall₂ connected (t.pins p).tail (t.pins q).tail := by
  rw [EventTable.SameProbe, pins_eq t p, pins_eq t q, List.forall₂_cons]
  rfl

/- Two probes that match a third one match each other. -/
theorem sameProbe_join {p p' q : π} (hEquiv : Equivalence connected)
    (h : t.SameProbe connected p q) (h' : t.SameProbe connected p' q) :
    t.SameProbe connected p p' := by
  have hJoin : ∀ {ls ms rs : List α},
      List.Forall₂ connected ls rs →
      List.Forall₂ connected ms rs →
      List.Forall₂ connected ls ms := by
    intro ls ms rs hl hm
    induction hl generalizing ms with
    | nil =>
      cases hm
      exact List.Forall₂.nil
    | cons hHead _ ih =>
      cases hm with
      | cons hHead' hTail' =>
        exact List.Forall₂.cons (hEquiv.trans hHead (hEquiv.symm hHead')) (ih hTail')
  exact ⟨h.1.trans h'.1.symm, hJoin h.2 h'.2⟩

/- One probe each and equal counts make similar events. -/
theorem similar_iff (hEquiv : Equivalence connected) (hOnce : t.NoDuplicates connected e)
    (hProbes : t.probes_ e ≠ []) (f : ε) :
    t.Similar connected e f ↔
      (∀ p ∈ t.probes_ e, ∃ q ∈ t.probes_ f, t.SameProbe connected p q) ∧
      (t.probes_ f).length = (t.probes_ e).length := by
  rw [EventTable.Similar, matched_iff (t.once e)]
  · exact and_iff_right hProbes
  · intro p hp p' hp' q hpq hpq'
    exact hOnce p hp p' hp' (sameProbe_join hEquiv hpq hpq')

variable [DecidableEq α] [DecidableEq ν] [DecidableEq π] [DecidableEq ε] [DecidableEq σ]

/- Where the first pins can be told, a probe that is found matches. -/
theorem found_iff {p q : π} {isquick : Nat} (hTell : t.Tellable connected c e)
    (hp : p ∈ t.probes_ e) (hMerge : t.mayMerge e (t.event q) = true) :
    t.Found connected p isquick q ↔
      t.SameProbe connected p q ∧
        t.QuickFound connected p isquick q := by
  rw [sameProbe_iff]
  constructor
  · rintro ⟨⟨l, hl, hOn⟩, hJudged⟩
    refine ⟨⟨hJudged.edge, ?_, hJudged.later⟩, hJudged.quick⟩
    rw [pins_eq t q] at hl
    rcases mem_cons.mp hl with rfl | hTail
    · exact hOn
    · exact hTell.first p hp q hMerge hJudged.edge hJudged.later ⟨l, hTail, hOn⟩
  · rintro ⟨⟨hEdge, hFirst, hLater⟩, hQuick⟩
    refine ⟨⟨t.pin0 q, pin0_mem t q, hFirst⟩, ?_, hEdge, hLater, hQuick⟩
    rintro rfl
    rw [(t.listed q e).mp hp] at hMerge
    simp [EventTable.mayMerge] at hMerge

----
-- The Two Searches
----

/- The candidates that survive have a probe for each one. -/
omit [DecidableEq σ] in
theorem cullLoop_spec {rest : List π} {candidate_events : List ε}
    (h : SearchState fresh connected ring owner c)
    (hFresh : Function.Injective fresh) (hAlive : t.Alive c) :
    ∃ left c', t.cullLoop fresh rest candidate_events c = some (left, c') ∧
      ∀ f, f ∈ left ↔ f ∈ candidate_events ∧
        ∀ p ∈ rest, ∃ q ∈ t.probes_ f,
          t.Found connected p 0 q := by
  induction rest generalizing candidate_events c ring owner with
  | nil =>
    refine ⟨candidate_events, c, rfl, ?_⟩
    simp
  | cons cur enext ih =>
    have hReady : t.QuickReady cur 0 c := by
      intro hTwo
      cases hTwo
    rcases find_similar_probes_spec h hFresh hAlive hReady with
      ⟨similar_probes, c₁, hProbes, ⟨ring₁, owner₁, hState₁, hKeeps₁, -⟩, hSimilar⟩
    have hAlive₁ : t.Alive c₁ := by
      intro p l hl
      rw [hKeeps₁.links]
      exact hAlive p l hl
    have hTmp : ∀ f, f ∈ ((similar_probes.map t.event).filter
        (· ∈ candidate_events)).dedup ↔
        f ∈ candidate_events ∧ ∃ q ∈ t.probes_ f,
          t.Found connected cur 0 q := by
      intro f
      rw [List.mem_dedup, mem_filter, mem_map, decide_eq_true_iff]
      simp only [hSimilar, t.listed, and_comm]
    simp only [EventTable.cullLoop, hProbes, bind_eq_bind, bind_some]
    split
    · next hNil =>
        refine ⟨[], c₁, rfl, ?_⟩
        intro f
        constructor
        · intro hf
          cases hf
        · rintro ⟨hf, hAll⟩
          rw [← hNil, hTmp]
          exact ⟨hf, hAll cur mem_cons_self⟩
    · rcases ih hState₁ hAlive₁ with ⟨left, c₂, hLoop, hLeft⟩
      refine ⟨left, c₂, hLoop, ?_⟩
      intro f
      rw [hLeft, hTmp, List.forall_mem_cons, and_assoc]

omit [DecidableEq α] [DecidableEq π] [DecidableEq ε] [DecidableEq σ] in
theorem quickpath_length (hQuick : t.quickpath e = true) : (t.probes_ e).length ≤ 2 := by
  simp only [EventTable.quickpath, Bool.and_eq_true, decide_eq_true_eq] at hQuick
  exact hQuick.2

section

variable {first : π} {enext : List π} (h : SearchState fresh connected ring owner c)
  (hFresh : Function.Injective fresh) (hAlive : t.Alive c)

include h hFresh hAlive

/- A quick search looks at the first probe only. -/
theorem quick_search (hCurrent : (t.probes_ e).length = 2 → c.Current)
    (hQuick : t.quickpath e = true) (hProbes : t.probes_ e = first :: enext) :
    ∃ found c', t.find_similar_event fresh e c = some (found, c') ∧
      ∀ f, f ∈ found ↔ t.mayMerge e f = true ∧
        ∃ q ∈ t.probes_ f,
          t.Found connected first (enext.length + 1) q := by
  have hReady : t.QuickReady first (enext.length + 1) c := by
    intro hTwo
    have hFirst : t.event first = e := by
      rw [← t.listed, hProbes]
      exact mem_cons_self
    rw [hFirst, hProbes]
    refine ⟨hCurrent ?_, ?_⟩
    · rw [hProbes]
      exact hTwo
    · rcases enext with _ | ⟨mine, _ | ⟨p, enext⟩⟩
      · cases hTwo
      · exact ⟨mine, rfl⟩
      · simp at hTwo
  rcases find_similar_probes_spec h hFresh hAlive hReady with ⟨first_probes, c', hFind, -, hFound⟩
  refine ⟨(first_probes.map t.event).filter (t.mayMerge e), c', ?_, ?_⟩
  · rw [EventTable.find_similar_event, hProbes]
    simp only [hQuick, if_true, hFind, bind_eq_bind, bind_some]
  · intro f
    rw [mem_filter, mem_map]
    simp only [hFound, t.listed, and_comm]

/- A general search asks for a probe for each probe. -/
theorem general_search (hQuick : ¬t.quickpath e = true) (hProbes : t.probes_ e = first :: enext) :
    ∃ found c', t.find_similar_event fresh e c = some (found, c') ∧
      ∀ f, f ∈ found ↔ t.mayMerge e f = true ∧
        (∀ p ∈ t.probes_ e, ∃ q ∈ t.probes_ f, t.Found connected p 0 q) ∧
        (t.probes_ f).length = (t.probes_ e).length := by
  have hReady : t.QuickReady first 0 c := by
    intro hTwo
    cases hTwo
  rcases find_similar_probes_spec h hFresh hAlive hReady with
    ⟨first_probes, c₁, hFind, ⟨ring₁, owner₁, hState₁, hKeeps₁, -⟩, hFound⟩
  have hAlive₁ : t.Alive c₁ := by
    intro p l hl
    rw [hKeeps₁.links]
    exact hAlive p l hl
  have hEvents : ∀ f, f ∈ first_probes.map t.event ↔
      ∃ q ∈ t.probes_ f, t.Found connected first 0 q := by
    intro f
    rw [mem_map]
    simp only [hFound, t.listed, and_comm]
  simp only [EventTable.find_similar_event, hProbes, if_neg hQuick, hFind, bind_eq_bind, bind_some]
  split
  · next hNil =>
      refine ⟨[], c₁, rfl, ?_⟩
      intro f
      constructor
      · intro hf
        cases hf
      · rintro ⟨-, hAll, -⟩
        rw [← hNil, hEvents]
        exact hAll first mem_cons_self
  · rcases @cullLoop_spec _ _ _ _ _ t _ _ _ _ _ _ _ _ _ enext
        (first_probes.map t.event).dedup hState₁ hFresh hAlive₁ with ⟨left, c₂, hCull, hLeft⟩
    simp only [hCull]
    refine ⟨_, c₂, rfl, ?_⟩
    intro f
    rw [mem_filter, hLeft, List.mem_dedup, hEvents, List.forall_mem_cons,
      Bool.and_eq_true, decide_eq_true_iff]
    grind

----
-- Exactly The Similar Events
----

end

omit [DecidableEq α] [DecidableEq π] [DecidableEq ε] [DecidableEq σ] in
theorem singleton_of_length {f : ε} {q : π} (hq : q ∈ t.probes_ f)
    (hLength : (t.probes_ f).length = 1) : t.probes_ f = [q] := by
  rcases List.length_eq_one_iff.mp hLength with ⟨q', hList⟩
  rw [hList, mem_singleton] at hq
  rw [hList, hq]

/- A single edge is found exactly at similar events. -/
theorem similar_single {p : π} {f : ε} (hEquiv : Equivalence connected)
    (hOnce : t.NoDuplicates connected e) (hTell : t.Tellable connected c e)
    (hProbes : t.probes_ e = [p]) (hMerge : t.mayMerge e f = true) :
    (∃ q ∈ t.probes_ f, t.Found connected p 1 q) ↔
      t.Similar connected e f := by
  have hp : p ∈ t.probes_ e := by
    rw [hProbes]
    exact mem_singleton_self p
  rw [similar_iff hEquiv hOnce (List.ne_nil_of_mem hp), hProbes]
  constructor
  · rintro ⟨q, hq, hFound⟩
    have hf := (t.listed q f).mp hq
    rw [← hf] at hMerge
    rcases (found_iff hTell hp hMerge).mp hFound with ⟨hSame, hQuick⟩
    have hList := hQuick.1 rfl
    grind
  · rintro ⟨hAll, hLength⟩
    rcases hAll p (mem_singleton_self p) with ⟨q, hq, hSame⟩
    have hf := (t.listed q f).mp hq
    have hList := singleton_of_length hq hLength
    refine ⟨q, hq, (found_iff hTell hp ?_).mpr ⟨hSame, ?_⟩⟩
    · rw [hf]
      exact hMerge
    · refine ⟨fun _ => ?_, fun hTwo => absurd hTwo (by decide)⟩
      rw [hf]
      exact hList

/- Two edges are found exactly at similar events. -/
theorem similar_pair {p p' : π} {f : ε} (hEquiv : Equivalence connected)
    (hOnce : t.NoDuplicates connected e) (hTell : t.Tellable connected c e)
    (hQuickpath : t.quickpath e = true) (hProbes : t.probes_ e = [p, p'])
    (hMerge : t.mayMerge e f = true) :
    (∃ q ∈ t.probes_ f, t.Found connected p 2 q) ↔
      t.Similar connected e f := by
  have hp : p ∈ t.probes_ e := by
    rw [hProbes]
    exact mem_cons_self
  have hp' : p' ∈ t.probes_ e := by grind
  have hFirst : t.event p = e := (t.listed p e).mp hp
  have hApart : p ≠ p' := by
    have hNodup := t.once e
    rw [hProbes] at hNodup
    exact List.ne_of_not_mem_cons (List.nodup_cons.mp hNodup).1
  have hNext : t.enext_ p = some p' := by
    apply enext_second
    rw [hFirst, hProbes]
  rw [similar_iff hEquiv hOnce (List.ne_nil_of_mem hp)]
  constructor
  · rintro ⟨q, hq, hFound⟩
    have hf := (t.listed q f).mp hq
    have hMergeQ := hMerge
    rw [← hf] at hMergeQ
    rcases (found_iff hTell hp hMergeQ).mp hFound with ⟨hSame, hQuick⟩
    rcases hQuick.2 rfl with ⟨mine, q', hMine, hList, hEdge, hOn⟩
    rw [hf] at hList
    rw [hNext, some_inj] at hMine
    rw [← hMine] at hEdge hOn
    have hOn := hEquiv.symm hOn
    have hSame' : t.SameProbe connected p' q' := by
      rw [sameProbe_iff]
      exact ⟨hEdge.symm, hOn, hTell.second hQuickpath p p' hProbes f q q' hMerge hList hOn⟩
    grind
  · rintro ⟨hAll, hLength⟩
    rw [hProbes] at hLength
    rcases List.length_eq_two.mp hLength with ⟨q, q', hList⟩
    have hTwo : ∀ r ∈ t.probes_ e,
        t.SameProbe connected r q ∨ t.SameProbe connected r q' := by grind
    have hOne : ∀ x, ¬(t.SameProbe connected p x ∧
        t.SameProbe connected p' x) := by
      rintro x ⟨hpx, hpx'⟩
      exact hApart (hOnce p hp p' hp' (sameProbe_join hEquiv hpx hpx'))
    -- the crossed order is the one that is never met
    have hStraight : t.SameProbe connected p q ∧
        t.SameProbe connected p' q' := by
      have hCrossed := hTell.order hQuickpath p p' hProbes f q q' hMerge hList
      grind
    have hq : q ∈ t.probes_ f := by
      rw [hList]
      exact mem_cons_self
    have hf := (t.listed q f).mp hq
    refine ⟨q, hq, (found_iff hTell hp ?_).mpr ⟨hStraight.1, ?_⟩⟩
    · rw [hf]
      exact hMerge
    · refine ⟨fun hOne => absurd hOne (by decide), fun _ => ⟨p', q', hNext, ?_, ?_, ?_⟩⟩
      · rw [hf]
        exact hList
      · exact hStraight.2.1.symm
      · exact hEquiv.symm ((sameProbe_iff p' q').mp hStraight.2).2.1

/- A search finds exactly the similar events. -/
theorem find_similar_event_spec (h : SearchState fresh connected ring owner c)
    (hFresh : Function.Injective fresh) (hAlive : t.Alive c)
    (hOnce : t.NoDuplicates connected e) (hTell : t.Tellable connected c e) :
    ∃ found c', t.find_similar_event fresh e c = some (found, c') ∧
      ∀ f, f ∈ found ↔ t.mayMerge e f = true ∧
        t.Similar connected e f := by
  have hEquiv := h.equivalence
  rcases hProbes : t.probes_ e with _ | ⟨first, enext⟩
  · refine ⟨[], c, ?_, ?_⟩
    · rw [EventTable.find_similar_event, hProbes]
    · intro f
      simp [EventTable.Similar, hProbes]
  · by_cases hQuick : t.quickpath e = true
    · rcases quick_search h hFresh hAlive (hTell.current hQuick) hQuick hProbes with
        ⟨found, c', hRun, hFound⟩
      refine ⟨found, c', hRun, ?_⟩
      intro f
      rw [hFound]
      apply and_congr_right
      intro hMerge
      have hShort := quickpath_length hQuick
      rw [hProbes] at hShort
      rcases enext with _ | ⟨p', _ | ⟨p'', enext⟩⟩
      · exact similar_single hEquiv hOnce hTell hProbes hMerge
      · exact similar_pair hEquiv hOnce hTell hQuick hProbes hMerge
      · simp only [length_cons] at hShort
        omega
    · rcases general_search h hFresh hAlive hQuick hProbes with ⟨found, c', hRun, hFound⟩
      refine ⟨found, c', hRun, ?_⟩
      intro f
      rw [hFound, similar_iff hEquiv hOnce (hProbes ▸ List.cons_ne_nil first enext)]
      apply and_congr_right
      intro hMerge
      apply and_congr_left
      intro _
      apply forall₂_congr
      intro p hp
      apply exists_congr
      intro q
      apply and_congr_right
      intro hq
      rw [← (t.listed q f).mp hq] at hMerge
      rw [found_iff hTell hp hMerge]
      apply and_iff_left
      exact ⟨fun hOne => absurd hOne (by decide), fun hTwo => absurd hTwo (by decide)⟩

end Similarity

----
-- Waking Up
----

/- The nexus of a link, if it has one. -/
def CachedLinks.nexusOf [DecidableEq α] (c : CachedLinks α ν) (l : α) : Option ν :=
  (c.store.linkedNexus l).getD none

/-
  An event happens when one of its probes sees its edge on
  the nexuses of its pins.
-/
def EventTable.Wakes (t : EventTable α π ε σ) (nexusOf : α → Option ν)
    (sees : ProbeEdge → List (Option ν) → Prop) (e : ε) : Prop :=
  ∃ p ∈ t.probes_ e, sees (t.edge p) ((t.pins p).map nexusOf)

/- A statement wakes up with any of its events. -/
def WaitTable.Wakes [DecidableEq ω] [DecidableEq ε] (w : WaitTable ω ε) (happens : ε → Prop)
    (x : ω) : Prop :=
  ∃ e, some e ∈ w.events_ x ∧ happens e

/- Similar events happen together. -/
theorem similar_wakes {t : EventTable α π ε σ} {connected : α → α → Prop} {nexusOf : α → Option ν}
    {sees : ProbeEdge → List (Option ν) → Prop} {e f : ε}
    (hNexus : ∀ a b, connected a b → nexusOf a = nexusOf b) (h : t.Similar connected e f) :
    t.Wakes nexusOf sees e ↔ t.Wakes nexusOf sees f := by
  apply h.2.exists_congr
  rintro p q ⟨hEdge, hPins⟩
  have hSame : ∀ {ls rs : List α},
      List.Forall₂ connected ls rs →
      ls.map nexusOf = rs.map nexusOf := by
    intro ls rs hAll
    induction hAll with
    | nil => rfl
    | cons hHead _ ih => rw [map_cons, map_cons, hNexus _ _ hHead, ih]
  rw [hEdge, hSame hPins]

section Waits

variable [DecidableEq ω] [DecidableEq ε]
  {w : WaitTable ω ε} {this that : ε}

/- One replacement of an event by one that happens with it. -/
theorem waitReplace_spec {x : ω} {waits : List ω} (hWaits : w.wlist_ this = x :: waits)
    (hApart : this ≠ that) :
    ∃ w', w.waitReplace x this that = some w' ∧
      w'.wlist_ this = waits ∧
      (∀ f, f ≠ that → w.wlist_ f = [] → w'.wlist_ f = []) ∧
      ∀ happens : ε → Prop, (happens this ↔ happens that) →
        ∀ y, w'.Wakes happens y ↔ w.Wakes happens y := by
  have hMem : some this ∈ w.events_ x := by
    rw [← count_pos_iff, ← w.counted, hWaits, count_pos_iff]
    exact mem_cons_self
  have hRun : w.waitReplace x this that = some
      ⟨w.replacedEvents x this that, w.replacedWaits x this that,
        w.counted_replaced hMem that⟩ := by
    rw [WaitTable.waitReplace, dif_pos hMem]
  refine ⟨_, hRun, ?_, ?_, ?_⟩
  · simp only [WaitTable.replacedWaits, Function.update_of_ne hApart,
      Function.update_self, hWaits, List.erase_cons_head]
  · intro f hf hNil
    have hft : f ≠ this := by
      rintro rfl
      rw [hWaits] at hNil
      cases hNil
    simp only [WaitTable.replacedWaits, Function.update_of_ne hf, Function.update_of_ne hft, hNil]
  · intro happens hSame y
    by_cases hy : y = x
    · rw [hy]
      -- only this list of events has changed
      have hChange : ∀ g, some g ∈
          (w.events_ x).replace (some this) (some that) →
          some g ∈ w.events_ x ∨ g = that := by
        intro g hg
        have hCount := WaitTable.count_replace (b := some that) hMem (some g)
        grind
      have hNew : some that ∈ (w.events_ x).replace (some this) (some that) := by
        have hCount := WaitTable.count_replace (b := some that) hMem (some that)
        grind
      have hOld : ∀ g, g ≠ this → some g ∈ w.events_ x →
          some g ∈ (w.events_ x).replace (some this) (some that) := by
        intro g hg hIn
        have hCount := WaitTable.count_replace (b := some that) hMem (some g)
        grind
      simp only [WaitTable.Wakes, WaitTable.replacedEvents, Function.update_self]
      constructor
      · grind
      · grind
    · simp only [WaitTable.Wakes, WaitTable.replacedEvents, Function.update_of_ne hy]

/- All who wait for an event wait for the other one after. -/
theorem replace_event_spec {fuel : Nat} (hApart : this ≠ that)
    (hFuel : (w.wlist_ this).length ≤ fuel) :
    ∃ w', WaitTable.replace_event this that fuel w = some w' ∧
      w'.wlist_ this = [] ∧
      (∀ f, f ≠ that → w.wlist_ f = [] → w'.wlist_ f = []) ∧
      ∀ happens : ε → Prop, (happens this ↔ happens that) →
        ∀ y, w'.Wakes happens y ↔ w.Wakes happens y := by
  induction fuel generalizing w with
  | zero =>
    have hNil := List.length_eq_zero_iff.mp (Nat.le_zero.mp hFuel)
    refine ⟨w, ?_, hNil, fun f _ hf => hf, fun _ _ y => Iff.rfl⟩
    rw [WaitTable.replace_event, if_pos hNil]
  | succ fuel ih =>
    rw [WaitTable.replace_event]
    rcases hWaits : w.wlist_ this with _ | ⟨x, waits⟩
    · exact ⟨w, rfl, hWaits, fun f _ hf => hf, fun _ _ y => Iff.rfl⟩
    · rcases waitReplace_spec hWaits hApart with ⟨w₁, hStep, hRest, hEmpty₁, hWakes₁⟩
      have hShort : (w₁.wlist_ this).length ≤ fuel := by grind
      grind

theorem replaceAll_spec {found : List ε} (hApart : ∀ f ∈ found, f ≠ that) :
    ∃ w', WaitTable.replaceAll that found w = some w' ∧
      (∀ f ∈ found, w'.wlist_ f = []) ∧
      (∀ f, f ≠ that → w.wlist_ f = [] → w'.wlist_ f = []) ∧
      ∀ happens : ε → Prop,
        (∀ f ∈ found, happens f ↔ happens that) →
        ∀ y, w'.Wakes happens y ↔ w.Wakes happens y := by
  induction found generalizing w with
  | nil =>
    refine ⟨w, rfl, ?_, fun f _ hf => hf, fun _ _ y => Iff.rfl⟩
    intro f hf
    cases hf
  | cons tmp found ih =>
    have hTmp := hApart tmp mem_cons_self
    rcases replace_event_spec (w := w) hTmp (Nat.le_refl _) with
      ⟨w₁, hStep, hDone₁, hEmpty₁, hWakes₁⟩
    rcases ih (w := w₁) (fun f hf => hApart f (mem_cons_of_mem _ hf)) with
      ⟨w₂, hLoop, hDone₂, hEmpty₂, hWakes₂⟩
    refine ⟨w₂, ?_, ?_, ?_, ?_⟩
    · rw [WaitTable.replaceAll]
      simp only [hStep]
      exact hLoop
    · grind
    · grind
    · grind

end Waits

----
-- Merging Similar Events
----

section Exact

variable [DecidableEq α] [DecidableEq ν] [DecidableEq π]
  [DecidableEq ε] [DecidableEq σ] [DecidableEq ω]

theorem CachedRun.searchState {c : CachedLinks α ν} {connected : α → α → Prop}
    {fresh : α → ν} (h : CachedRun c connected) (hFree : ∀ l, c.store.heap (fresh l) = none) :
    ∃ ring owner,
      SearchState fresh connected ring owner c := by
  rcases h.linkRun.rings with ⟨ring, owner, hRings, rfl⟩
  exact ⟨ring, owner, hRings, fun _ _ => Iff.rfl, fun l _ => hFree l⟩

/-
  After any history of connections, unlinks, destructions
  and lookups, and where the search can tell them, it finds
  exactly the similar events; then nobody waits for them any
  more, and everybody is woken as before.
-/
theorem similar_event_exact {c : CachedLinks α ν} {connected : α → α → Prop}
    (t : EventTable α π ε σ) (fresh : α → ν) (e : ε)
    (w : WaitTable ω ε) (hRun : CachedRun c connected)
    (hAlive : t.Alive c) (hFresh : Function.Injective fresh)
    (hFree : ∀ l, c.store.heap (fresh l) = none)
    (hOnce : t.NoDuplicates connected e) (hTell : t.Tellable connected c e) :
    ∃ found c' w',
      t.find_similar_event fresh e c = some (found, c') ∧
      (∀ f, f ∈ found ↔ t.mayMerge e f = true ∧ t.Similar connected e f) ∧
      t.mergeSimilar fresh e c w = some (found, c', w') ∧
      (∀ f ∈ found, w'.wlist_ f = []) ∧
      ∀ sees x, w'.Wakes (t.Wakes c.nexusOf sees) x ↔
        w.Wakes (t.Wakes c.nexusOf sees) x := by
  rcases hRun.searchState hFree with ⟨ring, owner, hState⟩
  rcases find_similar_event_spec hState hFresh hAlive hOnce hTell with ⟨found, c', hFind, hFound⟩
  have hApart : ∀ f ∈ found, f ≠ e := by
    rintro f hf rfl
    have hMerge := ((hFound f).mp hf).1
    simp [EventTable.mayMerge] at hMerge
  have hNexus : ∀ a b, connected a b →
      c.nexusOf a = c.nexusOf b := by
    intro a b hab
    rw [CachedLinks.nexusOf, CachedLinks.nexusOf, hState.rings.linkedNexus,
      hState.rings.linkedNexus, hState.owner_eq hab]
  rcases replaceAll_spec (w := w) hApart with ⟨w', hReplace, hDone, -, hWakes⟩
  refine ⟨found, c', w', hFind, hFound, ?_, hDone, ?_⟩
  · simp only [EventTable.mergeSimilar, hFind, hReplace, bind_eq_bind, bind_some]
  · intro sees
    apply hWakes
    intro f hf
    exact (similar_wakes hNexus ((hFound f).mp hf).2).symm

end Exact

/- Two events with the same two edges, on two nets. -/
def twoEdges : EventTable (Fin 4) (Fin 4) (Fin 2) Unit where
  get_obj := fun l => some (.probe l)
  pins := fun p => [p]
  edge := fun p => if p.val % 2 = 0 then .POSEDGE else .NEGEDGE
  event := fun p => if p.val < 2 then 0 else 1
  probes_ := fun e => if e = 0 then [0, 1] else [2, 3]
  scope := fun _ => ()
  is_auto := fun _ => true
  pin_zero := by decide
  pin_object := by
    intro l p
    simp
  listed := by decide
  once := by decide

/- The links after an operation that does not fail. -/
def LinkStore.after (s : LinkStore α ν) [DecidableEq α] [DecidableEq ν]
    (op : LinkOp α ν) : LinkStore α ν :=
  (op.run s).getD s

def twoNets : LinkStore (Fin 4) Nat :=
  ((LinkStore.start {0, 1, 2, 3} fun _ => .INPUT).after (.connect 7 0 2)).after (.connect 8 1 3)

theorem CachedRun.after [DecidableEq α] [DecidableEq ν] {s : LinkStore α ν}
    (h : ∃ connected, CachedRun ⟨s, fun _ => none⟩ connected)
    (fresh : ν) (l r : α) (hAllowed : (LinkOp.connect fresh l r).Allowed s) :
    ∃ connected, CachedRun
      ⟨s.after (.connect fresh l r), fun _ => none⟩
      connected := by
  rcases h with ⟨connected, hRun⟩
  rcases hRun.linkRun.rings with ⟨ring, owner, hRings, -⟩
  rcases hRings.step _ hAllowed with ⟨s', -, -, hOp, -⟩
  have hAfter : s.after (.connect fresh l r) = s' := by
    rw [LinkStore.after, hOp]
    rfl
  rw [hAfter]
  exact ⟨_, CachedRun.link _ hRun hAllowed hOp⟩

theorem twoNets_run :
    ∃ connected : Fin 4 → Fin 4 → Prop,
      CachedRun ⟨twoNets, fun _ => none⟩ connected := by
  apply CachedRun.after
  · apply CachedRun.after
    · exact ⟨Eq, CachedRun.start _ _⟩
    · exact ⟨by decide, by decide, by decide, rfl⟩
  · exact ⟨by decide, by decide, by decide, rfl⟩

section TwoEdges

variable {connected : Fin 4 → Fin 4 → Prop}

theorem twoEdges_parity (p q : Fin 4) (h : twoEdges.SameProbe connected p q) :
    p.val % 2 = q.val % 2 := by
  have hEdges : ∀ p q, twoEdges.edge p = twoEdges.edge q →
      p.val % 2 = q.val % 2 := by
    decide
  exact hEdges p q h.1

theorem twoEdges_once : twoEdges.NoDuplicates connected 0 := by
  have hParity : ∀ p ∈ twoEdges.probes_ 0,
      ∀ q ∈ twoEdges.probes_ 0,
      p.val % 2 = q.val % 2 → p = q := by
    decide
  intro p hp q hq hSame
  exact hParity p hp q hq (twoEdges_parity p q hSame)

theorem twoEdges_tellable : twoEdges.Tellable connected ⟨twoNets, fun _ => none⟩ 0 := by
  have hList : ∀ e p p', twoEdges.probes_ e = [p, p'] →
      p.val % 2 = 0 ∧ p'.val % 2 = 1 := by
    decide
  refine ⟨?_, ?_, ?_, ?_⟩
  · rintro p - q - - - ⟨l, hl, -⟩
    cases hl
  · rintro - p p' hp f q q' - hq ⟨hCross, -⟩
    have hParity := twoEdges_parity p q' hCross
    rw [(hList 0 p p' hp).1, (hList f q q' hq).2] at hParity
    cases hParity
  · intro _ p p' _ f q q' _ _ _
    exact List.Forall₂.nil
  · intro _ _ x _ n hn
    cases hn

end TwoEdges

/- The second event is merged into the first one. -/
theorem similar_event_exact_edges :
    ∃ connected c',
      twoEdges.find_similar_event (fun l => l.val + 10) 0
        ⟨twoNets, fun _ => none⟩ = some ([1], c') ∧
      twoEdges.Similar connected 0 1 := by
  rcases twoNets_run with ⟨connected, hRun⟩
  have hAlive : twoEdges.Alive ⟨twoNets, fun _ => none⟩ := by
    rintro p l -
    revert l
    decide
  have hFresh : Function.Injective fun l : Fin 4 => l.val + 10 := by
    intro l r hEq
    simpa [Fin.ext_iff] using hEq
  rcases similar_event_exact twoEdges (fun l => l.val + 10) 0
      (⟨fun x => [some x], fun e => [e], by decide⟩ : WaitTable (Fin 2) (Fin 2)) hRun hAlive hFresh
      (by decide) twoEdges_once twoEdges_tellable with
    ⟨found, c', w', hFind, hFound, -⟩
  have hEval : (twoEdges.find_similar_event
      (fun l => l.val + 10) 0 ⟨twoNets, fun _ => none⟩).map Prod.fst = some [1] := by
    decide +kernel
  rw [hFind, Option.map_some, some_inj] at hEval
  have hEval : found = [1] := hEval
  rw [hEval] at hFind hFound
  exact ⟨connected, c', hFind, ((hFound 1).mp (mem_singleton_self 1)).2⟩

/-
  The first probe has both pins on one net. The other probe
  has its second pin on that net and its first pin elsewhere.
-/
def hiddenPin : EventTable (Fin 5) (Fin 2) (Fin 2) Unit where
  get_obj := fun l =>
    if l.val < 2 then some (.probe 0)
    else if l.val < 4 then some (.probe 1)
    else some .other
  pins := fun p => if p = 0 then [0, 1] else [2, 3]
  edge := fun _ => .ANYEDGE
  event := id
  probes_ := fun e => [e]
  scope := fun _ => ()
  is_auto := fun _ => false
  pin_zero := by decide
  pin_object := by decide
  listed := by decide
  once := by decide

def hiddenNets : LinkStore (Fin 5) Nat :=
  (((LinkStore.start {0, 1, 2, 3, 4} fun _ => .INPUT).after
    (.connect 7 0 1)).after (.connect 8 1 3)).after (.connect 9 2 4)

theorem hiddenNets_run :
    ∃ connected : Fin 5 → Fin 5 → Prop,
      CachedRun ⟨hiddenNets, fun _ => none⟩ connected := by
  apply CachedRun.after
  · apply CachedRun.after
    · apply CachedRun.after
      · exact ⟨Eq, CachedRun.start _ _⟩
      · exact ⟨by decide, by decide, by decide, rfl⟩
    · exact ⟨by decide, by decide, by decide, rfl⟩
  · exact ⟨by decide +kernel, by decide +kernel, by decide, by decide +kernel⟩

/-
  The event of the other probe is found. It is not similar,
  and it alone happens when the net of its first pin changes.
-/
theorem hidden_pin_found :
    ∃ connected c',
      CachedRun ⟨hiddenNets, fun _ => none⟩ connected ∧
      hiddenPin.NoDuplicates connected 0 ∧
      hiddenPin.find_similar_event (fun l => l.val + 10) 0
        ⟨hiddenNets, fun _ => none⟩ = some ([1], c') ∧
      ¬hiddenPin.Similar connected 0 1 ∧
      ∃ sees : ProbeEdge → List (Option Nat) → Prop,
        hiddenPin.Wakes (CachedLinks.nexusOf ⟨hiddenNets, fun _ => none⟩) sees 1 ∧
        ¬hiddenPin.Wakes (CachedLinks.nexusOf ⟨hiddenNets, fun _ => none⟩) sees 0 := by
  rcases hiddenNets_run with ⟨connected, hRun⟩
  rcases hRun.linkRun.rings with ⟨ring, owner, hRings, hSame⟩
  have hApart : ¬connected 0 2 := by
    rw [hSame]
    have hLeft := hRings.linkedNexus 0
    have hRight := hRings.linkedNexus 2
    rw [show hiddenNets.linkedNexus 0 = some (some 7) by
      decide +kernel, some_inj] at hLeft
    rw [show hiddenNets.linkedNexus 2 = some (some 9) by
      decide +kernel, some_inj] at hRight
    rintro (hEq | ⟨-, hEq⟩)
    · cases hEq
    · rw [← hLeft, ← hRight] at hEq
      cases hEq
  have hEval : (hiddenPin.find_similar_event
      (fun l => l.val + 10) 0 ⟨hiddenNets, fun _ => none⟩).map Prod.fst = some [1] := by
    decide +kernel
  rcases Option.map_eq_some_iff.mp hEval with ⟨⟨found, c'⟩, hFind, hFound⟩
  have hFound : found = [1] := hFound
  rw [hFound] at hFind
  refine ⟨connected, c', hRun, ?_, hFind, ?_, fun _ l => some 9 ∈ l, ?_, ?_⟩
  · rintro p hp q hq -
    rw [mem_singleton.mp hp, mem_singleton.mp hq]
  · rintro ⟨-, hMatched⟩
    rcases hMatched.left (mem_singleton_self 0) with ⟨q, hq, -, hPins⟩
    rw [mem_singleton.mp hq] at hPins
    cases hPins with
    | cons hFirst _ => exact hApart hFirst
  · exact ⟨1, mem_singleton_self 1, by decide +kernel⟩
  · rintro ⟨p, hp, hSees⟩
    rw [mem_singleton.mp hp] at hSees
    revert hSees
    decide +kernel

end EpicSim
