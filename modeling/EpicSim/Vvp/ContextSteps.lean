import EpicSim.Vvp.ContextRuns

/-
  What each opcode of a call keeps: a join moves the top of
  the write stack to the read stack exactly when it ends a
  call that has a context.
-/

namespace EpicSim

open Function (update_of_ne update_self update_idem update)
open List (mem_cons_of_mem mem_cons_self nodup_cons mem_append mem_cons)
open Option (bind_eq_bind bind_some some_ne_none some_inj)

namespace AutoContext

open FanOut

variable {σ γ τ : Type} [DecidableEq σ] [DecidableEq γ]
  [DecidableEq τ] {sc : Scopes σ} {m : Machine σ γ τ}
  {s s' : CallState σ γ τ}
  {fan : σ × ListKind → List γ} {base : τ → List γ}
  {rank : τ → Nat} {t u v p : τ} {thr new : VThread σ γ τ}
  {c : γ} {scope : σ}

----
-- Joins
----

omit [DecidableEq σ] [DecidableEq γ] in
theorem reap_child (hThr : m.threads t = some thr)
    (hNew : m.threads v = some new) (hNone : new.children = ∅) (hParent : new.parent = some t) :
    m.vthread_reap v =
      some ((m.setThread t (some { thr with
        children := thr.children.erase v })).setThread v none) := by
  unfold Machine.vthread_reap
  simp only [hNew, hNone, hParent, hThr, bind_eq_bind, bind_some, if_true]

omit [DecidableEq σ] [DecidableEq γ] in
theorem reap_root (hThr : m.threads t = some thr) (hNone : thr.children = ∅)
    (hRoot : thr.parent = none) : m.vthread_reap t = some (m.setThread t none) := by
  unfold Machine.vthread_reap
  simp only [hThr, hNone, hRoot, bind_eq_bind, bind_some, if_true]

omit [DecidableEq σ] in
/- A join where no context is to move. -/
theorem do_join_stays (hThr : m.threads t = some thr) (hNew : m.threads v = some new) (htv : t ≠ v)
    (hNone : new.children = ∅) (hParent : new.parent = some t)
    (hStays : new.wt_context = none ∨ thr.wt_context = thr.rd_context) :
    m.do_join t v =
      some ((m.setThread t (some { thr with
        children := thr.children.erase v
        task_func_children :=
          thr.task_func_children.erase v })).setThread v
          none) := by
  have hNot : ¬(new.wt_context ≠ none ∧
      thr.wt_context ≠ thr.rd_context) := by
    rintro ⟨hWt, hNe⟩
    exact hStays.elim hWt hNe
  unfold Machine.do_join
  simp only [hThr, hNew, bind_eq_bind, bind_some, hParent, if_true, if_neg hNot]
  have hNew' : (m.setThread t (some { thr with
      task_func_children := thr.task_func_children.erase v })).threads v =
      some new := by
    change update m.threads t _ v = _
    rw [update_of_ne htv.symm]
    exact hNew
  rw [reap_child (update_self _ _ _) hNew' hNone hParent]
  simp only [Machine.setThread, update_idem]

omit [DecidableEq σ] in
/- A join that moves the top of the write stack. -/
theorem do_join_moves (hThr : m.threads t = some thr) (hNew : m.threads v = some new) (htv : t ≠ v)
    (hNone : new.children = ∅) (hParent : new.parent = some t)
    (hWtNew : new.wt_context ≠ none) (hWt : thr.wt_context = some c)
    (hRd : thr.rd_context ≠ some c) :
    m.do_join t v =
      some (((m.setStacked c thr.rd_context).setThread t
        (some { thr with
          children := thr.children.erase v
          task_func_children := thr.task_func_children.erase v
          wt_context := m.stacked_context c
          rd_context := some c })).setThread v none) := by
  have hMoves : new.wt_context ≠ none ∧ some c ≠ thr.rd_context := ⟨hWtNew, hRd.symm⟩
  unfold Machine.do_join
  simp only [hThr, hNew, bind_eq_bind, bind_some, hParent, if_true, hWt, if_pos hMoves]
  have hNew' : ((m.setStacked c thr.rd_context).setThread t
      (some { thr with
        task_func_children := thr.task_func_children.erase v
        wt_context := m.stacked_context c
        rd_context := some c })).threads v = some new := by
    change update m.threads t _ v = _
    rw [update_of_ne htv.symm]
    exact hNew
  rw [reap_child (update_self _ _ _) hNew' hNone hParent]
  simp only [Machine.setThread, update_idem]

namespace Inv

/- A join of a thread that a block has started. -/
omit [DecidableEq σ] in
theorem joins_block (h : Inv sc s fan base rank) (hThr : s.machine.threads t = some thr)
    (hNew : s.machine.threads v = some new) (hMem : v ∈ thr.children) (hNone : new.children = ∅)
    (hNoCalls : s.calls v = []) (hEnded : ¬thr.i_have_ended)
    (hParent : new.parent = some t) (htv : t ≠ v) (hNil : s.calls t = []) :
    ∃ m, s.machine.do_join t v = some m ∧
      Inv sc ⟨m, update s.calls t (joined (s.calls t))⟩ fan base rank := by
  have hWrite := (h.stacked hThr).write
  have hRead := (h.stacked hThr).read
  have hHold : CallsHold fan (update s.calls t []) := by
    rw [← hNil, Function.update_eq_self]
    exact h.toCallsHold
  rw [hNil] at hWrite hRead
  have hSame : thr.wt_context = thr.rd_context := (chain_head hWrite).trans (chain_head hRead).symm
  refine ⟨_, do_join_stays hThr hNew htv hNone hParent (Or.inr hSame), ?_⟩
  rw [hNil]
  exact h.taken hThr hNew hMem hNone hNoCalls hEnded rfl (h.listed.congr rfl rfl) rfl
    (fun _ _ _ _ _ _ _ => rfl) hWrite hRead (fun _ => ⟨rfl, hNil⟩)
    (fun ⟨_, _, hCs, _⟩ => nomatch hCs) hHold

section

variable {cs : List (Call σ γ)} (h : Inv sc s fan base rank)
  (hThr : s.machine.threads t = some thr) (hNew : s.machine.threads v = some new)
  (hMem : v ∈ thr.children) (hNone : new.children = ∅) (hNoCalls : s.calls v = [])
  (hEnded : ¬thr.i_have_ended) (hParent : new.parent = some t) (htv : t ≠ v)
  (hOnly : thr.children = {v})

include h hThr hNew hMem hNone hNoCalls hEnded hParent htv hOnly

/- A join of a call that has no context. -/
omit [DecidableEq σ] in
theorem joins_static (hAuto : sc.is_automatic new.parent_scope = false)
    (hCs : s.calls t = ⟨scope, none, .called⟩ :: cs) :
    ∃ m, s.machine.do_join t v = some m ∧
      Inv sc ⟨m, update s.calls t (joined (s.calls t))⟩ fan base rank := by
  have hWriteNew := (h.stacked hNew).write
  rw [hNoCalls, (h.stacked hNew).inherit t hParent, given, hAuto] at hWriteNew
  have hWrite := (h.stacked hThr).write
  have hRead := (h.stacked hThr).read
  have hOnce := h.once t
  rw [hCs] at hWrite hRead hOnce
  refine ⟨_, do_join_stays hThr hNew htv hNone hParent (Or.inl hWriteNew), ?_⟩
  rw [hCs]
  refine h.taken hThr hNew hMem hNone hNoCalls hEnded rfl (h.listed.congr rfl rfl) rfl
    (fun _ _ _ _ _ _ _ => rfl) hWrite hRead ?_ (h.tail_not_waiting hCs)
    (h.narrow ?_ hOnce fun call rest => h.tail_inner hCs)
  · grind
  · intro call x hCall hContext
    refine ⟨call, ?_, rfl, hContext⟩
    rw [hCs]
    exact mem_cons_of_mem _ hCall

/- A join of a call that has a context. -/
omit [DecidableEq σ] in
theorem joins_context (hAuto : sc.is_automatic new.parent_scope = true)
    (hCs : s.calls t = ⟨scope, some c, .called⟩ :: cs) :
    ∃ m, s.machine.do_join t v = some m ∧
      Inv sc ⟨m, update s.calls t (joined (s.calls t))⟩ fan base rank := by
  have hWriteNew := (h.stacked hNew).write
  rw [hNoCalls, (h.stacked hNew).inherit t hParent, given, hAuto, hCs] at hWriteNew
  have hWtNew : new.wt_context = some c := chain_head hWriteNew
  have hWrite := (h.stacked hThr).write
  have hRead := (h.stacked hThr).read
  have hOnce := h.once t
  have hHeld : c ∈ held (s.calls t) := by
    rw [hCs]
    exact mem_cons_self
  rw [hCs] at hWrite hRead hOnce
  have hNot : ∀ stack, (∀ x ∈ stack, x ∈ held cs) → c ∉ stack ++ base t := by
    intro stack hStack hIn
    rcases mem_append.mp hIn with hIn | hIn
    · exact (nodup_cons.mp hOnce).1 (hStack c hIn)
    · exact h.not_base hThr hHeld hIn
  have hNotRead := hNot (reading cs) fun _ => held_of_reading
  have hReadCs : Chain s.machine.stacked_context thr.rd_context (reading cs ++ base t) := hRead
  have hRd : thr.rd_context ≠ some c := by
    rw [chain_head hReadCs]
    intro hHead
    exact hNotRead (List.mem_of_mem_head? hHead)
  refine ⟨_, do_join_moves hThr hNew htv hNone hParent
    (by rw [hWtNew]; exact some_ne_none c) hWrite.1 hRd, ?_⟩
  rw [hCs]
  refine h.taken hThr hNew hMem hNone hNoCalls hEnded rfl
    (h.listed.congr rfl rfl) rfl ?_
    (chain_update (hNot (writing cs) fun _ => held_of_writing) _ hWrite.2)
    ⟨rfl, ?_⟩ ?_ ?_ (h.narrow ?_ hOnce ?_)
  · intro u other hut huv hOther x hx
    apply update_of_ne
    rintro rfl
    rcases hx with hx | hx
    · exact hut (h.user u t x hx hHeld)
    · refine huv (h.base_below ?_ hThr hNew hNone hHeld hOther hx)
      grind
  · change Chain _ (update s.machine.stacked_context c thr.rd_context c) _
    rw [update_self]
    exact chain_update hNotRead _ hReadCs
  · grind
  · rintro ⟨call, rest, hRest, hCalled⟩
    rw [← (List.cons.inj hRest).1] at hCalled
    cases hCalled
  · intro call x hCall hContext
    rw [hCs]
    rcases mem_cons.mp hCall with rfl | hCall
    · exact ⟨_, mem_cons_self, rfl, hContext⟩
    · exact ⟨call, mem_cons_of_mem _ hCall, rfl, hContext⟩
  · intro call rest hRest
    exact (List.cons.inj hRest).2 ▸ h.inner t _ cs hCs

end

/- A parent takes a child that has no call and no child. -/
omit [DecidableEq σ] in
theorem joins (h : Inv sc s fan base rank) (hThr : s.machine.threads t = some thr)
    (hNew : s.machine.threads v = some new) (hMem : v ∈ thr.children) (hNone : new.children = ∅)
    (hNoCalls : s.calls v = []) (hEnded : ¬thr.i_have_ended) :
    ∃ m, s.machine.do_join t v = some m ∧
      Inv sc ⟨m, update s.calls t (joined (s.calls t))⟩ fan base rank := by
  rcases h.child hThr hMem with ⟨kid, hKid, hParent⟩
  rw [hNew, some_inj] at hKid
  rw [← hKid] at hParent
  have htv : t ≠ v := by grind
  rcases (h.waits hThr).busy (Finset.ne_empty_of_mem hMem) with
    hNil | ⟨⟨scope, context, phase⟩, cs, hCs, hCalled⟩
  · exact h.joins_block hThr hNew hMem hNone hNoCalls hEnded hParent htv hNil
  · obtain rfl : phase = .called := hCalled
    rcases (h.waits hThr).waiting _ cs hCs rfl with ⟨w, kid', hOnly, hKid', hAuto⟩
    have hvw : v = w := by grind
    rw [← hvw] at hOnly hKid'
    rw [hNew, some_inj] at hKid'
    rw [← hKid'] at hAuto
    cases context with
    | none => exact h.joins_static hThr hNew hMem hNone hNoCalls hEnded hParent htv hOnly hAuto hCs
    | some c =>
      exact h.joins_context hThr hNew hMem hNone hNoCalls hEnded hParent htv hOnly hAuto hCs

----
-- Processes
----

/- A process starts without any context. -/
omit [DecidableEq σ] [DecidableEq γ] in
theorem started (h : Inv sc s fan base rank) (hFree : s.machine.threads t = none) (scope : σ) :
    Inv sc
      { s with machine := s.machine.setThread t (some (vthread_new scope)) } fan
      (update base t []) rank := by
  have hNe : ∀ u other, s.machine.threads u = some other → u ≠ t := by grind
  have hBase : ∀ u other, s.machine.threads u = some other →
      update base t [] u = base u :=
    fun u other hOther => update_of_ne (hNe u other hOther) _ _
  have hNil := h.gone t hFree
  refine ⟨h.toCallsHold, h.listed.congr rfl rfl, fun u hu => (h.gone_update hu).2, ?_, ?_, ?_⟩
  · dsimp only [Machine.setThread]
    rw [parents_same, kids_same]
    · exact h.forest
    · rw [kids, hFree]
      rfl
    · rw [parents, hFree]
      rfl
  · intro u other hOther
    rcases update_cases hOther with ⟨rfl, rfl⟩ | ⟨-, hAt⟩
    · refine ⟨?_, ?_, fun _ => update_self _ _ _, fun p hUp => by cases hUp⟩
      · rw [update_self]
        dsimp only
        rw [hNil]
        rfl
      · rw [update_self]
        dsimp only
        rw [hNil]
        rfl
    · refine (h.stacked hAt).frame rfl rfl (hBase u other hAt) (fun _ _ => rfl) ?_
      intro p hUp
      rcases h.parent hAt hUp with ⟨-, par, hPar, -⟩
      rw [hBase p par hPar]
  · intro u other hOther
    rcases update_cases hOther with ⟨rfl, rfl⟩ | ⟨-, hAt⟩
    · refine ⟨fun hKids => absurd rfl hKids, ?_, fun hEnd => by cases hEnd⟩
      intro call cs hCs
      cases hNil.symm.trans hCs
    · refine (h.waits hAt).frame rfl rfl ?_ (h.waits hAt).ended
      intro w kid _ hKid
      exact ⟨kid, (update_of_ne (hNe w kid hKid) _ _).trans hKid, rfl⟩

/- A process that ends without children is deleted. -/
omit [DecidableEq σ] [DecidableEq γ] in
theorem removed (h : Inv sc s fan base rank) (hThr : s.machine.threads t = some thr)
    (hNone : thr.children = ∅) (hRoot : thr.parent = none) (hNil : s.calls t = []) :
    Inv sc { s with machine := s.machine.setThread t none } fan base rank := by
  refine ⟨h.toCallsHold, h.listed.congr rfl rfl, ?_, ?_, ?_, ?_⟩
  · intro u hu
    by_cases hut : u = t
    · rw [hut]
      exact hNil
    · exact h.gone u ((update_of_ne hut _ _).symm.trans hu)
  · dsimp only [Machine.setThread]
    rw [parents_same, kids_same]
    · exact h.forest
    · rw [kids, hThr]
      exact hNone.symm
    · rw [parents, hThr]
      exact hRoot.symm
  · intro u other hOther
    have hAt := (update_cases_none hOther).2
    exact (h.stacked hAt).frame rfl rfl rfl (fun _ _ => rfl) (fun _ _ => rfl)
  · intro u other hOther
    have hAt := (update_cases_none hOther).2
    refine (h.waits hAt).frame rfl rfl ?_ (h.waits hAt).ended
    intro w kid hMem hKid
    have hwt : w ≠ t := by
      rintro rfl
      rcases h.child hAt hMem with ⟨kid', hKid', hUp⟩
      grind
    exact ⟨kid, (update_of_ne hwt _ _).trans hKid, rfl⟩

----
-- Opcodes
----

/-
  The opcode runs, and the invariant holds again with the
  same start stacks of the threads that there were.
-/
def Steps (sc : Scopes σ) (s : CallState σ γ τ) (base : τ → List γ) (op : Op σ γ τ) : Prop :=
  ∃ s', op.run sc s = some s' ∧
    ∃ fan' base' rank', Inv sc s' fan' base' rank' ∧
      ∀ u, (s.machine.threads u).isSome → base' u = base u

omit [DecidableEq σ] [DecidableEq γ] [DecidableEq τ] in
theorem not_called (h : Inv sc s fan base rank) (hNot : ¬Waiting (s.calls t)) (call : Call σ γ)
    (hCall : call ∈ s.calls t) : call.phase ≠ .called := by
  intro hCalled
  cases hCs : s.calls t with
  | nil =>
    rw [hCs] at hCall
    cases hCall
  | cons top cs =>
    rw [hCs] at hCall
    rcases mem_cons.mp hCall with rfl | hCall
    · exact hNot ⟨call, cs, hCs, hCalled⟩
    · exact h.inner t top cs hCs call hCall hCalled

/- Inside an expression a thread has no children. -/
omit [DecidableEq σ] [DecidableEq γ] in
theorem no_children {call : Call σ γ} {cs : List (Call σ γ)} (h : Inv sc s fan base rank)
    (hThr : s.machine.threads t = some thr) (hCs : s.calls t = call :: cs)
    (hNot : call.phase ≠ .called) : thr.children = ∅ := by
  by_contra hKids
  rcases (h.waits hThr).busy hKids with hNil | hWaits
  · rw [hCs] at hNil
    cases hNil
  · rcases hWaits with ⟨top, rest, hRest, hCalled⟩
    grind

theorem steps_alloc {fresh : γ} (h : Inv sc s fan base rank)
    (hAllowed : (Op.alloc t scope fresh).Allowed sc s) :
    Steps sc s base (.alloc t scope fresh) := by
  rcases hAllowed with ⟨⟨thr, ⟨hThr, -, hRuns⟩, hNone, hNot⟩, hAuto, hFresh⟩
  rcases h.listed.alloc hAuto hFresh with
    ⟨c, m, fan', hRun, hListed, hOut, hIn, hKeep, hStacked, hThreads⟩
  have hNotHeld : ∀ u, c ∉ held (s.calls u) := by
    intro u hHeld
    rcases h.live_of_held hHeld with ⟨scope', hLive⟩
    exact hOut scope' hLive
  have hNotStack : ∀ u other,
      s.machine.threads u = some other →
      ∀ x, x ∈ held (s.calls u) ∨ x ∈ base u → x ≠ c := by
    rintro u other hOther x hx rfl
    rcases h.stack_user hOther hx with ⟨q, hHeld, -⟩
    exact hNotHeld q hHeld
  have hNotWrite : c ∉ writing (s.calls t) ++ base t :=
    fun hMem => hNotStack t thr hThr c ((mem_append.mp hMem).imp_left held_of_writing) rfl
  have hNotRead : c ∉ reading (s.calls t) ++ base t :=
    fun hMem => hNotStack t thr hThr c ((mem_append.mp hMem).imp_left held_of_reading) rfl
  have hWrite := (h.stacked hThr).write
  have hRead := (h.stacked hThr).read
  rw [← hThreads] at hThr
  refine ⟨⟨(m.setStacked c thr.wt_context).setThread t
    (some { thr with wt_context := some c }),
    update s.calls t (⟨scope, some c, .args⟩ :: s.calls t)⟩,
    ?_, fan', base, rank, ?_, fun u _ => rfl⟩
  · simp only [Op.run, Machine.of_ALLOC, hRun, hThr, bind_eq_bind,
      bind_some, Machine.setThread, update_self]
  · rw [hThreads] at hThr
    have hPut : update m.threads t (some { thr with wt_context := some c }) =
        update s.machine.threads t (some { thr with wt_context := some c }) := by rw [hThreads]
    refine h.modify hThr hNone (by rw [hRuns]; decide) hPut rfl
      (hListed.congr rfl rfl) (h.update ?_ ?_ ?_ ?_ ?_) ?_ ⟨rfl, ?_⟩ ?_ ?_
    · intro u call x _ hCall hContext
      exact hKeep _ _ (h.live u call x hCall hContext)
    · intro call x hCall hContext
      rcases mem_cons.mp hCall with rfl | hCall
      · grind
      · exact hKeep _ _ (h.live t call x hCall hContext)
    · exact nodup_cons.mpr ⟨hNotHeld t, h.once t⟩
    · intro u x hut hx hHeld
      rcases mem_cons.mp hx with rfl | hx
      · exact hNotHeld u hHeld
      · exact hut (h.user u t x hHeld hx)
    · intro call cs hCs other hOther
      rw [← (List.cons.inj hCs).2] at hOther
      exact h.not_called hNot other hOther
    · intro u other _ hOther x hx
      change update m.stacked_context c _ x = _
      rw [update_of_ne (hNotStack u other hOther x hx), hStacked]
    · change Chain (update m.stacked_context c _)
        (update m.stacked_context c _ c) _
      rw [update_self, hStacked]
      exact chain_update hNotWrite _ hWrite
    · change Chain (update m.stacked_context c _) _ _
      rw [hStacked]
      exact chain_update hNotRead _ hRead
    · rintro ⟨call, cs, hCs, hCalled⟩
      rw [← (List.cons.inj hCs).1] at hCalled
      cases hCalled

theorem steps_free (h : Inv sc s fan base rank)
    (hAllowed : (Op.free t scope : Op σ γ τ).Allowed sc s) : Steps sc s base (.free t scope) := by
  rcases hAllowed with ⟨⟨thr, hThr, -, hRuns⟩, hAuto, c, cs, hCs⟩
  have hNone := h.no_children hThr hCs (by simp)
  have hTop : (⟨scope, some c, .results⟩ : Call σ γ) ∈ s.calls t := by
    rw [hCs]
    exact mem_cons_self
  have hLive := h.live t _ c hTop rfl
  have hWrite := (h.stacked hThr).write
  have hRead := (h.stacked hThr).read
  have hOnce := h.once t
  rw [hCs] at hWrite hRead hOnce
  have hRd : thr.rd_context = some c := hRead.1
  have hNotHeld : c ∉ held cs := (nodup_cons.mp hOnce).1
  have hHeld : c ∈ held (s.calls t) := by
    rw [hCs]
    exact mem_cons_self
  have hListed' : (s.machine.setThread t (some { thr with
      rd_context := s.machine.stacked_context c })).Listed
        fan := h.listed.congr rfl rfl
  rcases hListed'.free hAuto hLive with ⟨m, hRun, hListed, hStacked, hThreads⟩
  have hNe : ListKind.live ≠ .free := by decide
  have hKeep : ∀ call x, x ≠ c →
      x ∈ fan (call, .live) →
      x ∈ Machine.moved fan scope c .live .free (call, .live) := by
    intro call x hxc hx
    rw [Machine.mem_moved hNe (h.listed.holds.nodup _)]
    exact Or.inl ⟨hx, fun hEq => hxc hEq.2⟩
  refine ⟨⟨m, update s.calls t (s.calls t).tail⟩, ?_,
    Machine.moved fan scope c .live .free, base, rank, ?_, fun u _ => rfl⟩
  · simp only [Op.run, Machine.of_FREE, hThr, hRd, bind_eq_bind, bind_some]
    rw [hRun]
    rfl
  · rw [hCs]
    refine h.modify hThr hNone (by rw [hRuns]; decide)
      hThreads rfl hListed
      (h.update ?_ ?_ (nodup_cons.mp hOnce).2 ?_ fun call rest => h.tail_inner hCs)
      (fun u other _ _ x _ => congrFun hStacked x) (hStacked ▸ hWrite) (hStacked ▸ hRead.2)
      (h.tail_not_waiting hCs)
    · intro u call x hut hCall hContext
      apply hKeep _ _ _ (h.live u call x hCall hContext)
      rintro rfl
      exact hut (h.user u t x (mem_held.mpr ⟨call, hCall, hContext⟩) hHeld)
    · intro call x hCall hContext
      have hMem : call ∈ s.calls t := by
        rw [hCs]
        exact mem_cons_of_mem _ hCall
      apply hKeep _ _ _ (h.live t call x hMem hContext)
      rintro rfl
      exact hNotHeld (mem_held.mpr ⟨call, hCall, hContext⟩)
    · intro u x hut hx hHeldU
      apply hut
      apply h.user u t x hHeldU
      rw [hCs]
      exact mem_cons_of_mem _ hx

/- A thread starts a child and changes its calls to `cs'`. -/
theorem steps_child {tasks : Finset τ} {cs' : List (Call σ γ)} (op : Op σ γ τ)
    (h : Inv sc s fan base rank) (hThr : s.machine.threads t = some thr)
    (hFree : s.machine.threads v = none)
    (hRun : op.run sc s =
      some ⟨(s.machine.setThread t (some { thr with
          children := insert v thr.children
          task_func_children := tasks })).setThread v
        (some (Machine.newChild sc t thr scope)),
        update s.calls t cs'⟩)
    (hEnded : ¬thr.i_have_ended) (hWriting : writing cs' = writing (s.calls t))
    (hReading : reading cs' = reading (s.calls t)) (hHold : CallsHold fan (update s.calls t cs'))
    (hPhase : cs' = [] ∨ (thr.children = ∅ ∧
      ∃ call cs, cs' = call :: cs ∧ call.phase = .called ∧
        sc.is_automatic scope = call.context.isSome)) :
    Steps sc s base op := by
  refine ⟨_, hRun, fan, _, _,
    h.forked hThr hFree hEnded hHold hWriting hReading hPhase, ?_⟩
  intro u hu
  apply update_of_ne
  rintro rfl
  rw [hFree] at hu
  cases hu

/- The thread of a call starts with the call's context. -/
theorem steps_call {tasks : Finset τ} (op : Op σ γ τ)
    (h : Inv sc s fan base rank) (hRuns : Op.Running s t thr)
    (hFree : s.machine.threads v = none) (hReady : Op.Ready sc s t thr scope)
    (hRun : op.run sc s =
      some ⟨(s.machine.setThread t (some { thr with
          children := insert v thr.children
          task_func_children := tasks })).setThread v
        (some (Machine.newChild sc t thr scope)),
        update s.calls t (begun (sc.is_automatic scope) scope (s.calls t))⟩) :
    Steps sc s base op := by
  rcases hRuns with ⟨hThr, -, hEnded⟩
  have hEnded' : ¬thr.i_have_ended := by
    rw [hEnded]
    decide
  by_cases hAuto : sc.is_automatic scope
  · rw [Op.Ready, if_pos hAuto] at hReady
    rcases hReady with ⟨c, cs, hCs⟩
    have hNone := h.no_children hThr hCs (by simp)
    rw [hAuto, hCs] at hRun
    have hOnce := h.once t
    rw [hCs] at hOnce
    apply h.steps_child op hThr hFree hRun hEnded'
    · rw [hCs]
      rfl
    · rw [hCs]
      rfl
    · refine h.narrow ?_ hOnce ?_
      · intro call x hCall hContext
        rw [hCs]
        rcases mem_cons.mp hCall with rfl | hCall
        · exact ⟨_, mem_cons_self, rfl, hContext⟩
        · exact ⟨call, mem_cons_of_mem _ hCall, rfl, hContext⟩
      · intro call rest hRest
        exact (List.cons.inj hRest).2 ▸ h.inner t _ cs hCs
    · exact Or.inr ⟨hNone, _, _, rfl, rfl, hAuto⟩
  · rw [Op.Ready, if_neg hAuto] at hReady
    rcases hReady with ⟨hNone, hNot⟩
    rw [Bool.not_eq_true] at hAuto
    rw [hAuto] at hRun
    apply h.steps_child op hThr hFree hRun hEnded'
    · rfl
    · rfl
    · refine h.narrow ?_ (h.once t) ?_
      · intro call x hCall hContext
        rcases mem_cons.mp hCall with rfl | hCall
        · cases hContext
        · exact ⟨call, hCall, rfl, hContext⟩
      · intro call rest hRest other hOther
        rw [← (List.cons.inj hRest).2] at hOther
        exact h.not_called hNot other hOther
    · exact Or.inr ⟨hNone, _, _, rfl, rfl, hAuto⟩

theorem steps_fork (h : Inv sc s fan base rank)
    (hAllowed : (Op.fork t scope v : Op σ γ τ).Allowed sc s) :
    Steps sc s base (.fork t scope v) := by
  rcases hAllowed with ⟨thr, hRuns, hFree, hKind⟩
  cases hType : sc.type_code scope with
  | vpiFunction =>
    rw [hType] at hKind
    exact hKind.elim
  | vpiTask =>
    rw [hType] at hKind
    apply h.steps_call _ hRuns hFree hKind
    simp only [Op.run, Machine.of_FORK, hRuns.1, hType]
    rfl
  | other =>
    rw [hType] at hKind
    have hNil : s.calls t = [] := hKind
    rcases hRuns with ⟨hThr, -, hEnded⟩
    have hRun : (Op.fork t scope v : Op σ γ τ).run sc s =
        some ⟨(s.machine.setThread t
          (some { thr with
            children := insert v thr.children })).setThread v
            (some (Machine.newChild sc t thr scope)),
          update s.calls t (s.calls t)⟩ := by
      have hNot : ScopeType.other ≠ .vpiTask := by decide
      simp only [Op.run, Machine.of_FORK, hThr, hType, bind_eq_bind, bind_some, if_neg hNot]
    apply h.steps_child _ hThr hFree hRun
    · rw [hEnded]
      decide
    · rfl
    · rfl
    · rw [Function.update_eq_self]
      exact h.toCallsHold
    · exact Or.inl hNil

theorem steps_callf (h : Inv sc s fan base rank)
    (hAllowed : (Op.callf t scope v : Op σ γ τ).Allowed sc s) :
    Steps sc s base (.callf t scope v) := by
  rcases hAllowed with ⟨thr, hRuns, hFree, hType, hReady⟩
  have hNone : thr.children = ∅ := by
    by_cases hAuto : sc.is_automatic scope
    · rw [Op.Ready, if_pos hAuto] at hReady
      rcases hReady with ⟨c, cs, hCs⟩
      exact h.no_children hRuns.1 hCs (by simp)
    · rw [Op.Ready, if_neg hAuto] at hReady
      exact hReady.1
  have hOne : (insert v thr.children).card = 1 ∧
      sc.type_code scope = .vpiFunction := by
    refine ⟨?_, hType⟩
    rw [hNone]
    rfl
  apply h.steps_call _ hRuns hFree hReady
  simp only [Op.run, Machine.do_callf_void, hRuns.1, bind_eq_bind, bind_some, if_pos hOne]
  rfl

theorem steps_start (h : Inv sc s fan base rank)
    (hAllowed : (Op.start t scope : Op σ γ τ).Allowed sc s) : Steps sc s base (.start t scope) := by
  have hFree : s.machine.threads t = none := hAllowed
  refine ⟨_, rfl, fan, _, rank, h.started hFree scope, ?_⟩
  intro u hu
  apply update_of_ne
  rintro rfl
  rw [hFree] at hu
  cases hu

theorem steps_join {pick : τ} (h : Inv sc s fan base rank)
    (hAllowed : (Op.join t pick : Op σ γ τ).Allowed sc s) : Steps sc s base (.join t pick) := by
  rcases hAllowed with ⟨thr, ⟨hThr, hJoining, hRuns⟩, hKids, -⟩
  have hEnded : ¬thr.i_have_ended := by
    rw [hRuns]
    decide
  have hMay : thr.i_am_joining = false ∧ thr.children ≠ ∅ := ⟨hJoining, hKids⟩
  by_cases hFound : s.machine.found thr pick
  · have hPick := hFound
    simp only [Machine.found, decide_eq_true_eq, Option.any_eq_true] at hPick
    rcases hPick with ⟨hMem, -, new, hNew, hNewEnded⟩
    rcases (h.waits hNew).ended hNewEnded with ⟨hNone, hNoCalls⟩
    rcases h.joins hThr hNew hMem hNone hNoCalls hEnded with ⟨m, hRun, hInv⟩
    refine ⟨_, ?_, fan, base, rank, hInv, fun u _ => rfl⟩
    simp only [Op.run, Machine.of_JOIN, hThr, bind_eq_bind,
      bind_some, if_pos hMay, if_pos hFound, hRun]
  · refine ⟨⟨s.machine.setThread t
      (some { thr with i_am_joining := true }),
      update s.calls t (s.calls t)⟩, ?_,
      fan, base, rank, ?_, fun u _ => rfl⟩
    · simp only [Op.run, Machine.of_JOIN, hThr, bind_eq_bind, bind_some, if_pos hMay, if_neg hFound]
    · rw [Function.update_eq_self]
      exact h.flags hThr fun hEnd => absurd hEnd hEnded

omit [DecidableEq σ] [DecidableEq γ] in
/- The flag of the thread itself does not matter here. -/
theorem wakes_ended (h : Inv sc s fan base rank) (hThr : s.machine.threads t = some thr) :
    (s.machine.setThread t
      (some { thr with i_have_ended := true })).wakes t =
      s.machine.wakes t := by
  unfold Machine.wakes Machine.setThread
  rw [hThr]
  simp only [update_self, bind_eq_bind, bind_some]
  cases hParent : thr.parent with
  | none => rfl
  | some p =>
    have hpt : p ≠ t := by
      rintro rfl
      exact lt_irrefl _ (h.parent hThr hParent).1
    simp only [bind_some, update_of_ne hpt]

theorem steps_end (h : Inv sc s fan base rank)
    (hAllowed : (Op.endThread t : Op σ γ τ).Allowed sc s) : Steps sc s base (.endThread t) := by
  rcases hAllowed with ⟨⟨thr, ⟨hThr, -, -⟩, hNone⟩, hNil⟩
  -- the thread is marked first
  have hMarked : Inv sc
      ⟨s.machine.setThread t (some { thr with i_have_ended := true }), s.calls⟩
      fan base rank :=
    h.flags hThr fun _ => ⟨hNone, hNil⟩
  have hWakes := h.wakes_ended hThr
  have hAt : (s.machine.setThread t
      (some { thr with i_have_ended := true })).threads t =
      some { thr with i_have_ended := true } :=
    update_self _ _ _
  cases hParent : s.machine.wakes t with
  | some p =>
    have hUp := hParent
    simp only [Machine.wakes, hThr, bind_eq_bind, bind_some, Option.bind_eq_some_iff] at hUp
    rcases hUp with ⟨q, hThrParent, par, hPar, hIf⟩
    split_ifs at hIf
    obtain rfl : q = p := Option.some.inj hIf
    rcases h.parent hThr hThrParent with ⟨hLess, par', hPar', hMem⟩
    rw [hPar, some_inj] at hPar'
    rw [← hPar'] at hMem
    have hqt : q ≠ t := by
      rintro rfl
      exact lt_irrefl _ hLess
    have hPar₁ : (s.machine.setThread t
        (some { thr with i_have_ended := true })).threads q =
        some par := by
      change update s.machine.threads t _ q = _
      rw [update_of_ne hqt]
      exact hPar
    have hParRuns : ¬par.i_have_ended := by
      intro hEnd
      have hNoKids := ((h.waits hPar).ended hEnd).1
      rw [hNoKids] at hMem
      cases hMem
    -- then its parent is awake again
    have hAwake : Inv sc
        ⟨(s.machine.setThread t
          (some { thr with i_have_ended := true })).setThread
          q (some { par with i_am_joining := false }),
          s.calls⟩ fan base rank :=
      hMarked.flags hPar₁ fun hEnd => absurd hEnd hParRuns
    have hAtQ : ((s.machine.setThread t
        (some { thr with i_have_ended := true })).setThread
        q (some { par with i_am_joining := false })).threads
        t = some { thr with i_have_ended := true } := by
      change update _ q _ t = _
      rw [update_of_ne hqt.symm]
      exact hAt
    rcases hAwake.joins (update_self _ _ _) hAtQ hMem hNone hNil hParRuns with ⟨m, hRun, hInv⟩
    refine ⟨_, ?_, fan, base, rank, hInv, fun u _ => rfl⟩
    simp only [Op.run, Machine.of_END, hThr, bind_eq_bind,
      bind_some, if_pos hNone, hWakes, hParent, hPar₁]
    rw [hRun]
    rfl
  | none =>
    by_cases hRoot : thr.parent = none
    · refine ⟨⟨(s.machine.setThread t
        (some { thr with i_have_ended := true })).setThread
        t none, s.calls⟩, ?_, fan, base, rank, ?_,
        fun u _ => rfl⟩
      · have hReap := reap_root hAt hNone hRoot
        simp only [Op.run, Machine.of_END, hThr, bind_eq_bind,
          bind_some, if_pos hNone, hWakes, if_pos hRoot, hParent]
        rw [hReap]
        rfl
      · exact hMarked.removed hAt hNone hRoot hNil
    · refine ⟨_, ?_, fan, base, rank, hMarked, fun u _ => rfl⟩
      simp only [Op.run, Machine.of_END, hThr, bind_eq_bind,
        bind_some, if_pos hNone, hWakes, if_neg hRoot, hParent]

/- Every opcode that the pattern allows runs and keeps it. -/
theorem step (h : Inv sc s fan base rank) (op : Op σ γ τ) (hAllowed : op.Allowed sc s) :
    Steps sc s base op := by
  cases op with
  | start t scope => exact h.steps_start hAllowed
  | alloc t scope fresh => exact h.steps_alloc hAllowed
  | fork t scope child => exact h.steps_fork hAllowed
  | callf t scope child => exact h.steps_callf hAllowed
  | join t pick => exact h.steps_join hAllowed
  | free t scope => exact h.steps_free hAllowed
  | endThread t => exact h.steps_end hAllowed

end Inv

end AutoContext

end EpicSim
