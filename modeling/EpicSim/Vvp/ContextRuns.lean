import EpicSim.Lib.Forest
import EpicSim.Vvp.ContextLists

/-
  The contexts in a run: each belongs to one call, and the
  stacks of a thread hold the contexts of its calls above
  those that the thread was started with.
-/

namespace EpicSim

open Function (update_self update_of_ne update)
open Option (some_inj)

namespace AutoContext

open FanOut

variable {σ γ τ : Type}

----
-- The Contexts Of Calls
----

/- The contexts of a thread's calls on the write stack. -/
def writing (calls : List (Call σ γ)) : List γ :=
  calls.filterMap fun call => if call.phase = .results then none else call.context

/- Those on the read stack. -/
def reading (calls : List (Call σ γ)) : List γ :=
  calls.filterMap fun call => if call.phase = .results then call.context else none

def held (calls : List (Call σ γ)) : List γ :=
  calls.filterMap Call.context

variable {calls : List (Call σ γ)} {c : γ}

theorem mem_held :
    c ∈ held calls ↔ ∃ call ∈ calls, call.context = some c :=
  List.mem_filterMap

theorem held_of_writing (hc : c ∈ writing calls) :
    c ∈ held calls := by
  rcases List.mem_filterMap.mp hc with ⟨call, hCall, hEq⟩
  split_ifs at hEq
  exact mem_held.mpr ⟨call, hCall, hEq⟩

theorem held_of_reading (hc : c ∈ reading calls) :
    c ∈ held calls := by
  rcases List.mem_filterMap.mp hc with ⟨call, hCall, hEq⟩
  split_ifs at hEq
  exact mem_held.mpr ⟨call, hCall, hEq⟩

/- What a thread is started with by another one. -/
def given (sc : Scopes σ) (scope : σ) (calls : List (Call σ γ)) (stack : List γ) : List γ :=
  if sc.is_automatic scope then writing calls ++ stack else []

----
-- The Invariant
----

/- Every call has contexts of its own, and only the top waits. -/
structure CallsHold (fan : σ × ListKind → List γ) (calls : τ → List (Call σ γ)) : Prop where
  live : ∀ t call c, call ∈ calls t → call.context = some c → c ∈ fan (call.scope, .live)
  once : ∀ t, (held (calls t)).Nodup
  user : ∀ t u c, c ∈ held (calls t) → c ∈ held (calls u) → t = u
  inner : ∀ t call cs, calls t = call :: cs → ∀ other ∈ cs, other.phase ≠ .called

/- The stacks of a thread, above the one it was started with. -/
structure Stacks (sc : Scopes σ) (s : CallState σ γ τ) (base : τ → List γ) (t : τ)
    (thr : VThread σ γ τ) : Prop where
  write : Chain s.machine.stacked_context thr.wt_context (writing (s.calls t) ++ base t)
  read : Chain s.machine.stacked_context thr.rd_context (reading (s.calls t) ++ base t)
  root : thr.parent = none → base t = []
  inherit : ∀ p, thr.parent = some p →
    base t = given sc thr.parent_scope (s.calls p) (base p)

/- What a thread waits for, and that it waits for nothing at its end. -/
structure Waits (sc : Scopes σ) (s : CallState σ γ τ) (t : τ) (thr : VThread σ γ τ) :
    Prop where
  busy : thr.children ≠ ∅ → s.calls t = [] ∨ Waiting (s.calls t)
  waiting : ∀ call cs, s.calls t = call :: cs → call.phase = .called →
    ∃ v new, thr.children = {v} ∧
      s.machine.threads v = some new ∧
      sc.is_automatic new.parent_scope = call.context.isSome
  ended : thr.i_have_ended → thr.children = ∅ ∧ s.calls t = []

def parents (threads : τ → Option (VThread σ γ τ)) (t : τ) : Option τ :=
  (threads t).bind VThread.parent

def kids (threads : τ → Option (VThread σ γ τ)) (t : τ) : Finset τ :=
  (threads t).elim ∅ VThread.children

/-
  `fan` are the lists of contexts, `base t` is the stack that
  the thread was started with, and `rank` grows from a
  parent to its children.
-/
structure Inv
    (sc : Scopes σ) (s : CallState σ γ τ) (fan : σ × ListKind → List γ) (base : τ → List γ)
    (rank : τ → Nat) : Prop extends CallsHold fan s.calls where
  listed : s.machine.Listed fan
  gone : ∀ t, s.machine.threads t = none → s.calls t = []
  forest : Forest (parents s.machine.threads) (kids s.machine.threads) rank
  stacked : ∀ {t thr}, s.machine.threads t = some thr → Stacks sc s base t thr
  waits : ∀ {t thr}, s.machine.threads t = some thr → Waits sc s t thr

variable {sc : Scopes σ} {s s' : CallState σ γ τ}
  {fan fan' : σ × ListKind → List γ} {base base' : τ → List γ}
  {rank : τ → Nat} {t u v p : τ} {thr thr' new : VThread σ γ τ}
  {threads : τ → Option (VThread σ γ τ)} {x : Option (VThread σ γ τ)}
  {c : γ} {cs' : List (Call σ γ)} {scope : σ} {wt rd : Option γ} {tasks : Finset τ}

namespace Inv

theorem parent (h : Inv sc s fan base rank) (hThr : s.machine.threads t = some thr)
    (hUp : thr.parent = some p) :
    rank p < rank t ∧ ∃ par, s.machine.threads p = some par ∧ t ∈ par.children := by
  have hParents : parents s.machine.threads t = some p := by
    rw [parents, hThr]
    exact hUp
  refine ⟨h.forest.rises t p hParents, ?_⟩
  have hMem := (h.forest.mem_iff t p).mpr hParents
  unfold kids at hMem
  cases hPar : s.machine.threads p with
  | none =>
    rw [hPar] at hMem
    cases hMem
  | some par =>
    rw [hPar] at hMem
    exact ⟨par, rfl, hMem⟩

theorem child (h : Inv sc s fan base rank) (hThr : s.machine.threads t = some thr)
    (hMem : v ∈ thr.children) :
    ∃ new, s.machine.threads v = some new ∧ new.parent = some t := by
  apply Option.bind_eq_some_iff.mp
  apply (h.forest.mem_iff v t).mp
  rw [kids, hThr]
  exact hMem

/- What a thread was started with belongs to calls above it. -/
theorem base_user (h : Inv sc s fan base rank) (hThr : s.machine.threads t = some thr)
    (hc : c ∈ base t) :
    ∃ q, c ∈ held (s.calls q) ∧ rank q < rank t ∧
      Relation.ReflTransGen s.IsParent q t := by
  induction hRank : rank t using Nat.strong_induction_on generalizing t thr with
  | _ n ih =>
    rcases hParent : thr.parent with _ | p
    · rw [(h.stacked hThr).root hParent] at hc
      cases hc
    · rcases h.parent hThr hParent with ⟨hLess, par, hPar, -⟩
      have hUp : s.IsParent p t := ⟨thr, hThr, hParent⟩
      rw [(h.stacked hThr).inherit p hParent, given] at hc
      split_ifs at hc
      · rcases List.mem_append.mp hc with hc | hc
        · exact ⟨p, held_of_writing hc, hRank ▸ hLess, Relation.ReflTransGen.single hUp⟩
        · grind
      · cases hc

/- No other thread was started with a thread's own contexts. -/
theorem not_base (h : Inv sc s fan base rank) (hThr : s.machine.threads t = some thr)
    (hc : c ∈ held (s.calls t)) : c ∉ base t := by
  intro hBase
  rcases h.base_user hThr hBase with ⟨q, hHeld, hRank, -⟩
  rw [h.user q t c hHeld hc] at hRank
  exact lt_irrefl _ hRank

/- Only a child was started with the contexts of a thread. -/
theorem base_below (h : Inv sc s fan base rank) (hChildren : ∀ w ∈ thr.children, w = v)
    (hThr : s.machine.threads t = some thr) (hNew : s.machine.threads v = some new)
    (hNone : new.children = ∅) (hc : c ∈ held (s.calls t))
    {other : VThread σ γ τ} (hOther : s.machine.threads u = some other) (hBase : c ∈ base u) :
    u = v := by
  induction hRank : rank u using Nat.strong_induction_on generalizing u other with
  | _ n ih =>
    rcases hParent : other.parent with _ | p
    · rw [(h.stacked hOther).root hParent] at hBase
      cases hBase
    · rcases h.parent hOther hParent with ⟨hLess, par, hPar, hMem⟩
      rw [(h.stacked hOther).inherit p hParent, given] at hBase
      split_ifs at hBase
      · rcases List.mem_append.mp hBase with hHeld | hBase
        · have hSame := h.user p t c (held_of_writing hHeld) hc
          grind
        · grind
      · cases hBase

/- The contexts on a stack are those of calls. -/
theorem stack_user (h : Inv sc s fan base rank) (hThr : s.machine.threads t = some thr)
    (hc : c ∈ held (s.calls t) ∨ c ∈ base t) :
    ∃ q, c ∈ held (s.calls q) ∧
      Relation.ReflTransGen s.IsParent q t := by
  rcases hc with hc | hc
  · exact ⟨t, hc, Relation.ReflTransGen.refl⟩
  · rcases h.base_user hThr hc with ⟨q, hHeld, -, hPath⟩
    exact ⟨q, hHeld, hPath⟩

theorem live_of_held (h : Inv sc s fan base rank) (hc : c ∈ held (s.calls t)) :
    ∃ scope, c ∈ fan (scope, .live) := by
  rcases mem_held.mp hc with ⟨call, hCall, hContext⟩
  exact ⟨call.scope, h.live t call c hCall hContext⟩

end Inv

----
-- Changing One Thread
----

variable [DecidableEq τ]

/- What is there after an update was put there, or was there. -/
theorem update_cases {β : Type} {f : τ → Option β} {x y : β} (h : update f t (some x) u = some y) :
    (u = t ∧ y = x) ∨ (u ≠ t ∧ f u = some y) := by
  by_cases hu : u = t
  · grind
  · rw [update_of_ne hu] at h
    exact Or.inr ⟨hu, h⟩

theorem update_cases_none {β : Type} {f : τ → Option β} {y : β}
    (h : update f t none u = some y) : u ≠ t ∧ f u = some y := by
  by_cases hu : u = t
  · rw [hu, update_self] at h
    cases h
  · rw [update_of_ne hu] at h
    exact ⟨hu, h⟩

theorem parents_update :
    parents (update threads t x) = update (parents threads) t (x.bind VThread.parent) :=
  Function.comp_update (fun x => Option.bind x VThread.parent) threads t x

theorem kids_update :
    kids (update threads t x) = update (kids threads) t (x.elim ∅ VThread.children) :=
  Function.comp_update (fun x => Option.elim x ∅ VThread.children) threads t x

theorem parents_same (hSame : x.bind VThread.parent = parents threads t) :
    parents (update threads t x) = parents threads := by
  rw [parents_update, hSame, Function.update_eq_self]

theorem kids_same (hSame : x.elim ∅ VThread.children = kids threads t) :
    kids (update threads t x) = kids threads := by
  rw [kids_update, hSame, Function.update_eq_self]

/- A changed thread keeps its scope, and the others theirs. -/
theorem update_scope (hThr : threads t = some thr) (hScope : thr'.parent_scope = thr.parent_scope)
    (hNew : threads v = some new) :
    ∃ new', update threads t (some thr') v = some new' ∧
      new'.parent_scope = new.parent_scope := by
  by_cases hv : v = t
  · grind
  · rw [update_of_ne hv]
    exact ⟨new, hNew, rfl⟩

/- The calls of one thread change. -/
theorem CallsHold.update {calls : τ → List (Call σ γ)} (h : CallsHold fan calls)
    (hLive : ∀ u call c, u ≠ t → call ∈ calls u →
      call.context = some c → c ∈ fan' (call.scope, .live))
    (hOwn : ∀ call c, call ∈ cs' → call.context = some c → c ∈ fan' (call.scope, .live))
    (hOnce : (held cs').Nodup) (hUser : ∀ u c, u ≠ t → c ∈ held cs' → c ∉ held (calls u))
    (hInner : ∀ call cs, cs' = call :: cs → ∀ other ∈ cs, other.phase ≠ .called) :
    CallsHold fan' (Function.update calls t cs') := by
  constructor
  · grind
  · intro u
    by_cases hu : u = t
    · rw [hu, update_self]
      exact hOnce
    · rw [update_of_ne hu]
      exact h.once u
  · intro u w c hu hw
    by_cases hut : u = t <;> by_cases hwt : w = t
    · rw [hut, hwt]
    · grind
    · grind
    · rw [update_of_ne hut] at hu
      rw [update_of_ne hwt] at hw
      exact h.user u w c hu hw
  · intro u call cs hCs
    by_cases hu : u = t
    · rw [hu, update_self] at hCs
      exact hInner call cs hCs
    · rw [update_of_ne hu] at hCs
      exact h.inner u call cs hCs

/- No call is left with a context that the thread did not have. -/
theorem CallsHold.narrow {calls : τ → List (Call σ γ)} (h : CallsHold fan calls)
    (hSame : ∀ call c, call ∈ cs' → call.context = some c →
      ∃ old ∈ calls t, old.scope = call.scope ∧ old.context = some c)
    (hOnce : (held cs').Nodup)
    (hInner : ∀ call cs, cs' = call :: cs → ∀ other ∈ cs, other.phase ≠ .called) :
    CallsHold fan (Function.update calls t cs') := by
  apply h.update (fun u call c _ => h.live u call c) _ hOnce _ hInner
  · intro call c hCall hContext
    rcases hSame call c hCall hContext with ⟨old, hMem, hEq, hOldContext⟩
    rw [← hEq]
    exact h.live t old c hMem hOldContext
  · intro u c hu hc hHeld
    rcases mem_held.mp hc with ⟨call, hCall, hContext⟩
    rcases hSame call c hCall hContext with ⟨old, hMem, -, hOldContext⟩
    exact hu (h.user u t c hHeld (mem_held.mpr ⟨old, hMem, hOldContext⟩))

/-
  A step leaves a thread's stacks alone, with the contexts on
  them and what its parent writes.
-/
omit [DecidableEq τ] in
theorem Stacks.frame (h : Stacks sc s base t thr)
    (hWriting : writing (s'.calls t) = writing (s.calls t))
    (hReading : reading (s'.calls t) = reading (s.calls t)) (hBase : base' t = base t)
    (hStacked : ∀ x, x ∈ held (s.calls t) ∨ x ∈ base t →
      s'.machine.stacked_context x = s.machine.stacked_context x)
    (hParent : ∀ p, thr.parent = some p →
      given sc thr.parent_scope (s'.calls p) (base' p) =
        given sc thr.parent_scope (s.calls p) (base p)) : Stacks sc s' base' t thr := by
  constructor
  · rw [hWriting, hBase]
    apply chain_frame _ h.write
    exact fun x hx => hStacked x ((List.mem_append.mp hx).imp_left held_of_writing)
  · rw [hReading, hBase]
    apply chain_frame _ h.read
    exact fun x hx => hStacked x ((List.mem_append.mp hx).imp_left held_of_reading)
  · rw [hBase]
    exact h.root
  · intro p hUp
    rw [hBase, hParent p hUp]
    exact h.inherit p hUp

/- A step leaves a thread's calls and its children alone. -/
omit [DecidableEq τ] in
theorem Waits.frame (h : Waits sc s t thr) (hCalls : s'.calls t = s.calls t)
    (hKids : thr'.children = thr.children)
    (hChild : ∀ v new, v ∈ thr.children → s.machine.threads v = some new →
      ∃ new', s'.machine.threads v = some new' ∧ new'.parent_scope = new.parent_scope)
    (hEnded : thr'.i_have_ended → thr.children = ∅ ∧ s.calls t = []) : Waits sc s' t thr' := by
  constructor
  · rw [hCalls, hKids]
    exact h.busy
  · intro call cs hCs hCalled
    rw [hCalls] at hCs
    rcases h.waiting call cs hCs hCalled with ⟨v, new, hOnly, hNew, hAuto⟩
    grind
  · rw [hCalls, hKids]
    exact hEnded

namespace Inv

/- Under the top call nothing waits. -/
omit [DecidableEq τ] in
theorem tail_not_waiting {top : Call σ γ} {cs : List (Call σ γ)} (h : Inv sc s fan base rank)
    (hCs : s.calls t = top :: cs) : ¬Waiting cs := by
  rintro ⟨call, rest, rfl, hCalled⟩
  exact h.inner t top _ hCs call List.mem_cons_self hCalled

omit [DecidableEq τ] in
theorem tail_inner {top call : Call σ γ} {cs rest : List (Call σ γ)}
    (h : Inv sc s fan base rank) (hCs : s.calls t = top :: cs) (hRest : cs = call :: rest) :
    ∀ other ∈ rest, other.phase ≠ .called := by
  intro other hOther
  apply h.inner t top cs hCs
  rw [hRest]
  exact List.mem_cons_of_mem _ hOther

/- A thread without children is nobody's parent. -/
omit [DecidableEq τ] in
theorem not_parent {other : VThread σ γ τ} (h : Inv sc s fan base rank)
    (hThr : s.machine.threads t = some thr) (hNone : thr.children = ∅)
    (hOther : s.machine.threads u = some other) : other.parent ≠ some t := by
  intro hUp
  rcases h.parent hOther hUp with ⟨-, par, hPar, hMem⟩
  rw [hThr, some_inj] at hPar
  rw [← hPar, hNone] at hMem
  cases hMem

omit [DecidableEq τ] in
theorem gone_update [DecidableEq τ] (h : Inv sc s fan base rank)
    (hu : update s.machine.threads t (some thr') u = none) : u ≠ t ∧ s.calls u = [] := by
  by_cases hut : u = t
  · rw [hut, update_self] at hu
    cases hu
  · rw [update_of_ne hut] at hu
    exact ⟨hut, h.gone u hu⟩

/- A thread's flags are none of the stacks' business. -/
theorem flags {joining ended : Bool} (h : Inv sc s fan base rank)
    (hThr : s.machine.threads t = some thr)
    (hEnded : ended → thr.children = ∅ ∧ s.calls t = []) :
    Inv sc ⟨s.machine.setThread t
      (some { thr with i_am_joining := joining, i_have_ended := ended }), s.calls⟩
      fan base rank := by
  refine ⟨h.toCallsHold, h.listed.congr rfl rfl, fun u hu => (h.gone_update hu).2, ?_, ?_, ?_⟩
  · dsimp only [Machine.setThread]
    rw [parents_same, kids_same]
    · exact h.forest
    · rw [kids, hThr]
      rfl
    · rw [parents, hThr]
      rfl
  · intro u other hOther
    rcases update_cases hOther with ⟨rfl, rfl⟩ | ⟨-, hAt⟩
    · exact ⟨(h.stacked hThr).write, (h.stacked hThr).read, (h.stacked hThr).root,
        (h.stacked hThr).inherit⟩
    · exact (h.stacked hAt).frame rfl rfl rfl (fun _ _ => rfl) (fun _ _ => rfl)
  · intro u other hOther
    rcases update_cases hOther with ⟨rfl, rfl⟩ | ⟨-, hAt⟩
    · exact (h.waits hThr).frame rfl rfl (fun v new _ => update_scope hThr rfl) hEnded
    · exact (h.waits hAt).frame rfl rfl (fun v new _ => update_scope hThr rfl)
        (h.waits hAt).ended

/- The calls of a thread without children change. -/
theorem modify (h : Inv sc s fan base rank) (hThr : s.machine.threads t = some thr)
    (hNone : thr.children = ∅) (hEnded : ¬thr.i_have_ended)
    (hThreads : s'.machine.threads =
      update s.machine.threads t (some { thr with wt_context := wt, rd_context := rd }))
    (hCalls : s'.calls = update s.calls t cs') (hListed : s'.machine.Listed fan')
    (hHold : CallsHold fan' (update s.calls t cs'))
    (hStacked : ∀ u other, u ≠ t → s.machine.threads u = some other →
      ∀ x, x ∈ held (s.calls u) ∨ x ∈ base u →
      s'.machine.stacked_context x = s.machine.stacked_context x)
    (hWrite : Chain s'.machine.stacked_context wt (writing cs' ++ base t))
    (hRead : Chain s'.machine.stacked_context rd (reading cs' ++ base t))
    (hWaiting : ¬Waiting cs') : Inv sc s' fan' base rank := by
  have hSelf : s'.calls t = cs' := by rw [hCalls, update_self]
  have hElse : ∀ u, u ≠ t → s'.calls u = s.calls u := by
    intro u hu
    rw [hCalls, update_of_ne hu]
  have hGiven : ∀ u other p, s.machine.threads u = some other → other.parent = some p →
      given sc other.parent_scope (s'.calls p) (base p) =
        given sc other.parent_scope (s.calls p) (base p) := by
    intro u other p hOther hUp
    rw [hElse]
    rintro rfl
    exact h.not_parent hThr hNone hOther hUp
  refine ⟨hCalls ▸ hHold, hListed, ?_, ?_, ?_, ?_⟩
  · intro u hu
    rw [hThreads] at hu
    rcases h.gone_update hu with ⟨hut, hNil⟩
    rw [hElse u hut]
    exact hNil
  · rw [hThreads, parents_same, kids_same]
    · exact h.forest
    · rw [kids, hThr]
      rfl
    · rw [parents, hThr]
      rfl
  · intro u other hOther
    rw [hThreads] at hOther
    rcases update_cases hOther with ⟨rfl, rfl⟩ | ⟨hu, hAt⟩
    · refine ⟨hSelf.symm ▸ hWrite, hSelf.symm ▸ hRead, (h.stacked hThr).root, ?_⟩
      intro p hUp
      rw [hGiven u thr p hThr hUp]
      exact (h.stacked hThr).inherit p hUp
    · have hSame := hElse u hu
      exact (h.stacked hAt).frame (congrArg _ hSame) (congrArg _ hSame) rfl
        (hStacked u other hu hAt) (fun p => hGiven u other p hAt)
  · intro u other hOther
    rw [hThreads] at hOther
    rcases update_cases hOther with ⟨rfl, rfl⟩ | ⟨hu, hAt⟩
    · refine ⟨fun hKids => absurd hNone hKids, ?_, fun hEnd => absurd hEnd hEnded⟩
      intro call cs hCs hCalled
      rw [hSelf] at hCs
      exact absurd ⟨call, cs, hCs, hCalled⟩ hWaiting
    · refine (h.waits hAt).frame (hElse u hu) rfl ?_ (h.waits hAt).ended
      intro v new _
      rw [hThreads]
      exact update_scope hThr rfl

----
-- Starting A Thread
----

omit [DecidableEq τ] in
theorem newChild_write {stacked : γ → Option γ} {stack : List γ}
    (hWrite : Chain stacked thr.wt_context (writing cs' ++ stack)) :
    Chain stacked (Machine.newChild sc t thr scope).wt_context (given sc scope cs' stack) ∧
      Chain stacked (Machine.newChild sc t thr scope).rd_context (given sc scope cs' stack) := by
  unfold Machine.newChild given
  split_ifs
  · exact ⟨hWrite, hWrite⟩
  · exact ⟨rfl, rfl⟩

omit [DecidableEq τ] in
/- What a new child has beside its stacks. -/
theorem newChild_spec (new : VThread σ γ τ) (hNew : new = Machine.newChild sc t thr scope) :
    new.parent = some t ∧ new.parent_scope = scope ∧ new.children = ∅ ∧
      new.i_have_ended = false := by
  rw [hNew, Machine.newChild]
  split_ifs <;> exact ⟨rfl, rfl, rfl, rfl⟩

/- A thread that starts a child, for a call or for a block. -/
theorem forked (h : Inv sc s fan base rank) (hThr : s.machine.threads t = some thr)
    (hFree : s.machine.threads v = none) (hEnded : ¬thr.i_have_ended)
    (hHold : CallsHold fan (update s.calls t cs'))
    (hWriting : writing cs' = writing (s.calls t)) (hReading : reading cs' = reading (s.calls t))
    (hPhase : cs' = [] ∨ (thr.children = ∅ ∧
      ∃ call cs, cs' = call :: cs ∧ call.phase = .called ∧
        sc.is_automatic scope = call.context.isSome)) :
    Inv sc
      ⟨(s.machine.setThread t (some { thr with
          children := insert v thr.children
          task_func_children := tasks })).setThread v
        (some (Machine.newChild sc t thr scope)), update s.calls t cs'⟩ fan
      (update base v (given sc scope (s.calls t) (base t)))
      (update rank v (rank t + 1)) := by
  have hNe : ∀ u other, s.machine.threads u = some other → u ≠ v := by grind
  have htv := hNe t thr hThr
  have hNil := h.gone v hFree
  have hNilV : update s.calls t cs' v = [] := (update_of_ne htv.symm _ _).trans hNil
  rcases newChild_spec (Machine.newChild sc t thr scope) rfl with
    ⟨hNewParent, hNewScope, hNewChildren, hNewEnded⟩
  generalize hNewDef : Machine.newChild sc t thr scope = new at *
  have hNewStacks := @newChild_write σ γ τ sc t thr (s.calls t) scope _ (base t)
    (h.stacked hThr).write
  rw [hNewDef] at hNewStacks
  have hBase : ∀ u other, s.machine.threads u = some other →
      update base v (given sc scope (s.calls t) (base t)) u = base u :=
    fun u other hOther => update_of_ne (hNe u other hOther) _ _
  have hWrites : ∀ u, writing (update s.calls t cs' u) = writing (s.calls u) := by grind
  have hReads : ∀ u, reading (update s.calls t cs' u) = reading (s.calls u) := by grind
  have hStacks : ∀ u other, s.machine.threads u = some other →
      Stacks sc ⟨(s.machine.setThread t (some { thr with
          children := insert v thr.children
          task_func_children := tasks })).setThread v (some new), update s.calls t cs'⟩
        (update base v (given sc scope (s.calls t) (base t))) u other := by
    intro u other hOther
    refine (h.stacked hOther).frame (hWrites u) (hReads u) (hBase u other hOther)
      (fun _ _ => rfl) ?_
    intro p hUp
    rcases h.parent hOther hUp with ⟨-, par, hPar, -⟩
    rw [hBase p par hPar, given, given, hWrites]
  have hScopes : ∀ w kid, s.machine.threads w = some kid →
      ∃ kid', update (update s.machine.threads t (some { thr with
          children := insert v thr.children
          task_func_children := tasks })) v (some new) w = some kid' ∧
        kid'.parent_scope = kid.parent_scope := by grind
  refine ⟨hHold, h.listed.congr rfl rfl, ?_, ?_, ?_, ?_⟩
  · intro u hu
    by_cases huv : u = v
    · rw [huv]
      exact hNilV
    · dsimp only [Machine.setThread] at hu ⊢
      rw [update_of_ne huv] at hu
      rcases h.gone_update hu with ⟨hut, hNilU⟩
      rw [update_of_ne hut]
      exact hNilU
  · have hUpV : parents s.machine.threads v = none := by rw [parents, hFree]; rfl
    have hKidsV : kids s.machine.threads v = ∅ := by rw [kids, hFree]; rfl
    have hKidsT : kids s.machine.threads t = thr.children := by rw [kids, hThr]; rfl
    have hForest := h.forest.graft hUpV hKidsV htv
    dsimp only [Machine.setThread]
    rw [parents_update, parents_same, kids_same, kids_update]
    · rw [hKidsT, ← hNewParent] at hForest
      exact hForest
    · rw [kids_update, update_of_ne htv.symm, hKidsV]
      exact hNewChildren
    · rw [parents, hThr]
      rfl
  · intro u other hOther
    rcases update_cases hOther with ⟨rfl, rfl⟩ | ⟨-, hOther⟩
    · refine ⟨?_, ?_, ?_, ?_⟩
      · rw [hWrites, hNil, update_self]
        exact hNewStacks.1
      · rw [hReads, hNil, update_self]
        exact hNewStacks.2
      · intro hUp
        rw [hNewParent] at hUp
        cases hUp
      · intro p hUp
        rw [hNewParent, some_inj] at hUp
        rw [update_self, ← hUp, hBase t thr hThr, hNewScope, given, given, hWrites]
    · rcases update_cases hOther with ⟨rfl, rfl⟩ | ⟨-, hAt⟩
      · have hOld := hStacks u thr hThr
        exact ⟨hOld.write, hOld.read, hOld.root, hOld.inherit⟩
      · exact hStacks u other hAt
  · intro u other hOther
    rcases update_cases hOther with ⟨rfl, rfl⟩ | ⟨huv, hOther⟩
    · refine ⟨fun hKids => absurd hNewChildren hKids, ?_, fun hEnd => ?_⟩
      · intro call cs hCs
        cases hNilV.symm.trans hCs
      · rw [hNewEnded] at hEnd
        cases hEnd
    · rcases update_cases hOther with ⟨rfl, rfl⟩ | ⟨hut, hAt⟩
      · refine ⟨fun _ => ?_, ?_, fun hEnd => absurd hEnd hEnded⟩
        · rcases hPhase with hNil | ⟨-, call, cs, hCs, hCalled, -⟩
          · exact Or.inl ((update_self _ _ _).trans hNil)
          · exact Or.inr ⟨call, cs, (update_self _ _ _).trans hCs, hCalled⟩
        · intro call cs hCs hCalled
          replace hCs : cs' = call :: cs := (update_self u cs' s.calls).symm.trans hCs
          rcases hPhase with hNil | ⟨hNone, call', rest, hCs', -, hAuto⟩
          · cases hNil.symm.trans hCs
          · rw [hCs, List.cons.injEq] at hCs'
            refine ⟨v, new, ?_, update_self _ _ _, ?_⟩
            · dsimp only
              rw [hNone]
              rfl
            · rw [hNewScope, hCs'.1]
              exact hAuto
      · exact (h.waits hAt).frame (update_of_ne hut _ _) rfl (fun w kid _ => hScopes w kid)
          (h.waits hAt).ended

----
-- Taking A Thread
----

/- A thread that has ended is deleted by its parent. -/
theorem taken (h : Inv sc s fan base rank) (hThr : s.machine.threads t = some thr)
    (hNew : s.machine.threads v = some new) (hMem : v ∈ thr.children) (hNone : new.children = ∅)
    (hNoCalls : s.calls v = []) (hEnded : ¬thr.i_have_ended)
    (hThreads : s'.machine.threads =
      update (update s.machine.threads t (some { thr with
        children := thr.children.erase v
        task_func_children := tasks
        wt_context := wt
        rd_context := rd })) v none)
    (hListed : s'.machine.Listed fan) (hCalls : s'.calls = update s.calls t cs')
    (hStacked : ∀ u other, u ≠ t → u ≠ v →
      s.machine.threads u = some other →
      ∀ x, x ∈ held (s.calls u) ∨ x ∈ base u →
      s'.machine.stacked_context x = s.machine.stacked_context x)
    (hWrite : Chain s'.machine.stacked_context wt (writing cs' ++ base t))
    (hRead : Chain s'.machine.stacked_context rd (reading cs' ++ base t))
    (hKids : thr.children.erase v ≠ ∅ → cs' = [] ∧ s.calls t = []) (hWaiting : ¬Waiting cs')
    (hHold : CallsHold fan (update s.calls t cs')) : Inv sc s' fan base rank := by
  have hUpV : new.parent = some t := by
    rcases h.child hThr hMem with ⟨kid, hKid, hUp⟩
    rw [hNew, some_inj] at hKid
    rw [hKid]
    exact hUp
  have htv : t ≠ v := by grind
  have hSelf : s'.calls t = cs' := by rw [hCalls, update_self]
  have hElse : ∀ u, u ≠ t → s'.calls u = s.calls u := by
    intro u hu
    rw [hCalls, update_of_ne hu]
  -- another child is left where the parent is the thread, so the thread is in a block
  have hGiven : ∀ u other p, u ≠ v → s.machine.threads u = some other →
      other.parent = some p →
      given sc other.parent_scope (s'.calls p) (base p) =
        given sc other.parent_scope (s.calls p) (base p) := by
    intro u other p huv hOther hUp
    by_cases hpt : p = t
    · rcases h.parent hOther hUp with ⟨-, par, hPar, hMemU⟩
      rw [hpt, hThr, some_inj] at hPar
      rw [← hPar] at hMemU
      rcases hKids (Finset.ne_empty_of_mem (Finset.mem_erase.mpr ⟨huv, hMemU⟩)) with
        ⟨hNil, hNilOld⟩
      rw [hpt, hSelf, hNil, hNilOld]
    · rw [hElse p hpt]
  have hOnlyParent : ∀ u other, s.machine.threads u = some other →
      v ∈ other.children → u = t := by
    intro u other hOther hMemU
    rcases h.child hOther hMemU with ⟨kid, hKid, hUp⟩
    grind
  refine ⟨hCalls ▸ hHold, hListed, ?_, ?_, ?_, ?_⟩
  · intro u hu
    by_cases huv : u = v
    · rw [huv, hElse v htv.symm]
      exact hNoCalls
    · rw [hThreads, update_of_ne huv] at hu
      rcases h.gone_update hu with ⟨hut, hNil⟩
      rw [hElse u hut]
      exact hNil
  · have hUp : parents s.machine.threads v = some t := by rw [parents, hNew]; exact hUpV
    have hKidsT : kids s.machine.threads t = thr.children := by rw [kids, hThr]; rfl
    have hForest := h.forest.prune hUp
    rw [hThreads, parents_update, parents_same, kids_same, kids_update]
    · rw [hKidsT] at hForest
      exact hForest
    · rw [kids_update, update_of_ne htv.symm, kids, hNew]
      exact hNone.symm
    · rw [parents, hThr]
      rfl
  · intro u other hOther
    rw [hThreads] at hOther
    rcases update_cases_none hOther with ⟨huv, hOther⟩
    rcases update_cases hOther with ⟨rfl, rfl⟩ | ⟨hut, hAt⟩
    · refine ⟨hSelf.symm ▸ hWrite, hSelf.symm ▸ hRead, (h.stacked hThr).root, ?_⟩
      intro p hUp
      rw [hGiven u thr p htv hThr hUp]
      exact (h.stacked hThr).inherit p hUp
    · have hSame := hElse u hut
      exact (h.stacked hAt).frame (congrArg _ hSame) (congrArg _ hSame) rfl
        (hStacked u other hut huv hAt) (fun p => hGiven u other p huv hAt)
  · intro u other hOther
    rw [hThreads] at hOther
    rcases update_cases_none hOther with ⟨-, hOther⟩
    rcases update_cases hOther with ⟨rfl, rfl⟩ | ⟨hut, hAt⟩
    · refine ⟨fun hLeft => ?_, ?_, fun hEnd => absurd hEnd hEnded⟩
      · rw [hSelf]
        exact Or.inl (hKids hLeft).1
      · intro call cs hCs hCalled
        rw [hSelf] at hCs
        exact absurd ⟨call, cs, hCs, hCalled⟩ hWaiting
    · refine (h.waits hAt).frame (hElse u hut) rfl ?_ (h.waits hAt).ended
      intro w kid hMemW hKid
      have hwv : w ≠ v := by grind
      rw [hThreads, update_of_ne hwv]
      exact update_scope hThr rfl hKid

end Inv

end AutoContext

end EpicSim
