import EpicSim.Vvp.AutoContext

/-
  The lists of live and of free contexts: what allocating
  and freeing a context makes of them.
-/

namespace EpicSim

open Function (update_self update_of_ne update_apply update)

namespace AutoContext

open FanOut

/- The two lists of every scope. -/
inductive ListKind
| live
| free
deriving DecidableEq, Repr

variable {σ γ τ : Type} [DecidableEq σ] [DecidableEq γ]
  {sc : Scopes σ} {m m' : Machine σ γ τ}
  {fan : σ × ListKind → List γ} {scope : σ} {c fresh : γ}

namespace Machine

/- The lists of all scopes are linked by one pointer. -/
def lists (m : Machine σ γ τ) : FanOut (σ × ListKind) γ where
  out
  | (scope, .live) => m.live_contexts scope
  | (scope, .free) => m.free_contexts scope
  next := m.next_context

/- The contexts that a scope has had are on its two lists. -/
structure Listed (m : Machine σ γ τ) (fan : σ × ListKind → List γ) : Prop where
  holds : m.lists.Holds fan
  allocated : ∀ scope c, c ∈ m.allocated scope ↔ c ∈ fan (scope, .live) ∨ c ∈ fan (scope, .free)

/- The lists after a context went from one to the other. -/
def moved (fan : σ × ListKind → List γ) (scope : σ) (c : γ)
    (k k' : ListKind) : σ × ListKind → List γ :=
  update
    (update fan (scope, k) ((fan (scope, k)).erase c))
    (scope, k') (c :: fan (scope, k'))

theorem mem_moved {k k' : ListKind} {d : σ × ListKind} {x : γ} (hNe : k ≠ k')
    (hNodup : (fan (scope, k)).Nodup) :
    x ∈ moved fan scope c k k' d ↔
      (x ∈ fan d ∧ ¬(d = (scope, k) ∧ x = c)) ∨
        (d = (scope, k') ∧ x = c) := by
  have hKinds : (scope, k) ≠ (scope, k') := by
    intro hEq
    exact hNe (Prod.mk.inj hEq).2
  unfold moved
  by_cases hTo : d = (scope, k')
  · rw [hTo, update_self, List.mem_cons]
    tauto
  · grind

namespace Listed

omit [DecidableEq σ] in
theorem fuel (h : m.Listed fan) (scope : σ) (k : ListKind) :
    (fan (scope, k)).length ≤ (m.allocated scope).card := by
  rw [← List.toFinset_card_of_nodup (h.holds.nodup (scope, k))]
  apply Finset.card_le_card
  intro x hx
  rw [h.allocated]
  cases k with
  | live => exact Or.inl (List.mem_toFinset.mp hx)
  | free => exact Or.inr (List.mem_toFinset.mp hx)

/- Taking a context out of one list and into the other. -/
theorem moved_holds {s : FanOut (σ × ListKind) γ} {k k' : ListKind} {fuel : Nat}
    (h : m.Listed fan) (hNe : k ≠ k') (hIn : c ∈ fan (scope, k))
    (hFuel : (fan (scope, k)).length ≤ fuel)
    (hRemove : FanOut.remove fuel m.lists (scope, k) c = some s) :
    (s.push (scope, k') c).Holds (moved fan scope c k k') := by
  rcases h.holds.remove hIn hFuel with ⟨s', hSome, -, hHolds⟩
  rw [hRemove, Option.some_inj] at hSome
  rw [← hSome] at hHolds
  have hKinds : (scope, k') ≠ (scope, k) := by
    intro hEq
    exact hNe (Prod.mk.inj hEq).2.symm
  have hGone : ∀ d, c ∉ update fan (scope, k) ((fan (scope, k)).erase c) d := by
    intro d hMem
    by_cases hd : d = (scope, k)
    · rw [hd, update_self, (h.holds.nodup _).mem_erase_iff] at hMem
      exact hMem.1 rfl
    · rw [update_of_ne hd] at hMem
      exact hd (h.holds.apart _ _ c hMem hIn)
  have hPush := hHolds.push (scope, k') hGone
  rw [update_of_ne hKinds] at hPush
  exact hPush

omit [DecidableEq σ] [DecidableEq γ] in
theorem congr {m' : Machine σ γ τ} (h : m.Listed fan) (hLists : m'.lists = m.lists)
    (hAllocated : m'.allocated = m.allocated) : m'.Listed fan := by
  refine ⟨?_, ?_⟩
  · rw [hLists]
    exact h.holds
  · rw [hAllocated]
    exact h.allocated

/- A free context is the first of its list. -/
omit [DecidableEq σ] [DecidableEq γ] in
theorem first_free (h : m.Listed fan) (hFree : m.free_contexts scope = some c) :
    c ∈ fan (scope, .free) := by
  have hChain := h.holds.chain (scope, .free)
  have hOut : m.lists.out (scope, .free) = some c := hFree
  rw [hOut] at hChain
  cases hList : fan (scope, .free) with
  | nil =>
    rw [hList] at hChain
    cases hChain
  | cons x rest =>
    rw [hList] at hChain
    rw [Option.some.inj hChain.1]
    exact List.mem_cons_self

/- A moved context leaves the contexts of each scope alone. -/
theorem of_moved {k k' : ListKind} (h : m.Listed fan) (hNe : k ≠ k')
    (hIn : c ∈ fan (scope, k)) (hAllocated : m'.allocated = m.allocated)
    (hHolds : m'.lists.Holds (moved fan scope c k k')) : m'.Listed (moved fan scope c k k') := by
  refine ⟨hHolds, ?_⟩
  intro scope' x
  have hNodup := h.holds.nodup (scope, k)
  rw [hAllocated, h.allocated, mem_moved hNe hNodup, mem_moved hNe hNodup]
  constructor
  · intro hx
    by_cases hxc : x = c ∧ scope' = scope
    · rcases hxc with ⟨rfl, rfl⟩
      cases k' with
      | live => exact Or.inl (Or.inr ⟨rfl, rfl⟩)
      | free => exact Or.inr (Or.inr ⟨rfl, rfl⟩)
    · grind
  · intro hx
    have hBack : ∀ k₀ : ListKind,
        (scope', k₀) = (scope, k') ∧ x = c →
          x ∈ fan (scope', .live) ∨ x ∈ fan (scope', .free) := by
      rintro k₀ ⟨hEq, rfl⟩
      rw [(Prod.mk.inj hEq).1]
      cases k with
      | live => exact Or.inl hIn
      | free => exact Or.inr hIn
    grind

/- A context of the free list becomes the first live one. -/
theorem alloc_free (h : m.Listed fan) (hAuto : sc.is_automatic scope)
    (hFree : m.free_contexts scope = some c) :
    ∃ m', m.vthread_alloc_context sc scope fresh = some (c, m') ∧
      m'.Listed (moved fan scope c .free .live) ∧
      m'.stacked_context = m.stacked_context ∧
      m'.threads = m.threads := by
  have hIn := h.first_free hFree
  have hRemove : FanOut.remove (m.allocated scope).card m.lists
      (scope, .free) c = some _ := if_pos hFree
  have hNe : ListKind.free ≠ .live := by decide
  have hHolds := h.moved_holds hNe hIn (h.fuel scope .free) hRemove
  unfold vthread_alloc_context
  rw [if_pos hAuto, hFree]
  refine ⟨_, rfl, h.of_moved hNe hIn rfl (hHolds.congr ?_ ?_), rfl, rfl⟩
  · funext ⟨scope', k⟩
    simp only [lists, FanOut.push]
    cases k <;> grind
  · funext x
    simp only [lists, FanOut.push]
    grind

omit [DecidableEq σ] [DecidableEq γ] in
theorem not_listed (h : m.Listed fan) (hFresh : ∀ scope', fresh ∉ m.allocated scope')
    (d : σ × ListKind) : fresh ∉ fan d := by
  rcases d with ⟨scope', k⟩
  intro hMem
  apply hFresh scope'
  rw [h.allocated]
  cases k with
  | live => exact Or.inl hMem
  | free => exact Or.inr hMem

/- A new context becomes the first live one. -/
theorem alloc_new (h : m.Listed fan) (hAuto : sc.is_automatic scope)
    (hFree : m.free_contexts scope = none) (hFresh : ∀ scope', fresh ∉ m.allocated scope') :
    ∃ m', m.vthread_alloc_context sc scope fresh = some (fresh, m') ∧
      m'.Listed (update fan (scope, .live) (fresh :: fan (scope, .live))) ∧
      m'.stacked_context = m.stacked_context ∧
      m'.threads = m.threads := by
  have hHolds := h.holds.push (scope, .live) (h.not_listed hFresh)
  unfold vthread_alloc_context
  rw [if_pos hAuto, hFree]
  refine ⟨_, rfl, ⟨hHolds.congr ?_ ?_, ?_⟩, rfl, rfl⟩
  · funext ⟨scope', k⟩
    simp only [lists, FanOut.push]
    cases k <;> grind
  · rfl
  · intro scope' x
    have hAllocated := h.allocated scope' x
    have hFreeKind : (scope', ListKind.free) ≠ (scope, ListKind.live) := by
      intro hEq
      cases (Prod.mk.inj hEq).2
    dsimp only
    rw [update_of_ne hFreeKind]
    grind

/-
  What an allocation does: the context was on no live list
  and is now on the one of its scope.
-/
theorem alloc (h : m.Listed fan) (hAuto : sc.is_automatic scope)
    (hFresh : ∀ scope', fresh ∉ m.allocated scope') :
    ∃ c m' fan', m.vthread_alloc_context sc scope fresh = some (c, m') ∧
      m'.Listed fan' ∧
      (∀ scope', c ∉ fan (scope', .live)) ∧
      c ∈ fan' (scope, .live) ∧
      (∀ scope' x, x ∈ fan (scope', .live) → x ∈ fan' (scope', .live)) ∧
      m'.stacked_context = m.stacked_context ∧
      m'.threads = m.threads := by
  cases hFree : m.free_contexts scope with
  | some c =>
    rcases @h.alloc_free σ γ τ _ _ sc m fan scope c fresh
      hAuto hFree with ⟨m', hRun, hListed, hRest⟩
    have hIn := h.first_free hFree
    have hNe : ListKind.free ≠ .live := by decide
    have hNodup := h.holds.nodup (scope, .free)
    refine ⟨c, m', _, hRun, hListed, ?_, ?_, ?_, hRest⟩
    · intro scope' hLive
      have hSame := h.holds.apart _ _ c hLive hIn
      cases (Prod.mk.inj hSame).2
    · rw [mem_moved hNe hNodup]
      exact Or.inr ⟨rfl, rfl⟩
    · intro scope' x hx
      rw [mem_moved hNe hNodup]
      grind
  | none =>
    rcases h.alloc_new hAuto hFree hFresh with ⟨m', hRun, hListed, hRest⟩
    refine ⟨fresh, m', _, hRun, hListed, ?_, ?_, ?_, hRest⟩
    · intro scope'
      exact h.not_listed hFresh (scope', .live)
    · rw [update_self]
      exact List.mem_cons_self
    · grind

/- A context that is not the first one has one before it. -/
omit [DecidableEq σ] in
theorem scan_before (h : m.Listed fan) (hIn : c ∈ fan (scope, .live))
    (hFirst : m.live_contexts scope ≠ some c) :
    ∃ tmp, FanOut.scan m.next_context c
      (m.allocated scope).card (m.live_contexts scope) = some (some tmp) := by
  have hChain := h.holds.chain (scope, .live)
  have hNodup := h.holds.nodup (scope, .live)
  have hFuel := h.fuel scope .live
  rcases List.append_of_mem hIn with ⟨left, right, hList⟩
  rcases List.eq_nil_or_concat left with rfl | ⟨before, tmp, rfl⟩
  · rw [hList] at hChain
    exact absurd hChain.1 hFirst
  · rw [List.concat_eq_append, List.append_assoc] at hList
    rw [hList] at hChain hNodup hFuel
    refine ⟨tmp, scan_spec hChain hNodup ?_⟩
    simp only [List.length_append, List.length_cons] at hFuel
    omega

/- A live context becomes the first free one. -/
theorem free (h : m.Listed fan) (hAuto : sc.is_automatic scope) (hIn : c ∈ fan (scope, .live)) :
    ∃ m', m.vthread_free_context sc c scope = some m' ∧
      m'.Listed (moved fan scope c .live .free) ∧
      m'.stacked_context = m.stacked_context ∧
      m'.threads = m.threads := by
  have hNe : ListKind.live ≠ .free := by decide
  unfold vthread_free_context
  rw [if_pos hAuto]
  by_cases hFirst : m.live_contexts scope = some c
  · have hRemove : FanOut.remove (m.allocated scope).card
        m.lists (scope, .live) c = some _ := if_pos hFirst
    have hHolds := h.moved_holds hNe hIn (h.fuel scope .live) hRemove
    rw [if_pos hFirst]
    refine ⟨_, rfl, h.of_moved hNe hIn rfl (hHolds.congr ?_ ?_), rfl, rfl⟩
    · funext ⟨scope', k⟩
      simp only [lists, FanOut.push]
      cases k <;> grind
    · funext x
      simp only [lists, FanOut.push]
      grind
  · rcases h.scan_before hIn hFirst with ⟨tmp, hScan⟩
    rw [if_neg hFirst, hScan]
    have hRemove : FanOut.remove (m.allocated scope).card
        m.lists (scope, .live) c =
          some
            { m.lists with
              next := update
                (update m.next_context tmp (m.next_context c)) c none } := by
      have hOut : m.lists.out (scope, .live) = m.live_contexts scope := rfl
      unfold FanOut.remove
      rw [hOut, if_neg hFirst]
      cases hStart : m.live_contexts scope with
      | none =>
        rw [hStart] at hScan
        cases hCard : (m.allocated scope).card <;>
          rw [hCard] at hScan <;> cases hScan
      | some cur =>
        rw [hStart] at hScan
        have hScan' : FanOut.scan m.lists.next c
            (m.allocated scope).card (some cur) = some (some tmp) := hScan
        simp only [hScan']
        rfl
    have hHolds := h.moved_holds hNe hIn (h.fuel scope .live) hRemove
    refine ⟨_, rfl, h.of_moved hNe hIn rfl (hHolds.congr ?_ ?_), rfl, rfl⟩
    · funext ⟨scope', k⟩
      simp only [lists, FanOut.push]
      cases k <;> grind
    · funext x
      simp only [FanOut.push, lists, Function.update_idem]

end Listed

end Machine

end AutoContext

end EpicSim
