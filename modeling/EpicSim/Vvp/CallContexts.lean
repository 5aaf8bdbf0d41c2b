import EpicSim.Vvp.ContextSteps

/-
  Automatic contexts are used by one call at a time: in every
  run of the opcodes of calls a context belongs to one call,
  an allocation gives one that no call uses, and a call that
  is over leaves the stacks of its thread as they were.
-/

namespace EpicSim

namespace AutoContext

open FanOut

variable {σ γ τ : Type} [DecidableEq σ] [DecidableEq γ]
  [DecidableEq τ] {sc : Scopes σ} {s s' : CallState σ γ τ}
  {fan : σ × ListKind → List γ} {base : τ → List γ}
  {rank : τ → Nat} {t : τ} {thr : VThread σ γ τ} {c : γ}

----
-- Runs
----

omit [DecidableEq σ] [DecidableEq γ] [DecidableEq τ] in
theorem initial_inv :
    Inv sc (CallState.initial : CallState σ γ τ) (fun _ => []) (fun _ => []) (fun _ => 0) := by
  refine ⟨⟨?_, fun _ => List.nodup_nil, ?_, ?_⟩, ⟨⟨?_, fun _ => List.nodup_nil, ?_⟩, ?_⟩,
    fun _ _ => rfl, ⟨?_, ?_⟩, (nomatch ·), (nomatch ·)⟩
  · intro t call c hCall
    cases hCall
  · intro t u c hc
    cases hc
  · intro t call cs hCs
    cases hCs
  · rintro ⟨scope, k⟩
    cases k <;> rfl
  · intro d d' c hc
    cases hc
  · intro scope c
    simp [CallState.initial]
  · intro v t
    simp [CallState.initial, parents, kids]
  · intro v t hUp
    cases hUp

/- The invariant holds in every state of a run. -/
theorem Runs.inv (h : Runs sc s) : ∃ fan base rank, Inv sc s fan base rank := by
  induction h with
  | initial => exact ⟨_, _, _, initial_inv⟩
  | step op _ hAllowed hRun ih =>
    rcases ih with ⟨fan, base, rank, hInv⟩
    rcases hInv.step op hAllowed with ⟨s', hRun', fan', base', rank', hInv', -⟩
    grind

/- A thread keeps the stack that it was started with. -/
theorem RunsWith.inv (h : RunsWith sc t s s') (hInv : Inv sc s fan base rank)
    (hAlive : (s.machine.threads t).isSome) :
    (s'.machine.threads t).isSome ∧
      ∃ fan' base' rank', Inv sc s' fan' base' rank' ∧
        base' t = base t := by
  induction h with
  | here => exact ⟨hAlive, fan, base, rank, hInv, rfl⟩
  | step op _ hAllowed hRun hStays ih =>
    rcases ih with ⟨hThere, fan', base', rank', hInv', hBase⟩
    rcases hInv'.step op hAllowed with ⟨s'', hRun', fan'', base'', rank'', hInv'', hKeep⟩
    grind

----
-- The Stacks
----

namespace Inv

omit [DecidableEq σ] [DecidableEq γ] [DecidableEq τ] in
theorem writeStack_iff (h : Inv sc s fan base rank) (hAlive : (s.machine.threads t).isSome)
    (stack : List γ) :
    s.WriteStack t stack ↔
      stack = writing (s.calls t) ++ base t := by
  rcases Option.isSome_iff_exists.mp hAlive with ⟨thr, hThr⟩
  have hWrite := (h.stacked hThr).write
  constructor
  · rintro ⟨thr', hThr', hChain⟩
    rw [hThr, Option.some_inj] at hThr'
    rw [← hThr'] at hChain
    exact chain_unique hChain hWrite
  · rintro rfl
    exact ⟨thr, hThr, hWrite⟩

omit [DecidableEq σ] [DecidableEq γ] [DecidableEq τ] in
theorem readStack_iff (h : Inv sc s fan base rank) (hAlive : (s.machine.threads t).isSome)
    (stack : List γ) :
    s.ReadStack t stack ↔
      stack = reading (s.calls t) ++ base t := by
  rcases Option.isSome_iff_exists.mp hAlive with ⟨thr, hThr⟩
  have hRead := (h.stacked hThr).read
  constructor
  · rintro ⟨thr', hThr', hChain⟩
    rw [hThr, Option.some_inj] at hThr'
    rw [← hThr'] at hChain
    exact chain_unique hChain hRead
  · rintro rfl
    exact ⟨thr, hThr, hRead⟩

/- What is on a stack is a context that a call uses. -/
omit [DecidableEq σ] [DecidableEq γ] [DecidableEq τ] in
theorem within_of_onStack (h : Inv sc s fan base rank) (hc : s.OnStack t c) : s.Within t c := by
  rcases hc with ⟨stack, hStack, hMem⟩
  have hAlive : (s.machine.threads t).isSome := by
    rcases hStack with ⟨thr, hThr, -⟩ | ⟨thr, hThr, -⟩ <;>
      exact Option.isSome_iff_exists.mpr ⟨thr, hThr⟩
  rcases Option.isSome_iff_exists.mp hAlive with ⟨thr, hThr⟩
  have hPlace : c ∈ held (s.calls t) ∨ c ∈ base t := by
    rcases hStack with hWrite | hRead
    · rw [(h.writeStack_iff hAlive stack).mp hWrite] at hMem
      exact (List.mem_append.mp hMem).imp_left held_of_writing
    · rw [(h.readStack_iff hAlive stack).mp hRead] at hMem
      exact (List.mem_append.mp hMem).imp_left held_of_reading
  rcases h.stack_user hThr hPlace with ⟨q, hHeld, hPath⟩
  exact ⟨q, mem_held.mp hHeld, hPath⟩

omit [DecidableEq σ] [DecidableEq γ] [DecidableEq τ] in
theorem live_of_uses (h : Inv sc s fan base rank) (hc : s.Uses t c) :
    ∃ scope, c ∈ fan (scope, .live) :=
  h.live_of_held (mem_held.mpr hc)

theorem right (h : Inv sc s fan base rank) : ContextsRight sc s := by
  constructor
  · intro scope
    refine ⟨fan (scope, .live), fan (scope, .free), h.listed.holds.chain (scope, .live),
      h.listed.holds.chain (scope, .free), ?_, ?_⟩
    · refine List.nodup_append.mpr ⟨h.listed.holds.nodup _, h.listed.holds.nodup _, ?_⟩
      rintro x hLive y hFree rfl
      have hSame := h.listed.holds.apart _ _ x hLive hFree
      cases (Prod.mk.inj hSame).2
    · intro c
      rw [h.listed.allocated, List.mem_append]
  · intro scope scope' c hc hc'
    have hPlace : ∀ scope₀, c ∈ s.machine.allocated scope₀ →
        ∃ k, c ∈ fan (scope₀, k) := by
      intro scope₀ hMem
      rcases (h.listed.allocated scope₀ c).mp hMem with hLive | hFree
      · exact ⟨.live, hLive⟩
      · exact ⟨.free, hFree⟩
    rcases hPlace scope hc with ⟨k, hk⟩
    rcases hPlace scope' hc' with ⟨k', hk'⟩
    exact (Prod.mk.inj (h.listed.holds.apart _ _ c hk hk')).1
  · intro t u c ht hu
    exact h.user t u c (mem_held.mpr ht) (mem_held.mpr hu)
  · exact h.once
  · intro t hAlive
    exact ⟨⟨_, (h.writeStack_iff hAlive _).mpr rfl⟩, ⟨_, (h.readStack_iff hAlive _).mpr rfl⟩⟩
  · intro t u c hUnrelated hBoth
    exact hUnrelated ⟨c, h.within_of_onStack hBoth.1, h.within_of_onStack hBoth.2⟩
  · intro t scope fresh c m hAllowed hRun u
    rcases h.listed.alloc hAllowed.2.1 hAllowed.2.2 with ⟨c', m', fan', hRun', -, hOut, -⟩
    rw [hRun, Option.some_inj] at hRun'
    rw [← (Prod.mk.inj hRun').1] at hOut
    have hNot : ∀ q, ¬s.Uses q c := by
      intro q hUses
      rcases h.live_of_uses hUses with ⟨scope', hLive⟩
      exact hOut scope' hLive
    refine ⟨hNot u, ?_⟩
    intro hOn
    rcases h.within_of_onStack hOn with ⟨q, hUses, -⟩
    exact hNot q hUses

end Inv

/-
  In every state of a run each context is of one call, no
  opcode of the pattern fails, and when a thread has again
  the calls that it has now, its stacks are what they are
  now.
-/
theorem contexts_right (hRuns : Runs sc s) :
    ContextsRight sc s ∧
      (∀ op : Op σ γ τ, op.Allowed sc s → (op.run sc s).isSome) ∧
      ∀ t s', (s.machine.threads t).isSome →
        RunsWith sc t s s' → s'.calls t = s.calls t →
        ∀ stack,
          (s'.WriteStack t stack ↔ s.WriteStack t stack) ∧
          (s'.ReadStack t stack ↔ s.ReadStack t stack) := by
  rcases hRuns.inv with ⟨fan, base, rank, hInv⟩
  refine ⟨hInv.right, ?_, ?_⟩
  · intro op hAllowed
    rcases hInv.step op hAllowed with ⟨s', hRun, -⟩
    rw [hRun]
    rfl
  · intro t s' hAlive hWith hCalls stack
    rcases hWith.inv hInv hAlive with ⟨hAlive', fan', base', rank', hInv', hBase⟩
    rw [hInv'.writeStack_iff hAlive', hInv.writeStack_iff hAlive,
      hInv'.readStack_iff hAlive', hInv.readStack_iff hAlive, hCalls, hBase]
    exact ⟨Iff.rfl, Iff.rfl⟩

/- A module and an automatic function. -/
def twoScopes : Scopes Nat where
  is_automatic := fun scope => scope == 1
  type_code := fun scope => if scope = 1 then .vpiFunction else .other

/- One call of the function, from %alloc to %free. -/
theorem contexts_right_call :
    ∃ s₁ s₂ s₃ s₄ s₅ s₆ : CallState Nat Nat Nat,
      (Op.start 0 0).run twoScopes CallState.initial = some s₁ ∧
      (Op.alloc 0 1 7).run twoScopes s₁ = some s₂ ∧
      (Op.callf 0 1 1).run twoScopes s₂ = some s₃ ∧
      (Op.join 0 1).run twoScopes s₃ = some s₄ ∧
      (Op.endThread 1).run twoScopes s₄ = some s₅ ∧
      (Op.free 0 1).run twoScopes s₅ = some s₆ ∧
      ContextsRight twoScopes s₆ := by
  refine ⟨_, _, _, _, _, _, rfl, rfl, rfl, rfl, rfl, rfl,
    (contexts_right
      (Runs.step (.free 0 1)
        (Runs.step (.endThread 1)
          (Runs.step (.join 0 1)
            (Runs.step (.callf 0 1 1)
              (Runs.step (.alloc 0 1 7)
                (Runs.step (.start 0 0) Runs.initial ?_ rfl)
                ?_ rfl) ?_ rfl) ?_ rfl) ?_ rfl) ?_ rfl)).1⟩
  · exact rfl
  · exact ⟨⟨_, ⟨rfl, rfl, rfl⟩, rfl, fun hW => by
      rcases hW with ⟨c, cs, hCs, -⟩
      cases hCs⟩, rfl, fun _ => Finset.notMem_empty 7⟩
  · exact ⟨_, ⟨rfl, rfl, rfl⟩, rfl, rfl, 7, [], rfl⟩
  · exact ⟨_, ⟨rfl, rfl, rfl⟩, by decide, Or.inr (by decide)⟩
  · exact ⟨⟨_, ⟨rfl, rfl, rfl⟩, rfl⟩, rfl⟩
  · exact ⟨⟨_, rfl, rfl, rfl⟩, rfl, 7, [], rfl⟩

end AutoContext

end EpicSim
