import Mathlib.Algebra.Order.BigOperators.Group.Finset

/-
  Recursive pushing of values along the edges of a network.

  A push merges what an edge passes into the value of its
  destination.  A destination whose value changes is pushed
  on at once, before the remaining edges of the source.

  A run is watched by a predicate on its pushes: it is
  refused at the first changing push that breaks it.  When
  no push merges values that clash, the recursion ends and
  every edge is settled.  What a resting assignment absorbs
  from every push of a run, it absorbs at the end.
-/

----
-- Networks
----

/- Nodes with inputs, edges that pass values between them. -/
structure PushNetwork (N E V : Type*) where
  src : E → N
  dst : E → N
  live : E → Bool
  input : N → Option V
  pass : E → V → V
  merge : V → V → V
  onward : E → List E

namespace PushNetwork

open Function (update update_of_ne update_self)

variable {N E V : Type*}
variable (net : PushNetwork N E V)

/- The values of the visited nodes. -/
abbrev Values (N V : Type*) := N → Option V

/- How a watched run stops before its end. -/
inductive Stop where
| fuel : Stop
| refused : Stop
deriving DecidableEq

/- The value an edge finds at its destination. -/
def target (val : Values N V) (n : N) : Option V :=
  (val n).or (net.input n)

section Runs

variable [DecidableEq N] [DecidableEq V]
variable (meets : E → V → V → Prop)
variable [∀ e v w, Decidable (meets e v w)]

/-
  One push along an edge.  A node without value or input
  takes part in nothing.  `meets e v w` allows `e` to change
  the value `w` of its destination by passing `v`.
-/
def push : Nat → Values N V → E → Except Stop (Values N V)
| 0, _, _ => .error .fuel
| fuel + 1, val, e =>
  if net.live e = false then .ok val
  else
    match val (net.src e), net.target val (net.dst e) with
    | some v, some w =>
      let merged := net.merge w (net.pass e v)
      if val (net.dst e) = some merged then .ok val
      else if meets e v w then
        (net.onward e).foldlM (push fuel)
          (update val (net.dst e) (some merged))
      else .error .refused
    | _, _ => .ok val

/- Visit a node: push its input along the given edges. -/
def visit (fuel : Nat) (val : Values N V) (start : N × List E) :
    Except Stop (Values N V) :=
  match val start.1, net.input start.1 with
  | none, some i =>
    start.2.foldlM (net.push meets fuel) (update val start.1 (some i))
  | _, _ => .ok val

/- Visit nodes one after the other. -/
def pushAll (fuel : Nat) (val : Values N V) (starts : List (N × List E)) :
    Except Stop (Values N V) :=
  starts.foldlM (net.visit meets fuel) val

----
-- One Push
----

/- A push that leaves the values as they are. -/
def Quiet (val : Values N V) (e : E) : Prop :=
  net.live e = true → ∀ v w, val (net.src e) = some v →
    net.target val (net.dst e) = some w →
      val (net.dst e) = some (net.merge w (net.pass e v))

/- A push that changes its destination from `w`, by passing `v`. -/
structure Changes (val : Values N V) (e : E) (v w : V) : Prop where
  live : net.live e = true
  src : val (net.src e) = some v
  dst : net.target val (net.dst e) = some w
  changed : val (net.dst e) ≠ some (net.merge w (net.pass e v))

/- The values after a changing push. -/
def pushed (val : Values N V) (e : E) (v w : V) : Values N V :=
  update val (net.dst e) (some (net.merge w (net.pass e v)))

/- What one push can do. -/
theorem push_cases (fuel : Nat) (val : Values N V) (e : E) :
    (net.Quiet val e ∧ net.push meets (fuel + 1) val e = .ok val) ∨
      ∃ v w, net.Changes val e v w ∧
        ((meets e v w ∧
            net.push meets (fuel + 1) val e =
              (net.onward e).foldlM (net.push meets fuel)
                (net.pushed val e v w)) ∨
          ¬meets e v w ∧
            net.push meets (fuel + 1) val e = .error .refused) := by
  rw [push]
  cases hLive : net.live e with
  | false =>
    refine Or.inl ⟨?_, rfl⟩
    intro h
    rw [hLive] at h
    cases h
  | true =>
    cases hv : val (net.src e) with
    | none =>
      refine Or.inl ⟨?_, rfl⟩
      intro _ v w h
      rw [hv] at h
      cases h
    | some v =>
      cases hw : net.target val (net.dst e) with
      | none =>
        refine Or.inl ⟨?_, rfl⟩
        intro _ v w _ h
        rw [hw] at h
        cases h
      | some w =>
        simp only [Bool.true_eq_false, if_false]
        split_ifs with hSame hMeets
        · refine Or.inl ⟨?_, rfl⟩
          intro _ v' w' hv' hw'
          grind
        · exact Or.inr ⟨v, w, ⟨hLive, hv, hw, hSame⟩, Or.inl ⟨hMeets, rfl⟩⟩
        · exact Or.inr ⟨v, w, ⟨hLive, hv, hw, hSame⟩, Or.inr ⟨hMeets, rfl⟩⟩

/- What one visit can do. -/
theorem visit_cases (fuel : Nat) (val : Values N V) (start : N × List E) :
    ((val start.1 ≠ none ∨ net.input start.1 = none) ∧
        net.visit meets fuel val start = .ok val) ∨
      ∃ i, val start.1 = none ∧ net.input start.1 = some i ∧
        net.visit meets fuel val start =
          start.2.foldlM (net.push meets fuel)
            (update val start.1 (some i)) := by
  unfold visit
  cases hv : val start.1 with
  | some v => exact Or.inl ⟨Or.inl (by simp), rfl⟩
  | none =>
    cases hi : net.input start.1 with
    | none => exact Or.inl ⟨Or.inr rfl, rfl⟩
    | some i => exact Or.inr ⟨i, rfl, rfl, rfl⟩

----
-- Fuel
----

/- Steps that agree up to a lack of fuel fold to the same result. -/
theorem foldlM_agree {ι σ : Type*} {step step' : σ → ι → Except Stop σ}
    (h : ∀ s i, step s i ≠ .error .fuel → step' s i = step s i)
    (items : List ι) (s : σ) (hRun : items.foldlM step s ≠ .error .fuel) :
    items.foldlM step' s = items.foldlM step s := by
  induction items generalizing s with
  | nil => rfl
  | cons i items ih =>
    rw [List.foldlM_cons] at hRun ⊢
    rw [List.foldlM_cons]
    have hStep : step s i ≠ .error .fuel := by
      intro hFuel
      rw [hFuel] at hRun
      exact hRun rfl
    rw [h s i hStep]
    cases hFirst : step s i with
    | error stop => rfl
    | ok s' =>
      rw [hFirst] at hRun
      exact ih s' hRun

theorem push_succ (fuel : Nat) :
    ∀ (val : Values N V) (e : E),
      net.push meets fuel val e ≠ .error .fuel →
        net.push meets (fuel + 1) val e = net.push meets fuel val e := by
  induction fuel with
  | zero => exact fun val e h => absurd rfl h
  | succ fuel ih =>
    intro val e h
    rw [push] at h ⊢
    conv_rhs => rw [push]
    cases hLive : net.live e with
    | false => rfl
    | true =>
      rw [hLive] at h
      cases hv : val (net.src e) with
      | none => rfl
      | some v =>
        rw [hv] at h
        cases hw : net.target val (net.dst e) with
        | none => rfl
        | some w =>
          simp only [hw, Bool.true_eq_false, if_false] at h ⊢
          split_ifs at h ⊢
          · rfl
          · exact foldlM_agree ih _ _ h
          · rfl

/- More fuel does not change how a run ends. -/
theorem pushAll_mono {fuel fuel' : Nat} (hFuel : fuel ≤ fuel')
    (val : Values N V) (starts : List (N × List E))
    (h : net.pushAll meets fuel val starts ≠ .error .fuel) :
    net.pushAll meets fuel' val starts =
      net.pushAll meets fuel val starts := by
  induction hFuel with
  | refl => rfl
  | @step fuel' _ ih =>
    rw [← ih] at h ⊢
    refine foldlM_agree ?_ starts val h
    intro val start hStart
    unfold visit at hStart ⊢
    split at hStart
    · exact foldlM_agree (net.push_succ meets fuel') _ _ hStart
    · rfl

/- A run that ends is refused with no amount of fuel. -/
theorem pushAll_not_refused {fuel : Nat} {val : Values N V}
    {starts : List (N × List E)}
    (h : (net.pushAll meets fuel val starts).isOk = true) (fuel' : Nat) :
    net.pushAll meets fuel' val starts ≠ .error .refused := by
  intro hRefused
  cases hRun : net.pushAll meets fuel val starts with
  | error stop =>
    rw [hRun] at h
    cases h
  | ok val' =>
    have hMore := net.pushAll_mono meets (Nat.le_add_right fuel fuel') val
      starts (by simp [hRun])
    have hMore' := net.pushAll_mono meets (Nat.le_add_left fuel' fuel) val
      starts (by simp [hRefused])
    rw [hMore, hRun, hRefused] at hMore'
    cases hMore'

end Runs

----
-- Invariants
----

section Invariants

variable [DecidableEq N] [DecidableEq V]
variable {net}
variable {meets meets' : E → V → V → Prop}
variable [∀ e v w, Decidable (meets e v w)]
variable [∀ e v w, Decidable (meets' e v w)]

theorem foldlM_invariant {ι σ : Type*} {step step' : σ → ι → Except Stop σ}
    {P : σ → Prop} {items : List ι}
    (h : ∀ s, ∀ i ∈ items, ∀ s', P s → step s i = .ok s' →
      P s' ∧ step' s i = .ok s')
    {s s' : σ} (hs : P s) (hRun : items.foldlM step s = .ok s') :
    P s' ∧ items.foldlM step' s = .ok s' := by
  induction items generalizing s with
  | nil =>
    cases hRun
    exact ⟨hs, rfl⟩
  | cons i items ih =>
    rw [List.foldlM_cons] at hRun ⊢
    cases hFirst : step s i with
    | error stop =>
      rw [hFirst] at hRun
      cases hRun
    | ok s₁ =>
      rw [hFirst] at hRun
      rcases h s i List.mem_cons_self s₁ hs hFirst with ⟨hs₁, hFirst'⟩
      rw [hFirst']
      exact ih (fun s i hi => h s i (List.mem_cons_of_mem _ hi)) hs₁ hRun

variable {P : Values N V → Prop}

/-
  A property that allowed pushes keep is an invariant of the
  watched run, and a weaker watch on such values allows the
  run too.  Induction on the fuel.
-/
theorem push_invariant
    (hStep : ∀ val e v w, P val → net.Changes val e v w → meets e v w →
      P (net.pushed val e v w) ∧ meets' e v w)
    (fuel : Nat) :
    ∀ (val : Values N V) (e : E) (val' : Values N V), P val →
      net.push meets fuel val e = .ok val' →
        P val' ∧ net.push meets' fuel val e = .ok val' := by
  induction fuel with
  | zero =>
    intro val e val' _ h
    cases h
  | succ fuel ih =>
    intro val e val' hP h
    rcases net.push_cases meets fuel val e with
      ⟨hQuiet, hRun⟩ | ⟨v, w, hChanges, ⟨hMeets, hRun⟩ | ⟨-, hRun⟩⟩
    · rw [hRun] at h
      cases h
      refine ⟨hP, ?_⟩
      rcases net.push_cases meets' fuel val e with
        ⟨-, hRun'⟩ | ⟨v, w, hChanges, -⟩
      · exact hRun'
      · exact absurd
          (hQuiet hChanges.live v w hChanges.src hChanges.dst)
          hChanges.changed
    · rw [hRun] at h
      rcases hStep val e v w hP hChanges hMeets with ⟨hP', hMeets'⟩
      rcases foldlM_invariant (fun val e _ val' => ih val e val') hP' h with
        ⟨hEnd, hFold⟩
      refine ⟨hEnd, ?_⟩
      rcases net.push_cases meets' fuel val e with
        ⟨hQuiet, -⟩ | ⟨v', w', hChanges', hCase⟩
      · exact absurd
          (hQuiet hChanges.live v w hChanges.src hChanges.dst)
          hChanges.changed
      · have hv := hChanges'.src
        have hw := hChanges'.dst
        rw [hChanges.src, Option.some_inj] at hv
        rw [hChanges.dst, Option.some_inj] at hw
        grind
    · rw [hRun] at h
      cases h

theorem pushAll_invariant (meets' : E → V → V → Prop)
    [∀ e v w, Decidable (meets' e v w)] {starts : List (N × List E)}
    (hStep : ∀ val e v w, P val → net.Changes val e v w → meets e v w →
      P (net.pushed val e v w) ∧ meets' e v w)
    (hVisit : ∀ val, ∀ start ∈ starts, ∀ i, P val → val start.1 = none →
      net.input start.1 = some i → P (update val start.1 (some i)))
    {fuel : Nat} {val val' : Values N V} (hP : P val)
    (hRun : net.pushAll meets fuel val starts = .ok val') :
    P val' ∧ net.pushAll meets' fuel val starts = .ok val' := by
  refine foldlM_invariant ?_ hP hRun
  intro val start hStart val' hP h
  unfold visit at h ⊢
  cases hv : val start.1 with
  | some v =>
    rw [hv] at h
    cases h
    exact ⟨hP, rfl⟩
  | none =>
    cases hi : net.input start.1 with
    | none =>
      rw [hv, hi] at h
      cases h
      exact ⟨hP, rfl⟩
    | some i =>
      rw [hv, hi] at h
      exact foldlM_invariant
        (fun val e _ val' => push_invariant hStep fuel val e val')
        (hVisit val start hStart i hP hv hi) h

end Invariants

----
-- Absorbing Merges
----

section Absorbing

variable (fits : N → V → Prop)
variable (clashes absorbs : V → V → Prop)
variable (rank : V → Nat)

/- Inputs, passed values and merged values fit their nodes. -/
structure Fitting : Prop where
  input : ∀ n i, net.input n = some i → fits n i
  pass :
    ∀ e v, net.live e = true → fits (net.src e) v →
      fits (net.dst e) (net.pass e v)
  merge : ∀ n w g, fits n w → fits n g → fits n (net.merge w g)

/-
  Merging values that do not clash absorbs: the merged value
  is absorbed, what was absorbed before still is, and a
  value that changes loses rank.
-/
structure Absorbing : Prop extends net.Fitting fits where
  own : ∀ n i, fits n i → absorbs i i
  same : ∀ w g, net.merge w g = w → absorbs w g
  again :
    ∀ n w g, fits n w → fits n g → ¬clashes w g →
      absorbs (net.merge w g) g
  keeps :
    ∀ n w g h, fits n w → fits n g → fits n h → ¬clashes w g →
      absorbs w h → absorbs (net.merge w g) h
  lower :
    ∀ n w g, fits n w → fits n g → ¬clashes w g →
      net.merge w g ≠ w → rank (net.merge w g) < rank w

/- Pushing this edge again would change nothing. -/
def Settled (val : Values N V) (e : E) : Prop :=
  ∀ v i, val (net.src e) = some v → net.input (net.dst e) = some i →
    ∃ w, val (net.dst e) = some w ∧ absorbs w (net.pass e v)

/-
  Only nodes with inputs have values; these fit and absorb
  their own inputs.  An isolated node has just its input.
-/
structure Invariant (val : Values N V) : Prop where
  given : ∀ n, val n ≠ none → net.input n ≠ none
  fits : ∀ n v, val n = some v → fits n v
  own : ∀ n v i, val n = some v → net.input n = some i → absorbs v i
  isolated :
    ∀ n v, val n = some v →
      (∀ e, net.live e = true → net.dst e ≠ n) → net.input n = some v

/- Everything absorbed before is absorbed after. -/
def Grows (val val' : Values N V) : Prop :=
  ∀ n v, val n = some v →
    ∃ v', val' n = some v' ∧ ∀ g, fits n g → absorbs v g → absorbs v' g

/- The potential of one node; unvisited nodes count one more. -/
def nodePotential (n : N) : Option V → Nat
| none => ((net.input n).map (fun i => rank i + 1)).getD 0
| some v => rank v

/- The potential of a finite set of nodes. -/
def potential (nodes : Finset N) (val : Values N V) : Nat :=
  ∑ n ∈ nodes, net.nodePotential rank n (val n)

/- What a push, or several, do to the values. -/
structure Progress (nodes : Finset N) (val val' : Values N V) : Prop where
  invariant : net.Invariant fits absorbs val'
  grows : Grows fits absorbs val val'
  potential : net.potential rank nodes val' ≤ net.potential rank nodes val
  settled :
    ∀ e, net.live e = true → val' (net.src e) ≠ val (net.src e) →
      net.Settled absorbs val' e
  reached :
    ∀ n, val' n ≠ none →
      val n ≠ none ∨ ∃ e, net.live e = true ∧ net.dst e = n

variable {net fits clashes absorbs rank}
variable {nodes : Finset N} {val val' : Values N V} {e : E} {v w : V}

theorem grows_refl (val : Values N V) : Grows fits absorbs val val :=
  fun _ v hv => ⟨v, hv, fun _ _ h => h⟩

theorem grows_trans {val₁ val₂ val₃ : Values N V}
    (h₁ : Grows fits absorbs val₁ val₂)
    (h₂ : Grows fits absorbs val₂ val₃) :
    Grows fits absorbs val₁ val₃ := by
  intro n v hv
  rcases h₁ n v hv with ⟨v', hv', hKeep⟩
  rcases h₂ n v' hv' with ⟨v'', hv'', hKeep'⟩
  exact ⟨v'', hv'', fun g hg h => hKeep' g hg (hKeep g hg h)⟩

theorem ne_none_of_grows (h : Grows fits absorbs val val') {n : N}
    (hn : val n ≠ none) : val' n ≠ none := by
  obtain ⟨v, hv⟩ := Option.ne_none_iff_exists'.mp hn
  rcases h n v hv with ⟨v', hv', -⟩
  simp [hv']

/- A settled edge stays settled while its source stands still. -/
theorem settled_of_grows
    (hAbs : net.Absorbing fits clashes absorbs rank)
    (hLive : net.live e = true) (hInv : net.Invariant fits absorbs val)
    (hGrows : Grows fits absorbs val val')
    (hSrc : val' (net.src e) = val (net.src e))
    (h : net.Settled absorbs val e) : net.Settled absorbs val' e := by
  intro v i hv hi
  rw [hSrc] at hv
  rcases h v i hv hi with ⟨w, hw, hAbsorbs⟩
  rcases hGrows _ w hw with ⟨w', hw', hKeep⟩
  exact ⟨w', hw', hKeep _ (hAbs.pass e v hLive (hInv.fits _ v hv)) hAbsorbs⟩

theorem progress_refl (hInv : net.Invariant fits absorbs val) :
    net.Progress fits absorbs rank nodes val val :=
  ⟨hInv, grows_refl val, le_rfl, fun _ _ h => absurd rfl h,
    fun _ h => Or.inl h⟩

theorem progress_trans (hAbs : net.Absorbing fits clashes absorbs rank)
    {val₁ val₂ val₃ : Values N V}
    (h₁ : net.Progress fits absorbs rank nodes val₁ val₂)
    (h₂ : net.Progress fits absorbs rank nodes val₂ val₃) :
    net.Progress fits absorbs rank nodes val₁ val₃ := by
  refine ⟨h₂.invariant, grows_trans h₁.grows h₂.grows,
    h₂.potential.trans h₁.potential, ?_, ?_⟩
  · intro e hLive hChange
    by_cases hLast : val₃ (net.src e) = val₂ (net.src e)
    · rw [hLast] at hChange
      exact settled_of_grows hAbs hLive h₁.invariant h₂.grows hLast
        (h₁.settled e hLive hChange)
    · exact h₂.settled e hLive hLast
  · intro n hn
    rcases h₂.reached n hn with hn | hn
    · exact h₁.reached n hn
    · exact Or.inr hn

/- A settled edge stays settled through any progress. -/
theorem settled_of_progress
    (hAbs : net.Absorbing fits clashes absorbs rank)
    (hLive : net.live e = true) (hInv : net.Invariant fits absorbs val)
    (h : net.Progress fits absorbs rank nodes val val')
    (hSettled : net.Settled absorbs val e) :
    net.Settled absorbs val' e := by
  by_cases hSrc : val' (net.src e) = val (net.src e)
  · exact settled_of_grows hAbs hLive hInv h.grows hSrc hSettled
  · exact h.settled e hLive hSrc

----
-- One Update
----

theorem target_cases {n : N}
    (h : net.target val n = some w) :
    val n = some w ∨ net.input n = some w := by
  cases hOld : val n with
  | some w' =>
    rw [target, hOld, Option.some_or] at h
    exact Or.inl h
  | none =>
    rw [target, hOld, Option.none_or] at h
    exact Or.inr h

/- The value a changing push finds absorbs what it should. -/
theorem target_spec (hAbs : net.Absorbing fits clashes absorbs rank)
    (hInv : net.Invariant fits absorbs val) {n : N}
    (hw : net.target val n = some w) :
    net.input n ≠ none ∧ fits n w ∧
      ∀ i, net.input n = some i → absorbs w i := by
  rcases target_cases hw with hOld | hInput
  · exact ⟨hInv.given n (by simp [hOld]), hInv.fits n w hOld,
      fun i hi => hInv.own n w i hOld hi⟩
  · refine ⟨by simp [hInput], hAbs.input n w hInput, ?_⟩
    intro i hi
    rw [hInput, Option.some_inj] at hi
    rw [← hi]
    exact hAbs.own n w (hAbs.input n w hInput)

section Update

variable [DecidableEq N]

/- Raising one node lowers no potential but its own. -/
theorem potential_update {n : N} {v : V} (hn : n ∈ nodes)
    (h : rank v < net.nodePotential rank n (val n)) :
    net.potential rank nodes (update val n (some v)) <
      net.potential rank nodes val := by
  refine Finset.sum_lt_sum ?_ ⟨n, hn, ?_⟩
  · intro m _
    by_cases hm : m = n
    · subst hm
      rw [update_self]
      exact h.le
    · rw [update_of_ne hm]
  · rwa [update_self]

/- What a changing push does to the values. -/
theorem pushed_spec (hAbs : net.Absorbing fits clashes absorbs rank)
    (hNodes : ∀ e, net.live e = true → net.dst e ∈ nodes)
    (hInv : net.Invariant fits absorbs val)
    (h : net.Changes val e v w) (hMeets : ¬clashes w (net.pass e v)) :
    net.Invariant fits absorbs (net.pushed val e v w) ∧
      Grows fits absorbs val (net.pushed val e v w) ∧
      net.potential rank nodes (net.pushed val e v w) <
        net.potential rank nodes val := by
  rcases target_spec hAbs hInv h.dst with ⟨hGiven, hw, hOwn⟩
  have hg := hAbs.pass e v h.live (hInv.fits _ v h.src)
  have hKeeps := fun g hFits =>
    hAbs.keeps (net.dst e) w (net.pass e v) g hw hg hFits hMeets
  refine ⟨⟨?_, ?_, ?_, ?_⟩, ?_, ?_⟩
  · intro n hn
    by_cases hEq : n = net.dst e
    · rwa [hEq]
    · rw [pushed, update_of_ne hEq] at hn
      exact hInv.given n hn
  · intro n u hu
    by_cases hn : n = net.dst e
    · subst hn
      rw [pushed, update_self, Option.some_inj] at hu
      rw [← hu]
      exact hAbs.merge _ _ _ hw hg
    · rw [pushed, update_of_ne hn] at hu
      exact hInv.fits n u hu
  · intro n u i hu hi
    by_cases hn : n = net.dst e
    · subst hn
      rw [pushed, update_self, Option.some_inj] at hu
      rw [← hu]
      exact hKeeps i (hAbs.input _ i hi) (hOwn i hi)
    · rw [pushed, update_of_ne hn] at hu
      exact hInv.own n u i hu hi
  · intro n u hu hIsolated
    rw [pushed, update_of_ne (Ne.symm (hIsolated e h.live))] at hu
    exact hInv.isolated n u hu hIsolated
  · intro n u hu
    by_cases hn : n = net.dst e
    · subst hn
      have hEq : u = w := by simpa [target, hu] using h.dst
      subst hEq
      exact ⟨_, update_self _ _ _, hKeeps⟩
    · exact ⟨u, by simp [pushed, hn, hu], fun _ _ h => h⟩
  · refine potential_update (hNodes e h.live) ?_
    have hLe : rank (net.merge w (net.pass e v)) ≤ rank w := by
      by_cases hSame : net.merge w (net.pass e v) = w
      · rw [hSame]
      · exact (hAbs.lower _ _ _ hw hg hMeets hSame).le
    cases hOld : val (net.dst e) with
    | none =>
      have hInput : net.input (net.dst e) = some w := by
        simpa [target, hOld] using h.dst
      simp only [nodePotential, hInput, Option.map_some, Option.getD_some]
      omega
    | some w' =>
      have hEq : w' = w := by simpa [target, hOld] using h.dst
      subst hEq
      refine hAbs.lower _ _ _ hw hg hMeets ?_
      intro hSame
      apply h.changed
      rw [hOld, hSame]

/- What visiting a node does to the values. -/
theorem visited_spec (nodes : Finset N)
    (hAbs : net.Absorbing fits clashes absorbs rank)
    (hInv : net.Invariant fits absorbs val) {n : N} {i : V}
    (hOld : val n = none) (hInput : net.input n = some i) :
    net.Invariant fits absorbs (update val n (some i)) ∧
      Grows fits absorbs val (update val n (some i)) ∧
      net.potential rank nodes (update val n (some i)) ≤
        net.potential rank nodes val := by
  have hFits := hAbs.input n i hInput
  refine ⟨⟨?_, ?_, ?_, ?_⟩, ?_, ?_⟩
  · intro m hm
    by_cases hEq : m = n
    · simp [hEq, hInput]
    · rw [update_of_ne hEq] at hm
      exact hInv.given m hm
  · intro m u hu
    by_cases hm : m = n
    · grind
    · rw [update_of_ne hm] at hu
      exact hInv.fits m u hu
  · intro m u j hu hj
    by_cases hm : m = n
    · subst hm
      rw [update_self, Option.some_inj] at hu
      rw [hInput, Option.some_inj] at hj
      rw [← hu, ← hj]
      exact hAbs.own m i hFits
    · rw [update_of_ne hm] at hu
      exact hInv.own m u j hu hj
  · intro m u hu hIsolated
    by_cases hm : m = n
    · grind
    · rw [update_of_ne hm] at hu
      exact hInv.isolated m u hu hIsolated
  · intro m u hu
    grind
  · refine Finset.sum_le_sum ?_
    intro m _
    by_cases hm : m = n
    · subst hm
      simp [nodePotential, hOld, hInput]
    · rw [update_of_ne hm]

end Update

----
-- Runs To The End
----

/- The edges pushed on after an edge leave its destination. -/
structure Onward (net : PushNetwork N E V) : Prop where
  src :
    ∀ e, net.live e = true → ∀ e' ∈ net.onward e, net.src e' = net.dst e
  mem :
    ∀ e, net.live e = true → ∀ e', net.live e' = true →
      net.src e' = net.dst e → e' ∈ net.onward e

/- A visited node comes with all its live edges. -/
structure Start (net : PushNetwork N E V) (start : N × List E) : Prop where
  src : ∀ e ∈ start.2, net.src e = start.1
  mem : ∀ e, net.live e = true → net.src e = start.1 → e ∈ start.2

/- A watched run is refused, or it ends as described. -/
def Ends (run : Except Stop (Values N V)) (P : Values N V → Prop) : Prop :=
  run = .error .refused ∨ ∃ val', run = .ok val' ∧ P val'

/-
  The end of a run: every node visited, every edge settled.
-/
structure Stable (net : PushNetwork N E V) (fits : N → V → Prop)
    (absorbs : V → V → Prop) (visited : List N) (val : Values N V) :
    Prop where
  invariant : net.Invariant fits absorbs val
  settled : ∀ e, net.live e = true → net.Settled absorbs val e
  valued : ∀ n ∈ visited, ∀ i, net.input n = some i → val n ≠ none
  reached :
    ∀ n, val n ≠ none → n ∈ visited ∨ ∃ e, net.live e = true ∧ net.dst e = n

theorem stable_nil :
    net.Stable fits absorbs [] (fun _ : N => (none : Option V)) where
  invariant := ⟨by simp, by simp, by simp, by simp⟩
  settled := by
    intro e _ v i hv
    cases hv
  valued := by simp
  reached := by simp

section Ends

variable [DecidableEq N] [DecidableEq V]
variable {meets : E → V → V → Prop}
variable [∀ e v w, Decidable (meets e v w)]

/- Pushes in sequence, given what one push does. -/
theorem foldlM_push_ends
    (hAbs : net.Absorbing fits clashes absorbs rank) {fuel : Nat}
    (hPush : ∀ (val : Values N V) (e : E),
      net.Invariant fits absorbs val → val (net.src e) ≠ none →
      net.potential rank nodes val < fuel →
        Ends (net.push meets fuel val e) (fun val' =>
          net.Progress fits absorbs rank nodes val val' ∧
            (net.live e = true → net.Settled absorbs val' e)))
    (edges : List E) (val : Values N V)
    (hInv : net.Invariant fits absorbs val)
    (hSrc : ∀ e ∈ edges, val (net.src e) ≠ none)
    (hFuel : net.potential rank nodes val < fuel) :
    Ends (edges.foldlM (net.push meets fuel) val) (fun val' =>
      net.Progress fits absorbs rank nodes val val' ∧
        ∀ e ∈ edges, net.live e = true → net.Settled absorbs val' e) := by
  induction edges generalizing val with
  | nil => exact Or.inr ⟨val, rfl, progress_refl hInv, by simp⟩
  | cons e edges ih =>
    rw [List.forall_mem_cons] at hSrc
    rw [List.foldlM_cons]
    rcases hPush val e hInv hSrc.1 hFuel with
      hRun | ⟨val₁, hRun₁, hStep₁, hSettled₁⟩
    · rw [hRun]
      exact Or.inl rfl
    rw [hRun₁]
    rcases ih val₁ hStep₁.invariant
        (fun e he => ne_none_of_grows hStep₁.grows (hSrc.2 e he))
        (hStep₁.potential.trans_lt hFuel) with
      hRun | ⟨val₂, hRun₂, hStep₂, hSettled₂⟩
    · exact Or.inl hRun
    refine Or.inr ⟨val₂, hRun₂, progress_trans hAbs hStep₁ hStep₂, ?_⟩
    rw [List.forall_mem_cons]
    exact ⟨fun hLive => settled_of_progress hAbs hLive hStep₁.invariant
      hStep₂ (hSettled₁ hLive), hSettled₂⟩

/-
  A push with more fuel than potential is refused or ends,
  and leaves its edge and every edge out of a changed node
  settled.  Induction on the fuel: a push recurses only after
  an update that has lowered the potential.
-/
theorem push_ends (hAbs : net.Absorbing fits clashes absorbs rank)
    (hMeets : ∀ e v w, meets e v w → ¬clashes w (net.pass e v))
    (hNodes : ∀ e, net.live e = true → net.dst e ∈ nodes)
    (hOnward : net.Onward) (fuel : Nat) :
    ∀ (val : Values N V) (e : E),
      net.Invariant fits absorbs val → val (net.src e) ≠ none →
      net.potential rank nodes val < fuel →
        Ends (net.push meets fuel val e) (fun val' =>
          net.Progress fits absorbs rank nodes val val' ∧
            (net.live e = true → net.Settled absorbs val' e)) := by
  induction fuel with
  | zero =>
    intro val e _ _ hFuel
    omega
  | succ fuel ih =>
    intro val e hInv hSrc hFuel
    rcases net.push_cases meets fuel val e with
      ⟨hQuiet, hRun⟩ | ⟨v, w, hChanges, ⟨hMeet, hRun⟩ | ⟨-, hRun⟩⟩
    · refine Or.inr ⟨val, hRun, progress_refl hInv, ?_⟩
      intro hLive v i hv hi
      obtain ⟨w, hw⟩ : ∃ w, net.target val (net.dst e) = some w := by
        cases hOld : val (net.dst e) with
        | none => exact ⟨i, by simp [target, hOld, hi]⟩
        | some w => exact ⟨w, by simp [target, hOld]⟩
      have hSame := hQuiet hLive v w hv hw
      have hEq : net.merge w (net.pass e v) = w := by
        simpa [target, hSame] using hw
      rw [hEq] at hSame
      exact ⟨w, hSame, hAbs.same _ _ hEq⟩
    · rcases pushed_spec hAbs hNodes hInv hChanges (hMeets e v w hMeet) with
        ⟨hInv', hGrows', hLower⟩
      have hSrc' : ∀ e' ∈ net.onward e,
          net.pushed val e v w (net.src e') ≠ none := by
        intro e' he'
        rw [hOnward.src e hChanges.live e' he']
        simp [pushed]
      rw [hRun]
      rcases foldlM_push_ends hAbs ih (net.onward e) _ hInv' hSrc'
          (by omega) with hRefused | ⟨val', hEnd, hStep, hSettled⟩
      · exact Or.inl hRefused
      refine Or.inr ⟨val', hEnd, ?_, ?_⟩
      · refine ⟨hStep.invariant, grows_trans hGrows' hStep.grows,
          hStep.potential.trans hLower.le, ?_, ?_⟩
        · intro e' hLive' hChange
          by_cases hDst : net.src e' = net.dst e
          · exact hSettled e' (hOnward.mem e hChanges.live e' hLive' hDst)
              hLive'
          · apply hStep.settled e' hLive'
            rwa [pushed, update_of_ne hDst]
        · intro n hn
          rcases hStep.reached n hn with hn | hn
          · by_cases hEq : n = net.dst e
            · exact Or.inr ⟨e, hChanges.live, hEq.symm⟩
            · rw [pushed, update_of_ne hEq] at hn
              exact Or.inl hn
          · exact Or.inr hn
      · intro _
        -- a self-loop is among the onward edges
        by_cases hLoop : net.src e = net.dst e
        · exact hSettled e
            (hOnward.mem e hChanges.live e hChanges.live hLoop)
            hChanges.live
        · refine settled_of_progress hAbs hChanges.live hInv' hStep ?_
          intro v' i hv' hi
          rw [pushed, update_of_ne hLoop, hChanges.src,
            Option.some_inj] at hv'
          refine ⟨_, update_self _ _ _, ?_⟩
          rw [← hv']
          exact hAbs.again _ w _
            (target_spec hAbs hInv hChanges.dst).2.1
            (hAbs.pass e v hChanges.live (hInv.fits _ v hChanges.src))
            (hMeets e v w hMeet)
    · exact Or.inl hRun

/- A visit keeps settled edges settled and values its node. -/
theorem visit_ends (hAbs : net.Absorbing fits clashes absorbs rank)
    (hMeets : ∀ e v w, meets e v w → ¬clashes w (net.pass e v))
    (hNodes : ∀ e, net.live e = true → net.dst e ∈ nodes)
    (hOnward : net.Onward) {visited : List N} {start : N × List E}
    (hStart : net.Start start) {fuel : Nat}
    (hStable : net.Stable fits absorbs visited val)
    (hFuel : net.potential rank nodes val < fuel) :
    Ends (net.visit meets fuel val start) (fun val' =>
      net.Stable fits absorbs (start.1 :: visited) val' ∧
        net.potential rank nodes val' ≤ net.potential rank nodes val) := by
  rcases net.visit_cases meets fuel val start with
    ⟨hSkip, hRun⟩ | ⟨i, hOld, hInput, hRun⟩
  · refine Or.inr ⟨val, hRun,
      ⟨hStable.invariant, hStable.settled, ?_, ?_⟩, le_rfl⟩
    · rw [List.forall_mem_cons]
      refine ⟨?_, hStable.valued⟩
      intro i hi
      exact hSkip.resolve_right (by simp [hi])
    · intro n hn
      exact (hStable.reached n hn).imp_left (List.mem_cons_of_mem _)
  rcases visited_spec nodes hAbs hStable.invariant hOld hInput with
    ⟨hInv, hGrows, hLe⟩
  have hSrc : ∀ e ∈ start.2,
      update val start.1 (some i) (net.src e) ≠ none := by
    intro e he
    rw [hStart.src e he]
    simp
  rw [hRun]
  rcases foldlM_push_ends hAbs (push_ends hAbs hMeets hNodes hOnward fuel)
      start.2 _ hInv hSrc (hLe.trans_lt hFuel) with
    hRefused | ⟨val', hEnd, hStep, hEdges⟩
  · exact Or.inl hRefused
  refine Or.inr ⟨val', hEnd, ⟨hStep.invariant, ?_, ?_, ?_⟩,
    hStep.potential.trans hLe⟩
  · intro e hLive
    by_cases hSrcEq : net.src e = start.1
    · exact hEdges e (hStart.mem e hLive hSrcEq) hLive
    · refine settled_of_progress hAbs hLive hInv hStep ?_
      exact settled_of_grows hAbs hLive hStable.invariant hGrows
        (update_of_ne hSrcEq _ _) (hStable.settled e hLive)
  · rw [List.forall_mem_cons]
    refine ⟨fun _ _ => ne_none_of_grows hStep.grows (by simp), ?_⟩
    intro n hn i hi
    exact ne_none_of_grows hStep.grows
      (ne_none_of_grows hGrows (hStable.valued n hn i hi))
  · intro n hn
    rcases hStep.reached n hn with hn | hn
    · by_cases hEq : n = start.1
      · exact Or.inl (by simp [hEq])
      · rw [update_of_ne hEq] at hn
        exact (hStable.reached n hn).imp_left (List.mem_cons_of_mem _)
    · exact Or.inr hn

/-
  Visiting nodes with all their edges is refused or ends with
  every edge settled, whatever the order.
-/
theorem pushAll_ends (hAbs : net.Absorbing fits clashes absorbs rank)
    (hMeets : ∀ e v w, meets e v w → ¬clashes w (net.pass e v))
    (hNodes : ∀ e, net.live e = true → net.dst e ∈ nodes)
    (hOnward : net.Onward) {fuel : Nat} (starts : List (N × List E)) :
    ∀ (visited : List N) (val : Values N V),
      (∀ start ∈ starts, net.Start start) →
      net.Stable fits absorbs visited val →
      net.potential rank nodes val < fuel →
        Ends (net.pushAll meets fuel val starts) (fun val' =>
          ∃ visited', net.Stable fits absorbs visited' val' ∧
            ∀ n, n ∈ visited' ↔
              n ∈ visited ∨ n ∈ starts.map (fun start => start.1)) := by
  induction starts with
  | nil =>
    intro visited val _ hStable _
    exact Or.inr ⟨val, rfl, visited, hStable, by simp⟩
  | cons start starts ih =>
    intro visited val hStarts hStable hFuel
    rw [List.forall_mem_cons] at hStarts
    rw [pushAll, List.foldlM_cons]
    rcases visit_ends hAbs hMeets hNodes hOnward hStarts.1 hStable hFuel with
      hRun | ⟨val₁, hRun₁, hStable₁, hLe⟩
    · rw [hRun]
      exact Or.inl rfl
    rw [hRun₁]
    rcases ih _ val₁ hStarts.2 hStable₁ (hLe.trans_lt hFuel) with
      hRun | ⟨val₂, hRun₂, visited', hStable₂, hMem⟩
    · exact Or.inl hRun
    refine Or.inr ⟨val₂, hRun₂, visited', hStable₂, ?_⟩
    grind

/-
  A watch that refuses values that clash makes every run of
  enough fuel end with all edges settled.
-/
theorem pushAll_settles (hAbs : net.Absorbing fits clashes absorbs rank)
    (hMeets : ∀ e v w, meets e v w → ¬clashes w (net.pass e v))
    (hNodes : ∀ e, net.live e = true → net.dst e ∈ nodes)
    (hOnward : net.Onward) (starts : List (N × List E))
    (hStarts : ∀ start ∈ starts, net.Start start)
    (hRun : ∀ fuel,
      net.pushAll meets fuel (fun _ => none) starts ≠ .error .refused) :
    ∃ fuel val, net.pushAll meets fuel (fun _ => none) starts = .ok val ∧
      net.Stable fits absorbs (starts.map (fun start => start.1)) val := by
  rcases pushAll_ends hAbs hMeets hNodes hOnward starts [] _ hStarts
      stable_nil (Nat.lt_succ_self _) with
    hRefused | ⟨val, hEnd, visited, hStable, hMem⟩
  · exact absurd hRefused (hRun _)
  refine ⟨_, val, hEnd, hStable.invariant, hStable.settled, ?_, ?_⟩
  · intro n hn
    exact hStable.valued n ((hMem n).mpr (Or.inr hn))
  · intro n hn
    refine (hStable.reached n hn).imp_left ?_
    intro h
    simpa using (hMem n).mp h

end Ends

end Absorbing

----
-- Absorbed Runs
----

section Absorbed

variable {net}
variable {fits : N → V → Prop} {absorbs : V → V → Prop}

/- The values fit, and at the nodes `on` the others absorb them. -/
def AbsorbedBy (fits : N → V → Prop) (absorbs : V → V → Prop)
    (on : N → Prop) (rest val : Values N V) : Prop :=
  ∀ n v, val n = some v →
    fits n v ∧ (on n → ∃ a, rest n = some a ∧ absorbs a v)

theorem absorbedBy_update [DecidableEq N] {on : N → Prop}
    {rest val : Values N V} {n : N} {v : V}
    (h : AbsorbedBy fits absorbs on rest val) (hFits : fits n v)
    (hv : on n → ∃ a, rest n = some a ∧ absorbs a v) :
    AbsorbedBy fits absorbs on rest (update val n (some v)) := by
  intro m u hu
  by_cases hm : m = n
  · grind
  · rw [update_of_ne hm] at hu
    exact h m u hu

/-
  Values that absorb the inputs of their nodes and all that a
  run passes to them absorb the values the run ends with.
-/
theorem absorbedBy_of_run [DecidableEq N] [DecidableEq V]
    {meets : E → V → V → Prop} [∀ e v w, Decidable (meets e v w)]
    (absorbs : V → V → Prop) (on : N → Prop) (rest : Values N V)
    (hFits : net.Fitting fits)
    (hJoin : ∀ n a w g, on n → rest n = some a → fits n w → fits n g →
      absorbs a w → absorbs a g → absorbs a (net.merge w g))
    (hOwn : ∀ n i, on n → net.input n = some i →
      ∃ a, rest n = some a ∧ absorbs a i)
    (hPass : ∀ e v w, net.live e = true → meets e v w → on (net.dst e) →
      fits (net.src e) v →
      (on (net.src e) → ∃ a, rest (net.src e) = some a ∧ absorbs a v) →
        ∀ b, rest (net.dst e) = some b → absorbs b (net.pass e v))
    {starts : List (N × List E)} {fuel : Nat} {val : Values N V}
    (hRun : net.pushAll meets fuel (fun _ => none) starts = .ok val) :
    AbsorbedBy fits absorbs on rest val := by
  refine (pushAll_invariant meets ?_ ?_ ?_ hRun).1
  · intro val e v w hVal hChanges hMeet
    rcases hVal _ v hChanges.src with ⟨hv, hSrc⟩
    have hg := hFits.pass e v hChanges.live hv
    have hw : fits (net.dst e) w ∧
        (on (net.dst e) →
          ∃ a, rest (net.dst e) = some a ∧ absorbs a w) := by
      rcases target_cases hChanges.dst with hOld | hInput
      · exact hVal _ w hOld
      · exact ⟨hFits.input _ w hInput, fun hOn => hOwn _ w hOn hInput⟩
    refine ⟨absorbedBy_update hVal (hFits.merge _ _ _ hw.1 hg) ?_, hMeet⟩
    intro hOn
    rcases hw.2 hOn with ⟨a, ha, hAbsorbs⟩
    refine ⟨a, ha, hJoin _ a w _ hOn ha hw.1 hg hAbsorbs ?_⟩
    exact hPass e v w hChanges.live hMeet hOn hv hSrc a ha
  · intro val start _ i hVal _ hi
    exact absorbedBy_update hVal (hFits.input _ i hi)
      (fun hOn => hOwn _ i hOn hi)
  · intro n v hv
    cases hv

end Absorbed

end PushNetwork
