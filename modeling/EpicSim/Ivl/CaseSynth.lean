import EpicSim.Ivl.VerinumNative
import Mathlib.Data.List.MinMax
import Mathlib.Data.Nat.Log

/-
  The muxes of a synthesised case statement.

  Guards become machine words, and a mux has an input for every
  word below a power of two.  A wider selector is reduced: its
  upper bits are joined to the last select bit.  A word does not
  keep x and z bits, nor a value from 2 ^ 64 on, and where no
  default leaves the upper half of the inputs free, the joined
  values fall on guards.
-/

----
-- Case Statements
----

namespace EpicSim

open Nat (two_pow_pos log mod_eq_of_lt)
open Verinum

variable {σ : Type}

/- A guard: a `NetEConst`, or another expression. -/
inductive GuardExpr where
| const (value : Verinum)
| other

/- `NetCase::Item`; a default has no guard. -/
structure CaseItem (σ : Type) where
  guard : Option GuardExpr
  statement : Option σ

/- The items, and the width of the synthesised selector. -/
structure NetCase (σ : Type) where
  sel_width : Nat
  items : List (CaseItem σ)

/- What the loop over the items collects.  The map holds `this`,
   here no statement, for an item that is empty. -/
structure CaseMap (σ : Type) where
  statement_map : Nat → Option (Option σ)
  max_guard_value : Nat
  default_statement : Option σ

/- Why no muxes are built. -/
inductive CaseFailure where
| variableGuard
| muxTooWide
| substatement

/- The muxes of a case statement by the blocks at their inputs:
   what comes from the statements before it with a low enable,
   or what a statement is synthesised to.  An enable without
   mux is tied high. -/
structure CaseMuxes (σ : Type) where
  sel : Nat → Nat
  out_mux : List (Option σ)
  ena_mux : Nat → Option (List (Option σ))

inductive CaseResult (σ : Type) where
| assertion
| failed (failure : CaseFailure)
| muxes (m : CaseMuxes σ)

/- `synth_async_block_substatement_`: whether a statement is
   synthesised, and which of its enables are tied high. -/
structure BlockSynth (σ : Type) where
  synthesizes : σ → Bool
  tied : σ → Nat → Bool

----
-- Synthesis
----

/- An item is put under the word of its guard. -/
def collectItem (col : CaseMap σ) (item : CaseItem σ) : Except CaseFailure (CaseMap σ) :=
  match item.guard with
  | none => .ok { col with default_statement := item.statement }
  | some .other => .error .variableGuard
  | some (.const gval) =>
    let sel_idx := gval.asULong.toNat
    if (col.statement_map sel_idx).isSome then .ok col
    else
      .ok { col with
        max_guard_value := max col.max_guard_value sel_idx
        statement_map := Function.update col.statement_map sel_idx (some item.statement) }

/- The value of a `NetPartSelect`. -/
def partSelect (base wid sig : Nat) : Nat := sig / 2 ^ base % 2 ^ wid

/- The value of a `NetUReduce` of kind OR. -/
def reduceOr (sig : Nat) : Nat := if sig = 0 then 0 else 1

/- `mux_selector_reduce_width`, by the values of its nets.  None
   for a failed assertion. -/
def muxSelectorReduceWidth (sel_got sel_need : Nat) : Option (Nat → Nat) :=
  if sel_got < sel_need then none
  else if sel_got = sel_need then some id
  else if sel_need < 2 then none
  else
    some fun esig =>
      let ps0 := partSelect 0 (sel_need - 1) esig
      let ps1 := partSelect (sel_need - 1) (sel_got - sel_need + 1) esig
      reduceOr ps1 * 2 ^ (sel_need - 1) + ps0

/- `max(ceil(log2(max_guard_value + 1)), 1.0)`.  The sum wraps,
   and the logarithm of 0 is below 1. -/
def guardBits (max_guard_value : Nat) : Nat :=
  max (Nat.clog 2 ((max_guard_value + 1) % 2 ^ 64)) 1

/- `synth_async` of a case with the type `EQ` and a selector
   that is not constant. -/
def NetCase.synthAsync (c : NetCase σ) (env : BlockSynth σ) : CaseResult σ :=
  match c.items.foldlM collectItem ⟨fun _ => none, 0, none⟩ with
  | .error failure => .failed failure
  | .ok col =>
    let sel_need := guardBits col.max_guard_value
    let sel_need :=
      if col.default_statement.isSome ∧ sel_need < c.sel_width then sel_need + 1 else sel_need
    if 32 ≤ sel_need then .failed .muxTooWide
    else
      match
        if sel_need < c.sel_width then muxSelectorReduceWidth c.sel_width sel_need
        else some id with
      | none => .assertion
      | some sel =>
        let data := (List.range (2 ^ sel_need)).map (fun idx =>
          (col.statement_map idx).getD col.default_statement)
        if (col.default_statement :: data).all (·.all env.synthesizes) then
          .muxes ⟨sel, data, fun mdx =>
            if data.all (·.any (env.tied · mdx)) then none else some data⟩
        else .failed .substatement

----
-- Meaning
----

/- A guard that is a constant with a property. -/
def GuardExpr.is (p : Verinum → Bool) : GuardExpr → Bool
| .const gval => p gval
| .other => false

/- The first item with such a guard, by its statement. -/
def firstBy (p : Verinum → Bool) (items : List (CaseItem σ)) : Option (Option σ) :=
  (items.find? (fun item => item.guard.any (·.is p))).map (·.statement)

/- The statement of the default. -/
def defaultOf (items : List (CaseItem σ)) (before : Option σ) : Option σ :=
  items.foldl (fun d item => if item.guard.isNone then item.statement else d) before

/- The word of a guard. -/
def CaseItem.word (item : CaseItem σ) : Nat :=
  match item.guard with
  | some (.const gval) => gval.asULong.toNat
  | _ => 0

/- The largest word of a guard. -/
def topGuard (items : List (CaseItem σ)) : Nat :=
  (items.map CaseItem.word).foldr max 0

/- Guards that are constants of a width. -/
def ConstGuards (width : Nat) (items : List (CaseItem σ)) : Prop :=
  ∀ item ∈ items, ∀ guard, item.guard = some guard → ∃ gval, guard = .const gval ∧ gval.len = width

/- A case statement whose guards are constants of the width of
   its selector. -/
structure PlainCase (σ : Type) extends NetCase σ where
  width_pos : 0 < sel_width
  const_guards : ConstGuards sel_width items

namespace PlainCase

def default (c : PlainCase σ) : Option σ := defaultOf c.items none

/- What the first item with such a guard selects. -/
def chosenBy (c : PlainCase σ) (p : Verinum → Bool) : Option σ :=
  (firstBy p c.items).getD c.default

/- What a two-state value of the selector selects. -/
def chosen (c : PlainCase σ) (v : Nat) : Option σ :=
  c.chosenBy (fun gval => gval.isDefined && gval.number == v)

/- The input for a value is the one of the item that it
   selects, at each of the muxes. -/
def Selects (c : PlainCase σ) (env : BlockSynth σ) (m : CaseMuxes σ) : Prop :=
  ∀ v < 2 ^ c.sel_width,
    m.out_mux[m.sel v]? = some (c.chosen v) ∧
    ∀ mdx,
      match m.ena_mux mdx with
      | none => (c.chosen v).any (env.tied · mdx) = true
      | some data => data[m.sel v]? = some (c.chosen v)

/- No assertion fails, and muxes that are built select right. -/
def Right (c : PlainCase σ) (env : BlockSynth σ) : Prop :=
  match c.synthAsync env with
  | .assertion => False
  | .failed _ => True
  | .muxes m => c.Selects env m

end PlainCase

----
-- Collected Items
----

namespace PlainCase

/- The largest word of a guard. -/
def top (c : PlainCase σ) : Nat := topGuard c.items

/- What an input of the muxes is built for. -/
def byWord (c : PlainCase σ) (n : Nat) : Option σ :=
  c.chosenBy (fun gval => gval.asULong.toNat == n)

/- `sel_need` of the source. -/
def selNeed (c : PlainCase σ) : Nat :=
  if c.default.isSome ∧ guardBits c.top < c.sel_width then guardBits c.top + 1
  else guardBits c.top

/- The nets before the select pins. -/
def select (c : PlainCase σ) : Option (Nat → Nat) :=
  if c.selNeed < c.sel_width then muxSelectorReduceWidth c.sel_width c.selNeed else some id

def data (c : PlainCase σ) : List (Option σ) := (List.range (2 ^ c.selNeed)).map c.byWord

end PlainCase

theorem firstBy_cons (p : Verinum → Bool) (item : CaseItem σ) (items : List (CaseItem σ)) :
    firstBy p (item :: items) =
      if item.guard.any (·.is p) then some item.statement else firstBy p items := by
  unfold firstBy
  rw [List.find?_cons]
  cases item.guard.any (·.is p) <;> rfl

/- Every guard is found under its word by the first item that
   has it. -/
theorem collect_spec {width : Nat} {items : List (CaseItem σ)} (hConst : ConstGuards width items)
    (col : CaseMap σ) (hMax : ∀ n, (col.statement_map n).isSome → n ≤ col.max_guard_value) :
    items.foldlM collectItem col =
      .ok ⟨fun n => (col.statement_map n).or (firstBy (fun gval => gval.asULong.toNat == n) items),
        max col.max_guard_value (topGuard items), defaultOf items col.default_statement⟩ := by
  induction items generalizing col with
  | nil => simp [pure, Except.pure, firstBy, topGuard, defaultOf]
  | cons item items ih =>
    have hRest : ConstGuards width items := fun i hi => hConst i (List.mem_cons_of_mem _ hi)
    have hTop : topGuard (item :: items) = max item.word (topGuard items) := rfl
    rw [List.foldlM_cons, hTop, CaseItem.word]
    simp only [firstBy_cons, defaultOf, List.foldl_cons]
    cases hGuard : item.guard with
    | none =>
      have hStep : collectItem col item = .ok { col with default_statement := item.statement } := by
        unfold collectItem
        rw [hGuard]
      rw [hStep]
      refine (ih hRest { col with default_statement := item.statement } hMax).trans ?_
      simp [defaultOf]
    | some guard =>
      rcases hConst item List.mem_cons_self guard hGuard with
      ⟨gval, rfl, -⟩
      simp only [GuardExpr.is]
      by_cases hOld : (col.statement_map gval.asULong.toNat).isSome
      · have hStep : collectItem col item = .ok col := by
          unfold collectItem
          rw [hGuard]
          exact if_pos hOld
        have hLe := hMax _ hOld
        rw [hStep]
        refine (ih hRest col hMax).trans ?_
        rw [← max_assoc, Nat.max_eq_left hLe]
        congr 2
        funext n
        by_cases hn : gval.asULong.toNat = n
        · subst hn
          rcases Option.isSome_iff_exists.mp hOld with ⟨s, hs⟩
          simp [hs]
        · simp [hn]
      · have hStep : collectItem col item = .ok { col with
            max_guard_value := max col.max_guard_value gval.asULong.toNat
            statement_map := Function.update col.statement_map gval.asULong.toNat
              (some item.statement) } := by
          unfold collectItem
          rw [hGuard]
          exact if_neg hOld
        rw [hStep]
        refine (ih hRest _ ?_).trans ?_
        · grind
        · rw [← max_assoc]
          congr 2
          funext n
          by_cases hn : gval.asULong.toNat = n
          · subst hn
            simp only [Option.not_isSome_iff_eq_none] at hOld
            simp [hOld]
          · simp [hn, Function.update_of_ne (Ne.symm hn)]

/- The muxes built from the collected items. -/
theorem PlainCase.synthAsync_eq (c : PlainCase σ) (env : BlockSynth σ) :
    c.synthAsync env =
      if 32 ≤ c.selNeed then .failed .muxTooWide
      else
        match c.select with
        | none => .assertion
        | some sel =>
          if (c.default :: c.data).all (·.all env.synthesizes) then
            .muxes ⟨sel, c.data, fun mdx =>
              if c.data.all (·.any (env.tied · mdx)) then none else some c.data⟩
          else .failed .substatement := by
  unfold NetCase.synthAsync
  rw [collect_spec c.const_guards _ (by simp)]
  rfl

----
-- Words of Guards
----

namespace PlainCase

variable {c : PlainCase σ}

theorem guard_word (c : PlainCase σ) {item : CaseItem σ} (hItem : item ∈ c.items) {gval : Verinum}
    (hGuard : item.guard = some (.const gval)) :
    gval.asULong.toNat = (if gval.isDefined then min gval.number (2 ^ 64 - 1) else 0) ∧
    gval.asULong.toNat ≤ c.top := by
  constructor
  · rcases c.const_guards item hItem _ hGuard with
    ⟨_, hEq, hLen⟩
    cases hEq
    by_cases hDefined : gval.isDefined
    · rw [if_pos hDefined, asULong_toNat hDefined (hLen ▸ c.width_pos)]
    · unfold asULong
      rw [if_neg hDefined, if_neg (by have := c.width_pos; omega), if_pos (by simpa using hDefined)]
      rfl
  · have hWord : item.word = gval.asULong.toNat := by
      unfold CaseItem.word
      rw [hGuard]
    rw [← hWord]
    exact List.le_max_of_le (List.mem_map_of_mem hItem) le_rfl

theorem top_le (c : PlainCase σ) : c.top ≤ min (2 ^ c.sel_width) (2 ^ 64) - 1 := by
  apply List.max_le_of_forall_le
  intro word hWord
  rcases List.mem_map.mp hWord with ⟨item, hItem, rfl⟩
  unfold CaseItem.word
  match hGuard : item.guard with
  | none => exact Nat.zero_le _
  | some .other => exact Nat.zero_le _
  | some (.const gval) =>
    rcases c.const_guards item hItem _ hGuard with
    ⟨_, hEq, hLen⟩
    cases hEq
    have hNumber : gval.number < 2 ^ gval.len := TwosComplement.low_lt _ _
    rw [hLen] at hNumber
    have hValue := (c.guard_word hItem hGuard).1
    simp only
    split_ifs at hValue <;> omega

theorem chosenBy_default {p : Verinum → Bool}
    (h : ∀ item ∈ c.items, ∀ gval, item.guard = some (.const gval) → p gval = false) :
    c.chosenBy p = c.default := by
  have hNone : firstBy p c.items = none := by
    unfold firstBy
    rw [Option.map_eq_none_iff, List.find?_eq_none]
    intro item hItem
    match hGuard : item.guard with
    | none => exact Bool.false_ne_true
    | some .other => exact Bool.false_ne_true
    | some (.const gval) => exact ne_true_of_eq_false (h item hItem gval hGuard)
  rw [chosenBy, hNone]
  rfl

theorem chosenBy_congr {p q : Verinum → Bool}
    (h : ∀ item ∈ c.items, ∀ gval, item.guard = some (.const gval) → p gval = q gval) :
    c.chosenBy p = c.chosenBy q := by
  have hFirst : firstBy p c.items = firstBy q c.items := by
    revert h
    induction c.items with
    | nil => exact fun _ => rfl
    | cons item items ih =>
      intro h
      have hHead : item.guard.any (·.is p) = item.guard.any (·.is q) := by
        match hGuard : item.guard with
        | none => rfl
        | some .other => rfl
        | some (.const gval) => exact h item List.mem_cons_self gval hGuard
      rw [firstBy_cons, firstBy_cons, hHead, ih (fun i hi => h i (List.mem_cons_of_mem _ hi))]
  rw [chosenBy, hFirst]
  rfl

theorem byWord_of_top_lt {n : Nat} (hn : c.top < n) : c.byWord n = c.default := by
  apply chosenBy_default
  intro item hItem gval hGuard
  have hWord := (c.guard_word hItem hGuard).2
  simp only [beq_eq_false_iff_ne]
  omega

/- Below the largest word, words are the values of guards. -/
theorem byWord_eq {n : Nat} (hPos : 0 < n) (hn : n < 2 ^ 64 - 1 ∨ c.top < 2 ^ 64 - 1) :
    c.byWord n = c.chosen n := by
  apply chosenBy_congr
  intro item hItem gval hGuard
  rcases c.guard_word hItem hGuard with
  ⟨hWord, hTop⟩
  rw [Bool.eq_iff_iff, Bool.and_eq_true, beq_iff_eq, beq_iff_eq]
  split_ifs at hWord with hDefined
  · rw [and_iff_right hDefined]
    omega
  · rw [iff_false_right (fun h => hDefined h.1)]
    omega

theorem chosen_of_top_lt {v : Nat} (hv : c.top < v) (hTop : c.top < 2 ^ 64 - 1) :
    c.chosen v = c.default := by
  rw [← byWord_eq (Nat.zero_lt_of_lt hv) (.inr hTop), byWord_of_top_lt hv]

----
-- Select Bits
----

theorem guardBits_eq {top : Nat} (hTop : top < 2 ^ 64 - 1) : guardBits top = log 2 top + 1 := by
  unfold guardBits
  rw [mod_eq_of_lt (by omega)]
  have hHigh := Nat.lt_pow_succ_log_self Nat.one_lt_two top
  apply Nat.le_antisymm
  · exact max_le (Nat.clog_le_of_le_pow hHigh) (Nat.le_add_left 1 _)
  · by_cases hZero : top = 0
    · rw [hZero]
      exact Nat.le_max_right _ _
    · have hLow := Nat.pow_log_le_self 2 hZero
      exact Nat.le_trans ((Nat.lt_clog_iff_pow_lt Nat.one_lt_two).mpr (Nat.lt_succ_of_le hLow))
        (Nat.le_max_left _ _)

/- The value of a reduced selector. -/
theorem reduce_spec {sel_got k : Nat} (hPos : 0 < k) (hGot : k + 1 < sel_got) :
    ∃ sel, muxSelectorReduceWidth sel_got (k + 1) = some sel ∧
      ∀ v < 2 ^ sel_got, sel v = if v < 2 ^ k then v else 2 ^ k + v % 2 ^ k := by
  unfold muxSelectorReduceWidth
  rw [if_neg (by omega), if_neg (by omega), if_neg (by omega)]
  refine ⟨_, rfl, ?_⟩
  intro v hv
  have hWidth : sel_got - (k + 1) + 1 = sel_got - k := by omega
  have hUpper : v / 2 ^ k < 2 ^ (sel_got - k) := by
    rw [Nat.div_lt_iff_lt_mul (two_pow_pos k), ← pow_add, Nat.sub_add_cancel (by omega)]
    exact hv
  simp only [partSelect, reduceOr, Nat.add_sub_cancel, hWidth, Nat.pow_zero, Nat.div_one,
    mod_eq_of_lt hUpper]
  by_cases hLow : v < 2 ^ k
  · rw [if_pos hLow, if_pos (Nat.div_eq_of_lt hLow), Nat.zero_mul, Nat.zero_add, mod_eq_of_lt hLow]
  · rw [if_neg hLow, if_neg (Nat.div_pos (Nat.le_of_not_lt hLow) (two_pow_pos k)).ne', Nat.one_mul]

/- The selector's value is always one of an input. -/
theorem select_lt {sel : Nat → Nat} (hSel : c.select = some sel) {v : Nat}
    (hv : v < 2 ^ c.sel_width) : sel v < 2 ^ c.selNeed := by
  unfold select at hSel
  split_ifs at hSel with hWide
  · rcases Nat.lt_or_ge c.selNeed 2 with hFew | hMany
    · unfold muxSelectorReduceWidth at hSel
      rw [if_neg (by omega), if_neg (by omega), if_pos hFew] at hSel
      cases hSel
    · obtain ⟨k, hk⟩ : ∃ k, c.selNeed = k + 1 := ⟨c.selNeed - 1, by omega⟩
      rw [hk] at hSel hWide ⊢
      rcases reduce_spec (show 0 < k by omega) hWide with
      ⟨sel', hSel', hValue⟩
      cases hSel.symm.trans hSel'
      rw [hValue v hv]
      split_ifs <;> omega
  · cases hSel
    exact Nat.lt_of_lt_of_le hv (Nat.pow_le_pow_right Nat.two_pos (Nat.le_of_not_lt hWide))

/- Over all ways to synthesise the statements, the muxes are
   right if every value of the selector leads to its item. -/
theorem right_iff (c : PlainCase σ) :
    (∀ env, c.Right env) ↔
      32 ≤ c.selNeed ∨ ∃ sel, c.select = some sel ∧
        ∀ v < 2 ^ c.sel_width, c.byWord (sel v) = c.chosen v := by
  unfold Right
  simp only [synthAsync_eq]
  by_cases hWide : 32 ≤ c.selNeed
  · simp [hWide]
  rw [or_iff_right hWide]
  simp only [if_neg hWide]
  cases hSel : c.select with
  | none =>
    constructor
    · exact fun h => (h ⟨fun _ => true, fun _ _ => true⟩).elim
    · exact fun ⟨sel, hSome, _⟩ => nomatch hSome
  | some sel =>
    have hAt : ∀ v < 2 ^ c.sel_width, c.data[sel v]? = some (c.byWord (sel v)) := by
      intro v hv
      rw [data, List.getElem?_map, List.getElem?_range (select_lt hSel hv)]
      rfl
    simp only [Option.some.injEq, exists_eq_left']
    constructor
    · intro hRight v hv
      have hEnv := hRight ⟨fun _ => true, fun _ _ => false⟩
      rw [if_pos (by simp)] at hEnv
      exact Option.some.inj ((hAt v hv).symm.trans (hEnv v hv).1)
    · intro hEq env
      split_ifs
      · intro v hv
        grind
      · trivial

----
-- Selected Items
----

/- The selector needs more bits than a mux may have. -/
def TooWide (c : PlainCase σ) : Prop :=
  32 ≤ log 2 c.top + (if c.default.isSome ∧ log 2 c.top + 1 < c.sel_width then 2 else 1)

/- No item with an x or a z in its guard takes the place of the
   one that zero selects. -/
def ZeroKept (c : PlainCase σ) : Prop :=
  c.chosenBy (fun gval => !gval.isDefined || gval.number == 0) = c.chosen 0

/- The upper half of the inputs is free for the values that are
   joined to it. -/
def UpperFree (c : PlainCase σ) : Prop :=
  c.sel_width ≤ log 2 c.top + 1 ∨ c.default.isSome ∨
    0 < log 2 c.top ∧ ∀ v, 2 ^ log 2 c.top ≤ v → c.chosen v = none

theorem byWord_zero (c : PlainCase σ) : c.byWord 0 = c.chosen 0 ↔ c.ZeroKept := by
  have hZero : c.byWord 0 = c.chosenBy (fun gval => !gval.isDefined || gval.number == 0) := by
    apply chosenBy_congr
    intro item hItem gval hGuard
    have hWord := (c.guard_word hItem hGuard).1
    rw [hWord]
    cases gval.isDefined <;> simp
  rw [ZeroKept, hZero]

/- With a default, or no bits to join. -/
theorem kept_iff {sel : Nat → Nat} (hTop : c.top < 2 ^ 64 - 1)
    (hSel : ∀ v < 2 ^ c.sel_width, sel v = v ∨ c.top < v ∧ c.top < sel v) :
    (∀ v < 2 ^ c.sel_width, c.byWord (sel v) = c.chosen v) ↔ c.ZeroKept := by
  rw [← byWord_zero]
  constructor
  · grind
  · intro hZero v hv
    rcases hSel v hv with hSame | ⟨hLt, hOver⟩
    · rw [hSame]
      rcases Nat.eq_zero_or_pos v with rfl | hPos
      · exact hZero
      · exact byWord_eq hPos (.inr hTop)
    · rw [byWord_of_top_lt hOver, chosen_of_top_lt hLt hTop]

/- Without default, and with bits to join. -/
theorem joined_iff {sel : Nat → Nat} {k : Nat} (hTop : c.top < 2 ^ 64 - 1)
    (hHigh : c.top < 2 ^ (k + 1)) (hWide : k + 1 < c.sel_width) (hNone : c.default = none)
    (hSel : ∀ v < 2 ^ c.sel_width, sel v = if v < 2 ^ k then v else 2 ^ k + v % 2 ^ k) :
    (∀ v < 2 ^ c.sel_width, c.byWord (sel v) = c.chosen v) ↔
      c.ZeroKept ∧ ∀ v, 2 ^ k ≤ v → c.chosen v = none := by
  have hPow := two_pow_pos k
  rw [← byWord_zero]
  constructor
  · intro h
    constructor
    · grind
    · intro v hv
      rcases Nat.lt_or_ge c.top v with hLt | hLe
      · rw [chosen_of_top_lt hLt hTop, hNone]
      · -- A value past all guards that is joined to this one.
        have hRoom : 2 ^ (k + 2) ≤ 2 ^ c.sel_width := Nat.pow_le_pow_right Nat.two_pos hWide
        rw [pow_add] at hRoom
        have hAt := h (2 ^ k * 2 + (v - 2 ^ k)) (by omega)
        have hMod : (2 ^ k * 2 + (v - 2 ^ k)) % 2 ^ k = v - 2 ^ k := by
          rw [Nat.mul_add_mod, mod_eq_of_lt (by omega)]
        rw [hSel _ (by omega), if_neg (by omega), hMod, Nat.add_sub_cancel' hv,
          byWord_eq (by omega) (.inr hTop),
          chosen_of_top_lt (v := 2 ^ k * 2 + (v - 2 ^ k)) (by omega) hTop, hNone] at hAt
        exact hAt
  · rintro ⟨hZero, hFree⟩ v hv
    rw [hSel v hv]
    split_ifs with hLow
    · rcases Nat.eq_zero_or_pos v with rfl | hPos
      · exact hZero
      · exact byWord_eq hPos (.inr hTop)
    · rw [byWord_eq (by omega) (.inr hTop), hFree v (by omega), hFree _ (by omega)]

end PlainCase

open PlainCase

/- A case statement selects its items where no guard passes a
   word, the guard of the zero is kept, and the upper half of
   the inputs is free or all bits of the selector are used; or
   where the mux would be too wide. -/
theorem case_muxes_exact (c : PlainCase σ) :
    (∀ env, c.Right env) ↔
      if c.top < 2 ^ 64 - 1 then c.TooWide ∨ c.ZeroKept ∧ c.UpperFree
      else
        c.default.isSome ∧ c.ZeroKept ∧
          ∀ v, 2 ≤ v → v < 2 ^ c.sel_width → c.chosen v = c.chosen (2 + v % 2) := by
  rw [right_iff]
  split_ifs with hTop
  · have hHigh := Nat.lt_pow_succ_log_self Nat.one_lt_two c.top
    have hBits := guardBits_eq hTop
    by_cases hJoin : c.default.isSome ∧ log 2 c.top + 1 < c.sel_width
    · -- One more bit leaves the values that are joined to the default.
      have hNeed : c.selNeed = log 2 c.top + 2 := by rw [selNeed, hBits, if_pos hJoin]
      have hFree : c.UpperFree := .inr (.inl hJoin.1)
      rw [TooWide, if_pos hJoin, hNeed]
      apply or_congr_right
      rw [and_iff_left hFree]
      by_cases hFit : log 2 c.top + 2 < c.sel_width
      · rcases reduce_spec (Nat.succ_pos (log 2 c.top)) hFit with
        ⟨sel, hSel, hValue⟩
        rw [select, hNeed, if_pos hFit, hSel]
        simp only [Option.some.injEq, exists_eq_left']
        apply kept_iff hTop
        intro v hv
        rw [hValue v hv]
        split_ifs with hLow
        · exact .inl rfl
        · exact .inr (by omega)
      · rw [select, hNeed, if_neg hFit]
        simp only [Option.some.injEq, exists_eq_left']
        exact kept_iff hTop (fun v _ => .inl rfl)
    · have hNeed : c.selNeed = log 2 c.top + 1 := by
        rw [selNeed, hBits, if_neg hJoin]
      rw [TooWide, if_neg hJoin, hNeed]
      apply or_congr_right
      by_cases hFit : log 2 c.top + 1 < c.sel_width
      · have hNone : c.default = none := by
          simpa [hFit] using hJoin
        rw [UpperFree, or_iff_right (Nat.not_le_of_lt hFit), hNone, Option.isSome_none,
          or_iff_right Bool.false_ne_true, select, hNeed, if_pos hFit]
        rcases Nat.eq_zero_or_pos (log 2 c.top) with hFew | hMany
        · rw [hFew, muxSelectorReduceWidth, if_neg (by omega), if_neg (by omega)]
          simp
        · rcases reduce_spec hMany hFit with
          ⟨sel, hSel, hValue⟩
          rw [hSel]
          simp only [Option.some.injEq, exists_eq_left', and_iff_right hMany]
          exact joined_iff hTop hHigh hFit hNone hValue
      · rw [select, hNeed, if_neg hFit]
        have hFree : c.UpperFree := .inl (Nat.le_of_not_lt hFit)
        simp only [Option.some.injEq, exists_eq_left', and_iff_left hFree]
        exact kept_iff hTop (fun v _ => .inl rfl)
  · -- The word past the largest one is 0, and one bit is thought enough.
    have hLe := c.top_le
    have hEq : c.top = 2 ^ 64 - 1 := by omega
    have hMany : 2 < c.sel_width := by
      by_contra hFew
      have hPow : 2 ^ c.sel_width ≤ 2 ^ 2 := Nat.pow_le_pow_right Nat.two_pos (by omega)
      omega
    have hBits : guardBits c.top = 1 := by
      rw [hEq]
      rfl
    by_cases hDefault : c.default.isSome
    · have hNeed : c.selNeed = 2 := by
        rw [selNeed, hBits, if_pos ⟨hDefault, by omega⟩]
      rcases reduce_spec Nat.one_pos hMany with
      ⟨sel, hSel, hValue⟩
      rw [select, hNeed, if_pos hMany, hSel, and_iff_right hDefault, or_iff_right (by decide),
        ← byWord_zero]
      simp only [Option.some.injEq, exists_eq_left']
      have hJoined : ∀ v, c.byWord (2 + v % 2) = c.chosen (2 + v % 2) := fun v =>
        byWord_eq (by omega) (.inl (by omega))
      constructor
      · intro h
        have hZero := h 0 (two_pow_pos _)
        rw [hValue 0 (two_pow_pos _)] at hZero
        refine ⟨hZero, fun v hLow hv => ?_⟩
        rw [← h v hv, hValue v hv, if_neg (by omega)]
        exact hJoined v
      · rintro ⟨hZero, hPeriod⟩ v hv
        rw [hValue v hv]
        split_ifs with hLow
        · rcases Nat.eq_zero_or_pos v with rfl | hPos
          · exact hZero
          · exact byWord_eq hPos (.inl (by omega))
        · rw [hPeriod v (by omega) hv]
          exact hJoined v
    · have hNeed : c.selNeed = 1 := by
        rw [selNeed, hBits, if_neg (fun h => hDefault h.1)]
      rw [select, hNeed, if_pos (by omega), muxSelectorReduceWidth, if_neg (by omega),
        if_neg (by omega)]
      simp [hDefault]

/- Three bits, and guards with two of them. -/
def fourGuards : PlainCase Nat where
  sel_width := 3
  items :=
    [⟨some (.const ⟨[.v0, .v0, .v0], true, false, false⟩), some 0⟩,
      ⟨some (.const ⟨[.v1, .v0, .v0], true, false, false⟩), some 1⟩,
      ⟨some (.const ⟨[.v0, .v1, .v0], true, false, false⟩), some 2⟩,
      ⟨some (.const ⟨[.v1, .v1, .v0], true, false, false⟩), some 3⟩]
  width_pos := Nat.succ_pos 2
  const_guards := by
    intro item hItem guard hGuard
    simp only [List.mem_cons, List.not_mem_nil, or_false] at hItem
    rcases hItem with rfl | rfl | rfl | rfl <;> cases hGuard <;> exact ⟨_, rfl, rfl⟩

/- The value 4 has no item, and leads to that of 2. -/
theorem case_muxes_joined : fourGuards.chosen 4 = none ∧ ¬∀ env, fourGuards.Right env := by
  refine ⟨by decide, ?_⟩
  rw [right_iff]
  rintro (hWide | ⟨sel, hSel, hEq⟩)
  · exact absurd hWide (by decide)
  · cases hSel
    exact absurd (hEq 4 (by decide)) (by decide)

end EpicSim
