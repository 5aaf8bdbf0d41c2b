import Mathlib.Data.List.Induction
import Mathlib.Data.List.Perm.Subperm
import EpicSim.Ivlpp.MacroTree

/-
  The macro table over runs of definitions and removals.
-/

namespace EpicSim

open Option (bind_eq_bind bind_some map_some map_map)
open PTree

namespace MacroState

----
-- The table as a tree
----

/- The magic macros, as a tree. -/
def magicTree : PTree Define :=
  node (node nil 1 (magicDefine fileName) nil) 0 (magicDefine lineName) nil

/- The memory has the magic macros and the tree. -/
structure Holds (s : MacroState) (t : PTree Define) : Prop where
  root : t.root = s.defTable
  rep : t.Rep s.heap none
  ordered : t.Ordered Define.name
  nodup : t.addresses.Nodup
  fresh : ∀ a ∈ t.addresses, 2 ≤ a ∧ a < s.next
  common : ∀ a x, t.find Define.name a = some x → x.2.magic = false
  magics : magicTree.Rep s.heap none
  statics : 2 ≤ s.next

/- A name that no magic macro has. -/
def IsPlain (name : CText) : Prop :=
  name ≠ lineName ∧ name ≠ fileName

instance : DecidablePred IsPlain :=
  fun name => inferInstanceAs (Decidable (name ≠ lineName ∧ name ≠ fileName))

theorem holds_start : start.Holds nil where
  root := rfl
  rep := trivial
  ordered := List.Pairwise.nil
  nodup := List.nodup_nil
  fresh := fun _ hMem => absurd hMem List.not_mem_nil
  common := fun _ _ hFind => nomatch hFind
  magics := ⟨rfl, ⟨rfl, trivial, trivial⟩, trivial⟩
  statics := Nat.le_refl 2

variable {s : MacroState} {t : PTree Define}

/- There are less cells than addresses. -/
theorem Holds.size_le (hHolds : s.Holds t) : t.size ≤ s.next := by
  have hSub : t.addresses ⊆ List.range s.next := by
    intro a hMem
    exact List.mem_range.mpr (hHolds.fresh a hMem).2
  have hLength := (hHolds.nodup.subperm hSub).length_le
  rw [length_addresses, List.length_range] at hLength
  exact hLength

----
-- One call
----

theorem defLookupInternal_spec (hRep : t.Rep s.heap none) (hSize : t.size ≤ s.next) (name : CText) :
    s.defLookupInternal name t.root = some ((t.find Define.name name).map Prod.fst) := by
  cases hRoot : t.root with
  | none =>
    rw [eq_nil_of_root hRoot]
    rfl
  | some a =>
    rcases hRep.root_cell hRoot with ⟨c, hCell, hUp⟩
    rw [defLookupInternal, hCell, bind_eq_bind, bind_some, if_pos hUp, ← hRoot]
    exact lookupLoop_spec hRep name hSize

theorem find_magicTree {name : CText} (hPlain : IsPlain name) :
    magicTree.find Define.name name = none := by
  have hLine : ¬ name = (magicDefine lineName).name := hPlain.1
  have hFile : ¬ name = (magicDefine fileName).name := hPlain.2
  unfold magicTree
  simp only [find, if_neg hLine, if_neg hFile, ite_self]

/- A lookup of a plain name searches the table. -/
theorem defLookup_spec (hHolds : s.Holds t) {name : CText} (hPlain : IsPlain name) :
    s.defLookup name = some ((t.find Define.name name).map Prod.fst) := by
  have hMagic : s.defLookupInternal name magicTable = some none := by
    have h := defLookupInternal_spec hHolds.magics hHolds.statics name
    rw [find_magicTree hPlain] at h
    exact h
  have hTable : s.defLookupInternal name s.defTable =
      some ((t.find Define.name name).map Prod.fst) := by
    rw [← hHolds.root]
    exact defLookupInternal_spec hHolds.rep hHolds.size_le name
  unfold defLookup
  rw [hMagic, hTable]
  split_ifs <;> rfl

/- Changes in the table leave the magic macros. -/
theorem magics_kept {h h' : TreeHeap Define} (hMagics : magicTree.Rep h none)
    (hSame : ∀ a, a < 2 → h' a = h a) : magicTree.Rep h' none := by
  apply hMagics.frame
  intro a hMem
  apply hSame
  have hCases : a = 1 ∨ a = 0 := by simpa [magicTree, addresses] using hMem
  omega

theorem Holds.inserted {s s' : MacroState} {d : Define} (hHolds : s.Holds t)
    (hCommon : d.magic = false)
    (hRoot : (t.insert Define.name s.next d (takeValue d)).root = s'.defTable)
    (hRep : (t.insert Define.name s.next d (takeValue d)).Rep s'.heap none)
    (hNext : s'.next = s.next + 1) (hSame : ∀ a, a < 2 → s'.heap a = s.heap a) :
    s'.Holds (t.insert Define.name s.next d (takeValue d)) := by
  have hStatics := hHolds.statics
  have hApart : s.next ∉ t.addresses := fun hMem => absurd (hHolds.fresh _ hMem).2 (Nat.lt_irrefl _)
  have hPerm : (t.insert Define.name s.next d
      (takeValue d)).addresses.Perm _ := addresses_insert _ _ _ _
  refine ⟨hRoot, hRep, ordered_insert (takeValue_name d) _ _ hHolds.ordered, ?_, ?_,
    ?_, magics_kept hHolds.magics hSame, by omega⟩
  · rw [hPerm.nodup_iff]
    split_ifs
    · exact hHolds.nodup
    · exact List.nodup_cons.mpr ⟨hApart, hHolds.nodup⟩
  · intro a hMem
    have hOld : a = s.next ∨ a ∈ t.addresses := by grind
    rcases hOld with hEq | hIn
    · omega
    · have hBounds := hHolds.fresh a hIn
      omega
  · intro n x hFind
    rw [find_insert (takeValue_name d)] at hFind
    split_ifs at hFind with hName
    · cases hOld : t.find Define.name n with
      | none => grind
      | some y =>
        rw [hOld] at hFind
        rw [← Option.some.inj hFind]
        exact hHolds.common n y hOld
    · exact hHolds.common n x hFind

/- A definition is inserted, or gives its value to the macro of
   its name. -/
theorem defineMacro_spec (hHolds : s.Holds t) {d : Define} (hCommon : d.magic = false) :
    ∃ s', s.defineMacro d = some s' ∧
      s'.Holds (t.insert Define.name s.next d (takeValue d)) := by
  have hStatics := hHolds.statics
  have hApart : s.next ∉ t.addresses := fun hMem => absurd (hHolds.fresh _ hMem).2 (Nat.lt_irrefl _)
  have hRep : t.Rep (s.heap.put s.next ⟨d, none, none, none⟩) none := by
    apply hHolds.rep.frame
    intro a hMem
    exact TreeHeap.put_other _ _ (ne_of_mem_of_not_mem hMem hApart)
  unfold defineMacro
  cases hTable : s.defTable with
  | none =>
    have hNil : t = nil := eq_nil_of_root (hHolds.root.trans hTable)
    refine ⟨_, rfl, hHolds.inserted hCommon ?_ ?_ rfl ?_⟩
    · rw [hNil]
      rfl
    · rw [hNil]
      exact ⟨TreeHeap.put_same _ _ _, trivial, trivial⟩
    · intro a hLt
      exact TreeHeap.put_other _ _ (by omega)
  | some cur =>
    have hRoot : t.root = some cur := hHolds.root.trans hTable
    have hFuel : t.size ≤ s.next + 1 := Nat.le_succ_of_le hHolds.size_le
    rcases placeLoop_spec (TreeHeap.put_same _ _ _) hRep
      hHolds.nodup hApart hRoot hFuel with
      ⟨h', hLoop, hRep', hSame⟩
    refine ⟨⟨h', some cur, s.next + 1⟩, ?_, hHolds.inserted hCommon ?_ hRep' rfl ?_⟩
    · simp only [bind_eq_bind]
      rw [hLoop]
      rfl
    · exact root_insert hRoot _ _ _
    · intro a hLt
      change h' a = s.heap a
      rw [hSame a ?_ (by omega), TreeHeap.put_other _ _ (by omega)]
      intro hMem
      exact absurd (hHolds.fresh a hMem).1 (by omega)

theorem Holds.deleted {s s' : MacroState} {name : CText} (hHolds : s.Holds t)
    (hRoot : (t.delete Define.name name).root = s'.defTable)
    (hRep : (t.delete Define.name name).Rep s'.heap none)
    (hNext : s'.next = s.next) (hSame : ∀ a, a < 2 → s'.heap a = s.heap a) :
    s'.Holds (t.delete Define.name name) := by
  have hSub : (t.delete Define.name name).addresses.Sublist
      t.addresses := addresses_delete_sublist _ _
  refine ⟨hRoot, hRep, ordered_delete hHolds.ordered _,
    hHolds.nodup.sublist hSub, ?_, ?_, magics_kept hHolds.magics hSame, ?_⟩
  · intro a hMem
    rw [hNext]
    exact hHolds.fresh a (hSub.subset hMem)
  · intro n x hFind
    rw [find_delete hHolds.ordered] at hFind
    split_ifs at hFind
    exact hHolds.common n x hFind
  · rw [hNext]
    exact hHolds.statics

/- The macro of the name is deleted, if there is one. -/
theorem defUndefine_spec (hHolds : s.Holds t) {name : CText} (hPlain : IsPlain name) :
    ∃ s', s.defUndefine name = some s' ∧
      s'.Holds (t.delete Define.name name) := by
  unfold defUndefine
  rw [defLookup_spec hHolds hPlain]
  cases hFind : t.find Define.name name with
  | none =>
    refine ⟨s, rfl, ?_⟩
    rw [delete_of_find_none hFind]
    exact hHolds
  | some found =>
    rcases found with ⟨a, x⟩
    have hMem := mem_addresses_of_find hFind
    rcases unlink_spec hFind hHolds.rep hHolds.nodup
      hHolds.size_le hHolds.root.symm
      (fun p hP => nomatch hP) with
      ⟨s', hUnlink, hRep', hTable, hNext, hSame⟩
    have hGone := not_mem_addresses_delete hHolds.nodup hFind
    rcases hHolds.rep.cell_of_find hFind with ⟨c, hCell, hData⟩
    refine ⟨{ s' with heap := s'.heap.free a }, ?_, hHolds.deleted hTable.symm ?_ hNext ?_⟩
    · simp only [map_some, bind_eq_bind, bind_some]
      rw [hCell, bind_some, hData, hHolds.common name _ hFind, hUnlink]
      rfl
    · apply hRep'.frame
      intro b hB
      exact TreeHeap.free_other _ (ne_of_mem_of_not_mem hB hGone)
    · intro b hLt
      have hOut : b ∉ t.addresses := fun hIn => absurd (hHolds.fresh b hIn).1 (by omega)
      have hNe : b ≠ a := (ne_of_mem_of_not_mem hMem hOut).symm
      change s'.heap.free a b = s.heap b
      rw [TreeHeap.free_other _ hNe, hSame b hOut nofun]

----
-- Macros by name
----

/- The macro that a lookup finds. -/
def macroOf (s : MacroState) (name : CText) : Option Define := do
  let found ← s.defLookup name
  let cell ← found
  let c ← s.heap cell
  some c.data

theorem macroOf_spec (hHolds : s.Holds t) {name : CText} (hPlain : IsPlain name) :
    s.macroOf name = (t.find Define.name name).map Prod.snd := by
  unfold macroOf
  rw [defLookup_spec hHolds hPlain]
  cases hFind : t.find Define.name name with
  | none => rfl
  | some found =>
    rcases found with ⟨a, x⟩
    rcases hHolds.rep.cell_of_find hFind with ⟨c, hCell, hData⟩
    simp only [map_some, bind_eq_bind, bind_some]
    rw [hCell, bind_some, hData]

theorem newDefine_name (name value : CText) (keyword : Int) (argc : Nat)
    (argd : Nat → Option CText) : (newDefine name value keyword argc argd).name = name := rfl

theorem newDefine_magic (name value : CText) (keyword : Int) (argc : Nat)
    (argd : Nat → Option CText) : (newDefine name value keyword argc argd).magic = false := rfl

/- The calls as changes of a finite map, where a macro that is
   defined again only takes the new value. -/
def keptStep (m : CText → Option Define) (op : MacroOp) : CText → Option Define :=
  fun n =>
    if n = op.name then
      op.defined.map fun d => (m n).elim d (takeValue d)
    else m n

/- One call on the tree is one change of the map. -/
theorem step_spec (hHolds : s.Holds t) {op : MacroOp} (hPlain : IsPlain op.name) :
    ∃ s' t', s.step op = some s' ∧ s'.Holds t' ∧
      ∀ n, (t'.find Define.name n).map Prod.snd =
        keptStep (fun m => (t.find Define.name m).map Prod.snd) op n := by
  cases op with
  | define name value keyword argc argd =>
    rcases defineMacro_spec hHolds
      (newDefine_magic name value keyword argc argd) with
      ⟨s', hStep, hHolds'⟩
    refine ⟨s', _, hStep, hHolds', ?_⟩
    intro n
    rw [find_insert (takeValue_name _), newDefine_name]
    unfold keptStep
    rw [MacroOp.name]
    by_cases hName : n = name
    · rw [if_pos hName, if_pos hName]
      beta_reduce
      cases hFind : t.find Define.name n with
      | none => rfl
      | some found => rfl
    · rw [if_neg hName, if_neg hName]
  | undefine name =>
    rcases defUndefine_spec hHolds hPlain with ⟨s', hStep, hHolds'⟩
    refine ⟨s', _, hStep, hHolds', ?_⟩
    intro n
    rw [find_delete hHolds.ordered]
    unfold keptStep
    rw [MacroOp.name]
    by_cases hName : n = name
    · rw [if_pos hName, if_pos hName]
      rfl
    · rw [if_neg hName, if_neg hName]

----
-- Runs
----

theorem run_concat (s : MacroState) (ops : List MacroOp) (op : MacroOp) :
    run s (ops ++ [op]) = (run s ops).bind fun s' => s'.step op := by
  induction ops generalizing s with
  | nil =>
    rw [List.nil_append, run, run, bind_some]
    cases s.step op with
    | none => rfl
    | some s' => rfl
  | cons first ops ih =>
    rw [List.cons_append, run, run]
    cases s.step first with
    | none => rfl
    | some s' => exact ih s'

/- What the table keeps of a run. -/
def keptDefinition (ops : List MacroOp) : CText → Option Define :=
  ops.foldl keptStep fun _ => none

/- A run fails no assertion, and leaves a search tree of what is
   kept. -/
theorem run_spec (ops : List MacroOp) (hPlain : ∀ op ∈ ops, IsPlain op.name) :
    ∃ s t, run start ops = some s ∧ s.Holds t ∧
      ∀ n, (t.find Define.name n).map Prod.snd = keptDefinition ops n := by
  induction ops using List.reverseRecOn with
  | nil => exact ⟨start, nil, rfl, holds_start, fun _ => rfl⟩
  | append_singleton ops op ih =>
    rcases ih (fun o hMem => hPlain o
      (List.mem_append_left _ hMem)) with
      ⟨s, t, hRun, hHolds, hKept⟩
    rcases step_spec hHolds (hPlain op
      (List.mem_append_right _ List.mem_cons_self)) with
      ⟨s', t', hStep, hHolds', hFind⟩
    refine ⟨s', t', ?_, hHolds', ?_⟩
    · rw [run_concat, hRun]
      exact hStep
    · intro n
      rw [hFind, funext hKept]
      unfold keptDefinition
      rw [List.foldl_append]
      rfl

/- The last call on a name, if it is a definition. -/
def lastDefinition (ops : List MacroOp) : CText → Option Define :=
  ops.foldl (fun m op n => if n = op.name then op.defined else m n) fun _ => none

theorem lastDefinition_concat (ops : List MacroOp) (op : MacroOp) (n : CText) :
    lastDefinition (ops ++ [op]) n =
      if n = op.name then op.defined else lastDefinition ops n := by
  unfold lastDefinition
  rw [List.foldl_append]
  rfl

theorem keptDefinition_concat (ops : List MacroOp) (op : MacroOp) :
    keptDefinition (ops ++ [op]) = keptStep (keptDefinition ops) op := by
  unfold keptDefinition
  rw [List.foldl_append]
  rfl

----
-- A finite map
----

/- What a user of a macro sees of its definition. -/
def shown (d : Define) : CText × Nat × List (Option CText) :=
  (d.value, d.argc, d.defaults)

/- The cells below the table are a search tree by `strcmp`, in
   which every cell knows its parent. -/
def IsSearchTree (s : MacroState) : Prop :=
  ∃ t : PTree Define, t.root = s.defTable ∧ t.Rep s.heap none ∧
    t.addresses.Nodup ∧
    t.entries.Pairwise fun c d => strcmp c.name d.name < 0

/- No call on a name changes the macro of another one. -/
def ChangesOneName (s : MacroState) : Prop :=
  ∀ op : MacroOp, IsPlain op.name → ∃ s', s.step op = some s' ∧
    ∀ n, IsPlain n → n ≠ op.name → s'.macroOf n = s.macroOf n

/- A lookup finds what the last call on the name has defined. -/
def FindsLast (ops : List MacroOp) (s : MacroState) : Prop :=
  ∀ n, IsPlain n → (s.macroOf n).map shown = (lastDefinition ops n).map shown

/- No macro is defined again with another argument count or with
   other defaults. -/
def RedefinedAlike (ops : List MacroOp) : Prop :=
  ∀ before op after old new, ops = before ++ op :: after →
    lastDefinition before op.name = some old →
    op.defined = some new →
    old.argc = new.argc ∧ old.defaults = new.defaults

theorem kept_shown_iff (ops : List MacroOp) (hPlain : ∀ op ∈ ops, IsPlain op.name) :
    (∀ before, before <+: ops → ∀ n, IsPlain n →
      (keptDefinition before n).map shown = (lastDefinition before n).map shown) ↔
      RedefinedAlike ops := by
  constructor
  · intro hShown before op after old new hOps hOld hNew
    have hName : IsPlain op.name := by grind
    have hBefore := hShown before ⟨op :: after, hOps.symm⟩ op.name hName
    have hAfter := hShown (before ++ [op])
      ⟨after, by rw [hOps, List.append_assoc]; rfl⟩ op.name hName
    rw [hOld] at hBefore
    rw [keptDefinition_concat, lastDefinition_concat, if_pos rfl] at hAfter
    unfold keptStep at hAfter
    rw [if_pos rfl, hNew] at hAfter
    cases hKept : keptDefinition before op.name with
    | none =>
      rw [hKept] at hBefore
      cases hBefore
    | some kept =>
      rw [hKept] at hBefore hAfter
      have hSame : shown kept = shown old := Option.some.inj hBefore
      have hTaken : shown (takeValue new kept) = shown new := Option.some.inj hAfter
      have hArgc : kept.argc = new.argc := congrArg (fun p => p.2.1) hTaken
      have hDefaults : kept.defaults = new.defaults := congrArg (fun p => p.2.2) hTaken
      rw [← hArgc, ← hDefaults]
      exact ⟨(congrArg (fun p => p.2.1) hSame).symm, (congrArg (fun p => p.2.2) hSame).symm⟩
  · intro hAlike before
    induction before using List.reverseRecOn with
    | nil => exact fun _ _ _ => rfl
    | append_singleton before op ih =>
      intro hPrefix n hN
      have hShown := ih ((List.prefix_append before [op]).trans hPrefix) n hN
      rw [keptDefinition_concat, lastDefinition_concat]
      unfold keptStep
      by_cases hName : n = op.name
      · rw [if_pos hName, if_pos hName]
        rcases hPrefix with ⟨after, hOps⟩
        cases hNew : op.defined with
        | none => rfl
        | some new =>
          cases hKept : keptDefinition before n with
          | none => rfl
          | some kept =>
            rw [hKept] at hShown
            cases hOld : lastDefinition before n with
            | none =>
              rw [hOld] at hShown
              cases hShown
            | some old =>
              rw [hOld] at hShown
              have hSame : shown kept = shown old := Option.some.inj hShown
              rcases hAlike before op after old new
                (by rw [← hOps, List.append_assoc]; rfl)
                (hName ▸ hOld) hNew with
                ⟨hArgc, hDefaults⟩
              have hArgc' : kept.argc = old.argc := congrArg (fun p => p.2.1) hSame
              have hDefaults' : kept.defaults = old.defaults := congrArg (fun p => p.2.2) hSame
              change some (new.value, kept.argc,
                kept.defaults) = some (new.value, new.argc,
                new.defaults)
              rw [hArgc', hDefaults', hArgc, hDefaults]
      · rw [if_neg hName, if_neg hName]
        exact hShown

/- After every call the table is a search tree in which only the
   macro of the call has changed; it has the last definitions of
   all names if and only if macros are only defined again with
   the arguments they had. -/
theorem macro_table_exact (ops : List MacroOp) (hPlain : ∀ op ∈ ops, IsPlain op.name) :
    (∀ before, before <+: ops → ∃ s, run start before = some s ∧
      s.IsSearchTree ∧ s.ChangesOneName ∧
      ∀ n, IsPlain n → (s.defLookup n).isSome) ∧
    ((∀ before, before <+: ops →
      ∃ s, run start before = some s ∧ FindsLast before s) ↔
      RedefinedAlike ops) := by
  have hPlainBefore : ∀ before, before <+: ops →
      ∀ op ∈ before, IsPlain op.name :=
    fun before hPrefix op hMem => hPlain op (hPrefix.subset hMem)
  refine ⟨?_, ?_⟩
  · intro before hPrefix
    rcases run_spec before (hPlainBefore before hPrefix) with ⟨s, t, hRun, hHolds, _⟩
    refine ⟨s, hRun, ?_, ?_, ?_⟩
    · refine ⟨t, hHolds.root, hHolds.rep, hHolds.nodup, ?_⟩
      apply List.Pairwise.imp _ hHolds.ordered
      intro c d hLt
      exact (strcmp_text_neg_iff _ _).mpr hLt
    · intro op hName
      rcases step_spec hHolds hName with ⟨s', t', hStep, hHolds', hFind⟩
      refine ⟨s', hStep, ?_⟩
      intro n hN hNe
      rw [macroOf_spec hHolds' hN, macroOf_spec hHolds hN, hFind]
      exact if_neg hNe
    · intro n hN
      rw [defLookup_spec hHolds hN]
      rfl
  · rw [← kept_shown_iff ops hPlain]
    apply forall_congr'
    intro before
    apply forall_congr'
    intro hPrefix
    rcases run_spec before (hPlainBefore before hPrefix) with ⟨s, t, hRun, hHolds, hKept⟩
    constructor
    · rintro ⟨s', hRun', hFinds⟩ n hN
      rw [hRun, Option.some.injEq] at hRun'
      rw [← hFinds n hN, ← hRun', macroOf_spec hHolds hN, hKept]
    · intro hShown
      refine ⟨s, hRun, ?_⟩
      intro n hN
      rw [macroOf_spec hHolds hN, hKept]
      exact hShown n hN

/- `F(x)` with the text of its argument, and then `F` without
   arguments. -/
def redefinition : List MacroOp :=
  [.define ⟨[70], by decide⟩ ⟨[7, 1], by decide⟩ 0 2 fun _ => none,
    .define ⟨[70], by decide⟩ ⟨[49], by decide⟩ 0 1 fun _ => none]

theorem macro_table_exact_redefinition :
    ∃ s, run start redefinition = some s ∧ s.IsSearchTree ∧
      s.ChangesOneName ∧ ∀ n, IsPlain n → (s.defLookup n).isSome :=
  (macro_table_exact redefinition (by decide)).1 redefinition (List.prefix_refl redefinition)

/- The argument count is the first one. -/
theorem redefinition_keeps_argc :
    ¬ ∃ s, run start redefinition = some s ∧
      FindsLast redefinition s := by
  rintro ⟨s, hRun, hFinds⟩
  have hKept : (run start redefinition).bind
      (fun s => (s.macroOf ⟨[70], by decide⟩).map Define.argc) =
      some 2 := by
    decide
  have hLast := hFinds ⟨[70], by decide⟩ (by decide)
  rw [hRun] at hKept
  have hArgc := congrArg (Option.map fun p => p.2.1) hLast
  rw [map_map] at hArgc
  have hTwo : some 2 = some 1 := hKept.symm.trans hArgc
  exact absurd hTwo (by decide)

end MacroState

end EpicSim
