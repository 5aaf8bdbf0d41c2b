import EpicSim.Ivlpp.MacroRuns

/-
  Precompiled macros.

  A table of macros is written to a file of records, and the
  records are definitions again when the file is read.  A record
  has the number of arguments of a macro, but not their defaults.
-/

namespace EpicSim

open List (length_cons suffix_cons flatMap_cons not_mem_nil mem_cons map_cons mem_cons_self)
open Option (bind_eq_bind bind_some map_some filter_some)
open PTree

----
-- Writing
----

/- The digits that `%d` prints before a text. -/
def decimalLoop : Nat → Nat → List (Fin 256) → List (Fin 256)
| 0, _, tail => tail
| fuel + 1, n, tail =>
  let tail := Fin.ofNat 256 (48 + n % 10) :: tail
  if n < 10 then tail else decimalLoop fuel (n / 10) tail

def decimal (n : Nat) : List (Fin 256) :=
  decimalLoop (n + 1) n []

/- `"%s:%d:%zd:%s\n"` -/
def Define.record (d : Define) : List (Fin 256) :=
  d.name.1 ++ 58 :: (decimal d.argc ++ 58 ::
    (decimal d.value.1.length ++ 58 :: (d.value.1 ++ [10])))

/- The record of a macro that is not a keyword. -/
def Define.dumped (d : Define) : List (Fin 256) :=
  if d.keyword = 0 then d.record else []

namespace MacroState

/- `do_dump_precompiled_defines` -/
def doDumpPrecompiledDefines (h : TreeHeap Define) : Nat → Nat → Option (List (Fin 256))
| 0, _ => none
| fuel + 1, table => do
    let c ← h table
    let left ← c.left.elim (some []) (doDumpPrecompiledDefines h fuel)
    let right ← c.right.elim (some []) (doDumpPrecompiledDefines h fuel)
    some (c.data.dumped ++ (left ++ right))

/- `dump_precompiled_defines` -/
def dumpPrecompiledDefines (s : MacroState) : Option (List (Fin 256)) :=
  s.defTable.elim (some []) (doDumpPrecompiledDefines s.heap s.next)

----
-- Reading
----

/- `isdigit` -/
def isDigit (ch : Fin 256) : Prop := 48 ≤ ch.val ∧ ch.val ≤ 57

instance : DecidablePred isDigit :=
  fun ch => inferInstanceAs (Decidable (48 ≤ ch.val ∧ ch.val ≤ 57))

/- The loop that reads a number, and what it leaves. -/
def readNumber : Nat → List (Fin 256) → Nat × List (Fin 256)
| n, [] => (n, [])
| n, ch :: src =>
  if isDigit ch then readNumber (10 * n + (ch.val - 48)) src
  else (n, ch :: src)

/- What follows a byte that has to be there. -/
def expect (c : Fin 256) : List (Fin 256) → Option (List (Fin 256))
| [] => none
| ch :: src => if ch = c then some src else none

/- What is read after a name: at the end of the file, or where
   another byte is expected, the loader returns. -/
def readFields (argd : Nat → Option CText) (name : CText)
    (src : List (Fin 256)) : Option (Define × List (Fin 256)) := do
  let argc := readNumber 0 src
  let src ← expect 58 argc.2
  let len := readNumber 0 src
  let src ← expect 58 len.2
  let rest ← expect 10 (src.drop len.1)
  let value := CText.ofBytes (src.take len.1)
  some (newDefine name value 0 argc.1 argd, rest)

/- The macro of the next record, unless an assertion about the
   buffer of the name fails. -/
def readRecord (argd : Nat → Option CText) :
    List (Fin 256) → Option (Option (Define × List (Fin 256)))
| [] => some none
| ch :: src =>
  let name := ch :: src.takeWhile (· ≠ 58)
  if 4096 ≤ name.length then none
  else
    match src.dropWhile (· ≠ 58) with
    | [] => some none
    | _ :: src =>
      if 4096 ≤ name.length + 1 then none
      else some (readFields argd (CText.ofBytes name) src)

/- The loop of `load_precompiled_defines`; `argd` is the table
   that `define_macro` takes the defaults from. -/
def loadLoop (argd : Nat → Option CText) : Nat → MacroState → List (Fin 256) → Option MacroState
| 0, _, _ => none
| fuel + 1, s, src =>
  match readRecord argd src with
  | none => none
  | some none => some s
  | some (some (d, rest)) => do
    let s ← s.defineMacro d
    loadLoop argd fuel s rest

/- `load_precompiled_defines`: every pass reads a byte. -/
def loadPrecompiledDefines (s : MacroState) (argd : Nat → Option CText)
    (src : List (Fin 256)) : Option MacroState :=
  loadLoop argd (src.length + 1) s src

/- The macro of a name in the table. -/
def tableOf (s : MacroState) (name : CText) : Option Define := do
  let found ← s.defLookupInternal name s.defTable
  let cell ← found
  let c ← s.heap cell
  some c.data

/- Loading what was written into an empty table gives the macros
   that are no keywords. -/
def RoundTrips (s : MacroState) (argd : Nat → Option CText) : Prop :=
  ∃ bytes s', s.dumpPrecompiledDefines = some bytes ∧
    start.loadPrecompiledDefines argd bytes = some s' ∧
    ∀ n, (s'.tableOf n).map shown = ((s.tableOf n).filter fun d => d.keyword = 0).map shown

/- A name that is read back. -/
def NameFits (name : CText) : Prop :=
  name.1 ≠ [] ∧ 58 ∉ name.1.tail

/- The names can be read back, and the defaults are those of the
   loader. -/
def Storable (s : MacroState) (argd : Nat → Option CText) : Prop :=
  ∀ n d, s.tableOf n = some d → d.keyword = 0 →
    NameFits n ∧ d.defaults = (List.range d.argc).map argd

----
-- A record
----

variable {argd : Nat → Option CText} {s : MacroState}
  {t : PTree Define}

theorem readNumber_decimalLoop {fuel n : Nat} (hFuel : n < fuel) (tail rest : List (Fin 256)) :
    readNumber 0 (decimalLoop fuel n tail ++ rest) = readNumber n (tail ++ rest) := by
  induction fuel generalizing n tail with
  | zero => exact absurd hFuel (Nat.not_lt_zero n)
  | succ fuel ih =>
    have hVal : (Fin.ofNat 256 (48 + n % 10)).val = 48 + n % 10 := by
      rw [Fin.val_ofNat]
      omega
    have hDigit : isDigit (Fin.ofNat 256 (48 + n % 10)) := by
      unfold isDigit
      omega
    have hStep : ∀ k, 10 * k + n % 10 = n →
        readNumber k (Fin.ofNat 256 (48 + n % 10) :: (tail ++ rest)) =
          readNumber n (tail ++ rest) := by
      intro k hK
      rw [readNumber, if_pos hDigit, hVal, Nat.add_sub_cancel_left, hK]
    rw [decimalLoop]
    grind

/- A printed number before a colon is read back. -/
theorem readNumber_decimal (n : Nat) (rest : List (Fin 256)) :
    readNumber 0 (decimal n ++ 58 :: rest) = (n, 58 :: rest) :=
  readNumber_decimalLoop (Nat.lt_succ_self n) [] _

theorem expect_self (c : Fin 256) (src : List (Fin 256)) :
    expect c (c :: src) = some src := if_pos rfl

theorem readRecord_record {d : Define} (hFits : NameFits d.name) (hLength : d.name.1.length < 4095)
    (rest : List (Fin 256)) :
    readRecord argd (d.record ++ rest) =
      some (some (newDefine d.name d.value 0 d.argc argd, rest)) := by
  rcases hFits with ⟨hNonempty, hColon⟩
  rcases hName : d.name.1 with _ | ⟨ch, name⟩
  · exact absurd hName hNonempty
  rw [hName] at hColon
  rw [hName, length_cons] at hLength
  have hAll : ∀ c ∈ name, decide (c ≠ 58) = true :=
    fun c hMem => decide_eq_true (ne_of_mem_of_not_mem hMem hColon)
  have hStop : decide ((58 : Fin 256) ≠ 58) = false := rfl
  have hText : CText.ofBytes (ch :: name) = d.name := by
    rw [← hName]
    exact CText.ofBytes_text d.name
  unfold Define.record
  simp only [hName, List.cons_append, List.append_assoc]
  rw [readRecord, List.takeWhile_append_of_pos hAll, List.dropWhile_append_of_pos hAll,
    List.takeWhile_cons, List.dropWhile_cons, hStop, if_neg Bool.false_ne_true,
    if_neg Bool.false_ne_true, List.append_nil, length_cons, if_neg (by omega)]
  simp only []
  rw [if_neg (by omega), hText]
  unfold readFields
  simp only [readNumber_decimal, expect_self, bind_eq_bind, bind_some,
    List.drop_left, List.take_left, List.nil_append, CText.ofBytes_text]

theorem readNumber_suffix (n : Nat) (src : List (Fin 256)) : (readNumber n src).2 <:+ src := by
  induction src generalizing n with
  | nil => exact List.suffix_refl _
  | cons ch src ih =>
    rw [readNumber]
    grind

theorem eq_of_expect {c : Fin 256} {src rest : List (Fin 256)} (h : expect c src = some rest) :
    src = c :: rest := by
  cases src with
  | nil => cases h
  | cons ch src =>
    rw [expect] at h
    split_ifs at h with hEq
    rw [hEq, Option.some.inj h]

/- What is read without zeros has a name that fits. -/
theorem readRecord_some {src rest : List (Fin 256)} {d : Define} (hZero : 0 ∉ src)
    (h : readRecord argd src = some (some (d, rest))) :
    NameFits d.name ∧ d.magic = false ∧
      d.defaults = (List.range d.argc).map argd ∧ 0 ∉ rest := by
  cases src with
  | nil => cases h
  | cons ch src =>
    rw [readRecord] at h
    cases hDrop : src.dropWhile (· ≠ 58) with
    | nil => grind
    | cons c fields =>
      rw [hDrop] at h
      split_ifs at h
      simp only [readFields, bind_eq_bind, Option.bind_eq_some_iff,
        Option.some.injEq, Prod.mk.injEq] at h
      rcases h with ⟨rest₁, h₁, rest₂, h₂, rest₃, h₃, hEq, hRest⟩
      have hName : (ch :: src.takeWhile (· ≠ 58)).Sublist
          (ch :: src) := (List.takeWhile_sublist _).cons_cons ch
      have hText : CText.ofBytes (ch :: src.takeWhile (· ≠ 58)) =
          ⟨_, fun hMem => hZero (hName.subset hMem)⟩ :=
        CText.ofBytes_text ⟨_, fun hMem => hZero (hName.subset hMem)⟩
      have hSuffix : rest <:+ ch :: src := by
        have hFields : fields <:+ src :=
          (suffix_cons c fields).trans (hDrop ▸ List.dropWhile_suffix _)
        have hSecond : rest₁ <:+ fields :=
          (suffix_cons 58 rest₁).trans (eq_of_expect h₁ ▸ readNumber_suffix 0 fields)
        have hThird : rest₂ <:+ rest₁ :=
          (suffix_cons 58 rest₂).trans (eq_of_expect h₂ ▸ readNumber_suffix 0 rest₁)
        have hLast : rest <:+ rest₂ :=
          hRest ▸ (suffix_cons 10 rest₃).trans (eq_of_expect h₃ ▸ List.drop_suffix _ rest₂)
        exact hLast.trans (hThird.trans (hSecond.trans (hFields.trans (suffix_cons ch src))))
      rw [← hEq, hText]
      refine ⟨⟨List.cons_ne_nil _ _, ?_⟩, rfl, rfl, fun hMem => hZero (hSuffix.subset hMem)⟩
      intro hColon
      have hNot := List.mem_takeWhile_imp hColon
      exact absurd rfl (of_decide_eq_true hNot)

----
-- The file
----

theorem doDump_spec {h : TreeHeap Define} {up : Option Nat} (hRep : t.Rep h up) {fuel : Nat}
    (hFuel : t.size ≤ fuel) :
    t.root.elim (some []) (doDumpPrecompiledDefines h fuel) =
      some (t.preorder.flatMap Define.dumped) := by
  induction t generalizing up fuel with
  | nil => rfl
  | node l a x r ihL ihR =>
    rcases hRep with ⟨hCell, hLeft, hRight⟩
    cases fuel with
    | zero => exact absurd hFuel (Nat.not_succ_le_zero _)
    | succ fuel =>
      rw [PTree.size] at hFuel
      rw [PTree.root, Option.elim_some, doDumpPrecompiledDefines, hCell, bind_eq_bind,
        bind_some, ihL hLeft (by omega),
        ihR hRight (by omega), PTree.preorder, flatMap_cons, List.flatMap_append]
      rfl

/- The records of a table. -/
theorem dump_spec (hHolds : s.Holds t) :
    s.dumpPrecompiledDefines = some
      ((t.preorder.filter fun d => d.keyword = 0).flatMap Define.record) := by
  have hDumped : ∀ ds : List Define, ds.flatMap Define.dumped =
      (ds.filter fun d => d.keyword = 0).flatMap Define.record := by
    intro ds
    induction ds with
    | nil => rfl
    | cons d ds ih =>
      rw [flatMap_cons, ih, List.filter_cons, Define.dumped]
      grind
  unfold dumpPrecompiledDefines
  rw [← hHolds.root, doDump_spec hHolds.rep hHolds.size_le, hDumped]

theorem zero_notMem_decimalLoop (fuel n : Nat) {tail : List (Fin 256)} (hZero : 0 ∉ tail) :
    0 ∉ decimalLoop fuel n tail := by
  induction fuel generalizing n tail with
  | zero => exact hZero
  | succ fuel ih =>
    have hCons : 0 ∉ Fin.ofNat 256 (48 + n % 10) :: tail := by grind
    rw [decimalLoop]
    split_ifs
    · exact hCons
    · exact ih _ hCons

theorem zero_notMem_record (d : Define) : 0 ∉ d.record := by
  have hDecimal : ∀ n, 0 ∉ decimal n := fun n => zero_notMem_decimalLoop _ n not_mem_nil
  unfold Define.record
  simp only [List.mem_append, mem_cons]
  have hName := d.name.2
  have hValue := d.value.2
  tauto

/- The records of macros that fit are defined again. -/
theorem loadLoop_records {ds : List Define}
    (hFits : ∀ d ∈ ds, NameFits d.name ∧ d.name.1.length < 4095)
    (hNodup : (ds.map Define.name).Nodup) (hHolds : s.Holds t)
    (hNew : ∀ d ∈ ds, t.find Define.name d.name = none) {fuel : Nat}
    (hFuel : (ds.flatMap Define.record).length < fuel) :
    ∃ s' t', loadLoop argd fuel s (ds.flatMap Define.record) = some s' ∧ s'.Holds t' ∧
      (∀ d ∈ ds, (t'.find Define.name d.name).map Prod.snd =
        some (newDefine d.name d.value 0 d.argc argd)) ∧
      ∀ n, n ∉ ds.map Define.name →
        t'.find Define.name n = t.find Define.name n := by
  induction ds generalizing s t fuel with
  | nil =>
    cases fuel with
    | zero => exact absurd hFuel (Nat.not_lt_zero _)
    | succ fuel => exact ⟨s, t, rfl, hHolds, fun d hMem => absurd hMem not_mem_nil, fun _ _ => rfl⟩
  | cons d ds ih =>
    cases fuel with
    | zero => exact absurd hFuel (Nat.not_lt_zero _)
    | succ fuel =>
      rw [map_cons, List.nodup_cons] at hNodup
      rw [flatMap_cons] at hFuel ⊢
      rcases hFits d mem_cons_self with ⟨hName, hLength⟩
      rcases defineMacro_spec hHolds
        (newDefine_magic d.name d.value 0 d.argc argd) with
        ⟨s₁, hDefine, hHolds₁⟩
      have hInserted := fun n => find_insert
        (takeValue_name (newDefine d.name d.value 0 d.argc argd)) n
        s.next (newDefine d.name d.value 0 d.argc argd) t
      have hKept := fun n (hNe : n ≠ d.name) => (hInserted n).trans (if_neg hNe)
      have hPlaced := (hInserted d.name).trans (if_pos rfl)
      rw [hNew d mem_cons_self] at hPlaced
      have hApart : ∀ e ∈ ds, e.name ≠ d.name :=
        fun e hE hEq => hNodup.1 (hEq ▸ List.mem_map_of_mem hE)
      rcases ih (fun e hE => hFits e (List.mem_cons_of_mem d hE))
        hNodup.2 hHolds₁
        (fun e hE => (hKept _ (hApart e hE)).trans (hNew e (List.mem_cons_of_mem d hE)))
        (show (ds.flatMap Define.record).length < fuel by
          have hPos : 0 < d.record.length := by
            rw [Define.record, List.length_append, length_cons]
            omega
          rw [List.length_append] at hFuel
          omega) with
        ⟨s', t', hLoad, hHolds', hDefined, hOther⟩
      refine ⟨s', t', ?_, hHolds', ?_, ?_⟩
      · rw [loadLoop, readRecord_record hName hLength]
        simp only []
        rw [hDefine]
        exact hLoad
      · intro e hE
        rcases mem_cons.mp hE with hEq | hE
        · rw [hEq, hOther _ hNodup.1, hPlaced]
          rfl
        · exact hDefined e hE
      · grind

/- The macros of a table have names that fit and the defaults of
   the loader. -/
def Loaded (argd : Nat → Option CText) (t : PTree Define) : Prop :=
  ∀ n found, t.find Define.name n = some found → NameFits n ∧
    found.2.defaults = (List.range found.2.argc).map argd

theorem loadLoop_loaded {fuel : Nat} {src : List (Fin 256)} {s' : MacroState}
    (hHolds : s.Holds t) (hLoaded : Loaded argd t) (hZero : 0 ∉ src)
    (hLoad : loadLoop argd fuel s src = some s') : ∃ t', s'.Holds t' ∧ Loaded argd t' := by
  induction fuel generalizing s t src with
  | zero => cases hLoad
  | succ fuel ih =>
    rw [loadLoop] at hLoad
    rcases hRead : readRecord argd src with _ | _ | ⟨d, rest⟩
    · rw [hRead] at hLoad
      cases hLoad
    · grind
    · rcases readRecord_some hZero hRead with ⟨hFits, hMagic, hDefaults, hRest⟩
      rcases defineMacro_spec hHolds hMagic with ⟨s₁, hDefine, hHolds₁⟩
      rw [hRead] at hLoad
      simp only [] at hLoad
      rw [hDefine] at hLoad
      refine ih hHolds₁ ?_ hRest hLoad
      intro n found hFind
      rw [find_insert (takeValue_name d)] at hFind
      split_ifs at hFind with hName
      · rw [Option.some.injEq] at hFind
        rw [hName]
        refine ⟨hFits, ?_⟩
        rw [← hFind]
        cases hOld : t.find Define.name n with
        | none => exact hDefaults
        | some old => exact (hLoaded n old hOld).2
      · exact hLoaded n found hFind

----
-- The Round Trip
----

theorem tableOf_spec (hHolds : s.Holds t) (name : CText) :
    s.tableOf name = (t.find Define.name name).map Prod.snd := by
  unfold tableOf
  rw [← hHolds.root, defLookupInternal_spec hHolds.rep hHolds.size_le]
  cases hFind : t.find Define.name name with
  | none => rfl
  | some found =>
    rcases hHolds.rep.cell_of_find hFind with ⟨c, hCell, hData⟩
    simp only [map_some, bind_eq_bind, bind_some]
    rw [hCell, bind_some, hData]

/- A table round trips if and only if its names can be read back
   and the loader has its defaults. -/
theorem roundTrips_iff (hHolds : s.Holds t) (hLengths : ∀ d ∈ t.entries, d.name.1.length < 4095)
    (argd : Nat → Option CText) : s.RoundTrips argd ↔ s.Storable argd := by
  have hMem : ∀ n d, s.tableOf n = some d ↔
      d ∈ t.entries ∧ d.name = n := by
    intro n d
    rw [tableOf_spec hHolds, find_eq_some_iff hHolds.ordered]
  constructor
  · rintro ⟨bytes, s', hDump, hLoad, hSame⟩ n d hTable hPlain
    rw [dump_spec hHolds, Option.some.injEq] at hDump
    have hZero : 0 ∉ bytes := by
      rw [← hDump, List.mem_flatMap]
      rintro ⟨e, _, hE⟩
      exact zero_notMem_record e hE
    rcases loadLoop_loaded holds_start (fun _ _ h => nomatch h)
      hZero hLoad with
      ⟨t', hHolds', hLoaded⟩
    have hShown := hSame n
    rw [hTable, filter_some, decide_eq_true hPlain, tableOf_spec hHolds'] at hShown
    cases hFind : t'.find Define.name n with
    | none =>
      rw [hFind] at hShown
      cases hShown
    | some found =>
      rw [hFind] at hShown
      have hEq : shown found.2 = shown d := Option.some.inj hShown
      have hArgc : found.2.argc = d.argc := congrArg (fun p => p.2.1) hEq
      have hDefaults : found.2.defaults = d.defaults := congrArg (fun p => p.2.2) hEq
      rcases hLoaded n found hFind with ⟨hFits, hOwn⟩
      rw [hArgc, hDefaults] at hOwn
      exact ⟨hFits, hOwn⟩
  · intro hStorable
    have hIn : ∀ d, d ∈ t.preorder.filter (fun d => d.keyword = 0) ↔
        s.tableOf d.name = some d ∧ d.keyword = 0 := by
      intro d
      rw [List.mem_filter, (preorder_perm t).mem_iff, hMem, decide_eq_true_iff, and_iff_left rfl]
    have hNames : (t.preorder.map Define.name).Nodup := by
      rw [((preorder_perm t).map _).nodup_iff]
      exact List.pairwise_map.mpr (hHolds.ordered.imp ne_of_lt)
    rcases loadLoop_records
      (fun d hD => ⟨(hStorable d.name d ((hIn d).mp hD).1
        ((hIn d).mp hD).2).1, hLengths d ((hMem _ _).mp ((hIn d).mp hD).1).1⟩)
      (hNames.sublist (List.filter_sublist.map _)) holds_start
      (fun _ _ => rfl) (Nat.lt_succ_self _) with
      ⟨s', t', hLoad, hHolds', hDefined, hOther⟩
    refine ⟨_, s', dump_spec hHolds, hLoad, ?_⟩
    intro n
    rw [tableOf_spec hHolds']
    by_cases hFound : ∃ d, s.tableOf n = some d ∧ d.keyword = 0
    · rcases hFound with ⟨d, hTable, hPlain⟩
      have hName := ((hMem n d).mp hTable).2
      rw [hTable, filter_some, decide_eq_true hPlain, if_pos rfl,
        ← hName, hDefined d ((hIn d).mpr ⟨hName.symm ▸ hTable, hPlain⟩)]
      have hDefaults := (hStorable n d hTable hPlain).2
      rw [map_some, map_some, shown, shown, hDefaults]
      rfl
    · rw [hOther n, Option.filter_eq_none_iff.mpr]
      · rfl
      · grind
      · grind

/- A table of definitions is a search tree of their names. -/
theorem run_defines {ops : List MacroOp}
    (hDefines : ∀ op ∈ ops, op.defined.isSome ∧ op.name.1.length < 4095) :
    ∃ s t, run start ops = some s ∧ s.Holds t ∧
      ∀ d ∈ t.entries, d.name.1.length < 4095 := by
  induction ops using List.reverseRecOn with
  | nil => exact ⟨start, PTree.nil, rfl, holds_start, fun d hMem => nomatch hMem⟩
  | append_singleton ops op ih =>
    rcases ih fun o hMem => hDefines o
      (List.mem_append_left _ hMem) with
      ⟨s, t, hRun, hHolds, hLengths⟩
    have hLast := hDefines op (List.mem_append_right _ mem_cons_self)
    cases op with
    | undefine name => cases hLast.1
    | define name value keyword argc argd =>
      rcases defineMacro_spec hHolds
        (newDefine_magic name value keyword argc argd) with
        ⟨s', hStep, hHolds'⟩
      refine ⟨s', _, ?_, hHolds', ?_⟩
      · rw [run_concat, hRun]
        exact hStep
      · intro d hMem
        rcases key_of_mem_insert (takeValue_name _) hMem with hNew | ⟨e, hE, hOld⟩
        · rw [hNew]
          exact hLast.2
        · rw [hOld]
          exact hLengths e hE

/- A table that definitions have built round trips if and only
   if no name is empty or has a colon after its first byte, and
   the loader has the defaults of all macros. -/
theorem precompiled_exact (ops : List MacroOp)
    (hDefines : ∀ op ∈ ops, op.defined.isSome ∧ op.name.1.length < 4095)
    (argd : Nat → Option CText) :
    ∃ s, run start ops = some s ∧
      (s.RoundTrips argd ↔ s.Storable argd) := by
  rcases run_defines hDefines with ⟨s, t, hRun, hHolds, hLengths⟩
  exact ⟨s, hRun, roundTrips_iff hHolds hLengths argd⟩

/- `G(x = 5)` with its argument in parentheses. -/
def defaultMacro : List MacroOp :=
  [.define ⟨[71], by decide⟩ ⟨[40, 7, 1, 41], by decide⟩ 0 2 fun
    | 1 => some ⟨[53], by decide⟩
    | _ => none]

theorem precompiled_exact_default :
    ∃ s, run start defaultMacro = some s ∧
      ((s.RoundTrips fun _ => none) ↔ s.Storable fun _ => none) :=
  precompiled_exact defaultMacro (by decide) fun _ => none

/- The default is not in the file. -/
theorem default_lost :
    ∃ s, run start defaultMacro = some s ∧
      ¬ s.RoundTrips fun _ => none := by
  rcases @run_defines defaultMacro (by decide) with ⟨s, t, hRun, hHolds, hLengths⟩
  refine ⟨s, hRun, ?_⟩
  rw [roundTrips_iff hHolds hLengths]
  intro hStorable
  have hTable : (run start defaultMacro).bind
      (fun s => s.tableOf ⟨[71], by decide⟩) =
      some ⟨⟨[71], by decide⟩, ⟨[40, 7, 1, 41], by decide⟩, 0, 2,
        [none, some ⟨[53], by decide⟩], false⟩ := by
    decide +kernel
  rw [hRun] at hTable
  exact absurd (hStorable _ _ hTable rfl).2 (by decide)

end MacroState

end EpicSim
