import Mathlib.Data.List.GetD
import EpicSim.Ivlpp.MacroExpand

/-
  A use of a macro is its text with all arguments substituted at
  once, as long as no mark is taken for text or for another
  argument.
-/

namespace EpicSim

open List (replicate mem_cons_self length_cons mem_cons getElem_mem getElem?_cons_succ rdropWhile
  append_nil length_append length_replicate getD_eq_getElem getElem?_eq_getElem cons_append
  length_set)
open Words

----
-- What becomes of a word
----

/- A word, or marks and the number of the last argument that
   was put there. -/
inductive Piece where
| word (w : Bytes)
| marks (more : Nat) (k : Fin 256)

namespace Piece

def bytes : Piece → Bytes
| word w => w
| marks more k => replicate (more + 1) argMark ++ [k]

/- An argument takes the place of the word, or of the number
   where that is a name. -/
def step (name : Bytes) (arg : Fin 256) : Piece → Piece
| word w => if w = name then marks 0 arg else word w
| marks more k => if [k] = name then marks (more + 1) arg else marks more k

def steps : List Bytes → Nat → Piece → Piece
| [], _, q => q
| name :: names, arg, q => steps names (arg + 1) (q.step name (Fin.ofNat 256 arg))

/- The last number of the piece. -/
def endsWith (b : Fin 256) : Piece → Prop
| word _ => False
| marks _ k => k = b

/- The numbers are those of arguments so far; only a number
   that is a name has been marked again. -/
def Sound (arg : Nat) : Piece → Prop
| word w => IsWord isIdChar w
| marks more k => k.val < arg ∧ (more = 0 ∨ 36 ≤ k.val)

theorem le_of_isIdChar {c : Fin 256} (hC : isIdChar c = true) : 36 ≤ c.val := by
  unfold isIdChar isAlnum at hC
  simp only [Bool.or_eq_true, Bool.and_eq_true, decide_eq_true_eq] at hC
  omega

end Piece

theorem mapWords_marks {name : Bytes} (hName : name ≠ [])
    (hWord : IsWord isIdChar name) (arg k : Fin 256) (more : Nat) :
    mapWords isIdChar (markWord name arg) (replicate more argMark ++ [k]) =
      replicate more argMark ++
        if [k] = name then [argMark, arg] else [k] := by
  have hEmpty : markWord name arg [] = [] := if_neg (Ne.symm hName)
  have hNil : IsWord isIdChar [] := fun c hMem => nomatch hMem
  induction more with
  | zero =>
    change mapWords isIdChar (markWord name arg) [k] =
      if [k] = name then [argMark, arg] else [k]
    by_cases hK : isIdChar k = true
    · have hOne : IsWord isIdChar [k] := by
        intro c hMem
        rw [List.mem_singleton.mp hMem]
        exact hK
      rw [mapWords_word _ hOne]
      rfl
    · rw [Bool.not_eq_true] at hK
      have hNe : ¬ [k] = name := by
        rintro rfl
        rw [hWord k mem_cons_self] at hK
        cases hK
      have hSep := mapWords_sep (markWord name arg) hNil hK []
      rw [mapWords_word _ hNil, hEmpty] at hSep
      rw [if_neg hNe]
      exact hSep
  | succ more ih =>
    have hSep := mapWords_sep (markWord name arg) hNil
      (show isIdChar argMark = false by decide)
      (replicate more argMark ++ [k])
    rw [hEmpty, ih] at hSep
    exact hSep

namespace Piece

variable {q : Piece} {n arg : Nat}

theorem mapWords_bytes {name : Bytes} (hName : name ≠ [])
    (hWord : IsWord isIdChar name) (arg : Fin 256) (hSound : q.Sound n) :
    mapWords isIdChar (markWord name arg) q.bytes = (q.step name arg).bytes := by
  cases q with
  | word w =>
    rw [bytes, mapWords_word _ hSound, markWord, step]
    split_ifs
    · rfl
    · rfl
  | marks more k =>
    rw [bytes, mapWords_marks hName hWord, step]
    split_ifs
    · have hMore : replicate (more + 1 + 1) argMark = replicate (more + 1) argMark ++ [argMark] :=
        List.replicate_succ'
      rw [bytes, hMore, List.append_assoc]
      rfl
    · rfl

theorem Sound.step {name : Bytes} (hWord : IsWord isIdChar name)
    (hArg : arg < 256) (hSound : q.Sound arg) :
    (q.step name (Fin.ofNat 256 arg)).Sound (arg + 1) := by
  have hVal : (Fin.ofNat 256 arg).val = arg := Nat.mod_eq_of_lt hArg
  cases q with
  | word w =>
    rw [Piece.step]
    split_ifs
    · exact ⟨by rw [hVal]; exact Nat.lt_succ_self arg, Or.inl rfl⟩
    · exact hSound
  | marks more k =>
    rcases hSound with ⟨hK, hMore⟩
    rw [Piece.step]
    split_ifs with hName
    · refine ⟨by rw [hVal]; exact Nat.lt_succ_self arg, Or.inr ?_⟩
      have hId : isIdChar k = true := by
        apply hWord k
        rw [← hName]
        exact List.mem_singleton_self k
      have hLow := le_of_isIdChar hId
      omega
    · exact ⟨Nat.lt_succ_of_lt hK, hMore⟩

variable {names : List Bytes} {b : Fin 256}

theorem Sound.steps (hNames : ∀ n ∈ names, n ≠ [] ∧ IsWord isIdChar n)
    (hArg : arg + names.length ≤ 256) (hSound : q.Sound arg) :
    (steps names arg q).Sound (arg + names.length) ∧
      markAll names arg q.bytes = (steps names arg q).bytes := by
  induction names generalizing arg q with
  | nil => exact ⟨hSound, rfl⟩
  | cons name names ih =>
    rcases hNames name mem_cons_self with ⟨hName, hWord⟩
    rw [length_cons] at hArg
    have hNext := hSound.step hWord (by omega)
    rcases ih (fun n hMem => hNames n (List.mem_cons_of_mem _ hMem))
      (by omega) hNext with ⟨hLast, hBytes⟩
    refine ⟨?_, ?_⟩
    · rw [length_cons, Nat.add_comm names.length 1, ← Nat.add_assoc]
      exact hLast
    · rw [markAll, mapWords_bytes hName hWord _ hSound]
      exact hBytes

/- A word that is no argument is left. -/
theorem steps_word {w : Bytes} (hW : w ∉ names) (arg : Nat) :
    steps names arg (word w) = word w := by
  induction names generalizing arg with
  | nil => rfl
  | cons name names ih =>
    rw [mem_cons, not_or] at hW
    rw [steps, step, if_neg hW.1]
    exact ih hW.2 (arg + 1)

/- A number that is no name of a later argument is left. -/
theorem steps_marks {k : Fin 256} (hK : [k] ∉ names) (more arg : Nat) :
    steps names arg (marks more k) = marks more k := by
  induction names generalizing arg with
  | nil => rfl
  | cons name names ih =>
    rw [mem_cons, not_or] at hK
    rw [steps, step, if_neg hK.1]
    exact ih hK.2 (arg + 1)

/- A word that is an argument is marked with its number. -/
theorem steps_name (hNodup : names.Nodup) {i : Nat} (hI : i < names.length) (arg : Nat) :
    steps names arg (word names[i]) =
      steps (names.drop (i + 1)) (arg + i + 1) (marks 0 (Fin.ofNat 256 (arg + i))) := by
  induction names generalizing i arg with
  | nil => exact absurd hI (Nat.not_lt_zero i)
  | cons name names ih =>
    rw [List.nodup_cons] at hNodup
    cases i with
    | zero =>
      rw [steps, List.getElem_cons_zero, step, if_pos rfl]
      rfl
    | succ i =>
      have hI' : i < names.length := Nat.lt_of_succ_lt_succ hI
      have hNe : ¬ names[i] = name := by
        intro hEq
        exact hNodup.1 (hEq ▸ getElem_mem hI')
      rw [steps, List.getElem_cons_succ, step, if_neg hNe, ih hNodup.2 hI' (arg + 1)]
      grind

/- Later numbers are others. -/
theorem not_endsWith_steps (hB : b.val < arg) (hArg : arg + names.length ≤ 256)
    (hNot : ¬ q.endsWith b) : ¬ (steps names arg q).endsWith b := by
  induction names generalizing arg q with
  | nil => exact hNot
  | cons name names ih =>
    rw [length_cons] at hArg
    have hVal : (Fin.ofNat 256 arg).val = arg := Nat.mod_eq_of_lt (by omega)
    have hNew : Fin.ofNat 256 arg ≠ b := by omega
    apply ih (by omega) (by omega)
    cases q with
    | word w =>
      rw [step]
      split_ifs
      · exact hNew
      · exact hNot
    | marks more k =>
      rw [step]
      split_ifs
      · exact hNew
      · exact hNot

/- A number that is the name of a later argument is at the end
   of no piece. -/
theorem not_endsWith_of_name {j : Nat} (hName : names[j]? = some [b])
    (hB : b.val < arg + j) (hArg : arg + names.length ≤ 256) (q : Piece) :
    ¬ (steps names arg q).endsWith b := by
  induction names generalizing arg j q with
  | nil => cases hName
  | cons name names ih =>
    rw [length_cons] at hArg
    cases j with
    | succ j =>
      exact ih hName (by omega) (by omega) _
    | zero =>
      rw [List.getElem?_cons_zero, Option.some.injEq] at hName
      have hVal : (Fin.ofNat 256 arg).val = arg := Nat.mod_eq_of_lt (by omega)
      have hNew : Fin.ofNat 256 arg ≠ b := by
        intro hEq
        omega
      rw [steps]
      apply not_endsWith_steps (by omega) (by omega)
      cases q with
      | word w =>
        rw [step]
        split_ifs
        · exact hNew
        · exact id
      | marks more k =>
        rw [step, hName]
        split_ifs with hK
        · exact hNew
        · intro hEq
          exact hK (by rw [hEq])

/- A piece is expanded by itself. -/
theorem complete_bytes (hSound : q.Sound n) : Complete q.bytes := by
  have hMarks : ∀ (k : Fin 256), k ≠ argMark → ∀ more,
      Complete (replicate more argMark ++ [k]) := by
    intro k hK more
    induction more using Nat.twoStepInduction with
    | zero => exact complete_nil.cons hK
    | one => exact complete_nil.mark k
    | more more ih _ => exact ih.mark argMark
  cases q with
  | word w => exact complete_word hSound
  | marks more k =>
    rcases hSound.2 with hZero | hLow
    · rw [hZero]
      exact complete_nil.mark k
    · apply hMarks k
      rintro rfl
      exact absurd hLow (by decide)

/- What a piece is expanded to depends on two arguments. -/
theorem expandMarks_bytes_congr {use use' : Fin 256 → Option Bytes}
    (hSound : q.Sound n) (hSame : ∀ a, a ≠ b → use a = use' a)
    (hMark : argMark ≠ b) (hLast : ¬ q.endsWith b) :
    expandMarks use q.bytes = expandMarks use' q.bytes := by
  cases q with
  | word w => rw [bytes, expandMarks_word hSound, expandMarks_word hSound]
  | marks more k =>
    have hK : use k = use' k := hSame k hLast
    have hM : use argMark = use' argMark := hSame argMark hMark
    have hAll : ∀ more,
        expandMarks use (replicate more argMark ++ [k]) =
          expandMarks use' (replicate more argMark ++ [k]) := by
      intro more
      induction more using Nat.twoStepInduction with
      | zero =>
        by_cases hIs : k = argMark
        · rfl
        · rfl
      | one =>
        change expandMarks use [argMark, k] = expandMarks use' [argMark, k]
        rw [expandMarks_mark, hK]
        rfl
      | more more ih _ =>
        change expandMarks use (argMark :: argMark :: (replicate more argMark ++ [k])) =
          expandMarks use' (argMark :: argMark :: (replicate more argMark ++ [k]))
        rw [expandMarks_mark, expandMarks_mark, hM, ih]
    exact hAll (more + 1)

end Piece

----
-- Substitution
----

/- The formal arguments of a macro: distinct names, and a default
   for some of them. -/
structure Formals where
  names : List Bytes
  defaults : List (Option Bytes)
  sized : defaults.length = names.length
  nodup : names.Nodup
  count : names.length ≤ 255
  ids : ∀ n ∈ names, n ≠ [] ∧ IsWord isIdChar n

namespace Formals

/- The macro that `define_macro` makes of them: entry 0 is about
   its name. -/
def macroOf (f : Formals) (value : Bytes) : CurMacro where
  value := value
  defaults := none :: f.defaults

/- The actual of a formal, or its default where the actual is
   empty or missing. -/
def useOf (f : Formals) (actuals : List Bytes) (i : Nat) : Bytes :=
  if actuals.getD i [] = [] then (f.defaults.getD i none).getD []
  else actuals.getD i []

/- The text with every word that is a formal replaced. -/
def substituted (f : Formals) (actuals : List Bytes) (t : Bytes) : Bytes :=
  mapWords isIdChar (fun w => if w ∈ f.names then f.useOf actuals (f.names.idxOf w) else w) t

/- There are not too many actuals, and those that are missing
   have defaults. -/
def Enough (f : Formals) (actuals : List Bytes) : Prop :=
  actuals.length ≤ f.names.length ∧
    ∀ i, actuals.length ≤ i → i < f.names.length → (f.defaults.getD i none).isSome

/- The macro is stored, and every use of it is its text with the
   arguments substituted, or has too many or too few of them. -/
def ExpandsRight (f : Formals) (t : Bytes) : Prop :=
  ∃ value, doDefine [] f.names t = some (some value) ∧
    ∀ actuals b, b.Fits →
      (f.Enough actuals → ∃ b',
        expandUsingArgs (f.macroOf value) ([] :: actuals) b = some (some b') ∧
        b'.bytes = b.bytes ++ f.substituted actuals (rdropWhile isSpace t) ++ [0]) ∧
      (¬ f.Enough actuals → expandUsingArgs (f.macroOf value) ([] :: actuals) b = some none)

/- A formal that is used has a number that is a positive `char`,
   and is no name of a later formal. -/
def MarksReadBack (f : Formals) (t : Bytes) : Prop :=
  ∀ i name, f.names[i]? = some name → name ∈ wordsOf isIdChar t →
    i + 1 < 128 ∧ ∀ j, i < j → f.names[j]? ≠ some [Fin.ofNat 256 (i + 1)]

----
-- The arguments of a use
----

variable {m : CurMacro} {argv : List Bytes} {f : Formals}
  {actuals : List Bytes} {t : Bytes}

theorem fillArgs_enough {missing : Nat}
    (hSome : ∀ i, argv.length ≤ i → i < argv.length + missing →
      ∃ d, m.defaults[i]? = some (some d)) :
    fillArgs m missing argv = some (argv ++ replicate missing []) := by
  induction missing generalizing argv with
  | zero => rw [fillArgs, List.replicate_zero, append_nil]
  | succ missing ih =>
    rcases hSome argv.length (Nat.le_refl _) (by omega) with ⟨d, hD⟩
    rw [fillArgs, hD]
    have hRest := @ih (argv ++ [[]]) (by
      intro i hLow hHigh
      rw [length_append, List.length_singleton] at hLow hHigh
      exact hSome i (by omega) (by omega))
    rw [List.append_assoc] at hRest
    exact hRest

variable {i : Nat} {a : Fin 256}

theorem fillArgs_missing {missing : Nat} (hLow : argv.length ≤ i)
    (hHigh : i < argv.length + missing) (hNone : m.defaults[i]? = some none) :
    fillArgs m missing argv = none := by
  induction missing generalizing argv with
  | zero => exact absurd hHigh (by omega)
  | succ missing ih =>
    rw [fillArgs]
    by_cases hHere : i = argv.length
    · rw [← hHere, hNone]
    · grind

/- The table of actuals, filled up. -/
def argvOf (f : Formals) (actuals : List Bytes) : List Bytes :=
  [] :: actuals ++ replicate (f.names.length - actuals.length) []

theorem length_argvOf (hEnough : f.Enough actuals) :
    (f.argvOf actuals).length = f.names.length + 1 := by
  unfold argvOf
  rw [length_append, length_cons, length_replicate]
  have hLe := hEnough.1
  omega

theorem argc_macroOf (f : Formals) (value : Bytes) :
    (f.macroOf value).argc = f.names.length + 1 := by
  unfold CurMacro.argc macroOf
  rw [length_cons, f.sized]

/- With enough actuals the text is expanded. -/
theorem expandUsingArgs_enough (hEnough : f.Enough actuals) (value : Bytes) (b : ExpBuf) :
    expandUsingArgs (f.macroOf value) ([] :: actuals) b =
      (expandLoop (f.macroOf value) (f.argvOf actuals) [] value b).map
        some := by
  have hArgc := argc_macroOf f value
  have hLe := hEnough.1
  have hFill : fillArgs (f.macroOf value)
      ((f.macroOf value).argc - ([] :: actuals).length)
      ([] :: actuals) = some (f.argvOf actuals) := by
    rw [hArgc, length_cons, Nat.add_sub_add_right]
    apply fillArgs_enough
    intro i hLow hHigh
    rw [length_cons] at hLow hHigh
    rcases Nat.exists_eq_add_of_le' (show 1 ≤ i by omega) with ⟨k, hK⟩
    have hSome := hEnough.2 k (by omega) (by omega)
    have hIn : k < f.defaults.length := by
      rw [f.sized]
      omega
    rw [getD_eq_getElem _ _ hIn, Option.isSome_iff_exists] at hSome
    rcases hSome with ⟨d, hD⟩
    refine ⟨d, ?_⟩
    rw [hK]
    unfold macroOf
    rw [getElem?_cons_succ, getElem?_eq_getElem hIn, hD]
  unfold expandUsingArgs
  rw [if_neg (by rw [hArgc, length_cons]; omega), hFill]
  simp only
  rw [hArgc, if_pos (length_argvOf hEnough)]
  rfl

/- With too many or too few of them it is not. -/
theorem expandUsingArgs_not_enough (hNot : ¬ f.Enough actuals) (value : Bytes) (b : ExpBuf) :
    expandUsingArgs (f.macroOf value) ([] :: actuals) b = some none := by
  have hArgc := argc_macroOf f value
  unfold expandUsingArgs
  by_cases hLe : actuals.length ≤ f.names.length
  · rw [if_neg (by rw [hArgc, length_cons]; omega)]
    have hMissing : ∃ i, actuals.length ≤ i ∧ i < f.names.length ∧
        ¬ (f.defaults.getD i none).isSome := by
      by_contra hAll
      apply hNot
      refine ⟨hLe, ?_⟩
      grind
    rcases hMissing with ⟨i, hLow, hHigh, hNone⟩
    have hIn : i < f.defaults.length := by
      rw [f.sized]
      exact hHigh
    rw [getD_eq_getElem _ _ hIn, Option.not_isSome_iff_eq_none] at hNone
    have hEntry : (f.macroOf value).defaults[i + 1]? = some none := by
      unfold macroOf
      rw [getElem?_cons_succ, getElem?_eq_getElem hIn, hNone]
    rw [fillArgs_missing (by rw [length_cons]; omega) (by rw [length_cons]; omega) hEntry]
  · rw [if_pos (by rw [hArgc, length_cons]; omega)]

/- A mark stands for the argument of its number. -/
theorem lookupUse_argvOf (hEnough : f.Enough actuals) (value : Bytes) (hI : i < f.names.length)
    (hA : a.val = i + 1) (hChar : i + 1 < 128) :
    lookupUse (f.macroOf value) (f.argvOf actuals) a = some (f.useOf actuals i) := by
  have hValue : charValue a = ((i + 1 : Nat) : Int) := by
    unfold charValue
    rw [if_pos (by omega), hA]
  have hText : (f.argvOf actuals)[i + 1]? = some (actuals.getD i []) := by
    unfold argvOf
    grind
  have hIn : i < f.defaults.length := by
    rw [f.sized]
    exact hI
  have hDefault : (f.macroOf value).defaults[i + 1]? = some (f.defaults.getD i none) := by
    unfold macroOf
    rw [getElem?_cons_succ, getElem?_eq_getElem hIn, getD_eq_getElem _ _ hIn]
  unfold lookupUse useArg
  rw [hValue, length_argvOf hEnough, if_pos (by omega), if_pos (by omega), Int.toNat_natCast, hText]
  simp only [Option.bind_eq_bind, Option.bind_some]
  rw [hDefault, Option.bind_some]
  unfold useOf
  by_cases hEmpty : actuals.getD i [] = []
  · rw [if_pos (by rw [hEmpty]; rfl), if_pos hEmpty, hEmpty]
  · rw [if_neg (fun h => hEmpty (List.length_eq_zero_iff.mp h)), if_neg hEmpty]

/- A number from 128 on is a negative `char`. -/
theorem lookupUse_negative (hA : 128 ≤ a.val) : lookupUse m argv a = none := by
  have hNegative : ¬ 0 ≤ charValue a := by
    unfold charValue
    omega
  unfold lookupUse useArg
  split_ifs
  · rfl
  · rfl

----
-- Every use
----

/- What becomes of a word that is a formal. -/
theorem markAll_word (f : Formals) {w : Bytes} (hW : IsWord isIdChar w) :
    (Piece.steps f.names 1 (.word w)).Sound (1 + f.names.length) ∧
      markAll f.names 1 w = (Piece.steps f.names 1 (.word w)).bytes := by
  have hCount := f.count
  exact Piece.Sound.steps (q := .word w) f.ids (by omega) hW

theorem complete_markAll (f : Formals) {w : Bytes} (hW : IsWord isIdChar w) :
    Complete (markAll f.names 1 w) := by
  rcases markAll_word f hW with ⟨hSound, hBytes⟩
  rw [hBytes]
  exact Piece.complete_bytes hSound

/- A formal whose number is no name of a later one. -/
theorem markAll_name (f : Formals) (hI : i < f.names.length)
    (hLater : ∀ j, i < j → f.names[j]? ≠ some [Fin.ofNat 256 (i + 1)]) :
    markAll f.names 1 f.names[i] = [argMark, Fin.ofNat 256 (i + 1)] := by
  have hWord := (f.ids _ (getElem_mem hI)).2
  have hNot : [Fin.ofNat 256 (1 + i)] ∉ f.names.drop (i + 1) := by
    intro hMem
    rcases List.mem_iff_getElem?.mp hMem with ⟨k, hK⟩
    rw [List.getElem?_drop, Nat.add_comm 1 i] at hK
    exact hLater (i + 1 + k) (by omega) hK
  rw [(markAll_word f hWord).2, Piece.steps_name f.nodup hI,
    Piece.steps_marks hNot, Nat.add_comm 1 i]
  rfl

/- What `do_define` stores of a plain text. -/
def storedText (f : Formals) (t : Bytes) : Bytes :=
  mapWords isIdChar (markAll f.names 1) (rdropWhile isSpace t)

/- A text without comments that does not go on, and without
   marks. -/
structure PlainText (t : Bytes) : Prop where
  comment : NoComment t
  whole : (rdropWhile isSpace t).getLast? ≠ some 92
  mark : argMark ∉ t

theorem PlainText.mark_trimmed (hPlain : PlainText t) : argMark ∉ rdropWhile isSpace t :=
  fun h => hPlain.mark ((List.rdropWhile_prefix isSpace t).subset h)

theorem doDefine_plain (f : Formals) {t : Bytes} (hPlain : PlainText t) :
    doDefine [] f.names t = some (some (f.storedText t)) :=
  doDefine_spec f.ids hPlain.comment hPlain.whole hPlain.mark []

theorem expandsRight_of_marksReadBack (hPlain : PlainText t)
    (hBack : f.MarksReadBack (rdropWhile isSpace t)) : f.ExpandsRight t := by
  refine ⟨f.storedText t, f.doDefine_plain hPlain, ?_⟩
  intro actuals b hFits
  refine ⟨?_, fun hNot => expandUsingArgs_not_enough hNot _ b⟩
  intro hEnough
  rw [expandUsingArgs_enough hEnough]
  have hExpand : expandMarks
      (lookupUse (f.macroOf (f.storedText t)) (f.argvOf actuals))
      (f.storedText t) =
      some (f.substituted actuals (rdropWhile isSpace t)) := by
    apply expandMarks_mapWords hPlain.mark_trimmed
    intro w hMem
    have hW := isWord_of_mem_wordsOf hMem
    refine ⟨complete_markAll f hW, ?_⟩
    by_cases hName : w ∈ f.names
    · have hI : f.names.idxOf w < f.names.length :=
        List.idxOf_lt_length_of_mem hName
      have hGet : f.names[f.names.idxOf w] = w := List.getElem_idxOf hI
      rcases hBack (f.names.idxOf w) w
        (by rw [getElem?_eq_getElem hI, hGet]) hMem with
        ⟨hChar, hLater⟩
      have hMarked := markAll_name f hI hLater
      rw [hGet] at hMarked
      rw [hMarked, expandMarks_mark,
        lookupUse_argvOf hEnough _ hI (Nat.mod_eq_of_lt (by omega)) hChar, if_pos hName]
      simp only [expandMarks, Option.bind_some, Option.map_some, append_nil]
    · rw [(markAll_word f hW).2, Piece.steps_word hName, if_neg hName]
      exact expandMarks_word hW _
  have hLoop := expandLoop_spec (f.macroOf (f.storedText t))
    (f.argvOf actuals) (f.storedText t) [] hFits
  rw [hExpand] at hLoop
  rcases hLoop with ⟨b', hRun, hBytes⟩
  rw [append_nil] at hBytes
  exact ⟨b', by rw [hRun]; rfl, hBytes⟩

/- All actuals are one byte, but one of them may have two. -/
def sampleActuals (f : Formals) (more : Nat) (i : Nat) : List Bytes :=
  (replicate f.names.length [97]).set i (replicate (more + 1) 97)

theorem getD_sampleActuals (f : Formals) (more i j : Nat) :
    (f.sampleActuals more i).getD j [] =
      if j < f.names.length then
        if j = i then replicate (more + 1) 97 else [97]
      else [] := by
  unfold sampleActuals
  by_cases hJ : j < f.names.length
  · grind
  · rw [if_neg hJ, List.getD_eq_default _ _ (by rw [length_set, length_replicate]; omega)]

theorem enough_sampleActuals (f : Formals) (more i : Nat) : f.Enough (f.sampleActuals more i) := by
  have hLength : (f.sampleActuals more i).length = f.names.length := by
    unfold sampleActuals
    rw [length_set, length_replicate]
  refine ⟨Nat.le_of_eq hLength, ?_⟩
  intro j hLow hHigh
  omega

theorem length_useOf_sampleActuals (f : Formals) (more i : Nat) {j : Nat}
    (hJ : j < f.names.length) :
    (f.useOf (f.sampleActuals more i) j).length =
      if j = i then more + 1 else 1 := by
  unfold useOf
  rw [getD_sampleActuals, if_pos hJ]
  by_cases hSame : j = i
  · grind
  · rw [if_neg hSame, if_neg hSame]
    rfl

/- A longer actual makes a longer text. -/
theorem substituted_ne (f : Formals) {t : Bytes} (hI : i < f.names.length)
    (hMem : f.names[i] ∈ wordsOf isIdChar t) :
    f.substituted (f.sampleActuals 0 i) t ≠ f.substituted (f.sampleActuals 1 i) t := by
  have hUse : ∀ more w, w ∈ f.names →
      (f.useOf (f.sampleActuals more i) (f.names.idxOf w)).length =
        if f.names.idxOf w = i then more + 1 else 1 :=
    fun more w hW => f.length_useOf_sampleActuals more i (List.idxOf_lt_length_of_mem hW)
  have hLess : (f.substituted (f.sampleActuals 0 i) t).length <
      (f.substituted (f.sampleActuals 1 i) t).length := by
    apply length_mapWords_lt _ hMem
    · rw [if_pos (getElem_mem hI), if_pos (getElem_mem hI), hUse 0 _ (getElem_mem hI),
        hUse 1 _ (getElem_mem hI), f.nodup.idxOf_getElem i hI, if_pos rfl, if_pos rfl]
      decide
    · grind
  intro hSame
  rw [hSame] at hLess
  exact Nat.lt_irrefl _ hLess

/- What the marks are expanded to where the macro is right. -/
theorem expandMarks_of_expandsRight
    (hPlain : PlainText t) (hRight : f.ExpandsRight t) {actuals : List Bytes}
    (hEnough : f.Enough actuals) :
    expandMarks
        (lookupUse (f.macroOf (f.storedText t)) (f.argvOf actuals))
        (f.storedText t) =
      some (f.substituted actuals (rdropWhile isSpace t)) := by
  rcases hRight with ⟨value, hDefine, hUse⟩
  rw [f.doDefine_plain hPlain, Option.some.injEq, Option.some.injEq] at hDefine
  rw [← hDefine] at hUse
  rcases (hUse actuals ⟨[], 0, 0⟩ rfl).1 hEnough with ⟨b', hRun, hBytes⟩
  rw [expandUsingArgs_enough hEnough] at hRun
  have hLoop := expandLoop_spec (f.macroOf (f.storedText t))
    (f.argvOf actuals) (f.storedText t) []
    (show ExpBuf.Fits ⟨[], 0, 0⟩ from rfl)
  cases hMarks : expandMarks
      (lookupUse (f.macroOf (f.storedText t)) (f.argvOf actuals))
      (f.storedText t) with
  | none =>
    rw [hMarks] at hLoop
    rw [hLoop] at hRun
    cases hRun
  | some rest =>
    rw [hMarks] at hLoop
    rcases hLoop with ⟨b'', hLoop, hBytes'⟩
    rw [hLoop, Option.map_some, Option.some.injEq, Option.some.injEq] at hRun
    rw [← hRun, hBytes'] at hBytes
    simp only [List.nil_append] at hBytes
    rw [List.append_cancel_right hBytes]

/- The tables of two uses differ in one argument. -/
theorem lookupUse_sampleActuals (f : Formals) (m : CurMacro)
    (hA : a ≠ Fin.ofNat 256 (i + 1)) :
    lookupUse m (f.argvOf (f.sampleActuals 0 i)) a =
      lookupUse m (f.argvOf (f.sampleActuals 1 i)) a := by
  have hLength : (f.argvOf (f.sampleActuals 0 i)).length =
      (f.argvOf (f.sampleActuals 1 i)).length := by
    rw [length_argvOf (f.enough_sampleActuals 0 i), length_argvOf (f.enough_sampleActuals 1 i)]
  have hEntry : charValue a < 0 ∨
      (f.argvOf (f.sampleActuals 0 i))[(charValue a).toNat]? =
        (f.argvOf (f.sampleActuals 1 i))[(charValue a).toNat]? := by
    unfold charValue
    by_cases hChar : a.val < 128
    · right
      rw [if_pos hChar, Int.toNat_natCast]
      have hNe : a.val ≠ i + 1 := by grind
      cases hVal : a.val with
      | zero => rfl
      | succ k =>
        have hK : i ≠ k := by omega
        unfold argvOf sampleActuals
        rw [cons_append, cons_append, getElem?_cons_succ,
          getElem?_cons_succ]
        by_cases hIn : k < f.names.length
        · grind
        · grind
    · left
      omega
  unfold lookupUse useArg
  rw [hLength]
  rcases hEntry with hNegative | hEntry
  · grind
  · rw [hEntry]

theorem marksReadBack_of_expandsRight (hPlain : PlainText t) (hRight : f.ExpandsRight t) :
    f.MarksReadBack (rdropWhile isSpace t) := by
  have hCount := f.count
  intro i name hName hMem
  rcases List.getElem?_eq_some_iff.mp hName with ⟨hI, hGet⟩
  have hVal : (Fin.ofNat 256 (i + 1)).val = i + 1 := Nat.mod_eq_of_lt (by omega)
  have hComplete : ∀ w ∈ wordsOf isIdChar (rdropWhile isSpace t),
      Complete (markAll f.names 1 w) :=
    fun w hW => complete_markAll f (isWord_of_mem_wordsOf hW)
  rw [← hGet] at hMem
  have hLater : ∀ j, i < j →
      f.names[j]? ≠ some [Fin.ofNat 256 (i + 1)] := by
    intro j hJ hNext
    -- The number of the argument is never read, so a longer
    -- actual makes no longer text.
    have hId : isIdChar (Fin.ofNat 256 (i + 1)) = true :=
      (f.ids _ (List.mem_of_getElem? hNext)).2 _ mem_cons_self
    have hSame : expandMarks
        (lookupUse (f.macroOf (f.storedText t)) (f.argvOf (f.sampleActuals 0 i))) (f.storedText t) =
        expandMarks
          (lookupUse (f.macroOf (f.storedText t))
            (f.argvOf (f.sampleActuals 1 i))) (f.storedText t) := by
      apply expandMarks_congr hPlain.mark_trimmed
      intro w hW
      have hWord := isWord_of_mem_wordsOf hW
      refine ⟨hComplete w hW, ?_⟩
      rcases markAll_word f hWord with ⟨hSound, hBytes⟩
      rw [hBytes]
      apply Piece.expandMarks_bytes_congr hSound
        (fun a hA => f.lookupUse_sampleActuals _ hA)
        (Ne.symm (ne_mark_of_isIdChar hId))
      exact Piece.not_endsWith_of_name hNext (by rw [hVal]; omega) (by omega) _
    rw [expandMarks_of_expandsRight hPlain hRight (f.enough_sampleActuals 0 i),
        expandMarks_of_expandsRight hPlain hRight (f.enough_sampleActuals 1 i),
        Option.some.injEq] at hSame
    exact f.substituted_ne hI hMem hSame
  refine ⟨?_, hLater⟩
  by_contra hLarge
  have hEnough := f.enough_sampleActuals 0 i
  have hSome := expandMarks_of_expandsRight hPlain hRight hEnough
  have hUnread : expandMarks
      (lookupUse (f.macroOf (f.storedText t)) (f.argvOf (f.sampleActuals 0 i)))
      (markAll f.names 1 f.names[i]) = none := by
    rw [markAll_name f hI hLater, expandMarks_mark, lookupUse_negative (by rw [hVal]; omega)]
    rfl
  have hNone : expandMarks
      (lookupUse (f.macroOf (f.storedText t))
        (f.argvOf (f.sampleActuals 0 i))) (f.storedText t) = none :=
    expandMarks_none hPlain.mark_trimmed hComplete hMem hUnread
  rw [hNone] at hSome
  cases hSome

/- Every use of a macro with a plain text is that text with all
   arguments substituted at once, if and only if every argument
   in it has a number that reads back as its own. -/
theorem expansion_exact (f : Formals) (t : Bytes) (hPlain : PlainText t) :
    f.ExpandsRight t ↔
      f.MarksReadBack (rdropWhile isSpace t) := by
  constructor
  · exact marksReadBack_of_expandsRight hPlain
  · exact expandsRight_of_marksReadBack hPlain

/- `M(a, b)` with a default for `b`. -/
def twoFormals : Formals where
  names := [[97], [98]]
  defaults := [none, some [49]]
  sized := rfl
  nodup := by decide
  count := by decide
  ids := by decide

/- The text `a+b`. -/
theorem expansion_exact_sum : twoFormals.ExpandsRight [97, 43, 98] := by
  apply (expansion_exact twoFormals [97, 43, 98]
    ⟨noComment_of_not_mem (by decide), by decide, by decide⟩).mpr
  intro i name hName _
  have hI := (List.getElem?_eq_some_iff.mp hName).1
  have hTwo : i < 2 := hI
  refine ⟨by omega, ?_⟩
  intro j _ hNext
  have hMem := List.mem_of_getElem? hNext
  have hCases : i = 0 ∨ i = 1 := by omega
  rcases hCases with hZero | hOne
  · rw [hZero] at hMem
    exact absurd hMem (by decide)
  · rw [hOne] at hMem
    exact absurd hMem (by decide)

/- The arguments `p00` to `p64`, and `A`. -/
def manyFormals : Formals where
  names := (List.range 65).map (fun i =>
    [112, Fin.ofNat 256 (48 + i / 10), Fin.ofNat 256 (48 + i % 10)]) ++ [[65]]
  defaults := replicate 66 none
  sized := by decide
  nodup := by decide
  count := by decide
  ids := by decide

/- The number 65 of `p64` is taken for `A`. -/
theorem mark_is_taken_for_name : ¬ manyFormals.ExpandsRight [112, 54, 52] := by
  rintro ⟨value, hDefine, hUse⟩
  have hStored : doDefine [] manyFormals.names [112, 54, 52] =
      some (some [7, 7, 66]) := by decide
  rw [hStored, Option.some.injEq, Option.some.injEq] at hDefine
  rw [← hDefine] at hUse
  have hEnough : manyFormals.Enough (replicate 66 [97]) := by
    refine ⟨by decide, ?_⟩
    intro i hLow hHigh
    have hLow' : 66 ≤ i := hLow
    have hHigh' : i < 66 := hHigh
    omega
  rcases (hUse (replicate 66 [97]) ⟨[], 0, 0⟩ rfl).1 hEnough with ⟨b', hRun, hBytes⟩
  have hBuilt : expandUsingArgs (manyFormals.macroOf [7, 7, 66])
      ([] :: replicate 66 [97]) ⟨[], 0, 0⟩ =
      some (some ⟨[97, 66, 0], 256, 253⟩) := by decide
  have hText : manyFormals.substituted (replicate 66 [97])
      (rdropWhile isSpace [112, 54, 52]) = [97] := by decide
  rw [hBuilt, Option.some.injEq, Option.some.injEq] at hRun
  rw [← hRun] at hBytes
  exact absurd hBytes (by decide)

end Formals

end EpicSim
