import EpicSim.Ivlpp.MacroText

/-
  What `do_define` stores: every word that is an argument is a
  mark with its number, as far as later arguments leave it.
-/

namespace EpicSim

open List (drop_drop length_drop length_append drop_left length_cons append_assoc rdropWhile)
open Words

----
-- Where an argument stands
----

/- The string has the argument at a place, as a whole word. -/
def Stands (s arg : Bytes) (q : Nat) : Prop :=
  arg <+: s.drop q ∧ (q ≠ 0 → isIdAt s (q - 1) = false) ∧ isIdAt s (q + arg.length) = false

/- The first place from `ptr` on, or none. -/
def IsFirst (s arg : Bytes) (ptr : Nat) : Option Nat → Prop
| none => ∀ q, ptr ≤ q → ¬ Stands s arg q
| some cp => ptr ≤ cp ∧ Stands s arg cp ∧
    ∀ q, ptr ≤ q → q < cp → ¬ Stands s arg q

variable {s arg : Bytes}

variable {ptr n : Nat} {s t w rest name : Bytes} {d : DefineText}

theorem IsFirst.unique {r r' : Option Nat} (h : IsFirst s arg ptr r)
    (h' : IsFirst s arg ptr r') : r = r' := by
  cases r with
  | none =>
    cases r' with
    | none => rfl
    | some cp' => exact absurd h'.2.1 (h cp' h'.1)
  | some cp =>
    cases r' with
    | none => exact absurd h.2.1 (h' cp h.1)
    | some cp' =>
      rcases Nat.lt_trichotomy cp cp' with hLt | hEq | hGt
      · exact absurd h.2.1 (h'.2.2 cp h.1 hLt)
      · rw [hEq]
      · exact absurd h'.2.1 (h.2.2 cp' h'.1 hGt)

/- Places without the argument can be left out. -/
theorem IsFirst.skip {ptr' : Nat} {r : Option Nat} (hLe : ptr ≤ ptr')
    (hNone : ∀ q, ptr ≤ q → q < ptr' → ¬ Stands s arg q) (h : IsFirst s arg ptr' r) :
    IsFirst s arg ptr r := by
  cases r with
  | none =>
    intro q hQ
    by_cases hLt : q < ptr'
    · exact hNone q hQ hLt
    · exact h q (by omega)
  | some cp =>
    refine ⟨Nat.le_trans hLe h.1, h.2.1, ?_⟩
    intro q hQ hBefore
    by_cases hLt : q < ptr'
    · exact hNone q hQ hLt
    · exact h.2.2 q (by omega) hBefore

/- Where a string is first found. -/
theorem strstr_spec (arg s : Bytes) :
    match strstr arg s with
    | none => ∀ k, ¬ arg <+: s.drop k
    | some k => arg <+: s.drop k ∧ ∀ j, j < k → ¬ arg <+: s.drop j := by
  induction s with
  | nil =>
    rw [strstr]
    grind
  | cons c s ih =>
    rw [strstr]
    by_cases hHere : arg.isPrefixOf (c :: s) = true
    · grind
    · rw [if_neg hHere]
      have hNot : ¬ arg <+: c :: s := fun h => hHere (List.isPrefixOf_iff_prefix.mpr h)
      cases hRest : strstr arg s with
      | none =>
        rw [hRest] at ih
        intro k
        cases k with
        | zero => exact hNot
        | succ k => exact ih k
      | some k =>
        rw [hRest] at ih
        refine ⟨ih.1, ?_⟩
        intro j hJ
        cases j with
        | zero => exact hNot
        | succ j => exact ih.2 j (Nat.lt_of_succ_lt_succ hJ)

/- One turn of the loop of `find_arg`. -/
theorem findArg_step {found : Nat} (hAt : strstr arg (s.drop ptr) = some found) (fuel : Nat) :
    findArg s arg (fuel + 1) ptr =
      if ((ptr + found ≠ 0 && isIdAt s (ptr + found - 1)) ||
          isIdAt s (ptr + found + arg.length)) = true then
        findArg s arg fuel (ptr + found + 1)
      else some (some (ptr + found)) := by
  rw [findArg, hAt]

/- `find_arg` finds the first place. -/
theorem findArg_spec (hArg : arg ≠ []) {fuel : Nat} (hFuel : s.length + 1 ≤ ptr + fuel)
    (hSome : 0 < fuel) : ∃ r, findArg s arg fuel ptr = some r ∧ IsFirst s arg ptr r := by
  induction fuel generalizing ptr with
  | zero => exact absurd hSome (Nat.lt_irrefl 0)
  | succ fuel ih =>
    have hFound := strstr_spec arg (s.drop ptr)
    cases hAt : strstr arg (s.drop ptr) with
    | none =>
      rw [hAt] at hFound
      refine ⟨none, by rw [findArg, hAt], ?_⟩
      intro q hQ hStands
      have hNot := hFound (q - ptr)
      rw [drop_drop, Nat.add_sub_cancel' hQ] at hNot
      exact hNot hStands.1
    | some found =>
      rw [hAt] at hFound
      have hHere : arg <+: s.drop (ptr + found) := by
        rw [← drop_drop]
        exact hFound.1
      have hBefore : ∀ q, ptr ≤ q → q < ptr + found →
          ¬ Stands s arg q := by
        intro q hQ hLt hStands
        have hNot := hFound.2 (q - ptr) (by omega)
        rw [drop_drop, Nat.add_sub_cancel' hQ] at hNot
        exact hNot hStands.1
      have hInside : ptr + found < s.length := by
        have hLength := hHere.length_le
        rw [length_drop] at hLength
        have hPos := List.length_pos_iff.mpr hArg
        omega
      rw [findArg_step hAt]
      by_cases hEdge : ((ptr + found ≠ 0 &&
          isIdAt s (ptr + found - 1)) ||
          isIdAt s (ptr + found + arg.length)) = true
      · rw [if_pos hEdge]
        have hMore : s.length + 1 ≤ ptr + found + 1 + fuel := by omega
        rcases ih hMore (by omega) with ⟨r, hRest, hFirst⟩
        refine ⟨r, hRest, hFirst.skip (by omega) ?_⟩
        intro q hQ hLt hStands
        by_cases hSame : q = ptr + found
        · rw [hSame] at hStands
          rcases hStands with ⟨_, hLeft, hRight⟩
          grind
        · exact hBefore q hQ (by omega) hStands
      · rw [if_neg hEdge]
        rw [Bool.or_eq_true, not_or, Bool.and_eq_true, Bool.not_eq_true] at hEdge
        refine ⟨some (ptr + found), rfl, by omega, ⟨hHere, ?_, hEdge.2⟩, hBefore⟩
        grind

----
-- Words
----

/- The text ends with a character that belongs to no word, or
   there is none. -/
def EndsApart (s : Bytes) : Prop :=
  s.length ≠ 0 → isIdAt s (s.length - 1) = false

theorem isIdAt_append_left (hN : n < s.length) :
    isIdAt (s ++ t) n = isIdAt s n := by
  unfold isIdAt
  rw [List.getElem?_append_left hN]

theorem isIdAt_append_right (s t : Bytes) (n : Nat) :
    isIdAt (s ++ t) (s.length + n) = isIdAt t n := by
  unfold isIdAt
  rw [List.getElem?_append_right (Nat.le_add_right _ _), Nat.add_sub_cancel_left]

theorem isIdAt_word (hW : IsWord isIdChar w) (hN : n < w.length) :
    isIdAt w n = true := by
  unfold isIdAt
  rw [List.getElem?_eq_getElem hN]
  exact hW _ (List.getElem_mem hN)

theorem isIdAt_beyond (hN : s.length ≤ n) : isIdAt s n = false := by
  unfold isIdAt
  rw [List.getElem?_eq_none hN]
  rfl

/- What follows a word. -/
def StartsApart (s : Bytes) : Prop := isIdAt s 0 = false

theorem endsApart_concat (s : Bytes) {c : Fin 256} (hC : isIdChar c = false) :
    EndsApart (s ++ [c]) := by
  intro _
  rw [length_append, List.length_singleton, Nat.add_sub_cancel]
  have hLast := isIdAt_append_right s [c] 0
  rw [Nat.add_zero] at hLast
  rw [hLast]
  exact hC

/- An argument does not start where no word does. -/
theorem not_stands_apart {q : Nat} (hArg : arg ≠ []) (hWord : IsWord isIdChar arg)
    (hApart : isIdAt s q = false) : ¬ Stands s arg q := by
  rintro ⟨⟨t, hDrop⟩, _, _⟩
  have hPos := List.length_pos_iff.mpr hArg
  have hId : isIdAt (arg ++ t) 0 = true := by
    rw [isIdAt_append_left hPos]
    exact isIdAt_word hWord hPos
  rw [hDrop] at hId
  unfold isIdAt at hId hApart
  rw [List.getElem?_drop, Nat.add_zero, hApart] at hId
  cases hId

/- An argument that starts with a word is that word. -/
theorem eq_of_prefix_word {arg : Bytes} (hW : IsWord isIdChar w)
    (hRest : StartsApart rest) (hWord : IsWord isIdChar arg) (hPrefix : arg <+: w ++ rest)
    (hEnd : isIdAt (w ++ rest) arg.length = false) : w = arg := by
  rcases Nat.lt_trichotomy arg.length w.length with hLt | hEq | hGt
  · rw [isIdAt_append_left hLt, isIdAt_word hW hLt] at hEnd
    cases hEnd
  · have hInto : arg <+: w :=
      List.prefix_of_prefix_length_le hPrefix (List.prefix_append w rest) (Nat.le_of_eq hEq)
    exact (hInto.eq_of_length hEq).symm
  · rcases hPrefix with ⟨t, hSame⟩
    have hId : isIdAt (arg ++ t) (w.length + 0) = true := by
      rw [Nat.add_zero, isIdAt_append_left hGt]
      exact isIdAt_word hWord hGt
    rw [hSame, isIdAt_append_right, hRest] at hId
    cases hId

/- In a word that is not the argument it stands nowhere. -/
theorem not_stands_word {before arg : Bytes} (hW : IsWord isIdChar w)
    (hRest : StartsApart rest) (hArg : arg ≠ [])
    (hWord : IsWord isIdChar arg) {q : Nat} (hLow : before.length ≤ q)
    (hHigh : q ≤ before.length + w.length) (hNe : q ≠ before.length ∨ w ≠ arg) :
    ¬ Stands (before ++ (w ++ rest)) arg q := by
  rcases Nat.exists_eq_add_of_le hLow with ⟨k, hQ⟩
  rw [hQ]
  have hK : k ≤ w.length := by omega
  rcases Nat.lt_or_eq_of_le hK with hLt | hEq
  · rintro ⟨hPrefix, hLeft, hEnd⟩
    by_cases hZero : k = 0
    · rw [hZero, Nat.add_zero, drop_left] at hPrefix
      rw [hZero, Nat.add_zero, isIdAt_append_right] at hEnd
      have hSame := eq_of_prefix_word hW hRest hWord hPrefix hEnd
      exact absurd hSame (hNe.resolve_left (by omega))
    · have hBack : before.length + k - 1 =
          before.length + (k - 1) := by omega
      have hId := hLeft (by omega)
      rw [hBack, isIdAt_append_right, isIdAt_append_left (by omega),
        isIdAt_word hW (by omega)] at hId
      cases hId
  · apply not_stands_apart hArg hWord
    rw [isIdAt_append_right, hEq]
    have hStart := isIdAt_append_right w rest 0
    rw [Nat.add_zero] at hStart
    rw [hStart]
    exact hRest

/- A word stands where it is. -/
theorem stands_word {before : Bytes} (hBefore : EndsApart before)
    (hRest : StartsApart rest) : Stands (before ++ (w ++ rest)) w before.length := by
  refine ⟨?_, ?_, ?_⟩
  · rw [drop_left]
    exact List.prefix_append w rest
  · intro hNe
    rw [isIdAt_append_left (by omega)]
    exact hBefore hNe
  · rw [isIdAt_append_right]
    have hStart := isIdAt_append_right w rest 0
    rw [Nat.add_zero] at hStart
    rw [hStart]
    exact hRest

----
-- One replacement
----

namespace DefineText

/- The numbers agree with the text, which fits into what is
   allocated. -/
structure Kept (d : DefineText) : Prop where
  tail : d.tail = d.line.length
  allocated : d.allocated = d.defineCnt + 1
  count : d.defineCnt + d.addedCnt = d.before.length + d.line.length
  added : d.addedCnt ≤ 0

theorem replace_spec {d : DefineText} (hKept : d.Kept) {cp argl : Nat}
    (hInside : cp + argl ≤ d.line.length) (arg : Fin 256) :
    ∃ d', d.replace cp argl arg = some d' ∧ d'.Kept ∧
      d'.before = d.before ∧
      d'.line = d.line.take cp ++ argMark :: arg :: d.line.drop (cp + argl) := by
  rcases hKept with ⟨hTail, hAllocated, hCount, hAdded⟩
  have hRest : (d.line.drop (cp + argl)).take
      (d.line.length - (cp + argl)) = d.line.drop (cp + argl) := by
    apply List.take_of_length_le
    rw [length_drop]
  have hLength : (d.line.take cp ++ argMark :: arg ::
      d.line.drop (cp + argl)).length + argl = d.line.length + 2 := by grind
  unfold replace grow
  by_cases hGrow : 0 < d.addedCnt + (2 - argl)
  · simp only [if_pos hGrow, hTail]
    rw [if_pos ⟨hInside, by omega⟩, hRest]
    refine ⟨_, rfl, ⟨?_, rfl, ?_, Int.le_refl 0⟩, rfl, rfl⟩
    · simp only
      omega
    · simp only
      omega
  · simp only [if_neg hGrow, hTail]
    rw [if_pos ⟨hInside, by omega⟩, hRest]
    refine ⟨_, rfl, ⟨?_, hAllocated, ?_, ?_⟩, rfl, rfl⟩
    · simp only
      omega
    · simp only
      omega
    · simp only
      omega

end DefineText

/- What the loop makes of a word. -/
def markWord (name : Bytes) (arg : Fin 256) (w : Bytes) : Bytes :=
  if w = name then [argMark, arg] else w

/- Places without the argument do not matter to the loop. -/
theorem replaceLoop_skip (hName : name ≠ [])
    {ptr' : Nat} (hLe : ptr ≤ ptr')
    (hNone : ∀ q, ptr ≤ q → q < ptr' → ¬ Stands d.line name q) (arg : Fin 256) (fuel : Nat) :
    replaceLoop name arg fuel ptr d = replaceLoop name arg fuel ptr' d := by
  cases fuel with
  | zero => rfl
  | succ fuel =>
    have hPos : 0 < d.line.length + 1 := Nat.succ_pos _
    rcases findArg_spec hName
      (Nat.le_add_left (d.line.length + 1) ptr) hPos with
      ⟨r, hFind, hFirst⟩
    rcases findArg_spec hName
      (Nat.le_add_left (d.line.length + 1) ptr') hPos with
      ⟨r', hFind', hFirst'⟩
    have hSame : r = r' := hFirst.unique (hFirst'.skip hLe hNone)
    rw [replaceLoop, replaceLoop, hFind, hFind', hSame]

/- Nothing is left to do where the argument stands nowhere. -/
theorem replaceLoop_done (hName : name ≠ []) (hNone : ∀ q, ptr ≤ q → ¬ Stands d.line name q)
    (arg : Fin 256) (fuel : Nat) :
    replaceLoop name arg (fuel + 1) ptr d = some d := by
  have hPos : 0 < d.line.length + 1 := Nat.succ_pos _
  rcases findArg_spec hName
    (Nat.le_add_left (d.line.length + 1) ptr) hPos with
    ⟨r, hFind, hFirst⟩
  have hSame : r = none := hFirst.unique (show IsFirst d.line name ptr none from hNone)
  rw [replaceLoop, hFind, hSame]
  rfl

/- The argument is replaced where it stands. -/
theorem replaceLoop_here (hName : name ≠ [])
    (hKept : d.Kept) (hStands : Stands d.line name ptr) (arg : Fin 256) (fuel : Nat) :
    ∃ d', d'.Kept ∧ d'.before = d.before ∧
      d'.line = d.line.take ptr ++ argMark :: arg :: d.line.drop (ptr + name.length) ∧
      replaceLoop name arg (fuel + 1) ptr d = replaceLoop name arg fuel (ptr + 2) d' := by
  have hPos : 0 < d.line.length + 1 := Nat.succ_pos _
  rcases findArg_spec hName
    (Nat.le_add_left (d.line.length + 1) ptr) hPos with
    ⟨r, hFind, hFirst⟩
  have hSame : r = some ptr :=
    hFirst.unique (show IsFirst d.line name ptr (some ptr) from
      ⟨Nat.le_refl ptr, hStands, fun q hLow hHigh => absurd hHigh (Nat.not_lt.mpr hLow)⟩)
  have hInside : ptr + name.length ≤ d.line.length := by
    have hLength := hStands.1.length_le
    have hNonempty := List.length_pos_iff.mpr hName
    rw [length_drop] at hLength
    omega
  rcases DefineText.replace_spec hKept hInside arg with ⟨d', hReplace, hKept', hBefore, hLine⟩
  refine ⟨d', hKept', hBefore, hLine, ?_⟩
  rw [replaceLoop, hFind, hSame]
  simp only [Option.bind_eq_bind, Option.bind_some]
  rw [hReplace, Option.bind_some]

----
-- All places of an argument
----

/- The loop marks the words that are the argument. -/
theorem replaceLoop_spec (hName : name ≠ [])
    (hWord : IsWord isIdChar name) (arg : Fin 256) (rest : Bytes) :
    ∀ (pre : Bytes) (d : DefineText) (fuel : Nat),
      d.Kept → d.line = pre ++ rest → EndsApart pre →
      rest.length + 1 < fuel →
      ∃ d', replaceLoop name arg fuel pre.length d = some d' ∧
        d'.Kept ∧ d'.before = d.before ∧
        d'.line = pre ++ mapWords isIdChar (markWord name arg) rest := by
  induction rest using Words.induction (p := isIdChar) with
  | word w hW =>
    intro pre d fuel hKept hLine hPre hFuel
    rcases Nat.exists_eq_add_of_le' (show 2 ≤ fuel by omega) with ⟨k, hK⟩
    have hLine' : d.line = pre ++ (w ++ []) := by rw [hLine, List.append_nil]
    rw [mapWords_word _ hW, markWord, hK]
    by_cases hSame : w = name
    · rw [if_pos hSame]
      have hStands : Stands d.line name pre.length := by
        rw [hLine', ← hSame]
        exact stands_word hPre rfl
      rcases replaceLoop_here hName hKept hStands arg (k + 1) with
        ⟨d', hKept', hBefore, hNew, hLoop⟩
      have hText : d'.line = pre ++ [argMark, arg] := by
        rw [hNew, hLine, ← hSame, List.take_left, ← length_append, List.drop_length]
      refine ⟨d', ?_, hKept', hBefore, hText⟩
      rw [hLoop]
      apply replaceLoop_done hName
      intro q hQ
      apply not_stands_apart hName hWord
      apply isIdAt_beyond
      rw [hText, length_append]
      exact hQ
    · rw [if_neg hSame]
      refine ⟨d, ?_, hKept, rfl, hLine⟩
      apply replaceLoop_done hName
      intro q hQ
      by_cases hIn : q ≤ pre.length + w.length
      · rw [hLine']
        exact not_stands_word hW (show StartsApart [] from rfl) hName hWord hQ hIn (Or.inr hSame)
      · apply not_stands_apart hName hWord
        apply isIdAt_beyond
        rw [hLine, length_append]
        omega
  | sep w c s hW hC ih =>
    intro pre d fuel hKept hLine hPre hFuel
    rw [length_append, length_cons] at hFuel
    have hApart : StartsApart (c :: s) := hC
    rw [mapWords_sep _ hW hC, markWord]
    by_cases hSame : w = name
    · rw [if_pos hSame]
      rcases Nat.exists_eq_add_of_le' (show 1 ≤ fuel by omega) with ⟨k, hK⟩
      have hStands : Stands d.line name pre.length := by
        rw [hLine, ← hSame]
        exact stands_word hPre hApart
      rcases replaceLoop_here hName hKept hStands arg k with ⟨d', hKept', hBefore, hNew, hLoop⟩
      have hText : d'.line = (pre ++ [argMark, arg, c]) ++ s := by grind
      have hPre' : EndsApart (pre ++ [argMark, arg, c]) := by
        have hEnds := endsApart_concat (pre ++ [argMark, arg]) hC
        rw [append_assoc] at hEnds
        exact hEnds
      rcases ih (pre ++ [argMark, arg, c]) d' k hKept' hText hPre'
        (by omega) with ⟨d'', hRest, hKept'', hBefore', hLine''⟩
      refine ⟨d'', ?_, hKept'', hBefore'.trans hBefore, ?_⟩
      · rw [hK, hLoop, ← hRest]
        apply replaceLoop_skip hName
        · rw [length_append]
          exact Nat.le_succ _
        · intro q hLow hHigh
          apply not_stands_apart hName hWord
          have hQ : q = (pre ++ [argMark, arg]).length + 0 := by grind
          have hSplit : d'.line = (pre ++ [argMark, arg]) ++ (c :: s) := by
            rw [hText, append_assoc, append_assoc]
            rfl
          rw [hQ, hSplit, isIdAt_append_right]
          exact hC
      · rw [hLine'', append_assoc]
        rfl
    · rw [if_neg hSame]
      have hText : d.line = (pre ++ w ++ [c]) ++ s := by
        rw [hLine, append_assoc, append_assoc]
        rfl
      rcases ih (pre ++ w ++ [c]) d fuel hKept hText
        (endsApart_concat (pre ++ w) hC) (by omega) with
        ⟨d', hRest, hKept', hBefore, hLine'⟩
      refine ⟨d', ?_, hKept', hBefore, ?_⟩
      · rw [← hRest]
        apply replaceLoop_skip hName
        · rw [length_append, length_append]
          omega
        · intro q hLow hHigh
          rw [length_append, length_append, List.length_singleton] at hHigh
          rw [hLine]
          exact not_stands_word hW hApart hName hWord hLow (by omega) (Or.inr hSame)
      · rw [hLine', append_assoc, append_assoc]
        rfl

----
-- All arguments
----

/- The arguments are marked one after another. -/
def markAll : List Bytes → Nat → Bytes → Bytes
| [], _, s => s
| name :: names, arg, s =>
  markAll names (arg + 1) (mapWords isIdChar (markWord name (Fin.ofNat 256 arg)) s)

/- Every word is marked by itself. -/
theorem markAll_mapWords (names : List Bytes) (arg : Nat) (g : Bytes → Bytes) (s : Bytes) :
    markAll names arg (mapWords isIdChar g s) =
      mapWords isIdChar (fun w => markAll names arg (g w)) s := by
  induction names generalizing arg g with
  | nil => rfl
  | cons name names ih =>
    rw [markAll, mapWords_mapWords, ih]
    rfl

theorem markAll_eq_mapWords (names : List Bytes) (arg : Nat) (s : Bytes) :
    markAll names arg s = mapWords isIdChar (markAll names arg) s := by
  have hId := markAll_mapWords names arg id s
  have hSame : mapWords isIdChar id s = s := mapWords_same (fun w _ => rfl)
  rw [hSame] at hId
  exact hId

theorem replaceArgs_spec {names : List Bytes}
    (hNames : ∀ n ∈ names, n ≠ [] ∧ IsWord isIdChar n) (arg : Nat) (hKept : d.Kept) :
    ∃ d', replaceArgs names arg d = some d' ∧ d'.Kept ∧
      d'.before = d.before ∧
      d'.line = markAll names arg d.line := by
  induction names generalizing arg d with
  | nil => exact ⟨d, rfl, hKept, rfl, rfl⟩
  | cons name names ih =>
    rcases hNames name List.mem_cons_self with ⟨hName, hWord⟩
    rcases replaceLoop_spec hName hWord (Fin.ofNat 256 arg) d.line []
      d (d.line.length + 2) hKept rfl (fun h => absurd rfl h)
      (Nat.lt_succ_self _) with
      ⟨d', hLoop, hKept', hBefore, hLine⟩
    rcases ih (fun n hMem => hNames n (List.mem_cons_of_mem _ hMem))
      (arg + 1) hKept' with
      ⟨d'', hRest, hKept'', hBefore', hLine'⟩
    refine ⟨d'', ?_, hKept'', hBefore'.trans hBefore, ?_⟩
    · rw [replaceArgs]
      grind
    · rw [hLine', hLine]
      rfl

----
-- Plain lines
----

/- No comment starts in the text. -/
def NoComment (s : Bytes) : Prop :=
  ∀ u c v, s = u ++ 47 :: c :: v → c ≠ 47 ∧ c ≠ 42

theorem noComment_of_not_mem (hSlash : 47 ∉ s) : NoComment s := by
  intro u c v hS
  exfalso
  apply hSlash
  rw [hS]
  exact List.mem_append_right u List.mem_cons_self

theorem NoComment.suffix (h : NoComment (s ++ t)) : NoComment t := by
  intro u c v hT
  apply h (s ++ u) c v
  rw [hT, append_assoc]

theorem stripComments_of_noComment {fuel : Nat} (hFuel : s.length < fuel) (hPlain : NoComment s)
    (hStart : ∀ c ∈ s.head?, c = 47) : stripComments fuel s = s := by
  induction fuel generalizing s with
  | zero => exact absurd hFuel (Nat.not_lt_zero _)
  | succ fuel ih =>
    cases s with
    | nil => rfl
    | cons c t =>
      have hSlash : c = 47 := hStart c rfl
      have hRest : stripComments fuel (t.dropWhile (· ≠ 47)) = t.dropWhile (· ≠ 47) := by
        apply ih
        · have hLength :=
            (List.dropWhile_suffix (p := (· ≠ 47)) (l := t)).length_le
          rw [length_cons] at hFuel
          omega
        · apply NoComment.suffix (s := c :: t.takeWhile (· ≠ 47))
          rw [List.cons_append, List.takeWhile_append_dropWhile]
          exact hPlain
        · intro d hD
          have hHead := List.head?_dropWhile_not (· ≠ 47) t
          rw [hD] at hHead
          simpa using hHead
      have hNext : ∀ d, t.head? = some d → d ≠ 47 ∧ d ≠ 42 := by
        intro d hD
        cases t with
        | nil => cases hD
        | cons e v =>
          cases hD
          exact hPlain [] d v (by rw [hSlash]; rfl)
      rw [stripComments, if_neg (fun h => (hNext 47 h).1 rfl), if_neg (fun h => (hNext 42 h).2 rfl),
        hRest, List.cons_append, List.takeWhile_append_dropWhile]

/- A line without comments only loses the white space at its
   end. -/
theorem trimLine_of_noComment (hPlain : NoComment t) :
    trimLine t = rdropWhile isSpace t := by
  have hStrip : stripComments (t.length + 1) (t.dropWhile (· ≠ 47)) = t.dropWhile (· ≠ 47) := by
    apply stripComments_of_noComment
    · have hLength :=
        (List.dropWhile_suffix (p := (· ≠ 47)) (l := t)).length_le
      omega
    · apply NoComment.suffix (s := t.takeWhile (· ≠ 47))
      rw [List.takeWhile_append_dropWhile]
      exact hPlain
    · intro d hD
      have hHead := List.head?_dropWhile_not (· ≠ 47) t
      rw [hD] at hHead
      simpa using hHead
  unfold trimLine
  rw [hStrip, List.takeWhile_append_dropWhile]

/- The text of a macro without comments, that does not go on,
   is stored with its words marked. -/
theorem doDefine_spec {names : List Bytes}
    (hNames : ∀ n ∈ names, n ≠ [] ∧ IsWord isIdChar n) (hPlain : NoComment t)
    (hWhole : (rdropWhile isSpace t).getLast? ≠ some 92) (hMark : argMark ∉ t) (before : Bytes) :
    doDefine before names t =
      some (some (before ++ mapWords isIdChar (markAll names 1) (rdropWhile isSpace t))) := by
  have hLine : continueLine (trimLine t) = rdropWhile isSpace t := by
    rw [trimLine_of_noComment hPlain]
    unfold continueLine
    rw [if_neg hWhole]
  have hNoMark : ¬ (names ≠ [] ∧
      argMark ∈ rdropWhile isSpace t) :=
    fun h => hMark ((List.rdropWhile_prefix isSpace t).subset h.2)
  rcases replaceArgs_spec hNames 1
    (d := ⟨before, rdropWhile isSpace t,
      (rdropWhile isSpace t).length,
      before.length + (rdropWhile isSpace t).length + 1,
      before.length + (rdropWhile isSpace t).length, 0⟩)
    ⟨rfl, rfl, Int.add_zero _, Int.le_refl 0⟩ with
    ⟨d', hReplace, _, hBefore, hText⟩
  unfold doDefine
  rw [hLine]
  rw [if_neg hNoMark, hReplace, Option.bind_eq_bind,
    Option.bind_some, hBefore, hText, ← markAll_eq_mapWords]

end EpicSim
