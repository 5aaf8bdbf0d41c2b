import EpicSim.Ivlpp.MacroMarks

/-
  A use of a macro is its text with all arguments substituted at
  once, as long as no mark is taken for text or for another
  argument.
-/

namespace EpicSim

open List (length_append append_assoc nil_append cons_append mem_cons_of_mem mem_cons_self
  mem_append mem_cons)
open Words

----
-- Marks
----

/- The text with its marks expanded. -/
def expandMarks (use : Fin 256 → Option Bytes) : Bytes → Option Bytes
| [] => some []
| c :: s =>
  if c = argMark then
    match s with
    | [] => none
    | a :: s => do
        let text ← use a
        let rest ← expandMarks use s
        some (text ++ rest)
  else (expandMarks use s).map (c :: ·)

variable {use : Fin 256 → Option Bytes} {c : Fin 256} {s u w t : Bytes} {b : ExpBuf}
  {g : Bytes → Bytes}

theorem expandMarks_other
    (hC : c ≠ argMark) : expandMarks use (c :: s) = (expandMarks use s).map (c :: ·) := by
  rw [expandMarks.eq_def]
  exact if_neg hC

theorem expandLoop_other {m : CurMacro} {argv : List Bytes} {head : Bytes} (hC : c ≠ argMark) :
    expandLoop m argv head (c :: s) b = expandLoop m argv (head ++ [c]) s b := by
  rw [expandLoop.eq_def]
  exact if_neg hC

/- What the source takes for the argument of a mark. -/
def lookupUse (m : CurMacro) (argv : List Bytes) (a : Fin 256) : Option Bytes :=
  if charValue a < argv.length then useArg m argv (charValue a)
  else none

namespace ExpBuf

/- The bytes in use and the free ones are all of the buffer. -/
def Fits (b : ExpBuf) : Prop := b.bytes.length + b.free = b.size

theorem growToFit_spec {length fuel : Nat} {b : ExpBuf} (hFits : b.Fits)
    (hFuel : length + 2 ≤ b.free + fuel) (hSome : 0 < fuel) :
    ∃ b', growToFit length fuel b = some b' ∧ b'.Fits ∧
      b'.bytes = b.bytes ∧ length < b'.free := by
  induction fuel generalizing b with
  | zero => exact absurd hSome (Nat.lt_irrefl 0)
  | succ fuel ih =>
    rw [growToFit]
    by_cases hFree : b.free ≤ length
    · rw [if_pos hFree]
      have hFits' : Fits
          { b with size := b.size + 256, free := b.free + 256 } := by
        unfold Fits at hFits ⊢
        simp only
        omega
      exact ih hFits' (by simp only; omega) (by omega)
    · grind

theorem copy_spec {b : ExpBuf} (hFits : b.Fits) {s : Bytes} (hFree : s.length ≤ b.free) :
    ∃ b', b.copy s = some b' ∧ b'.Fits ∧
      b'.bytes = b.bytes ++ s := by
  unfold Fits at hFits
  have hUsed : b.bytes.take (b.size - b.free) = b.bytes := List.take_of_length_le (by omega)
  unfold copy
  rw [if_pos hFree, hUsed]
  refine ⟨_, rfl, ?_, rfl⟩
  unfold Fits
  simp only
  rw [length_append]
  omega

end ExpBuf

/- Room is made for bytes, which are then copied. -/
theorem growToFit_copy (hFits : b.Fits) (length : Nat)
    (hLength : s.length ≤ length + 1) :
    ∃ b' b'', b.growToFit length (length + 2) = some b' ∧
      b'.copy s = some b'' ∧ b''.Fits ∧
      b''.bytes = b.bytes ++ s := by
  rcases ExpBuf.growToFit_spec hFits
    (Nat.le_add_left (length + 2) b.free) (Nat.succ_pos _) with
    ⟨b', hGrow, hFits', hBytes, hFree⟩
  rcases ExpBuf.copy_spec hFits' (Nat.le_trans hLength hFree) with ⟨b'', hCopy, hFits'', hBytes'⟩
  rw [hBytes] at hBytes'
  exact ⟨b', b'', hGrow, hCopy, hFits'', hBytes'⟩

/- The loop expands the marks behind what it has of the text. -/
theorem expandLoop_spec (m : CurMacro) (argv : List Bytes) (s head : Bytes)
    (hFits : b.Fits) :
    match expandMarks (lookupUse m argv) s with
    | none => expandLoop m argv head s b = none
    | some rest => ∃ b', expandLoop m argv head s b = some b' ∧
        b'.bytes = b.bytes ++ head ++ rest ++ [0] := by
  induction s using expandMarks.induct generalizing head b with
  | case1 =>
    rw [expandLoop]
    rcases growToFit_copy hFits head.length
      (s := head ++ [0]) (by rw [length_append]; rfl) with
      ⟨b', b'', hGrow, hCopy, _, hBytes⟩
    refine ⟨b'', ?_, ?_⟩
    · rw [hGrow]
      exact hCopy
    · rw [hBytes, List.append_nil, append_assoc]
  | case2 => rw [expandMarks, expandLoop, if_pos rfl, if_pos rfl]
  | case3 a s ih =>
    rw [expandMarks, expandLoop]
    simp only [lookupUse]
    by_cases hArg : charValue a < argv.length
    · rw [if_pos hArg, if_pos hArg]
      cases hUse : useArg m argv (charValue a) with
      | none => rfl
      | some text =>
        simp only [Option.bind_eq_bind, Option.bind_some]
        rcases growToFit_copy hFits (head.length + text.length)
          (s := head ++ text)
          (by rw [length_append]; exact Nat.le_succ _) with
          ⟨b', b'', hGrow, hCopy, hFits', hBytes⟩
        have hRest := ih [] hFits'
        rw [hGrow, Option.bind_some, hCopy]
        cases hMarks : expandMarks (lookupUse m argv) s with
        | none =>
          rw [hMarks] at hRest
          exact hRest
        | some rest => grind
    · rw [if_neg hArg, if_neg hArg]
      rfl
  | case4 c s hC ih =>
    rw [expandMarks_other hC, expandLoop_other hC]
    have hRest := ih (head ++ [c]) hFits
    cases hMarks : expandMarks (lookupUse m argv) s with
    | none =>
      rw [hMarks] at hRest
      exact hRest
    | some rest => grind

----
-- Pieces that are expanded by themselves
----

theorem expandMarks_mark (use : Fin 256 → Option Bytes) (a : Fin 256) (s : Bytes) :
    expandMarks use (argMark :: a :: s) =
      (use a).bind fun text =>
        (expandMarks use s).map (text ++ ·) := by
  rw [expandMarks]
  cases use a with
  | none => rfl
  | some text =>
    cases expandMarks use s with
    | none => rfl
    | some rest => rfl

/- No mark at its end takes a byte of what follows. -/
def Complete (u : Bytes) : Prop :=
  ∀ use v, expandMarks use (u ++ v) =
    (expandMarks use u).bind fun r => (expandMarks use v).map (r ++ ·)

theorem complete_nil : Complete [] := by
  intro use v
  rw [nil_append]
  cases expandMarks use v with
  | none => rfl
  | some rest => rfl

theorem Complete.cons (hC : c ≠ argMark) (hU : Complete u) :
    Complete (c :: u) := by
  intro use v
  rw [cons_append, expandMarks_other hC, expandMarks_other hC, hU use v]
  cases expandMarks use u with
  | none => rfl
  | some r =>
    cases expandMarks use v with
    | none => rfl
    | some rest => rfl

theorem Complete.mark (hU : Complete u) (a : Fin 256) :
    Complete (argMark :: a :: u) := by
  intro use v
  rw [cons_append, cons_append, expandMarks_mark, expandMarks_mark, hU use v]
  cases use a with
  | none => rfl
  | some text =>
    cases expandMarks use u with
    | none => rfl
    | some r =>
      cases expandMarks use v with
      | none => rfl
      | some rest => simp only [Option.bind_some, Option.map_some, append_assoc]

theorem ne_mark_of_isIdChar (hC : isIdChar c = true) : c ≠ argMark := by
  rintro rfl
  exact absurd hC (by decide)

theorem complete_word (hW : IsWord isIdChar w) : Complete w := by
  induction w with
  | nil => exact complete_nil
  | cons c w ih =>
    exact (ih (fun d hMem => hW d (mem_cons_of_mem c hMem))).cons
      (ne_mark_of_isIdChar (hW c mem_cons_self))

/- A text without marks is kept. -/
theorem expandMarks_word (hW : IsWord isIdChar w) (use : Fin 256 → Option Bytes) :
    expandMarks use w = some w := by
  induction w with
  | nil => rfl
  | cons c w ih =>
    rw [expandMarks_other (ne_mark_of_isIdChar (hW c mem_cons_self)),
        ih (fun d hMem => hW d (mem_cons_of_mem c hMem))]
    rfl

/- A text is expanded word by word. -/
theorem expandMarks_sep (hU : Complete u) (hC : c ≠ argMark)
    (use : Fin 256 → Option Bytes) (v : Bytes) :
    expandMarks use (u ++ c :: v) =
      (expandMarks use u).bind fun r =>
        (expandMarks use v).map fun rest => r ++ c :: rest := by
  rw [hU use (c :: v), expandMarks_other hC]
  cases expandMarks use u with
  | none => rfl
  | some r =>
    cases expandMarks use v with
    | none => rfl
    | some rest => rfl

theorem expandMarks_mapWords {f : Bytes → Bytes} (hMark : argMark ∉ t)
    (hWords : ∀ w ∈ wordsOf isIdChar t, Complete (g w) ∧ expandMarks use (g w) = some (f w)) :
    expandMarks use (mapWords isIdChar g t) = some (mapWords isIdChar f t) := by
  induction t using Words.induction (p := isIdChar) with
  | word w hW =>
    rw [mapWords_word g hW, mapWords_word f hW]
    apply And.right
    apply hWords w
    rw [wordsOf_word hW]
    exact List.mem_singleton_self w
  | sep w c s hW hC ih =>
    rw [wordsOf_sep hW hC] at hWords
    rw [mem_append, mem_cons, not_or, not_or] at hMark
    rcases hWords w mem_cons_self with ⟨hComplete, hUse⟩
    rw [mapWords_sep g hW hC, mapWords_sep f hW hC, expandMarks_sep hComplete (Ne.symm hMark.2.1),
      hUse, ih hMark.2.2 (fun v hMem => hWords v (mem_cons_of_mem w hMem))]
    rfl

/- Only what the words are expanded to matters. -/
theorem expandMarks_congr {use' : Fin 256 → Option Bytes} (hMark : argMark ∉ t)
    (hWords : ∀ w ∈ wordsOf isIdChar t,
      Complete (g w) ∧ expandMarks use (g w) = expandMarks use' (g w)) :
    expandMarks use (mapWords isIdChar g t) = expandMarks use' (mapWords isIdChar g t) := by
  induction t using Words.induction (p := isIdChar) with
  | word w hW =>
    rw [mapWords_word g hW]
    apply And.right
    apply hWords w
    rw [wordsOf_word hW]
    exact List.mem_singleton_self w
  | sep w c s hW hC ih =>
    rw [wordsOf_sep hW hC] at hWords
    rw [mem_append, mem_cons, not_or, not_or] at hMark
    rcases hWords w mem_cons_self with ⟨hComplete, hUse⟩
    rw [mapWords_sep g hW hC, expandMarks_sep hComplete (Ne.symm hMark.2.1),
      expandMarks_sep hComplete (Ne.symm hMark.2.1), hUse,
      ih hMark.2.2 (fun v hMem => hWords v (mem_cons_of_mem w hMem))]

/- A text is not expanded if one of its words is not. -/
theorem expandMarks_none (hMark : argMark ∉ t) (hWords : ∀ v ∈ wordsOf isIdChar t, Complete (g v))
    (hMem : w ∈ wordsOf isIdChar t) (hNone : expandMarks use (g w) = none) :
    expandMarks use (mapWords isIdChar g t) = none := by
  induction t using Words.induction (p := isIdChar) with
  | word v hV =>
    rw [wordsOf_word hV, List.mem_singleton] at hMem
    rw [mapWords_word g hV, ← hMem]
    exact hNone
  | sep v c s hV hC ih =>
    rw [wordsOf_sep hV hC] at hWords hMem
    rw [mem_append, mem_cons, not_or, not_or] at hMark
    rw [mapWords_sep g hV hC, expandMarks_sep (hWords v mem_cons_self) (Ne.symm hMark.2.1)]
    rcases mem_cons.mp hMem with hEq | hIn
    · rw [← hEq, hNone]
      rfl
    · rw [ih hMark.2.2 (fun u hU => hWords u (mem_cons_of_mem v hU)) hIn]
      simp

end EpicSim
