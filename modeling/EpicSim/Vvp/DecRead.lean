import EpicSim.Vvp.DecText

/-
  Decimal text as a vector.

  The reader copies the digits from the end of the text, and
  takes the bits from the copy by halving it in place.  An index
  outside of the text gives none.
-/

----
-- The Reader
----

namespace EpicSim

open List (replicate nil_append reverse_append map_nil append_nil forall_mem_cons map_cons
  cons_append mem_of_head? mem_reverse)
open Nat (ofDigits ofDigits_cons toDigits)

namespace VpipText

open VvpBit4

/- `ch - '0'`. -/
def digitOf (ch : Char) : Nat := ch.toNat - '0'.toNat

/- `while (buf[slen-idx-1] == '_') slen--`: none if the index
   gets below zero. -/
def skipBefore (buf : List Char) (idx : Nat) : Nat → Option Nat
| 0 => none
| slen + 1 =>
  if slen < idx then none
  else if buf.getD (slen - idx) nul = '_' then
    skipBefore buf idx slen
  else some (slen + 1)

/- The loop that reverses the order of the text, with the digits
   so far: none inside where a digit is invalid. -/
def reverseLoop (buf : List Char) :
    Nat → Nat → Nat → Bool → List Nat → Option (Option (Bool × List Nat))
| 0, _, _, _, _ => none
| rounds + 1, idx, slen, is_negative, str =>
  if idx < slen then
    if idx = slen - 1 ∧ buf.getD (slen - idx - 1) nul = '-' then
      reverseLoop buf rounds (idx + 1) (slen - 1) true str
    else
      match skipBefore buf idx slen with
      | none => none
      | some slen =>
        let ch := buf.getD (slen - idx - 1) nul
        if ch.isDigit then
          reverseLoop buf rounds (idx + 1) slen is_negative (str ++ [digitOf ch])
        else some none
  else some (some (is_negative, str))

/- Divide the digits by 2, lowest first, where `cp[-1]` is the
   digit before, if any. -/
def halveFrom : Option Nat → List Nat → List Nat
| before, [] => before.toList
| before, val :: rest =>
  (before.map fun d => if val % 2 = 1 then d + 5 else d).toList ++ halveFrom (some (val / 2)) rest

/- The loop that sets the bits.  Past the digits is a NUL. -/
def decBitsLoop : Nat → List Nat → Vec4
| 0, _ => []
| n + 1, str => (if str.headD 0 % 2 = 1 then .one else .zero) :: decBitsLoop n (halveFrom none str)

/- `vpip_dec_str_to_vec4`, for a vector of `n` bits. -/
def vpipDecStrToVec4 (n : Nat) (buf : List Char) : Option Vec4 :=
  if buf.head? = some 'x' ∨ buf.head? = some 'X' then
    some (replicate n .x)
  else if buf.head? = some 'z' ∨ buf.head? = some 'Z' then
    if buf.tail.all fun ch => ch == '_' then
      some (replicate n .z)
    else some (replicate n .x)
  else
    let slen := unsigned buf.length
    match reverseLoop buf (slen + 1) 0 slen false [] with
    | none => none
    | some none => some (replicate n .x)
    | some (some (is_negative, str)) =>
      let vec := decBitsLoop n str
      if is_negative then some (addInt64 (invert vec) 1#64)
      else some vec

----
-- Halving
----

theorem ofDigits_halveFrom (before : Nat) (str : List Nat) :
    ofDigits 10 (halveFrom (some before) str) = before + 5 * ofDigits 10 str := by
  induction str generalizing before with
  | nil => simp [halveFrom]
  | cons val rest ih =>
    rw [halveFrom, Option.map_some, Option.toList_some,
      List.singleton_append, ofDigits_cons, ofDigits_cons, ih]
    split_ifs <;> omega

/- The digits become those of half the number. -/
theorem ofDigits_halve (str : List Nat) :
    ofDigits 10 (halveFrom none str) = ofDigits 10 str / 2 := by
  cases str with
  | nil => rfl
  | cons val rest =>
    rw [halveFrom, Option.map_none, Option.toList_none,
      nil_append, ofDigits_halveFrom, ofDigits_cons]
    omega

/- The bits are those of the number of the digits. -/
theorem decBitsLoop_eq (n : Nat) (str : List Nat) :
    decBitsLoop n str = ofNat n (ofDigits 10 str) := by
  induction n generalizing str with
  | zero => rfl
  | succ n ih =>
    rw [decBitsLoop, ih, ofNat_succ, ofDigits_halve, Nat.testBit_zero]
    congr 1
    cases str with
    | nil => rfl
    | cons val rest =>
      have hOdd : (val + 10 * ofDigits 10 rest) % 2 =
          val % 2 := by omega
      rw [ofDigits_cons, List.headD_cons, hOdd]
      simp only [decide_eq_true_eq]

----
-- Reversing
----

/- The reversed text, read in order: `skipped` is whether an
   underscore has been taken off for the same digit. -/
def readBack : Bool → List Char → List Nat → Option (Option (Bool × List Nat))
| skipped, [], str => if skipped then none else some (some (false, str))
| skipped, ch :: rest, str =>
  if skipped = false ∧ rest = [] ∧ ch = '-' then
    some (some (true, str))
  else if ch = '_' then readBack true rest str
  else if ch.isDigit then
    readBack false rest (str ++ [digitOf ch])
  else some none

def isUnderscore (ch : Char) : Bool := ch == '_'

variable {ch : Char} {buf text : List Char} {n : Nat} {v : Vec4}

theorem drop_underscore (hUnderscore : ch = '_') (rest : List Char) :
    (ch :: rest).dropWhile isUnderscore = rest.dropWhile isUnderscore :=
  List.dropWhile_cons_of_pos (beq_iff_eq.mpr hUnderscore)

theorem drop_other (hOther : ch ≠ '_') (rest : List Char) :
    (ch :: rest).dropWhile isUnderscore = ch :: rest :=
  List.dropWhile_cons_of_neg (mt beq_iff_eq.mp hOther)

/- What is read after the underscores. -/
def readDigit (text : List Char) (str : List Nat) : Option (Option (Bool × List Nat)) :=
  match text.dropWhile isUnderscore with
  | [] => none
  | ch :: rest =>
    if ch.isDigit then readBack false rest (str ++ [digitOf ch])
    else some none

theorem readBack_skipped (text : List Char) (str : List Nat) :
    readBack true text str = readDigit text str := by
  induction text with
  | nil => rfl
  | cons ch rest ih =>
    rw [readBack, if_neg (by simp)]
    by_cases hUnderscore : ch = '_'
    · rw [if_pos hUnderscore, ih, readDigit, readDigit, drop_underscore hUnderscore]
    · rw [if_neg hUnderscore, readDigit, drop_other hUnderscore]

theorem readBack_eq_readDigit
    {rest : List Char} (hNot : ¬ (rest = [] ∧ ch = '-')) (str : List Nat) :
    readBack false (ch :: rest) str = readDigit (ch :: rest) str := by
  rw [readBack, if_neg (fun hAll => hNot hAll.2)]
  by_cases hUnderscore : ch = '_'
  · rw [if_pos hUnderscore, readBack_skipped, readDigit, readDigit, drop_underscore hUnderscore]
  · rw [if_neg hUnderscore, readDigit, drop_other hUnderscore]

theorem reverse_take_succ {p : Nat} (hIn : p < buf.length) :
    (buf.take (p + 1)).reverse = buf.getD p nul :: (buf.take p).reverse := by
  rw [List.take_succ_eq_append_getElem hIn, reverse_append, List.getD_eq_getElem _ _ hIn]
  rfl

/- The loop over the underscores drops them from the reversed
   text. -/
theorem skipBefore_spec (idx : Nat) {p : Nat} (hIn : p ≤ buf.length) :
    let text := (buf.take p).reverse.dropWhile isUnderscore
    skipBefore buf idx (idx + p) = (if text = [] then none else some (idx + text.length)) ∧
      text.length ≤ p ∧
      (buf.take text.length).reverse = text := by
  induction p with
  | zero =>
    refine ⟨?_, Nat.le_refl _, rfl⟩
    change skipBefore buf idx idx = none
    cases idx with
    | zero => rfl
    | succ idx => rw [skipBefore, if_pos (Nat.lt_succ_self idx)]
  | succ p ih =>
    rcases ih (Nat.le_of_succ_le hIn) with ⟨hSkip, hLe, hTake⟩
    have hPlace : idx + p - idx = p := Nat.add_sub_cancel_left _ _
    have hNotPast : ¬ idx + p < idx := by omega
    intro text
    have hText : text = (buf.getD p nul :: (buf.take p).reverse).dropWhile isUnderscore := by
      rw [← reverse_take_succ hIn]
    rw [← Nat.add_assoc, skipBefore, if_neg hNotPast, hPlace]
    by_cases hUnderscore : buf.getD p nul = '_'
    · rw [drop_underscore hUnderscore] at hText
      rw [if_pos hUnderscore, hText]
      exact ⟨hSkip, Nat.le_succ_of_le hLe, hTake⟩
    · rw [drop_other hUnderscore, ← reverse_take_succ hIn] at hText
      have hLength : text.length = p + 1 := by grind
      grind

/- The loop reads the reversed text. -/
theorem reverseLoop_eq {buf : List Char} {rounds idx p : Nat} (hIn : p ≤ buf.length)
    (hRounds : p < rounds) (str : List Nat) :
    reverseLoop buf rounds idx (idx + p) false str = readBack false (buf.take p).reverse str := by
  induction rounds generalizing idx p str with
  | zero => omega
  | succ rounds ih =>
    rw [reverseLoop]
    cases p with
    | zero =>
      rw [if_neg (by omega)]
      rfl
    | succ p =>
      have hPlace : idx + (p + 1) - idx - 1 = p := by omega
      rw [if_pos (by omega), hPlace, reverse_take_succ hIn]
      by_cases hSign : p = 0 ∧ buf.getD p nul = '-'
      · rcases hSign with ⟨rfl, hMinus⟩
        rw [if_pos ⟨by omega, hMinus⟩, hMinus]
        cases rounds with
        | zero => omega
        | succ rounds =>
          rw [reverseLoop, if_neg (by omega)]
          rfl
      · have hSkip := skipBefore_spec idx hIn
        rw [if_neg (fun hBoth => hSign ⟨by omega, hBoth.2⟩)]
        rw [readBack_eq_readDigit, readDigit, ← reverse_take_succ hIn]
        · generalize (buf.take (p + 1)).reverse.dropWhile isUnderscore = text at *
          rcases hSkip with ⟨hRun, hLe, hTake⟩
          rw [hRun]
          cases text with
          | nil => rfl
          | cons ch rest =>
            have hCount : (ch :: rest).length = rest.length + 1 := rfl
            have hShort : rest.length < buf.length := by omega
            rw [hCount, reverse_take_succ hShort, List.cons.injEq] at hTake
            have hCh : idx + (rest.length + 1) - idx - 1 =
                rest.length := by omega
            have hNext : idx + (rest.length + 1) =
                idx + 1 + rest.length := by omega
            rw [if_neg (List.cons_ne_nil _ _)]
            simp only [hCount, hCh, hTake.1]
            by_cases hDigit : ch.isDigit = true
            · rw [if_pos hDigit, if_pos hDigit, hNext, ih (Nat.le_of_lt hShort) (by omega), hTake.2]
            · rw [if_neg hDigit, if_neg hDigit]
        · rintro ⟨hNil, hMinus⟩
          apply hSign
          refine ⟨?_, hMinus⟩
          have hZero := congrArg List.length hNil
          grind

----
-- Kinds of Text
----

/- A character of a number. -/
def DigitChar (ch : Char) : Prop := ch.isDigit = true ∨ ch = '_'

instance : DecidablePred DigitChar :=
  fun _ => inferInstanceAs (Decidable (_ ∨ _))

/- Digits and underscores, with at least one digit. -/
def IsNumeral (body : List Char) : Prop :=
  (∀ ch ∈ body, DigitChar ch) ∧ ∃ ch ∈ body, ch.isDigit = true

/- The number that the digits write. -/
def numberOf (body : List Char) : Nat :=
  Nat.ofDigitChars 10 (body.filter Char.isDigit) 0

def signChars (negative : Bool) : List Char :=
  if negative then ['-'] else []

theorem isDigit_ne (hDigit : ch.isDigit = true) : ch ≠ '_' ∧ ch ≠ '-' := by
  constructor
  · rintro rfl
    cases hDigit
  · rintro rfl
    cases hDigit

theorem digitChar_ne_minus (hChar : DigitChar ch) : ch ≠ '-' := by
  rcases hChar with hDigit | rfl
  · exact (isDigit_ne hDigit).2
  · decide

/- The digits of a reversed text. -/
def digitsOf (text : List Char) : List Nat :=
  (text.filter Char.isDigit).map digitOf

/- The last character that is read, if any, is an underscore. -/
def endsSkipped : Bool → List Char → Bool
| skipped, [] => skipped
| _, ch :: rest => endsSkipped (ch == '_') rest

/- Digits and underscores, read to the end. -/
theorem readBack_digits (hText : ∀ ch ∈ text, DigitChar ch) (skipped : Bool) (str : List Nat) :
    readBack skipped text str =
      if endsSkipped skipped text then none
      else some (some (false, str ++ digitsOf text)) := by
  induction text generalizing skipped str with
  | nil => rw [readBack, endsSkipped, digitsOf, List.filter_nil, map_nil, append_nil]
  | cons ch rest ih =>
    rcases forall_mem_cons.mp hText with ⟨hChar, hRest⟩
    rw [readBack, endsSkipped, if_neg (fun hAll => digitChar_ne_minus hChar hAll.2.2)]
    rcases hChar with hDigit | hUnderscore
    · have hNot := (isDigit_ne hDigit).1
      rw [if_neg hNot, if_pos hDigit, ih hRest, beq_false_of_ne hNot, digitsOf, digitsOf,
        List.filter_cons_of_pos hDigit, map_cons, List.append_assoc, List.singleton_append]
    · rw [ih hRest, hUnderscore]
      rfl

/- The same with a sign, which must come right after a digit. -/
theorem readBack_sign (hText : ∀ ch ∈ text, DigitChar ch) (skipped : Bool) (str : List Nat) :
    readBack skipped (text ++ ['-']) str =
      if endsSkipped skipped text then some none
      else some (some (true, str ++ digitsOf text)) := by
  induction text generalizing skipped str with
  | nil =>
    rw [digitsOf, List.filter_nil, map_nil, append_nil]
    cases skipped <;> rfl
  | cons ch rest ih =>
    rcases forall_mem_cons.mp hText with ⟨hChar, hRest⟩
    rw [cons_append, readBack, endsSkipped, if_neg (fun hAll => digitChar_ne_minus hChar hAll.2.2)]
    rcases hChar with hDigit | hUnderscore
    · have hNot := (isDigit_ne hDigit).1
      rw [if_neg hNot, if_pos hDigit, ih hRest, beq_false_of_ne hNot, digitsOf, digitsOf,
        List.filter_cons_of_pos hDigit, map_cons, List.append_assoc, List.singleton_append]
    · rw [ih hRest, hUnderscore]
      rfl

/- Any other character stops the reader, but for the sign. -/
theorem readBack_invalid (hText : ∀ ch ∈ text, DigitChar ch) {ch : Char}
    (hChar : ¬ DigitChar ch) {rest : List Char}
    (hSign : ch ≠ '-' ∨ rest ≠ []) (skipped : Bool) (str : List Nat) :
    readBack skipped (text ++ ch :: rest) str = some none := by
  induction text generalizing skipped str with
  | nil =>
    have hNot : ¬ (skipped = false ∧ rest = [] ∧ ch = '-') := by grind
    rw [nil_append, readBack, if_neg hNot, if_neg (fun hUnderscore => hChar (Or.inr hUnderscore)),
      if_neg (fun hDigit => hChar (Or.inl hDigit))]
  | cons ch' text ih =>
    rcases forall_mem_cons.mp hText with ⟨hFirst, hRest⟩
    rw [cons_append, readBack, if_neg (fun hAll => digitChar_ne_minus hFirst hAll.2.2)]
    grind

/- The text ends, read backwards, with its first character. -/
theorem endsSkipped_reverse (skipped : Bool) (body : List Char) :
    endsSkipped skipped body.reverse =
      match body with
      | [] => skipped
      | ch :: _ => ch == '_' := by
  have hLast : ∀ (text : List Char) (skipped : Bool) (ch : Char),
      endsSkipped skipped (text ++ [ch]) = (ch == '_') := by
    intro text
    induction text with
    | nil =>
      intro skipped ch
      rfl
    | cons c text ih =>
      intro skipped ch
      rw [cons_append, endsSkipped, ih]
  cases body with
  | nil => rfl
  | cons ch rest => rw [List.reverse_cons, hLast]

theorem ofDigits_digitsOf (body : List Char) :
    ofDigits 10 (digitsOf body.reverse) = numberOf body := by
  unfold digitsOf numberOf
  rw [List.filter_reverse, List.map_reverse]
  induction body.filter Char.isDigit using List.reverseRecOn with
  | nil => rfl
  | append_singleton chars ch ih =>
    rw [List.map_append, reverse_append, Nat.ofDigitChars_append, ← ih]
    exact Nat.add_comm _ _

----
-- What the Reader Gives
----

/- The reader, in terms of the reversed text. -/
theorem dec_read_eq (hLen : buf.length < 2 ^ 32)
    (hFirst : ∀ ch, buf.head? = some ch → ch ∉ ['x', 'X', 'z', 'Z']) (n : Nat) :
    vpipDecStrToVec4 n buf =
      match readBack false buf.reverse [] with
      | none => none
      | some none => some (replicate n .x)
      | some (some (is_negative, str)) =>
        if is_negative then
          some (addInt64 (invert (decBitsLoop n str)) 1#64)
        else some (decBitsLoop n str) := by
  have hNot : ∀ ch ∈ ['x', 'X', 'z', 'Z'],
      ¬ buf.head? = some ch :=
    fun ch hMem hHead => hFirst ch hHead hMem
  have hLoop := @reverseLoop_eq buf (buf.length + 1) 0
    buf.length (Nat.le_refl _) (Nat.lt_succ_self _) []
  rw [Nat.zero_add, List.take_length] at hLoop
  have hUnsigned : unsigned buf.length = buf.length := Nat.mod_eq_of_lt hLen
  unfold vpipDecStrToVec4
  rw [if_neg (by
      rintro (hX | hX)
      · exact hNot _ (by decide) hX
      · exact hNot _ (by decide) hX),
    if_neg (by
      rintro (hZ | hZ)
      · exact hNot _ (by decide) hZ
      · exact hNot _ (by decide) hZ)]
  simp only [hUnsigned, hLoop]

/- The value of digits and a sign, in `n` bits. -/
theorem dec_vec_eq (n : Nat) (negative : Bool) (str : List Nat) :
    (if negative then
      some (addInt64 (invert (decBitsLoop n str)) 1#64)
    else some (decBitsLoop n str)) =
      some (ofInt n (if negative then
          -((ofDigits 10 str : Nat) : Int)
        else ((ofDigits 10 str : Nat) : Int))) := by
  rw [decBitsLoop_eq]
  generalize ofDigits 10 str = x
  have hPow : ((2 ^ n : Nat) : Int) = 2 ^ n := by norm_cast
  have hPos := Nat.two_pow_pos n
  cases negative with
  | false =>
    rw [if_neg Bool.false_ne_true, if_neg Bool.false_ne_true, ofInt,
      ← hPow, ← Int.natCast_mod, Int.toNat_natCast, ofNat_mod]
  | true =>
    have hTwo := twoState_ofNat n x
    have hNeg := negate_eq hTwo
    rw [length_ofNat, number_ofNat] at hNeg
    have hLess := Nat.mod_lt x hPos
    have hSplit := Nat.div_add_mod x (2 ^ n)
    have hMod : (-(x : Int)) % 2 ^ n = ((2 ^ n - x % 2 ^ n : Nat) : Int) % 2 ^ n := by
      apply Int.emod_eq_emod_iff_emod_sub_eq_zero.mpr
      apply Int.emod_eq_zero_of_dvd
      refine ⟨-((x / 2 ^ n : Nat) : Int) - 1, ?_⟩
      grind
    rw [if_pos rfl, if_pos rfl, hNeg, ofInt, hMod, ← hPow,
      ← Int.natCast_mod, Int.toNat_natCast, ofNat_mod]

/- A text that is a number. -/
theorem dec_read_number {negative : Bool} {body : List Char} (hBody : ∀ ch ∈ body, DigitChar ch)
    (hLen : (signChars negative ++ body).length < 2 ^ 32) :
    vpipDecStrToVec4 n (signChars negative ++ body) =
      if body.head? = some '_' then
        if negative then some (replicate n .x) else none
      else some (ofInt n
        (if negative then -(numberOf body : Int)
          else numberOf body)) := by
  have hFirst : ∀ ch, (signChars negative ++ body).head? = some ch →
      ch ∉ ['x', 'X', 'z', 'Z'] := by
    intro ch hHead hMem
    have hKind : ch = '-' ∨ DigitChar ch := by
      cases negative with
      | true =>
        left
        cases hHead
        rfl
      | false => exact Or.inr (hBody ch (mem_of_head? hHead))
    have hNone : ∀ c ∈ ['x', 'X', 'z', 'Z'],
        ¬ (c = '-' ∨ DigitChar c) := by
      simp only [forall_mem_cons, List.not_mem_nil, false_imp_iff, implies_true, and_true]
      decide
    exact hNone ch hMem hKind
  have hReverse : ∀ ch ∈ body.reverse, DigitChar ch := fun ch hMem => hBody ch (mem_reverse.mp hMem)
  have hSkipped : endsSkipped false body.reverse =
      decide (body.head? = some '_') := by
    rw [endsSkipped_reverse]
    grind
  have hNumber := ofDigits_digitsOf body
  rw [dec_read_eq hLen hFirst, reverse_append]
  cases negative with
  | true =>
    have hSign : (signChars true).reverse = ['-'] := rfl
    rw [hSign, readBack_sign hReverse, hSkipped]
    by_cases hHead : body.head? = some '_'
    · simp only [hHead, decide_true, if_true]
    · have hVec := dec_vec_eq n true (digitsOf body.reverse)
      grind
  | false =>
    have hSign : (signChars false).reverse = [] := rfl
    rw [hSign, append_nil, readBack_digits hReverse, hSkipped]
    by_cases hHead : body.head? = some '_'
    · simp only [hHead, decide_true, if_true, Bool.false_eq_true, if_false]
    · have hVec := dec_vec_eq n false (digitsOf body.reverse)
      grind

/- A text with a character that is not of a number. -/
theorem dec_read_invalid (hLen : buf.length < 2 ^ 32)
    (hFirst : ∀ ch, buf.head? = some ch → ch ∉ ['x', 'X', 'z', 'Z'])
    (hNot : ¬ ∃ negative body, buf = signChars negative ++ body ∧ ∀ ch ∈ body, DigitChar ch) :
    vpipDecStrToVec4 n buf = some (replicate n .x) := by
  -- the last character that is not of a number
  have hLast : ∀ text : List Char,
      (∀ ch ∈ text, DigitChar ch) ∨
        ∃ front ch back, text = front ++ ch :: back ∧
          (∀ c ∈ front, DigitChar c) ∧ ¬ DigitChar ch := by
    intro text
    induction text with
    | nil => exact Or.inl fun ch hMem => by cases hMem
    | cons ch text ih =>
      by_cases hChar : DigitChar ch
      · grind
      · refine Or.inr ⟨[], ch, text, rfl, fun c hMem => ?_, hChar⟩
        cases hMem
  rcases hLast buf.reverse with hAll | ⟨front, ch, back, hText, hFront, hChar⟩
  · exact absurd ⟨false, buf, rfl, fun ch hMem => hAll ch (mem_reverse.mpr hMem)⟩ hNot
  · have hSign : ch ≠ '-' ∨ back ≠ [] := by
      by_contra hBoth
      push Not at hBoth
      rcases hBoth with ⟨rfl, rfl⟩
      apply hNot
      refine ⟨true, front.reverse, ?_, fun c hMem => hFront c (mem_reverse.mp hMem)⟩
      rw [← List.reverse_reverse buf, hText, reverse_append]
      rfl
    rw [dec_read_eq hLen hFirst, hText, readBack_invalid hFront hChar hSign]

----
-- When the Reader Is Right
----

/- The reader gives the number, and X for all else but texts of
   X or Z. -/
def DecReadsRight (n : Nat) (buf : List Char) : Prop :=
  (∀ negative body, buf = signChars negative ++ body →
    IsNumeral body →
      vpipDecStrToVec4 n buf = some (ofInt n
        (if negative then -(numberOf body : Int)
          else numberOf body))) ∧
  ((¬ ∃ negative body, buf = signChars negative ++ body ∧ IsNumeral body) →
    (∀ ch, buf.head? = some ch → ch ∉ ['x', 'X', 'z', 'Z']) →
      vpipDecStrToVec4 n buf = some (replicate n .x))

/- The texts that the reader takes wrong: no digits at all, but
   for underscores after a sign, and numbers that begin with an
   underscore. -/
def Stumbles (buf : List Char) : Prop :=
  buf = [] ∨ buf = ['-'] ∨
    (buf.head? = some '_' ∧ ∀ ch ∈ buf, DigitChar ch) ∨
    ∃ body, buf = '-' :: body ∧ body.head? = some '_' ∧ IsNumeral body

/- X is not the encoding of an integer. -/
theorem replicate_x_ne (hPos : 0 < n) (x : Int) : replicate n VvpBit4.x ≠ ofInt n x := by
  intro hSame
  have hMem : VvpBit4.x ∈ ofInt n x := by grind
  rcases twoState_ofNat n _ VvpBit4.x hMem with hZero | hOne
  · cases hZero
  · cases hOne

theorem not_numeral_nil : ¬ IsNumeral [] := by
  rintro ⟨-, ch, hMem, -⟩
  cases hMem

/- Where the reader stumbles it is not right. -/
theorem stumbles_wrong (hPos : 0 < n) {buf : List Char} (hLen : buf.length < 2 ^ 32)
    (hStumbles : Stumbles buf) : ¬ DecReadsRight n buf := by
  rintro ⟨hNumber, hOther⟩
  -- a text of a number, or of nothing but a sign and underscores
  have hRead : ∀ negative body, buf = signChars negative ++ body →
      (∀ ch ∈ body, DigitChar ch) →
        vpipDecStrToVec4 n buf =
          if body.head? = some '_' then
            if negative then some (replicate n .x) else none
          else some (ofInt n
            (if negative then -(numberOf body : Int)
              else numberOf body)) := by
    rintro negative body rfl hBody
    exact dec_read_number hBody hLen
  have hUnique : ∀ negative body body',
      buf = signChars negative ++ body →
      (∀ ch ∈ body, DigitChar ch) → ¬ IsNumeral body →
        ∀ negative', buf = signChars negative' ++ body' →
          ¬ IsNumeral body' := by
    intro negative body body' hSign hBody hNot negative' hSign' hNumeral
    rw [hSign] at hSign'
    cases negative <;> cases negative'
    · exact hNot ((show body = body' from hSign') ▸ hNumeral)
    · have hMinus : '-' ∈ body := by
        rw [show body = '-' :: body' from hSign']
        exact List.mem_cons_self
      exact digitChar_ne_minus (hBody _ hMinus) rfl
    · have hMinus : '-' ∈ body' := by
        rw [← show '-' :: body = body' from hSign']
        exact List.mem_cons_self
      exact digitChar_ne_minus (hNumeral.1 _ hMinus) rfl
    · exact hNot ((List.cons.inj (show '-' :: body = '-' :: body' from hSign')).2 ▸ hNumeral)
  have hWrong : ∀ negative body, buf = signChars negative ++ body →
      (∀ ch ∈ body, DigitChar ch) → ¬ IsNumeral body →
      (∀ ch, buf.head? = some ch → ch ∉ ['x', 'X', 'z', 'Z']) →
        vpipDecStrToVec4 n buf = some (replicate n .x) := by
    intro negative body hSign hBody hNot hFirst
    refine hOther ?_ hFirst
    rintro ⟨negative', body', hSign', hNumeral⟩
    exact hUnique negative body body' hSign hBody hNot negative' hSign' hNumeral
  rcases hStumbles with rfl | rfl | ⟨hHead, hBody⟩ | ⟨body, rfl, hHead, hNumeral⟩
  · have hX := hWrong false [] rfl (by simp) not_numeral_nil (by simp)
    rw [hRead false [] rfl (by simp)] at hX
    exact replicate_x_ne hPos _ (Option.some.inj hX).symm
  · have hX := hWrong true [] rfl (by simp) not_numeral_nil (by simp)
    rw [hRead true [] rfl (by simp)] at hX
    exact replicate_x_ne hPos _ (Option.some.inj hX).symm
  · have hNone := hRead false buf rfl hBody
    rw [if_pos hHead] at hNone
    by_cases hNumeral : IsNumeral buf
    · grind
    · grind
  · have hX := hRead true body rfl hNumeral.1
    rw [if_pos hHead, hNumber true body rfl hNumeral] at hX
    exact replicate_x_ne hPos _ (Option.some.inj hX).symm

theorem decReadsRight_iff (hPos : 0 < n) {buf : List Char} (hLen : buf.length < 2 ^ 32) :
    DecReadsRight n buf ↔ ¬ Stumbles buf := by
  refine ⟨fun hRight hStumbles => stumbles_wrong hPos hLen hStumbles hRight, fun hNot => ?_⟩
  constructor
  · rintro negative body rfl hNumeral
    rw [dec_read_number hNumeral.1 hLen, if_neg]
    intro hHead
    apply hNot
    cases negative with
    | true => exact Or.inr (Or.inr (Or.inr
        ⟨body, rfl, hHead, hNumeral⟩))
    | false => exact Or.inr (Or.inr (Or.inl ⟨hHead, hNumeral.1⟩))
  · intro hOther hFirst
    by_cases hDigits : ∃ negative body, buf = signChars negative ++ body ∧ ∀ ch ∈ body, DigitChar ch
    · rcases hDigits with ⟨negative, body, rfl, hBody⟩
      -- without a digit there are only underscores
      have hHead : ∀ ch, body.head? = some ch → ch = '_' := by
        intro ch hSome
        have hMem := mem_of_head? hSome
        rcases hBody ch hMem with hDigit | hUnderscore
        · exact absurd ⟨negative, body, rfl, hBody, ch, hMem, hDigit⟩ hOther
        · exact hUnderscore
      cases body with
      | nil =>
        cases negative with
        | true => exact absurd (Or.inr (Or.inl rfl)) hNot
        | false => exact absurd (Or.inl rfl) hNot
      | cons ch rest =>
        have hUnderscore := hHead ch rfl
        cases negative with
        | true =>
          have hFirstChar : (ch :: rest).head? = some '_' := congrArg some hUnderscore
          rw [dec_read_number hBody hLen, if_pos hFirstChar, if_pos rfl]
        | false => exact absurd (Or.inr (Or.inr (Or.inl
            ⟨congrArg some hUnderscore, hBody⟩))) hNot
    · exact dec_read_invalid hLen hFirst hDigits

----
-- Round Trip
----

theorem numeral_digits (x : Nat) :
    (∀ ch ∈ toDigits 10 x, ch.isDigit = true) ∧
      numberOf (toDigits 10 x) = x := by
  have hDigits : ∀ ch ∈ toDigits 10 x, ch.isDigit = true :=
    fun ch hMem => Nat.isDigit_of_mem_toDigits (by decide) (by decide) hMem
  refine ⟨hDigits, ?_⟩
  unfold numberOf
  rw [List.filter_eq_self.mpr hDigits, Nat.ofDigitChars_ten_toDigits]

/- A vector is what its integer encodes. -/
theorem ofInt_integer (hTwo : TwoState v) (signed_flag : Bool) :
    ofInt v.length (integer v signed_flag) = v := by
  have hPow : (2 : Int) ^ v.length = ((2 ^ v.length : Nat) : Int) := by norm_cast
  have hLess := number_lt v
  have hMod : integer v signed_flag % 2 ^ v.length = ((number v : Nat) : Int) := by
    have hSame : ((number v : Nat) : Int) % 2 ^ v.length = number v := by
      rw [hPow, ← Int.natCast_mod, Nat.mod_eq_of_lt hLess]
    unfold integer
    split_ifs
    · rw [Int.sub_emod_right, hSame]
    · exact hSame
  rw [ofInt, hMod, Int.toNat_natCast, ofNat_number hTwo]

theorem integer_bound (hPos : 0 < v.length) (signed_flag : Bool) :
    (integer v signed_flag).natAbs < 10 ^ v.length := by
  have hLess := number_lt v
  have hPow : (2 : Int) ^ v.length = ((2 ^ v.length : Nat) : Int) := by norm_cast
  have hTen : 2 ^ v.length < 10 ^ v.length := Nat.pow_lt_pow_left (by decide) (Nat.ne_of_gt hPos)
  unfold integer
  split_ifs
  · omega
  · omega

/- What the writer wrote is read back. -/
theorem dec_read_back (hTwo : TwoState v) (hPos : 0 < v.length)
    (hLen : v.length < 2 ^ 32) {signed_flag : Bool} {text : List Char}
    (hText : vpipVec4ToDecStr v signed_flag = some text) :
    vpipDecStrToVec4 v.length text = some v := by
  have hWritten := decText_eq hTwo hPos hLen signed_flag
  have hInteger := ofInt_integer hTwo signed_flag
  have hBound := integer_bound hPos signed_flag
  generalize integer v signed_flag = x at *
  rw [hText] at hWritten
  have hFits : v.length < 2 ^ 32 - 1 := by
    by_contra hWide
    have hNot : ¬ DecFits v signed_flag := by
      unfold DecFits decBits
      rw [unsignedPred_eq hPos hLen]
      split_ifs <;> omega
    rw [if_neg hNot] at hWritten
    cases hWritten
  have hNumeral : text = signChars (decide (x < 0)) ++ toDigits 10 x.natAbs := by
    have hSome : some text = some (numeral x) := by grind
    rw [Option.some.inj hSome]
    unfold numeral signChars
    simp only [decide_eq_true_eq]
  have hCount : (toDigits 10 x.natAbs).length ≤ v.length := Nat.toDigits_length 10 _ _ hPos hBound
  rcases numeral_digits x.natAbs with ⟨hDigits, hNumber⟩
  have hHead : ¬ (toDigits 10 x.natAbs).head? = some '_' := by
    intro hUnderscore
    have hDigit := hDigits _ (mem_of_head? hUnderscore)
    cases hDigit
  have hSize : (signChars (decide (x < 0)) ++ toDigits 10 x.natAbs).length < 2 ^ 32 := by
    have hSign : (signChars (decide (x < 0))).length ≤ 1 := by
      unfold signChars
      split_ifs <;> decide
    rw [List.length_append]
    omega
  rw [hNumeral, dec_read_number (fun ch hMem => Or.inl (hDigits ch hMem)) hSize,
    if_neg hHead, hNumber]
  have hSame : (if decide (x < 0) = true then
      -((x.natAbs : Nat) : Int) else x.natAbs) = x := by grind
  rw [hSame, hInteger]

/-
  The reader is right exactly where it does not stumble, for
  texts whose length is an `unsigned`; and it reads back all that
  the writer writes.
-/
theorem dec_text_read_exact {n : Nat} (hPos : 0 < n) :
    (∀ buf : List Char, buf.length < 2 ^ 32 → (DecReadsRight n buf ↔ ¬ Stumbles buf)) ∧
    (∀ (v : Vec4) (signed_flag : Bool) (text : List Char),
      TwoState v → v.length = n → v.length < 2 ^ 32 →
      vpipVec4ToDecStr v signed_flag = some text →
        vpipDecStrToVec4 n text = some v) := by
  refine ⟨fun _ hLen => decReadsRight_iff hPos hLen, ?_⟩
  rintro v _ _ hTwo rfl hLen hText
  exact dec_read_back hTwo hPos hLen hText

/- "12" is read, and -2 in two bits is read back. -/
theorem dec_text_read_exact_small :
    DecReadsRight 4 "12".toList ∧
      vpipDecStrToVec4 2 ['-', '2'] = some [.zero, .one] := by
  refine ⟨((dec_text_read_exact (by decide)).1 "12".toList (by decide)).mpr ?_, ?_⟩
  · rintro (hNil | hMinus | ⟨hHead, -⟩ | ⟨body, hSign, -⟩)
    · cases hNil
    · cases hMinus
    · cases hHead
    · cases hSign
  · exact (dec_text_read_exact (by decide)).2 [.zero, .one] true
      ['-', '2'] (by decide) (by decide) (by decide) (by decide)

/- The number -1 with an underscore after the sign is read as
   X. -/
theorem underscore_after_minus : ¬ DecReadsRight 4 "-_1".toList := by
  rintro ⟨hNumber, -⟩
  have hOne := hNumber true "_1".toList rfl
    ⟨forall_mem_cons.mpr ⟨by decide, List.forall_mem_singleton.mpr (by decide)⟩, '1',
        by decide, by decide⟩
  revert hOne
  decide

end VpipText

end EpicSim
