import EpicSim.Vvp.VpipDigits
import Mathlib.Data.Nat.Digits.Defs

/-
  The digits that the readers find.

  From the end of the text, with underscores left out, the
  digits are the bits of the number written.  The reader of
  binary text fails at an underscore among the first two
  characters.
-/

namespace EpicSim

open List (getElem_mem length_cons length_reverse filter_append append_nil nil_append range'
  map_nil getD_eq_getElem length_set map_cons)

namespace VpipText

open VvpBit4

----
-- Texts
----

/- The digits of a base with so many bits each. -/
structure TextBase where
  width : Nat
  value : Char → Option Nat
  width_pos : 0 < width
  width_le : width ≤ 4
  value_lt : ∀ ch d, value ch = some d → d < 2 ^ width
  no_minus : value '-' = none
  no_underscore : value '_' = none

/- A digit, X or Z. -/
def TextBase.IsDigit (base : TextBase) (ch : Char) : Prop :=
  (digitBit base.value ch 0).isSome = true

instance (base : TextBase) (ch : Char) : Decidable (base.IsDigit ch) :=
  inferInstanceAs (Decidable (_ = true))

/- An optional `-` and digits with underscores, of a length that
   the source's `unsigned` holds. -/
structure NumberText (base : TextBase) where
  negative : Bool
  body : List Char
  chars : ∀ ch ∈ body, ch = '_' ∨ base.IsDigit ch
  digit : ∃ ch ∈ body, base.IsDigit ch
  short : body.length + 1 < 2 ^ 32

theorem hexValue_lt (ch : Char) (d : Nat) (hValue : hexValue ch = some d) : d < 2 ^ 4 := by
  unfold hexValue at hValue
  split_ifs at hValue with hDigit hLower hUpper
  · rw [← Option.some.inj hValue]
    have hHigh : ch.toNat ≤ 57 := hDigit.2
    have hZero : '0'.toNat = 48 := rfl
    omega
  · rw [← Option.some.inj hValue]
    have hHigh : ch.toNat ≤ 102 := hLower.2
    have hZero : 'a'.toNat = 97 := rfl
    omega
  · rw [← Option.some.inj hValue]
    have hHigh : ch.toNat ≤ 70 := hUpper.2
    have hZero : 'A'.toNat = 65 := rfl
    omega

theorem octValue_lt (ch : Char) (d : Nat) (hValue : octValue ch = some d) : d < 2 ^ 3 := by
  unfold octValue at hValue
  split_ifs at hValue with hDigit
  rw [← Option.some.inj hValue]
  have hHigh : ch.toNat ≤ 55 := hDigit.2
  have hZero : '0'.toNat = 48 := rfl
  omega

theorem binValue_lt (ch : Char) (d : Nat) (hValue : binValue ch = some d) : d < 2 ^ 1 := by
  unfold binValue at hValue
  split_ifs at hValue
  · rw [← Option.some.inj hValue]
    decide
  · rw [← Option.some.inj hValue]
    decide

def hexBase : TextBase :=
  ⟨4, hexValue, by decide, by decide, hexValue_lt, by decide, by decide⟩

def octBase : TextBase :=
  ⟨3, octValue, by decide, by decide, octValue_lt, by decide, by decide⟩

def binBase : TextBase :=
  ⟨1, binValue, by decide, by decide, binValue_lt, by decide, by decide⟩

/- Whether a character is a digit does not depend on the bit. -/
theorem digitBit_isSome {value : Char → Option Nat} {ch : Char}
    (hDigit : (digitBit value ch 0).isSome = true) (bit_off : Nat) :
    ∃ bit, digitBit value ch bit_off = some bit := by
  unfold digitBit at hDigit ⊢
  cases hValue : value ch with
  | some tmp => exact ⟨_, rfl⟩
  | none => grind

theorem TextBase.ne_minus (base : TextBase) {ch : Char} (hDigit : base.IsDigit ch) : ch ≠ '-' := by
  rintro rfl
  unfold IsDigit digitBit at hDigit
  rw [base.no_minus] at hDigit
  exact absurd hDigit (by decide)

theorem TextBase.ne_underscore (base : TextBase) {ch : Char} (hDigit : base.IsDigit ch) :
    ch ≠ '_' := by
  rintro rfl
  unfold IsDigit digitBit at hDigit
  rw [base.no_underscore] at hDigit
  exact absurd hDigit (by decide)

namespace NumberText

variable {base : TextBase} (t : NumberText base)

/- The text. -/
def str : List Char :=
  if t.negative then '-' :: t.body else t.body

/- Its digits, the last one first. -/
def digits : List Char :=
  t.str.reverse.filter fun ch => decide (base.IsDigit ch)

/- No digit is X or Z. -/
def NoXz : Prop := ∀ ch ∈ t.digits, (base.value ch).isSome = true

/- The number that the digits write. -/
def number : Nat :=
  Nat.ofDigits (2 ^ base.width) (t.digits.map fun ch => (base.value ch).getD 0)

/- The number with its sign. -/
def integer : Int := if t.negative then -(t.number : Int) else t.number

/- The number of bits that a reader makes of the digits. -/
def bitCount : Nat := unsigned (base.width * t.digits.length)

theorem not_digit_minus : ¬ base.IsDigit '-' :=
  fun h => base.ne_minus h rfl

/- The characters of the text. -/
theorem mem_str {ch : Char} (hMem : ch ∈ t.str) : ch = '-' ∨ ch = '_' ∨ base.IsDigit ch := by
  unfold str at hMem
  split_ifs at hMem
  · rcases List.mem_cons.mp hMem with rfl | hBody
    · exact Or.inl rfl
    · exact Or.inr (t.chars ch hBody)
  · exact Or.inr (t.chars ch hMem)

/- The sign is the first character. -/
theorem minus_first {i : Nat} (hLt : i < t.str.length) (hChar : t.str[i] = '-') : i = 0 := by
  have hBody : '-' ∉ t.body := by
    intro hMem
    rcases t.chars _ hMem with hUnder | hDigit
    · exact absurd hUnder (by decide)
    · exact not_digit_minus hDigit
  cases hSign : t.negative with
  | true =>
    have hStr : t.str = '-' :: t.body := by
      unfold str
      rw [hSign]
      rfl
    grind
  | false =>
    have hStr : t.str = t.body := by
      unfold str
      rw [hSign]
      rfl
    simp only [hStr] at hChar
    exact absurd (hChar ▸ getElem_mem _) hBody

theorem length_str_lt : t.str.length < 2 ^ 32 := by
  have hShort := t.short
  unfold str
  split_ifs
  · exact hShort
  · omega

/- No underscore is among the first two characters. -/
def FirstTwo : Prop :=
  t.str.getD 0 '-' ≠ '_' ∧ t.str.getD 1 '-' ≠ '_'

instance : Decidable t.FirstTwo := inferInstanceAs (Decidable (_ ∧ _))

/- What is skipped is what is no digit. -/
theorem length_digits : t.str.length - skipChars t.str = t.digits.length := by
  unfold digits skipChars
  rw [List.filter_reverse, length_reverse, ← List.countP_eq_length_filter]
  have hAll := List.length_eq_countP_add_countP (fun ch => ch = '-' || ch = '_') (l := t.str)
  have hSame : t.str.countP (fun ch => decide (base.IsDigit ch)) =
      t.str.countP (fun ch => decide (¬ (ch = '-' || ch = '_') = true)) := by
    apply List.countP_congr
    intro ch hMem
    simp only [decide_eq_true_eq, Bool.or_eq_true]
    constructor
    · intro hDigit hOther
      rcases hOther with h | h
      · exact base.ne_minus hDigit h
      · exact base.ne_underscore hDigit h
    · intro hOther
      rcases t.mem_str hMem with h | h | h
      · exact absurd (Or.inl h) hOther
      · exact absurd (Or.inr h) hOther
      · exact h
  omega

theorem head_str : (t.str.head? = some '-') ↔ t.negative = true := by
  unfold str
  cases hSign : t.negative with
  | true => simp
  | false =>
    simp only [Bool.false_eq_true, iff_false]
    intro hHead
    have hMem := List.mem_of_mem_head? hHead
    rcases t.chars _ hMem with hUnder | hDigit
    · exact absurd hUnder (by decide)
    · exact not_digit_minus hDigit

end NumberText

----
-- Octal And Hex Digits
----

/- A character counted from the end of the text. -/
theorem getD_of_drop {str rest : List Char} {str_off skip_chars : Nat} {ch : Char}
    (hDrop : str.reverse.drop (str_off + skip_chars) = ch :: rest) (other : Char) :
    str_off + skip_chars < str.length ∧
      str.getD (str.length - str_off - 1 - skip_chars) other =
        ch := by
  have hLt : str_off + skip_chars < str.length := by
    by_contra hNot
    rw [List.drop_eq_nil_of_le (by rw [length_reverse]; omega)] at hDrop
    cases hDrop
  refine ⟨hLt, ?_⟩
  have hGet : str.reverse[str_off + skip_chars]? = some ch := by
    have hHead := congrArg (fun l : List Char => l[0]?) hDrop
    simpa using hHead
  rw [List.getElem?_reverse hLt] at hGet
  have hPlace : str.length - str_off - 1 - skip_chars =
      str.length - 1 - (str_off + skip_chars) := by
    omega
  rw [hPlace, List.getD_eq_getElem?_getD, hGet]
  rfl

theorem skipUnderscores_spec {str post : List Char} {str_off : Nat} {ch : Char} (hChar : ch ≠ '_') :
    ∀ {under : List Char} {rounds skip_chars : Nat},
      str.reverse.drop (str_off + skip_chars) = under ++ ch :: post →
      (∀ c ∈ under, c = '_') →
      under.length < rounds →
      skipUnderscores str str_off rounds skip_chars = some (ch, skip_chars + under.length)
| [], rounds + 1, skip_chars, hDrop, _, _ => by
    rcases getD_of_drop hDrop '-' with ⟨_, hGet⟩
    simp only [skipUnderscores, hGet]
    rw [if_neg hChar]
    rfl
| c :: under, rounds + 1, skip_chars, hDrop, hUnder, hRounds => by
    rcases getD_of_drop hDrop '-' with ⟨_, hGet⟩
    have hC := hUnder c List.mem_cons_self
    have hNext : str.reverse.drop (str_off + (skip_chars + 1)) = under ++ ch :: post := by
      rw [← Nat.add_assoc, ← List.drop_drop, hDrop]
      rfl
    have hMore : str_off + (skip_chars + 1) < str.length := by
      cases under with
      | nil => exact (getD_of_drop hNext '-').1
      | cons d rest => exact (getD_of_drop hNext '-').1
    have hRest := skipUnderscores_spec hChar hNext
      (fun d hMem => hUnder d (List.mem_cons_of_mem _ hMem))
      (Nat.lt_of_succ_lt_succ hRounds)
    simp only [skipUnderscores, hGet]
    rw [if_pos hC, if_pos hMore, hRest, length_cons]
    congr 2
    omega

namespace NumberText

variable {base : TextBase} (t : NumberText base)

/- A bit of the digits. -/
def bitOf (i : Nat) : VvpBit4 :=
  (digitBit base.value (t.digits.getD (i / base.width) '-') (i % base.width)).getD .x

/- The characters skipped so far: those of the text that have
   been passed hold the digits that have been read. -/
structure Passed (str_off skip_chars : Nat) : Prop where
  read : (t.str.reverse.take (str_off + skip_chars)).filter
    (fun ch => decide (base.IsDigit ch)) = t.digits.take str_off
  inside : str_off + skip_chars ≤ t.str.length

/- What lies before the next digit. -/
theorem Passed.next {t : NumberText base} {str_off skip_chars : Nat}
    (hPassed : t.Passed str_off skip_chars) (hLt : str_off < t.digits.length) :
    ∃ under post, t.str.reverse.drop (str_off + skip_chars) = under ++ t.digits[str_off] :: post ∧
      (∀ c ∈ under, c = '_') ∧
      t.Passed str_off (skip_chars + under.length) ∧
      t.Passed (str_off + 1) (skip_chars + under.length) := by
  have hSplit : t.digits = t.digits.take str_off ++
      (t.str.reverse.drop (str_off + skip_chars)).filter (fun ch => decide (base.IsDigit ch)) := by
    rw [← hPassed.read, ← filter_append, List.take_append_drop]
    rfl
  have hRest : (t.str.reverse.drop (str_off + skip_chars)).filter
      (fun ch => decide (base.IsDigit ch)) = t.digits[str_off] :: t.digits.drop (str_off + 1) := by
    rw [← List.drop_eq_getElem_cons hLt]
    exact List.append_cancel_left (hSplit.symm.trans (List.take_append_drop str_off _).symm)
  rcases List.filter_eq_cons_iff.mp hRest with ⟨under, post, hDrop, hOther, hDigit, _⟩
  have hWhole : t.str.reverse =
      t.str.reverse.take (str_off + skip_chars) ++ (under ++ t.digits[str_off] :: post) := by
    rw [← hDrop, List.take_append_drop]
  have hLen := congrArg List.length hWhole
  rw [List.length_append, List.length_append, List.length_take,
    length_reverse, length_cons] at hLen
  -- the sign is the last of the reversed text
  have hUnder : ∀ c ∈ under, c = '_' := by
    intro c hMem
    rcases List.getElem_of_mem hMem with ⟨j, hJ, rfl⟩
    have hGet : t.str.reverse[str_off + skip_chars + j]? = some under[j] := by
      have hAt := congrArg (fun l : List Char => l[j]?) hDrop
      simp only [List.getElem?_drop] at hAt
      rw [hAt, List.getElem?_append_left hJ, List.getElem?_eq_getElem hJ]
    rw [List.getElem?_reverse (by omega)] at hGet
    rcases List.getElem?_eq_some_iff.mp hGet with ⟨hIn, hChar⟩
    rcases t.mem_str (hChar ▸ getElem_mem hIn) with h | h | h
    · have hFirst := t.minus_first hIn (hChar.trans h)
      omega
    · exact h
    · grind
  have hTake : ∀ k, t.str.reverse.take (str_off + skip_chars + k) =
      t.str.reverse.take (str_off + skip_chars) ++ (under ++ t.digits[str_off] :: post).take k := by
    intro k
    rw [List.take_add, hDrop]
  have hNone : under.filter (fun ch => decide (base.IsDigit ch)) = [] := by
    rw [List.filter_eq_nil_iff]
    exact hOther
  refine ⟨under, post, hDrop, hUnder, ⟨?_, by omega⟩, ⟨?_, by omega⟩⟩
  · rw [← Nat.add_assoc, hTake, List.take_left', filter_append, hPassed.read, hNone, append_nil]
    rfl
  · have hPlace : str_off + 1 + (skip_chars + under.length) =
        str_off + skip_chars + (under.length + 1) := by
      omega
    have hOne : (under ++ t.digits[str_off] :: post).take
        (under.length + 1) = under ++ [t.digits[str_off]] := by
      simp [List.take_append]
    have hKept : [t.digits[str_off]].filter
        (fun ch => decide (base.IsDigit ch)) = [t.digits[str_off]] :=
      List.filter_cons_of_pos hDigit
    rw [hPlace, hTake, hOne, filter_append, filter_append, hPassed.read, hNone,
      nil_append, hKept, List.take_succ_eq_append_getElem hLt]

theorem isDigit_of_digits {str_off : Nat} (hLt : str_off < t.digits.length) :
    base.IsDigit t.digits[str_off] := by
  have hMem := getElem_mem hLt
  exact of_decide_eq_true (List.mem_filter.mp hMem).2

/- The loop sets every bit from its index on. -/
theorem digitsLoop_spec :
    ∀ {rounds idx skip_chars : Nat} {tval : Vec4},
      t.Passed (idx / base.width) skip_chars →
      idx + rounds ≤ base.width * t.digits.length →
      tval.length = idx + rounds →
      digitsLoop base.width base.value t.str rounds idx skip_chars tval =
        some (some (tval.take idx ++ (range' idx rounds).map t.bitOf))
| 0, idx, skip_chars, tval, _, _, hLen => by
    rw [digitsLoop, List.take_of_length_le (by omega), List.range'_zero, map_nil, append_nil]
| rounds + 1, idx, skip_chars, tval, hPassed, hBits, hLen => by
    have hOff : idx / base.width < t.digits.length := Nat.div_lt_of_lt_mul (by omega)
    rcases hPassed.next hOff with ⟨under, post, hDrop, hUnder, hSame, hNext⟩
    have hDigit := t.isDigit_of_digits hOff
    have hFew : under.length < t.str.length := by
      have hIn := hNext.inside
      generalize idx / base.width = str_off at hIn
      omega
    have hSkip := skipUnderscores_spec (base.ne_underscore hDigit) hDrop hUnder hFew
    have hInside : idx / base.width + skip_chars < t.str.length := by
      have hIn := hNext.inside
      omega
    rcases digitBit_isSome hDigit (idx % base.width) with ⟨bit, hBit⟩
    have hBitOf : t.bitOf idx = bit := by
      unfold bitOf
      rw [getD_eq_getElem _ _ hOff, hBit]
      rfl
    have hThere : t.Passed ((idx + 1) / base.width) (skip_chars + under.length) := by
      by_cases hEnd : (idx + 1) % base.width = 0
      · rw [Nat.succ_div_of_mod_eq_zero hEnd]
        exact hNext
      · rw [Nat.succ_div_of_mod_ne_zero hEnd]
        exact hSame
    have hRest := @digitsLoop_spec rounds (idx + 1) _
      (tval.set idx bit) hThere (by omega)
      (by rw [length_set]; omega)
    simp only [digitsLoop]
    rw [if_pos hInside, hSkip]
    simp only
    rw [if_neg (base.ne_minus hDigit), hBit]
    simp only
    rw [hRest, List.range'_succ, map_cons, hBitOf]
    have hTake : (tval.set idx bit).take (idx + 1) = tval.take idx ++ [bit] := by
      rw [List.take_succ_eq_append_getElem (by rw [length_set]; omega),
        List.getElem_set_self, List.take_set_of_le (le_refl idx)]
    rw [hTake, List.append_assoc]
    rfl

theorem passed_zero : t.Passed (0 / base.width) 0 := by
  rw [Nat.zero_div]
  exact ⟨rfl, Nat.zero_le _⟩

end NumberText

/- A bit of a number from its digits. -/
theorem testBit_ofDigits {width : Nat} (hPos : 0 < width) :
    ∀ {ds : List Nat}, (∀ d ∈ ds, d < 2 ^ width) → ∀ i,
      (Nat.ofDigits (2 ^ width) ds).testBit i = (ds.getD (i / width) 0).testBit (i % width)
| [], _, i => by
    rw [Nat.ofDigits_nil, List.getD_nil, Nat.zero_testBit, Nat.zero_testBit]
| d :: ds, hDigits, i => by
    have hD := hDigits d List.mem_cons_self
    have hRest := fun e hMem => hDigits e (List.mem_cons_of_mem d hMem)
    have hCons : Nat.ofDigits (2 ^ width) (d :: ds) =
        2 ^ width * Nat.ofDigits (2 ^ width) ds + d := by
      rw [Nat.ofDigits_cons, Nat.add_comm]
    rw [hCons, Nat.testBit_two_pow_mul_add _ hD]
    by_cases hLow : i < width
    · rw [if_pos hLow, Nat.div_eq_of_lt hLow, Nat.mod_eq_of_lt hLow, List.getD_cons_zero]
    · have hDiv : i / width = (i - width) / width + 1 :=
        Nat.div_eq_sub_div hPos (by omega)
      have hMod : i % width = (i - width) % width := Nat.mod_eq_sub_mod (by omega)
      rw [if_neg hLow, testBit_ofDigits hPos hRest, hDiv, hMod, List.getD_cons_succ]

namespace NumberText

variable {base : TextBase} (t : NumberText base)

/- Without X and Z the bits are those of the number. -/
theorem bitOf_eq (hNoXz : t.NoXz) {i : Nat} (hLt : i < base.width * t.digits.length) :
    t.bitOf i = if t.number.testBit i then .one else .zero := by
  have hOff : i / base.width < t.digits.length := Nat.div_lt_of_lt_mul hLt
  have hSmall : ∀ d ∈ t.digits.map (fun ch => (base.value ch).getD 0), d < 2 ^ base.width := by
    intro d hMem
    rcases List.mem_map.mp hMem with ⟨ch, hCh, rfl⟩
    rcases Option.isSome_iff_exists.mp (hNoXz ch hCh) with ⟨e, hE⟩
    rw [hE]
    exact base.value_lt ch e hE
  rcases Option.isSome_iff_exists.mp (hNoXz _ (getElem_mem hOff)) with ⟨d, hD⟩
  unfold number bitOf
  rw [testBit_ofDigits base.width_pos hSmall, getD_eq_getElem _ _ hOff,
    getD_eq_getElem _ _ (by rw [List.length_map]; exact hOff), List.getElem_map]
  unfold digitBit
  rw [hD]
  rfl

theorem map_bitOf (hNoXz : t.NoXz) {m : Nat} (hLe : m ≤ base.width * t.digits.length) :
    (List.range m).map t.bitOf = ofNat m t.number := by
  apply List.map_congr_left
  intro i hMem
  exact t.bitOf_eq hNoXz (lt_of_lt_of_le (List.mem_range.mp hMem) hLe)

/- What the readers of octal and hex text make of the text. -/
theorem digitsStr_eq (n : Nat) :
    digitsStrToVec4 base.width base.value n t.str =
      some (finish n t.negative ((List.range t.bitCount).map t.bitOf)) := by
  have hSize : unsigned (base.width * (t.str.length - skipChars t.str)) = t.bitCount := by
    rw [t.length_digits]
    rfl
  have hLe : t.bitCount ≤ base.width * t.digits.length := Nat.mod_le _ _
  have hLoop := @digitsLoop_spec _ t t.bitCount 0 0
    (List.replicate t.bitCount .x) t.passed_zero
    (by omega) (by rw [List.length_replicate]; omega)
  have hSign : decide (t.str.head? = some '-') = t.negative := by
    rw [Bool.eq_iff_iff, decide_eq_true_eq]
    exact t.head_str
  unfold digitsStrToVec4
  simp only [hSize, hLoop, List.take_zero, nil_append, hSign]
  rw [← List.range_eq_range']

end NumberText

----
-- Binary Digits
----

namespace NumberText

variable (t : NumberText binBase)

/- The digits among the first characters, the last one first. -/
def digitsBefore (ebuf : Nat) : List Char :=
  (t.str.take ebuf).reverse.filter fun ch => decide (binBase.IsDigit ch)

theorem digitsBefore_succ {ebuf : Nat} (hLt : ebuf < t.str.length) :
    t.digitsBefore (ebuf + 1) =
      if binBase.IsDigit t.str[ebuf] then
        t.str[ebuf] :: t.digitsBefore ebuf
      else t.digitsBefore ebuf := by
  unfold digitsBefore
  rw [List.take_succ_eq_append_getElem hLt, List.reverse_append,
    List.reverse_singleton, List.singleton_append, List.filter_cons]
  by_cases hDigit : binBase.IsDigit t.str[ebuf]
  · rw [if_pos (decide_eq_true hDigit), if_pos hDigit]
  · rw [if_neg (by simpa using hDigit), if_neg hDigit]

/- Skipping back ends at a digit or the sign. -/
theorem skipBack_spec (hFirst : t.FirstTwo) :
    ∀ {ebuf : Nat}, ebuf < t.str.length →
      ∃ e ≤ ebuf, skipBack t.str ebuf = some e ∧
        t.str.getD e '-' ≠ '_' ∧
        t.digitsBefore (ebuf + 1) = t.digitsBefore (e + 1)
| 0, _ => ⟨0, le_refl 0, by rw [skipBack, if_neg hFirst.1], hFirst.1, rfl⟩
| ebuf + 1, hLt => by
    by_cases hUnder : t.str.getD (ebuf + 1) '-' = '_'
    · have hPos : 0 < ebuf := by
        by_contra hNot
        have hZero : ebuf = 0 := Nat.eq_zero_of_not_pos hNot
        rw [hZero] at hUnder
        exact hFirst.2 hUnder
      rcases skipBack_spec hFirst (by omega : ebuf < t.str.length)
        with ⟨e, hLe, hSkip, hChar, hSame⟩
      refine ⟨e, by omega, ?_, hChar, ?_⟩
      · rw [skipBack, if_pos hUnder, if_pos hPos, hSkip]
      · rw [← hSame, t.digitsBefore_succ hLt, if_neg]
        rw [getD_eq_getElem _ _ hLt] at hUnder
        rw [hUnder]
        exact fun h => binBase.ne_underscore h rfl
    · exact ⟨ebuf + 1, le_refl _, by rw [skipBack, if_neg hUnder], hUnder, rfl⟩

/- The loop sets the bits of the digits that are left. -/
theorem binLoop_spec (hFirst : t.FirstTwo) :
    ∀ {rounds ebuf idx : Nat} {tval : Vec4},
      t.digitsBefore ebuf = t.digits.drop idx →
      ebuf < rounds →
      ebuf ≤ t.str.length →
      tval.length = t.digits.length →
      binLoop t.str rounds ebuf idx tval =
        some (some (tval.take idx ++ (range' idx (t.digits.length - idx)).map t.bitOf))
| rounds + 1, ebuf, idx, tval, hLeft, hRounds, hIn, hLen => by
    have hDone : t.digits.drop idx = [] →
        tval = tval.take idx ++ (range' idx (t.digits.length - idx)).map t.bitOf := by
      intro hNil
      have hEnd := List.drop_eq_nil_iff.mp hNil
      rw [List.take_of_length_le (by omega), Nat.sub_eq_zero_of_le hEnd,
        List.range'_zero, map_nil, append_nil]
    cases ebuf with
    | zero =>
      have hTval := hDone hLeft.symm
      rw [binLoop, if_neg (Nat.lt_irrefl 0), ← hTval]
    | succ ebuf =>
      rcases t.skipBack_spec hFirst hIn with ⟨e, hLe, hSkip, hChar, hSame⟩
      have hE : e < t.str.length := by omega
      have hAt := getD_eq_getElem t.str '-' hE
      rw [hSame, t.digitsBefore_succ hE] at hLeft
      rw [binLoop, if_pos (Nat.succ_pos ebuf), Nat.add_sub_cancel, hSkip]
      simp only [hAt]
      by_cases hMinus : t.str[e] = '-'
      · have hZero := t.minus_first hE hMinus
        have hNone : ¬ binBase.IsDigit t.str[e] := by
          rw [hMinus]
          exact not_digit_minus
        rw [if_neg hNone, hZero] at hLeft
        rw [if_pos hMinus, if_pos hZero, ← hDone hLeft.symm]
      · have hDigit : binBase.IsDigit t.str[e] := by
          rw [hAt] at hChar
          rcases t.mem_str (getElem_mem hE) with h | h | h
          · exact absurd h hMinus
          · exact absurd h hChar
          · exact h
        rw [if_pos hDigit] at hLeft
        have hIdx : idx < t.digits.length := by
          by_contra hNot
          rw [List.drop_eq_nil_of_le (by omega)] at hLeft
          cases hLeft
        rw [List.drop_eq_getElem_cons hIdx] at hLeft
        rcases List.cons_eq_cons.mp hLeft with ⟨hCh, hRest⟩
        rcases digitBit_isSome hDigit 0 with ⟨bit, hBit⟩
        have hBitOf : t.bitOf idx = bit := by
          have hOne : binBase.width = 1 := rfl
          unfold bitOf
          rw [hOne, Nat.div_one, Nat.mod_one, getD_eq_getElem _ _ hIdx, ← hCh, hBit]
          rfl
        have hNext := @binLoop_spec hFirst rounds e (idx + 1)
          (tval.set idx bit) hRest (by omega) (by omega)
          (by rw [length_set]; exact hLen)
        have hBit' : digitBit binValue t.str[e] 0 = some bit := hBit
        rw [if_neg hMinus, if_pos (by omega), hBit']
        simp only
        have hTake : (tval.set idx bit).take (idx + 1) = tval.take idx ++ [bit] := by
          rw [List.take_succ_eq_append_getElem (by rw [length_set]; omega),
            List.getElem_set_self, List.take_set_of_le (le_refl idx)]
        have hCount : t.digits.length - idx = t.digits.length - (idx + 1) + 1 := by omega
        rw [hNext, hTake, List.append_assoc, hCount, List.range'_succ, map_cons, hBitOf]
        rfl

/- The bits of the digits when the loop is done. -/
theorem binStr_eq (hFirst : t.FirstTwo) (n : Nat) :
    vpipBinStrToVec4 n t.str =
      some (finish n t.negative ((List.range t.bitCount).map t.bitOf)) := by
  have hStr := t.length_str_lt
  have hDigits := t.length_digits
  have hCount : t.bitCount = t.digits.length := by
    unfold bitCount unsigned
    have hOne : binBase.width = 1 := rfl
    rw [hOne]
    omega
  have hSize : unsigned (t.str.length - skipChars t.str) = t.bitCount := by
    unfold unsigned
    omega
  have hAll : t.digitsBefore t.str.length = t.digits.drop 0 := by
    unfold digitsBefore
    rw [List.take_length]
    rfl
  have hLoop := @binLoop_spec t hFirst (t.str.length + 1)
    t.str.length 0 (List.replicate t.bitCount .x) hAll (by omega)
    (le_refl _) (by rw [List.length_replicate, hCount])
  have hSign : decide (t.str.head? = some '-') = t.negative := by
    rw [Bool.eq_iff_iff, decide_eq_true_eq]
    exact t.head_str
  unfold vpipBinStrToVec4
  simp only [hSize, hLoop, List.take_zero, nil_append, hSign, Nat.sub_zero]
  rw [← List.range_eq_range', ← hCount]

theorem skipBack_past {b : Nat} (hB : b ≤ 1) (hUnder : t.str.getD b '-' = '_') :
    ∀ {ebuf e : Nat}, b ≤ ebuf → skipBack t.str ebuf = some e →
      b < e ∧ e ≤ ebuf ∧ t.str.getD e '-' ≠ '_'
| 0, e, hLe, hSkip => by
    have hZero : b = 0 := Nat.le_zero.mp hLe
    rw [hZero] at hUnder
    rw [skipBack, if_pos hUnder] at hSkip
    cases hSkip
| ebuf + 1, e, hLe, hSkip => by
    rw [skipBack] at hSkip
    by_cases hChar : t.str.getD (ebuf + 1) '-' = '_'
    · rw [if_pos hChar] at hSkip
      by_cases hPos : 0 < ebuf
      · rw [if_pos hPos] at hSkip
        rcases skipBack_past hB hUnder (by omega) hSkip with ⟨hPast, hBelow, hNot⟩
        exact ⟨hPast, by omega, hNot⟩
      · rw [if_neg hPos] at hSkip
        cases hSkip
    · rw [if_neg hChar] at hSkip
      cases hSkip
      refine ⟨lt_of_le_of_ne hLe ?_, le_refl _, hChar⟩
      intro hEq
      rw [hEq] at hUnder
      exact hChar hUnder

/- An underscore among the first two characters fails the
   assertion of the loop. -/
theorem binLoop_fails {b : Nat} (hB : b ≤ 1) (hUnder : t.str.getD b '-' = '_') :
    ∀ {rounds ebuf idx : Nat} {tval : Vec4},
      b < ebuf → ebuf ≤ t.str.length →
      binLoop t.str rounds ebuf idx tval = none
| 0, _, _, _, _, _ => rfl
| rounds + 1, ebuf, idx, tval, hPast, hIn => by
    rw [binLoop, if_pos (by omega)]
    cases hSkip : skipBack t.str (ebuf - 1) with
    | none => rfl
    | some e =>
      rcases t.skipBack_past hB hUnder (by omega) hSkip with ⟨hNext, hLe, hChar⟩
      have hE : e < t.str.length := by omega
      have hAt := getD_eq_getElem t.str '-' hE
      have hMinus : t.str[e] ≠ '-' := by
        intro h
        have hZero := t.minus_first hE h
        omega
      have hDigit : binBase.IsDigit t.str[e] := by
        rw [hAt] at hChar
        rcases t.mem_str (getElem_mem hE) with h | h | h
        · exact absurd h hMinus
        · exact absurd h hChar
        · exact h
      rcases digitBit_isSome hDigit 0 with ⟨bit, hBit⟩
      have hBit' : digitBit binValue t.str[e] 0 = some bit := hBit
      simp only [hAt]
      rw [if_neg hMinus]
      by_cases hIdx : idx < tval.length
      · rw [if_pos hIdx, hBit']
        exact binLoop_fails hB hUnder hNext (by omega)
      · rw [if_neg hIdx]

theorem binStr_fails (hFirst : ¬ t.FirstTwo) (n : Nat) : vpipBinStrToVec4 n t.str = none := by
  have hUnder : ∃ b ≤ 1, t.str.getD b '-' = '_' := by
    by_cases hZero : t.str.getD 0 '-' = '_'
    · exact ⟨0, by omega, hZero⟩
    · refine ⟨1, le_refl 1, ?_⟩
      by_contra hOne
      exact hFirst ⟨hZero, hOne⟩
  rcases hUnder with ⟨b, hB, hUnder⟩
  have hIn : b < t.str.length := by grind
  have hLoop := fun tval => @binLoop_fails t b hB hUnder
    (t.str.length + 1) t.str.length 0 tval hIn (le_refl _)
  unfold vpipBinStrToVec4
  simp only [hLoop]

end NumberText

end VpipText

end EpicSim
