import EpicSim.Lib.CText
import EpicSim.Ivl.VerinumArith
import Mathlib.Data.List.FinRange

/-
  String constants of the compiler: numbers made of bytes, and
  the text that they are written as.

  Concatenation and padding of such numbers go through the
  text, where a byte that does not print is an octal escape.
-/

----
-- Text
----

namespace EpicSim

/- The bytes of a `string`, which may hold zeros. -/
abbrev ByteString := List (Fin 256)

/- At most so many octal digits, added to a byte. -/
def octalDigits : Nat → Fin 256 → ByteString → Fin 256 × ByteString
| 0, byte_val, str => (byte_val, str)
| _ + 1, byte_val, [] => (byte_val, [])
| n + 1, byte_val, c :: str =>
  if 48 ≤ c ∧ c ≤ 55 then
    octalDigits n (8 * byte_val + c - 48) str
  else (byte_val, c :: str)

/- The loop of `process_verilog_string_quotes`; it asserts that
   no backslash ends the text. -/
def quotesLoop : Nat → ByteString → Option ByteString
| _, [] => some []
| 0, _ => none
| n + 1, c :: str =>
  if c = 92 then
    match str with
    | [] => none
    | d :: rest =>
      if d = 110 then (quotesLoop n rest).map (10 :: ·)
      else if d = 116 then (quotesLoop n rest).map (9 :: ·)
      else if 48 ≤ d ∧ d ≤ 55 then
        let digits := octalDigits 3 0 (d :: rest)
        (quotesLoop n digits.2).map (digits.1 :: ·)
      else (quotesLoop n rest).map (d :: ·)
  else (quotesLoop n str).map (c :: ·)

/- The length of a text in an `int`, where no loop runs below
   zero. -/
def intLength (str : ByteString) : Nat :=
  (BitVec.ofNat 32 str.length).toInt.toNat

/- `process_verilog_string_quotes`. -/
def processVerilogStringQuotes (str : ByteString) : Option ByteString :=
  quotesLoop (intLength str) (str.take (intLength str))

/- `isprint`, of the C locale. -/
def isprint (c : Fin 256) : Bool := 32 ≤ c && c ≤ 126

/- `snprintf(tmp, sizeof tmp, "\\%03o", c)`. -/
def octalText (c : Fin 256) : ByteString :=
  [92, 48 + c / 64, 48 + c / 8 % 8, 48 + c % 8]

/- The text of one byte. -/
def charText (c : Fin 256) : ByteString :=
  if c = 34 ∨ c = 92 then octalText c
  else if isprint c then [c]
  else octalText c

/- The bits of a byte, lowest first. -/
def charBits (c : Fin 256) : List VerinumV :=
  (List.range 8).map (fun i => VerinumV.ofBool (c.val.testBit i))

----
-- Numbers
----

open TwosComplement

/- The bits of a byte that are one. -/
def Verinum.charVal (v : Verinum) (k : Nat) : Fin 256 :=
  ⟨low (fun i => v.bit (8 * k + i)) 8, low_lt _ 8⟩

/- `as_string`, from the highest byte; it asserts that there
   are only whole bytes. -/
def Verinum.asString (v : Verinum) : Option ByteString :=
  if v.len % 8 ≠ 0 then none
  else some ((List.range (v.len / 8)).reverse.flatMap (fun k => charText (v.charVal k)))

/- A number with `string_flag_`. -/
structure StringVerinum extends Verinum where
  string_flag : Bool
deriving DecidableEq

namespace StringVerinum

/- A number that is not a string. -/
def ofNumber (v : Verinum) : StringVerinum where
  toVerinum := v
  string_flag := false

/- The bits of `verinum(const string& s)`, once its escapes are
   undone: "" is eight bits of zero. -/
def bitsOfString (str : ByteString) : List VerinumV :=
  let nbits := Verinum.unsigned (str.length * 8)
  if nbits = 0 then List.replicate 8 .v0
  else (str.take (nbits / 8)).reverse.flatMap charBits

/- `verinum(const string& s)`. -/
def ofString (s : ByteString) : Option StringVerinum :=
  (processVerilogStringQuotes s).map fun str =>
    { bits := bitsOfString str
      has_len := true
      has_sign := false
      is_single := false
      string_flag := true }

/- `concat`, of numbers that are not both strings; writing past
   the end of the result is an assertion. -/
def concatBits (left right : Verinum) : Option Verinum :=
  if Verinum.unsigned (left.len + right.len) <
      left.len + right.len then none
  else some (Verinum.ofBits (right.bits ++ left.bits) true)

/- `concat`. -/
def concat (left right : StringVerinum) : Option StringVerinum :=
  if left.string_flag && right.string_flag then do
    let tmp ← left.asString
    let tmp' ← right.asString
    ofString (tmp ++ tmp')
  else
    (concatBits left.toVerinum right.toVerinum).map ofNumber

/- The bit that `pad_to_width` continues a number with. -/
def padOf (that : Verinum) : VerinumV :=
  let pad := that.get (that.len - 1)
  let pad :=
    if pad = .v1 ∧ !that.has_sign ∧ !that.is_single then .v0
    else pad
  if that.has_len && !that.has_sign && !that.is_single then
    if pad = .vx ∨ pad = .vz then .v0 else pad
  else pad

/- `pad_to_width`. -/
def padToWidth (that : StringVerinum) (width : Nat) : Option StringVerinum :=
  if width ≤ that.len then some that
  else if that.len = 0 then
    some (ofNumber ((Verinum.fill .v0 width that.has_len).withSign that.has_sign))
  else
    let val := (Verinum.ofBits (that.bits ++
      List.replicate (width - that.len) (padOf that.toVerinum))
      that.has_len).withSign that.has_sign
    if that.string_flag ∧ width % 8 = 0 then
      val.asString.bind ofString
    else some (ofNumber val)

end StringVerinum

end EpicSim

----
-- Escapes
----

namespace EpicSim

theorem octalDigits_octalText (c : Fin 256) (str : ByteString) :
    octalDigits 3 0 ((48 + c / 64) :: (48 + c / 8 % 8) :: (48 + c % 8) :: str) = (c, str) := by
  have hDigits : ∀ c : Fin 256,
      (48 ≤ 48 + c / 64 ∧ 48 + c / 64 ≤ 55) ∧
      (48 ≤ 48 + c / 8 % 8 ∧ 48 + c / 8 % 8 ≤ 55) ∧
      (48 ≤ 48 + c % 8 ∧ 48 + c % 8 ≤ 55) ∧
      8 * (8 * (8 * 0 + (48 + c / 64) - 48) + (48 + c / 8 % 8) - 48) + (48 + c % 8) - 48 = c := by
    decide +kernel
  rcases hDigits c with ⟨hHigh, hMid, hLow, hSum⟩
  rw [octalDigits, if_pos hHigh, octalDigits, if_pos hMid,
    octalDigits, if_pos hLow, octalDigits, hSum]

theorem quotesLoop_plain {c : Fin 256} (h : c ≠ 92) (n : Nat) (str : ByteString) :
    quotesLoop (n + 1) (c :: str) = (quotesLoop n str).map (c :: ·) := by
  exact if_neg h

/- The text of a byte is read as this byte, whatever text
   follows. -/
theorem quotesLoop_charText (n : Nat) (c : Fin 256) (str : ByteString) :
    quotesLoop (n + 1) (charText c ++ str) = (quotesLoop n str).map (c :: ·) := by
  have hOctal : quotesLoop (n + 1) (octalText c ++ str) = (quotesLoop n str).map (c :: ·) := by
    have hFirst : ∀ c : Fin 256, 48 + c / 64 ≠ 110 ∧
        48 + c / 64 ≠ 116 ∧
          48 ≤ 48 + c / 64 ∧ 48 + c / 64 ≤ 55 := by
      decide +kernel
    rcases hFirst c with ⟨hNotN, hNotT, hDigit⟩
    unfold octalText
    simp only [List.cons_append, List.nil_append]
    rw [quotesLoop, if_pos rfl]
    rw [if_neg hNotN, if_neg hNotT, if_pos hDigit, octalDigits_octalText]
  unfold charText
  split_ifs with hQuote hPrint
  · exact hOctal
  · exact quotesLoop_plain (fun h => hQuote (Or.inr h)) n str
  · exact hOctal

/- A whole text is read as its bytes. -/
theorem quotesLoop_flatMap (bytes : ByteString) (n : Nat) (hn : bytes.length ≤ n) :
    quotesLoop n (bytes.flatMap charText) = some bytes := by
  induction bytes generalizing n with
  | nil => cases n <;> rfl
  | cons c bytes ih =>
    rw [List.length_cons] at hn
    rcases Nat.exists_eq_succ_of_ne_zero (show n ≠ 0 by omega) with ⟨m, rfl⟩
    rw [List.flatMap_cons, quotesLoop_charText, ih m (by omega)]
    rfl

theorem charText_length (c : Fin 256) : 0 < (charText c).length ∧ (charText c).length ≤ 4 := by
  unfold charText octalText
  split_ifs <;> simp

theorem flatMap_charText_length (bytes : ByteString) :
    bytes.length ≤ (bytes.flatMap charText).length ∧
      (bytes.flatMap charText).length ≤ 4 * bytes.length := by
  induction bytes with
  | nil => exact ⟨Nat.le_refl _, Nat.le_refl _⟩
  | cons c bytes ih =>
    have hOne := charText_length c
    rw [List.flatMap_cons, List.length_append, List.length_cons]
    omega

theorem intLength_of_lt {str : ByteString} (h : str.length < 2 ^ 31) :
    intLength str = str.length := by
  unfold intLength
  rw [BitVec.toInt_eq_toNat_cond, BitVec.toNat_ofNat,
    Nat.mod_eq_of_lt (by omega), if_pos (by omega)]
  exact Int.toNat_natCast _

/- A text that an `int` can count. -/
theorem process_flatMap {bytes : ByteString} (h : bytes.length < 2 ^ 29) :
    processVerilogStringQuotes (bytes.flatMap charText) = some bytes := by
  have hLength := flatMap_charText_length bytes
  unfold processVerilogStringQuotes
  rw [intLength_of_lt (by omega), List.take_length]
  exact quotesLoop_flatMap bytes _ hLength.1

----
-- Whole Bytes
----

open TwosComplement

theorem charBits_length (c : Fin 256) : (charBits c).length = 8 := by
  unfold charBits
  rw [List.length_map, List.length_range]

theorem charBits_charVal (v : Verinum) (k : Nat) :
    charBits (v.charVal k) = (List.range 8).map (fun i => VerinumV.ofBool (v.bit (8 * k + i))) := by
  apply List.map_congr_left
  intro i hi
  rw [List.mem_range] at hi
  change VerinumV.ofBool ((low _ 8).testBit i) = _
  rw [testBit_low hi]

/- The bytes of a number, from the lowest. -/
def Verinum.chars (v : Verinum) : ByteString :=
  (List.range (v.len / 8)).map v.charVal

/- The bytes of a defined number are its bits. -/
theorem flatMap_chars {v : Verinum} (h : v.Defined) (hBytes : v.len % 8 = 0) :
    v.chars.flatMap charBits = v.bits := by
  have hPrefix : ∀ k ≤ v.len / 8,
      ((List.range k).map v.charVal).flatMap charBits = v.bits.take (8 * k) := by
    intro k hk
    induction k with
    | zero => rfl
    | succ k ih =>
      rw [List.range_succ, List.map_append, List.flatMap_append, ih (by omega),
        List.map_singleton, List.flatMap_singleton, charBits_charVal]
      apply List.ext_getElem
      · have hLen : v.bits.length = v.len := rfl
        grind
      · intro i hi hi'
        rw [List.length_take] at hi'
        rw [List.getElem_take]
        by_cases hLow : i < 8 * k
        · grind
        · rw [List.getElem_append_right (by
            rw [List.length_take]
            omega), List.getElem_map, List.getElem_range,
            List.length_take, Nat.min_eq_left (by omega),
            show 8 * k + (i - 8 * k) = i by omega]
          have hGet := Verinum.get_of_defined h (show i < v.len by omega)
          rw [← hGet]
          exact List.getD_eq_getElem _ _ _
  unfold Verinum.chars
  rw [hPrefix _ (Nat.le_refl _), show 8 * (v.len / 8) = v.len by omega]
  exact List.take_length

theorem asString_eq {v : Verinum} (hBytes : v.len % 8 = 0) :
    v.asString = some (v.chars.reverse.flatMap charText) := by
  unfold Verinum.asString Verinum.chars
  rw [if_neg (not_not_intro hBytes), ← List.map_reverse, List.flatMap_map]

theorem chars_length (v : Verinum) : v.chars.length = v.len / 8 := by
  unfold Verinum.chars
  rw [List.length_map, List.length_range]

namespace StringVerinum

/- A text of bytes that a counter of bits can hold. -/
theorem bitsOfString_eq {str : ByteString} (hPos : str ≠ []) (h : str.length < 2 ^ 29) :
    bitsOfString str = str.reverse.flatMap charBits := by
  have hLength : 0 < str.length := List.length_pos_iff.mpr hPos
  unfold bitsOfString
  rw [Verinum.unsigned_of_lt (by omega)]
  rw [if_neg (by omega), Nat.mul_div_cancel _ (by decide), List.take_length]

/- A defined number of whole bytes, marked as a string.  Its
   flags for a length and a sign may have been set since. -/
structure StringNumber (v : StringVerinum) : Prop where
  string_flag : v.string_flag = true
  defined : v.Defined
  bytes : v.len % 8 = 0
  len_pos : 0 < v.len
  stored : v.len < 2 ^ 32
  is_single : v.is_single = false

theorem charBits_defined (c : Fin 256) : ∀ b ∈ charBits c, b = .v0 ∨ b = .v1 := by
  intro b hb
  rcases List.mem_map.mp hb with ⟨i, _, rfl⟩
  cases c.val.testBit i
  · exact Or.inl rfl
  · exact Or.inr rfl

theorem flatMap_charBits_length (str : ByteString) :
    (str.flatMap charBits).length = 8 * str.length := by
  induction str with
  | nil => rfl
  | cons c str ih =>
    rw [List.flatMap_cons, List.length_append, charBits_length, List.length_cons]
    omega

/- Every constant that is made from a text is a string. -/
theorem ofString_number {s : ByteString} {v : StringVerinum} (h : ofString s = some v) :
    v.StringNumber ∧ v.has_len = true ∧ v.has_sign = false := by
  rcases Option.map_eq_some_iff.mp h with ⟨str, _, rfl⟩
  have hBits : (bitsOfString str).length % 8 = 0 ∧
      0 < (bitsOfString str).length ∧
      (bitsOfString str).length < 2 ^ 32 ∧
      ∀ b ∈ bitsOfString str, b = .v0 ∨ b = .v1 := by
    unfold bitsOfString
    simp only
    have hUnsigned : Verinum.unsigned (str.length * 8) ≤ str.length * 8 := Verinum.unsigned_le _
    have hLt : Verinum.unsigned (str.length * 8) < 2 ^ 32 := Nat.mod_lt _ (by decide)
    have hMod : Verinum.unsigned (str.length * 8) % 8 = 0 := by
      unfold Verinum.unsigned
      omega
    generalize Verinum.unsigned (str.length * 8) = nbits at *
    split_ifs with hZero
    · simp
    · rw [flatMap_charBits_length, List.length_reverse,
        List.length_take]
      refine ⟨by omega, by omega, by omega, fun b hb => ?_⟩
      rcases List.mem_flatMap.mp hb with ⟨c, _, hb⟩
      exact charBits_defined c b hb
  refine ⟨⟨rfl, ?_, hBits.1, hBits.2.1, hBits.2.2.1, rfl⟩, rfl, rfl⟩
  rw [Verinum.defined_iff]
  intro idx hIdx
  apply hBits.2.2.2
  unfold Verinum.get
  rw [List.getD_eq_getElem _ _ hIdx]
  exact List.getElem_mem _

end StringVerinum

end EpicSim

----
-- Text And Back
----

namespace EpicSim

open TwosComplement

namespace StringVerinum

/- A text of escaped bytes makes a number of these bytes. -/
theorem ofString_flatMap {bytes : ByteString} (hPos : bytes ≠ []) (h : bytes.length < 2 ^ 29) :
    ∃ res, ofString (bytes.flatMap charText) = some res ∧
      res.StringNumber ∧
        res.bits = bytes.reverse.flatMap charBits := by
  have hOf : ofString (bytes.flatMap charText) =
      some
        { bits := bitsOfString bytes
          has_len := true
          has_sign := false
          is_single := false
          string_flag := true } := by
    unfold ofString
    rw [process_flatMap h]
    rfl
  exact ⟨_, hOf, (ofString_number hOf).1, bitsOfString_eq hPos h⟩

theorem chars_ne_nil {v : Verinum} (hPos : 0 < v.len) (hBytes : v.len % 8 = 0) : v.chars ≠ [] := by
  apply List.ne_nil_of_length_pos
  rw [chars_length]
  omega

/- The text of a number of whole bytes makes its bits. -/
theorem ofString_asString {v : Verinum} (hDefined : v.Defined) (hBytes : v.len % 8 = 0)
    (hPos : 0 < v.len) (hStored : v.len < 2 ^ 32) :
    ∃ text res, v.asString = some text ∧
      ofString text = some res ∧ res.StringNumber ∧
        res.bits = v.bits := by
  have hNe := chars_ne_nil hPos hBytes
  rcases @ofString_flatMap v.chars.reverse
      (fun h => hNe (List.reverse_eq_nil_iff.mp h))
      (by rw [List.length_reverse, chars_length]; omega) with
    ⟨res, hOf, hNumber, hBits⟩
  rw [List.reverse_reverse, flatMap_chars hDefined hBytes] at hBits
  exact ⟨_, res, asString_eq hBytes, hOf, hNumber, hBits⟩

theorem concat_bits {left right : StringVerinum} (hLeft : left.StringNumber)
    (hRight : right.StringNumber) (hRoom : left.len + right.len < 2 ^ 32) :
    ∃ res, concat left right = some res ∧ res.StringNumber ∧
      res.bits = right.bits ++ left.bits := by
  have hNe := chars_ne_nil hLeft.len_pos hLeft.bytes
  rcases @ofString_flatMap
      (left.chars.reverse ++ right.chars.reverse)
      (fun h => hNe (List.reverse_eq_nil_iff.mp (List.append_eq_nil_iff.mp h).1))
      (by
        rw [List.length_append, List.length_reverse,
          List.length_reverse, chars_length, chars_length]
        omega) with
    ⟨res, hOf, hNumber, hBits⟩
  rw [List.reverse_append, List.reverse_reverse, List.reverse_reverse, List.flatMap_append,
    flatMap_chars hLeft.defined hLeft.bytes, flatMap_chars hRight.defined hRight.bytes] at hBits
  refine ⟨res, ?_, hNumber, hBits⟩
  unfold concat
  rw [hLeft.string_flag, hRight.string_flag, asString_eq hLeft.bytes, asString_eq hRight.bytes]
  change ofString _ = some res
  rw [← List.flatMap_append, hOf]

/- The other path of `concat`. -/
theorem concatBits_eq {left right : Verinum} (hRoom : left.len + right.len < 2 ^ 32) :
    concatBits left right = some (Verinum.ofBits (right.bits ++ left.bits) true) := by
  unfold concatBits
  rw [Verinum.unsigned_of_lt hRoom, if_neg (Nat.lt_irrefl _)]

/- A string is continued by zeros, or by ones if it has been
   given a sign and is negative. -/
theorem padOf_eq {v : StringVerinum} (h : v.StringNumber) :
    padOf v.toVerinum = VerinumV.ofBool (v.has_sign && v.bit (v.len - 1)) := by
  have hPos := h.len_pos
  unfold padOf
  rw [Verinum.get_of_defined h.defined (by omega), h.is_single]
  cases v.bit (v.len - 1) <;> cases v.has_sign <;>
    cases v.has_len <;> rfl

theorem padToWidth_bits {v : StringVerinum} (h : v.StringNumber) {width : Nat}
    (hBytes : width % 8 = 0) (hStored : width < 2 ^ 32) :
    ∃ res, padToWidth v width = some res ∧ res.StringNumber ∧
      res.bits = v.bits ++ List.replicate (width - v.len)
        (VerinumV.ofBool (v.has_sign && v.bit (v.len - 1))) := by
  have hPos := h.len_pos
  unfold padToWidth
  by_cases hWide : width ≤ v.len
  · rw [if_pos hWide]
    refine ⟨v, rfl, h, ?_⟩
    rw [Nat.sub_eq_zero_of_le hWide]
    exact (List.append_nil _).symm
  · rw [if_neg hWide, if_neg (by omega)]
    rw [if_pos ⟨h.string_flag, hBytes⟩, padOf_eq h]
    generalize hVal : (Verinum.ofBits (v.bits ++
      List.replicate (width - v.len) (VerinumV.ofBool
        (v.has_sign && v.bit (v.len - 1)))) v.has_len).withSign v.has_sign = val
    have hBits : val.bits = v.bits ++
        List.replicate (width - v.len) (VerinumV.ofBool (v.has_sign && v.bit (v.len - 1))) := by
      rw [← hVal]
      rfl
    have hLen : val.len = width := by
      have hLen : v.bits.length = v.len := rfl
      unfold Verinum.len
      rw [hBits, List.length_append, List.length_replicate]
      omega
    have hDefined : val.Defined := by
      rw [Verinum.defined_iff]
      intro idx hIdx
      unfold Verinum.get
      rw [hBits]
      by_cases hLow : idx < v.len
      · rw [List.getD_append _ _ _ _ hLow]
        exact (Verinum.defined_iff v.toVerinum).mp h.defined idx hLow
      · rw [List.getD_append_right _ _ _ _ (Nat.not_lt.mp hLow),
          List.getD_replicate _ (by
            have hLen' : v.bits.length = v.len := rfl
            omega)]
        cases v.has_sign && v.bit (v.len - 1)
        · exact Or.inl rfl
        · exact Or.inr rfl
    rcases ofString_asString hDefined (by rw [hLen]; exact hBytes) (by omega) (by omega) with
      ⟨text, res, hText, hOf, hNumber, hRes⟩
    grind

/- String constants survive their text: on their own, joined,
   and padded to whole bytes. -/
theorem text_exact :
    (∀ s v, ofString s = some v →
      ∃ text v', v.asString = some text ∧ ofString text = some v' ∧ v'.bits = v.bits) ∧
    (∀ left right : StringVerinum,
      left.StringNumber → right.StringNumber →
        left.len + right.len < 2 ^ 32 →
          ∃ res plain, concat left right = some res ∧
            concatBits left.toVerinum right.toVerinum = some plain ∧
            res.bits = right.bits ++ left.bits ∧
            res.len = left.len + right.len ∧
            plain.bits = res.bits) ∧
    (∀ (v : StringVerinum) (width : Nat), v.StringNumber →
      width % 8 = 0 → width < 2 ^ 32 →
        ∃ res, padToWidth v width = some res ∧
          res.bits = v.bits ++ List.replicate (width - v.len)
            (VerinumV.ofBool (v.has_sign && v.bit (v.len - 1)))) := by
  refine ⟨fun s v hOf => ?_, fun left right hLeft hRight hRoom =>
    ?_, fun v width h hBytes hStored => ?_⟩
  · have h := (ofString_number hOf).1
    rcases ofString_asString h.defined h.bytes h.len_pos
        h.stored with ⟨text, res, hText, hRes, _, hBits⟩
    exact ⟨text, res, hText, hRes, hBits⟩
  · rcases concat_bits hLeft hRight hRoom with ⟨res, hRes, _, hBits⟩
    refine ⟨res, _, hRes, concatBits_eq hRoom, hBits, ?_, hBits.symm⟩
    unfold Verinum.len
    rw [hBits, List.length_append, Nat.add_comm]
  · rcases padToWidth_bits h hBytes hStored with ⟨res, hRes, _, hBits⟩
    exact ⟨res, hRes, hBits⟩

/- A byte that does not print and a quote, padded. -/
theorem text_exact_quote :
    ∃ v res, ofString [92, 51, 55, 55, 34] = some v ∧
      padToWidth v 24 = some res ∧
        res.bits = v.bits ++ List.replicate 8 .v0 := by
  have hOf : ∃ v, ofString [92, 51, 55, 55, 34] = some v ∧
      v.len = 16 := ⟨_, rfl, by decide⟩
  rcases hOf with ⟨v, hOf, hLen⟩
  have hNumber := ofString_number hOf
  rcases text_exact.2.2 v 24 hNumber.1 (by decide) (by decide) with ⟨res, hRes, hBits⟩
  rw [hNumber.2.2, hLen] at hBits
  exact ⟨v, res, hOf, hRes, hBits⟩

/- The byte 255, given a sign, is continued by ones. -/
theorem signed_string_padded :
    ¬ ∀ (v : StringVerinum) (width : Nat), v.StringNumber →
      width % 8 = 0 → width < 2 ^ 32 →
        ∃ res, padToWidth v width = some res ∧
          res.bits = v.bits ++ List.replicate (width - v.len) .v0 := by
  intro h
  rcases h
      { bits := List.replicate 8 .v1
        has_len := true
        has_sign := true
        is_single := false
        string_flag := true } 16
      ⟨rfl, rfl, rfl, by decide, by decide, rfl⟩ rfl (by decide)
    with ⟨res, hRes, hBits⟩
  have hOnes : padToWidth
      { bits := List.replicate 8 .v1
        has_len := true
        has_sign := true
        is_single := false
        string_flag := true } 16 =
      some
        { bits := List.replicate 16 .v1
          has_len := true
          has_sign := false
          is_single := false
          string_flag := true } := by
    decide
  rw [hOnes] at hRes
  rw [← Option.some.inj hRes] at hBits
  exact absurd hBits (by decide)

end StringVerinum

end EpicSim
