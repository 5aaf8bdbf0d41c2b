import EpicSim.Vvp.VpipRead

/-
  Vectors written and read back, and numbers read.

  A written digit is the number of its bits, so that reading
  the text gives the vector back.  What a reader makes of any
  other text is the number written exactly where its digits
  leave room for the sign.
-/

namespace EpicSim

open List (getD_eq_getElem length_set range'_succ map_cons length_map length_range mem_reverse
  mem_map mem_range length_replicate)
open Nat (div_add_mod mod_lt div_eq_of_lt mod_eq_of_lt)

namespace VpipText

open VvpBit4

----
-- Digits Of Two-State Bits
----

/- Bits of a number from a place on, two places apart. -/
def spread (x place : Nat) : Nat → Nat
| 0 => 0
| part + 1 => spread x place part + (x.testBit (place + part)).toNat * 4 ^ part

/- A digit of a number. -/
def digitAt (width x k : Nat) : Nat := x / 2 ^ (width * k) % 2 ^ width

variable {x width size n : Nat}

theorem spread_congr {y p q part : Nat}
    (hSame : ∀ j < part, x.testBit (p + j) = y.testBit (q + j)) :
    spread x p part = spread y q part := by
  induction part with
  | zero => rfl
  | succ part ih =>
    rw [spread, spread, hSame part (Nat.lt_succ_self part),
      ih fun j hJ => hSame j (Nat.lt_succ_of_lt hJ)]

theorem testBit_digitAt {k j : Nat} (hJ : j < width) :
    (digitAt width x k).testBit j = x.testBit (width * k + j) := by
  unfold digitAt
  rw [Nat.testBit_mod_two_pow, decide_eq_true hJ, Bool.true_and,
    Nat.testBit_div_two_pow, Nat.add_comm]

theorem spread_digitAt (width x k : Nat) :
    spread x (width * k) width = spread (digitAt width x k) 0 width :=
  spread_congr fun j hJ => by
    rw [Nat.zero_add, testBit_digitAt hJ]

/- Bits that are two places apart leave the other places free. -/
theorem three_mul_spread_lt (x place part : Nat) : 3 * spread x place part < 4 ^ part := by
  induction part with
  | zero => exact Nat.one_pos
  | succ part ih =>
    rw [spread]
    cases x.testBit (place + part) <;> simp <;> omega

/- The bits of a number without X and Z stay as they are. -/
theorem fillXz_spread (width x place part : Nat) :
    fillXz width part (spread x place part) = spread x place part := by
  have hLt := three_mul_spread_lt x place part
  unfold fillXz
  by_cases hPart : part = 0
  · rw [if_pos hPart]
  · have hFour : 4 ^ part = 4 * 4 ^ (part - 1) := by
      rw [← pow_succ', Nat.sub_add_cancel (by omega)]
    rw [if_neg hPart, if_neg (by omega), if_neg (by omega)]

/- The digits of a table are read as their numbers. -/
structure WriterTable (base : TextBase) where
  table : Nat → Char
  value_table : ∀ d, d < 2 ^ base.width → base.value (table (spread d 0 base.width)) = some d
  table_ne_nul : ∀ d, d < 2 ^ base.width → table (spread d 0 base.width) ≠ nul

def hexTable : WriterTable hexBase :=
  ⟨digitTable 4 hexDigits, by decide, by decide⟩

def octTable : WriterTable octBase :=
  ⟨digitTable 3 octDigits, by decide, by decide⟩

----
-- The Loop Of The Writers
----

/- The bits of a number from a place on. -/
def bitsFrom (x idx len : Nat) : Vec4 :=
  (List.range' idx len).map fun i => if x.testBit i then .one else .zero

theorem bitsFrom_zero (n x : Nat) : bitsFrom x 0 n = ofNat n x := by
  unfold bitsFrom ofNat
  rw [List.range_eq_range']

/- What the loop has done before a place: the digits of `size`
   that are complete are in the buffer, and the bits of the next
   one are in `val`. -/
structure Written (width : Nat) (table : Nat → Char) (x size nbuf idx : Nat) (buf : List Char)
    (slen val : Nat) : Prop where
  length : buf.length = nbuf
  done : buf.getD size ' ' = nul
  place : slen + idx / width = size
  part : val = spread x (width * (idx / width)) (idx % width)
  chars : ∀ k < idx / width, buf.getD (size - 1 - k) nul = table (spread x (width * k) width)

variable {buf : List Char} {idx width : Nat}

theorem putChar_eq (hLt : idx < buf.length) (ch : Char) :
    putChar buf idx ch = some (buf.set idx ch) :=
  if_pos hLt

theorem getD_set_self (hLt : idx < buf.length) (ch other : Char) :
    (buf.set idx ch).getD idx other = ch := by
  rw [getD_eq_getElem _ _ (by rw [length_set]; exact hLt), List.getElem_set_self]

theorem getD_set_ne (buf : List Char) {i j : Nat} (hNe : i ≠ j) (ch other : Char) :
    (buf.set i ch).getD j other = buf.getD j other := by
  rw [List.getD_eq_getElem?_getD, List.getD_eq_getElem?_getD, List.getElem?_set_ne hNe]

theorem succ_div_mod (hPos : 0 < width) :
    (idx % width + 1 = width → (idx + 1) / width = idx / width + 1 ∧ (idx + 1) % width = 0) ∧
    (idx % width + 1 ≠ width →
      (idx + 1) / width = idx / width ∧
        (idx + 1) % width = idx % width + 1) := by
  have hSplit := div_add_mod idx width
  have hMod := mod_lt idx hPos
  constructor
  · intro hLast
    have hEq : idx + 1 = width * (idx / width + 1) := by
      rw [Nat.mul_succ]
      omega
    rw [hEq, Nat.mul_div_cancel_left _ hPos, Nat.mul_mod_right]
    exact ⟨rfl, rfl⟩
  · intro hInner
    have hEq : idx + 1 = (idx % width + 1) + width * (idx / width) := by omega
    constructor
    · conv_lhs => rw [hEq]
      rw [Nat.add_mul_div_left _ _ hPos, div_eq_of_lt (by omega), Nat.zero_add]
    · conv_lhs => rw [hEq]
      rw [Nat.add_mul_mod_self_left, mod_eq_of_lt (by omega)]

/- The place of a digit in a buffer is the next lower one. -/
theorem Written.val_next {nbuf idx slen val : Nat} {table : Nat → Char}
    (hWritten : Written width table x size nbuf idx buf slen val) :
    val + digitCode (if x.testBit idx then .one else .zero) * 4 ^ (idx % width) =
      spread x (width * (idx / width)) (idx % width + 1) := by
  rw [spread, div_add_mod, hWritten.part]
  cases x.testBit idx <;> rfl

theorem writeLoop_spec {nbuf : Nat} {table : Nat → Char}
    (hWidth : 0 < width) (hSize : size < nbuf) (hBuf : nbuf < 2 ^ 32) :
    ∀ {len idx slen val : Nat} {buf : List Char},
      Written width table x size nbuf idx buf slen val →
      (idx + len) / width ≤ size →
      ∃ buf' slen' val',
        writeLoop width table (bitsFrom x idx len) idx (buf, slen, val) = some (buf', slen', val') ∧
        Written width table x size nbuf (idx + len) buf' slen' val'
| 0, _, _, _, _, hWritten, _ => ⟨_, _, _, rfl, hWritten⟩
| len + 1, idx, slen, val, buf, hWritten, hIn => by
    have hBits : bitsFrom x idx (len + 1) =
        (if x.testBit idx then .one else .zero) :: bitsFrom x (idx + 1) len := by
      unfold bitsFrom
      rw [range'_succ, map_cons]
    have hVal := hWritten.val_next
    have hSum : idx + (len + 1) = idx + 1 + len := by omega
    have hPlace := hWritten.place
    rw [hSum] at hIn ⊢
    rw [hBits, writeLoop]
    unfold writeStep
    simp only [hVal]
    by_cases hLast : idx % width + 1 = width
    · rcases (succ_div_mod hWidth).1 hLast with ⟨hDiv, hMod⟩
      have hLe : (idx + 1) / width ≤ (idx + 1 + len) / width := Nat.div_le_div_right (by omega)
      have hPos : 0 < slen := by omega
      have hSlen : slen ≤ size := by
        rw [← hPlace]
        exact Nat.le_add_right _ _
      have hLen := hWritten.length
      have hAt : slen - 1 < buf.length := by omega
      rw [if_pos hLast, unsignedPred_eq hPos (by omega), putChar_eq hAt, hLast]
      apply writeLoop_spec hWidth hSize hBuf _ hIn
      constructor
      · rw [length_set]
        exact hWritten.length
      · rw [getD_set_ne _ (by omega)]
        exact hWritten.done
      · omega
      · rw [hMod]
        rfl
      · intro k hK
        rw [hDiv] at hK
        rcases Nat.lt_succ_iff_lt_or_eq.mp hK with hOld | hNew
        · rw [getD_set_ne _ (by omega)]
          exact hWritten.chars k hOld
        · have hSame : size - 1 - k = slen - 1 := by omega
          rw [hSame, getD_set_self hAt, hNew]
    · rcases (succ_div_mod hWidth).2 hLast with ⟨hDiv, hMod⟩
      rw [if_neg hLast]
      apply writeLoop_spec hWidth hSize hBuf _ hIn
      exact ⟨hWritten.length, hWritten.done, by rw [hDiv]; exact hPlace,
        by rw [hDiv, hMod], by rw [hDiv]; exact hWritten.chars⟩

----
-- Written Text
----

/- The number of digits of so many bits. -/
def digitCount (width n : Nat) : Nat := (n + (width - 1)) / width

/- The text that a buffer holds, the last character first. -/
theorem textOf_eq {c : Nat → Char} (hSize : size < buf.length)
    (hDone : buf.getD size ' ' = nul)
    (hChars : ∀ k < size, buf.getD (size - 1 - k) nul = c k) (hNe : ∀ k < size, c k ≠ nul) :
    textOf buf = ((List.range size).map c).reverse := by
  have hTake : buf.take size = ((List.range size).map c).reverse := by
    apply List.ext_getElem
    · grind
    · intro i hI _
      have hLt : i < size := by
        rw [List.length_take] at hI
        omega
      have hChar := hChars (size - 1 - i) (by omega)
      rw [show size - 1 - (size - 1 - i) = i by omega, getD_eq_getElem _ _ (by omega)] at hChar
      rw [List.getElem_take, hChar, List.getElem_reverse, List.getElem_map,
        List.getElem_range, length_map, length_range]
  have hDrop : buf.drop size = nul :: buf.drop (size + 1) := by
    rw [List.drop_eq_getElem_cons hSize]
    rw [getD_eq_getElem _ _ hSize] at hDone
    rw [hDone]
  have hAll : ∀ ch ∈ buf.take size, (ch != nul) = true := by grind
  unfold textOf
  conv_lhs => rw [← List.take_append_drop size buf]
  rw [List.takeWhile_append_of_pos hAll, hDrop,
    List.takeWhile_cons_of_neg (by simp), List.append_nil, hTake]

/- The bits above a number are 0. -/
theorem testBit_above {i : Nat} (hX : x < 2 ^ n) (hLe : n ≤ i) : x.testBit i = false :=
  Nat.testBit_lt_two_pow (lt_of_lt_of_le hX (Nat.pow_le_pow_right (by omega) hLe))

theorem spread_above {place part more : Nat} (hX : x < 2 ^ n) (hLe : n ≤ place + part) :
    spread x place (part + more) = spread x place part := by
  induction more with
  | zero => rfl
  | succ more ih =>
    rw [← Nat.add_assoc, spread, ih, testBit_above hX (by omega)]
    simp

/- The last digit covers the bits that are left. -/
theorem digitCount_cases (hWidth : 0 < width) (n : Nat) :
    n % width = 0 ∧ digitCount width n = n / width ∨
      0 < n % width ∧ digitCount width n = n / width + 1 := by
  have hSplit := div_add_mod n width
  have hMod := mod_lt n hWidth
  unfold digitCount
  by_cases hZero : n % width = 0
  · refine Or.inl ⟨hZero, ?_⟩
    have hEq : n + (width - 1) = (width - 1) + width * (n / width) := by omega
    conv_lhs => rw [hEq]
    rw [Nat.add_mul_div_left _ _ hWidth, div_eq_of_lt (by omega), Nat.zero_add]
  · refine Or.inr ⟨Nat.pos_of_ne_zero hZero, ?_⟩
    have hEq : n + (width - 1) = (n % width - 1) + width * (n / width + 1) := by
      rw [Nat.mul_succ]
      omega
    conv_lhs => rw [hEq]
    rw [Nat.add_mul_div_left _ _ hWidth, div_eq_of_lt (by omega), Nat.zero_add]

/- The buffer holds every digit of the number. -/
theorem digitsVec4ToStr_spec {table : Nat → Char} (hWidth : 0 < width)
    (hX : x < 2 ^ n) (hShort : n + (width - 1) < 2 ^ 32)
    (hSize : digitCount width n < buf.length) (hBuf : buf.length < 2 ^ 32) :
    ∃ buf',
      digitsVec4ToStr width table (ofNat n x) buf = some buf' ∧
      buf'.length = buf.length ∧
      buf'.getD (digitCount width n) ' ' = nul ∧
      ∀ k < digitCount width n,
        buf'.getD (digitCount width n - 1 - k) nul = table (spread x (width * k) width) := by
  have hCount : unsigned (n + (width - 1)) / width = digitCount width n := by
    unfold unsigned
    rw [mod_eq_of_lt hShort]
    rfl
  have hStart : Written width table x (digitCount width n)
      buf.length 0 (buf.set (digitCount width n) nul)
      (digitCount width n) 0 := by
    constructor
    · rw [length_set]
    · exact getD_set_self hSize nul ' '
    · rw [Nat.zero_div, Nat.add_zero]
    · rfl
    · simp
  have hIn : (0 + n) / width ≤ digitCount width n := by
    exact Nat.div_le_div_right (by omega)
  rcases writeLoop_spec hWidth hSize hBuf hStart hIn with ⟨buf', slen, val, hLoop, hWritten⟩
  rw [Nat.zero_add] at hWritten
  rw [bitsFrom_zero] at hLoop
  have hPlace := hWritten.place
  have hRun : digitsVec4ToStr width table (ofNat n x) buf =
      if 0 < slen then putChar buf' (slen - 1) (table val)
      else some buf' := by
    unfold digitsVec4ToStr
    rw [length_ofNat, hCount, if_pos hSize, putChar_eq hSize]
    simp only [Option.bind_eq_bind, Option.bind_some, hLoop]
    rw [hWritten.part, fillXz_spread]
  rw [hRun]
  rcases digitCount_cases hWidth n with ⟨hMod, hEq⟩ | ⟨hMod, hEq⟩
  · rw [if_neg (by omega)]
    refine ⟨buf', rfl, hWritten.length, hWritten.done, ?_⟩
    intro k hK
    exact hWritten.chars k (by omega)
  · have hLen := hWritten.length
    have hCountPos : 0 < digitCount width n := by
      rw [hEq]
      exact Nat.succ_pos _
    have hAt : slen - 1 < buf'.length := by omega
    rw [if_pos (by omega), putChar_eq hAt]
    refine ⟨_, rfl, ?_, ?_, ?_⟩
    · rw [length_set]
      exact hWritten.length
    · rw [getD_set_ne _ (by omega)]
      exact hWritten.done
    · intro k hK
      rcases Nat.lt_or_ge k (n / width) with hOld | hLast
      · rw [getD_set_ne _ (by omega)]
        exact hWritten.chars k hOld
      · have hK' : k = n / width := by omega
        have hLt := mod_lt n hWidth
        have hWhole : width = n % width + (width - n % width) := by omega
        have hAbove : spread x (width * (n / width))
            (n % width + (width - n % width)) = spread x (width * (n / width)) (n % width) :=
          spread_above hX (by rw [div_add_mod])
        have hVal : spread x (width * (n / width)) width = val := by
          rw [hWritten.part, ← hAbove, ← hWhole]
        rw [show digitCount width n - 1 - k = slen - 1 by omega, getD_set_self hAt, hK', hVal]

/- Where the number of digits wraps the first digit is written
   past the buffer. -/
theorem writeLoop_wraps {width x : Nat} {table : Nat → Char} {buf : List Char} (hWidth : 0 < width)
    (hBuf : buf.length < 2 ^ 32) :
    ∀ {len idx val : Nat},
      idx < width → width ≤ idx + len →
      writeLoop width table (bitsFrom x idx len) idx (buf, 0, val) = none
| 0, idx, _, hIdx, hLen => by omega
| len + 1, idx, val, hIdx, hLen => by
    have hBits : bitsFrom x idx (len + 1) =
        (if x.testBit idx then .one else .zero) :: bitsFrom x (idx + 1) len := by
      unfold bitsFrom
      rw [range'_succ, map_cons]
    rw [hBits, writeLoop]
    unfold writeStep
    simp only [mod_eq_of_lt hIdx]
    by_cases hLast : idx + 1 = width
    · have hPast : ¬ unsignedPred 0 < buf.length := by
        unfold unsignedPred unsigned
        omega
      rw [if_pos hLast]
      unfold putChar
      rw [if_neg hPast]
      rfl
    · rw [if_neg hLast]
      exact writeLoop_wraps hWidth hBuf (by omega) (by omega)

theorem digitsVec4ToStr_wraps {table : Nat → Char} (hWidth : 0 < width)
    (hWidthLe : width ≤ 4) (hN : n < 2 ^ 32) (hWrap : 2 ^ 32 ≤ n + (width - 1))
    (hBuf : buf.length < 2 ^ 32) : digitsVec4ToStr width table (ofNat n x) buf = none := by
  have hCount : unsigned (n + (width - 1)) / width = 0 := by
    unfold unsigned
    exact div_eq_of_lt (by omega)
  unfold digitsVec4ToStr
  rw [length_ofNat, hCount]
  by_cases hSize : 0 < buf.length
  · have hLoop := @writeLoop_wraps width x table (buf.set 0 nul)
      hWidth (by rw [length_set]; exact hBuf) n 0 0 hWidth
      (by omega)
    rw [bitsFrom_zero] at hLoop
    rw [if_pos hSize, putChar_eq hSize]
    simp only [Option.bind_eq_bind, Option.bind_some, hLoop, Option.bind_none]
  · rw [if_neg hSize]

/- The loop of the binary writer. -/
theorem binWriteLoop_spec {x width : Nat} :
    ∀ {len idx : Nat} {buf : List Char},
      idx + len = width →
      width < buf.length →
      (∀ k < idx, buf.getD (width - 1 - k) nul = bitToAscii (if x.testBit k then .one else .zero)) →
      ∃ buf',
        binWriteLoop width (bitsFrom x idx len) idx buf = some buf' ∧
        buf'.length = buf.length ∧
        ∀ k < width, buf'.getD (width - 1 - k) nul =
          bitToAscii (if x.testBit k then .one else .zero)
| 0, idx, buf, hEnd, _, hChars => ⟨buf, rfl, rfl, fun k hK => hChars k (by omega)⟩
| len + 1, idx, buf, hEnd, hSize, hChars => by
    have hBits : bitsFrom x idx (len + 1) =
        (if x.testBit idx then .one else .zero) :: bitsFrom x (idx + 1) len := by
      unfold bitsFrom
      rw [range'_succ, map_cons]
    have hAt : width - idx - 1 < buf.length := by omega
    have hNext := @binWriteLoop_spec x width len (idx + 1)
      (buf.set (width - idx - 1) (bitToAscii (if x.testBit idx then .one else .zero)))
      (by omega) (by rw [length_set]; exact hSize)
      (by
        intro k hK
        rcases Nat.lt_succ_iff_lt_or_eq.mp hK with hOld | hNew
        · rw [getD_set_ne _ (by omega)]
          exact hChars k hOld
        · rw [hNew, show width - 1 - idx = width - idx - 1 by omega, getD_set_self hAt])
    rw [hBits, binWriteLoop, putChar_eq hAt]
    rw [length_set] at hNext
    exact hNext

/- The digits of a table as a text. -/
namespace WriterTable

variable {base : TextBase} (t : WriterTable base)

/- The digits of a number, the lowest one first. -/
def chars (x size : Nat) : List Char :=
  (List.range size).map fun k => t.table (spread x (base.width * k) base.width)

theorem value_char (x k : Nat) :
    base.value (t.table (spread x (base.width * k) base.width)) =
      some (digitAt base.width x k) := by
  rw [spread_digitAt]
  exact t.value_table _ (mod_lt _ (Nat.two_pow_pos _))

theorem char_ne_nul (x k : Nat) : t.table (spread x (base.width * k) base.width) ≠ nul := by
  rw [spread_digitAt]
  exact t.table_ne_nul _ (mod_lt _ (Nat.two_pow_pos _))

theorem isDigit_char {x size : Nat} {ch : Char} (hMem : ch ∈ t.chars x size) : base.IsDigit ch := by
  rcases mem_map.mp hMem with ⟨k, _, rfl⟩
  unfold TextBase.IsDigit digitBit
  rw [t.value_char]
  rfl

/- The text of a number. -/
def text (x size : Nat) (hPos : 0 < size) (hShort : size + 1 < 2 ^ 32) : NumberText base where
  negative := false
  body := (t.chars x size).reverse
  chars := fun ch hMem => Or.inr (t.isDigit_char (mem_reverse.mp hMem))
  digit := by
    have hMem : t.table (spread x (base.width * 0) base.width) ∈ t.chars x size :=
      mem_map.mpr ⟨0, mem_range.mpr hPos, rfl⟩
    exact ⟨_, mem_reverse.mpr hMem, t.isDigit_char hMem⟩
  short := by
    unfold chars
    rw [List.length_reverse, length_map, length_range]
    exact hShort

theorem digits_text {x size : Nat} (hPos : 0 < size) (hShort : size + 1 < 2 ^ 32) :
    (t.text x size hPos hShort).digits = t.chars x size := by
  show ((t.chars x size).reverse.reverse.filter _) = _
  rw [List.reverse_reverse, List.filter_eq_self]
  intro ch hMem
  exact decide_eq_true (t.isDigit_char hMem)

/- The bits of the text are those of the number. -/
theorem finish_text {n x size : Nat} (hPos : 0 < size)
    (hShort : size + 1 < 2 ^ 32) (hN : 0 < n) (hX : x < 2 ^ n)
    (hCover : n ≤ base.width * size) (hBits : base.width * size < 2 ^ 32) :
    finish n false
        ((List.range (t.text x size hPos hShort).bitCount).map (t.text x size hPos hShort).bitOf) =
      ofNat n x := by
  have hLen : (t.chars x size).length = size := by
    unfold chars
    rw [length_map, length_range]
  have hCount : (t.text x size hPos hShort).bitCount = base.width * size := by
    unfold NumberText.bitCount unsigned
    rw [t.digits_text, hLen, mod_eq_of_lt hBits]
  have hMap : (List.range (base.width * size)).map
      (t.text x size hPos hShort).bitOf = ofNat (base.width * size) x := by
    apply List.map_congr_left
    intro i hMem
    have hOff : i / base.width < size := Nat.div_lt_of_lt_mul (mem_range.mp hMem)
    unfold NumberText.bitOf
    rw [t.digits_text, getD_eq_getElem _ _ (by rw [hLen]; exact hOff)]
    unfold chars digitBit
    rw [List.getElem_map, List.getElem_range, t.value_char]
    simp only [Option.getD_some]
    rw [testBit_digitAt (mod_lt i base.width_pos), div_add_mod]
  have hReads : ReadsBack n (base.width * size) false x := Or.inl hCover
  have hFinish := (finish_eq_iff false x hN hBits).mpr hReads
  simp only [Bool.false_eq_true, if_false] at hFinish
  have hInt : ofInt n (x : Int) = ofNat n x := by
    have hMod : ((x : Int) % 2 ^ n).toNat = x := by
      rw [Int.emod_eq_of_lt (by omega) (by exact_mod_cast hX), Int.toNat_natCast]
    unfold ofInt
    rw [hMod]
  rw [hCount, hMap, hFinish, hInt]

end WriterTable

----
-- The Three Formats
----

inductive TextFormat
| bin
| oct
| hex

def binTable : WriterTable binBase :=
  ⟨fun val => bitToAscii (if val = 0 then .zero else .one), by decide, by decide⟩

namespace TextFormat

def base : TextFormat → TextBase
| bin => binBase
| oct => octBase
| hex => hexBase

def reader : TextFormat → Nat → List Char → Option Vec4
| bin => vpipBinStrToVec4
| oct => vpipOctStrToVec4
| hex => vpipHexStrToVec4

def writer : TextFormat → Vec4 → List Char → Option (List Char)
| bin => vpipVec4ToBinStr
| oct => vpipVec4ToOctStr
| hex => vpipVec4ToHexStr

def table : (f : TextFormat) → WriterTable f.base
| bin => binTable
| oct => octTable
| hex => hexTable

theorem digitCount_one (n : Nat) : digitCount 1 n = n := by
  unfold digitCount
  rw [Nat.div_one]
  rfl

theorem binTable_spread (x k : Nat) :
    binTable.table (spread x (1 * k) 1) = bitToAscii (if x.testBit k then .one else .zero) := by
  have hSpread : spread x (1 * k) 1 = (x.testBit k).toNat := by
    rw [spread, spread, Nat.one_mul, Nat.add_zero, pow_zero, Nat.mul_one, Nat.zero_add]
  rw [hSpread]
  cases x.testBit k <;> rfl

/- Every writer fills the buffer with the digits. -/
theorem writer_spec (f : TextFormat) {n x : Nat} {buf : List Char}
    (hX : x < 2 ^ n) (hShort : n + (f.base.width - 1) < 2 ^ 32)
    (hSize : digitCount f.base.width n < buf.length) (hBuf : buf.length < 2 ^ 32) :
    ∃ buf',
      f.writer (ofNat n x) buf = some buf' ∧
      buf'.length = buf.length ∧
      textOf buf' = (f.table.chars x (digitCount f.base.width n)).reverse := by
  have hDigits : ∃ buf',
      f.writer (ofNat n x) buf = some buf' ∧
      buf'.length = buf.length ∧
      buf'.getD (digitCount f.base.width n) ' ' = nul ∧
      ∀ k < digitCount f.base.width n,
        buf'.getD (digitCount f.base.width n - 1 - k) nul =
          f.table.table (spread x (f.base.width * k) f.base.width) := by
    cases f with
    | oct => exact digitsVec4ToStr_spec (by decide) hX hShort hSize hBuf
    | hex => exact digitsVec4ToStr_spec (by decide) hX hShort hSize hBuf
    | bin =>
      have hWidth : (base bin).width = 1 := rfl
      rw [hWidth, digitCount_one] at hSize ⊢
      rcases @binWriteLoop_spec x n n 0 buf (Nat.zero_add n) hSize
        (fun k hK => absurd hK (Nat.not_lt_zero k)) with
        ⟨buf', hLoop, hLen, hChars⟩
      rw [bitsFrom_zero] at hLoop
      have hAt : n < buf'.length := by omega
      refine ⟨buf'.set n nul, ?_, ?_, ?_, ?_⟩
      · show vpipVec4ToBinStr (ofNat n x) buf = _
        unfold vpipVec4ToBinStr
        rw [length_ofNat, hLoop, Option.bind_eq_bind, Option.bind_some, putChar_eq hAt]
      · rw [length_set]
        exact hLen
      · exact getD_set_self hAt nul ' '
      · intro k hK
        rw [getD_set_ne _ (by omega), hChars k hK]
        exact (binTable_spread x k).symm
  rcases hDigits with ⟨buf', hWriter, hLen, hDone, hChars⟩
  refine ⟨buf', hWriter, hLen, ?_⟩
  exact textOf_eq (by omega) hDone hChars fun k _ => f.table.char_ne_nul x k

/- What a reader makes of a text with a digit. -/
theorem reader_eq (f : TextFormat) (t : NumberText f.base) (hFirst : f = bin → t.FirstTwo)
    (n : Nat) :
    f.reader n t.str = some (finish n t.negative ((List.range t.bitCount).map t.bitOf)) := by
  cases f with
  | bin => exact t.binStr_eq (hFirst rfl) n
  | oct => exact t.digitsStr_eq n
  | hex => exact t.digitsStr_eq n

/- A text without underscores. -/
theorem firstTwo_text {x size : Nat} (hPos : 0 < size) (hShort : size + 1 < 2 ^ 32) :
    (binTable.text x size hPos hShort).FirstTwo := by
  have hNot : ∀ i,
      (binTable.text x size hPos hShort).str.getD i '-' ≠ '_' := by
    intro i hUnder
    rcases Nat.lt_or_ge i (binTable.text x size hPos hShort).str.length with hLt | hGe
    · rw [getD_eq_getElem _ _ hLt] at hUnder
      have hMem := List.getElem_mem hLt
      rw [hUnder] at hMem
      exact binBase.ne_underscore (binTable.isDigit_char (mem_reverse.mp hMem)) rfl
    · grind
  exact ⟨hNot 0, hNot 1⟩

end TextFormat

----
-- Both Directions
----

/- Into every buffer that is large enough the text is written
   without leaving it, and is read back as the vector. -/
def RoundTrips (f : TextFormat) (bits : Vec4) : Prop :=
  ∀ buf : List Char,
    digitCount f.base.width bits.length < buf.length →
    buf.length < 2 ^ 32 →
    ∃ buf',
      f.writer bits buf = some buf' ∧
      buf'.length = buf.length ∧
      f.reader bits.length (textOf buf') = some bits

/- The reader fails no assertion, and a text without X and Z
   gives the number written. -/
def ReadsRight (f : TextFormat) (n : Nat) (t : NumberText f.base) : Prop :=
  ∃ bits, f.reader n t.str = some bits ∧ (t.NoXz → bits = ofInt n t.integer)

theorem roundTrips_iff (f : TextFormat) {bits : Vec4} (hTwo : TwoState bits)
    (hPos : 0 < bits.length) (hShort : bits.length < 2 ^ 32) :
    RoundTrips f bits ↔
      bits.length + (f.base.width - 1) < 2 ^ 32 := by
  have hBits := ofNat_number hTwo
  have hX := number_lt bits
  have hWidth := f.base.width_pos
  have hWidthLe := f.base.width_le
  constructor
  · intro hTrips
    by_contra hWrap
    have hCount : digitCount f.base.width bits.length + 1 < 2 ^ 32 := by
      have hTwoLe : 2 ≤ f.base.width := by omega
      have hHalf : digitCount f.base.width bits.length ≤ (bits.length + (f.base.width - 1)) / 2 :=
        Nat.div_le_div_left hTwoLe (by omega)
      omega
    rcases hTrips
      (List.replicate (digitCount f.base.width bits.length + 1) nul)
      (by rw [length_replicate]; omega)
      (by rw [length_replicate]; exact hCount) with
      ⟨buf', hWriter, _⟩
    have hNone : f.writer bits
        (List.replicate
          (digitCount f.base.width bits.length + 1) nul) =
          none := by
      rw [← hBits, length_ofNat]
      cases f with
      | bin =>
        have hOne : (TextFormat.base .bin).width = 1 := rfl
        omega
      | oct =>
        exact digitsVec4ToStr_wraps (by decide) (by decide) hShort
          (Nat.le_of_not_lt hWrap)
          (by rw [length_replicate]; exact hCount)
      | hex =>
        exact digitsVec4ToStr_wraps (by decide) (by decide) hShort
          (Nat.le_of_not_lt hWrap)
          (by rw [length_replicate]; exact hCount)
    rw [hNone] at hWriter
    cases hWriter
  · intro hNoWrap buf hSize hBuf
    rcases f.writer_spec hX hNoWrap hSize hBuf with ⟨buf', hWriter, hLen, hText⟩
    rw [hBits] at hWriter
    refine ⟨buf', hWriter, hLen, ?_⟩
    have hMul : bits.length ≤ f.base.width * digitCount f.base.width bits.length ∧
        f.base.width * digitCount f.base.width bits.length ≤ bits.length + (f.base.width - 1) := by
      have hSplit := div_add_mod (bits.length + (f.base.width - 1)) f.base.width
      have hMod := mod_lt (bits.length + (f.base.width - 1)) hWidth
      unfold digitCount
      omega
    have hCountPos : 0 < digitCount f.base.width bits.length := by grind
    have hSizeShort : digitCount f.base.width bits.length + 1 < 2 ^ 32 := by omega
    have hReader := f.reader_eq
      (f.table.text (number bits) _ hCountPos hSizeShort)
      (by rintro rfl; exact TextFormat.firstTwo_text _ _)
      bits.length
    have hFinish := f.table.finish_text hCountPos hSizeShort hPos hX hMul.1 (by omega)
    rw [hText]
    exact hReader.trans (congrArg some (hFinish.trans hBits))

theorem readsRight_iff (f : TextFormat) (hN : 0 < n) (t : NumberText f.base) :
    ReadsRight f n t ↔
      (f = .bin → t.FirstTwo) ∧
        (t.NoXz →
          ReadsBack n t.bitCount t.negative t.number) := by
  have hCount : t.bitCount < 2 ^ 32 := mod_lt _ (by decide)
  have hFinish : t.NoXz →
      (finish n t.negative ((List.range t.bitCount).map t.bitOf) = ofInt n t.integer ↔
        ReadsBack n t.bitCount t.negative t.number) := by
    intro hNoXz
    have hLe : t.bitCount ≤ f.base.width * t.digits.length := Nat.mod_le _ _
    rw [t.map_bitOf hNoXz hLe]
    exact finish_eq_iff t.negative t.number hN hCount
  constructor
  · rintro ⟨bits, hReader, hRight⟩
    have hFirst : f = .bin → t.FirstTwo := by
      rintro rfl
      by_contra hNot
      have hNone : TextFormat.reader .bin n t.str = none := t.binStr_fails hNot n
      rw [hNone] at hReader
      cases hReader
    refine ⟨hFirst, fun hNoXz => ?_⟩
    rw [f.reader_eq t hFirst n] at hReader
    grind
  · rintro ⟨hFirst, hBack⟩
    exact ⟨_, f.reader_eq t hFirst n, fun hNoXz => (hFinish hNoXz).mpr (hBack hNoXz)⟩

/- A vector is written and read back where its number of digits
   does not wrap.  A text is read as the number written where
   the digits cover the vector or leave room for the sign, in
   binary with no underscore among the first two characters. -/
theorem vector_text_exact (f : TextFormat) :
    (∀ bits : Vec4, TwoState bits → 0 < bits.length →
      bits.length < 2 ^ 32 →
      (RoundTrips f bits ↔ bits.length + (f.base.width - 1) < 2 ^ 32)) ∧
    (∀ (n : Nat) (t : NumberText f.base), 0 < n →
      (ReadsRight f n t ↔
        (f = .bin → t.FirstTwo) ∧ (t.NoXz → ReadsBack n t.bitCount t.negative t.number))) :=
  ⟨fun _ hTwo hPos hShort => roundTrips_iff f hTwo hPos hShort, fun _ t hN => readsRight_iff f hN t⟩

/- `-9` in hex: the four bits of the digit have no room for the
   sign. -/
def hexNine : NumberText (TextFormat.base .hex) :=
  ⟨true, ['9'], List.forall_mem_singleton.mpr (by decide),
    ⟨'9', List.mem_singleton_self '9', by decide⟩, by decide⟩

theorem vector_text_exact_hex : RoundTrips .hex (ofNat 5 19) ∧ ReadsRight .hex 4 hexNine :=
  ⟨((vector_text_exact .hex).1 (ofNat 5 19) (twoState_ofNat 5 19)
      (by decide) (by decide)).mpr (by decide),
    ((vector_text_exact .hex).2 4 hexNine (by decide)).mpr ⟨nofun, fun _ => Or.inl (by decide)⟩⟩

theorem minus_nine_in_twelve_bits : ¬ ReadsRight .hex 12 hexNine := by
  rintro ⟨bits, hReader, hRight⟩
  have hSeven : TextFormat.reader .hex 12 hexNine.str =
      some (ofInt 12 7) := by decide
  have hNoXz : hexNine.NoXz := by
    have hDigits : hexNine.digits = ['9'] := by decide
    rw [NumberText.NoXz, hDigits]
    exact List.forall_mem_singleton.mpr (by decide)
  rw [hSeven] at hReader
  have hBits := hRight hNoXz
  rw [← Option.some.inj hReader] at hBits
  exact absurd hBits (by decide)

end VpipText

end EpicSim
