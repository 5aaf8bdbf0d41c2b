import EpicSim.Lib.CText
import EpicSim.Vvp.Vector4

/-
  Vectors as strings of the form `C4<...>`.

  The writer counts the space that is left in its buffer; the
  bits stand from the last one to the first.  The buffer length
  is a 64-bit number, the length of a vector a 32-bit number.
  A failed assertion gives none.
-/

----
-- Writer
----

namespace EpicSim

namespace C4String

/- The character of a bit. -/
def bitChar : VvpBit4 → Char
| .zero => '0'
| .one => '1'
| .x => 'x'
| .z => 'z'

/- `for (...; idx < size() && buf_len >= 2; ...)`. -/
def asStringLoop (v : VvpVector4) : Nat → Nat → Nat → List Char
| 0, _, _ => []
| rounds + 1, idx, buf_len =>
  if idx < v.size_ ∧ 2 ≤ buf_len then
    bitChar (v.value (v.size_ - idx - 1)) :: asStringLoop v rounds (idx + 1) (buf_len - 1)
  else []

end C4String

open C4String

/- `as_string`: the characters that are written. -/
def VvpVector4.asString (v : VvpVector4) (buf_len : Nat) : List Char :=
  let buf_len := (buf_len + 2 ^ 64 - 3) % 2 ^ 64
  ['C', '4', '<'] ++ asStringLoop v v.size_ 0 buf_len ++ ['>', nul]

----
-- Reader
----

namespace C4String

/- `strspn(str, "01xz")`. -/
def span (str : List Char) : Nat :=
  (str.takeWhile fun ch => ch ∈ ['0', '1', 'x', 'z']).length

/- The bit of a character. -/
def charBit (ch : Char) : Option VvpBit4 :=
  if ch = '0' then some .zero
  else if ch = '1' then some .one
  else if ch = 'x' then some .x
  else if ch = 'z' then some .z
  else none

/- The loop over the characters. -/
def readLoop (str : List Char) : Nat → Nat → VvpVector4 → Option VvpVector4
| 0, _, tmp => some tmp
| rounds + 1, idx, tmp =>
  match charBit (str.getD idx nul) with
  | none => none
  | some bit => readLoop str rounds (idx + 1) (tmp.setBit (tmp.size_ - idx - 1) bit)

end C4String

/- `c4string_test`. -/
def c4stringTest (str : List Char) : Bool :=
  if str.take 3 ≠ ['C', '4', '<'] then false
  else
    let value_size := span (str.drop 3)
    if str.getD (3 + value_size) nul ≠ '>' then false
    else if str.getD (3 + value_size + 1) nul ≠ nul then false
    else true

/- `c4string_to_vector4`. -/
def c4stringToVector4 (str : List Char) : Option VvpVector4 :=
  if str.getD 0 nul = 'C' ∧ str.getD 1 nul = '4' ∧
      str.getD 2 nul = '<' then
    let str := str.drop 3
    let tp := span str
    if str.getD tp nul = '>' then
      let tmp := VvpVector4.fill (tp % 2 ^ 32) .x
      readLoop str tmp.size_ 0 tmp
    else none
  else none

----
-- What Is Written
----

namespace C4String

/- The characters of all bits. -/
def bitsText (v : VvpVector4) : List Char :=
  (List.range v.size_).map fun i => bitChar (v.value (v.size_ - i - 1))

@[simp] theorem length_bitsText (v : VvpVector4) : (bitsText v).length = v.size_ := by
  unfold bitsText
  rw [List.length_map, List.length_range]

variable {v : VvpVector4} {buf_len : Nat}

theorem bitsText_at {i : Nat} (hI : i < v.size_) (other : Char) :
    (bitsText v).getD i other = bitChar (v.value (v.size_ - i - 1)) := by
  rw [List.getD_eq_getElem _ _ (by rw [length_bitsText]; exact hI)]
  unfold bitsText
  rw [List.getElem_map, List.getElem_range]

/- The loop writes characters while there is space. -/
theorem asStringLoop_eq (v : VvpVector4) :
    ∀ {rounds idx buf_len : Nat},
      v.size_ ≤ idx + rounds →
      asStringLoop v rounds idx buf_len = ((bitsText v).drop idx).take (buf_len - 1)
| 0, idx, _, hEnd => by
    rw [asStringLoop, List.drop_eq_nil_of_le (by rw [length_bitsText]; exact hEnd), List.take_nil]
| rounds + 1, idx, buf_len, hEnd => by
    rw [asStringLoop]
    by_cases hIdx : idx < v.size_
    · by_cases hSpace : 2 ≤ buf_len
      · have hLen : idx < (bitsText v).length := by
          rw [length_bitsText]
          exact hIdx
        have hChar := bitsText_at hIdx nul
        rw [List.getD_eq_getElem _ _ hLen] at hChar
        have hCount : buf_len - 1 = buf_len - 1 - 1 + 1 := by omega
        rw [if_pos ⟨hIdx, hSpace⟩, asStringLoop_eq v (by omega),
          ← hChar, List.drop_eq_getElem_cons hLen]
        conv_rhs => rw [hCount, List.take_succ_cons]
      · have hNone : buf_len - 1 = 0 := by omega
        rw [if_neg (fun h => hSpace h.2), hNone, List.take_zero]
    · rw [if_neg (fun h => hIdx h.1), List.drop_eq_nil_of_le
        (by rw [length_bitsText]; omega), List.take_nil]

theorem asString_eq (v : VvpVector4) (hLow : 5 ≤ buf_len)
    (hHigh : buf_len < 2 ^ 64) :
    v.asString buf_len = ['C', '4', '<'] ++ (bitsText v).take (buf_len - 4) ++ ['>', nul] := by
  have hLen : (buf_len + 2 ^ 64 - 3) % 2 ^ 64 = buf_len - 3 := by omega
  unfold VvpVector4.asString
  simp only [hLen]
  rw [asStringLoop_eq v (by omega), List.drop_zero, Nat.sub_sub]

/- The buffer is left exactly where the text does not fit. -/
theorem length_asString (v : VvpVector4) (hLow : 5 ≤ buf_len)
    (hHigh : buf_len < 2 ^ 64) : (v.asString buf_len).length = min (buf_len + 1) (v.size_ + 5) := by
  rw [asString_eq v hLow hHigh, List.length_append,
    List.length_append, List.length_take, length_bitsText]
  simp only [List.length_cons, List.length_nil]
  omega

----
-- Reading It Back
----

theorem charBit_bitChar (bit : VvpBit4) : charBit (bitChar bit) = some bit := by
  cases bit <;> rfl

theorem bitChar_mem (bit : VvpBit4) : bitChar bit ∈ ['0', '1', 'x', 'z'] := by
  cases bit <;> decide

theorem mem_bitsText {ch : Char} (hMem : ch ∈ bitsText v) :
    ch ∈ ['0', '1', 'x', 'z'] := by
  rcases List.mem_map.mp hMem with ⟨i, _, rfl⟩
  exact bitChar_mem _

theorem span_bitsText (v : VvpVector4) (rest : List Char) :
    span (bitsText v ++ '>' :: rest) = v.size_ := by
  unfold span
  rw [List.takeWhile_append_of_pos (fun ch hMem => decide_eq_true (mem_bitsText hMem)),
      List.takeWhile_cons_of_neg (by decide), List.append_nil, length_bitsText]

theorem textOf_asString (hHigh : buf_len < 2 ^ 64)
    (hRoom : v.size_ + 5 ≤ buf_len) :
    textOf (v.asString buf_len) = ['C', '4', '<'] ++ (bitsText v ++ ['>']) := by
  have hAll : (bitsText v).take (buf_len - 4) = bitsText v :=
    List.take_of_length_le (by rw [length_bitsText]; omega)
  have hText : v.asString buf_len = (['C', '4', '<'] ++ (bitsText v ++ ['>'])) ++ [nul] := by
    rw [asString_eq v (by omega) hHigh, hAll]
    simp
  have hNo : ∀ ch ∈ ['C', '4', '<'] ++ (bitsText v ++ ['>']),
      (ch != nul) = true := by
    intro ch hMem
    rw [bne_iff_ne]
    rintro rfl
    simp only [List.mem_append] at hMem
    rcases hMem with hHead | hBits | hLast
    · exact absurd hHead (by decide)
    · exact absurd (mem_bitsText hBits) (by decide)
    · exact absurd hLast (by decide)
  unfold textOf
  rw [hText, List.takeWhile_append_of_pos hNo,
    List.takeWhile_cons_of_neg (by decide), List.append_nil]

/- The loop sets the bits from the last one down. -/
theorem readLoop_spec (v : VvpVector4) (rest : List Char) :
    ∀ {rounds idx : Nat} {tmp : VvpVector4},
      idx + rounds = v.size_ →
      tmp.size_ = v.size_ →
      (∀ j < v.size_, v.size_ - idx ≤ j → tmp.value j = v.value j) →
      ∃ res,
        readLoop (bitsText v ++ rest) rounds idx tmp = some res ∧
        res.size_ = v.size_ ∧
        ∀ j < v.size_, res.value j = v.value j
| 0, idx, tmp, hEnd, hSize, hDone => ⟨tmp, rfl, hSize, fun j hJ => hDone j hJ (by omega)⟩
| rounds + 1, idx, tmp, hEnd, hSize, hDone => by
    have hIdx : idx < v.size_ := by omega
    have hChar : (bitsText v ++ rest).getD idx nul = bitChar (v.value (v.size_ - idx - 1)) := by
      rw [List.getD_append _ _ _ _ (by rw [length_bitsText]; exact hIdx)]
      exact bitsText_at hIdx nul
    rw [readLoop, hChar, charBit_bitChar, hSize]
    apply @readLoop_spec v rest rounds (idx + 1) (tmp.setBit (v.size_ - idx - 1) _) (by omega) hSize
    intro j hJ hFrom
    rw [VvpVector4.value_setBit (by omega) _ (by omega)]
    by_cases hSame : j = v.size_ - idx - 1
    · rw [if_pos hSame, hSame]
    · rw [if_neg hSame]
      exact hDone j hJ (by omega)

/- The characters written fit in the buffer, and a text with
   room for all bits is accepted and read back. -/
def RoundTrips (v : VvpVector4) (buf_len : Nat) : Prop :=
  (v.asString buf_len).length ≤ buf_len ∧
  (v.size_ + 5 ≤ buf_len →
    c4stringTest (textOf (v.asString buf_len)) = true ∧
    ∃ res,
      c4stringToVector4 (textOf (v.asString buf_len)) = some res ∧
      res.size_ = v.size_ ∧
      ∀ idx < v.size_, res.value idx = v.value idx)

theorem reads_back (hSize : v.size_ < 2 ^ 32)
    (hHigh : buf_len < 2 ^ 64) (hRoom : v.size_ + 5 ≤ buf_len) :
    c4stringTest (textOf (v.asString buf_len)) = true ∧
    ∃ res,
      c4stringToVector4 (textOf (v.asString buf_len)) = some res ∧
      res.size_ = v.size_ ∧
      ∀ idx < v.size_, res.value idx = v.value idx := by
  have hSpan := span_bitsText v []
  have hClose : (bitsText v ++ ['>']).getD v.size_ nul = '>' := by simp
  rw [textOf_asString hHigh hRoom]
  constructor
  · have hEnd : (['C', '4', '<'] ++ (bitsText v ++ ['>'])).getD (3 + v.size_ + 1) nul = nul := by
      apply List.getD_eq_default
      simp
      omega
    have hAt : (['C', '4', '<'] ++ (bitsText v ++ ['>'])).getD (3 + v.size_) nul = '>' := by
      rw [List.getD_append_right _ _ _ _ (by simp)]
      simp
    unfold c4stringTest
    rw [if_neg (by simp)]
    simp only [List.cons_append, List.nil_append, List.drop_succ_cons, List.drop_zero] at hEnd hAt ⊢
    rw [hSpan, if_neg (not_not.mpr hAt), if_neg (not_not.mpr hEnd)]
  · have hFill : v.size_ % 2 ^ 32 = v.size_ := Nat.mod_eq_of_lt hSize
    rcases readLoop_spec v ['>'] (Nat.zero_add v.size_)
      (VvpVector4.size_fill v.size_ .x)
      (fun j hJ hFrom => absurd hJ (by omega)) with
      ⟨res, hLoop, hResult⟩
    refine ⟨res, ?_, hResult⟩
    unfold c4stringToVector4
    simp only [List.cons_append, List.nil_append, List.drop_succ_cons, List.drop_zero]
    rw [hSpan, if_pos hClose, hFill]
    exact hLoop

/- The writer and the readers keep their promise exactly where
   the buffer has room for all bits. -/
theorem round_trip_exact {v : VvpVector4} (hSize : v.size_ < 2 ^ 32) {buf_len : Nat}
    (hLow : 5 ≤ buf_len) (hHigh : buf_len < 2 ^ 64) :
    RoundTrips v buf_len ↔ v.size_ + 5 ≤ buf_len := by
  have hLength := length_asString v hLow hHigh
  constructor
  · intro hTrips
    have hFits := hTrips.1
    omega
  · intro hRoom
    exact ⟨by omega, reads_back hSize hHigh⟩

theorem round_trip_exact_two : RoundTrips (.fill 2 .z) 7 ↔ 2 + 5 ≤ 7 :=
  round_trip_exact (by decide) (by decide) (by decide)

/- One bit too many: six characters in a buffer of five. -/
theorem one_character_past : ¬ RoundTrips (.fill 1 .zero) 5 := by
  intro hTrips
  exact absurd hTrips.1 (by decide)

end C4String

end EpicSim
