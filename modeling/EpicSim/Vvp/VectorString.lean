import EpicSim.Vvp.VpipText

/-
  The string value of a vector: its bytes from the top, with
  zero bytes left out.

  The bits of a partial top byte are shifted by their places
  in the vector, and not by those in the byte.
-/

----
-- The String Of A Vector
----

namespace EpicSim

namespace VpiString

open VpipText

/-
  `if (val == BIT4_1) char_val |= 1 << idx`: the shift is of an
  `int` and is undefined from 32 places on; what is left after
  it is the lowest byte.
-/
def orBit (char_val : BitVec 8) (val : VvpBit4) (idx : Nat) : Option (BitVec 8) :=
  if val = .one then
    if idx < 32 then
      some (char_val ||| (1#32 <<< idx).setWidth 8)
    else none
  else some char_val

/- A loop over the bits of a character: `count` bits from
   `bit` on, the first of them shifted by `shift`. -/
def charLoop (word_val : Vec4) (bit shift count : Nat) : Option (BitVec 8) :=
  (List.range count).foldlM (fun char_val bdx =>
    orBit char_val (valueAt word_val (bit + bdx)) (shift + bdx))
    0#8

/- The character of the partial top byte. -/
def tailChar (word_val : Vec4) (width tail : Nat) : Option (BitVec 8) :=
  charLoop word_val (width - tail) (width - tail) tail

/- The character of a whole byte. -/
def wholeChar (word_val : Vec4) (bit : Nat) : Option (BitVec 8) :=
  charLoop word_val bit 0 8

/- A character is only written if it is not zero. -/
def keptChar (char_val : BitVec 8) : List (BitVec 8) :=
  if char_val ≠ 0#8 then [char_val] else []

/- The bytes asked of `need_result_buf`, and those written. -/
structure StringBuf where
  asked : Nat
  written : List (BitVec 8)

/- `vec4_get_value_string`. -/
def vec4GetValueString (word_val : Vec4)
    (width : Nat) : Option StringBuf := do
  let nchar := width / 8
  let tail := width % 8
  let top ←
    if 0 < tail then
      (tailChar word_val width tail).map keptChar
    else some []
  let chars ← (List.range nchar).mapM fun idx =>
    (wholeChar word_val ((nchar - idx - 1) * 8)).map keptChar
  some ⟨nchar + 1, top ++ chars.flatten ++ [0#8]⟩

end VpiString

----
-- Its Bytes
----

namespace VpiString

open VpipText TwosComplement

/- The number that some bits form, x and z bits read as 0. -/
def byteNumber (v : Vec4) (bit count : Nat) : Nat :=
  low (fun i => valueAt v (bit + i) == .one) count

/- The bytes of a vector from the top: a partial one, and the
   whole ones. -/
def bytesOf (v : Vec4) : List Nat :=
  (if 0 < v.length % 8 then
    [byteNumber v (v.length - v.length % 8) (v.length % 8)]
  else []) ++
  (List.range (v.length / 8)).map fun idx => byteNumber v ((v.length / 8 - idx - 1) * 8) 8

/- The string is the bytes that are not zero, with its end, and
   fits into the bytes asked for. -/
def ReadsAsString (v : Vec4) : Prop :=
  ∃ buf, vec4GetValueString v v.length = some buf ∧
    buf.written.map BitVec.toNat = (bytesOf v).filter (· ≠ 0) ++ [0] ∧
    buf.written.length ≤ buf.asked

----
-- Characters
----

theorem getLsbD_one_shift {idx i : Nat} (hIdx : idx < 32) (hI : i < 8) :
    ((1#32 <<< idx).setWidth 8).getLsbD i = decide (idx = i) := by
  rw [BitVec.getLsbD_setWidth, decide_eq_true hI]
  by_cases hSame : idx = i
  · subst hSame
    simp [hIdx]
  · grind

/- A character has the ones of its bits, in the places that
   they are shifted to. -/
theorem charLoop_eq (v : Vec4) (bit shift count : Nat)
    (hShift : ∀ k < count, valueAt v (bit + k) = .one → shift + k < 32) :
    ∃ char_val, charLoop v bit shift count = some char_val ∧
      ∀ i < 8, char_val.getLsbD i = true ↔
        ∃ k < count, shift + k = i ∧
          valueAt v (bit + k) = .one := by
  induction count with
  | zero =>
    refine ⟨0#8, rfl, fun i _ => ?_⟩
    simp
  | succ count ih =>
    rcases ih (fun k hk => hShift k (by omega)) with ⟨char_val, hLoop, hBits⟩
    have hStep : charLoop v bit shift (count + 1) =
        orBit char_val (valueAt v (bit + count)) (shift + count) := by
      unfold charLoop at hLoop ⊢
      rw [List.range_succ, List.foldlM_append, hLoop]
      simp
    rw [hStep]
    unfold orBit
    by_cases hOne : valueAt v (bit + count) = .one
    · have hLt := hShift count (by omega) hOne
      rw [if_pos hOne, if_pos hLt]
      refine ⟨_, rfl, fun i hI => ?_⟩
      rw [BitVec.getLsbD_or, Bool.or_eq_true, hBits i hI,
        getLsbD_one_shift hLt hI, decide_eq_true_iff]
      constructor
      · rintro (⟨k, hk, hPlace, hBit⟩ | hPlace)
        · exact ⟨k, by omega, hPlace, hBit⟩
        · exact ⟨count, by omega, hPlace, hOne⟩
      · rintro ⟨k, hk, hPlace, hBit⟩
        rcases Nat.lt_or_eq_of_le (Nat.le_of_lt_succ hk) with hLess | rfl
        · exact Or.inl ⟨k, hLess, hPlace, hBit⟩
        · exact Or.inr hPlace
    · grind

theorem byteNumber_lt (v : Vec4) (bit : Nat) {count : Nat} (hCount : count ≤ 8) :
    byteNumber v bit count < 2 ^ 8 :=
  Nat.lt_of_lt_of_le (low_lt _ count) (Nat.pow_le_pow_right (by decide) hCount)

theorem testBit_byteNumber (v : Vec4) (bit count i : Nat) :
    (byteNumber v bit count).testBit i = true ↔
      i < count ∧ valueAt v (bit + i) = .one := by
  unfold byteNumber
  by_cases hLt : i < count
  · rw [testBit_low hLt]
    simp [hLt]
  · rw [Nat.testBit_lt_two_pow (Nat.lt_of_lt_of_le
      (low_lt _ count)
      (Nat.pow_le_pow_right (by decide) (Nat.not_lt.mp hLt)))]
    simp [hLt]

/- A byte is zero where it has no one. -/
theorem byteNumber_eq_zero_iff (v : Vec4) (bit count : Nat) :
    byteNumber v bit count = 0 ↔
      ∀ k < count, valueAt v (bit + k) ≠ .one := by
  constructor
  · intro hZero k hk hOne
    have hBit := (testBit_byteNumber v bit count k).mpr ⟨hk, hOne⟩
    rw [hZero, Nat.zero_testBit] at hBit
    cases hBit
  · intro hNone
    apply Nat.eq_of_testBit_eq
    intro i
    rw [Nat.zero_testBit, ← Bool.not_eq_true, testBit_byteNumber]
    rintro ⟨hLt, hOne⟩
    exact hNone i hLt hOne

/- Without a shift the character is the number of its bits. -/
theorem charLoop_unshifted (v : Vec4) (bit : Nat) {count : Nat} (hCount : count ≤ 8) :
    charLoop v bit 0 count = some (BitVec.ofNat 8 (byteNumber v bit count)) := by
  rcases charLoop_eq v bit 0 count (fun k hk _ => by omega) with ⟨char_val, hLoop, hBits⟩
  rw [hLoop]
  congr 1
  apply BitVec.eq_of_getLsbD_eq
  intro i hI
  rw [BitVec.getLsbD_ofNat, decide_eq_true hI, Bool.true_and,
    Bool.eq_iff_iff, hBits i hI, testBit_byteNumber]
  constructor
  · simp
  · simp

/- From 8 places on, a shift loses the ones. -/
theorem charLoop_lost (v : Vec4) (bit count : Nat) {shift : Nat} (hShift : 8 ≤ shift) :
    ∀ char_val, charLoop v bit shift count = some char_val →
      char_val = 0#8 := by
  induction count with
  | zero =>
    intro char_val hLoop
    cases hLoop
    rfl
  | succ count ih =>
    intro char_val hLoop
    unfold charLoop at hLoop ih
    rw [List.range_succ, List.foldlM_append] at hLoop
    rcases Option.bind_eq_some_iff.mp hLoop with ⟨before, hBefore, hLast⟩
    rw [ih before hBefore] at hLast
    have hStep : orBit 0#8 (valueAt v (bit + count)) (shift + count) = some char_val := by
      simpa using hLast
    unfold orBit at hStep
    grind

----
-- The Whole String
----

/- A character is kept as its number is. -/
theorem map_keptChar {n : Nat} (hLt : n < 2 ^ 8) :
    (keptChar (BitVec.ofNat 8 n)).map BitVec.toNat = [n].filter (· ≠ 0) := by
  have hNumber : (BitVec.ofNat 8 n).toNat = n := Nat.mod_eq_of_lt hLt
  have hZero : BitVec.ofNat 8 n = 0#8 ↔ n = 0 := by
    rw [← BitVec.toNat_inj, hNumber]
    rfl
  unfold keptChar
  by_cases h : n = 0
  · simp [h]
  · grind

/- The whole bytes of a vector. -/
def wholeBytes (v : Vec4) : List Nat :=
  (List.range (v.length / 8)).map fun idx => byteNumber v ((v.length / 8 - idx - 1) * 8) 8

/- Their characters are read and kept as they are. -/
theorem wholeChars_eq (v : Vec4) :
    ∃ chars : List (List (BitVec 8)),
      ((List.range (v.length / 8)).mapM fun idx =>
        (wholeChar v ((v.length / 8 - idx - 1) * 8)).map keptChar) = some chars ∧
      chars.flatten.map BitVec.toNat = (wholeBytes v).filter (· ≠ 0) := by
  have hChar : ∀ idx,
      (wholeChar v ((v.length / 8 - idx - 1) * 8)).map keptChar =
        pure (keptChar (BitVec.ofNat 8 (byteNumber v ((v.length / 8 - idx - 1) * 8) 8))) := by
    intro idx
    unfold wholeChar
    rw [charLoop_unshifted v _ (Nat.le_refl 8)]
    rfl
  simp only [hChar, List.mapM_pure]
  refine ⟨_, rfl, ?_⟩
  unfold wholeBytes
  generalize List.range (v.length / 8) = places
  induction places with
  | nil => rfl
  | cons idx rest ih =>
    rw [List.map_cons, List.flatten_cons, List.map_append, ih,
      map_keptChar (byteNumber_lt v _ (Nat.le_refl 8)), ← List.filter_append]
    rfl

/- The character of the partial top byte, if there is one. -/
def topChars (v : Vec4) : Option (List (BitVec 8)) :=
  if 0 < v.length % 8 then
    (tailChar v v.length (v.length % 8)).map keptChar
  else some []

/- The number of the partial top byte, zero if there is none. -/
def topByte (v : Vec4) : Nat :=
  byteNumber v (v.length - v.length % 8) (v.length % 8)

/- The string is right when its first character is, as long as
   the buffer has room for it. -/
theorem readsAsString_iff_top (v : Vec4) :
    ReadsAsString v ↔
      ∃ top, topChars v = some top ∧
        top.map BitVec.toNat = [topByte v].filter (· ≠ 0) ∧
        top.length + ((wholeBytes v).filter (· ≠ 0)).length ≤ v.length / 8 := by
  rcases wholeChars_eq v with ⟨chars, hChars, hBytes⟩
  have hBytesOf : (bytesOf v).filter (· ≠ 0) =
      [topByte v].filter (· ≠ 0) ++ (wholeBytes v).filter (· ≠ 0) := by
    unfold bytesOf topByte wholeBytes
    rw [List.filter_append]
    split_ifs with hTail
    · rfl
    · -- without a partial byte its number is zero
      have hZero : v.length % 8 = 0 := by omega
      rw [hZero]
      rfl
  have hString : vec4GetValueString v v.length =
      (topChars v).map fun top =>
        ⟨v.length / 8 + 1, top ++ chars.flatten ++ [0#8]⟩ := by
    unfold vec4GetValueString topChars
    simp only [hChars]
    split_ifs with hTail
    · cases tailChar v v.length (v.length % 8) <;> rfl
    · rfl
  have hLength : chars.flatten.length = ((wholeBytes v).filter (· ≠ 0)).length := by
    rw [← hBytes, List.length_map]
  unfold ReadsAsString
  rw [hString, hBytesOf]
  constructor
  · rintro ⟨buf, hBuf, hWritten, hRoom⟩
    rcases Option.map_eq_some_iff.mp hBuf with ⟨top, hTop, rfl⟩
    simp only [List.map_append, hBytes] at hWritten
    simp only [List.length_append, List.length_singleton] at hRoom
    refine ⟨top, hTop, ?_, by omega⟩
    simpa using hWritten
  · grind

theorem wholeBytes_length (v : Vec4) : ((wholeBytes v).filter (· ≠ 0)).length ≤ v.length / 8 := by
  refine (List.length_filter_le _ _).trans (Nat.le_of_eq ?_)
  unfold wholeBytes
  rw [List.length_map, List.length_range]

/- The string of a vector is right, and in its buffer, where no
   bit of a partial top byte is 1. -/
theorem reads_as_string_iff (v : Vec4) :
    ReadsAsString v ↔
      ∀ k < v.length % 8,
        valueAt v (v.length - v.length % 8 + k) ≠ .one := by
  rw [readsAsString_iff_top, ← byteNumber_eq_zero_iff]
  change _ ↔ topByte v = 0
  have hWhole := wholeBytes_length v
  constructor
  · rintro ⟨top, hTop, hBytes, hRoom⟩
    by_contra hNe
    have hKept : [topByte v].filter (· ≠ 0) = [topByte v] := by simp [hNe]
    rw [hKept] at hBytes
    have hTail : 0 < v.length % 8 := by
      by_contra hNone
      apply hNe
      unfold topByte
      rw [Nat.eq_zero_of_not_pos hNone]
      rfl
    have hOne : top.length = 1 := by simpa using congrArg List.length hBytes
    rcases Nat.lt_or_ge v.length 8 with hSmall | hLarge
    · -- a character and the end do not fit into one byte
      omega
    · -- the ones are shifted out of the character
      unfold topChars at hTop
      rw [if_pos hTail] at hTop
      rcases Option.map_eq_some_iff.mp hTop with ⟨char_val, hChar, rfl⟩
      have hZero := charLoop_lost v _ _ (by omega) char_val hChar
      rw [hZero] at hOne
      cases hOne
  · intro hZero
    have hNone := (byteNumber_eq_zero_iff v _ _).mp hZero
    refine ⟨[], ?_, ?_, by simpa using hWhole⟩
    · unfold topChars
      split_ifs with hTail
      · rcases charLoop_eq v (v.length - v.length % 8)
            (v.length - v.length % 8) (v.length % 8)
            (fun k hk hOne => absurd hOne (hNone k hk)) with
          ⟨char_val, hChar, hBits⟩
        have hEq : char_val = 0#8 := by
          apply BitVec.eq_of_getLsbD_eq
          intro i hI
          rw [BitVec.getLsbD_zero, ← Bool.not_eq_true, hBits i hI]
          rintro ⟨k, hk, _, hOne⟩
          exact hNone k hk hOne
        unfold tailChar
        rw [hChar, hEq]
        rfl
      · rfl
    · simp [hZero]

/- Nine bits with a one on top read as the lower byte only. -/
theorem top_bit_lost :
    ¬ReadsAsString [.one, .zero, .zero, .zero, .zero, .zero, .one, .zero, .one] := by
  rintro ⟨buf, hBuf, hWritten, _⟩
  cases hBuf
  revert hWritten
  decide

end VpiString

end EpicSim
