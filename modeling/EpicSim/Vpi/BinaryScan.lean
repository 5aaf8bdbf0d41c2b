import EpicSim.Vpi.VectorVal
import Mathlib.Data.List.GetD

/-
  `%u` and `%z`: vectors as bytes, the words of a two-state
  value, or pairs of words of a four-state one.

  The last word of a field is masked even where the variable
  has no such word.
-/

namespace EpicSim

open List (drop range)

----
-- Bytes
----

/- The bytes of a word of the VPI. -/
def vecvalSize (four : Bool) : Nat := if four then 8 else 4

def wordBytes (bits : BitVec 32) : List (BitVec 8) :=
  (range 4).map fun byte => (bits >>> (byte * 8)).setWidth 8

def vecvalBytes (four : Bool) (v : VpiVecval) : List (BitVec 8) :=
  if four then wordBytes v.aval ++ wordBytes v.bval else wordBytes (v.aval &&& ~~~v.bval)

/- `%u` and, of four states, `%z` of `$fwrite`. -/
def fwriteBytes (four : Bool) (bits : List VvpBit4) : List (BitVec 8) :=
  (range ((bits.length + 31) / 32)).flatMap fun word =>
    vecvalBytes four ((formatVectorVal bits).getD word ⟨0, 0⟩)

/- The loop over four bytes. -/
def getWord (src : List (BitVec 8)) : BitVec 32 :=
  (range 4).foldl (fun bits byte => bits ||| (src.getD byte 0).setWidth 32 <<< (byte * 8)) 0

def getVecval (four : Bool) (src : List (BitVec 8)) : VpiVecval :=
  ⟨getWord src, if four then getWord (drop 4 src) else 0⟩

inductive BinaryFault where
| noMatch
| outside
deriving DecidableEq

/- The loop over the words.  `set` saves only the words in
   range, as the source does. -/
def scanWords (four : Bool) :
    Nat → Nat → List VpiVecval → List (BitVec 8) →
      Except BinaryFault (List VpiVecval × List (BitVec 8))
| 0, _, val_ptr, src => pure (val_ptr, src)
| left + 1, word, val_ptr, src =>
  if src.length < vecvalSize four then throw .noMatch
  else scanWords four left (word + 1) (val_ptr.set word (getVecval four src))
    (drop (vecvalSize four) src)

def uintMax : Nat := 2 ^ 32 - 1

/- The width in a format, as an unsigned. -/
def maxWidth : Option Nat → Nat
| none => uintMax
| some width => width % 2 ^ 32

def upperMask (width : Nat) : BitVec 32 :=
  BitVec.allOnes 32 >>> (32 - ((width - 1) % 32 + 1))

/-
  `scan_format_two_state`, or `scan_format_four_state`, into a
  variable.  The array is allocated and not initialized.
-/
def scanBinary (four : Bool) (size width : Nat) (garbage : Nat → VpiVecval)
    (src : List (BitVec 8)) : Except BinaryFault (List VvpBit4 × List (BitVec 8)) := do
  if width = 0 then throw .noMatch
  let varlen := (size + 31) / 32
  let words := if width = uintMax then varlen else (width + 31) % 2 ^ 32 / 32
  let (val_ptr, src) ← scanWords four words 0 ((range varlen).map garbage) src
  let last := (words + uintMax) % 2 ^ 32
  if width ≠ uintMax ∧ varlen ≤ last then throw .outside
  let val_ptr := if width = uintMax then val_ptr else val_ptr.modify last fun v =>
    ⟨v.aval &&& upperMask width, if four then v.bval &&& upperMask width else v.bval⟩
  pure (vec4FromVectorVal (val_ptr.mapIdx fun word v => if words ≤ word then ⟨0, 0⟩ else v) size,
    src)

----
-- Words
----

/- One bit of some bytes. -/
def byteBit (src : List (BitVec 8)) (k : Nat) : Bool := (src.getD (k / 8) 0).getLsbD (k % 8)

variable {k size width : Nat} {four : Bool} {src : List (BitVec 8)}

theorem getWord_bit (src : List (BitVec 8)) (hk : k < 32) :
    (getWord src).getLsbD k = byteBit src k := by
  have hLoop : ∀ m, ((range m).foldl (fun bits byte =>
      bits ||| (src.getD byte 0).setWidth 32 <<< (byte * 8)) (0 : BitVec 32)).getLsbD k =
        (decide (k / 8 < m) && byteBit src k) := by
    intro m
    induction m with
    | zero => simp
    | succ m ih =>
      rw [List.range_succ, List.foldl_append, List.foldl_cons, List.foldl_nil, BitVec.getLsbD_or,
        ih, BitVec.getLsbD_shiftLeft, BitVec.getLsbD_setWidth]
      rcases Nat.lt_trichotomy (k / 8) m with hLt | hEq | hGt
      · simp [hLt, Nat.lt_succ_of_lt hLt, show k < m * 8 by omega]
      · have hBit : k - m * 8 = k % 8 := by omega
        simp [hBit, hEq, hk, byteBit, show ¬k < m * 8 by omega, show k % 8 < 32 by omega]
      · grind
  rw [getWord, hLoop, decide_eq_true (by omega), Bool.true_and]

theorem length_wordBytes (bits : BitVec 32) : (wordBytes bits).length = 4 := rfl

theorem length_vecvalBytes (four : Bool) (v : VpiVecval) :
    (vecvalBytes four v).length = vecvalSize four := by
  cases four <;> rfl

theorem getWord_wordBytes (bits : BitVec 32) (rest : List (BitVec 8)) :
    getWord (wordBytes bits ++ rest) = bits := by
  refine BitVec.eq_of_getLsbD_eq fun k hk => ?_
  rw [getWord_bit _ hk, byteBit, List.getD_append _ _ _ _ (by rw [length_wordBytes]; omega),
    List.getD_eq_getElem _ _ (by rw [length_wordBytes]; omega)]
  simp [wordBytes, Nat.mod_lt, Nat.div_add_mod']

theorem at_getVecval (four : Bool) (src : List (BitVec 8)) (hk : k < 32) :
    (getVecval four src).at k =
      bitOfVecval (byteBit src k) (four && byteBit (drop 4 src) k) := by
  unfold VpiVecval.at getVecval
  cases four with
  | false => simp [getWord_bit _ hk]
  | true => simp [getWord_bit _ hk]

----
-- The Array
----

theorem scanWords_spec {left word : Nat} {val_ptr : List VpiVecval}
    (hLong : vecvalSize four * left ≤ src.length) :
    scanWords four left word val_ptr src =
      .ok (val_ptr.mapIdx fun k v => if word ≤ k ∧ k < word + left then
          getVecval four (drop (vecvalSize four * (k - word)) src) else v,
        drop (vecvalSize four * left) src) := by
  induction left generalizing word val_ptr src with
  | zero =>
    have hSame : val_ptr.mapIdx (fun k v => if word ≤ k ∧ k < word + 0 then
        getVecval four (drop (vecvalSize four * (k - word)) src) else v) = val_ptr := by
      refine List.ext_getElem (by simp) fun k _ _ => ?_
      rw [List.getElem_mapIdx, if_neg (by omega)]
    rw [hSame]
    rfl
  | succ left ih =>
    rw [Nat.mul_succ] at hLong
    have hRest : vecvalSize four * left ≤ (drop (vecvalSize four) src).length := by
      rw [List.length_drop]
      omega
    rw [scanWords, if_neg (by omega), ih hRest, List.drop_drop, Nat.mul_succ,
      Nat.add_comm (vecvalSize four)]
    congr 2
    refine List.ext_getElem (by simp) fun k hk _ => ?_
    rw [List.getElem_mapIdx, List.getElem_mapIdx]
    rcases Nat.lt_trichotomy k word with hLt | rfl | hGt
    · rw [if_neg (by omega), if_neg (by omega), List.getElem_set_ne (by omega)]
    · simp
    · have hPlace : k - word = k - (word + 1) + 1 := by omega
      by_cases hIn : k < word + (left + 1)
      · rw [if_pos (by omega), if_pos (by omega), List.drop_drop, hPlace, Nat.mul_succ,
          Nat.add_comm (vecvalSize four)]
      · rw [if_neg (by omega), if_neg (by omega), List.getElem_set_ne (by omega)]

/- The words that are asked for, in the array. -/
def scannedWords (four : Bool) (width words : Nat) (src : List (BitVec 8)) (k : Nat) : VpiVecval :=
  let v := getVecval four (drop (vecvalSize four * k) src)
  if words ≤ k then ⟨0, 0⟩
  else if width ≠ uintMax ∧ k + 1 = words then
    ⟨v.aval &&& upperMask width, v.bval &&& upperMask width⟩
  else v

/- Some words, no more than the variable has, are read. -/
theorem scanBinary_ok {words : Nat}
    (garbage : Nat → VpiVecval) (hWidth : 0 < width) (hSome : 0 < words)
    (hWords : words = if width = uintMax then (size + 31) / 32 else (width + 31) % 2 ^ 32 / 32)
    (hRoom : words ≤ (size + 31) / 32) (hInt : (size + 31) / 32 < 2 ^ 32)
    (hLong : vecvalSize four * words ≤ src.length) :
    scanBinary four size width garbage src =
      .ok ((range size).map fun idx => (scannedWords four width words src (idx / 32)).at (idx % 32),
        drop (vecvalSize four * words) src) := by
  have hLast : (words + uintMax) % 2 ^ 32 = words - 1 := by
    unfold uintMax
    omega
  unfold scanBinary
  simp only [← hWords, if_neg (Nat.ne_of_gt hWidth), scanWords_spec hLong, hLast]
  simp only [bind, Except.bind, pure, Except.pure]
  rw [if_neg (by omega)]
  refine congrArg (fun bits => Except.ok (bits, drop (vecvalSize four * words) src))
    (List.map_congr_left fun idx hIdx => ?_)
  have hIn : idx / 32 < (size + 31) / 32 := by
    rw [List.mem_range] at hIdx
    omega
  rw [vectorBit_at]
  refine congrArg (VpiVecval.at · (idx % 32)) ?_
  rw [List.getD_eq_getElem _ _ (by split_ifs <;> simpa using hIn), List.getElem_mapIdx]
  unfold scannedWords
  by_cases hZero : words ≤ idx / 32
  · rw [if_pos hZero, if_pos hZero]
  · rw [if_neg hZero, if_neg hZero]
    have hRead : idx / 32 < words := Nat.not_le.mp hZero
    by_cases hNone : width = uintMax
    · simp [hNone, hRead]
    · by_cases hTop : words - 1 = idx / 32
      · have hEnd : idx / 32 + 1 = words := by omega
        cases four <;> simp [hNone, hTop, hEnd, hRead, getVecval]
      · grind

/- There is no last word, or the array ends before it. -/
theorem scanBinary_outside {words : Nat}
    (garbage : Nat → VpiVecval) (hWidth : 0 < width) (hLt : width < 2 ^ 32)
    (hWords : words = if width = uintMax then (size + 31) / 32 else (width + 31) % 2 ^ 32 / 32)
    (hSome : 0 < size) (hInt : size + 31 < 2 ^ 31) (hOut : ¬(0 < words ∧ words ≤ (size + 31) / 32))
    (hLong : vecvalSize four * words ≤ src.length) :
    scanBinary four size width garbage src = .error .outside := by
  have hGiven : width ≠ uintMax := by
    rintro rfl
    rw [if_pos rfl] at hWords
    omega
  have hLast : (size + 31) / 32 ≤ (words + uintMax) % 2 ^ 32 := by
    rw [if_neg hGiven] at hWords
    unfold uintMax
    omega
  unfold scanBinary
  simp only [← hWords, if_neg (Nat.ne_of_gt hWidth), scanWords_spec hLong, bind, Except.bind, pure,
    Except.pure]
  rw [if_pos ⟨hGiven, hLast⟩]
  rfl

----
-- The Values
----

/- One bit of the input. -/
def inputBit (four : Bool) (src : List (BitVec 8)) (idx : Nat) : VvpBit4 :=
  let word := drop (vecvalSize four * (idx / 32)) src
  bitOfVecval (byteBit word (idx % 32)) (four && byteBit (drop 4 word) (idx % 32))

theorem at_scannedWords {idx : Nat}
    (hWidth : 0 < width) (hGiven : width ≠ uintMax) :
    (scannedWords four width ((width + 31) / 32) src (idx / 32)).at (idx % 32) =
      if idx < width then inputBit four src idx else .zero := by
  have hMask : (upperMask width).getLsbD (idx % 32) = decide (idx % 32 ≤ (width - 1) % 32) := by
    unfold upperMask
    rw [BitVec.getLsbD_ushiftRight, BitVec.getLsbD_allOnes]
    exact decide_eq_decide.mpr (by omega)
  have hWord := at_getVecval four (drop (vecvalSize four * (idx / 32)) src)
    (Nat.mod_lt idx (by decide))
  unfold scannedWords
  dsimp only
  split_ifs with hAbove hTop hIn hIn
  · omega
  · simp [VpiVecval.at, bitOfVecval]
  · refine Eq.trans ?_ hWord
    rw [VpiVecval.at, BitVec.getLsbD_and, BitVec.getLsbD_and, hMask,
      decide_eq_true (by omega), Bool.and_true, Bool.and_true]
    rfl
  · rw [VpiVecval.at, BitVec.getLsbD_and, BitVec.getLsbD_and, hMask,
      decide_eq_false (by omega), Bool.and_false, Bool.and_false]
    rfl
  · exact hWord
  · omega

/- A variable takes as much as it has room for. -/
theorem scanBinary_none
    (garbage : Nat → VpiVecval) (hSome : 0 < size) (hInt : size + 31 < 2 ^ 31)
    (hLong : vecvalSize four * ((size + 31) / 32) ≤ src.length) :
    scanBinary four size uintMax garbage src =
      .ok ((range size).map (inputBit four src),
        drop (vecvalSize four * ((size + 31) / 32)) src) := by
  rw [scanBinary_ok garbage (by decide) (by omega) (if_pos rfl).symm (Nat.le_refl _) (by omega)
    hLong]
  refine congrArg (fun bits => Except.ok (bits, _)) (List.map_congr_left fun idx hIdx => ?_)
  have hIn := List.mem_range.mp hIdx
  rw [scannedWords, if_neg (by omega), if_neg (fun h => h.1 rfl)]
  exact at_getVecval four _ (Nat.mod_lt idx (by decide))

/- Pieces of one size start at its multiples. -/
theorem drop_flatMap {α β : Type} {f : α → List β} (hSize : ∀ a, (f a).length = size)
    (rest : List β) {l : List α} (hk : k < l.length) :
    ∃ after, drop (size * k) (l.flatMap f ++ rest) = f l[k] ++ after := by
  induction l generalizing k with
  | nil => exact absurd hk (Nat.not_lt_zero k)
  | cons a l ih =>
    rw [List.flatMap_cons, List.append_assoc]
    cases k with
    | zero => exact ⟨l.flatMap f ++ rest, rfl⟩
    | succ k =>
      rcases ih (Nat.lt_of_succ_lt_succ hk) with ⟨after, hAfter⟩
      refine ⟨after, ?_⟩
      rw [Nat.mul_succ, Nat.add_comm, ← List.drop_drop, List.drop_left' (hSize a)]
      exact hAfter

/- The writer's words are the reader's. -/
theorem inputBit_fwriteBytes {bits : List VvpBit4} (rest : List (BitVec 8)) {idx : Nat}
    (hIdx : idx < bits.length) :
    inputBit four (fwriteBytes four bits ++ rest) idx =
      if four || bits[idx] = .one then bits[idx] else .zero := by
  have hBit : ((formatVectorVal bits).getD (idx / 32) ⟨0, 0⟩).at (idx % 32) = bits[idx] := by
    rw [← vectorBit_at, vectorBit_formatVectorVal bits hIdx]
  generalize bits[idx] = bit at hBit
  have hk : idx / 32 < (range ((bits.length + 31) / 32)).length := by
    rw [List.length_range]
    omega
  rcases drop_flatMap (fun word => length_vecvalBytes four
    ((formatVectorVal bits).getD word ⟨0, 0⟩))
    rest hk with ⟨after, hAfter⟩
  rw [inputBit, fwriteBytes, hAfter, ← at_getVecval four _ (Nat.mod_lt idx (by decide)), getVecval,
    List.getElem_range]
  generalize (formatVectorVal bits).getD (idx / 32) ⟨0, 0⟩ = v at hBit ⊢
  cases four with
  | true =>
    simp only [vecvalBytes, if_true, Bool.true_or, List.append_assoc]
    rw [getWord_wordBytes, List.drop_left' (length_wordBytes v.aval), getWord_wordBytes, hBit]
  | false =>
    simp only [vecvalBytes, Bool.false_eq_true, if_false, Bool.false_or]
    rw [getWord_wordBytes, ← hBit, VpiVecval.at, VpiVecval.at, BitVec.getLsbD_and,
      BitVec.getLsbD_not, decide_eq_true (Nat.mod_lt idx (by decide))]
    have hZero : (0 : BitVec 32).getLsbD (idx % 32) = false := BitVec.getLsbD_zero
    dsimp only
    rw [hZero]
    cases v.aval.getLsbD (idx % 32) <;> cases v.bval.getLsbD (idx % 32) <;> rfl

theorem length_fwriteBytes (four : Bool) (bits : List VvpBit4) :
    (fwriteBytes four bits).length = vecvalSize four * ((bits.length + 31) / 32) := by
  simp [fwriteBytes, length_vecvalBytes, Nat.mul_comm]

----
-- Every Field And Variable
----

/-
  What is written comes back, whatever stood in the array.  A
  field of some width is read in whole, and its low bits are
  stored, exactly when it has no more words than the variable.
-/
theorem binary_scan_exact {size : Nat} (hSome : 0 < size) (hInt : size + 31 < 2 ^ 31) (four : Bool)
    (garbage : Nat → VpiVecval) :
    (∀ bits rest, bits.length = size →
      scanBinary four size (maxWidth none) garbage (fwriteBytes four bits ++ rest) =
        .ok (bits.map fun bit => if four || bit = .one then bit else .zero, rest)) ∧
    ∀ width src, 0 < width → vecvalSize four * ((width + 31) / 32) ≤ src.length →
      (scanBinary four size (maxWidth (some width)) garbage src =
        .ok ((range size).map fun idx => if idx < width then inputBit four src idx else .zero,
          drop (vecvalSize four * ((width + 31) / 32)) src) ↔
        (width + 31) / 32 ≤ (size + 31) / 32) := by
  constructor
  · rintro bits rest rfl
    have hLength := length_fwriteBytes four bits
    rw [maxWidth, scanBinary_none garbage hSome hInt (by rw [List.length_append]; omega),
      List.drop_left' hLength]
    refine congrArg (fun bits => Except.ok (bits, rest)) (List.ext_getElem (by simp) ?_)
    intro idx hIdx _
    rw [List.length_map, List.length_range] at hIdx
    rw [List.getElem_map, List.getElem_map, List.getElem_range, inputBit_fwriteBytes rest hIdx]
  · intro width src hWidth hLong
    constructor
    · intro hRead
      by_contra hRoom
      have hLt : maxWidth (some width) < 2 ^ 32 := Nat.mod_lt width (by decide)
      have hLe : maxWidth (some width) ≤ width := Nat.mod_le width _
      generalize maxWidth (some width) = max_width at hRead hLt hLe
      obtain ⟨words, hWords⟩ : ∃ words, words =
          if max_width = uintMax then (size + 31) / 32
          else (max_width + 31) % 2 ^ 32 / 32 := ⟨_, rfl⟩
      have hFewer : words ≤ (width + 31) / 32 := by
        split_ifs at hWords <;> omega
      have hEnough := Nat.le_trans (Nat.mul_le_mul_left (vecvalSize four) hFewer) hLong
      rcases Nat.eq_zero_or_pos max_width with rfl | hPos
      · cases hRead
      · by_cases hIn : 0 < words ∧ words ≤ (size + 31) / 32
        · rw [scanBinary_ok garbage hPos hIn.1 hWords hIn.2 (by omega) hEnough] at hRead
          -- fewer bytes are consumed
          have hRest := congrArg List.length (Prod.ext_iff.mp (Except.ok.inj hRead)).2
          have hLess : vecvalSize four * words < vecvalSize four * ((width + 31) / 32) :=
            Nat.mul_lt_mul_of_pos_left (by omega) (by cases four <;> decide)
          rw [List.length_drop, List.length_drop] at hRest
          omega
        · rw [scanBinary_outside garbage hPos hLt hWords hSome hInt hIn hEnough] at hRead
          cases hRead
    · intro hRoom
      have hMax : maxWidth (some width) = width := Nat.mod_eq_of_lt (by omega)
      have hGiven : width ≠ uintMax := by
        unfold uintMax
        omega
      have hWords : (width + 31) / 32 =
          if width = uintMax then (size + 31) / 32 else (width + 31) % 2 ^ 32 / 32 := by
        rw [if_neg hGiven, Nat.mod_eq_of_lt (by omega)]
      rw [hMax, scanBinary_ok garbage hWidth (by omega) hWords hRoom (by omega) hLong]
      simp only [at_scannedWords hWidth hGiven]

/- Two words in four states, and the low 36 bits of them. -/
theorem binary_scan_exact_bit :
    scanBinary true 40 (maxWidth none) (fun _ => ⟨0, 0⟩)
        (fwriteBytes true (List.replicate 40 .x) ++ [7]) =
      .ok (List.replicate 40 .x, [7]) ∧
    scanBinary true 40 (maxWidth (some 36)) (fun _ => ⟨0, 0⟩)
        (fwriteBytes true (List.replicate 40 .x)) =
      .ok (List.replicate 36 .x ++ List.replicate 4 .zero, []) := by
  have hExact := @binary_scan_exact 40 (by decide) (by decide) true fun _ => ⟨0, 0⟩
  refine ⟨hExact.1 _ [7] List.length_replicate, ?_⟩
  rw [(hExact.2 36 (fwriteBytes true (List.replicate 40 .x)) (by decide) (by decide)).mpr
    (by decide)]
  rfl

/- `%33u` masks a second word, of a variable that has one. -/
theorem wide_field_outside :
    scanBinary false 1 (maxWidth (some 33)) (fun _ => ⟨0, 0⟩) (List.replicate 8 1) =
      .error .outside :=
  rfl

end EpicSim
