import EpicSim.Lib.Numerals
import EpicSim.Vvp.VpipDigits

/-
  Vectors as decimal text.

  The writer shifts the bits in, 32 at a time, into an array of
  words in base 10^9, and writes the words from the last one
  without the leading zeros.  The bits of a negative vector are
  shifted in inverted, and one is added in the last shift.
-/

----
-- The Writer
----

namespace EpicSim

open List (replicate length_cons getD_eq_getElem getElem_mem append_nil all_cons)
open Nat (ofDigits mod_lt ofDigits_cons div_eq_of_lt)

namespace VpipText

open VvpBit4

def bigBase : Nat := 1000000000

/- `shift_in`, with the carry that it leaves.  The words are
   of 64 bits. -/
def shiftIn : List Nat → Nat → List Nat × Nat
| [], val => ([], val)
| word :: valv, val =>
  let val := (word * 2 ^ 32 + val) % 2 ^ 64
  let rest := shiftIn valv (val / bigBase)
  (val % bigBase :: rest.1, rest.2)

/- The array `segment`: the last digits of a value. -/
def segment : Nat → Nat → List Char
| 0, _ => []
| i + 1, v => segment i (v / 10) ++ [Char.ofNat ('0'.toNat + v % 10)]

/- `write_digits`: what is in the buffer, and zero_suppress. -/
def writeDigits (st : List Char × Bool) (v : Nat) : List Char × Bool :=
  (segment 9 v).foldl (fun st ch =>
    let zero_suppress := st.2 && ch == '0'
    if zero_suppress then (st.1, true) else (st.1 ++ [ch], false))
    st

/- The variables of the loop over the bits. -/
structure DecState where
  val : Nat
  valv : List Nat
  count_x : Nat
  count_z : Nat

/- A bit, inverted where the vector is negative. -/
def addBit (comp : Bool) (bit : VvpBit4) (st : DecState) : DecState :=
  match bit with
  | .z => { st with count_z := st.count_z + 1 }
  | .x => { st with count_x := st.count_x + 1 }
  | .one => if comp then st else { st with val := st.val + 1 }
  | .zero => if comp then { st with val := st.val + 1 } else st

/- What is shifted in after a bit, where 32 bits are complete. -/
def chunk (comp : Bool) (mbits idx val : Nat) : Option Nat :=
  if (mbits - idx - 1) % 32 = 0 then
    -- make negative 2's complement, not 1's complement
    some (if comp && idx == mbits - 1 then val + 1 else val)
  else none

/- A round of the loop over the bits. -/
def decStep (v : Vec4) (comp : Bool) (mbits : Nat) (st : DecState) (idx : Nat) : DecState :=
  let st := addBit comp (valueAt v (mbits - idx - 1)) st
  match chunk comp mbits idx st.val with
  | some val => { st with val := 0, valv := (shiftIn st.valv val).1 }
  | none => { st with val := st.val + st.val }

/- Number of non-sign bits. -/
def decBits (v : Vec4) (signed_flag : Bool) : Nat :=
  if signed_flag then unsignedPred v.length else v.length

/- The bit above them. -/
def decSign (v : Vec4) (signed_flag : Bool) : VvpBit4 :=
  if signed_flag then valueAt v (unsignedPred v.length) else .zero

/- The variables before a round.  The words are cleared on
   every call. -/
def decState (v : Vec4) (signed_flag : Bool) (rounds : Nat) : DecState :=
  let mbits := decBits v signed_flag
  let sign := decSign v signed_flag
  (List.range rounds).foldl (decStep v (sign == .one) mbits)
    { val := 0
      valv := replicate (((mbits * 28 + 92) / 93 + 8) / 9) 0
      count_x := if sign = .x then 1 else 0
      count_z := if sign = .z then 1 else 0 }

/- The digits of the words, from the last word on. -/
def decDigits (comp : Bool) (valv : List Nat) : List Char :=
  let st := valv.reverse.foldl writeDigits
    (if comp then ['-'] else [], true)
  if st.2 then
    st.1 ++ [Char.ofNat ('0'.toNat + if comp then 1 else 0)]
  else st.1

/- `vpip_vec4_to_dec_str`; none where its assertion fails. -/
def vpipVec4ToDecStr (v : Vec4) (signed_flag : Bool) : Option (List Char) :=
  let mbits := decBits v signed_flag
  if mbits < (2 ^ 32 - 1 - 92) / 28 then
    let st := decState v signed_flag mbits
    if st.count_x = v.length then some ['x']
    else if 0 < st.count_x then some ['X']
    else if st.count_z = v.length then some ['z']
    else if 0 < st.count_z then some ['Z']
    else some (decDigits (decSign v signed_flag == .one) st.valv)
  else none

----
-- Shifting In
----

/- No intermediate of `shift_in` is too long for its type. -/
def SumsFit : List Nat → Nat → Prop
| [], _ => True
| word :: valv, val => word * 2 ^ 32 + val < 2 ^ 64 ∧ SumsFit valv ((word * 2 ^ 32 + val) / bigBase)

/- The words multiplied by 2^32, and a value added. -/
theorem shiftIn_spec {valv : List Nat} (hDigits : ∀ word ∈ valv, word < bigBase) {val : Nat}
    (hVal : val ≤ 2 ^ 32) :
    SumsFit valv val ∧
      (shiftIn valv val).1.length = valv.length ∧
      (∀ word ∈ (shiftIn valv val).1, word < bigBase) ∧
      ofDigits bigBase (shiftIn valv val).1 + bigBase ^ valv.length * (shiftIn valv val).2 =
        ofDigits bigBase valv * 2 ^ 32 + val := by
  have hBase : bigBase = 1000000000 := rfl
  induction valv generalizing val with
  | nil =>
    refine ⟨trivial, rfl, fun word hMem => ?_, ?_⟩
    · cases hMem
    · simp [shiftIn]
  | cons word valv ih =>
    rcases List.forall_mem_cons.mp hDigits with ⟨hWord, hRest⟩
    have hSum : word * 2 ^ 32 + val < 2 ^ 64 := by omega
    have hCarry : (word * 2 ^ 32 + val) / bigBase ≤ 2 ^ 32 := by
      rw [hBase]
      omega
    have hPos : 0 < bigBase := by
      exact Nat.succ_pos _
    rcases ih hRest hCarry with ⟨hFit, hLength, hLess, hNumber⟩
    rw [SumsFit, shiftIn, Nat.mod_eq_of_lt hSum]
    clear ih hDigits hWord hRest hBase
    generalize bigBase = base at *
    generalize shiftIn valv _ = rest at *
    refine ⟨⟨hSum, hFit⟩, ?_, ?_, ?_⟩
    · rw [length_cons, length_cons, hLength]
    · exact List.forall_mem_cons.mpr ⟨mod_lt _ hPos, hLess⟩
    · have hSplit := Nat.mod_add_div (word * 2 ^ 32 + val) base
      rw [ofDigits_cons, length_cons, pow_succ' base]
      generalize 2 ^ 32 = radix at *
      calc
        (word * radix + val) % base + base * ofDigits base rest.1 +
            base * base ^ valv.length * rest.2
          = (word * radix + val) % base +
              base * (ofDigits base rest.1 +
                base ^ valv.length * rest.2) := by ring
        _ = (word * radix + val) % base +
              base * (ofDigits base valv * radix +
                (word * radix + val) / base) := by rw [hNumber]
        _ = ((word * radix + val) % base +
              base * ((word * radix + val) / base)) +
                base * ofDigits base valv * radix := by ring
        _ = (word + base * ofDigits base valv) * radix +
              val := by
            rw [hSplit]
            ring

variable {mbits : Nat} {v : Vec4}

/- There are words enough: 28/93 is more than the logarithm of
   two. -/
theorem words_enough (hPos : 0 < mbits) :
    2 ^ mbits < bigBase ^ (((mbits * 28 + 92) / 93 + 8) / 9) := by
  have hBase : bigBase = 10 ^ 9 := rfl
  rw [hBase, ← pow_mul]
  generalize hCount : 9 * (((mbits * 28 + 92) / 93 + 8) / 9) = d
  have hEnough : 28 * mbits ≤ 93 * d := by omega
  have hDigits : d ≠ 0 := by omega
  apply lt_of_pow_lt_pow_left₀ 28 (Nat.zero_le _)
  calc
    (2 ^ mbits) ^ 28
      = 2 ^ (28 * mbits) := by rw [← pow_mul, Nat.mul_comm]
    _ ≤ 2 ^ (93 * d) := Nat.pow_le_pow_right (by decide) hEnough
    _ = (2 ^ 93) ^ d := pow_mul _ _ _
    _ < (10 ^ 28) ^ d := Nat.pow_lt_pow_left (by norm_num) hDigits
    _ = (10 ^ d) ^ 28 := by rw [← pow_mul, ← pow_mul, Nat.mul_comm]

----
-- The Bits of the Magnitude
----

theorem testBit_number (v : Vec4) (i : Nat) :
    (number v).testBit i = decide (valueAt v i = .one) := by
  induction v generalizing i with
  | nil =>
    rw [number, Nat.zero_testBit]
    rfl
  | cons b rest ih =>
    have hCons : number (b :: rest) = 2 * number rest + (if b = .one then 1 else 0) := by
      rw [number, Nat.add_comm]
    cases i with
    | zero =>
      change _ = decide (b = .one)
      grind
    | succ i =>
      change _ = decide (valueAt rest i = .one)
      rw [← ih, Nat.testBit_succ, hCons, Nat.mul_add_div (by decide)]
      split_ifs <;> rfl

/- A number and the bit below it. -/
theorem div_pow_bit (x k : Nat) :
    x / 2 ^ k = 2 * (x / 2 ^ (k + 1)) + (if x.testBit k then 1 else 0) := by
  have hSplit := Nat.div_add_mod (x / 2 ^ k) 2
  rw [Nat.div_div_eq_div_mul, ← pow_succ] at hSplit
  rw [Nat.testBit_eq_decide_div_mod_eq]
  by_cases hOne : x / 2 ^ k % 2 = 1
  · rw [decide_eq_true hOne, if_pos rfl]
    omega
  · grind

/- The bits of a number in a chunk that gets one more bit. -/
theorem div_pow_mod_bit (x k j : Nat) :
    x / 2 ^ k % 2 ^ (j + 1) = 2 * (x / 2 ^ (k + 1) % 2 ^ j) + (if x.testBit k then 1 else 0) := by
  have hBit := div_pow_bit x k
  generalize (if x.testBit k then 1 else 0 : Nat) = bit at *
  have hLow : bit < 2 := by
    have hHalf : x / 2 ^ (k + 1) = x / 2 ^ k / 2 := by rw [Nat.div_div_eq_div_mul, ← pow_succ]
    omega
  rw [hBit, pow_succ' 2 j, Nat.mod_mul, Nat.mul_add_mod, Nat.mod_eq_of_lt hLow,
    Nat.mul_add_div (by decide), div_eq_of_lt hLow, Nat.add_zero, Nat.add_comm]

/- The place that the last complete chunk ends at, when `m` bits
   are left. -/
def chunkEnd (m : Nat) : Nat := 32 * ((m + 31) / 32)

/-
  The loop over the bits of a number: the words are the bits
  before the chunk, the value twice the bits of the chunk.  At
  the end the words are the number, and one more where the
  vector is negative.
-/
structure Shifted (comp : Bool) (mbits whole n : Nat) (st : DecState) : Prop where
  length : st.valv.length = ((mbits * 28 + 92) / 93 + 8) / 9
  digits : ∀ word ∈ st.valv, word < bigBase
  count_x : st.count_x = 0
  count_z : st.count_z = 0
  running :
    n < mbits →
      ofDigits bigBase st.valv = whole / 2 ^ chunkEnd (mbits - n) ∧
        st.val = 2 * (whole / 2 ^ (mbits - n) % 2 ^ (chunkEnd (mbits - n) - (mbits - n)))
  done : n = mbits → 0 < mbits → ofDigits bigBase st.valv = whole + if comp then 1 else 0

theorem addBit_eq {bit : VvpBit4} (hBit : bit = .zero ∨ bit = .one) (comp : Bool) (st : DecState) :
    addBit comp bit st =
      { st with
        val := st.val +
          if (decide (bit = .one) != comp) then 1 else 0 } := by
  rcases hBit with rfl | rfl <;> cases comp <;> rfl

/- What a round shifts in. -/
theorem chunk_spec {comp : Bool} {mbits whole n val : Nat} (hRound : n < mbits)
    (hVal : val = whole / 2 ^ (mbits - n - 1) % 2 ^ (chunkEnd (mbits - n) - (mbits - n) + 1)) :
    ((mbits - n - 1) % 32 = 0 →
      chunk comp mbits n val = some
        (whole / 2 ^ (mbits - n - 1) % 2 ^ 32 +
          if comp && n == mbits - 1 then 1 else 0)) ∧
    ((mbits - n - 1) % 32 ≠ 0 →
      chunk comp mbits n val = none) := by
  unfold chunk
  constructor
  · intro hFull
    have hWidth :
        chunkEnd (mbits - n) - (mbits - n) + 1 = 32 := by
      unfold chunkEnd
      omega
    rw [hWidth] at hVal
    rw [hVal]
    split_ifs <;> rfl
  · intro hPart
    rw [if_neg hPart]

/- A round: the words stay right, and what is shifted in fits. -/
theorem decStep_spec {comp : Bool} {mbits whole n : Nat} (hTwo : TwoState v)
    (hBits : mbits ≤ v.length) (hWhole : whole < 2 ^ mbits)
    (hTest : ∀ i < mbits, whole.testBit i = (decide (valueAt v i = .one) != comp))
    (hRound : n < mbits) {st : DecState} (hShifted : Shifted comp mbits whole n st) :
    Shifted comp mbits whole (n + 1) (decStep v comp mbits st n) ∧
      ∀ val, chunk comp mbits n (addBit comp (valueAt v (mbits - n - 1)) st).val = some val →
        val ≤ 2 ^ 32 ∧ SumsFit st.valv val ∧
          (shiftIn st.valv val).2 = 0 := by
  have hBit : valueAt v (mbits - n - 1) = .zero ∨
      valueAt v (mbits - n - 1) = .one := by
    apply hTwo
    unfold valueAt
    rw [getD_eq_getElem _ _ (by omega)]
    exact getElem_mem _
  rcases hShifted.running hRound with ⟨hWords, hVal⟩
  have hNext : mbits - n - 1 + 1 = mbits - n := by omega
  have hAdded : st.val +
      (if (decide (valueAt v (mbits - n - 1) = .one) != comp)
        then 1 else 0) =
      whole / 2 ^ (mbits - n - 1) % 2 ^ (chunkEnd (mbits - n) - (mbits - n) + 1) := by
    rw [div_pow_mod_bit, hNext, hTest _ (by omega), hVal]
  rcases @chunk_spec comp _ _ _ _ hRound hAdded with ⟨hFull, hPart⟩
  unfold decStep
  rw [addBit_eq hBit]
  dsimp only
  rw [hAdded] at hFull hPart ⊢
  by_cases hChunk : (mbits - n - 1) % 32 = 0
  · rw [hFull hChunk]
    have hEnd : chunkEnd (mbits - n) = mbits - n - 1 + 32 := by
      unfold chunkEnd
      omega
    generalize hIn : whole / 2 ^ (mbits - n - 1) % 2 ^ 32 +
      (if comp && n == mbits - 1 then 1 else 0) = val
    have hBound : val ≤ 2 ^ 32 := by
      rw [← hIn]
      split_ifs <;> omega
    rcases shiftIn_spec hShifted.digits hBound with ⟨hFit, hLength, hDigits, hNumber⟩
    have hTotal : ofDigits bigBase st.valv * 2 ^ 32 + val =
        whole / 2 ^ (mbits - n - 1) +
          if comp && n == mbits - 1 then 1 else 0 := by
      have hSplit := Nat.div_add_mod (whole / 2 ^ (mbits - n - 1)) (2 ^ 32)
      rw [Nat.div_div_eq_div_mul, ← pow_add] at hSplit
      rw [hWords, hEnd]
      omega
    have hCarry : (shiftIn st.valv val).2 = 0 := by
      have hEnough := words_enough (by omega : 0 < mbits)
      rw [← hShifted.length] at hEnough
      have hSmall : whole / 2 ^ (mbits - n - 1) ≤ whole := Nat.div_le_self _ _
      have hMost : bigBase ^ st.valv.length *
          (shiftIn st.valv val).2 < bigBase ^ st.valv.length := by
        split_ifs at hTotal <;> omega
      rcases Nat.eq_zero_or_pos (shiftIn st.valv val).2 with hZero | hSome
      · exact hZero
      · have hLarge := Nat.le_mul_of_pos_right (bigBase ^ st.valv.length) hSome
        omega
    rw [hCarry, hTotal] at hNumber
    refine ⟨⟨?_, hDigits, hShifted.count_x, hShifted.count_z, ?_, ?_⟩, ?_⟩
    · exact hLength.trans hShifted.length
    · intro hMore
      have hLeft : mbits - (n + 1) = mbits - n - 1 := by omega
      have hSame : chunkEnd (mbits - n - 1) = mbits - n - 1 := by
        unfold chunkEnd
        omega
      grind
    · grind
    · grind
  · rw [hPart hChunk]
    refine ⟨⟨hShifted.length, hShifted.digits, hShifted.count_x, hShifted.count_z, ?_, ?_⟩, ?_⟩
    · intro hMore
      have hLeft : mbits - (n + 1) = mbits - n - 1 := by omega
      have hSame : chunkEnd (mbits - n - 1) = chunkEnd (mbits - n) := by
        unfold chunkEnd
        omega
      have hWidth : chunkEnd (mbits - n) - (mbits - n - 1) =
          chunkEnd (mbits - n) - (mbits - n) + 1 := by
        unfold chunkEnd
        omega
      rw [hLeft, hSame, hWidth]
      exact ⟨hWords, (Nat.two_mul _).symm⟩
    · intro hLast
      omega
    · intro val hSome
      cases hSome

----
-- The Loop
----

theorem number_append (v w : Vec4) : number (v ++ w) = number v + 2 ^ v.length * number w := by
  induction v with
  | nil => simp [number]
  | cons b rest ih =>
    rw [List.cons_append, number, number, ih, length_cons]
    ring

/- The bits that are shifted in. -/
def magnitude (v : Vec4) (mbits : Nat) (comp : Bool) : Vec4 :=
  if comp then invert (v.take mbits) else v.take mbits

theorem length_magnitude (hBits : mbits ≤ v.length) (comp : Bool) :
    (magnitude v mbits comp).length = mbits := by
  have hTake : (v.take mbits).length = mbits := by rw [List.length_take, Nat.min_eq_left hBits]
  unfold magnitude
  split_ifs
  · unfold invert
    rw [List.length_map, hTake]
  · exact hTake

theorem testBit_magnitude (hTwo : TwoState v) (hBits : mbits ≤ v.length) (comp : Bool) {i : Nat}
    (hIn : i < mbits) :
    (number (magnitude v mbits comp)).testBit i = (decide (valueAt v i = .one) != comp) := by
  have hIdx : i < v.length := Nat.lt_of_lt_of_le hIn hBits
  have hTake : (v.take mbits)[i]? = some v[i] := by
    rw [List.getElem?_take_of_lt hIn, List.getElem?_eq_getElem hIdx]
  rw [testBit_number]
  unfold magnitude valueAt
  rw [List.getD_eq_getElem?_getD, List.getD_eq_getElem?_getD,
    List.getElem?_eq_getElem hIdx]
  cases comp with
  | false => rw [if_neg Bool.false_ne_true, hTake, Bool.bne_false]
  | true =>
    unfold invert
    rw [if_pos rfl, List.getElem?_map, hTake]
    rcases hTwo v[i] (getElem_mem hIdx) with hZero | hOne
    · rw [hZero]
      rfl
    · rw [hOne]
      rfl

theorem ofDigits_replicate_zero (base n : Nat) : ofDigits base (replicate n 0) = 0 := by
  induction n with
  | zero => rfl
  | succ n ih => rw [List.replicate_succ, ofDigits_cons, ih, Nat.mul_zero]

theorem decBits_le (hPos : 0 < v.length) (hLen : v.length < 2 ^ 32) (signed_flag : Bool) :
    decBits v signed_flag ≤ v.length := by
  unfold decBits
  rw [unsignedPred_eq hPos hLen]
  split_ifs <;> omega

/- The sign is a bit of the vector, or 0. -/
theorem decSign_defined (hTwo : TwoState v) (hPos : 0 < v.length) (hLen : v.length < 2 ^ 32)
    (signed_flag : Bool) : decSign v signed_flag = .zero ∨ decSign v signed_flag = .one := by
  unfold decSign
  split_ifs
  · apply hTwo
    rw [unsignedPred_eq hPos hLen]
    unfold valueAt
    rw [getD_eq_getElem _ _ (by omega)]
    exact getElem_mem _
  · exact Or.inl rfl

/- Every state of the loop, from the first one on. -/
theorem decState_spec (hTwo : TwoState v) (hPos : 0 < v.length)
    (hLen : v.length < 2 ^ 32) (signed_flag : Bool) {n : Nat} (hRound : n ≤ decBits v signed_flag) :
    Shifted (decSign v signed_flag == .one)
      (decBits v signed_flag)
      (number (magnitude v (decBits v signed_flag) (decSign v signed_flag == .one))) n
      (decState v signed_flag n) := by
  have hBits := decBits_le hPos hLen signed_flag
  have hSign := decSign_defined hTwo hPos hLen signed_flag
  have hWhole := number_lt (magnitude v (decBits v signed_flag) (decSign v signed_flag == .one))
  rw [length_magnitude hBits] at hWhole
  induction n with
  | zero =>
    unfold decState
    generalize decBits v signed_flag = mbits at *
    refine ⟨List.length_replicate, ?_, ?_, ?_, ?_, ?_⟩
    · intro word hMem
      rw [List.eq_of_mem_replicate hMem]
      decide
    · grind
    · grind
    · intro hSome
      have hAbove : 2 ^ mbits ≤ 2 ^ chunkEnd mbits := by
        apply Nat.pow_le_pow_right (by decide)
        unfold chunkEnd
        omega
      rw [Nat.sub_zero, div_eq_of_lt hWhole,
        div_eq_of_lt (Nat.lt_of_lt_of_le hWhole hAbove)]
      exact ⟨ofDigits_replicate_zero _ _, rfl⟩
    · intro hNone hSome
      omega
  | succ n ih =>
    have hTurn : decState v signed_flag (n + 1) =
        decStep v (decSign v signed_flag == .one)
          (decBits v signed_flag) (decState v signed_flag n)
          n := by
      unfold decState
      rw [List.range_succ, List.foldl_append]
      rfl
    rw [hTurn]
    exact (decStep_spec hTwo hBits hWhole
      (fun i hIn => testBit_magnitude hTwo hBits _ hIn)
      hRound (ih (Nat.le_of_succ_le hRound))).1

----
-- The Digits
----

theorem segment_eq (i v : Nat) : segment i v = Numerals.padded 10 i v := by
  induction i generalizing v with
  | zero => rfl
  | succ i ih =>
    have hChar : ∀ d < 10,
        Char.ofNat ('0'.toNat + d) = Nat.digitChar d := by
      decide
    rw [segment, Numerals.padded, ih, hChar _ (mod_lt v (by decide))]

/- Zeros are left out until another digit is written. -/
theorem suppress_spec (digits buf : List Char) :
    digits.foldl (fun (st : List Char × Bool) ch =>
        let zero_suppress := st.2 && ch == '0'
        if zero_suppress then (st.1, true)
        else (st.1 ++ [ch], false)) (buf, true) =
      (buf ++ digits.dropWhile (fun ch => ch == '0'),
        digits.all (fun ch => ch == '0')) := by
  have hRest : ∀ (digits buf : List Char),
      digits.foldl (fun (st : List Char × Bool) ch =>
          let zero_suppress := st.2 && ch == '0'
          if zero_suppress then (st.1, true)
          else (st.1 ++ [ch], false)) (buf, false) =
        (buf ++ digits, false) := by
    intro digits
    induction digits with
    | nil =>
      intro buf
      rw [append_nil]
      rfl
    | cons ch digits ih => grind
  induction digits with
  | nil =>
    rw [List.dropWhile_nil, append_nil]
    rfl
  | cons ch digits ih =>
    rw [List.foldl_cons]
    by_cases hZero : ch = '0'
    · simp only [hZero, BEq.rfl, Bool.and_self, if_true]
      rw [ih]
      simp
    · have hNot : (ch == '0') = false := beq_false_of_ne hZero
      simp only [hNot, Bool.and_false, Bool.false_eq_true, if_false]
      rw [hRest, List.dropWhile_cons_of_neg (by simp [hNot]), all_cons,
        hNot, Bool.false_and, List.append_assoc, List.singleton_append]

/- The words, from the last one on, are the digits of their
   number. -/
theorem flatMap_segment {valv : List Nat} (hDigits : ∀ word ∈ valv, word < bigBase) :
    valv.reverse.flatMap (segment 9) =
      Numerals.padded 10 (9 * valv.length) (ofDigits bigBase valv) := by
  have hBase : bigBase = 10 ^ 9 := rfl
  induction valv with
  | nil => rfl
  | cons word valv ih =>
    rcases List.forall_mem_cons.mp hDigits with ⟨hWord, hRest⟩
    rw [List.reverse_cons, List.flatMap_append, ih hRest, List.flatMap_singleton,
      length_cons, Nat.mul_succ, Numerals.padded_add, ofDigits_cons, segment_eq,
      ← Numerals.padded_mod 10 9 (word + _), ← hBase]
    generalize bigBase = base at *
    rw [Nat.add_mul_div_left _ _ (by omega), div_eq_of_lt hWord,
      Nat.zero_add, Nat.add_mul_mod_self_left, Nat.mod_eq_of_lt hWord]

theorem decDigits_eq (comp : Bool) {valv : List Nat} (hDigits : ∀ word ∈ valv, word < bigBase)
    (hLess : ofDigits bigBase valv < bigBase ^ valv.length) :
    decDigits comp valv =
      (if comp then ['-'] else []) ++
        if ofDigits bigBase valv = 0 then
          [if comp then '1' else '0']
        else Nat.toDigits 10 (ofDigits bigBase valv) := by
  have hBase : bigBase = 10 ^ 9 := rfl
  have hFold : ∀ st : List Char × Bool,
      valv.reverse.foldl writeDigits st =
        (valv.reverse.flatMap (segment 9)).foldl (fun st ch =>
          let zero_suppress := st.2 && ch == '0'
          if zero_suppress then (st.1, true)
          else (st.1 ++ [ch], false)) st := by
    intro st
    rw [List.foldl_flatMap]
    rfl
  have hBound : ofDigits bigBase valv < 10 ^ (9 * valv.length) := by
    rw [pow_mul]
    exact hLess
  unfold decDigits
  rw [hFold, suppress_spec, flatMap_segment hDigits,
    Numerals.dropWhile_padded (by decide) (by decide) hBound,
    Numerals.all_padded (by decide) (by decide) hBound]
  by_cases hZero : ofDigits bigBase valv = 0
  · simp only [hZero]
    cases comp <;> rfl
  · simp only [hZero, decide_false, Bool.false_eq_true, if_false]

----
-- The Text
----

/- The integer of a two-state vector, in two's complement where
   it is signed. -/
def integer (v : Vec4) (signed_flag : Bool) : Int :=
  if signed_flag = true ∧ valueAt v (v.length - 1) = .one then
    number v - 2 ^ v.length
  else number v

/- The decimal numeral of an integer. -/
def numeral (n : Int) : List Char :=
  (if n < 0 then ['-'] else []) ++ Nat.toDigits 10 n.natAbs

/- What the loop shifts in is the absolute value. -/
theorem magnitude_spec (hTwo : TwoState v) (hPos : 0 < v.length) (hLen : v.length < 2 ^ 32)
    (signed_flag : Bool) :
    integer v signed_flag =
      if decSign v signed_flag == .one then
        -(number (magnitude v (decBits v signed_flag) (decSign v signed_flag == .one)) + 1 : Int)
      else number (magnitude v (decBits v signed_flag)
        (decSign v signed_flag == .one)) := by
  have hTop : v.take (v.length - 1) ++ [valueAt v (v.length - 1)] = v := by
    unfold valueAt
    rw [getD_eq_getElem _ _ (by omega), ← List.take_succ_eq_append_getElem,
      List.take_of_length_le (by omega)]
  have hTake : (v.take (v.length - 1)).length = v.length - 1 := by
    rw [List.length_take]
    omega
  have hNumber : number v = number (v.take (v.length - 1)) +
      2 ^ (v.length - 1) *
        if valueAt v (v.length - 1) = .one then 1 else 0 := by
    have hSplit := number_append (v.take (v.length - 1)) [valueAt v (v.length - 1)]
    rw [hTop] at hSplit
    rw [hSplit]
    simp [number]
  have hPred := unsignedPred_eq hPos hLen
  generalize hComp' : (decSign v signed_flag == .one) = comp
  generalize hWhole' : number (magnitude v (decBits v signed_flag) comp) = whole
  cases signed_flag with
  | false =>
    have hComp : comp = false := hComp'.symm
    have hWhole : whole = number v := by
      rw [← hWhole', hComp, decBits, if_neg Bool.false_ne_true,
        magnitude, if_neg Bool.false_ne_true, List.take_length]
    rw [hComp, hWhole]
    rfl
  | true =>
    have hComp : comp = (valueAt v (v.length - 1) == .one) := by
      rw [← hComp', decSign, if_pos rfl, hPred]
    have hWhole : whole = number (magnitude v (v.length - 1) comp) := by
      rw [← hWhole', decBits, if_pos rfl, hPred]
    rw [hWhole]
    unfold integer magnitude
    by_cases hOne : valueAt v (v.length - 1) = .one
    · have hTwoTake : TwoState (v.take (v.length - 1)) :=
        fun b hMem => hTwo b (List.mem_of_mem_take hMem)
      have hFlip := number_invert hTwoTake
      rw [hTake] at hFlip
      have hTrue : comp = true := by
        rw [hComp, hOne]
        rfl
      have hPow : 2 ^ v.length = 2 * 2 ^ (v.length - 1) := by
        rw [← pow_succ', Nat.sub_add_cancel hPos]
      have hCast : (2 : Int) ^ v.length = 2 * ((2 ^ (v.length - 1) : Nat) : Int) := by
        exact_mod_cast hPow
      rw [if_pos ⟨rfl, hOne⟩, hTrue, if_pos rfl, if_pos rfl, hCast, hNumber, if_pos hOne, ← hFlip]
      push_cast
      ring
    · have hFalse : comp = false := by
        rw [hComp]
        exact beq_false_of_ne hOne
      rw [if_neg (fun hBoth => hOne hBoth.2), hFalse, if_neg Bool.false_ne_true,
        if_neg Bool.false_ne_true, hNumber, if_neg hOne, Nat.mul_zero, Nat.add_zero]

/- The words are left in their digits' range, with the absolute
   value, unless there is only a sign. -/
theorem decDigits_numeral (hTwo : TwoState v) (hPos : 0 < v.length) (hLen : v.length < 2 ^ 32)
    (signed_flag : Bool) :
    decDigits (decSign v signed_flag == .one)
        (decState v signed_flag (decBits v signed_flag)).valv =
      numeral (integer v signed_flag) := by
  have hInteger := magnitude_spec hTwo hPos hLen signed_flag
  have hShifted := decState_spec hTwo hPos hLen signed_flag (Nat.le_refl _)
  have hBits := decBits_le hPos hLen signed_flag
  have hWhole := number_lt (magnitude v (decBits v signed_flag) (decSign v signed_flag == .one))
  rw [length_magnitude hBits] at hWhole
  generalize number (magnitude v (decBits v signed_flag)
    (decSign v signed_flag == .one)) = whole at *
  generalize (decSign v signed_flag == .one) = comp at *
  generalize decBits v signed_flag = mbits at *
  generalize decState v signed_flag mbits = st at *
  rw [hInteger]
  unfold numeral
  rcases Nat.eq_zero_or_pos mbits with hNone | hSome
  · -- one bit that is the sign
    have hZero : whole = 0 := by
      rw [hNone] at hWhole
      omega
    have hEmpty : st.valv = [] := by rw [← List.length_eq_zero_iff, hShifted.length, hNone]
    rw [hEmpty, hZero]
    cases comp <;> rfl
  · have hNumber := hShifted.done rfl hSome
    have hEnough := words_enough hSome
    rw [← hShifted.length] at hEnough
    rw [decDigits_eq comp hShifted.digits (by rw [hNumber]; split_ifs <;> omega), hNumber]
    cases comp with
    | false =>
      have hSign : ¬ (whole : Int) < 0 := by omega
      simp only [Bool.false_eq_true, if_false, Nat.add_zero]
      split_ifs with hZero
      · rw [hZero]
        rfl
      · rfl
    | true => grind

/- The assertion on the number of bits. -/
def DecFits (v : Vec4) (signed_flag : Bool) : Prop :=
  decBits v signed_flag < (2 ^ 32 - 1 - 92) / 28

instance (v : Vec4) (signed_flag : Bool) : Decidable (DecFits v signed_flag) :=
  inferInstanceAs (Decidable (_ < _))

/- The text, in whole. -/
theorem decText_eq (hTwo : TwoState v) (hPos : 0 < v.length) (hLen : v.length < 2 ^ 32)
    (signed_flag : Bool) :
    vpipVec4ToDecStr v signed_flag =
      if DecFits v signed_flag then
        some (numeral (integer v signed_flag))
      else none := by
  have hShifted := decState_spec hTwo hPos hLen signed_flag (Nat.le_refl _)
  have hText := decDigits_numeral hTwo hPos hLen signed_flag
  unfold vpipVec4ToDecStr
  dsimp only
  rw [hShifted.count_x, hShifted.count_z, hText, if_neg (Nat.ne_of_lt hPos),
    if_neg (Nat.ne_of_lt hPos)]
  rfl

/- What a round shifts in, if anything. -/
def roundChunk (v : Vec4) (signed_flag : Bool) (idx : Nat) : Option Nat :=
  let mbits := decBits v signed_flag
  let comp := decSign v signed_flag == .one
  chunk comp mbits idx (addBit comp (valueAt v (mbits - idx - 1)) (decState v signed_flag idx)).val

/-
  A two-state vector whose width passes the assertion is written
  as its numeral.  Every value that is shifted in is at most
  2^32, no intermediate is past 64 bits, and no carry is left.
-/
theorem decimal_text_exact {v : Vec4} (hTwo : TwoState v) (hPos : 0 < v.length)
    (hLen : v.length < 2 ^ 32) (signed_flag : Bool) :
    (DecFits v signed_flag →
      vpipVec4ToDecStr v signed_flag = some (numeral (integer v signed_flag)) ∧
      ∀ idx < decBits v signed_flag, ∀ val,
        roundChunk v signed_flag idx = some val →
          val ≤ 2 ^ 32 ∧
          SumsFit (decState v signed_flag idx).valv val ∧
          (shiftIn (decState v signed_flag idx).valv val).2 = 0) ∧
    (¬ DecFits v signed_flag →
      vpipVec4ToDecStr v signed_flag = none) := by
  have hText := decText_eq hTwo hPos hLen signed_flag
  refine ⟨fun hFits => ⟨?_, fun idx hIdx => ?_⟩, fun hWide => ?_⟩
  · rw [hText, if_pos hFits]
  · have hBits := decBits_le hPos hLen signed_flag
    have hWhole := number_lt (magnitude v (decBits v signed_flag) (decSign v signed_flag == .one))
    rw [length_magnitude hBits] at hWhole
    exact (decStep_spec hTwo hBits hWhole
      (fun i hIn => testBit_magnitude hTwo hBits _ hIn) hIdx
      (decState_spec hTwo hPos hLen signed_flag (Nat.le_of_lt hIdx))).2
  · rw [hText, if_neg hWide]

/- -2 in two bits. -/
theorem decimal_text_exact_two :
    vpipVec4ToDecStr [.zero, .one] true = some (numeral (integer [.zero, .one] true)) :=
  ((decimal_text_exact (v := [.zero, .one]) (by decide)
    (by decide) (by decide) true).1 (by decide)).1

/- The assertion fails for a vector of 2^31 zeros. -/
theorem widest_vectors_abort :
    ¬ ∀ v : Vec4, TwoState v → 0 < v.length →
      v.length < 2 ^ 32 → ∀ signed_flag,
        vpipVec4ToDecStr v signed_flag = some (numeral (integer v signed_flag)) := by
  intro hAll
  have hLength : (replicate (2 ^ 31) VvpBit4.zero).length = 2 ^ 31 := List.length_replicate
  have hTwo : TwoState (replicate (2 ^ 31) VvpBit4.zero) :=
    fun b hMem => Or.inl (List.eq_of_mem_replicate hMem)
  have hPos : 0 < (replicate (2 ^ 31) VvpBit4.zero).length := by
    rw [hLength]
    decide
  have hLen : (replicate (2 ^ 31) VvpBit4.zero).length < 2 ^ 32 := by
    rw [hLength]
    decide
  have hWide : ¬ DecFits (replicate (2 ^ 31) VvpBit4.zero)
      false := by
    unfold DecFits decBits
    rw [hLength]
    decide
  have hNone := decText_eq hTwo hPos hLen false
  rw [if_neg hWide, hAll _ hTwo hPos hLen false] at hNone
  cases hNone

end VpipText

end EpicSim
