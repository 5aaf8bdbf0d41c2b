import EpicSim.Ivl.VerinumCompare
import EpicSim.Ivl.VerinumDivision

/-
  Powers of the compiler's numbers.

  `pow` and `recursive_pow` call each other, on an exponent
  that loses its lowest bit or is halved.  The number of calls
  is bounded here by a counter; a negative exponent calls
  nothing.
-/

----
-- Operator
----

namespace EpicSim

namespace Verinum

open VerinumV

/- `make_p_one`. -/
def makePOne (len : Nat) (has_len has_sign : Bool) : Verinum :=
  ((fill .v0 (if has_len then len else 2) has_len).set 0 .v1).withSign has_sign

/- `make_m_one`. -/
def makeMOne (len : Nat) (has_len has_sign : Bool) : Verinum :=
  (fill .v1 (if has_len then len else 1) has_len).withSign has_sign

/- `operator *`; `sign_bit` asserts that the right number has
   a bit if it is signed. -/
def times (left right : Verinum) : Option Verinum :=
  if right.has_sign ∧ right.len = 0 then none
  else some (mul left right)

/- `recursive_pow`, with the `pow` that it calls. -/
def recursivePow (power : Verinum → Verinum → Option Verinum)
    (left right : Verinum) : Option Verinum :=
  if right.isZero then
    some (makePOne left.len left.has_len left.has_sign)
  else if right.get 0 = .v1 then do
    let result ← power left (right.set 0 .v0)
    times left result
  else do
    let result ← power left (right.shiftRight 1)
    times result result

/- A number of one kind of bit, as wide as another one. -/
def fillLike (val : VerinumV) (left : Verinum) : Verinum :=
  (fill val left.len left.has_len).withSign left.has_sign

/- `pow`, where the exponent is negative. -/
def negativePow (left right : Verinum) : Verinum :=
  let p_one := makePOne left.len left.has_len left.has_sign
  let m_one := makeMOne left.len left.has_len left.has_sign
  if left.isZero then fillLike .vx left
  else if left.has_sign ∧ equalTo left m_one ≠ .v0 then
    if right.get 0 = .v0 then p_one else m_one
  else if equalTo left p_one ≠ .v0 then p_one
  else fillLike .v0 left

/- `pow`, within a number of calls. -/
def pow : Nat → Verinum → Verinum → Option Verinum
| 0, _, _ => none
| calls + 1, left, right =>
  if !left.isDefined || !right.isDefined then
    some (trimVnum (fillLike .vx left))
  else if right.isZero then
    some (trimVnum (makePOne left.len left.has_len left.has_sign))
  else if right.isNegative then
    some (trimVnum (negativePow left right))
  else
    (recursivePow (pow calls) left right).map trimVnum

end Verinum

----
-- Constants
----

open TwosComplement

namespace Verinum

theorem low_first {n : Nat} (hn : 0 < n) : low (fun i => i == 0) n = 1 := by
  have hTrim : low (fun i => i == 0) n = low (fun i => i == 0) 1 :=
    low_trim_zero hn (fun i hi _ => beq_false_of_ne (by omega))
  rw [hTrim]
  rfl

theorem low_true (n : Nat) : low (fun _ => true) n + 1 = 2 ^ n := by
  have hNot := low_not (fun _ => true) n
  have hZero : low (fun _ => !true) n = 0 := low_false n
  rw [hZero, Nat.zero_add] at hNot
  exact hNot

/- The length of the constants beside a number. -/
def oneLen (len short : Nat) (has_len : Bool) : Nat :=
  if has_len then len else short

theorem makePOne_hasBits {len : Nat} (hLen : 0 < len) (hStored : len < 2 ^ 32)
    (has_len has_sign : Bool) :
    (makePOne len has_len has_sign).HasBits (oneLen len 2 has_len) (fun i => i == 0) := by
  have hBits : (makePOne len has_len has_sign).bits =
      (List.replicate (oneLen len 2 has_len) VerinumV.v0).set 0 .v1 := by
    change (List.replicate (unsigned _) _).set _ _ = _
    rw [unsigned_of_lt (by split_ifs <;> omega)]
    rfl
  have hPos : 0 < oneLen len 2 has_len := by
    unfold oneLen
    split_ifs <;> omega
  constructor
  · rw [Verinum.len, hBits, List.length_set, List.length_replicate]
  · intro idx hIdx
    rw [get, hBits, List.getD_eq_getElem?_getD,
      List.getElem?_set, List.length_replicate, if_pos hPos]
    by_cases hFirst : 0 = idx
    · rw [← hFirst]
      rfl
    · rw [if_neg hFirst, List.getElem?_replicate, if_pos hIdx, beq_false_of_ne (Ne.symm hFirst)]
      rfl

theorem makeMOne_hasBits {len : Nat} (hStored : len < 2 ^ 32) (has_len has_sign : Bool) :
    (makeMOne len has_len has_sign).HasBits (oneLen len 1 has_len) (fun _ => true) := by
  apply hasBits_replicate true
  change List.replicate (unsigned _) _ = _
  rw [unsigned_of_lt (by split_ifs <;> omega)]
  rfl

section

variable {len : Nat} (hLen : 0 < len) (hStored : len < 2 ^ 32)

include hLen hStored

/- One is one, but for a single bit with a sign. -/
theorem makePOne_integer (has_len has_sign : Bool) :
    (makePOne len has_len has_sign).integer =
      if has_len ∧ has_sign ∧ len = 1 then -1 else 1 := by
  have hHas := makePOne_hasBits hLen hStored has_len has_sign
  rw [hHas.integer]
  change value has_sign _ _ = _
  have hPos : 0 < oneLen len 2 has_len := by
    unfold oneLen
    split_ifs <;> omega
  unfold value
  rw [low_first hPos, sign_of_pos has_sign hPos]
  cases has_sign with
  | false => simp
  | true =>
    rw [Bool.true_and]
    by_cases hShort : has_len = true ∧ len = 1
    · rcases hShort with ⟨hSized, hOne⟩
      rw [hSized, hOne]
      rfl
    · have hLong : oneLen len 2 has_len - 1 ≠ 0 := by
        unfold oneLen
        grind
      rw [beq_false_of_ne hLong, if_neg Bool.false_ne_true, if_neg (fun h => hShort ⟨h.1, h.2.2⟩)]
      rfl

/- Modulo its length it is always one. -/
theorem makePOne_modEq (has_len has_sign : Bool) :
    (makePOne len has_len has_sign).integer ≡ 1 [ZMOD 2 ^ oneLen len 2 has_len] := by
  have hHas := makePOne_hasBits hLen hStored has_len has_sign
  have hPos : 0 < oneLen len 2 has_len := by
    unfold oneLen
    split_ifs <;> omega
  have hMod := number_modEq_integer (makePOne len has_len has_sign)
  rw [hHas.number, hHas.len_eq, low_first hPos] at hMod
  exact hMod.symm

theorem makeMOne_integer (has_len : Bool) :
    (makeMOne len has_len true).integer = -1 := by
  have hHas := makeMOne_hasBits hStored has_len true
  have hPos : 0 < oneLen len 1 has_len := by
    unfold oneLen
    split_ifs <;> omega
  rw [hHas.integer]
  change value true _ _ = _
  have hLow := low_true (oneLen len 1 has_len)
  have hCast := cast_two_pow (oneLen len 1 has_len)
  unfold value
  rw [sign_of_pos true hPos, Bool.true_and, if_pos rfl]
  omega

end

end Verinum

end EpicSim

----
-- Negative Exponents
----

namespace EpicSim

open TwosComplement

namespace Verinum

/- A defined number that is what an operator must compute. -/
structure Denotes (sized : Bool) (len : Nat) (n : Int)
    (res : Verinum) : Prop extends Right sized len n res where
  defined : res.Defined

/- A number of unknown bits, of the length of a sized one. -/
structure Unknown (sized : Bool) (len : Nat) (res : Verinum) : Prop where
  len_pos : 0 < res.len
  all_x : ∀ b ∈ res.bits, b = .vx
  modulo : sized = true → res.has_len = true ∧ res.len = len

/- The power of a number to a negative exponent. -/
structure NegativePower (left right res : Verinum) : Prop where
  zero : left.integer = 0 → Unknown left.has_len left.len res
  one : left.integer = 1 → Denotes left.has_len left.len 1 res
  minus_one : left.has_sign = true → left.integer = -1 →
    Denotes left.has_len left.len (if right.integer % 2 = 0 then 1 else -1) res
  other : left.integer ≠ 0 → left.integer ≠ 1 →
    ¬(left.has_sign = true ∧ left.integer = -1) → Denotes left.has_len left.len 0 res

theorem Denotes.trim {sized : Bool} {len : Nat} {n : Int} {res : Verinum}
    (h : Denotes sized len n res) : Denotes sized len n (trimVnum res) := by
  have hTrim := trimVnum_spec h.defined
  refine ⟨⟨fun hOpen => ?_, fun hSized => ?_⟩, hTrim.defined⟩
  · exact hTrim.integer.trans (h.exact hOpen)
  · rcases h.modulo hSized with ⟨hHasLen, hLen, hMod⟩
    rw [hTrim.sized hHasLen]
    exact ⟨hHasLen, hLen, hMod⟩

variable {v left right : Verinum}

/- Trimming takes some of the lowest bits. -/
theorem trimVnum_take (hLen : 0 < v.len) : ∃ n, 0 < n ∧ (trimVnum v).bits = v.bits.take n := by
  have hWhole : ∃ n, 0 < n ∧ v.bits = v.bits.take n := ⟨v.len, hLen, (List.take_length).symm⟩
  unfold trimVnum
  split_ifs
  · exact hWhole
  · exact hWhole
  · exact ⟨_, Nat.succ_pos _, rfl⟩
  · simp only
    split_ifs with hFull hZero
    · exact hWhole
    · exact ⟨_, Nat.succ_pos _, rfl⟩
    · exact ⟨_, Nat.succ_pos _, rfl⟩

theorem Unknown.trim {sized : Bool} {len : Nat} {res : Verinum} (h : Unknown sized len res) :
    Unknown sized len (trimVnum res) := by
  rcases trimVnum_take h.len_pos with ⟨n, hn, hBits⟩
  refine ⟨trimVnum_pos h.len_pos, fun b hb => ?_, fun hSized => ?_⟩
  · rw [hBits] at hb
    exact h.all_x b (List.mem_of_mem_take hb)
  · rcases h.modulo hSized with ⟨hHasLen, hLen⟩
    rw [trimVnum_sized hHasLen]
    exact ⟨hHasLen, hLen⟩

theorem fillLike_bits (hStored : left.len < 2 ^ 32) (val : VerinumV) :
    (fillLike val left).bits = List.replicate left.len val := by
  change List.replicate (unsigned left.len) val = _
  rw [unsigned_of_lt hStored]

theorem fillLike_unknown (hLen : 0 < left.len) (hStored : left.len < 2 ^ 32) :
    Unknown left.has_len left.len (fillLike .vx left) := by
  have hBits := fillLike_bits hStored .vx
  have hSame : (fillLike .vx left).len = left.len := by rw [len, hBits, List.length_replicate]
  refine ⟨by omega, fun b hb => ?_, fun hSized => ⟨hSized, hSame⟩⟩
  exact List.eq_of_mem_replicate hb

theorem fillLike_zero (hStored : left.len < 2 ^ 32) :
    Denotes left.has_len left.len 0 (fillLike .v0 left) := by
  have hHas := hasBits_replicate false (fillLike_bits hStored .v0)
  have hZero : (fillLike .v0 left).integer = 0 := by
    rw [← isZero_iff hHas.defined]
    unfold isZero
    rw [fillLike_bits hStored]
    simp
  refine ⟨⟨fun _ => hZero, fun hSized => ⟨hSized, hHas.len_eq, ?_⟩⟩, hHas.defined⟩
  rw [hZero]

theorem makePOne_denotes (hLen : 0 < left.len) (hStored : left.len < 2 ^ 32) :
    Denotes left.has_len left.len 1 (makePOne left.len left.has_len left.has_sign) := by
  have hHas := makePOne_hasBits hLen hStored left.has_len
    left.has_sign
  have hInteger := makePOne_integer hLen hStored left.has_len
    left.has_sign
  have hMod := makePOne_modEq hLen hStored left.has_len
    left.has_sign
  refine ⟨⟨fun hOpen => ?_, fun hSized => ?_⟩, hHas.defined⟩
  · grind
  · have hWidth : oneLen left.len 2 left.has_len = left.len :=
      if_pos hSized
    rw [hWidth] at hMod
    exact ⟨hSized, hHas.len_eq.trans hWidth, hMod⟩

theorem makeMOne_denotes (hLen : 0 < left.len) (hStored : left.len < 2 ^ 32)
    (hSigned : left.has_sign = true) :
    Denotes left.has_len left.len (-1) (makeMOne left.len left.has_len left.has_sign) := by
  have hHas := makeMOne_hasBits hStored left.has_len
    left.has_sign
  have hInteger := makeMOne_integer hLen hStored left.has_len
  rw [← hSigned] at hInteger
  refine ⟨⟨fun _ => hInteger, fun hSized => ?_⟩, hHas.defined⟩
  have hWidth : oneLen left.len 1 left.has_len = left.len := if_pos hSized
  exact ⟨hSized, hHas.len_eq.trans hWidth, by rw [hInteger]⟩

/- The lowest bit is the parity. -/
theorem get_zero_iff (h : v.Defined) (hLen : 0 < v.len) : v.get 0 = .v0 ↔ v.integer % 2 = 0 := by
  have hMod := v.number_modEq_integer
  have hTwo : (2 : Int) ∣ 2 ^ v.len := dvd_pow_self 2 (Nat.pos_iff_ne_zero.mp hLen)
  have hParity : (v.number : Int) % 2 = v.integer % 2 := hMod.of_dvd hTwo
  have hLow := low_mod v.bit (show 1 ≤ v.len from hLen)
  have hOne : low v.bit 1 = (v.bit 0).toNat := by simp [low]
  rw [get_of_defined h hLen, ← hParity]
  unfold number
  rw [hOne] at hLow
  cases hBit : v.bit 0 with
  | false =>
    rw [hBit, Bool.toNat_false] at hLow
    exact ⟨fun _ => by omega, fun _ => rfl⟩
  | true =>
    rw [hBit, Bool.toNat_true] at hLow
    exact ⟨fun h => (by cases h), fun h => (by omega)⟩

theorem equalTo_ne_iff (hLeft : left.Defined) (hRight : right.Defined)
    (hSign : left.has_sign = right.has_sign) (hLenLeft : 0 < left.len) (hLenRight : 0 < right.len) :
    equalTo left right ≠ .v0 ↔ left.integer = right.integer := by
  rw [equalTo_integer hLeft hRight hSign hLenLeft hLenRight]
  by_cases hSame : left.integer = right.integer
  · rw [decide_eq_true hSame]
    exact ⟨fun _ => hSame, fun _ h => by cases h⟩
  · rw [decide_eq_false hSame]
    exact ⟨fun h => absurd rfl h, fun h => absurd h hSame⟩

/- One bit with a sign cannot be one. -/
theorem integer_ne_one_of_short (hSigned : v.has_sign = true) (hShort : v.len = 1) :
    v.integer ≠ 1 := by
  have hFits := v.integer_fits
  rw [hSigned, hShort] at hFits
  intro hOne
  rw [hOne] at hFits
  exact absurd hFits (by decide)

/- The cases of a negative exponent, before trimming. -/
theorem negativePow_spec (hLeft : left.Defined) (hRight : right.Defined)
    (hLen : 0 < left.len) (hStored : left.len < 2 ^ 32) (hLenRight : 0 < right.len) :
    NegativePower left right (trimVnum (negativePow left right)) := by
  have hPLen : 0 < (makePOne left.len left.has_len
      left.has_sign).len := by
    rw [(makePOne_hasBits hLen hStored _ _).len_eq]
    unfold oneLen
    split_ifs <;> omega
  have hMLen : 0 < (makeMOne left.len left.has_len
      left.has_sign).len := by
    rw [(makeMOne_hasBits hStored _ _).len_eq]
    unfold oneLen
    split_ifs <;> omega
  have hMinus := equalTo_ne_iff hLeft
    (makeMOne_hasBits hStored left.has_len left.has_sign).defined rfl hLen hMLen
  have hPlus := equalTo_ne_iff hLeft
    (makePOne_hasBits hLen hStored left.has_len left.has_sign).defined rfl hLen hPLen
  unfold negativePow
  by_cases hZero : left.integer = 0
  · rw [if_pos ((isZero_iff hLeft).mpr hZero)]
    exact
      { zero := fun _ => (fillLike_unknown hLen hStored).trim
        one := fun h => by omega
        minus_one := fun _ h => by omega
        other := fun h _ _ => absurd hZero h }
  rw [if_neg (mt (isZero_iff hLeft).mp hZero)]
  by_cases hMOne : left.has_sign = true ∧ left.integer = -1
  · rcases hMOne with ⟨hSigned, hValue⟩
    have hTest : left.integer = (makeMOne left.len left.has_len
        left.has_sign).integer := by
      rw [hSigned, makeMOne_integer hLen hStored]
      exact hValue
    rw [if_pos ⟨hSigned, hMinus.mpr hTest⟩]
    refine
      { zero := fun h => absurd h hZero
        one := fun h => by omega
        minus_one := fun _ _ => ?_
        other := fun _ _ h => absurd ⟨hSigned, hValue⟩ h }
    by_cases hEven : right.integer % 2 = 0
    · rw [if_pos ((get_zero_iff hRight hLenRight).mpr hEven), if_pos hEven]
      exact (makePOne_denotes hLen hStored).trim
    · rw [if_neg (mt (get_zero_iff hRight hLenRight).mp hEven), if_neg hEven]
      exact (makeMOne_denotes hLen hStored hSigned).trim
  · have hNotM : ¬(left.has_sign = true ∧ equalTo left
        (makeMOne left.len left.has_len left.has_sign) ≠ .v0) := by
      rintro ⟨hSigned, hTest⟩
      have hSame := hMinus.mp hTest
      rw [hSigned, makeMOne_integer hLen hStored] at hSame
      exact hMOne ⟨hSigned, hSame⟩
    rw [if_neg hNotM]
    have hIff : left.integer = (makePOne left.len left.has_len
        left.has_sign).integer ↔ left.integer = 1 := by
      rw [makePOne_integer hLen hStored]
      split_ifs with hShort
      · -- one bit with a sign: neither constant
        exact ⟨fun h => absurd ⟨hShort.2.1, h⟩ hMOne, fun h =>
          absurd h (integer_ne_one_of_short hShort.2.1 hShort.2.2)⟩
      · exact Iff.rfl
    by_cases hOne : left.integer = 1
    · rw [if_pos (hPlus.mpr (hIff.mpr hOne))]
      exact
        { zero := fun h => absurd h hZero
          one := fun _ => (makePOne_denotes hLen hStored).trim
          minus_one := fun _ h => by omega
          other := fun _ h _ => absurd hOne h }
    · rw [if_neg (fun h => hOne (hIff.mp (hPlus.mp h)))]
      exact
        { zero := fun h => absurd h hZero
          one := fun h => absurd h hOne
          minus_one := fun hSigned h => absurd ⟨hSigned, h⟩ hMOne
          other := fun _ _ _ => (fillLike_zero hStored).trim }

theorem pow_negative (hLeft : left.Defined) (hRight : right.Defined)
    (hLen : 0 < left.len) (hStored : left.len < 2 ^ 32) (hNegative : right.integer < 0) :
    ∃ res, NegativePower left right res ∧
      ∀ calls, 0 < calls → pow calls left right = some res := by
  have hLenRight : 0 < right.len := by
    by_contra hEmpty
    have hFits := right.integer_fits
    have hZero : right.len = 0 := by omega
    rw [hZero] at hFits
    unfold Fits at hFits
    split_ifs at hFits <;> omega
  refine ⟨_, negativePow_spec hLeft hRight hLen hStored hLenRight, fun calls hCalls => ?_⟩
  have hUndefined : (!left.isDefined || !right.isDefined) =
      false := by
    rw [show left.isDefined = true from hLeft, show right.isDefined = true from hRight]
    rfl
  rcases Nat.exists_eq_succ_of_ne_zero (Nat.pos_iff_ne_zero.mp hCalls) with ⟨n, rfl⟩
  rw [pow, hUndefined, if_neg Bool.false_ne_true, isZero_eq_false hRight (by omega),
    if_neg Bool.false_ne_true, isNegative_eq hLenRight, decide_eq_true hNegative, if_pos rfl]

end Verinum

end EpicSim

----
-- Exponents
----

namespace EpicSim

open TwosComplement

namespace Verinum

/- A defined number that counts. -/
structure Exponent (v : Verinum) (n : Nat) : Prop where
  defined : v.Defined
  stored : v.len < 2 ^ 32
  integer : v.integer = n

namespace Exponent

variable {v : Verinum} {n : Nat}

section

variable (h : v.Exponent n)

include h

theorem len_pos (hn : n ≠ 0) : 0 < v.len := by
  by_contra hEmpty
  have hFits := v.integer_fits
  have hZero : v.len = 0 := by omega
  rw [hZero, h.integer] at hFits
  unfold Fits at hFits
  split_ifs at hFits <;> omega

theorem isZero_iff : v.isZero = true ↔ n = 0 := by
  rw [Verinum.isZero_iff h.defined, h.integer]
  exact Int.natCast_eq_zero

theorem isNegative (hn : n ≠ 0) : v.isNegative = false := by
  rw [isNegative_eq (h.len_pos hn), h.integer]
  exact decide_eq_false (by omega)

theorem odd_iff (hn : n ≠ 0) : v.get 0 = .v1 ↔ n % 2 = 1 := by
  have hZero := get_zero_iff h.defined (h.len_pos hn)
  have hGet := get_of_defined h.defined (h.len_pos hn)
  rw [h.integer] at hZero
  rw [hGet] at hZero ⊢
  cases hBit : v.bit 0 with
  | false =>
    have hEven := hZero.mp (by rw [hBit]; rfl)
    exact ⟨fun h => (by cases h), fun h => (by omega)⟩
  | true =>
    refine ⟨fun _ => ?_, fun _ => rfl⟩
    grind

/- The lowest bit of an odd exponent is cleared. -/
theorem clear (hOdd : n % 2 = 1) : (v.set 0 .v0).Exponent (n - 1) := by
  have hn : n ≠ 0 := by omega
  have hPos := h.len_pos hn
  have hTop : v.bit 0 = true := by
    have hGet := (h.odd_iff hn).mpr hOdd
    rw [get_of_defined h.defined hPos] at hGet
    cases hBit : v.bit 0 with
    | false => rw [hBit] at hGet; cases hGet
    | true => rfl
  have hHas : (v.set 0 .v0).HasBits v.len (fun i => if i = 0 then false else v.bit i) := by
    constructor
    · exact List.length_set
    · intro i hi
      change (v.bits.set 0 .v0).getD i .vx = _
      rw [List.getD_eq_getElem?_getD, List.getElem?_set]
      by_cases hSame : 0 = i
      · rw [if_pos hSame, if_pos hSame.symm, if_pos (show 0 < v.bits.length from hPos)]
        rfl
      · rw [if_neg hSame, if_neg (Ne.symm hSame),
          ← get_of_defined h.defined hi]
        rfl
  have hNumber : (v.set 0 .v0).number + 1 = v.number := by
    have hUpdate := @low_update
      (fun i => if i = 0 then false else v.bit i) 0 v.len
      rfl hPos
    have hSame : ∀ i, (if i = 0 then true
        else if i = 0 then false else v.bit i) = v.bit i := by grind
    simp only [hSame] at hUpdate
    rw [hHas.number]
    exact hUpdate.symm
  refine ⟨hHas.defined, by rw [hHas.len_eq]; exact h.stored, ?_⟩
  have hFits := v.integer_fits
  have hFits' := integer_fits (v.set 0 .v0)
  have hMod := number_modEq_integer (v.set 0 .v0)
  rw [hHas.len_eq] at hFits' hMod
  have hFitsLess : Fits v.has_sign v.len ((n - 1 : Nat) : Int) := by
    rw [h.integer] at hFits
    unfold Fits at hFits ⊢
    split_ifs at hFits ⊢ <;> omega
  refine hFits'.eq hFitsLess (hMod.symm.trans ?_)
  have hMod' := v.number_modEq_integer
  rw [h.integer, ← hNumber] at hMod'
  have hLess := hMod'.sub_right 1
  have hLeft : (((v.set 0 .v0).number + 1 : Nat) : Int) - 1 =
      (v.set 0 .v0).number := by push_cast; ring
  have hRight : (n : Int) - 1 = ((n - 1 : Nat) : Int) := by omega
  rwa [hLeft, hRight] at hLess

/- An exponent is halved. -/
theorem half (hn : n ≠ 0) : (v.shiftRight 1).Exponent (n / 2) := by
  rcases shiftRight_spec h.defined (h.len_pos hn) h.stored 1 with
    ⟨hDefined, hInteger, _, _, _, hLen⟩
  refine ⟨hDefined, Nat.lt_of_le_of_lt hLen h.stored, ?_⟩
  rw [hInteger, h.integer]
  exact (Int.natCast_ediv n 2).symm

end

end Exponent

theorem pow_of_defined {left right : Verinum} {n : Nat} (hLeft : left.Defined)
    (hRight : right.Exponent n) (calls : Nat) :
    pow (calls + 1) left right =
      if n = 0 then
        some (trimVnum (makePOne left.len left.has_len left.has_sign))
      else
        (if n % 2 = 1 then
          (pow calls left (right.set 0 .v0)).bind (times left)
        else
          (pow calls left (right.shiftRight 1)).bind (fun result => times result result)).map
          trimVnum := by
  have hUndefined : (!left.isDefined || !right.isDefined) =
      false := by
    rw [show left.isDefined = true from hLeft, show right.isDefined = true from hRight.defined]
    rfl
  rw [pow, hUndefined, if_neg Bool.false_ne_true]
  by_cases hn : n = 0
  · rw [if_pos (hRight.isZero_iff.mpr hn), if_pos hn]
  · rw [if_neg (mt hRight.isZero_iff.mp hn), if_neg hn, hRight.isNegative hn, recursivePow,
      if_neg (mt hRight.isZero_iff.mp hn)]
    by_cases hOdd : n % 2 = 1
    · rw [if_pos ((hRight.odd_iff hn).mpr hOdd), if_pos hOdd]
      rfl
    · rw [if_neg (mt (hRight.odd_iff hn).mp hOdd), if_neg hOdd]
      rfl

/- What holds of one step holds of a whole power: the exponent
   shrinks in every call. -/
theorem pow_run {left : Verinum} (hLeft : left.Defined) {P : Nat → Option Verinum → Prop}
    (hZero : P 0 (some (trimVnum (makePOne left.len left.has_len left.has_sign))))
    (hOdd : ∀ n outcome, n % 2 = 1 → P (n - 1) outcome →
      P n ((outcome.bind (times left)).map trimVnum))
    (hEven : ∀ n outcome, n ≠ 0 → n % 2 = 0 →
      P (n / 2) outcome → P n ((outcome.bind (fun result => times result result)).map trimVnum))
    {n : Nat} {right : Verinum} (hRight : right.Exponent n) :
    ∃ outcome, P n outcome ∧
      ∀ calls, n < calls → pow calls left right = outcome := by
  induction n using Nat.strong_induction_on generalizing right with
  | _ n ih =>
    by_cases hn : n = 0
    · subst hn
      refine ⟨_, hZero, fun calls hCalls => ?_⟩
      rcases Nat.exists_eq_succ_of_ne_zero (Nat.pos_iff_ne_zero.mp hCalls) with ⟨rest, rfl⟩
      rw [pow_of_defined hLeft hRight, if_pos rfl]
    by_cases hBit : n % 2 = 1
    · rcases ih (n - 1) (by omega) (hRight.clear hBit) with ⟨outcome, hP, hCall⟩
      refine ⟨_, hOdd n outcome hBit hP, fun calls hCalls => ?_⟩
      rcases Nat.exists_eq_succ_of_ne_zero (show calls ≠ 0 by omega) with ⟨rest, rfl⟩
      rw [pow_of_defined hLeft hRight, if_neg hn, if_pos hBit, hCall rest (by omega)]
    · rcases ih (n / 2) (by omega) (hRight.half hn) with ⟨outcome, hP, hCall⟩
      refine ⟨_, hEven n outcome hn (by omega) hP, fun calls hCalls => ?_⟩
      rcases Nat.exists_eq_succ_of_ne_zero (show calls ≠ 0 by omega) with ⟨rest, rfl⟩
      rw [pow_of_defined hLeft hRight, if_neg hn, if_neg hBit, hCall rest (by omega)]

end Verinum

end EpicSim

----
-- Sized Powers
----

namespace EpicSim

open TwosComplement

namespace Verinum

/- A sized number that is an integer modulo its length. -/
structure SizedLike (left : Verinum) (n : Int) (res : Verinum) : Prop where
  defined : res.Defined
  has_len : res.has_len = true
  has_sign : res.has_sign = left.has_sign
  len : res.len = left.len
  modulo : res.integer ≡ n [ZMOD 2 ^ left.len]

theorem times_of_pos {right : Verinum} (hLen : 0 < right.len) (left : Verinum) :
    times left right = some (mul left right) :=
  if_neg (fun h => by omega)

/- The product of two numbers of the length of a third. -/
theorem SizedLike.times {left a b : Verinum} {m n : Int} (hLen : 0 < left.len)
    (hStored : left.len < 2 ^ 32) (hA : SizedLike left m a) (hB : SizedLike left n b) :
    ∃ res, ((Verinum.times a b).map trimVnum) = some res ∧
      SizedLike left (m * n) res := by
  have hOperands : Operands a b :=
    { left_defined := hA.defined
      right_defined := hB.defined
      left_len := by rw [hA.len]; exact hLen
      right_len := by rw [hB.len]; exact hLen
      has_sign := hA.has_sign.trans hB.has_sign.symm }
  rcases mul_spec hOperands with ⟨res, hRes, hDefined, hResLen, hHasLen, hSign, hMod⟩
  rw [hA.has_len, hB.has_len, Bool.and_self] at hHasLen hResLen
  rw [if_pos rfl, hA.len, hB.len, Nat.max_self, unsigned_of_lt hStored] at hResLen
  rw [times_of_pos hOperands.right_len, hRes, trimVnum_sized hHasLen]
  refine ⟨_, rfl, ?_⟩
  rw [trimVnum_sized hHasLen]
  rw [hResLen] at hMod
  exact
    { defined := hDefined
      has_len := hHasLen
      has_sign := hSign.trans hA.has_sign
      len := hResLen
      modulo := hMod.trans (hA.modulo.mul hB.modulo) }

/- Powers of a sized number, modulo its length. -/
theorem pow_sized {left right : Verinum} {n : Nat} (hLeft : left.Defined)
    (hLen : 0 < left.len) (hStored : left.len < 2 ^ 32)
    (hSized : left.has_len = true) (hRight : right.Exponent n) :
    ∃ res, Denotes left.has_len left.len (left.integer ^ n) res ∧
      ∀ calls, n < calls → pow calls left right = some res := by
  have hSelf : SizedLike left left.integer left := ⟨hLeft, hSized, rfl, rfl, Int.ModEq.refl _⟩
  have hOne := makePOne_denotes hLen hStored
  rcases hOne.modulo hSized with ⟨hOneSized, hOneLen, hOneMod⟩
  have hOneLike : SizedLike left 1 (makePOne left.len left.has_len left.has_sign) :=
    ⟨hOne.defined, hOneSized, rfl, hOneLen, hOneMod⟩
  rcases pow_run
      (P := fun n outcome => ∃ res, outcome = some res ∧
        SizedLike left (left.integer ^ n) res) hLeft
      ⟨_, rfl, by
        rw [trimVnum_sized hOneSized, pow_zero]
        exact hOneLike⟩
      (by
        rintro n _ hOdd ⟨res, rfl, hRes⟩
        rcases hSelf.times hLen hStored hRes with ⟨res', hTimes, hRes'⟩
        refine ⟨res', hTimes, ?_⟩
        have hBack : n - 1 + 1 = n := by omega
        rwa [← pow_succ', hBack] at hRes')
      (by
        rintro n _ _ hEven ⟨res, rfl, hRes⟩
        rcases hRes.times hLen hStored hRes with ⟨res', hTimes, hRes'⟩
        refine ⟨res', hTimes, ?_⟩
        have hBack : n / 2 + n / 2 = n := by omega
        rwa [← pow_add, hBack] at hRes')
      hRight with
    ⟨_, ⟨res, rfl, hRes⟩, hCalls⟩
  refine ⟨res, ⟨⟨fun hOpen => ?_, fun _ =>
    ⟨hRes.has_len, hRes.len, hRes.modulo⟩⟩, hRes.defined⟩, hCalls⟩
  rw [hSized] at hOpen
  cases hOpen

end Verinum

end EpicSim
