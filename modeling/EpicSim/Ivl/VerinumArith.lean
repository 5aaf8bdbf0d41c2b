import EpicSim.Ivl.Verinum

/-
  The arithmetic of the compiler's numbers loses no bits as
  long as the lengths it computes do not wrap.
-/

----
-- The Integer Of A Number
----

namespace EpicSim

open List (getD_eq_getElem replicate getD_eq_getElem?_getD range_succ map_append)
open TwosComplement VerinumV

namespace VerinumV

@[simp] theorem ofBool_inj {a b : Bool} : ofBool a = ofBool b ↔ a = b := by
  cases a <;> cases b <;> decide

theorem not_ofBool (b : Bool) : (ofBool b).not = ofBool !b := by
  cases b <;> rfl

/- Defined bits add up as in a full adder. -/
theorem addWithCarry_ofBool (a b c : Bool) :
    addWithCarry (ofBool a) (ofBool b) (ofBool c) =
      (ofBool ((a ^^ b) ^^ c), ofBool (Bool.atLeastTwo a b c)) := by
  cases a <;> cases b <;> cases c <;> decide

end VerinumV

namespace Verinum

/- A bit is 1. -/
def bit (v : Verinum) (idx : Nat) : Bool := v.get idx == .v1

/- The number of the bits, whatever the sign. -/
def number (v : Verinum) : Nat := low v.bit v.len

/- The integer that a number denotes. -/
def integer (v : Verinum) : Int := value v.has_sign v.len v.bit

/- No bit is X or Z. -/
def Defined (v : Verinum) : Prop := v.isDefined = true

variable {v : Verinum} {n : Nat} {b : Nat → Bool}

variable {idx len : Nat} {grows sized : Bool} {left : Verinum}

theorem get_of_defined (h : v.Defined) (hIdx : idx < v.len) :
    v.get idx = ofBool (v.bit idx) := by
  unfold Defined isDefined at h
  rw [List.all_eq_true] at h
  have hMem : v.get idx ∈ v.bits := by
    unfold get
    rw [getD_eq_getElem _ _ hIdx]
    exact List.getElem_mem _
  have hBit := h _ hMem
  unfold bit
  cases hGet : v.get idx <;> rw [hGet] at hBit <;>
    first
    | rfl
    | simp at hBit

theorem defined_iff (v : Verinum) :
    v.Defined ↔
      ∀ idx < v.len, v.get idx = .v0 ∨ v.get idx = .v1 := by
  unfold Defined isDefined len get
  rw [List.all_eq_true]
  constructor
  · intro h idx hIdx
    have hBit := h _ (List.getElem_mem hIdx)
    rw [getD_eq_getElem _ _ hIdx]
    cases hGet : v.bits[idx] <;> rw [hGet] at hBit <;>
      simp at hBit ⊢
  · intro h b hb
    rcases List.getElem_of_mem hb with ⟨idx, hIdx, rfl⟩
    grind

theorem signBit_eq (h : v.Defined) (hLen : 0 < v.len) :
    v.signBit = ofBool (sign v.has_sign v.len v.bit) := by
  unfold signBit sign
  rw [decide_eq_true hLen, Bool.true_and]
  split_ifs with hSign
  · rw [hSign, Bool.true_and, get_of_defined h (by omega)]
  · rw [Bool.eq_false_iff.mpr hSign]
    rfl

/- Operands are read as if they went on for ever. -/
theorem padded_eq (h : v.Defined) (hLen : 0 < v.len) (idx : Nat) :
    v.padded idx = ofBool (extended v.has_sign v.len v.bit idx) := by
  unfold padded extended
  split_ifs with hIdx
  · exact get_of_defined h hIdx
  · exact signBit_eq h hLen

----
-- Numbers From Bits
----

/- A number with the given bits. -/
structure HasBits (v : Verinum) (n : Nat) (b : Nat → Bool) : Prop where
  len_eq : v.len = n
  get_eq : ∀ idx < n, v.get idx = ofBool (b idx)

theorem HasBits.bit_eq (h : v.HasBits n b) (hIdx : idx < n) : v.bit idx = b idx := by
  unfold bit
  rw [h.get_eq idx hIdx]
  cases b idx <;> rfl

theorem HasBits.defined (h : v.HasBits n b) : v.Defined := by
  rw [defined_iff]
  intro idx hIdx
  rw [h.len_eq] at hIdx
  rw [h.get_eq idx hIdx]
  cases b idx
  · exact Or.inl rfl
  · exact Or.inr rfl

theorem HasBits.number (h : v.HasBits n b) : v.number = low b n := by
  unfold Verinum.number
  rw [h.len_eq]
  exact low_congr (fun i hi => h.bit_eq hi)

theorem HasBits.integer (h : v.HasBits n b) : v.integer = value v.has_sign n b := by
  unfold Verinum.integer
  rw [h.len_eq]
  exact value_congr (fun i hi => h.bit_eq hi)

theorem hasBits_self (h : v.Defined) : v.HasBits v.len v.bit :=
  ⟨rfl, fun _ hIdx => get_of_defined h hIdx⟩

theorem hasBits_of_map (h : v.bits = (List.range n).map (fun i => ofBool (b i))) :
    v.HasBits n b := by
  constructor
  · rw [len, h, List.length_map, List.length_range]
  · intro idx hIdx
    rw [get, h, getD_eq_getElem _ _ (by simpa using hIdx)]
    simp

theorem hasBits_replicate (b : Bool) (h : v.bits = replicate n (ofBool b)) :
    v.HasBits n (fun _ => b) := by
  constructor
  · rw [len, h, List.length_replicate]
  · intro idx hIdx
    rw [get, h, getD_eq_getElem _ _ (by simpa using hIdx)]
    simp

/- Defined bits as an integer modulo the length. -/
theorem number_modEq_integer (v : Verinum) : (v.number : Int) ≡ v.integer [ZMOD 2 ^ v.len] :=
  low_modEq_value _ _ _

theorem integer_fits (v : Verinum) : Fits v.has_sign v.len v.integer :=
  value_fits _ _ _

----
-- Trimming
----

theorem skipDown_spec (v : Verinum) (b : VerinumV) (top : Nat) :
    skipDown v b top ≤ top ∧
      (∀ i, skipDown v b top < i → i ≤ top → v.get i = b) ∧
      (skipDown v b top = 0 ∨ v.get (skipDown v b top) ≠ b) := by
  induction top with
  | zero =>
    exact ⟨Nat.le_refl _, fun i hLow hHigh => by
      omega, Or.inl rfl⟩
  | succ top ih =>
    rw [skipDown]
    split_ifs with hSame
    · grind
    · exact ⟨Nat.le_refl _, fun i hLow hHigh => by omega, Or.inr hSame⟩

theorem hasBits_take (h : v.Defined) {n : Nat} (hn : n ≤ v.len) {w : Verinum}
    (hw : w.bits = v.bits.take n) : w.HasBits n v.bit := by
  constructor
  · rw [len, hw, List.length_take]
    exact Nat.min_eq_left hn
  · intro idx hIdx
    rw [← get_of_defined h (Nat.lt_of_lt_of_le hIdx hn)]
    unfold get
    rw [hw, getD_eq_getElem?_getD, List.getElem?_take_of_lt hIdx, ← getD_eq_getElem?_getD]

/- Signed numbers keep one bit of the sign. -/
theorem trimVnum_signed (h : v.Defined) (hLen : 2 ≤ v.len) (hUnsized : v.has_len = false)
    (hSigned : v.has_sign = true) :
    ∃ n, (trimVnum v).HasBits (n + 1) v.bit ∧ n + 1 ≤ v.len ∧
      (trimVnum v).has_sign = true ∧
      (trimVnum v).has_len = false ∧
      value true (n + 1) v.bit = v.integer ∧
      (n = 0 ∨ ¬Fits true n v.integer) := by
  have hInteger : v.integer = value true v.len v.bit := by
    unfold integer
    rw [hSigned]
  have hTopBit : v.get (v.len - 1) = ofBool (v.bit (v.len - 1)) := get_of_defined h (by omega)
  rcases skipDown_spec v (v.get (v.len - 1)) (v.len - 1) with ⟨hLe, hAll, hStop⟩
  unfold trimVnum
  rw [hUnsized, hSigned]
  simp only [Nat.not_lt.mpr hLen]
  generalize hTop : skipDown v (v.get (v.len - 1)) (v.len - 1) = top at *
  have hBits : ∀ i, top < i → i ≤ v.len - 1 →
      v.bit i = v.bit (v.len - 1) := by
    intro i hLow hHigh
    unfold bit
    rw [hAll i hLow hHigh]
  by_cases hSame : v.get top = v.get (v.len - 1)
  · have hZero : top = 0 := by grind
    subst hZero
    rw [if_neg (not_not.mpr hSame)]
    refine ⟨0, hasBits_take h (by omega) rfl, by omega, rfl, rfl, ?_, Or.inl rfl⟩
    have hFirst : v.bit 0 = v.bit (v.len - 1) := by
      unfold bit
      rw [hSame]
    have hBack : 0 + (v.len - 1) + 1 = v.len := by omega
    rw [hInteger, ← hBack]
    refine (value_trim_sign (fun i _ hi => ?_)).symm
    rw [hBits (i + 1) (by omega) (by omega), hFirst]
  · have hBelow : top < v.len - 1 := by grind
    have hValue : value true (top + 1 + 1) v.bit = v.integer := by
      have hBack : top + 1 + (v.len - (top + 2)) + 1 =
          v.len := by omega
      rw [hInteger, ← hBack]
      refine (value_trim_sign (fun i hm hi => ?_)).symm
      rw [hBits (i + 1) (by omega) (by omega), hBits (top + 1) (by omega) (by omega)]
    rw [if_pos hSame]
    refine ⟨top + 1, hasBits_take h (by omega) rfl, by omega, rfl, rfl, hValue, Or.inr ?_⟩
    rw [← hValue]
    apply not_fits_of_ne
    rw [hBits (top + 1) (by omega) (by omega)]
    intro hBit
    apply hSame
    rw [get_of_defined h (by omega), hTopBit, hBit]

/- Unsigned numbers keep one leading zero. -/
theorem trimVnum_unsigned (h : v.Defined) (hLen : 2 ≤ v.len) (hUnsized : v.has_len = false)
    (hSigned : v.has_sign = false) :
    ∃ n, (trimVnum v).HasBits n v.bit ∧ n ≤ v.len ∧
      (trimVnum v).has_sign = false ∧
      (trimVnum v).has_len = false ∧
      value false n v.bit = v.integer := by
  have hInteger : v.integer = value false v.len v.bit := by
    unfold integer
    rw [hSigned]
  rcases skipDown_spec v .v0 (v.len - 1) with ⟨hLe, hAll, hStop⟩
  unfold trimVnum
  rw [hUnsized, hSigned]
  simp only [Nat.not_lt.mpr hLen]
  generalize hTop : skipDown v .v0 (v.len - 1) = top at *
  have hBits : ∀ i, top < i → i ≤ v.len - 1 →
      v.bit i = false := by
    intro i hLow hHigh
    unfold bit
    rw [hAll i hLow hHigh]
    rfl
  by_cases hFull : top + 1 = v.len
  · rw [if_pos hFull]
    exact ⟨v.len, hasBits_self h, Nat.le_refl _, hSigned, hUnsized, hInteger.symm⟩
  · rw [if_neg hFull]
    have hValue : ∀ n, top < n → n ≤ v.len →
        value false n v.bit = v.integer := by
      intro n hLow hHigh
      have hBack : n + (v.len - n) = v.len := by omega
      rw [hInteger, ← hBack]
      refine (value_trim_zero (fun i hm hi => ?_)).symm
      exact hBits i (by omega) (by omega)
    by_cases hZero : v.get top = .v0
    · rw [if_pos hZero]
      exact ⟨top + 1, hasBits_take h (by omega) rfl, by omega,
        rfl, rfl, hValue _ (by omega) (by omega)⟩
    · rw [if_neg hZero]
      exact ⟨top + 2, hasBits_take h (by omega) rfl, by omega,
        rfl, rfl, hValue _ (by omega) (by omega)⟩

/-
  Trimming keeps the integer and the flags, sized numbers
  altogether, and leaves no bit more than a signed one needs.
-/
structure Trimmed (v w : Verinum) : Prop where
  defined : w.Defined
  integer : w.integer = v.integer
  has_len : w.has_len = v.has_len
  has_sign : w.has_sign = v.has_sign
  sized : v.has_len = true → w = v
  len_le : w.len ≤ v.len
  minimal : v.has_len = false → v.has_sign = true → ∀ m, 0 < m → Fits true m v.integer → w.len ≤ m

theorem trimVnum_spec (h : v.Defined) : Trimmed v (trimVnum v) := by
  by_cases hSized : v.has_len = true
  · have hSame : trimVnum v = v := by
      unfold trimVnum
      rw [if_pos hSized]
    rw [hSame]
    exact
      { defined := h
        integer := rfl
        has_len := rfl
        has_sign := rfl
        sized := fun _ => rfl
        len_le := Nat.le_refl _
        minimal := fun hUnsized => by
          rw [hSized] at hUnsized
          cases hUnsized }
  rw [Bool.not_eq_true] at hSized
  by_cases hShort : v.len < 2
  · have hSame : trimVnum v = v := by
      unfold trimVnum
      rw [hSized, if_neg Bool.false_ne_true, if_pos hShort]
    rw [hSame]
    exact
      { defined := h
        integer := rfl
        has_len := rfl
        has_sign := rfl
        sized := fun _ => rfl
        len_le := Nat.le_refl _
        minimal := fun _ _ m hm _ => by omega }
  by_cases hSigned : v.has_sign = true
  · rcases trimVnum_signed h (by omega) hSized hSigned with
      ⟨n, hBits, hLe, hSign, hLen, hValue, hLeast⟩
    exact
      { defined := hBits.defined
        integer := by
          rw [hBits.integer, hSign]
          exact hValue
        has_len := by rw [hLen, hSized]
        has_sign := by rw [hSign, hSigned]
        sized := fun h => by
          rw [hSized] at h
          cases h
        len_le := by
          rw [hBits.len_eq]
          exact hLe
        minimal := fun _ _ m hm hFits => by
          rw [hBits.len_eq]
          by_contra hMore
          rcases hLeast with hZero | hNot
          · omega
          · exact hNot (hFits.mono (by omega)) }
  · rw [Bool.not_eq_true] at hSigned
    rcases trimVnum_unsigned h (by omega) hSized hSigned with ⟨n, hBits, hLe, hSign, hLen, hValue⟩
    exact
      { defined := hBits.defined
        integer := by
          rw [hBits.integer, hSign]
          exact hValue
        has_len := by rw [hLen, hSized]
        has_sign := by rw [hSign, hSigned]
        sized := fun h => by
          rw [hSized] at h
          cases h
        len_le := by
          rw [hBits.len_eq]
          exact hLe
        minimal := fun _ h => by
          rw [hSigned] at h
          cases h }

----
-- Sums
----

/- The loop adds the bits from the lowest on. -/
theorem addLoop_spec {l r : Nat → VerinumV} {a b : Nat → Bool} (c : Bool) {n : Nat}
    (hL : ∀ i < n, l i = ofBool (a i)) (hR : ∀ i < n, r i = ofBool (b i)) :
    addLoop l r (ofBool c) n =
      ((List.range n).map (fun i => ofBool (sumAt a b c i)),
        ofBool (carryAt a b c n)) := by
  induction n with
  | zero => rfl
  | succ n ih =>
    rw [addLoop, ih (fun i hi => hL i (Nat.lt_succ_of_lt hi))
      (fun i hi => hR i (Nat.lt_succ_of_lt hi))]
    simp only
    rw [hL n (Nat.lt_succ_self n), hR n (Nat.lt_succ_self n),
      addWithCarry_ofBool, range_succ, map_append]
    rfl

theorem unsigned_succ_le_iff (n : Nat) : unsigned (n + 1) ≤ n ↔ ¬n + 1 < 2 ^ 32 := by
  unfold unsigned
  omega

/-
  A result with the bit on top only where it is needed keeps
  the integer that all bits make.
-/
theorem integer_of_grows (hn : 0 < n) (s : Nat → Bool)
    (hGrows : grows =
      if v.has_sign then ofBool (s n) != ofBool (s (n - 1))
      else ofBool (s n) != .v0)
    (hBits : v.bits =
      if grows then
        (List.range n).map (fun i => ofBool (s i)) ++ [ofBool (s n)]
      else (List.range n).map (fun i => ofBool (s i))) :
    v.integer = value v.has_sign (n + 1) s := by
  cases hCase : grows with
  | true =>
    have hMap : v.bits = (List.range (n + 1)).map (fun i => ofBool (s i)) := by
      rw [hBits, hCase, range_succ, map_append]
      rfl
    exact (hasBits_of_map hMap).integer
  | false =>
    have hMap : v.bits = (List.range n).map (fun i => ofBool (s i)) := by
      rw [hBits, hCase, if_neg Bool.false_ne_true]
    rw [(hasBits_of_map hMap).integer]
    rw [hCase] at hGrows
    cases hSigned : v.has_sign with
    | true =>
      rw [hSigned] at hGrows
      have hSame := bne_eq_false_iff_eq.mp hGrows.symm
      rcases Nat.exists_eq_succ_of_ne_zero (Nat.pos_iff_ne_zero.mp hn) with ⟨m, rfl⟩
      exact (value_drop_sign (ofBool_inj.mp hSame)).symm
    | false =>
      rw [hSigned] at hGrows
      have hZero := bne_eq_false_iff_eq.mp hGrows.symm
      exact (value_drop_zero (ofBool_inj.mp (hZero.trans rfl))).symm

theorem defined_of_grows (s : Nat → Bool)
    (hBits : v.bits =
      if grows then
        (List.range n).map (fun i => ofBool (s i)) ++ [ofBool (s n)]
      else (List.range n).map (fun i => ofBool (s i))) : v.Defined ∧ n ≤ v.len ∧ v.len ≤ n + 1 := by
  have hMap : ∃ m, (m = n ∨ m = n + 1) ∧
      v.bits = (List.range m).map (fun i => ofBool (s i)) := by
    cases hCase : grows with
    | true =>
      refine ⟨n + 1, Or.inr rfl, ?_⟩
      rw [hBits, hCase, range_succ, map_append]
      rfl
    | false => grind
  rcases hMap with ⟨m, hm, hMap⟩
  have hHas := hasBits_of_map hMap
  refine ⟨hHas.defined, ?_, ?_⟩ <;>
    rw [hHas.len_eq] <;> omega

/-
  What an operator must compute: the integer where a length
  is open, and the integer modulo the length otherwise.
-/
structure Right (sized : Bool) (len : Nat) (n : Int) (res : Verinum) : Prop where
  exact : sized = false → res.integer = n
  modulo : sized = true → res.has_len = true ∧ res.len = len ∧ res.integer ≡ n [ZMOD 2 ^ len]

/- Both numbers are defined, not empty and of one signedness. -/
structure Operands (left right : Verinum) : Prop where
  left_defined : left.Defined
  right_defined : right.Defined
  left_len : 0 < left.len
  right_len : 0 < right.len
  has_sign : left.has_sign = right.has_sign

theorem Operands.isDefined {right : Verinum} (h : Operands left right) :
    (!left.isDefined || !right.isDefined) = false := by
  have hL : left.isDefined = true := h.left_defined
  have hR : right.isDefined = true := h.right_defined
  rw [hL, hR]
  rfl

theorem Operands.signed {right : Verinum} (h : Operands left right) :
    (left.has_sign && right.has_sign) = left.has_sign := by
  rw [← h.has_sign, Bool.and_self]

/- A sum of extended operands, modulo any place. -/
theorem low_sum_modEq (left right : Verinum) (n : Nat) :
    (low (sumAt (extended left.has_sign left.len left.bit)
      (extended right.has_sign right.len right.bit) false) n :
        Int) ≡ left.integer + right.integer [ZMOD 2 ^ n] := by
  have hSum := Int.natCast_modEq_iff.mpr (low_sumAt_modEq
    (extended left.has_sign left.len left.bit)
    (extended right.has_sign right.len right.bit) false n)
  push_cast at hSum
  refine hSum.trans ?_
  exact (low_extended_modEq _ _ _ n).add (low_extended_modEq _ _ _ n)

/- A difference adds the complement and one. -/
theorem low_difference_modEq (a b : Nat → Bool) {x y : Int} (n : Nat)
    (hA : (low a n : Int) ≡ x [ZMOD 2 ^ n]) (hB : (low b n : Int) ≡ y [ZMOD 2 ^ n]) :
    (low (sumAt a (fun i => !b i) true) n : Int) ≡ x - y [ZMOD 2 ^ n] := by
  have hSum := Int.natCast_modEq_iff.mpr (low_sumAt_modEq a (fun i => !b i) true n)
  push_cast at hSum
  have hNot := low_not b n
  have hCast := cast_two_pow n
  have hFlip : (low (fun i => !b i) n : Int) + 1 = 2 ^ n - low b n := by omega
  refine hSum.trans ?_
  rw [Bool.toNat_true, Nat.cast_one, add_assoc, hFlip]
  have hDiff := hA.sub hB
  refine Int.ModEq.trans ?_ hDiff
  rw [Int.modEq_iff_dvd]
  exact ⟨-1, by ring⟩

/-
  What is known of a sum or a difference: whether it may grow
  by a bit, and that without growing it is right modulo the
  length.
-/
structure Summed (sized signed grown : Bool) (len : Nat) (n : Int) (res : Verinum) : Prop where
  defined : res.Defined
  has_len : res.has_len = sized
  has_sign : res.has_sign = signed
  len_le : len ≤ res.len ∧ res.len ≤ len + 1
  exact : grown = true → Fits signed (len + 1) n → res.integer = n
  modulo : grown = false → res.len = len ∧ res.integer ≡ n [ZMOD 2 ^ len]

/- The common end of the sums. -/
theorem summed_of_bits {signed grown : Bool} (hLen : 0 < len)
    {n : Int} {s : Nat → Bool} (hSum : ∀ m, (low s m : Int) ≡ n [ZMOD 2 ^ m])
    (hGrows : grows = (grown &&
      if signed then ofBool (s len) != ofBool (s (len - 1))
      else ofBool (s len) != .v0)) :
    Summed sized signed grown len n
      ((ofBits (if grows then
          (List.range len).map (fun i => ofBool (s i)) ++ [ofBool (s len)]
        else (List.range len).map (fun i => ofBool (s i)))
        sized).withSign signed) := by
  generalize hRes : (ofBits (if grows then
      (List.range len).map (fun i => ofBool (s i)) ++ [ofBool (s len)]
    else (List.range len).map (fun i => ofBool (s i)))
    sized).withSign signed = res
  have hBits : res.bits = if grows then
      (List.range len).map (fun i => ofBool (s i)) ++ [ofBool (s len)]
    else (List.range len).map (fun i => ofBool (s i)) := by
    rw [← hRes]
    rfl
  have hSigned : res.has_sign = signed := by
    rw [← hRes]
    rfl
  rcases defined_of_grows s hBits with ⟨hDefined, hLe⟩
  refine
    { defined := hDefined
      has_len := by rw [← hRes]; rfl
      has_sign := hSigned
      len_le := hLe
      exact := fun hGrown hFits => ?_
      modulo := fun hGrown => ?_ }
  · rw [hGrown, ← hSigned] at hGrows
    rw [integer_of_grows hLen s hGrows hBits, hSigned]
    exact (value_eq_iff (hSum (len + 1))).mpr hFits
  · rw [hGrown] at hGrows
    rw [hGrows] at hBits
    have hHas := hasBits_of_map hBits
    refine ⟨hHas.len_eq, ?_⟩
    rw [hHas.integer]
    exact (low_modEq_value _ _ _).symm.trans (hSum len)

theorem signBit_extended (h : v.Defined) (hLen : 0 < v.len) (hIdx : v.len ≤ idx) :
    v.signBit = ofBool (extended v.has_sign v.len v.bit idx) := by
  rw [signBit_eq h hLen, extended_of_le hIdx]

theorem getD_bits_last {s : Nat → Bool} (hLen : 0 < len) :
    ((List.range len).map fun i => ofBool (s i)).getD (len - 1) .vx = ofBool (s (len - 1)) := by
  rw [getD_eq_getElem _ _ (by simp; omega)]
  simp

theorem add_spec {right : Verinum} (h : Operands left right)
    (hRoom : max left.len right.len + 1 < 2 ^ 32) :
    ∃ res, left.add right = some res ∧
      Summed (left.has_len && right.has_len) left.has_sign
        (!(left.has_len && right.has_len))
        (max left.len right.len)
        (left.integer + right.integer) res := by
  have hLen : 0 < max left.len right.len := Nat.lt_of_lt_of_le h.left_len (Nat.le_max_left _ _)
  have hLoop := addLoop_spec false
    (fun i (_ : i < max left.len right.len) => padded_eq h.left_defined h.left_len i)
    (fun i _ => padded_eq h.right_defined h.right_len i)
  unfold add
  simp only
  rw [h.isDefined,
    if_neg (mt (unsigned_succ_le_iff _).mp (not_not.mpr hRoom)),
    show VerinumV.v0 = ofBool false from rfl, hLoop,
    signBit_extended h.left_defined h.left_len (Nat.le_max_left _ _),
    signBit_extended h.right_defined h.right_len (Nat.le_max_right _ _)]
  rw [addWithCarry_ofBool, h.signed]
  refine ⟨_, rfl, ?_⟩
  rw [getD_bits_last hLen]
  exact summed_of_bits hLen (fun m => low_sum_modEq left right m) rfl

theorem sub_spec {right : Verinum} (h : Operands left right)
    (hRoom : max left.len right.len + 1 < 2 ^ 32) :
    ∃ res, left.sub right = some res ∧
      Summed (left.has_len && right.has_len) left.has_sign
        (left.has_sign && !(left.has_len && right.has_len))
        (max left.len right.len)
        (left.integer - right.integer) res := by
  have hLen : 0 < max left.len right.len := Nat.lt_of_lt_of_le h.left_len (Nat.le_max_left _ _)
  have hLoop := addLoop_spec true
    (fun i (_ : i < max left.len right.len) => padded_eq h.left_defined h.left_len i)
    (fun i _ => (congrArg VerinumV.not
      (padded_eq h.right_defined h.right_len i)).trans (not_ofBool _))
  unfold sub
  simp only
  rw [h.isDefined,
    if_neg (mt (unsigned_succ_le_iff _).mp (not_not.mpr hRoom)),
    show VerinumV.v1 = ofBool true from rfl, hLoop,
    signBit_extended h.left_defined h.left_len (Nat.le_max_left _ _),
    signBit_extended h.right_defined h.right_len (Nat.le_max_right _ _)]
  rw [not_ofBool, addWithCarry_ofBool, h.signed]
  refine ⟨_, rfl, ?_⟩
  rw [getD_bits_last hLen]
  refine summed_of_bits hLen (fun m =>
    low_difference_modEq _ _ m (low_extended_modEq _ _ _ m) (low_extended_modEq _ _ _ m)) ?_
  cases left.has_sign <;> rfl

theorem neg_spec {right : Verinum} (h : right.Defined) (hLen : 0 < right.len)
    (hRoom : right.len + 1 < 2 ^ 32) :
    ∃ res, right.neg = some res ∧
      Summed right.has_len right.has_sign
        (right.has_sign && !right.has_len) right.len
        (-right.integer) res := by
  have hZero : ∀ i < right.len,
      (fun _ : Nat => VerinumV.v0) i = ofBool ((fun _ : Nat => false) i) := fun _ _ => rfl
  have hNot : ∀ i < right.len, (right.get i).not =
      ofBool (!extended right.has_sign right.len right.bit i) := by
    intro i hi
    rw [get_of_defined h hi, not_ofBool, extended_of_lt hi]
  have hLoop := addLoop_spec true hZero hNot
  have hDefined : (!right.isDefined) = false := by
    have hR : right.isDefined = true := h
    rw [hR]
    rfl
  unfold neg
  simp only
  rw [hDefined,
    if_neg (mt (unsigned_succ_le_iff _).mp (not_not.mpr hRoom)),
    show VerinumV.v1 = ofBool true from rfl, hLoop, signBit_extended h hLen (Nat.le_refl _)]
  rw [not_ofBool, show VerinumV.v0 = ofBool false from rfl, addWithCarry_ofBool]
  refine ⟨_, rfl, ?_⟩
  have hSum : ∀ m, (low (sumAt (fun _ => false)
      (fun i => !extended right.has_sign right.len right.bit i)
      true) m : Int) ≡ -right.integer [ZMOD 2 ^ m] := by
    intro m
    have hNone : (low (fun _ => false) m : Int) ≡ 0 [ZMOD 2 ^ m] := by
      rw [low_false]
      exact Int.ModEq.refl _
    have hDiff := low_difference_modEq _ _ m hNone
      (low_extended_modEq right.has_sign right.len right.bit m)
    rwa [zero_sub] at hDiff
  rw [getD_bits_last hLen]
  refine summed_of_bits hLen hSum ?_
  cases right.has_sign <;> rfl

----
-- Products
----

/- A row adds the left number at its place. -/
theorem mulRow_spec {result : Verinum} (hLeft : left.Defined)
    (hLen : 0 < left.len) (hResult : result.Defined) {rdx : Nat} (hRdx : rdx < result.len) :
    (mulRow left rdx result).Defined ∧
      (mulRow left rdx result).len = result.len ∧
      (mulRow left rdx result).has_len = result.has_len ∧
      (mulRow left rdx result).has_sign = result.has_sign ∧
      ((mulRow left rdx result).number : Int) ≡
        result.number + 2 ^ rdx * left.integer [ZMOD 2 ^ result.len] := by
  have hLoop := addLoop_spec false
    (fun i (_ : i < result.len - rdx) => padded_eq hLeft hLen i)
    (fun i hi => get_of_defined hResult (show rdx + i < result.len by omega))
  generalize hS : sumAt
    (extended left.has_sign left.len left.bit)
    (fun i => result.bit (rdx + i)) false = s at hLoop
  have hBits : (mulRow left rdx result).bits =
      result.bits.take rdx ++ (List.range (result.len - rdx)).map (fun i => ofBool (s i)) := by
    unfold mulRow
    rw [show VerinumV.v0 = ofBool false from rfl, hLoop]
  have hTake : (result.bits.take rdx).length = rdx := by
    rw [List.length_take]
    exact Nat.min_eq_left (Nat.le_of_lt hRdx)
  have hHas : (mulRow left rdx result).HasBits result.len
      (fun i => if i < rdx then result.bit i else s (i - rdx)) := by
    constructor
    · rw [len, hBits, List.length_append, List.length_map, List.length_range]
      omega
    · intro i hi
      unfold get
      rw [hBits, getD_eq_getElem?_getD]
      by_cases hLow : i < rdx
      · rw [List.getElem?_append_left (by omega), List.getElem?_take_of_lt hLow, if_pos hLow]
        exact get_of_defined hResult hi
      · grind
  have hSplit : rdx + (result.len - rdx) = result.len := by omega
  have hLow : low
      (fun i => if i < rdx then result.bit i else s (i - rdx))
      rdx = low result.bit rdx :=
    low_congr (fun i hi => if_pos hi)
  have hHigh : low (fun i =>
      if rdx + i < rdx then result.bit (rdx + i)
      else s (rdx + i - rdx)) (result.len - rdx) = low s (result.len - rdx) :=
    low_congr (fun i _ => by
      rw [if_neg (by omega), Nat.add_sub_cancel_left])
  have hNumber : (mulRow left rdx result).number =
      low result.bit rdx + 2 ^ rdx * low s (result.len - rdx) := by
    rw [hHas.number, ← hSplit, low_add, Nat.add_sub_cancel_left, hLow, hHigh]
  have hOld : result.number = low result.bit rdx +
      2 ^ rdx * low (fun i => result.bit (rdx + i)) (result.len - rdx) := by
    unfold number
    rw [← low_add, hSplit]
  have hSum : (low s (result.len - rdx) : Int) ≡
      left.integer + low (fun i => result.bit (rdx + i))
        (result.len - rdx) [ZMOD 2 ^ (result.len - rdx)] := by
    have hAdd := Int.natCast_modEq_iff.mpr (low_sumAt_modEq
      (extended left.has_sign left.len left.bit)
      (fun i => result.bit (rdx + i)) false (result.len - rdx))
    rw [hS] at hAdd
    push_cast at hAdd
    refine hAdd.trans ?_
    rw [Bool.toNat_false, Nat.cast_zero, add_zero]
    exact (low_extended_modEq _ _ _ _).add_right _
  have hScaled : (2 : Int) ^ rdx * low s (result.len - rdx) ≡
      2 ^ rdx * (left.integer +
        low (fun i => result.bit (rdx + i)) (result.len - rdx))
        [ZMOD 2 ^ result.len] := by
    have hMul := hSum.mul_left' (c := 2 ^ rdx)
    rwa [← pow_add, hSplit] at hMul
  refine ⟨hHas.defined, hHas.len_eq, rfl, rfl, ?_⟩
  rw [hNumber, hOld]
  push_cast
  refine (hScaled.add_left _).trans ?_
  rw [mul_add, add_assoc, add_comm (2 ^ rdx * left.integer)]

/-
  The rows make the product modulo the length; the bits read
  so far are those of the right number.
-/
theorem mul_spec {right : Verinum} (h : Operands left right) :
    ∃ res, left.mul right = trimVnum res ∧ res.Defined ∧
      res.len = unsigned
        (if left.has_len && right.has_len then
          max left.len right.len
        else left.len + right.len) ∧
      res.has_len = (left.has_len && right.has_len) ∧
      res.has_sign = left.has_sign ∧
      res.integer ≡ left.integer * right.integer [ZMOD 2 ^ res.len] := by
  generalize hLen : unsigned
    (if left.has_len && right.has_len then
      max left.len right.len
    else left.len + right.len) = len
  have hUnsigned : unsigned len = len := by
    rw [← hLen]
    exact Nat.mod_mod _ _
  have hFold : ∀ n ≤ len, ∃ res,
      (List.range n).foldl (fun result rdx =>
        if right.padded rdx = .v0 then result
        else mulRow left rdx result)
        ((fill .v0 len (left.has_len && right.has_len)).withSign
          (left.has_sign && right.has_sign)) = res ∧
      res.Defined ∧ res.len = len ∧
      res.has_len = (left.has_len && right.has_len) ∧
      res.has_sign = left.has_sign ∧
      (res.number : Int) ≡
        low (extended right.has_sign right.len right.bit) n *
          left.integer [ZMOD 2 ^ len] := by
    intro n hn
    induction n with
    | zero =>
      have hHas : ((fill .v0 len
          (left.has_len && right.has_len)).withSign
            (left.has_sign && right.has_sign)).HasBits len (fun _ => false) := by
        apply hasBits_replicate false
        change replicate (unsigned len) _ = _
        rw [hUnsigned]
        rfl
      refine ⟨_, rfl, hHas.defined, hHas.len_eq, rfl, h.signed, ?_⟩
      rw [List.range_zero, List.foldl_nil, hHas.number, low_false]
      simp [low]
    | succ n ih =>
      rcases ih (Nat.le_of_succ_le hn) with ⟨res, hRes, hDefined, hResLen, hHasLen, hSign, hMod⟩
      rw [range_succ, List.foldl_append, hRes, List.foldl_cons,
        padded_eq h.right_defined h.right_len, low_succ]
      cases hBit : extended right.has_sign right.len
          right.bit n with
      | false =>
        refine ⟨res, if_pos rfl, hDefined, hResLen, hHasLen, hSign, ?_⟩
        simpa using hMod
      | true =>
        rcases mulRow_spec h.left_defined h.left_len hDefined (show n < res.len by omega) with
          ⟨hDefined', hLen', hHasLen', hSign', hMod'⟩
        refine ⟨_, if_neg (by decide), hDefined', hLen'.trans hResLen,
          hHasLen'.trans hHasLen, hSign'.trans hSign, ?_⟩
        rw [hResLen] at hMod'
        refine hMod'.trans ?_
        rw [Bool.toNat_true, Nat.one_mul]
        push_cast
        rw [add_mul]
        exact hMod.add_right _
  rcases hFold len (Nat.le_refl _) with ⟨res, hRes, hDefined, hResLen, hHasLen, hSign, hMod⟩
  refine ⟨res, ?_, hDefined, hResLen, hHasLen, hSign, ?_⟩
  · unfold mul
    rw [h.isDefined, if_neg Bool.false_ne_true, hLen, hRes]
  · rw [hResLen]
    have hInt := res.number_modEq_integer
    rw [hResLen] at hInt
    refine (hInt.symm.trans hMod).trans ?_
    rw [mul_comm left.integer]
    exact (low_extended_modEq right.has_sign right.len right.bit len).mul_right _

----
-- Shifts
----

theorem unsigned_le (n : Nat) : unsigned n ≤ n :=
  Nat.mod_le _ _

/- A shift up multiplies, modulo the length it has made. -/
theorem shiftLeft_spec (h : v.Defined) (shift : Nat) :
    ∃ res, v.shiftLeft shift = trimVnum res ∧ res.Defined ∧
      res.len = unsigned (if v.has_len then v.len else v.len + shift) ∧
      res.has_len = v.has_len ∧ res.has_sign = v.has_sign ∧
      res.integer ≡ v.integer * 2 ^ shift [ZMOD 2 ^ res.len] := by
  have hReach : unsigned (if v.has_len then v.len else v.len + shift) ≤ v.len + shift := by
    refine Nat.le_trans (unsigned_le _) ?_
    split_ifs <;> omega
  unfold shiftLeft
  simp only
  generalize hLen : unsigned (if v.has_len then v.len else v.len + shift) = len at *
  generalize hRes : (ofBits ((List.range len).map (fun idx =>
    if idx < shift then VerinumV.v0 else v.get (idx - shift)))
    v.has_len).withSign v.has_sign = res
  have hMap : res.bits = (List.range len).map (fun i => ofBool
      (if i < shift then false else v.bit (i - shift))) := by
    rw [← hRes]
    apply List.map_congr_left
    intro i hi
    rw [List.mem_range] at hi
    by_cases hLow : i < shift
    · rw [if_pos hLow, if_pos hLow]
      rfl
    · rw [if_neg hLow, if_neg hLow, get_of_defined h (by omega)]
  have hHas := hasBits_of_map hMap
  have hSign : res.has_sign = v.has_sign := by
    rw [← hRes]
    rfl
  refine ⟨res, rfl, hHas.defined, hHas.len_eq, by rw [← hRes]; rfl, hSign, ?_⟩
  rw [hHas.len_eq, hHas.integer]
  refine (low_modEq_value _ _ _).symm.trans ?_
  rw [low_shiftLeft]
  push_cast
  refine (Int.mod_modEq _ _).trans ?_
  have hBits : (low v.bit (len - shift) : Int) ≡ v.integer [ZMOD 2 ^ (len - shift)] := by
    have hMod := low_mod v.bit (show len - shift ≤ v.len by omega)
    have hDvd : (2 : Int) ^ (len - shift) ∣ 2 ^ v.len := pow_dvd_pow 2 (by omega)
    refine Int.ModEq.trans ?_ (v.number_modEq_integer.of_dvd hDvd)
    rw [← hMod]
    push_cast
    exact Int.mod_modEq _ _
  have hScaled := hBits.mul_right' (c := 2 ^ shift)
  rw [← pow_add] at hScaled
  exact hScaled.of_dvd (pow_dvd_pow 2 (by omega))

/- A shift down divides toward minus infinity. -/
theorem shiftRight_spec (h : v.Defined) (hLen : 0 < v.len) (hStored : v.len < 2 ^ 32)
    (shift : Nat) :
    (v.shiftRight shift).Defined ∧
      (v.shiftRight shift).integer = v.integer / 2 ^ shift ∧
      (v.shiftRight shift).has_len = v.has_len ∧
      (v.shiftRight shift).has_sign = v.has_sign ∧
      (v.has_len = true → (v.shiftRight shift).len = v.len) ∧
      (v.shiftRight shift).len ≤ v.len := by
  have hSignBit : (if v.has_sign then v.get (v.len - 1)
      else .v0) = ofBool (sign v.has_sign v.len v.bit) :=
    signBit_eq h hLen
  unfold shiftRight
  simp only
  rw [hSignBit]
  by_cases hFar : v.len ≤ shift
  · rw [if_pos hFar]
    generalize hNew : (if v.has_len then v.len else 1) = n
    have hPos : 0 < n := by
      rw [← hNew]
      split_ifs <;> omega
    have hKeep : unsigned n = n := by
      apply Nat.mod_eq_of_lt
      rw [← hNew]
      split_ifs <;> omega
    have hHas : ((fill (ofBool (sign v.has_sign v.len v.bit)) n
        v.has_len).withSign v.has_sign).HasBits n
          (fun i => extended v.has_sign v.len v.bit (i + shift)) := by
      have hAll := hasBits_replicate
        (sign v.has_sign v.len v.bit)
        (show ((fill (ofBool (sign v.has_sign v.len v.bit)) n
          v.has_len).withSign v.has_sign).bits = replicate n _ by
          change replicate (unsigned n) _ = _
          rw [hKeep])
      refine ⟨hAll.len_eq, fun i hi => ?_⟩
      rw [hAll.get_eq i hi, extended_of_le (by omega)]
    refine ⟨hHas.defined, ?_, rfl, rfl, ?_, ?_⟩
    · rw [hHas.integer]
      exact value_shiftRight v.bit hPos (by omega)
    · intro hSized
      rw [hHas.len_eq, ← hNew, if_pos hSized]
    · rw [hHas.len_eq, ← hNew]
      split_ifs <;> omega
  · rw [if_neg hFar]
    generalize hNew : (if v.has_len then v.len else v.len - shift) = n
    generalize hRes : (ofBits ((List.range n).map (fun idx =>
      if idx < v.len - shift then v.get (idx + shift)
      else ofBool (sign v.has_sign v.len v.bit)))
      v.has_len).withSign v.has_sign = res
    have hRange : 0 < n ∧ n ≤ v.len ∧ v.len ≤ n + shift := by
      rw [← hNew]
      split_ifs <;> omega
    have hMap : res.bits = (List.range n).map (fun i => ofBool
        (extended v.has_sign v.len v.bit (i + shift))) := by
      rw [← hRes]
      apply List.map_congr_left
      intro i _
      by_cases hIn : i < v.len - shift
      · rw [if_pos hIn, get_of_defined h (by omega), extended_of_lt (by omega)]
      · rw [if_neg hIn, extended_of_le (by omega)]
    have hHas := hasBits_of_map hMap
    have hFlags : res.has_len = v.has_len ∧
        res.has_sign = v.has_sign := by
      rw [← hRes]
      exact ⟨rfl, rfl⟩
    have hTrim := trimVnum_spec hHas.defined
    refine ⟨hTrim.defined, ?_, hTrim.has_len.trans hFlags.1, hTrim.has_sign.trans hFlags.2, ?_, ?_⟩
    · rw [hTrim.integer, hHas.integer, hFlags.2]
      exact value_shiftRight v.bit hRange.1 hRange.2.2
    · intro hSized
      rw [hTrim.sized (hFlags.1.trans hSized), hHas.len_eq, ← hNew, if_pos hSized]
    · exact Nat.le_trans hTrim.len_le (by
        rw [hHas.len_eq]
        exact hRange.2.1)

----
-- No Bits Are Lost
----

/- Both lengths are fixed. -/
def bothSized (left right : Verinum) : Bool :=
  left.has_len && right.has_len

/- The addition returns what it must. -/
def AddRight (left right : Verinum) : Prop :=
  ∃ res, left.add right = some res ∧
    Right (bothSized left right) (max left.len right.len) (left.integer + right.integer) res

/- A difference without sign may be out of reach if unsized. -/
def SubRight (left right : Verinum) : Prop :=
  ∃ res, left.sub right = some res ∧
    (bothSized left right = true ∨ left.has_sign = true →
      Right (bothSized left right) (max left.len right.len) (left.integer - right.integer) res)

def NegRight (right : Verinum) : Prop :=
  ∃ res, right.neg = some res ∧
    (right.has_len = true ∨ right.has_sign = true →
      Right right.has_len right.len (-right.integer) res)

def MulRight (left right : Verinum) : Prop :=
  Right (bothSized left right) (max left.len right.len)
    (left.integer * right.integer) (left.mul right)

def ShiftLeftRight (v : Verinum) (shift : Nat) : Prop :=
  Right v.has_len v.len (v.integer * 2 ^ shift) (v.shiftLeft shift)

def ShiftRightRight (v : Verinum) (shift : Nat) : Prop :=
  (v.shiftRight shift).integer = v.integer / 2 ^ shift ∧
    (v.has_len = true → (v.shiftRight shift).has_len = true ∧ (v.shiftRight shift).len = v.len)

theorem unsigned_of_lt (h : n < 2 ^ 32) : unsigned n = n := Nat.mod_eq_of_lt h

/- A sum that may grow where the length is open is right. -/
theorem Summed.right {signed grown : Bool} {n : Int}
    {res : Verinum} (h : Summed sized signed grown len n res)
    (hGrown : grown = !sized) (hFits : Fits signed (len + 1) n) : Right sized len n res := by
  constructor
  · intro hOpen
    rw [hOpen] at hGrown
    exact h.exact hGrown hFits
  · intro hSized
    rw [hSized] at hGrown
    exact ⟨h.has_len.trans hSized, h.modulo hGrown⟩

theorem addRight_iff {left right : Verinum} (h : Operands left right) :
    AddRight left right ↔
      max left.len right.len + 1 < 2 ^ 32 := by
  constructor
  · rintro ⟨res, hRes, -⟩
    by_contra hFull
    unfold add at hRes
    rw [h.isDefined, if_neg Bool.false_ne_true, if_pos ((unsigned_succ_le_iff _).mpr hFull)] at hRes
    cases hRes
  · intro hRoom
    rcases add_spec h hRoom with ⟨res, hRes, hSummed⟩
    refine ⟨res, hRes, hSummed.right rfl (fits_add ?_ ?_)⟩
    · exact left.integer_fits.mono (Nat.le_max_left _ _)
    · have hFits := right.integer_fits.mono (Nat.le_max_right left.len right.len)
      rwa [← h.has_sign] at hFits

theorem subRight_iff {right : Verinum} (h : Operands left right) :
    SubRight left right ↔
      max left.len right.len + 1 < 2 ^ 32 := by
  constructor
  · rintro ⟨res, hRes, -⟩
    by_contra hFull
    unfold sub at hRes
    rw [h.isDefined, if_neg Bool.false_ne_true, if_pos ((unsigned_succ_le_iff _).mpr hFull)] at hRes
    cases hRes
  · intro hRoom
    rcases sub_spec h hRoom with ⟨res, hRes, hSummed⟩
    refine ⟨res, hRes, fun hClaimed => ?_⟩
    cases hSized : bothSized left right with
    | true =>
      unfold bothSized at hSized
      rw [hSized, Bool.not_true, Bool.and_false] at hSummed
      exact ⟨(fun h => by cases h), fun _ => ⟨hSummed.has_len, hSummed.modulo rfl⟩⟩
    | false =>
      have hSign := hClaimed.resolve_left (by
        rw [hSized]
        exact Bool.false_ne_true)
      have hSign' := h.has_sign.symm.trans hSign
      unfold bothSized at hSized
      rw [hSized, hSign] at hSummed
      have hLeft := left.integer_fits
      have hRight := right.integer_fits
      rw [hSign] at hLeft
      rw [hSign'] at hRight
      exact ⟨fun _ => hSummed.exact rfl
        (fits_sub (hLeft.mono (Nat.le_max_left _ _)) (hRight.mono (Nat.le_max_right _ _))),
        fun h => by cases h⟩

theorem negRight_iff {right : Verinum} (h : right.Defined) (hLen : 0 < right.len) :
    NegRight right ↔ right.len + 1 < 2 ^ 32 := by
  constructor
  · rintro ⟨res, hRes, -⟩
    by_contra hFull
    have hDefined : (!right.isDefined) = false := by
      have hR : right.isDefined = true := h
      rw [hR]
      rfl
    unfold neg at hRes
    rw [hDefined, if_neg Bool.false_ne_true, if_pos ((unsigned_succ_le_iff _).mpr hFull)] at hRes
    cases hRes
  · intro hRoom
    rcases neg_spec h hLen hRoom with ⟨res, hRes, hSummed⟩
    refine ⟨res, hRes, fun hClaimed => ?_⟩
    cases hSized : right.has_len with
    | true =>
      rw [hSized, Bool.not_true, Bool.and_false] at hSummed
      exact ⟨(fun h => by cases h), fun _ => ⟨hSummed.has_len, hSummed.modulo rfl⟩⟩
    | false =>
      have hSign := hClaimed.resolve_left (by
        rw [hSized]
        exact Bool.false_ne_true)
      rw [hSized, hSign] at hSummed
      have hFits := right.integer_fits
      rw [hSign] at hFits
      have hZero : Fits true right.len 0 := by
        have hPos : (0 : Int) < 2 ^ right.len := by exact_mod_cast Nat.two_pow_pos right.len
        unfold Fits
        simp only [if_true]
        omega
      have hDiff := fits_sub hZero hFits
      rw [zero_sub] at hDiff
      exact ⟨fun _ => hSummed.exact rfl hDiff, fun h => by cases h⟩

/- A result modulo its length is right where it is sized or fits. -/
theorem right_trimVnum_iff {res : Verinum} {sign : Bool} {grown : Nat} {x : Int}
    (hDefined : res.Defined) (hStored : len < 2 ^ 32)
    (hLen : res.len = unsigned (if sized then len else grown)) (hHasLen : res.has_len = sized)
    (hSign : res.has_sign = sign) (hMod : res.integer ≡ x [ZMOD 2 ^ res.len]) :
    Right sized len x (trimVnum res) ↔ sized = true ∨ Fits sign (unsigned grown) x := by
  have hTrim := trimVnum_spec hDefined
  cases sized with
  | true =>
    rw [if_pos rfl, unsigned_of_lt hStored] at hLen
    rw [hTrim.sized hHasLen, ← hLen]
    exact ⟨fun _ => Or.inl rfl, fun _ => ⟨(fun h => by cases h), fun _ => ⟨hHasLen, rfl, hMod⟩⟩⟩
  | false =>
    rw [if_neg Bool.false_ne_true] at hLen
    have hIff := @value_eq_iff res.has_sign res.len res.bit _ (res.number_modEq_integer.trans hMod)
    rw [hSign, hLen] at hIff
    have hValue : res.integer = value sign (unsigned grown) res.bit := by
      unfold integer
      rw [hSign, hLen]
    rw [← hIff, ← hValue, ← hTrim.integer]
    exact ⟨fun hR => Or.inr (hR.exact rfl), fun hEq =>
      ⟨fun _ => hEq.resolve_left Bool.false_ne_true, fun h => by cases h⟩⟩

theorem mulRight_iff {right : Verinum} (h : Operands left right) (hLeft : left.len < 2 ^ 32)
    (hRight : right.len < 2 ^ 32) :
    MulRight left right ↔
      bothSized left right = true ∨
        Fits left.has_sign (unsigned (left.len + right.len)) (left.integer * right.integer) := by
  rcases mul_spec h with ⟨res, hRes, hDefined, hLen, hHasLen, hSign, hMod⟩
  rw [MulRight, hRes]
  exact right_trimVnum_iff hDefined (by omega) hLen hHasLen hSign hMod

theorem shiftLeftRight_iff (h : v.Defined) (hStored : v.len < 2 ^ 32) (shift : Nat) :
    ShiftLeftRight v shift ↔
      v.has_len = true ∨
        Fits v.has_sign (unsigned (v.len + shift)) (v.integer * 2 ^ shift) := by
  rcases shiftLeft_spec h shift with ⟨res, hRes, hDefined, hLen, hHasLen, hSign, hMod⟩
  rw [ShiftLeftRight, hRes]
  exact right_trimVnum_iff hDefined hStored hLen hHasLen hSign hMod

/-
  The operators lose no bits exactly where the lengths they
  compute do not wrap past what the result needs; a shift
  down and the trimming never do.
-/
theorem arithmetic_iff {left right : Verinum} (h : Operands left right)
    (hLeft : left.len < 2 ^ 32) (hRight : right.len < 2 ^ 32) (shift : Nat) :
    (AddRight left right ↔ max left.len right.len + 1 < 2 ^ 32) ∧
    (SubRight left right ↔ max left.len right.len + 1 < 2 ^ 32) ∧
    (NegRight right ↔ right.len + 1 < 2 ^ 32) ∧
    (MulRight left right ↔
      bothSized left right = true ∨
        Fits left.has_sign (unsigned (left.len + right.len)) (left.integer * right.integer)) ∧
    (ShiftLeftRight left shift ↔
      left.has_len = true ∨
        Fits left.has_sign (unsigned (left.len + shift)) (left.integer * 2 ^ shift)) ∧
    ShiftRightRight left shift ∧
    Trimmed left (trimVnum left) := by
  have hDown := shiftRight_spec h.left_defined h.left_len hLeft shift
  exact ⟨addRight_iff h, subRight_iff h,
    negRight_iff h.right_defined h.right_len,
    mulRight_iff h hLeft hRight,
    shiftLeftRight_iff h.left_defined hLeft shift,
    ⟨hDown.2.1, fun hSized =>
      ⟨hDown.2.2.1.trans hSized, hDown.2.2.2.2.1 hSized⟩⟩,
    trimVnum_spec h.left_defined⟩

/-
  As long as the length does not wrap, products and shifts
  have room.
-/
theorem fits_of_room {right : Verinum} (h : Operands left right) (shift : Nat) :
    (left.len + right.len < 2 ^ 32 →
      Fits left.has_sign (unsigned (left.len + right.len)) (left.integer * right.integer)) ∧
    (left.len + shift < 2 ^ 32 →
      Fits left.has_sign (unsigned (left.len + shift)) (left.integer * 2 ^ shift)) := by
  constructor
  · intro hRoom
    rw [unsigned_of_lt hRoom]
    have hFits := right.integer_fits
    rw [← h.has_sign] at hFits
    exact fits_mul left.integer_fits hFits
  · intro hRoom
    rw [unsigned_of_lt hRoom]
    exact fits_shiftLeft left.integer_fits shift

/- Minus one times three in two and three bits. -/
theorem arithmetic_iff_small :
    (mul ⟨[.v1, .v1], false, true, false⟩ ⟨[.v1, .v1, .v0], false, true, false⟩).integer = -3 := by
  have hRight := (@arithmetic_iff
    ⟨[.v1, .v1], false, true, false⟩
    ⟨[.v1, .v1, .v0], false, true, false⟩
    ⟨rfl, rfl, by decide, by decide, rfl⟩
    (by decide) (by decide) 0).2.2.2.1.mpr (Or.inr (by decide))
  rw [hRight.exact rfl]
  decide

/- One, shifted by as much as an unsigned holds, is lost. -/
theorem shiftLeft_lost :
    ¬ ∀ (v : Verinum) (shift : Nat), v.Defined → 0 < v.len →
      v.len < 2 ^ 32 → shift < 2 ^ 32 → v.has_len = false →
        (v.shiftLeft shift).integer = v.integer * 2 ^ shift := by
  intro h
  have hOne := h ⟨[.v1, .v0], false, true, false⟩ (2 ^ 32 - 2)
    rfl (by decide) (by decide) (by decide) rfl
  have hLost : (shiftLeft ⟨[.v1, .v0], false, true, false⟩ (2 ^ 32 - 2)).integer = 0 := by decide
  have hInteger : integer ⟨[.v1, .v0], false, true, false⟩ =
      1 := by
    decide
  rw [hInteger, one_mul] at hOne
  exact pow_ne_zero _ two_ne_zero hOne.symm

end Verinum

end EpicSim
