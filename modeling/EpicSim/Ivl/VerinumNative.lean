import EpicSim.Ivl.VerinumArith

/-
  Numbers of the compiler in words of the machine: reading a
  number as a signed or an unsigned word, and writing a word
  back as bits.
-/

----
-- Signed Words
----

namespace EpicSim

open BitVec (allOnes getLsbD_one getLsbD_and getLsbD_or)
open TwosComplement VerinumV

/-
  What a signed word keeps of an integer: its sign and the
  bits below the 64th.
-/
def cutLong (n : Int) : Int :=
  n % 2 ^ 63 - if n < 0 then 2 ^ 63 else 0

theorem cutLong_of_fits {n : Int} (h : Fits true 64 n) : cutLong n = n := by
  unfold Fits at h
  rw [if_pos rfl] at h
  unfold cutLong
  split_ifs with hNeg <;> omega

namespace Verinum

/- The number is negative exactly where its sign bit says so. -/
theorem sign_eq_decide (v : Verinum) : sign v.has_sign v.len v.bit = decide (v.integer < 0) := by
  have hLt := low_lt v.bit v.len
  have hCast := cast_two_pow v.len
  unfold integer value
  cases sign v.has_sign v.len v.bit with
  | false => simp
  | true =>
    rw [if_pos rfl]
    exact (decide_eq_true (by omega)).symm

variable {v : Verinum}

theorem isNegative_eq (hLen : 0 < v.len) : v.isNegative = decide (v.integer < 0) := by
  rw [← sign_eq_decide]
  unfold isNegative sign bit
  rw [decide_eq_true hLen, Bool.true_and, Bool.and_comm]

/- A loop over the low bits that sets a word's bits, all of them
   `b` at first, where a digit is not `b`. -/
theorem bitLoop_spec {b : Bool} {put : BitVec 64 → BitVec 64 → BitVec 64}
    {up : BitVec 64 → BitVec 64} {start : BitVec 64 × BitVec 64} (h : v.Defined)
    (hStart : ∀ i < 64, start.1.getLsbD i = b ∧ start.2.getLsbD i = (b ^^ decide (i = 0)))
    (hPut : ∀ a m i d, m.getLsbD i = (b ^^ d) →
      (put a m).getLsbD i = if d then !b else a.getLsbD i)
    (hUp : ∀ m, ∀ i < 64, (up m).getLsbD i = if i = 0 then b else m.getLsbD (i - 1))
    {n : Nat} (hLen : n ≤ v.len) (hWord : n ≤ 63) :
    ∀ i < 64,
      ((List.range n).foldl (fun (st : BitVec 64 × BitVec 64) idx =>
        (if v.get idx = ofBool !b then put st.1 st.2 else st.1, up st.2)) start).1.getLsbD i =
          (if i < n then v.bit i else b) ∧
      ((List.range n).foldl (fun (st : BitVec 64 × BitVec 64) idx =>
        (if v.get idx = ofBool !b then put st.1 st.2 else st.1, up st.2)) start).2.getLsbD i =
          (b ^^ decide (i = n)) := by
  induction n with
  | zero => exact fun i hi => ⟨(hStart i hi).1.trans (if_neg (Nat.not_lt_zero i)).symm,
    (hStart i hi).2⟩
  | succ n ih =>
    intro i hi
    have hBefore := ih (by omega) (by omega)
    rw [List.range_succ, List.foldl_append]
    generalize (List.range n).foldl _ start = st at hBefore ⊢
    simp only [List.foldl_cons, List.foldl_nil, get_of_defined h (Nat.lt_of_succ_le hLen),
      ofBool_inj]
    rcases hBefore i hi with ⟨hVal, hMask⟩
    constructor
    · split_ifs with hDigit hLow hLow
      · rw [hPut _ _ _ _ hMask, hVal]
        grind
      · rw [hPut _ _ _ _ hMask, hVal]
        grind
      · rw [hVal]
        grind
      · rw [hVal]
        grind
    · rw [hUp _ i hi]
      cases i with
      | zero => simp
      | succ i =>
        rw [if_neg (Nat.succ_ne_zero i), Nat.add_sub_cancel, (hBefore i (by omega)).2]
        simp

/- The word repeats the sign above the bits it takes. -/
theorem asLong_getLsbD (h : v.Defined) (hLen : 0 < v.len) {i : Nat} (hi : i < 64) :
    v.asLong.getLsbD i =
      if i < min v.len 63 then v.bit i
      else sign v.has_sign v.len v.bit := by
  have hDefined : (!v.isDefined) = false := by
    have hV : v.isDefined = true := h
    rw [hV]
    rfl
  have hSign : (v.has_sign && v.get (v.len - 1) == .v1) = sign v.has_sign v.len v.bit := by
    unfold sign bit
    rw [decide_eq_true hLen, Bool.true_and]
  unfold asLong
  rw [if_neg (Nat.ne_of_gt hLen), hDefined, if_neg Bool.false_ne_true, hSign]
  simp only
  cases sign v.has_sign v.len v.bit with
  | false =>
    rw [if_neg Bool.false_ne_true]
    refine (@bitLoop_spec v false (· ||| ·) (· <<< 1) (0#64, 1#64) h (fun i hi => ?_)
      (fun a m i d hm => ?_) (fun m i hi => ?_) _ (Nat.min_le_left _ _) (Nat.min_le_right _ _)
      i hi).1
    · simp [getLsbD_one]
    · rw [getLsbD_or, hm]
      cases d <;> simp
    · rw [BitVec.getLsbD_shiftLeft]
      cases i <;> simp [hi]
  | true =>
    rw [if_pos rfl]
    refine (@bitLoop_spec v true (· &&& ·) (· <<< 1 ||| 1#64) (allOnes 64, ~~~1#64) h
      (fun i hi => ?_)
      (fun a m i d hm => ?_) (fun m i hi => ?_) _ (Nat.min_le_left _ _) (Nat.min_le_right _ _)
      i hi).1
    · rw [BitVec.getLsbD_allOnes, BitVec.getLsbD_not, getLsbD_one]
      simp [hi]
    · rw [getLsbD_and, hm]
      cases d <;> simp
    · grind

/- A number as a signed word. -/
theorem asLong_toInt (h : v.Defined) (hLen : 0 < v.len) : v.asLong.toInt = cutLong v.integer := by
  have hLow : low v.asLong.getLsbD 63 = low (extended v.has_sign v.len v.bit) 63 := by
    apply low_congr
    intro i hi
    rw [asLong_getLsbD h hLen (by omega)]
    unfold extended
    grind
  have hTop : v.asLong.getLsbD 63 =
      decide (v.integer < 0) := by
    rw [asLong_getLsbD h hLen (by decide), if_neg (by omega), sign_eq_decide]
  have hMod := low_extended_modEq v.has_sign v.len v.bit 63
  have hLt := low_lt (extended v.has_sign v.len v.bit) 63
  have hEq : (low (extended v.has_sign v.len v.bit) 63 : Int) = v.integer % 2 ^ 63 := by
    unfold Int.ModEq at hMod
    unfold integer
    rw [← hMod]
    exact (Int.emod_eq_of_lt (by omega) (by exact_mod_cast hLt)).symm
  rw [← value_getLsbD]
  unfold value sign cutLong
  rw [Bool.true_and, decide_eq_true (by decide : 0 < 64), Bool.true_and, low_succ _ 63, hLow, hTop]
  push_cast
  rw [hEq]
  by_cases hNeg : v.integer < 0
  · grind
  · grind

----
-- Unsigned Words
----

/- The loop of `as_unsigned`, which saturates; that of
   `as_ulong` differs in the size of the word. -/
def wordLoop (w : Nat) (v : Verinum) : Nat → Nat → BitVec w → BitVec w → BitVec w
| 0, _, val, _ => val
| n + 1, idx, val, mask =>
  if v.get idx = .v1 then
    if mask = 0#w then ~~~mask
    else wordLoop w v n (idx + 1) (val ||| mask) (mask <<< 1)
  else wordLoop w v n (idx + 1) val (mask <<< 1)

/- The loop has read the bits below its index; it stops with
   all ones at the first one that finds no place. -/
theorem wordLoop_toNat {w : Nat} (v : Verinum) (n idx : Nat) (val mask : BitVec w)
    (hVal : val.toNat = low v.bit idx) (hMask : mask.toNat = 2 ^ idx % 2 ^ w) :
    (wordLoop w v n idx val mask).toNat = min (low v.bit (idx + n)) (2 ^ w - 1) := by
  induction n generalizing idx val mask with
  | zero =>
    have hLt := val.isLt
    rw [wordLoop, Nat.add_zero, ← hVal]
    omega
  | succ n ih =>
    have hNext : (mask <<< 1).toNat = 2 ^ (idx + 1) % 2 ^ w := by
      rw [BitVec.toNat_shiftLeft, hMask, Nat.shiftLeft_eq, Nat.mod_mul_mod, ← pow_succ]
    have hBack : idx + 1 + n = idx + (n + 1) := by omega
    rw [wordLoop]
    cases hBit : v.get idx == VerinumV.v1 with
    | false =>
      rw [if_neg (by simpa using hBit)]
      rw [← hBack]
      refine ih _ _ _ ?_ hNext
      rw [hVal, low_succ, show v.bit idx = false from hBit]
      simp
    | true =>
      rw [if_pos (by simpa using hBit)]
      by_cases hFull : mask = 0#w
      · rw [if_pos hFull, hFull]
        have hBeyond : w ≤ idx := by
          by_contra hIn
          have hZero : mask.toNat = 0 := by rw [hFull]; rfl
          rw [hMask, Nat.mod_eq_of_lt (Nat.pow_lt_pow_right (by decide) (by omega))] at hZero
          exact absurd hZero (Nat.two_pow_pos idx).ne'
        have hPlace := le_low
          (show v.bit idx = true from hBit)
          (show idx < idx + (n + 1) by omega)
        have hPow : 2 ^ w ≤ 2 ^ idx := Nat.pow_le_pow_right (by decide) hBeyond
        rw [Nat.min_eq_right (by omega)]
        simp
      · rw [if_neg hFull]
        have hIn : idx < w := by
          by_contra hBeyond
          have hDvd : 2 ^ w ∣ 2 ^ idx := pow_dvd_pow 2 (by omega)
          apply hFull
          apply BitVec.eq_of_toNat_eq
          rw [hMask, Nat.mod_eq_zero_of_dvd hDvd]
          simp
        have hPow : 2 ^ idx < 2 ^ w := Nat.pow_lt_pow_right (by decide) hIn
        rw [← hBack]
        refine ih _ _ _ ?_ hNext
        have hLt := low_lt v.bit idx
        rw [BitVec.toNat_or, hVal, hMask, Nat.mod_eq_of_lt hPow, low_succ,
          show v.bit idx = true from hBit, Bool.toNat_true, Nat.or_comm, Nat.one_mul]
        have hOr := Nat.two_pow_add_eq_or_of_lt hLt 1
        rw [Nat.mul_one] at hOr
        omega

theorem asULongLoop_eq (v : Verinum) (n idx : Nat) (val mask : BitVec 64) :
    asULongLoop v n idx val mask = wordLoop 64 v n idx val mask := by
  induction n generalizing idx val mask with
  | zero => rfl
  | succ n ih => rw [asULongLoop, wordLoop, ih, ih]

/- A number as an unsigned word, which saturates. -/
theorem asULong_toNat (h : v.Defined) (hLen : 0 < v.len) :
    v.asULong.toNat = min v.number (2 ^ 64 - 1) := by
  have hDefined : (!v.isDefined) = false := by
    have hV : v.isDefined = true := h
    rw [hV]
    rfl
  unfold asULong
  rw [if_neg (Nat.ne_of_gt hLen), hDefined, if_neg Bool.false_ne_true,
    asULongLoop_eq, wordLoop_toNat v v.len 0 _ _ rfl rfl, Nat.zero_add]
  rfl

----
-- Words As Bits
----

/- A word is written with its own bits. -/
theorem nativeBits_eq {shift : BitVec 64 → BitVec 64}
    (hShift : ∀ w i, i + 1 < 64 → (shift w).getLsbD i = w.getLsbD (i + 1))
    {n : Nat} (hn : n ≤ 64) (w : BitVec 64) :
    nativeBits shift n w = (List.range n).map (fun i => ofBool (w.getLsbD i)) := by
  induction n generalizing w with
  | zero => rfl
  | succ n ih =>
    have hHead : (w &&& 1#64 ≠ 0#64) ↔
        w.getLsbD 0 = true := by
      constructor
      · intro hNe
        by_contra hBit
        apply hNe
        apply BitVec.eq_of_getLsbD_eq
        intro i hi
        rw [getLsbD_and, getLsbD_one]
        cases i with
        | zero => simpa using hBit
        | succ i => simp
      · intro hBit hEq
        have hAt := congrArg (fun x => BitVec.getLsbD x 0) hEq
        simp only [getLsbD_and, hBit, getLsbD_one, BitVec.getLsbD_zero] at hAt
        exact absurd hAt (by decide)
    have hTail : (List.range n).map (fun i =>
        ofBool ((shift w).getLsbD i)) =
          (List.range n).map ((fun i =>
            ofBool (w.getLsbD i)) ∘ Nat.succ) := by
      apply List.map_congr_left
      grind
    rw [nativeBits, ih (by omega), List.range_succ_eq_map, List.map_cons, List.map_map, hTail]
    congr 1
    unfold ofBool
    grind

theorem nativeBits_sshiftRight {n : Nat} (hn : n ≤ 64) (w : BitVec 64) :
    nativeBits (fun w => w.sshiftRight 1) n w =
      (List.range n).map (fun i => ofBool (w.getLsbD i)) := by
  refine nativeBits_eq (fun w i hi => ?_) hn w
  rw [BitVec.getLsbD_sshiftRight, Nat.add_comm 1 i]
  simp [hi, show ¬ 64 ≤ i by omega]

theorem nativeBits_ushiftRight {n : Nat} (hn : n ≤ 64) (w : BitVec 64) :
    nativeBits (fun w => w >>> 1) n w = (List.range n).map (fun i => ofBool (w.getLsbD i)) := by
  refine nativeBits_eq (fun w i _ => ?_) hn w
  rw [BitVec.getLsbD_ushiftRight, Nat.add_comm 1 i]

end Verinum

end EpicSim
