import EpicSim.Lib.TwosComplement
import EpicSim.Vvp.PartSelect

/-
  The part select instructions of the threads, whose base is a
  vector or an immediate.

  The base goes through a 32-bit integer, made of the low bits
  of the vector.  What the instruction selects is what the
  whole base asks for, unless the bits above the low ones
  matter and the window of the small base meets the vector.
-/

----
-- Instructions
----

namespace EpicSim

/-
  The common part of `of_PART_base` and `of_PARTI_base`, in
  32-bit arithmetic.  Where `base + (int)wid` is out of an
  `int` the source has no meaning; here it wraps.
-/
def partAt (value : List VvpBit4) (wid base : BitVec 32) : Option (List VvpBit4) :=
  let size := BitVec.ofNat 32 value.length
  let res := List.replicate wid.toNat VvpBit4.x
  if size.sle base then some res
  else if (base + wid).sle 0#32 then some res
  else
    let vbase := if base.slt 0#32 then -base else 0#32
    let wid := wid - vbase
    let base := if base.slt 0#32 then 0#32 else base
    let wid := if size < base + wid then size - base else wid
    setVec res vbase.toNat (subvalue value base.toNat wid.toNat)

/- `of_PART_base`, of the base and the value on the stack. -/
def ofPartBase (signed_flag : Bool) (wid : BitVec 32)
    (base4 value : List VvpBit4) : Option (List VvpBit4) :=
  match vector4ToInt32 base4 signed_flag with
  | none => some (List.replicate wid.toNat .x)
  | some base => partAt value wid base

/- `of_PARTI_base`, of a base of so many bits. -/
def ofPartiBase (signed_flag : Bool) (wid base bwid : BitVec 32)
    (value : List VvpBit4) : Option (List VvpBit4) :=
  let use_base :=
    if signed_flag ∧ bwid < 32#32 ∧
        base &&& (1#32 <<< (bwid - 1#32)) ≠ 0#32 then
      base ||| (BitVec.allOnes 32 <<< bwid)
    else base
  partAt value wid use_base

/- `of_PART_S`, `of_PART_U`, `of_PARTI_S` and `of_PARTI_U`. -/
def ofPartS := ofPartBase true
def ofPartU := ofPartBase false
def ofPartiS := ofPartiBase true
def ofPartiU := ofPartiBase false

----
-- Meaning
----

open TwosComplement

/- A bit that is one. -/
def oneAt (vec : List VvpBit4) (idx : Nat) : Bool :=
  decide (bitValue vec idx = .one)

/- The integer of a vector, where X and Z count nothing. -/
def vectorInteger (vec : List VvpBit4) (signed : Bool) : Int :=
  value signed vec.length (oneAt vec)

/- Some bits without an X or a Z. -/
def isTwoState (vec : List VvpBit4) : Bool :=
  vec.all (fun bit => decide (bit = .zero ∨ bit = .one))

/- The bits of a vector from a place on, and X outside. -/
def windowAt (vec : List VvpBit4) (base : Int) (wid : Nat) : List VvpBit4 :=
  (List.range wid).map (fun (i : Nat) =>
    if 0 ≤ base + i ∧ base + i < vec.length then
      bitValue vec (base + i).toNat
    else .x)

/- What the whole base asks for. -/
def partMeant (signed : Bool) (wid : Nat) (base4 value : List VvpBit4) : List VvpBit4 :=
  if isTwoState base4 then
    windowAt value (vectorInteger base4 signed) wid
  else List.replicate wid .x

/- The window at a place shows nothing but X. -/
def ShowsNothing (vec : List VvpBit4) (base : Int) (wid : Nat) : Prop :=
  ∀ i : Nat, i < wid → 0 ≤ base + i → base + i < vec.length → bitValue vec (base + i).toNat = .x

/- An integer that an `int32_t` holds. -/
def FitsInt (n : Int) : Prop := -2 ^ 31 ≤ n ∧ n < 2 ^ 31

/- All positions of the select are in an `int`. -/
def PartSmall (value : List VvpBit4) (wid : BitVec 32) : Prop :=
  value.length + wid.toNat ≤ 2 ^ 31

/-
  When a select with a vector as its base is right: an X among
  the low bits, a two-state base that an `int32_t` holds, or
  nothing to see at the place that the low bits name.
-/
def PartHolds (signed : Bool) (wid : BitVec 32) (base4 value : List VvpBit4) : Prop :=
  isTwoState (base4.take 32) = false ∨
    (isTwoState base4 = true ∧ FitsInt (vectorInteger base4 signed)) ∨
    ShowsNothing value ((vectorInteger base4 signed).bmod (2 ^ 32)) wid.toNat

/- The integer of an immediate base of so many bits. -/
def immediateInteger (signed : Bool) (base bwid : BitVec 32) : Int :=
  TwosComplement.value signed bwid.toNat base.getLsbD

/- When a select with an immediate base is right. -/
def PartiHolds (signed : Bool) (wid base bwid : BitVec 32) (value : List VvpBit4) : Prop :=
  FitsInt (immediateInteger signed base bwid) ∨
    ShowsNothing value ((immediateInteger signed base bwid).bmod (2 ^ 32)) wid.toNat

end EpicSim

----
-- Bases
----

namespace EpicSim

open TwosComplement

/- A word with the extended bits of a number is the number
   modulo the word. -/
theorem eq_ofInt_of_bits {signed : Bool} {len w : Nat} {b : Nat → Bool} {x : BitVec w}
    (h : ∀ j < w, x.getLsbD j = extended signed len b j) :
    x = BitVec.ofInt w (TwosComplement.value signed len b) := by
  have hLow : x.toNat = low (extended signed len b) w := by
    rw [← low_getLsbD x]
    exact low_congr h
  have hMod := low_extended_modEq signed len b w
  apply BitVec.eq_of_toNat_eq
  rw [BitVec.toNat_ofInt]
  have hCast := cast_two_pow w
  have hEq : (x.toNat : Int) % ((2 ^ w : Nat) : Int) =
      TwosComplement.value signed len b % ((2 ^ w : Nat) : Int) := by
    rw [hLow]
    exact hMod
  rw [← hEq, ← Int.natCast_emod, Nat.mod_eq_of_lt x.isLt]
  rfl

/- The ones of some bits, gathered into a word. -/
theorem foldl_ones (vec : List VvpBit4) (k : Nat) (res : BitVec 32) {j : Nat} (hj : j < 32) :
    ((vec.zipIdx k).foldl
      (fun res entry => if entry.1 = .one then res ||| (1#32 <<< entry.2) else res)
      res).getLsbD j =
      (res.getLsbD j || (decide (k ≤ j) && oneAt vec (j - k))) := by
  induction vec generalizing k res with
  | nil =>
    have hNone : oneAt [] (j - k) = false := by
      rfl
    rw [hNone, Bool.and_false, Bool.or_false]
    rfl
  | cons bit vec ih =>
    rw [List.zipIdx_cons, List.foldl_cons, ih]
    have hHere : (if bit = VvpBit4.one then
        res ||| (1#32 <<< k) else res).getLsbD j =
          (res.getLsbD j || (decide (j = k) && decide (bit = .one))) := by grind
    rw [hHere, Bool.or_assoc]
    congr 1
    rcases Nat.lt_trichotomy j k with hLt | hSame | hGt
    · simp [show j ≠ k by omega, show ¬k + 1 ≤ j by omega, show ¬k ≤ j by omega]
    · subst hSame
      simp [oneAt, bitValue]
    · have hNext : j - k = (j - (k + 1)) + 1 := by omega
      have hShift : oneAt (bit :: vec) (j - k) = oneAt vec (j - (k + 1)) := by
        rw [hNext]
        rfl
      simp [show j ≠ k by omega, show k + 1 ≤ j by omega, show k ≤ j by omega, hShift]

theorem oneAt_take (vec : List VvpBit4) {n j : Nat} (hj : j < n) :
    oneAt (vec.take n) j = oneAt vec j := by
  unfold oneAt bitValue
  rw [List.getD_eq_getElem?_getD, List.getD_eq_getElem?_getD, List.getElem?_take_of_lt hj]

theorem oneAt_of_le {vec : List VvpBit4} {j : Nat} (h : vec.length ≤ j) : oneAt vec j = false := by
  unfold oneAt bitValue
  rw [List.getD_eq_default _ _ h]
  rfl

/- The low bits of a base, as a signed word. -/
theorem vector4ToInt32_eq (vec : List VvpBit4) (signed : Bool) :
    vector4ToInt32 vec signed =
      if isTwoState (vec.take 32) then
        some (BitVec.ofInt 32 (vectorInteger vec signed))
      else none := by
  unfold vector4ToInt32
  simp only
  by_cases hTwo : isTwoState (vec.take 32) = true
  · rw [if_pos hTwo]
    unfold isTwoState at hTwo
    rw [if_pos hTwo]
    congr 1
    refine eq_ofInt_of_bits (fun j hj => ?_)
    have hFold := foldl_ones (vec.take 32) 0 0#32 hj
    rw [decide_eq_true (Nat.zero_le j), Bool.true_and, Nat.sub_zero,
      oneAt_take vec hj, BitVec.getLsbD_zero, Bool.false_or] at hFold
    by_cases hExtend : signed = true ∧ vec.length < 32 ∧
        0 < vec.length ∧ bitValue vec (vec.length - 1) = .one
    · rw [if_pos hExtend, BitVec.getLsbD_or, hFold,
        BitVec.getLsbD_shiftLeft, BitVec.getLsbD_allOnes]
      rcases hExtend with ⟨hSigned, hShort, hPos, hTop⟩
      by_cases hIn : j < vec.length
      · rw [extended_of_lt hIn, decide_eq_true hIn]
        simp
      · rw [extended_of_le (Nat.not_lt.mp hIn)]
        unfold sign
        rw [hSigned, decide_eq_true hPos]
        unfold oneAt
        rw [decide_eq_true hTop]
        simp [hIn, hj, show j - vec.length < 32 by omega]
    · rw [if_neg hExtend, hFold]
      by_cases hIn : j < vec.length
      · rw [extended_of_lt hIn]
      · rw [extended_of_le (Nat.not_lt.mp hIn), oneAt_of_le (by omega)]
        unfold sign oneAt
        grind
  · rw [if_neg hTwo]
    unfold isTwoState at hTwo
    rw [if_neg hTwo]

end EpicSim

----
-- Windows
----

namespace EpicSim

open BitVec (toInt_eq_toNat_cond sle_iff_toInt_le toNat_add toNat_sub lt_def)
open PartUpdate

theorem windowAt_length (vec : List VvpBit4) (base : Int) (wid : Nat) :
    (windowAt vec base wid).length = wid := by
  unfold windowAt
  rw [List.length_map, List.length_range]

theorem windowAt_getElem {vec : List VvpBit4} {base : Int} {wid i : Nat}
    (h : i < (windowAt vec base wid).length) :
    (windowAt vec base wid)[i] =
      if 0 ≤ base + i ∧ base + i < vec.length then
        bitValue vec (base + i).toNat
      else .x := by
  simp [windowAt]

variable {vec : List VvpBit4} {base : Int}

/- A part of a vector, put among X, is a window of it. -/
theorem setVec_window {wid vbase adr len : Nat} (hRoom : vbase + len ≤ wid)
    (hFrom : (vbase : Int) + base = adr) (hFits : adr + len ≤ vec.length)
    (hOutside : ∀ i : Nat, i < wid → ¬(vbase ≤ i ∧ i < vbase + len) →
      base + i < 0 ∨ vec.length ≤ base + i) :
    setVec (List.replicate wid .x) vbase (subvalue vec adr len) = some (windowAt vec base wid) := by
  have hLength : (subvalue vec adr len).length = len := by
    unfold subvalue
    rw [List.length_map, List.length_range]
  unfold setVec
  rw [List.length_replicate, hLength, if_pos hRoom]
  congr 1
  apply List.ext_getElem
  · rw [overwrite_length, List.length_replicate, windowAt_length]
  · intro i hi hi'
    rw [windowAt_length] at hi'
    have hBit := @overwrite_getD VvpBit4
      (List.replicate wid .x) (subvalue vec adr len) vbase i .x
      (by rw [List.length_replicate]; exact hi')
    rw [List.getD_eq_getElem _ _ hi, hLength] at hBit
    rw [hBit, windowAt_getElem]
    by_cases hInside : vbase ≤ i ∧ i < vbase + len
    · rw [if_pos hInside, if_pos (by omega)]
      have hPart : (subvalue vec adr len).getD (i - vbase) .x =
          bitValue vec (adr + (i - vbase)) := by
        rw [List.getD_eq_getElem _ _ (by omega)]
        unfold subvalue
        rw [List.getElem_map, List.getElem_range]
      rw [hPart, show (base + i).toNat = adr + (i - vbase) by
        omega]
    · grind

/- Nothing of the vector is in the window. -/
theorem windowAt_none {wid : Nat} (h : ShowsNothing vec base wid) :
    windowAt vec base wid = List.replicate wid .x := by
  apply List.ext_getElem
  · rw [windowAt_length, List.length_replicate]
  · intro i hi hi'
    rw [List.length_replicate] at hi'
    rw [windowAt_getElem, List.getElem_replicate]
    split_ifs with hIn
    · exact h i hi' hIn.1 hIn.2
    · rfl

theorem showsNothing_of_window {wid : Nat} (h : windowAt vec base wid = List.replicate wid .x) :
    ShowsNothing vec base wid := by
  intro i hi hLow hHigh
  have hLength := windowAt_length vec base wid
  have hBit := @windowAt_getElem vec base wid i (by omega)
  rw [if_pos ⟨hLow, hHigh⟩] at hBit
  have hAll : ∀ b ∈ windowAt vec base wid, b = .x := by
    rw [h]
    exact fun b hb => List.eq_of_mem_replicate hb
  rw [← hBit]
  exact hAll _ (List.getElem_mem _)

/- The instruction shows the window of its 32-bit base. -/
theorem partAt_eq {value : List VvpBit4} {wid base : BitVec 32} (hWid : 0 < wid.toNat)
    (hSmall : PartSmall value wid) :
    partAt value wid base = some (windowAt value base.toInt wid.toNat) := by
  unfold PartSmall at hSmall
  have hSize : (BitVec.ofNat 32 value.length).toNat = value.length := by
    rw [BitVec.toNat_ofNat]
    omega
  have hSizeInt : (BitVec.ofNat 32 value.length).toInt = value.length := by
    rw [toInt_eq_toNat_cond, hSize, if_pos (by omega)]
  have hBase := toInt_eq_toNat_cond base
  unfold partAt
  by_cases hPast : (value.length : Int) ≤ base.toInt
  · rw [if_pos (by
      rw [sle_iff_toInt_le, hSizeInt]
      exact hPast), windowAt_none (fun i _ _ hHigh => by omega)]
  · have hSum : (base + wid).toInt = base.toInt + wid.toNat := by grind
    rw [if_neg (by
      rw [sle_iff_toInt_le, hSizeInt]
      exact hPast)]
    by_cases hBefore : base.toInt + wid.toNat ≤ 0
    · rw [if_pos (by
        rw [sle_iff_toInt_le, hSum]
        exact hBefore), windowAt_none (fun i hi hLow _ => by
          omega)]
    · rw [if_neg (by
        rw [sle_iff_toInt_le, hSum]
        exact hBefore)]
      by_cases hNeg : base.toInt < 0
      · -- the window begins before the vector
        have hSlt : base.slt 0#32 = true := by
          rw [BitVec.slt_iff_toInt_lt]
          exact hNeg
        rw [hSlt]
        simp only [if_true]
        have hVbase : ((-base).toNat : Int) = -base.toInt := by
          rw [BitVec.toNat_neg]
          split_ifs at hBase <;> omega
        have hRest : ((wid - -base).toNat : Int) = wid.toNat + base.toInt := by
          rw [toNat_sub]
          omega
        rw [BitVec.zero_add, BitVec.sub_zero]
        by_cases hLong : BitVec.ofNat 32 value.length < wid - -base
        · have hLongNat := lt_def.mp hLong
          rw [if_pos hLong]
          exact setVec_window (by omega)
            (by rw [hVbase]; simp) (by rw [hSize]; simp)
            (fun i hi hOut => by omega)
        · have hLongNat := mt lt_def.mpr hLong
          rw [if_neg hLong]
          exact setVec_window (by omega)
            (by rw [hVbase]; simp) (by simp; omega)
            (fun i hi hOut => by omega)
      · have hSlt : base.slt 0#32 = false := by
          rw [Bool.eq_false_iff, ne_eq, BitVec.slt_iff_toInt_lt]
          exact hNeg
        rw [hSlt]
        simp only [Bool.false_eq_true, if_false]
        have hAt : (base.toNat : Int) = base.toInt := by split_ifs at hBase <;> omega
        have hZero : (0#32).toNat = 0 := rfl
        rw [BitVec.sub_zero]
        by_cases hLong : BitVec.ofNat 32 value.length < base + wid
        · have hLongNat := lt_def.mp hLong
          rw [toNat_add] at hLongNat
          rw [if_pos hLong, toNat_sub]
          exact setVec_window (by simp; omega)
            (by simp [hAt]) (by omega)
            (fun i hi hOut => by omega)
        · have hLongNat := mt lt_def.mpr hLong
          rw [toNat_add] at hLongNat
          rw [if_neg hLong]
          exact setVec_window (by simp)
            (by simp [hAt]) (by omega)
            (fun i hi hOut => by omega)

end EpicSim

----
-- Selects
----

namespace EpicSim

open TwosComplement

variable {vec : List VvpBit4} {n : Int} {wid : BitVec 32}
  {signed : Bool}

/- A window far from the vector shows nothing. -/
theorem showsNothing_of_far (hSmall : PartSmall vec wid) (h : ¬FitsInt n) :
    ShowsNothing vec n wid.toNat := by
  unfold PartSmall at hSmall
  unfold FitsInt at h
  intro i hi hLow hHigh
  omega

theorem bmod_of_fitsInt (h : FitsInt n) : n.bmod (2 ^ 32) = n := by
  unfold FitsInt at h
  exact Int.bmod_eq_of_le (by omega) (by omega)

/- What a select shows is right where its base is an `int32_t`
   or nothing is to be seen. -/
theorem window_bmod_iff (hSmall : PartSmall vec wid) :
    windowAt vec (n.bmod (2 ^ 32)) wid.toNat = windowAt vec n wid.toNat ↔
      FitsInt n ∨ ShowsNothing vec (n.bmod (2 ^ 32)) wid.toNat := by
  by_cases hFits : FitsInt n
  · rw [bmod_of_fitsInt hFits]
    exact ⟨fun _ => Or.inl hFits, fun _ => rfl⟩
  · rw [windowAt_none (showsNothing_of_far hSmall hFits)]
    exact ⟨fun h => Or.inr (showsNothing_of_window h), fun h =>
      windowAt_none (h.resolve_left hFits)⟩

theorem isTwoState_take (h : isTwoState vec = true) (n : Nat) : isTwoState (vec.take n) = true := by
  unfold isTwoState at h ⊢
  rw [List.all_eq_true] at h ⊢
  exact fun b hb => h b (List.mem_of_mem_take hb)

theorem ofPartBase_iff {base4 value : List VvpBit4} (hWid : 0 < wid.toNat)
    (hSmall : PartSmall value wid) :
    ofPartBase signed wid base4 value = some (partMeant signed wid.toNat base4 value) ↔
      PartHolds signed wid base4 value := by
  unfold ofPartBase partMeant PartHolds
  rw [vector4ToInt32_eq]
  by_cases hLow : isTwoState (base4.take 32) = true
  · rw [if_pos hLow]
    simp only
    rw [partAt_eq hWid hSmall, BitVec.toInt_ofInt, Option.some_inj]
    by_cases hAll : isTwoState base4 = true
    · rw [if_pos hAll, window_bmod_iff hSmall]
      constructor
      · grind
      · grind
    · rw [if_neg hAll]
      constructor
      · exact fun h => Or.inr (Or.inr (showsNothing_of_window h))
      · rintro (hX | ⟨hTwo, _⟩ | hNone)
        · rw [hLow] at hX
          cases hX
        · exact absurd hTwo hAll
        · exact windowAt_none hNone
  · rw [if_neg hLow]
    have hAll : ¬isTwoState base4 = true := fun h => hLow (isTwoState_take h 32)
    rw [if_neg hAll]
    exact ⟨fun _ => Or.inl (Bool.eq_false_of_not_eq_true hLow), fun _ => rfl⟩

theorem getLsbD_one_shiftLeft {k j : Nat} (hj : j < 32) :
    (1#32 <<< k).getLsbD j = decide (j = k) := by
  by_cases hSame : j = k
  · subst hSame
    simp [hj]
  · grind

/- A test of one bit. -/
theorem and_one_shiftLeft_ne_zero {x : BitVec 32} {k : Nat} (hk : k < 32) :
    x &&& (1#32 <<< k) ≠ 0#32 ↔ x.getLsbD k = true := by
  constructor
  · grind
  · intro hBit h
    have hAt := congrArg (fun y => BitVec.getLsbD y k) h
    simp only [BitVec.getLsbD_and, getLsbD_one_shiftLeft hk, hBit, BitVec.getLsbD_zero] at hAt
    cases hAt

/- The immediate base, as a signed word. -/
theorem useBase_eq {base bwid : BitVec 32} (hPos : 0 < bwid.toNat)
    (hBits : base.toNat < 2 ^ bwid.toNat) :
    (if signed ∧ bwid < 32#32 ∧
        base &&& (1#32 <<< (bwid - 1#32)) ≠ 0#32 then
      base ||| (BitVec.allOnes 32 <<< bwid)
    else base) =
      BitVec.ofInt 32 (immediateInteger signed base bwid) := by
  have hAbove : ∀ j, bwid.toNat ≤ j → base.getLsbD j = false := by
    intro j hj
    refine Nat.testBit_lt_two_pow (Nat.lt_of_lt_of_le hBits ?_)
    exact Nat.pow_le_pow_right (by decide) hj
  have hShort : bwid < 32#32 ↔ bwid.toNat < 32 := BitVec.lt_def
  refine eq_ofInt_of_bits (fun j hj => ?_)
  by_cases hWide : bwid.toNat < 32
  · have hTop : (bwid - 1#32).toNat = bwid.toNat - 1 := by
      simp
      omega
    have hSign : sign signed bwid.toNat base.getLsbD =
        (signed && base.getLsbD (bwid.toNat - 1)) := by
      unfold sign
      rw [decide_eq_true hPos, Bool.true_and]
    have hTest : (signed = true ∧ bwid < 32#32 ∧
        base &&& (1#32 <<< (bwid - 1#32)) ≠ 0#32) ↔
          sign signed bwid.toNat base.getLsbD = true := by
      rw [BitVec.shiftLeft_eq', hTop, and_one_shiftLeft_ne_zero (by omega),
        hSign, Bool.and_eq_true]
      exact ⟨fun h => ⟨h.1, h.2.2⟩, fun h => ⟨h.1, hWide, h.2⟩⟩
    by_cases hNeg : sign signed bwid.toNat base.getLsbD = true
    · rw [if_pos (hTest.mpr hNeg), BitVec.getLsbD_or, BitVec.shiftLeft_eq',
        BitVec.getLsbD_shiftLeft, BitVec.getLsbD_allOnes]
      by_cases hIn : j < bwid.toNat
      · rw [extended_of_lt hIn]
        simp [hIn]
      · rw [extended_of_le (Nat.not_lt.mp hIn), hNeg]
        simp [hj]
        omega
    · rw [if_neg (mt hTest.mp hNeg)]
      by_cases hIn : j < bwid.toNat
      · rw [extended_of_lt hIn]
      · rw [extended_of_le (Nat.not_lt.mp hIn), hAbove j (Nat.not_lt.mp hIn),
          Bool.eq_false_of_not_eq_true hNeg]
  · rw [if_neg (fun h => hWide (hShort.mp h.2.1)), extended_of_lt (by omega)]

theorem ofPartiBase_iff {wid base bwid : BitVec 32} {value : List VvpBit4}
    (hWid : 0 < wid.toNat) (hSmall : PartSmall value wid)
    (hPos : 0 < bwid.toNat) (hBits : base.toNat < 2 ^ bwid.toNat) :
    ofPartiBase signed wid base bwid value =
        some (windowAt value (immediateInteger signed base bwid) wid.toNat) ↔
      PartiHolds signed wid base bwid value := by
  unfold ofPartiBase PartiHolds
  rw [useBase_eq hPos hBits, partAt_eq hWid hSmall,
    BitVec.toInt_ofInt, Option.some_inj, window_bmod_iff hSmall]

/- The four instructions, for every vector, base and width
   whose positions are in an `int`. -/
theorem part_select_exact {wid : BitVec 32} {value : List VvpBit4} (hWid : 0 < wid.toNat)
    (hSmall : PartSmall value wid) :
    (∀ base4,
      (ofPartS wid base4 value = some (partMeant true wid.toNat base4 value) ↔
        PartHolds true wid base4 value) ∧
      (ofPartU wid base4 value = some (partMeant false wid.toNat base4 value) ↔
        PartHolds false wid base4 value)) ∧
    (∀ base bwid : BitVec 32,
      0 < bwid.toNat → base.toNat < 2 ^ bwid.toNat →
        (ofPartiS wid base bwid value =
            some (windowAt value (immediateInteger true base bwid) wid.toNat) ↔
          PartiHolds true wid base bwid value) ∧
        (ofPartiU wid base bwid value =
            some (windowAt value (immediateInteger false base bwid) wid.toNat) ↔
          PartiHolds false wid base bwid value)) :=
  ⟨fun _ => ⟨ofPartBase_iff hWid hSmall,
      ofPartBase_iff hWid hSmall⟩,
    fun _ _ hPos hBits =>
      ⟨ofPartiBase_iff hWid hSmall hPos hBits, ofPartiBase_iff hWid hSmall hPos hBits⟩⟩

/- A base of minus one, before a vector of two bits. -/
theorem part_select_exact_before :
    ofPartS 3#32 [.one, .one] [.zero, .one] = some [.x, .zero, .one] := by
  have hExact := ((@part_select_exact 3#32 [.zero, .one]
    (by decide) (by unfold PartSmall; decide)).1 [.one, .one]).1
  have hInteger : vectorInteger [.one, .one] true = -1 := by decide
  have hFits : FitsInt (vectorInteger [.one, .one] true) := by
    rw [hInteger]
    unfold FitsInt
    decide
  have hMeant : partMeant true 3 [.one, .one] [.zero, .one] =
      [.x, .zero, .one] := by decide
  rw [← hMeant]
  exact hExact.mpr (Or.inr (Or.inl ⟨by decide, hFits⟩))

/- An unsigned base of 2^32-1 selects from before the vector. -/
theorem unsigned_base_reads_before :
    ¬ ∀ (wid : BitVec 32) (base4 value : List VvpBit4),
      0 < wid.toNat →
        ofPartU wid base4 value = some (partMeant false wid.toNat base4 value) := by
  intro h
  have hRead := h 2#32 (List.replicate 32 .one) [.one] (by decide)
  exact absurd hRead (by decide)

end EpicSim
