import EpicSim.Vvp.ThreadNative
import EpicSim.Vvp.ThreadQuotient

/-
  What the dividing instructions make of their operands: the
  remainders are always right, the quotients exactly where no
  guess of the long division goes wrong.
-/

namespace EpicSim

open BitVec (allOnes)
open PackedWords Limbs VvpVector4

----
-- Right Results
----

namespace DivideOp

/- The operands are taken as signed numbers. -/
def signed : DivideOp → Bool
| .div => false
| .divS => true
| .mod => false
| .modS => true

/- The exact result: truncated quotient or remainder. -/
def value : DivideOp → Int → Int → Int
| .div => Int.tdiv
| .divS => Int.tdiv
| .mod => Int.tmod
| .modS => Int.tmod

/- Both operands are numbers, and the divisor is not zero. -/
def Divides (vala valb : VvpVector4) : Prop :=
  vala.Defined ∧ valb.Defined ∧ valb.number ≠ 0

instance (vala valb : VvpVector4) : Decidable (Divides vala valb) :=
  inferInstanceAs (Decidable (_ ∧ _ ∧ _))

/- The exact result in the width, or all X. -/
structure Right (i : DivideOp) (vala valb out : VvpVector4) : Prop where
  encodes :
    Divides vala valb →
      out.Encodes vala.size_ (i.value (vala.integer i.signed) (valb.integer i.signed))
  allX : ¬ Divides vala valb → out.AllX vala.size_

/- A quotient, longer than a word, for two numbers. -/
def Long (i : DivideOp) (vala valb : VvpVector4) : Prop :=
  (i = .div ∨ i = .divS) ∧ 64 < vala.size_ ∧ Divides vala valb

instance (i : DivideOp) (vala valb : VvpVector4) : Decidable (i.Long vala valb) :=
  inferInstanceAs (Decidable (_ ∧ _ ∧ _))

/- A long quotient has every word guessed well enough. -/
def Guessed (i : DivideOp) (vala valb : VvpVector4) : Prop :=
  i.Long vala valb →
    LongDivision.Guessed 64 (wordsFor vala.size_)
      (vala.magnitude i.signed) (valb.magnitude i.signed)

instance (i : DivideOp) (vala valb : VvpVector4) : Decidable (i.Guessed vala valb) :=
  inferInstanceAs (Decidable (_ → _))

end DivideOp

----
-- Encodings
----

variable {wid : Nat} {vala valb : VvpVector4}

theorem number_of_encodes {v : VvpVector4} {n : Int} (h : v.Encodes wid n) :
    (v.number : Int) = n % 2 ^ wid := by
  have hPos : (0 : Int) < 2 ^ wid := by exact_mod_cast Nat.two_pow_pos wid
  have hNonneg := Int.emod_nonneg n (ne_of_gt hPos)
  have hLess : (n % 2 ^ wid).toNat < 2 ^ wid := by
    have hCast : ((2 ^ wid : Nat) : Int) = 2 ^ wid := by norm_cast
    omega
  have hSame : v.number = (n % 2 ^ wid).toNat := by
    apply Nat.eq_of_testBit_eq
    intro idx
    rw [testBit_number]
    by_cases hIdx : idx < wid
    · rw [h.2 idx hIdx]
      cases (n % 2 ^ wid).toNat.testBit idx <;> rfl
    · have hPow := Nat.pow_le_pow_right (by decide : 0 < 2) (Nat.not_lt.mp hIdx)
      have hPast : v.value idx = .x := by
        exact if_pos (by rw [h.1]; exact Nat.not_lt.mp hIdx)
      rw [hPast, Nat.testBit_lt_two_pow (Nat.lt_of_lt_of_le hLess hPow)]
      rfl
  rw [hSame, Int.toNat_of_nonneg hNonneg]

/- The bits that are divided are those of the magnitude. -/
theorem readBits_magnitude {v : VvpVector4} (hPos : 0 < v.size_) (signed : Bool) :
    toNat (readBits v (v.negative signed)) = v.magnitude signed := by
  rw [(readBits_spec v _).2]
  unfold magnitude
  split_ifs with hNeg
  · have hHigh := negative_number_pos hPos hNeg
    have hPow := Nat.two_pow_pos (v.size_ - 1)
    have hLt := v.number_lt
    exact Nat.mod_eq_of_lt (by omega)
  · rfl

----
-- Remainders
----

/- The wide modulus, for either instruction. -/
theorem doVerylongMod_right
    (hPos : 0 < vala.size_) (hSize : valb.size_ = vala.size_) (signed : Bool) :
    let out := doVerylongMod vala valb (vala.negative signed)
      (valb.negative signed)
    (DivideOp.Divides vala valb →
      out.Encodes vala.size_ (Int.tmod (vala.integer signed) (valb.integer signed))) ∧
    (¬ DivideOp.Divides vala valb → out.AllX vala.size_) := by
  intro out
  have hA := readBits_magnitude hPos signed
  have hB := @readBits_magnitude valb (by omega) signed
  have hZero := @magnitude_eq_zero_iff valb signed
  rcases doVerylongMod_spec hSize (vala.negative signed) (valb.negative signed) with ⟨hBad, hGood⟩
  rw [hB] at hBad hGood
  rw [hA] at hGood
  constructor
  · rintro ⟨hDefA, hDefB, hNonzero⟩
    rw [integer_eq, integer_eq, tmod_signs]
    exact hGood hDefA hDefB (Nat.pos_of_ne_zero (mt hZero.mp hNonzero))
  · intro hNot
    apply hBad
    by_cases hDefined : vala.Defined ∧ valb.Defined
    · right
      rw [hZero]
      by_contra hNonzero
      exact hNot ⟨hDefined.1, hDefined.2, hNonzero⟩
    · exact Or.inl hDefined

/- An instruction on words that are read from the operands. -/
theorem nativeMod_right {op : DivideOp} (hNative : vala.size_ ≤ 64)
    (hSize : valb.size_ = vala.size_) {modulus : BitVec 64 → BitVec 64 → VvpVector4}
    (hWord : ∀ lv rv, lv.toNat = vala.number →
      rv.toNat = valb.number →
      (modulus lv rv).Encodes vala.size_ (op.value
        (vala.integer op.signed) (valb.integer op.signed))) :
    ∃ out,
      (match readWord vala, readWord valb with
      | some lv, some rv =>
        if rv = 0#64 then some (fill vala.size_ .x)
        else some (modulus lv rv)
      | _, _ => some (fill vala.size_ .x)) = some out ∧
      op.Right vala valb out := by
  by_cases hDefined : vala.Defined ∧ valb.Defined
  · rcases readWord_defined hNative hDefined.1 with ⟨lv, hLv, hA⟩
    rcases readWord_defined (by omega) hDefined.2 with ⟨rv, hRv, hB⟩
    have hZero : rv = 0#64 ↔ valb.number = 0 := by rw [← hB, ← BitVec.toNat_inj, BitVec.toNat_zero]
    rw [hLv, hRv]
    dsimp only
    by_cases hNone : rv = 0#64
    · rw [if_pos hNone]
      refine ⟨_, rfl, ?_, fun _ => fill_allX _⟩
      exact fun h => absurd (hZero.mp hNone) h.2.2
    · rw [if_neg hNone]
      refine ⟨_, rfl, fun _ => hWord lv rv hA hB, ?_⟩
      exact fun h => absurd ⟨hDefined.1, hDefined.2, mt hZero.mpr hNone⟩ h
  · refine ⟨fill vala.size_ .x, ?_, ?_, fun _ => fill_allX _⟩
    · rcases not_and_or.mp hDefined with hBad | hBad
      · rw [readWord_undefined hBad]
      · rw [readWord_undefined hBad]
        cases readWord vala <;> rfl
    · exact fun h => absurd ⟨h.1, h.2.1⟩ hDefined

theorem ofMOD_right (hPos : 0 < vala.size_) (hSize : valb.size_ = vala.size_) :
    ∃ out, ofMOD vala valb = some out ∧
      DivideOp.mod.Right vala valb out := by
  unfold ofMOD
  rw [if_neg (not_not_intro hSize.symm)]
  by_cases hNative : vala.size_ ≤ 64
  · rw [if_pos hNative]
    exact nativeMod_right hNative hSize fun lv rv hA hB => modWord_right hNative hA hB
  · rw [if_neg hNative]
    rcases doVerylongMod_right hPos hSize false with ⟨hGood, hBad⟩
    exact ⟨_, rfl, hGood, hBad⟩

theorem ofMODS_right (hPos : 0 < vala.size_) (hSize : valb.size_ = vala.size_) :
    ∃ out, ofMODS vala valb = some out ∧
      DivideOp.modS.Right vala valb out := by
  unfold ofMODS
  rw [if_neg (not_not_intro hSize.symm)]
  by_cases hNative : vala.size_ ≤ 64
  · rw [if_pos hNative]
    have hRight := @nativeMod_right _ _ .modS hNative hSize _
      fun lv rv hA hB => modNative_right hPos hNative hSize hA hB
    simp only [apply_ite some] at hRight
    exact hRight
  · rw [if_neg hNative]
    rcases doVerylongMod_right hPos hSize true with ⟨hGood, hBad⟩
    exact ⟨_, rfl, hGood, hBad⟩

----
-- Quotients
----

/- A wrong word of the quotient is within the width. -/
theorem quotient_iff {ap bp result : List (BitVec 64)} {wid : Nat}
    (hAp : ap.length = wordsFor wid) (hPos : 0 < toNat bp) (hRight :
      LongDivision.Guessed 64 ap.length (toNat ap) (toNat bp) → toNat result = toNat ap / toNat bp)
    (hWrong :
      ¬ LongDivision.Guessed 64 ap.length (toNat ap) (toNat bp) →
        ∃ p < ap.length - LongDivision.topPlace 64 (toNat bp),
          (wordAt result p).toNat ≠ toNat ap / toNat bp / 2 ^ (64 * p) % 2 ^ 64) :
    toNat result ≡ toNat ap / toNat bp [MOD 2 ^ wid] ↔
      LongDivision.Guessed 64 ap.length (toNat ap) (toNat bp) := by
  constructor
  · intro hMod
    by_contra hNot
    rcases hWrong hNot with ⟨p, hP, hWord⟩
    have hLong : LongDivision.topPlace 64 (toNat bp) ≠ 0 := by
      intro hZero
      have hBelow := (LongDivision.topPlace_bounds (w := 64) (by decide) hPos).2
      rw [hZero] at hBelow
      exact hNot (LongDivision.guessed_of_small hPos hBelow (toNat_lt ap))
    have hBounds := wordsFor_bounds wid
    have hInside : 64 * (p + 1) ≤ wid := by omega
    have hLow : toNat result ≡ toNat ap / toNat bp [MOD 2 ^ (64 * (p + 1))] :=
      Nat.ModEq.of_dvd (Nat.pow_dvd_pow 2 hInside) hMod
    have hDigit : ∀ x : Nat, x / 2 ^ (64 * p) % 2 ^ 64 = x % 2 ^ (64 * (p + 1)) / 2 ^ (64 * p) := by
      intro x
      rw [Nat.mul_succ, pow_add, Nat.mod_mul_right_div_self]
    apply hWord
    have hRead := getD_toNat result p
    change (wordAt result p).toNat = _ at hRead
    rw [hRead, hDigit, hDigit, hLow]
  · intro hGuessed
    rw [hRight hGuessed]

/- A quotient whose sign is put back. -/
theorem signed_quotient_iff {wid r q : Nat} (negate : Bool) :
    (if negate then -(r : Int) else r) ≡ (if negate then -(q : Int) else q) [ZMOD 2 ^ wid] ↔
      r ≡ q [MOD 2 ^ wid] := by
  have hCast : (r : Int) ≡ q [ZMOD 2 ^ wid] ↔
      r ≡ q [MOD 2 ^ wid] := by
    rw [← Int.natCast_modEq_iff]
    rfl
  cases negate with
  | false => exact hCast
  | true =>
    rw [← hCast]
    simp

/- For operands that are numbers, the words are divided. -/
theorem ofDIV_of_defined (hSize : valb.size_ = vala.size_)
    (hDefined : vala.Defined ∧ valb.Defined) :
    ofDIV vala valb =
      if vala.size_ ≤ 64 then
        if wordAt (VvpVector2.subarray valb) 0 = 0#64 then
          some (fill vala.size_ .x)
        else
          some (vala.setArray ((VvpVector2.subarray vala).set 0
            (wordAt (VvpVector2.subarray vala) 0 / wordAt (VvpVector2.subarray valb) 0)))
      else
        (divideBits (VvpVector2.subarray vala) (VvpVector2.subarray valb) vala.size_).map fun
          | none => fill vala.size_ .x
          | some (_, result) => vala.setArray result := by
  unfold ofDIV
  rw [if_neg (not_not_intro hSize.symm)]
  rewrite [subarray_defined hDefined.1, subarray_defined hDefined.2]
  rfl

theorem ofDIVS_of_defined (hSize : valb.size_ = vala.size_)
    (hDefined : vala.Defined ∧ valb.Defined) :
    ofDIVS vala valb =
      if vala.size_ ≤ 64 then
        some (divideNative vala
          (signExtendWords vala.size_ (VvpVector2.subarray vala))
          (signExtendWords vala.size_ (VvpVector2.subarray valb)))
      else
        divideWide vala
          (signExtendWords vala.size_ (VvpVector2.subarray vala))
          (signExtendWords vala.size_ (VvpVector2.subarray valb)) := by
  unfold ofDIVS
  rw [if_neg (not_not_intro hSize.symm)]
  rw [subarray_defined hDefined.1, subarray_defined hDefined.2]

/- One X or Z bit makes the quotients all X. -/
theorem quotients_of_undefined (hSize : valb.size_ = vala.size_)
    (hDefined : ¬ (vala.Defined ∧ valb.Defined)) :
    ofDIV vala valb = some (fill vala.size_ .x) ∧
      ofDIVS vala valb = some (fill vala.size_ .x) := by
  unfold ofDIV ofDIVS
  rw [if_neg (not_not_intro hSize.symm), if_neg (not_not_intro hSize.symm)]
  by_cases hDefA : vala.Defined
  · rw [subarray_defined hDefA, subarray_undefined (fun hDefB => hDefined ⟨hDefA, hDefB⟩)]
    exact ⟨rfl, rfl⟩
  · rw [subarray_undefined hDefA]
    exact ⟨rfl, rfl⟩

/- The wide unsigned quotient. -/
theorem ofDIV_wide (hWide : 64 < vala.size_) (hSize : valb.size_ = vala.size_)
    (h : DivideOp.Divides vala valb) :
    ∃ out m, ofDIV vala valb = some out ∧
      out.Encodes vala.size_ m ∧
      (m ≡ Int.tdiv (vala.integer false) (valb.integer false) [ZMOD 2 ^ vala.size_] ↔
        LongDivision.Guessed 64 (wordsFor vala.size_)
          (vala.magnitude false) (valb.magnitude false)) := by
  rcases h with ⟨hDefA, hDefB, hNonzero⟩
  have hLengthA := length_subarray vala
  have hLengthB := length_subarray valb
  rw [hSize] at hLengthB
  have hPos : 0 < toNat (VvpVector2.subarray valb) := by
    rw [toNat_subarray]
    exact Nat.pos_of_ne_zero hNonzero
  rcases (@divideBits_spec _ _ vala.size_ (by omega) hLengthA hLengthB).2 hPos with
    ⟨ap', result, hRun, -, -, hRight, hWrong⟩
  have hIff := @quotient_iff _ _ result vala.size_ hLengthA hPos
    (fun hGuessed => (hRight hGuessed).2) hWrong
  rw [toNat_subarray, toNat_subarray, hLengthA] at hIff
  refine ⟨vala.setArray result, toNat result, ?_, setArray_encodes (Int.ModEq.refl _), ?_⟩
  · rw [ofDIV_of_defined hSize ⟨hDefA, hDefB⟩, if_neg (by omega), hRun]
    rfl
  · have hPlain := @signed_quotient_iff vala.size_ (toNat result) (vala.number / valb.number) false
    exact hPlain.trans hIff

/- The sign is put back, and the bits above are cleared. -/
theorem divideWide_of_divideBits
    {ap bp ap' result : List (BitVec 64)} {a b : List (BitVec 64) × Bool}
    (hA : positiveWords (wordsFor vala.size_) ap = a)
    (hB : positiveWords (wordsFor vala.size_) bp = b)
    (hRun : divideBits a.1 b.1 vala.size_ = some (some (ap', result))) :
    let res := if a.2 ^^ b.2 then negateWords result else result
    divideWide vala ap bp =
      some (vala.setArray (res.set (wordsFor vala.size_ - 1)
        (wordAt res (wordsFor vala.size_ - 1) &&& ~~~signMask vala.size_))) := by
  intro res
  subst hA hB
  change (divideBits (positiveWords (wordsFor vala.size_) ap).1
    (positiveWords (wordsFor vala.size_) bp).1
    vala.size_).map _ = _
  rw [hRun]
  rfl

/- The wide signed quotient. -/
theorem ofDIVS_wide (hWide : 64 < vala.size_) (hSize : valb.size_ = vala.size_)
    (h : DivideOp.Divides vala valb) :
    ∃ out m, ofDIVS vala valb = some out ∧
      out.Encodes vala.size_ m ∧
      (m ≡ Int.tdiv (vala.integer true) (valb.integer true) [ZMOD 2 ^ vala.size_] ↔
        LongDivision.Guessed 64 (wordsFor vala.size_)
          (vala.magnitude true) (valb.magnitude true)) := by
  rcases h with ⟨hDefA, hDefB, hNonzero⟩
  have hPos : 0 < vala.size_ := by omega
  have hA := positive_signExtended hPos
  have hB := @positive_signExtended valb (by omega)
  rw [hSize] at hB
  rw [ofDIVS_of_defined hSize ⟨hDefA, hDefB⟩, if_neg (by omega)]
  generalize hRunA : positiveWords (wordsFor vala.size_)
    (signExtendWords vala.size_ (VvpVector2.subarray vala)) = a at *
  generalize hRunB : positiveWords (wordsFor vala.size_)
    (signExtendWords vala.size_ (VvpVector2.subarray valb)) = b at *
  rcases hA with ⟨hLengthA, hNumberA, hSignA⟩
  rcases hB with ⟨hLengthB, hNumberB, hSignB⟩
  have hMagnitude : 0 < toNat b.1 := by
    rw [hNumberB]
    exact Nat.pos_of_ne_zero (mt magnitude_eq_zero_iff.mp hNonzero)
  rcases (divideBits_spec hPos hLengthA hLengthB).2 hMagnitude with
    ⟨ap', result, hRun, -, hResult, hRight, hWrong⟩
  have hIff := @quotient_iff _ _ result vala.size_ hLengthA
    hMagnitude (fun hGuessed => (hRight hGuessed).2) hWrong
  rw [hNumberA, hNumberB, hLengthA] at hIff
  refine ⟨_, if vala.topSet != valb.topSet then
    -(toNat result : Int) else toNat result,
    divideWide_of_divideBits hRunA hRunB hRun, ?_, ?_⟩
  · apply setArray_encodes
    have hMask := masked_modEq hPos (if a.2 ^^ b.2 then negateWords result else result)
    have hCast := Int.natCast_modEq_iff.mpr hMask
    refine Int.ModEq.trans hCast ?_
    have hXor : (a.2 ^^ b.2) = (vala.topSet != valb.topSet) := by rw [hSignA, hSignB]
    rw [hXor]
    split_ifs
    · have hNegate := (negateWords_spec result).2
      have hLt := toNat_lt result
      rw [hResult, hLengthA] at hNegate hLt
      rw [hNegate]
      exact Int.ModEq.of_dvd
        (pow_dvd_pow 2 (wordsFor_bounds vala.size_).1)
        (neg_modEq (Nat.le_of_lt hLt))
    · rfl
  · rw [integer_eq, integer_eq, tdiv_signs]
    exact (signed_quotient_iff _).trans hIff

/- A quotient of many words by zero is all X. -/
theorem wide_of_zero (hWide : 64 < vala.size_) (hSize : valb.size_ = vala.size_)
    (hDefined : vala.Defined ∧ valb.Defined) (hZero : valb.number = 0) :
    ofDIV vala valb = some (fill vala.size_ .x) ∧
      ofDIVS vala valb = some (fill vala.size_ .x) := by
  have hPos : 0 < vala.size_ := by omega
  have hLengthA := length_subarray vala
  have hLengthB := length_subarray valb
  rw [hSize] at hLengthB
  have hA := positive_signExtended hPos
  have hB := @positive_signExtended valb (by omega)
  rw [hSize] at hB
  have hPlain := (divideBits_spec hPos hLengthA hLengthB).1 ((toNat_subarray valb).trans hZero)
  have hSigned := (divideBits_spec hPos hA.1 hB.1).1
    (hB.2.1.trans (magnitude_eq_zero_iff.mpr hZero))
  rw [ofDIV_of_defined hSize hDefined, ofDIVS_of_defined hSize hDefined,
    if_neg (by omega), if_neg (by omega), hPlain]
  refine ⟨rfl, ?_⟩
  exact congrArg (Option.map _) hSigned

/- A quotient is right exactly if no guess goes wrong. -/
theorem quotients_right (hPos : 0 < vala.size_) (hSize : valb.size_ = vala.size_) :
    (∃ out, ofDIV vala valb = some out ∧
      (DivideOp.div.Right vala valb out ↔ DivideOp.div.Guessed vala valb)) ∧
    ∃ out, ofDIVS vala valb = some out ∧
      (DivideOp.divS.Right vala valb out ↔
        DivideOp.divS.Guessed vala valb) := by
  -- where all bits are X, nothing is guessed
  have hNone : ¬ DivideOp.Divides vala valb →
      ofDIV vala valb = some (fill vala.size_ .x) ∧ ofDIVS vala valb = some (fill vala.size_ .x) →
      (∃ out, ofDIV vala valb = some out ∧
        (DivideOp.div.Right vala valb out ↔ DivideOp.div.Guessed vala valb)) ∧
      ∃ out, ofDIVS vala valb = some out ∧
        (DivideOp.divS.Right vala valb out ↔
          DivideOp.divS.Guessed vala valb) := by
    rintro hNot ⟨hDiv, hDivS⟩
    exact ⟨⟨_, hDiv, iff_of_true
        ⟨fun h => absurd h hNot, fun _ => fill_allX _⟩
        (fun h => absurd h.2.2 hNot)⟩,
      ⟨_, hDivS, iff_of_true
        ⟨fun h => absurd h hNot, fun _ => fill_allX _⟩
        (fun h => absurd h.2.2 hNot)⟩⟩
  by_cases hDefined : vala.Defined ∧ valb.Defined
  · by_cases hWide : 64 < vala.size_
    · by_cases hNonzero : valb.number ≠ 0
      · have hDivides : DivideOp.Divides vala valb :=
          ⟨hDefined.1, hDefined.2, hNonzero⟩
        rcases ofDIV_wide hWide hSize hDivides with ⟨out, m, hRun, hEncodes, hIff⟩
        rcases ofDIVS_wide hWide hSize hDivides with ⟨outS, mS, hRunS, hEncodesS, hIffS⟩
        rw [← encodes_iff hEncodes] at hIff
        rw [← encodes_iff hEncodesS] at hIffS
        refine ⟨⟨out, hRun, ?_⟩, ⟨outS, hRunS, ?_⟩⟩
        · constructor
          · intro hRight _
            exact hIff.mp (hRight.encodes hDivides)
          · intro hGuessed
            exact ⟨fun _ => hIff.mpr (hGuessed ⟨Or.inl rfl, hWide, hDivides⟩),
                fun hNot => absurd hDivides hNot⟩
        · constructor
          · intro hRight _
            exact hIffS.mp (hRight.encodes hDivides)
          · intro hGuessed
            exact ⟨fun _ => hIffS.mpr (hGuessed ⟨Or.inr rfl, hWide, hDivides⟩),
                fun hNot => absurd hDivides hNot⟩
      · exact hNone (fun h => hNonzero h.2.2)
          (wide_of_zero hWide hSize hDefined (not_not.mp hNonzero))
    · have hNative : vala.size_ ≤ 64 := Nat.not_lt.mp hWide
      rcases divideWord_right hPos hNative hSize with ⟨hZero, hEncodes⟩
      rcases divideNative_right hPos hNative hSize with ⟨hAllX, hEncodesS⟩
      rw [ofDIV_of_defined hSize hDefined, ofDIVS_of_defined hSize hDefined,
        if_pos hNative, if_pos hNative]
      constructor
      · by_cases hWord : wordAt (VvpVector2.subarray valb) 0 = 0#64
        · rw [if_pos hWord]
          exact ⟨_, rfl, iff_of_true
            ⟨fun h => absurd (hZero.mp hWord) h.2.2, fun _ => fill_allX _⟩
            (fun h => absurd h.2.1 hWide)⟩
        · rw [if_neg hWord]
          exact ⟨_, rfl, iff_of_true
            ⟨fun _ => hEncodes, fun hNot => absurd
              ⟨hDefined.1, hDefined.2, mt hZero.mpr hWord⟩ hNot⟩
            (fun h => absurd h.2.1 hWide)⟩
      · refine ⟨_, rfl, iff_of_true ⟨fun h => hEncodesS h.2.2, ?_⟩ (fun h => absurd h.2.1 hWide)⟩
        intro hNot
        apply hAllX
        by_contra hNonzero
        exact hNot ⟨hDefined.1, hDefined.2, hNonzero⟩
  · exact hNone (fun h => hDefined ⟨h.1, h.2.1⟩) (quotients_of_undefined hSize hDefined)

----
-- All Instructions
----

theorem DivideOp.run_right (i : DivideOp) {vala valb : VvpVector4} (hPos : 0 < vala.size_)
    (hSize : valb.size_ = vala.size_) :
    ∃ out, i.run vala valb = some out ∧
      (i.Right vala valb out ↔ i.Guessed vala valb) := by
  cases i with
  | div => exact (quotients_right hPos hSize).1
  | divS => exact (quotients_right hPos hSize).2
  | mod =>
    rcases ofMOD_right hPos hSize with ⟨out, hRun, hRight⟩
    refine ⟨out, hRun, iff_of_true hRight ?_⟩
    rintro ⟨hQuotient | hQuotient, -⟩
    · cases hQuotient
    · cases hQuotient
  | modS =>
    rcases ofMODS_right hPos hSize with ⟨out, hRun, hRight⟩
    refine ⟨out, hRun, iff_of_true hRight ?_⟩
    rintro ⟨hQuotient | hQuotient, -⟩
    · cases hQuotient
    · cases hQuotient

/- Quotient and remainder make up the dividend. -/
theorem divideBits_sum {ap bp : List (BitVec 64)} (hWid : 0 < wid) (hAp : ap.length = wordsFor wid)
    (hBp : bp.length = wordsFor wid) (hPos : 0 < toNat bp) :
    ∃ ap' result,
      divideBits ap bp wid = some (some (ap', result)) ∧
      (toNat ap = toNat bp * toNat result + toNat ap' ∧ toNat ap' < toNat bp ↔
        LongDivision.Guessed 64 (wordsFor wid) (toNat ap) (toNat bp)) := by
  rcases (divideBits_spec hWid hAp hBp).2 hPos with ⟨ap', result, hRun, -, -, hRight, hWrong⟩
  rw [hAp] at hRight hWrong
  refine ⟨ap', result, hRun, ?_⟩
  constructor
  · rintro ⟨hSum, hLess⟩
    by_contra hNot
    rcases hWrong hNot with ⟨p, -, hWord⟩
    have hQuotient : toNat ap / toNat bp = toNat result := by
      rw [hSum, Nat.mul_add_div hPos, Nat.div_eq_of_lt hLess, Nat.add_zero]
    rw [hQuotient] at hWord
    exact hWord (getD_toNat result p)
  · intro hGuessed
    rcases hRight hGuessed with ⟨hRem, hQuotient⟩
    rw [hRem, hQuotient]
    exact ⟨(Nat.div_add_mod _ _).symm, Nat.mod_lt _ hPos⟩

/- The bits of a quotient are those of its number. -/
theorem ofDIV_number {vala valb out : VvpVector4} (hPos : 0 < vala.size_)
    (hSize : valb.size_ = vala.size_) (hDivides : DivideOp.Divides vala valb)
    (hRun : ofDIV vala valb = some out) : out.Encodes vala.size_ out.number := by
  have hSome : ∃ m, out.Encodes vala.size_ m := by
    by_cases hWide : 64 < vala.size_
    · rcases ofDIV_wide hWide hSize hDivides with ⟨out', m, hRun', hEncodes, -⟩
      grind
    · rcases (quotients_right hPos hSize).1 with ⟨out', hRun', hIff⟩
      rw [hRun] at hRun'
      injection hRun' with hSame
      rw [hSame]
      exact ⟨_, (hIff.mpr (fun h => absurd h.2.1 hWide)).encodes hDivides⟩
  rcases hSome with ⟨m, hEncodes⟩
  rw [encodes_iff hEncodes, number_of_encodes hEncodes]
  exact (Int.mod_modEq _ _).symm

/- The unsigned instructions agree where the quotient is right. -/
theorem quotient_remainder (hPos : 0 < vala.size_) (hSize : valb.size_ = vala.size_)
    (hDivides : DivideOp.Divides vala valb) :
    ∃ q r, ofDIV vala valb = some q ∧
      ofMOD vala valb = some r ∧
      (vala.number = q.number * valb.number + r.number ↔
        DivideOp.div.Guessed vala valb) := by
  rcases (quotients_right hPos hSize).1 with ⟨q, hDiv, hQ⟩
  rcases ofMOD_right hPos hSize with ⟨r, hMod, hR⟩
  refine ⟨q, r, hDiv, hMod, ?_⟩
  have hLt := vala.number_lt
  have hNonzero := Nat.pos_of_ne_zero hDivides.2.2
  have hSum := Nat.div_add_mod vala.number valb.number
  have hInts :
      DivideOp.div.value (vala.integer false) (valb.integer false) =
        ((vala.number / valb.number : Nat) : Int) ∧
      DivideOp.mod.value (vala.integer false) (valb.integer false) =
        ((vala.number % valb.number : Nat) : Int) := by
    exact ⟨(Int.ofNat_tdiv _ _).symm, (Int.ofNat_tmod _ _).symm⟩
  have hSmall : ∀ n : Nat, n ≤ vala.number →
      (n : Int) % 2 ^ vala.size_ = n := by
    intro n hn
    rw [Int.emod_eq_of_lt (by omega)]
    exact_mod_cast Nat.lt_of_le_of_lt hn hLt
  have hRem : r.number = vala.number % valb.number := by
    have hNumber := number_of_encodes (hR.encodes hDivides)
    change (r.number : Int) = DivideOp.mod.value
      (vala.integer false) (valb.integer false) % _ at hNumber
    rw [hInts.2, hSmall _ (Nat.mod_le _ _)] at hNumber
    exact_mod_cast hNumber
  have hExact : DivideOp.div.Guessed vala valb ↔
      q.number = vala.number / valb.number := by
    rw [← hQ]
    constructor
    · intro hRight
      have hNumber := number_of_encodes (hRight.encodes hDivides)
      change (q.number : Int) = DivideOp.div.value
        (vala.integer false) (valb.integer false) % _ at hNumber
      rw [hInts.1, hSmall _ (Nat.div_le_self _ _)] at hNumber
      exact_mod_cast hNumber
    · intro hNumber
      refine ⟨fun _ => ?_, fun hNot => absurd hDivides hNot⟩
      change q.Encodes vala.size_ (DivideOp.div.value (vala.integer false) (valb.integer false))
      rw [hInts.1, ← hNumber]
      exact ofDIV_number hPos hSize hDivides hDiv
  rw [hExact, hRem]
  constructor
  · intro hTotal
    have hSame : q.number * valb.number = vala.number / valb.number * valb.number := by
      rw [Nat.mul_comm (vala.number / valb.number)]
      omega
    exact Nat.eq_of_mul_eq_mul_right hNonzero hSame
  · grind

/-
  The dividing instructions, for operands of any width.  They
  always leave a result, which is right exactly if no guess
  of a long quotient goes wrong; so is the sum of the product
  and the remainder, for the words and for the instructions.
-/
theorem division_exact (i : DivideOp) {wid : Nat} (hWid : 0 < wid)
    {vala valb : VvpVector4} (hA : vala.size_ = wid) (hB : valb.size_ = wid) :
    (∃ out, i.run vala valb = some out ∧ (i.Right vala valb out ↔ i.Guessed vala valb)) ∧
    (∀ ap bp : List (BitVec 64),
      ap.length = wordsFor wid →
      bp.length = wordsFor wid →
      0 < toNat bp →
        ∃ ap' result,
          divideBits ap bp wid = some (some (ap', result)) ∧
          (toNat ap = toNat bp * toNat result + toNat ap' ∧ toNat ap' < toNat bp ↔
            LongDivision.Guessed 64 (wordsFor wid) (toNat ap) (toNat bp))) ∧
    (DivideOp.Divides vala valb →
      ∃ q r, ofDIV vala valb = some q ∧
        ofMOD vala valb = some r ∧
        (vala.number = q.number * valb.number + r.number ↔
          DivideOp.div.Guessed vala valb)) := by
  have hPos : 0 < vala.size_ := by omega
  have hSize : valb.size_ = vala.size_ := by omega
  refine ⟨i.run_right hPos hSize, ?_, quotient_remainder hPos hSize⟩
  intro ap bp hAp hBp hDivisor
  exact divideBits_sum hWid hAp hBp hDivisor

/- Two words divided by one, with the signs of both. -/
theorem division_exact_signed :
    ∃ out,
      ofDIVS
        ((VvpVector4.fill 128 .zero).setArray [5#64, allOnes 64])
        ((VvpVector4.fill 128 .zero).setArray [2#64, 0#64]) = some out ∧
      out.Encodes 128 (-(2 ^ 63 - 3)) := by
  rcases (@division_exact .divS 128 (by decide)
      ((VvpVector4.fill 128 .zero).setArray [5#64, allOnes 64])
      ((VvpVector4.fill 128 .zero).setArray [2#64, 0#64]) rfl rfl).1 with ⟨out, hRun, hIff⟩
  refine ⟨out, hRun, ?_⟩
  have hRight := (hIff.mpr (by decide +kernel)).encodes (by decide +kernel)
  have hQuotient :
      DivideOp.divS.value
        (((VvpVector4.fill 128 .zero).setArray [5#64, allOnes 64]).integer true)
        (((VvpVector4.fill 128 .zero).setArray [2#64, 0#64]).integer true) = -(2 ^ 63 - 3) := by
    decide +kernel
  change out.Encodes 128 (DivideOp.divS.value
    (((VvpVector4.fill 128 .zero).setArray [5#64, allOnes 64]).integer true)
    (((VvpVector4.fill 128 .zero).setArray [2#64, 0#64]).integer true)) at hRight
  rwa [hQuotient] at hRight

/-
  The trial product of this quotient of two words is cut, so
  nothing is borrowed, and all ones are left.
-/
theorem quotient_overestimated :
    ¬ ∀ (i : DivideOp) (wid : Nat) (vala valb : VvpVector4),
      0 < wid → vala.size_ = wid → valb.size_ = wid →
        ∃ out, i.run vala valb = some out ∧
          i.Right vala valb out := by
  intro h
  rcases h .div 128
      ((VvpVector4.fill 128 .zero).setArray [0#64, allOnes 64])
      ((VvpVector4.fill 128 .zero).setArray [allOnes 64, 1#64]) (by decide) rfl rfl with
    ⟨out, hRun, hRight⟩
  rcases @DivideOp.run_right .div
      ((VvpVector4.fill 128 .zero).setArray [0#64, allOnes 64])
      ((VvpVector4.fill 128 .zero).setArray [allOnes 64, 1#64]) (by decide) rfl with
    ⟨out', hRun', hIff⟩
  rw [hRun] at hRun'
  injection hRun' with hSame
  rw [hSame] at hRight
  have hGuessed := hIff.mp hRight
  revert hGuessed
  decide +kernel

end EpicSim
