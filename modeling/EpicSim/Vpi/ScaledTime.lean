import EpicSim.Vpi.VectorVal
import EpicSim.Lib.TwosComplement

/-
  A queue statistic is a time of the simulation.  It is scaled
  to the unit of the calling module and stored in a variable,
  or the largest value of the variable in its place.
-/

namespace EpicSim

----
-- Storing A Time
----

def IVL_QUEUE_OK : Int := 0

def IVL_QUEUE_VALUE_OVERFLOWED : Int := 9

/- The scale after some turns of the loop over the units. -/
def scaleLoop : Nat → Nat → Nat
| 0, scale => scale
| units + 1, scale => scaleLoop units (scale * 10 % 2 ^ 64)

/- The scale between a module's unit and the precision. -/
def scaleFor (units prec : Int) : Nat :=
  scaleLoop (units - prec).toNat 1

/- The time in units of the module. -/
def scaledTime (scale c_time : Nat) : Nat :=
  let frac := c_time % scale
  let c_time := c_time / scale
  if 1 < scale ∧ scale / 2 ≤ frac then (c_time + 1) % 2 ^ 64
  else c_time

/- The words for a value that overflowed. -/
def overflowWords (size words : Nat) (is_signed : Bool) : Option (List VpiVecval) :=
  if words = 1 then
    some [⟨if is_signed then 0x7fffffff#32 else 0xffffffff#32, 0#32⟩]
  else if words = 2 then
    some [⟨0xffffffff#32, 0#32⟩,
      ⟨if is_signed then
          ~~~(0xffffffff#32 >>> (size - 32))
        else 0xffffffff#32, 0#32⟩]
  else none

/- The words for a value that fits. -/
def timeWords (words c_time : Nat) : List VpiVecval :=
  let val_ptr := List.replicate words (⟨0#32, 0#32⟩ : VpiVecval)
  let val_ptr :=
    if words = 1 then val_ptr
    else val_ptr.set 1 ⟨BitVec.ofNat 32 (c_time / 2 ^ 32), 0#32⟩
  val_ptr.set 0 ⟨BitVec.ofNat 32 c_time, 0#32⟩

/-
  `fill_variable_with_scaled_time`: the words that are put to
  the variable, and the status; nothing where an assertion
  fails.
-/
def fillVariableWithScaledTime (size : Nat) (is_signed : Bool) (units prec : Int)
    (c_time : Nat) : Option (List VpiVecval × Int) :=
  let words := (size - 1) / 32 + 1
  if size < 32 then none
  else if units < prec then none
  else
    let c_time := scaledTime (scaleFor units prec) c_time
    let max_val := if size < 64 then 2 ^ (size - is_signed.toNat) else 0
    if max_val ≠ 0 ∧ max_val ≤ c_time then
      (overflowWords size words is_signed).map fun val_ptr => (val_ptr, IVL_QUEUE_VALUE_OVERFLOWED)
    else some (timeWords words c_time, IVL_QUEUE_OK)

----
-- Saturation
----

/- The nearest integer to a time over its scale, rounded up in
   the middle. -/
def roundedTime (scale c_time : Nat) : Nat :=
  (2 * c_time + scale) / (2 * scale)

/- The largest value of a variable. -/
def maxValue (size : Nat) (is_signed : Bool) : Int :=
  if is_signed then 2 ^ (size - 1) - 1 else 2 ^ size - 1

/- A variable has an integer, after words are put to it. -/
def Holds (size : Nat) (is_signed : Bool) (vector : List VpiVecval) (n : Int) : Prop :=
  (∀ bit ∈ vec4FromVectorVal vector size, bit = .zero ∨ bit = .one) ∧
  TwosComplement.value is_signed size (fun idx => vectorBit vector idx == .one) = n

/- The time is stored if it fits, and else the largest value;
   the status says which. -/
def Saturates (size : Nat) (is_signed : Bool) (units prec : Int) (c_time : Nat) : Prop :=
  let time := roundedTime (10 ^ (units - prec).toNat) c_time
  ∃ vector rtn,
    fillVariableWithScaledTime size is_signed units prec c_time = some (vector, rtn) ∧
    if time ≤ maxValue size is_signed then
      rtn = IVL_QUEUE_OK ∧ Holds size is_signed vector time
    else
      rtn = IVL_QUEUE_VALUE_OVERFLOWED ∧ Holds size is_signed vector (maxValue size is_signed)

----
-- Scaling
----

theorem scaleLoop_eq (units scale : Nat) (hFits : scale * 10 ^ units < 2 ^ 64) :
    scaleLoop units scale = scale * 10 ^ units := by
  induction units generalizing scale with
  | zero => simp [scaleLoop]
  | succ units ih =>
    have hSplit : scale * 10 ^ (units + 1) = scale * 10 * 10 ^ units := by
      ring
    rw [hSplit] at hFits ⊢
    have hSmall : scale * 10 < 2 ^ 64 :=
      Nat.lt_of_le_of_lt (Nat.le_mul_of_pos_right _ (Nat.pow_pos (by decide))) hFits
    rw [scaleLoop, Nat.mod_eq_of_lt hSmall]
    exact ih _ hFits

variable {units prec : Int} {size c_time : Nat} {is_signed : Bool}

theorem scaleFor_eq (hFits : 10 ^ (units - prec).toNat < 2 ^ 64) :
    scaleFor units prec = 10 ^ (units - prec).toNat := by
  unfold scaleFor
  rw [scaleLoop_eq _ _ (by rw [Nat.one_mul]; exact hFits), Nat.one_mul]

/- A scale is one or even. -/
theorem scale_cases (exponent : Nat) :
    10 ^ exponent = 1 ∨
      ∃ half, 0 < half ∧ 10 ^ exponent = 2 * half := by
  cases exponent with
  | zero => exact Or.inl rfl
  | succ exponent =>
    refine Or.inr ⟨5 * 10 ^ exponent, Nat.mul_pos (by decide) (Nat.pow_pos (by decide)), ?_⟩
    ring

/- The time is rounded by its last part. -/
theorem scaledTime_eq {exponent c_time : Nat} (hTime : c_time < 2 ^ 64) :
    scaledTime (10 ^ exponent) c_time = roundedTime (10 ^ exponent) c_time := by
  unfold roundedTime scaledTime
  rcases scale_cases exponent with hOne | ⟨half, hPos, hTwice⟩
  · rw [hOne, if_neg (by omega)]
    omega
  · rw [hTwice]
    have hDiv := Nat.div_add_mod c_time (2 * half)
    have hMod := Nat.mod_lt c_time (y := 2 * half) (by omega)
    have hLe : c_time / (2 * half) ≤ c_time / 2 := Nat.div_le_div_left (by omega) (by decide)
    generalize c_time / (2 * half) = q at *
    generalize c_time % (2 * half) = r at *
    have hSmall : (q + 1) % 2 ^ 64 = q + 1 := by omega
    have hSplit : 2 * c_time + 2 * half = 2 * (2 * half) * q + (2 * r + 2 * half) := by
      rw [← hDiv]
      ring
    rw [hSplit, Nat.mul_add_div (by omega)]
    simp only [hSmall]
    split_ifs with hHalf
    · have hOne : (2 * r + 2 * half) / (2 * (2 * half)) = 1 :=
        Nat.div_eq_of_lt_le (by omega) (by omega)
      rw [hOne]
    · rw [Nat.div_eq_of_lt (by omega), Nat.add_zero]

theorem roundedTime_lt {exponent c_time : Nat} (hTime : c_time < 2 ^ 64) :
    roundedTime (10 ^ exponent) c_time < 2 ^ 64 := by
  unfold roundedTime
  rcases scale_cases exponent with hOne | ⟨half, hPos, hTwice⟩
  · rw [hOne]
    omega
  · apply Nat.div_lt_of_lt_mul
    omega

----
-- Words
----

/- Words with the bits of a number, in the places of the
   variable. -/
def Encodes (size : Nat) (vector : List VpiVecval) (n : Nat) : Prop :=
  ∀ idx < size, vectorBit vector idx =
    if n.testBit idx then .one else .zero

theorem bitOfVecval_false (b : Bool) : bitOfVecval b false = if b then .one else .zero := by
  cases b <;> rfl

theorem encodes_one (hSize : size ≤ 32) (low : BitVec 32) :
    Encodes size [⟨low, 0#32⟩] low.toNat := by
  intro idx hIdx
  have hWord : idx / 32 = 0 := by omega
  have hBit : idx % 32 = idx := by omega
  rw [vectorBit_eq, hWord, hBit]
  simp [bitOfVecval_false, BitVec.testBit_toNat]

theorem encodes_two (hSize : size ≤ 64) (low high : BitVec 32) :
    Encodes size [⟨low, 0#32⟩, ⟨high, 0#32⟩] (2 ^ 32 * high.toNat + low.toNat) := by
  intro idx hIdx
  rw [vectorBit_eq, Nat.testBit_two_pow_mul_add _ low.isLt]
  by_cases hLow : idx < 32
  · have hWord : idx / 32 = 0 := by omega
    have hBit : idx % 32 = idx := by omega
    rw [hWord, hBit, if_pos hLow]
    simp [bitOfVecval_false, BitVec.testBit_toNat]
  · have hWord : idx / 32 = 1 := by omega
    have hBit : idx % 32 = idx - 32 := by omega
    rw [hWord, hBit, if_neg hLow]
    simp [bitOfVecval_false, BitVec.testBit_toNat]

/- A time of 64 bits is in its words, as far as the variable
   goes. -/
theorem timeWords_encodes (hSize : size ≤ 64) (hTime : c_time < 2 ^ 64) :
    Encodes size (timeWords ((size - 1) / 32 + 1) c_time)
      c_time := by
  rcases Nat.lt_or_ge 32 size with hLarge | hSmall
  · have hWords : (size - 1) / 32 + 1 = 2 := by omega
    have hPair := encodes_two hSize (BitVec.ofNat 32 c_time) (BitVec.ofNat 32 (c_time / 2 ^ 32))
    have hNumber : 2 ^ 32 *
        (BitVec.ofNat 32 (c_time / 2 ^ 32)).toNat +
        (BitVec.ofNat 32 c_time).toNat = c_time := by
      rw [BitVec.toNat_ofNat, BitVec.toNat_ofNat]
      omega
    rw [hNumber] at hPair
    rw [hWords]
    exact hPair
  · have hWords : (size - 1) / 32 + 1 = 1 := by omega
    have hOne := encodes_one hSmall (BitVec.ofNat 32 c_time)
    rw [hWords]
    intro idx hIdx
    refine (hOne idx hIdx).trans ?_
    rw [BitVec.toNat_ofNat, Nat.testBit_mod_two_pow,
      decide_eq_true (by omega : idx < 32), Bool.true_and]

/- All ones, cut to a width. -/
theorem ones_mod (hSize : size ≤ 64) : (2 ^ 64 - 1) % 2 ^ size = 2 ^ size - 1 := by
  have hPow : 2 ^ size * 2 ^ (64 - size) = 2 ^ 64 := by rw [← Nat.pow_add, Nat.add_sub_of_le hSize]
  have hPos : 0 < 2 ^ size := Nat.two_pow_pos size
  have hPos' : 0 < 2 ^ (64 - size) := Nat.two_pow_pos _
  have hSplit : 2 ^ 64 - 1 = 2 ^ size * (2 ^ (64 - size) - 1) + (2 ^ size - 1) := by
    rw [Nat.mul_sub_one]
    have hLe : 2 ^ size ≤ 2 ^ size * 2 ^ (64 - size) := Nat.le_mul_of_pos_right _ hPos'
    omega
  rw [hSplit, Nat.mul_add_mod, Nat.mod_eq_of_lt (by omega)]

/- The words of an overflow: all ones, the largest value of a
   word, or a bit too few ones. -/
theorem overflowWords_encodes (is_signed : Bool) (hSize : 32 ≤ size) (hSize' : size < 64) :
    ∃ vector n,
      overflowWords size ((size - 1) / 32 + 1) is_signed = some vector ∧
      Encodes size vector n ∧
      (is_signed = false → n % 2 ^ size = 2 ^ size - 1) ∧
      (is_signed = true → size ≤ 33 → n % 2 ^ size = 2 ^ (size - 1) - 1) ∧
      (is_signed = true → 33 < size → n.testBit 32 = false) := by
  rcases Nat.lt_or_ge 32 size with hLarge | hSmall
  · have hWords : (size - 1) / 32 + 1 = 2 := by omega
    rw [hWords]
    refine ⟨_, _, rfl, encodes_two (by omega) _ _, ?_, ?_, ?_⟩
    · rintro rfl
      have hOnes : 2 ^ 32 * (0xffffffff#32).toNat + (0xffffffff#32).toNat = 2 ^ 64 - 1 := by decide
      rw [if_neg Bool.false_ne_true]
      exact ones_mod (by omega)
    · rintro rfl hLe
      obtain rfl : size = 33 := by omega
      decide
    · rintro rfl hGt
      have hShift : size - 32 < 32 := by omega
      have hOnes : (0xffffffff#32).getLsbD (size - 32) = true := by
        rw [show (0xffffffff#32) = BitVec.allOnes 32 from rfl, BitVec.getLsbD_allOnes]
        exact decide_eq_true hShift
      rw [Nat.testBit_two_pow_mul_add _ (BitVec.isLt _), if_neg (Nat.lt_irrefl 32),
        if_pos rfl, BitVec.testBit_toNat, BitVec.getLsbD_not,
        BitVec.getLsbD_ushiftRight, Nat.add_zero, hOnes]
      rfl
  · obtain rfl : size = 32 := by omega
    refine ⟨_, _, rfl, encodes_one (by decide) _, ?_, ?_, ?_⟩
    · rintro rfl
      rfl
    · rintro rfl _
      rfl
    · intro _ hGt
      omega

----
-- Values
----

variable {vector : List VpiVecval} {n : Nat}

/- What a variable has, by the number its words encode. -/
theorem holds_iff
    (h : Encodes size vector n) (is_signed : Bool) (value : Int) :
    Holds size is_signed vector value ↔
      TwosComplement.value is_signed size n.testBit = value := by
  have hBits : ∀ idx < size,
      (vectorBit vector idx == .one) = n.testBit idx := by
    intro idx hIdx
    rw [h idx hIdx]
    cases n.testBit idx <;> rfl
  have hTwo : ∀ bit ∈ vec4FromVectorVal vector size,
      bit = .zero ∨ bit = .one := by
    intro bit hMem
    rcases List.mem_map.mp hMem with ⟨idx, hIdx, rfl⟩
    rw [h idx (List.mem_range.mp hIdx)]
    cases n.testBit idx <;> simp
  unfold Holds
  rw [TwosComplement.value_congr hBits]
  exact and_iff_right hTwo

/- Natural numbers up to the largest value fit. -/
theorem fits_iff_le_maxValue (hSize : 0 < size) (is_signed : Bool) (n : Nat) :
    TwosComplement.Fits is_signed size n ↔
      (n : Int) ≤ maxValue size is_signed := by
  have hPow : (2 : Int) ^ size = 2 * 2 ^ (size - 1) := by
    rw [← pow_succ']
    congr 1
    omega
  unfold TwosComplement.Fits maxValue
  cases is_signed with
  | true =>
    rw [if_pos rfl, if_pos rfl]
    omega
  | false => grind

/- The bits of a number are congruent to it. -/
theorem low_modEq (n size : Nat) :
    (TwosComplement.low n.testBit size : Int) ≡ n [ZMOD 2 ^ size] := by
  rw [TwosComplement.low_testBit]
  push_cast
  exact Int.mod_modEq _ _

theorem maxValue_eq (size : Nat) (is_signed : Bool) :
    maxValue size is_signed = ((2 ^ (size - is_signed.toNat) - 1 : Nat) : Int) := by
  have hPos := Nat.two_pow_pos (size - is_signed.toNat)
  unfold maxValue
  cases is_signed with
  | true =>
    rw [Nat.cast_pred hPos]
    push_cast
    rfl
  | false =>
    rw [Nat.cast_pred hPos]
    push_cast
    rfl

/- The largest value is held by words whose bits make it. -/
theorem holds_maxValue_iff (hSize : 0 < size)
    (h : Encodes size vector n) (is_signed : Bool) :
    Holds size is_signed vector (maxValue size is_signed) ↔
      n % 2 ^ size = 2 ^ (size - is_signed.toNat) - 1 := by
  have hFits : TwosComplement.Fits is_signed size (maxValue size is_signed) := by
    rw [maxValue_eq, fits_iff_le_maxValue hSize, maxValue_eq]
  have hLt : 2 ^ (size - is_signed.toNat) - 1 < 2 ^ size := by
    have hLe : 2 ^ (size - is_signed.toNat) ≤ 2 ^ size :=
      Nat.pow_le_pow_right (by decide) (Nat.sub_le _ _)
    have hPos := Nat.two_pow_pos (size - is_signed.toNat)
    omega
  rw [holds_iff h]
  constructor
  · intro hValue
    have hMod := TwosComplement.low_modEq_value is_signed size n.testBit
    rw [hValue, maxValue_eq, TwosComplement.low_testBit] at hMod
    have hNat : n % 2 ^ size ≡ 2 ^ (size - is_signed.toNat) - 1 [MOD 2 ^ size] := by
      rw [← Int.natCast_modEq_iff]
      push_cast at hMod ⊢
      exact hMod
    unfold Nat.ModEq at hNat
    rw [Nat.mod_mod, Nat.mod_eq_of_lt hLt] at hNat
    exact hNat
  · intro hMod
    rw [TwosComplement.value_eq_iff]
    · exact hFits
    · rw [TwosComplement.low_testBit, hMod, maxValue_eq]

/- The words of an overflow are the largest value, unless they
   are for a signed variable of more than 33 bits. -/
theorem overflow_holds_iff (hSize : 32 ≤ size)
    (h : Encodes size vector n) (hUnsigned : is_signed = false → n % 2 ^ size = 2 ^ size - 1)
    (hSmall : is_signed = true → size ≤ 33 → n % 2 ^ size = 2 ^ (size - 1) - 1)
    (hLarge : is_signed = true → 33 < size → n.testBit 32 = false) :
    Holds size is_signed vector (maxValue size is_signed) ↔
      (is_signed = true → size ≤ 33) := by
  rw [holds_maxValue_iff (by omega) h]
  cases is_signed with
  | false => simpa using hUnsigned rfl
  | true =>
    by_cases hLe : size ≤ 33
    · simpa [hLe] using hSmall rfl hLe
    · -- bit 32 of the largest value is a one
      have hNe : n % 2 ^ size ≠ 2 ^ (size - 1) - 1 := by
        intro hEq
        have hBit := congrArg (fun m => m.testBit 32) hEq
        simp only [Nat.testBit_mod_two_pow, Nat.testBit_two_pow_sub_one,
          hLarge rfl (by omega), Bool.and_false] at hBit
        rw [eq_comm, decide_eq_false_iff_not] at hBit
        omega
      simp [hLe, hNe]

----
-- The Exact Condition
----

/- What the function does, once its assertions hold. -/
theorem fill_eq (hSize : 32 ≤ size) (hUnits : prec ≤ units)
    (hScale : 10 ^ (units - prec).toNat < 2 ^ 64) (hTime : c_time < 2 ^ 64) :
    fillVariableWithScaledTime size is_signed units prec c_time =
      (if size < 64 ∧ ¬(roundedTime (10 ^ (units - prec).toNat)
          c_time : Int) ≤ maxValue size is_signed then
        (overflowWords size ((size - 1) / 32 + 1) is_signed).map
          fun val_ptr => (val_ptr, IVL_QUEUE_VALUE_OVERFLOWED)
      else
        some (timeWords ((size - 1) / 32 + 1)
          (roundedTime (10 ^ (units - prec).toNat) c_time),
          IVL_QUEUE_OK)) := by
  unfold fillVariableWithScaledTime
  rw [if_neg (by omega), if_neg (by omega), scaleFor_eq hScale, scaledTime_eq hTime]
  have hPos := Nat.two_pow_pos (size - is_signed.toNat)
  have hMax : (roundedTime (10 ^ (units - prec).toNat)
      c_time : Int) ≤ maxValue size is_signed ↔
      ¬2 ^ (size - is_signed.toNat) ≤ roundedTime (10 ^ (units - prec).toNat) c_time := by
    rw [maxValue_eq]
    omega
  by_cases hLt : size < 64
  · grind
  · simp [hLt]

/- A time that fits is stored. -/
theorem saturates_of_fits (hSize : 32 ≤ size) (hSize' : size ≤ 64) (hUnits : prec ≤ units)
    (hScale : 10 ^ (units - prec).toNat < 2 ^ 64) (hTime : c_time < 2 ^ 64)
    (hFits : (roundedTime (10 ^ (units - prec).toNat)
      c_time : Int) ≤ maxValue size is_signed) : Saturates size is_signed units prec c_time := by
  unfold Saturates
  rw [fill_eq hSize hUnits hScale hTime, if_neg (fun h => h.2 hFits)]
  simp only [if_pos hFits]
  refine ⟨_, _, rfl, rfl, ?_⟩
  rw [holds_iff (timeWords_encodes hSize' (roundedTime_lt hTime)),
    TwosComplement.value_eq_iff (low_modEq _ size), fits_iff_le_maxValue (by omega)]
  exact hFits

/- A variable of 64 bits is not compared with its limit. -/
theorem saturates_widest_iff (hUnits : prec ≤ units) (hScale : 10 ^ (units - prec).toNat < 2 ^ 64)
    (hTime : c_time < 2 ^ 64) :
    Saturates 64 is_signed units prec c_time ↔
      (roundedTime (10 ^ (units - prec).toNat) c_time : Int) ≤ maxValue 64 is_signed := by
  constructor
  · intro h
    unfold Saturates at h
    rw [fill_eq (by decide) hUnits hScale hTime, if_neg (fun hLt => absurd hLt.1 (by decide))] at h
    rcases h with ⟨vector, rtn, hEq, hStatus⟩
    by_contra hFits
    rw [if_neg hFits] at hStatus
    rw [Option.some.injEq, Prod.mk.injEq, hStatus.1] at hEq
    cases hEq.2
  · exact saturates_of_fits (by decide) (Nat.le_refl 64) hUnits hScale hTime

/- A narrower variable gets its largest value, unless it is
   signed and has more than 33 bits. -/
theorem saturates_overflow_iff (hSize : 32 ≤ size) (hSize' : size < 64) (hUnits : prec ≤ units)
    (hScale : 10 ^ (units - prec).toNat < 2 ^ 64) (hTime : c_time < 2 ^ 64)
    (hOver : ¬(roundedTime (10 ^ (units - prec).toNat)
      c_time : Int) ≤ maxValue size is_signed) :
    Saturates size is_signed units prec c_time ↔
      (is_signed = true → size ≤ 33) := by
  unfold Saturates
  rcases overflowWords_encodes is_signed hSize hSize' with
    ⟨vector, n, hWords, hEncodes, hUnsigned, hSmall, hLarge⟩
  rw [fill_eq hSize hUnits hScale hTime, if_pos ⟨hSize', hOver⟩, hWords,
    ← overflow_holds_iff hSize hEncodes hUnsigned hSmall hLarge]
  simp only [if_neg hOver]
  constructor
  · simp
  · intro hHolds
    exact ⟨vector, _, rfl, rfl, hHolds⟩

/- The store saturates for the widths it admits, apart from the
   times too large for a signed variable of more than 33
   bits. -/
theorem saturates_iff (size : Nat) (is_signed : Bool) (units prec : Int)
    (c_time : Nat) (hSize' : size ≤ 64) (hUnits : prec ≤ units)
    (hScale : 10 ^ (units - prec).toNat < 2 ^ 64) (hTime : c_time < 2 ^ 64) :
    Saturates size is_signed units prec c_time ↔
      32 ≤ size ∧
      (is_signed = true → 33 < size →
        (roundedTime (10 ^ (units - prec).toNat) c_time : Int) ≤ maxValue size true) := by
  by_cases hWide : 32 ≤ size
  swap
  · -- the assertion on the width fails
    have hNone : fillVariableWithScaledTime size is_signed units prec c_time = none := by
      unfold fillVariableWithScaledTime
      rw [if_pos (by omega)]
    simp [Saturates, hNone, hWide]
  rw [and_iff_right hWide]
  by_cases hFits : (roundedTime (10 ^ (units - prec).toNat)
      c_time : Int) ≤ maxValue size is_signed
  · refine iff_of_true (saturates_of_fits hWide hSize' hUnits hScale hTime hFits) ?_
    rintro rfl _
    exact hFits
  by_cases hLt : size < 64
  · rw [saturates_overflow_iff hWide hLt hUnits hScale hTime hFits]
    refine forall_congr' fun hSigned => ?_
    subst hSigned
    rw [← not_lt]
    exact ⟨fun hLe hGt => absurd hGt hLe, fun hLe hGt => hFits (hLe hGt)⟩
  · obtain rfl : size = 64 := by omega
    rw [saturates_widest_iff hUnits hScale hTime]
    cases is_signed with
    | true => exact ⟨fun hLe _ _ => hLe, fun hLe => hLe rfl (by decide)⟩
    | false =>
      -- every time of 64 bits fits
      exfalso
      have hLt' := @roundedTime_lt (units - prec).toNat _ hTime
      rw [maxValue_eq] at hFits
      simp at hFits
      omega

/- An `integer` in a module of the precision, and the largest
   time. -/
theorem saturates_iff_integer :
    Saturates 32 true (-9) (-9) (2 ^ 64 - 1) ↔
      32 ≤ 32 ∧
      (true = true → 33 < 32 →
        (roundedTime (10 ^ ((-9 : Int) - -9).toNat) (2 ^ 64 - 1) : Int) ≤ maxValue 32 true) :=
  saturates_iff 32 true (-9) (-9) (2 ^ 64 - 1) (by decide) (by decide) (by decide) (by decide)

/- A signed variable of 64 bits is given the time 2^63. -/
theorem large_time_stored_negative :
    ¬∀ (size : Nat) (is_signed : Bool) (units prec : Int)
        (c_time : Nat), 32 ≤ size → size ≤ 64 → prec ≤ units →
      10 ^ (units - prec).toNat < 2 ^ 64 → c_time < 2 ^ 64 →
        Saturates size is_signed units prec c_time := by
  intro h
  have hAt := h 64 true 0 0 (2 ^ 63) (by decide) (by decide) (by decide) (by decide) (by decide)
  have hLe := (saturates_widest_iff (by decide) (by decide) (by decide)).mp hAt
  revert hLe
  decide

end EpicSim
