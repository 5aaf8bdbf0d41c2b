import EpicSim.Lib.Limbs
import EpicSim.Vvp.Vector4

/-
  Vectors of two-state bits, packed in 64-bit words, and
  their arithmetic.

  A shift of a 64-bit word takes its count modulo 64, as the
  processor does.  Operations with an assertion return none
  where it fails.
-/

----
-- Vectors
----

namespace EpicSim

open PackedWords Limbs

/- `BITS_PER_WORD` words for a width. -/
def wordsFor (wid : Nat) : Nat := (wid + 64 - 1) / 64

/- A vector of two-state bits; a width of zero is NaN. -/
structure VvpVector2 where
  vec : List (BitVec 64)
  wid : Nat
  vec_length : vec.length = wordsFor wid
deriving DecidableEq

/- `-1UL >> count`, with the count modulo 64. -/
def onesAfter (count : Nat) : BitVec 64 :=
  BitVec.allOnes 64 >>> (count % 64)

/- `has_xz`: some bbit is set within the size. -/
def VvpVector4.hasXz (v : VvpVector4) : Bool :=
  if v.size_ < 64 then
    wordAt v.bbits 0 &&& onesAfter (64 - v.size_) != 0#64
  else if v.size_ = 64 then wordAt v.bbits 0 != 0#64
  else
    let words := v.size_ / 64
    (List.range words).any (fun idx => wordAt v.bbits idx != 0#64) ||
    decide (0 < v.size_ % 64) && wordAt v.bbits words &&& onesAfter (64 - v.size_ % 64) != 0#64

namespace VvpVector2

/- The empty vector. -/
def empty : VvpVector2 := ⟨[], 0, rfl⟩

/- From a native long.  Width zero would write past the end. -/
def ofLong (v : BitVec 64) (wid : Nat) : VvpVector2 where
  vec := (List.replicate (wordsFor wid) 0#64).set 0 v
  wid := wid
  vec_length := by simp

/- Filled with 0 or 1 bits. -/
def ofFill (fill : Bool) (wid : Nat) : VvpVector2 where
  vec := List.replicate (wordsFor wid) (if fill then BitVec.allOnes 64 else 0#64)
  wid := wid
  vec_length := by simp

/- With a new size. -/
def resize (that : VvpVector2) (newsize : Nat) : VvpVector2 where
  vec := (List.range (wordsFor newsize)).map (fun idx =>
    if idx < wordsFor that.wid then that.vec.getD idx 0#64
    else 0#64)
  wid := newsize
  vec_length := by simp

/- `subarray` of a whole vector, with X and Z taken as 0. -/
def subarray (that : VvpVector4) : List (BitVec 64) :=
  (List.range (wordsFor that.size_)).map (fun idx =>
    let wid := that.size_ - 64 * idx
    let mask := if wid < 64 then lowMask wid else BitVec.allOnes 64
    let atmp := wordAt that.abits idx &&& mask
    let btmp := wordAt that.bbits idx &&& mask
    atmp &&& ~~~btmp)

/- `copy_from_that_`, for a vector of four-state bits. -/
def copyFromThat (that : VvpVector4) : VvpVector2 where
  vec := subarray that
  wid := that.size_
  vec_length := by simp [subarray]

/- From four-state bits; with X or Z bits it can become NaN. -/
def ofVector4 (that : VvpVector4) (enableNaN : Bool) : VvpVector2 :=
  if enableNaN && that.hasXz then empty else copyFromThat that

/- The bit at an index; past the width it reads as 0. -/
def value (v : VvpVector2) (idx : Nat) : Bool :=
  if v.wid ≤ idx then false else bitAt v.vec idx

/- Write one bit.  The source asserts `idx < wid_`. -/
def setBit (v : VvpVector2) (idx : Nat) (bit : Bool) : Option VvpVector2 :=
  if idx < v.wid then
    some
      { vec := putBit v.vec idx bit
        wid := v.wid
        vec_length := by simp [v.vec_length] }
  else none

/- The number whose bits are the values. -/
def number (v : VvpVector2) : Nat :=
  Nat.ofBits (fun idx : Fin v.wid => v.value idx)

end VvpVector2

end EpicSim

----
-- Arithmetic
----

namespace EpicSim

open PackedWords Limbs

namespace VvpVector2

/- Clean up the tail bits of the last word. -/
def maskTail (wid : Nat) (vec : List (BitVec 64)) : List (BitVec 64) :=
  vec.modify (wordsFor wid - 1) (fun word => word &&& onesAfter (64 - wid % 64))

/- `operator <<=`. -/
def shiftLeft (v : VvpVector2) (shift : Nat) : VvpVector2 :=
  let words := wordsFor v.wid
  let wshift := shift / 64
  let oshift := shift % 64
  if v.wid = 0 then v
  else if hGone : words ≤ wshift then
    { vec := List.replicate words 0#64
      wid := v.wid
      vec_length := by simp [words] }
  else
    -- first the words, then the bits within them
    let vec := List.replicate wshift 0#64 ++
      v.vec.take (words - wshift)
    have hVec : vec.length = words := by
      have hOld : v.vec.length = words := v.vec_length
      simp only [vec, List.length_append, List.length_replicate, List.length_take, hOld]
      omega
    if oshift ≠ 0 then
      { vec := maskTail v.wid (shiftUp oshift 0#64 vec)
        wid := v.wid
        vec_length := by simp [maskTail, hVec, words] }
    else { vec := vec, wid := v.wid, vec_length := hVec }

/-
  The tail of `operator >>=`: whole words are cleared, then
  the rest of the bits in the word below, which must exist.
-/
def cleanTail : Nat → Nat → List (BitVec 64) → Option (List (BitVec 64))
| 0, maskShift, vec => if maskShift = 0 then some vec else none
| useWords + 1, maskShift, vec =>
  if 64 ≤ maskShift then
    cleanTail useWords (maskShift - 64) (vec.set useWords 0#64)
  else if 0 < maskShift then
    some (vec.modify useWords (fun word => word &&& onesAfter maskShift))
  else some vec

theorem cleanTail_length {useWords maskShift : Nat} {vec res : List (BitVec 64)}
    (h : cleanTail useWords maskShift vec = some res) : res.length = vec.length := by
  induction useWords generalizing maskShift vec with
  | zero =>
    simp only [cleanTail] at h
    split_ifs at h
    cases h
    rfl
  | succ useWords ih =>
    simp only [cleanTail] at h
    grind

/- `operator >>=`. -/
def shiftRight (v : VvpVector2) (shift : Nat) : Option VvpVector2 :=
  let words := wordsFor v.wid
  let wshift := shift / 64
  let oshift := shift % 64
  if v.wid = 0 then some v
  else if hGone : words ≤ wshift then
    some
      { vec := List.replicate words 0#64
        wid := v.wid
        vec_length := by simp [words] }
  else
    let vec := v.vec.drop wshift ++
      List.replicate wshift 0#64
    have hVec : vec.length = words := by
      have hOld : v.vec.length = words := v.vec_length
      simp only [vec, List.length_append, List.length_replicate, List.length_drop, hOld]
      omega
    if 0 < oshift then
      let maskShift := (64 - v.wid % 64) % 64 + oshift
      match hClean : cleanTail words maskShift
          (shiftDown oshift vec).1 with
      | none => none
      | some res =>
        some
          { vec := res
            wid := v.wid
            vec_length := by
              rw [cleanTail_length hClean]
              simp [hVec, words] }
    else some { vec := vec, wid := v.wid, vec_length := hVec }

/- `add_carry`: the sum and the new carry. -/
def addCarry (a b carry : BitVec 64) : BitVec 64 × BitVec 64 :=
  let out := carry
  let carry : BitVec 64 := 0
  let carry := if BitVec.allOnes 64 - out < a then carry + 1 else carry
  let out := out + a
  let carry := if BitVec.allOnes 64 - out < b then carry + 1 else carry
  let out := out + b
  (out, carry)

/- `operator +=`. -/
def addAssign (v that : VvpVector2) : Option VvpVector2 :=
  if h : v.wid = that.wid then
    if v.wid = 0 then some v
    else
      some
        { vec := maskTail v.wid (ripple addCarry v.vec that.vec 0#64).1
          wid := v.wid
          vec_length := by
            have hSame : v.vec.length = that.vec.length := by rw [v.vec_length, that.vec_length, h]
            simp [maskTail, ripple_length _ _ _ _ hSame, v.vec_length] }
  else none

/- `operator -=`, which leaves the tail bits as they come. -/
def subAssign (v that : VvpVector2) : Option VvpVector2 :=
  if h : v.wid = that.wid then
    if v.wid = 0 then some v
    else
      some
        { vec := (ripple addCarry v.vec (that.vec.map (fun word => ~~~word)) 1#64).1
          wid := v.wid
          vec_length := by
            have hSame : v.vec.length = (that.vec.map (fun word => ~~~word)).length := by
              rw [List.length_map, v.vec_length, that.vec_length, h]
            rw [ripple_length _ _ _ _ hSame, v.vec_length] }
  else none

/- Unary `operator -`. -/
def neg (that : VvpVector2) : Option VvpVector2 :=
  if that.wid = 0 then some that
  else
    addAssign
      { vec := that.vec.map (fun word => ~~~word)
        wid := that.wid
        vec_length := by simp [that.vec_length] }
      (ofLong 1#64 that.wid)

/- `multiply_long`: the low and the high word. -/
def multiplyLong (a b : BitVec 64) : BitVec 64 × BitVec 64 :=
  let wordMask : BitVec 64 := 1#64 <<< 32 - 1#64
  let tmpa := a &&& wordMask
  let tmpb := b &&& wordMask
  let res0 := tmpa * tmpb
  let res1 := res0 >>> 32
  let res0 := res0 &&& wordMask
  let tmpa := (a >>> 32) &&& wordMask
  let tmpb := b &&& wordMask
  let res1 := res1 + tmpa * tmpb
  let res2 := res1 >>> 32
  let res1 := res1 &&& wordMask
  let tmpa := a &&& wordMask
  let tmpb := (b >>> 32) &&& wordMask
  let res1 := res1 + tmpa * tmpb
  let res2 := res2 + res1 >>> 32
  let res3 := res2 >>> 32
  let res1 := res1 &&& wordMask
  let res2 := res2 &&& wordMask
  let tmpa := (a >>> 32) &&& wordMask
  let tmpb := (b >>> 32) &&& wordMask
  let res2 := res2 + tmpa * tmpb
  let res3 := res3 + res2 >>> 32
  let res2 := res2 &&& wordMask
  ((res1 <<< 32) ||| res0, (res3 <<< 32) ||| res2)

/- Add a product of two words into the words from `pos` on. -/
def addProduct (pos : Nat) (low hig : BitVec 64) (r : List (BitVec 64)) : List (BitVec 64) :=
  let rest := r.drop pos
  r.take pos ++
    (ripple addCarry rest (([low, hig] ++ List.replicate rest.length 0#64).take rest.length) 0#64).1

/- One row of the product: a word of `b` times all of `a`. -/
def multiplyRow (a : List (BitVec 64)) (bdx : Nat) (tmpb : BitVec 64)
    (r : List (BitVec 64)) : List (BitVec 64) :=
  (List.range r.length).foldl (fun r adx =>
    let tmpa := a.getD adx 0#64
    if tmpa = 0#64 then r
    else
      let product := multiplyLong tmpa tmpb
      addProduct (adx + bdx) product.1 product.2 r) r

/- The words of the product. -/
def multiplyWords (a b r : List (BitVec 64)) : List (BitVec 64) :=
  (List.range r.length).foldl (fun r bdx =>
    let tmpb := b.getD bdx 0#64
    if tmpb = 0#64 then r
    else multiplyRow a bdx tmpb r) r

theorem addProduct_length (pos : Nat) (low hig : BitVec 64) (r : List (BitVec 64)) :
    (addProduct pos low hig r).length = r.length :=
  length_addAt addCarry pos low hig r

theorem foldl_length {step : List (BitVec 64) → Nat → List (BitVec 64)}
    (h : ∀ r idx, (step r idx).length = r.length) (l : List Nat) (r : List (BitVec 64)) :
    (l.foldl step r).length = r.length := by
  induction l generalizing r with
  | nil => rfl
  | cons idx l ih => rw [List.foldl_cons, ih, h]

theorem multiplyRow_length (a : List (BitVec 64)) (bdx : Nat) (tmpb : BitVec 64)
    (r : List (BitVec 64)) : (multiplyRow a bdx tmpb r).length = r.length := by
  apply foldl_length
  intro r adx
  simp only
  split_ifs
  · rfl
  · exact addProduct_length _ _ _ _

theorem multiplyWords_length (a b r : List (BitVec 64)) :
    (multiplyWords a b r).length = r.length := by
  apply foldl_length
  intro r bdx
  simp only
  split_ifs
  · rfl
  · exact multiplyRow_length _ _ _ _

/- `operator *`. -/
def mul (a b : VvpVector2) : Option VvpVector2 :=
  if a.wid = b.wid then
    let r := ofLong 0#64 a.wid
    some
      { vec := multiplyWords a.vec b.vec r.vec
        wid := r.wid
        vec_length := by rw [multiplyWords_length, r.vec_length] }
  else none

/- The width that `trim` leaves. -/
def trimWidth (v : VvpVector2) : Nat → Nat
| 0 => 0
| 1 => 1
| wid + 2 =>
  if v.value (wid + 1) then wid + 2
  else trimWidth v (wid + 1)

theorem trimWidth_le (v : VvpVector2) (wid : Nat) : trimWidth v wid ≤ wid := by
  induction wid with
  | zero => exact Nat.le_refl _
  | succ wid ih =>
    cases wid with
    | zero => exact Nat.le_refl _
    | succ wid =>
      simp only [trimWidth]
      grind

/-
  `trim`.  The words past the new width stay allocated in the
  source, but no operation reads them again.
-/
def trim (v : VvpVector2) : VvpVector2 where
  vec := v.vec.take (wordsFor (trimWidth v v.wid))
  wid := trimWidth v v.wid
  vec_length := by
    have hLe := trimWidth_le v v.wid
    rw [List.length_take, v.vec_length, Nat.min_eq_left]
    unfold wordsFor
    omega

end VvpVector2

end EpicSim

----
-- Tests And Comparisons
----

namespace EpicSim

open PackedWords Limbs

namespace VvpVector2

/- `is_NaN`. -/
def isNaN (v : VvpVector2) : Bool := v.wid == 0

/- `is_zero`. -/
def isZero (v : VvpVector2) : Bool :=
  v.vec.all (fun word => word == 0#64)

/- `is_one`, which reads the first word of any vector. -/
def isOne (v : VvpVector2) : Option Bool :=
  match v.vec with
  | [] => none
  | word :: rest => some (word == 1#64 && rest.all (fun word => word == 0#64))

/- The comparisons read all words of the longer vector. -/
def compare (greater less equal : Bool) (a b : VvpVector2) : Bool :=
  let awords := wordsFor a.wid
  let bwords := wordsFor b.wid
  compareDown greater less equal a.vec b.vec (if awords > bwords then awords else bwords)

/- `operator >`. -/
def gt : VvpVector2 → VvpVector2 → Bool :=
  compare true false false

/- `operator >=`. -/
def ge : VvpVector2 → VvpVector2 → Bool :=
  compare true false true

/- `operator <`. -/
def lt : VvpVector2 → VvpVector2 → Bool :=
  compare false true false

/- `operator <=`, only for vectors of one width. -/
def le (a b : VvpVector2) : Option Bool :=
  if a.wid = b.wid then some (compare false true true a b)
  else none

/- `operator ==`. -/
def eq : VvpVector2 → VvpVector2 → Bool :=
  compare false false true

/- `vector2_to_vector4`. -/
def toVector4 (that : VvpVector2) (wid : Nat) : VvpVector4 :=
  (List.range wid).foldl (fun res idx =>
    res.setBit idx (if that.value idx then .one else .zero))
    (VvpVector4.fill wid .x)

end VvpVector2

end EpicSim
