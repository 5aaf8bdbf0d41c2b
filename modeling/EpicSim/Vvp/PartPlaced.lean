import EpicSim.Vvp.PartWrite
import EpicSim.Vvp.WireInStep

/-
  Which parts the part writes write.

  For every instruction, the property that a value goes to the
  bits from a signed base on, as far as they are there, and
  the bases for which the instruction has it; then the proof
  for the instructions that write a variable.
-/

namespace EpicSim

open List (getD_eq_getElem replicate length_replicate)
open PartUpdate (overwrite overwrite_length overwrite_getD
  eq_of_getD)
open VvpNet (subvalue_length bitValue_subvalue)

----
-- Values at a Base
----

/- The bits with the value at a base, as far as it fits. -/
def placed (bits val : List VvpBit4) (base : Int) : List VvpBit4 :=
  bits.mapIdx fun idx old =>
    if base ≤ idx ∧ idx < base + val.length then
      bitValue val (idx - base).toNat
    else old

@[simp] theorem placed_length (bits val : List VvpBit4) (base : Int) :
    (placed bits val base).length = bits.length := by
  simp [placed]

variable {base : Int} {val : List VvpBit4}

variable {bits val : List VvpBit4} {adr : Nat} {base n : Int}

theorem placed_getD {idx : Nat} (hIdx : idx < bits.length) :
    (placed bits val base).getD idx .x =
      if base ≤ idx ∧ idx < base + val.length then
        bitValue val (idx - base).toNat
      else bits.getD idx .x := by
  have hLength : idx < (placed bits val base).length := by rwa [placed_length]
  rw [getD_eq_getElem _ _ hLength, getD_eq_getElem _ _ hIdx]
  simp only [placed, List.getElem_mapIdx]

theorem take_eq_subvalue {n : Nat} (h : n ≤ val.length) : val.take n = subvalue val 0 n := by
  apply List.ext_getElem
  · rw [List.length_take, subvalue_length]
    omega
  · intro idx hLeft hRight
    have hIdx : idx < val.length := by
      rw [List.length_take] at hLeft
      omega
    simp [subvalue, bitValue, hIdx]

theorem eq_subvalue (val : List VvpBit4) : val = subvalue val 0 val.length := by
  rw [← take_eq_subvalue (Nat.le_refl _), List.take_length]

/- A part of a part. -/
theorem subvalue_subvalue {m n : Nat} (h : n ≤ m) :
    subvalue (subvalue val adr m) 0 n = subvalue val adr n := by
  apply List.map_congr_left
  intro idx hMem
  rw [List.mem_range] at hMem
  rw [Nat.zero_add]
  exact bitValue_subvalue (Nat.lt_of_lt_of_le hMem h)

/-
  A part of the value that is written where it belongs, and
  that has all the bits that are there.
-/
theorem overwrite_part {bits val : List VvpBit4} {base : Int} {off skip n : Nat}
    (hBase : base = off - skip) (hRange :
      ∀ idx : Nat, idx < bits.length →
        ((base ≤ idx ∧ idx < base + val.length) ↔ (off ≤ idx ∧ idx < off + n))) :
    overwrite bits off (subvalue val skip n) = placed bits val base := by
  apply eq_of_getD .x
  · rw [overwrite_length, placed_length]
  · intro idx hIdx
    rw [overwrite_length] at hIdx
    rw [overwrite_getD .x hIdx, placed_getD hIdx, subvalue_length]
    by_cases hIn : off ≤ idx ∧ idx < off + n
    · have hHere : idx - off < n := by omega
      have hSub := @bitValue_subvalue val skip n _ hHere
      have hPlace : (idx - base).toNat = skip + (idx - off) := by omega
      rw [if_pos hIn, if_pos ((hRange idx hIdx).mpr hIn), hPlace, ← hSub]
      rfl
    · rw [if_neg hIn, if_neg fun h => hIn ((hRange idx hIdx).mp h)]

/- Where no bit of the value is. -/
theorem placed_nothing
    (hApart : base ≤ -val.length ∨ (bits.length : Int) ≤ base) : placed bits val base = bits := by
  apply eq_of_getD .x (placed_length _ _ _)
  intro idx hIdx
  rw [placed_length] at hIdx
  rw [placed_getD hIdx, if_neg]
  omega

/- Where some bit of the value is, it may be seen. -/
theorem placed_something {W w : Nat} (hTarget : 0 < W) (hPart : 0 < w) (hLow : -w < base)
    (hHigh : base < W) :
    (placed (replicate W .zero) (replicate w .one) base).getD base.toNat .x = .one := by
  have hIdx :
      base.toNat < (replicate W VvpBit4.zero).length := by
    rw [length_replicate]
    omega
  have hPlace :
      (base.toNat - base).toNat < (replicate w VvpBit4.one).length := by
    rw [length_replicate]
    omega
  rw [placed_getD hIdx, if_pos]
  · unfold bitValue
    rw [getD_eq_getElem _ _ hPlace]
    simp
  · omega

/- Two bases that place every value of a width alike. -/
theorem placed_ne {W w : Nat} {other : Int} (hTarget : 0 < W)
    (hPart : 0 < w) (hLow : -w < base) (hHigh : base < W)
    (hOther : other ≤ -w ∨ (W : Int) ≤ other) :
    placed (replicate W .zero) (replicate w .one) base ≠
      placed (replicate W .zero) (replicate w .one)
        other := by
  intro hEq
  have hSeen := placed_something hTarget hPart hLow hHigh
  have hNothing :
      placed (replicate W .zero) (replicate w .one) other = replicate W VvpBit4.zero := by
    apply placed_nothing
    rw [length_replicate, length_replicate]
    exact hOther
  have hIdx : base.toNat < W := by omega
  rw [hEq, hNothing, getD_eq_getElem _ _ (by
    rw [length_replicate]; exact hIdx),
    List.getElem_replicate] at hSeen
  cases hSeen

----
-- Cutting
----

theorem partOf_some {wid : Int} (h : 0 ≤ wid) :
    partOf val adr wid = some (subvalue val adr wid.toNat) :=
  if_neg (by omega)

theorem partOf_none {wid : Int} (h : wid < 0) : partOf val adr wid = none :=
  if_pos h

/- A part of the value, cut at the size of the target. -/
theorem cutAbove_part {val : List VvpBit4} {skip size n : Nat} {off : Int} (hOff : off ≤ size) :
    cutAbove size off (subvalue val skip n) =
      some (subvalue val skip (min n (size - off).toNat)) := by
  unfold cutAbove
  rw [subvalue_length]
  by_cases hOver : (size : Int) < off + n
  · have hLess : (size - off).toNat ≤ n := by omega
    rw [if_pos hOver, partOf_some (by omega), subvalue_subvalue hLess, Nat.min_eq_right hLess]
  · grind

/- An offset above the target makes the width negative. -/
theorem cutAbove_none {size : Nat} {off : Int} (hOff : size < off) :
    cutAbove size off val = none := by
  unfold cutAbove
  rw [if_pos (by omega), partOf_none (by omega)]

theorem toUnsigned_of_small (hLow : 0 ≤ n) (hHigh : n < 2 ^ 32) :
    toUnsigned n = n.toNat := by
  unfold toUnsigned
  rw [Int.emod_eq_of_lt hLow hHigh]

theorem toUnsigned_le (hLow : 0 ≤ n) : (toUnsigned n : Int) ≤ n := by
  unfold toUnsigned
  omega

theorem toInt_range (n : Int) : -2 ^ 31 ≤ toInt n ∧ toInt n < 2 ^ 31 := by
  unfold toInt
  omega

/- A number that is not an `int` is far away. -/
theorem toInt_ne (h : toInt n ≠ n) : n < -2 ^ 31 ∨ 2 ^ 31 ≤ n := by
  unfold toInt at h
  omega

----
-- The Instructions
----

/- The part writes; an array is of four or of two states. -/
inductive PartWrite where
| storeVec4
| storeVec4A (twoState : Bool)
| assignVec4AD (twoState : Bool)
| assignVec4AE (twoState : Bool)
| assignVec4OffD
| assignVec4OffE
| cassignVec4Off
| forceVec4Off
| forceVec4OffD
deriving DecidableEq

/- The array with a value at a base of one of its words. -/
def VvpArray.placedAt (arr : VvpArray) (address : Nat) (val : List VvpBit4)
    (base : Int) : VvpArray :=
  { arr with
    words :=
      arr.words.set address
        (placed (arr.getWord address)
          (if arr.twoState then val.map VvpBit4.toTwoState
            else val)
          base) }

/- An array of words of this width. -/
structure VvpArray.Fits (wid : Nat) (arr : VvpArray) : Prop where
  width : arr.valsWidth = wid
  words : ∀ word ∈ arr.words, word.length = wid

/- What a scheduled write does when its time has come. -/
def runScheduled {ε τ : Type} (run : ε → τ → Option τ) (event : Option (Option ε))
    (target : τ) : Option τ :=
  match event with
  | none => none
  | some none => some target
  | some (some e) => run e target

namespace PartWrite

/- A write to the word that an address in range names. -/
def ArrayClips (twoState : Bool) (W w : Nat) (base : Int)
    (write : VvpArray → VvpBit4 → Int → List VvpBit4 → Option VvpArray) : Prop :=
  ∀ (arr : VvpArray) (flag4 : VvpBit4) (adr : Nat)
    (val : List VvpBit4),
    arr.Fits W →
    arr.twoState = twoState →
    flag4 ≠ .one →
    adr < arr.words.length →
    adr < 2 ^ 32 →
    val.length = w →
    write arr flag4 adr val = some (arr.placedAt adr val base)

/- A write to a variable without a continuous assignment. -/
def SignalClips (W w : Nat) (base : Int)
    (write : SignalVar → VvpBit4 → List VvpBit4 → Option SignalVar) : Prop :=
  ∀ (sig : SignalVar) (flag4 : VvpBit4) (val : List VvpBit4),
    sig.bits4.length = W →
    sig.assignMask = [] →
    flag4 ≠ .one →
    val.length = w →
    write sig flag4 val = some { sig with bits4 := placed sig.bits4 val base }

/- A force of a part of a net. -/
def ForceClips (W w : Nat) (base : Int)
    (write : VvpNet → VvpBit4 → List VvpBit4 → Option VvpNet) : Prop :=
  ∀ (net : VvpNet) (flag4 : VvpBit4) (val : List VvpBit4),
    net.fil.Fits W →
    flag4 ≠ .one →
    val.length = w →
    ∃ net', write net flag4 val = some net' ∧ net'.fil.vec4Value = placed net.fil.vec4Value val base

/-
  The instruction writes the bits of the value that are in the
  target, to where they belong, and nothing else.
-/
def Clips (i : PartWrite) (W w : Nat) (base : Int) : Prop :=
  match i with
  | .storeVec4 => SignalClips W w base fun sig flag4 val => ofStoreVec4 sig flag4 base w val
  | .storeVec4A twoState =>
    ArrayClips twoState W w base fun arr flag4 adr val => ofStoreVec4A arr flag4 adr base val
  | .assignVec4AD twoState =>
    ArrayClips twoState W w base fun arr flag4 adr val =>
      runScheduled ArrayWordEvent.run (ofAssignVec4AD W flag4 adr base val) arr
  | .assignVec4AE twoState =>
    ArrayClips twoState W w base fun arr flag4 adr val =>
      runScheduled ArrayWordEvent.run (ofAssignVec4AE W flag4 adr base val) arr
  | .assignVec4OffD =>
    SignalClips W w base fun sig flag4 val =>
      runScheduled VectorEvent.run (ofAssignVec4OffD W flag4 base val) sig
  | .assignVec4OffE =>
    SignalClips W w base fun sig flag4 val =>
      runScheduled VectorEvent.run (ofAssignVec4OffE W flag4 base val) sig
  | .cassignVec4Off =>
    ∀ (sig : SignalVar) (flag4 : VvpBit4)
      (val : List VvpBit4),
      sig.bits4.length = W →
      flag4 ≠ .one →
      val.length = w →
      ∃ sig',
        ofCassignVec4Off sig flag4 base val = some sig' ∧
        sig'.bits4 = placed sig.bits4 val base
  | .forceVec4Off => ForceClips W w base fun net flag4 val => ofForceVec4Off net flag4 base val
  | .forceVec4OffD =>
    ForceClips W w base fun net flag4 val =>
      runScheduled ForceEvent.run (some (ofForceVec4OffD W flag4 base val)) net

/-
  The bases for which it does.  Below the target a base is
  compared modulo two to the 32.
-/
def Safe (i : PartWrite) (W w : Nat) (base : Int) : Prop :=
  let below := toUnsigned (-base)
  match i with
  | .storeVec4 | .assignVec4OffD | .assignVec4OffE =>
    toInt base = base ∨
    toInt base ≤ -w ∨
    (W : Int) ≤ toInt base
  | .storeVec4A false =>
    (base < 0 ∧ (below = w ∨ (below < w ∧ base = -below))) ∨
    (0 ≤ base ∧ (base < W ∨ (base = W ∧ W % 64 ≠ 0)))
  | .storeVec4A true => base ≤ 0 ∧ W ≤ base + w
  | .assignVec4AD false | .assignVec4AE false =>
    0 ≤ base ∨
    (W ≤ below ∧ base ≤ -w) ∨
    (below < W ∧ below < w ∧ base = -below)
  | .assignVec4AD true | .assignVec4AE true =>
    W ≤ base ∨
    (base < 0 ∧ W ≤ below ∧ base ≤ -w) ∨
    (base ≤ 0 ∧ below < W ∧ below < w ∧ base = -below ∧ W ≤ base + w)
  | .cassignVec4Off => 0 ≤ base ∨ w ≤ below
  | .forceVec4Off | .forceVec4OffD =>
    W ≤ base ∨
    (0 ≤ base ∧ base + w ≤ W) ∨
    (base < -W ∧ base ≤ -w)

end PartWrite

----
-- Variables
----

/- The part of a value that is in the target. -/
theorem clip_overwrite (hLow : -val.length < base) :
    overwrite bits base.toNat
        (subvalue val (-base).toNat (min (val.length - (-base).toNat) (bits.length - base.toNat))) =
      placed bits val base := by
  apply overwrite_part
  · omega
  · intro idx hIdx
    omega

variable {sig : SignalVar} {flag4 : VvpBit4} {base : Int}
  {val : List VvpBit4} {limit wid : Nat} {off : Int} {W w : Nat}

theorem SignalVar.recvVec4Pv_free {bit : List VvpBit4} {base : Nat} (hMask : sig.assignMask = []) :
    sig.recvVec4Pv bit base sig.bits4.length =
      some { sig with bits4 := overwrite sig.bits4 base bit } := by
  unfold SignalVar.recvVec4Pv
  rw [if_neg (not_not_intro rfl), hMask]
  rfl

theorem SignalVar.recvVec4_free {bit : List VvpBit4} (hMask : sig.assignMask = [])
    (hLength : bit.length = sig.bits4.length) :
    sig.recvVec4 bit =
      some { sig with bits4 := overwrite sig.bits4 0 bit } := by
  unfold SignalVar.recvVec4
  rw [hMask, PartUpdate.overwrite_all hLength]
  simp only [if_pos hLength]
  rfl

/- A store places the value at the base as an `int`. -/
theorem ofStoreVec4_eq (hMask : sig.assignMask = []) (hFlag : flag4 ≠ .one) :
    ofStoreVec4 sig flag4 base val.length val =
      some { sig with
        bits4 := placed sig.bits4 val (toInt base) } := by
  unfold ofStoreVec4
  simp only [Nat.lt_irrefl, if_false, if_neg hFlag, List.take_length]
  by_cases hLow : toInt base ≤ -val.length
  · rw [if_pos hLow, placed_nothing (Or.inl hLow)]
  · by_cases hHigh : (sig.bits4.length : Int) ≤ toInt base
    · rw [if_neg hLow, if_pos hHigh, placed_nothing (Or.inr hHigh)]
    · rw [if_neg hLow, if_neg hHigh]
      have hBelow :
          (if toInt base < 0 then
              partOf val (-toInt base).toNat (val.length + toInt base)
            else some val) =
            some (subvalue val (-toInt base).toNat (val.length - (-toInt base).toNat)) := by
        by_cases hNeg : toInt base < 0
        · rw [if_pos hNeg, partOf_some (by omega)]
          congr 2
          omega
        · have hZero : (-toInt base).toNat = 0 := by omega
          rw [if_neg hNeg, hZero, Nat.sub_zero, ← eq_subvalue]
      have hAbove :
          ((toInt base).toNat : Int) ≤ sig.bits4.length := by
        omega
      rw [hBelow]
      simp only [bind, Option.bind, cutAbove_part hAbove]
      have hClip := @clip_overwrite sig.bits4 val (toInt base) (by omega)
      have hWidth :
          ((sig.bits4.length : Int) -
            ((toInt base).toNat : Nat)).toNat =
            sig.bits4.length - (toInt base).toNat := by
        omega
      rw [hWidth]
      split
      · next hAll => rw [SignalVar.recvVec4_free hMask hAll.2, ← hClip, hAll.1]
      · rw [SignalVar.recvVec4Pv_free hMask, hClip]

/- Where an assignment has nothing to write. -/
theorem assignPart_nothing (h : wid ≤ off ∨ (off < 0 ∧ limit ≤ toUnsigned (-off))) :
    assignPart limit wid off val = some none := by
  unfold assignPart
  by_cases hHigh : (wid : Int) ≤ off
  · rw [if_pos hHigh]
  · grind

/- Where the value does not reach the target. -/
theorem assignPart_short (hNeg : off < 0) (hLimit : toUnsigned (-off) < limit)
    (hShort : val.length ≤ toUnsigned (-off)) : assignPart limit wid off val = none := by
  unfold assignPart
  rw [if_neg (by omega), if_neg (by omega)]
  simp only [if_pos hNeg, if_neg (Nat.not_lt_of_le hShort)]
  rfl

/- The part of the value that an assignment cuts. -/
theorem assignPart_part (hHigh : off < wid)
    (hNeg : off < 0 → toUnsigned (-off) < limit ∧ toUnsigned (-off) < val.length) :
    assignPart limit wid off val =
      some (some
        (off.toNat,
          subvalue val (if off < 0 then toUnsigned (-off) else 0)
            (min
              (val.length - (if off < 0 then toUnsigned (-off) else 0))
              (wid - off.toNat)))) := by
  have hWidth :
      ((wid : Int) - (off.toNat : Nat)).toNat = wid - off.toNat := by
    omega
  have hAbove : (off.toNat : Int) ≤ wid := by omega
  unfold assignPart
  rw [if_neg (by omega)]
  by_cases hBelow : off < 0
  · rcases hNeg hBelow with ⟨hLimit, hLong⟩
    rw [if_neg (by omega)]
    have hPart :
        partOf val (toUnsigned (-off)) (val.length - toUnsigned (-off)) =
          some (subvalue val (toUnsigned (-off)) (val.length - toUnsigned (-off))) := by
      rw [partOf_some (by omega)]
      congr 2
      omega
    simp only [if_pos hBelow, if_pos hLong, hPart, bind, Option.bind, cutAbove_part hAbove, hWidth]
  · rw [if_neg (fun h => hBelow h.1)]
    have hAll := @cutAbove_part val 0 wid val.length _ hAbove
    rw [← eq_subvalue] at hAll
    simp only [if_neg hBelow, bind, Option.bind, hAll, hWidth, Nat.sub_zero]

/- What an offset below the target is as `unsigned`. -/
theorem toUnsigned_neg_toInt (hNeg : toInt base < 0) :
    toUnsigned (-toInt base) = (-toInt base).toNat := by
  have hRange := toInt_range base
  exact toUnsigned_of_small (by omega) (by omega)

/- An assignment places the value at the base as an `int`. -/
theorem assignVec4Off_eq (hTarget : 0 < sig.bits4.length) (hPart : 0 < val.length)
    (hMask : sig.assignMask = []) (hFlag : flag4 ≠ .one) :
    runScheduled VectorEvent.run (assignVec4Off sig.bits4.length flag4 base val) sig =
      some { sig with
        bits4 := placed sig.bits4 val (toInt base) } := by
  unfold assignVec4Off
  rw [if_neg hFlag]
  by_cases hNothing : toInt base ≤ -val.length ∨ (sig.bits4.length : Int) ≤ toInt base
  · have hPart :
        (sig.bits4.length : Int) ≤ toInt base ∨
          (toInt base < 0 ∧
            val.length ≤ toUnsigned (-toInt base)) := by
      by_cases hNeg : toInt base < 0
      · rw [toUnsigned_neg_toInt hNeg]
        omega
      · omega
    rw [assignPart_nothing hPart, placed_nothing hNothing]
    rfl
  · have hNeg :
        toInt base < 0 →
          toUnsigned (-toInt base) < val.length ∧
          toUnsigned (-toInt base) < val.length := by
      intro h
      rw [toUnsigned_neg_toInt h]
      omega
    have hSkip :
        (if toInt base < 0 then toUnsigned (-toInt base)
          else 0) =
          (-toInt base).toNat := by
      by_cases h : toInt base < 0
      · rw [if_pos h, toUnsigned_neg_toInt h]
      · rw [if_neg h]
        omega
    rw [assignPart_part (by omega) hNeg, hSkip]
    show VectorEvent.run ⟨_, _, _⟩ sig = _
    unfold VectorEvent.run
    rw [if_pos hTarget, SignalVar.recvVec4Pv_free hMask, clip_overwrite (by omega)]

/- A write to a variable at the base as an `int`. -/
theorem signalClips_iff {write : SignalVar → VvpBit4 → List VvpBit4 → Option SignalVar}
    (hTarget : 0 < W) (hTargetSize : W < 2 ^ 31) (hPart : 0 < w) (hPartSize : w < 2 ^ 31) (hWrite :
      ∀ (sig : SignalVar) (flag4 : VvpBit4)
        (val : List VvpBit4),
        sig.bits4.length = W →
        sig.assignMask = [] →
        flag4 ≠ .one →
        val.length = w →
        write sig flag4 val = some { sig with bits4 := placed sig.bits4 val (toInt base) }) :
    PartWrite.SignalClips W w base write ↔
      toInt base = base ∨
      toInt base ≤ -w ∨
      (W : Int) ≤ toInt base := by
  constructor
  · intro hClips
    by_contra hUnsafe
    push Not at hUnsafe
    rcases hUnsafe with ⟨hNe, hLow, hHigh⟩
    have hFar := toInt_ne hNe
    let sig : SignalVar := ⟨replicate W .zero, []⟩
    have hLength : sig.bits4.length = W := length_replicate
    have hValue : (replicate w VvpBit4.one).length = w := length_replicate
    have hZero : VvpBit4.zero ≠ .one := by decide
    have hDoes := hWrite sig .zero _ hLength rfl hZero hValue
    have hMust := hClips sig .zero _ hLength rfl hZero hValue
    rw [hDoes] at hMust
    have hOther : base ≤ -w ∨ (W : Int) ≤ base := by omega
    apply placed_ne hTarget hPart hLow hHigh hOther
    exact congrArg SignalVar.bits4 (Option.some.inj hMust)
  · intro hSafe sig flag4 val hLength hMask hFlag hValue
    rw [hWrite sig flag4 val hLength hMask hFlag hValue]
    by_cases hSame : toInt base = base
    · rw [hSame]
    · have hFar := toInt_ne hSame
      have hThere :
          toInt base ≤ -val.length ∨
            (sig.bits4.length : Int) ≤ toInt base := by
        omega
      have hHere :
          base ≤ -val.length ∨
            (sig.bits4.length : Int) ≤ base := by
        omega
      rw [placed_nothing hThere, placed_nothing hHere]

----
-- Continuous Assignments
----

theorem neg_of_toUnsigned (hNeg : base < 0) : base ≤ -(toUnsigned (-base) : Int) := by
  have hBelow := @toUnsigned_le (-base) (by omega)
  omega

/- What a continuous assignment leaves in the variable. -/
theorem ofCassignVec4Off_eq (hFlag : flag4 ≠ .one)
    (hSafe : 0 ≤ base ∨ val.length ≤ toUnsigned (-base)) :
    ∃ sig',
      ofCassignVec4Off sig flag4 base val = some sig' ∧
      sig'.bits4 = placed sig.bits4 val base := by
  unfold ofCassignVec4Off
  rw [if_neg hFlag]
  by_cases hBelow : base < 0 ∧ val.length ≤ toUnsigned (-base)
  · have hFar := neg_of_toUnsigned hBelow.1
    refine ⟨sig, if_pos hBelow, ?_⟩
    rw [placed_nothing (by omega)]
  · by_cases hAbove : (sig.bits4.length : Int) ≤ base
    · rw [if_neg hBelow, if_pos hAbove]
      refine ⟨sig, rfl, ?_⟩
      rw [placed_nothing (by omega)]
    · have hNonneg : ¬ base < 0 := by omega
      rw [if_neg hBelow, if_neg hAbove]
      simp only [if_neg hNonneg]
      unfold SignalVar.recvVec4PvAssign
      rw [if_neg (not_not_intro rfl)]
      refine ⟨_, rfl, ?_⟩
      by_cases hAll : val.length ≤ sig.bits4.length - base.toNat
      · rw [List.take_of_length_le hAll]
        have hClip := @overwrite_part sig.bits4 val base
          base.toNat 0 val.length (by omega)
          (fun idx hIdx => by omega)
        rw [← eq_subvalue] at hClip
        exact hClip
      · rw [take_eq_subvalue (by omega)]
        exact overwrite_part (by omega) (fun idx hIdx => by omega)

/- The lowest bit of the value, which does not belong there. -/
def lowOne (w : Nat) : List VvpBit4 :=
  .one :: replicate (w - 1) .zero

theorem lowOne_length (hPart : 0 < w) : (lowOne w).length = w := by
  simp only [lowOne, List.length_cons, length_replicate]
  omega

/- With a base below the target it does not get to the target. -/
theorem placed_lowOne (hTarget : 0 < W) (hNeg : base < 0) :
    (placed (replicate W .zero) (lowOne w) base).getD 0 .x = .zero := by
  have hLength : (replicate W VvpBit4.zero).length = W := length_replicate
  have hOld :
      (replicate W VvpBit4.zero).getD 0 .x = .zero := by
    rw [getD_eq_getElem _ _ (by omega), List.getElem_replicate]
  rw [placed_getD (by omega), hOld]
  split
  · next hIn =>
      have hLong : (((0 : Nat) : Int) - base).toNat < (lowOne w).length := by omega
      unfold bitValue
      rw [getD_eq_getElem _ _ hLong]
      simp only [lowOne] at hLong ⊢
      rw [List.getElem_cons, dif_neg (by omega), List.getElem_replicate]
  · rfl

theorem cassign_clips_iff (hTarget : 0 < W) (hPart : 0 < w) :
    PartWrite.Clips .cassignVec4Off W w base ↔
      0 ≤ base ∨ w ≤ toUnsigned (-base) := by
  constructor
  · intro hClips
    by_contra hUnsafe
    push Not at hUnsafe
    rcases hUnsafe with ⟨hNeg, hBelow⟩
    let sig : SignalVar := ⟨replicate W .zero, []⟩
    have hLength : sig.bits4.length = W := length_replicate
    have hZero : VvpBit4.zero ≠ .one := by decide
    have hSize := lowOne_length hPart
    rcases hClips sig .zero (lowOne w) hLength hZero hSize with ⟨sig', hRun, hBits⟩
    have hSeen : sig'.bits4.getD 0 .x = .one := by
      unfold ofCassignVec4Off at hRun
      have hShort : ¬ (W : Int) ≤ base := by omega
      have hReach :
          ¬ (base < 0 ∧
            (lowOne w).length ≤ toUnsigned (-base)) := by
        omega
      rw [if_neg hZero, if_neg hReach, hLength, if_neg hShort] at hRun
      simp only [if_pos hNeg, hSize] at hRun
      unfold SignalVar.recvVec4PvAssign at hRun
      rw [if_neg (not_not_intro hLength)] at hRun
      rw [← Option.some.inj hRun]
      have hBase : base.toNat = 0 := by omega
      obtain ⟨n, hTake⟩ : ∃ n, w - toUnsigned (-base) = n + 1 :=
        ⟨w - toUnsigned (-base) - 1, by omega⟩
      obtain ⟨m, hRoom⟩ : ∃ m, W - base.toNat = m + 1 := ⟨W - base.toNat - 1, by omega⟩
      rw [hTake, hRoom, hBase]
      have hFirst : 0 < sig.bits4.length := by omega
      rw [overwrite_getD VvpBit4.x hFirst]
      rfl
    rw [hBits, placed_lowOne hTarget hNeg] at hSeen
    cases hSeen
  · intro hSafe sig flag4 val hLength hFlag hValue
    apply ofCassignVec4Off_eq hFlag
    rw [hValue]
    exact hSafe

end EpicSim
