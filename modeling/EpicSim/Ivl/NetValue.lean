import EpicSim.Ivl.VerinumArith

/-
  Four-state vectors at run time, and the operators on them.

  A vector is a list of bits, lowest first.  An operand is
  brought to the width of its context by `padTo`; arithmetic
  on a vector with an `x` or `z` bit gives `x` everywhere.
-/

----
-- Vectors
----

namespace EpicSim

/- A four-state vector, lowest bit first. -/
abbrev Bits := List VerinumV

namespace Bits

open VerinumV

/- The vector as a sized number. -/
def toVerinum (signed : Bool) (bits : Bits) : Verinum where
  bits := bits
  has_len := true
  has_sign := signed
  is_single := false

/- Every bit is 0 or 1. -/
def Defined (bits : Bits) : Prop :=
  (toVerinum false bits).isDefined = true

instance (bits : Bits) : Decidable bits.Defined :=
  inferInstanceAs (Decidable (_ = true))

/- The unsigned value. -/
def number (bits : Bits) : Nat := (toVerinum false bits).number

/- The value under a sign. -/
def integer (signed : Bool) (bits : Bits) : Int :=
  (toVerinum signed bits).integer

/- The top bit, 0 where there is none. -/
def top (bits : Bits) : VerinumV :=
  bits.getD (bits.length - 1) .v0

/- The vector cut or extended to a width. -/
def padTo (signed : Bool) (width : Nat) (bits : Bits) : Bits :=
  bits.take width ++ List.replicate (width - bits.length) (if signed then bits.top else .v0)

/- The lowest bits of an integer. -/
def ofInt (width : Nat) (n : Int) : Bits :=
  (List.range width).map fun i => .ofBool ((n % 2 ^ width).toNat.testBit i)

/- An unknown vector. -/
def unknown (width : Nat) : Bits := List.replicate width .vx

/- A word operator on operands of the width of the result. -/
def arith (f : Int → Int → Int) (width : Nat) (l r : Bits) : Bits :=
  if l.Defined ∧ r.Defined then
    ofInt width (f l.number r.number)
  else unknown width

/- A relation of two vectors of one width. -/
def compare (p : Int → Int → Bool) (signed : Bool) (l r : Bits) : VerinumV :=
  if l.Defined ∧ r.Defined then
    .ofBool (p (l.integer signed) (r.integer signed))
  else .vx

/- A known bit of the left operand meets the other one. -/
def clash : VerinumV × VerinumV → Bool
| (.v0, .v1) | (.v1, .v0) => true
| _ => false

/- `==`. -/
def equal (l r : Bits) : VerinumV :=
  if (l.zip r).any clash then .v0
  else if l.Defined ∧ r.Defined then .v1
  else .vx

/- `==?`: unknown bits of the right operand match. -/
def wildEqual (l r : Bits) : VerinumV :=
  let cared := (l.zip r).filter fun p => p.2 == .v0 || p.2 == .v1
  if cared.any clash then .v0
  else if Defined (cared.map Prod.fst) then .v1
  else .vx

/- `<<`. -/
def shiftLeft (l : Bits) (n : Nat) : Bits :=
  (List.replicate n v0 ++ l).take l.length

/- `>>`, and `>>>` with the sign as filling. -/
def shiftRight (filling : VerinumV) (l : Bits) (n : Nat) : Bits :=
  l.drop n ++ List.replicate (min n l.length) filling

/- A shift by a vector. -/
def shiftBy (f : Bits → Nat → Bits) (l amount : Bits) : Bits :=
  if amount.Defined then f l amount.number else unknown l.length

/- The bit at an integer place. -/
def bitAt (bits : Bits) (place : Int) : VerinumV :=
  if 0 ≤ place then bits.getD place.toNat .vx else .vx

/- A part select; places outside the vector are unknown. -/
def select (signed : Bool) (width : Nat) (bits base : Bits) : Bits :=
  if base.Defined then
    (List.range width).map fun (i : Nat) => bits.bitAt (base.integer signed + i)
  else unknown width

/- `-` and `m` on one operand. -/
def arithOne (f : Int → Int) (signed : Bool) (width : Nat) (bits : Bits) : Bits :=
  if bits.Defined then ofInt width (f (bits.integer signed))
  else unknown width

/- The truth value of a vector. -/
def logical (bits : Bits) : VerinumV :=
  if bits.any (· == .v1) then .v1
  else if bits.Defined then .v0
  else .vx

/- `&` and `|` on bits. -/
def andBit : VerinumV → VerinumV → VerinumV
| .v0, _ | _, .v0 => .v0
| .v1, .v1 => .v1
| _, _ => .vx

def orBit : VerinumV → VerinumV → VerinumV
| .v1, _ | _, .v1 => .v1
| .v0, .v0 => .v0
| _, _ => .vx

def xorBit : VerinumV → VerinumV → VerinumV
| .v0, .v0 | .v1, .v1 => .v0
| .v0, .v1 | .v1, .v0 => .v1
| _, _ => .vx

/- Where two vectors agree on a known bit. -/
def blend (t f : Bits) : Bits :=
  t.zipWith (fun a b => if a = b ∧ (a = .v0 ∨ a = .v1) then a else .vx) f

----
-- Vectors As Numbers
----

open Verinum TwosComplement

/- A bit of a two-state vector. -/
def bit (bits : Bits) : Nat → Bool := (toVerinum false bits).bit

variable {bits : Bits}

theorem hasBits_of_defined (h : bits.Defined) (signed : Bool) :
    (toVerinum signed bits).HasBits bits.length bits.bit :=
  hasBits_self h

theorem integer_fits (signed : Bool) (bits : Bits) :
    Fits signed bits.length (bits.integer signed) :=
  value_fits _ _ _

theorem number_modEq (signed : Bool) (bits : Bits) :
    (bits.number : Int) ≡ bits.integer signed [ZMOD 2 ^ bits.length] :=
  low_modEq_value _ _ _

@[simp] theorem length_padTo (signed : Bool) (width : Nat) (bits : Bits) :
    (bits.padTo signed width).length = width := by
  unfold padTo
  rw [List.length_append, List.length_take, List.length_replicate]
  omega

@[simp] theorem length_ofInt (width : Nat) (n : Int) : (ofInt width n).length = width := by
  unfold ofInt
  rw [List.length_map, List.length_range]

@[simp] theorem length_unknown (width : Nat) :
    (unknown width).length = width := List.length_replicate

@[simp] theorem length_arith (f : Int → Int → Int) (width : Nat) (l r : Bits) :
    (arith f width l r).length = width := by
  unfold arith
  split_ifs
  · exact length_ofInt _ _
  · exact length_unknown _

@[simp] theorem length_arithOne (f : Int → Int) (signed : Bool) (width : Nat) (bits : Bits) :
    (arithOne f signed width bits).length = width := by
  unfold arithOne
  split_ifs
  · exact length_ofInt _ _
  · exact length_unknown _

@[simp] theorem length_select (signed : Bool) (width : Nat) (bits base : Bits) :
    (select signed width bits base).length = width := by
  unfold select
  split_ifs
  · rw [List.length_map, List.length_range]
  · exact length_unknown _

@[simp] theorem length_shiftBy
    {f : Bits → Nat → Bits} (hLength : ∀ l n, (f l n).length = l.length) (l amount : Bits) :
    (shiftBy f l amount).length = l.length := by
  unfold shiftBy
  split_ifs
  · exact hLength l _
  · exact length_unknown _

theorem length_shiftLeft (l : Bits) (n : Nat) : (shiftLeft l n).length = l.length := by
  unfold shiftLeft
  rw [List.length_take, List.length_append]
  omega

theorem length_shiftRight (filling : VerinumV) (l : Bits) (n : Nat) :
    (shiftRight filling l n).length = l.length := by
  unfold shiftRight
  rw [List.length_append, List.length_drop, List.length_replicate]
  omega

/- Padding continues a two-state vector by its sign. -/
theorem hasBits_padTo (h : bits.Defined) (signed signed' : Bool) (width : Nat) :
    (toVerinum signed' (bits.padTo signed width)).HasBits width
      (extended signed bits.length bits.bit) := by
  refine ⟨length_padTo signed width bits, fun idx hIdx => ?_⟩
  have hSelf := hasBits_of_defined h false
  have hTake : (bits.take width).length = min width bits.length := List.length_take
  change (bits.padTo signed width).getD idx .vx = _
  unfold padTo
  by_cases hLt : idx < bits.length
  · rw [List.getD_append _ _ _ _ (by omega), List.getD_eq_getElem _ _ (by omega),
      List.getElem_take, extended_of_lt hLt, ← hSelf.get_eq idx hLt]
    exact (List.getD_eq_getElem bits .vx hLt).symm
  · rw [List.getD_append_right _ _ _ _ (by omega),
      List.getD_replicate _ (by omega), extended_of_le (Nat.le_of_not_lt hLt)]
    unfold sign top
    cases signed with
    | false => rfl
    | true =>
      rcases Nat.eq_zero_or_pos bits.length with hNil | hPos
      · rw [List.length_eq_zero_iff.mp hNil]
        rfl
      · have hTop : bits.length - 1 < bits.length := by omega
        rw [decide_eq_true hPos, Bool.true_and, Bool.true_and, ← hSelf.get_eq _ hTop]
        change bits.getD (bits.length - 1) .v0 = bits.getD (bits.length - 1) .vx
        rw [List.getD_eq_getElem _ _ hTop, List.getD_eq_getElem _ _ hTop]

theorem defined_padTo (h : bits.Defined) (signed : Bool) (width : Nat) :
    (bits.padTo signed width).Defined :=
  (hasBits_padTo h signed false width).defined

/- What is left of the value modulo the new width. -/
theorem number_padTo (h : bits.Defined) (signed : Bool) (width : Nat) :
    ((bits.padTo signed width).number : Int) ≡ bits.integer signed [ZMOD 2 ^ width] := by
  have hBits := (hasBits_padTo h signed false width).number
  change (bits.padTo signed width).number = _ at hBits
  rw [hBits]
  exact low_extended_modEq _ _ _ _

/- Padding by the own sign keeps the value. -/
theorem integer_padTo (h : bits.Defined) {signed : Bool} {width : Nat} (hLe : bits.length ≤ width) :
    (bits.padTo signed width).integer signed = bits.integer signed := by
  have hBits := (hasBits_padTo h signed signed width).integer
  change (bits.padTo signed width).integer signed = _ at hBits
  rw [hBits]
  exact (value_eq_iff (low_extended_modEq _ _ _ _)).mpr ((integer_fits signed bits).mono hLe)

theorem hasBits_ofInt (signed : Bool) (width : Nat) (n : Int) :
    (toVerinum signed (ofInt width n)).HasBits width (n % 2 ^ width).toNat.testBit :=
  hasBits_of_map rfl

theorem defined_ofInt (width : Nat) (n : Int) : (ofInt width n).Defined :=
  (hasBits_ofInt false width n).defined

theorem number_ofInt (width : Nat) (n : Int) : ((ofInt width n).number : Int) = n % 2 ^ width := by
  have hPos : (0 : Int) < 2 ^ width := by exact_mod_cast Nat.two_pow_pos width
  have hBits := (hasBits_ofInt false width n).number
  change (ofInt width n).number = _ at hBits
  have hLt : (n % 2 ^ width).toNat < 2 ^ width := by
    have hCast := cast_two_pow width
    omega
  rw [hBits, low_testBit, Nat.mod_eq_of_lt hLt, Int.toNat_of_nonneg (Int.emod_nonneg n hPos.ne')]

/- The lowest bits of `n` denote `m`. -/
theorem integer_ofInt_iff {signed : Bool} {width : Nat} {n m : Int} :
    (ofInt width n).integer signed = m ↔
      n ≡ m [ZMOD 2 ^ width] ∧ Fits signed width m := by
  have hNumber : ((ofInt width n).number : Int) ≡ n [ZMOD 2 ^ width] := by
    rw [number_ofInt]
    exact Int.mod_modEq n _
  have hLow := number_modEq signed (ofInt width n)
  have hFits := integer_fits signed (ofInt width n)
  rw [length_ofInt] at hLow hFits
  constructor
  · intro hEq
    rw [hEq] at hLow hFits
    exact ⟨hNumber.symm.trans hLow, hFits⟩
  · rintro ⟨hMod, hM⟩
    exact hFits.eq hM (hLow.symm.trans (hNumber.trans hMod))

theorem arith_of_defined (f : Int → Int → Int) (width : Nat) {l r : Bits} (hL : l.Defined)
    (hR : r.Defined) : arith f width l r = ofInt width (f l.number r.number) :=
  if_pos ⟨hL, hR⟩

end Bits

end EpicSim
