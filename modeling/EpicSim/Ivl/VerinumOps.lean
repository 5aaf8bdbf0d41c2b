import EpicSim.Ivl.NetValue
import EpicSim.Ivl.VerinumDivide

/-
  Comparisons of the compiler's numbers, and the ternary
  operator on its constants.

  `constLogical` is the truth of a constant condition, and
  `blended` the value where that truth is not known.
-/

----
-- Operators
----

namespace EpicSim

namespace Verinum

open VerinumV

/- `operator <`. -/
def lt (left right : Verinum) : VerinumV :=
  let signed_calc := left.has_sign && right.has_sign
  let left_pad := if signed_calc then left.get (left.len - 1) else .v0
  let right_pad := if signed_calc then right.get (right.len - 1) else .v0
  if signed_calc && left_pad == .v1 && right_pad == .v0 then .v1
  else if signed_calc && left_pad == .v0 && right_pad == .v1 then
    .v0
  else if (List.range (left.len - right.len)).any (fun k =>
      left.get (left.len - 1 - k) != right_pad) then
    if signed_calc && left_pad == .v1 then .v1 else .v0
  else if (List.range (right.len - left.len)).any (fun k =>
      right.get (right.len - 1 - k) != left_pad) then
    if signed_calc && right_pad == .v1 then .v0 else .v1
  else ltDown left right (min left.len right.len)
where
  /- The common bits, from the top. -/
  ltDown (left right : Verinum) : Nat → VerinumV
  | 0 => .v0
  | idx + 1 =>
    let l := left.get idx
    let r := right.get idx
    if l = .vx ∨ l = .vz ∨ r = .vx ∨ r = .vz then .vx
    else if l = .v1 ∧ r = .v0 then .v0
    else if l = .v0 ∧ r = .v1 then .v1
    else ltDown left right idx

/- `operator ==`. -/
def equalTo (left right : Verinum) : VerinumV :=
  let signed_calc := left.has_sign && right.has_sign
  let left_pad := if signed_calc then left.get (left.len - 1) else .v0
  let right_pad := if signed_calc then right.get (right.len - 1) else .v0
  if signed_calc && left_pad == .v1 && right_pad == .v0 then .v0
  else if signed_calc && left_pad == .v0 && right_pad == .v1 then
    .v0
  else
    .ofBool ((List.range (max left.len right.len)).all fun idx =>
      (if idx < left.len then left.get idx else left_pad) ==
        (if idx < right.len then right.get idx else right_pad))

end Verinum

----
-- Comparisons
----

open TwosComplement

namespace Verinum

variable {left right : Verinum}

theorem ltDown_eq (hLeft : left.Defined) (hRight : right.Defined) {n : Nat}
    (hn : n ≤ min left.len right.len) :
    lt.ltDown left right n =
      if low left.bit n < low right.bit n then .v1 else .v0 := by
  induction n with
  | zero => rfl
  | succ n ih =>
    have hL := low_lt left.bit n
    have hR := low_lt right.bit n
    rw [lt.ltDown, get_of_defined hLeft (by omega),
      get_of_defined hRight (by omega), ih (by omega), low_succ, low_succ]
    cases left.bit n <;> cases right.bit n <;>
      simp only [Bool.toNat_false, Bool.toNat_true, Nat.zero_mul, Nat.one_mul]
    · rfl
    · exact (if_pos (show low left.bit n < low right.bit n + 2 ^ n by omega)).symm
    · exact (if_neg (show ¬low left.bit n + 2 ^ n < low right.bit n by omega)).symm
    · simp only [Nat.add_lt_add_iff_right]
      rfl

theorem value_le_iff_of_sign {signed : Bool} {len : Nat} {a b : Nat → Bool}
    (h : sign signed len a = sign signed len b) :
    value signed len a ≤ value signed len b ↔
      low a len ≤ low b len := by
  unfold value
  rw [h]
  split_ifs <;> omega

theorem sign_of_pos (signed : Bool) {len : Nat} (hLen : 0 < len) (b : Nat → Bool) :
    sign signed len b = (signed && b (len - 1)) := by
  unfold sign
  rw [decide_eq_true hLen, Bool.true_and]

end Verinum

----
-- The Ternary Operator
----

namespace NetExpr

open VerinumV Verinum

/- `const_logical`: `C_0`, `C_1` and `C_X` of a constant. -/
def constLogical : Bits → VerinumV → VerinumV
| [], res => res
| .v1 :: _, _ => .v1
| .v0 :: bits, res => constLogical bits res
| _ :: bits, _ => constLogical bits .vx

/- `blended_arguments_`. -/
def blended (signed : Bool) (t f : Verinum) : Verinum :=
  let rsize := max t.len f.len
  (ofBits ((List.range rsize).map fun idx =>
    let tv := if idx < t.len then t.get idx else .v0
    let fv := if idx < f.len then f.get idx else .v0
    if tv = fv ∧ (tv = .v0 ∨ tv = .v1) then tv else .vx)
    true).withSign signed

end NetExpr

end EpicSim
