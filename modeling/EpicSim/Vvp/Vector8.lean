import EpicSim.Vvp.Scalar
import Mathlib.Data.List.GetD

/-
  Vectors of strength-modelled scalars.

  A vector is the list of its scalars from bit 0 up; the
  empty list is the nil vector of size 0, the value of a
  port that has not been driven yet.
-/

----
-- Vectors
----

namespace EpicSim

/- A vector of scalars, least significant bit first. -/
abbrev VvpVector8 := List VvpScalar

namespace VvpVector8

/- The nil vector. -/
def nil : VvpVector8 := []

/- Number of scalars. -/
def size (a : VvpVector8) : Nat :=
  a.length

/- The scalar at an index inside the vector. -/
def value (a : VvpVector8) (idx : Nat) : VvpScalar :=
  a.getD idx VvpScalar.hiz

/-
  Resolve two vectors of one size, bit by bit.  The source
  asserts that the sizes agree.
-/
def resolve (a b : VvpVector8) : VvpVector8 :=
  List.zipWith VvpScalar.resolve a b

/-
  The `wid` scalars from `base` on; scalars past the end of
  the vector keep the initial HiZ.
-/
def subvalue (a : VvpVector8) (base wid : Nat) : VvpVector8 :=
  (List.range wid).map (fun idx => a.value (base + idx))

/-
  A vector of `wid` HiZ scalars with `that` copied in from
  offset `off` on.
-/
def partExpand (that : VvpVector8) (wid off : Nat) : VvpVector8 :=
  (List.range wid).map (fun idx =>
    if idx < off then VvpScalar.hiz
    else that.value (idx - off))

theorem value_of_lt {a : VvpVector8} {idx : Nat} (h : idx < a.length) : a.value idx = a[idx] :=
  List.getD_eq_getElem _ _ h

@[simp] theorem resolve_length (a b : VvpVector8) :
    (resolve a b).length = min a.length b.length := by
  simp [resolve]

@[simp] theorem resolve_self (a : VvpVector8) : resolve a a = a := by
  induction a with
  | nil => rfl
  | cons s rest ih =>
    have hStep : resolve (s :: rest) (s :: rest) = VvpScalar.resolve s s :: resolve rest rest := rfl
    rw [hStep, ih]
    simp [VvpScalar.resolve]

@[simp] theorem subvalue_length (a : VvpVector8) (base wid : Nat) :
    (subvalue a base wid).length = wid := by
  simp [subvalue]

@[simp] theorem partExpand_length (a : VvpVector8) (wid off : Nat) :
    (partExpand a wid off).length = wid := by
  simp [partExpand]

end VvpVector8

end EpicSim
