import Mathlib.Data.Int.ModEq
import Mathlib.Data.Nat.Bitwise
import Mathlib.Tactic.Ring

/-
  Numbers of many words, least significant word first.

  The loops of multi-word arithmetic are recursions over the
  words; each is specified by the number of its result.
-/

----
-- Numbers
----

namespace Limbs

variable {w : Nat}

/- The number of a list of words. -/
def toNat : List (BitVec w) → Nat
| [] => 0
| x :: xs => x.toNat + 2 ^ w * toNat xs

@[simp] theorem toNat_nil : toNat ([] : List (BitVec w)) = 0 := rfl

@[simp] theorem toNat_cons (x : BitVec w) (xs : List (BitVec w)) :
    toNat (x :: xs) = x.toNat + 2 ^ w * toNat xs :=
  rfl

theorem toNat_append (xs ys : List (BitVec w)) :
    toNat (xs ++ ys) = toNat xs + 2 ^ (w * xs.length) * toNat ys := by
  induction xs with
  | nil => simp
  | cons x xs ih =>
    rw [List.cons_append, toNat_cons, ih, toNat_cons, List.length_cons]
    ring

theorem toNat_lt (xs : List (BitVec w)) : toNat xs < 2 ^ (w * xs.length) := by
  induction xs with
  | nil => simp
  | cons x xs ih =>
    rw [List.length_cons, Nat.mul_add, Nat.mul_one,
      pow_add, Nat.mul_comm (2 ^ (w * xs.length))]
    calc
      x.toNat + 2 ^ w * toNat xs
        < 2 ^ w + 2 ^ w * toNat xs := by omega
      _ = 2 ^ w * (toNat xs + 1) := by ring
      _ ≤ 2 ^ w * 2 ^ (w * xs.length) := Nat.mul_le_mul_left _ ih

@[simp] theorem toNat_replicate_zero (n : Nat) : toNat (List.replicate n (0#w)) = 0 := by
  induction n with
  | zero => rfl
  | succ n ih => simp [List.replicate_succ, ih]

/- The low words are a remainder, the high ones a quotient. -/
theorem toNat_take (n : Nat) (xs : List (BitVec w)) :
    toNat (xs.take n) = toNat xs % 2 ^ (w * n) := by
  rcases Nat.le_total xs.length n with hLong | hShort
  · rw [List.take_of_length_le hLong, Nat.mod_eq_of_lt]
    exact Nat.lt_of_lt_of_le (toNat_lt xs)
      (Nat.pow_le_pow_right (by decide) (Nat.mul_le_mul_left w hLong))
  · have hSplit := toNat_append (xs.take n) (xs.drop n)
    have hLt := toNat_lt (xs.take n)
    rw [List.take_append_drop, List.length_take, Nat.min_eq_left hShort] at hSplit
    rw [List.length_take, Nat.min_eq_left hShort] at hLt
    rw [hSplit, Nat.add_mul_mod_self_left, Nat.mod_eq_of_lt hLt]

theorem toNat_drop (n : Nat) (xs : List (BitVec w)) :
    toNat (xs.drop n) = toNat xs / 2 ^ (w * n) := by
  rcases Nat.le_total xs.length n with hLong | hShort
  · rw [List.drop_of_length_le hLong, eq_comm]
    exact Nat.div_eq_of_lt (Nat.lt_of_lt_of_le (toNat_lt xs)
      (Nat.pow_le_pow_right (by decide) (Nat.mul_le_mul_left w hLong)))
  · have hSplit := toNat_append (xs.take n) (xs.drop n)
    have hLt := toNat_lt (xs.take n)
    rw [List.take_append_drop, List.length_take, Nat.min_eq_left hShort] at hSplit
    rw [List.length_take, Nat.min_eq_left hShort] at hLt
    rw [hSplit, Nat.add_mul_div_left _ _ (Nat.two_pow_pos _), Nat.div_eq_of_lt hLt, Nat.zero_add]

/- A word is a digit of the number. -/
theorem getD_toNat (xs : List (BitVec w)) (n : Nat) :
    (xs.getD n 0#w).toNat = toNat xs / 2 ^ (w * n) % 2 ^ w := by
  rw [← toNat_drop]
  cases hDrop : xs.drop n with
  | nil =>
    have hLong : xs.length ≤ n := by simpa using hDrop
    rw [List.getD_eq_default _ _ hLong]
    simp
  | cons y ys =>
    have hGet : xs[n]? = some y := by
      rw [← List.head?_drop, hDrop]
      rfl
    rw [List.getD_eq_getElem?_getD, hGet, Option.getD_some,
      toNat_cons, Nat.add_mul_mod_self_left, Nat.mod_eq_of_lt y.isLt]

/- One more word of a prefix. -/
theorem toNat_take_succ (n : Nat) (xs : List (BitVec w)) :
    toNat (xs.take (n + 1)) = toNat (xs.take n) + 2 ^ (w * n) * (xs.getD n 0#w).toNat := by
  rw [toNat_take, toNat_take, getD_toNat, Nat.mul_succ, pow_add, Nat.mod_mul]

variable {xs : List (BitVec w)}

/- Words that are the digits of a number make it up. -/
theorem toNat_of_digits {n : Nat} (hLt : n < 2 ^ (w * xs.length))
    (hDigits : ∀ i < xs.length, (xs.getD i 0#w).toNat = n / 2 ^ (w * i) % 2 ^ w) :
    toNat xs = n := by
  have hPrefix : ∀ k ≤ xs.length,
      toNat (xs.take k) = n % 2 ^ (w * k) := by
    intro k hK
    induction k with
    | zero => simp [Nat.mod_one]
    | succ k ih =>
      rw [toNat_take_succ, ih (Nat.le_of_succ_le hK),
        hDigits k hK, Nat.mul_succ, pow_add, Nat.mod_mul]
  have hAll := hPrefix xs.length (Nat.le_refl _)
  rwa [List.take_length, Nat.mod_eq_of_lt hLt] at hAll

/- Words put above the low words of a number. -/
theorem toNat_above {i : Nat} (hPlace : i ≤ xs.length)
    (ys : List (BitVec w)) :
    toNat (xs.take i ++ ys) % 2 ^ (w * i) = toNat xs % 2 ^ (w * i) ∧
      toNat (xs.take i ++ ys) / 2 ^ (w * i) = toNat ys := by
  have hLow : toNat xs % 2 ^ (w * i) < 2 ^ (w * i) := Nat.mod_lt _ (Nat.two_pow_pos _)
  rw [toNat_append, List.length_take, Nat.min_eq_left hPlace, toNat_take, Nat.add_mul_mod_self_left,
    Nat.mod_mod, Nat.add_mul_div_left _ _ (Nat.two_pow_pos _), Nat.div_eq_of_lt hLow, Nat.zero_add]
  exact ⟨rfl, rfl⟩

theorem testBit_toNat (hw : 0 < w) (xs : List (BitVec w)) (i : Nat) :
    (toNat xs).testBit i = (xs.getD (i / w) 0#w).getLsbD (i % w) := by
  have hOff : i % w < w := Nat.mod_lt i hw
  have hIdx : w * (i / w) + i % w = i := Nat.div_add_mod i w
  rw [BitVec.getLsbD, getD_toNat, Nat.testBit_mod_two_pow, Nat.testBit_div_two_pow,
    decide_eq_true hOff, Bool.true_and, Nat.add_comm, hIdx]

/- A word that is replaced changes the number by itself. -/
theorem toNat_set {n : Nat} (h : n < xs.length) (x : BitVec w) :
    toNat (xs.set n x) + 2 ^ (w * n) * (xs.getD n 0#w).toNat =
      toNat xs + 2 ^ (w * n) * x.toNat := by
  induction xs generalizing n with
  | nil => cases h
  | cons y ys ih =>
    cases n with
    | zero =>
      simp only [List.set_cons_zero, toNat_cons, List.getD_cons_zero,
        Nat.mul_zero]
      omega
    | succ n =>
      have hShort : n < ys.length := by simpa using h
      have hRest := ih hShort
      simp only [Nat.mul_add, Nat.mul_one, pow_add]
      calc
        y.toNat + 2 ^ w * toNat (ys.set n x) + 2 ^ (w * n) * 2 ^ w * (ys.getD n 0#w).toNat
          = y.toNat + 2 ^ w * (toNat (ys.set n x) + 2 ^ (w * n) * (ys.getD n 0#w).toNat) := by ring
        _ = y.toNat + 2 ^ w * (toNat ys +
              2 ^ (w * n) * x.toNat) := by rw [hRest]
        _ = y.toNat + 2 ^ w * toNat ys +
              2 ^ (w * n) * 2 ^ w * x.toNat := by ring

end Limbs

----
-- Addition
----

namespace Limbs

variable {w : Nat}

/- A step that adds two words and a carry of zero or one. -/
structure Adder (step :
      BitVec w → BitVec w → BitVec w →
        BitVec w × BitVec w) : Prop where
  sum :
    ∀ a b carry, carry.toNat ≤ 1 →
      (step a b carry).1.toNat + 2 ^ w * (step a b carry).2.toNat = a.toNat + b.toNat + carry.toNat
  carry : ∀ a b carry, carry.toNat ≤ 1 → (step a b carry).2.toNat ≤ 1

/- Add word by word, with the carry left at the end. -/
def ripple (step : BitVec w → BitVec w → BitVec w → BitVec w × BitVec w) :
    List (BitVec w) → List (BitVec w) → BitVec w → List (BitVec w) × BitVec w
| a :: as, b :: bs, carry =>
  let next := step a b carry
  let rest := ripple step as bs next.2
  (next.1 :: rest.1, rest.2)
| _, _, carry => ([], carry)

theorem ripple_length (step : BitVec w → BitVec w → BitVec w → BitVec w × BitVec w)
    (as bs : List (BitVec w)) (carry : BitVec w) (h : as.length = bs.length) :
    (ripple step as bs carry).1.length = as.length := by
  induction as generalizing bs carry with
  | nil => simp [ripple]
  | cons a as ih =>
    cases bs with
    | nil => cases h
    | cons b bs =>
      have hRest : as.length = bs.length := by simpa using h
      simp [ripple, ih bs _ hRest]

variable {step : BitVec w → BitVec w → BitVec w → BitVec w × BitVec w} {carry : BitVec w}

theorem ripple_spec
    (hStep : Adder step) {as bs : List (BitVec w)}
    (h : as.length = bs.length) (hCarry : carry.toNat ≤ 1) :
    toNat (ripple step as bs carry).1 + 2 ^ (w * as.length) * (ripple step as bs carry).2.toNat =
      toNat as + toNat bs + carry.toNat := by
  induction as generalizing bs carry with
  | nil =>
    cases bs with
    | nil => simp [ripple]
    | cons b bs => cases h
  | cons a as ih =>
    cases bs with
    | nil => cases h
    | cons b bs =>
      have hRest : as.length = bs.length := by simpa using h
      have hWord := hStep.sum a b carry hCarry
      have hNext := hStep.carry a b carry hCarry
      have hTail := ih hRest hNext
      simp only [ripple, List.length_cons, Nat.mul_add, Nat.mul_one, pow_add]
      generalize step a b carry = next at *
      generalize ripple step as bs next.2 = rest at *
      calc
        next.1.toNat + 2 ^ w * toNat rest.1 + 2 ^ (w * as.length) * 2 ^ w * rest.2.toNat
          = next.1.toNat + 2 ^ w * (toNat rest.1 + 2 ^ (w * as.length) * rest.2.toNat) := by ring
        _ = next.1.toNat + 2 ^ w * (toNat as + toNat bs +
              next.2.toNat) := by rw [hTail]
        _ = (next.1.toNat + 2 ^ w * next.2.toNat) +
              2 ^ w * (toNat as + toNat bs) := by ring
        _ = a.toNat + b.toNat + carry.toNat +
              2 ^ w * (toNat as + toNat bs) := by rw [hWord]
        _ = a.toNat + 2 ^ w * toNat as +
              (b.toNat + 2 ^ w * toNat bs) +
                carry.toNat := by ring

/- Without the last carry the sum is taken modulo its range. -/
theorem ripple_mod
    (hStep : Adder step) {as bs : List (BitVec w)}
    (h : as.length = bs.length) (hCarry : carry.toNat ≤ 1) :
    toNat (ripple step as bs carry).1 =
      (toNat as + toNat bs + carry.toNat) % 2 ^ (w * as.length) := by
  have hSpec := ripple_spec hStep h hCarry
  have hLt := toNat_lt (ripple step as bs carry).1
  rw [ripple_length step as bs carry h] at hLt
  rw [← hSpec, Nat.add_mul_mod_self_left, Nat.mod_eq_of_lt hLt]

/- Add two words to those from a place on. -/
def addAt (step : BitVec w → BitVec w → BitVec w → BitVec w × BitVec w)
    (pos : Nat) (low hig : BitVec w) (r : List (BitVec w)) : List (BitVec w) :=
  let rest := r.drop pos
  r.take pos ++
    (ripple step rest (([low, hig] ++ List.replicate rest.length 0#w).take rest.length) 0#w).1

theorem length_addAt (step : BitVec w → BitVec w → BitVec w → BitVec w × BitVec w)
    (pos : Nat) (low hig : BitVec w) (r : List (BitVec w)) :
    (addAt step pos low hig r).length = r.length := by
  have hSame : (r.drop pos).length =
      (([low, hig] ++ List.replicate (r.drop pos).length 0#w).take (r.drop pos).length).length := by
    grind
  rw [addAt, List.length_append, ripple_length _ _ _ _ hSame, List.length_take, List.length_drop]
  omega

/- Two words are added at their place, modulo the words. -/
theorem addAt_spec
    (hStep : Adder step) (pos : Nat) (low hig : BitVec w) (r : List (BitVec w)) :
    toNat (addAt step pos low hig r) =
      (toNat r + 2 ^ (w * pos) * (low.toNat + 2 ^ w * hig.toNat)) % 2 ^ (w * r.length) := by
  rcases Nat.le_total r.length pos with hPast | hIn
  · rw [addAt, List.drop_of_length_le hPast, List.take_of_length_le hPast]
    simp only [ripple, List.append_nil]
    have hExp : w * pos = w * r.length + w * (pos - r.length) := by
      rw [← Nat.mul_add, Nat.add_sub_cancel' hPast]
    rw [hExp, pow_add, Nat.mul_assoc, Nat.add_mul_mod_self_left, Nat.mod_eq_of_lt (toNat_lt r)]
  · have hRest : (r.drop pos).length = r.length - pos :=
      List.length_drop
    have hSame : (r.drop pos).length =
        (([low, hig] ++
          List.replicate (r.drop pos).length 0#w).take (r.drop pos).length).length := by grind
    have hLow := toNat_take pos r
    have hTake : (r.take pos).length = pos := by rw [List.length_take, Nat.min_eq_left hIn]
    have hExp : w * r.length = w * pos + w * (r.length - pos) := by
      rw [← Nat.mul_add, Nat.add_sub_cancel' hIn]
    have hCarry : (0#w).toNat ≤ 1 := by
      exact Nat.zero_le 1
    rw [addAt, toNat_append, hTake, ripple_mod hStep hSame hCarry, hRest, hLow,
      toNat_take, toNat_append, toNat_replicate_zero, toNat_drop, hExp, pow_add]
    simp only [toNat_cons, toNat_nil, Nat.mul_zero, Nat.add_zero, BitVec.toNat_zero]
    rw [Nat.add_mod_mod, Nat.mod_mul, Nat.add_mul_mod_self_left,
      Nat.add_mul_div_left _ _ (Nat.two_pow_pos _)]

/- A step that gives the low and the high word of a product. -/
def Multiplier (step : BitVec w → BitVec w → BitVec w × BitVec w) : Prop :=
  ∀ a b, (step a b).1.toNat + 2 ^ w * (step a b).2.toNat = a.toNat * b.toNat

/- Add the products of a word with the first words of a number,
   each at its place. -/
def addRow (step : BitVec w → BitVec w → BitVec w → BitVec w × BitVec w)
    (times : BitVec w → BitVec w → BitVec w × BitVec w)
    (pos : Nat) (x : BitVec w) (ys : List (BitVec w)) (n : Nat)
    (r : List (BitVec w)) : List (BitVec w) :=
  (List.range n).foldl (fun r i =>
    let product := times x (ys.getD i 0#w)
    addAt step (pos + i) product.1 product.2 r) r

theorem addRow_spec
    (hStep : Adder step) {times : BitVec w → BitVec w → BitVec w × BitVec w}
    (hTimes : Multiplier times) (pos : Nat) (x : BitVec w)
    (ys : List (BitVec w)) (n : Nat) (r : List (BitVec w)) :
    (addRow step times pos x ys n r).length = r.length ∧
      toNat (addRow step times pos x ys n r) ≡
        toNat r + 2 ^ (w * pos) * x.toNat * toNat (ys.take n) [MOD 2 ^ (w * r.length)] := by
  induction n with
  | zero =>
    refine ⟨rfl, ?_⟩
    exact Nat.ModEq.refl _
  | succ n ih =>
    rcases ih with ⟨hSize, hSum⟩
    have hTurn : addRow step times pos x ys (n + 1) r =
        addAt step (pos + n) (times x (ys.getD n 0#w)).1
          (times x (ys.getD n 0#w)).2
          (addRow step times pos x ys n r) := by
      unfold addRow
      rw [List.range_succ, List.foldl_append]
      rfl
    rw [hTurn]
    refine ⟨by rw [length_addAt, hSize], ?_⟩
    have hTerm : 2 ^ (w * (pos + n)) *
        (x.toNat * (ys.getD n 0#w).toNat) =
          2 ^ (w * pos) * x.toNat * (2 ^ (w * n) * (ys.getD n 0#w).toNat) := by
      ring
    rw [addAt_spec hStep, hTimes, hSize, toNat_take_succ, hTerm, Nat.mul_add, ← Nat.add_assoc]
    exact (Nat.mod_modEq _ _).trans (hSum.add_right _)

/- Add a row for each of the first words of a number; what is
   past the words of the result is left out. -/
def addRows (step : BitVec w → BitVec w → BitVec w → BitVec w × BitVec w)
    (times : BitVec w → BitVec w → BitVec w × BitVec w) (xs ys : List (BitVec w)) (size n : Nat)
    (r : List (BitVec w)) : List (BitVec w) :=
  (List.range n).foldl (fun r i => addRow step times i (xs.getD i 0#w) ys (size - i) r) r

/- The words left out are a multiple of the range. -/
theorem toNat_take_modEq {ys : List (BitVec w)} {size i : Nat} (hPlace : i ≤ size) :
    2 ^ (w * i) * toNat (ys.take (size - i)) ≡ 2 ^ (w * i) * toNat ys [MOD 2 ^ (w * size)] := by
  have hExp : w * size = w * i + w * (size - i) := by rw [← Nat.mul_add, Nat.add_sub_cancel' hPlace]
  rw [toNat_take, hExp, pow_add]
  exact (Nat.mod_modEq _ _).mul_left' _

theorem addRows_spec
    (hStep : Adder step) {times : BitVec w → BitVec w → BitVec w × BitVec w}
    (hTimes : Multiplier times) (xs ys : List (BitVec w))
    (r : List (BitVec w)) {n : Nat} (hRows : n ≤ r.length) :
    (addRows step times xs ys r.length n r).length = r.length ∧
      toNat (addRows step times xs ys r.length n r) ≡
        toNat r + toNat (xs.take n) * toNat ys [MOD 2 ^ (w * r.length)] := by
  induction n with
  | zero =>
    refine ⟨rfl, ?_⟩
    rw [List.take_zero, toNat_nil, Nat.zero_mul]
    exact Nat.ModEq.refl _
  | succ n ih =>
    rcases ih (Nat.le_of_succ_le hRows) with ⟨hSize, hSum⟩
    have hTurn : addRows step times xs ys r.length (n + 1) r =
        addRow step times n (xs.getD n 0#w) ys (r.length - n)
          (addRows step times xs ys r.length n r) := by
      unfold addRows
      rw [List.range_succ, List.foldl_append]
      rfl
    have hRow := addRow_spec hStep hTimes n (xs.getD n 0#w) ys
      (r.length - n) (addRows step times xs ys r.length n r)
    rw [← hTurn, hSize] at hRow
    refine ⟨hRow.1, hRow.2.trans ?_⟩
    have hAll := (@toNat_take_modEq w ys r.length n
      (Nat.le_of_succ_le hRows)).mul_left (xs.getD n 0#w).toNat
    have hSwap : ∀ y, 2 ^ (w * n) * (xs.getD n 0#w).toNat * y =
        (xs.getD n 0#w).toNat * (2 ^ (w * n) * y) := by
      intro y
      ring
    rw [toNat_take_succ, Nat.add_mul, ← Nat.add_assoc, hSwap]
    rw [← hSwap, ← hSwap] at hAll
    rw [← hSwap]
    exact hSum.add hAll

/- Adding to the words from a place on. -/
theorem ripple_at
    (hStep : Adder step) {xs ys : List (BitVec w)} {i : Nat}
    (hPlace : i ≤ xs.length) (h : ys.length = xs.length - i)
    (hCarry : carry.toNat ≤ 1) :
    toNat (xs.take i ++ (ripple step (xs.drop i) ys carry).1) +
        2 ^ (w * xs.length) * (ripple step (xs.drop i) ys carry).2.toNat =
      toNat xs + 2 ^ (w * i) * (toNat ys + carry.toNat) := by
  have hSame : (xs.drop i).length = ys.length := by rw [List.length_drop, h]
  have hSpec := ripple_spec hStep hSame hCarry
  have hSplit := Nat.mod_add_div (toNat xs) (2 ^ (w * i))
  have hExp : 2 ^ (w * xs.length) = 2 ^ (w * i) * 2 ^ (w * (xs.length - i)) := by
    rw [← pow_add, ← Nat.mul_add, Nat.add_sub_cancel' hPlace]
  rw [toNat_append, List.length_take, Nat.min_eq_left hPlace,
    toNat_take, hExp, Nat.add_assoc, Nat.mul_assoc, ← Nat.mul_add]
  rw [List.length_drop, toNat_drop] at hSpec
  rw [hSpec, Nat.add_assoc, Nat.mul_add, ← Nat.add_assoc, hSplit]

theorem toNat_complement (xs : List (BitVec w)) :
    toNat (xs.map (fun x => ~~~x)) + toNat xs + 1 = 2 ^ (w * xs.length) := by
  induction xs with
  | nil => simp
  | cons x xs ih =>
    rw [List.map_cons, toNat_cons, toNat_cons, List.length_cons,
      Nat.mul_add, Nat.mul_one, pow_add, BitVec.toNat_not, ← ih]
    generalize toNat (xs.map (fun x => ~~~x)) = ys
    grind

/- The negative of a number, modulo its range. -/
theorem toNat_negate
    (hStep : Adder step) (hw : 0 < w) {n : Nat} {xs : List (BitVec w)} (h : xs.length = n) :
    (ripple step (List.replicate n 0#w) (xs.map (fun x => ~~~x)) 1#w).1.length = n ∧
      toNat (ripple step (List.replicate n 0#w)
        (xs.map (fun x => ~~~x)) 1#w).1 = (2 ^ (w * n) - toNat xs) % 2 ^ (w * n) := by
  have hSame : (List.replicate n 0#w).length = (xs.map (fun x => ~~~x)).length := by
    rw [List.length_replicate, List.length_map, h]
  have hOne : (1#w).toNat = 1 := by
    exact Nat.mod_eq_of_lt (Nat.one_lt_two_pow (by omega))
  have hFlip := toNat_complement xs
  rw [h] at hFlip
  constructor
  · rw [ripple_length _ _ _ _ hSame, List.length_replicate]
  · rw [ripple_mod hStep hSame (by omega), toNat_replicate_zero, List.length_replicate]
    congr 1
    omega

end Limbs

----
-- Comparison
----

namespace Limbs

variable {w : Nat}

/-
  Compare from the most significant of `n` words, reading
  zero past an end, with the answers for each outcome.
-/
def compareDown {α : Type*} (greater less equal : α) (as bs : List (BitVec w)) : Nat → α
| 0 => equal
| n + 1 =>
  let aw := as.getD n 0#w
  let bw := bs.getD n 0#w
  if bw < aw then greater
  else if aw < bw then less
  else compareDown greater less equal as bs n

theorem mod_pow_succ (x n : Nat) :
    x % 2 ^ (w * (n + 1)) = x % 2 ^ (w * n) + 2 ^ (w * n) * (x / 2 ^ (w * n) % 2 ^ w) := by
  rw [Nat.mul_add, Nat.mul_one, pow_add, Nat.mod_mul]

theorem compareDown_mod {α : Type*} (greater less equal : α) (as bs : List (BitVec w)) (n : Nat) :
    compareDown greater less equal as bs n =
      if toNat bs % 2 ^ (w * n) < toNat as % 2 ^ (w * n) then
        greater
      else if toNat as % 2 ^ (w * n) < toNat bs % 2 ^ (w * n) then less
      else equal := by
  induction n with
  | zero => simp [compareDown, Nat.mod_one]
  | succ n ih =>
    have hA : toNat as % 2 ^ (w * n) < 2 ^ (w * n) := Nat.mod_lt _ (Nat.two_pow_pos _)
    have hB : toNat bs % 2 ^ (w * n) < 2 ^ (w * n) := Nat.mod_lt _ (Nat.two_pow_pos _)
    rw [mod_pow_succ, mod_pow_succ]
    simp only [compareDown, BitVec.lt_def, getD_toNat, ih]
    generalize toNat as / 2 ^ (w * n) % 2 ^ w = x
    generalize toNat bs / 2 ^ (w * n) % 2 ^ w = y
    generalize toNat as % 2 ^ (w * n) = a at *
    generalize toNat bs % 2 ^ (w * n) = b at *
    generalize 2 ^ (w * n) = p at *
    rcases Nat.lt_trichotomy x y with hLt | rfl | hGt
    · have hMul : p * x + p ≤ p * y := by
        have := Nat.mul_le_mul_left p hLt
        rwa [Nat.mul_succ] at this
      rw [if_neg (by omega), if_pos hLt, if_neg (by omega), if_pos (by omega)]
    · simp
    · have hMul : p * y + p ≤ p * x := by
        have := Nat.mul_le_mul_left p hGt
        rwa [Nat.mul_succ] at this
      rw [if_pos hGt, if_pos (by omega)]

/- When all words are read the numbers are compared. -/
theorem compareDown_spec {α : Type*} (greater less equal : α) {as bs : List (BitVec w)}
    {n : Nat} (hA : as.length ≤ n) (hB : bs.length ≤ n) :
    compareDown greater less equal as bs n =
      if toNat bs < toNat as then greater
      else if toNat as < toNat bs then less
      else equal := by
  have hFits : ∀ xs : List (BitVec w), xs.length ≤ n →
      toNat xs % 2 ^ (w * n) = toNat xs := by
    intro xs hLength
    exact Nat.mod_eq_of_lt (Nat.lt_of_lt_of_le (toNat_lt xs)
      (Nat.pow_le_pow_right (by decide) (Nat.mul_le_mul_left w hLength)))
  rw [compareDown_mod, hFits as hA, hFits bs hB]

/-
  Compare from the least significant word on: the last pair
  of words that differ gives the answer.
-/
def compareUp {α : Type*} (greater less : α) : α → List (BitVec w) → List (BitVec w) → α
| acc, a :: as, b :: bs =>
  compareUp greater less (if a = b then acc else if a < b then less else greater) as bs
| acc, _, _ => acc

theorem compareUp_spec {α : Type*} (greater less : α) (as : List (BitVec w)) :
    ∀ (acc : α) (bs : List (BitVec w)),
      as.length = bs.length →
      compareUp greater less acc as bs =
        if toNat as < toNat bs then less
        else if toNat bs < toNat as then greater
        else acc := by
  induction as with
  | nil =>
    intro acc bs hLength
    rw [List.eq_nil_of_length_eq_zero hLength.symm]
    simp [compareUp]
  | cons a as ih =>
    intro acc bs hLength
    cases bs with
    | nil => cases hLength
    | cons b bs =>
      have hRest : as.length = bs.length := Nat.succ.inj hLength
      have hA := a.isLt
      have hB := b.isLt
      unfold compareUp
      rw [ih _ bs hRest, toNat_cons, toNat_cons]
      simp only [BitVec.lt_def, ← BitVec.toNat_inj]
      generalize toNat as = m
      generalize toNat bs = n
      generalize a.toNat = x at *
      generalize b.toNat = y at *
      generalize 2 ^ w = p at *
      rcases Nat.lt_trichotomy m n with hLt | rfl | hGt
      · have hMul : p * m + p ≤ p * n := by
          have hLe := Nat.mul_le_mul_left p hLt
          rwa [Nat.mul_succ] at hLe
        rw [if_pos hLt, if_pos (by omega)]
      · split_ifs <;> first | rfl | omega
      · have hMul : p * n + p ≤ p * m := by
          have hLe := Nat.mul_le_mul_left p hGt
          rwa [Nat.mul_succ] at hLe
        rw [if_neg (by omega), if_pos hGt, if_neg (by omega), if_pos (by omega)]

theorem toNat_eq_zero_iff (xs : List (BitVec w)) : toNat xs = 0 ↔ ∀ x ∈ xs, x = 0#w := by
  induction xs with
  | nil => simp
  | cons x xs ih =>
    have hPos : 2 ^ w ≠ 0 := (Nat.two_pow_pos w).ne'
    rw [toNat_cons, Nat.add_eq_zero_iff, Nat.mul_eq_zero]
    simp only [hPos, false_or, ih, List.forall_mem_cons,
      ← BitVec.toNat_inj, BitVec.toNat_ofNat, Nat.zero_mod]

end Limbs

----
-- Shifts Within Words
----

namespace Limbs

variable {w : Nat}

/- Shift up by less than a word, with bits to shift in. -/
def shiftUp (off : Nat) : BitVec w → List (BitVec w) → List (BitVec w)
| _, [] => []
| pad, x :: xs => (x <<< off ||| pad) :: shiftUp off (x >>> (w - off)) xs

@[simp] theorem shiftUp_length (off : Nat) (pad : BitVec w) (xs : List (BitVec w)) :
    (shiftUp off pad xs).length = xs.length := by
  induction xs generalizing pad with
  | nil => rfl
  | cons x xs ih => simp [shiftUp, ih]

theorem shiftUp_spec {off : Nat} (hOff : off ≤ w) {pad : BitVec w} (hPad : pad.toNat < 2 ^ off)
    (xs : List (BitVec w)) :
    toNat (shiftUp off pad xs) = (toNat xs * 2 ^ off + pad.toNat) % 2 ^ (w * xs.length) := by
  induction xs generalizing pad with
  | nil => simp [shiftUp, Nat.mod_one]
  | cons x xs ih =>
    have hSplit : 2 ^ w = 2 ^ (w - off) * 2 ^ off := by rw [← pow_add, Nat.sub_add_cancel hOff]
    -- the bits that stay in the word, and those that leave it
    have hWord : (x <<< off ||| pad).toNat = x.toNat % 2 ^ (w - off) * 2 ^ off + pad.toNat := by
      rw [BitVec.toNat_or, BitVec.toNat_shiftLeft, Nat.shiftLeft_eq, hSplit,
        Nat.mul_mod_mul_right, ← Nat.shiftLeft_eq, ← Nat.shiftLeft_add_eq_or_of_lt hPad]
    have hOut : (x >>> (w - off)).toNat = x.toNat / 2 ^ (w - off) := by
      rw [BitVec.toNat_ushiftRight, Nat.shiftRight_eq_div_pow]
    have hNext : (x >>> (w - off)).toNat < 2 ^ off := by
      rw [hOut, Nat.div_lt_iff_lt_mul (Nat.two_pow_pos _), Nat.mul_comm, ← hSplit]
      exact x.isLt
    have hTotal :
        (x.toNat % 2 ^ (w - off) * 2 ^ off + pad.toNat) +
            2 ^ w * (toNat xs * 2 ^ off + x.toNat / 2 ^ (w - off)) =
          (x.toNat + 2 ^ w * toNat xs) * 2 ^ off + pad.toNat := by
      have hDiv := Nat.mod_add_div x.toNat (2 ^ (w - off))
      calc
        _ = (x.toNat % 2 ^ (w - off) + 2 ^ (w - off) * (x.toNat / 2 ^ (w - off))) * 2 ^ off +
            pad.toNat + 2 ^ w * toNat xs * 2 ^ off := by
            rw [hSplit]
            ring
        _ = _ := by
            rw [hDiv]
            ring
    have hSmall :
        x.toNat % 2 ^ (w - off) * 2 ^ off + pad.toNat < 2 ^ w := by
      rw [← hWord]
      exact BitVec.isLt _
    rw [shiftUp, toNat_cons, hWord, ih hNext, hOut, toNat_cons, ← hTotal,
      List.length_cons, Nat.mul_succ, Nat.add_comm (w * xs.length), pow_add]
    rw [Nat.mod_mul, Nat.add_mul_mod_self_left, Nat.mod_eq_of_lt hSmall,
      Nat.add_mul_div_left _ _ (Nat.two_pow_pos w), Nat.div_eq_of_lt hSmall, Nat.zero_add]

/-
  Shift down by less than a word, from the most significant
  word on; the second part is what leaves the first word.
-/
def shiftDown (off : Nat) : List (BitVec w) → List (BitVec w) × BitVec w
| [] => ([], 0#w)
| x :: xs =>
  let rest := shiftDown off xs
  ((rest.2 ||| x >>> off) :: rest.1, x <<< (w - off))

@[simp] theorem shiftDown_length (off : Nat) (xs : List (BitVec w)) :
    (shiftDown off xs).1.length = xs.length := by
  induction xs with
  | nil => rfl
  | cons x xs ih => simp [shiftDown, ih]

theorem shiftDown_spec {off : Nat} (hOff : off ≤ w) (xs : List (BitVec w)) :
    toNat (shiftDown off xs).1 = toNat xs / 2 ^ off ∧
      (shiftDown off xs).2.toNat = toNat xs % 2 ^ off * 2 ^ (w - off) := by
  have hSplit : 2 ^ w = 2 ^ off * 2 ^ (w - off) := by rw [← pow_add, Nat.add_sub_cancel' hOff]
  induction xs with
  | nil => simp [shiftDown]
  | cons x xs ih =>
    rcases ih with ⟨hRest, hPad⟩
    have hLow : (x >>> off).toNat = x.toNat / 2 ^ off := by
      rw [BitVec.toNat_ushiftRight, Nat.shiftRight_eq_div_pow]
    have hLowLt : x.toNat / 2 ^ off < 2 ^ (w - off) := by
      rw [Nat.div_lt_iff_lt_mul (Nat.two_pow_pos _), Nat.mul_comm, ← hSplit]
      exact x.isLt
    have hWord : ((shiftDown off xs).2 ||| x >>> off).toNat =
        toNat xs % 2 ^ off * 2 ^ (w - off) + x.toNat / 2 ^ off := by
      rw [BitVec.toNat_or, hPad, hLow, ← Nat.shiftLeft_eq, ← Nat.shiftLeft_add_eq_or_of_lt hLowLt]
    have hTail := Nat.mod_add_div (toNat xs) (2 ^ off)
    have hWhole : x.toNat + 2 ^ w * toNat xs = x.toNat + 2 ^ off * (2 ^ (w - off) * toNat xs) := by
      rw [hSplit, Nat.mul_assoc]
    constructor
    · rw [shiftDown, toNat_cons, hWord, hRest, toNat_cons,
        hWhole, Nat.add_mul_div_left _ _ (Nat.two_pow_pos _)]
      calc
        _ = x.toNat / 2 ^ off + 2 ^ (w - off) *
              (toNat xs % 2 ^ off + 2 ^ off * (toNat xs / 2 ^ off)) := by
            rw [hSplit]
            ring
        _ = _ := by rw [hTail]
    · simp only [shiftDown, BitVec.toNat_shiftLeft, Nat.shiftLeft_eq, toNat_cons]
      rw [hWhole, Nat.add_mul_mod_self_left, hSplit, Nat.mul_mod_mul_right]

end Limbs

----
-- Masks
----

namespace Limbs

variable {w : Nat}

theorem toNat_and_mask (x : BitVec w) {count : Nat} (h : count ≤ w) :
    (x &&& (BitVec.allOnes w >>> (w - count))).toNat = x.toNat % 2 ^ count := by
  have hMask : (BitVec.allOnes w >>> (w - count)).toNat = 2 ^ count - 1 := by
    rw [BitVec.toNat_ushiftRight, BitVec.toNat_allOnes, Nat.shiftRight_eq_div_pow]
    have hSplit : 2 ^ w = 2 ^ (w - count) * 2 ^ count := by rw [← pow_add, Nat.sub_add_cancel h]
    rw [Nat.div_eq_iff (Nat.two_pow_pos _)]
    have hPos := Nat.two_pow_pos (w - count)
    rw [Nat.sub_mul, Nat.mul_comm (2 ^ count)]
    omega
  rw [BitVec.toNat_and, hMask, Nat.and_two_pow_sub_one_eq_mod]

variable {xs : List (BitVec w)} {n : Nat}

/- The word above the low words, when nothing is above it. -/
theorem getD_top (h : toNat xs < 2 ^ (w * (n + 1))) :
    (xs.getD n 0#w).toNat = toNat xs / 2 ^ (w * n) := by
  rw [getD_toNat, Nat.mod_eq_of_lt]
  rw [Nat.div_lt_iff_lt_mul (Nat.two_pow_pos _), ← pow_add, Nat.add_comm]
  exact h

/- Masking the last word leaves the low bits. -/
theorem toNat_modify_mask (hLength : n < xs.length)
    (hTop : toNat xs < 2 ^ (w * (n + 1))) {count : Nat} (h : count ≤ w) :
    toNat (xs.modify n (fun x => x &&& (BitVec.allOnes w >>> (w - count)))) =
      toNat xs % 2 ^ (w * n + count) := by
  have hSet := toNat_set hLength (xs.getD n 0#w &&& (BitVec.allOnes w >>> (w - count)))
  have hModify : xs.modify n
      (fun x => x &&& (BitVec.allOnes w >>> (w - count))) =
        xs.set n (xs.getD n 0#w &&& (BitVec.allOnes w >>> (w - count))) := by
    rw [List.modify_eq_set]
    rfl
  have hDiv := Nat.mod_add_div (toNat xs) (2 ^ (w * n))
  rw [toNat_and_mask _ h, getD_top hTop] at hSet
  rw [hModify, pow_add, Nat.mod_mul]
  omega

/- A last word that is cleared leaves the words before it. -/
theorem toNat_set_zero (h : toNat xs < 2 ^ (w * (n + 1))) :
    toNat (xs.set n 0#w) = toNat xs % 2 ^ (w * n) := by
  rcases Nat.lt_or_ge n xs.length with hShort | hLong
  · have hSet := toNat_set hShort 0#w
    have hDiv := Nat.mod_add_div (toNat xs) (2 ^ (w * n))
    rw [getD_top h, BitVec.toNat_zero] at hSet
    omega
  · rw [List.set_eq_of_length_le hLong, Nat.mod_eq_of_lt]
    exact Nat.lt_of_lt_of_le (toNat_lt xs)
      (Nat.pow_le_pow_right (by decide) (Nat.mul_le_mul_left w hLong))

end Limbs
