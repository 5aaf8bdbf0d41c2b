import EpicSim.Vvp.Scalar
import Mathlib.Data.Fintype.Prod
import Mathlib.Tactic.FinCases

/-
  What net resolution computes.

  The drives meeting on one bit are summarized by the
  strongest pull toward 0, the strongest pull toward 1 and
  the strongest unambiguous drive.  Summaries form a
  semilattice under the pointwise maximum, and `settle` reads
  a summary back as a scalar.  `resolve` is the join of
  summaries, as long as no unambiguous drive falls strictly
  inside the strength range of an ambiguous one.
-/

----
-- Driver Values
----

namespace EpicSim

namespace VvpScalar

/- The ambiguous value reaching both sides of HiZ. -/
def amb (s0 s1 : Fin 8) : VvpScalar :=
  ofBit .x s0 s1

/- The unambiguous 0 of a strength. -/
def def0 (t : Fin 8) : VvpScalar :=
  ofBit .zero t t

/- The unambiguous 1 of a strength. -/
def def1 (t : Fin 8) : VvpScalar :=
  ofBit .one t t

/- A value that some driver with fixed strengths can emit. -/
def IsDriver (a : VvpScalar) : Prop :=
  ∃ val str0 str1, a = ofBit val str0 str1

/- HiZ has two encodings; this picks the canonical one. -/
def canon (a : VvpScalar) : VvpScalar :=
  if a.isHiz then hiz else a

theorem canon_of_isHiz {a : VvpScalar} (h : a.isHiz = true) : a.canon = hiz := by
  simp [canon, h]

theorem canon_of_not_isHiz {a : VvpScalar} (h : a.isHiz = false) : a.canon = a := by
  simp [canon, h]

@[simp] theorem isHiz_hiz : hiz.isHiz = true := by decide

@[simp] theorem canon_hiz : hiz.canon = hiz := by decide

@[simp] theorem isHiz_canon (a : VvpScalar) : a.canon.isHiz = a.isHiz := by
  cases h : a.isHiz with
  | true => rw [canon_of_isHiz h, isHiz_hiz]
  | false => rw [canon_of_not_isHiz h, h]

@[simp] theorem canon_canon (a : VvpScalar) : a.canon.canon = a.canon := by
  cases h : a.isHiz with
  | true => rw [canon_of_isHiz h, canon_hiz]
  | false => rw [canon_of_not_isHiz h, canon_of_not_isHiz h]

----
-- Resolve Laws On Raw Bytes
----

theorem resolve_of_isHiz_left {a : VvpScalar} (b : VvpScalar) (h : a.isHiz = true) :
    resolve a b = b := by
  simp [resolve, h]

theorem resolve_of_isHiz_right {a b : VvpScalar} (ha : a.isHiz = false) (hb : b.isHiz = true) :
    resolve a b = a := by
  simp [resolve, ha, hb]

@[simp] theorem resolve_self (a : VvpScalar) : resolve a a = a := by simp [resolve]

/- The masks of one nibble read that nibble only. -/
theorem high_or_low_high (u v m : BitVec 8)
    (hHigh : 0xf0#8 &&& m = m) (hLow : 0x0f#8 &&& m = 0#8) :
    ((u &&& 0xf0#8) ||| (v &&& 0x0f#8)) &&& m = u &&& m := by
  rw [BitVec.and_or_distrib_right, BitVec.and_assoc, BitVec.and_assoc,
    hHigh, hLow, BitVec.and_zero, BitVec.or_zero]

theorem high_or_low_low (u v m : BitVec 8)
    (hHigh : 0xf0#8 &&& m = 0#8) (hLow : 0x0f#8 &&& m = m) :
    ((u &&& 0xf0#8) ||| (v &&& 0x0f#8)) &&& m = v &&& m := by
  rw [BitVec.and_or_distrib_right, BitVec.and_assoc, BitVec.and_assoc,
    hHigh, hLow, BitVec.and_zero, BitVec.zero_or]

theorem high_or_low_self (v : BitVec 8) :
    (v &&& 0xf0#8) ||| (v &&& 0x0f#8) = v := by
  rw [← BitVec.and_or_distrib_left]
  exact BitVec.and_allOnes

/- HiZ has no strength on either side. -/
theorem isHiz_iff_strengths (a : VvpScalar) :
    a.isHiz = true ↔ a.value_ &&& 0x70#8 = 0#8 ∧ a.value_ &&& 0x07#8 = 0#8 := by
  rw [isHiz, beq_iff_eq, ← BitVec.or_eq_zero_iff, ← BitVec.and_or_distrib_left]
  rfl

/- An unambiguous byte repeats its high nibble. -/
theorem unambig_iff_nibbles (v : BitVec 8) :
    unambig v = true ↔ v &&& 0x0f#8 = (v &&& 0xf0#8) >>> 4 := by
  rw [unambig, beq_iff_eq, BitVec.ushiftRight_and_distrib]
  rfl

/- The high nibble can be read back from its shift. -/
theorem high_of_shift {u v : BitVec 8} (h : (u &&& 0xf0#8) >>> 4 = (v &&& 0xf0#8) >>> 4) :
    u &&& 0xf0#8 = v &&& 0xf0#8 := by
  have hBack (v : BitVec 8) : ((v &&& 0xf0#8) >>> 4) <<< 4 = v &&& 0xf0#8 := by
    rw [BitVec.shiftLeft_ushiftRight, BitVec.and_assoc]
    rfl
  rw [← hBack u, h, hBack v]

/- A sweep picks each nibble from one of the two values. -/
theorem sweep_nibbles (a b : BitVec 8) :
    sweep a b =
      ⟨((if b &&& 0x70#8 < a &&& 0x70#8 then a else b) &&& 0xf0#8) |||
        ((if b &&& 0x07#8 < a &&& 0x07#8 then a else b) &&& 0x0f#8)⟩ := by
  unfold sweep
  split_ifs <;> rfl

/- Nothing left by a sweep is weaker than what swept. -/
theorem sweep_strengths (a b : BitVec 8) :
    ¬(sweep a b).value_ &&& 0x70#8 < a &&& 0x70#8 ∧
      ¬(sweep a b).value_ &&& 0x07#8 < a &&& 0x07#8 := by
  rw [sweep_nibbles]
  dsimp only
  rw [high_or_low_high _ _ _ (by decide) (by decide), high_or_low_low _ _ _ (by decide) (by decide)]
  constructor
  · split_ifs with h
    · exact BitVec.lt_irrefl _
    · exact h
  · split_ifs with h
    · exact BitVec.lt_irrefl _
    · exact h

/- An ambiguous value swept to an unambiguous one is swept up. -/
theorem sweep_of_unambig {a b : BitVec 8} (ha : unambig a = true)
    (hb : unambig b = false) (hUn : unambig (sweep a b).value_ = true) :
    sweep a b = ⟨a⟩ := by
  rw [unambig_iff_nibbles] at ha
  rw [← Bool.not_eq_true, unambig_iff_nibbles] at hb
  rw [sweep_nibbles, unambig_iff_nibbles] at hUn
  dsimp only at hUn
  rw [high_or_low_low _ _ _ (by decide) (by decide),
    high_or_low_high _ _ _ (by decide) (by decide)] at hUn
  rw [sweep_nibbles]
  split_ifs at hUn ⊢ with hHigh hLow hLow
  · rw [high_or_low_self]
  · rw [hUn, ← ha, high_or_low_self]
  · rw [high_of_shift (hUn.symm.trans ha), high_or_low_self]
  · exact absurd hUn hb

/- Two opposite drives of one strength meet in an ambiguous value. -/
theorem meet_strengths {a p : BitVec 8}
    (hMeet : p &&& 0x77#8 = a &&& 0x77#8) :
    unambig ((a &&& 0x77#8) ||| 0x80#8) = false ∧
      ((a &&& 0x77#8) ||| 0x80#8) &&& 0x70#8 = p &&& 0x70#8 ∧
      ((a &&& 0x77#8) ||| 0x80#8) &&& 0x07#8 = p &&& 0x07#8 := by
  have hOpen : ∀ a : BitVec 8, unambig ((a &&& 0x77#8) ||| 0x80#8) = false := by
    decide +kernel
  have hMask (m : BitVec 8) (hLow : 0x77#8 &&& m = m) (hTop : 0x80#8 &&& m = 0#8) :
      ((a &&& 0x77#8) ||| 0x80#8) &&& m = p &&& m := by
    rw [← hMeet, BitVec.and_or_distrib_right, BitVec.and_assoc, hLow, hTop, BitVec.or_zero]
  exact ⟨hOpen a, hMask _ (by decide) (by decide), hMask _ (by decide) (by decide)⟩

/- An ambiguous value no weaker than an unambiguous drive stays. -/
theorem resolve_of_not_lt {r p : VvpScalar} (hUn : unambig p.value_ = true)
    (hPull : p.isHiz = false) (hAmb : unambig r.value_ = false)
    (hStrong : ¬r.value_ &&& 0x70#8 < p.value_ &&& 0x70#8 ∧
      ¬r.value_ &&& 0x07#8 < p.value_ &&& 0x07#8) :
    r.resolve p = r := by
  have hLive : r.isHiz = false := by
    rw [← Bool.not_eq_true, isHiz_iff_strengths] at hPull ⊢
    rintro ⟨hHigh, hLow⟩
    rw [hHigh, hLow] at hStrong
    exact hPull ⟨by bv_omega, by bv_omega⟩
  by_cases hEq : r = p
  · rw [hEq, resolve_self]
  · rw [resolve, hLive, hPull, if_neg Bool.false_ne_true, if_neg Bool.false_ne_true, if_neg hEq,
      fullyFeaturedResolv, hAmb, hUn, Bool.false_and, if_neg Bool.false_ne_true,
      if_neg Bool.false_ne_true, if_pos rfl]
    rw [sweep, if_neg hStrong.1, if_neg hStrong.2, high_or_low_self]

/- Resolving with an unambiguous drive twice changes nothing. -/
theorem resolve_unambig_twice {p : VvpScalar} (hUn : unambig p.value_ = true) (bit : VvpScalar) :
    (bit.resolve p).resolve p = bit.resolve p := by
  cases hBit : bit.isHiz with
  | true => rw [resolve_of_isHiz_left p hBit, resolve_self]
  | false =>
    cases hPull : p.isHiz with
    | true =>
      rw [resolve_of_isHiz_right hBit hPull, resolve_of_isHiz_right hBit hPull]
    | false =>
      by_cases hEq : bit = p
      · rw [hEq, resolve_self, resolve_self]
      · have hStep : bit.resolve p = fullyFeaturedResolv bit p := by
          rw [resolve, hBit, hPull, if_neg hEq]
          rfl
        cases hBitUn : unambig bit.value_ with
        | true =>
          rw [fullyFeaturedResolv, hBitUn, hUn, Bool.and_self, if_pos rfl] at hStep
          split_ifs at hStep with hWeak hMeet
          · rw [hStep, resolve_self]
          · rw [hStep]
            rcases meet_strengths hMeet with ⟨hAmb, hHigh, hLow⟩
            refine resolve_of_not_lt hUn hPull hAmb ⟨?_, ?_⟩
            · rw [hHigh]
              exact BitVec.lt_irrefl _
            · rw [hLow]
              exact BitVec.lt_irrefl _
          · rw [hStep, hStep]
        | false =>
          rw [fullyFeaturedResolv, hBitUn, hUn, Bool.false_and, if_neg Bool.false_ne_true,
            if_neg Bool.false_ne_true, if_pos rfl] at hStep
          rw [hStep]
          cases hSwept : unambig (sweep p.value_ bit.value_).value_ with
          | true => rw [sweep_of_unambig hUn hBitUn hSwept, resolve_self]
          | false => exact resolve_of_not_lt hUn hPull hSwept (sweep_strengths _ _)

end VvpScalar

----
-- Resolve On Driver Values
----

namespace VvpScalar

theorem isHiz_amb :
    ∀ s0 s1 : Fin 8,
      (amb s0 s1).isHiz = decide (s0 = 0 ∧ s1 = 0) := by
  decide

theorem unambig_amb :
    ∀ s0 s1 : Fin 8,
      unambig (amb s0 s1).value_ =
        decide (s0 = 0 ∧ s1 = 0) := by
  decide

theorem signed1_amb :
    ∀ s0 s1 : Fin 8,
      signed1 (amb s0 s1).value_ = (s1.val : Int) := by
  decide

theorem signed0_amb :
    ∀ s0 s1 : Fin 8,
      signed0 (amb s0 s1).value_ = -(s0.val : Int) := by
  decide

@[simp] theorem amb_zero : amb 0 0 = hiz := by decide

theorem amb_injective :
    ∀ s0 s1 r0 r1 : Fin 8,
      amb s0 s1 = amb r0 r1 → s0 = r0 ∧ s1 = r1 := by
  intro s0 s1 r0 r1 h
  have h1 := signed1_amb s0 s1
  have h0 := signed0_amb s0 s1
  rw [h, signed1_amb] at h1
  rw [h, signed0_amb] at h0
  omega

/- Two ambiguous values that reach `s1` and `s0` together. -/
theorem widen_eq_amb {a b : BitVec 8} {s0 s1 : Fin 8}
    (hNe : ¬(s0 = 0 ∧ s1 = 0))
    (h1 : max (max (max (signed1 a) (signed0 a)) (signed1 b)) (signed0 b) =
      s1.val)
    (h0 : min (min (min (signed0 a) (signed1 a)) (signed1 b)) (signed0 b) =
      -(s0.val : Int))
    (hTop : s1 = 0 → a &&& b &&& 0x80#8 = 0x80#8) :
    widen a b = amb s0 s1 := by
  have hPack :
      ∀ s0 s1 : Fin 8, ¬(s0 = 0 ∧ s1 = 0) →
        (let high :=
          if 0 < (s1.val : Int) then
            0x80#8 ||| (BitVec.ofInt 8 s1.val <<< 4)
          else 0x80#8 ||| (BitVec.ofInt 8 (-s1.val) <<< 4)
        let low :=
          if 0 < -(s0.val : Int) then
            0x08#8 ||| BitVec.ofInt 8 (-s0.val)
          else BitVec.ofInt 8 (- -(s0.val : Int))
        let res := high ||| low
        if (res &&& 0x77#8) == 0#8 then
          (⟨0#8⟩ : VvpScalar)
        else ⟨res⟩) = amb s0 s1 := by
    decide
  rw [← hPack s0 s1 hNe]
  unfold widen
  simp only [h1, h0]
  by_cases hZero : s1 = 0
  · rw [hTop hZero]
  · grind

/- The bytes of two ambiguous drives widen side by side. -/
theorem widen_amb (s0 s1 r0 r1 : Fin 8) (hs : ¬(s0 = 0 ∧ s1 = 0))
    (hr : ¬(r0 = 0 ∧ r1 = 0)) :
    widen (amb s0 s1).value_ (amb r0 r1).value_ =
      amb (max s0 r0) (max s1 r1) := by
  have hTop :
      ∀ s0 s1 : Fin 8, ¬(s0 = 0 ∧ s1 = 0) →
        (amb s0 s1).value_ &&& 0x80#8 = 0x80#8 := by
    decide
  refine widen_eq_amb ?_ ?_ ?_ ?_
  · rintro ⟨h0, h1⟩
    have h0' := le_of_le_of_eq (le_max_left s0 r0) h0
    have h1' := le_of_le_of_eq (le_max_left s1 r1) h1
    exact hs ⟨le_antisymm h0' (Fin.zero_le _), le_antisymm h1' (Fin.zero_le _)⟩
  · rw [signed1_amb, signed0_amb, signed1_amb, signed0_amb]
    rcases le_total s1 r1 with h | h
    · rw [max_eq_right h]
      omega
    · rw [max_eq_left h]
      omega
  · rw [signed1_amb, signed0_amb, signed1_amb, signed0_amb]
    grind
  · grind

/- Two ambiguous drives: each side keeps its strongest. -/
theorem resolve_amb_amb (s0 s1 r0 r1 : Fin 8) :
    resolve (amb s0 s1) (amb r0 r1) = amb (max s0 r0) (max s1 r1) := by
  by_cases hs : s0 = 0 ∧ s1 = 0
  · rw [hs.1, hs.2, amb_zero, resolve_of_isHiz_left _ isHiz_hiz,
      max_eq_right (Fin.zero_le _), max_eq_right (Fin.zero_le _)]
  · have hsHiz : (amb s0 s1).isHiz = false := by
      simp [isHiz_amb, hs]
    by_cases hr : r0 = 0 ∧ r1 = 0
    · rw [hr.1, hr.2, amb_zero, resolve_of_isHiz_right hsHiz isHiz_hiz,
        max_eq_left (Fin.zero_le _), max_eq_left (Fin.zero_le _)]
    · have hrHiz : (amb r0 r1).isHiz = false := by
        simp [isHiz_amb, hr]
      by_cases hEq : amb s0 s1 = amb r0 r1
      · rcases amb_injective s0 s1 r0 r1 hEq with ⟨h0, h1⟩
        subst h0 h1
        simp
      · have hsUn : unambig (amb s0 s1).value_ = false := by
          simp [unambig_amb, hs]
        have hrUn : unambig (amb r0 r1).value_ = false := by simp [unambig_amb, hr]
        simp only [resolve, hsHiz, hrHiz, hEq, fullyFeaturedResolv,
          hsUn, hrUn]
        exact widen_amb s0 s1 r0 r1 hs hr

/- An unambiguous 0 outside the range of an ambiguous drive. -/
theorem resolve_amb_def0 :
    ∀ s0 s1 t : Fin 8, ¬(s1 < t ∧ t < s0) →
      resolve (amb s0 s1) (def0 t) =
        if t ≤ s1 then amb (max s0 t) s1
        else def0 t := by
  decide

/- An unambiguous 1 outside the range of an ambiguous drive. -/
theorem resolve_amb_def1 :
    ∀ s0 s1 t : Fin 8, ¬(s0 < t ∧ t < s1) →
      resolve (amb s0 s1) (def1 t) =
        if t ≤ s0 then amb s0 (max s1 t)
        else def1 t := by
  decide

theorem resolve_def0_def0 :
    ∀ t u : Fin 8,
      resolve (def0 t) (def0 u) = def0 (max t u) := by
  decide

theorem resolve_def1_def1 :
    ∀ t u : Fin 8,
      resolve (def1 t) (def1 u) = def1 (max t u) := by
  decide

/- Opposite unambiguous drives: the stronger wins. -/
theorem resolve_def0_def1 :
    ∀ t u : Fin 8,
      resolve (def0 t) (def1 u) =
        if t < u then def1 u
        else if u < t then def0 t
        else amb t u := by
  decide

/- The stronger wins in the other order too. -/
theorem resolve_def1_def0 :
    ∀ t u : Fin 8,
      resolve (def1 u) (def0 t) = resolve (def0 t) (def1 u) := by
  decide

theorem resolve_def0_amb :
    ∀ s0 s1 t : Fin 8,
      resolve (def0 t) (amb s0 s1) = resolve (amb s0 s1) (def0 t) := by
  decide

theorem resolve_def1_amb :
    ∀ s0 s1 t : Fin 8,
      resolve (def1 t) (amb s0 s1) = resolve (amb s0 s1) (def1 t) := by
  decide

end VvpScalar

----
-- Drive Summaries
----

/-
  The summary of the drives of one bit: strongest pull
  toward 0, strongest pull toward 1, strongest unambiguous
  drive.
-/
abbrev Drive := Fin 8 × Fin 8 × Fin 8

namespace VvpScalar

/- The summary of one scalar. -/
def drive (a : VvpScalar) : Drive :=
  match a.value with
  | .zero => (a.strength0, 0, a.strength0)
  | .one => (0, a.strength1, a.strength1)
  | .x => (a.strength0, a.strength1, 0)
  | .z => (0, 0, 0)

/-
  An unambiguous drive undercuts an ambiguous one when it
  pulls the same way as the stronger side, with a strength
  strictly between the two sides.
-/
def Undercut (x u : VvpScalar) : Prop :=
  x.value = .x ∧
    ((u.value = .zero ∧ x.strength1 < u.strength0 ∧ u.strength0 < x.strength0) ∨
      (u.value = .one ∧ x.strength0 < u.strength1 ∧ u.strength1 < x.strength1))

instance (x u : VvpScalar) : Decidable (Undercut x u) := by
  unfold Undercut
  infer_instance

end VvpScalar

namespace Drive

open VvpScalar

/- The scalar a summary stands for. -/
def settle (d : Drive) : VvpScalar :=
  if d.2.2 ≤ d.1 ∧ d.2.2 ≤ d.2.1 then amb d.1 d.2.1
  else if d.2.1 < d.2.2 then def0 d.1
  else def1 d.2.1

/-
  The strongest unambiguous drive is one of the two sides,
  or lies at or below both.
-/
def Clean (d : Drive) : Prop :=
  d.2.2 ≤ max d.1 d.2.1 ∧ ¬(d.2.1 < d.2.2 ∧ d.2.2 < d.1) ∧ ¬(d.1 < d.2.2 ∧ d.2.2 < d.2.1)

/- The three readings of a clean summary. -/
theorem settle_cases {d : Drive} (hClean : d.Clean) :
    (d.2.2 ≤ d.1 ∧ d.2.2 ≤ d.2.1 ∧ settle d = amb d.1 d.2.1) ∨
      (d.2.1 < d.2.2 ∧ d.1 = d.2.2 ∧ settle d = def0 d.2.2) ∨
      (d.1 < d.2.2 ∧ d.2.1 = d.2.2 ∧
        settle d = def1 d.2.2) := by
  rcases d with ⟨s0, s1, t⟩
  rcases hClean with ⟨hMax, hZero, hOne⟩
  rcases lt_or_ge s1 t with h1 | h1
  · right
    left
    have hSide : t ≤ s0 := by grind
    have hEq : s0 = t := le_antisymm (not_lt.mp (fun h => hZero ⟨h1, h⟩)) hSide
    refine ⟨h1, hEq, ?_⟩
    simp [settle, not_le_of_gt h1, hEq]
  · rcases lt_or_ge s0 t with h0 | h0
    · right
      right
      have hEq : s1 = t := le_antisymm (not_lt.mp (fun h => hOne ⟨h0, h⟩)) h1
      refine ⟨h0, hEq, ?_⟩
      simp [settle, not_le_of_gt h0, hEq]
    · left
      exact ⟨h0, h1, by simp [settle, h0, h1]⟩

theorem settle_of_le {s0 s1 t : Fin 8} (h0 : t ≤ s0) (h1 : t ≤ s1) :
    settle (s0, s1, t) = amb s0 s1 := by
  simp [settle, h0, h1]

theorem settle_of_lt_one {s0 s1 t : Fin 8} (h1 : s1 < t) : settle (s0, s1, t) = def0 s0 := by
  simp [settle, not_le_of_gt h1]

theorem settle_of_lt_zero {s0 s1 t : Fin 8} (h0 : s0 < t) (h1 : t ≤ s1) :
    settle (s0, s1, t) = def1 s1 := by
  simp [settle, not_le_of_gt h0, not_lt_of_ge h1]

@[simp] theorem canon_settle {d : Drive} (hClean : d.Clean) : (settle d).canon = settle d := by
  have hAmb : ∀ s0 s1 : Fin 8,
      (amb s0 s1).canon = amb s0 s1 := by decide
  have hDef0 : ∀ t : Fin 8, (def0 t).canon = def0 t := by decide
  have hDef1 : ∀ t : Fin 8,
      t ≠ 0 → (def1 t).canon = def1 t := by decide
  rcases settle_cases hClean with ⟨-, -, h⟩ | ⟨-, -, h⟩ | ⟨hLt, -, h⟩
  · rw [h, hAmb]
  · rw [h, hDef0]
  · rw [h, hDef1 _ (Fin.pos_iff_ne_zero.mp (lt_of_le_of_lt (Fin.zero_le _) hLt))]

end Drive

----
-- Resolution Is The Join
----

namespace Drive

open VvpScalar

/-
  On clean summaries with a clean join, resolving the two
  scalars is joining the two summaries.
-/
theorem resolve_settle {d e : Drive} (hd : d.Clean) (he : e.Clean) (hJoin : (d ⊔ e).Clean) :
    resolve (settle d) (settle e) = settle (d ⊔ e) := by
  rcases d with ⟨s0, s1, t⟩
  rcases e with ⟨r0, r1, u⟩
  have hSup : ((s0, s1, t) ⊔ (r0, r1, u) : Drive) = (max s0 r0, max s1 r1, max t u) := rfl
  rw [hSup] at hJoin ⊢
  rcases hJoin with ⟨-, hZero, hOne⟩
  rcases settle_cases hd with ⟨hd0, hd1, hdEq⟩ | ⟨hdLt, hdSide, hdEq⟩ | ⟨hdLt, hdSide, hdEq⟩ <;>
  rcases settle_cases he with ⟨he0, he1, heEq⟩ | ⟨heLt, heSide, heEq⟩ | ⟨heLt, heSide, heEq⟩ <;>
  simp only at * <;> rw [hdEq, heEq]
  -- both ambiguous: each side keeps its strongest pull
  · rw [resolve_amb_amb, settle_of_le]
    · exact max_le_max hd0 he0
    · exact max_le_max hd1 he1
  -- an ambiguous drive meets an unambiguous one
  · have hOut : ¬(s1 < u ∧ u < s0) := by grind
    rw [resolve_amb_def0 s0 s1 u hOut]
    split_ifs with hLe
    · rw [settle_of_le] <;> grind
    · rw [settle_of_lt_one] <;> grind
  · have hOut : ¬(s0 < u ∧ u < s1) := by grind
    rw [resolve_amb_def1 s0 s1 u hOut]
    split_ifs with hLe
    · rw [settle_of_le] <;> grind
    · rw [settle_of_lt_zero] <;> grind
  · have hOut : ¬(r1 < t ∧ t < r0) := by grind
    rw [resolve_def0_amb, resolve_amb_def0 r0 r1 t hOut]
    split_ifs with hLe
    · rw [settle_of_le] <;> grind
    · rw [settle_of_lt_one] <;> grind
  -- two unambiguous drives: the stronger wins
  · rw [resolve_def0_def0, settle_of_lt_one] <;> grind
  · rw [resolve_def0_def1]
    split_ifs with hLt hGt
    · rw [settle_of_lt_zero] <;> grind
    · rw [settle_of_lt_one] <;> grind
    · rw [settle_of_le] <;> grind
  · have hOut : ¬(r0 < t ∧ t < r1) := by grind
    rw [resolve_def1_amb, resolve_amb_def1 r0 r1 t hOut]
    split_ifs with hLe
    · rw [settle_of_le] <;> grind
    · rw [settle_of_lt_zero] <;> grind
  · rw [resolve_def1_def0, resolve_def0_def1]
    split_ifs with hLt hGt
    · rw [settle_of_lt_zero] <;> grind
    · rw [settle_of_lt_one] <;> grind
    · rw [settle_of_le] <;> grind
  · rw [resolve_def1_def1, settle_of_lt_zero] <;> grind

end Drive

end EpicSim
