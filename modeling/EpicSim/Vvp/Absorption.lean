import EpicSim.Vvp.DriverOrder
import Mathlib.Algebra.Order.BigOperators.Group.Finset
import Mathlib.Data.Set.Card

/-
  When resolution absorbs.

  A value absorbs another one when resolving the other into
  it changes nothing.  Two values clash when resolving them
  loses something: for drives, when one undercuts the other.
-/

----
-- Absorbing And Clashing Scalars
----

namespace EpicSim

namespace VvpScalar

/- A scalar as it is, or up to the encoding of HiZ. -/
def same (exact : Bool) (a : VvpScalar) : VvpScalar :=
  if exact then a else a.canon

/- Resolving `b` into `a` changes nothing. -/
def Absorbs (exact : Bool) (a b : VvpScalar) : Prop :=
  (resolve a b).same exact = a.same exact

instance (exact : Bool) (a b : VvpScalar) :
    Decidable (a.Absorbs exact b) := by
  unfold Absorbs
  infer_instance

/-
  Resolving `b` into `a` does not absorb `b`, loses something
  `a` absorbs, or brings up the other encoding of HiZ.
-/
def Clashes (exact : Bool) (a b : VvpScalar) : Prop :=
  ¬(resolve a b).Absorbs exact b ∨
    (∃ h, a.Absorbs exact h ∧ ¬(resolve a b).Absorbs exact h) ∨
    a.isHiz ∧ b.isHiz ∧ b ≠ a ∧ b ≠ hiz

instance (exact : Bool) (a b : VvpScalar) :
    Decidable (a.Clashes exact b) :=
  have : Decidable (∃ h, a.Absorbs exact h ∧
      ¬(resolve a b).Absorbs exact h) :=
    decidable_of_iff
      (∃ k : Fin 256, a.Absorbs exact ⟨⟨k⟩⟩ ∧
        ¬(resolve a b).Absorbs exact ⟨⟨k⟩⟩)
      ⟨fun ⟨_, h⟩ => ⟨_, h⟩, fun ⟨h, hh⟩ => ⟨h.value_.toFin, hh⟩⟩
  inferInstanceAs (Decidable (_ ∨ _ ∨ _))

instance : Finite VvpScalar :=
  Finite.of_injective (fun a => a.value_.toFin) (by
    intro a b h
    cases a
    cases b
    congr
    exact BitVec.toFin_inj.mp h)

variable {exact : Bool} {a b : VvpScalar}

theorem absorbs_of_eq (h : resolve a b = a) : a.Absorbs exact b := by
  rw [Absorbs, h]

theorem absorbs_self (a : VvpScalar) : a.Absorbs exact a :=
  absorbs_of_eq (resolve_self a)

/- Only encodings of HiZ are the same without being equal. -/
theorem isHiz_of_same (h : a.same exact = b.same exact) (hNe : a ≠ b) :
    a.isHiz = true ∧ b.isHiz = true := by
  cases exact with
  | true => exact absurd h hNe
  | false =>
    simp only [same, Bool.false_eq_true, if_false] at h
    have hHiz : a.isHiz = b.isHiz := by
      rw [← isHiz_canon a, h, isHiz_canon]
    cases hb : b.isHiz with
    | true => exact ⟨hHiz.trans hb, rfl⟩
    | false =>
      rw [canon_of_not_isHiz hb, canon_of_not_isHiz (hHiz.trans hb)] at h
      exact absurd h hNe

theorem absorbs_of_isHiz (hb : b.isHiz = true) (ha : a.isHiz = false) :
    a.Absorbs exact b :=
  absorbs_of_eq (resolve_of_isHiz_right ha hb)

/- Outside HiZ, absorbing is exact. -/
theorem absorbs_iff_of_not_isHiz (ha : a.isHiz = false) :
    a.Absorbs exact b ↔ resolve a b = a := by
  refine ⟨?_, absorbs_of_eq⟩
  intro h
  by_contra hNe
  have hBoth := isHiz_of_same h hNe
  rw [ha] at hBoth
  cases hBoth.2

/- What a value has not absorbed yet, and whether it is an odd HiZ. -/
noncomputable def rank (exact : Bool) (a : VvpScalar) : Nat :=
  2 * {h | ¬a.Absorbs exact h}.ncard +
    if a.isHiz ∧ a ≠ hiz then 1 else 0

/- A value that changes without a clash loses rank. -/
theorem rank_resolve_lt (hClash : ¬a.Clashes exact b)
    (hNe : resolve a b ≠ a) :
    (resolve a b).rank exact < a.rank exact := by
  rw [Clashes, not_or, not_or, not_not] at hClash
  rcases hClash with ⟨hAgain, hKeeps, hOdd⟩
  have hSub : {h | ¬(resolve a b).Absorbs exact h} ⊆
      {h | ¬a.Absorbs exact h} :=
    fun h hh hAbsorbed => hKeeps ⟨h, hAbsorbed, hh⟩
  have hFinite := Set.toFinite {h | ¬a.Absorbs exact h}
  unfold rank
  by_cases hOld : a.Absorbs exact b
  · -- the encoding of a HiZ has changed
    rcases isHiz_of_same hOld hNe with ⟨hb, ha⟩
    have hCard := Set.ncard_le_ncard hSub hFinite
    have hEq := resolve_of_isHiz_left b ha
    rw [hEq] at hb hCard hNe ⊢
    have hCanon : b = hiz := by
      by_contra h
      exact hOdd ⟨ha, hb, hNe, h⟩
    subst hCanon
    rw [if_neg (fun h => h.2 rfl), if_pos ⟨ha, Ne.symm hNe⟩]
    omega
  · have hLt := Set.ncard_lt_ncard
      ⟨hSub, fun h => h (hOld : b ∈ {h | ¬a.Absorbs exact h}) hAgain⟩
      hFinite
    split_ifs <;> omega

----
-- The Two Ends Of A Byte
----

theorem signed1_high_or_low (u v : BitVec 8) :
    signed1 ((u &&& 0xf0#8) ||| (v &&& 0x0f#8)) = signed1 u := by
  unfold signed1 stren1
  rw [high_or_low_high u v _ (by decide) (by decide),
    high_or_low_high u v _ (by decide) (by decide)]

theorem signed0_high_or_low (u v : BitVec 8) :
    signed0 ((u &&& 0xf0#8) ||| (v &&& 0x0f#8)) = signed0 v := by
  unfold signed0 stren0
  rw [high_or_low_low u v _ (by decide) (by decide),
    high_or_low_low u v _ (by decide) (by decide)]

/- The compared masks hold the strengths of the two ends. -/
theorem toNat_high (v : BitVec 8) : (v &&& 0x70#8).toNat = 16 * (signed1 v).natAbs := by
  have hLow : (v &&& 0x70#8).toNat % 2 ^ 4 = 0 := by
    rw [BitVec.toNat_and, Nat.and_mod_two_pow]
    exact Nat.and_zero _
  have hShift : (stren1 v).toNat = (v &&& 0x70#8).toNat / 2 ^ 4 := by
    rw [stren1, BitVec.toNat_ushiftRight, Nat.shiftRight_eq_div_pow]
  unfold signed1
  split_ifs <;> omega

theorem toNat_low (v : BitVec 8) : (v &&& 0x07#8).toNat = (signed0 v).natAbs := by
  unfold signed0 stren0
  split_ifs <;> simp

theorem high_lt_iff (u v : BitVec 8) :
    u &&& 0x70#8 < v &&& 0x70#8 ↔
      (signed1 u).natAbs < (signed1 v).natAbs := by
  rw [BitVec.lt_def, toNat_high, toNat_high]
  omega

theorem low_lt_iff (u v : BitVec 8) :
    u &&& 0x07#8 < v &&& 0x07#8 ↔
      (signed0 u).natAbs < (signed0 v).natAbs := by
  rw [BitVec.lt_def, toNat_low, toNat_low]

theorem isHiz_iff (a : VvpScalar) :
    a.isHiz = true ↔ signed1 a.value_ = 0 ∧ signed0 a.value_ = 0 := by
  rw [isHiz_iff_strengths, ← BitVec.toNat_inj, ← BitVec.toNat_inj, toNat_high, toNat_low]
  rw [BitVec.toNat_zero]
  omega

/- Ends outside HiZ determine their nibbles. -/
theorem nibbles_of_ends :
    ∀ v : BitVec 8,
      (signed1 v ≠ 0 →
        v &&& 0xf0#8 =
          (if signed1 v < 0 then 0#8 else 0x80#8) |||
            (BitVec.ofNat 8 (signed1 v).natAbs <<< 4)) ∧
        (signed0 v ≠ 0 →
          v &&& 0x0f#8 =
            (if signed0 v < 0 then 0#8 else 0x08#8) |||
              BitVec.ofNat 8 (signed0 v).natAbs) ∧
        (((v &&& 0x77#8) == 0#8) = false →
          (unambig v = true ↔ signed1 v = signed0 v)) := by
  decide +kernel

/- Outside HiZ a value is unambiguous when its ends meet. -/
theorem unambig_iff (ha : a.isHiz = false) :
    unambig a.value_ = true ↔ signed1 a.value_ = signed0 a.value_ :=
  (nibbles_of_ends a.value_).2.2 ha

/- A pulling end determines its nibble. -/
theorem high_of_signed1 {u v : BitVec 8} (h : signed1 u = signed1 v)
    (hv : signed1 v ≠ 0) : u &&& 0xf0#8 = v &&& 0xf0#8 := by
  rw [(nibbles_of_ends u).1 (by rwa [h]), (nibbles_of_ends v).1 hv, h]

theorem low_of_signed0 {u v : BitVec 8} (h : signed0 u = signed0 v)
    (hv : signed0 v ≠ 0) : u &&& 0x0f#8 = v &&& 0x0f#8 := by
  rw [(nibbles_of_ends u).2.1 (by rwa [h]), (nibbles_of_ends v).2.1 hv, h]

/- Each end of a sweep comes from one of the two values. -/
theorem sweep_spec (a b : BitVec 8) :
    (signed1 (sweep a b).value_ =
        if (signed1 b).natAbs < (signed1 a).natAbs then signed1 a
        else signed1 b) ∧
      (signed0 (sweep a b).value_ =
        if (signed0 b).natAbs < (signed0 a).natAbs then signed0 a
        else signed0 b) := by
  unfold sweep
  simp only [high_lt_iff, low_lt_iff]
  constructor
  · split_ifs <;> rw [signed1_high_or_low]
  · split_ifs <;> rw [signed0_high_or_low]

/- A sweep gives `c` when both ends picked are those of `c`. -/
theorem sweep_eq {a b c : BitVec 8}
    (hHigh : ((signed1 b).natAbs < (signed1 a).natAbs →
        a &&& 0xf0#8 = c &&& 0xf0#8) ∧
      (¬(signed1 b).natAbs < (signed1 a).natAbs →
        b &&& 0xf0#8 = c &&& 0xf0#8))
    (hLow : ((signed0 b).natAbs < (signed0 a).natAbs →
        a &&& 0x0f#8 = c &&& 0x0f#8) ∧
      (¬(signed0 b).natAbs < (signed0 a).natAbs →
        b &&& 0x0f#8 = c &&& 0x0f#8)) :
    sweep a b = ⟨c⟩ := by
  unfold sweep
  simp only [high_lt_iff, low_lt_iff]
  split_ifs with h1 h0 h0
  · rw [hHigh.1 h1, hLow.1 h0, high_or_low_self]
  · rw [hHigh.1 h1, hLow.2 h0, high_or_low_self]
  · rw [hHigh.2 h1, hLow.1 h0, high_or_low_self]
  · rw [hHigh.2 h1, hLow.2 h0, high_or_low_self]

/- Where the ends of a widened value lie. -/
theorem widen_spec (a b : BitVec 8) :
    (signed1 (widen a b).value_ =
        max (max (max (signed1 a) (signed0 a)) (signed1 b)) (signed0 b)) ∧
      (signed0 (widen a b).value_ =
        min (min (min (signed0 a) (signed1 a)) (signed1 b)) (signed0 b)) ∧
      (signed1 (widen a b).value_ ≤ 0 → (widen a b).isHiz = false →
        (widen a b).value_ &&& 0x80#8 = a &&& b &&& 0x80#8) := by
  have hRange : ∀ v : BitVec 8,
      (-7 ≤ signed1 v ∧ signed1 v ≤ 7) ∧ (-7 ≤ signed0 v ∧ signed0 v ≤ 7) ∧
        (v &&& 0x80#8 = 0#8 ∨ v &&& 0x80#8 = 0x80#8 ∧ 0 ≤ signed1 v) := by
    decide +kernel
  have hPack :
      ∀ k l : Fin 15, ∀ top : Bool, (top = true → 7 ≤ k.val) →
        (let sv1 := (k.val : Int) - 7
        let sv0 := (l.val : Int) - 7
        let mark := if top then 0x80#8 else 0#8
        let high :=
          if 0 < sv1 then 0x80#8 ||| (BitVec.ofInt 8 sv1 <<< 4)
          else mark ||| (BitVec.ofInt 8 (-sv1) <<< 4)
        let low :=
          if 0 < sv0 then 0x08#8 ||| BitVec.ofInt 8 sv0
          else BitVec.ofInt 8 (-sv0)
        let res := high ||| low
        let r : VvpScalar := if (res &&& 0x77#8) == 0#8 then ⟨0#8⟩ else ⟨res⟩
        signed1 r.value_ = sv1 ∧ signed0 r.value_ = sv0 ∧
          (signed1 r.value_ ≤ 0 → r.isHiz = false →
            r.value_ &&& 0x80#8 = mark)) := by
    decide +kernel
  rcases hRange a with ⟨ha1, ha0, haTop⟩
  rcases hRange b with ⟨hb1, hb0, hbTop⟩
  obtain ⟨k, hk⟩ : ∃ k : Fin 15,
      max (max (max (signed1 a) (signed0 a)) (signed1 b)) (signed0 b) =
        (k.val : Int) - 7 :=
    ⟨⟨(max (max (max (signed1 a) (signed0 a)) (signed1 b)) (signed0 b)
      + 7).toNat, by omega⟩, by simp only; omega⟩
  obtain ⟨l, hl⟩ : ∃ l : Fin 15,
      min (min (min (signed0 a) (signed1 a)) (signed1 b)) (signed0 b) =
        (l.val : Int) - 7 :=
    ⟨⟨(min (min (min (signed0 a) (signed1 a)) (signed1 b)) (signed0 b)
      + 7).toNat, by omega⟩, by simp only; omega⟩
  obtain ⟨top, hMark, hTop⟩ : ∃ top : Bool,
      a &&& b &&& 0x80#8 = (if top then 0x80#8 else 0#8) ∧
        (top = true → 7 ≤ k.val) := by
    rw [BitVec.and_assoc]
    rcases hbTop with hbTop | ⟨hbTop, hbPos⟩
    · exact ⟨false, by rw [hbTop, BitVec.and_zero]; rfl, by simp⟩
    · rw [hbTop]
      rcases haTop with haTop | ⟨haTop, haPos⟩
      · exact ⟨false, haTop, by simp⟩
      · exact ⟨true, haTop, fun _ => by omega⟩
  have hResult := hPack k l top hTop
  unfold widen
  simp only [hk, hl, hMark]
  exact hResult

----
-- What A Drive Absorbs
----

/-
  The ends `t1` and `t0` lie inside the ends `s1` and `s0` of
  a drive.  Where these meet, what is weaker is swept away.
  An open drive leaves an unambiguous value up to its weaker
  side; its end at zero toward 1 must be marked as its own.
-/
def Inside (s1 s0 t1 t0 : Int) (marked : Prop) : Prop :=
  if s1 = s0 then
    (t1 = s1 ∨ t1.natAbs < s1.natAbs) ∧ (t0 = s0 ∨ t0.natAbs < s0.natAbs)
  else if t1 = t0 then t1.natAbs ≤ s1 ∧ t1.natAbs ≤ -s0
  else (s0 ≤ t1 ∧ t1 ≤ s1) ∧ (s0 ≤ t0 ∧ t0 ≤ s1) ∧ (s1 = 0 → marked)

/- The ends of `h` lie inside those of the drive `a`. -/
def Spans (a h : VvpScalar) : Prop :=
  Inside (signed1 a.value_) (signed0 a.value_)
    (signed1 h.value_) (signed0 h.value_) (h.value_ &&& 0x80#8 = 0x80#8)

theorem signed1_ne_zero {a : VvpScalar} (ha : a.isHiz = false)
    (hUn : unambig a.value_ = true) : signed1 a.value_ ≠ 0 := by
  intro hZero
  have hHiz := (isHiz_iff a).mpr ⟨hZero, (unambig_iff ha).mp hUn ▸ hZero⟩
  rw [ha] at hHiz
  cases hHiz

/- An unambiguous value is known by one of its ends. -/
theorem eq_of_unambig {a b : VvpScalar} (ha : a.isHiz = false)
    (hb : b.isHiz = false) (hUna : unambig a.value_ = true)
    (hUnb : unambig b.value_ = true)
    (h : signed1 a.value_ = signed1 b.value_) : a = b := by
  have hPull := signed1_ne_zero hb hUnb
  have hEnds := (unambig_iff ha).mp hUna
  have hEnds' := (unambig_iff hb).mp hUnb
  have hHigh := high_of_signed1 h hPull
  have hLow : a.value_ &&& 0x0f#8 = b.value_ &&& 0x0f#8 :=
    low_of_signed0 (by omega) (by omega)
  have hByte : a.value_ = b.value_ := by
    rw [← high_or_low_self a.value_, hHigh, hLow, high_or_low_self]
  cases a
  cases b
  exact congrArg VvpScalar.mk hByte

theorem unambig_equal {u v : BitVec 8} (hu : unambig u = true)
    (hv : unambig v = true) :
    v &&& 0x77#8 = u &&& 0x77#8 ↔
      (signed0 v).natAbs = (signed0 u).natAbs := by
  have hLt := low_lt_iff u v
  have hGt := low_lt_iff v u
  rw [unambig_strengths hu hv]
  bv_omega

/- An unambiguous value absorbs what lies inside its ends. -/
theorem absorbs_iff_of_unambig {a h : VvpScalar} (ha : a.isHiz = false)
    (hUn : unambig a.value_ = true) :
    a.Absorbs exact h ↔ a.Spans h := by
  have hEnds := (unambig_iff ha).mp hUn
  have hPull := signed1_ne_zero ha hUn
  rw [absorbs_iff_of_not_isHiz ha, Spans, Inside, if_pos hEnds]
  by_cases hSelf : h = a
  · subst hSelf
    simp
  cases hh : h.isHiz with
  | true =>
    rcases (isHiz_iff h).mp hh with ⟨h1, h0⟩
    rw [h1, h0]
    refine iff_of_true (resolve_of_isHiz_right ha hh) ?_
    omega
  | false =>
    have hResolve : resolve a h = fullyFeaturedResolv a h := by
      simp [resolve, ha, hh, Ne.symm hSelf]
    rw [hResolve]
    cases hUnh : unambig h.value_ with
    | true =>
      have hEndsh := (unambig_iff hh).mp hUnh
      have hDiff : signed1 h.value_ ≠ signed1 a.value_ :=
        fun hEq => hSelf (eq_of_unambig hh ha hUnh hUn hEq)
      have hOpposed : ∀ v : BitVec 8, unambig v = true →
          ((v &&& 0x77#8) == 0#8) = false →
            (v &&& 0x77#8) ||| 0x80#8 ≠ v := by
        decide +kernel
      simp only [fullyFeaturedResolv, hUn, hUnh, Bool.and_self, if_true,
        low_lt_iff, unambig_equal hUn hUnh]
      split_ifs with hLt hEq
      · refine iff_of_false hSelf ?_
        omega
      · refine iff_of_false ?_ (by omega)
        intro hByte
        exact hOpposed a.value_ hUn ha (congrArg VvpScalar.value_ hByte)
      · refine iff_of_true rfl ?_
        omega
    | false =>
      simp only [fullyFeaturedResolv, hUn, hUnh, Bool.and_false,
        Bool.false_eq_true, if_false, if_true]
      rcases sweep_spec a.value_ h.value_ with ⟨hHigh, hLow⟩
      constructor
      · grind
      · rintro ⟨h1, h0⟩
        refine sweep_eq ⟨fun _ => rfl, fun hNot => ?_⟩
          ⟨fun _ => rfl, fun hNot => ?_⟩
        · exact high_of_signed1 (h1.resolve_right hNot) hPull
        · exact low_of_signed0 (h0.resolve_right hNot) (hEnds ▸ hPull)

/- An ambiguous drive absorbs what lies inside its ends. -/
theorem absorbs_iff_of_amb {s0 s1 : Fin 8} {h : VvpScalar}
    (hNe : ¬(s0 = 0 ∧ s1 = 0)) :
    (amb s0 s1).Absorbs exact h ↔ (amb s0 s1).Spans h := by
  have hTop : ∀ s0 s1 : Fin 8, ¬(s0 = 0 ∧ s1 = 0) →
      (amb s0 s1).value_ &&& 0x80#8 = 0x80#8 := by
    decide
  have ha : (amb s0 s1).isHiz = false := by simp [isHiz_amb, hNe]
  have hUn : unambig (amb s0 s1).value_ = false := by
    simp [unambig_amb, hNe]
  have hOpen : (s1.val : Int) ≠ -s0.val := by omega
  rw [absorbs_iff_of_not_isHiz ha]
  simp only [Spans, Inside, signed1_amb, signed0_amb, if_neg hOpen]
  by_cases hSelf : h = amb s0 s1
  · subst hSelf
    refine iff_of_true (resolve_self _) ?_
    rw [signed1_amb, signed0_amb, if_neg hOpen]
    refine ⟨?_, ?_, fun _ => hTop s0 s1 hNe⟩ <;> omega
  cases hh : h.isHiz with
  | true =>
    rcases (isHiz_iff h).mp hh with ⟨h1, h0⟩
    rw [h1, h0, if_pos rfl]
    refine iff_of_true (resolve_of_isHiz_right ha hh) ?_
    omega
  | false =>
    have hResolve : resolve (amb s0 s1) h =
        fullyFeaturedResolv (amb s0 s1) h := by
      simp [resolve, ha, hh, Ne.symm hSelf]
    rw [hResolve]
    cases hUnh : unambig h.value_ with
    | true =>
      have hEndsh := (unambig_iff hh).mp hUnh
      simp only [fullyFeaturedResolv, hUn, hUnh, Bool.false_and,
        Bool.false_eq_true, if_false, if_true, if_pos hEndsh]
      rcases sweep_spec h.value_ (amb s0 s1).value_ with ⟨hHigh, hLow⟩
      rw [signed1_amb] at hHigh
      rw [signed0_amb] at hLow
      constructor
      · intro hSweep
        rw [hSweep, signed1_amb] at hHigh
        rw [hSweep, signed0_amb] at hLow
        split_ifs at hHigh hLow <;> omega
      · intro hInside
        refine sweep_eq ⟨fun hLt => ?_, fun _ => rfl⟩
          ⟨fun hLt => ?_, fun _ => rfl⟩
        · rw [signed1_amb] at hLt
          omega
        · rw [signed0_amb] at hLt
          omega
    | false =>
      have hEndsh : signed1 h.value_ ≠ signed0 h.value_ := by
        rw [ne_eq, ← unambig_iff hh, hUnh]
        simp
      simp only [fullyFeaturedResolv, hUn, hUnh, Bool.false_and,
        Bool.false_eq_true, if_false, if_neg hEndsh]
      rcases widen_spec (amb s0 s1).value_ h.value_ with
        ⟨hHigh, hLow, hMark⟩
      simp only [signed1_amb, signed0_amb] at hHigh hLow
      constructor
      · intro hWiden
        rw [hWiden, signed1_amb] at hHigh
        rw [hWiden, signed0_amb] at hLow
        rw [hWiden, signed1_amb, hTop s0 s1 hNe, BitVec.and_assoc] at hMark
        refine ⟨by omega, by omega, fun hZero => ?_⟩
        have hBit : ∀ v : BitVec 8,
            v &&& 0x80#8 = 0#8 ∨ v &&& 0x80#8 = 0x80#8 := by
          decide +kernel
        refine (hBit h.value_).resolve_left ?_
        intro hOff
        have hEq := hMark (by omega) ha
        rw [hOff, BitVec.and_zero] at hEq
        exact absurd hEq (by decide)
      · rintro ⟨h1, h0, hZero⟩
        refine widen_eq_amb hNe ?_ ?_ ?_
        · rw [signed1_amb, signed0_amb]
          omega
        · rw [signed1_amb, signed0_amb]
          omega
        · grind

/- A drive is HiZ, ambiguous around zero, or unambiguous. -/
theorem isDriver_cases {a : VvpScalar} (ha : a.IsDriver) :
    a.isHiz = true ∨
      (∃ s0 s1 : Fin 8, ¬(s0 = 0 ∧ s1 = 0) ∧ a = amb s0 s1) ∨
      a.isHiz = false ∧ unambig a.value_ = true := by
  have hDef : ∀ t : Fin 8,
      unambig (def0 t).value_ = true ∧ unambig (def1 t).value_ = true := by
    decide
  have hCases : ∀ val : VvpBit4, ∀ s0 s1 : Fin 8,
      (ofBit val s0 s1).isHiz = true ∨ ofBit val s0 s1 = amb s0 s1 ∨
        unambig (ofBit val s0 s1).value_ = true := by
    intro val
    cases val <;> decide
  rcases ha with ⟨val, s0, s1, rfl⟩
  cases hHiz : (ofBit val s0 s1).isHiz with
  | true => exact Or.inl rfl
  | false =>
    refine Or.inr ?_
    rcases hCases val s0 s1 with h | h | h
    · rw [hHiz] at h
      cases h
    · refine Or.inl ⟨s0, s1, ?_, h⟩
      rintro ⟨rfl, rfl⟩
      rw [h, amb_zero, isHiz_hiz] at hHiz
      cases hHiz
    · exact Or.inr ⟨rfl, h⟩

/- Up to the encoding of HiZ a drive absorbs what it spans. -/
theorem absorbs_iff_spans {a h : VvpScalar} (ha : a.IsDriver) :
    a.Absorbs false h ↔ a.Spans h := by
  rcases isDriver_cases ha with hHiz | ⟨s0, s1, hNe, rfl⟩ | ⟨hHiz, hUn⟩
  · rcases (isHiz_iff a).mp hHiz with ⟨h1, h0⟩
    have hSpans : a.Spans h ↔ h.isHiz = true := by
      rw [isHiz_iff, Spans, Inside, h1, h0, if_pos rfl]
      omega
    rw [hSpans, Absorbs, resolve_of_isHiz_left h hHiz]
    simp only [same, Bool.false_eq_true, if_false, canon_of_isHiz hHiz]
    constructor
    · intro hCanon
      rw [← isHiz_canon, hCanon, isHiz_hiz]
    · exact canon_of_isHiz
  · exact absorbs_iff_of_amb hNe
  · exact absorbs_iff_of_unambig hHiz hUn

/- The ends of a drive meet, or lie around zero. -/
theorem ends_of_isDriver {a : VvpScalar} (ha : a.IsDriver) :
    signed1 a.value_ = signed0 a.value_ ∨
      signed0 a.value_ ≤ 0 ∧ 0 ≤ signed1 a.value_ ∧
        a.value_ &&& 0x80#8 = 0x80#8 := by
  rcases isDriver_cases ha with hHiz | ⟨s0, s1, hNe, rfl⟩ | ⟨hHiz, hUn⟩
  · rcases (isHiz_iff a).mp hHiz with ⟨h1, h0⟩
    exact Or.inl (h1.trans h0.symm)
  · have hTop : ∀ s0 s1 : Fin 8, ¬(s0 = 0 ∧ s1 = 0) →
        (amb s0 s1).value_ &&& 0x80#8 = 0x80#8 := by
      decide
    rw [signed1_amb, signed0_amb]
    exact Or.inr ⟨by omega, by omega, hTop s0 s1 hNe⟩
  · exact Or.inl ((unambig_iff hHiz).mp hUn)

/- The ends of a drive meet, or lie around zero. -/
def Ends (s1 s0 : Int) (marked : Prop) : Prop :=
  s1 = s0 ∨ s0 ≤ 0 ∧ 0 ≤ s1 ∧ marked

variable {s1 s0 t1 t0 u1 u0 : Int} {markt marku mark : Prop}

theorem inside_trans (ht : Ends t1 t0 markt)
    (hst : Inside s1 s0 t1 t0 markt) (htu : Inside t1 t0 u1 u0 marku) :
    Inside s1 s0 u1 u0 marku := by
  unfold Inside Ends at *
  split_ifs at * <;> first | omega | grind

/- What a drive absorbs, a drive that absorbs it absorbs. -/
theorem absorbs_trans {a b c : VvpScalar} (ha : a.IsDriver)
    (hb : b.IsDriver) (hab : a.Absorbs false b)
    (hbc : b.Absorbs false c) : a.Absorbs false c := by
  rw [absorbs_iff_spans ha] at hab ⊢
  rw [absorbs_iff_spans hb] at hbc
  exact inside_trans (ends_of_isDriver hb) hab hbc

theorem inside_sweep (hPull : t1 ≠ 0) (hMeet : t1 = t0)
    (ht : Inside s1 s0 t1 t0 markt) (hu : Inside s1 s0 u1 u0 marku) :
    Inside s1 s0
      (if u1.natAbs < t1.natAbs then t1 else u1)
      (if u0.natAbs < t0.natAbs then t0 else u0) mark := by
  unfold Inside at *
  split_ifs at * <;> first | omega | grind

theorem inside_oppose (hMeet : t1 = t0) (hMeet' : u1 = u0)
    (hDiff : t1 ≠ u1) (hEqual : t1.natAbs = u1.natAbs) (hMark : mark)
    (ht : Inside s1 s0 t1 t0 markt) (hu : Inside s1 s0 u1 u0 marku) :
    Inside s1 s0 t1.natAbs (-t1.natAbs) mark := by
  unfold Inside at *
  split_ifs at * <;> grind

theorem swept_max {s x y : Int} (hx : x = s ∨ x.natAbs < s.natAbs)
    (hy : y = s ∨ y.natAbs < s.natAbs) : max x y = s ∨ (max x y).natAbs < s.natAbs := by
  rcases max_choice x y with h | h <;> rwa [h]

theorem swept_min {s x y : Int} (hx : x = s ∨ x.natAbs < s.natAbs)
    (hy : y = s ∨ y.natAbs < s.natAbs) : min x y = s ∨ (min x y).natAbs < s.natAbs := by
  rcases min_choice x y with h | h <;> rwa [h]

theorem inside_widen (hOpen : t1 ≠ t0) (hOpen' : u1 ≠ u0)
    (hMark : max (max (max t1 t0) u1) u0 ≤ 0 → markt → marku → mark)
    (ht : Inside s1 s0 t1 t0 markt) (hu : Inside s1 s0 u1 u0 marku) :
    Inside s1 s0 (max (max (max t1 t0) u1) u0)
      (min (min (min t0 t1) u1) u0) mark := by
  unfold Inside at *
  by_cases hMeet : s1 = s0
  · -- Each end of the result is one of the four ends.
    rw [if_pos hMeet] at *
    subst hMeet
    exact ⟨swept_max (swept_max (swept_max ht.1 ht.2) hu.1) hu.2,
      swept_min (swept_min (swept_min ht.2 ht.1) hu.1) hu.2⟩
  · grind

/- Ends inside those of a drive stay there under resolution. -/
theorem spans_resolve {a p c : VvpScalar} (hp : a.Spans p)
    (hc : a.Spans c) : a.Spans (resolve p c) := by
  cases hpHiz : p.isHiz with
  | true => rwa [resolve_of_isHiz_left c hpHiz]
  | false =>
    cases hcHiz : c.isHiz with
    | true => rwa [resolve_of_isHiz_right hpHiz hcHiz]
    | false =>
      by_cases hSelf : p = c
      · rwa [hSelf, resolve_self]
      have hOpen : ∀ v : VvpScalar, v.isHiz = false →
          unambig v.value_ = false →
            signed1 v.value_ ≠ signed0 v.value_ := by
        intro v hv hUn
        rw [ne_eq, ← unambig_iff hv, hUn]
        simp
      simp only [resolve, hpHiz, hcHiz, hSelf, Bool.false_eq_true, if_false,
        fullyFeaturedResolv]
      cases hpUn : unambig p.value_ with
      | true =>
        have hpMeet := (unambig_iff hpHiz).mp hpUn
        cases hcUn : unambig c.value_ with
        | true =>
          have hcMeet := (unambig_iff hcHiz).mp hcUn
          simp only [Bool.and_self, if_true]
          split_ifs with hLt hEqual
          · exact hc
          · -- opposing pulls of one strength leave it open
            have hOpposed : ∀ v : BitVec 8, unambig v = true →
                ((v &&& 0x77#8) == 0#8) = false →
                  signed1 ((v &&& 0x77#8) ||| 0x80#8) = (signed1 v).natAbs ∧
                  signed0 ((v &&& 0x77#8) ||| 0x80#8) = -(signed1 v).natAbs ∧
                  ((v &&& 0x77#8) ||| 0x80#8) &&& 0x80#8 = 0x80#8 := by
              decide +kernel
            rcases hOpposed p.value_ hpUn hpHiz with ⟨hHigh, hLow, hMark⟩
            rw [unambig_equal hpUn hcUn] at hEqual
            rw [Spans, hHigh, hLow]
            refine inside_oppose hpMeet hcMeet ?_ (by omega) hMark hp hc
            exact fun hEq => hSelf (eq_of_unambig hpHiz hcHiz hpUn hcUn hEq)
          · exact hp
        | false =>
          simp only [Bool.and_false, Bool.false_eq_true, if_false, if_true]
          rcases sweep_spec p.value_ c.value_ with ⟨hHigh, hLow⟩
          rw [Spans, hHigh, hLow]
          exact inside_sweep (signed1_ne_zero hpHiz hpUn) hpMeet hp hc
      | false =>
        cases hcUn : unambig c.value_ with
        | true =>
          simp only [Bool.false_and, Bool.false_eq_true, if_false, if_true]
          rcases sweep_spec c.value_ p.value_ with ⟨hHigh, hLow⟩
          rw [Spans, hHigh, hLow]
          exact inside_sweep (signed1_ne_zero hcHiz hcUn)
            ((unambig_iff hcHiz).mp hcUn) hc hp
        | false =>
          simp only [Bool.false_and, Bool.false_eq_true, if_false]
          rcases widen_spec p.value_ c.value_ with ⟨hHigh, hLow, hMark⟩
          rw [Spans, hHigh, hLow]
          refine inside_widen (hOpen p hpHiz hpUn) (hOpen c hcHiz hcUn)
            ?_ hp hc
          intro hLe hMarkp hMarkc
          rw [hMark (by rwa [hHigh]) ?_, BitVec.and_assoc, hMarkc, hMarkp]
          cases hHiz : (widen p.value_ c.value_).isHiz with
          | false => rfl
          | true =>
            rcases (isHiz_iff _).mp hHiz with ⟨h1, h0⟩
            have hDiff := hOpen p hpHiz hpUn
            omega

/- What a drive absorbs resolves to something it absorbs. -/
theorem absorbs_resolve {a p c : VvpScalar} (ha : a.IsDriver)
    (hp : a.Absorbs false p) (hc : a.Absorbs false c) :
    a.Absorbs false (resolve p c) := by
  rw [absorbs_iff_spans ha] at *
  exact spans_resolve hp hc

/- Values that absorb each other are the same. -/
theorem absorbs_antisymm {a b : VvpScalar} (hab : a.Absorbs false b)
    (hba : b.Absorbs false a) : a.canon = b.canon := by
  calc a.canon = (resolve a b).canon := hab.symm
    _ = (resolve b a).canon := resolve_comm a b
    _ = b.canon := hba

----
-- Clashing Drives
----

theorem isDriver_settle {d : Drive} (hClean : d.Clean) :
    d.settle.IsDriver := by
  rcases Drive.settle_cases hClean with ⟨-, -, h⟩ | ⟨-, -, h⟩ | ⟨-, -, h⟩
  · exact ⟨_, _, _, h⟩
  · exact ⟨_, _, _, h⟩
  · exact ⟨_, _, _, h⟩

/- Drives that do not undercut resolve to a drive above both. -/
theorem resolve_drives {a b : VvpScalar} (ha : a.IsDriver)
    (hb : b.IsDriver) (hab : ¬Undercut a b) (hba : ¬Undercut b a) :
    (resolve a b).canon.IsDriver ∧ (resolve a b).Absorbs false a ∧
      (resolve a b).Absorbs false b := by
  have hFree : UndercutFree {a, b} := by
    have hSelf : ∀ v : VvpScalar, ¬Undercut v v := by
      rintro v ⟨hx, ⟨h, -⟩ | ⟨h, -⟩⟩
      · rw [hx] at h
        cases h
      · rw [hx] at h
        cases h
    rintro x (rfl | rfl) u (rfl | rfl)
    · exact hSelf _
    · exact hab
    · exact hba
    · exact hSelf _
  have hSumA : Summary {a, b} a a.drive :=
    ⟨attained_drive (by simp), canon_of_isDriver ha⟩
  have hSumB : Summary {a, b} b b.drive :=
    ⟨attained_drive (by simp), canon_of_isDriver hb⟩
  have hSum := summary_resolve hFree hSumA hSumB
  refine ⟨?_, ?_, ?_⟩
  · rw [hSum.2]
    exact isDriver_settle (clean_of_attained hFree hSum.1)
  · have hMore := summary_resolve hFree hSum hSumA
    rw [sup_right_comm, sup_idem] at hMore
    exact hMore.2.trans hSum.2.symm
  · have hMore := summary_resolve hFree hSum hSumB
    rw [sup_assoc, sup_idem] at hMore
    exact hMore.2.trans hSum.2.symm

theorem absorbs_false_of_absorbs (h : a.Absorbs exact b) :
    a.Absorbs false b := by
  cases exact with
  | false => exact h
  | true => exact absorbs_of_eq h

/- Only HiZ absorbs nothing but HiZ. -/
theorem isHiz_of_absorbs {m : VvpScalar} (ha : a.isHiz = false)
    (h : m.Absorbs false a) : m.isHiz = false := by
  by_contra hm
  rw [Bool.not_eq_false] at hm
  rw [Absorbs, resolve_of_isHiz_left a hm] at h
  have hCanon : a.canon = m.canon := h
  rw [← isHiz_canon, hCanon, isHiz_canon, hm] at ha
  cases ha

/- Two odd encodings of HiZ meet in a way that shows. -/
def HiZSwap (exact : Bool) (a b : VvpScalar) : Prop :=
  a.isHiz ∧ b.isHiz ∧ b ≠ a ∧ (exact ∨ b ≠ hiz)

/-
  Drives clash when one undercuts the other, or when they are
  the two encodings of HiZ and the new one shows.
-/
theorem clashes_iff (ha : a.IsDriver) (hb : b.IsDriver) :
    a.Clashes exact b ↔
      Undercut a b ∨ Undercut b a ∨ HiZSwap exact a b := by
  constructor
  · intro hClash
    by_contra hNot
    rw [not_or, not_or] at hNot
    rcases hNot with ⟨hab, hba, hSwap⟩
    cases haHiz : a.isHiz with
    | true =>
      have hLeft := fun h : VvpScalar => resolve_of_isHiz_left h haHiz
      rw [Clashes, hLeft b] at hClash
      rcases hClash with h | ⟨h, hOld, hNew⟩ | ⟨-, hbHiz, hNe, hOdd⟩
      · exact h (absorbs_self b)
      · rw [Absorbs, hLeft h] at hOld
        have hhHiz : h.isHiz = true := by
          by_cases hEq : h = a
          · rw [hEq, haHiz]
          · exact (isHiz_of_same hOld hEq).1
        cases hbHiz : b.isHiz with
        | false => exact hNew (absorbs_of_isHiz hhHiz hbHiz)
        | true =>
          apply hNew
          rw [Absorbs, resolve_of_isHiz_left h hbHiz]
          cases exact with
          | false =>
            exact (canon_of_isHiz hhHiz).trans (canon_of_isHiz hbHiz).symm
          | true =>
            by_cases hEq : b = a
            · rw [hEq]
              exact hOld
            · exact absurd ⟨haHiz, hbHiz, hEq, Or.inl rfl⟩ hSwap
      · exact hSwap ⟨haHiz, hbHiz, hNe, Or.inr hOdd⟩
    | false =>
      rcases resolve_drives ha hb hab hba with ⟨hDriver, hAbsA, hAbsB⟩
      have hHiz := isHiz_of_absorbs haHiz hAbsA
      rw [canon_of_not_isHiz hHiz] at hDriver
      have hIff : ∀ h, (resolve a b).Absorbs exact h ↔
          (resolve a b).Absorbs false h := by
        intro h
        rw [absorbs_iff_of_not_isHiz hHiz, absorbs_iff_of_not_isHiz hHiz]
      rcases hClash with h | ⟨h, hOld, hNew⟩ | ⟨h, -⟩
      · exact h ((hIff b).mpr hAbsB)
      · exact hNew ((hIff h).mpr (absorbs_trans hDriver ha hAbsA
          (absorbs_false_of_absorbs hOld)))
      · rw [haHiz] at h
        cases h
  · rintro (h | h | ⟨haHiz, hbHiz, hNe, hShows⟩)
    · refine Or.inr (Or.inl ⟨a, absorbs_self a, fun hAgain => ?_⟩)
      have hNe := resolve_undercut ha hb h
      rw [resolve_self] at hNe
      exact hNe (absorbs_false_of_absorbs hAgain).symm
    · refine Or.inl fun hAgain => ?_
      have hNe := resolve_undercut hb ha h
      rw [resolve_self] at hNe
      apply hNe
      have hOnce : (resolve (resolve a b) b).canon = (resolve a b).canon :=
        absorbs_false_of_absorbs hAgain
      calc (resolve b a).canon = (resolve a b).canon := resolve_comm b a
        _ = (resolve (resolve a b) b).canon := hOnce.symm
        _ = (resolve (resolve a b).canon b.canon).canon :=
            (canon_resolve_canon _ _).symm
        _ = (resolve (resolve b a).canon b.canon).canon := by
            rw [resolve_comm a b]
        _ = (resolve (resolve b a) b).canon := canon_resolve_canon _ _
    · cases exact with
      | true =>
        refine Or.inr (Or.inl ⟨a, absorbs_self a, fun hAgain => ?_⟩)
        rw [resolve_of_isHiz_left b haHiz, Absorbs,
          resolve_of_isHiz_left a hbHiz] at hAgain
        exact hNe hAgain.symm
      | false =>
        exact Or.inr (Or.inr ⟨haHiz, hbHiz, hNe,
          hShows.resolve_left (by simp)⟩)

end VvpScalar

----
-- Vectors
----

namespace VvpVector8

/- Resolving `b` into `a` changes nothing. -/
def Absorbs (exact : Bool) (a b : VvpVector8) : Prop :=
  (resolve a b).map (VvpScalar.same exact) = a.map (VvpScalar.same exact)

/- Some lane of `a` clashes with the lane of `b`. -/
def Clashes (exact : Bool) (a b : VvpVector8) : Prop :=
  ∃ i < a.size, (a.value i).Clashes exact (b.value i)

instance (exact : Bool) (a b : VvpVector8) :
    Decidable (Absorbs exact a b) := by
  unfold Absorbs
  infer_instance

instance (exact : Bool) (a b : VvpVector8) :
    Decidable (Clashes exact a b) := by
  unfold Clashes
  infer_instance

noncomputable def rank (exact : Bool) (a : VvpVector8) : Nat :=
  ∑ i ∈ Finset.range a.size, (a.value i).rank exact

variable {exact : Bool} {a b c : VvpVector8}

theorem size_resolve (hSize : a.size = b.size) :
    (resolve a b).size = a.size := by
  simp only [size] at *
  rw [resolve_length, hSize, min_self]

theorem absorbs_iff (hSize : a.size = b.size) :
    Absorbs exact a b ↔
      ∀ i < a.size, (a.value i).Absorbs exact (b.value i) := by
  rw [Absorbs, map_eq_iff (size_resolve hSize), size_resolve hSize]
  refine forall₂_congr fun i hi => ?_
  rw [value_resolve rfl hSize.symm hi, VvpScalar.Absorbs]

theorem absorbs_self (a : VvpVector8) : Absorbs exact a a := by
  rw [Absorbs, resolve_self]

/- Resolving values that do not clash absorbs. -/
theorem absorbs_of_not_clashes (hSize : a.size = b.size)
    (hClash : ¬Clashes exact a b) :
    Absorbs exact (resolve a b) b ∧
      ∀ h : VvpVector8, a.size = h.size → Absorbs exact a h →
        Absorbs exact (resolve a b) h := by
  have hLane : ∀ i < a.size, ¬(a.value i).Clashes exact (b.value i) :=
    fun i hi h => hClash ⟨i, hi, h⟩
  have hBoth := size_resolve hSize
  constructor
  · rw [absorbs_iff (hBoth.trans hSize), hBoth]
    intro i hi
    rw [value_resolve rfl hSize.symm hi]
    by_contra h
    exact hLane i hi (Or.inl h)
  · intro h hSizeh hOld
    rw [absorbs_iff hSizeh] at hOld
    rw [absorbs_iff (hBoth.trans hSizeh), hBoth]
    intro i hi
    rw [value_resolve rfl hSize.symm hi]
    by_contra hNew
    exact hLane i hi (Or.inr (Or.inl ⟨_, hOld i hi, hNew⟩))

theorem rank_resolve_lt (hSize : a.size = b.size)
    (hClash : ¬Clashes exact a b) (hNe : resolve a b ≠ a) :
    rank exact (resolve a b) < rank exact a := by
  have hLane : ∀ i < a.size, ¬(a.value i).Clashes exact (b.value i) :=
    fun i hi h => hClash ⟨i, hi, h⟩
  have hBoth := size_resolve hSize
  obtain ⟨i, hi, hDiff⟩ : ∃ i < a.size,
      (a.value i).resolve (b.value i) ≠ a.value i := by
    by_contra h
    apply hNe
    have hId : (resolve a b).map id = a.map id := by
      rw [map_eq_iff hBoth, hBoth]
      intro i hi
      rw [value_resolve rfl hSize.symm hi]
      by_contra hDiff
      exact h ⟨i, hi, hDiff⟩
    simpa using hId
  unfold rank
  rw [hBoth]
  refine Finset.sum_lt_sum ?_ ⟨i, Finset.mem_range.mpr hi, ?_⟩
  · intro j hj
    rw [Finset.mem_range] at hj
    rw [value_resolve rfl hSize.symm hj]
    by_cases hSame : (a.value j).resolve (b.value j) = a.value j
    · rw [hSame]
    · exact (VvpScalar.rank_resolve_lt (hLane j hj) hSame).le
  · rw [value_resolve rfl hSize.symm hi]
    exact VvpScalar.rank_resolve_lt (hLane i hi) hDiff

/- Every lane is a value that some driver can emit. -/
def Driven (a : VvpVector8) : Prop :=
  ∀ s ∈ a, s.IsDriver

/- What lies beyond a vector is HiZ, and driven too. -/
theorem driven_value (ha : Driven a) (i : Nat) : (a.value i).IsDriver := by
  by_cases hi : i < a.length
  · rw [value_of_lt hi]
    exact ha _ (List.getElem_mem hi)
  · rw [value, List.getD_eq_default _ _ (not_lt.mp hi)]
    exact ⟨.z, 0, 0, rfl⟩

theorem absorbs_trans (hab : a.size = b.size) (hbc : b.size = c.size)
    (ha : Driven a) (hb : Driven b) (h : Absorbs false a b)
    (h' : Absorbs false b c) : Absorbs false a c := by
  rw [absorbs_iff hab] at h
  rw [absorbs_iff hbc] at h'
  rw [absorbs_iff (hab.trans hbc)]
  intro i hi
  exact VvpScalar.absorbs_trans (driven_value ha i) (driven_value hb i)
    (h i hi) (h' i (hab ▸ hi))

theorem absorbs_resolve (hab : a.size = b.size) (hac : a.size = c.size)
    (ha : Driven a) (hb : Absorbs false a b) (hc : Absorbs false a c) :
    Absorbs false a (resolve b c) := by
  have hbc : b.size = c.size := hab.symm.trans hac
  rw [absorbs_iff hab] at hb
  rw [absorbs_iff hac] at hc
  rw [absorbs_iff (hab.trans (size_resolve hbc).symm)]
  intro i hi
  rw [value_resolve rfl hbc.symm (hab ▸ hi)]
  exact VvpScalar.absorbs_resolve (driven_value ha i) (hb i hi) (hc i hi)

theorem absorbs_antisymm (hSize : a.size = b.size)
    (hab : Absorbs false a b) (hba : Absorbs false b a) :
    a.map VvpScalar.canon = b.map VvpScalar.canon := by
  rw [absorbs_iff hSize] at hab
  rw [absorbs_iff hSize.symm] at hba
  rw [map_eq_iff hSize]
  intro i hi
  exact VvpScalar.absorbs_antisymm (hab i hi) (hba i (hSize ▸ hi))

theorem map_canon_resolve (a b : VvpVector8) :
    (resolve a b).map VvpScalar.canon =
      (resolve (a.map VvpScalar.canon) (b.map VvpScalar.canon)).map
        VvpScalar.canon := by
  rw [resolve, resolve, List.map_zipWith, List.map_zipWith,
    List.zipWith_map]
  simp only [VvpScalar.canon_resolve_canon]

/- Absorbing does not see the encodings of HiZ. -/
theorem absorbs_congr {a' c' : VvpVector8}
    (ha : a.map VvpScalar.canon = a'.map VvpScalar.canon)
    (hc : c.map VvpScalar.canon = c'.map VvpScalar.canon)
    (h : Absorbs false a c) : Absorbs false a' c' := by
  change (resolve a' c').map VvpScalar.canon = a'.map VvpScalar.canon
  rw [map_canon_resolve, ← ha, ← hc, ← map_canon_resolve]
  exact h

end VvpVector8

end EpicSim
