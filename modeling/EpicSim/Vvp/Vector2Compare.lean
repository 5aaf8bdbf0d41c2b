import EpicSim.Vvp.Vector2Number

/-
  Two-state vectors compare by their numbers as long as no
  operation leaves tail bits behind.
-/

----
-- Terms
----

namespace EpicSim

open Option (map_eq_some_iff bind_eq_some_iff)

/- How a vector is made from the public constructors. -/
inductive VectorTerm where
| fill : Bool → Nat → VectorTerm
| long : BitVec 64 → Nat → VectorTerm
| vector4 : VvpVector4 → Bool → VectorTerm
| resize : VectorTerm → Nat → VectorTerm
| setBit : VectorTerm → Nat → Bool → VectorTerm
| addAssign : VectorTerm → VectorTerm → VectorTerm
| subAssign : VectorTerm → VectorTerm → VectorTerm
| shiftLeft : VectorTerm → Nat → VectorTerm
| shiftRight : VectorTerm → Nat → VectorTerm
| mul : VectorTerm → VectorTerm → VectorTerm
| neg : VectorTerm → VectorTerm
| trim : VectorTerm → VectorTerm

namespace VectorTerm

/-
  The vector; none if an assertion fails on the way, or a
  native long is written into no word at all.
-/
def eval : VectorTerm → Option VvpVector2
| fill f wid => some (.ofFill f wid)
| long v wid => if 0 < wid then some (.ofLong v wid) else none
| vector4 that enableNaN => some (.ofVector4 that enableNaN)
| resize t newsize => t.eval.map (fun v => v.resize newsize)
| setBit t idx bit => t.eval.bind (fun v => v.setBit idx bit)
| addAssign a b => a.eval.bind (fun va => b.eval.bind va.addAssign)
| subAssign a b => a.eval.bind (fun va => b.eval.bind va.subAssign)
| shiftLeft t shift => t.eval.map (fun v => v.shiftLeft shift)
| shiftRight t shift => t.eval.bind (fun v => v.shiftRight shift)
| mul a b => a.eval.bind (fun va => b.eval.bind va.mul)
| neg t => t.eval.bind VvpVector2.neg
| trim t => t.eval.map VvpVector2.trim

/-
  The last operation leaves no tail bits: ones fill whole
  words, a native long fits its width, a smaller size cuts
  off zeros or whole words, a difference does not wrap, and
  what a product or a shift by whole words carries beyond the
  width goes beyond the last word as well.
-/
def StepCareful : VectorTerm → Prop
| fill f wid => f = true → wid % 64 = 0
| long v wid => 0 < wid → v.toNat < 2 ^ wid
| resize t newsize => ∀ v, t.eval = some v → v.number % 2 ^ (64 * wordsFor newsize) < 2 ^ newsize
| subAssign a b =>
  ∀ va vb, a.eval = some va → b.eval = some vb →
    va.wid = vb.wid → va.wid % 64 = 0 ∨ vb.number ≤ va.number
| shiftLeft t shift =>
  ∀ v, t.eval = some v →
    shift % 64 ≠ 0 ∨ v.number * 2 ^ shift % 2 ^ (64 * wordsFor v.wid) < 2 ^ v.wid
| mul a b =>
  ∀ va vb, a.eval = some va → b.eval = some vb →
    va.wid = vb.wid → va.number * vb.number % 2 ^ (64 * wordsFor va.wid) < 2 ^ va.wid
| _ => True

/-
  The vector has a word for `is_one` to read: it is neither
  made without bits nor NaN.
-/
def StepFilled : VectorTerm → Prop
| fill _ wid => wid ≠ 0
| vector4 that enableNaN => that.size_ ≠ 0 ∧ (enableNaN && that.hasXz) = false
| resize t newsize => ∀ v, t.eval = some v → newsize ≠ 0
| _ => True

/- The operands of the last operation. -/
def Operands (P : VectorTerm → Prop) : VectorTerm → Prop
| resize t _ => P t
| setBit t _ _ => P t
| addAssign a b => P a ∧ P b
| subAssign a b => P a ∧ P b
| shiftLeft t _ => P t
| shiftRight t _ => P t
| mul a b => P a ∧ P b
| neg t => P t
| trim t => P t
| _ => True

/- At every operation that takes part. -/
def Everywhere (P : VectorTerm → Prop) : VectorTerm → Prop
| fill f wid => P (fill f wid)
| long v wid => P (long v wid)
| vector4 that enableNaN => P (vector4 that enableNaN)
| resize t newsize => t.Everywhere P ∧ P (resize t newsize)
| setBit t idx bit => t.Everywhere P ∧ P (setBit t idx bit)
| addAssign a b => (a.Everywhere P ∧ b.Everywhere P) ∧ P (addAssign a b)
| subAssign a b => (a.Everywhere P ∧ b.Everywhere P) ∧ P (subAssign a b)
| shiftLeft t shift => t.Everywhere P ∧ P (shiftLeft t shift)
| shiftRight t shift => t.Everywhere P ∧ P (shiftRight t shift)
| mul a b => (a.Everywhere P ∧ b.Everywhere P) ∧ P (mul a b)
| neg t => t.Everywhere P ∧ P (neg t)
| trim t => t.Everywhere P ∧ P (trim t)

/- No operation leaves tail bits. -/
def Careful (t : VectorTerm) : Prop := t.Everywhere StepCareful

/- No vector on the way is empty. -/
def Filled (t : VectorTerm) : Prop := t.Everywhere StepFilled

theorem everywhere_iff (P : VectorTerm → Prop) (t : VectorTerm) :
    t.Everywhere P ↔ t.Operands (Everywhere P) ∧ P t := by
  cases t <;> simp [Everywhere, Operands]

theorem Operands.mono {P Q : VectorTerm → Prop} (h : ∀ t, P t → Q t) {t : VectorTerm}
    (hOperands : t.Operands P) : t.Operands Q := by
  cases t <;> simp only [Operands] at hOperands ⊢ <;> grind

/- What passes from the operands to the result. -/
theorem induct {P : VectorTerm → Prop} (h : ∀ t, t.Operands P → P t) (t : VectorTerm) : P t := by
  induction t with
  | fill f wid => exact h _ trivial
  | long v wid => exact h _ trivial
  | vector4 that enableNaN => exact h _ trivial
  | resize t newsize ih => exact h _ ih
  | setBit t idx bit ih => exact h _ ih
  | addAssign a b ihA ihB => exact h _ ⟨ihA, ihB⟩
  | subAssign a b ihA ihB => exact h _ ⟨ihA, ihB⟩
  | shiftLeft t shift ih => exact h _ ih
  | shiftRight t shift ih => exact h _ ih
  | mul a b ihA ihB => exact h _ ⟨ihA, ihB⟩
  | neg t ih => exact h _ ih
  | trim t ih => exact h _ ih

/-
  Two conditions agree on every operation if they agree where
  they hold of the operands.
-/
theorem everywhere_congr
    {P Q : VectorTerm → Prop} (h : ∀ t, t.Operands (Everywhere Q) → (P t ↔ Q t)) (t : VectorTerm) :
    t.Everywhere P ↔ t.Everywhere Q := by
  induction t using induct with
  | h t hOperands =>
    have hSame : t.Operands (Everywhere P) ↔
        t.Operands (Everywhere Q) := by
      cases t <;>
        simp only [Operands] at hOperands ⊢ <;>
        grind
    rw [everywhere_iff P, everywhere_iff Q, hSame]
    exact and_congr_right (h t)

theorem everywhere_and (P Q : VectorTerm → Prop) (t : VectorTerm) :
    t.Everywhere (fun s => P s ∧ Q s) ↔
      t.Everywhere P ∧ t.Everywhere Q := by
  induction t <;> simp only [Everywhere] <;> grind

end VectorTerm

----
-- Tail Bits
----

open VvpVector2

theorem clean_empty : VvpVector2.empty.Clean := by
  exact Nat.one_pos

theorem clean_ofVector4 (that : VvpVector4) (enableNaN : Bool) :
    (ofVector4 that enableNaN).Clean := by
  unfold ofVector4
  split_ifs
  · exact clean_empty
  · exact clean_copyFromThat that

/- Ones fill the width when it is made of whole words. -/
theorem clean_ofFill_iff (f : Bool) (wid : Nat) :
    (ofFill f wid).Clean ↔ (f = true → wid % 64 = 0) := by
  have hBounds := wordsFor_bounds wid
  change (ofFill f wid).whole < 2 ^ wid ↔ _
  rw [whole_ofFill]
  cases f with
  | false => simp
  | true =>
    simp only [if_true, forall_const]
    constructor
    · intro hLt
      by_contra hPart
      have hWords : wid + 1 ≤ 64 * wordsFor wid := by omega
      have hPow := Nat.pow_le_pow_right (by decide : 0 < 2) hWords
      omega
    · grind

/- A difference that does not wrap has no tail bits. -/
theorem clean_subAssign_iff
    {a b res : VvpVector2} (hA : a.Clean) (hB : b.Clean) (hWid : a.wid = b.wid)
    (hRes : a.subAssign b = some res) : res.Clean ↔ a.wid % 64 = 0 ∨ b.whole ≤ a.whole := by
  have hBounds := wordsFor_bounds a.wid
  rcases subAssign_spec hWid with ⟨res', hRes', hW, hWhole⟩
  rw [hRes] at hRes'
  injection hRes' with hSame
  subst hSame
  change res.whole < 2 ^ res.wid ↔ _
  rw [hW]
  rcases Nat.lt_or_ge a.whole b.whole with hLess | hLe
  · constructor
    · intro hLt
      left
      by_contra hPart
      -- a wrapped difference fills all words above the width
      have hWords : a.wid + 1 ≤ 64 * wordsFor a.wid := by omega
      have hPow := Nat.pow_le_pow_right (by decide : 0 < 2) hWords
      have hSmall : b.whole < 2 ^ a.wid := by
        rw [hWid]
        exact hB
      rw [Nat.mod_eq_of_lt (by omega)] at hWhole
      omega
    · rintro (hMod | hLe)
      · have hSame : 64 * wordsFor a.wid = a.wid := by
          omega
        rw [hWhole, hSame]
        exact Nat.mod_lt _ (Nat.two_pow_pos _)
      · omega
  · refine ⟨fun _ => Or.inr hLe, fun _ => ?_⟩
    rcases subAssign_of_le hWid hLe with ⟨res', hRes', -, hExact⟩
    rw [hRes] at hRes'
    injection hRes' with hSame
    subst hSame
    rw [hExact]
    exact Nat.lt_of_le_of_lt (Nat.sub_le _ _) hA

namespace VectorTerm

/- The vector, if there is one, has no tail bits. -/
def EvalClean (t : VectorTerm) : Prop :=
  ∀ v, t.eval = some v → v.Clean

/- An assertion on the widths holds where there is a result. -/
theorem wid_eq_of_some (op : VvpVector2 → VvpVector2 → Option VvpVector2)
    (hOp : ∀ a b : VvpVector2, a.wid ≠ b.wid → op a b = none)
    {a b res : VvpVector2} (h : op a b = some res) : a.wid = b.wid := by
  by_contra hNe
  rw [hOp a b hNe] at h
  cases h

variable {t : VectorTerm}

/-
  After operations that leave no tail bits, the vector has
  none exactly when the last operation leaves none.
-/
theorem clean_iff_stepCareful (hOperands : t.Operands EvalClean) {v : VvpVector2}
    (hEval : t.eval = some v) : v.Clean ↔ t.StepCareful := by
  cases t with
  | fill f wid =>
    injection hEval with hEval
    subst hEval
    exact clean_ofFill_iff f wid
  | long val wid =>
    simp only [eval] at hEval
    split_ifs at hEval with hWid
    injection hEval with hEval
    subst hEval
    change (ofLong val wid).whole < 2 ^ wid ↔ _
    rw [whole_ofLong val hWid]
    exact ⟨fun hLt _ => hLt, fun hStep => hStep hWid⟩
  | vector4 that enableNaN =>
    injection hEval with hEval
    subst hEval
    exact ⟨fun _ => trivial, fun _ => clean_ofVector4 that enableNaN⟩
  | resize t newsize =>
    rcases map_eq_some_iff.mp hEval with ⟨old, hOld, rfl⟩
    have hClean := hOperands old hOld
    change (old.resize newsize).whole < 2 ^ newsize ↔ _
    rw [whole_resize, ← hClean.number]
    constructor
    · intro hLt v hv
      grind
    · intro hStep
      exact hStep old hOld
  | setBit t idx bit =>
    rcases bind_eq_some_iff.mp hEval with ⟨old, hOld, hRes⟩
    exact ⟨fun _ => trivial, fun _ => clean_setBit (hOperands old hOld) hRes⟩
  | addAssign a b =>
    rcases bind_eq_some_iff.mp hEval with ⟨va, hA, hBind⟩
    rcases bind_eq_some_iff.mp hBind with ⟨vb, hB, hRes⟩
    have hWid := wid_eq_of_some VvpVector2.addAssign (fun a b hNe => dif_neg hNe) hRes
    rcases addAssign_spec hWid with ⟨res, hSome, hResWid, hWhole⟩
    rw [hRes] at hSome
    injection hSome with hSame
    subst hSame
    refine ⟨fun _ => trivial, fun _ => ?_⟩
    change v.whole < 2 ^ v.wid
    rw [hWhole, hResWid]
    exact Nat.mod_lt _ (Nat.two_pow_pos _)
  | subAssign a b =>
    rcases bind_eq_some_iff.mp hEval with ⟨va, hA, hBind⟩
    rcases bind_eq_some_iff.mp hBind with ⟨vb, hB, hRes⟩
    have hWid := wid_eq_of_some VvpVector2.subAssign (fun a b hNe => dif_neg hNe) hRes
    have hCleanA := hOperands.1 va hA
    have hCleanB := hOperands.2 vb hB
    rw [clean_subAssign_iff hCleanA hCleanB hWid hRes, ← hCleanA.number, ← hCleanB.number]
    constructor
    · intro hStep va' vb' hA' hB' _
      grind
    · intro hStep
      exact hStep va vb hA hB hWid
  | shiftLeft t shift =>
    rcases map_eq_some_iff.mp hEval with ⟨old, hOld, rfl⟩
    have hClean := hOperands old hOld
    rcases shiftLeft_spec old shift with ⟨hWid, hWhole⟩
    have hStepIff : (shiftLeft t shift).StepCareful ↔
        (shift % 64 ≠ 0 ∨
          old.number * 2 ^ shift % 2 ^ (64 * wordsFor old.wid) < 2 ^ old.wid) := by
      constructor
      · intro hStep
        exact hStep old hOld
      · intro hStep v hv
        grind
    rw [hStepIff]
    change (old.shiftLeft shift).whole < 2 ^ (old.shiftLeft shift).wid ↔ _
    rw [hWid, hWhole, hClean.number]
    by_cases hOff : shift % 64 = 0
    · simp [hOff]
    · simp only [hOff, ne_eq, not_false_iff, true_or, iff_true]
      exact Nat.mod_lt _ (Nat.two_pow_pos _)
  | shiftRight t shift =>
    rcases bind_eq_some_iff.mp hEval with ⟨old, hOld, hRes⟩
    rcases shiftRight_of_clean (hOperands old hOld) hRes with ⟨hWid, hWhole⟩
    refine ⟨fun _ => trivial, fun _ => ?_⟩
    change v.whole < 2 ^ v.wid
    rw [hWid, hWhole]
    exact Nat.lt_of_le_of_lt (Nat.div_le_self _ _) (hOperands old hOld)
  | mul a b =>
    rcases bind_eq_some_iff.mp hEval with ⟨va, hA, hBind⟩
    rcases bind_eq_some_iff.mp hBind with ⟨vb, hB, hRes⟩
    have hWid := wid_eq_of_some VvpVector2.mul (fun a b hNe => if_neg hNe) hRes
    rcases mul_spec hWid with ⟨res, hSome, hResWid, hWhole⟩
    rw [hRes] at hSome
    injection hSome with hSame
    subst hSame
    change v.whole < 2 ^ v.wid ↔ _
    rw [hWhole, hResWid, ← (hOperands.1 va hA).number, ← (hOperands.2 vb hB).number]
    constructor
    · intro hStep va' vb' hA' hB' _
      grind
    · intro hStep
      exact hStep va vb hA hB hWid
  | neg t =>
    rcases bind_eq_some_iff.mp hEval with ⟨old, hOld, hRes⟩
    rcases neg_spec old with ⟨res, hSome, hWid, hWhole⟩
    rw [hRes] at hSome
    injection hSome with hSame
    subst hSame
    refine ⟨fun _ => trivial, fun _ => ?_⟩
    change v.whole < 2 ^ v.wid
    rw [hWid, hWhole]
    exact Nat.mod_lt _ (Nat.two_pow_pos _)
  | trim t =>
    rcases map_eq_some_iff.mp hEval with ⟨old, hOld, rfl⟩
    exact ⟨fun _ => trivial, fun _ => (trim_of_clean (hOperands old hOld)).1⟩

/- What every step passes on to the value. -/
theorem eval_of_everywhere {Step Good : VectorTerm → Prop}
    (hStep : ∀ t : VectorTerm, t.Operands Good → Step t → Good t) (hAll : t.Everywhere Step) :
    Good t := by
  induction t using induct with
  | h t hOperands =>
    rcases (everywhere_iff Step t).mp hAll with ⟨hParts, hOwn⟩
    refine hStep t ?_ hOwn
    cases t <;>
      simp only [Operands] at hOperands hParts ⊢ <;>
      first
      | exact hOperands hParts
      | exact ⟨hOperands.1 hParts.1, hOperands.2 hParts.2⟩

/- Careful operations leave no tail bits. -/
theorem evalClean_of_careful (hCareful : t.Careful) : t.EvalClean :=
  eval_of_everywhere
    (fun _ hClean hStep _ hEval => (clean_iff_stepCareful hClean hEval).mpr hStep) hCareful

/- The vector, if there is one, is not empty. -/
def EvalFilled (t : VectorTerm) : Prop :=
  ∀ v, t.eval = some v → v.wid ≠ 0

theorem trimWidth_pos (v : VvpVector2) {wid : Nat} (h : wid ≠ 0) : trimWidth v wid ≠ 0 := by
  induction wid with
  | zero => exact absurd rfl h
  | succ wid ih =>
    cases wid with
    | zero => exact Nat.one_ne_zero
    | succ wid =>
      simp only [trimWidth]
      grind

/- Only the constructors and `resize` make empty vectors. -/
theorem filled_iff_stepFilled (hOperands : t.Operands EvalFilled) {v : VvpVector2}
    (hEval : t.eval = some v) : v.wid ≠ 0 ↔ t.StepFilled := by
  cases t with
  | fill f wid =>
    injection hEval with hEval
    subst hEval
    exact Iff.rfl
  | long val wid =>
    simp only [eval] at hEval
    split_ifs at hEval with hWid
    injection hEval with hEval
    subst hEval
    exact ⟨fun _ => trivial, fun _ => Nat.pos_iff_ne_zero.mp hWid⟩
  | vector4 that enableNaN =>
    injection hEval with hEval
    subst hEval
    simp only [StepFilled, ofVector4]
    split_ifs with hNaN
    · simp [hNaN, VvpVector2.empty]
    · simp [hNaN, copyFromThat]
  | resize t newsize =>
    rcases map_eq_some_iff.mp hEval with ⟨old, hOld, rfl⟩
    exact ⟨fun hNe _ _ => hNe, fun hStep => hStep old hOld⟩
  | setBit t idx bit =>
    rcases bind_eq_some_iff.mp hEval with ⟨old, hOld, hRes⟩
    refine ⟨fun _ => trivial, fun _ => ?_⟩
    unfold VvpVector2.setBit at hRes
    grind
  | addAssign a b =>
    rcases bind_eq_some_iff.mp hEval with ⟨va, hA, hBind⟩
    rcases bind_eq_some_iff.mp hBind with ⟨vb, hB, hRes⟩
    have hWid := wid_eq_of_some VvpVector2.addAssign (fun a b hNe => dif_neg hNe) hRes
    rcases addAssign_spec hWid with ⟨res, hSome, hResWid, -⟩
    rw [hRes] at hSome
    injection hSome with hSame
    rw [hSame, hResWid]
    exact ⟨fun _ => trivial, fun _ => hOperands.1 va hA⟩
  | subAssign a b =>
    rcases bind_eq_some_iff.mp hEval with ⟨va, hA, hBind⟩
    rcases bind_eq_some_iff.mp hBind with ⟨vb, hB, hRes⟩
    have hWid := wid_eq_of_some VvpVector2.subAssign (fun a b hNe => dif_neg hNe) hRes
    rcases subAssign_spec hWid with ⟨res, hSome, hResWid, -⟩
    rw [hRes] at hSome
    injection hSome with hSame
    rw [hSame, hResWid]
    exact ⟨fun _ => trivial, fun _ => hOperands.1 va hA⟩
  | shiftLeft t shift =>
    rcases map_eq_some_iff.mp hEval with ⟨old, hOld, rfl⟩
    rw [(shiftLeft_spec old shift).1]
    exact ⟨fun _ => trivial, fun _ => hOperands old hOld⟩
  | shiftRight t shift =>
    rcases bind_eq_some_iff.mp hEval with ⟨old, hOld, hRes⟩
    rw [((shiftRight_spec old shift).2 v hRes).1]
    exact ⟨fun _ => trivial, fun _ => hOperands old hOld⟩
  | mul a b =>
    rcases bind_eq_some_iff.mp hEval with ⟨va, hA, hBind⟩
    rcases bind_eq_some_iff.mp hBind with ⟨vb, hB, hRes⟩
    have hWid := wid_eq_of_some VvpVector2.mul (fun a b hNe => if_neg hNe) hRes
    rcases mul_spec hWid with ⟨res, hSome, hResWid, -⟩
    rw [hRes] at hSome
    injection hSome with hSame
    rw [hSame, hResWid]
    exact ⟨fun _ => trivial, fun _ => hOperands.1 va hA⟩
  | neg t =>
    rcases bind_eq_some_iff.mp hEval with ⟨old, hOld, hRes⟩
    rcases neg_spec old with ⟨res, hSome, hWid, -⟩
    rw [hRes] at hSome
    injection hSome with hSame
    rw [hSame, hWid]
    exact ⟨fun _ => trivial, fun _ => hOperands old hOld⟩
  | trim t =>
    rcases map_eq_some_iff.mp hEval with ⟨old, hOld, rfl⟩
    exact ⟨fun _ => trivial, fun _ => trimWidth_pos old (hOperands old hOld)⟩

theorem evalFilled_of_filled (hFilled : t.Filled) : t.EvalFilled :=
  eval_of_everywhere
    (fun _ hNe hStep _ hEval => (filled_iff_stepFilled hNe hEval).mpr hStep) hFilled

end VectorTerm

end EpicSim

----
-- Comparisons
----

namespace EpicSim

namespace VvpVector2

/-
  The zero test and the comparisons with the vectors made
  without tail bits are those of the numbers.
-/
structure ComparesByNumber (v : VvpVector2) : Prop where
  zero : v.isZero = decide (v.number = 0)
  other : ∀ (s : VectorTerm) (w : VvpVector2),
    s.Careful → s.eval = some w →
      v.eq w = decide (v.number = w.number) ∧
      w.eq v = decide (w.number = v.number) ∧
      v.lt w = decide (v.number < w.number) ∧
      w.lt v = decide (w.number < v.number) ∧
      v.gt w = decide (w.number < v.number) ∧
      w.gt v = decide (v.number < w.number) ∧
      v.ge w = decide (w.number ≤ v.number) ∧
      w.ge v = decide (v.number ≤ w.number) ∧
      (v.wid = w.wid →
        v.le w = some (decide (v.number ≤ w.number)) ∧
        w.le v = some (decide (w.number ≤ v.number)))

/- The test for one is that of the number. -/
def OneByNumber (v : VvpVector2) : Prop :=
  v.isOne = some (decide (v.number = 1))

variable {v : VvpVector2}

theorem Clean.comparesByNumber (h : v.Clean) : v.ComparesByNumber := by
  constructor
  · rw [h.number, Bool.eq_iff_iff, isZero_iff, decide_eq_true_iff]
  · intro s w hCareful hEval
    have hW := VectorTerm.evalClean_of_careful hCareful w hEval
    rw [h.number, hW.number]
    refine ⟨?_, ?_, ?_, ?_, ?_, ?_, ?_, ?_, ?_⟩
    · rw [Bool.eq_iff_iff, eq_iff, decide_eq_true_iff]
    · rw [Bool.eq_iff_iff, eq_iff, decide_eq_true_iff]
    · rw [Bool.eq_iff_iff, lt_iff, decide_eq_true_iff]
    · rw [Bool.eq_iff_iff, lt_iff, decide_eq_true_iff]
    · rw [Bool.eq_iff_iff, gt_iff, decide_eq_true_iff]
    · rw [Bool.eq_iff_iff, gt_iff, decide_eq_true_iff]
    · rw [Bool.eq_iff_iff, ge_iff, decide_eq_true_iff]
    · rw [Bool.eq_iff_iff, ge_iff, decide_eq_true_iff]
    · intro hWid
      exact ⟨le_of_wid hWid, le_of_wid hWid.symm⟩

/- The same number without tail bits. -/
theorem number_ofVector4_toVector4 (v : VvpVector2) :
    (ofVector4 (v.toVector4 v.wid) false).number = v.number := by
  have hClean := EpicSim.clean_ofVector4 (v.toVector4 v.wid) false
  rcases toVector4_spec v v.wid with ⟨hSize, hBits⟩
  rw [hClean.number]
  apply Nat.eq_of_testBit_eq
  intro idx
  change (copyFromThat _).whole.testBit idx = _
  rw [testBit_copyFromThat, number_eq, Nat.testBit_mod_two_pow]
  by_cases hIdx : idx < v.wid
  · rw [hBits idx hIdx, value_eq, decide_eq_true hIdx]
    cases v.whole.testBit idx <;> rfl
  · have hPast : (v.toVector4 v.wid).value idx = .x := by
      unfold VvpVector4.value
      rw [hSize, if_pos (Nat.not_lt.mp hIdx)]
    rw [hPast, decide_eq_false hIdx]
    rfl

theorem ComparesByNumber.clean (h : v.ComparesByNumber) : v.Clean := by
  rcases h.other (.vector4 (v.toVector4 v.wid) false)
      (ofVector4 (v.toVector4 v.wid) false) trivial rfl with
    ⟨hEq, -⟩
  rw [number_ofVector4_toVector4, decide_eq_true rfl, eq_iff] at hEq
  apply clean_of_number
  rw [hEq, ← (EpicSim.clean_ofVector4 _ _).number]
  exact number_ofVector4_toVector4 v

theorem oneByNumber_iff (h : v.Clean) : v.OneByNumber ↔ v.wid ≠ 0 := by
  unfold OneByNumber
  constructor
  · intro hOne hWid
    have hVec : v.vec = [] := by
      rw [← List.length_eq_zero_iff, v.vec_length, hWid]
      rfl
    rw [isOne, hVec] at hOne
    cases hOne
  · intro hWid
    rw [isOne_of_pos (Nat.pos_of_ne_zero hWid), h.number]

end VvpVector2

namespace VectorTerm

open VvpVector2

variable {t : VectorTerm}

/- Where an assertion fails nothing is asked of the step. -/
theorem step_of_eval_none (hEval : t.eval = none) :
    t.StepCareful ∧ t.StepFilled := by
  cases t with
  | fill f wid => cases hEval
  | long val wid =>
    refine ⟨fun hWid => ?_, trivial⟩
    rw [eval, if_pos hWid] at hEval
    cases hEval
  | vector4 that enableNaN => cases hEval
  | resize t newsize =>
    have hNone := Option.map_eq_none_iff.mp hEval
    constructor <;>
    · intro v hv
      rw [hNone] at hv
      cases hv
  | subAssign a b =>
    refine ⟨fun va vb hA hB hWid => ?_, trivial⟩
    rcases subAssign_spec hWid with ⟨res, hRes, -⟩
    rw [eval, hA, hB] at hEval
    grind
  | shiftLeft t shift =>
    have hNone := Option.map_eq_none_iff.mp hEval
    refine ⟨fun v hv => ?_, trivial⟩
    rw [hNone] at hv
    cases hv
  | mul a b =>
    refine ⟨fun va vb hA hB hWid => ?_, trivial⟩
    rcases mul_spec hWid with ⟨res, hRes, -⟩
    rw [eval, hA, hB] at hEval
    grind
  | setBit t idx bit => exact ⟨trivial, trivial⟩
  | addAssign a b => exact ⟨trivial, trivial⟩
  | shiftRight t shift => exact ⟨trivial, trivial⟩
  | neg t => exact ⟨trivial, trivial⟩
  | trim t => exact ⟨trivial, trivial⟩

theorem comparesByNumber_step (hOperands : t.Operands Careful) :
    (∀ v, t.eval = some v → v.ComparesByNumber) ↔
      t.StepCareful := by
  have hClean := hOperands.mono (fun _ h => evalClean_of_careful h)
  cases hEval : t.eval with
  | none => exact ⟨fun _ => (step_of_eval_none hEval).1, fun _ v hv => by cases hv⟩
  | some v =>
    rw [← clean_iff_stepCareful hClean hEval]
    constructor
    · intro h
      exact (h v rfl).clean
    · rintro h v' hv'
      injection hv' with hv'
      subst hv'
      exact h.comparesByNumber

theorem comparesByNumber_oneByNumber_step (hCareful : t.Operands Careful)
    (hFilled : t.Operands Filled) :
    (∀ v, t.eval = some v →
      v.ComparesByNumber ∧ v.OneByNumber) ↔
      t.StepCareful ∧ t.StepFilled := by
  have hNe := hFilled.mono (fun _ h => evalFilled_of_filled h)
  rw [← comparesByNumber_step hCareful]
  cases hEval : t.eval with
  | none =>
    exact ⟨fun _ => ⟨fun v hv => (by cases hv),
      (step_of_eval_none hEval).2⟩, fun _ v hv => by cases hv⟩
  | some v =>
    rw [← filled_iff_stepFilled hNe hEval]
    constructor
    · intro h
      rcases h v rfl with ⟨hCompares, hOne⟩
      refine ⟨fun v' hv' => (h v' hv').1, ?_⟩
      exact (oneByNumber_iff hCompares.clean).mp hOne
    · rintro ⟨hCompares, hWid⟩ v' hv'
      have hSame := hCompares v' hv'
      injection hv' with hv'
      subst hv'
      exact ⟨hSame, (oneByNumber_iff hSame.clean).mpr hWid⟩

/-
  All comparisons on the way agree with the numbers exactly
  when no operation leaves tail bits; the tests for one as
  well exactly when also no vector is empty.
-/
theorem everywhere_comparesByNumber_iff (t : VectorTerm) :
    (t.Everywhere (fun s => ∀ v, s.eval = some v → v.ComparesByNumber) ↔ t.Careful) ∧
    (t.Everywhere (fun s => ∀ v, s.eval = some v →
        v.ComparesByNumber ∧ v.OneByNumber) ↔
      t.Careful ∧ t.Filled) := by
  constructor
  · exact everywhere_congr (fun _ hCareful => comparesByNumber_step hCareful) t
  · have hBoth : t.Careful ∧ t.Filled ↔ t.Everywhere (fun s => s.StepCareful ∧ s.StepFilled) :=
      (everywhere_and StepCareful StepFilled t).symm
    rw [hBoth]
    refine everywhere_congr (fun s hOperands => ?_) t
    have hSplit : ∀ s : VectorTerm,
        s.Everywhere
          (fun s => s.StepCareful ∧ s.StepFilled) →
            s.Careful ∧ s.Filled := fun s hs =>
      (everywhere_and StepCareful StepFilled s).mp hs
    exact comparesByNumber_oneByNumber_step
      (hOperands.mono (fun s hs => (hSplit s hs).1))
      (hOperands.mono (fun s hs => (hSplit s hs).2))

/-
  The difference 2 - 3 of four bits is 15 by its bits, but it
  does not equal the 15 of the same width.
-/
theorem subAssign_not_comparesByNumber :
    ¬ ∀ t : VectorTerm, t.Everywhere (fun s =>
      ∀ v, s.eval = some v →
        v.ComparesByNumber ∧ v.OneByNumber) := by
  intro h
  have hAll := h (.subAssign (.long 2#64 4) (.long 3#64 4))
  rcases hAll.2 _ rfl with ⟨hCompares, -⟩
  have hEq := (hCompares.other (.long 15#64 4)
    (VvpVector2.ofLong 15#64 4) (fun _ => by decide) rfl).1
  revert hEq
  decide

end VectorTerm

end EpicSim
