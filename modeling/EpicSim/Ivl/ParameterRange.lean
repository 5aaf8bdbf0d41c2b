import EpicSim.Ivl.VerinumCompare
import EpicSim.Ivl.Netmisc

/-
  Values of parameters, and the ranges they are declared in.

  One loop tests a value against the `from` and `exclude`
  ranges of its parameter.  Its flag starts as false, so that
  a list of `exclude` ranges alone reports every value.
-/

----
-- Ranges
----

namespace EpicSim

/- `NetScope::range_t`, with the constants that its bounds
   are. -/
structure ValueRange (α : Type) where
  exclude_flag : Bool
  low_open_flag : Bool
  low_expr : Option α
  high_open_flag : Bool
  high_expr : Option α

/- The comparisons of a type of values, as conditions. -/
structure Comparisons (α : Type) where
  lt : α → α → Bool
  le : α → α → Bool
  gt : α → α → Bool
  ge : α → α → Bool

namespace ValueRange

variable {α : Type}

/- The low bound continues the loop.  Where a bound is open
   and the first test fails, the second one is made too. -/
def belowLow (cmp : Comparisons α) (value : α) (value_range : ValueRange α) : Bool :=
  match value_range.low_expr with
  | none => false
  | some tmp =>
    if value_range.low_open_flag && cmp.le value tmp then true
    else cmp.lt value tmp

/- The high bound continues the loop. -/
def aboveHigh (cmp : Comparisons α) (value : α) (value_range : ValueRange α) : Bool :=
  match value_range.high_expr with
  | none => false
  | some tmp =>
    if value_range.high_open_flag && cmp.ge value tmp then true
    else cmp.gt value tmp

/- The loop over the ranges, and the flag it leaves. -/
def fromFlag (cmp : Comparisons α) (value : α) : Bool → List (ValueRange α) → Bool
| from_flag, [] => from_flag
| from_flag, value_range :: next =>
  if from_flag && value_range.exclude_flag == false then
    fromFlag cmp value from_flag next
  else if belowLow cmp value value_range then
    fromFlag cmp value from_flag next
  else if aboveHigh cmp value value_range then
    fromFlag cmp value from_flag next
  else if value_range.exclude_flag == false then
    fromFlag cmp value true next
  else false

end ValueRange

----
-- Parameters
----

/- A condition on a `verinum::V`: zero is false. -/
def VerinumV.toCondition (v : VerinumV) : Bool := v != .v0

/- The comparisons of two-state and four-state numbers. -/
def Verinum.comparisons : Comparisons Verinum where
  lt left right := (Verinum.lt left right).toCondition
  le left right := (Verinum.le left right).toCondition
  gt left right := (Verinum.gt left right).toCondition
  ge left right := (Verinum.ge left right).toCondition

/- A `double`: one of the ordered numbers, or not a number. -/
inductive Double (R : Type) where
| number (x : R)
| nan

namespace Double

variable {R : Type} [LinearOrder R]

/- `operator <`. -/
def lt : Double R → Double R → Bool
| number x, number y => decide (x < y)
| _, _ => false

/- `operator <=`. -/
def le : Double R → Double R → Bool
| number x, number y => decide (x ≤ y)
| _, _ => false

/- The comparisons of real numbers. -/
def comparisons : Comparisons (Double R) where
  lt := lt
  le := le
  gt left right := lt right left
  ge left right := le right left

end Double

/- `ivl_variable_type_t` of a parameter. -/
inductive ParameterType where
| noType | bool | logic | real
deriving DecidableEq

/- The expression of a parameter after its evaluation: of a
   type, and a constant of it where there is a value. -/
inductive ParameterExpr (R : Type) where
| real (value : Option (Double R))
| vector (value : Option Verinum)
| other

/- The errors of the two functions. -/
inductive ParameterError (R : Type) where
| unableMsb
| unableLsb
| unableReal
| unable
| unhandledType
| failedCast
| outOfRange (value : Verinum)
| outOfRangeReal (value : Double R)

/- The parts of `NetScope::param_expr_t` that are read: the
   range expressions with what `eval_as_long` makes of them,
   and the value ranges. -/
structure Parameter (α : Type) where
  msb_expr : Option (Option Int)
  lsb_expr : Option (Option Int)
  type : ParameterType
  signed_flag : Bool
  range : List (ValueRange α)

/- The constant that is stored, and the errors reported. -/
structure ParameterResult (R : Type) where
  val : Option (ParameterExpr R)
  errors : List (ParameterError R)

namespace Parameter

variable {R : Type}

/- The width of the value: that of the range, where one is
   given. -/
def lvWidth (msb lsb : Int) (range_flag : Bool) : Int :=
  if range_flag then
    if lsb ≤ msb then 1 + msb - lsb else 1 + lsb - msb
  else -2

/- The sign and the width a constant value gets. -/
def adjusted {α : Type} (cur : Parameter α) (integer_width : Nat) (range_flag : Bool)
    (value : Verinum) : Verinum :=
  let value :=
    if cur.type ≠ .noType then value.withSign cur.signed_flag
    else if cur.signed_flag then value.withSign true
    else value
  if !range_flag && !value.has_len then
    value.padToWidth integer_width
  else value

/- `evaluate_parameter_logic_` to the place where it stores
   the value; `elab_and_eval` is given the width. -/
def logicValue (integer_width : Nat) (elabAndEval : Int → Option (ParameterExpr R))
    (cur : Parameter Verinum) : Except (List (ParameterError R)) (ParameterExpr R) :=
  if cur.msb_expr = some none then .error [.unableMsb]
  else if cur.lsb_expr = some none then .error [.unableLsb]
  else
    let msb := (cur.msb_expr.getD none).getD 0
    let lsb := (cur.lsb_expr.getD none).getD 0
    let range_flag := cur.msb_expr.isSome || cur.lsb_expr.isSome
    match elabAndEval (lvWidth msb lsb range_flag) with
    | none => .error []
    | some (.real none) => .error [.unableReal]
    | some (.real (some value)) => .ok (.real (some value))
    | some (.vector none) => .error [.unable]
    | some (.vector (some value)) =>
      .ok (.vector (some (cur.adjusted integer_width range_flag value)))
    | some .other => .error [.unhandledType]

/- `evaluate_parameter_logic_`; nothing where an assertion
   fails. -/
def evaluateParameterLogic (integer_width : Nat) (elabAndEval : Int → Option (ParameterExpr R))
    (cur : Parameter Verinum) : Option (ParameterResult R) :=
  match logicValue integer_width elabAndEval cur with
  | .error errors => some ⟨none, errors⟩
  | .ok expr =>
    if cur.range.isEmpty then some ⟨some expr, []⟩
    else
      match expr with
      | .vector (some value) =>
        let from_flag := ValueRange.fromFlag
          Verinum.comparisons value cur.range.isEmpty
          cur.range
        some ⟨some expr, if !from_flag then [.outOfRange value] else []⟩
      | _ => none

/- `evaluate_parameter_real_`. -/
def evaluateParameterReal [LinearOrder R] (elabAndEval : Int → Option (ParameterExpr R))
    (cur : Parameter (Double R)) : ParameterResult R :=
  match elabAndEval (-1) with
  | none => ⟨none, []⟩
  | some (.real none) => ⟨none, [.unableReal]⟩
  | some (.real (some value)) =>
    let from_flag := ValueRange.fromFlag Double.comparisons
      value cur.range.isEmpty cur.range
    ⟨some (.real (some value)), if !from_flag then [.outOfRangeReal value] else []⟩
  | some _ => ⟨none, [.failedCast]⟩

end Parameter

----
-- What Ranges Mean
----

/- The value is in the range: each bound compares as it
   should, and not unknown. -/
def Verinum.Inside (value : Verinum) (range : ValueRange Verinum) : Prop :=
  (∀ low ∈ range.low_expr,
    if range.low_open_flag then Verinum.gt value low = .v1
    else Verinum.ge value low = .v1) ∧
  (∀ high ∈ range.high_expr,
    if range.high_open_flag then Verinum.lt value high = .v1
    else Verinum.le value high = .v1)

/- The value is in the range: it lies on the wrong side of no
   bound. -/
def Double.Inside {R : Type} [LinearOrder R] (value : Double R)
    (range : ValueRange (Double R)) : Prop :=
  (∀ low ∈ range.low_expr,
    ¬(if range.low_open_flag then Double.le value low
      else Double.lt value low)) ∧
  (∀ high ∈ range.high_expr,
    ¬(if range.high_open_flag then Double.le high value
      else Double.lt high value))

namespace ValueRange

variable {α : Type}

/- The law of a list of ranges. -/
def OutOfRange (Inside : ValueRange α → Prop) (ranges : List (ValueRange α)) : Prop :=
  ((∃ range ∈ ranges, range.exclude_flag = false) ∧
    ∀ range ∈ ranges, range.exclude_flag = false → ¬Inside range) ∨
  ∃ range ∈ ranges, range.exclude_flag = true ∧ Inside range

/- The list names the values it takes, or turns this one
   away. -/
def Declared (Inside : ValueRange α → Prop) (ranges : List (ValueRange α)) : Prop :=
  ranges = [] ∨
  (∃ range ∈ ranges, range.exclude_flag = false) ∨
  ∃ range ∈ ranges, range.exclude_flag = true ∧ Inside range

end ValueRange

----
-- The Loop
----

namespace ValueRange

variable {α : Type}

/- A range is passed by the tests of its bounds. -/
def Passes (cmp : Comparisons α) (value : α) (range : ValueRange α) : Prop :=
  belowLow cmp value range = false ∧ aboveHigh cmp value range = false

variable {cmp : Comparisons α} {value : α} {range : ValueRange α}

/- A range that is not passed leaves the flag. -/
theorem fromFlag_of_not_passes (h : ¬Passes cmp value range) (from_flag : Bool)
    (next : List (ValueRange α)) :
    fromFlag cmp value from_flag (range :: next) = fromFlag cmp value from_flag next := by
  unfold Passes at h
  simp only [fromFlag]
  split_ifs with hSkip hLow hHigh hFrom
  · rfl
  · rfl
  · rfl
  · simp [hLow, hHigh] at h
  · simp [hLow, hHigh] at h

/- A `from` range that is passed sets the flag, if it is not
   set already. -/
theorem fromFlag_of_from (h : Passes cmp value range)
    (hFrom : range.exclude_flag = false) (from_flag : Bool) (next : List (ValueRange α)) :
    fromFlag cmp value from_flag (range :: next) = fromFlag cmp value true next := by
  simp only [fromFlag]
  cases from_flag with
  | true => simp [hFrom]
  | false => simp [hFrom, h.1, h.2]

/- An `exclude` range that is passed ends the loop. -/
theorem fromFlag_of_exclude (h : Passes cmp value range)
    (hExclude : range.exclude_flag = true) (from_flag : Bool) (next : List (ValueRange α)) :
    fromFlag cmp value from_flag (range :: next) = false := by
  simp only [fromFlag]
  simp [hExclude, h.1, h.2]

/- The flag after the loop: set at first or by a `from`
   range, and cleared by an `exclude` range. -/
theorem fromFlag_iff (cmp : Comparisons α) (value : α) (ranges : List (ValueRange α)) :
    ∀ from_flag : Bool,
      fromFlag cmp value from_flag ranges = true ↔
        (from_flag = true ∨ ∃ range ∈ ranges, range.exclude_flag = false ∧ Passes cmp value range) ∧
        ¬∃ range ∈ ranges,
          range.exclude_flag = true ∧ Passes cmp value range := by
  induction ranges with
  | nil =>
    intro from_flag
    simp [fromFlag]
  | cons range next ih =>
    intro from_flag
    by_cases hPass : Passes cmp value range
    · cases hExclude : range.exclude_flag with
      | false =>
        rw [fromFlag_of_from hPass hExclude, ih true]
        simp [hPass, hExclude]
      | true =>
        rw [fromFlag_of_exclude hPass hExclude]
        simp [hPass, hExclude]
    · rw [fromFlag_of_not_passes hPass, ih from_flag]
      simp [hPass]

/- The report of the loop agrees with the law on the lists
   that declare something about the value, and only there. -/
theorem report_iff {Inside : ValueRange α → Prop}
    (hInside : ∀ range, Passes cmp value range ↔ Inside range) (ranges : List (ValueRange α)) :
    ((fromFlag cmp value ranges.isEmpty ranges = false ↔ OutOfRange Inside ranges) ↔
      Declared Inside ranges) := by
  have hFlag := fromFlag_iff cmp value ranges ranges.isEmpty
  simp only [hInside] at hFlag
  rw [← Bool.not_eq_true, hFlag]
  by_cases hEmpty : ranges = []
  · subst hEmpty
    simp [OutOfRange, Declared]
  have hNot : ranges.isEmpty = false := by
    rw [List.isEmpty_eq_false_iff]
    exact hEmpty
  rw [hNot]
  unfold OutOfRange Declared
  by_cases hOut : ∃ range ∈ ranges, range.exclude_flag = true ∧ Inside range
  · simp [hOut]
  by_cases hFrom : ∃ range ∈ ranges, range.exclude_flag = false
  · grind
  · -- only `exclude` ranges, and none of them holds the value
    have hNone : ¬∃ range ∈ ranges,
        range.exclude_flag = false ∧ Inside range :=
      fun ⟨range, hMem, hFalse, _⟩ => hFrom ⟨range, hMem, hFalse⟩
    simp [hNone, hFrom, hEmpty]

end ValueRange

----
-- Comparisons And Bounds
----

namespace Verinum

/- The surplus bits of a number, against a padding. -/
def surplus (left right : Verinum) (pad : VerinumV) : Bool :=
  (List.range (left.len - right.len)).any fun k => left.get (left.len - 1 - k) != pad

/- One of two numbers has no surplus bits. -/
theorem no_surplus (left right : Verinum) (p q : VerinumV) :
    (surplus left right p && surplus right left q) = false := by
  unfold surplus
  rcases Nat.le_total left.len right.len with hLe | hLe
  · rw [Nat.sub_eq_zero_of_le hLe]
    rfl
  · rw [Nat.sub_eq_zero_of_le hLe]
    exact Bool.and_false _

/- The tests of the two orders, before the common bits. -/
def orderTests (signed : Bool) (left_pad right_pad : VerinumV) (leftOver rightOver : Bool)
    (common : VerinumV) : VerinumV :=
  if signed && left_pad == .v1 && right_pad == .v0 then .v1
  else if signed && left_pad == .v0 && right_pad == .v1 then .v0
  else if leftOver then
    if signed && left_pad == .v1 then .v1 else .v0
  else if rightOver then
    if signed && right_pad == .v1 then .v0 else .v1
  else common

theorem orderTests_swap (signed : Bool) (p q : VerinumV) {leftOver rightOver : Bool}
    (hOver : (leftOver && rightOver) = false) (common : VerinumV) :
    orderTests signed q p rightOver leftOver common.not =
      (orderTests signed p q leftOver rightOver common).not := by
  cases leftOver with
  | true =>
    have hRight : rightOver = false := hOver
    subst hRight
    cases signed <;> cases p <;> cases q <;> rfl
  | false =>
    cases rightOver <;> cases signed <;> cases p <;>
      cases q <;> rfl

/- A padding of the orders. -/
def orderPad (signed : Bool) (v : Verinum) : VerinumV :=
  if signed then v.get (v.len - 1) else .v0

theorem lt_eq_tests (left right : Verinum) :
    lt left right =
      orderTests (left.has_sign && right.has_sign)
        (orderPad (left.has_sign && right.has_sign) left)
        (orderPad (left.has_sign && right.has_sign) right)
        (surplus left right (orderPad (left.has_sign && right.has_sign) right))
        (surplus right left (orderPad (left.has_sign && right.has_sign) left))
        (lt.ltDown left right (min left.len right.len)) :=
  rfl

theorem le_eq_tests (left right : Verinum) :
    le left right =
      orderTests (left.has_sign && right.has_sign)
        (orderPad (left.has_sign && right.has_sign) left)
        (orderPad (left.has_sign && right.has_sign) right)
        (surplus left right (orderPad (left.has_sign && right.has_sign) right))
        (surplus right left (orderPad (left.has_sign && right.has_sign) left))
        (le.leDown left right (min left.len right.len)) :=
  rfl

/- The two orders go down the common bits alike. -/
theorem leDown_swap (left right : Verinum) :
    ∀ n : Nat, le.leDown right left n = (lt.ltDown left right n).not
| 0 => rfl
| n + 1 => by
    unfold le.leDown lt.ltDown
    rw [leDown_swap left right n]
    cases left.get n <;> cases right.get n <;> rfl

/- `<=` the other way round is the negation of `<`, also for
   unknown bits. -/
theorem le_swap (left right : Verinum) : le right left = (lt left right).not := by
  rw [le_eq_tests, Nat.min_comm right.len, Bool.and_comm right.has_sign, leDown_swap]
  exact orderTests_swap _ _ _ (no_surplus left right _ _) _

/- What is not even `<=` goes down as not `<`. -/
theorem ltDown_of_leDown (left right : Verinum) :
    ∀ n : Nat, le.leDown left right n = .v0 → lt.ltDown left right n = .v0
| 0, h => by cases h
| n + 1, h => by
    unfold le.leDown at h
    unfold lt.ltDown
    have hNext := ltDown_of_leDown left right n
    cases hLeft : left.get n <;> cases hRight : right.get n <;> simp_all

/- What is not `<=` is not `<`. -/
theorem lt_of_le_v0 {left right : Verinum} (h : le left right = .v0) : lt left right = .v0 := by
  rw [le_eq_tests] at h
  rw [lt_eq_tests]
  unfold orderTests at *
  split_ifs at * with hTop hTop' hOver hSign hOver' hSign'
  · exact h
  · rfl
  · exact h
  · exact ltDown_of_leDown left right _ h

theorem not_eq_v0_iff (v : VerinumV) : v.not = .v0 ↔ v = .v1 := by
  cases v <;> decide

theorem not_eq_v1_iff (v : VerinumV) : v.not = .v1 ↔ v = .v0 := by
  cases v <;> decide

theorem toCondition_eq_false (v : VerinumV) : v.toCondition = false ↔ v = .v0 := by
  cases v <;> decide

/- Both tests of an open bound are the one of its order. -/
theorem open_test_iff (left right : Verinum) :
    (if true && (le left right).toCondition then true
      else (lt left right).toCondition) = false ↔
      lt right left = .v1 := by
  have hSwap : le left right = .v0 ↔ lt right left = .v1 := by
    rw [le_swap right left, not_eq_v0_iff]
  rw [← hSwap]
  cases hLe : (le left right).toCondition with
  | true =>
    have hNot := mt (toCondition_eq_false _).mpr (by rw [hLe]; exact Bool.noConfusion)
    simp [hNot]
  | false =>
    have hZero := (toCondition_eq_false _).mp hLe
    simp [toCondition_eq_false, hZero, lt_of_le_v0 hZero]

/- The tests of a range of numbers are its meaning. -/
theorem passes_iff_inside (value : Verinum) (range : ValueRange Verinum) :
    ValueRange.Passes comparisons value range ↔
      value.Inside range := by
  rcases range with ⟨exclude, lowOpen, low, highOpen, high⟩
  refine and_congr ?_ ?_
  · cases low with
    | none => simp [ValueRange.belowLow]
    | some low =>
      cases lowOpen with
      | true => simpa [ValueRange.belowLow, comparisons, gt] using open_test_iff value low
      | false =>
        simp [ValueRange.belowLow, comparisons, ge,
          toCondition_eq_false, le_swap value low, not_eq_v1_iff]
  · cases high with
    | none => simp [ValueRange.aboveHigh]
    | some high =>
      cases highOpen with
      | true => simpa [ValueRange.aboveHigh, comparisons, gt, ge] using open_test_iff high value
      | false =>
        simp [ValueRange.aboveHigh, comparisons, gt,
          toCondition_eq_false, le_swap high value, not_eq_v1_iff]

/- Between bounds that compare as integers the range is an
   interval of integers. -/
theorem inside_integer {value : Verinum} {range : ValueRange Verinum}
    (hLow : ∀ low ∈ range.low_expr, Compared value low)
    (hHigh : ∀ high ∈ range.high_expr, Compared value high) :
    value.Inside range ↔
      (∀ low ∈ range.low_expr,
        if range.low_open_flag then low.integer < value.integer
        else low.integer ≤ value.integer) ∧
      ∀ high ∈ range.high_expr,
        if range.high_open_flag then value.integer < high.integer
        else value.integer ≤ high.integer := by
  refine and_congr (forall₂_congr fun low hMem => ?_) (forall₂_congr fun high hMem => ?_)
  · rw [(hLow low hMem).gt, (hLow low hMem).ge]
    split_ifs <;> simp [VerinumV.ofBool]
  · rw [(hHigh high hMem).lt, (hHigh high hMem).le]
    split_ifs <;> simp [VerinumV.ofBool]

end Verinum

----
-- Intervals
----

namespace Double

variable {R : Type} [LinearOrder R]

theorem le_of_lt {x y : Double R} (h : lt x y = true) : le x y = true := by
  cases x with
  | nan => cases h
  | number x =>
    cases y with
    | nan => cases h
    | number y => exact decide_eq_true (of_decide_eq_true h).le

/- Both tests of an open bound are the one of its order. -/
theorem open_test_iff (x y : Double R) :
    (if true && le x y then true else lt x y) = false ↔
      ¬le x y = true := by
  cases hLe : le x y with
  | true => simp
  | false =>
    have hLt : lt x y = false := by
      rw [← Bool.not_eq_true]
      intro h
      rw [le_of_lt h] at hLe
      cases hLe
    simp [hLt]

/- The tests of a range of real numbers are its meaning. -/
theorem passes_iff_inside (value : Double R) (range : ValueRange (Double R)) :
    ValueRange.Passes comparisons value range ↔
      value.Inside range := by
  rcases range with ⟨exclude, lowOpen, low, highOpen, high⟩
  refine and_congr ?_ ?_
  · cases low with
    | none => simp [ValueRange.belowLow]
    | some low =>
      cases lowOpen with
      | true => simpa [ValueRange.belowLow, comparisons] using open_test_iff value low
      | false => simp [ValueRange.belowLow, comparisons]
  · cases high with
    | none => simp [ValueRange.aboveHigh]
    | some high =>
      cases highOpen with
      | true => simpa [ValueRange.aboveHigh, comparisons] using open_test_iff high value
      | false => simp [ValueRange.aboveHigh, comparisons]

/- Between numbers the range is their interval. -/
theorem inside_number {value : R} {exclude lowOpen highOpen : Bool} {low high : Option R} :
    (number value).Inside ⟨exclude, lowOpen, low.map number, highOpen, high.map number⟩ ↔
      (∀ x ∈ low, if lowOpen then x < value else x ≤ value) ∧
      ∀ y ∈ high, if highOpen then value < y else value ≤ y := by
  refine and_congr ?_ ?_
  · cases low <;> cases lowOpen <;> simp [le, lt]
  · cases high <;> cases highOpen <;> simp [le, lt]

end Double

----
-- The Law Of Value Ranges
----

namespace Parameter

variable {R : Type}

variable {elabAndEval : Int → Option (ParameterExpr R)}

/- What the evaluation of a vector parameter reports, once it
   has a value. -/
theorem logic_reports {integer_width : Nat} {cur : Parameter Verinum} {value : Verinum}
    (hValue : logicValue integer_width elabAndEval cur = .ok (.vector (some value))) :
    evaluateParameterLogic integer_width elabAndEval cur =
      some ⟨some (.vector (some value)),
        if ValueRange.fromFlag Verinum.comparisons value
          cur.range.isEmpty cur.range then []
        else [.outOfRange value]⟩ := by
  unfold evaluateParameterLogic
  rw [hValue]
  cases hRange : cur.range with
  | nil => rfl
  | cons range next => grind

/- What the evaluation of a real parameter reports, once it
   has a value. -/
theorem real_reports [LinearOrder R] {cur : Parameter (Double R)} {value : Double R}
    (hValue : elabAndEval (-1) = some (.real (some value))) :
    evaluateParameterReal elabAndEval cur =
      ⟨some (.real (some value)),
        if ValueRange.fromFlag Double.comparisons value
          cur.range.isEmpty cur.range then []
        else [.outOfRangeReal value]⟩ := by
  unfold evaluateParameterReal
  rw [hValue]
  cases hFlag : ValueRange.fromFlag Double.comparisons value cur.range.isEmpty cur.range <;>
    simp [hFlag]

/- A vector parameter is reported out of range. -/
def ReportsLogic (integer_width : Nat) (elabAndEval : Int → Option (ParameterExpr R))
    (cur : Parameter Verinum) : Prop :=
  ∃ result value,
    evaluateParameterLogic integer_width elabAndEval cur = some result ∧
    .outOfRange value ∈ result.errors

/- A real parameter is reported out of range. -/
def ReportsReal [LinearOrder R] (elabAndEval : Int → Option (ParameterExpr R))
    (cur : Parameter (Double R)) : Prop :=
  ∃ value, .outOfRangeReal value ∈ (evaluateParameterReal elabAndEval cur).errors

theorem reportsLogic_iff {integer_width : Nat} {cur : Parameter Verinum} {value : Verinum}
    (hValue : logicValue integer_width elabAndEval cur = .ok (.vector (some value))) :
    ReportsLogic integer_width elabAndEval cur ↔
      ValueRange.fromFlag Verinum.comparisons value cur.range.isEmpty cur.range = false := by
  unfold ReportsLogic
  rw [logic_reports hValue]
  cases hFlag : ValueRange.fromFlag Verinum.comparisons value cur.range.isEmpty cur.range <;>
    simp

theorem reportsReal_iff [LinearOrder R] {cur : Parameter (Double R)} {value : Double R}
    (hValue : elabAndEval (-1) = some (.real (some value))) :
    ReportsReal elabAndEval cur ↔
      ValueRange.fromFlag Double.comparisons value cur.range.isEmpty cur.range = false := by
  unfold ReportsReal
  rw [real_reports hValue]
  cases hFlag : ValueRange.fromFlag Double.comparisons value cur.range.isEmpty cur.range <;>
    simp

/- A literal of the source, as an integer of 32 bits. -/
def literal (n : BitVec 64) : Verinum :=
  (Verinum.ofUInt64 n 32).withSign true

/- `parameter integer p = 3` with one value range. -/
def threeWithin {α : Type} (type : ParameterType) (range : ValueRange α) : Parameter α where
  msb_expr := none
  lsb_expr := none
  type := type
  signed_flag := true
  range := [range]

/- `exclude 0` alone. -/
def excludeZero : Parameter Verinum :=
  threeWithin .logic ⟨true, false, some (literal 0), false, some (literal 0)⟩

/- `from [0:inf)`. -/
def fromZero : Parameter (Double Int) :=
  threeWithin .real ⟨false, false, some (.number 0), true, none⟩

end Parameter

end EpicSim
