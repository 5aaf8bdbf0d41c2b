import Mathlib.Data.List.TakeWhile
import EpicSim.Lib.Words
import EpicSim.Vpi.TableControl

/-
  The grammar of control strings, and when the scanner of
  `$table_model` follows it.

  A field is empty, or an interpolation code with up to two
  extrapolation codes, or the code of an ignored column.
-/

----
-- The Grammar
----

namespace EpicSim

namespace TableModel

/- The codes of one field. -/
structure Codes where
  interp : Interp
  extrap_low : Extrap
  extrap_high : Extrap
deriving DecidableEq

/- A code without extrapolation characters is linear; with one
   of them it is so at both ends. -/
def extrapsOf : List Char → Option (Extrap × Extrap)
| [] => some (.linear, .linear)
| [a] => (extrapOf a).map fun e => (e, e)
| [a, b] => (extrapOf a).bind fun low => (extrapOf b).map fun high => (low, high)
| _ => none

/- The meaning of a field. -/
def codesOf : List Char → Option Codes
| [] => some ⟨.linear, .linear, .linear⟩
| c :: rest =>
  match interpOf c with
  | some code => (extrapsOf rest).map fun e => ⟨code, e.1, e.2⟩
  | none =>
    if c = 'I' ∧ rest = [] then
      some ⟨.ignoreColumn, .error, .error⟩
    else none

/- The number of digits. -/
def decimal (digits : List Char) : Nat :=
  digits.foldl (fun val c => 10 * val + (c.toNat - 48)) 0

/- The dependent column, of a range of numbers. -/
def dependOf (least : Nat) : Option (List Char) → Option Nat
| none => some 1
| some digits =>
  if digits ≠ [] ∧ digits.all Char.isDigit ∧
      least ≤ decimal digits ∧ decimal digits ≤ UINT_MAX then
    some (decimal digits)
  else none

/- The meaning of a control string. -/
structure Control where
  codes : List Codes
  depend : Nat
deriving DecidableEq

/- The fields that stand for columns. -/
def usable (codes : List Codes) : Nat :=
  codes.countP (·.interp ≠ .ignoreColumn)

/- Fields between commas, one for each column that is not
   ignored, and a dependent column. -/
def grammar (least dims : Nat)
    (control : List Char) : Option Control := do
  let (fields, cp) := cutControl control
  let depend ← dependOf least cp
  let codes ← (fields.splitOn ',').mapM codesOf
  if usable codes = dims then some ⟨codes, depend⟩ else none

----
-- The Slip
----

/- An interpolation code with an unknown extrapolation code. -/
def badExtrap : List Char → Bool
| [] => false
| c :: rest =>
  (interpOf c).isSome &&
    match rest with
    | [] => false
    | [a] => (extrapOf a).isNone
    | a :: b :: _ => (extrapOf a).isNone || (extrapOf b).isNone

/- The first field without a meaning has such a code. -/
def slips : List (List Char) → Bool
| [] => false
| field :: rest =>
  match codesOf field with
  | some _ => slips rest
  | none => badExtrap field

/- The scan reaches such a field. -/
def Slips (dims : Nat) (control : List Char) : Prop :=
  (dependOf 0 (cutControl control).2).isSome ∧
  dims ≤ ((cutControl control).1.splitOn ',').length ∧
  slips ((cutControl control).1.splitOn ',') = true

/- The arrays that record some codes. -/
def infoOf (codes : List Codes) : ControlInfo where
  interp := codes.map fun c => some c.interp
  extrap_low := codes.map fun c => some c.extrap_low
  extrap_high := codes.map fun c => some c.extrap_high

/- Nothing is read or written out of bounds, a string of the
   grammar is recorded, and any other one is an error. -/
def ControlRight (least : Nat) (table : TableMod) (control : List Char) : Prop :=
  ∃ result, initializeControlFields table control = some result ∧
    match grammar least table.dims control with
    | some meaning =>
      result.rtn = 0 ∧ result.errors = [] ∧
      result.table.info = infoOf meaning.codes ∧
      result.table.fields = meaning.codes.length ∧
      result.table.depend = meaning.depend
    | none => result.rtn ≠ 0 ∧ result.errors ≠ []

----
-- Stores
----

/- The arrays with some fields recorded and some to come. -/
def written (codes : List Codes) (left : Nat) : ControlInfo where
  interp := codes.map (fun c => some c.interp) ++ List.replicate left none
  extrap_low := codes.map (fun c => some c.extrap_low) ++ List.replicate left none
  extrap_high := codes.map (fun c => some c.extrap_high) ++ List.replicate left none

theorem store_next {α : Type} (before : List (Option α)) (old : Option α)
    (rest : List (Option α)) (val : α) {idx : Nat} (hIdx : idx = before.length) :
    store (before ++ old :: rest) idx val = some (before ++ some val :: rest) := by
  subst hIdx
  unfold store
  rw [if_pos (by simp), List.set_append_right _ _ (Nat.le_refl _), Nat.sub_self, List.set_cons_zero]

/- The arrays of a field whose code is recorded. -/
def interpStored (codes : List Codes) (code : Interp) (left : Nat) : ControlInfo :=
  { written codes (left + 1) with
    interp := codes.map (fun c => some c.interp) ++ some code :: List.replicate left none }

theorem storeInterp_written (codes : List Codes) (left : Nat) (code : Interp) :
    (written codes (left + 1)).storeInterp codes.length code =
      some (interpStored codes code left) := by
  simp only [ControlInfo.storeInterp, written, List.replicate_succ]
  rw [store_next _ _ _ _ (by simp)]
  rfl

theorem storeExtrap_interpStored
    (codes : List Codes) (left : Nat) (code : Interp) (low high : Extrap) :
    (interpStored codes code left).storeExtrap codes.length low high =
      some (written (codes ++ [⟨code, low, high⟩]) left) := by
  simp only [ControlInfo.storeExtrap, interpStored, written, List.replicate_succ]
  rw [store_next _ _ _ _ (by simp), store_next _ _ _ _ (by simp)]
  simp

theorem storeHigh_written (codes : List Codes) (left : Nat) (code : Interp)
    (low high new : Extrap) :
    (written (codes ++ [⟨code, low, high⟩]) left).storeHigh codes.length new =
      some (written (codes ++ [⟨code, low, new⟩]) left) := by
  simp only [ControlInfo.storeHigh, written, List.map_append, List.map_cons,
    List.map_nil, List.append_assoc, List.singleton_append]
  rw [store_next _ _ _ _ (by simp)]
  rfl

----
-- One Field
----

/- The end of a field. -/
def Stop (c : Char) : Prop := c = '\x00' ∨ c = ','

instance (c : Char) : Decidable (Stop c) :=
  inferInstanceAs (Decidable (_ ∨ _))

variable {c : Char} {least : Nat}

theorem extrapOf_of_stop (h : Stop c) : extrapOf c = none := by
  rcases h with rfl | rfl <;> rfl

theorem interpOf_of_stop (h : Stop c) : interpOf c = none := by
  rcases h with rfl | rfl <;> rfl

/- The inner scanner on the codes of a field. -/
theorem parseExtrap_spec (control : List Char) (codes : List Codes) (left : Nat)
    (code : Interp) (c : Char) {rest tail : List Char}
    (hRest : ∀ a ∈ rest, ¬Stop a) (hTail : Stop (charAt tail)) :
    match extrapsOf rest with
    | some e =>
      parseExtrap control (interpStored codes code left) codes.length (c :: rest ++ tail) =
        some (.next (written (codes ++ [⟨code, e.1, e.2⟩]) left, tail))
    | none =>
      if badExtrap ('D' :: rest) then
        ∃ error info, parseExtrap control
            (interpStored codes code left) codes.length
            (c :: rest ++ tail) =
          some (.fail 1 error info)
      else
        ∃ info cp, parseExtrap control
            (interpStored codes code left) codes.length
            (c :: rest ++ tail) =
          some (.next (info, cp)) ∧ ¬Stop (charAt cp) := by
  have hTail' : charAt tail = '\x00' ∨ charAt tail = ',' := hTail
  unfold parseExtrap
  rcases rest with _ | ⟨a, rest⟩
  · -- no extrapolation code
    simp [extrapsOf, extrapOf_of_stop hTail, hTail', storeExtrap_interpStored]
  have hA : ¬(a = '\x00' ∨ a = ',') := hRest a List.mem_cons_self
  cases hLow : extrapOf a with
  | none =>
    have hNone : extrapsOf (a :: rest) = none := by
      rcases rest with _ | ⟨b, _ | ⟨d, more⟩⟩ <;>
        simp [extrapsOf, hLow]
    have hBad : badExtrap ('D' :: a :: rest) = true := by
      rcases rest with _ | ⟨b, more⟩ <;>
        simp [badExtrap, interpOf, hLow]
    simp [hNone, hBad, hLow, hA]
  | some low =>
    rcases rest with _ | ⟨b, rest⟩
    · simp [extrapsOf, hLow, extrapOf_of_stop hTail, hTail', storeExtrap_interpStored]
    have hB : ¬(b = '\x00' ∨ b = ',') := hRest b (by simp)
    cases hHigh : extrapOf b with
    | none =>
      have hNone : extrapsOf (a :: b :: rest) = none := by
        rcases rest with _ | ⟨d, more⟩ <;>
          simp [extrapsOf, hHigh]
      have hBad : badExtrap ('D' :: a :: b :: rest) = true := by simp [badExtrap, interpOf, hHigh]
      simp [hNone, hBad, hLow, hHigh, hB, storeExtrap_interpStored]
    | some high =>
      rcases rest with _ | ⟨d, more⟩
      · simp [extrapsOf, hLow, hHigh, storeExtrap_interpStored, storeHigh_written]
      · have hD : ¬Stop d := hRest d (by simp)
        simp [extrapsOf, badExtrap, hLow, hHigh, storeExtrap_interpStored,
          storeHigh_written, hD]

/- The ignored column of a field. -/
def ignored (codes : Codes) : Nat :=
  if codes.interp = .ignoreColumn then 1 else 0

theorem interpOf_ne_ignore {code : Interp} (h : interpOf c = some code) : code ≠ .ignoreColumn := by
  rintro rfl
  unfold interpOf at h
  split at h <;> cases h

section

variable (control : List Char) (codes : List Codes) (left num_ignore : Nat) {last : Bool}
  {field tail : List Char} (hField : ∀ a ∈ field, ¬Stop a) (hTail : Stop (charAt tail))
  (hLast : charAt tail = '\x00' → last = true)

include control codes left num_ignore hField hTail hLast

/- The outer scanner on one field, before the test for what is
   left of it. -/
theorem fieldCodes_spec :
    match codesOf field with
    | some c =>
      fieldCodes control last codes.length ⟨written codes (left + 1), field ++ tail, num_ignore⟩ =
        some (.next ⟨written (codes ++ [c]) left, tail, num_ignore + ignored c⟩)
    | none =>
      (∃ error info, fieldCodes control last codes.length
          ⟨written codes (left + 1), field ++ tail, num_ignore⟩ =
        some (.fail (if badExtrap field then 0 else 1) error info)) ∨
      badExtrap field = false ∧
        ∃ s, fieldCodes control last codes.length
            ⟨written codes (left + 1), field ++ tail, num_ignore⟩ =
          some (.next s) ∧ ¬Stop (charAt s.cp) := by
  have hTail' : charAt tail = '\x00' ∨ charAt tail = ',' := hTail
  unfold fieldCodes
  rcases field with _ | ⟨c, rest⟩
  · -- the field is empty
    have hNot : charAt tail ≠ 'I' := by rcases hTail with h | h <;> rw [h] <;> decide
    have hOnly : ¬(charAt tail = '\x00' ∧ last = false) := by
      rintro ⟨hEnd, hFalse⟩
      rw [hLast hEnd] at hFalse
      cases hFalse
    simp [codesOf, interpOf_of_stop hTail, hNot, hTail', hOnly,
      storeInterp_written, storeExtrap_interpStored, ignored]
  have hC : ¬(c = '\x00' ∨ c = ',') := hField c List.mem_cons_self
  have hRest : ∀ a ∈ rest, ¬Stop a := fun a hMem => hField a (List.mem_cons_of_mem c hMem)
  cases hInterp : interpOf c with
  | some code =>
    have hParse := parseExtrap_spec control codes left code c hRest hTail
    have hIgnore := interpOf_ne_ignore hInterp
    have hBad : badExtrap (c :: rest) = badExtrap ('D' :: rest) := by
      simp only [badExtrap, hInterp]
      rfl
    rw [List.cons_append] at hParse
    cases hCodes : extrapsOf rest with
    | some e =>
      rw [hCodes] at hParse
      simp [codesOf, hInterp, hCodes, storeInterp_written, hParse, ignored, hIgnore]
    | none =>
      rw [hCodes] at hParse
      simp only [codesOf, hInterp, hCodes, hBad]
      cases hCase : badExtrap ('D' :: rest) with
      | true =>
        rw [hCase] at hParse
        rcases hParse with ⟨error, info, hParse⟩
        refine Or.inl ⟨error, info, ?_⟩
        simp [hInterp, storeInterp_written, hParse]
      | false =>
        rw [hCase] at hParse
        rcases hParse with ⟨info, cp, hParse, hMore⟩
        refine Or.inr ⟨rfl, ⟨info, cp, num_ignore⟩, ?_, hMore⟩
        simp [hInterp, storeInterp_written, hParse]
  | none =>
    have hBad : badExtrap (c :: rest) = false := by simp [badExtrap, hInterp]
    by_cases hIgnore : c = 'I'
    · subst hIgnore
      rcases rest with _ | ⟨a, more⟩
      · simp [codesOf, hInterp, storeInterp_written, storeExtrap_interpStored, ignored]
      · have hA : ¬Stop a := hRest a List.mem_cons_self
        simp [codesOf, hInterp, storeInterp_written, storeExtrap_interpStored, hBad, hA]
    · simp [codesOf, hInterp, hIgnore, hC, hBad]

/- One turn of the loop. -/
theorem fieldStep_spec :
    match codesOf field with
    | some c =>
      fieldStep control last codes.length ⟨written codes (left + 1), field ++ tail, num_ignore⟩ =
        some (.next ⟨written (codes ++ [c]) left,
          if charAt tail = ',' then tail.drop 1 else tail,
          num_ignore + ignored c⟩)
    | none =>
      ∃ error info, fieldStep control last codes.length
          ⟨written codes (left + 1), field ++ tail, num_ignore⟩ =
        some (.fail (if badExtrap field then 0 else 1) error info) := by
  have hCodes := fieldCodes_spec control codes left num_ignore hField hTail hLast
  unfold fieldStep
  cases hCase : codesOf field with
  | some c =>
    rw [hCase] at hCodes
    rw [hCodes]
    rcases tail with _ | ⟨a, rest⟩
    · simp [charAt]
    · have hA : a = '\x00' ∨ a = ',' := hTail
      by_cases hComma : a = ','
      · simp [hComma]
      · have hZero : a = '\x00' := hA.resolve_right hComma
        simp [hZero]
  | none =>
    rw [hCase] at hCodes
    rcases hCodes with ⟨error, info, hFail⟩ | ⟨hBad, s, hNext, hMore⟩
    · exact ⟨error, info, by rw [hFail]; rfl⟩
    · have hMore' : charAt s.cp ≠ '\x00' ∧ charAt s.cp ≠ ',' :=
        not_or.mp hMore
      refine ⟨.extraCharacters (codes.length + 1) control, s.info, ?_⟩
      rw [hNext, hBad]
      simp [hMore']
----
-- All Fields
----

/- What is left of the text after a field. -/

end
def tailOf : List (List Char) → List Char
| [] => []
| field :: rest => ',' :: [','].intercalate (field :: rest)

theorem intercalate_tail (field : List Char) (rest : List (List Char)) :
    [','].intercalate (field :: rest) = field ++ tailOf rest := by
  cases rest with
  | nil => simp [tailOf]
  | cons next more =>
    rfl

theorem stop_tailOf (rest : List (List Char)) : Stop (charAt (tailOf rest)) := by
  cases rest with
  | nil => exact Or.inl rfl
  | cons next more => exact Or.inr rfl

/- The columns that are ignored. -/
def ignoredIn (codes : List Codes) : Nat :=
  codes.countP (·.interp = .ignoreColumn)

theorem ignoredIn_cons (c : Codes) (codes : List Codes) :
    ignoredIn (c :: codes) = ignored c + ignoredIn codes := by
  unfold ignoredIn ignored
  rw [List.countP_cons, Nat.add_comm]
  simp

/- The loop records every field, or fails at the first one that
   has no meaning. -/
theorem fieldLoop_spec (control : List Char) (done : List Codes) (num_ignore : Nat)
    {fields : List (List Char)} (hSome : fields ≠ [])
    (hFields : ∀ field ∈ fields, ∀ a ∈ field, ¬Stop a) :
    match fields.mapM codesOf with
    | some codes =>
      fieldLoop control fields.length done.length
          ⟨written done fields.length, [','].intercalate fields, num_ignore⟩ =
        some (.next ⟨written (done ++ codes) 0, [], num_ignore + ignoredIn codes⟩)
    | none =>
      ∃ error info, fieldLoop control fields.length done.length
          ⟨written done fields.length, [','].intercalate fields, num_ignore⟩ =
        some (.fail (if slips fields then 0 else 1) error info) := by
  induction fields generalizing done num_ignore with
  | nil => exact absurd rfl hSome
  | cons field rest ih =>
    have hStep := @fieldStep_spec control done rest.length
      num_ignore (rest.length == 0) _ _ (hFields field List.mem_cons_self)
      (stop_tailOf rest)
      (by cases rest <;> simp [tailOf])
    rw [List.mapM_cons, intercalate_tail, List.length_cons, fieldLoop]
    cases hCase : codesOf field with
    | none =>
      rw [hCase] at hStep
      rcases hStep with ⟨error, info, hFail⟩
      refine ⟨error, info, ?_⟩
      rw [hFail]
      simp only [slips, hCase]
      rfl
    | some c =>
      rw [hCase] at hStep
      rw [hStep]
      have hSlips : slips (field :: rest) = slips rest := by rw [slips, hCase]
      cases rest with
      | nil =>
        simp [ignoredIn_cons]
        rfl
      | cons next more =>
        have hLoop := ih (done ++ [c]) (num_ignore + ignored c)
          (List.cons_ne_nil _ _)
          (fun f hMem => hFields f (List.mem_cons_of_mem field hMem))
        rw [List.length_append, List.length_singleton] at hLoop
        have hTail : charAt (tailOf (next :: more)) = ',' := rfl
        have hDrop : (tailOf (next :: more)).drop 1 = [','].intercalate (next :: more) := rfl
        rw [hSlips, hTail, if_pos rfl, hDrop]
        cases hRest : (next :: more).mapM codesOf with
        | none =>
          rw [hRest] at hLoop
          exact hLoop
        | some codes =>
          rw [hRest] at hLoop
          simp only [Option.bind_eq_bind, Option.bind_some, Option.pure_def, hLoop]
          rw [ignoredIn_cons, List.append_assoc, Nat.add_assoc]
          rfl

----
-- The Text
----

/- The fields of a text. -/
theorem not_stop_of_splitOn {text field : List Char} (hText : '\x00' ∉ text)
    (hMem : field ∈ text.splitOn ',') : ∀ a ∈ field, ¬Stop a := by
  rw [Words.splitOn_eq_wordsOf] at hMem
  intro a hA hStop
  rcases hStop with rfl | rfl
  · exact hText (Words.mem_of_mem_wordsOf hMem hA)
  · have hWord := Words.isWord_of_mem_wordsOf hMem ',' hA
    simp at hWord

theorem length_splitOn (text : List Char) : (text.splitOn ',').length = 1 + text.count ',' := by
  rw [Words.splitOn_eq_wordsOf, Words.length_wordsOf, Nat.add_comm]
  simp only [Bool.not_not]
  rfl

/- The number after the semicolon. -/
theorem dependentSelector_spec (cp : List Char) :
    match dependOf 0 (some cp) with
    | some depend => dependentSelector cp = .ok depend
    | none => ∃ error, dependentSelector cp = .error error := by
  have hDigits : cp.length = (cp.takeWhile Char.isDigit).length ↔
      ∀ c ∈ cp, c.isDigit = true := by
    constructor
    · intro hLength
      have hAll : cp.takeWhile Char.isDigit = cp :=
        (List.takeWhile_prefix _).eq_of_length hLength.symm
      exact List.takeWhile_eq_self_iff.mp hAll
    · intro hAll
      rw [List.takeWhile_eq_self_iff.mpr hAll]
  have hMax : UINT_MAX < strtoul cp ↔
      UINT_MAX < decimal cp := by
    unfold strtoul UINT_MAX decimal
    omega
  unfold dependOf dependentSelector
  dsimp only
  by_cases hEmpty : cp = []
  · rw [if_neg (fun h => h.1 hEmpty), if_pos (Or.inl (by rw [hEmpty]; rfl))]
    exact ⟨_, rfl⟩
  have hSome : cp.length ≠ 0 := by
    rw [Ne, List.length_eq_zero_iff]
    exact hEmpty
  by_cases hAll : ∀ c ∈ cp, c.isDigit = true
  · have hScan : ¬(cp.length = 0 ∨
        cp.length ≠ (cp.takeWhile Char.isDigit).length) :=
      not_or.mpr ⟨hSome, not_not.mpr (hDigits.mpr hAll)⟩
    rw [if_neg hScan]
    by_cases hLarge : UINT_MAX < decimal cp
    · rw [if_neg (fun h => absurd h.2.2.2 (Nat.not_le.mpr hLarge)), if_pos (hMax.mpr hLarge)]
      exact ⟨_, rfl⟩
    · have hSame : strtoul cp = decimal cp := by
        have hFits : decimal cp ≤ 2 ^ 64 - 1 := by
          unfold UINT_MAX at hLarge
          omega
        exact min_eq_left hFits
      rw [if_pos ⟨hEmpty, List.all_eq_true.mpr hAll, Nat.zero_le _, Nat.not_lt.mp hLarge⟩, hSame,
        if_neg hLarge]
  · rw [if_neg (fun h => hAll (List.all_eq_true.mp h.2.1)),
      if_pos (Or.inr (fun h => hAll (hDigits.mp h)))]
    exact ⟨_, rfl⟩

theorem selectDepend_spec (cp : Option (List Char)) :
    match dependOf 0 cp with
    | some depend => selectDepend cp = .ok depend
    | none => ∃ error, selectDepend cp = .error error := by
  cases cp with
  | none => rfl
  | some digits => exact dependentSelector_spec digits

/- Every column is used or ignored. -/
theorem usable_add_ignoredIn (codes : List Codes) :
    usable codes + ignoredIn codes = codes.length := by
  unfold usable ignoredIn
  rw [List.length_eq_countP_add_countP (fun c : Codes => decide (c.interp ≠ .ignoreColumn))]
  simp

theorem slips_of_mapM {fields : List (List Char)} {codes : List Codes}
    (h : fields.mapM codesOf = some codes) :
    slips fields = false ∧ codes.length = fields.length := by
  induction fields generalizing codes with
  | nil =>
    cases h
    exact ⟨rfl, rfl⟩
  | cons field rest ih =>
    rw [List.mapM_cons] at h
    cases hCase : codesOf field with
    | none =>
      rw [hCase] at h
      cases h
    | some c =>
      rw [hCase] at h
      cases hRest : rest.mapM codesOf with
      | none =>
        rw [hRest] at h
        cases h
      | some more =>
        rw [hRest] at h
        cases h
        rw [slips, hCase]
        exact ⟨(ih hRest).1, by
          rw [List.length_cons, (ih hRest).2]; rfl⟩

/- The range of numbers matters after a semicolon only. -/
theorem dependOf_least (hLeast : least ≤ 1) (cp : Option (List Char)) :
    dependOf least cp = (dependOf 0 cp).filter (fun depend => least ≤ depend) := by
  cases cp with
  | none =>
    unfold dependOf
    rw [Option.filter_some, if_pos (decide_eq_true hLeast)]
  | some digits =>
    unfold dependOf
    dsimp only
    by_cases hValid : digits ≠ [] ∧ digits.all Char.isDigit ∧ decimal digits ≤ UINT_MAX
    · grind
    · grind

/- The scan of the fields, from the first one. -/
theorem initializeControlFields_spec (table : TableMod) {control : List Char}
    (hText : '\x00' ∉ control) {depend : Nat}
    (hDepend : dependOf 0 (cutControl control).2 = some depend)
    (hDims : table.dims ≤ ((cutControl control).1.splitOn ',').length) :
    ∃ result, initializeControlFields table control = some result ∧
      match ((cutControl control).1.splitOn ',').mapM codesOf with
      | none =>
        result.rtn =
          (if slips ((cutControl control).1.splitOn ',') then 0
            else 1) ∧
        result.errors ≠ []
      | some codes =>
        if usable codes = table.dims then
          result.rtn = 0 ∧ result.errors = [] ∧
          result.table.info = infoOf codes ∧
          result.table.fields = codes.length ∧
          result.table.depend = depend
        else result.rtn ≠ 0 ∧ result.errors ≠ [] := by
  have hFields : '\x00' ∉ (cutControl control).1 :=
    fun h => hText ((List.takeWhile_prefix _).subset h)
  have hLoop := fieldLoop_spec (cutControl control).1 [] 0
    (List.splitOn_ne_nil ',' (cutControl control).1)
    (fun field hMem => not_stop_of_splitOn hFields hMem)
  have hSelector := selectDepend_spec (cutControl control).2
  rw [hDepend] at hSelector
  rw [List.intercalate_splitOn] at hLoop
  have hStart : written []
      ((cutControl control).1.splitOn ',').length =
      allocateInfo (1 + (cutControl control).1.count ',') := by
    rw [length_splitOn]
    rfl
  rw [hStart] at hLoop
  rw [length_splitOn] at hDims hLoop
  unfold initializeControlFields
  simp only [hSelector, if_neg (Nat.not_lt.mpr hDims)]
  cases hCodes : ((cutControl control).1.splitOn ',').mapM codesOf with
  | none =>
    rw [hCodes] at hLoop
    rcases hLoop with ⟨error, info, hFail⟩
    rw [List.length_nil] at hFail
    simp only [hFail]
    exact ⟨_, rfl, rfl, by simp⟩
  | some codes =>
    rw [hCodes] at hLoop
    have hLength : codes.length = 1 + (cutControl control).1.count ',' := by
      rw [(slips_of_mapM hCodes).2, length_splitOn]
    have hUsable : 1 + (cutControl control).1.count ',' - (0 + ignoredIn codes) = usable codes := by
      have hSum := usable_add_ignoredIn codes
      omega
    rw [List.length_nil] at hLoop
    simp only [hLoop, hUsable]
    by_cases hMatch : usable codes = table.dims
    · rw [if_neg (not_not.mpr hMatch)]
      refine ⟨_, rfl, ?_⟩
      rw [if_pos hMatch]
      refine ⟨rfl, rfl, ?_, hLength.symm, rfl⟩
      simp [written, infoOf]
    · rw [if_pos hMatch]
      grind

/- What is refused before the scan. -/
theorem initializeControlFields_refused (table : TableMod) (control : List Char)
    (hRefused : dependOf 0 (cutControl control).2 = none ∨
      ((cutControl control).1.splitOn ',').length < table.dims) :
    ∃ result, initializeControlFields table control = some result ∧
      result.rtn ≠ 0 ∧ result.errors ≠ [] := by
  have hSelector := selectDepend_spec (cutControl control).2
  unfold initializeControlFields
  cases hDepend : dependOf 0 (cutControl control).2 with
  | none =>
    rw [hDepend] at hSelector
    rcases hSelector with ⟨error, hError⟩
    simp only [hError]
    exact ⟨_, rfl, Nat.one_ne_zero, by simp⟩
  | some depend =>
    rw [hDepend] at hSelector
    have hFew : 1 + (cutControl control).1.count ',' < table.dims := by
      rw [← length_splitOn]
      exact hRefused.resolve_left (by rw [hDepend]; simp)
    simp only [hSelector, if_pos hFew]
    exact ⟨_, rfl, Nat.one_ne_zero, by simp⟩

/- What the grammar has a meaning for is not refused. -/
theorem grammar_refused (hLeast : least ≤ 1) (dims : Nat) (control : List Char)
    (hRefused : dependOf 0 (cutControl control).2 = none ∨
      ((cutControl control).1.splitOn ',').length < dims) : grammar least dims control = none := by
  have hLow := dependOf_least hLeast (cutControl control).2
  unfold grammar
  simp only [hLow]
  cases hDepend : dependOf 0 (cutControl control).2 with
  | none => rfl
  | some depend =>
    have hFew := hRefused.resolve_left (by rw [hDepend]; simp)
    cases (some depend).filter (fun depend => least ≤ depend) with
    | none => rfl
    | some depend =>
      cases hCodes : ((cutControl control).1.splitOn ',').mapM codesOf with
      | none => rfl
      | some codes =>
        have hLength := (slips_of_mapM hCodes).2
        have hSum := usable_add_ignoredIn codes
        have hOther : usable codes ≠ dims := by omega
        exact if_neg hOther

/- The meaning, where the dependent column is a number. -/
theorem grammar_eq (hLeast : least ≤ 1) (dims : Nat) {control : List Char} {depend : Nat}
    (hDepend : dependOf 0 (cutControl control).2 = some depend) :
    grammar least dims control =
      match ((cutControl control).1.splitOn ',').mapM codesOf with
      | none => none
      | some codes =>
        if least ≤ depend ∧ usable codes = dims then
          some ⟨codes, depend⟩
        else none := by
  unfold grammar
  simp only [dependOf_least hLeast, hDepend]
  by_cases hLow : least ≤ depend
  · grind
  · grind

/- The scanner is right but for the extrapolation codes it does
   not know, whose failure it reports as success, and for
   dependent columns below the range. -/
theorem controlRight_iff {least : Nat} (hLeast : least ≤ 1) (table : TableMod) {control : List Char}
    (hText : '\x00' ∉ control) :
    ControlRight least table control ↔
      ¬Slips table.dims control ∧
      ¬∃ meaning, grammar 0 table.dims control = some meaning ∧
        meaning.depend < least := by
  unfold ControlRight
  by_cases hRefused : dependOf 0 (cutControl control).2 = none ∨
      ((cutControl control).1.splitOn ',').length < table.dims
  · -- both sides hold: an error is reported and is due
    rcases initializeControlFields_refused table control hRefused with ⟨result, hRun, hError⟩
    rw [grammar_refused hLeast _ _ hRefused, grammar_refused (Nat.zero_le 1) _ _ hRefused]
    refine ⟨fun _ => ⟨?_, fun ⟨_, h, _⟩ => nomatch h⟩, fun _ => ⟨result, hRun, hError⟩⟩
    rintro ⟨hSome, hDims, -⟩
    rcases hRefused with hNone | hFew
    · rw [hNone] at hSome
      cases hSome
    · omega
  have hDims : table.dims ≤ ((cutControl control).1.splitOn ',').length :=
    Nat.not_lt.mp (not_or.mp hRefused).2
  rcases Option.ne_none_iff_exists'.mp (not_or.mp hRefused).1 with ⟨depend, hDepend⟩
  rcases initializeControlFields_spec table hText hDepend hDims with ⟨result, hRun, hResult⟩
  unfold Slips
  simp only [grammar_eq hLeast _ hDepend, grammar_eq (Nat.zero_le 1) _ hDepend, hRun, hDepend,
    hDims]
  cases hCodes : ((cutControl control).1.splitOn ',').mapM codesOf with
  | none =>
    rw [hCodes] at hResult
    cases hSlips : slips ((cutControl control).1.splitOn ',') with
    | false => simp [hSlips, hResult.1, hResult.2]
    | true => simp [hResult.1, hSlips]
  | some codes =>
    rw [hCodes] at hResult
    rw [(slips_of_mapM hCodes).1]
    by_cases hUsable : usable codes = table.dims
    · simp only [hUsable, if_true] at hResult
      by_cases hLow : least ≤ depend
      · simp [hUsable, hLow, hResult]
      · simp [hUsable, hLow, hResult]
    · simp only [hUsable, if_false] at hResult
      simp [hUsable, hResult]

/- A table of one column, before its control string. -/
def oneColumn : TableMod where
  info := ⟨[], [], []⟩
  dims := 1
  fields := 0
  depend := 0
  have_ctl := false

/- Closest point, constant below and linear above. -/
theorem controlRight_iff_closest :
    ControlRight 1 oneColumn ['D', 'C', 'L'] ∧
    '\x00' ∉ ['D', 'C', 'L'] := by
  have hText : '\x00' ∉ ['D', 'C', 'L'] := by decide
  refine ⟨(controlRight_iff (Nat.le_refl 1) oneColumn hText).mpr
    ⟨by unfold Slips; decide, ?_⟩, hText⟩
  have hMeaning : grammar 0 1 ['D', 'C', 'L'] =
      some ⟨[⟨.closestPoint, .constant, .linear⟩], 1⟩ := by decide
  rintro ⟨meaning, hSome, hLow⟩
  rw [show oneColumn.dims = 1 from rfl, hMeaning] at hSome
  cases hSome
  exact absurd hLow (Nat.lt_irrefl 1)

/- An unknown extrapolation code gives a message and success. -/
theorem unknown_extrapolation_succeeds : ¬ControlRight 1 oneColumn ['1', 'X'] := by
  have hRun : initializeControlFields oneColumn ['1', 'X'] =
      some ⟨0, { oneColumn with
          info := ⟨[some .linear], [none], [none]⟩
          depend := 1
          have_ctl := true },
        [.unknownExtrap 'X' 1 ['1', 'X']]⟩ := by decide
  have hMeaning : grammar 1 1 ['1', 'X'] = none := by decide
  rintro ⟨result, hResult, hRight⟩
  rw [hRun] at hResult
  cases hResult
  rw [show oneColumn.dims = 1 from rfl, hMeaning] at hRight
  exact hRight.1 rfl

end TableModel

end EpicSim

