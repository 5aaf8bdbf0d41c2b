import Mathlib.Algebra.Group.Int.Defs
import Mathlib.Algebra.Group.Nat.Defs
import Mathlib.Data.List.Basic
import Mathlib.Data.List.Count

/-
  The control string of `$table_model`.

  Two scanners walk one pointer: the outer one over the fields
  between commas, the inner one over the extrapolation codes of
  a field.  The outer one returns 1 for an error, but 0 where
  the inner one failed.
-/

----
-- Data
----

namespace EpicSim

namespace TableModel

/- The interpolation control values. -/
inductive Interp where
| closestPoint | linear | quadratic | cubic | ignoreColumn
deriving DecidableEq

/- The extrapolation control values. -/
inductive Extrap where
| constant | linear | error
deriving DecidableEq

/- The arrays of a table; what is allocated is not set. -/
structure ControlInfo where
  interp : List (Option Interp)
  extrap_low : List (Option Extrap)
  extrap_high : List (Option Extrap)
deriving DecidableEq

/- The parts of `s_table_mod` that the control string sets or
   is compared with. -/
structure TableMod where
  info : ControlInfo
  dims : Nat
  fields : Nat
  depend : Nat
  have_ctl : Bool
deriving DecidableEq

/- The messages, with what they print. -/
inductive ControlError where
| unknownExtrap (code : Char) (dimension : Nat)
    (control : List Char)
| unknownHighExtrap (code : Char) (dimension : Nat)
    (control : List Char)
| invalidSelector (text : List Char)
| selectorTooLarge (val : Nat)
| notEnoughFields (num_fields dims : Nat)
| unknownInterp (code : Char) (dimension : Nat)
    (control : List Char)
| extraCharacters (dimension : Nat) (control : List Char)
| usableMismatch (usable dims : Nat)
deriving DecidableEq

/- The value returned, the table and the messages. -/
structure ControlResult where
  rtn : Nat
  table : TableMod
  errors : List ControlError
deriving DecidableEq

----
-- Pointers And Arrays
----

/- The character at a pointer, zero at the end of the text. -/
def charAt : List Char → Char
| [] => '\x00'
| c :: _ => c

/- `cp += 1`, which must not leave the text. -/
def advance : List Char → Option (List Char)
| [] => none
| _ :: rest => some rest

/- `simp` walks along a text by these two. -/
@[simp] theorem charAt_cons (c : Char) (rest : List Char) : charAt (c :: rest) = c := rfl

@[simp] theorem advance_cons (c : Char) (rest : List Char) : advance (c :: rest) = some rest := rfl

/- A store into an allocated array. -/
def store {α : Type} (array : List (Option α)) (idx : Nat) (val : α) : Option (List (Option α)) :=
  if idx < array.length then some (array.set idx (some val))
  else none

/- A field for both ends. -/
def ControlInfo.storeExtrap (info : ControlInfo) (idx : Nat)
    (low high : Extrap) : Option ControlInfo := do
  let extrap_low ← store info.extrap_low idx low
  let extrap_high ← store info.extrap_high idx high
  some
    { info with
      extrap_low := extrap_low
      extrap_high := extrap_high }

def ControlInfo.storeHigh (info : ControlInfo) (idx : Nat)
    (high : Extrap) : Option ControlInfo := do
  let extrap_high ← store info.extrap_high idx high
  some { info with extrap_high := extrap_high }

def ControlInfo.storeInterp (info : ControlInfo) (idx : Nat)
    (code : Interp) : Option ControlInfo := do
  let interp ← store info.interp idx code
  some { info with interp := interp }

----
-- One Field
----

/- The codes with extrapolation characters after them. -/
def interpOf : Char → Option Interp
| 'D' => some .closestPoint
| '1' => some .linear
| '2' => some .quadratic
| '3' => some .cubic
| _ => none

def extrapOf : Char → Option Extrap
| 'C' => some .constant
| 'L' => some .linear
| 'E' => some .error
| _ => none

/- A scan goes on, or returns with a message and the arrays as
   they are then. -/
inductive Scan (α : Type) where
| next (state : α)
| fail (rtn : Nat) (error : ControlError) (info : ControlInfo)
deriving DecidableEq

/- `parse_extrap`; nothing where a store or a pointer leaves
   its bounds. -/
def parseExtrap (control : List Char) (info : ControlInfo) (idx : Nat) (extrap : List Char) :
    Option (Scan (ControlInfo × List Char)) := do
  let extrap ← advance extrap
  match extrapOf (charAt extrap) with
  | some code => do
      let info ← info.storeExtrap idx code code
      let extrap ← advance extrap
      match extrapOf (charAt extrap) with
      | some code => do
          let info ← info.storeHigh idx code
          let extrap ← advance extrap
          some (.next (info, extrap))
      | none =>
        if charAt extrap = '\x00' ∨ charAt extrap = ',' then
          some (.next (info, extrap))
        else
          some (.fail 1 (.unknownHighExtrap (charAt extrap) (idx + 1) control) info)
  | none =>
    if charAt extrap = '\x00' ∨ charAt extrap = ',' then do
      let info ← info.storeExtrap idx .linear .linear
      some (.next (info, extrap))
    else
      some (.fail 1 (.unknownExtrap (charAt extrap) (idx + 1) control) info)

/- What the loop carries: the arrays, the pointer and the count
   of ignored columns. -/
structure FieldState where
  info : ControlInfo
  cp : List Char
  num_ignore : Nat
deriving DecidableEq

/- The `switch` on the first character of a field. -/
def fieldCodes (control : List Char) (last : Bool) (idx : Nat)
    (s : FieldState) : Option (Scan FieldState) := do
  match interpOf (charAt s.cp) with
  | some code => do
      let info ← s.info.storeInterp idx code
      match ← parseExtrap control info idx s.cp with
      | .fail _ error info => some (.fail 0 error info)
      | .next (info, cp) => some (.next { s with info := info, cp := cp })
  | none =>
    if charAt s.cp = 'I' then do
      let info ← s.info.storeInterp idx .ignoreColumn
      let info ← info.storeExtrap idx .error .error
      let cp ← advance s.cp
      some (.next ⟨info, cp, s.num_ignore + 1⟩)
    else if charAt s.cp = '\x00' ∨ charAt s.cp = ',' then
      -- only the last field ends with the text
      if charAt s.cp = '\x00' ∧ !last then none
      else do
        let info ← s.info.storeInterp idx .linear
        let info ← info.storeExtrap idx .linear .linear
        some (.next { s with info := info })
    else
      some (.fail 1 (.unknownInterp (charAt s.cp) (idx + 1) control) s.info)

/- One turn of the loop over the fields. -/
def fieldStep (control : List Char) (last : Bool) (idx : Nat)
    (s : FieldState) : Option (Scan FieldState) := do
  match ← fieldCodes control last idx s with
  | .fail rtn error info => some (.fail rtn error info)
  | .next s =>
    if charAt s.cp ≠ '\x00' ∧ charAt s.cp ≠ ',' then
      some (.fail 1 (.extraCharacters (idx + 1) control) s.info)
    else if charAt s.cp = ',' then do
      let cp ← advance s.cp
      some (.next { s with cp := cp })
    else some (.next s)

/- The loop, with the number of fields that are left. -/
def fieldLoop (control : List Char) : Nat → Nat → FieldState → Option (Scan FieldState)
| 0, _, s => some (.next s)
| left + 1, idx, s => do
    match ← fieldStep control (left == 0) idx s with
    | .fail rtn error info => some (.fail rtn error info)
    | .next s => fieldLoop control left (idx + 1) s

----
-- The Control String
----

def UINT_MAX : Nat := 2 ^ 32 - 1

/- `strtoul` of digits, which saturates. -/
def strtoul (digits : List Char) : Nat :=
  min (digits.foldl (fun val c => 10 * val + (c.toNat - 48)) 0) (2 ^ 64 - 1)

/- The text after a semicolon: the number, or the message. -/
def dependentSelector (cp : List Char) : Except ControlError Nat :=
  if cp.length = 0 ∨
      cp.length ≠ (cp.takeWhile Char.isDigit).length then
    .error (.invalidSelector cp)
  else if UINT_MAX < strtoul cp then
    .error (.selectorTooLarge (strtoul cp))
  else .ok (strtoul cp)

/- The dependent column, the first one where none is given. -/
def selectDepend : Option (List Char) → Except ControlError Nat
| some cp => dependentSelector cp
| none => .ok 1

/- The text is cut at its first semicolon. -/
def cutControl (control : List Char) : List Char × Option (List Char) :=
  (control.takeWhile (· != ';'), advance (control.dropWhile (· != ';')))

/- The arrays as `malloc` leaves them. -/
def allocateInfo (num_fields : Nat) : ControlInfo where
  interp := List.replicate num_fields none
  extrap_low := List.replicate num_fields none
  extrap_high := List.replicate num_fields none

/- `initialize_control_fields`. -/
def initializeControlFields (table : TableMod) (control : List Char) : Option ControlResult :=
  let table := { table with
    info := ⟨[], [], []⟩
    have_ctl := true }
  let (control, cp) := cutControl control
  match selectDepend cp with
  | .error error => some ⟨1, table, [error]⟩
  | .ok depend =>
    let table := { table with depend := depend }
    let num_fields := 1 + control.count ','
    if num_fields < table.dims then
      some ⟨1, table, [.notEnoughFields num_fields table.dims]⟩
    else
      match fieldLoop control num_fields 0
        ⟨allocateInfo num_fields, control, 0⟩ with
      | none => none
      | some (.fail rtn error info) => some ⟨rtn, { table with info := info }, [error]⟩
      | some (.next s) =>
        let table := { table with info := s.info }
        if num_fields - s.num_ignore ≠ table.dims then
          some ⟨1, table, [.usableMismatch (num_fields - s.num_ignore) table.dims]⟩
        else
          some ⟨0, { table with fields := num_fields }, []⟩

end TableModel

end EpicSim
