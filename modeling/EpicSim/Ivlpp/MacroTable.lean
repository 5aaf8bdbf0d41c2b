import EpicSim.Lib.CText
import EpicSim.Lib.ParentTree

/-
  The table of macros of the preprocessor.

  Definitions are cells of a tree that is searched by `strcmp`;
  two cells that are never freed hold the magic macros.  Where
  the source reads through a null pointer or fails an assertion
  there is no next state.
-/

namespace EpicSim

----
-- Definitions
----

/- What a cell holds of a macro: `defaults` has a text for each
   argument that has a default. -/
structure Define where
  name : CText
  value : CText
  keyword : Int
  argc : Nat
  defaults : List (Option CText)
  magic : Bool
deriving DecidableEq

/- `"__LINE__"` -/
def lineName : CText :=
  ⟨[95, 95, 76, 73, 78, 69, 95, 95], by decide⟩

/- `"__FILE__"` -/
def fileName : CText :=
  ⟨[95, 95, 70, 73, 76, 69, 95, 95], by decide⟩

/- A macro that `do_magic` expands. -/
def magicDefine (name : CText) : Define where
  name := name
  value := name
  keyword := 0
  argc := 1
  defaults := []
  magic := true

/- `def_LINE` -/
def lineCell : TreeCell Define where
  data := magicDefine lineName
  left := some 1
  right := none
  up := none

/- `def_FILE` -/
def fileCell : TreeCell Define where
  data := magicDefine fileName
  left := none
  right := none
  up := some 0

/- The memory, the root of the table and the first address that
   was never allocated. -/
structure MacroState where
  heap : TreeHeap Define
  defTable : Option Nat
  next : Nat

namespace MacroState

/- The two static cells, and a table without macros. -/
def start : MacroState where
  heap := fun a =>
    if a = 0 then some lineCell
    else if a = 1 then some fileCell
    else none
  defTable := none
  next := 2

/- `magic_table` -/
def magicTable : Option Nat := some 0

----
-- Lookup
----

/- The loop of `def_lookup_internal`. -/
def lookupLoop (h : TreeHeap Define) (name : CText) : Nat → Option Nat → Option (Option Nat)
| _, none => some none
| 0, some _ => none
| fuel + 1, some cur => do
    let c ← h cur
    let cmp := strcmp name c.data.name
    if cmp = 0 then some (some cur)
    else lookupLoop h name fuel (if cmp < 0 then c.left else c.right)

/- `def_lookup_internal`: it asserts that it starts at a root. -/
def defLookupInternal (s : MacroState) (name : CText) : Option Nat → Option (Option Nat)
| none => some none
| some cur => do
    let c ← s.heap cur
    if c.up = none then lookupLoop s.heap name s.next (some cur)
    else none

/- Two underscores and something more. -/
def mayBeMagic : List (Fin 256) → Bool
| c :: d :: _ :: _ => c = 95 && d = 95
| _ => false

/- `def_lookup`: the cell of a macro, if there is one. -/
def defLookup (s : MacroState) (name : CText) : Option (Option Nat) :=
  if mayBeMagic name then
    match s.defLookupInternal name magicTable with
    | none => none
    | some (some result) => some (some result)
    | some none => s.defLookupInternal name s.defTable
  else s.defLookupInternal name s.defTable

----
-- Definition
----

/- The loop of `define_macro`: the new cell is hung into the
   table, or gives its value to a cell that has its name. -/
def placeLoop (h : TreeHeap Define) (new : Nat) : Nat → Nat → Option (TreeHeap Define)
| 0, _ => none
| fuel + 1, cur => do
    let d ← h new
    let c ← h cur
    let cmp := strcmp d.data.name c.data.name
    if cmp = 0 then
      let data := { c.data with value := d.data.value }
      some ((h.put cur { c with data := data }).free new)
    else if cmp < 0 then
      match c.left with
      | some l => placeLoop h new fuel l
      | none =>
        let h := h.put cur { c with left := some new }
        some (h.put new { d with up := some cur })
    else
      match c.right with
      | some r => placeLoop h new fuel r
      | none =>
        let h := h.put cur { c with right := some new }
        some (h.put new { d with up := some cur })

/- The macro that the arguments of `define_macro` and the table
   `def_argd` of defaults describe. -/
def newDefine (name value : CText) (keyword : Int) (argc : Nat)
    (argd : Nat → Option CText) : Define where
  name := name
  value := value
  keyword := keyword
  argc := argc
  defaults := (List.range argc).map argd
  magic := false

/- `define_macro`, with the new cell filled in. -/
def defineMacro (s : MacroState)
    (d : Define) : Option MacroState := do
  let new := s.next
  let h := s.heap.put new ⟨d, none, none, none⟩
  match s.defTable with
  | none => some ⟨h, some new, s.next + 1⟩
  | some cur =>
    let h' ← placeLoop h new (s.next + 1) cur
    some ⟨h', some cur, s.next + 1⟩

----
-- Removal
----

/- `while (tail->right) tail = tail->right;` -/
def tailLoop (h : TreeHeap Define) : Nat → Nat → Option Nat
| 0, _ => none
| fuel + 1, tail => do
    let c ← h tail
    match c.right with
    | none => some tail
    | some r => tailLoop h fuel r

/- `cell->up = up` -/
def setUp (h : TreeHeap Define) (cell : Nat) (up : Option Nat) : Option (TreeHeap Define) :=
  h.modify cell fun c => { c with up := up }

/- The right subtree, hung under the rightmost cell of the left
   one. -/
def hangRight (h : TreeHeap Define)
    (fuel left right : Nat) : Option (TreeHeap Define) := do
  let tail ← tailLoop h fuel left
  let h ← h.modify tail fun c => { c with right := some right }
  setUp h right (some tail)

/- The link of the parent to the cell, or to none of its
   children when the assertion fails. -/
def relink (h : TreeHeap Define) (up cur : Nat)
    (child : Option Nat) : Option (TreeHeap Define) := do
  let u ← h up
  if u.left = some cur then
    some (h.put up { u with left := child })
  else if u.right = some cur then
    some (h.put up { u with right := child })
  else none

/- `def_undefine` up to where it frees the cell. -/
def unlink (s : MacroState)
    (cur : Nat) : Option MacroState := do
  let c ← s.heap cur
  match c.up, c.left, c.right with
  | none, none, none => some { s with defTable := none }
  | none, none, some right =>
    let h ← setUp s.heap right none
    some { s with heap := h, defTable := some right }
  | none, some left, none =>
    let h ← setUp s.heap left none
    some { s with heap := h, defTable := some left }
  | none, some left, some right =>
    let h ← hangRight s.heap s.next left right
    let h ← setUp h left none
    some { s with heap := h, defTable := some left }
  | some up, none, none =>
    let h ← relink s.heap up cur none
    some { s with heap := h }
  | some up, none, some right =>
    let h ← relink s.heap up cur (some right)
    let h ← setUp h right (some up)
    some { s with heap := h }
  | some up, some left, none =>
    let h ← relink s.heap up cur (some left)
    let h ← setUp h left (some up)
    some { s with heap := h }
  | some up, some left, some right =>
    let h ← hangRight s.heap s.next left right
    let h ← relink h up cur (some left)
    let h ← setUp h left (some up)
    some { s with heap := h }

/- `def_undefine` with the name it has read. -/
def defUndefine (s : MacroState)
    (name : CText) : Option MacroState := do
  match ← s.defLookup name with
  | none => some s
  | some cur =>
    let c ← s.heap cur
    if c.data.magic then some s
    else
      let s ← s.unlink cur
      some { s with heap := s.heap.free cur }

end MacroState

----
-- Runs
----

/- A call of `define_macro`, with the table of defaults it
   reads, or of `def_undefine`. -/
inductive MacroOp where
| define (name value : CText) (keyword : Int) (argc : Nat)
    (argd : Nat → Option CText)
| undefine (name : CText)

namespace MacroOp

/- The name that a call is about. -/
def name : MacroOp → CText
| define n _ _ _ _ => n
| undefine n => n

/- The macro that a call defines. -/
def defined : MacroOp → Option Define
| define n value keyword argc argd => some (MacroState.newDefine n value keyword argc argd)
| undefine _ => none

end MacroOp

namespace MacroState

/- One call. -/
def step (s : MacroState) : MacroOp → Option MacroState
| .define name value keyword argc argd => s.defineMacro (newDefine name value keyword argc argd)
| .undefine name => s.defUndefine name

/- Calls, one after another. -/
def run : MacroState → List MacroOp → Option MacroState
| s, [] => some s
| s, op :: ops => do
    let s ← s.step op
    run s ops

end MacroState

end EpicSim
