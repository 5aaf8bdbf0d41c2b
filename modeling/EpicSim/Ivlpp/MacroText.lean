import EpicSim.Lib.CText
import Mathlib.Data.List.DropRight
import EpicSim.Lib.Words

/-
  The text of a macro with arguments: how its definition is
  stored, and how a use of it is expanded.

  Strings are lists of bytes without their final zero.  Where
  the source fails an assertion, writes past what it has
  allocated or reads outside of a table there is no result.
-/

namespace EpicSim

/- The bytes of a string. -/
abbrev Bytes := List (Fin 256)

----
-- Characters
----

/- `ARG_MARK` -/
def argMark : Fin 256 := 7

/- `isalnum` of the C locale. -/
def isAlnum (c : Fin 256) : Bool :=
  (48 ≤ c && c ≤ 57) || (65 ≤ c && c ≤ 90) || (97 ≤ c && c ≤ 122)

/- `is_id_char` -/
def isIdChar (c : Fin 256) : Bool :=
  isAlnum c || c = 95 || c = 36

/- `isspace` of the C locale. -/
def isSpace (c : Fin 256) : Bool :=
  c = 32 || (9 ≤ c && c ≤ 13)

/- A `char` as a number: it has a sign. -/
def charValue (c : Fin 256) : Int :=
  if c.val < 128 then c.val else c.val - 256

----
-- Finding arguments
----

/- `strstr`: where a string is first found. -/
def strstr (arg : Bytes) : Bytes → Option Nat
| [] => if arg = [] then some 0 else none
| c :: s =>
  if arg.isPrefixOf (c :: s) then some 0
  else (strstr arg s).map (· + 1)

/- The byte is part of an identifier; the end of the string is
   not. -/
def isIdAt (s : Bytes) (n : Nat) : Bool :=
  s[n]?.elim false isIdChar

/- `find_arg` in a string, from a place on.  The outer option
   is about the number of turns. -/
def findArg (s arg : Bytes) : Nat → Nat → Option (Option Nat)
| 0, _ => none
| fuel + 1, ptr =>
  match strstr arg (s.drop ptr) with
  | none => some none
  | some found =>
    let cp := ptr + found
    if (cp ≠ 0 && isIdAt s (cp - 1)) ||
        isIdAt s (cp + arg.length) then
      findArg s arg fuel (cp + 1)
    else some (some cp)

----
-- Definitions
----

/- `define_text` while a line is added to it: what it had, the
   new line, and the numbers that the source keeps by hand. -/
structure DefineText where
  before : Bytes
  line : Bytes
  tail : Nat
  allocated : Int
  defineCnt : Int
  addedCnt : Int
deriving DecidableEq

namespace DefineText

/- Grow the text if more was added than removed. -/
def grow (d : DefineText) : DefineText :=
  if 0 < d.addedCnt then
    { d with
      allocated := d.defineCnt + d.addedCnt + 1
      defineCnt := d.defineCnt + d.addedCnt
      addedCnt := 0 }
  else d

/- An argument of `argl` bytes, replaced by the mark and its
   number. -/
def replace (d : DefineText) (cp argl : Nat) (arg : Fin 256) : Option DefineText :=
  let d := { d with addedCnt := d.addedCnt + (2 - argl) }.grow
  if cp + argl ≤ d.tail ∧
      (d.before.length + cp + 2 + (d.tail - (cp + argl)) + 1 : Int) ≤ d.allocated then
    let rest := (d.line.drop (cp + argl)).take (d.tail - (cp + argl))
    some { d with
      line := d.line.take cp ++ argMark :: arg :: rest
      tail := d.tail + 2 - argl }
  else none

end DefineText

/- The inner loop of `do_define`: all places of one argument. -/
def replaceLoop (name : Bytes) (arg : Fin 256) : Nat → Nat → DefineText → Option DefineText
| 0, _, _ => none
| fuel + 1, ptr, d => do
    match ← findArg d.line name (d.line.length + 1) ptr with
    | none => some d
    | some cp =>
      let d ← d.replace cp name.length arg
      replaceLoop name arg fuel (cp + 2) d

/- The loop of `do_define` over the arguments, from a number
   on. -/
def replaceArgs : List Bytes → Nat → DefineText → Option DefineText
| [], _, d => some d
| name :: names, arg, d => do
    let d ← replaceLoop name (Fin.ofNat 256 arg)
      (d.line.length + 2) 0 d
    replaceArgs names (arg + 1) d

/- The loop that removes comments, from a slash on or from
   where a comment was removed. -/
def stripComments : Nat → Bytes → Bytes
| 0, s => s
| _, [] => []
| fuel + 1, c :: s =>
  if s.head? = some 47 then []
  else if s.head? = some 42 then
    match strstr [42, 47] (s.drop 1) with
    | none => []
    | some tail => stripComments fuel (s.drop (1 + tail + 2))
  else
    c :: s.takeWhile (· ≠ 47) ++ stripComments fuel (s.dropWhile (· ≠ 47))

/- The line without comments and white space at its end. -/
def trimLine (yytext : Bytes) : Bytes :=
  List.rdropWhile isSpace
    (yytext.takeWhile (· ≠ 47) ++ stripComments (yytext.length + 1) (yytext.dropWhile (· ≠ 47)))

/- A line that goes on has a new line for its backslash. -/
def continueLine (line : Bytes) : Bytes :=
  if line.getLast? = some 92 then
    List.rdropWhile isSpace line.dropLast ++ [10]
  else line

/- `do_define` with the text before it and the arguments.  A
   macro with arguments and a mark in its text is given up. -/
def doDefine (before : Bytes) (formals : List Bytes)
    (yytext : Bytes) : Option (Option Bytes) := do
  let line := continueLine (trimLine yytext)
  if formals ≠ [] ∧ argMark ∈ line then some none
  else
    let d ← replaceArgs formals 1
      { before := before
        line := line
        tail := line.length
        allocated := before.length + line.length + 1
        defineCnt := before.length + line.length
        addedCnt := 0 }
    some (some (d.before ++ d.line))

----
-- Expansion
----

/- `exp_buf`: the bytes in use, its size and what is free. -/
structure ExpBuf where
  bytes : Bytes
  size : Nat
  free : Nat
deriving DecidableEq

namespace ExpBuf

/- `exp_buf_grow_to_fit` -/
def growToFit (length : Nat) : Nat → ExpBuf → Option ExpBuf
| 0, _ => none
| fuel + 1, b =>
  if b.free ≤ length then
    growToFit length fuel { b with size := b.size + 256, free := b.free + 256 }
  else some b

/- Bytes are copied to where the free bytes start. -/
def copy (b : ExpBuf) (s : Bytes) : Option ExpBuf :=
  if s.length ≤ b.free then
    some
      { b with
        bytes := b.bytes.take (b.size - b.free) ++ s
        free := b.free - s.length }
  else none

end ExpBuf

/- What `expand_using_args` needs of `cur_macro`: there is an
   entry of `defaults` for each of `argc` arguments. -/
structure CurMacro where
  value : Bytes
  defaults : List (Option Bytes)
deriving DecidableEq

namespace CurMacro

def argc (m : CurMacro) : Nat := m.defaults.length

end CurMacro

/- The text of an argument: its default if it is empty and has
   one.  The number must be inside the tables. -/
def useArg (m : CurMacro) (argv : List Bytes) (arg : Int) : Option Bytes :=
  if 0 ≤ arg then do
    let text ← argv[arg.toNat]?
    if text.length = 0 then do
      let default ← m.defaults[arg.toNat]?
      some (default.getD text)
    else some text
  else none

/- The loop of `expand_using_args`: `head` has the bytes from
   the head to the tail. -/
def expandLoop (m : CurMacro) (argv : List Bytes) : Bytes → Bytes → ExpBuf → Option ExpBuf
| head, [], b => do
    let b ← b.growToFit head.length (head.length + 2)
    b.copy (head ++ [0])
| head, c :: s, b =>
  if c = argMark then
    match s with
    | [] =>
      -- The loop goes on behind the end of the value.
      none
    | a :: s => do
        let arg := charValue a
        if arg < argv.length then
          let text ← useArg m argv arg
          let length := head.length + text.length
          let b ← b.growToFit length (length + 2)
          let b ← b.copy (head ++ text)
          expandLoop m argv [] s b
        else none
  else expandLoop m argv (head ++ [c]) s b

/- The arguments that are missing, if they have defaults. -/
def fillArgs (m : CurMacro) : Nat → List Bytes → Option (List Bytes)
| 0, argv => some argv
| missing + 1, argv =>
  match m.defaults[argv.length]? with
  | some (some _) => fillArgs m missing (argv ++ [[]])
  | _ => none

/- `expand_using_args`: nothing is expanded where there are too
   many or too few arguments. -/
def expandUsingArgs (m : CurMacro) (argv : List Bytes) (b : ExpBuf) : Option (Option ExpBuf) :=
  if m.argc < argv.length then some none
  else
    match fillArgs m (m.argc - argv.length) argv with
    | none => some none
    | some argv =>
      if argv.length = m.argc then
        (expandLoop m argv [] m.value b).map some
      else none

end EpicSim
