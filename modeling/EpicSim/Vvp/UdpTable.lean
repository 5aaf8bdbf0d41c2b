import EpicSim.Vvp.Udp
import Mathlib.Data.Fintype.Defs

/-
  What the rows of a sequential primitive mean, and that each
  row is compiled to masks that fit where the row does.

  A character stands for levels or for changes of an input.
  Rows without a change are tried before rows with one; what
  matches no row is unknown.
-/

----
-- Meaning Of A Table
----

namespace EpicSim

open List (mem_cons not_mem_nil range_succ any_cons any_nil mem_range map_cons map_nil)
open BitVec (eq_of_getLsbD_eq getLsbD_and getLsbD_zero getLsbD_shiftLeft)
open Bool (and_eq_true or_eq_true)

/- A level of an input or of the output. -/
inductive UdpLevel where
| zero | one | x
deriving DecidableEq

instance : Fintype UdpLevel where
  elems := {.zero, .one, .x}
  complete := by
    intro v
    cases v <;> decide

/- The level as a bit of the run time. -/
def UdpLevel.toBit : UdpLevel → VvpBit4
| .zero => .zero
| .one => .one
| .x => .x

/- The levels that a character stands for. -/
def udpLevels : Char → List UdpLevel
| '0' => [.zero]
| '1' => [.one]
| 'x' => [.x]
| 'b' => [.zero, .one]
| 'l' => [.zero, .x]
| 'h' => [.x, .one]
| '?' => [.zero, .one, .x]
| _ => []

/- The changes that a character stands for. -/
def udpChanges : Char → List (UdpLevel × UdpLevel)
| 'r' => [(.zero, .one)]
| 'f' => [(.one, .zero)]
| 'p' => [(.zero, .one), (.zero, .x), (.x, .one)]
| 'n' => [(.one, .zero), (.one, .x), (.x, .zero)]
| '*' => [(.zero, .one), (.zero, .x), (.one, .zero), (.one, .x), (.x, .zero), (.x, .one)]
| '+' => [(.zero, .one), (.x, .one)]
| '_' => [(.one, .zero), (.x, .zero)]
| '%' => [(.zero, .x), (.one, .x)]
| 'P' => [(.zero, .one), (.zero, .x)]
| 'N' => [(.one, .zero), (.one, .x)]
| 'B' => [(.x, .zero), (.x, .one)]
| 'F' => [(.x, .zero)]
| 'M' => [(.one, .x)]
| 'q' => [(.zero, .x), (.one, .x)]
| 'Q' => [(.zero, .x)]
| 'R' => [(.x, .one)]
| _ => []

/- The levels that a character takes an input from. -/
def udpBefore (c : Char) : List UdpLevel :=
  (udpChanges c).map Prod.fst

/- The levels that a character leaves an input at. -/
def udpAfter (c : Char) : List UdpLevel :=
  udpLevels c ++ (udpChanges c).map Prod.snd

namespace UdpRow

open VvpUdpSeq

/- The character of an input. -/
def input (row : List Char) (i : Nat) : Char := charAt row (i + 1)

/- The character of the next output. -/
def output (n : Nat) (row : List Char) : Char := charAt row (n + 1)

/- Some input has to change. -/
def hasEdge (n : Nat) (row : List Char) : Bool :=
  (List.range n).any (fun i => udpChanges (input row i) != [])

/-
  A row has a level for the current output, a level or a
  change for each input, at most one change, and an output.
-/
structure WellFormed (n : Nat) (row : List Char) : Prop where
  length : row.length = n + 2
  current : udpLevels (charAt row 0) ≠ []
  code : ∀ i < n, udpLevels (input row i) ≠ [] ∨ udpChanges (input row i) ≠ []
  edge : ∀ i < n, ∀ j < n, udpChanges (input row i) ≠ [] → udpChanges (input row j) ≠ [] → i = j
  output : output n row ∈ ['0', '1', 'x', '-']

/- The row fits the current output and the inputs. -/
def rowMatches (n : Nat) (row : List Char) (out : UdpLevel) (prev cur : Nat → UdpLevel) : Bool :=
  (udpLevels (charAt row 0)).contains out &&
    (List.range n).all (fun i =>
      (udpLevels (input row i)).contains (cur i) ||
        (udpChanges (input row i)).contains (prev i, cur i))

/- The output that a character asks for. -/
def nextOf (c : Char) (out : UdpLevel) : UdpLevel :=
  match c with
  | '0' => .zero
  | '1' => .one
  | '-' => out
  | _ => .x

/- The output that a row asks for. -/
def next (n : Nat) (row : List Char) (out : UdpLevel) : UdpLevel :=
  nextOf (output n row) out

end UdpRow

open UdpRow

/- The next output by the rows. -/
def udpMeaning (n : Nat) (rows : List (List Char)) (out : UdpLevel)
    (prev cur : Nat → UdpLevel) : UdpLevel :=
  match rows.find? (fun row =>
      !hasEdge n row && rowMatches n row out prev cur) with
  | some row => next n row out
  | none =>
    match rows.find? (fun row =>
        hasEdge n row && rowMatches n row out prev cur) with
    | some row => next n row out
    | none => .x

/- Rows of one kind that fit ask for the same output. -/
def Agree (n : Nat) (rows : List (List Char)) (out : UdpLevel) (prev cur : Nat → UdpLevel) : Prop :=
  ∀ row ∈ rows, ∀ row' ∈ rows,
    hasEdge n row = hasEdge n row' →
    rowMatches n row out prev cur = true →
    rowMatches n row' out prev cur = true → next n row out = next n row' out

/- Exactly one input changes. -/
structure Change (n k : Nat) (prev cur : Nat → UdpLevel) : Prop where
  input : k < n
  ne : prev k ≠ cur k
  same : ∀ i < n, i ≠ k → prev i = cur i

----
-- Characters
----

namespace UdpCode

/- The level is one that the character has after a change. -/
def has (code : UdpCode) : UdpLevel → Bool
| .zero => code.mask0
| .one => code.mask1
| .x => code.maskx

/- The level is one that the change starts from. -/
def hasFrom (edge : Bool × Bool × Bool) : UdpLevel → Bool
| .zero => edge.1
| .x => edge.2.1
| .one => edge.2.2

/- The characters of levels. -/
theorem mem_levelChars_iff (c : Char) : c ∈ levelChars ↔ udpLevels c ≠ [] := by
  constructor
  · intro hMem
    simp only [levelChars, mem_cons, not_mem_nil, or_false] at hMem
    rcases hMem with rfl | rfl | rfl | rfl | rfl | rfl | rfl <;>
      decide
  · intro hNe
    unfold udpLevels at hNe
    split at hNe
    all_goals first
      | decide
      | exact absurd rfl hNe

variable {c : Char}

theorem ofLevel_of_levels (h : udpLevels c ≠ []) :
    ∃ code, ofLevel c = some code ∧ code.edge = none ∧
      ∀ v, code.has v = (udpLevels c).contains v := by
  rw [← mem_levelChars_iff] at h
  simp only [levelChars, mem_cons, not_mem_nil, or_false] at h
  rcases h with rfl | rfl | rfl | rfl | rfl | rfl | rfl <;>
    exact ⟨_, rfl, rfl, fun v => by cases v <;> rfl⟩

/- The characters of changes, by what they expand to. -/
theorem changes_cases (h : udpChanges c ≠ []) :
    c = 'n' ∨ c = 'p' ∨ c = '*' ∨
      c ∈ ['r', 'f', '+', '_', '%', 'P', 'N', 'B', 'F', 'M', 'q', 'Q', 'R'] := by
  unfold udpChanges at h
  split at h
  all_goals first
    | decide
    | exact absurd rfl h

/- A character is not both. -/
theorem levels_of_changes (h : udpChanges c ≠ []) : udpLevels c = [] := by
  rcases changes_cases h with rfl | rfl | rfl | hMem
  · rfl
  · rfl
  · rfl
  · simp only [mem_cons, not_mem_nil, or_false] at hMem
    rcases hMem with rfl | rfl | rfl | rfl | rfl | rfl | rfl |
      rfl | rfl | rfl | rfl | rfl | rfl <;> rfl

/- No change leads back to where it started. -/
theorem changes_irrefl (c : Char) (v : UdpLevel) : (udpChanges c).contains (v, v) = false := by
  by_cases h : udpChanges c = []
  · rw [h]
    rfl
  · rcases changes_cases h with rfl | rfl | rfl | hMem
    · cases v <;> decide
    · cases v <;> decide
    · cases v <;> decide
    · simp only [mem_cons, not_mem_nil, or_false] at hMem
      rcases hMem with rfl | rfl | rfl | rfl | rfl | rfl | rfl |
        rfl | rfl | rfl | rfl | rfl | rfl <;>
        cases v <;> decide

/- What a character sets, of either kind. -/
def ofChar (c : Char) : Option UdpCode := (ofLevel c).or (ofEdge c)

/- The characters of single entries. -/
theorem ofChar_of_single
    (h : c ∈ ['r', 'f', '+', '_', '%', 'P', 'N', 'B', 'F', 'M', 'q', 'Q', 'R']) :
    ∃ code edge, ofChar c = some code ∧
      code.edge = some edge ∧
      (∀ v, hasFrom edge v = (udpBefore c).contains v) ∧
      ∀ v, code.has v = (udpAfter c).contains v := by
  simp only [mem_cons, not_mem_nil, or_false] at h
  rcases h with rfl | rfl | rfl | rfl | rfl | rfl | rfl |
    rfl | rfl | rfl | rfl | rfl | rfl <;>
    exact ⟨_, _, rfl, rfl, fun v => by cases v <;> rfl, fun v => by cases v <;> rfl⟩

/- A single entry has all changes between its levels. -/
theorem changes_of_single
    (h : c ∈ ['r', 'f', '+', '_', '%', 'P', 'N', 'B', 'F', 'M', 'q', 'Q', 'R'])
    (v w : UdpLevel) :
    (udpChanges c).contains (v, w) =
      ((udpBefore c).contains v && (udpAfter c).contains w) := by
  simp only [mem_cons, not_mem_nil, or_false] at h
  rcases h with rfl | rfl | rfl | rfl | rfl | rfl | rfl |
    rfl | rfl | rfl | rfl | rfl | rfl <;>
    cases v <;> cases w <;> rfl

theorem after_of_levels (h : udpLevels c ≠ []) : udpAfter c = udpLevels c := by
  have hNone : udpChanges c = [] := by
    by_contra hSome
    exact h (levels_of_changes hSome)
  unfold udpAfter
  rw [hNone]
  exact List.append_nil _

theorem ofChar_of_levels (h : udpLevels c ≠ []) :
    ∃ code, ofChar c = some code ∧ code.edge = none ∧
      ∀ v, code.has v = (udpAfter c).contains v := by
  rcases ofLevel_of_levels h with ⟨code, hCode, hEdge, hHas⟩
  rw [after_of_levels h]
  refine ⟨code, ?_, hEdge, hHas⟩
  unfold ofChar
  rw [hCode]
  rfl

end UdpCode

----
-- Masks
----

/- Three masks have a level at a position. -/
def admits (mask0 mask1 maskx : BitVec 64) (i : Nat) : UdpLevel → Bool
| .zero => mask0.getLsbD i
| .one => mask1.getLsbD i
| .x => maskx.getLsbD i

namespace UdpLevelsTable

/- The level at a position of a row or of the inputs. -/
def admits (t : UdpLevelsTable) : Nat → UdpLevel → Bool :=
  EpicSim.admits t.mask0 t.mask1 t.maskx

/- The first positions of the masks are these levels. -/
def Holds (m : Nat) (t : UdpLevelsTable) (s : Nat → UdpLevel) : Prop :=
  ∀ i < 64, ∀ v, t.admits i v = (decide (i < m) && v == s i)

/- The masks of the inputs determine the levels, and back. -/
theorem Holds.ext {m : Nat} {t t' : UdpLevelsTable} {s : Nat → UdpLevel} (h : t.Holds m s)
    (h' : t'.Holds m s) : t = t' := by
  have hBits : ∀ i < 64, ∀ v, t.admits i v = t'.admits i v :=
    fun i hi v => (h i hi v).trans (h' i hi v).symm
  have hZero : t.mask0 = t'.mask0 := eq_of_getLsbD_eq (fun i hi => hBits i hi .zero)
  have hOne : t.mask1 = t'.mask1 := eq_of_getLsbD_eq (fun i hi => hBits i hi .one)
  have hX : t.maskx = t'.maskx := eq_of_getLsbD_eq (fun i hi => hBits i hi .x)
  cases t
  cases t'
  simp_all

end UdpLevelsTable

open UdpLevelsTable

theorem eq_and_iff (a b : BitVec 64) :
    a = a &&& b ↔
      ∀ i < 64, a.getLsbD i = true → b.getLsbD i = true := by
  constructor
  · grind
  · grind

variable {s : Nat → UdpLevel} {pos m i n j k : Nat} {f : Nat → Option Char} {t : UdpEdgesTable}
  {c : Char} {row : List Char}

/- The inputs fit a row where the row has each of their levels. -/
theorem within_iff (hm : m ≤ 64) {cur : UdpLevelsTable}
    (hCur : cur.Holds m s) (mask0 mask1 maskx : BitVec 64) :
    cur.within mask0 mask1 maskx = true ↔
      ∀ i < m, admits mask0 mask1 maskx i (s i) = true := by
  unfold within
  rw [and_eq_true, and_eq_true, beq_iff_eq, beq_iff_eq,
    beq_iff_eq, eq_and_iff, eq_and_iff, eq_and_iff]
  have hHas : ∀ i < 64, ∀ v, cur.admits i v = true ↔
      i < m ∧ v = s i := by
    intro i hi v
    rw [hCur i hi v, and_eq_true, decide_eq_true_iff, beq_iff_eq]
  constructor
  · rintro ⟨⟨hZero, hOne⟩, hX⟩ i hi
    have hSelf := (hHas i (by omega) (s i)).mpr ⟨hi, rfl⟩
    cases hS : s i <;> rw [hS] at hSelf
    · exact hZero i (by omega) hSelf
    · exact hOne i (by omega) hSelf
    · exact hX i (by omega) hSelf
  · intro hAll
    refine ⟨⟨fun i hi hBit => ?_, fun i hi hBit => ?_⟩, fun i hi hBit => ?_⟩
    · rcases (hHas i hi .zero).mp hBit with ⟨hLt, hEq⟩
      have hAt := hAll i hLt
      rw [← hEq] at hAt
      exact hAt
    · rcases (hHas i hi .one).mp hBit with ⟨hLt, hEq⟩
      have hAt := hAll i hLt
      rw [← hEq] at hAt
      exact hAt
    · rcases (hHas i hi .x).mp hBit with ⟨hLt, hEq⟩
      have hAt := hAll i hLt
      rw [← hEq] at hAt
      exact hAt

theorem getLsbD_place (hi : i < 64) :
    (1#64 <<< pos).getLsbD i = decide (i = pos) := by
  by_cases hEq : i = pos
  · rw [hEq]
    simp [show pos < 64 by omega]
  · grind

/- The shifted int of a place is a bit at some places. -/
def marks (pos i : Nat) : Bool :=
  if pos % 32 = 31 then decide (31 ≤ i) else i == pos % 32

theorem getLsbD_intShift (hi : i < 64) :
    (intShift pos).getLsbD i = marks pos i := by
  have hLt : pos % 32 < 32 := Nat.mod_lt _ (by decide)
  unfold intShift marks
  generalize pos % 32 = q at hLt
  rw [BitVec.getLsbD_signExtend, decide_eq_true hi, Bool.true_and]
  by_cases hSign : q = 31
  · grind
  · grind

/- As long as ints reach, a place marks itself. -/
theorem marks_eq (hPos : pos < 32) (hi : i < 32) : marks pos i = (i == pos) := by
  unfold marks
  rw [Nat.mod_eq_of_lt hPos, Bool.eq_iff_iff]
  split_ifs with hLast
  · rw [decide_eq_true_iff, beq_iff_eq]
    omega
  · exact Iff.rfl

theorem getLsbD_orMask (mask bit : BitVec 64) (flag : Bool) (i : Nat) :
    (orMask mask bit flag).getLsbD i = (mask.getLsbD i || flag && bit.getLsbD i) := by
  unfold orMask
  cases flag with
  | true => rw [if_pos rfl, BitVec.getLsbD_or, Bool.true_and]
  | false => rw [if_neg Bool.false_ne_true, Bool.false_and, Bool.or_false]

/- A character adds its levels where the bit is. -/
theorem admits_orMask (mask0 mask1 maskx bit : BitVec 64) (code : UdpCode) (i : Nat)
    (v : UdpLevel) :
    admits (orMask mask0 bit code.mask0)
        (orMask mask1 bit code.mask1)
        (orMask maskx bit code.maskx) i v =
      (admits mask0 mask1 maskx i v || code.has v && bit.getLsbD i) := by
  cases v <;> exact getLsbD_orMask _ _ _ _

/- One position more is filled. -/
theorem filled_succ {p : Nat → Bool} {here : Bool} (hHere : i = m → here = p i) :
    (decide (i < m) && p i || here && decide (i = m)) = (decide (i < m + 1) && p i) := by
  rcases Nat.lt_trichotomy i m with hLt | hEq | hGt
  · grind
  · grind
  · grind

----
-- Rows Of Levels
----

/- The first positions have the levels of their characters. -/
def HasLevels (f : Nat → Char) (m : Nat) (t : UdpLevelsTable) : Prop :=
  ∀ i < 64, ∀ v, t.admits i v = (decide (i < m) && (udpLevels (f i)).contains v)

theorem orBasedOnChar_step {f : Nat → Char} {t : UdpLevelsTable} (h : HasLevels f m t)
    (hLevel : udpLevels (f m) ≠ []) :
    ∃ t', orBasedOnChar t (f m) (1#64 <<< m) = some t' ∧
      HasLevels f (m + 1) t' := by
  rcases UdpCode.ofLevel_of_levels hLevel with ⟨code, hCode, -, hHas⟩
  unfold orBasedOnChar
  rw [hCode]
  refine ⟨_, rfl, fun i hi v => ?_⟩
  have hAdmits := admits_orMask t.mask0 t.mask1 t.maskx (1#64 <<< m) code i v
  refine hAdmits.trans ?_
  rw [show EpicSim.admits t.mask0 t.mask1 t.maskx i v =
    t.admits i v from rfl, h i hi v, getLsbD_place hi, hHas]
  apply filled_succ
  rintro rfl
  rfl

theorem hasLevels_empty (f : Nat → Char) : HasLevels f 0 .empty := by
  intro i hi v
  cases v <;> exact getLsbD_zero

/- Inputs, and the current output at the place past them. -/
def codeAt (n : Nat) (row : List Char) (i : Nat) : Char :=
  if i = n then VvpUdpSeq.charAt row 0 else input row i

theorem codeAt_input (h : i < n) (row : List Char) :
    codeAt n row i = input row i := if_neg (Nat.ne_of_lt h)

theorem codeAt_output (n : Nat) (row : List Char) :
    codeAt n row n = VvpUdpSeq.charAt row 0 := if_pos rfl

theorem levelRow_spec (hLevel : ∀ i ≤ n, udpLevels (codeAt n row i) ≠ []) :
    ∃ t, VvpUdpSeq.levelRow n row = some t ∧
      HasLevels (codeAt n row) (n + 1) t := by
  have hLoop : ∀ m ≤ n, ∃ t, (List.range m).foldlM
      (fun cur pp => orBasedOnChar cur
        (VvpUdpSeq.charAt row (pp + 1)) (1#64 <<< pp)) .empty =
          some t ∧ HasLevels (codeAt n row) m t := by
    intro m hm
    induction m with
    | zero => exact ⟨_, rfl, hasLevels_empty _⟩
    | succ m ih =>
      rcases ih (by omega) with ⟨t, hT, hHas⟩
      rcases orBasedOnChar_step hHas (hLevel m (by omega)) with ⟨t', hT', hHas'⟩
      rw [codeAt_input (by omega)] at hT'
      refine ⟨t', ?_, hHas'⟩
      rw [range_succ, List.foldlM_append, hT]
      change (orBasedOnChar t _ _).bind some = _
      rw [show VvpUdpSeq.charAt row (m + 1) = input row m from rfl, hT']
      rfl
  rcases hLoop n (Nat.le_refl n) with ⟨t, hT, hHas⟩
  rcases orBasedOnChar_step hHas (hLevel n (Nat.le_refl n)) with ⟨t', hT', hHas'⟩
  rw [codeAt_output] at hT'
  refine ⟨t', ?_, hHas'⟩
  unfold VvpUdpSeq.levelRow
  rw [hT]
  exact hT'

----
-- Entries Of Edge Tables
----

/-
  An entry after its first positions.  A position without a
  character is one that the source leaves out.
-/
structure EdgeEntry (f : Nat → Option Char) (m : Nat) (t : UdpEdgesTable) : Prop where
  levels : ∀ i < 64, ∀ v,
    admits t.mask0 t.mask1 t.maskx i v =
      (List.range m).any (fun pp => marks pp i &&
        ((f pp).bind UdpCode.ofChar).any (fun code => code.has v))
  edge : ∀ j < m, ∀ c code edge, f j = some c →
    UdpCode.ofChar c = some code → code.edge = some edge →
    (∀ i < m, i ≠ j → ∀ c' code', f i = some c' →
      UdpCode.ofChar c' = some code' → code'.edge = none) →
    t.edge_position = BitVec.ofNat 8 j ∧ (t.edge_mask0, t.edge_maskx, t.edge_mask1) = edge

theorem entry_empty (f : Nat → Option Char) : EdgeEntry f 0 .empty := by
  constructor
  · intro i hi v
    cases v <;> exact getLsbD_zero
  · intro j hj
    exact absurd hj (Nat.not_lt_zero j)

/- One position more. -/
theorem any_succ (p : Nat → Bool) :
    (List.range (m + 1)).any p = ((List.range m).any p || p m) := by
  rw [range_succ, List.any_append, any_cons, any_nil, Bool.or_false]

theorem EdgeEntry.skip (h : EdgeEntry f m t)
    (hNone : f m = none) : EdgeEntry f (m + 1) t := by
  constructor
  · intro i hi v
    rw [h.levels i hi v, any_succ, hNone]
    simp
  · intro j hj c code edge hF hCode hEdge hAlone
    have hNe : j ≠ m := by
      intro hEq
      rw [hEq, hNone] at hF
      cases hF
    exact h.edge j (by omega) c code edge hF hCode hEdge (fun i hi => hAlone i (by omega))

theorem EdgeEntry.step {m : Nat}
    (h : EdgeEntry f m t) (hF : f m = some c) {code : UdpCode}
    (hCode : UdpCode.ofChar c = some code) :
    ∃ t', edgeBasedOnChar t c m = some t' ∧
      EdgeEntry f (m + 1) t' := by
  have hMasks : ∀ i < 64, ∀ v,
      admits (orMask t.mask0 (intShift m) code.mask0)
        (orMask t.mask1 (intShift m) code.mask1)
        (orMask t.maskx (intShift m) code.maskx) i v =
      (List.range (m + 1)).any (fun pp => marks pp i &&
        ((f pp).bind UdpCode.ofChar).any (fun code => code.has v)) := by
    intro i hi v
    rw [admits_orMask, h.levels i hi v, getLsbD_intShift hi, any_succ, hF,
      Option.bind_some, hCode, Option.any_some, Bool.and_comm (marks m i)]
  unfold edgeBasedOnChar
  change ∃ t', (UdpCode.ofChar c).bind _ = some t' ∧ _
  rw [hCode]
  rw [Option.bind_some]
  cases hEdge : code.edge with
  | none =>
    refine ⟨_, rfl, hMasks, ?_⟩
    intro j hj c' code' edge hF' hCode' hEdge' hAlone
    have hNe : j ≠ m := by grind
    exact h.edge j (by omega) c' code' edge hF' hCode' hEdge' (fun i hi => hAlone i (by omega))
  | some masks =>
    refine ⟨_, rfl, hMasks, ?_⟩
    intro j hj c' code' edge hF' hCode' hEdge' hAlone
    by_cases hEq : j = m
    · grind
    · grind

----
-- Rows With An Edge
----

/- The characters that the three entries of a row are made of. -/
def curCode : Char → Option Char
| 'n' => some 'N'
| 'p' => some 'P'
| '*' => some 'P'
| c => some c

def ext0Code : Char → Option Char
| 'n' => some '_'
| 'p' => some '+'
| '*' => some 'N'
| c => some c

def ext1Code : Char → Option Char
| 'n' => none
| 'p' => none
| '*' => some 'B'
| c => some c

/- A character that the rows may have. -/
def Known (c : Char) : Prop :=
  udpLevels c ≠ [] ∨ udpChanges c ≠ []

/- Everything but `n`, `p` and `*` stands for itself. -/
theorem ofChar_of_other (h : Known c) (hn : c ≠ 'n') (hp : c ≠ 'p') (hAny : c ≠ '*') :
    ∃ code, UdpCode.ofChar c = some code := by
  rcases h with hLevel | hChange
  · rcases UdpCode.ofChar_of_levels hLevel with ⟨code, hCode, -⟩
    exact ⟨code, hCode⟩
  · rcases UdpCode.changes_cases hChange with rfl | rfl | rfl | hMem
    · exact absurd rfl hn
    · exact absurd rfl hp
    · exact absurd rfl hAny
    · rcases UdpCode.ofChar_of_single hMem with ⟨code, -, hCode, -⟩
      exact ⟨code, hCode⟩

/- The three entries of a row after its first positions. -/
structure EdgeEntries (f : Nat → Char) (m : Nat) (st : VvpUdpSeq.EdgeRow) : Prop where
  cur : EdgeEntry (fun i => curCode (f i)) m st.cur
  ext0 : EdgeEntry (fun i => ext0Code (f i)) m st.ext0
  ext1 : EdgeEntry (fun i => ext1Code (f i)) m st.ext1
  need_ext0 : st.need_ext0_table = (List.range m).any (fun i =>
    f i == 'n' || f i == 'p' || f i == '*')
  need_ext1 : st.need_ext1_table = (List.range m).any (fun i => f i == '*')

theorem EdgeEntries.step {f : Nat → Char} {m : Nat} {st : VvpUdpSeq.EdgeRow}
    (h : EdgeEntries f m st) (hKnown : Known (f m)) :
    ∃ st', st.step (f m) m = some st' ∧
      EdgeEntries f (m + 1) st' := by
  have hNeed0 : ∀ b, (f m == 'n' || f m == 'p' || f m == '*') =
      b → (List.range (m + 1)).any (fun i =>
        f i == 'n' || f i == 'p' || f i == '*') = (st.need_ext0_table || b) := by
    intro b hb
    rw [range_succ, List.any_append, ← h.need_ext0, any_cons, any_nil, hb, Bool.or_false]
  have hNeed1 : ∀ b, (f m == '*') = b →
      (List.range (m + 1)).any (fun i => f i == '*') = (st.need_ext1_table || b) := by
    intro b hb
    rw [range_succ, List.any_append, ← h.need_ext1, any_cons, any_nil, hb, Bool.or_false]
  by_cases hn : f m = 'n'
  · rw [hn] at hNeed0 hNeed1
    rcases h.cur.step (c := 'N') (by rw [hn]; rfl) rfl with ⟨cur, hCur, hCur'⟩
    rcases h.ext0.step (c := '_') (by rw [hn]; rfl) rfl with ⟨ext0, hExt0, hExt0'⟩
    rw [hn]
    refine ⟨{ st with
      cur := cur, ext0 := ext0, need_ext0_table := true }, ?_,
      hCur', hExt0', h.ext1.skip (by rw [hn]; rfl), ?_, ?_⟩
    · unfold VvpUdpSeq.EdgeRow.step
      rw [hCur]
      rw [hExt0]
      rfl
    · rw [hNeed0 true rfl, Bool.or_true]
    · rw [hNeed1 false rfl, Bool.or_false]
  by_cases hp : f m = 'p'
  · rw [hp] at hNeed0 hNeed1
    rcases h.cur.step (c := 'P') (by rw [hp]; rfl) rfl with ⟨cur, hCur, hCur'⟩
    rcases h.ext0.step (c := '+') (by rw [hp]; rfl) rfl with ⟨ext0, hExt0, hExt0'⟩
    rw [hp]
    refine ⟨{ st with
      cur := cur, ext0 := ext0, need_ext0_table := true }, ?_,
      hCur', hExt0', h.ext1.skip (by rw [hp]; rfl), ?_, ?_⟩
    · unfold VvpUdpSeq.EdgeRow.step
      rw [hCur]
      rw [hExt0]
      rfl
    · rw [hNeed0 true rfl, Bool.or_true]
    · rw [hNeed1 false rfl, Bool.or_false]
  by_cases hAny : f m = '*'
  · rw [hAny] at hNeed0 hNeed1
    rcases h.cur.step (c := 'P') (by rw [hAny]; rfl) rfl with ⟨cur, hCur, hCur'⟩
    rcases h.ext0.step (c := 'N') (by rw [hAny]; rfl) rfl with ⟨ext0, hExt0, hExt0'⟩
    rcases h.ext1.step (c := 'B') (by rw [hAny]; rfl) rfl with ⟨ext1, hExt1, hExt1'⟩
    rw [hAny]
    refine ⟨⟨cur, true, ext0, true, ext1⟩, ?_, hCur', hExt0', hExt1', ?_, ?_⟩
    · unfold VvpUdpSeq.EdgeRow.step
      rw [hCur]
      rw [hExt0]
      rw [hExt1]
      rfl
    · rw [hNeed0 true rfl, Bool.or_true]
    · rw [hNeed1 true rfl, Bool.or_true]
  · have hCode := ofChar_of_other hKnown hn hp hAny
    rcases hCode with ⟨code, hCode⟩
    have hSame : curCode (f m) = some (f m) ∧
        ext0Code (f m) = some (f m) ∧
        ext1Code (f m) = some (f m) := by
      unfold curCode ext0Code ext1Code
      simp
    rcases h.cur.step hSame.1 hCode with ⟨cur, hCur, hCur'⟩
    rcases h.ext0.step hSame.2.1 hCode with ⟨ext0, hExt0, hExt0'⟩
    rcases h.ext1.step hSame.2.2 hCode with ⟨ext1, hExt1, hExt1'⟩
    have hOther : (f m == 'n' || f m == 'p' || f m == '*') =
        false := by
      simp [hn, hp, hAny]
    refine ⟨{ st with cur := cur, ext0 := ext0, ext1 := ext1 }, ?_, hCur', hExt0', hExt1', ?_, ?_⟩
    · unfold VvpUdpSeq.EdgeRow.step
      grind
    · rw [hNeed0 false hOther, Bool.or_false]
    · rw [hNeed1 false (by simp [hAny]), Bool.or_false]

/- The place past the inputs takes a level. -/
theorem step_of_levels (st : VvpUdpSeq.EdgeRow) (h : udpLevels c ≠ []) (pp : Nat) :
    st.step c pp = (do
      let cur ← edgeBasedOnChar st.cur c pp
      let ext0 ← edgeBasedOnChar st.ext0 c pp
      let ext1 ← edgeBasedOnChar st.ext1 c pp
      some { st with cur := cur, ext0 := ext0, ext1 := ext1 }) := by
  unfold VvpUdpSeq.EdgeRow.step
  split
  · exact absurd rfl h
  · exact absurd rfl h
  · exact absurd rfl h
  · rfl

theorem UdpRow.WellFormed.known (h : WellFormed n row) (hi : i ≤ n) :
    Known (codeAt n row i) := by
  rcases Nat.lt_or_eq_of_le hi with hLt | hEq
  · rw [codeAt_input hLt]
    exact h.code i hLt
  · rw [hEq, codeAt_output]
    exact Or.inl h.current

/- Where one input has to change, all the rest are levels. -/
theorem UdpRow.WellFormed.levels (h : WellFormed n row) (hj : j < n)
    (hEdge : udpChanges (input row j) ≠ []) : ∀ i ≤ n, i ≠ j → udpLevels (codeAt n row i) ≠ [] := by
  intro i hi hNe
  rcases h.known hi with hYes | hChange
  · exact hYes
  · rcases Nat.lt_or_eq_of_le hi with hLt | hEq
    · rw [codeAt_input hLt] at hChange
      exact absurd (h.edge i hLt j hj hChange hEdge) hNe
    · rw [hEq, codeAt_output]
      exact h.current

theorem edgeRow_spec (h : WellFormed n row) :
    ∃ st, VvpUdpSeq.edgeRow n row = some st ∧
      EdgeEntries (codeAt n row) (n + 1) st := by
  have hLoop : ∀ m ≤ n, ∃ st, (List.range m).foldlM
      (fun (st : VvpUdpSeq.EdgeRow) pp =>
        st.step (VvpUdpSeq.charAt row (pp + 1)) pp)
        ⟨.empty, false, .empty, false, .empty⟩ = some st ∧
      EdgeEntries (codeAt n row) m st := by
    intro m hm
    induction m with
    | zero => exact ⟨_, rfl, entry_empty _, entry_empty _, entry_empty _, rfl, rfl⟩
    | succ m ih =>
      rcases ih (by omega) with ⟨st, hSt, hEntries⟩
      rcases hEntries.step (h.known (by omega)) with ⟨st', hSt', hEntries'⟩
      rw [codeAt_input (by omega)] at hSt'
      refine ⟨st', ?_, hEntries'⟩
      rw [range_succ, List.foldlM_append, hSt]
      change (st.step _ _).bind some = _
      rw [show VvpUdpSeq.charAt row (m + 1) = input row m from rfl, hSt']
      rfl
  rcases hLoop n (Nat.le_refl n) with ⟨st, hSt, hEntries⟩
  rcases hEntries.step (h.known (Nat.le_refl n)) with ⟨st', hSt', hEntries'⟩
  rw [codeAt_output, step_of_levels st h.current] at hSt'
  refine ⟨st', ?_, hEntries'⟩
  unfold VvpUdpSeq.edgeRow
  rw [hSt]
  exact hSt'

----
-- Fitting An Entry
----

/- The inputs, and the current output at the place past them. -/
def withOut (n : Nat) (out : UdpLevel) (cur : Nat → UdpLevel) (i : Nat) : UdpLevel :=
  if i = n then out else cur i

theorem withOut_input (h : i < n) (out : UdpLevel) (cur : Nat → UdpLevel) :
    withOut n out cur i = cur i := if_neg (Nat.ne_of_lt h)

theorem withOut_output (n : Nat) (out : UdpLevel) (cur : Nat → UdpLevel) :
    withOut n out cur n = out := if_pos rfl

theorem and_place_eq_zero (a : BitVec 64) (hk : k < 64) :
    (a &&& 1#64 <<< k == 0#64) = !a.getLsbD k := by
  cases hBit : a.getLsbD k with
  | false => grind
  | true =>
    rw [Bool.not_true, beq_eq_false_iff_ne]
    intro hZero
    have hAt := congrArg (fun b => BitVec.getLsbD b k) hZero
    simp only [getLsbD_and, hBit, getLsbD_place hk, getLsbD_zero] at hAt
    cases hAt

/- The edge of an entry starts from the previous level. -/
theorem hasFrom_iff (hk : k < n) (hn : n ≤ 64) {prev : UdpLevelsTable} (hPrev : prev.Holds n s)
    (edge : Bool × Bool × Bool) :
    ((prev.mask0 &&& 1#64 <<< k == 0#64 || edge.1) &&
      (prev.maskx &&& 1#64 <<< k == 0#64 || edge.2.1) &&
      (prev.mask1 &&& 1#64 <<< k == 0#64 || edge.2.2)) = UdpCode.hasFrom edge (s k) := by
  have hBit := hPrev k (by omega)
  have hZero : prev.mask0.getLsbD k = _ := hBit .zero
  have hOne : prev.mask1.getLsbD k = _ := hBit .one
  have hX : prev.maskx.getLsbD k = _ := hBit .x
  rw [and_place_eq_zero _ (by omega), and_place_eq_zero _ (by omega),
    and_place_eq_zero _ (by omega), hZero, hOne, hX, decide_eq_true hk]
  rcases edge with ⟨e0, ex, e1⟩
  cases s k <;> cases e0 <;> cases ex <;> cases e1 <;> rfl

/-
  Characters fit as the shifted ints place them: the level at
  each place is one of a character that marks the place.
-/
def wrapFits (n : Nat) (g : Nat → Char) (s : Nat → UdpLevel) : Bool :=
  (List.range (n + 1)).all (fun i =>
    (List.range (n + 1)).any (fun pp => marks pp i && (udpAfter (g pp)).contains (s i)))

/-
  An entry with one edge fits where its input has changed, the
  edge fits what was there and the characters fit as placed.
-/
theorem EdgeEntry.hit_iff (hn : n < 64) {g : Nat → Char}
    (h : EdgeEntry f (n + 1) t) (hj : j < n) (hF : ∀ i ≤ n, f i = some (g i))
    (hSingle : g j ∈ ['r', 'f', '+', '_', '%', 'P', 'N', 'B', 'F', 'M', 'q', 'Q', 'R'])
    (hLevels : ∀ i ≤ n, i ≠ j → udpLevels (g i) ≠ []) (hk : k < n)
    {cur prev : UdpLevelsTable} {p : Nat → UdpLevel}
    (hCur : cur.Holds (n + 1) s) (hPrev : prev.Holds n p) :
    VvpUdpSeq.edgeHit cur prev k t =
      (j == k && ((udpBefore (g j)).contains (p k) && wrapFits n g s)) := by
  rcases UdpCode.ofChar_of_single hSingle with ⟨code, edge, hCode, hEdge, hBefore, hAfter⟩
  rcases h.edge j (by omega) (g j) code edge (hF j (by omega)) hCode hEdge
      (fun i hi hNe c' code' hC' hCode' => by
        rw [hF i (by omega)] at hC'
        cases hC'
        rcases UdpCode.ofChar_of_levels (hLevels i (by omega) hNe) with ⟨code'', hCode'', hNone, -⟩
        rw [hCode''] at hCode'
        cases hCode'
        exact hNone) with ⟨hPosition, hMasks⟩
  have hFrom := hasFrom_iff hk (by omega) hPrev (t.edge_mask0, t.edge_maskx, t.edge_mask1)
  have hToNat : t.edge_position.toNat = j := by grind
  -- each character admits the levels that it leaves an input at
  have hHas : ∀ pp ≤ n, ∀ v,
      ((f pp).bind UdpCode.ofChar).any (fun code => code.has v) =
        (udpAfter (g pp)).contains v := by
    intro pp hpp v
    rw [hF pp hpp, Option.bind_some]
    by_cases hEq : pp = j
    · rw [hEq, hCode, Option.any_some, hAfter]
    · rcases UdpCode.ofChar_of_levels (hLevels pp hpp hEq) with ⟨code', hCode', -, hHas'⟩
      rw [hCode', Option.any_some, hHas']
  have hWithin : cur.within t.mask0 t.mask1 t.maskx = wrapFits n g s := by
    rw [Bool.eq_iff_iff, within_iff (by omega) hCur]
    unfold wrapFits
    rw [List.all_eq_true]
    have hAt : ∀ i ≤ n, admits t.mask0 t.mask1 t.maskx i (s i) =
        (List.range (n + 1)).any (fun pp => marks pp i && (udpAfter (g pp)).contains (s i)) := by
      intro i hi
      rw [h.levels i (by omega), Bool.eq_iff_iff, List.any_eq_true, List.any_eq_true]
      apply exists_congr
      intro pp
      apply and_congr_right
      intro hpp
      rw [hHas pp (Nat.le_of_lt_succ (mem_range.mp hpp))]
    constructor
    · intro hAll i hi
      rw [← hAt i (Nat.le_of_lt_succ (mem_range.mp hi))]
      exact hAll i (mem_range.mp hi)
    · intro hAll i hi
      rw [hAt i (by omega)]
      exact hAll i (mem_range.mpr hi)
  unfold VvpUdpSeq.edgeHit
  simp only at hFrom ⊢
  rw [hMasks] at hFrom
  rw [Bool.and_assoc (t.edge_position.toNat == k), Bool.and_assoc (t.edge_position.toNat == k),
    hFrom, hToNat, hWithin, hBefore, Bool.and_assoc]

/- A row as a whole fits. -/
theorem rowMatches_iff {out : UdpLevel} {prev cur : Nat → UdpLevel} :
    rowMatches n row out prev cur = true ↔
      (udpLevels (VvpUdpSeq.charAt row 0)).contains out = true ∧
        ∀ i < n,
          (udpLevels (input row i)).contains (cur i) = true ∨
          (udpChanges (input row i)).contains (prev i, cur i) =
            true := by
  unfold rowMatches
  rw [and_eq_true, List.all_eq_true]
  constructor
  · simp
  · simp

theorem hasEdge_iff :
    hasEdge n row = true ↔
      ∃ j < n, udpChanges (input row j) ≠ [] := by
  unfold hasEdge
  rw [List.any_eq_true]
  constructor
  · simp
  · simp

/- The level characters fit the inputs and the output. -/
theorem levels_withOut_iff {out : UdpLevel}
    {cur : Nat → UdpLevel} (j : Nat) (hj : j ≠ n) :
    (∀ i ≤ n, i ≠ j → (udpLevels (codeAt n row i)).contains (withOut n out cur i) = true) ↔
      (udpLevels (VvpUdpSeq.charAt row 0)).contains out = true ∧
        ∀ i < n, i ≠ j →
          (udpLevels (input row i)).contains (cur i) = true := by
  constructor
  · intro hAll
    refine ⟨?_, fun i hi hNe => ?_⟩
    · have hAt := hAll n (Nat.le_refl n) (Ne.symm hj)
      rwa [codeAt_output, withOut_output] at hAt
    · have hAt := hAll i (Nat.le_of_lt hi) hNe
      rwa [codeAt_input hi, withOut_input hi] at hAt
  · rintro ⟨hOut, hAll⟩ i hi hNe
    rcases Nat.lt_or_eq_of_le hi with hLt | hEq
    · rw [codeAt_input hLt, withOut_input hLt]
      exact hAll i hLt hNe
    · rw [hEq, codeAt_output, withOut_output]
      exact hOut

/- A row without an edge fits as its entry does. -/
theorem levelRow_hit (hn : n < 64) (h : WellFormed n row)
    (hEdge : hasEdge n row = false) :
    ∃ t, VvpUdpSeq.levelRow n row = some t ∧
      ∀ (out : UdpLevel) (prev cur : Nat → UdpLevel)
        (c : UdpLevelsTable),
        c.Holds (n + 1) (withOut n out cur) →
        c.within t.mask0 t.mask1 t.maskx = rowMatches n row out prev cur := by
  have hNone : ∀ i < n, udpChanges (input row i) = [] := by
    intro i hi
    by_contra hNe
    rw [hasEdge_iff.mpr ⟨i, hi, hNe⟩] at hEdge
    cases hEdge
  have hLevel : ∀ i ≤ n, udpLevels (codeAt n row i) ≠ [] := by
    intro i hi
    rcases h.known hi with hYes | hChange
    · exact hYes
    · rcases Nat.lt_or_eq_of_le hi with hLt | hEq
      · rw [codeAt_input hLt] at hChange
        exact absurd (hNone i hLt) hChange
      · rw [hEq, codeAt_output]
        exact h.current
  rcases levelRow_spec hLevel with ⟨t, hT, hHas⟩
  refine ⟨t, hT, fun out prev cur c hC => ?_⟩
  rw [Bool.eq_iff_iff, within_iff (by omega) hC, rowMatches_iff]
  have hAt : ∀ i < n + 1,
      admits t.mask0 t.mask1 t.maskx i (withOut n out cur i) =
        (udpLevels (codeAt n row i)).contains (withOut n out cur i) := by
    intro i hi
    have hSame := hHas i (by omega) (withOut n out cur i)
    rw [decide_eq_true hi] at hSame
    exact hSame
  have hLevels := @levels_withOut_iff n row out cur (n + 1) (Nat.succ_ne_self n)
  constructor
  · grind
  · grind

/- The characters that a character of a change expands to. -/
def expansion (c : Char) : List Char :=
  if c = 'n' then ['N', '_']
  else if c = 'p' then ['P', '+']
  else if c = '*' then ['P', 'N', 'B']
  else [c]

theorem mem_of_all_contains {l m : List Char} (h : l.all (fun d => m.contains d) = true) :
    ∀ d ∈ l, d ∈ m := by
  intro d hd
  exact List.contains_iff_mem.mp (List.all_eq_true.mp h d hd)

theorem expansion_spec (h : udpChanges c ≠ []) :
    (∀ d ∈ expansion c, d ∈ ['r', 'f', '+', '_', '%', 'P', 'N', 'B', 'F', 'M', 'q', 'Q', 'R']) ∧
    ∀ v w, (udpChanges c).contains (v, w) =
      (expansion c).any (fun d =>
        (udpChanges d).contains (v, w)) := by
  rcases UdpCode.changes_cases h with rfl | rfl | rfl | hMem
  · exact ⟨mem_of_all_contains (by decide), fun v w => by
      cases v <;> cases w <;> decide⟩
  · exact ⟨mem_of_all_contains (by decide), fun v w => by
      cases v <;> cases w <;> decide⟩
  · exact ⟨mem_of_all_contains (by decide), fun v w => by
      cases v <;> cases w <;> decide⟩
  · have hSelf : expansion c = [c] := by
      unfold expansion
      rw [if_neg, if_neg, if_neg]
      all_goals
        rintro rfl
        revert hMem
        decide
    grind

/- A row with the character of an input replaced. -/
def withChar (n : Nat) (row : List Char) (k : Nat) (d : Char) (i : Nat) : Char :=
  if i = k then d else codeAt n row i

/-
  A row with an edge fits a change of an input as one of its
  entries does.
-/
def wrapMatches (n : Nat) (row : List Char) (out : UdpLevel) (prev cur : Nat → UdpLevel)
    (k : Nat) : Bool :=
  (expansion (input row k)).any (fun d =>
    (udpBefore d).contains (prev k) && wrapFits n (withChar n row k d) (withOut n out cur))

/- An input that need not change gives no entry. -/
theorem wrapMatches_of_level {out : UdpLevel} {prev cur : Nat → UdpLevel}
    (hNone : udpChanges (input row k) = []) : wrapMatches n row out prev cur k = false := by
  have hSelf : expansion (input row k) = [input row k] := by
    unfold expansion
    split_ifs with hn hp hAny
    · rw [hn] at hNone
      cases hNone
    · rw [hp] at hNone
      cases hNone
    · rw [hAny] at hNone
      cases hNone
    · rfl
  unfold wrapMatches
  rw [hSelf, any_cons, any_nil, udpBefore, hNone]
  rfl

/- As long as ints reach, characters fit where they stand. -/
theorem wrapFits_iff (hn : n < 32) {g : Nat → Char} :
    wrapFits n g s = true ↔ ∀ i ≤ n, (udpAfter (g i)).contains (s i) = true := by
  unfold wrapFits
  rw [List.all_eq_true]
  constructor
  · intro hAll i hi
    rcases List.any_eq_true.mp (hAll i (mem_range.mpr (by omega))) with ⟨pp, hpp, hBoth⟩
    rw [mem_range] at hpp
    rw [marks_eq (by omega) (by omega), and_eq_true, beq_iff_eq] at hBoth
    rcases hBoth with ⟨rfl, hLevel⟩
    exact hLevel
  · intro hAll i hi
    rw [mem_range] at hi
    refine List.any_eq_true.mpr ⟨i, mem_range.mpr hi, ?_⟩
    rw [marks_eq (by omega) (by omega), and_eq_true, beq_iff_eq]
    exact ⟨rfl, hAll i (by omega)⟩

section

variable (h : WellFormed n row) (hj : j < n) (hEdge : udpChanges (input row j) ≠ [])

include h hj hEdge

/- The entries of a row are those of the expansion. -/
theorem entries_spec {st : VvpUdpSeq.EdgeRow}
    (hSt : EdgeEntries (codeAt n row) (n + 1) st) :
    ∃ fs : List (Nat → Option Char),
      fs.map (fun f => f j) = (expansion (input row j)).map some ∧
      (∀ f ∈ fs, ∀ i ≤ n, i ≠ j → f i = some (codeAt n row i)) ∧
      List.Forall₂ (fun f t => EdgeEntry f (n + 1) t) fs st.entries := by
  have hAlone := h.levels hj hEdge
  have hPlain : ∀ i ≤ n, i ≠ j →
      (codeAt n row i ≠ 'n' ∧ codeAt n row i ≠ 'p') ∧
        codeAt n row i ≠ '*' := by
    intro i hi hNe
    have hLevel := hAlone i hi hNe
    refine ⟨⟨?_, ?_⟩, ?_⟩ <;>
    · intro hEq
      rw [hEq] at hLevel
      exact hLevel rfl
  have hKeep : ∀ i ≤ n, i ≠ j →
      curCode (codeAt n row i) = some (codeAt n row i) ∧
      ext0Code (codeAt n row i) = some (codeAt n row i) ∧
      ext1Code (codeAt n row i) = some (codeAt n row i) := by
    intro i hi hNe
    rcases hPlain i hi hNe with ⟨⟨hn, hp⟩, hAny⟩
    unfold curCode ext0Code ext1Code
    simp
  have hAnyOf : ∀ p : Char → Bool,
      (∀ i ≤ n, i ≠ j → p (codeAt n row i) = false) →
      (List.range (n + 1)).any (fun i => p (codeAt n row i)) = p (input row j) := by
    intro p hOther
    rw [← codeAt_input hj row]
    cases hP : p (codeAt n row j) with
    | true => exact List.any_eq_true.mpr ⟨j, mem_range.mpr (by omega), hP⟩
    | false => grind
  have hNeed0 : st.need_ext0_table =
      (input row j == 'n' || input row j == 'p' || input row j == '*') := by
    rw [hSt.need_ext0]
    exact hAnyOf (fun c => c == 'n' || c == 'p' || c == '*')
      (fun i hi hNe => by
        rcases hPlain i hi hNe with ⟨⟨hn, hp⟩, hAny⟩
        simp [hn, hp, hAny])
  have hNeed1 : st.need_ext1_table = (input row j == '*') := by
    rw [hSt.need_ext1]
    exact hAnyOf (fun c => c == '*') (fun i hi hNe => by simp [(hPlain i hi hNe).2])
  have hAt := codeAt_input hj row
  unfold VvpUdpSeq.EdgeRow.entries
  rw [hNeed0, hNeed1]
  rcases UdpCode.changes_cases hEdge with hC | hC | hC | hMem
  · rw [hC]
    refine ⟨[_, _], ?_, ?_, .cons hSt.cur (.cons hSt.ext0 .nil)⟩
    · simp only [map_cons, hAt, hC]
      rfl
    · grind
  · rw [hC]
    refine ⟨[_, _], ?_, ?_, .cons hSt.cur (.cons hSt.ext0 .nil)⟩
    · simp only [map_cons, hAt, hC]
      rfl
    · grind
  · rw [hC]
    refine ⟨[_, _, _], ?_, ?_, .cons hSt.cur (.cons hSt.ext0 (.cons hSt.ext1 .nil))⟩
    · simp only [map_cons, hAt, hC]
      rfl
    · grind
  · generalize input row j = c at *
    simp only [mem_cons, not_mem_nil, or_false] at hMem
    rcases hMem with rfl | rfl | rfl | rfl | rfl | rfl | rfl |
      rfl | rfl | rfl | rfl | rfl | rfl <;>
    · refine ⟨[_], ?_, ?_, .cons hSt.cur .nil⟩
      · simp only [map_cons, hAt]
        rfl
      · intro f hf i hi hNe
        rw [List.mem_singleton] at hf
        rw [hf]
        exact (hKeep i hi hNe).1

/- A character of a change stands where the row has it. -/
theorem contains_iff {d : Char} (hD : udpChanges d ≠ []) :
    row.contains d = (input row j == d) := by
  have hAt : ∀ i < n + 2, ∃ hi : i < row.length,
      row[i] = VvpUdpSeq.charAt row i := by
    intro i hi
    have hLt : i < row.length := by
      rw [h.length]
      exact hi
    refine ⟨hLt, ?_⟩
    unfold VvpUdpSeq.charAt
    rw [List.getD_eq_getElem _ _ hLt]
  rw [Bool.eq_iff_iff, List.contains_iff_mem, beq_iff_eq]
  constructor
  · intro hMem
    rcases List.getElem_of_mem hMem with ⟨i, hi, hEq⟩
    rw [h.length] at hi
    rcases hAt i hi with ⟨hLt, hChar⟩
    rw [hChar] at hEq
    rcases Nat.eq_zero_or_pos i with hZero | hPos
    · rw [hZero] at hEq
      have hLevel := h.current
      rw [hEq, UdpCode.levels_of_changes hD] at hLevel
      exact absurd rfl hLevel
    · obtain ⟨m, rfl⟩ : ∃ m, i = m + 1 := ⟨i - 1, by omega⟩
      rcases Nat.lt_or_ge m n with hIn | hOut
      · have hInput : input row m = d := hEq
        rw [← hInput] at hD
        rw [← h.edge m hIn j hj hD hEdge]
        exact hInput
      · have hLast : m = n := by omega
        rw [hLast] at hEq
        have hOutput := h.output
        rw [show output n row = d from hEq] at hOutput
        simp only [mem_cons, not_mem_nil, or_false] at hOutput
        rcases hOutput with rfl | rfl | rfl | rfl <;>
          exact absurd rfl hD
  · intro hEq
    rcases hAt (j + 1) (by omega) with ⟨hLt, hChar⟩
    rw [← hEq, show input row j = row[j + 1] from hChar.symm]
    exact List.getElem_mem hLt

/- The first pass counts the entries of the expansion. -/
theorem expansion_length :
    (expansion (input row j)).length = 1 + VvpUdpSeq.extra row := by
  unfold VvpUdpSeq.extra expansion
  rw [contains_iff h hj hEdge (show udpChanges '*' ≠ [] by decide),
    contains_iff h hj hEdge (show udpChanges 'p' ≠ [] by decide),
    contains_iff h hj hEdge (show udpChanges 'n' ≠ [] by decide)]
  simp only [beq_iff_eq]
  split_ifs with hn hAny hp
  all_goals first
    | rfl
    | simp_all

end

/- A row with an edge fits as one of its entries does. -/
theorem edgeRow_hit (hn : n < 64) (h : WellFormed n row)
    (hEdge : hasEdge n row = true) :
    ∃ st, VvpUdpSeq.edgeRow n row = some st ∧
      st.entries.length = 1 + VvpUdpSeq.extra row ∧
      ∀ (out : UdpLevel) (prev cur : Nat → UdpLevel) (k : Nat)
        (c p : UdpLevelsTable), k < n →
        c.Holds (n + 1) (withOut n out cur) → p.Holds n prev →
          st.entries.any (VvpUdpSeq.edgeHit c p k) = wrapMatches n row out prev cur k := by
  rcases hasEdge_iff.mp hEdge with ⟨j, hj, hChange⟩
  rcases edgeRow_spec h with ⟨st, hSt, hEntries⟩
  rcases entries_spec h hj hChange hEntries with ⟨fs, hAt, hOther, hAll⟩
  rcases expansion_spec hChange with ⟨hSingle, -⟩
  have hLength : st.entries.length = 1 + VvpUdpSeq.extra row := by
    have hMap := congrArg List.length hAt
    rw [List.length_map, List.length_map] at hMap
    rw [← hAll.length_eq, hMap]
    exact expansion_length h hj hChange
  refine ⟨st, hSt, hLength, fun out prev cur k c p hk hC hP => ?_⟩
  have hHit : ∀ (ds : List Char)
      (fs : List (Nat → Option Char)) (ts : List UdpEdgesTable),
      (∀ d ∈ ds, d ∈ ['r', 'f', '+', '_', '%', 'P', 'N', 'B', 'F', 'M', 'q', 'Q', 'R']) →
      fs.map (fun f => f j) = ds.map some →
      (∀ f ∈ fs, ∀ i ≤ n, i ≠ j → f i = some (codeAt n row i)) →
      List.Forall₂ (fun f t => EdgeEntry f (n + 1) t) fs ts →
      ts.any (VvpUdpSeq.edgeHit c p k) =
        ds.any (fun d => j == k && ((udpBefore d).contains (prev k) &&
          wrapFits n (withChar n row j d) (withOut n out cur))) := by
    intro ds fs ts hDs hMap hRest hForall
    induction hForall generalizing ds with
    | nil =>
      cases ds with
      | nil => rfl
      | cons d ds => cases hMap
    | @cons f t fs ts hEntry hForall ih =>
      cases ds with
      | nil => cases hMap
      | cons d ds =>
        rw [map_cons, map_cons, List.cons.injEq] at hMap
        have hSelf : withChar n row j d j = d := if_pos rfl
        have hOne := hEntry.hit_iff hn (g := withChar n row j d) hj
          (fun i hi => by
            unfold withChar
            split_ifs with hEq
            · rw [hEq]
              exact hMap.1
            · exact hRest f (List.mem_cons_self ..) i hi hEq)
          (by
            rw [hSelf]
            exact hDs d (List.mem_cons_self ..))
          (fun i hi hNe => by
            rw [withChar, if_neg hNe]
            exact h.levels hj hChange i hi hNe)
          hk hC hP
        rw [hSelf] at hOne
        rw [any_cons, any_cons, hOne,
          ih ds (fun e he => hDs e (List.mem_cons_of_mem d he))
            hMap.2 (fun g hg => hRest g (List.mem_cons_of_mem f hg))]
  rw [hHit _ _ _ hSingle hAt hOther hAll]
  by_cases hEq : j = k
  · rw [hEq, beq_self_eq_true]
    rfl
  · have hNone : udpChanges (input row k) = [] := by
      by_contra hSome
      exact hEq (h.edge j hj k hk hChange hSome)
    rw [wrapMatches_of_level hNone, List.any_eq_false]
    grind

/- As long as ints reach, the entries fit where the row does. -/
theorem wrapMatches_eq (hn : n < 32) (h : WellFormed n row) (hEdge : hasEdge n row = true)
    {out : UdpLevel} {prev cur : Nat → UdpLevel} (hK : Change n k prev cur) :
    wrapMatches n row out prev cur k = rowMatches n row out prev cur := by
  rcases hasEdge_iff.mp hEdge with ⟨j, hj, hChange⟩
  rw [Bool.eq_iff_iff, rowMatches_iff]
  by_cases hEq : j = k
  · rw [hEq] at hj hChange
    have hLevels := @levels_withOut_iff n row out cur k (Nat.ne_of_lt hj)
    have hFits : ∀ d, wrapFits n (withChar n row k d) (withOut n out cur) = true ↔
        (udpAfter d).contains (cur k) = true ∧
          ∀ i ≤ n, i ≠ k → (udpLevels (codeAt n row i)).contains (withOut n out cur i) = true := by
      intro d
      rw [wrapFits_iff hn]
      have hAt : ∀ i ≤ n, i ≠ k → udpAfter (withChar n row k d i) = udpLevels (codeAt n row i) := by
        intro i hi hNe
        rw [withChar, if_neg hNe]
        exact UdpCode.after_of_levels (h.levels hj hChange i hi hNe)
      have hHere : udpAfter (withChar n row k d k) = udpAfter d := by rw [withChar, if_pos rfl]
      constructor
      · intro hAll
        have hSelf := hAll k (by omega)
        rw [hHere, withOut_input hj] at hSelf
        grind
      · rintro ⟨hSelf, hAll⟩ i hi
        by_cases hSame : i = k
        · rw [hSame, hHere, withOut_input hj]
          exact hSelf
        · rw [hAt i hi hSame]
          exact hAll i hi hSame
    rcases expansion_spec hChange with ⟨hSingle, hExpand⟩
    have hFit : wrapMatches n row out prev cur k = true ↔
        (udpChanges (input row k)).contains (prev k, cur k) = true ∧
          ∀ i ≤ n, i ≠ k →
            (udpLevels (codeAt n row i)).contains (withOut n out cur i) = true := by
      rw [hExpand, wrapMatches, List.any_eq_true, List.any_eq_true]
      constructor
      · rintro ⟨d, hD, hBoth⟩
        rw [and_eq_true, hFits] at hBoth
        refine ⟨⟨d, hD, ?_⟩, hBoth.2.2⟩
        rw [UdpCode.changes_of_single (hSingle d hD), and_eq_true]
        exact ⟨hBoth.1, hBoth.2.1⟩
      · rintro ⟨⟨d, hD, hBoth⟩, hAll⟩
        rw [UdpCode.changes_of_single (hSingle d hD), and_eq_true] at hBoth
        grind
    rw [hFit, hLevels]
    constructor
    · grind
    · rintro ⟨hOut, hAll⟩
      have hMatch := hAll k hj
      rw [UdpCode.levels_of_changes hChange] at hMatch
      refine ⟨hMatch.resolve_left (by simp), hOut, fun i hi hNe => ?_⟩
      rcases hAll i hi with hLevel | hMore
      · exact hLevel
      · have hNone : udpChanges (input row i) = [] := by
          by_contra hSome
          exact hNe (h.edge i hi k hj hSome hChange)
        rw [hNone] at hMore
        cases hMore
  · have hNone : udpChanges (input row k) = [] := by
      by_contra hSome
      exact hEq (h.edge j hj k hK.input hChange hSome)
    rw [wrapMatches_of_level hNone]
    constructor
    · intro hFalse
      cases hFalse
    · rintro ⟨-, hAll⟩
      rcases hAll j hj with hLevel | hMore
      · rw [UdpCode.levels_of_changes hChange] at hLevel
        cases hLevel
      · rw [hK.same j hj hEq, UdpCode.changes_irrefl] at hMore
        cases hMore

end EpicSim
