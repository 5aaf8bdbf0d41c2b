import EpicSim.Lib.QuaternaryCascade
import EpicSim.TgtVvp.DrawLogic
import EpicSim.Vvp.CompareLoops
import Mathlib.Tactic.FinCases

/-
  What a logic gate computes once its records are evaluated.

  A functor none of whose inputs was ever anything but Z does
  not run, and its net stays Z.  The next level takes a Z for
  an X, so this shows at the gate only when no functor runs.
-/

----
-- One Record
----

namespace EpicSim

open QuaternaryCascade

open VvpFunBoolean
open VvpVector4 (fill value_fill)

/- A connected functor holds the bits of its inputs. -/
theorem connect_input (type : FunctorType) (width : Nat) (input : Fin 4 → VvpVector4)
    (port : Fin 4) :
    ((connect type width input).input_ port).size_ = (input port).size_ ∧
      ∀ idx,
        ((connect type width input).input_ port).value idx = (input port).value idx := by
  unfold connect
  fin_cases port
  · rw [recvVec4_other _ _ (by decide), recvVec4_other _ _ (by decide),
      recvVec4_other _ _ (by decide)]
    exact recvVec4_input _ _ _
  · rw [recvVec4_other _ _ (by decide), recvVec4_other _ _ (by decide)]
    exact recvVec4_input _ _ _
  · rw [recvVec4_other _ _ (by decide)]
    exact recvVec4_input _ _ _
  · exact recvVec4_input _ _ _

@[simp] theorem connect_kind (type : FunctorType) (width : Nat) (input : Fin 4 → VvpVector4) :
    (connect type width input).kind = type.compile.1 := by
  simp [connect, VvpFunBoolean.new]

@[simp] theorem connect_invert (type : FunctorType) (width : Nat) (input : Fin 4 → VvpVector4) :
    (connect type width input).invert_ = type.compile.2 := by
  simp [connect, VvpFunBoolean.new]

/- X for a bit that is not driven. -/
def VvpBit4.z2x : VvpBit4 → VvpBit4
| .z => .x
| bit => bit

/- The operators take a Z for an X. -/
theorem foldl_z2x (kind : BooleanKind) (bits : List VvpBit4) (a : VvpBit4) :
    (bits.map VvpBit4.z2x).foldl kind.op a = bits.foldl kind.op a := by
  induction bits generalizing a with
  | nil => rfl
  | cons bit bits ih =>
    have hOp : kind.op a bit.z2x = kind.op a bit := by
      cases kind <;> cases a <;> cases bit <;> rfl
    rw [List.map_cons, List.foldl_cons, List.foldl_cons, hOp, ih]

/- Every bit of the vector is Z. -/
def AllZ (width : Nat) (v : VvpVector4) : Prop :=
  ∀ idx < width, v.value idx = .z

/- A functor is scheduled unless all its inputs are Z. -/
theorem connect_net (type : FunctorType) {width : Nat} {input : Fin 4 → VvpVector4}
    (hSize : ∀ port, (input port).size_ = width) :
    (connect type width input).net_ = false ↔ ∀ port, AllZ width (input port) := by
  have hSame : ∀ port,
      (fill width .z).eeq (input port) = true ↔ AllZ width (input port) := by
    intro port
    rw [VvpVector4.eeq_iff (hSize port)]
    constructor
    · intro hEq idx hIdx
      rw [← hEq idx hIdx, value_fill hIdx]
    · intro hZ idx hIdx
      rw [hZ idx hIdx]
      exact value_fill hIdx .z
  have hPorts :
      (connect type width input).net_ =
        !((fill width .z).eeq (input 0) && (fill width .z).eeq (input 1) &&
          (fill width .z).eeq (input 2) && (fill width .z).eeq (input 3)) := by
    simp (disch := decide) only [connect, recvVec4_net, recvVec4_other, new, Bool.false_or,
      Bool.not_and]
  rw [hPorts, Bool.not_eq_false']
  simp only [Bool.and_eq_true, hSame]
  constructor
  · rintro ⟨⟨⟨h0, h1⟩, h2⟩, h3⟩ port
    fin_cases port
    · exact h0
    · exact h1
    · exact h2
    · exact h3
  · grind

/-
  The vector is as wide as wanted and has these bits, with Z
  for some of the X; if all are Z, the net is idle.
-/
structure Carries (width : Nat) (value : Nat → VvpBit4) (isIdle : Prop) (v : VvpVector4) :
    Prop where
  size : v.size_ = width
  bits : ∀ idx < width, (v.value idx).z2x = value idx
  idle : 0 < width → (AllZ width v ↔ isIdle)

/- A vector that a functor has sent, unless it is idle. -/
structure Sends (width : Nat) (value : Nat → VvpBit4) (isIdle : Prop) (v : VvpVector4) : Prop
    extends Carries width value isIdle v where
  whole : ∀ idx < width, v.value idx = .z → isIdle

variable {nets : List VvpVector4} {env : FunctorEnv} {width ninp : Nat}

theorem invertIf_foldl_ne_z (invert : Bool) (kind : BooleanKind) (bits : List VvpBit4) :
    invertIf invert (bits.foldl kind.op kind.unit) ≠ .z := by
  have hFold : bits.foldl kind.op kind.unit ≠ .z := by
    induction bits using List.reverseRecOn with
    | nil => cases kind <;> decide
    | append_singleton bits bit ih =>
      rw [List.foldl_append, List.foldl_cons, List.foldl_nil]
      generalize bits.foldl kind.op kind.unit = a
      cases kind <;> cases a <;> cases bit <;> decide
  generalize bits.foldl kind.op kind.unit = a at hFold
  revert hFold
  cases invert <;> cases a <;> decide

/- What a functor gives for unknown inputs. -/
theorem foldl_unknown (invert : Bool) (kind : BooleanKind) :
    invertIf invert
      (((List.range (portsRead kind)).map fun _ => VvpBit4.x).foldl kind.op kind.unit) = .x := by
  cases invert <;> cases kind <;> rfl

/- The bits of a record, from the bits of its inputs. -/
theorem evalRecord_spec {r : FunctorRecord} {bits : Nat → Nat → VvpBit4} {idle : Nat → Prop}
    (hWidth : r.width = width)
    (hArgs : ∀ j : Fin 4, ∃ v,
      evalInput nets env (r.args j) = some v ∧ Carries width (bits j) (idle j) v) :
    ∃ out,
      evalRecord nets env r = some out ∧
        Sends width
          (fun idx => invertIf r.type.compile.2
            (((List.range (portsRead r.type.compile.1)).map
              (fun j => bits j idx)).foldl r.type.compile.1.op r.type.compile.1.unit))
          (∀ j : Fin 4, idle j) out := by
  choose v hEval hCarries using hArgs
  have hInputs : ![v 0, v 1, v 2, v 3] = v := by
    ext j
    fin_cases j <;> rfl
  have hNet := connect_net r.type (fun port => (hCarries port).size)
  have hBits : ∀ idx < width, ∀ j ∈ List.range (portsRead r.type.compile.1),
      ((v (Fin.ofNat 4 j)).value idx).z2x = bits j idx := by
    intro idx hIdx j hj
    have hLt : j < 4 := by
      rw [List.mem_range] at hj
      cases hKind : r.type.compile.1 <;>
        simp only [hKind, portsRead] at hj <;> omega
    rw [(hCarries _).bits idx hIdx]
    congr 1
    exact Nat.mod_eq_of_lt hLt
  have hOut :
      evalRecord nets env r =
        some (if (connect r.type width ![v 0, v 1, v 2, v 3]).net_ then
          (connect r.type width ![v 0, v 1, v 2, v 3]).runRun
        else fill width .z) := by
    simp only [evalRecord, hEval, hWidth]
    rfl
  rw [hInputs] at hOut
  refine ⟨_, hOut, ?_⟩
  cases hRuns : (connect r.type width v).net_ with
  | true =>
    -- The functor has run, and sends no Z.
    have hSize : ∀ port, ((connect r.type width v).input_ port).size_ = width := by
      intro port
      rw [(connect_input r.type width v port).1, (hCarries port).size]
    have hRun := runRun_spec _ hSize
    rw [connect_kind, connect_invert] at hRun
    have hValue : ∀ idx < width,
        (connect r.type width v).runRun.value idx =
          invertIf r.type.compile.2
            (((List.range (portsRead r.type.compile.1)).map
              (fun j => bits j idx)).foldl r.type.compile.1.op r.type.compile.1.unit) := by
      intro idx hIdx
      rw [hRun.2 idx hIdx, ← foldl_z2x, List.map_map]
      congr 2
      apply List.map_congr_left
      intro j hj
      rw [← hBits idx hIdx j hj, ← (connect_input r.type width v _).2]
      rfl
    have hNotZ : ∀ idx < width, (connect r.type width v).runRun.value idx ≠ .z := by
      intro idx hIdx
      rw [hValue idx hIdx]
      exact invertIf_foldl_ne_z _ _ _
    rw [if_pos rfl]
    refine ⟨⟨hRun.1, ?_, ?_⟩, ?_⟩
    · intro idx hIdx
      have hZ := hNotZ idx hIdx
      rw [← hValue idx hIdx]
      revert hZ
      cases (connect r.type width v).runRun.value idx <;> decide
    · intro hPos
      constructor
      · intro hAll
        exact absurd (hAll 0 hPos) (hNotZ 0 hPos)
      · intro hIdle
        rw [hNet.mpr (fun port => ((hCarries port).idle hPos).mpr (hIdle port))] at hRuns
        cases hRuns
    · intro idx hIdx hZ
      exact absurd hZ (hNotZ idx hIdx)
  | false =>
    have hAll := hNet.mp hRuns
    rw [if_neg (by decide)]
    refine ⟨⟨rfl, ?_, ?_⟩, ?_⟩
    · intro idx hIdx
      have hUnknown :
          (List.range (portsRead r.type.compile.1)).map (fun j => bits j idx) =
            (List.range (portsRead r.type.compile.1)).map fun _ => VvpBit4.x := by
        apply List.map_congr_left
        intro j hj
        rw [← hBits idx hIdx j hj, hAll _ idx hIdx]
        rfl
      rw [value_fill hIdx, hUnknown, foldl_unknown]
      rfl
    · intro hPos
      refine ⟨fun _ j => ((hCarries j).idle hPos).mp (hAll j), fun _ idx hIdx => ?_⟩
      exact value_fill hIdx .z
    · intro idx hIdx _ j
      exact ((hCarries j).idle (by omega)).mp (hAll j)

----
-- One Level
----

namespace IvlLogicType

/- The functor class behind a gate type. -/
def kind (type : IvlLogicType) : BooleanKind :=
  type.ltype.compile.1

/- Whether the gate inverts its result. -/
def inverts (type : IvlLogicType) : Bool :=
  type.ltype.compile.2

theorem lcasc_compile (type : IvlLogicType) : type.lcasc.compile = (type.kind, false) := by
  cases type <;> rfl

theorem identityVal_eq (type : IvlLogicType) : type.identityVal = type.kind.unit := by
  cases type <;> rfl

end IvlLogicType

/- The sequence of a gate's inputs, padded with the identity. -/
def padded (type : IvlLogicType) (ninp : Nat) (bits : Nat → VvpBit4) (p : Nat) : VvpBit4 :=
  if p < ninp then bits p else type.kind.unit

/- The inputs of a cell are all there and idle. -/
def IdleCell (ninp : Nat) (idle : Nat → Prop) (k : Nat) : Prop :=
  ∀ j : Fin 4, 4 * k + j < ninp ∧ idle (4 * k + j)

/- The inputs of a level are resolved and carry these bits. -/
def LevelReady (nets : List VvpVector4) (env : FunctorEnv) (width ninp level : Nat)
    (bits : Nat → Nat → VvpBit4) (idle : Nat → Prop) : Prop :=
  ∀ pdx < ninp, ∃ v,
    evalInput nets env (levelInput level pdx) = some v ∧
      Carries width (fun idx => bits idx pdx) (idle pdx) v

/- What the record at `k` of a level sends. -/
def CellSends (type : IvlLogicType) (width ninp : Nat) (bits : Nat → Nat → VvpBit4)
    (idle : Nat → Prop) (k : Nat) (out : VvpVector4) : Prop :=
  Sends width
    (fun idx =>
      invertIf (if 4 < ninp then false else type.inverts)
        (cell type.kind.op type.kind.unit
          (portsRead type.kind)
          (padded type ninp (bits idx)) k))
    (IdleCell ninp idle k) out

variable {level : Nat} {bits : Nat → Nat → VvpBit4} {idle : Nat → Prop}

theorem levelRecord_spec (type : IvlLogicType)
    (hReady : LevelReady nets env width ninp level bits idle) (k : Nat) :
    ∃ out,
      evalRecord nets env (levelRecord type width ninp level (4 * k)) = some out ∧
        CellSends type width ninp bits idle k out := by
  have hArgs : ∀ j : Fin 4, ∃ v,
      evalInput nets env ((levelRecord type width ninp level (4 * k)).args j) = some v ∧
        Carries width
          (fun idx => padded type ninp (bits idx) (4 * k + j))
          (4 * k + j < ninp ∧ idle (4 * k + j))
          v := by
    intro j
    by_cases hIn : 4 * k + j.val < ninp
    · rcases hReady _ hIn with ⟨v, hv, hCarries⟩
      refine ⟨v, ?_, ?_⟩
      · simp only [levelRecord, if_pos hIn]
        exact hv
      · simp only [padded, hIn, true_and]
        exact hCarries
    · have hUnit : type.kind.unit ≠ .z := by cases type <;> decide
      refine ⟨fill width type.identityVal, ?_, rfl, ?_, ?_⟩
      · simp only [levelRecord, if_neg hIn, evalInput]
      · intro idx hIdx
        simp only [padded, if_neg hIn]
        rw [value_fill hIdx]
        cases type <;> rfl
      · intro hPos
        constructor
        · intro hAll
          have hZ := hAll 0 hPos
          rw [value_fill hPos, type.identityVal_eq] at hZ
          exact absurd hZ hUnit
        · rintro ⟨hLess, _⟩
          exact absurd hLess hIn
  rcases @evalRecord_spec nets env width (levelRecord type width ninp level (4 * k))
      (fun j idx => padded type ninp (bits idx) (4 * k + j))
      (fun j => 4 * k + j < ninp ∧ idle (4 * k + j)) rfl hArgs with
    ⟨out, hOut, hSends⟩
  refine ⟨out, hOut, ?_⟩
  have hType :
      (levelRecord type width ninp level
        (4 * k)).type.compile =
          (type.kind,
            if 4 < ninp then false else type.inverts) := by
    simp only [levelRecord]
    split_ifs
    · exact type.lcasc_compile
    · rfl
  rw [hType] at hSends
  exact hSends

theorem levelInput_frame (nets : List VvpVector4) (env : FunctorEnv) (ninp level inst pdx : Nat)
    (out : VvpVector4) :
    evalInput nets
        (Function.update env (levelLabel ninp level inst) (some out)) (levelInput level pdx) =
      evalInput nets env (levelInput level pdx) := by
  unfold levelInput
  split_ifs with hLevel
  · apply Function.update_of_ne
    unfold levelLabel
    grind
  · rfl

/-
  The records of one level, evaluated in order: each finds
  the inputs of the level as they were before.
-/
theorem drawLevel_spec (type : IvlLogicType)
    (hReady : LevelReady nets env width ninp level bits idle) :
    ∃ env',
      evalRecords nets env (drawLevel type width ninp level) = some env' ∧
        ∀ k < (ninp + 3) / 4, ∃ out,
          env' (levelLabel ninp level (4 * k)) = some out ∧
            CellSends type width ninp bits idle k out := by
  have hPrefix :
      ∀ m ≤ (ninp + 3) / 4, ∃ env',
        evalRecords nets env ((List.range m).map (fun k =>
            levelRecord type width ninp level (4 * k))) = some env' ∧
          LevelReady nets env' width ninp level bits idle ∧
          ∀ k < m, ∃ out,
            env' (levelLabel ninp level (4 * k)) = some out ∧
              CellSends type width ninp bits idle k out := by
    intro m
    induction m with
    | zero =>
      intro _
      exact ⟨env, rfl, hReady, by
        intro k hk
        omega⟩
    | succ m ih =>
      intro hm
      rcases ih (by omega) with ⟨env', hEval, hReady', hOld⟩
      rcases levelRecord_spec type hReady' m with ⟨out, hOut, hSends⟩
      refine ⟨Function.update env' (levelLabel ninp level (4 * m)) (some out), ?_, ?_, ?_⟩
      · rw [List.range_succ, List.map_append, evalRecords_append, hEval,
          Option.bind_some, List.map_singleton, evalRecords, hOut]
        rfl
      · intro pdx hPdx
        rw [levelInput_frame]
        exact hReady' pdx hPdx
      · intro k hk
        by_cases hSame : k = m
        · subst hSame
          exact ⟨out, by simp, hSends⟩
        · have hLabel :
              levelLabel ninp level (4 * k) ≠ levelLabel ninp level (4 * m) := by
            have hLong : 4 < ninp := by omega
            simp only [levelLabel, if_pos hLong]
            intro hEq
            injection hEq
            omega
          rw [Function.update_of_ne hLabel]
          exact hOld k (by omega)
  rcases hPrefix _ le_rfl with ⟨env', hEval, -, hOut⟩
  exact ⟨env', hEval, hOut⟩

----
-- All Levels
----

/- Number of levels drawn for `ninp` inputs. -/
def levelCount (ninp : Nat) : Nat :=
  if 4 < ninp then levelCount ((ninp + 3) / 4) + 1 else 1
termination_by ninp
decreasing_by omega

theorem levelCount_pos (ninp : Nat) : 0 < levelCount ninp := by
  rw [levelCount]
  split_ifs <;> omega

/- The levels have room for every input. -/
theorem le_pow_levelCount (ninp : Nat) : ninp ≤ 4 ^ levelCount ninp := by
  induction ninp using levelCount.induct with
  | case1 ninp hLong ih =>
    rw [levelCount, if_pos hLong]
    omega
  | case2 ninp hShort =>
    rw [levelCount, if_neg hShort]
    omega

/- The laws of the three bit operators. -/
theorem foldLaws (kind : BooleanKind) : FoldLaws kind.op kind.unit where
  assoc := by
    intro a b c
    cases kind <;> cases a <;> cases b <;> cases c <;> rfl
  unit := by cases kind <;> rfl
  absorb := by
    intro a b
    cases kind <;> cases a <;> cases b <;> rfl

/- Cells past the inputs of a level hold the unit. -/
theorem cell_padded (type : IvlLogicType) (bits : Nat → VvpBit4) {k : Nat}
    (h : ninp ≤ 4 * k) :
    cell type.kind.op type.kind.unit (portsRead type.kind)
      (padded type ninp bits) k = type.kind.unit := by
  have hPad : ∀ j,
      padded type ninp bits (4 * k + j) = type.kind.unit := by
    intro j
    rw [padded, if_neg (by omega)]
  simp only [cell, hPad]
  generalize portsRead type.kind = keep
  induction keep with
  | zero => rfl
  | succ keep ih =>
    rw [List.range_succ, List.map_append, List.foldl_append, ih]
    exact (foldLaws type.kind).unit

/- No record from a level on runs. -/
def Idle (ninp : Nat) (idle : Nat → Prop) : Prop :=
  ninp = 4 ^ levelCount ninp ∧ ∀ p < ninp, idle p

/- A level of idle cells is full. -/
theorem idle_cells (hLong : 4 < ninp) :
    Idle ((ninp + 3) / 4) (IdleCell ninp idle) ↔ Idle ninp idle := by
  have hCount : levelCount ninp = levelCount ((ninp + 3) / 4) + 1 := by
    rw [levelCount, if_pos hLong]
  unfold Idle
  rw [hCount, Nat.pow_succ]
  constructor
  · rintro ⟨hPow, hCells⟩
    have hFull : 4 * ((ninp + 3) / 4 - 1) + 3 < ninp := (hCells _ (by omega) 3).1
    refine ⟨by omega, ?_⟩
    intro p hp
    have hIdle := (hCells (p / 4) (by omega) ⟨p % 4, Nat.mod_lt _ (by decide)⟩).2
    rwa [Nat.div_add_mod] at hIdle
  · rintro ⟨hPow, hIdle⟩
    refine ⟨by omega, ?_⟩
    intro k hk j
    have hLess : 4 * k + j < ninp := by omega
    exact ⟨hLess, hIdle _ hLess⟩

/- The last record does not run. -/
theorem idle_last (hPos : 0 < ninp) (hShort : ¬4 < ninp) :
    IdleCell ninp idle 0 ↔ Idle ninp idle := by
  have hCount : levelCount ninp = 1 := by rw [levelCount, if_neg hShort]
  unfold Idle IdleCell
  rw [hCount]
  constructor
  · intro hCell
    have hFull : 4 * 0 + 3 < ninp := (hCell 3).1
    refine ⟨by omega, ?_⟩
    intro p hp
    have hIdle := (hCell ⟨p, by omega⟩).2
    rwa [Nat.mul_zero, Nat.zero_add] at hIdle
  · grind

/- The records from any level on compute the cascade. -/
theorem drawLevels_spec (nets : List VvpVector4) (width : Nat) (type : IvlLogicType) (ninp : Nat) :
    ∀ (env : FunctorEnv) (level : Nat)
      (bits : Nat → Nat → VvpBit4) (idle : Nat → Prop),
      0 < ninp →
      LevelReady nets env width ninp level bits idle →
        ∃ env' out,
          evalRecords nets env (drawLevels type width ninp level) = some env' ∧
            env' .gate = some out ∧
            Sends width
              (fun idx =>
                invertIf type.inverts
                  (cascade type.kind.op type.kind.unit
                    (portsRead type.kind) (levelCount ninp)
                    (padded type ninp (bits idx)) 0))
              (Idle ninp idle) out := by
  induction ninp using levelCount.induct with
  | case1 ninp hLong ih =>
    intro env level bits idle hPos hReady
    rcases drawLevel_spec type hReady with ⟨env', hEval, hOut⟩
    simp only [CellSends, if_pos hLong, levelLabel] at hOut
    have hNext :
        LevelReady nets env' width ((ninp + 3) / 4)
          (level + 1)
          (fun idx => cell type.kind.op type.kind.unit
            (portsRead type.kind)
            (padded type ninp (bits idx)))
          (IdleCell ninp idle) := by
      intro pdx hPdx
      rcases hOut pdx hPdx with ⟨out, hLookup, hSends⟩
      refine ⟨out, ?_, hSends.toCarries⟩
      simp only [levelInput]
      rw [Nat.mul_comm pdx 4]
      exact hLookup
    rcases ih env' (level + 1) _ _ (by omega) hNext with ⟨env'', out, hRest, hGate, hSends⟩
    refine ⟨env'', out, ?_, hGate, ?_⟩
    · rw [drawLevels, if_neg (by omega), if_pos hLong, evalRecords_append, hEval]
      exact hRest
    · have hPadded : ∀ idx,
          padded type ((ninp + 3) / 4)
            (cell type.kind.op type.kind.unit (portsRead type.kind) (padded type ninp (bits idx))) =
            cell type.kind.op type.kind.unit
              (portsRead type.kind)
              (padded type ninp (bits idx)) := by
        intro idx
        funext k
        by_cases hk : k < (ninp + 3) / 4
        · rw [padded, if_pos hk]
        · rw [padded, if_neg hk, cell_padded type (bits idx) (by omega)]
      have hCount :
          levelCount ninp = levelCount ((ninp + 3) / 4) + 1 := by
        rw [levelCount, if_pos hLong]
      simp only [hPadded, idle_cells hLong] at hSends
      rw [hCount]
      exact hSends
  | case2 ninp hShort =>
    intro env level bits idle hPos hReady
    rcases drawLevel_spec type hReady with ⟨env', hEval, hOut⟩
    rcases hOut 0 (by omega) with ⟨out, hLookup, hSends⟩
    simp only [CellSends, if_neg hShort, levelLabel, idle_last hPos hShort] at hLookup hSends
    refine ⟨env', out, ?_, hLookup, ?_⟩
    · rw [drawLevels, if_neg (by omega), if_neg hShort, evalRecords_append,
        hEval, drawLevels]
      rfl
    · rw [levelCount, if_neg hShort]
      exact hSends

/- Input `p` of the gate reaches the output of the cascade. -/
def Visible (p : Nat) : Prop :=
  ∀ d ∈ Nat.digits 4 p, d < 2

instance (p : Nat) : Decidable (Visible p) := by
  unfold Visible
  infer_instance

/- The bits of all inputs at one index. -/
def lane (nets : List VvpVector4) (idx : Nat) : List VvpBit4 :=
  nets.map (fun v => v.value idx)

theorem padded_z2x (type : IvlLogicType) (ninp : Nat) (bits : Nat → VvpBit4) :
    padded type ninp (fun p => (bits p).z2x) = VvpBit4.z2x ∘ padded type ninp bits := by
  funext p
  simp only [padded, Function.comp_apply]
  split_ifs
  · rfl
  · cases type <;> rfl

/- The output of a gate, bit by bit. -/
theorem evalGate_spec (type : IvlLogicType) (width : Nat) (nets : List VvpVector4)
    (hNets : nets ≠ []) (hWidth : ∀ v ∈ nets, v.size_ = width) :
    ∃ out,
      evalGate type width nets = some out ∧
        Sends width
          (fun idx =>
            invertIf type.inverts
              (((kept (portsRead type.kind)
                (levelCount nets.length)).map
                (padded type nets.length
                  (fun p => (lane nets idx).getD p .x))).foldl type.kind.op type.kind.unit))
          (Idle nets.length fun p => ∀ v, nets[p]? = some v → AllZ width v) out := by
  have hReady :
      LevelReady nets (fun _ => none) width nets.length 0
        (fun idx p => ((lane nets idx).getD p .x).z2x)
        (fun p => ∀ v, nets[p]? = some v → AllZ width v) := by
    intro pdx hPdx
    have hNet : nets[pdx]? = some nets[pdx] := List.getElem?_eq_getElem hPdx
    refine ⟨nets[pdx], ?_, ?_, ?_, ?_⟩
    · simp [levelInput, evalInput]
    · exact hWidth _ (List.getElem_mem hPdx)
    · intro idx _
      have hLength : pdx < (lane nets idx).length := by simpa [lane] using hPdx
      change (nets[pdx].value idx).z2x = ((lane nets idx).getD pdx .x).z2x
      rw [List.getD_eq_getElem _ _ hLength]
      simp [lane]
    · grind
  rcases drawLevels_spec nets width type nets.length _ 0 _ _
      (List.length_pos_iff.mpr hNets) hReady with
    ⟨env', out, hEval, hGate, hSends⟩
  refine ⟨out, ?_, ?_⟩
  · rw [evalGate, drawLogicInScope, hEval]
    exact hGate
  · obtain ⟨levels, hLevels⟩ : ∃ levels, levelCount nets.length = levels + 1 :=
      ⟨levelCount nets.length - 1, by
        have := levelCount_pos nets.length
        omega⟩
    simp only [hLevels, cascade_eq (foldLaws type.kind), padded_z2x, ← List.map_map,
      foldl_z2x] at hSends ⊢
    exact hSends

end EpicSim

----
-- Exact Correctness
----

namespace EpicSim

open QuaternaryCascade
open VvpFunBoolean
open VvpVector4 (fill value_fill)

/- The n-input reduction of a gate, inverted once at the end. -/
def gateReduce (type : IvlLogicType) (bits : List VvpBit4) : VvpBit4 :=
  invertIf type.inverts (bits.foldl type.kind.op type.kind.unit)

/-
  How strongly a bit decides a conjunction or disjunction:
  the controlling value first, unknowns next, the unit last.
-/
def decideRank (kind : BooleanKind) (bit : VvpBit4) : Nat :=
  if bit = kind.unit then 2
  else if bit.isXz then 1
  else 0

/-
  Every input that does not reach the output is dominated by
  one that does.
-/
def HiddenDominated (kind : BooleanKind) (bits : List VvpBit4) : Prop :=
  ∀ h (hLt : h < bits.length), ¬Visible h →
    ∃ v, ∃ hv : v < bits.length, Visible v ∧ decideRank kind bits[v] ≤ decideRank kind bits[h]

theorem decideRank_le_two (kind : BooleanKind) (bit : VvpBit4) : decideRank kind bit ≤ 2 := by
  unfold decideRank
  split_ifs <;> omega

/- A fold ranks below a bound when a bit of it does. -/
theorem decideRank_foldl_le
    {kind : BooleanKind} (hKind : kind ≠ .xor) (bits : List VvpBit4) (r : Nat) :
    decideRank kind (bits.foldl kind.op kind.unit) ≤ r ↔
      2 ≤ r ∨ ∃ bit ∈ bits, decideRank kind bit ≤ r := by
  have hOp : ∀ a b,
      decideRank kind (kind.op a b) = min (decideRank kind a) (decideRank kind b) := by
    intro a b
    cases kind with
    | and => cases a <;> cases b <;> rfl
    | or => cases a <;> cases b <;> rfl
    | xor => exact absurd rfl hKind
  have hUnit : decideRank kind kind.unit = 2 := by rw [decideRank, if_pos rfl]
  induction bits using List.reverseRecOn with
  | nil => simp [hUnit]
  | append_singleton bits bit ih => grind

theorem foldl_ne_z (kind : BooleanKind) (bits : List VvpBit4) :
    bits.foldl kind.op kind.unit ≠ .z := by
  have hNormal := foldl_normal (foldLaws kind) bits (foldLaws kind).unit
  intro hZ
  rw [hZ] at hNormal
  cases kind <;> exact absurd hNormal (by decide)

/- Folds are equal when they rank equal. -/
theorem foldl_eq_iff {kind : BooleanKind} (hKind : kind ≠ .xor) (left right : List VvpBit4) :
    left.foldl kind.op kind.unit = right.foldl kind.op kind.unit ↔
      decideRank kind (left.foldl kind.op kind.unit) =
        decideRank kind (right.foldl kind.op kind.unit) := by
  have hLeft := foldl_ne_z kind left
  have hRight := foldl_ne_z kind right
  revert hLeft hRight
  generalize left.foldl kind.op kind.unit = a
  generalize right.foldl kind.op kind.unit = b
  intro ha hb
  cases kind with
  | and => revert ha hb; cases a <;> cases b <;> decide
  | or => revert ha hb; cases a <;> cases b <;> decide
  | xor => exact absurd rfl hKind

theorem padded_lane (type : IvlLogicType) (bits : List VvpBit4) {p : Nat} (hp : p < bits.length) :
    padded type bits.length (fun p => bits.getD p .x) p = bits[p] := by
  rw [padded, if_pos hp, List.getD_eq_getElem _ _ hp]

/-
  The inputs that reach the output decide like all of them
  exactly when they dominate the others.
-/
theorem kept_foldl_eq_iff {type : IvlLogicType} (hKind : type.kind ≠ .xor) {bits : List VvpBit4}
    (hBits : bits ≠ []) :
    (((kept 2 (levelCount bits.length)).map
        (padded type bits.length (fun p => bits.getD p .x))).foldl type.kind.op type.kind.unit =
        bits.foldl type.kind.op type.kind.unit) ↔
      HiddenDominated type.kind bits := by
  have hLength : 0 < bits.length := List.length_pos_iff.mpr hBits
  have hRoom := le_pow_levelCount bits.length
  have hMem : ∀ p < bits.length,
      (p ∈ kept 2 (levelCount bits.length) ↔ Visible p) := by
    intro p hp
    rw [mem_kept (by decide) (by decide)]
    exact and_iff_right (lt_of_lt_of_le hp hRoom)
  have hZero : Visible 0 := by simp [Visible]
  have hKeptLe :
      decideRank type.kind (bits.foldl type.kind.op type.kind.unit) ≤
        decideRank type.kind
          (((kept 2 (levelCount bits.length)).map
            (padded type bits.length
              (fun p => bits.getD p .x))).foldl type.kind.op type.kind.unit) := by
    rw [decideRank_foldl_le hKind]
    rcases (decideRank_foldl_le hKind _ _).mp
      (le_refl (decideRank type.kind
        (((kept 2 (levelCount bits.length)).map
          (padded type bits.length
            (fun p => bits.getD p .x))).foldl type.kind.op type.kind.unit))) with
      hTwo | ⟨bit, hBit, hRank⟩
    · exact Or.inl hTwo
    · rcases List.mem_map.mp hBit with ⟨p, hp, rfl⟩
      by_cases hIn : p < bits.length
      · rw [padded_lane type bits hIn] at hRank
        exact Or.inr ⟨_, List.getElem_mem hIn, hRank⟩
      · rw [padded, if_neg hIn] at hRank
        left
        rw [decideRank, if_pos rfl] at hRank
        exact hRank
  rw [foldl_eq_iff hKind]
  constructor
  · intro hEq h hLt hHidden
    have hLe :
        decideRank type.kind (bits.foldl type.kind.op type.kind.unit) ≤
          decideRank type.kind bits[h] :=
      (decideRank_foldl_le hKind _ _).mpr (Or.inr ⟨_, List.getElem_mem hLt, le_rfl⟩)
    rw [← hEq, decideRank_foldl_le hKind] at hLe
    -- position 0 is always kept, and nothing ranks above 2
    have hTop : 2 ≤ decideRank type.kind bits[h] →
        ∃ v, ∃ hv : v < bits.length, Visible v ∧
          decideRank type.kind bits[v] ≤
            decideRank type.kind bits[h] := by
      intro hTwo
      exact ⟨0, hLength, hZero, le_trans (decideRank_le_two _ _) hTwo⟩
    rcases hLe with hTwo | ⟨bit, hBit, hRank⟩
    · exact hTop hTwo
    · rcases List.mem_map.mp hBit with ⟨p, hp, rfl⟩
      by_cases hIn : p < bits.length
      · rw [padded_lane type bits hIn] at hRank
        exact ⟨p, hIn, (hMem p hIn).mp hp, hRank⟩
      · rw [padded, if_neg hIn, decideRank, if_pos rfl] at hRank
        exact hTop hRank
  · intro hDominated
    refine le_antisymm ?_ hKeptLe
    rw [decideRank_foldl_le hKind]
    rcases (decideRank_foldl_le hKind _ _).mp
      (le_refl (decideRank type.kind (bits.foldl type.kind.op type.kind.unit))) with
      hTwo | ⟨bit, hBit, hRank⟩
    · exact Or.inl hTwo
    · right
      rcases List.mem_iff_getElem.mp hBit with ⟨p, hp, rfl⟩
      have hShown : ∃ v, ∃ hv : v < bits.length, Visible v ∧
          decideRank type.kind bits[v] ≤
            decideRank type.kind bits[p] := by
        by_cases hVisible : Visible p
        · exact ⟨p, hp, hVisible, le_rfl⟩
        · exact hDominated p hp hVisible
      rcases hShown with ⟨v, hv, hVisible, hLe⟩
      refine ⟨_, List.mem_map.mpr ⟨v, (hMem v hv).mpr hVisible, rfl⟩, ?_⟩
      rw [padded_lane type bits hv]
      exact le_trans hLe hRank

/- Cells that read all four ports fold every input. -/
theorem kept_four_foldl (type : IvlLogicType) (bits : List VvpBit4) :
    ((kept 4 (levelCount bits.length)).map
        (padded type bits.length (fun p => bits.getD p .x))).foldl type.kind.op type.kind.unit =
      bits.foldl type.kind.op type.kind.unit := by
  obtain ⟨extra, hExtra⟩ := Nat.exists_eq_add_of_le (le_pow_levelCount bits.length)
  have hFront :
      (List.range bits.length).map (padded type bits.length (fun p => bits.getD p .x)) = bits := by
    apply List.ext_getElem
    · simp
    · intro p hp hp'
      rw [List.getElem_map, List.getElem_range, padded_lane type bits hp']
  have hBack :
      ((List.range extra).map (fun j => bits.length + j)).map
        (padded type bits.length (fun p => bits.getD p .x)) =
          List.replicate extra type.kind.unit := by
    rw [List.eq_replicate_iff]
    refine ⟨by simp, ?_⟩
    intro bit hBit
    rcases List.mem_map.mp hBit with ⟨p, hp, rfl⟩
    rcases List.mem_map.mp hp with ⟨j, -, rfl⟩
    rw [padded, if_neg (by omega)]
  rw [kept_four, hExtra, List.range_add, List.map_append, hFront, hBack, List.foldl_append]
  exact foldl_replicate_unit (foldLaws type.kind) bits extra

theorem invertIf_inj {invert : Bool} {a b : VvpBit4} (ha : a ≠ .z) (hb : b ≠ .z) :
    invertIf invert a = invertIf invert b ↔ a = b := by
  revert ha hb
  cases invert <;> cases a <;> cases b <;> decide

/-
  No functor of the gate runs: there are only inputs of Z, and
  as many as leave no place for a constant.
-/
def NothingRuns (width : Nat) (nets : List VvpVector4) : Prop :=
  0 < width ∧ (∃ k, nets.length = 4 ^ (k + 1)) ∧ ∀ v ∈ nets, AllZ width v

theorem levelCount_pow (k : Nat) : levelCount (4 ^ (k + 1)) = k + 1 := by
  induction k with
  | zero =>
    rw [levelCount]
    rfl
  | succ k ih =>
    have hPos : 0 < 4 ^ (k + 1) := Nat.pow_pos (by decide)
    have hPow : 4 ^ (k + 2) = 4 * 4 ^ (k + 1) := by rw [Nat.pow_succ, Nat.mul_comm]
    have hDiv : (4 ^ (k + 2) + 3) / 4 = 4 ^ (k + 1) := by omega
    have hLong : 4 < 4 ^ (k + 2) := by omega
    rw [levelCount, if_pos hLong, hDiv, ih]

theorem nothingRuns_iff :
    NothingRuns width nets ↔
      0 < width ∧ Idle nets.length fun p => ∀ v, nets[p]? = some v → AllZ width v := by
  have hPow : (∃ k, nets.length = 4 ^ (k + 1)) ↔ nets.length = 4 ^ levelCount nets.length := by
    constructor
    · rintro ⟨k, hk⟩
      rw [hk, levelCount_pow]
    · intro hEq
      have hLevels := levelCount_pos nets.length
      exact ⟨levelCount nets.length - 1, by rwa [Nat.sub_add_cancel hLevels]⟩
  have hAll : (∀ v ∈ nets, AllZ width v) ↔
      ∀ p < nets.length, ∀ v, nets[p]? = some v → AllZ width v := by
    constructor
    · grind
    · intro hZ v hMem
      rcases List.mem_iff_getElem.mp hMem with ⟨p, hp, rfl⟩
      exact hZ p hp _ (List.getElem?_eq_getElem hp)
  rw [NothingRuns, Idle, hPow, hAll]

/-
  The evaluated records of a gate give the reduction of all
  its inputs in every bit exactly when some functor runs and
  the gate is exclusive or, in every bit, the inputs the
  word-wise branch never looks at are dominated by the others.
-/
theorem evalGate_correct_iff (type : IvlLogicType) (width : Nat) (nets : List VvpVector4)
    (hNets : nets ≠ []) (hWidth : ∀ v ∈ nets, v.size_ = width) :
    (∃ out,
        evalGate type width nets = some out ∧
          out.size_ = width ∧
          ∀ idx < width, out.value idx = gateReduce type (lane nets idx)) ↔
      ¬NothingRuns width nets ∧
      (type = .xor ∨ type = .xnor ∨
        ∀ idx < width,
          HiddenDominated type.kind (lane nets idx)) := by
  rcases evalGate_spec type width nets hNets hWidth with ⟨out, hEval, hSends⟩
  have hLaneLength : ∀ idx,
      (lane nets idx).length = nets.length := by
    intro idx
    simp [lane]
  have hLane : ∀ idx, lane nets idx ≠ [] := by
    intro idx
    simpa [lane] using hNets
  have hCorrect :
      (∃ out,
        evalGate type width nets = some out ∧
          out.size_ = width ∧
          ∀ idx < width, out.value idx = gateReduce type (lane nets idx)) ↔
        ∀ idx < width, out.value idx = gateReduce type (lane nets idx) := by
    constructor
    · rintro ⟨out', hEval', -, hBits'⟩
      rw [hEval] at hEval'
      cases hEval'
      exact hBits'
    · intro hBits'
      exact ⟨out, hEval, hSends.size, hBits'⟩
  rw [hCorrect]
  by_cases hNothing : NothingRuns width nets
  · have hIdle := nothingRuns_iff.mp hNothing
    constructor
    · intro hBits
      have hZ := (hSends.idle hIdle.1).mpr hIdle.2 0 hIdle.1
      rw [hBits 0 hIdle.1] at hZ
      exact absurd hZ (invertIf_foldl_ne_z _ _ _)
    · rintro ⟨hRuns, _⟩
      exact absurd hNothing hRuns
  have hValue : ∀ idx < width,
      out.value idx =
        invertIf type.inverts
          (((kept (portsRead type.kind) (levelCount nets.length)).map
            (padded type nets.length
              (fun p => (lane nets idx).getD p .x))).foldl type.kind.op type.kind.unit) := by
    intro idx hIdx
    have hNotZ : out.value idx ≠ .z := by
      intro hZ
      apply hNothing
      exact nothingRuns_iff.mpr ⟨by omega, hSends.whole idx hIdx hZ⟩
    rw [← hSends.bits idx hIdx]
    revert hNotZ
    cases out.value idx <;> decide
  have hBits :
      (∀ idx < width, out.value idx = gateReduce type (lane nets idx)) ↔
        ∀ idx < width,
          ((kept (portsRead type.kind) (levelCount nets.length)).map
            (padded type nets.length
              (fun p => (lane nets idx).getD p .x))).foldl type.kind.op type.kind.unit =
            (lane nets idx).foldl type.kind.op type.kind.unit := by
    refine forall_congr' fun idx => forall_congr' fun hIdx => ?_
    rw [hValue idx hIdx, gateReduce, invertIf_inj (foldl_ne_z _ _) (foldl_ne_z _ _)]
  rw [hBits, and_iff_right hNothing]
  by_cases hKind : type.kind = .xor
  · have hType : type = .xor ∨ type = .xnor := by
      cases type with
      | xor => exact Or.inl rfl
      | xnor => exact Or.inr rfl
      | and => cases hKind
      | nand => cases hKind
      | or => cases hKind
      | nor => cases hKind
    have hPorts : portsRead type.kind = 4 := by
      rw [hKind]
      rfl
    constructor
    · intro _
      rcases hType with h | h
      · exact Or.inl h
      · exact Or.inr (Or.inl h)
    · intro _ idx _
      rw [hPorts, ← hLaneLength idx]
      exact kept_four_foldl type _
  · have hXor : type ≠ .xor := by
      rintro rfl
      exact hKind rfl
    have hXnor : type ≠ .xnor := by
      rintro rfl
      exact hKind rfl
    have hPorts : portsRead type.kind = 2 := by
      cases hk : type.kind with
      | and => rfl
      | or => rfl
      | xor => exact absurd hk hKind
    have hEach : ∀ idx,
        (((kept 2 (levelCount nets.length)).map
            (padded type nets.length
              (fun p => (lane nets idx).getD p .x))).foldl type.kind.op type.kind.unit =
            (lane nets idx).foldl type.kind.op type.kind.unit) ↔
          HiddenDominated type.kind (lane nets idx) := by
      intro idx
      rw [← hLaneLength idx]
      exact kept_foldl_eq_iff hKind (hLane idx)
    simp only [hPorts, hEach, hXor, hXnor, false_or]

/- A two-input gate has no hidden input. -/
theorem evalGate_correct_two :
    ∃ out,
      evalGate .nand 1 [fill 1 .one, fill 1 .zero] = some out ∧
        out.size_ = 1 ∧
        ∀ idx < 1,
          out.value idx =
            gateReduce .nand
              (lane [fill 1 .one,
                fill 1 .zero] idx) := by
  refine (evalGate_correct_iff .nand 1 _ (by simp) (by simp)).mpr
    ⟨?_, Or.inr (Or.inr ?_)⟩
  · rintro ⟨-, -, hZ⟩
    exact absurd (hZ _ List.mem_cons_self 0 (by decide)) (by decide)
  intro idx _ h hLt hHidden
  have hSmall : h = 0 ∨ h = 1 := by
    simp only [lane, List.length_map, List.length_cons, List.length_nil] at hLt
    omega
  rcases hSmall with rfl | rfl
  · exact absurd (by decide) hHidden
  · exact absurd (by decide) hHidden

/-
  A conjunction of 1, 1 and 0: the third input is hidden and
  the gate answers 1.
-/
theorem evalGate_and_three :
    ¬∃ out,
      evalGate .and 1
          [fill 1 .one, fill 1 .one, fill 1 .zero] = some out ∧
        out.size_ = 1 ∧
        ∀ idx < 1,
          out.value idx =
            gateReduce .and
              (lane [fill 1 .one,
                fill 1 .one,
                fill 1 .zero] idx) := by
  rintro ⟨out, hEval, -, hOut⟩
  rcases evalGate_spec .and 1
      [fill 1 .one, fill 1 .one,
        fill 1 .zero] (by simp) (by simp) with ⟨out', hEval', hBits⟩
  rw [hEval] at hEval'
  cases hEval'
  have hLevels : levelCount 3 = 1 := by
    rw [levelCount]
    simp
  have hBit := hBits.bits 0 (by decide)
  rw [hOut 0 (by decide)] at hBit
  simp only [List.length_cons, List.length_nil, hLevels] at hBit
  exact absurd hBit (by decide)

end EpicSim
