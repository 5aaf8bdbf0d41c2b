import EpicSim.Vvp.UdpTable

/-
  The tables of a compiled primitive compute what its rows
  mean, for all primitives with fewer than 32 inputs; beyond,
  the characters of rows with an edge are placed modulo 32,
  and an input is read for the current output.
-/

----
-- The Compiled Tables
----

namespace EpicSim

open List (mem_cons not_mem_nil any_append any_cons any_nil append_nil foldlM_cons find?_eq_none
  mem_singleton)
open BitVec (allOnes getLsbD_not getLsbD_zero getLsbD_or getLsbD_and eq_of_getLsbD_eq getLsbD_xor)
open Bool (not_eq_true' eq_false_iff not_eq_false and_eq_true)
open UdpRow UdpLevelsTable

variable {k n : Nat} {row : List Char} {rows : List (List Char)} {u : VvpUdpSeq}
  {c : UdpLevelsTable} {cur : Nat → UdpLevel}

/- The leading characters are all of a kind. -/
theorem le_takeWhile_iff (p : Char → Bool) (d : Char) (l : List Char)
    (hk : k ≤ l.length) :
    k ≤ (l.takeWhile p).length ↔
      ∀ i < k, p (l.getD i d) = true := by
  induction l generalizing k with
  | nil =>
    rw [Nat.le_zero.mp hk]
    simp
  | cons a l ih =>
    cases k with
    | zero => simp
    | succ k =>
      rw [List.takeWhile_cons]
      cases hA : p a with
      | false => grind
      | true =>
        rw [if_pos rfl, List.length_cons, Nat.succ_le_succ_iff, ih (Nat.le_of_succ_le_succ hk)]
        grind

theorem levelsOnly_eq (h : WellFormed n row) :
    VvpUdpSeq.levelsOnly n row = !hasEdge n row := by
  have hSpan : VvpUdpSeq.levelsOnly n row = true ↔
      ∀ i < n + 1, levelChars.contains (VvpUdpSeq.charAt row i) = true := by
    unfold VvpUdpSeq.levelsOnly strspn
    rw [decide_eq_true_iff]
    exact le_takeWhile_iff _ _ _ (by rw [h.length]; omega)
  have hLevel : ∀ c, levelChars.contains c = true ↔
      udpLevels c ≠ [] := by
    intro c
    rw [List.contains_iff_mem]
    exact UdpCode.mem_levelChars_iff c
  rw [Bool.eq_iff_iff, hSpan, not_eq_true']
  constructor
  · intro hAll
    rw [eq_false_iff]
    intro hEdge
    rcases hasEdge_iff.mp hEdge with ⟨j, hj, hChange⟩
    have hAt := (hLevel _).mp (hAll (j + 1) (by omega))
    exact hAt (UdpCode.levels_of_changes hChange)
  · intro hEdge i hi
    rw [hLevel]
    cases i with
    | zero => exact h.current
    | succ i =>
      rcases h.code i (by omega) with hYes | hChange
      · exact hYes
      · rw [hasEdge_iff.mpr ⟨i, by omega, hChange⟩] at hEdge
        cases hEdge

namespace VvpUdpSeq

/- The table of rows without an edge for an output. -/
def levels (u : VvpUdpSeq) (c : Char) : List UdpLevelsTable :=
  if c = '0' then u.levels0
  else if c = '1' then u.levels1
  else if c = 'x' then u.levelsx
  else u.levelsL

/- The table of rows with an edge for an output. -/
def edges (u : VvpUdpSeq) (c : Char) : List UdpEdgesTable :=
  if c = '0' then u.edges0
  else if c = '1' then u.edges1
  else if c = 'x' then []
  else u.edgesL

end VvpUdpSeq

/- Some row of a kind, with an output, fits. -/
def fitting (n : Nat) (rows : List (List Char)) (edge : Bool) (c : Char)
    (fits : List Char → Bool) : Bool :=
  rows.any (fun row => hasEdge n row == edge && (output n row == c && fits row))

/- The tables find what the rows compiled so far ask for. -/
structure Compiled (n : Nat) (rows : List (List Char)) (u : VvpUdpSeq) : Prop where
  ports : u.port_count = n
  levels : ∀ c ∈ ['0', '1', 'x', '-'],
    ∀ (out : UdpLevel) (prev cur : Nat → UdpLevel)
      (t : UdpLevelsTable),
      t.Holds (n + 1) (withOut n out cur) →
        (u.levels c).any (fun row =>
          t.within row.mask0 row.mask1 row.maskx) =
            fitting n rows false c (fun row => rowMatches n row out prev cur)
  edges : ∀ c ∈ ['0', '1', '-'],
    ∀ (out : UdpLevel) (prev cur : Nat → UdpLevel) (k : Nat)
      (t p : UdpLevelsTable), k < n →
      t.Holds (n + 1) (withOut n out cur) → p.Holds n prev →
        (u.edges c).any (VvpUdpSeq.edgeHit t p k) =
          fitting n rows true c (fun row => wrapMatches n row out prev cur k)

theorem compiled_new (n : Nat) : Compiled n [] (.new n) := by
  refine ⟨rfl, ?_, ?_⟩
  · intro c hc out prev cur t ht
    simp only [mem_cons, not_mem_nil, or_false] at hc
    rcases hc with rfl | rfl | rfl | rfl <;> rfl
  · intro c hc out prev cur k t p hk ht hp
    simp only [mem_cons, not_mem_nil, or_false] at hc
    rcases hc with rfl | rfl | rfl <;> rfl

theorem fitting_append (n : Nat) (rows : List (List Char)) (row : List Char)
    (edge : Bool) (c : Char) (fits : List Char → Bool) :
    fitting n (rows ++ [row]) edge c fits =
      (fitting n rows edge c fits ||
        hasEdge n row == edge && (output n row == c && fits row)) := by
  unfold fitting
  rw [any_append, any_cons, any_nil, Bool.or_false]

/- The counts of the first pass so far. -/
def counted (u : VvpUdpSeq) : VvpUdpSeq.EdgeCounts :=
  ⟨u.edges0.length, u.edges1.length, u.edgesL.length⟩

variable {n : Nat} {prev cur : Nat → UdpLevel}
  {rows : List (List Char)} {out : UdpLevel}

/- A row of levels goes to the table of its output. -/
def VvpUdpSeq.addLevel (u : VvpUdpSeq) (t : UdpLevelsTable) : Char → Option VvpUdpSeq
| '0' => some { u with levels0 := u.levels0 ++ [t] }
| '1' => some { u with levels1 := u.levels1 ++ [t] }
| 'x' => some { u with levelsx := u.levelsx ++ [t] }
| '-' => some { u with levelsL := u.levelsL ++ [t] }
| _ => none

/- The entries of an edge go to the table of the output. -/
def VvpUdpSeq.addEdges (u : VvpUdpSeq) (entries : List UdpEdgesTable) : Char → Option VvpUdpSeq
| '0' => some { u with edges0 := u.edges0 ++ entries }
| '1' => some { u with edges1 := u.edges1 ++ entries }
| 'x' => some u
| '-' => some { u with edgesL := u.edgesL ++ entries }
| _ => none

/- The counts after a row of edges. -/
def countEdges (counts : VvpUdpSeq.EdgeCounts) (more : Nat) : Char → Option VvpUdpSeq.EdgeCounts
| '0' => some { counts with nedges0 := counts.nedges0 + more }
| '1' => some { counts with nedges1 := counts.nedges1 + more }
| 'x' => some counts
| '-' => some { counts with nedgesL := counts.nedgesL + more }
| _ => none

theorem addRow_level (hn : n < 64)
    (hU : Compiled n rows u) (h : WellFormed n row)
    (hEdge : hasEdge n row = false) :
    ∃ u', u.addRow row = some u' ∧
      Compiled n (rows ++ [row]) u' ∧
      VvpUdpSeq.countRow n (counted u) row = some (counted u') := by
  rcases levelRow_hit hn h hEdge with ⟨t, hT, hHit⟩
  have hOnly : VvpUdpSeq.levelsOnly n row = true := by
    rw [levelsOnly_eq h, hEdge]
    rfl
  -- The row goes to the table of its output, all else stays.
  have hParts : ∃ u', u.addRow row = some u' ∧
      u'.port_count = n ∧
      (∀ c ∈ ['0', '1', 'x', '-'], u'.levels c =
        u.levels c ++ if output n row = c then [t] else []) ∧
      (∀ c, u'.edges c = u.edges c) ∧
      VvpUdpSeq.countRow n (counted u) row = some (counted u') := by
    have hAdd : ∀ c, output n row = c → u.addRow row =
        u.addLevel t c := by
      intro c hC
      unfold VvpUdpSeq.addRow VvpUdpSeq.addLevel
      rw [hU.ports, if_pos hOnly, hT, ← hC]
      rfl
    have hOut := h.output
    simp only [mem_cons, not_mem_nil, or_false] at hOut
    have hCount : VvpUdpSeq.countRow n (counted u) row = some (counted u) := by
      unfold VvpUdpSeq.countRow
      rw [if_neg (not_not.mpr h.length), if_pos hOnly]
      unfold output at hOut
      grind
    rcases hOut with hC | hC | hC | hC <;>
    · refine ⟨_, hAdd _ hC, hU.ports, ?_, fun _ => rfl, hCount⟩
      intro c hc
      simp only [mem_cons, not_mem_nil, or_false] at hc
      rw [hC]
      rcases hc with rfl | rfl | rfl | rfl <;>
        first
        | rfl
        | exact (append_nil _).symm
  rcases hParts with ⟨u', hAdd, hPorts, hLevels, hEdges, hCount⟩
  refine ⟨u', hAdd, ⟨hPorts, ?_, ?_⟩, hCount⟩
  · intro c hc out prev cur c' hC'
    rw [hLevels c hc, any_append, hU.levels c hc out prev cur c' hC', fitting_append, hEdge]
    grind
  · intro c hc out prev cur k c' p hK hC' hP
    rw [hEdges, hU.edges c hc out prev cur k c' p hK hC' hP, fitting_append, hEdge]
    simp

theorem addRow_edge (hn : n < 64)
    (hU : Compiled n rows u) (h : WellFormed n row)
    (hEdge : hasEdge n row = true) :
    ∃ u', u.addRow row = some u' ∧
      Compiled n (rows ++ [row]) u' ∧
      VvpUdpSeq.countRow n (counted u) row = some (counted u') := by
  rcases edgeRow_hit hn h hEdge with ⟨st, hSt, hLength, hHit⟩
  have hOnly : ¬VvpUdpSeq.levelsOnly n row = true := by
    rw [levelsOnly_eq h, hEdge]
    exact Bool.false_ne_true
  have hParts : ∃ u', u.addRow row = some u' ∧
      u'.port_count = n ∧ (∀ c, u'.levels c = u.levels c) ∧
      (∀ c ∈ ['0', '1', '-'], u'.edges c =
        u.edges c ++
          if output n row = c then st.entries else []) ∧
      VvpUdpSeq.countRow n (counted u) row = some (counted u') := by
    have hAdd : ∀ c, output n row = c → u.addRow row =
        u.addEdges st.entries c := by
      intro c hC
      unfold VvpUdpSeq.addRow VvpUdpSeq.addEdges
      rw [hU.ports, if_neg hOnly, hSt, ← hC]
      rfl
    have hCount : ∀ c, output n row = c →
        VvpUdpSeq.countRow n (counted u) row =
          countEdges (counted u) st.entries.length c := by
      intro c hC
      unfold VvpUdpSeq.countRow
      rw [if_neg (not_not.mpr h.length), if_neg hOnly, hLength, ← hC]
      rfl
    have hOut := h.output
    simp only [mem_cons, not_mem_nil, or_false] at hOut
    rcases hOut with hC | hC | hC | hC <;>
    · refine ⟨_, hAdd _ hC, hU.ports, fun _ => rfl, ?_, ?_⟩
      · intro c hc
        simp only [mem_cons, not_mem_nil, or_false] at hc
        rw [hC]
        rcases hc with rfl | rfl | rfl <;>
          first
          | rfl
          | exact (append_nil _).symm
      · rw [hCount _ hC]
        first
        | rfl
        | simp only [counted, countEdges, List.length_append]
  rcases hParts with ⟨u', hAdd, hPorts, hLevels, hEdges, hCount⟩
  refine ⟨u', hAdd, ⟨hPorts, ?_, ?_⟩, hCount⟩
  · intro c hc out prev cur c' hC'
    rw [hLevels, hU.levels c hc out prev cur c' hC', fitting_append, hEdge]
    simp
  · intro c hc out prev cur k c' p hK hC' hP
    rw [hEdges c hc, any_append, hU.edges c hc out prev cur k c' p hK hC' hP, fitting_append, hEdge]
    grind

theorem compileTable_spec
    (hn : n < 64) (h : ∀ row ∈ rows, WellFormed n row) :
    ∃ u, VvpUdpSeq.compileTable n rows = some u ∧
      Compiled n rows u := by
  have hLoop : ∀ (rest done : List (List Char)) (u : VvpUdpSeq),
      Compiled n done u → (∀ row ∈ rest, WellFormed n row) →
      ∃ u', rest.foldlM VvpUdpSeq.addRow u = some u' ∧
        Compiled n (done ++ rest) u' ∧
        rest.foldlM (VvpUdpSeq.countRow n) (counted u) = some (counted u') := by
    intro rest
    induction rest with
    | nil => simp
    | cons row rest ih =>
      intro done u hU hRest
      have hRow := hRest row (List.mem_cons_self ..)
      have hStep : ∃ u', u.addRow row = some u' ∧
          Compiled n (done ++ [row]) u' ∧
          VvpUdpSeq.countRow n (counted u) row = some (counted u') := by
        cases hEdge : hasEdge n row with
        | false => exact addRow_level hn hU hRow hEdge
        | true => exact addRow_edge hn hU hRow hEdge
      rcases hStep with ⟨u', hAdd, hU', hCount⟩
      rcases ih (done ++ [row]) u' hU' (fun r hr =>
          hRest r (List.mem_cons_of_mem row hr)) with
        ⟨u'', hAll, hU'', hCounts⟩
      grind
  rcases hLoop rows [] (.new n) (compiled_new n) h with ⟨u, hAll, hU, hCounts⟩
  refine ⟨u, ?_, hU⟩
  unfold VvpUdpSeq.compileTable
  rw [show VvpUdpSeq.EdgeCounts.mk 0 0 0 = counted (.new n) from rfl, hCounts, hAll]
  exact if_pos ⟨rfl, rfl, rfl⟩

----
-- Inputs In Masks
----

theorem initial_holds : (UdpLevelsTable.initial n).Holds n (fun _ => .x) := by
  intro i hi v
  have hUnknown : (~~~(allOnes 64 <<< n)).getLsbD i =
      decide (i < n) := by
    rw [getLsbD_not, BitVec.getLsbD_shiftLeft, BitVec.getLsbD_allOnes]
    grind
  cases v with
  | zero => exact getLsbD_zero.trans (by simp)
  | one => exact getLsbD_zero.trans (by simp)
  | x => exact hUnknown.trans (by simp)

/- The masks follow the inputs. -/
theorem receive_holds {t : UdpLevelsTable} {s : Nat → UdpLevel} (h : t.Holds n s)
    {port : Nat} (hPort : port < n) (value : UdpLevel) :
    (t.receive port value.toBit).Holds n (fun i => if i = port then value else s i) := by
  intro i hi v
  have hPlace := @getLsbD_place port i hi
  have hOld := h i hi v
  have hSet : ∀ mask : BitVec 64,
      (mask ||| 1#64 <<< port).getLsbD i =
        (mask.getLsbD i || decide (i = port)) := fun mask => by
    rw [getLsbD_or, hPlace]
  have hClear : ∀ mask : BitVec 64,
      (mask &&& ~~~(1#64 <<< port)).getLsbD i =
        (mask.getLsbD i && !decide (i = port)) := fun mask => by
    rw [getLsbD_and, getLsbD_not, hPlace, decide_eq_true hi, Bool.true_and]
  change _ = (decide (i < n) && v == if i = port then value else s i)
  by_cases hSame : i = port
  · rw [decide_eq_true hSame] at hSet hClear
    rw [decide_eq_true (show i < n by omega), if_pos hSame]
    cases value <;> cases v <;>
      simp only [UdpLevelsTable.receive, UdpLevelsTable.admits, admits, UdpLevel.toBit,
        hSet, hClear, Bool.or_true, Bool.not_true, Bool.and_false] <;>
      rfl
  · rw [decide_eq_false hSame] at hSet hClear
    rw [if_neg hSame, ← hOld]
    cases value <;> cases v <;>
      simp only [UdpLevelsTable.receive, UdpLevelsTable.admits, admits, UdpLevel.toBit,
        hSet, hClear, Bool.or_false, Bool.not_false, Bool.and_true]

/- The masks of the inputs, one after the other received. -/
def encode (n : Nat) (s : Nat → UdpLevel) : UdpLevelsTable :=
  (List.range n).foldl (fun t i => t.receive i (s i).toBit) (.initial n)

theorem encode_holds (n : Nat) (s : Nat → UdpLevel) : (encode n s).Holds n s := by
  have hLoop : ∀ m ≤ n, ((List.range m).foldl
      (fun (t : UdpLevelsTable) i => t.receive i (s i).toBit)
      (.initial n)).Holds n (fun i => if i < m then s i else .x) := by
    intro m hm
    induction m with
    | zero => exact initial_holds
    | succ m ih =>
      rw [List.range_succ, List.foldl_append]
      have hNext := receive_holds (ih (by omega)) (show m < n by omega) (s m)
      intro i hi v
      refine (hNext i hi v).trans ?_
      congr 2
      change (if i = m then s m else
        if i < m then s i else .x) =
          if i < m + 1 then s i else .x
      grind
  intro i hi v
  refine (hLoop n (Nat.le_refl n) i hi v).trans ?_
  by_cases hLt : i < n
  · simp only [hLt, if_true]
  · simp [hLt]

theorem withOutput_holds (hn : n < 64) (hPorts : u.port_count = n) (hC : c.Holds n cur)
    (out : UdpLevel) :
    (u.withOutput c out.toBit).Holds (n + 1) (withOut n out cur) := by
  intro i hi v
  have hPlace := @getLsbD_place n i hi
  have hOld := hC i hi v
  rcases Nat.lt_trichotomy i n with hLt | hEq | hGt
  · rw [decide_eq_true hLt] at hOld
    rw [decide_eq_false (Nat.ne_of_lt hLt)] at hPlace
    rw [withOut_input hLt, decide_eq_true (show i < n + 1 by omega), ← hOld]
    cases out <;> cases v <;>
      simp [VvpUdpSeq.withOutput, UdpLevelsTable.admits, admits, UdpLevel.toBit, hPorts, hPlace]
  · rw [hEq] at hPlace ⊢
    rw [withOut_output]
    cases out <;> cases v <;>
      simp_all [VvpUdpSeq.withOutput, UdpLevelsTable.admits, admits, UdpLevel.toBit]
  · rw [decide_eq_false (show ¬i < n by omega), Bool.false_and] at hOld
    rw [decide_eq_false (show ¬i = n by omega)] at hPlace
    rw [decide_eq_false (show ¬i < n + 1 by omega), Bool.false_and, ← hOld]
    cases out <;> cases v <;>
      simp [VvpUdpSeq.withOutput, UdpLevelsTable.admits, admits, UdpLevel.toBit, hPorts, hPlace]

----
-- Searching The Tables
----

theorem and_ne_zero_iff (a b : BitVec 64) :
    a &&& b ≠ 0#64 ↔
      ∃ i < 64, a.getLsbD i = true ∧ b.getLsbD i = true := by
  constructor
  · intro hNe
    by_contra hNone
    apply hNe
    apply eq_of_getLsbD_eq
    grind
  · rintro ⟨i, hi, hA, hB⟩ hZero
    have hAt := congrArg (fun x => BitVec.getLsbD x i) hZero
    simp only [getLsbD_and, hA, hB, getLsbD_zero] at hAt
    cases hAt

/- What is read for the current output: from 32 inputs on it
   is one of the inputs. -/
def readBack (n : Nat) (out : UdpLevel) (cur : Nat → UdpLevel) : UdpLevel :=
  if n < 32 then out else cur (n - 32)

theorem currentOutput_spec (hn : n < 63) (hPorts : u.port_count = n) {out : UdpLevel}
    (hC : c.Holds (n + 1) (withOut n out cur)) :
    u.currentOutput c = some (readBack n out cur).toBit := by
  -- among the places in use, one is read
  rcases (show ∃ q ≤ n, withOut n out cur q = readBack n out cur ∧
      ∀ i ≤ n, (marks n i = true ↔ i = q) from by
    unfold readBack marks
    by_cases hFew : n < 32
    · rw [if_pos hFew, Nat.mod_eq_of_lt hFew]
      refine ⟨n, Nat.le_refl n, withOut_output n out cur, fun i hi => ?_⟩
      split_ifs with hLast
      · rw [decide_eq_true_iff]
        omega
      · exact beq_iff_eq
    · have hWrap : ¬n % 32 = 31 := by omega
      rw [if_neg hFew]
      simp only [if_neg hWrap]
      refine ⟨n - 32, by omega, withOut_input (by omega) out cur, fun i hi => ?_⟩
      rw [beq_iff_eq]
      omega) with
    ⟨q, hq, hRead, hMarks⟩
  unfold VvpUdpSeq.currentOutput
  rw [hPorts]
  have hMask : ∀ (mask : BitVec 64) (v : UdpLevel),
      (∀ i < 64, mask.getLsbD i = (decide (i < n + 1) && v == withOut n out cur i)) →
      (mask &&& intShift n ≠ 0#64 ↔ v = readBack n out cur) := by
    intro mask v hAll
    rw [and_ne_zero_iff]
    constructor
    · rintro ⟨i, hi, hA, hB⟩
      rw [hAll i hi, and_eq_true, decide_eq_true_iff, beq_iff_eq] at hA
      rw [getLsbD_intShift hi, hMarks i (by omega)] at hB
      rw [hA.2, hB, hRead]
    · intro hEq
      refine ⟨q, by omega, ?_, ?_⟩
      · grind
      · rw [getLsbD_intShift (by omega), hMarks q hq]
  have hZero := hMask c.mask0 .zero (fun i hi => hC i hi .zero)
  have hOne := hMask c.mask1 .one (fun i hi => hC i hi .one)
  have hX := hMask c.maskx .x (fun i hi => hC i hi .x)
  simp only
  cases hOut : readBack n out cur <;> rw [hOut] at hZero hOne hX
  · rw [if_pos (hZero.mpr rfl)]
    rfl
  · rw [if_neg (mt hZero.mp (by decide)), if_pos (hOne.mpr rfl)]
    rfl
  · rw [if_neg (mt hZero.mp (by decide)), if_neg (mt hOne.mp (by decide)), if_pos (hX.mpr rfl)]
    rfl

/- The loop stops at the place of the change. -/
theorem lowestBit_place {m : Nat} (hk : k < 64) (hm : k < m) (pos : Nat) :
    VvpUdpSeq.lowestBit m (1#64 <<< k) pos = (1#64, pos + k) := by
  induction k generalizing m pos with
  | zero =>
    cases m with
    | zero => exact absurd hm (Nat.lt_irrefl 0)
    | succ m =>
      rfl
  | succ k ih =>
    cases m with
    | zero => exact absurd hm (Nat.not_lt_zero _)
    | succ m =>
      have hLow : 1#64 <<< (k + 1) &&& 1#64 = 0#64 := by grind
      have hDown : 1#64 <<< (k + 1) >>> 1 = 1#64 <<< k := by grind
      rw [VvpUdpSeq.lowestBit, if_pos hLow, hDown, ih (by omega) (by omega)]
      congr 1
      omega

/- The difference of the inputs is the place of the change. -/
theorem edge_mask_eq (hK : Change n k prev cur) (out : UdpLevel)
    {p : UdpLevelsTable} (hC : c.Holds (n + 1) (withOut n out cur)) (hP : p.Holds n prev) :
    ((c.mask0 ^^^ p.mask0) ||| (c.maskx ^^^ p.maskx) |||
      (c.mask1 ^^^ p.mask1)) &&& ~~~(allOnes 64 <<< n) = 1#64 <<< k := by
  apply eq_of_getLsbD_eq
  intro i hi
  have hC0 : c.mask0.getLsbD i = _ := hC i hi .zero
  have hC1 : c.mask1.getLsbD i = _ := hC i hi .one
  have hCx : c.maskx.getLsbD i = _ := hC i hi .x
  have hP0 : p.mask0.getLsbD i = _ := hP i hi .zero
  have hP1 : p.mask1.getLsbD i = _ := hP i hi .one
  have hPx : p.maskx.getLsbD i = _ := hP i hi .x
  have hInput := hK.input
  rw [getLsbD_and, getLsbD_or, getLsbD_or, getLsbD_xor,
    getLsbD_xor, getLsbD_xor, getLsbD_not, BitVec.getLsbD_shiftLeft,
    BitVec.getLsbD_allOnes, getLsbD_place hi, hC0, hC1, hCx, hP0, hP1, hPx]
  by_cases hLt : i < n
  · rw [withOut_input hLt, decide_eq_true hLt,
      decide_eq_true (show i < n + 1 by omega), decide_eq_true hi]
    by_cases hSame : i = k
    · rw [hSame, decide_eq_true rfl]
      have hNe := hK.ne
      cases hA : prev k <;> cases hB : cur k <;>
        rw [hA, hB] at hNe <;>
        first
        | exact absurd rfl hNe
        | rfl
    · rw [decide_eq_false hSame, hK.same i hLt hSame]
      cases cur i <;> rfl
  · grind

----
-- The Next Output
----

theorem fitting_iff {edge : Bool} {c : Char} {fits : List Char → Bool} :
    fitting n rows edge c fits = true ↔
      ∃ row ∈ rows, hasEdge n row = edge ∧ output n row = c ∧ fits row = true := by
  unfold fitting
  rw [List.any_eq_true]
  constructor
  · simp
  · simp

/- A row without an edge decides before all others. -/
theorem udpMeaning_of_level (hAgree : Agree n rows out prev cur)
    (hRow : row ∈ rows) (hEdge : hasEdge n row = false)
    (hFit : rowMatches n row out prev cur = true) :
    udpMeaning n rows out prev cur = next n row out := by
  unfold udpMeaning
  cases hFind : rows.find? (fun row =>
      !hasEdge n row && rowMatches n row out prev cur) with
  | none => grind
  | some row' =>
    have hSome := List.find?_some hFind
    have hMem := List.mem_of_find?_eq_some hFind
    rw [and_eq_true, not_eq_true'] at hSome
    exact hAgree row' hMem row hRow (hSome.1.trans hEdge.symm) hSome.2 hFit

/- Rows with an edge decide where no other does. -/
theorem udpMeaning_of_edge (hAgree : Agree n rows out prev cur)
    (hNoLevel : ∀ row ∈ rows, hasEdge n row = false → rowMatches n row out prev cur = false)
    (hRow : row ∈ rows) (hEdge : hasEdge n row = true)
    (hFit : rowMatches n row out prev cur = true) :
    udpMeaning n rows out prev cur = next n row out := by
  have hFind : rows.find? (fun row =>
      !hasEdge n row && rowMatches n row out prev cur) = none := by grind
  unfold udpMeaning
  rw [hFind]
  cases hFind' : rows.find? (fun row =>
      hasEdge n row && rowMatches n row out prev cur) with
  | none => grind
  | some row' =>
    have hSome := List.find?_some hFind'
    have hMem := List.mem_of_find?_eq_some hFind'
    rw [and_eq_true] at hSome
    exact hAgree row' hMem row hRow (hSome.1.trans hEdge.symm) hSome.2 hFit

theorem udpMeaning_of_none (hNone : ∀ row ∈ rows, rowMatches n row out prev cur = false) :
    udpMeaning n rows out prev cur = .x := by
  have hFind : ∀ edge : List Char → Bool, rows.find? (fun row =>
      edge row && rowMatches n row out prev cur) = none := by grind
  unfold udpMeaning
  rw [hFind (fun row => !hasEdge n row), hFind (fun row => hasEdge n row)]

/- Where no row with `-` decides, or one that needs no `-` too. -/
def DashCovered (n : Nat) (rows : List (List Char)) (out : UdpLevel)
    (prev cur : Nat → UdpLevel) : Prop :=
  (∃ row ∈ rows, hasEdge n row = false ∧ output n row = '-' ∧
    rowMatches n row out prev cur = true) →
  ∃ row ∈ rows, hasEdge n row = false ∧ output n row ≠ '-' ∧ rowMatches n row out prev cur = true

/- The next output is a matter of the last character. -/
theorem next_eq {d : Char} (h : output n row = d) (out : UdpLevel) :
    next n row out = nextOf d out := by
  rw [← h]
  rfl

/- A row of some kind that fits is found by its output. -/
theorem fitting_of_row (h : ∀ row ∈ rows, WellFormed n row) {fits : List Char → Bool}
    (hRow : row ∈ rows) (hFit : fits row = true) :
    ∃ d ∈ ['0', '1', 'x', '-'], output n row = d ∧
      fitting n rows (hasEdge n row) d fits = true :=
  ⟨_, (h row hRow).output, rfl, fitting_iff.mpr ⟨row, hRow, rfl, rfl, hFit⟩⟩

/- The first output for which entries with an edge fit. -/
def wrapFirst (n : Nat) (rows : List (List Char)) (out : UdpLevel) (prev cur : Nat → UdpLevel)
    (k : Nat) : Option Char :=
  ['0', '1', '-'].find? (fun c =>
    fitting n rows true c (fun row => wrapMatches n row out prev cur k))

/-
  The entries with an edge ask for what the rows that match
  ask for; where none fits, these ask for nothing but x.
-/
def EdgesSound (n : Nat) (rows : List (List Char)) (out : UdpLevel) (prev cur : Nat → UdpLevel)
    (k : Nat) : Prop :=
  match wrapFirst n rows out prev cur k with
  | none =>
    ∀ row ∈ rows, hasEdge n row = true → rowMatches n row out prev cur = true →
      next n row out = .x
  | some c =>
    (∃ row ∈ rows, hasEdge n row = true ∧ rowMatches n row out prev cur = true ∧
      next n row out = nextOf c (readBack n out cur)) ∨
    (∀ row ∈ rows, hasEdge n row = true → rowMatches n row out prev cur = false) ∧
      nextOf c (readBack n out cur) = .x

/-
  Where a row without an edge matches, the current output is
  read right or need not be read; where none does, the entries
  with an edge are sound.
-/
def WrapSound (n : Nat) (rows : List (List Char)) (out : UdpLevel) (prev cur : Nat → UdpLevel)
    (k : Nat) : Prop :=
  ((∃ row ∈ rows, hasEdge n row = false ∧ rowMatches n row out prev cur = true) →
    readBack n out cur = out ∨ DashCovered n rows out prev cur) ∧
  ((∀ row ∈ rows, hasEdge n row = false → rowMatches n row out prev cur = false) →
    EdgesSound n rows out prev cur k)

theorem toBit_inj {v w : UdpLevel} (h : v.toBit = w.toBit) : v = w := by
  cases v <;> cases w <;> first | rfl | cases h

section Search

variable {n : Nat} {rows : List (List Char)}
variable {u : VvpUdpSeq}
variable {out : UdpLevel} {prev cur : Nat → UdpLevel}
variable {t : UdpLevelsTable}

/-
  Where a row without an edge matches, the level tables return
  the meaning, or what is read for the current output.
-/
theorem testLevels_spec (hn : n < 63) (h : ∀ row ∈ rows, WellFormed n row)
    (hU : Compiled n rows u) (hAgree : Agree n rows out prev cur)
    (hOut : t.Holds (n + 1) (withOut n out cur)) {row : List Char}
    (hRow : row ∈ rows) (hEdge : hasEdge n row = false)
    (hFit : rowMatches n row out prev cur = true) :
    (DashCovered n rows out prev cur →
      u.testLevels t = some (udpMeaning n rows out prev cur).toBit) ∧
    (¬DashCovered n rows out prev cur →
      udpMeaning n rows out prev cur = out ∧
      u.testLevels t = some (readBack n out cur).toBit) := by
  have hRead := currentOutput_spec hn hU.ports hOut
  have hLevels := fun c hc => hU.levels c hc out prev cur t hOut
  have hL0 : u.levels0.any _ = _ := hLevels '0' (by decide)
  have hL1 : u.levels1.any _ = _ := hLevels '1' (by decide)
  have hLx : u.levelsx.any _ = _ := hLevels 'x' (by decide)
  have hLL : u.levelsL.any _ = _ := hLevels '-' (by decide)
  unfold VvpUdpSeq.testLevels
  simp only
  rw [hL0, hL1, hLx, hLL]
  generalize hFits : (fun row => rowMatches n row out prev cur) = fits
  have hFitsAt : ∀ row, fits row = rowMatches n row out prev cur := fun row => by rw [← hFits]
  have hMeaning : ∀ d, d ≠ '-' → fitting n rows false d fits = true →
      DashCovered n rows out prev cur ∧ udpMeaning n rows out prev cur = nextOf d out := by
    intro d hDash hD
    rcases fitting_iff.mp hD with ⟨r, hR, hE, hChar, hMatch⟩
    rw [hFitsAt] at hMatch
    refine ⟨fun _ => ⟨r, hR, hE, by rwa [hChar], hMatch⟩, ?_⟩
    rw [udpMeaning_of_level hAgree hR hE hMatch, next_eq hChar]
  by_cases h0 : fitting n rows false '0' fits = true
  · rcases hMeaning '0' (by decide) h0 with ⟨hCovered, hNext⟩
    rw [if_pos h0, hNext]
    exact ⟨fun _ => rfl, fun hBad => absurd hCovered hBad⟩
  by_cases h1 : fitting n rows false '1' fits = true
  · rcases hMeaning '1' (by decide) h1 with ⟨hCovered, hNext⟩
    rw [if_neg h0, if_pos h1, hNext]
    exact ⟨fun _ => rfl, fun hBad => absurd hCovered hBad⟩
  by_cases hx : fitting n rows false 'x' fits = true
  · rcases hMeaning 'x' (by decide) hx with ⟨hCovered, hNext⟩
    rw [if_neg h0, if_neg h1, if_pos hx, hNext]
    exact ⟨fun _ => rfl, fun hBad => absurd hCovered hBad⟩
  have hOnly : ∀ r ∈ rows, hasEdge n r = false →
      rowMatches n r out prev cur = true →
        output n r = '-' ∧ fitting n rows false '-' fits = true := by
    intro r hR hE hMatch
    rcases fitting_of_row h hR ((hFitsAt r).trans hMatch) with ⟨d, hD, hChar, hSome⟩
    grind
  rcases hOnly row hRow hEdge hFit with ⟨hDash, hL⟩
  have hUncovered : ¬DashCovered n rows out prev cur := by
    intro hCovered
    rcases hCovered ⟨row, hRow, hEdge, hDash, hFit⟩ with ⟨r, hR, hE, hOther, hMatch⟩
    exact hOther (hOnly r hR hE hMatch).1
  rw [if_neg h0, if_neg h1, if_neg hx, if_pos hL, hRead,
    udpMeaning_of_level hAgree hRow hEdge hFit, next_eq hDash]
  exact ⟨fun hCovered => absurd hCovered hUncovered, fun _ => ⟨rfl, rfl⟩⟩

theorem testLevels_none (hU : Compiled n rows u) (hOut : t.Holds (n + 1) (withOut n out cur))
    (hNoLevel : ∀ row ∈ rows, hasEdge n row = false → rowMatches n row out prev cur = false) :
    u.testLevels t = some .z := by
  have hNone : ∀ d, fitting n rows false d (fun row => rowMatches n row out prev cur) =
      false := by
    intro d
    rw [eq_false_iff]
    intro hSome
    rcases fitting_iff.mp hSome with ⟨row, hRow, hEdge, -, hFit⟩
    rw [hNoLevel row hRow hEdge] at hFit
    cases hFit
  have hLevels := fun c hc => hU.levels c hc out prev cur t hOut
  have hL0 : u.levels0.any _ = _ := hLevels '0' (by decide)
  have hL1 : u.levels1.any _ = _ := hLevels '1' (by decide)
  have hLx : u.levelsx.any _ = _ := hLevels 'x' (by decide)
  have hLL : u.levelsL.any _ = _ := hLevels '-' (by decide)
  unfold VvpUdpSeq.testLevels
  simp only
  rw [hL0, hL1, hLx, hLL, hNone, hNone, hNone, hNone]
  rfl

/- The edge tables return what the first entry that fits asks
   for. -/
theorem testEdges_spec (hn : n < 63) (hU : Compiled n rows u) {k : Nat}
    (hK : Change n k prev cur) (hOut : t.Holds (n + 1) (withOut n out cur))
    {p : UdpLevelsTable} (hP : p.Holds n prev) :
    u.testEdges t p = some (match wrapFirst n rows out prev cur k with
      | none => UdpLevel.x
      | some c => nextOf c (readBack n out cur)).toBit := by
  have hRead := currentOutput_spec hn hU.ports hOut
  have hInput := hK.input
  have hEdges := fun c hc => hU.edges c hc out prev cur k t p hInput hOut hP
  have hE0 : u.edges0.any _ = _ := hEdges '0' (by decide)
  have hE1 : u.edges1.any _ = _ := hEdges '1' (by decide)
  have hEL : u.edgesL.any _ = _ := hEdges '-' (by decide)
  have hPlace : ¬1#64 <<< k = 0#64 := by
    intro hZero
    have hBit := @getLsbD_place k k (by omega)
    rw [hZero, getLsbD_zero, decide_eq_true rfl] at hBit
    cases hBit
  unfold VvpUdpSeq.testEdges wrapFirst
  rw [hU.ports, edge_mask_eq hK out hOut hP]
  simp only
  rw [if_neg hPlace, lowestBit_place (by omega) (by omega) 0, Nat.zero_add]
  rw [hE0, hE1, hEL, hRead, List.find?_cons, List.find?_cons, List.find?_cons, List.find?_nil]
  generalize fitting n rows true '0' _ = fit0
  generalize fitting n rows true '1' _ = fit1
  generalize fitting n rows true '-' _ = fitL
  cases fit0 <;> cases fit1 <;> cases fitL <;> rfl

variable {k : Nat}

/- Where no row without an edge matches, the meaning is that
   of the rows with one. -/
theorem edgesSound_iff (hAgree : Agree n rows out prev cur)
    (hNoLevel : ∀ row ∈ rows, hasEdge n row = false → rowMatches n row out prev cur = false) :
    EdgesSound n rows out prev cur k ↔
      (match wrapFirst n rows out prev cur k with
        | none => UdpLevel.x
        | some c => nextOf c (readBack n out cur)) = udpMeaning n rows out prev cur := by
  have hMeaning : ∀ {row}, row ∈ rows → hasEdge n row = true →
      rowMatches n row out prev cur = true →
        udpMeaning n rows out prev cur = next n row out :=
    fun hRow hEdge hFit => udpMeaning_of_edge hAgree hNoLevel hRow hEdge hFit
  have hNone : (∀ row ∈ rows, hasEdge n row = true → rowMatches n row out prev cur = false) →
      udpMeaning n rows out prev cur = .x := by
    intro hAll
    refine udpMeaning_of_none (fun row hRow => ?_)
    grind
  have hCases : (∃ row ∈ rows, hasEdge n row = true ∧ rowMatches n row out prev cur = true) ∨
      ∀ row ∈ rows, hasEdge n row = true → rowMatches n row out prev cur = false := by grind
  unfold EdgesSound
  cases wrapFirst n rows out prev cur k with
  | none => grind
  | some c => grind

/- The compiled tables return the meaning of the rows just
   where they are sound. -/
theorem calculateOutput_spec (hn : n < 63) (h : ∀ row ∈ rows, WellFormed n row)
    (hU : Compiled n rows u) (hAgree : Agree n rows out prev cur)
    (hK : Change n k prev cur) {c p : UdpLevelsTable}
    (hC : c.Holds n cur) (hP : p.Holds n prev) :
    u.calculateOutput c p out.toBit = some (udpMeaning n rows out prev cur).toBit ↔
      WrapSound n rows out prev cur k := by
  have hNe : c ≠ p := by
    intro hEq
    have hInput := hK.input
    have hAt := hC k (by omega) (cur k)
    rw [hEq, hP k (by omega), decide_eq_true hInput, Bool.true_and,
      Bool.true_and, beq_self_eq_true, beq_iff_eq] at hAt
    exact hK.ne hAt.symm
  have hOut := withOutput_holds (by omega) hU.ports hC out
  unfold VvpUdpSeq.calculateOutput
  rw [if_neg hNe]
  simp only
  generalize u.withOutput c out.toBit = t at hOut
  by_cases hLevel : ∃ row ∈ rows, hasEdge n row = false ∧ rowMatches n row out prev cur = true
  · have hSound : WrapSound n rows out prev cur k ↔
        readBack n out cur = out ∨ DashCovered n rows out prev cur := by
      refine ⟨fun hBoth => hBoth.1 hLevel, fun hYes => ⟨fun _ => hYes, fun hNo => ?_⟩⟩
      grind
    rcases hLevel with ⟨row, hRow, hEdge, hFit⟩
    rcases testLevels_spec hn h hU hAgree hOut hRow hEdge hFit with ⟨hGood, hBad⟩
    have hKnown : ∀ v : UdpLevel, (do
        let lev ← some v.toBit
        if lev = .z then u.testEdges t p else some lev) = some v.toBit := by
      intro v
      cases v <;> rfl
    rw [hSound]
    by_cases hCovered : DashCovered n rows out prev cur
    · grind
    · rcases hBad hCovered with ⟨hMeaning, hRead⟩
      rw [hRead, hKnown, hMeaning]
      constructor
      · intro hEq
        exact Or.inl (toBit_inj (Option.some.inj hEq))
      · intro hOr
        rw [hOr.resolve_right hCovered]
  · have hNoLevel : ∀ row ∈ rows, hasEdge n row = false →
        rowMatches n row out prev cur = false := by grind
    have hSound : WrapSound n rows out prev cur k ↔ EdgesSound n rows out prev cur k :=
      ⟨fun hBoth => hBoth.2 hNoLevel, fun hYes => ⟨fun hNo => absurd hNo hLevel, fun _ => hYes⟩⟩
    rw [hSound, edgesSound_iff hAgree hNoLevel, testLevels_none hU hOut hNoLevel]
    change u.testEdges t p = _ ↔ _
    rw [testEdges_spec hn hU hK hOut hP]
    exact ⟨fun hEq => toBit_inj (Option.some.inj hEq), fun hEq => by rw [hEq]⟩

/- As long as ints reach, the tables are sound. -/
theorem wrapSound_of_few (h : ∀ row ∈ rows, WellFormed n row) (hK : Change n k prev cur)
    (hFew : n < 32) : WrapSound n rows out prev cur k := by
  have hRead : readBack n out cur = out := if_pos hFew
  have hFits : ∀ c, fitting n rows true c (fun row => wrapMatches n row out prev cur k) = true ↔
      ∃ row ∈ rows, hasEdge n row = true ∧ output n row = c ∧
        rowMatches n row out prev cur = true := by
    intro c
    rw [fitting_iff]
    apply exists_congr
    intro row
    apply and_congr_right
    intro hRow
    apply and_congr_right
    intro hEdge
    rw [wrapMatches_eq hFew (h row hRow) hEdge hK]
  refine ⟨fun _ => Or.inl hRead, fun _ => ?_⟩
  unfold EdgesSound
  rw [hRead]
  cases hFirst : wrapFirst n rows out prev cur k with
  | none =>
    intro row hRow hEdge hFit
    have hNo := find?_eq_none.mp hFirst
    have hChar := (h row hRow).output
    simp only [mem_cons, not_mem_nil, or_false] at hChar
    rcases hChar with hChar | hChar | hChar | hChar
    · exact absurd ((hFits '0').mpr ⟨row, hRow, hEdge, hChar, hFit⟩) (hNo '0' (by decide))
    · exact absurd ((hFits '1').mpr ⟨row, hRow, hEdge, hChar, hFit⟩) (hNo '1' (by decide))
    · exact next_eq hChar out
    · exact absurd ((hFits '-').mpr ⟨row, hRow, hEdge, hChar, hFit⟩) (hNo '-' (by decide))
  | some c =>
    have hHit := List.find?_some hFirst
    rcases (hFits c).mp hHit with ⟨row, hRow, hEdge, hChar, hFit⟩
    exact Or.inl ⟨row, hRow, hEdge, hFit, next_eq hChar out⟩

end Search

/-
  Compiled and run, the table gives the meaning of its rows.
-/
def Follows (n : Nat) (rows : List (List Char)) (out : UdpLevel)
    (prev cur : Nat → UdpLevel) : Prop :=
  (do
    let u ← VvpUdpSeq.compileTable n rows
    u.calculateOutput (encode n cur) (encode n prev)
      out.toBit) = some (udpMeaning n rows out prev cur).toBit

/-
  The rows are followed with fewer than 32 inputs; with more,
  where their characters placed modulo 32 ask for the same,
  and the input that is read for the current output is it.
-/
theorem sequential_iff {n : Nat} (hn : n ≤ 62) {rows : List (List Char)}
    (h : ∀ row ∈ rows, WellFormed n row) {out : UdpLevel}
    {prev cur : Nat → UdpLevel} (hAgree : Agree n rows out prev cur) {k : Nat}
    (hK : Change n k prev cur) :
    Follows n rows out prev cur ↔ n < 32 ∨ WrapSound n rows out prev cur k := by
  rcases compileTable_spec (by omega) h with ⟨u, hU, hCompiled⟩
  have hSpec := calculateOutput_spec (by omega) h hCompiled hAgree hK
    (encode_holds n cur) (encode_holds n prev)
  unfold Follows
  rw [hU]
  change u.calculateOutput _ _ _ = _ ↔ _
  rw [hSpec]
  exact ⟨Or.inr, fun hOr => hOr.elim (wrapSound_of_few h hK) id⟩

/- A flip-flop: the clock, the data. -/
def flipFlop : List (List Char) :=
  [['?', 'r', '0', '0'], ['?', 'r', '1', '1'], ['?', 'n', '?', '-'], ['?', '?', '*', '-']]

theorem flipFlop_wellFormed : ∀ row ∈ flipFlop, WellFormed 2 row := by
  intro row hRow
  simp only [flipFlop, mem_cons, not_mem_nil, or_false] at hRow
  rcases hRow with rfl | rfl | rfl | rfl <;>
    exact ⟨by decide, by decide, by decide, by decide, by decide⟩

theorem flipFlop_agree (out : UdpLevel) (prev cur : Nat → UdpLevel) (k : Nat)
    (hK : Change 2 k prev cur) : Agree 2 flipFlop out prev cur := by
  have hAll : ∀ out p0 p1 c0 c1 : UdpLevel, (p0 = c0 ∨ p1 = c1) →
      Agree 2 flipFlop out (fun i => if i = 0 then p0 else p1)
        (fun i => if i = 0 then c0 else c1) := by
    unfold Agree
    decide +kernel
  have hOne : prev 0 = cur 0 ∨ prev 1 = cur 1 := by
    by_cases hClock : k = 0
    · exact Or.inr (hK.same 1 (by decide) (by omega))
    · exact Or.inl (hK.same 0 (by decide) (Ne.symm hClock))
  exact hAll out (prev 0) (prev 1) (cur 0) (cur 1) hOne

/- It takes its data at the edge of its clock. -/
theorem sequential_iff_flipFlop :
    Follows 2 flipFlop .zero (fun i => if i = 0 then .zero else .one) (fun _ => .one) :=
  have hK : Change 2 0 (fun i => if i = 0 then UdpLevel.zero else .one) (fun _ => .one) :=
    ⟨by decide, by decide, by decide⟩
  (sequential_iff (by decide) flipFlop_wellFormed (flipFlop_agree _ _ _ 0 hK) hK).mpr
    (Or.inl (by decide))

/- One row of 32 inputs that keeps the current output. -/
def wideRow : List Char := List.replicate 33 '?' ++ ['-']

/- The first input rises: it is read for the output, which
   is 0. -/
theorem sequential_wide :
    ¬ ∀ (n : Nat) (rows : List (List Char)) (out : UdpLevel)
      (prev cur : Nat → UdpLevel) (k : Nat), 1 ≤ n → n ≤ 62 →
        (∀ row ∈ rows, WellFormed n row) →
        Agree n rows out prev cur → Change n k prev cur →
          Follows n rows out prev cur := by
  intro h
  have hRow : WellFormed 32 wideRow := ⟨by decide, by decide, by decide, by decide, by decide⟩
  have hFollows := h 32 [wideRow] .zero
    (fun i => if i = 0 then .zero else .one) (fun _ => .one) 0
    (by decide) (by decide)
    (fun row hMem => by
      rw [mem_singleton] at hMem
      rw [hMem]
      exact hRow)
    (fun row hMem row' hMem' _ _ _ => by
      rw [mem_singleton] at hMem hMem'
      rw [hMem, hMem'])
    ⟨by decide, by decide, by decide⟩
  revert hFollows
  unfold Follows
  decide +kernel

----
-- Instances
----

/- The level that an input is taken for. -/
def UdpLevel.ofBit : VvpBit4 → UdpLevel
| .zero => .zero
| .one => .one
| _ => .x

/- One value of an input, by the rows. -/
def udpStep (n : Nat) (rows : List (List Char)) (st : UdpLevel × (Nat → UdpLevel))
    (event : Nat × VvpBit4) : UdpLevel × (Nat → UdpLevel) :=
  let level := UdpLevel.ofBit event.2
  let cur := fun i => if i = event.1 then level else st.2 i
  (if st.2 event.1 = level then st.1 else udpMeaning n rows st.1 st.2 cur, cur)

/- An instance is where the rows have led it. -/
structure InStep (n : Nat) (core : VvpUdpFunCore) (st : UdpLevel × (Nat → UdpLevel)) : Prop where
  output : core.cur_out = st.1.toBit
  inputs : core.current.Holds n st.2

theorem receive_ofBit (t : UdpLevelsTable) (port : Nat) (bit : VvpBit4) :
    t.receive port bit = t.receive port (UdpLevel.ofBit bit).toBit := by
  cases bit <;> rfl

section

variable (hn : n < 32) (h : ∀ row ∈ rows, WellFormed n row)
  (hAgree : ∀ out prev cur k, Change n k prev cur → Agree n rows out prev cur)

include hn h hAgree

theorem recvVec4FromInputs_spec {core : VvpUdpFunCore} {st : UdpLevel × (Nat → UdpLevel)}
    (hU : Compiled n rows core.def_) (hIn : InStep n core st) {event : Nat × VvpBit4}
    (hPort : event.1 < n) :
    ∃ core', core.recvVec4FromInputs event.1 event.2 = some core' ∧
      core'.def_ = core.def_ ∧ InStep n core' (udpStep n rows st event) := by
  have hNext := receive_holds hIn.inputs hPort (UdpLevel.ofBit event.2)
  unfold VvpUdpFunCore.recvVec4FromInputs udpStep
  simp only
  rw [receive_ofBit]
  by_cases hSame : st.2 event.1 = UdpLevel.ofBit event.2
  · have hKeep : core.current.receive event.1 (UdpLevel.ofBit event.2).toBit =
        core.current := by
      refine hNext.ext (fun i hi v => ?_)
      refine (hIn.inputs i hi v).trans ?_
      grind
    rw [hKeep] at hNext ⊢
    rw [if_pos hSame]
    refine ⟨core, ?_, rfl, hIn.output, hNext⟩
    unfold VvpUdpSeq.calculateOutput
    rw [if_pos rfl]
    rfl
  · have hK : Change n event.1 st.2
        (fun i => if i = event.1 then UdpLevel.ofBit event.2 else st.2 i) :=
      { input := hPort
        ne := by simpa using hSame
        same := fun i _ hNe => (if_neg hNe).symm }
    have hOut := (calculateOutput_spec (by omega) h hU (hAgree st.1 _ _ _ hK) hK
      hNext hIn.inputs).mpr (wrapSound_of_few h hK hn)
    rw [if_neg hSame, hIn.output, hOut]
    exact ⟨_, rfl, rfl, rfl, hNext⟩

/-
  The rows compile, and over all values of its inputs an
  instance follows them.
-/
theorem run_follows :
    ∃ u, VvpUdpSeq.compileTable n rows = some u ∧
      ∀ (init : UdpLevel) (events : List (Nat × VvpBit4)), (∀ event ∈ events, event.1 < n) →
        ∃ core, events.foldlM (fun (core : VvpUdpFunCore) event =>
            core.recvVec4FromInputs event.1 event.2) (.new u init.toBit) = some core ∧
          InStep n core (events.foldl (udpStep n rows) (init, fun _ => .x)) := by
  have hLoop : ∀ (events : List (Nat × VvpBit4)) core st,
      Compiled n rows core.def_ → InStep n core st → (∀ event ∈ events, event.1 < n) →
      ∃ core', events.foldlM (fun (core : VvpUdpFunCore) event =>
          core.recvVec4FromInputs event.1 event.2) core = some core' ∧
        InStep n core' (events.foldl (udpStep n rows) st) := by
    intro events
    induction events with
    | nil => exact fun core st _ hIn _ => ⟨core, rfl, hIn⟩
    | cons event events ih =>
      intro core st hU hIn hAll
      rcases recvVec4FromInputs_spec hn h hAgree hU hIn (hAll event (List.mem_cons_self ..)) with
        ⟨core', hStep, hDef, hIn'⟩
      rw [foldlM_cons, hStep]
      exact ih core' _ (hDef ▸ hU) hIn' (fun e he => hAll e (List.mem_cons_of_mem event he))
  rcases compileTable_spec (by omega : n < 64) h with ⟨u, hU, hCompiled⟩
  refine ⟨u, hU, fun init events hPorts => hLoop events _ _ hCompiled ⟨rfl, ?_⟩ hPorts⟩
  change (UdpLevelsTable.initial u.port_count).Holds n _
  rw [hCompiled.ports]
  exact initial_holds

end

/- The clock of a flip-flop comes up from z over 0, with the
   data at 1. -/
theorem run_follows_flipFlop :
    ∃ u core, VvpUdpSeq.compileTable 2 flipFlop = some u ∧
      [(0, VvpBit4.z), (0, .zero), (1, .one), (0, .one)].foldlM
        (fun (core : VvpUdpFunCore) event => core.recvVec4FromInputs event.1 event.2)
        (.new u .x) = some core ∧
      core.cur_out = .one := by
  rcases @run_follows 2 flipFlop (by decide) flipFlop_wellFormed flipFlop_agree with ⟨u, hU, hRuns⟩
  rcases hRuns .x [(0, .z), (0, .zero), (1, .one), (0, .one)] (by decide) with ⟨core, hRun, hIn⟩
  exact ⟨u, core, hU, hRun, hIn.output.trans (by decide)⟩

end EpicSim
