import EpicSim.Lib.QuaternaryTree
import EpicSim.Vvp.Strength
import EpicSim.Vvp.Vector8
import Mathlib.Tactic.IntervalCases

/-
  The net resolver `resolv_tri`.

  The resolver keeps one array: the port values, then every
  level of the quaternary tree, then the root, into which the
  pull of the net is resolved in place.  `recvVec8` updates
  one port and walks its path to the root, stopping early
  where nothing changes.
-/

----
-- The Resolver
----

namespace EpicSim

open QuaternaryTree

/- One resolver node with its flattened tree of values. -/
structure ResolvTri where
  nports_ : Nat
  hizValue_ : VvpScalar
  val_ : List VvpVector8
deriving Repr

namespace ResolvTri

/-
  Nodes of the intermediate levels, counted by the loop of
  the constructor.
-/
def branchNodes (nports : Nat) : Nat :=
  if 4 < nports then
    (nports + 3) / 4 + branchNodes ((nports + 3) / 4)
  else 0
termination_by nports
decreasing_by omega

/- Number of array entries the constructor allocates. -/
def nodeCount (nports : Nat) : Nat :=
  let nnodes := nports + branchNodes nports
  if 1 < nnodes then nnodes + 1 else nnodes

/- The constructor: an array of nil vectors. -/
def new (nports : Nat) (hizValue : VvpScalar) : ResolvTri where
  nports_ := nports
  hizValue_ := hizValue
  val_ := List.replicate (nodeCount nports) VvpVector8.nil

/- One step of the group loop: ports not yet driven are skipped. -/
def combine (out v : VvpVector8) : VvpVector8 :=
  if v.size = 0 then out
  else if out.size = 0 then v
  else VvpVector8.resolve out v

/- The assertion of `resolve` on the sizes of its operands. -/
def sizesAgree (out v : VvpVector8) : Prop :=
  v.size = 0 ∨ out.size = 0 ∨ out.size = v.size

instance (out v : VvpVector8) : Decidable (sizesAgree out v) := by
  unfold sizesAgree
  infer_instance

/-
  The group loop from node `ip`, with `n` nodes left.  Every
  read is checked against the bounds of the array, every
  resolution against the sizes.
-/
def resolveGroup (val : List VvpVector8) (ip : Nat) (out : VvpVector8) : Nat → Option VvpVector8
| 0 => some out
| n + 1 =>
  match val[ip]? with
  | none => none
  | some v =>
    if sizesAgree out v then
      resolveGroup val (ip + 1) (combine out v) n
    else none

/-
  The walk from the leaf level to the root.  The result is
  the array and, when the root was reached, the final node
  index and port; an early return gives `none` instead.
-/
def walk (val : List VvpVector8) (base span port : Nat) :
    Option (List VvpVector8 × Option (Nat × Nat)) :=
  if 1 < span then
    let nextBase := base + span
    let ip := base + (port - port % 4)
    let op := nextBase + port / 4
    let ll := min (ip + 4) nextBase
    match val[ip]? with
    | none => none
    | some first =>
      match resolveGroup val (ip + 1) first
          (ll - (ip + 1)) with
      | none => none
      | some out =>
        match val[op]? with
        | none => none
        | some cur =>
          if cur = out then some (val, none)
          else
            walk (val.set op out) nextBase ((span + 3) / 4) (port / 4)
  else
    some (val, some (base, port))
termination_by span
decreasing_by omega

/-
  `recv_vec8_`: the new state and the vector sent on the
  output net, if any.  `none` stands for a failed assertion
  or an index outside the array.
-/
def recvVec8 (s : ResolvTri) (port : Nat) (bit : VvpVector8) :
    Option (ResolvTri × Option VvpVector8) :=
  if port < s.nports_ then
    match s.val_[port]? with
    | none => none
    | some baseVal =>
      if baseVal = bit then some (s, none)
      else
        match walk (s.val_.set port bit) 0 s.nports_ port with
        | none => none
        | some (val, none) => some ({ s with val_ := val }, none)
        | some (val, some (base, port)) =>
          match val[base]? with
          | none => none
          | some root =>
            if s.hizValue_.isHiz then
              some ({ s with val_ := val }, some root)
            else
              let pulled := root.map
                (fun bit => bit.resolve s.hizValue_)
              let val := val.set base pulled
              if base = port ∧ pulled = baseVal then
                some ({ s with val_ := val }, none)
              else
                some ({ s with val_ := val }, some pulled)
  else none

/-
  A sequence of receptions, with the value the output net
  last carried.
-/
def run (s : ResolvTri) (sent : VvpVector8) :
    List (Nat × VvpVector8) → Option (ResolvTri × VvpVector8)
| [] => some (s, sent)
| (port, bit) :: calls =>
  match s.recvVec8 port bit with
  | none => none
  | some (s', none) => s'.run sent calls
  | some (s', some out) => s'.run out calls

end ResolvTri

end EpicSim

----
-- Contents Of The Array
----

namespace EpicSim

open QuaternaryTree

namespace ResolvTri

/- The value sent for a resolved vector. -/
def pull (hizValue : VvpScalar) (v : VvpVector8) : VvpVector8 :=
  if hizValue.isHiz then v
  else v.map (fun bit => bit.resolve hizValue)

/- The tree of a port list with the unmodified root. -/
def rawTree (ports : List VvpVector8) : List VvpVector8 :=
  if 1 < ports.length then
    ports ++ rawTree (level combine ports)
  else ports
termination_by ports.length
decreasing_by exact level_length_lt combine ‹_›

/- The tree of a port list with the pull applied to the root. -/
def pulledTree (hizValue : VvpScalar) (ports : List VvpVector8) : List VvpVector8 :=
  if 1 < ports.length then
    ports ++ pulledTree hizValue (level combine ports)
  else ports.map (pull hizValue)
termination_by ports.length
decreasing_by exact level_length_lt combine ‹_›

/- The bottom-up fold of the port values. -/
def resolved (ports : List VvpVector8) : VvpVector8 :=
  (treeFold combine ports).getD VvpVector8.nil

variable {ports : List VvpVector8} {width : Nat}

theorem pulledTree_of_one_lt (hizValue : VvpScalar)
    (h : 1 < ports.length) :
    pulledTree hizValue ports = ports ++ pulledTree hizValue (level combine ports) := by
  rw [pulledTree, if_pos h]

@[simp] theorem pulledTree_singleton (hizValue : VvpScalar) (v : VvpVector8) :
    pulledTree hizValue [v] = [pull hizValue v] := by
  rw [pulledTree]
  simp

theorem rawTree_of_one_lt (h : 1 < ports.length) :
    rawTree ports = ports ++ rawTree (level combine ports) := by
  rw [rawTree, if_pos h]

@[simp] theorem rawTree_singleton (v : VvpVector8) : rawTree [v] = [v] := by
  rw [rawTree]
  simp

@[simp] theorem resolved_singleton (v : VvpVector8) : resolved [v] = v := by
  simp [resolved]

theorem resolved_of_one_lt (h : 1 < ports.length) :
    resolved ports = resolved (level combine ports) := by
  rw [resolved, treeFold_of_one_lt combine h, resolved]

/- The raw tree is the pulled tree up to its last entry. -/
theorem rawTree_eq (hizValue : VvpScalar) (h : ports ≠ []) :
    ∃ inner,
      rawTree ports = inner ++ [resolved ports] ∧
        pulledTree hizValue ports = inner ++ [pull hizValue (resolved ports)] := by
  induction ports using rawTree.induct with
  | case1 ports hLong ih =>
    have hLevel : level combine ports ≠ [] := by
      intro hNil
      have hLength := level_length combine ports
      rw [hNil, List.length_nil] at hLength
      omega
    rcases ih hLevel with ⟨inner, hRaw, hPulled⟩
    refine ⟨ports ++ inner, ?_, ?_⟩
    · rw [rawTree_of_one_lt hLong, hRaw, resolved_of_one_lt hLong, List.append_assoc]
    · rw [pulledTree_of_one_lt hizValue hLong, hPulled, resolved_of_one_lt hLong, List.append_assoc]
  | case2 ports hShort =>
    cases ports with
    | nil => exact absurd rfl h
    | cons v rest =>
      cases rest with
      | nil => exact ⟨[], by simp, by simp⟩
      | cons w rest => simp at hShort

/- The constructor allocates exactly the nodes of the tree. -/
theorem pulledTree_length (hizValue : VvpScalar) (h : ports ≠ []) :
    (pulledTree hizValue ports).length = nodeCount ports.length := by
  induction ports using rawTree.induct with
  | case1 ports hLong ih =>
    have hLevelLength := level_length combine ports
    have hLevel : level combine ports ≠ [] := by grind
    rw [pulledTree_of_one_lt hizValue hLong, List.length_append, ih hLevel, hLevelLength]
    by_cases hFour : 4 < ports.length
    · have hBranch :
          branchNodes ports.length =
            (ports.length + 3) / 4 + branchNodes ((ports.length + 3) / 4) := by
        rw [branchNodes, if_pos hFour]
      simp only [nodeCount]
      split_ifs <;> omega
    · have hOne : (ports.length + 3) / 4 = 1 := by omega
      have hBranchOne : branchNodes 1 = 0 := by
        rw [branchNodes]
        simp
      have hBranch : branchNodes ports.length = 0 := by rw [branchNodes, if_neg hFour]
      simp only [nodeCount, hOne]
      split_ifs <;> omega
  | case2 ports hShort =>
    cases ports with
    | nil => exact absurd rfl h
    | cons v rest =>
      cases rest with
      | nil =>
        have hBranchOne : branchNodes 1 = 0 := by
          rw [branchNodes]
          simp
        simp [nodeCount, hBranchOne]
      | cons w rest => simp at hShort

----
-- One Level Of The Walk
----

/- A vector that is nil or has `width` scalars. -/
def Fits (width : Nat) (v : VvpVector8) : Prop :=
  v.size = 0 ∨ v.size = width

theorem combine_fits (out v : VvpVector8) (hOut : Fits width out)
    (hv : Fits width v) : Fits width (combine out v) := by
  unfold combine
  split_ifs with hNil hOutNil
  · exact hOut
  · exact hv
  · right
    rw [VvpVector8.size, VvpVector8.resolve_length]
    simp only [Fits, VvpVector8.size] at *
    omega

theorem sizesAgree_of_fits {out v : VvpVector8} (hOut : Fits width out)
    (hv : Fits width v) : sizesAgree out v := by
  simp only [Fits, sizesAgree] at *
  omega

/- The group loop folds the next entries of the array. -/
theorem resolveGroup_eq (pre group post : List VvpVector8)
    (out : VvpVector8) (hGroup : ∀ v ∈ group, Fits width v) (hOut : Fits width out) :
    resolveGroup (pre ++ group ++ post) pre.length out group.length =
      some (group.foldl combine out) := by
  induction group generalizing pre out with
  | nil => simp [resolveGroup]
  | cons v group ih =>
    rw [List.forall_mem_cons] at hGroup
    have hRead :
        (pre ++ v :: group ++ post)[pre.length]? = some v := by
      simp
    rw [List.length_cons, resolveGroup, hRead]
    simp only [sizesAgree_of_fits hOut hGroup.1]
    have hShift :
        pre ++ v :: group ++ post = (pre ++ [v]) ++ group ++ post := by
      simp
    have hLength :
        pre.length + 1 = (pre ++ [v]).length := by
      simp
    rw [hShift, hLength]
    exact ih (pre ++ [v]) (combine out v) hGroup.2 (combine_fits out v hOut hGroup.1)

/- The group of a port, read from the array. -/
theorem resolveGroup_level (pre l post : List VvpVector8)
    (hFits : ∀ v ∈ l, Fits width v) {port : Nat} (hPort : port < l.length) :
    ∃ first out,
      (pre ++ l ++ post)[pre.length + (port - port % 4)]? = some first ∧
        resolveGroup (pre ++ l ++ post)
            (pre.length + (port - port % 4) + 1) first
            (min (pre.length + (port - port % 4) + 4) (pre.length + l.length) -
              (pre.length + (port - port % 4) + 1)) =
          some out ∧
        groupFold combine (l.drop (4 * (port / 4))) = some out := by
  have hStart : port - port % 4 = 4 * (port / 4) := by omega
  rw [hStart]
  generalize hq : 4 * (port / 4) = q
  have hqLt : q < l.length := by omega
  cases hDrop : l.drop q with
  | nil =>
    have := List.length_drop (i := q) (l := l)
    rw [hDrop, List.length_nil] at this
    omega
  | cons first tail =>
    have hDropFits : ∀ v ∈ first :: tail, Fits width v := by grind
    rw [List.forall_mem_cons] at hDropFits
    have hTail : tail.length = l.length - q - 1 := by
      have := List.length_drop (i := q) (l := l)
      rw [hDrop, List.length_cons] at this
      omega
    have hSplit :
        pre ++ l ++ post =
          (pre ++ l.take q ++ [first]) ++ tail.take 3 ++ (tail.drop 3 ++ post) := by
      conv_lhs => rw [← List.take_append_drop q l, hDrop]
      simp only [List.append_assoc, List.cons_append, List.nil_append]
      rw [← List.append_assoc (tail.take 3), List.take_append_drop]
    have hPreLength :
        (pre ++ l.take q ++ [first]).length = pre.length + q + 1 := by
      simp
      omega
    have hCount :
        min (pre.length + q + 4) (pre.length + l.length) - (pre.length + q + 1) =
          (tail.take 3).length := by
      rw [List.length_take]
      omega
    refine ⟨first, (tail.take 3).foldl combine first, ?_, ?_, rfl⟩
    · rw [hSplit]
      have hTake : (l.take q).length = q := List.length_take_of_le hqLt.le
      simp [hTake]
    · rw [hSplit, hCount, ← hPreLength]
      refine resolveGroup_eq _ _ _ first ?_ hDropFits.1
      intro v hv
      exact hDropFits.2 v (List.mem_of_mem_take hv)

end ResolvTri

end EpicSim

----
-- The Walk Restores The Tree
----

namespace EpicSim

open QuaternaryTree

namespace ResolvTri

/- The outcomes of a walk that started at a changed entry. -/
def WalkRestores (hizValue : VvpScalar) (pre l l' : List VvpVector8)
    (outcome : Option (List VvpVector8 × Option (Nat × Nat))) : Prop :=
  (outcome = some (pre ++ pulledTree hizValue l', none) ∧
      pull hizValue (resolved l') = pull hizValue (resolved l)) ∨
    ∃ base,
      outcome = some (pre ++ rawTree l', some (base, 0)) ∧ base + 1 = (pre ++ rawTree l').length

/- The array while the walk stands at the level `l'`. -/
def walkArray (hizValue : VvpScalar) (pre l l' : List VvpVector8) : List VvpVector8 :=
  if 1 < l.length then
    pre ++ l' ++ pulledTree hizValue (level combine l)
  else pre ++ l'

/-
  From a level whose entry `port` has just been replaced, the
  walk either reaches the root with the whole tree rebuilt,
  or returns early and leaves the tree of the new ports
  behind, with an unchanged pulled root.  Induction on the
  level, one turn of the loop per case.
-/
theorem walk_restores (hizValue : VvpScalar)
    (hPull : ∀ v, pull hizValue (pull hizValue v) = pull hizValue v)
    {width : Nat} (l : List VvpVector8) (hFits : ∀ v ∈ l, Fits width v) :
    ∀ (pre : List VvpVector8) (port : Nat) (x : VvpVector8),
      port < l.length → Fits width x →
        WalkRestores hizValue pre l (l.set port x)
          (walk (walkArray hizValue pre l (l.set port x)) pre.length l.length port) := by
  induction l using rawTree.induct with
  | case1 l hLong ih =>
    intro pre port x hPort hx
    have hSetFits : ∀ v ∈ l.set port x, Fits width v := by grind
    have hSetLong : 1 < (l.set port x).length := by rwa [List.length_set]
    have hSetPort : port < (l.set port x).length := by rwa [List.length_set]
    have hLevelLength := level_length combine l
    have hOpLt : port / 4 < (level combine l).length := by omega
    rcases resolveGroup_level pre (l.set port x)
        (pulledTree hizValue (level combine l))
        hSetFits hSetPort with
      ⟨first, out, hFirst, hGroup, hFold⟩
    have hOut : Fits width out := by
      refine groupFold_forall combine_fits ?_ hFold
      intro v hv
      exact hSetFits v (List.mem_of_mem_drop hv)
    have hLevelSet : level combine (l.set port x) = (level combine l).set (port / 4) out :=
      level_set combine l hPort x out hFold
    have hArray :
        walkArray hizValue pre l (l.set port x) =
          pre ++ l.set port x ++ pulledTree hizValue (level combine l) := by
      rw [walkArray, if_pos hLong]
    have hNewTree :
        pulledTree hizValue (l.set port x) =
          l.set port x ++ pulledTree hizValue ((level combine l).set (port / 4) out) := by
      rw [pulledTree_of_one_lt hizValue hSetLong, hLevelSet]
    have hNewRaw :
        rawTree (l.set port x) =
          l.set port x ++ rawTree ((level combine l).set (port / 4) out) := by
      rw [rawTree_of_one_lt hSetLong, hLevelSet]
    have hNewRoot :
        resolved (l.set port x) = resolved ((level combine l).set (port / 4) out) := by
      rw [resolved_of_one_lt hSetLong, hLevelSet]
    have hOldRoot := resolved_of_one_lt hLong
    have hBase :
        (pre ++ l.set port x).length = pre.length + l.length := by
      simp
    rw [hArray]
    rw [List.length_set] at hGroup
    -- what the next level looks like, one entry or more
    by_cases hNext : 1 < (level combine l).length
    · have hSplit := pulledTree_of_one_lt hizValue hNext
      obtain ⟨cur, hCur⟩ : ∃ cur, (level combine l)[port / 4]? = some cur :=
        ⟨_, List.getElem?_eq_getElem hOpLt⟩
      have hRead :
          (pre ++ l.set port x ++ pulledTree hizValue (level combine l))[
            pre.length + l.length + port / 4]? = some cur := by
        rw [List.getElem?_append_right (by simp), hBase, Nat.add_sub_cancel_left, hSplit,
          List.getElem?_append_left hOpLt, hCur]
      rw [walk]
      simp only [hFirst, hGroup, hRead]
      split_ifs with hSame
      · left
        have hUnchanged :
            (level combine l).set (port / 4) out = level combine l := by
          rw [← hSame]
          apply List.ext_getElem?
          intro j
          by_cases hj : port / 4 = j
          · subst hj
            rw [List.getElem?_set_self hOpLt, hCur]
          · rw [List.getElem?_set_ne hj]
        grind
      · have hStep := ih (level_forall combine_fits hFits)
          (pre ++ l.set port x) (port / 4) out hOpLt hOut
        have hStepArray :
            walkArray hizValue (pre ++ l.set port x)
                (level combine l)
                ((level combine l).set (port / 4) out) =
              (pre ++ l.set port x ++
                pulledTree hizValue (level combine l)).set
                  (pre.length + l.length + port / 4) out := by
          rw [walkArray, if_pos hNext, List.set_append, if_neg (by rw [hBase]; omega),
            hBase, Nat.add_sub_cancel_left, hSplit, List.set_append, if_pos hOpLt]
          simp
        rw [hStepArray, hBase, hLevelLength] at hStep
        rcases hStep with ⟨hRun, hRoot⟩ | ⟨base, hRun, hLast⟩
        · left
          grind
        · right
          grind
    · obtain ⟨root, hLevel⟩ : ∃ root, level combine l = [root] :=
        List.length_eq_one_iff.mp (by omega)
      have hOp : port / 4 = 0 := by
        rw [hLevel] at hOpLt
        simpa using hOpLt
      have hSpan : (l.length + 3) / 4 = 1 := by
        rw [← hLevelLength, hLevel]
        rfl
      rw [hLevel, hOp] at hNewTree hNewRaw hNewRoot
      rw [hLevel] at hOldRoot
      simp only [List.set_cons_zero, pulledTree_singleton, resolved_singleton]
        at hNewTree hNewRaw hNewRoot hOldRoot
      have hRead :
          (pre ++ l.set port x ++ [pull hizValue root])[
            pre.length + l.length + 0]? = some (pull hizValue root) := by
        simp
      rw [walk]
      simp only [hLevel, pulledTree_singleton] at hFirst hGroup
      simp only [hLevel, pulledTree_singleton, hOp, hFirst, hGroup, hRead]
      split_ifs with hSame
      · left
        rw [hNewTree, hNewRoot, hOldRoot, ← hSame]
        exact ⟨by rw [hPull, List.append_assoc], hPull root⟩
      · right
        refine ⟨pre.length + l.length, ?_, ?_⟩
        · rw [walk, if_neg (by omega), hNewRaw]
          simp
        · rw [hNewRaw]
          simp
          omega
  | case2 l hShort =>
    intro pre port x hPort _
    have hOne : l.length = 1 := by omega
    obtain ⟨v, rfl⟩ := List.length_eq_one_iff.mp hOne
    have hPortZero : port = 0 := by simpa using hPort
    subst hPortZero
    right
    refine ⟨pre.length, ?_, by simp⟩
    rw [walkArray, walk]
    simp

end ResolvTri

end EpicSim

----
-- One Reception
----

namespace EpicSim

open VvpScalar (def0 def1 unambig resolve_unambig_twice)
open QuaternaryTree

/- No pull, or an unambiguous pull of some strength. -/
def VvpScalar.IsPull (hizValue : VvpScalar) : Prop :=
  hizValue.isHiz = true ∨ ∃ str, hizValue = def0 str ∨ hizValue = def1 str

namespace ResolvTri

theorem unambig_pull :
    ∀ str : Fin 8, unambig (def0 str).value_ = true ∧ unambig (def1 str).value_ = true := by
  decide

theorem pull_pull {hizValue : VvpScalar} (hPull : hizValue.IsPull) (v : VvpVector8) :
    pull hizValue (pull hizValue v) = pull hizValue v := by
  unfold pull
  split_ifs with hHiz
  · rfl
  · rw [List.map_map]
    apply List.map_congr_left
    intro bit _
    rcases hPull with h | ⟨str, h | h⟩
    · exact absurd h hHiz
    · subst h
      exact resolve_unambig_twice (unambig_pull str).1 bit
    · subst h
      exact resolve_unambig_twice (unambig_pull str).2 bit

/- The array holds the tree of these port values. -/
structure Holds (s : ResolvTri) (ports : List VvpVector8) :
    Prop where
  nports : s.nports_ = ports.length
  tree : s.val_ = pulledTree s.hizValue_ ports

section

variable {s : ResolvTri} (hPull : s.hizValue_.IsPull) {ports : List VvpVector8}
  (hHolds : s.Holds ports) {width port : Nat} (hFits : ∀ v ∈ ports, Fits width v)
  (hPort : port < ports.length) {bit : VvpVector8} (hBit : Fits width bit)

include hPull hHolds hFits hPort hBit

/-
  A reception that changes the port: once the walk is over,
  either it returned early or the root is still to be pulled.
-/
theorem recvVec8_of_ne {baseVal : VvpVector8}
    (hBase : s.val_[port]? = some baseVal) (hNe : baseVal ≠ bit) :
    ∃ out,
      s.recvVec8 port bit =
          some ({ s with val_ := pulledTree s.hizValue_ (ports.set port bit) }, out) ∧
        out.getD (pull s.hizValue_ (resolved ports)) =
          pull s.hizValue_ (resolved (ports.set port bit)) := by
  have hNonempty : ports.set port bit ≠ [] := by
    rw [← List.length_pos_iff, List.length_set]
    omega
  have hSetArray :
      s.val_.set port bit = walkArray s.hizValue_ [] ports (ports.set port bit) := by
    rw [hHolds.tree, walkArray]
    split_ifs with hLong
    · rw [pulledTree_of_one_lt _ hLong, List.nil_append, List.set_append, if_pos hPort]
    · obtain ⟨v, rfl⟩ :=
        List.length_eq_one_iff.mp (by omega : ports.length = 1)
      have hPortZero : port = 0 := by simpa using hPort
      subst hPortZero
      simp
  have hWalk := walk_restores s.hizValue_ (pull_pull hPull) ports hFits [] port bit hPort hBit
  rw [← hSetArray] at hWalk
  rw [recvVec8, if_pos (by rw [hHolds.nports]; exact hPort)]
  simp only [hBase, if_neg hNe, hHolds.nports]
  simp only [WalkRestores, List.length_nil, List.nil_append] at hWalk
  rcases hWalk with ⟨hRun, hRoot⟩ | ⟨base, hRun, hLast⟩
  · rw [hRun]
    exact ⟨none, rfl, hRoot.symm⟩
  · rcases rawTree_eq s.hizValue_ hNonempty with ⟨inner, hRaw, hPulled⟩
    have hInner : base = inner.length := by grind
    have hRead :
        (rawTree (ports.set port bit))[base]? = some (resolved (ports.set port bit)) := by
      rw [hRaw, hInner]
      simp
    rw [hRun]
    simp only [hRead]
    by_cases hHiz : s.hizValue_.isHiz = true
    · have hNoPull : ∀ v, pull s.hizValue_ v = v := by
        intro v
        rw [pull, if_pos hHiz]
      rw [if_pos hHiz]
      refine ⟨some (resolved (ports.set port bit)), ?_, ?_⟩
      · rw [hPulled, hRaw, hNoPull]
      · rw [Option.getD_some, hNoPull]
    · have hMap :
          (resolved (ports.set port bit)).map (fun bit => bit.resolve s.hizValue_) =
            pull s.hizValue_ (resolved (ports.set port bit)) := by
        rw [pull, if_neg hHiz]
      have hArray :
          (rawTree (ports.set port bit)).set base
              (pull s.hizValue_ (resolved (ports.set port bit))) =
            pulledTree s.hizValue_ (ports.set port bit) := by
        rw [hRaw, hPulled, hInner]
        simp
      simp only [hMap, hArray]
      split_ifs with hSame
      · -- only a single port is also its own root
        refine ⟨none, rfl, ?_⟩
        have hOne : ports.length = 1 := by
          rcases Nat.lt_or_ge 1 ports.length with hLong | hShort
          · exfalso
            have hLong' : 1 < (ports.set port bit).length := by rwa [List.length_set]
            have hLength := congrArg List.length (rawTree_of_one_lt hLong')
            rw [List.length_append] at hLength
            omega
          · omega
        obtain ⟨v, rfl⟩ := List.length_eq_one_iff.mp hOne
        have hPortZero : port = 0 := by simpa using hPort
        subst hPortZero
        rw [hHolds.tree, pulledTree_singleton] at hBase
        simp only [List.getElem?_cons_zero, Option.some_inj] at hBase
        rw [resolved_singleton, hBase]
        exact hSame.2.symm
      · exact ⟨some (pull s.hizValue_ (resolved (ports.set port bit))), rfl, rfl⟩

/- One reception keeps the tree and the value last sent. -/
theorem recvVec8_spec :
    ∃ out,
      s.recvVec8 port bit =
          some ({ s with val_ := pulledTree s.hizValue_ (ports.set port bit) }, out) ∧
        out.getD (pull s.hizValue_ (resolved ports)) =
          pull s.hizValue_ (resolved (ports.set port bit)) := by
  have hNonempty : ports ≠ [] := by
    rw [← List.length_pos_iff]
    omega
  have hIndex : port < s.val_.length := by
    rw [hHolds.tree, pulledTree_length _ hNonempty, nodeCount]
    split_ifs <;> omega
  have hBase : s.val_[port]? = some s.val_[port] := List.getElem?_eq_getElem hIndex
  by_cases hSame : s.val_[port] = bit
  · -- the leaf is unchanged: nothing is recomputed
    have hRecv : s.recvVec8 port bit = some (s, none) := by
      rw [recvVec8, if_pos (by rw [hHolds.nports]; exact hPort)]
      simp only [hBase, if_pos hSame]
    rw [hRecv]
    rw [hSame, hHolds.tree] at hBase
    have hTree :
        pulledTree s.hizValue_ (ports.set port bit) = s.val_ ∧
          pull s.hizValue_ (resolved (ports.set port bit)) = pull s.hizValue_ (resolved ports) := by
      rcases Nat.lt_or_ge 1 ports.length with hLong | hShort
      · rw [pulledTree_of_one_lt _ hLong, List.getElem?_append_left hPort] at hBase
        have hSet : ports.set port bit = ports := by
          rw [List.getElem?_eq_some_iff] at hBase
          rcases hBase with ⟨hLt, hEq⟩
          rw [← hEq, List.set_getElem_self]
        rw [hSet, hHolds.tree]
        exact ⟨rfl, rfl⟩
      · obtain ⟨v, rfl⟩ :=
          List.length_eq_one_iff.mp (by omega : ports.length = 1)
        have hPortZero : port = 0 := by simpa using hPort
        subst hPortZero
        rw [pulledTree_singleton] at hBase
        simp only [List.getElem?_cons_zero, Option.some_inj] at hBase
        rw [hHolds.tree, ← hBase]
        simp [pull_pull hPull]
    refine ⟨none, ?_, hTree.2.symm⟩
    rw [hTree.1]
  · exact recvVec8_of_ne hPull hHolds hFits hPort hBit hBase hSame

end

end ResolvTri

end EpicSim

----
-- Runs
----

namespace EpicSim

open VvpScalar (def0 def1 hiz)
open List (replicate length_replicate)
open QuaternaryTree

namespace ResolvTri

/- The current value of every port after a run. -/
def portValues (ports : List VvpVector8) (calls : List (Nat × VvpVector8)) : List VvpVector8 :=
  calls.foldl (fun ports call => ports.set call.1 call.2) ports

@[simp] theorem portValues_nil (ports : List VvpVector8) : portValues ports [] = ports := rfl

@[simp] theorem portValues_cons (ports : List VvpVector8) (call : Nat × VvpVector8)
    (calls : List (Nat × VvpVector8)) :
    portValues ports (call :: calls) = portValues (ports.set call.1 call.2) calls := rfl

/- A fold of nil vectors is nil. -/
theorem combine_nil (out v : VvpVector8) : out = [] → v = [] → combine out v = [] := by
  rintro rfl rfl
  rfl

theorem level_combine_nil (n : Nat) :
    level combine (replicate n VvpVector8.nil) = replicate ((n + 3) / 4) VvpVector8.nil := by
  rw [List.eq_replicate_iff]
  refine ⟨by rw [level_length, length_replicate], ?_⟩
  exact level_forall combine_nil (fun v hv => List.eq_of_mem_replicate hv)

@[simp] theorem pull_nil (hizValue : VvpScalar) :
    pull hizValue VvpVector8.nil = VvpVector8.nil := by
  simp [pull, VvpVector8.nil]

/- Before any reception every node is nil. -/
theorem pulledTree_replicate_nil (hizValue : VvpScalar) (n : Nat) :
    (∀ v ∈ pulledTree hizValue (replicate n VvpVector8.nil),
      v = VvpVector8.nil) ∧
      resolved (replicate n VvpVector8.nil) = VvpVector8.nil := by
  induction n using Nat.strong_induction_on with
  | _ n ih =>
    rcases Nat.lt_or_ge 1 n with hLong | hShort
    · have hLong' :
          1 < (replicate n VvpVector8.nil).length := by
        simpa using hLong
      rw [pulledTree_of_one_lt hizValue hLong', resolved_of_one_lt hLong', level_combine_nil]
      grind
    · interval_cases n
      · rw [pulledTree, resolved]
        simp
      · simp

/- The constructor builds the tree of nil ports. -/
theorem new_holds (nports : Nat) (hizValue : VvpScalar) (h : 1 ≤ nports) :
    (new nports hizValue).Holds (replicate nports VvpVector8.nil) where
  nports := by simp [new]
  tree := by
    have hNonempty :
        replicate nports VvpVector8.nil ≠ [] := by
      rw [← List.length_pos_iff, length_replicate]
      omega
    symm
    simp only [new]
    rw [List.eq_replicate_iff, pulledTree_length hizValue hNonempty, length_replicate]
    exact ⟨rfl, (pulledTree_replicate_nil hizValue nports).1⟩

/- A run from a tree of port values. -/
theorem run_of_holds (calls : List (Nat × VvpVector8)) {s : ResolvTri}
    (hPull : s.hizValue_.IsPull) {ports : List VvpVector8}
    (hHolds : s.Holds ports) {width : Nat} (hFits : ∀ v ∈ ports, Fits width v)
    (hCalls : ∀ call ∈ calls, call.1 < ports.length ∧ call.2.size = width) :
    s.run (pull s.hizValue_ (resolved ports)) calls =
      some ({ s with
          val_ := pulledTree s.hizValue_ (portValues ports calls) },
        pull s.hizValue_ (resolved (portValues ports calls))) := by
  induction calls generalizing s ports with
  | nil => rw [run, portValues_nil, ← hHolds.tree]
  | cons call calls ih =>
    rw [List.forall_mem_cons] at hCalls
    rcases hCalls with ⟨⟨hPort, hSize⟩, hCalls⟩
    rcases recvVec8_spec hPull hHolds hFits hPort (Or.inr hSize) with ⟨out, hRecv, hSent⟩
    have hNext :
        ({ s with
          val_ := pulledTree s.hizValue_ (ports.set call.1 call.2) } : ResolvTri).Holds
          (ports.set call.1 call.2) :=
      ⟨by rw [List.length_set]; exact hHolds.nports, rfl⟩
    have hNextFits :
        ∀ v ∈ ports.set call.1 call.2, Fits width v := by
      intro v hv
      rcases List.mem_or_eq_of_mem_set hv with hv | rfl
      · exact hFits v hv
      · exact Or.inr hSize
    have hNextCalls :
        ∀ call' ∈ calls,
          call'.1 < (ports.set call.1 call.2).length ∧
            call'.2.size = width := by
      rw [List.length_set]
      exact hCalls
    have hStep := ih
      (s := { s with val_ := pulledTree s.hizValue_ (ports.set call.1 call.2) })
      hPull hNext hNextFits hNextCalls
    rw [run, hRecv]
    cases out with
    | none =>
      rw [Option.getD_none] at hSent
      simp only [hSent]
      exact hStep
    | some out =>
      rw [Option.getD_some] at hSent
      simp only [hSent]
      exact hStep

/-
  After any sequence of receptions the array is the tree of
  the current port values and the output net last carried the
  pulled bottom-up fold of these values.  The run succeeds,
  so no index left the array and no assertion failed.
-/
theorem run_correct (nports : Nat) (hPorts : 1 ≤ nports) (hizValue : VvpScalar)
    (hPull : hizValue.IsPull) (width : Nat) (calls : List (Nat × VvpVector8))
    (hCalls : ∀ call ∈ calls, call.1 < nports ∧ call.2.size = width) :
    ∃ s : ResolvTri,
      (new nports hizValue).run VvpVector8.nil calls =
          some (s, pull hizValue (resolved (portValues (replicate nports VvpVector8.nil) calls))) ∧
        s.val_.length = nodeCount nports := by
  have hHolds := new_holds nports hizValue hPorts
  have hFits :
      ∀ v ∈ replicate nports VvpVector8.nil,
        Fits width v := by
    intro v hv
    left
    rw [List.eq_of_mem_replicate hv]
    rfl
  have hPull' : (new nports hizValue).hizValue_.IsPull := hPull
  have hRun := run_of_holds calls hPull' hHolds hFits (by simpa using hCalls)
  have hStart :
      pull hizValue (resolved (replicate nports VvpVector8.nil)) = VvpVector8.nil := by
    rw [(pulledTree_replicate_nil hizValue nports).2, pull_nil]
  have hHizValue : (new nports hizValue).hizValue_ = hizValue := rfl
  rw [hHizValue, hStart] at hRun
  refine ⟨_, hRun, ?_⟩
  have hLength :
      (portValues (replicate nports VvpVector8.nil) calls).length = nports := by
    have hAll :
        ∀ (calls : List (Nat × VvpVector8))
          (ports : List VvpVector8),
          (portValues ports calls).length = ports.length := by
      intro calls
      induction calls with
      | nil => simp
      | cons call calls ih => simp [ih]
    rw [hAll, length_replicate]
  have hNonempty :
      portValues (replicate nports VvpVector8.nil) calls ≠ [] := by
    rw [← List.length_pos_iff]
    omega
  rw [pulledTree_length _ hNonempty, hLength]

/- Three ports with a pull-up, one of them driven twice. -/
theorem run_correct_three :
    ∃ s : ResolvTri,
      (new 3 (def1 5)).run VvpVector8.nil
          [(1, [def0 6]), (2, [hiz]), (1, [hiz])] =
          some (s, [def1 5]) ∧
        s.val_.length = 4 := by
  rcases run_correct 3 (by decide) (def1 5)
      (Or.inr ⟨5, Or.inr rfl⟩) 1
      [(1, [def0 6]), (2, [hiz]), (1, [hiz])] (by decide) with
    ⟨s, hRun, hLength⟩
  refine ⟨s, ?_, ?_⟩
  · have hPorts :
        portValues (replicate 3 VvpVector8.nil)
            [(1, [def0 6]), (2, [hiz]), (1, [hiz])] =
          [[], [hiz], [hiz]] := rfl
    rw [hRun, resolved_of_one_lt (by decide)]
    simp [level]
    decide
  · rw [hLength]
    simp [nodeCount, branchNodes]

end ResolvTri

end EpicSim
