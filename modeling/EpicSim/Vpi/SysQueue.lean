import Mathlib.Algebra.Group.Int.Defs
import Mathlib.Algebra.Group.Nat.Defs
import Mathlib.Data.Int.Notation
import Mathlib.Data.List.Basic

/-
  The queues of the `$q_` system tasks and functions, with
  their circular buffers and their statistics.
-/

namespace EpicSim

----
-- Data
----

/- The two queue types. -/
def IVL_QUEUE_FIFO : Int := 1

def IVL_QUEUE_LIFO : Int := 2

/- The values that a `$q_` task returns as its status. -/
inductive QueueStatus
| OK
| FULL
| UNDEFINED_ID
| EMPTY
| UNSUPPORTED_TYPE
| INVALID_LENGTH
| DUPLICATE_ID
| OUT_OF_MEMORY
| UNDEFINED_STAT_CODE
| NO_STATISTICS
deriving DecidableEq, Repr

def UINT64_MAX : Nat := 2 ^ 64 - 1

/- One word of a four-state vector. -/
structure VpiVecval where
  aval : BitVec 32
  bval : BitVec 32
deriving DecidableEq, Repr

structure QueueElem where
  time : Nat
  job : VpiVecval
  inform : VpiVecval
deriving DecidableEq, Repr

/-
  A queue. The buffer starts uninitialized, and a cell that
  was never written cannot be read.
-/
structure QueueBase where
  shortest_wait_time : Nat
  first_add_time : Nat
  latest_add_time : Nat
  wait_time_high : Nat
  wait_time_low : Nat
  number_of_adds : Nat
  queue : List (Option QueueElem)
  id : Int
  length : Int
  type : Int
  head : Int
  elems : Int
  max_len : Int
  have_shortest_statistic : Bool
deriving DecidableEq, Repr

/- What `create_queue` configures. -/
def createQueue (id type length : Int) : QueueBase where
  queue := List.replicate length.toNat none
  id := id
  length := length
  type := type
  head := 0
  elems := 0
  max_len := 0
  shortest_wait_time := UINT64_MAX
  first_add_time := 0
  latest_add_time := 0
  wait_time_high := 0
  wait_time_low := 0
  number_of_adds := 0
  have_shortest_statistic := false

/- A sum that must fit in a signed 32-bit integer. -/
def addInt32 (a b : Int) : Option Int :=
  if -2 ^ 31 ≤ a + b ∧ a + b < 2 ^ 31 then some (a + b)
  else none

def readElem (queue : List (Option QueueElem)) (loc : Int) : Option QueueElem :=
  if 0 ≤ loc then (queue[loc.toNat]?).join else none

def writeElem (queue : List (Option QueueElem)) (loc : Int)
    (elem : QueueElem) : Option (List (Option QueueElem)) :=
  if 0 ≤ loc ∧ loc.toNat < queue.length then
    some (queue.set loc.toNat (some elem))
  else none

----
-- Total Times
----

/- Add a time to a total of two words. -/
def addToWaitTime (high low c_time : Nat) : Option (Nat × Nat) :=
  let carry := if UINT64_MAX - low < c_time then 1 else 0
  let low := (low + c_time) % 2 ^ 64
  if carry = 0 ∨ high < UINT64_MAX then
    some ((high + carry) % 2 ^ 64, low)
  else none

/-
  The inner loop of `calc_average_wait_time`. The first
  argument is `bit + 1`, and so is the first result.
-/
def shiftTotal (total : Nat) : Nat → Nat → Nat → Bool → Nat × Nat × Nat
| 0, high, low, _ => (0, high, low)
| left + 1, high, low, carry =>
  if high < total ∧ carry = false then
    shiftTotal total left
      ((2 * high + low / 2 ^ 63) % 2 ^ 64)
      (2 * low % 2 ^ 64)
      (decide (UINT64_MAX / 2 < high))
  else (left + 1, high, low)

/-
  The outer loop, which runs as long as there are bits left.
  The first argument bounds the number of its turns.
-/
def averageLoop (total : Nat) : Nat → Nat → Nat → Nat → Nat → Option Nat
| 0, _, _, _, _ => none
| fuel + 1, left, high, low, result =>
  let (left, high, low) := shiftTotal total left high low false
  let (high, result) :=
    if 0 < left then
      ((high + 2 ^ 64 - total) % 2 ^ 64, result ||| 2 ^ (left - 1))
    else (high, result)
  if 1 < left then
    averageLoop total fuel left high low result
  else some result

def calcAverageWaitTime (high low total : Nat) : Option Nat :=
  if total = 0 then none
  else if high = 0 then some (low / total)
  else if high < total then
    averageLoop total 65 65 high low 0
  else none

----
-- Operations
----

def isQueueFull (b : QueueBase) : Bool :=
  if b.elems ≥ b.length then true else false

/-
  The place for a new element. A FIFO queue adds two signed
  32-bit integers.
-/
def addLoc (b : QueueBase) : Option Int :=
  if b.type = IVL_QUEUE_LIFO then
    if b.head = 0 then some b.elems else none
  else if b.type = IVL_QUEUE_FIFO then do
    let loc ← addInt32 b.head b.elems
    if loc ≥ b.length then some (loc - b.length) else some loc
  else none

/- Add an element. The flag says that the queue is full. -/
def addToQueue (b : QueueBase) (job inform : VpiVecval)
    (c_time : Nat) : Option (Bool × QueueBase) :=
  if b.elems ≤ b.length then
    if b.elems = b.length then some (true, b)
    else do
      let loc ← addLoc b
      let queue ← writeElem b.queue loc ⟨c_time, job, inform⟩
      let max_len :=
        if b.max_len = b.elems then b.max_len + 1
        else b.max_len
      if b.number_of_adds < UINT64_MAX then
        let number_of_adds := b.number_of_adds + 1
        let first_add_time :=
          if number_of_adds = 1 then c_time
          else b.first_add_time
        some (false, { b with
          elems := b.elems + 1
          queue := queue
          max_len := max_len
          number_of_adds := number_of_adds
          first_add_time := first_add_time
          latest_add_time := c_time })
      else none
  else none

/- The place of the element to remove, and the next head. -/
def removeLoc (b : QueueBase) : Option (Int × Int) :=
  if b.type = IVL_QUEUE_LIFO then
    if b.head = 0 then some (b.elems - 1, b.head) else none
  else if b.type = IVL_QUEUE_FIFO then
    if b.head + 1 = b.length then some (b.head, 0)
    else some (b.head, b.head + 1)
  else none

/- Remove an element, or nothing from an empty queue. -/
def removeFromQueue (b : QueueBase) (c_time : Nat) :
    Option (Option (VpiVecval × VpiVecval) × QueueBase) :=
  if b.elems - 1 ≥ -1 then
    if b.elems - 1 < 0 then some (none, b)
    else do
      let (loc, head) ← removeLoc b
      let elem ← readElem b.queue loc
      if elem.time ≤ c_time then
        let wait := c_time - elem.time
        let shortest :=
          if wait < b.shortest_wait_time then wait
          else b.shortest_wait_time
        let (high, low) ←
          addToWaitTime b.wait_time_high b.wait_time_low wait
        some (some (elem.job, elem.inform), { b with
          elems := b.elems - 1
          head := head
          shortest_wait_time := shortest
          have_shortest_statistic := true
          wait_time_high := high
          wait_time_low := low })
      else none
  else none

def getLongestQueueTime (b : QueueBase)
    (c_time : Nat) : Option Nat := do
  let elem ← readElem b.queue b.head
  if elem.time ≤ c_time then some (c_time - elem.time)
  else none

def getMeanInterarrivalTime (b : QueueBase) : Nat :=
  (b.latest_add_time - b.first_add_time) / (b.number_of_adds - 1)

/- Add the waits of the elements that are still there. -/
def waitingTotal (b : QueueBase) (c_time : Nat) : Nat → Int → Nat → Nat → Option (Nat × Nat)
| 0, _, high, low => some (high, low)
| count + 1, loc, high, low => do
    let elem ← readElem b.queue loc
    if elem.time ≤ c_time then
      let (high, low) ←
        addToWaitTime high low (c_time - elem.time)
      let loc := if loc + 1 = b.length then 0 else loc + 1
      waitingTotal b c_time count loc high low
    else none

def getAverageWaitTime (b : QueueBase)
    (c_time : Nat) : Option Nat := do
  let (high, low) ← waitingTotal b c_time b.elems.toNat b.head
    b.wait_time_high b.wait_time_low
  calcAverageWaitTime high low b.number_of_adds

----
-- The Tasks
----

/- The first queue with the given id. -/
def getIdIndex (base : List QueueBase) (id : Int) : Option Nat :=
  base.findIdx? fun b => b.id = id

/-
  The calls. An argument with an undefined bit is `none`, and
  `memory` says whether there is enough memory.
-/
inductive QueueCall
| initialise (id type length : Option Int) (memory : Bool)
| add (id : Option Int) (job inform : VpiVecval)
| remove (id : Option Int)
| full (id : Option Int)
| exam (id code : Option Int)

/-
  What a call leaves in its variables: a status, and values
  that are filled with x when there are none.
-/
structure QueueReply where
  status : QueueStatus
  removed : Option (VpiVecval × VpiVecval)
  value : Option Int
deriving DecidableEq, Repr

namespace QueueReply

def only (status : QueueStatus) : QueueReply :=
  ⟨status, none, none⟩

end QueueReply

def sysQInitialize (base : List QueueBase) (id type length : Option Int)
    (memory : Bool) : QueueReply × List QueueBase :=
  match id with
  | none => (.only .UNDEFINED_ID, base)
  | some id =>
    match type with
    | none => (.only .UNSUPPORTED_TYPE, base)
    | some type =>
      if type ≠ IVL_QUEUE_FIFO ∧ type ≠ IVL_QUEUE_LIFO then
        (.only .UNSUPPORTED_TYPE, base)
      else
        match length with
        | none => (.only .INVALID_LENGTH, base)
        | some length =>
          if length ≤ 0 then
            (.only .INVALID_LENGTH, base)
          else if (getIdIndex base id).isSome then
            (.only .DUPLICATE_ID, base)
          else if memory then
            (.only .OK, base ++ [createQueue id type length])
          else (.only .OUT_OF_MEMORY, base)

/- The queue that an argument names, and where it is. -/
def lookupQueue (base : List QueueBase)
    (id : Option Int) : Option (Nat × QueueBase) := do
  let id ← id
  let idx ← getIdIndex base id
  let b ← base[idx]?
  some (idx, b)

/-
  The same for the tasks that keep the index in a signed
  32-bit integer: a negative one means that there is none.
-/
def lookupQueue32 (base : List QueueBase)
    (id : Option Int) : Option (Nat × QueueBase) := do
  let id ← id
  let idx ← getIdIndex base id
  let idx := (BitVec.ofNat 32 idx).toInt
  if idx < 0 then none
  else do
    let b ← base[idx.toNat]?
    some (idx.toNat, b)

def sysQAdd (base : List QueueBase) (id : Option Int) (job inform : VpiVecval)
    (now : Nat) : Option (QueueReply × List QueueBase) :=
  match lookupQueue base id with
  | none => some (.only .UNDEFINED_ID, base)
  | some (idx, b) => do
      let (full, b) ← addToQueue b job inform now
      if full then some (.only .FULL, base.set idx b)
      else some (.only .OK, base.set idx b)

def sysQRemove (base : List QueueBase) (id : Option Int)
    (now : Nat) : Option (QueueReply × List QueueBase) :=
  match lookupQueue32 base id with
  | none => some (.only .UNDEFINED_ID, base)
  | some (idx, b) => do
      match ← removeFromQueue b now with
      | (none, b) => some (.only .EMPTY, base.set idx b)
      | (some pair, b) => some (⟨.OK, some pair, none⟩, base.set idx b)

def sysQFull (base : List QueueBase) (id : Option Int) : QueueReply :=
  match lookupQueue32 base id with
  | none => .only .UNDEFINED_ID
  | some (_, b) => ⟨.OK, none, some (if isQueueFull b then 1 else 0)⟩

/-
  The statistics of a queue. A time is given in units of the
  simulation, before it is scaled for the variable.
-/
def examQueue (b : QueueBase) (code : Int) (now : Nat) : Option QueueReply :=
  let noStatistics := QueueReply.only .NO_STATISTICS
  if code = 1 then some ⟨.OK, none, some b.elems⟩
  else if code = 2 then
    if b.number_of_adds ≥ 2 then
      some ⟨.OK, none, some (getMeanInterarrivalTime b)⟩
    else some noStatistics
  else if code = 3 then some ⟨.OK, none, some b.max_len⟩
  else if code = 4 then
    if b.have_shortest_statistic then
      some ⟨.OK, none, some b.shortest_wait_time⟩
    else some noStatistics
  else if code = 5 then
    if b.elems = 0 then some noStatistics
    else do
      let time ← getLongestQueueTime b now
      some ⟨.OK, none, some time⟩
  else if code = 6 then
    if b.number_of_adds ≥ 1 then do
      let time ← getAverageWaitTime b now
      some ⟨.OK, none, some time⟩
    else some noStatistics
  else none

def sysQExam (base : List QueueBase) (id code : Option Int) (now : Nat) : Option QueueReply :=
  match lookupQueue32 base id with
  | none => some (.only .UNDEFINED_ID)
  | some (_, b) =>
    match code with
    | none => some (.only .UNDEFINED_STAT_CODE)
    | some code =>
      if code ≤ 0 ∨ code > 6 then
        some (.only .UNDEFINED_STAT_CODE)
      else examQueue b code now

namespace QueueCall

/-
  One call at a simulation time. It gives nothing when an
  assertion fails or when C gives it no meaning.
-/
def step (base : List QueueBase) (now : Nat) : QueueCall → Option (QueueReply × List QueueBase)
| initialise id type length memory => some (sysQInitialize base id type length memory)
| add id job inform => sysQAdd base id job inform now
| remove id => sysQRemove base id now
| full id => some (sysQFull base id, base)
| exam id code => do
    let reply ← sysQExam base id code now
    some (reply, base)

/- A sequence of calls, each at its time. -/
def run : List QueueBase → List (Nat × QueueCall) → Option (List QueueReply × List QueueBase)
| base, [] => some ([], base)
| base, (now, call) :: calls => do
    let (reply, base) ← step base now call
    let (replies, base) ← run base calls
    some (reply :: replies, base)

end QueueCall

end EpicSim
