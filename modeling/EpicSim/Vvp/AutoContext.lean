import Mathlib.Data.Finset.Card
import EpicSim.Lib.FanOut

/-
  The contexts of automatic tasks and functions: where the
  threads keep them, what the opcodes of a call do to them,
  and the order in which the compiler emits these opcodes.
-/

namespace EpicSim

open Function (update)

namespace AutoContext

----
-- Threads And Contexts
----

inductive ScopeType
| vpiFunction
| vpiTask
| other
deriving DecidableEq, Repr

/- What does not change about the scopes. -/
structure Scopes (σ : Type) where
  is_automatic : σ → Bool
  type_code : σ → ScopeType

structure VThread (σ γ τ : Type) where
  parent_scope : σ
  parent : Option τ
  children : Finset τ
  task_func_children : Finset τ
  wt_context : Option γ
  rd_context : Option γ
  i_am_joining : Bool
  i_have_ended : Bool

/-
  The first two items of every context link it to others:
  to the next one of a scope's list, and to the one below
  it on a stack. `allocated` are the contexts that a scope
  has had from the allocator.
-/
structure Machine (σ γ τ : Type) where
  live_contexts : σ → Option γ
  free_contexts : σ → Option γ
  next_context : γ → Option γ
  stacked_context : γ → Option γ
  allocated : σ → Finset γ
  threads : τ → Option (VThread σ γ τ)

variable {σ γ τ : Type}

def vthread_new (scope : σ) : VThread σ γ τ where
  parent_scope := scope
  parent := none
  children := ∅
  task_func_children := ∅
  wt_context := none
  rd_context := none
  i_am_joining := false
  i_have_ended := false

variable [DecidableEq σ] [DecidableEq γ] [DecidableEq τ]
  (sc : Scopes σ)

namespace Machine

variable (m : Machine σ γ τ)

def setThread (t : τ) (thr : Option (VThread σ γ τ)) : Machine σ γ τ :=
  { m with threads := update m.threads t thr }

def setStacked (context : γ) (stack : Option γ) : Machine σ γ τ :=
  { m with stacked_context := update m.stacked_context context stack }

/-
  The allocator gives the address `fresh` when the scope has
  no free context. Where an assertion fails there is no
  result.
-/
def vthread_alloc_context (scope : σ) (fresh : γ) : Option (γ × Machine σ γ τ) :=
  if sc.is_automatic scope then
    let (context, m) :=
      match m.free_contexts scope with
      | some context =>
        (context,
          { m with
            free_contexts := update m.free_contexts scope (m.next_context context) })
      | none =>
        (fresh,
          { m with
            allocated := update m.allocated scope (insert fresh (m.allocated scope)) })
    some (context,
      { m with
        next_context := update m.next_context context (m.live_contexts scope)
        live_contexts := update m.live_contexts scope (some context) })
  else none

/- A search that does not find the context fails. -/
def vthread_free_context (context : γ) (scope : σ) : Option (Machine σ γ τ) :=
  if sc.is_automatic scope then do
    let m ←
      if m.live_contexts scope = some context then
        some
          { m with live_contexts := update m.live_contexts scope (m.next_context context) }
      else
        match FanOut.scan m.next_context context
            (m.allocated scope).card
            (m.live_contexts scope) with
        | some (some tmp) =>
          some
            { m with next_context := update m.next_context tmp (m.next_context context) }
        | _ => none
    some
      { m with
        next_context := update m.next_context context (m.free_contexts scope)
        free_contexts := update m.free_contexts scope (some context) }
  else none

----
-- Opcodes
----

def of_ALLOC (t : τ) (scope : σ)
    (fresh : γ) : Option (Machine σ γ τ) := do
  let (child_context, m) ←
    m.vthread_alloc_context sc scope fresh
  let thr ← m.threads t
  let m := m.setStacked child_context thr.wt_context
  some (m.setThread t (some { thr with wt_context := some child_context }))

def of_FREE (t : τ)
    (scope : σ) : Option (Machine σ γ τ) := do
  let thr ← m.threads t
  let child_context ← thr.rd_context
  let m := m.setThread t
    (some { thr with rd_context := m.stacked_context child_context })
  m.vthread_free_context sc child_context scope

/-
  The child of a thread. In an automatic scope its contexts
  are the top entry on the write context stack.
-/
def newChild (t : τ) (thr : VThread σ γ τ) (scope : σ) : VThread σ γ τ :=
  let child := vthread_new scope
  let child :=
    if sc.is_automatic scope then
      { child with
        wt_context := thr.wt_context
        rd_context := thr.wt_context }
    else child
  { child with parent := some t }

def of_FORK (t : τ) (scope : σ)
    (child : τ) : Option (Machine σ γ τ) := do
  let thr ← m.threads t
  let new := newChild sc t thr scope
  let thr := { thr with children := insert child thr.children }
  let thr ←
    match sc.type_code scope with
    | .vpiFunction => none
    | .vpiTask => some { thr with task_func_children := insert child thr.task_func_children }
    | .other => some thr
  some ((m.setThread t (some thr)).setThread child (some new))

/-
  The first half of `do_callf_void`, which starts the child.
  The second half does what a join does.
-/
def do_callf_void (t : τ) (scope : σ)
    (child : τ) : Option (Machine σ γ τ) := do
  let thr ← m.threads t
  let new := newChild sc t thr scope
  let thr := { thr with children := insert child thr.children }
  if thr.children.card = 1 ∧
      sc.type_code scope = .vpiFunction then
    let thr := { thr with task_func_children := insert child thr.task_func_children }
    some ((m.setThread t (some thr)).setThread child (some new))
  else none

/- A deleted thread has no children left. -/
def vthread_reap (t : τ) : Option (Machine σ γ τ) := do
  let thr ← m.threads t
  if thr.children = ∅ then
    match thr.parent with
    | none => some (m.setThread t none)
    | some p => do
        let parent ← m.threads p
        let m := m.setThread p
          (some { parent with children := parent.children.erase t })
        some (m.setThread t none)
  else none

def test_joinable (thr : VThread σ γ τ) (child : τ) : Bool :=
  thr.task_func_children = ∅ ∨ child ∈ thr.task_func_children

def do_join (t child : τ) : Option (Machine σ γ τ) := do
  let thr ← m.threads t
  let new ← m.threads child
  if new.parent = some t then
    let thr := { thr with task_func_children := thr.task_func_children.erase child }
    if new.wt_context ≠ none ∧
        thr.wt_context ≠ thr.rd_context then do
      let child_context ← thr.wt_context
      let thr := { thr with wt_context := m.stacked_context child_context }
      let m := m.setStacked child_context thr.rd_context
      let thr := { thr with rd_context := some child_context }
      (m.setThread t (some thr)).vthread_reap child
    else (m.setThread t (some thr)).vthread_reap child
  else none

/- A child that a join can take now. -/
def found (thr : VThread σ γ τ) (child : τ) : Bool :=
  child ∈ thr.children ∧ test_joinable thr child ∧ ((m.threads child).any VThread.i_have_ended)

/-
  The search goes through the children in the order of their
  addresses, so that any child that can be taken may be the
  first.
-/
def of_JOIN (t pick : τ) : Option (Machine σ γ τ) := do
  let thr ← m.threads t
  if thr.i_am_joining = false ∧ thr.children ≠ ∅ then
    if m.found thr pick then m.do_join t pick
    else
      some (m.setThread t (some { thr with i_am_joining := true }))
  else none

/- The parent that waits for the thread to end. -/
def wakes (t : τ) : Option τ := do
  let thr ← m.threads t
  let p ← thr.parent
  let parent ← m.threads p
  if parent.i_am_joining ∧ test_joinable parent t then some p
  else none

def of_END (t : τ) : Option (Machine σ γ τ) := do
  let thr ← m.threads t
  if thr.children = ∅ then
    let m := m.setThread t
      (some { thr with i_have_ended := true })
    match m.wakes t with
    | some p => do
        let parent ← m.threads p
        (m.setThread p (some { parent with i_am_joining := false })).do_join p t
    | none =>
      if thr.parent = none then m.vthread_reap t
      else some m
  else none

end Machine

----
-- The Calling Pattern
----

/-
  How far a call is: the arguments are passed, the task or
  function runs, the results are read.
-/
inductive CallPhase
| args
| called
| results
deriving DecidableEq, Repr

/- A call that is going on, with its context if it has one. -/
structure Call (σ γ : Type) where
  scope : σ
  context : Option γ
  phase : CallPhase
deriving DecidableEq

/- The threads, and the calls of each, the innermost first. -/
structure CallState (σ γ τ : Type) where
  machine : Machine σ γ τ
  calls : τ → List (Call σ γ)

/- The innermost call has started its thread. -/
def Waiting (calls : List (Call σ γ)) : Prop :=
  ∃ c cs, calls = c :: cs ∧ c.phase = .called

/-
  The thread of a call runs, after %alloc for a scope that
  has contexts.
-/
def begun (automatic : Bool) (scope : σ) : List (Call σ γ) → List (Call σ γ)
| calls =>
  if automatic then
    match calls with
    | c :: cs => { c with phase := .called } :: cs
    | [] => []
  else ⟨scope, none, .called⟩ :: calls

/- The thread of a call has been joined. -/
def joined : List (Call σ γ) → List (Call σ γ)
| ⟨scope, some c, .called⟩ :: cs => ⟨scope, some c, .results⟩ :: cs
| ⟨_, none, .called⟩ :: cs => cs
| calls => calls

inductive Op (σ γ τ : Type)
| start (t : τ) (scope : σ)
| alloc (t : τ) (scope : σ) (fresh : γ)
| fork (t : τ) (scope : σ) (child : τ)
| callf (t : τ) (scope : σ) (child : τ)
| join (t pick : τ)
| free (t : τ) (scope : σ)
| endThread (t : τ)

namespace Op

def run (s : CallState σ γ τ) : Op σ γ τ → Option (CallState σ γ τ)
| start t scope => some { s with machine := s.machine.setThread t (some (vthread_new scope)) }
| alloc t scope fresh => do
    let m ← s.machine.of_ALLOC sc t scope fresh
    let thr ← m.threads t
    some ⟨m, update s.calls t (⟨scope, thr.wt_context, .args⟩ :: s.calls t)⟩
| fork t scope child => do
    let m ← s.machine.of_FORK sc t scope child
    let calls :=
      if sc.type_code scope = .vpiTask then
        begun (sc.is_automatic scope) scope (s.calls t)
      else s.calls t
    some ⟨m, update s.calls t calls⟩
| callf t scope child => do
    let m ← s.machine.do_callf_void sc t scope child
    some ⟨m, update s.calls t (begun (sc.is_automatic scope) scope (s.calls t))⟩
| join t pick => do
    let thr ← s.machine.threads t
    let m ← s.machine.of_JOIN t pick
    let calls :=
      if s.machine.found thr pick then joined (s.calls t)
      else s.calls t
    some ⟨m, update s.calls t calls⟩
| free t scope => do
    let m ← s.machine.of_FREE sc t scope
    some ⟨m, update s.calls t (s.calls t).tail⟩
| endThread t => do
    let m ← s.machine.of_END t
    match s.machine.wakes t with
    | some p => some ⟨m, update s.calls p (joined (s.calls p))⟩
    | none => some ⟨m, s.calls⟩

/- A thread that can take its next opcode. -/
def Running (s : CallState σ γ τ) (t : τ) (thr : VThread σ γ τ) : Prop :=
  s.machine.threads t = some thr ∧ thr.i_am_joining = false ∧ thr.i_have_ended = false

/-
  Between two statements or inside an expression: no call
  waits, and no thread that a block has forked is left.
-/
def Between (s : CallState σ γ τ) (t : τ) (thr : VThread σ γ τ) : Prop :=
  thr.children = ∅ ∧ ¬Waiting (s.calls t)

/- A task or function may be called now. -/
def Ready (s : CallState σ γ τ) (t : τ) (thr : VThread σ γ τ) (scope : σ) : Prop :=
  if sc.is_automatic scope then
    ∃ context cs, s.calls t = ⟨scope, some context, .args⟩ :: cs
  else Between s t thr

/-
  The order of the opcodes: %alloc, the arguments, %fork and
  %join or %callf, the results, %free, where the arguments
  and the results may hold further calls. A block forks all
  its threads and joins them between two calls.
-/
def Allowed (s : CallState σ γ τ) : Op σ γ τ → Prop
| start t _ => s.machine.threads t = none
| alloc t scope fresh =>
  (∃ thr, Running s t thr ∧ Between s t thr) ∧
    sc.is_automatic scope ∧
    ∀ scope', fresh ∉ s.machine.allocated scope'
| fork t scope child =>
  ∃ thr, Running s t thr ∧
    s.machine.threads child = none ∧
    match sc.type_code scope with
    | .vpiFunction => False
    | .vpiTask => Ready sc s t thr scope
    | .other => s.calls t = []
| callf t scope child =>
  ∃ thr, Running s t thr ∧
    s.machine.threads child = none ∧
    sc.type_code scope = .vpiFunction ∧
    Ready sc s t thr scope
| join t pick =>
  ∃ thr, Running s t thr ∧ thr.children ≠ ∅ ∧
    (s.machine.found thr pick ∨ ∀ v ∈ thr.children, ¬s.machine.found thr v)
| free t scope =>
  (∃ thr, Running s t thr) ∧ sc.is_automatic scope ∧
    ∃ c cs, s.calls t = ⟨scope, some c, .results⟩ :: cs
| endThread t => (∃ thr, Running s t thr ∧ thr.children = ∅) ∧ s.calls t = []

end Op

/- Before the first process has started. -/
def CallState.initial : CallState σ γ τ where
  machine :=
    { live_contexts := fun _ => none
      free_contexts := fun _ => none
      next_context := fun _ => none
      stacked_context := fun _ => none
      allocated := fun _ => ∅
      threads := fun _ => none }
  calls := fun _ => []

/- The states that the opcodes of all threads lead to. -/
inductive Runs : CallState σ γ τ → Prop
| initial : Runs CallState.initial
| step {s s' : CallState σ γ τ} (op : Op σ γ τ) :
    Runs s → op.Allowed sc s → op.run sc s = some s' → Runs s'

/- The steps from a state on in which a thread stays alive. -/
inductive RunsWith (t : τ) (s : CallState σ γ τ) :
    CallState σ γ τ → Prop
| here : RunsWith t s s
| step {s' s'' : CallState σ γ τ} (op : Op σ γ τ) :
    RunsWith t s s' → op.Allowed sc s' →
    op.run sc s' = some s'' →
    (s''.machine.threads t).isSome → RunsWith t s s''

----
-- What Is To Hold
----

namespace CallState

variable (s : CallState σ γ τ)

/- The contexts on the write context stack, the top first. -/
def WriteStack (t : τ) (stack : List γ) : Prop :=
  ∃ thr, s.machine.threads t = some thr ∧
    FanOut.Chain s.machine.stacked_context thr.wt_context stack

def ReadStack (t : τ) (stack : List γ) : Prop :=
  ∃ thr, s.machine.threads t = some thr ∧
    FanOut.Chain s.machine.stacked_context thr.rd_context stack

def OnStack (t : τ) (c : γ) : Prop :=
  ∃ stack, (s.WriteStack t stack ∨ s.ReadStack t stack) ∧ c ∈ stack

/- A call of the thread has the context. -/
def Uses (t : τ) (c : γ) : Prop :=
  ∃ call ∈ s.calls t, call.context = some c

def IsParent (p t : τ) : Prop :=
  ∃ thr, s.machine.threads t = some thr ∧ thr.parent = some p

/- The thread makes the call of the context or runs for it. -/
def Within (t : τ) (c : γ) : Prop :=
  ∃ q, s.Uses q c ∧ Relation.ReflTransGen s.IsParent q t

/- No call that has a context encloses both threads. -/
def Unrelated (t u : τ) : Prop :=
  ¬∃ c, s.Within t c ∧ s.Within u c

end CallState

/- What holds in every state of a run. -/
structure ContextsRight (s : CallState σ γ τ) : Prop where
  lists : ∀ scope, ∃ live free,
    FanOut.Chain s.machine.next_context (s.machine.live_contexts scope) live ∧
    FanOut.Chain s.machine.next_context (s.machine.free_contexts scope) free ∧
    (live ++ free).Nodup ∧
    ∀ c, c ∈ s.machine.allocated scope ↔ c ∈ live ++ free
  one : ∀ scope scope' c, c ∈ s.machine.allocated scope →
    c ∈ s.machine.allocated scope' → scope = scope'
  user : ∀ t u c, s.Uses t c → s.Uses u c → t = u
  once : ∀ t, ((s.calls t).filterMap Call.context).Nodup
  ending : ∀ t, (s.machine.threads t).isSome →
    (∃ stack, s.WriteStack t stack) ∧ ∃ stack, s.ReadStack t stack
  apart : ∀ t u c, s.Unrelated t u → ¬(s.OnStack t c ∧ s.OnStack u c)
  alloc : ∀ t scope fresh c m,
    (Op.alloc t scope fresh).Allowed sc s →
    s.machine.vthread_alloc_context sc scope fresh = some (c, m) → ∀ u, ¬s.Uses u c ∧ ¬s.OnStack u c

end AutoContext

end EpicSim
