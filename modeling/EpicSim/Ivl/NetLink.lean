import Mathlib.Data.Finset.Card
import EpicSim.Lib.CircularList

/-
  The links of the elaborator's netlist and the nexuses that
  hold them together: each nexus points to the last link of a
  circular list, and the last link points back to the nexus.
-/

namespace EpicSim

/- The directions of a link. -/
inductive LinkDir
| PASSIVE
| INPUT
| OUTPUT
deriving DecidableEq, Repr

/- What a nexus guesses to be driven on it. -/
inductive NexusValue
| NO_GUESS
| V0
| V1
| Vx
| Vz
| VAR
deriving DecidableEq, Repr

/- The fields of an existing nexus. -/
structure NexusCell (α : Type) where
  list_ : Option α
  driven_ : NexusValue
  name_ : Option String

/-
  All the links and the nexuses. A link that does not exist
  has no pointers, and an address without a nexus holds
  nothing.
-/
structure LinkStore (α ν : Type) where
  links : Finset α
  dir : α → LinkDir
  next_ : α → Option α
  nexus_ : α → Option ν
  heap : ν → Option (NexusCell α)

namespace LinkStore

variable {α ν : Type} [DecidableEq α] [DecidableEq ν]

/- Freshly constructed links, and no nexus. -/
def start (links : Finset α) (dir : α → LinkDir) : LinkStore α ν where
  links := links
  dir := dir
  next_ := fun _ => none
  nexus_ := fun _ => none
  heap := fun _ => none

def setNext (s : LinkStore α ν) (l : α) (p : Option α) : LinkStore α ν :=
  { s with next_ := Function.update s.next_ l p }

def setNexus (s : LinkStore α ν) (l : α) (p : Option ν) : LinkStore α ν :=
  { s with nexus_ := Function.update s.nexus_ l p }

def setCell (s : LinkStore α ν) (n : ν) (c : Option (NexusCell α)) : LinkStore α ν :=
  { s with heap := Function.update s.heap n c }

----
-- Looking For The Nexus
----

/-
  The walk of `find_nexus_` from the next link on. A walk
  that leaves the circle, or that takes more steps than
  there are links, gives nothing.
-/
def findLoop (s : LinkStore α ν) (this : α) : Nat → α → Option (Option ν)
| 0, _ => none
| fuel + 1, cur =>
  if cur = this then some none
  else
    match s.nexus_ cur with
    | some n => some (some n)
    | none => do
        let cur ← s.next_ cur
        findLoop s this fuel cur

/- Only a link with a next one may be asked. -/
def findNexus (s : LinkStore α ν)
    (this : α) : Option (Option ν) := do
  let next ← s.next_ this
  match s.nexus_ this with
  | some n => some (some n)
  | none => s.findLoop this s.links.card next

/- A nexus is deleted only when its list is empty. -/
def deleteNexus (s : LinkStore α ν)
    (n : ν) : Option (LinkStore α ν) := do
  let cell ← s.heap n
  if cell.list_ = none then some (s.setCell n none)
  else none

/-
  The constructor of a nexus, at the address that the
  allocator chose.
-/
def newNexus (s : LinkStore α ν) (this : ν) (that : α) : Option (LinkStore α ν) :=
  if s.next_ that = none then
    some (((s.setCell this (some ⟨some that, .NO_GUESS, none⟩)).setNext
      that (some that)).setNexus that (some this))
  else do
    let tmp ← (← s.findNexus that)
    let cell ← s.heap tmp
    let last ← cell.list_
    let s := s.setCell this
      (some ⟨some last, cell.driven_, cell.name_⟩)
    let s := s.setNexus last (some this)
    let s := s.setCell tmp (some ⟨none, cell.driven_, none⟩)
    s.deleteNexus tmp

----
-- Connecting
----

/- The nexus of a link that has one. -/
def linkedNexus (s : LinkStore α ν) (r : α) : Option (Option ν) :=
  if s.next_ r = none then some none else s.findNexus r

/- `Nexus::connect` -/
def nexusConnect (s : LinkStore α ν) (this : ν)
    (r : α) : Option (LinkStore α ν) := do
  let r_nexus ← s.linkedNexus r
  if r_nexus = some this then some s
  else
    let cell ← s.heap this
    match cell.list_ with
    | none =>
      if s.next_ r = none then
        let s := s.setCell this
          (some ⟨some r, .NO_GUESS, none⟩)
        let s := s.setNext r (some r)
        some (s.setNexus r (some this))
      else
        let other ← r_nexus
        let otherCell ← s.heap other
        let last ← otherCell.list_
        let s := s.setCell this
          (some ⟨some last, otherCell.driven_, none⟩)
        let s := s.setNexus last (some this)
        let s := s.setCell other
          (some { otherCell with list_ := none })
        s.deleteNexus other
    | some list_ =>
      if s.next_ r = none then
        let driven :=
          if s.dir r ≠ .INPUT then .NO_GUESS
          else cell.driven_
        let s := s.setNexus r (some this)
        let s := s.setNext r (s.next_ list_)
        let s := s.setNext list_ (some r)
        let s := s.setNexus list_ none
        some (s.setCell this (some ⟨some r, driven, none⟩))
      else
        let other ← r_nexus
        let otherCell ← s.heap other
        let driven :=
          if otherCell.driven_ ≠ .Vz then .NO_GUESS
          else cell.driven_
        let last ← otherCell.list_
        let save_first := s.next_ list_
        let s := s.setNext list_ (s.next_ last)
        let s := s.setNext last save_first
        let s := s.setNexus list_ none
        let s := s.setNexus last (some this)
        let s := s.setCell this
          (some ⟨some last, driven, none⟩)
        let s := s.setCell other
          (some { otherCell with list_ := none })
        s.deleteNexus other

/-
  The function `connect` of two links. A new nexus, if it
  takes one, goes to the address `fresh`.
-/
def connect (s : LinkStore α ν) (fresh : ν) (l r : α) : Option (LinkStore α ν) :=
  if l = r then none
  else do
    match ← s.linkedNexus l with
    | some tmp => s.nexusConnect tmp r
    | none =>
      match ← s.linkedNexus r with
      | some tmp => s.nexusConnect tmp l
      | none =>
        let s ← s.newNexus fresh l
        s.nexusConnect fresh r

/- `Link::nexus` -/
def linkNexus (s : LinkStore α ν) (fresh : ν) (l : α) : Option (Option ν × LinkStore α ν) :=
  if s.next_ l = none then
    if s.nexus_ l = none then do
      let s ← s.newNexus fresh l
      some (some fresh, s)
    else none
  else do
    let n ← s.findNexus l
    some (n, s)

----
-- Unlinking
----

/- The walk to the link before `that`. -/
def prevLoop (s : LinkStore α ν) (that : α) : Nat → α → Option α
| 0, _ => none
| fuel + 1, prev =>
  if s.next_ prev = some that then some prev
  else do
    let prev ← s.next_ prev
    prevLoop s that fuel prev

/- `Nexus::unlink` -/
def nexusUnlink (s : LinkStore α ν) (this : ν)
    (that : α) : Option (LinkStore α ν) := do
  let cell ← s.heap this
  if s.next_ that = some that then
    if s.nexus_ that = some this ∧ cell.list_ = some that then
      let s := s.setCell this (some ⟨none, .NO_GUESS, none⟩)
      let s := s.setNexus that none
      some (s.setNext that none)
    else none
  else
    let driven :=
      if s.dir that ≠ .INPUT then .NO_GUESS
      else cell.driven_
    let list_ ← cell.list_
    let prev ← s.prevLoop that s.links.card list_
    let s := s.setNext prev (s.next_ that)
    if list_ = that then
      if s.nexus_ that = some this then
        let s := s.setCell this
          (some ⟨some prev, driven, none⟩)
        let s := s.setNexus prev (some this)
        let s := s.setNexus that none
        some (s.setNext that none)
      else none
    else
      let s := s.setCell this (some ⟨some list_, driven, none⟩)
      let s := s.setNexus that none
      some (s.setNext that none)

def is_linked (s : LinkStore α ν) (l : α) : Bool :=
  match s.next_ l with
  | none => false
  | some next => if next = l then false else true

/- `Link::unlink` -/
def linkUnlink (s : LinkStore α ν) (l : α) : Option (LinkStore α ν) :=
  if s.is_linked l then do
    let n ← (← s.findNexus l)
    s.nexusUnlink n l
  else some s

/- The destructor of a link. -/
def linkDestroy (s : LinkStore α ν) (l : α) : Option (LinkStore α ν) :=
  if s.next_ l = none then
    some { s with links := s.links.erase l }
  else do
    let tmp ← (← s.findNexus l)
    let s ← s.nexusUnlink tmp l
    let cell ← s.heap tmp
    let s ←
      if cell.list_ = none then s.deleteNexus tmp
      else some s
    some { s with links := s.links.erase l }

end LinkStore

----
-- Sequences Of Operations
----

/-
  What may be done to links and nexuses from outside. The
  last two are the constructor of a link and the use that
  `Nexus::replace_driver` makes of `Nexus::unlink`.
-/
inductive LinkOp (α ν : Type)
| connect (fresh : ν) (l r : α)
| nexusConnect (n : ν) (r : α)
| nexus (fresh : ν) (l : α)
| unlink (l : α)
| destroy (l : α)
| construct (l : α)
| nexusUnlink (n : ν) (l : α)

namespace LinkOp

variable {α ν : Type} [DecidableEq α] [DecidableEq ν]

def run (s : LinkStore α ν) : LinkOp α ν → Option (LinkStore α ν)
| connect fresh l r => s.connect fresh l r
| nexusConnect n r => s.nexusConnect n r
| nexus fresh l => (s.linkNexus fresh l).map Prod.snd
| unlink l => s.linkUnlink l
| destroy l => s.linkDestroy l
| construct l => some { s with links := insert l s.links }
| nexusUnlink n l => s.nexusUnlink n l

/-
  The caller passes links and nexuses that exist, two
  different links to `connect`, and the allocator gives an
  address that is free.
-/
def Allowed (s : LinkStore α ν) : LinkOp α ν → Prop
| connect fresh l r => l ∈ s.links ∧ r ∈ s.links ∧ l ≠ r ∧ s.heap fresh = none
| nexusConnect n r => (s.heap n).isSome ∧ r ∈ s.links
| nexus fresh l => l ∈ s.links ∧ s.heap fresh = none
| unlink l => l ∈ s.links
| destroy l => l ∈ s.links
| construct l => l ∉ s.links
| nexusUnlink n l => l ∈ s.links ∧ s.linkedNexus l = some (some n)

/-
  What an operation does to the connections between links,
  in terms of the calls only. The links of a nexus are those
  whose `Link::nexus` it is.
-/
def relate (s : LinkStore α ν) (connected : α → α → Prop) : LinkOp α ν → α → α → Prop
| connect _ l r => Relation.EqvGen fun a b => connected a b ∨ (a = l ∧ b = r)
| nexusConnect n r => Relation.EqvGen fun a b =>
  connected a b ∨ (s.linkedNexus a = some (some n) ∧ b = r)
| nexus _ _ => connected
| unlink l => fun a b => a = b ∨ (connected a b ∧ a ≠ l ∧ b ≠ l)
| destroy l => fun a b => a = b ∨ (connected a b ∧ a ≠ l ∧ b ≠ l)
| construct _ => connected
| nexusUnlink _ l => fun a b => a = b ∨ (connected a b ∧ a ≠ l ∧ b ≠ l)

end LinkOp

/-
  A state that some sequence of operations reaches from
  unconnected links, with the connections it made.
-/
inductive LinkRun {α ν : Type} [DecidableEq α] [DecidableEq ν] :
    LinkStore α ν → (α → α → Prop) → Prop
| start (links : Finset α) (dir : α → LinkDir) :
    LinkRun (LinkStore.start links dir) Eq
| step {s s' : LinkStore α ν} {connected : α → α → Prop}
    (op : LinkOp α ν) :
    LinkRun s connected → op.Allowed s → op.run s = some s' →
    LinkRun s' (op.relate s connected)

end EpicSim
