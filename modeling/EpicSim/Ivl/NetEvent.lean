import EpicSim.Ivl.NexusCache

/-
  The events of the elaborator's netlist with their probes,
  the search for similar events, and the replacement of the
  events that statements wait for.
-/

namespace EpicSim

/- What a probe looks for. -/
inductive ProbeEdge
| ANYEDGE
| POSEDGE
| NEGEDGE
deriving DecidableEq, Repr

/- The object that a link is a pin of. -/
inductive PinObject (π : Type)
| probe (p : π)
| other
deriving DecidableEq, Repr

/-
  The events, with the probes in the order in which they were
  made. A link without an object belongs to a set of nexuses.
-/
structure EventTable (α π ε σ : Type) where
  get_obj : α → Option (PinObject π)
  pins : π → List α
  edge : π → ProbeEdge
  event : π → ε
  probes_ : ε → List π
  scope : ε → σ
  is_auto : σ → Bool
  pin_zero : ∀ p, pins p ≠ []
  pin_object : ∀ l p, get_obj l = some (.probe p) ↔ l ∈ pins p
  listed : ∀ p e, p ∈ probes_ e ↔ event p = e
  once : ∀ e, (probes_ e).Nodup

namespace LinkStore

variable {α ν : Type} [DecidableEq α]

/- `Nexus::first_nlink` -/
def first_nlink (s : LinkStore α ν)
    (n : ν) : Option (Option α) := do
  let cell ← s.heap n
  match cell.list_ with
  | none => some none
  | some last => some (s.next_ last)

/- `Link::next_nlink` stops at the link with the nexus. -/
def next_nlink (s : LinkStore α ν) (l : α) : Option α :=
  match s.nexus_ l with
  | some _ => none
  | none => s.next_ l

/- The walk from one link to another one. -/
def reachLoop (s : LinkStore α ν) (this that : α) : Nat → α → Option Bool
| 0, _ => none
| fuel + 1, cur =>
  if cur = this then some false
  else if cur = that then some true
  else do
    let cur ← s.next_ cur
    reachLoop s this that fuel cur

/- `Link::is_linked` of another link -/
def is_linked_to (s : LinkStore α ν) (this that : α) : Option Bool :=
  if s.is_linked this = false then some false
  else if s.is_linked that = false then some false
  else do
    let cur ← s.next_ this
    s.reachLoop this that s.links.card cur

/- Two lists of pins are linked, one pin after the other. -/
def pinsLinked (s : LinkStore α ν) : List α → List α → Option Bool
| l :: ls, r :: rs => do
    if ← s.is_linked_to l r then pinsLinked s ls rs
    else some false
| _, _ => some true

end LinkStore

namespace EventTable

variable {α ν π ε σ : Type} [DecidableEq α] [DecidableEq ν]
  [DecidableEq π] [DecidableEq ε] [DecidableEq σ]

def pin_count (t : EventTable α π ε σ) (p : π) : Nat :=
  (t.pins p).length

def pin0 (t : EventTable α π ε σ) (p : π) : α :=
  (t.pins p).head (t.pin_zero p)

/- The probe after a probe in the list of its event. -/
def enext_ (t : EventTable α π ε σ) (p : π) : Option π :=
  ((t.probes_ (t.event p)).dropWhile (· ≠ p)).tail.head?

----
-- Similar Probes
----

/-
  The second probes of two events, in the search of an event
  with two edges. Only their first pins are looked at.
-/
def secondProbe (t : EventTable α π ε σ) (fresh : α → ν) (this tmp : π) (c : CachedLinks α ν) :
    Option (Bool × CachedLinks α ν) :=
  match t.probes_ (t.event tmp) with
  | [] => none
  | p :: enext =>
    if p ≠ tmp then some (false, c)
    else
      match enext with
      | [q] => do
          let mine ← t.enext_ this
          if t.edge p ≠ t.edge this ∨
              t.edge q ≠ t.edge mine then
            some (false, c)
          else
            let (theirs, c) ← c.find_nexus_post_elab
              (fresh (t.pin0 q)) (t.pin0 q)
            let (ours, c) ← c.find_nexus_post_elab
              (fresh (t.pin0 mine)) (t.pin0 mine)
            some (theirs = ours, c)
      | _ => some (false, c)

/- What a quick search asks of the event of a probe. -/
def quickCheck (t : EventTable α π ε σ) (fresh : α → ν) (this : π)
    (isquick : Nat) (tmp : π) (c : CachedLinks α ν) : Option (Bool × CachedLinks α ν) :=
  if isquick = 1 then
    match t.probes_ (t.event tmp) with
    | [] => none
    | _ :: enext => some (enext.isEmpty, c)
  else if isquick = 2 then t.secondProbe fresh this tmp c
  else some (true, c)

/-
  One link of the nexus of the first pin. The loop over the
  pins starts at the second one.
-/
def similarStep (t : EventTable α π ε σ) (fresh : α → ν) (this : π)
    (isquick : Nat) (lcur : α) (c : CachedLinks α ν) : Option (List π × CachedLinks α ν) :=
  match t.get_obj lcur with
  | none => some ([], c)
  | some .other => some ([], c)
  | some (.probe tmp) =>
    if t.pin_count tmp ≠ t.pin_count this then some ([], c)
    else if tmp = this then some ([], c)
    else if t.edge this ≠ t.edge tmp then some ([], c)
    else do
      let ok_flag ← c.store.pinsLinked
        (t.pins this).tail (t.pins tmp).tail
      let (quick, c) ← t.quickCheck fresh this isquick tmp c
      some (if quick ∧ ok_flag then [tmp] else [], c)

/- The walk over the links of a nexus. -/
def similarLoop (t : EventTable α π ε σ) (fresh : α → ν) (this : π) (isquick : Nat) :
    Nat → Option α → CachedLinks α ν → Option (List π × CachedLinks α ν)
| _, none, c => some ([], c)
| 0, some _, _ => none
| fuel + 1, some lcur, c => do
    let (here, c) ← t.similarStep fresh this isquick lcur c
    let (plist, c) ← similarLoop t fresh this isquick fuel
      (c.store.next_nlink lcur) c
    some (here ++ plist, c)

/- `NetEvProbe::find_similar_probes` -/
def find_similar_probes (t : EventTable α π ε σ) (fresh : α → ν) (this : π) (isquick : Nat)
    (c : CachedLinks α ν) : Option (List π × CachedLinks α ν) := do
  let pin := t.pin0 this
  let (nex, s) ← c.store.linkNexus (fresh pin) pin
  let nex ← nex
  let lcur ← s.first_nlink nex
  t.similarLoop fresh this isquick s.links.card lcur { c with store := s }

----
-- Similar Events
----

/- A quick search is made for one or two edges. -/
def quickpath (t : EventTable α π ε σ) (this : ε) : Bool :=
  (t.probes_ this).all (fun p => t.edge p ≠ .ANYEDGE) && (t.probes_ this).length ≤ 2

/- Events of automatic scopes stay in their scope. -/
def mayMerge (t : EventTable α π ε σ) (this tmp : ε) : Bool :=
  tmp ≠ this && !(t.is_auto (t.scope this) && t.scope tmp ≠ t.scope this)

/-
  The candidates that have a similar probe for each of the
  other probes.
-/
def cullLoop (t : EventTable α π ε σ) (fresh : α → ν) :
    List π → List ε → CachedLinks α ν → Option (List ε × CachedLinks α ν)
| [], candidate_events, c => some (candidate_events, c)
| cur :: enext, candidate_events, c => do
    let (similar_probes, c) ← t.find_similar_probes fresh cur 0 c
    let candidate_tmp := ((similar_probes.map t.event).filter (· ∈ candidate_events)).dedup
    if candidate_tmp = [] then some ([], c)
    else cullLoop t fresh enext candidate_tmp c

/-
  `NetEvent::find_similar_event`. A set of events is a list
  without duplicates, in no order that counts.
-/
def find_similar_event (t : EventTable α π ε σ) (fresh : α → ν) (this : ε) (c : CachedLinks α ν) :
    Option (List ε × CachedLinks α ν) :=
  match t.probes_ this with
  | [] => some ([], c)
  | first :: enext => do
      let pcount := enext.length + 1
      let (first_probes, c) ← t.find_similar_probes fresh first
        (if t.quickpath this then pcount else 0) c
      let events := first_probes.map t.event
      if t.quickpath this then
        some (events.filter (t.mayMerge this), c)
      else if events = [] then some ([], c)
      else
        let (candidate_events, c) ←
          t.cullLoop fresh enext events.dedup c
        some (candidate_events.filter fun tmp =>
          t.mayMerge this tmp && (t.probes_ tmp).length = pcount, c)

end EventTable

----
-- The Events That Are Waited For
----

/-
  The events of each wait statement, and for each event the
  statements that wait for it. A wait for forked processes
  has no event.
-/
structure WaitTable (ω ε : Type) [DecidableEq ω] [DecidableEq ε] where
  events_ : ω → List (Option ε)
  wlist_ : ε → List ω
  counted : ∀ w e, (wlist_ e).count w = (events_ w).count (some e)

namespace WaitTable

variable {ω ε : Type} [DecidableEq ω] [DecidableEq ε]

/- The fields after `NetEvWait::replace_event`. -/
def replacedEvents (t : WaitTable ω ε) (w : ω) (src repl : ε) : ω → List (Option ε) :=
  Function.update t.events_ w ((t.events_ w).replace (some src) (some repl))

def replacedWaits (t : WaitTable ω ε) (w : ω) (src repl : ε) : ε → List ω :=
  let wlist_ := Function.update t.wlist_ src
    ((t.wlist_ src).erase w)
  Function.update wlist_ repl (w :: wlist_ repl)

theorem count_replace {l : List (Option ε)} {a b : Option ε} (ha : a ∈ l) (x : Option ε) :
    (l.replace a b).count x + (if a = x then 1 else 0) = l.count x + (if b = x then 1 else 0) := by
  induction l with
  | nil => cases ha
  | cons y l ih =>
    rw [List.replace_cons]
    by_cases hy : y = a
    · grind
    · grind

theorem counted_replaced (t : WaitTable ω ε) {w : ω} {src : ε}
    (hMem : some src ∈ t.events_ w) (repl : ε) (x : ω) (e : ε) :
    (t.replacedWaits w src repl e).count x = (t.replacedEvents w src repl x).count (some e) := by
  have hCounted := t.counted
  simp only [replacedWaits, replacedEvents]
  grind

/- `NetEvWait::replace_event` -/
def waitReplace (t : WaitTable ω ε) (w : ω) (src repl : ε) : Option (WaitTable ω ε) :=
  if hMem : some src ∈ t.events_ w then
    some ⟨t.replacedEvents w src repl, t.replacedWaits w src repl, t.counted_replaced hMem repl⟩
  else none

/- `NetEvent::replace_event` -/
def replace_event (this that : ε) : Nat → WaitTable ω ε → Option (WaitTable ω ε)
| 0, t => if t.wlist_ this = [] then some t else none
| fuel + 1, t =>
  match t.wlist_ this with
  | [] => some t
  | w :: _ => do
      let t ← t.waitReplace w this that
      replace_event this that fuel t

/- All the similar events are replaced. -/
def replaceAll (ev : ε) : List ε → WaitTable ω ε → Option (WaitTable ω ε)
| [], t => some t
| tmp :: rest, t => do
    let t ← replace_event tmp ev (t.wlist_ tmp).length t
    replaceAll ev rest t

end WaitTable

/-
  What `nodangle_f::event` does with the events that are
  similar to this one.
-/
def EventTable.mergeSimilar {α ν π ε σ ω : Type} [DecidableEq α] [DecidableEq ν] [DecidableEq π]
    [DecidableEq ε] [DecidableEq σ]
    [DecidableEq ω] (t : EventTable α π ε σ) (fresh : α → ν) (this : ε) (c : CachedLinks α ν)
    (w : WaitTable ω ε) : Option (List ε × CachedLinks α ν × WaitTable ω ε) := do
  let (found, c) ← t.find_similar_event fresh this c
  let w ← WaitTable.replaceAll this found w
  some (found, c, w)

end EpicSim
