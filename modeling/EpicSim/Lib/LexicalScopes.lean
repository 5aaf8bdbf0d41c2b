import Mathlib.Order.Filter.AtTopBot.Basic
import Mathlib.Tactic.Common

/-
  Nested scopes kept as maps of variables and references.

  A stack of scopes gives a name the innermost variable of
  that name.  The maps have one entry for every visible name:
  the variable itself where its scope declares it, and
  otherwise the number of the map that holds it.
-/

namespace LexicalScopes

open Function (update update_of_ne update_self)

variable {Name : Type} {α : Type}

----
-- Scopes
----

/- The variables that a scope declares. -/
abbrev Scope (Name α : Type) := Name → Option α

/- The innermost variable of a name. -/
def lookup : List (Scope Name α) → Name → Option α
| [], _ => none
| s :: rest, n =>
  match s n with
  | some v => some v
  | none => lookup rest n

/- The number of the scope that holds it, from the outside. -/
def place : List (Scope Name α) → Name → Option Nat
| [], _ => none
| s :: rest, n =>
  match s n with
  | some _ => some rest.length
  | none => place rest n

/- Change the innermost variable of a name. -/
def assign [DecidableEq Name] : List (Scope Name α) → Name → α → Option (List (Scope Name α))
| [], _, _ => none
| s :: rest, n, v =>
  match s n with
  | some _ => some (update s n (some v) :: rest)
  | none => (assign rest n v).map (s :: ·)

variable {scopes : List (Scope Name α)} {n : Name}

theorem place_lt {k : Nat}
    (hPlace : place scopes n = some k) : k < scopes.length := by
  induction scopes with
  | nil => cases hPlace
  | cons s rest ih =>
    rw [List.length_cons]
    unfold place at hPlace
    cases hDecl : s n with
    | some v =>
      rw [hDecl] at hPlace
      cases hPlace
      omega
    | none => grind

/- An assignment keeps the number of scopes. -/
theorem length_assign [DecidableEq Name] {scopes' : List (Scope Name α)} {v : α}
    (hAssign : assign scopes n v = some scopes') : scopes'.length = scopes.length := by
  induction scopes generalizing scopes' with
  | nil => cases hAssign
  | cons s rest ih =>
    unfold assign at hAssign
    cases hDecl : s n with
    | some w =>
      rw [hDecl] at hAssign
      cases hAssign
      rfl
    | none =>
      rw [hDecl] at hAssign
      rcases Option.map_eq_some_iff.mp hAssign with ⟨rest', hRest, rfl⟩
      rw [List.length_cons, List.length_cons, ih hRest]

----
-- Maps
----

/- An entry of a map: a variable, or the number of the map
   that has it. -/
inductive Entry (α : Type) where
| value (value : α)
| ref (map : Nat)
deriving DecidableEq

/- The maps by number. -/
abbrev Maps (Name α : Type) := Nat → Name → Option (Entry α)

/- A map copied as references to it. -/
def references (maps : Maps Name α) (cur : Nat) (n : Name) : Option (Entry α) :=
  match maps cur n with
  | none => none
  | some (.ref k) => some (.ref k)
  | some (.value _) => some (.ref cur)

/- Follow the references of a name to its variable. -/
def follow (maps : Maps Name α) (n : Name) : Nat → Nat → Option (Nat × α)
| 0, _ => none
| fuel + 1, cur =>
  match maps cur n with
  | none => none
  | some (.ref k) => follow maps n fuel k
  | some (.value v) => some (cur, v)

/- Change a variable of a map. -/
def write [DecidableEq Name] (maps : Maps Name α) (k : Nat) (n : Name) (v : α) : Maps Name α :=
  update maps k (update (maps k) n (some (.value v)))

----
-- Agreement
----

/- The maps hold what the scopes do. -/
def Mirrors (maps : Maps Name α) : List (Scope Name α) → Prop
| [] => True
| s :: rest =>
  (∀ n, maps rest.length n =
    match s n with
    | some v => some (.value v)
    | none => (place rest n).map .ref) ∧
  Mirrors maps rest

namespace Mirrors

variable {scopes : List (Scope Name α)} {maps : Maps Name α}
  {s : Scope Name α} {rest : List (Scope Name α)}

/- Only the maps of the scopes matter. -/
theorem congr {maps maps' : Maps Name α} (hMirror : Mirrors maps scopes)
    (hSame : ∀ k, k < scopes.length → maps' k = maps k) : Mirrors maps' scopes := by
  induction scopes with
  | nil => trivial
  | cons s rest ih =>
    rw [List.length_cons] at hSame
    constructor
    · intro n
      rw [hSame rest.length (by omega)]
      exact hMirror.1 n
    · exact ih hMirror.2 fun k hLt => hSame k (by omega)

variable {n : Name} {k : Nat} {v : α}

/- The map that a name is found in. -/
theorem at_place (hMirror : Mirrors maps scopes)
    (hPlace : place scopes n = some k) :
    ∃ v, lookup scopes n = some v ∧
      maps k n = some (.value v) := by
  induction scopes with
  | nil => cases hPlace
  | cons s rest ih =>
    have hHead := hMirror.1 n
    unfold place at hPlace
    unfold lookup
    cases hDecl : s n with
    | some v => grind
    | none =>
      rw [hDecl] at hPlace
      exact ih hMirror.2 hPlace

/- Every visible name has a place. -/
theorem place_of_lookup (hLookup : lookup scopes n = some v) :
    ∃ k, place scopes n = some k := by
  induction scopes with
  | nil => cases hLookup
  | cons s rest ih =>
    unfold lookup at hLookup
    unfold place
    cases hDecl : s n with
    | some w => exact ⟨rest.length, rfl⟩
    | none =>
      rw [hDecl] at hLookup
      exact ih hLookup

section

variable (hMirror : Mirrors maps (s :: rest))

include hMirror

/- The innermost map has the variable, or refers to it. -/
theorem innermost (hPlace : place (s :: rest) n = some k) :
    (k = rest.length ∧ ∃ v, maps k n = some (.value v)) ∨
      (k < rest.length ∧
        maps rest.length n = some (.ref k)) := by
  have hHead := hMirror.1 n
  unfold place at hPlace
  cases hDecl : s n with
  | some v => grind
  | none =>
    rw [hDecl] at hPlace hHead
    simp only at hPlace hHead
    rw [hPlace] at hHead
    exact Or.inr ⟨place_lt hPlace, hHead⟩

/- Following a visible name gives its variable. -/
theorem follow (hLookup : lookup (s :: rest) n = some v) :
    ∃ k, place (s :: rest) n = some k ∧
      LexicalScopes.follow maps n 2 rest.length = some (k, v) := by
  rcases place_of_lookup hLookup with ⟨k, hPlace⟩
  rcases hMirror.at_place hPlace with ⟨w, hW, hMap⟩
  rw [hLookup] at hW
  cases hW
  refine ⟨k, hPlace, ?_⟩
  rcases hMirror.innermost hPlace with ⟨hHere, u, hU⟩ | ⟨_, hRef⟩
  · rw [hHere] at hMap
    simp only [LexicalScopes.follow, hMap, hHere]
  · simp only [LexicalScopes.follow, hRef, hMap]

/- The references that a new map starts with. -/
theorem references_eq (n : Name) :
    references maps rest.length n = (place (s :: rest) n).map .ref := by
  have hHead := hMirror.1 n
  unfold references place
  rw [hHead]
  cases hDecl : s n with
  | some v => rfl
  | none =>
    cases place rest n with
    | none => rfl
    | some k => rfl

/- A scope is entered with a new map. -/
theorem enter {new : Scope Name α}
    {map : Name → Option (Entry α)}
    (hMap : ∀ n, map n =
      match new n with
      | some v => some (.value v)
      | none => references maps rest.length n) :
    Mirrors (update maps (rest.length + 1) map) (new :: s :: rest) := by
  constructor
  · intro n
    rw [List.length_cons, update_self, hMap n, hMirror.references_eq n]
  · apply hMirror.congr
    grind

/- Its map is gone when the scope is left. -/
theorem leave (map : Name → Option (Entry α)) :
    Mirrors (update maps rest.length map) rest := by
  apply hMirror.2.congr
  intro k hLt
  exact update_of_ne (by omega) _ _

end

/- An assignment changes the variable where it is. -/
theorem write [DecidableEq Name] {scopes scopes' : List (Scope Name α)}
    (hMirror : Mirrors maps scopes)
    (hAssign : assign scopes n v = some scopes') (hPlace : place scopes n = some k) :
    Mirrors (LexicalScopes.write maps k n v) scopes' ∧
      ∀ m, place scopes' m = place scopes m := by
  induction scopes generalizing scopes' with
  | nil => cases hAssign
  | cons s rest ih =>
    have hHead := hMirror.1
    unfold assign at hAssign
    unfold place at hPlace
    cases hDecl : s n with
    | some w =>
      rw [hDecl] at hAssign hPlace
      cases hAssign
      cases hPlace
      refine ⟨⟨fun m => ?_, ?_⟩, fun m => ?_⟩
      · unfold LexicalScopes.write
        rw [update_self]
        grind
      · exact hMirror.leave _
      · unfold place
        grind
    | none =>
      rw [hDecl] at hAssign hPlace
      rcases Option.map_eq_some_iff.mp hAssign with ⟨rest', hRest, rfl⟩
      rcases ih hMirror.2 hRest hPlace with ⟨hBelow, hSame⟩
      have hLt := place_lt hPlace
      have hLen := length_assign hRest
      refine ⟨⟨fun m => ?_, hBelow⟩, fun m => ?_⟩
      · unfold LexicalScopes.write
        rw [hLen, update_of_ne (by omega), hSame m]
        exact hHead m
      · unfold place
        rw [hSame m, hLen]

end Mirrors

/- What is assigned to is visible. -/
theorem lookup_of_assign [DecidableEq Name]
    {scopes' : List (Scope Name α)} {w : α}
    (hAssign : assign scopes n w = some scopes') : ∃ v, lookup scopes n = some v := by
  induction scopes generalizing scopes' with
  | nil => cases hAssign
  | cons s rest ih =>
    unfold assign at hAssign
    unfold lookup
    cases hDecl : s n with
    | some u => exact ⟨u, rfl⟩
    | none =>
      rw [hDecl] at hAssign
      rcases Option.map_eq_some_iff.mp hAssign with ⟨rest', hRest, _⟩
      exact ih hRest

----
-- Runs Over Maps
----

open Filter

/- What holds of a number of steps holds of some more. -/
theorem eventually_add {p q : Nat → Prop} (m : Nat) (hStep : ∀ n, p n → q (n + m))
    (h : ∀ᶠ n in atTop, p n) : ∀ᶠ n in atTop, q n := by
  rcases eventually_atTop.mp h with ⟨N, hN⟩
  refine eventually_atTop.mpr ⟨N + m, fun n hLe => ?_⟩
  have hSplit : n - m + m = n := by omega
  rw [← hSplit]
  exact hStep _ (hN _ (by omega))

theorem eventually_sub {p q : Nat → Prop} (m : Nat) (hStep : ∀ n, p (n + m) → q n)
    (h : ∀ᶠ n in atTop, p n) : ∀ᶠ n in atTop, q n := by
  rcases eventually_atTop.mp h with ⟨N, hN⟩
  exact eventually_atTop.mpr ⟨N, fun n hLe => hStep n (hN _ (by omega))⟩

/-
  From maps of some scopes a run gets, with enough steps, to
  maps of as many scopes.  `P` says what the run does with a
  number of steps between two maps, of which one is the
  innermost.
-/
def Follows (scopes scopes' : List (Scope Name α))
    (P : Nat → Maps Name α → Maps Name α → Nat → Prop) : Prop :=
  ∀ maps, scopes ≠ [] → Mirrors maps scopes →
    scopes'.length = scopes.length ∧ ∃ maps', Mirrors maps' scopes' ∧
      ∀ᶠ steps in atTop, P steps maps maps' (scopes.length - 1)

theorem ne_nil_of_length {scopes' : List (Scope Name α)}
    (hLen : scopes'.length = scopes.length) (hNe : scopes ≠ []) : scopes' ≠ [] := by
  intro hNil
  rw [hNil] at hLen
  exact hNe (List.eq_nil_of_length_eq_zero hLen.symm)

namespace Follows

variable {scopes₁ scopes' : List (Scope Name α)}
  {P Q : Nat → Maps Name α → Maps Name α → Nat → Prop} {p : Nat → Maps Name α → Nat → Prop}

theorem refl (k : Nat) (hRun : ∀ n maps cur, P (n + k) maps maps cur) :
    Follows scopes scopes P :=
  fun maps _ hMirror => ⟨rfl, maps, hMirror,
    eventually_add k (fun n _ => hRun n maps _) (Eventually.of_forall fun _ => trivial)⟩

theorem later (k : Nat) (h : Follows scopes scopes' P)
    (hStep : ∀ n maps maps' cur, P n maps maps' cur → Q (n + k) maps maps' cur) :
    Follows scopes scopes' Q := by
  intro maps hNe hMirror
  rcases h maps hNe hMirror with ⟨hLen, maps', hMirror', hSteps⟩
  exact ⟨hLen, maps', hMirror', eventually_add k (fun n => hStep n maps maps' _) hSteps⟩

theorem sooner (k : Nat) (h : Follows scopes scopes' P)
    (hStep : ∀ n maps maps' cur, P (n + k) maps maps' cur → Q n maps maps' cur) :
    Follows scopes scopes' Q := by
  intro maps hNe hMirror
  rcases h maps hNe hMirror with ⟨hLen, maps', hMirror', hSteps⟩
  exact ⟨hLen, maps', hMirror', eventually_sub k (fun n => hStep n maps maps' _) hSteps⟩

/- One run after the other. -/
theorem seq (h : Follows scopes scopes₁ P) (hRest : Follows scopes₁ scopes' Q) :
    Follows scopes scopes' fun n maps maps' cur =>
      ∃ maps₁, P n maps maps₁ cur ∧ Q n maps₁ maps' cur := by
  intro maps hNe hMirror
  rcases h maps hNe hMirror with ⟨hLen₁, maps₁, hMirror₁, hSteps₁⟩
  rcases hRest maps₁ (ne_nil_of_length hLen₁ hNe) hMirror₁ with ⟨hLen₂, maps₂, hMirror₂, hSteps₂⟩
  rw [hLen₁] at hSteps₂
  exact ⟨hLen₂.trans hLen₁, maps₂, hMirror₂, (hSteps₁.and hSteps₂).mono fun n hn => ⟨maps₁, hn⟩⟩

/- What is found before the run. -/
theorem before (h : Follows scopes scopes' P)
    (hp : ∀ maps, Mirrors maps scopes → ∀ᶠ n in atTop, p n maps (scopes.length - 1)) :
    Follows scopes scopes' fun n maps maps' cur => p n maps cur ∧ P n maps maps' cur := by
  intro maps hNe hMirror
  rcases h maps hNe hMirror with ⟨hLen, maps', hMirror', hSteps⟩
  exact ⟨hLen, maps', hMirror', (hp maps hMirror).and hSteps⟩

/- What is found after the run. -/
theorem after (h : Follows scopes scopes' P)
    (hp : ∀ maps, Mirrors maps scopes' → ∀ᶠ n in atTop, p n maps (scopes'.length - 1)) :
    Follows scopes scopes' fun n maps maps' cur => P n maps maps' cur ∧ p n maps' cur := by
  intro maps hNe hMirror
  rcases h maps hNe hMirror with ⟨hLen, maps', hMirror', hSteps⟩
  have hAfter := hp maps' hMirror'
  rw [hLen] at hAfter
  exact ⟨hLen, maps', hMirror', hSteps.and hAfter⟩

end Follows

end LexicalScopes
