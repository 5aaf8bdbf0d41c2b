import Mathlib.Logic.Relation

/-
  A value that is computed from inputs some time after they
  have changed.

  A change asks for an update, unless one is waiting that will
  read the inputs as they are then, or the value would be the
  same.  Whenever no update is waiting, the value is that of
  the inputs.
-/

----
-- Updates
----

namespace EpicSim

/- The inputs, whether an update is waiting, and the value of
   the last update. -/
structure DeferredUpdate (I O : Type) where
  inputs : I
  waiting : Bool
  latest : Option O

namespace DeferredUpdate

variable {I O : Type} {f : I → O}

/- Before any change. -/
def start (inputs : I) : DeferredUpdate I O where
  inputs := inputs
  waiting := false
  latest := none

/- What may happen. -/
inductive Step (f : I → O) :
    DeferredUpdate I O → DeferredUpdate I O → Prop where
| ask {s : DeferredUpdate I O} {inputs : I} :
    Step f s { s with inputs := inputs, waiting := true }
| wait {s : DeferredUpdate I O} {inputs : I} :
    s.waiting = true → Step f s { s with inputs := inputs }
| ignore {s : DeferredUpdate I O} {inputs : I} :
    s.latest.isSome = true → f inputs = f s.inputs → Step f s { s with inputs := inputs }
| update {s : DeferredUpdate I O} :
    s.waiting = true → Step f s { s with waiting := false, latest := some (f s.inputs) }

/- The value is that of the inputs, unless an update is
   waiting or nothing has asked for one. -/
def Settled (f : I → O) (s : DeferredUpdate I O) : Prop :=
  s.waiting = true ∨ s.latest = none ∨ s.latest = some (f s.inputs)

/- An update has been asked for. -/
def Asked (s : DeferredUpdate I O) : Prop :=
  s.waiting = true ∨ s.latest.isSome = true

theorem settled_start (inputs : I) : Settled f (start inputs : DeferredUpdate I O) :=
  Or.inr (Or.inl rfl)

variable {s s' : DeferredUpdate I O}

theorem Settled.step (hSettled : Settled f s) (hStep : Step f s s') :
    Settled f s' := by
  cases hStep with
  | ask => exact Or.inl rfl
  | wait hWaiting => exact Or.inl hWaiting
  | update _ => exact Or.inr (Or.inr rfl)
  | ignore _ hSame =>
    unfold Settled
    rw [hSame]
    exact hSettled

theorem Asked.step (hAsked : Asked s) (hStep : Step f s s') :
    Asked s' := by
  cases hStep with
  | ask => exact Or.inl rfl
  | wait hWaiting => exact Or.inl hWaiting
  | update _ => exact Or.inr rfl
  | ignore _ _ => exact hAsked

/- A change that leaves the value alone. -/
theorem Asked.keep (hAsked : Asked s) {inputs : I}
    (hSame : f inputs = f s.inputs) : Step f s { s with inputs := inputs } := by
  rcases hAsked with hWaiting | hSome
  · exact Step.wait hWaiting
  · exact Step.ignore hSome hSame

/- Over a whole run. -/
theorem settled_of_steps (hSettled : Settled f s)
    (hSteps : Relation.ReflTransGen (Step f) s s') : Settled f s' := by
  induction hSteps with
  | refl => exact hSettled
  | tail _ hStep ih => exact ih.step hStep

/- Where no update is waiting the value is that of the
   inputs. -/
theorem latest_of_settled (hSettled : Settled f s) (hAsked : Asked s)
    (hDone : s.waiting = false) : s.latest = some (f s.inputs) := by
  rcases hSettled with hWaiting | hNone | hLatest
  · rw [hDone] at hWaiting
    cases hWaiting
  · rcases hAsked with hWaiting | hSome
    · rw [hDone] at hWaiting
      cases hWaiting
    · rw [hNone] at hSome
      cases hSome
  · exact hLatest

end DeferredUpdate

end EpicSim
