import Mathlib

/-
  Runs of a system given by a total transition function `step : σ → ε → σ`, in which an event
  that is not enabled leaves the state as it is.

  A run in which every event takes effect (`Busy`) is no longer than any measure that every
  effective event lowers (`Busy.length_le`): such a system cannot go on moving for ever, and a
  state from which some event always takes effect (a progress lemma) is left within that many
  events.
-/

namespace Runs

variable {σ ε : Type}

/-- A run of `step` in which every event takes effect. -/
inductive Busy (step : σ → ε → σ) : σ → List ε → Prop
  | nil (s : σ) : Busy step s []
  | cons {s : σ} {e : ε} {events : List ε} :
      step s e ≠ s → Busy step (step s e) events → Busy step s (e :: events)

/-- A measure that every effective event lowers bounds every busy run. -/
theorem Busy.length_le {step : σ → ε → σ} (measure : σ → Nat)
    (hdec : ∀ s e, step s e ≠ s → measure (step s e) < measure s) {s : σ} {events : List ε}
    (h : Busy step s events) : events.length ≤ measure s := by
  induction h with
  | nil => exact Nat.zero_le _
  | cons hne _ ih =>
    have := hdec _ _ hne
    rw [List.length_cons]
    omega

end Runs
