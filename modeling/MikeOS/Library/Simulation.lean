import MikeOS.Library.Transition

/-!
# Runs seen through an abstraction

A machine refines another one when each step, seen through the abstraction, is
the step of the other machine: both take it or neither does. An invariant of the
first machine and a condition on the steps may be needed for that.
-/

set_option autoImplicit false

namespace Simulation
open Transition

variable {σ τ α : Type*}

structure Refines (step : σ → α → Option σ) (step' : τ → α → Option τ) (view : σ → τ) (Inv : σ → Prop)
    (Allowed : σ → α → Prop) : Prop where
  inv : ∀ s a t, Inv s → Allowed s a → step s a = some t → Inv t
  same : ∀ s a, Inv s → Allowed s a → step' (view s) a = (step s a).map view

variable {step : σ → α → Option σ} {step' : τ → α → Option τ} {view : σ → τ} {Inv : σ → Prop}
  {Allowed : σ → α → Prop}

/-- Whole runs: the machines come to states that look alike, or both stop. -/
theorem Refines.run (h : Refines step step' view Inv Allowed) {as : List α} {s : σ} (has : Met step Allowed as s)
    (hs : Inv s) : Transition.run step' as (view s) = (Transition.run step as s).map view := by
  induction as generalizing s with
  | nil => rfl
  | cons a as ih =>
    obtain ⟨ha,hrest⟩ := has
    rw [run_cons, run_cons, h.same s a hs ha]
    cases ht : step s a with
    | none => rfl
    | some t => exact ih (hrest t ht) (h.inv s a t hs ha ht)

theorem Refines.always (h : Refines step step' view Inv Allowed) {P : σ → Prop} (hP : ∀ s, Inv s → P s) {as : List α}
    {s : σ} (has : Met step Allowed as s) (hs : Inv s) : Always step P as s := by
  induction as generalizing s with
  | nil => exact hP s hs
  | cons a as ih =>
    obtain ⟨ha,hrest⟩ := has
    exact ⟨hP s hs,fun t ht => ih (hrest t ht) (h.inv s a t hs ha ht)⟩

end Simulation
