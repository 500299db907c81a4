import Mathlib.Data.List.Basic
import Mathlib.Tactic

/-!
# Writes to separate slots

A call writes a value to one slot of a state and leaves the other slots alone.
After any run of calls a slot holds what the last call on it wrote, whatever it
held before, and a slot no call is on holds what it held.
-/

set_option autoImplicit false

namespace Slots

/-- How calls act on a state: the slot a call is on, what it writes there, and
what a slot of a state holds. `valid` tells the slots that exist. -/
structure Writes (σ κ ν γ : Type*) where
  write : σ → γ → σ
  read : σ → κ → ν
  slot : γ → κ
  value : γ → ν
  valid : κ → Prop
  same : ∀ s c, valid (slot c) → read (write s c) (slot c) = value c
  other : ∀ s c k, valid (slot c) → valid k → k ≠ slot c → read (write s c) k = read s k

variable {σ κ ν γ : Type*} (w : Writes σ κ ν γ)

def Writes.run (calls : List γ) (s : σ) : σ := calls.foldl w.write s

/-- Calls on other slots never change a slot. -/
theorem run_untouched {calls : List γ} (hvalid : ∀ c ∈ calls, w.valid (w.slot c)) {k : κ} (hk : w.valid k)
    (hother : ∀ c ∈ calls, w.slot c ≠ k) (s : σ) : w.read (w.run calls s) k = w.read s k := by
  induction calls generalizing s with
  | nil => rfl
  | cons c calls ih =>
    obtain ⟨hc,hcalls⟩ := List.forall_mem_cons.mp hvalid
    obtain ⟨hck,hothers⟩ := List.forall_mem_cons.mp hother
    calc w.read (w.run calls (w.write s c)) k = w.read (w.write s c) k := ih hcalls hothers _
      _ = w.read s k := w.other s c k hc hk hck.symm

/-- A slot holds what the last call on it wrote. -/
theorem run_last {before after : List γ} {c : γ} (hvalid : ∀ d ∈ before ++ c::after, w.valid (w.slot d))
    (hlast : ∀ d ∈ after, w.slot d ≠ w.slot c) (s : σ) :
    w.read (w.run (before ++ c::after) s) (w.slot c) = w.value c := by
  obtain ⟨hc,hafter⟩ := List.forall_mem_cons.mp (List.forall_mem_append.mp hvalid).2
  rw [Writes.run, List.foldl_append, List.foldl_cons]
  calc w.read (w.run after (w.write (w.run before s) c)) (w.slot c)
      = w.read (w.write (w.run before s) c) (w.slot c) := run_untouched w hafter hc hlast _
    _ = w.value c := w.same _ c hc

end Slots
