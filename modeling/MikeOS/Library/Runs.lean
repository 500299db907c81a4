import Mathlib.Data.Nat.Count
import Mathlib.Tactic

/-!
# Runs of positions that satisfy a test

The run that ends at a position goes back to the last position that fails the
test, or to the first position of all.
-/

set_option autoImplicit false

namespace Runs

variable {p : ℕ → Bool}

structure RunTo (p : ℕ → Bool) (s e : ℕ) : Prop where
  le : s ≤ e
  holds : ∀ q, s ≤ q → q ≤ e → p q = true
  start : s = 0 ∨ p (s-1) = false

abbrev count (p : ℕ → Bool) (n : ℕ) : ℕ := Nat.count (fun k => p k = true) n

theorem RunTo.single {e : ℕ} (h : p e = true) (hs : e = 0 ∨ p (e-1) = false) : RunTo p e e :=
  ⟨le_refl e,fun q h1 h2 => by rwa [show q = e by omega],hs⟩

theorem RunTo.extend {s e : ℕ} (h : RunTo p s e) (hp : p (e+1) = true) : RunTo p s (e+1) := by
  refine ⟨by have := h.le; omega,fun q h1 h2 => ?_,h.start⟩
  by_cases hq : q = e+1
  · rw [hq, hp]
  · exact h.holds q h1 (by omega)

theorem RunTo.start_le {s t e : ℕ} (hs : RunTo p s e) (ht : RunTo p t e) : t ≤ s := by
  by_contra hlt
  rcases ht.start with h0 | hf
  · omega
  · have := ht.le
    rw [hs.holds (t-1) (by omega) (by omega)] at hf
    cases hf

theorem RunTo.unique {s t e : ℕ} (hs : RunTo p s e) (ht : RunTo p t e) : s = t :=
  le_antisymm (ht.start_le hs) (hs.start_le ht)

theorem count_step {j : ℕ} (h : p j = true) : count p (j+1) = count p j+1 := by
  rw [count, Nat.count_succ, if_pos h]

theorem count_skip {j : ℕ} (h : p j = false) : count p (j+1) = count p j := by
  rw [count, Nat.count_succ, if_neg (by simp [h]), Nat.add_zero]

theorem count_add {s m : ℕ} (h : ∀ q, q < m → p (s+q) = true) : count p (s+m) = count p s+m := by
  induction m with
  | zero => rfl
  | succ m ih =>
    rw [← Nat.add_assoc, count_step (h m (by omega)), ih (fun q hq => h q (by omega))]
    omega

theorem count_le (n : ℕ) : count p n ≤ n := Nat.count_le _

end Runs
