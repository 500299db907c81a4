import Mathlib.Logic.Function.Basic
import Mathlib.Tactic

/-!
# Segments of an array

An array is a function on indices. `splice f base d n` is `f` with the `n`
values from `base` on replaced by the first `n` of `d`; consecutive pieces of
one source join to one segment.
-/

set_option autoImplicit false

namespace Segment

variable {α : Type*}

def splice (f : ℕ → α) (base : ℕ) (d : ℕ → α) (n : ℕ) : ℕ → α :=
  fun k => if base ≤ k ∧ k < base+n then d (k-base) else f k

theorem splice_inside (f : ℕ → α) {base k n : ℕ} (d : ℕ → α) (h : base ≤ k) (hn : k < base+n) :
    splice f base d n k = d (k-base) := if_pos ⟨h,hn⟩

theorem splice_outside (f : ℕ → α) {base k n : ℕ} (d : ℕ → α) (h : k < base ∨ base+n ≤ k) :
    splice f base d n k = f k := by
  apply if_neg
  omega

@[simp] theorem splice_zero (f : ℕ → α) (base : ℕ) (d : ℕ → α) : splice f base d 0 = f := by
  ext k
  exact splice_outside f d (by omega)

theorem splice_congr (f : ℕ → α) (base : ℕ) {d d' : ℕ → α} {n : ℕ} (h : ∀ k < n, d k = d' k) :
    splice f base d n = splice f base d' n := by
  ext k
  by_cases hk : base ≤ k ∧ k < base+n
  · rw [splice_inside f d hk.1 hk.2, splice_inside f d' hk.1 hk.2, h (k-base) (by omega)]
  · rw [splice_outside f d (by omega), splice_outside f d' (by omega)]

theorem update_eq_splice (f : ℕ → α) (base : ℕ) (d : ℕ → α) :
    Function.update f base (d 0) = splice f base d 1 := by
  ext k
  by_cases hk : k = base
  · rw [hk, Function.update_self, splice_inside f d le_rfl (by omega), Nat.sub_self]
  · rw [Function.update_of_ne hk, splice_outside f d (by omega)]

theorem splice_splice (f : ℕ → α) (base : ℕ) (d : ℕ → α) (m n : ℕ) :
    splice (splice f base d m) (base+m) (fun k => d (m+k)) n = splice f base d (m+n) := by
  ext k
  by_cases hm : base+m ≤ k ∧ k < base+m+n
  · rw [splice_inside _ _ hm.1 hm.2, splice_inside f d (by omega) (by omega)]
    congr 1
    omega
  · rw [splice_outside _ _ (by omega)]
    by_cases hb : base ≤ k ∧ k < base+m
    · rw [splice_inside f d hb.1 hb.2, splice_inside f d hb.1 (by omega)]
    · rw [splice_outside f d (by omega), splice_outside f d (by omega)]

end Segment
