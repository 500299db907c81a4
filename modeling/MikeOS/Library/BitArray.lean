import Mathlib.Data.List.Basic
import Mathlib.Tactic

/-!
# Bit arrays stored in bytes, most significant bit first

Position `p` of an array of bytes is bit `p % 8` of byte `p / 8`, counted from
the most significant bit of the byte. Setting and clearing one position leaves
every other position alone. The array is total; its length is a matter for the
program that uses it.
-/

set_option autoImplicit false

namespace BitArray

abbrev Bytes := ℕ → BitVec 8

def bit (a : Bytes) (p : ℕ) : Bool := (a (p/8)).getMsbD (p%8)

def setMask (b : BitVec 8) (k : ℕ) : BitVec 8 := b ||| (0x80#8 >>> k)

def clearMask (b : BitVec 8) (k : ℕ) : BitVec 8 := b &&& ~~~(0x80#8 >>> k)

theorem getMsbD_mask (j k : ℕ) (hj : j < 8) :
    (0x80#8 >>> k).getMsbD j = decide (j = k) := by
  rw [BitVec.getMsbD_ushiftRight]
  by_cases hk : k ≤ j
  · have h8 : ∀ d : Fin 8, BitVec.getMsbD 128#8 d.val = decide (d.val = 0) := by decide
    rw [h8 ⟨j-k,by omega⟩]
    simp only [hj, decide_true, Bool.true_and]
    by_cases hjk : j = k
    · simp [hjk]
    · simp [hjk, show ¬ j-k = 0 by omega]
  · simp [show j < k by omega, show ¬ j = k by omega]

theorem getMsbD_setMask (b : BitVec 8) (j k : ℕ) (hj : j < 8) :
    (setMask b k).getMsbD j = (decide (j = k) || b.getMsbD j) := by
  rw [setMask, BitVec.getMsbD_or, getMsbD_mask j k hj, Bool.or_comm]

theorem getMsbD_clearMask (b : BitVec 8) (j k : ℕ) (hj : j < 8) :
    (clearMask b k).getMsbD j = (!decide (j = k) && b.getMsbD j) := by
  rw [clearMask, BitVec.getMsbD_and, BitVec.getMsbD_not, getMsbD_mask j k hj]
  simp [hj, Bool.and_comm]

def modifyAt (f : BitVec 8 → ℕ → BitVec 8) (a : Bytes) (p : ℕ) : Bytes :=
  Function.update a (p/8) (f (a (p/8)) (p%8))

def set (a : Bytes) (p : ℕ) : Bytes := modifyAt setMask a p

def clear (a : Bytes) (p : ℕ) : Bytes := modifyAt clearMask a p

theorem same_position {p q : ℕ} (h : q/8 = p/8) : q%8 = p%8 ↔ q = p := by
  omega

@[simp] theorem bit_set (a : Bytes) (p q : ℕ) :
    bit (set a p) q = (decide (q = p) || bit a q) := by
  unfold bit set modifyAt
  by_cases h : q/8 = p/8
  · simp [h, getMsbD_setMask _ _ _ (Nat.mod_lt q (by decide)), same_position h]
  · simp [Function.update_of_ne h, show q ≠ p by rintro rfl; exact h rfl]

@[simp] theorem bit_clear (a : Bytes) (p q : ℕ) :
    bit (clear a p) q = (!decide (q = p) && bit a q) := by
  unfold bit clear modifyAt
  by_cases h : q/8 = p/8
  · simp [h, getMsbD_clearMask _ _ _ (Nat.mod_lt q (by decide)), same_position h]
  · simp [Function.update_of_ne h, show q ≠ p by rintro rfl; exact h rfl]

theorem byte_eq_zero_iff (a : Bytes) (i : ℕ) :
    a i = 0#8 ↔ ∀ p, p/8 = i → bit a p = false := by
  constructor
  · rintro h p rfl
    simp [bit, h]
  · intro h
    apply BitVec.eq_of_getMsbD_eq
    intro k hk
    have hp := h (8*i+k) (by omega)
    simpa only [bit, show (8*i+k)/8 = i by omega, show (8*i+k)%8 = k by omega,
      BitVec.getMsbD_zero] using hp

/-- Positions `p, …, p+n-1`, one after the other. -/
def overRange (f : Bytes → ℕ → Bytes) (a : Bytes) (p : ℕ) : ℕ → Bytes
  | 0 => a
  | n+1 => overRange f (f a p) (p+1) n

theorem bit_set_range (a : Bytes) (p n q : ℕ) :
    bit (overRange set a p n) q = (decide (p ≤ q ∧ q < p+n) || bit a q) := by
  induction n generalizing a p with
  | zero => simp [overRange, show ¬ (p ≤ q ∧ q < p) by omega]
  | succ n ih =>
    rw [overRange, ih, bit_set]
    by_cases h : q = p
    · simp [h]
    · simp only [h, decide_false, Bool.false_or, show (p+1 ≤ q ∧ q < p+1+n) ↔ (p ≤ q ∧ q < p+(n+1)) by omega]

theorem bit_clear_range (a : Bytes) (p n q : ℕ) :
    bit (overRange clear a p n) q = (!decide (p ≤ q ∧ q < p+n) && bit a q) := by
  induction n generalizing a p with
  | zero => simp [overRange, show ¬ (p ≤ q ∧ q < p) by omega]
  | succ n ih =>
    rw [overRange, ih, bit_clear]
    by_cases h : q = p
    · simp [h]
    · simp only [h, decide_false, Bool.not_false, Bool.true_and,
        show (p+1 ≤ q ∧ q < p+1+n) ↔ (p ≤ q ∧ q < p+(n+1)) by omega]

end BitArray
