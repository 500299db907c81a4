import Mathlib.Data.List.Basic
import Mathlib.Tactic

/-!
# Rounding, tagging and bytes of machine words

Clearing the low `k` bits of a word rounds it down to a multiple of `2 ^ k`.
A multiple of `2 ^ k` has room for a tag below `2 ^ k`: or-ing the tag in adds
it, and shifting right by `k` forgets it again.
-/

set_option autoImplicit false

namespace Words

variable {w : ℕ}

theorem toNat_and_high (x : BitVec w) (k : ℕ) :
    (x &&& ~~~(BitVec.ofNat w (2^k-1))).toNat = x.toNat/2^k*2^k := by
  apply Nat.eq_of_testBit_eq
  intro i
  rw [BitVec.testBit_toNat, ← Nat.shiftLeft_eq, ← Nat.shiftRight_eq_div_pow, Nat.testBit_shiftLeft,
    Nat.testBit_shiftRight, BitVec.getLsbD_and, BitVec.getLsbD_not, BitVec.getLsbD_ofNat,
    Nat.testBit_two_pow_sub_one, ← BitVec.testBit_toNat]
  by_cases hik : i < k
  · by_cases hiw : i < w <;> simp [hik, hiw, show ¬ k ≤ i by omega]
  · by_cases hiw : i < w
    · simp [hik, hiw, show k ≤ i by omega, show k+(i-k) = i by omega]
    · have hx : x.toNat.testBit i = false := by
        rw [BitVec.testBit_toNat, BitVec.getLsbD_of_ge x i (by omega)]
      simp [hiw, hx, show k ≤ i by omega, show k+(i-k) = i by omega]

theorem toNat_or_tag (x t : BitVec w) (k : ℕ) (hx : x.toNat%2^k = 0) (ht : t.toNat < 2^k) :
    (x ||| t).toNat = x.toNat+t.toNat := by
  have hm : x.toNat = 2^k*(x.toNat/2^k) := by
    have := Nat.div_add_mod x.toNat (2^k)
    omega
  rw [BitVec.toNat_or, hm]
  exact (Nat.two_pow_add_eq_or_of_lt ht _).symm

/-! ## Bytes of a word, from the least significant one on -/

def byteOf (x : BitVec w) (k : ℕ) : BitVec 8 := x.extractLsb' (8*k) 8

def setByte (x : BitVec w) (k : ℕ) (b : BitVec 8) : BitVec w :=
  (x &&& ~~~((0xFF#8).setWidth w <<< (8*k))) ||| (b.setWidth w <<< (8*k))

theorem getLsbD_setByte (x : BitVec w) (k : ℕ) (b : BitVec 8) {i : ℕ} (hi : i < w) :
    (setByte x k b).getLsbD i =
      if 8*k ≤ i ∧ i < 8*k+8 then b.getLsbD (i-8*k) else x.getLsbD i := by
  have hmask : (0xFF#8).getLsbD (i-8*k) = decide (i-8*k < 8) := by
    rw [show (0xFF#8) = BitVec.allOnes 8 from rfl, BitVec.getLsbD_allOnes]
  simp only [setByte, BitVec.getLsbD_or, BitVec.getLsbD_and, BitVec.getLsbD_not, BitVec.getLsbD_shiftLeft,
    BitVec.getLsbD_setWidth, hmask, hi, decide_true, Bool.true_and]
  by_cases hlow : i < 8*k
  · simp [hlow, show ¬ 8*k ≤ i by omega]
  · by_cases hhigh : i < 8*k+8
    · simp [hlow, hhigh, show 8*k ≤ i by omega, show i-8*k < 8 by omega, show i-8*k < w by omega]
    · have hb : b.getLsbD (i-8*k) = false := BitVec.getLsbD_of_ge b _ (by omega)
      simp [hlow, hhigh, hb, show ¬ i-8*k < 8 by omega]

theorem byteOf_setByte (x : BitVec w) {k : ℕ} (b : BitVec 8) (h : 8*k+8 ≤ w) :
    byteOf (setByte x k b) k = b := by
  apply BitVec.eq_of_getLsbD_eq
  intro i hi
  rw [byteOf, BitVec.getLsbD_extractLsb', getLsbD_setByte x k b (by omega), if_pos (by omega)]
  simp [hi]

theorem byteOf_setByte_ne (x : BitVec w) {j k : ℕ} (b : BitVec 8) (h : 8*j+8 ≤ w) (hjk : j ≠ k) :
    byteOf (setByte x k b) j = byteOf x j := by
  apply BitVec.eq_of_getLsbD_eq
  intro i hi
  rw [byteOf, byteOf, BitVec.getLsbD_extractLsb', BitVec.getLsbD_extractLsb',
    getLsbD_setByte x k b (by omega), if_neg (by omega)]

theorem getLsbD_byteOf (x : BitVec w) (k : ℕ) {i : ℕ} (hi : i < 8) :
    (byteOf x k).getLsbD i = x.getLsbD (8*k+i) := by
  rw [byteOf, BitVec.getLsbD_extractLsb', decide_eq_true hi, Bool.true_and]

theorem append_byteOf (x : BitVec 32) : byteOf x 3 ++ byteOf x 2 ++ byteOf x 1 ++ byteOf x 0 = x := by
  refine BitVec.eq_of_getLsbD_eq fun i hi => ?_
  simp only [byteOf, BitVec.getLsbD_append, BitVec.getLsbD_extractLsb']
  split_ifs with h0 h1 h2
  · simp [h0]
  · simp [h1, show 8+(i-8) = i by omega]
  · simp [h2, show 16+(i-8-8) = i by omega]
  · simp [show i-8-8-8 < 8 by omega, show 24+(i-8-8-8) = i by omega]

theorem append_byteOf_half (x : BitVec 16) : byteOf x 1 ++ byteOf x 0 = x := by
  refine BitVec.eq_of_getLsbD_eq fun i hi => ?_
  simp only [byteOf, BitVec.getLsbD_append, BitVec.getLsbD_extractLsb']
  split_ifs with h0
  · simp [h0]
  · simp [show i-8 < 8 by omega, show 8+(i-8) = i by omega]

theorem byteOf_shift (x : BitVec w) (j k : ℕ) : byteOf (x >>> (8*j)) k = byteOf x (j+k) := by
  refine BitVec.eq_of_getLsbD_eq fun i hi => ?_
  rw [getLsbD_byteOf _ k hi, getLsbD_byteOf x _ hi, BitVec.getLsbD_ushiftRight, show 8*j+(8*k+i) = 8*(j+k)+i by omega]

theorem mask_byte (x : BitVec 32) : (x &&& 0xFF#32).setWidth 8 = byteOf x 0 := by
  refine BitVec.eq_of_getLsbD_eq fun i hi => ?_
  have hmask : ∀ j : Fin 8, (0xFF#32).getLsbD j.val = true := by decide
  rw [getLsbD_byteOf x 0 hi, BitVec.getLsbD_setWidth, BitVec.getLsbD_and, hmask ⟨i,hi⟩]
  simp [hi]

theorem byteOf_mask_half (x : BitVec 32) {k : ℕ} (hk : k < 2) :
    byteOf ((x &&& 0xFFFF#32).setWidth 16) k = byteOf x k := by
  refine BitVec.eq_of_getLsbD_eq fun i hi => ?_
  have hmask : ∀ j : Fin 16, (0xFFFF#32).getLsbD j.val = true := by decide
  rw [getLsbD_byteOf _ k hi, getLsbD_byteOf x k hi, BitVec.getLsbD_setWidth, BitVec.getLsbD_and,
    hmask ⟨8*k+i,by omega⟩]
  simp [show 8*k+i < 16 by omega]

end Words
