import Mathlib.Data.Nat.Digits.Lemmas

/-!
# Positional numerals

A system of digits has a symbol for every number below its base, and a value
for the symbols. A numeral lists the digits of a number with the most
significant one first. Reading takes digits one by one and accepts digits of
value zero in front.
-/

set_option autoImplicit false

structure Numeration (α : Type*) where
  base : ℕ
  base_gt : 1 < base
  digit : ℕ → α
  value : α → Option ℕ
  value_digit : ∀ d < base, value (digit d) = some d

namespace Numeration

variable {α : Type*} (N : Numeration α)

def numeral (n : ℕ) : List α := if n = 0 then [N.digit 0] else ((N.base.digits n).map N.digit).reverse

def readDigit (v : ℕ) (c : α) : Option ℕ := (N.value c).map (N.base*v+·)

def read : List α → Option ℕ
  | [] => none
  | c::text => (c::text).foldlM N.readDigit 0

theorem base_pos : 0 < N.base := Nat.zero_lt_of_lt N.base_gt

theorem digit_injective {d e : ℕ} (hd : d < N.base) (he : e < N.base) (h : N.digit d = N.digit e) : d = e := by
  have hv := N.value_digit d hd
  rw [h, N.value_digit e he] at hv
  exact (Option.some.inj hv).symm

theorem read_of_ne_nil {text : List α} (h : text ≠ []) : N.read text = text.foldlM N.readDigit 0 := by
  cases text with
  | nil => exact absurd rfl h
  | cons c text => rfl

theorem foldlM_digits (l : List ℕ) (h : ∀ d ∈ l, d < N.base) :
    ((l.map N.digit).reverse).foldlM N.readDigit 0 = some (Nat.ofDigits N.base l) := by
  induction l with
  | nil => rfl
  | cons d l ih =>
    obtain ⟨hd,hl⟩ := List.forall_mem_cons.mp h
    rw [List.map_cons, List.reverse_cons, List.foldlM_append, ih hl, Nat.ofDigits_cons]
    simp [readDigit, N.value_digit d hd, Nat.add_comm]

theorem numeral_ne_nil (n : ℕ) : N.numeral n ≠ [] := by
  rw [numeral]
  split
  · exact List.cons_ne_nil _ _
  · rename_i hn
    rw [Ne, List.reverse_eq_nil_iff, List.map_eq_nil_iff]
    exact Nat.digits_ne_nil_iff_ne_zero.mpr hn

theorem mem_numeral {n : ℕ} {c : α} (h : c ∈ N.numeral n) : ∃ d < N.base, c = N.digit d := by
  rw [numeral] at h
  split at h
  · exact ⟨0,N.base_pos,List.mem_singleton.mp h⟩
  · obtain ⟨d,hd,rfl⟩ := List.mem_map.mp (List.mem_reverse.mp h)
    exact ⟨d,Nat.digits_lt_base N.base_gt hd,rfl⟩

theorem read_numeral (n : ℕ) : N.read (N.numeral n) = some n := by
  rw [N.read_of_ne_nil (N.numeral_ne_nil n), numeral]
  split
  · rename_i hn
    simp [readDigit, N.value_digit 0 N.base_pos, hn]
  · rw [N.foldlM_digits _ fun d hd => Nat.digits_lt_base N.base_gt hd, Nat.ofDigits_digits]

theorem read_zeros {text : List α} {v : ℕ} (k : ℕ) (h : N.read text = some v) :
    N.read (List.replicate k (N.digit 0) ++ text) = some v := by
  have hne : text ≠ [] := by
    rintro rfl
    cases h
  rw [N.read_of_ne_nil (List.append_ne_nil_of_right_ne_nil _ hne), List.foldlM_append]
  have hzero : (List.replicate k (N.digit 0)).foldlM N.readDigit 0 = some 0 := by
    induction k with
    | zero => rfl
    | succ k ih =>
      rw [List.replicate_succ, List.foldlM_cons, readDigit, N.value_digit 0 N.base_pos]
      exact ih
  rw [hzero, ← h, N.read_of_ne_nil hne]
  rfl

/-- Only the number zero has a numeral that begins with the digit zero. -/
theorem head_numeral {n : ℕ} (h : (N.numeral n).head? = some (N.digit 0)) : n = 0 := by
  by_contra hn
  rw [numeral, if_neg hn, List.head?_reverse, List.getLast?_map,
    List.getLast?_eq_getLast_of_ne_nil (Nat.digits_ne_nil_iff_ne_zero.mpr hn)] at h
  have hlast := Nat.getLast_digit_ne_zero N.base hn
  exact hlast (N.digit_injective (Nat.digits_lt_base N.base_gt (List.getLast_mem _)) N.base_pos (Option.some.inj h))

theorem numeral_length_le {n k : ℕ} (hk : 0 < k) (h : n < N.base^k) : (N.numeral n).length ≤ k := by
  rw [numeral]
  split
  · exact hk
  · rw [List.length_reverse, List.length_map]
    exact (Nat.digits_length_le_iff N.base_gt n).mpr h

end Numeration
