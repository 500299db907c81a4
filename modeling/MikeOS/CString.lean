import MikeOS.Common

/-!
# Strings of the C library

A string that is known to end is the list of its characters, without the
terminating `NUL`; the other operand is whatever bytes a pointer leads to.
Characters are signed, as compiled for x86.
-/

set_option autoImplicit false

namespace MikeOS.CString

def strcmp : (ℕ → Byte) → List Byte → ℤ
  | str1, [] => if str1 0 ≠ 0#8 then 1 else 0
  | str1, c::str2 =>
    if str1 0 ≠ 0#8 ∧ c ≠ 0#8 then
      if str1 0 ≠ c then (str1 0).toInt-c.toInt else strcmp (fun i => str1 (i+1)) str2
    else if c ≠ 0#8 then -1
    else if str1 0 ≠ 0#8 then 1
    else 0

/-- The bytes at a pointer spell the string and end there. -/
def Spells (str1 : ℕ → Byte) (str2 : List Byte) : Prop :=
  (∀ i (h : i < str2.length), str1 i = str2[i]) ∧ str1 str2.length = 0#8

theorem spells_cons (str1 : ℕ → Byte) (c : Byte) (str2 : List Byte) :
    Spells str1 (c::str2) ↔ str1 0 = c ∧ Spells (fun i => str1 (i+1)) str2 := by
  constructor
  · rintro ⟨h,hend⟩
    exact ⟨h 0 (by simp),fun i hi => h (i+1) (by simpa using hi),hend⟩
  · rintro ⟨h0,h,hend⟩
    refine ⟨fun i hi => ?_,hend⟩
    cases i with
    | zero => exact h0
    | succ i => exact h i (by simpa using hi)

theorem strcmp_eq_zero_iff (str1 : ℕ → Byte) (str2 : List Byte) (h : 0#8 ∉ str2) :
    strcmp str1 str2 = 0 ↔ Spells str1 str2 := by
  induction str2 generalizing str1 with
  | nil => by_cases h0 : str1 0 = 0#8 <;> simp [strcmp, Spells, h0]
  | cons c str2 ih =>
    obtain ⟨hc,hrest⟩ : 0#8 ≠ c ∧ 0#8 ∉ str2 := by simpa [not_or] using h
    rw [strcmp, spells_cons, ← ih _ hrest]
    by_cases h0 : str1 0 = 0#8
    · simp [h0, hc, hc.symm]
    · rw [if_pos ⟨h0,hc.symm⟩]
      by_cases he : str1 0 = c
      · simp [he]
      · have hne : (str1 0).toInt ≠ c.toInt := fun hi => he (BitVec.eq_of_toInt_eq hi)
        simp only [ne_eq, he, not_false_eq_true, if_true, false_and, iff_false]
        omega

end MikeOS.CString
