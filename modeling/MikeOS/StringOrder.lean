import MikeOS.FileModes
import Mathlib.Data.List.Lex

/-!
# The order of strcmp

Strings are compared character by character, as signed numbers, and a string
comes before those it is a beginning of: the sign of the result is that of the
lexicographic order.
-/

set_option autoImplicit false

namespace MikeOS.StringOrder
open MikeOS.CString MikeOS.FileModes

def chars (s : List Byte) : List ℤ := s.map BitVec.toInt

theorem chars_inj {a b : List Byte} : chars a = chars b ↔ a = b :=
  (List.map_injective_iff.mpr fun _ _ => BitVec.eq_of_toInt_eq).eq_iff

theorem spells_unique {str1 : ℕ → Byte} {a b : List Byte} (ha : 0#8 ∉ a) (hb : 0#8 ∉ b)
    (h : Spells str1 a) : Spells str1 b ↔ a = b := by
  constructor
  · intro h'
    induction a generalizing b str1 with
    | nil =>
      cases b with
      | nil => rfl
      | cons d b =>
        have hd : str1 0 = d := ((spells_cons str1 d b).mp h').1
        exact absurd (List.mem_cons.mpr (Or.inl (h.2.symm.trans hd))) hb
    | cons c a ih =>
      obtain ⟨hc,hrest⟩ := (spells_cons str1 c a).mp h
      cases b with
      | nil => exact absurd (List.mem_cons.mpr (Or.inl (h'.2.symm.trans hc))) ha
      | cons d b =>
        obtain ⟨hd,hrest'⟩ := (spells_cons str1 d b).mp h'
        rw [← hc, ← hd, ih (mt (List.mem_cons_of_mem c) ha) (mt (List.mem_cons_of_mem d) hb) hrest hrest']
  · rintro rfl
    exact h

theorem strcmp_neg_iff {str1 : ℕ → Byte} {a b : List Byte} (ha : 0#8 ∉ a) (hb : 0#8 ∉ b) (h : Spells str1 a) :
    strcmp str1 b < 0 ↔ chars a < chars b := by
  induction b generalizing a str1 with
  | nil =>
    rw [strcmp]
    refine iff_of_false ?_ (List.not_lt_nil _)
    split <;> decide
  | cons c b ih =>
    have hc : c ≠ 0#8 := fun he => hb (by rw [he]; exact List.mem_cons_self)
    cases a with
    | nil =>
      have h0 : str1 0 = 0#8 := h.2
      rw [strcmp, if_neg (fun hboth => hboth.1 h0), if_pos hc]
      exact iff_of_true (by decide) (List.nil_lt_cons _ _)
    | cons d a =>
      obtain ⟨hd,hrest⟩ := (spells_cons str1 d a).mp h
      have hd0 : d ≠ 0#8 := fun he => ha (by rw [he]; exact List.mem_cons_self)
      rw [strcmp, hd, if_pos ⟨hd0,hc⟩, chars, chars, List.map_cons, List.map_cons, List.cons_lt_cons_iff]
      by_cases he : d = c
      · rw [if_neg (not_not.mpr he), ih (mt (List.mem_cons_of_mem d) ha) (mt (List.mem_cons_of_mem c) hb) hrest, he]
        exact ⟨fun hlt => Or.inr ⟨rfl,hlt⟩,fun hlt => (hlt.resolve_left (lt_irrefl _)).2⟩
      · have hne : d.toInt ≠ c.toInt := fun hi => he (BitVec.eq_of_toInt_eq hi)
        rw [if_pos he, or_iff_left fun hboth => hne hboth.1]
        omega

theorem strcmp_zero_iff {str1 : ℕ → Byte} {a b : List Byte} (ha : 0#8 ∉ a) (hb : 0#8 ∉ b) (h : Spells str1 a) :
    strcmp str1 b = 0 ↔ a = b :=
  (strcmp_eq_zero_iff str1 b hb).trans (spells_unique ha hb h)

theorem strcmp_pos_iff {str1 : ℕ → Byte} {a b : List Byte} (ha : 0#8 ∉ a) (hb : 0#8 ∉ b) (h : Spells str1 a) :
    0 < strcmp str1 b ↔ chars b < chars a := by
  have hneg := strcmp_neg_iff ha hb h
  have hzero := (strcmp_zero_iff ha hb h).trans chars_inj.symm
  constructor
  · intro hpos
    refine lt_of_le_of_ne (not_lt.mp fun hlt => ?_) fun he => ?_
    · have := hneg.mpr hlt
      omega
    · have := hzero.mpr he.symm
      omega
  · intro hlt
    have h1 : ¬ strcmp str1 b < 0 := fun hn => lt_asymm (hneg.mp hn) hlt
    have h2 : strcmp str1 b ≠ 0 := fun hz => hlt.ne (hzero.mp hz).symm
    omega

/-- Whatever bytes follow the strings, `strcmp` decides a total order of them. -/
theorem strcmp_total_order (a b c : CStr) (str1 str2 : ℕ → Byte) (ha : Spells str1 a.1) (hb : Spells str2 b.1) :
    (strcmp str1 b.1 = 0 ↔ a = b) ∧ (strcmp str1 b.1).sign = -(strcmp str2 a.1).sign ∧
      (strcmp str1 b.1 < 0 → strcmp str2 c.1 < 0 → strcmp str1 c.1 < 0) := by
  refine ⟨(strcmp_zero_iff a.2 b.2 ha).trans Subtype.ext_iff.symm,?_,fun hab hbc => ?_⟩
  · rcases lt_trichotomy (chars a.1) (chars b.1) with hlt | heq | hgt
    · rw [Int.sign_eq_neg_one_of_neg ((strcmp_neg_iff a.2 b.2 ha).mpr hlt),
        Int.sign_eq_one_of_pos ((strcmp_pos_iff b.2 a.2 hb).mpr hlt)]
    · have he := chars_inj.mp heq
      rw [(strcmp_zero_iff a.2 b.2 ha).mpr he, (strcmp_zero_iff b.2 a.2 hb).mpr he.symm]
      rfl
    · rw [Int.sign_eq_one_of_pos ((strcmp_pos_iff a.2 b.2 ha).mpr hgt),
        Int.sign_eq_neg_one_of_neg ((strcmp_neg_iff b.2 a.2 hb).mpr hgt)]
      rfl
  · rw [strcmp_neg_iff a.2 b.2 ha] at hab
    rw [strcmp_neg_iff b.2 c.2 hb] at hbc
    rw [strcmp_neg_iff a.2 c.2 ha]
    exact hab.trans hbc

/-- A string, a longer one that begins with it, and one with a character from the
upper half of the table, which counts as negative. -/
theorem strcmp_orders_three : (strcmp (fun i => [0xE1#8].getD i 0#8) [0x61#8] = 0 ↔
      (⟨[0xE1#8],by decide⟩ : CStr) = ⟨[0x61#8],by decide⟩) ∧
    (strcmp (fun i => [0xE1#8].getD i 0#8) [0x61#8]).sign =
      -(strcmp (fun i => [0x61#8].getD i 0#8) [0xE1#8]).sign ∧
    (strcmp (fun i => [0xE1#8].getD i 0#8) [0x61#8] < 0 →
      strcmp (fun i => [0x61#8].getD i 0#8) [0x61#8, 0x62#8] < 0 →
      strcmp (fun i => [0xE1#8].getD i 0#8) [0x61#8, 0x62#8] < 0) :=
  strcmp_total_order ⟨[0xE1#8],by decide⟩ ⟨[0x61#8],by decide⟩ ⟨[0x61#8, 0x62#8],by decide⟩ _ _
    (by unfold Spells; decide) (by unfold Spells; decide)

end MikeOS.StringOrder
