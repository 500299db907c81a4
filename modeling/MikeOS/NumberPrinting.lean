import MikeOS.Stdio
import MikeOS.Library.Numerals
import Mathlib.Data.List.DropRight

/-!
# Numbers in print

The digits go into a buffer of twelve characters, from its end on; a sign goes
in front of them there, or is emitted ahead of zeros that fill the width.
-/

set_option autoImplicit false

namespace MikeOS.NumberPrinting
open MikeOS.Stdio

/-! ## The conversions -/

inductive Conversion where
  | d
  | u
  | x
  | X
  deriving DecidableEq, Repr

def Conversion.kind : Conversion → Byte
  | .d => 0x64#8
  | .u => 0x75#8
  | .x => 0x78#8
  | .X => 0x58#8

def Conversion.b : Conversion → Word
  | .d | .u => 10#32
  | .x | .X => 16#32

def Conversion.sg : Conversion → Bool
  | .d => true
  | .u | .x | .X => false

def Conversion.letbase : Conversion → Word
  | .d | .u | .x => 0x61#32
  | .X => 0x41#32

def Conversion.printi (conv : Conversion) (i width pad : Word) : Except Stop Output :=
  Stdio.printi i conv.b conv.sg width pad conv.letbase

theorem convert_kind (strings : Word → FileModes.CStr) (conv : Conversion) (arg width pad : Word) :
    convert strings conv.kind arg width pad = some (conv.printi arg width pad) := by
  cases conv <;> rfl

def Conversion.value (conv : Conversion) (i : Word) : ℤ := if conv.sg then i.toInt else i.toNat

def Conversion.digitValue (conv : Conversion) (c : Byte) : Option ℕ :=
  if 0x30 ≤ c.toNat ∧ c.toNat ≤ 0x39 then some (c.toNat-0x30)
  else if conv.b = 16#32 ∧ conv.letbase.toNat ≤ c.toNat ∧ c.toNat < conv.letbase.toNat+6 then
    some (10+(c.toNat-conv.letbase.toNat))
  else none

def Conversion.numeration (conv : Conversion) : Numeration Byte where
  base := conv.b.toNat
  base_gt := by cases conv <;> decide
  digit d := digitChar conv.letbase (BitVec.ofNat 32 d)
  value := conv.digitValue
  value_digit := by cases conv <;> decide

theorem digit_zero (conv : Conversion) : conv.numeration.digit 0 = 0x30#8 := by
  cases conv <;> decide

theorem digit_ne (conv : Conversion) {d : ℕ} (hd : d < conv.numeration.base) :
    conv.numeration.digit d ≠ 0#8 ∧ conv.numeration.digit d ≠ 0x20#8 ∧ conv.numeration.digit d ≠ 0x2D#8 := by
  revert d
  cases conv <;> decide

theorem numeral_ne (conv : Conversion) (n : ℕ) {c : Byte} (hc : c ∈ conv.numeration.numeral n) :
    c ≠ 0#8 ∧ c ≠ 0x20#8 ∧ c ≠ 0x2D#8 := by
  obtain ⟨d,hd,rfl⟩ := conv.numeration.mem_numeral hc
  exact digit_ne conv hd

theorem numeral_length (conv : Conversion) {n : ℕ} (h : n < 2^32) : (conv.numeration.numeral n).length ≤ 10 := by
  refine conv.numeration.numeral_length_le (by decide) (lt_of_lt_of_le h ?_)
  cases conv <;> decide

/-! ## The digits in print_buf -/

theorem digitLoop_eq (conv : Conversion) {s : ℕ} {u : Word} (text : List Byte)
    (h : (conv.numeration.base.digits u.toNat).length ≤ s) :
    digitLoop conv.b conv.letbase s u text =
      .ok (s-(conv.numeration.base.digits u.toNat).length,
        ((conv.numeration.base.digits u.toNat).map conv.numeration.digit).reverse ++ text) := by
  induction s generalizing u text with
  | zero =>
    have hu : u.toNat = 0 := Nat.digits_eq_nil_iff_eq_zero.mp (List.length_eq_zero_iff.mp (Nat.le_zero.mp h))
    have hu0 : u = 0#32 := BitVec.eq_of_toNat_eq hu
    simp [digitLoop, hu0]
  | succ s ih =>
    by_cases hu : u = 0#32
    · simp [digitLoop, hu]
    · have hpos : 0 < u.toNat := Nat.pos_of_ne_zero fun h0 => hu (BitVec.eq_of_toNat_eq h0)
      have hdigits : conv.numeration.base.digits u.toNat =
          (u%conv.b).toNat::conv.numeration.base.digits (u/conv.b).toNat := by
        rw [Nat.digits_def' conv.numeration.base_gt hpos, BitVec.toNat_umod, BitVec.toNat_udiv]
        rfl
      rw [hdigits, List.length_cons] at h
      have hchar : conv.numeration.digit (u%conv.b).toNat = digitChar conv.letbase (u%conv.b) := by
        change digitChar conv.letbase (BitVec.ofNat 32 (u%conv.b).toNat) = _
        rw [BitVec.ofNat_toNat, BitVec.setWidth_eq]
      rw [digitLoop, if_neg hu, ih _ (by omega), hdigits, List.map_cons, List.reverse_cons, hchar,
        List.append_assoc, List.singleton_append, List.length_cons, Nat.add_sub_add_right]

def Conversion.magnitude (conv : Conversion) (i : Word) : ℕ := (conv.value i).natAbs

def Conversion.digits (conv : Conversion) (i : Word) : List Byte := conv.numeration.numeral (conv.magnitude i)

def Conversion.sign (conv : Conversion) (i : Word) : List Byte := if conv.value i < 0 then [0x2D#8] else []

theorem value_neg_iff (conv : Conversion) (i : Word) :
    conv.value i < 0 ↔ conv.sg ∧ conv.b = 10#32 ∧ i.toInt < 0 := by
  cases conv <;> simp [Conversion.value, Conversion.sg, Conversion.b]

theorem magnitude_lt (conv : Conversion) (i : Word) : conv.magnitude i < 2^32 := by
  have hi := i.isLt
  unfold Conversion.magnitude Conversion.value
  split
  · have := BitVec.toInt_eq_toNat_cond i
    split at this <;> omega
  · omega

/-- Two's complement negation is right for every negative number. -/
theorem toNat_magnitude (conv : Conversion) (i : Word) :
    (if conv.sg ∧ conv.b = 10#32 ∧ i.toInt < 0 then -i else i).toNat = conv.magnitude i := by
  have hi := i.isLt
  have hcond := BitVec.toInt_eq_toNat_cond i
  unfold Conversion.magnitude
  split
  · rename_i hneg
    rw [Conversion.value, if_pos hneg.1, BitVec.toNat_neg]
    split at hcond <;> omega
  · rename_i hneg
    have hpos := mt (value_neg_iff conv i).mp hneg
    rw [Conversion.value] at hpos ⊢
    split at hpos
    · rename_i hsg
      rw [if_pos hsg]
      split at hcond <;> omega
    · rename_i hsg
      rw [if_neg hsg, Int.natAbs_natCast]

theorem digits_length (conv : Conversion) (i : Word) : (conv.digits i).length ≤ 10 :=
  numeral_length conv (magnitude_lt conv i)

theorem digitLoop_numeral (conv : Conversion) {u : Word} (hu : u ≠ 0#32) :
    digitLoop conv.b conv.letbase (printBufLen-1) u [] =
      .ok (11-(conv.numeration.numeral u.toNat).length,conv.numeration.numeral u.toNat) := by
  have hpos : u.toNat ≠ 0 := fun h0 => hu (BitVec.eq_of_toNat_eq h0)
  have hlen := numeral_length conv u.isLt
  rw [Numeration.numeral, if_neg hpos] at hlen ⊢
  rw [List.length_reverse, List.length_map] at hlen ⊢
  rw [digitLoop_eq conv [] (by rw [printBufLen]; omega), List.append_nil]
  rfl

/-- What `printi` does with the width and the sign, the digits given. -/
theorem printi_eq (conv : Conversion) (i width pad : Word) :
    conv.printi i width pad = .ok
      (if conv.value i < 0 ∧ width ≠ 0#32 ∧ pad &&& padZero ≠ 0#32 then
        ⟨0x2D#8::(prints (conv.digits i) (width-1#32) pad).text,1#32+(prints (conv.digits i) (width-1#32) pad).pc⟩
      else prints (conv.sign i ++ conv.digits i) width pad) := by
  have hlen := digits_length conv i
  rw [Conversion.printi, printi]
  by_cases hi : i = 0#32
  · have hvalue : conv.value i = 0 := by rw [hi]; cases conv <;> rfl
    rw [if_pos hi, if_neg (fun h => by omega), Conversion.sign, Conversion.digits, Conversion.magnitude, hvalue]
    exact congrArg (fun c => Except.ok (prints [c] width pad)) (digit_zero conv).symm
  · rw [if_neg hi]
    have hu : (if conv.sg ∧ conv.b = 10#32 ∧ i.toInt < 0 then -i else i) ≠ 0#32 := by
      split
      · simpa using hi
      · exact hi
    simp only [digitLoop_numeral conv hu, toNat_magnitude, Except.bind]
    simp only [← value_neg_iff, show conv.numeration.numeral (conv.magnitude i) = conv.digits i from rfl]
    by_cases hneg : conv.value i < 0
    · rw [if_pos hneg, Conversion.sign, if_pos hneg]
      by_cases hzero : width ≠ 0#32 ∧ pad &&& padZero ≠ 0#32
      · rw [if_pos hzero, if_pos ⟨hneg,hzero⟩]
      · obtain ⟨s,hs⟩ : ∃ s, 11-(conv.digits i).length = s+1 := ⟨10-(conv.digits i).length,by omega⟩
        rw [if_neg hzero, if_neg (fun h => hzero h.2), hs]
        rfl
    · rw [if_neg hneg, if_neg (fun h => hneg h.1), Conversion.sign, if_neg hneg]
      rfl

theorem printi_ok (conv : Conversion) (i width pad : Word) :
    ∃ o : Output, conv.printi i width pad = .ok o ∧ o.Counted := by
  refine ⟨_,printi_eq conv i width pad,?_⟩
  split
  · exact counted_append (counted_char 0x2D#8) (counted_prints _ _ _)
  · exact counted_prints _ _ _

/-! ## Padding -/

inductive Padding where
  | left
  | right
  | zero
  deriving DecidableEq, Repr

def Padding.flags : Padding → Word
  | .left => 0#32
  | .right => padRight
  | .zero => padZero

def layout (padding : Padding) (width : ℕ) (sign digits : List Byte) : List Byte :=
  match padding with
  | .left => List.replicate (width-(sign.length+digits.length)) 0x20#8 ++ sign ++ digits
  | .right => sign ++ digits ++ List.replicate (width-(sign.length+digits.length)) 0x20#8
  | .zero => sign ++ List.replicate (width-(sign.length+digits.length)) 0x30#8 ++ digits

theorem layout_length (padding : Padding) (width : ℕ) (sign digits : List Byte) :
    (layout padding width sign digits).length = max width (sign.length+digits.length) := by
  cases padding <;> simp only [layout, List.length_append, List.length_replicate] <;> omega

theorem sign_length (conv : Conversion) (i : Word) : (conv.sign i).length ≤ 1 := by
  unfold Conversion.sign
  split <;> simp

theorem sign_digits_nonzero (conv : Conversion) (i : Word) : 0#8 ∉ conv.sign i ++ conv.digits i := by
  intro hmem
  rcases List.mem_append.mp hmem with h | h
  · unfold Conversion.sign at h
    split at h <;> simp at h
  · exact (numeral_ne conv _ h).1 rfl

theorem replicate_zeros (width : Word) {n : ℕ} (hn : n < 2^31) :
    List.replicate (gap width n) (padcharOf width padZero) = List.replicate (gap width n) 0x30#8 := by
  by_cases hpos : 0 < width.toInt
  · rw [padcharOf, if_pos ⟨hpos,by decide⟩]
  · rw [gap_eq width hn, rounds, show width.toInt.toNat-n = 0 by omega]
    rfl

theorem prints_zeros (width : Word) {string : List Byte} (h : 0#8 ∉ string) (hlen : string.length < 2^31) :
    (prints string width padZero).text = List.replicate (rounds width-string.length) 0x30#8 ++ string := by
  rw [prints_text string width padZero h, if_pos (by decide), replicate_zeros width hlen, gap_eq width hlen]

theorem printi_layout (conv : Conversion) (i : Word) {width : Word} (padding : Padding) (hw : 0 ≤ width.toInt) :
    ∃ o : Output, conv.printi i width padding.flags = .ok o ∧ o.Counted ∧
      o.text = layout padding (rounds width) (conv.sign i) (conv.digits i) := by
  have hdigits := digits_length conv i
  have hsign := sign_length conv i
  have hnonzero := sign_digits_nonzero conv i
  have hlen : (conv.sign i ++ conv.digits i).length < 2^31 := by rw [List.length_append]; omega
  obtain ⟨o,ho,hcounted⟩ := printi_ok conv i width padding.flags
  refine ⟨o,ho,hcounted,?_⟩
  rw [printi_eq, Except.ok.injEq] at ho
  subst ho
  cases padding with
  | left =>
    rw [if_neg (fun h => h.2.2 (by decide)), prints_text _ _ _ hnonzero, if_pos (by decide), gap_eq width hlen,
      padcharOf, if_neg (fun h => h.2 (by decide)), layout, List.length_append, List.append_assoc]
  | right =>
    rw [if_neg (fun h => h.2.2 (by decide)), prints_text _ _ _ hnonzero, if_neg (by decide), gap_eq width hlen,
      padcharOf, if_neg (fun h => h.2 (by decide)), layout, List.length_append]
  | zero =>
    by_cases hneg : conv.value i < 0
    · have hs : conv.sign i = [0x2D#8] := if_pos hneg
      by_cases hwidth : width = 0#32
      · -- no width: the sign is in the buffer
        rw [if_neg (fun h => h.2.1 hwidth), Padding.flags, prints_zeros width hnonzero hlen, layout, hwidth]
        simp [rounds]
      · have hpos : 0 < width.toInt := lt_of_le_of_ne hw fun h0 => hwidth (BitVec.eq_of_toInt_eq h0.symm)
        have hrounds : rounds (width-1#32) = rounds width-1 := rounds_sub_one hpos
        have hdigits0 : 0#8 ∉ conv.digits i := fun h => hnonzero (List.mem_append_right _ h)
        rw [if_pos ⟨hneg,hwidth,by decide⟩, Padding.flags, prints_zeros _ hdigits0 (by omega), hrounds, layout, hs,
          Nat.sub_sub]
        rfl
    · have hs : conv.sign i = [] := if_neg hneg
      rw [if_neg (fun h => hneg h.1), Padding.flags, prints_zeros width hnonzero hlen, layout, hs]
      simp

/-! ## What the text denotes -/

def trim (text : List Byte) : List Byte := (text.dropWhile (· = 0x20#8)).rdropWhile (· = 0x20#8)

def Conversion.denotes (conv : Conversion) (text : List Byte) : Option ℤ :=
  if (trim text).head? = some 0x2D#8 then (conv.numeration.read (trim text).tail).map fun n : ℕ => -(n : ℤ)
  else (conv.numeration.read (trim text)).map fun n : ℕ => (n : ℤ)

theorem dropWhile_blanks (j : ℕ) {text : List Byte} (h : text.head? ≠ some 0x20#8) :
    (List.replicate j 0x20#8 ++ text).dropWhile (· = 0x20#8) = text := by
  rw [List.dropWhile_append_of_pos fun c hc => decide_eq_true (List.eq_of_mem_replicate hc)]
  cases text with
  | nil => rfl
  | cons c text => exact List.dropWhile_cons_of_neg fun hc => h (congrArg some (of_decide_eq_true hc))

theorem head?_ne_of_notMem {c : Byte} {text : List Byte} (h : c ∉ text) : text.head? ≠ some c :=
  fun hc => h (List.mem_of_head? hc)

theorem trim_blanks (j k : ℕ) {body : List Byte} (hne : body ≠ []) (h : 0x20#8 ∉ body) :
    trim (List.replicate j 0x20#8 ++ body ++ List.replicate k 0x20#8) = body := by
  have hhead : (body ++ List.replicate k 0x20#8).head? ≠ some 0x20#8 := by
    rw [List.head?_append_of_ne_nil _ hne]
    exact head?_ne_of_notMem h
  have hrev : body.reverse.head? ≠ some 0x20#8 := head?_ne_of_notMem (mt List.mem_reverse.mp h)
  rw [trim, List.append_assoc, dropWhile_blanks j hhead, List.rdropWhile, List.reverse_append, List.reverse_replicate,
    dropWhile_blanks k hrev, List.reverse_reverse]

theorem body_ne (conv : Conversion) (i : Word) (z : ℕ) {c : Byte}
    (hc : c ∈ List.replicate z 0x30#8 ++ conv.digits i) : c ≠ 0x20#8 ∧ c ≠ 0x2D#8 := by
  rcases List.mem_append.mp hc with h | h
  · rw [List.eq_of_mem_replicate h]
    decide
  · exact (numeral_ne conv _ h).2

theorem denotes_of_trim (conv : Conversion) (i : Word) {text : List Byte} (z : ℕ)
    (h : trim text = conv.sign i ++ (List.replicate z 0x30#8 ++ conv.digits i)) :
    conv.denotes text = some (conv.value i) := by
  have hread : conv.numeration.read (List.replicate z 0x30#8 ++ conv.digits i) = some (conv.magnitude i) := by
    rw [← digit_zero conv]
    exact conv.numeration.read_zeros z (conv.numeration.read_numeral _)
  rw [Conversion.denotes, h, Conversion.sign]
  by_cases hneg : conv.value i < 0
  · rw [if_pos hneg, List.singleton_append, List.head?_cons, if_pos rfl, List.tail_cons, hread, Option.map_some,
      Option.some.injEq, Conversion.magnitude]
    omega
  · have hhead : (List.replicate z 0x30#8 ++ conv.digits i).head? ≠ some 0x2D#8 :=
      head?_ne_of_notMem fun hc => (body_ne conv i z hc).2 rfl
    rw [if_neg hneg, List.nil_append, if_neg hhead, hread, Option.map_some, Option.some.injEq, Conversion.magnitude]
    omega

theorem body_trimmed (conv : Conversion) (i : Word) (z j k : ℕ) :
    trim (List.replicate j 0x20#8 ++ (conv.sign i ++ (List.replicate z 0x30#8 ++ conv.digits i)) ++
      List.replicate k 0x20#8) = conv.sign i ++ (List.replicate z 0x30#8 ++ conv.digits i) := by
  have hne : conv.digits i ≠ [] := conv.numeration.numeral_ne_nil _
  refine trim_blanks j k (by simp [hne]) fun hc => ?_
  rcases List.mem_append.mp hc with h | h
  · unfold Conversion.sign at h
    split at h <;> simp at h
  · exact (body_ne conv i z h).1 rfl

theorem denotes_layout (conv : Conversion) (i : Word) (padding : Padding) (width : ℕ) :
    conv.denotes (layout padding width (conv.sign i) (conv.digits i)) = some (conv.value i) := by
  cases padding with
  | left =>
    refine denotes_of_trim conv i 0 ?_
    have := body_trimmed conv i 0 (width-((conv.sign i).length+(conv.digits i).length)) 0
    simpa [layout] using this
  | right =>
    refine denotes_of_trim conv i 0 ?_
    have := body_trimmed conv i 0 0 (width-((conv.sign i).length+(conv.digits i).length))
    simpa [layout] using this
  | zero =>
    refine denotes_of_trim conv i (width-((conv.sign i).length+(conv.digits i).length)) ?_
    have := body_trimmed conv i (width-((conv.sign i).length+(conv.digits i).length)) 0 0
    simpa [layout] using this

/-! ## Printing is exact -/

structure Unpadded (conv : Conversion) (v : ℤ) (sign digits : List Byte) : Prop where
  sign_eq : sign = if v < 0 then [0x2D#8] else []
  digits_eq : conv.numeration.read digits = some v.natAbs
  leading : digits.head? = some 0x30#8 → digits = [0x30#8]

theorem unpadded (conv : Conversion) (i : Word) : Unpadded conv (conv.value i) (conv.sign i) (conv.digits i) where
  sign_eq := rfl
  digits_eq := conv.numeration.read_numeral _
  leading h := by
    rw [← digit_zero conv] at h
    rw [Conversion.digits, conv.numeration.head_numeral h, Numeration.numeral, if_pos rfl, digit_zero]

/-- Whatever the number, the width and the padding, the digits fit into the
buffer, the text is as long as the width or the number asks for, its length is
returned, and it denotes the number. -/
theorem printi_exact (conv : Conversion) (i width : Word) (padding : Padding) (h : 0 ≤ width.toInt) :
    ∃ text pc sign digits, conv.printi i width padding.flags = .ok ⟨text,pc⟩ ∧
      Unpadded conv (conv.value i) sign digits ∧ text = layout padding width.toNat sign digits ∧
      text.length = max width.toNat (sign ++ digits).length ∧ pc.toNat = text.length ∧
      conv.denotes text = some (conv.value i) := by
  obtain ⟨o,ho,hcounted,htext⟩ := printi_layout conv i padding h
  have hwidth : rounds width = width.toNat := rounds_eq_toNat h
  have hlen : o.text.length = max width.toNat (conv.sign i ++ conv.digits i).length := by
    rw [htext, layout_length, hwidth, List.length_append]
  refine ⟨o.text,o.pc,conv.sign i,conv.digits i,ho,unpadded conv i,hwidth ▸ htext,hlen,?_,?_⟩
  · have hsign := sign_length conv i
    have hdigits := digits_length conv i
    have hlt := width.isLt
    rw [hcounted, BitVec.toNat_ofNat, Nat.mod_eq_of_lt]
    rw [hlen, List.length_append]
    omega
  · rw [htext]
    exact denotes_layout conv i padding _

/-- The smallest number, with zeros between the sign and the digits. -/
theorem smallest_number_printed : ∃ text pc sign digits,
    Conversion.d.printi 0x80000000#32 15#32 Padding.zero.flags = .ok ⟨text,pc⟩ ∧
      Unpadded .d (Conversion.d.value 0x80000000#32) sign digits ∧ text = layout .zero (15#32).toNat sign digits ∧
      text.length = max (15#32).toNat (sign ++ digits).length ∧ pc.toNat = text.length ∧
      Conversion.d.denotes text = some (Conversion.d.value 0x80000000#32) :=
  printi_exact .d 0x80000000#32 15#32 .zero (by decide)

end MikeOS.NumberPrinting
