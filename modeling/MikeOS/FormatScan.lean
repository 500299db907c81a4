import MikeOS.NumberPrinting

/-!
# Scanning a format

A format is a row of characters that stand for themselves, of `%%` and of
conversions. A `%` at its very end is ignored. A conversion that the end of the
format cuts off behind a flag or a digit is where `print` loses the terminator.
-/

set_option autoImplicit false

namespace MikeOS.FormatScan
open FileModes (CStr)
open MikeOS.Stdio MikeOS.NumberPrinting

/-! ## Formats -/

/-- What stands between `%` and the conversion character: a minus sign, zeros, and
a width that does not begin with a zero. -/
structure Modifiers where
  minus : Bool
  zeros : ℕ
  width : List Byte
  digits : ∀ c ∈ width, IsDigit c
  leading : width.head? ≠ some 0x30#8

def Modifiers.flag (m : Modifiers) : List Byte := if m.minus then [0x2D#8] else []

def Modifiers.text (m : Modifiers) : List Byte := m.flag ++ (List.replicate m.zeros 0x30#8 ++ m.width)

/-- The width as the code has it: the number modulo `2 ^ 32`. -/
def Modifiers.value (m : Modifiers) : Word :=
  BitVec.ofNat 32 (m.width.foldl (fun v c => v*10+(c.toNat-0x30)) 0)

def Modifiers.pad (m : Modifiers) : Word :=
  if m.zeros = 0 then if m.minus then padRight else 0#32 else (if m.minus then padRight else 0#32) ||| padZero

/-- The character ends the modifiers, and could not have begun them. -/
def Modifiers.EndsAt (m : Modifiers) (kind : Byte) : Prop := ¬IsDigit kind ∧ (m.text = [] → kind ≠ 0x2D#8)

inductive Directive where
  | plain (c : Byte) (h : c ≠ 0x25#8)
  | percent
  | conversion (m : Modifiers) (kind : Byte) (h : m.EndsAt kind) (h' : m.text = [] → kind ≠ 0x25#8)

def Directive.spelling : Directive → List Byte
  | .plain c _ => [c]
  | .percent => [0x25#8, 0x25#8]
  | .conversion m kind _ _ => 0x25#8::(m.text ++ [kind])

def Ends (tail : List Byte) : Prop := tail = [] ∨ tail = [0x25#8]

def Reads (format : List Byte) (ds : List Directive) : Prop :=
  ∃ tail, Ends tail ∧ format = ds.flatMap Directive.spelling ++ tail

def CutOff (format : List Byte) : Prop := ∃ m : Modifiers, m.text ≠ [] ∧ format = 0x25#8::m.text

/-! ## What is emitted -/

/-- The length of a number in a field. With zeros in front a minus sign stands
outside of the field, which is one narrower then. -/
def numberLength (conv : Conversion) (i width pad : Word) : ℕ :=
  if conv.value i < 0 ∧ width ≠ 0#32 ∧ pad &&& padZero ≠ 0#32 then
    1+max (rounds (width-1#32)) (conv.digits i).length
  else max (rounds width) (conv.sign i ++ conv.digits i).length

def fieldLength (strings : Word → CStr) (kind : Byte) (arg width pad : Word) : Option ℕ :=
  if kind = 0x73#8 then some (max (rounds width) (if arg = null then nullText else (strings arg).1).length)
  else if kind = 0x63#8 then some (max (rounds width) (if arg.setWidth 8 = 0#8 then 0 else 1))
  else
    ([.d, .x, .X, .u].find? fun conv : Conversion => conv.kind = kind).map fun conv =>
      numberLength conv arg width pad

def emittedLength (strings : Word → CStr) : List Directive → (ℕ → Word) → ℕ
  | [], _ => 0
  | .plain _ _::ds, args => 1+emittedLength strings ds args
  | .percent::ds, args => 1+emittedLength strings ds args
  | .conversion m kind _ _::ds, args =>
    match fieldLength strings kind (args 0) m.value m.pad with
    | none => emittedLength strings ds args
    | some n => n+emittedLength strings ds (nextArgs args)

/-! ## Every list is a format or cut off -/

theorem exists_digits (body : List Byte) : ∃ k width rest, body = List.replicate k 0x30#8 ++ (width ++ rest) ∧
    (∀ c ∈ width, IsDigit c) ∧ width.head? ≠ some 0x30#8 ∧ ∀ c ∈ rest.head?, ¬IsDigit c := by
  induction body with
  | nil => exact ⟨0,[],[],rfl,by simp,by simp,by simp⟩
  | cons c body ih =>
    obtain ⟨k,width,rest,hbody,hdigits,hleading,hrest⟩ := ih
    by_cases hzero : c = 0x30#8
    · refine ⟨k+1,width,rest,?_,hdigits,hleading,hrest⟩
      rw [hbody, hzero, List.replicate_succ, List.cons_append]
    · by_cases hc : IsDigit c
      · -- the zeros that follow belong to the width
        refine ⟨0,c::(List.replicate k 0x30#8 ++ width),rest,by simp [hbody],?_,by simpa using hzero,hrest⟩
        intro d hd
        rcases List.mem_cons.mp hd with rfl | hd
        · exact hc
        · rcases List.mem_append.mp hd with hd | hd
          · rw [List.eq_of_mem_replicate hd]
            decide
          · exact hdigits d hd
      · exact ⟨0,[],c::body,rfl,by simp,by simp,by simpa using hc⟩

theorem exists_modifiers (body : List Byte) : ∃ (m : Modifiers) (rest : List Byte), body = m.text ++ rest ∧
    ∀ kind ∈ rest.head?, m.EndsAt kind := by
  by_cases hminus : body.head? = some 0x2D#8
  · obtain ⟨k,width,rest,hbody,hdigits,hleading,hrest⟩ := exists_digits body.tail
    refine ⟨⟨true,k,width,hdigits,hleading⟩,rest,?_,fun c hc => ⟨hrest c hc,fun h => ?_⟩⟩
    · rw [← List.cons_head?_tail hminus, hbody]
      simp [Modifiers.text, Modifiers.flag]
    · simp [Modifiers.text, Modifiers.flag] at h
  · obtain ⟨k,width,rest,hbody,hdigits,hleading,hrest⟩ := exists_digits body
    refine ⟨⟨false,k,width,hdigits,hleading⟩,rest,?_,fun c hc => ⟨hrest c hc,fun h hkind => ?_⟩⟩
    · simp [Modifiers.text, Modifiers.flag, hbody]
    · have hnone : List.replicate k 0x30#8 ++ width = [] := by simpa [Modifiers.text, Modifiers.flag] using h
      rw [hbody, ← List.append_assoc, hnone, List.nil_append, ← hkind] at hminus
      exact hminus hc

/-! ## Scanning a conversion -/

theorem skipZeros_eq (k : ℕ) {rest : List Byte} (pad : Word) (h : rest.head? ≠ some 0x30#8) :
    skipZeros (List.replicate k 0x30#8 ++ rest) pad = (rest,if k = 0 then pad else pad ||| padZero) := by
  induction k generalizing pad with
  | zero =>
    cases rest with
    | nil => rfl
    | cons c rest => exact if_neg fun hc => h (congrArg some hc)
  | succ k ih =>
    rw [List.replicate_succ, List.cons_append, skipZeros, if_pos rfl, ih, if_neg (Nat.succ_ne_zero k), BitVec.or_assoc,
      BitVec.or_self, ite_self]

theorem digit_value {c : Byte} (h : IsDigit c) : c.signExtend 32-0x30#32 = BitVec.ofNat 32 (c.toNat-0x30) := by
  have hall : ∀ v : Fin 256, IsDigit (BitVec.ofNat 8 v.val) →
      (BitVec.ofNat 8 v.val).signExtend 32-0x30#32 = BitVec.ofNat 32 ((BitVec.ofNat 8 v.val).toNat-0x30) := by
    decide +kernel
  have hc := hall c.toFin
  rw [show BitVec.ofNat 8 c.toFin.val = c by simp [BitVec.ofNat_toNat]] at hc
  exact hc h

theorem scanWidth_eq {width rest : List Byte} (v : ℕ) (hwidth : ∀ c ∈ width, IsDigit c)
    (hrest : ∀ c ∈ rest.head?, ¬IsDigit c) :
    scanWidth (width ++ rest) (BitVec.ofNat 32 v) =
      (rest,BitVec.ofNat 32 (width.foldl (fun v c => v*10+(c.toNat-0x30)) v)) := by
  induction width generalizing v with
  | nil =>
    cases rest with
    | nil => rfl
    | cons c rest => exact if_neg (hrest c rfl)
  | cons c width ih =>
    obtain ⟨hc,hdigits⟩ := List.forall_mem_cons.mp hwidth
    rw [List.cons_append, scanWidth, if_pos hc, digit_value hc, List.foldl_cons, ← ih _ hdigits, BitVec.ofNat_add,
      BitVec.ofNat_mul]

theorem zero_isDigit : IsDigit 0x30#8 := by decide

theorem minus_notDigit : ¬IsDigit 0x2D#8 := by decide

theorem mem_text (m : Modifiers) {c : Byte} (h : c ∈ m.text) : m.minus = true ∧ c = 0x2D#8 ∨ IsDigit c := by
  rcases List.mem_append.mp h with h | h
  · rw [Modifiers.flag] at h
    split at h
    · rename_i hminus
      exact Or.inl ⟨hminus,List.mem_singleton.mp h⟩
    · cases h
  · rcases List.mem_append.mp h with h | h
    · rw [List.eq_of_mem_replicate h]
      exact Or.inr zero_isDigit
    · exact Or.inr (m.digits c h)

theorem percent_notMem (m : Modifiers) : 0x25#8 ∉ m.text := by
  intro h
  rcases mem_text m h with h | h
  · exact absurd h.2 (by decide)
  · exact absurd h (by decide)

theorem mem_or_head {a b : List Byte} {c : Byte} (h : (a ++ b).head? = some c) :
    c ∈ a ∨ a = [] ∧ b.head? = some c := by
  cases a with
  | nil => exact Or.inr ⟨rfl,h⟩
  | cons d a => exact Or.inl (List.mem_cons.mpr (Or.inl (Option.some.inj h).symm))

section
variable (m : Modifiers) {rest : List Byte} (h : ∀ kind ∈ rest.head?, m.EndsAt kind)
include h

theorem width_head : (m.width ++ rest).head? ≠ some 0x30#8 := by
  cases hw : m.width with
  | nil => exact fun hc => (h _ hc).1 zero_isDigit
  | cons c width =>
    have := m.leading
    rwa [hw] at this

theorem text_head (hminus : m.minus = false) : (m.text ++ rest).head? ≠ some 0x2D#8 := by
  intro hc
  rcases mem_or_head hc with hmem | ⟨htext,hrest⟩
  · rcases mem_text m hmem with ⟨htrue,-⟩ | hdigit
    · rw [hminus] at htrue
      cases htrue
    · exact minus_notDigit hdigit
  · exact (h _ hrest).2 htext rfl

theorem scanConversion_eq : scanConversion (m.text ++ rest) = (rest,m.value,m.pad) := by
  have hscan : ∀ pad, scanWidth (skipZeros (List.replicate m.zeros 0x30#8 ++ (m.width ++ rest)) pad).1 0#32 =
      (rest,m.value) := by
    intro pad
    rw [skipZeros_eq m.zeros pad (width_head m h)]
    exact scanWidth_eq 0 m.digits fun c hc => (h c hc).1
  cases hminus : m.minus with
  | true =>
    have htext : m.text ++ rest = 0x2D#8::(List.replicate m.zeros 0x30#8 ++ (m.width ++ rest)) := by
      simp [Modifiers.text, Modifiers.flag, hminus]
    rw [scanConversion, htext, List.head?_cons, if_pos rfl, List.tail_cons]
    simp only [hscan]
    rw [skipZeros_eq m.zeros _ (width_head m h), Modifiers.pad, hminus]
    rfl
  | false =>
    have htext : m.text ++ rest = List.replicate m.zeros 0x30#8 ++ (m.width ++ rest) := by
      simp [Modifiers.text, Modifiers.flag, hminus]
    rw [scanConversion, if_neg (text_head m h hminus), htext]
    simp only [hscan]
    rw [skipZeros_eq m.zeros _ (width_head m h), Modifiers.pad, hminus]
    rfl

end

/-! ## The length of a field -/

/-- Two counts that are the same, or are both too large to be returned. -/
def Agree (n k : ℕ) : Prop := n = k ∨ 2^31 ≤ n ∧ 2^31 ≤ k

theorem Agree.add {n k n' k' : ℕ} (h : Agree n k) (h' : Agree n' k') : Agree (n+n') (k+k') := by
  unfold Agree at *
  omega

theorem prints_agree {string : List Byte} (width pad : Word) (h : 0#8 ∉ string) :
    Agree (prints string width pad).text.length (max (rounds width) string.length) := by
  rw [prints_length string width pad h]
  by_cases hlen : string.length < 2^31
  · refine Or.inl ?_
    rw [gap_eq width hlen]
    omega
  · refine Or.inr ⟨?_,?_⟩ <;> omega

theorem prints_char (c : Byte) (width pad : Word) :
    Agree (prints [c] width pad).text.length (max (rounds width) (if c = 0#8 then 0 else 1)) := by
  split
  · rename_i hc
    rw [hc]
    exact prints_agree width pad (show 0#8 ∉ ([] : List Byte) from List.not_mem_nil)
  · rename_i hc
    exact prints_agree width pad (by simpa using Ne.symm hc)

theorem printi_agree (conv : Conversion) (i width pad : Word) :
    ∃ o : Output, conv.printi i width pad = .ok o ∧ o.Counted ∧
      Agree o.text.length (numberLength conv i width pad) := by
  obtain ⟨o,ho,hcounted⟩ := printi_ok conv i width pad
  refine ⟨o,ho,hcounted,?_⟩
  rw [printi_eq, Except.ok.injEq] at ho
  rw [← ho, numberLength]
  have hnonzero := sign_digits_nonzero conv i
  split
  · rw [List.length_cons, Nat.add_comm]
    exact Agree.add (Or.inl rfl) (prints_agree _ _ fun h => hnonzero (List.mem_append_right _ h))
  · exact prints_agree _ _ hnonzero

theorem nullText_nonzero : 0#8 ∉ nullText := by decide

/-- A conversion character emits a field of this length, or is skipped. -/
theorem convert_agree (strings : Word → CStr) (kind : Byte) (arg width pad : Word) :
    match fieldLength strings kind arg width pad with
    | none => convert strings kind arg width pad = none
    | some n =>
      ∃ o : Output, convert strings kind arg width pad = some (.ok o) ∧ o.Counted ∧ Agree o.text.length n := by
  unfold fieldLength
  by_cases hs : kind = 0x73#8
  · rw [if_pos hs, convert, if_pos hs]
    refine ⟨_,rfl,counted_prints _ _ _,prints_agree _ _ ?_⟩
    split
    · exact nullText_nonzero
    · exact (strings arg).2
  · rw [if_neg hs]
    by_cases hc : kind = 0x63#8
    · rw [if_pos hc, hc]
      exact ⟨_,rfl,counted_prints _ _ _,prints_char _ _ _⟩
    · rw [if_neg hc]
      cases hfind : [Conversion.d, .x, .X, .u].find? fun conv => conv.kind = kind with
      | some conv =>
        have hkind : conv.kind = kind := by simpa using List.find?_some hfind
        obtain ⟨o,ho,hcounted,hagree⟩ := printi_agree conv arg width pad
        refine ⟨o,?_,hcounted,hagree⟩
        rw [← hkind, convert_kind, ho]
      | none =>
        have hnone : ∀ conv : Conversion, kind ≠ conv.kind := by
          have hall := List.find?_eq_none.mp hfind
          intro conv he
          cases conv <;> simp [he] at hall
        simp only [Option.map_none]
        have hd : kind ≠ 0x64#8 := hnone .d
        have hx : kind ≠ 0x78#8 := hnone .x
        have hX : kind ≠ 0x58#8 := hnone .X
        have hu : kind ≠ 0x75#8 := hnone .u
        rw [convert, if_neg hs, if_neg hd, if_neg hx, if_neg hX, if_neg hu, if_neg hc]

/-! ## The loop -/

section
variable (strings : Word → CStr)

theorem printLoop_percent {body : List Byte} (hne : body ≠ []) (hpercent : body.head? ≠ some 0x25#8) (fuel : ℕ)
    (args : ℕ → Word) (o : Output) : printLoop strings (fuel+1) (0x25#8::body) args o =
      match scanConversion body with
      | ([],_,_) => .error .pastEnd
      | (kind::format,width,pad) =>
        match convert strings kind (args 0) width pad with
        | none => printLoop strings fuel format args o
        | some result => result.bind fun out =>
          printLoop strings fuel format (nextArgs args) ⟨o.text ++ out.text,o.pc+out.pc⟩ := by
  obtain ⟨d,rest,rfl⟩ := List.exists_cons_of_ne_nil hne
  rw [printLoop, if_pos rfl]
  exact if_neg fun hd => hpercent (congrArg some hd)

theorem printLoop_cutOff {format : List Byte} (h : CutOff format) (fuel : ℕ) (args : ℕ → Word) (o : Output) :
    ∃ e, printLoop strings fuel format args o = .error e := by
  obtain ⟨m,hne,rfl⟩ := h
  cases fuel with
  | zero => exact ⟨_,rfl⟩
  | succ fuel =>
    have hscan : scanConversion (m.text ++ []) = ([],m.value,m.pad) := scanConversion_eq m (by simp)
    rw [List.append_nil] at hscan
    rw [printLoop_percent strings hne (head?_ne_of_notMem (percent_notMem m)), hscan]
    exact ⟨_,rfl⟩

theorem printLoop_end {tail : List Byte} (h : Ends tail) (fuel : ℕ) (args : ℕ → Word) (o : Output) :
    printLoop strings fuel tail args o = if fuel = 0 then .error .outOfFuel else .ok o := by
  cases fuel with
  | zero => rfl
  | succ fuel => rcases h with rfl | rfl <;> rfl

theorem printLoop_conversion (m : Modifiers) (kind : Byte) (h : m.EndsAt kind) (h' : m.text = [] → kind ≠ 0x25#8)
    (fuel : ℕ) (format : List Byte) (args : ℕ → Word) (o : Output) :
    printLoop strings (fuel+1) ((Directive.conversion m kind h h').spelling ++ format) args o =
      match convert strings kind (args 0) m.value m.pad with
      | none => printLoop strings fuel format args o
      | some result => result.bind fun out =>
        printLoop strings fuel format (nextArgs args) ⟨o.text ++ out.text,o.pc+out.pc⟩ := by
  have hpercent : (m.text ++ kind::format).head? ≠ some 0x25#8 := by
    intro hc
    rcases mem_or_head hc with hmem | ⟨htext,hkind⟩
    · exact percent_notMem m hmem
    · exact h' htext (Option.some.inj hkind)
  have hscan : scanConversion (m.text ++ kind::format) = (kind::format,m.value,m.pad) :=
    scanConversion_eq m (by simpa using h)
  rw [Directive.spelling, List.cons_append, List.append_assoc, List.singleton_append,
    printLoop_percent strings (List.append_ne_nil_of_right_ne_nil _ (List.cons_ne_nil _ _)) hpercent, hscan]

/-- One round of the loop reads one part of the format and emits what it asks for. -/
theorem printLoop_directive (d : Directive) (args : ℕ → Word) (o : Output) :
    ∃ (out : Output) (args' : ℕ → Word) (n : ℕ), out.Counted ∧ Agree out.text.length n ∧
      (∀ ds, emittedLength strings (d::ds) args = n+emittedLength strings ds args') ∧
      ∀ fuel format, printLoop strings (fuel+1) (d.spelling ++ format) args o =
        printLoop strings fuel format args' ⟨o.text ++ out.text,o.pc+out.pc⟩ := by
  cases d with
  | plain c h => exact ⟨⟨[c],1#32⟩,args,1,rfl,Or.inl rfl,fun ds => rfl,fun fuel format => if_neg h⟩
  | percent => exact ⟨⟨[0x25#8],1#32⟩,args,1,rfl,Or.inl rfl,fun ds => rfl,fun fuel format => rfl⟩
  | conversion m kind h h' =>
    have hfield := convert_agree strings kind (args 0) m.value m.pad
    cases hlength : fieldLength strings kind (args 0) m.value m.pad with
    | none =>
      rw [hlength] at hfield
      refine ⟨Output.blank,args,0,rfl,Or.inl rfl,fun ds => by simp [emittedLength, hlength],fun fuel format => ?_⟩
      rw [printLoop_conversion, hfield]
      simp [Output.blank]
    | some n =>
      rw [hlength] at hfield
      obtain ⟨out,hout,hcounted,hagree⟩ := hfield
      refine ⟨out,nextArgs args,n,hcounted,hagree,fun ds => by simp [emittedLength, hlength],fun fuel format => ?_⟩
      rw [printLoop_conversion, hout]
      rfl

/-- The loop reads the parts of a format one after the other. -/
theorem printLoop_directives (ds : List Directive) (args : ℕ → Word) {o : Output} (ho : o.Counted) :
    ∃ (o' : Output) (args' : ℕ → Word), o'.Counted ∧
      Agree o'.text.length (o.text.length+emittedLength strings ds args) ∧
      ∀ fuel tail, printLoop strings fuel (ds.flatMap Directive.spelling ++ tail) args o =
        if fuel < ds.length then .error .outOfFuel else printLoop strings (fuel-ds.length) tail args' o' := by
  induction ds generalizing args o with
  | nil => exact ⟨o,args,ho,Or.inl rfl,fun fuel tail => rfl⟩
  | cons d ds ih =>
    obtain ⟨out,args₁,n,hout,hagree,hlength,hstep⟩ := printLoop_directive strings d args o
    obtain ⟨o',args',ho',hagree',hrun⟩ := ih args₁ (counted_append ho hout)
    refine ⟨o',args',ho',?_,fun fuel tail => ?_⟩
    · rw [hlength]
      rw [List.length_append] at hagree'
      unfold Agree at *
      omega
    · cases fuel with
      | zero => rfl
      | succ fuel =>
        rw [List.flatMap_cons, List.append_assoc, hstep, hrun, List.length_cons, Nat.add_sub_add_right]
        simp only [Nat.add_lt_add_iff_right]

end

/-! ## What is returned -/

theorem exists_directives (format : List Byte) : ∃ (ds : List Directive) (tail : List Byte),
    format = ds.flatMap Directive.spelling ++ tail ∧ (Ends tail ∨ CutOff tail) := by
  induction hn : format.length using Nat.strong_induction_on generalizing format with
  | _ n ih =>
    cases format with
    | nil => exact ⟨[],[],rfl,Or.inl (Or.inl rfl)⟩
    | cons c body =>
      rw [List.length_cons] at hn
      by_cases hc : c = 0x25#8
      · cases body with
        | nil => exact ⟨[],[c],rfl,Or.inl (Or.inr (by rw [hc]))⟩
        | cons d rest =>
          rw [List.length_cons] at hn
          by_cases hd : d = 0x25#8
          · obtain ⟨ds,tail,hrest,htail⟩ := ih rest.length (by omega) rest rfl
            exact ⟨.percent::ds,tail,by rw [hrest, hc, hd]; rfl,htail⟩
          · obtain ⟨m,left,hbody,hends⟩ := exists_modifiers (d::rest)
            cases left with
            | nil =>
              rw [List.append_nil] at hbody
              have hne : m.text ≠ [] := by
                rw [← hbody]
                exact List.cons_ne_nil _ _
              exact ⟨[],c::d::rest,rfl,Or.inr ⟨m,hne,by rw [hc, hbody]⟩⟩
            | cons kind format =>
              have hlen := congrArg List.length hbody
              simp only [List.length_cons, List.length_append] at hlen
              have hkind : m.text = [] → kind ≠ 0x25#8 := by
                intro ht hk
                rw [ht, List.nil_append, hk] at hbody
                exact hd (List.cons.inj hbody).1
              obtain ⟨ds,tail,hformat,htail⟩ := ih format.length (by omega) format rfl
              refine ⟨.conversion m kind (hends kind rfl) hkind::ds,tail,?_,htail⟩
              rw [hbody, hc, hformat]
              simp [Directive.spelling]
      · obtain ⟨ds,tail,hbody,htail⟩ := ih body.length (by omega) body rfl
        exact ⟨.plain c hc::ds,tail,by rw [hbody]; rfl,htail⟩

/-- The loop ends within the format, and what it returns is the number of the
characters it has emitted. -/
def Counts (strings : Word → CStr) (format : CStr) (args : ℕ → Word) : Prop :=
  ∃ fuel text pc, print strings fuel format args = .ok ⟨text,pc⟩ ∧ pc.toInt = text.length

theorem counted_toInt {o : Output} (h : o.Counted) : o.pc.toInt = o.text.length ↔ o.text.length < 2^31 := by
  have hlt : 2*o.pc.toInt < 2^32 := BitVec.two_mul_toInt_lt
  have hcond := BitVec.toInt_eq_toNat_cond o.pc
  have hpc : o.pc.toNat = o.text.length%2^32 := by rw [h, BitVec.toNat_ofNat]
  split at hcond <;> omega

theorem print_tail (strings : Word → CStr) (ds : List Directive) (args : ℕ → Word) :
    ∃ (o : Output) (args' : ℕ → Word), o.Counted ∧
      (o.text.length < 2^31 ↔ emittedLength strings ds args < 2^31) ∧
      ∀ fuel tail, printLoop strings fuel (ds.flatMap Directive.spelling ++ tail) args Output.blank =
        if fuel < ds.length then .error .outOfFuel else printLoop strings (fuel-ds.length) tail args' o := by
  obtain ⟨o,args',ho,hagree,hrun⟩ := printLoop_directives strings ds args (o := Output.blank) rfl
  refine ⟨o,args',ho,?_,hrun⟩
  simp only [Output.blank, List.length_nil, Nat.zero_add] at hagree
  unfold Agree at hagree
  omega

/-- `print` stays within the format and returns the right number unless the end of
the format cuts a conversion off, or more is emitted than an `int` can count. -/
theorem counts_iff (strings : Word → CStr) (format : CStr) (args : ℕ → Word) :
    Counts strings format args ↔ ∃ ds, Reads format.1 ds ∧ emittedLength strings ds args < 2^31 := by
  constructor
  · rintro ⟨fuel,text,pc,hprint,hpc⟩
    obtain ⟨ds,tail,hformat,htail⟩ := exists_directives format.1
    obtain ⟨o,args',ho,hlength,hrun⟩ := print_tail strings ds args
    rw [print, hformat, hrun] at hprint
    split at hprint
    · cases hprint
    · rcases htail with hends | hcut
      · rw [printLoop_end strings hends] at hprint
        split at hprint
        · cases hprint
        · cases hprint
          exact ⟨ds,⟨tail,hends,hformat⟩,hlength.mp ((counted_toInt ho).mp hpc)⟩
      · obtain ⟨e,he⟩ := printLoop_cutOff strings hcut (fuel-ds.length) args' o
        rw [he] at hprint
        cases hprint
  · rintro ⟨ds,⟨tail,hends,hformat⟩,hlt⟩
    obtain ⟨o,args',ho,hlength,hrun⟩ := print_tail strings ds args
    refine ⟨ds.length+1,o.text,o.pc,?_,(counted_toInt ho).mpr (hlength.mpr hlt)⟩
    rw [print, hformat, hrun, if_neg (by omega), printLoop_end strings hends, if_neg (by omega)]

theorem width_not_counted :
    ¬Counts (fun _ => ⟨[],List.not_mem_nil⟩) ⟨[0x25#8, 0x35#8],by decide⟩ (fun _ => 0#32) := by
  rintro ⟨fuel,text,pc,hprint,-⟩
  cases fuel with
  | zero => cases hprint
  | succ fuel => cases hprint

end MikeOS.FormatScan
