import MikeOS.Common

/-!
# Tokens of a string

`strtok` writes a `NUL` behind each token and keeps where to go on in a static
pointer. Behind the last token it looks for the end of the string with
`strchr`, which finds no character there is not in the string and returns
`NULL`, so that the next call reads at address zero.
-/

set_option autoImplicit false

namespace MikeOS.Strtok

inductive Stop where
  | nullDereference
  | noEnd
  deriving DecidableEq, Repr

def loadChar (ram : Ram) (str : Word) : Except Stop Byte :=
  if str = null then .error .nullDereference else .ok (ram str)

def stringBound : ℕ := 2^32

/-! ## The functions of the C library -/

def charInString (character : Byte) : List Byte → Bool
  | [] => false
  | c::str => if c = character then true else charInString character str

def strspnFrom (ram : Ram) (str2 : List Byte) : ℕ → Word → Word → Except Stop Word
  | 0, _, _ => .error .noEnd
  | fuel+1, str1, numberOfChars => do
    let c ← loadChar ram str1
    if c ≠ 0#8 then
      if ¬ charInString c str2 then .ok numberOfChars
      else strspnFrom ram str2 fuel (str1+1#32) (numberOfChars+1#32)
    else .ok numberOfChars

def strspn (ram : Ram) (str1 : Word) (str2 : List Byte) : Except Stop Word :=
  strspnFrom ram str2 stringBound str1 0#32

def strpbrkFrom (ram : Ram) (str2 : List Byte) : ℕ → Word → Except Stop Word
  | 0, _ => .error .noEnd
  | fuel+1, str1 => do
    let c ← loadChar ram str1
    if c ≠ 0#8 then
      if charInString c str2 then .ok str1 else strpbrkFrom ram str2 fuel (str1+1#32)
    else .ok null

def strpbrk (ram : Ram) (str1 : Word) (str2 : List Byte) : Except Stop Word :=
  strpbrkFrom ram str2 stringBound str1

/-- A character is compared as a signed number. -/
def strchrFrom (ram : Ram) (character : ℤ) : ℕ → Word → Except Stop Word
  | 0, _ => .error .noEnd
  | fuel+1, str => do
    let c ← loadChar ram str
    if c ≠ 0#8 then
      if c.toInt = character then .ok str else strchrFrom ram character fuel (str+1#32)
    else .ok null

def strchr (ram : Ram) (str : Word) (character : ℤ) : Except Stop Word :=
  strchrFrom ram character stringBound str

structure Strings where
  ram : Ram
  oldStr : Word

def strtok (str : Word) (delimiters : List Byte) (s : Strings) : Except Stop (Word × Strings) := do
  let str := if str = null then s.oldStr else str
  let skipped ← strspn s.ram str delimiters
  let str := str+skipped
  let c ← loadChar s.ram str
  if c = 0#8 then .ok (null, s)
  else
    let token ← strpbrk s.ram str delimiters
    if token = null then
      let oldStr ← strchr s.ram str 0
      .ok (str, { s with oldStr := oldStr })
    else .ok (str, ⟨Function.update s.ram token 0#8, token+1#32⟩)

/-! ## What the calls are to return -/

/-- The bytes at `p` are the characters of `s` and a `NUL`, none of them at `NULL`. -/
def StringAt (ram : Ram) : Word → List Byte → Prop
  | p, [] => p ≠ null ∧ ram p = 0#8
  | p, c::s => p ≠ null ∧ ram p = c ∧ c ≠ 0#8 ∧ StringAt ram (p+1#32) s

/-- The maximal non-empty parts of a string without a delimiter. -/
def pieces (delimiters s : List Byte) : List (List Byte) :=
  (s.splitOnP fun c => decide (c ∈ delimiters)).filter fun w => decide (w ≠ [])

/-- Call number `n` of `strtok`, the first with `str` and the others with `NULL`. -/
def call (delimiters : List Byte) : ℕ → Word → Strings → Except Stop (Word × Strings)
  | 0, str, s => strtok str delimiters s
  | n+1, str, s => do
    let r ← strtok str delimiters s
    call delimiters n null r.2

def Returns (piece : Option (List Byte)) (outcome : Except Stop (Word × Strings)) : Prop :=
  ∃ token s, outcome = .ok (token, s) ∧
    match piece with
    | none => token = null
    | some w => StringAt s.ram token w

def Tokenises (delimiters : List Byte) (s : Strings) (p : Word) (text : List Byte) : Prop :=
  ∀ n, Returns (pieces delimiters text)[n]? (call delimiters n p s)

def Blank (delimiters text : List Byte) : Prop := ∀ c ∈ text, c ∈ delimiters

/-- Behind the last piece there is a delimiter. A text without a piece leaves
the saved position alone, and only delimiters may follow there. -/
def Safe (delimiters : List Byte) (s : Strings) (text : List Byte) : Prop :=
  (∃ init c, text = init ++ [c] ∧ c ∈ delimiters ∧ ¬ Blank delimiters text) ∨
    Blank delimiters text ∧ ∃ rest, StringAt s.ram s.oldStr rest ∧ Blank delimiters rest

/-! ## Strings in memory -/

theorem charInString_iff (character : Byte) (str : List Byte) :
    charInString character str = true ↔ character ∈ str := by
  induction str with
  | nil => simp [charInString]
  | cons c str ih =>
    rw [charInString, List.mem_cons]
    split
    · rename_i he
      exact iff_of_true rfl (Or.inl he.symm)
    · rename_i hne
      rw [ih]
      exact ⟨Or.inr,fun h => h.resolve_left (Ne.symm hne)⟩

section
variable {ram : Ram}

theorem stringAt_ne_null {p : Word} {s : List Byte} (h : StringAt ram p s) : p ≠ null := by
  cases s <;> exact h.1

theorem stringAt_inside {p : Word} {s : List Byte} (h : StringAt ram p s) :
    0 < p.toNat ∧ p.toNat+s.length < 2^32 := by
  induction s generalizing p with
  | nil =>
    have hne := stringAt_ne_null h
    have hlt := p.isLt
    rw [null_eq] at hne
    exact ⟨by bv_omega,by simpa using hlt⟩
  | cons c s ih =>
    obtain ⟨hne,-,-,hrest⟩ := h
    have hin := ih hrest
    rw [null_eq] at hne
    rw [List.length_cons]
    bv_omega

theorem stringAt_append {p : Word} {s t : List Byte} (h : StringAt ram p (s ++ t)) :
    StringAt ram (p+BitVec.ofNat 32 s.length) t := by
  induction s generalizing p with
  | nil => simpa using h
  | cons c s ih =>
    have hrest := ih h.2.2.2
    rwa [List.length_cons, show p+BitVec.ofNat 32 (s.length+1) = p+1#32+BitVec.ofNat 32 s.length by bv_omega]

theorem stringAt_write {p a : Word} {s : List Byte} (b : Byte) (h : StringAt ram p s)
    (ha : a.toNat < p.toNat ∨ p.toNat+s.length < a.toNat) : StringAt (Function.update ram a b) p s := by
  induction s generalizing p with
  | nil =>
    have hne : p ≠ a := by
      rintro rfl
      simp at ha
    exact ⟨h.1,(Function.update_of_ne hne _ _).trans h.2⟩
  | cons c s ih =>
    have hin := stringAt_inside h
    obtain ⟨hnull,hc,h0,hrest⟩ := h
    have hne : p ≠ a := by
      rintro rfl
      omega
    rw [List.length_cons] at ha hin
    have hnext : (p+1#32).toNat = p.toNat+1 := by bv_omega
    exact ⟨hnull,(Function.update_of_ne hne _ _).trans hc,h0,ih hrest (by omega)⟩

/-- A `NUL` written into a string cuts it off there. -/
theorem stringAt_cut {p : Word} {w t : List Byte} {c : Byte} (h : StringAt ram p (w ++ c::t)) :
    StringAt (Function.update ram (p+BitVec.ofNat 32 w.length) 0#8) p w := by
  induction w generalizing p with
  | nil =>
    have hp : p+BitVec.ofNat 32 ([] : List Byte).length = p := BitVec.add_zero p
    rw [hp]
    exact ⟨stringAt_ne_null h,Function.update_self _ _ _⟩
  | cons x w ih =>
    have hin := stringAt_inside h
    obtain ⟨hnull,hx,h0,hrest⟩ := h
    have hcut := ih hrest
    rw [List.length_cons, show p+BitVec.ofNat 32 (w.length+1) = p+1#32+BitVec.ofNat 32 w.length by bv_omega]
    refine ⟨hnull,?_,h0,hcut⟩
    rw [List.length_append, List.length_cons, List.length_cons] at hin
    rw [Function.update_of_ne (by bv_omega), hx]

/-! ## The loops -/

theorem loadChar_ok {p : Word} (h : p ≠ null) : loadChar ram p = .ok (ram p) := if_neg h

theorem loadChar_eq_ok {p : Word} {c : Byte} (h : loadChar ram p = .ok c) : p ≠ null ∧ ram p = c := by
  rw [loadChar] at h
  split at h
  · cases h
  · rename_i hne
    exact ⟨hne,Except.ok.inj h⟩

theorem strspnFrom_eq {d ds t : List Byte} {p : Word} (h : StringAt ram p (ds ++ t)) (hds : Blank d ds)
    (ht : ∀ c u, t = c::u → c ∉ d) {fuel : ℕ} (hfuel : ds.length < fuel) (k : Word) :
    strspnFrom ram d fuel p k = .ok (k+BitVec.ofNat 32 ds.length) := by
  induction ds generalizing p fuel k with
  | nil =>
    obtain ⟨fuel,rfl⟩ : ∃ f, fuel = f+1 := ⟨fuel-1,by omega⟩
    have hk : k+BitVec.ofNat 32 ([] : List Byte).length = k := BitVec.add_zero k
    rw [strspnFrom, loadChar_ok (stringAt_ne_null h), ok_bind, hk]
    cases t with
    | nil => rw [if_neg (not_not.mpr h.2)]
    | cons c u =>
      have hnot : ¬ charInString c d = true := mt (charInString_iff c d).mp (ht c u rfl)
      rw [h.2.1, if_pos h.2.2.1, if_pos hnot]
  | cons c ds ih =>
    obtain ⟨fuel,rfl⟩ : ∃ f, fuel = f+1 := ⟨fuel-1,by omega⟩
    obtain ⟨hc,hrest⟩ := List.forall_mem_cons.mp hds
    have hin : charInString c d = true := (charInString_iff c d).mpr hc
    rw [List.length_cons] at hfuel
    rw [strspnFrom, loadChar_ok h.1, ok_bind, h.2.1, if_pos h.2.2.1, if_neg (not_not.mpr hin),
      ih h.2.2.2 hrest (by omega), List.length_cons]
    congr 1
    bv_omega

def Plain (d w : List Byte) : Prop := ∀ c ∈ w, c ∉ d

theorem strpbrkFrom_some {d w t : List Byte} {c : Byte} {p : Word} (h : StringAt ram p (w ++ c::t))
    (hw : Plain d w) (hc : c ∈ d) {fuel : ℕ} (hfuel : w.length < fuel) :
    strpbrkFrom ram d fuel p = .ok (p+BitVec.ofNat 32 w.length) := by
  induction w generalizing p fuel with
  | nil =>
    obtain ⟨fuel,rfl⟩ : ∃ f, fuel = f+1 := ⟨fuel-1,by omega⟩
    have hp : p+BitVec.ofNat 32 ([] : List Byte).length = p := BitVec.add_zero p
    rw [strpbrkFrom, loadChar_ok h.1, ok_bind, h.2.1, if_pos h.2.2.1, if_pos ((charInString_iff c d).mpr hc), hp]
  | cons x w ih =>
    obtain ⟨fuel,rfl⟩ : ∃ f, fuel = f+1 := ⟨fuel-1,by omega⟩
    obtain ⟨hx,hrest⟩ := List.forall_mem_cons.mp hw
    rw [List.length_cons] at hfuel
    rw [strpbrkFrom, loadChar_ok h.1, ok_bind, h.2.1, if_pos h.2.2.1, if_neg (mt (charInString_iff x d).mp hx),
      ih h.2.2.2 hrest (by omega), List.length_cons]
    congr 1
    bv_omega

theorem strpbrkFrom_none {d w : List Byte} {p : Word} (h : StringAt ram p w) (hw : Plain d w) {fuel : ℕ}
    (hfuel : w.length < fuel) : strpbrkFrom ram d fuel p = .ok null := by
  induction w generalizing p fuel with
  | nil =>
    obtain ⟨fuel,rfl⟩ : ∃ f, fuel = f+1 := ⟨fuel-1,by omega⟩
    rw [strpbrkFrom, loadChar_ok h.1, ok_bind, if_neg (not_not.mpr h.2)]
  | cons x w ih =>
    obtain ⟨fuel,rfl⟩ : ∃ f, fuel = f+1 := ⟨fuel-1,by omega⟩
    obtain ⟨hx,hrest⟩ := List.forall_mem_cons.mp hw
    rw [List.length_cons] at hfuel
    rw [strpbrkFrom, loadChar_ok h.1, ok_bind, h.2.1, if_pos h.2.2.1, if_neg (mt (charInString_iff x d).mp hx),
      ih h.2.2.2 hrest (by omega)]

theorem strchrFrom_end {w : List Byte} {p : Word} (h : StringAt ram p w) {fuel : ℕ} (hfuel : w.length < fuel) :
    strchrFrom ram 0 fuel p = .ok null := by
  induction w generalizing p fuel with
  | nil =>
    obtain ⟨fuel,rfl⟩ : ∃ f, fuel = f+1 := ⟨fuel-1,by omega⟩
    rw [strchrFrom, loadChar_ok h.1, ok_bind, if_neg (not_not.mpr h.2)]
  | cons x w ih =>
    obtain ⟨fuel,rfl⟩ : ∃ f, fuel = f+1 := ⟨fuel-1,by omega⟩
    have hx : x.toInt ≠ 0 := fun h0 => h.2.2.1 (BitVec.eq_of_toInt_eq h0)
    rw [List.length_cons] at hfuel
    rw [strchrFrom, loadChar_ok h.1, ok_bind, h.2.1, if_pos h.2.2.1, if_neg hx, ih h.2.2.2 (by omega)]

end

/-! ## One call -/

section
variable {d : List Byte} {str : Word} {s : Strings}

def start (str : Word) (s : Strings) : Word := if str = null then s.oldStr else str

theorem length_lt {ram : Ram} {p : Word} {t : List Byte} (h : StringAt ram p t) : t.length < stringBound := by
  have hin := stringAt_inside h
  rw [stringBound]
  omega

/-- Behind the delimiters it begins with, a call looks at what comes first. -/
theorem strtok_skip {ds t : List Byte} (h : StringAt s.ram (start str s) (ds ++ t)) (hds : Blank d ds)
    (ht : ∀ c u, t = c::u → c ∉ d) :
    strtok str d s = (do
      let str := start str s+BitVec.ofNat 32 ds.length
      let c ← loadChar s.ram str
      if c = 0#8 then .ok (null, s)
      else
        let token ← strpbrk s.ram str d
        if token = null then
          let oldStr ← strchr s.ram str 0
          .ok (str, { s with oldStr := oldStr })
        else .ok (str, ⟨Function.update s.ram token 0#8, token+1#32⟩)) := by
  have hlen := length_lt h
  rw [List.length_append] at hlen
  have hspan : strspn s.ram (start str s) d = .ok (BitVec.ofNat 32 ds.length) := by
    rw [strspn, strspnFrom_eq h hds ht (by omega), BitVec.zero_add]
  rw [start] at hspan
  simp only [strtok, hspan, ok_bind]
  rfl

theorem strtok_blank {ds : List Byte} (h : StringAt s.ram (start str s) ds) (hds : Blank d ds) :
    strtok str d s = .ok (null, s) := by
  rw [← List.append_nil ds] at h
  have hend := stringAt_append h
  rw [strtok_skip h hds (fun c u he => by cases he)]
  simp only [loadChar_ok hend.1, ok_bind, hend.2, if_true]

/-- A token that ends with the text: the saved position is lost. -/
theorem strtok_last {ds w : List Byte} (h : StringAt s.ram (start str s) (ds ++ w)) (hds : Blank d ds)
    (hne : w ≠ []) (hw : Plain d w) :
    strtok str d s = .ok (start str s+BitVec.ofNat 32 ds.length, { s with oldStr := null }) ∧
      StringAt s.ram (start str s+BitVec.ofNat 32 ds.length) w := by
  have hat := stringAt_append h
  have hlen := length_lt hat
  refine ⟨?_,hat⟩
  rw [strtok_skip h hds (fun c u he => hw c (by simp [he]))]
  obtain ⟨c,u,rfl⟩ := List.exists_cons_of_ne_nil hne
  have hbrk : strpbrk s.ram (start str s+BitVec.ofNat 32 ds.length) d = .ok null := strpbrkFrom_none hat hw hlen
  have hchr : strchr s.ram (start str s+BitVec.ofNat 32 ds.length) 0 = .ok null := strchrFrom_end hat hlen
  simp only [loadChar_ok hat.1, ok_bind, hat.2.1, if_neg hat.2.2.1, hbrk, hchr, if_true]

/-- A token that a delimiter ends. -/
theorem strtok_token {ds w t : List Byte} {c : Byte} (h : StringAt s.ram (start str s) (ds ++ (w ++ c::t)))
    (hds : Blank d ds) (hne : w ≠ []) (hw : Plain d w) (hc : c ∈ d) :
    ∃ token s', strtok str d s = .ok (token, s') ∧ StringAt s'.ram token w ∧ StringAt s'.ram s'.oldStr t := by
  have hat := stringAt_append h
  obtain ⟨p,hp⟩ : ∃ p, p = start str s+BitVec.ofNat 32 ds.length := ⟨_,rfl⟩
  have hskip := strtok_skip h hds (d := d) (fun x u he => by
    obtain ⟨y,v,rfl⟩ := List.exists_cons_of_ne_nil hne
    rw [← (List.cons.inj he).1]
    exact hw y List.mem_cons_self)
  rw [← hp] at hat hskip
  have hlen := length_lt hat
  have hin := stringAt_inside hat
  rw [List.length_append] at hlen hin
  have hbrk : strpbrk s.ram p d = .ok (p+BitVec.ofNat 32 w.length) := strpbrkFrom_some hat hw hc (by omega)
  have hend := stringAt_append hat
  have hrest := hend.2.2.2
  refine ⟨p,⟨Function.update s.ram (p+BitVec.ofNat 32 w.length) 0#8,p+BitVec.ofNat 32 w.length+1#32⟩,?_,
    stringAt_cut hat,stringAt_write 0#8 hrest (Or.inl ?_)⟩
  · obtain ⟨y,v,rfl⟩ := List.exists_cons_of_ne_nil hne
    rw [hskip]
    simp only [loadChar_ok hat.1, ok_bind, hat.2.1, if_neg hat.2.2.1, hbrk, if_neg hend.1]
  · have hnull := stringAt_ne_null hrest
    rw [null_eq] at hnull
    bv_omega

end

/-! ## Pieces -/

section
variable {d : List Byte}

theorem pieces_delimiter {c : Byte} (t : List Byte) (hc : c ∈ d) : pieces d (c::t) = pieces d t := by
  have hnone : ∀ x ∈ ([] : List Byte), decide (x ∈ d) = false := fun x hx => by cases hx
  rw [pieces, ← List.nil_append (c::t), List.splitOnP_append_cons_of_forall_mem hnone c (by simpa using hc)]
  rfl

theorem pieces_skip {ds : List Byte} (t : List Byte) (hds : Blank d ds) : pieces d (ds ++ t) = pieces d t := by
  induction ds with
  | nil => rfl
  | cons c ds ih =>
    obtain ⟨hc,hrest⟩ := List.forall_mem_cons.mp hds
    rw [List.cons_append, pieces_delimiter _ hc, ih hrest]

theorem pieces_blank {t : List Byte} (ht : Blank d t) : pieces d t = [] := by
  rw [← List.append_nil t, pieces_skip [] ht]
  rfl

theorem pieces_token {w : List Byte} {c : Byte} (t : List Byte) (hne : w ≠ []) (hw : Plain d w) (hc : c ∈ d) :
    pieces d (w ++ c::t) = w::pieces d t := by
  rw [pieces, List.splitOnP_append_cons_of_forall_mem (fun x hx => by simpa using hw x hx) c (by simpa using hc)]
  simp [pieces, hne]

/-- A text is blank, or it has a first piece, which ends with the text or at a delimiter. -/
inductive Form (d : List Byte) : List Byte → Prop where
  | blank (t : List Byte) (ht : Blank d t) : Form d t
  | last (ds w : List Byte) (hds : Blank d ds) (hne : w ≠ []) (hw : Plain d w) : Form d (ds ++ w)
  | token (ds w : List Byte) (c : Byte) (t : List Byte) (hds : Blank d ds) (hne : w ≠ []) (hw : Plain d w)
      (hc : c ∈ d) : Form d (ds ++ (w ++ c::t))

theorem blank_nil : Blank d [] := fun c hc => by cases hc

theorem form (text : List Byte) : Form d text := by
  induction text with
  | nil => exact .blank [] blank_nil
  | cons x text ih =>
    by_cases hx : x ∈ d
    · cases ih with
      | blank _ ht => exact .blank _ (List.forall_mem_cons.mpr ⟨hx,ht⟩)
      | last ds w hds hne hw => exact .last (x::ds) w (List.forall_mem_cons.mpr ⟨hx,hds⟩) hne hw
      | token ds w c t hds hne hw hc =>
        exact .token (x::ds) w c t (List.forall_mem_cons.mpr ⟨hx,hds⟩) hne hw hc
    · have hone : Plain d [x] := List.forall_mem_singleton.mpr hx
      cases ih with
      | blank _ ht =>
        cases text with
        | nil => exact .last [] [x] blank_nil (by simp) hone
        | cons c t => exact .token [] [x] c t blank_nil (by simp) hone (ht c (by simp))
      | last ds w hds hne hw =>
        cases ds with
        | nil => exact .last [] (x::w) hds (by simp) (List.forall_mem_cons.mpr ⟨hx,hw⟩)
        | cons c ds => exact .token [] [x] c (ds ++ w) blank_nil (by simp) hone (hds c (by simp))
      | token ds w c t hds hne hw hc =>
        cases ds with
        | nil => exact .token [] (x::w) c t hds (by simp) (List.forall_mem_cons.mpr ⟨hx,hw⟩) hc
        | cons e ds => exact .token [] [x] e (ds ++ (w ++ c::t)) blank_nil (by simp) hone (hds e (by simp))

end

/-! ## All the calls -/

section
variable {d : List Byte} {s : Strings} {str : Word}

def Closed (d text : List Byte) : Prop := ∀ init c, text = init ++ [c] → c ∈ d

theorem closed_of_blank {t : List Byte} (h : Blank d t) : Closed d t := by
  rintro init c rfl
  exact h c (by simp)

theorem closed_cons {u t : List Byte} {c : Byte} (hc : c ∈ d) (h : Closed d t) : Closed d (u ++ c::t) := by
  intro init e he
  rcases List.eq_nil_or_concat t with rfl | ⟨m,x,rfl⟩
  · obtain ⟨-,hce⟩ := List.append_inj' he rfl
    rwa [← List.singleton_inj.mp hce]
  · rw [List.concat_eq_append] at h he
    rw [← List.cons_append, ← List.append_assoc] at he
    obtain ⟨-,hxe⟩ := List.append_inj' he rfl
    rw [← List.singleton_inj.mp hxe]
    exact h m x rfl

theorem not_closed_last {ds w : List Byte} (hne : w ≠ []) (hw : Plain d w) : ¬ Closed d (ds ++ w) := by
  intro h
  obtain ⟨init,c,rfl⟩ := List.eq_nil_or_concat w |>.resolve_left hne
  rw [List.concat_eq_append] at hw h
  exact hw c (by simp) (h (ds ++ init) c (by simp))

theorem closed_rest {ds w t : List Byte} {c : Byte} (h : Closed d (ds ++ (w ++ c::t))) : Closed d t := by
  rintro init e rfl
  exact h (ds ++ (w ++ c::init)) e (by simp)

theorem call_zero : call d 0 str s = strtok str d s := rfl

theorem call_succ {n : ℕ} {token : Word} {s' : Strings} (h : strtok str d s = .ok (token, s')) :
    call d (n+1) str s = call d n null s' := by
  rw [call, h]
  rfl

/-- While the rest of the text ends with a delimiter, the calls return its pieces. -/
theorem calls_return {rest : List Byte} (h : StringAt s.ram (start str s) rest) (hclosed : Closed d rest)
    (hnext : Blank d rest → ∃ more, StringAt s.ram s.oldStr more ∧ Blank d more) (n : ℕ) :
    Returns (pieces d rest)[n]? (call d n str s) := by
  induction n generalizing str s rest with
  | zero =>
    cases form (d := d) rest with
    | blank _ ht =>
      rw [pieces_blank ht]
      exact ⟨null,s,strtok_blank h ht,rfl⟩
    | last ds w hds hne hw => exact absurd hclosed (not_closed_last hne hw)
    | token ds w c t hds hne hw hc =>
      obtain ⟨token,s',hok,hstr,-⟩ := strtok_token h hds hne hw hc
      rw [pieces_skip _ hds, pieces_token t hne hw hc]
      exact ⟨token,s',hok,hstr⟩
  | succ n ih =>
    cases form (d := d) rest with
    | blank _ ht =>
      obtain ⟨more,hmore,hblank⟩ := hnext ht
      have hstart : StringAt s.ram (start null s) more := hmore
      have hagain := ih hstart (closed_of_blank hblank) (fun _ => ⟨more,hmore,hblank⟩)
      rw [call_succ (strtok_blank h ht), pieces_blank ht]
      rwa [pieces_blank hblank] at hagain
    | last ds w hds hne hw => exact absurd hclosed (not_closed_last hne hw)
    | token ds w c t hds hne hw hc =>
      obtain ⟨token,s',hok,-,hrest⟩ := strtok_token h hds hne hw hc
      rw [call_succ hok, pieces_skip _ hds, pieces_token t hne hw hc, List.getElem?_cons_succ]
      have hstart : StringAt s'.ram (start null s') t := hrest
      exact ih hstart (closed_rest hclosed) (fun hblank => ⟨t,hrest,hblank⟩)

/-- A text that ends with a piece comes to a call that reads at `NULL`. -/
theorem call_fails {text : List Byte} (h : StringAt s.ram (start str s) text) (hclosed : ¬ Closed d text) :
    ∃ n, call d n str s = .error .nullDereference := by
  obtain ⟨k,hk⟩ : ∃ k, text.length = k := ⟨_,rfl⟩
  induction k using Nat.strong_induction_on generalizing str s text with
  | _ k ih =>
    cases form (d := d) text with
    | blank _ ht => exact absurd (closed_of_blank ht) hclosed
    | last ds w hds hne hw => exact ⟨1,call_succ (strtok_last h hds hne hw).1⟩
    | token ds w c t hds hne hw hc =>
      obtain ⟨token,s',hok,-,hrest⟩ := strtok_token h hds hne hw hc
      have hopen : ¬ Closed d t := fun ht => hclosed (by
        rw [← List.append_assoc]
        exact closed_cons hc ht)
      have hlen : t.length < k := by
        rw [← hk]
        simp
        omega
      have hstart : StringAt s'.ram (start null s') t := hrest
      obtain ⟨n,hn⟩ := ih t.length hlen hstart hopen rfl
      exact ⟨n+1,(call_succ hok).trans hn⟩

theorem strspnFrom_ok {ram : Ram} {fuel : ℕ} {p k k' : Word} (h : strspnFrom ram d fuel p k = .ok k') :
    ∃ ds, Blank d ds ∧ k' = k+BitVec.ofNat 32 ds.length ∧
      ∀ t, StringAt ram (p+BitVec.ofNat 32 ds.length) t → StringAt ram p (ds ++ t) := by
  induction fuel generalizing p k with
  | zero => cases h
  | succ fuel ih =>
    have hstop : ∀ x : Word, (Except.ok x : Except Stop Word) = .ok k' → x = k → ∃ ds, Blank d ds ∧
        k' = k+BitVec.ofNat 32 ds.length ∧ ∀ t, StringAt ram (p+BitVec.ofNat 32 ds.length) t →
          StringAt ram p (ds ++ t) := by
      rintro x hx rfl
      cases hx
      exact ⟨[],blank_nil,by simp,fun t ht => by simpa using ht⟩
    by_cases hp : p = null
    · rw [strspnFrom, loadChar, if_pos hp] at h
      cases h
    · rw [strspnFrom, loadChar_ok hp, ok_bind] at h
      split at h
      · rename_i h0
        split at h
        · exact hstop k h rfl
        · rename_i hin
          obtain ⟨ds,hds,hk,hstr⟩ := ih h
          have hc : ram p ∈ d := (charInString_iff _ d).mp (not_not.mp hin)
          refine ⟨ram p::ds,List.forall_mem_cons.mpr ⟨hc,hds⟩,?_,fun t ht => ⟨hp,rfl,h0,hstr t ?_⟩⟩
          · rw [hk, List.length_cons]
            bv_omega
          · rwa [List.length_cons, show p+BitVec.ofNat 32 (ds.length+1) =
              p+1#32+BitVec.ofNat 32 ds.length by bv_omega] at ht
      · exact hstop k h rfl

theorem blank_of_null {s' : Strings} (h : strtok str d s = .ok (null, s')) :
    ∃ rest, StringAt s.ram (start str s) rest ∧ Blank d rest := by
  obtain ⟨p,hp⟩ : ∃ p, p = start str s := ⟨_,rfl⟩
  rw [← hp]
  rw [start] at hp
  simp only [strtok, ← hp] at h
  obtain ⟨k,hspan,h₁⟩ := bind_eq_ok h
  obtain ⟨ds,hds,hk,hstr⟩ := strspnFrom_ok hspan
  rw [BitVec.zero_add] at hk
  subst hk
  obtain ⟨q,hq⟩ : ∃ q, q = p+BitVec.ofNat 32 ds.length := ⟨_,rfl⟩
  rw [← hq] at h₁ hstr
  obtain ⟨c,hload,h₂⟩ := bind_eq_ok h₁
  obtain ⟨hnull,rfl⟩ := loadChar_eq_ok hload
  split at h₂
  · rename_i hzero
    exact ⟨ds,by simpa using hstr [] ⟨hnull,hzero⟩,hds⟩
  · -- a token is returned, and not at `NULL`
    obtain ⟨token,-,h₃⟩ := bind_eq_ok h₂
    split at h₃
    · obtain ⟨oldStr,-,h₄⟩ := bind_eq_ok h₃
      cases h₄
      exact absurd rfl hnull
    · cases h₃
      exact absurd rfl hnull

end

section
variable {d : List Byte} {s : Strings} {p : Word} {text : List Byte}

theorem tokenises_of_safe (h : StringAt s.ram p text) (hsafe : Safe d s text) : Tokenises d s p text := by
  have hstart : start p s = p := if_neg (stringAt_ne_null h)
  rw [← hstart] at h
  rcases hsafe with ⟨init,c,rfl,hc,hpiece⟩ | ⟨hblank,hmore⟩
  · exact calls_return h (closed_cons hc fun init e he => by simp at he) fun hblank => absurd hblank hpiece
  · exact calls_return h (closed_of_blank hblank) fun _ => hmore

theorem safe_of_tokenises (h : StringAt s.ram p text) (htok : Tokenises d s p text) : Safe d s text := by
  have hstart : start p s = p := if_neg (stringAt_ne_null h)
  rw [← hstart] at h
  have hclosed : Closed d text := by
    by_contra hopen
    obtain ⟨n,hn⟩ := call_fails h hopen
    obtain ⟨token,s',hok,-⟩ := htok n
    rw [hn] at hok
    cases hok
  by_cases hblank : Blank d text
  · obtain ⟨token,s',hok,hnull⟩ := htok 1
    rw [call_succ (strtok_blank h hblank)] at hok
    rw [pieces_blank hblank] at hnull
    simp only [List.getElem?_nil] at hnull
    subst hnull
    exact Or.inr ⟨hblank,blank_of_null (call_zero.symm.trans hok)⟩
  · rcases List.eq_nil_or_concat text with rfl | ⟨init,c,hlast⟩
    · exact absurd blank_nil hblank
    · rw [List.concat_eq_append] at hlast
      exact Or.inl ⟨init,c,hlast,hclosed init c hlast,hblank⟩

end

/-- The calls return the pieces of the text one by one and `NULL` from then on
when a delimiter ends the last piece, or when there is none and nothing is left
of the text before. -/
theorem tokenises_iff (d : List Byte) (s : Strings) (p : Word) (text : List Byte) (h : StringAt s.ram p text) :
    Tokenises d s p text ↔ Safe d s text :=
  ⟨safe_of_tokenises h,tokenises_of_safe h⟩

def letterRam (spaces : ℕ) : Ram := fun q =>
  if q = 0x1000#32 then 0x61#8 else if 0x1000 < q.toNat ∧ q.toNat ≤ 0x1000+spaces then 0x20#8 else 0#8

theorem letter_and_spaces_tokenised :
    Tokenises [0x20#8] ⟨letterRam 2,null⟩ 0x1000#32 [0x61#8, 0x20#8, 0x20#8] := by
  refine (tokenises_iff _ _ _ _ ?_).mpr (Or.inl ⟨[0x61#8, 0x20#8],0x20#8,rfl,by decide,by unfold Blank; decide⟩)
  simp only [StringAt]
  decide

/-- The call behind a single letter reads at `NULL`. -/
theorem letter_not_tokenised :
    StringAt (letterRam 0) 0x1000#32 [0x61#8] ∧
      ¬ Tokenises [0x20#8] ⟨letterRam 0,null⟩ 0x1000#32 [0x61#8] := by
  have hstr : StringAt (letterRam 0) 0x1000#32 [0x61#8] := by
    simp only [StringAt]
    decide
  refine ⟨hstr,fun htok => ?_⟩
  rcases safe_of_tokenises (s := ⟨letterRam 0,null⟩) hstr htok with ⟨init,c,htext,hc,-⟩ | ⟨hblank,-⟩
  · obtain ⟨-,hce⟩ := List.append_inj' (show [] ++ [0x61#8] = init ++ [c] from htext) rfl
    rw [← List.singleton_inj.mp hce] at hc
    exact absurd hc (by decide)
  · exact absurd (hblank 0x61#8 (by simp)) (by decide)

end MikeOS.Strtok
