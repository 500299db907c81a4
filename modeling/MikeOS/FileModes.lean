import MikeOS.CString
import MikeOS.File

/-!
# Open modes

`file_open` looks its mode up in a table of strings by `strncmp`, which ends
both of its arguments at their third byte before it compares them. The strings
of the table are bytes of the image, and where they were placed is a parameter.
A byte behind the end of the buffer for the mode lies on the stack and is not
read; `kmalloc` is taken not to return `NULL`.
-/

set_option autoImplicit false

namespace MikeOS.FileModes
open MikeOS.Initrd MikeOS.File MikeOS.CString

abbrev CStr := {s : List Byte // 0#8 ∉ s}

def letterR : Byte := 0x72#8
def letterW : Byte := 0x77#8
def letterA : Byte := 0x61#8
def letterB : Byte := 0x62#8
def plus : Byte := 0x2B#8

def possibleModes : List (List Byte) :=
  [[letterR], [letterR, letterB], [letterW], [letterW, letterB], [letterA], [letterA, letterB],
    [letterR, plus], [letterR, letterB, plus], [letterR, plus, letterB],
    [letterW, plus], [letterW, letterB, plus], [letterW, plus, letterB],
    [letterA, plus], [letterA, letterB, plus], [letterA, plus, letterB]]

def read : Word := 1#32
def write : Word := 2#32
def append : Word := 4#32
def createFile : Word := 8#32
def truncateToZero : Word := 16#32

def modesBits : List Word :=
  [read, read, write ||| createFile ||| truncateToZero, write ||| createFile ||| truncateToZero,
    append ||| createFile, append ||| createFile, read ||| write, read ||| write, read ||| write,
    truncateToZero ||| createFile ||| read ||| write, truncateToZero ||| createFile ||| read ||| write,
    truncateToZero ||| createFile ||| read ||| write, append ||| createFile, append ||| createFile,
    append ||| createFile]

def text (i : ℕ) : List Byte := possibleModes.getD i []

def bits (i : ℕ) : Word := modesBits.getD i 0#32

/-- Where the strings of the table are, and the bytes of the image at start. -/
structure Placement where
  place : ℕ → ℕ
  data : ℕ → Byte
  apart : ∀ i, i < 15 → ∀ j, j < 15 → i ≠ j →
    place i+(text i).length < place j ∨ place j+(text j).length < place i
  written : ∀ i, i < 15 → ∀ k, k ≤ (text i).length → data (place i+k) = (text i).getD k 0#8

def charsAt (mem : ℕ → Byte) : ℕ → ℕ → List Byte
  | 0, _ => []
  | n+1, p => if mem p = 0#8 then [] else mem p :: charsAt mem n (p+1)

def strncmp (str1 mem : ℕ → Byte) (str2 maxLength : ℕ) : ℤ × (ℕ → Byte) × (ℕ → Byte) :=
  let str1 := Function.update str1 (maxLength-1) 0#8
  let mem := Function.update mem (str2+(maxLength-1)) 0#8
  (strcmp str1 (charsAt mem (maxLength-1) str2), str1, mem)

def openLoop (P : Placement) : ℕ → ℕ → (ℕ → Byte) → (ℕ → Byte) → Option ℕ × (ℕ → Byte)
  | 0, _, _, mem => (none, mem)
  | n+1, i, modeBuf, mem =>
    let r := strncmp modeBuf mem (P.place i) 3
    if r.1 = 0 then (some i, r.2.2) else openLoop P n (i+1) r.2.1 r.2.2

/-- The copy of the mode; `stack` is what was there before. -/
def modeBuf (mode : CStr) (stack : ℕ → Byte) : ℕ → Byte :=
  Function.update (fun k => mode.1.getD k (stack k)) mode.1.length 0#8

/-- `path` is `none` for `NULL`, and else what `vfs_open` returns for the path. -/
structure Call where
  path : Option (Option FsNode)
  mode : CStr
  stack : ℕ → Byte

def fileOpen (P : Placement) (c : Call) (mem : ℕ → Byte) : Option FileT × (ℕ → Byte) :=
  match c.path with
  | none => (none, mem)
  | some inode =>
    let r := openLoop P possibleModes.length 0 (modeBuf c.mode c.stack) mem
    (r.1.bind fun i => inode.map fun inode => opened (bits i) inode, r.2)

def afterCalls (P : Placement) : List Call → (ℕ → Byte) → (ℕ → Byte)
  | [], mem => mem
  | c::calls, mem => afterCalls P calls (fileOpen P c mem).2

/-! ## The property and the condition -/

def tableBits (mode : CStr) : Option Word := (possibleModes.findIdx? fun s => s = mode.1).map bits

/-- After any calls an existing file is opened with the bits of the table, and
with no other mode. -/
def OpensByTable (P : Placement) (mode : CStr) : Prop :=
  ∀ (history : List Call) (inode : FsNode) (stack : ℕ → Byte),
    (fileOpen P ⟨some (some inode), mode, stack⟩ (afterCalls P history P.data)).1 =
      (tableBits mode).map fun b => opened b inode

/-- String `i` starts behind a string of one letter that is entry `j` for some
`j < K`. -/
def Behind (P : Placement) (K i : ℕ) : Prop := ∃ j, j < K ∧ (text j).length = 1 ∧ P.place i = P.place j+2

/-- Up to their third characters, the mode and its entry are told from all others
that are still there. -/
def ToldApart (P : Placement) (mode : CStr) : Prop :=
  match tableBits mode with
  | some b => ∃ i, i < 15 ∧ (text i).take 2 = mode.1.take 2 ∧ ¬ Behind P 15 i ∧ bits i = b ∧
      ∀ q, q < i → (text q).take 2 = mode.1.take 2 → Behind P q q ∨ bits q = b
  | none => (∀ i, i < 15 → (text i).take 2 = mode.1.take 2 → Behind P i i) ∧
      (mode.1 = [] → ∀ i, i < 15 → ¬ Behind P 15 i)

/-! ## The table after calls -/

theorem text_length {i : ℕ} (hi : i < 15) : 1 ≤ (text i).length ∧ (text i).length ≤ 3 := by
  have h : ∀ i, i < 15 → 1 ≤ (text i).length ∧ (text i).length ≤ 3 := by decide
  exact h i hi

theorem text_nonzero {i : ℕ} (hi : i < 15) : 0#8 ∉ text i := by
  have h : ∀ i, i < 15 → 0#8 ∉ text i := by decide
  exact h i hi

def damaged (P : Placement) (K : ℕ) : ℕ → Byte :=
  fun a => if ∃ j, j < K ∧ a = P.place j+2 then 0#8 else P.data a

theorem damaged_zero (P : Placement) : damaged P 0 = P.data := by
  funext a
  rw [damaged, if_neg (by simp)]

theorem damaged_update (P : Placement) (K i : ℕ) :
    Function.update (damaged P (max K i)) (P.place i+2) 0#8 = damaged P (max K (i+1)) := by
  funext a
  by_cases ha : a = P.place i+2
  · rw [ha, Function.update_self, damaged, if_pos ⟨i,by omega,rfl⟩]
  · rw [Function.update_of_ne ha, damaged, damaged]
    refine if_congr ⟨fun ⟨j,hj,he⟩ => ⟨j,by omega,he⟩,fun ⟨j,hj,he⟩ => ⟨j,?_,he⟩⟩ rfl rfl
    have hne : j ≠ i := fun h => ha (by rw [he, h])
    omega

instance (P : Placement) (K i : ℕ) : Decidable (Behind P K i) :=
  inferInstanceAs (Decidable (∃ j, j < K ∧ _ ∧ _))

def shown (P : Placement) (K i : ℕ) : List Byte := if Behind P K i then [] else (text i).take 2

/-- The first byte of an entry is lost when it is behind a one-letter string. -/
theorem first_lost (P : Placement) {K i : ℕ} (hK : K ≤ 15) (hi : i < 15) :
    (∃ j, j < K ∧ P.place i = P.place j+2) ↔ Behind P K i := by
  refine ⟨fun ⟨j,hj,he⟩ => ⟨j,hj,?_,he⟩,fun ⟨j,hj,_,he⟩ => ⟨j,hj,he⟩⟩
  have hne : i ≠ j := fun h => by
    rw [h] at he
    omega
  have := P.apart i hi j (by omega) hne
  have := text_length (i := j) (by omega)
  omega

theorem second_kept (P : Placement) {K i : ℕ} (hK : K ≤ 15) (hi : i < 15) :
    ¬ ∃ j, j < K ∧ P.place i+1 = P.place j+2 := by
  rintro ⟨j,hj,he⟩
  by_cases h : i = j
  · rw [h] at he
    omega
  · have := P.apart i hi j (by omega) h
    have := text_length hi
    have := text_length (i := j) (by omega)
    omega

theorem take_two {s : List Byte} (hlen : 1 ≤ s.length) (hzero : 0#8 ∉ s) :
    (if s.getD 0 0#8 = 0#8 then [] else
      s.getD 0 0#8 :: if s.getD 1 0#8 = 0#8 then [] else [s.getD 1 0#8]) = s.take 2 := by
  match s with
  | [] => simp at hlen
  | [c] =>
    have hc : c ≠ 0#8 := fun h => hzero (by simp [h])
    simp [hc]
  | c::d::rest =>
    have hc : c ≠ 0#8 := fun h => hzero (by simp [h])
    have hd : d ≠ 0#8 := fun h => hzero (by simp [h])
    simp [hc, hd]

theorem charsAt_damaged (P : Placement) {K i : ℕ} (hK : K ≤ 15) (hi : i < 15) :
    charsAt (damaged P K) 2 (P.place i) = shown P K i := by
  have hlen := text_length hi
  have hzero := text_nonzero hi
  have hfirst := P.written i hi 0 (by omega)
  have hsecond := P.written i hi 1 (by omega)
  rw [Nat.add_zero] at hfirst
  by_cases hb : Behind P K i
  · rw [shown, if_pos hb, charsAt, if_pos]
    rw [damaged, if_pos ((first_lost P hK hi).mpr hb)]
  · have h0 : damaged P K (P.place i) = (text i).getD 0 0#8 := by
      rw [damaged, if_neg ((first_lost P hK hi).not.mpr hb), hfirst]
    have h1 : damaged P K (P.place i+1) = (text i).getD 1 0#8 := by
      rw [damaged, if_neg (second_kept P hK hi), hsecond]
    rw [shown, if_neg hb, charsAt, charsAt, charsAt, h0, h1]
    exact take_two hlen.1 hzero

/-! ## One call -/

theorem spells_inj {str1 : ℕ → Byte} {s t : List Byte} (hs : Spells str1 s) (ht : Spells str1 t)
    (hs0 : 0#8 ∉ s) (ht0 : 0#8 ∉ t) : s = t := by
  induction s generalizing str1 t with
  | nil =>
    cases t with
    | nil => rfl
    | cons d t =>
      have h0 : str1 0 = 0#8 := hs.2
      rw [spells_cons] at ht
      exact absurd (by rw [← ht.1, h0]; exact List.mem_cons_self) ht0
  | cons c s ih =>
    rw [spells_cons] at hs
    cases t with
    | nil =>
      have h0 : str1 0 = 0#8 := ht.2
      exact absurd (by rw [← hs.1, h0]; exact List.mem_cons_self) hs0
    | cons d t =>
      rw [spells_cons] at ht
      have hrest := ih hs.2 ht.2 (fun h => hs0 (List.mem_cons_of_mem c h))
        (fun h => ht0 (List.mem_cons_of_mem d h))
      rw [← hs.1, ← ht.1, hrest]

theorem take_nonzero {s : List Byte} (h : 0#8 ∉ s) : 0#8 ∉ s.take 2 :=
  fun hmem => h (List.mem_of_mem_take hmem)

theorem modeBuf_spells (mode : CStr) (stack : ℕ → Byte) :
    Spells (Function.update (modeBuf mode stack) 2 0#8) (mode.1.take 2) := by
  obtain ⟨s,hs⟩ := mode
  match s with
  | [] => exact ⟨by simp, by simp [modeBuf]⟩
  | [c] => exact ⟨by simp [modeBuf], by simp [modeBuf]⟩
  | c::d::rest =>
    refine ⟨fun i hi => ?_, by simp⟩
    have hi : i < 2 := by simpa using hi
    interval_cases i <;> simp [modeBuf]

theorem shown_nonzero (P : Placement) {K i : ℕ} (hi : i < 15) : 0#8 ∉ shown P K i := by
  rw [shown]
  split
  · simp
  · exact take_nonzero (text_nonzero hi)

theorem strncmp_damaged (P : Placement) {K i : ℕ} (hK : K ≤ 15) (hi : i < 15) {buf : ℕ → Byte}
    {t : List Byte} (ht : 0#8 ∉ t) (hbuf : Spells (Function.update buf 2 0#8) t) :
    (strncmp buf (damaged P (max K i)) (P.place i) 3).1 = 0 ↔ shown P (max K (i+1)) i = t := by
  simp only [strncmp, Nat.reduceSub]
  rw [damaged_update, charsAt_damaged P (by omega) hi, strcmp_eq_zero_iff _ _ (shown_nonzero P hi)]
  constructor
  · intro h
    exact spells_inj h hbuf (shown_nonzero P hi) ht
  · intro h
    rw [h]
    exact hbuf

def First (P : Placement) (K : ℕ) (t : List Byte) (i r : ℕ) : Prop :=
  i ≤ r ∧ r < 15 ∧ shown P (max K (r+1)) r = t ∧ ∀ q, i ≤ q → q < r → shown P (max K (q+1)) q ≠ t

theorem first_unique {P : Placement} {K r r' : ℕ} {t : List Byte} (h : First P K t 0 r)
    (h' : First P K t 0 r') : r = r' := by
  obtain ⟨-,-,hshown,hbefore⟩ := h
  obtain ⟨-,-,hshown',hbefore'⟩ := h'
  rcases Nat.lt_trichotomy r r' with hlt | heq | hgt
  · exact absurd hshown (hbefore' r (by omega) hlt)
  · exact heq
  · exact absurd hshown' (hbefore r' (by omega) hgt)

theorem openLoop_eq (P : Placement) {K : ℕ} (hK : K ≤ 15) {t : List Byte} (ht : 0#8 ∉ t) (n i : ℕ)
    (hn : i+n = 15) (buf : ℕ → Byte) (hbuf : Spells (Function.update buf 2 0#8) t) :
    (∃ r, First P K t i r ∧
      openLoop P n i buf (damaged P (max K i)) = (some r, damaged P (max K (r+1)))) ∨
    (∀ q, i ≤ q → q < 15 → shown P (max K (q+1)) q ≠ t) ∧
      openLoop P n i buf (damaged P (max K i)) = (none, damaged P 15) := by
  induction n generalizing i buf with
  | zero =>
    refine .inr ⟨fun q hq hlt => by omega,?_⟩
    rw [openLoop, show max K i = 15 by omega]
  | succ n ih =>
    have hmatch := strncmp_damaged P hK (i := i) (by omega) ht hbuf
    have hmem : (strncmp buf (damaged P (max K i)) (P.place i) 3).2.2 = damaged P (max K (i+1)) :=
      damaged_update P K i
    simp only [openLoop]
    rw [hmem]
    by_cases hs : shown P (max K (i+1)) i = t
    · rw [if_pos (hmatch.mpr hs)]
      exact .inl ⟨i,⟨le_refl i,by omega,hs,fun q hq hlt => by omega⟩,rfl⟩
    · rw [if_neg (fun h => hs (hmatch.mp h))]
      have hbuf' : Spells (Function.update (strncmp buf (damaged P (max K i)) (P.place i) 3).2.1 2 0#8) t := by
        simpa [strncmp] using hbuf
      have hstep : ∀ q, i ≤ q → (i+1 ≤ q → shown P (max K (q+1)) q ≠ t) →
          shown P (max K (q+1)) q ≠ t := fun q hq h => by
        by_cases hqi : q = i
        · rw [hqi]
          exact hs
        · exact h (by omega)
      obtain ⟨r,⟨hir,hr,hshown,hbefore⟩,hrun⟩ | ⟨hnone,hrun⟩ := ih (i+1) (by omega) _ hbuf'
      · exact .inl ⟨r,⟨by omega,hr,hshown,fun q hq hlt => hstep q hq fun h => hbefore q h hlt⟩,hrun⟩
      · exact .inr ⟨fun q hq hlt => hstep q hq fun h => hnone q h hlt,hrun⟩

theorem fileOpen_eq (P : Placement) {K : ℕ} (hK : K ≤ 15) (inode : Option FsNode) (mode : CStr)
    (stack : ℕ → Byte) :
    (∃ r, First P K (mode.1.take 2) 0 r ∧
      fileOpen P ⟨some inode,mode,stack⟩ (damaged P K) =
        (inode.map fun inode => opened (bits r) inode, damaged P (max K (r+1)))) ∨
    (∀ q, q < 15 → shown P (max K (q+1)) q ≠ mode.1.take 2) ∧
      fileOpen P ⟨some inode,mode,stack⟩ (damaged P K) = (none, damaged P 15) := by
  have hloop := openLoop_eq P hK (take_nonzero mode.2) 15 0 rfl _ (modeBuf_spells mode stack)
  rw [Nat.max_zero] at hloop
  obtain ⟨r,hfirst,hrun⟩ | ⟨hnone,hrun⟩ := hloop
  · refine .inl ⟨r,hfirst,?_⟩
    rw [fileOpen, show possibleModes.length = 15 from rfl, hrun]
    rfl
  · refine .inr ⟨fun q hq => hnone q (by omega) hq,?_⟩
    rw [fileOpen, show possibleModes.length = 15 from rfl, hrun]
    rfl

/-! ## Histories -/

theorem fileOpen_damaged (P : Placement) {K : ℕ} (hK : K ≤ 15) (c : Call) :
    ∃ K', K' ≤ 15 ∧ (fileOpen P c (damaged P K)).2 = damaged P K' := by
  obtain ⟨path,mode,stack⟩ := c
  cases path with
  | none => exact ⟨K,hK,rfl⟩
  | some inode =>
    obtain ⟨r,⟨_,hr,_⟩,hrun⟩ | ⟨_,hrun⟩ := fileOpen_eq P hK inode mode stack
    · exact ⟨max K (r+1),by omega,by rw [hrun]⟩
    · exact ⟨15,le_refl 15,by rw [hrun]⟩

theorem afterCalls_damaged (P : Placement) (history : List Call) {K : ℕ} (hK : K ≤ 15) :
    ∃ K', K' ≤ 15 ∧ afterCalls P history (damaged P K) = damaged P K' := by
  induction history generalizing K with
  | nil => exact ⟨K,hK,rfl⟩
  | cons c calls ih =>
    obtain ⟨K₁,hK₁,hrun⟩ := fileOpen_damaged P hK c
    rw [afterCalls, hrun]
    exact ih hK₁

def unknown : CStr := ⟨[0x7A#8, 0x7A#8],by decide⟩

theorem shown_not_unknown (P : Placement) (K i : ℕ) (hi : i < 15) : shown P K i ≠ unknown.1.take 2 := by
  have h : ∀ i, i < 15 → (text i).take 2 ≠ unknown.1.take 2 := by decide
  rw [shown]
  split
  · decide
  · exact h i hi

theorem afterCalls_all (P : Placement) :
    afterCalls P [⟨some none,unknown,fun _ => 0#8⟩] P.data = damaged P 15 := by
  rw [← damaged_zero, afterCalls, afterCalls]
  obtain ⟨r,⟨_,hr,hshown,_⟩,_⟩ | ⟨_,hrun⟩ :=
    fileOpen_eq P (K := 0) (by omega) none unknown (fun _ => 0#8)
  · exact absurd hshown (shown_not_unknown P _ r hr)
  · rw [hrun]

/-! ## When the table decides -/

def Decided (P : Placement) (K : ℕ) (mode : CStr) : Prop :=
  match tableBits mode with
  | some b => ∃ r, First P K (mode.1.take 2) 0 r ∧ bits r = b
  | none => ∀ q, q < 15 → shown P (max K (q+1)) q ≠ mode.1.take 2

theorem decided_iff (P : Placement) {K : ℕ} (hK : K ≤ 15) (inode : FsNode) (mode : CStr)
    (stack : ℕ → Byte) :
    (fileOpen P ⟨some (some inode),mode,stack⟩ (damaged P K)).1 =
      (tableBits mode).map (fun b => opened b inode) ↔ Decided P K mode := by
  unfold Decided
  obtain ⟨r,hfirst,hrun⟩ | ⟨hnone,hrun⟩ := fileOpen_eq P hK (some inode) mode stack
  · rw [hrun]
    cases tableBits mode with
    | none =>
      constructor
      · simp
      · intro h
        exact absurd hfirst.2.2.1 (h r hfirst.2.1)
    | some b =>
      constructor
      · intro h
        exact ⟨r,hfirst,congrArg FileT.mode (Option.some.inj h)⟩
      · rintro ⟨r',hfirst',hb⟩
        rw [first_unique hfirst hfirst', ← hb]
        rfl
  · rw [hrun]
    cases tableBits mode with
    | none => exact ⟨fun _ => hnone,fun _ => rfl⟩
    | some b =>
      constructor
      · simp
      · rintro ⟨r,hfirst,_⟩
        exact absurd hfirst.2.2.1 (hnone r hfirst.2.1)

theorem behind_mono {P : Placement} {K K' i : ℕ} (h : K ≤ K') (hb : Behind P K i) : Behind P K' i := by
  obtain ⟨j,hj,hone,hplace⟩ := hb
  exact ⟨j,by omega,hone,hplace⟩

theorem behind_succ {P : Placement} {i : ℕ} : Behind P (i+1) i ↔ Behind P i i := by
  refine ⟨fun ⟨j,hj,hone,hplace⟩ => ⟨j,?_,hone,hplace⟩,behind_mono (by omega)⟩
  have hne : j ≠ i := fun h => by
    rw [h] at hplace
    omega
  omega

theorem shown_eq {P : Placement} {K i : ℕ} {t : List Byte} (ht : t ≠ []) :
    shown P K i = t ↔ ¬ Behind P K i ∧ (text i).take 2 = t := by
  rw [shown]
  split
  · next hb => exact ⟨fun h => absurd h.symm ht,fun h => absurd hb h.1⟩
  · next hb => exact ⟨fun h => ⟨hb,h⟩,fun h => h.2⟩

theorem take_text_ne {i : ℕ} (hi : i < 15) : (text i).take 2 ≠ [] := by
  have h : ∀ i, i < 15 → (text i).take 2 ≠ [] := by decide
  exact h i hi

/-- No three strings of the table start with the same two characters. -/
theorem two_alike {i j k : ℕ} (hij : i < j) (hjk : j < k) (hk : k < 15)
    (h : (text i).take 2 = (text j).take 2) : (text j).take 2 ≠ (text k).take 2 := by
  have htable : ∀ k, k < 15 → ∀ j, j < k → ∀ i, i < j → (text i).take 2 = (text j).take 2 →
      (text j).take 2 ≠ (text k).take 2 := by decide
  exact htable k hk j hjk i hij h

theorem tableBits_ne_nil {mode : CStr} {b : Word} (h : tableBits mode = some b) : mode.1.take 2 ≠ [] := by
  intro hnil
  have he : mode.1 = [] := by simpa using hnil
  rw [tableBits, he] at h
  have hnone : (possibleModes.findIdx? fun s => s = []) = none := by decide
  rw [hnone] at h
  cases h

/-- The mode of an entry is found whatever was compared before. -/
theorem decided_entry {P : Placement} {mode : CStr} {b : Word} (hbits : tableBits mode = some b)
    {i : ℕ} (hi : i < 15) (htext : (text i).take 2 = mode.1.take 2) (hkept : ¬ Behind P 15 i)
    (hb : bits i = b)
    (hbefore : ∀ q, q < i → (text q).take 2 = mode.1.take 2 → Behind P q q ∨ bits q = b)
    {K : ℕ} (hK : K ≤ 15) : Decided P K mode := by
  have ht := tableBits_ne_nil hbits
  have hshown : shown P (max K (i+1)) i = mode.1.take 2 :=
    (shown_eq ht).mpr ⟨fun h => hkept (behind_mono (by omega) h),htext⟩
  classical
  have hex : ∃ r, r < 15 ∧ shown P (max K (r+1)) r = mode.1.take 2 := ⟨i,hi,hshown⟩
  have hle : Nat.find hex ≤ i := Nat.find_min' hex ⟨hi,hshown⟩
  obtain ⟨hr,hspec⟩ := Nat.find_spec hex
  have hmin : ∀ q, q < Nat.find hex → shown P (max K (q+1)) q ≠ mode.1.take 2 :=
    fun q hq h => Nat.find_min hex hq ⟨by omega,h⟩
  rw [Decided, hbits]
  refine ⟨Nat.find hex,⟨by omega,hr,hspec,fun q _ hq => hmin q hq⟩,?_⟩
  rcases Nat.lt_or_eq_of_le hle with hlt | heq
  · obtain ⟨hnot,hsame⟩ := (shown_eq ht).mp hspec
    rcases hbefore _ hlt hsame with hbehind | hb
    · exact absurd (behind_mono (by omega) hbehind) hnot
    · exact hb
  · rw [heq, hb]

theorem decided_other {P : Placement} {mode : CStr} (hbits : tableBits mode = none)
    (hlost : ∀ i, i < 15 → (text i).take 2 = mode.1.take 2 → Behind P i i)
    (hempty : mode.1 = [] → ∀ i, i < 15 → ¬ Behind P 15 i) {K : ℕ} (hK : K ≤ 15) :
    Decided P K mode := by
  rw [Decided, hbits]
  intro q hq hshown
  by_cases ht : mode.1.take 2 = []
  · rw [ht, shown] at hshown
    split at hshown
    · next hb => exact hempty (by simpa using ht) q hq (behind_mono (by omega) hb)
    · exact take_text_ne hq hshown
  · obtain ⟨hnot,hsame⟩ := (shown_eq ht).mp hshown
    exact hnot (behind_mono (by omega) (hlost q hq hsame))

theorem told_entry {P : Placement} {mode : CStr} {b : Word} (hbits : tableBits mode = some b)
    (hfresh : Decided P 0 mode) (hall : Decided P 15 mode) : ToldApart P mode := by
  have ht := tableBits_ne_nil hbits
  rw [Decided, hbits] at hfresh hall
  obtain ⟨i,⟨_,hi,hshown,hbefore⟩,hb⟩ := hall
  obtain ⟨r,⟨_,hr,hshown₀,hbefore₀⟩,hb₀⟩ := hfresh
  obtain ⟨hkept,htext⟩ := (shown_eq ht).mp hshown
  obtain ⟨hkept₀,htext₀⟩ := (shown_eq ht).mp hshown₀
  rw [Nat.max_eq_left (by omega)] at hkept
  rw [ToldApart, hbits]
  refine ⟨i,hi,htext,hkept,hb,fun q hq hsame => ?_⟩
  by_cases hbehind : Behind P q q
  · exact .inl hbehind
  · -- `q` is still there on the first call, so that call ends at `q` or before
    right
    have hseen : shown P (max 0 (q+1)) q = mode.1.take 2 := by
      rw [Nat.zero_max, shown_eq ht, behind_succ]
      exact ⟨hbehind,hsame⟩
    have hrq : r ≤ q := by
      by_contra h
      exact hbefore₀ q (by omega) (by omega) hseen
    rcases Nat.lt_or_eq_of_le hrq with hlt | heq
    · exact absurd (hsame.trans htext.symm)
        (two_alike hlt hq hi (htext₀.trans hsame.symm))
    · rw [← heq, hb₀]

theorem told_other {P : Placement} {mode : CStr} (hbits : tableBits mode = none)
    (hfresh : Decided P 0 mode) (hall : Decided P 15 mode) : ToldApart P mode := by
  rw [Decided, hbits] at hfresh hall
  rw [ToldApart, hbits]
  constructor
  · intro i hi hsame
    have hne : mode.1.take 2 ≠ [] := by
      rw [← hsame]
      exact take_text_ne hi
    by_contra hbehind
    apply hfresh i hi
    rw [Nat.zero_max, shown_eq hne, behind_succ]
    exact ⟨hbehind,hsame⟩
  · intro hnil i hi hbehind
    apply hall i hi
    rw [Nat.max_eq_left (by omega), shown, if_pos hbehind, hnil]
    rfl

theorem told_of_opens {P : Placement} {mode : CStr} (h : OpensByTable P mode) : ToldApart P mode := by
  have hfresh : Decided P 0 mode := by
    rw [← decided_iff P (by omega) ⟨0#32,0#32⟩ mode fun _ => 0#8, damaged_zero]
    exact h [] _ _
  have hall : Decided P 15 mode := by
    rw [← decided_iff P (le_refl 15) ⟨0#32,0#32⟩ mode fun _ => 0#8, ← afterCalls_all]
    exact h _ _ _
  cases hbits : tableBits mode with
  | none => exact told_other hbits hfresh hall
  | some b => exact told_entry hbits hfresh hall

/-- The table decides a mode, after any calls, exactly when its first two
characters tell it apart. -/
theorem open_modes_iff (P : Placement) (mode : CStr) : OpensByTable P mode ↔ ToldApart P mode := by
  constructor
  · exact told_of_opens
  · intro h history inode stack
    obtain ⟨K,hK,hmem⟩ := afterCalls_damaged P history (K := 0) (by omega)
    rw [damaged_zero] at hmem
    rw [hmem, decided_iff P hK]
    unfold ToldApart at h
    cases hbits : tableBits mode with
    | none =>
      rw [hbits] at h
      exact decided_other hbits h.1 h.2 hK
    | some b =>
      rw [hbits] at h
      obtain ⟨i,hi,htext,hkept,hb,hbefore⟩ := h
      exact decided_entry hbits hi htext hkept hb hbefore hK

/-! ## No placement is right for all modes -/

theorem place_inj (P : Placement) {i j : ℕ} (hi : i < 15) (hj : j < 15) (hne : i ≠ j) : P.place i ≠ P.place j := by
  intro he
  have := P.apart i hi j hj hne
  omega

theorem behind_letter {P : Placement} {i : ℕ} (hi : i < 15) (h : Behind P i i) :
    P.place i = P.place 0+2 ∨ P.place i = P.place 2+2 ∨ P.place i = P.place 4+2 := by
  have hletter : ∀ j, j < 15 → (text j).length = 1 → j = 0 ∨ j = 2 ∨ j = 4 := by decide
  obtain ⟨j,hj,hone,hplace⟩ := h
  rcases hletter j (by omega) hone with rfl | rfl | rfl
  · exact .inl hplace
  · exact .inr (.inl hplace)
  · exact .inr (.inr hplace)

def longBinary : CStr := ⟨[letterR, letterB, 0x7A#8],by decide⟩
def longUpdate : CStr := ⟨[letterR, plus, 0x7A#8],by decide⟩

/-- Wherever the strings are, some mode that is not in the table opens a file: four
entries would have to be overwritten for these two alone. -/
theorem no_placement_right (P : Placement) : ¬ ∀ mode, OpensByTable P mode := by
  intro h
  have hlost : ∀ mode : CStr, tableBits mode = none → ∀ i, i < 15 → (text i).take 2 = mode.1.take 2 →
      Behind P i i := by
    intro mode hbits
    have htold := (told_of_opens (h mode))
    rw [ToldApart, hbits] at htold
    exact htold.1
  have h1 := behind_letter (by omega) (hlost longBinary (by decide) 1 (by omega) (by decide))
  have h7 := behind_letter (by omega) (hlost longBinary (by decide) 7 (by omega) (by decide))
  have h6 := behind_letter (by omega) (hlost longUpdate (by decide) 6 (by omega) (by decide))
  have h8 := behind_letter (by omega) (hlost longUpdate (by decide) 8 (by omega) (by decide))
  have h17 := place_inj P (i := 1) (j := 7) (by omega) (by omega) (by omega)
  have h16 := place_inj P (i := 1) (j := 6) (by omega) (by omega) (by omega)
  have h18 := place_inj P (i := 1) (j := 8) (by omega) (by omega) (by omega)
  have h76 := place_inj P (i := 7) (j := 6) (by omega) (by omega) (by omega)
  have h78 := place_inj P (i := 7) (j := 8) (by omega) (by omega) (by omega)
  have h68 := place_inj P (i := 6) (j := 8) (by omega) (by omega) (by omega)
  omega

def packed : Placement where
  place i := ((possibleModes.take i).flatMap fun s => s++[0#8]).length
  data a := (possibleModes.flatMap fun s => s++[0#8]).getD a 0#8
  apart := by decide +kernel
  written := by decide +kernel

def readBinary : CStr := ⟨[letterR, letterB],by decide⟩

/-- The first call with `rb` finds the entry overwritten behind `r` and stops at
`rb+`. -/
theorem readBinary_opens_for_writing :
    (fileOpen packed ⟨some (some ⟨0#32,0#32⟩),readBinary,fun _ => 0#8⟩ packed.data).1 =
      some (opened (read ||| write) ⟨0#32,0#32⟩) ∧
    tableBits readBinary = some read ∧ ¬ OpensByTable packed readBinary := by
  refine ⟨by decide +kernel,by decide +kernel,fun h => ?_⟩
  have hrun := h [] ⟨0#32,0#32⟩ fun _ => 0#8
  revert hrun
  decide +kernel

end MikeOS.FileModes
