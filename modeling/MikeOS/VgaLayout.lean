import MikeOS.Vga

/-!
# A text as it should appear

The layout of a text on rows of 80 columns, where a character that finds its
row full goes to the next one. The limit of the driver comes a column later:
the character behind a full row is written at its right place, in the row
below, and the one after it over it.
-/

set_option autoImplicit false

namespace MikeOS.VgaLayout
open MikeOS.Vga
open FileModes (CStr)

/-! ## The layout -/

/-- Where the next character goes, unless column 80 is reached. -/
structure Cursor where
  row : ℕ
  col : ℕ
  deriving DecidableEq, Repr

def Cursor.cell (c : Cursor) : ℕ × ℕ := if c.col < 80 then (c.row, c.col) else (c.row+1, 0)

def advance (c : Cursor) (ch : Byte) : Cursor :=
  if ch = newline then ⟨c.row+1, 0⟩ else ⟨c.cell.1, c.cell.2+1⟩

def Cursor.rows (c : Cursor) : ℕ := if c.col = 0 then c.row else c.row+1

def rowsNeeded (text : List Byte) : ℕ := (text.foldl advance ⟨0, 0⟩).rows

def laidOut : List Byte → Cursor → (ℕ × ℕ → Byte) → ℕ × ℕ → Byte
  | [], _, screen => screen
  | ch::text, c, screen =>
    laidOut text (advance c ch) (if ch = newline then screen else Function.update screen c.cell ch)

def blank : ℕ × ℕ → Byte := fun _ => space

/-! ## What is on the screen -/

def cellAddress (cell : ℕ × ℕ) : Word := BitVec.ofNat 32 (2*cell.2+160*cell.1)

def lastWritten (s : State) (offset : Word) : Option Byte :=
  (s.written.find? fun w => decide (w.1 = offset)).map Prod.snd

def writtenAt : List Byte → State → List Word
  | [], _ => []
  | ch::text, s =>
    match vgaPutc ch s with
    | none => []
    | some t => if ch = newline then writtenAt text t else getAddressByLocation s.x s.y :: writtenAt text t

def Plain (text : List Byte) : Prop := ∀ ch ∈ text, ch = newline ∨ ch ∉ specialCharacters

def Shows (s : State) (screen : ℕ × ℕ → Byte) : Prop :=
  ∀ r c, r < 25 → c < 80 → lastWritten s (cellAddress (r, c)) = some (screen (r, c))

structure Displayed (text : List Byte) (s : State) : Prop where
  cells : ∃ t, vgaPrint text (vgaFlush s) = some t ∧ Shows t (laidOut text ⟨0, 0⟩ blank)
  apart : (writtenAt text (vgaFlush s)).Nodup

def LinesUpTo (n : ℕ) (text : List Byte) : Prop := ∀ line, line <:+: text → newline ∉ line → line.length ≤ n

/-! ## Lines -/

/-- The same, counted along the text with `k` characters of the line done. -/
def Short : ℕ → List Byte → Prop
  | _, [] => True
  | k, ch::text => if ch = newline then Short 0 text else k < 81 ∧ Short (k+1) text

theorem short_prefix {k : ℕ} {line text : List Byte} (h : Short k text) (hp : line <+: text)
    (hline : newline ∉ line) : line = [] ∨ k+line.length ≤ 81 := by
  induction line generalizing k text with
  | nil => exact Or.inl rfl
  | cons x line ih =>
    obtain ⟨rest,rfl⟩ := hp
    rw [List.mem_cons, not_or] at hline
    obtain ⟨hx,hrest⟩ := hline
    rw [List.cons_append, Short, if_neg (Ne.symm hx)] at h
    right
    rw [List.length_cons]
    rcases ih h.2 (List.prefix_append line rest) hrest with rfl | hle
    · simpa using h.1
    · omega

theorem lines_of_short {k : ℕ} {text : List Byte} (h : Short k text) : LinesUpTo 81 text := by
  induction text generalizing k with
  | nil =>
    rintro line hin -
    rw [List.infix_nil.mp hin]
    exact Nat.zero_le _
  | cons ch text ih =>
    intro line hin hline
    rcases List.infix_cons_iff.mp hin with hp | hin
    · rcases short_prefix h hp hline with rfl | hle
      · exact Nat.zero_le _
      · omega
    · rw [Short] at h
      split at h
      · exact ih h line hin hline
      · exact ih h.2 line hin hline

theorem short_of_lines {k : ℕ} {text : List Byte} (h : LinesUpTo 81 text)
    (hp : ∀ line, line <+: text → newline ∉ line → line = [] ∨ k+line.length ≤ 81) : Short k text := by
  induction text generalizing k with
  | nil => trivial
  | cons ch text ih =>
    have hrest : LinesUpTo 81 text := fun line hin => h line (List.infix_cons hin)
    rw [Short]
    split
    · refine ih hrest fun line hp' hline => Or.inr ?_
      rw [Nat.zero_add]
      exact hrest line hp'.isInfix hline
    · rename_i hch
      have hone : newline ∉ [ch] := by simpa using Ne.symm hch
      have hlt := (hp [ch] (by simp) hone).resolve_left (by simp)
      refine ⟨by simpa using hlt,ih hrest fun line hp' hline => Or.inr ?_⟩
      have hlong := (hp (ch::line) (List.cons_prefix_cons.mpr ⟨rfl,hp'⟩)
        (by rw [List.mem_cons, not_or]; exact ⟨Ne.symm hch,hline⟩)).resolve_left (by simp)
      rw [List.length_cons] at hlong
      omega

theorem short_iff (text : List Byte) : Short 0 text ↔ LinesUpTo 81 text := by
  refine ⟨lines_of_short,fun h => short_of_lines h fun line hp hline => Or.inr ?_⟩
  rw [Nat.zero_add]
  exact h line hp.isInfix hline

/-! ## One character -/

def Cursor.index (c : Cursor) : ℕ := 80*c.row+c.col

theorem cell_index {c : Cursor} (hc : c.col ≤ 80) : 80*c.cell.1+c.cell.2 = c.index ∧ c.cell.2 < 80 := by
  rw [Cursor.index]
  by_cases hlt : c.col < 80
  · rw [Cursor.cell, if_pos hlt]
    exact ⟨rfl,hlt⟩
  · rw [Cursor.cell, if_neg hlt]
    simp only
    omega

theorem rows_mono (c : Cursor) (text : List Byte) : c.rows ≤ (text.foldl advance c).rows := by
  induction text generalizing c with
  | nil => exact le_refl _
  | cons ch text ih =>
    refine le_trans ?_ (ih (advance c ch))
    simp only [advance, Cursor.rows, Cursor.cell]
    split_ifs <;> simp_all

/-- The driver stands where the layout does, `k` characters into a line; or
behind the 81st character of a line, where it stands a column too far left. -/
inductive At (c : Cursor) (s : State) : ℕ → Prop where
  | same (hx : s.x.toNat = c.col) (hy : s.y.toNat = c.row) (hcol : c.col ≤ 80) : At c s c.col
  | behind (hx : s.x.toNat = 0) (hy : s.y.toNat = c.row) (hcol : c.col = 1) : At c s 81

theorem at_col {c : Cursor} {s : State} {k : ℕ} (h : At c s k) : c.col ≤ 80 ∧ s.y.toNat = c.row ∧ k ≤ 81 := by
  cases h with
  | same hx hy hcol => exact ⟨hcol,hy,by omega⟩
  | behind hx hy hcol => exact ⟨by omega,hy,le_refl _⟩

theorem newline_step {c : Cursor} {s : State} {k : ℕ} (h : At c s k) (hrows : (advance c newline).rows ≤ 25) :
    vgaPutc newline s = some (newlineHandler s) ∧ (newlineHandler s).written = s.written ∧
      At (advance c newline) (newlineHandler s) 0 := by
  obtain ⟨-,hy,-⟩ := at_col h
  have hrow : c.row+1 ≤ 25 := hrows
  have hnext : (s.y+1#32).toNat = c.row+1 := by bv_omega
  have hlimit : ¬ yReachedLimit { s with y := s.y+1#32, x := 0#32 } = true := by
    rw [yReachedLimit_iff]
    simp only
    omega
  have heq : newlineHandler s = { s with y := s.y+1#32, x := 0#32 } := if_neg hlimit
  refine ⟨rfl,by rw [heq],?_⟩
  rw [heq]
  exact .same (c := ⟨c.row+1,0⟩) rfl hnext (Nat.zero_le 80)

theorem toNat_location {s : State} {x y : ℕ} (hx : s.x.toNat = x) (hy : s.y.toNat = y) (hxle : x ≤ 80)
    (hyle : y ≤ 25) : (getAddressByLocation s.x s.y).toNat = 2*x+160*y := by
  simp only [getAddressByLocation, screenCols]
  bv_omega

theorem toNat_cellAddress (cell : ℕ × ℕ) (hrow : cell.1 ≤ 25) (hcol : cell.2 < 80) :
    (cellAddress cell).toNat = 2*cell.2+160*cell.1 := by
  rw [cellAddress, BitVec.toNat_ofNat]
  omega

/-- A character put behind the last column ends the row. -/
theorem defaultHandler_full (c : Byte) {s : State} (hx : s.x.toNat = 80) (hy : s.y.toNat < 25) :
    defaultHandler c s = { s with
      x := 0#32
      y := s.y+1#32
      written := (getAddressByLocation s.x s.y+1#32, s.color)::(getAddressByLocation s.x s.y, c)::s.written } := by
  obtain ⟨t,ht⟩ : ∃ t, t = { s with
      x := s.x+1#32
      written := (getAddressByLocation s.x s.y+1#32, s.color)::(getAddressByLocation s.x s.y, c)::s.written } := ⟨_,rfl⟩
  have hfull : defaultHandler c s = if xReachedLimit t then newlineHandler t else t := by
    rw [ht]
    rfl
  have hlimit : xReachedLimit t = true := by
    rw [xReachedLimit_iff, ht]
    simp only
    bv_omega
  rw [hfull, if_pos hlimit, newlineHandler_eq (by rw [ht]; exact hy), ht]

/-- A character that finds the line shorter than 81 is written at its cell. -/
theorem char_step {c : Cursor} {s : State} {k : ℕ} {ch : Byte} (h : At c s k) (hk : k < 81) (hch : ch ≠ newline)
    (hplain : ch ∉ specialCharacters) (hrows : (advance c ch).rows ≤ 25) :
    getAddressByLocation s.x s.y = cellAddress c.cell ∧ c.cell.1 < 25 ∧ vgaPutc ch s = some (defaultHandler ch s) ∧
      (defaultHandler ch s).written = (cellAddress c.cell+1#32, s.color)::(cellAddress c.cell, ch)::s.written ∧
      At (advance c ch) (defaultHandler ch s) (k+1) := by
  cases h with
  | behind hx hy hcol => omega
  | same hx hy hcol =>
    obtain ⟨hindex,hcell⟩ := cell_index hcol
    have hadv : advance c ch = ⟨c.cell.1, c.cell.2+1⟩ := if_neg hch
    have hrow : c.cell.1 < 25 := by
      rw [hadv, Cursor.rows, if_neg (by simp)] at hrows
      exact hrows
    have hle : c.row ≤ 25 := by
      rw [Cursor.index] at hindex
      omega
    have haddr : getAddressByLocation s.x s.y = cellAddress c.cell := by
      apply BitVec.eq_of_toNat_eq
      rw [toNat_location hx hy hcol hle, toNat_cellAddress _ (by omega) hcell]
      rw [Cursor.index] at hindex
      omega
    have hnext : (s.x+1#32).toNat = c.col+1 := by bv_omega
    refine ⟨haddr,hrow,vgaPutc_other hplain s,?_⟩
    by_cases hfull : c.col = 80
    · have hcell' : c.cell = (c.row+1,0) := if_neg (by omega)
      have hlt : s.y.toNat < 25 := by
        rw [hcell'] at hrow
        simp only at hrow
        omega
      rw [defaultHandler_full ch (hx.trans hfull) hlt, haddr]
      refine ⟨rfl,?_⟩
      rw [hadv, hcell', hfull]
      exact .behind (c := ⟨c.row+1,1⟩) rfl (by simp only; bv_omega) rfl
    · have heq := defaultHandler_eq ch (s := s) (by omega)
      rw [heq, haddr]
      have hcell' : c.cell = (c.row,c.col) := if_pos (by omega)
      refine ⟨rfl,?_⟩
      rw [hadv, hcell']
      exact .same (c := ⟨c.row,c.col+1⟩) hnext hy (by simp only; omega)

/-! ## The whole text -/

theorem cellAddress_inj {r r' c c' : ℕ} (hr : r < 25) (hc : c < 80) (hr' : r' < 25) (hc' : c' < 80)
    (h : cellAddress (r, c) = cellAddress (r', c')) : (r, c) = (r', c') := by
  have hn := congrArg BitVec.toNat h
  rw [toNat_cellAddress (r, c) (by simp only; omega) hc,
    toNat_cellAddress (r', c') (by simp only; omega) hc'] at hn
  simp only at hn
  rw [Prod.mk.injEq]
  omega

theorem attribute_ne {cell cell' : ℕ × ℕ} (hr : cell.1 < 25) (hc : cell.2 < 80) (hr' : cell'.1 < 25)
    (hc' : cell'.2 < 80) : cellAddress cell+1#32 ≠ cellAddress cell' := by
  intro h
  have hn := congrArg BitVec.toNat h
  rw [BitVec.toNat_add, toNat_cellAddress _ (by omega) hc, toNat_cellAddress _ (by omega) hc',
    show (1#32).toNat = 1 from rfl] at hn
  omega

theorem shows_write {s t : State} {screen : ℕ × ℕ → Byte} {cell : ℕ × ℕ} {ch color : Byte} (h : Shows s screen)
    (hr : cell.1 < 25) (hc : cell.2 < 80)
    (hw : t.written = (cellAddress cell+1#32, color)::(cellAddress cell, ch)::s.written) :
    Shows t (Function.update screen cell ch) := by
  intro r c hr' hc'
  have hodd : ¬ cellAddress cell+1#32 = cellAddress (r, c) := attribute_ne hr hc hr' hc'
  rw [lastWritten, hw, List.find?_cons_of_neg (by simpa using hodd)]
  by_cases hcell : (r, c) = cell
  · subst hcell
    rw [List.find?_cons_of_pos (by simp), Function.update_self]
    rfl
  · have hne : ¬ cellAddress cell = cellAddress (r, c) := fun he => hcell (cellAddress_inj hr hc hr' hc' he).symm
    rw [List.find?_cons_of_neg (by simpa using hne), Function.update_of_ne hcell]
    exact h r c hr' hc'

theorem plain_cons {ch : Byte} {text : List Byte} (h : Plain (ch::text)) (hch : ch ≠ newline) :
    ch ∉ specialCharacters := (h ch List.mem_cons_self).resolve_left hch

/-- A text with short lines appears as it is laid out. -/
theorem print_shows {text : List Byte} {c : Cursor} {s : State} {k : ℕ} {screen : ℕ × ℕ → Byte}
    (hplain : Plain text) (hat : At c s k) (hshort : Short k text) (hrows : (text.foldl advance c).rows ≤ 25)
    (hs : Shows s screen) : ∃ t, vgaPrint text s = some t ∧ Shows t (laidOut text c screen) := by
  induction text generalizing c s k screen with
  | nil => exact ⟨s,rfl,hs⟩
  | cons ch text ih =>
    have hrest : Plain text := fun x hx => hplain x (List.mem_cons_of_mem _ hx)
    have hnow : (advance c ch).rows ≤ 25 := (rows_mono (advance c ch) text).trans hrows
    by_cases hch : ch = newline
    · subst hch
      rw [Short, if_pos rfl] at hshort
      obtain ⟨hput,hwritten,hat'⟩ := newline_step hat hnow
      rw [vgaPrint, hput, laidOut, if_pos rfl]
      refine ih hrest hat' hshort hrows fun r q hr hq => ?_
      rw [lastWritten, hwritten]
      exact hs r q hr hq
    · rw [Short, if_neg hch] at hshort
      obtain ⟨-,hrow,hput,hwritten,hat'⟩ := char_step hat hshort.1 hch (plain_cons hplain hch) hnow
      rw [vgaPrint, hput, laidOut, if_neg hch]
      exact ih hrest hat' hshort.2 hrows (shows_write hs hrow (cell_index (at_col hat).1).2 hwritten)

theorem writtenAt_newline {text : List Byte} {s t : State} (h : vgaPutc newline s = some t) :
    writtenAt (newline::text) s = writtenAt text t := by
  rw [writtenAt, h]
  exact if_pos rfl

theorem writtenAt_char {ch : Byte} {text : List Byte} {s t : State} (hch : ch ≠ newline) (h : vgaPutc ch s = some t) :
    writtenAt (ch::text) s = getAddressByLocation s.x s.y :: writtenAt text t := by
  rw [writtenAt, h]
  exact if_neg hch

theorem written_apart {text : List Byte} {c : Cursor} {s : State} {k : ℕ} (hplain : Plain text) (hat : At c s k)
    (hshort : Short k text) (hrows : (text.foldl advance c).rows ≤ 25) :
    (∀ a ∈ writtenAt text s, 2*c.index ≤ a.toNat) ∧ (writtenAt text s).Nodup := by
  induction text generalizing c s k with
  | nil => exact ⟨fun a ha => (List.not_mem_nil ha).elim,List.nodup_nil⟩
  | cons ch text ih =>
    have hrest : Plain text := fun x hx => hplain x (List.mem_cons_of_mem _ hx)
    have hnow : (advance c ch).rows ≤ 25 := (rows_mono (advance c ch) text).trans hrows
    have hcol := (at_col hat).1
    by_cases hch : ch = newline
    · subst hch
      rw [Short, if_pos rfl] at hshort
      obtain ⟨hput,-,hat'⟩ := newline_step hat hnow
      obtain ⟨hle,hnodup⟩ := ih hrest hat' hshort hrows
      rw [writtenAt_newline hput]
      refine ⟨fun a ha => le_trans ?_ (hle a ha),hnodup⟩
      simp only [Cursor.index, advance, if_pos]
      omega
    · rw [Short, if_neg hch] at hshort
      obtain ⟨haddr,hrow,hput,-,hat'⟩ := char_step hat hshort.1 hch (plain_cons hplain hch) hnow
      obtain ⟨hle,hnodup⟩ := ih hrest hat' hshort.2 hrows
      obtain ⟨hindex,hcell⟩ := cell_index hcol
      have hself : (cellAddress c.cell).toNat = 2*c.index := by
        rw [toNat_cellAddress _ (by omega) hcell]
        omega
      have hnext : (advance c ch).index = c.index+1 := by
        rw [advance, if_neg hch, Cursor.index]
        simp only
        omega
      rw [hnext] at hle
      rw [writtenAt_char hch hput, haddr]
      refine ⟨List.forall_mem_cons.mpr ⟨hself.ge,fun a ha => le_trans (by omega) (hle a ha)⟩,
        List.nodup_cons.mpr ⟨fun hmem => ?_,hnodup⟩⟩
      have := hle _ hmem
      omega

/-- The character before the next one of the layout has the offset of its cell. -/
theorem cell_before {c : Cursor} {ch : Byte} (hcol : c.col ≤ 80) (hrow : c.cell.1 < 25) (hch : ch ≠ newline)
    {a : Word} (h : a.toNat+2 = 2*(advance c ch).index) : a = cellAddress c.cell := by
  obtain ⟨hindex,hcell⟩ := cell_index hcol
  apply BitVec.eq_of_toNat_eq
  rw [toNat_cellAddress _ (by omega) hcell]
  rw [advance, if_neg hch, Cursor.index] at h
  simp only at h
  omega

/-- A character behind 81 others of its line is written over the last of them. -/
theorem characters_clash {text : List Byte} {c : Cursor} {s : State} {k : ℕ} (hplain : Plain text) (hat : At c s k)
    (hlong : ¬ Short k text) (hrows : (text.foldl advance c).rows ≤ 25) :
    ¬ (writtenAt text s).Nodup ∨ k = 81 ∧ ∃ a ∈ writtenAt text s, a.toNat+2 = 2*c.index := by
  induction text generalizing c s k with
  | nil => exact absurd trivial hlong
  | cons ch text ih =>
    have hrest : Plain text := fun x hx => hplain x (List.mem_cons_of_mem _ hx)
    have hnow : (advance c ch).rows ≤ 25 := (rows_mono (advance c ch) text).trans hrows
    by_cases hch : ch = newline
    · subst hch
      rw [Short, if_pos rfl] at hlong
      obtain ⟨hput,-,hat'⟩ := newline_step hat hnow
      rw [writtenAt_newline hput]
      exact Or.inl ((ih hrest hat' hlong hrows).resolve_right fun h => absurd h.1 (by decide))
    · rw [Short, if_neg hch] at hlong
      by_cases hk : k < 81
      · have hcol := (at_col hat).1
        obtain ⟨haddr,hrow,hput,-,hat'⟩ := char_step hat hk hch (plain_cons hplain hch) hnow
        rw [writtenAt_char hch hput, haddr, List.nodup_cons]
        left
        rintro ⟨hnot,hnodup⟩
        rcases ih hrest hat' (fun hshort => hlong ⟨hk,hshort⟩) hrows with hdup | ⟨-,a,ha,hlast⟩
        · exact hdup hnodup
        · exact hnot (cell_before hcol hrow hch hlast ▸ ha)
      · cases hat with
        | same hx hy hcol => omega
        | behind hx hy hcol =>
          rw [writtenAt_char hch (vgaPutc_other (plain_cons hplain hch) s)]
          have hrow : c.row ≤ 25 := by
            have hbelow := (rows_mono c (ch::text)).trans hrows
            rw [Cursor.rows, if_neg (by omega)] at hbelow
            omega
          refine Or.inr ⟨rfl,_,List.mem_cons_self,?_⟩
          rw [toNat_location hx hy (by omega) hrow, Cursor.index, hcol]
          omega

/-! ## After vga_flush -/

theorem flush_round {s : State} {j r c : ℕ} (hj : j < 2000) (hr : r < 25) (hc : c < 80) :
    lastWritten ((s.write (BitVec.ofNat 32 (2*j)) space).write (BitVec.ofNat 32 (2*j)+1#32) colorBlack)
      (cellAddress (r, c)) = if j = 80*r+c then some space else lastWritten s (cellAddress (r, c)) := by
  have haddr := toNat_cellAddress (r, c) (by simp only; omega) hc
  simp only at haddr
  have hodd : ¬ BitVec.ofNat 32 (2*j)+1#32 = cellAddress (r, c) := fun he => by
    have hn := congrArg BitVec.toNat he
    rw [haddr, BitVec.toNat_add, BitVec.toNat_ofNat, show (1#32).toNat = 1 from rfl] at hn
    omega
  have heven : BitVec.ofNat 32 (2*j) = cellAddress (r, c) ↔ j = 80*r+c := by
    rw [← BitVec.toNat_inj, haddr, BitVec.toNat_ofNat]
    omega
  rw [lastWritten, State.write, State.write, List.find?_cons_of_neg (by simpa using hodd)]
  split
  · rename_i hcell
    rw [List.find?_cons_of_pos (by simpa using heven.mpr hcell)]
    rfl
  · rename_i hcell
    rw [List.find?_cons_of_neg (by simpa using mt heven.mp hcell)]
    rfl

theorem flushRounds_blank {s : State} {r c : ℕ} (hr : r < 25) (hc : c < 80) (rounds : List ℕ)
    (hrounds : ∀ j ∈ rounds, j < 2000)
    (h : 80*r+c ∈ rounds ∨ lastWritten s (cellAddress (r, c)) = some space) :
    lastWritten (flushRounds rounds s) (cellAddress (r, c)) = some space := by
  induction rounds generalizing s with
  | nil => exact h.resolve_left List.not_mem_nil
  | cons j rounds ih =>
    obtain ⟨hj,hrest⟩ := List.forall_mem_cons.mp hrounds
    refine ih hrest ?_
    rw [flush_round hj hr hc]
    by_cases hcell : j = 80*r+c
    · exact Or.inr (if_pos hcell)
    · rw [if_neg hcell]
      exact h.imp_left fun hmem => (List.mem_cons.mp hmem).resolve_left (Ne.symm hcell)

theorem vgaFlush_written (s : State) : (vgaFlush s).written = (flushRounds (List.range 2000) s).written := by
  unfold vgaFlush
  generalize flushRounds (List.range 2000) s = t
  rfl

theorem flush_shows (s : State) : Shows (vgaFlush s) blank := by
  intro r c hr hc
  rw [lastWritten, vgaFlush_written]
  exact flushRounds_blank hr hc (List.range 2000) (fun j hj => List.mem_range.mp hj)
    (Or.inl (List.mem_range.mpr (by omega)))

theorem flush_at (s : State) : At ⟨0, 0⟩ (vgaFlush s) 0 := .same (c := ⟨0,0⟩) rfl rfl (Nat.zero_le 80)

section
variable {text : List Byte}

theorem displayed_of_lines (s : State) (hplain : Plain text) (hrows : rowsNeeded text ≤ 25)
    (hlines : LinesUpTo 81 text) : Displayed text s := by
  have hshort := (short_iff text).mpr hlines
  exact ⟨print_shows hplain (flush_at s) hshort hrows (flush_shows s),
    (written_apart hplain (flush_at s) hshort hrows).2⟩

theorem lines_of_displayed {s : State} (hplain : Plain text) (hrows : rowsNeeded text ≤ 25)
    (h : Displayed text s) : LinesUpTo 81 text := by
  by_contra hlong
  rcases characters_clash hplain (flush_at s) (mt (short_iff text).mp hlong) hrows with hdup | ⟨h0,-⟩
  · exact hdup h.apart
  · exact absurd h0 (by decide)

end

/-- A text of at most 25 rows appears as it is laid out when none of its lines
has more than 81 characters. -/
theorem displayed_iff (text : CStr) (s : State) (hplain : Plain text.1) (hrows : rowsNeeded text.1 ≤ 25) :
    Displayed text.1 s ↔ LinesUpTo 81 text.1 :=
  ⟨lines_of_displayed hplain hrows,displayed_of_lines s hplain hrows⟩

def letters (n : ℕ) : List Byte := List.replicate n 0x61#8

theorem letters_plain (n : ℕ) : Plain (letters n) := fun ch hch => by
  rw [List.eq_of_mem_replicate hch]
  exact Or.inr (by decide)

def lettersStr (n : ℕ) : CStr := ⟨letters n, fun hmem => absurd (List.eq_of_mem_replicate hmem) (by decide)⟩

theorem full_line_displayed : Displayed (letters 81) (start 0#32 0#32 7#8) :=
  (displayed_iff (lettersStr 81) _ (letters_plain 81) (by decide +kernel)).mpr fun line hin _ => by
    simpa [lettersStr, letters] using hin.length_le

/-- The last of 82 letters takes the place of the one before. -/
theorem long_line_not_displayed : rowsNeeded (letters 82) = 2 ∧ ¬ Displayed (letters 82) (start 0#32 0#32 7#8) := by
  have hrows : rowsNeeded (letters 82) = 2 := by decide +kernel
  refine ⟨hrows,fun h => ?_⟩
  have hlines := lines_of_displayed (letters_plain 82) (by rw [hrows]; decide) h
  have hlong := hlines (letters 82) (List.infix_refl _) fun hmem =>
    absurd (List.eq_of_mem_replicate hmem) (by decide)
  simp [letters] at hlong

end MikeOS.VgaLayout
