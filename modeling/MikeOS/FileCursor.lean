import MikeOS.File
import MikeOS.Library.Transition

/-!
# Sequences of seeks and reads on one file

Two results about whole call sequences after `file_open`. The first is about
every seek type and says exactly when the file offset and the bytes copied stay
inside the file. The second compares the calls with a reference cursor over
the bytes of the file.
-/

set_option autoImplicit false

namespace MikeOS.FileCursor
open MikeOS.Initrd MikeOS.File

inductive Op where
  | seek (jmp : Word) (whence : SeekType)
  | read (buffer length : Word)
  deriving DecidableEq, Repr

structure Session where
  file : FileT
  copied : List Word
  deriving DecidableEq

def step (s : Session) : Op → Option Session
  | .seek jmp whence => some { s with file := (fileSeek s.file jmp whence).2 }
  | .read buffer length =>
    let r := fileRead s.file buffer length
    some ⟨r.file, s.copied ++ r.sources⟩

structure Inside (s : Session) : Prop where
  offset_le : s.file.offset ≤ s.file.inode.size
  sources : ∀ a ∈ s.copied, ∃ i < s.file.inode.size.toNat, a = s.file.inode.byteAddress i

/-- `SEEK_END` moves the offset by `-jmp` from where it is, not from the end of
the file, and checks nothing. Every other call keeps the offset in range. -/
def StaysInside (s : Session) : Op → Prop
  | .seek jmp .seekEnd => jmp.toInt ≤ 0 → s.file.offset-jmp ≤ s.file.inode.size
  | _ => True

theorem seek_offset_le (file : FileT) (jmp : Word) (whence : SeekType)
    (h : file.offset ≤ file.inode.size)
    (hend : whence = .seekEnd → jmp.toInt ≤ 0 → file.offset-jmp ≤ file.inode.size) :
    (fileSeek file jmp whence).2.offset ≤ (fileSeek file jmp whence).2.inode.size := by
  cases whence with
  | seekSet =>
    rw [fileSeek]
    split
    · exact h
    · rename_i hn
      simp only [not_or] at hn
      bv_omega
  | seekCur =>
    rw [fileSeek]
    split
    · exact h
    · rename_i hn
      simp only [not_or] at hn
      bv_omega
  | seekEnd =>
    rw [fileSeek]
    split
    · exact hend rfl ‹_›
    · exact h

theorem read_inside (s : Session) (buffer length : Word) (h : Inside s) :
    Inside ⟨(fileRead s.file buffer length).file,
      s.copied ++ (fileRead s.file buffer length).sources⟩ := by
  by_cases hb : buffer = null
  · subst hb
    rw [fileRead_null]
    exact ⟨h.offset_le,by simpa using h.sources⟩
  · have hle := h.offset_le
    have hav : s.file.offset.toNat+available s.file length ≤ s.file.inode.size.toNat := by
      rw [available]
      bv_omega
    rw [fileRead_eq _ _ _ hb h.offset_le]
    constructor
    · have hs := s.file.inode.size.isLt
      change s.file.offset+BitVec.ofNat 32 (available s.file length) ≤ s.file.inode.size
      bv_omega
    · intro a ha
      rcases List.mem_append.mp ha with hc | hr
      · exact h.sources a hc
      · obtain ⟨i,hi,rfl⟩ := List.mem_map.mp hr
        have := List.mem_range.mp hi
        exact ⟨s.file.offset.toNat+i,by change _ < s.file.inode.size.toNat; omega,rfl⟩

theorem step_inside (s s' : Session) (op : Op) (h : Inside s) (hg : StaysInside s op)
    (hs : step s op = some s') : Inside s' := by
  cases op with
  | seek jmp whence =>
    simp only [step, Option.some.injEq] at hs
    subst hs
    refine ⟨seek_offset_le s.file jmp whence h.offset_le (fun he => by subst he; exact hg),?_⟩
    simpa only [fileSeek_inode] using h.sources
  | read buffer length =>
    simp only [step, Option.some.injEq] at hs
    subst hs
    exact read_inside s buffer length h

theorem step_outside (s s' : Session) (op : Op) (hg : ¬ StaysInside s op)
    (hs : step s op = some s') : ¬ Inside s' := by
  cases op with
  | read => exact absurd trivial hg
  | seek jmp whence =>
    cases whence with
    | seekSet => exact absurd trivial hg
    | seekCur => exact absurd trivial hg
    | seekEnd =>
      simp only [StaysInside, Classical.not_imp] at hg
      simp only [step, fileSeek, if_pos hg.1, Option.some.injEq] at hs
      subst hs
      exact fun h => hg.2 h.offset_le

/-- A sequence of calls on a freshly opened file keeps the offset within the
file and copies only bytes of the file precisely when each of its `SEEK_END`
calls with a `jmp` of at most zero lands within the file. -/
theorem reads_inside_iff (mode : Word) (node : FsNode) (ops : List Op) :
    Transition.Always step Inside ops ⟨opened mode node, []⟩ ↔
      Transition.Guarded step StaysInside ops ⟨opened mode node, []⟩ := by
  apply Transition.always_iff_guarded Inside (fun s h => h) (fun s op s' h hg hs => step_inside s s' op h hg hs)
    (fun s op s' _ hg hs => step_outside s s' op hg hs)
  refine ⟨?_,by simp⟩
  change 0#32 ≤ node.size
  bv_omega

def smallFile : FsNode := ⟨32#32, 0xC0900000#32⟩

def overshoot : List Op :=
  [.seek 0x80000000#32 .seekEnd, .seek 0x80000010#32 .seekEnd, .read 0x1000#32 32#32]

/-- Two seeks bring the offset to `2 ^ 32 - 16`; the sum with the length wraps
to 16 and the read copies the sixteen bytes in front of the file. -/
theorem overshoot_reads_outside :
    (∃ s, Transition.run step overshoot ⟨opened 1#32 smallFile, []⟩ = some s ∧
      0xC08FFFF0#32 ∈ s.copied) ∧
    ¬ Transition.Always step Inside overshoot ⟨opened 1#32 smallFile, []⟩ := by
  have hrun : ∃ s, Transition.run step overshoot ⟨opened 1#32 smallFile, []⟩ = some s ∧
      s.file.inode = smallFile ∧ 0xC08FFFF0#32 ∈ s.copied := ⟨_,rfl,rfl,by decide⟩
  obtain ⟨s,hs,hn,hm⟩ := hrun
  refine ⟨⟨s,hs,hm⟩,fun h => ?_⟩
  obtain ⟨i,hi,ha⟩ := (Transition.always_run step h hs).sources _ hm
  rw [hn] at hi ha
  simp only [smallFile, FsNode.byteAddress, BitVec.toNat_ofNat] at hi ha
  bv_omega

/-! ## The reference cursor -/

structure Observation where
  returned : ℕ
  delivered : List Byte
  pos : ℕ
  deriving DecidableEq, Repr

def observe (ram : Ram) (file : FileT) : Op → Observation × FileT
  | .seek jmp whence =>
    let file := (fileSeek file jmp whence).2
    (⟨0, [], file.offset.toNat⟩, file)
  | .read buffer length =>
    let r := fileRead file buffer length
    (⟨r.bytesRead.toNat, r.sources.map ram, r.file.offset.toNat⟩, r.file)

def observations (ram : Ram) : List Op → FileT → List Observation
  | [], _ => []
  | op::ops, file => (observe ram file op).1 :: observations ram ops (observe ram file op).2

def after (ram : Ram) : List Op → FileT → FileT
  | [], file => file
  | op::ops, file => after ram ops (observe ram file op).2

def target (pos : ℕ) (jmp : Word) : SeekType → ℤ
  | .seekSet => jmp.toInt
  | .seekCur => pos+jmp.toInt
  | .seekEnd => pos

def reference (content : List Byte) (pos : ℕ) : Op → Observation
  | .seek jmp whence =>
    let t := target pos jmp whence
    ⟨0, [], if 0 ≤ t ∧ t < content.length then t.toNat else pos⟩
  | .read _ length =>
    let n := min length.toNat (content.length-pos)
    ⟨n, (content.drop pos).take n, pos+n⟩

def references (content : List Byte) : List Op → ℕ → List Observation
  | [], _ => []
  | op::ops, pos => reference content pos op :: references content ops (reference content pos op).pos

/-- The calls the reference speaks about: a read has a buffer, a seek is not
relative to the end. -/
def Referenced : Op → Prop
  | .seek _ whence => whence ≠ .seekEnd
  | .read buffer _ => buffer ≠ null

theorem observe_inode (ram : Ram) (file : FileT) (op : Op) :
    (observe ram file op).2.inode = file.inode := by
  cases op with
  | seek jmp whence => exact fileSeek_inode file jmp whence
  | read buffer length => exact fileRead_inode file buffer length

theorem seek_reference (file : FileT) (jmp : Word) (whence : SeekType) (hw : whence ≠ .seekEnd)
    (hsize : file.inode.size.toNat < 2^31) (hin : file.offset ≤ file.inode.size) :
    (fileSeek file jmp whence).2.offset.toNat =
      if 0 ≤ target file.offset.toNat jmp whence ∧
          target file.offset.toNat jmp whence < file.inode.size.toNat
        then (target file.offset.toNat jmp whence).toNat else file.offset.toNat := by
  have hj := BitVec.toInt_eq_toNat_cond jmp
  have hlt := jmp.isLt
  cases whence with
  | seekEnd => exact absurd rfl hw
  | seekSet =>
    by_cases ht : 0 ≤ target file.offset.toNat jmp .seekSet ∧
        target file.offset.toNat jmp .seekSet < file.inode.size.toNat
    · rw [if_pos ht]
      simp only [target] at ht ⊢
      rw [fileSeek, if_neg (by split_ifs at hj <;> bv_omega)]
      change jmp.toNat = _
      split_ifs at hj <;> omega
    · rw [if_neg ht]
      simp only [target] at ht
      rw [fileSeek, if_pos (by split_ifs at hj <;> bv_omega)]
  | seekCur =>
    by_cases ht : 0 ≤ target file.offset.toNat jmp .seekCur ∧
        target file.offset.toNat jmp .seekCur < file.inode.size.toNat
    · rw [if_pos ht]
      simp only [target] at ht ⊢
      rw [fileSeek, if_neg (by split_ifs at hj <;> bv_omega)]
      change (file.offset+jmp).toNat = _
      split_ifs at hj <;> bv_omega
    · rw [if_neg ht]
      simp only [target] at ht
      rw [fileSeek, if_pos (by split_ifs at hj <;> bv_omega)]

theorem observe_reference (ram : Ram) (file : FileT) (op : Op) (hop : Referenced op)
    (hsize : file.inode.size.toNat < 2^31) (hin : file.offset ≤ file.inode.size) :
    (observe ram file op).1 = reference (file.inode.content ram) file.offset.toNat op ∧
    (observe ram file op).2.offset.toNat =
      (reference (file.inode.content ram) file.offset.toNat op).pos ∧
    (observe ram file op).2.offset ≤ file.inode.size := by
  cases op with
  | seek jmp whence =>
    have hseek := seek_reference file jmp whence hop hsize hin
    have hle := seek_offset_le file jmp whence hin (fun he => absurd he hop)
    rw [fileSeek_inode] at hle
    simp only [observe, reference, content_length, hseek]
    exact ⟨trivial,trivial,hle⟩
  | read buffer length =>
    have hav : file.offset.toNat+available file length ≤ file.inode.size.toNat := by
      rw [available]
      bv_omega
    have hn : (BitVec.ofNat 32 (available file length)).toNat = available file length := by
      rw [BitVec.toNat_ofNat]
      omega
    have hsum : (file.offset+BitVec.ofNat 32 (available file length)).toNat =
        file.offset.toNat+available file length := by
      rw [BitVec.toNat_add, hn]
      omega
    simp only [observe, reference, content_length, fileRead_eq file buffer length hop hin, hn, hsum,
      content_slice ram file.inode _ _ hav]
    exact ⟨rfl,rfl,by bv_omega⟩

theorem observations_reference (ram : Ram) (ops : List Op) (file : FileT)
    (hops : ∀ op ∈ ops, Referenced op) (hsize : file.inode.size.toNat < 2^31)
    (hin : file.offset ≤ file.inode.size) :
    observations ram ops file = references (file.inode.content ram) ops file.offset.toNat ∧
    (after ram ops file).inode = file.inode ∧ (after ram ops file).offset ≤ file.inode.size := by
  induction ops generalizing file with
  | nil => exact ⟨rfl,rfl,hin⟩
  | cons op ops ih =>
    obtain ⟨hobs,hpos,hle⟩ := observe_reference ram file op (hops op (by simp)) hsize hin
    have hinode := observe_inode ram file op
    obtain ⟨hrest,hi,ho⟩ := ih (observe ram file op).2 (fun o h => hops o (by simp [h]))
      (by rw [hinode]; exact hsize) (by rw [hinode]; exact hle)
    rw [hinode, hpos] at hrest
    rw [hinode] at hi ho
    refine ⟨?_,hi,ho⟩
    rw [observations, references, hobs, hrest]

/-- Reading chunk after chunk is one read of the total. -/
theorem reference_chunks (content : List Byte) (buffer : Word) (chunks : List Word) (pos : ℕ) :
    (references content (chunks.map (Op.read buffer)) pos).flatMap Observation.delivered =
      (content.drop pos).take (chunks.map BitVec.toNat).sum := by
  induction chunks generalizing pos with
  | nil => simp [references]
  | cons c cs ih =>
    simp only [List.map_cons, references, List.flatMap_cons, ih, reference, List.sum_cons]
    rw [List.take_add, List.drop_drop]
    by_cases h : c.toNat ≤ content.length-pos
    · rw [min_eq_left h]
    · have hall : (content.drop pos).take (content.length-pos) = (content.drop pos).take c.toNat := by
        rw [List.take_of_length_le (by simp), List.take_of_length_le (by simp; omega)]
      have hend : content.drop (pos+(content.length-pos)) = [] := List.drop_eq_nil_of_le (by omega)
      have hend' : content.drop (pos+c.toNat) = [] := List.drop_eq_nil_of_le (by omega)
      rw [min_eq_right (by omega), hall, hend, hend']

/-- Every sequence of reads and of seeks from the start or the current position
is observed exactly as on the reference cursor, and from any state it reaches
a read delivers the same bytes however it is split into chunks. -/
theorem cursor_refinement (ram : Ram) (mode : Word) (node : FsNode) (hsize : node.size.toNat < 2^31)
    (ops : List Op) (hops : ∀ op ∈ ops, Referenced op) :
    observations ram ops (opened mode node) = references (node.content ram) ops 0 ∧
    ∀ (buffer : Word) (chunks : List Word), buffer ≠ null → (chunks.map BitVec.toNat).sum < 2^32 →
      (observations ram (chunks.map (Op.read buffer)) (after ram ops (opened mode node))).flatMap
          Observation.delivered =
        (observe ram (after ram ops (opened mode node))
          (.read buffer (BitVec.ofNat 32 (chunks.map BitVec.toNat).sum))).1.delivered := by
  have hzero : (opened mode node).offset ≤ (opened mode node).inode.size := by
    change 0#32 ≤ node.size
    bv_omega
  obtain ⟨hobs,hinode,hin⟩ := observations_reference ram ops (opened mode node) hops hsize hzero
  refine ⟨hobs,fun buffer chunks hb hsum => ?_⟩
  rw [← hinode] at hin
  have hsize' : (after ram ops (opened mode node)).inode.size.toNat < 2^31 := by
    rw [hinode]
    exact hsize
  have hreads : ∀ op ∈ chunks.map (Op.read buffer), Referenced op := by
    intro op hop
    obtain ⟨c,-,rfl⟩ := List.mem_map.mp hop
    exact hb
  rw [(observations_reference ram _ _ hreads hsize' hin).1, reference_chunks,
    (observe_reference ram _ (.read buffer _) hb hsize' hin).1]
  simp only [reference, BitVec.toNat_ofNat, Nat.mod_eq_of_lt hsum]
  rw [← List.length_drop, List.take_eq_take_iff]
  simp

theorem cursor_refinement_small_file :
    smallFile.size.toNat < 2^31 ∧
    (∀ op ∈ [Op.read 0x1000#32 20#32, .seek 5#32 .seekSet, .seek 0xFFFFFFF0#32 .seekCur,
      .read 0x1000#32 64#32], Referenced op) ∧
    observations (fun a => a.setWidth 8) [Op.read 0x1000#32 20#32, .seek 5#32 .seekSet,
        .seek 0xFFFFFFF0#32 .seekCur, .read 0x1000#32 64#32] (opened 1#32 smallFile) =
      references (smallFile.content (fun a => a.setWidth 8)) [Op.read 0x1000#32 20#32,
        .seek 5#32 .seekSet, .seek 0xFFFFFFF0#32 .seekCur, .read 0x1000#32 64#32] 0 := by
  have hsize : smallFile.size.toNat < 2^31 := by decide
  have hops : ∀ op ∈ [Op.read 0x1000#32 20#32, .seek 5#32 .seekSet, .seek 0xFFFFFFF0#32 .seekCur,
      .read 0x1000#32 64#32], Referenced op := by
    simp [Referenced, null]
  exact ⟨hsize,hops,(cursor_refinement (fun a => a.setWidth 8) 1#32 smallFile hsize _ hops).1⟩

end MikeOS.FileCursor
