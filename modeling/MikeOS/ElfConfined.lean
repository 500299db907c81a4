import MikeOS.Elf
import MikeOS.Mmaps

/-!
# Where the ELF loader writes

The writes of a segment are compared with the pages of the `mmap` call that
the loader makes for it. The condition under which all of them fall inside is
stated over the fields of the program headers and the size of the file. The
record of the calls is what the machine performs.
-/

set_option autoImplicit false

namespace MikeOS.ElfConfined
open MikeOS.Initrd MikeOS.File MikeOS.KernelHeap MikeOS.Mmu MikeOS.VirtualMemory MikeOS.Mmaps MikeOS.Elf

structure Covered (v n a : Word) : Prop where
  above : v.toNat ≤ a.toNat
  below : a.toNat < v.toNat+4096*mmapCount v n
  user : a < kernelVirtualOffset

/-- Every write stays in the pages of the last call of `mmap` before it. -/
def Confined : Word → Word → List Access → Prop
  | _, _, [] => True
  | _, _, .map v n :: log => Confined v n log
  | v, n, .write a bytes :: log =>
    (∀ k, k < bytes.length → Covered v n (a+BitVec.ofNat 32 k)) ∧ Confined v n log

def cursor (size : ℕ) (jmp : Word) (offset : ℕ) : ℕ :=
  if jmp.toNat < size ∧ jmp.toNat < 2^31 then jmp.toNat else offset

/-- Each segment that is reached and read from is mapped without a wrap of its
end address, and no more bytes are read than its pages hold. -/
def Fits (size : ℕ) : ℕ → List Phdr → Prop
  | _, [] => True
  | offset, s::rest =>
    if s.type = ptLoad then
      let start := cursor size s.offset offset
      let count := min s.filesz.toNat (size-start)
      mmapRejects s.vaddr (segmentPages s.memsz) = true ∨ s.vaddr = null ∨ count = 0 ∨
        s.vaddr.toNat+4096*(s.memsz.toNat/4096+1) < 2^32 ∧ count ≤ 4096*(s.memsz.toNat/4096+1) ∧
          Fits size (start+count) rest
    else Fits size offset rest

/-- The same for the program headers of a file. Those the file does not hold
are what was on the stack. -/
def HeadersFit (ram : Ram) (segments : StackBuffer) (elfHeader : Ehdr) (file : FileT) : Prop :=
  let size := file.inode.size.toNat
  let start := cursor size elfHeader.phoff file.offset.toNat
  let count := min (32*elfHeader.phnum.toNat) (size-start)
  count = 0 ∨ Fits size (start+count) (segmentsOf
    (segments.filled (((file.inode.content ram).drop start).take count)) (elfHeader.phnum.setWidth 32))

/-! ## Reading after a seek -/

theorem seek_cursor (file : FileT) (jmp : Word) :
    (fileSeek file jmp .seekSet).2.offset.toNat = cursor file.inode.size.toNat jmp file.offset.toNat := by
  have hneg : jmp.toInt < 0 ↔ 2^31 ≤ jmp.toNat := by
    rw [BitVec.toInt_neg_iff]
    omega
  have hge : jmp ≥ file.inode.size ↔ file.inode.size.toNat ≤ jmp.toNat := Iff.rfl
  rw [fileSeek, cursor]
  by_cases h : jmp.toNat < file.inode.size.toNat ∧ jmp.toNat < 2^31
  · rw [if_pos h, if_neg (by rw [hneg, hge]; omega)]
  · rw [if_neg h, if_pos (by rw [hneg, hge]; omega)]

theorem cursor_le (size : ℕ) {offset : ℕ} (jmp : Word) (h : offset ≤ size) : cursor size jmp offset ≤ size := by
  unfold cursor
  split <;> omega

theorem read_after_seek (ram : Ram) (file : FileT) (jmp buffer length : Word) (hb : buffer ≠ null)
    (hin : file.offset ≤ file.inode.size) :
    let start := cursor file.inode.size.toNat jmp file.offset.toNat
    let count := min length.toNat (file.inode.size.toNat-start)
    let r := fileRead (fileSeek file jmp .seekSet).2 buffer length
    r.bytesRead.toNat = count ∧ r.sources.map ram = ((file.inode.content ram).drop start).take count ∧
      r.file.inode = file.inode ∧ r.file.offset.toNat = start+count := by
  intro start count r
  have hcur := seek_cursor file jmp
  have hinode := fileSeek_inode file jmp .seekSet
  have hle : start ≤ file.inode.size.toNat := cursor_le _ jmp hin
  have hav : available (fileSeek file jmp .seekSet).2 length = count := by
    rw [available, hcur, hinode]
  have hr := fileRead_eq (fileSeek file jmp .seekSet).2 buffer length hb (by
    change (fileSeek file jmp .seekSet).2.offset.toNat ≤ (fileSeek file jmp .seekSet).2.inode.size.toNat
    rw [hcur, hinode]
    exact hle)
  have hsum : start+count ≤ file.inode.size.toNat := by omega
  have hsize := file.inode.size.isLt
  have hnat : (BitVec.ofNat 32 count).toNat = count := by
    rw [BitVec.toNat_ofNat, Nat.mod_eq_of_lt (by omega)]
  rw [hav, hcur, hinode] at hr
  change r = _ at hr
  rw [hr]
  refine ⟨hnat,content_slice ram file.inode start count hsum,rfl,?_⟩
  change ((fileSeek file jmp .seekSet).2.offset+BitVec.ofNat 32 count).toNat = _
  rw [BitVec.toNat_add, hcur, hnat, Nat.mod_eq_of_lt (by change start+count < _; omega)]

theorem read_null (file : FileT) (jmp length : Word) :
    (fileRead (fileSeek file jmp .seekSet).2 null length).bytesRead = 0#32 ∧
      (fileRead (fileSeek file jmp .seekSet).2 null length).sources = [] := by
  rw [fileRead_null]
  exact ⟨rfl,rfl⟩

/-! ## The calls of the loader -/

def segmentRead (s : Phdr) (file : FileT) : ReadResult :=
  fileRead (fileSeek file s.offset .seekSet).2 s.vaddr s.filesz

def zeroed (s : Phdr) : List Byte :=
  List.replicate (alignedMemSize s.memsz-s.filesz).toNat 0#8

inductive Outcome where
  | rejected
  | unread
  | loaded
  deriving DecidableEq

def outcomeOf (s : Phdr) (file : FileT) : Outcome :=
  if mmapRejects s.vaddr (segmentPages s.memsz) = true then .rejected
  else if (segmentRead s file).bytesRead = 0#32 then .unread
  else .loaded

def writes (ram : Ram) (s : Phdr) (file : FileT) : List Access :=
  match outcomeOf s file with
  | .rejected => []
  | .unread => [.write s.vaddr ((segmentRead s file).sources.map ram)]
  | .loaded => .write s.vaddr ((segmentRead s file).sources.map ram) ::
    if s.memsz > s.filesz then [.write (s.vaddr+s.filesz) (zeroed s)] else []

def accesses (ram : Ram) (s : Phdr) (file : FileT) : List Access :=
  .map s.vaddr (segmentPages s.memsz) :: writes ram s file

def after (s : Phdr) (file : FileT) (task : Task) : ErrorCode × FileT × Task :=
  match outcomeOf s file with
  | .rejected => (.failure, file, task)
  | .unread => (.failure, (segmentRead s file).file, task)
  | .loaded => (.success, (segmentRead s file).file, task.update s)

section
variable {σ : Type} {M : Memory σ}

def play (M : Memory σ) : List Access → σ → Except Stop σ
  | [], m => .ok m
  | .map v n :: log, m => do
    let (_, m) ← M.mmap v n m
    play M log m
  | .write a bytes :: log, m => do
    let m ← M.write a bytes m
    play M log m

theorem play_append (M : Memory σ) (log log' : List Access) (m : σ) :
    play M (log ++ log') m = (play M log m >>= play M log') := by
  induction log generalizing m with
  | nil => rfl
  | cons a log ih =>
    cases a with
    | map v n =>
      rw [List.cons_append, play, play]
      cases M.mmap v n m with
      | error e => rfl
      | ok r => exact ih r.2
    | write a bytes =>
      rw [List.cons_append, play, play]
      cases M.write a bytes m with
      | error e => rfl
      | ok m' => exact ih m'

/-- What `mmap` returns is decided by its arguments. -/
def Decides (M : Memory σ) : Prop :=
  ∀ v n m code m', M.mmap v n m = .ok (code, m') →
    code = if mmapRejects v n then .invalidArgument else .success

theorem writes_played (ram : Ram) (s : Phdr) (file : FileT) (task : Task) (m : σ)
    (hr : mmapRejects s.vaddr (segmentPages s.memsz) = false) :
    (do
      let memory ← M.write s.vaddr ((segmentRead s file).sources.map ram) m
      if (segmentRead s file).bytesRead = 0#32 then
        return (ErrorCode.failure, (⟨(segmentRead s file).file, task, memory⟩ : Loader σ))
      let memory ← if s.memsz > s.filesz then
          M.write (s.vaddr+s.filesz) (zeroed s) memory
        else .ok memory
      return (ErrorCode.success, (⟨(segmentRead s file).file, task.update s, memory⟩ : Loader σ))) =
      (play M (writes ram s file) m >>= fun m' =>
        .ok ((after s file task).1, ⟨(after s file task).2.1, (after s file task).2.2, m'⟩)) := by
  by_cases h0 : (segmentRead s file).bytesRead = 0#32
  · have ho : outcomeOf s file = .unread := by rw [outcomeOf, hr, if_neg (by simp), if_pos h0]
    simp only [writes, after, ho, if_pos h0, play]
    cases M.write s.vaddr ((segmentRead s file).sources.map ram) m <;> rfl
  · have ho : outcomeOf s file = .loaded := by rw [outcomeOf, hr, if_neg (by simp), if_neg h0]
    simp only [writes, after, ho, if_neg h0, play]
    cases M.write s.vaddr ((segmentRead s file).sources.map ram) m with
    | error e => rfl
    | ok m₁ =>
      by_cases hz : s.memsz > s.filesz
      · simp only [if_pos hz, ok_bind, play]
        cases M.write (s.vaddr+s.filesz) (zeroed s) m₁ <;> rfl
      · simp only [if_neg hz]
        rfl

theorem loadSegment_played (hM : Decides M) (ram : Ram) (s : Phdr) (file : FileT) (task : Task) (m : σ) :
    loadSegment M ram s ⟨file, task, m⟩ = (play M (accesses ram s file) m >>= fun m' =>
      .ok ((after s file task).1, ⟨(after s file task).2.1, (after s file task).2.2, m'⟩)) := by
  rw [loadSegment, accesses, play]
  cases hm : M.mmap s.vaddr (segmentPages s.memsz) m with
  | error e => rfl
  | ok r =>
    obtain ⟨code,m₁⟩ := r
    have hcode := hM _ _ _ _ _ hm
    cases hr : mmapRejects s.vaddr (segmentPages s.memsz) with
    | true =>
      have ho : outcomeOf s file = .rejected := by rw [outcomeOf, hr, if_pos rfl]
      rw [hr, if_pos rfl] at hcode
      simp only [hcode, writes, after, ho, ok_bind]
      rfl
    | false =>
      rw [hr, if_neg (by simp)] at hcode
      simp only [hcode, ok_bind, ne_eq, not_true_eq_false, if_false]
      exact writes_played ram s file task m₁ hr

def plan (ram : Ram) : List Phdr → FileT → Task → List Access × ErrorCode × FileT × Task
  | [], file, task => ([], .success, file, task)
  | s::rest, file, task =>
    if s.type = ptLoad then
      let r := after s file task
      if r.1 = .success then
        let p := plan ram rest r.2.1 r.2.2
        (accesses ram s file ++ p.1, p.2)
      else (accesses ram s file, r)
    else plan ram rest file task

theorem loadEach_played (hM : Decides M) (ram : Ram) (segs : List Phdr) (file : FileT) (task : Task) (m : σ) :
    loadEach M ram segs ⟨file, task, m⟩ = (play M (plan ram segs file task).1 m >>= fun m' =>
      .ok ((plan ram segs file task).2.1,
        ⟨(plan ram segs file task).2.2.1, (plan ram segs file task).2.2.2, m'⟩)) := by
  induction segs generalizing file task m with
  | nil => rfl
  | cons s rest ih =>
    rw [loadEach, plan]
    by_cases ht : s.type = ptLoad
    · rw [if_pos ht, if_pos ht, loadSegment_played hM]
      by_cases hc : (after s file task).1 = .success
      · simp only [if_pos hc, play_append]
        cases play M (accesses ram s file) m with
        | error e => rfl
        | ok m₁ =>
          simp only [ok_bind, hc, ne_eq, not_true_eq_false, if_false]
          exact ih _ _ _
      · simp only [if_neg hc]
        cases play M (accesses ram s file) m with
        | error e => rfl
        | ok m₁ =>
          simp only [ok_bind, ne_eq, hc, not_false_eq_true, if_true]
          rfl
    · rw [if_neg ht, if_neg ht]
      exact ih file task m

def filePlan (ram : Ram) (segments : StackBuffer) (elfHeader : Ehdr) (file : FileT) (task : Task) :
    List Access × ErrorCode × FileT × Task :=
  let number := elfHeader.phnum.setWidth 32
  let t := loadProgramHeaderTable ram elfHeader segments number file
  if t.1 = 0#32 then ([], .failure, t.2.2, task) else plan ram (segmentsOf t.2.1 number) t.2.2 task

theorem loadSegments_played (hM : Decides M) (ram : Ram) (segments : StackBuffer) (elfHeader : Ehdr)
    (file : FileT) (task : Task) (m : σ) :
    loadSegments M ram segments elfHeader ⟨file, task, m⟩ =
      (play M (filePlan ram segments elfHeader file task).1 m >>= fun m' =>
        .ok ((filePlan ram segments elfHeader file task).2.1,
          ⟨(filePlan ram segments elfHeader file task).2.2.1,
            (filePlan ram segments elfHeader file task).2.2.2, m'⟩)) := by
  unfold loadSegments filePlan
  by_cases h0 : (loadProgramHeaderTable ram elfHeader segments (elfHeader.phnum.setWidth 32) file).1 = 0#32
  · simp only [if_pos h0]
    rfl
  · simp only [if_neg h0]
    exact loadEach_played hM ram _ _ task m

theorem decides_recorder : Decides recorder := by
  intro v n log code log' h
  rw [recorder, Except.ok.injEq, Prod.mk.injEq] at h
  exact h.1.symm

theorem play_recorder (log log' : List Access) : play recorder log log' = .ok (log' ++ log) := by
  induction log generalizing log' with
  | nil => rw [play, List.append_nil]
  | cons a log ih =>
    cases a with
    | map v n =>
      change play recorder log (log' ++ [.map v n]) = _
      rw [ih, List.append_assoc, List.singleton_append]
    | write a bytes =>
      change play recorder log (log' ++ [.write a bytes]) = _
      rw [ih, List.append_assoc, List.singleton_append]

theorem decides_machine (L : Layout) : Decides (machineMemory L) := by
  intro v n m code m' h
  change VirtualMemory.mmap L v n m = _ at h
  rw [VirtualMemory.mmap] at h
  cases hr : mmapRejects v n with
  | true =>
    rw [hr, if_pos rfl] at h
    cases h
    rfl
  | false =>
    rw [hr, if_neg (by simp)] at h
    obtain ⟨m₁,-,hm⟩ := bind_eq_ok h
    cases hm
    rfl

theorem loadSegments_recorded (ram : Ram) (segments : StackBuffer) (elfHeader : Ehdr) (file : FileT)
    (task : Task) :
    loadSegments recorder ram segments elfHeader ⟨file, task, []⟩ =
      .ok ((filePlan ram segments elfHeader file task).2.1,
        ⟨(filePlan ram segments elfHeader file task).2.2.1,
          (filePlan ram segments elfHeader file task).2.2.2,
          (filePlan ram segments elfHeader file task).1⟩) := by
  rw [loadSegments_played decides_recorder, play_recorder, List.nil_append, ok_bind]

/-- The machine performs the calls of the record, in their order, and ends with
the same status unless one of them faults. -/
theorem machine_performs_record (L : Layout) (ram : Ram) (segments : StackBuffer) (elfHeader : Ehdr)
    (file : FileT) (task : Task) (m : Machine) :
    ∃ code x, loadSegments recorder ram segments elfHeader ⟨file, task, []⟩ = .ok (code, x) ∧
      loadSegments (machineMemory L) ram segments elfHeader ⟨file, task, m⟩ =
        (play (machineMemory L) x.memory m >>= fun m' => .ok (code, ⟨x.file, x.task, m'⟩)) :=
  ⟨_,_,loadSegments_recorded ram segments elfHeader file task,loadSegments_played (decides_machine L) _ _ _ _ _ _⟩

end

/-! ## Confinement -/

theorem toNat_segmentPages (memsz : Word) : (segmentPages memsz).toNat = memsz.toNat/4096+1 := by
  have := memsz.isLt
  rw [segmentPages, pageSize_eq, BitVec.toNat_add, BitVec.toNat_udiv, show (4096#32).toNat = 4096 from rfl,
    show (1#32).toNat = 1 from rfl, Nat.mod_eq_of_lt (by omega)]

theorem toNat_segmentEnd (s : Phdr) : (s.vaddr+segmentPages s.memsz*pageSize).toNat =
    (s.vaddr.toNat+4096*(s.memsz.toNat/4096+1))%2^32 := by
  rw [pageSize_eq, BitVec.toNat_add, BitVec.toNat_mul, toNat_segmentPages, show (4096#32).toNat = 4096 from rfl,
    Nat.add_mod_mod, Nat.mul_comm]

theorem mmapCount_segment (s : Phdr) : mmapCount s.vaddr (segmentPages s.memsz) =
    if s.vaddr.toNat+4096*(s.memsz.toNat/4096+1) < 2^32 then s.memsz.toNat/4096+1 else 0 := by
  have hm := s.memsz.isLt
  have hv := s.vaddr.isLt
  rw [mmapCount, toNat_segmentEnd]
  split
  · rw [Nat.mod_eq_of_lt (by omega)]
    omega
  · rw [Nat.mod_eq_sub_mod (by omega), Nat.mod_eq_of_lt (by omega)]
    omega

theorem toNat_alignedMemSize (memsz : Word) (h : memsz.toNat/4096+1 < 2^20) :
    memsz.toNat ≤ (alignedMemSize memsz).toNat ∧
      (alignedMemSize memsz).toNat ≤ 4096*(memsz.toNat/4096+1) := by
  have hb := toNat_pageBoundary memsz
  have hm := memsz.isLt
  rw [alignedMemSize]
  split
  · have hadd : (pageBoundary memsz+pageSize).toNat = memsz.toNat/4096*4096+4096 := by
      rw [BitVec.toNat_add, hb, pageSize_eq, show (4096#32).toNat = 4096 from rfl, Nat.mod_eq_of_lt (by omega)]
    omega
  · rename_i hle
    have hge : memsz.toNat ≤ (pageBoundary memsz).toNat := Nat.le_of_not_lt hle
    omega

/-- The bytes a segment is read into stay in its pages precisely when there are
no more of them than the pages hold and the pages are there. -/
theorem read_confined (s : Phdr) (hr : mmapRejects s.vaddr (segmentPages s.memsz) = false) (count : ℕ)
    (hpos : 0 < count) (hlt : count < 2^32) :
    (∀ k, k < count → Covered s.vaddr (segmentPages s.memsz) (s.vaddr+BitVec.ofNat 32 k)) ↔
      s.vaddr.toNat+4096*(s.memsz.toNat/4096+1) < 2^32 ∧ count ≤ 4096*(s.memsz.toNat/4096+1) := by
  have hcount := mmapCount_segment s
  have hle := (mmapCount_le hr).2
  have haddr : ∀ k, k < count → (s.vaddr+BitVec.ofNat 32 k).toNat = (s.vaddr.toNat+k)%2^32 := by
    intro k hk
    rw [BitVec.toNat_add, BitVec.toNat_ofNat, Nat.mod_eq_of_lt (a := k) (by omega)]
  constructor
  · intro h
    have hwrap : s.vaddr.toNat+4096*(s.memsz.toNat/4096+1) < 2^32 := by
      by_contra hw
      rw [if_neg hw] at hcount
      have h0 := h 0 hpos
      have := h0.above
      have := h0.below
      omega
    refine ⟨hwrap,?_⟩
    by_contra hc
    rw [if_pos hwrap] at hcount
    obtain ⟨k,hk⟩ : ∃ k, k = 4096*(s.memsz.toNat/4096+1) := ⟨_,rfl⟩
    have hlast := (h k (by omega)).below
    rw [haddr k (by omega), hcount, Nat.mod_eq_of_lt (by omega)] at hlast
    omega
  · rintro ⟨hwrap,hc⟩ k hk
    rw [if_pos hwrap] at hcount
    rw [hcount] at hle
    have ha := haddr k hk
    rw [Nat.mod_eq_of_lt (by omega)] at ha
    refine ⟨by omega,by omega,?_⟩
    change (s.vaddr+BitVec.ofNat 32 k).toNat < kernelVirtualOffset.toNat
    rw [ha, kernelVirtualOffset_eq, BitVec.toNat_ofNat]
    omega

/-- The zeroed bytes stay in the pages whenever the pages are there. -/
theorem zeroed_confined (s : Phdr) (hr : mmapRejects s.vaddr (segmentPages s.memsz) = false)
    (hwrap : s.vaddr.toNat+4096*(s.memsz.toNat/4096+1) < 2^32) (hz : s.memsz > s.filesz) (k : ℕ)
    (hk : k < (zeroed s).length) :
    Covered s.vaddr (segmentPages s.memsz) (s.vaddr+s.filesz+BitVec.ofNat 32 k) := by
  have hgt : s.filesz.toNat < s.memsz.toNat := hz
  have hsize : s.memsz.toNat/4096+1 < 2^20 := by omega
  obtain ⟨hlow,hhigh⟩ := toNat_alignedMemSize s.memsz hsize
  have hle : s.filesz ≤ alignedMemSize s.memsz := by
    change s.filesz.toNat ≤ (alignedMemSize s.memsz).toNat
    omega
  rw [zeroed, List.length_replicate, BitVec.toNat_sub_of_le hle] at hk
  obtain ⟨c,hc⟩ : ∃ c, c = 4096*(s.memsz.toNat/4096+1) := ⟨_,rfl⟩
  have hall := (read_confined s hr c (by omega) (by omega)).mpr ⟨hwrap,by omega⟩
  have hadd : s.vaddr+s.filesz+BitVec.ofNat 32 k = s.vaddr+BitVec.ofNat 32 (s.filesz.toNat+k) := by
    rw [BitVec.ofNat_add, BitVec.ofNat_toNat, BitVec.setWidth_eq, BitVec.add_assoc]
  rw [hadd]
  exact hall _ (by omega)

theorem segment_confined (ram : Ram) (s : Phdr) (file : FileT) (hin : file.offset ≤ file.inode.size)
    (v n : Word) (log : List Access) :
    let start := cursor file.inode.size.toNat s.offset file.offset.toNat
    let count := min s.filesz.toNat (file.inode.size.toNat-start)
    (Confined v n (accesses ram s file ++ log) ↔ (outcomeOf s file = .loaded →
      s.vaddr.toNat+4096*(s.memsz.toNat/4096+1) < 2^32 ∧ count ≤ 4096*(s.memsz.toNat/4096+1)) ∧
      Confined s.vaddr (segmentPages s.memsz) log) ∧
    (outcomeOf s file = .loaded ↔ ¬ (mmapRejects s.vaddr (segmentPages s.memsz) = true ∨ s.vaddr = null ∨
      count = 0)) := by
  intro start count
  have hfile := file.inode.size.isLt
  cases hr : mmapRejects s.vaddr (segmentPages s.memsz) with
  | true =>
    have ho : outcomeOf s file = .rejected := by rw [outcomeOf, hr, if_pos rfl]
    simp [accesses, writes, ho, Confined]
  | false =>
    by_cases hv : s.vaddr = null
    · obtain ⟨h0,hsrc⟩ := read_null file s.offset s.filesz
      have hread : segmentRead s file = fileRead (fileSeek file s.offset .seekSet).2 null s.filesz := by
        rw [segmentRead, hv]
      rw [← hread] at h0 hsrc
      have ho : outcomeOf s file = .unread := by rw [outcomeOf, hr, if_neg (by simp), if_pos h0]
      simp [accesses, writes, ho, hsrc, Confined, hv]
    · obtain ⟨hbytes,hsrc,-,-⟩ := read_after_seek ram file s.offset s.vaddr s.filesz hv hin
      have hlen : ((segmentRead s file).sources.map ram).length = count := by
        have hle : start ≤ file.inode.size.toNat := cursor_le _ s.offset hin
        rw [segmentRead, hsrc, List.length_take, List.length_drop, content_length]
        change min count (_-start) = count
        omega
      by_cases hc : count = 0
      · have h0 : (segmentRead s file).bytesRead = 0#32 := BitVec.eq_of_toNat_eq (hbytes.trans hc)
        have ho : outcomeOf s file = .unread := by rw [outcomeOf, hr, if_neg (by simp), if_pos h0]
        have hnil : (segmentRead s file).sources.map ram = [] := List.length_eq_zero_iff.mp (hlen.trans hc)
        simp [accesses, writes, ho, hnil, Confined, hc]
      · have h0 : (segmentRead s file).bytesRead ≠ 0#32 := fun h => hc (by
          have := congrArg BitVec.toNat h
          exact hbytes.symm.trans this)
        have ho : outcomeOf s file = .loaded := by rw [outcomeOf, hr, if_neg (by simp), if_neg h0]
        have hread := read_confined s hr count (by omega) (by omega)
        refine ⟨?_,by simp [ho, hv, hc]⟩
        rw [accesses, writes, ho, List.cons_append, Confined, List.cons_append, Confined, hlen, hread]
        simp only [forall_const, and_assoc]
        refine and_congr_right fun hwrap => and_congr_right fun _ => ?_
        by_cases hz : s.memsz > s.filesz
        · rw [if_pos hz, List.singleton_append, Confined]
          exact and_iff_right (zeroed_confined s hr hwrap hz)
        · rw [if_neg hz, List.nil_append]

theorem after_loaded {s : Phdr} {file : FileT} (task : Task) (h : outcomeOf s file = .loaded) :
    after s file task = (.success, (segmentRead s file).file, task.update s) := by
  rw [after, h]

theorem after_failed {s : Phdr} {file : FileT} (task : Task) (h : outcomeOf s file ≠ .loaded) :
    (after s file task).1 = .failure := by
  rw [after]
  split
  · rfl
  · rfl
  · contradiction

/-- The calls for a list of segments are confined precisely when it fits. -/
theorem plan_confined (ram : Ram) (segs : List Phdr) (file : FileT) (task : Task)
    (hin : file.offset ≤ file.inode.size) (v n : Word) :
    Confined v n (plan ram segs file task).1 ↔ Fits file.inode.size.toNat file.offset.toNat segs := by
  induction segs generalizing file task v n with
  | nil => exact Iff.rfl
  | cons s rest ih =>
    rw [plan, Fits]
    by_cases ht : s.type = ptLoad
    · rw [if_pos ht, if_pos ht]
      have hseg := segment_confined ram s file hin v n
      by_cases ho : outcomeOf s file = .loaded
      · have hnot := (hseg []).2.mp ho
        simp only [after_loaded task ho, if_true, (hseg _).1]
        simp only [not_or] at hnot
        obtain ⟨-,-,hinode,hoff⟩ := read_after_seek ram file s.offset s.vaddr s.filesz hnot.2.1 hin
        have hle := cursor_le file.inode.size.toNat s.offset hin
        have hrest := ih (segmentRead s file).file (task.update s) (by
          change (segmentRead s file).file.offset.toNat ≤ (segmentRead s file).file.inode.size.toNat
          rw [segmentRead, hinode, hoff]
          omega) s.vaddr (segmentPages s.memsz)
        rw [segmentRead, hinode, hoff, ← segmentRead] at hrest
        rw [hrest]
        simp only [ho, forall_const, hnot, false_or, and_assoc, Bool.false_eq_true]
      · have hfail := after_failed task ho
        have hcase := (hseg []).2.not.mp ho
        rw [not_not] at hcase
        have hnil := (hseg []).1
        rw [List.append_nil] at hnil
        simp only [hfail, reduceCtorEq, if_false, hnil, ho, false_implies, true_and, Confined]
        rcases hcase with hr | hv | hc
        · simp only [hr, true_or]
        · simp only [hv, true_or, or_true]
        · simp only [hc, true_or, or_true]
    · rw [if_neg ht, if_neg ht]
      exact ih file task hin v n

theorem table_read (ram : Ram) (segments : StackBuffer) (elfHeader : Ehdr) (file : FileT)
    (hin : file.offset ≤ file.inode.size) :
    let start := cursor file.inode.size.toNat elfHeader.phoff file.offset.toNat
    let count := min (32*elfHeader.phnum.toNat) (file.inode.size.toNat-start)
    let t := loadProgramHeaderTable ram elfHeader segments (elfHeader.phnum.setWidth 32) file
    t.1.toNat = count ∧ t.2.1 = segments.filled (((file.inode.content ram).drop start).take count) ∧
      t.2.2.inode = file.inode ∧ t.2.2.offset.toNat = start+count := by
  have hnum := elfHeader.phnum.isLt
  have hlen : (elfHeader.phnum.setWidth 32*BitVec.ofNat 32 elfPhdrSize).toNat = 32*elfHeader.phnum.toNat := by
    rw [BitVec.toNat_mul, BitVec.toNat_setWidth, BitVec.toNat_ofNat, elfPhdrSize]
    omega
  obtain ⟨hbytes,hsrc,hinode,hoff⟩ := read_after_seek ram file elfHeader.phoff segments.address
    (elfHeader.phnum.setWidth 32*BitVec.ofNat 32 elfPhdrSize) segments.placed hin
  rw [hlen] at hbytes hsrc hoff
  exact ⟨hbytes,congrArg segments.filled hsrc,hinode,hoff⟩

theorem filePlan_confined (ram : Ram) (segments : StackBuffer) (elfHeader : Ehdr) (file : FileT)
    (task : Task) (hin : file.offset ≤ file.inode.size) (v n : Word) :
    Confined v n (filePlan ram segments elfHeader file task).1 ↔ HeadersFit ram segments elfHeader file := by
  obtain ⟨hbytes,htable,hinode,hoff⟩ := table_read ram segments elfHeader file hin
  have hle := cursor_le file.inode.size.toNat elfHeader.phoff hin
  have hzero : (loadProgramHeaderTable ram elfHeader segments (elfHeader.phnum.setWidth 32) file).1 = 0#32 ↔
      min (32*elfHeader.phnum.toNat) (file.inode.size.toNat-
        cursor file.inode.size.toNat elfHeader.phoff file.offset.toNat) = 0 := by
    rw [← hbytes, ← BitVec.toNat_inj]
    rfl
  unfold filePlan HeadersFit
  simp only [hzero]
  split
  · rename_i h0
    simp only [Confined, h0, true_or]
  · rename_i h0
    rw [plan_confined _ _ _ _ (by
      change BitVec.toNat _ ≤ BitVec.toNat _
      rw [hinode, hoff]
      omega), hinode, hoff, htable, or_iff_right h0]

/-- Every write of the loader for a segment falls into the pages of the `mmap`
call for it, and below the kernel, precisely when the program headers fit. -/
theorem loads_confined_iff (ram : Ram) (segments : StackBuffer) (elfHeader : Ehdr) (file : FileT)
    (task : Task) (hin : file.offset ≤ file.inode.size) :
    ∃ code x, loadSegments recorder ram segments elfHeader ⟨file, task, []⟩ = .ok (code, x) ∧
      (Confined 0#32 0#32 x.memory ↔ HeadersFit ram segments elfHeader file) :=
  ⟨_,_,loadSegments_recorded ram segments elfHeader file task,
    filePlan_confined ram segments elfHeader file task hin _ _⟩

theorem headersFit_iff {ram : Ram} {segments : StackBuffer} {elfHeader : Ehdr} {file : FileT} {a c : ℕ}
    {segs : List Phdr} (hstart : cursor file.inode.size.toNat elfHeader.phoff file.offset.toNat = a)
    (hcount : min (32*elfHeader.phnum.toNat) (file.inode.size.toNat-a) = c) (hc : c ≠ 0)
    (hsegs : segmentsOf (segments.filled (((file.inode.content ram).drop a).take c))
      (elfHeader.phnum.setWidth 32) = segs) :
    HeadersFit ram segments elfHeader file ↔ Fits file.inode.size.toNat (a+c) segs := by
  unfold HeadersFit
  simp only [hstart, hcount, hsegs]
  exact or_iff_right hc

/-! ## Two files -/

def headerBytes (phnum : Byte) : List Byte :=
  [0x7F#8, 0x45#8, 0x4C#8, 0x46#8, 1#8, 1#8, 1#8, 0#8, 0#8, 0#8, 0#8, 0#8, 0#8, 0#8, 0#8, 0#8,
    2#8, 0#8, 3#8, 0#8, 1#8, 0#8, 0#8, 0#8, 0#8, 0x10#8, 0#8, 0x40#8, 52#8, 0#8, 0#8, 0#8,
    0#8, 0#8, 0#8, 0#8, 0#8, 0#8, 0#8, 0#8, 52#8, 0#8, 32#8, 0#8, phnum, 0#8, 0#8, 0#8, 0#8, 0#8, 0#8, 0#8]

def imageBase : Word := 0xC0900000#32

def ramOf (bytes : List Byte) : Ram := fun p => bytes.getD (p-imageBase).toNat 0#8

def fileOf (size : Word) : FileT := ⟨1#32, 52#32, ⟨size, imageBase⟩⟩

def stackBuffer : StackBuffer := ⟨0xC0001000#32, by decide, fun _ => 0xCC#8⟩

def oversized : Ram := ramOf (headerBytes 1#8 ++
  [1#8, 0#8, 0#8, 0#8, 84#8, 0#8, 0#8, 0#8, 0#8, 0#8, 0#8, 0x40#8, 0#8, 0#8, 0#8, 0#8,
    0#8, 0x20#8, 0#8, 0#8, 16#8, 0#8, 0#8, 0#8, 6#8, 0#8, 0#8, 0#8, 0#8, 0x10#8, 0#8, 0#8])

def oversizedHeader : Ehdr := readEhdr fun i => oversized (imageBase+BitVec.ofNat 32 i)

theorem oversized_segments : segmentsOf (stackBuffer.filled ((((fileOf 0x2100#32).inode.content
    oversized).drop 52).take 32)) (oversizedHeader.phnum.setWidth 32) =
    [⟨1#32, 84#32, 0x40000000#32, 0x2000#32, 16#32, 6#32⟩] := by
  decide +kernel

/-- One page is mapped and two are read. -/
theorem oversized_not_confined : checkElfHeader oversizedHeader = .success ∧
    checkElfSupported oversizedHeader = .success ∧ oversizedHeader.type = etExec ∧
    ∃ code x, loadSegments recorder oversized stackBuffer oversizedHeader
      ⟨fileOf 0x2100#32, ⟨0#32, 0#32⟩, []⟩ = .ok (code, x) ∧ ¬ Confined 0#32 0#32 x.memory := by
  refine ⟨by decide +kernel,by decide +kernel,by decide +kernel,_,_,loadSegments_recorded _ _ _ _ _,?_⟩
  have hr : mmapRejects 0x40000000#32 (segmentPages 16#32) = false := by decide
  rw [filePlan_confined _ _ _ _ _ (by decide),
    headersFit_iff (by decide +kernel) (by decide +kernel) (by decide) oversized_segments]
  simp [Fits, ptLoad, cursor, hr, null, fileOf]

def twoSegments : Ram := ramOf (headerBytes 2#8 ++
  [1#8, 0#8, 0#8, 0#8, 116#8, 0#8, 0#8, 0#8, 0#8, 0x10#8, 0#8, 0x40#8, 0#8, 0#8, 0#8, 0#8,
    4#8, 0#8, 0#8, 0#8, 4#8, 0#8, 0#8, 0#8, 5#8, 0#8, 0#8, 0#8, 0#8, 0x10#8, 0#8, 0#8,
    1#8, 0#8, 0#8, 0#8, 120#8, 0#8, 0#8, 0#8, 0#8, 0#8, 0#8, 0x40#8, 0#8, 0#8, 0#8, 0#8,
    2#8, 0#8, 0#8, 0#8, 6#8, 0#8, 0#8, 0#8, 6#8, 0#8, 0#8, 0#8, 0#8, 0x10#8, 0#8, 0#8,
    0xB8#8, 1#8, 0xCD#8, 0x80#8, 0x2A#8, 0x2B#8])

def twoSegmentsHeader : Ehdr := readEhdr fun i => twoSegments (imageBase+BitVec.ofNat 32 i)

theorem twoSegments_segments : segmentsOf (stackBuffer.filled ((((fileOf 122#32).inode.content
    twoSegments).drop 52).take 64)) (twoSegmentsHeader.phnum.setWidth 32) =
    [⟨1#32, 116#32, 0x40001000#32, 4#32, 4#32, 5#32⟩, ⟨1#32, 120#32, 0x40000000#32, 2#32, 6#32, 6#32⟩] := by
  decide +kernel

theorem twoSegments_confined : (fileOf 122#32).offset ≤ (fileOf 122#32).inode.size ∧
    HeadersFit twoSegments stackBuffer twoSegmentsHeader (fileOf 122#32) ∧
    ∃ code x, loadSegments recorder twoSegments stackBuffer twoSegmentsHeader
      ⟨fileOf 122#32, ⟨0#32, 0#32⟩, []⟩ = .ok (code, x) ∧ Confined 0#32 0#32 x.memory := by
  have hin : (fileOf 122#32).offset ≤ (fileOf 122#32).inode.size := by decide
  have hr : mmapRejects 0x40001000#32 (segmentPages 4#32) = false := by decide
  have hr' : mmapRejects 0x40000000#32 (segmentPages 6#32) = false := by decide
  have hfit : HeadersFit twoSegments stackBuffer twoSegmentsHeader (fileOf 122#32) := by
    rw [headersFit_iff (by decide +kernel) (by decide +kernel) (by decide) twoSegments_segments]
    simp [Fits, ptLoad, cursor, hr, hr', null, fileOf]
  obtain ⟨code,x,hload,hiff⟩ := loads_confined_iff twoSegments stackBuffer twoSegmentsHeader (fileOf 122#32)
    ⟨0#32, 0#32⟩ hin
  exact ⟨hin,hfit,code,x,hload,hiff.mpr hfit⟩

end MikeOS.ElfConfined
