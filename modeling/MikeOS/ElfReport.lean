import MikeOS.ElfLoad

/-!
# What the ELF loader reports

`load_elf` is compared with the calls it makes for the segments of a file. It
ought to return `SUCCESS` only when the file is an executable and each of its
segments was mapped and filled; the condition under which it does is stated
over the bytes of the file.
-/

set_option autoImplicit false

namespace MikeOS.ElfReport
open MikeOS.Initrd MikeOS.File MikeOS.KernelHeap MikeOS.Mmu MikeOS.VirtualMemory MikeOS.Mmaps
open MikeOS.Elf MikeOS.ElfConfined MikeOS.ElfLoad

/-! ## The property -/

def fileBytes (content : List Byte) (s : Phdr) : List Byte :=
  (content.drop s.offset.toNat).take s.filesz.toNat

def ZeroFilled (s : Phdr) (calls : List Access) : Prop :=
  if s.memsz > s.filesz then
    ∃ n, s.memsz.toNat-s.filesz.toNat ≤ n ∧ calls = [.write (s.vaddr+s.filesz) (List.replicate n 0#8)]
  else calls = []

def Done (content : List Byte) (s : Phdr) (calls : List Access) : Prop :=
  ∃ n zeros, calls = .map s.vaddr n :: .write s.vaddr (fileBytes content s) :: zeros ∧
    mmapRejects s.vaddr n = false ∧
    (∀ k, k < max s.filesz.toNat s.memsz.toNat → Covered s.vaddr n (s.vaddr+BitVec.ofNat 32 k)) ∧
    (fileBytes content s).length = s.filesz.toNat ∧ ZeroFilled s zeros

def Segmentwise (content : List Byte) : List Phdr → List Access → Prop
  | [], log => log = []
  | s::rest, log => ∃ calls more, log = calls ++ more ∧ Done content s calls ∧ Segmentwise content rest more

structure LoadedAll (content : List Byte) (log : List Access) : Prop where
  kind : (headerOf content).type = etExec
  table : (headerOf content).phnum = 0#16 ∨
    (headerOf content).phoff.toNat+32*(headerOf content).phnum.toNat ≤ content.length
  segments : Segmentwise content (loadsOf (phdrsOf content (headerOf content))) log

def Reports (content : List Byte) (outcome : Except Stop (ErrorCode × Task × List Access)) : Prop :=
  ∃ code task log, outcome = .ok (code, task, log) ∧ (code = .success → LoadedAll content log)

/-! ## The condition -/

structure Maps (s : Phdr) : Prop where
  accepted : mmapRejects s.vaddr (segmentPages s.memsz) = false
  unwrapped : s.vaddr.toNat+4096*(s.memsz.toNat/4096+1) < 2^32
  room : s.filesz.toNat ≤ 4096*(s.memsz.toNat/4096+1)

structure Readable (size : ℕ) (s : Phdr) : Prop where
  nonzero : s.vaddr ≠ null
  some : 0 < s.filesz.toNat
  seekable : s.offset.toNat < 2^31
  inFile : s.offset.toNat+s.filesz.toNat ≤ size

/-- All segments can be mapped and read; only the last one may be empty. -/
def LoadsOk (size : ℕ) : List Phdr → Prop
  | [] => True
  | s::rest => Maps s ∧
    (Readable size s ∧ LoadsOk size rest ∨ s.filesz.toNat = 0 ∧ s.memsz.toNat = 0 ∧ rest = [])

def Accepted (content : List Byte) : Prop :=
  content ≠ [] ∧ checkElfHeader (headerOf content) = .success ∧ checkElfSupported (headerOf content) = .success

structure Complete (content : List Byte) : Prop where
  kind : (headerOf content).type = etExec
  table : (headerOf content).phnum = 0#16 ∨ (headerOf content).phoff.toNat < 2^31 ∧
    (headerOf content).phoff.toNat+32*(headerOf content).phnum.toNat ≤ content.length
  loads : LoadsOk content.length (loadsOf (phdrsOf content (headerOf content)))

def Loadable (content : List Byte) : Prop := Accepted content → Complete content

/-! ## load_elf by its file -/

instance (content : List Byte) : Decidable (Accepted content) :=
  inferInstanceAs (Decidable (_ ∧ _ ∧ _))

theorem header_read (ram : Ram) (mode : Word) (node : FsNode) (headerBuf : StackBuffer) :
    let r := fileRead (opened mode node) headerBuf.address (BitVec.ofNat 32 elfHeaderSize)
    readEhdr (StackBuffer.filled { headerBuf with content := fun _ => 0#8 } (r.sources.map ram)) =
      headerOf (node.content ram) ∧ (r.bytesRead = 0#32 ↔ node.content ram = []) := by
  intro r
  have hin := opened_inside mode node
  have hav : available (opened mode node) (BitVec.ofNat 32 elfHeaderSize) = min 52 node.size.toNat := rfl
  have hr := fileRead_eq (opened mode node) headerBuf.address (BitVec.ofNat 32 elfHeaderSize) headerBuf.placed hin
  rw [hav] at hr
  change r = _ at hr
  have hlen := content_length ram node
  have hsrc : r.sources.map ram = (node.content ram).take elfHeaderSize := by
    have hslice := content_slice ram node 0 (min 52 node.size.toNat) (by omega)
    rw [List.drop_zero, ← hlen, List.take_eq_take_min.symm, hlen] at hslice
    rw [hr]
    exact hslice
  have hbytes : r.bytesRead.toNat = min 52 node.size.toNat := by
    rw [hr, BitVec.toNat_ofNat, Nat.mod_eq_of_lt (by omega)]
  refine ⟨by rw [hsrc]; rfl,?_⟩
  rw [← List.length_eq_zero_iff, hlen, ← BitVec.toNat_inj, hbytes, BitVec.toNat_ofNat]
  omega

theorem loadElf_eq {σ : Type} (M : Memory σ) (ram : Ram) (mode : Word) (node : FsNode)
    (headerBuf segments : StackBuffer) (task : Task) (m : σ) :
    loadElf M ram headerBuf segments (some (opened mode node)) task m =
      if Accepted (node.content ram) then
        if (headerOf (node.content ram)).type = etExec then
          loadSegments M ram segments (headerOf (node.content ram)) ⟨afterHeader mode node headerBuf, task, m⟩ >>=
            fun r => .ok (.success, r.2.task, r.2.memory)
        else .ok (.success, task, m)
      else .ok (.failure, task, m) := by
  obtain ⟨hhead,hzero⟩ := header_read ram mode node headerBuf
  rw [loadElf]
  simp only [hhead, hzero]
  by_cases h0 : node.content ram = []
  · have hno : ¬ Accepted (node.content ram) := fun h => h.1 h0
    rw [if_pos h0, if_neg hno]
  by_cases h1 : checkElfHeader (headerOf (node.content ram)) = .success
  · by_cases h2 : checkElfSupported (headerOf (node.content ram)) = .success
    · have hyes : Accepted (node.content ram) := ⟨h0,h1,h2⟩
      rw [if_neg h0, if_neg (not_not.mpr h1), if_neg (not_not.mpr h2), if_pos hyes]
      rfl
    · have hno : ¬ Accepted (node.content ram) := fun h => h2 h.2.2
      rw [if_neg h0, if_neg (not_not.mpr h1), if_pos h2, if_neg hno]
  · have hno : ¬ Accepted (node.content ram) := fun h => h1 h.2.1
    rw [if_neg h0, if_pos h1, if_neg hno]

/-! ## The calls for one segment -/

theorem max_covered {s : Phdr} (hr : mmapRejects s.vaddr (segmentPages s.memsz) = false) :
    (∀ k, k < max s.filesz.toNat s.memsz.toNat →
      Covered s.vaddr (segmentPages s.memsz) (s.vaddr+BitVec.ofNat 32 k)) ↔ Maps s := by
  have hfile := s.filesz.isLt
  have hmem := s.memsz.isLt
  by_cases hpos : 0 < max s.filesz.toNat s.memsz.toNat
  · rw [read_confined s hr _ hpos (by omega)]
    exact ⟨fun h => ⟨hr,h.1,by omega⟩,fun h => ⟨h.unwrapped,by have := h.room; omega⟩⟩
  · refine ⟨fun _ => ⟨hr,?_,by omega⟩,fun _ k hk => by omega⟩
    have hle := (mmapCount_le hr).2
    rw [show s.memsz.toNat = 0 by omega]
    omega

theorem segmentRead_eq (ram : Ram) (s : Phdr) {file : FileT} (hv : s.vaddr ≠ null)
    (hin : file.offset ≤ file.inode.size) :
    let start := cursor file.inode.size.toNat s.offset file.offset.toNat
    let count := min s.filesz.toNat (file.inode.size.toNat-start)
    (segmentRead s file).bytesRead.toNat = count ∧
      (segmentRead s file).sources.map ram = ((file.inode.content ram).drop start).take count ∧
      (segmentRead s file).sources.length = count ∧
      (segmentRead s file).file.inode = file.inode ∧
      (segmentRead s file).file.offset.toNat = start+count := by
  intro start count
  obtain ⟨hbytes,hsrc,hinode,hoff⟩ := read_after_seek ram file s.offset s.vaddr s.filesz hv hin
  refine ⟨hbytes,hsrc,?_,hinode,hoff⟩
  have hle : start ≤ file.inode.size.toNat := cursor_le _ s.offset hin
  have hlen := congrArg List.length hsrc
  rw [List.length_map, List.length_take, List.length_drop, content_length] at hlen
  change (segmentRead s file).sources.length = min count (_-start) at hlen
  rw [hlen]
  omega

theorem sources_length (ram : Ram) (s : Phdr) {file : FileT} (hin : file.offset ≤ file.inode.size) :
    ((segmentRead s file).sources.map ram).length = (segmentRead s file).bytesRead.toNat := by
  rw [List.length_map]
  by_cases hv : s.vaddr = null
  · rw [segmentRead, hv, (read_null file s.offset s.filesz).1, (read_null file s.offset s.filesz).2]
    rfl
  · obtain ⟨hbytes,-,hlen,-,-⟩ := segmentRead_eq ram s hv hin
    rw [hbytes, hlen]

theorem zeroFilled_zeroed {s : Phdr} (hm : Maps s) :
    ZeroFilled s (if s.memsz > s.filesz then [.write (s.vaddr+s.filesz) (zeroed s)] else []) := by
  rw [ZeroFilled]
  by_cases hz : s.memsz > s.filesz
  · rw [if_pos hz, if_pos hz]
    have hwrap := hm.unwrapped
    have hgt : s.filesz.toNat < s.memsz.toNat := hz
    obtain ⟨hlow,-⟩ := toNat_alignedMemSize s.memsz (by omega)
    have hle : s.filesz ≤ alignedMemSize s.memsz := by
      change s.filesz.toNat ≤ (alignedMemSize s.memsz).toNat
      omega
    refine ⟨_,?_,rfl⟩
    rw [BitVec.toNat_sub_of_le hle]
    omega
  · rw [if_neg hz, if_neg hz]

theorem segment_done (ram : Ram) {s : Phdr} {file : FileT} (hin : file.offset ≤ file.inode.size)
    (hm : Maps s) (hr : Readable file.inode.size.toNat s) :
    outcomeOf s file = .loaded ∧ Done (file.inode.content ram) s (accesses ram s file) ∧
      (segmentRead s file).file.inode = file.inode ∧
      (segmentRead s file).file.offset ≤ (segmentRead s file).file.inode.size := by
  have hpos := hr.some
  have hfit := hr.inFile
  have hseek := hr.seekable
  have hcur : cursor file.inode.size.toNat s.offset file.offset.toNat = s.offset.toNat := by
    rw [cursor, if_pos (by omega)]
  obtain ⟨hbytes,hsrc,-,hinode,hoff⟩ := segmentRead_eq ram s hr.nonzero hin
  rw [hcur, Nat.min_eq_left (by omega)] at hbytes hsrc hoff
  have hne : (segmentRead s file).bytesRead ≠ 0#32 := fun h0 => by
    rw [h0, BitVec.toNat_ofNat] at hbytes
    omega
  have ho : outcomeOf s file = .loaded := by rw [outcomeOf, hm.accepted, if_neg (by simp), if_neg hne]
  refine ⟨ho,⟨segmentPages s.memsz,_,?_,hm.accepted,(max_covered hm.accepted).mpr hm,?_,zeroFilled_zeroed hm⟩,
    hinode,?_⟩
  · rw [accesses, writes, ho, fileBytes, ← hsrc]
  · rw [fileBytes, List.length_take, List.length_drop, content_length]
    omega
  · change (segmentRead s file).file.offset.toNat ≤ (segmentRead s file).file.inode.size.toNat
    rw [hoff, hinode]
    exact hfit

/-- A segment without bytes is mapped; the loader stops behind it. -/
theorem empty_done (ram : Ram) {s : Phdr} {file : FileT} (hin : file.offset ≤ file.inode.size) (hm : Maps s)
    (hfile : s.filesz.toNat = 0) (hmem : s.memsz.toNat = 0) :
    outcomeOf s file = .unread ∧ Done (file.inode.content ram) s (accesses ram s file) := by
  have hbytes : (segmentRead s file).bytesRead = 0#32 := by
    by_cases hv : s.vaddr = null
    · rw [segmentRead, hv, (read_null file s.offset s.filesz).1]
    · obtain ⟨hbytes,-⟩ := segmentRead_eq ram s hv hin
      rw [hfile, Nat.zero_min] at hbytes
      exact BitVec.eq_of_toNat_eq hbytes
  have hsrc : (segmentRead s file).sources.map ram = [] := by
    rw [← List.length_eq_zero_iff, sources_length ram s hin, hbytes]
    rfl
  have ho : outcomeOf s file = .unread := by rw [outcomeOf, hm.accepted, if_neg (by simp), if_pos hbytes]
  have hnone : fileBytes (file.inode.content ram) s = [] := by rw [fileBytes, hfile, List.take_zero]
  refine ⟨ho,segmentPages s.memsz,[],?_,hm.accepted,(max_covered hm.accepted).mpr hm,by rw [hnone, hfile]; rfl,?_⟩
  · rw [accesses, writes, ho, hsrc, hnone]
  · rw [ZeroFilled, if_neg (fun hz => ?_)]
    have : s.filesz.toNat < s.memsz.toNat := hz
    omega

theorem done_segment (ram : Ram) {s : Phdr} {file : FileT} (hin : file.offset ≤ file.inode.size)
    (hsize : file.inode.size.toNat < 2^31) (hd : Done (file.inode.content ram) s (accesses ram s file)) :
    Maps s ∧ (outcomeOf s file = .loaded ∧ Readable file.inode.size.toNat s ∨
      outcomeOf s file ≠ .loaded ∧ s.filesz.toNat = 0 ∧ s.memsz.toNat = 0) := by
  obtain ⟨n,zeros,hcalls,hr,hcov,hlen,hzero⟩ := hd
  rw [accesses, List.cons.injEq, Access.map.injEq] at hcalls
  obtain ⟨⟨-,rfl⟩,hwrites⟩ := hcalls
  refine ⟨(max_covered hr).mp hcov,?_⟩
  have hsrc := sources_length ram s hin
  by_cases h0 : (segmentRead s file).bytesRead = 0#32
  · have ho : outcomeOf s file = .unread := by rw [outcomeOf, hr, if_neg (by simp), if_pos h0]
    rw [writes, ho, List.cons.injEq, Access.write.injEq] at hwrites
    obtain ⟨⟨-,hbytes⟩,rfl⟩ := hwrites
    rw [← hbytes, hsrc, h0] at hlen
    have hfile : s.filesz.toNat = 0 := hlen.symm
    refine Or.inr ⟨by rw [ho]; simp,hfile,?_⟩
    rw [ZeroFilled] at hzero
    split at hzero
    · obtain ⟨k,-,hk⟩ := hzero
      cases hk
    · rename_i hle
      have : ¬ s.filesz.toNat < s.memsz.toNat := hle
      omega
  · have ho : outcomeOf s file = .loaded := by rw [outcomeOf, hr, if_neg (by simp), if_neg h0]
    rw [writes, ho, List.cons.injEq, Access.write.injEq] at hwrites
    have hbytes := hwrites.1.2
    rw [hbytes, hlen] at hsrc
    have hpos : 0 < s.filesz.toNat := by
      rw [hsrc]
      bv_omega
    rw [fileBytes, List.length_take, List.length_drop, content_length] at hlen
    refine Or.inl ⟨ho,fun hv => h0 ?_,hpos,by omega,by omega⟩
    rw [segmentRead, hv, (read_null file s.offset s.filesz).1]

/-! ## The calls for all segments -/

def IsWrite : Access → Prop
  | .map _ _ => False
  | .write _ _ => True

def AtMap (log : List Access) : Prop := ∀ a ∈ log.head?, ¬ IsWrite a

/-- The writes up to the next call of `mmap` are determined. -/
theorem writes_split {a b c d : List Access} (ha : ∀ x ∈ a, IsWrite x) (hc : ∀ x ∈ c, IsWrite x)
    (hb : AtMap b) (hd : AtMap d) (h : a ++ b = c ++ d) : a = c ∧ b = d := by
  induction a generalizing c with
  | nil =>
    cases c with
    | nil => exact ⟨rfl,h⟩
    | cons x c =>
      rw [List.nil_append] at h
      subst h
      exact absurd (hc x List.mem_cons_self) (hb x rfl)
  | cons x a ih =>
    cases c with
    | nil =>
      rw [List.nil_append] at h
      subst h
      exact absurd (ha x List.mem_cons_self) (hd x rfl)
    | cons y c =>
      rw [List.cons_append, List.cons_append, List.cons.injEq] at h
      obtain ⟨rfl,h⟩ := h
      obtain ⟨rfl,rfl⟩ := ih (fun z hz => ha z (List.mem_cons_of_mem _ hz))
        (fun z hz => hc z (List.mem_cons_of_mem _ hz)) h
      exact ⟨rfl,rfl⟩

theorem writes_isWrite (ram : Ram) (s : Phdr) (file : FileT) : ∀ a ∈ writes ram s file, IsWrite a := by
  intro a ha
  rw [writes] at ha
  split at ha
  · cases ha
  · rw [List.mem_singleton.mp ha]
    trivial
  · rcases List.mem_cons.mp ha with rfl | ha
    · trivial
    · split at ha
      · rw [List.mem_singleton.mp ha]
        trivial
      · cases ha

theorem plan_atMap (ram : Ram) (segs : List Phdr) (file : FileT) (task : Task) :
    AtMap (plan ram segs file task).1 := by
  induction segs generalizing file task with
  | nil =>
    intro a ha
    cases ha
  | cons s rest ih =>
    rw [plan]
    split
    · simp only
      split <;> (intro a ha; cases ha; exact id)
    · exact ih file task

theorem done_shape {content : List Byte} {s : Phdr} {calls : List Access} (h : Done content s calls) :
    ∃ n rest, calls = .map s.vaddr n :: rest ∧ ∀ a ∈ rest, IsWrite a := by
  obtain ⟨n,zeros,rfl,-,-,-,hzero⟩ := h
  refine ⟨n,_,rfl,List.forall_mem_cons.mpr ⟨trivial,fun a ha => ?_⟩⟩
  rw [ZeroFilled] at hzero
  split at hzero
  · obtain ⟨k,-,rfl⟩ := hzero
    rw [List.mem_singleton.mp ha]
    trivial
  · subst hzero
    cases ha

theorem segmentwise_atMap {content : List Byte} {loads : List Phdr} {log : List Access}
    (h : Segmentwise content loads log) : AtMap log := by
  cases loads with
  | nil =>
    rw [show log = [] from h]
    intro a ha
    cases ha
  | cons s rest =>
    obtain ⟨calls,more,rfl,hd,-⟩ := h
    obtain ⟨n,writes,rfl,-⟩ := done_shape hd
    intro a ha
    cases ha
    exact id

/-- The calls of the first segment can be told from those of the others. -/
theorem first_calls (ram : Ram) {s : Phdr} {file : FileT} {calls more log : List Access}
    {content : List Byte} {loads : List Phdr} (hd : Done content s calls) (hs : Segmentwise content loads more)
    (hlog : AtMap log) (h : accesses ram s file ++ log = calls ++ more) :
    calls = accesses ram s file ∧ more = log := by
  obtain ⟨n,rest,rfl,hrest⟩ := done_shape hd
  rw [accesses, List.cons_append, List.cons_append, List.cons.injEq] at h
  obtain ⟨hwrites,rfl⟩ := writes_split (writes_isWrite ram s file) hrest hlog (segmentwise_atMap hs) h.2
  rw [accesses, h.1, hwrites]
  exact ⟨rfl,rfl⟩

/-- Segments that can all be mapped and read are, one after the other. -/
theorem plan_segmentwise (ram : Ram) {segs : List Phdr} {file : FileT} (task : Task)
    (hin : file.offset ≤ file.inode.size) (hok : LoadsOk file.inode.size.toNat (loadsOf segs)) :
    Segmentwise (file.inode.content ram) (loadsOf segs) (plan ram segs file task).1 := by
  induction segs generalizing file task with
  | nil => rfl
  | cons s rest ih =>
    by_cases ht : s.type = ptLoad
    · rw [loadsOf_cons_load ht] at hok ⊢
      rw [plan, if_pos ht]
      obtain ⟨hm,⟨hr,hrest⟩ | ⟨hfile,hmem,hrest⟩⟩ := hok
      · obtain ⟨ho,hd,hinode,hoff⟩ := segment_done ram hin hm hr
        simp only [after_loaded task ho, if_true]
        rw [← hinode] at hrest
        have hplan := ih (task.update s) hoff hrest
        rw [hinode] at hplan
        exact ⟨_,_,rfl,hd,hplan⟩
      · obtain ⟨ho,hd⟩ := empty_done ram hin hm hfile hmem
        rw [hrest, if_neg (by rw [after_failed task (by rw [ho]; simp)]; simp)]
        exact ⟨_,[],(List.append_nil _).symm,hd,rfl⟩
    · rw [loadsOf_cons_other ht] at hok ⊢
      rw [plan, if_neg ht]
      exact ih task hin hok

/-- What was mapped and filled one after the other can be. -/
theorem segmentwise_plan (ram : Ram) {segs : List Phdr} {file : FileT} (task : Task)
    (hin : file.offset ≤ file.inode.size) (hsize : file.inode.size.toNat < 2^31)
    (h : Segmentwise (file.inode.content ram) (loadsOf segs) (plan ram segs file task).1) :
    LoadsOk file.inode.size.toNat (loadsOf segs) := by
  induction segs generalizing file task with
  | nil => trivial
  | cons s rest ih =>
    by_cases ht : s.type = ptLoad
    · rw [loadsOf_cons_load ht] at h ⊢
      rw [plan, if_pos ht] at h
      obtain ⟨calls,more,hlog,hd,hmore⟩ := h
      by_cases ho : outcomeOf s file = .loaded
      · simp only [after_loaded task ho, if_true] at hlog
        obtain ⟨rfl,rfl⟩ := first_calls ram hd hmore (plan_atMap ram rest _ _) hlog
        obtain ⟨hm,⟨-,hr⟩ | ⟨hno,-⟩⟩ := done_segment ram hin hsize hd
        · obtain ⟨-,-,hinode,hoff⟩ := segment_done ram hin hm hr
          rw [← hinode] at hmore hsize
          have hrest := ih (task.update s) hoff hsize hmore
          rw [hinode] at hrest
          exact ⟨hm,Or.inl ⟨hr,hrest⟩⟩
        · exact absurd ho hno
      · rw [if_neg (by rw [after_failed task ho]; simp)] at hlog
        rw [← List.append_nil (accesses ram s file)] at hlog
        obtain ⟨rfl,rfl⟩ := first_calls ram hd hmore (fun a ha => by cases ha) hlog
        obtain ⟨hm,⟨hyes,-⟩ | ⟨-,hfile,hmem⟩⟩ := done_segment ram hin hsize hd
        · exact absurd hyes ho
        · refine ⟨hm,Or.inr ⟨hfile,hmem,?_⟩⟩
          cases hrest : loadsOf rest with
          | nil => rfl
          | cons t ts =>
            rw [hrest] at hmore
            obtain ⟨calls,more,hnil,hd',-⟩ := hmore
            obtain ⟨n,writes,rfl,-⟩ := done_shape hd'
            cases hnil
    · rw [loadsOf_cons_other ht] at h ⊢
      rw [plan, if_neg ht] at h
      exact ih task hin hsize h

/-! ## Whole files -/

theorem phdrsOf_none {content : List Byte} {elfHeader : Ehdr} (h : elfHeader.phnum = 0#16) :
    phdrsOf content elfHeader = [] := by
  rw [phdrsOf, h]
  rfl

theorem filePlan_none (ram : Ram) (segments : StackBuffer) {elfHeader : Ehdr} {file : FileT} (task : Task)
    (hin : file.offset ≤ file.inode.size) (h : elfHeader.phnum = 0#16) :
    (filePlan ram segments elfHeader file task).1 = [] := by
  obtain ⟨hbytes,-⟩ := table_read ram segments elfHeader file hin
  have hnum : elfHeader.phnum.toNat = 0 := by
    rw [h]
    rfl
  rw [hnum, Nat.mul_zero, Nat.zero_min] at hbytes
  unfold filePlan
  rw [if_pos (BitVec.eq_of_toNat_eq hbytes)]

theorem filePlan_table (ram : Ram) (segments : StackBuffer) {elfHeader : Ehdr} {file : FileT} (task : Task)
    (hin : file.offset ≤ file.inode.size) (hnum : elfHeader.phnum ≠ 0#16) (hseek : elfHeader.phoff.toNat < 2^31)
    (htable : elfHeader.phoff.toNat+32*elfHeader.phnum.toNat ≤ file.inode.size.toNat) :
    ∃ file' : FileT, file'.inode = file.inode ∧ file'.offset ≤ file'.inode.size ∧
      (filePlan ram segments elfHeader file task).1 =
        (plan ram (phdrsOf (file.inode.content ram) elfHeader) file' task).1 := by
  have hpos : 0 < elfHeader.phnum.toNat := by bv_omega
  obtain ⟨t,ht,hne,hphdrs,hinode,hin'⟩ := table_inFile ram segments hin hpos hseek htable
  refine ⟨t.2.2,hinode,hin',?_⟩
  rw [← hphdrs]
  simp only [filePlan, ht, if_neg hne]

section
variable (ram : Ram) (mode : Word) (node : FsNode) (headerBuf segments : StackBuffer) (task : Task)

theorem loadElf_recorded (ha : Accepted (node.content ram)) (ht : (headerOf (node.content ram)).type = etExec) :
    ∃ task', loadElf recorder ram headerBuf segments (some (opened mode node)) task [] = .ok (.success, task',
      (filePlan ram segments (headerOf (node.content ram)) (afterHeader mode node headerBuf) task).1) := by
  rw [loadElf_eq, if_pos ha, if_pos ht, loadSegments_recorded]
  exact ⟨_,rfl⟩

/-- On the machine `load_elf` performs the calls of the record. -/
theorem loadElf_performs_record (L : Layout) (m : Machine) :
    ∃ code task' log, loadElf recorder ram headerBuf segments (some (opened mode node)) task [] =
        .ok (code, task', log) ∧
      loadElf (machineMemory L) ram headerBuf segments (some (opened mode node)) task m =
        (play (machineMemory L) log m >>= fun m' => .ok (code, task', m')) := by
  rw [loadElf_eq, loadElf_eq]
  by_cases ha : Accepted (node.content ram)
  · by_cases ht : (headerOf (node.content ram)).type = etExec
    · rw [if_pos ha, if_pos ht, if_pos ha, if_pos ht, loadSegments_recorded,
        loadSegments_played (decides_machine L)]
      refine ⟨_,_,_,rfl,?_⟩
      cases play (machineMemory L) (filePlan ram segments (headerOf (node.content ram))
        (afterHeader mode node headerBuf) task).1 m <;> rfl
    · rw [if_pos ha, if_neg ht, if_pos ha, if_neg ht]
      exact ⟨_,_,_,rfl,rfl⟩
  · rw [if_neg ha, if_neg ha]
    exact ⟨_,_,_,rfl,rfl⟩

theorem complete_loaded (h : Complete (node.content ram)) :
    LoadedAll (node.content ram)
      (filePlan ram segments (headerOf (node.content ram)) (afterHeader mode node headerBuf) task).1 := by
  obtain ⟨hinode,hin⟩ := afterHeader_range mode node headerBuf
  refine ⟨h.kind,h.table.imp_right And.right,?_⟩
  by_cases hnum : (headerOf (node.content ram)).phnum = 0#16
  · rw [filePlan_none ram segments task hin hnum, phdrsOf_none hnum]
    rfl
  · obtain ⟨hseek,htable⟩ := h.table.resolve_left hnum
    have hloads := h.loads
    rw [content_length] at htable hloads
    obtain ⟨file',hinode',hin',hplan⟩ := filePlan_table ram segments task hin hnum hseek (by rwa [hinode])
    rw [hinode] at hinode' hplan
    rw [hplan]
    rw [← hinode'] at hloads ⊢
    exact plan_segmentwise ram task hin' hloads

theorem loaded_complete (hsize : node.size.toNat < 2^31)
    (h : LoadedAll (node.content ram)
      (filePlan ram segments (headerOf (node.content ram)) (afterHeader mode node headerBuf) task).1) :
    Complete (node.content ram) := by
  obtain ⟨hinode,hin⟩ := afterHeader_range mode node headerBuf
  have hlen := content_length ram node
  by_cases hnum : (headerOf (node.content ram)).phnum = 0#16
  · refine ⟨h.kind,Or.inl hnum,?_⟩
    rw [phdrsOf_none hnum]
    trivial
  · have htable := h.table.resolve_left hnum
    have hpos : 0 < (headerOf (node.content ram)).phnum.toNat := by bv_omega
    have hseek : (headerOf (node.content ram)).phoff.toNat < 2^31 := by omega
    refine ⟨h.kind,Or.inr ⟨hseek,htable⟩,?_⟩
    rw [hlen] at htable ⊢
    obtain ⟨file',hinode',hin',hplan⟩ := filePlan_table ram segments task hin hnum hseek (by rwa [hinode])
    rw [hinode] at hinode' hplan
    have hsegs := h.segments
    rw [hplan] at hsegs
    rw [← hinode'] at hsegs hsize ⊢
    exact segmentwise_plan ram task hin' hsize hsegs

/-- `load_elf` reports as it should for every file that it turns down or that is
complete, and, among the files that `file_seek` can go through, for no other. -/
theorem load_elf_reports :
    (Loadable (node.content ram) → Reports (node.content ram)
      (loadElf recorder ram headerBuf segments (some (opened mode node)) task [])) ∧
    (node.size.toNat < 2^31 → Reports (node.content ram)
      (loadElf recorder ram headerBuf segments (some (opened mode node)) task []) →
        Loadable (node.content ram)) := by
  by_cases ha : Accepted (node.content ram)
  · by_cases ht : (headerOf (node.content ram)).type = etExec
    · obtain ⟨task',hload⟩ := loadElf_recorded ram mode node headerBuf segments task ha ht
      rw [hload]
      refine ⟨fun h => ⟨_,_,_,rfl,fun _ => complete_loaded ram mode node headerBuf segments task (h ha)⟩,
        fun hsize h _ => ?_⟩
      obtain ⟨code,task'',log,he,hgood⟩ := h
      cases he
      exact loaded_complete ram mode node headerBuf segments task hsize (hgood rfl)
    · rw [loadElf_eq, if_pos ha, if_neg ht]
      refine ⟨fun h => absurd (h ha).kind ht,fun _ h => ?_⟩
      obtain ⟨code,task',log,he,hgood⟩ := h
      cases he
      exact absurd (hgood rfl).kind ht
  · rw [loadElf_eq, if_neg ha]
    exact ⟨fun _ => ⟨_,_,_,rfl,fun hc => by cases hc⟩,fun _ _ h => absurd h ha⟩

end

/-! ## Two files -/

def shortTable : Ram := ramOf (headerBytes 1#8)

def shortTableFile : FsNode := ⟨52#32, imageBase⟩

theorem short_table_not_reported : ¬ Reports (shortTableFile.content shortTable)
    (loadElf recorder shortTable stackBuffer stackBuffer (some (opened 1#32 shortTableFile)) ⟨0#32, 0#32⟩ []) := by
  have ha : Accepted (shortTableFile.content shortTable) := by decide +kernel
  have hnum : (headerOf (shortTableFile.content shortTable)).phnum ≠ 0#16 := by decide +kernel
  have htable : ¬ (headerOf (shortTableFile.content shortTable)).phoff.toNat+
      32*(headerOf (shortTableFile.content shortTable)).phnum.toNat ≤ (shortTableFile.content shortTable).length := by
    decide +kernel
  obtain ⟨task',hload⟩ := loadElf_recorded shortTable 1#32 shortTableFile stackBuffer stackBuffer ⟨0#32, 0#32⟩ ha
    (by decide +kernel)
  rintro ⟨code,task'',log,he,hgood⟩
  rw [hload] at he
  cases he
  exact (hgood rfl).table.elim hnum htable

theorem twoSegments_reported : Loadable (twoSegmentsFile.content twoSegments) ∧
    Reports (twoSegmentsFile.content twoSegments)
      (loadElf recorder twoSegments stackBuffer stackBuffer (some (opened 1#32 twoSegmentsFile)) ⟨0#32, 0#32⟩ []) := by
  have hlen : (twoSegmentsFile.content twoSegments).length = 122 := content_length _ _
  have hloadable : Loadable (twoSegmentsFile.content twoSegments) := by
    refine fun _ => ⟨by decide +kernel,Or.inr ⟨by decide +kernel,by decide +kernel⟩,?_⟩
    rw [twoSegments_loads, hlen]
    refine ⟨by constructor <;> decide,Or.inl ⟨by constructor <;> decide,?_⟩⟩
    exact ⟨by constructor <;> decide,Or.inl ⟨by constructor <;> decide,trivial⟩⟩
  exact ⟨hloadable,(load_elf_reports twoSegments 1#32 twoSegmentsFile stackBuffer stackBuffer ⟨0#32, 0#32⟩).1
    hloadable⟩

end MikeOS.ElfReport
