import MikeOS.ElfConfined
import MikeOS.UserBytes
import MikeOS.AddressSpaces

/-!
# What the ELF loader leaves in memory

A well-formed file is loaded into the address space in use: every segment
shows its bytes of the file and zeros behind them. A segment is zeroed up to
the end of its last page and one page more than needed may be mapped; since
segments start at pages, none of this reaches another segment.
-/

set_option autoImplicit false

namespace MikeOS.ElfLoad
open MikeOS.Initrd MikeOS.File MikeOS.PhysicalMemory MikeOS.KernelHeap MikeOS.Mmu MikeOS.VirtualMemory
open MikeOS.FramePool MikeOS.PageTables MikeOS.Mmaps MikeOS.Ownership MikeOS.FrameDemand MikeOS.UserBytes
open MikeOS.Elf MikeOS.ElfConfined MikeOS.AddressSpaces MikeOS.Teardown

/-! ## Well-formed files -/

structure LoadOk (size : ℕ) (s : Phdr) : Prop where
  aligned : s.vaddr.toNat%4096 = 0
  nonzero : s.vaddr ≠ null
  filled : 0 < s.filesz.toNat
  le : s.filesz.toNat ≤ s.memsz.toNat
  small : s.memsz.toNat < 2^31
  inFile : s.offset.toNat+s.filesz.toNat ≤ size
  below : s.vaddr.toNat+(s.memsz.toNat/4096+1)*4096 < kernelVirtualOffset.toNat

theorem LoadOk.pages_below {size : ℕ} {s : Phdr} (h : LoadOk size s) :
    s.vaddr.toNat+(s.memsz.toNat/4096+1)*4096 < 0xC0000000 := by
  have hbelow := h.below
  rwa [kernelVirtualOffset_eq, BitVec.toNat_ofNat] at hbelow

theorem LoadOk.toNat_byte {size : ℕ} {s : Phdr} (h : LoadOk size s) {k : ℕ} (hk : k < s.memsz.toNat) :
    (s.vaddr+BitVec.ofNat 32 k).toNat = s.vaddr.toNat+k := by
  have hbelow := h.pages_below
  rw [BitVec.toNat_add, BitVec.toNat_ofNat]
  omega

def Apart (s t : Phdr) : Prop :=
  s.vaddr.toNat+s.memsz.toNat ≤ t.vaddr.toNat ∨ t.vaddr.toNat+t.memsz.toNat ≤ s.vaddr.toNat

def byteAt (content : List Byte) (i : ℕ) : Byte := content.getD i 0#8

def headerOf (content : List Byte) : Ehdr := readEhdr fun i => byteAt (content.take elfHeaderSize) i

def phdrsOf (content : List Byte) (elfHeader : Ehdr) : List Phdr :=
  (List.range elfHeader.phnum.toNat).map fun i =>
    readPhdr fun j => byteAt content (elfHeader.phoff.toNat+(32*i+j))

def loadsOf (segs : List Phdr) : List Phdr := segs.filter fun s => s.type = ptLoad

structure WellFormed (content : List Byte) (elfHeader : Ehdr) : Prop where
  header : checkElfHeader elfHeader = .success
  supported : checkElfSupported elfHeader = .success
  exec : elfHeader.type = etExec
  some : 1 ≤ elfHeader.phnum.toNat
  table : elfHeader.phoff.toNat+32*elfHeader.phnum.toNat ≤ content.length
  loads : ∀ s ∈ loadsOf (phdrsOf content elfHeader), LoadOk content.length s
  apart : (loadsOf (phdrsOf content elfHeader)).Pairwise Apart

def Loaded (content : List Byte) (m : Machine) (s : Phdr) : Prop :=
  ∀ k, k < s.memsz.toNat → loadByte (s.vaddr+BitVec.ofNat 32 k) m =
    .ok (if k < s.filesz.toNat then byteAt content (s.offset.toNat+k) else 0#8)

def framesFor (mem : Frames) (D : ℕ) (loads : List Phdr) : ℕ :=
  (loads.map fun s => demand mem D (s.vaddr.toNat/4096) (s.memsz.toNat/4096+1)).sum

/-! ## One segment -/

def zeroEnd (s : Phdr) : ℕ := s.vaddr.toNat+(s.memsz.toNat+4095)/4096*4096

theorem toNat_aligned {memsz : Word} (h : memsz.toNat < 2^31) :
    (alignedMemSize memsz).toNat = (memsz.toNat+4095)/4096*4096 := by
  have hb := toNat_pageBoundary memsz
  rw [alignedMemSize]
  split
  · rename_i hlt
    have hlt' : (pageBoundary memsz).toNat < memsz.toNat := hlt
    rw [BitVec.toNat_add, hb, pageSize_eq, BitVec.toNat_ofNat]
    omega
  · rename_i hle
    have hge : memsz.toNat ≤ (pageBoundary memsz).toNat := Nat.le_of_not_lt hle
    rw [hb] at hge ⊢
    omega

theorem segment_not_rejected {size : ℕ} {s : Phdr} (h : LoadOk size s) :
    mmapRejects s.vaddr (segmentPages s.memsz) = false ∧
      mmapCount s.vaddr (segmentPages s.memsz) = s.memsz.toNat/4096+1 := by
  have hbelow := h.pages_below
  have hend := toNat_segmentEnd s
  rw [Nat.mod_eq_of_lt (by omega)] at hend
  constructor
  · rw [mmapRejects, decide_eq_false_iff_not, not_or, not_or, not_not, pageBoundary_eq_iff]
    refine ⟨?_,?_,h.aligned⟩
    · change ¬ kernelVirtualOffset.toNat ≤ s.vaddr.toNat
      rw [kernelVirtualOffset_eq, BitVec.toNat_ofNat]
      omega
    · change ¬ kernelVirtualOffset.toNat ≤ _
      rw [hend, kernelVirtualOffset_eq, BitVec.toNat_ofNat]
      omega
  · rw [mmapCount_segment, if_pos (by omega)]

theorem segment_read (ram : Ram) {file : FileT} {s : Phdr}
    (h : LoadOk file.inode.size.toNat s) (hsize : file.inode.size.toNat < 2^31)
    (hin : file.offset ≤ file.inode.size) :
    outcomeOf s file = .loaded ∧ (segmentRead s file).sources.map ram =
      ((file.inode.content ram).drop s.offset.toNat).take s.filesz.toNat ∧
      (segmentRead s file).file.inode = file.inode ∧
      (segmentRead s file).file.offset ≤ (segmentRead s file).file.inode.size := by
  have hfile := h.inFile
  have hpos := h.filled
  have hcur : cursor file.inode.size.toNat s.offset file.offset.toNat = s.offset.toNat := by
    rw [cursor, if_pos (by omega)]
  obtain ⟨hbytes,hsrc,hinode,hoff⟩ := read_after_seek ram file s.offset s.vaddr s.filesz h.nonzero hin
  rw [hcur, Nat.min_eq_left (by omega)] at hbytes hsrc hoff
  refine ⟨?_,hsrc,hinode,?_⟩
  · have hne : (segmentRead s file).bytesRead ≠ 0#32 := fun h0 => by
      have := congrArg BitVec.toNat h0
      rw [segmentRead, hbytes, BitVec.toNat_ofNat] at this
      omega
    rw [outcomeOf, (segment_not_rejected h).1, if_neg (by simp), if_neg hne]
  · change (segmentRead s file).file.offset.toNat ≤ (segmentRead s file).file.inode.size.toNat
    rw [segmentRead, hoff, hinode]
    exact hfile

section
variable {L : Layout} {dirs : List ℕ}

structure Progress (L : Layout) (dirs : List ℕ) (r : ℕ) (m m' : Machine) : Prop where
  space : InSpace L dirs m'
  cr3 : m'.cr3 = m.cr3
  left : r ≤ left L.toKernelImage m'.phys
  entered : ∀ q, q/1024 < 768 → Entered m.mem (frameOf m.cr3) q → Entered m'.mem (frameOf m.cr3) q
  demand : ∀ p k, p+k ≤ 768*1024 → demand m'.mem (frameOf m.cr3) p k ≤ demand m.mem (frameOf m.cr3) p k

theorem progress_refl {m : Machine} (h : InSpace L dirs m) {r : ℕ} (hr : r ≤ FramePool.left L.toKernelImage m.phys) :
    Progress L dirs r m m :=
  ⟨h,rfl,hr,fun _ _ he => he,fun _ _ _ => le_refl _⟩

theorem progress_trans {m m₁ m₂ : Machine} {r r' : ℕ} (h : Progress L dirs r' m m₁) (h' : Progress L dirs r m₁ m₂) :
    Progress L dirs r m m₂ := by
  have hcr3 := h.cr3
  refine ⟨h'.space,h'.cr3.trans hcr3,h'.left,fun q hq he => ?_,fun p k hp => ?_⟩
  · rw [← hcr3]
    exact h'.entered q hq (by rw [hcr3]; exact h.entered q hq he)
  · refine le_trans ?_ (h.demand p k hp)
    rw [← hcr3]
    exact h'.demand p k hp

theorem mmap_progress {m : Machine} (h : InSpace L dirs m) {s : Phdr} {size r : ℕ} (hs : LoadOk size s)
    (hleft : FrameDemand.demand m.mem (frameOf m.cr3) (s.vaddr.toNat/4096) (s.memsz.toNat/4096+1)+r ≤
      FramePool.left L.toKernelImage m.phys) :
    ∃ m', VirtualMemory.mmap L s.vaddr (segmentPages s.memsz) m = .ok (.success, m') ∧
      Progress L dirs r m m' ∧
      (∀ q, s.vaddr.toNat/4096 ≤ q → q < s.vaddr.toNat/4096+(s.memsz.toNat/4096+1) →
        Entered m'.mem (frameOf m.cr3) q) ∧
      ∀ c : Word, c.toNat < 0xC0000000 → Entered m.mem (frameOf m.cr3) (c.toNat/4096) →
        loadByte c m' = loadByte c m := by
  obtain ⟨hr,hcount⟩ := segment_not_rejected hs
  obtain ⟨hal,hle⟩ := mmapCount_le hr
  rw [hcount] at hle
  obtain ⟨m',hm,hrun,hgrows,hin,hr'⟩ := mmapLoop_running _ h.running hle hal hleft
  have hcur := h.running.current
  refine ⟨m',?_,⟨⟨hrun,by rw [hgrows.cr3]; exact h.other⟩,hgrows.cr3,hr',fun q hq he =>
    hgrows.entered _ hcur q hq he,fun p k hp => demand_grows hgrows hcur hp⟩,hin,fun c hc he =>
      loadByte_grows h hgrows hc he⟩
  rw [VirtualMemory.mmap, hr, if_neg (by simp), hcount, hm]
  rfl

theorem progress_written {m m₁ m₂ : Machine} {r : ℕ} (h : InSpace L dirs m) (hp : Progress L dirs r m m₁)
    (hw : Written L dirs m₁ m₂) : Progress L dirs r m m₂ := by
  have hcur : frameOf m.cr3 ∈ dirs := h.running.current
  refine ⟨hw.space,hw.cr3.trans hp.cr3,by rw [hw.phys]; exact hp.left,fun q hq he =>
    hw.entered _ hcur q hq (hp.entered q hq he),fun p k hpk =>
      (demand_written hw hcur hpk).trans (hp.demand p k hpk)⟩

theorem zero_written {m : Machine} (h : InSpace L dirs m) {s : Phdr} {size : ℕ} (hs : LoadOk size s)
    (hin : ∀ q, s.vaddr.toNat/4096 ≤ q → q < s.vaddr.toNat/4096+(s.memsz.toNat/4096+1) →
      Entered m.mem (frameOf m.cr3) q) :
    ∃ m', (if s.memsz > s.filesz then storeBytes (s.vaddr+s.filesz) (zeroed s) m else .ok m) = .ok m' ∧
      Written L dirs m m' ∧ ∀ c : Word, c.toNat < 0xC0000000 →
        Entered m.mem (frameOf m.cr3) (c.toNat/4096) →
          loadByte c m' = if s.filesz.toNat < s.memsz.toNat ∧ s.vaddr.toNat+s.filesz.toNat ≤ c.toNat ∧
            c.toNat < zeroEnd s then .ok 0#8 else loadByte c m := by
  have hbelow := hs.pages_below
  have hal := hs.aligned
  have hgt : s.memsz > s.filesz ↔ s.filesz.toNat < s.memsz.toNat := Iff.rfl
  by_cases hz : s.filesz.toNat < s.memsz.toNat
  · have hend := toNat_aligned hs.small
    have hle : s.filesz ≤ alignedMemSize s.memsz := by
      change s.filesz.toNat ≤ (alignedMemSize s.memsz).toNat
      omega
    have hlen : (zeroed s).length = (s.memsz.toNat+4095)/4096*4096-s.filesz.toNat := by
      rw [zeroed, List.length_replicate, BitVec.toNat_sub_of_le hle, hend]
    have hadr : (s.vaddr+s.filesz).toNat = s.vaddr.toNat+s.filesz.toNat := by
      rw [BitVec.toNat_add, Nat.mod_eq_of_lt (by omega)]
    obtain ⟨m',hm,hw,hload⟩ := storeBytes_user h (a := s.vaddr+s.filesz) (zeroed s)
      (by rw [hlen, hadr]; omega) (fun k hk => by
        rw [hlen] at hk
        rw [hadr]
        exact hin _ (by omega) (by omega))
    refine ⟨m',by rw [if_pos (hgt.mpr hz), hm],hw,fun c hc hcin => ?_⟩
    have hzero : (zeroed s).getD (c.toNat-(s.vaddr+s.filesz).toNat) 0#8 = 0#8 := by
      rw [zeroed, List.getD_eq_getElem?_getD, List.getElem?_replicate]
      split <;> rfl
    rw [hload c hc hcin, hzero, hlen, hadr]
    unfold zeroEnd
    by_cases hr : s.vaddr.toNat+s.filesz.toNat ≤ c.toNat ∧
        c.toNat < s.vaddr.toNat+(s.memsz.toNat+4095)/4096*4096
    · rw [if_pos (by omega), if_pos ⟨hz,hr⟩]
    · rw [if_neg (by omega), if_neg (fun hcase => hr hcase.2)]
  · refine ⟨m,by rw [if_neg (fun hc => hz (hgt.mp hc))],written_refl h,fun c _ _ => ?_⟩
    rw [if_neg (fun hcase => hz hcase.1)]

theorem segment_bytes (ram : Ram) {file : FileT} {s : Phdr} (hs : LoadOk file.inode.size.toNat s)
    (hsize : file.inode.size.toNat < 2^31) (hin : file.offset ≤ file.inode.size) :
    ((segmentRead s file).sources.map ram).length = s.filesz.toNat ∧
      ∀ k, k < s.filesz.toNat → ((segmentRead s file).sources.map ram).getD k 0#8 =
        byteAt (file.inode.content ram) (s.offset.toNat+k) := by
  have hfile := hs.inFile
  obtain ⟨-,hsrc,-,-⟩ := segment_read ram hs hsize hin
  rw [hsrc]
  constructor
  · rw [List.length_take, List.length_drop, content_length]
    omega
  · intro k hk
    rw [byteAt, List.getD_eq_getElem?_getD, List.getD_eq_getElem?_getD, List.getElem?_take_of_lt hk,
      List.getElem?_drop]

theorem segment_performed {m m₁ m₂ m₃ : Machine} (ram : Ram) {file : FileT} {s : Phdr} (task : Task)
    (ho : outcomeOf s file = .loaded)
    (hmap : VirtualMemory.mmap L s.vaddr (segmentPages s.memsz) m = .ok (.success, m₁))
    (hstore : storeBytes s.vaddr ((segmentRead s file).sources.map ram) m₁ = .ok m₂)
    (hzero : (if s.memsz > s.filesz then storeBytes (s.vaddr+s.filesz) (zeroed s) m₂ else .ok m₂) = .ok m₃) :
    loadSegment (machineMemory L) ram s ⟨file, task, m⟩ =
      .ok (.success, ⟨(segmentRead s file).file, task.update s, m₃⟩) := by
  rw [loadSegment_played (decides_machine L), after_loaded task ho, accesses, play]
  change (VirtualMemory.mmap L s.vaddr (segmentPages s.memsz) m >>= _) >>= _ = _
  rw [hmap, ok_bind]
  simp only [writes, ho, play]
  change (storeBytes s.vaddr _ m₁ >>= _) >>= _ = _
  rw [hstore, ok_bind]
  by_cases hz : s.memsz > s.filesz
  · rw [if_pos hz] at hzero ⊢
    simp only [play]
    change (storeBytes (s.vaddr+s.filesz) (zeroed s) m₂ >>= _) >>= _ = _
    rw [hzero]
    rfl
  · rw [if_neg hz] at hzero ⊢
    cases hzero
    rfl

theorem segment_written {m : Machine} (h : InSpace L dirs m) {s : Phdr} {size : ℕ} (hs : LoadOk size s)
    (hin : ∀ q, s.vaddr.toNat/4096 ≤ q → q < s.vaddr.toNat/4096+(s.memsz.toNat/4096+1) →
      Entered m.mem (frameOf m.cr3) q) {bytes : List Byte} (hlen : bytes.length = s.filesz.toNat) :
    ∃ m₁ m', storeBytes s.vaddr bytes m = .ok m₁ ∧
      (if s.memsz > s.filesz then storeBytes (s.vaddr+s.filesz) (zeroed s) m₁ else .ok m₁) = .ok m' ∧
      Written L dirs m m' ∧ ∀ c : Word, c.toNat < 0xC0000000 → Entered m.mem (frameOf m.cr3) (c.toNat/4096) →
        loadByte c m' = if s.filesz.toNat < s.memsz.toNat ∧ s.vaddr.toNat+s.filesz.toNat ≤ c.toNat ∧
            c.toNat < zeroEnd s then .ok 0#8
          else if s.vaddr.toNat ≤ c.toNat ∧ c.toNat < s.vaddr.toNat+s.filesz.toNat then
            .ok (bytes.getD (c.toNat-s.vaddr.toNat) 0#8) else loadByte c m := by
  have hbelow := hs.pages_below
  have hfit := hs.le
  have hal := hs.aligned
  have hcur : frameOf m.cr3 ∈ dirs := h.running.current
  obtain ⟨m₁,hstore,hw,hload⟩ := storeBytes_user h (a := s.vaddr) bytes (by omega)
    (fun k hk => hin _ (by omega) (by omega))
  have hin₁ : ∀ q, s.vaddr.toNat/4096 ≤ q → q < s.vaddr.toNat/4096+(s.memsz.toNat/4096+1) →
      Entered m₁.mem (frameOf m₁.cr3) q := fun q h1 h2 => by
    rw [hw.cr3]
    exact hw.entered _ hcur q (by omega) (hin q h1 h2)
  obtain ⟨m',hzero,hw',hload'⟩ := zero_written hw.space hs hin₁
  refine ⟨m₁,m',hstore,hzero,written_trans hw hw',fun c hc hcin => ?_⟩
  rw [hload' c hc (by rw [hw.cr3]; exact hw.entered _ hcur _ (by omega) hcin), hload c hc hcin, hlen]

theorem segment_loaded {m : Machine} (h : InSpace L dirs m) (ram : Ram) {file : FileT} {s : Phdr}
    (task : Task) {r : ℕ} (hs : LoadOk file.inode.size.toNat s) (hsize : file.inode.size.toNat < 2^31)
    (hin : file.offset ≤ file.inode.size)
    (hleft : FrameDemand.demand m.mem (frameOf m.cr3) (s.vaddr.toNat/4096) (s.memsz.toNat/4096+1)+r ≤
      FramePool.left L.toKernelImage m.phys) :
    ∃ m', loadSegment (machineMemory L) ram s ⟨file, task, m⟩ =
        .ok (.success, ⟨(segmentRead s file).file, task.update s, m'⟩) ∧
      Progress L dirs r m m' ∧ Loaded (file.inode.content ram) m' s ∧
      (∀ q, s.vaddr.toNat/4096 ≤ q → q < s.vaddr.toNat/4096+(s.memsz.toNat/4096+1) →
        Entered m'.mem (frameOf m.cr3) q) ∧
      ∀ c : Word, c.toNat < 0xC0000000 → Entered m.mem (frameOf m.cr3) (c.toNat/4096) →
        (c.toNat < s.vaddr.toNat ∨ zeroEnd s ≤ c.toNat) → loadByte c m' = loadByte c m := by
  have hbelow := hs.pages_below
  have hfit := hs.le
  have hal := hs.aligned
  obtain ⟨ho,-,-,-⟩ := segment_read ram hs hsize hin
  obtain ⟨m₁,hmap,hprog,hin₁,hold⟩ := mmap_progress h hs hleft
  obtain ⟨hlen,hget⟩ := segment_bytes ram hs hsize hin
  have hcur : frameOf m.cr3 ∈ dirs := h.running.current
  rw [← hprog.cr3] at hin₁ hcur
  obtain ⟨m₂,m₃,hstore,hzero,hw,hview⟩ := segment_written hprog.space hs hin₁ hlen
  refine ⟨m₃,segment_performed ram task ho hmap hstore hzero,progress_written h hprog hw,fun k hk => ?_,
    fun q h1 h2 => ?_,fun c hc hcin hout => ?_⟩
  · have hadr := hs.toNat_byte hk
    rw [hview _ (by omega) (hin₁ _ (by omega) (by omega)), hadr]
    by_cases hkf : k < s.filesz.toNat
    · rw [if_neg (by omega), if_pos (by omega), if_pos hkf, Nat.add_sub_cancel_left, hget k hkf]
    · rw [if_pos (by unfold zeroEnd; omega), if_neg hkf]
  · rw [← hprog.cr3]
    exact hw.entered _ hcur q (by omega) (hin₁ q h1 h2)
  · have hmem := hs.filled
    rw [hview c hc (by rw [hprog.cr3]; exact hprog.entered _ (by omega) hcin),
      if_neg (by unfold zeroEnd at *; omega), if_neg (by unfold zeroEnd at hout; omega), hold c hc hcin]

/-! ## All segments -/

theorem loadsOf_cons_load {s : Phdr} (h : s.type = ptLoad) (rest : List Phdr) :
    loadsOf (s::rest) = s::loadsOf rest := by
  rw [loadsOf, List.filter_cons_of_pos (by simp [h]), ← loadsOf]

theorem loadsOf_cons_other {s : Phdr} (h : s.type ≠ ptLoad) (rest : List Phdr) :
    loadsOf (s::rest) = loadsOf rest := by
  rw [loadsOf, List.filter_cons_of_neg (by simp [h]), ← loadsOf]

def Outside (loads : List Phdr) (c : Word) : Prop :=
  ∀ s ∈ loads, c.toNat < s.vaddr.toNat ∨ zeroEnd s ≤ c.toNat

theorem outside_of_apart {size : ℕ} {s : Phdr} {loads : List Phdr} (hs : LoadOk size s)
    (hloads : ∀ t ∈ loads, LoadOk size t) (hapart : ∀ t ∈ loads, Apart s t) {c : Word} {k : ℕ}
    (hk : k < s.memsz.toNat) (hc : c.toNat = s.vaddr.toNat+k) : Outside loads c := by
  intro t ht
  have hs' := hs.aligned
  have ht' := (hloads t ht).aligned
  unfold zeroEnd
  rcases hapart t ht with hbefore | hbehind
  · left
    omega
  · right
    omega

theorem framesFor_mono {mem mem' : Frames} {D size : ℕ} {loads : List Phdr}
    (hloads : ∀ s ∈ loads, LoadOk size s)
    (h : ∀ p k, p+k ≤ 768*1024 → FrameDemand.demand mem' D p k ≤ FrameDemand.demand mem D p k) :
    framesFor mem' D loads ≤ framesFor mem D loads := by
  refine List.sum_le_sum fun s hs => h _ _ ?_
  have hbelow := (hloads s hs).pages_below
  omega

theorem each_loaded {m : Machine} (h : InSpace L dirs m) (ram : Ram) {file : FileT} (task : Task)
    {segs : List Phdr} {r : ℕ} (hsize : file.inode.size.toNat < 2^31) (hin : file.offset ≤ file.inode.size)
    (hloads : ∀ s ∈ loadsOf segs, LoadOk file.inode.size.toNat s) (hapart : (loadsOf segs).Pairwise Apart)
    (hframes : framesFor m.mem (frameOf m.cr3) (loadsOf segs)+r ≤ FramePool.left L.toKernelImage m.phys) :
    ∃ x, loadEach (machineMemory L) ram segs ⟨file, task, m⟩ = .ok (.success, x) ∧
      Progress L dirs r m x.memory ∧
      (∀ s ∈ loadsOf segs, Loaded (file.inode.content ram) x.memory s) ∧
      ∀ c : Word, c.toNat < 0xC0000000 → Entered m.mem (frameOf m.cr3) (c.toNat/4096) →
        Outside (loadsOf segs) c → loadByte c x.memory = loadByte c m := by
  induction segs generalizing file task m with
  | nil => exact ⟨_,rfl,progress_refl h (by simpa [loadsOf, framesFor] using hframes),by simp [loadsOf],fun _ _ _ _ => rfl⟩
  | cons s rest ih =>
    by_cases ht : s.type = ptLoad
    · rw [loadsOf_cons_load ht] at hloads hapart hframes ⊢
      obtain ⟨hs,hrest⟩ := List.forall_mem_cons.mp hloads
      obtain ⟨hfirst,hpair⟩ := List.pairwise_cons.mp hapart
      rw [framesFor, List.map_cons, List.sum_cons, ← framesFor, Nat.add_assoc] at hframes
      obtain ⟨-,-,hinode,hoff⟩ := segment_read ram hs hsize hin
      obtain ⟨m₁,hseg,hprog,hloaded,hin₁,hold⟩ := segment_loaded h ram task hs hsize hin hframes
      have hframes₁ := (Nat.add_le_add_right (framesFor_mono hrest hprog.demand) r).trans hprog.left
      rw [← hprog.cr3] at hframes₁ hin₁
      rw [← hinode] at hsize hrest
      obtain ⟨x,hx,hprog',hall,hkeep⟩ := ih hprog.space (task.update s) hsize hoff hrest hpair hframes₁
      rw [hinode] at hall hrest
      have hcur : frameOf m.cr3 ∈ dirs := h.running.current
      refine ⟨x,?_,progress_trans hprog hprog',List.forall_mem_cons.mpr ⟨fun k hk => ?_,hall⟩,
        fun c hc hcin hout => ?_⟩
      · rw [loadEach, if_pos ht, hseg, ok_bind]
        exact hx
      · have hbelow := hs.pages_below
        have hal := hs.aligned
        have hadr := hs.toNat_byte hk
        rw [hkeep _ (by omega) (hin₁ _ (by omega) (by omega)) (outside_of_apart hs hrest hfirst hk hadr)]
        exact hloaded k hk
      · obtain ⟨hout₁,hout₂⟩ := List.forall_mem_cons.mp hout
        rw [hkeep c hc (by rw [hprog.cr3]; exact hprog.entered _ (by omega) hcin) hout₂,
          hold c hc hcin hout₁]
    · rw [loadsOf_cons_other ht] at hloads hapart hframes ⊢
      rw [loadEach, if_neg ht]
      exact ih h task hsize hin hloads hapart hframes

end

/-! ## The program header table -/

theorem wordAt_congr {b b' : ℕ → Byte} {i : ℕ} (h : ∀ j, j < 32 → b j = b' j) (hi : i+3 < 32) :
    wordAt b i = wordAt b' i := by
  rw [wordAt, wordAt, h i (by omega), h (i+1) (by omega), h (i+2) (by omega), h (i+3) (by omega)]

theorem readPhdr_congr {b b' : ℕ → Byte} (h : ∀ j, j < 32 → b j = b' j) : readPhdr b = readPhdr b' := by
  rw [readPhdr, readPhdr, wordAt_congr h (by omega), wordAt_congr h (by omega), wordAt_congr h (by omega),
    wordAt_congr h (by omega), wordAt_congr h (by omega), wordAt_congr h (by omega)]

theorem filled_byte (buffer : StackBuffer) {content : List Byte} {a c n : ℕ} (hn : n < c)
    (hc : a+c ≤ content.length) :
    buffer.filled ((content.drop a).take c) n = byteAt content (a+n) := by
  rw [StackBuffer.filled, byteAt, List.getD_eq_getElem?_getD, List.getD_eq_getElem?_getD,
    List.getElem?_take_of_lt hn, List.getElem?_drop, List.getElem?_eq_getElem (by omega)]
  rfl

/-- The table that the loader reads is the one in the file. -/
theorem segmentsOf_file (segments : StackBuffer) {content : List Byte} {elfHeader : Ehdr}
    (htable : elfHeader.phoff.toNat+32*elfHeader.phnum.toNat ≤ content.length) :
    segmentsOf (segments.filled ((content.drop elfHeader.phoff.toNat).take (32*elfHeader.phnum.toNat)))
      (elfHeader.phnum.setWidth 32) = phdrsOf content elfHeader := by
  have hnum : (elfHeader.phnum.setWidth 32).toNat = elfHeader.phnum.toNat := by
    have := elfHeader.phnum.isLt
    rw [BitVec.toNat_setWidth]
    omega
  rw [segmentsOf, phdrsOf, hnum]
  refine List.map_congr_left fun i hi => readPhdr_congr fun j hj => ?_
  have hi' := List.mem_range.mp hi
  rw [elfPhdrSize, filled_byte segments (by omega) htable]

/-- A table that lies in the file is read whole. -/
theorem table_inFile (ram : Ram) (segments : StackBuffer) {elfHeader : Ehdr} {file : FileT}
    (hin : file.offset ≤ file.inode.size) (hnum : 1 ≤ elfHeader.phnum.toNat) (hseek : elfHeader.phoff.toNat < 2^31)
    (htable : elfHeader.phoff.toNat+32*elfHeader.phnum.toNat ≤ file.inode.size.toNat) :
    ∃ t, loadProgramHeaderTable ram elfHeader segments (elfHeader.phnum.setWidth 32) file = t ∧ t.1 ≠ 0#32 ∧
      segmentsOf t.2.1 (elfHeader.phnum.setWidth 32) = phdrsOf (file.inode.content ram) elfHeader ∧
      t.2.2.inode = file.inode ∧ t.2.2.offset ≤ t.2.2.inode.size := by
  obtain ⟨hbytes,htab,hinode,hoff⟩ := table_read ram segments elfHeader file hin
  have hcur : cursor file.inode.size.toNat elfHeader.phoff file.offset.toNat = elfHeader.phoff.toNat := by
    rw [cursor, if_pos (by omega)]
  rw [hcur, Nat.min_eq_left (by omega)] at hbytes htab hoff
  refine ⟨_,rfl,fun h0 => ?_,?_,hinode,?_⟩
  · rw [h0, BitVec.toNat_ofNat] at hbytes
    omega
  · rw [htab, segmentsOf_file segments (by rw [content_length]; exact htable)]
  · rw [BitVec.le_def, hoff, hinode]
    exact htable

theorem segments_loaded {L : Layout} {dirs : List ℕ} {m : Machine} (h : InSpace L dirs m) (ram : Ram)
    (segments : StackBuffer) (elfHeader : Ehdr) (file : FileT) (task : Task) {r : ℕ}
    (hsize : file.inode.size.toNat < 2^31) (hin : file.offset ≤ file.inode.size)
    (hwell : WellFormed (file.inode.content ram) elfHeader)
    (hframes : framesFor m.mem (frameOf m.cr3) (loadsOf (phdrsOf (file.inode.content ram) elfHeader))+r ≤
      FramePool.left L.toKernelImage m.phys) :
    ∃ x, loadSegments (machineMemory L) ram segments elfHeader ⟨file, task, m⟩ = .ok (.success, x) ∧
      Progress L dirs r m x.memory ∧
      ∀ s ∈ loadsOf (phdrsOf (file.inode.content ram) elfHeader),
        Loaded (file.inode.content ram) x.memory s := by
  have htable := hwell.table
  have hloads := hwell.loads
  have hsome := hwell.some
  rw [content_length] at htable hloads
  have hpair := hwell.apart
  obtain ⟨t,ht,hne,hphdrs,hinode,hin'⟩ := table_inFile ram segments hin (by omega) (by omega) htable
  rw [← hphdrs] at hloads hframes hpair ⊢
  rw [← hinode] at hsize hloads ⊢
  obtain ⟨x,hx,hprog,hall,-⟩ := each_loaded h ram task hsize hin' hloads hpair hframes
  refine ⟨x,?_,hprog,hall⟩
  simp only [loadSegments, ht, if_neg hne]
  exact hx

/-! ## From the start of the kernel -/

def afterHeader (mode : Word) (node : FsNode) (headerBuf : StackBuffer) : FileT :=
  (fileRead (opened mode node) headerBuf.address (BitVec.ofNat 32 elfHeaderSize)).file

theorem opened_inside (mode : Word) (node : FsNode) : (opened mode node).offset ≤ (opened mode node).inode.size := by
  change 0#32 ≤ node.size
  bv_omega

theorem afterHeader_offset (mode : Word) (node : FsNode) (headerBuf : StackBuffer) :
    (afterHeader mode node headerBuf).offset.toNat = min 52 node.size.toNat := by
  have hin := opened_inside mode node
  have hav : available (opened mode node) (BitVec.ofNat 32 elfHeaderSize) = min 52 node.size.toNat := rfl
  rw [afterHeader, fileRead_eq _ _ _ headerBuf.placed hin, hav]
  change (0#32+BitVec.ofNat 32 (min 52 node.size.toNat)).toNat = _
  rw [BitVec.zero_add, BitVec.toNat_ofNat, Nat.mod_eq_of_lt (by omega)]

theorem afterHeader_range (mode : Word) (node : FsNode) (headerBuf : StackBuffer) :
    (afterHeader mode node headerBuf).inode = node ∧
      (afterHeader mode node headerBuf).offset ≤ (afterHeader mode node headerBuf).inode.size := by
  have hinode : (afterHeader mode node headerBuf).inode = node := fileRead_inode _ _ _
  refine ⟨hinode,?_⟩
  rw [hinode, BitVec.le_def, afterHeader_offset]
  omega

theorem inSpace_of_inv {L : Layout} {m : Machine} {live : List Vas} {vmm : Vas}
    (h : Inv L (.running m live)) (hv : vmm ∈ live) (hc : m.cr3 = vmm.physicalPgdAddress) :
    ∃ dirs, InSpace L dirs m := by
  obtain ⟨dirs,ranges,hkept⟩ := h
  refine ⟨dirs,hkept.running,fun he => ?_⟩
  refine (List.nodup_cons.mp hkept.distinct).1 (List.mem_map.mpr ⟨vmm,hv,?_⟩)
  rw [← hc, he]

/-- In a state that the kernel reaches with frames available, with an address
space in use, every well-formed file is loaded as it says, as long as the
frames its segments take are left. -/
theorem load_segments_faithful (L : Layout) (memory : Frames) (map : Ram) (mapAddr mapLength : Word)
    (fuel : ℕ) (phys : PhysicalMem) (m₀ m : Machine) (ops : List Op) (live : List Vas) (vmm : Vas)
    (ram : Ram) (mode : Word) (node : FsNode) (headerBuf segments : StackBuffer) (task : Task)
    (hinit : phyMemoryManagerInit L.toKernelImage map mapAddr mapLength fuel = .ok phys)
    (hstart : Boot.start L memory phys = .ok m₀)
    (hlast : Transition.Guarded (step L) (FramesLast L) ops (.running m₀ []))
    (hrun : Transition.run (step L) ops (.running m₀ []) = some (.running m live))
    (hvmm : vmm ∈ live) (hcr3 : m.cr3 = vmm.physicalPgdAddress)
    (hsize : node.size.toNat < 2^31)
    (hwell : WellFormed (node.content ram) (headerOf (node.content ram)))
    (hframes : framesFor m.mem (frameOf m.cr3)
      (loadsOf (phdrsOf (node.content ram) (headerOf (node.content ram)))) ≤
        FramePool.left L.toKernelImage m.phys) :
    ∃ x, loadSegments (machineMemory L) ram segments (headerOf (node.content ram))
        ⟨afterHeader mode node headerBuf, task, m⟩ = .ok (.success, x) ∧
      ∀ s ∈ loadsOf (phdrsOf (node.content ram) (headerOf (node.content ram))),
        Loaded (node.content ram) x.memory s := by
  obtain ⟨dirs,hspace⟩ := inSpace_of_inv (inv_of_run (inv_of_start hinit hstart) hlast hrun) hvmm hcr3
  obtain ⟨hinode,hin⟩ := afterHeader_range mode node headerBuf
  have hload := segments_loaded hspace ram segments (headerOf (node.content ram))
    (afterHeader mode node headerBuf) task (r := 0)
  rw [hinode] at hload hin
  obtain ⟨x,hx,-,hall⟩ := hload hsize hin hwell hframes
  exact ⟨x,hx,hall⟩

def twoSegmentsFile : FsNode := ⟨122#32, imageBase⟩

theorem twoSegments_phdrs : phdrsOf (twoSegmentsFile.content twoSegments)
    (headerOf (twoSegmentsFile.content twoSegments)) =
    [⟨1#32, 116#32, 0x40001000#32, 4#32, 4#32, 5#32⟩, ⟨1#32, 120#32, 0x40000000#32, 2#32, 6#32, 6#32⟩] := by
  decide +kernel

theorem twoSegments_loads : loadsOf (phdrsOf (twoSegmentsFile.content twoSegments)
    (headerOf (twoSegmentsFile.content twoSegments))) =
    [⟨1#32, 116#32, 0x40001000#32, 4#32, 4#32, 5#32⟩, ⟨1#32, 120#32, 0x40000000#32, 2#32, 6#32, 6#32⟩] := by
  rw [twoSegments_phdrs]
  decide

theorem twoSegments_wellFormed : WellFormed (twoSegmentsFile.content twoSegments)
    (headerOf (twoSegmentsFile.content twoSegments)) := by
  have hlen : (twoSegmentsFile.content twoSegments).length = 122 := content_length _ _
  refine ⟨by decide +kernel,by decide +kernel,by decide +kernel,by decide +kernel,by decide +kernel,?_,?_⟩
  · rw [twoSegments_loads, hlen]
    simp only [List.forall_mem_cons, List.not_mem_nil, false_implies, implies_true, and_true]
    exact ⟨by constructor <;> decide,by constructor <;> decide⟩
  · rw [twoSegments_loads]
    simp [Apart]

theorem twoSegments_loaded : ∃ phys m₀ m x,
    phyMemoryManagerInit smallLayout.toKernelImage (regionMap 0x80#8) 0x9000#32 1#32 2 = .ok phys ∧
    Boot.start smallLayout (fun _ _ => 0#32) phys = .ok m₀ ∧
    Transition.run (step smallLayout) [.alloc 0xC0801008#32, .switch firstSpace] (.running m₀ []) =
      some (.running m [firstSpace]) ∧
    loadSegments (machineMemory smallLayout) twoSegments stackBuffer
      (headerOf (twoSegmentsFile.content twoSegments))
      ⟨afterHeader 1#32 twoSegmentsFile stackBuffer, ⟨0#32, 0#32⟩, m⟩ = .ok (.success, x) ∧
    ∀ s ∈ loadsOf (phdrsOf (twoSegmentsFile.content twoSegments)
      (headerOf (twoSegmentsFile.content twoSegments))),
      Loaded (twoSegmentsFile.content twoSegments) x.memory s := by
  obtain ⟨phys,hinit,hbits⟩ := region_init 0x80#8 0x8000#32 (by decide) (by decide) (by decide)
  obtain ⟨m₀,hstart,hm⟩ := Boot.start_ok smallLayout (fun _ _ => 0#32) phys
  obtain ⟨phys',hcount,hinto⟩ := into_first_space (n := 8) (by omega) (by omega) hbits
    (FrameAllocator.init_reserved hinit).2 hm
  have hrun := (hinto []).1
  rw [Transition.run_nil] at hrun
  obtain ⟨x,hx,hall⟩ := load_segments_faithful smallLayout _ _ _ _ _ _ _ _ _ _ _ twoSegments 1#32 twoSegmentsFile
    stackBuffer stackBuffer ⟨0#32, 0#32⟩ hinit hstart ((hinto []).2 trivial) hrun List.mem_cons_self rfl (by decide)
    twoSegments_wellFormed (by
      rw [twoSegments_loads, framesFor]
      have hfirst := demand_le (inFirstSpace m₀ phys').mem (frameOf (inFirstSpace m₀ phys').cr3) 0x40001 1
      have hsecond := demand_le (inFirstSpace m₀ phys').mem (frameOf (inFirstSpace m₀ phys').cr3) 0x40000 1
      have hleft : FramePool.left smallLayout.toKernelImage (inFirstSpace m₀ phys').phys+1 = 8 := hcount
      simp only [List.map_cons, List.map_nil, List.sum_cons, List.sum_nil]
      change FrameDemand.demand _ _ 0x40001 1+(FrameDemand.demand _ _ 0x40000 1+0) ≤ _
      omega)
  exact ⟨phys,m₀,_,x,hinit,hstart,hrun,hx,hall⟩

end MikeOS.ElfLoad
