import MikeOS.Boot
import MikeOS.KernelHeapRuns

/-!
# Making and taking down a page directory

A directory that is not in use is written through the heap page it was given.
The two functions that work on whole directories are restated as updates of
frames: what a new directory holds, and that tearing one down frees no frame
when all entries carry attributes.
-/

set_option autoImplicit false

namespace MikeOS.PageDirectory
open BitArray Runs MikeOS.Memory MikeOS.Paging MikeOS.PhysicalMemory MikeOS.KernelHeap MikeOS.KernelHeapSearch
open MikeOS.Boot MikeOS.KernelHeapRuns MikeOS.Mmu MikeOS.VirtualMemory MikeOS.FramePool MikeOS.PageTables

structure HeapMapped (m : Machine) (D H : ℕ) : Prop where
  current : Current m D
  lt : H < 2^20
  ne : H ≠ D
  heap : m.mem D 770 = entry H 3

def Machine.withHeap (m : Machine) (H : ℕ) (k : Kheap) : Machine :=
  { m with heapBitmap := k.bitmap, mem := setFrame m.mem H k.table, phys := k.phys }

theorem kheapPgdEntry_eq : kheapPgdEntry = 770 := by decide

theorem walk_heapTable {m : Machine} {D H : ℕ} (h : HeapMapped m D H) :
    walk m kheapRecursiveAddress = .ok H := by
  have hw := walk_table h.current (v := kheapRecursiveAddress) (i := 770) (by omega) (by decide)
    (by rw [h.heap]; exact isPresent_entry (by omega))
  rwa [h.heap, frameOf_entry h.lt (by omega)] at hw

theorem onHeap_ok {α : Type} {m : Machine} {D H : ℕ} (h : HeapMapped m D H)
    {f : Kheap → Except Stop (α × Kheap)} {a : α} {k : Kheap}
    (hf : f ⟨m.heapBitmap, m.mem H, m.phys⟩ = .ok (a, k)) : onHeap f m = .ok (a, Machine.withHeap m H k) := by
  rw [onHeap, walk_heapTable h, ok_bind, hf]
  rfl

theorem onHeap_eq_ok {α : Type} {m m' : Machine} {D H : ℕ} (h : HeapMapped m D H)
    {f : Kheap → Except Stop (α × Kheap)} {a : α} (hf : onHeap f m = .ok (a, m')) :
    ∃ k, f ⟨m.heapBitmap, m.mem H, m.phys⟩ = .ok (a, k) ∧ m' = Machine.withHeap m H k := by
  rw [onHeap, walk_heapTable h, ok_bind] at hf
  cases hc : f ⟨m.heapBitmap, m.mem H, m.phys⟩ with
  | error stop =>
    rw [hc] at hf
    cases hf
  | ok r =>
    rw [hc] at hf
    cases hf
    exact ⟨r.2,rfl,rfl⟩

/-! ## Writing through a heap page -/

structure HeapPage (m : Machine) (D H p f : ℕ) (a : Word) : Prop where
  mapped : HeapMapped m D H
  page : p < 1024
  address : a.toNat = windowBase+4096*p
  frame : f < 2^20
  entry : m.mem H p = Mmu.entry f 3

theorem heapPtr {a : Word} {p i : ℕ} (hp : p < 1024) (ha : a.toNat = windowBase+4096*p) (hi : i < 1024) :
    (entryPtr a i).toNat/2^22 = 770 ∧ (entryPtr a i).toNat/4096%1024 = p ∧
      wordIndex (entryPtr a i) = i := by
  have h : (entryPtr a i).toNat = windowBase+4096*p+4*i := by
    rw [entryPtr]
    unfold windowBase at *
    bv_omega
  unfold wordIndex windowBase at *
  omega

theorem walk_heapPage {m : Machine} {D H p f : ℕ} {a : Word} (h : HeapPage m D H p f a) {i : ℕ}
    (hi : i < 1024) : walk m (entryPtr a i) = .ok f := by
  obtain ⟨hd,ht,-⟩ := heapPtr h.page h.address hi
  have hH : frameOf (m.mem D 770) = H := by rw [h.mapped.heap, frameOf_entry h.mapped.lt (by omega)]
  refine walk_eq h.mapped.current.cr3 hd ht ?_ ?_ ?_
  · rw [h.mapped.heap]
    exact isPresent_entry (by omega)
  · rw [hH, h.entry]
    exact isPresent_entry (by omega)
  · rw [hH, h.entry, frameOf_entry h.frame (by omega)]

theorem heapPage_withMem {m : Machine} {D H p f : ℕ} {a : Word} (h : HeapPage m D H p f a) {mem : Frames}
    (hD : mem D = m.mem D) (hH : mem H = m.mem H) : HeapPage (m.withMem mem) D H p f a := by
  refine ⟨⟨⟨h.mapped.current.cr3,h.mapped.current.lt,?_⟩,h.mapped.lt,h.mapped.ne,?_⟩,h.page,h.address,
    h.frame,?_⟩
  · rw [withMem_mem, hD, h.mapped.current.self]
  · rw [withMem_mem, hD, h.mapped.heap]
  · rw [withMem_mem, hH, h.entry]

theorem load_heapPage {m : Machine} {D H p f : ℕ} {a : Word} (h : HeapPage m D H p f a) {i : ℕ}
    (hi : i < 1024) : loadWord (entryPtr a i) m = .ok (m.mem f i) := by
  rw [loadWord_ok (walk_heapPage h hi), (heapPtr h.page h.address hi).2.2]

theorem write_heapPage {m : Machine} {D H p f : ℕ} {a : Word} (h : HeapPage m D H p f a)
    (hfD : f ≠ D) (hfH : f ≠ H) {i g : ℕ} (hi : i < 1024) (hg : g < 2^20) :
    writeEntry (entryPtr a i) (frameAddress g) kernelAttributes m =
      .ok (m.withMem (setWord m.mem f i (entry g 3))) := by
  have hw := (heapPtr h.page h.address hi).2.2
  have h' : HeapPage (m.withMem (setWord m.mem f i (frameAddress g))) D H p f a :=
    heapPage_withMem h (setWord_frame _ _ _ (Ne.symm hfD)) (setWord_frame _ _ _ (Ne.symm hfH))
  rw [kernelAttributes_eq, writeEntry_ok hg (by omega) (walk_heapPage h hi), hw]
  rw [hw]
  exact walk_heapPage h' hi

/-! ## Pages of the heap -/

def taken (bitmap : Bytes) (n : Word) (i s : ℕ) : Bytes :=
  writeFrom bitmap i (turnBitsOff (fromByte bitmap i) (BitVec.ofNat 32 s) n)

theorem bit_taken {bitmap : Bytes} {i s n : ℕ} {w : Word} (hw : w.toNat = n) (hn : s+n < 2^31) (p : ℕ) :
    bit (taken bitmap w i s) p = (!decide (8*i+s ≤ p ∧ p < 8*i+s+n) && bit bitmap p) := by
  rw [taken, bit_writeFrom _ (by omega), hw]

theorem entry_foundAddress {i s : ℕ} (h : 8*i+s < 1024) :
    (addressToPageTableEntry (foundAddress i s)).toNat = 8*i+s := by
  rw [toNat_addressToPageTableEntry, toNat_foundAddress (by omega)]
  unfold windowBase
  omega

theorem allocKheapPages_suitable (image : KernelImage) {k : Kheap} (hh : HighClear k.bitmap) {n : Word}
    (hn : n ≠ 0#32) {i s : ℕ} (hs : Suitable k.bitmap n.toNat i s) :
    allocKheapPages image n k = searchThen (.ok (foundAddress i s, taken k.bitmap n i s))
      fun _ bitmap => overEntries (allocEntry image) n.toNat (8*i+s) { k with bitmap := bitmap } := by
  have hin := hs.inside
  have hpos : 0 < n.toNat := by bv_omega
  have hentry := entry_foundAddress (i := i) (s := s) (by omega)
  have hcount : entryLoopCount (addressToPageTableEntry (foundAddress i s)) n = n.toNat := by
    have hlt := n.isLt
    rw [entryLoopCount, BitVec.toNat_add, hentry, Nat.mod_eq_of_lt (by omega)]
    omega
  rw [allocKheapPages, search_suitable hh hn hs]
  simp only [searchThen, allocAndMapPhysicalPages, hcount, hentry, taken]

theorem allocKheapPages_filled (image : KernelImage) {k k' : Kheap} (hh : HighClear k.bitmap) {n : Word}
    (hn : n ≠ 0#32) {i s : ℕ} (hs : Suitable k.bitmap n.toNat i s)
    (hfill : overEntries (allocEntry image) n.toNat (8*i+s) { k with bitmap := taken k.bitmap n i s } = .ok k') :
    allocKheapPages image n k = .ok (foundAddress i s, k') := by
  rw [allocKheapPages_suitable image hh hn hs, searchThen]
  simp only [hfill]

theorem allocKheapPages_one (image : KernelImage) {k : Kheap} (hh : HighClear k.bitmap) {i s f : ℕ}
    {phys : PhysicalMem} (hf : f < 2^20) (hs : Suitable k.bitmap 1 i s)
    (ha : allocatePhysicalPage image k.phys = (frameAddress f, phys)) :
    allocKheapPages image 1#32 k = .ok (foundAddress i s,
      ⟨taken k.bitmap 1#32 i s, Function.update k.table (8*i+s) (entry f 3), phys⟩) := by
  have hin := hs.inside
  refine allocKheapPages_filled image hh (n := 1#32) (by decide) hs ?_
  simp only [show (1#32).toNat = 1 from rfl, overEntries,
    if_pos (show 8*i+s < pageTableSize by rw [pageTableSize]; omega), allocEntry, Kheap.setEntry, ha]
  have hattr : readWrite ||| present = BitVec.ofNat 32 3 := by decide
  rw [hattr, frameAddress_or hf (by omega)]

theorem kheapGetPhysicalAddress_eq {k : Kheap} {a : Word} {p f : ℕ} (hp : p < 1024)
    (ha : a.toNat = windowBase+4096*p) (hf : f < 2^20) (he : k.table p = entry f 3) :
    kheapGetPhysicalAddress k a = frameAddress f := by
  have hbegin : a ≥ kheapBeginAddress := by
    change kheapBeginAddress.toNat ≤ a.toNat
    rw [toNat_begin]
    omega
  have hend : a < kheapEndAddress := by
    change a.toNat < kheapEndAddress.toNat
    rw [toNat_end]
    omega
  have hindex : (addressToPageTableEntry a).toNat = p := by
    rw [toNat_addressToPageTableEntry]
    unfold windowBase at ha
    omega
  rw [kheapGetPhysicalAddress, if_neg (not_not.mpr ⟨hbegin,hend⟩),
    if_neg (not_not.mpr ((pageBoundary_eq_iff a).mpr (by unfold windowBase at ha; omega))), hindex, he]
  apply BitVec.eq_of_toNat_eq
  rw [BitVec.toNat_shiftLeft, BitVec.toNat_ushiftRight, toNat_entry hf (by omega),
    toNat_frameAddress hf, Nat.shiftRight_eq_div_pow, Nat.shiftLeft_eq]
  omega

/-! ## A new directory -/

def newDirectory (L : Layout) (f : ℕ) : ℕ → Word :=
  Function.update (Function.update (Function.update (Function.update (fun _ => 0#32)
    768 (entry L.kernelPageTables 3)) 769 (entry (L.kernelPageTables+1) 3))
    770 (entry L.kheapPageTables 3)) 1023 (entry f 3)

theorem setWord_setFrame (mem : Frames) (f i : ℕ) (words : ℕ → Word) (w : Word) :
    setWord (setFrame mem f words) f i w = setFrame mem f (Function.update words i w) := by
  simp [setWord, setFrame]

def withDirectory (L : Layout) (m : Machine) (i s f : ℕ) (phys : PhysicalMem) : Machine where
  mem := setFrame (setWord m.mem L.kheapPageTables (8*i+s) (entry f 3)) f (newDirectory L f)
  cr3 := m.cr3
  heapBitmap := taken m.heapBitmap 1#32 i s
  phys := phys
  grants := m.grants

section
variable {L : Layout} {m : Machine} {D f p : ℕ} {a : Word}

theorem heapPage_setFrame (h : HeapPage m D L.kheapPageTables p f a) (hfD : f ≠ D)
    (hfH : f ≠ L.kheapPageTables) (words : ℕ → Word) :
    HeapPage (m.withMem (setFrame m.mem f words)) D L.kheapPageTables p f a :=
  heapPage_withMem h (setFrame_frame _ _ (Ne.symm hfD)) (setFrame_frame _ _ (Ne.symm hfH))

theorem write_words (h : HeapPage m D L.kheapPageTables p f a) (hfD : f ≠ D) (hfH : f ≠ L.kheapPageTables)
    (words : ℕ → Word) {j g : ℕ} (hj : j < 1024) (hg : g < 2^20) :
    writeEntry (entryPtr a j) (frameAddress g) kernelAttributes (m.withMem (setFrame m.mem f words)) =
      .ok (m.withMem (setFrame m.mem f (Function.update words j (entry g 3)))) := by
  rw [write_heapPage (heapPage_setFrame h hfD hfH words) hfD hfH hj hg, withMem_mem, withMem_withMem,
    setWord_setFrame]

theorem clear_heapPage (h : HeapPage m D L.kheapPageTables p f a) :
    clearPage a m = .ok (m.withMem (setFrame m.mem f fun _ => 0#32)) := by
  have hw := walk_heapPage h (i := 0) (by omega)
  rw [entryPtr, show BitVec.ofNat 32 (4*0) = 0#32 from rfl, BitVec.add_zero] at hw
  exact clearPage_ok hw

theorem physical_words (h : HeapPage m D L.kheapPageTables p f a) (hfD : f ≠ D)
    (hfH : f ≠ L.kheapPageTables) (words : ℕ → Word) :
    onHeap (fun k => .ok (kheapGetPhysicalAddress k a, k)) (m.withMem (setFrame m.mem f words)) =
      .ok (frameAddress f, m.withMem (setFrame m.mem f words)) := by
  have hwords := heapPage_setFrame h hfD hfH words
  have hk := kheapGetPhysicalAddress_eq (k := ⟨(m.withMem (setFrame m.mem f words)).heapBitmap,
    (m.withMem (setFrame m.mem f words)).mem L.kheapPageTables,
    (m.withMem (setFrame m.mem f words)).phys⟩) hwords.page hwords.address hwords.frame hwords.entry
  rw [onHeap_ok hwords.mapped (by rw [hk])]
  simp [Machine.withHeap, Machine.withMem, setFrame]

/-- The loop over the kernel's slots, by induction on its rounds. -/
theorem copyKernel_range (h : HeapPage m D L.kheapPageTables p f a) (hfD : f ≠ D) (hfH : f ≠ L.kheapPageTables) {n : ℕ}
    (hn : n ≤ 2) :
    (List.range' 768 n).foldlM (fun m i => writeEntry (entryPtr a i) (frameAddress (L.kernelPageTables+(i-768)))
        kernelAttributes m) (m.withMem (setFrame m.mem f fun _ => 0#32)) =
      .ok (m.withMem (setFrame m.mem f (kernelSlots L 768 n fun _ => 0#32))) := by
  induction n with
  | zero =>
    rw [kernelSlots_zero]
    rfl
  | succ n ih =>
    rw [List.range'_1_concat, List.foldlM_append, ih (by omega), ok_bind, List.foldlM_cons, Nat.add_sub_cancel_left,
      write_words h hfD hfH _ (by omega) (kernelTable_lt L (by omega)), ok_bind, List.foldlM_nil, kernelSlots_succ]
    rfl

theorem copyKernel_words (h : HeapPage m D L.kheapPageTables p f a) (hfD : f ≠ D)
    (hfH : f ≠ L.kheapPageTables) :
    copyKernel L a (m.withMem (setFrame m.mem f fun _ => 0#32)) =
      .ok (m.withMem (setFrame m.mem f (Function.update (Function.update (fun _ => 0#32)
        768 (entry L.kernelPageTables 3)) 769 (entry (L.kernelPageTables+1) 3)))) := by
  rw [show Function.update (Function.update (fun _ => 0#32) 768 (entry L.kernelPageTables 3)) 769
    (entry (L.kernelPageTables+1) 3) = kernelSlots L 768 2 fun _ => 0#32 from (kernelSlots_two L 768 _).symm]
  exact copyKernel_range (n := 2) h hfD hfH le_rfl

end

theorem allocPageDir_ok (L : Layout) {m : Machine} {D i s f : ℕ} {phys : PhysicalMem}
    (h : HeapMapped m D L.kheapPageTables) (hh : HighClear m.heapBitmap) (hs : Suitable m.heapBitmap 1 i s)
    (hf : f < 2^20) (hfD : f ≠ D) (hfH : f ≠ L.kheapPageTables)
    (ha : allocatePhysicalPage L.toKernelImage m.phys = (frameAddress f, phys)) :
    allocPageDir L m = .ok (some ⟨foundAddress i s, frameAddress f⟩, withDirectory L m i s f phys) := by
  have hin := hs.inside
  have hadr := toNat_foundAddress (i := i) (s := s) (by omega)
  have hne : foundAddress i s ≠ null := found_ne_null (by omega)
  obtain ⟨m₁,hm₁⟩ : ∃ m₁, m₁ = Machine.withHeap m L.kheapPageTables ⟨taken m.heapBitmap 1#32 i s,
    Function.update (m.mem L.kheapPageTables) (8*i+s) (entry f 3), phys⟩ := ⟨_,rfl⟩
  have hmem : m₁.mem = setWord m.mem L.kheapPageTables (8*i+s) (entry f 3) := by
    rw [hm₁]
    rfl
  have hpage : HeapPage m₁ D L.kheapPageTables (8*i+s) f (foundAddress i s) := by
    have hD : m₁.mem D = m.mem D := by rw [hmem, setWord_frame _ _ _ (Ne.symm h.ne)]
    have hcr3 : m₁.cr3 = m.cr3 := by rw [hm₁]; rfl
    refine ⟨⟨⟨by rw [hcr3, h.current.cr3],h.current.lt,by rw [hD, h.current.self]⟩,h.lt,h.ne,
      by rw [hD, h.heap]⟩,by omega,hadr,hf,by rw [hmem, setWord_self]⟩
  have hheap := onHeap_ok h (f := allocKheapPages L.toKernelImage 1#32)
    (allocKheapPages_one L.toKernelImage (k := ⟨m.heapBitmap, m.mem L.kheapPageTables, m.phys⟩) hh hf hs ha)
  rw [← hm₁] at hheap
  rw [allocPageDir, hheap, ok_bind]
  simp only [if_neg hne]
  rw [clear_heapPage hpage, ok_bind, copyKernel_words hpage hfD hfH, ok_bind, mapKheapToPgd, if_neg hne,
    kheapPgdEntry_eq, write_words hpage hfD hfH _ (by omega) (static_lt L (by simp)), ok_bind,
    physical_words hpage hfD hfH, ok_bind]
  simp only
  rw [write_words hpage hfD hfH _ (by omega) hf, ok_bind, hmem, hm₁]
  rfl

/-! ## Taking a directory down -/

def Tagged (e : Word) : Prop := e = 0#32 ∨ e.toNat%4096 ≠ 0

def TaggedSlot (mem : Frames) (D i : ℕ) : Prop :=
  mem D i = 0#32 ∨ isPresent (mem D i) = true ∧ (mem D i).toNat%4096 ≠ 0 ∧
    ∀ j, j < 1024 → Tagged (mem (frameOf (mem D i)) j)

theorem withPhys_self (m : Machine) : m.withPhys m.phys = m := rfl

theorem freeIfSet_tagged {e : Word} (h : Tagged e) (m : Machine) : freeIfSet e m = m := by
  rw [freeIfSet]
  rcases h with rfl | he
  · rw [if_neg (by simp)]
  · rw [freePhysicalPage_unaligned _ _ he, withPhys_self]
    split <;> rfl

theorem freeTable_tagged {m : Machine} {D i : ℕ} (h : Current m D) (hi : i < 1024)
    (hp : isPresent (m.mem D i) = true) (ht : ∀ j, j < 1024 → Tagged (m.mem (frameOf (m.mem D i)) j))
    {count j : ℕ} (hj : j+count ≤ 1024) : freeTable i count j m = .ok m := by
  induction count generalizing j with
  | zero => rfl
  | succ count ih =>
    rw [freeTable, show pageTableSize = 1024 from rfl, load_table h hi (by omega) hp, ok_bind,
      freeIfSet_tagged (ht j (by omega)), ih (by omega)]

theorem freeTables_tagged {m : Machine} {D H p : ℕ} {vmm : Vas} (h : HeapPage m D H p D vmm.pageDirectory)
    (hs : ∀ i, i < 768 → TaggedSlot m.mem D i) {count i : ℕ} (hi : i+count ≤ 768) :
    freeTables vmm count i m = .ok m := by
  induction count generalizing i with
  | zero => rfl
  | succ count ih =>
    rw [freeTables, load_heapPage h (by omega), ok_bind]
    rcases hs i (by omega) with h0 | ⟨hp,he,ht⟩
    · rw [if_neg (not_not.mpr h0)]
      exact ih (by omega)
    · have hne : m.mem D i ≠ 0#32 := fun h0 => he (by rw [h0]; rfl)
      rw [if_pos hne, freeTable_tagged h.mapped.current (by omega) hp ht (by rw [pageTableSize]), ok_bind,
        load_heapPage h (by omega), ok_bind, freePhysicalPage_unaligned _ _ he, withPhys_self]
      exact ih (by omega)

theorem toNat_heapIndex {a : Word} {p : ℕ} (ha : a.toNat = windowBase+4096*p) :
    (addressToBitIndex a kheapBeginAddress).toNat = p := by
  have hle : kheapBeginAddress ≤ a := by
    change kheapBeginAddress.toNat ≤ a.toNat
    rw [toNat_begin]
    omega
  rw [toNat_addressToBitIndex _ _ (by decide) hle, toNat_begin]
  omega

theorem freeKheapPages_one {k : Kheap} {a : Word} {p : ℕ} (hp : p < 1024)
    (ha : a.toNat = windowBase+4096*p) (he : (k.table p).toNat%4096 ≠ 0) :
    freeKheapPages a 1#32 k = .ok (.success,
      ⟨turnBitsOn k.bitmap (BitVec.ofNat 32 p) 1#32, Function.update k.table p 0#32, k.phys⟩) := by
  have hbegin : a ≥ kheapBeginAddress := by
    change kheapBeginAddress.toNat ≤ a.toNat
    rw [toNat_begin]
    omega
  have hend : a < kheapEndAddress := by
    change a.toNat < kheapEndAddress.toNat
    rw [toNat_end]
    omega
  have hindex : addressToPageTableEntry a = BitVec.ofNat 32 p := by
    apply BitVec.eq_of_toNat_eq
    rw [toNat_addressToPageTableEntry, BitVec.toNat_ofNat, ha]
    unfold windowBase
    omega
  have hbit : addressToBitIndex a kheapBeginAddress = BitVec.ofNat 32 p := by
    apply BitVec.eq_of_toNat_eq
    rw [toNat_heapIndex ha, BitVec.toNat_ofNat, Nat.mod_eq_of_lt (by omega)]
  have hpn : (BitVec.ofNat 32 p).toNat = p := by rw [BitVec.toNat_ofNat, Nat.mod_eq_of_lt (by omega)]
  have hcount : entryLoopCount (BitVec.ofNat 32 p) 1#32 = 1 := by
    rw [entryLoopCount, BitVec.toNat_add, hpn, show (1#32).toNat = 1 from rfl, Nat.mod_eq_of_lt (by omega)]
    omega
  rw [freeKheapPages, if_neg (not_not.mpr ⟨hbegin,hend⟩),
    if_neg (not_not.mpr ((pageBoundary_eq_iff a).mpr (by unfold windowBase at ha; omega)))]
  simp only [hindex, hbit, hcount, hpn, overEntries, if_pos (show p < pageTableSize from hp), freeEntry,
    Kheap.setEntry, freePhysicalPage_unaligned _ _ he]

def withoutPage (m : Machine) (H p : ℕ) : Machine where
  mem := setWord m.mem H p 0#32
  cr3 := m.cr3
  heapBitmap := turnBitsOn m.heapBitmap (BitVec.ofNat 32 p) 1#32
  phys := m.phys
  grants := m.grants

/-- Tearing down the directory in use gives back its heap page and nothing else. -/
theorem freeVirtualAddressSpace_tagged {m : Machine} {D H p : ℕ} {vmm : Vas}
    (h : HeapPage m D H p D vmm.pageDirectory) (hs : ∀ i, i < 768 → TaggedSlot m.mem D i) :
    freeVirtualAddressSpace vmm m = .ok (.success, withoutPage m H p) := by
  have he : (m.mem H p).toNat%4096 ≠ 0 := by
    rw [h.entry, toNat_entry h.frame (by omega)]
    omega
  rw [freeVirtualAddressSpace, freeTables_tagged h hs (by rw [userSpaceLimit]; omega), ok_bind,
    onHeap_ok h.mapped (freeKheapPages_one (k := ⟨m.heapBitmap, m.mem H, m.phys⟩) h.page h.address he),
    ok_bind]
  rfl

/-! ## A heap that is free from a page on -/

def FreeFrom (bitmap : Bytes) (a : ℕ) : Prop := ∀ p, bit bitmap p = decide (a ≤ p ∧ p < 32768)

section
variable {bitmap : Bytes} {a n : ℕ}

theorem freeFrom_high (h : FreeFrom bitmap a) : HighClear bitmap := fun p hp => by
  rw [h, decide_eq_false (by omega)]

theorem freeFrom_taken (h : FreeFrom bitmap a) {n : Word} (hn : a+n.toNat < 32768) :
    FreeFrom (taken bitmap n 0 a) (a+n.toNat) := fun p => by
  rw [bit_taken rfl (by omega), h, ← decide_not, ← Bool.decide_and, Nat.mul_zero, Nat.zero_add]
  exact decide_eq_decide.mpr (by omega)

theorem firstByte_freeFrom (h : FreeFrom bitmap a) (ha : a < 8) : FirstByte bitmap 0 := by
  refine ⟨fun h0 => ?_,by simp⟩
  have hbit := (byte_eq_zero_iff bitmap 0).mp h0 a (by omega)
  rw [h, decide_eq_true (by omega)] at hbit
  cases hbit

theorem avail_freeFrom (h : FreeFrom bitmap a) (q : ℕ) : avail bitmap 0 q = decide (a ≤ q ∧ q < 32768) := by
  rw [avail, h]
  exact decide_eq_decide.mpr (by omega)

theorem count_freeFrom (h : FreeFrom bitmap a) {m : ℕ} (hm : a+m ≤ 32768) : count (avail bitmap 0) (a+m) = m := by
  have hnone : count (avail bitmap 0) a = 0 := by
    rw [count, Nat.count_iff_forall_not]
    intro q hq
    rw [avail_freeFrom h, decide_eq_false (by omega)]
    simp
  rw [count_add (fun q hq => by rw [avail_freeFrom h, decide_eq_true (by omega)]), hnone, Nat.zero_add]

theorem runTo_freeFrom (h : FreeFrom bitmap a) {m : ℕ} (hm : a+m < 32768) : RunTo (avail bitmap 0) a (a+m) := by
  refine ⟨by omega,fun q h1 h2 => by rw [avail_freeFrom h, decide_eq_true (by omega)],?_⟩
  by_cases h0 : a = 0
  · exact Or.inl h0
  · exact Or.inr (by rw [avail_freeFrom h, decide_eq_false (by omega)])

/-- The search counts up to the last page it needs and must not have reached
the end of the bytes it looks at. -/
theorem found_freeFrom (h : FreeFrom bitmap a) (ha : a < 8) (hn : 0 < n) (i s : ℕ) :
    Found bitmap n i s ↔ i = 0 ∧ s = a ∧ a+n < chunk n ∧ a+n ≤ 32768 := by
  constructor
  · rintro ⟨hfirst,e,hrun,hcount,hlt⟩
    obtain rfl := firstByte_unique hfirst (firstByte_freeFrom h ha)
    have hav := hrun.holds e hrun.le (le_refl e)
    rw [avail_freeFrom h, decide_eq_true_eq] at hav
    obtain ⟨m,rfl⟩ : ∃ m, e = a+m := ⟨e-a,by omega⟩
    rw [count_freeFrom h (by omega)] at hcount
    exact ⟨rfl,hrun.unique (runTo_freeFrom h hav.2),by omega,by omega⟩
  · rintro ⟨rfl,rfl,hlt,hle⟩
    refine ⟨firstByte_freeFrom h ha,s+(n-1),runTo_freeFrom h (by omega),?_,by omega⟩
    rw [count_freeFrom h (by omega)]
    omega

theorem suitable_freeFrom (h : FreeFrom bitmap a) (ha : a < 8) (hn : 0 < n) (hlt : a+n < chunk n)
    (hle : a+n ≤ 1024) : Suitable bitmap n 0 a := by
  refine suitable_of_found ((found_freeFrom h ha hn 0 a).mpr ⟨rfl,rfl,hlt,by omega⟩) (fun q hq => ?_) (by omega)
  rw [h, decide_eq_true (by omega)]

end

theorem started_free {L : Layout} {phys : PhysicalMem} {m : Machine} (h : Started L phys m) :
    FreeFrom m.heapBitmap 0 := fun p => by
  rw [h.heapBitmap, bit_kheapInit]
  exact decide_eq_decide.mpr (by omega)

end MikeOS.PageDirectory
