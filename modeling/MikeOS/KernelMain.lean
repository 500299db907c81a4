import MikeOS.AddressSpaces
import MikeOS.HeapFailure
import MikeOS.InitrdImage

/-!
# From the start of the heap to the ramdisk

`kmain` maps the screen to the heap, takes a page of it for the root mount
point and maps the module the boot loader left in memory. What
`register_ramdisk` does to the frames is a parameter, and what `kmalloc` and
`vfs_init` store in the page they take is any list of bytes.
-/

set_option autoImplicit false

namespace MikeOS.KernelMain
open BitArray Runs MikeOS.Memory MikeOS.Paging MikeOS.PhysicalMemory MikeOS.KernelHeap MikeOS.KernelHeapSearch
open MikeOS.KernelHeapRuns MikeOS.FrameAllocator MikeOS.Mmu MikeOS.VirtualMemory MikeOS.FramePool
open MikeOS.PageTables MikeOS.Boot MikeOS.PageDirectory MikeOS.Ownership MikeOS.FrameDemand MikeOS.AddressSpaces
open MikeOS.InitrdImage (FileSystem mappedPages)

/-! ## The steps of kmain -/

/-- `stopped`: a value is read that the source leaves undefined, or an access faults. The source does not say what
`kmain` does from there on. -/
inductive Halt where
  | panic
  | stopped (stop : Stop)
  deriving DecidableEq, Repr

def returning {α : Type} : Except Stop α → Except Halt α
  | .ok a => .ok a
  | .error stop => .error (.stopped stop)

structure BootModule where
  modStart : Word
  modEnd : Word
  deriving DecidableEq, Repr

/-- `mods` is the entry at `mods_addr`. -/
structure MultibootInfo where
  modsCount : Word
  mods : BootModule
  deriving DecidableEq, Repr

def vgaPhysicalAddress : Word := 0xb8000#32

def vgaInit (m : Machine) : Except Stop (Word × Machine) :=
  onHeap (mapPhysicalAddressToKheap vgaPhysicalAddress 2#32) m

def storeIn (page : Word) : List (Fin 4096 × Byte) → Machine → Except Stop Machine
  | [], m => .ok m
  | (i, b)::stores, m => do
    let m ← storeByte (page+BitVec.ofNat 32 i.val) b m
    storeIn page stores m

/-- `kmalloc` finds no free block and takes a page of the heap. `initialized` is
what the missing result of `initialize_list` reads as. -/
def vfsInit (L : Layout) (stores : List (Fin 4096 × Byte)) (initialized : Bool) (m : Machine) : Except Halt Machine := do
  let (page, m) ← returning (onHeap (allocKheapPages L.toKernelImage 1#32) m)
  if page = null then throw .panic
  let m ← returning (storeIn page stores m)
  if !initialized then throw .panic
  return m

abbrev RegisterRamdisk := Word → Word → PhysicalMem → ErrorCode × PhysicalMem

def makeInitrdFs (registerRamdisk : RegisterRamdisk) (info : MultibootInfo) (m : Machine) :
    Except Halt (FileSystem × Machine) := do
  if info.modsCount ≠ 1#32 then throw .panic
  let fs : FileSystem := ⟨info.mods.modStart, info.mods.modEnd⟩
  let registered := registerRamdisk fs.partitionBeginOffset fs.partitionEndOffset m.phys
  if registered.1 ≠ .success then throw .panic
  let numPages := mappedPages fs
  let (virtualAddress, m) ←
    returning (onHeap (mapPhysicalAddressToKheap fs.partitionBeginOffset numPages) (m.withPhys registered.2))
  if virtualAddress = null then throw .panic
  return (⟨virtualAddress, virtualAddress+numPages*pageSize⟩, m)

def kmain (L : Layout) (ram : Frames) (phys : PhysicalMem) (stores : List (Fin 4096 × Byte)) (initialized : Bool)
    (registerRamdisk : RegisterRamdisk) (info : MultibootInfo) : Except Halt (FileSystem × Machine) := do
  let m ← returning (Boot.start L ram phys)
  let (_, m) ← returning (vgaInit m)
  let m ← vfsInit L stores initialized m
  makeInitrdFs registerRamdisk info m

/-! ## Calls that map frames to the heap -/

theorem map_suitable (physicalAddress : Word) {k : Kheap} (hh : HighClear k.bitmap) {n : Word} (hn : n ≠ 0#32)
    {i s : ℕ} (hs : Suitable k.bitmap n.toNat i s) :
    ∃ k', mapPhysicalAddressToKheap physicalAddress n k = .ok (foundAddress i s, k') ∧
      k'.bitmap = taken k.bitmap n i s ∧ k'.phys = k.phys ∧
      ∀ q, k'.table q = if 8*i+s ≤ q ∧ q < 8*i+s+n.toNat then
        editEntryAttributes (physicalAddress+BitVec.ofNat 32 (q-(8*i+s))*pageSize) (readWrite ||| present)
        else k.table q := by
  have hin := hs.inside
  have hpos : 0 < n.toNat := by bv_omega
  have hentry := entry_foundAddress (i := i) (s := s) (by omega)
  have hcount : entryLoopCount (addressToPageTableEntry (foundAddress i s)) n = n.toNat := by
    have hlt := n.isLt
    rw [entryLoopCount, BitVec.toNat_add, hentry, Nat.mod_eq_of_lt (by omega)]
    omega
  have hphys : (registerPhysicalPages physicalAddress n k.phys).2 = k.phys :=
    HeapFailure.register_number physicalAddress (by rw [pageTableSize]; omega) k.phys
  have hstep : ∀ q k', (k'.bitmap = taken k.bitmap n i s ∧ k'.phys = k.phys) →
      ((KernelHeap.mapEntry physicalAddress (8*i+s) q k').bitmap = taken k.bitmap n i s ∧
        (KernelHeap.mapEntry physicalAddress (8*i+s) q k').phys = k.phys) := fun _ _ h => h
  have hbody : ∀ q k', (k'.bitmap = taken k.bitmap n i s ∧ k'.phys = k.phys) →
      (KernelHeap.mapEntry physicalAddress (8*i+s) q k').table = Function.update k'.table q (editEntryAttributes
        (physicalAddress+BitVec.ofNat 32 (q-(8*i+s))*pageSize) (readWrite ||| present)) := fun _ _ _ => rfl
  obtain ⟨k',hfill,⟨hb,hp⟩,htab⟩ := overEntries_fill hstep hbody n.toNat (8*i+s)
    (k := { k with bitmap := taken k.bitmap n i s }) (by rw [pageTableSize]; omega) ⟨rfl,rfl⟩
  refine ⟨k',?_,hb,hp,htab⟩
  rw [mapPhysicalAddressToKheap, search_suitable hh hn hs, searchThen]
  simp only [hentry, hcount, hphys]
  rw [taken] at hfill
  rw [hfill]

theorem map_fault (physicalAddress : Word) {k : Kheap} (hh : HighClear k.bitmap) {n : Word} (hn : n ≠ 0#32)
    {i s : ℕ} (hf : Found k.bitmap n.toNat i s) (hi : 8*i+s < 1024) (hlt : 1024 < 8*i+s+n.toNat) :
    mapPhysicalAddressToKheap physicalAddress n k = .error .pageFault := by
  have hbound := found_bounds hh hf
  have hentry := entry_foundAddress hi
  have hcount : entryLoopCount (addressToPageTableEntry (foundAddress i s)) n = n.toNat := by
    have hle := hbound.2.2
    rw [entryLoopCount, BitVec.toNat_add, hentry, Nat.mod_eq_of_lt (by omega)]
    omega
  rw [mapPhysicalAddressToKheap]
  rcases search_cases hh hn with ⟨hclear,-⟩ | ⟨-,hnone,-⟩ | ⟨j,t,ht,hg⟩
  · exact absurd hclear (not_clear_of_firstByte hf.first (by omega))
  · exact absurd hf (hnone i s)
  · obtain ⟨rfl,rfl⟩ := found_unique hf ht
    rw [hg, searchThen]
    simp only [hentry, hcount]
    rw [overEntries_fault _ (by rw [pageTableSize]; omega) (by rw [pageTableSize]; omega)]

theorem map_undefined (physicalAddress : Word) {k : Kheap} {n : Word}
    (hg : getFreeContinuousBlocksAddress n k.bitmap = .error .undefined) :
    mapPhysicalAddressToKheap physicalAddress n k = .error .undefined := by
  rw [mapPhysicalAddressToKheap, hg, searchThen]

/-- A search that looks at no byte returns `NULL`, and the loop over the entries
starts at the first one. -/
theorem map_null (physicalAddress : Word) {k : Kheap} {n : Word} {bitmap : Bytes} (hn : 1024 < n.toNat)
    (hg : getFreeContinuousBlocksAddress n k.bitmap = .ok (null, bitmap)) :
    mapPhysicalAddressToKheap physicalAddress n k = .error .pageFault := by
  have hentry : addressToPageTableEntry null = 0#32 := by decide
  have hcount : entryLoopCount 0#32 n = n.toNat := by
    rw [entryLoopCount]
    simp
  rw [mapPhysicalAddressToKheap, hg, searchThen]
  simp only [hentry, hcount]
  rw [overEntries_fault _ (by simp) (by rw [pageTableSize, BitVec.toNat_zero]; omega)]

theorem search_zero {bitmap : Bytes} (h : bitmap 0 ≠ 0#8) :
    getFreeContinuousBlocksAddress 0#32 bitmap = .error .undefined := by
  obtain ⟨fuel,hfuel⟩ : ∃ fuel, searchBound 0#32 = fuel+1 := ⟨131070,by rw [searchBound_eq]; rfl⟩
  rw [getFreeContinuousBlocksAddress, hfuel, searchBlocks, if_neg (by decide), if_pos h, if_neg (by decide)]
  rfl

theorem onHeap_error {α : Type} {m : Machine} {D H : ℕ} (h : HeapMapped m D H)
    {f : Kheap → Except Stop (α × Kheap)} {stop : Stop} (hf : f ⟨m.heapBitmap, m.mem H, m.phys⟩ = .error stop) :
    onHeap f m = .error stop := by
  rw [onHeap, walk_heapTable h, ok_bind, hf]
  rfl

/-- Pages of the heap for which a call of `map_physical_address_to_kheap` returns
when all pages from `a` on are free. -/
def MapsFrom (a n : ℕ) : Prop := 0 < n ∧ a+n < chunk n ∧ a+n ≤ 1024

instance (a n : ℕ) : Decidable (MapsFrom a n) := inferInstanceAs (Decidable (_ ∧ _))

theorem map_stops (physicalAddress : Word) {k : Kheap} {a : ℕ} (h : FreeFrom k.bitmap a) (ha : a < 8) {n : Word}
    (hn : ¬ MapsFrom a n.toNat) : ∃ stop, mapPhysicalAddressToKheap physicalAddress n k = .error stop := by
  have hh := freeFrom_high h
  have hfirst := firstByte_freeFrom h ha
  by_cases h0 : n = 0#32
  · subst h0
    exact ⟨_,map_undefined physicalAddress (search_zero hfirst.1)⟩
  · have hpos : 0 < n.toNat := by bv_omega
    rcases search_cases hh h0 with ⟨hclear,hg⟩ | ⟨-,-,hg⟩ | ⟨i,s,hf,-⟩
    · have hlarge : 1024 < n.toNat := by
        by_contra hle
        exact hfirst.1 (hclear.2 0 (by omega))
      exact ⟨_,map_null physicalAddress hlarge hg⟩
    · exact ⟨_,map_undefined physicalAddress hg⟩
    · obtain ⟨rfl,rfl,hlt,-⟩ := (found_freeFrom h ha hpos i s).mp hf
      have hout : 1024 < s+n.toNat := by
        by_contra hle
        exact hn ⟨hpos,hlt,by omega⟩
      exact ⟨_,map_fault physicalAddress hh h0 hf (by omega) (by omega)⟩

/-! ## What is kept -/

def Outside (L : Layout) (mem : Frames) (dirs : List ℕ) (f : ℕ) : Prop :=
  f ∉ reserved L ∧ f ∉ dirs ∧ ∀ D ∈ dirs, ∀ i, ¬ TableAt mem D i f

structure Took (L : Layout) (n : Word) (i s : ℕ) (e : ℕ → Word) (m m' : Machine) : Prop where
  cr3 : m'.cr3 = m.cr3
  heapBitmap : m'.heapBitmap = taken m.heapBitmap n i s
  rows : ∀ g, g ≠ L.kheapPageTables → m'.mem g = m.mem g
  table : ∀ q, m'.mem L.kheapPageTables q =
    if 8*i+s ≤ q ∧ q < 8*i+s+n.toNat then e q else m.mem L.kheapPageTables q

section
variable {L : Layout} {dirs : List ℕ} {ranges : List Range} {m : Machine} {live : List Vas}

theorem kept_outside (h : Kept L dirs ranges m live) {f : ℕ} (hf : Outside L m.mem dirs f) (words : ℕ → Word) :
    Kept L dirs ranges (m.withMem (setFrame m.mem f words)) live := by
  obtain ⟨hres,hdir,htab⟩ := hf
  have hrow : ∀ g, g ≠ f → setFrame m.mem f words g = m.mem g := fun g hg => setFrame_frame _ _ hg
  have howned := (owned_frame (setFrame m.mem f words) h.running.owned
    (fun D hD => hrow D fun he => hdir (he ▸ hD))
    (fun D hD i t ht => hrow t fun he => htab D hD i (he ▸ ht))
    (fun i hi => hrow _ fun he => hres (he ▸ kernel_reserved L hi))).1
  refine ⟨⟨howned,h.running.flag,h.running.current⟩,h.pages,fun vmm hv => ?_,h.distinct,h.apart⟩
  obtain ⟨D,p,hk⟩ := h.known vmm hv
  refine ⟨D,p,hk.member,hk.physical,hk.page,hk.address,?_,hk.range⟩
  rw [withMem_mem, hrow _ fun he => hres (he ▸ heap_reserved L)]
  exact hk.entry

theorem took_kept (h : Kept L dirs ranges m live) {n : Word} (hn : n ≠ 0#32) {i s : ℕ}
    (hs : Suitable m.heapBitmap n.toNat i s) {k : Kheap} (hb : k.bitmap = taken m.heapBitmap n i s)
    {e : ℕ → Word} (he : ∀ q, k.table q =
      if 8*i+s ≤ q ∧ q < 8*i+s+n.toNat then e q else m.mem L.kheapPageTables q)
    (hflag : FlagSound L.toKernelImage k.phys)
    (hkeep : ∀ q, bit m.phys.bitmap q = false → bit k.phys.bitmap q = false) :
    Kept L dirs (⟨foundAddress i s, n⟩::ranges) (Machine.withHeap m L.kheapPageTables k) live ∧
      Took L n i s e m (Machine.withHeap m L.kheapPageTables k) := by
  have htable : ∀ q, (Machine.withHeap m L.kheapPageTables k).mem L.kheapPageTables q = k.table q := fun q =>
    congrFun (setFrame_self _ _ _) q
  refine ⟨⟨running_withHeap h.running hflag hkeep,?_,fun vmm hv => ?_,h.distinct,h.apart⟩,
    rfl,hb,fun g hg => setFrame_frame _ _ hg,fun q => (htable q).trans (he q)⟩
  · change PagesInv k.bitmap _
    rw [hb]
    exact alloc_inv h.pages hn hs
  · obtain ⟨D,p,hk⟩ := h.known vmm hv
    refine ⟨D,p,hk.member,hk.physical,hk.page,hk.address,?_,List.mem_cons_of_mem _ hk.range⟩
    have hout := known_outside h.pages hk hs
    rw [htable, he, if_neg (by omega)]
    exact hk.entry

theorem map_kept (h : Kept L dirs ranges m live) {n : Word} (hn : n ≠ 0#32) {i s : ℕ}
    (hs : Suitable m.heapBitmap n.toNat i s) (physicalAddress : Word) :
    ∃ m', onHeap (mapPhysicalAddressToKheap physicalAddress n) m = .ok (foundAddress i s, m') ∧
      Kept L dirs (⟨foundAddress i s, n⟩::ranges) m' live ∧ m'.phys = m.phys ∧
      Took L n i s (fun q => editEntryAttributes (physicalAddress+BitVec.ofNat 32 (q-(8*i+s))*pageSize)
        (readWrite ||| present)) m m' := by
  obtain ⟨k,hcall,hb,hp,htab⟩ := map_suitable physicalAddress
    (k := ⟨m.heapBitmap, m.mem L.kheapPageTables, m.phys⟩) h.pages.high hn hs
  obtain ⟨hkept,htook⟩ := took_kept h hn hs hb htab (by rw [hp]; exact h.running.flag)
    (fun q hq => by rw [hp]; exact hq)
  exact ⟨_,onHeap_ok (heapMapped_of_running h.running) hcall,hkept,hp,htook⟩

theorem page_kept (h : Kept L dirs ranges m live) {i s f : ℕ} (hs : Suitable m.heapBitmap 1 i s) (hf : f < 2^20)
    {phys : PhysicalMem} (ha : allocatePhysicalPage L.toKernelImage m.phys = (frameAddress f, phys)) :
    ∃ m', onHeap (allocKheapPages L.toKernelImage 1#32) m = .ok (foundAddress i s, m') ∧
      Kept L dirs (⟨foundAddress i s, 1#32⟩::ranges) m' live ∧ m'.phys = phys ∧
      Took L 1#32 i s (fun _ => entry f 3) m m' := by
  have hcall := allocKheapPages_one L.toKernelImage (k := ⟨m.heapBitmap, m.mem L.kheapPageTables, m.phys⟩)
    h.pages.high hf hs ha
  have hentries : ∀ q, Function.update (m.mem L.kheapPageTables) (8*i+s) (entry f 3) q =
      if 8*i+s ≤ q ∧ q < 8*i+s+(1#32).toNat then entry f 3 else m.mem L.kheapPageTables q := fun q => by
    rw [Function.update_apply, show (1#32).toNat = 1 from rfl]
    exact if_congr (by omega) rfl rfl
  have hflag : FlagSound L.toKernelImage phys := by
    have := allocate_flagSound h.running.flag
    rwa [ha] at this
  obtain ⟨hkept,htook⟩ := took_kept h (n := 1#32) (by decide) hs (k := ⟨taken m.heapBitmap 1#32 i s,
    Function.update (m.mem L.kheapPageTables) (8*i+s) (entry f 3), phys⟩) rfl hentries hflag
    (fun q hq => (allocate_fresh hf ha).2 q hq)
  exact ⟨_,onHeap_ok (heapMapped_of_running h.running) hcall,hkept,rfl,htook⟩

theorem heapPage_walk {D H p f : ℕ} {a v : Word} (h : HeapPage m D H p f a) {i : ℕ} (hi : i < 4096)
    (hv : v = a+BitVec.ofNat 32 i) : walk m v = .ok f ∧ wordIndex v = i/4 ∧ v.toNat%4 = i%4 := by
  have hadr : v.toNat = windowBase+4096*p+i := by
    have ha := h.address
    have hp := h.page
    unfold windowBase at *
    subst hv
    bv_omega
  have hp := h.page
  have hH : frameOf (m.mem D 770) = H := by rw [h.mapped.heap, frameOf_entry h.mapped.lt (by omega)]
  unfold windowBase at hadr
  refine ⟨walk_eq h.mapped.current.cr3 (i := 770) (j := p) (by omega) (by omega) ?_ ?_ ?_,?_,by omega⟩
  · rw [h.mapped.heap]
    exact isPresent_entry (by omega)
  · rw [hH, h.entry]
    exact isPresent_entry (by omega)
  · rw [hH, h.entry, frameOf_entry h.frame (by omega)]
  · rw [wordIndex, hadr]
    omega

theorem storeIn_ok {D p f : ℕ} {a : Word} (h : HeapPage m D L.kheapPageTables p f a) (hfD : f ≠ D)
    (hfH : f ≠ L.kheapPageTables) (stores : List (Fin 4096 × Byte)) (words : ℕ → Word) :
    ∃ words', storeIn a stores (m.withMem (setFrame m.mem f words)) = .ok (m.withMem (setFrame m.mem f words')) := by
  induction stores generalizing words with
  | nil => exact ⟨words,rfl⟩
  | cons st stores ih =>
    obtain ⟨i,b⟩ := st
    obtain ⟨hw,hidx,-⟩ := heapPage_walk (heapPage_setFrame h hfD hfH words) i.isLt rfl
    have hstore : storeByte (a+BitVec.ofNat 32 i.val) b (m.withMem (setFrame m.mem f words)) =
        .ok (m.withMem (setFrame m.mem f (Function.update words (i.val/4)
          (Words.setByte (words (i.val/4)) ((a+BitVec.ofNat 32 i.val).toNat%4) b)))) := by
      rw [storeByte, hw, hidx, ok_bind]
      simp only [withMem_mem, withMem_withMem, setWord_setFrame, setFrame_self]
      rfl
    obtain ⟨words',hrest⟩ := ih (Function.update words (i.val/4)
      (Words.setByte (words (i.val/4)) ((a+BitVec.ofNat 32 i.val).toNat%4) b))
    exact ⟨words',by rw [storeIn, hstore, ok_bind, hrest]⟩

end

/-! ## Up to the mount point -/

section
variable {L : Layout} {phys : PhysicalMem} {ram : Frames}

theorem start_rows {m : Machine} (h : Boot.start L ram phys = .ok m) {g : ℕ}
    (hg : g ∉ [L.kernelPageTables, L.kernelPageTables+1, L.kheapPageTables, L.initPageDirectory]) :
    m.mem g = ram g := by
  simp only [List.mem_cons, List.not_mem_nil, or_false, not_or] at hg
  obtain ⟨h0,h1,h2,h3⟩ := hg
  obtain ⟨m₀,hm₀⟩ : ∃ m₀ : Machine, m₀ = ⟨pagingInit L (loadTables L ram), frameAddress L.initPageDirectory,
    fun _ => 0#8, phys, []⟩ := ⟨_,rfl⟩
  have hmem : m₀.mem = pagingInit L (loadTables L ram) := by rw [hm₀]
  have hD : L.initPageDirectory < 2^20 := static_lt L (by simp)
  have hcur : Current m₀ L.initPageDirectory :=
    ⟨by rw [hm₀]; exact frameOf_frameAddress hD,hD,by rw [hmem, pagingInit_eq, setFrame_self, Function.update_self]⟩
  have hptr := directoryPtr (i := 770) (by omega)
  have hcur' := current_setWord hcur (f := L.initPageDirectory) (i := 770) (frameAddress L.kheapPageTables)
    (Or.inr (by omega))
  have hwrite : mapKheapToPgd L recursivePgtAddress m₀ = .ok (m₀.withMem
      (setWord m₀.mem L.initPageDirectory 770 (entry L.kheapPageTables 3))) := by
    rw [mapKheapToPgd, if_neg (by decide), show kheapPgdEntry = 770 by decide, kernelAttributes_eq,
      writeEntry_ok (static_lt L (by simp)) (by omega) (walk_directory hcur hptr.1), hptr.2]
    rw [hptr.2]
    exact walk_directory hcur' hptr.1
  rw [Boot.start] at h
  simp only [← hm₀] at h
  rw [hwrite, ok_bind] at h
  cases h
  change setWord m₀.mem L.initPageDirectory 770 _ g = ram g
  rw [setWord_frame _ _ _ h3, hmem, pagingInit_eq, setFrame_frame _ _ h3, tables_frame L _ h0 h1, loadTables,
    setFrame_frame _ _ h3, setFrame_frame _ _ h2, setFrame_frame _ _ h1, setFrame_frame _ _ h0]

structure Mounting (L : Layout) (ram : Frames) (phys : PhysicalMem) (f : ℕ) (m : Machine) : Prop where
  kept : Kept L [L.initPageDirectory] [⟨foundAddress 0 2, 1#32⟩, ⟨foundAddress 0 0, 2#32⟩] m []
  free : FreeFrom m.heapBitmap 3
  lt : f < 2^20
  allocated : allocatePhysicalPage L.toKernelImage phys = (frameAddress f, m.phys)
  directory : m.mem L.initPageDirectory = bootDirectory L
  mountPage : m.mem L.kheapPageTables 2 = entry f 3
  screen : ∀ q, q < 2 → m.mem L.kheapPageTables q = entry (0xb8+q) 3
  empty : ∀ q, 2 < q → m.mem L.kheapPageTables q = 0#32
  cr3 : m.cr3 = frameAddress L.initPageDirectory
  rows : ∀ g, g ∉ [L.kernelPageTables, L.kernelPageTables+1, L.kheapPageTables, L.initPageDirectory] →
    g ≠ f → m.mem g = ram g

theorem allocated_not_static (htaken : ∀ f ∈ [L.kernelPageTables, L.kernelPageTables+1, L.kheapPageTables,
    L.initPageDirectory], bit phys.bitmap f = false) {f : ℕ} (hf : f < 2^20) {phys' : PhysicalMem}
    (ha : allocatePhysicalPage L.toKernelImage phys = (frameAddress f, phys')) :
    f ∉ [L.kernelPageTables, L.kernelPageTables+1, L.kheapPageTables, L.initPageDirectory] := by
  intro hmem
  have h0 : f ≠ 0 := by
    have := (L.placed f hmem).1
    omega
  exact (allocate_fresh hf ha).1 f h0 (htaken f hmem) rfl

theorem screen_frame {q : ℕ} (hq : q < 2) :
    editEntryAttributes (vgaPhysicalAddress+BitVec.ofNat 32 q*pageSize) (readWrite ||| present) =
      entry (0xb8+q) 3 := by
  rcases (show q = 0 ∨ q = 1 by omega) with rfl | rfl <;> decide

theorem vgaInit_ok {m : Machine} (h : Started L phys m)
    (hk : Kept L [L.initPageDirectory] [] m []) :
    ∃ m', vgaInit m = .ok (foundAddress 0 0, m') ∧
      Kept L [L.initPageDirectory] [⟨foundAddress 0 0, 2#32⟩] m' [] ∧ m'.phys = phys ∧
      FreeFrom m'.heapBitmap 2 ∧
      Took L 2#32 0 0 (fun q => editEntryAttributes (vgaPhysicalAddress+BitVec.ofNat 32 q*pageSize)
        (readWrite ||| present)) m m' := by
  have hfree := started_free h
  have hsuit : Suitable m.heapBitmap (2#32).toNat 0 0 :=
    suitable_freeFrom hfree (by omega) (by decide) (by decide) (by decide)
  obtain ⟨m',hcall,hkept,hphys,htook⟩ := map_kept hk (by decide) hsuit vgaPhysicalAddress
  refine ⟨m',hcall,hkept,hphys.trans h.phys_eq,?_,htook⟩
  rw [htook.heapBitmap]
  exact freeFrom_taken hfree (by decide)

theorem mounting (ram : Frames)
    (hs : ∀ f ∈ [L.kernelPageTables, L.kernelPageTables+1, L.kheapPageTables, L.initPageDirectory],
      bit phys.bitmap f = false) (hflag : FlagSound L.toKernelImage phys) (stores : List (Fin 4096 × Byte))
    (initialized : Bool) (registerRamdisk : RegisterRamdisk) (info : MultibootInfo) :
    ∃ f m, Mounting L ram phys f m ∧ kmain L ram phys stores initialized registerRamdisk info =
      if initialized then makeInitrdFs registerRamdisk info m else .error .panic := by
  obtain ⟨m₀,hstart,hm₀⟩ := start_ok L ram phys
  obtain ⟨m₁,hvga,hk₁,hphys₁,hfree₁,htook₁⟩ := vgaInit_ok hm₀ (kept_of_started hm₀ hs hflag)
  obtain ⟨f,phys',hf,ha,-⟩ := allocate_pair L.toKernelImage phys
  have hstatic := allocated_not_static hs hf ha
  have hHD := (static_ne L).2.2.2.2
  have hfH : f ≠ L.kheapPageTables := by
    rintro rfl
    exact hstatic (by simp)
  have hfD : f ≠ L.initPageDirectory := by
    rintro rfl
    exact hstatic (by simp)
  have hsuit : Suitable m₁.heapBitmap 1 0 2 :=
    suitable_freeFrom hfree₁ (by omega) (by decide) (by decide) (by decide)
  obtain ⟨m₂,hheap,hk₂,hphys₂,htook₂⟩ := page_kept hk₁ hsuit hf (by rw [hphys₁]; exact ha)
  have hdir : m₂.mem L.initPageDirectory = bootDirectory L := by
    rw [htook₂.rows _ (Ne.symm hHD), htook₁.rows _ (Ne.symm hHD), hm₀.directory]
  have hcr3 : m₂.cr3 = frameAddress L.initPageDirectory := by rw [htook₂.cr3, htook₁.cr3, hm₀.cr3]
  have hentry : m₂.mem L.kheapPageTables 2 = entry f 3 := by rw [htook₂.table, if_pos (by decide)]
  have hpage : HeapPage m₂ L.initPageDirectory L.kheapPageTables 2 f (foundAddress 0 2) := by
    have hmap := heapMapped_of_running hk₂.running
    rw [hcr3, frameOf_frameAddress (static_lt L (by simp))] at hmap
    exact ⟨hmap,by omega,toNat_foundAddress (by omega),hf,hentry⟩
  obtain ⟨words,hstore⟩ := storeIn_ok hpage hfD hfH stores (m₂.mem f)
  rw [show m₂.withMem (setFrame m₂.mem f (m₂.mem f)) = m₂ by simp [setFrame, Machine.withMem]] at hstore
  have hout : Outside L m₂.mem [L.initPageDirectory] f := by
    refine ⟨fun hr => hstatic (reserved_static hr),by simpa using hfD,fun D hD i ht => ?_⟩
    obtain rfl := List.mem_singleton.mp hD
    rw [TableAt, hdir, ← hm₀.directory] at ht
    exact boot_no_table hm₀ i f ht
  refine ⟨f,_,⟨kept_outside hk₂ hout words,?_,hf,by rw [withMem_phys, hphys₂]; exact ha,?_,?_,fun q hq => ?_,
    fun q hq => ?_,hcr3,fun g hg hgf => ?_⟩,?_⟩
  · rw [withMem_heapBitmap, htook₂.heapBitmap]
    exact freeFrom_taken hfree₁ (by decide)
  · rw [withMem_mem, setFrame_frame _ _ (Ne.symm hfD), hdir]
  · rw [withMem_mem, setFrame_frame _ _ (Ne.symm hfH), hentry]
  · rw [withMem_mem, setFrame_frame _ _ (Ne.symm hfH), htook₂.table, if_neg (by omega), htook₁.table,
      if_pos (by rw [show (2#32).toNat = 2 from rfl]; omega)]
    exact screen_frame hq
  · rw [withMem_mem, setFrame_frame _ _ (Ne.symm hfH), htook₂.table,
      if_neg (by rw [show (1#32).toNat = 1 from rfl]; omega), htook₁.table,
      if_neg (by rw [show (2#32).toNat = 2 from rfl]; omega), hm₀.heapTable]
  · have hgH : g ≠ L.kheapPageTables := by
      rintro rfl
      exact hg (by simp)
    rw [withMem_mem, setFrame_frame _ _ hgf, htook₂.rows _ hgH, htook₁.rows _ hgH, start_rows hstart hg]
  · have hvfs : vfsInit L stores initialized m₁ =
        if initialized then .ok (m₂.withMem (setFrame m₂.mem f words)) else .error .panic := by
      rw [vfsInit, hheap, returning, ok_bind]
      simp only [if_neg (found_ne_null (show 8*0+2 < 32768 by omega))]
      rw [hstore]
      cases initialized <;> rfl
    rw [kmain, hstart, returning, ok_bind, hvga, returning, ok_bind]
    simp only
    rw [hvfs]
    cases initialized <;> rfl

/-! ## The ramdisk -/

def imagePages (info : MultibootInfo) : Word := mappedPages ⟨info.mods.modStart, info.mods.modEnd⟩

def ramdiskAddress : Word := 0xC0803000#32

def ramdisk (info : MultibootInfo) : FileSystem :=
  ⟨ramdiskAddress, ramdiskAddress+imagePages info*pageSize⟩

theorem mounting_mapped {f : ℕ} {m : Machine} (h : Mounting L ram phys f m) (phys' : PhysicalMem) :
    HeapMapped (m.withPhys phys') (frameOf m.cr3) L.kheapPageTables := by
  have hmap := heapMapped_of_running h.kept.running
  exact ⟨⟨hmap.current.cr3,hmap.current.lt,hmap.current.self⟩,hmap.lt,hmap.ne,hmap.heap⟩

theorem ramdisk_suitable {f : ℕ} {m : Machine} (h : Mounting L ram phys f m) {n : Word} (hn : MapsFrom 3 n.toNat) :
    n ≠ 0#32 ∧ Suitable m.heapBitmap n.toNat 0 3 := by
  refine ⟨fun h0 => ?_,suitable_freeFrom h.free (by omega) hn.1 hn.2.1 hn.2.2⟩
  rw [h0] at hn
  exact absurd hn.1 (by decide)

theorem makeInitrdFs_maps {m m' : Machine} {registerRamdisk : RegisterRamdisk} {info : MultibootInfo}
    (hone : info.modsCount = 1#32) {phys' : PhysicalMem}
    (hreg : registerRamdisk info.mods.modStart info.mods.modEnd m.phys = (.success, phys'))
    (hheap : onHeap (mapPhysicalAddressToKheap info.mods.modStart (imagePages info)) (m.withPhys phys') =
      .ok (foundAddress 0 3, m')) :
    makeInitrdFs registerRamdisk info m = .ok (ramdisk info, m') := by
  rw [makeInitrdFs, if_neg (not_not.mpr hone)]
  simp only [hreg]
  rw [if_neg (by simp)]
  change (do let (virtualAddress, m) ← returning (onHeap (mapPhysicalAddressToKheap info.mods.modStart
    (imagePages info)) (m.withPhys phys')); _) = _
  rw [hheap, returning, ok_bind]
  simp only [if_neg (found_ne_null (show 8*0+3 < 32768 by omega))]
  rfl

theorem makeInitrdFs_stops {f : ℕ} {m : Machine} (h : Mounting L ram phys f m) {registerRamdisk : RegisterRamdisk}
    {info : MultibootInfo} (hone : info.modsCount = 1#32) {phys' : PhysicalMem}
    (hreg : registerRamdisk info.mods.modStart info.mods.modEnd m.phys = (.success, phys'))
    (hn : ¬ MapsFrom 3 (imagePages info).toNat) :
    ∃ stop, makeInitrdFs registerRamdisk info m = .error (.stopped stop) := by
  obtain ⟨stop,hcall⟩ := map_stops info.mods.modStart
    (k := ⟨m.heapBitmap, m.mem L.kheapPageTables, phys'⟩) h.free (by omega) hn
  refine ⟨stop,?_⟩
  have hheap := onHeap_error (mounting_mapped h phys') hcall
  rw [makeInitrdFs, if_neg (not_not.mpr hone)]
  simp only [hreg]
  rw [if_neg (by simp)]
  change (do let (virtualAddress, m) ← returning (onHeap (mapPhysicalAddressToKheap info.mods.modStart
    (imagePages info)) (m.withPhys phys')); _) = _
  rw [hheap]
  rfl

theorem makeInitrdFs_panics {m : Machine} {registerRamdisk : RegisterRamdisk} {info : MultibootInfo}
    (hone : info.modsCount ≠ 1#32) : makeInitrdFs registerRamdisk info m = .error .panic := by
  rw [makeInitrdFs, if_pos hone]
  rfl

theorem reserved_flag {image : KernelImage} {map : Ram} {mapAddr mapLength : Word} {fuel : ℕ}
    (hinit : phyMemoryManagerInit image map mapAddr mapLength fuel = .ok phys) : FlagSound image phys := fun hf => by
  rw [(init_reserved hinit).2] at hf
  cases hf

theorem kmain_ok {map : Ram} {mapAddr mapLength : Word} {fuel : ℕ} {stores : List (Fin 4096 × Byte)}
    {initialized : Bool} {registerRamdisk : RegisterRamdisk} {info : MultibootInfo} {fs : FileSystem} {m : Machine}
    (hinit : phyMemoryManagerInit L.toKernelImage map mapAddr mapLength fuel = .ok phys)
    (hreg : ∀ s, (registerRamdisk info.mods.modStart info.mods.modEnd s).1 = .success)
    (hmain : kmain L ram phys stores initialized registerRamdisk info = .ok (fs, m)) :
    fs = ramdisk info ∧ MapsFrom 3 (imagePages info).toNat ∧ ∃ f m₀, Mounting L ram phys f m₀ ∧
      onHeap (mapPhysicalAddressToKheap info.mods.modStart (imagePages info))
        (m₀.withPhys (registerRamdisk info.mods.modStart info.mods.modEnd m₀.phys).2) =
          .ok (foundAddress 0 3, m) := by
  obtain ⟨f,m₀,hm₀,hcall⟩ := mounting ram (fun f hf => static_taken hinit hf) (reserved_flag hinit)
    stores initialized registerRamdisk info
  rw [hcall] at hmain
  cases initialized with
  | false => cases hmain
  | true => ?_
  rw [if_pos rfl] at hmain
  by_cases hone : info.modsCount = 1#32
  · have hok : registerRamdisk info.mods.modStart info.mods.modEnd m₀.phys =
        (.success, (registerRamdisk info.mods.modStart info.mods.modEnd m₀.phys).2) := Prod.ext (hreg _) rfl
    by_cases hn : MapsFrom 3 (imagePages info).toNat
    · obtain ⟨h0,hsuit⟩ := ramdisk_suitable hm₀ hn
      obtain ⟨k,hmap,-,-,-⟩ := map_suitable info.mods.modStart (k := ⟨m₀.heapBitmap, m₀.mem L.kheapPageTables,
        (registerRamdisk info.mods.modStart info.mods.modEnd m₀.phys).2⟩) (freeFrom_high hm₀.free) h0 hsuit
      have hheap := onHeap_ok (mounting_mapped hm₀ (registerRamdisk info.mods.modStart info.mods.modEnd m₀.phys).2)
        hmap
      rw [makeInitrdFs_maps hone hok hheap] at hmain
      cases hmain
      exact ⟨rfl,hn,f,m₀,hm₀,hheap⟩
    · obtain ⟨stop,hstop⟩ := makeInitrdFs_stops hm₀ hone hok hn
      rw [hstop] at hmain
      cases hmain
  · rw [makeInitrdFs_panics hone] at hmain
    cases hmain

end

def registerRange : RegisterRamdisk := fun first last s => (.success, (registerPhysicalPages first last s).2)

end MikeOS.KernelMain
