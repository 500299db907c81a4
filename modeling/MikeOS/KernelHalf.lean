import MikeOS.AddressSpaces

/-!
# The kernel half of every directory

Above the user pages all directories hold the same: the two tables of the
kernel, the table of the heap and, last, themselves. A run makes address
spaces, switches between them, takes and frees pages of the heap and maps user
pages, also when no frame is left for these. A call that does not return ends
in a state of its own.
-/

set_option autoImplicit false

namespace MikeOS.KernelHalf
open BitArray MikeOS.Memory MikeOS.Paging MikeOS.PhysicalMemory MikeOS.KernelHeap MikeOS.KernelHeapSearch
open MikeOS.KernelHeapRuns MikeOS.FrameAllocator MikeOS.Mmu
open MikeOS.VirtualMemory MikeOS.FramePool MikeOS.PageTables MikeOS.Boot MikeOS.PageDirectory MikeOS.Mmaps
open MikeOS.Ownership MikeOS.FrameDemand MikeOS.Teardown
open MikeOS.AddressSpaces (directories bootDirectory_user static_taken)

inductive Op where
  | heap (numPages : Word)
  | release (address numPages : Word)
  | alloc (record : Word)
  | switch (vmm : Vas)
  | mmap (virtualAddress numPages : Word)
  deriving DecidableEq, Repr

/-- `ranges` are those that `alloc_kheap_pages` returned and that were not freed. -/
inductive State where
  | running (m : Machine) (live : List Vas) (ranges : List Range)
  | stopped

def returned {α : Type} (next : α → State) : Option (Except Stop α) → State
  | some (.ok a) => next a
  | _ => .stopped

def withRange (address numPages : Word) (ranges : List Range) : List Range :=
  if address = null then ranges else ⟨address, numPages⟩ :: ranges

def directoryPages (live : List Vas) : List Range := live.map fun vmm => ⟨vmm.pageDirectory, 1#32⟩

def HoldsNone (live : List Vas) (r : Range) : Prop := ∀ d ∈ directoryPages live, Extent.Apart r.extent d.extent

instance (live : List Vas) (r : Range) : Decidable (HoldsNone live r) :=
  inferInstanceAs (Decidable (∀ d ∈ directoryPages live, _ ∨ _))

def rounds : ℕ := 0x100000

/-- Only address spaces that exist are switched to, and only live ranges that
hold no directory are freed. -/
def step (L : Layout) : State → Op → Option State
  | .stopped, _ => none
  | .running m live ranges, .heap n =>
    some (returned (fun r => .running r.2 live (withRange r.1 n ranges))
      (some (onHeap (allocKheapPages L.toKernelImage n) m)))
  | .running m live ranges, .release address n =>
    if ⟨address, n⟩ ∈ ranges ∧ HoldsNone live ⟨address, n⟩ then
      some (returned (fun r => .running r.2 live (ranges.erase ⟨address, n⟩))
        (some (onHeap (freeKheapPages address n) m)))
    else none
  | .running m live ranges, .alloc record =>
    some (returned (fun r => .running r.2 (r.1.toList ++ live) (directoryPages r.1.toList ++ ranges))
      (some (allocVirtualAddressSpace L record m)))
  | .running m live ranges, .switch vmm =>
    if vmm ∈ live then some (.running (switchVirtualAddressSpace vmm m).2 live ranges) else none
  | .running m live ranges, .mmap v n =>
    some (returned (fun r => .running r.2 live ranges) (mmapCall L rounds v n m))

/-! ## The property -/

structure SharedHalf (L : Layout) (mem : Frames) (D : ℕ) : Prop where
  kernel : ∀ i, i < 2 → mem D (768+i) = entry (L.kernelPageTables+i) 3
  heap : mem D 770 = entry L.kheapPageTables 3
  self : mem D 1023 = entry D 3
  empty : ∀ i, 770 < i → i < 1023 → mem D i = 0#32

def inSpace (m : Machine) (D : ℕ) : Machine := { m with cr3 := frameAddress D }

structure Agree (L : Layout) (m : Machine) (live : List Vas) : Prop where
  half : ∀ D ∈ directories L live, SharedHalf L m.mem D
  same : ∀ D ∈ directories L live, ∀ D' ∈ directories L live, ∀ v : Word, 0xC0000000 ≤ v.toNat →
    v.toNat < 0xC0C00000 → walk (inSpace m D) v = walk (inSpace m D') v

def Coherent (L : Layout) : State → Prop
  | .stopped => False
  | .running m live _ => Agree L m live

/-- The call returned pages of the window that no live range holds, and the
frames it entered for them are not `NULL`. -/
def Backed (L : Layout) (ranges : List Range) (n : Word) (outcome : Except Stop (Word × Machine)) : Prop :=
  ∃ address m, outcome = .ok (address, m) ∧ Placed ⟨address, n⟩ ∧
    (∀ r ∈ ranges, Extent.Apart (Range.extent ⟨address, n⟩) r.extent) ∧
    ∀ p, KernelHeapRuns.Covers ⟨address, n⟩ p → frameOf (m.mem L.kheapPageTables p) ≠ 0

def HeapServes (L : Layout) : State → Op → Prop
  | .running m _ ranges, .heap n => Backed L ranges n (onHeap (allocKheapPages L.toKernelImage n) m)
  | .running m _ ranges, .alloc record =>
    record = null ∨ Backed L ranges 1#32 (onHeap (allocKheapPages L.toKernelImage 1#32) m)
  | _, _ => True

/-! ## The invariant -/

/-- A frame that is no directory and no table of the kernel and that is not
handed out again. -/
def Spare (L : Layout) (dirs : List ℕ) (phys : PhysicalMem) (f : ℕ) : Prop :=
  f ∉ dirs ∧ f ∉ reserved L ∧ (f = 0 ∨ bit phys.bitmap f = false)

def UserSlot (L : Layout) (mem : Frames) (dirs : List ℕ) (phys : PhysicalMem) (D i : ℕ) : Prop :=
  mem D i = 0#32 ∨ (i < 2 ∧ mem D i = entry (L.kernelPageTables+i) 3) ∨
    (isPresent (mem D i) = true ∧ Spare L dirs phys (frameOf (mem D i)))

structure Half (L : Layout) (mem : Frames) (dirs : List ℕ) (phys : PhysicalMem) : Prop where
  shared : ∀ D ∈ dirs, SharedHalf L mem D
  slots : ∀ D ∈ dirs, ∀ i, i < 768 → UserSlot L mem dirs phys D i
  held : ∀ f, f ∈ dirs ∨ f ∈ reserved L → f ≠ 0 ∧ f < 2^20 ∧ bit phys.bitmap f = false
  apart : ∀ D ∈ dirs, D ∉ reserved L
  kernel : ∀ i, i < 2 → ∀ j, j < 1024 → mem (L.kernelPageTables+i) j ≠ 0#32
  tagged : ∀ p, Tagged (mem L.kheapPageTables p)

structure Kept (L : Layout) (m : Machine) (live : List Vas) (ranges : List Range) : Prop where
  half : Half L m.mem (directories L live) m.phys
  current : frameOf m.cr3 ∈ directories L live
  pages : PagesInv m.heapBitmap ranges

def Inv (L : Layout) : State → Prop
  | .stopped => False
  | .running m live ranges => Kept L m live ranges

section
variable {L : Layout} {mem mem' : Frames} {dirs : List ℕ} {phys phys' : PhysicalMem}

theorem spare_mono {f : ℕ} (h : Spare L dirs phys f)
    (hkeep : ∀ q, q ≠ 0 → bit phys.bitmap q = false → bit phys'.bitmap q = false) :
    Spare L dirs phys' f := by
  refine ⟨h.1,h.2.1,?_⟩
  by_cases h0 : f = 0
  · exact Or.inl h0
  · exact Or.inr (hkeep f h0 (h.2.2.resolve_left h0))

/-- Writes that leave the directories alone but for user slots, and the tables
of the kernel but for tagged entries of the heap. -/
theorem half_change (h : Half L mem dirs phys)
    (hkeep : ∀ q, q ≠ 0 → bit phys.bitmap q = false → bit phys'.bitmap q = false)
    (hrow : ∀ D ∈ dirs, ∀ k, mem' D k = mem D k ∨
      (k < 768 ∧ isPresent (mem' D k) = true ∧ Spare L dirs phys' (frameOf (mem' D k))))
    (hker : ∀ i, i < 2 → mem' (L.kernelPageTables+i) = mem (L.kernelPageTables+i))
    (htag : ∀ p, Tagged (mem' L.kheapPageTables p)) : Half L mem' dirs phys' := by
  have hhigh : ∀ D ∈ dirs, ∀ k, 768 ≤ k → mem' D k = mem D k := by
    intro D hD k hk
    rcases hrow D hD k with he | ⟨hlt,-⟩
    · exact he
    · omega
  refine ⟨fun D hD => ?_,fun D hD i hi => ?_,fun f hf => ?_,h.apart,fun i hi j hj => ?_,htag⟩
  · obtain ⟨hk,hheap,hself,hempty⟩ := h.shared D hD
    refine ⟨fun i hi => ?_,?_,?_,fun i hlo hhi => ?_⟩
    · rw [hhigh D hD _ (by omega), hk i hi]
    · rw [hhigh D hD _ (by omega), hheap]
    · rw [hhigh D hD _ (by omega), hself]
    · rw [hhigh D hD _ (by omega), hempty i hlo hhi]
  · rcases hrow D hD i with he | ⟨-,hnew⟩
    · rw [UserSlot, he]
      rcases h.slots D hD i hi with h0 | hk | ⟨hp,hs⟩
      · exact Or.inl h0
      · exact Or.inr (Or.inl hk)
      · exact Or.inr (Or.inr ⟨hp,spare_mono hs hkeep⟩)
    · exact Or.inr (Or.inr hnew)
  · obtain ⟨h0,hlt,hbit⟩ := h.held f hf
    exact ⟨h0,hlt,hkeep f h0 hbit⟩
  · rw [hker i hi]
    exact h.kernel i hi j hj

theorem spare_of_allocated {image : KernelImage} (h : Half L mem dirs phys) {f : ℕ} (hf : f < 2^20)
    (ha : allocatePhysicalPage image phys = (frameAddress f, phys')) : Spare L dirs phys' f := by
  obtain ⟨hfresh,-⟩ := allocate_fresh hf ha
  refine ⟨fun hd => ?_,fun hr => ?_,?_⟩
  · obtain ⟨h0,-,hbit⟩ := h.held f (Or.inl hd)
    exact hfresh f h0 hbit rfl
  · obtain ⟨h0,-,hbit⟩ := h.held f (Or.inr hr)
    exact hfresh f h0 hbit rfl
  · by_cases h0 : f = 0
    · exact Or.inl h0
    · exact Or.inr (allocated_taken hf h0 ha)

end

section
variable {L : Layout} {m : Machine} {live : List Vas} {ranges : List Range}

theorem current_of_kept (h : Kept L m live ranges) : Current m (frameOf m.cr3) :=
  ⟨rfl,frame_lt _,(h.half.shared _ h.current).self⟩

theorem heapMapped_of_kept (h : Kept L m live ranges) : HeapMapped m (frameOf m.cr3) L.kheapPageTables :=
  ⟨current_of_kept h,static_lt L (by simp),
    fun he => h.half.apart _ h.current (he ▸ heap_reserved L),(h.half.shared _ h.current).heap⟩

/-- The user slots of the current directory and the tables they refer to. -/
theorem slot_of_half (h : Kept L m live ranges) {i : ℕ} (hi : i < 768) : Slot m.mem (frameOf m.cr3) i := by
  rcases h.half.slots _ h.current i hi with h0 | ⟨hi2,hk⟩ | ⟨hp,hs⟩
  · exact Or.inl h0
  · right
    have hr := kernel_reserved L hi2
    rw [hk, frameOf_entry (reserved_lt L hr) (by omega)]
    exact ⟨isPresent_entry (by omega),fun he => h.half.apart _ h.current (he ▸ hr)⟩
  · exact Or.inr ⟨hp,fun he => hs.1 (by rw [he]; exact h.current)⟩

/-! ## Mapping user pages -/

/-- A page that is not there and whose slot is set belongs to a spare table. -/
theorem spare_of_set (h : Kept L m live ranges) {p : ℕ} (hp : p/1024 < 768)
    (hne : ¬ Entered m.mem (frameOf m.cr3) p) (hset : m.mem (frameOf m.cr3) (p/1024) ≠ 0#32) :
    Spare L (directories L live) m.phys (frameOf (m.mem (frameOf m.cr3) (p/1024))) := by
  rcases h.half.slots _ h.current _ hp with h0 | ⟨hi2,hk⟩ | ⟨-,hs⟩
  · exact absurd h0 hset
  · refine absurd ⟨hset,?_⟩ hne
    rw [hk, frameOf_entry (reserved_lt L (kernel_reserved L hi2)) (by omega)]
    exact h.half.kernel _ hi2 _ (Nat.mod_lt _ (by omega))
  · exact hs

theorem mapped_half {mem : Frames} {dirs : List ℕ} {phys : PhysicalMem} (h : Half L mem dirs phys) {t j : ℕ}
    (ht : Spare L dirs phys t) (w : Word) : Half L (setWord mem t j w) dirs phys := by
  have hrow : ∀ g, g ≠ t → setWord mem t j w g = mem g := fun g hg => setWord_frame _ _ _ hg
  refine half_change h (fun _ _ hq => hq) (fun D hD k => ?_) (fun i hi => ?_) (fun p => ?_)
  · rw [hrow D (fun he => ht.1 (he ▸ hD))]
    exact Or.inl rfl
  · exact hrow _ (fun he => ht.2.1 (he ▸ kernel_reserved L hi))
  · rw [hrow _ (fun he => ht.2.1 (he ▸ heap_reserved L))]
    exact h.tagged p

/-- A spare frame becomes a table of an empty slot. -/
theorem withTable_half {mem : Frames} {dirs : List ℕ} {phys : PhysicalMem} (h : Half L mem dirs phys) {D i t : ℕ}
    (hD : D ∈ dirs) (hi : i < 768) (ht : t < 2^20) (hs : Spare L dirs phys t) :
    Half L (withTable mem D i t) dirs phys := by
  have hrow : ∀ g, g ≠ t → g ≠ D → withTable mem D i t g = mem g := fun g hgt hgD => by
    rw [withTable_row hgt, setWord_frame _ _ _ hgD]
  refine half_change h (fun _ _ hq => hq) (fun D' hD' k => ?_) (fun k hk => ?_) (fun p => ?_)
  · have hne : D' ≠ t := fun he => hs.1 (he ▸ hD')
    rw [withTable_row hne]
    by_cases hDD : D' = D
    · rw [hDD]
      by_cases hk : k = i
      · rw [hk, setWord_self, frameOf_entry ht (by omega)]
        exact Or.inr ⟨hi,isPresent_entry (by omega),hs⟩
      · exact Or.inl (setWord_index _ _ _ hk)
    · rw [setWord_frame _ _ _ hDD]
      exact Or.inl rfl
  · have hr := kernel_reserved L hk
    exact hrow _ (fun he => hs.2.1 (he ▸ hr)) (fun he => h.apart D hD (he ▸ hr))
  · have hr := heap_reserved L
    rw [hrow _ (fun he => hs.2.1 (he ▸ hr)) (fun he => h.apart D hD (he ▸ hr))]
    exact h.tagged p

theorem half_phys {mem : Frames} {dirs : List ℕ} {phys phys' : PhysicalMem} (h : Half L mem dirs phys)
    (hkeep : ∀ q, q ≠ 0 → bit phys.bitmap q = false → bit phys'.bitmap q = false) : Half L mem dirs phys' :=
  half_change h hkeep (fun _ _ _ => Or.inl rfl) (fun _ _ => rfl) h.tagged

theorem mmapPage_kept (h : Kept L m live ranges) {v : Word} (hv : UserPage v) :
    ∃ m', mmapPage L v m = .ok m' ∧ Kept L m' live ranges := by
  rcases mmapPage_cases L (current_of_kept h) hv (slot_of_half h hv) with
    ⟨-,hm⟩ | ⟨hne,hset,f,phys,hf,ha,hm⟩ | ⟨-,f,phys,t,phys',hf,ht,ha,ha',hm⟩
  · exact ⟨m,hm,h⟩
  · have hkeep := (allocate_fresh hf ha).2
    have hspare := spare_mono (spare_of_set h hv hne hset) (fun q _ hq => hkeep q hq)
    exact ⟨_,hm,mapped_half (half_phys h.half (fun q _ hq => hkeep q hq)) hspare _,h.current,h.pages⟩
  · have hhalf := half_phys h.half (fun q _ hq => (allocate_fresh hf ha).2 q hq)
    have hspare := spare_of_allocated hhalf ht ha'
    have hhalf' := half_phys hhalf (fun q _ hq => (allocate_fresh ht ha').2 q hq)
    refine ⟨_,hm (fun he => hspare.1 (he ▸ h.current)),?_,h.current,h.pages⟩
    exact mapped_half (withTable_half hhalf' h.current hv ht hspare) hspare _

theorem mmap_kept (h : Kept L m live ranges) (v n : Word) :
    ∃ r, mmapCall L rounds v n m = some (.ok r) ∧ Kept L r.2 live ranges := by
  rw [mmapCall_eq L (by decide), VirtualMemory.mmap]
  cases hr : mmapRejects v n with
  | true =>
    rw [if_pos rfl]
    exact ⟨(.invalidArgument, m),rfl,h⟩
  | false =>
    obtain ⟨m',hm,hk⟩ := mmapLoop_ok (P := fun m => Kept L m live ranges)
      (fun v m hv hm => mmapPage_kept hm hv) (mmapCount_le hr).2 h
    rw [if_neg (by simp), hm]
    exact ⟨(.success, m'),rfl,hk⟩

/-! ## Pages of the heap -/

def Filled (phys : PhysicalMem) (bitmap : Bytes) (k : Kheap) : Prop :=
  k.bitmap = bitmap ∧ (∀ p, Tagged (k.table p)) ∧
    ∀ q, q ≠ 0 → bit phys.bitmap q = false → bit k.phys.bitmap q = false

theorem tagged_update {table : ℕ → Word} (h : ∀ p, Tagged (table p)) {e : Word} (he : Tagged e) (i p : ℕ) :
    Tagged (Function.update table i e p) := by
  by_cases hp : p = i
  · rw [hp, Function.update_self]
    exact he
  · rw [Function.update_of_ne hp]
    exact h p

theorem allocEntry_filled (image : KernelImage) {phys : PhysicalMem} {bitmap : Bytes} (i : ℕ) (k : Kheap)
    (h : Filled phys bitmap k) : Filled phys bitmap (allocEntry image i k) := by
  obtain ⟨hb,htag,hkeep⟩ := h
  obtain ⟨f,hf,hfa,-⟩ := allocate_frame image k.phys
  refine ⟨hb,fun p => ?_,fun q h0 hq => allocate_keeps image k.phys (hkeep q h0 hq)⟩
  refine tagged_update htag ?_ i p
  rw [hfa, show readWrite ||| present = BitVec.ofNat 32 3 by decide, frameAddress_or hf (by omega)]
  exact tagged_entry hf (by omega) (by omega)

theorem freeEntry_filled {phys : PhysicalMem} {bitmap : Bytes} (i : ℕ) (k : Kheap)
    (h : Filled phys bitmap k) : Filled phys bitmap (freeEntry i k) := by
  obtain ⟨hb,htag,hkeep⟩ := h
  refine ⟨hb,fun p => tagged_update htag (Or.inl rfl) i p,fun q h0 hq => ?_⟩
  change bit (freePhysicalPage (k.table i) k.phys).2.bitmap q = false
  rcases htag i with he | he
  · rw [he, freePhysicalPage_aligned _ _ (by decide)]
    change bit (BitArray.set k.phys.bitmap 0) q = false
    rw [bit_set, decide_eq_false h0, Bool.false_or]
    exact hkeep q h0 hq
  · rw [freePhysicalPage_unaligned _ _ he]
    exact hkeep q h0 hq

theorem withHeap_kept (h : Kept L m live ranges) {k : Kheap} {bitmap : Bytes} {ranges' : List Range}
    (hk : Filled m.phys bitmap k) (hp : PagesInv bitmap ranges') :
    Kept L (Machine.withHeap m L.kheapPageTables k) live ranges' := by
  have hrow : ∀ g, g ≠ L.kheapPageTables → (Machine.withHeap m L.kheapPageTables k).mem g = m.mem g :=
    fun g hg => setFrame_frame _ _ hg
  obtain ⟨hk0,-,hk1,-,-⟩ := static_ne L
  refine ⟨half_change h.half hk.2.2 (fun D hD i => ?_) (fun i hi => ?_) (fun p => ?_),h.current,?_⟩
  · rw [hrow D (fun he => h.half.apart D hD (he ▸ heap_reserved L))]
    exact Or.inl rfl
  · rcases (show i = 0 ∨ i = 1 by omega) with rfl | rfl
    · exact hrow _ hk0
    · exact hrow _ hk1
  · change Tagged (setFrame m.mem L.kheapPageTables k.table L.kheapPageTables p)
    rw [setFrame_self]
    exact hk.2.1 p
  · change PagesInv k.bitmap ranges'
    rw [hk.1]
    exact hp

/-- A call that is served has made a suitable search. -/
theorem suitable_of_backed (h : Kept L m live ranges) {n : Word}
    (hb : Backed L ranges n (onHeap (allocKheapPages L.toKernelImage n) m)) :
    n ≠ 0#32 ∧ ∃ i s, Suitable m.heapBitmap n.toNat i s ∧
      ∃ m', onHeap (allocKheapPages L.toKernelImage n) m = .ok (foundAddress i s, m') ∧
        ∀ p, KernelHeapRuns.Covers ⟨foundAddress i s, n⟩ p → frameOf (m'.mem L.kheapPageTables p) ≠ 0 := by
  obtain ⟨a,m',hok,hplaced,hapart,hframes⟩ := hb
  obtain ⟨k,hk,-⟩ := onHeap_eq_ok (heapMapped_of_kept h) hok
  obtain ⟨bitmap,hsearch,-⟩ := searchThen_ok hk
  have hnull : a ≠ null := by
    rintro rfl
    exact absurd (show kheapBeginAddress.toNat ≤ null.toNat from hplaced.above) (by decide)
  have hn : n ≠ 0#32 := by
    rintro rfl
    exact hnull (searchBlocks_zero hsearch).1
  refine ⟨hn,?_⟩
  rcases search_cases h.pages.high hn with ⟨-,hg⟩ | ⟨-,-,hg⟩ | ⟨i,s,hfound,hg⟩
  · rw [hsearch, Except.ok.injEq, Prod.mk.injEq] at hg
    exact absurd hg.1 hnull
  · rw [hsearch] at hg
    cases hg
  · rw [hsearch, Except.ok.injEq, Prod.mk.injEq] at hg
    obtain ⟨rfl,-⟩ := hg
    exact ⟨i,s,suitable_of_placed h.pages hfound hplaced hapart,m',hok,hframes⟩

theorem heap_kept (h : Kept L m live ranges) {n : Word}
    (hb : Backed L ranges n (onHeap (allocKheapPages L.toKernelImage n) m)) :
    ∃ r, onHeap (allocKheapPages L.toKernelImage n) m = .ok r ∧ Kept L r.2 live (withRange r.1 n ranges) := by
  obtain ⟨hn,i,s,hs,-⟩ := suitable_of_backed h hb
  have hin := hs.inside
  obtain ⟨k,hk,hfilled,-⟩ := overEntries_inside (P := Filled m.phys (taken m.heapBitmap n i s))
    (fun j k hk => allocEntry_filled L.toKernelImage j k hk) (fun j k q hq => Function.update_of_ne hq _ _)
    n.toNat (8*i+s) (k := ⟨taken m.heapBitmap n i s, m.mem L.kheapPageTables, m.phys⟩)
    (by omega) ⟨rfl,h.half.tagged,fun _ _ hq => hq⟩
  have hcall := allocKheapPages_filled L.toKernelImage (k := ⟨m.heapBitmap, m.mem L.kheapPageTables, m.phys⟩)
    h.pages.high hn hs hk
  refine ⟨_,onHeap_ok (heapMapped_of_kept h) hcall,?_⟩
  rw [withRange, if_neg (found_ne_null (by omega))]
  exact withHeap_kept h hfilled (alloc_inv h.pages hn hs)

theorem release_kept (h : Kept L m live ranges) {r : Range} (hr : r ∈ ranges) :
    ∃ t, onHeap (freeKheapPages r.address r.numPages) m = .ok t ∧ Kept L t.2 live (ranges.erase r) := by
  obtain ⟨⟨hal,habove,hbelow⟩,-⟩ := h.pages.placed r hr
  have hlt : r.address < kheapEndAddress := by
    have := (h.pages.placed r hr).2
    change r.address.toNat < kheapEndAddress.toNat
    omega
  have hentry : (addressToPageTableEntry r.address).toNat+r.numPages.toNat ≤ 1024 ∧
      entryLoopCount (addressToPageTableEntry r.address) r.numPages = r.numPages.toNat := by
    rw [toNat_begin] at habove
    rw [toNat_end] at hbelow
    unfold windowBase at habove hbelow
    have := toNat_addressToPageTableEntry r.address
    rw [entryLoopCount, BitVec.toNat_add]
    omega
  obtain ⟨k,hk,hfilled,-⟩ := overEntries_inside
    (P := Filled m.phys (turnBitsOn m.heapBitmap (addressToBitIndex r.address kheapBeginAddress) r.numPages))
    freeEntry_filled (fun j k q hq => Function.update_of_ne hq _ _)
    r.numPages.toNat (addressToPageTableEntry r.address).toNat
    (k := ⟨turnBitsOn m.heapBitmap (addressToBitIndex r.address kheapBeginAddress) r.numPages,
      m.mem L.kheapPageTables, m.phys⟩) hentry.1 ⟨rfl,h.half.tagged,fun _ _ hq => hq⟩
  have hcall : freeKheapPages r.address r.numPages ⟨m.heapBitmap, m.mem L.kheapPageTables, m.phys⟩ =
      .ok (.success, k) := by
    rw [freeKheapPages, if_neg (not_not.mpr ⟨habove,hlt⟩),
      if_neg (not_not.mpr ((pageBoundary_eq_iff r.address).mpr hal))]
    simp only [hentry.2, hk]
  refine ⟨_,onHeap_ok (heapMapped_of_kept h) hcall,withHeap_kept h hfilled ?_⟩
  have hinv := KernelHeapRuns.free_inv (k := ⟨m.heapBitmap, m.mem L.kheapPageTables, m.phys⟩) h.pages hr hcall
  rwa [hfilled.1] at hinv

/-! ## An address space is made -/

theorem newDirectory_shared (L : Layout) (f : ℕ) {mem : Frames} (h : mem f = newDirectory L f) :
    SharedHalf L mem f := by
  refine ⟨fun i hi => ?_,?_,?_,fun i hlo hhi => ?_⟩
  · rcases (show i = 0 ∨ i = 1 by omega) with rfl | rfl <;> rw [h] <;> simp [newDirectory]
  · rw [h]
    simp [newDirectory]
  · rw [h]
    simp [newDirectory]
  · rw [h, newDirectory, Function.update_of_ne (by omega), Function.update_of_ne (by omega),
      Function.update_of_ne (by omega), Function.update_of_ne (by omega)]

theorem newDirectory_user (L : Layout) (f : ℕ) {i : ℕ} (hi : i < 768) : newDirectory L f i = 0#32 := by
  rw [newDirectory, Function.update_of_ne (by omega), Function.update_of_ne (by omega),
    Function.update_of_ne (by omega), Function.update_of_ne (by omega)]

theorem granted_not_held {mem : Frames} {dirs : List ℕ} {phys phys' : PhysicalMem} (h : Half L mem dirs phys)
    {f : ℕ} (hg : Granted phys phys' f) {g : ℕ} (hheld : g ∈ dirs ∨ g ∈ reserved L) : g ≠ f := by
  rintro rfl
  have hbit := (h.held g hheld).2.2
  rw [hg.2.1] at hbit
  cases hbit

theorem half_addDirectory {mem mem' : Frames} {dirs dirs' : List ℕ} {phys phys' : PhysicalMem}
    (h : Half L mem dirs phys) {f : ℕ} (hf : f < 2^20) (hg : Granted phys phys' f)
    (hdirs : ∀ D, D ∈ dirs' ↔ D = f ∨ D ∈ dirs) (hnew : mem' f = newDirectory L f)
    (hrow : ∀ g, g ≠ f → g ≠ L.kheapPageTables → mem' g = mem g)
    (htag : ∀ p, Tagged (mem' L.kheapPageTables p)) : Half L mem' dirs' phys' := by
  have hfree : ∀ g, g ∈ dirs ∨ g ∈ reserved L → g ≠ f := fun g hheld => granted_not_held h hg hheld
  have hkeep : ∀ q, bit phys.bitmap q = false → bit phys'.bitmap q = false := fun q hq => granted_keeps hg hq
  have hpos := hg.1
  have hold : ∀ D ∈ dirs, mem' D = mem D := fun D hD =>
    hrow D (hfree D (Or.inl hD)) (fun he => h.apart D hD (he ▸ heap_reserved L))
  obtain ⟨hk0,-,hk1,-,-⟩ := static_ne L
  refine ⟨fun D hD => ?_,fun D hD i hi => ?_,fun g hg' => ?_,fun D hD => ?_,fun i hi j hj => ?_,htag⟩
  · rcases (hdirs D).mp hD with rfl | hD
    · exact newDirectory_shared L D hnew
    · obtain ⟨hk,hheap,hself,hempty⟩ := h.shared D hD
      rw [← hold D hD] at hheap hself
      exact ⟨fun i hi => by rw [hold D hD, hk i hi],hheap,hself,fun i h1 h2 => by rw [hold D hD, hempty i h1 h2]⟩
  · rcases (hdirs D).mp hD with rfl | hD
    · exact Or.inl (by rw [hnew, newDirectory_user L D hi])
    · rw [UserSlot, hold D hD]
      refine (h.slots D hD i hi).imp_right (Or.imp_right fun ⟨hp,hd,hr,ht⟩ => ⟨hp,?_,hr,ht.imp_right (hkeep _)⟩)
      intro hmem
      rcases (hdirs _).mp hmem with he | hmem
      · rcases ht with h0 | hbit
        · omega
        · rw [he, hg.2.1] at hbit
          cases hbit
      · exact hd hmem
  · by_cases he : g = f
    · rw [he]
      exact ⟨by omega,hf,by rw [granted_bit hg]; simp⟩
    · have hg'' : g ∈ dirs ∨ g ∈ reserved L := hg'.imp_left fun hd => ((hdirs g).mp hd).resolve_left he
      obtain ⟨h0,hlt,hbit⟩ := h.held g hg''
      exact ⟨h0,hlt,hkeep g hbit⟩
  · rcases (hdirs D).mp hD with rfl | hD
    · exact fun hr => hfree D (Or.inr hr) rfl
    · exact h.apart D hD
  · have hr := kernel_reserved L hi
    rw [hrow _ (hfree _ (Or.inr hr))]
    · exact h.kernel i hi j hj
    · rcases (show i = 0 ∨ i = 1 by omega) with rfl | rfl
      · exact hk0
      · exact hk1

theorem granted_of_backed (h : Kept L m live ranges)
    (hb : Backed L ranges 1#32 (onHeap (allocKheapPages L.toKernelImage 1#32) m)) :
    ∃ i s f phys, Suitable m.heapBitmap 1 i s ∧ f < 2^20 ∧
      allocatePhysicalPage L.toKernelImage m.phys = (frameAddress f, phys) ∧ Granted m.phys phys f := by
  obtain ⟨-,i,s,hs,m',hok,hframes⟩ := suitable_of_backed h hb
  have hin : 8*i+s+1 ≤ 1024 := hs.inside
  obtain ⟨f,phys,hf,hpair,hcase⟩ := allocate_pair L.toKernelImage m.phys
  refine ⟨i,s,f,phys,hs,hf,hpair,hcase.resolve_right fun hzero => ?_⟩
  rw [onHeap_ok (heapMapped_of_kept h) (allocKheapPages_one L.toKernelImage
    (k := ⟨m.heapBitmap, m.mem L.kheapPageTables, m.phys⟩) h.pages.high hf hs hpair)] at hok
  cases hok
  refine hframes (8*i+s) ?_ ?_
  · rw [KernelHeapRuns.Covers, toNat_foundAddress (by omega)]
    exact ⟨le_refl _,by rw [show (1#32).toNat = 1 from rfl]; omega⟩
  · change frameOf (setFrame m.mem L.kheapPageTables _ L.kheapPageTables (8*i+s)) = 0
    rw [setFrame_self]
    change frameOf (Function.update (m.mem L.kheapPageTables) (8*i+s) (entry f 3) (8*i+s)) = 0
    rw [Function.update_self, frameOf_entry hf (by omega), hzero.1]

theorem alloc_kept (h : Kept L m live ranges) {record : Word}
    (hb : HeapServes L (.running m live ranges) (.alloc record)) :
    ∃ r, allocVirtualAddressSpace L record m = .ok r ∧
      Kept L r.2 (r.1.toList ++ live) (directoryPages r.1.toList ++ ranges) := by
  by_cases hr : record = null
  · exact ⟨(none, m),by rw [allocVirtualAddressSpace, if_pos hr],h⟩
  obtain ⟨i,s,f,phys,hs,hf,hpair,hg⟩ := granted_of_backed h (hb.resolve_left hr)
  have hfD := granted_not_held h.half hg (Or.inl h.current)
  have hfH := granted_not_held h.half hg (Or.inr (heap_reserved L))
  have hcall : allocVirtualAddressSpace L record m =
      .ok (some ⟨foundAddress i s, frameAddress f⟩, withDirectory L m i s f phys) := by
    rw [allocVirtualAddressSpace, if_neg hr]
    exact allocPageDir_ok L (heapMapped_of_kept h) h.pages.high hs hf (Ne.symm hfD) (Ne.symm hfH) hpair
  have hmem : ∀ D, D ∈ directories L (⟨foundAddress i s, frameAddress f⟩::live) ↔
      D = f ∨ D ∈ directories L live := by
    intro D
    rw [directories, List.map_cons, frameOf_frameAddress hf, directories]
    simp only [List.mem_cons]
    tauto
  refine ⟨_,hcall,half_addDirectory h.half hf hg hmem (setFrame_self _ _ _)
    (fun g hgf hgH => (setFrame_frame _ _ hgf).trans (setWord_frame _ _ _ hgH)) (fun p => ?_),
    (hmem _).mpr (Or.inr h.current),alloc_inv h.pages (by decide) hs⟩
  change Tagged (setFrame _ f _ L.kheapPageTables p)
  rw [setFrame_frame _ _ hfH, setWord, Function.update_self]
  exact tagged_update h.half.tagged (tagged_entry hf (by omega) (by omega)) _ _

/-! ## Whole runs -/

theorem switch_kept (h : Kept L m live ranges) {vmm : Vas} (hv : vmm ∈ live) :
    Kept L (switchVirtualAddressSpace vmm m).2 live ranges := by
  rw [switchVirtualAddressSpace]
  split
  · exact h
  · exact ⟨h.half,List.mem_cons_of_mem _ (List.mem_map.mpr ⟨vmm,hv,rfl⟩),h.pages⟩

theorem inv_of_returned {α : Type} {next : α → State} {x : Option (Except Stop α)} {t : State}
    (h : ∃ r, x = some (.ok r) ∧ Inv L (next r)) (ht : some (returned next x) = some t) : Inv L t := by
  obtain ⟨r,hr,hi⟩ := h
  rw [hr, returned, Option.some.injEq] at ht
  exact ht ▸ hi

theorem step_inv (s : State) (op : Op) (t : State) (hi : Inv L s) (hg : HeapServes L s op)
    (hs : step L s op = some t) : Inv L t := by
  cases s with
  | stopped => cases hs
  | running m live ranges =>
    cases op with
    | heap n =>
      obtain ⟨r,hr,hk⟩ := heap_kept hi hg
      refine inv_of_returned ?_ hs
      exact ⟨r,by rw [hr],hk⟩
    | release address n =>
      rw [step] at hs
      split at hs
      · rename_i hlive
        obtain ⟨r,hr,hk⟩ := release_kept hi hlive.1
        refine inv_of_returned ?_ hs
        exact ⟨r,by rw [hr],hk⟩
      · cases hs
    | alloc record =>
      obtain ⟨r,hr,hk⟩ := alloc_kept hi hg
      refine inv_of_returned ?_ hs
      exact ⟨r,by rw [hr],hk⟩
    | switch vmm =>
      rw [step] at hs
      split at hs
      · rename_i hv
        cases hs
        exact switch_kept hi hv
      · cases hs
    | mmap v n => exact inv_of_returned (mmap_kept hi v n) hs

/-- Kernel addresses are translated through tables that all directories share. -/
theorem walk_shared {D D' : ℕ} (h : SharedHalf L m.mem D) (h' : SharedHalf L m.mem D')
    (hD : D < 2^20) (hD' : D' < 2^20) {v : Word} (hlo : 0xC0000000 ≤ v.toNat) (hhi : v.toNat < 0xC0C00000) :
    walk (inSpace m D) v = walk (inSpace m D') v := by
  have hslot : m.mem D (v.toNat/2^22) = m.mem D' (v.toNat/2^22) := by
    rcases (show v.toNat/2^22 = 768+0 ∨ v.toNat/2^22 = 768+1 ∨ v.toNat/2^22 = 770 by omega) with hi | hi | hi
    · rw [hi, h.kernel 0 (by omega), h'.kernel 0 (by omega)]
    · rw [hi, h.kernel 1 (by omega), h'.kernel 1 (by omega)]
    · rw [hi, h.heap, h'.heap]
  simp only [walk, inSpace, frameOf_frameAddress hD, frameOf_frameAddress hD', toNat_addressToDirectoryEntry,
    hslot]

theorem coherent_of_inv (s : State) (h : Inv L s) : Coherent L s := by
  cases s with
  | stopped => exact h
  | running m live ranges =>
    refine ⟨h.half.shared,fun D hD D' hD' v hlo hhi => ?_⟩
    exact walk_shared (h.half.shared D hD) (h.half.shared D' hD') (h.half.held D (Or.inl hD)).2.1
      (h.half.held D' (Or.inl hD')).2.1 hlo hhi

theorem kept_of_started {phys : PhysicalMem} (h : Started L phys m)
    (htaken : ∀ f ∈ [L.kernelPageTables, L.kernelPageTables+1, L.kheapPageTables, L.initPageDirectory],
      bit phys.bitmap f = false) : Kept L m [] [] := by
  have hstatic : ∀ f, f ∈ [L.initPageDirectory] ∨ f ∈ reserved L →
      f ∈ [L.kernelPageTables, L.kernelPageTables+1, L.kheapPageTables, L.initPageDirectory] := by
    rintro f (hf | hf)
    · rw [List.mem_singleton.mp hf]
      simp
    · exact AddressSpaces.reserved_static hf
  refine ⟨⟨fun D hD => ?_,fun D hD i hi => ?_,fun f hf => ?_,fun D hD => ?_,fun i hi j hj => ?_,fun p => ?_⟩,?_,?_⟩
  · obtain rfl := List.mem_singleton.mp hD
    refine ⟨fun i hi => ?_,?_,?_,fun i hlo hhi => ?_⟩ <;> rw [h.directory, bootDirectory]
    · rcases (show i = 0 ∨ i = 1 by omega) with rfl | rfl <;> simp
    · simp
    · simp
    · rw [Function.update_of_ne (by omega), Function.update_of_ne (by omega), Function.update_of_ne (by omega),
        Function.update_of_ne (by omega), Function.update_of_ne (by omega), Function.update_of_ne (by omega)]
  · obtain rfl := List.mem_singleton.mp hD
    rw [UserSlot, h.directory]
    exact (bootDirectory_user L hi).imp_right Or.inl
  · have hf := hstatic f hf
    rw [h.phys_eq]
    exact ⟨by have := (L.placed f hf).1; omega,static_lt L hf,htaken f hf⟩
  · obtain rfl := List.mem_singleton.mp hD
    exact AddressSpaces.boot_not_reserved L
  · exact AddressSpaces.kernelTables_set h hi hj
  · rw [h.heapTable]
    exact Or.inl rfl
  · rw [h.cr3, frameOf_frameAddress (static_lt L (by simp))]
    exact List.mem_cons_self
  · rw [h.heapBitmap]
    exact inv_start phys

end

/-- In every run from the start of the kernel on whose heap pages are served,
all directories keep their kernel half, kernel addresses are translated alike in
all of them and every call returns. -/
theorem kernel_half_coherent (L : Layout) (ram : Frames) (map : Ram) (mapAddr mapLength : Word) (fuel : ℕ)
    (phys : PhysicalMem) (m : Machine) (ops : List Op)
    (hinit : phyMemoryManagerInit L.toKernelImage map mapAddr mapLength fuel = .ok phys)
    (hstart : Boot.start L ram phys = .ok m)
    (hserved : Transition.Guarded (step L) (HeapServes L) ops (.running m [] [])) :
    Transition.Always (step L) (Coherent L) ops (.running m [] []) := by
  obtain ⟨m',hm,hs⟩ := start_ok L ram phys
  rw [hstart, Except.ok.injEq] at hm
  subst hm
  have hkept : Inv L (.running m [] []) := kept_of_started hs (fun f hf => static_taken hinit hf)
  exact Transition.always_of_guarded coherent_of_inv step_inv hkept hserved

/-- The only frame becomes a directory; the arguments of `mmap` wrap around, and
the page and its table are given no frame. -/
def wrappingRun : List Op :=
  [.alloc 0xC0801008#32, .switch AddressSpaces.firstSpace, .mmap 0x40000000#32 0x100001#32]

theorem wrappingRun_coherent : ∃ phys m,
    phyMemoryManagerInit smallImage (AddressSpaces.regionMap 0x10#8) 0x9000#32 1#32 2 = .ok phys ∧
    Boot.start smallLayout (fun _ _ => 0#32) phys = .ok m ∧
    Transition.Guarded (step smallLayout) (HeapServes smallLayout) wrappingRun (.running m [] []) ∧
    Transition.Always (step smallLayout) (Coherent smallLayout) wrappingRun (.running m [] []) := by
  obtain ⟨phys,hinit,hbits⟩ := AddressSpaces.region_init 0x10#8 0x1000#32 (by decide) (by decide) (by decide)
  obtain ⟨m,hstart,hm⟩ := start_ok smallLayout (fun _ _ => 0#32) phys
  have hkept := kept_of_started hm (fun f hf => static_taken hinit hf)
  obtain ⟨phys',hframe⟩ := AddressSpaces.first_frame (n := 1) (by omega) (by omega) hbits (init_reserved hinit).2
  have hsuit : Suitable m.heapBitmap 1 0 0 := by
    rw [hm.heapBitmap]
    exact suitable_start phys
  have hone := allocKheapPages_one smallImage (f := 512)
    (k := ⟨m.heapBitmap, m.mem smallLayout.kheapPageTables, m.phys⟩) hkept.pages.high (by omega) hsuit
    (by rw [hm.phys_eq]; exact hframe)
  have hbacked : Backed smallLayout [] 1#32 (onHeap (allocKheapPages smallImage 1#32) m) := by
    refine ⟨_,_,onHeap_ok (heapMapped_of_kept hkept) hone,⟨by decide,by decide,by decide⟩,by simp,fun p hp => ?_⟩
    have hp0 : p = 0 := by
      have := hp.2
      rw [toNat_foundAddress (by omega), show (1#32).toNat = 1 from rfl] at this
      omega
    change frameOf (setFrame m.mem smallLayout.kheapPageTables _ smallLayout.kheapPageTables p) ≠ 0
    rw [setFrame_self, hp0]
    change frameOf (Function.update (m.mem smallLayout.kheapPageTables) 0 (entry 512 3) 0) ≠ 0
    rw [Function.update_self]
    decide
  have hserved : Transition.Guarded (step smallLayout) (HeapServes smallLayout) wrappingRun (.running m [] []) := by
    refine fun s₁ _ => ⟨Or.inr hbacked,fun s₂ _ => ⟨?_,fun s₃ _ => ⟨?_,trivial⟩⟩⟩
    · cases s₁ <;> trivial
    · cases s₂ <;> trivial
  exact ⟨phys,m,hinit,hstart,hserved,kernel_half_coherent smallLayout _ _ _ _ _ _ _ _ hinit hstart hserved⟩

end MikeOS.KernelHalf
