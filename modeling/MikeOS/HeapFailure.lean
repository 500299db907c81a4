import MikeOS.FrameStatus
import MikeOS.FreeRuns
import MikeOS.KernelHeapRelease

/-!
# Calls whose search finds nothing

The two functions that allocate pages of the heap go on with the address the
search returns, `NULL` too. Its entry is that of the first page of the heap, so
a call whose search failed fills in the entries of pages that are in use.
-/

set_option autoImplicit false

namespace MikeOS.HeapFailure
open BitArray MikeOS.Memory MikeOS.Paging MikeOS.PhysicalMemory MikeOS.KernelHeap MikeOS.KernelHeapSearch
open MikeOS.Mmu MikeOS.FrameAllocator MikeOS.KernelHeapRelease

inductive Call where
  | alloc
  | map (physicalAddress : Word)
  deriving DecidableEq, Repr

def perform (image : KernelImage) (numPages : Word) (k : Kheap) : Call → Except Stop (Word × Kheap)
  | .alloc => allocKheapPages image numPages k
  | .map physicalAddress => mapPhysicalAddressToKheap physicalAddress numPages k

def Atomic (image : KernelImage) (numPages : Word) (k : Kheap) (call : Call) : Prop :=
  ∃ k', perform image numPages k call = .ok (null, k') ∧ Restored k k'

def NoFrames (image : KernelImage) (s : PhysicalMem) : Prop :=
  s.noPageAvailable = true ∨ Exhausted image s.bitmap

def Call.written (i : ℕ) : Call → Word
  | .alloc => editEntryAttributes null (readWrite ||| present)
  | .map physicalAddress =>
    editEntryAttributes (physicalAddress+BitVec.ofNat 32 i*pageSize) (readWrite ||| present)

/-- There are no entries to fill in, or no frame is to be had for them, they are
all in the table and hold what is written there. -/
def Harmless (image : KernelImage) (numPages : Word) (k : Kheap) (call : Call) : Prop :=
  numPages = 0#32 ∨
    Clear k.bitmap numPages.toNat ∧ numPages.toNat ≤ pageTableSize ∧
      (call = .alloc → NoFrames image k.phys) ∧ ∀ i, i < numPages.toNat → k.table i = call.written i

/-! ## Past a failed search -/

def Call.body (image : KernelImage) : Call → ℕ → Kheap → Kheap
  | .alloc => allocEntry image
  | .map physicalAddress => KernelHeap.mapEntry physicalAddress 0

def Call.frames (numPages : Word) (s : PhysicalMem) : Call → PhysicalMem
  | .alloc => s
  | .map physicalAddress => (registerPhysicalPages physicalAddress numPages s).2

theorem searchThen_found (address : Word) (bitmap : Bytes) (fill : Word → Bytes → Except Stop Kheap) :
    searchThen (.ok (address, bitmap)) fill = (fill address bitmap).map fun k => (address, k) := by
  rw [searchThen]
  cases fill address bitmap <;> rfl

/-- The loop starts at the first entry, which is that of `NULL`. -/
theorem perform_null (image : KernelImage) {numPages : Word} {k : Kheap} (call : Call) {bitmap : Bytes}
    (h : getFreeContinuousBlocksAddress numPages k.bitmap = .ok (null, bitmap)) :
    perform image numPages k call =
      (overEntries (call.body image) numPages.toNat 0
        { k with bitmap := bitmap, phys := call.frames numPages k.phys }).map fun k' => (null, k') := by
  have hentry : addressToPageTableEntry null = 0#32 := by decide
  have hcount : entryLoopCount 0#32 numPages = numPages.toNat := by
    rw [entryLoopCount]
    simp
  cases call with
  | alloc =>
    rw [perform, allocKheapPages, h, searchThen_found]
    simp only [allocAndMapPhysicalPages, hentry, hcount]
    rfl
  | map physicalAddress =>
    rw [perform, mapPhysicalAddressToKheap, h, searchThen_found]
    simp only [hentry, hcount]
    rfl

theorem body_bitmap (image : KernelImage) (call : Call) (i : ℕ) (k : Kheap) :
    (call.body image i k).bitmap = k.bitmap := by
  cases call <;> rfl

/-- A number of pages is taken for the end of a range of addresses. Up to the
size of the table it is not one, or the range is empty. -/
theorem register_number (physicalAddress : Word) {numPages : Word} (h : numPages.toNat ≤ pageTableSize)
    (s : PhysicalMem) : (registerPhysicalPages physicalAddress numPages s).2 = s := by
  rw [pageTableSize] at h
  by_cases hacc : physicalAddress.toNat%4096 = 0 ∧ numPages.toNat%4096 = 0 ∧ physicalAddress ≤ numPages
  · have hle : physicalAddress.toNat ≤ numPages.toNat := hacc.2.2
    rw [registerPhysicalPages, changePagesState_eq _ _ _ s hacc.1 hacc.2.1 hacc.2.2,
      show (numPages.toNat-physicalAddress.toNat)/4096 = 0 by omega]
    rfl
  · rw [registerPhysicalPages, FrameStatus.changePagesState_refused hacc]

theorem frames_small {numPages : Word} (h : numPages.toNat ≤ pageTableSize) (s : PhysicalMem) (call : Call) :
    call.frames numPages s = s := by
  cases call with
  | alloc => rfl
  | map physicalAddress => exact register_number physicalAddress h s

theorem allocate_none {image : KernelImage} {s : PhysicalMem} (h : NoFrames image s) :
    (allocatePhysicalPage image s).1 = null ∧ (allocatePhysicalPage image s).2.bitmap = s.bitmap ∧
      NoFrames image (allocatePhysicalPage image s).2 := by
  rcases allocate_cases image s with ⟨hf,he⟩ | ⟨p,hlow,he⟩ | ⟨-,he⟩
  · rw [he]
    exact ⟨rfl,rfl,Or.inl hf⟩
  · rcases h with hf | hex
    · rw [allocatePhysicalPage, if_pos hf]
      exact ⟨rfl,rfl,Or.inl hf⟩
    · exact absurd hex (lowest_not_exhausted hlow)
  · rw [he]
    exact ⟨rfl,rfl,Or.inl rfl⟩

def TableOnly (image : KernelImage) (call : Call) (k t : Kheap) : Prop :=
  t.bitmap = k.bitmap ∧ t.phys.bitmap = k.phys.bitmap ∧ (call = .alloc → NoFrames image t.phys)

theorem fill_table (image : KernelImage) (call : Call) {n : ℕ} {k : Kheap} (hn : n ≤ pageTableSize)
    (hframes : call = .alloc → NoFrames image k.phys) :
    ∃ k', overEntries (call.body image) n 0 k = .ok k' ∧ k'.bitmap = k.bitmap ∧
      k'.phys.bitmap = k.phys.bitmap ∧ ∀ i, k'.table i = if i < n then call.written i else k.table i := by
  have hstep : ∀ i t, TableOnly image call k t → TableOnly image call k (call.body image i t) := by
    rintro i t ⟨h1,h2,h3⟩
    cases call with
    | alloc =>
      obtain ⟨-,hsame,hnone⟩ := allocate_none (h3 rfl)
      exact ⟨h1,hsame.trans h2,fun _ => hnone⟩
    | map physicalAddress => exact ⟨h1,h2,h3⟩
  have hbody : ∀ i t, TableOnly image call k t →
      (call.body image i t).table = Function.update t.table i (call.written i) := by
    rintro i t ⟨-,-,h3⟩
    cases call with
    | alloc =>
      have hnull := (allocate_none (h3 rfl)).1
      change Function.update t.table i (editEntryAttributes (allocatePhysicalPage image t.phys).1 _) = _
      rw [hnull]
      rfl
    | map physicalAddress => rfl
  have hk : TableOnly image call k k := ⟨rfl,rfl,hframes⟩
  obtain ⟨k',hk',⟨hb,hp,-⟩,htab⟩ := overEntries_fill hstep hbody n 0 (by omega) hk
  refine ⟨k',hk',hb,hp,fun i => ?_⟩
  rw [htab i]
  exact if_congr (by omega) rfl rfl

theorem filled_inside {body : ℕ → Kheap → Kheap} {n : ℕ} {k k' : Kheap}
    (h : overEntries body n 0 k = .ok k') : n ≤ pageTableSize := by
  by_contra hgt
  rw [overEntries_fault k (by omega) (by omega)] at h
  cases h

/-! ## When nothing changes -/

section
variable {image : KernelImage} {numPages : Word} {k : Kheap} {call : Call} {bitmap : Bytes}

theorem search_unchanged (h : getFreeContinuousBlocksAddress numPages k.bitmap = .ok (null, bitmap))
    (hc : numPages = 0#32 ∨ Clear k.bitmap numPages.toNat) : bitmap = k.bitmap := by
  by_cases hn : numPages = 0#32
  · subst hn
    exact (searchBlocks_zero h).2
  · have hclear := hc.resolve_left hn
    rcases search_outcome k.bitmap hn with ⟨-,he⟩ | ⟨hnot,-⟩ | ⟨i,s,hf,hr,-⟩
    · cases h.symm.trans he
      rfl
    · exact absurd hclear hnot
    · exact absurd hr (clear_not_reached hclear hf)

theorem clear_of_unchanged (hn : numPages ≠ 0#32)
    (h : getFreeContinuousBlocksAddress numPages k.bitmap = .ok (null, k.bitmap)) :
    Clear k.bitmap numPages.toNat := by
  rcases search_outcome k.bitmap hn with ⟨hclear,-⟩ | ⟨-,-,he⟩ | ⟨i,s,hf,hr,he⟩
  · exact hclear
  · cases h.symm.trans he
  · have hsame := h.symm.trans he
    rw [Except.ok.injEq, Prod.mk.injEq] at hsame
    exact absurd hsame.2.symm (FreeRuns.taken_ne hn hf hr)

theorem atomic_of_harmless (h : getFreeContinuousBlocksAddress numPages k.bitmap = .ok (null, bitmap))
    (hc : Harmless image numPages k call) : Atomic image numPages k call := by
  have hb : bitmap = k.bitmap := search_unchanged h (hc.imp_right And.left)
  subst hb
  rcases hc with rfl | ⟨-,hle,hframes,hholds⟩
  · rw [Atomic, perform_null image call h, frames_small (by decide)]
    exact ⟨_,rfl,rfl,fun _ _ => rfl,rfl⟩
  · rw [Atomic, perform_null image call h, frames_small hle]
    obtain ⟨k',hk',hb,hp,htab⟩ := fill_table image call hle hframes
    refine ⟨k',by rw [hk']; rfl,hb,fun i _ => ?_,hp⟩
    rw [htab i]
    split
    · exact (hholds i (by assumption)).symm
    · rfl

theorem noFrames_of_kept {k' : Kheap} (hpos : 0 < numPages.toNat)
    (hfill : overEntries (Call.alloc.body image) numPages.toNat 0 k = .ok k')
    (hkept : k'.phys.bitmap = k.phys.bitmap) : NoFrames image k.phys := by
  obtain ⟨m,hm⟩ : ∃ m, numPages.toNat = m+1 := ⟨numPages.toNat-1,by omega⟩
  rw [hm] at hfill
  by_contra hsome
  obtain ⟨f,hwas,hnow⟩ := alloc_takes image (mt (allocate_null_iff image k.phys).mp hsome) hfill
  rw [hkept, hwas] at hnow
  cases hnow

theorem harmless_of_atomic (h : getFreeContinuousBlocksAddress numPages k.bitmap = .ok (null, bitmap))
    (ha : Atomic image numPages k call) : Harmless image numPages k call := by
  by_cases hn : numPages = 0#32
  · exact Or.inl hn
  right
  have hpos : 0 < numPages.toNat := by bv_omega
  obtain ⟨k',hk',hrestored⟩ := ha
  rw [perform_null image call h] at hk'
  cases hfill : overEntries (call.body image) numPages.toNat 0
      { k with bitmap := bitmap, phys := call.frames numPages k.phys } with
  | error stop =>
    rw [hfill] at hk'
    cases hk'
  | ok t =>
    rw [hfill] at hk'
    obtain rfl : t = k' := by
      cases hk'
      rfl
    have hle := filled_inside hfill
    have hb : bitmap = k.bitmap := by
      rw [← hrestored.bitmap]
      exact (overEntries_inv (P := fun u => u.bitmap = bitmap)
        (fun i u hu => (body_bitmap image call i u).trans hu) rfl hfill).symm
    subst hb
    rw [frames_small hle] at hfill
    have hframes : call = .alloc → NoFrames image k.phys := by
      rintro rfl
      exact noFrames_of_kept hpos hfill hrestored.frames
    refine ⟨clear_of_unchanged hn h,hle,hframes,fun i hi => ?_⟩
    obtain ⟨u,hu,-,-,htab⟩ := fill_table image call hle hframes
    cases hfill.symm.trans hu
    have hi' := hrestored.table i (by omega)
    rw [htab i, if_pos hi] at hi'
    exact hi'.symm

end

/-- A call whose search found nothing changes something unless what it writes
is there already. -/
theorem failure_atomic_iff (image : KernelImage) (numPages : Word) (k : Kheap) (call : Call) (bitmap : Bytes)
    (h : getFreeContinuousBlocksAddress numPages k.bitmap = .ok (null, bitmap)) :
    Atomic image numPages k call ↔ Harmless image numPages k call :=
  ⟨harmless_of_atomic h,atomic_of_harmless h⟩

def fullHeap : Kheap := ⟨fun _ => 0#8, fun i => entry (0x200+i) 3, PhysicalMem.boot⟩

theorem fullHeap_search (numPages : Word) (h : (numPages.toNat+7)/8 < 131072) :
    getFreeContinuousBlocksAddress numPages fullHeap.bitmap = .ok (null, fullHeap.bitmap) := by
  have hclear : ∀ j, j < min (searchBound numPages) 131072 → fullHeap.bitmap j = 0#8 := fun _ _ => rfl
  rcases search_none hclear with ⟨-,he⟩ | ⟨hnot,-⟩
  · exact he
  · exact absurd ⟨h,fun _ _ => rfl⟩ hnot

/-- A full heap whose entries are what a failed call wrote, with no frame left. -/
def failedHeap : Kheap := ⟨fun _ => 0#8, fun _ => 3#32, ⟨fun _ => 0#8, true⟩⟩

/-- The same call fails once more and finds its entries there. -/
theorem failed_call_atomic : Atomic sampleImage 2#32 failedHeap .alloc := by
  refine (failure_atomic_iff sampleImage 2#32 failedHeap .alloc failedHeap.bitmap (fullHeap_search 2#32 (by decide))).mpr
    (Or.inr ⟨⟨by decide,fun _ _ => rfl⟩,by decide,fun _ => Or.inl rfl,fun i _ => ?_⟩)
  change 3#32 = Call.alloc.written 0
  decide

/-- The frame of the first page of a full heap is lost. -/
theorem full_heap_not_atomic :
    getFreeContinuousBlocksAddress 1#32 fullHeap.bitmap = .ok (null, fullHeap.bitmap) ∧
      ¬ Atomic sampleImage 1#32 fullHeap .alloc := by
  have hsearch := fullHeap_search 1#32 (by decide)
  refine ⟨hsearch,fun ha => ?_⟩
  rcases harmless_of_atomic hsearch ha with h0 | ⟨-,-,-,hholds⟩
  · exact absurd h0 (by decide)
  · have hentry : fullHeap.table 0 = Call.alloc.written 0 := hholds 0 (by decide)
    exact absurd hentry (by decide)

end MikeOS.HeapFailure
