import MikeOS.FramePool
import MikeOS.KernelHeapRuns

/-!
# Taking pages of the heap and giving them back

`alloc_kheap_pages` enters a frame and its attributes for every page, and
`free_kheap_pages` passes these entries to `free_physical_page` as they are.
With the attributes in it an entry is no page address and is turned down, so
the frames of a range stay taken when the range is given back.
-/

set_option autoImplicit false

namespace MikeOS.KernelHeapRelease
open BitArray MikeOS.Memory MikeOS.Paging MikeOS.PhysicalMemory MikeOS.KernelHeap MikeOS.Mmu
open MikeOS.FrameAllocator MikeOS.FramePool

def Supplies (image : KernelImage) : ℕ → PhysicalMem → Prop
  | 0, _ => True
  | n+1, s => (allocatePhysicalPage image s).1 ≠ null ∧ Supplies image n (allocatePhysicalPage image s).2

structure Restored (k k' : Kheap) : Prop where
  bitmap : k'.bitmap = k.bitmap
  table : ∀ i, i < pageTableSize → k'.table i = k.table i
  frames : k'.phys.bitmap = k.phys.bitmap

/-! ## The search -/

theorem numPages_pos {n address : Word} {bitmap bitmap' : Bytes} (hne : address ≠ null)
    (h : getFreeContinuousBlocksAddress n bitmap = .ok (address, bitmap')) : 0 < n.toNat := by
  by_contra h0
  have hn : n = 0#32 := by bv_omega
  subst hn
  exact hne (KernelHeapSearch.searchBlocks_zero h).1

/-! ## The entries -/

theorem alloc_tagged (image : KernelImage) {count p : ℕ} {k k' : Kheap}
    (h : overEntries (allocEntry image) count p k = .ok k') :
    (∀ q, p ≤ q → q < p+count → (k'.table q).toNat%4096 ≠ 0) ∧ (∀ q, q < p → k'.table q = k.table q) ∧
      ∀ q, bit k.phys.bitmap q = false → bit k'.phys.bitmap q = false := by
  induction count generalizing p k with
  | zero =>
    cases h
    exact ⟨fun q h1 h2 => by omega,fun _ _ => rfl,fun _ hq => hq⟩
  | succ count ih =>
    rw [overEntries] at h
    split at h
    · obtain ⟨htag,hlow,hkeep⟩ := ih h
      obtain ⟨f,hf,ha,-⟩ := allocate_frame image k.phys
      have hself : (allocEntry image p k).table p = entry f 3 := by
        have hattr : readWrite ||| present = BitVec.ofNat 32 3 := by decide
        rw [allocEntry, Kheap.setEntry, ha, hattr, frameAddress_or hf (by omega)]
        exact Function.update_self _ _ _
      refine ⟨fun q h1 h2 => ?_,fun q hq => ?_,fun q hq => hkeep q (allocate_keeps image k.phys hq)⟩
      · by_cases hq : q = p
        · rw [hq, hlow p (by omega), hself, toNat_entry hf (by omega)]
          omega
        · exact htag q (by omega) (by omega)
      · rw [hlow q (by omega)]
        exact Function.update_of_ne (by omega) _ _
    · cases h

theorem free_tagged {count p : ℕ} {k k' : Kheap} (ht : ∀ q, p ≤ q → q < p+count → (k.table q).toNat%4096 ≠ 0)
    (h : overEntries freeEntry count p k = .ok k') : k'.phys = k.phys := by
  induction count generalizing p k with
  | zero =>
    cases h
    rfl
  | succ count ih =>
    have hphys : (freeEntry p k).phys = k.phys := by
      change (freePhysicalPage (k.table p) k.phys).2 = k.phys
      rw [freePhysicalPage_unaligned _ _ (ht p (by omega) (by omega))]
    rw [overEntries] at h
    split at h
    · rw [ih (fun q h1 h2 => ?_) h, hphys]
      have hother : (freeEntry p k).table q = k.table q := Function.update_of_ne (by omega) _ _
      rw [hother]
      exact ht q (by omega) (by omega)
    · cases h

theorem alloc_takes (image : KernelImage) {count p : ℕ} {k k' : Kheap}
    (hne : (allocatePhysicalPage image k.phys).1 ≠ null)
    (h : overEntries (allocEntry image) (count+1) p k = .ok k') :
    ∃ f, bit k.phys.bitmap f = true ∧ bit k'.phys.bitmap f = false := by
  obtain ⟨f,-,ha,hgrant | ⟨h0,-⟩⟩ := allocate_frame image k.phys
  · rw [overEntries] at h
    split at h
    · refine ⟨f,hgrant.2.1,(alloc_tagged image h).2.2 f ?_⟩
      exact (granted_bit hgrant f).trans (by simp)
    · cases h
  · rw [ha, h0] at hne
    exact absurd rfl hne

theorem free_success {address n : Word} {k k' : Kheap} (h : freeKheapPages address n k = .ok (.success, k')) :
    overEntries freeEntry (entryLoopCount (addressToPageTableEntry address) n)
      (addressToPageTableEntry address).toNat
      { k with bitmap := turnBitsOn k.bitmap (addressToBitIndex address kheapBeginAddress) n } = .ok k' := by
  rw [freeKheapPages] at h
  split at h
  · cases h
  · split at h
    · cases h
    · simp only at h
      split at h
      · cases h
      · rename_i k₁ hfree
        cases h
        exact hfree

theorem entryLoopCount_eq {address n : Word} (hbegin : kheapBeginAddress ≤ address)
    (hend : address.toNat+4096*n.toNat ≤ kheapEndAddress.toNat) :
    entryLoopCount (addressToPageTableEntry address) n = n.toNat := by
  have hb : kheapBeginAddress.toNat ≤ address.toNat := hbegin
  rw [show kheapBeginAddress.toNat = 0xC0800000 by decide] at hb
  rw [show kheapEndAddress.toNat = 0xC0C00000 by decide] at hend
  rw [entryLoopCount, BitVec.toNat_add, toNat_addressToPageTableEntry]
  omega

theorem frames_stay_taken (image : KernelImage) {n address : Word} {k k₁ k₂ : Kheap}
    (halloc : allocKheapPages image n k = .ok (address, k₁)) (hne : address ≠ null)
    (hbegin : kheapBeginAddress ≤ address) (hend : address.toNat+4096*n.toNat ≤ kheapEndAddress.toNat)
    (henough : Supplies image n.toNat k.phys) (hfree : freeKheapPages address n k₁ = .ok (.success, k₂)) :
    ∃ f, bit k.phys.bitmap f = true ∧ bit k₂.phys.bitmap f = false := by
  obtain ⟨bitmap,hsearch,hfill⟩ := searchThen_ok halloc
  have hrelease := free_success hfree
  have hpos := numPages_pos hne hsearch
  obtain ⟨count,hcount⟩ : ∃ count, n.toNat = count+1 := ⟨n.toNat-1,by omega⟩
  rw [hcount] at henough
  rw [allocAndMapPhysicalPages, entryLoopCount_eq hbegin hend, hcount] at hfill
  rw [entryLoopCount_eq hbegin hend, hcount] at hrelease
  obtain ⟨f,hwas,hnow⟩ := alloc_takes image (k := { k with bitmap := bitmap }) henough.1 hfill
  refine ⟨f,hwas,?_⟩
  have htagged := (alloc_tagged image hfill).1
  have hsame := free_tagged (k := { k₁ with
    bitmap := turnBitsOn k₁.bitmap (addressToBitIndex address kheapBeginAddress) n }) htagged hrelease
  rw [hsame]
  exact hnow

/-- Giving back a range of the heap that was just taken never restores the
frames it was given. -/
theorem release_never_restores (image : KernelImage) (n address : Word) (k k₁ : Kheap)
    (halloc : allocKheapPages image n k = .ok (address, k₁)) (hne : address ≠ null)
    (hbegin : kheapBeginAddress ≤ address) (hend : address.toNat+4096*n.toNat ≤ kheapEndAddress.toNat)
    (henough : Supplies image n.toNat k.phys) :
    ¬ ∃ k₂, freeKheapPages address n k₁ = .ok (.success, k₂) ∧ Restored k k₂ := by
  rintro ⟨k₂,hfree,hrestored⟩
  obtain ⟨f,hwas,hnow⟩ := frames_stay_taken image halloc hne hbegin hend henough hfree
  rw [hrestored.frames, hwas] at hnow
  cases hnow

/-! ## The first page of the heap -/

theorem first_page (image : KernelImage) (phys : PhysicalMem) :
    ∃ k₁, allocKheapPages image 1#32 (kheapInit (Kheap.boot phys)) = .ok (0xC0800000#32, k₁) := by
  obtain ⟨bitmap,hsearch⟩ := KernelHeapRuns.first_search phys
  rw [allocKheapPages, hsearch, searchThen]
  simp only [allocAndMapPhysicalPages, KernelHeapRuns.first_entry]
  exact ⟨_,rfl⟩

theorem sample_supplies : ∃ s, phyMemoryManagerInit sampleImage sampleMap 0x9000#32 1#32 2 = .ok s ∧
    Supplies sampleImage 1 s := by
  obtain ⟨s,hs,hbits⟩ := sample_init
  refine ⟨s,hs,fun hnull => ?_,trivial⟩
  rcases (allocate_null_iff sampleImage s).mp hnull with hf | hx
  · rw [(init_reserved hs).2] at hf
    cases hf
  · have hzero := hx 0x103 (by decide) (by decide)
    rw [hbits] at hzero
    cases hzero

theorem first_page_not_restored : ∃ s k₁,
    phyMemoryManagerInit sampleImage sampleMap 0x9000#32 1#32 2 = .ok s ∧
    allocKheapPages sampleImage 1#32 (kheapInit (Kheap.boot s)) = .ok (0xC0800000#32, k₁) ∧
    Supplies sampleImage 1 s ∧
    ¬ ∃ k₂, freeKheapPages 0xC0800000#32 1#32 k₁ = .ok (.success, k₂) ∧
      Restored (kheapInit (Kheap.boot s)) k₂ := by
  obtain ⟨s,hs,hsupply⟩ := sample_supplies
  obtain ⟨k₁,hk₁⟩ := first_page sampleImage s
  refine ⟨s,k₁,hs,hk₁,hsupply,?_⟩
  rintro ⟨k₂,hfree,hrestored⟩
  obtain ⟨f,hwas,hnow⟩ := frames_stay_taken sampleImage hk₁ (by decide) (by decide) (by decide) hsupply hfree
  rw [hrestored.frames, hwas] at hnow
  cases hnow

theorem first_page_leaks : ∃ s k₁,
    allocKheapPages sampleImage 1#32 (kheapInit (Kheap.boot s)) = .ok (0xC0800000#32, k₁) ∧
    Supplies sampleImage 1 s ∧
    ¬ ∃ k₂, freeKheapPages 0xC0800000#32 1#32 k₁ = .ok (.success, k₂) ∧
      Restored (kheapInit (Kheap.boot s)) k₂ := by
  obtain ⟨s,-,hsupply⟩ := sample_supplies
  obtain ⟨k₁,hk₁⟩ := first_page sampleImage s
  exact ⟨s,k₁,hk₁,hsupply,release_never_restores sampleImage 1#32 0xC0800000#32 _ k₁ hk₁ (by decide)
    (by decide) (by decide) hsupply⟩

end MikeOS.KernelHeapRelease
