import MikeOS.KernelHeapRelease
import MikeOS.MmapEffect
import Mathlib

/-!
# Translation of heap addresses

`kheap_get_physical_address` reads the entry that `alloc_kheap_pages` wrote and
drops its attributes. The index of an entry is taken modulo the size of the
table, which no two pages of the heap window share.
-/

set_option autoImplicit false

namespace MikeOS.HeapTranslation
open BitArray MikeOS.Memory MikeOS.Paging MikeOS.PhysicalMemory MikeOS.KernelHeap MikeOS.KernelHeapRuns
open MikeOS.KernelHeapSearch MikeOS.KernelHeapRelease MikeOS.Mmu MikeOS.FrameAllocator MikeOS.FramePool
open MikeOS.MmapEffect (supply supply_distinct)

def addresses (r : Range) : Set ℕ := Set.Ico r.address.toNat (r.address.toNat+4096*r.numPages.toNat)

def InWindow (r : Range) : Prop :=
  kheapBeginAddress.toNat ≤ r.address.toNat ∧ r.address.toNat+4096*r.numPages.toNat ≤ kheapEndAddress.toNat

/-- Calls one after the other that all return, with the ranges they take or give back. -/
inductive Calls (image : KernelImage) : List Range → Kheap → Kheap → Prop where
  | none (k : Kheap) : Calls image [] k k
  | alloc {numPages address : Word} {k k' k'' : Kheap} {rs : List Range}
      (h : allocKheapPages image numPages k = .ok (address, k')) (rest : Calls image rs k' k'') :
      Calls image (⟨address, numPages⟩ :: rs) k k''
  | free {numPages address : Word} {code : ErrorCode} {k k' k'' : Kheap} {rs : List Range}
      (h : freeKheapPages address numPages k = .ok (code, k')) (rest : Calls image rs k' k'') :
      Calls image (⟨address, numPages⟩ :: rs) k k''

/-! ## Entries -/

def slotOf (v : Word) : ℕ := v.toNat/4096%1024

theorem toNat_window : kheapBeginAddress.toNat = 0xC0800000 ∧ kheapEndAddress.toNat = 0xC0C00000 := by decide

theorem translation_eq (k : Kheap) {v : Word} (hv : kheapBeginAddress.toNat ≤ v.toNat)
    (hlt : v.toNat < kheapEndAddress.toNat) (hal : v.toNat%4096 = 0) :
    kheapGetPhysicalAddress k v = k.table (slotOf v) >>> 8 <<< 8 := by
  have hb : v ≥ kheapBeginAddress ∧ v < kheapEndAddress := ⟨hv,hlt⟩
  rw [kheapGetPhysicalAddress, if_neg (not_not.mpr hb), if_neg (not_not.mpr ((pageBoundary_eq_iff v).mpr hal)),
    toNat_addressToPageTableEntry, slotOf]

theorem translation_congr {k k' : Kheap} {v : Word}
    (h : kheapBeginAddress.toNat ≤ v.toNat → v.toNat < kheapEndAddress.toNat → v.toNat%4096 = 0 →
      k'.table (slotOf v) = k.table (slotOf v)) :
    kheapGetPhysicalAddress k' v = kheapGetPhysicalAddress k v := by
  rw [kheapGetPhysicalAddress, kheapGetPhysicalAddress]
  by_cases hin : v ≥ kheapBeginAddress ∧ v < kheapEndAddress
  · rw [if_neg (not_not.mpr hin), if_neg (not_not.mpr hin)]
    by_cases hal : v.toNat%4096 = 0
    · have hentry := h hin.1 hin.2 hal
      rw [slotOf] at hentry
      rw [toNat_addressToPageTableEntry, hentry]
    · have hne : pageBoundary v ≠ v := mt (pageBoundary_eq_iff v).mp hal
      rw [if_pos hne, if_pos hne]
  · rw [if_pos hin, if_pos hin]

theorem entry_shifted {f : ℕ} (hf : f < 2^20) : entry f 3 >>> 8 <<< 8 = frameAddress f := by
  apply BitVec.eq_of_toNat_eq
  rw [BitVec.toNat_shiftLeft, BitVec.toNat_ushiftRight, toNat_entry hf (by omega), toNat_frameAddress hf,
    Nat.shiftRight_eq_div_pow, Nat.shiftLeft_eq]
  omega

theorem slot_outside {r : Range} (hr : InWindow r) (hal : r.address.toNat%4096 = 0) {v : Word}
    (hv : kheapBeginAddress.toNat ≤ v.toNat) (hlt : v.toNat < kheapEndAddress.toNat) (hval : v.toNat%4096 = 0)
    (hout : v.toNat ∉ addresses r) : slotOf v < slotOf r.address ∨ slotOf r.address+r.numPages.toNat ≤ slotOf v := by
  obtain ⟨hbegin,hend⟩ := toNat_window
  obtain ⟨h1,h2⟩ := hr
  rw [addresses, Set.mem_Ico] at hout
  unfold slotOf
  omega

theorem page_slot {r : Range} (hr : InWindow r) (hal : r.address.toNat%4096 = 0) {i : ℕ}
    (hi : i < r.numPages.toNat) :
    (r.address+BitVec.ofNat 32 i*pageSize).toNat = r.address.toNat+4096*i ∧
      slotOf (r.address+BitVec.ofNat 32 i*pageSize) = slotOf r.address+i := by
  obtain ⟨hbegin,hend⟩ := toNat_window
  obtain ⟨h1,h2⟩ := hr
  have hadr : (r.address+BitVec.ofNat 32 i*pageSize).toNat = r.address.toNat+4096*i := by
    rw [toNat_page, Nat.mod_eq_of_lt (by omega)]
  refine ⟨hadr,?_⟩
  unfold slotOf
  rw [hadr]
  omega

/-! ## One call -/

theorem overEntries_outside {body : ℕ → Kheap → Kheap}
    (hbody : ∀ i k q, q ≠ i → (body i k).table q = k.table q) {count i : ℕ} {k k' : Kheap}
    (h : overEntries body count i k = .ok k') {q : ℕ} (hq : q < i ∨ i+count ≤ q) : k'.table q = k.table q := by
  induction count generalizing i k with
  | zero =>
    cases h
    rfl
  | succ count ih =>
    rw [overEntries] at h
    split at h
    · rw [ih h (by omega), hbody i k q (by omega)]
    · cases h

/-- The entries hold the frames in the order in which they were returned. -/
theorem alloc_entries (image : KernelImage) {count i : ℕ} {k k' : Kheap}
    (h : overEntries (allocEntry image) count i k = .ok k') {j : ℕ} (hj : j < count) :
    ∃ f, f < 2^20 ∧ (supply image count k.phys)[j]? = some (frameAddress f) ∧ k'.table (i+j) = entry f 3 := by
  induction count generalizing i j k with
  | zero => omega
  | succ count ih =>
    rw [overEntries] at h
    split at h
    · cases j with
      | zero =>
        obtain ⟨f,hf,ha,-⟩ := allocate_frame image k.phys
        have hattr : readWrite ||| present = BitVec.ofNat 32 3 := by decide
        refine ⟨f,hf,?_,?_⟩
        · rw [supply, List.getElem?_cons_zero, ha]
        · rw [overEntries_outside (fun p t q hq => Function.update_of_ne hq _ _) h (by omega), allocEntry,
            Kheap.setEntry, ha, hattr, frameAddress_or hf (by omega)]
          exact Function.update_self _ _ _
      | succ j =>
        obtain ⟨f,hf,hget,htab⟩ := ih h (by omega : j < count)
        refine ⟨f,hf,?_,?_⟩
        · rw [supply, List.getElem?_cons_succ]
          exact hget
        · rw [show i+(j+1) = i+1+j by omega, htab]
    · cases h

theorem search_aligned {n a : Word} {bitmap bitmap' : Bytes} (hne : a ≠ null)
    (h : getFreeContinuousBlocksAddress n bitmap = .ok (a, bitmap')) : a.toNat%4096 = 0 := by
  have hn : n ≠ 0#32 := by
    have hpos := numPages_pos hne h
    rintro rfl
    exact absurd hpos (by decide)
  rcases search_outcome bitmap hn with ⟨-,he⟩ | ⟨-,-,he⟩ | ⟨i,s,-,-,he⟩
  · cases h.symm.trans he
    exact absurd rfl hne
  · cases h.symm.trans he
  · cases h.symm.trans he
    rw [foundAddress, toNat_page, toNat_begin, windowBase]
    omega

theorem ne_null_of_window {r : Range} (h : InWindow r) : r.address ≠ null := by
  intro h0
  have hle := h.1
  rw [h0] at hle
  exact absurd hle (by decide)

theorem alloc_fill (image : KernelImage) {n a : Word} {k k' : Kheap} (hr : InWindow ⟨a,n⟩)
    (h : allocKheapPages image n k = .ok (a, k')) :
    a.toNat%4096 = 0 ∧ ∃ t : Kheap, t.table = k.table ∧ t.phys = k.phys ∧
      overEntries (allocEntry image) n.toNat (slotOf a) t = .ok k' := by
  obtain ⟨bitmap,hsearch,hfill⟩ := searchThen_ok h
  rw [allocAndMapPhysicalPages, entryLoopCount_eq hr.1 hr.2, toNat_addressToPageTableEntry] at hfill
  exact ⟨search_aligned (ne_null_of_window hr) hsearch,{ k with bitmap := bitmap },rfl,rfl,hfill⟩

theorem alloc_keeps (image : KernelImage) {n a : Word} {k k' : Kheap} (hr : InWindow ⟨a,n⟩)
    (h : allocKheapPages image n k = .ok (a, k')) {v : Word} (hv : v.toNat ∉ addresses ⟨a,n⟩) :
    kheapGetPhysicalAddress k' v = kheapGetPhysicalAddress k v := by
  obtain ⟨hal,t,htab,-,hfill⟩ := alloc_fill image hr h
  refine translation_congr fun hge hlt hval => ?_
  rw [overEntries_outside (fun i t q hq => Function.update_of_ne hq _ _) hfill
    (slot_outside hr hal hge hlt hval hv), htab]

theorem free_keeps {n a : Word} {code : ErrorCode} {k k' : Kheap} (hr : InWindow ⟨a,n⟩)
    (h : freeKheapPages a n k = .ok (code, k')) {v : Word} (hv : v.toNat ∉ addresses ⟨a,n⟩) :
    kheapGetPhysicalAddress k' v = kheapGetPhysicalAddress k v := by
  rw [freeKheapPages] at h
  split at h
  · cases h
    rfl
  split at h
  · cases h
    rfl
  · rename_i hal
    have halign := (pageBoundary_eq_iff a).mp (not_not.mp hal)
    have hcount : entryLoopCount (addressToPageTableEntry a) n = n.toNat := entryLoopCount_eq hr.1 hr.2
    simp only [hcount, toNat_addressToPageTableEntry] at h
    split at h
    · cases h
    · rename_i t hfree
      cases h
      refine translation_congr fun hge hlt hval => ?_
      exact overEntries_outside (fun i t q hq => Function.update_of_ne hq _ _) hfree
        (slot_outside hr halign hge hlt hval hv)

/-! ## Further calls -/

/-- Calls leave the translation of an address outside all their ranges alone. -/
theorem calls_keep {image : KernelImage} {rs : List Range} {k k' : Kheap} (h : Calls image rs k k') {v : Word}
    (hrs : ∀ r ∈ rs, InWindow r) (hv : ∀ r ∈ rs, v.toNat ∉ addresses r) :
    kheapGetPhysicalAddress k' v = kheapGetPhysicalAddress k v := by
  induction h with
  | none k => rfl
  | alloc h rest ih =>
    obtain ⟨hr,hrest⟩ := List.forall_mem_cons.mp hrs
    obtain ⟨hout,hvrest⟩ := List.forall_mem_cons.mp hv
    rw [ih hrest hvrest, alloc_keeps image hr h hout]
  | free h rest ih =>
    obtain ⟨hr,hrest⟩ := List.forall_mem_cons.mp hrs
    obtain ⟨hout,hvrest⟩ := List.forall_mem_cons.mp hv
    rw [ih hrest hvrest, free_keeps hr h hout]

theorem alloc_translates (image : KernelImage) {n a : Word} {k k' : Kheap} (hr : InWindow ⟨a,n⟩)
    (h : allocKheapPages image n k = .ok (a, k')) {i : ℕ} (hi : i < n.toNat) :
    (supply image n.toNat k.phys)[i]? = some (kheapGetPhysicalAddress k' (a+BitVec.ofNat 32 i*pageSize)) := by
  obtain ⟨hal,t,-,hphys,hfill⟩ := alloc_fill image hr h
  obtain ⟨f,hf,hget,htab⟩ := alloc_entries image hfill hi
  obtain ⟨hadr,hslot⟩ := page_slot (r := ⟨a,n⟩) hr hal hi
  have hbegin : kheapBeginAddress.toNat ≤ a.toNat := hr.1
  have hend : a.toNat+4096*n.toNat ≤ kheapEndAddress.toNat := hr.2
  simp only at hadr hslot
  rw [hphys] at hget
  rw [hget, translation_eq k' (by omega) (by omega) (by omega), hslot, htab, entry_shifted hf]

/-- The pages of a range are translated to the frames they were given, which are
distinct, and so they stay while calls work on other ranges. No other page is
affected by any of the calls but those in whose range it lies. -/
theorem heap_translation (image : KernelImage) (n a : Word) (k k₁ k₂ : Kheap) (rs : List Range)
    (halloc : allocKheapPages image n k = .ok (a, k₁)) (hr : InWindow ⟨a,n⟩)
    (hsupply : ∀ f ∈ supply image n.toNat k.phys, f ≠ null) (hcalls : Calls image rs k₁ k₂)
    (hrs : ∀ r ∈ rs, InWindow r ∧ Disjoint (addresses r) (addresses ⟨a,n⟩)) :
    (∀ i, i < n.toNat → (supply image n.toNat k.phys)[i]? =
      some (kheapGetPhysicalAddress k₂ (a+BitVec.ofNat 32 i*pageSize))) ∧
    (supply image n.toNat k.phys).Nodup ∧
    ∀ v : Word, v.toNat ∉ addresses ⟨a,n⟩ → (∀ r ∈ rs, v.toNat ∉ addresses r) →
      kheapGetPhysicalAddress k₂ v = kheapGetPhysicalAddress k v := by
  have hwindow : ∀ r ∈ rs, InWindow r := fun r hmem => (hrs r hmem).1
  obtain ⟨hal,-⟩ := alloc_fill image hr halloc
  refine ⟨fun i hi => ?_,(supply_distinct image _ hsupply).of_map _,fun v hv hvrs => ?_⟩
  · have hmem : (a+BitVec.ofNat 32 i*pageSize).toNat ∈ addresses ⟨a,n⟩ := by
      have hadr : (a+BitVec.ofNat 32 i*pageSize).toNat = a.toNat+4096*i := (page_slot hr hal hi).1
      rw [addresses, Set.mem_Ico, hadr]
      exact ⟨by simp,by simpa using hi⟩
    rw [alloc_translates image hr halloc hi, calls_keep hcalls hwindow fun r hmem' hin =>
      Set.disjoint_left.mp (hrs r hmem').2 hin hmem]
  · rw [calls_keep hcalls hwindow hvrs, alloc_keeps image hr halloc hv]

theorem free_second (k : Kheap) : ∃ k', freeKheapPages 0xC0801000#32 1#32 k = .ok (.success, k') := by
  have hin : (0xC0801000#32 : Word) ≥ kheapBeginAddress ∧ (0xC0801000#32 : Word) < kheapEndAddress := by decide
  have hentry : addressToPageTableEntry 0xC0801000#32 = 1#32 := by decide
  have hcount : entryLoopCount 1#32 1#32 = 1 := by decide
  rw [freeKheapPages, if_neg (not_not.mpr hin), if_neg (by decide)]
  simp only [hentry, hcount]
  exact ⟨_,rfl⟩

theorem first_page_translated : ∃ s k₁ k₂,
    allocKheapPages sampleImage 1#32 (kheapInit (Kheap.boot s)) = .ok (0xC0800000#32, k₁) ∧
    freeKheapPages 0xC0801000#32 1#32 k₁ = .ok (.success, k₂) ∧
    kheapGetPhysicalAddress k₂ 0xC0800000#32 = (allocatePhysicalPage sampleImage s).1 ∧
    (allocatePhysicalPage sampleImage s).1 ≠ null := by
  obtain ⟨s,-,hsupply⟩ := sample_supplies
  obtain ⟨k₁,hk₁⟩ := first_page sampleImage s
  obtain ⟨k₂,hk₂⟩ := free_second k₁
  have hne := hsupply.1
  have hall : ∀ f ∈ supply sampleImage (1#32).toNat (kheapInit (Kheap.boot s)).phys, f ≠ null := by
    intro f hf
    rw [List.mem_singleton.mp hf]
    exact hne
  have hapart : Disjoint (addresses ⟨0xC0801000#32,1#32⟩) (addresses ⟨0xC0800000#32,1#32⟩) := by
    rw [addresses, addresses, Set.Ico_disjoint_Ico]
    decide
  obtain ⟨htrans,-,-⟩ := heap_translation sampleImage 1#32 0xC0800000#32 _ k₁ k₂ [⟨0xC0801000#32,1#32⟩] hk₁
    (by unfold InWindow; decide) hall (.free hk₂ (.none k₂))
    (List.forall_mem_singleton.mpr ⟨by unfold InWindow; decide,hapart⟩)
  exact ⟨s,k₁,k₂,hk₁,hk₂,(Option.some.inj (htrans 0 (by decide))).symm,hne⟩

end MikeOS.HeapTranslation
