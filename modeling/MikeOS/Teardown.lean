import MikeOS.PageDirectory
import MikeOS.Mmaps

/-!
# Tearing down an address space

Every entry of a directory and of its tables carries attributes, so each call
of `free_physical_page` that the teardown makes is turned down. The invariant
below holds from a new address space on through every `mmap`, also when frames
run out on the way.
-/

set_option autoImplicit false

namespace MikeOS.Teardown
open BitArray MikeOS.Memory MikeOS.Paging MikeOS.PhysicalMemory MikeOS.KernelHeap MikeOS.KernelHeapSearch
open MikeOS.Boot MikeOS.KernelHeapRuns MikeOS.Mmu MikeOS.VirtualMemory MikeOS.FramePool MikeOS.PageTables
open MikeOS.PageDirectory MikeOS.Mmaps

def UserSlot (mem : Frames) (D H i : ℕ) : Prop :=
  mem D i = 0#32 ∨ ∃ t, t < 2^20 ∧ mem D i = entry t 7 ∧ t ≠ D ∧ t ≠ H ∧
    ∀ j, j < 1024 → Tagged (mem t j)

/-- Directory `D` is in use, known to the heap as page `p`, and its frame and
the heap's table are not available. -/
structure InUse (m : Machine) (D H p : ℕ) (a : Word) : Prop where
  page : HeapPage m D H p D a
  slots : ∀ i, i < 768 → UserSlot m.mem D H i
  pos : D ≠ 0 ∧ H ≠ 0
  dirTaken : bit m.phys.bitmap D = false
  heapTaken : bit m.phys.bitmap H = false

theorem tagged_entry {f a : ℕ} (hf : f < 2^20) (ha : a < 4096) (h0 : 0 < a) : Tagged (entry f a) := by
  right
  rw [toNat_entry hf ha]
  omega

theorem taggedSlot_of_userSlot {mem : Frames} {D H i : ℕ} (h : UserSlot mem D H i) :
    TaggedSlot mem D i := by
  rcases h with h0 | ⟨t,ht,he,-,-,hj⟩
  · exact Or.inl h0
  · refine Or.inr ⟨?_,?_,?_⟩
    · rw [he]
      exact isPresent_entry (by omega)
    · rw [he, toNat_entry ht (by omega)]
      omega
    · rwa [he, frameOf_entry ht (by omega)]

theorem slot_of_userSlot {mem : Frames} {D H i : ℕ} (h : UserSlot mem D H i) : Slot mem D i := by
  rcases h with h0 | ⟨t,ht,he,hne,-,-⟩
  · exact Or.inl h0
  · rw [Slot, he, frameOf_entry ht (by omega)]
    exact Or.inr ⟨isPresent_entry (by omega),hne⟩

theorem heapPage_mapped {m m' : Machine} {D H p : ℕ} {a : Word} (h : HeapPage m D H p D a)
    (hc : m'.cr3 = m.cr3) (hD : ∀ i, 768 ≤ i → m'.mem D i = m.mem D i) (hH : m'.mem H = m.mem H) :
    HeapPage m' D H p D a := by
  refine ⟨⟨⟨?_,h.mapped.current.lt,?_⟩,h.mapped.lt,h.mapped.ne,?_⟩,h.page,h.address,h.frame,?_⟩
  · rw [hc, h.mapped.current.cr3]
  · rw [hD _ (by omega), h.mapped.current.self]
  · rw [hD _ (by omega), h.mapped.heap]
  · rw [hH, h.entry]

theorem tagged_setWord {mem : Frames} {t k f u j : ℕ} (hf : f < 2^20) (h : Tagged (mem u j)) :
    Tagged (setWord mem t k (entry f 7) u j) := by
  by_cases hut : u = t
  · subst hut
    by_cases hj : j = k
    · rw [hj, setWord_self]
      exact tagged_entry hf (by omega) (by omega)
    · rwa [setWord_index _ _ _ hj]
  · rwa [setWord_frame _ _ _ hut]

theorem inUse_addPage {m : Machine} {D H p q t f : ℕ} {a : Word} {phys : PhysicalMem} (h : InUse m D H p a)
    (htD : t ≠ D) (htH : t ≠ H) (hf : f < 2^20)
    (hkeep : ∀ g, bit m.phys.bitmap g = false → bit phys.bitmap g = false) :
    InUse (mapped ((m.granting q (frameAddress f)).withPhys phys) m.mem t q f) D H p a := by
  have hD : setWord m.mem t (q%1024) (entry f 7) D = m.mem D := setWord_frame _ _ _ (Ne.symm htD)
  refine ⟨heapPage_mapped h.page rfl (fun i _ => congrFun hD i) (setWord_frame _ _ _ (Ne.symm htH)),
    fun i hi => ?_,h.pos,hkeep _ h.dirTaken,hkeep _ h.heapTaken⟩
  rcases h.slots i hi with hz | ⟨u,hu,heu,huD,huH,hutag⟩
  · exact Or.inl (by rw [← hz]; exact congrFun hD i)
  · refine Or.inr ⟨u,hu,by rw [← heu]; exact congrFun hD i,huD,huH,fun j hj => ?_⟩
    exact tagged_setWord hf (hutag j hj)

theorem inUse_addTable {m : Machine} {D H p q t f : ℕ} {a : Word} {phys : PhysicalMem} (h : InUse m D H p a)
    (hq : q/1024 < 768) (htD : t ≠ D) (htH : t ≠ H) (ht : t < 2^20) (hf : f < 2^20)
    (hkeep : ∀ g, bit m.phys.bitmap g = false → bit phys.bitmap g = false) :
    InUse (mapped ((m.granting q (frameAddress f)).withPhys phys) (withTable m.mem D (q/1024) t) t q f)
      D H p a := by
  have hrow : ∀ g, g ≠ t → withTable m.mem D (q/1024) t g = setWord m.mem D (q/1024) (entry t 7) g :=
    fun g hg => by rw [withTable, setFrame_frame _ _ hg]
  have hD : ∀ i, setWord (withTable m.mem D (q/1024) t) t (q%1024) (entry f 7) D i =
      setWord m.mem D (q/1024) (entry t 7) D i := fun i => by
    rw [setWord_frame _ _ _ (Ne.symm htD), hrow D (Ne.symm htD)]
  have hother : ∀ i, i ≠ q/1024 →
      setWord (withTable m.mem D (q/1024) t) t (q%1024) (entry f 7) D i = m.mem D i := fun i hi => by
    rw [hD, setWord_index _ _ _ hi]
  refine ⟨heapPage_mapped h.page rfl (fun i hi => hother i (by omega)) ?_,fun i hi => ?_,h.pos,
    hkeep _ h.dirTaken,hkeep _ h.heapTaken⟩
  · change setWord (withTable m.mem D (q/1024) t) t (q%1024) (entry f 7) H = m.mem H
    rw [setWord_frame _ _ _ (Ne.symm htH), hrow H (Ne.symm htH), setWord_frame _ _ _ h.page.mapped.ne]
  · by_cases hiq : i = q/1024
    · refine Or.inr ⟨t,ht,(hD i).trans (by rw [hiq, setWord_self]),htD,htH,fun j _ => tagged_setWord hf ?_⟩
      rw [withTable, setFrame_self]
      exact Or.inl rfl
    · rcases h.slots i hi with hz | ⟨u,hu,heu,huD,huH,hutag⟩
      · exact Or.inl ((hother i hiq).trans hz)
      · refine Or.inr ⟨u,hu,(hother i hiq).trans heu,huD,huH,fun j hj => tagged_setWord hf ?_⟩
        by_cases hut : u = t
        · rw [hut, withTable, setFrame_self]
          exact Or.inl rfl
        · rw [hrow u hut, setWord_frame _ _ _ huD]
          exact hutag j hj

theorem mmapPage_inUse {L : Layout} {m m' : Machine} {D H p : ℕ} {a v : Word} (hv : UserPage v)
    (h : InUse m D H p a) (hm : mmapPage L v m = .ok m') : InUse m' D H p a := by
  have hslot := h.slots _ hv
  rcases mmapPage_cases L h.page.mapped.current hv (slot_of_userSlot hslot) with
    ⟨-,he⟩ | ⟨-,h0,f,phys,hf,ha,he⟩ | ⟨h0,f,phys,t,phys',hf,ht,ha,ha',he⟩
  · rw [he] at hm
    cases hm
    exact h
  · rw [he] at hm
    cases hm
    rcases hslot with hz | ⟨t,ht,het,htD,htH,htag⟩
    · exact absurd hz h0
    rw [het, frameOf_entry ht (by omega)]
    exact inUse_addPage h htD htH hf (allocate_fresh hf ha).2
  · obtain ⟨hfresh,hkeep⟩ := allocate_fresh hf ha
    obtain ⟨hfresh',hkeep'⟩ := allocate_fresh ht ha'
    have htD : t ≠ D := Ne.symm (hfresh' D h.pos.1 (hkeep _ h.dirTaken))
    have htH : t ≠ H := Ne.symm (hfresh' H h.pos.2 (hkeep _ h.heapTaken))
    rw [he htD] at hm
    cases hm
    exact inUse_addTable h hv htD htH ht hf (fun g hg => hkeep' g (hkeep g hg))

/-- While the directory is in use `mmap` returns, and nothing it turns down fails. -/
theorem mmapPage_progress {L : Layout} {m : Machine} {D H p : ℕ} {a v : Word} (hv : UserPage v)
    (h : InUse m D H p a) : ∃ m', mmapPage L v m = .ok m' := by
  have hslot := h.slots _ hv
  rcases mmapPage_cases L h.page.mapped.current hv (slot_of_userSlot hslot) with
    ⟨-,he⟩ | ⟨-,-,f,phys,-,-,he⟩ | ⟨-,f,phys,t,phys',hf,ht,ha,ha',he⟩
  · exact ⟨_,he⟩
  · exact ⟨_,he⟩
  · obtain ⟨-,hkeep⟩ := allocate_fresh hf ha
    obtain ⟨hfresh,-⟩ := allocate_fresh ht ha'
    exact ⟨_,he (Ne.symm (hfresh D h.pos.1 (hkeep _ h.dirTaken)))⟩

theorem mmapLoop_progress {L : Layout} {D H p count : ℕ} {a v : Word} {m : Machine}
    (hv : v.toNat+4096*count ≤ 0xC0000000) (h : InUse m D H p a) :
    ∃ m', mmapLoop L count v m = .ok m' := by
  have hstep : ∀ v m, UserPage v → InUse m D H p a → ∃ m', mmapPage L v m = .ok m' ∧ InUse m' D H p a := by
    intro v m hpage hm
    obtain ⟨m₁,h₁⟩ := mmapPage_progress (L := L) hpage hm
    exact ⟨m₁,h₁,mmapPage_inUse hpage hm h₁⟩
  obtain ⟨m',hloop,-⟩ := mmapLoop_ok hstep hv h
  exact ⟨m',hloop⟩

theorem mmap_progress {L : Layout} {D H p : ℕ} {a v n : Word} {m : Machine}
    (hr : mmapRejects v n = false) (h : InUse m D H p a) : ∃ m', mmap L v n m = .ok (.success, m') := by
  obtain ⟨m',hm⟩ := mmapLoop_progress (L := L) (mmapCount_le hr).2 h
  refine ⟨m',?_⟩
  rw [mmap, hr, if_neg (by simp), hm, ok_bind]
  rfl

/-! ## A directory in frame zero

When no frame is left the new directory is entered at frame zero. The first
page that `mmap` then maps clears the directory under its own feet. -/

structure Stranded (m : Machine) (H p : ℕ) (a : Word) : Prop where
  page : HeapPage m 0 H p 0 a
  slots : ∀ i, i < 768 → m.mem 0 i = 0#32
  none : m.phys.noPageAvailable = true
  taken : bit m.phys.bitmap 0 = false

theorem allocate_refused {image : KernelImage} {s : PhysicalMem} (h : s.noPageAvailable = true) :
    allocatePhysicalPage image s = (frameAddress 0, s) := by
  rw [allocatePhysicalPage, if_pos h]
  rfl

theorem storeWord_fault {m : Machine} {v : Word} (w : Word)
    (h : m.mem (frameOf m.cr3) (v.toNat/2^22) = 0#32) : storeWord v w m = .error .pageFault := by
  have hw : walk m v = .error .pageFault := by
    rw [walk, toNat_addressToDirectoryEntry, h]
    rfl
  rw [storeWord, hw]
  rfl

theorem mmapPage_stranded {L : Layout} {m : Machine} {H p : ℕ} {a v : Word} (hv : UserPage v)
    (h : Stranded m H p a) : mmapPage L v m = .error .pageFault := by
  have hcur := h.page.mapped.current
  have h0 : m.mem 0 (v.toNat/4096/1024) = 0#32 := h.slots _ hv
  have hi : v.toNat/4096/1024 < 1023 := by unfold UserPage at hv; omega
  have hne : ¬ Entered m.mem 0 (v.toNat/4096) := fun he => he.1 h0
  have hc : Current ((m.granting (v.toNat/4096) (frameAddress 0)).withPhys m.phys) 0 :=
    ⟨hcur.cr3,hcur.lt,hcur.self⟩
  simp only [mmapPage, pageExists_eq hcur (Or.inl h0), ok_bind, decide_eq_false hne, Bool.false_eq_true,
    if_false, allocate_refused h.none, mapUserVirtualAddressToPhysical, pageIndex.1, pageIndex.2,
    load_directory hc (show v.toNat/4096/1024 < 1024 by omega), withPhys_mem, granting_mem, if_pos h0,
    addTable_ok L hc hi (show 0 < 2^20 by omega) (allocate_refused h.none), writeEntry]
  rw [storeWord_fault]
  · rfl
  · have hc' : frameOf m.cr3 = 0 := hcur.cr3
    simp only [withMem_mem, withMem_cr3, withPhys_cr3, granting_cr3, hc', withTable, setFrame_self]

/-! ## What leaves the bitmap of the heap alone -/

def KeepsHeap (op : Machine → Except Stop Machine) : Prop :=
  ∀ m m', op m = .ok m' → m'.heapBitmap = m.heapBitmap

theorem keepsHeap_bind {f g : Machine → Except Stop Machine} (hf : KeepsHeap f) (hg : KeepsHeap g) :
    KeepsHeap fun m => f m >>= g := by
  intro m m' h
  obtain ⟨m₁,h₁,h₂⟩ := bind_eq_ok h
  rw [hg m₁ m' h₂, hf m m₁ h₁]

theorem keepsHeap_store (v w : Word) : KeepsHeap (storeWord v w) := by
  intro m m' h
  obtain ⟨f,-,hm⟩ := bind_eq_ok h
  cases hm
  rfl

theorem keepsHeap_clear (v : Word) : KeepsHeap (clearPage v) := by
  intro m m' h
  obtain ⟨f,-,hm⟩ := bind_eq_ok h
  cases hm
  rfl

theorem keepsHeap_write (v a w : Word) : KeepsHeap (writeEntry v a w) := by
  refine keepsHeap_bind (keepsHeap_store v a) (fun m m' h => ?_)
  obtain ⟨e,-,hm⟩ := bind_eq_ok h
  exact keepsHeap_store _ _ m m' hm

theorem keepsHeap_copyKernel (L : Layout) (a : Word) : KeepsHeap (copyKernel L a) := by
  refine keepsHeap_bind (keepsHeap_write _ _ _) (keepsHeap_bind (keepsHeap_write _ _ _) ?_)
  intro m m' h
  cases h
  rfl

theorem keepsHeap_mapKheap (L : Layout) (a : Word) : KeepsHeap (mapKheapToPgd L a) := by
  intro m m' h
  rw [mapKheapToPgd] at h
  split at h
  · cases h
    rfl
  · exact keepsHeap_write _ _ _ m m' h

theorem keepsHeap_addTable (L : Layout) (i : ℕ) : KeepsHeap (addTable L i) := by
  intro m m' h
  obtain ⟨m₁,h₁,h₂⟩ := bind_eq_ok h
  rw [keepsHeap_clear _ m₁ m' h₂, keepsHeap_write _ _ _ _ m₁ h₁]
  rfl

theorem keepsHeap_mmapPage (L : Layout) (v : Word) : KeepsHeap (mmapPage L v) := by
  intro m m' h
  obtain ⟨there,-,h₁⟩ := bind_eq_ok h
  split at h₁
  · cases h₁
    rfl
  · obtain ⟨e,-,h₂⟩ := bind_eq_ok h₁
    split at h₂
    · obtain ⟨m₁,h₃,h₄⟩ := bind_eq_ok h₂
      rw [keepsHeap_write _ _ _ m₁ m' h₄, keepsHeap_addTable L _ _ m₁ h₃]
      rfl
    · rw [keepsHeap_write _ _ _ _ m' h₂]
      rfl

theorem keepsHeap_freeTable (i count j : ℕ) : KeepsHeap (freeTable i count j) := by
  induction count generalizing j with
  | zero =>
    intro m m' h
    cases h
    rfl
  | succ count ih =>
    intro m m' h
    obtain ⟨e,-,h₁⟩ := bind_eq_ok h
    rw [ih (j+1) _ m' h₁, freeIfSet]
    split <;> rfl

theorem keepsHeap_freeTables (vmm : Vas) (count i : ℕ) : KeepsHeap (freeTables vmm count i) := by
  induction count generalizing i with
  | zero =>
    intro m m' h
    cases h
    rfl
  | succ count ih =>
    intro m m' h
    obtain ⟨e,-,h₁⟩ := bind_eq_ok h
    split at h₁
    · obtain ⟨m₁,h₂,h₃⟩ := bind_eq_ok h₁
      obtain ⟨e',-,h₄⟩ := bind_eq_ok h₃
      rw [ih (i+1) _ m' h₄, withPhys_heapBitmap, keepsHeap_freeTable i _ 0 m m₁ h₂]
    · exact ih (i+1) m m' h₁

/-! ## Teardown -/

/-- The frames of an address space: its directory, its user tables and the
pages they map. -/
def SpaceFrame (m : Machine) (vmm : Vas) (f : ℕ) : Prop :=
  let D := frameOf vmm.physicalPgdAddress
  f = D ∨ ∃ i, i < 768 ∧ isPresent (m.mem D i) = true ∧
    (f = frameOf (m.mem D i) ∨ ∃ j, j < 1024 ∧
      isPresent (m.mem (frameOf (m.mem D i)) j) = true ∧ f = frameOf (m.mem (frameOf (m.mem D i)) j))

def heapPageOf (vmm : Vas) : ℕ := (vmm.pageDirectory.toNat-windowBase)/4096

structure Released (before after : Machine) (vmm : Vas) : Prop where
  frames : ∀ f, SpaceFrame before vmm f → bit after.phys.bitmap f = true
  others : ∀ f, ¬ SpaceFrame before vmm f → bit after.phys.bitmap f = bit before.phys.bitmap f
  heapPage : bit after.heapBitmap (heapPageOf vmm) = true

/-- The kernel runs on a directory that refers to itself and maps the heap,
and neither that directory, the heap's table nor frame zero is available. -/
structure Ready (L : Layout) (m : Machine) : Prop where
  mapped : HeapMapped m (frameOf m.cr3) L.kheapPageTables
  nonzero : frameOf m.cr3 ≠ 0
  dirTaken : bit m.phys.bitmap (frameOf m.cr3) = false
  heapTaken : bit m.phys.bitmap L.kheapPageTables = false
  zeroTaken : bit m.phys.bitmap 0 = false
  high : HighClear m.heapBitmap

theorem heapTable_ne_zero (L : Layout) : L.kheapPageTables ≠ 0 := by
  have := (L.placed L.kheapPageTables (by simp)).1
  omega

theorem suitable_one {bitmap : Bytes} {i s : ℕ} (h : Found bitmap 1 i s) (hin : 8*i+s < 1024) :
    Suitable bitmap 1 i s := by
  refine suitable_of_found h (fun q hq => ?_) (by omega)
  obtain ⟨e,hrun,-,-⟩ := h.found
  rw [show q = 0 by omega, Nat.add_zero]
  exact hrun.holds s (le_refl s) hrun.le

/-- The address space just made is in use once `cr3` holds its directory. -/
theorem withDirectory_page {L : Layout} {i s f : ℕ} (m : Machine) (phys : PhysicalMem)
    (hf : f < 2^20) (hfH : f ≠ L.kheapPageTables) (hin : 8*i+s < 1024) :
    HeapPage { withDirectory L m i s f phys with cr3 := frameAddress f } f L.kheapPageTables (8*i+s) f
        (foundAddress i s) ∧
      ∀ j, j < 768 → (withDirectory L m i s f phys).mem f j = 0#32 := by
  have hrow : (withDirectory L m i s f phys).mem f = newDirectory L f := setFrame_self _ _ _
  have hH : (withDirectory L m i s f phys).mem L.kheapPageTables (8*i+s) = entry f 3 := by
    change setFrame _ f _ _ _ = _
    rw [setFrame_frame _ _ (Ne.symm hfH), setWord_self]
  refine ⟨⟨⟨⟨frameOf_frameAddress hf,hf,?_⟩,static_lt L (by simp),Ne.symm hfH,?_⟩,hin,
    toNat_foundAddress (by omega),hf,hH⟩,fun j hj => ?_⟩
  · exact (congrFun hrow 1023).trans (Function.update_self _ _ _)
  · refine (congrFun hrow 770).trans ?_
    rw [newDirectory, Function.update_of_ne (by omega), Function.update_self]
  · rw [hrow, newDirectory, Function.update_of_ne (by omega), Function.update_of_ne (by omega),
      Function.update_of_ne (by omega), Function.update_of_ne (by omega)]

theorem onHeap_inv {α : Type} {m m' : Machine} {D H : ℕ} (h : HeapMapped m D H)
    {f : Kheap → Except Stop (α × Kheap)} {a : α} (ho : onHeap f m = .ok (a, m')) :
    ∃ k, f ⟨m.heapBitmap, m.mem H, m.phys⟩ = .ok (a, k) ∧ m' = Machine.withHeap m H k := by
  rw [onHeap, walk_heapTable h, ok_bind] at ho
  obtain ⟨⟨b,k⟩,hk,hm⟩ := bind_eq_ok ho
  cases hm
  exact ⟨k,hk,rfl⟩

theorem allocPageDir_some {L : Layout} {m m₁ : Machine} {D : ℕ} {vmm : Vas}
    (h : HeapMapped m D L.kheapPageTables) (ha : allocPageDir L m = .ok (some vmm, m₁)) :
    vmm.pageDirectory ≠ null ∧ ∃ k, m₁.heapBitmap = k.bitmap ∧ allocKheapPages L.toKernelImage 1#32
      ⟨m.heapBitmap, m.mem L.kheapPageTables, m.phys⟩ = .ok (vmm.pageDirectory, k) := by
  obtain ⟨⟨a,m₂⟩,halloc,h₂⟩ := bind_eq_ok ha
  obtain ⟨k,hk,rfl⟩ := onHeap_inv h halloc
  simp only at h₂
  split at h₂
  · cases h₂
  · rename_i hne
    obtain ⟨m₃,hclear,h₃⟩ := bind_eq_ok h₂
    obtain ⟨m₄,hcopy,h₄⟩ := bind_eq_ok h₃
    obtain ⟨m₅,hmap,h₅⟩ := bind_eq_ok h₄
    obtain ⟨⟨b,m₆⟩,hget,h₆⟩ := bind_eq_ok h₅
    obtain ⟨m₇,hwrite,h₇⟩ := bind_eq_ok h₆
    cases h₇
    refine ⟨hne,k,?_,hk⟩
    have hsame : m₆.heapBitmap = m₅.heapBitmap := by
      obtain ⟨t,-,hget⟩ := bind_eq_ok hget
      cases hget
      rfl
    rw [keepsHeap_write _ _ _ _ _ hwrite, hsame, keepsHeap_mapKheap L a _ _ hmap,
      keepsHeap_copyKernel L a _ _ hcopy, keepsHeap_clear a _ _ hclear]
    rfl

theorem allocPageDir_found {L : Layout} {m m₁ : Machine} {D : ℕ} {vmm : Vas}
    (h : HeapMapped m D L.kheapPageTables) (hh : HighClear m.heapBitmap)
    (ha : allocPageDir L m = .ok (some vmm, m₁)) :
    ∃ i s, Found m.heapBitmap 1 i s ∧ vmm.pageDirectory = foundAddress i s ∧
      m₁.heapBitmap = taken m.heapBitmap 1#32 i s := by
  obtain ⟨hne,k,hbitmap,hk⟩ := allocPageDir_some h ha
  have hfollows := alloc_follows L.toKernelImage 1#32 ⟨m.heapBitmap, m.mem L.kheapPageTables, m.phys⟩
  rw [hk] at hfollows
  rcases search_cases hh (show 1#32 ≠ 0#32 by decide) with ⟨-,hg⟩ | ⟨-,-,hg⟩ | ⟨i,s,hfound,hg⟩
  · rw [hg] at hfollows
    rcases hfollows with he | ⟨k',he,-⟩
    · cases he
    · exact absurd (congrArg Prod.fst (Except.ok.inj he)) hne
  · rw [hg] at hfollows
    cases hfollows
  · rw [hg] at hfollows
    rcases hfollows with he | ⟨k',he,hb⟩
    · cases he
    · rw [Except.ok.injEq, Prod.mk.injEq] at he
      obtain ⟨hadr,rfl⟩ := he
      exact ⟨i,s,hfound,hadr,hbitmap.trans hb⟩

theorem mmaps_heapBitmap {L : Layout} {calls : List (Word × Word)} {m m' : Machine}
    (h : mmaps L calls m = some m') : m'.heapBitmap = m.heapBitmap :=
  mmaps_inv (P := fun x => x.heapBitmap = m.heapBitmap)
    (fun v x x' _ hx hstep => (keepsHeap_mmapPage L v x x' hstep).trans hx) rfl h

/-- A directory page outside the window is not given back. -/
theorem free_outside {vmm : Vas} {m m' : Machine} {code : ErrorCode}
    (ha : ¬ vmm.pageDirectory < kheapEndAddress)
    (h : freeVirtualAddressSpace vmm m = .ok (code, m')) : m'.heapBitmap = m.heapBitmap := by
  obtain ⟨m₁,htables,h₁⟩ := bind_eq_ok h
  obtain ⟨⟨c,m₂⟩,hheap,h₂⟩ := bind_eq_ok h₁
  cases h₂
  obtain ⟨t,-,hk⟩ := bind_eq_ok hheap
  rw [freeKheapPages, if_pos (fun hw => ha hw.2)] at hk
  cases hk
  exact keepsHeap_freeTables vmm _ 0 m m₁ htables

theorem switch_eq {vmm : Vas} (h : vmm.pageDirectory ≠ null) (m : Machine) :
    (switchVirtualAddressSpace vmm m).2 = { m with cr3 := vmm.physicalPgdAddress } := by
  rw [switchVirtualAddressSpace, if_neg h]

/-- The directory's own frame is taken before the teardown and after it. -/
theorem directory_stays_taken {L : Layout} {m₀ m₁ m₂ m₃ : Machine} {vmm : Vas}
    {calls : List (Word × Word)} {code : ErrorCode} (hready : Ready L m₀)
    (halloc : allocPageDir L m₀ = .ok (some vmm, m₁)) {i s : ℕ} (hs : Suitable m₀.heapBitmap 1 i s)
    (hmaps : mmaps L calls (switchVirtualAddressSpace vmm m₁).2 = some m₂)
    (hfree : freeVirtualAddressSpace vmm m₂ = .ok (code, m₃)) :
    bit m₃.phys.bitmap (frameOf vmm.physicalPgdAddress) = false := by
  have hin : 8*i+s < 1024 := hs.inside
  obtain ⟨f,phys,hf,hpair,hcase⟩ := allocate_pair L.toKernelImage m₀.phys
  obtain ⟨hfresh,hkeep⟩ := allocate_fresh hf hpair
  have hfH := Ne.symm (hfresh _ (heapTable_ne_zero L) hready.heapTaken)
  rw [allocPageDir_ok L hready.mapped hready.high hs hf
    (Ne.symm (hfresh _ hready.nonzero hready.dirTaken)) hfH hpair, Except.ok.injEq, Prod.mk.injEq,
    Option.some.injEq] at halloc
  obtain ⟨rfl,rfl⟩ := halloc
  obtain ⟨hpage,hzero⟩ := withDirectory_page m₀ phys hf hfH hin
  rw [switch_eq (found_ne_null (by omega))] at hmaps
  rw [frameOf_frameAddress hf]
  rcases hcase with hgrant | ⟨rfl,hsame,hflag⟩
  · have huse : InUse m₂ f L.kheapPageTables (8*i+s) (foundAddress i s) := by
      refine mmaps_inv (fun v x x' hv hx hstep => mmapPage_inUse hv hx hstep) ?_ hmaps
      refine ⟨hpage,fun j hj => Or.inl (hzero j hj),⟨?_,heapTable_ne_zero L⟩,?_,hkeep _ hready.heapTaken⟩
      · have := hgrant.1
        omega
      · exact granted_taken hgrant
    rw [freeVirtualAddressSpace_tagged huse.page (fun j hj => taggedSlot_of_userSlot (huse.slots j hj)),
      Except.ok.injEq, Prod.mk.injEq] at hfree
    rw [← hfree.2]
    exact huse.dirTaken
  · have hstranded : Stranded m₂ L.kheapPageTables (8*i+s) (foundAddress i s) := by
      refine mmaps_inv (P := fun x => Stranded x _ _ _) (fun v x x' hv hx hstep => ?_) ?_ hmaps
      · rw [mmapPage_stranded hv hx] at hstep
        cases hstep
      · exact ⟨hpage,hzero,hflag,hkeep _ hready.zeroTaken⟩
    rw [freeVirtualAddressSpace_tagged hstranded.page (fun j hj => Or.inl (hstranded.slots j hj)),
      Except.ok.injEq, Prod.mk.injEq] at hfree
    rw [← hfree.2]
    exact hstranded.taken

/-- Whatever was mapped, tearing down an address space does not give back all
of its frames together with its heap page. -/
theorem teardown_never_releases (L : Layout) (m₀ m₁ m₂ m₃ : Machine) (record : Word) (vmm : Vas)
    (calls : List (Word × Word)) (code : ErrorCode) (hready : Ready L m₀)
    (halloc : allocVirtualAddressSpace L record m₀ = .ok (some vmm, m₁))
    (hmaps : mmaps L calls (switchVirtualAddressSpace vmm m₁).2 = some m₂)
    (hfree : freeVirtualAddressSpace vmm m₂ = .ok (code, m₃)) : ¬ Released m₂ m₃ vmm := by
  intro hreleased
  rw [allocVirtualAddressSpace] at halloc
  split at halloc
  · cases halloc
  · obtain ⟨i,s,hfound,hadr,hbitmap⟩ := allocPageDir_found hready.mapped hready.high halloc
    have hbound := (found_bounds hready.high hfound).2.1
    have hnat := toNat_foundAddress hbound
    by_cases hin : 8*i+s < 1024
    · have htaken := directory_stays_taken hready halloc (suitable_one hfound hin) hmaps hfree
      rw [hreleased.frames _ (Or.inl rfl)] at htaken
      cases htaken
    · have hout : ¬ vmm.pageDirectory < kheapEndAddress := by
        change ¬ vmm.pageDirectory.toNat < kheapEndAddress.toNat
        rw [hadr, hnat, toNat_end]
        omega
      have hpage : heapPageOf vmm = 8*i+s := by
        rw [heapPageOf, hadr, hnat]
        omega
      have hheap := hreleased.heapPage
      rw [hpage, free_outside hout hfree, mmaps_heapBitmap hmaps,
        switch_eq (by rw [hadr]; exact found_ne_null hbound)] at hheap
      rw [show ({ m₁ with cr3 := vmm.physicalPgdAddress } : Machine).heapBitmap = m₁.heapBitmap from rfl,
        hbitmap, bit_taken rfl (by rw [show (1#32).toNat = 1 from rfl]; omega)] at hheap
      simp at hheap

/-! ## A run from the start of the kernel -/

def smallLayout : Layout where
  toKernelImage := smallImage
  kernelPageTables := 0x110
  kheapPageTables := 0x112
  initPageDirectory := 0x113
  placed := by decide
  distinct := by decide

theorem plenty_low {p : ℕ} (hp : p < 512) : bit plenty.bitmap p = false := by
  rw [bit, show plenty.bitmap (p/8) = 0#8 from if_pos (by omega)]
  exact BitVec.getMsbD_zero

theorem ready_of_started {L : Layout} {phys : PhysicalMem} {m : Machine} (h : Started L phys m)
    (hd : bit phys.bitmap L.initPageDirectory = false) (hh : bit phys.bitmap L.kheapPageTables = false)
    (hz : bit phys.bitmap 0 = false) : Ready L m := by
  have hD : L.initPageDirectory < 2^20 := static_lt L (by simp)
  have hcr3 : frameOf m.cr3 = L.initPageDirectory := by rw [h.cr3, frameOf_frameAddress hD]
  obtain ⟨-,-,-,-,hne⟩ := static_ne L
  refine ⟨⟨⟨rfl,by rwa [hcr3],?_⟩,static_lt L (by simp),by rwa [hcr3],?_⟩,?_,?_,?_,?_,?_⟩
  · rw [hcr3, h.directory, bootDirectory, Function.update_of_ne (by omega), Function.update_self]
  · rw [hcr3, h.directory, bootDirectory, Function.update_self]
  · have := (L.placed L.initPageDirectory (by simp)).1
    omega
  · rwa [hcr3, h.phys_eq]
  · rwa [h.phys_eq]
  · rwa [h.phys_eq]
  · rw [h.heapBitmap]
    exact (inv_start phys).high

/-- The first address space of a kernel with memory to spare, with one call of
`mmap`, and its teardown. -/
theorem first_space : ∃ m₀ m₁ m₂ m₃, Boot.start smallLayout (fun _ _ => 0#32) plenty = .ok m₀ ∧
    Ready smallLayout m₀ ∧
    allocVirtualAddressSpace smallLayout 0xC0801008#32 m₀ =
      .ok (some ⟨0xC0800000#32, 0x200000#32⟩, m₁) ∧
    mmaps smallLayout [(0x40000000#32, 2#32)]
      (switchVirtualAddressSpace ⟨0xC0800000#32, 0x200000#32⟩ m₁).2 = some m₂ ∧
    freeVirtualAddressSpace ⟨0xC0800000#32, 0x200000#32⟩ m₂ = .ok (.success, m₃) ∧
    bit m₃.phys.bitmap 0x200 = false := by
  obtain ⟨m₀,hstart,hs⟩ := start_ok smallLayout (fun _ _ => 0#32) plenty
  have hready := ready_of_started hs (plenty_low (by decide)) (plenty_low (by decide)) (plenty_low (by omega))
  have hsuit : Suitable m₀.heapBitmap 1 0 0 := by rw [hs.heapBitmap]; exact suitable_start plenty
  obtain ⟨phys,hphys⟩ : ∃ phys, allocatePhysicalPage smallLayout.toKernelImage m₀.phys =
      (frameAddress 512, phys) := by
    rw [hs.phys_eq]
    exact ⟨_,Prod.ext (by decide +kernel) rfl⟩
  have hf : 512 < 2^20 := by decide
  obtain ⟨hfresh,hkeep⟩ := allocate_fresh hf hphys
  have hfH : 512 ≠ smallLayout.kheapPageTables := by decide
  have halloc := allocPageDir_ok smallLayout hready.mapped hready.high hsuit hf
    (Ne.symm (hfresh _ hready.nonzero hready.dirTaken)) hfH hphys
  obtain ⟨hpage,hzero⟩ := withDirectory_page m₀ phys hf hfH (show 8*0+0 < 1024 by omega)
  have htaken : bit phys.bitmap 512 = false := allocated_taken hf (by decide) hphys
  have huse : InUse { withDirectory smallLayout m₀ 0 0 512 phys with cr3 := frameAddress 512 } 512
      smallLayout.kheapPageTables (8*0+0) (foundAddress 0 0) :=
    ⟨hpage,fun j hj => Or.inl (hzero j hj),⟨by decide,by decide⟩,htaken,hkeep _ hready.heapTaken⟩
  obtain ⟨m₂,hmap⟩ := mmap_progress (L := smallLayout) (v := 0x40000000#32) (n := 2#32) (by decide) huse
  have hmaps : mmaps smallLayout [(0x40000000#32, 2#32)]
      { withDirectory smallLayout m₀ 0 0 512 phys with cr3 := frameAddress 512 } = some m₂ := by
    rw [mmaps, hmap]
    rfl
  have huse₂ : InUse m₂ 512 smallLayout.kheapPageTables (8*0+0) (foundAddress 0 0) :=
    mmaps_inv (fun v x x' hv hx hstep => mmapPage_inUse hv hx hstep) huse hmaps
  refine ⟨m₀,_,m₂,_,hstart,hready,?_,hmaps,
    freeVirtualAddressSpace_tagged huse₂.page (fun j hj => taggedSlot_of_userSlot (huse₂.slots j hj)),
    huse₂.dirTaken⟩
  rw [allocVirtualAddressSpace, if_neg (by decide), halloc]
  rfl

theorem first_directory_not_released : ∃ m₀ m₁ m₂ m₃,
    Boot.start smallLayout (fun _ _ => 0#32) plenty = .ok m₀ ∧
    allocVirtualAddressSpace smallLayout 0xC0801008#32 m₀ =
      .ok (some ⟨0xC0800000#32, 0x200000#32⟩, m₁) ∧
    mmaps smallLayout [(0x40000000#32, 2#32)]
      (switchVirtualAddressSpace ⟨0xC0800000#32, 0x200000#32⟩ m₁).2 = some m₂ ∧
    freeVirtualAddressSpace ⟨0xC0800000#32, 0x200000#32⟩ m₂ = .ok (.success, m₃) ∧
    ¬ Released m₂ m₃ ⟨0xC0800000#32, 0x200000#32⟩ := by
  obtain ⟨m₀,m₁,m₂,m₃,hstart,-,halloc,hmaps,hfree,htaken⟩ := first_space
  refine ⟨m₀,m₁,m₂,m₃,hstart,halloc,hmaps,hfree,fun hreleased => ?_⟩
  rw [hreleased.frames 0x200 (Or.inl rfl)] at htaken
  cases htaken

theorem first_teardown_leaks : ∃ m₀ m₁ m₂ m₃, Ready smallLayout m₀ ∧
    allocVirtualAddressSpace smallLayout 0xC0801008#32 m₀ =
      .ok (some ⟨0xC0800000#32, 0x200000#32⟩, m₁) ∧
    mmaps smallLayout [(0x40000000#32, 2#32)]
      (switchVirtualAddressSpace ⟨0xC0800000#32, 0x200000#32⟩ m₁).2 = some m₂ ∧
    freeVirtualAddressSpace ⟨0xC0800000#32, 0x200000#32⟩ m₂ = .ok (.success, m₃) ∧
    ¬ Released m₂ m₃ ⟨0xC0800000#32, 0x200000#32⟩ := by
  obtain ⟨m₀,m₁,m₂,m₃,-,hready,halloc,hmaps,hfree,-⟩ := first_space
  exact ⟨m₀,m₁,m₂,m₃,hready,halloc,hmaps,hfree,
    teardown_never_releases smallLayout m₀ m₁ m₂ m₃ _ _ _ _ hready halloc hmaps hfree⟩

end MikeOS.Teardown
