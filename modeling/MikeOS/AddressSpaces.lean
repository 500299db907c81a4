import MikeOS.FrameDemand
import MikeOS.Teardown

/-!
# Isolation of address spaces

A run makes address spaces, switches between them, maps user pages and tears
address spaces down; in between other code of the kernel, `kmalloc` included,
takes pages of the heap. Address spaces go by the values of their records here.
While the frames a call needs are there, every user page refers to the frame it
was given and to no other page's.
-/

set_option autoImplicit false

namespace MikeOS.AddressSpaces
open BitArray MikeOS.Memory MikeOS.Paging MikeOS.PhysicalMemory MikeOS.KernelHeap MikeOS.KernelHeapSearch
open MikeOS.KernelHeapRuns MikeOS.FrameAllocator MikeOS.Mmu
open MikeOS.VirtualMemory MikeOS.FramePool MikeOS.PageTables MikeOS.Boot MikeOS.PageDirectory MikeOS.Mmaps
open MikeOS.Ownership MikeOS.FrameDemand MikeOS.Teardown

inductive Op where
  | heap (numPages : Word)
  | alloc (record : Word)
  | switch (vmm : Vas)
  | mmap (virtualAddress numPages : Word)
  | free (vmm : Vas)
  deriving DecidableEq, Repr

inductive State where
  | running (m : Machine) (live : List Vas)
  | undefined

def returned {α : Type} (next : α → State) : Except Stop α → Option State
  | .ok a => some (next a)
  | .error .undefined => some .undefined
  | .error .pageFault => none

/-- Only address spaces that exist are switched to or torn down, and the one
that is torn down is in `cr3`. -/
def step (L : Layout) : State → Op → Option State
  | .undefined, _ => none
  | .running m live, .heap n =>
    if n = 0#32 then none
    else returned (fun r => .running r.2 live) (onHeap (allocKheapPages L.toKernelImage n) m)
  | .running m live, .alloc record =>
    returned (fun r => .running r.2 (r.1.toList ++ live)) (allocVirtualAddressSpace L record m)
  | .running m live, .switch vmm =>
    if vmm ∈ live then some (.running (switchVirtualAddressSpace vmm m).2 live) else none
  | .running m live, .mmap v n => returned (fun r => .running r.2 live) (VirtualMemory.mmap L v n m)
  | .running m live, .free vmm =>
    if vmm ∈ live ∧ m.cr3 = vmm.physicalPgdAddress then
      returned (fun r => .running r.2 (live.erase vmm)) (freeVirtualAddressSpace vmm m)
    else none

/-! ## The property -/

def isUser (entry : Word) : Bool := entry.getLsbD 2

/-- Directory `D` lets user code use frame `f` at page `p`. -/
structure UserMapped (mem : Frames) (D p f : ℕ) : Prop where
  low : p < 768*1024
  directory : isPresent (mem D (p/1024)) = true ∧ isUser (mem D (p/1024)) = true
  table : isPresent (mem (frameOf (mem D (p/1024))) (p%1024)) = true ∧
    isUser (mem (frameOf (mem D (p/1024))) (p%1024)) = true
  frame : frameOf (mem (frameOf (mem D (p/1024))) (p%1024)) = f

def directories (L : Layout) (live : List Vas) : List ℕ :=
  L.initPageDirectory :: live.map fun vmm => frameOf vmm.physicalPgdAddress

structure Separate (L : Layout) (m : Machine) (live : List Vas) : Prop where
  granted : ∀ D ∈ directories L live, ∀ p f, UserMapped m.mem D p f →
    f ≠ 0 ∧ (⟨D, p, frameAddress f⟩ : Grant) ∈ m.grants
  exclusive : ∀ D ∈ directories L live, ∀ D' ∈ directories L live, ∀ p p' f,
    UserMapped m.mem D p f → UserMapped m.mem D' p' f → D = D' ∧ p = p'
  distinct : (directories L live).Nodup

def Isolated (L : Layout) : State → Prop
  | .undefined => False
  | .running m live => Separate L m live

/-- A search of the heap ends inside its window, and the frames are left that
the new directory or the new pages and tables take. -/
def FramesLast (L : Layout) : State → Op → Prop
  | .running m _, .heap n => ∃ i s, Suitable m.heapBitmap n.toNat i s
  | .running m _, .alloc record =>
    record = null ∨ 0 < left L.toKernelImage m.phys ∧ ∃ i s, Suitable m.heapBitmap 1 i s
  | .running m _, .mmap v n =>
    mmapRejects v n = true ∨
      demand m.mem (frameOf m.cr3) (v.toNat/4096) (mmapCount v n) ≤ left L.toKernelImage m.phys
  | _, _ => True

/-- Code that takes pages of the heap finds the frames as well. -/
def Spare (L : Layout) : State → Op → Prop
  | .running m live, .heap n =>
    FramesLast L (.running m live) (.heap n) ∧ n.toNat ≤ left L.toKernelImage m.phys
  | s, op => FramesLast L s op

theorem Spare.last {L : Layout} {s : State} {op : Op} (h : Spare L s op) : FramesLast L s op := by
  cases s with
  | undefined => cases op <;> exact h
  | running m live =>
    cases op with
    | heap n => exact h.1
    | _ => exact h

/-! ## The invariant -/

structure Known (L : Layout) (m : Machine) (dirs : List ℕ) (ranges : List Range) (vmm : Vas) (D p : ℕ) :
    Prop where
  member : D ∈ dirs
  physical : vmm.physicalPgdAddress = frameAddress D
  page : p < 1024
  address : vmm.pageDirectory.toNat = windowBase+4096*p
  entry : m.mem L.kheapPageTables p = Mmu.entry D 3
  range : (⟨vmm.pageDirectory, 1#32⟩ : Range) ∈ ranges

structure Kept (L : Layout) (dirs : List ℕ) (ranges : List Range) (m : Machine) (live : List Vas) : Prop where
  running : Running L dirs m
  pages : PagesInv m.heapBitmap ranges
  known : ∀ vmm ∈ live, ∃ D p, Known L m dirs ranges vmm D p
  distinct : (directories L live).Nodup
  apart : (live.map Vas.pageDirectory).Nodup

def Inv (L : Layout) : State → Prop
  | .undefined => False
  | .running m live => ∃ dirs ranges, Kept L dirs ranges m live

section
variable {L : Layout} {dirs : List ℕ} {ranges : List Range} {m : Machine} {live : List Vas}

theorem isUser_entry {f a : ℕ} (ha : a < 8) : isUser (entry f a) = decide (4 ≤ a) := by
  rw [isUser, entry, BitVec.getLsbD_ofNat, Nat.testBit_eq_decide_div_mod_eq]
  simp only [show 2 < 32 by omega, decide_true, Bool.true_and]
  refine decide_eq_decide.mpr ?_
  omega

theorem isPresent_zero : isPresent 0#32 = false := by decide

theorem holds_of_userMapped (h : Owned L m.mem dirs m.phys m.grants) {D p f : ℕ} (hD : D ∈ dirs)
    (hm : UserMapped m.mem D p f) : Holds m.mem dirs (.page D (p/1024) (p%1024)) f := by
  have hlow := hm.low
  obtain ⟨hp,hu⟩ := hm.directory
  have hpt := hm.table.1
  have hf := hm.frame
  rcases h.slots D hD (p/1024) (by omega) with h0 | ⟨-,-,hk⟩ | ⟨t,ht,hent⟩
  · rw [h0, isPresent_zero] at hp
    cases hp
  · rw [hk, isUser_entry (by omega)] at hu
    simp at hu
  · rw [ht.2.2, frameOf_entry ht.2.1 (by omega)] at hpt hf
    rcases hent (p%1024) (Nat.mod_lt _ (by omega)) with h0 | ⟨g,hg⟩
    · rw [h0, isPresent_zero] at hpt
      cases hpt
    · rw [hg.2.2, frameOf_entry hg.2.1 (by omega)] at hf
      subst hf
      exact ⟨hD,t,ht,hg⟩

theorem known_frame {vmm : Vas} {D p : ℕ} (h : Running L dirs m) (hk : Known L m dirs ranges vmm D p) :
    D < 2^20 ∧ frameOf vmm.physicalPgdAddress = D := by
  have hD := (h.owned.half D hk.member).1
  exact ⟨hD,by rw [hk.physical, frameOf_frameAddress hD]⟩

theorem directories_known (h : Kept L dirs ranges m live) {D : ℕ} (hD : D ∈ directories L live) :
    D ∈ dirs := by
  rcases List.mem_cons.mp hD with rfl | hD
  · exact h.running.owned.boot
  · obtain ⟨vmm,hv,rfl⟩ := List.mem_map.mp hD
    obtain ⟨D,p,hk⟩ := h.known vmm hv
    rw [(known_frame h.running hk).2]
    exact hk.member

theorem separate_of_kept (h : Kept L dirs ranges m live) : Separate L m live := by
  have howned := h.running.owned
  refine ⟨fun D hD p f hm => ?_,fun D hD D' hD' p p' f hm hm' => ?_,h.distinct⟩
  · have hg := howned.granted _ _ _ _ (holds_of_userMapped howned (directories_known h hD) hm)
    rwa [Nat.div_add_mod] at hg
  · have hrole := howned.unique _ _ f (holds_of_userMapped howned (directories_known h hD) hm)
      (holds_of_userMapped howned (directories_known h hD') hm')
    rw [Role.page.injEq] at hrole
    exact ⟨hrole.1,by omega⟩

theorem isolated_of_inv (s : State) (h : Inv L s) : Isolated L s := by
  cases s with
  | undefined => exact h
  | running m live =>
    obtain ⟨dirs,ranges,hk⟩ := h
    exact separate_of_kept hk

/-! ## Pages of the heap are taken -/

theorem known_bit {vmm : Vas} {D p : ℕ} (h : PagesInv m.heapBitmap ranges)
    (hk : Known L m dirs ranges vmm D p) : bit m.heapBitmap p = false := by
  rw [Bool.eq_false_iff]
  intro hbit
  refine (h.bits p hk.page).mp hbit _ hk.range ⟨?_,?_⟩ <;> rw [hk.address]
  rw [show (1#32).toNat = 1 from rfl]
  omega

/-- Directories do not lie in pages that a search finds. -/
theorem known_outside {vmm : Vas} {D p n i s : ℕ} (h : PagesInv m.heapBitmap ranges)
    (hk : Known L m dirs ranges vmm D p) (hs : Suitable m.heapBitmap n i s) :
    p < 8*i+s ∨ 8*i+s+n ≤ p := by
  by_contra hin
  have hfree := hs.free (p-(8*i+s)) (by omega)
  rw [show 8*i+s+(p-(8*i+s)) = p by omega, known_bit h hk] at hfree
  cases hfree

theorem overEntries_alloc (image : KernelImage) {n p : ℕ} {k : Kheap} (hp : p+n ≤ 1024)
    (hflag : FlagSound image k.phys) :
    ∃ k', overEntries (allocEntry image) n p k = .ok k' ∧ k'.bitmap = k.bitmap ∧
      FlagSound image k'.phys ∧ (∀ q, bit k.phys.bitmap q = false → bit k'.phys.bitmap q = false) ∧
      ∀ q, q < p ∨ p+n ≤ q → k'.table q = k.table q := by
  have hstep : ∀ i k', (k'.bitmap = k.bitmap ∧ FlagSound image k'.phys ∧
      ∀ q, bit k.phys.bitmap q = false → bit k'.phys.bitmap q = false) →
      (allocEntry image i k').bitmap = k.bitmap ∧ FlagSound image (allocEntry image i k').phys ∧
      ∀ q, bit k.phys.bitmap q = false → bit (allocEntry image i k').phys.bitmap q = false := by
    rintro i k' ⟨hb,hf,hkeep⟩
    exact ⟨hb,allocate_flagSound hf,fun q hq => allocate_keeps image k'.phys (hkeep q hq)⟩
  obtain ⟨k',hk',⟨hb,hf,hkeep⟩,htab⟩ := overEntries_inside hstep
    (fun i k' q hq => Function.update_of_ne hq _ _) n p hp ⟨rfl,hflag,fun _ hq => hq⟩
  exact ⟨k',hk',hb,hf,hkeep,htab⟩

/-- Only the table of the heap changes and no frame becomes available. -/
theorem running_withHeap (h : Running L dirs m) {k : Kheap} (hflag : FlagSound L.toKernelImage k.phys)
    (hkeep : ∀ q, bit m.phys.bitmap q = false → bit k.phys.bitmap q = false) :
    Running L dirs (Machine.withHeap m L.kheapPageTables k) := by
  have hH := heap_reserved L
  obtain ⟨hk0,-,hk1,-,-⟩ := static_ne L
  refine ⟨owned_phys (owned_frame _ h.owned (fun D hD => ?_) (fun D hD i t ht => ?_) (fun i hi => ?_)).1 hkeep,
    hflag,h.current⟩
  · exact setFrame_frame _ _ (Ne.symm (dir_row h.owned hD hH))
  · exact setFrame_frame _ _ (Ne.symm (table_row h.owned hD ht hH))
  · rcases (show i = 0 ∨ i = 1 by omega) with rfl | rfl
    · exact setFrame_frame _ _ hk0
    · exact setFrame_frame _ _ hk1

theorem heapMapped_of_running (h : Running L dirs m) :
    HeapMapped m (frameOf m.cr3) L.kheapPageTables :=
  ⟨current_of_running h,static_lt L (by simp),dir_row h.owned h.current (heap_reserved L),
    (h.owned.half _ h.current).2.1⟩

/-- While frames are left, each page gets one that was available and that no other page gets. -/
theorem overEntries_granted (image : KernelImage) (n p : ℕ) {k : Kheap} (hp : p+n ≤ 1024)
    (hflag : FlagSound image k.phys) (hleft : n ≤ left image k.phys) :
    ∃ k', overEntries (allocEntry image) n p k = .ok k' ∧ k'.bitmap = k.bitmap ∧
      FlagSound image k'.phys ∧ (∀ q, bit k.phys.bitmap q = false → bit k'.phys.bitmap q = false) ∧
      (∀ q, q < p ∨ p+n ≤ q → k'.table q = k.table q) ∧
      (∀ q, p ≤ q → q < p+n → ∃ g, g < 2^20 ∧ g ≠ 0 ∧ k'.table q = entry g 3 ∧
        bit k.phys.bitmap g = true ∧ bit k'.phys.bitmap g = false) ∧
      (∀ q r, p ≤ q → q < r → r < p+n → k'.table q ≠ k'.table r) ∧ left image k'.phys+n = left image k.phys := by
  induction n generalizing p k with
  | zero => exact ⟨k,rfl,rfl,hflag,fun _ hq => hq,fun _ _ => rfl,fun q h1 h2 => by omega,fun q r h1 h2 h3 => by omega,rfl⟩
  | succ n ih =>
    obtain ⟨f,hf,hfa,-⟩ := allocate_left hflag (show 0 < left image k.phys by omega)
    have hpair : allocatePhysicalPage image k.phys = (frameAddress f, (allocatePhysicalPage image k.phys).2) := by
      rw [← hfa]
    obtain ⟨hg,hflag',hcount⟩ := granted_of_left hf hflag (by omega) hpair
    have hentry : (allocEntry image p k).table p = entry f 3 := by
      rw [allocEntry]
      change Function.update k.table p _ p = _
      rw [Function.update_self, hfa, show readWrite ||| present = BitVec.ofNat 32 3 by decide,
        frameAddress_or hf (by omega)]
    obtain ⟨k',hk',hb,hfl,hkeep,hout,hin,hne,hrest⟩ := ih (p+1) (k := allocEntry image p k) (by omega) hflag'
      (show n ≤ left image (allocatePhysicalPage image k.phys).2 by omega)
    have hfirst : k'.table p = entry f 3 := (hout p (by omega)).trans hentry
    refine ⟨k',?_,hb,hfl,fun q hq => hkeep q (granted_keeps hg hq),fun q hq => ?_,fun q h1 h2 => ?_,
      fun q r h1 h2 h3 => ?_,?_⟩
    · rw [overEntries, if_pos (show p < pageTableSize by rw [pageTableSize]; omega), hk']
    · rw [hout q (by omega)]
      exact Function.update_of_ne (by omega) _ _
    · by_cases hq : q = p
      · subst hq
        exact ⟨f,hf,by have := hg.1; omega,hfirst,hg.2.1,hkeep f (granted_taken hg)⟩
      · obtain ⟨g,hlt,h0,he,hfree,htaken⟩ := hin q (by omega) (by omega)
        refine ⟨g,hlt,h0,he,?_,htaken⟩
        change bit (allocatePhysicalPage image k.phys).2.bitmap g = true at hfree
        rw [granted_bit hg, Bool.and_eq_true] at hfree
        exact hfree.2
    · by_cases hq : q = p
      · obtain ⟨g,hlt,-,he,hfree,-⟩ := hin r (by omega) (by omega)
        rw [hq, hfirst, he]
        intro heq
        change bit (allocatePhysicalPage image k.phys).2.bitmap g = true at hfree
        rw [← entry_inj hf hlt (by omega) heq, granted_taken hg] at hfree
        cases hfree
      · exact hne q r (by omega) h2 (by omega)
    · rw [← hcount, ← add_assoc, hrest]
      rfl

/-- With frames for its pages left, a call of `alloc_kheap_pages` takes them. -/
theorem heap_left (h : Kept L dirs ranges m live) {n : Word} (hn : n ≠ 0#32) {i s : ℕ}
    (hs : Suitable m.heapBitmap n.toNat i s) (hleft : n.toNat ≤ left L.toKernelImage m.phys) :
    ∃ m', onHeap (allocKheapPages L.toKernelImage n) m = .ok (foundAddress i s, m') ∧
      m'.heapBitmap = taken m.heapBitmap n i s ∧
      left L.toKernelImage m'.phys+n.toNat = left L.toKernelImage m.phys := by
  have hin := hs.inside
  obtain ⟨k,hk,hb,-,-,-,-,-,hcount⟩ := overEntries_granted L.toKernelImage n.toNat (8*i+s)
    (k := ⟨taken m.heapBitmap n i s, m.mem L.kheapPageTables, m.phys⟩) (by omega) h.running.flag hleft
  have hcall := allocKheapPages_filled L.toKernelImage (k := ⟨m.heapBitmap, m.mem L.kheapPageTables, m.phys⟩)
    h.pages.high hn hs hk
  exact ⟨_,onHeap_ok (heapMapped_of_running h.running) hcall,hb,hcount⟩

theorem heap_inv (h : Kept L dirs ranges m live) {n : Word} (hn : n ≠ 0#32) {i s : ℕ}
    (hs : Suitable m.heapBitmap n.toNat i s) :
    ∃ r, onHeap (allocKheapPages L.toKernelImage n) m = .ok r ∧ Inv L (.running r.2 live) := by
  have hin := hs.inside
  obtain ⟨k,hk,hb,hflag,hkeep,htab⟩ := overEntries_alloc L.toKernelImage (n := n.toNat) (p := 8*i+s)
    (k := ⟨taken m.heapBitmap n i s, m.mem L.kheapPageTables, m.phys⟩) (by omega) h.running.flag
  have hcall := allocKheapPages_filled L.toKernelImage (k := ⟨m.heapBitmap, m.mem L.kheapPageTables, m.phys⟩)
    h.pages.high hn hs hk
  refine ⟨_,onHeap_ok (heapMapped_of_running h.running) hcall,dirs,⟨foundAddress i s, n⟩::ranges,
    running_withHeap h.running hflag hkeep,?_,fun vmm hv => ?_,h.distinct,h.apart⟩
  · change PagesInv k.bitmap _
    rw [hb]
    exact alloc_inv h.pages hn hs
  · obtain ⟨D,p,hkn⟩ := h.known vmm hv
    refine ⟨D,p,hkn.member,hkn.physical,hkn.page,hkn.address,?_,List.mem_cons_of_mem _ hkn.range⟩
    change setFrame m.mem L.kheapPageTables k.table L.kheapPageTables p = _
    rw [setFrame_self, htab p (known_outside h.pages hkn hs)]
    exact hkn.entry

/-! ## An address space is made -/

theorem running_withDirectory (h : Running L dirs m) {i s f : ℕ} {phys : PhysicalMem}
    (hf : f < 2^20) (hg : Granted m.phys phys f) (hflag : FlagSound L.toKernelImage phys) :
    Running L (f::dirs) (withDirectory L m i s f phys) := by
  have hH := heap_reserved L
  have hun := unheld_of_granted h.owned hf hg
  have howned := owned_phys h.owned (fun q hq => granted_keeps hg hq)
  have hrow : ∀ g, g ≠ f → g ≠ L.kheapPageTables → (withDirectory L m i s f phys).mem g = m.mem g :=
    fun g hgf hgH => (setFrame_frame _ _ hgf).trans (setWord_frame _ _ _ hgH)
  obtain ⟨hk0,-,hk1,-,-⟩ := static_ne L
  obtain ⟨hown,hback⟩ := owned_frame (withDirectory L m i s f phys).mem howned
    (fun D hD => hrow D (fun he => hun.free (.directory D) ⟨hD,he.symm⟩)
      (Ne.symm (dir_row howned hD hH)))
    (fun D hD j t ht => hrow t (fun he => hun.free (.table D j) ⟨hD,he ▸ ht⟩)
      (Ne.symm (table_row howned hD ht hH)))
    (fun j hj => by
      have hr := kernel_reserved L hj
      refine hrow _ (fun he => hun.fixed (he ▸ hr)) ?_
      rcases (show j = 0 ∨ j = 1 by omega) with rfl | rfl
      · exact hk0
      · exact hk1)
  exact ⟨owned_addDirectory hown ⟨hun.lt,hun.pos,hun.taken,hun.fixed,fun r hr => hun.free r (hback r f hr)⟩
    (setFrame_self _ _ _),hflag,List.mem_cons_of_mem _ h.current⟩

theorem alloc_kept (h : Kept L dirs ranges m live) {i s f : ℕ} {phys : PhysicalMem} (hf : f < 2^20)
    (hs : Suitable m.heapBitmap 1 i s) (hg : Granted m.phys phys f)
    (hflag : FlagSound L.toKernelImage phys) :
    Kept L (f::dirs) (⟨foundAddress i s, 1#32⟩::ranges) (withDirectory L m i s f phys)
      (⟨foundAddress i s, frameAddress f⟩::live) := by
  have hin := hs.inside
  have hun := unheld_of_granted h.running.owned hf hg
  have hfH : L.kheapPageTables ≠ f := fun he => hun.fixed (he ▸ heap_reserved L)
  have hnew : f ∉ dirs := fun hd => hun.free (.directory f) ⟨hd,rfl⟩
  have htable : ∀ p, (withDirectory L m i s f phys).mem L.kheapPageTables p =
      setWord m.mem L.kheapPageTables (8*i+s) (entry f 3) L.kheapPageTables p :=
    fun p => congrFun (setFrame_frame _ _ hfH) p
  refine ⟨running_withDirectory h.running hf hg hflag,alloc_inv h.pages (by decide) hs,
    List.forall_mem_cons.mpr ⟨⟨f,8*i+s,?_⟩,fun vmm hv => ?_⟩,?_,?_⟩
  · exact ⟨List.mem_cons_self,rfl,by omega,toNat_foundAddress (by omega),
      (htable _).trans (setWord_self _ _ _ _),List.mem_cons_self⟩
  · obtain ⟨D,p,hk⟩ := h.known vmm hv
    have hne : p ≠ 8*i+s := by
      have := known_outside h.pages hk hs
      omega
    exact ⟨D,p,List.mem_cons_of_mem _ hk.member,hk.physical,hk.page,hk.address,
      (htable p).trans ((setWord_index _ _ _ hne).trans hk.entry),List.mem_cons_of_mem _ hk.range⟩
  · have hd := List.nodup_cons.mp h.distinct
    have hold : ∀ D ∈ directories L live, f ≠ D := fun D hD he => hnew (he ▸ directories_known h hD)
    rw [directories, List.map_cons, frameOf_frameAddress hf, List.nodup_cons, List.mem_cons, List.nodup_cons]
    refine ⟨not_or.mpr ⟨Ne.symm (hold _ List.mem_cons_self),hd.1⟩,fun hmem => ?_,hd.2⟩
    exact hold f (List.mem_cons_of_mem _ hmem) rfl
  · rw [List.map_cons, List.nodup_cons]
    refine ⟨fun hmem => ?_,h.apart⟩
    obtain ⟨vmm,hv,he⟩ := List.mem_map.mp hmem
    obtain ⟨D,p,hk⟩ := h.known vmm hv
    have hout := known_outside h.pages hk hs
    have hadr := hk.address
    rw [he, toNat_foundAddress (by omega)] at hadr
    omega

theorem alloc_left (h : Kept L dirs ranges m live) {i s : ℕ} (hs : Suitable m.heapBitmap 1 i s)
    (hleft : 0 < left L.toKernelImage m.phys) :
    ∃ f phys, allocPageDir L m = .ok (some ⟨foundAddress i s, frameAddress f⟩, withDirectory L m i s f phys) ∧
      f < 2^20 ∧ Granted m.phys phys f ∧ FlagSound L.toKernelImage phys ∧
      left L.toKernelImage phys+1 = left L.toKernelImage m.phys := by
  obtain ⟨f,hf,hfa,-⟩ := allocate_left h.running.flag hleft
  have hpair : allocatePhysicalPage L.toKernelImage m.phys =
      (frameAddress f, (allocatePhysicalPage L.toKernelImage m.phys).2) := by rw [← hfa]
  obtain ⟨hgrant,hflag,hcount⟩ := granted_of_left hf h.running.flag hleft hpair
  have hun := unheld_of_granted h.running.owned hf hgrant
  have hfD : f ≠ frameOf m.cr3 := fun he => hun.free (.directory (frameOf m.cr3)) ⟨h.running.current,he⟩
  have hfH : f ≠ L.kheapPageTables := fun he => hun.fixed (he ▸ heap_reserved L)
  exact ⟨f,_,allocPageDir_ok L (heapMapped_of_running h.running) h.pages.high hs hf hfD hfH hpair,hf,hgrant,hflag,hcount⟩

theorem alloc_step (h : Kept L dirs ranges m live) {record : Word}
    (hg : FramesLast L (.running m live) (.alloc record)) :
    ∃ r, allocVirtualAddressSpace L record m = .ok r ∧ Inv L (.running r.2 (r.1.toList ++ live)) := by
  by_cases hr : record = null
  · exact ⟨(none, m),by rw [allocVirtualAddressSpace, if_pos hr],dirs,ranges,h⟩
  · obtain ⟨hleft,i,s,hs⟩ := hg.resolve_left hr
    obtain ⟨f,phys,hcall,hf,hgrant,hflag,-⟩ := alloc_left h hs hleft
    exact ⟨_,by rw [allocVirtualAddressSpace, if_neg hr, hcall],_,_,alloc_kept h hf hs hgrant hflag⟩

/-! ## Switching and mapping -/

theorem switch_inv (h : Kept L dirs ranges m live) {vmm : Vas} (hv : vmm ∈ live) :
    Kept L dirs ranges (switchVirtualAddressSpace vmm m).2 live := by
  rw [switchVirtualAddressSpace]
  split
  · exact h
  · obtain ⟨D,p,hk⟩ := h.known vmm hv
    refine ⟨⟨h.running.owned,h.running.flag,?_⟩,h.pages,fun vmm' hv' => ?_,h.distinct,h.apart⟩
    · change frameOf vmm.physicalPgdAddress ∈ dirs
      rw [(known_frame h.running hk).2]
      exact hk.member
    · obtain ⟨D',p',hk'⟩ := h.known vmm' hv'
      exact ⟨D',p',hk'.member,hk'.physical,hk'.page,hk'.address,hk'.entry,hk'.range⟩

theorem grows_kept {m' : Machine} (h : Kept L dirs ranges m live) (hrun : Running L dirs m')
    (hg : Grows L dirs m m') : Kept L dirs ranges m' live := by
  refine ⟨hrun,by rw [hg.heapBitmap]; exact h.pages,fun vmm hv => ?_,h.distinct,h.apart⟩
  obtain ⟨D,p,hk⟩ := h.known vmm hv
  exact ⟨D,p,hk.member,hk.physical,hk.page,hk.address,by rw [hg.heapTable]; exact hk.entry,hk.range⟩

theorem mmap_inv (h : Kept L dirs ranges m live) {v n : Word}
    (hg : FramesLast L (.running m live) (.mmap v n)) :
    ∃ r, VirtualMemory.mmap L v n m = .ok r ∧ Inv L (.running r.2 live) ∧ r.2.heapBitmap = m.heapBitmap ∧
      r.2.cr3 = m.cr3 := by
  cases hr : mmapRejects v n with
  | true => exact ⟨(.invalidArgument, m),by rw [VirtualMemory.mmap, hr, if_pos rfl]; rfl,⟨dirs,ranges,h⟩,rfl,rfl⟩
  | false =>
    obtain ⟨hal,hle⟩ := mmapCount_le hr
    have hleft := hg.resolve_left (by rw [hr]; simp)
    obtain ⟨m',hm,hrun,hgrows,-,-⟩ := mmapLoop_running _ h.running hle hal (r := 0) hleft
    refine ⟨(.success, m'),?_,⟨dirs,ranges,grows_kept h hrun hgrows⟩,hgrows.heapBitmap,hgrows.cr3⟩
    rw [VirtualMemory.mmap, hr, if_neg (by simp), hm]
    rfl

/-! ## An address space is torn down -/

theorem taggedSlot_of_owned (h : Owned L m.mem dirs m.phys m.grants) {D : ℕ} (hD : D ∈ dirs)
    (hne : D ≠ L.initPageDirectory) {i : ℕ} (hi : i < 768) : TaggedSlot m.mem D i := by
  rcases h.slots D hD i hi with h0 | ⟨he,-,-⟩ | ⟨t,ht,hent⟩
  · exact Or.inl h0
  · exact absurd he hne
  · rw [TaggedSlot, ht.2.2, frameOf_entry ht.2.1 (by omega)]
    refine Or.inr ⟨isPresent_entry (by omega),by rw [toNat_entry ht.2.1 (by omega)]; omega,fun j hj => ?_⟩
    rcases hent j hj with h0 | ⟨f,hf⟩
    · exact Or.inl h0
    · rw [hf.2.2]
      exact tagged_entry hf.2.1 (by omega) (by omega)

theorem free_known (h : Kept L dirs ranges m live) {vmm : Vas} (hv : vmm ∈ live)
    (hc : m.cr3 = vmm.physicalPgdAddress) :
    ∃ p, p < 1024 ∧ vmm.pageDirectory.toNat = windowBase+4096*p ∧
      HeapPage m (frameOf m.cr3) L.kheapPageTables p (frameOf m.cr3) vmm.pageDirectory ∧
      freeVirtualAddressSpace vmm m = .ok (.success, withoutPage m L.kheapPageTables p) := by
  obtain ⟨D,p,hk⟩ := h.known vmm hv
  obtain ⟨hD,hDv⟩ := known_frame h.running hk
  rw [← hc] at hDv
  have hne : D ≠ L.initPageDirectory := by
    have hnot := (List.nodup_cons.mp h.distinct).1
    intro he
    exact hnot (List.mem_map.mpr ⟨vmm,hv,by rw [← hc, hDv, he]⟩)
  have hpage : HeapPage m (frameOf m.cr3) L.kheapPageTables p (frameOf m.cr3) vmm.pageDirectory :=
    ⟨heapMapped_of_running h.running,hk.page,hk.address,by rwa [hDv],by rw [hDv]; exact hk.entry⟩
  refine ⟨p,hk.page,hk.address,hpage,freeVirtualAddressSpace_tagged hpage (fun i hi => ?_)⟩
  rw [hDv]
  exact taggedSlot_of_owned h.running.owned hk.member hne hi

theorem bit_withoutPage (m : Machine) (H : ℕ) {p : ℕ} (hp : p < 1024) (q : ℕ) :
    bit (withoutPage m H p).heapBitmap q = (decide (q = p) || bit m.heapBitmap q) := by
  have hn : (BitVec.ofNat 32 p).toNat = p := by rw [BitVec.toNat_ofNat, Nat.mod_eq_of_lt (by omega)]
  rw [withoutPage, bit_turnBitsOn _ _ _ _ (by rw [hn, show (1#32).toNat = 1 from rfl]; omega), hn]
  rw [show decide (p ≤ q ∧ q < p+(1#32).toNat) = decide (q = p) from decide_eq_decide.mpr (by
    rw [show (1#32).toNat = 1 from rfl]
    omega)]

theorem free_pages {bitmap : Bytes} (h : PagesInv bitmap ranges) {a : Word} {p : ℕ} (hp : p < 1024)
    (ha : a.toNat = windowBase+4096*p) (hr : (⟨a, 1#32⟩ : Range) ∈ ranges) :
    PagesInv (turnBitsOn bitmap (BitVec.ofNat 32 p) 1#32) (ranges.erase ⟨a, 1#32⟩) := by
  -- the table and the frames play no part in the bitmap
  have hcall := freeKheapPages_one (k := ⟨bitmap, fun _ => 1#32, PhysicalMem.boot⟩) hp ha
    (show (1#32).toNat%4096 ≠ 0 by decide)
  exact KernelHeapRuns.free_inv (k := ⟨bitmap, fun _ => 1#32, PhysicalMem.boot⟩) h hr hcall

theorem free_kept (h : Kept L dirs ranges m live) {vmm : Vas} (hv : vmm ∈ live) {p : ℕ} (hp : p < 1024)
    (hadr : vmm.pageDirectory.toNat = windowBase+4096*p) :
    Kept L dirs (ranges.erase ⟨vmm.pageDirectory, 1#32⟩) (withoutPage m L.kheapPageTables p) (live.erase vmm) := by
  obtain ⟨D,p',hk⟩ := h.known vmm hv
  have hrun : Running L dirs (withoutPage m L.kheapPageTables p) :=
    running_withHeap (k := ⟨turnBitsOn m.heapBitmap (BitVec.ofNat 32 p) 1#32,
      Function.update (m.mem L.kheapPageTables) p 0#32, m.phys⟩) h.running h.running.flag (fun _ hq => hq)
  have hsub : (live.erase vmm).Sublist live := List.erase_sublist
  have hlive : live.Nodup := List.Nodup.of_map _ h.apart
  refine ⟨hrun,free_pages h.pages hp hadr hk.range,
    fun vmm' hv' => ?_,h.distinct.sublist ((hsub.map _).cons_cons _),h.apart.sublist (hsub.map _)⟩
  obtain ⟨hne,hmem⟩ := (List.Nodup.mem_erase_iff hlive).mp hv'
  have hdir : vmm'.pageDirectory ≠ vmm.pageDirectory := fun he =>
    hne (List.inj_on_of_nodup_map h.apart hmem hv he)
  obtain ⟨D',q,hk'⟩ := h.known vmm' hmem
  have hqp : q ≠ p := fun he => hdir (BitVec.eq_of_toNat_eq (by rw [hk'.address, hadr, he]))
  refine ⟨D',q,hk'.member,hk'.physical,hk'.page,hk'.address,?_,?_⟩
  · exact (setWord_index _ _ _ hqp).trans hk'.entry
  · exact (List.mem_erase_of_ne (fun he => hdir (congrArg Range.address he))).mpr hk'.range

theorem free_step (h : Kept L dirs ranges m live) {vmm : Vas} (hv : vmm ∈ live)
    (hc : m.cr3 = vmm.physicalPgdAddress) :
    ∃ r, freeVirtualAddressSpace vmm m = .ok r ∧ Inv L (.running r.2 (live.erase vmm)) := by
  obtain ⟨p,hp,hadr,-,hfree⟩ := free_known h hv hc
  exact ⟨_,hfree,dirs,_,free_kept h hv hp hadr⟩

/-! ## Whole runs -/

theorem inv_of_ok {α : Type} {next : α → State} {x : Except Stop α} {t : State}
    (h : ∃ r, x = .ok r ∧ Inv L (next r)) (ht : returned next x = some t) : Inv L t := by
  obtain ⟨r,hr,hi⟩ := h
  rw [hr, returned, Option.some.injEq] at ht
  exact ht ▸ hi

theorem step_inv (s : State) (op : Op) (t : State) (hi : Inv L s) (hg : FramesLast L s op)
    (hs : step L s op = some t) : Inv L t := by
  cases s with
  | undefined => cases hs
  | running m live =>
    obtain ⟨dirs,ranges,h⟩ := hi
    cases op with
    | heap n =>
      rw [step] at hs
      split at hs
      · cases hs
      · rename_i hn
        obtain ⟨i,s,hsuit⟩ := hg
        exact inv_of_ok (heap_inv h hn hsuit) hs
    | alloc record => exact inv_of_ok (alloc_step h hg) hs
    | switch vmm =>
      rw [step] at hs
      split at hs
      · rename_i hv
        cases hs
        exact ⟨dirs,ranges,switch_inv h hv⟩
      · cases hs
    | mmap v n =>
      obtain ⟨r,hr,hinv,-⟩ := mmap_inv h hg
      exact inv_of_ok ⟨r,hr,hinv⟩ hs
    | free vmm =>
      rw [step] at hs
      split at hs
      · rename_i hv
        exact inv_of_ok (free_step h hv.1 hv.2) hs
      · cases hs

end

/-! ## The start of the kernel -/

section
variable {L : Layout} {phys : PhysicalMem} {m : Machine}

theorem bootDirectory_user (L : Layout) {i : ℕ} (hi : i < 768) :
    bootDirectory L i = 0#32 ∨ (i < 2 ∧ bootDirectory L i = entry (L.kernelPageTables+i) 3) := by
  rw [bootDirectory, Function.update_of_ne (by omega), Function.update_of_ne (by omega),
    Function.update_of_ne (by omega), Function.update_of_ne (by omega)]
  rcases (show i = 0 ∨ i = 1 ∨ 2 ≤ i by omega) with rfl | rfl | h2
  · rw [Function.update_of_ne (by omega), Function.update_self]
    exact Or.inr ⟨by omega,rfl⟩
  · rw [Function.update_self]
    exact Or.inr ⟨by omega,rfl⟩
  · rw [Function.update_of_ne (by omega), Function.update_of_ne (by omega)]
    exact Or.inl rfl

theorem entry_attributes {f g a b : ℕ} (hf : f < 2^20) (hg : g < 2^20) (ha : a < 4096) (hb : b < 4096)
    (h : entry f a = entry g b) : a = b := by
  have := congrArg BitVec.toNat h
  rw [toNat_entry hf ha, toNat_entry hg hb] at this
  omega

theorem static_taken {ram : Ram} {mapAddr mapLength : Word} {fuel : ℕ}
    (h : phyMemoryManagerInit L.toKernelImage ram mapAddr mapLength fuel = .ok phys) {f : ℕ}
    (hf : f ∈ [L.kernelPageTables, L.kernelPageTables+1, L.kheapPageTables, L.initPageDirectory]) :
    bit phys.bitmap f = false :=
  init_unavailable h (Or.inr (L.placed f hf))

theorem boot_not_reserved (L : Layout) : L.initPageDirectory ∉ reserved L := by
  obtain ⟨-,hk0,-,hk1,hHD⟩ := static_ne L
  simp only [reserved, List.mem_cons, List.not_mem_nil, or_false, not_or]
  exact ⟨Ne.symm hk0,Ne.symm hk1,Ne.symm hHD⟩

theorem reserved_static {f : ℕ} (hf : f ∈ reserved L) :
    f ∈ [L.kernelPageTables, L.kernelPageTables+1, L.kheapPageTables, L.initPageDirectory] := by
  simp only [reserved, List.mem_cons, List.not_mem_nil, or_false] at hf ⊢
  tauto

theorem kernelTables_set (h : Started L phys m) {i j : ℕ} (hi : i < 2) (hj : j < 1024) :
    m.mem (L.kernelPageTables+i) j ≠ 0#32 := by
  rw [h.kernelTables i hi j hj]
  exact entry_ne_zero (by omega) (by omega) (by omega)

theorem boot_no_table (h : Started L phys m) (i t : ℕ) : ¬ TableAt m.mem L.initPageDirectory i t := by
  intro ht
  have he := ht.2.2
  rw [h.directory] at he
  rcases bootDirectory_user L ht.1 with h0 | ⟨hi,hk⟩
  · exact entry_ne_zero ht.2.1 (by omega) (by omega) (he.symm.trans h0)
  · have := entry_attributes (reserved_lt L (kernel_reserved L hi)) ht.2.1 (by omega) (by omega)
      (hk.symm.trans he)
    omega

theorem boot_holds (h : Started L phys m) {r : Role} {f : ℕ} (hr : Holds m.mem [L.initPageDirectory] r f) :
    r = .directory L.initPageDirectory ∧ f = L.initPageDirectory := by
  cases r with
  | directory D =>
    obtain rfl := List.mem_singleton.mp hr.1
    exact ⟨rfl,hr.2⟩
  | table D i =>
    obtain rfl := List.mem_singleton.mp hr.1
    exact absurd hr.2 (boot_no_table h i f)
  | page D i j =>
    obtain ⟨hD,t,ht,-⟩ := hr
    obtain rfl := List.mem_singleton.mp hD
    exact absurd ht (boot_no_table h i t)

theorem owned_of_started (h : Started L phys m)
    (htaken : ∀ f ∈ [L.kernelPageTables, L.kernelPageTables+1, L.kheapPageTables, L.initPageDirectory],
      bit phys.bitmap f = false) : Owned L m.mem [L.initPageDirectory] m.phys m.grants := by
  refine ⟨List.mem_cons_self,fun D hD => ?_,fun D hD i hi => ?_,fun i hi j hj => kernelTables_set h hi hj,
    ?_,?_,?_,?_⟩
  · obtain rfl := List.mem_singleton.mp hD
    rw [h.directory, bootDirectory, Function.update_self, Function.update_of_ne (by omega),
      Function.update_self]
    exact ⟨static_lt L (by simp),rfl,rfl⟩
  · obtain rfl := List.mem_singleton.mp hD
    rw [SlotKind, h.directory]
    rcases bootDirectory_user L hi with h0 | ⟨hi2,hk⟩
    · exact Or.inl h0
    · exact Or.inr (Or.inl ⟨rfl,hi2,hk⟩)
  · intro r r' f hr hr'
    rw [(boot_holds h hr).1, (boot_holds h hr').1]
  · intro r f hr
    rw [(boot_holds h hr).2, h.phys_eq]
    exact ⟨htaken _ (by simp),boot_not_reserved L⟩
  · intro f hf
    rw [h.phys_eq]
    exact htaken f (reserved_static hf)
  · intro D i j f hr
    cases (boot_holds h hr).1

theorem kept_of_started (h : Started L phys m)
    (htaken : ∀ f ∈ [L.kernelPageTables, L.kernelPageTables+1, L.kheapPageTables, L.initPageDirectory],
      bit phys.bitmap f = false) (hflag : FlagSound L.toKernelImage phys) :
    Kept L [L.initPageDirectory] [] m [] := by
  have hcr3 : frameOf m.cr3 = L.initPageDirectory := by
    rw [h.cr3, frameOf_frameAddress (static_lt L (by simp))]
  refine ⟨⟨owned_of_started h htaken,by rwa [h.phys_eq],by rw [hcr3]; exact List.mem_cons_self⟩,?_,
    by simp,by simp [directories],by simp⟩
  rw [h.heapBitmap]
  exact inv_start phys

end

theorem inv_of_start {L : Layout} {ram : Frames} {map : Ram} {mapAddr mapLength : Word} {fuel : ℕ}
    {phys : PhysicalMem} {m : Machine}
    (hinit : phyMemoryManagerInit L.toKernelImage map mapAddr mapLength fuel = .ok phys)
    (hstart : Boot.start L ram phys = .ok m) : Inv L (.running m []) := by
  obtain ⟨m',hm,hs⟩ := start_ok L ram phys
  rw [hstart, Except.ok.injEq] at hm
  subst hm
  have hflag : FlagSound L.toKernelImage phys := fun hf => by
    rw [(init_reserved hinit).2] at hf
    cases hf
  exact ⟨_,_,kept_of_started hs (fun f hf => static_taken hinit hf) hflag⟩

theorem inv_of_run {L : Layout} {s t : State} {ops : List Op} (hs : Inv L s)
    (hlast : Transition.Guarded (step L) (FramesLast L) ops s)
    (hrun : Transition.run (step L) ops s = some t) : Inv L t :=
  Transition.always_run _ (Transition.always_of_guarded (fun _ h => h) step_inv hs hlast) hrun

/-! ## The first address space on a region of frames -/

/-- A memory map of one available region from the end of `smallImage` on, of
`256 * len` bytes. -/
def regionMap (len : Byte) : Ram := fun p =>
  if p = 0x9000#32 then 20#8
  else if p = 0x9006#32 then 0x20#8
  else if p = 0x900D#32 then len
  else if p = 0x9014#32 then 1#8
  else 0#8

theorem region_init (len : Byte) (size : Word)
    (hext : entryExtent (readEntry (regionMap len) 0x9000#32) = some (0x200000#32, size))
    (hs : size.toNat%4096 = 0) (hle : size.toNat < 0x100000) :
    ∃ phys, phyMemoryManagerInit smallImage (regionMap len) 0x9000#32 1#32 2 = .ok phys ∧
      ∀ p, bit phys.bitmap p = decide (512 ≤ p ∧ p < 512+size.toNat/4096) := by
  have hin : 0x9000#32 < 0x9000#32+24#32*1#32 := by decide
  have hsize : (readEntry (regionMap len) 0x9000#32).size = 20#32 := by
    simp [readEntry, readWord, regionMap, le32]
  have htype : (readEntry (regionMap len) 0x9000#32).type = memoryAvailable := by
    simp [readEntry, readWord, regionMap, le32, memoryAvailable]
  have hend : ¬ 0x9000#32+20#32+4#32 < 0x9000#32+24#32*1#32 := by decide
  have hsum : (0x200000#32+size).toNat = 0x200000+size.toNat := by bv_omega
  simp only [phyMemoryManagerInit, mapMemory, if_pos hin, PhysicalMemory.mapEntry, if_pos htype, hext]
  rw [changePagesState_eq 0x200000#32 _ _ _ (by decide) (by omega) (by bv_omega)]
  simp only [hsize, if_neg hend]
  refine ⟨_,rfl,fun p => ?_⟩
  rw [changePagesState_eq kernelStart smallImage.kernelEnd _ _ (by decide) (by decide) (by decide),
    changePagesState_eq 0#32 0xff000#32 _ _ (by decide) (by decide) (by decide)]
  have hzero : bit PhysicalMem.boot.bitmap p = false := BitVec.getMsbD_zero
  simp only [bit_put_range, hsum, kernelStart, smallImage, BitVec.toNat_ofNat, hzero]
  by_cases hp : 512 ≤ p ∧ p < 512+size.toNat/4096
  · rw [if_neg (by omega), if_neg (by omega), if_pos (by omega), decide_eq_true hp]
    rfl
  · rw [decide_eq_false hp]
    split_ifs <;> first | rfl | omega

def firstSpace : Vas := ⟨0xC0800000#32, 0x200000#32⟩

theorem region_left {phys : PhysicalMem} {n : ℕ} (hn : 512+n ≤ 2^20)
    (hbits : ∀ p, bit phys.bitmap p = decide (512 ≤ p ∧ p < 512+n)) : left smallImage phys = n := by
  have hfirst : firstPage smallImage = 512 := by decide
  have hset : ((Finset.Ico (firstPage smallImage) frameCount).filter fun q => bit phys.bitmap q = true) =
      Finset.Ico 512 (512+n) := by
    ext q
    simp only [Finset.mem_filter, Finset.mem_Ico, hbits, decide_eq_true_eq, hfirst, frameCount]
    omega
  rw [left, hset, Nat.card_Ico]
  omega

theorem first_frame {phys : PhysicalMem} {n : ℕ} (hn : 0 < n) (hle : 512+n ≤ 2^20)
    (hbits : ∀ p, bit phys.bitmap p = decide (512 ≤ p ∧ p < 512+n)) (hflag : phys.noPageAvailable = false) :
    ∃ phys', allocatePhysicalPage smallImage phys = (frameAddress 512, phys') := by
  have hfirst : firstPage smallImage = 512 := by decide
  rcases allocate_cases smallImage phys with ⟨hf,-⟩ | ⟨p,hlow,he⟩ | ⟨hex,-⟩
  · rw [hflag] at hf
    cases hf
  · have hp : p = 512 := by
      have hav := hlow.isAvailable
      rw [hbits, decide_eq_true_eq] at hav
      by_contra hne
      have hbelow := hlow.below 512 (by omega) (by omega)
      rw [hbits, decide_eq_false_iff_not] at hbelow
      omega
    exact ⟨_,he.trans (by rw [hp]; rfl)⟩
  · have hleft := region_left hle hbits
    rw [(left_eq_zero_iff smallImage phys).mpr hex] at hleft
    omega

theorem first_alloc {phys : PhysicalMem} {n : ℕ} {m : Machine} (hn : 0 < n) (hle : 512+n ≤ 2^20)
    (hbits : ∀ p, bit phys.bitmap p = decide (512 ≤ p ∧ p < 512+n)) (hflag : phys.noPageAvailable = false)
    (hm : Started smallLayout phys m) :
    ∃ phys', left smallImage phys'+1 = n ∧ FlagSound smallImage phys' ∧
      allocVirtualAddressSpace smallLayout 0xC0801008#32 m =
        .ok (some firstSpace, withDirectory smallLayout m 0 0 512 phys') := by
  have hsound : FlagSound smallImage phys := fun hf => by
    rw [hflag] at hf
    cases hf
  have hleft : 0 < left smallImage phys := by rw [region_left hle hbits]; exact hn
  have hcall := first_frame hn hle hbits hflag
  obtain ⟨phys',hphys⟩ := hcall
  obtain ⟨-,hflag',hcount⟩ := granted_of_left (by omega) hsound hleft hphys
  rw [region_left hle hbits] at hcount
  refine ⟨phys',hcount,hflag',?_⟩
  have htaken : ∀ f, f < 512 → bit phys.bitmap f = false := fun f hf => by
    rw [hbits, decide_eq_false (by omega)]
  have hready := ready_of_started hm (htaken _ (by decide)) (htaken _ (by decide)) (htaken _ (by omega))
  have hsuit : Suitable m.heapBitmap 1 0 0 := by
    rw [hm.heapBitmap]
    exact suitable_start phys
  have hcr3 : frameOf m.cr3 = 0x113 := by
    rw [hm.cr3]
    decide
  rw [allocVirtualAddressSpace, if_neg (by decide), allocPageDir_ok smallLayout (f := 512) hready.mapped
    hready.high hsuit (by omega) (by rw [hcr3]; decide) (by decide) (by rw [hm.phys_eq]; exact hphys)]
  rfl

def inFirstSpace (m : Machine) (phys : PhysicalMem) : Machine :=
  { withDirectory smallLayout m 0 0 512 phys with cr3 := frameAddress 512 }

theorem into_first_space {phys : PhysicalMem} {n : ℕ} {m : Machine} (hn : 0 < n) (hle : 512+n ≤ 2^20)
    (hbits : ∀ p, bit phys.bitmap p = decide (512 ≤ p ∧ p < 512+n)) (hflag : phys.noPageAvailable = false)
    (hm : Started smallLayout phys m) :
    ∃ phys', left smallImage phys'+1 = n ∧ ∀ ops,
      Transition.run (step smallLayout) (.alloc 0xC0801008#32::.switch firstSpace::ops) (.running m []) =
        Transition.run (step smallLayout) ops (.running (inFirstSpace m phys') [firstSpace]) ∧
      (Transition.Guarded (step smallLayout) (FramesLast smallLayout) ops
          (.running (inFirstSpace m phys') [firstSpace]) →
        Transition.Guarded (step smallLayout) (FramesLast smallLayout)
          (.alloc 0xC0801008#32::.switch firstSpace::ops) (.running m [])) := by
  obtain ⟨phys',hcount,-,hcall⟩ := first_alloc hn hle hbits hflag hm
  have halloc : step smallLayout (.running m []) (.alloc 0xC0801008#32) =
      some (.running (withDirectory smallLayout m 0 0 512 phys') [firstSpace]) := by
    rw [step, hcall]
    rfl
  have hswitch : step smallLayout (.running (withDirectory smallLayout m 0 0 512 phys') [firstSpace])
      (.switch firstSpace) = some (.running (inFirstSpace m phys') [firstSpace]) := by
    rw [step, if_pos (by simp), switch_eq (by decide)]
    rfl
  refine ⟨phys',hcount,fun ops => ⟨?_,fun hrest s₁ h₁ => ?_⟩⟩
  · rw [Transition.run_cons, halloc, Option.bind_some, Transition.run_cons, hswitch, Option.bind_some]
  · rw [halloc, Option.some.injEq] at h₁
    subst h₁
    refine ⟨Or.inr ⟨?_,0,0,?_⟩,fun s₂ h₂ => ⟨trivial,?_⟩⟩
    · rw [hm.phys_eq, show smallLayout.toKernelImage = smallImage from rfl, region_left hle hbits]
      exact hn
    · rw [hm.heapBitmap]
      exact suitable_start phys
    · rw [hswitch, Option.some.injEq] at h₂
      exact h₂ ▸ hrest

/-! ## Memory that runs out -/

theorem allocate_exhausted {image : KernelImage} {phys : PhysicalMem} (h : Exhausted image phys.bitmap) :
    ∃ phys', allocatePhysicalPage image phys = (frameAddress 0, phys') ∧ phys'.bitmap = phys.bitmap := by
  rcases allocate_cases image phys with ⟨-,he⟩ | ⟨p,hlow,-⟩ | ⟨-,he⟩
  · exact ⟨phys,he,rfl⟩
  · exact absurd h (lowest_not_exhausted hlow)
  · exact ⟨_,he,rfl⟩

theorem exhausted_null {image : KernelImage} {phys phys' : PhysicalMem} {f : ℕ} (hf : f < 2^20)
    (hx : Exhausted image phys.bitmap) (ha : allocatePhysicalPage image phys = (frameAddress f, phys')) :
    f = 0 ∧ Exhausted image phys'.bitmap := by
  obtain ⟨phys₀,ha₀,hb⟩ := allocate_exhausted hx
  rw [ha, Prod.mk.injEq] at ha₀
  refine ⟨entry_inj (a := 0) hf (by omega) (by omega) ha₀.1,?_⟩
  rw [ha₀.2, hb]
  exact hx

theorem userMapped_zero {mem : Frames} {D p : ℕ} (hp : p < 768*1024) (hslot : mem D (p/1024) = entry 0 7)
    (hentry : mem 0 (p%1024) = entry 0 7) : UserMapped mem D p 0 := by
  have hframe : frameOf (entry 0 7) = 0 := frameOf_entry (by omega) (by omega)
  have hpres : isPresent (entry 0 7) = true := isPresent_entry (by omega)
  have huser : isUser (entry 0 7) = true := by rw [isUser_entry (by omega)]; rfl
  refine ⟨hp,?_,?_,?_⟩
  · rw [hslot]
    exact ⟨hpres,huser⟩
  · rw [hslot, hframe, hentry]
    exact ⟨hpres,huser⟩
  · rw [hslot, hframe, hentry, hframe]

/-- Without a frame left, the first page of an empty slot is mapped to frame zero,
which becomes its table. -/
theorem share_first {L : Layout} {m : Machine} {D : ℕ} {v : Word} (hc : Current m D) (hD : D ≠ 0)
    (hv : UserPage v) (hex : Exhausted L.toKernelImage m.phys.bitmap) (h0 : m.mem D (v.toNat/4096/1024) = 0#32) :
    ∃ m', mmapPage L v m = .ok m' ∧ Current m' D ∧ Exhausted L.toKernelImage m'.phys.bitmap ∧
      m'.mem D (v.toNat/4096/1024) = entry 0 7 ∧ m'.mem 0 (v.toNat/4096%1024) = entry 0 7 ∧
      ∀ j, j ≠ v.toNat/4096%1024 → m'.mem 0 j = 0#32 := by
  unfold UserPage at hv
  rcases mmapPage_cases L hc hv (Or.inl h0) with
    ⟨hin,-⟩ | ⟨-,hne,-⟩ | ⟨-,f,phys,t,phys',hf,ht,ha,ha',he⟩
  · exact absurd h0 hin.1
  · exact absurd h0 hne
  · obtain ⟨rfl,hx⟩ := exhausted_null hf hex ha
    obtain ⟨rfl,hx'⟩ := exhausted_null ht hx ha'
    have hrow : ∀ k, setWord (withTable m.mem D (v.toNat/4096/1024) 0) 0 (v.toNat/4096%1024) (entry 0 7) D k =
        setWord m.mem D (v.toNat/4096/1024) (entry 0 7) D k := fun k => by
      rw [setWord_frame _ _ _ hD, withTable, setFrame_frame _ _ hD]
    refine ⟨_,he (Ne.symm hD),⟨hc.cr3,hc.lt,?_⟩,hx',?_,?_,fun j hj => ?_⟩
    · exact ((hrow 1023).trans (setWord_index _ _ _ (by omega))).trans hc.self
    · exact (hrow _).trans (setWord_self _ _ _ _)
    · rw [mapped, withMem_mem, setWord_self]
    · rw [mapped, withMem_mem, setWord_index _ _ _ hj, withTable, setFrame_self]

theorem share_next {L : Layout} {m : Machine} {D : ℕ} {v : Word} (hc : Current m D) (hD : D ≠ 0)
    (hv : UserPage v) (hex : Exhausted L.toKernelImage m.phys.bitmap)
    (hslot : m.mem D (v.toNat/4096/1024) = entry 0 7) (h0 : m.mem 0 (v.toNat/4096%1024) = 0#32) :
    ∃ m', mmapPage L v m = .ok m' ∧ m'.mem = setWord m.mem 0 (v.toNat/4096%1024) (entry 0 7) := by
  have hframe : frameOf (entry 0 7) = 0 := frameOf_entry (by omega) (by omega)
  have hpresent : Slot m.mem D (v.toNat/4096/1024) := by
    rw [Slot, hslot, hframe]
    exact Or.inr ⟨isPresent_entry (by omega),Ne.symm hD⟩
  rcases mmapPage_cases L hc hv hpresent with ⟨hin,-⟩ | ⟨-,-,f,phys,hf,ha,he⟩ | ⟨hz,-⟩
  · refine absurd h0 ?_
    have hset := hin.2
    rwa [hslot, hframe] at hset
  · obtain ⟨rfl,-⟩ := exhausted_null hf hex ha
    refine ⟨_,he,?_⟩
    rw [hslot, hframe, mapped, withMem_mem]
  · rw [hslot] at hz
    exact absurd hz (by decide)

/-- Without a frame left, two pages of an empty slot are both mapped to frame
zero, which is their table as well. -/
theorem pages_share_frame {L : Layout} {m : Machine} {D : ℕ} {v : Word} (hc : Current m D) (hD : D ≠ 0)
    (hv : UserPage v) (hal : v.toNat%2^22 = 0) (hex : Exhausted L.toKernelImage m.phys.bitmap)
    (h0 : m.mem D (v.toNat/4096/1024) = 0#32) :
    ∃ m', mmapLoop L 2 v m = .ok m' ∧ UserMapped m'.mem D (v.toNat/4096) 0 ∧
      UserMapped m'.mem D (v.toNat/4096+1) 0 := by
  obtain ⟨m₁,hpage₁,hcur,hx,hslot,hentry,hrest⟩ := share_first hc hD hv hex h0
  unfold UserPage at hv
  have hnext := toNat_nextPage (v := v) (by omega)
  have hp : (v+pageSize).toNat/4096 = v.toNat/4096+1 := by omega
  have hi : (v.toNat/4096+1)/1024 = v.toNat/4096/1024 := by omega
  have hnextPage : UserPage (v+pageSize) := by
    rw [UserPage, hp, hi]
    exact hv
  obtain ⟨m₂,hpage₂,hmem⟩ := share_next hcur hD hnextPage hx (by rw [hp, hi, hslot]) (hrest _ (by omega))
  rw [hp] at hmem
  have hslot₂ : m₂.mem D (v.toNat/4096/1024) = entry 0 7 := by
    rw [hmem, setWord_frame _ _ _ hD, hslot]
  refine ⟨m₂,?_,userMapped_zero (by omega) hslot₂ ?_,userMapped_zero (by omega) (by rw [hi, hslot₂]) ?_⟩
  · rw [mmapLoop, hpage₁, ok_bind, mmapLoop, hpage₂, ok_bind]
    rfl
  · rw [hmem, setWord_index _ _ _ (by omega), hentry]
  · rw [hmem, setWord_self]

end MikeOS.AddressSpaces
