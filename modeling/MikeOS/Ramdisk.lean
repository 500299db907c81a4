import MikeOS.UnheldFrames
import MikeOS.KernelHalf

/-!
# The ramdisk behind the kernel heap

The frames of the module the boot loader left are mapped to pages of the heap.
A run makes, fills and tears down address spaces and takes pages of the heap;
user code stores in its own pages and the kernel in the heap pages it took.
While the frames last, every address space reads the module as it was loaded.
-/

set_option autoImplicit false

namespace MikeOS.Ramdisk
open BitArray MikeOS.Memory MikeOS.Paging MikeOS.PhysicalMemory MikeOS.KernelHeap MikeOS.KernelHeapSearch
open MikeOS.KernelHeapRuns hiding State returned Op Inv step
open MikeOS.FrameAllocator MikeOS.Mmu MikeOS.VirtualMemory MikeOS.FramePool
open MikeOS.PageTables MikeOS.Boot MikeOS.PageDirectory MikeOS.Ownership MikeOS.FrameDemand MikeOS.Mmaps
open MikeOS.UserBytes MikeOS.KernelMain MikeOS.UnheldFrames
open MikeOS.AddressSpaces (State Kept FramesLast Known directories returned heapMapped_of_running)
open MikeOS.Teardown (smallLayout)

structure Disk where
  page : ℕ
  frame : ℕ
  count : ℕ

def OnDisk (d : Disk) (p : ℕ) : Prop := d.page ≤ p ∧ p < d.page+d.count

instance (d : Disk) (p : ℕ) : Decidable (OnDisk d p) := inferInstanceAs (Decidable (_ ∧ _))

def OwnPage (d : Disk) (m : Machine) (live : List Vas) (p : ℕ) : Prop :=
  p < 1024 ∧ bit m.heapBitmap p = false ∧ (∀ vmm ∈ live, vmm.pageDirectory.toNat ≠ windowBase+4096*p) ∧ ¬ OnDisk d p

instance (d : Disk) (m : Machine) (live : List Vas) (p : ℕ) : Decidable (OwnPage d m live p) :=
  inferInstanceAs (Decidable (_ ∧ _ ∧ _ ∧ _))

inductive Op where
  | space (op : AddressSpaces.Op)
  | user (address : Word) (b : Byte)
  | kernel (address : Word) (b : Byte)
  deriving DecidableEq, Repr

def pageOf (a : Word) : ℕ := (a.toNat-windowBase)/4096

/-- User code runs outside the directory of the kernel and stores below the
kernel; the kernel stores in its own pages of the heap. -/
def step (L : Layout) (d : Disk) : State → Op → Option State
  | s, .space op => AddressSpaces.step L s op
  | .running m live, .user a b =>
    if a.toNat < 0xC0000000 ∧ frameOf m.cr3 ≠ L.initPageDirectory then
      returned (fun m => .running m live) (storeByte a b m)
    else none
  | .running m live, .kernel a b =>
    if windowBase ≤ a.toNat ∧ OwnPage d m live (pageOf a) then
      returned (fun m => .running m live) (storeByte a b m)
    else none
  | .undefined, _ => none

def Lasts (L : Layout) : State → Op → Prop
  | s, .space op => AddressSpaces.Spare L s op
  | _, _ => True

def Intact (L : Layout) (d : Disk) (words : Frames) : State → Prop
  | .undefined => False
  | .running m live => ∀ D ∈ directories L live, ∀ j, j < d.count → ∀ i, i < 4096 →
    loadByte (BitVec.ofNat 32 (windowBase+4096*(d.page+j)+i)) (KernelHalf.inSpace m D) =
      .ok (Words.byteOf (words (d.frame+j) (i/4)) (i%4))

/-! ## The invariant -/

structure Carried (L : Layout) (d : Disk) (words : Frames) (dirs : List ℕ) (ranges : List Range) (m : Machine)
    (live : List Vas) : Prop where
  kept : Kept L dirs ranges m live
  frames : ∀ j, j < d.count → Unheld L m.mem dirs m.phys (d.frame+j)
  content : ∀ j, j < d.count → m.mem (d.frame+j) = words (d.frame+j)
  entries : ∀ j, j < d.count → m.mem L.kheapPageTables (d.page+j) = entry (d.frame+j) 3
  pages : ∀ j, j < d.count → d.page+j < 1024 ∧ bit m.heapBitmap (d.page+j) = false ∧
    ∀ vmm ∈ live, vmm.pageDirectory.toNat ≠ windowBase+4096*(d.page+j)
  own : ∀ p, OwnPage d m live p → ∃ g, m.mem L.kheapPageTables p = entry g 3 ∧
    Unheld L m.mem dirs m.phys g ∧ ∀ j, j < d.count → g ≠ d.frame+j
  apart : ∀ p q, OwnPage d m live p → OwnPage d m live q →
    m.mem L.kheapPageTables p = m.mem L.kheapPageTables q → p = q

def Inv (L : Layout) (d : Disk) (words : Frames) : State → Prop
  | .undefined => False
  | .running m live => ∃ dirs ranges, Carried L d words dirs ranges m live

/-- What a step that writes frame `written` does to frames without a holder and to
pages of the heap that hold no directory. -/
structure Moves (L : Layout) (d : Disk) (written : Option ℕ) (dirs dirs' : List ℕ) (m m' : Machine)
    (live live' : List Vas) : Prop where
  frames : ∀ g, Unheld L m.mem dirs m.phys g → Unheld L m'.mem dirs' m'.phys g
  content : ∀ g, Unheld L m.mem dirs m.phys g → written ≠ some g → m'.mem g = m.mem g
  pages : ∀ p, p < 1024 → bit m.heapBitmap p = false →
    (∀ vmm ∈ live, vmm.pageDirectory.toNat ≠ windowBase+4096*p) →
      m'.mem L.kheapPageTables p = m.mem L.kheapPageTables p ∧ bit m'.heapBitmap p = false ∧
        ∀ vmm ∈ live', vmm.pageDirectory.toNat ≠ windowBase+4096*p
  own : ∀ p, OwnPage d m' live' p → OwnPage d m live p ∨ ∃ g, m'.mem L.kheapPageTables p = entry g 3 ∧
    Unheld L m'.mem dirs' m'.phys g ∧ bit m.phys.bitmap g = true
  fresh : ∀ p q, OwnPage d m' live' p → OwnPage d m' live' q → ¬ OwnPage d m live p → ¬ OwnPage d m live q →
    m'.mem L.kheapPageTables p = m'.mem L.kheapPageTables q → p = q

def Moved (L : Layout) (d : Disk) (written : Option ℕ) (dirs : List ℕ) (m m' : Machine) (live live' : List Vas) :
    Prop :=
  ∃ dirs' ranges', Kept L dirs' ranges' m' live' ∧ Moves L d written dirs dirs' m m' live live'

section
variable {L : Layout} {d : Disk} {words : Frames} {dirs dirs' : List ℕ} {ranges ranges' : List Range}
  {m m' : Machine} {live live' : List Vas} {written : Option ℕ}

/-- A page taken before keeps its frame, which is not one that a page taken since got. -/
theorem moves_apart (h : Carried L d words dirs ranges m live) (hm : Moves L d written dirs dirs' m m' live live')
    {p q : ℕ} (hp : OwnPage d m live p) (hq : OwnPage d m' live' q) (hnew : ¬ OwnPage d m live q) :
    m'.mem L.kheapPageTables p ≠ m'.mem L.kheapPageTables q := fun he => by
  obtain ⟨g,hg,hu,-⟩ := h.own p hp
  obtain ⟨g',hg',hu',hfree⟩ := (hm.own q hq).resolve_left hnew
  rw [(hm.pages p hp.1 hp.2.1 hp.2.2.1).1, hg, hg'] at he
  rw [← entry_inj hu.lt hu'.lt (by omega) he, hu.taken] at hfree
  cases hfree

theorem carried_moves (h : Carried L d words dirs ranges m live) (hk : Kept L dirs' ranges' m' live')
    (hm : Moves L d written dirs dirs' m m' live live') (hdisk : ∀ j, j < d.count → written ≠ some (d.frame+j)) :
    Carried L d words dirs' ranges' m' live' := by
  have hpage : ∀ j, j < d.count → m'.mem L.kheapPageTables (d.page+j) = m.mem L.kheapPageTables (d.page+j) ∧
      bit m'.heapBitmap (d.page+j) = false ∧
        ∀ vmm ∈ live', vmm.pageDirectory.toNat ≠ windowBase+4096*(d.page+j) := fun j hj => by
    obtain ⟨hlt,hbit,hdir⟩ := h.pages j hj
    exact hm.pages _ hlt hbit hdir
  refine ⟨hk,fun j hj => hm.frames _ (h.frames j hj),
    fun j hj => (hm.content _ (h.frames j hj) (hdisk j hj)).trans (h.content j hj),
    fun j hj => (hpage j hj).1.trans (h.entries j hj),fun j hj => ⟨(h.pages j hj).1,(hpage j hj).2⟩,fun p hp => ?_,
    fun p q hp hq he => ?_⟩
  · rcases hm.own p hp with hold | ⟨g,he,hu,hfree⟩
    · obtain ⟨g,he,hu,hne⟩ := h.own p hold
      exact ⟨g,(hm.pages p hold.1 hold.2.1 hold.2.2.1).1.trans he,hm.frames g hu,hne⟩
    · refine ⟨g,he,hu,fun j hj heq => ?_⟩
      rw [heq, (h.frames j hj).taken] at hfree
      cases hfree
  · by_cases hp' : OwnPage d m live p <;> by_cases hq' : OwnPage d m live q
    · rw [(hm.pages p hp'.1 hp'.2.1 hp'.2.2.1).1, (hm.pages q hq'.1 hq'.2.1 hq'.2.2.1).1] at he
      exact h.apart p q hp' hq' he
    · exact absurd he (moves_apart h hm hp' hq hq')
    · exact absurd he.symm (moves_apart h hm hq' hp hp')
    · exact hm.fresh p q hp hq hp' hq' he

theorem inv_of_moved (h : Carried L d words dirs ranges m live) (hm : Moved L d written dirs m m' live live')
    (hdisk : ∀ j, j < d.count → written ≠ some (d.frame+j)) : Inv L d words (.running m' live') := by
  obtain ⟨dirs',ranges',hk,hm⟩ := hm
  exact ⟨dirs',ranges',carried_moves h hk hm hdisk⟩

/-- No page is taken. -/
theorem moves_old (hs : Spares L dirs dirs' m m')
    (hpages : ∀ p, p < 1024 → bit m.heapBitmap p = false →
      (∀ vmm ∈ live, vmm.pageDirectory.toNat ≠ windowBase+4096*p) →
        m'.mem L.kheapPageTables p = m.mem L.kheapPageTables p ∧ bit m'.heapBitmap p = false ∧
          ∀ vmm ∈ live', vmm.pageDirectory.toNat ≠ windowBase+4096*p)
    (hown : ∀ p, OwnPage d m' live' p → OwnPage d m live p) : Moves L d none dirs dirs' m m' live live' :=
  ⟨fun g hg => (hs g hg).1,fun g hg _ => (hs g hg).2,hpages,fun p hp => Or.inl (hown p hp),
    fun p _ hp _ hp' => absurd (hown p hp) hp'⟩

theorem walk_inSpace (h : Running L dirs m) {D : ℕ} (hD : D ∈ dirs) {p f i : ℕ} (hp : p < 1024) (hf : f < 2^20)
    (hi : i < 4096) (he : m.mem L.kheapPageTables p = entry f 3) :
    walk (KernelHalf.inSpace m D) (BitVec.ofNat 32 (windowBase+4096*p+i)) = .ok f := by
  obtain ⟨hlt,hheap,-⟩ := h.owned.half D hD
  have hH : L.kheapPageTables < 2^20 := static_lt L (by simp)
  have hadr : (BitVec.ofNat 32 (windowBase+4096*p+i)).toNat = windowBase+4096*p+i := by
    rw [BitVec.toNat_ofNat, Nat.mod_eq_of_lt (by unfold windowBase; omega)]
  have htab : frameOf (m.mem D 770) = L.kheapPageTables := by rw [hheap, frameOf_entry hH (by omega)]
  unfold windowBase at *
  refine walk_eq (D := D) (i := 770) (j := p) (frameOf_frameAddress hlt) (by omega) (by omega) ?_ ?_ ?_
  · change isPresent (m.mem D 770) = true
    rw [hheap]
    exact isPresent_entry (by omega)
  · change isPresent (m.mem (frameOf (m.mem D 770)) p) = true
    rw [htab, he]
    exact isPresent_entry (by omega)
  · change frameOf (m.mem (frameOf (m.mem D 770)) p) = _
    rw [htab, he, frameOf_entry hf (by omega)]

theorem intact_of_carried (h : Carried L d words dirs ranges m live) : Intact L d words (.running m live) := by
  intro D hD j hj i hi
  have hpage := (h.pages j hj).1
  have hw := walk_inSpace h.kept.running (AddressSpaces.directories_known h.kept hD) hpage (h.frames j hj).lt hi
    (h.entries j hj)
  have hadr : (BitVec.ofNat 32 (windowBase+4096*(d.page+j)+i)).toNat = windowBase+4096*(d.page+j)+i := by
    rw [BitVec.toNat_ofNat, Nat.mod_eq_of_lt (by unfold windowBase; omega)]
  rw [loadByte, hw, ok_bind]
  change Except.ok (Words.byteOf (m.mem (d.frame+j) _) _) = _
  rw [h.content j hj, wordIndex, hadr]
  unfold windowBase
  rw [show (0xC0800000+4096*(d.page+j)+i)%4096/4 = i/4 by omega, show (0xC0800000+4096*(d.page+j)+i)%4 = i%4 by omega]

/-! ## Pages of the heap -/

theorem unheld_of_available (h : Running L dirs m) {g : ℕ} (hlt : g < 2^20) (h0 : g ≠ 0)
    (hfree : bit m.phys.bitmap g = true) {phys : PhysicalMem} (htaken : bit phys.bitmap g = false) :
    Unheld L m.mem dirs phys g := by
  refine ⟨hlt,h0,htaken,fun hr => ?_,fun r hr => ?_⟩
  · have := h.owned.fixed g hr
    rw [hfree] at this
    cases this
  · have := (h.owned.taken r g hr).1
    rw [hfree] at this
    cases this

theorem heap_moved (h : Kept L dirs ranges m live) {n : Word} (hn : n ≠ 0#32)
    (hg : Lasts L (.running m live) (.space (.heap n))) :
    ∃ r, onHeap (allocKheapPages L.toKernelImage n) m = .ok r ∧ Moved L d none dirs m r.2 live live := by
  obtain ⟨⟨i,s,hs⟩,hleft⟩ := hg
  have hin := hs.inside
  have hrun := h.running
  obtain ⟨k,hk,hb,hflag,hkeep,hout,hnew,hne,-⟩ := AddressSpaces.overEntries_granted L.toKernelImage n.toNat (8*i+s)
    (k := ⟨taken m.heapBitmap n i s, m.mem L.kheapPageTables, m.phys⟩) (by omega) hrun.flag hleft
  have hcall := allocKheapPages_filled L.toKernelImage (k := ⟨m.heapBitmap, m.mem L.kheapPageTables, m.phys⟩)
    h.pages.high hn hs hk
  obtain ⟨hkept,htook⟩ := took_kept h hn hs hb (e := k.table) (fun q => by
    split
    · rfl
    · exact hout q (by omega)) hflag hkeep
  have hspares := spares_withHeap hrun hkeep
  have hbit : ∀ p, bit (Machine.withHeap m L.kheapPageTables k).heapBitmap p =
      (!decide (8*i+s ≤ p ∧ p < 8*i+s+n.toNat) && bit m.heapBitmap p) := fun p => by
    rw [htook.heapBitmap, bit_taken rfl (by omega)]
  have htable : ∀ p, 8*i+s ≤ p → p < 8*i+s+n.toNat →
      (Machine.withHeap m L.kheapPageTables k).mem L.kheapPageTables p = k.table p := fun p h1 h2 => by
    rw [htook.table, if_pos ⟨h1,h2⟩]
  have hpage : ∀ p, OwnPage d (Machine.withHeap m L.kheapPageTables k) live p → ¬ OwnPage d m live p →
      8*i+s ≤ p ∧ p < 8*i+s+n.toNat := fun p hp hold => by
    by_contra hout
    refine hold ⟨hp.1,?_,hp.2.2⟩
    have hb := hp.2.1
    rwa [hbit, decide_eq_false hout, Bool.not_false, Bool.true_and] at hb
  refine ⟨_,onHeap_ok (heapMapped_of_running hrun) hcall,dirs,_,hkept,fun g hg => (hspares g hg).1,
    fun g hg _ => (hspares g hg).2,fun p hp htaken hdir => ?_,fun p hp => ?_,fun p q hp hq hp' hq' he => ?_⟩
  · have hnot : ¬ (8*i+s ≤ p ∧ p < 8*i+s+n.toNat) := fun hin => by
      have hfree := hs.free (p-(8*i+s)) (by omega)
      rw [show 8*i+s+(p-(8*i+s)) = p by omega, htaken] at hfree
      cases hfree
    refine ⟨by rw [htook.table, if_neg hnot],?_,hdir⟩
    rw [hbit, htaken, Bool.and_false]
  · by_cases hold : OwnPage d m live p
    · exact Or.inl hold
    · obtain ⟨h1,h2⟩ := hpage p hp hold
      obtain ⟨g,hlt,h0,he,hfree,htaken⟩ := hnew p h1 h2
      refine Or.inr ⟨g,by rw [htable p h1 h2, he],?_,hfree⟩
      -- the table of the heap is no part of what a frame is held by
      have hrun' : Running L dirs (m.withPhys k.phys) := ⟨owned_phys hrun.owned hkeep,hflag,hrun.current⟩
      exact (spares_withHeap hrun' (k := k) (fun _ hq => hq) g (unheld_of_available hrun hlt h0 hfree htaken)).1
  · obtain ⟨h1,h2⟩ := hpage p hp hp'
    obtain ⟨h3,h4⟩ := hpage q hq hq'
    rw [htable p h1 h2, htable q h3 h4] at he
    rcases lt_trichotomy p q with hlt | heq | hlt
    · exact absurd he (hne p q h1 hlt h4)
    · exact heq
    · exact absurd he.symm (hne q p h3 hlt h2)

/-! ## Address spaces -/

theorem moved_refl (h : Kept L dirs ranges m live) : Moved L d none dirs m m live live :=
  ⟨dirs,ranges,h,moves_old (spares_refl m) (fun _ _ ht hd => ⟨rfl,ht,hd⟩) (fun _ hp => hp)⟩

theorem alloc_moved (h : Kept L dirs ranges m live) {record : Word}
    (hg : FramesLast L (.running m live) (.alloc record)) :
    ∃ r, allocVirtualAddressSpace L record m = .ok r ∧ Moved L d none dirs m r.2 live (r.1.toList ++ live) := by
  by_cases hr : record = null
  · exact ⟨(none, m),by rw [allocVirtualAddressSpace, if_pos hr],moved_refl h⟩
  obtain ⟨hleft,i,s,hs⟩ := hg.resolve_left hr
  have hin := hs.inside
  have hrun := h.running
  obtain ⟨f,phys,hcall,hf,hgrant,hflag,-⟩ := AddressSpaces.alloc_left h hs hleft
  have hfH : f ≠ L.kheapPageTables := fun he => (unheld_of_granted hrun.owned hf hgrant).fixed (he ▸ heap_reserved L)
  have hbit : ∀ p, bit (taken m.heapBitmap 1#32 i s) p = (!decide (p = 8*i+s) && bit m.heapBitmap p) := fun p => by
    rw [bit_taken rfl (by rw [show (1#32).toNat = 1 from rfl]; omega), show (1#32).toNat = 1 from rfl]
    rw [show decide (8*i+s ≤ p ∧ p < 8*i+s+1) = decide (p = 8*i+s) from decide_eq_decide.mpr (by omega)]
  have hadr : (foundAddress i s).toNat = windowBase+4096*(8*i+s) := toNat_foundAddress (by omega)
  refine ⟨_,by rw [allocVirtualAddressSpace, if_neg hr, hcall],_,_,
    AddressSpaces.alloc_kept h hf hs hgrant hflag,
    moves_old (spares_withDirectory hrun hf hgrant) (fun p hp htaken hdir => ?_) fun p hp => ⟨hp.1,?_,?_,hp.2.2.2⟩⟩
  · have hne : p ≠ 8*i+s := fun he => by
      have hfree := hs.free 0 (by omega)
      rw [Nat.add_zero, ← he, htaken] at hfree
      cases hfree
    refine ⟨?_,?_,List.forall_mem_cons.mpr ⟨?_,hdir⟩⟩
    · exact (congrFun (setFrame_frame _ _ (Ne.symm hfH)) p).trans (setWord_index _ _ _ hne)
    · change bit (taken m.heapBitmap 1#32 i s) p = false
      rw [hbit, htaken, Bool.and_false]
    · rw [hadr]
      omega
  · have hb : bit (taken m.heapBitmap 1#32 i s) p = false := hp.2.1
    have hnew := (List.forall_mem_cons.mp hp.2.2.1).1
    rw [hadr] at hnew
    rwa [hbit, decide_eq_false (by omega), Bool.not_false, Bool.true_and] at hb
  · exact (List.forall_mem_cons.mp hp.2.2.1).2

theorem switch_moved (h : Kept L dirs ranges m live) {vmm : Vas} (hv : vmm ∈ live) :
    Moved L d none dirs m (switchVirtualAddressSpace vmm m).2 live live := by
  refine ⟨dirs,ranges,AddressSpaces.switch_inv h hv,?_⟩
  rw [switchVirtualAddressSpace]
  split
  · exact moves_old (spares_refl m) (fun _ _ ht hd => ⟨rfl,ht,hd⟩) (fun _ hp => hp)
  · exact moves_old (fun _ hg => ⟨hg,rfl⟩) (fun _ _ ht hd => ⟨rfl,ht,hd⟩) (fun _ hp => hp)

theorem mmap_moved (h : Kept L dirs ranges m live) {v n : Word} (hg : FramesLast L (.running m live) (.mmap v n)) :
    ∃ r, VirtualMemory.mmap L v n m = .ok r ∧ Moved L d none dirs m r.2 live live := by
  cases hr : mmapRejects v n with
  | true => exact ⟨(.invalidArgument, m),by rw [VirtualMemory.mmap, hr, if_pos rfl]; rfl,moved_refl h⟩
  | false =>
    obtain ⟨hal,hle⟩ := mmapCount_le hr
    have hleft := hg.resolve_left (by rw [hr]; simp)
    have hrun := h.running
    obtain ⟨m',hm,hrun',hgrows,-,-⟩ := mmapLoop_running _ hrun hle hal (r := 0) hleft
    refine ⟨(.success, m'),?_,dirs,ranges,AddressSpaces.grows_kept h hrun' hgrows,
      moves_old (spares_mmapLoop _ hrun hle hal (r := 0) hleft hm) (fun p _ ht hd => ?_) fun p hp => ?_⟩
    · rw [VirtualMemory.mmap, hr, if_neg (by simp), hm]
      rfl
    · rw [hgrows.heapTable, hgrows.heapBitmap]
      exact ⟨rfl,ht,hd⟩
    · rwa [OwnPage, hgrows.heapBitmap] at hp

theorem free_moved (h : Kept L dirs ranges m live) {vmm : Vas} (hv : vmm ∈ live) (hc : m.cr3 = vmm.physicalPgdAddress) :
    ∃ r, freeVirtualAddressSpace vmm m = .ok r ∧ Moved L d none dirs m r.2 live (live.erase vmm) := by
  obtain ⟨p₀,hp₀,hadr,hpage,hfree⟩ := AddressSpaces.free_known h hv hc
  have hkept := AddressSpaces.free_kept h hv hp₀ hadr
  have hbit := AddressSpaces.bit_withoutPage m L.kheapPageTables hp₀
  have hspares := spares_withHeap (k := ⟨turnBitsOn m.heapBitmap (BitVec.ofNat 32 p₀) 1#32,
    Function.update (m.mem L.kheapPageTables) p₀ 0#32, m.phys⟩) h.running (fun _ hq => hq)
  refine ⟨_,hfree,dirs,_,hkept,moves_old hspares (fun p _ ht hd => ?_) fun p hp => ?_⟩
  · have hne : p ≠ p₀ := fun he => hd vmm hv (by rw [hadr, he])
    refine ⟨setWord_index _ _ _ hne,?_,fun v hv' => hd v (List.mem_of_mem_erase hv')⟩
    rw [hbit, ht, decide_eq_false hne]
    rfl
  · obtain ⟨hlt,hb,hd,hdisk⟩ := hp
    rw [hbit, Bool.or_eq_false_iff, decide_eq_false_iff_not] at hb
    refine ⟨hlt,hb.2,fun v hv' => ?_,hdisk⟩
    by_cases he : v = vmm
    · rw [he, hadr]
      omega
    · exact hd v ((List.mem_erase_of_ne he).mpr hv')

/-! ## Stores -/

def storedRow (m : Machine) (f : ℕ) (a : Word) (b : Byte) : ℕ → Word :=
  Function.update (m.mem f) (wordIndex a) (Words.setByte (m.mem f (wordIndex a)) (a.toNat%4) b)

theorem store_moved (h : Kept L dirs ranges m live) {a : Word} {b : Byte} {f : ℕ} (hw : walk m a = .ok f)
    (hf : Outside L m.mem dirs f) :
    storeByte a b m = .ok (m.withMem (setFrame m.mem f (storedRow m f a b))) ∧
      Moved L d (some f) dirs m (m.withMem (setFrame m.mem f (storedRow m f a b))) live live := by
  have hsame : ∀ g, g ≠ f → setFrame m.mem f (storedRow m f a b) g = m.mem g := fun g hg => setFrame_frame _ _ hg
  have hH : L.kheapPageTables ≠ f := fun he => hf.1 (he ▸ heap_reserved L)
  refine ⟨by rw [storeByte, hw]; rfl,dirs,ranges,kept_outside h hf _,fun g hg => unheld_outside h.running hf hsame hg,
    fun g _ hne => hsame g fun he => hne (by rw [he]),fun p _ ht hd => ⟨congrFun (hsame _ hH) p,ht,hd⟩,
    fun p hp => Or.inl hp,fun p _ hp _ hp' => absurd hp hp'⟩

theorem walk_missing (h : Running L dirs m) (hother : frameOf m.cr3 ≠ L.initPageDirectory) {a : Word}
    (ha : a.toNat < 0xC0000000) (hin : ¬ Entered m.mem (frameOf m.cr3) (a.toNat/4096)) :
    walk m a = .error .pageFault := by
  rw [walk, pageIndex.1, pageIndex.2]
  rcases h.owned.slots _ h.current (a.toNat/4096/1024) (by omega) with h0 | ⟨hboot,-⟩ | ⟨t,ht,hent⟩
  · simp only [h0, AddressSpaces.isPresent_zero]
    rfl
  · exact absurd hboot hother
  · have htab : frameOf (m.mem (frameOf m.cr3) (a.toNat/4096/1024)) = t := by
      rw [ht.2.2, frameOf_entry ht.2.1 (by omega)]
    have hzero : m.mem t (a.toNat/4096%1024) = 0#32 := by
      by_contra hne
      refine hin ⟨?_,by rwa [htab]⟩
      rw [ht.2.2]
      exact entry_ne_zero ht.2.1 (by omega) (by omega)
    simp only [htab, hzero, AddressSpaces.isPresent_zero]
    split <;> rfl

theorem user_moved (h : Kept L dirs ranges m live) {a : Word} {b : Byte} (ha : a.toNat < 0xC0000000)
    (hother : frameOf m.cr3 ≠ L.initPageDirectory) :
    storeByte a b m = .error .pageFault ∨ ∃ m' f r, storeByte a b m = .ok m' ∧
      Moved L d (some f) dirs m m' live live ∧ Ownership.Holds m.mem dirs r f := by
  by_cases hin : Entered m.mem (frameOf m.cr3) (a.toNat/4096)
  · obtain ⟨f,hf⟩ := user_page ⟨h.running,hother⟩ (by omega) hin
    obtain ⟨hdir,htab,hres⟩ := page_row h.running hf
    obtain ⟨hstore,hm⟩ := store_moved (d := d) (b := b) h (walk_user hf) ⟨fun hr => hres f hr rfl,fun hd => hdir f hd rfl,
      fun D hD i ht => htab D hD i f ht rfl⟩
    exact Or.inr ⟨_,f,_,hstore,hm,hf⟩
  · refine Or.inl ?_
    rw [storeByte, walk_missing h.running hother ha hin]
    rfl

theorem pageOf_address {a : Word} (ha : windowBase ≤ a.toNat) :
    a = BitVec.ofNat 32 (windowBase+4096*pageOf a+a.toNat%4096) := by
  apply BitVec.eq_of_toNat_eq
  have := a.isLt
  rw [BitVec.toNat_ofNat]
  unfold pageOf windowBase at *
  omega

theorem kernel_moved (h : Carried L d words dirs ranges m live) {a : Word} {b : Byte} (ha : windowBase ≤ a.toNat)
    (hp : OwnPage d m live (pageOf a)) :
    ∃ g, m.mem L.kheapPageTables (pageOf a) = entry g 3 ∧ Unheld L m.mem dirs m.phys g ∧
      (∀ j, j < d.count → g ≠ d.frame+j) ∧
      storeByte a b m = .ok (m.withMem (setFrame m.mem g (storedRow m g a b))) ∧
      Moved L d (some g) dirs m (m.withMem (setFrame m.mem g (storedRow m g a b))) live live := by
  obtain ⟨g,he,hu,hdisk⟩ := h.own _ hp
  have hlt := hp.1
  have hpage : HeapPage m (frameOf m.cr3) L.kheapPageTables (pageOf a) g
      (BitVec.ofNat 32 (windowBase+4096*pageOf a)) := by
    refine ⟨heapMapped_of_running h.kept.running,hlt,?_,hu.lt,he⟩
    rw [BitVec.toNat_ofNat, Nat.mod_eq_of_lt (by unfold windowBase; omega)]
  have hw := (heapPage_walk hpage (i := a.toNat%4096) (Nat.mod_lt _ (by omega)) (v := a) (by
    rw [← BitVec.ofNat_add]
    exact pageOf_address ha)).1
  obtain ⟨hstore,hm⟩ := store_moved (d := d) (b := b) h.kept hw (outside_of_unheld hu)
  exact ⟨g,he,hu,hdisk,hstore,hm⟩

/-! ## Whole runs -/

def Writes (L : Layout) (d : Disk) (dirs : List ℕ) (m m' : Machine) (live live' : List Vas) (written : Option ℕ) :
    Op → Prop
  | .space _ => written = none
  | .user _ _ => ∃ f r, written = some f ∧ Ownership.Holds m.mem dirs r f
  | .kernel a b => ∃ g, written = some g ∧ (windowBase ≤ a.toNat ∧ OwnPage d m live (pageOf a)) ∧
    m.mem L.kheapPageTables (pageOf a) = entry g 3 ∧ Unheld L m.mem dirs m.phys g ∧
      (∀ j, j < d.count → g ≠ d.frame+j) ∧ m' = m.withMem (setFrame m.mem g (storedRow m g a b)) ∧ live' = live

theorem moved_of_ok {α : Type} {x : Except Stop α} {next : α → Machine} {after : α → List Vas} {t : State}
    (h : ∃ r, x = .ok r ∧ Moved L d none dirs m (next r) live (after r))
    (ht : returned (fun r => .running (next r) (after r)) x = some t) :
    ∃ m' live', t = .running m' live' ∧ Moved L d none dirs m m' live live' := by
  obtain ⟨r,hr,hm⟩ := h
  rw [hr, returned, Option.some.injEq] at ht
  exact ⟨_,_,ht.symm,hm⟩

theorem space_cases {op : AddressSpaces.Op} {t : State} (h : Kept L dirs ranges m live)
    (hg : Lasts L (.running m live) (.space op)) (hs : AddressSpaces.step L (.running m live) op = some t) :
    ∃ m' live', t = .running m' live' ∧ Moved L d none dirs m m' live live' := by
  cases op with
  | heap n =>
    rw [AddressSpaces.step] at hs
    split at hs
    · cases hs
    · rename_i hn
      exact moved_of_ok (heap_moved h hn hg) hs
  | alloc record => exact moved_of_ok (alloc_moved h hg) hs
  | switch vmm =>
    rw [AddressSpaces.step] at hs
    split at hs
    · rename_i hv
      cases hs
      exact ⟨_,_,rfl,switch_moved h hv⟩
    · cases hs
  | mmap v n => exact moved_of_ok (mmap_moved h hg) hs
  | free vmm =>
    rw [AddressSpaces.step] at hs
    split at hs
    · rename_i hv
      exact moved_of_ok (free_moved h hv.1 hv.2) hs
    · cases hs

/-- What a step can do. -/
theorem step_cases {op : Op} {t : State} (h : Carried L d words dirs ranges m live)
    (hg : Lasts L (.running m live) op) (hs : step L d (.running m live) op = some t) :
    ∃ m' live' written, t = .running m' live' ∧ Moved L d written dirs m m' live live' ∧
      Writes L d dirs m m' live live' written op := by
  cases op with
  | space op =>
    obtain ⟨m',live',ht,hm⟩ := space_cases (d := d) h.kept hg hs
    exact ⟨m',live',none,ht,hm,rfl⟩
  | user a b =>
    rw [step] at hs
    split at hs
    · rename_i hok
      rcases user_moved (d := d) (b := b) h.kept hok.1 hok.2 with hfault | ⟨m',f,r,hstore,hm,hf⟩
      · rw [hfault] at hs
        cases hs
      · rw [hstore] at hs
        cases hs
        exact ⟨m',live,some f,rfl,hm,f,r,rfl,hf⟩
    · cases hs
  | kernel a b =>
    rw [step] at hs
    split at hs
    · rename_i hok
      obtain ⟨g,he,hu,hdisk,hstore,hm⟩ := kernel_moved (b := b) h hok.1 hok.2
      rw [hstore] at hs
      cases hs
      exact ⟨_,live,some g,rfl,hm,g,rfl,hok,he,hu,hdisk,rfl,rfl⟩
    · cases hs

theorem step_inv (s : State) (op : Op) (t : State) (hi : Inv L d words s) (hg : Lasts L s op)
    (hs : step L d s op = some t) : Inv L d words t := by
  cases s with
  | undefined => exact hi.elim
  | running m live =>
    obtain ⟨dirs,ranges,h⟩ := hi
    obtain ⟨m',live',written,rfl,hm,hw⟩ := step_cases h hg hs
    refine inv_of_moved h hm fun j hj he => ?_
    cases op with
    | space op =>
      rw [show written = none from hw] at he
      cases he
    | user a b =>
      obtain ⟨f,r,rfl,hf⟩ := hw
      rw [Option.some.injEq] at he
      exact (h.frames j hj).free r (he ▸ hf)
    | kernel a b =>
      obtain ⟨g,rfl,-,-,-,hdisk,-⟩ := hw
      rw [Option.some.injEq] at he
      exact hdisk j hj he

theorem intact_of_inv (s : State) (h : Inv L d words s) : Intact L d words s := by
  cases s with
  | undefined => exact h
  | running m live =>
    obtain ⟨dirs,ranges,hc⟩ := h
    exact intact_of_carried hc

end

/-! ## The kernel comes up -/

/-- The pages of the module become unavailable, and no page becomes available. -/
structure Registers (registerRamdisk : RegisterRamdisk) (first last : Word) : Prop where
  success : ∀ s, (registerRamdisk first last s).1 = .success
  taken : ∀ s q, first.toNat ≤ 4096*q → 4096*q+4096 ≤ last.toNat →
    bit (registerRamdisk first last s).2.bitmap q = false
  keeps : ∀ s q, bit s.bitmap q = false → bit (registerRamdisk first last s).2.bitmap q = false
  flag : ∀ s, (registerRamdisk first last s).2.noPageAvailable = s.noPageAvailable

/-- The boot loader left the module at a page behind the kernel. -/
structure ModuleAt (L : Layout) (info : MultibootInfo) : Prop where
  aligned : info.mods.modStart.toNat%4096 = 0
  behind : L.kernelEnd.toNat ≤ info.mods.modStart.toNat
  ordered : info.mods.modStart.toNat ≤ info.mods.modEnd.toNat

/-- The mount point has a frame, which is not one of the module's. -/
structure Spared (L : Layout) (phys : PhysicalMem) (info : MultibootInfo) : Prop extends ModuleAt L info where
  available : (allocatePhysicalPage L.toKernelImage phys).1 ≠ null
  apart : ¬ (info.mods.modStart.toNat ≤ (allocatePhysicalPage L.toKernelImage phys).1.toNat ∧
    (allocatePhysicalPage L.toKernelImage phys).1.toNat < info.mods.modEnd.toNat)

def diskOf (info : MultibootInfo) : Disk := ⟨3, info.mods.modStart.toNat/4096, (imagePages info).toNat⟩

section
variable {L : Layout} {ram : Frames} {phys : PhysicalMem} {info : MultibootInfo}

theorem diskOf_bounds (h : ModuleAt L info) {j : ℕ} (hj : j < (diskOf info).count) :
    L.kernelEnd.toNat ≤ 4096*((diskOf info).frame+j) ∧
      4096*((diskOf info).frame+j)+4096 ≤ info.mods.modEnd.toNat ∧
      info.mods.modStart.toNat ≤ 4096*((diskOf info).frame+j) := by
  have hpages : (imagePages info).toNat = (info.mods.modEnd.toNat-info.mods.modStart.toNat)/4096 := by
    rw [imagePages, InitrdImage.mappedPages, pageSize_eq, BitVec.toNat_udiv, BitVec.toNat_sub_of_le h.ordered,
      show (4096#32).toNat = 4096 from rfl]
  have hal := h.aligned
  have hb := h.behind
  change j < (imagePages info).toNat at hj
  change L.kernelEnd.toNat ≤ 4096*(info.mods.modStart.toNat/4096+j) ∧
    4096*(info.mods.modStart.toNat/4096+j)+4096 ≤ info.mods.modEnd.toNat ∧
    info.mods.modStart.toNat ≤ 4096*(info.mods.modStart.toNat/4096+j)
  omega

theorem module_entry (h : ModuleAt L info) {j : ℕ} (hj : j < (diskOf info).count) :
    editEntryAttributes (info.mods.modStart+BitVec.ofNat 32 j*pageSize) (readWrite ||| present) =
      entry ((diskOf info).frame+j) 3 := by
  obtain ⟨-,hend,hstart⟩ := diskOf_bounds h hj
  have hal := h.aligned
  have hlt := info.mods.modEnd.isLt
  have hadr : info.mods.modStart+BitVec.ofNat 32 j*pageSize = frameAddress ((diskOf info).frame+j) := by
    change 4096*(info.mods.modStart.toNat/4096+j)+4096 ≤ _ at hend
    change _ = frameAddress (info.mods.modStart.toNat/4096+j)
    rw [pageSize_eq, frameAddress]
    apply BitVec.eq_of_toNat_eq
    simp only [BitVec.toNat_add, BitVec.toNat_mul, BitVec.toNat_ofNat]
    omega
  rw [hadr, show readWrite ||| present = BitVec.ofNat 32 3 by decide, frameAddress_or (by omega) (by omega)]

/-- Only the directory of the kernel is there, and it refers to no user table. -/
theorem unheld_boot {mem : Frames} {s : PhysicalMem} (hdir : mem L.initPageDirectory = bootDirectory L) {g : ℕ}
    (hlt : g < 2^20) (h0 : g ≠ 0) (htaken : bit s.bitmap g = false)
    (hstatic : g ∉ [L.kernelPageTables, L.kernelPageTables+1, L.kheapPageTables, L.initPageDirectory]) :
    Unheld L mem [L.initPageDirectory] s g := by
  obtain ⟨m₀,-,hm₀⟩ := start_ok L (fun _ _ => 0#32) PhysicalMem.boot
  have hnone : ∀ i t, ¬ TableAt mem L.initPageDirectory i t := fun i t ht => by
    rw [TableAt, hdir, ← hm₀.directory] at ht
    exact AddressSpaces.boot_no_table hm₀ i t ht
  refine ⟨hlt,h0,htaken,fun hr => hstatic (AddressSpaces.reserved_static hr),fun r hr => ?_⟩
  cases r with
  | directory D =>
    obtain rfl := List.mem_singleton.mp hr.1
    exact hstatic (by rw [hr.2]; simp)
  | table D i =>
    obtain rfl := List.mem_singleton.mp hr.1
    exact hnone i g hr.2
  | page D i j =>
    obtain ⟨hD,t,ht,-⟩ := hr
    obtain rfl := List.mem_singleton.mp hD
    exact hnone i t ht

theorem kept_withPhys {dirs : List ℕ} {ranges : List Range} {m : Machine} {live : List Vas}
    (h : Kept L dirs ranges m live) {s : PhysicalMem}
    (hkeep : ∀ q, bit m.phys.bitmap q = false → bit s.bitmap q = false)
    (hflag : s.noPageAvailable = m.phys.noPageAvailable) : Kept L dirs ranges (m.withPhys s) live := by
  refine ⟨⟨owned_phys h.running.owned hkeep,fun hf q hq hlt => ?_,h.running.current⟩,h.pages,fun vmm hv => ?_,
    h.distinct,h.apart⟩
  · rw [withPhys_phys, hflag] at hf
    exact hkeep q (h.running.flag hf q hq hlt)
  · obtain ⟨D,p,hk⟩ := h.known vmm hv
    exact ⟨D,p,hk.member,hk.physical,hk.page,hk.address,hk.entry,hk.range⟩

/-- Frames below the image and frames of the module are no tables of the kernel. -/
theorem not_static {g : ℕ} (hg : g < 256 ∨ L.kernelEnd.toNat ≤ 4096*g) :
    g ∉ [L.kernelPageTables, L.kernelPageTables+1, L.kheapPageTables, L.initPageDirectory] := fun hmem => by
  obtain ⟨hlo,hhi⟩ := L.placed g hmem
  omega

/-- The module is mapped with the frames of the heap's other pages apart from it. -/
theorem carried_of_mounting (hspared : Spared L phys info) {f : ℕ} {m : Machine} (h : Mounting L ram phys f m)
    (hstatic : ∀ f ∈ [L.kernelPageTables, L.kernelPageTables+1, L.kheapPageTables, L.initPageDirectory],
      bit phys.bitmap f = false)
    (hlow : ∀ q, q < 0xff → bit phys.bitmap q = false) {s : PhysicalMem}
    (htaken : ∀ q, info.mods.modStart.toNat ≤ 4096*q → 4096*q+4096 ≤ info.mods.modEnd.toNat →
      bit s.bitmap q = false)
    (hkeep : ∀ q, bit m.phys.bitmap q = false → bit s.bitmap q = false)
    (hflag : s.noPageAvailable = m.phys.noPageAvailable) (hn : MapsFrom 3 (imagePages info).toNat) :
    ∃ m' ranges, onHeap (mapPhysicalAddressToKheap info.mods.modStart (imagePages info)) (m.withPhys s) =
        .ok (foundAddress 0 3, m') ∧
      Carried L (diskOf info) ram [L.initPageDirectory] ranges m' [] ∧
      FreeFrom m'.heapBitmap (3+(imagePages info).toNat) := by
  obtain ⟨h0,hsuit⟩ := ramdisk_suitable h hn
  obtain ⟨m',hcall,hkept,hphys,htook⟩ := map_kept (kept_withPhys h.kept hkeep hflag) h0 hsuit info.mods.modStart
  have hgrant : Granted phys m.phys f := by
    rcases granted_or_zero h.lt h.allocated with hg | ⟨rfl,-,-⟩
    · exact hg
    · exact absurd (by rw [h.allocated]; rfl) hspared.available
  have hfstatic := allocated_not_static hstatic h.lt h.allocated
  have hfree : ∀ q, bit phys.bitmap q = false → bit m'.phys.bitmap q = false := fun q hq => by
    rw [hphys]
    exact hkeep q (granted_keeps hgrant hq)
  have hHD := (static_ne L).2.2.2.2
  have hdir : m'.mem L.initPageDirectory = bootDirectory L := (htook.rows _ (Ne.symm hHD)).trans h.directory
  have hdisk : ∀ j, j < (diskOf info).count → f ≠ (diskOf info).frame+j := fun j hj he => by
    obtain ⟨-,hend,hstart⟩ := diskOf_bounds hspared.toModuleAt hj
    refine hspared.apart ?_
    rw [h.allocated, toNat_frameAddress h.lt, he]
    omega
  have hbit : FreeFrom m'.heapBitmap (3+(imagePages info).toNat) := by
    rw [htook.heapBitmap]
    have := hn.2.2
    exact freeFrom_taken h.free (by omega)
  have htable : ∀ q, q < 3 → m'.mem L.kheapPageTables q = m.mem L.kheapPageTables q := fun q hq => by
    rw [htook.table, if_neg (by omega)]
    rfl
  have howned : ∀ p, OwnPage (diskOf info) m' [] p → p < 3 := by
    rintro p ⟨hp1,hp2,-,hout⟩
    rw [hbit, decide_eq_false_iff_not] at hp2
    change ¬ (3 ≤ p ∧ p < 3+(imagePages info).toNat) at hout
    omega
  have hhigh : 0xff ≤ f := by
    by_contra hlt
    have hav := hgrant.2.1
    rw [hlow f (by omega)] at hav
    cases hav
  -- the frame in the entry of each of the three pages
  have hscreen : ∀ p, p < 3 → m'.mem L.kheapPageTables p = entry (if p = 2 then f else 0xb8+p) 3 := fun p hp => by
    rw [htable p hp]
    split
    · rename_i h2
      rw [h2]
      exact h.mountPage
    · exact h.screen p (by omega)
  refine ⟨m',_,hcall,⟨hkept,fun j hj => ?_,fun j hj => ?_,fun j hj => ?_,fun j hj => ?_,fun p hp => ?_,
    fun p q hp hq he => ?_⟩,hbit⟩
  · obtain ⟨hlo,hend,hstart⟩ := diskOf_bounds hspared.toModuleAt hj
    have hlt := info.mods.modEnd.isLt
    have habove := L.above
    refine unheld_boot hdir (by omega) (by omega) ?_ (not_static (Or.inr hlo))
    rw [hphys]
    exact htaken _ hstart hend
  · obtain ⟨hlo,-,-⟩ := diskOf_bounds hspared.toModuleAt hj
    have hns := not_static (Or.inr hlo)
    rw [htook.rows _ (fun he => hns (by rw [he]; simp))]
    exact h.rows _ hns (Ne.symm (hdisk j hj))
  · have hj' : j < (imagePages info).toNat := hj
    rw [htook.table, if_pos ⟨by change 8*0+3 ≤ 3+j; omega,by change 3+j < _; omega⟩,
      show (diskOf info).page+j-(8*0+3) = j by change 3+j-3 = j; omega, module_entry hspared.toModuleAt hj]
  · have hj' : j < (imagePages info).toNat := hj
    have hle := hn.2.2
    refine ⟨by change 3+j < 1024; omega,?_,by simp⟩
    rw [hbit, decide_eq_false]
    change ¬ (_ ≤ 3+j ∧ _)
    omega
  · have hp3 := howned p hp
    refine ⟨_,hscreen p hp3,?_⟩
    split
    · refine ⟨unheld_boot hdir h.lt (by omega) ?_ hfstatic,hdisk⟩
      rw [hphys]
      exact hkeep f (granted_taken hgrant)
    · refine ⟨unheld_boot hdir (by omega) (by omega) (hfree _ (hlow _ (by omega)))
        (not_static (Or.inl (by omega))),fun j hj he => ?_⟩
      obtain ⟨hlo,-,-⟩ := diskOf_bounds hspared.toModuleAt hj
      have habove := L.above
      omega
  · have hp3 := howned p hp
    have hq3 := howned q hq
    have hlt := h.lt
    rw [hscreen p hp3, hscreen q hq3] at he
    have := entry_inj (by split <;> omega) (by split <;> omega) (by omega) he
    split at this <;> split at this <;> omega

theorem carried_of_kmain {map : Ram} {mapAddr mapLength : Word} {fuel : ℕ} {stores : List (Fin 4096 × Byte)}
    {initialized : Bool} {registerRamdisk : RegisterRamdisk} {fs : InitrdImage.FileSystem} {m : Machine}
    (hinit : phyMemoryManagerInit L.toKernelImage map mapAddr mapLength fuel = .ok phys)
    (hreg : Registers registerRamdisk info.mods.modStart info.mods.modEnd) (hspared : Spared L phys info)
    (hmain : kmain L ram phys stores initialized registerRamdisk info = .ok (fs, m)) :
    fs = ramdisk info ∧ FreeFrom m.heapBitmap (3+(imagePages info).toNat) ∧
      ∃ ranges, Carried L (diskOf info) ram [L.initPageDirectory] ranges m [] := by
  obtain ⟨hfs,hn,f,m₀,hm₀,hheap⟩ := kmain_ok hinit hreg.success hmain
  obtain ⟨m',ranges,hheap',hcarried,hfree⟩ := carried_of_mounting hspared hm₀
    (fun g hg => AddressSpaces.static_taken hinit hg) (fun q hq => init_unavailable hinit (Or.inl hq))
    (hreg.taken m₀.phys) (hreg.keeps m₀.phys) (hreg.flag m₀.phys) hn
  rw [hheap, Except.ok.injEq, Prod.mk.injEq] at hheap'
  obtain rfl := hheap'.2
  exact ⟨hfs,hfree,ranges,hcarried⟩

end

def oneStore : List (Fin 4096 × Byte) := [(⟨0, by omega⟩, 7#8)]

def onePage : MultibootInfo := ⟨1#32, ⟨0x240000#32, 0x241000#32⟩⟩

theorem registerRange_bit (s : PhysicalMem) (q : ℕ) :
    bit (registerRange onePage.mods.modStart onePage.mods.modEnd s).2.bitmap q =
      if 576 ≤ q ∧ q < 577 then false else bit s.bitmap q := by
  change bit (changePagesState 0x240000#32 0x241000#32 .unavailable s).2.bitmap q = _
  rw [changePagesState_eq _ _ _ _ (by decide) (by decide) (by decide), bit_put_range]
  rfl

theorem registerRange_registers : Registers registerRange onePage.mods.modStart onePage.mods.modEnd := by
  refine ⟨fun _ => rfl,fun s q hlo hhi => ?_,fun s q hq => ?_,fun s => changePagesState_flag _ _ _ s⟩
  · have h1 : 0x240000 ≤ 4096*q := hlo
    have h2 : 4096*q+4096 ≤ 0x241000 := hhi
    rw [registerRange_bit, if_pos (by omega)]
  · rw [registerRange_bit, hq, ite_self]

theorem onePage_spared {phys : PhysicalMem} {n : ℕ} (hn : 0 < n) (hle : 512+n ≤ 2^20)
    (hbits : ∀ p, bit phys.bitmap p = decide (512 ≤ p ∧ p < 512+n)) (hflag : phys.noPageAvailable = false) :
    Spared smallLayout phys onePage := by
  obtain ⟨phys',ha⟩ := AddressSpaces.first_frame hn hle hbits hflag
  have hadr : (allocatePhysicalPage smallLayout.toKernelImage phys).1 = frameAddress 512 := by
    change (allocatePhysicalPage smallImage phys).1 = _
    rw [ha]
  refine ⟨⟨by decide,by decide,by decide⟩,?_,?_⟩ <;> rw [hadr] <;> decide

theorem onePage_mapped (ram : Frames) {phys : PhysicalMem} {map : Ram} {mapAddr mapLength : Word} {fuel : ℕ}
    (hinit : phyMemoryManagerInit smallLayout.toKernelImage map mapAddr mapLength fuel = .ok phys) :
    ∃ f m₀ m, Mounting smallLayout ram phys f m₀ ∧
      kmain smallLayout ram phys oneStore true registerRange onePage = .ok (⟨0xC0803000#32, 0xC0804000#32⟩, m) ∧
      FreeFrom m.heapBitmap 4 ∧ m.phys = (registerRange onePage.mods.modStart onePage.mods.modEnd m₀.phys).2 := by
  have hpages : (imagePages onePage).toNat = 1 := by decide
  obtain ⟨f,m₀,hm₀,hcall⟩ : ∃ f m, Mounting smallLayout ram phys f m ∧
      kmain smallLayout ram phys oneStore true registerRange onePage =
        makeInitrdFs registerRange onePage m :=
    mounting ram (fun f hf => AddressSpaces.static_taken hinit hf) (reserved_flag hinit) _ true _ _
  have hn : MapsFrom 3 (imagePages onePage).toNat := by rw [hpages]; decide
  obtain ⟨h0,hsuit⟩ := ramdisk_suitable hm₀ hn
  obtain ⟨m,hheap,-,hphys,htook⟩ := map_kept (kept_withPhys hm₀.kept (registerRange_registers.keeps m₀.phys)
    (registerRange_registers.flag m₀.phys)) h0 hsuit onePage.mods.modStart
  have hfree := freeFrom_taken hm₀.free (n := imagePages onePage) (by rw [hpages]; omega)
  rw [hpages] at hfree
  refine ⟨f,m₀,m,hm₀,?_,by rw [htook.heapBitmap]; exact hfree,hphys⟩
  rw [hcall, makeInitrdFs_maps rfl rfl hheap, ramdisk,
    show ramdiskAddress+imagePages onePage*pageSize = 0xC0804000#32 by decide]
  rfl

/-- Registering the page of the module changes no count, where the page is taken already. -/
theorem registerRange_left {s : PhysicalMem} (h : bit s.bitmap 576 = false) :
    left smallLayout.toKernelImage (registerRange onePage.mods.modStart onePage.mods.modEnd s).2 =
      left smallLayout.toKernelImage s := by
  rw [left, left]
  refine congrArg _ (Finset.filter_congr fun q _ => ?_)
  rw [registerRange_bit]
  by_cases hq : 576 ≤ q ∧ q < 577
  · obtain rfl : q = 576 := by omega
    rw [if_pos hq, h]
  · rw [if_neg hq]

theorem onePage_started (ram : Frames) {phys : PhysicalMem} {map : Ram} {mapAddr mapLength : Word} {fuel n : ℕ}
    (hinit : phyMemoryManagerInit smallLayout.toKernelImage map mapAddr mapLength fuel = .ok phys) (hn : 0 < n)
    (hle : n ≤ 64) (hbits : ∀ p, bit phys.bitmap p = decide (512 ≤ p ∧ p < 512+n)) :
    Spared smallLayout phys onePage ∧ ∃ m,
      kmain smallLayout ram phys oneStore true registerRange onePage = .ok (⟨0xC0803000#32, 0xC0804000#32⟩, m) ∧
      FreeFrom m.heapBitmap 4 ∧ left smallLayout.toKernelImage m.phys+1 = n := by
  obtain ⟨f,m₀,m,hm₀,hmain,hfree,hphys⟩ := onePage_mapped ram hinit
  have hcount : left smallLayout.toKernelImage phys = n := AddressSpaces.region_left (by omega) hbits
  obtain ⟨hgrant,-,hleft⟩ := granted_of_left hm₀.lt (reserved_flag hinit) (by omega) hm₀.allocated
  have hmodule : bit m₀.phys.bitmap 576 = false :=
    granted_keeps hgrant (by rw [hbits]; exact decide_eq_false (by omega))
  refine ⟨onePage_spared hn (by omega) hbits (init_reserved hinit).2,m,hmain,hfree,?_⟩
  rw [hphys, registerRange_left hmodule, hleft, hcount]

/-! ## The mount point inside the module -/

def mountPointAddress : Word := 0xC0802000#32

theorem walk_heap {L : Layout} {m : Machine} {D p f : ℕ} (h : HeapMapped m D L.kheapPageTables) (hp : p < 1024)
    (hf : f < 2^20) (he : m.mem L.kheapPageTables p = entry f 3) :
    walk m (BitVec.ofNat 32 (windowBase+4096*p)) = .ok f := by
  have hpage : HeapPage m D L.kheapPageTables p f (BitVec.ofNat 32 (windowBase+4096*p)) :=
    ⟨h,hp,by rw [BitVec.toNat_ofNat, Nat.mod_eq_of_lt (by unfold windowBase; omega)],hf,he⟩
  exact (heapPage_walk hpage (i := 0) (by omega) (by simp)).1

/-- A page of the ramdisk is the page of the mount point exactly when the frame
that was handed out first lies in the part of the module that is mapped. -/
theorem mount_point_in_ramdisk_iff (L : Layout) (ram : Frames) (map : Ram) (mapAddr mapLength : Word) (fuel : ℕ)
    (phys : PhysicalMem) (stores : List (Fin 4096 × Byte)) (initialized : Bool) (registerRamdisk : RegisterRamdisk)
    (info : MultibootInfo) (fs : InitrdImage.FileSystem) (m : Machine)
    (hinit : phyMemoryManagerInit L.toKernelImage map mapAddr mapLength fuel = .ok phys)
    (hreg : Registers registerRamdisk info.mods.modStart info.mods.modEnd) (hmod : ModuleAt L info)
    (hmain : kmain L ram phys stores initialized registerRamdisk info = .ok (fs, m)) :
    (∃ j, j < (imagePages info).toNat ∧
      walk m (ramdiskAddress+BitVec.ofNat 32 (4096*j)) = walk m mountPointAddress) ↔
    info.mods.modStart.toNat ≤ (allocatePhysicalPage L.toKernelImage phys).1.toNat ∧
      (allocatePhysicalPage L.toKernelImage phys).1.toNat <
        info.mods.modStart.toNat+4096*(imagePages info).toNat := by
  obtain ⟨-,hn,f,m₀,hm₀,hheap⟩ := kmain_ok hinit hreg.success hmain
  obtain ⟨h0,hsuit⟩ := ramdisk_suitable hm₀ hn
  obtain ⟨m',hcall,hkept,-,htook⟩ := map_kept (kept_withPhys hm₀.kept (hreg.keeps m₀.phys) (hreg.flag m₀.phys)) h0 hsuit
    info.mods.modStart
  rw [hheap, Except.ok.injEq, Prod.mk.injEq] at hcall
  obtain rfl := hcall.2
  have hmap := heapMapped_of_running hkept.running
  have hle := hn.2.2
  have hmount : walk m mountPointAddress = .ok f := by
    have he : m.mem L.kheapPageTables 2 = entry f 3 := by
      rw [htook.table, if_neg (by omega)]
      exact hm₀.mountPage
    rw [show mountPointAddress = BitVec.ofNat 32 (windowBase+4096*2) by decide]
    exact walk_heap hmap (by omega) hm₀.lt he
  have hpage : ∀ j, j < (imagePages info).toNat → (diskOf info).frame+j < 2^20 ∧
      walk m (ramdiskAddress+BitVec.ofNat 32 (4096*j)) = .ok ((diskOf info).frame+j) := fun j hj => by
    obtain ⟨-,hend,-⟩ := diskOf_bounds hmod (j := j) hj
    have hlt := info.mods.modEnd.isLt
    have hentry : m.mem L.kheapPageTables (3+j) = entry ((diskOf info).frame+j) 3 := by
      rw [htook.table, if_pos (by omega), show 3+j-(8*0+3) = j by omega, module_entry hmod (j := j) hj]
    have hw := walk_heap hmap (p := 3+j) (by omega) (show (diskOf info).frame+j < 2^20 by omega) hentry
    refine ⟨by omega,?_⟩
    rwa [ramdiskAddress, ← BitVec.ofNat_add, show 0xC0803000+4096*j = windowBase+4096*(3+j) by
      unfold windowBase
      omega]
  have hal := hmod.aligned
  have hframe : (diskOf info).frame = info.mods.modStart.toNat/4096 := rfl
  rw [hm₀.allocated, toNat_frameAddress hm₀.lt, hmount]
  constructor
  · rintro ⟨j,hj,hw⟩
    rw [(hpage j hj).2, Except.ok.injEq] at hw
    omega
  · rintro ⟨hlo,hhi⟩
    refine ⟨f-(diskOf info).frame,by omega,?_⟩
    rw [(hpage _ (by omega)).2, Except.ok.injEq]
    omega

/-- The frame of the mount point and the module's are apart here. -/
theorem one_page_apart : ∃ phys m,
    kmain smallLayout (fun _ _ => 0#32) phys oneStore true registerRange onePage =
      .ok (⟨0xC0803000#32, 0xC0804000#32⟩, m) ∧
    ¬ ∃ j, j < (imagePages onePage).toNat ∧
      walk m (ramdiskAddress+BitVec.ofNat 32 (4096*j)) = walk m mountPointAddress := by
  obtain ⟨phys,hinit,hbits⟩ := AddressSpaces.region_init 0x80#8 0x8000#32 (by decide) (by decide) (by decide)
  obtain ⟨hspared,m,hmain,-,-⟩ := onePage_started (n := 8) (fun _ _ => 0#32) hinit (by omega) (by omega) hbits
  refine ⟨phys,m,hmain,fun h => hspared.apart ?_⟩
  have hin := (mount_point_in_ramdisk_iff smallLayout _ _ _ _ _ phys _ true registerRange onePage _ m hinit
    registerRange_registers hspared.toModuleAt hmain).mp h
  rw [show (imagePages onePage).toNat = 1 by decide] at hin
  exact hin

end MikeOS.Ramdisk
