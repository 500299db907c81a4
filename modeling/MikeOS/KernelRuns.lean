import MikeOS.Ramdisk
import MikeOS.SpaceRuns

/-!
# Runs of the kernel after it came up

A run makes, fills and tears down address spaces through their records, which
`kmalloc` gives out behind the mount point. Other code takes pages of the heap,
user code stores below the kernel, and the kernel stores in the pages it took
itself. A step is a run on address spaces, of which it keeps every invariant.
-/

set_option autoImplicit false

namespace MikeOS.KernelRuns
open LinkedList BitArray MikeOS.Memory MikeOS.Paging MikeOS.PhysicalMemory MikeOS.KernelHeap MikeOS.KernelHeapSearch
open MikeOS.KernelMalloc (Heap headerSize take unitsOf)
open MikeOS.KernelHeapRuns (windowBase Suitable)
open MikeOS.Mmu MikeOS.VirtualMemory MikeOS.Boot MikeOS.FramePool MikeOS.PageDirectory MikeOS.FrameDemand MikeOS.KernelMain
open MikeOS.Ramdisk (Disk OwnPage pageOf diskOf Registers Spared)
open MikeOS.SpaceRecords (Kernel State IsCell)
open MikeOS.SpaceRuns (view Matched Spares)
open MikeOS.Teardown (smallLayout)

inductive Op where
  | call (op : SpaceRecords.Op)
  | user (address : Word) (b : Byte)
  | kernel (address : Word) (b : Byte)
  deriving DecidableEq, Repr

/-- A page that `kmalloc` got, whose cells are headers and blocks. -/
def OnCells (h : Heap) (a : Word) : Prop :=
  ∃ r ∈ h.requests, r.address.toNat ≤ a.toNat ∧ a.toNat < r.address.toNat+4096*r.numPages.toNat

instance (h : Heap) (a : Word) : Decidable (OnCells h a) := inferInstanceAs (Decidable (∃ r ∈ h.requests, _))

def stored (k : Kernel) (live : List Word) (a : Word) (b : Byte) : Option State :=
  match storeByte a b k.machine with
  | .ok m => some (.running { k with machine := m } live)
  | .error .undefined => some .undefined
  | .error .pageFault => none

/-- User code runs outside the directory of the kernel and stores below the
kernel; the kernel stores in its own pages of the heap. -/
def step (L : Layout) (d : Disk) (fuel : ℕ) : State → Op → Option State
  | s, .call op => SpaceRecords.step L fuel s op
  | .running k live, .user a b =>
    if a.toNat < 0xC0000000 ∧ frameOf k.machine.cr3 ≠ L.initPageDirectory then stored k live a b else none
  | .running k live, .kernel a b =>
    if (windowBase ≤ a.toNat ∧ OwnPage d k.machine (live.map k.record) (pageOf a)) ∧ ¬ OnCells k.heap a then
      stored k live a b
    else none
  | .undefined, _ => none

def Lasts (L : Layout) : State → Op → Prop
  | s, .call op => SpaceRuns.Intact L s op
  | _, _ => True

/-! ## What a step keeps -/

section
variable {L : Layout} {d : Disk} {fuel : ℕ} {s t : State}

/-- What every call keeps on address spaces. -/
theorem matched_keeps {J : AddressSpaces.State → Prop}
    (hstep : ∀ s op t, J s → AddressSpaces.Spare L s op → AddressSpaces.step L s op = some t → J t)
    (hm : Matched L s t) (hs : J (view s)) : J (view t) := by
  obtain ⟨ops,hrun,hguard⟩ := hm.run
  exact Transition.always_run _ (Transition.always_of_guarded (fun _ h => h) hstep hs hguard) hrun

theorem stored_ok {k : Kernel} {live : List Word} {a : Word} {b : Byte} {m : Machine}
    (h : storeByte a b k.machine = .ok m) : stored k live a b = some (.running { k with machine := m } live) := by
  rw [stored, h]

/-- A store is the same store on address spaces. -/
theorem stored_view {k : Kernel} {live : List Word} {a : Word} {b : Byte} (ht : stored k live a b = some t) :
    AddressSpaces.returned (fun m => .running m (live.map k.record)) (storeByte a b k.machine) = some (view t) := by
  rw [stored] at ht
  cases hs : storeByte a b k.machine with
  | ok m =>
    rw [hs] at ht
    cases ht
    rfl
  | error stop =>
    cases stop <;> rw [hs] at ht <;> cases ht
    rfl

theorem storeByte_keeps {m m' : Machine} {a : Word} {b : Byte} (h : storeByte a b m = .ok m') :
    m'.heapBitmap = m.heapBitmap ∧ m'.phys = m.phys ∧ m'.cr3 = m.cr3 := by
  obtain ⟨f,-,h⟩ := bind_eq_ok h
  cases h
  exact ⟨rfl,rfl,rfl⟩

theorem stored_inv {k : Kernel} {live : List Word} {a : Word} {b : Byte} (hi : SpaceRuns.Inv L (.running k live))
    (ht : stored k live a b = some t) (hspaces : AddressSpaces.Inv L (view t)) : SpaceRuns.Inv L t := by
  rw [stored] at ht
  cases hs : storeByte a b k.machine with
  | ok m =>
    rw [hs] at ht
    cases ht
    have hbitmap := (storeByte_keeps hs).1
    refine ⟨hi.cells,?_,hi.apart,hspaces⟩
    change ∀ r ∈ k.heap.requests, ∃ p, p < 1024 ∧ _ ∧ bit m.heapBitmap p = false
    rw [hbitmap]
    exact hi.taken
  | error stop =>
    cases stop <;> rw [hs] at ht <;> cases ht
    exact hspaces.elim

structure Inv (L : Layout) (d : Disk) (words : Frames) (s : State) : Prop where
  spaces : SpaceRuns.Inv L s
  disk : Ramdisk.Inv L d words (view s)

theorem spaces_of_disk {words : Frames} {s : AddressSpaces.State} (h : Ramdisk.Inv L d words s) :
    AddressSpaces.Inv L s := by
  cases s with
  | undefined => exact h
  | running m live =>
    obtain ⟨dirs,ranges,hc⟩ := h
    exact ⟨dirs,ranges,hc.kept⟩

theorem step_inv {words : Frames} (s : State) (op : Op) (t : State) (hi : Inv L d words s) (hg : Lasts L s op)
    (ht : step L d fuel s op = some t) : Inv L d words t := by
  cases s with
  | undefined => exact hi.spaces.elim
  | running k live =>
    cases op with
    | call op =>
      have hm := SpaceRuns.step_matched hi.spaces hg ht
      exact ⟨hm.inv,matched_keeps (fun s op t h hs ht => Ramdisk.step_inv s (.space op) t h hs ht) hm hi.disk⟩
    | user a b =>
      rw [step] at ht
      split at ht
      · rename_i hok
        have hdisk : Ramdisk.Inv L d words (view t) := by
          refine Ramdisk.step_inv (view (.running k live)) (.user a b) _ hi.disk trivial ?_
          rw [view, Ramdisk.step, if_pos hok]
          exact stored_view ht
        exact ⟨stored_inv hi.spaces ht (spaces_of_disk hdisk),hdisk⟩
      · cases ht
    | kernel a b =>
      rw [step] at ht
      split at ht
      · rename_i hok
        have hdisk : Ramdisk.Inv L d words (view t) := by
          refine Ramdisk.step_inv (view (.running k live)) (.kernel a b) _ hi.disk trivial ?_
          rw [view, Ramdisk.step, if_pos hok.1]
          exact stored_view ht
        exact ⟨stored_inv hi.spaces ht (spaces_of_disk hdisk),hdisk⟩
      · cases ht

end

/-! ## The start -/

/-- The cells behind the mount point, whose block `kmalloc` cut off the page. -/
def mountCells : Heap := (take 39#32 none (SpaceRuns.bootPage 0xC0802000#32)).2

theorem mount_kmalloc {L : Layout} {m m' : Machine}
    (hpage : onHeap (allocKheapPages L.toKernelImage 1#32) m = .ok (0xC0802000#32, m')) (fuel : ℕ) :
    SpaceRecords.kmalloc L (fuel+2) 312#32 ⟨m, Heap.boot, []⟩ = .ok (0xC0802EC0#32, ⟨m', mountCells, []⟩) := by
  have htake : SpaceRecords.takePages L 1#32 ⟨m, Heap.boot, []⟩ = .ok (0xC0802000#32, ⟨m', Heap.boot, []⟩) := by
    rw [SpaceRecords.takePages, SpaceRecords.onMachine_ok hpage, SpaceRecords.ok_bind]
    simp only
    rw [SpaceRecords.undefinedUnless_of (Or.inr (by simp [SpaceRecords.Reached])), SpaceRecords.ok_bind]
    rfl
  rw [SpaceRuns.boot_kmalloc htake (by decide) (by decide) (by decide) (by decide) (by decide),
    show (take (unitsOf 312#32) none (SpaceRuns.bootPage 0xC0802000#32)).1 = 0xC0802EC0#32 by decide]
  rfl

theorem mountCells_intact : SpaceRecords.Cells mountCells [] [0xC0802000#32] null := by
  have hcell : IsCell mountCells 0xC0802000#32 :=
    ⟨by decide,⟨1#32, 0xC0802000#32⟩,List.mem_cons_self,by decide,by decide,by decide⟩
  have hrequests : mountCells.requests = [⟨1#32, 0xC0802000#32⟩] := by decide
  have hsize : mountCells.blockSize 0xC0802000#32 = 472#32 := by decide
  refine ⟨?_,?_,by simp,List.nodup_nil,⟨by decide,by decide,show mountCells.links.next 0xC0802000#32 = null by decide⟩,
    List.nodup_singleton _,Or.inl rfl,List.forall_mem_singleton.mpr ⟨by simp,hcell,Or.inl (by decide)⟩⟩
  · rw [hrequests]
    exact List.forall_mem_singleton.mpr ⟨by decide,rfl,by decide⟩
  · rw [hrequests]
    refine List.forall_mem_singleton.mpr ?_
    change mountCells.blockSize 0xC0802000#32 ≠ 1#32 ∧ (mountCells.blockSize 0xC0802000#32).toNat ≤ 511
    rw [hsize]
    decide

def booted (m : Machine) : State := .running ⟨m, mountCells, []⟩ []

def Intact (L : Layout) (d : Disk) (words : Frames) (s : State) : Prop := Ramdisk.Intact L d words (view s)

theorem intact_of_inv {L : Layout} {d : Disk} {words : Frames} (s : State) (h : Inv L d words s) : Intact L d words s :=
  Ramdisk.intact_of_inv _ h.disk

theorem inv_of_kmain {L : Layout} {ram : Frames} {map : Ram} {mapAddr mapLength : Word} {memoryFuel : ℕ}
    {phys : PhysicalMem} {stores : List (Fin 4096 × Byte)} {initialized : Bool} {registerRamdisk : RegisterRamdisk}
    {info : MultibootInfo} {fs : InitrdImage.FileSystem} {m : Machine}
    (hinit : phyMemoryManagerInit L.toKernelImage map mapAddr mapLength memoryFuel = .ok phys)
    (hreg : Registers registerRamdisk info.mods.modStart info.mods.modEnd) (hspared : Spared L phys info)
    (hmain : kmain L ram phys stores initialized registerRamdisk info = .ok (fs, m)) :
    fs = ramdisk info ∧ Inv L (diskOf info) ram (booted m) := by
  obtain ⟨hfs,hfree,ranges,hcarried⟩ := Ramdisk.carried_of_kmain hinit hreg hspared hmain
  have hrequests : mountCells.requests = [⟨1#32, 0xC0802000#32⟩] := by decide
  refine ⟨hfs,⟨⟨_,_,mountCells_intact⟩,?_,by simp,_,_,hcarried.kept⟩,_,ranges,hcarried⟩
  change ∀ r ∈ mountCells.requests, _
  rw [hrequests]
  refine List.forall_mem_singleton.mpr ⟨2,by omega,by decide,?_⟩
  change bit m.heapBitmap 2 = false
  rw [hfree, decide_eq_false (by omega)]

/-- Every address space of every state that a run reaches after `kmain` reads the
ramdisk as the boot loader left it, whatever user code and the kernel store. -/
theorem ramdisk_intact (L : Layout) (ram : Frames) (map : Ram) (mapAddr mapLength : Word) (memoryFuel fuel : ℕ)
    (phys : PhysicalMem) (stores : List (Fin 4096 × Byte)) (initialized : Bool) (registerRamdisk : RegisterRamdisk)
    (info : MultibootInfo) (fs : InitrdImage.FileSystem) (m : Machine) (ops : List Op)
    (hinit : phyMemoryManagerInit L.toKernelImage map mapAddr mapLength memoryFuel = .ok phys)
    (hreg : Registers registerRamdisk info.mods.modStart info.mods.modEnd) (hspared : Spared L phys info)
    (hmain : kmain L ram phys stores initialized registerRamdisk info = .ok (fs, m))
    (hlast : Transition.Guarded (step L (diskOf info) fuel) (Lasts L) ops (booted m)) :
    Transition.Always (step L (diskOf info) fuel) (Intact L (diskOf info) ram) ops (booted m) :=
  Transition.always_of_guarded intact_of_inv step_inv (inv_of_kmain hinit hreg hspared hmain).2 hlast

/-! ## A run that makes an address space and tears it down -/

def mountRecord : Word := 0xC0802EB8#32

def recordCells : Heap := (take 1#32 none mountCells).2

theorem mountCells_serves : SpaceRuns.Serves mountCells [] :=
  ⟨[],0xC0802000#32,show mountCells.links.head = 0xC0802000#32 by decide,by decide,by simp,by simp,
    Or.inr ⟨⟨⟨1#32, 0xC0802000#32⟩,by decide,rfl⟩,by decide⟩⟩

theorem record_kmalloc {L : Layout} (m : Machine) (fuel : ℕ) :
    SpaceRecords.kmalloc L (fuel+1) 8#32 ⟨m, mountCells, []⟩ = .ok (mountRecord, ⟨m, recordCells, []⟩) := by
  have hload : load mountCells.links none = 0xC0802000#32 := by decide
  have hfit : mountCells.blockSize 0xC0802000#32 ≥ 1#32 := by decide
  have hrecord : (take 1#32 none mountCells).1 = mountRecord := by decide
  have hcell : IsCell mountCells (mountRecord-headerSize) :=
    ⟨by decide,⟨1#32, 0xC0802000#32⟩,by decide,by decide,by decide,by decide⟩
  rw [SpaceRecords.kmalloc, show unitsOf 8#32 = 1#32 by decide]
  rw [SpaceRecords.search_round (L := L) (k := ⟨m, mountCells, []⟩) fuel hload (by decide)
    (mountCells_intact.headers _ (by simp)).2.1, if_pos hfit, hrecord, SpaceRecords.undefinedUnless_of hcell]
  rfl

/-- A page for the kernel, with a byte in it, and an address space with a page of
user code, from making it to tearing it down. -/
def sampleRun : List Op :=
  [.call (.heap 1#32), .kernel 0xC0804010#32 7#8, .call .alloc, .call (.switch mountRecord),
    .call (.mmap 0x40000000#32 1#32), .user 0x40000010#32 5#8, .call (.free mountRecord)]

section
variable {words : Frames} {m : Machine} {fuel : ℕ}

theorem sample_page (hi : Inv smallLayout (diskOf Ramdisk.onePage) words (booted m)) (hfree : FreeFrom m.heapBitmap 4)
    {n : ℕ} (hleft : left smallLayout.toKernelImage m.phys = n+1) :
    ∃ m', FreeFrom m'.heapBitmap 5 ∧ left smallLayout.toKernelImage m'.phys = n ∧
      Inv smallLayout (diskOf Ramdisk.onePage) words (booted m') ∧ ∀ fuel,
      Transition.Reaches (step smallLayout (diskOf Ramdisk.onePage) fuel) (Lasts smallLayout)
        [.call (.heap 1#32), .kernel 0xC0804010#32 7#8] (booted m) (booted m') := by
  have hs : Suitable m.heapBitmap (1#32).toNat 0 4 :=
    suitable_freeFrom hfree (by omega) (by decide) (by decide) (by decide)
  have hleft₁ : (1#32).toNat ≤ left smallLayout.toKernelImage m.phys := by
    rw [hleft, show (1#32).toNat = 1 from rfl]
    omega
  obtain ⟨m₁,htake,-,-,hbitmap,hcount⟩ := SpaceRuns.takePages_ok hi.spaces (by decide) hs (by simp) hleft₁
  have hfree₁ : FreeFrom m₁.heapBitmap 5 := by
    rw [hbitmap]
    exact freeFrom_taken hfree (by decide)
  have hheap : ∀ fuel, step smallLayout (diskOf Ramdisk.onePage) fuel (booted m) (.call (.heap 1#32)) =
      some (booted m₁) := fun fuel => by
    rw [booted, step, SpaceRecords.step, if_neg (by decide), htake]
    rfl
  have hlast : Lasts smallLayout (booted m) (.call (.heap 1#32)) := ⟨hleft₁,0,4,hs,by simp⟩
  have hi₁ := step_inv _ _ _ hi hlast (hheap 0)
  have hpage : pageOf 0xC0804010#32 = 4 := by decide
  have hown : windowBase ≤ (0xC0804010#32 : Word).toNat ∧
      OwnPage (diskOf Ramdisk.onePage) m₁ [] (pageOf 0xC0804010#32) := by
    refine ⟨by decide,by rw [hpage]; omega,?_,by simp,by rw [hpage]; decide⟩
    rw [hpage, hfree₁]
    exact decide_eq_false (by omega)
  have hcells : ¬ OnCells mountCells 0xC0804010#32 := by decide
  obtain ⟨dirs,ranges,hcarried⟩ := hi₁.disk
  obtain ⟨m₂,hstore⟩ : ∃ m₂, storeByte 0xC0804010#32 7#8 m₁ = .ok m₂ := by
    obtain ⟨g,-,-,-,hstore,-⟩ := Ramdisk.kernel_moved (b := 7#8) hcarried hown.1 hown.2
    exact ⟨_,hstore⟩
  obtain ⟨hbits,hphys,-⟩ := storeByte_keeps hstore
  have hkernel : ∀ fuel, step smallLayout (diskOf Ramdisk.onePage) fuel (booted m₁) (.kernel 0xC0804010#32 7#8) =
      some (booted m₂) := fun fuel => by
    rw [booted, step, if_pos ⟨hown,hcells⟩, stored_ok hstore]
    rfl
  have hstores : Lasts smallLayout (booted m₁) (.kernel 0xC0804010#32 7#8) := trivial
  refine ⟨m₂,by rw [hbits]; exact hfree₁,?_,step_inv _ _ _ hi₁ hstores (hkernel 0),fun fuel =>
    ⟨_,hheap fuel,hlast,_,hkernel fuel,hstores,rfl⟩⟩
  rw [hphys]
  change left _ m₁.phys+1 = left _ m.phys at hcount
  omega

def inSampleSpace (m : Machine) (f : ℕ) (phys : PhysicalMem) : Kernel :=
  ⟨{ withDirectory smallLayout m 0 5 f phys with cr3 := frameAddress f },
    SpaceRecords.storeRecord mountRecord ⟨0xC0805000#32, frameAddress f⟩ recordCells, []⟩

theorem sample_space (hi : Inv smallLayout (diskOf Ramdisk.onePage) words (booted m)) (hfree : FreeFrom m.heapBitmap 5)
    {n : ℕ} (hleft : left smallLayout.toKernelImage m.phys = n+1) :
    ∃ f phys, f < 2^20 ∧ f ≠ smallLayout.initPageDirectory ∧ left smallLayout.toKernelImage phys = n ∧
      Inv smallLayout (diskOf Ramdisk.onePage) words (.running (inSampleSpace m f phys) [mountRecord]) ∧ ∀ fuel,
      Transition.Reaches (step smallLayout (diskOf Ramdisk.onePage) (fuel+1)) (Lasts smallLayout)
        [.call .alloc, .call (.switch mountRecord)] (booted m) (.running (inSampleSpace m f phys) [mountRecord]) := by
  obtain ⟨dirs,ranges,hk⟩ : ∃ dirs ranges, AddressSpaces.Kept smallLayout dirs ranges m [] := hi.spaces.spaces
  have hs : Suitable m.heapBitmap 1 0 5 := suitable_freeFrom hfree (by omega) (by omega) (by decide) (by omega)
  obtain ⟨f,phys,hdir,hf,hgrant,-,hcount⟩ := AddressSpaces.alloc_left hk hs (by omega)
  rw [show KernelHeapSearch.foundAddress 0 5 = 0xC0805000#32 by decide] at hdir
  have hun := Ownership.unheld_of_granted hk.running.owned hf hgrant
  have hcell : IsCell recordCells mountRecord :=
    ⟨by decide,⟨1#32, 0xC0802000#32⟩,by decide,by decide,by decide,by decide⟩
  have hsteps := fun fuel => SpaceRuns.alloc_switched [] (record_kmalloc m fuel) (by decide) hcell hdir
    (show 0xC0805000#32 ≠ null by decide)
  have hroom : Lasts smallLayout (booted m) (.call .alloc) := by
    refine Or.inl ⟨mountCells_serves,?_,0,5,hs,by simp,trivial⟩
    change 1 ≤ left smallLayout.toKernelImage m.phys
    omega
  have hreach : ∀ fuel, Transition.Reaches (step smallLayout (diskOf Ramdisk.onePage) (fuel+1)) (Lasts smallLayout)
      [.call .alloc, .call (.switch mountRecord)] (booted m) (.running (inSampleSpace m f phys) [mountRecord]) :=
    fun fuel => ⟨_,(hsteps fuel).1,hroom,_,(hsteps fuel).2,trivial,rfl⟩
  have hinv : Inv smallLayout (diskOf Ramdisk.onePage) words (.running (inSampleSpace m f phys) [mountRecord]) :=
    Transition.always_run _ (Transition.always_of_guarded (fun _ h => h) step_inv hi
      (Transition.reaches_guarded (hreach 0))) (Transition.reaches_run (hreach 0))
  exact ⟨f,phys,hf,fun he => hun.free (.directory smallLayout.initPageDirectory) ⟨hk.running.owned.boot,he⟩,by omega,hinv,
    hreach⟩

theorem record_spares (record : Vas) :
    Spares (SpaceRecords.storeRecord mountRecord record recordCells) [mountRecord] mountRecord := by
  have hlinked : Linked null recordCells.links.next recordCells.links.head [0xC0802000#32] null :=
    ⟨by decide,by decide,show recordCells.links.next 0xC0802000#32 = null by decide⟩
  have hne : ∀ x ∈ [0xC0802000#32], x ≠ mountRecord := by
    rw [List.forall_mem_singleton]
    decide
  exact ⟨by decide,[0xC0802000#32],linked_frame hlinked fun x hx => store_next_ne _ _ (hne x hx),fun x hx hm =>
    hne x hx (List.mem_singleton.mp hm)⟩

/-- With four frames the whole run returns. -/
theorem sample_returns (hi : Inv smallLayout (diskOf Ramdisk.onePage) words (booted m)) (hfree : FreeFrom m.heapBitmap 4)
    {n : ℕ} (hleft : left smallLayout.toKernelImage m.phys = n+4) :
    ∃ fuel t, Transition.Reaches (step smallLayout (diskOf Ramdisk.onePage) fuel) (Lasts smallLayout) sampleRun
      (booted m) t := by
  obtain ⟨m₁,hfree₁,hleft₁,hi₁,hreach₁⟩ := sample_page hi hfree hleft
  obtain ⟨f,phys,hf,hfD,hleft₂,hi₂,hreach₂⟩ := sample_space hi₁ hfree₁ hleft₁
  obtain ⟨k,hk⟩ : ∃ k, k = inSampleSpace m₁ f phys := ⟨_,rfl⟩
  rw [← hk] at hi₂ hreach₂
  have hcr3 : k.machine.cr3 = frameAddress f := by rw [hk]; rfl
  obtain ⟨dirs,ranges,hkept⟩ : ∃ dirs ranges, AddressSpaces.Kept smallLayout dirs ranges k.machine _ := hi₂.spaces.spaces
  -- a page for user code
  have hdemand : demand k.machine.mem (frameOf k.machine.cr3) ((0x40000000#32 : Word).toNat/4096) 1 ≤
      left smallLayout.toKernelImage k.machine.phys := by
    refine (demand_le _ _ _ _).trans ?_
    rw [hk]
    change 2 ≤ left smallLayout.toKernelImage phys
    omega
  obtain ⟨m₂,hloop,hrun,hgrows,hentered,-⟩ := mmapLoop_running 1 hkept.running (v := 0x40000000#32) (by decide) (by decide)
    (r := 0) hdemand
  have hmap : VirtualMemory.mmap smallLayout 0x40000000#32 1#32 k.machine = .ok (.success, m₂) := by
    rw [VirtualMemory.mmap, show mmapRejects 0x40000000#32 1#32 = false by decide, if_neg (by simp),
      show mmapCount 0x40000000#32 1#32 = 1 by decide, hloop]
    rfl
  have hmmap : Lasts smallLayout (.running k [mountRecord]) (.call (.mmap 0x40000000#32 1#32)) := Or.inr hdemand
  have hstep₂ : ∀ fuel, step smallLayout (diskOf Ramdisk.onePage) fuel (.running k [mountRecord])
      (.call (.mmap 0x40000000#32 1#32)) = some (.running { k with machine := m₂ } [mountRecord]) := fun fuel => by
    rw [step, SpaceRecords.step, SpaceRecords.onMachine_ok hmap]
    rfl
  have hi₃ := step_inv _ _ _ hi₂ hmmap (hstep₂ 0)
  -- a byte of user code in it
  have hcr3₂ : m₂.cr3 = frameAddress f := hgrows.cr3.trans hcr3
  have hother : frameOf m₂.cr3 ≠ smallLayout.initPageDirectory := by
    rw [hcr3₂, frameOf_frameAddress hf]
    exact hfD
  obtain ⟨g,hg⟩ := UserBytes.user_page ⟨hrun,hother⟩ (p := 0x40000) (by omega) (by
    rw [hgrows.cr3]
    exact hentered _ (by decide) (by decide))
  obtain ⟨m₃,hstore⟩ : ∃ m₃, storeByte 0x40000010#32 5#8 m₂ = .ok m₃ := by
    rw [storeByte, UserBytes.walk_user (a := 0x40000010#32) hg]
    exact ⟨_,rfl⟩
  have huser : Lasts smallLayout (.running { k with machine := m₂ } [mountRecord]) (.user 0x40000010#32 5#8) := trivial
  have hstep₃ : ∀ fuel, step smallLayout (diskOf Ramdisk.onePage) fuel (.running { k with machine := m₂ } [mountRecord])
      (.user 0x40000010#32 5#8) = some (.running { k with machine := m₃ } [mountRecord]) := fun fuel => by
    rw [step, if_pos ⟨by decide,hother⟩, stored_ok hstore]
  have hi₄ := step_inv _ _ _ hi₃ huser (hstep₃ 0)
  -- the address space is torn down
  have hspares : Lasts smallLayout (.running { k with machine := m₃ } [mountRecord]) (.call (.free mountRecord)) := by
    rw [hk]
    exact record_spares _
  have hcalled : SpaceRuns.Called (.running { k with machine := m₃ } [mountRecord]) (.free mountRecord) := by
    refine ⟨List.mem_singleton_self _,?_⟩
    rw [hk]
    exact ((storeByte_keeps hstore).2.2.trans hcr3₂).trans (congrArg Vas.physicalPgdAddress
      (SpaceRuns.record_stored m₃ recordCells mountRecord ⟨0xC0805000#32, frameAddress f⟩ [])).symm
  obtain ⟨N,hN⟩ := SpaceRuns.step_returns hi₄.spaces hcalled hspares
  obtain ⟨t,ht,-⟩ := hN (N+1) (by omega)
  exact ⟨N+1,t,Transition.reaches_append (hreach₁ _) (Transition.reaches_append (hreach₂ N)
    ⟨_,hstep₂ _,hmmap,_,hstep₃ _,huser,_,ht,hspares,rfl⟩)⟩

end

/-- A kernel with a module of one page on fifteen frames. -/
theorem sample_booted (ram : Frames) : ∃ phys m fuel t,
    phyMemoryManagerInit smallLayout.toKernelImage (AddressSpaces.regionMap 0xF0#8) 0x9000#32 1#32 2 = .ok phys ∧
    Spared smallLayout phys Ramdisk.onePage ∧
    kmain smallLayout ram phys Ramdisk.oneStore true registerRange Ramdisk.onePage =
      .ok (⟨0xC0803000#32, 0xC0804000#32⟩, m) ∧
    Transition.Reaches (step smallLayout (diskOf Ramdisk.onePage) fuel) (Lasts smallLayout) sampleRun (booted m) t := by
  obtain ⟨phys,hinit,hbits⟩ := AddressSpaces.region_init 0xF0#8 0xF000#32 (by decide) (by decide) (by decide)
  obtain ⟨hspared,m,hmain,hfree,hleft⟩ := Ramdisk.onePage_started (n := 15) ram hinit (by omega) (by omega) hbits
  obtain ⟨-,hi⟩ := inv_of_kmain hinit Ramdisk.registerRange_registers hspared hmain
  obtain ⟨fuel,t,hreach⟩ := sample_returns (n := 10) hi hfree (by omega)
  exact ⟨phys,m,fuel,t,hinit,hspared,hmain,hreach⟩

theorem one_page_intact : ∃ phys m fuel t,
    kmain smallLayout (fun f _ => BitVec.ofNat 32 f) phys Ramdisk.oneStore true registerRange Ramdisk.onePage =
      .ok (⟨0xC0803000#32, 0xC0804000#32⟩, m) ∧
    Transition.run (step smallLayout (diskOf Ramdisk.onePage) fuel) sampleRun (booted m) = some t ∧
    Transition.Always (step smallLayout (diskOf Ramdisk.onePage) fuel)
      (Intact smallLayout (diskOf Ramdisk.onePage) fun f _ => BitVec.ofNat 32 f) sampleRun (booted m) := by
  obtain ⟨phys,m,fuel,t,hinit,hspared,hmain,hreach⟩ := sample_booted fun f _ => BitVec.ofNat 32 f
  exact ⟨phys,m,fuel,t,hmain,Transition.reaches_run hreach,ramdisk_intact smallLayout _ _ _ _ _ fuel phys _ true
    registerRange Ramdisk.onePage _ m sampleRun hinit Ramdisk.registerRange_registers hspared hmain
    (Transition.reaches_guarded hreach)⟩

end MikeOS.KernelRuns
