import MikeOS.KernelRuns

/-!
# Files of the ramdisk in every address space

The image of the generator goes through the boot loader, the mapping of
`make_initrd_fs` and the walk of whatever directory is in use: its files open
and read back in every state a run reaches. The page of the mount point, taken
before the module is registered, can be one of the module's own.
-/

set_option autoImplicit false

namespace MikeOS.RamdiskFiles
open BitArray MikeOS.Memory MikeOS.Paging MikeOS.PhysicalMemory MikeOS.KernelHeap MikeOS.KernelHeapSearch
open MikeOS.KernelHeapRuns hiding State returned Op Inv step Placed
open MikeOS.FrameAllocator MikeOS.Mmu MikeOS.VirtualMemory MikeOS.FramePool
open MikeOS.Boot MikeOS.PageDirectory MikeOS.KernelMain MikeOS.Ramdisk
open MikeOS.AddressSpaces (State directories)
open MikeOS.Teardown (smallLayout)
open MikeOS.Initrd MikeOS.InitrdImage

/-- What code in the address space of directory `D` reads at an address. -/
def view (m : Machine) (D : ℕ) : Ram := fun a =>
  match loadByte a (KernelHalf.inSpace m D) with
  | .ok b => b
  | .error _ => 0#8

def physicalByte (mem : Frames) (a : ℕ) : Byte := Words.byteOf (mem (a/4096) (a%4096/4)) (a%4)

structure Delivered (ram : Frames) (info : MultibootInfo) (image : List Byte) : Prop where
  size : info.mods.modEnd.toNat = info.mods.modStart.toNat+image.length
  bytes : ∀ i (h : i < image.length), physicalByte ram (info.mods.modStart.toNat+i) = image[i]

/-- Every path opens in `fs` as the name of a file says, and its node reads back
the bytes of that file. -/
def ReadsBack (files : List SourceFile) (ram : Ram) (fs : FileSystem) : Prop :=
  ∀ (path : List Byte) (block : Word), 0#8 ∉ path →
    ((initrdOpen ram fs path block).isSome = true ↔ block ≠ null ∧ skipSlash path ∈ files.map SourceFile.name) ∧
    ∀ node, initrdOpen ram fs path block = some node → ∀ f ∈ files, f.name = skipSlash path →
      node.size.toNat = f.data.length ∧
      ∀ offset length buffer : Word, buffer ≠ null → 1 ≤ length.toNat →
        offset.toNat+length.toNat ≤ f.data.length →
        (initrdRead node offset length buffer).1 = length ∧
        (initrdRead node offset length buffer).2.map ram = (f.data.drop offset.toNat).take length.toNat

def Serves (L : Layout) (files : List SourceFile) (fs : FileSystem) : State → Prop
  | .undefined => False
  | .running m live => ∀ D ∈ directories L live, ReadsBack files (view m D) fs

section
variable {L : Layout} {ram : Frames} {phys : PhysicalMem} {info : MultibootInfo}

theorem view_intact (hal : info.mods.modStart.toNat%4096 = 0) {m : Machine} {live : List Vas}
    (h : Intact L (diskOf info) ram (.running m live)) {D : ℕ} (hD : D ∈ directories L live) {i : ℕ}
    (hi : i < 4096*(imagePages info).toNat) :
    view m D (ramdiskAddress+BitVec.ofNat 32 i) = physicalByte ram (info.mods.modStart.toNat+i) := by
  have hj : i/4096 < (diskOf info).count := by
    change i/4096 < (imagePages info).toNat
    omega
  have hadr : ramdiskAddress+BitVec.ofNat 32 i =
      BitVec.ofNat 32 (windowBase+4096*((diskOf info).page+i/4096)+i%4096) := by
    rw [ramdiskAddress, ← BitVec.ofNat_add]
    congr 1
    change 0xC0803000+i = 0xC0800000+4096*(3+i/4096)+i%4096
    omega
  rw [view, hadr, h D hD _ hj (i%4096) (Nat.mod_lt _ (by omega))]
  simp only [physicalByte]
  change Words.byteOf (ram (info.mods.modStart.toNat/4096+i/4096) (i%4096/4)) (i%4096%4) = _
  rw [show (info.mods.modStart.toNat+i)/4096 = info.mods.modStart.toNat/4096+i/4096 by omega,
    show (info.mods.modStart.toNat+i)%4096 = i%4096 by omega,
    show (info.mods.modStart.toNat+i)%4 = i%4096%4 by omega]

/-- A module that is an image is mapped whole. -/
theorem delivered_pages {image : List Byte} (h : Delivered ram info image) (hpad : image.length%4096 = 0) :
    4096*(imagePages info).toNat = image.length := by
  have hle : info.mods.modStart.toNat ≤ info.mods.modEnd.toNat := by rw [h.size]; omega
  rw [imagePages, mappedPages, pageSize_eq, BitVec.toNat_udiv, BitVec.toNat_sub_of_le hle,
    show (4096#32).toNat = 4096 from rfl, h.size]
  omega

theorem serves_of_intact {files : List SourceFile} (hpack : Packable files) {image : List Byte}
    (himage : createInitrd files = some image) (hal : info.mods.modStart.toNat%4096 = 0)
    (hdel : Delivered ram info image) (s : State) (h : Intact L (diskOf info) ram s) :
    Serves L files (ramdisk info) s := by
  cases s with
  | undefined => exact h
  | running m live =>
    obtain ⟨image',himage',hpad,hround⟩ := initrd_round_trip files hpack
    obtain rfl : image' = image := by rw [himage, Option.some.injEq] at himage'; exact himage'.symm
    have hpages := delivered_pages hdel hpad
    intro D hD path block hpath
    refine (hround (view m D) (ramdisk info) (fun i hi => ?_) ?_).2 path block hpath
    · change view m D (ramdiskAddress+BitVec.ofNat 32 i) = image'[i]
      rw [view_intact hal h hD (by omega), hdel.bytes i hi]
    · change ramdiskAddress+imagePages info*pageSize = ramdiskAddress+BitVec.ofNat 32 image'.length
      rw [pageSize_eq, ← hpages]
      congr 1
      apply BitVec.eq_of_toNat_eq
      simp only [BitVec.toNat_mul, BitVec.toNat_ofNat]
      omega

end

/-- In every state that a run reaches after `kmain`, every address space opens the
files that the generator packed and reads them back. -/
theorem files_served (L : Layout) (ram : Frames) (map : Ram) (mapAddr mapLength : Word) (memoryFuel fuel : ℕ)
    (phys : PhysicalMem) (stores : List (Fin 4096 × Byte)) (initialized : Bool) (registerRamdisk : RegisterRamdisk)
    (info : MultibootInfo) (fs : FileSystem) (m : Machine) (files : List SourceFile) (image : List Byte)
    (ops : List KernelRuns.Op)
    (hinit : phyMemoryManagerInit L.toKernelImage map mapAddr mapLength memoryFuel = .ok phys)
    (hpack : Packable files) (himage : createInitrd files = some image) (hdel : Delivered ram info image)
    (hreg : Registers registerRamdisk info.mods.modStart info.mods.modEnd) (hspared : Spared L phys info)
    (hmain : kmain L ram phys stores initialized registerRamdisk info = .ok (fs, m))
    (hlast : Transition.Guarded (KernelRuns.step L (diskOf info) fuel) (KernelRuns.Lasts L) ops (KernelRuns.booted m)) :
    Transition.Always (KernelRuns.step L (diskOf info) fuel) (fun s => Serves L files fs (SpaceRuns.view s)) ops
      (KernelRuns.booted m) := by
  obtain ⟨rfl,hi⟩ := KernelRuns.inv_of_kmain hinit hreg hspared hmain
  exact Transition.always_of_guarded
    (fun s hs => serves_of_intact hpack himage hspared.aligned hdel _ (intact_of_inv _ hs.disk))
    KernelRuns.step_inv hi hlast

def framesHolding (bytes : List Byte) (p : ℕ) : Frames := fun f i =>
  let byte (k : ℕ) : Byte := bytes.getD (4096*f+4*i+k-p) 0#8
  Words.setByte (Words.setByte (Words.setByte (Words.setByte 0#32 0 (byte 0)) 1 (byte 1)) 2 (byte 2)) 3 (byte 3)

theorem physicalByte_framesHolding (bytes : List Byte) (p a : ℕ) :
    physicalByte (framesHolding bytes p) a = bytes.getD (a-p) 0#8 := by
  have hbyte : ∀ k, k < 4 → ∀ f i, Words.byteOf (framesHolding bytes p f i) k = bytes.getD (4096*f+4*i+k-p) 0#8 := by
    intro k hk f i
    rw [framesHolding]
    obtain rfl | rfl | rfl | rfl : k = 0 ∨ k = 1 ∨ k = 2 ∨ k = 3 := by omega
    · rw [Words.byteOf_setByte_ne _ _ (by omega) (by omega), Words.byteOf_setByte_ne _ _ (by omega) (by omega),
        Words.byteOf_setByte_ne _ _ (by omega) (by omega), Words.byteOf_setByte _ _ (by omega)]
    · rw [Words.byteOf_setByte_ne _ _ (by omega) (by omega), Words.byteOf_setByte_ne _ _ (by omega) (by omega),
        Words.byteOf_setByte _ _ (by omega)]
    · rw [Words.byteOf_setByte_ne _ _ (by omega) (by omega), Words.byteOf_setByte _ _ (by omega)]
    · rw [Words.byteOf_setByte _ _ (by omega)]
  rw [physicalByte, hbyte _ (Nat.mod_lt _ (by omega))]
  congr 1
  omega

theorem sample_delivered {image : List Byte} (h : createInitrd sampleFiles = some image) :
    Delivered (framesHolding image 0x240000) onePage image := by
  have hlen : image.length = 4096 := by
    rw [createInitrd_eq _ sample_packable.accepted, Option.some.injEq] at h
    rw [← h, List.length_append, padded_length, body_length _ sample_packable.accepted]
    decide
  refine ⟨by rw [hlen]; rfl,fun i hi => ?_⟩
  rw [physicalByte_framesHolding]
  change image.getD (0x240000+i-0x240000) 0#8 = _
  rw [Nat.add_sub_cancel_left, List.getD_eq_getElem?_getD, List.getElem?_eq_getElem hi, Option.getD_some]

theorem two_files_served : ∃ image phys m fuel t, createInitrd sampleFiles = some image ∧
    kmain smallLayout (framesHolding image 0x240000) phys oneStore true registerRange onePage =
      .ok (⟨0xC0803000#32, 0xC0804000#32⟩, m) ∧
    Transition.run (KernelRuns.step smallLayout (diskOf onePage) fuel) KernelRuns.sampleRun (KernelRuns.booted m) =
      some t ∧
    Transition.Always (KernelRuns.step smallLayout (diskOf onePage) fuel)
      (fun s => Serves smallLayout sampleFiles ⟨0xC0803000#32, 0xC0804000#32⟩ (SpaceRuns.view s)) KernelRuns.sampleRun
      (KernelRuns.booted m) := by
  have himage := createInitrd_eq sampleFiles sample_packable.accepted
  obtain ⟨phys,m,fuel,t,hinit,hspared,hmain,hreach⟩ := KernelRuns.sample_booted (framesHolding _ 0x240000)
  exact ⟨_,phys,m,fuel,t,himage,hmain,Transition.reaches_run hreach,files_served smallLayout _ _ _ _ _ fuel phys _ true
    registerRange onePage _ m sampleFiles _ KernelRuns.sampleRun hinit sample_packable himage (sample_delivered himage)
    registerRange_registers hspared hmain (Transition.reaches_guarded hreach)⟩

end MikeOS.RamdiskFiles
