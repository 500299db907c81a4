import MikeOS.Mmu

/-!
# Virtual memory manager

Directories are edited through addresses: the directory and the tables in use
through the last entry of the directory in `cr3`, the page table of the heap
through its address there, and a directory that is not in use through the
heap page it was given. What `kmalloc` returned for the record of an address
space is an argument.
-/

set_option autoImplicit false

namespace MikeOS.VirtualMemory
open MikeOS.Paging MikeOS.PhysicalMemory MikeOS.KernelHeap MikeOS.Mmu

/-- The frames of the tables that are part of the kernel image. -/
structure Layout extends KernelImage where
  kernelPageTables : ℕ
  kheapPageTables : ℕ
  initPageDirectory : ℕ
  placed : ∀ f ∈ [kernelPageTables, kernelPageTables+1, kheapPageTables, initPageDirectory],
    0x100 ≤ f ∧ f < kernelEnd.toNat/4096
  distinct : [kernelPageTables, kernelPageTables+1, kheapPageTables, initPageDirectory].Nodup

structure Vas where
  pageDirectory : Word
  physicalPgdAddress : Word
  deriving DecidableEq, Repr

def userSpaceLimit : ℕ := 767

def kheapPgdEntry : ℕ := (addressToDirectoryEntry kheapBeginAddress).toNat

def kheapRecursiveAddress : Word :=
  recursivePgdAddress+addressToDirectoryEntry kheapBeginAddress*pageSize

def entryPtr (base : Word) (i : ℕ) : Word := base+BitVec.ofNat 32 (4*i)

/-- A function of the heap works on the page table it reaches through
`KHEAP_RECURSIVE_ADDRESS`. -/
def onHeap {α : Type} (f : Kheap → Except Stop (α × Kheap)) (m : Machine) : Except Stop (α × Machine) := do
  let t ← walk m kheapRecursiveAddress
  let (a, k) ← f ⟨m.heapBitmap, m.mem t, m.phys⟩
  return (a, { m with heapBitmap := k.bitmap, mem := setFrame m.mem t k.table, phys := k.phys })

def kernelAttributes : Word := readWrite ||| present
def userAttributes : Word := readWrite ||| present ||| user

def mapKheapToPgd (L : Layout) (pageDirectory : Word) (m : Machine) : Except Stop Machine :=
  if pageDirectory = null then .ok m
  else writeEntry (entryPtr pageDirectory kheapPgdEntry) (frameAddress L.kheapPageTables) kernelAttributes m

/-! ## Address spaces -/

def copyKernel (L : Layout) (pageDirectory : Word) (m : Machine) : Except Stop Machine :=
  (List.range' kernelPgdEntryIndex numKernelPageTables).foldlM (fun m i =>
    writeEntry (entryPtr pageDirectory i) (frameAddress (L.kernelPageTables+(i-kernelPgdEntryIndex)))
      kernelAttributes m) m

/-- Nothing is returned where the source returns `FAILURE`. -/
def allocPageDir (L : Layout) (m : Machine) : Except Stop (Option Vas × Machine) := do
  let (pageDirectory, m) ← onHeap (allocKheapPages L.toKernelImage 1#32) m
  if pageDirectory = null then return (none, m)
  let m ← clearPage pageDirectory m
  let m ← copyKernel L pageDirectory m
  let m ← mapKheapToPgd L pageDirectory m
  let (physicalPgdAddress, m) ← onHeap (fun k => .ok (kheapGetPhysicalAddress k pageDirectory, k)) m
  let m ← writeEntry (entryPtr pageDirectory 1023) physicalPgdAddress kernelAttributes m
  return (some ⟨pageDirectory, physicalPgdAddress⟩, m)

/-- `vmm` is what `kmalloc` returned. -/
def allocVirtualAddressSpace (L : Layout) (vmm : Word) (m : Machine) :
    Except Stop (Option Vas × Machine) :=
  if vmm = null then .ok (none, m) else allocPageDir L m

def switchVirtualAddressSpace (vmm : Vas) (m : Machine) : ErrorCode × Machine :=
  if vmm.pageDirectory = null then (.invalidArgument, m)
  else (.success, { m with cr3 := vmm.physicalPgdAddress })

def freeIfSet (e : Word) (m : Machine) : Machine :=
  if e ≠ 0#32 then m.withPhys (freePhysicalPage e m.phys).2 else m

def freeTable (i : ℕ) : ℕ → ℕ → Machine → Except Stop Machine
  | 0, _, m => .ok m
  | count+1, j, m => do
    let e ← loadWord (entryPtr recursivePgdAddress (i*pageTableSize+j)) m
    freeTable i count (j+1) (freeIfSet e m)

def freeTables (vmm : Vas) : ℕ → ℕ → Machine → Except Stop Machine
  | 0, _, m => .ok m
  | count+1, i, m => do
    let e ← loadWord (entryPtr vmm.pageDirectory i) m
    if e ≠ 0#32 then
      let m ← freeTable i pageTableSize 0 m
      let e ← loadWord (entryPtr vmm.pageDirectory i) m
      freeTables vmm count (i+1) (m.withPhys (freePhysicalPage e m.phys).2)
    else freeTables vmm count (i+1) m

def freeVirtualAddressSpace (vmm : Vas) (m : Machine) : Except Stop (ErrorCode × Machine) := do
  let m ← freeTables vmm userSpaceLimit 0 m
  let (_, m) ← onHeap (freeKheapPages vmm.pageDirectory 1#32) m
  return (.success, m)

/-! ## Mapping of user pages -/

def addTable (L : Layout) (pgdIndex : ℕ) (m : Machine) : Except Stop Machine := do
  let page := allocatePhysicalPage L.toKernelImage m.phys
  let m ← writeEntry (entryPtr recursivePgtAddress pgdIndex) page.1 userAttributes (m.withPhys page.2)
  clearPage (entryPtr recursivePgdAddress (pgdIndex*1024)) m

def mapUserVirtualAddressToPhysical (L : Layout) (virtualAddress physicalAddress : Word) (m : Machine) :
    Except Stop Machine := do
  let pgdIndex := (addressToDirectoryEntry virtualAddress).toNat
  let pgtIndex := (addressToPageTableEntry virtualAddress).toNat
  let e ← loadWord (entryPtr recursivePgtAddress pgdIndex) m
  let m ← if e = 0#32 then addTable L pgdIndex m else .ok m
  writeEntry (entryPtr recursivePgdAddress (pgdIndex*pageTableSize+pgtIndex)) physicalAddress
    userAttributes m

def pageExists (virtualAddress : Word) (m : Machine) : Except Stop Bool := do
  let pgdIndex := (addressToDirectoryEntry virtualAddress).toNat
  let pgtIndex := (addressToPageTableEntry virtualAddress).toNat
  let e ← loadWord (entryPtr recursivePgtAddress pgdIndex) m
  if e = 0#32 then return false
  let e ← loadWord (entryPtr recursivePgdAddress (pgdIndex*pageTableSize+pgtIndex)) m
  return decide (e ≠ 0#32)

def mmapPage (L : Layout) (v : Word) (m : Machine) : Except Stop Machine := do
  let there ← pageExists v m
  if there then return m
  let page := allocatePhysicalPage L.toKernelImage m.phys
  mapUserVirtualAddressToPhysical L v page.1 ((m.granting (v.toNat/4096) page.1).withPhys page.2)

def mmapLoop (L : Layout) : ℕ → Word → Machine → Except Stop Machine
  | 0, _, m => .ok m
  | count+1, v, m => do
    let m ← mmapPage L v m
    mmapLoop L count (v+pageSize) m

/-- The counter runs in steps of a page while it is below the sum, unsigned. -/
def mmapCount (virtualAddress numPages : Word) : ℕ :=
  ((virtualAddress+numPages*pageSize).toNat-virtualAddress.toNat)/4096

def mmapRejects (virtualAddress numPages : Word) : Bool :=
  virtualAddress ≥ kernelVirtualOffset ∨ virtualAddress+numPages*pageSize ≥ kernelVirtualOffset ∨
    pageBoundary virtualAddress ≠ virtualAddress

def mmap (L : Layout) (virtualAddress numPages : Word) (m : Machine) :
    Except Stop (ErrorCode × Machine) := do
  if mmapRejects virtualAddress numPages then return (.invalidArgument, m)
  let m ← mmapLoop L (mmapCount virtualAddress numPages) virtualAddress m
  return (.success, m)

end MikeOS.VirtualMemory
