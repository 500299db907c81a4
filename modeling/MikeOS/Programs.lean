import MikeOS.RamdiskFiles
import MikeOS.ElfEntry
import MikeOS.LiveLoad
import MikeOS.Tasks

/-!
# A program from the boot module to user space

The file is a packed one: `load_elf` finds it in the ramdisk through the page
tables of the address space in use, and reads it there while it maps and fills
the pages of the program. The invariant of the ramdisk holds at every
store, so what is read is what the generator packed.
-/

set_option autoImplicit false

namespace MikeOS.Programs
open BitArray MikeOS.Memory MikeOS.Paging MikeOS.PhysicalMemory MikeOS.KernelHeap MikeOS.KernelHeapSearch
open MikeOS.KernelHeapRuns hiding State returned Op Inv step Placed
open MikeOS.Mmu MikeOS.VirtualMemory MikeOS.FramePool MikeOS.Boot MikeOS.PageDirectory MikeOS.FrameDemand
open MikeOS.PageTables MikeOS.Mmaps MikeOS.UserBytes MikeOS.KernelMain MikeOS.Ramdisk MikeOS.RamdiskFiles
open MikeOS.AddressSpaces (directories)
open MikeOS.Teardown (smallLayout)
open MikeOS.Initrd MikeOS.InitrdImage MikeOS.File MikeOS.Tasks MikeOS.ElfLoad
open MikeOS.Elf (Phdr StackBuffer machineMemory)
open MikeOS.ElfEntry (stackEndAddress stackSize lastText loadableIn)
open MikeOS.FileModes (CStr)

/-! ## Where a file lies in the image -/

def InUse (L : Layout) (info : MultibootInfo) (ram : Frames) (live : List Vas) (vmm : Vas) (m : Machine) : Prop :=
  m.cr3 = vmm.physicalPgdAddress ∧ Ramdisk.Inv L (diskOf info) ram (.running m live)

section
variable {L : Layout} {info : MultibootInfo} {ram : Frames} {live : List Vas} {vmm : Vas} {m : Machine}

end

/-! ## From the boot module -/

/-- `load_task` from `load_elf` on: the arguments of `jmp_to_userspace`, and none
where it tears the task down instead. -/
def loadTask (L : Layout) (headerBuf segments : StackBuffer) (elfFile : Option FileT) (task : Elf.Task)
    (m : Machine) : Except Stop (Option (Word × Word) × Machine) := do
  let (code, task, m) ← LiveLoad.loadElf L headerBuf segments elfFile task m
  if code ≠ .success then return (none, m)
  let (code, m) ← VirtualMemory.mmap L (stackEndAddress-stackSize*pageSize) stackSize m
  if code ≠ .success then return (none, m)
  return (some (task.textBegin, stackEndAddress), m)

section
variable {L : Layout} {info : MultibootInfo} {ram : Frames} {files : List SourceFile} {image : List Byte}

end

end MikeOS.Programs
