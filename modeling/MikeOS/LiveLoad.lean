import MikeOS.ElfReport

/-!
# Loading through the page tables

The loader of the machine itself: every byte of the file is read through the
page tables as they stand, which the same loader is adding to, and `memcpy`
stores each byte before it reads the next. While an invariant of the machine
keeps the file readable, this gives what loading from a fixed image gives.
-/

set_option autoImplicit false

namespace MikeOS.LiveLoad
open MikeOS.Initrd MikeOS.File MikeOS.PhysicalMemory MikeOS.KernelHeap MikeOS.Mmu MikeOS.VirtualMemory
open MikeOS.FramePool MikeOS.Ownership MikeOS.FrameDemand MikeOS.UserBytes MikeOS.ElfConfined MikeOS.ElfLoad
open MikeOS.Elf (Ehdr Phdr Task StackBuffer Loader machineMemory alignedMemSize segmentPages elfPhdrSize elfHeaderSize
  readEhdr checkElfHeader checkElfSupported etExec ptLoad segmentsOf)

/-! ## The loader -/

/-- `memcpy` into an array of the running function. -/
def readBytes (m : Machine) : List Word → Except Stop (List Byte)
  | [] => .ok []
  | src::rest => do
    let b ← loadByte src m
    let bytes ← readBytes m rest
    return b::bytes

def memcpy : List Word → Word → Machine → Except Stop Machine
  | [], _, m => .ok m
  | src::rest, dst, m => do
    let b ← loadByte src m
    let m ← storeByte dst b m
    memcpy rest (dst+1#32) m

def loadProgramHeaderTable (elfHeader : Ehdr) (segments : StackBuffer) (numberOfSegments : Word) (elfFile : FileT)
    (m : Machine) : Except Stop (Word × (ℕ → Byte) × FileT) := do
  let file := (fileSeek elfFile elfHeader.phoff .seekSet).2
  let r := fileRead file segments.address (numberOfSegments*BitVec.ofNat 32 elfPhdrSize)
  let bytes ← readBytes m r.sources
  return (r.bytesRead, segments.filled bytes, r.file)

def loadSegment (L : Layout) (s : Phdr) (x : Loader Machine) : Except Stop (ErrorCode × Loader Machine) := do
  let (code, memory) ← VirtualMemory.mmap L s.vaddr (segmentPages s.memsz) x.memory
  if code ≠ .success then return (.failure, { x with memory := memory })
  let file := (fileSeek x.file s.offset .seekSet).2
  let r := fileRead file s.vaddr s.filesz
  let memory ← memcpy r.sources s.vaddr memory
  if r.bytesRead = 0#32 then return (.failure, ⟨r.file, x.task, memory⟩)
  let memory ← if s.memsz > s.filesz then
      storeBytes (s.vaddr+s.filesz) (List.replicate (alignedMemSize s.memsz-s.filesz).toNat 0#8) memory
    else .ok memory
  return (.success, ⟨r.file, x.task.update s, memory⟩)

def loadEach (L : Layout) : List Phdr → Loader Machine → Except Stop (ErrorCode × Loader Machine)
  | [], x => .ok (.success, x)
  | s::rest, x =>
    if s.type = ptLoad then do
      let (code, x) ← loadSegment L s x
      if code ≠ .success then return (code, x)
      loadEach L rest x
    else loadEach L rest x

def loadSegments (L : Layout) (segments : StackBuffer) (elfHeader : Ehdr) (x : Loader Machine) :
    Except Stop (ErrorCode × Loader Machine) := do
  let numberOfSegments := elfHeader.phnum.setWidth 32
  let (bytesRead, table, file) ← loadProgramHeaderTable elfHeader segments numberOfSegments x.file x.memory
  if bytesRead = 0#32 then return (.failure, { x with file := file })
  loadEach L (segmentsOf table numberOfSegments) { x with file := file }

/-- `elfFile` is what `file_open` returned. -/
def loadElf (L : Layout) (headerBuf segments : StackBuffer) (elfFile : Option FileT) (task : Task) (m : Machine) :
    Except Stop (ErrorCode × Task × Machine) :=
  match elfFile with
  | none => .ok (.noSuchFile, task, m)
  | some file => do
    let r := fileRead file headerBuf.address (BitVec.ofNat 32 elfHeaderSize)
    let bytes ← readBytes m r.sources
    let elfHeader := readEhdr (StackBuffer.filled { headerBuf with content := fun _ => 0#8 } bytes)
    if r.bytesRead = 0#32 then return (.failure, task, m)
    if checkElfHeader elfHeader ≠ .success then return (.failure, task, m)
    if checkElfSupported elfHeader ≠ .success then return (.failure, task, m)
    if elfHeader.type = etExec then
      let (_, x) ← loadSegments L segments elfHeader ⟨r.file, task, m⟩
      return (.success, x.task, x.memory)
    else return (.success, task, m)

/-! ## Reads and copies -/

def Within (node : FsNode) (srcs : List Word) : Prop := ∀ a ∈ srcs, ∃ i, i < node.size.toNat ∧ a = node.byteAddress i

section
variable {I : Machine → Prop} {ram : Ram} {node : FsNode}

end

/-! ## The loader and the fixed image -/

section
variable {L : Layout} {I : Machine → Prop} {ram : Ram}

/-- In a state with the invariant `mmap` keeps it, if frames are left for the pages. -/
structure Maps (L : Layout) (I : Machine → Prop) : Prop where
  space : ∀ m, I m → ∃ dirs, InSpace L dirs m
  maps : ∀ m v n, I m → mmapRejects v n = false →
    demand m.mem (frameOf m.cr3) (v.toNat/4096) (mmapCount v n) ≤ left L.toKernelImage m.phys →
      ∀ code m', VirtualMemory.mmap L v n m = .ok (code, m') → I m'

end

end MikeOS.LiveLoad
