import MikeOS.File
import MikeOS.VirtualMemory

/-!
# ELF loader

The file is read through `file_seek` and `file_read`; `ram` is where its bytes
are found. The loader uses the memory of the task in two ways only: it calls
`mmap` and it writes bytes, by `memcpy` in `file_read` and by `memset`. It is
stated over these two, so that the same text runs on the machine and on a
record of the calls. Arrays on the stack hold arbitrary bytes before they are
filled; of a task only the fields that the loader sets are kept.
-/

set_option autoImplicit false

namespace MikeOS.Elf
open MikeOS.Initrd MikeOS.File MikeOS.KernelHeap MikeOS.Mmu MikeOS.VirtualMemory

/-! ## Headers -/

structure Ehdr where
  ident : ℕ → Byte
  type : BitVec 16
  machine : BitVec 16
  phoff : Word
  phnum : BitVec 16

structure Phdr where
  type : Word
  offset : Word
  vaddr : Word
  filesz : Word
  memsz : Word
  flags : Word
  deriving DecidableEq, Repr

def wordAt (buffer : ℕ → Byte) (i : ℕ) : Word :=
  le32 (buffer i) (buffer (i+1)) (buffer (i+2)) (buffer (i+3))

def halfAt (buffer : ℕ → Byte) (i : ℕ) : BitVec 16 := buffer (i+1) ++ buffer i

def elfHeaderSize : ℕ := 52
def elfPhdrSize : ℕ := 32

/-- `p_paddr`, at offset 12, and `p_align`, at offset 28, are not read. -/
def readPhdr (buffer : ℕ → Byte) : Phdr :=
  ⟨wordAt buffer 0, wordAt buffer 4, wordAt buffer 8, wordAt buffer 16, wordAt buffer 20,
    wordAt buffer 24⟩

def readEhdr (buffer : ℕ → Byte) : Ehdr :=
  ⟨buffer, halfAt buffer 16, halfAt buffer 18, wordAt buffer 28, halfAt buffer 44⟩

def etRel : BitVec 16 := 1#16
def etExec : BitVec 16 := 2#16
def em386 : BitVec 16 := 3#16
def ptLoad : Word := 1#32
def pfRX : Word := 5#32
def pfRW : Word := 6#32

def checkElfHeader (e : Ehdr) : ErrorCode :=
  if e.ident 0 ≠ 0x7F#8 then .invalidArgument
  else if e.ident 1 ≠ 0x45#8 then .invalidArgument
  else if e.ident 2 ≠ 0x4C#8 then .invalidArgument
  else if e.ident 3 ≠ 0x46#8 then .invalidArgument
  else .success

def checkElfSupported (e : Ehdr) : ErrorCode :=
  if e.ident 4 ≠ 1#8 then .invalidArgument
  else if e.ident 5 ≠ 1#8 then .invalidArgument
  else if e.machine ≠ em386 then .invalidArgument
  else if e.ident 6 ≠ 1#8 then .invalidArgument
  else if e.type ≠ etRel ∧ e.type ≠ etExec then .invalidArgument
  else .success

/-! ## Segments -/

/-- An array of the running function. Its address is not `NULL`. -/
structure StackBuffer where
  address : Word
  placed : address ≠ null
  content : ℕ → Byte

def StackBuffer.filled (buffer : StackBuffer) (bytes : List Byte) : ℕ → Byte :=
  fun i => bytes.getD i (buffer.content i)

structure Task where
  textBegin : Word
  dataBegin : Word
  deriving DecidableEq, Repr

structure Memory (σ : Type) where
  mmap : Word → Word → σ → Except Stop (ErrorCode × σ)
  write : Word → List Byte → σ → Except Stop σ

structure Loader (σ : Type) where
  file : FileT
  task : Task
  memory : σ

variable {σ : Type}

def loadProgramHeaderTable (ram : Ram) (elfHeader : Ehdr) (segments : StackBuffer)
    (numberOfSegments : Word) (elfFile : FileT) : Word × (ℕ → Byte) × FileT :=
  let file := (fileSeek elfFile elfHeader.phoff .seekSet).2
  let r := fileRead file segments.address (numberOfSegments*BitVec.ofNat 32 elfPhdrSize)
  (r.bytesRead, segments.filled (r.sources.map ram), r.file)

def alignedMemSize (memsz : Word) : Word :=
  if pageBoundary memsz < memsz then pageBoundary memsz+pageSize else pageBoundary memsz

def segmentPages (memsz : Word) : Word := memsz/pageSize+1#32

def Task.update (task : Task) (s : Phdr) : Task :=
  let task := if s.flags = pfRX then { task with textBegin := s.vaddr } else task
  if s.flags = pfRW then { task with dataBegin := s.vaddr } else task

/-- The body of the loop for a segment of type `PT_LOAD`. The result of
`file_seek` is not looked at. -/
def loadSegment (M : Memory σ) (ram : Ram) (s : Phdr) (x : Loader σ) :
    Except Stop (ErrorCode × Loader σ) := do
  let (code, memory) ← M.mmap s.vaddr (segmentPages s.memsz) x.memory
  if code ≠ .success then return (.failure, { x with memory := memory })
  let file := (fileSeek x.file s.offset .seekSet).2
  let r := fileRead file s.vaddr s.filesz
  let memory ← M.write s.vaddr (r.sources.map ram) memory
  if r.bytesRead = 0#32 then return (.failure, ⟨r.file, x.task, memory⟩)
  let memory ← if s.memsz > s.filesz then
      M.write (s.vaddr+s.filesz) (List.replicate (alignedMemSize s.memsz-s.filesz).toNat 0#8) memory
    else .ok memory
  return (.success, ⟨r.file, x.task.update s, memory⟩)

def loadEach (M : Memory σ) (ram : Ram) : List Phdr → Loader σ → Except Stop (ErrorCode × Loader σ)
  | [], x => .ok (.success, x)
  | s::rest, x =>
    if s.type = ptLoad then do
      let (code, x) ← loadSegment M ram s x
      if code ≠ .success then return (code, x)
      loadEach M ram rest x
    else loadEach M ram rest x

def segmentsOf (table : ℕ → Byte) (numberOfSegments : Word) : List Phdr :=
  (List.range numberOfSegments.toNat).map fun i => readPhdr fun j => table (elfPhdrSize*i+j)

def loadSegments (M : Memory σ) (ram : Ram) (segments : StackBuffer) (elfHeader : Ehdr) (x : Loader σ) :
    Except Stop (ErrorCode × Loader σ) :=
  let numberOfSegments := elfHeader.phnum.setWidth 32
  let (bytesRead, table, file) := loadProgramHeaderTable ram elfHeader segments numberOfSegments x.file
  if bytesRead = 0#32 then .ok (.failure, { x with file := file })
  else loadEach M ram (segmentsOf table numberOfSegments) { x with file := file }

/-- `elfFile` is what `file_open` returned. What `load_segments` returns is not
looked at. -/
def loadElf (M : Memory σ) (ram : Ram) (headerBuf segments : StackBuffer) (elfFile : Option FileT)
    (task : Task) (memory : σ) : Except Stop (ErrorCode × Task × σ) :=
  match elfFile with
  | none => .ok (.noSuchFile, task, memory)
  | some file =>
    let r := fileRead file headerBuf.address (BitVec.ofNat 32 elfHeaderSize)
    let elfHeader := readEhdr (StackBuffer.filled { headerBuf with content := fun _ => 0#8 } (r.sources.map ram))
    if r.bytesRead = 0#32 then .ok (.failure, task, memory)
    else if checkElfHeader elfHeader ≠ .success then .ok (.failure, task, memory)
    else if checkElfSupported elfHeader ≠ .success then .ok (.failure, task, memory)
    else if elfHeader.type = etExec then do
      let (_, x) ← loadSegments M ram segments elfHeader ⟨r.file, task, memory⟩
      return (.success, x.task, x.memory)
    else .ok (.success, task, memory)

/-! ## Memories -/

def machineMemory (L : Layout) : Memory Machine := ⟨VirtualMemory.mmap L, storeBytes⟩

inductive Access where
  | map (virtualAddress numPages : Word)
  | write (address : Word) (bytes : List Byte)

/-- Notes every call. `mmap` decides on its arguments alone what it returns. -/
def recorder : Memory (List Access) where
  mmap v n log := .ok (if mmapRejects v n then .invalidArgument else .success, log ++ [.map v n])
  write v bytes log := .ok (log ++ [.write v bytes])

end MikeOS.Elf
