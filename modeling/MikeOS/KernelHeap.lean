import MikeOS.Paging
import MikeOS.PhysicalMemory

/-!
# Pages of the kernel heap

One bit for each page from the start of the heap window on, set while the page
is available, and the page table of the window. A search that uses the value
of a function whose end was reached without a `return`, or reads outside the
bitmap, is undefined; an access behind the last entry of the page table is a
page fault.
-/

set_option autoImplicit false

namespace MikeOS.KernelHeap
open BitArray MikeOS.Memory MikeOS.Paging MikeOS.PhysicalMemory

def kheapBitmapSize : ℕ := 32768*4
def kheapBeginAddress : Word := kernelVirtualOffset+0x800000#32
def kheapEndAddress : Word := kheapBeginAddress+0x400000#32

inductive Stop where
  | undefined
  | pageFault
  deriving DecidableEq, Repr

structure Kheap where
  bitmap : Bytes
  table : ℕ → Word
  phys : PhysicalMem

def Kheap.boot (phys : PhysicalMem) : Kheap := ⟨fun _ => 0#8, fun _ => 0#32, phys⟩

/-- `sizeof(kheap_page_tables)` bytes of the bitmap are filled, not all of it. -/
def kheapInit (k : Kheap) : Kheap :=
  { k with bitmap := fun i => if i < 4*pageTableSize then 0xFF#8 else k.bitmap i }

def kheapGetPhysicalAddress (k : Kheap) (virtualAddress : Word) : Word :=
  if ¬ (virtualAddress ≥ kheapBeginAddress ∧ virtualAddress < kheapEndAddress) then 0#32
  else if pageBoundary virtualAddress ≠ virtualAddress then 4#32
  else k.table (addressToPageTableEntry virtualAddress).toNat >>> 8 <<< 8

/-! ## The search -/

def pageAvailable : Byte := 1#8

def parseLookupTable (bitmap : Bytes) (numBytes : Word) : List Byte :=
  (List.range (numBytes*8#32).toNat).map fun i => extractBit (bitmap (i/8)) (i%8)

/-- `i` is the position of the head of the list in the buffer. Nothing is
returned when the end of the buffer is reached. -/
def findContinuousBlocksIndex : List Byte → Word → Word → Word → Option Word
  | [], _, _, _ => none
  | b::buffer, i, index, numBlocks =>
    if numBlocks = 0#32 then some index
    else if b = pageAvailable then
      findContinuousBlocksIndex buffer (i+1#32) (if index = -1#32 then i else index) (numBlocks-1#32)
    else findContinuousBlocksIndex buffer (i+1#32) (-1#32) numBlocks

def numBytesOf (numPages : Word) : Word :=
  if numPages%8#32 ≠ 0#32 then numPages/8#32+1#32 else numPages/8#32

def fromByte (bitmap : Bytes) (i : ℕ) : Bytes := fun k => bitmap (i+k)

def writeFrom (bitmap : Bytes) (i : ℕ) (buffer : Bytes) : Bytes :=
  fun j => if j < i then bitmap j else buffer (j-i)

def searchBlocks (numPages : Word) : ℕ → ℕ → Bytes → Except Stop (Word × Bytes)
  | 0, _, bitmap => .ok (null, bitmap)
  | fuel+1, i, bitmap =>
    if kheapBitmapSize ≤ i then .error .undefined
    else if bitmap i ≠ 0#8 then
      if kheapBitmapSize < i+(numBytesOf numPages).toNat then .error .undefined
      else
        match findContinuousBlocksIndex (parseLookupTable (fromByte bitmap i) (numBytesOf numPages))
            0#32 (-1#32) numPages with
        | none => .error .undefined
        | some index =>
          if index ≠ -1#32 then
            .ok (kheapBeginAddress+(BitVec.ofNat 32 (i*8)+index)*pageSize,
              writeFrom bitmap i (turnBitsOff (fromByte bitmap i) index numPages))
          else searchBlocks numPages fuel (i+1) bitmap
    else searchBlocks numPages fuel (i+1) bitmap

/-- The bound of the loop is unsigned. -/
def searchBound (numPages : Word) : ℕ :=
  (BitVec.ofNat 32 kheapBitmapSize-numBytesOf numPages-1#32).toNat

theorem searchBound_def (numPages : Word) :
    searchBound numPages = (BitVec.ofNat 32 kheapBitmapSize-numBytesOf numPages-1#32).toNat := rfl

attribute [irreducible] searchBound

def getFreeContinuousBlocksAddress (numPages : Word) (bitmap : Bytes) : Except Stop (Word × Bytes) :=
  searchBlocks numPages (searchBound numPages) 0 bitmap

/-! ## The page table -/

/-- The loop counter runs from the entry of an address while it is below that
entry plus `num_pages`, unsigned. -/
def entryLoopCount (entry numPages : Word) : ℕ := (entry+numPages).toNat-entry.toNat

def overEntries (body : ℕ → Kheap → Kheap) : ℕ → ℕ → Kheap → Except Stop Kheap
  | 0, _, k => .ok k
  | count+1, i, k =>
    if i < pageTableSize then overEntries body count (i+1) (body i k) else .error .pageFault

def Kheap.setEntry (k : Kheap) (i : ℕ) (entry : Word) : Kheap :=
  { k with table := Function.update k.table i entry }

def allocEntry (image : KernelImage) (i : ℕ) (k : Kheap) : Kheap :=
  let page := allocatePhysicalPage image k.phys
  Kheap.setEntry { k with phys := page.2 } i (editEntryAttributes page.1 (readWrite ||| present))

def allocAndMapPhysicalPages (image : KernelImage) (address numPages : Word) (k : Kheap) :
    Except Stop Kheap :=
  let entry := addressToPageTableEntry address
  overEntries (allocEntry image) (entryLoopCount entry numPages) entry.toNat k

/-- Both allocating functions take an address from the search and fill in the
entries from it on, also when the address is `NULL`. -/
def searchThen (found : Except Stop (Word × Bytes)) (fill : Word → Bytes → Except Stop Kheap) :
    Except Stop (Word × Kheap) :=
  match found with
  | .error stop => .error stop
  | .ok (address, bitmap) =>
    match fill address bitmap with
    | .error stop => .error stop
    | .ok k => .ok (address, k)

def allocKheapPages (image : KernelImage) (numPages : Word) (k : Kheap) : Except Stop (Word × Kheap) :=
  searchThen (getFreeContinuousBlocksAddress numPages k.bitmap) fun address bitmap =>
    allocAndMapPhysicalPages image address numPages { k with bitmap := bitmap }

def mapEntry (physicalAddress : Word) (first i : ℕ) (k : Kheap) : Kheap :=
  k.setEntry i (editEntryAttributes (physicalAddress+BitVec.ofNat 32 (i-first)*pageSize)
    (readWrite ||| present))

def mapPhysicalAddressToKheap (physicalAddress numPages : Word) (k : Kheap) :
    Except Stop (Word × Kheap) :=
  searchThen (getFreeContinuousBlocksAddress numPages k.bitmap) fun address bitmap =>
    let phys := (registerPhysicalPages physicalAddress numPages k.phys).2
    let entry := addressToPageTableEntry address
    overEntries (mapEntry physicalAddress entry.toNat) (entryLoopCount entry numPages)
      entry.toNat { k with bitmap := bitmap, phys := phys }

def freeEntry (i : ℕ) (k : Kheap) : Kheap :=
  Kheap.setEntry { k with phys := (freePhysicalPage (k.table i) k.phys).2 } i 0#32

def freeKheapPages (address numPages : Word) (k : Kheap) : Except Stop (ErrorCode × Kheap) :=
  if ¬ (address ≥ kheapBeginAddress ∧ address < kheapEndAddress) then .ok (.invalidArgument, k)
  else if pageBoundary address ≠ address then .ok (.invalidArgument, k)
  else
    let bitIndex := addressToBitIndex address kheapBeginAddress
    let k := { k with bitmap := turnBitsOn k.bitmap bitIndex numPages }
    let entry := addressToPageTableEntry address
    match overEntries freeEntry (entryLoopCount entry numPages) entry.toNat k with
    | .error stop => .error stop
    | .ok k => .ok (.success, k)

/-! ## What a call that returned did -/

theorem overEntries_inv {P : Kheap → Prop} {body : ℕ → Kheap → Kheap} (hstep : ∀ i k, P k → P (body i k))
    {count i : ℕ} {k k' : Kheap} (hk : P k) (h : overEntries body count i k = .ok k') : P k' := by
  induction count generalizing i k with
  | zero =>
    cases h
    exact hk
  | succ count ih =>
    rw [overEntries] at h
    split at h
    · exact ih (hstep i k hk) h
    · cases h

theorem overEntries_inside {P : Kheap → Prop} {body : ℕ → Kheap → Kheap} (hstep : ∀ i k, P k → P (body i k))
    (hbody : ∀ i k q, q ≠ i → (body i k).table q = k.table q) (count i : ℕ) {k : Kheap}
    (hi : i+count ≤ 1024) (hk : P k) :
    ∃ k', overEntries body count i k = .ok k' ∧ P k' ∧
      ∀ q, q < i ∨ i+count ≤ q → k'.table q = k.table q := by
  induction count generalizing i k with
  | zero => exact ⟨k,rfl,hk,fun _ _ => rfl⟩
  | succ count ih =>
    obtain ⟨k',hk',hP,htab⟩ := ih (i+1) (k := body i k) (by omega) (hstep i k hk)
    refine ⟨k',?_,hP,fun q hq => ?_⟩
    · rw [overEntries, if_pos (show i < pageTableSize by rw [pageTableSize]; omega), hk']
    · rw [htab q (by omega), hbody i k q (by omega)]

theorem overEntries_fill {P : Kheap → Prop} {body : ℕ → Kheap → Kheap} {e : ℕ → Word}
    (hstep : ∀ i k, P k → P (body i k))
    (hbody : ∀ i k, P k → (body i k).table = Function.update k.table i (e i)) (count i : ℕ) {k : Kheap}
    (hi : i+count ≤ pageTableSize) (hk : P k) :
    ∃ k', overEntries body count i k = .ok k' ∧ P k' ∧
      ∀ q, k'.table q = if i ≤ q ∧ q < i+count then e q else k.table q := by
  induction count generalizing i k with
  | zero => exact ⟨k,rfl,hk,fun q => by rw [if_neg (by omega)]⟩
  | succ count ih =>
    obtain ⟨k',hk',hP,htab⟩ := ih (i+1) (k := body i k) (by omega) (hstep i k hk)
    refine ⟨k',?_,hP,fun q => ?_⟩
    · rw [overEntries, if_pos (show i < pageTableSize by omega), hk']
    · rw [htab q, hbody i k hk]
      by_cases hq : q = i
      · rw [hq, if_neg (by omega), if_pos (by omega), Function.update_self]
      · rw [Function.update_of_ne hq]
        exact if_congr (by omega) rfl rfl

/-- A loop that runs past the last entry faults there. -/
theorem overEntries_fault {body : ℕ → Kheap → Kheap} {count i : ℕ} (k : Kheap) (hi : i ≤ pageTableSize)
    (h : pageTableSize < i+count) : overEntries body count i k = .error .pageFault := by
  induction count generalizing i k with
  | zero => omega
  | succ count ih =>
    rw [overEntries]
    split
    · exact ih (body i k) (by omega) (by omega)
    · rfl

theorem searchThen_ok {found : Except Stop (Word × Bytes)} {fill : Word → Bytes → Except Stop Kheap}
    {address : Word} {k : Kheap} (h : searchThen found fill = .ok (address, k)) :
    ∃ bitmap, found = .ok (address, bitmap) ∧ fill address bitmap = .ok k := by
  rcases found with stop | ⟨a,bitmap⟩
  · cases h
  · rw [searchThen] at h
    cases hfill : fill a bitmap with
    | error stop =>
      rw [hfill] at h
      cases h
    | ok k₁ =>
      rw [hfill] at h
      cases h
      exact ⟨bitmap,rfl,hfill⟩

end MikeOS.KernelHeap
