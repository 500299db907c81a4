import MikeOS.Common
import MikeOS.Library.LinkedList
import MikeOS.Library.Extent

/-!
# Kernel heap allocator

A block header is eight bytes, the link to the next free block and the size of
the block in units of a header, the header itself not counted. The state keeps
both fields by the address of the header. Pages come from `alloc_kheap_pages`,
whose answer to a request may depend on all the requests before it.
-/

set_option autoImplicit false

namespace MikeOS.KernelMalloc
open LinkedList

structure Request where
  numPages : Word
  address : Word
  deriving DecidableEq, Repr

abbrev PageSource := List Request → Word → Word

structure Heap where
  links : Pointers Word
  blockSize : Word → Word
  requests : List Request

def Heap.boot : Heap := ⟨⟨null, fun _ => 0#32⟩, fun _ => 0#32, []⟩

def Heap.setSize (h : Heap) (block size : Word) : Heap :=
  { h with blockSize := Function.update h.blockSize block size }

def Heap.assign (h : Heap) (c : Cell Word) (v : Word) : Heap :=
  { h with links := store h.links c v }

@[simp] theorem setSize_self (h : Heap) (b n : Word) : (h.setSize b n).blockSize b = n := by
  simp [Heap.setSize]

theorem setSize_ne (h : Heap) {b c : Word} (n : Word) (hc : c ≠ b) :
    (h.setSize b n).blockSize c = h.blockSize c := by
  simp [Heap.setSize, Function.update_of_ne hc]

def headerSize : Word := 8#32

def lastCell (h : Heap) : ℕ → Cell Word → Option (Cell Word)
  | 0, _ => none
  | fuel+1, current =>
    if load h.links current ≠ null then lastCell h fuel (some (load h.links current))
    else some current

def kfree (fuel : ℕ) (address : Word) (h : Heap) : Option Heap :=
  let block := address-headerSize
  match lastCell h fuel none with
  | none => none
  | some current => some ((h.assign current block).assign (some block) null)

def pageCount (units : Word) : Word := units/pageSize+1#32

def grownSize (numPages : Word) : Word := (numPages*pageSize+headerSize-1#32)/headerSize-1#32

def increaseHeapSize (source : PageSource) (fuel : ℕ) (units : Word) (h : Heap) :
    Option (ErrorCode × Heap) :=
  let numPages := pageCount units
  let block := source h.requests numPages
  let h := { h with requests := ⟨numPages, block⟩ :: h.requests }
  if block = null then some (.failure, h)
  else
    match kfree fuel (block+headerSize) (h.setSize block (grownSize numPages)) with
    | none => none
    | some h => some (.success, h)

/-- The block found at `current` is handed out, whole when it fits exactly and
otherwise its tail. Pointers to headers count in headers. -/
def take (units : Word) (current : Cell Word) (h : Heap) : Word × Heap :=
  let block := load h.links current
  if h.blockSize block > units then
    let freeBlock := block+headerSize*h.blockSize block-headerSize*units-headerSize
    let h := (h.setSize freeBlock units).assign (some freeBlock) null
    let block := load h.links current
    (freeBlock+headerSize, h.setSize block (h.blockSize block-units))
  else (block+headerSize, h.assign current (h.links.next block))

/-- The search loop of `kmalloc`. It returns when a block was taken or the heap
could not grow. -/
def search (source : PageSource) (units : Word) : ℕ → Cell Word → Heap → Option (Word × Heap)
  | 0, _, _ => none
  | fuel+1, current, h =>
    let grown := if load h.links current = null then increaseHeapSize source fuel units h
      else some (.success, h)
    match grown with
    | none => none
    | some (.success, h) =>
      if h.blockSize (load h.links current) ≥ units then some (take units current h)
      else search source units fuel (some (load h.links current)) h
    | some (_, h) => some (null, h)

def unitsOf (size : Word) : Word := (size+headerSize-1#32)/headerSize

def kmalloc (source : PageSource) (fuel : ℕ) (size : Word) (h : Heap) : Option (Word × Heap) :=
  search source (unitsOf size) fuel none h

/-! ## Arithmetic of sizes -/

theorem toNat_unitsOf (size : Word) :
    (unitsOf size).toNat = (size.toNat+7)%2^32/8 := by
  rw [unitsOf, headerSize, BitVec.toNat_udiv, show (8#32).toNat = 8 from rfl]
  congr 1
  bv_omega

theorem unitsOf_lt (size : Word) : (unitsOf size).toNat < 2^29 := by
  rw [toNat_unitsOf]
  omega

theorem toNat_pageCount (units : Word) (h : units.toNat < 2^29) :
    (pageCount units).toNat = units.toNat/4096+1 := by
  have hd : (units/4096#32).toNat = units.toNat/4096 := BitVec.toNat_udiv
  rw [pageCount, pageSize_eq, BitVec.toNat_add, hd, show (1#32).toNat = 1 from rfl]
  omega

theorem toNat_grownSize (numPages : Word) (h0 : 0 < numPages.toNat) (h : numPages.toNat < 2^18) :
    (grownSize numPages).toNat = 512*numPages.toNat-1 := by
  have hd : ((numPages*4096#32+8#32-1#32)/8#32).toNat = 512*numPages.toNat := by
    rw [BitVec.toNat_udiv, show (8#32).toNat = 8 from rfl]
    bv_omega
  rw [grownSize, headerSize, pageSize_eq, BitVec.toNat_sub, hd, show (1#32).toNat = 1 from rfl]
  omega

end MikeOS.KernelMalloc
