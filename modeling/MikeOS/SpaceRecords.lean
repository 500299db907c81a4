import MikeOS.AddressSpaces
import MikeOS.KernelMallocRuns

/-!
# Records of address spaces

An address space is known by its record, eight bytes from `kmalloc`, so the
records and the block headers share the cells of the pages that `kmalloc` got.
A cell holds two words, the link and the size of a header or the two fields of
a record. The cells are kept apart from the frames; a call that touches memory
outside them is undefined, and so is the use of a heap page that was freed and
taken again before `cr3` was loaded, because `tlb_flush` drops the translation
of page zero only.
-/

set_option autoImplicit false

namespace MikeOS.SpaceRecords
open LinkedList BitArray MikeOS.Memory MikeOS.Paging MikeOS.PhysicalMemory MikeOS.KernelHeap MikeOS.KernelHeapSearch
open MikeOS.KernelMalloc (Heap Request headerSize pageCount grownSize take unitsOf)
open MikeOS.KernelHeapRuns hiding State returned Op Inv step
open MikeOS.Mmu MikeOS.VirtualMemory MikeOS.FramePool MikeOS.PageDirectory MikeOS.FrameDemand
open MikeOS.AddressSpaces (Separate)

/-- Why a call does not return: the machine stops it, or a loop never ends. -/
inductive Fault where
  | stop (reason : Stop)
  | endless
  deriving DecidableEq, Repr

/-- `stale` are the heap pages freed since `cr3` was loaded. -/
structure Kernel where
  machine : Machine
  heap : Heap
  stale : List ℕ

def onMachine {α : Type} (f : Machine → Except Stop (α × Machine)) (k : Kernel) : Except Fault (α × Kernel) :=
  match f k.machine with
  | .ok (a, m) => .ok (a, { k with machine := m })
  | .error reason => .error (.stop reason)

def undefinedUnless (p : Prop) [Decidable p] : Except Fault Unit :=
  if p then .ok () else .error (.stop .undefined)

/-! ## kmalloc on the pages of the machine -/

def heapPage (address : Word) : ℕ := (address.toNat-windowBase)/4096

def Reached (address numPages : Word) (k : Kernel) : Prop :=
  ∀ p ∈ k.stale, p < heapPage address ∨ heapPage address+numPages.toNat ≤ p

instance (address numPages : Word) (k : Kernel) : Decidable (Reached address numPages k) :=
  inferInstanceAs (Decidable (∀ p ∈ k.stale, _))

def takePages (L : Layout) (numPages : Word) (k : Kernel) : Except Fault (Word × Kernel) := do
  let (address, k) ← onMachine (onHeap (allocKheapPages L.toKernelImage numPages)) k
  undefinedUnless (address = null ∨ Reached address numPages k)
  return (address, k)

def IsCell (h : Heap) (a : Word) : Prop :=
  a.toNat%8 = 0 ∧ ∃ r ∈ h.requests, r.address ≠ null ∧ r.address.toNat ≤ a.toNat ∧
    a.toNat+8 ≤ r.address.toNat+4096*r.numPages.toNat

instance (h : Heap) (a : Word) : Decidable (IsCell h a) := inferInstanceAs (Decidable (_ ∧ _))

def lastCell (h : Heap) : ℕ → Cell Word → Except Fault (Cell Word)
  | 0, _ => .error .endless
  | fuel+1, current => do
    if load h.links current ≠ null then
      undefinedUnless (IsCell h (load h.links current))
      lastCell h fuel (some (load h.links current))
    else return current

def kfree (fuel : ℕ) (address : Word) (h : Heap) : Except Fault Heap := do
  let block := address-headerSize
  let current ← lastCell h fuel none
  undefinedUnless (IsCell h block)
  return (h.assign current block).assign (some block) null

def increaseHeapSize (L : Layout) (fuel : ℕ) (units : Word) (k : Kernel) : Except Fault (ErrorCode × Kernel) := do
  let numPages := pageCount units
  let (block, k) ← takePages L numPages k
  let h := { k.heap with requests := ⟨numPages, block⟩ :: k.heap.requests }
  if block = null then return (.failure, { k with heap := h })
  let h ← kfree fuel (block+headerSize) (h.setSize block (grownSize numPages))
  return (.success, { k with heap := h })

def search (L : Layout) (units : Word) : ℕ → Cell Word → Kernel → Except Fault (Word × Kernel)
  | 0, _, _ => .error .endless
  | fuel+1, current, k => do
    let (code, k) ← if load k.heap.links current = null then increaseHeapSize L fuel units k
      else .ok (ErrorCode.success, k)
    if code ≠ .success then return (null, k)
    let block := load k.heap.links current
    undefinedUnless (IsCell k.heap block)
    if k.heap.blockSize block ≥ units then
      let (address, h) := take units current k.heap
      undefinedUnless (IsCell k.heap (address-headerSize))
      return (address, { k with heap := h })
    search L units fuel (some block) k

def kmalloc (L : Layout) (fuel : ℕ) (size : Word) (k : Kernel) : Except Fault (Word × Kernel) :=
  search L (unitsOf size) fuel none k

/-! ## Address spaces by their records -/

def Kernel.record (k : Kernel) (vmm : Word) : Vas := ⟨k.heap.links.next vmm, k.heap.blockSize vmm⟩

def storeRecord (vmm : Word) (record : Vas) (h : Heap) : Heap :=
  (h.assign (some vmm) record.pageDirectory).setSize vmm record.physicalPgdAddress

/-- `NULL` where the source returns it. `alloc_page_dir` stores both fields of
the record after it took its page. -/
def allocVirtualAddressSpace (L : Layout) (fuel : ℕ) (k : Kernel) : Except Fault (Word × Kernel) := do
  let (vmm, k) ← kmalloc L fuel 8#32 k
  if vmm = null then return (null, k)
  let (record, k) ← onMachine (allocPageDir L) k
  match record with
  | none =>
    let h ← kfree fuel vmm k.heap
    return (null, { k with heap := h })
  | some record =>
    undefinedUnless (Reached record.pageDirectory 1#32 k ∧ IsCell k.heap vmm)
    return (vmm, { k with heap := storeRecord vmm record k.heap })

def switchVirtualAddressSpace (vmm : Word) (k : Kernel) : Except Fault (ErrorCode × Kernel) := do
  undefinedUnless (IsCell k.heap vmm)
  let (code, m) := VirtualMemory.switchVirtualAddressSpace (k.record vmm) k.machine
  return (code, { k with machine := m, stale := if code = .success then [] else k.stale })

def freeVirtualAddressSpace (fuel : ℕ) (vmm : Word) (k : Kernel) : Except Fault (ErrorCode × Kernel) := do
  undefinedUnless (IsCell k.heap vmm)
  let record := k.record vmm
  let (code, k) ← onMachine (VirtualMemory.freeVirtualAddressSpace record) k
  let h ← kfree fuel vmm k.heap
  return (code, { k with heap := h, stale := heapPage record.pageDirectory :: k.stale })

/-! ## Runs -/

inductive Op where
  | heap (numPages : Word)
  | alloc
  | switch (vmm : Word)
  | mmap (virtualAddress numPages : Word)
  | free (vmm : Word)
  deriving DecidableEq, Repr

/-- The addresses of the records of the address spaces made and not torn down. -/
inductive State where
  | running (k : Kernel) (live : List Word)
  | undefined

def returned {α : Type} (next : α → State) : Except Fault α → Option State
  | .ok a => some (next a)
  | .error (.stop .undefined) => some .undefined
  | .error _ => none

/-- Other code of the kernel takes pages of the heap. Only address spaces that
exist are switched to or torn down, and the one that is torn down is in `cr3`. -/
def step (L : Layout) (fuel : ℕ) : State → Op → Option State
  | .undefined, _ => none
  | .running k live, .heap n =>
    if n = 0#32 then none else returned (fun r => .running r.2 live) (takePages L n k)
  | .running k live, .alloc =>
    returned (fun r => .running r.2 (if r.1 = null then live else r.1::live)) (allocVirtualAddressSpace L fuel k)
  | .running k live, .switch vmm =>
    if vmm ∈ live then returned (fun r => .running r.2 live) (switchVirtualAddressSpace vmm k) else none
  | .running k live, .mmap v n => returned (fun r => .running r.2 live) (onMachine (VirtualMemory.mmap L v n) k)
  | .running k live, .free vmm =>
    if vmm ∈ live ∧ k.machine.cr3 = (k.record vmm).physicalPgdAddress then
      returned (fun r => .running r.2 (live.erase vmm)) (freeVirtualAddressSpace fuel vmm k)
    else none

def Isolated (L : Layout) : State → Prop
  | .undefined => False
  | .running k live => Separate L k.machine (live.map k.record)

/-! ## Cells -/

/-- A place of a record: the free block at the start of its page ends before it. -/
def Spot (h : Heap) (v : Word) : Prop :=
  IsCell h v ∧ v.toNat%4096 ≠ 0 ∧ (h.blockSize (pageBoundary v)).toNat ≤ v.toNat%4096/8

/-- A header that starts a page, or one in front of a record that was freed. -/
def Header (h : Heap) (live : List Word) (b : Word) : Prop :=
  IsCell h b ∧ (b.toNat%4096 = 0 ∨ Spot h (b+headerSize) ∧ b+headerSize ∉ live)

/-- Up to `q`, its end or the first record that lies on it, the free list is
intact. -/
structure Cells (h : Heap) (live free : List Word) (q : Word) : Prop where
  pages : ∀ r ∈ h.requests, r.address ≠ null ∧ r.numPages = 1#32 ∧ r.address.toNat%4096 = 0
  sizes : ∀ r ∈ h.requests, h.blockSize r.address ≠ 1#32 ∧ (h.blockSize r.address).toNat ≤ 511
  spots : ∀ v ∈ live, Spot h v
  distinct : live.Nodup
  linked : Linked null h.links.next h.links.head free q
  nodup : free.Nodup
  reaches : q = null ∨ q ∈ live
  headers : ∀ b ∈ free, b ∉ live ∧ Header h live b

structure Keeps (live : List Word) (h h' : Heap) : Prop where
  next : ∀ v ∈ live, h'.links.next v = h.links.next v
  size : ∀ v ∈ live, h'.blockSize v = h.blockSize v

section
variable {h h' : Heap} {live free : List Word} {q : Word}

theorem Keeps.trans {h₁ : Heap} (h₀ : Keeps live h h₁) (k₁ : Keeps live h₁ h') : Keeps live h h' :=
  ⟨fun v hv => (k₁.next v hv).trans (h₀.next v hv),fun v hv => (k₁.size v hv).trans (h₀.size v hv)⟩

theorem isCell_iff (hc : Cells h live free q) (a : Word) :
    IsCell h a ↔ a.toNat%8 = 0 ∧ ∃ r ∈ h.requests, r.address = pageBoundary a := by
  refine and_congr_right fun hal => exists_congr fun r => and_congr_right fun hr => ?_
  obtain ⟨hne,hone,hpage⟩ := hc.pages r hr
  rw [hone, show (1#32).toNat = 1 from rfl, ← BitVec.toNat_inj, toNat_pageBoundary]
  constructor
  · rintro ⟨-,h₁,h₂⟩
    omega
  · intro he
    exact ⟨hne,by omega,by omega⟩

theorem isCell_congr (he : h'.requests = h.requests) (a : Word) : IsCell h' a ↔ IsCell h a := by
  rw [IsCell, IsCell, he]

theorem start_size (hc : Cells h live free q) {b : Word} (hb : IsCell h b) (hal : b.toNat%4096 = 0) :
    h.blockSize b ≠ 1#32 ∧ (h.blockSize b).toNat ≤ 511 := by
  obtain ⟨-,r,hr,he⟩ := (isCell_iff hc b).mp hb
  rw [(pageBoundary_eq_iff b).mpr hal] at he
  exact he ▸ hc.sizes r hr

structure Shrinks (h h' : Heap) : Prop where
  requests : h'.requests = h.requests
  size : ∀ a, a.toNat%4096 = 0 → (h'.blockSize a).toNat ≤ (h.blockSize a).toNat

theorem Shrinks.spot (hs : Shrinks h h') {v : Word} (hv : Spot h v) : Spot h' v := by
  refine ⟨(isCell_congr hs.requests v).mpr hv.1,hv.2.1,(hs.size _ ?_).trans hv.2.2⟩
  rw [toNat_pageBoundary]
  omega

theorem Shrinks.header (hs : Shrinks h h') {live' : List Word} {b : Word} (hb : Header h live b)
    (hlive : b+headerSize ∈ live' → b+headerSize ∈ live) : Header h' live' b :=
  ⟨(isCell_congr hs.requests b).mpr hb.1,hb.2.imp_right fun hf => ⟨hs.spot hf.1,mt hlive hf.2⟩⟩

/-! ## A record is stored -/

theorem cells_store (hc : Cells h live free q) {v : Word} (hs : Spot h v) (hv : v ∉ live)
    (hfree : ∀ b ∈ free, b.toNat%4096 ≠ 0 → b+headerSize ≠ v) (record : Vas) :
    (∃ free' q', Cells (storeRecord v record h) (v::live) free' q') ∧ Keeps live h (storeRecord v record h) := by
  have hsize : ∀ a, a ≠ v → (storeRecord v record h).blockSize a = h.blockSize a := fun a ha =>
    Function.update_of_ne ha _ _
  have hnext : ∀ a, a ≠ v → (storeRecord v record h).links.next a = h.links.next a := fun a ha =>
    store_next_ne _ _ ha
  have hstart : ∀ a : Word, a.toNat%4096 = 0 → a ≠ v := fun a ha he => hs.2.1 (he ▸ ha)
  have hshrinks : Shrinks h (storeRecord v record h) := ⟨rfl,fun a ha => by rw [hsize a (hstart a ha)]⟩
  have hkeeps : Keeps live h (storeRecord v record h) :=
    ⟨fun w hw => hnext w (ne_of_mem_of_not_mem hw hv),fun w hw => hsize w (ne_of_mem_of_not_mem hw hv)⟩
  have hheaders : ∀ b ∈ free, b ≠ v → b ∉ v::live ∧ Header (storeRecord v record h) (v::live) b := by
    intro b hb hbv
    obtain ⟨hbl,hhead⟩ := hc.headers b hb
    refine ⟨List.not_mem_cons_of_ne_of_not_mem hbv hbl,(isCell_congr rfl b).mpr hhead.1,?_⟩
    by_cases hal : b.toNat%4096 = 0
    · exact Or.inl hal
    · obtain ⟨hspot,hnot⟩ := hhead.2.resolve_left hal
      exact Or.inr ⟨hshrinks.spot hspot,List.not_mem_cons_of_ne_of_not_mem (hfree b hb hal) hnot⟩
  have hnew : ∀ free' q', Linked null (storeRecord v record h).links.next h.links.head free' q' →
      free' <+: free → v ∉ free' → (q' = null ∨ q' ∈ v::live) → Cells (storeRecord v record h) (v::live) free' q' := by
    intro free' q' hlinked hpre hnot hreach
    refine ⟨hc.pages,fun r hr => ?_,List.forall_mem_cons.mpr ⟨hshrinks.spot hs,fun w hw => hshrinks.spot (hc.spots w hw)⟩,
      List.nodup_cons.mpr ⟨hv,hc.distinct⟩,hlinked,hc.nodup.sublist hpre.sublist,hreach,fun b hb =>
        hheaders b (hpre.subset hb) (ne_of_mem_of_not_mem hb hnot)⟩
    rw [hsize _ (hstart _ (hc.pages r hr).2.2)]
    exact hc.sizes r hr
  refine ⟨?_,hkeeps⟩
  by_cases hmem : v ∈ free
  · obtain ⟨pre,post,rfl⟩ := List.append_of_mem hmem
    obtain ⟨r,hpre,rfl,-,-⟩ := linked_append.mp hc.linked
    have hnot : r ∉ pre := fun hm => (List.disjoint_of_nodup_append hc.nodup) hm List.mem_cons_self
    exact ⟨pre,r,hnew pre r (linked_frame hpre fun x hx => hnext x (ne_of_mem_of_not_mem hx hnot))
      ⟨r::post,rfl⟩ hnot (Or.inr List.mem_cons_self)⟩
  · exact ⟨free,q,hnew free q (linked_frame hc.linked fun x hx => hnext x (ne_of_mem_of_not_mem hx hmem))
      (List.prefix_refl free) hmem (hc.reaches.imp_right (List.mem_cons_of_mem v))⟩

/-! ## A block is taken -/

structure HandsOut (h : Heap) (live : List Word) (v : Word) (h' : Heap) : Prop where
  spot : Spot h' v
  fresh : v ∉ live
  header : IsCell h (v-headerSize)
  requests : h'.requests = h.requests
  keeps : Keeps live h h'
  cells : ∃ free q, Cells h' live free q ∧ ∀ b ∈ free, b.toNat%4096 ≠ 0 → b+headerSize ≠ v

theorem pageBoundary_in {b v : Word} (hal : b.toNat%4096 = 0) (hle : b.toNat ≤ v.toNat) (hlt : v.toNat < b.toNat+4096) :
    pageBoundary v = b := by
  rw [← BitVec.toNat_inj, toNat_pageBoundary]
  omega

/-- The last cell but one of the first block `b` of a page is `g`. -/
structure Splits (h : Heap) (b g : Word) : Prop where
  aligned : b.toNat%4096 = 0
  two : 2 ≤ (h.blockSize b).toNat
  le : (h.blockSize b).toNat ≤ 511
  place : g.toNat = b.toNat+8*((h.blockSize b).toNat-2)

def split (b g : Word) (h : Heap) : Heap :=
  ((h.setSize g 1#32).assign (some g) null).setSize b ((h.setSize g 1#32).blockSize b-1#32)

theorem splits_of_cells (hc : Cells h live free q) {b : Word} (hb : IsCell h b) (hal : b.toNat%4096 = 0)
    (hpos : h.blockSize b ≠ 0#32) : Splits h b (b+headerSize*h.blockSize b-headerSize*1#32-headerSize) := by
  obtain ⟨hone,hle⟩ := start_size hc hb hal
  refine ⟨hal,by bv_omega,hle,?_⟩
  simp only [headerSize]
  bv_omega

section
variable {b g : Word}

theorem Splits.record (hs : Splits h b g) : (g+headerSize).toNat = b.toNat+8*((h.blockSize b).toNat-1) := by
  obtain ⟨hal,htwo,hle,hg⟩ := hs
  rw [headerSize]
  bv_omega

/-- Records and headers in front of freed ones lie behind the first block. -/
theorem Splits.behind (hs : Splits h b g) {x : Word} (hx : Spot h x) : x ≠ g+headerSize ∧ x ≠ g := by
  obtain ⟨hal,htwo,hle,hg⟩ := hs
  have hrecord := Splits.record ⟨hal,htwo,hle,hg⟩
  have hpage : b.toNat ≤ x.toNat → x.toNat < b.toNat+4096 → (h.blockSize b).toNat ≤ x.toNat%4096/8 := fun h₁ h₂ => by
    rw [← pageBoundary_in hal h₁ h₂]
    exact hx.2.2
  constructor
  · rintro rfl
    have := hpage (by omega) (by omega)
    omega
  · rintro rfl
    have := hpage (by omega) (by omega)
    omega

theorem Splits.start (hs : Splits h b g) (hg : g.toNat%4096 = 0) : g = b := by
  obtain ⟨hal,htwo,hle,hplace⟩ := hs
  refine BitVec.eq_of_toNat_eq ?_
  omega

theorem split_next {a : Word} (ha : a ≠ g) : (split b g h).links.next a = h.links.next a := store_next_ne _ _ ha

theorem split_size {a : Word} (ha : a ≠ g) (hb : a ≠ b) : (split b g h).blockSize a = h.blockSize a :=
  (Function.update_of_ne hb _ _).trans (Function.update_of_ne ha _ _)

theorem Splits.size (hs : Splits h b g) : ((split b g h).blockSize b).toNat < (h.blockSize b).toNat ∧
    (split b g h).blockSize b ≠ 1#32 := by
  have htwo := hs.two
  have hnew : (split b g h).blockSize b = (h.setSize g 1#32).blockSize b-1#32 := Function.update_self _ _ _
  rw [hnew]
  by_cases hg : g = b
  · rw [hg, KernelMalloc.setSize_self]
    exact ⟨by simp; omega,by decide⟩
  · have hthree : 3 ≤ (h.blockSize b).toNat := by
      by_contra hlt
      have := hs.place
      exact hg (BitVec.eq_of_toNat_eq (by omega))
    rw [KernelMalloc.setSize_ne h 1#32 (Ne.symm hg)]
    constructor <;> bv_omega

theorem Splits.shrinks (hs : Splits h b g) : Shrinks h (split b g h) := by
  refine ⟨rfl,fun a ha => ?_⟩
  by_cases hb : a = b
  · exact hb ▸ hs.size.1.le
  · have hg : a ≠ g := fun he => hb (he.trans (hs.start (he ▸ ha)))
    rw [split_size hg hb]

theorem Splits.cell (hs : Splits h b g) (hc : Cells h live free q) (hb : IsCell h b) {x : Word}
    (hx : x.toNat%8 = 0) (hle : b.toNat ≤ x.toNat) (hlt : x.toNat < b.toNat+4096) : IsCell h x := by
  obtain ⟨-,r,hr,he⟩ := (isCell_iff hc b).mp hb
  rw [(pageBoundary_eq_iff b).mpr hs.aligned] at he
  exact (isCell_iff hc x).mpr ⟨hx,r,hr,by rw [he, pageBoundary_in hs.aligned hle hlt]⟩

theorem Splits.spot (hs : Splits h b g) (hc : Cells h live free q) (hb : IsCell h b) :
    Spot (split b g h) (g+headerSize) := by
  have hrecord := hs.record
  have hsize := hs.size.1
  have htwo := hs.two
  have hle := hs.le
  have hal := hs.aligned
  refine ⟨hs.cell hc hb (by omega) (by omega) (by omega),by omega,?_⟩
  rw [pageBoundary_in hal (by omega) (by omega)]
  omega

theorem Splits.keeps (hs : Splits h b g) (hc : Cells h live free q) : Keeps live h (split b g h) := by
  have hne : ∀ v ∈ live, v ≠ g ∧ v ≠ b := fun v hv =>
    ⟨(hs.behind (hc.spots v hv)).2,fun he => (hc.spots v hv).2.1 (he ▸ hs.aligned)⟩
  exact ⟨fun v hv => split_next (hne v hv).1,fun v hv => split_size (hne v hv).1 (hne v hv).2⟩

/-- The header at `g` is in front of no freed record, so on the list it can only
be the first block. -/
theorem Splits.on_list (hs : Splits h b g) (hc : Cells h live free q) (hg : g ∈ free) : g = b := by
  rcases (hc.headers g hg).2.2 with hstart | hf
  · exact hs.start hstart
  · exact absurd rfl (hs.behind hf.1).1

theorem Splits.cells (hs : Splits h b g) {pre post : List Word} (hc : Cells h live (pre ++ b::post) q) :
    ∃ free' q', Cells (split b g h) live free' q' ∧ ∀ x ∈ free', x.toNat%4096 ≠ 0 → x+headerSize ≠ g+headerSize := by
  have hshrinks := hs.shrinks
  have hsizes : ∀ r ∈ h.requests, (split b g h).blockSize r.address ≠ 1#32 ∧
      ((split b g h).blockSize r.address).toNat ≤ 511 := by
    intro r hr
    refine ⟨?_,(hshrinks.size _ (hc.pages r hr).2.2).trans (hc.sizes r hr).2⟩
    by_cases hb : r.address = b
    · exact hb ▸ hs.size.2
    · rw [split_size (fun he => hb (he.trans (hs.start (he ▸ (hc.pages r hr).2.2)))) hb]
      exact (hc.sizes r hr).1
  have hnew : ∀ free' q', Linked null (split b g h).links.next h.links.head free' q' → free' <+: pre ++ b::post →
      (q' = null ∨ q' ∈ live) → ∃ free' q', Cells (split b g h) live free' q' ∧
      ∀ x ∈ free', x.toNat%4096 ≠ 0 → x+headerSize ≠ g+headerSize := by
    intro free' q' hlinked hpre hreach
    refine ⟨free',q',⟨hc.pages,hsizes,fun v hv => hshrinks.spot (hc.spots v hv),hc.distinct,hlinked,
      hc.nodup.sublist hpre.sublist,hreach,fun x hx => ?_⟩,fun x hx hal => ?_⟩
    · obtain ⟨hxl,hhead⟩ := hc.headers x (hpre.subset hx)
      exact ⟨hxl,hshrinks.header hhead fun hm => hm⟩
    · obtain ⟨-,hhead⟩ := hc.headers x (hpre.subset hx)
      exact (hs.behind (hhead.2.resolve_left hal).1).1
  by_cases hg : g ∈ pre ++ b::post
  · obtain rfl := hs.on_list hc hg
    obtain ⟨r,hpre,hr,hne,-⟩ := linked_append.mp hc.linked
    have hnot : g ∉ pre := fun hm => (List.disjoint_of_nodup_append hc.nodup) hm List.mem_cons_self
    refine hnew (pre ++ [g]) null (linked_append.mpr ⟨r,?_,hr,hne,?_⟩) ⟨post,by simp⟩ (Or.inl rfl)
    · exact linked_frame hpre fun x hx => split_next (ne_of_mem_of_not_mem hx hnot)
    · exact store_next_self _ _ _
  · exact hnew _ q (linked_frame hc.linked fun x hx => split_next (ne_of_mem_of_not_mem hx hg)) (List.prefix_refl _)
      hc.reaches

end

theorem take_split {units b g : Word} {c : Cell Word} (hload : load h.links c = b) (hgt : h.blockSize b > units)
    (hg : b+headerSize*h.blockSize b-headerSize*units-headerSize = g)
    (hreload : load (store h.links (some g) null) c = b) :
    take units c h = (g+headerSize, ((h.setSize g units).assign (some g) null).setSize b
      ((h.setSize g units).blockSize b-units)) := by
  rw [take, hload, if_pos hgt, hg]
  simp only [Heap.assign, Heap.setSize, hreload]

/-- The first block of a page gives its last cell away. -/
theorem take_start {pre post : List Word} {b : Word} (hc : Cells h live (pre ++ b::post) q) (hal : b.toNat%4096 = 0)
    (hpos : h.blockSize b ≠ 0#32) :
    HandsOut h live (take 1#32 (cellAfter pre) h).1 (take 1#32 (cellAfter pre) h).2 := by
  obtain ⟨-,hcell,-⟩ := hc.headers b (by simp)
  have hs := splits_of_cells hc hcell hal hpos
  obtain ⟨g,hg⟩ : ∃ g, b+headerSize*h.blockSize b-headerSize*1#32-headerSize = g := ⟨_,rfl⟩
  rw [hg] at hs
  have htwo := hs.two
  have hle := hs.le
  have hplace := hs.place
  obtain ⟨r,hpre,hr,-,-⟩ := linked_append.mp hc.linked
  rw [hr] at hpre
  have hnot : g ∉ pre := fun hm => by
    rw [hs.on_list hc (List.mem_append_left _ hm)] at hm
    exact (List.disjoint_of_nodup_append hc.nodup) hm List.mem_cons_self
  have hpre' : Linked null (store h.links (some g) null).next h.links.head pre b :=
    linked_frame hpre fun x hx => store_next_ne _ _ (ne_of_mem_of_not_mem hx hnot)
  rw [take_split (load_cellAfter hpre) (by bv_omega) hg (load_cellAfter hpre')]
  refine ⟨hs.spot hc hcell,fun hv => (hs.behind (hc.spots _ hv)).1 rfl,?_,rfl,hs.keeps hc,hs.cells hc⟩
  rw [BitVec.add_sub_cancel]
  exact hs.cell hc hcell (by have := hs.aligned; omega) (by omega) (by have := hs.aligned; omega)

/-- A block of one unit is taken off the list. -/
theorem take_unit {pre post : List Word} {b : Word} (hc : Cells h live (pre ++ b::post) q) (hone : h.blockSize b = 1#32) :
    HandsOut h live (take 1#32 (cellAfter pre) h).1 (take 1#32 (cellAfter pre) h).2 := by
  obtain ⟨hbl,hcell,hhead⟩ := hc.headers b (by simp)
  obtain ⟨hspot,hfresh⟩ := hhead.resolve_left fun hal => (start_size hc hcell hal).1 hone
  obtain ⟨r,hpre,hr,-,-⟩ := linked_append.mp hc.linked
  rw [hr] at hpre
  have hb : ∀ x ∈ pre ++ post, x ≠ b := by
    have hnodup := hc.nodup
    rw [List.nodup_middle, List.nodup_cons] at hnodup
    exact fun x hx => ne_of_mem_of_not_mem hx hnodup.1
  rw [take, load_cellAfter hpre, if_neg (by rw [hone]; decide)]
  refine ⟨hspot,hfresh,by rwa [BitVec.add_sub_cancel],rfl,⟨fun v hv => ?_,fun v hv => rfl⟩,pre ++ post,q,
    ⟨hc.pages,hc.sizes,hc.spots,hc.distinct,linked_unlink hc.nodup hc.linked,hc.nodup.sublist (by simp),hc.reaches,
      fun x hx => hc.headers x (by simp only [List.mem_append, List.mem_cons] at hx ⊢; tauto)⟩,fun x hx _ he => ?_⟩
  · exact store_next_of_notMem fun hm => (hc.headers v (List.mem_append_left _ hm)).1 hv
  · exact hb x hx (by simpa [headerSize] using he)

/-! ## A record is freed, and the heap grows -/

def push (free : List Word) (b : Word) (h : Heap) : Heap := (h.assign (cellAfter free) b).assign (some b) null

theorem push_keeps (hfree : ∀ b ∈ free, b ∉ live) {b : Word} (hb : b ∉ live) : Keeps live h (push free b h) := by
  refine ⟨fun v hv => ?_,fun v hv => rfl⟩
  exact (store_next_ne _ _ (ne_of_mem_of_not_mem hv hb)).trans (store_next_of_notMem fun hm => hfree v hm hv)

theorem cell_ne_null {a : Word} (ha : IsCell h a) : a ≠ null := by
  obtain ⟨-,r,hr,hne,hle,-⟩ := ha
  have hpos := KernelMallocRuns.word_pos hne
  rintro rfl
  rw [null_eq, show (0#32).toNat = 0 from rfl] at hle
  omega

theorem spot_header (hc : Cells h live free q) {v : Word} (hv : Spot h v) : IsCell h (v-headerSize) := by
  obtain ⟨⟨hal,hpage⟩,hpos,-⟩ := hv
  obtain ⟨-,r,hr,he⟩ := (isCell_iff hc v).mp ⟨hal,hpage⟩
  have hval : (v-headerSize).toNat+8 = v.toNat := by
    rw [headerSize]
    bv_omega
  refine (isCell_iff hc _).mpr ⟨by omega,r,hr,?_⟩
  rw [he, ← BitVec.toNat_inj, toNat_pageBoundary, toNat_pageBoundary]
  omega

theorem cells_free (hc : Cells h live free null) {v : Word} (hv : v ∈ live) (hb : v-headerSize ∉ live) :
    (∃ free', Cells (push free (v-headerSize) h) (live.erase v) free' null) ∧
      Keeps live h (push free (v-headerSize) h) := by
  have hspot := hc.spots v hv
  have hcell := spot_header hc hspot
  have hshrinks : Shrinks h (push free (v-headerSize) h) := ⟨rfl,fun a _ => le_rfl⟩
  have hsub : ∀ x, x ∈ live.erase v → x ∈ live := fun x hx => List.mem_of_mem_erase hx
  obtain ⟨free',hnodup,hmem,hlinked⟩ := linked_push hc.nodup (cell_ne_null hcell) hc.linked
  refine ⟨⟨free',hc.pages,hc.sizes,fun x hx => hshrinks.spot (hc.spots x (hsub x hx)),hc.distinct.erase v,hlinked,hnodup,
    Or.inl rfl,fun x hx => ?_⟩,push_keeps (fun b hb => (hc.headers b hb).1) hb⟩
  rcases hmem x hx with hold | rfl
  · obtain ⟨hxl,hhead⟩ := hc.headers x hold
    exact ⟨fun hm => hxl (hsub x hm),hshrinks.header hhead (hsub _)⟩
  · refine ⟨fun hm => hb (hsub _ hm),hcell,Or.inr ?_⟩
    rw [BitVec.sub_add_cancel]
    exact ⟨hshrinks.spot hspot,fun hm => hc.distinct.not_mem_erase hm⟩

def withPage (p : Word) (h : Heap) : Heap :=
  ({ h with requests := ⟨1#32, p⟩::h.requests } : Heap).setSize p (grownSize 1#32)

theorem withPage_cell (p : Word) {a : Word} (ha : IsCell h a) : IsCell (withPage p h) a := by
  obtain ⟨hal,r,hr,hpage⟩ := ha
  exact ⟨hal,r,List.mem_cons_of_mem _ hr,hpage⟩

theorem new_page_cell (hc : Cells h live free q) {p : Word} (hal : p.toNat%4096 = 0)
    (hnew : ∀ r ∈ h.requests, r.address ≠ p) : ¬ IsCell h p := by
  intro hp
  obtain ⟨-,r,hr,he⟩ := (isCell_iff hc p).mp hp
  exact hnew r hr (he.trans ((pageBoundary_eq_iff p).mpr hal))

theorem withPage_spot (hc : Cells h live free q) {p v : Word} (hnew : ∀ r ∈ h.requests, r.address ≠ p)
    (hv : Spot h v) : Spot (withPage p h) v := by
  obtain ⟨-,r,hr,he⟩ := (isCell_iff hc v).mp hv.1
  refine ⟨withPage_cell p hv.1,hv.2.1,?_⟩
  rw [withPage, KernelMalloc.setSize_ne _ _ (he ▸ hnew r hr)]
  exact hv.2.2

/-- A page that no record and no header lies in goes to the end of the list. -/
theorem cells_grow (hc : Cells h live free null) {p : Word} (hp : p ≠ null) (hal : p.toNat%4096 = 0)
    (hnew : ∀ r ∈ h.requests, r.address ≠ p) :
    Cells (push free p (withPage p h)) live (free ++ [p]) null ∧ Keeps live h (push free p (withPage p h)) ∧
      (push free p (withPage p h)).blockSize p = 511#32 := by
  have hnot := new_page_cell hc hal hnew
  have hlive : p ∉ live := fun hm => hnot (hc.spots p hm).1
  have hfree : p ∉ free := fun hm => hnot (hc.headers p hm).2.1
  have hself : IsCell (withPage p h) p := by
    refine ⟨by omega,⟨1#32, p⟩,List.mem_cons_self,hp,le_rfl,?_⟩
    change p.toNat+8 ≤ p.toNat+4096*1
    omega
  have hsize : (withPage p h).blockSize p = 511#32 := KernelMalloc.setSize_self _ _ _
  have hspot : ∀ v, Spot h v → Spot (push free p (withPage p h)) v := fun v hv => withPage_spot hc hnew hv
  have hkeeps : Keeps live h (withPage p h) :=
    ⟨fun v hv => rfl,fun v hv => KernelMalloc.setSize_ne _ _ (ne_of_mem_of_not_mem hv hlive)⟩
  refine ⟨⟨?_,?_,fun v hv => hspot v (hc.spots v hv),hc.distinct,
    linked_snoc (s := h.links) hc.nodup hfree hp hc.linked,?_,Or.inl rfl,?_⟩,
    hkeeps.trans (push_keeps (fun b hb => (hc.headers b hb).1) hlive),hsize⟩
  · exact List.forall_mem_cons.mpr ⟨⟨hp,rfl,hal⟩,hc.pages⟩
  · refine List.forall_mem_cons.mpr ⟨?_,fun r hr => ?_⟩
    · change (withPage p h).blockSize p ≠ 1#32 ∧ ((withPage p h).blockSize p).toNat ≤ 511
      rw [hsize]
      decide
    · change (withPage p h).blockSize r.address ≠ 1#32 ∧ ((withPage p h).blockSize r.address).toNat ≤ 511
      rw [withPage, KernelMalloc.setSize_ne _ _ (hnew r hr)]
      exact hc.sizes r hr
  · exact List.nodup_append.mpr ⟨hc.nodup,List.nodup_singleton p,fun x hx y hy he =>
      hfree (List.mem_singleton.mp hy ▸ he ▸ hx)⟩
  · refine List.forall_mem_append.mpr ⟨fun b hb => ?_,List.forall_mem_singleton.mpr ⟨hlive,hself,Or.inl hal⟩⟩
    obtain ⟨hbl,hcell,hhead⟩ := hc.headers b hb
    exact ⟨hbl,withPage_cell p hcell,hhead.imp_right fun hf => ⟨hspot _ hf.1,hf.2⟩⟩

/-! ## The loops -/

theorem undefinedUnless_of {p : Prop} [Decidable p] (hp : p) : undefinedUnless p = .ok () := if_pos hp

theorem onMachine_ok {α : Type} {f : Machine → Except Stop (α × Machine)} {k : Kernel} {a : α} {m : Machine}
    (h : f k.machine = .ok (a, m)) : onMachine f k = .ok (a, { k with machine := m }) := by
  rw [onMachine, h]

theorem ok_bind {α β : Type} (a : α) (f : α → Except Fault β) : (Except.ok a >>= f) = f a := rfl

theorem error_bind {α β : Type} (e : Fault) (f : α → Except Fault β) : (Except.error e >>= f) = .error e := rfl

/-- The walk ends behind the list. -/
theorem lastCell_ends (pre post : List Word) (fuel : ℕ)
    (hl : Linked null h.links.next h.links.head (pre ++ post) null) (hcell : ∀ x ∈ post, IsCell h x) :
    fuel ≤ post.length ∧ lastCell h fuel (cellAfter pre) = .error .endless ∨
      lastCell h fuel (cellAfter pre) = .ok (cellAfter (pre ++ post)) := by
  induction post generalizing pre fuel with
  | nil =>
    cases fuel with
    | zero => exact Or.inl ⟨Nat.zero_le _,rfl⟩
    | succ fuel =>
      rw [List.append_nil] at hl ⊢
      rw [lastCell, load_cellAfter hl, if_neg (not_not.mpr rfl)]
      exact Or.inr rfl
  | cons x post ih =>
    cases fuel with
    | zero => exact Or.inl ⟨Nat.zero_le _,rfl⟩
    | succ fuel =>
      obtain ⟨r,hpre,rfl,hx,-⟩ := linked_append.mp hl
      rw [lastCell, load_cellAfter hpre, if_pos hx, undefinedUnless_of (hcell r List.mem_cons_self), ok_bind,
        ← cellAfter_snoc pre r, List.append_cons pre r post]
      refine (ih (pre ++ [r]) fuel (by simpa using hl) fun y hy => hcell y (List.mem_cons_of_mem r hy)).imp_left ?_
      exact And.imp_left Nat.succ_le_succ

theorem kfree_ends (hl : Linked null h.links.next h.links.head free null) (hcell : ∀ x ∈ free, IsCell h x)
    {address : Word} (hb : IsCell h (address-headerSize)) (fuel : ℕ) :
    fuel ≤ free.length ∧ kfree fuel address h = .error .endless ∨
      kfree fuel address h = .ok (push free (address-headerSize) h) := by
  rw [kfree]
  rcases lastCell_ends [] free fuel hl hcell with ⟨hfuel,hend⟩ | hend
  · rw [show (none : Cell Word) = cellAfter [] from rfl, hend]
    exact Or.inl ⟨hfuel,rfl⟩
  · rw [show (none : Cell Word) = cellAfter [] from rfl, hend, ok_bind, undefinedUnless_of hb]
    exact Or.inr rfl

section
variable {L : Layout} {k : Kernel} {units : Word}

theorem search_round (fuel : ℕ) {c : Cell Word} {b : Word} (hload : load k.heap.links c = b) (hb : b ≠ null)
    (hcell : IsCell k.heap b) : search L units (fuel+1) c k =
      if k.heap.blockSize b ≥ units then
        undefinedUnless (IsCell k.heap ((take units c k.heap).1-headerSize)) >>= fun _ =>
          .ok ((take units c k.heap).1, { k with heap := (take units c k.heap).2 })
      else search L units fuel (some b) k := by
  simp only [search]
  rw [hload, if_neg hb, ok_bind]
  simp only
  rw [if_neg (by simp), hload, undefinedUnless_of hcell, ok_bind]
  rfl

theorem increase_ends {live free : List Word} {p : Word} {k₁ : Kernel} (hc : Cells k.heap live free null)
    (htake : takePages L 1#32 k = .ok (p, k₁)) (hheap : k₁.heap = k.heap) (hp : p ≠ null) (hal : p.toNat%4096 = 0)
    (hnew : ∀ r ∈ k.heap.requests, r.address ≠ p) (fuel : ℕ) :
    fuel ≤ free.length ∧ increaseHeapSize L fuel 1#32 k = .error .endless ∨ increaseHeapSize L fuel 1#32 k =
      .ok (.success, { k₁ with heap := push free p (withPage p k.heap) }) := by
  obtain ⟨hgrown,-,-⟩ := cells_grow hc hp hal hnew
  have hcell : IsCell (withPage p k.heap) (p+headerSize-headerSize) := by
    rw [BitVec.add_sub_cancel]
    exact (hgrown.headers p (by simp)).2.1
  have hends := kfree_ends (h := withPage p k.heap) hc.linked
    (fun x hx => withPage_cell p (hc.headers x hx).2.1) hcell fuel
  rw [BitVec.add_sub_cancel] at hends
  rw [increaseHeapSize, show pageCount 1#32 = 1#32 by decide, htake, ok_bind]
  simp only [if_neg hp, hheap]
  rcases hends with ⟨hfuel,hend⟩ | hend
  · exact Or.inl ⟨hfuel,by rw [withPage] at hend; rw [hend, error_bind]⟩
  · exact Or.inr (by rw [withPage] at hend ⊢; rw [hend, ok_bind]; rfl)

/-- The blocks before the one that fits are passed. -/
theorem search_serves {live : List Word} (pre todo : List Word) {b : Word} {post : List Word} {q : Word} (fuel : ℕ)
    (hc : Cells k.heap live ((pre ++ todo) ++ b::post) q) (hzero : ∀ x ∈ todo, k.heap.blockSize x = 0#32)
    (hfit : k.heap.blockSize b = 1#32 ∨ b.toNat%4096 = 0 ∧ k.heap.blockSize b ≠ 0#32) :
    fuel ≤ todo.length ∧ search L 1#32 fuel (cellAfter pre) k = .error .endless ∨
      ∃ v h', search L 1#32 fuel (cellAfter pre) k = .ok (v, { k with heap := h' }) ∧ HandsOut k.heap live v h' := by
  induction todo generalizing pre fuel with
  | nil =>
    cases fuel with
    | zero => exact Or.inl ⟨Nat.zero_le _,rfl⟩
    | succ fuel =>
      rw [List.append_nil] at hc
      obtain ⟨r,hpre,hr,hb,-⟩ := linked_append.mp hc.linked
      obtain ⟨-,hcell,-⟩ := hc.headers b (by simp)
      have hout : HandsOut k.heap live (take 1#32 (cellAfter pre) k.heap).1 (take 1#32 (cellAfter pre) k.heap).2 := by
        rcases hfit with hone | ⟨hal,hpos⟩
        · exact take_unit hc hone
        · exact take_start hc hal hpos
      have hge : k.heap.blockSize b ≥ 1#32 := by
        rcases hfit with hone | ⟨-,hpos⟩
        · rw [hone]
          decide
        · bv_omega
      rw [search_round fuel (load_cellAfter (hr ▸ hpre)) hb hcell, if_pos hge, undefinedUnless_of hout.header, ok_bind]
      exact Or.inr ⟨_,_,rfl,hout⟩
  | cons x todo ih =>
    cases fuel with
    | zero => exact Or.inl ⟨Nat.zero_le _,rfl⟩
    | succ fuel =>
      have hl := hc.linked
      rw [List.append_assoc] at hl
      obtain ⟨r,hpre,hr,hx,-⟩ := linked_append.mp hl
      obtain ⟨-,hcell,-⟩ := hc.headers x (by simp)
      rw [search_round fuel (load_cellAfter (hr ▸ hpre)) hx hcell,
        if_neg (by rw [hzero x List.mem_cons_self]; decide), ← cellAfter_snoc pre x]
      refine (ih (pre ++ [x]) fuel (by simpa using hc) fun y hy => hzero y (List.mem_cons_of_mem x hy)).imp_left ?_
      exact And.imp_left Nat.succ_le_succ

/-- Without a block that fits, the search comes to the end of the list. -/
theorem search_grows {live : List Word} (pre todo : List Word) (fuel : ℕ) {p : Word} {k₁ : Kernel}
    (hc : Cells k.heap live (pre ++ todo) null) (hzero : ∀ x ∈ todo, k.heap.blockSize x = 0#32)
    (htake : takePages L 1#32 k = .ok (p, k₁)) (hheap : k₁.heap = k.heap) (hp : p ≠ null) (hal : p.toNat%4096 = 0)
    (hnew : ∀ r ∈ k.heap.requests, r.address ≠ p) :
    fuel ≤ (pre ++ todo).length+todo.length+1 ∧ search L 1#32 fuel (cellAfter pre) k = .error .endless ∨
      ∃ v h', search L 1#32 fuel (cellAfter pre) k = .ok (v, { k₁ with heap := h' }) ∧
        HandsOut (push (pre ++ todo) p (withPage p k.heap)) live v h' := by
  induction todo generalizing pre fuel with
  | nil =>
    cases fuel with
    | zero => exact Or.inl ⟨Nat.zero_le _,rfl⟩
    | succ fuel =>
      rw [List.append_nil] at hc ⊢
      obtain ⟨hgrown,-,hsize⟩ := cells_grow hc hp hal hnew
      have hout := take_start hgrown hal (by rw [hsize]; decide)
      obtain ⟨r,hpre,hr,-,-⟩ := linked_append.mp hgrown.linked
      have hload := load_cellAfter (hr ▸ hpre)
      simp only [search]
      rw [if_pos (load_cellAfter hc.linked)]
      rcases increase_ends hc htake hheap hp hal hnew fuel with ⟨hfuel,hend⟩ | hend
      · rw [hend]
        exact Or.inl ⟨Nat.succ_le_succ hfuel,rfl⟩
      · rw [hend, ok_bind]
        simp only
        rw [if_neg (by simp), hload, undefinedUnless_of (hgrown.headers p (by simp)).2.1, ok_bind,
          if_pos (by rw [hsize]; decide), undefinedUnless_of hout.header, ok_bind]
        exact Or.inr ⟨_,_,rfl,hout⟩
  | cons x todo ih =>
    cases fuel with
    | zero => exact Or.inl ⟨Nat.zero_le _,rfl⟩
    | succ fuel =>
      obtain ⟨r,hpre,hr,hx,-⟩ := linked_append.mp hc.linked
      obtain ⟨-,hcell,-⟩ := hc.headers x (by simp)
      rw [search_round fuel (load_cellAfter (hr ▸ hpre)) hx hcell,
        if_neg (by rw [hzero x List.mem_cons_self]; decide), ← cellAfter_snoc pre x, List.append_cons pre x todo]
      refine (ih (pre ++ [x]) fuel (by simpa using hc) fun y hy => hzero y (List.mem_cons_of_mem x hy)).imp_left ?_
      exact And.imp_left Nat.succ_le_succ

end

end

end MikeOS.SpaceRecords
