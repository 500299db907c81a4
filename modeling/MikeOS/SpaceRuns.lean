import MikeOS.SpaceRecords

/-!
# Isolation of address spaces, with their records

Block headers and records share their cells, so a run stays isolated while its
calls read and write headers that no record lies on, and while the frames and
the pages of the heap are there. Each call is then one that finds its record
where it left it.
-/

set_option autoImplicit false

namespace MikeOS.SpaceRuns
open LinkedList BitArray MikeOS.Memory MikeOS.Paging MikeOS.PhysicalMemory MikeOS.KernelHeap MikeOS.KernelHeapSearch
open MikeOS.KernelMalloc (Heap headerSize pageCount take unitsOf)
open MikeOS.KernelHeapRuns hiding State returned Op Inv step
open MikeOS.VirtualMemory hiding allocVirtualAddressSpace switchVirtualAddressSpace freeVirtualAddressSpace
open MikeOS.Mmu MikeOS.Boot MikeOS.FramePool MikeOS.PageDirectory MikeOS.FrameDemand
open MikeOS.AddressSpaces (Kept Spare)
open MikeOS.Teardown (smallLayout)
open MikeOS.SpaceRecords

/-! ## The condition -/

/-- The search for eight bytes meets headers that no record lies on and takes a
block that starts a page or has one unit. -/
def Serves (h : Heap) (live : List Word) : Prop :=
  ∃ pre b, Linked null h.links.next h.links.head pre b ∧ b ≠ null ∧ (∀ x ∈ pre ++ [b], x ∉ live) ∧
    (∀ x ∈ pre, h.blockSize x = 0#32) ∧
    (h.blockSize b = 1#32 ∨ (∃ r ∈ h.requests, r.address = b) ∧ h.blockSize b ≠ 0#32)

def Exhausts (h : Heap) (live : List Word) : Prop :=
  ∃ pre, Linked null h.links.next h.links.head pre null ∧ ∀ x ∈ pre, x ∉ live ∧ h.blockSize x = 0#32

/-- No record lies on a header that `kfree` reads or writes. -/
def Spares (h : Heap) (live : List Word) (vmm : Word) : Prop :=
  vmm-headerSize ∉ live ∧ ∃ pre, Linked null h.links.next h.links.head pre null ∧ ∀ x ∈ pre, x ∉ live

/-- Pages are there for `n` requests of one page, none of them stale. -/
def PagesLast : ℕ → Bytes → List ℕ → Prop
  | 0, _, _ => True
  | n+1, bitmap, stale => ∃ i s, Suitable bitmap 1 i s ∧ 8*i+s ∉ stale ∧ PagesLast n (taken bitmap 1#32 i s) stale

def Room (L : Layout) (n : ℕ) (k : Kernel) : Prop :=
  n ≤ left L.toKernelImage k.machine.phys ∧ PagesLast n k.machine.heapBitmap k.stale

/-- A call finds the frames and the pages it takes, and its headers intact. -/
def Intact (L : Layout) : State → Op → Prop
  | .running k _, .heap n => n.toNat ≤ left L.toKernelImage k.machine.phys ∧
    ∃ i s, Suitable k.machine.heapBitmap n.toNat i s ∧ ∀ p ∈ k.stale, p < 8*i+s ∨ 8*i+s+n.toNat ≤ p
  | .running k live, .alloc => Serves k.heap live ∧ Room L 1 k ∨ Exhausts k.heap live ∧ Room L 2 k
  | .running k _, .mmap v n => mmapRejects v n = true ∨
    demand k.machine.mem (frameOf k.machine.cr3) (v.toNat/4096) (mmapCount v n) ≤ left L.toKernelImage k.machine.phys
  | .running k live, .free vmm => Spares k.heap live vmm
  | _, _ => True

/-! ## The invariant -/

def view : State → AddressSpaces.State
  | .running k live => .running k.machine (live.map k.record)
  | .undefined => .undefined

structure Carried (L : Layout) (k : Kernel) (live : List Word) : Prop where
  cells : ∃ free q, Cells k.heap live free q
  taken : ∀ r ∈ k.heap.requests, ∃ p, p < 1024 ∧ r.address.toNat = windowBase+4096*p ∧
    bit k.machine.heapBitmap p = false
  apart : ∀ v ∈ live, ∀ r ∈ k.heap.requests, (k.record v).pageDirectory ≠ r.address
  spaces : AddressSpaces.Inv L (view (.running k live))

def Inv (L : Layout) : State → Prop
  | .undefined => False
  | .running k live => Carried L k live

theorem isolated_of_inv (L : Layout) (s : State) (h : Inv L s) : Isolated L s := by
  cases s with
  | undefined => exact h
  | running k live => exact AddressSpaces.isolated_of_inv _ h.spaces

section
variable {L : Layout} {k : Kernel} {live : List Word}

section
variable {h : Heap} {free pre : List Word} {q b : Word}

/-- A path that no record lies on is an initial part of the free list. -/
theorem intact_prefix (hc : Cells h live free q) {e : Word} (hl : Linked null h.links.next h.links.head pre e)
    (hpre : ∀ x ∈ pre, x ∉ live) : pre <+: free := by
  rcases linked_prefix hl hc.linked with hle | ⟨rest,rfl⟩
  · exact hle
  cases rest with
  | nil => simp
  | cons y rest =>
    obtain ⟨rfl,hy,-⟩ := linked_rest hc.linked hl
    exact absurd (hc.reaches.resolve_left hy) (hpre q (by simp))

theorem free_eq (hc : Cells h live free q) (hl : Linked null h.links.next h.links.head pre null)
    (hpre : ∀ x ∈ pre, x ∉ live) : free = pre ∧ q = null := by
  obtain ⟨rest,rfl⟩ := intact_prefix hc hl hpre
  obtain ⟨rfl,rfl⟩ := linked_null (linked_rest hl hc.linked)
  exact ⟨List.append_nil pre,rfl⟩

theorem serves_split (hc : Cells h live free q) (hl : Linked null h.links.next h.links.head pre b) (hb : b ≠ null)
    (hpre : ∀ x ∈ pre ++ [b], x ∉ live) : ∃ post, free = pre ++ b::post := by
  have hnext : Linked null h.links.next b [b] (h.links.next b) := ⟨rfl,hb,rfl⟩
  obtain ⟨post,rfl⟩ := intact_prefix hc (linked_append.mpr ⟨b,hl,hnext⟩) hpre
  exact ⟨post,by simp⟩

end

theorem heapPage_found {i s : ℕ} (h : 8*i+s < 1024) : heapPage (foundAddress i s) = 8*i+s := by
  rw [heapPage, toNat_foundAddress (by omega)]
  omega

/-! ## kmalloc for a record -/

theorem map_record {k k' : Kernel} (hk : Keeps live k.heap k'.heap) : live.map k'.record = live.map k.record := by
  refine List.map_congr_left fun v hv => ?_
  rw [Kernel.record, Kernel.record, hk.next v hv, hk.size v hv]

theorem found_new (hi : Carried L k live) {n i s : ℕ} (hn : 0 < n) (hs : Suitable k.machine.heapBitmap n i s) :
    ∀ r ∈ k.heap.requests, r.address ≠ foundAddress i s := by
  intro r hr he
  obtain ⟨p,hp,hadr,hbit⟩ := hi.taken r hr
  have hin := hs.inside
  have hfree := hs.free 0 hn
  rw [he, toNat_foundAddress (by omega)] at hadr
  rw [Nat.add_zero, show 8*i+s = p by omega, hbit] at hfree
  cases hfree

theorem directory_new {dirs : List ℕ} {ranges : List Range} {m : Machine} {lv : List Vas}
    (h : Kept L dirs ranges m lv) {n i s : ℕ} (hn : 0 < n) (hs : Suitable m.heapBitmap n i s) :
    ∀ vmm ∈ lv, vmm.pageDirectory ≠ foundAddress i s := by
  intro vmm hv he
  obtain ⟨D,p,hk⟩ := h.known vmm hv
  have hin := hs.inside
  have hout := AddressSpaces.known_outside h.pages hk hs
  have hadr := hk.address
  rw [he, toNat_foundAddress (by omega)] at hadr
  omega

theorem taken_pages (hi : Carried L k live) {n i s : ℕ} {w : Word} (hw : w.toNat = n)
    (hs : Suitable k.machine.heapBitmap n i s) : ∀ r ∈ k.heap.requests, ∃ p, p < 1024 ∧
      r.address.toNat = windowBase+4096*p ∧ bit (taken k.machine.heapBitmap w i s) p = false := by
  intro r hr
  obtain ⟨p,hp,hadr,hbit⟩ := hi.taken r hr
  have hin := hs.inside
  exact ⟨p,hp,hadr,by rw [bit_taken hw (by omega), hbit, Bool.and_false]⟩

/-- Pages that the search finds are taken by a step of the address spaces. -/
theorem takePages_ok (hi : Carried L k live) {n : Word} (hn : n ≠ 0#32) {i s : ℕ}
    (hs : Suitable k.machine.heapBitmap n.toNat i s) (hstale : ∀ p ∈ k.stale, p < 8*i+s ∨ 8*i+s+n.toNat ≤ p)
    (hleft : n.toNat ≤ left L.toKernelImage k.machine.phys) :
    ∃ m', takePages L n k = .ok (foundAddress i s, { k with machine := m' }) ∧
      AddressSpaces.step L (view (.running k live)) (.heap n) = some (.running m' (live.map k.record)) ∧
      Spare L (view (.running k live)) (.heap n) ∧ m'.heapBitmap = taken k.machine.heapBitmap n i s ∧
      left L.toKernelImage m'.phys+n.toNat = left L.toKernelImage k.machine.phys := by
  obtain ⟨dirs,ranges,h⟩ := hi.spaces
  obtain ⟨m',hcall,hbitmap,hcount⟩ := AddressSpaces.heap_left h hn hs hleft
  have hin := hs.inside
  have hpos : 0 < n.toNat := by bv_omega
  have hreached : SpaceRecords.Reached (foundAddress i s) n { k with machine := m' } := fun p hp => by
    rw [heapPage_found (by omega)]
    exact hstale p hp
  refine ⟨m',?_,?_,⟨⟨i,s,hs⟩,hleft⟩,hbitmap,hcount⟩
  · rw [takePages, onMachine_ok hcall, ok_bind]
    simp only
    rw [undefinedUnless_of (Or.inr hreached), ok_bind]
    rfl
  · rw [view, AddressSpaces.step, if_neg hn, hcall]
    rfl

structure Allocated (L : Layout) (k : Kernel) (live : List Word) (v : Word) (k' : Kernel) : Prop where
  carried : Carried L k' live
  spot : Spot k'.heap v
  fresh : v ∉ live
  cells : ∃ free q, Cells k'.heap live free q ∧ ∀ b ∈ free, b.toNat%4096 ≠ 0 → b+headerSize ≠ v
  room : Room L 1 k'
  matched : ∃ ops, Transition.run (AddressSpaces.step L) ops (view (.running k live)) = some (view (.running k' live)) ∧
    Transition.Guarded (AddressSpaces.step L) (Spare L) ops (view (.running k live))

/-- With more than `N` rounds the call returns. -/
def Allocates (L : Layout) (k : Kernel) (live : List Word) (N fuel : ℕ) : Prop :=
  fuel ≤ N ∧ kmalloc L fuel 8#32 k = .error .endless ∨
    ∃ v k', kmalloc L fuel 8#32 k = .ok (v, k') ∧ Allocated L k live v k'

theorem kmalloc_serves (hi : Carried L k live) (hs : Serves k.heap live) (hroom : Room L 1 k) :
    ∃ N, ∀ fuel, Allocates L k live N fuel := by
  obtain ⟨free,q,hc⟩ := hi.cells
  obtain ⟨pre,b,hl,hb,hpre,hzero,hfit⟩ := hs
  obtain ⟨post,rfl⟩ := serves_split hc hl hb hpre
  have hfit' : k.heap.blockSize b = 1#32 ∨ b.toNat%4096 = 0 ∧ k.heap.blockSize b ≠ 0#32 :=
    hfit.imp_right fun ⟨⟨r,hr,he⟩,hpos⟩ => ⟨he ▸ (hc.pages r hr).2.2,hpos⟩
  refine ⟨pre.length,fun fuel => ?_⟩
  have hsearch := search_serves (L := L) [] pre fuel (by simpa using hc) hzero hfit'
  rw [show cellAfter ([] : List Word) = none from rfl] at hsearch
  rw [Allocates, kmalloc, show unitsOf 8#32 = 1#32 by decide]
  refine hsearch.imp_right ?_
  rintro ⟨v,h',he,hout⟩
  have hmap : live.map ({ k with heap := h' } : Kernel).record = live.map k.record := map_record hout.keeps
  have hview : view (.running { k with heap := h' } live) = view (.running k live) := by rw [view, hmap]; rfl
  obtain ⟨free',q',hc',hfree⟩ := hout.cells
  refine ⟨v,_,he,⟨⟨free',q',hc'⟩,?_,fun w hw => ?_,?_⟩,hout.spot,hout.fresh,⟨free',q',hc',hfree⟩,hroom,[],?_,trivial⟩
  · change ∀ r ∈ h'.requests, _
    rw [hout.requests]
    exact hi.taken
  · change ∀ r ∈ h'.requests, h'.links.next w ≠ r.address
    rw [hout.requests, hout.keeps.next w hw]
    exact hi.apart w hw
  · rw [hview]
    exact hi.spaces
  · rw [hview]
    rfl

theorem kmalloc_exhausts (hi : Carried L k live) (he : Exhausts k.heap live) (hroom : Room L 2 k) :
    ∃ N, ∀ fuel, Allocates L k live N fuel := by
  obtain ⟨free,q,hc⟩ := hi.cells
  obtain ⟨pre,hl,hpre⟩ := he
  obtain ⟨rfl,rfl⟩ := free_eq hc hl fun x hx => (hpre x hx).1
  obtain ⟨hleft,i,s,hs,hstale,hnext⟩ := hroom
  have hin := hs.inside
  obtain ⟨m',htake,hstep,hspare,hbitmap,hcount⟩ := takePages_ok hi (show 1#32 ≠ 0#32 by decide) hs
    (fun p hp => by
      have : 8*i+s ≠ p := fun he => hstale (he ▸ hp)
      rw [show (1#32).toNat = 1 from rfl]
      omega) (show 1 ≤ _ by omega)
  rw [show (1#32).toNat = 1 from rfl] at hcount
  have hadr : (foundAddress i s).toNat = windowBase+4096*(8*i+s) := toNat_foundAddress (by omega)
  have hnew := found_new hi (by omega) hs
  have hne : foundAddress i s ≠ null := found_ne_null (by omega)
  have hal : (foundAddress i s).toNat%4096 = 0 := by
    rw [hadr, windowBase]
    omega
  obtain ⟨hgrown,hkeeps,-⟩ := cells_grow hc hne hal hnew
  refine ⟨free.length+free.length+1,fun fuel => ?_⟩
  have hsearch := search_grows (L := L) [] free fuel hc (fun x hx => (hpre x hx).2) htake rfl hne hal hnew
  rw [show cellAfter ([] : List Word) = none from rfl] at hsearch
  rw [Allocates, kmalloc, show unitsOf 8#32 = 1#32 by decide]
  refine hsearch.imp_right ?_
  rintro ⟨v,h',he,hout⟩
  have hall := hkeeps.trans hout.keeps
  have hmap : live.map ({ k with machine := m', heap := h' } : Kernel).record = live.map k.record := map_record hall
  have hview : view (.running { k with machine := m', heap := h' } live) = .running m' (live.map k.record) := by
    rw [view, hmap]
  have hrun : Transition.run (AddressSpaces.step L) [.heap 1#32] (view (.running k live)) =
      some (.running m' (live.map k.record)) := by
    rw [Transition.run_cons, hstep]
    rfl
  have hguard : Transition.Guarded (AddressSpaces.step L) (Spare L) [.heap 1#32] (view (.running k live)) :=
    fun _ _ => ⟨hspare,trivial⟩
  obtain ⟨free',q',hc',hfree⟩ := hout.cells
  refine ⟨v,_,he,⟨⟨⟨free',q',hc'⟩,?_,fun w hw => ?_,?_⟩,hout.spot,hout.fresh,⟨free',q',hc',hfree⟩,⟨?_,?_⟩,
    [.heap 1#32],by rw [hview, hrun],hguard⟩⟩
  · change ∀ r ∈ h'.requests, ∃ p, p < 1024 ∧ _ ∧ bit m'.heapBitmap p = false
    rw [hout.requests, hbitmap]
    refine List.forall_mem_cons.mpr ⟨⟨8*i+s,by omega,hadr,?_⟩,taken_pages hi rfl hs⟩
    have hself : 8*i+s ≤ 8*i+s ∧ 8*i+s < 8*i+s+(1#32).toNat := ⟨le_rfl,Nat.lt_succ_self _⟩
    rw [bit_taken rfl (by rw [show (1#32).toNat = 1 from rfl]; omega), decide_eq_true hself]
    rfl
  · change ∀ r ∈ h'.requests, h'.links.next w ≠ r.address
    rw [hout.requests, hall.next w hw]
    obtain ⟨dirs,ranges,hk⟩ := hi.spaces
    exact List.forall_mem_cons.mpr ⟨directory_new hk (by omega) hs _ (List.mem_map_of_mem hw),hi.apart w hw⟩
  · rw [hview]
    have hlast : Transition.Guarded (AddressSpaces.step L) (AddressSpaces.FramesLast L) [.heap 1#32]
        (view (.running k live)) := fun _ _ => ⟨hspare.last,trivial⟩
    exact AddressSpaces.inv_of_run hi.spaces hlast hrun
  · change 1 ≤ left L.toKernelImage m'.phys
    omega
  · change PagesLast 1 m'.heapBitmap k.stale
    rw [hbitmap]
    exact hnext

theorem kmalloc_cases (hi : Carried L k live) (hg : Intact L (.running k live) .alloc) :
    ∃ N, ∀ fuel, Allocates L k live N fuel := by
  rcases hg with ⟨hs,hroom⟩ | ⟨he,hroom⟩
  · exact kmalloc_serves hi hs hroom
  · exact kmalloc_exhausts hi he hroom

/-! ## One step -/

/-- A step on records is a run on address spaces, whose calls find what they take. -/
structure Matched (L : Layout) (s t : State) : Prop where
  inv : Inv L t
  run : ∃ ops, Transition.run (AddressSpaces.step L) ops (view s) = some (view t) ∧
    Transition.Guarded (AddressSpaces.step L) (Spare L) ops (view s)

theorem guarded_last {ops : List AddressSpaces.Op} {s : AddressSpaces.State}
    (h : Transition.Guarded (AddressSpaces.step L) (Spare L) ops s) :
    Transition.Guarded (AddressSpaces.step L) (AddressSpaces.FramesLast L) ops s := by
  induction ops generalizing s with
  | nil => trivial
  | cons op ops ih => exact fun t ht => ⟨(h t ht).1.last,ih (h t ht).2⟩

theorem matched_of_run {s : State} {k' : Kernel} {live' : List Word} (hs : AddressSpaces.Inv L (view s))
    {ops : List AddressSpaces.Op}
    (hrun : Transition.run (AddressSpaces.step L) ops (view s) = some (view (.running k' live')))
    (hguard : Transition.Guarded (AddressSpaces.step L) (Spare L) ops (view s))
    (hcells : ∃ free q, Cells k'.heap live' free q)
    (htaken : ∀ r ∈ k'.heap.requests, ∃ p, p < 1024 ∧ r.address.toNat = windowBase+4096*p ∧
      bit k'.machine.heapBitmap p = false)
    (hapart : ∀ v ∈ live', ∀ r ∈ k'.heap.requests, (k'.record v).pageDirectory ≠ r.address) :
    Matched L s (.running k' live') :=
  ⟨⟨hcells,htaken,hapart,AddressSpaces.inv_of_run hs (guarded_last hguard) hrun⟩,ops,hrun,hguard⟩

theorem matched_one {s : State} {k' : Kernel} {live' : List Word} (hs : AddressSpaces.Inv L (view s))
    {op : AddressSpaces.Op} (hstep : AddressSpaces.step L (view s) op = some (view (.running k' live')))
    (hspare : Spare L (view s) op) (hcells : ∃ free q, Cells k'.heap live' free q)
    (htaken : ∀ r ∈ k'.heap.requests, ∃ p, p < 1024 ∧ r.address.toNat = windowBase+4096*p ∧
      bit k'.machine.heapBitmap p = false)
    (hapart : ∀ v ∈ live', ∀ r ∈ k'.heap.requests, (k'.record v).pageDirectory ≠ r.address) :
    Matched L s (.running k' live') := by
  have hrun : Transition.run (AddressSpaces.step L) [op] (view s) = some (view (.running k' live')) := by
    rw [Transition.run_cons, hstep]
    rfl
  exact matched_of_run hs hrun (fun _ _ => ⟨hspare,trivial⟩) hcells htaken hapart

theorem Matched.trans {s t u : State} (h : Matched L s t) (h' : Matched L t u) : Matched L s u := by
  obtain ⟨ops,hrun,hguard⟩ := h.run
  obtain ⟨ops',hrun',hguard'⟩ := h'.run
  refine ⟨h'.inv,ops ++ ops',?_,?_⟩
  · rw [Transition.run_append, hrun]
    exact hrun'
  · refine Transition.guarded_append.mpr ⟨hguard,fun t ht => ?_⟩
    rw [hrun, Option.some.injEq] at ht
    exact ht ▸ hguard'

/-- The directory is made, and the record stored at the place that `kmalloc` found. -/
theorem alloc_matched (hi : Carried L k live) (hg : Intact L (.running k live) .alloc) :
    ∃ N, ∀ fuel, fuel ≤ N ∧ allocVirtualAddressSpace L fuel k = .error .endless ∨
      ∃ v k', allocVirtualAddressSpace L fuel k = .ok (v, k') ∧ v ≠ null ∧
        Matched L (.running k live) (.running k' (v::live)) := by
  obtain ⟨N,hN⟩ := kmalloc_cases hi hg
  refine ⟨N,fun fuel => ?_⟩
  rw [allocVirtualAddressSpace]
  rcases hN fuel with ⟨hfuel,hend⟩ | ⟨v,k₁,hcall,ha⟩
  · rw [hend]
    exact Or.inl ⟨hfuel,rfl⟩
  have hi₁ := ha.carried
  obtain ⟨dirs,ranges,hk⟩ := hi₁.spaces
  obtain ⟨hleft,i,s,hs,hstale,-⟩ := ha.room
  have hin := hs.inside
  obtain ⟨f,phys,hdir,hf,-,-,-⟩ := AddressSpaces.alloc_left hk hs (show 0 < _ by omega)
  obtain ⟨free,q,hc,hfree⟩ := ha.cells
  have hne : v ≠ null := cell_ne_null ha.spot.1
  obtain ⟨record,hrecord⟩ : ∃ record : Vas, record = ⟨foundAddress i s, frameAddress f⟩ := ⟨_,rfl⟩
  obtain ⟨hcells,hkeeps⟩ := cells_store hc ha.spot ha.fresh hfree record
  have hreached : SpaceRecords.Reached (foundAddress i s) 1#32
      { k₁ with machine := withDirectory L k₁.machine i s f phys } := fun p hp => by
    have hnp : p ≠ 8*i+s := fun he => hstale (he ▸ hp)
    rw [heapPage_found (by omega), show (1#32).toNat = 1 from rfl]
    omega
  have hself : (⟨withDirectory L k₁.machine i s f phys, storeRecord v record k₁.heap, k₁.stale⟩ : Kernel).record v =
      record := by
    simp [Kernel.record, storeRecord, Heap.setSize, Heap.assign]
  refine Or.inr ⟨v,⟨withDirectory L k₁.machine i s f phys, storeRecord v record k₁.heap, k₁.stale⟩,?_,hne,
    Matched.trans (t := .running k₁ live) ⟨hi₁,ha.matched⟩ ?_⟩
  · rw [hcall, ok_bind]
    simp only
    rw [if_neg hne, onMachine_ok hdir, ok_bind]
    simp only
    rw [undefinedUnless_of ⟨hreached,ha.spot.1⟩, ok_bind, hrecord]
    rfl
  · have hstep : AddressSpaces.step L (view (.running k₁ live)) (.alloc v) = some (view (.running
        ⟨withDirectory L k₁.machine i s f phys, storeRecord v record k₁.heap, k₁.stale⟩ (v::live))) := by
      rw [view, AddressSpaces.step, VirtualMemory.allocVirtualAddressSpace, if_neg hne, hdir, view, List.map_cons, hself]
      subst hrecord
      exact congrArg (fun l => some (AddressSpaces.State.running _ (_::l))) (map_record hkeeps).symm
    refine matched_one hi₁.spaces hstep (Or.inr ⟨hleft,i,s,hs⟩) hcells (taken_pages hi₁ rfl hs)
      (List.forall_mem_cons.mpr ⟨fun r hr => ?_,fun w hw r hr => ?_⟩)
    · rw [hself, hrecord]
      exact (found_new hi₁ Nat.one_pos hs r hr).symm
    · change (storeRecord v record k₁.heap).links.next w ≠ r.address
      rw [hkeeps.next w hw]
      exact hi₁.apart w hw r hr

theorem heap_matched (hi : Carried L k live) {n : Word} (hn : n ≠ 0#32) (hg : Intact L (.running k live) (.heap n)) :
    ∃ r, takePages L n k = .ok r ∧ Matched L (.running k live) (.running r.2 live) := by
  obtain ⟨hleft,i,s,hs,hstale⟩ := hg
  obtain ⟨m',htake,hstep,hspare,hbitmap,-⟩ := takePages_ok hi hn hs hstale hleft
  refine ⟨_,htake,matched_one hi.spaces hstep hspare hi.cells ?_ hi.apart⟩
  change ∀ r ∈ k.heap.requests, ∃ p, p < 1024 ∧ _ ∧ bit m'.heapBitmap p = false
  rw [hbitmap]
  exact taken_pages hi rfl hs

theorem switch_matched (hi : Carried L k live) {vmm : Word} (hv : vmm ∈ live) :
    ∃ r, SpaceRecords.switchVirtualAddressSpace vmm k = .ok r ∧ Matched L (.running k live) (.running r.2 live) := by
  obtain ⟨free,q,hc⟩ := hi.cells
  have hmem : k.record vmm ∈ live.map k.record := List.mem_map_of_mem hv
  obtain ⟨⟨code,m'⟩,hcall⟩ : ∃ r, VirtualMemory.switchVirtualAddressSpace (k.record vmm) k.machine = r := ⟨_,rfl⟩
  have hbitmap : m'.heapBitmap = k.machine.heapBitmap := by
    rw [VirtualMemory.switchVirtualAddressSpace] at hcall
    split at hcall <;> cases hcall <;> rfl
  have hstep : AddressSpaces.step L (view (.running k live)) (.switch (k.record vmm)) =
      some (.running m' (live.map k.record)) := by
    rw [view, AddressSpaces.step, if_pos hmem, hcall]
  refine ⟨(code, ⟨m', k.heap, if code = .success then [] else k.stale⟩),?_,
    matched_one hi.spaces hstep trivial hi.cells ?_ hi.apart⟩
  · rw [SpaceRecords.switchVirtualAddressSpace, undefinedUnless_of (hc.spots vmm hv).1, ok_bind, hcall]
    rfl
  · change ∀ r ∈ k.heap.requests, ∃ p, p < 1024 ∧ _ ∧ bit m'.heapBitmap p = false
    rw [hbitmap]
    exact hi.taken

theorem mmap_matched (hi : Carried L k live) {v n : Word} (hg : Intact L (.running k live) (.mmap v n)) :
    ∃ r, onMachine (VirtualMemory.mmap L v n) k = .ok r ∧ Matched L (.running k live) (.running r.2 live) := by
  obtain ⟨dirs,ranges,hk⟩ := hi.spaces
  obtain ⟨⟨code,m'⟩,hcall,-,hbitmap,-⟩ := AddressSpaces.mmap_inv hk hg
  have hstep : AddressSpaces.step L (view (.running k live)) (.mmap v n) =
      some (view (.running { k with machine := m' } live)) := by
    rw [view, AddressSpaces.step, hcall]
    rfl
  refine ⟨_,onMachine_ok hcall,matched_one hi.spaces hstep hg hi.cells ?_ hi.apart⟩
  change ∀ r ∈ k.heap.requests, ∃ p, p < 1024 ∧ _ ∧ bit m'.heapBitmap p = false
  rw [hbitmap]
  exact hi.taken

theorem erase_map {f : Word → Vas} {l : List Word} (hn : (l.map f).Nodup) {v : Word} (hv : v ∈ l) :
    (l.map f).erase (f v) = (l.erase v).map f := by
  obtain ⟨s,t,-,rfl,herase⟩ := List.exists_erase_eq hv
  rw [herase, List.map_append, List.map_append, List.map_cons] at *
  have hnot : f v ∉ s.map f := fun hm => (List.disjoint_of_nodup_append hn) hm List.mem_cons_self
  rw [List.erase_append_right _ hnot, List.erase_cons_head]

theorem free_matched (hi : Carried L k live) {vmm : Word} (hv : vmm ∈ live)
    (hcr3 : k.machine.cr3 = (k.record vmm).physicalPgdAddress) (hg : Intact L (.running k live) (.free vmm)) :
    ∃ N, ∀ fuel, fuel ≤ N ∧ SpaceRecords.freeVirtualAddressSpace fuel vmm k = .error .endless ∨
      ∃ r, SpaceRecords.freeVirtualAddressSpace fuel vmm k = .ok r ∧
        Matched L (.running k live) (.running r.2 (live.erase vmm)) := by
  obtain ⟨free,q,hc⟩ := hi.cells
  obtain ⟨hheader,pre,hl,hpre⟩ := hg
  obtain ⟨rfl,rfl⟩ := free_eq hc hl hpre
  obtain ⟨dirs,ranges,hk⟩ := hi.spaces
  have hmem : k.record vmm ∈ live.map k.record := List.mem_map_of_mem hv
  obtain ⟨p,hp,hadr,-,hcall⟩ := AddressSpaces.free_known hk hmem hcr3
  have hspot := hc.spots vmm hv
  refine ⟨free.length,fun fuel => ?_⟩
  rw [SpaceRecords.freeVirtualAddressSpace, undefinedUnless_of hspot.1, ok_bind]
  simp only
  rw [onMachine_ok hcall, ok_bind]
  rcases kfree_ends hl (fun x hx => (hc.headers x hx).2.1) (spot_header hc hspot) fuel with ⟨hfuel,hend⟩ | hend
  · rw [hend]
    exact Or.inl ⟨hfuel,rfl⟩
  obtain ⟨hcells,hkeeps⟩ := cells_free hc hv hheader
  have hsub : ∀ x ∈ live.erase vmm, x ∈ live := fun x hx => List.mem_of_mem_erase hx
  rw [hend]
  obtain ⟨k',hk'⟩ : ∃ k' : Kernel, k' = ⟨withoutPage k.machine L.kheapPageTables p, push free (vmm-headerSize) k.heap,
    heapPage (k.record vmm).pageDirectory::k.stale⟩ := ⟨_,rfl⟩
  have hrecord : (live.erase vmm).map k'.record = (live.map k.record).erase (k.record vmm) := by
    rw [erase_map (List.Nodup.of_map Vas.pageDirectory hk.apart) hv, hk']
    exact map_record ⟨fun x hx => hkeeps.next x (hsub x hx),fun x hx => hkeeps.size x (hsub x hx)⟩
  have hstep : AddressSpaces.step L (view (.running k live)) (.free (k.record vmm)) =
      some (view (.running k' (live.erase vmm))) := by
    rw [view, AddressSpaces.step, if_pos ⟨hmem,hcr3⟩, hcall, view, hrecord, hk']
    rfl
  subst hk'
  refine Or.inr ⟨_,rfl,matched_one hi.spaces hstep trivial ⟨_,null,hcells.choose_spec⟩
    (fun r hr => ?_) fun w hw r hr => ?_⟩
  · obtain ⟨p',hp',hadr',hbit⟩ := hi.taken r hr
    refine ⟨p',hp',hadr',?_⟩
    have hne : p' ≠ p := fun he => hi.apart vmm hv r hr (BitVec.eq_of_toNat_eq (by rw [hadr, hadr', he]))
    rw [AddressSpaces.bit_withoutPage _ _ hp, hbit, decide_eq_false hne]
    rfl
  · change (push free (vmm-headerSize) k.heap).links.next w ≠ r.address
    rw [hkeeps.next w (hsub w hw)]
    exact hi.apart w (hsub w hw) r hr

theorem returned_ok {α : Type} {next : α → State} {x : Except Fault α} {s : State}
    (hx : ∃ r, x = .ok r ∧ Matched L s (next r)) : ∃ t, returned next x = some t ∧ Matched L s t := by
  obtain ⟨r,rfl,hr⟩ := hx
  exact ⟨_,rfl,hr⟩

theorem returned_endless {α : Type} {next : α → State} {x : Except Fault α} {s : State} {N fuel : ℕ}
    (hx : fuel ≤ N ∧ x = .error .endless ∨ ∃ r, x = .ok r ∧ Matched L s (next r)) :
    fuel ≤ N ∧ returned next x = none ∨ ∃ t, returned next x = some t ∧ Matched L s t := by
  rcases hx with ⟨hfuel,rfl⟩ | hx
  · exact Or.inl ⟨hfuel,rfl⟩
  · exact Or.inr (returned_ok hx)

end

def Called : State → Op → Prop
  | .undefined, _ => False
  | .running _ _, .heap n => n ≠ 0#32
  | .running _ live, .switch vmm => vmm ∈ live
  | .running k live, .free vmm => vmm ∈ live ∧ k.machine.cr3 = (k.record vmm).physicalPgdAddress
  | .running _ _, _ => True

/-- With more than `N` rounds for its loops a call returns, and its step is a
run on address spaces. -/
theorem step_cases {L : Layout} {s : State} {op : Op} (hi : Inv L s) (hc : Called s op) (hg : Intact L s op) :
    ∃ N, ∀ fuel, fuel ≤ N ∧ step L fuel s op = none ∨ ∃ t, step L fuel s op = some t ∧ Matched L s t := by
  cases s with
  | undefined => exact hi.elim
  | running k live =>
    cases op with
    | heap n =>
      have hn : n ≠ 0#32 := hc
      refine ⟨0,fun fuel => Or.inr ?_⟩
      rw [step, if_neg hn]
      exact returned_ok (heap_matched hi hn hg)
    | alloc =>
      obtain ⟨N,hN⟩ := alloc_matched hi hg
      refine ⟨N,fun fuel => returned_endless ((hN fuel).imp_right ?_)⟩
      rintro ⟨v,k',hcall,hne,hm⟩
      exact ⟨_,hcall,by simpa only [if_neg hne] using hm⟩
    | switch vmm =>
      have hv : vmm ∈ live := hc
      refine ⟨0,fun fuel => Or.inr ?_⟩
      rw [step, if_pos hv]
      exact returned_ok (switch_matched hi hv)
    | mmap v n => exact ⟨0,fun fuel => Or.inr (returned_ok (mmap_matched hi hg))⟩
    | free vmm =>
      have hv : vmm ∈ live ∧ k.machine.cr3 = (k.record vmm).physicalPgdAddress := hc
      obtain ⟨N,hN⟩ := free_matched hi hv.1 hv.2 hg
      refine ⟨N,fun fuel => ?_⟩
      rw [step, if_pos hv]
      exact returned_endless (hN fuel)

theorem called_of_step {L : Layout} {fuel : ℕ} {s t : State} {op : Op} (ht : step L fuel s op = some t) :
    Called s op := by
  by_contra hn
  cases s with
  | undefined => cases ht
  | running k live =>
    cases op with
    | heap n =>
      rw [step, if_pos (not_not.mp hn)] at ht
      cases ht
    | switch vmm =>
      have hv : vmm ∉ live := hn
      rw [step, if_neg hv] at ht
      cases ht
    | free vmm =>
      have hv : ¬ (vmm ∈ live ∧ k.machine.cr3 = (k.record vmm).physicalPgdAddress) := hn
      rw [step, if_neg hv] at ht
      cases ht
    | _ => exact hn trivial

theorem step_matched {L : Layout} {fuel : ℕ} {s t : State} {op : Op} (hi : Inv L s) (hg : Intact L s op)
    (ht : step L fuel s op = some t) : Matched L s t := by
  obtain ⟨N,hN⟩ := step_cases hi (called_of_step ht) hg
  rcases hN fuel with ⟨-,hnone⟩ | ⟨t',ht',hm⟩
  · rw [ht] at hnone
    cases hnone
  · rw [ht, Option.some.injEq] at ht'
    exact ht' ▸ hm

theorem step_returns {L : Layout} {s : State} {op : Op} (hi : Inv L s) (hc : Called s op) (hg : Intact L s op) :
    ∃ N, ∀ fuel, N < fuel → ∃ t, step L fuel s op = some t ∧ Inv L t := by
  obtain ⟨N,hN⟩ := step_cases hi hc hg
  refine ⟨N,fun fuel hlt => ?_⟩
  rcases hN fuel with ⟨hle,-⟩ | ⟨t,ht,hm⟩
  · omega
  · exact ⟨t,ht,hm.inv⟩

/-! ## A run from the start of the kernel -/

def started (m : Machine) : State := .running ⟨m, Heap.boot, []⟩ []

theorem inv_of_start {L : Layout} {ram : Frames} {map : Ram} {mapAddr mapLength : Word} {memoryFuel : ℕ}
    {phys : PhysicalMem} {m : Machine}
    (hinit : phyMemoryManagerInit L.toKernelImage map mapAddr mapLength memoryFuel = .ok phys)
    (hstart : Boot.start L ram phys = .ok m) : Inv L (started m) := by
  have hcells : Cells Heap.boot [] [] null :=
    ⟨by simp [Heap.boot],by simp [Heap.boot],by simp,List.nodup_nil,rfl,List.nodup_nil,Or.inl rfl,by simp⟩
  exact ⟨⟨[],null,hcells⟩,by simp [Heap.boot],by simp,AddressSpaces.inv_of_start hinit hstart⟩

/-- Every run that starts with the kernel and keeps to the condition. -/
theorem isolated_while_intact (L : Layout) (ram : Frames) (map : Ram) (mapAddr mapLength : Word)
    (memoryFuel fuel : ℕ) (phys : PhysicalMem) (m : Machine) (ops : List Op)
    (hinit : phyMemoryManagerInit L.toKernelImage map mapAddr mapLength memoryFuel = .ok phys)
    (hstart : Boot.start L ram phys = .ok m)
    (hintact : Transition.Guarded (step L fuel) (Intact L) ops (started m)) :
    Transition.Always (step L fuel) (Isolated L) ops (started m) :=
  Transition.always_of_guarded (isolated_of_inv L) (fun _ _ _ hi hg ht => (step_matched hi hg ht).inv)
    (inv_of_start hinit hstart) hintact

/-! ## Memory to spare, and memory that runs out -/

def bootPage (page : Word) : Heap := push [] page (withPage page Heap.boot)

theorem boot_kmalloc {L : Layout} {m m' : Machine} {page size : Word}
    (htake : takePages L 1#32 ⟨m, Heap.boot, []⟩ = .ok (page, ⟨m', Heap.boot, []⟩)) (hp : page ≠ null)
    (hpages : pageCount (unitsOf size) = 1#32) (hcell : IsCell (bootPage page) page)
    (hfit : (bootPage page).blockSize page ≥ unitsOf size)
    (hheader : IsCell (bootPage page) ((take (unitsOf size) none (bootPage page)).1-headerSize)) (fuel : ℕ) :
    kmalloc L (fuel+2) size ⟨m, Heap.boot, []⟩ = .ok ((take (unitsOf size) none (bootPage page)).1,
      ⟨m', (take (unitsOf size) none (bootPage page)).2, []⟩) := by
  have hblock : IsCell (withPage page Heap.boot) (page+headerSize-headerSize) := by
    rw [BitVec.add_sub_cancel]
    exact hcell
  have hgrow : increaseHeapSize L (fuel+1) (unitsOf size) ⟨m, Heap.boot, []⟩ = .ok (.success, ⟨m', bootPage page, []⟩) := by
    rw [increaseHeapSize, hpages, htake, ok_bind]
    simp only [if_neg hp]
    have hnil : Linked null (withPage page Heap.boot).links.next (withPage page Heap.boot).links.head [] null := rfl
    rcases kfree_ends hnil (by simp) hblock (fuel+1) with ⟨hle,-⟩ | hend
    · simp at hle
    · rw [BitVec.add_sub_cancel] at hend
      rw [withPage] at hend
      rw [hend]
      rfl
  have hnone : load Heap.boot.links none = null := rfl
  have hload : load (bootPage page).links none = page := rfl
  rw [kmalloc, search, if_pos hnone, hgrow, ok_bind]
  simp only
  rw [if_neg (by simp), hload, undefinedUnless_of hcell, ok_bind, if_pos hfit, undefinedUnless_of hheader, ok_bind]
  rfl

def firstRecord : Word := 0xC0800FF0#32

/-- The cells when the first record is handed out: the page has one block, the
header of the record is its last cell but one. -/
def firstCells : Heap := (take 1#32 none (bootPage 0xC0800000#32)).2

theorem first_kmalloc {L : Layout} {m m' : Machine}
    (htake : takePages L 1#32 ⟨m, Heap.boot, []⟩ = .ok (0xC0800000#32, ⟨m', Heap.boot, []⟩)) (fuel : ℕ) :
    kmalloc L (fuel+2) 8#32 ⟨m, Heap.boot, []⟩ = .ok (firstRecord, ⟨m', firstCells, []⟩) := by
  rw [boot_kmalloc htake (by decide) (by decide) (by decide) (by decide) (by decide),
    show (take (unitsOf 8#32) none (bootPage 0xC0800000#32)).1 = firstRecord by decide]
  rfl

theorem storeRecord_cell {h : Heap} {a : Word} (ha : IsCell h a) (v : Word) (record : Vas) :
    IsCell (storeRecord v record h) a := ha

theorem record_stored (m : Machine) (h : Heap) (v : Word) (record : Vas) (stale : List ℕ) :
    (⟨m, storeRecord v record h, stale⟩ : Kernel).record v = record := by
  simp [Kernel.record, storeRecord, Heap.setSize, Heap.assign]

/-- Where `kmalloc` gave out `v`, an address space is made there and taken into use. -/
theorem alloc_switched {L : Layout} {k : Kernel} (live : List Word) {fuel : ℕ} {v : Word} {m m' : Machine} {h : Heap}
    {record : Vas} (hcall : kmalloc L fuel 8#32 k = .ok (v, ⟨m, h, []⟩)) (hv : v ≠ null) (hcell : IsCell h v)
    (hdir : allocPageDir L m = .ok (some record, m')) (hne : record.pageDirectory ≠ null) :
    step L fuel (.running k live) .alloc = some (.running ⟨m', storeRecord v record h, []⟩ (v::live)) ∧
      step L fuel (.running ⟨m', storeRecord v record h, []⟩ (v::live)) (.switch v) = some (.running
        ⟨{ m' with cr3 := record.physicalPgdAddress }, storeRecord v record h, []⟩ (v::live)) := by
  constructor
  · rw [step, allocVirtualAddressSpace, hcall, ok_bind]
    simp only
    rw [if_neg hv, onMachine_ok hdir, ok_bind]
    simp only
    rw [undefinedUnless_of ⟨by simp [SpaceRecords.Reached],hcell⟩, ok_bind]
    change some (State.running _ (if v = null then live else v::live)) = _
    rw [if_neg hv]
  · rw [step, if_pos List.mem_cons_self, SpaceRecords.switchVirtualAddressSpace,
      undefinedUnless_of (storeRecord_cell hcell v record), ok_bind, record_stored,
      VirtualMemory.switchVirtualAddressSpace, if_neg hne]
    rfl

def inFirstSpace (L : Layout) (m : Machine) (f : ℕ) (phys : PhysicalMem) : Kernel :=
  ⟨{ withDirectory L m 0 1 f phys with cr3 := frameAddress f },
    storeRecord firstRecord ⟨0xC0801000#32, frameAddress f⟩ firstCells, []⟩

theorem first_cell : IsCell firstCells firstRecord :=
  ⟨by decide,⟨1#32, 0xC0800000#32⟩,List.mem_cons_self,by decide,by decide,by decide⟩

/-- Two frames are enough to make the first address space and switch to it. -/
theorem into_first_space {L : Layout} {phys : PhysicalMem} {m : Machine} {n : ℕ} (hi : Inv L (started m))
    (hm : Started L phys m) (hleft : left L.toKernelImage phys = n+2) :
    ∃ m₁ f phys', f < 2^20 ∧ f ≠ 0 ∧ f ≠ L.kheapPageTables ∧ left L.toKernelImage phys' = n ∧ ∀ fuel,
      Transition.Reaches (step L (fuel+2)) (Intact L) [.alloc, .switch firstRecord] (started m)
        (.running (inFirstSpace L m₁ f phys') [firstRecord]) := by
  have hfree := started_free hm
  have hfree₁ : FreeFrom (taken m.heapBitmap 1#32 0 0) 1 := freeFrom_taken hfree (by decide)
  have hs : Suitable m.heapBitmap 1 0 0 := suitable_freeFrom hfree (by omega) (by omega) (by decide) (by omega)
  have hs₁ : Suitable (taken m.heapBitmap 1#32 0 0) 1 0 1 :=
    suitable_freeFrom hfree₁ (by omega) (by omega) (by decide) (by omega)
  have hcount : left L.toKernelImage m.phys = n+2 := by rw [hm.phys_eq, hleft]
  obtain ⟨m₁,htake,hstep₁,hspare,hbitmap,hleft₁⟩ := takePages_ok hi (n := 1#32) (by decide) hs (by simp)
    (by rw [hcount]; change 1 ≤ n+2; omega)
  rw [show foundAddress 0 0 = 0xC0800000#32 by decide] at htake
  change left L.toKernelImage m₁.phys+1 = left L.toKernelImage m.phys at hleft₁
  have hrun₁ : Transition.run (AddressSpaces.step L) [.heap 1#32] (view (started m)) = some (.running m₁ []) := by
    rw [Transition.run_cons, started, hstep₁]
    rfl
  have hlast₁ : Transition.Guarded (AddressSpaces.step L) (AddressSpaces.FramesLast L) [.heap 1#32] (view (started m)) :=
    fun _ _ => ⟨hspare.last,trivial⟩
  obtain ⟨dirs,ranges,hk⟩ := AddressSpaces.inv_of_run hi.spaces hlast₁ hrun₁
  obtain ⟨f,phys',hdir,hf,hgrant,-,hleft₂⟩ := AddressSpaces.alloc_left hk (hbitmap.symm ▸ hs₁) (by omega)
  rw [show foundAddress 0 1 = 0xC0801000#32 by decide] at hdir
  have hun := Ownership.unheld_of_granted hk.running.owned hf hgrant
  have hroom : Intact L (started m) .alloc := by
    refine Or.inr ⟨⟨[],rfl,by simp⟩,?_,0,0,hs,by simp,0,1,hs₁,by simp,trivial⟩
    change 2 ≤ left L.toKernelImage m.phys
    omega
  refine ⟨m₁,f,phys',hf,hun.pos,fun he => hun.fixed (he ▸ heap_reserved L),by omega,fun fuel => ?_⟩
  have hsteps := alloc_switched [] (first_kmalloc htake fuel) (by decide) first_cell hdir
    (show 0xC0801000#32 ≠ null by decide)
  exact ⟨_,hsteps.1,hroom,_,hsteps.2,trivial,rfl⟩

theorem first_spares (record : Vas) : Spares (storeRecord firstRecord record firstCells) [firstRecord] firstRecord := by
  have hlinked : Linked null firstCells.links.next firstCells.links.head [0xC0800000#32] null :=
    ⟨by decide,by decide,show firstCells.links.next 0xC0800000#32 = null by decide⟩
  have hne : ∀ x ∈ [0xC0800000#32], x ≠ firstRecord := by
    rw [List.forall_mem_singleton]
    decide
  exact ⟨by decide,[0xC0800000#32],linked_frame hlinked fun x hx => store_next_ne _ _ (hne x hx),fun x hx hm =>
    hne x hx (List.mem_singleton.mp hm)⟩

def firstRun : List Op := [.alloc, .switch firstRecord, .mmap 0x40000000#32 2#32, .free firstRecord]

/-- Eight frames are enough for an address space with two pages. -/
theorem first_run_isolated : ∃ phys m fuel,
    phyMemoryManagerInit smallImage (AddressSpaces.regionMap 0x80#8) 0x9000#32 1#32 2 = .ok phys ∧
    Boot.start smallLayout (fun _ _ => 0#32) phys = .ok m ∧
    Transition.Guarded (step smallLayout fuel) (Intact smallLayout) firstRun (started m) ∧
    (∃ t, Transition.run (step smallLayout fuel) firstRun (started m) = some t) ∧
    Transition.Always (step smallLayout fuel) (Isolated smallLayout) firstRun (started m) := by
  obtain ⟨phys,hinit,hbits⟩ := AddressSpaces.region_init 0x80#8 0x8000#32 (by decide) (by decide) (by decide)
  obtain ⟨m,hstart,hm⟩ := start_ok smallLayout (fun _ _ => 0#32) phys
  have hi := inv_of_start hinit hstart
  obtain ⟨m₁,f,phys',-,-,-,hcount,hinto⟩ := into_first_space hi hm
    (AddressSpaces.region_left (n := 8) (by omega) hbits)
  have hi₁ : Inv smallLayout (.running (inFirstSpace smallLayout m₁ f phys') [firstRecord]) :=
    Transition.always_run _ (Transition.always_of_guarded (fun _ h => h) (fun _ _ _ hi hg ht => (step_matched hi hg ht).inv)
      hi (Transition.reaches_guarded (hinto 0))) (Transition.reaches_run (hinto 0))
  have hmmap : Intact smallLayout (.running (inFirstSpace smallLayout m₁ f phys') [firstRecord])
      (.mmap 0x40000000#32 2#32) := by
    refine Or.inr ((demand_le _ _ _ _).trans ?_)
    rw [show mmapCount 0x40000000#32 2#32 = 2 by decide]
    change 4 ≤ left smallImage phys'
    change left smallImage phys' = 6 at hcount
    omega
  obtain ⟨dirs,ranges,hk⟩ := hi₁.spaces
  obtain ⟨⟨code,m₂⟩,hcall,-,-,hcr3⟩ := AddressSpaces.mmap_inv hk hmmap
  obtain ⟨k,hk₂⟩ : ∃ k : Kernel, k = { inFirstSpace smallLayout m₁ f phys' with machine := m₂ } := ⟨_,rfl⟩
  have hstep : ∀ fuel, step smallLayout fuel (.running (inFirstSpace smallLayout m₁ f phys') [firstRecord])
      (.mmap 0x40000000#32 2#32) = some (.running k [firstRecord]) := fun fuel => by
    rw [step, onMachine_ok hcall, hk₂]
    rfl
  have hfree : Intact smallLayout (.running k [firstRecord]) (.free firstRecord) := by
    rw [hk₂]
    exact first_spares _
  have hcalled : Called (.running k [firstRecord]) (.free firstRecord) := by
    refine ⟨List.mem_singleton_self _,?_⟩
    rw [hk₂]
    exact hcr3.trans (congrArg Vas.physicalPgdAddress (record_stored m₂ firstCells firstRecord
      ⟨0xC0801000#32, frameAddress f⟩ [])).symm
  obtain ⟨N,hN⟩ := step_returns (step_matched hi₁ hmmap (hstep 0)).inv hcalled hfree
  obtain ⟨t,ht,-⟩ := hN (N+2) (by omega)
  have hreach : Transition.Reaches (step smallLayout (N+2)) (Intact smallLayout) firstRun (started m) t :=
    Transition.reaches_append (hinto N) ⟨_,hstep _,hmmap,_,ht,hfree,rfl⟩
  have hguard := Transition.reaches_guarded hreach
  exact ⟨phys,m,N+2,hinit,hstart,hguard,⟨t,Transition.reaches_run hreach⟩,
    isolated_while_intact smallLayout _ _ _ _ _ _ _ _ _ hinit hstart hguard⟩

def exhaustingRun : List Op := [.alloc, .switch firstRecord, .mmap 0x40000000#32 2#32]

/-- The only available frames become the page of the record and the directory.
`mmap` returns `SUCCESS` and both of its pages are frame zero. -/
theorem exhausted_pages_not_isolated : ∃ phys m,
    phyMemoryManagerInit smallImage (AddressSpaces.regionMap 0x20#8) 0x9000#32 1#32 2 = .ok phys ∧
    Boot.start smallLayout (fun _ _ => 0#32) phys = .ok m ∧
    (∃ k, Transition.run (step smallLayout 2) exhaustingRun (started m) = some (.running k [firstRecord]) ∧
      AddressSpaces.UserMapped k.machine.mem (frameOf (k.record firstRecord).physicalPgdAddress) 0x40000 0 ∧
      AddressSpaces.UserMapped k.machine.mem (frameOf (k.record firstRecord).physicalPgdAddress) 0x40001 0) ∧
    ¬ Transition.Always (step smallLayout 2) (Isolated smallLayout) exhaustingRun (started m) := by
  obtain ⟨phys,hinit,hbits⟩ := AddressSpaces.region_init 0x20#8 0x2000#32 (by decide) (by decide) (by decide)
  obtain ⟨m,hstart,hm⟩ := start_ok smallLayout (fun _ _ => 0#32) phys
  obtain ⟨m₁,f,phys',hf,hpos,hfH,hcount,hinto⟩ := into_first_space (inv_of_start hinit hstart) hm
    (AddressSpaces.region_left (n := 2) (by omega) hbits)
  change left smallImage phys' = 0 at hcount
  obtain ⟨hpage,hzero⟩ := Teardown.withDirectory_page (L := smallLayout) (i := 0) (s := 1) m₁ phys' hf hfH (by omega)
  obtain ⟨m₂,hloop,hu,hu'⟩ := AddressSpaces.pages_share_frame (L := smallLayout) (v := 0x40000000#32)
    hpage.mapped.current hpos (by unfold Mmaps.UserPage; decide) (by decide) ((left_eq_zero_iff smallImage phys').mp hcount)
    (hzero 256 (by omega))
  have hmap : VirtualMemory.mmap smallLayout 0x40000000#32 2#32 (inFirstSpace smallLayout m₁ f phys').machine =
      .ok (.success, m₂) := by
    rw [VirtualMemory.mmap, show mmapRejects 0x40000000#32 2#32 = false by decide, if_neg (by simp),
      show mmapCount 0x40000000#32 2#32 = 2 by decide, inFirstSpace, hloop]
    rfl
  obtain ⟨k,hk⟩ : ∃ k : Kernel, k = { inFirstSpace smallLayout m₁ f phys' with machine := m₂ } := ⟨_,rfl⟩
  have hrun : Transition.run (step smallLayout 2) exhaustingRun (started m) = some (.running k [firstRecord]) := by
    rw [show exhaustingRun = [.alloc, .switch firstRecord] ++ [.mmap 0x40000000#32 2#32] from rfl, Transition.run_append,
      Transition.reaches_run (hinto 0), Option.bind_some, Transition.run_cons, step, onMachine_ok hmap, hk]
    rfl
  have hrecord : k.record firstRecord = ⟨0xC0801000#32, frameAddress f⟩ := by
    rw [hk]
    exact record_stored m₂ firstCells firstRecord _ []
  have hdirectory : frameOf (k.record firstRecord).physicalPgdAddress = f := by
    rw [hrecord]
    exact frameOf_frameAddress hf
  have hmachine : k.machine.mem = m₂.mem := by rw [hk]
  refine ⟨phys,m,hinit,hstart,⟨k,hrun,?_,?_⟩,fun halways => ?_⟩
  · rw [hmachine, hdirectory]
    exact hu
  · rw [hmachine, hdirectory]
    exact hu'
  · have hiso : Isolated smallLayout (.running k [firstRecord]) := Transition.always_run _ halways hrun
    have hmem : f ∈ AddressSpaces.directories smallLayout [k.record firstRecord] := by
      rw [AddressSpaces.directories, List.map_singleton, hdirectory]
      exact List.mem_cons_of_mem _ (List.mem_singleton_self f)
    rw [← hmachine] at hu
    exact (hiso.granted f hmem _ _ hu).1 rfl

end MikeOS.SpaceRuns
