import MikeOS.KernelHeapSearch
import MikeOS.Library.Extent
import MikeOS.Library.Transition

/-!
# Live page ranges of the kernel heap

A run of the page allocator keeps the ranges handed out and not freed. The
invariant ties the bitmap to them: inside the window a page is available
exactly when no live range covers it. A run that uses an undefined value ends
in a state of its own.
-/

set_option autoImplicit false

namespace MikeOS.KernelHeapRuns
open BitArray Runs MikeOS.Memory MikeOS.PhysicalMemory MikeOS.KernelHeap MikeOS.KernelHeapSearch

structure Range where
  address : Word
  numPages : Word
  deriving DecidableEq, Repr

def Range.extent (r : Range) : Extent := ⟨r.address.toNat, 4096*r.numPages.toNat⟩

inductive Op where
  | alloc (numPages : Word)
  | map (physicalAddress numPages : Word)
  | free (address numPages : Word)
  deriving DecidableEq, Repr

inductive State where
  | running (k : Kheap) (live : List Range)
  | undefined

def returned (live : List Range) (numPages : Word) : Except Stop (Word × Kheap) → Option State
  | .ok (address, k) => some (.running k (if address = null then live else ⟨address, numPages⟩ :: live))
  | .error .undefined => some .undefined
  | .error .pageFault => none

/-- At least one page is asked for, and only a live range is freed. -/
def step (image : KernelImage) : State → Op → Option State
  | .undefined, _ => none
  | .running k live, .alloc n =>
    if n = 0#32 then none else returned live n (allocKheapPages image n k)
  | .running k live, .map physicalAddress n =>
    if n = 0#32 then none else returned live n (mapPhysicalAddressToKheap physicalAddress n k)
  | .running k live, .free address n =>
    if ⟨address, n⟩ ∈ live then
      match freeKheapPages address n k with
      | .ok (_, k) => some (.running k (live.erase ⟨address, n⟩))
      | .error .undefined => some .undefined
      | .error .pageFault => none
    else none

def start (phys : PhysicalMem) : State := .running (kheapInit (Kheap.boot phys)) []

structure Placed (r : Range) : Prop where
  aligned : r.address.toNat%4096 = 0
  above : kheapBeginAddress.toNat ≤ r.address.toNat
  below : r.address.toNat+4096*r.numPages.toNat ≤ kheapEndAddress.toNat

def Sound : State → Prop
  | .undefined => False
  | .running _ live => (∀ r ∈ live, Placed r) ∧ (live.map Range.extent).Pairwise Extent.Apart

/-- A run of `n` available pages inside the window starts at page `s` counted
from the first byte that is not zero. Fewer than `n` pages before it are
available, and the pages the search still needs end before the last page it
looks at. -/
structure Suitable (bitmap : Bytes) (n i s : ℕ) : Prop where
  first : FirstByte bitmap i
  start : s = 0 ∨ bit bitmap (8*i+s-1) = false
  few : count (avail bitmap i) s < n
  free : ∀ q, q < n → bit bitmap (8*i+s+q) = true
  seen : s+n-count (avail bitmap i) s < chunk n
  inside : 8*i+s+n ≤ 1024

def Fits (bitmap : Bytes) (n : Word) : Prop :=
  Clear bitmap n.toNat ∨ ∃ i s, Suitable bitmap n.toNat i s

def FitsSearch : State → Op → Prop
  | .running k _, .alloc n => Fits k.bitmap n
  | .running k _, .map _ n => Fits k.bitmap n
  | _, _ => True

theorem found_of_suitable {bitmap : Bytes} {n i s : ℕ} (h : Suitable bitmap n i s) :
    Found bitmap n i s := by
  have hfew := h.few
  have hseen := h.seen
  have hcount := count_add (p := avail bitmap i) (s := s) (m := n-count (avail bitmap i) s-1)
    (fun q hq => by rw [avail, ← Nat.add_assoc]; exact h.free q (by omega))
  refine ⟨h.first,s+(n-count (avail bitmap i) s-1),⟨by omega,fun q h1 h2 => ?_,?_⟩,by omega,by omega⟩
  · have := h.free (q-s) (by omega)
    rwa [show 8*i+s+(q-s) = 8*i+q by omega] at this
  · by_cases h0 : s = 0
    · exact Or.inl h0
    · rw [avail, show 8*i+(s-1) = 8*i+s-1 by omega]
      exact h.start

theorem suitable_of_found {bitmap : Bytes} {n i s : ℕ} (h : Found bitmap n i s)
    (hfree : ∀ q, q < n → bit bitmap (8*i+s+q) = true) (hin : 8*i+s+n ≤ 1024) :
    Suitable bitmap n i s := by
  obtain ⟨e,hrun,hcount,hlt⟩ := h.found
  have hle := hrun.le
  have hadd := count_add (p := avail bitmap i) (s := s) (m := e-s)
    (fun q hq => hrun.holds (s+q) (by omega) (by omega))
  rw [show s+(e-s) = e by omega] at hadd
  refine ⟨h.first,?_,by omega,hfree,by omega,hin⟩
  by_cases h0 : s = 0
  · exact Or.inl h0
  · have := hrun.start
    rwa [avail, show 8*i+(s-1) = 8*i+s-1 by omega] at this

/-! ## The bitmap after a search and after a free -/

theorem bit_writeFrom (bitmap : Bytes) {i s : ℕ} {n : Word} (h : s+n.toNat < 2^31) (q : ℕ) :
    bit (writeFrom bitmap i (turnBitsOff (fromByte bitmap i) (BitVec.ofNat 32 s) n)) q =
      (!decide (8*i+s ≤ q ∧ q < 8*i+s+n.toNat) && bit bitmap q) := by
  have hs : (BitVec.ofNat 32 s).toNat = s := by
    rw [BitVec.toNat_ofNat, Nat.mod_eq_of_lt (by omega)]
  by_cases hq : q/8 < i
  · rw [bit, writeFrom, if_pos hq, decide_eq_false (by omega)]
    rfl
  · have hb := bit_turnBitsOff (fromByte bitmap i) (BitVec.ofNat 32 s) n (q-8*i) (by omega)
    have hfrom : bit (fromByte bitmap i) (q-8*i) = bit bitmap q := by
      rw [bit, bit, fromByte, show i+(q-8*i)/8 = q/8 by omega, show (q-8*i)%8 = q%8 by omega]
    rw [hs, hfrom] at hb
    have hrange : decide (8*i+s ≤ q ∧ q < 8*i+s+n.toNat) =
        decide (s ≤ q-8*i ∧ q-8*i < s+n.toNat) := decide_eq_decide.mpr (by omega)
    rw [hrange, ← hb, bit, bit, writeFrom, if_neg hq, show q/8-i = (q-8*i)/8 by omega,
      show q%8 = (q-8*i)%8 by omega]

/-! ## The invariant -/

def windowBase : ℕ := 0xC0800000

theorem toNat_begin : kheapBeginAddress.toNat = windowBase := by decide

theorem toNat_end : kheapEndAddress.toNat = windowBase+4096*1024 := by decide

def Covers (r : Range) (p : ℕ) : Prop :=
  r.address.toNat ≤ windowBase+4096*p ∧ windowBase+4096*p < r.address.toNat+4096*r.numPages.toNat

structure PagesInv (bitmap : Bytes) (live : List Range) : Prop where
  placed : ∀ r ∈ live, Placed r ∧ 0 < r.numPages.toNat
  apart : (live.map Range.extent).Pairwise Extent.Apart
  bits : ∀ p, p < 1024 → (bit bitmap p = true ↔ ∀ r ∈ live, ¬ Covers r p)
  high : HighClear bitmap

def Inv : State → Prop
  | .undefined => False
  | .running k live => PagesInv k.bitmap live

theorem sound_of_inv (s : State) (h : Inv s) : Sound s := by
  cases s with
  | running k live => exact ⟨fun r hr => (h.placed r hr).1,h.apart⟩
  | undefined => exact h

theorem bit_kheapInit (phys : PhysicalMem) (p : ℕ) :
    bit (kheapInit (Kheap.boot phys)).bitmap p = decide (p < 32768) := by
  have hsize : 4*Paging.pageTableSize = 4096 := rfl
  change (if p/8 < 4*Paging.pageTableSize then 0xFF#8 else 0#8).getMsbD (p%8) = _
  by_cases hp : p < 32768
  · have h8 : ∀ k : Fin 8, (0xFF#8).getMsbD k.val = true := by decide
    rw [if_pos (by omega), decide_eq_true hp]
    exact h8 ⟨p%8,by omega⟩
  · rw [if_neg (by omega), decide_eq_false hp]
    exact BitVec.getMsbD_zero

theorem inv_start (phys : PhysicalMem) : Inv (start phys) := by
  refine ⟨by simp,by simp,fun p hp => ?_,fun p hp => ?_⟩
  · rw [bit_kheapInit, decide_eq_true (by omega)]
    simp
  · rw [bit_kheapInit, decide_eq_false (by omega)]

theorem suitable_start (phys : PhysicalMem) :
    Suitable (kheapInit (Kheap.boot phys)).bitmap 1 0 0 := by
  have hbit := bit_kheapInit phys
  refine ⟨⟨?_,by simp⟩,Or.inl rfl,by simp,fun q hq => ?_,by simp [chunk],by omega⟩
  · intro h0
    have := (byte_eq_zero_iff (kheapInit (Kheap.boot phys)).bitmap 0).mp h0 0 rfl
    rw [hbit] at this
    cases this
  · rw [hbit]
    simp
    omega

/-! ## Allocating -/

theorem overEntries_bitmap {body : ℕ → Kheap → Kheap} (hb : ∀ i k, (body i k).bitmap = k.bitmap)
    (count i : ℕ) (k : Kheap) :
    overEntries body count i k = .error .pageFault ∨
      ∃ k', overEntries body count i k = .ok k' ∧ k'.bitmap = k.bitmap := by
  induction count generalizing i k with
  | zero => exact Or.inr ⟨k,rfl,rfl⟩
  | succ count ih =>
    rw [overEntries]
    split
    · rw [← hb i k]
      exact ih (i+1) (body i k)
    · exact Or.inl rfl

def Follows (found : Except Stop (Word × Bytes)) (outcome : Except Stop (Word × Kheap)) : Prop :=
  match found with
  | .error stop => outcome = .error stop
  | .ok (address, bitmap) =>
    outcome = .error .pageFault ∨ ∃ k, outcome = .ok (address, k) ∧ k.bitmap = bitmap

theorem allocEntry_bitmap (image : KernelImage) (i : ℕ) (k : Kheap) :
    (allocEntry image i k).bitmap = k.bitmap := rfl

theorem mapEntry_bitmap (physicalAddress : Word) (first i : ℕ) (k : Kheap) :
    (KernelHeap.mapEntry physicalAddress first i k).bitmap = k.bitmap := rfl

theorem freeEntry_bitmap (i : ℕ) (k : Kheap) : (freeEntry i k).bitmap = k.bitmap := rfl

theorem searchThen_follows {found : Except Stop (Word × Bytes)} {fill : Word → Bytes → Except Stop Kheap}
    (hfill : ∀ address bitmap, fill address bitmap = .error .pageFault ∨
      ∃ k, fill address bitmap = .ok k ∧ k.bitmap = bitmap) :
    Follows found (searchThen found fill) := by
  rcases found with stop | ⟨address,bitmap⟩
  · rfl
  · rw [searchThen]
    rcases hfill address bitmap with he | ⟨k,he,hk⟩
    · exact Or.inl (by rw [he])
    · exact Or.inr ⟨k,by rw [he],hk⟩

theorem alloc_follows (image : KernelImage) (n : Word) (k : Kheap) :
    Follows (getFreeContinuousBlocksAddress n k.bitmap) (allocKheapPages image n k) :=
  searchThen_follows (fun _ _ => overEntries_bitmap (allocEntry_bitmap image) _ _ _)

theorem map_follows (physicalAddress n : Word) (k : Kheap) :
    Follows (getFreeContinuousBlocksAddress n k.bitmap)
      (mapPhysicalAddressToKheap physicalAddress n k) :=
  searchThen_follows (fun _ _ => overEntries_bitmap (mapEntry_bitmap physicalAddress _) _ _ _)

theorem toNat_foundAddress {i s : ℕ} (h : 8*i+s < 32768) :
    (foundAddress i s).toNat = windowBase+4096*(8*i+s) := by
  rw [foundAddress, toNat_page, toNat_begin, windowBase]
  omega

theorem alloc_inv {bitmap : Bytes} {live : List Range} (hi : PagesInv bitmap live) {n : Word}
    {i s : ℕ} (hn : n ≠ 0#32) (h : Suitable bitmap n.toNat i s) :
    PagesInv (writeFrom bitmap i (turnBitsOff (fromByte bitmap i) (BitVec.ofNat 32 s) n))
      (⟨foundAddress i s, n⟩ :: live) := by
  have hin := h.inside
  have hadr := toNat_foundAddress (i := i) (s := s) (by omega)
  have hbits := bit_writeFrom bitmap (i := i) (s := s) (n := n) (by omega)
  have hpos : 0 < n.toNat := by bv_omega
  have hnew : ∀ p, Covers ⟨foundAddress i s, n⟩ p ↔ 8*i+s ≤ p ∧ p < 8*i+s+n.toNat := by
    intro p
    simp only [Covers, hadr]
    omega
  refine ⟨List.forall_mem_cons.mpr ⟨⟨⟨?_,?_,?_⟩,hpos⟩,hi.placed⟩,?_,fun p hp => ?_,fun p hp => ?_⟩
  · simp only [hadr, windowBase]
    omega
  · rw [hadr, toNat_begin]
    omega
  · simp only [hadr, toNat_end]
    omega
  · refine List.pairwise_cons.mpr ⟨fun e he => ?_,hi.apart⟩
    obtain ⟨r,hr,rfl⟩ := List.mem_map.mp he
    obtain ⟨⟨hal,habove,hbelow⟩,hrpos⟩ := hi.placed r hr
    rw [toNat_begin] at habove
    rw [toNat_end] at hbelow
    unfold windowBase at *
    -- a page in both ranges would be available and covered at once
    by_contra hover
    simp only [Extent.Apart, Range.extent, hadr] at hover
    obtain ⟨t,ht⟩ : ∃ t, r.address.toNat = 0xC0800000+4096*t := ⟨(r.address.toNat-0xC0800000)/4096,by omega⟩
    have hfree := h.free (max (8*i+s) t-(8*i+s)) (by omega)
    rw [show 8*i+s+(max (8*i+s) t-(8*i+s)) = max (8*i+s) t by omega] at hfree
    refine (hi.bits (max (8*i+s) t) (by omega)).mp hfree r hr ?_
    unfold Covers windowBase
    omega
  · rw [hbits, List.forall_mem_cons, hnew, Bool.and_eq_true, hi.bits p hp, Bool.not_eq_true',
      decide_eq_false_iff_not]
  · rw [hbits, hi.high p hp, Bool.and_false]

theorem found_ne_null {i s : ℕ} (h : 8*i+s < 32768) : foundAddress i s ≠ null := by
  have hadr := toNat_foundAddress h
  intro h0
  rw [h0] at hadr
  simp [null, windowBase] at hadr
  omega

theorem search_suitable {bitmap : Bytes} (hh : HighClear bitmap) {n : Word} (hn : n ≠ 0#32) {i s : ℕ}
    (hs : Suitable bitmap n.toNat i s) :
    getFreeContinuousBlocksAddress n bitmap = .ok (foundAddress i s,
      writeFrom bitmap i (turnBitsOff (fromByte bitmap i) (BitVec.ofNat 32 s) n)) := by
  have hfound := found_of_suitable hs
  have hbound := found_bounds hh hfound
  rcases search_cases hh hn with ⟨hclear,-⟩ | ⟨-,hnone,-⟩ | ⟨j,t,ht,hg⟩
  · exact absurd hclear (not_clear_of_firstByte hs.first (by omega))
  · exact absurd hfound (hnone i s)
  · obtain ⟨rfl,rfl⟩ := found_unique hfound ht
    exact hg

theorem first_search (phys : PhysicalMem) :
    ∃ bitmap, getFreeContinuousBlocksAddress 1#32 (kheapInit (Kheap.boot phys)).bitmap =
      .ok (0xC0800000#32, bitmap) :=
  ⟨_,search_suitable (inv_start phys).high (n := 1#32) (by decide) (suitable_start phys)⟩

theorem first_entry (body : ℕ → Kheap → Kheap) (k : Kheap) :
    overEntries body (entryLoopCount (Paging.addressToPageTableEntry 0xC0800000#32) 1#32)
      (Paging.addressToPageTableEntry 0xC0800000#32).toNat k = .ok (body 0 k) := by
  have hentry : Paging.addressToPageTableEntry 0xC0800000#32 = 0#32 := by decide
  have hcount : entryLoopCount 0#32 1#32 = 1 := by decide
  rw [hentry, hcount, BitVec.toNat_zero, overEntries, if_pos (show 0 < Paging.pageTableSize by decide), overEntries]

theorem returned_fits {k : Kheap} {live : List Range} {n : Word} (hi : PagesInv k.bitmap live)
    (hn : n ≠ 0#32) (hfit : Fits k.bitmap n) {outcome : Except Stop (Word × Kheap)}
    (ho : Follows (getFreeContinuousBlocksAddress n k.bitmap) outcome) {t : State}
    (ht : returned live n outcome = some t) : Inv t := by
  rcases hfit with hclear | ⟨i,s,hs⟩
  · rcases search_cases hi.high hn with ⟨-,hg⟩ | ⟨hno,-,-⟩ | ⟨i,s,hfound,-⟩
    · rw [hg] at ho
      rcases ho with rfl | ⟨k',rfl,hk⟩
      · cases ht
      · rw [returned, if_pos rfl, Option.some.injEq] at ht
        subst ht
        rw [Inv, hk]
        exact hi
    · exact absurd hclear hno
    · have hbound := found_bounds hi.high hfound
      exact absurd hclear (not_clear_of_firstByte hfound.first (by omega))
  · have hin := hs.inside
    rw [search_suitable hi.high hn hs] at ho
    rcases ho with rfl | ⟨k',rfl,hk⟩
    · cases ht
    · rw [returned, if_neg (found_ne_null (by omega)), Option.some.injEq] at ht
      subst ht
      rw [Inv, hk]
      exact alloc_inv hi hn hs

/-- A range that a search found is suitable when it lies in the window and is
apart from the live ones. -/
theorem suitable_of_placed {bitmap : Bytes} {live : List Range} (hi : PagesInv bitmap live) {n : Word}
    {i s : ℕ} (hfound : Found bitmap n.toNat i s) (hplaced : Placed ⟨foundAddress i s, n⟩)
    (hapart : ∀ r ∈ live, Extent.Apart (Range.extent ⟨foundAddress i s, n⟩) r.extent) :
    Suitable bitmap n.toNat i s := by
  have hadr := toNat_foundAddress (found_bounds hi.high hfound).2.1
  have hbelow := hplaced.below
  rw [toNat_end] at hbelow
  simp only [hadr] at hbelow
  refine suitable_of_found hfound (fun q hq => ?_) (by omega)
  rw [hi.bits _ (by omega)]
  intro r hr hcov
  have hap := hapart r hr
  simp only [Extent.Apart, Range.extent, hadr] at hap
  unfold Covers at hcov
  omega

/-- A search that is not suitable is undefined, or its range leaves the window
or covers a page of a live range. -/
theorem returned_unfit {k : Kheap} {live : List Range} {n : Word} (hi : PagesInv k.bitmap live)
    (hn : n ≠ 0#32) (hfit : ¬ Fits k.bitmap n) {outcome : Except Stop (Word × Kheap)}
    (ho : Follows (getFreeContinuousBlocksAddress n k.bitmap) outcome) {t : State}
    (ht : returned live n outcome = some t) : ¬ Sound t := by
  rcases search_cases hi.high hn with ⟨hclear,-⟩ | ⟨-,-,hg⟩ | ⟨i,s,hfound,hg⟩
  · exact absurd (Or.inl hclear) hfit
  · rw [hg] at ho
    rw [show outcome = .error .undefined from ho, returned, Option.some.injEq] at ht
    subst ht
    exact id
  · have hbound := found_bounds hi.high hfound
    rw [hg] at ho
    rcases ho with rfl | ⟨k',rfl,-⟩
    · cases ht
    · rw [returned, if_neg (found_ne_null hbound.2.1), Option.some.injEq] at ht
      subst ht
      rintro ⟨hplaced,hapart⟩
      rw [List.map_cons, List.pairwise_cons] at hapart
      exact hfit (Or.inr ⟨i,s,suitable_of_placed hi hfound (hplaced _ List.mem_cons_self)
        fun r hr => hapart.1 _ (List.mem_map.mpr ⟨r,hr,rfl⟩)⟩)

/-! ## Freeing -/

theorem covers_disjoint {bitmap : Bytes} {live : List Range} (hi : PagesInv bitmap live) {r t : Range}
    {l : List Range} (hperm : live.Perm (r::l)) (ht : t ∈ l) (p : ℕ) :
    ¬ (Covers r p ∧ Covers t p) := by
  have hpair := Extent.pairwise_perm (hperm.map Range.extent) hi.apart
  rw [List.map_cons, List.pairwise_cons] at hpair
  have hap := hpair.1 _ (List.mem_map.mpr ⟨t,ht,rfl⟩)
  simp only [Extent.Apart, Range.extent] at hap
  unfold Covers
  omega

theorem free_bits {k k' : Kheap} {r : Range} (h : Placed r) (hpos : 0 < r.numPages.toNat) {code : ErrorCode}
    (hf : freeKheapPages r.address r.numPages k = .ok (code, k')) :
    k'.bitmap = turnBitsOn k.bitmap (addressToBitIndex r.address kheapBeginAddress) r.numPages := by
  obtain ⟨hal,habove,hbelow⟩ := h
  have hle : r.address ≥ kheapBeginAddress := habove
  have hlt : r.address < kheapEndAddress := by
    change r.address.toNat < kheapEndAddress.toNat
    omega
  rw [freeKheapPages, if_neg (not_not.mpr ⟨hle,hlt⟩),
    if_neg (not_not.mpr ((pageBoundary_eq_iff r.address).mpr hal))] at hf
  rcases overEntries_bitmap freeEntry_bitmap
    (entryLoopCount (Paging.addressToPageTableEntry r.address) r.numPages)
    (Paging.addressToPageTableEntry r.address).toNat
    { k with bitmap := turnBitsOn k.bitmap (addressToBitIndex r.address kheapBeginAddress) r.numPages }
    with he | ⟨g,he,hg⟩
  · simp only [he] at hf
    cases hf
  · simp only [he] at hf
    cases hf
    exact hg

theorem free_inv {k k' : Kheap} {live : List Range} (hi : PagesInv k.bitmap live) {r : Range}
    (hr : r ∈ live) {code : ErrorCode}
    (hf : freeKheapPages r.address r.numPages k = .ok (code, k')) : PagesInv k'.bitmap (live.erase r) := by
  obtain ⟨hplaced,hpos⟩ := hi.placed r hr
  have hk' := free_bits hplaced hpos hf
  have hal := hplaced.aligned
  have habove := hplaced.above
  have hbelow := hplaced.below
  have hindex := toNat_addressToBitIndex r.address kheapBeginAddress (by decide) habove
  rw [toNat_begin] at habove hindex
  rw [toNat_end] at hbelow
  unfold windowBase at habove hbelow hindex
  have hbits := bit_turnBitsOn k.bitmap (addressToBitIndex r.address kheapBeginAddress) r.numPages
  have hcov : ∀ p, Covers r p ↔ (addressToBitIndex r.address kheapBeginAddress).toNat ≤ p ∧
      p < (addressToBitIndex r.address kheapBeginAddress).toNat+r.numPages.toNat := by
    intro p
    unfold Covers windowBase
    omega
  have hperm := List.perm_cons_erase hr
  rw [hk']
  refine ⟨fun t ht => hi.placed t (List.mem_of_mem_erase ht),?_,fun p hp => ?_,fun p hp => ?_⟩
  · have hpair := Extent.pairwise_perm (hperm.map Range.extent) hi.apart
    rw [List.map_cons, List.pairwise_cons] at hpair
    exact hpair.2
  · rw [hbits p (by omega), Bool.or_eq_true, decide_eq_true_iff, ← hcov, hi.bits p hp]
    constructor
    · rintro (hc | hfree) t ht
      · exact fun hct => covers_disjoint hi hperm ht p ⟨hc,hct⟩
      · exact hfree t (List.mem_of_mem_erase ht)
    · intro hfree
      by_cases hc : Covers r p
      · exact Or.inl hc
      · refine Or.inr (fun t ht => ?_)
        rcases List.mem_cons.mp (hperm.mem_iff.mp ht) with rfl | hte
        · exact hc
        · exact hfree t hte
  · rw [hbits p (by omega), hi.high p hp, decide_eq_false (by omega)]
    rfl

/-! ## Runs -/

theorem free_defined (address n : Word) (k : Kheap) :
    freeKheapPages address n k ≠ .error .undefined := by
  intro hf
  rw [freeKheapPages] at hf
  split at hf
  · cases hf
  split at hf
  · cases hf
  · rcases overEntries_bitmap freeEntry_bitmap (entryLoopCount (Paging.addressToPageTableEntry address) n)
      (Paging.addressToPageTableEntry address).toNat
      { k with bitmap := turnBitsOn k.bitmap (addressToBitIndex address kheapBeginAddress) n } with
      he | ⟨g,he,-⟩ <;> simp only [he] at hf <;> cases hf

theorem step_fits (image : KernelImage) (s : State) (op : Op) (t : State) (hi : Inv s)
    (hfit : FitsSearch s op) (hs : step image s op = some t) : Inv t := by
  cases s with
  | undefined => cases hs
  | running k live =>
    cases op with
    | alloc n =>
      rw [step] at hs
      split at hs
      · cases hs
      · rename_i hn
        exact returned_fits hi hn hfit (alloc_follows image n k) hs
    | map physicalAddress n =>
      rw [step] at hs
      split at hs
      · cases hs
      · rename_i hn
        exact returned_fits hi hn hfit (map_follows physicalAddress n k) hs
    | free address n =>
      rw [step] at hs
      split at hs
      · rename_i hlive
        split at hs
        · rename_i hf
          cases hs
          exact free_inv hi hlive hf
        · rename_i hf
          exact absurd hf (free_defined address n k)
        · cases hs
      · cases hs

theorem step_unfit (image : KernelImage) (s : State) (op : Op) (t : State) (hi : Inv s)
    (hfit : ¬ FitsSearch s op) (hs : step image s op = some t) : ¬ Sound t := by
  cases s with
  | undefined => cases hs
  | running k live =>
    cases op with
    | alloc n =>
      rw [step] at hs
      split at hs
      · cases hs
      · rename_i hn
        exact returned_unfit hi hn hfit (alloc_follows image n k) hs
    | map physicalAddress n =>
      rw [step] at hs
      split at hs
      · cases hs
      · rename_i hn
        exact returned_unfit hi hn hfit (map_follows physicalAddress n k) hs
    | free address n => exact absurd trivial hfit

/-- Every range handed out is whole pages of the window and live ranges are
apart, in all states of a run, precisely when each search of the run is
suitable for the bitmap it is made on. -/
theorem ranges_sound_iff (image : KernelImage) (phys : PhysicalMem) (ops : List Op) :
    Transition.Always (step image) Sound ops (start phys) ↔
      Transition.Guarded (step image) FitsSearch ops (start phys) :=
  Transition.always_iff_guarded Inv sound_of_inv (step_fits image) (step_unfit image) ops
    (inv_start phys)

def State.live : State → List Range
  | .running _ live => live
  | .undefined => []

def smallImage : KernelImage := ⟨0x200000#32, by decide, by decide⟩

def plenty : PhysicalMem := ⟨fun i => if i < 64 then 0#8 else 0xFF#8, false⟩

def fragmented : List Op :=
  [.alloc 1#32, .alloc 1#32, .alloc 1#32, .alloc 1#32, .free 0xC0800000#32 1#32,
    .free 0xC0802000#32 1#32, .alloc 2#32]

theorem fragmented_live : (Transition.run (step smallImage) fragmented (start plenty)).map State.live =
    some [⟨0xC0802000#32, 2#32⟩, ⟨0xC0803000#32, 1#32⟩, ⟨0xC0801000#32, 1#32⟩] := by
  decide +kernel

theorem fragmented_ranges_overlap :
    ¬ Transition.Always (step smallImage) Sound fragmented (start plenty) := by
  intro h
  obtain ⟨t,ht,hlive⟩ := Option.map_eq_some_iff.mp fragmented_live
  have hsound := Transition.always_run _ h ht
  cases t with
  | undefined => exact hsound
  | running k live =>
    change live = _ at hlive
    subst hlive
    revert hsound
    simp [Sound, Range.extent, Extent.Apart]

end MikeOS.KernelHeapRuns
