import MikeOS.FrameAllocator

/-!
# The memory map

An available entry marks the whole pages of its region as long as the region,
cut to 32 bits, does not reach the end of the address space. The bound of the
loop over the entries counts 24 bytes for each byte of the map.
-/

set_option autoImplicit false

namespace MikeOS.MemoryMap
open BitArray MikeOS.PhysicalMemory

/-! ## One entry -/

def firstByte (e : MemoryMapEntry) : ℕ := (e.addr.toNat+4095)/4096*4096

def markedLength (e : MemoryMapEntry) : ℕ :=
  (e.len.toNat%2^32-(firstByte e-e.addr.toNat))/4096*4096

def PageWithin (addr len q : ℕ) : Prop := addr ≤ 4096*q ∧ 4096*q+4096 ≤ addr+len

def PageIn (e : MemoryMapEntry) (q : ℕ) : Prop := PageWithin e.addr.toNat e.len.toNat q

def Fits (e : MemoryMapEntry) : Prop := firstByte e%2^32+markedLength e < 2^32

theorem toNat_nextPageBoundary (val : Word) :
    (nextPageBoundary val).toNat = (val.toNat/4096*4096+4096)%2^32 := by
  change (pageBoundary val+pageSize).toNat = _
  rw [BitVec.toNat_add, toNat_pageBoundary, pageSize_eq]
  rfl

theorem clip_eq (len : Word) {α : Type} (f : Word → α) :
    (if pageBoundary len ≠ len then
      if pageBoundary len < len then f (pageBoundary len) else f (pageBoundary len-pageSize)
    else f len) = f (pageBoundary len) := by
  by_cases h : pageBoundary len = len
  · rw [if_neg (not_not.mpr h), h]
  · have hlt : pageBoundary len < len := by
      rw [pageBoundary_eq_iff] at h
      rw [BitVec.lt_def, toNat_pageBoundary]
      omega
    rw [if_pos h, if_pos hlt]

def leading (e : MemoryMapEntry) : ℕ := (4096-e.addr.toNat%4096)%4096

theorem firstByte_eq (e : MemoryMapEntry) : firstByte e = e.addr.toNat+leading e := by
  rw [firstByte, leading]
  omega

theorem toNat_leading (val : Word) :
    (nextPageBoundary val-val).toNat = 4096-val.toNat%4096 := by
  have hlt := val.isLt
  rw [BitVec.toNat_sub, toNat_nextPageBoundary]
  omega

theorem cut_length (address len : Word) (addr : BitVec 64) :
    (len.setWidth 64-(address.setWidth 64-addr)).setWidth 32 = len-(address-addr.setWidth 32) := by
  simp only [BitVec.sub_eq_add_neg, BitVec.setWidth_add _ _ (show 32 ≤ 64 by omega),
    BitVec.setWidth_neg_of_le (show 32 ≤ 64 by omega)]
  simp

theorem leading_aligned {e : MemoryMapEntry} (h : (e.addr.setWidth 32).toNat%4096 = 0) : leading e = 0 := by
  rw [BitVec.toNat_setWidth] at h
  rw [leading]
  omega

theorem leading_unaligned {e : MemoryMapEntry} (h : (e.addr.setWidth 32).toNat%4096 ≠ 0) :
    leading e = 4096-(e.addr.setWidth 32).toNat%4096 := by
  rw [BitVec.toNat_setWidth] at h ⊢
  rw [leading]
  omega

theorem entryExtent_cases (e : MemoryMapEntry) :
    (entryExtent e = none ∧ markedLength e = 0) ∨ ∃ address len, entryExtent e = some (address, len) ∧
      address.toNat = firstByte e%2^32 ∧ len.toNat = markedLength e := by
  have haligned := leading_aligned (e := e)
  have hunaligned := leading_unaligned (e := e)
  have haddress : (e.addr.setWidth 32).toNat = e.addr.toNat%2^32 := BitVec.toNat_setWidth 32 e.addr
  have hlen : (e.len.setWidth 32).toNat = e.len.toNat%2^32 := BitVec.toNat_setWidth 32 e.len
  rw [markedLength, ← hlen, firstByte_eq, Nat.add_sub_cancel_left]
  unfold entryExtent
  simp only [clip_eq, cut_length]
  obtain ⟨address,ha⟩ : ∃ address : Word, address = e.addr.setWidth 32 := ⟨_,rfl⟩
  obtain ⟨len,hl⟩ : ∃ len : Word, len = e.len.setWidth 32 := ⟨_,rfl⟩
  rw [← ha] at haligned hunaligned haddress ⊢
  rw [← hl]
  by_cases hal : pageBoundary address = address
  · rw [if_neg (not_not.mpr hal), haligned ((pageBoundary_eq_iff address).mp hal)]
    exact Or.inr ⟨_,_,rfl,haddress,toNat_pageBoundary len⟩
  · have hlead := hunaligned (mt (pageBoundary_eq_iff address).mpr hal)
    rw [if_pos hal, hlead]
    by_cases hshort : len ≤ pageSize
    · rw [if_pos hshort]
      have hle : len.toNat ≤ 4096 := hshort
      rw [pageBoundary_eq_iff] at hal
      exact Or.inl ⟨rfl,by omega⟩
    · rw [if_neg hshort]
      have hlt : 4096 < len.toNat := Nat.lt_of_not_le hshort
      refine Or.inr ⟨_,_,rfl,?_,?_⟩
      · rw [toNat_nextPageBoundary]
        omega
      · rw [toNat_pageBoundary, BitVec.toNat_sub_of_le, toNat_leading address]
        rw [BitVec.le_def, toNat_leading address]
        omega

theorem firstByte_mod (e : MemoryMapEntry) : firstByte e%4096 = 0 := Nat.mul_mod_left _ _

theorem markedLength_mod (e : MemoryMapEntry) : markedLength e%4096 = 0 := Nat.mul_mod_left _ _

theorem mapEntry_fits {e : MemoryMapEntry} (h : e.type = memoryAvailable) (hfits : Fits e) (s : PhysicalMem) :
    mapEntry e s = .ok { s with
      bitmap := overRange (put .available) s.bitmap (firstByte e%2^32/4096) (markedLength e/4096) } := by
  rw [mapEntry, if_pos h]
  rcases entryExtent_cases e with ⟨he,hzero⟩ | ⟨address,len,he,ha,hl⟩
  · rw [he, hzero]
    rfl
  · have hfirst := firstByte_mod e
    have hlen := markedLength_mod e
    unfold Fits at hfits
    have hsum : (address+len).toNat = firstByte e%2^32+markedLength e := by
      rw [BitVec.toNat_add, ha, hl, Nat.mod_eq_of_lt hfits]
    have hle : address ≤ address+len := by
      rw [BitVec.le_def, hsum, ha]
      omega
    rw [he]
    simp only [changePagesState_eq address (address+len) .available s (by omega) (by omega) hle, hsum, ha,
      Nat.add_sub_cancel_left]

theorem mapEntry_panics {e : MemoryMapEntry} (h : e.type = memoryAvailable) (hfits : ¬ Fits e) (s : PhysicalMem) :
    mapEntry e s = .error .panic := by
  rw [mapEntry, if_pos h]
  unfold Fits at hfits
  rcases entryExtent_cases e with ⟨-,hzero⟩ | ⟨address,len,he,ha,hl⟩
  · have := Nat.mod_lt (firstByte e) (show 0 < 2^32 by omega)
    omega
  · have hlen := len.isLt
    have hwrap : address+len < address := by
      rw [BitVec.lt_def, BitVec.toNat_add, ha, hl]
      omega
    have hrefused : changePagesState address (address+len) .available s = (.invalidArgument, s) := by
      rw [changePagesState, if_pos hwrap, ite_self]
    rw [he]
    simp only [hrefused]

theorem bit_marked (e : MemoryMapEntry) (bitmap : Bytes) (q : ℕ) :
    bit (overRange (put .available) bitmap (firstByte e%2^32/4096) (markedLength e/4096)) q = true ↔
      (firstByte e%2^32 ≤ 4096*q ∧ 4096*q+4096 ≤ firstByte e%2^32+markedLength e) ∨ bit bitmap q = true := by
  have hfirst := firstByte_mod e
  have hlen := markedLength_mod e
  rw [bit_put_range, decide_eq_true rfl]
  split
  · exact iff_of_true rfl (Or.inl (by omega))
  · exact ⟨Or.inr,fun hor => hor.resolve_left (by omega)⟩

theorem marked_le (e : MemoryMapEntry) (h : markedLength e ≠ 0) :
    firstByte e+markedLength e ≤ e.addr.toNat+e.len.toNat := by
  have hfirst := firstByte_eq e
  have hcut := Nat.mod_le e.len.toNat (2^32)
  unfold markedLength at h ⊢
  omega

/-- Processing the entry does not panic, and what it marks lies in the region. -/
def Sound (e : MemoryMapEntry) : Prop :=
  ∀ s, ∃ s', mapEntry e s = .ok s' ∧ ∀ q, bit s'.bitmap q = true → PageIn e q ∨ bit s.bitmap q = true

theorem boot_bit (q : ℕ) : bit PhysicalMem.boot.bitmap q = false := BitVec.getMsbD_zero

/-- A region from 4 GiB on marks pages of the low memory. -/
theorem high_region_unsound {e : MemoryMapEntry} (h : e.type = memoryAvailable) (hhigh : 2^32 ≤ firstByte e)
    (hlen : markedLength e ≠ 0) : ¬ Sound e := by
  intro hsound
  obtain ⟨s',hrun,hbits⟩ := hsound PhysicalMem.boot
  have hfirst := firstByte_mod e
  have hmod := markedLength_mod e
  by_cases hfits : Fits e
  · rw [mapEntry_fits h hfits, Except.ok.injEq] at hrun
    subst hrun
    rcases hbits (firstByte e%2^32/4096) ((bit_marked e _ (firstByte e%2^32/4096)).mpr (Or.inl (by omega))) with hin | hbit
    · have hlow := hin.1
      have hadd := firstByte_eq e
      unfold leading at hadd
      omega
    · rw [boot_bit] at hbit
      cases hbit
  · rw [mapEntry_panics h hfits] at hrun
    cases hrun

/-- A region whose pages reach the end of the address space panics. -/
theorem end_region_unsound {e : MemoryMapEntry} (h : e.type = memoryAvailable) (hlow : firstByte e < 2^32)
    (hend : 2^32 ≤ firstByte e+markedLength e) : ¬ Sound e := by
  intro hsound
  obtain ⟨s',hrun,-⟩ := hsound PhysicalMem.boot
  have hfits : ¬ Fits e := by
    unfold Fits
    omega
  rw [mapEntry_panics h hfits] at hrun
  cases hrun

theorem pageWithin_cut (e : MemoryMapEntry) (q : ℕ) : PageWithin e.addr.toNat (e.len.toNat%2^32) q ↔
    firstByte e ≤ 4096*q ∧ 4096*q+4096 ≤ firstByte e+markedLength e := by
  have hfirst := firstByte_eq e
  have hmod := firstByte_mod e
  have hlead : leading e < 4096 := Nat.mod_lt _ (by omega)
  rw [PageWithin, markedLength, hfirst, Nat.add_sub_cancel_left]
  rw [hfirst] at hmod
  omega

theorem marked_fits_iff (e : MemoryMapEntry) : markedLength e = 0 ∨ firstByte e+markedLength e < 2^32 ↔
    e.addr.toNat+e.len.toNat%2^32 < 2^32 ∨ ∀ q, ¬ PageWithin e.addr.toNat (e.len.toNat%2^32) q := by
  have hfirst := firstByte_eq e
  have hmod := firstByte_mod e
  have hlen := markedLength_mod e
  simp only [pageWithin_cut]
  by_cases hzero : markedLength e = 0
  · exact iff_of_true (Or.inl hzero) (Or.inr fun q hq => by omega)
  · have hpage : ¬ ∀ q, ¬ (firstByte e ≤ 4096*q ∧ 4096*q+4096 ≤ firstByte e+markedLength e) := fun hall =>
      hall (firstByte e/4096) (by omega)
    have hend : firstByte e+markedLength e < 2^32 ↔ e.addr.toNat+e.len.toNat%2^32 < 2^32 := by
      rw [markedLength, hfirst, Nat.add_sub_cancel_left] at hzero ⊢
      rw [hfirst] at hmod
      omega
    rw [or_iff_right hzero, or_iff_left hpage, hend]

theorem sound_iff_marked {e : MemoryMapEntry} (h : e.type = memoryAvailable) :
    Sound e ↔ markedLength e = 0 ∨ firstByte e+markedLength e < 2^32 := by
  constructor
  · intro hsound
    by_contra hnot
    rw [not_or] at hnot
    by_cases hlow : firstByte e < 2^32
    · exact end_region_unsound h hlow (by omega) hsound
    · exact high_region_unsound h (by omega) hnot.1 hsound
  · intro hok s
    have hfits : Fits e := by
      unfold Fits
      omega
    refine ⟨_,mapEntry_fits h hfits s,fun q hq => ?_⟩
    apply Or.imp_left _ ((bit_marked e _ q).mp hq)
    rintro ⟨hstart,hend⟩
    have hle := marked_le e (by omega)
    have hfirst := firstByte_eq e
    exact ⟨by omega,by omega⟩

theorem entry_sound_iff (e : MemoryMapEntry) (h : e.type = memoryAvailable) :
    Sound e ↔ e.addr.toNat+e.len.toNat%2^32 < 2^32 ∨
      ∀ q, ¬ PageWithin e.addr.toNat (e.len.toNat%2^32) q :=
  (sound_iff_marked h).trans (marked_fits_iff e)

theorem one_page_sound : Sound ⟨20#32, 0x100000#64, 0x1000#64, memoryAvailable⟩ :=
  (entry_sound_iff ⟨20#32, 0x100000#64, 0x1000#64, memoryAvailable⟩ rfl).mpr (Or.inl (by decide))

theorem high_memory_misplaced : ¬ Sound ⟨20#32, 0x100000000#64, 0x40000000#64, memoryAvailable⟩ :=
  high_region_unsound rfl (by decide) (by decide)

/-! ## A list of entries -/

def mapEntries (es : List MemoryMapEntry) (s : PhysicalMem) : Except Halt PhysicalMem :=
  es.foldlM (fun s e => mapEntry e s) s

/-- What `phy_memory_manager_init` takes back after the map was read. -/
def reserve (image : KernelImage) (s : PhysicalMem) : PhysicalMem :=
  (changePagesState kernelStart image.kernelEnd .unavailable (changePagesState 0#32 0xff000#32 .unavailable s).2).2

def examined (ram : Ram) (mapEnd : Word) : ℕ → Word → PhysicalMem → List Word
  | 0, _, _ => []
  | fuel+1, mapIterator, s =>
    if mapIterator < mapEnd then
      mapIterator::match mapEntry (readEntry ram mapIterator) s with
        | .ok s' => examined ram mapEnd fuel (mapIterator+(readEntry ram mapIterator).size+4#32) s'
        | .error _ => []
    else []

theorem mapEntries_cons (e : MemoryMapEntry) (es : List MemoryMapEntry) (s : PhysicalMem) :
    mapEntries (e::es) s = match mapEntry e s with
      | .ok s' => mapEntries es s'
      | .error h => .error h := by
  rw [mapEntries, List.foldlM_cons]
  cases mapEntry e s <;> rfl

/-- The loop processes the entries that it examines. -/
theorem mapMemory_examined (ram : Ram) (mapEnd : Word) (fuel : ℕ) {it : Word} {s : PhysicalMem}
    (h : (examined ram mapEnd fuel it s).length < fuel) :
    mapMemory ram mapEnd fuel it s = mapEntries ((examined ram mapEnd fuel it s).map (readEntry ram)) s := by
  induction fuel generalizing it s with
  | zero => cases h
  | succ fuel ih =>
    rw [examined] at h ⊢
    rw [mapMemory]
    split
    · rename_i hin
      rw [if_pos hin] at h
      rw [List.map_cons, mapEntries_cons]
      cases hentry : mapEntry (readEntry ram it) s with
      | error halt => rfl
      | ok s' =>
        rw [hentry] at h
        exact ih (Nat.lt_of_succ_lt_succ h)
    · rfl

theorem init_examined (image : KernelImage) (ram : Ram) (mapAddr mapLength : Word) (fuel : ℕ) {s : PhysicalMem}
    (h : mapMemory ram (mapAddr+24#32*mapLength) fuel mapAddr PhysicalMem.boot = .ok s) :
    phyMemoryManagerInit image ram mapAddr mapLength fuel = .ok (reserve image s) := by
  rw [phyMemoryManagerInit, h]
  rfl

theorem mapEntry_exact {e : MemoryMapEntry} (h : e.type = memoryAvailable → e.addr.toNat+e.len.toNat < 2^32)
    (s : PhysicalMem) : ∃ s', mapEntry e s = .ok s' ∧
      ∀ q, bit s'.bitmap q = true ↔ (e.type = memoryAvailable ∧ PageIn e q) ∨ bit s.bitmap q = true := by
  by_cases htype : e.type = memoryAvailable
  · have hsum := h htype
    have hcut : e.len.toNat%2^32 = e.len.toNat := Nat.mod_eq_of_lt (by omega)
    have hend := (marked_fits_iff e).mpr (Or.inl (by omega))
    have hfits : Fits e := by
      unfold Fits
      omega
    refine ⟨_,mapEntry_fits htype hfits s,fun q => (bit_marked e _ q).trans (or_congr_left ?_)⟩
    have hpage := pageWithin_cut e q
    rw [hcut] at hpage
    rw [PageIn, hpage, and_iff_right htype]
    have hlen := markedLength_mod e
    omega
  · rw [mapEntry, if_neg htype]
    exact ⟨s,rfl,fun q => (or_iff_right fun hin => htype hin.1).symm⟩

theorem mapEntries_exact (es : List MemoryMapEntry)
    (h : ∀ e ∈ es, e.type = memoryAvailable → e.addr.toNat+e.len.toNat < 2^32) (s : PhysicalMem) :
    ∃ s', mapEntries es s = .ok s' ∧ ∀ q, bit s'.bitmap q = true ↔
      (∃ e ∈ es, e.type = memoryAvailable ∧ PageIn e q) ∨ bit s.bitmap q = true := by
  induction es generalizing s with
  | nil => exact ⟨s,rfl,fun q => (or_iff_right (by simp)).symm⟩
  | cons e es ih =>
    obtain ⟨s₁,hrun,hbits⟩ := mapEntry_exact (h e List.mem_cons_self) s
    obtain ⟨s',hrest,hbits'⟩ := ih (fun e' he' => h e' (List.mem_cons_of_mem _ he')) s₁
    refine ⟨s',?_,fun q => ?_⟩
    · rw [mapEntries_cons, hrun]
      exact hrest
    · rw [hbits', hbits, List.exists_mem_cons_iff, or_left_comm, or_assoc]

theorem reserve_bit (image : KernelImage) (s : PhysicalMem) (q : ℕ) :
    bit (reserve image s).bitmap q = true ↔ bit s.bitmap q = true ∧ 0xff000 ≤ 4096*q ∧
      ¬ (kernelStart.toNat ≤ 4096*q ∧ 4096*q+4096 ≤ image.kernelEnd.toNat) := by
  have hend := image.aligned
  have hkernel : Covers kernelStart image.kernelEnd q ↔
      kernelStart.toNat ≤ 4096*q ∧ 4096*q+4096 ≤ image.kernelEnd.toNat := by
    rw [Covers, show kernelStart.toNat = 0x100000 from rfl]
    omega
  have hlow : Covers 0#32 0xff000#32 q ↔ ¬ 0xff000 ≤ 4096*q := by
    rw [Covers, show (0#32).toNat = 0 from rfl, show (0xff000#32).toNat = 0xff000 from rfl]
    omega
  rw [reserve, bit_changePagesState, bit_changePagesState]
  simp only [hkernel, hlow]
  split_ifs with hk hl <;> simp_all

/-- State `s` is what the map of the entries `es` leaves, and what a loop that
examines these entries leaves. -/
structure MapResult (image : KernelImage) (es : List MemoryMapEntry) (s : PhysicalMem) : Prop where
  entries : mapEntries es PhysicalMem.boot = .ok s
  available : ∀ q, bit (reserve image s).bitmap q = true ↔
    (∃ e ∈ es, e.type = memoryAvailable ∧ PageIn e q) ∧ 0xff000 ≤ 4096*q ∧
      ¬ (kernelStart.toNat ≤ 4096*q ∧ 4096*q+4096 ≤ image.kernelEnd.toNat)
  init : ∀ ram mapAddr mapLength fuel, es.length < fuel →
    (examined ram (mapAddr+24#32*mapLength) fuel mapAddr PhysicalMem.boot).map (readEntry ram) = es →
    phyMemoryManagerInit image ram mapAddr mapLength fuel = .ok (reserve image s)

theorem memory_map_exact (image : KernelImage) (es : List MemoryMapEntry)
    (h : ∀ e ∈ es, e.type = memoryAvailable → e.addr.toNat+e.len.toNat < 2^32) :
    ∃ s, MapResult image es s := by
  obtain ⟨s,hrun,hbits⟩ := mapEntries_exact es h PhysicalMem.boot
  refine ⟨s,hrun,fun q => ?_,fun ram mapAddr mapLength fuel hfuel hes => ?_⟩
  · rw [reserve_bit, hbits, boot_bit, or_iff_left Bool.false_ne_true]
  · apply init_examined
    rw [mapMemory_examined, hes, hrun]
    rwa [← hes, List.length_map] at hfuel

def overlapping : List MemoryMapEntry :=
  [⟨20#32, 0x0#64, 0x9FC00#64, memoryAvailable⟩, ⟨20#32, 0x9FC00#64, 0x60400#64, 2#32⟩,
    ⟨20#32, 0x100000#64, 0x7EE0000#64, memoryAvailable⟩, ⟨20#32, 0x100800#64, 0x10000#64, memoryAvailable⟩]

theorem overlapping_exact : ∃ s, MapResult FrameAllocator.sampleImage overlapping s :=
  memory_map_exact FrameAllocator.sampleImage overlapping (by decide)

/-! ## The loop over a buffer -/

/-- The bytes from `p` up to `finish` are entries that start at the addresses listed. -/
inductive Concatenation (ram : Ram) : ℕ → ℕ → List ℕ → Prop
  | nil (p : ℕ) : Concatenation ram p p []
  | cons {p finish : ℕ} {starts : List ℕ} (hsize : 20 ≤ (readEntry ram (BitVec.ofNat 32 p)).size.toNat)
      (hrest : Concatenation ram (p+(readEntry ram (BitVec.ofNat 32 p)).size.toNat+4) finish starts) :
      Concatenation ram p finish (p::starts)

theorem concatenation_le {ram : Ram} {p finish : ℕ} {starts : List ℕ} (h : Concatenation ram p finish starts) :
    p ≤ finish ∧ ∀ q ∈ starts, q+24 ≤ finish := by
  induction h with
  | nil p => exact ⟨le_rfl,by simp⟩
  | cons hsize hrest ih => exact ⟨by omega,List.forall_mem_cons.mpr ⟨by omega,ih.2⟩⟩

def ReachesEnd (e : MemoryMapEntry) : Prop :=
  ∃ q, PageWithin e.addr.toNat (e.len.toNat%2^32) q ∧ (q+1)%2^20 = 0

theorem fits_iff (e : MemoryMapEntry) : Fits e ↔ ¬ ReachesEnd e := by
  have hfirst := firstByte_mod e
  have hlen := markedLength_mod e
  have hlt : markedLength e < 2^32 := by
    unfold markedLength
    have := Nat.mod_lt e.len.toNat (show 0 < 2^32 by omega)
    omega
  simp only [ReachesEnd, pageWithin_cut, Fits]
  constructor
  · rintro hfits ⟨q,hq,hlast⟩
    omega
  · intro hnot
    by_contra hend
    exact hnot ⟨firstByte e/2^32*2^20+(2^20-1),by omega,by omega⟩

theorem mapEntry_ok_iff (e : MemoryMapEntry) (s : PhysicalMem) :
    (∃ s', mapEntry e s = .ok s') ↔ (e.type = memoryAvailable → ¬ ReachesEnd e) := by
  by_cases htype : e.type = memoryAvailable
  · rw [← fits_iff]
    by_cases hfits : Fits e
    · exact iff_of_true ⟨_,mapEntry_fits htype hfits s⟩ fun _ => hfits
    · refine iff_of_false ?_ fun h => hfits (h htype)
      rintro ⟨s',hrun⟩
      rw [mapEntry_panics htype hfits] at hrun
      cases hrun
  · refine iff_of_true ⟨s,?_⟩ fun h => absurd h htype
    rw [mapEntry, if_neg htype]

theorem next_entry (ram : Ram) (p : ℕ) : BitVec.ofNat 32 p+(readEntry ram (BitVec.ofNat 32 p)).size+4#32 =
    BitVec.ofNat 32 (p+(readEntry ram (BitVec.ofNat 32 p)).size.toNat+4) := by
  rw [BitVec.ofNat_add, BitVec.ofNat_add, BitVec.ofNat_toNat, BitVec.setWidth_eq]

def Examines (ram : Ram) (mapEnd : Word) (p : ℕ) (starts : List ℕ) (s : PhysicalMem) : Prop :=
  ∃ fuel s', mapMemory ram mapEnd fuel (BitVec.ofNat 32 p) s = .ok s' ∧
    examined ram mapEnd fuel (BitVec.ofNat 32 p) s = starts.map (BitVec.ofNat 32)

theorem examines_nil (ram : Ram) (mapEnd : Word) (p : ℕ) (s : PhysicalMem) :
    Examines ram mapEnd p [] s ↔ mapEnd.toNat ≤ p%2^32 := by
  have hstop : mapEnd.toNat ≤ p%2^32 ↔ ¬ BitVec.ofNat 32 p < mapEnd := by
    rw [BitVec.lt_def, BitVec.toNat_ofNat, not_lt]
  rw [hstop]
  constructor
  · rintro ⟨fuel,s',hrun,hlist⟩ hin
    cases fuel with
    | zero => cases hrun
    | succ fuel =>
      rw [examined, if_pos hin] at hlist
      cases hlist
  · intro hout
    exact ⟨1,s,by rw [mapMemory, if_neg hout],by rw [examined, if_neg hout]; rfl⟩

theorem examines_cons (ram : Ram) (mapEnd : Word) {p : ℕ} (hp : p < 2^32) (starts : List ℕ) (s : PhysicalMem) :
    Examines ram mapEnd p (p::starts) s ↔ p < mapEnd.toNat ∧
      ∃ s', mapEntry (readEntry ram (BitVec.ofNat 32 p)) s = .ok s' ∧
        Examines ram mapEnd (p+(readEntry ram (BitVec.ofNat 32 p)).size.toNat+4) starts s' := by
  have hround : BitVec.ofNat 32 p < mapEnd ↔ p < mapEnd.toNat := by
    rw [BitVec.lt_def, BitVec.toNat_ofNat, Nat.mod_eq_of_lt hp]
  constructor
  · rintro ⟨fuel,s',hrun,hlist⟩
    cases fuel with
    | zero => cases hrun
    | succ fuel =>
      rw [mapMemory] at hrun
      rw [examined] at hlist
      split at hlist
      · rename_i hin
        rw [if_pos hin] at hrun
        refine ⟨hround.mp hin,?_⟩
        cases hentry : mapEntry (readEntry ram (BitVec.ofNat 32 p)) s with
        | error halt =>
          rw [hentry] at hrun
          cases hrun
        | ok s₁ =>
          simp only [hentry, next_entry] at hrun hlist
          exact ⟨s₁,rfl,fuel,s',hrun,(List.cons.inj hlist).2⟩
      · cases hlist
  · rintro ⟨hlt,s₁,hentry,fuel,s',hrun,hlist⟩
    have hin := hround.mpr hlt
    refine ⟨fuel+1,s',?_,?_⟩
    · simp only [mapMemory, if_pos hin, hentry, next_entry, hrun]
    · simp only [examined, if_pos hin, hentry, next_entry, hlist, List.map_cons]

theorem examines_iff {ram : Ram} (mapEnd : Word) {p finish : ℕ} {starts : List ℕ}
    (h : Concatenation ram p finish starts) (hspace : finish ≤ 2^32) (s : PhysicalMem) :
    Examines ram mapEnd p starts s ↔ (∀ q ∈ starts, q < mapEnd.toNat) ∧ mapEnd.toNat ≤ finish%2^32 ∧
      ∀ q ∈ starts, (readEntry ram (BitVec.ofNat 32 q)).type = memoryAvailable →
        ¬ ReachesEnd (readEntry ram (BitVec.ofNat 32 q)) := by
  induction h generalizing s with
  | nil p => simp [examines_nil]
  | @cons p finish starts hsize hrest ih =>
    have hle := (concatenation_le hrest).1
    rw [examines_cons ram mapEnd (by omega)]
    simp only [ih hspace, exists_and_right, mapEntry_ok_iff, List.forall_mem_cons]
    tauto

/-- The initialisation returns, its loop examined the entries at `starts`, and
the entries it read lie in the buffer. -/
def Traversed (image : KernelImage) (ram : Ram) (mapAddr mapLength : Word) (starts : List ℕ) : Prop :=
  ∃ fuel s, phyMemoryManagerInit image ram mapAddr mapLength fuel = .ok s ∧
    examined ram (mapAddr+24#32*mapLength) fuel mapAddr PhysicalMem.boot = starts.map (BitVec.ofNat 32) ∧
    ∀ it ∈ examined ram (mapAddr+24#32*mapLength) fuel mapAddr PhysicalMem.boot,
      it.toNat+24 ≤ mapAddr.toNat+mapLength.toNat

theorem traversed_iff_examines {image : KernelImage} {ram : Ram} {mapAddr mapLength : Word} {starts : List ℕ}
    (h : Concatenation ram mapAddr.toNat (mapAddr.toNat+mapLength.toNat) starts) :
    Traversed image ram mapAddr mapLength starts ↔
      Examines ram (mapAddr+24#32*mapLength) mapAddr.toNat starts PhysicalMem.boot := by
  rw [Examines, BitVec.ofNat_toNat, BitVec.setWidth_eq]
  constructor
  · rintro ⟨fuel,s,hinit,hlist,-⟩
    obtain ⟨t,hrun,-⟩ := FrameAllocator.init_steps hinit
    exact ⟨fuel,t,hrun,hlist⟩
  · rintro ⟨fuel,s,hrun,hlist⟩
    refine ⟨fuel,_,init_examined image ram mapAddr mapLength fuel hrun,hlist,fun it hit => ?_⟩
    rw [hlist, List.mem_map] at hit
    obtain ⟨p,hp,rfl⟩ := hit
    have hin := (concatenation_le h).2 p hp
    have hcut := Nat.mod_le p (2^32)
    rw [BitVec.toNat_ofNat]
    omega

theorem toNat_mapEnd (mapAddr mapLength : Word) :
    (mapAddr+24#32*mapLength).toNat = (mapAddr.toNat+24*mapLength.toNat)%2^32 := by
  rw [BitVec.toNat_add, BitVec.toNat_mul, show (24#32).toNat = 24 from rfl, Nat.add_mod_mod]

/-- While the bound does not wrap, a map that is not empty is overrun. -/
theorem map_overrun {image : KernelImage} {ram : Ram} {mapAddr mapLength : Word} {starts : List ℕ}
    (h : Concatenation ram mapAddr.toNat (mapAddr.toNat+mapLength.toNat) starts) (hne : mapLength ≠ 0#32)
    (hbound : mapAddr.toNat+24*mapLength.toNat < 2^32) : ¬ Traversed image ram mapAddr mapLength starts := by
  rw [traversed_iff_examines h, examines_iff _ h (by omega), toNat_mapEnd, Nat.mod_eq_of_lt hbound,
    Nat.mod_eq_of_lt (by omega)]
  rintro ⟨-,hend,-⟩
  have hpos : mapLength.toNat ≠ 0 := fun h0 => hne (BitVec.eq_of_toNat_eq h0)
  omega

theorem traversed_iff (image : KernelImage) (ram : Ram) (mapAddr mapLength : Word) (starts : List ℕ)
    (h : Concatenation ram mapAddr.toNat (mapAddr.toNat+mapLength.toNat) starts)
    (hspace : mapAddr.toNat+mapLength.toNat ≤ 2^32) :
    Traversed image ram mapAddr mapLength starts ↔
      (∀ p ∈ starts, p < (mapAddr.toNat+24*mapLength.toNat)%2^32) ∧
      (mapAddr.toNat+24*mapLength.toNat)%2^32 ≤ (mapAddr.toNat+mapLength.toNat)%2^32 ∧
      ∀ p ∈ starts, (readEntry ram (BitVec.ofNat 32 p)).type = memoryAvailable →
        ¬ ReachesEnd (readEntry ram (BitVec.ofNat 32 p)) := by
  rw [traversed_iff_examines h, examines_iff _ h hspace, toNat_mapEnd]

def longMap : Ram := fun p =>
  if p = 0x9000#32 then 0xA7#8
  else if p = 0x9001#32 ∨ p = 0x9002#32 then 0xAA#8
  else if p = 0x9003#32 then 0x0A#8
  else 0#8

theorem longMap_traversed : Traversed FrameAllocator.sampleImage longMap 0x9000#32 0x0AAAAAAB#32 [0x9000] :=
  (traversed_iff FrameAllocator.sampleImage longMap 0x9000#32 0x0AAAAAAB#32 [0x9000]
    (.cons (by decide) (.nil _)) (by decide)).mpr
    ⟨by decide,by decide,by simp [show (readEntry longMap 0x9000#32).type ≠ memoryAvailable by decide]⟩

/-- A map of one entry of 24 bytes. -/
theorem one_entry_overrun :
    Concatenation FrameAllocator.sampleMap (0x9000#32).toNat ((0x9000#32).toNat+(24#32).toNat) [0x9000] ∧
      ¬ Traversed FrameAllocator.sampleImage FrameAllocator.sampleMap 0x9000#32 24#32 [0x9000] :=
  have h : Concatenation FrameAllocator.sampleMap (0x9000#32).toNat ((0x9000#32).toNat+(24#32).toNat) [0x9000] :=
    .cons (by decide) (.nil _)
  ⟨h,map_overrun h (by decide) (by decide)⟩

end MikeOS.MemoryMap
