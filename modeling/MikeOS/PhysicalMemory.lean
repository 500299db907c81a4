import MikeOS.Memory

/-!
# Physical memory manager

One bit for each of the `2 ^ 20` frames of the address space, set while the
frame is available, and a flag that caches a failed search. The image of the
running kernel is placed by the linker script; the memory map is read from
memory where the boot loader left it.
-/

set_option autoImplicit false

namespace MikeOS.PhysicalMemory
open BitArray MikeOS.Memory

inductive PageState where
  | unavailable
  | available
  deriving DecidableEq, Repr

def bitmapSize : ℕ := 131072

structure PhysicalMem where
  bitmap : Bytes
  noPageAvailable : Bool

def PhysicalMem.boot : PhysicalMem := ⟨fun _ => 0#8, false⟩

def kernelStart : Word := 0x100000#32

/-- What the linker script fixes about the loaded image: it starts at 1 MB
and `kernel_end` is rounded up to a page. -/
structure KernelImage where
  kernelEnd : Word
  aligned : kernelEnd.toNat%4096 = 0
  above : 0x100000 ≤ kernelEnd.toNat

def stateBit : PageState → Byte → ℕ → Byte
  | .unavailable => turnBitOff
  | .available => turnBitOn

def changePageState (pageAddress : Word) (state : PageState) (s : PhysicalMem) :
    ErrorCode × PhysicalMem :=
  if pageBoundary pageAddress ≠ pageAddress then (.invalidArgument, s)
  else
    let bitIndex := addressToBitIndex pageAddress 0#32
    let byteIndex := (bitIndex/8#32).toNat
    let byte := stateBit state (s.bitmap byteIndex) (bitIndex%8#32).toNat
    (.success, { s with bitmap := Function.update s.bitmap byteIndex byte })

/-- The loop over `[address, end)`; the bitmap has `2 ^ 20` pages, so that
much fuel is never used up. -/
def changePages (state : PageState) : ℕ → Word → Word → PhysicalMem → ErrorCode × PhysicalMem
  | 0, _, _, s => (.success, s)
  | fuel+1, address, finish, s =>
    if address < finish then
      match changePageState address state s with
      | (.success, s') => changePages state fuel (address+pageSize) finish s'
      | (_, s') => (.failure, s')
    else (.success, s)

def changePagesState (start finish : Word) (state : PageState) (s : PhysicalMem) :
    ErrorCode × PhysicalMem :=
  if pageBoundary start ≠ start ∨ pageBoundary finish ≠ finish then (.invalidArgument, s)
  else if finish < start then (.invalidArgument, s)
  else changePages state (2^20) start finish s

structure MemoryMapEntry where
  size : Word
  addr : BitVec 64
  len : BitVec 64
  type : Word

def memoryAvailable : Word := 1#32

def readEntry (ram : Ram) (p : Word) : MemoryMapEntry where
  size := readWord ram p
  addr := readWord ram (p+8#32) ++ readWord ram (p+4#32)
  len := readWord ram (p+16#32) ++ readWord ram (p+12#32)
  type := readWord ram (p+20#32)

inductive Halt where
  | panic
  | diverges
  deriving DecidableEq, Repr

/-- The extent `map_memory` marks for an available entry, or nothing when it
continues with the next one. `addr` and `len` are cut to 32 bits; the
correction of `len` is computed in 64 bits and cut afterwards. -/
def entryExtent (e : MemoryMapEntry) : Option (Word × Word) :=
  let address := e.addr.setWidth 32
  let len := e.len.setWidth 32
  let clip := fun (address len : Word) =>
    if pageBoundary len ≠ len then
      if pageBoundary len < len then (address, pageBoundary len)
      else (address, pageBoundary len-pageSize)
    else (address, len)
  if pageBoundary address ≠ address then
    let address := nextPageBoundary address
    if len ≤ pageSize then none
    else some (clip address ((len.setWidth 64-(address.setWidth 64-e.addr)).setWidth 32))
  else some (clip address len)

def mapEntry (e : MemoryMapEntry) (s : PhysicalMem) : Except Halt PhysicalMem :=
  if e.type = memoryAvailable then
    match entryExtent e with
    | none => .ok s
    | some (address, len) =>
      match changePagesState address (address+len) .available s with
      | (.success, s') => .ok s'
      | _ => .error .panic
  else .ok s

/-- The iterator is compared with `map_addr + map_length`, a pointer sum that
counts entries of 24 bytes. It moves on by the entry's own size plus four. -/
def mapMemory (ram : Ram) (mapEnd : Word) : ℕ → Word → PhysicalMem → Except Halt PhysicalMem
  | 0, _, _ => .error .diverges
  | fuel+1, mapIterator, s =>
    if mapIterator < mapEnd then
      match mapEntry (readEntry ram mapIterator) s with
      | .ok s' => mapMemory ram mapEnd fuel (mapIterator+(readEntry ram mapIterator).size+4#32) s'
      | .error h => .error h
    else .ok s

def phyMemoryManagerInit (image : KernelImage) (ram : Ram) (mapAddr mapLength : Word) (fuel : ℕ) :
    Except Halt PhysicalMem :=
  match mapMemory ram (mapAddr+24#32*mapLength) fuel mapAddr PhysicalMem.boot with
  | .error h => .error h
  | .ok s =>
    let low := (changePagesState 0#32 0xff000#32 .unavailable s).2
    .ok (changePagesState kernelStart image.kernelEnd .unavailable low).2

def scan (bitmap : Bytes) : ℕ → ℕ → Option ℕ
  | 0, _ => none
  | fuel+1, i => if bitmap i ≠ 0#8 then some i else scan bitmap fuel (i+1)

def scanStart (image : KernelImage) : ℕ := (image.kernelEnd/pageSize/8#32).toNat

def allocatePhysicalPage (image : KernelImage) (s : PhysicalMem) : Word × PhysicalMem :=
  if s.noPageAvailable then (null, s)
  else
    match scan s.bitmap (bitmapSize-scanStart image) (scanStart image) with
    | some i =>
      let bitIndexInBitmap := BitVec.ofNat 32 (i*8+getMsbIndex (s.bitmap i))
      let address := bitIndexInBitmap*pageSize
      (address, (changePageState address .unavailable s).2)
    | none => (null, { s with noPageAvailable := true })

/-- The assigned `error_code` is the result of the comparison with `SUCCESS`:
one when the page state was changed and zero when it was not. -/
def freePhysicalPage (pageAddress : Word) (s : PhysicalMem) : ErrorCode × PhysicalMem :=
  match changePageState pageAddress .available s with
  | (.success, s') => (.failure, { s' with noPageAvailable := false })
  | (_, s') => (.success, s')

def registerPhysicalPages (startAddress endAddress : Word) (s : PhysicalMem) :
    ErrorCode × PhysicalMem :=
  changePagesState startAddress endAddress .unavailable s

def unregisterPhysicalPages (startAddress endAddress : Word) (s : PhysicalMem) :
    ErrorCode × PhysicalMem :=
  changePagesState startAddress endAddress .available s

/-! ## What each operation does to the bits -/

def put : PageState → Bytes → ℕ → Bytes
  | .unavailable => BitArray.clear
  | .available => BitArray.set

theorem bit_put_range (state : PageState) (a : Bytes) (p n q : ℕ) :
    bit (overRange (put state) a p n) q =
      if p ≤ q ∧ q < p+n then decide (state = .available) else bit a q := by
  cases state with
  | unavailable =>
    rw [put, bit_clear_range]
    by_cases h : p ≤ q ∧ q < p+n <;> simp [h]
  | available =>
    rw [put, bit_set_range]
    by_cases h : p ≤ q ∧ q < p+n <;> simp [h]

theorem changePageState_unaligned (pageAddress : Word) (state : PageState) (s : PhysicalMem)
    (h : pageAddress.toNat%4096 ≠ 0) :
    changePageState pageAddress state s = (.invalidArgument, s) := by
  rw [changePageState, if_pos]
  rwa [ne_eq, pageBoundary_eq_iff]

theorem changePageState_aligned (pageAddress : Word) (state : PageState) (s : PhysicalMem)
    (h : pageAddress.toNat%4096 = 0) :
    changePageState pageAddress state s =
      (.success, { s with bitmap := put state s.bitmap (pageAddress.toNat/4096) }) := by
  have hi : (addressToBitIndex pageAddress 0#32).toNat = pageAddress.toNat/4096 := by
    simpa using toNat_addressToBitIndex pageAddress 0#32 (by decide) (by bv_omega)
  rw [changePageState, if_neg (not_not.mpr ((pageBoundary_eq_iff pageAddress).mpr h))]
  simp only [BitVec.toNat_udiv, BitVec.toNat_umod, hi]
  cases state <;> rfl

theorem changePages_eq (state : PageState) (fuel : ℕ) (address finish : Word) (s : PhysicalMem)
    (ha : address.toNat%4096 = 0) (hf : finish.toNat%4096 = 0)
    (hfuel : (finish.toNat-address.toNat)/4096 < fuel) :
    changePages state fuel address finish s = (.success, { s with
      bitmap := overRange (put state) s.bitmap (address.toNat/4096)
        ((finish.toNat-address.toNat)/4096) }) := by
  induction fuel generalizing address s with
  | zero => omega
  | succ fuel ih =>
    by_cases hlt : address < finish
    · have hnext : (address+4096#32).toNat = address.toNat+4096 := by bv_omega
      have hcount : (finish.toNat-address.toNat)/4096 =
          (finish.toNat-(address.toNat+4096))/4096+1 := by bv_omega
      rw [changePages, if_pos hlt, changePageState_aligned address state s ha]
      simp only [pageSize_eq]
      rw [ih (address+4096#32) _ (by omega) (by omega), hnext, hcount, overRange,
        show (address.toNat+4096)/4096 = address.toNat/4096+1 by omega]
    · have hzero : (finish.toNat-address.toNat)/4096 = 0 := by bv_omega
      rw [changePages, if_neg hlt, hzero]
      rfl

theorem changePagesState_eq (start finish : Word) (state : PageState) (s : PhysicalMem)
    (ha : start.toNat%4096 = 0) (hf : finish.toNat%4096 = 0) (hle : start ≤ finish) :
    changePagesState start finish state s = (.success, { s with
      bitmap := overRange (put state) s.bitmap (start.toNat/4096)
        ((finish.toNat-start.toNat)/4096) }) := by
  have hb := (pageBoundary_eq_iff start).mpr ha
  have hc := (pageBoundary_eq_iff finish).mpr hf
  rw [changePagesState, if_neg (by simp [hb, hc]), if_neg (by bv_omega)]
  exact changePages_eq state _ start finish s ha hf (by have := finish.isLt; omega)

def Covers (start finish : Word) (q : ℕ) : Prop :=
  start.toNat%4096 = 0 ∧ finish.toNat%4096 = 0 ∧ start.toNat/4096 ≤ q ∧ q < finish.toNat/4096

instance (start finish : Word) (q : ℕ) : Decidable (Covers start finish q) := instDecidableAnd

theorem bit_changePagesState (start finish : Word) (state : PageState) (s : PhysicalMem) (q : ℕ) :
    bit (changePagesState start finish state s).2.bitmap q =
      if Covers start finish q then decide (state = .available) else bit s.bitmap q := by
  by_cases hal : start.toNat%4096 = 0 ∧ finish.toNat%4096 = 0
  · by_cases hle : start ≤ finish
    · have hnat : start.toNat ≤ finish.toNat := hle
      rw [changePagesState_eq start finish state s hal.1 hal.2 hle, bit_put_range]
      refine if_congr ?_ rfl rfl
      unfold Covers
      omega
    · have hnat : ¬ start.toNat ≤ finish.toNat := hle
      have hnot : ¬ Covers start finish q := by
        unfold Covers
        omega
      have hb := (pageBoundary_eq_iff start).mpr hal.1
      have hc := (pageBoundary_eq_iff finish).mpr hal.2
      rw [changePagesState, if_neg (by simp [hb, hc]), if_pos (BitVec.not_le.mp hle), if_neg hnot]
  · have hnot : ¬ Covers start finish q := fun h => hal ⟨h.1,h.2.1⟩
    rw [changePagesState, if_pos, if_neg hnot]
    simp only [ne_eq, pageBoundary_eq_iff]
    tauto

theorem changePageState_flag (pageAddress : Word) (state : PageState) (s : PhysicalMem) :
    (changePageState pageAddress state s).2.noPageAvailable = s.noPageAvailable := by
  rw [changePageState]
  split <;> rfl

theorem changePages_flag (state : PageState) (fuel : ℕ) (address finish : Word) (s : PhysicalMem) :
    (changePages state fuel address finish s).2.noPageAvailable = s.noPageAvailable := by
  induction fuel generalizing address s with
  | zero => rfl
  | succ fuel ih =>
    have hp := changePageState_flag address state s
    rw [changePages]
    split
    · rcases hc : changePageState address state s with ⟨code,s'⟩
      rw [hc] at hp
      cases code <;> simp only [ih] <;> exact hp
    · rfl

theorem changePagesState_flag (start finish : Word) (state : PageState) (s : PhysicalMem) :
    (changePagesState start finish state s).2.noPageAvailable = s.noPageAvailable := by
  rw [changePagesState]
  split_ifs
  · rfl
  · rfl
  · exact changePages_flag _ _ _ _ _

theorem mapEntry_flag {e : MemoryMapEntry} {s s' : PhysicalMem} (h : mapEntry e s = .ok s') :
    s'.noPageAvailable = s.noPageAvailable := by
  unfold mapEntry at h
  split at h
  · split at h
    · cases h
      rfl
    · rename_i address len _
      have hf := changePagesState_flag address (address+len) .available s
      split at h
      · rename_i t ht
        cases h
        rwa [ht] at hf
      · cases h
  · cases h
    rfl

theorem mapMemory_flag {ram : Ram} {mapEnd : Word} {fuel : ℕ} {it : Word} {s s' : PhysicalMem}
    (h : mapMemory ram mapEnd fuel it s = .ok s') : s'.noPageAvailable = s.noPageAvailable := by
  induction fuel generalizing it s with
  | zero => cases h
  | succ fuel ih =>
    rw [mapMemory] at h
    split at h
    · split at h
      · rename_i t ht
        rw [ih h, mapEntry_flag ht]
      · cases h
    · cases h
      rfl

theorem freePhysicalPage_aligned (pageAddress : Word) (s : PhysicalMem)
    (h : pageAddress.toNat%4096 = 0) :
    freePhysicalPage pageAddress s =
      (.failure, ⟨BitArray.set s.bitmap (pageAddress.toNat/4096), false⟩) := by
  rw [freePhysicalPage, changePageState_aligned pageAddress _ s h]
  rfl

theorem freePhysicalPage_unaligned (pageAddress : Word) (s : PhysicalMem)
    (h : pageAddress.toNat%4096 ≠ 0) : freePhysicalPage pageAddress s = (.success, s) := by
  rw [freePhysicalPage, changePageState_unaligned pageAddress _ s h]

theorem scan_some {bitmap : Bytes} {fuel i j : ℕ} (h : scan bitmap fuel i = some j) :
    i ≤ j ∧ j < i+fuel ∧ bitmap j ≠ 0#8 ∧ ∀ k, i ≤ k → k < j → bitmap k = 0#8 := by
  induction fuel generalizing i with
  | zero => simp [scan] at h
  | succ fuel ih =>
    by_cases hz : bitmap i = 0#8
    · rw [scan, if_neg (not_not.mpr hz)] at h
      obtain ⟨hle,hlt,hne,hlow⟩ := ih h
      refine ⟨by omega,by omega,hne,fun k hk hkj => ?_⟩
      by_cases hki : k = i
      · rw [hki, hz]
      · exact hlow k (by omega) hkj
    · rw [scan, if_pos hz, Option.some.injEq] at h
      subst h
      exact ⟨le_refl _,by omega,hz,fun k hk hki => by omega⟩

theorem scan_none {bitmap : Bytes} {fuel i : ℕ} (h : scan bitmap fuel i = none) :
    ∀ k, i ≤ k → k < i+fuel → bitmap k = 0#8 := by
  induction fuel generalizing i with
  | zero => intro k hk hki; omega
  | succ fuel ih =>
    by_cases hz : bitmap i = 0#8
    · rw [scan, if_neg (not_not.mpr hz)] at h
      intro k hk hki
      by_cases hk' : k = i
      · rw [hk', hz]
      · exact ih h k (by omega) (by omega)
    · rw [scan, if_pos hz] at h
      cases h

end MikeOS.PhysicalMemory
