import MikeOS.KernelHeap

/-!
# Memory behind the two-level walk

Physical memory is kept by frames of 1024 words. Every access of the running
code goes through the walk: `cr3` names the directory, the upper ten bits of
an address its entry, the next ten the entry of the table. An entry that is not
present is a page fault. A page that is cleared is looked up once.
-/

set_option autoImplicit false

namespace MikeOS.Mmu
open BitArray MikeOS.Paging MikeOS.PhysicalMemory MikeOS.KernelHeap

abbrev Frames := ℕ → ℕ → Word

/-- A page that `mmap` mapped: the directory, the number of the virtual page
and what `allocate_physical_page` returned for it. -/
structure Grant where
  directory : ℕ
  page : ℕ
  address : Word
  deriving DecidableEq, Repr

/-- `grants` is a record of the run that no function reads. -/
structure Machine where
  mem : Frames
  cr3 : Word
  heapBitmap : Bytes
  phys : PhysicalMem
  grants : List Grant

def Machine.withMem (m : Machine) (mem : Frames) : Machine := { m with mem := mem }

def Machine.withPhys (m : Machine) (phys : PhysicalMem) : Machine := { m with phys := phys }

section fields
variable (m : Machine) (mem : Frames) (phys : PhysicalMem)

@[simp] theorem withMem_mem : (m.withMem mem).mem = mem := rfl
@[simp] theorem withMem_cr3 : (m.withMem mem).cr3 = m.cr3 := rfl
@[simp] theorem withMem_heapBitmap : (m.withMem mem).heapBitmap = m.heapBitmap := rfl
@[simp] theorem withMem_phys : (m.withMem mem).phys = m.phys := rfl
@[simp] theorem withMem_grants : (m.withMem mem).grants = m.grants := rfl
@[simp] theorem withMem_withMem (mem' : Frames) : (m.withMem mem').withMem mem = m.withMem mem := rfl
@[simp] theorem withPhys_mem : (m.withPhys phys).mem = m.mem := rfl
@[simp] theorem withPhys_cr3 : (m.withPhys phys).cr3 = m.cr3 := rfl
@[simp] theorem withPhys_heapBitmap : (m.withPhys phys).heapBitmap = m.heapBitmap := rfl
@[simp] theorem withPhys_phys : (m.withPhys phys).phys = phys := rfl
@[simp] theorem withPhys_grants : (m.withPhys phys).grants = m.grants := rfl

end fields

def frameOf (entry : Word) : ℕ := entry.toNat/4096

def Machine.granting (m : Machine) (page : ℕ) (address : Word) : Machine :=
  { m with grants := ⟨frameOf m.cr3, page, address⟩ :: m.grants }

@[simp] theorem granting_mem (m : Machine) (p : ℕ) (a : Word) : (m.granting p a).mem = m.mem := rfl
@[simp] theorem granting_cr3 (m : Machine) (p : ℕ) (a : Word) : (m.granting p a).cr3 = m.cr3 := rfl
@[simp] theorem granting_heapBitmap (m : Machine) (p : ℕ) (a : Word) :
    (m.granting p a).heapBitmap = m.heapBitmap := rfl
@[simp] theorem granting_grants (m : Machine) (p : ℕ) (a : Word) :
    (m.granting p a).grants = ⟨frameOf m.cr3, p, a⟩ :: m.grants := rfl

def isPresent (entry : Word) : Bool := entry.getLsbD 0

def walk (m : Machine) (v : Word) : Except Stop ℕ :=
  let directoryEntry := m.mem (frameOf m.cr3) (addressToDirectoryEntry v).toNat
  if isPresent directoryEntry then
    let tableEntry := m.mem (frameOf directoryEntry) (addressToPageTableEntry v).toNat
    if isPresent tableEntry then .ok (frameOf tableEntry) else .error .pageFault
  else .error .pageFault

def wordIndex (v : Word) : ℕ := v.toNat%4096/4

def setWord (mem : Frames) (f i : ℕ) (w : Word) : Frames :=
  Function.update mem f (Function.update (mem f) i w)

def setFrame (mem : Frames) (f : ℕ) (words : ℕ → Word) : Frames := Function.update mem f words

def loadWord (v : Word) (m : Machine) : Except Stop Word := do
  let f ← walk m v
  return m.mem f (wordIndex v)

def storeWord (v w : Word) (m : Machine) : Except Stop Machine := do
  let f ← walk m v
  return m.withMem (setWord m.mem f (wordIndex v) w)

/-- `memset(NULL, page, PAGE_SIZE)` -/
def clearPage (v : Word) (m : Machine) : Except Stop Machine := do
  let f ← walk m v
  return m.withMem (setFrame m.mem f fun _ => 0#32)

def loadByte (v : Word) (m : Machine) : Except Stop Byte := do
  let f ← walk m v
  return Words.byteOf (m.mem f (wordIndex v)) (v.toNat%4)

def storeByte (v : Word) (b : Byte) (m : Machine) : Except Stop Machine := do
  let f ← walk m v
  return m.withMem (setWord m.mem f (wordIndex v) (Words.setByte (m.mem f (wordIndex v)) (v.toNat%4) b))

def storeBytes : Word → List Byte → Machine → Except Stop Machine
  | _, [], m => .ok m
  | v, b::bytes, m => do
    let m ← storeByte v b m
    storeBytes (v+1#32) bytes m

def editEntry (v attributes : Word) (m : Machine) : Except Stop Machine := do
  let entry ← loadWord v m
  storeWord v (editEntryAttributes entry attributes) m

def writeEntry (v address attributes : Word) (m : Machine) : Except Stop Machine := do
  let m ← storeWord v address m
  editEntry v attributes m

/-! ## Entries -/

def frameAddress (f : ℕ) : Word := BitVec.ofNat 32 (4096*f)

def entry (f attributes : ℕ) : Word := BitVec.ofNat 32 (4096*f+attributes)

theorem toNat_entry {f a : ℕ} (hf : f < 2^20) (ha : a < 4096) : (entry f a).toNat = 4096*f+a := by
  rw [entry, BitVec.toNat_ofNat, Nat.mod_eq_of_lt (by omega)]

@[simp] theorem frameOf_entry {f a : ℕ} (hf : f < 2^20) (ha : a < 4096) : frameOf (entry f a) = f := by
  rw [frameOf, toNat_entry hf ha]
  omega

theorem toNat_frameAddress {f : ℕ} (hf : f < 2^20) : (frameAddress f).toNat = 4096*f :=
  toNat_entry (a := 0) hf (by omega)

@[simp] theorem frameOf_frameAddress {f : ℕ} (hf : f < 2^20) : frameOf (frameAddress f) = f :=
  frameOf_entry (a := 0) hf (by omega)

theorem isPresent_entry {f a : ℕ} (ha : a%2 = 1) : isPresent (entry f a) = true := by
  rw [isPresent, entry, BitVec.getLsbD_ofNat, Nat.testBit_zero]
  simp only [Nat.ofNat_pos, decide_true, Bool.true_and, decide_eq_true_eq]
  omega

theorem frameAddress_or {f a : ℕ} (hf : f < 2^20) (ha : a < 4096) :
    editEntryAttributes (frameAddress f) (BitVec.ofNat 32 a) = entry f a := by
  have hadr := toNat_frameAddress hf
  have hattr : (BitVec.ofNat 32 a).toNat = a := by
    rw [BitVec.toNat_ofNat, Nat.mod_eq_of_lt (by omega)]
  apply BitVec.eq_of_toNat_eq
  rw [editEntryAttributes, Words.toNat_or_tag _ _ 12 (by omega) (by omega), toNat_entry hf ha, hadr, hattr]

theorem entry_ne_zero {f a : ℕ} (hf : f < 2^20) (ha : a < 4096) (h0 : 0 < a) : entry f a ≠ 0#32 := by
  intro h
  have := congrArg BitVec.toNat h
  rw [toNat_entry hf ha] at this
  simp at this
  omega

theorem entry_inj {f g a : ℕ} (hf : f < 2^20) (hg : g < 2^20) (ha : a < 4096) (h : entry f a = entry g a) :
    f = g := by
  have := congrArg frameOf h
  rwa [frameOf_entry hf ha, frameOf_entry hg ha] at this

theorem frame_lt (w : Word) : frameOf w < 2^20 := by
  have := w.isLt
  unfold frameOf
  omega

/-! ## Accesses through the last entry of a directory -/

@[simp] theorem setWord_self (mem : Frames) (f i : ℕ) (w : Word) : setWord mem f i w f i = w := by
  simp [setWord]

theorem setWord_frame (mem : Frames) {f g : ℕ} (i : ℕ) (w : Word) (h : g ≠ f) :
    setWord mem f i w g = mem g := by
  simp [setWord, Function.update_of_ne h]

theorem setWord_index (mem : Frames) (f : ℕ) {i j : ℕ} (w : Word) (h : j ≠ i) :
    setWord mem f i w f j = mem f j := by
  simp [setWord, Function.update_of_ne h]

theorem setWord_twice (mem : Frames) (f i : ℕ) (w u : Word) :
    setWord (setWord mem f i w) f i u = setWord mem f i u := by
  simp [setWord]

@[simp] theorem setFrame_self (mem : Frames) (f : ℕ) (words : ℕ → Word) :
    setFrame mem f words f = words := by
  simp [setFrame]

theorem setFrame_frame (mem : Frames) {f g : ℕ} (words : ℕ → Word) (h : g ≠ f) :
    setFrame mem f words g = mem g := by
  simp [setFrame, Function.update_of_ne h]

structure Current (m : Machine) (D : ℕ) : Prop where
  cr3 : frameOf m.cr3 = D
  lt : D < 2^20
  self : m.mem D 1023 = entry D 3

theorem walk_eq {m : Machine} {v : Word} {D i j f : ℕ} (hc : frameOf m.cr3 = D)
    (hi : v.toNat/2^22 = i) (hj : v.toNat/4096%1024 = j) (hdir : isPresent (m.mem D i) = true)
    (htab : isPresent (m.mem (frameOf (m.mem D i)) j) = true)
    (hf : frameOf (m.mem (frameOf (m.mem D i)) j) = f) : walk m v = .ok f := by
  rw [walk, toNat_addressToDirectoryEntry, toNat_addressToPageTableEntry, hc, hi, hj]
  simp only [hdir, htab, hf, if_true]

theorem walk_directory {m : Machine} {D : ℕ} (h : Current m D) {v : Word}
    (hv : v.toNat/4096 = 1023*1024+1023) : walk m v = .ok D := by
  have hf : frameOf (m.mem D 1023) = D := by rw [h.self, frameOf_entry h.lt (by omega)]
  have hp : isPresent (m.mem D 1023) = true := by rw [h.self, isPresent_entry (by omega)]
  exact walk_eq (i := 1023) (j := 1023) h.cr3 (by omega) (by omega) hp (by rwa [hf]) (by rw [hf, hf])

theorem walk_table {m : Machine} {D : ℕ} (h : Current m D) {v : Word} {i : ℕ} (hi : i < 1024)
    (hv : v.toNat/4096 = 1023*1024+i) (hp : isPresent (m.mem D i) = true) :
    walk m v = .ok (frameOf (m.mem D i)) := by
  have hf : frameOf (m.mem D 1023) = D := by rw [h.self, frameOf_entry h.lt (by omega)]
  have hself : isPresent (m.mem D 1023) = true := by rw [h.self, isPresent_entry (by omega)]
  exact walk_eq (i := 1023) (j := i) h.cr3 (by omega) (by omega) hself (by rwa [hf]) (by rw [hf])

theorem loadWord_ok {m : Machine} {v : Word} {f : ℕ} (h : walk m v = .ok f) :
    loadWord v m = .ok (m.mem f (wordIndex v)) := by
  rw [loadWord, h]
  rfl

theorem storeWord_ok {m : Machine} {v : Word} (w : Word) {f : ℕ} (h : walk m v = .ok f) :
    storeWord v w m = .ok (m.withMem (setWord m.mem f (wordIndex v) w)) := by
  rw [storeWord, h]
  rfl

theorem clearPage_ok {m : Machine} {v : Word} {f : ℕ} (h : walk m v = .ok f) :
    clearPage v m = .ok (m.withMem (setFrame m.mem f fun _ => 0#32)) := by
  rw [clearPage, h]
  rfl

/-- Writing an entry when the write leaves the walk to it alone. -/
theorem writeEntry_ok {m : Machine} {v : Word} {f g a : ℕ} (hg : g < 2^20) (ha : a < 4096)
    (h : walk m v = .ok f)
    (hw : walk (m.withMem (setWord m.mem f (wordIndex v) (frameAddress g))) v = .ok f) :
    writeEntry v (frameAddress g) (BitVec.ofNat 32 a) m =
      .ok (m.withMem (setWord m.mem f (wordIndex v) (entry g a))) := by
  rw [writeEntry, storeWord_ok _ h]
  change editEntry v (BitVec.ofNat 32 a) _ = _
  rw [editEntry, loadWord_ok hw]
  change storeWord v _ _ = _
  rw [storeWord_ok _ hw]
  simp only [withMem_mem, withMem_withMem, setWord_self, setWord_twice, frameAddress_or hg ha]

end MikeOS.Mmu
