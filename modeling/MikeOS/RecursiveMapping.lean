import MikeOS.PageTables

/-!
# The recursive window and the walk

The walk of the processor is the definition of translation. When the last
entry of a directory holds the directory's own frame, the walk of an address in
the recursive window reads the directory in place of a table: the window shows
every table of the directory as a page, and its last page is the directory.
-/

set_option autoImplicit false

namespace MikeOS.RecursiveMapping
open MikeOS.Paging MikeOS.KernelHeap MikeOS.Mmu MikeOS.VirtualMemory MikeOS.PageTables

def directoryEntry (m : Machine) (v : Word) : Word := m.mem (frameOf m.cr3) (addressToDirectoryEntry v).toNat

def tableEntry (m : Machine) (v : Word) : Word :=
  m.mem (frameOf (directoryEntry m v)) (addressToPageTableEntry v).toNat

def translate (m : Machine) (v : Word) : Except Stop ℕ := do
  let f ← walk m v
  return 4096*f+v.toNat%4096

def location (f i : ℕ) : ℕ := 4096*f+4*i

structure SelfMapped (m : Machine) : Prop where
  present : isPresent (m.mem (frameOf m.cr3) 1023) = true
  own : frameOf (m.mem (frameOf m.cr3) 1023) = frameOf m.cr3

def ZeroOrPresent (m : Machine) : Prop :=
  ∀ i, i < 1024 → m.mem (frameOf m.cr3) i = 0#32 ∨ isPresent (m.mem (frameOf m.cr3) i) = true

theorem index_lt (v : Word) :
    (addressToDirectoryEntry v).toNat < 1024 ∧ (addressToPageTableEntry v).toNat < 1024 := by
  have := v.isLt
  rw [toNat_addressToDirectoryEntry, toNat_addressToPageTableEntry]
  omega

section
variable {m : Machine} (h : SelfMapped m)
include h

/-- Page `i` of the window is the table that entry `i` of the directory refers to. -/
theorem walk_window {v : Word} {i : ℕ} (hi : i < 1024) (hv : v.toNat/4096 = 1023*1024+i)
    (hp : isPresent (m.mem (frameOf m.cr3) i) = true) : walk m v = .ok (frameOf (m.mem (frameOf m.cr3) i)) := by
  apply walk_eq (i := 1023) (j := i) rfl (by omega) (by omega) h.present
  · rw [h.own]
    exact hp
  · rw [h.own]

theorem translate_window {v : Word} {i j : ℕ} (hi : i < 1024) (hj : j < 1024)
    (hv : v.toNat = 0xFFC00000+4096*i+4*j) (hp : isPresent (m.mem (frameOf m.cr3) i) = true) :
    translate m v = .ok (location (frameOf (m.mem (frameOf m.cr3) i)) j) := by
  rw [translate, walk_window h hi (by omega) hp, ok_bind, location, show v.toNat%4096 = 4*j by omega]
  rfl

theorem translate_tableEntry {v : Word} (hp : isPresent (directoryEntry m v) = true) :
    translate m (entryPtr recursivePgdAddress
        ((addressToDirectoryEntry v).toNat*pageTableSize+(addressToPageTableEntry v).toNat)) =
      .ok (location (frameOf (directoryEntry m v)) (addressToPageTableEntry v).toNat) := by
  obtain ⟨hi,hj⟩ := index_lt v
  apply translate_window h hi hj _ hp
  rw [entryPtr, recursivePgdAddress, pageTableSize]
  bv_omega

theorem translate_directoryEntry (v : Word) :
    translate m (entryPtr recursivePgtAddress (addressToDirectoryEntry v).toNat) =
      .ok (location (frameOf m.cr3) (addressToDirectoryEntry v).toNat) := by
  obtain ⟨hi,-⟩ := index_lt v
  have hw := translate_window h (v := entryPtr recursivePgtAddress (addressToDirectoryEntry v).toNat)
    (show 1023 < 1024 by omega) hi (by rw [entryPtr, recursivePgtAddress]; bv_omega) h.present
  rwa [h.own] at hw

theorem translate_heapEntry {v : Word} (hbegin : kheapBeginAddress ≤ v) (hend : v < kheapEndAddress)
    (hp : isPresent (directoryEntry m v) = true) :
    translate m (entryPtr kheapRecursiveAddress (addressToPageTableEntry v).toNat) =
      .ok (location (frameOf (m.mem (frameOf m.cr3) kheapPgdEntry)) (addressToPageTableEntry v).toNat) := by
  obtain ⟨-,hj⟩ := index_lt v
  have hslot : (addressToDirectoryEntry v).toNat = kheapPgdEntry := by
    have h1 : kheapBeginAddress.toNat ≤ v.toNat := hbegin
    have h2 : v.toNat < kheapEndAddress.toNat := hend
    rw [show kheapBeginAddress.toNat = 0xC0800000 by decide] at h1
    rw [show kheapEndAddress.toNat = 0xC0C00000 by decide] at h2
    rw [toNat_addressToDirectoryEntry, show kheapPgdEntry = 770 by decide]
    omega
  rw [directoryEntry, hslot] at hp
  apply translate_window h (show kheapPgdEntry < 1024 by decide) hj _ hp
  rw [entryPtr, show kheapRecursiveAddress = 0xFFF02000#32 by decide, show kheapPgdEntry = 770 by decide]
  bv_omega

theorem load_tableEntry {v : Word} (hp : isPresent (directoryEntry m v) = true) :
    loadWord (entryPtr recursivePgdAddress
        ((addressToDirectoryEntry v).toNat*pageTableSize+(addressToPageTableEntry v).toNat)) m =
      .ok (tableEntry m v) := by
  obtain ⟨hi,hj⟩ := index_lt v
  obtain ⟨ha,hw⟩ := tablePtr hi hj
  rw [show pageTableSize = 1024 from rfl, loadWord_ok (walk_window h hi ha hp), hw]
  rfl

theorem load_directoryEntry (v : Word) :
    loadWord (entryPtr recursivePgtAddress (addressToDirectoryEntry v).toNat) m = .ok (directoryEntry m v) := by
  obtain ⟨hi,-⟩ := index_lt v
  obtain ⟨ha,hw⟩ := directoryPtr hi
  rw [loadWord_ok (walk_window h (by omega) ha h.present), h.own, hw]
  rfl

theorem pageExists_walk (hz : ZeroOrPresent m) (v : Word) :
    pageExists v m = .ok (decide (directoryEntry m v ≠ 0#32 ∧ tableEntry m v ≠ 0#32)) := by
  simp only [pageExists, load_directoryEntry h v, ok_bind]
  by_cases h0 : directoryEntry m v = 0#32
  · rw [if_pos h0, decide_eq_false (fun he => he.1 h0)]
    rfl
  · rcases hz _ (index_lt v).1 with hzero | hp
    · exact absurd hzero h0
    · rw [if_neg h0, load_tableEntry h hp, ok_bind]
      change Except.ok _ = _
      simp [h0]

end

/-- The addresses the kernel builds from the recursive bases are translated to
the entries that the walk itself reads, and `page_exists` tells what it finds. -/
theorem recursive_mapping_agrees (m : Machine) (h : SelfMapped m) :
    (∀ v, isPresent (directoryEntry m v) = true →
      translate m (entryPtr recursivePgdAddress
          ((addressToDirectoryEntry v).toNat*pageTableSize+(addressToPageTableEntry v).toNat)) =
        .ok (location (frameOf (directoryEntry m v)) (addressToPageTableEntry v).toNat) ∧
      translate m (entryPtr recursivePgtAddress (addressToDirectoryEntry v).toNat) =
        .ok (location (frameOf m.cr3) (addressToDirectoryEntry v).toNat) ∧
      (kheapBeginAddress ≤ v → v < kheapEndAddress →
        translate m (entryPtr kheapRecursiveAddress (addressToPageTableEntry v).toNat) =
          .ok (location (frameOf (m.mem (frameOf m.cr3) kheapPgdEntry)) (addressToPageTableEntry v).toNat))) ∧
    (ZeroOrPresent m → ∀ v, pageExists v m = .ok true ↔ directoryEntry m v ≠ 0#32 ∧ tableEntry m v ≠ 0#32) := by
  refine ⟨fun v hp => ⟨translate_tableEntry h hp,translate_directoryEntry h v,fun hb he => ?_⟩,fun hz v => ?_⟩
  · exact translate_heapEntry h hb he hp
  · rw [pageExists_walk h hz v, Except.ok.injEq, decide_eq_true_eq]

def smallDirectory : Machine where
  mem := fun f i => if f = 5 ∧ i = 1023 then 0x5003#32 else if f = 5 ∧ i = 770 then 0x6003#32 else 0#32
  cr3 := 0x5000#32
  heapBitmap := fun _ => 0#8
  phys := PhysicalMemory.PhysicalMem.boot
  grants := []

theorem smallDirectory_selfMapped : SelfMapped smallDirectory := ⟨by decide,by decide⟩

theorem smallDirectory_entries : ZeroOrPresent smallDirectory := by
  intro i _
  change (if _ then _ else if _ then _ else _) = _ ∨ isPresent (if _ then _ else if _ then _ else _) = true
  split
  · exact Or.inr (by decide)
  · split
    · exact Or.inr (by decide)
    · exact Or.inl rfl

/-- The entry of heap page 3 is reached both ways, and is empty. -/
theorem smallDirectory_agrees : SelfMapped smallDirectory ∧ ZeroOrPresent smallDirectory ∧
    translate smallDirectory 0xFFF0200C#32 = .ok 0x600C ∧ translate smallDirectory 0xFFFFFC08#32 = .ok 0x5C08 ∧
    ¬ pageExists 0xC0803000#32 smallDirectory = .ok true := by
  obtain ⟨hall,hexists⟩ := recursive_mapping_agrees smallDirectory smallDirectory_selfMapped
  obtain ⟨htable,hdir,-⟩ := hall 0xC0803000#32 (by decide)
  refine ⟨smallDirectory_selfMapped,smallDirectory_entries,htable,hdir,?_⟩
  rw [hexists smallDirectory_entries]
  decide

end MikeOS.RecursiveMapping
