import MikeOS.Boot
import MikeOS.RecursiveMapping

/-!
# What the boot page tables translate

The first eight megabytes appear twice, at their own addresses and from
`KERNEL_VIRTUAL_OFFSET` on, and nothing else does below the recursive window.
Translation is the walk of the processor on the machine that paging is turned
on in.
-/

set_option autoImplicit false

namespace MikeOS.BootMapping
open MikeOS.Paging MikeOS.KernelHeap MikeOS.Mmu MikeOS.VirtualMemory MikeOS.Boot MikeOS.RecursiveMapping

/-- The machine after `paging_init`, whatever it held before. The section
`.tables` is loaded as zeros, and `enable_paging` loads `cr3`. -/
def booted (L : Layout) (m : Machine) : Machine :=
  { m with mem := pagingInit L (loadTables L m.mem), cr3 := frameAddress L.initPageDirectory }

def isWritable (entry : Word) : Bool := entry.getLsbD 1

structure MappedTo (m : Machine) (v : Word) (a : ℕ) : Prop where
  translated : RecursiveMapping.translate m v = .ok a
  present : isPresent (directoryEntry m v) = true ∧ isPresent (tableEntry m v) = true
  writable : isWritable (directoryEntry m v) = true ∧ isWritable (tableEntry m v) = true

def InImage (v : Word) : Prop :=
  v.toNat < 0x800000 ∨ 0xC0000000 ≤ v.toNat ∧ v.toNat < 0xC0800000

structure BootMapped (L : Layout) (m : Machine) : Prop where
  low : ∀ a, a < 0x800000 → MappedTo m (BitVec.ofNat 32 a) a
  high : ∀ a, a < 0x800000 → MappedTo m (kernelVirtualOffset+BitVec.ofNat 32 a) a
  others : ∀ v : Word, v.toNat < 0xFFC00000 → ¬ InImage v → RecursiveMapping.translate m v = .error .pageFault
  recursive : isPresent (m.mem (frameOf m.cr3) 1023) = true ∧
    frameOf (m.mem (frameOf m.cr3) 1023) = frameOf m.cr3 ∧ frameOf m.cr3 = L.initPageDirectory

section
variable (L : Layout) (m : Machine)

theorem booted_directory : frameOf (booted L m).cr3 = L.initPageDirectory :=
  frameOf_frameAddress (static_lt L (by simp))

theorem booted_mem : (booted L m).mem = pagingInit L (loadTables L m.mem) := rfl

theorem kernel_slot {i d : ℕ} (hi : i < 2) (hd : d = i ∨ d = 768+i) :
    (booted L m).mem L.initPageDirectory d = entry (L.kernelPageTables+i) 3 := by
  rw [booted_mem, pagingInit_eq, setFrame_self]
  rcases (show i = 0 ∨ i = 1 by omega) with rfl | rfl <;> rcases hd with rfl | rfl <;>
    simp [Function.update]

theorem own_slot : (booted L m).mem L.initPageDirectory 1023 = entry L.initPageDirectory 3 := by
  rw [booted_mem, pagingInit_eq, setFrame_self, Function.update_self]

theorem empty_slot {d : ℕ} (hd : d < 1023) (h : ¬ (d < 2 ∨ 768 ≤ d ∧ d < 770)) :
    (booted L m).mem L.initPageDirectory d = 0#32 := by
  rw [booted_mem, pagingInit_eq, setFrame_self]
  simp only [Function.update, show d ≠ 1023 by omega, show d ≠ 769 by omega, show d ≠ 768 by omega,
    show d ≠ 1 by omega, show d ≠ 0 by omega, dif_neg, not_false_eq_true]

theorem kernel_table {i j : ℕ} (hi : i < 2) (hj : j < 1024) :
    (booted L m).mem (L.kernelPageTables+i) j = entry (1024*i+j) 3 := by
  obtain ⟨-,h₀,-,h₁,-⟩ := static_ne L
  have hne : L.kernelPageTables+i ≠ L.initPageDirectory := by
    rcases (show i = 0 ∨ i = 1 by omega) with rfl | rfl
    · exact h₀
    · exact h₁
  rw [booted_mem, pagingInit_eq, setFrame_frame _ _ hne, tables_kernel L _ hi hj]

theorem isWritable_entry {f : ℕ} : isWritable (entry f 3) = true := by
  rw [isWritable, entry, BitVec.getLsbD_ofNat, Nat.testBit_succ, Nat.testBit_zero]
  simp only [Nat.reduceLT, decide_true, Bool.true_and, decide_eq_true_eq]
  omega

theorem mapped_page {v : Word} {i a : ℕ} (hi : i < 2)
    (hslot : v.toNat/2^22 = i ∨ v.toNat/2^22 = 768+i) (ha : a = 2^22*i+v.toNat%2^22) :
    MappedTo (booted L m) v a := by
  have hj : v.toNat/4096%1024 < 1024 := Nat.mod_lt _ (by omega)
  have hdir : directoryEntry (booted L m) v = entry (L.kernelPageTables+i) 3 := by
    rw [directoryEntry, booted_directory, toNat_addressToDirectoryEntry, kernel_slot L m hi hslot]
  have htab : tableEntry (booted L m) v = entry (1024*i+v.toNat/4096%1024) 3 := by
    rw [tableEntry, hdir, frameOf_entry (kernelTable_lt L hi) (by omega), toNat_addressToPageTableEntry,
      kernel_table L m hi hj]
  have hp : isPresent (directoryEntry (booted L m) v) = true := by
    rw [hdir]
    exact isPresent_entry (by omega)
  have hp' : isPresent (tableEntry (booted L m) v) = true := by
    rw [htab]
    exact isPresent_entry (by omega)
  have hwalk : walk (booted L m) v = .ok (1024*i+v.toNat/4096%1024) := by
    change (if isPresent (directoryEntry (booted L m) v) = true then
      if isPresent (tableEntry (booted L m) v) = true then Except.ok (frameOf (tableEntry (booted L m) v))
      else Except.error Stop.pageFault else Except.error Stop.pageFault) = _
    rw [if_pos hp, if_pos hp', htab, frameOf_entry (by omega) (by omega)]
  refine ⟨?_,⟨hp,hp'⟩,?_,?_⟩
  · rw [RecursiveMapping.translate, hwalk, ok_bind, show a = 4096*(1024*i+v.toNat/4096%1024)+v.toNat%4096 by omega]
    rfl
  · rw [hdir, isWritable_entry]
  · rw [htab, isWritable_entry]

theorem unmapped_page {v : Word} (hv : v.toNat < 0xFFC00000) (h : ¬ InImage v) :
    RecursiveMapping.translate (booted L m) v = .error .pageFault := by
  have hdir : directoryEntry (booted L m) v = 0#32 := by
    unfold InImage at h
    rw [directoryEntry, booted_directory, toNat_addressToDirectoryEntry]
    exact empty_slot L m (by omega) (by omega)
  have hwalk : walk (booted L m) v = .error .pageFault := by
    change (if isPresent (directoryEntry (booted L m) v) = true then _ else Except.error Stop.pageFault) = _
    rw [hdir]
    rfl
  rw [RecursiveMapping.translate, hwalk]
  rfl

/-- Over the whole address space below the recursive window the boot tables map
the two images of the first eight megabytes and nothing else. -/
theorem boot_mapping : BootMapped L (booted L m) := by
  have hD : L.initPageDirectory < 2^20 := static_lt L (by simp)
  refine ⟨fun a ha => ?_,fun a ha => ?_,fun v => unmapped_page L m,?_,?_,booted_directory L m⟩
  · have hv : (BitVec.ofNat 32 a).toNat = a := by
      rw [BitVec.toNat_ofNat, Nat.mod_eq_of_lt (by omega)]
    exact mapped_page L m (i := a/2^22) (by omega) (by omega) (by omega)
  · have hv : (kernelVirtualOffset+BitVec.ofNat 32 a).toNat = 0xC0000000+a := by
      rw [kernelVirtualOffset_eq]
      bv_omega
    exact mapped_page L m (i := a/2^22) (by omega) (by omega) (by omega)
  · rw [booted_directory, own_slot]
    exact isPresent_entry (by omega)
  · rw [booted_directory, own_slot, frameOf_entry hD (by omega)]

end

end MikeOS.BootMapping
