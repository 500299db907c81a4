import MikeOS.VirtualMemory
import MikeOS.FramePool

/-!
# What the accesses to page tables amount to

While the current directory refers to itself, the addresses built from the
recursive bases reach the entries of the directory and of its tables. The
functions of the virtual memory manager are restated below as updates of
frames.
-/

set_option autoImplicit false

namespace MikeOS.PageTables
open MikeOS.Paging MikeOS.PhysicalMemory MikeOS.KernelHeap MikeOS.Mmu MikeOS.VirtualMemory
open MikeOS.FramePool

theorem kernelAttributes_eq : kernelAttributes = BitVec.ofNat 32 3 := by decide

theorem userAttributes_eq : userAttributes = BitVec.ofNat 32 7 := by decide

theorem directoryPtr {i : ℕ} (hi : i < 1024) :
    (entryPtr recursivePgtAddress i).toNat/4096 = 1023*1024+1023 ∧
      wordIndex (entryPtr recursivePgtAddress i) = i := by
  have h : (entryPtr recursivePgtAddress i).toNat = 0xFFFFF000+4*i := by
    rw [entryPtr, recursivePgtAddress]
    bv_omega
  unfold wordIndex
  omega

theorem tablePtr {i j : ℕ} (hi : i < 1024) (hj : j < 1024) :
    (entryPtr recursivePgdAddress (i*1024+j)).toNat/4096 = 1023*1024+i ∧
      wordIndex (entryPtr recursivePgdAddress (i*1024+j)) = j := by
  have h : (entryPtr recursivePgdAddress (i*1024+j)).toNat = 0xFFC00000+4096*i+4*j := by
    rw [entryPtr, recursivePgdAddress]
    bv_omega
  unfold wordIndex
  omega

variable {m : Machine} {D : ℕ}

theorem current_withPhys (h : Current m D) (phys : PhysicalMem) : Current (m.withPhys phys) D :=
  ⟨h.cr3,h.lt,h.self⟩

theorem current_setWord (h : Current m D) {f i : ℕ} (w : Word) (hi : f ≠ D ∨ i ≠ 1023) :
    Current (m.withMem (setWord m.mem f i w)) D := by
  refine ⟨h.cr3,h.lt,?_⟩
  rw [withMem_mem]
  by_cases hf : f = D
  · rw [hf, setWord_index _ _ _ (by omega), h.self]
  · rw [setWord_frame _ _ _ (Ne.symm hf), h.self]

theorem current_setFrame (h : Current m D) {f : ℕ} (words : ℕ → Word) (hf : f ≠ D) :
    Current (m.withMem (setFrame m.mem f words)) D := by
  refine ⟨h.cr3,h.lt,?_⟩
  rw [withMem_mem, setFrame_frame _ _ (Ne.symm hf), h.self]

theorem load_directory (h : Current m D) {i : ℕ} (hi : i < 1024) :
    loadWord (entryPtr recursivePgtAddress i) m = .ok (m.mem D i) := by
  obtain ⟨hp,hw⟩ := directoryPtr hi
  rw [loadWord_ok (walk_directory h hp), hw]

theorem load_table (h : Current m D) {i j : ℕ} (hi : i < 1024) (hj : j < 1024)
    (hp : isPresent (m.mem D i) = true) :
    loadWord (entryPtr recursivePgdAddress (i*1024+j)) m = .ok (m.mem (frameOf (m.mem D i)) j) := by
  obtain ⟨ha,hw⟩ := tablePtr hi hj
  rw [loadWord_ok (walk_table h hi ha hp), hw]

theorem write_directory (h : Current m D) {i g : ℕ} (hi : i < 1023) (hg : g < 2^20) :
    writeEntry (entryPtr recursivePgtAddress i) (frameAddress g) userAttributes m =
      .ok (m.withMem (setWord m.mem D i (entry g 7))) := by
  obtain ⟨hp,hw⟩ := directoryPtr (show i < 1024 by omega)
  have hc := current_setWord h (f := D) (i := i) (frameAddress g) (Or.inr (by omega))
  rw [userAttributes_eq, writeEntry_ok hg (by omega) (walk_directory h hp), hw]
  rw [hw]
  exact walk_directory hc hp

theorem write_table (h : Current m D) {i j g : ℕ} (hi : i < 1024) (hj : j < 1024) (hg : g < 2^20)
    (hp : isPresent (m.mem D i) = true) (ht : frameOf (m.mem D i) ≠ D) :
    writeEntry (entryPtr recursivePgdAddress (i*1024+j)) (frameAddress g) userAttributes m =
      .ok (m.withMem (setWord m.mem (frameOf (m.mem D i)) j (entry g 7))) := by
  obtain ⟨ha,hw⟩ := tablePtr hi hj
  have hc := current_setWord h (f := frameOf (m.mem D i)) (i := j) (frameAddress g) (Or.inl ht)
  have hsame : (m.withMem (setWord m.mem (frameOf (m.mem D i)) j (frameAddress g))).mem D i = m.mem D i := by
    rw [withMem_mem, setWord_frame _ _ _ (Ne.symm ht)]
  rw [userAttributes_eq, writeEntry_ok hg (by omega) (walk_table h hi ha hp), hw]
  rw [hw, walk_table hc hi ha (by rwa [hsame]), hsame]

theorem clear_table (h : Current m D) {i : ℕ} (hi : i < 1024) (hp : isPresent (m.mem D i) = true) :
    clearPage (entryPtr recursivePgdAddress (i*1024)) m =
      .ok (m.withMem (setFrame m.mem (frameOf (m.mem D i)) fun _ => 0#32)) := by
  obtain ⟨ha,-⟩ := tablePtr (j := 0) hi (by omega)
  rw [Nat.add_zero] at ha
  exact clearPage_ok (walk_table h hi ha hp)

/-! ## One page of mmap -/

def Entered (mem : Frames) (D p : ℕ) : Prop :=
  mem D (p/1024) ≠ 0#32 ∧ mem (frameOf (mem D (p/1024))) (p%1024) ≠ 0#32

instance (mem : Frames) (D p : ℕ) : Decidable (Entered mem D p) := instDecidableAnd

def Slot (mem : Frames) (D i : ℕ) : Prop :=
  mem D i = 0#32 ∨ isPresent (mem D i) = true ∧ frameOf (mem D i) ≠ D

def withTable (mem : Frames) (D i t : ℕ) : Frames :=
  setFrame (setWord mem D i (entry t 7)) t fun _ => 0#32

theorem pageIndex {v : Word} :
    (addressToDirectoryEntry v).toNat = v.toNat/4096/1024 ∧
      (addressToPageTableEntry v).toNat = v.toNat/4096%1024 := by
  rw [toNat_addressToDirectoryEntry, toNat_addressToPageTableEntry]
  exact ⟨by omega,rfl⟩

theorem pageExists_eq (h : Current m D) {v : Word} (hs : Slot m.mem D (v.toNat/4096/1024)) :
    pageExists v m = .ok (decide (Entered m.mem D (v.toNat/4096))) := by
  have hi : v.toNat/4096/1024 < 1024 := by have := v.isLt; omega
  have hj : v.toNat/4096%1024 < 1024 := Nat.mod_lt _ (by omega)
  rw [pageExists, pageIndex.1, pageIndex.2]
  simp only [load_directory h hi]
  change (if m.mem D (v.toNat/4096/1024) = 0#32 then Except.ok false else _) = _
  by_cases h0 : m.mem D (v.toNat/4096/1024) = 0#32
  · rw [if_pos h0, decide_eq_false (fun he => he.1 h0)]
  · rcases hs with hs | ⟨hp,-⟩
    · exact absurd hs h0
    · rw [if_neg h0, show pageTableSize = 1024 from rfl, load_table h hi hj hp]
      change Except.ok _ = _
      refine congrArg Except.ok (decide_eq_decide.mpr ?_)
      exact ⟨fun he => ⟨h0,he⟩,fun he => he.2⟩

theorem addTable_ok (L : Layout) (h : Current m D) {i t : ℕ} {phys : PhysicalMem} (hi : i < 1023)
    (ht : t < 2^20) (ha : allocatePhysicalPage L.toKernelImage m.phys = (frameAddress t, phys)) :
    addTable L i m = .ok ((m.withPhys phys).withMem (withTable m.mem D i t)) := by
  have h' := current_withPhys h phys
  have hc := current_setWord h' (f := D) (i := i) (entry t 7) (Or.inr (by omega))
  have hclear := clear_table hc (i := i) (by omega)
    (by rw [withMem_mem, setWord_self]; exact isPresent_entry (by omega))
  rw [withMem_mem, setWord_self, frameOf_entry ht (by omega)] at hclear
  simp only [addTable, ha]
  rw [write_directory h' hi ht, ok_bind, hclear]
  rfl

def mapped (m : Machine) (mem : Frames) (t p f : ℕ) : Machine :=
  m.withMem (setWord mem t (p%1024) (entry f 7))

theorem mapUser_present (L : Layout) (h : Current m D) {v : Word} {f : ℕ} (hf : f < 2^20)
    (hp : isPresent (m.mem D (v.toNat/4096/1024)) = true)
    (ht : frameOf (m.mem D (v.toNat/4096/1024)) ≠ D)
    (h0 : m.mem D (v.toNat/4096/1024) ≠ 0#32) :
    mapUserVirtualAddressToPhysical L v (frameAddress f) m =
      .ok (mapped m m.mem (frameOf (m.mem D (v.toNat/4096/1024))) (v.toNat/4096) f) := by
  have hi : v.toNat/4096/1024 < 1024 := by have := v.isLt; omega
  have hj : v.toNat/4096%1024 < 1024 := Nat.mod_lt _ (by omega)
  simp only [mapUserVirtualAddressToPhysical, pageIndex.1, pageIndex.2, load_directory h hi, ok_bind,
    if_neg h0]
  exact write_table h hi hj hf hp ht

theorem mapUser_new (L : Layout) (h : Current m D) {v : Word} {f t : ℕ} {phys : PhysicalMem}
    (hv : v.toNat/4096/1024 < 1023) (hf : f < 2^20) (ht : t < 2^20) (hne : t ≠ D)
    (ha : allocatePhysicalPage L.toKernelImage m.phys = (frameAddress t, phys))
    (h0 : m.mem D (v.toNat/4096/1024) = 0#32) :
    mapUserVirtualAddressToPhysical L v (frameAddress f) m =
      .ok (mapped (m.withPhys phys) (withTable m.mem D (v.toNat/4096/1024) t) t (v.toNat/4096) f) := by
  have hj : v.toNat/4096%1024 < 1024 := Nat.mod_lt _ (by omega)
  have hc : Current ((m.withPhys phys).withMem (withTable m.mem D (v.toNat/4096/1024) t)) D :=
    current_setFrame (current_setWord (current_withPhys h phys) (f := D) (entry t 7)
      (Or.inr (show v.toNat/4096/1024 ≠ 1023 by omega))) (fun _ => 0#32) hne
  have hentry : ((m.withPhys phys).withMem (withTable m.mem D (v.toNat/4096/1024) t)).mem D
      (v.toNat/4096/1024) = entry t 7 := by
    rw [withMem_mem, withTable, setFrame_frame _ _ (Ne.symm hne), setWord_self]
  have hw := write_table hc (i := v.toNat/4096/1024) (j := v.toNat/4096%1024) (by omega) hj hf
    (by rw [hentry]; exact isPresent_entry (by omega))
    (by rw [hentry, frameOf_entry ht (by omega)]; exact hne)
  rw [hentry, frameOf_entry ht (by omega)] at hw
  simp only [mapUserVirtualAddressToPhysical, pageIndex.1, pageIndex.2,
    load_directory h (show v.toNat/4096/1024 < 1024 by omega), ok_bind, if_pos h0,
    addTable_ok L h hv ht ha]
  exact hw

/-- Everything one round of the loop of `mmap` can do. -/
theorem mmapPage_cases (L : Layout) (h : Current m D) {v : Word} (hv : v.toNat/4096/1024 < 768)
    (hs : Slot m.mem D (v.toNat/4096/1024)) :
    (Entered m.mem D (v.toNat/4096) ∧ mmapPage L v m = .ok m) ∨
    (¬ Entered m.mem D (v.toNat/4096) ∧ m.mem D (v.toNat/4096/1024) ≠ 0#32 ∧
      ∃ f phys, f < 2^20 ∧ allocatePhysicalPage L.toKernelImage m.phys = (frameAddress f, phys) ∧
        mmapPage L v m = .ok (mapped ((m.granting (v.toNat/4096) (frameAddress f)).withPhys phys) m.mem
          (frameOf (m.mem D (v.toNat/4096/1024))) (v.toNat/4096) f)) ∨
    (m.mem D (v.toNat/4096/1024) = 0#32 ∧
      ∃ f phys t phys', f < 2^20 ∧ t < 2^20 ∧
        allocatePhysicalPage L.toKernelImage m.phys = (frameAddress f, phys) ∧
        allocatePhysicalPage L.toKernelImage phys = (frameAddress t, phys') ∧
        (t ≠ D → mmapPage L v m = .ok (mapped
          ((m.granting (v.toNat/4096) (frameAddress f)).withPhys phys')
          (withTable m.mem D (v.toNat/4096/1024) t) t (v.toNat/4096) f))) := by
  obtain ⟨f,phys,hf,hpair,-⟩ := allocate_pair L.toKernelImage m.phys
  obtain ⟨t,phys',ht,hpair',-⟩ := allocate_pair L.toKernelImage phys
  have hc : Current ((m.granting (v.toNat/4096) (frameAddress f)).withPhys phys) D :=
    ⟨h.cr3,h.lt,h.self⟩
  have hpage : ¬ Entered m.mem D (v.toNat/4096) → mmapPage L v m =
      mapUserVirtualAddressToPhysical L v (frameAddress f)
        ((m.granting (v.toNat/4096) (frameAddress f)).withPhys phys) := by
    intro he
    simp only [mmapPage, pageExists_eq h hs, ok_bind, decide_eq_false he, Bool.false_eq_true, if_false,
      hpair]
  by_cases he : Entered m.mem D (v.toNat/4096)
  · refine Or.inl ⟨he,?_⟩
    simp only [mmapPage, pageExists_eq h hs, ok_bind, decide_eq_true he, if_true]
    rfl
  · right
    by_cases h0 : m.mem D (v.toNat/4096/1024) = 0#32
    · refine Or.inr ⟨h0,f,phys,t,_,hf,ht,hpair,hpair',fun hne => ?_⟩
      rw [hpage he]
      exact mapUser_new L hc (by omega) hf ht hne hpair' h0
    · rcases hs with hs | ⟨hp,hne⟩
      · exact absurd hs h0
      · refine Or.inl ⟨he,h0,f,phys,hf,hpair,?_⟩
        rw [hpage he]
        exact mapUser_present L hc hf hp hne h0

end MikeOS.PageTables
