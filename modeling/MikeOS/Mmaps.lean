import MikeOS.PageTables

/-!
# Runs of mmap

The loop of `mmap` visits pages below the kernel, one entry each. A property
that every round keeps is kept by a call and by a sequence of calls.
-/

set_option autoImplicit false

namespace MikeOS.Mmaps
open MikeOS.PhysicalMemory MikeOS.KernelHeap MikeOS.Mmu MikeOS.VirtualMemory MikeOS.PageTables

theorem toNat_nextPage {v : Word} (h : v.toNat+4096 < 2^32) : (v+pageSize).toNat = v.toNat+4096 := by
  rw [pageSize_eq]
  bv_omega

theorem toNat_rangeEnd {v n : Word} (h : v.toNat+n.toNat*4096 < 2^32) :
    (v+n*pageSize).toNat = v.toNat+n.toNat*4096 := by
  rw [pageSize_eq, BitVec.toNat_add, BitVec.toNat_mul, show (4096#32).toNat = 4096 from rfl,
    Nat.mod_eq_of_lt (by omega), Nat.mod_eq_of_lt (by omega)]

def UserPage (v : Word) : Prop := v.toNat/4096/1024 < 768

theorem mmapLoop_inv {L : Layout} {P : Machine → Prop}
    (hstep : ∀ v m m', UserPage v → P m → mmapPage L v m = .ok m' → P m') {count : ℕ} {v : Word}
    {m m' : Machine} (hv : v.toNat+4096*count ≤ 0xC0000000) (hm : P m)
    (h : mmapLoop L count v m = .ok m') : P m' := by
  induction count generalizing v m with
  | zero =>
    cases h
    exact hm
  | succ count ih =>
    rw [mmapLoop] at h
    obtain ⟨m₁,hpage,hrest⟩ := bind_eq_ok h
    have hnext := toNat_nextPage (v := v) (by omega)
    exact ih (by omega) (hstep v m m₁ (by unfold UserPage; omega) hm hpage) hrest

/-- What holds at a page when the loop comes to it, for rounds that always end. -/
theorem mmapLoop_run {L : Layout} {P : ℕ → Machine → Prop}
    (hstep : ∀ v m, UserPage v → P (v.toNat/4096) m → ∃ m', mmapPage L v m = .ok m' ∧ P (v.toNat/4096+1) m')
    {count : ℕ} {v : Word} {m : Machine} (hv : v.toNat+4096*count ≤ 0xC0000000) (hm : P (v.toNat/4096) m) :
    ∃ m', mmapLoop L count v m = .ok m' ∧ P (v.toNat/4096+count) m' := by
  induction count generalizing v m with
  | zero => exact ⟨m,rfl,hm⟩
  | succ count ih =>
    obtain ⟨m₁,hpage,hm₁⟩ := hstep v m (by unfold UserPage; omega) hm
    have hnext := toNat_nextPage (v := v) (by omega)
    have hindex : (v+pageSize).toNat/4096 = v.toNat/4096+1 := by omega
    rw [← hindex] at hm₁
    obtain ⟨m',hloop,hm'⟩ := ih (by omega) hm₁
    rw [hindex, Nat.add_right_comm, Nat.add_assoc] at hm'
    exact ⟨m',by rw [mmapLoop, hpage, ok_bind, hloop],hm'⟩

theorem mmapLoop_ok {L : Layout} {P : Machine → Prop}
    (hstep : ∀ v m, UserPage v → P m → ∃ m', mmapPage L v m = .ok m' ∧ P m') {count : ℕ} {v : Word}
    {m : Machine} (hv : v.toNat+4096*count ≤ 0xC0000000) (hm : P m) :
    ∃ m', mmapLoop L count v m = .ok m' ∧ P m' :=
  mmapLoop_run (P := fun _ => P) hstep hv hm

theorem mmapCount_le {v n : Word} (h : mmapRejects v n = false) :
    v.toNat%4096 = 0 ∧ v.toNat+4096*mmapCount v n ≤ 0xC0000000 := by
  rw [mmapRejects, decide_eq_false_iff_not, not_or, not_or, not_not, kernelVirtualOffset_eq] at h
  obtain ⟨hv,hend,hal⟩ := h
  have hmod := (pageBoundary_eq_iff v).mp hal
  refine ⟨hmod,?_⟩
  unfold mmapCount
  bv_omega

theorem mmap_success {L : Layout} {v n : Word} {m m' : Machine} (h : mmap L v n m = .ok (.success, m')) :
    mmapRejects v n = false ∧ mmapLoop L (mmapCount v n) v m = .ok m' := by
  rw [mmap] at h
  cases hr : mmapRejects v n with
  | true =>
    rw [hr, if_pos rfl] at h
    cases h
  | false =>
    rw [hr, if_neg (by simp)] at h
    obtain ⟨m₁,hloop,hm⟩ := bind_eq_ok h
    cases hm
    exact ⟨rfl,hloop⟩

/-! ## The test of the loop -/

/-- The loop of `mmap` with the test of its counter; nothing is returned when it
has not ended within `fuel` rounds. -/
def mmapWhile (L : Layout) (last : Word) : ℕ → Word → Machine → Option (Except Stop Machine)
  | 0, _, _ => none
  | fuel+1, i, m =>
    if i < last then
      match mmapPage L i m with
      | .error stop => some (.error stop)
      | .ok m => mmapWhile L last fuel (i+pageSize) m
    else some (.ok m)

def mmapCall (L : Layout) (fuel : ℕ) (virtualAddress numPages : Word) (m : Machine) :
    Option (Except Stop (ErrorCode × Machine)) :=
  if mmapRejects virtualAddress numPages then some (.ok (.invalidArgument, m))
  else (mmapWhile L (virtualAddress+numPages*pageSize) fuel virtualAddress m).map fun r =>
    r.map fun m => (.success, m)

theorem mmapWhile_eq {L : Layout} {last : Word} (count : ℕ) {fuel : ℕ} (hf : count < fuel) {v : Word} {m : Machine}
    (hle : last.toNat ≤ v.toNat+4096*count) (hlt : count = 0 ∨ v.toNat+4096*count = last.toNat) :
    mmapWhile L last fuel v m = some (mmapLoop L count v m) := by
  induction count generalizing fuel v m with
  | zero =>
    obtain ⟨fuel,rfl⟩ := Nat.exists_eq_add_one_of_ne_zero (Nat.ne_zero_of_lt hf)
    have hdone : ¬ v < last := by
      rw [BitVec.lt_def]
      omega
    rw [mmapWhile, if_neg hdone]
    rfl
  | succ count ih =>
    obtain ⟨fuel,rfl⟩ := Nat.exists_eq_add_one_of_ne_zero (Nat.ne_zero_of_lt hf)
    have hlast := last.isLt
    have hround : v < last := by
      rw [BitVec.lt_def]
      omega
    rw [mmapWhile, if_pos hround, mmapLoop]
    cases hpage : mmapPage L v m with
    | error stop => rfl
    | ok m' =>
      have hnext := toNat_nextPage (v := v) (by omega)
      exact ih (by omega) (by omega) (by omega)

/-- No loop takes more rounds than there are pages below the kernel. -/
theorem mmapCall_eq (L : Layout) {fuel : ℕ} (hf : 0xC0000 < fuel) (v n : Word) (m : Machine) :
    mmapCall L fuel v n m = some (VirtualMemory.mmap L v n m) := by
  rw [mmapCall, VirtualMemory.mmap]
  cases hr : mmapRejects v n with
  | true =>
    rw [if_pos rfl, if_pos rfl]
    rfl
  | false =>
    obtain ⟨hal,hle⟩ := mmapCount_le hr
    have hcount : mmapCount v n = ((v+n*pageSize).toNat-v.toNat)/4096 := rfl
    have hmod : (v+n*pageSize).toNat%4096 = 0 := by
      rw [pageSize_eq, BitVec.toNat_add, BitVec.toNat_mul, show (4096#32).toNat = 4096 from rfl]
      omega
    rw [if_neg (by simp), if_neg (by simp), mmapWhile_eq (mmapCount v n) (by omega) (by omega) (by omega),
      Option.map_some]
    cases mmapLoop L (mmapCount v n) v m <;> rfl

def mmaps (L : Layout) : List (Word × Word) → Machine → Option Machine
  | [], m => some m
  | (v, n)::calls, m =>
    match mmap L v n m with
    | .ok (.success, m) => mmaps L calls m
    | _ => none

theorem mmaps_inv {L : Layout} {P : Machine → Prop}
    (hstep : ∀ v m m', UserPage v → P m → mmapPage L v m = .ok m' → P m')
    {calls : List (Word × Word)} {m m' : Machine} (hm : P m) (h : mmaps L calls m = some m') : P m' := by
  induction calls generalizing m with
  | nil =>
    cases h
    exact hm
  | cons call calls ih =>
    rw [mmaps] at h
    split at h
    · rename_i m₁ hcall
      obtain ⟨hr,hloop⟩ := mmap_success hcall
      exact ih (mmapLoop_inv hstep (mmapCount_le hr).2 hm hloop) h
    · cases h

end MikeOS.Mmaps
