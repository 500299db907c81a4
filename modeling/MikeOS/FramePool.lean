import MikeOS.FrameAllocator
import MikeOS.Mmu

/-!
# Frames given to the page tables

One call of the frame allocator, stated by frame numbers, and the number of
frames that are left. `NULL` is the address of frame zero, which is never
handed out.
-/

set_option autoImplicit false

namespace MikeOS.FramePool
open BitArray MikeOS.PhysicalMemory MikeOS.FrameAllocator MikeOS.Mmu

def Granted (s t : PhysicalMem) (f : ℕ) : Prop :=
  256 ≤ f ∧ bit s.bitmap f = true ∧ t.bitmap = BitArray.clear s.bitmap f

theorem allocate_frame (image : KernelImage) (s : PhysicalMem) :
    ∃ f, f < 2^20 ∧ (allocatePhysicalPage image s).1 = frameAddress f ∧
      (Granted s (allocatePhysicalPage image s).2 f ∨
        (f = 0 ∧ (allocatePhysicalPage image s).2.bitmap = s.bitmap ∧
          (allocatePhysicalPage image s).2.noPageAvailable = true)) := by
  have hs := scanStart_lt image
  rcases allocate_cases image s with ⟨hflag,he⟩ | ⟨p,hlow,he⟩ | ⟨-,he⟩
  · rw [he]
    exact ⟨0,by omega,rfl,Or.inr ⟨rfl,rfl,hflag⟩⟩
  · have hin := hlow.inScan
    rw [firstPage] at hin
    rw [he]
    refine ⟨p,hlow.inRange,by rw [frameAddress, Nat.mul_comm],Or.inl ⟨by omega,hlow.isAvailable,rfl⟩⟩
  · rw [he]
    exact ⟨0,by omega,rfl,Or.inr ⟨rfl,rfl,rfl⟩⟩

theorem granted_of_ne_null {image : KernelImage} {s : PhysicalMem} (h : (allocatePhysicalPage image s).1 ≠ null) :
    ∃ f, f < 2^20 ∧ (allocatePhysicalPage image s).1 = frameAddress f ∧
      Granted s (allocatePhysicalPage image s).2 f := by
  obtain ⟨f,hf,ha,hgrant | ⟨rfl,-,-⟩⟩ := allocate_frame image s
  · exact ⟨f,hf,ha,hgrant⟩
  · exact absurd ha h

theorem granted_bit {s t : PhysicalMem} {f : ℕ} (h : Granted s t f) (q : ℕ) :
    bit t.bitmap q = (!decide (q = f) && bit s.bitmap q) := by
  rw [h.2.2, bit_clear]

theorem allocate_pair (image : KernelImage) (s : PhysicalMem) :
    ∃ f t, f < 2^20 ∧ allocatePhysicalPage image s = (frameAddress f, t) ∧
      (Granted s t f ∨ (f = 0 ∧ t.bitmap = s.bitmap ∧ t.noPageAvailable = true)) := by
  obtain ⟨f,hf,ha,hcase⟩ := allocate_frame image s
  exact ⟨f,_,hf,Prod.ext ha rfl,hcase⟩

theorem granted_or_zero {image : KernelImage} {s t : PhysicalMem} {f : ℕ} (hf : f < 2^20)
    (h : allocatePhysicalPage image s = (frameAddress f, t)) :
    Granted s t f ∨ (f = 0 ∧ t.bitmap = s.bitmap ∧ t.noPageAvailable = true) := by
  obtain ⟨g,t',hg,ha,hcase⟩ := allocate_pair image s
  rw [h, Prod.mk.injEq] at ha
  obtain ⟨hfg,rfl⟩ := ha
  obtain rfl : f = g := entry_inj (a := 0) hf hg (by omega) hfg
  exact hcase

theorem granted_taken {s t : PhysicalMem} {f : ℕ} (h : Granted s t f) : bit t.bitmap f = false := by
  rw [granted_bit h]
  simp

theorem allocated_taken {image : KernelImage} {s t : PhysicalMem} {f : ℕ} (hf : f < 2^20) (h0 : f ≠ 0)
    (h : allocatePhysicalPage image s = (frameAddress f, t)) : bit t.bitmap f = false := by
  rcases granted_or_zero hf h with hgrant | ⟨hzero,-,-⟩
  · exact granted_taken hgrant
  · exact absurd hzero h0

/-- A frame from the allocator is none that was taken, and taken frames stay so. -/
theorem allocate_fresh {image : KernelImage} {s s' : PhysicalMem} {f : ℕ}
    (hf : f < 2^20) (h : allocatePhysicalPage image s = (frameAddress f, s')) :
    (∀ q, q ≠ 0 → bit s.bitmap q = false → q ≠ f) ∧
      ∀ q, bit s.bitmap q = false → bit s'.bitmap q = false := by
  rcases granted_or_zero hf h with hgrant | ⟨rfl,hsame,-⟩
  · refine ⟨fun q _ hq he => ?_,fun q hq => ?_⟩
    · rw [he, hgrant.2.1] at hq
      cases hq
    · rw [granted_bit hgrant, hq, Bool.and_false]
  · exact ⟨fun q h0 _ => h0,fun q hq => by rwa [hsame]⟩

theorem allocate_keeps (image : KernelImage) (s : PhysicalMem) {q : ℕ} (hq : bit s.bitmap q = false) :
    bit (allocatePhysicalPage image s).2.bitmap q = false := by
  obtain ⟨f,t,hf,ha,-⟩ := allocate_pair image s
  rw [ha]
  exact (allocate_fresh hf ha).2 q hq

/-- The flag is raised only while nothing is left to hand out. -/
def FlagSound (image : KernelImage) (s : PhysicalMem) : Prop :=
  s.noPageAvailable = true → Exhausted image s.bitmap

def left (image : KernelImage) (s : PhysicalMem) : ℕ :=
  ((Finset.Ico (firstPage image) frameCount).filter fun q => bit s.bitmap q = true).card

theorem left_eq_zero_iff (image : KernelImage) (s : PhysicalMem) :
    left image s = 0 ↔ Exhausted image s.bitmap := by
  rw [left, Finset.card_eq_zero, Finset.filter_eq_empty_iff]
  simp only [Finset.mem_Ico, Bool.not_eq_true, and_imp, Exhausted]

theorem allocate_flagSound {image : KernelImage} {s : PhysicalMem} (h : FlagSound image s) :
    FlagSound image (allocatePhysicalPage image s).2 := by
  rcases allocate_cases image s with ⟨-,he⟩ | ⟨p,hlow,he⟩ | ⟨hex,he⟩
  · rw [he]
    exact h
  · rw [he]
    exact fun hf => absurd (h hf) (lowest_not_exhausted hlow)
  · rw [he]
    exact fun _ => hex

/-- While a frame is left a call hands one out, and one fewer is left. -/
theorem allocate_left {image : KernelImage} {s : PhysicalMem} (h : FlagSound image s)
    (hleft : 0 < left image s) :
    ∃ f, f < 2^20 ∧ (allocatePhysicalPage image s).1 = frameAddress f ∧
      Granted s (allocatePhysicalPage image s).2 f ∧
      left image (allocatePhysicalPage image s).2+1 = left image s := by
  have hnot : ¬ Exhausted image s.bitmap := fun he => by
    rw [(left_eq_zero_iff image s).mpr he] at hleft
    omega
  have hs := scanStart_lt image
  rcases allocate_cases image s with ⟨hf,-⟩ | ⟨p,hlow,he⟩ | ⟨hex,-⟩
  · exact absurd (h hf) hnot
  · have hin := hlow.inScan
    rw [he]
    refine ⟨p,hlow.inRange,by rw [frameAddress, Nat.mul_comm],
      ⟨by rw [firstPage] at hin; omega,hlow.isAvailable,rfl⟩,?_⟩
    have herase : ((Finset.Ico (firstPage image) frameCount).filter fun q =>
        bit (BitArray.clear s.bitmap p) q = true) =
        ((Finset.Ico (firstPage image) frameCount).filter fun q => bit s.bitmap q = true).erase p := by
      ext q
      simp only [Finset.mem_filter, Finset.mem_erase, bit_clear, Bool.and_eq_true, Bool.not_eq_true',
        decide_eq_false_iff_not]
      tauto
    rw [left, left, herase]
    refine Finset.card_erase_add_one ?_
    simp only [Finset.mem_filter, Finset.mem_Ico]
    exact ⟨⟨hin,hlow.inRange⟩,hlow.isAvailable⟩
  · exact absurd hex hnot

theorem granted_of_left {image : KernelImage} {s t : PhysicalMem} {f : ℕ} (hf : f < 2^20)
    (h : FlagSound image s) (hleft : 0 < left image s)
    (ha : allocatePhysicalPage image s = (frameAddress f, t)) :
    Granted s t f ∧ FlagSound image t ∧ left image t+1 = left image s := by
  have hflag := allocate_flagSound h
  obtain ⟨g,hg,hga,hgrant,hcount⟩ := allocate_left h hleft
  rw [ha] at hflag hga hgrant hcount
  have hgf : f = g := entry_inj (a := 0) hf hg (by omega) hga
  subst hgf
  exact ⟨hgrant,hflag,hcount⟩

theorem granted_keeps {s t : PhysicalMem} {f : ℕ} (h : Granted s t f) {q : ℕ}
    (hq : bit s.bitmap q = false) : bit t.bitmap q = false := by
  rw [granted_bit h, hq, Bool.and_false]

end MikeOS.FramePool
