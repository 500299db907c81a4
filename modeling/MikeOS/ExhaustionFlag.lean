import MikeOS.FramePool

/-!
# The flag that caches a failed search

Four functions change the bitmap of the frames after the initialisation, with
any arguments and in any order. The flag is raised by a search that found
nothing and taken back by `free_physical_page` only; `unregister_physical_pages`
makes frames available and leaves it as it is.
-/

set_option autoImplicit false

namespace MikeOS.ExhaustionFlag
open BitArray MikeOS.Memory MikeOS.PhysicalMemory MikeOS.FrameAllocator MikeOS.FramePool

inductive Op where
  | allocate
  | free (pageAddress : Word)
  | register (startAddress endAddress : Word)
  | unregister (startAddress endAddress : Word)
  deriving DecidableEq, Repr

def apply (image : KernelImage) (s : PhysicalMem) : Op → PhysicalMem
  | .allocate => (allocatePhysicalPage image s).2
  | .free pageAddress => (freePhysicalPage pageAddress s).2
  | .register startAddress endAddress => (registerPhysicalPages startAddress endAddress s).2
  | .unregister startAddress endAddress => (unregisterPhysicalPages startAddress endAddress s).2

def step (image : KernelImage) (s : PhysicalMem) (op : Op) : Option PhysicalMem := some (apply image s op)

/-- A set flag is truthful, and so is the answer `NULL` of the next call. -/
structure Sound (image : KernelImage) (s : PhysicalMem) : Prop where
  flag : s.noPageAvailable = true → Exhausted image s.bitmap
  answer : (allocatePhysicalPage image s).1 = null → Exhausted image s.bitmap

/-- While the flag is set, no frame that the scan would reach is unregistered. -/
def Harmless (image : KernelImage) (s : PhysicalMem) : Op → Prop
  | .unregister startAddress endAddress =>
    s.noPageAvailable = true → ∀ q, firstPage image ≤ q → ¬ Covers startAddress endAddress q
  | _ => True

theorem sound_of_flag {image : KernelImage} {s : PhysicalMem} (h : FlagSound image s) : Sound image s := by
  refine ⟨h,fun hnull => ?_⟩
  rcases (allocate_null_iff image s).mp hnull with hf | hx
  · exact h hf
  · exact hx

theorem free_flagSound {image : KernelImage} {s : PhysicalMem} (h : FlagSound image s) (pageAddress : Word) :
    FlagSound image (freePhysicalPage pageAddress s).2 := by
  by_cases hal : pageAddress.toNat%4096 = 0
  · rw [freePhysicalPage_aligned pageAddress s hal]
    intro hf
    cases hf
  · rw [freePhysicalPage_unaligned pageAddress s hal]
    exact h

theorem register_flagSound {image : KernelImage} {s : PhysicalMem} (h : FlagSound image s)
    (startAddress endAddress : Word) :
    FlagSound image (registerPhysicalPages startAddress endAddress s).2 := by
  intro hf q hq hlt
  rw [registerPhysicalPages, changePagesState_flag] at hf
  rw [registerPhysicalPages, bit_changePagesState]
  split
  · rfl
  · exact h hf q hq hlt

theorem unregister_flagSound {image : KernelImage} {s : PhysicalMem} {startAddress endAddress : Word}
    (h : FlagSound image s) (hc : Harmless image s (.unregister startAddress endAddress)) :
    FlagSound image (unregisterPhysicalPages startAddress endAddress s).2 := by
  intro hf q hq hlt
  rw [unregisterPhysicalPages, changePagesState_flag] at hf
  rw [unregisterPhysicalPages, bit_changePagesState, if_neg (hc hf q hq)]
  exact h hf q hq hlt

theorem step_flagSound {image : KernelImage} {s s' : PhysicalMem} {op : Op} (h : FlagSound image s)
    (hc : Harmless image s op) (hs : step image s op = some s') : FlagSound image s' := by
  rw [step, Option.some.injEq] at hs
  subst hs
  cases op with
  | allocate => exact allocate_flagSound h
  | free pageAddress => exact free_flagSound h pageAddress
  | register startAddress endAddress => exact register_flagSound h startAddress endAddress
  | unregister startAddress endAddress => exact unregister_flagSound h hc

/-- A frame that the scan would reach was unregistered and the flag is still set. -/
theorem step_unsound {image : KernelImage} {s s' : PhysicalMem} {op : Op} (hc : ¬ Harmless image s op)
    (hs : step image s op = some s') : ¬ Sound image s' := by
  rw [step, Option.some.injEq] at hs
  subst hs
  cases op with
  | allocate => exact absurd trivial hc
  | free pageAddress => exact absurd trivial hc
  | register startAddress endAddress => exact absurd trivial hc
  | unregister startAddress endAddress =>
    simp only [Harmless, not_forall, not_not] at hc
    obtain ⟨hf,q,hq,hcov⟩ := hc
    intro hsound
    have hlt : q < frameCount := by
      have := endAddress.isLt
      have := hcov.2.2.2
      unfold frameCount
      omega
    have hclear := hsound.flag (by rwa [apply, unregisterPhysicalPages, changePagesState_flag]) q hq hlt
    rw [apply, unregisterPhysicalPages, bit_changePagesState, if_pos hcov] at hclear
    cases hclear

theorem runs_sound_iff {image : KernelImage} {s : PhysicalMem} (h : FlagSound image s) (ops : List Op) :
    Transition.Always (step image) (Sound image) ops s ↔
      Transition.Guarded (step image) (Harmless image) ops s :=
  Transition.always_iff_guarded (FlagSound image) (fun _ => sound_of_flag)
    (fun _ _ _ => step_flagSound) (fun _ _ _ _ => step_unsound) ops h

theorem init_flagSound {image : KernelImage} {ram : Ram} {mapAddr mapLength : Word} {fuel : ℕ}
    {s : PhysicalMem} (h : phyMemoryManagerInit image ram mapAddr mapLength fuel = .ok s) :
    FlagSound image s := by
  intro hf
  rw [(init_reserved h).2] at hf
  cases hf

/-- After the initialisation a run is sound throughout precisely when it
unregisters no frame the scan would reach while the flag is set. -/
theorem exhaustion_flag_sound_iff (image : KernelImage) (ram : Ram) (mapAddr mapLength : Word) (fuel : ℕ)
    (s : PhysicalMem) (h : phyMemoryManagerInit image ram mapAddr mapLength fuel = .ok s) (ops : List Op) :
    Transition.Always (step image) (Sound image) ops s ↔
      Transition.Guarded (step image) (Harmless image) ops s :=
  runs_sound_iff (init_flagSound h) ops

def reserveAndReturn : List Op :=
  [.register 0x103000#32 0x105000#32, .allocate, .unregister 0x103000#32 0x105000#32]

theorem sample_reserved {s : PhysicalMem} (h : ∀ q, bit s.bitmap q = decide (q = 0x103 ∨ q = 0x104)) :
    Exhausted sampleImage (registerPhysicalPages 0x103000#32 0x105000#32 s).2.bitmap := by
  intro q _ _
  have hcov : Covers 0x103000#32 0x105000#32 q ↔ 0x103 ≤ q ∧ q < 0x105 := by simp [Covers]
  rw [registerPhysicalPages, bit_changePagesState, h]
  simp only [hcov]
  split_ifs
  · rfl
  · simp
    omega

theorem returned_frames_not_seen :
    ∃ s, phyMemoryManagerInit sampleImage sampleMap 0x9000#32 1#32 2 = .ok s ∧
      ¬ Transition.Always (step sampleImage) (Sound sampleImage) reserveAndReturn s := by
  obtain ⟨s,hs,hbits⟩ := sample_init
  refine ⟨s,hs,fun hrun => ?_⟩
  rw [runs_sound_iff (init_flagSound hs)] at hrun
  obtain ⟨-,hrun⟩ := hrun _ rfl
  obtain ⟨-,hrun⟩ := hrun _ rfl
  have hharm := (hrun _ rfl).1
  have hflag : (apply sampleImage (apply sampleImage s (.register 0x103000#32 0x105000#32)) .allocate).noPageAvailable
      = true := by
    rcases allocate_cases sampleImage (apply sampleImage s (.register 0x103000#32 0x105000#32)) with
      ⟨hf,he⟩ | ⟨p,hp,-⟩ | ⟨-,he⟩
    · rw [apply, he]
      exact hf
    · exact absurd (sample_reserved hbits) (lowest_not_exhausted hp)
    · rw [apply, he]
  exact hharm hflag 0x103 (by decide) (by decide)

theorem exhaustion_flag_one_region :
    ∃ s, phyMemoryManagerInit sampleImage sampleMap 0x9000#32 1#32 2 = .ok s ∧
      (Transition.Always (step sampleImage) (Sound sampleImage) reserveAndReturn s ↔
        Transition.Guarded (step sampleImage) (Harmless sampleImage) reserveAndReturn s) := by
  obtain ⟨s,hs,-⟩ := sample_init
  exact ⟨s,hs,exhaustion_flag_sound_iff sampleImage sampleMap 0x9000#32 1#32 2 s hs _⟩

end MikeOS.ExhaustionFlag
