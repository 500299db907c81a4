import MikeOS.PhysicalMemory
import MikeOS.Library.Transition

/-!
# Runs of the frame allocator

A session pairs the manager's state with the list of frames handed out and
not freed since. The scan for a free frame starts in the byte that holds the
first page above the kernel image, so its first pages may still belong to the
image; the initialisation has taken those out of the bitmap.
-/

set_option autoImplicit false

namespace MikeOS.FrameAllocator
open BitArray MikeOS.Memory MikeOS.PhysicalMemory

def frameCount : ℕ := 2^20

def firstPage (image : KernelImage) : ℕ := 8*scanStart image

def Exhausted (image : KernelImage) (bitmap : Bytes) : Prop :=
  ∀ q, firstPage image ≤ q → q < frameCount → bit bitmap q = false

structure Lowest (image : KernelImage) (bitmap : Bytes) (p : ℕ) : Prop where
  inScan : firstPage image ≤ p
  inRange : p < frameCount
  isAvailable : bit bitmap p = true
  below : ∀ q, firstPage image ≤ q → q < p → bit bitmap q = false

theorem scanStart_eq (image : KernelImage) : scanStart image = image.kernelEnd.toNat/4096/8 := by
  simp only [scanStart, pageSize_eq, BitVec.toNat_udiv]
  rfl

theorem scanStart_lt (image : KernelImage) : 32 ≤ scanStart image ∧ scanStart image < bitmapSize := by
  have h := image.kernelEnd.isLt
  have ha := image.above
  rw [scanStart_eq, bitmapSize]
  omega

theorem lowest_of_scan {image : KernelImage} {bitmap : Bytes} {i : ℕ}
    (h : scan bitmap (bitmapSize-scanStart image) (scanStart image) = some i) :
    Lowest image bitmap (i*8+getMsbIndex (bitmap i)) := by
  obtain ⟨hle,hlt,hne,hlow⟩ := scan_some h
  obtain ⟨hk,hset,hbelow⟩ := getMsbIndex_spec (bitmap i) hne
  have hs := scanStart_lt image
  unfold bitmapSize at hlt hs
  refine ⟨by unfold firstPage; omega,by unfold frameCount; omega,?_,fun q hq hqp => ?_⟩
  · rwa [bit, show (i*8+getMsbIndex (bitmap i))/8 = i by omega,
      show (i*8+getMsbIndex (bitmap i))%8 = getMsbIndex (bitmap i) by omega]
  · by_cases hqi : q/8 < i
    · exact (byte_eq_zero_iff bitmap (q/8)).mp
        (hlow (q/8) (by unfold firstPage at hq; omega) hqi) q rfl
    · have hqe : q/8 = i := by omega
      rw [bit, hqe]
      exact hbelow (q%8) (by omega)

theorem exhausted_of_scan {image : KernelImage} {bitmap : Bytes}
    (h : scan bitmap (bitmapSize-scanStart image) (scanStart image) = none) :
    Exhausted image bitmap := by
  intro q hq hlt
  have hz := scan_none h (q/8) (by unfold firstPage at hq; omega)
    (by unfold frameCount at hlt; unfold bitmapSize; omega)
  exact (byte_eq_zero_iff bitmap (q/8)).mp hz q rfl

/-- Everything one call of the allocator can do. -/
theorem allocate_cases (image : KernelImage) (s : PhysicalMem) :
    (s.noPageAvailable = true ∧ allocatePhysicalPage image s = (null, s)) ∨
    (∃ p, Lowest image s.bitmap p ∧ allocatePhysicalPage image s =
      (BitVec.ofNat 32 (p*4096), { s with bitmap := BitArray.clear s.bitmap p })) ∨
    (Exhausted image s.bitmap ∧
      allocatePhysicalPage image s = (null, { s with noPageAvailable := true })) := by
  rw [allocatePhysicalPage]
  cases hf : s.noPageAvailable with
  | true => exact Or.inl ⟨rfl,rfl⟩
  | false =>
    right
    cases hscan : scan s.bitmap (bitmapSize-scanStart image) (scanStart image) with
    | none => exact Or.inr ⟨exhausted_of_scan hscan,rfl⟩
    | some i =>
      have hlow := lowest_of_scan hscan
      have hp := hlow.inRange
      unfold frameCount at hp
      have ha : BitVec.ofNat 32 (i*8+getMsbIndex (s.bitmap i))*pageSize =
          BitVec.ofNat 32 ((i*8+getMsbIndex (s.bitmap i))*4096) := by
        rw [pageSize_eq, BitVec.ofNat_mul]
      have hn : (BitVec.ofNat 32 ((i*8+getMsbIndex (s.bitmap i))*4096)).toNat =
          (i*8+getMsbIndex (s.bitmap i))*4096 := by
        rw [BitVec.toNat_ofNat]
        omega
      refine Or.inl ⟨_,hlow,?_⟩
      simp only [Bool.false_eq_true, if_false, ha]
      rw [changePageState_aligned _ _ _ (by omega), hn, Nat.mul_div_cancel _ (by decide), hf]
      rfl

theorem lowest_address {image : KernelImage} {bitmap : Bytes} {p : ℕ} (h : Lowest image bitmap p) :
    (BitVec.ofNat 32 (p*4096)).toNat = p*4096 ∧ BitVec.ofNat 32 (p*4096) ≠ null := by
  have hp := h.inRange
  have hs := h.inScan
  have hk := scanStart_lt image
  unfold frameCount at hp
  unfold firstPage at hs
  have hn : (BitVec.ofNat 32 (p*4096)).toNat = p*4096 := by
    rw [BitVec.toNat_ofNat]
    omega
  refine ⟨hn,fun h0 => ?_⟩
  rw [h0, null_eq, BitVec.toNat_ofNat, Nat.zero_mod] at hn
  omega

theorem lowest_not_exhausted {image : KernelImage} {bitmap : Bytes} {p : ℕ}
    (h : Lowest image bitmap p) : ¬ Exhausted image bitmap := by
  intro he
  have := he p h.inScan h.inRange
  rw [h.isAvailable] at this
  cases this

/-- A call is refused when the flag is raised or nothing is left to hand out. -/
theorem allocate_null_iff (image : KernelImage) (s : PhysicalMem) :
    (allocatePhysicalPage image s).1 = null ↔ s.noPageAvailable = true ∨ Exhausted image s.bitmap := by
  constructor
  · intro hnull
    rcases allocate_cases image s with ⟨hflag,-⟩ | ⟨p,hlow,he⟩ | ⟨hex,-⟩
    · exact Or.inl hflag
    · rw [he] at hnull
      exact absurd hnull (lowest_address hlow).2
    · exact Or.inr hex
  · rintro (hflag | hex)
    · rw [allocatePhysicalPage, if_pos hflag]
    · rcases allocate_cases image s with ⟨-,he⟩ | ⟨p,hlow,-⟩ | ⟨-,he⟩
      · rw [he]
      · exact absurd hex (lowest_not_exhausted hlow)
      · rw [he]

/-! ## Sessions -/

structure Session where
  phys : PhysicalMem
  live : List Word

inductive Op where
  | allocate
  | free (frame : Word)
  deriving DecidableEq, Repr

/-- A frame is freed only while it is live. -/
def step (image : KernelImage) (s : Session) : Op → Option Session
  | .allocate =>
    let (frame, phys) := allocatePhysicalPage image s.phys
    some ⟨phys, if frame = null then s.live else frame :: s.live⟩
  | .free frame =>
    if frame ∈ s.live then some ⟨(freePhysicalPage frame s.phys).2, s.live.erase frame⟩ else none

/-- The contract of the allocator in one state: what the live frames are, what
the bitmap holds, and what the next allocation would return. -/
structure Contract (image : KernelImage) (initial : Bytes) (s : Session) : Prop where
  distinct : s.live.Nodup
  aligned : ∀ f ∈ s.live, f.toNat%4096 = 0
  wasAvailable : ∀ f ∈ s.live, bit initial (f.toNat/4096) = true
  aboveKernel : ∀ f ∈ s.live, image.kernelEnd ≤ f
  bitmap_eq : ∀ p, p < frameCount →
    (bit s.phys.bitmap p = true ↔ bit initial p = true ∧ ∀ f ∈ s.live, f.toNat/4096 ≠ p)
  lowest : (allocatePhysicalPage image s.phys).1 ≠ null →
    (allocatePhysicalPage image s.phys).1.toNat%4096 = 0 ∧
    Lowest image s.phys.bitmap ((allocatePhysicalPage image s.phys).1.toNat/4096)
  null_iff : (allocatePhysicalPage image s.phys).1 = null ↔ Exhausted image s.phys.bitmap

/-- The part of the contract that is about frames, together with the two facts
it needs: a set flag is truthful, and the image has no page in the scan. -/
structure Inv (image : KernelImage) (initial : Bytes) (s : Session) : Prop where
  distinct : s.live.Nodup
  aligned : ∀ f ∈ s.live, f.toNat%4096 = 0
  wasAvailable : ∀ f ∈ s.live, bit initial (f.toNat/4096) = true
  inScan : ∀ f ∈ s.live, firstPage image ≤ f.toNat/4096
  bitmap_eq : ∀ p, p < frameCount →
    (bit s.phys.bitmap p = true ↔ bit initial p = true ∧ ∀ f ∈ s.live, f.toNat/4096 ≠ p)
  flag : s.phys.noPageAvailable = true → Exhausted image s.phys.bitmap

def ImageReserved (image : KernelImage) (bitmap : Bytes) : Prop :=
  ∀ p, firstPage image ≤ p → p < image.kernelEnd.toNat/4096 → bit bitmap p = false

theorem contract_of_inv {image : KernelImage} {initial : Bytes} {s : Session}
    (hr : ImageReserved image initial) (h : Inv image initial s) : Contract image initial s := by
  refine ⟨h.distinct,h.aligned,h.wasAvailable,?_,h.bitmap_eq,?_,?_⟩
  · intro f hf
    by_contra hlt
    have hal := h.aligned f hf
    have hke := image.aligned
    have hz := hr (f.toNat/4096) (h.inScan f hf) (by bv_omega)
    rw [h.wasAvailable f hf] at hz
    cases hz
  · intro hne
    rcases allocate_cases image s.phys with ⟨-,he⟩ | ⟨p,hp,he⟩ | ⟨-,he⟩
    · exact absurd (by rw [he]) hne
    · rw [he, (lowest_address hp).1, Nat.mul_div_cancel _ (by decide)]
      exact ⟨by omega,hp⟩
    · exact absurd (by rw [he]) hne
  · exact (allocate_null_iff image s.phys).trans (or_iff_right_of_imp h.flag)

theorem step_allocate {image : KernelImage} {s s' : Session} (hs : step image s .allocate = some s') :
    (s.phys.noPageAvailable = true ∧ s' = s) ∨
    (∃ p, Lowest image s.phys.bitmap p ∧ s.phys.noPageAvailable = false ∧
      s' = ⟨{ s.phys with bitmap := BitArray.clear s.phys.bitmap p }, BitVec.ofNat 32 (p*4096)::s.live⟩) ∨
    (Exhausted image s.phys.bitmap ∧ s' = ⟨{ s.phys with noPageAvailable := true }, s.live⟩) := by
  simp only [step, Option.some.injEq] at hs
  rcases allocate_cases image s.phys with ⟨hf,he⟩ | ⟨p,hp,he⟩ | ⟨hx,he⟩
  · rw [he] at hs
    exact Or.inl ⟨hf,by simpa using hs.symm⟩
  · have hne := (lowest_address hp).2
    rw [he] at hs
    refine Or.inr (Or.inl ⟨p,hp,Bool.eq_false_iff.mpr fun hf => ?_,by simpa only [if_neg hne] using hs.symm⟩)
    rw [allocatePhysicalPage, if_pos hf] at he
    exact hne (congrArg Prod.fst he).symm
  · rw [he] at hs
    exact Or.inr (Or.inr ⟨hx,by simpa using hs.symm⟩)

theorem step_free {image : KernelImage} {s s' : Session} {f : Word} (hs : step image s (.free f) = some s') :
    f ∈ s.live ∧ s' = ⟨(freePhysicalPage f s.phys).2, s.live.erase f⟩ := by
  rw [step] at hs
  split at hs
  case isFalse => cases hs
  case isTrue hf => exact ⟨hf,(Option.some.inj hs).symm⟩

theorem allocate_inv {image : KernelImage} {initial : Bytes} {s s' : Session}
    (h : Inv image initial s) (hs : step image s .allocate = some s') : Inv image initial s' := by
  rcases step_allocate hs with ⟨-,rfl⟩ | ⟨p,hp,-,rfl⟩ | ⟨hx,rfl⟩
  · exact h
  · have hn := (lowest_address hp).1
    have hpage : (BitVec.ofNat 32 (p*4096)).toNat/4096 = p := by
      rw [hn, Nat.mul_div_cancel _ (by decide)]
    obtain ⟨hinit,hfresh⟩ := (h.bitmap_eq p hp.inRange).mp hp.isAvailable
    refine ⟨?_,?_,?_,?_,?_,?_⟩
    · exact List.nodup_cons.mpr ⟨fun hm => hfresh _ hm hpage,h.distinct⟩
    · exact List.forall_mem_cons.mpr ⟨by omega,h.aligned⟩
    · exact List.forall_mem_cons.mpr ⟨by rwa [hpage],h.wasAvailable⟩
    · exact List.forall_mem_cons.mpr ⟨by rw [hpage]; exact hp.inScan,h.inScan⟩
    · intro q hq
      rw [bit_clear, List.forall_mem_cons, hpage]
      by_cases hqp : q = p
      · simp [hqp]
      · have := h.bitmap_eq q hq
        simp only [hqp, decide_false, Bool.not_false, Bool.true_and, this]
        tauto
    · intro hf q hq hlt
      rw [bit_clear, h.flag hf q hq hlt, Bool.and_false]
  · exact ⟨h.distinct,h.aligned,h.wasAvailable,h.inScan,h.bitmap_eq,fun _ => hx⟩

theorem free_inv {image : KernelImage} {initial : Bytes} {s s' : Session} {f : Word}
    (h : Inv image initial s) (hs : step image s (.free f) = some s') : Inv image initial s' := by
  obtain ⟨hf,rfl⟩ := step_free hs
  rw [freePhysicalPage_aligned f s.phys (h.aligned f hf)]
  have hsub : ∀ g ∈ s.live.erase f, g ∈ s.live := fun g hg => List.mem_of_mem_erase hg
  refine ⟨h.distinct.erase f,fun g hg => h.aligned g (hsub g hg),
    fun g hg => h.wasAvailable g (hsub g hg),fun g hg => h.inScan g (hsub g hg),?_,?_⟩
  · intro q hq
    simp only [bit_set, Bool.or_eq_true, decide_eq_true_eq, h.bitmap_eq q hq]
    constructor
    · rintro (rfl | ⟨hinit,hne⟩)
      · refine ⟨h.wasAvailable f hf,fun g hg hgf => ?_⟩
        have hal := h.aligned g (hsub g hg)
        have hal' := h.aligned f hf
        have : g = f := BitVec.eq_of_toNat_eq (by omega)
        exact (List.Nodup.mem_erase_iff h.distinct).mp hg |>.1 this
      · exact ⟨hinit,fun g hg => hne g (hsub g hg)⟩
    · rintro ⟨hinit,hne⟩
      by_cases hq' : q = f.toNat/4096
      · exact Or.inl hq'
      · refine Or.inr ⟨hinit,fun g hg => ?_⟩
        by_cases hgf : g = f
        · rw [hgf]; omega
        · exact hne g ((List.mem_erase_of_ne hgf).mpr hg)
  · intro hf'
    cases hf'

theorem step_inv {image : KernelImage} {initial : Bytes} {s s' : Session} {op : Op}
    (h : Inv image initial s) (hs : step image s op = some s') : Inv image initial s' := by
  cases op with
  | allocate => exact allocate_inv h hs
  | free f => exact free_inv h hs

/-! ## The state left by the initialisation -/

theorem init_steps {image : KernelImage} {ram : Ram} {mapAddr mapLength : Word} {fuel : ℕ}
    {s : PhysicalMem} (h : phyMemoryManagerInit image ram mapAddr mapLength fuel = .ok s) :
    ∃ t, mapMemory ram (mapAddr+24#32*mapLength) fuel mapAddr PhysicalMem.boot = .ok t ∧
      s = (changePagesState kernelStart image.kernelEnd .unavailable
        (changePagesState 0#32 0xff000#32 .unavailable t).2).2 := by
  unfold phyMemoryManagerInit at h
  split at h
  · cases h
  · rename_i t ht
    exact ⟨t,ht,(Except.ok.inj h).symm⟩

theorem init_unavailable {image : KernelImage} {ram : Ram} {mapAddr mapLength : Word} {fuel : ℕ}
    {s : PhysicalMem} (h : phyMemoryManagerInit image ram mapAddr mapLength fuel = .ok s) {p : ℕ}
    (hp : p < 0xff ∨ 0x100 ≤ p ∧ p < image.kernelEnd.toNat/4096) : bit s.bitmap p = false := by
  obtain ⟨t,-,hs⟩ := init_steps h
  have ha := image.above
  have hk : kernelStart ≤ image.kernelEnd := by
    unfold kernelStart
    bv_omega
  rw [hs, changePagesState_eq kernelStart image.kernelEnd _ _ (by decide) image.aligned hk,
    changePagesState_eq 0#32 0xff000#32 _ _ (by decide) (by decide) (by decide)]
  simp only [bit_put_range, kernelStart, BitVec.toNat_ofNat]
  rcases hp with hlow | himage
  · rw [if_neg (by omega), if_pos (by omega)]
    rfl
  · rw [if_pos (by omega)]
    rfl

theorem init_reserved {image : KernelImage} {ram : Ram} {mapAddr mapLength : Word} {fuel : ℕ}
    {s : PhysicalMem} (h : phyMemoryManagerInit image ram mapAddr mapLength fuel = .ok s) :
    ImageReserved image s.bitmap ∧ s.noPageAvailable = false := by
  obtain ⟨t,ht,hs⟩ := init_steps h
  constructor
  · intro p hp hlt
    have hstart := scanStart_lt image
    unfold firstPage at hp
    exact init_unavailable h (Or.inr ⟨by omega,hlt⟩)
  · rw [hs, changePagesState_flag, changePagesState_flag, mapMemory_flag ht]
    rfl

/-- From the state left by the initialisation, every run of allocations and of
frees of live frames keeps the contract in every state it passes. -/
theorem frame_allocator_contract (image : KernelImage) (ram : Ram) (mapAddr mapLength : Word)
    (fuel : ℕ) (s : PhysicalMem)
    (h : phyMemoryManagerInit image ram mapAddr mapLength fuel = .ok s) (ops : List Op) :
    Transition.Always (step image) (Contract image s.bitmap) ops ⟨s, []⟩ := by
  obtain ⟨hr,hf⟩ := init_reserved h
  apply Transition.always_of_invariant (fun t ht => contract_of_inv hr ht)
    (fun t op t' ht hstep => step_inv ht hstep)
  refine ⟨List.nodup_nil,?_,?_,?_,?_,?_⟩
  · simp
  · simp
  · simp
  · simp
  · intro hx
    rw [hf] at hx
    cases hx

def sampleImage : KernelImage := ⟨0x103000#32, by decide, by decide⟩

def sampleMap : Ram := fun p =>
  if p = 0x9000#32 then 20#8
  else if p = 0x9005#32 ∨ p = 0x9006#32 then 0x10#8
  else if p = 0x900D#32 then 0x48#8
  else if p = 0x9014#32 then 1#8
  else 0#8

theorem sample_extent :
    entryExtent (readEntry sampleMap 0x9000#32) = some (0x101000#32, 0x4000#32) := by
  decide

theorem sample_init : ∃ s, phyMemoryManagerInit sampleImage sampleMap 0x9000#32 1#32 2 = .ok s ∧
    ∀ q, bit s.bitmap q = decide (q = 0x103 ∨ q = 0x104) := by
  have hin : 0x9000#32 < 0x9000#32+24#32*1#32 := by decide
  have hend : ¬ 0x9000#32+(readEntry sampleMap 0x9000#32).size+4#32 < 0x9000#32+24#32*1#32 := by
    decide
  have htype : (readEntry sampleMap 0x9000#32).type = memoryAvailable := by decide
  simp only [phyMemoryManagerInit, mapMemory, if_pos hin, mapEntry, if_pos htype, sample_extent]
  rw [changePagesState_eq _ _ _ _ (by decide) (by decide) (by decide)]
  simp only [if_neg hend]
  refine ⟨_,rfl,fun q => ?_⟩
  rw [bit_changePagesState, bit_changePagesState, bit_put_range, PhysicalMem.boot]
  have hnone : bit (fun _ => 0#8) q = false := BitVec.getMsbD_zero
  have hkernel : Covers kernelStart sampleImage.kernelEnd q ↔ 0x100 ≤ q ∧ q < 0x103 := by
    simp [Covers, kernelStart, sampleImage]
  have hregion : (0x101000#32).toNat/4096 ≤ q ∧ q < (0x101000#32).toNat/4096+
      ((0x101000#32+0x4000#32).toNat-(0x101000#32).toNat)/4096 ↔ 0x101 ≤ q ∧ q < 0x105 := by
    simp
  have hlow : Covers 0#32 0xff000#32 q ↔ q < 0xff := by
    simp [Covers]
  simp only [hkernel, hlow, hregion, hnone]
  split_ifs <;> simp <;> omega

theorem frame_allocator_contract_one_region :
    ∃ s, phyMemoryManagerInit sampleImage sampleMap 0x9000#32 1#32 2 = .ok s ∧
      Transition.Always (step sampleImage) (Contract sampleImage s.bitmap)
        [.allocate, .allocate, .free 0x103000#32, .allocate] ⟨s, []⟩ := by
  obtain ⟨s,hs,-⟩ := sample_init
  exact ⟨s,hs,frame_allocator_contract sampleImage sampleMap 0x9000#32 1#32 2 s hs _⟩

end MikeOS.FrameAllocator
