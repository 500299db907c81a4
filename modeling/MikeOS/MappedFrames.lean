import MikeOS.KernelHeapRuns
import MikeOS.FrameAllocator

/-!
# Frames mapped into the kernel heap

`map_physical_address_to_kheap` registers the frames it maps, so that they are
not handed out later. It passes the number of pages where
`register_physical_pages` takes the address behind the last one. What is
reserved is followed through every later run of the frame allocator.
-/

set_option autoImplicit false

namespace MikeOS.MappedFrames
open BitArray MikeOS.Memory MikeOS.PhysicalMemory MikeOS.KernelHeap MikeOS.FrameAllocator

/-- Page `q` is one of the `num_pages` pages from `physical_address` on. -/
def Mapped (physicalAddress numPages : Word) (q : ℕ) : Prop :=
  physicalAddress.toNat/4096 ≤ q ∧ q < physicalAddress.toNat/4096+numPages.toNat

instance (physicalAddress numPages : Word) (q : ℕ) : Decidable (Mapped physicalAddress numPages q) :=
  instDecidableAnd

def NotHandedOut (physicalAddress numPages : Word) (s : Session) : Prop :=
  ∀ f ∈ s.live, ¬ (physicalAddress.toNat ≤ f.toNat ∧ f.toNat < physicalAddress.toNat+numPages.toNat*4096)

/-- The mapped frames that the scan can reach were taken before, or lie below
the address that the number of pages happens to be. -/
def Reserved (image : KernelImage) (phys : PhysicalMem) (physicalAddress numPages : Word) : Prop :=
  phys.noPageAvailable = true ∨ ∀ q, firstPage image ≤ q → q < frameCount →
    Mapped physicalAddress numPages q → bit phys.bitmap q = true → Covers physicalAddress numPages q

/-! ## What the call does to the frames -/

theorem map_phys {physicalAddress numPages address : Word} {k k' : Kheap}
    (h : mapPhysicalAddressToKheap physicalAddress numPages k = .ok (address, k')) :
    k'.phys = (registerPhysicalPages physicalAddress numPages k.phys).2 := by
  obtain ⟨phys,hphys⟩ : ∃ phys, phys = (registerPhysicalPages physicalAddress numPages k.phys).2 := ⟨_,rfl⟩
  simp only [mapPhysicalAddressToKheap, ← hphys] at h ⊢
  obtain ⟨bitmap,-,hfill⟩ := searchThen_ok h
  refine overEntries_inv (P := fun x => x.phys = phys) ?_ ?_ hfill
  · exact fun _ _ hx => hx
  · rfl

/-! ## Runs of the allocator -/

/-- Either nothing is handed out at all, or the frames in `R` stay taken. -/
def Kept (image : KernelImage) (R : ℕ → Prop) (s : Session) : Prop :=
  (s.phys.noPageAvailable = true ∧ s.live = []) ∨
    (∀ q, firstPage image ≤ q → q < frameCount → R q → bit s.phys.bitmap q = false) ∧
      ∀ f ∈ s.live, ∃ q, f.toNat = q*4096 ∧ ¬ R q

theorem allocate_kept {image : KernelImage} {R : ℕ → Prop} {s s' : Session} (h : Kept image R s)
    (hs : step image s .allocate = some s') : Kept image R s' := by
  rcases step_allocate hs with ⟨-,rfl⟩ | ⟨p,hp,hflag,rfl⟩ | ⟨-,rfl⟩
  · exact h
  · have hn := (lowest_address hp).1
    rcases h with ⟨hf,-⟩ | ⟨hbits,hlive⟩
    · rw [hflag] at hf
      cases hf
    · have hout : ¬ R p := fun hr => by
        have := hbits p hp.inScan hp.inRange hr
        rw [hp.isAvailable] at this
        cases this
      refine Or.inr ⟨fun q hq hlt hr => ?_,List.forall_mem_cons.mpr ⟨⟨p,hn,hout⟩,hlive⟩⟩
      rw [bit_clear, hbits q hq hlt hr, Bool.and_false]
  · rcases h with ⟨-,hl⟩ | hrest
    · exact Or.inl ⟨rfl,hl⟩
    · exact Or.inr hrest

theorem free_kept {image : KernelImage} {R : ℕ → Prop} {s s' : Session} {f : Word} (h : Kept image R s)
    (hs : step image s (.free f) = some s') : Kept image R s' := by
  obtain ⟨hf,rfl⟩ := step_free hs
  rcases h with ⟨-,hl⟩ | ⟨hbits,hlive⟩
  · rw [hl] at hf
    cases hf
  · obtain ⟨p,hp,hout⟩ := hlive f hf
    rw [freePhysicalPage_aligned f s.phys (by omega)]
    refine Or.inr ⟨fun q hq hlt hr => ?_,fun g hg => hlive g (List.mem_of_mem_erase hg)⟩
    have hne : q ≠ p := fun he => hout (he ▸ hr)
    rw [bit_set, hp, Nat.mul_div_cancel _ (by decide), hbits q hq hlt hr, decide_eq_false hne]
    rfl

theorem step_kept {image : KernelImage} {R : ℕ → Prop} {s s' : Session} {op : Op} (h : Kept image R s)
    (hs : step image s op = some s') : Kept image R s' := by
  cases op with
  | allocate => exact allocate_kept h hs
  | free f => exact free_kept h hs

/-- A frame that is available is handed out in the end: each call before that
takes one of the finitely many below it. -/
theorem handed_out (image : KernelImage) {s : Session} {q : ℕ} (hflag : s.phys.noPageAvailable = false)
    (hq : firstPage image ≤ q) (hlt : q < frameCount) (hbit : bit s.phys.bitmap q = true) :
    ∃ ops s', Transition.run (step image) ops s = some s' ∧ BitVec.ofNat 32 (q*4096) ∈ s'.live := by
  obtain ⟨count,hcount⟩ : ∃ count, ((Finset.range q).filter fun p => bit s.phys.bitmap p = true).card = count :=
    ⟨_,rfl⟩
  induction count using Nat.strong_induction_on generalizing s with
  | _ count ih =>
    rcases allocate_cases image s.phys with ⟨hf,-⟩ | ⟨p,hp,he⟩ | ⟨hx,-⟩
    · rw [hflag] at hf
      cases hf
    · obtain ⟨hn,hne⟩ := lowest_address hp
      obtain ⟨s₁,hs₁⟩ : ∃ s₁ : Session, s₁ = ⟨{ s.phys with bitmap := BitArray.clear s.phys.bitmap p },
        BitVec.ofNat 32 (p*4096)::s.live⟩ := ⟨_,rfl⟩
      have hstep : step image s .allocate = some s₁ := by
        simp only [step, he, if_neg hne, hs₁]
      have hbits : ∀ x, bit s₁.phys.bitmap x = (!decide (x = p) && bit s.phys.bitmap x) := fun x => by
        rw [hs₁, bit_clear]
      by_cases hpq : p = q
      · refine ⟨[.allocate],s₁,by simp [hstep],?_⟩
        rw [hs₁, hpq]
        exact List.mem_cons_self
      · have hlow : p < q := by
          by_contra hge
          have := hp.below q hq (by omega)
          rw [hbit] at this
          cases this
        have hless : ((Finset.range q).filter fun x => bit s₁.phys.bitmap x = true).card < count := by
          rw [← hcount]
          apply Finset.card_lt_card
          rw [Finset.ssubset_iff_of_subset]
          · exact ⟨p,by simp [hlow, hp.isAvailable],by simp [hbits]⟩
          · intro x hx
            simp only [Finset.mem_filter, hbits, Bool.and_eq_true] at hx ⊢
            exact ⟨hx.1,hx.2.2⟩
        obtain ⟨ops,s',hrun,hmem⟩ := ih _ hless (s := s₁) (by rw [hs₁]; exact hflag)
          (by rw [hbits, hbit, decide_eq_false (Ne.symm hpq)]; rfl) rfl
        exact ⟨.allocate::ops,s',by rw [Transition.run_cons, hstep]; exact hrun,hmem⟩
    · have := hx q hq hlt
      rw [hbit] at this
      cases this

/-! ## Reservation -/

theorem map_bits {k k' : Kheap} {physicalAddress numPages address : Word}
    (h : mapPhysicalAddressToKheap physicalAddress numPages k = .ok (address, k')) :
    k'.phys.noPageAvailable = k.phys.noPageAvailable ∧ ∀ q, bit k'.phys.bitmap q =
      if Covers physicalAddress numPages q then false else bit k.phys.bitmap q := by
  rw [map_phys h, registerPhysicalPages]
  exact ⟨changePagesState_flag _ _ _ _,fun q => bit_changePagesState _ _ _ _ q⟩

theorem reserved_of_runs (image : KernelImage) {k k' : Kheap} {physicalAddress numPages address : Word}
    (hal : physicalAddress.toNat%4096 = 0)
    (h : mapPhysicalAddressToKheap physicalAddress numPages k = .ok (address, k'))
    (hruns : ∀ ops, Transition.Always (step image) (NotHandedOut physicalAddress numPages) ops ⟨k'.phys, []⟩) :
    Reserved image k.phys physicalAddress numPages := by
  obtain ⟨hflag,hbits⟩ := map_bits h
  rw [Reserved, or_iff_not_imp_left, Bool.not_eq_true]
  intro hf q hq hlt hin hav
  by_contra hcov
  obtain ⟨ops,s',hrun,hmem⟩ := handed_out image (s := ⟨k'.phys, []⟩) (hflag.trans hf) hq hlt
    (by rw [hbits, if_neg hcov, hav])
  have hn : (BitVec.ofNat 32 (q*4096)).toNat = q*4096 := by
    unfold frameCount at hlt
    rw [BitVec.toNat_ofNat, Nat.mod_eq_of_lt (by omega)]
  apply Transition.always_run _ (hruns ops) hrun _ hmem
  rw [hn]
  unfold Mapped at hin
  omega

theorem not_handed_out_of_kept {image : KernelImage} {physicalAddress numPages : Word} {s : Session}
    (hal : physicalAddress.toNat%4096 = 0) (h : Kept image (Mapped physicalAddress numPages) s) :
    NotHandedOut physicalAddress numPages s := by
  intro f hf hin
  rcases h with ⟨-,hl⟩ | ⟨-,hlive⟩
  · rw [hl] at hf
    cases hf
  · obtain ⟨q,hq,hout⟩ := hlive f hf
    apply hout
    unfold Mapped
    omega

theorem kept_of_reserved {image : KernelImage} {k k' : Kheap} {physicalAddress numPages address : Word}
    (h : mapPhysicalAddressToKheap physicalAddress numPages k = .ok (address, k'))
    (hres : Reserved image k.phys physicalAddress numPages) :
    Kept image (Mapped physicalAddress numPages) ⟨k'.phys, []⟩ := by
  obtain ⟨hflag,hbits⟩ := map_bits h
  rcases hres with hf | hres
  · exact Or.inl ⟨hflag.trans hf,rfl⟩
  · refine Or.inr ⟨fun q hq hlt hin => ?_,by simp⟩
    rw [hbits]
    split
    · rfl
    · rename_i hcov
      rw [Bool.eq_false_iff]
      exact fun hav => hcov (hres q hq hlt hin hav)

theorem runs_reserved_iff (image : KernelImage) {k k' : Kheap} {physicalAddress numPages address : Word}
    (hal : physicalAddress.toNat%4096 = 0)
    (h : mapPhysicalAddressToKheap physicalAddress numPages k = .ok (address, k')) :
    (∀ ops, Transition.Always (step image) (NotHandedOut physicalAddress numPages) ops ⟨k'.phys, []⟩) ↔
      Reserved image k.phys physicalAddress numPages := by
  constructor
  · exact reserved_of_runs image hal h
  · intro hres ops
    exact Transition.always_of_invariant (fun _ hs => not_handed_out_of_kept hal hs)
      (fun _ _ _ hs hstep => step_kept hs hstep) ops (kept_of_reserved h hres)

/-- The frames of a mapping are never handed out precisely when those that the
scan can reach were not available, but for the ones below the address that the
number of pages happens to be. -/
theorem mapped_frames_reserved_iff (image : KernelImage) (k k' : Kheap)
    (physicalAddress numPages address : Word) (hal : physicalAddress.toNat%4096 = 0)
    (h : mapPhysicalAddressToKheap physicalAddress numPages k = .ok (address, k')) :
    (∀ ops, Transition.Always (step image) (NotHandedOut physicalAddress numPages) ops ⟨k'.phys, []⟩) ↔
      Reserved image k.phys physicalAddress numPages :=
  runs_reserved_iff image hal h

/-! ## The first mapping after the heap was set up -/

theorem first_mapping (physicalAddress : Word) (phys : PhysicalMem) :
    ∃ k', mapPhysicalAddressToKheap physicalAddress 1#32 (kheapInit (Kheap.boot phys)) =
      .ok (0xC0800000#32, k') := by
  obtain ⟨bitmap,hsearch⟩ := KernelHeapRuns.first_search phys
  rw [mapPhysicalAddressToKheap, hsearch, searchThen]
  simp only [KernelHeapRuns.first_entry]
  exact ⟨_,rfl⟩

theorem mapped_page_handed_out :
    ∃ s k' address, phyMemoryManagerInit sampleImage sampleMap 0x9000#32 1#32 2 = .ok s ∧
      mapPhysicalAddressToKheap 0x103000#32 1#32 (kheapInit (Kheap.boot s)) = .ok (address, k') ∧
      address ≠ null ∧
      ¬ ∀ ops, Transition.Always (step sampleImage) (NotHandedOut 0x103000#32 1#32) ops ⟨k'.phys, []⟩ := by
  obtain ⟨s,hs,hbits⟩ := sample_init
  obtain ⟨k',hk'⟩ := first_mapping 0x103000#32 s
  refine ⟨s,k',_,hs,hk',by decide,?_⟩
  rw [runs_reserved_iff sampleImage (by decide) hk']
  rintro (hflag | hres)
  · change s.noPageAvailable = true at hflag
    rw [(init_reserved hs).2] at hflag
    cases hflag
  · have hcov := hres 0x103 (by decide) (by decide) (by decide) (by
      change bit s.bitmap 0x103 = true
      rw [hbits]
      rfl)
    exact absurd hcov (by decide)

theorem kernel_page_reserved :
    ∃ s k' address, mapPhysicalAddressToKheap 0x102000#32 1#32 (kheapInit (Kheap.boot s)) = .ok (address, k') ∧
      ∀ ops, Transition.Always (step sampleImage) (NotHandedOut 0x102000#32 1#32) ops ⟨k'.phys, []⟩ := by
  obtain ⟨s,-,hbits⟩ := sample_init
  obtain ⟨k',hk'⟩ := first_mapping 0x102000#32 s
  refine ⟨s,k',_,hk',?_⟩
  apply (mapped_frames_reserved_iff sampleImage _ k' 0x102000#32 1#32 _ (by decide) hk').mpr
  refine Or.inr fun q _ _ hin hav => ?_
  change bit s.bitmap q = true at hav
  rw [hbits, decide_eq_true_eq] at hav
  have hq : Mapped 0x102000#32 1#32 q ↔ q = 0x102 := by
    simp only [Mapped, BitVec.toNat_ofNat]
    omega
  rw [hq.mp hin] at hav
  omega

end MikeOS.MappedFrames
