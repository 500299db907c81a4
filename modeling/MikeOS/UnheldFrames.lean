import MikeOS.KernelMain
import MikeOS.UserBytes

/-!
# Frames without a holder

A frame that is taken and that no page table refers to stays so, whatever the
kernel does to address spaces and to the heap, and what it holds stays as it is.
-/

set_option autoImplicit false

namespace MikeOS.UnheldFrames
open BitArray MikeOS.Memory MikeOS.Paging MikeOS.PhysicalMemory MikeOS.KernelHeap MikeOS.KernelHeapSearch
open MikeOS.KernelHeapRuns MikeOS.FrameAllocator MikeOS.Mmu MikeOS.VirtualMemory MikeOS.FramePool
open MikeOS.PageTables MikeOS.Boot MikeOS.PageDirectory MikeOS.Ownership MikeOS.FrameDemand MikeOS.Mmaps
open MikeOS.AddressSpaces
open MikeOS.KernelMain (Outside)

def Spares (L : Layout) (dirs dirs' : List ℕ) (m m' : Machine) : Prop :=
  ∀ g, Unheld L m.mem dirs m.phys g → Unheld L m'.mem dirs' m'.phys g ∧ m'.mem g = m.mem g

section
variable {L : Layout} {dirs : List ℕ} {m : Machine}

theorem spares_refl (m : Machine) : Spares L dirs dirs m m := fun _ h => ⟨h,rfl⟩

theorem spares_trans {dirs₁ dirs₂ : List ℕ} {m₁ m₂ : Machine} (h : Spares L dirs dirs₁ m m₁)
    (h' : Spares L dirs₁ dirs₂ m₁ m₂) : Spares L dirs dirs₂ m m₂ := fun g hg => by
  obtain ⟨h₁,he₁⟩ := h g hg
  obtain ⟨h₂,he₂⟩ := h' g h₁
  exact ⟨h₂,he₂.trans he₁⟩

theorem outside_of_unheld {mem : Frames} {phys : PhysicalMem} {f : ℕ} (h : Unheld L mem dirs phys f) :
    Outside L mem dirs f :=
  ⟨h.fixed,fun hd => h.free (.directory f) ⟨hd,rfl⟩,fun D hD i ht => h.free (.table D i) ⟨hD,ht⟩⟩

theorem unheld_ne_granted {mem : Frames} {s t : PhysicalMem} {f g : ℕ} (h : Unheld L mem dirs s g)
    (hg : Granted s t f) : g ≠ f := by
  rintro rfl
  have := h.taken
  rw [hg.2.1] at this
  cases this

theorem unheld_outside (h : Running L dirs m) {f : ℕ} (hf : Outside L m.mem dirs f) {mem : Frames}
    (hmem : ∀ g, g ≠ f → mem g = m.mem g) {g : ℕ} (hg : Unheld L m.mem dirs m.phys g) :
    Unheld L mem dirs m.phys g := by
  obtain ⟨hres,hdir,htab⟩ := hf
  obtain ⟨-,hback⟩ := owned_frame mem h.owned
    (fun D hD => hmem D fun he => hdir (he ▸ hD))
    (fun D hD i t ht => hmem t fun he => htab D hD i (he ▸ ht))
    (fun i hi => hmem _ fun he => hres (he ▸ kernel_reserved L hi))
  exact ⟨hg.lt,hg.pos,hg.taken,hg.fixed,fun r hr => hg.free r (hback r g hr)⟩

theorem spares_withHeap (h : Running L dirs m) {k : Kheap}
    (hkeep : ∀ q, bit m.phys.bitmap q = false → bit k.phys.bitmap q = false) :
    Spares L dirs dirs m (Machine.withHeap m L.kheapPageTables k) := by
  have hH := heap_reserved L
  obtain ⟨hk0,-,hk1,-,-⟩ := static_ne L
  intro g hg
  obtain ⟨-,hback⟩ := owned_frame (setFrame m.mem L.kheapPageTables k.table) h.owned
    (fun D hD => setFrame_frame _ _ (Ne.symm (dir_row h.owned hD hH)))
    (fun D hD i t ht => setFrame_frame _ _ (Ne.symm (table_row h.owned hD ht hH)))
    (fun i hi => by
      rcases (show i = 0 ∨ i = 1 by omega) with rfl | rfl
      · exact setFrame_frame _ _ hk0
      · exact setFrame_frame _ _ hk1)
  exact ⟨⟨hg.lt,hg.pos,hkeep g hg.taken,hg.fixed,fun r hr => hg.free r (hback r g hr)⟩,
    setFrame_frame _ _ fun he => hg.fixed (he ▸ hH)⟩

/-! ## A new directory -/

theorem spares_withDirectory (h : Running L dirs m) {i s f : ℕ} {phys : PhysicalMem} (hf : f < 2^20)
    (hg : Granted m.phys phys f) : Spares L dirs (f::dirs) m (withDirectory L m i s f phys) := by
  intro g hu
  have hH := heap_reserved L
  have hgf := unheld_ne_granted hu hg
  have hgH : g ≠ L.kheapPageTables := fun he => hu.fixed (he ▸ hH)
  have hun := unheld_of_granted h.owned hf hg
  have hrow : ∀ g, g ≠ f → g ≠ L.kheapPageTables → (withDirectory L m i s f phys).mem g = m.mem g :=
    fun g hgf hgH => (setFrame_frame _ _ hgf).trans (setWord_frame _ _ _ hgH)
  have hdir : ∀ D ∈ dirs, (withDirectory L m i s f phys).mem D = m.mem D := fun D hD =>
    hrow D (fun he => hun.free (.directory D) ⟨hD,he.symm⟩) (Ne.symm (dir_row h.owned hD hH))
  have htab : ∀ D ∈ dirs, ∀ j t, TableAt m.mem D j t → (withDirectory L m i s f phys).mem t = m.mem t :=
    fun D hD j t ht => hrow t (fun he => hun.free (.table D j) ⟨hD,he ▸ ht⟩)
      (Ne.symm (table_row h.owned hD ht hH))
  have hempty : ∀ j t, ¬ TableAt (withDirectory L m i s f phys).mem f j t := fun j t ht => by
    have hlow := ht.1
    have hzero : (withDirectory L m i s f phys).mem f j = 0#32 := by
      rw [show (withDirectory L m i s f phys).mem f = newDirectory L f from setFrame_self _ _ _, newDirectory,
        Function.update_of_ne (by omega), Function.update_of_ne (by omega), Function.update_of_ne (by omega), Function.update_of_ne (by omega)]
    exact entry_ne_zero ht.2.1 (by omega) (by omega) (ht.2.2.symm.trans hzero)
  have htable : ∀ D ∈ f::dirs, ∀ j t, TableAt (withDirectory L m i s f phys).mem D j t →
      D ∈ dirs ∧ TableAt m.mem D j t := fun D hD j t ht => by
    rcases List.mem_cons.mp hD with rfl | hD
    · exact absurd ht (hempty j t)
    · exact ⟨hD,by rwa [TableAt, hdir D hD] at ht⟩
  refine ⟨⟨hu.lt,hu.pos,granted_keeps hg hu.taken,hu.fixed,fun r hr => ?_⟩,hrow g hgf hgH⟩
  cases r with
  | directory D =>
    rcases List.mem_cons.mp hr.1 with rfl | hD
    · exact hgf hr.2
    · exact hu.free (.directory D) ⟨hD,hr.2⟩
  | table D j =>
    exact hu.free (.table D j) (htable D hr.1 j g hr.2)
  | page D j k =>
    obtain ⟨hD,t,ht,hp⟩ := hr
    obtain ⟨hD',ht'⟩ := htable D hD j t ht
    exact hu.free (.page D j k) ⟨hD',t,ht',by rwa [PageAt, htab D hD' j t ht'] at hp⟩

/-! ## Mapping user pages -/

theorem spares_present (h : Running L dirs m) {p t f : ℕ} {phys : PhysicalMem}
    (htab : TableAt m.mem (frameOf m.cr3) (p/1024) t) (hf : f < 2^20) (hg : Granted m.phys phys f) :
    Spares L dirs dirs m (mapped ((m.granting p (frameAddress f)).withPhys phys) m.mem t p f) := by
  intro g hu
  refine ⟨⟨hu.lt,hu.pos,granted_keeps hg hu.taken,hu.fixed,fun r hr => ?_⟩,?_⟩
  · rcases holds_addPage h.owned h.current htab hf r g hr with hold | ⟨-,rfl⟩
    · exact hu.free r hold
    · exact unheld_ne_granted hu hg rfl
  · exact setWord_frame _ _ _ fun he => hu.free (.table (frameOf m.cr3) (p/1024)) ⟨h.current,he ▸ htab⟩

theorem spares_new (h : Running L dirs m) {p t f : ℕ} {phys phys' : PhysicalMem} (hp : p/1024 < 768)
    (hf : f < 2^20) (ht : t < 2^20) (hg : Granted m.phys phys f) (hg' : Granted phys phys' t) :
    Spares L dirs dirs m (mapped ((m.granting p (frameAddress f)).withPhys phys')
      (withTable m.mem (frameOf m.cr3) (p/1024) t) t p f) := by
  have howned : Owned L m.mem dirs phys m.grants := owned_phys h.owned (fun q hq => granted_keeps hg hq)
  have howned' := owned_phys howned (fun q hq => granted_keeps hg' hq)
  obtain ⟨hown₂,htab,hkeep⟩ := owned_addTable howned' h.current hp (unheld_of_granted howned ht hg')
  intro g hu
  have hu₁ : Unheld L m.mem dirs phys g := unheld_phys hu (fun q hq => granted_keeps hg hq)
  have hgt := unheld_ne_granted hu₁ hg'
  have hu₂ := hkeep g hgt (unheld_phys hu₁ (fun q hq => granted_keeps hg' hq))
  refine ⟨⟨hu.lt,hu.pos,hu₂.taken,hu.fixed,fun r hr => ?_⟩,?_⟩
  · rcases holds_addPage hown₂ h.current htab hf r g hr with hold | ⟨-,rfl⟩
    · exact hu₂.free r hold
    · exact unheld_ne_granted hu hg rfl
  · exact (setWord_frame _ _ _ hgt).trans ((withTable_row hgt).trans
      (setWord_frame _ _ _ fun he => hu.free (.directory (frameOf m.cr3)) ⟨h.current,he⟩))

theorem spares_mmapPage (h : Running L dirs m) {v : Word} (hv : UserPage v) {k r : ℕ}
    (hleft : demand m.mem (frameOf m.cr3) (v.toNat/4096) (k+1)+r ≤ left L.toKernelImage m.phys) {m' : Machine}
    (hm : mmapPage L v m = .ok m') : Spares L dirs dirs m m' := by
  unfold UserPage at hv
  rcases mmapPage_cases L (current_of_running h) hv (slot_of_owned h.owned h.current hv) with
    ⟨-,he⟩ | ⟨hnot,h0,f,phys,hf,ha,he⟩ | ⟨h0,f,phys,t,phys',hf,ht,ha,ha',he⟩
  · rw [he] at hm
    cases hm
    exact spares_refl m
  · have hpos := Finset.card_pos.mpr ⟨_,missingPages_head (k := k) hnot⟩
    obtain ⟨hg,-,-⟩ := granted_of_left hf h.flag (by unfold demand at hleft; omega) ha
    rw [he] at hm
    cases hm
    rcases (slot_frame h.owned h.current hv h0).2 with ⟨-,hall⟩ | htab
    · exact absurd ⟨h0,hall _ (Nat.mod_lt _ (by omega))⟩ hnot
    · exact spares_present h htab hf hg
  · have hnot : ¬ Entered m.mem (frameOf m.cr3) (v.toNat/4096) := fun hin => hin.1 h0
    have hpos := Finset.card_pos.mpr ⟨_,missingPages_head (k := k) hnot⟩
    have hpos' := Finset.card_pos.mpr ⟨_,missingTables_head (k := k) h0⟩
    obtain ⟨hg,hflag,hcount⟩ := granted_of_left hf h.flag (by unfold demand at hleft; omega) ha
    obtain ⟨hg',-,-⟩ := granted_of_left ht hflag (by unfold demand at hleft; omega) ha'
    have htD : t ≠ frameOf m.cr3 := fun htD =>
      (unheld_of_granted (owned_phys h.owned (fun q hq => granted_keeps hg hq)) ht hg').free
        (.directory _) ⟨h.current,htD⟩
    rw [he htD] at hm
    cases hm
    exact spares_new h hv hf ht hg hg'

theorem spares_mmapLoop (count : ℕ) {v : Word} {m m' : Machine} (h : Running L dirs m)
    (hv : v.toNat+4096*count ≤ 0xC0000000) (hal : v.toNat%4096 = 0) {r : ℕ}
    (hleft : demand m.mem (frameOf m.cr3) (v.toNat/4096) count+r ≤ left L.toKernelImage m.phys)
    (hm : mmapLoop L count v m = .ok m') : Spares L dirs dirs m m' := by
  induction count generalizing v m with
  | zero =>
    cases hm
    exact spares_refl _
  | succ count ih =>
    have hpage : UserPage v := by unfold UserPage; omega
    obtain ⟨m₁,hm₁,hadd,hleft₁⟩ := mmapPage_running h hpage (by omega) hleft
    have hnext := toNat_nextPage (v := v) (by omega)
    have hdiv : (v+pageSize).toNat/4096 = v.toNat/4096+1 := by omega
    rw [← hdiv, ← hadd.grows.cr3] at hleft₁
    rw [mmapLoop, hm₁, ok_bind] at hm
    exact spares_trans (spares_mmapPage h hpage hleft hm₁) (ih hadd.running (by omega) (by omega) hleft₁ hm)

end

end MikeOS.UnheldFrames
