import MikeOS.Ownership
import MikeOS.Mmaps

/-!
# How many frames a call of mmap takes

One frame for each page of the range that has no entry and one for each slot of
the directory that the range touches and that is empty. While that many frames
are left, a call keeps the ownership of frames.
-/

set_option autoImplicit false

namespace MikeOS.FrameDemand
open BitArray MikeOS.Paging MikeOS.PhysicalMemory MikeOS.Mmu MikeOS.VirtualMemory MikeOS.FramePool
open MikeOS.PageTables MikeOS.Ownership MikeOS.Mmaps

def missingPages (mem : Frames) (D p k : ℕ) : Finset ℕ :=
  (Finset.Ico p (p+k)).filter fun q => ¬ Entered mem D q

def missingTables (mem : Frames) (D p k : ℕ) : Finset ℕ :=
  ((Finset.Ico p (p+k)).image (·/1024)).filter fun i => mem D i = 0#32

def demand (mem : Frames) (D p k : ℕ) : ℕ := (missingPages mem D p k).card+(missingTables mem D p k).card

/-- Each page takes a frame and at most one for a table. -/
theorem demand_le (mem : Frames) (D p k : ℕ) : demand mem D p k ≤ 2*k := by
  have hpages : (missingPages mem D p k).card ≤ k := by
    refine (Finset.card_filter_le _ _).trans ?_
    rw [Nat.card_Ico]
    omega
  have htables : (missingTables mem D p k).card ≤ k := by
    refine ((Finset.card_filter_le _ _).trans Finset.card_image_le).trans ?_
    rw [Nat.card_Ico]
    omega
  unfold demand
  omega

section
variable {mem mem' : Frames} {D p k : ℕ}

theorem missingPages_subset
    (hpage : ∀ q, p < q → q < p+(k+1) → Entered mem D q → Entered mem' D q) :
    missingPages mem' D (p+1) k ⊆ missingPages mem D p (k+1) := by
  intro q hq
  simp only [missingPages, Finset.mem_filter, Finset.mem_Ico] at hq ⊢
  exact ⟨by omega,fun he => hq.2 (hpage q (by omega) (by omega) he)⟩

theorem missingTables_subset (hslot : ∀ i, mem' D i = 0#32 → mem D i = 0#32) :
    missingTables mem' D (p+1) k ⊆ missingTables mem D p (k+1) := by
  intro i hi
  simp only [missingTables, Finset.mem_filter, Finset.mem_image, Finset.mem_Ico] at hi ⊢
  obtain ⟨⟨q,hq,rfl⟩,h0⟩ := hi
  exact ⟨⟨q,by omega,rfl⟩,hslot _ h0⟩

theorem missingPages_head (hp : ¬ Entered mem D p) : p ∈ missingPages mem D p (k+1) := by
  simp only [missingPages, Finset.mem_filter, Finset.mem_Ico]
  exact ⟨by omega,hp⟩

theorem missingTables_head (h0 : mem D (p/1024) = 0#32) : p/1024 ∈ missingTables mem D p (k+1) := by
  simp only [missingTables, Finset.mem_filter, Finset.mem_image, Finset.mem_Ico]
  exact ⟨⟨p,by omega,rfl⟩,h0⟩

theorem demand_skip : demand mem D (p+1) k ≤ demand mem D p (k+1) :=
  Nat.add_le_add (Finset.card_le_card (missingPages_subset fun _ _ _ he => he))
    (Finset.card_le_card (missingTables_subset fun _ h0 => h0))

theorem pages_lt (hp : ¬ Entered mem D p)
    (hpage : ∀ q, p < q → q < p+(k+1) → Entered mem D q → Entered mem' D q) :
    (missingPages mem' D (p+1) k).card < (missingPages mem D p (k+1)).card := by
  refine Finset.card_lt_card ⟨missingPages_subset hpage,fun hsub => ?_⟩
  have := hsub (missingPages_head hp)
  simp only [missingPages, Finset.mem_filter, Finset.mem_Ico] at this
  omega

theorem tables_lt (h0 : mem D (p/1024) = 0#32) (h0' : mem' D (p/1024) ≠ 0#32)
    (hslot : ∀ i, mem' D i = 0#32 → mem D i = 0#32) :
    (missingTables mem' D (p+1) k).card < (missingTables mem D p (k+1)).card := by
  refine Finset.card_lt_card ⟨missingTables_subset hslot,fun hsub => ?_⟩
  have := hsub (missingTables_head h0)
  simp only [missingTables, Finset.mem_filter] at this
  exact h0' this.2

end

/-- Frames are owned, the flag of the allocator tells the truth, and the
directory in use is one of the known ones. -/
structure Running (L : Layout) (dirs : List ℕ) (m : Machine) : Prop where
  owned : Owned L m.mem dirs m.phys m.grants
  flag : FlagSound L.toKernelImage m.phys
  current : frameOf m.cr3 ∈ dirs

section
variable {L : Layout} {dirs : List ℕ} {m : Machine}

theorem current_of_running (h : Running L dirs m) : Current m (frameOf m.cr3) :=
  ⟨rfl,(h.owned.half _ h.current).1,(h.owned.half _ h.current).2.2⟩

theorem reserved_lt (L : Layout) {f : ℕ} (h : f ∈ reserved L) : f < 2^20 :=
  Boot.static_lt L (by simp only [reserved, List.mem_cons, List.not_mem_nil, or_false] at h ⊢; tauto)

theorem slot_frame {mem : Frames} {phys : PhysicalMem} {grants : List Grant}
    (h : Owned L mem dirs phys grants) {D i : ℕ} (hD : D ∈ dirs) (hi : i < 768) (h0 : mem D i ≠ 0#32) :
    isPresent (mem D i) = true ∧ ((frameOf (mem D i) ∈ reserved L ∧ ∀ j, j < 1024 →
      mem (frameOf (mem D i)) j ≠ 0#32) ∨ TableAt mem D i (frameOf (mem D i))) := by
  rcases h.slots D hD i hi with hz | ⟨-,hi2,he⟩ | ⟨t,ht,-⟩
  · exact absurd hz h0
  · have hk := kernel_reserved L hi2
    rw [he, frameOf_entry (reserved_lt L hk) (by omega)]
    exact ⟨isPresent_entry (by omega),Or.inl ⟨hk,h.kernel i hi2⟩⟩
  · refine ⟨by rw [ht.2.2]; exact isPresent_entry (by omega),Or.inr ?_⟩
    rwa [ht.2.2, frameOf_entry ht.2.1 (by omega)]

theorem slot_of_owned {mem : Frames} {phys : PhysicalMem} {grants : List Grant}
    (h : Owned L mem dirs phys grants) {D i : ℕ} (hD : D ∈ dirs) (hi : i < 768) : Slot mem D i := by
  by_cases h0 : mem D i = 0#32
  · exact Or.inl h0
  · obtain ⟨hp,hcase⟩ := slot_frame h hD hi h0
    rcases hcase with ⟨hr,-⟩ | ht
    · exact Or.inr ⟨hp,dir_row h hD hr⟩
    · exact Or.inr ⟨hp,table_not_dir h hD hD ht⟩

/-- What mapping pages leaves as it was: the heap, the entries that are set, the
user pages mapped before and what is stored in them. -/
structure Grows (L : Layout) (dirs : List ℕ) (m m' : Machine) : Prop where
  cr3 : m'.cr3 = m.cr3
  heapBitmap : m'.heapBitmap = m.heapBitmap
  heapTable : m'.mem L.kheapPageTables = m.mem L.kheapPageTables
  slots : ∀ D ∈ dirs, ∀ i, m.mem D i ≠ 0#32 → m'.mem D i = m.mem D i
  entered : ∀ D ∈ dirs, ∀ q, q/1024 < 768 → Entered m.mem D q → Entered m'.mem D q
  pages : ∀ D i j f, Holds m.mem dirs (.page D i j) f →
    Holds m'.mem dirs (.page D i j) f ∧ m'.mem f = m.mem f

theorem grows_refl (m : Machine) : Grows L dirs m m :=
  ⟨rfl,rfl,rfl,fun _ _ _ _ => rfl,fun _ _ _ _ h => h,fun _ _ _ _ h => ⟨h,rfl⟩⟩

theorem grows_trans {m₁ m₂ : Machine} (h : Grows L dirs m m₁) (h' : Grows L dirs m₁ m₂) :
    Grows L dirs m m₂ := by
  refine ⟨h'.cr3.trans h.cr3,h'.heapBitmap.trans h.heapBitmap,h'.heapTable.trans h.heapTable,
    fun D hD i hi => ?_,fun D hD q hq he => h'.entered D hD q hq (h.entered D hD q hq he),
    fun D i j f hf => ?_⟩
  · have hsame := h.slots D hD i hi
    rw [h'.slots D hD i (by rwa [hsame]), hsame]
  · obtain ⟨h₁,he₁⟩ := h.pages D i j f hf
    obtain ⟨h₂,he₂⟩ := h'.pages D i j f h₁
    exact ⟨h₂,he₂.trans he₁⟩

theorem grows_empty {m' : Machine} (h : Grows L dirs m m') {D i : ℕ} (hD : D ∈ dirs)
    (h0 : m'.mem D i = 0#32) : m.mem D i = 0#32 := by
  by_contra hne
  exact hne ((h.slots D hD i hne).symm.trans h0)

/-- Entries that stay set are not asked for again. -/
theorem demand_mono {mem mem' : Frames} {D p k : ℕ}
    (hpages : ∀ q, q < p+k → Entered mem D q → Entered mem' D q)
    (hslots : ∀ i, mem' D i = 0#32 → mem D i = 0#32) : demand mem' D p k ≤ demand mem D p k := by
  apply Nat.add_le_add
  · apply Finset.card_le_card
    intro q hq
    simp only [missingPages, Finset.mem_filter, Finset.mem_Ico] at hq ⊢
    exact ⟨hq.1,fun he => hq.2 (hpages q hq.1.2 he)⟩
  · apply Finset.card_le_card
    intro i hi
    simp only [missingTables, Finset.mem_filter] at hi ⊢
    exact ⟨hi.1,hslots i hi.2⟩

theorem demand_grows {m' : Machine} (h : Grows L dirs m m') {D p k : ℕ} (hD : D ∈ dirs)
    (hp : p+k ≤ 768*1024) : demand m'.mem D p k ≤ demand m.mem D p k :=
  demand_mono (fun q hq he => h.entered D hD q (by omega) he) (fun _ hi => grows_empty h hD hi)

theorem heap_reserved (L : Layout) : L.kheapPageTables ∈ reserved L := by simp [reserved]

theorem addPage_pages {mem : Frames} {phys : PhysicalMem} {grants : List Grant}
    (h : Owned L mem dirs phys grants) {D i j t f : ℕ} (hD : D ∈ dirs) (ht : TableAt mem D i t)
    (h0 : mem t j = 0#32) {D' i' j' g : ℕ} (hg : Holds mem dirs (.page D' i' j') g) :
    Holds (setWord mem t j (entry f 7)) dirs (.page D' i' j') g ∧
      setWord mem t j (entry f 7) g = mem g := by
  obtain ⟨hD',u,hu,hp⟩ := hg
  have hgt : g ≠ t := fun he => by
    have := h.unique (.page D' i' j') (.table D i) g ⟨hD',u,hu,hp⟩ ⟨hD,he ▸ ht⟩
    cases this
  refine ⟨⟨hD',u,⟨hu.1,hu.2.1,?_⟩,hp.1,hp.2.1,?_⟩,setWord_frame _ _ _ hgt⟩
  · rw [addPage_directory h hD ht hD']
    exact hu.2.2
  · have hother : ¬ (u = t ∧ j' = j) := fun he =>
      entry_ne_zero hp.2.1 (by omega) (by omega) (hp.2.2.symm.trans (by rw [he.1, he.2, h0]))
    rw [setWord_word mem _ hother]
    exact hp.2.2

theorem addTable_pages {mem : Frames} {phys : PhysicalMem} {grants : List Grant}
    (h : Owned L mem dirs phys grants) {D i t : ℕ} (hD : D ∈ dirs) (h0 : mem D i = 0#32)
    (ht : Unheld L mem dirs phys t) {D' i' j' g : ℕ} (hg : Holds mem dirs (.page D' i' j') g) :
    Holds (withTable mem D i t) dirs (.page D' i' j') g ∧ withTable mem D i t g = mem g := by
  obtain ⟨hD',u,hu,hp⟩ := hg
  have hgt : g ≠ t := fun he => ht.free (.page D' i' j') ⟨hD',u,hu,he ▸ hp⟩
  have hgD : g ≠ D := fun he => by
    have := h.unique (.page D' i' j') (.directory D) g ⟨hD',u,hu,hp⟩ ⟨hD,he⟩
    cases this
  have hother : ¬ (D' = D ∧ i' = i) := fun he =>
    entry_ne_zero hu.2.1 (by omega) (by omega) (hu.2.2.symm.trans (by rw [he.1, he.2, h0]))
  refine ⟨⟨hD',u,⟨hu.1,hu.2.1,?_⟩,hp.1,hp.2.1,?_⟩,?_⟩
  · rw [addTable_slot ht hD' hother]
    exact hu.2.2
  · rw [addTable_table h hD ht hD' hu]
    exact hp.2.2
  · rw [withTable_row hgt, setWord_frame _ _ _ hgD]

theorem entered_mono {mem mem' : Frames} {phys : PhysicalMem} {grants : List Grant}
    (h : Owned L mem dirs phys grants) {D q : ℕ} (hD : D ∈ dirs) (hq : q/1024 < 768)
    (hdir : ∀ i, mem D i ≠ 0#32 → mem' D i = mem D i)
    (hpages : ∀ i j f, Holds mem dirs (.page D i j) f → Holds mem' dirs (.page D i j) f)
    (hker : ∀ f ∈ reserved L, mem' f = mem f) (he : Entered mem D q) : Entered mem' D q := by
  have hsame := hdir _ he.1
  rw [Entered, hsame]
  refine ⟨he.1,?_⟩
  rcases h.slots D hD _ hq with hz | ⟨-,hi2,hk⟩ | ⟨t,ht,hent⟩
  · exact absurd hz he.1
  · have hr := kernel_reserved L hi2
    rw [hk, frameOf_entry (reserved_lt L hr) (by omega), hker _ hr]
    exact h.kernel _ hi2 _ (Nat.mod_lt _ (by omega))
  · have hent' := hent (q%1024) (Nat.mod_lt _ (by omega))
    have hne := he.2
    rw [ht.2.2, frameOf_entry ht.2.1 (by omega)] at hne ⊢
    rcases hent' with hz | ⟨f,hf⟩
    · exact absurd hz hne
    · obtain ⟨-,u,hu,hp⟩ := hpages (q/1024) (q%1024) f ⟨hD,t,ht,hf⟩
      have hut : u = t := entry_inj (a := 7) hu.2.1 ht.2.1 (by omega)
        (hu.2.2.symm.trans (hsame.trans ht.2.2))
      rw [← hut, hp.2.2]
      exact entry_ne_zero hp.2.1 (by omega) (by omega)

structure Added (L : Layout) (dirs : List ℕ) (D p : ℕ) (m m' : Machine) : Prop where
  running : Running L dirs m'
  grows : Grows L dirs m m'
  page : Entered m'.mem D p

/-- A page was added to the table of a slot. -/
theorem added_page {phys : PhysicalMem} (hcur : frameOf m.cr3 ∈ dirs) {D p t f : ℕ}
    (hD : D = frameOf m.cr3) {mem : Frames} (howned : Owned L mem dirs phys m.grants)
    (hflag : FlagSound L.toKernelImage phys) (htab : TableAt mem D (p/1024) t)
    (hf : Unheld L mem dirs phys f) :
    Running L dirs (mapped ((m.granting p (frameAddress f)).withPhys phys) mem t p f) ∧
      Entered (setWord mem t (p%1024) (entry f 7)) D p := by
  have hDm : D ∈ dirs := hD ▸ hcur
  have hrow : setWord mem t (p%1024) (entry f 7) D = mem D := addPage_directory howned hDm htab hDm _
  refine ⟨⟨?_,hflag,hcur⟩,?_⟩
  · refine owned_addPage (owned_grants howned) hDm htab hf ?_
    rw [Nat.div_add_mod, hD]
    exact List.mem_cons_self
  · rw [Entered, hrow, htab.2.2, frameOf_entry htab.2.1 (by omega), setWord_self]
    exact ⟨entry_ne_zero htab.2.1 (by omega) (by omega),entry_ne_zero hf.lt (by omega) (by omega)⟩

theorem added_present (h : Running L dirs m) {D p t f : ℕ} {phys : PhysicalMem}
    (hD : D = frameOf m.cr3) (htab : TableAt m.mem D (p/1024) t) (hzero : m.mem t (p%1024) = 0#32)
    (hf : f < 2^20) (hg : Granted m.phys phys f) (hflag : FlagSound L.toKernelImage phys) :
    Added L dirs D p m (mapped ((m.granting p (frameAddress f)).withPhys phys) m.mem t p f) := by
  have hDm : D ∈ dirs := hD ▸ h.current
  have hrow : ∀ D' ∈ dirs, setWord m.mem t (p%1024) (entry f 7) D' = m.mem D' := fun D' hD' =>
    addPage_directory h.owned hDm htab hD' _
  have hfixed : ∀ g ∈ reserved L, setWord m.mem t (p%1024) (entry f 7) g = m.mem g := fun g hr =>
    setWord_frame _ _ _ (table_row h.owned hDm htab hr)
  have hpages : ∀ D' i j g, Holds m.mem dirs (.page D' i j) g →
      Holds (setWord m.mem t (p%1024) (entry f 7)) dirs (.page D' i j) g ∧
        setWord m.mem t (p%1024) (entry f 7) g = m.mem g :=
    fun _ _ _ _ hh => addPage_pages h.owned hDm htab hzero hh
  obtain ⟨hrun,hin⟩ := added_page h.current hD (owned_phys h.owned (fun q hq => granted_keeps hg hq)) hflag
    htab (unheld_of_granted h.owned hf hg)
  refine ⟨hrun,⟨rfl,rfl,hfixed _ (heap_reserved L),fun D' hD' i _ => congrFun (hrow D' hD') i,
    fun D' hD' q hq he => ?_,hpages⟩,hin⟩
  exact entered_mono h.owned hD' hq (fun i _ => congrFun (hrow D' hD') i)
    (fun i j g hh => (hpages D' i j g hh).1) hfixed he

theorem added_new (h : Running L dirs m) {D p t f : ℕ} {phys phys' : PhysicalMem}
    (hD : D = frameOf m.cr3) (hp : p/1024 < 768) (h0 : m.mem D (p/1024) = 0#32) (hf : f < 2^20)
    (ht : t < 2^20) (hg : Granted m.phys phys f) (hg' : Granted phys phys' t)
    (hflag : FlagSound L.toKernelImage phys') :
    Added L dirs D p m (mapped ((m.granting p (frameAddress f)).withPhys phys')
      (withTable m.mem D (p/1024) t) t p f) := by
  have hDm : D ∈ dirs := hD ▸ h.current
  have howned : Owned L m.mem dirs phys m.grants := owned_phys h.owned (fun q hq => granted_keeps hg hq)
  have howned' := owned_phys howned (fun q hq => granted_keeps hg' hq)
  have hunf := unheld_phys (unheld_of_granted h.owned hf hg) (fun q hq => granted_keeps hg' hq)
  have hunt := unheld_of_granted howned ht hg'
  have hft : f ≠ t := fun he => by
    have htaken := (unheld_of_granted h.owned hf hg).taken
    rw [he, hg'.2.1] at htaken
    cases htaken
  obtain ⟨hown₂,htab,hkeep⟩ := owned_addTable howned' hDm hp hunt
  obtain ⟨hrun,hin⟩ := added_page h.current hD hown₂ hflag htab (hkeep f hft hunf)
  have hslots : ∀ D' ∈ dirs, ∀ i, m.mem D' i ≠ 0#32 →
      setWord (withTable m.mem D (p/1024) t) t (p%1024) (entry f 7) D' i = m.mem D' i := by
    intro D' hD' i hi
    have htD : D' ≠ t := fun he => hunt.free (.directory D') ⟨hD',he.symm⟩
    rw [setWord_frame _ _ _ htD]
    exact addTable_slot hunt hD' fun he => hi (by rw [he.1, he.2, h0])
  have hfixed : ∀ g ∈ reserved L,
      setWord (withTable m.mem D (p/1024) t) t (p%1024) (entry f 7) g = m.mem g := fun g hr => by
    have hgt : g ≠ t := fun he => hunt.fixed (he ▸ hr)
    rw [setWord_frame _ _ _ hgt, withTable_row hgt, setWord_frame _ _ _ (dir_row h.owned hDm hr)]
  have hpages : ∀ D' i j g, Holds m.mem dirs (.page D' i j) g →
      Holds (setWord (withTable m.mem D (p/1024) t) t (p%1024) (entry f 7)) dirs (.page D' i j) g ∧
        setWord (withTable m.mem D (p/1024) t) t (p%1024) (entry f 7) g = m.mem g := by
    intro D' i j g hh
    obtain ⟨h₁,he₁⟩ := addTable_pages howned' hDm h0 hunt hh
    obtain ⟨h₂,he₂⟩ := addPage_pages (f := f) hown₂ hDm htab (addTable_empty ..) h₁
    exact ⟨h₂,he₂.trans he₁⟩
  refine ⟨hrun,⟨rfl,rfl,hfixed _ (heap_reserved L),hslots,fun D' hD' q hq he => ?_,hpages⟩,hin⟩
  exact entered_mono h.owned hD' hq (hslots D' hD') (fun i j g hh => (hpages D' i j g hh).1) hfixed he

theorem running_present (h : Running L dirs m) {D p k r : ℕ} (hD : D = frameOf m.cr3) (hi : p/1024 < 768)
    (hrange : p+(k+1) ≤ 768*1024) (hleft : demand m.mem D p (k+1)+r ≤ left L.toKernelImage m.phys)
    (hnot : ¬ Entered m.mem D p) (h0 : m.mem D (p/1024) ≠ 0#32) {f : ℕ} {phys : PhysicalMem} (hf : f < 2^20)
    (ha : allocatePhysicalPage L.toKernelImage m.phys = (frameAddress f, phys)) :
    ∃ m', m' = mapped ((m.granting p (frameAddress f)).withPhys phys) m.mem (frameOf (m.mem D (p/1024))) p f ∧
      Added L dirs D p m m' ∧ demand m'.mem D (p+1) k+r ≤ left L.toKernelImage m'.phys := by
  have hDm : D ∈ dirs := hD ▸ h.current
  have hj : p%1024 < 1024 := Nat.mod_lt _ (by omega)
  have htab : TableAt m.mem D (p/1024) (frameOf (m.mem D (p/1024))) := by
    rcases (slot_frame h.owned hDm hi h0).2 with ⟨-,hall⟩ | ht
    · exact absurd ⟨h0,hall _ hj⟩ hnot
    · exact ht
  have hzero : m.mem (frameOf (m.mem D (p/1024))) (p%1024) = 0#32 := by
    by_contra hne
    exact hnot ⟨h0,hne⟩
  have hpos := Finset.card_pos.mpr ⟨p,missingPages_head (k := k) hnot⟩
  obtain ⟨hg,hflag,hcount⟩ := granted_of_left hf h.flag (by unfold demand at hleft; omega) ha
  have hadd := added_present h hD htab hzero hf hg hflag
  refine ⟨_,rfl,hadd,?_⟩
  have hlt := pages_lt (k := k) hnot (fun q _ _ hq => hadd.grows.entered D hDm q (by omega) hq)
  have hle := Finset.card_le_card (missingTables_subset (p := p) (k := k)
    (fun i hi => grows_empty hadd.grows hDm hi))
  change _ ≤ left L.toKernelImage phys
  unfold demand at hleft ⊢
  omega

theorem running_new (h : Running L dirs m) {D p k r : ℕ} (hD : D = frameOf m.cr3) (hi : p/1024 < 768)
    (hrange : p+(k+1) ≤ 768*1024) (hleft : demand m.mem D p (k+1)+r ≤ left L.toKernelImage m.phys)
    (h0 : m.mem D (p/1024) = 0#32) {f t : ℕ} {phys phys' : PhysicalMem} (hf : f < 2^20) (ht : t < 2^20)
    (ha : allocatePhysicalPage L.toKernelImage m.phys = (frameAddress f, phys))
    (ha' : allocatePhysicalPage L.toKernelImage phys = (frameAddress t, phys')) :
    t ≠ D ∧ ∃ m', m' = mapped ((m.granting p (frameAddress f)).withPhys phys') (withTable m.mem D (p/1024) t) t p f ∧
      Added L dirs D p m m' ∧ demand m'.mem D (p+1) k+r ≤ left L.toKernelImage m'.phys := by
  have hDm : D ∈ dirs := hD ▸ h.current
  have hnot : ¬ Entered m.mem D p := fun hin => hin.1 h0
  have hpos := Finset.card_pos.mpr ⟨p,missingPages_head (k := k) hnot⟩
  have hpos' := Finset.card_pos.mpr ⟨p/1024,missingTables_head (k := k) h0⟩
  obtain ⟨hg,hflag,hcount⟩ := granted_of_left hf h.flag (by unfold demand at hleft; omega) ha
  obtain ⟨hg',hflag',hcount'⟩ := granted_of_left ht hflag (by unfold demand at hleft; omega) ha'
  have hadd := added_new h hD hi h0 hf ht hg hg' hflag'
  have htD : t ≠ D := fun htD =>
    (unheld_of_granted (owned_phys h.owned (fun q hq => granted_keeps hg hq)) ht hg').free
      (.directory D) ⟨hDm,htD⟩
  refine ⟨htD,_,rfl,hadd,?_⟩
  have hlt := pages_lt (k := k) hnot (fun q _ _ hq => hadd.grows.entered D hDm q (by omega) hq)
  have hlt' := tables_lt (p := p) (k := k) h0 hadd.page.1
    (fun i hi => grows_empty hadd.grows hDm hi)
  change _ ≤ left L.toKernelImage phys'
  unfold demand at hleft ⊢
  omega

/-- One round of the loop while enough frames are left. -/
theorem mmapPage_running (h : Running L dirs m) {v : Word} (hv : UserPage v) {k : ℕ}
    (hrange : v.toNat/4096+(k+1) ≤ 768*1024)
    {r : ℕ} (hleft : demand m.mem (frameOf m.cr3) (v.toNat/4096) (k+1)+r ≤ left L.toKernelImage m.phys) :
    ∃ m', mmapPage L v m = .ok m' ∧ Added L dirs (frameOf m.cr3) (v.toNat/4096) m m' ∧
      demand m'.mem (frameOf m.cr3) (v.toNat/4096+1) k+r ≤ left L.toKernelImage m'.phys := by
  rcases mmapPage_cases L (current_of_running h) hv (slot_of_owned h.owned h.current hv) with
    ⟨hin,he⟩ | ⟨hnot,h0,f,phys,hf,ha,he⟩ | ⟨h0,f,phys,t,phys',hf,ht,ha,ha',he⟩
  · exact ⟨m,he,⟨h,grows_refl m,hin⟩,(Nat.add_le_add_right demand_skip r).trans hleft⟩
  · obtain ⟨m',hm',hadd,hrest⟩ := running_present h rfl hv hrange hleft hnot h0 hf ha
    exact ⟨m',by rw [he, hm'],hadd,hrest⟩
  · obtain ⟨htD,m',hm',hadd,hrest⟩ := running_new h rfl hv hrange hleft h0 hf ht ha ha'
    exact ⟨m',by rw [he htD, hm'],hadd,hrest⟩

/-- A call while enough frames are left. `r` frames may be kept for later. -/
theorem mmapLoop_running (count : ℕ) {v : Word} {m : Machine} (h : Running L dirs m)
    (hv : v.toNat+4096*count ≤ 0xC0000000) (hal : v.toNat%4096 = 0) {r : ℕ}
    (hleft : demand m.mem (frameOf m.cr3) (v.toNat/4096) count+r ≤ left L.toKernelImage m.phys) :
    ∃ m', mmapLoop L count v m = .ok m' ∧ Running L dirs m' ∧ Grows L dirs m m' ∧
      (∀ q, v.toNat/4096 ≤ q → q < v.toNat/4096+count → Entered m'.mem (frameOf m.cr3) q) ∧
      r ≤ left L.toKernelImage m'.phys := by
  induction count generalizing v m with
  | zero => exact ⟨m,rfl,h,grows_refl m,fun q h1 h2 => by omega,by omega⟩
  | succ count ih =>
    have hpage : UserPage v := by unfold UserPage; omega
    obtain ⟨m₁,hm₁,hadd,hleft₁⟩ := mmapPage_running h hpage (by omega) hleft
    have hnext := toNat_nextPage (v := v) (by omega)
    have hdiv : (v+pageSize).toNat/4096 = v.toNat/4096+1 := by omega
    rw [← hdiv, ← hadd.grows.cr3] at hleft₁
    obtain ⟨m₂,hm₂,hrun,hgrows,hin,hr⟩ := ih hadd.running (by omega) (by omega) hleft₁
    rw [hdiv, hadd.grows.cr3] at hin
    refine ⟨m₂,by rw [mmapLoop, hm₁, ok_bind, hm₂],hrun,grows_trans hadd.grows hgrows,
      fun q h1 h2 => ?_,hr⟩
    by_cases hq : q = v.toNat/4096
    · rw [hq]
      exact hgrows.entered _ h.current _ hpage hadd.page
    · exact hin q (by omega) (by omega)

end

end MikeOS.FrameDemand
