import MikeOS.PageDirectory

/-!
# Who uses a frame

Directories, user tables and user pages hold frames. The invariant says that a
frame has one holder, that held frames are not available, and that a page was
granted the frame it holds. It is stated over the contents of memory and kept
by each way in which the page tables grow.
-/

set_option autoImplicit false

namespace MikeOS.Ownership
open BitArray MikeOS.Paging MikeOS.PhysicalMemory MikeOS.Mmu MikeOS.VirtualMemory MikeOS.FramePool
open MikeOS.PageTables MikeOS.Boot MikeOS.PageDirectory

inductive Role where
  | directory (D : ℕ)
  | table (D i : ℕ)
  | page (D i j : ℕ)

def TableAt (mem : Frames) (D i t : ℕ) : Prop := i < 768 ∧ t < 2^20 ∧ mem D i = entry t 7

def PageAt (mem : Frames) (t j f : ℕ) : Prop := j < 1024 ∧ f < 2^20 ∧ mem t j = entry f 7

def Holds (mem : Frames) (dirs : List ℕ) : Role → ℕ → Prop
  | .directory D, f => D ∈ dirs ∧ f = D
  | .table D i, f => D ∈ dirs ∧ TableAt mem D i f
  | .page D i j, f => D ∈ dirs ∧ ∃ t, TableAt mem D i t ∧ PageAt mem t j f

/-- A user slot is empty, one of the two that the boot directory maps onto the
kernel, or refers to a user table. -/
def SlotKind (L : Layout) (mem : Frames) (D i : ℕ) : Prop :=
  mem D i = 0#32 ∨ (D = L.initPageDirectory ∧ i < 2 ∧ mem D i = entry (L.kernelPageTables+i) 3) ∨
    ∃ t, TableAt mem D i t ∧ ∀ j, j < 1024 → mem t j = 0#32 ∨ ∃ f, PageAt mem t j f

def reserved (L : Layout) : List ℕ := [L.kernelPageTables, L.kernelPageTables+1, L.kheapPageTables]

structure Owned (L : Layout) (mem : Frames) (dirs : List ℕ) (phys : PhysicalMem) (grants : List Grant) :
    Prop where
  boot : L.initPageDirectory ∈ dirs
  half : ∀ D ∈ dirs, D < 2^20 ∧ mem D 770 = entry L.kheapPageTables 3 ∧ mem D 1023 = entry D 3
  slots : ∀ D ∈ dirs, ∀ i, i < 768 → SlotKind L mem D i
  kernel : ∀ i, i < 2 → ∀ j, j < 1024 → mem (L.kernelPageTables+i) j ≠ 0#32
  unique : ∀ r r' f, Holds mem dirs r f → Holds mem dirs r' f → r = r'
  taken : ∀ r f, Holds mem dirs r f → bit phys.bitmap f = false ∧ f ∉ reserved L
  fixed : ∀ f ∈ reserved L, bit phys.bitmap f = false
  granted : ∀ D i j f, Holds mem dirs (.page D i j) f →
    f ≠ 0 ∧ (⟨D, 1024*i+j, frameAddress f⟩ : Grant) ∈ grants

structure Unheld (L : Layout) (mem : Frames) (dirs : List ℕ) (phys : PhysicalMem) (f : ℕ) : Prop where
  lt : f < 2^20
  pos : f ≠ 0
  taken : bit phys.bitmap f = false
  fixed : f ∉ reserved L
  free : ∀ r, ¬ Holds mem dirs r f

section
variable {L : Layout} {mem : Frames} {dirs : List ℕ} {phys : PhysicalMem} {grants : List Grant}

theorem kernel_reserved (L : Layout) {i : ℕ} (hi : i < 2) : L.kernelPageTables+i ∈ reserved L := by
  rcases (show i = 0 ∨ i = 1 by omega) with rfl | rfl <;> simp [reserved]

theorem owned_phys {phys' : PhysicalMem} (h : Owned L mem dirs phys grants)
    (hkeep : ∀ q, bit phys.bitmap q = false → bit phys'.bitmap q = false) :
    Owned L mem dirs phys' grants :=
  ⟨h.boot,h.half,h.slots,h.kernel,h.unique,fun r f hf => ⟨hkeep f (h.taken r f hf).1,(h.taken r f hf).2⟩,
    fun f hf => hkeep f (h.fixed f hf),h.granted⟩

theorem owned_grants {g : Grant} (h : Owned L mem dirs phys grants) : Owned L mem dirs phys (g::grants) :=
  ⟨h.boot,h.half,h.slots,h.kernel,h.unique,h.taken,h.fixed,
    fun D i j f hf => ⟨(h.granted D i j f hf).1,List.mem_cons_of_mem _ (h.granted D i j f hf).2⟩⟩

theorem unheld_phys {phys' : PhysicalMem} {f : ℕ} (h : Unheld L mem dirs phys f)
    (hkeep : ∀ q, bit phys.bitmap q = false → bit phys'.bitmap q = false) :
    Unheld L mem dirs phys' f :=
  ⟨h.lt,h.pos,hkeep f h.taken,h.fixed,h.free⟩

theorem unheld_of_granted {phys' : PhysicalMem} {f : ℕ} (h : Owned L mem dirs phys grants)
    (hf : f < 2^20) (hg : Granted phys phys' f) : Unheld L mem dirs phys' f := by
  refine ⟨hf,by have := hg.1; omega,by rw [granted_bit hg]; simp,fun hr => ?_,fun r hr => ?_⟩
  · have := h.fixed f hr
    rw [hg.2.1] at this
    cases this
  · have := (h.taken r f hr).1
    rw [hg.2.1] at this
    cases this

theorem dir_row (h : Owned L mem dirs phys grants) {D f : ℕ} (hD : D ∈ dirs) (hf : f ∈ reserved L) :
    f ≠ D := fun he => (h.taken (.directory D) D ⟨hD,rfl⟩).2 (he ▸ hf)

theorem table_row (h : Owned L mem dirs phys grants) {D i t f : ℕ} (hD : D ∈ dirs)
    (ht : TableAt mem D i t) (hf : f ∈ reserved L) : f ≠ t :=
  fun he => (h.taken (.table D i) t ⟨hD,ht⟩).2 (he ▸ hf)

theorem table_not_dir (h : Owned L mem dirs phys grants) {D D' i t : ℕ} (hD : D ∈ dirs) (hD' : D' ∈ dirs)
    (ht : TableAt mem D i t) : t ≠ D' := by
  intro he
  have := h.unique (.table D i) (.directory D') t ⟨hD,ht⟩ ⟨hD',he⟩
  cases this

/-! ## Memory outside the page tables changes -/

/-- Rows that are neither a directory, a user table nor one of the kernel's own
may hold anything. -/
theorem owned_frame (mem' : Frames) (h : Owned L mem dirs phys grants)
    (hdir : ∀ D ∈ dirs, mem' D = mem D) (htab : ∀ D ∈ dirs, ∀ i t, TableAt mem D i t → mem' t = mem t)
    (hker : ∀ i, i < 2 → mem' (L.kernelPageTables+i) = mem (L.kernelPageTables+i)) :
    Owned L mem' dirs phys grants ∧ ∀ r f, Holds mem' dirs r f → Holds mem dirs r f := by
  have hT : ∀ D ∈ dirs, ∀ i t, TableAt mem' D i t ↔ TableAt mem D i t := fun D hD i t => by
    rw [TableAt, TableAt, hdir D hD]
  have hP : ∀ D ∈ dirs, ∀ i t, TableAt mem D i t → ∀ j f, PageAt mem' t j f ↔ PageAt mem t j f :=
    fun D hD i t ht j f => by rw [PageAt, PageAt, htab D hD i t ht]
  have hback : ∀ r f, Holds mem' dirs r f → Holds mem dirs r f := by
    intro r f hr
    cases r with
    | directory D => exact hr
    | table D i => exact ⟨hr.1,(hT D hr.1 i f).mp hr.2⟩
    | page D i j =>
      obtain ⟨hD,t,ht,hp⟩ := hr
      have ht' := (hT D hD i t).mp ht
      exact ⟨hD,t,ht',(hP D hD i t ht' j f).mp hp⟩
  refine ⟨⟨h.boot,fun D hD => by rw [hdir D hD]; exact h.half D hD,fun D hD i hi => ?_,?_,
    fun r r' f hr hr' => h.unique r r' f (hback r f hr) (hback r' f hr'),
    fun r f hr => h.taken r f (hback r f hr),h.fixed,fun D i j f hr => h.granted D i j f (hback _ f hr)⟩,hback⟩
  · rw [SlotKind, hdir D hD]
    rcases h.slots D hD i hi with h0 | hk | ⟨t,ht,hj⟩
    · exact Or.inl h0
    · exact Or.inr (Or.inl hk)
    · refine Or.inr (Or.inr ⟨t,(hT D hD i t).mpr ht,fun j hj' => ?_⟩)
      rw [htab D hD i t ht]
      exact (hj j hj').imp_right (fun ⟨f,hf⟩ => ⟨f,(hP D hD i t ht j f).mpr hf⟩)
  · intro i hi j hj
    rw [hker i hi]
    exact h.kernel i hi j hj

/-! ## The page tables grow -/

/-- The frame that is added had no holder, so no frame gets a second one. -/
theorem one_more (h : Owned L mem dirs phys grants) {mem' : Frames} {dirs' : List ℕ} {s : Role} {t : ℕ}
    (ht : Unheld L mem dirs phys t)
    (hback : ∀ r f, Holds mem' dirs' r f → Holds mem dirs r f ∨ (r = s ∧ f = t))
    (hg : ∀ D i j, s = .page D i j → (⟨D, 1024*i+j, frameAddress t⟩ : Grant) ∈ grants) :
    (∀ r r' f, Holds mem' dirs' r f → Holds mem' dirs' r' f → r = r') ∧
    (∀ r f, Holds mem' dirs' r f → bit phys.bitmap f = false ∧ f ∉ reserved L) ∧
    ∀ D i j f, Holds mem' dirs' (.page D i j) f →
      f ≠ 0 ∧ (⟨D, 1024*i+j, frameAddress f⟩ : Grant) ∈ grants := by
  refine ⟨fun r r' f hr hr' => ?_,fun r f hr => ?_,fun D i j f hr => ?_⟩
  · rcases hback r f hr with ho | ⟨rfl,rfl⟩ <;> rcases hback r' f hr' with ho' | ⟨rfl,hf⟩
    · exact h.unique r r' f ho ho'
    · exact absurd (hf ▸ ho) (ht.free r)
    · exact absurd ho' (ht.free r')
    · rfl
  · rcases hback r f hr with ho | ⟨-,rfl⟩
    · exact h.taken r f ho
    · exact ⟨ht.taken,ht.fixed⟩
  · rcases hback _ f hr with ho | ⟨he,rfl⟩
    · exact h.granted D i j f ho
    · exact ⟨ht.pos,hg D i j he.symm⟩

theorem withTable_row {D i t g : ℕ} (hg : g ≠ t) :
    withTable mem D i t g = setWord mem D i (entry t 7) g := by
  rw [withTable, setFrame_frame _ _ hg]

theorem addTable_entry {D i t : ℕ} (hD : D ∈ dirs) (ht : Unheld L mem dirs phys t) :
    withTable mem D i t D i = entry t 7 := by
  have hne : D ≠ t := fun he => ht.free (.directory D) ⟨hD,he.symm⟩
  rw [withTable_row hne, setWord_self]

theorem addTable_empty (mem : Frames) (D i t j : ℕ) : withTable mem D i t t j = 0#32 := by
  rw [withTable, setFrame_self]

theorem addTable_slot {D i t D' k : ℕ} (ht : Unheld L mem dirs phys t) (hD' : D' ∈ dirs)
    (hk : ¬ (D' = D ∧ k = i)) : withTable mem D i t D' k = mem D' k := by
  have hne : D' ≠ t := fun he => ht.free (.directory D') ⟨hD',he.symm⟩
  rw [withTable_row hne]
  by_cases hDD : D' = D
  · rw [hDD, setWord_index _ _ _ (fun he => hk ⟨hDD,he⟩)]
  · rw [setWord_frame _ _ _ hDD]

theorem addTable_table (h : Owned L mem dirs phys grants) {D i t D' k u : ℕ} (hD : D ∈ dirs)
    (ht : Unheld L mem dirs phys t) (hD' : D' ∈ dirs) (hu : TableAt mem D' k u) :
    withTable mem D i t u = mem u := by
  have hut : u ≠ t := fun he => ht.free (.table D' k) ⟨hD',he ▸ hu⟩
  rw [withTable_row hut, setWord_frame _ _ _ (table_not_dir h hD' hD hu)]

theorem holds_addTable (h : Owned L mem dirs phys grants) {D i t : ℕ} (hD : D ∈ dirs)
    (ht : Unheld L mem dirs phys t) (r : Role) (f : ℕ) (hr : Holds (withTable mem D i t) dirs r f) :
    Holds mem dirs r f ∨ (r = .table D i ∧ f = t) := by
  have hT : ∀ D' ∈ dirs, ∀ k u, TableAt (withTable mem D i t) D' k u →
      TableAt mem D' k u ∨ (D' = D ∧ k = i ∧ u = t) := by
    intro D' hD' k u hu
    by_cases hk : D' = D ∧ k = i
    · obtain ⟨rfl,rfl⟩ := hk
      exact Or.inr ⟨rfl,rfl,entry_inj (a := 7) hu.2.1 ht.lt (by omega) (hu.2.2.symm.trans (addTable_entry hD ht))⟩
    · exact Or.inl ⟨hu.1,hu.2.1,by rw [← addTable_slot ht hD' hk]; exact hu.2.2⟩
  cases r with
  | directory D' => exact Or.inl hr
  | table D' k =>
    rcases hT D' hr.1 k f hr.2 with hold | ⟨rfl,rfl,rfl⟩
    · exact Or.inl ⟨hr.1,hold⟩
    · exact Or.inr ⟨rfl,rfl⟩
  | page D' k j =>
    obtain ⟨hD',u,hu,hp⟩ := hr
    rcases hT D' hD' k u hu with hold | ⟨rfl,rfl,rfl⟩
    · rw [PageAt, addTable_table h hD ht hD' hold] at hp
      exact Or.inl ⟨hD',u,hold,hp⟩
    · exact absurd (hp.2.2.symm.trans (addTable_empty ..)) (entry_ne_zero hp.2.1 (by omega) (by omega))

theorem owned_addTable (h : Owned L mem dirs phys grants) {D i t : ℕ} (hD : D ∈ dirs) (hi : i < 768)
    (ht : Unheld L mem dirs phys t) :
    Owned L (withTable mem D i t) dirs phys grants ∧ TableAt (withTable mem D i t) D i t ∧
      ∀ q, q ≠ t → Unheld L mem dirs phys q → Unheld L (withTable mem D i t) dirs phys q := by
  have hentry := addTable_entry (i := i) hD ht
  obtain ⟨hunique,htaken,hgranted⟩ := one_more h ht (holds_addTable h hD ht (i := i)) (fun _ _ _ he => by cases he)
  refine ⟨⟨h.boot,fun D' hD' => ?_,fun D' hD' k hk => ?_,fun k hk j hj => ?_,hunique,htaken,h.fixed,hgranted⟩,
    ⟨hi,ht.lt,hentry⟩,fun q hq hu => ⟨hu.lt,hu.pos,hu.taken,hu.fixed,fun r hr => ?_⟩⟩
  · rw [addTable_slot ht hD' (by omega), addTable_slot ht hD' (by omega)]
    exact h.half D' hD'
  · by_cases hk' : D' = D ∧ k = i
    · obtain ⟨rfl,rfl⟩ := hk'
      exact Or.inr (Or.inr ⟨t,⟨hk,ht.lt,hentry⟩,fun j _ => Or.inl (addTable_empty ..)⟩)
    · rw [SlotKind, addTable_slot ht hD' hk']
      rcases h.slots D' hD' k hk with hz | hker | ⟨u,hu,hj⟩
      · exact Or.inl hz
      · exact Or.inr (Or.inl hker)
      · refine Or.inr (Or.inr ⟨u,⟨hk,hu.2.1,by rw [addTable_slot ht hD' hk']; exact hu.2.2⟩,fun j hj' => ?_⟩)
        simp only [PageAt, addTable_table h hD ht hD' hu]
        exact hj j hj'
  · have hkt := kernel_reserved L hk
    have hne : L.kernelPageTables+k ≠ t := fun he => ht.fixed (he ▸ hkt)
    rw [withTable_row hne, setWord_frame _ _ _ (dir_row h hD hkt)]
    exact h.kernel k hk j hj
  · rcases holds_addTable h hD ht r q hr with ho | ⟨-,rfl⟩
    · exact hu.free r ho
    · exact hq rfl

theorem setWord_word (mem : Frames) {t j u k : ℕ} (w : Word) (hk : ¬ (u = t ∧ k = j)) : setWord mem t j w u k = mem u k := by
  by_cases hut : u = t
  · rw [hut, setWord_index _ _ _ (fun he => hk ⟨hut,he⟩)]
  · rw [setWord_frame _ _ _ hut]

theorem addPage_directory (h : Owned L mem dirs phys grants) {D i j t D' : ℕ} (hD : D ∈ dirs)
    (ht : TableAt mem D i t) (hD' : D' ∈ dirs) (w : Word) : setWord mem t j w D' = mem D' :=
  setWord_frame _ _ _ (Ne.symm (table_not_dir h hD hD' ht))

theorem holds_addPage (h : Owned L mem dirs phys grants) {D i j t f : ℕ} (hD : D ∈ dirs)
    (ht : TableAt mem D i t) (hf : f < 2^20) (r : Role) (g : ℕ)
    (hr : Holds (setWord mem t j (entry f 7)) dirs r g) :
    Holds mem dirs r g ∨ (r = .page D i j ∧ g = f) := by
  have hT : ∀ D' ∈ dirs, ∀ k u, TableAt (setWord mem t j (entry f 7)) D' k u → TableAt mem D' k u :=
    fun D' hD' k u hu => by rwa [TableAt, addPage_directory h hD ht hD'] at hu
  cases r with
  | directory D' => exact Or.inl hr
  | table D' k => exact Or.inl ⟨hr.1,hT D' hr.1 k g hr.2⟩
  | page D' k l =>
    obtain ⟨hD',u,hu,hp⟩ := hr
    have hu' := hT D' hD' k u hu
    by_cases hul : u = t ∧ l = j
    · obtain ⟨rfl,rfl⟩ := hul
      -- the table has one holder, so the entry belongs to the page just added
      have hrole := h.unique (.table D' k) (.table D i) u ⟨hD',hu'⟩ ⟨hD,ht⟩
      cases hrole
      exact Or.inr ⟨rfl,entry_inj (a := 7) hp.2.1 hf (by omega) (hp.2.2.symm.trans (setWord_self _ _ _ _))⟩
    · exact Or.inl ⟨hD',u,hu',hp.1,hp.2.1,by rw [← setWord_word mem _ hul]; exact hp.2.2⟩

theorem owned_addPage (h : Owned L mem dirs phys grants) {D i j t f : ℕ} (hD : D ∈ dirs)
    (ht : TableAt mem D i t) (hf : Unheld L mem dirs phys f)
    (hg : (⟨D, 1024*i+j, frameAddress f⟩ : Grant) ∈ grants) :
    Owned L (setWord mem t j (entry f 7)) dirs phys grants := by
  obtain ⟨hunique,htaken,hgranted⟩ := one_more h hf (holds_addPage h hD ht hf.lt)
    (fun D' i' j' he => by cases he; exact hg)
  refine ⟨h.boot,fun D' hD' => ?_,fun D' hD' k hk => ?_,fun k hk l hl => ?_,hunique,htaken,h.fixed,hgranted⟩
  · rw [addPage_directory h hD ht hD']
    exact h.half D' hD'
  · rw [SlotKind, addPage_directory h hD ht hD']
    rcases h.slots D' hD' k hk with hz | hker | ⟨u,hu,hent⟩
    · exact Or.inl hz
    · exact Or.inr (Or.inl hker)
    · refine Or.inr (Or.inr ⟨u,by rwa [TableAt, addPage_directory h hD ht hD'],fun l hl => ?_⟩)
      by_cases hul : u = t ∧ l = j
      · obtain ⟨rfl,rfl⟩ := hul
        exact Or.inr ⟨f,hl,hf.lt,setWord_self _ _ _ _⟩
      · simp only [PageAt, setWord_word mem _ hul]
        exact hent l hl
  · rw [setWord_frame _ _ _ (table_row h hD ht (kernel_reserved L hk))]
    exact h.kernel k hk l hl

theorem owned_addDirectory (h : Owned L mem dirs phys grants) {f : ℕ} (hf : Unheld L mem dirs phys f)
    (hrow : mem f = newDirectory L f) : Owned L mem (f::dirs) phys grants := by
  have hslot : ∀ i, i < 768 → mem f i = 0#32 := fun i hi => by
    rw [hrow, newDirectory, Function.update_of_ne (by omega), Function.update_of_ne (by omega),
      Function.update_of_ne (by omega), Function.update_of_ne (by omega)]
  have hempty : ∀ i t, ¬ TableAt mem f i t := fun i t ht =>
    entry_ne_zero ht.2.1 (by omega) (by omega) (ht.2.2.symm.trans (hslot i ht.1))
  have hback : ∀ r g, Holds mem (f::dirs) r g → Holds mem dirs r g ∨ (r = .directory f ∧ g = f) := by
    intro r g hr
    cases r with
    | directory D =>
      rcases List.mem_cons.mp hr.1 with rfl | hD
      · exact Or.inr ⟨rfl,hr.2⟩
      · exact Or.inl ⟨hD,hr.2⟩
    | table D i =>
      rcases List.mem_cons.mp hr.1 with rfl | hD
      · exact absurd hr.2 (hempty i g)
      · exact Or.inl ⟨hD,hr.2⟩
    | page D i j =>
      obtain ⟨hD,t,ht,hp⟩ := hr
      rcases List.mem_cons.mp hD with rfl | hD
      · exact absurd ht (hempty i t)
      · exact Or.inl ⟨hD,t,ht,hp⟩
  obtain ⟨hunique,htaken,hgranted⟩ := one_more h hf hback (fun _ _ _ he => by cases he)
  refine ⟨List.mem_cons_of_mem _ h.boot,List.forall_mem_cons.mpr ⟨⟨hf.lt,?_,?_⟩,h.half⟩,
    List.forall_mem_cons.mpr ⟨fun i hi => Or.inl (hslot i hi),h.slots⟩,h.kernel,hunique,htaken,h.fixed,hgranted⟩
  · rw [hrow, newDirectory, Function.update_of_ne (by omega), Function.update_self]
  · rw [hrow, newDirectory, Function.update_self]

end

end MikeOS.Ownership
