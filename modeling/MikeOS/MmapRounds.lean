import MikeOS.MmapEffect

/-!
# Rounds of mmap, with and without frames left

A round enters a frame from the allocator whether or not one was left: `NULL`
is entered as frame zero. When the slot of the directory is empty the round adds
a table first, and the table that `NULL` amounts to is frame zero, which is
cleared every time it is added.
-/

set_option autoImplicit false

namespace MikeOS.MmapRounds
open BitArray MikeOS.Paging MikeOS.PhysicalMemory MikeOS.FrameAllocator MikeOS.Mmu MikeOS.VirtualMemory
open MikeOS.FramePool MikeOS.PageTables MikeOS.Mmaps

def stock (image : KernelImage) (s : PhysicalMem) : ℕ :=
  if s.noPageAvailable then 0 else left image s

/-- A call hands out a frame while the stock lasts and `NULL` from then on. -/
theorem stock_allocate {image : KernelImage} {s t : PhysicalMem} {f : ℕ} (hf : f < 2^20)
    (h : allocatePhysicalPage image s = (frameAddress f, t)) :
    (Granted s t f ∧ stock image t+1 = stock image s) ∨ (f = 0 ∧ stock image s = 0 ∧ stock image t = 0) := by
  have hzero : ∀ s', allocatePhysicalPage image s = (null, s') → f = 0 ∧ t = s' := by
    intro s' he
    rw [h, Prod.mk.injEq] at he
    exact ⟨entry_inj (a := 0) hf (by omega) (by omega) he.1,he.2⟩
  rcases allocate_cases image s with ⟨hflag,he⟩ | ⟨p,hlow,he⟩ | ⟨hex,he⟩
  · obtain ⟨h0,rfl⟩ := hzero s he
    exact Or.inr ⟨h0,by simp [stock, hflag],by simp [stock, hflag]⟩
  · by_cases hflag : s.noPageAvailable = true
    · have hnull : allocatePhysicalPage image s = (null, s) := by rw [allocatePhysicalPage, if_pos hflag]
      obtain ⟨h0,rfl⟩ := hzero s hnull
      exact Or.inr ⟨h0,by simp [stock, hflag],by simp [stock, hflag]⟩
    · have hleft : 0 < left image s := by
        rw [Nat.pos_iff_ne_zero, ne_eq, left_eq_zero_iff]
        exact lowest_not_exhausted hlow
      obtain ⟨hgrant,-,hcount⟩ := granted_of_left hf (fun hraised => absurd hraised hflag) hleft h
      rw [he, Prod.mk.injEq] at h
      obtain rfl := h.2.symm
      refine Or.inl ⟨hgrant,?_⟩
      rw [stock, stock, if_neg hflag, if_neg hflag]
      exact hcount
  · obtain ⟨h0,rfl⟩ := hzero _ he
    refine Or.inr ⟨h0,?_,by simp [stock]⟩
    rw [stock, (left_eq_zero_iff image s).mpr hex, ite_self]

/-- A directory that `mmap` can work on: every slot below the kernel is empty or
refers to a table that is not the directory, and the allocator will not hand out
the directory or one of the tables. -/
structure Ready (D : ℕ) (m : Machine) : Prop where
  current : Current m D
  pos : D ≠ 0
  taken : bit m.phys.bitmap D = false
  slots : ∀ i, i < 768 → Slot m.mem D i
  tables : ∀ i, i < 768 → m.mem D i ≠ 0#32 →
    frameOf (m.mem D i) = 0 ∨ bit m.phys.bitmap (frameOf (m.mem D i)) = false

inductive Round (L : Layout) (D x : ℕ) (m m₁ : Machine) : Prop where
  | passed : Entered m.mem D x → m₁ = m → Round L D x m m₁
  | page (f : ℕ) : f < 2^20 → ¬ Entered m.mem D x → m.mem D (x/1024) ≠ 0#32 →
      m₁.mem = setWord m.mem (frameOf (m.mem D (x/1024))) (x%1024) (entry f 7) →
      stock L.toKernelImage m₁.phys = stock L.toKernelImage m.phys-1 → Round L D x m m₁
  | table (f t : ℕ) : f < 2^20 → t < 2^20 → t ≠ D → m.mem D (x/1024) = 0#32 →
      m₁.mem = setWord (withTable m.mem D (x/1024) t) t (x%1024) (entry f 7) →
      stock L.toKernelImage m₁.phys = stock L.toKernelImage m.phys-2 →
      (t = 0 ↔ stock L.toKernelImage m.phys ≤ 1) → (t ≠ 0 → bit m.phys.bitmap t = true) →
      Round L D x m m₁

section
variable {D : ℕ} {m : Machine}

theorem ready_slots (h : Ready D m) {m₁ : Machine} (hcr3 : m₁.cr3 = m.cr3)
    (hbits : ∀ q, bit m.phys.bitmap q = false → bit m₁.phys.bitmap q = false)
    (hslots : ∀ i, m₁.mem D i = m.mem D i ∨ i < 768 ∧ ∃ t, t < 2^20 ∧ t ≠ D ∧
      m₁.mem D i = entry t 7 ∧ (t = 0 ∨ bit m₁.phys.bitmap t = false)) : Ready D m₁ := by
  refine ⟨⟨hcr3 ▸ h.current.cr3,h.current.lt,?_⟩,h.pos,hbits D h.taken,fun i hi => ?_,fun i hi h0 => ?_⟩
  · rcases hslots 1023 with hsame | ⟨hlow,-⟩
    · rw [hsame, h.current.self]
    · omega
  · rcases hslots i with hsame | ⟨-,t,ht,hne,he,-⟩
    · rw [Slot, hsame]
      exact h.slots i hi
    · right
      rw [he, frameOf_entry ht (by omega)]
      exact ⟨isPresent_entry (by omega),hne⟩
  · rcases hslots i with hsame | ⟨-,t,ht,-,he,hcase⟩
    · rw [hsame] at h0 ⊢
      exact (h.tables i hi h0).imp id (hbits _)
    · rwa [he, frameOf_entry ht (by omega)]

theorem table_ne_directory (h : Ready D m) {i : ℕ} (hi : i < 768) (h0 : m.mem D i ≠ 0#32) :
    frameOf (m.mem D i) ≠ D :=
  ((h.slots i hi).resolve_left h0).2

/-- The frame given to a table is frame zero or was available. -/
theorem second_frame {image : KernelImage} {s s' s'' : PhysicalMem} {f t : ℕ} (hf : f < 2^20) (ht : t < 2^20)
    (h : allocatePhysicalPage image s = (frameAddress f, s'))
    (h' : allocatePhysicalPage image s' = (frameAddress t, s'')) :
    stock image s'' = stock image s-2 ∧ (t = 0 ↔ stock image s ≤ 1) ∧ (t ≠ 0 → bit s.bitmap t = true) := by
  rcases stock_allocate ht h' with ⟨hgrant,hcount⟩ | ⟨h0,hnone,hnone'⟩
  · have hpos := hgrant.1
    have hfree := hgrant.2.1
    rcases stock_allocate hf h with ⟨hg,hc⟩ | ⟨-,-,hc⟩
    · rw [granted_bit hg, Bool.and_eq_true] at hfree
      exact ⟨by omega,by omega,fun _ => hfree.2⟩
    · omega
  · rcases stock_allocate hf h with ⟨-,hc⟩ | ⟨-,hc,-⟩ <;>
      exact ⟨by omega,by omega,fun hne => absurd h0 hne⟩

/-- A round always comes to its end. -/
theorem mmapPage_round (L : Layout) (h : Ready D m) {v : Word} (hv : UserPage v) :
    ∃ m₁, mmapPage L v m = .ok m₁ ∧ Ready D m₁ ∧ Round L D (v.toNat/4096) m m₁ := by
  rcases mmapPage_cases L h.current hv (h.slots _ hv) with
    ⟨he,hrun⟩ | ⟨he,h0,f,phys,hf,hpair,hrun⟩ | ⟨h0,f,phys,t,phys',hf,ht,hpair,hpair',hrun⟩
  · exact ⟨m,hrun,h,.passed he rfl⟩
  · have hne := table_ne_directory h hv h0
    refine ⟨_,hrun,ready_slots h rfl (allocate_fresh hf hpair).2 fun i => Or.inl ?_,
      .page f hf he h0 rfl ?_⟩
    · exact congrFun (setWord_frame _ _ _ (Ne.symm hne)) i
    · change stock L.toKernelImage phys = _
      rcases stock_allocate hf hpair with ⟨-,hc⟩ | ⟨-,hc,hc'⟩ <;> omega
  · obtain ⟨hstock,hzero,hfree⟩ := second_frame hf ht hpair hpair'
    have hbits : ∀ q, bit m.phys.bitmap q = false → bit phys'.bitmap q = false := fun q hq =>
      (allocate_fresh ht hpair').2 q ((allocate_fresh hf hpair).2 q hq)
    have hD : t ≠ D := by
      rintro rfl
      have htrue := hfree h.pos
      rw [h.taken] at htrue
      cases htrue
    refine ⟨_,hrun hD,ready_slots h rfl hbits fun i => ?_,.table f t hf ht hD h0 rfl hstock hzero hfree⟩
    change setWord (withTable m.mem D (v.toNat/4096/1024) t) t (v.toNat/4096%1024) (entry f 7) D i = _ ∨ _
    rw [setWord_frame _ _ _ (Ne.symm hD), Ownership.withTable_row (Ne.symm hD)]
    by_cases hi : i = v.toNat/4096/1024
    · refine Or.inr ⟨hi ▸ hv,t,ht,hD,?_,?_⟩
      · change setWord (withTable m.mem D (v.toNat/4096/1024) t) t (v.toNat/4096%1024) (entry f 7) D i = _
        rw [setWord_frame _ _ _ (Ne.symm hD), Ownership.withTable_row (Ne.symm hD), hi, setWord_self]
      · by_cases h0t : t = 0
        · exact Or.inl h0t
        · exact Or.inr (allocated_taken ht h0t hpair')
    · exact Or.inl (setWord_index _ _ _ hi)

end

/-! ## What a round leaves in the directory and the tables -/

section
variable {L : Layout} {D x : ℕ} {m m₁ : Machine}

theorem added_rows {t f j : ℕ} (ht : t ≠ D) :
    (setWord (withTable m.mem D (x/1024) t) t j (entry f 7) D =
      Function.update (m.mem D) (x/1024) (entry t 7)) ∧
    (setWord (withTable m.mem D (x/1024) t) t j (entry f 7) t = Function.update (fun _ => 0#32) j (entry f 7)) ∧
    ∀ g, g ≠ D → g ≠ t → setWord (withTable m.mem D (x/1024) t) t j (entry f 7) g = m.mem g := by
  refine ⟨?_,?_,fun g hD hg => ?_⟩
  · rw [setWord_frame _ _ _ (Ne.symm ht), Ownership.withTable_row (Ne.symm ht), setWord, Function.update_self]
  · rw [setWord, Function.update_self, withTable, setFrame_self]
  · rw [setWord_frame _ _ _ hg, Ownership.withTable_row hg, setWord_frame _ _ _ hD]

theorem round_slots (h : Ready D m) (hx : x/1024 < 768) (hr : Round L D x m m₁) :
    (∀ i, m.mem D i ≠ 0#32 → m₁.mem D i = m.mem D i) ∧ (∀ i, i ≠ x/1024 → m₁.mem D i = m.mem D i) := by
  cases hr with
  | passed he hsame => exact ⟨fun _ _ => by rw [hsame],fun _ _ => by rw [hsame]⟩
  | page f hf he h0 hmem =>
    rw [hmem, setWord_frame _ _ _ (Ne.symm (table_ne_directory h hx h0))]
    exact ⟨fun _ _ => rfl,fun _ _ => rfl⟩
  | table f t hf ht hD h0 hmem =>
    rw [hmem, (added_rows hD).1]
    refine ⟨fun i hi => Function.update_of_ne ?_ _ _,fun i hi => Function.update_of_ne hi _ _⟩
    rintro rfl
    exact hi h0

theorem round_entered (h : Ready D m) (hx : x/1024 < 768) (hr : Round L D x m m₁) : Entered m₁.mem D x := by
  have hkept := (round_slots h hx hr).1
  cases hr with
  | passed he hsame => rwa [hsame]
  | page f hf he h0 hmem =>
    rw [Entered, hkept _ h0, hmem, setWord_self]
    exact ⟨h0,entry_ne_zero hf (by omega) (by omega)⟩
  | table f t hf ht hD h0 hmem =>
    obtain ⟨hdir,htable,-⟩ := added_rows (m := m) (x := x) (f := f) (j := x%1024) hD
    rw [Entered, hmem, hdir, Function.update_self, frameOf_entry ht (by omega), htable, Function.update_self]
    exact ⟨entry_ne_zero ht (by omega) (by omega),entry_ne_zero hf (by omega) (by omega)⟩

end

end MikeOS.MmapRounds
