import MikeOS.MmapRounds

/-!
# What SUCCESS of mmap says

The sum of address and length is formed modulo `2^32`, so a range that runs past
the end of the address space can be taken for one below the kernel. A page of a
range that is mapped is there afterwards, unless a slot later in the range gets
`NULL` for its table: frame zero is then cleared a second time, with the entries
of the pages before.
-/

set_option autoImplicit false

namespace MikeOS.MmapStatus
open BitArray MikeOS.Paging MikeOS.PhysicalMemory MikeOS.FrameAllocator MikeOS.Mmu MikeOS.VirtualMemory
open MikeOS.FramePool MikeOS.PageTables MikeOS.Mmaps MikeOS.MmapRounds

/-! ## The frames that are asked for -/

/-- Of the pages from `p` on, page `q` asks for a frame: its slot is empty, or
its entry is, and no page before has the same one. -/
def PageAsked (mem : Frames) (D p q : ℕ) : Prop :=
  mem D (q/1024) = 0#32 ∨ mem (frameOf (mem D (q/1024))) (q%1024) = 0#32 ∧
    ∀ y ∈ Finset.Ico p q, mem D (y/1024) ≠ 0#32 → frameOf (mem D (y/1024)) = frameOf (mem D (q/1024)) →
      y%1024 ≠ q%1024

def TableAsked (mem : Frames) (D p q : ℕ) : Prop := mem D (q/1024) = 0#32 ∧ (q = p ∨ q%1024 = 0)

instance (mem : Frames) (D p q : ℕ) : Decidable (PageAsked mem D p q) := by
  unfold PageAsked
  infer_instance

instance (mem : Frames) (D p q : ℕ) : Decidable (TableAsked mem D p q) := instDecidableAnd

def asked (mem : Frames) (D p x : ℕ) : ℕ :=
  ((Finset.Ico p x).filter fun q => PageAsked mem D p q).card+
    ((Finset.Ico p x).filter fun q => TableAsked mem D p q).card

def Short (L : Layout) (D p : ℕ) (m : Machine) (i : ℕ) : Prop :=
  m.mem D i = 0#32 ∧ stock L.toKernelImage m.phys ≤ asked m.mem D p (max p (1024*i))+1

def AtZero (L : Layout) (D p : ℕ) (m : Machine) (i : ℕ) : Prop :=
  Short L D p m i ∨ m.mem D i ≠ 0#32 ∧ frameOf (m.mem D i) = 0

/-- The last slot of the range `p, …, x-1` gets `NULL` for its table, the range
does not fill it, and an earlier slot of the range has frame zero too. -/
def Erased (L : Layout) (D p x : ℕ) (m : Machine) : Prop :=
  x%1024 ≠ 0 ∧ Short L D p m (x/1024) ∧ ∃ i, p/1024 ≤ i ∧ i < x/1024 ∧ AtZero L D p m i

section
variable {mem : Frames} {D p x : ℕ}

theorem card_filter_succ (P : ℕ → Prop) [DecidablePred P] (hx : p ≤ x) :
    ((Finset.Ico p (x+1)).filter P).card = ((Finset.Ico p x).filter P).card+(if P x then 1 else 0) := by
  rw [Nat.Ico_succ_right_eq_insert_Ico hx, Finset.filter_insert]
  split
  · rw [Finset.card_insert_of_notMem (by simp)]
  · rfl

theorem asked_succ (hx : p ≤ x) : asked mem D p (x+1) =
    asked mem D p x+(if PageAsked mem D p x then 1 else 0)+(if TableAsked mem D p x then 1 else 0) := by
  rw [asked, asked, card_filter_succ _ hx, card_filter_succ _ hx]
  omega

theorem asked_self : asked mem D p p = 0 := by
  rw [asked, Finset.Ico_self]
  rfl

theorem asked_mono {a b : ℕ} (h : a ≤ b) : asked mem D p a ≤ asked mem D p b :=
  Nat.add_le_add (Finset.card_le_card (Finset.filter_subset_filter _ (Finset.Ico_subset_Ico_right h)))
    (Finset.card_le_card (Finset.filter_subset_filter _ (Finset.Ico_subset_Ico_right h)))

theorem asked_first (h0 : mem D (x/1024) = 0#32) (hx : p ≤ x) (hfirst : x = p ∨ x%1024 = 0) :
    asked mem D p (x+1) = asked mem D p x+2 := by
  have hpage : PageAsked mem D p x := Or.inl h0
  have htable : TableAsked mem D p x := ⟨h0,hfirst⟩
  rw [asked_succ hx, if_pos hpage, if_pos htable]

theorem asked_of_short {L : Layout} {m : Machine} {i : ℕ} (h : Short L D p m i) (hi : p/1024 ≤ i)
    (hx : max p (1024*i) < x) : stock L.toKernelImage m.phys < asked m.mem D p x := by
  have hslot : max p (1024*i)/1024 = i := by omega
  have hfirst := asked_first (x := max p (1024*i)) (by rw [hslot]; exact h.1) (le_max_left p _) (by omega)
  have hmono : asked m.mem D p (max p (1024*i)+1) ≤ asked m.mem D p x := asked_mono hx
  have hle := h.2
  omega

end

/-! ## A run over the pages -/

def Cleared (L : Layout) (D p : ℕ) (m : Machine) (x y : ℕ) : Prop :=
  x%1024 ≠ 0 ∧ Short L D p m (x/1024) ∧ y/1024 < x/1024 ∧ x%1024 ≤ y%1024

structure Progress (L : Layout) (D p : ℕ) (m : Machine) (x : ℕ) (m' : Machine) : Prop where
  ready : Ready D m'
  kept : ∀ i, m.mem D i ≠ 0#32 → m'.mem D i = m.mem D i
  untouched : ∀ i, m.mem D i = 0#32 → (∀ y, p ≤ y → y < x → y/1024 ≠ i) → m'.mem D i = 0#32
  opened : ∀ y, p ≤ y → y < x → m.mem D (y/1024) = 0#32 →
    m'.mem D (y/1024) ≠ 0#32 ∧ (frameOf (m'.mem D (y/1024)) = 0 ↔ Short L D p m (y/1024)) ∧
      ∀ i, i < 768 → m.mem D i ≠ 0#32 → frameOf (m'.mem D (y/1024)) = frameOf (m.mem D i) →
        frameOf (m.mem D i) = 0
  stock : stock L.toKernelImage m'.phys = stock L.toKernelImage m.phys-asked m.mem D p x
  /-- While frames are left, the tables that were there have the entries of the
  pages visited on top of their own. -/
  entries : asked m.mem D p x ≤ MmapRounds.stock L.toKernelImage m.phys → ∀ i, i < 768 → m.mem D i ≠ 0#32 →
    ∀ j, m'.mem (frameOf (m.mem D i)) j = 0#32 ↔ m.mem (frameOf (m.mem D i)) j = 0#32 ∧
      ∀ y ∈ Finset.Ico p x, m.mem D (y/1024) ≠ 0#32 → frameOf (m.mem D (y/1024)) = frameOf (m.mem D i) →
        y%1024 ≠ j
  /-- A table that was added is empty behind the last page. -/
  rest : p < x → x%1024 ≠ 0 → m.mem D (x/1024) = 0#32 → ∀ j, x%1024 ≤ j →
    m'.mem (frameOf (m'.mem D (x/1024))) j = 0#32
  entered : ∀ y, p ≤ y → y < x →
    Entered m'.mem D y ∨ frameOf (m'.mem D (y/1024)) = 0 ∧ Cleared L D p m x y

section
variable {L : Layout} {D p x : ℕ} {m m' m₁ : Machine}

theorem progress_refl (h : Ready D m) : Progress L D p m p m := by
  refine ⟨h,fun _ _ => rfl,fun _ h0 _ => h0,fun y hp hy => ?_,?_,fun _ i hi h0 j => ?_,fun hp => ?_,
    fun y hp hy => ?_⟩
  · omega
  · rw [asked_self, Nat.sub_zero]
  · simp only [Finset.Ico_self, Finset.notMem_empty, false_imp_iff, implies_true, and_true]
  · omega
  · omega

/-- The slot of the next page is empty only if no page in it came before. -/
theorem first_of_empty (h : Progress L D p m x m') (hx : p ≤ x) (h0 : m'.mem D (x/1024) = 0#32) :
    m.mem D (x/1024) = 0#32 ∧ (x = p ∨ x%1024 = 0) := by
  by_cases hz : m.mem D (x/1024) = 0#32
  · refine ⟨hz,?_⟩
    by_contra hnot
    have hslot : (x-1)/1024 = x/1024 := by omega
    have hopen := (h.opened (x-1) (by omega) (by omega) (by rwa [hslot])).1
    rw [hslot] at hopen
    exact hopen h0
  · rw [h.kept _ hz] at h0
    exact absurd h0 hz

theorem empty_of_first (h : Progress L D p m x m') (h0 : m.mem D (x/1024) = 0#32) (hfirst : x = p ∨ x%1024 = 0) :
    m'.mem D (x/1024) = 0#32 := by
  apply h.untouched _ h0
  omega

/-- The table of the next page was added by the rounds before. -/
theorem open_slot (h : Progress L D p m x m') (hx : p ≤ x) (h0 : m.mem D (x/1024) = 0#32)
    (hset : m'.mem D (x/1024) ≠ 0#32) : p < x ∧ x%1024 ≠ 0 ∧
      (frameOf (m'.mem D (x/1024)) = 0 ↔ Short L D p m (x/1024)) ∧
      ∀ i, i < 768 → m.mem D i ≠ 0#32 → frameOf (m'.mem D (x/1024)) = frameOf (m.mem D i) →
        frameOf (m.mem D i) = 0 := by
  have hnot : ¬ (x = p ∨ x%1024 = 0) := fun hfirst => hset (empty_of_first h h0 hfirst)
  have hslot : (x-1)/1024 = x/1024 := by omega
  obtain ⟨-,hzero,hfresh⟩ := h.opened (x-1) (by omega) (by omega) (by rwa [hslot])
  rw [hslot] at hzero hfresh
  exact ⟨by omega,by omega,hzero,hfresh⟩

theorem not_entered_of_empty (h : Progress L D p m x m') (hx : p ≤ x) (h0 : m.mem D (x/1024) = 0#32) :
    ¬ Entered m'.mem D x := by
  intro he
  by_cases hfirst : x = p ∨ x%1024 = 0
  · exact he.1 (empty_of_first h h0 hfirst)
  · exact he.2 (h.rest (by omega) (by omega) h0 _ le_rfl)

/-- While frames are left, the pages that ask are the ones that have no entry. -/
theorem pageAsked_iff (h : Progress L D p m x m') (hx : p ≤ x) (hlow : x/1024 < 768)
    (hs : asked m.mem D p x ≤ stock L.toKernelImage m.phys) :
    PageAsked m.mem D p x ↔ ¬ Entered m'.mem D x := by
  by_cases h0 : m.mem D (x/1024) = 0#32
  · exact iff_of_true (Or.inl h0) (not_entered_of_empty h hx h0)
  · have hentry := h.entries hs _ hlow h0 (x%1024)
    rw [PageAsked, or_iff_right h0, ← hentry, Entered, h.kept _ h0, not_and_not_right]
    exact ⟨fun hz _ => hz,fun hz => hz h0⟩

theorem tableAsked_iff (h : Progress L D p m x m') (hx : p ≤ x) :
    TableAsked m.mem D p x ↔ m'.mem D (x/1024) = 0#32 :=
  ⟨fun ha => empty_of_first h ha.1 ha.2,first_of_empty h hx⟩

theorem stock_round (h : Progress L D p m x m') (hx : p ≤ x) (hlow : x/1024 < 768) (hr : Round L D x m' m₁) :
    stock L.toKernelImage m₁.phys = stock L.toKernelImage m.phys-asked m.mem D p (x+1) := by
  have hbefore := h.stock
  have htable := tableAsked_iff h hx
  by_cases hs : asked m.mem D p x ≤ stock L.toKernelImage m.phys
  · have hpage := pageAsked_iff h hx hlow hs
    rw [asked_succ hx]
    cases hr with
    | passed he hsame =>
      rw [if_neg (fun ha => hpage.mp ha he), if_neg (fun ha => he.1 (htable.mp ha)), hsame, hbefore]
      rfl
    | page f _ he h0 _ hstock =>
      rw [if_pos (hpage.mpr he), if_neg (fun ha => h0 (htable.mp ha)), hstock]
      omega
    | table f t _ _ _ h0 _ hstock =>
      rw [if_pos (hpage.mpr fun he => he.1 h0), if_pos (htable.mpr h0), hstock]
      omega
  · have hmono : asked m.mem D p x ≤ asked m.mem D p (x+1) := asked_mono (Nat.le_succ x)
    cases hr with
    | passed _ hsame =>
      rw [hsame]
      omega
    | page f _ _ _ _ hstock => omega
    | table f t _ _ _ _ _ hstock => omega

/-- While frames are left, a page in a slot that was empty leaves the tables that
were there alone. -/
theorem old_row (h : Progress L D p m x m') (hx : p ≤ x) (hr : Round L D x m' m₁)
    (hs : asked m.mem D p (x+1) ≤ stock L.toKernelImage m.phys) (h0 : m.mem D (x/1024) = 0#32) {i : ℕ}
    (hi : i < 768) (hne : m.mem D i ≠ 0#32) : m₁.mem (frameOf (m.mem D i)) = m'.mem (frameOf (m.mem D i)) := by
  cases hr with
  | passed he => exact absurd he (not_entered_of_empty h hx h0)
  | page f _ _ hset hmem =>
    obtain ⟨hlt,-,hzero,hfresh⟩ := open_slot h hx h0 hset
    rw [hmem, setWord_frame]
    intro he
    have hg := hfresh i hi hne he.symm
    have hlate := asked_of_short (hzero.mp (he.symm.trans hg)) (by omega) (show max p (1024*(x/1024)) < x+1 by omega)
    omega
  | table f t _ _ hD hempty hmem _ hzero hfree =>
    have hfirst := asked_first h0 hx (first_of_empty h hx hempty).2
    have hstock := h.stock
    have ht : t ≠ 0 := by omega
    have hsame := h.kept i hne
    have hgD : frameOf (m.mem D i) ≠ D := hsame ▸ table_ne_directory h.ready hi (hsame.symm ▸ hne)
    rw [hmem]
    refine (added_rows hD).2.2 _ hgD fun hgt => ?_
    have htaken := h.ready.tables i hi (hsame.symm ▸ hne)
    rw [hsame, hgt, hfree ht] at htaken
    rcases htaken with hz | hz
    · exact ht hz
    · cases hz

theorem entries_round (h : Progress L D p m x m') (hx : p ≤ x) (hlow : x/1024 < 768) (hr : Round L D x m' m₁)
    (hs : asked m.mem D p (x+1) ≤ stock L.toKernelImage m.phys) {i : ℕ} (hi : i < 768) (hne : m.mem D i ≠ 0#32)
    (j : ℕ) : m₁.mem (frameOf (m.mem D i)) j = 0#32 ↔ m.mem (frameOf (m.mem D i)) j = 0#32 ∧
      ∀ y ∈ Finset.Ico p (x+1), m.mem D (y/1024) ≠ 0#32 → frameOf (m.mem D (y/1024)) = frameOf (m.mem D i) →
        y%1024 ≠ j := by
  have hold := h.entries ((asked_mono (Nat.le_succ x)).trans hs) i hi hne j
  rw [Nat.Ico_succ_right_eq_insert_Ico hx, Finset.forall_mem_insert]
  by_cases h0 : m.mem D (x/1024) = 0#32
  · rw [old_row h hx hr hs h0 hi hne, hold, and_iff_right (fun hset => absurd h0 hset)]
  · have hsame := h.kept _ h0
    by_cases hhit : frameOf (m.mem D (x/1024)) = frameOf (m.mem D i) ∧ x%1024 = j
    · have hset := (round_entered h.ready hlow hr).2
      rw [(round_slots h.ready hlow hr).1 _ (hsame.symm ▸ h0), hsame, hhit.1, hhit.2] at hset
      exact iff_of_false hset fun hall => hall.2.1 h0 hhit.1 hhit.2
    · have hword : m₁.mem (frameOf (m.mem D i)) j = m'.mem (frameOf (m.mem D i)) j := by
        cases hr with
        | passed _ hm => rw [hm]
        | page f _ _ _ hmem =>
          rw [hmem, hsame]
          exact Ownership.setWord_word _ _ fun he => hhit ⟨he.1.symm,he.2.symm⟩
        | table f t _ _ _ hempty => exact absurd (hsame.symm.trans hempty) h0
      rw [hword, hold, and_iff_right (fun _ hframe hindex => hhit ⟨hframe,hindex⟩)]

theorem rest_round (h : Progress L D p m x m') (hx : p ≤ x) (hlow : x/1024 < 768) (hr : Round L D x m' m₁)
    (hmod : (x+1)%1024 ≠ 0) (h0 : m.mem D ((x+1)/1024) = 0#32) {j : ℕ} (hj : (x+1)%1024 ≤ j) :
    m₁.mem (frameOf (m₁.mem D ((x+1)/1024))) j = 0#32 := by
  have hslot : (x+1)/1024 = x/1024 := by omega
  have hnext : j ≠ x%1024 := by omega
  rw [hslot] at h0 ⊢
  cases hr with
  | passed he => exact absurd he (not_entered_of_empty h hx h0)
  | page f hf he hset hmem hstock =>
    obtain ⟨hlt,hmid,-⟩ := open_slot h hx h0 hset
    rw [(round_slots h.ready hlow (.page f hf he hset hmem hstock)).1 _ hset, hmem, setWord_index _ _ _ hnext]
    exact h.rest hlt hmid h0 j (by omega)
  | table f t _ ht hD _ hmem =>
    obtain ⟨hdir,htable,-⟩ := added_rows (m := m') (x := x) (f := f) (j := x%1024) hD
    rw [hmem, hdir, Function.update_self, frameOf_entry ht (by omega), htable, Function.update_of_ne hnext]

theorem opened_round (h : Progress L D p m x m') (hx : p ≤ x) (hlow : x/1024 < 768) (hr : Round L D x m' m₁)
    {y : ℕ} (hp : p ≤ y) (hy : y < x+1) (h0 : m.mem D (y/1024) = 0#32) :
    m₁.mem D (y/1024) ≠ 0#32 ∧ (frameOf (m₁.mem D (y/1024)) = 0 ↔ Short L D p m (y/1024)) ∧
      ∀ i, i < 768 → m.mem D i ≠ 0#32 → frameOf (m₁.mem D (y/1024)) = frameOf (m.mem D i) →
        frameOf (m.mem D i) = 0 := by
  obtain ⟨hkept,-⟩ := round_slots h.ready hlow hr
  rcases Nat.lt_succ_iff_lt_or_eq.mp hy with hlt | rfl
  · have hopen := h.opened y hp hlt h0
    rwa [hkept _ hopen.1]
  · by_cases hset : m'.mem D (y/1024) = 0#32
    · obtain ⟨-,hfirst⟩ := first_of_empty h hx hset
      have hstart : max p (1024*(y/1024)) = y := by omega
      cases hr with
      | passed he => exact absurd hset he.1
      | page f _ _ hne => exact absurd hset hne
      | table f t _ ht hD _ hmem _ hzero hfree =>
        have hstock := h.stock
        rw [hmem, (added_rows hD).1, Function.update_self, frameOf_entry ht (by omega), Short, hstart]
        refine ⟨entry_ne_zero ht (by omega) (by omega),?_,fun i hi hne he => ?_⟩
        · rw [hzero, hstock, and_iff_right h0]
          omega
        · have htaken := h.ready.tables i hi ((h.kept i hne).symm ▸ hne)
          rw [h.kept i hne] at htaken
          by_contra hg
          have htrue := hfree (he ▸ hg)
          rw [he, htaken.resolve_left hg] at htrue
          cases htrue
    · obtain ⟨-,-,hzero,hfresh⟩ := open_slot h hx h0 hset
      rw [hkept _ hset]
      exact ⟨hset,hzero,hfresh⟩

theorem entered_page (h : Progress L D p m x m') (hlow : x/1024 < 768) (hr : Round L D x m' m₁)
    (hset : m'.mem D (x/1024) ≠ 0#32) {y : ℕ} (hp : p ≤ y) (hy : y < x)
    (he : Entered m'.mem D y ∨ frameOf (m'.mem D (y/1024)) = 0 ∧ Cleared L D p m x y)
    (hy0 : m'.mem D (y/1024) ≠ 0#32) :
    Entered m₁.mem D y ∨ frameOf (m₁.mem D (y/1024)) = 0 ∧ Cleared L D p m (x+1) y := by
  obtain ⟨hkept,-⟩ := round_slots h.ready hlow hr
  have hnew := round_entered h.ready hlow hr
  rw [Entered, hkept _ hset] at hnew
  rw [Entered, hkept _ hy0]
  rcases he with he | ⟨hzero,hmod,hshort,hbefore,hindex⟩
  · left
    refine ⟨hy0,?_⟩
    cases hr with
    | passed _ hm =>
      rw [hm]
      exact he.2
    | page f _ _ _ hmem =>
      by_cases hhit : frameOf (m'.mem D (y/1024)) = frameOf (m'.mem D (x/1024)) ∧ y%1024 = x%1024
      · rw [hhit.1, hhit.2]
        exact hnew.2
      · rw [hmem, Ownership.setWord_word _ _ hhit]
        exact he.2
    | table f t _ _ _ hempty => exact absurd hempty hset
  · have hslot : (x-1)/1024 = x/1024 := by omega
    have hframe := (h.opened (x-1) (by omega) (by omega) (by rw [hslot]; exact hshort.1)).2.1
    rw [hslot] at hframe
    by_cases hsame : y%1024 = x%1024
    · left
      have hset' := hnew.2
      rw [hframe.mpr hshort] at hset'
      rw [hzero, hsame]
      exact ⟨hy0,hset'⟩
    · right
      have hnext : (x+1)/1024 = x/1024 := by omega
      refine ⟨hzero,by omega,?_,by omega,by omega⟩
      rwa [hnext]

theorem entered_table (h : Progress L D p m x m') (hx : p ≤ x) (hlow : x/1024 < 768) {f t : ℕ}
    (hf : f < 2^20) (hD : t ≠ D) (hempty : m'.mem D (x/1024) = 0#32)
    (hmem : m₁.mem = setWord (withTable m'.mem D (x/1024) t) t (x%1024) (entry f 7))
    (hzero : t = 0 ↔ stock L.toKernelImage m'.phys ≤ 1) (hfree : t ≠ 0 → bit m'.phys.bitmap t = true) {y : ℕ}
    (hp : p ≤ y) (hy : y < x) (he : Entered m'.mem D y) :
    Entered m₁.mem D y ∨ frameOf (m₁.mem D (y/1024)) = 0 ∧ Cleared L D p m (x+1) y := by
  obtain ⟨hdir,htable,hrows⟩ := added_rows (m := m') (x := x) (f := f) (j := x%1024) hD
  obtain ⟨h0,hfirst⟩ := first_of_empty h hx hempty
  have hother : y/1024 ≠ x/1024 := fun heq => he.1 (heq ▸ hempty)
  have hsame : m₁.mem D (y/1024) = m'.mem D (y/1024) := by rw [hmem, hdir, Function.update_of_ne hother]
  have hD' := table_ne_directory h.ready (show y/1024 < 768 by omega) he.1
  have htaken := h.ready.tables (y/1024) (by omega) he.1
  rw [Entered, hsame]
  by_cases hframe : frameOf (m'.mem D (y/1024)) = t
  · have ht0 : t = 0 := by
      by_contra hne
      rw [hframe, hfree hne] at htaken
      rcases htaken with hz | hz
      · exact hne hz
      · cases hz
    by_cases hindex : y%1024 = 0
    · left
      refine ⟨he.1,?_⟩
      rw [hframe, hmem, htable, hindex, show x%1024 = 0 by omega, Function.update_self]
      exact entry_ne_zero hf (by omega) (by omega)
    · right
      have hnext : (x+1)/1024 = x/1024 := by omega
      have hstart : max p (1024*(x/1024)) = x := by omega
      have hstock := h.stock
      refine ⟨hframe.trans ht0,by omega,?_,by omega,by omega⟩
      rw [Short, hnext, hstart]
      exact ⟨h0,by omega⟩
  · left
    rw [hmem, hrows _ hD' hframe]
    exact he

theorem entered_round (h : Progress L D p m x m') (hx : p ≤ x) (hlow : x/1024 < 768) (hr : Round L D x m' m₁)
    {y : ℕ} (hp : p ≤ y) (hy : y < x+1) :
    Entered m₁.mem D y ∨ frameOf (m₁.mem D (y/1024)) = 0 ∧ Cleared L D p m (x+1) y := by
  rcases Nat.lt_succ_iff_lt_or_eq.mp hy with hlt | rfl
  · have hbefore := h.entered y hp hlt
    have hset : m'.mem D (y/1024) ≠ 0#32 := by
      by_cases h0 : m.mem D (y/1024) = 0#32
      · exact (h.opened y hp hlt h0).1
      · rwa [h.kept _ h0]
    by_cases hempty : m'.mem D (x/1024) = 0#32
    · have he : Entered m'.mem D y := by
        refine hbefore.resolve_right fun ⟨_,hmod,_⟩ => ?_
        have hfirst := (first_of_empty h hx hempty).2
        omega
      cases hr with
      | passed hin => exact absurd hempty hin.1
      | page f _ _ hne => exact absurd hempty hne
      | table f t hf _ hD _ hmem _ hzero hfree =>
        exact entered_table h hx hlow hf hD hempty hmem hzero hfree hp hlt he
    · exact entered_page h hlow hr hempty hp hlt hbefore hset
  · exact Or.inl (round_entered h.ready hlow hr)

/-- What one round keeps. -/
theorem progress_round (h : Progress L D p m x m') (hx : p ≤ x) (hlow : x/1024 < 768) (hready : Ready D m₁)
    (hr : Round L D x m' m₁) : Progress L D p m (x+1) m₁ := by
  obtain ⟨hkept,hother⟩ := round_slots h.ready hlow hr
  refine ⟨hready,fun i hi => ?_,fun i h0 hnot => ?_,fun y => opened_round h hx hlow hr,stock_round h hx hlow hr,
    fun hs i hi hne j => entries_round h hx hlow hr hs hi hne j,
    fun _ hmod h0 j hj => rest_round h hx hlow hr hmod h0 hj,fun y => entered_round h hx hlow hr⟩
  · have hsame := h.kept i hi
    rw [hkept i (hsame.symm ▸ hi), hsame]
  · rw [hother i (Ne.symm (hnot x hx (Nat.lt_succ_self x)))]
    exact h.untouched i h0 fun y hp hy => hnot y hp (by omega)

/-- The loop always ends, and keeps what a round keeps. -/
theorem mmapLoop_progress (count : ℕ) {v : Word} (hv : v.toNat+4096*count ≤ 0xC0000000) (hp : p ≤ v.toNat/4096)
    (h : Progress L D p m (v.toNat/4096) m') :
    ∃ m₁, mmapLoop L count v m' = .ok m₁ ∧ Progress L D p m (v.toNat/4096+count) m₁ := by
  have hstep : ∀ v m₀, UserPage v → p ≤ v.toNat/4096 ∧ Progress L D p m (v.toNat/4096) m₀ →
      ∃ m₁, mmapPage L v m₀ = .ok m₁ ∧ p ≤ v.toNat/4096+1 ∧ Progress L D p m (v.toNat/4096+1) m₁ := by
    rintro v m₀ huser ⟨hp,h⟩
    obtain ⟨m₁,hpage,hready,hr⟩ := mmapPage_round L h.ready huser
    exact ⟨m₁,hpage,by omega,progress_round h hp huser hready hr⟩
  obtain ⟨m₁,hloop,-,hdone⟩ :=
    mmapLoop_run (P := fun x m₀ => p ≤ x ∧ Progress L D p m x m₀) hstep hv ⟨hp,h⟩
  exact ⟨m₁,hloop,hdone⟩

/-- At the end of the range every page is there, but for those that were cleared. -/
theorem entered_iff (h : Progress L D p m x m') :
    (∀ y, p ≤ y → y < x → Entered m'.mem D y) ↔ ¬ Erased L D p x m := by
  constructor
  · rintro hall ⟨hmod,hshort,i,hlow,hlast,hzero⟩
    have hslot : (x-1)/1024 = x/1024 := by omega
    have hframe := (h.opened (x-1) (by omega) (by omega) (by rw [hslot]; exact hshort.1)).2.1.mpr (by rwa [hslot])
    have hempty := h.rest (by omega) hmod hshort.1 1023 (by omega)
    rw [hslot] at hframe
    rw [hframe] at hempty
    have hi : (1024*i+1023)/1024 = i := by omega
    have hearlier : frameOf (m'.mem D i) = 0 := by
      rcases hzero with hs | ⟨hset,hz⟩
      · have hopen := h.opened (1024*i+1023) (by omega) (by omega) (by rw [hi]; exact hs.1)
        rw [hi] at hopen
        exact hopen.2.1.mpr hs
      · rwa [h.kept i hset]
    have he := (hall (1024*i+1023) (by omega) (by omega)).2
    rw [hi, hearlier, show (1024*i+1023)%1024 = 1023 by omega] at he
    exact he hempty
  · intro hnot y hp hy
    refine (h.entered y hp hy).resolve_right fun ⟨hzero,hmod,hshort,hbefore,_⟩ => ?_
    refine hnot ⟨hmod,hshort,y/1024,by omega,hbefore,?_⟩
    by_cases h0 : m.mem D (y/1024) = 0#32
    · exact Or.inl ((h.opened y hp hy h0).2.1.mp hzero)
    · rw [h.kept _ h0] at hzero
      exact Or.inr ⟨h0,hzero⟩

end

/-! ## Calls -/

/-- What a call returns can be relied on: after `SUCCESS` the range ends at the
kernel at the latest, over the integers, and each of its addresses is mapped;
after an error the directory, the tables and the frames are as before. -/
def Meaningful (L : Layout) (virtualAddress numPages : Word) (m : Machine) : Prop :=
  ∃ code m', mmap L virtualAddress numPages m = .ok (code, m') ∧
    (code = .success → virtualAddress.toNat+numPages.toNat*4096 ≤ kernelVirtualOffset.toNat ∧
      ∀ a : Word, virtualAddress.toNat ≤ a.toNat → a.toNat < virtualAddress.toNat+numPages.toNat*4096 →
        pageExists a m' = .ok true) ∧
    (code ≠ .success → m'.mem = m.mem ∧ m'.phys.bitmap = m.phys.bitmap)

section
variable {L : Layout} {D : ℕ} {m m' : Machine} {v n : Word}

theorem mmap_refused (h : mmapRejects v n = true) : mmap L v n m = .ok (.invalidArgument, m) := by
  rw [mmap, if_pos h]
  rfl

/-- What is accepted and does not run past the end of the address space ends
below the kernel. -/
theorem accepted_lt (h : mmapRejects v n = false) (hn : v.toNat+n.toNat*4096 < 2^32) :
    v.toNat%4096 = 0 ∧ v.toNat+n.toNat*4096 < 0xC0000000 := by
  rw [mmapRejects, decide_eq_false_iff_not, not_or, not_or, not_not, kernelVirtualOffset_eq] at h
  obtain ⟨-,hend,hal⟩ := h
  have hmod := (pageBoundary_eq_iff v).mp hal
  refine ⟨hmod,?_⟩
  have hlt : (v+n*pageSize).toNat < 0xC0000000 := Nat.lt_of_not_le hend
  rwa [toNat_rangeEnd hn] at hlt

theorem exists_all_iff (h : Ready D m') (hv : v.toNat%4096 = 0) (hn : v.toNat+n.toNat*4096 < 0xC0000000) :
    (∀ a : Word, v.toNat ≤ a.toNat → a.toNat < v.toNat+n.toNat*4096 → pageExists a m' = .ok true) ↔
      ∀ y, v.toNat/4096 ≤ y → y < v.toNat/4096+n.toNat → Entered m'.mem D y := by
  have hexists : ∀ a : Word, a.toNat < 0xC0000000 →
      (pageExists a m' = .ok true ↔ Entered m'.mem D (a.toNat/4096)) := by
    intro a ha
    rw [pageExists_eq h.current (h.slots _ (by omega)), Except.ok.injEq, decide_eq_true_eq]
  constructor
  · intro hall y hp hy
    have ha : (BitVec.ofNat 32 (4096*y)).toNat = 4096*y := by
      rw [BitVec.toNat_ofNat, Nat.mod_eq_of_lt (by omega)]
    have hy' := (hexists _ (by omega)).mp (hall (BitVec.ofNat 32 (4096*y)) (by omega) (by omega))
    rwa [ha, Nat.mul_div_cancel_left _ (by decide)] at hy'
  · intro hall a hlow hhigh
    exact (hexists a (by omega)).mpr (hall _ (by omega) (by omega))

theorem mmap_meaningful_iff (L : Layout) (D : ℕ) (m : Machine) (v n : Word) (h : Ready D m) :
    Meaningful L v n m ↔ mmapRejects v n = true ∨ v.toNat+n.toNat*4096 < 2^32 ∧
      ¬ Erased L D (v.toNat/4096) (v.toNat/4096+n.toNat) m := by
  by_cases hr : mmapRejects v n = true
  · refine iff_of_true ⟨_,m,mmap_refused hr,fun hcode => ?_,fun _ => ⟨rfl,rfl⟩⟩ (Or.inl hr)
    cases hcode
  · rw [or_iff_right hr]
    rw [Bool.not_eq_true] at hr
    by_cases hn : v.toNat+n.toNat*4096 < 2^32
    · obtain ⟨hv,hend⟩ := accepted_lt hr hn
      obtain ⟨m',hloop,hdone⟩ := mmapLoop_progress (L := L) n.toNat (v := v) (by omega) le_rfl (progress_refl h)
      have hrun := MmapEffect.mmap_eq_loop L hv hend hloop
      have hpages := (exists_all_iff hdone.ready hv hend).trans (entered_iff hdone)
      rw [and_iff_right hn, ← hpages]
      constructor
      · rintro ⟨code,m₁,hcall,hsuccess,-⟩
        rw [hrun, Except.ok.injEq, Prod.mk.injEq] at hcall
        obtain ⟨rfl,rfl⟩ := hcall
        exact (hsuccess rfl).2
      · intro hall
        refine ⟨_,m',hrun,fun _ => ⟨?_,hall⟩,fun hne => absurd rfl hne⟩
        rw [kernelVirtualOffset_eq]
        exact Nat.le_of_lt hend
    · refine iff_of_false ?_ fun hcond => hn hcond.1
      rintro ⟨code,m',hcall,hsuccess,-⟩
      rw [mmap, hr, if_neg (by simp)] at hcall
      obtain ⟨m₁,-,hcode⟩ := bind_eq_ok hcall
      cases hcode
      have hle := (hsuccess rfl).1
      rw [kernelVirtualOffset_eq, show (0xC0000000#32).toNat = 0xC0000000 from rfl] at hle
      omega

-- without frames, one page more than a table holds is enough
example : Erased Teardown.smallLayout 0x113 0 1025 (MmapEffect.bareMachine.withPhys ⟨fun _ => 0#8, true⟩) :=
  ⟨by decide,⟨MmapEffect.bareMachine_slot (i := 1) (by omega),Nat.zero_le _⟩,0,by decide,by decide,
    Or.inl ⟨MmapEffect.bareMachine_slot (i := 0) (by omega),Nat.zero_le _⟩⟩

end

theorem bareMachine_ready : Ready 0x113 MmapEffect.bareMachine := by
  refine ⟨MmapEffect.bareMachine_directory.current,by decide,Teardown.plenty_low (by decide),
    fun i hi => Or.inl (MmapEffect.bareMachine_slot (by omega)),fun i hi h0 => ?_⟩
  exact absurd (MmapEffect.bareMachine_slot (by omega)) h0

theorem one_page_meaningful : Meaningful Teardown.smallLayout 0x40000000#32 1#32 MmapEffect.bareMachine := by
  refine (mmap_meaningful_iff _ 0x113 _ _ _ bareMachine_ready).mpr (Or.inr ⟨by decide,?_⟩)
  rintro ⟨-,-,i,hlow,hlast,-⟩
  rw [show (0x40000000#32).toNat/4096 = 0x40000 from rfl] at hlow hlast
  rw [show (1#32).toNat = 1 from rfl] at hlast
  omega

/-- A range of four gigabytes is taken for one of no pages. -/
theorem whole_space_accepted :
    mmap Teardown.smallLayout 0#32 0x100000#32 MmapEffect.bareMachine = .ok (.success, MmapEffect.bareMachine) ∧
      ¬ Meaningful Teardown.smallLayout 0#32 0x100000#32 MmapEffect.bareMachine := by
  have hrun : mmap Teardown.smallLayout 0#32 0x100000#32 MmapEffect.bareMachine =
      .ok (.success, MmapEffect.bareMachine) := by
    rw [mmap, show mmapRejects 0#32 0x100000#32 = false by decide, if_neg (by simp),
      show mmapCount 0#32 0x100000#32 = 0 by decide]
    rfl
  refine ⟨hrun,?_⟩
  rintro ⟨code,m',hcall,hsuccess,-⟩
  rw [hrun, Except.ok.injEq, Prod.mk.injEq] at hcall
  obtain ⟨rfl,-⟩ := hcall
  exact absurd (hsuccess rfl).1 (by decide)

end MikeOS.MmapStatus
