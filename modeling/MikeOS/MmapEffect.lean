import MikeOS.FrameDemand
import MikeOS.Teardown

/-!
# The exact effect of mmap

A call sets the entries of its range that were empty and the slots of the
directory these need, each with the frame of one call of the frame allocator,
and leaves every other entry of the user half as it was. The entries that were
empty are listed in the order in which they were given a frame.
-/

set_option autoImplicit false

namespace MikeOS.MmapEffect
open BitArray MikeOS.Paging MikeOS.PhysicalMemory MikeOS.Mmu MikeOS.VirtualMemory MikeOS.FramePool
open MikeOS.PageTables MikeOS.Mmaps MikeOS.FrameDemand MikeOS.FrameAllocator

/-! ## The frames that successive calls return -/

def poolAfter (image : KernelImage) : ℕ → PhysicalMem → PhysicalMem
  | 0, s => s
  | n+1, s => poolAfter image n (allocatePhysicalPage image s).2

def supply (image : KernelImage) : ℕ → PhysicalMem → List Word
  | 0, _ => []
  | n+1, s => (allocatePhysicalPage image s).1::supply image n (allocatePhysicalPage image s).2

theorem poolAfter_add (image : KernelImage) (a b : ℕ) (s : PhysicalMem) :
    poolAfter image (a+b) s = poolAfter image b (poolAfter image a s) := by
  induction a generalizing s with
  | zero => rw [Nat.zero_add]; rfl
  | succ a ih => rw [Nat.add_right_comm, poolAfter, ih, poolAfter]

theorem supply_add (image : KernelImage) (a b : ℕ) (s : PhysicalMem) :
    supply image (a+b) s = supply image a s ++ supply image b (poolAfter image a s) := by
  induction a generalizing s with
  | zero => rw [Nat.zero_add]; rfl
  | succ a ih => rw [Nat.add_right_comm, supply, ih, supply, poolAfter, List.cons_append]

/-- A frame that is taken stays so, and is not handed out again. -/
theorem supply_fresh (image : KernelImage) (n : ℕ) {s : PhysicalMem} {f : ℕ} (hf : bit s.bitmap f = false)
    (h : ∀ a ∈ supply image n s, a ≠ null) : f ∉ (supply image n s).map frameOf := by
  induction n generalizing s with
  | zero => simp [supply]
  | succ n ih =>
    obtain ⟨hhead,hrest⟩ := List.forall_mem_cons.mp h
    obtain ⟨g,hg,hga,hgrant⟩ := granted_of_ne_null hhead
    rw [supply, List.map_cons, hga, frameOf_frameAddress hg, List.mem_cons, not_or]
    refine ⟨fun he => ?_,ih (granted_keeps hgrant hf) hrest⟩
    rw [he, hgrant.2.1] at hf
    cases hf

theorem supply_distinct (image : KernelImage) (n : ℕ) {s : PhysicalMem} (h : ∀ a ∈ supply image n s, a ≠ null) :
    ((supply image n s).map frameOf).Nodup := by
  induction n generalizing s with
  | zero => simp [supply]
  | succ n ih =>
    obtain ⟨hhead,hrest⟩ := List.forall_mem_cons.mp h
    obtain ⟨g,hg,hga,hgrant⟩ := granted_of_ne_null hhead
    have htaken : bit (allocatePhysicalPage image s).2.bitmap g = false := by
      rw [granted_bit hgrant, decide_eq_true rfl]
      rfl
    rw [supply, List.map_cons, hga, frameOf_frameAddress hg]
    exact List.nodup_cons.mpr ⟨supply_fresh image n htaken hrest,ih hrest⟩

/-! ## Entries of the user half -/

def UserEntry (e : Word) : Prop := e = 0#32 ∨ e &&& userAttributes = userAttributes

def pageEntry (mem : Frames) (D q : ℕ) : Word :=
  if mem D (q/1024) = 0#32 then 0#32 else mem (frameOf (mem D (q/1024))) (q%1024)

/-- A directory in use as `mmap` leaves it: entries of the user half carry their
bits, and no two slots share a table. -/
structure UserDirectory (m : Machine) (D : ℕ) : Prop where
  current : Current m D
  slots : ∀ i, i < 768 → UserEntry (m.mem D i)
  entries : ∀ q, q < 768*1024 → UserEntry (pageEntry m.mem D q)
  distinct : ∀ i, i < 1024 → ∀ j, j < 1024 → i ≠ j → m.mem D i ≠ 0#32 → m.mem D j ≠ 0#32 →
    frameOf (m.mem D i) ≠ frameOf (m.mem D j)

def InUse (mem : Frames) (D g : ℕ) : Prop :=
  (∃ i, i < 1024 ∧ mem D i ≠ 0#32 ∧ frameOf (mem D i) = g) ∨
    ∃ q, q < 768*1024 ∧ pageEntry mem D q ≠ 0#32 ∧ frameOf (pageEntry mem D q) = g

abbrev Place := ℕ ⊕ ℕ

def entryAt (mem : Frames) (D : ℕ) : Place → Word
  | .inl q => pageEntry mem D q
  | .inr i => mem D i

def missing (mem : Frames) (D p k : ℕ) : Finset Place :=
  (missingPages mem D p k).disjSum (missingTables mem D p k)

theorem missing_card (mem : Frames) (D p k : ℕ) : (missing mem D p k).card = demand mem D p k :=
  Finset.card_disjSum _ _

theorem entered_iff {mem : Frames} {D q : ℕ} : Entered mem D q ↔ pageEntry mem D q ≠ 0#32 := by
  rw [Entered, pageEntry]
  split
  · rename_i h0
    exact ⟨fun h => absurd h0 h.1,fun h => absurd rfl h⟩
  · rename_i h0
    exact ⟨fun h => h.2,fun h => ⟨h0,h⟩⟩

theorem mem_missing_page {mem : Frames} {D p k q : ℕ} :
    Sum.inl q ∈ missing mem D p k ↔ (p ≤ q ∧ q < p+k) ∧ pageEntry mem D q = 0#32 := by
  rw [missing, Finset.inl_mem_disjSum, missingPages, Finset.mem_filter, Finset.mem_Ico, entered_iff, not_not]

theorem mem_missing_table {mem : Frames} {D p k i : ℕ} :
    Sum.inr i ∈ missing mem D p k ↔ (∃ q, (p ≤ q ∧ q < p+k) ∧ q/1024 = i) ∧ mem D i = 0#32 := by
  simp only [missing, Finset.inr_mem_disjSum, missingTables, Finset.mem_filter, Finset.mem_image, Finset.mem_Ico]

theorem userAttributes_entry {f : ℕ} (hf : f < 2^20) : entry f 7 &&& userAttributes = userAttributes := by
  apply BitVec.eq_of_toNat_eq
  rw [BitVec.toNat_and, toNat_entry hf (by omega), show userAttributes.toNat = 2^3-1 from rfl,
    Nat.and_two_pow_sub_one_eq_mod]
  omega

theorem userEntry_entry {f : ℕ} (hf : f < 2^20) : UserEntry (entry f 7) := Or.inr (userAttributes_entry hf)

theorem present_of_user {e : Word} (h : UserEntry e) (h0 : e ≠ 0#32) : isPresent e = true := by
  have hbit := congrArg (fun w : Word => w.getLsbD 0) (h.resolve_left h0)
  simp only [BitVec.getLsbD_and] at hbit
  have hset : userAttributes.getLsbD 0 = true := by decide
  rw [hset, Bool.and_true] at hbit
  exact hbit

theorem slot_of_userDirectory {m : Machine} {D i : ℕ} (h : UserDirectory m D) (hi : i < 768) : Slot m.mem D i := by
  by_cases h0 : m.mem D i = 0#32
  · exact Or.inl h0
  · refine Or.inr ⟨present_of_user (h.slots i hi) h0,fun he => ?_⟩
    have hself : m.mem D 1023 ≠ 0#32 := by
      rw [h.current.self]
      exact entry_ne_zero h.current.lt (by omega) (by omega)
    have hD : frameOf (m.mem D 1023) = D := by rw [h.current.self, frameOf_entry h.current.lt (by omega)]
    exact h.distinct i (by omega) 1023 (by omega) (by omega) h0 hself (he.trans hD.symm)

/-! ## Effects -/

/-- Mapping the pages `p, …, p+k-1` gave frames to the places of `order`, in
that order. -/
structure Effect (L : Layout) (D p k : ℕ) (order : List Place) (m m' : Machine) : Prop where
  directory : UserDirectory m' D
  slots : ∀ i, Sum.inr i ∉ order → m'.mem D i = m.mem D i
  pages : ∀ q, q < 768*1024 → Sum.inl q ∉ order → pageEntry m'.mem D q = pageEntry m.mem D q
  range : ∀ q, p ≤ q → q < p+k → pageEntry m'.mem D q ≠ 0#32
  nodup : order.Nodup
  places : ∀ x, x ∈ order ↔ x ∈ missing m.mem D p k
  entries : order.map (entryAt m'.mem D) =
    (supply L.toKernelImage order.length m.phys).map (· ||| userAttributes)
  phys : m'.phys = poolAfter L.toKernelImage order.length m.phys
  used : ∀ g, InUse m'.mem D g → InUse m.mem D g ∨ g ∈ (supply L.toKernelImage order.length m.phys).map frameOf

section
variable {L : Layout} {D p a b : ℕ} {order rest : List Place} {m m₁ m' : Machine}

theorem filled (h : Effect L D p a order m m₁) {x : Place} (hx : x ∈ order) : entryAt m₁.mem D x ≠ 0#32 := by
  cases x with
  | inl q =>
    obtain ⟨⟨hp,hq⟩,-⟩ := mem_missing_page.mp ((h.places _).mp hx)
    exact h.range q hp hq
  | inr i =>
    obtain ⟨⟨q,⟨hp,hq⟩,rfl⟩,-⟩ := mem_missing_table.mp ((h.places _).mp hx)
    exact (entered_iff.mpr (h.range q hp hq)).1

theorem missing_empty {mem : Frames} {x : Place} {k : ℕ} (hx : x ∈ missing mem D p k) : entryAt mem D x = 0#32 := by
  cases x with
  | inl q => exact (mem_missing_page.mp hx).2
  | inr i => exact (mem_missing_table.mp hx).2

/-- What a longer range needs: what its first part was given, and what is then
still missing in the rest. -/
theorem missing_split (h : Effect L D p a order m m₁) (hk : p+(a+b) ≤ 768*1024) (x : Place) :
    x ∈ missing m.mem D p (a+b) ↔ x ∈ order ∨ x ∈ missing m₁.mem D (p+a) b := by
  rw [h.places]
  cases x with
  | inl q =>
    simp only [mem_missing_page]
    have hsame : p+a ≤ q → q < p+a+b → pageEntry m₁.mem D q = pageEntry m.mem D q := fun hq hb =>
      h.pages q (by omega) fun hx => by
        have := (mem_missing_page.mp ((h.places _).mp hx)).1
        omega
    constructor
    · rintro ⟨hq,h0⟩
      by_cases hlt : q < p+a
      · exact Or.inl ⟨⟨hq.1,hlt⟩,h0⟩
      · exact Or.inr ⟨by omega,by rw [hsame (by omega) (by omega), h0]⟩
    · rintro (⟨hq,h0⟩ | ⟨hq,h0⟩)
      · exact ⟨by omega,h0⟩
      · exact ⟨by omega,by rw [← hsame hq.1 hq.2, h0]⟩
  | inr i =>
    constructor
    · intro hx
      by_cases hin : Sum.inr i ∈ order
      · exact Or.inl ((h.places _).mp hin)
      · obtain ⟨⟨q,hq,hqi⟩,h0⟩ := mem_missing_table.mp hx
        have hge : p+a ≤ q := by
          by_contra hlt
          exact hin ((h.places _).mpr (mem_missing_table.mpr ⟨⟨q,by omega,hqi⟩,h0⟩))
        refine Or.inr (mem_missing_table.mpr ⟨⟨q,by omega,hqi⟩,?_⟩)
        rw [h.slots i hin, h0]
    · rintro (hx | hx)
      · obtain ⟨⟨q,hq,hqi⟩,h0⟩ := mem_missing_table.mp hx
        exact mem_missing_table.mpr ⟨⟨q,by omega,hqi⟩,h0⟩
      · obtain ⟨⟨q,hq,hqi⟩,h0⟩ := mem_missing_table.mp hx
        have hout : Sum.inr i ∉ order := fun hin => filled h hin h0
        exact mem_missing_table.mpr ⟨⟨q,by omega,hqi⟩,by rw [← h.slots i hout, h0]⟩

theorem missing_disjoint (h : Effect L D p a order m m₁) {x : Place} (hx : x ∈ order) :
    x ∉ missing m₁.mem D (p+a) b := fun hm => filled h hx (missing_empty hm)

theorem demand_split (h : Effect L D p a order m m₁) (hk : p+(a+b) ≤ 768*1024) :
    demand m.mem D p (a+b) = order.length+demand m₁.mem D (p+a) b := by
  have hset : missing m.mem D p (a+b) = order.toFinset ∪ missing m₁.mem D (p+a) b := by
    ext x
    rw [missing_split h hk, Finset.mem_union, List.mem_toFinset]
  have hdisj : Disjoint order.toFinset (missing m₁.mem D (p+a) b) :=
    Finset.disjoint_left.mpr fun x hx => missing_disjoint h (List.mem_toFinset.mp hx)
  rw [← missing_card, ← missing_card, hset, Finset.card_union_of_disjoint hdisj,
    List.toFinset_card_of_nodup h.nodup]

theorem order_length {mem : Frames} (hn : order.Nodup) (hp : ∀ x, x ∈ order ↔ x ∈ missing mem D p a) :
    order.length = demand mem D p a := by
  rw [← missing_card, ← List.toFinset_card_of_nodup hn]
  congr 1
  ext x
  rw [List.mem_toFinset, hp]

/-- Two calls in a row on adjacent ranges are a call on both. -/
theorem effect_append (h : Effect L D p a order m m₁) (h' : Effect L D (p+a) b rest m₁ m')
    (hk : p+(a+b) ≤ 768*1024) : Effect L D p (a+b) (order ++ rest) m m' := by
  have hnot : ∀ {x : Place}, x ∉ order ++ rest → x ∉ order ∧ x ∉ rest := fun hx =>
    ⟨fun ho => hx (List.mem_append_left _ ho),fun hr => hx (List.mem_append_right _ hr)⟩
  have hdisj : ∀ x ∈ order, x ∉ rest := fun x hx hr => missing_disjoint h hx ((h'.places x).mp hr)
  have hpages : ∀ q, p ≤ q → q < p+a → pageEntry m'.mem D q = pageEntry m₁.mem D q := fun q hp hq =>
    h'.pages q (by omega) fun hr => by
      have := (mem_missing_page.mp ((h'.places _).mp hr)).1
      omega
  refine ⟨h'.directory,fun i hi => ?_,fun q hq hx => ?_,fun q hp hq => ?_,?_,fun x => ?_,?_,?_,fun g hg => ?_⟩
  · rw [h'.slots i (hnot hi).2, h.slots i (hnot hi).1]
  · rw [h'.pages q hq (hnot hx).2, h.pages q hq (hnot hx).1]
  · by_cases hlt : q < p+a
    · rw [hpages q hp hlt]
      exact h.range q hp hlt
    · exact h'.range q (by omega) (by omega)
  · exact List.nodup_append.mpr ⟨h.nodup,h'.nodup,fun x hx y hy he => hdisj x hx (he ▸ hy)⟩
  · rw [List.mem_append, missing_split h hk, h'.places]
  · have hkept : order.map (entryAt m'.mem D) = order.map (entryAt m₁.mem D) := by
      apply List.map_congr_left
      intro x hx
      cases x with
      | inl q =>
        obtain ⟨⟨hp,hq⟩,-⟩ := mem_missing_page.mp ((h.places _).mp hx)
        exact hpages q hp hq
      | inr i => exact h'.slots i (hdisj _ hx)
    rw [List.map_append, hkept, h.entries, h'.entries, List.length_append, supply_add, List.map_append, ← h.phys]
  · rw [h'.phys, List.length_append, poolAfter_add, ← h.phys]
  · rw [List.length_append, supply_add, List.map_append, ← h.phys]
    rcases h'.used g hg with h₁ | hin
    · exact (h.used g h₁).imp_right (List.mem_append_left _)
    · exact Or.inr (List.mem_append_right _ hin)

theorem effect_refl (h : UserDirectory m D) : Effect L D p 0 [] m m := by
  refine ⟨h,fun _ _ => rfl,fun _ _ _ => rfl,fun q hp hq => by omega,List.nodup_nil,fun x => ?_,rfl,rfl,
    fun g hg => Or.inl hg⟩
  cases x with
  | inl q =>
    rw [mem_missing_page]
    simp only [List.not_mem_nil, false_iff]
    omega
  | inr i =>
    rw [mem_missing_table]
    simp only [List.not_mem_nil, false_iff]
    rintro ⟨⟨q,hq,-⟩,-⟩
    omega

end

/-! ## One page -/

def Supplied (L : Layout) (D p k : ℕ) (m : Machine) : Prop :=
  ∀ a ∈ supply L.toKernelImage (demand m.mem D p k) m.phys, a ≠ null ∧ ¬ InUse m.mem D (frameOf a)

section
variable {L : Layout} {D p : ℕ} {m m' : Machine}

theorem missing_one {mem : Frames} (x : Place) :
    x ∈ missing mem D p 1 ↔ (x = .inl p ∨ x = .inr (p/1024)) ∧ entryAt mem D x = 0#32 := by
  cases x with
  | inl q =>
    rw [mem_missing_page]
    simp only [entryAt, Sum.inl.injEq, reduceCtorEq, or_false]
    exact and_congr_left fun _ => by omega
  | inr i =>
    rw [mem_missing_table]
    simp only [entryAt, Sum.inr.injEq, reduceCtorEq, false_or]
    refine and_congr_left fun _ => ⟨?_,?_⟩
    · rintro ⟨q,hq,rfl⟩
      congr 1
      omega
    · exact fun he => ⟨p,by omega,he.symm⟩

/-- What a change of the entry of page `p`, and perhaps of its slot, keeps. -/
structure PageSet (D p : ℕ) (mem mem' : Frames) (f : ℕ) : Prop where
  slots : ∀ j, j ≠ p/1024 → mem' D j = mem D j
  pages : ∀ q, q < 768*1024 → q ≠ p → pageEntry mem' D q = pageEntry mem D q
  page : pageEntry mem' D p = entry f 7

theorem userDirectory_set (h : UserDirectory m D) (hp : p < 768*1024) {f : ℕ} (hf : f < 2^20)
    (hset : PageSet D p m.mem m'.mem f) (hcr3 : m'.cr3 = m.cr3)
    (hslot : m'.mem D (p/1024) = m.mem D (p/1024) ∨
      ∃ t, t < 2^20 ∧ m'.mem D (p/1024) = entry t 7 ∧ ¬ InUse m.mem D t) : UserDirectory m' D := by
  have hcase : ∀ j, m'.mem D j = m.mem D j ∨ j = p/1024 ∧ ∃ t, t < 2^20 ∧ m'.mem D j = entry t 7 ∧ ¬ InUse m.mem D t := by
    intro j
    by_cases hj : j = p/1024
    · rw [hj]
      exact hslot.imp_right fun ht => ⟨rfl,ht⟩
    · exact Or.inl (hset.slots j hj)
  have hnew : ∀ i, i < 1024 → ∀ t, t < 2^20 → ¬ InUse m.mem D t → m.mem D i ≠ 0#32 →
      frameOf (m.mem D i) ≠ frameOf (entry t 7) := by
    intro i hi t ht hnot h0 he
    rw [frameOf_entry ht (by omega)] at he
    exact hnot (Or.inl ⟨i,hi,h0,he⟩)
  refine ⟨⟨by rw [hcr3, h.current.cr3],h.current.lt,?_⟩,fun i hi => ?_,fun q hq => ?_,
    fun i hi j hj hij h0 h0' => ?_⟩
  · rw [hset.slots 1023 (by omega), h.current.self]
  · rcases hcase i with he | ⟨-,t,ht,he,-⟩
    · rw [he]
      exact h.slots i hi
    · rw [he]
      exact userEntry_entry ht
  · by_cases hqp : q = p
    · rw [hqp, hset.page]
      exact userEntry_entry hf
    · rw [hset.pages q hq hqp]
      exact h.entries q hq
  · rcases hcase i with he | ⟨rfl,t,ht,he,hnot⟩
    · rcases hcase j with he' | ⟨rfl,t,ht,he',hnot⟩
      · rw [he] at h0 ⊢
        rw [he'] at h0' ⊢
        exact h.distinct i hi j hj hij h0 h0'
      · rw [he] at h0 ⊢
        rw [he']
        exact hnew i hi t ht hnot h0
    · have he' := hset.slots j (Ne.symm hij)
      rw [he'] at h0' ⊢
      rw [he]
      exact (hnew j hj t ht hnot h0').symm

theorem pageSet_present (h : UserDirectory m D) (hp : p < 768*1024) (h0 : m.mem D (p/1024) ≠ 0#32) (f : ℕ) :
    PageSet D p m.mem (setWord m.mem (frameOf (m.mem D (p/1024))) (p%1024) (entry f 7)) f ∧
      setWord m.mem (frameOf (m.mem D (p/1024))) (p%1024) (entry f 7) D = m.mem D := by
  have hne : frameOf (m.mem D (p/1024)) ≠ D := ((slot_of_userDirectory h (by omega)).resolve_left h0).2
  have hrow : setWord m.mem (frameOf (m.mem D (p/1024))) (p%1024) (entry f 7) D = m.mem D :=
    setWord_frame _ _ _ (Ne.symm hne)
  refine ⟨⟨fun j _ => congrFun hrow j,fun q hq hqp => ?_,?_⟩,hrow⟩
  · rw [pageEntry, pageEntry, hrow]
    split
    · rfl
    · rename_i hq0
      by_cases hsame : q/1024 = p/1024
      · rw [hsame, setWord_index _ _ _ (by omega)]
      · rw [setWord_frame _ _ _ (h.distinct _ (by omega) _ (by omega) hsame hq0 h0)]
  · rw [pageEntry, hrow, if_neg h0, setWord_self]

theorem pageSet_new (h : UserDirectory m D) (h0 : m.mem D (p/1024) = 0#32) (f : ℕ) {t : ℕ}
    (ht : t < 2^20) (hnot : ¬ InUse m.mem D t) (hD : t ≠ D) :
    PageSet D p m.mem (setWord (withTable m.mem D (p/1024) t) t (p%1024) (entry f 7)) f ∧
      setWord (withTable m.mem D (p/1024) t) t (p%1024) (entry f 7) D (p/1024) = entry t 7 := by
  obtain ⟨mem',hmem⟩ : ∃ mem', mem' = setWord (withTable m.mem D (p/1024) t) t (p%1024) (entry f 7) := ⟨_,rfl⟩
  have hrow : mem' D = Function.update (m.mem D) (p/1024) (entry t 7) := by
    rw [hmem, setWord_frame _ _ _ (Ne.symm hD), withTable, setFrame_frame _ _ (Ne.symm hD), setWord, Function.update_self]
  have hslot : mem' D (p/1024) = entry t 7 := by rw [hrow, Function.update_self]
  have hother : ∀ j, j ≠ p/1024 → mem' D j = m.mem D j := fun j hj => by rw [hrow, Function.update_of_ne hj]
  have hne : entry t 7 ≠ 0#32 := entry_ne_zero ht (by omega) (by omega)
  have htable : ∀ j, mem' t j = if j = p%1024 then entry f 7 else 0#32 := by
    intro j
    rw [hmem]
    split
    · rename_i hj
      rw [hj, setWord_self]
    · rename_i hj
      rw [setWord_index _ _ _ hj, withTable, setFrame_self]
  rw [← hmem]
  refine ⟨⟨hother,fun q hq hqp => ?_,?_⟩,hslot⟩
  · by_cases hsame : q/1024 = p/1024
    · rw [pageEntry, pageEntry, hsame, hslot, if_neg hne, if_pos h0, frameOf_entry ht (by omega), htable,
        if_neg (by omega)]
    · rw [pageEntry, pageEntry, hother _ hsame]
      split
      · rfl
      · rename_i hq0
        have hqt : frameOf (m.mem D (q/1024)) ≠ t := fun he => hnot (Or.inl ⟨q/1024,by omega,hq0,he⟩)
        have hqD : frameOf (m.mem D (q/1024)) ≠ D := ((slot_of_userDirectory h (by omega)).resolve_left hq0).2
        rw [hmem, setWord_frame _ _ _ hqt, withTable, setFrame_frame _ _ hqt, setWord_frame _ _ _ hqD]
  · rw [pageEntry, hslot, if_neg hne, frameOf_entry ht (by omega), htable, if_pos rfl]

theorem inUse_set {mem mem' : Frames} {f g : ℕ} (hf : f < 2^20) (hset : PageSet D p mem mem' f)
    (hg : InUse mem' D g) : InUse mem D g ∨ g = f ∨ mem' D (p/1024) ≠ mem D (p/1024) ∧ g = frameOf (mem' D (p/1024)) := by
  rcases hg with ⟨i,hi,h0,he⟩ | ⟨q,hq,h0,he⟩
  · by_cases hsame : mem' D i = mem D i
    · rw [hsame] at h0 he
      exact Or.inl (Or.inl ⟨i,hi,h0,he⟩)
    · have hip : i = p/1024 := by
        by_contra hne
        exact hsame (hset.slots i hne)
      rw [hip] at hsame he
      exact Or.inr (Or.inr ⟨hsame,he.symm⟩)
  · by_cases hqp : q = p
    · rw [hqp, hset.page, frameOf_entry hf (by omega)] at he
      exact Or.inr (Or.inl he.symm)
    · rw [hset.pages q hq hqp] at h0 he
      exact Or.inl (Or.inr ⟨q,hq,h0,he⟩)

theorem entry_or (f : ℕ) (hf : f < 2^20) : entry f 7 = frameAddress f ||| userAttributes := by
  rw [userAttributes_eq]
  exact (frameAddress_or hf (by omega)).symm

theorem effect_set {order : List Place} {f : ℕ} (hf : f < 2^20) (hdir : UserDirectory m' D)
    (hset : PageSet D p m.mem m'.mem f) (hn : order.Nodup) (hplaces : ∀ x, x ∈ order ↔ x ∈ missing m.mem D p 1)
    (hpage : .inl p ∈ order)
    (hslot : m'.mem D (p/1024) = m.mem D (p/1024) ∨ Sum.inr (p/1024) ∈ order ∧
      frameOf (m'.mem D (p/1024)) ∈ (supply L.toKernelImage order.length m.phys).map frameOf)
    (hframe : f ∈ (supply L.toKernelImage order.length m.phys).map frameOf)
    (hentries : order.map (entryAt m'.mem D) =
      (supply L.toKernelImage order.length m.phys).map (· ||| userAttributes))
    (hphys : m'.phys = poolAfter L.toKernelImage order.length m.phys) : Effect L D p 1 order m m' := by
  refine ⟨hdir,fun i hi => ?_,fun q hq hx => ?_,fun q hpq hq => ?_,hn,hplaces,hentries,hphys,fun g hg => ?_⟩
  · by_cases hip : i = p/1024
    · rw [hip] at hi ⊢
      exact hslot.resolve_right fun h => hi h.1
    · exact hset.slots i hip
  · exact hset.pages q hq fun he => hx (he ▸ hpage)
  · rw [show q = p by omega, hset.page]
    exact entry_ne_zero hf (by omega) (by omega)
  · rcases inUse_set hf hset hg with hin | rfl | ⟨hne,rfl⟩
    · exact Or.inl hin
    · exact Or.inr hframe
    · exact Or.inr (hslot.resolve_left hne).2

theorem directory_inUse (h : UserDirectory m D) : InUse m.mem D D := by
  refine Or.inl ⟨1023,by omega,?_,?_⟩
  · rw [h.current.self]
    exact entry_ne_zero h.current.lt (by omega) (by omega)
  · rw [h.current.self, frameOf_entry h.current.lt (by omega)]

theorem missing_page_only {mem : Frames} (he : pageEntry mem D p = 0#32) (h0 : mem D (p/1024) ≠ 0#32) (x : Place) :
    x ∈ [Sum.inl p] ↔ x ∈ missing mem D p 1 := by
  rw [missing_one, List.mem_singleton]
  constructor
  · rintro rfl
    exact ⟨Or.inl rfl,he⟩
  · rintro ⟨rfl | rfl,hz⟩
    · rfl
    · exact absurd hz h0

theorem missing_page_table {mem : Frames} (h0 : mem D (p/1024) = 0#32) (x : Place) :
    x ∈ [Sum.inl p, Sum.inr (p/1024)] ↔ x ∈ missing mem D p 1 := by
  rw [missing_one, List.mem_cons, List.mem_singleton]
  constructor
  · rintro (rfl | rfl)
    · exact ⟨Or.inl rfl,if_pos h0⟩
    · exact ⟨Or.inr rfl,h0⟩
  · exact fun hx => hx.1

theorem effect_entered (h : UserDirectory m D) (he : Entered m.mem D p) : Effect L D p 1 [] m m := by
  refine ⟨h,fun _ _ => rfl,fun _ _ _ => rfl,fun q hpq hq => ?_,List.nodup_nil,fun x => ?_,rfl,rfl,
    fun g hg => Or.inl hg⟩
  · rw [show q = p by omega]
    exact entered_iff.mp he
  · rw [missing_one]
    simp only [List.not_mem_nil, false_iff, not_and]
    rintro (rfl | rfl)
    · exact entered_iff.mp he
    · exact he.1

theorem effect_present (h : UserDirectory m D) (hp : p < 768*1024) (he : ¬ Entered m.mem D p)
    (h0 : m.mem D (p/1024) ≠ 0#32) {f : ℕ} (hf : f < 2^20) {phys : PhysicalMem}
    (hpair : allocatePhysicalPage L.toKernelImage m.phys = (frameAddress f, phys)) :
    Effect L D p 1 [.inl p] m (mapped ((m.granting p (frameAddress f)).withPhys phys) m.mem
      (frameOf (m.mem D (p/1024))) p f) := by
  have hempty : pageEntry m.mem D p = 0#32 := not_not.mp (mt entered_iff.mpr he)
  have hsupply : supply L.toKernelImage 1 m.phys = [frameAddress f] := by rw [supply, hpair]; rfl
  obtain ⟨hset,hrow⟩ := pageSet_present h hp h0 f
  have hdir : UserDirectory (mapped ((m.granting p (frameAddress f)).withPhys phys) m.mem
      (frameOf (m.mem D (p/1024))) p f) D :=
    userDirectory_set h hp hf hset rfl (Or.inl (congrFun hrow _))
  apply effect_set hf hdir hset (List.nodup_singleton _) (missing_page_only hempty h0) (List.mem_singleton_self _)
    (Or.inl (congrFun hrow _))
  · rw [List.length_singleton, hsupply]
    simp [frameOf_frameAddress hf]
  · rw [List.length_singleton, hsupply, List.map_singleton, List.map_singleton, ← entry_or f hf]
    exact congrArg (fun e => [e]) hset.page
  · rw [List.length_singleton, poolAfter, poolAfter, hpair]
    rfl

theorem effect_new (h : UserDirectory m D) (hp : p < 768*1024) (h0 : m.mem D (p/1024) = 0#32) {f t : ℕ}
    (hf : f < 2^20) (ht : t < 2^20) {phys phys' : PhysicalMem}
    (hpair : allocatePhysicalPage L.toKernelImage m.phys = (frameAddress f, phys))
    (hpair' : allocatePhysicalPage L.toKernelImage phys = (frameAddress t, phys'))
    (hfree : ¬ InUse m.mem D t) (hD : t ≠ D) :
    Effect L D p 1 [.inl p, .inr (p/1024)] m (mapped ((m.granting p (frameAddress f)).withPhys phys')
      (withTable m.mem D (p/1024) t) t p f) := by
  have hsupply : supply L.toKernelImage 2 m.phys = [frameAddress f, frameAddress t] := by
    rw [supply, hpair, supply, hpair']
    rfl
  obtain ⟨hset,hslot⟩ := pageSet_new h h0 f ht hfree hD
  have hdir : UserDirectory (mapped ((m.granting p (frameAddress f)).withPhys phys')
      (withTable m.mem D (p/1024) t) t p f) D :=
    userDirectory_set h hp hf hset rfl (Or.inr ⟨t,ht,hslot,hfree⟩)
  apply effect_set hf hdir hset (by simp) (missing_page_table h0) (by simp) (Or.inr ⟨by simp,?_⟩)
  · rw [List.length_cons, List.length_singleton, hsupply]
    simp [frameOf_frameAddress hf]
  · rw [List.length_cons, List.length_singleton, hsupply]
    simp only [List.map_cons, List.map_nil, ← entry_or f hf, ← entry_or t ht]
    exact congrArg₂ (fun e e' => [e, e']) hset.page hslot
  · rw [List.length_cons, List.length_singleton, poolAfter, poolAfter, poolAfter, hpair, hpair']
    rfl
  · rw [List.length_cons, List.length_singleton, hsupply]
    change frameOf (setWord (withTable m.mem D (p/1024) t) t (p%1024) (entry f 7) D (p/1024)) ∈ _
    rw [hslot, frameOf_entry ht (by omega)]
    simp [frameOf_frameAddress ht]

/-- When a table is needed, the second call returns a frame that is not in use. -/
theorem second_free (h0 : m.mem D (p/1024) = 0#32) (hs : Supplied L D p 1 m) {f t : ℕ} (ht : t < 2^20)
    {phys phys' : PhysicalMem} (hpair : allocatePhysicalPage L.toKernelImage m.phys = (frameAddress f, phys))
    (hpair' : allocatePhysicalPage L.toKernelImage phys = (frameAddress t, phys')) : ¬ InUse m.mem D t := by
  have hn : [(Sum.inl p : Place), Sum.inr (p/1024)].Nodup := by simp
  rw [Supplied, ← order_length hn (missing_page_table h0)] at hs
  have hsecond : frameAddress t ∈ supply L.toKernelImage 2 m.phys := by
    rw [supply, hpair, supply, hpair']
    simp
  have hfree := (hs (frameAddress t) hsecond).2
  rwa [frameOf_frameAddress ht] at hfree

theorem mmapPage_effect (L : Layout) (h : UserDirectory m D) {v : Word} (hv : UserPage v)
    (hs : Supplied L D (v.toNat/4096) 1 m) :
    ∃ order m₁, mmapPage L v m = .ok m₁ ∧ Effect L D (v.toNat/4096) 1 order m m₁ := by
  have hp : v.toNat/4096 < 768*1024 := by unfold UserPage at hv; omega
  rcases mmapPage_cases L h.current hv (slot_of_userDirectory h hv) with
    ⟨he,hrun⟩ | ⟨he,h0,f,phys,hf,hpair,hrun⟩ | ⟨h0,f,phys,t,phys',hf,ht,hpair,hpair',hrun⟩
  · exact ⟨[],m,hrun,effect_entered h he⟩
  · exact ⟨_,_,hrun,effect_present h hp he h0 hf hpair⟩
  · have hfree := second_free h0 hs ht hpair hpair'
    have hD : t ≠ D := fun he => hfree (by rw [he]; exact directory_inUse h)
    exact ⟨_,_,hrun hD,effect_new h hp h0 hf ht hpair hpair' hfree hD⟩

end

/-! ## Ranges -/

section
variable {L : Layout} {D p : ℕ} {m m₁ : Machine}

theorem supplied_rest {a b : ℕ} {order : List Place} (h : Effect L D p a order m m₁) (hk : p+(a+b) ≤ 768*1024)
    (hs : Supplied L D p (a+b) m) : Supplied L D (p+a) b m₁ := by
  rw [Supplied, demand_split h hk, supply_add] at hs
  have hnull : ∀ x ∈ supply L.toKernelImage (order.length+demand m₁.mem D (p+a) b) m.phys, x ≠ null := by
    rw [supply_add]
    exact fun x hx => (hs x hx).1
  have hdistinct := supply_distinct L.toKernelImage _ hnull
  rw [supply_add, List.map_append, ← h.phys] at hdistinct
  rw [← h.phys] at hs
  intro x hx
  obtain ⟨hne,hfree⟩ := hs x (List.mem_append_right _ hx)
  refine ⟨hne,fun hin => ?_⟩
  rcases h.used _ hin with hin | hin
  · exact hfree hin
  · exact List.disjoint_of_nodup_append hdistinct hin (List.mem_map_of_mem hx)

theorem supplied_first {a b : ℕ} (hs : Supplied L D p (a+b) m) : Supplied L D p a m := by
  intro x hx
  apply hs x
  have hle : demand m.mem D p a ≤ demand m.mem D p (a+b) := by
    rw [← missing_card, ← missing_card]
    apply Finset.card_le_card
    intro y hy
    cases y with
    | inl q =>
      rw [mem_missing_page] at hy ⊢
      exact ⟨by omega,hy.2⟩
    | inr i =>
      obtain ⟨⟨q,hq,hqi⟩,h0⟩ := mem_missing_table.mp hy
      exact mem_missing_table.mpr ⟨⟨q,by omega,hqi⟩,h0⟩
  obtain ⟨d,hd⟩ := Nat.exists_eq_add_of_le hle
  rw [hd, supply_add]
  exact List.mem_append_left _ hx

theorem mmapLoop_effect (L : Layout) (count : ℕ) {v : Word} (h : UserDirectory m D)
    (hv : v.toNat+4096*count ≤ 0xC0000000) (hs : Supplied L D (v.toNat/4096) count m) :
    ∃ order m', mmapLoop L count v m = .ok m' ∧ Effect L D (v.toNat/4096) count order m m' := by
  induction count generalizing v m with
  | zero => exact ⟨[],m,rfl,effect_refl h⟩
  | succ count ih =>
    have hnext := toNat_nextPage (v := v) (by omega)
    have hpage : (v+pageSize).toNat/4096 = v.toNat/4096+1 := by omega
    have hk : v.toNat/4096+(1+count) ≤ 768*1024 := by omega
    rw [Nat.add_comm count 1] at hs
    obtain ⟨order,m₁,hrun,heffect⟩ := mmapPage_effect L h (by unfold UserPage; omega) (supplied_first hs)
    obtain ⟨rest,m',hloop,hrest⟩ := ih (v := v+pageSize) heffect.directory (by omega)
      (by rw [hpage]; exact supplied_rest heffect hk hs)
    rw [hpage] at hrest
    refine ⟨order ++ rest,m',?_,?_⟩
    · rw [mmapLoop, hrun, ok_bind, hloop]
    · rw [Nat.add_comm count 1]
      exact effect_append heffect hrest hk

theorem mmapLoop_entered (L : Layout) (count : ℕ) {v : Word} (h : UserDirectory m D)
    (hv : v.toNat+4096*count ≤ 0xC0000000)
    (hin : ∀ q, v.toNat/4096 ≤ q → q < v.toNat/4096+count → Entered m.mem D q) : mmapLoop L count v m = .ok m := by
  induction count generalizing v with
  | zero => rfl
  | succ count ih =>
    have hpage : v.toNat/4096/1024 < 768 := by omega
    have hhead := hin (v.toNat/4096) (by omega) (by omega)
    have hrun : mmapPage L v m = .ok m := by
      rcases mmapPage_cases L h.current hpage (slot_of_userDirectory h hpage) with ⟨-,hrun⟩ | ⟨hnot,-⟩ | ⟨h0,-⟩
      · exact hrun
      · exact absurd hhead hnot
      · exact absurd h0 hhead.1
    have hnext := toNat_nextPage (v := v) (by omega)
    rw [mmapLoop, hrun, ok_bind]
    exact ih (by omega) fun q hq hlt => hin q (by omega) (by omega)

/-- What the checks of `mmap` let through, over the integers. -/
theorem mmap_accepts {v n : Word} (hv : v.toNat%4096 = 0) (hn : v.toNat+n.toNat*4096 < 0xC0000000) :
    mmapRejects v n = false ∧ mmapCount v n = n.toNat := by
  have hsum := toNat_rangeEnd (v := v) (n := n) (by omega)
  constructor
  · rw [mmapRejects, decide_eq_false_iff_not, not_or, not_or, not_not, kernelVirtualOffset_eq]
    refine ⟨?_,?_,(pageBoundary_eq_iff v).mpr hv⟩
    · bv_omega
    · change ¬ 0xC0000000 ≤ (v+n*pageSize).toNat
      omega
  · rw [mmapCount, hsum]
    omega

theorem mmap_eq_loop (L : Layout) {v n : Word} (hv : v.toNat%4096 = 0) (hn : v.toNat+n.toNat*4096 < 0xC0000000)
    {m' : Machine} (hrun : mmapLoop L n.toNat v m = .ok m') : mmap L v n m = .ok (.success, m') := by
  obtain ⟨hr,hcount⟩ := mmap_accepts hv hn
  rw [mmap, hr, if_neg (by simp), hcount, hrun, ok_bind]
  rfl

structure RangeMapped (L : Layout) (D p k : ℕ) (m m' : Machine) : Prop where
  directory : UserDirectory m' D
  slot : ∀ q, p ≤ q → q < p+k → m'.mem D (q/1024) &&& userAttributes = userAttributes
  page : ∀ q, p ≤ q → q < p+k → pageEntry m'.mem D q &&& userAttributes = userAttributes
  slotKept : ∀ i, m.mem D i ≠ 0#32 → m'.mem D i = m.mem D i
  pageKept : ∀ q, q < 768*1024 → pageEntry m.mem D q ≠ 0#32 → pageEntry m'.mem D q = pageEntry m.mem D q
  outside : ∀ q, q < 768*1024 → ¬ (p ≤ q ∧ q < p+k) → pageEntry m'.mem D q = pageEntry m.mem D q
  /-- The places that were empty, in some order, got the frames of as many calls
  of the allocator, in the order of the calls. -/
  frames : ∃ order : List Place, order.Nodup ∧ (∀ x, x ∈ order ↔ x ∈ missing m.mem D p k) ∧
    order.map (entryAt m'.mem D) =
      (supply L.toKernelImage order.length m.phys).map (· ||| userAttributes) ∧
    ((supply L.toKernelImage order.length m.phys).map frameOf).Nodup ∧
    (∀ a ∈ supply L.toKernelImage order.length m.phys, ¬ InUse m.mem D (frameOf a)) ∧
    m'.phys = poolAfter L.toKernelImage order.length m.phys
  again : ∀ v n : Word, v.toNat%4096 = 0 → p*4096 ≤ v.toNat → v.toNat+n.toNat*4096 ≤ (p+k)*4096 →
    mmap L v n m' = .ok (.success, m')

theorem rangeMapped_of_effect {k : ℕ} {order : List Place} {m' : Machine} (hk : p+k < 768*1024)
    (hs : Supplied L D p k m) (h : Effect L D p k order m m') : RangeMapped L D p k m m' := by
  have hin : ∀ q, p ≤ q → q < p+k → Entered m'.mem D q := fun q hp hq => entered_iff.mpr (h.range q hp hq)
  have hkept : ∀ {x : Place}, entryAt m.mem D x ≠ 0#32 → x ∉ order := fun hne hx =>
    hne (missing_empty ((h.places _).mp hx))
  rw [Supplied, ← order_length h.nodup h.places] at hs
  refine ⟨h.directory,fun q hp hq => ?_,fun q hp hq => ?_,fun i hi => h.slots i (hkept hi),
    fun q hq hne => h.pages q hq (hkept hne),fun q hq hout => ?_,
    ⟨order,h.nodup,h.places,h.entries,supply_distinct _ _ fun a ha => (hs a ha).1,fun a ha => (hs a ha).2,h.phys⟩,
    fun v n hv hlow hhigh => ?_⟩
  · exact (h.directory.slots _ (by omega)).resolve_left (hin q hp hq).1
  · exact (h.directory.entries q (by omega)).resolve_left (h.range q hp hq)
  · apply h.pages q hq
    intro hx
    exact hout (mem_missing_page.mp ((h.places _).mp hx)).1
  · apply mmap_eq_loop L hv (by omega)
    exact mmapLoop_entered L _ h.directory (by omega) fun q hq hlt => hin q (by omega) (by omega)

/-- While enough frames are left, and none in use is marked available, the calls
return what is asked of them. -/
theorem supply_left (image : KernelImage) (n : ℕ) {s : PhysicalMem} (h : FlagSound image s) (hn : n ≤ left image s) :
    ∀ a ∈ supply image n s, a ≠ null ∧ bit s.bitmap (frameOf a) = true := by
  induction n generalizing s with
  | zero => simp [supply]
  | succ n ih =>
    obtain ⟨f,hf,ha,hgrant,hleft⟩ := allocate_left h (by omega)
    intro a hin
    rw [supply, List.mem_cons] at hin
    rcases hin with rfl | hin
    · rw [ha, frameOf_frameAddress hf]
      refine ⟨fun he => ?_,hgrant.2.1⟩
      have hzero := congrArg frameOf he
      rw [frameOf_frameAddress hf, show frameOf null = 0 by decide] at hzero
      have := hgrant.1
      omega
    · obtain ⟨hne,hbit⟩ := ih (allocate_flagSound h) (by omega) a hin
      refine ⟨hne,?_⟩
      rw [granted_bit hgrant, Bool.and_eq_true] at hbit
      exact hbit.2

theorem supplied_of_left {k : ℕ} (h : FlagSound L.toKernelImage m.phys)
    (hk : demand m.mem D p k ≤ left L.toKernelImage m.phys)
    (hbit : ∀ g, InUse m.mem D g → bit m.phys.bitmap g = false) : Supplied L D p k m := by
  intro a ha
  obtain ⟨hne,hset⟩ := supply_left L.toKernelImage _ h hk a ha
  refine ⟨hne,fun hin => ?_⟩
  rw [hbit _ hin] at hset
  cases hset

theorem mmap_effect (L : Layout) (D : ℕ) (m : Machine) (v n : Word) (h : UserDirectory m D)
    (hv : v.toNat%4096 = 0) (hn : v.toNat+n.toNat*4096 < 0xC0000000)
    (hs : Supplied L D (v.toNat/4096) n.toNat m) :
    ∃ m', mmap L v n m = .ok (.success, m') ∧ RangeMapped L D (v.toNat/4096) n.toNat m m' := by
  obtain ⟨order,m',hrun,heffect⟩ := mmapLoop_effect L n.toNat h (by omega) hs
  exact ⟨m',mmap_eq_loop L hv hn hrun,rangeMapped_of_effect (by omega) hs heffect⟩

end

def bareMachine : Machine :=
  ⟨Function.update (fun _ _ => 0#32) 0x113 (Function.update (fun _ => 0#32) 1023 (entry 0x113 3)),
    frameAddress 0x113, fun _ => 0#8, KernelHeapRuns.plenty, []⟩

theorem bareMachine_slot {i : ℕ} (hi : i < 1023) : bareMachine.mem 0x113 i = 0#32 := by
  change Function.update (fun _ _ => 0#32) 0x113 (Function.update (fun _ => 0#32) 1023 (entry 0x113 3)) 0x113 i = 0#32
  rw [Function.update_self, Function.update_of_ne (by omega)]

theorem bareMachine_set {i : ℕ} (hi : i < 1024) (h0 : bareMachine.mem 0x113 i ≠ 0#32) : i = 1023 := by
  by_contra hne
  exact h0 (bareMachine_slot (by omega))

theorem bareMachine_page {q : ℕ} (hq : q < 768*1024) : pageEntry bareMachine.mem 0x113 q = 0#32 :=
  if_pos (bareMachine_slot (by omega))

theorem bareMachine_directory : UserDirectory bareMachine 0x113 := by
  refine ⟨⟨by decide,by decide,by decide⟩,fun i hi => Or.inl (bareMachine_slot (by omega)),
    fun q hq => Or.inl (bareMachine_page hq),fun i hi j hj hij h0 h0' => ?_⟩
  exact absurd ((bareMachine_set hi h0).trans (bareMachine_set hj h0').symm) hij

def usedMem : Frames := fun g i =>
  if g = 0x113 then if i = 1023 then entry 0x113 3 else if i = 256 then entry 0x114 7 else 0#32
  else if g = 0x114 ∧ i = 1023 then entry 0x115 7 else 0#32

def usedMachine : Machine := { bareMachine with mem := usedMem }

theorem usedMem_slot {i : ℕ} (h0 : usedMem 0x113 i ≠ 0#32) : i = 1023 ∨ i = 256 := by
  by_contra hne
  rw [not_or] at hne
  exact h0 (by rw [usedMem, if_pos rfl, if_neg hne.1, if_neg hne.2])

theorem usedMem_page {q : ℕ} (hq : q < 768*1024) (h0 : pageEntry usedMem 0x113 q ≠ 0#32) : q = 0x403FF := by
  rw [pageEntry] at h0
  split at h0
  · exact absurd rfl h0
  · rename_i hslot
    have hindex : q/1024 = 256 := (usedMem_slot hslot).resolve_left (by omega)
    rw [hindex, show frameOf (usedMem 0x113 256) = 0x114 by decide, usedMem, if_neg (by omega)] at h0
    by_contra hne
    exact h0 (if_neg (by omega))

theorem usedMachine_directory : UserDirectory usedMachine 0x113 := by
  refine ⟨⟨by decide,by decide,by decide⟩,fun i hi => ?_,fun q hq => ?_,fun i hi j hj hij h0 h0' => ?_⟩
  · by_cases h0 : usedMem 0x113 i = 0#32
    · exact Or.inl h0
    · obtain rfl : i = 256 := (usedMem_slot h0).resolve_left (by omega)
      exact Or.inr (by decide)
  · by_cases h0 : pageEntry usedMem 0x113 q = 0#32
    · exact Or.inl h0
    · rw [usedMem_page hq h0]
      exact Or.inr (by decide)
  · obtain rfl | rfl := usedMem_slot h0 <;> obtain rfl | rfl := usedMem_slot h0'
    · exact absurd rfl hij
    · decide
    · decide
    · exact absurd rfl hij

theorem usedMachine_inUse {g : ℕ} (h : InUse usedMem 0x113 g) : g < 512 := by
  rcases h with ⟨i,-,h0,rfl⟩ | ⟨q,hq,h0,rfl⟩
  · obtain rfl | rfl := usedMem_slot h0 <;> decide
  · rw [usedMem_page hq h0]
    decide

theorem usedMachine_supplied :
    Supplied Teardown.smallLayout 0x113 ((0x403FE000#32).toNat/4096) (3#32).toNat usedMachine := by
  refine supplied_of_left (fun hflag => by cases hflag) ((demand_le _ _ _ _).trans ?_) fun g hg =>
    Teardown.plenty_low (usedMachine_inUse hg)
  -- six of the frames that are left
  have hsix : Finset.Icc 512 517 ⊆ (Finset.Ico (firstPage Teardown.smallLayout.toKernelImage) frameCount).filter
      fun q => bit KernelHeapRuns.plenty.bitmap q = true := by
    intro q hq
    have hfree : ∀ j < 6, bit KernelHeapRuns.plenty.bitmap (512+j) = true := by decide
    have hfirst : firstPage Teardown.smallLayout.toKernelImage = 512 := by decide
    obtain ⟨hlo,hhi⟩ := Finset.mem_Icc.mp hq
    have hbit := hfree (q-512) (by omega)
    rw [Nat.add_sub_cancel' hlo] at hbit
    rw [Finset.mem_filter, Finset.mem_Ico, hfirst]
    exact ⟨⟨hlo,by rw [frameCount]; omega⟩,hbit⟩
  exact Finset.card_le_card hsix

/-- Three pages, of which the second one is there, at the border of two tables. -/
theorem split_range_effect : ∃ m', mmap Teardown.smallLayout 0x403FE000#32 3#32 usedMachine = .ok (.success, m') ∧
    RangeMapped Teardown.smallLayout 0x113 ((0x403FE000#32).toNat/4096) (3#32).toNat usedMachine m' :=
  mmap_effect Teardown.smallLayout 0x113 usedMachine 0x403FE000#32 3#32 usedMachine_directory (by decide) (by decide)
    usedMachine_supplied

end MikeOS.MmapEffect
