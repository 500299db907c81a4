import MikeOS.PageTables
import MikeOS.FrameAllocator

/-!
# The machine the kernel starts with

The early paging code fills in the static tables while paging is still off,
`kheap_init` enters the heap's table through the last entry of the directory.
The static tables are zero in the image; all other memory holds what it held.
-/

set_option autoImplicit false

namespace MikeOS.Boot
open BitArray MikeOS.Paging MikeOS.PhysicalMemory MikeOS.KernelHeap MikeOS.Mmu MikeOS.VirtualMemory
open MikeOS.PageTables MikeOS.FrameAllocator

/-- The section `.tables` as the loader leaves it. -/
def loadTables (L : Layout) (ram : Frames) : Frames :=
  setFrame (setFrame (setFrame (setFrame ram L.kernelPageTables fun _ => 0#32)
    (L.kernelPageTables+1) fun _ => 0#32) L.kheapPageTables fun _ => 0#32) L.initPageDirectory fun _ => 0#32

/-- One round of the inner loop: `current_page` is stored in entry `j`, the
attributes are set there, and `current_page` moves on. -/
def fillEntry (currentPgt : ℕ) (s : Frames × Word) (j : ℕ) : Frames × Word :=
  let mem := setWord s.1 currentPgt j s.2
  (setWord mem currentPgt j (mem currentPgt j ||| 3#32), s.2+pageSize)

def fillTable (L : Layout) (s : Frames × Word) (i : ℕ) : Frames × Word :=
  (List.range pageTableSize).foldl (fillEntry (L.kernelPageTables+i)) s

def createKernelPageTables (L : Layout) (mem : Frames) : Frames :=
  ((List.range numKernelPageTables).foldl (fillTable L) (mem, 0#32)).1

def enter (L : Layout) (mem : Frames) (i f : ℕ) : Frames :=
  setWord mem L.initPageDirectory i (editEntryAttributes (frameAddress f) kernelAttributes)

def mapLowerMem (L : Layout) (mem : Frames) : Frames :=
  (List.range numKernelPageTables).foldl (fun mem i => enter L mem i (L.kernelPageTables+i)) mem

def mapKernelMemory (L : Layout) (mem : Frames) : Frames :=
  (List.range' kernelPgdEntryIndex numKernelPageTables).foldl (fun mem i =>
    enter L mem i (L.kernelPageTables+(i-kernelPgdEntryIndex))) mem

def initRecursivePageDirectory (L : Layout) (mem : Frames) : Frames :=
  enter L mem 1023 L.initPageDirectory

def pagingInit (L : Layout) (mem : Frames) : Frames :=
  initRecursivePageDirectory L (mapKernelMemory L (mapLowerMem L (createKernelPageTables L mem)))

/-- The first half of `kheap_init` with paging on, then the heap's bitmap. -/
def start (L : Layout) (ram : Frames) (phys : PhysicalMem) : Except Stop Machine := do
  let mem := pagingInit L (loadTables L ram)
  let m ← mapKheapToPgd L recursivePgtAddress
    ⟨mem, frameAddress L.initPageDirectory, fun _ => 0#8, phys, []⟩
  return { m with heapBitmap := (kheapInit (Kheap.boot phys)).bitmap }

/-! ## What it looks like -/

def bootDirectory (L : Layout) : ℕ → Word :=
  Function.update (Function.update (Function.update (Function.update (Function.update (Function.update
    (fun _ => 0#32) 0 (entry L.kernelPageTables 3)) 1 (entry (L.kernelPageTables+1) 3))
    768 (entry L.kernelPageTables 3)) 769 (entry (L.kernelPageTables+1) 3))
    1023 (entry L.initPageDirectory 3)) 770 (entry L.kheapPageTables 3)

structure Started (L : Layout) (phys : PhysicalMem) (m : Machine) : Prop where
  cr3 : m.cr3 = frameAddress L.initPageDirectory
  directory : m.mem L.initPageDirectory = bootDirectory L
  heapTable : m.mem L.kheapPageTables = fun _ => 0#32
  kernelTables : ∀ i, i < 2 → ∀ j, j < 1024 → m.mem (L.kernelPageTables+i) j = entry (1024*i+j) 3
  heapBitmap : m.heapBitmap = (kheapInit (Kheap.boot phys)).bitmap
  phys_eq : m.phys = phys
  grants : m.grants = []

theorem static_lt (L : Layout) {f : ℕ}
    (h : f ∈ [L.kernelPageTables, L.kernelPageTables+1, L.kheapPageTables, L.initPageDirectory]) :
    f < 2^20 := by
  have := (L.placed f h).2
  have := L.kernelEnd.isLt
  omega

theorem static_ne (L : Layout) : L.kernelPageTables ≠ L.kheapPageTables ∧
    L.kernelPageTables ≠ L.initPageDirectory ∧ L.kernelPageTables+1 ≠ L.kheapPageTables ∧
    L.kernelPageTables+1 ≠ L.initPageDirectory ∧ L.kheapPageTables ≠ L.initPageDirectory := by
  have h := L.distinct
  simp only [List.nodup_cons, List.mem_cons, List.not_mem_nil, or_false, not_or] at h
  tauto

theorem enter_setFrame (L : Layout) (mem : Frames) (words : ℕ → Word) (i : ℕ) {f : ℕ} (hf : f < 2^20) :
    enter L (setFrame mem L.initPageDirectory words) i f =
      setFrame mem L.initPageDirectory (Function.update words i (entry f 3)) := by
  rw [enter, kernelAttributes_eq, frameAddress_or hf (by omega)]
  simp [setWord, setFrame]

/-! ## The loops of `create_kernel_page_tables` -/

/-- Entries `0` to `n` of table `t` hold the pages from `k` on, `current_page` is the
page behind them, and nothing else has changed. -/
structure Filled (mem : Frames) (t k n : ℕ) (s : Frames × Word) : Prop where
  page : s.2 = frameAddress (k+n)
  entries : ∀ j, j < n → s.1 t j = entry (k+j) 3
  rest : ∀ j, n ≤ j → s.1 t j = mem t j
  frame : ∀ g, g ≠ t → s.1 g = mem g

theorem next_frameAddress (f : ℕ) : frameAddress f+pageSize = frameAddress (f+1) := by
  rw [pageSize_eq, frameAddress, frameAddress]
  apply BitVec.eq_of_toNat_eq
  simp only [BitVec.toNat_add, BitVec.toNat_ofNat]
  omega

theorem fillEntry_filled {mem : Frames} {t k n : ℕ} {s : Frames × Word} (h : Filled mem t k n s) (hk : k+n < 2^20) :
    Filled mem t k (n+1) (fillEntry t s n) := by
  have hself : (fillEntry t s n).1 t n = entry (k+n) 3 := by
    rw [fillEntry]
    change setWord _ t n (setWord s.1 t n s.2 t n ||| 3#32) t n = _
    rw [setWord_self, setWord_self, h.page]
    exact frameAddress_or hk (by omega)
  have hother : ∀ j, j ≠ n → (fillEntry t s n).1 t j = s.1 t j := fun j hj =>
    (setWord_index _ _ _ hj).trans (setWord_index _ _ _ hj)
  refine ⟨?_,fun j hj => ?_,fun j hj => ?_,fun g hg => ?_⟩
  · change s.2+pageSize = _
    rw [h.page, next_frameAddress, Nat.add_assoc]
  · by_cases hjn : j = n
    · rw [hjn, hself]
    · rw [hother j hjn, h.entries j (by omega)]
  · rw [hother j (by omega), h.rest j (by omega)]
  · exact ((setWord_frame _ _ _ hg).trans (setWord_frame _ _ _ hg)).trans (h.frame g hg)

/-- The inner loop, by induction on its rounds. -/
theorem fill_filled (mem : Frames) (t k n : ℕ) (hk : k+n ≤ 2^20) :
    Filled mem t k n ((List.range n).foldl (fillEntry t) (mem, frameAddress k)) := by
  induction n with
  | zero => exact ⟨rfl,fun j hj => by omega,fun _ _ => rfl,fun _ _ => rfl⟩
  | succ n ih =>
    rw [List.range_succ, List.foldl_append]
    exact fillEntry_filled (ih (by omega)) (by omega)

theorem numKernelPageTables_eq : numKernelPageTables = 2 := rfl

structure TablesFilled (L : Layout) (mem : Frames) (n : ℕ) (s : Frames × Word) : Prop where
  page : s.2 = frameAddress (1024*n)
  entries : ∀ i, i < n → ∀ j, j < 1024 → s.1 (L.kernelPageTables+i) j = entry (1024*i+j) 3
  frame : ∀ g, (∀ i, i < n → g ≠ L.kernelPageTables+i) → s.1 g = mem g

theorem fillTable_filled {L : Layout} {mem : Frames} {n : ℕ} {s : Frames × Word} (h : TablesFilled L mem n s)
    (hn : n < 1024) : TablesFilled L mem (n+1) (fillTable L s n) := by
  have hfill := fill_filled s.1 (L.kernelPageTables+n) (1024*n) pageTableSize (by rw [pageTableSize]; omega)
  rw [← h.page, ← fillTable, pageTableSize] at hfill
  refine ⟨?_,fun i hi j hj => ?_,fun g hg => ?_⟩
  · rw [hfill.page]
    rfl
  · by_cases hin : i = n
    · rw [hin, hfill.entries j hj]
    · rw [hfill.frame _ (by omega), h.entries i (by omega) j hj]
  · rw [hfill.frame g (hg n (by omega)), h.frame g fun i hi => hg i (by omega)]

/-- The outer loop, by induction on the tables. -/
theorem tables_filled (L : Layout) (mem : Frames) (n : ℕ) (hn : n ≤ 1024) :
    TablesFilled L mem n ((List.range n).foldl (fillTable L) (mem, 0#32)) := by
  induction n with
  | zero =>
    rw [List.range_zero, List.foldl_nil]
    exact ⟨rfl,fun i hi => by omega,fun _ _ => rfl⟩
  | succ n ih =>
    rw [List.range_succ, List.foldl_append, List.foldl_cons, List.foldl_nil]
    exact fillTable_filled (ih (by omega)) (by omega)

theorem tables_kernel (L : Layout) (mem : Frames) {i j : ℕ} (hi : i < 2) (hj : j < 1024) :
    createKernelPageTables L mem (L.kernelPageTables+i) j = entry (1024*i+j) 3 := by
  rw [createKernelPageTables, numKernelPageTables_eq]
  exact (tables_filled L mem 2 (by omega)).entries i hi j hj

theorem tables_frame (L : Layout) (mem : Frames) {g : ℕ} (h0 : g ≠ L.kernelPageTables) (h1 : g ≠ L.kernelPageTables+1) :
    createKernelPageTables L mem g = mem g := by
  rw [createKernelPageTables, numKernelPageTables_eq]
  refine (tables_filled L mem 2 (by omega)).frame g fun i hi => ?_
  rcases (show i = 0 ∨ i = 1 by omega) with rfl | rfl
  · exact h0
  · exact h1

theorem tables_directory (L : Layout) (ram : Frames) :
    createKernelPageTables L (loadTables L ram) L.initPageDirectory = fun _ => 0#32 := by
  obtain ⟨-,h₁,-,h₂,-⟩ := static_ne L
  rw [tables_frame L _ (Ne.symm h₁) (Ne.symm h₂), loadTables, setFrame_self]

theorem tables_heap (L : Layout) (ram : Frames) :
    createKernelPageTables L (loadTables L ram) L.kheapPageTables = fun _ => 0#32 := by
  obtain ⟨h₁,-,h₂,-,h₃⟩ := static_ne L
  rw [tables_frame L _ (Ne.symm h₁) (Ne.symm h₂), loadTables, setFrame_frame _ _ h₃, setFrame_self]

/-! ## The loops over the directory -/

def kernelSlots (L : Layout) (a n : ℕ) (words : ℕ → Word) (i : ℕ) : Word :=
  if a ≤ i ∧ i < a+n then entry (L.kernelPageTables+(i-a)) 3 else words i

theorem kernelSlots_zero (L : Layout) (a : ℕ) (words : ℕ → Word) : kernelSlots L a 0 words = words := by
  funext i
  rw [kernelSlots, if_neg (by omega)]

theorem kernelSlots_succ (L : Layout) (a n : ℕ) (words : ℕ → Word) :
    Function.update (kernelSlots L a n words) (a+n) (entry (L.kernelPageTables+n) 3) = kernelSlots L a (n+1) words := by
  funext i
  by_cases hi : i = a+n
  · rw [hi, Function.update_self, kernelSlots, if_pos (by omega), Nat.add_sub_cancel_left]
  · rw [Function.update_of_ne hi, kernelSlots, kernelSlots]
    by_cases hin : a ≤ i ∧ i < a+n
    · rw [if_pos hin, if_pos (by omega)]
    · rw [if_neg hin, if_neg (by omega)]

theorem kernelSlots_two (L : Layout) (a : ℕ) (words : ℕ → Word) : kernelSlots L a 2 words =
    Function.update (Function.update words a (entry L.kernelPageTables 3)) (a+1) (entry (L.kernelPageTables+1) 3) := by
  rw [← kernelSlots_succ, ← kernelSlots_succ, kernelSlots_zero]
  rfl

theorem kernelTable_lt (L : Layout) {i : ℕ} (hi : i < 2) : L.kernelPageTables+i < 2^20 := by
  rcases (show i = 0 ∨ i = 1 by omega) with rfl | rfl
  · exact static_lt L (by simp)
  · exact static_lt L (by simp)

/-- Both loops over the directory, by induction on their rounds. -/
theorem enter_range (L : Layout) (mem : Frames) (words : ℕ → Word) (a : ℕ) {n : ℕ} (hn : n ≤ 2) :
    (List.range' a n).foldl (fun mem i => enter L mem i (L.kernelPageTables+(i-a)))
        (setFrame mem L.initPageDirectory words) =
      setFrame mem L.initPageDirectory (kernelSlots L a n words) := by
  induction n with
  | zero =>
    rw [kernelSlots_zero]
    rfl
  | succ n ih =>
    rw [List.range'_1_concat, List.foldl_append, ih (by omega), List.foldl_cons, List.foldl_nil,
      Nat.add_sub_cancel_left, enter_setFrame L _ _ _ (kernelTable_lt L (by omega)), kernelSlots_succ]

theorem pagingInit_eq (L : Layout) (ram : Frames) :
    pagingInit L (loadTables L ram) = setFrame (createKernelPageTables L (loadTables L ram))
      L.initPageDirectory (Function.update (Function.update (Function.update (Function.update
        (Function.update (fun _ => 0#32) 0 (entry L.kernelPageTables 3)) 1 (entry (L.kernelPageTables+1) 3))
        768 (entry L.kernelPageTables 3)) 769 (entry (L.kernelPageTables+1) 3))
        1023 (entry L.initPageDirectory 3)) := by
  obtain ⟨mem,hmem⟩ : ∃ mem, mem = createKernelPageTables L (loadTables L ram) := ⟨_,rfl⟩
  have hself : mem = setFrame mem L.initPageDirectory fun _ => 0#32 := by
    rw [setFrame, ← tables_directory L ram, ← hmem, Function.update_eq_self]
  have hlow := enter_range L mem (fun _ => 0#32) 0 (n := 2) (by omega)
  rw [← hself, ← List.range_eq_range'] at hlow
  simp only [Nat.sub_zero] at hlow
  rw [pagingInit, ← hmem, mapLowerMem, numKernelPageTables_eq, hlow, mapKernelMemory, numKernelPageTables_eq,
    enter_range L mem _ _ (by omega), initRecursivePageDirectory, enter_setFrame L _ _ _ (static_lt L (by simp)),
    kernelSlots_two, kernelSlots_two]
  rfl

theorem start_ok (L : Layout) (ram : Frames) (phys : PhysicalMem) :
    ∃ m, start L ram phys = .ok m ∧ Started L phys m := by
  obtain ⟨-,hk0,-,hk1,hHD⟩ := static_ne L
  have hD : L.initPageDirectory < 2^20 := static_lt L (by simp)
  have hH : L.kheapPageTables < 2^20 := static_lt L (by simp)
  obtain ⟨m,hm⟩ : ∃ m : Machine, m = ⟨pagingInit L (loadTables L ram), frameAddress L.initPageDirectory,
    fun _ => 0#8, phys, []⟩ := ⟨_,rfl⟩
  have hmem : m.mem = pagingInit L (loadTables L ram) := by rw [hm]
  have hcur : Current m L.initPageDirectory := by
    refine ⟨by rw [hm]; exact frameOf_frameAddress hD,hD,?_⟩
    rw [hmem, pagingInit_eq, setFrame_self, Function.update_self]
  have hptr := directoryPtr (i := 770) (by omega)
  have hwrite : writeEntry (entryPtr recursivePgtAddress 770) (frameAddress L.kheapPageTables)
      kernelAttributes m = .ok (m.withMem (setWord m.mem L.initPageDirectory 770
        (entry L.kheapPageTables 3))) := by
    have hc := current_setWord hcur (f := L.initPageDirectory) (i := 770) (frameAddress L.kheapPageTables)
      (Or.inr (by omega))
    rw [kernelAttributes_eq, writeEntry_ok hH (by omega) (walk_directory hcur hptr.1), hptr.2]
    rw [hptr.2]
    exact walk_directory hc hptr.1
  have hmap : mapKheapToPgd L recursivePgtAddress m = .ok (m.withMem (setWord m.mem L.initPageDirectory 770
      (entry L.kheapPageTables 3))) := by
    rw [mapKheapToPgd, if_neg (by decide), show kheapPgdEntry = 770 by decide, hwrite]
  refine ⟨_,by rw [start]; simp only [← hm]; rw [hmap, ok_bind]; rfl,?_⟩
  refine ⟨by rw [hm]; rfl,?_,?_,fun i hi j hj => ?_,rfl,by rw [hm]; rfl,by rw [hm]; rfl⟩
  · change setWord m.mem L.initPageDirectory 770 _ L.initPageDirectory = _
    rw [hmem, pagingInit_eq, setWord, Function.update_self, setFrame_self]
    rfl
  · change setWord m.mem L.initPageDirectory 770 _ L.kheapPageTables = _
    rw [setWord_frame _ _ _ hHD, hmem, pagingInit_eq, setFrame_frame _ _ hHD, tables_heap]
  · have hne : L.kernelPageTables+i ≠ L.initPageDirectory := by
      rcases (show i = 0 ∨ i = 1 by omega) with rfl | rfl
      · exact hk0
      · exact hk1
    change setWord m.mem L.initPageDirectory 770 _ (L.kernelPageTables+i) j = _
    rw [setWord_frame _ _ _ hne, hmem, pagingInit_eq, setFrame_frame _ _ hne, tables_kernel L _ hi hj]

end MikeOS.Boot
