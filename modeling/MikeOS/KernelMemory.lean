import MikeOS.KernelRuns

/-!
# The kernel's own memory

The pages of the heap that the kernel took have frames of their own. A byte that
is stored there is what every address space reads until the next store at the
same address, whatever user code stores, whatever address spaces and pages are
made, and whatever else the kernel stores in between.
-/

set_option autoImplicit false

namespace MikeOS.KernelMemory
open MikeOS.Memory MikeOS.Paging MikeOS.PhysicalMemory MikeOS.KernelHeap MikeOS.Mmu MikeOS.VirtualMemory
open MikeOS.PageTables MikeOS.PageDirectory MikeOS.Boot MikeOS.Ownership MikeOS.FrameDemand MikeOS.KernelMain
open MikeOS.Ramdisk
open MikeOS.AddressSpaces (State directories)
open MikeOS.SpaceRuns (view)
open MikeOS.Teardown (smallLayout)
open MikeOS.KernelHeapRuns (Range windowBase)

def Reads (L : Layout) (a : Word) (b : Byte) : State → Prop
  | .undefined => False
  | .running m live => ∀ D ∈ directories L live, loadByte a (KernelHalf.inSpace m D) = .ok b

/-- The kernel owns the page of `a`, and the frame behind it holds `b`. -/
structure Stored (L : Layout) (d : Disk) (a : Word) (b : Byte) (m : Machine) (live : List Vas) : Prop where
  window : windowBase ≤ a.toNat
  own : OwnPage d m live (pageOf a)
  byte : ∀ g, g < 2^20 → m.mem L.kheapPageTables (pageOf a) = entry g 3 →
    Words.byteOf (m.mem g (wordIndex a)) (a.toNat%4) = b

def StoredIn (L : Layout) (d : Disk) (a : Word) (b : Byte) : State → Prop
  | .undefined => False
  | .running m live => Stored L d a b m live

section
variable {L : Layout} {d : Disk} {words : Frames} {dirs dirs' : List ℕ} {ranges : List Range} {m m' : Machine}
  {live live' : List Vas} {written : Option ℕ} {a : Word} {b : Byte}

theorem reads_of_stored (h : Carried L d words dirs ranges m live) (hs : Stored L d a b m live) :
    Reads L a b (.running m live) := by
  intro D hD
  obtain ⟨g,he,hu,-⟩ := h.own _ hs.own
  have hw := walk_inSpace h.kept.running (AddressSpaces.directories_known h.kept hD) hs.own.1 hu.lt
    (Nat.mod_lt a.toNat (show 4096 > 0 by omega)) he
  rw [← pageOf_address hs.window] at hw
  rw [loadByte, hw, ok_bind]
  exact congrArg Except.ok (hs.byte g hu.lt he)

/-- A step that does not write the frame of the page. -/
theorem stored_moves (h : Carried L d words dirs ranges m live) (hs : Stored L d a b m live)
    (hm : Moves L d written dirs dirs' m m' live live')
    (hw : ∀ g, m.mem L.kheapPageTables (pageOf a) = entry g 3 → Unheld L m.mem dirs m.phys g → written ≠ some g) :
    Stored L d a b m' live' := by
  obtain ⟨hlt,hbit,hdir,hdisk⟩ := hs.own
  obtain ⟨hentry,hbit',hdir'⟩ := hm.pages _ hlt hbit hdir
  obtain ⟨f,he,hu,-⟩ := h.own _ hs.own
  refine ⟨hs.window,⟨hlt,hbit',hdir',hdisk⟩,fun g hg hge => ?_⟩
  rw [hentry] at hge
  obtain rfl : f = g := entry_inj hu.lt hg (by omega) (he.symm.trans hge)
  rw [hm.content f hu (hw f he hu)]
  exact hs.byte f hg he

/-- Two addresses in one page agree in word and byte only when they are the same. -/
theorem address_eq {a a' : Word} (ha : windowBase ≤ a.toNat) (ha' : windowBase ≤ a'.toNat) (hp : pageOf a = pageOf a')
    (hw : wordIndex a = wordIndex a') (hb : a.toNat%4 = a'.toNat%4) : a = a' := by
  apply BitVec.eq_of_toNat_eq
  unfold pageOf wordIndex windowBase at *
  omega

theorem byte_storedRow (row : Machine) (g : ℕ) {a' : Word} {c : Byte}
    (hne : ¬ (wordIndex a = wordIndex a' ∧ a.toNat%4 = a'.toNat%4)) :
    Words.byteOf (storedRow row g a' c (wordIndex a)) (a.toNat%4) =
      Words.byteOf (row.mem g (wordIndex a)) (a.toNat%4) := by
  rw [storedRow]
  by_cases hw : wordIndex a = wordIndex a'
  · rw [hw, Function.update_self]
    exact Words.byteOf_setByte_ne _ c (by omega) fun he => hne ⟨hw,he⟩
  · rw [Function.update_of_ne hw]

theorem stored_other (hs : Stored L d a b m live) {a' : Word} {c : Byte}
    {g : ℕ} (ha' : windowBase ≤ a'.toNat) (hne : a ≠ a') (hp : pageOf a' = pageOf a)
    (he : m.mem L.kheapPageTables (pageOf a') = entry g 3) (hu : Unheld L m.mem dirs m.phys g) :
    Stored L d a b (m.withMem (setFrame m.mem g (storedRow m g a' c))) live := by
  have hH : L.kheapPageTables ≠ g := fun heq => hu.fixed (heq ▸ heap_reserved L)
  refine ⟨hs.window,hs.own,fun f hf hfe => ?_⟩
  rw [withMem_mem, setFrame_frame _ _ hH, ← hp, he] at hfe
  obtain rfl : g = f := entry_inj hu.lt hf (by omega) hfe
  rw [withMem_mem, setFrame_self, byte_storedRow m g fun hb => hne (address_eq hs.window ha' hp.symm hb.1 hb.2)]
  exact hs.byte g hf (hp ▸ he)

theorem stored_self {g : ℕ} (ha : windowBase ≤ a.toNat)
    (hp : OwnPage d m live (pageOf a)) (he : m.mem L.kheapPageTables (pageOf a) = entry g 3)
    (hu : Unheld L m.mem dirs m.phys g) :
    Stored L d a b (m.withMem (setFrame m.mem g (storedRow m g a b))) live := by
  have hH : L.kheapPageTables ≠ g := fun heq => hu.fixed (heq ▸ heap_reserved L)
  refine ⟨ha,hp,fun f hf hfe => ?_⟩
  rw [withMem_mem, setFrame_frame _ _ hH, he] at hfe
  obtain rfl : g = f := entry_inj hu.lt hf (by omega) hfe
  rw [withMem_mem, setFrame_self, storedRow, Function.update_self]
  exact Words.byteOf_setByte _ b (by omega)

theorem step_stored {op : Op} {t : State} (h : Carried L d words dirs ranges m live) (hs : Stored L d a b m live)
    (hne : ∀ c, op ≠ .kernel a c) (hg : Lasts L (.running m live) op) (ht : step L d (.running m live) op = some t) :
    StoredIn L d a b t := by
  obtain ⟨m',live',written,rfl,⟨dirs',ranges',-,hm⟩,hw⟩ := step_cases h hg ht
  cases op with
  | space op =>
    exact stored_moves h hs hm fun g _ _ => by
      rw [show written = none from hw]
      simp
  | user a' c =>
    obtain ⟨f,r,rfl,hf⟩ := hw
    exact stored_moves h hs hm fun g _ hu he => hu.free r (Option.some.inj he ▸ hf)
  | kernel a' c =>
    obtain ⟨g,rfl,⟨ha',hown⟩,he,hu,-,rfl,rfl⟩ := hw
    by_cases hp : pageOf a' = pageOf a
    · exact stored_other hs ha' (fun heq => hne c (by rw [heq])) hp he hu
    · refine stored_moves h hs hm fun f hfe _ heq => hp (h.apart _ _ hown hs.own ?_)
      rw [he, hfe, Option.some.inj heq]

theorem store_step {t : State} (h : Carried L d words dirs ranges m live) (hg : Lasts L (.running m live) (.kernel a b))
    (ht : step L d (.running m live) (.kernel a b) = some t) : StoredIn L d a b t := by
  obtain ⟨m',live',written,rfl,-,g,-,⟨ha,hown⟩,he,hu,-,rfl,rfl⟩ := step_cases h hg ht
  exact stored_self ha hown he hu

theorem reads_of_inv (s : State) (h : Inv L d words s ∧ StoredIn L d a b s) : Reads L a b s := by
  cases s with
  | undefined => exact h.1
  | running m live =>
    obtain ⟨⟨dirs,ranges,hc⟩,hs⟩ := h
    exact reads_of_stored hc hs

end

section
variable {L : Layout} {d : Disk} {words : Frames} {fuel : ℕ} {a : Word} {b : Byte} {s t : SpaceRecords.State}

structure Kept (L : Layout) (d : Disk) (words : Frames) (a : Word) (b : Byte) (s : SpaceRecords.State) : Prop where
  inv : KernelRuns.Inv L d words s
  stored : StoredIn L d a b (view s)

theorem space_stored (s : State) (op : AddressSpaces.Op) (t : State) (h : Inv L d words s ∧ StoredIn L d a b s)
    (hg : AddressSpaces.Spare L s op) (ht : AddressSpaces.step L s op = some t) :
    Inv L d words t ∧ StoredIn L d a b t := by
  refine ⟨step_inv s (.space op) t h.1 hg ht,?_⟩
  cases s with
  | undefined => exact h.1.elim
  | running m live =>
    obtain ⟨⟨dirs,ranges,hc⟩,hs⟩ := h
    have hne : ∀ c, Op.space op ≠ .kernel a c := by simp
    exact step_stored hc hs hne hg ht

theorem store_stored {k : SpaceRecords.Kernel} {live : List Word} {op : Op}
    (h : Kept L d words a b (.running k live)) (hne : ∀ c, op ≠ .kernel a c)
    (hg : Lasts L (view (.running k live)) op) (ht : step L d (view (.running k live)) op = some (view t)) :
    StoredIn L d a b (view t) := by
  obtain ⟨dirs,ranges,hc⟩ := h.inv.disk
  exact step_stored hc h.stored hne hg ht

theorem kept_step (s : SpaceRecords.State) (op : KernelRuns.Op) (t : SpaceRecords.State) (h : Kept L d words a b s)
    (hg : KernelRuns.Lasts L s op ∧ ∀ c, op ≠ .kernel a c) (ht : KernelRuns.step L d fuel s op = some t) :
    Kept L d words a b t := by
  refine ⟨KernelRuns.step_inv s op t h.inv hg.1 ht,?_⟩
  cases s with
  | undefined => exact h.inv.spaces.elim
  | running k live =>
    cases op with
    | call op =>
      exact (KernelRuns.matched_keeps space_stored (SpaceRuns.step_matched h.inv.spaces hg.1 ht)
        ⟨h.inv.disk,h.stored⟩).2
    | user a' c =>
      rw [KernelRuns.step] at ht
      split at ht
      · rename_i hok
        have hne : ∀ c', Op.user a' c ≠ .kernel a c' := by simp
        refine store_stored h hne trivial ?_
        rw [view, step, if_pos hok]
        exact KernelRuns.stored_view ht
      · cases ht
    | kernel a' c =>
      rw [KernelRuns.step] at ht
      split at ht
      · rename_i hok
        have hne : ∀ c', Op.kernel a' c ≠ .kernel a c' := fun c' he => by
          cases he
          exact hg.2 c rfl
        refine store_stored h hne trivial ?_
        rw [view, step, if_pos hok.1]
        exact KernelRuns.stored_view ht
      · cases ht

theorem kept_stored (hi : KernelRuns.Inv L d words s) (ht : KernelRuns.step L d fuel s (.kernel a b) = some t) :
    Kept L d words a b t := by
  cases s with
  | undefined => exact hi.spaces.elim
  | running k live =>
    have hl : KernelRuns.Lasts L (.running k live) (.kernel a b) := trivial
    refine ⟨KernelRuns.step_inv _ _ t hi hl ht,?_⟩
    obtain ⟨dirs,ranges,hc⟩ : Inv L d words (view (.running k live)) := hi.disk
    rw [KernelRuns.step] at ht
    split at ht
    · rename_i hok
      have hlasts : Lasts L (.running k.machine (live.map k.record)) (.kernel a b) := trivial
      refine store_step hc hlasts ?_
      rw [step, if_pos hok.1]
      exact KernelRuns.stored_view ht
    · cases ht

end

/-- A byte that the kernel stores in a page of the heap it took is what every
address space reads there, in every state up to the next store at that address. -/
theorem last_store_read (L : Layout) (ram : Frames) (map : Ram) (mapAddr mapLength : Word) (memoryFuel fuel : ℕ)
    (phys : PhysicalMem) (stores : List (Fin 4096 × Byte)) (initialized : Bool) (registerRamdisk : RegisterRamdisk)
    (info : MultibootInfo) (fs : InitrdImage.FileSystem) (m : Machine) (before rest : List KernelRuns.Op) (a : Word)
    (b : Byte) (s t : SpaceRecords.State)
    (hinit : phyMemoryManagerInit L.toKernelImage map mapAddr mapLength memoryFuel = .ok phys)
    (hreg : Registers registerRamdisk info.mods.modStart info.mods.modEnd) (hspared : Spared L phys info)
    (hmain : kmain L ram phys stores initialized registerRamdisk info = .ok (fs, m))
    (hlast : Transition.Guarded (KernelRuns.step L (diskOf info) fuel) (KernelRuns.Lasts L)
      (before ++ .kernel a b::rest) (KernelRuns.booted m))
    (hbefore : Transition.run (KernelRuns.step L (diskOf info) fuel) before (KernelRuns.booted m) = some s)
    (hstore : KernelRuns.step L (diskOf info) fuel s (.kernel a b) = some t)
    (hno : ∀ c, KernelRuns.Op.kernel a c ∉ rest) :
    Transition.Always (KernelRuns.step L (diskOf info) fuel) (fun s => Reads L a b (view s)) rest t := by
  obtain ⟨-,hstart⟩ := KernelRuns.inv_of_kmain hinit hreg hspared hmain
  obtain ⟨hfirst,hrest⟩ := Transition.guarded_append.mp hlast
  have hs := Transition.always_run _ (Transition.always_of_guarded (fun _ h => h) KernelRuns.step_inv hstart hfirst) hbefore
  refine Transition.always_of_guarded (fun s h => reads_of_inv (view s) ⟨h.inv.disk,h.stored⟩) kept_step
    (kept_stored hs hstore) ?_
  exact Transition.guarded_and (hrest s hbefore t hstore).2 fun op hop c he => hno c (he ▸ hop)

/-- The byte outlasts the address space that is made and torn down after it. -/
theorem page_byte_read : ∃ phys m fuel t,
    kmain smallLayout (fun f _ => BitVec.ofNat 32 f) phys oneStore true registerRange onePage =
      .ok (⟨0xC0803000#32, 0xC0804000#32⟩, m) ∧
    Transition.run (KernelRuns.step smallLayout (diskOf onePage) fuel) (KernelRuns.sampleRun.take 2)
      (KernelRuns.booted m) = some t ∧
    Transition.Always (KernelRuns.step smallLayout (diskOf onePage) fuel)
      (fun s => Reads smallLayout 0xC0804010#32 7#8 (view s)) (KernelRuns.sampleRun.drop 2) t := by
  obtain ⟨phys,m,fuel,u,hinit,hspared,hmain,hreach⟩ := KernelRuns.sample_booted fun f _ => BitVec.ofNat 32 f
  obtain ⟨s,hs,-,t,ht,-,-⟩ := id hreach
  have hrun : Transition.run (KernelRuns.step smallLayout (diskOf onePage) fuel) (KernelRuns.sampleRun.take 1)
      (KernelRuns.booted m) = some s := by
    change (KernelRuns.step smallLayout (diskOf onePage) fuel _ _).bind _ = _
    rw [hs]
    rfl
  refine ⟨phys,m,fuel,t,hmain,?_,last_store_read smallLayout _ _ _ _ _ fuel phys _ true registerRange onePage _ m
    (KernelRuns.sampleRun.take 1) (KernelRuns.sampleRun.drop 2) 0xC0804010#32 7#8 s t hinit registerRange_registers
    hspared hmain (Transition.reaches_guarded hreach) hrun ht (by decide)⟩
  change (KernelRuns.step smallLayout (diskOf onePage) fuel _ _).bind _ = _
  rw [hs, Option.bind_some]
  change (KernelRuns.step smallLayout (diskOf onePage) fuel _ _).bind _ = _
  rw [ht]
  rfl

end MikeOS.KernelMemory
