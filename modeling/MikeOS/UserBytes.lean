import MikeOS.FrameDemand

/-!
# Bytes of user pages

The directory in use is not the one of the kernel. A byte that is stored at a
user address is found there again and changes no other byte that a user page
shows, because no two pages share a frame and none is a page table.
-/

set_option autoImplicit false

namespace MikeOS.UserBytes
open MikeOS.Mmu MikeOS.VirtualMemory MikeOS.PageTables MikeOS.Ownership MikeOS.FrameDemand MikeOS.FramePool

structure InSpace (L : Layout) (dirs : List ℕ) (m : Machine) : Prop where
  running : Running L dirs m
  other : frameOf m.cr3 ≠ L.initPageDirectory

section
variable {L : Layout} {dirs : List ℕ} {m : Machine}

theorem user_page (h : InSpace L dirs m) {p : ℕ} (hp : p/1024 < 768)
    (hin : Entered m.mem (frameOf m.cr3) p) :
    ∃ f, Holds m.mem dirs (.page (frameOf m.cr3) (p/1024) (p%1024)) f := by
  have hcur := h.running.current
  rcases h.running.owned.slots _ hcur _ hp with h0 | ⟨he,-⟩ | ⟨t,ht,hent⟩
  · exact absurd h0 hin.1
  · exact absurd he h.other
  · rcases hent (p%1024) (Nat.mod_lt _ (by omega)) with h0 | ⟨f,hf⟩
    · have hne := hin.2
      rw [ht.2.2, frameOf_entry ht.2.1 (by omega)] at hne
      exact absurd h0 hne
    · exact ⟨f,hcur,t,ht,hf⟩

theorem walk_user {m : Machine} {a : Word} {f : ℕ}
    (hf : Holds m.mem dirs (.page (frameOf m.cr3) (a.toNat/4096/1024) (a.toNat/4096%1024)) f) :
    walk m a = .ok f := by
  obtain ⟨-,t,ht,hp⟩ := hf
  have htab : frameOf (m.mem (frameOf m.cr3) (a.toNat/4096/1024)) = t := by
    rw [ht.2.2, frameOf_entry ht.2.1 (by omega)]
  refine walk_eq rfl (show a.toNat/2^22 = a.toNat/4096/1024 by omega) rfl ?_ ?_ ?_
  · rw [ht.2.2]
    exact isPresent_entry (by omega)
  · rw [htab, hp.2.2]
    exact isPresent_entry (by omega)
  · rw [htab, hp.2.2, frameOf_entry hp.2.1 (by omega)]

theorem loadByte_user {m : Machine} {a : Word} {f : ℕ}
    (hf : Holds m.mem dirs (.page (frameOf m.cr3) (a.toNat/4096/1024) (a.toNat/4096%1024)) f) :
    loadByte a m = .ok (Words.byteOf (m.mem f (wordIndex a)) (a.toNat%4)) := by
  rw [loadByte, walk_user hf]
  rfl

/-- Pages that `mmap` found mapped keep their bytes. -/
theorem loadByte_grows (h : InSpace L dirs m) {m' : Machine} (hg : Grows L dirs m m') {a : Word}
    (ha : a.toNat < 0xC0000000) (hin : Entered m.mem (frameOf m.cr3) (a.toNat/4096)) :
    loadByte a m' = loadByte a m := by
  obtain ⟨f,hf⟩ := user_page h (by omega) hin
  obtain ⟨hf',hsame⟩ := hg.pages _ _ _ _ hf
  rw [← hg.cr3] at hf'
  rw [loadByte_user hf, loadByte_user hf', hsame]

structure Written (L : Layout) (dirs : List ℕ) (m m' : Machine) : Prop where
  space : InSpace L dirs m'
  cr3 : m'.cr3 = m.cr3
  phys : m'.phys = m.phys
  rows : ∀ D ∈ dirs, m'.mem D = m.mem D
  entered : ∀ D ∈ dirs, ∀ q, q/1024 < 768 → Entered m.mem D q → Entered m'.mem D q

theorem written_refl (h : InSpace L dirs m) : Written L dirs m m :=
  ⟨h,rfl,rfl,fun _ _ => rfl,fun _ _ _ _ he => he⟩

theorem written_trans {m₁ m₂ : Machine} (h : Written L dirs m m₁) (h' : Written L dirs m₁ m₂) :
    Written L dirs m m₂ :=
  ⟨h'.space,h'.cr3.trans h.cr3,h'.phys.trans h.phys,fun D hD => (h'.rows D hD).trans (h.rows D hD),
    fun D hD q hq he => h'.entered D hD q hq (h.entered D hD q hq he)⟩

theorem demand_written {m' : Machine} (h : Written L dirs m m') {D p k : ℕ} (hD : D ∈ dirs)
    (hp : p+k ≤ 768*1024) : demand m'.mem D p k ≤ demand m.mem D p k := by
  apply demand_mono
  · intro q hq he
    exact h.entered D hD q (by omega) he
  · intro i hi
    rwa [h.rows D hD] at hi

theorem page_row (h : Running L dirs m) {D i j f : ℕ} (hf : Holds m.mem dirs (.page D i j) f) :
    (∀ D' ∈ dirs, D' ≠ f) ∧ (∀ D' ∈ dirs, ∀ k t, TableAt m.mem D' k t → t ≠ f) ∧
      ∀ g ∈ reserved L, g ≠ f := by
  refine ⟨fun D' hD' he => ?_,fun D' hD' k t ht he => ?_,fun g hg he => ?_⟩
  · cases h.owned.unique _ (.directory D') f hf ⟨hD',he.symm⟩
  · cases h.owned.unique _ (.table D' k) f hf ⟨hD',he ▸ ht⟩
  · exact (h.owned.taken _ f hf).2 (he ▸ hg)

theorem written_frame (h : InSpace L dirs m) {D i j f : ℕ} (hf : Holds m.mem dirs (.page D i j) f)
    (mem : Frames) (hmem : ∀ g, g ≠ f → mem g = m.mem g) :
    Written L dirs m (m.withMem mem) ∧
      ∀ D' i' j' g, Holds m.mem dirs (.page D' i' j') g → Holds mem dirs (.page D' i' j') g := by
  obtain ⟨hdir,htab,hres⟩ := page_row h.running hf
  have hrows : ∀ D' ∈ dirs, mem D' = m.mem D' := fun D' hD' => hmem D' (hdir D' hD')
  have htabs : ∀ D' ∈ dirs, ∀ k t, TableAt m.mem D' k t → mem t = m.mem t := fun D' hD' k t ht =>
    hmem t (htab D' hD' k t ht)
  have hkeep : ∀ D' i' j' g, Holds m.mem dirs (.page D' i' j') g → Holds mem dirs (.page D' i' j') g := by
    rintro D' i' j' g ⟨hD',t,ht,hp⟩
    refine ⟨hD',t,?_,?_⟩
    · rwa [TableAt, hrows D' hD']
    · rwa [PageAt, htabs D' hD' i' t ht]
  have hkernel : ∀ k, k < 2 → mem (L.kernelPageTables+k) = m.mem (L.kernelPageTables+k) := fun k hk =>
    hmem _ (hres _ (kernel_reserved L hk))
  have howned := (owned_frame mem h.running.owned hrows htabs hkernel).1
  refine ⟨⟨⟨⟨howned,h.running.flag,h.running.current⟩,h.other⟩,rfl,rfl,hrows,fun D' hD' q hq he => ?_⟩,hkeep⟩
  exact entered_mono h.running.owned hD' hq (fun k _ => congrFun (hrows D' hD') k)
    (fun k l g hg => hkeep D' k l g hg) (fun g hg => hmem g (hres g hg)) he

theorem storeByte_user (h : InSpace L dirs m) {a : Word} (ha : a.toNat < 0xC0000000)
    (hin : Entered m.mem (frameOf m.cr3) (a.toNat/4096)) (b : Byte) :
    ∃ m', storeByte a b m = .ok m' ∧ Written L dirs m m' ∧ ∀ c : Word, c.toNat < 0xC0000000 →
      Entered m.mem (frameOf m.cr3) (c.toNat/4096) →
        loadByte c m' = if c = a then .ok b else loadByte c m := by
  obtain ⟨f,hf⟩ := user_page h (by omega) hin
  obtain ⟨mem,hmem⟩ : ∃ mem, mem = setWord m.mem f (wordIndex a)
    (Words.setByte (m.mem f (wordIndex a)) (a.toNat%4) b) := ⟨_,rfl⟩
  obtain ⟨hwritten,hkeep⟩ := written_frame h hf mem (fun g hg => by
    rw [hmem, setWord_frame _ _ _ hg])
  refine ⟨m.withMem mem,by rw [storeByte, walk_user hf, hmem]; rfl,hwritten,fun c hc hcin => ?_⟩
  obtain ⟨g,hg⟩ := user_page h (by omega) hcin
  have hload : loadByte c (m.withMem mem) = .ok (Words.byteOf (mem g (wordIndex c)) (c.toNat%4)) :=
    loadByte_user (m := m.withMem mem) (hkeep _ _ _ _ hg)
  rw [loadByte_user hg, hload, hmem]
  by_cases hgf : g = f
  · -- the same frame is the same page
    have hrole := h.running.owned.unique _ _ f (hgf ▸ hg) hf
    rw [Role.page.injEq] at hrole
    have hpage : c.toNat/4096 = a.toNat/4096 := by omega
    rw [hgf]
    by_cases hw : wordIndex c = wordIndex a
    · rw [hw, setWord_self]
      by_cases hca : c = a
      · rw [if_pos hca, hca, Words.byteOf_setByte _ _ (by omega)]
      · have hlane : c.toNat%4 ≠ a.toNat%4 := fun hl => hca (BitVec.eq_of_toNat_eq (by
          unfold wordIndex at hw
          omega))
        rw [if_neg hca, Words.byteOf_setByte_ne _ _ (by omega) hlane]
    · have hca : c ≠ a := fun he => hw (by rw [he])
      rw [if_neg hca, setWord_index _ _ _ hw]
  · have hca : c ≠ a := fun he => by
      subst he
      have hfg := (walk_user hg).symm.trans (walk_user hf)
      exact hgf (Except.ok.inj hfg)
    rw [if_neg hca, setWord_frame _ _ _ hgf]

theorem toNat_next {a : Word} {n : ℕ} (h : a.toNat+n ≤ 0xC0000000) (hn : 0 < n) :
    (a+1#32).toNat = a.toNat+1 := by
  bv_omega

theorem storeBytes_user {m : Machine} (h : InSpace L dirs m) {a : Word} (bytes : List Byte)
    (ha : a.toNat+bytes.length ≤ 0xC0000000)
    (hin : ∀ k, k < bytes.length → Entered m.mem (frameOf m.cr3) ((a.toNat+k)/4096)) :
    ∃ m', storeBytes a bytes m = .ok m' ∧ Written L dirs m m' ∧
      ∀ c : Word, c.toNat < 0xC0000000 → Entered m.mem (frameOf m.cr3) (c.toNat/4096) →
        loadByte c m' = if a.toNat ≤ c.toNat ∧ c.toNat < a.toNat+bytes.length then
          .ok (bytes.getD (c.toNat-a.toNat) 0#8) else loadByte c m := by
  induction bytes generalizing a m with
  | nil => exact ⟨m,rfl,written_refl h,fun c _ _ => by rw [if_neg (by simp)]⟩
  | cons b bytes ih =>
    rw [List.length_cons] at ha hin
    have hnext := toNat_next ha (by omega)
    obtain ⟨m₁,hstore,hw,hload⟩ := storeByte_user h (by omega) (hin 0 (by omega)) b
    have hcur := h.running.current
    obtain ⟨m₂,hstore₂,hw₂,hload₂⟩ := ih (a := a+1#32) hw.space (by omega) (fun k hk => by
      have hk' := hin (k+1) (by omega)
      rw [hw.cr3, hnext, show a.toNat+1+k = a.toNat+(k+1) by omega]
      exact hw.entered _ hcur _ (by omega) hk')
    refine ⟨m₂,by rw [storeBytes, hstore, ok_bind, hstore₂],written_trans hw hw₂,fun c hc hcin => ?_⟩
    rw [hload₂ c hc (by rw [hw.cr3]; exact hw.entered _ hcur _ (by omega) hcin), hload c hc hcin, hnext,
      List.length_cons]
    by_cases hca : c = a
    · rw [if_neg (by rw [hca]; omega), if_pos hca, if_pos (by rw [hca]; omega), hca, Nat.sub_self,
        List.getD_cons_zero]
    · have hne : c.toNat ≠ a.toNat := fun he => hca (BitVec.eq_of_toNat_eq he)
      by_cases hr : a.toNat+1 ≤ c.toNat ∧ c.toNat < a.toNat+1+bytes.length
      · rw [if_pos hr, if_pos (by omega), show c.toNat-a.toNat = c.toNat-(a.toNat+1)+1 by omega,
          List.getD_cons_succ]
      · rw [if_neg hr, if_neg hca, if_neg (by omega)]

end

end MikeOS.UserBytes
