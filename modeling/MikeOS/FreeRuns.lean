import MikeOS.KernelHeapRuns

/-!
# When the search for free pages can be trusted

The search is asked for a run of available pages. On any bitmap at all it is
right for one of two reasons: there is no such run and the bytes it looks at
are clear, or the run it ends in happens to be long enough.
-/

set_option autoImplicit false

namespace MikeOS.FreeRuns
open BitArray Runs MikeOS.Memory MikeOS.PhysicalMemory MikeOS.KernelHeap MikeOS.KernelHeapSearch
open MikeOS.KernelHeapRuns

structure FreeRun (bitmap : Bytes) (n s : ℕ) : Prop where
  inside : s+n ≤ 8*kheapBitmapSize
  free : ∀ q, q < n → bit bitmap (s+q) = true

def pageAddress (s : ℕ) : Word := kheapBeginAddress+BitVec.ofNat 32 s*pageSize

/-- What is returned for `n` pages is defined. An address is that of a run, and
exactly this run is taken; `NULL` changes nothing and says that there is none. -/
def SearchSound (bitmap : Bytes) (n : Word) : Prop :=
  ∃ address bitmap', getFreeContinuousBlocksAddress n bitmap = .ok (address, bitmap') ∧
    (address ≠ null → ∃ s, address = pageAddress s ∧ FreeRun bitmap n.toNat s ∧
      ∀ q, bit bitmap' q = (!decide (s ≤ q ∧ q < s+n.toNat) && bit bitmap q)) ∧
    (address = null → bitmap' = bitmap ∧ ∀ s, ¬ FreeRun bitmap n.toNat s)

def nullPage : ℕ := 260096

/-- The search finds nothing and there is nothing, or the run that the `n`-th
available page belongs to has `n` available pages from its start on. -/
def FoundFits (bitmap : Bytes) (n : ℕ) : Prop :=
  (Clear bitmap n ∧ ∀ s, ¬ FreeRun bitmap n s) ∨
  ∃ i s, Found bitmap n i s ∧ Reached n i ∧ FreeRun bitmap n (8*i+s) ∧ 8*i+s ≠ nullPage

/-! ## Addresses of pages -/

theorem toNat_pageAddress (s : ℕ) : (pageAddress s).toNat = (0xC0800000+4096*s)%2^32 := by
  rw [pageAddress, toNat_page, toNat_begin, windowBase]

theorem pageAddress_inj {s t : ℕ} (hs : s < 2^20) (ht : t < 2^20) (h : pageAddress s = pageAddress t) : s = t := by
  have hn := congrArg BitVec.toNat h
  rw [toNat_pageAddress, toNat_pageAddress] at hn
  omega

theorem pageAddress_null {s : ℕ} (hs : s < 2^20) : pageAddress s = null ↔ s = nullPage := by
  have hnull : pageAddress nullPage = null := by decide
  rw [← hnull]
  exact ⟨pageAddress_inj hs (by decide),fun h => by rw [h]⟩

theorem foundAddress_page (i s : ℕ) : foundAddress i s = pageAddress (8*i+s) := rfl

/-! ## The run that is found -/

theorem reached_window {n i : ℕ} (h : Reached n i) : i+(n+7)/8 ≤ 131072 := by
  unfold Reached at h
  omega

theorem found_inside {bitmap : Bytes} {n i s : ℕ} (hf : Found bitmap n i s) (hr : Reached n i) :
    8*i+s < 2^20 ∧ s+n < 2^31 := by
  obtain ⟨e,hrun,-,hlt⟩ := hf.found
  have hle := hrun.le
  have hwindow := reached_window hr
  unfold chunk at hlt
  omega

theorem found_available {bitmap : Bytes} {n i s : ℕ} (hf : Found bitmap n i s) : bit bitmap (8*i+s) = true := by
  obtain ⟨e,hrun,-,-⟩ := hf.found
  exact hrun.holds s (le_refl s) hrun.le

theorem taken_ne {bitmap : Bytes} {n : Word} (hn : n ≠ 0#32) {i s : ℕ} (hf : Found bitmap n.toNat i s)
    (hr : Reached n.toNat i) :
    writeFrom bitmap i (turnBitsOff (fromByte bitmap i) (BitVec.ofNat 32 s) n) ≠ bitmap := by
  have hpos : 0 < n.toNat := by bv_omega
  intro he
  have hbit := bit_writeFrom bitmap (i := i) (found_inside hf hr).2 (8*i+s)
  rw [he, found_available hf, decide_eq_true (by omega)] at hbit
  cases hbit

theorem fits_of_sound {bitmap : Bytes} {n : Word} (hn : n ≠ 0#32) (h : SearchSound bitmap n) :
    FoundFits bitmap n.toNat := by
  have hpos : 0 < n.toNat := by bv_omega
  obtain ⟨address,bitmap',hsearch,hfound,hnone⟩ := h
  rcases search_outcome bitmap hn with ⟨hclear,he⟩ | ⟨-,-,he⟩ | ⟨i,s,hf,hr,he⟩
  · cases hsearch.symm.trans he
    exact Or.inl ⟨hclear,(hnone rfl).2⟩
  · cases hsearch.symm.trans he
  · cases hsearch.symm.trans he
    obtain ⟨hlt,-⟩ := found_inside hf hr
    have hne : foundAddress i s ≠ null := fun h0 => taken_ne hn hf hr (hnone h0).1
    obtain ⟨t,hadr,hrun,-⟩ := hfound hne
    have hin := hrun.inside
    rw [kheapBitmapSize] at hin
    have hst : 8*i+s = t := pageAddress_inj hlt (by omega) ((foundAddress_page i s).symm.trans hadr)
    subst hst
    exact Or.inr ⟨i,s,hf,hr,hrun,fun h0 => hne ((pageAddress_null hlt).mpr h0)⟩

theorem sound_of_fits {bitmap : Bytes} {n : Word} (hn : n ≠ 0#32) (h : FoundFits bitmap n.toNat) :
    SearchSound bitmap n := by
  rcases h with ⟨hclear,hnone⟩ | ⟨i,s,hf,hr,hrun,hnull⟩
  · rcases search_outcome bitmap hn with ⟨-,he⟩ | ⟨hnot,-⟩ | ⟨i,s,hf,hr,-⟩
    · exact ⟨_,_,he,fun h0 => absurd rfl h0,fun _ => ⟨rfl,hnone⟩⟩
    · exact absurd hclear hnot
    · exact absurd hr (clear_not_reached hclear hf)
  · rcases search_outcome bitmap hn with ⟨hclear,-⟩ | ⟨-,hnot,-⟩ | ⟨j,t,hf',-,he⟩
    · exact absurd hr (clear_not_reached hclear hf)
    · exact absurd hr (hnot i s hf)
    · obtain ⟨rfl,rfl⟩ := found_unique hf hf'
      obtain ⟨hlt,hsmall⟩ := found_inside hf hr
      refine ⟨_,_,he,fun _ => ⟨8*i+s,foundAddress_page i s,hrun,bit_writeFrom bitmap hsmall⟩,fun h0 => ?_⟩
      exact absurd ((pageAddress_null hlt).mp h0) hnull

/-- The search is sound exactly when what it finds fits. -/
theorem search_sound_iff (bitmap : Bytes) (n : Word) (hn : n ≠ 0#32) :
    SearchSound bitmap n ↔ FoundFits bitmap n.toNat :=
  ⟨fits_of_sound hn,sound_of_fits hn⟩

def freshBitmap : Bytes := (kheapInit (Kheap.boot PhysicalMem.boot)).bitmap

theorem fresh_page_sound : SearchSound freshBitmap 1#32 := by
  have hs := suitable_start PhysicalMem.boot
  refine (search_sound_iff freshBitmap 1#32 (by decide)).mpr (Or.inr ⟨0,0,found_of_suitable hs,?_,⟨?_,?_⟩,?_⟩)
  · exact Or.inl (by decide)
  · decide
  · exact hs.free
  · decide

def gapBitmap : Bytes := fun i => if i = 0 then 0xA0#8 else 0#8

theorem gapBitmap_found : Found gapBitmap 2 0 2 := by
  refine ⟨⟨by decide,fun j hj => by omega⟩,2,⟨le_refl _,fun q h1 h2 => ?_,Or.inr (by decide)⟩,by decide,by decide⟩
  rw [show q = 2 by omega]
  decide

theorem gap_not_sound : ¬ SearchSound gapBitmap 2#32 := by
  intro h
  rcases fits_of_sound (by decide) h with ⟨hclear,-⟩ | ⟨i,s,hf,-,hrun,-⟩
  · exact clear_not_reached hclear gapBitmap_found (Or.inl (by decide))
  · obtain ⟨rfl,rfl⟩ := found_unique hf gapBitmap_found
    exact absurd (hrun.free 1 (by decide)) (by decide)

end MikeOS.FreeRuns
