import MikeOS.FreeListConservation
import MikeOS.KernelMallocPages

/-!
# Which sizes kmalloc serves

`increase_heap_size` divides a number of units by the size of a page in bytes,
so the heap grows by a page where eight times as much was needed. A block that
is too small is appended like any other, and the search goes on and asks for
the same pages again until they are refused.
-/

set_option autoImplicit false

namespace MikeOS.MallocSizes
open LinkedList MikeOS.KernelMalloc MikeOS.KernelMallocRuns MikeOS.KernelMallocPages MikeOS.FreeListConservation

def pagesFor (size : Word) : ℕ := (size.toNat+8+4095)/4096

/-- The next request is granted when it is for at most `p` pages. -/
def CanSupply (source : PageSource) (h : Heap) (p : ℕ) : Prop :=
  ∀ n : Word, 0 < n.toNat → n.toNat ≤ p → source h.requests n ≠ null

/-- Enough pages give a block that is large enough after one growth at most, and
a call that returns `NULL` was refused all the pages it asked for. -/
structure Serves (source : PageSource) (h : Heap) (size : Word) : Prop where
  supplied : CanSupply source h (pagesFor size) → ∃ fuel a h', kmalloc source fuel size h = some (a, h') ∧
    a ≠ null ∧ h'.requests.length ≤ h.requests.length+1 ∧
    size.toNat ≤ 8*(h'.blockSize (a-headerSize)).toNat
  failed : ∀ fuel h', kmalloc source fuel size h = some (null, h') →
    ∃ new, h'.requests = new ++ h.requests ∧ new ≠ [] ∧ ∀ r ∈ new, r.address = null

/-- The block that is taken is not one unit larger than what was asked for, and
when the list has no block for it a page that is obtained is large enough. -/
def Suits (source : PageSource) (h : Heap) (free : List Word) (size : Word) : Prop :=
  match firstFit h (unitsOf size) free with
  | some b => CanSupply source h (pagesFor size) → size = 0#32 ∨
      (h.blockSize b).toNat ≠ (unitsOf size).toNat+1
  | none => source h.requests (pageCount (unitsOf size)) = null ∨
      (unitsOf size).toNat ≤ 511 ∧ (unitsOf size).toNat ≠ 510

/-! ## Fuel -/

theorem lastCell_mono {h : Heap} {fuel fuel' : ℕ} {current c : Cell Word} (hle : fuel ≤ fuel')
    (hc : lastCell h fuel current = some c) : lastCell h fuel' current = some c := by
  induction fuel generalizing fuel' current with
  | zero => cases hc
  | succ fuel ih =>
    obtain ⟨more,rfl⟩ : ∃ more, fuel' = more+1 := ⟨fuel'-1,by omega⟩
    rw [lastCell] at hc ⊢
    split at hc
    · rename_i hne
      rw [if_pos hne]
      exact ih (by omega) hc
    · rename_i hne
      rw [if_neg hne]
      exact hc

theorem kfree_mono {h h' : Heap} {fuel fuel' : ℕ} {address : Word} (hle : fuel ≤ fuel')
    (hk : kfree fuel address h = some h') : kfree fuel' address h = some h' := by
  cases hc : lastCell h fuel none with
  | none =>
    simp only [kfree, hc] at hk
    cases hk
  | some c =>
    simp only [kfree, hc] at hk
    simp only [kfree, lastCell_mono hle hc]
    exact hk

theorem increase_mono {source : PageSource} {units : Word} {h : Heap} {fuel fuel' : ℕ} {r : ErrorCode × Heap}
    (hle : fuel ≤ fuel') (hk : increaseHeapSize source fuel units h = some r) :
    increaseHeapSize source fuel' units h = some r := by
  simp only [increaseHeapSize] at hk ⊢
  split at hk
  · rename_i hnull
    rw [if_pos hnull]
    exact hk
  · rename_i hnull
    rw [if_neg hnull]
    split at hk
    · cases hk
    · rename_i g hg
      rw [kfree_mono hle hg]
      exact hk

theorem search_mono {source : PageSource} {units : Word} {h : Heap} {fuel fuel' : ℕ} {c : Cell Word}
    {r : Word × Heap} (hle : fuel ≤ fuel') (hk : search source units fuel c h = some r) :
    search source units fuel' c h = some r := by
  induction fuel generalizing fuel' c h with
  | zero => cases hk
  | succ fuel ih =>
    obtain ⟨more,rfl⟩ : ∃ more, fuel' = more+1 := ⟨fuel'-1,by omega⟩
    rw [search] at hk ⊢
    generalize hgrown : (if load h.links c = null then increaseHeapSize source fuel units h
      else some (.success, h)) = grown at hk
    have hgrown' : grown = none ∨ (if load h.links c = null then increaseHeapSize source more units h
        else some (.success, h)) = grown := by
      split at hgrown
      · rename_i hnull
        cases grown with
        | none => exact Or.inl rfl
        | some r => exact Or.inr (by rw [if_pos hnull]; exact increase_mono (by omega) hgrown)
      · rename_i hnull
        exact Or.inr (by rw [if_neg hnull]; exact hgrown)
    rcases hgrown' with rfl | hsame
    · cases hk
    · rw [hsame]
      rcases grown with _ | ⟨code,g⟩
      · cases hk
      · cases code with
        | success =>
          simp only at hk ⊢
          split at hk
          · rename_i hfit
            rw [if_pos hfit]
            exact hk
          · rename_i hfit
            rw [if_neg hfit]
            exact ih (by omega) hk
        | _ => exact hk

/-- All the fuel that is enough gives the same outcome. -/
theorem kmalloc_unique {source : PageSource} {size : Word} {h : Heap} {fuel fuel' : ℕ} {r r' : Word × Heap}
    (hk : kmalloc source fuel size h = some r) (hk' : kmalloc source fuel' size h = some r') : r = r' := by
  rcases le_total fuel fuel' with hle | hle
  · exact Option.some.inj ((search_mono hle hk).symm.trans hk')
  · exact Option.some.inj (hk.symm.trans (search_mono hle hk'))

/-! ## The block that is taken -/

theorem listed_of_pages {h : Heap} {live : List Live} {free : List Word} (hi : PagesInv h live free) :
    Listed h free := ⟨hi.linked,hi.nodup⟩

theorem taken_block {h : Heap} {live : List Live} {l m : List Word} {b size : Word}
    (hi : PagesInv h live (l ++ b::m)) (hl : ∀ x ∈ l, h.blockSize x < unitsOf size)
    (hfit : unitsOf size ≤ h.blockSize b) :
    ∃ a h', take (unitsOf size) (cellAfter l) h = (a, h') ∧ a ≠ null ∧ h'.requests = h.requests ∧
      (h'.blockSize (a-headerSize)).toNat =
        if (h.blockSize b).toNat = (unitsOf size).toNat+1 then 0 else (unitsOf size).toNat := by
  by_cases hwhole : h.blockSize b = unitsOf size
  · obtain ⟨r,hpath,hr,-,-⟩ := linked_append.mp hi.linked
    subst hr
    have hne := (take_whole_pages hi hwhole).1
    rw [take_whole_eq hpath hwhole] at hne
    refine ⟨_,_,take_whole_eq hpath hwhole,hne,rfl,?_⟩
    rw [if_neg (by rw [hwhole]; omega), back]
    exact congrArg BitVec.toNat hwhole
  · have hgt : h.blockSize b > unitsOf size := by bv_omega
    obtain ⟨f,h',hf,htake,-,hreq,hsize⟩ := take_cut hi hl hgt
    have hne := (take_cut_pages hi hl hgt).1
    rw [htake] at hne
    refine ⟨_,_,htake,hne,hreq,?_⟩
    rw [back, hsize, cutSize]
    by_cases hfb : f = b
    · rw [hfb] at hf
      rw [if_pos hfb, if_pos hfb.symm, if_pos (by bv_omega)]
    · have hnat : f.toNat ≠ b.toNat := fun he => hfb (BitVec.eq_of_toNat_eq he)
      rw [if_neg hfb, if_pos rfl, if_neg (by omega)]

/-! ## Growing -/

section
variable {source : PageSource} {h : Heap} {live : List Live} {free : List Word} {units size : Word}

def paged (source : PageSource) (units : Word) (h : Heap) : Heap :=
  Heap.setSize { h with requests := ⟨pageCount units, source h.requests (pageCount units)⟩ :: h.requests }
    (source h.requests (pageCount units)) (grownSize (pageCount units))

def grown (source : PageSource) (units : Word) (h : Heap) (free : List Word) : Heap :=
  ((paged source units h).assign (cellAfter free) (source h.requests (pageCount units))).assign
    (some (source h.requests (pageCount units))) null

theorem kfree_paged (source : PageSource) (units : Word) (hlisted : Listed h free) {fuel : ℕ} (hfuel : free.length < fuel) :
    kfree fuel (source h.requests (pageCount units)+headerSize) (paged source units h) =
      some (grown source units h free) :=
  kfree_eq (h := paged source units h) hlisted.linked (source h.requests (pageCount units)) hfuel

theorem increase_refused (fuel : ℕ) (hnull : source h.requests (pageCount units) = null) :
    increaseHeapSize source fuel units h =
      some (.failure, { h with requests := ⟨pageCount units, null⟩ :: h.requests }) := by
  simp only [increaseHeapSize, hnull, if_true]

theorem increase_granted (hlisted : Listed h free) {fuel : ℕ} (hfuel : free.length < fuel)
    (hne : source h.requests (pageCount units) ≠ null) :
    increaseHeapSize source fuel units h = some (.success, grown source units h free) := by
  have hk := kfree_paged source units hlisted hfuel
  rw [paged] at hk
  simp only [increaseHeapSize, if_neg hne, hk]

theorem grown_pages (hs : PageRanges source) (hi : PagesInv h live free) (hu : units.toNat < 2^29)
    (hne : source h.requests (pageCount units) ≠ null) :
    PagesInv (grown source units h free) live (free ++ [source h.requests (pageCount units)]) ∧
      ∀ x ∈ free, (grown source units h free).blockSize x = h.blockSize x := by
  have hn := toNat_pageCount units hu
  exact grow_pages hs hi hne (by omega) (by omega)
    (kfree_paged source units (listed_of_pages hi) (Nat.lt_succ_self _))

theorem grown_blockSize : (grown source units h free).blockSize (source h.requests (pageCount units)) =
    grownSize (pageCount units) := setSize_self _ _ _

theorem search_refused (hlisted : Listed h free) (fuel : ℕ)
    (hnull : source h.requests (pageCount units) = null) :
    search source units (fuel+1) (cellAfter free) h =
      some (null, { h with requests := ⟨pageCount units, null⟩ :: h.requests }) := by
  rw [search, load_cellAfter hlisted.linked, if_pos rfl, increase_refused fuel hnull]

theorem search_granted (hs : PageRanges source) (hi : PagesInv h live free) (hu : units.toNat < 2^29)
    {fuel : ℕ} (hfuel : free.length < fuel) (hne : source h.requests (pageCount units) ≠ null) :
    search source units (fuel+1) (cellAfter free) h =
      if units ≤ grownSize (pageCount units) then some (take units (cellAfter free) (grown source units h free))
      else search source units fuel (cellAfter (free ++ [source h.requests (pageCount units)]))
        (grown source units h free) := by
  obtain ⟨hinv,-⟩ := grown_pages hs hi hu hne
  obtain ⟨r,hpath,hr,-⟩ := linked_append.mp hinv.linked
  have hload := load_cellAfter hpath
  rw [hr] at hload
  rw [search, load_cellAfter hi.linked, if_pos rfl, increase_granted (listed_of_pages hi) hfuel hne]
  simp only [hload, grown_blockSize, cellAfter_snoc, ge_iff_le]

theorem toNat_grown (hu : units.toNat < 2^29) :
    units ≤ grownSize (pageCount units) ↔ units.toNat ≤ 511 := by
  have hn := toNat_pageCount units hu
  have hg := toNat_grownSize (pageCount units) (by omega) (by omega)
  rw [BitVec.le_def, hg, hn]
  omega

/-! ## Growing until the pages are refused -/

def unused (rs : List Request) : Finset ℕ :=
  (Finset.range (2^32)).filter fun a => ∀ r ∈ rs, r.numPages ≠ 0#32 → r.address.toNat ≠ a

theorem unused_lt (hs : PageRanges source) {rs : List Request} {n : Word} (hn : n ≠ 0#32)
    (hne : source rs n ≠ null) : (unused (⟨n, source rs n⟩ :: rs)).card < (unused rs).card := by
  refine Finset.card_lt_card ((Finset.ssubset_iff_of_subset fun a ha => ?_).mpr ⟨(source rs n).toNat,?_,?_⟩)
  · obtain ⟨hrange,hall⟩ := Finset.mem_filter.mp ha
    exact Finset.mem_filter.mpr ⟨hrange,(List.forall_mem_cons.mp hall).2⟩
  · refine Finset.mem_filter.mpr ⟨Finset.mem_range.mpr (source rs n).isLt,fun r hr hpos he => ?_⟩
    have hadr : r.address = source rs n := BitVec.eq_of_toNat_eq he
    have hapart := hs.apart rs n hne r hr (by rwa [hadr])
    have hlen : 0 < n.toNat ∧ 0 < r.numPages.toNat := ⟨by bv_omega,by bv_omega⟩
    refine hapart.start_ne ?_ ?_ he.symm <;> simp only [Request.extent] <;> omega
  · intro hmem
    exact (Finset.mem_filter.mp hmem).2 _ List.mem_cons_self hn rfl

/-- While no block fits and none that is appended would, the search ends when
pages are refused, after it has kept all those it was given. -/
theorem search_exhausts (hs : PageRanges source) (hu : units.toNat < 2^29) (hbig : 511 < units.toNat)
    (hi : PagesInv h live free) :
    ∃ fuel h' new, search source units fuel (cellAfter free) h = some (null, h') ∧
      h'.requests = new ++ ⟨pageCount units, source h.requests (pageCount units)⟩ :: h.requests := by
  obtain ⟨k,hk⟩ : ∃ k, (unused h.requests).card = k := ⟨_,rfl⟩
  induction k using Nat.strong_induction_on generalizing h free with
  | _ k ih =>
    by_cases hnull : source h.requests (pageCount units) = null
    · exact ⟨1,_,[],search_refused (listed_of_pages hi) 0 hnull,by rw [hnull]; rfl⟩
    · have hn := toNat_pageCount units hu
      obtain ⟨hinv,-⟩ := grown_pages hs hi hu hnull
      have hless : (unused (grown source units h free).requests).card < k := by
        rw [← hk]
        exact unused_lt hs (fun h0 => by rw [h0] at hn; simp at hn) hnull
      obtain ⟨fuel,h',new,hrun,hnew⟩ := ih _ hless hinv rfl
      refine ⟨max fuel (free.length+1)+1,h',
        new ++ [⟨pageCount units, source (grown source units h free).requests (pageCount units)⟩],?_,?_⟩
      · rw [search_granted hs hi hu (by omega) hnull, if_neg (mt (toNat_grown hu).mp (by omega))]
        exact search_mono (Nat.le_max_left fuel _) hrun
      · rw [hnew, List.append_assoc]
        rfl

/-! ## Exactly which sizes are served -/

theorem small_of_not {l : List Word} (hl : ∀ x ∈ l, ¬ units ≤ h.blockSize x) : ∀ x ∈ l, h.blockSize x < units :=
  fun x hx => BitVec.not_le.mp (hl x hx)

theorem not_of_none (hnone : firstFit h units free = none) : ∀ x ∈ free, ¬ units ≤ h.blockSize x := by
  intro x hx
  have hnot := List.find?_eq_none.mp hnone x hx
  rwa [decide_eq_true_eq] at hnot

theorem kmalloc_grows (source : PageSource) (hlisted : Listed h free) (hnone : firstFit h (unitsOf size) free = none)
    (fuel : ℕ) :
    kmalloc source (fuel+free.length) size h = search source (unitsOf size) fuel (cellAfter free) h := by
  have hlinked : Linked null h.links.next h.links.head ([] ++ (free ++ [])) null := by
    simpa using hlisted.linked
  exact search_walk fuel [] free [] hlinked (not_of_none hnone)

/-- Pages for the size can only be had when it is no size near the end of the
numbers, and then the units hold it. -/
theorem units_hold (hs : PageRanges source) (hsupply : CanSupply source h (pagesFor size)) :
    size.toNat ≤ 8*(unitsOf size).toNat := by
  have hlt := size.isLt
  have hp : pagesFor size < 2^32 ∧ 0 < pagesFor size := by
    unfold pagesFor
    omega
  have hw : (BitVec.ofNat 32 (pagesFor size)).toNat = pagesFor size := by
    rw [BitVec.toNat_ofNat, Nat.mod_eq_of_lt hp.1]
  have hne := hsupply (BitVec.ofNat 32 (pagesFor size)) (by omega) (by omega)
  have hfits := hs.fits _ _ hne
  have hpos := word_pos hne
  rw [hw] at hfits
  unfold pagesFor at hfits
  rw [toNat_unitsOf]
  omega

theorem pageCount_le : (pageCount (unitsOf size)).toNat ≤ pagesFor size ∧ 0 < (pageCount (unitsOf size)).toNat := by
  have hu := toNat_unitsOf size
  have hn := toNat_pageCount _ (unitsOf_lt size)
  unfold pagesFor
  omega

theorem serves_fit (hs : PageRanges source) (hi : PagesInv h live free) {b : Word}
    (hb : firstFit h (unitsOf size) free = some b) :
    Serves source h size ↔ (CanSupply source h (pagesFor size) → size = 0#32 ∨
      (h.blockSize b).toNat ≠ (unitsOf size).toNat+1) := by
  obtain ⟨hfit,l,m,rfl,hsmall⟩ := firstFit_some hb
  obtain ⟨a,h',htake,hne,hreq,hsize⟩ := taken_block hi (small_of_not hsmall) hfit
  have hrun := kmalloc_fit source hi.linked hsmall hfit (Nat.lt_succ_self _)
  rw [htake] at hrun
  constructor
  · intro hserves hsupply
    obtain ⟨fuel,a',h'',hk,-,-,hholds⟩ := hserves.supplied hsupply
    cases kmalloc_unique hk hrun
    by_cases hcut : (h.blockSize b).toNat = (unitsOf size).toNat+1
    · rw [hsize, if_pos hcut] at hholds
      exact Or.inl (by bv_omega)
    · exact Or.inr hcut
  · intro hcond
    refine ⟨fun hsupply => ⟨_,a,h',hrun,hne,by rw [hreq]; omega,?_⟩,fun fuel h'' hk => ?_⟩
    · have hhold := units_hold hs hsupply
      rw [hsize]
      rcases hcond hsupply with rfl | hcut
      · simp
      · rw [if_neg hcut]
        exact hhold
    · cases kmalloc_unique hk hrun
      exact absurd rfl hne

theorem serves_refused (hi : PagesInv h live free) (hnone : firstFit h (unitsOf size) free = none)
    (hnull : source h.requests (pageCount (unitsOf size)) = null) : Serves source h size := by
  have hrun := (kmalloc_grows source (listed_of_pages hi) hnone 1).trans
    (search_refused (listed_of_pages hi) 0 hnull)
  refine ⟨fun hsupply => ?_,fun fuel h' hk => ?_⟩
  · exact absurd hnull (hsupply _ pageCount_le.2 pageCount_le.1)
  · cases kmalloc_unique hk hrun
    exact ⟨[⟨pageCount (unitsOf size), null⟩],rfl,by simp,by simp⟩

/-- Who grants the page for a block one unit short of it can supply what is needed. -/
theorem supply_of_granted (hunits : (unitsOf size).toNat = 510)
    (hne : source h.requests (pageCount (unitsOf size)) ≠ null) : CanSupply source h (pagesFor size) := by
  have hsize := toNat_unitsOf size
  have hn := toNat_pageCount _ (unitsOf_lt size)
  have hone : pageCount (unitsOf size) = 1#32 := by bv_omega
  intro n hpos hle
  have hn1 : n = 1#32 := by
    unfold pagesFor at hle
    bv_omega
  rw [hn1, ← hone]
  exact hne

theorem serves_granted (hs : PageRanges source) (hi : PagesInv h live free)
    (hnone : firstFit h (unitsOf size) free = none) (hne : source h.requests (pageCount (unitsOf size)) ≠ null) :
    Serves source h size ↔ (unitsOf size).toNat ≤ 511 ∧ (unitsOf size).toNat ≠ 510 := by
  have hu := unitsOf_lt size
  by_cases hbig : 511 < (unitsOf size).toNat
  · refine iff_of_false (fun hserves => ?_) (by omega)
    obtain ⟨fuel,h',new,hrun,hnew⟩ := search_exhausts hs hu hbig hi
    rw [← kmalloc_grows source (listed_of_pages hi) hnone fuel] at hrun
    obtain ⟨new',hnew',-,hnull⟩ := hserves.failed _ h' hrun
    rw [hnew, List.append_cons, List.append_cancel_right_eq] at hnew'
    rw [← hnew'] at hnull
    exact hne (hnull _ (List.mem_append_right _ (List.mem_singleton_self _)))
  · obtain ⟨hinv,hsame⟩ := grown_pages hs hi hu hne
    have hsmall : ∀ x ∈ free, (grown source (unitsOf size) h free).blockSize x < unitsOf size := fun x hx => by
      rw [hsame x hx]
      exact small_of_not (not_of_none hnone) x hx
    have hfit := (toNat_grown hu).mpr (by omega)
    obtain ⟨a,h',htake,hanull,hreq,hsize⟩ := taken_block hinv hsmall (by rwa [grown_blockSize])
    have hrun := (kmalloc_grows source (listed_of_pages hi) hnone _).trans
      (search_granted hs hi hu (Nat.lt_succ_self _) hne)
    rw [if_pos hfit, htake] at hrun
    have hn := toNat_pageCount _ hu
    rw [grown_blockSize, toNat_grownSize _ (by omega) (by omega)] at hsize
    constructor
    · intro hserves
      refine ⟨by omega,fun hcut => ?_⟩
      have hunits := toNat_unitsOf size
      rw [if_pos (by omega)] at hsize
      obtain ⟨fuel,a',h'',hk,-,-,hholds⟩ := hserves.supplied (supply_of_granted hcut hne)
      cases kmalloc_unique hk hrun
      omega
    · rintro ⟨-,hcut⟩
      refine ⟨fun hsupply => ⟨_,a,h',hrun,hanull,by rw [hreq]; exact le_refl _,?_⟩,fun fuel h'' hk => ?_⟩
      · rw [hsize, if_neg (by omega)]
        exact units_hold hs hsupply
      · cases kmalloc_unique hk hrun
        exact absurd rfl hanull

end

/-- A call is served when the first block of the list that is large enough is
not one unit larger, or when the pages that are obtained for lack of one are
large enough, or when there are none. -/
theorem serves_iff (source : PageSource) (hs : PageRanges source) (h : Heap) (live : List Live) (free : List Word)
    (hi : PagesInv h live free) (size : Word) : Serves source h size ↔ Suits source h free size := by
  rw [Suits]
  cases hfirst : firstFit h (unitsOf size) free with
  | some b => exact serves_fit hs hi hfirst
  | none =>
    by_cases hnull : source h.requests (pageCount (unitsOf size)) = null
    · exact iff_of_true (serves_refused hi hfirst hnull) (Or.inl hnull)
    · rw [serves_granted hs hi hfirst hnull]
      exact ⟨Or.inr,fun hsuits => hsuits.resolve_left hnull⟩

def wholeWindow : PageSource := fun rs n =>
  if rs = [] ∧ n ≤ 1024#32 then 0xC0800000#32 else null

theorem wholeWindow_granted {rs : List Request} {n : Word} (h : wholeWindow rs n ≠ null) :
    rs = [] ∧ n ≤ 1024#32 := by
  by_contra hc
  exact h (if_neg hc)

theorem wholeWindow_ranges : PageRanges wholeWindow := by
  refine ⟨⟨fun rs n hne => ?_,fun rs n hne r hr => ?_⟩,fun rs n => ?_⟩
  · have hcond := wholeWindow_granted hne
    rw [wholeWindow, if_pos hcond, show (0xC0800000#32).toNat = 0xC0800000 from rfl]
    bv_omega
  · rw [(wholeWindow_granted hne).1] at hr
    cases hr
  · rw [wholeWindow]
    split <;> rfl

theorem boot_pages : PagesInv Heap.boot [] [] := by
  refine ⟨rfl,List.nodup_nil,?_,?_,?_,?_⟩ <;> simp [Heap.boot, Header]

theorem whole_page_served : Serves wholeWindow Heap.boot 4088#32 :=
  (serves_iff wholeWindow wholeWindow_ranges Heap.boot [] [] boot_pages 4088#32).mpr
    (Or.inr ⟨by decide,by decide⟩)

/-- One byte more takes the page and returns `NULL`, where two pages were to be had. -/
theorem page_and_byte_not_served : PageRanges wholeWindow ∧ CanSupply wholeWindow Heap.boot (pagesFor 4089#32) ∧
    ¬ Serves wholeWindow Heap.boot 4089#32 := by
  refine ⟨wholeWindow_ranges,fun n hpos hle => ?_,fun hserves => ?_⟩
  · have hwindow : pagesFor 4089#32 = 2 := by decide
    rw [hwindow] at hle
    rw [wholeWindow, if_pos ⟨rfl,show n ≤ 1024#32 by bv_omega⟩]
    decide
  · have hsmall := ((serves_granted wholeWindow_ranges boot_pages rfl (by decide)).mp hserves).1
    exact absurd hsmall (by decide)

end MikeOS.MallocSizes
