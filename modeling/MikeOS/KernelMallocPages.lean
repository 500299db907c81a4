import MikeOS.KernelMallocRuns

/-!
# Headers and payloads stay inside the pages

Splits leave the new block inside the free block it was cut from, so headers
may lie in the extents of other blocks and two blocks may share one. What
survives every split is weaker: a header that lies behind another one is at
most two headers before the end recorded there. With it no split touches the
links before the block that is split, and every extent stays in one range of
pages.
-/

set_option autoImplicit false

namespace MikeOS.KernelMallocPages
open LinkedList MikeOS.KernelMalloc MikeOS.KernelMallocRuns

/-- `alloc_kheap_pages` returns `NULL` or fresh ranges that start at a page. -/
structure PageRanges (source : PageSource) : Prop extends FreshPages source where
  aligned : ∀ rs n, (source rs n).toNat%4096 = 0

/-- Only live blocks are freed. -/
def step (source : PageSource) (fuel : ℕ) (s : Session) : Op → Option Session
  | .kmalloc size =>
    match kmalloc source fuel size s.heap with
    | none => none
    | some (address, h) => some ⟨h, if address = null then s.live else ⟨address, size⟩ :: s.live⟩
  | .kfree address =>
    match s.live.find? fun x => x.address = address with
    | none => none
    | some x =>
      match kfree fuel address s.heap with
      | none => none
      | some h => some ⟨h, s.live.erase x⟩

def payload (x : Live) : Extent := ⟨x.address.toNat, 8*((x.size.toNat+7)%2^32/8)⟩

structure InsidePages (s : Session) : Prop where
  headers : ∀ b, OnFreeList s.heap b ∨ (∃ x ∈ s.live, x.address-headerSize = b) →
    ∃ r ∈ s.heap.requests, r.address ≠ null ∧ Extent.Within (freeExtent s.heap b) (Request.extent r)
  payloads : ∀ x ∈ s.live, x.address.toNat%8 = 0 ∧
    ∃ r ∈ s.heap.requests, r.address ≠ null ∧ Extent.Within (payload x) (Request.extent r)
  terminated : ∃ free, free.Nodup ∧ Linked null s.heap.links.next s.heap.links.head free null

/-! ## The invariant -/

def Header (live : List Live) (free : List Word) (b : Word) : Prop :=
  b ∈ free ∨ ∃ x ∈ live, x.address-headerSize = b

/-- Header `b` with `units` units behind it lies in the pages of `r`, and not
at their very end. -/
structure Fits (r : Request) (b : Word) (units : ℕ) : Prop where
  range : r.address ≠ null
  start : r.address.toNat ≤ b.toNat
  aligned : b.toNat%8 = 0
  finish : b.toNat+8+8*units ≤ r.address.toNat+4096*r.numPages.toNat
  room : b.toNat+8 < r.address.toNat+4096*r.numPages.toNat

structure PagesInv (h : Heap) (live : List Live) (free : List Word) : Prop where
  linked : Linked null h.links.next h.links.head free null
  nodup : free.Nodup
  bounded : ∀ r ∈ h.requests, r.address ≠ null → r.address.toNat+4096*r.numPages.toNat ≤ 2^32
  inside : ∀ b, Header live free b → ∃ r ∈ h.requests, Fits r b (h.blockSize b).toNat
  payload : ∀ x ∈ live, ∃ r ∈ h.requests, Fits r (x.address-headerSize) (unitsOf x.size).toNat
  spread : ∀ b c, Header live free b → Header live free c → b.toNat < c.toNat →
    b.toNat+8*(h.blockSize b).toNat ≤ c.toNat+8

theorem toNat_address {h : Heap} {live : List Live} {free : List Word} (hi : PagesInv h live free) {x : Live}
    (hx : x ∈ live) : x.address.toNat = (x.address-headerSize).toNat+8 := by
  obtain ⟨r,hr,hfit⟩ := hi.payload x hx
  have hbound := hi.bounded r hr hfit.range
  have hroom := hfit.room
  rw [headerSize] at hroom ⊢
  bv_omega

theorem header_onFreeList {h : Heap} {live : List Live} {free : List Word} (hi : PagesInv h live free)
    {b : Word} (hb : OnFreeList h b) : Header live free b := by
  obtain ⟨hne,path,hpath⟩ := hb
  obtain ⟨rest,hrest⟩ := linked_split hi.linked hpath hne
  exact Or.inl (by simp [hrest])

theorem inside_of_inv {s : Session} {free : List Word} (hi : PagesInv s.heap s.live free) : InsidePages s := by
  refine ⟨fun b hb => ?_,fun x hx => ?_,free,hi.nodup,hi.linked⟩
  · obtain ⟨r,hr,hfit⟩ := hi.inside b (hb.elim (header_onFreeList hi) Or.inr)
    refine ⟨r,hr,hfit.range,hfit.start,?_⟩
    have := hfit.finish
    simp only [freeExtent, Request.extent]
    omega
  · obtain ⟨r,hr,hfit⟩ := hi.payload x hx
    have hadr := toNat_address hi hx
    have hstart := hfit.start
    have hfinish := hfit.finish
    have haligned := hfit.aligned
    rw [toNat_unitsOf] at hfinish
    refine ⟨by omega,r,hr,hfit.range,?_,?_⟩
    · simp only [payload, Request.extent]
      omega
    · simp only [payload, Request.extent]
      omega

/-- Headers are dropped or change between the two kinds, and sizes stay. -/
theorem inv_mono {h h' : Heap} {live live' : List Live} {free free' : List Word} (hi : PagesInv h live free)
    (hlinked : Linked null h'.links.next h'.links.head free' null) (hnodup : free'.Nodup)
    (hsize : h'.blockSize = h.blockSize) (hreq : h'.requests = h.requests)
    (hheader : ∀ b, Header live' free' b → Header live free b)
    (hpayload : ∀ x ∈ live', ∃ r ∈ h.requests, Fits r (x.address-headerSize) (unitsOf x.size).toNat) :
    PagesInv h' live' free' := by
  refine ⟨hlinked,hnodup,?_,?_,?_,?_⟩
  · rw [hreq]
    exact hi.bounded
  · rw [hreq, hsize]
    exact fun b hb => hi.inside b (hheader b hb)
  · rw [hreq]
    exact hpayload
  · rw [hsize]
    exact fun b c hb hc => hi.spread b c (hheader b hb) (hheader c hc)

/-! ## kfree -/

theorem kfree_pages {h h' : Heap} {live live' : List Live} {free : List Word} {b : Word} {fuel : ℕ}
    (hi : PagesInv h live free) (hb : Header live free b) (hlive : ∀ x ∈ live', x ∈ live)
    (hk : kfree fuel (b+headerSize) h = some h') : ∃ free', PagesInv h' live' free' := by
  obtain ⟨r,hr,hfit⟩ := hi.inside b hb
  have hne : b ≠ null := fun he => by
    have := word_pos hfit.range
    have := hfit.start
    rw [he, null_eq] at this
    simp at this
    omega
  obtain ⟨free',hnodup,hmem,hlinked⟩ := linked_push hi.nodup hne hi.linked
  rw [kfree_links hi.linked hk]
  refine ⟨free',inv_mono hi hlinked hnodup rfl rfl ?_ (fun x hx => hi.payload x (hlive x hx))⟩
  rintro c (hc | ⟨x,hx,he⟩)
  · rcases hmem c hc with hold | rfl
    · exact Or.inl hold
    · exact hb
  · exact Or.inr ⟨x,hlive x hx,he⟩

/-! ## Growing the heap -/

theorem grown_fits {source : PageSource} (hs : PageRanges source) {rs : List Request} {n : Word}
    (hne : source rs n ≠ null) (h0 : 0 < n.toNat) (hn : n.toNat < 2^18) :
    Fits ⟨n, source rs n⟩ (source rs n) (grownSize n).toNat := by
  have hal := hs.aligned rs n
  rw [toNat_grownSize n h0 hn]
  exact ⟨hne,le_refl _,by omega,by simp only; omega,by simp only; omega⟩

theorem grown_outside {source : PageSource} (hs : PageRanges source) {h : Heap} {live : List Live}
    {free : List Word} {n : Word} (hi : PagesInv h live free) (hne : source h.requests n ≠ null) {c : Word}
    (hc : Header live free c) :
    c.toNat+8+8*(h.blockSize c).toNat ≤ (source h.requests n).toNat ∨
      (source h.requests n).toNat+4096*n.toNat ≤ c.toNat := by
  obtain ⟨r,hr,hcfit⟩ := hi.inside c hc
  have hap := hs.apart h.requests n hne r hr hcfit.range
  have h1 := hcfit.start
  have h2 := hcfit.finish
  simp only [Extent.Apart, Request.extent] at hap
  omega

theorem header_append {live : List Live} {free : List Word} {b c : Word} (h : Header live (free ++ [b]) c) :
    Header live free c ∨ c = b := by
  rcases h with hc | hx
  · rcases List.mem_append.mp hc with hf | hb
    · exact Or.inl (Or.inl hf)
    · exact Or.inr (List.mem_singleton.mp hb)
  · exact Or.inl (Or.inr hx)

theorem pages_extend {h h' : Heap} {live : List Live} {free : List Word} {r : Request} {b : Word}
    (hi : PagesInv h live free) (hreq : h'.requests = r::h.requests)
    (hbound : r.address.toNat+4096*r.numPages.toNat ≤ 2^32) (hfit : Fits r b (h'.blockSize b).toNat)
    (hsize : ∀ c, c ≠ b → h'.blockSize c = h.blockSize c)
    (hout : ∀ c, Header live free c → c.toNat+8+8*(h.blockSize c).toNat ≤ r.address.toNat ∨
      r.address.toNat+4096*r.numPages.toNat ≤ c.toNat)
    (hlinked : b ∉ free → Linked null h'.links.next h'.links.head (free ++ [b]) null) :
    PagesInv h' live (free ++ [b]) := by
  have hstart := hfit.start
  have hfinish := hfit.finish
  have hnew : ∀ c, Header live free c → c ≠ b := by
    rintro c hc rfl
    have := hout c hc
    omega
  have hold : ∀ c, Header live free c → h'.blockSize c = h.blockSize c := fun c hc => hsize c (hnew c hc)
  have hnot : b ∉ free := fun hm => hnew b (Or.inl hm) rfl
  refine ⟨hlinked hnot,?_,?_,?_,?_,?_⟩
  · exact List.nodup_append.mpr ⟨hi.nodup,List.nodup_singleton b,fun x hx y hy he =>
      hnot (List.mem_singleton.mp hy ▸ he ▸ hx)⟩
  · rw [hreq]
    exact List.forall_mem_cons.mpr ⟨fun _ => hbound,hi.bounded⟩
  · intro c hc
    rw [hreq]
    rcases header_append hc with hc | rfl
    · obtain ⟨r',hr',hcfit⟩ := hi.inside c hc
      rw [hold c hc]
      exact ⟨r',List.mem_cons_of_mem _ hr',hcfit⟩
    · exact ⟨r,List.mem_cons_self,hfit⟩
  · intro x hx
    obtain ⟨r',hr',hxfit⟩ := hi.payload x hx
    rw [hreq]
    exact ⟨r',List.mem_cons_of_mem _ hr',hxfit⟩
  · intro c d hc hd hlt
    rcases header_append hc with hc' | rfl <;> rcases header_append hd with hd' | rfl
    · rw [hold c hc']
      exact hi.spread c d hc' hd' hlt
    · have := hout c hc'
      rw [hold c hc']
      omega
    · have := hout d hd'
      omega
    · omega

theorem grow_pages {source : PageSource} (hs : PageRanges source) {h h' : Heap} {live : List Live}
    {free : List Word} {fuel : ℕ} {n : Word} (hi : PagesInv h live free)
    (hne : source h.requests n ≠ null) (h0 : 0 < n.toNat) (hn : n.toNat < 2^18)
    (hk : kfree fuel (source h.requests n+headerSize) (Heap.setSize { h with
      requests := ⟨n, source h.requests n⟩ :: h.requests } (source h.requests n) (grownSize n)) = some h') :
    PagesInv h' live (free ++ [source h.requests n]) ∧ ∀ x ∈ free, h'.blockSize x = h.blockSize x := by
  have hfit := grown_fits hs hne h0 hn
  have hbound := hs.fits h.requests n hne
  have hout := fun c (hc : Header live free c) => grown_outside hs hi hne hc
  obtain ⟨b,hb⟩ : ∃ b, b = source h.requests n := ⟨_,rfl⟩
  rw [← hb] at hne hk hfit hbound hout ⊢
  have hheap : h' = ((Heap.setSize { h with requests := ⟨n, b⟩ :: h.requests } b (grownSize n)).assign
      (cellAfter free) b).assign (some b) null := kfree_links (by exact hi.linked) hk
  have hself : h'.blockSize b = grownSize n := by
    rw [hheap]
    exact setSize_self _ b _
  have hsize : ∀ c, c ≠ b → h'.blockSize c = h.blockSize c := fun c hc => by
    rw [hheap]
    exact setSize_ne _ _ hc
  have hinv : PagesInv h' live (free ++ [b]) := by
    apply pages_extend hi (by rw [hheap]; rfl) hbound (by rwa [hself]) hsize hout
    intro hnot
    rw [hheap]
    exact linked_snoc hi.nodup hnot hne hi.linked
  refine ⟨hinv,fun x hx => hsize x fun he => ?_⟩
  have := (List.nodup_append.mp hinv.nodup).2.2 x hx b (List.mem_singleton_self b)
  exact this he

theorem increase_pages {source : PageSource} (hs : PageRanges source) {h h' : Heap} {live : List Live}
    {free : List Word} {fuel : ℕ} {units : Word} {code : ErrorCode} (hi : PagesInv h live free)
    (hu : units.toNat < 2^29) (hk : increaseHeapSize source fuel units h = some (code, h')) :
    (code = .failure ∧ PagesInv h' live free) ∨
    (code = .success ∧ ∃ b, PagesInv h' live (free ++ [b]) ∧ ∀ x ∈ free, h'.blockSize x = h.blockSize x) := by
  have hn := toNat_pageCount units hu
  rcases increase_cases hk with ⟨hcode,hnull,rfl⟩ | ⟨hcode,hne,hfreed⟩
  · refine Or.inl ⟨hcode,hi.linked,hi.nodup,?_,?_,?_,hi.spread⟩
    · exact List.forall_mem_cons.mpr ⟨fun h0 => absurd hnull h0,hi.bounded⟩
    · intro b hb
      obtain ⟨r,hr,hfit⟩ := hi.inside b hb
      exact ⟨r,List.mem_cons_of_mem _ hr,hfit⟩
    · intro x hx
      obtain ⟨r,hr,hfit⟩ := hi.payload x hx
      exact ⟨r,List.mem_cons_of_mem _ hr,hfit⟩
  · obtain ⟨hinv,hsame⟩ := grow_pages hs hi hne (by omega) (by omega) hfreed
    exact Or.inr ⟨hcode,_,hinv,hsame⟩

/-- The search of `kmalloc` fails or takes the first block that is large enough. -/
theorem search_pages {source : PageSource} (hs : PageRanges source) {units : Word} (hu : units.toNat < 2^29)
    {fuel : ℕ} {h h' : Heap} {live : List Live} (pre post : List Word) {a : Word}
    (hi : PagesInv h live (pre ++ post)) (hpre : ∀ x ∈ pre, h.blockSize x < units)
    (hk : search source units fuel (cellAfter pre) h = some (a, h')) :
    (a = null ∧ ∃ free, PagesInv h' live free) ∨
    ∃ (g : Heap) (l : List Word) (b : Word) (m : List Word), PagesInv g live (l ++ b::m) ∧
      (a, h') = take units (cellAfter l) g ∧ g.blockSize b ≥ units ∧ ∀ x ∈ l, g.blockSize x < units := by
  induction fuel generalizing h pre post with
  | zero => cases hk
  | succ fuel ih =>
    cases post with
    | cons b post =>
      obtain ⟨r,hlpre,hr,hb,-⟩ := linked_append.mp hi.linked
      subst hr
      rw [search_block (load_cellAfter hlpre) hb] at hk
      split at hk
      · rename_i hfit
        exact Or.inr ⟨h,pre,r,post,hi,(Option.some.inj hk).symm,hfit,hpre⟩
      · rename_i hfit
        apply ih (pre ++ [r]) post (by simpa using hi) _ hk
        exact List.forall_mem_append.mpr ⟨hpre,by simpa using hfit⟩
    | nil =>
      rw [List.append_nil] at hi
      obtain ⟨code,g,hgrow,hround⟩ := search_end (load_cellAfter hi.linked) hk
      rcases increase_pages hs hi hu hgrow with ⟨rfl,hinv⟩ | ⟨rfl,b,hinv,hsame⟩
      · rw [if_neg (by decide)] at hround
        obtain ⟨rfl,rfl⟩ := hround
        exact Or.inl ⟨rfl,_,hinv⟩
      · have hsmall : ∀ x ∈ pre, g.blockSize x < units := fun x hx => by
          rw [hsame x hx]
          exact hpre x hx
        obtain ⟨r,hlpre,hr,hb,-⟩ := linked_append.mp hinv.linked
        subst hr
        rw [if_pos rfl, load_cellAfter hlpre] at hround
        split at hround
        · rename_i hfit
          exact Or.inr ⟨g,pre,r,[],hinv,(Option.some.inj hround).symm,hfit,hsmall⟩
        · rename_i hfit
          apply ih (pre ++ [r]) [] (by simpa using hinv) _ hround
          exact List.forall_mem_append.mpr ⟨hsmall,by simpa using hfit⟩

/-! ## Taking a block -/

theorem back (b : Word) : b+headerSize-headerSize = b := BitVec.add_sub_cancel b headerSize

theorem address_ne_null {r : Request} {b : Word} {units : ℕ} (hfit : Fits r b units)
    (hbound : r.address.toNat+4096*r.numPages.toNat ≤ 2^32) : b+headerSize ≠ null := by
  have hroom := hfit.room
  rw [headerSize, null_eq]
  bv_omega

theorem take_whole_pages {h : Heap} {live : List Live} {l m : List Word} {b size : Word}
    (hi : PagesInv h live (l ++ b::m)) (hsize : h.blockSize b = unitsOf size) :
    (take (unitsOf size) (cellAfter l) h).1 ≠ null ∧
    PagesInv (take (unitsOf size) (cellAfter l) h).2
      (⟨(take (unitsOf size) (cellAfter l) h).1, size⟩ :: live) (l ++ m) := by
  obtain ⟨r,hl,hr,-,-⟩ := linked_append.mp hi.linked
  subst hr
  have hmem : Header live (l ++ r::m) r := Or.inl (by simp)
  obtain ⟨q,hq,hfit⟩ := hi.inside r hmem
  rw [take_whole_eq hl hsize]
  refine ⟨address_ne_null hfit (hi.bounded q hq hfit.range),
    inv_mono hi (linked_unlink hi.nodup hi.linked) (hi.nodup.sublist (by simp)) rfl rfl ?_ ?_⟩
  · rintro c (hc | ⟨x,hx,he⟩)
    · exact Or.inl (by simp only [List.mem_append, List.mem_cons] at hc ⊢; tauto)
    · rcases List.mem_cons.mp hx with rfl | hx
      · rw [← he, back]
        exact hmem
      · exact Or.inr ⟨x,hx,he⟩
  · refine List.forall_mem_cons.mpr ⟨⟨q,hq,?_⟩,hi.payload⟩
    rw [back, ← hsize]
    exact hfit

theorem toNat_cut {h : Heap} {live : List Live} {free : List Word} {r units : Word} (hi : PagesInv h live free)
    (hr : Header live free r) (hgt : h.blockSize r > units) :
    (r+headerSize*h.blockSize r-headerSize*units-headerSize).toNat =
      r.toNat+8*((h.blockSize r).toNat-units.toNat-1) := by
  obtain ⟨q,hq,hfit⟩ := hi.inside r hr
  have hbound := hi.bounded q hq hfit.range
  have hfinish := hfit.finish
  rw [headerSize]
  bv_omega

def cutSize (h : Heap) (r f units c : Word) : ℕ :=
  if c = r then (if r = f then 0 else (h.blockSize r).toNat-units.toNat)
  else if c = f then units.toNat else (h.blockSize c).toNat

theorem take_cut {h : Heap} {live : List Live} {l m : List Word} {r units : Word}
    (hi : PagesInv h live (l ++ r::m)) (hl : ∀ x ∈ l, h.blockSize x < units) (hgt : h.blockSize r > units) :
    ∃ f h', f.toNat = r.toNat+8*((h.blockSize r).toNat-units.toNat-1) ∧
      take units (cellAfter l) h = (f+headerSize, h') ∧ h'.links = store h.links (some f) null ∧
      h'.requests = h.requests ∧ ∀ c, (h'.blockSize c).toNat = cutSize h r f units c := by
  obtain ⟨r',hpath,hr,-,-⟩ := linked_append.mp hi.linked
  subst hr
  have hmem : Header live (l ++ r'::m) r' := Or.inl (by simp)
  have hcut := toNat_cut hi hmem hgt
  obtain ⟨f,hf⟩ : ∃ f, f = r'+headerSize*h.blockSize r'-headerSize*units-headerSize := ⟨_,rfl⟩
  rw [← hf] at hcut
  -- a block in front is smaller than `units`, so it is not the one cut off
  have hnot : f ∉ l := by
    intro hfl
    have hne : f ≠ r' := fun he => by
      have hdisj := List.disjoint_of_nodup_append hi.nodup
      exact hdisj hfl (by rw [he]; simp)
    have hnat : f.toNat ≠ r'.toNat := fun he => hne (BitVec.eq_of_toNat_eq he)
    have hspread := hi.spread r' f hmem (Or.inl (by simp [hfl])) (by omega)
    have hsmall := hl f hfl
    bv_omega
  refine ⟨f,_,hcut,(take_cut_eq hpath hgt hf hnot).2,rfl,rfl,fun c => ?_⟩
  by_cases hc : c = r'
  · rw [cutSize, if_pos hc, hc, setSize_self, toNat_cut_rest hgt]
  · rw [cutSize, if_neg hc, setSize_ne _ _ hc]
    change ((h.setSize f units).blockSize c).toNat = _
    split
    case isTrue he => rw [he, setSize_self]
    case isFalse he => rw [setSize_ne h _ he]

section
variable {h : Heap} {live : List Live} {free : List Word} {r f units : Word}

theorem cut_inside (hi : PagesInv h live free) (hr : Header live free r)
    (hf : f.toNat = r.toNat+8*((h.blockSize r).toNat-units.toNat-1)) (hgt : units.toNat < (h.blockSize r).toNat) :
    ∃ q ∈ h.requests, Fits q f units.toNat ∧ Fits q r (cutSize h r f units r) := by
  obtain ⟨q,hq,hrange,hstart,haligned,hfinish,hroom⟩ := hi.inside r hr
  refine ⟨q,hq,⟨hrange,by omega,by omega,by omega,by omega⟩,hrange,hstart,haligned,?_,hroom⟩
  rw [cutSize, if_pos rfl]
  split <;> omega

theorem cut_fits (hi : PagesInv h live free) (hr : Header live free r)
    (hf : f.toNat = r.toNat+8*((h.blockSize r).toNat-units.toNat-1)) (hgt : units.toNat < (h.blockSize r).toNat)
    {c : Word} (hc : Header live free c ∨ c = f) : ∃ q ∈ h.requests, Fits q c (cutSize h r f units c) := by
  obtain ⟨q,hq,hffit,hrfit⟩ := cut_inside hi hr hf hgt
  by_cases hcr : c = r
  · rw [hcr]
    exact ⟨q,hq,hrfit⟩
  · rw [cutSize, if_neg hcr]
    by_cases hcf : c = f
    · rw [if_pos hcf, hcf]
      exact ⟨q,hq,hffit⟩
    · rw [if_neg hcf]
      exact hi.inside c (hc.resolve_right hcf)

theorem cut_spread (hi : PagesInv h live free) (hr : Header live free r)
    (hf : f.toNat = r.toNat+8*((h.blockSize r).toNat-units.toNat-1)) (hgt : units.toNat < (h.blockSize r).toNat)
    {c d : Word} (hc : Header live free c ∨ c = f) (hd : Header live free d ∨ d = f) (hcd : c.toNat < d.toNat) :
    c.toNat+8*cutSize h r f units c ≤ d.toNat+8 := by
  have hbehind : ∀ e, Header live free e → r.toNat < e.toNat →
      r.toNat+8*(h.blockSize r).toNat ≤ e.toNat+8 := fun e he hre => hi.spread r e hr he hre
  rw [cutSize]
  by_cases hcr : c = r
  · subst hcr
    rw [if_pos rfl]
    rcases hd with hold | rfl
    · have := hbehind d hold hcd
      split <;> omega
    · split <;> omega
  · rw [if_neg hcr]
    by_cases hcf : c = f
    · subst hcf
      rw [if_pos rfl]
      rcases hd with hold | rfl
      · have := hbehind d hold (by omega)
        omega
      · omega
    · rw [if_neg hcf]
      have hold : Header live free c := hc.resolve_right hcf
      have hne : c.toNat ≠ r.toNat := fun he => hcr (BitVec.eq_of_toNat_eq he)
      rcases hd with hold' | rfl
      · exact hi.spread c d hold hold' hcd
      · by_cases hlow : c.toNat < r.toNat
        · have := hi.spread c r hold hr hlow
          omega
        · have := hbehind c hold (by omega)
          omega

end

theorem take_cut_pages {h : Heap} {live : List Live} {l m : List Word} {r size : Word}
    (hi : PagesInv h live (l ++ r::m)) (hl : ∀ x ∈ l, h.blockSize x < unitsOf size)
    (hgt : h.blockSize r > unitsOf size) :
    (take (unitsOf size) (cellAfter l) h).1 ≠ null ∧ ∃ free,
    PagesInv (take (unitsOf size) (cellAfter l) h).2
      (⟨(take (unitsOf size) (cellAfter l) h).1, size⟩ :: live) free := by
  obtain ⟨f,h',hf,htake,hlinks,hreq,hsize⟩ := take_cut hi hl hgt
  have hmem : Header live (l ++ r::m) r := Or.inl (by simp)
  obtain ⟨q,hq,hffit,-⟩ := cut_inside hi hmem hf hgt
  obtain ⟨free,hfront,hlinked⟩ := linked_cut f hi.nodup hi.linked
  have hheader : ∀ c, Header (⟨f+headerSize, size⟩ :: live) free c → Header live (l ++ r::m) c ∨ c = f := by
    rintro c (hc | ⟨x,hx,he⟩)
    · exact Or.inl (Or.inl (hfront.subset hc))
    · rcases List.mem_cons.mp hx with rfl | hx
      · rw [← he, back]
        exact Or.inr rfl
      · exact Or.inl (Or.inr ⟨x,hx,he⟩)
  rw [htake]
  refine ⟨address_ne_null hffit (hi.bounded q hq hffit.range),free,?_,hi.nodup.sublist hfront.sublist,?_,?_,?_,?_⟩
  · rw [hlinks]
    exact hlinked
  · rw [hreq]
    exact hi.bounded
  · intro c hc
    rw [hreq, hsize]
    exact cut_fits hi hmem hf hgt (hheader c hc)
  · rw [hreq]
    refine List.forall_mem_cons.mpr ⟨⟨q,hq,?_⟩,hi.payload⟩
    rw [back]
    exact hffit
  · intro c d hc hd hcd
    rw [hsize]
    exact cut_spread hi hmem hf hgt (hheader c hc) (hheader d hd) hcd

/-! ## Sessions -/

def Inv (s : Session) : Prop := ∃ free, PagesInv s.heap s.live free

theorem kmalloc_pages {source : PageSource} (hs : PageRanges source) {fuel : ℕ} {size a : Word} {h h' : Heap}
    {live : List Live} {free : List Word} (hi : PagesInv h live free)
    (hk : kmalloc source fuel size h = some (a, h')) :
    Inv ⟨h', if a = null then live else ⟨a, size⟩ :: live⟩ := by
  rcases search_pages hs (unitsOf_lt size) [] free hi (by simp) hk with
    ⟨ha,free',hi'⟩ | ⟨g,l,b,m,hinv,htake,hge,hl⟩
  · rw [if_pos ha]
    exact ⟨free',hi'⟩
  · by_cases hgt : g.blockSize b > unitsOf size
    · obtain ⟨hne,free',hinv'⟩ := take_cut_pages hinv hl hgt
      rw [← htake] at hne hinv'
      rw [if_neg hne]
      exact ⟨free',hinv'⟩
    · have hsize : g.blockSize b = unitsOf size := by bv_omega
      obtain ⟨hne,hinv'⟩ := take_whole_pages hinv hsize
      rw [← htake] at hne hinv'
      rw [if_neg hne]
      exact ⟨l ++ m,hinv'⟩

theorem step_pages {source : PageSource} (hs : PageRanges source) {fuel : ℕ} {s s' : Session} {op : Op}
    (hi : Inv s) (hk : step source fuel s op = some s') : Inv s' := by
  obtain ⟨free,hi⟩ := hi
  cases op with
  | kmalloc size =>
    simp only [step] at hk
    split at hk
    · cases hk
    · rename_i a h hkm
      rw [Option.some.injEq] at hk
      subst hk
      exact kmalloc_pages hs hi hkm
  | kfree address =>
    have hruns : KernelMallocRuns.step source fuel s (.kfree address) = some s' := hk
    obtain ⟨x,hx,rfl,h,hkf,rfl⟩ := step_kfree hruns
    rw [show x.address = x.address-headerSize+headerSize from
      (BitVec.sub_add_cancel x.address headerSize).symm] at hkf
    exact kfree_pages hi (Or.inr ⟨x,hx,rfl⟩) (fun y hy => List.mem_of_mem_erase hy) hkf

/-- However blocks are taken, split and freed, headers and payloads stay inside
the pages obtained and the free list ends. -/
theorem kmalloc_inside_pages (source : PageSource) (hs : PageRanges source) (fuel : ℕ) (ops : List Op) :
    Transition.Always (step source fuel) InsidePages ops ⟨Heap.boot, []⟩ := by
  apply Transition.always_of_invariant (I := Inv) (fun s ⟨free,hi⟩ => inside_of_inv hi)
    (fun s op s' hi hk => step_pages hs hi hk)
  refine ⟨[],rfl,List.nodup_nil,?_,?_,?_,?_⟩ <;> simp [Heap.boot, Header]

theorem onePage_ranges : PageRanges onePage := by
  refine ⟨onePage_fresh,fun rs n => ?_⟩
  rw [onePage]
  split <;> rfl

/-- The second block shares the header of the first; both are freed. -/
theorem shared_header_inside : PageRanges onePage ∧
    Transition.Always (step onePage 4) InsidePages
      [.kmalloc 8#32, .kmalloc 0#32, .kfree 0xC0800FF0#32, .kfree 0xC0800FF0#32] ⟨Heap.boot, []⟩ :=
  ⟨onePage_ranges,kmalloc_inside_pages onePage onePage_ranges 4 _⟩

end MikeOS.KernelMallocPages
