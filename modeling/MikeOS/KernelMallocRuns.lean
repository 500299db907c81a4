import MikeOS.KernelMalloc
import MikeOS.Library.Transition

/-!
# Live blocks and free blocks

A session pairs the heap with the blocks handed out and not freed since. The
invariant lists the free blocks in the order of the links and keeps the
extents of all blocks, free and live, apart from each other and within the
pages obtained. A block taken whole moves from one list to the other; a block
taken from the tail of a larger one overlaps what stays on the free list.
-/

set_option autoImplicit false

namespace MikeOS.KernelMallocRuns
open LinkedList MikeOS.KernelMalloc

structure Live where
  address : Word
  size : Word
  deriving DecidableEq, Repr

def Live.extent (x : Live) : Extent := ⟨(x.address-headerSize).toNat, 8+8*((x.size.toNat+7)/8)⟩

def freeExtent (h : Heap) (block : Word) : Extent := ⟨block.toNat, 8+8*(h.blockSize block).toNat⟩

def Request.extent (r : Request) : Extent := ⟨r.address.toNat, 4096*r.numPages.toNat⟩

/-- What is assumed of `alloc_kheap_pages`: the ranges it returns are within
the address space and apart from those it returned before. -/
structure FreshPages (source : PageSource) : Prop where
  fits : ∀ rs n, source rs n ≠ null → (source rs n).toNat+4096*n.toNat ≤ 2^32
  apart : ∀ rs n, source rs n ≠ null → ∀ r ∈ rs, r.address ≠ null →
    Extent.Apart (Request.extent ⟨n, source rs n⟩) (Request.extent r)

structure HeapInv (h : Heap) (live : List Live) (free : List Word) : Prop where
  linked : Linked null h.links.next h.links.head free null
  apart : (free.map (freeExtent h) ++ live.map Live.extent).Pairwise Extent.Apart
  free_in : ∀ b ∈ free, ∃ r ∈ h.requests, r.address ≠ null ∧
    Extent.Within (freeExtent h b) (Request.extent r)
  live_in : ∀ x ∈ live, ∃ r ∈ h.requests, r.address ≠ null ∧
    Extent.Within x.extent (Request.extent r)
  requests_fit : ∀ r ∈ h.requests, r.address ≠ null →
    (Request.extent r).start+(Request.extent r).len ≤ 2^32
  free_pos : ∀ b ∈ free, 0 < (h.blockSize b).toNat
  live_size : ∀ x ∈ live, 0 < x.size.toNat ∧ x.size.toNat+7 < 2^32 ∧
    h.blockSize (x.address-headerSize) = unitsOf x.size

theorem word_pos {a : Word} (h : a ≠ null) : 0 < a.toNat := by
  rw [null_eq] at h
  bv_omega

theorem live_extent_eq {h : Heap} {live : List Live} {free : List Word} (hi : HeapInv h live free)
    {x : Live} (hx : x ∈ live) : freeExtent h (x.address-headerSize) = x.extent := by
  obtain ⟨-,hs,hb⟩ := hi.live_size x hx
  rw [freeExtent, Live.extent, hb, toNat_unitsOf, Nat.mod_eq_of_lt hs]

theorem free_nodup {h : Heap} {live : List Live} {free : List Word} (hi : HeapInv h live free) :
    free.Nodup := by
  have hp := (List.pairwise_append.mp hi.apart).1
  rw [List.pairwise_map] at hp
  exact hp.imp (fun hab he => hab.start_ne (by simp [freeExtent]) (by simp [freeExtent])
    (by rw [he]))

/-! ## kfree -/

theorem lastCell_eq {h : Heap} {fuel : ℕ} (pre post : List Word) {c : Cell Word}
    (hl : Linked null h.links.next h.links.head (pre ++ post) null)
    (hc : lastCell h fuel (cellAfter pre) = some c) : c = cellAfter (pre ++ post) := by
  induction fuel generalizing pre post with
  | zero => cases hc
  | succ fuel ih =>
    obtain ⟨r,hpre,hpost⟩ := linked_append.mp hl
    rw [lastCell, load_cellAfter hpre] at hc
    cases post with
    | nil =>
      rw [show r = null from hpost, if_neg (not_not.mpr rfl), Option.some.injEq] at hc
      rw [← hc, List.append_nil]
    | cons x post =>
      obtain ⟨hr,hx,-⟩ := hpost
      rw [hr, if_pos hx] at hc
      rw [← cellAfter_snoc pre x] at hc
      have := ih (pre ++ [x]) post (by simpa using hl) hc
      simpa using this

theorem kfree_links {h h' : Heap} {free : List Word} {b : Word} {fuel : ℕ}
    (hl : Linked null h.links.next h.links.head free null) (hk : kfree fuel (b+headerSize) h = some h') :
    h' = (h.assign (cellAfter free) b).assign (some b) null := by
  have hblock : b+headerSize-headerSize = b := BitVec.add_sub_cancel b headerSize
  simp only [kfree, hblock] at hk
  cases hc : lastCell h fuel none with
  | none =>
    rw [hc] at hk
    cases hk
  | some c =>
    have hcell : c = cellAfter free := lastCell_eq [] free hl hc
    rw [hc, Option.some.injEq, hcell] at hk
    exact hk.symm

theorem kfree_inv {h h' : Heap} {live : List Live} {free : List Word} {b : Word} {fuel : ℕ}
    (hi : HeapInv h live free) (hb : b ≠ null) (hpos : 0 < (h.blockSize b).toNat)
    (happ : ∀ e ∈ free.map (freeExtent h) ++ live.map Live.extent, Extent.Apart e (freeExtent h b))
    (hin : ∃ r ∈ h.requests, r.address ≠ null ∧ Extent.Within (freeExtent h b) (Request.extent r))
    (hk : kfree fuel (b+headerSize) h = some h') :
    HeapInv h' live (free ++ [b]) ∧ h'.blockSize = h.blockSize ∧ h'.requests = h.requests := by
  have hnot : b ∉ free := by
    intro hm
    have := happ _ (List.mem_append_left _ (List.mem_map.mpr ⟨b,hm,rfl⟩))
    exact this.start_ne (by simp [freeExtent]) (by simp [freeExtent]) rfl
  rw [kfree_links hi.linked hk]
  refine ⟨⟨?_,?_,?_,hi.live_in,hi.requests_fit,?_,hi.live_size⟩,rfl,rfl⟩
  · exact linked_snoc (free_nodup hi) hnot hb hi.linked
  · rw [List.map_append, List.append_assoc, List.map_singleton]
    refine Extent.pairwise_perm ?_ (List.pairwise_cons.mpr ⟨fun e he => (happ e he).symm,hi.apart⟩)
    exact List.perm_middle.symm
  · intro x hx
    rcases List.mem_append.mp hx with hf | hs
    · exact hi.free_in x hf
    · rw [List.mem_singleton.mp hs]
      exact hin
  · intro x hx
    rcases List.mem_append.mp hx with hf | hs
    · exact hi.free_pos x hf
    · rw [List.mem_singleton.mp hs]
      exact hpos

/-! ## Growing the heap -/

theorem request_inv {h : Heap} {live : List Live} {free : List Word} (hi : HeapInv h live free)
    {source : PageSource} (hs : FreshPages source) (n : Word) :
    HeapInv { h with requests := ⟨n, source h.requests n⟩ :: h.requests } live free := by
  refine ⟨hi.linked,hi.apart,?_,?_,?_,hi.free_pos,hi.live_size⟩
  · intro b hb
    obtain ⟨r,hr,hrest⟩ := hi.free_in b hb
    exact ⟨r,List.mem_cons_of_mem _ hr,hrest⟩
  · intro x hx
    obtain ⟨r,hr,hrest⟩ := hi.live_in x hx
    exact ⟨r,List.mem_cons_of_mem _ hr,hrest⟩
  · intro r hr hne
    rcases List.mem_cons.mp hr with rfl | hr
    · exact hs.fits h.requests n hne
    · exact hi.requests_fit r hr hne

theorem setSize_inv {h : Heap} {live : List Live} {free : List Word} (hi : HeapInv h live free)
    {b size : Word} (hf : b ∉ free) (hl : ∀ x ∈ live, x.address-headerSize ≠ b) :
    HeapInv (h.setSize b size) live free := by
  have hext : ∀ c ∈ free, freeExtent (h.setSize b size) c = freeExtent h c := fun c hc => by
    rw [freeExtent, freeExtent, setSize_ne h size (ne_of_mem_of_not_mem hc hf)]
  refine ⟨hi.linked,?_,?_,hi.live_in,hi.requests_fit,?_,?_⟩
  · rw [List.map_congr_left hext]
    exact hi.apart
  · intro c hc
    rw [hext c hc]
    exact hi.free_in c hc
  · intro c hc
    rw [setSize_ne h size (ne_of_mem_of_not_mem hc hf)]
    exact hi.free_pos c hc
  · intro x hx
    rw [setSize_ne h size (hl x hx)]
    exact hi.live_size x hx

theorem extent_apart_new {h : Heap} {live : List Live} {free : List Word} (hi : HeapInv h live free)
    {source : PageSource} (hs : FreshPages source) {n : Word} (hne : source h.requests n ≠ null) :
    ∀ e ∈ free.map (freeExtent h) ++ live.map Live.extent,
      Extent.Apart e (Request.extent ⟨n, source h.requests n⟩) := by
  have hself : Extent.Within (Request.extent ⟨n, source h.requests n⟩)
      (Request.extent ⟨n, source h.requests n⟩) := ⟨le_refl _,le_refl _⟩
  intro e he
  rcases List.mem_append.mp he with hf | hl
  · obtain ⟨b,hb,rfl⟩ := List.mem_map.mp hf
    obtain ⟨r,hr,hrne,hw⟩ := hi.free_in b hb
    exact (hs.apart h.requests n hne r hr hrne).symm.of_within hw hself
  · obtain ⟨x,hx,rfl⟩ := List.mem_map.mp hl
    obtain ⟨r,hr,hrne,hw⟩ := hi.live_in x hx
    exact (hs.apart h.requests n hne r hr hrne).symm.of_within hw hself

theorem grow_inv {h h' : Heap} {live : List Live} {free : List Word} (hi : HeapInv h live free)
    {source : PageSource} (hs : FreshPages source) {fuel : ℕ} {n b : Word}
    (hb : source h.requests n = b) (hne : b ≠ null) (h0 : 0 < n.toNat) (hn : n.toNat < 2^18)
    (hk : kfree fuel (b+headerSize)
      (Heap.setSize { h with requests := ⟨n, b⟩ :: h.requests } b (grownSize n)) = some h') :
    HeapInv h' live (free ++ [b]) ∧ h'.blockSize b = grownSize n ∧
      ∀ x ∈ free, h'.blockSize x = h.blockSize x := by
  have hnew := extent_apart_new hi hs (n := n) (by rwa [hb])
  have hreq := request_inv hi hs n
  rw [hb] at hnew hreq
  have hg := toNat_grownSize n h0 hn
  have hlen : 0 < (Request.extent ⟨n, b⟩).len := by
    simp only [Request.extent]
    omega
  have hf : b ∉ free := fun hm =>
    (hnew _ (List.mem_append_left _ (List.mem_map.mpr ⟨b,hm,rfl⟩))).start_ne
      (by simp [freeExtent]) hlen rfl
  have hl : ∀ x ∈ live, x.address-headerSize ≠ b := fun x hx he =>
    (hnew _ (List.mem_append_right _ (List.mem_map.mpr ⟨x,hx,rfl⟩))).start_ne
      (by simp [Live.extent]) hlen (by simp only [Live.extent, Request.extent, he])
  have hext : freeExtent (Heap.setSize { h with requests := ⟨n, b⟩ :: h.requests } b (grownSize n)) b =
      Request.extent ⟨n, b⟩ := by
    rw [freeExtent, setSize_self, Request.extent, hg]
    simp only [Extent.mk.injEq, true_and]
    omega
  have hsame : ∀ x ∈ free, (Heap.setSize { h with requests := ⟨n, b⟩ :: h.requests } b
      (grownSize n)).blockSize x = h.blockSize x := fun x hx =>
    setSize_ne _ _ (ne_of_mem_of_not_mem hx hf)
  have hall : free.map (freeExtent (Heap.setSize { h with requests := ⟨n, b⟩ :: h.requests } b
      (grownSize n))) = free.map (freeExtent h) :=
    List.map_congr_left (fun x hx => by rw [freeExtent, freeExtent, hsame x hx])
  obtain ⟨hinv,hbs,-⟩ := kfree_inv (setSize_inv hreq hf hl) hne
    (by rw [setSize_self, hg]; omega) (by rw [hall, hext]; exact hnew)
    ⟨_,List.mem_cons_self,hne,by rw [hext]; exact ⟨le_refl _,le_refl _⟩⟩ hk
  exact ⟨hinv,by rw [hbs, setSize_self],fun x hx => by rw [hbs, hsame x hx]⟩

/-- The heap does not grow, or a block of new pages is freed into it. -/
theorem increase_cases {source : PageSource} {fuel : ℕ} {units : Word} {h h' : Heap} {code : ErrorCode}
    (hk : increaseHeapSize source fuel units h = some (code, h')) :
    (code = .failure ∧ source h.requests (pageCount units) = null ∧
      h' = { h with requests := ⟨pageCount units, source h.requests (pageCount units)⟩ :: h.requests }) ∨
    (code = .success ∧ source h.requests (pageCount units) ≠ null ∧
      kfree fuel (source h.requests (pageCount units)+headerSize) (Heap.setSize { h with
        requests := ⟨pageCount units, source h.requests (pageCount units)⟩ :: h.requests }
        (source h.requests (pageCount units)) (grownSize (pageCount units))) = some h') := by
  simp only [increaseHeapSize] at hk
  split at hk
  · rename_i hnull
    rw [Option.some.injEq, Prod.mk.injEq] at hk
    exact Or.inl ⟨hk.1.symm,hnull,hk.2.symm⟩
  · rename_i hne
    split at hk
    · cases hk
    · rename_i g hg
      rw [Option.some.injEq, Prod.mk.injEq] at hk
      exact Or.inr ⟨hk.1.symm,hne,hk.2 ▸ hg⟩

theorem increase_inv {h h' : Heap} {live : List Live} {free : List Word} (hi : HeapInv h live free)
    {source : PageSource} (hs : FreshPages source) {fuel : ℕ} {units : Word} {code : ErrorCode}
    (hu : units.toNat < 2^29) (hk : increaseHeapSize source fuel units h = some (code, h')) :
    (code = .failure ∧ source h.requests (pageCount units) = null ∧ HeapInv h' live free) ∨
    (code = .success ∧ source h.requests (pageCount units) ≠ null ∧
      ∃ b, HeapInv h' live (free ++ [b]) ∧ h'.blockSize b = grownSize (pageCount units) ∧
        ∀ x ∈ free, h'.blockSize x = h.blockSize x) := by
  have hn := toNat_pageCount units hu
  rcases increase_cases hk with ⟨hcode,hnull,rfl⟩ | ⟨hcode,hne,hfreed⟩
  · exact Or.inl ⟨hcode,hnull,request_inv hi hs _⟩
  · exact Or.inr ⟨hcode,hne,_,grow_inv hi hs rfl hne (by omega) (by omega) hfreed⟩

/-! ## The search of kmalloc -/

def OnFreeList (h : Heap) (b : Word) : Prop :=
  b ≠ null ∧ ∃ path, Linked null h.links.next h.links.head path b

def FirstFit (h : Heap) (units b : Word) : Prop :=
  b ≠ null ∧ h.blockSize b ≥ units ∧
    ∃ path, Linked null h.links.next h.links.head path b ∧ ∀ x ∈ path, h.blockSize x < units

theorem onFreeList_iff {h : Heap} {live : List Live} {free : List Word} (hi : HeapInv h live free)
    (b : Word) : OnFreeList h b ↔ b ∈ free := by
  constructor
  · rintro ⟨hne,path,hpath⟩
    obtain ⟨rest,hrest⟩ := linked_split hi.linked hpath hne
    rw [hrest]
    simp
  · intro hb
    obtain ⟨path,rest,hsplit⟩ := List.append_of_mem hb
    have hl := hi.linked
    rw [hsplit] at hl
    obtain ⟨r,hpath,hr,hx,-⟩ := linked_append.mp hl
    exact ⟨hx,path,hr ▸ hpath⟩

theorem first_fit_unique {size : Word → Word} {units b c : Word} {l m path rest : List Word}
    (hl : ∀ x ∈ l, size x < units) (hb : size b ≥ units) (hp : ∀ x ∈ path, size x < units)
    (hc : size c ≥ units) (he : l ++ b::m = path ++ c::rest) : b = c := by
  induction l generalizing path with
  | nil =>
    cases path with
    | nil => exact (List.cons.inj he).1
    | cons y path =>
      have := hp y (by simp)
      rw [← (List.cons.inj he).1] at this
      bv_omega
  | cons x l ih =>
    cases path with
    | nil =>
      have := hl x (by simp)
      rw [(List.cons.inj he).1] at this
      bv_omega
    | cons y path =>
      exact ih (fun z hz => hl z (by simp [hz])) (fun z hz => hp z (by simp [hz])) (List.cons.inj he).2

theorem search_block {source : PageSource} {units : Word} {fuel : ℕ} {h : Heap} {pre : List Word} {r : Word}
    (hload : load h.links (cellAfter pre) = r) (hr : r ≠ null) :
    search source units (fuel+1) (cellAfter pre) h =
      if h.blockSize r ≥ units then some (take units (cellAfter pre) h)
      else search source units fuel (cellAfter (pre ++ [r])) h := by
  rw [search, hload, if_neg hr, cellAfter_snoc]
  simp only [hload]

theorem search_end {source : PageSource} {units : Word} {fuel : ℕ} {h h' : Heap} {pre : List Word} {a : Word}
    (hload : load h.links (cellAfter pre) = null)
    (hk : search source units (fuel+1) (cellAfter pre) h = some (a, h')) :
    ∃ code g, increaseHeapSize source fuel units h = some (code, g) ∧
      if code = .success then
        (if g.blockSize (load g.links (cellAfter pre)) ≥ units then some (take units (cellAfter pre) g)
        else search source units fuel (cellAfter (pre ++ [load g.links (cellAfter pre)])) g) = some (a, h')
      else a = null ∧ h' = g := by
  rw [search, hload] at hk
  simp only [if_true] at hk
  rcases hgrow : increaseHeapSize source fuel units h with _ | ⟨code,g⟩
  · rw [hgrow] at hk
    cases hk
  · rw [hgrow] at hk
    refine ⟨code,g,rfl,?_⟩
    split
    · rename_i hcode
      subst hcode
      rwa [cellAfter_snoc]
    · cases code with
      | success => contradiction
      | _ =>
        rw [Option.some.injEq, Prod.mk.injEq] at hk
        exact ⟨hk.1.symm,hk.2.symm⟩

/-- No block of `post` fits, and the heap cannot grow to fit. -/
def Refused (source : PageSource) (units : Word) (post : List Word) (h : Heap) (live : List Live) (a : Word)
    (h' : Heap) : Prop :=
  a = null ∧ (∃ free, HeapInv h' live free) ∧ (∀ x ∈ post, h.blockSize x < units) ∧
    (source h.requests (pageCount units) = null ∨ grownSize (pageCount units) < units)

/-- The first block that fits is taken: one of the list `free`, or when none of
`post` fits, the block that the first growth appended. -/
def Taken (source : PageSource) (units : Word) (free post : List Word) (h : Heap) (live : List Live) (a : Word)
    (h' : Heap) : Prop :=
  ∃ (g : Heap) (l : List Word) (b : Word) (m : List Word), HeapInv g live (l ++ b::m) ∧
    (a, h') = take units (cellAfter l) g ∧ g.blockSize b ≥ units ∧
    ((g = h ∧ free = l ++ b::m ∧ ∀ x ∈ l, h.blockSize x < units) ∨
      ((∀ x ∈ post, h.blockSize x < units) ∧ source h.requests (pageCount units) ≠ null ∧
        g.blockSize b = grownSize (pageCount units)))

theorem taken_cons {source : PageSource} {units : Word} {free post : List Word} {h h' : Heap} {live : List Live}
    {a r : Word} (hr : h.blockSize r < units) (h₁ : Taken source units free post h live a h') :
    Taken source units free (r::post) h live a h' := by
  obtain ⟨g,l,b,m,hinv,htake,hge,hcase⟩ := h₁
  refine ⟨g,l,b,m,hinv,htake,hge,hcase.imp_right ?_⟩
  rintro ⟨hpost,hrest⟩
  exact ⟨List.forall_mem_cons.mpr ⟨hr,hpost⟩,hrest⟩

theorem not_taken_of_small {source : PageSource} {units : Word} {free : List Word} {h h' : Heap} {live : List Live}
    {a : Word} (hall : ∀ x ∈ free, h.blockSize x < units) (hsmall : grownSize (pageCount units) < units) :
    ¬ Taken source units free [] h live a h' := by
  rintro ⟨g,l,b,m,-,-,hge,⟨rfl,rfl,-⟩ | ⟨-,-,hb⟩⟩
  · have := hall b (by simp)
    bv_omega
  · rw [hb] at hge
    bv_omega

theorem search_grown {source : PageSource} (hs : FreshPages source) {units : Word} (hu : units.toNat < 2^29)
    {fuel : ℕ} {h h' : Heap} {live : List Live} {pre : List Word} {a : Word} (hi : HeapInv h live pre)
    (hpre : ∀ x ∈ pre, h.blockSize x < units)
    (hk : search source units (fuel+1) (cellAfter pre) h = some (a, h'))
    (hrest : ∀ g r, HeapInv g live (pre ++ [r]) → (∀ x ∈ pre ++ [r], g.blockSize x < units) →
      search source units fuel (cellAfter (pre ++ [r])) g = some (a, h') →
      Refused source units [] g live a h' ∨ Taken source units (pre ++ [r]) [] g live a h') :
    Refused source units [] h live a h' ∨ Taken source units pre [] h live a h' := by
  obtain ⟨code,g,hgrow,hround⟩ := search_end (load_cellAfter hi.linked) hk
  rcases increase_inv hi hs hu hgrow with ⟨rfl,hnull,hinv⟩ | ⟨rfl,hne,b,hinv,hsize,hsame⟩
  · rw [if_neg (by decide)] at hround
    obtain ⟨rfl,rfl⟩ := hround
    exact Or.inl ⟨rfl,⟨_,hinv⟩,by simp,Or.inl hnull⟩
  · obtain ⟨r,hlpre,hr,hb,-⟩ := linked_append.mp hinv.linked
    subst hr
    rw [if_pos rfl, load_cellAfter hlpre, hsize] at hround
    by_cases hfit : grownSize (pageCount units) ≥ units
    · rw [if_pos hfit, Option.some.injEq] at hround
      exact Or.inr ⟨g,pre,r,[],hinv,hround.symm,by rwa [hsize],Or.inr ⟨by simp,hne,hsize⟩⟩
    · have hsmall : grownSize (pageCount units) < units := by bv_omega
      have hall : ∀ x ∈ pre ++ [r], g.blockSize x < units := by
        refine List.forall_mem_append.mpr ⟨fun x hx => ?_,by simpa [hsize] using hsmall⟩
        rw [hsame x hx]
        exact hpre x hx
      rw [if_neg hfit] at hround
      rcases hrest g r hinv hall hround with ⟨ha,hinv',-⟩ | htaken
      · exact Or.inl ⟨ha,hinv',by simp,Or.inr hsmall⟩
      · exact absurd htaken (not_taken_of_small hall hsmall)

/-- Everything the search can do from the cell behind `pre`. -/
theorem search_cases {source : PageSource} (hs : FreshPages source) {units : Word}
    (hu : units.toNat < 2^29) {fuel : ℕ} {h h' : Heap} {live : List Live} (pre post : List Word)
    {a : Word} (hi : HeapInv h live (pre ++ post)) (hpre : ∀ x ∈ pre, h.blockSize x < units)
    (hk : search source units fuel (cellAfter pre) h = some (a, h')) :
    Refused source units post h live a h' ∨ Taken source units (pre ++ post) post h live a h' := by
  induction fuel generalizing h pre post with
  | zero => cases hk
  | succ fuel ih =>
    cases post with
    | cons r post =>
      obtain ⟨r',hlpre,hr',hr,-⟩ := linked_append.mp hi.linked
      subst hr'
      rw [search_block (load_cellAfter hlpre) hr] at hk
      split at hk
      · rename_i hfit
        exact Or.inr ⟨h,pre,_,post,hi,(Option.some.inj hk).symm,hfit,Or.inl ⟨rfl,rfl,hpre⟩⟩
      · rename_i hfit
        have hsmall : h.blockSize r' < units := by bv_omega
        have hall : ∀ x ∈ pre ++ [r'], h.blockSize x < units :=
          List.forall_mem_append.mpr ⟨hpre,by simpa using hsmall⟩
        have hrest := ih (pre ++ [r']) post (by simpa using hi) hall hk
        rw [List.append_assoc, List.singleton_append] at hrest
        rcases hrest with ⟨ha,hinv,hpost,hgrow⟩ | htaken
        · exact Or.inl ⟨ha,hinv,List.forall_mem_cons.mpr ⟨hsmall,hpost⟩,hgrow⟩
        · exact Or.inr (taken_cons hsmall htaken)
    | nil =>
      rw [List.append_nil] at hi ⊢
      apply search_grown hs hu hi hpre hk
      intro g r hg hall hround
      have hrest := ih (pre ++ [r]) [] (by rwa [List.append_nil]) hall hround
      rwa [List.append_nil] at hrest

/-! ## Taking a block -/

theorem block_fits {h : Heap} {live : List Live} {free : List Word} (hi : HeapInv h live free)
    {b : Word} (hb : b ∈ free) : 0 < b.toNat ∧ b.toNat+8+8*(h.blockSize b).toNat ≤ 2^32 := by
  obtain ⟨r,hr,hne,hw⟩ := hi.free_in b hb
  have hfit := hi.requests_fit r hr hne
  have hpos := word_pos hne
  simp only [Extent.Within, freeExtent, Request.extent] at hw hfit
  omega

theorem take_whole_eq {h : Heap} {l : List Word} {r units : Word}
    (hl : Linked null h.links.next h.links.head l r) (hfit : h.blockSize r = units) :
    take units (cellAfter l) h = (r+headerSize, h.assign (cellAfter l) (h.links.next r)) := by
  simp only [take, load_cellAfter hl]
  rw [if_neg (by rw [hfit]; bv_omega)]

/-- Cutting a block off, when the place it is cut at is no block in front. -/
theorem take_cut_eq {h : Heap} {l : List Word} {r f units : Word}
    (hl : Linked null h.links.next h.links.head l r) (hgt : h.blockSize r > units)
    (hf : f = r+headerSize*h.blockSize r-headerSize*units-headerSize) (hnot : f ∉ l) :
    Linked null ((h.setSize f units).assign (some f) null).links.next
      ((h.setSize f units).assign (some f) null).links.head l r ∧
    take units (cellAfter l) h = (f+headerSize, ((h.setSize f units).assign (some f) null).setSize r
      (((h.setSize f units).assign (some f) null).blockSize r-units)) := by
  have hlinked : Linked null ((h.setSize f units).assign (some f) null).links.next
      ((h.setSize f units).assign (some f) null).links.head l r :=
    linked_frame hl (fun x hx => store_next_ne _ null (ne_of_mem_of_not_mem hx hnot))
  refine ⟨hlinked,?_⟩
  simp only [take, load_cellAfter hl, ← hf]
  rw [if_pos hgt, load_cellAfter hlinked]

theorem toNat_cut_rest {h : Heap} {r f units : Word} (hgt : h.blockSize r > units) :
    (((h.setSize f units).assign (some f) null).blockSize r-units).toNat =
      if r = f then 0 else (h.blockSize r).toNat-units.toNat := by
  change ((h.setSize f units).blockSize r-units).toNat = _
  split
  case isTrue he =>
    rw [he, setSize_self, BitVec.sub_self]
    rfl
  case isFalse he =>
    rw [setSize_ne h _ he]
    bv_omega

/-- A block that fits exactly leaves the free list and becomes live. -/
theorem take_whole {h : Heap} {live : List Live} {l m : List Word} {b size : Word}
    (hi : HeapInv h live (l ++ b::m)) (hfit : h.blockSize b = unitsOf size) :
    (take (unitsOf size) (cellAfter l) h).1 ≠ null ∧
    HeapInv (take (unitsOf size) (cellAfter l) h).2
      (⟨(take (unitsOf size) (cellAfter l) h).1, size⟩ :: live) (l ++ m) := by
  obtain ⟨r,hl,hr,hb,-⟩ := linked_append.mp hi.linked
  subst hr
  have hmem : r ∈ l ++ r::m := by simp
  have hpos := hi.free_pos r hmem
  obtain ⟨-,hend⟩ := block_fits hi hmem
  have hunits := toNat_unitsOf size
  have hsize : 0 < size.toNat ∧ size.toNat+7 < 2^32 := by
    rw [hfit, hunits] at hpos
    have := size.isLt
    omega
  have hback : r+headerSize-headerSize = r := BitVec.add_sub_cancel r headerSize
  have hext : Live.extent ⟨r+headerSize, size⟩ = freeExtent h r := by
    rw [Live.extent, freeExtent, hback, hfit, hunits, Nat.mod_eq_of_lt hsize.2]
  rw [take_whole_eq hl hfit]
  refine ⟨fun h0 => ?_,?_,?_,?_,?_,hi.requests_fit,?_,?_⟩
  · rw [null_eq, headerSize] at h0
    bv_omega
  · exact linked_unlink (free_nodup hi) hi.linked
  · have hp := hi.apart
    rw [List.map_append, List.map_cons] at hp
    rw [List.map_cons, hext, List.map_append]
    refine Extent.pairwise_perm ?_ hp
    simp only [List.append_assoc, List.cons_append]
    refine List.Perm.append_left _ ?_
    exact List.perm_middle.symm
  · intro c hc
    exact hi.free_in c (by simp only [List.mem_append, List.mem_cons] at hc ⊢; tauto)
  · refine List.forall_mem_cons.mpr ⟨?_,hi.live_in⟩
    rw [hext]
    exact hi.free_in r hmem
  · intro c hc
    exact hi.free_pos c (by simp only [List.mem_append, List.mem_cons] at hc ⊢; tauto)
  · refine List.forall_mem_cons.mpr ⟨⟨hsize.1,hsize.2,?_⟩,hi.live_size⟩
    rw [hback]
    exact hfit

/-- A block cut from the tail of a larger one overlaps that block, which stays
on the free list. -/
theorem take_tail {h : Heap} {live : List Live} {l m : List Word} {b size : Word}
    (hi : HeapInv h live (l ++ b::m)) (hfit : h.blockSize b > unitsOf size) :
    (take (unitsOf size) (cellAfter l) h).1 ≠ null ∧
    OnFreeList (take (unitsOf size) (cellAfter l) h).2 b ∧
    ¬ Extent.Apart (Live.extent ⟨(take (unitsOf size) (cellAfter l) h).1, size⟩)
      (freeExtent (take (unitsOf size) (cellAfter l) h).2 b) := by
  obtain ⟨r,hl,hr,hb,-⟩ := linked_append.mp hi.linked
  subst hr
  have hmem : r ∈ l ++ r::m := by simp
  obtain ⟨hpos,hend⟩ := block_fits hi hmem
  obtain ⟨f,hf⟩ : ∃ f, f = r+headerSize*h.blockSize r-headerSize*unitsOf size-headerSize := ⟨_,rfl⟩
  have hfn : f.toNat = r.toNat+8*((h.blockSize r).toNat-(unitsOf size).toNat-1) := by
    rw [hf, headerSize]
    bv_omega
  have hnot : f ∉ l := by
    intro hfl
    have hp := (List.pairwise_append.mp hi.apart).1
    rw [List.pairwise_map, List.pairwise_append] at hp
    have hap := hp.2.2 f hfl r (by simp)
    simp only [Extent.Apart, freeExtent] at hap
    bv_omega
  obtain ⟨hlinked,htake⟩ := take_cut_eq hl hfit hf hnot
  have hback : f+headerSize-headerSize = f := BitVec.add_sub_cancel f headerSize
  rw [htake]
  refine ⟨fun h0 => ?_,⟨hb,l,hlinked⟩,?_⟩
  · rw [null_eq, headerSize] at h0
    bv_omega
  · simp only [Extent.Apart, Live.extent, freeExtent, hback, setSize_self, toNat_cut_rest hfit, hfn]
    split <;> bv_omega

/-! ## Sessions -/

structure Session where
  heap : Heap
  live : List Live

inductive Op where
  | kmalloc (size : Word)
  | kfree (address : Word)
  deriving DecidableEq, Repr

/-- Sizes are at least one byte and only live blocks are freed. -/
def step (source : PageSource) (fuel : ℕ) (s : Session) : Op → Option Session
  | .kmalloc size =>
    if size = 0#32 then none
    else
      match kmalloc source fuel size s.heap with
      | none => none
      | some (address, h) =>
        some ⟨h, if address = null then s.live else ⟨address, size⟩ :: s.live⟩
  | .kfree address =>
    match s.live.find? fun x => x.address = address with
    | none => none
    | some x =>
      match kfree fuel address s.heap with
      | none => none
      | some h => some ⟨h, s.live.erase x⟩

structure Separate (s : Session) : Prop where
  live : (s.live.map Live.extent).Pairwise Extent.Apart
  free : ∀ x ∈ s.live, ∀ b, OnFreeList s.heap b → Extent.Apart x.extent (freeExtent s.heap b)

/-- `kmalloc(size)` cuts its block from a larger one: the first block on the
list that is large enough is too large, or there is none and the pages the heap
grows by make a block that is too large. -/
def Splits (source : PageSource) (h : Heap) (size : Word) : Prop :=
  (∃ b, FirstFit h (unitsOf size) b ∧ h.blockSize b > unitsOf size) ∨
  ((∀ b, OnFreeList h b → h.blockSize b < unitsOf size) ∧
    source h.requests (pageCount (unitsOf size)) ≠ null ∧
    grownSize (pageCount (unitsOf size)) > unitsOf size)

def Exact (source : PageSource) (s : Session) : Op → Prop
  | .kmalloc size => ¬ Splits source s.heap size
  | .kfree _ => True

def Inv (s : Session) : Prop := ∃ free, HeapInv s.heap s.live free

theorem separate_of_inv (s : Session) (h : Inv s) : Separate s := by
  obtain ⟨free,hi⟩ := h
  obtain ⟨-,hlive,hcross⟩ := List.pairwise_append.mp hi.apart
  refine ⟨hlive,fun x hx b hb => ?_⟩
  have hmem := (onFreeList_iff hi b).mp hb
  exact (hcross _ (List.mem_map.mpr ⟨b,hmem,rfl⟩) _ (List.mem_map.mpr ⟨x,hx,rfl⟩)).symm

theorem mem_of_firstFit {h : Heap} {live : List Live} {free : List Word} (hi : HeapInv h live free) {units b : Word}
    (hb : FirstFit h units b) : b ∈ free := by
  obtain ⟨hne,-,path,hpath,-⟩ := hb
  exact (onFreeList_iff hi b).mp ⟨hne,path,hpath⟩

theorem refused_not_splits {source : PageSource} {size a : Word} {h h' : Heap} {live : List Live} {free : List Word}
    (hi : HeapInv h live free) (hr : Refused source (unitsOf size) free h live a h') : ¬ Splits source h size := by
  obtain ⟨-,-,hall,hgrow⟩ := hr
  rintro (⟨b,hb,-⟩ | ⟨-,hne,hbig⟩)
  · have := hall b (mem_of_firstFit hi hb)
    have := hb.2.1
    bv_omega
  · rcases hgrow with hnull | hsmall
    · exact hne hnull
    · bv_omega

/-- The first block of the list that fits is split when it is too large. -/
theorem splits_iff_of_first {source : PageSource} {size b : Word} {h : Heap} {live : List Live} {l m : List Word}
    (hi : HeapInv h live (l ++ b::m)) (hl : ∀ x ∈ l, h.blockSize x < unitsOf size)
    (hge : h.blockSize b ≥ unitsOf size) : Splits source h size ↔ h.blockSize b > unitsOf size := by
  obtain ⟨r,hpath,hr,hb,-⟩ := linked_append.mp hi.linked
  subst hr
  constructor
  · rintro (⟨c,⟨hc,hcge,path,hcpath,hcl⟩,hbig⟩ | ⟨hall,-,-⟩)
    · obtain ⟨rest,hrest⟩ := linked_split hi.linked hcpath hc
      have hrc : r = c := first_fit_unique hl hge hcl hcge hrest
      rwa [hrc]
    · have := hall r ((onFreeList_iff hi r).mpr (by simp))
      bv_omega
  · intro hbig
    exact Or.inl ⟨r,⟨hb,hge,l,hpath,hl⟩,hbig⟩

/-- When no block fits, the block that is appended is split when it is too large. -/
theorem splits_iff_of_grown {source : PageSource} {size : Word} {h : Heap} {live : List Live} {free : List Word}
    (hi : HeapInv h live free) (hall : ∀ x ∈ free, h.blockSize x < unitsOf size)
    (hne : source h.requests (pageCount (unitsOf size)) ≠ null) :
    Splits source h size ↔ grownSize (pageCount (unitsOf size)) > unitsOf size := by
  constructor
  · rintro (⟨c,hc,-⟩ | ⟨-,-,hbig⟩)
    · have := hall c (mem_of_firstFit hi hc)
      have := hc.2.1
      bv_omega
    · exact hbig
  · intro hbig
    exact Or.inr ⟨fun c hc => hall c ((onFreeList_iff hi c).mp hc),hne,hbig⟩

/-- `kmalloc` returns nothing new, takes a block that fits exactly, or splits;
it splits precisely when the state and the size say so. -/
theorem kmalloc_cases {source : PageSource} (hs : FreshPages source) {fuel : ℕ} {size a : Word}
    {h h' : Heap} {live : List Live} {free : List Word} (hi : HeapInv h live free)
    (hk : kmalloc source fuel size h = some (a, h')) :
    (¬ Splits source h size ∧ a = null ∧ ∃ free, HeapInv h' live free) ∨
    ∃ (g : Heap) (l : List Word) (b : Word) (m : List Word), HeapInv g live (l ++ b::m) ∧
      (a, h') = take (unitsOf size) (cellAfter l) g ∧ g.blockSize b ≥ unitsOf size ∧
      (Splits source h size ↔ g.blockSize b > unitsOf size) := by
  rcases search_cases hs (unitsOf_lt size) [] free hi (by simp) hk with
    hrefused | ⟨g,l,b,m,hinv,htake,hge,hcase⟩
  · exact Or.inl ⟨refused_not_splits hi hrefused,hrefused.1,hrefused.2.1⟩
  · refine Or.inr ⟨g,l,b,m,hinv,htake,hge,?_⟩
    rcases hcase with ⟨rfl,-,hl⟩ | ⟨hall,hne,hsize⟩
    · exact splits_iff_of_first hinv hl hge
    · rw [hsize]
      exact splits_iff_of_grown hi hall hne

/-! ## What a step does -/

theorem step_kmalloc {source : PageSource} {fuel : ℕ} {s s' : Session} {size : Word}
    (hk : step source fuel s (.kmalloc size) = some s') :
    ∃ address h, kmalloc source fuel size s.heap = some (address, h) ∧
      s' = ⟨h, if address = null then s.live else ⟨address, size⟩ :: s.live⟩ := by
  simp only [step] at hk
  split at hk
  · cases hk
  split at hk
  · cases hk
  · rename_i address h hkm
    exact ⟨address,h,hkm,(Option.some.inj hk).symm⟩

theorem step_kfree {source : PageSource} {fuel : ℕ} {s s' : Session} {address : Word}
    (hk : step source fuel s (.kfree address) = some s') :
    ∃ x ∈ s.live, x.address = address ∧ ∃ h, kfree fuel address s.heap = some h ∧ s' = ⟨h, s.live.erase x⟩ := by
  simp only [step] at hk
  split at hk
  · cases hk
  · rename_i x hfind
    split at hk
    · cases hk
    · rename_i h hkf
      exact ⟨x,List.mem_of_find?_eq_some hfind,by simpa using List.find?_some hfind,h,hkf,(Option.some.inj hk).symm⟩

theorem kmalloc_exact {source : PageSource} (hs : FreshPages source) {fuel : ℕ} {s s' : Session}
    {size : Word} (hi : Inv s) (hexact : ¬ Splits source s.heap size)
    (hk : step source fuel s (.kmalloc size) = some s') : Inv s' := by
  obtain ⟨free,hi⟩ := hi
  obtain ⟨a,h,hkm,rfl⟩ := step_kmalloc hk
  rcases kmalloc_cases hs hi hkm with ⟨-,ha,free',hi'⟩ | ⟨g,l,b,m,hinv,htake,hge,hiff⟩
  · rw [if_pos ha]
    exact ⟨free',hi'⟩
  · have hfit : g.blockSize b = unitsOf size := by
      have hle := mt hiff.mpr hexact
      bv_omega
    obtain ⟨hne,hinv'⟩ := take_whole hinv hfit
    rw [← htake] at hne hinv'
    rw [if_neg hne]
    exact ⟨l ++ m,hinv'⟩

theorem kmalloc_split {source : PageSource} (hs : FreshPages source) {fuel : ℕ} {s s' : Session}
    {size : Word} (hi : Inv s) (hsplit : Splits source s.heap size)
    (hk : step source fuel s (.kmalloc size) = some s') : ¬ Separate s' := by
  obtain ⟨free,hi⟩ := hi
  obtain ⟨a,h,hkm,rfl⟩ := step_kmalloc hk
  rcases kmalloc_cases hs hi hkm with ⟨hno,-,-⟩ | ⟨g,l,b,m,hinv,htake,-,hiff⟩
  · exact absurd hsplit hno
  · obtain ⟨hne,hon,hover⟩ := take_tail hinv (hiff.mp hsplit)
    rw [← htake] at hne hon hover
    rw [if_neg hne]
    exact fun hsep => hover (hsep.free _ List.mem_cons_self b hon)

theorem kfree_step {source : PageSource} {fuel : ℕ} {s s' : Session} {address : Word}
    (hi : Inv s) (hk : step source fuel s (.kfree address) = some s') : Inv s' := by
  obtain ⟨free,hi⟩ := hi
  obtain ⟨x,hx,rfl,h,hkf,rfl⟩ := step_kfree hk
  obtain ⟨r,hr,hne,hw⟩ := hi.live_in x hx
  have hext := live_extent_eq hi hx
  obtain ⟨hpos,hwrap,hsize⟩ := hi.live_size x hx
  have hperm := List.perm_cons_erase hx
  have happ : (x.extent :: (free.map (freeExtent s.heap) ++
      (s.live.erase x).map Live.extent)).Pairwise Extent.Apart := by
    refine Extent.pairwise_perm ?_ hi.apart
    refine ((hperm.map Live.extent).append_left _).trans ?_
    exact List.perm_middle
  obtain ⟨hxa,hrest⟩ := List.pairwise_cons.mp happ
  have hi' : HeapInv s.heap (s.live.erase x) free :=
    ⟨hi.linked,hrest,hi.free_in,fun y hy => hi.live_in y (List.mem_of_mem_erase hy),
      hi.requests_fit,hi.free_pos,fun y hy => hi.live_size y (List.mem_of_mem_erase hy)⟩
  have hb : x.address-headerSize ≠ null := by
    have := word_pos hne
    simp only [Extent.Within, Live.extent, Request.extent] at hw
    exact fun he => by rw [he] at hw; simp [null] at hw; omega
  have hunits : 0 < (s.heap.blockSize (x.address-headerSize)).toNat := by
    rw [hsize, toNat_unitsOf]
    omega
  have hblock : x.address = x.address-headerSize+headerSize :=
    (BitVec.sub_add_cancel x.address headerSize).symm
  rw [hblock] at hkf
  refine ⟨_,(kfree_inv hi' hb hunits ?_ ⟨r,hr,hne,by rwa [hext]⟩ hkf).1⟩
  rw [hext]
  exact fun e he => (hxa e he).symm

theorem inv_boot : Inv ⟨Heap.boot, []⟩ := by
  refine ⟨[],rfl,?_,?_,?_,?_,?_,?_⟩ <;> simp [Heap.boot]

/-- The live blocks stay apart from each other and from the free list for as
long as no call of `kmalloc` splits a block, and no longer. -/
theorem separate_iff_never_splits (source : PageSource) (hs : FreshPages source) (fuel : ℕ)
    (ops : List Op) :
    Transition.Always (step source fuel) Separate ops ⟨Heap.boot, []⟩ ↔
      Transition.Guarded (step source fuel) (Exact source) ops ⟨Heap.boot, []⟩ := by
  refine Transition.always_iff_guarded Inv separate_of_inv ?_ ?_ ops inv_boot
  · intro s a s' hi hc hk
    cases a with
    | kmalloc size => exact kmalloc_exact hs hi hc hk
    | kfree address => exact kfree_step hi hk
  · intro s a s' hi hc hk
    cases a with
    | kmalloc size => exact kmalloc_split hs hi (not_not.mp hc) hk
    | kfree address => exact absurd trivial hc

def onePage : PageSource := fun rs n => if rs = [] ∧ n = 1#32 then 0xC0800000#32 else null

theorem onePage_fresh : FreshPages onePage := by
  refine ⟨fun rs n hne => ?_,fun rs n hne r hr => ?_⟩
  all_goals
    have hcond : rs = [] ∧ n = 1#32 := by
      by_contra hc
      exact hne (if_neg hc)
  · rw [onePage, if_pos hcond, hcond.2]
    decide
  · rw [hcond.1] at hr
    cases hr

theorem boot_free_empty (b : Word) : ¬ OnFreeList Heap.boot b := by
  rintro ⟨hb,path,hpath⟩
  cases path with
  | nil => exact hb (Eq.symm hpath)
  | cons x path => exact hpath.2.1 (Eq.symm hpath.1)

theorem whole_page_stays_separate :
    Transition.Always (step onePage 2) Separate [.kmalloc 4088#32, .kfree 0xC0800008#32]
      ⟨Heap.boot, []⟩ := by
  refine (separate_iff_never_splits onePage onePage_fresh 2 _).mpr (fun s _ => ⟨?_,fun _ _ => ⟨trivial,trivial⟩⟩)
  rintro (⟨b,⟨hb,-,path,hpath,-⟩,-⟩ | ⟨-,-,hbig⟩)
  · exact boot_free_empty b ⟨hb,path,hpath⟩
  · revert hbig
    decide

theorem split_overlaps_free_block :
    FreshPages onePage ∧
      ¬ Transition.Always (step onePage 2) Separate [.kmalloc 8#32] ⟨Heap.boot, []⟩ := by
  refine ⟨onePage_fresh,fun h => ?_⟩
  obtain ⟨s,hs⟩ : ∃ s, step onePage 2 ⟨Heap.boot, []⟩ (.kmalloc 8#32) = some s :=
    Option.isSome_iff_exists.mp (by decide)
  refine kmalloc_split onePage_fresh inv_boot (Or.inr ⟨?_,by decide,by decide⟩) hs (h.2 s hs)
  exact fun b hb => absurd hb (boot_free_empty b)

end MikeOS.KernelMallocRuns
