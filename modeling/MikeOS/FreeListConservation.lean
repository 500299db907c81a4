import MikeOS.KernelMallocRuns

/-!
# What a call leaves of the free list

A block that fits on the list is unlinked or made smaller, and a block that is
freed goes to the end. Cutting a block off writes a header and ends the list
there. Nothing is lost by that as long as the header is not on the list, which
it is when the block is one unit larger than what was asked for.
-/

set_option autoImplicit false

namespace MikeOS.FreeListConservation
open LinkedList MikeOS.KernelMalloc MikeOS.KernelMallocRuns

/-- `free` is the free list, in the order of the links, and has no cycle. -/
structure Listed (h : Heap) (free : List Word) : Prop where
  linked : Linked null h.links.next h.links.head free null
  nodup : free.Nodup

inductive Call where
  | kmalloc (size : Word)
  | kfree (block : Word)
  deriving DecidableEq, Repr

def firstFit (h : Heap) (units : Word) (free : List Word) : Option Word :=
  free.find? fun b => decide (units ≤ h.blockSize b)

def tailHeader (h : Heap) (units b : Word) : Word :=
  b+headerSize*h.blockSize b-headerSize*units-headerSize

structure HandedOut (h : Heap) (units : Word) (free : List Word) (b a : Word) (h' : Heap) (free' : List Word) :
    Prop where
  listed : Listed h' free'
  header : h'.blockSize (a-headerSize) = units
  off : a-headerSize ∉ free'
  others : ∀ c ∈ free, c ≠ b → h'.blockSize c = h.blockSize c
  chosen : (free' = free.erase b ∧ a = b+headerSize) ∨
    (free' = free ∧ a = tailHeader h units b+headerSize ∧ h'.blockSize b < h.blockSize b)

/-- The heap does not grow when a block of the list is large enough. -/
def Conserved (source : PageSource) (h : Heap) (free : List Word) : Call → Prop
  | .kmalloc size => ∀ b, firstFit h (unitsOf size) free = some b →
      ∃ a h' free', (∀ fuel, free.length < fuel → kmalloc source fuel size h = some (a, h')) ∧
        h'.requests = h.requests ∧ HandedOut h (unitsOf size) free b a h' free'
  | .kfree block => block ≠ null → block ∉ free →
      ∃ h', (∀ fuel, free.length < fuel → kfree fuel (block+headerSize) h = some h') ∧
        Listed h' (free ++ [block]) ∧ h'.blockSize = h.blockSize

/-- The first block that is large enough fits exactly, or what is cut off it
begins at a header that is on the list nowhere. -/
def Spared (h : Heap) (free : List Word) : Call → Prop
  | .kmalloc size => ∀ b, firstFit h (unitsOf size) free = some b →
      h.blockSize b = unitsOf size ∨ 0#32 < unitsOf size ∧ tailHeader h (unitsOf size) b ∉ free
  | .kfree _ => True

/-! ## The walk along the list -/

theorem firstFit_some {h : Heap} {units b : Word} {free : List Word} (hb : firstFit h units free = some b) :
    units ≤ h.blockSize b ∧ ∃ l m, free = l ++ b::m ∧ ∀ x ∈ l, ¬ units ≤ h.blockSize x := by
  obtain ⟨hfit,l,m,hfree,hl⟩ := List.find?_eq_some_iff_append.mp hb
  exact ⟨of_decide_eq_true hfit,l,m,hfree,fun x hx => by simpa using hl x hx⟩

/-- Blocks that are too small are passed by, one round each. -/
theorem search_walk {source : PageSource} {units : Word} {h : Heap} (fuel : ℕ) (pre mid post : List Word)
    (hl : Linked null h.links.next h.links.head (pre ++ (mid ++ post)) null)
    (hsmall : ∀ x ∈ mid, ¬ units ≤ h.blockSize x) :
    search source units (fuel+mid.length) (cellAfter pre) h =
      search source units fuel (cellAfter (pre ++ mid)) h := by
  induction mid generalizing pre with
  | nil => rw [List.append_nil]; rfl
  | cons x mid ih =>
    obtain ⟨r,hpre,hr,hx,-⟩ := linked_append.mp hl
    subst hr
    obtain ⟨hxs,hrest⟩ := List.forall_mem_cons.mp hsmall
    rw [List.length_cons, ← Nat.add_assoc, search_block (load_cellAfter hpre) hx, if_neg hxs,
      ih (pre ++ [r]) (by simpa using hl) hrest, List.append_assoc, List.singleton_append]

theorem kmalloc_fit (source : PageSource) {size b : Word} {h : Heap} {l m : List Word} {fuel : ℕ}
    (hl : Linked null h.links.next h.links.head (l ++ b::m) null)
    (hsmall : ∀ x ∈ l, ¬ unitsOf size ≤ h.blockSize x) (hfit : unitsOf size ≤ h.blockSize b)
    (hfuel : (l ++ b::m).length < fuel) :
    kmalloc source fuel size h = some (take (unitsOf size) (cellAfter l) h) := by
  obtain ⟨r,hpath,hr,hb,-⟩ := linked_append.mp hl
  subst hr
  rw [List.length_append, List.length_cons] at hfuel
  obtain ⟨more,rfl⟩ : ∃ more, fuel = more+1+l.length := ⟨fuel-1-l.length,by omega⟩
  rw [kmalloc, show (none : Cell Word) = cellAfter ([] : List Word) from rfl,
    search_walk (more+1) [] l (r::m) hl hsmall, List.nil_append, search_block (load_cellAfter hpath) hb,
    if_pos hfit]

theorem lastCell_walk {h : Heap} (fuel : ℕ) (pre post : List Word)
    (hl : Linked null h.links.next h.links.head (pre ++ post) null) (hfuel : post.length < fuel) :
    lastCell h fuel (cellAfter pre) = some (cellAfter (pre ++ post)) := by
  induction post generalizing pre fuel with
  | nil =>
    obtain ⟨more,rfl⟩ : ∃ more, fuel = more+1 := ⟨fuel-1,by omega⟩
    obtain ⟨r,hpre,hr⟩ := linked_append.mp hl
    have hnull : r = null := hr
    rw [lastCell, load_cellAfter hpre, if_neg (not_not.mpr hnull), List.append_nil]
  | cons x post ih =>
    rw [List.length_cons] at hfuel
    obtain ⟨more,rfl⟩ : ∃ more, fuel = more+1 := ⟨fuel-1,by omega⟩
    obtain ⟨r,hpre,hr,hx,-⟩ := linked_append.mp hl
    subst hr
    rw [lastCell, load_cellAfter hpre, if_pos hx, ← cellAfter_snoc pre r,
      ih more (pre ++ [r]) (by simpa using hl) (by omega), List.append_assoc, List.singleton_append]

theorem kfree_eq {h : Heap} {free : List Word} (hl : Linked null h.links.next h.links.head free null)
    (block : Word) {fuel : ℕ} (hfuel : free.length < fuel) :
    kfree fuel (block+headerSize) h = some ((h.assign (cellAfter free) block).assign (some block) null) := by
  have hlast : lastCell h fuel none = some (cellAfter free) := lastCell_walk fuel [] free hl hfuel
  have hblock : block+headerSize-headerSize = block := BitVec.add_sub_cancel block headerSize
  simp only [kfree, hblock, hlast]

/-! ## Handing out -/

theorem take_requests (units : Word) (current : Cell Word) (h : Heap) :
    (take units current h).2.requests = h.requests := by
  simp only [take]
  split <;> rfl

section
variable {h : Heap} {free : List Word} {units b : Word}

theorem handed_whole {l m : List Word} (hlisted : Listed h (l ++ b::m)) (hfit : h.blockSize b = units) :
    HandedOut h units (l ++ b::m) b (take units (cellAfter l) h).1 (take units (cellAfter l) h).2 (l ++ m) := by
  obtain ⟨r,hpath,hr,-,-⟩ := linked_append.mp hlisted.linked
  subst hr
  have hback : r+headerSize-headerSize = r := BitVec.add_sub_cancel r headerSize
  have hdisj := List.nodup_append.mp hlisted.nodup
  have hl : r ∉ l := fun hrl => hdisj.2.2 r hrl r (by simp) rfl
  have hm : r ∉ m := (List.nodup_cons.mp hdisj.2.1).1
  rw [take_whole_eq hpath hfit]
  refine ⟨⟨linked_unlink hlisted.nodup hlisted.linked,hlisted.nodup.sublist (by simp)⟩,?_,?_,fun _ _ _ => rfl,
    Or.inl ⟨?_,rfl⟩⟩
  · rw [hback]
    exact hfit
  · rw [hback, List.mem_append]
    exact not_or.mpr ⟨hl,hm⟩
  · rw [List.erase_append_right _ hl, List.erase_cons_head]

theorem tail_rest {l : List Word} (hpath : Linked null h.links.next h.links.head l b) (hgt : h.blockSize b > units)
    (hne : b ≠ tailHeader h units b) (hnot : tailHeader h units b ∉ l) :
    (take units (cellAfter l) h).2.blockSize b = h.blockSize b-units := by
  rw [(take_cut_eq hpath hgt rfl hnot).2, setSize_self]
  exact congrArg (· - units) (setSize_ne h units hne)

theorem handed_tail {l m : List Word} (hlisted : Listed h (l ++ b::m)) (hgt : h.blockSize b > units)
    (hpos : 0#32 < units) (hnot : tailHeader h units b ∉ l ++ b::m) :
    HandedOut h units (l ++ b::m) b (take units (cellAfter l) h).1 (take units (cellAfter l) h).2 (l ++ b::m) := by
  obtain ⟨r,hpath,hr,-,-⟩ := linked_append.mp hlisted.linked
  subst hr
  obtain ⟨f,hf⟩ : ∃ f, f = tailHeader h units r := ⟨_,rfl⟩
  rw [← hf] at hnot
  have hback : f+headerSize-headerSize = f := BitVec.add_sub_cancel f headerSize
  have hne : r ≠ f := fun he => hnot (by rw [← he]; simp)
  have hfront : f ∉ l := fun hl => hnot (by simp [hl])
  have hsize := tail_rest hpath hgt (hf ▸ hne) (hf ▸ hfront)
  obtain ⟨-,htake⟩ := take_cut_eq hpath hgt hf hfront
  rw [htake] at hsize ⊢
  refine ⟨⟨linked_frame hlisted.linked fun x hx => store_next_ne _ null (ne_of_mem_of_not_mem hx hnot),
    hlisted.nodup⟩,?_,?_,fun c hc hcr => ?_,Or.inr ⟨rfl,by rw [hf],?_⟩⟩
  · rw [hback, setSize_ne _ _ hne.symm]
    exact setSize_self h f units
  · rw [hback]
    exact hnot
  · rw [setSize_ne _ _ hcr]
    exact setSize_ne h units (ne_of_mem_of_not_mem hc hnot)
  · rw [hsize]
    bv_omega

/-- Cutting a block off ends the list at the header of what is cut off. -/
theorem take_tail_links {current : Cell Word} (hload : load h.links current = b) (hgt : h.blockSize b > units) :
    (take units current h).1 = tailHeader h units b+headerSize ∧
      (take units current h).2.links = store h.links (some (tailHeader h units b)) null := by
  simp only [take, hload]
  rw [if_pos hgt]
  exact ⟨rfl,rfl⟩

theorem listed_end {s : Pointers Word} {f : Word} {free free' : List Word}
    (hl : Linked null s.next s.head free null) (hnodup : free.Nodup) (hf : f ∈ free)
    (hl' : Linked null (store s (some f) null).next (store s (some f) null).head free' null) : f ∈ free' := by
  obtain ⟨l,m,rfl⟩ := List.append_of_mem hf
  obtain ⟨r,hpath,rfl,hne,-⟩ := linked_append.mp hl
  have hfl : r ∉ l := fun hrl => (List.nodup_append.mp hnodup).2.2 r hrl r (by simp) rfl
  have hpath' : Linked null (store s (some r) null).next (store s (some r) null).head l r :=
    linked_frame hpath fun x hx => store_next_ne s null (ne_of_mem_of_not_mem hx hfl)
  obtain ⟨rest,hrest⟩ := linked_split hl' hpath' hne
  rw [hrest]
  simp

end

/-! ## Exactly when the list is conserved -/

section
variable {source : PageSource} {h : Heap} {free : List Word} {size : Word}

theorem kmalloc_conserved (hlisted : Listed h free) (hspared : Spared h free (.kmalloc size)) :
    Conserved source h free (.kmalloc size) := by
  intro b hb
  obtain ⟨hfit,l,m,rfl,hsmall⟩ := firstFit_some hb
  have hrun : ∀ fuel, (l ++ b::m).length < fuel → kmalloc source fuel size h =
      some (take (unitsOf size) (cellAfter l) h) := fun _ => kmalloc_fit source hlisted.linked hsmall hfit
  by_cases hwhole : h.blockSize b = unitsOf size
  · exact ⟨_,_,_,hrun,take_requests _ _ h,handed_whole hlisted hwhole⟩
  · have hgt : h.blockSize b > unitsOf size := by bv_omega
    obtain ⟨hpos,hnot⟩ := (hspared b hb).resolve_left hwhole
    exact ⟨_,_,_,hrun,take_requests _ _ h,handed_tail hlisted hgt hpos hnot⟩

theorem kmalloc_spared (hlisted : Listed h free) (hconserved : Conserved source h free (.kmalloc size)) :
    Spared h free (.kmalloc size) := by
  intro b hb
  obtain ⟨a,h',free',hrun,-,hhanded⟩ := hconserved b hb
  obtain ⟨hfit,l,m,rfl,hsmall⟩ := firstFit_some hb
  by_cases hwhole : h.blockSize b = unitsOf size
  · exact Or.inl hwhole
  right
  have hgt : h.blockSize b > unitsOf size := by bv_omega
  obtain ⟨r,hpath,hr,-,-⟩ := linked_append.mp hlisted.linked
  have hload : load h.links (cellAfter l) = b := hr ▸ load_cellAfter hpath
  have htake := kmalloc_fit source hlisted.linked hsmall hfit (Nat.lt_succ_self _)
  rw [hrun _ (Nat.lt_succ_self _), Option.some.injEq] at htake
  obtain ⟨hadr,hlinks⟩ := take_tail_links hload hgt
  have ha : a = tailHeader h (unitsOf size) b+headerSize := (congrArg Prod.fst htake).trans hadr
  have hheap : h' = (take (unitsOf size) (cellAfter l) h).2 := congrArg Prod.snd htake
  have hnot : tailHeader h (unitsOf size) b ∉ l ++ b::m := by
    intro hmem
    have hlinked' := hhanded.listed.linked
    have hoff := hhanded.off
    rw [hheap, hlinks] at hlinked'
    rw [ha, BitVec.add_sub_cancel] at hoff
    exact hoff (listed_end hlisted.linked hlisted.nodup hmem hlinked')
  refine ⟨?_,hnot⟩
  by_contra hzero
  -- asked for no units the block is cut as well, and keeps its size
  have hunits : unitsOf size = 0#32 := by bv_omega
  have hne : b ≠ tailHeader h (unitsOf size) b := fun he => hnot (by rw [← he]; simp)
  rcases hhanded.chosen with ⟨-,ha'⟩ | ⟨-,-,hless⟩
  · rw [ha] at ha'
    exact hne (by simpa using ha'.symm)
  · subst hr
    rw [hheap, tail_rest hpath hgt hne fun hl => hnot (by simp [hl]), hunits, BitVec.sub_zero] at hless
    exact absurd hless (BitVec.lt_irrefl _)

theorem kfree_conserved (hlisted : Listed h free) (block : Word) : Conserved source h free (.kfree block) := by
  intro hnull hnot
  refine ⟨_,fun fuel hfuel => kfree_eq hlisted.linked block hfuel,⟨linked_snoc hlisted.nodup hnot hnull
    hlisted.linked,?_⟩,rfl⟩
  exact List.nodup_append.mpr ⟨hlisted.nodup,List.nodup_singleton block,fun x hx y hy he => hnot (by
    rwa [← List.mem_singleton.mp hy, ← he])⟩

end

/-- Freeing conserves the list, and so does handing out while the header of a
block that is cut off is on the list nowhere. -/
theorem conserved_iff (source : PageSource) (h : Heap) (free : List Word) (hlisted : Listed h free) (call : Call) :
    Conserved source h free call ↔ Spared h free call := by
  cases call with
  | kmalloc size => exact ⟨kmalloc_spared hlisted,kmalloc_conserved hlisted⟩
  | kfree block => exact iff_of_true (kfree_conserved hlisted block) trivial

/-- Among blocks that lie apart the header is on the list when it is that of
the block itself, which is one unit too large. -/
theorem tail_listed_iff {h : Heap} {free : List Word} {units b : Word}
    (hapart : (free.map (freeExtent h)).Pairwise Extent.Apart) (hb : b ∈ free)
    (hin : b.toNat+8+8*(h.blockSize b).toNat ≤ 2^32) (hgt : h.blockSize b > units) :
    tailHeader h units b ∈ free ↔ (h.blockSize b).toNat = units.toNat+1 := by
  obtain ⟨f,hf⟩ : ∃ f, f = tailHeader h units b := ⟨_,rfl⟩
  have hadr : f.toNat = b.toNat+8*((h.blockSize b).toNat-units.toNat-1) := by
    rw [hf, tailHeader, headerSize]
    bv_omega
  rw [← hf]
  constructor
  · intro hmem
    by_contra hsize
    have hne : f ≠ b := fun he => by
      rw [he] at hadr
      bv_omega
    rw [List.pairwise_map] at hapart
    have : Std.Symm fun c d => Extent.Apart (freeExtent h c) (freeExtent h d) := ⟨fun _ _ hcd => hcd.symm⟩
    have hcut := hapart.forall hmem hb hne
    simp only [Extent.Apart, freeExtent] at hcut
    bv_omega
  · intro hsize
    have he : f = b := BitVec.eq_of_toNat_eq (by omega)
    rwa [he]

def twoBlocks : Heap where
  links := ⟨0xC0800000#32, fun b => if b = 0xC0800000#32 then 0xC0801000#32 else null⟩
  blockSize := fun b => if b = 0xC0800000#32 then 2#32 else 511#32
  requests := []

theorem twoBlocks_listed : Listed twoBlocks [0xC0800000#32, 0xC0801000#32] :=
  ⟨⟨rfl,by decide,rfl,by decide,rfl⟩,by decide⟩

theorem exact_fit_conserved :
    Conserved onePage twoBlocks [0xC0800000#32, 0xC0801000#32] (.kmalloc 16#32) := by
  refine (conserved_iff onePage twoBlocks _ twoBlocks_listed _).mpr fun b hb => Or.inl ?_
  have hfirst : firstFit twoBlocks (unitsOf 16#32) [0xC0800000#32, 0xC0801000#32] = some 0xC0800000#32 := by decide
  rw [hfirst, Option.some.injEq] at hb
  rw [← hb]
  decide

/-- One unit cut off a block of two: its header is that of the block. -/
theorem one_unit_larger_not_conserved : Listed twoBlocks [0xC0800000#32, 0xC0801000#32] ∧
    ¬ Conserved onePage twoBlocks [0xC0800000#32, 0xC0801000#32] (.kmalloc 8#32) := by
  refine ⟨twoBlocks_listed,fun hconserved => ?_⟩
  rcases kmalloc_spared twoBlocks_listed hconserved 0xC0800000#32 (by decide) with hsize | ⟨-,hnot⟩
  · exact absurd hsize (by decide)
  · exact absurd (show tailHeader twoBlocks (unitsOf 8#32) 0xC0800000#32 ∈ _ by decide) hnot

end MikeOS.FreeListConservation
