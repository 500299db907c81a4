import MikeOS.KernelHeap
import MikeOS.Library.Runs

/-!
# What the search for free pages finds

The search stops at the first byte of the bitmap that is not zero. From there
it counts available pages without starting over at a gap, and returns the
start of the run that holds the last page counted. Everything else it can do
is to return `NULL` or to be undefined.
-/

set_option autoImplicit false

namespace MikeOS.KernelHeapSearch
open BitArray Runs MikeOS.Memory MikeOS.KernelHeap

def avail (bitmap : Bytes) (i : ℕ) : ℕ → Bool := fun k => bit bitmap (8*i+k)

def FirstByte (bitmap : Bytes) (i : ℕ) : Prop := bitmap i ≠ 0#8 ∧ ∀ j, j < i → bitmap j = 0#8

def chunk (n : ℕ) : ℕ := 8*((n+7)/8)

def Clear (bitmap : Bytes) (n : ℕ) : Prop :=
  (n+7)/8 < 131072 ∧ ∀ j, j < 131071-(n+7)/8 → bitmap j = 0#8

structure Found (bitmap : Bytes) (n i s : ℕ) : Prop where
  first : FirstByte bitmap i
  found : ∃ e, RunTo (avail bitmap i) s e ∧ count (avail bitmap i) e+1 = n ∧ e+1 < chunk n

theorem firstByte_unique {bitmap : Bytes} {i j : ℕ} (hi : FirstByte bitmap i)
    (hj : FirstByte bitmap j) : i = j := by
  rcases lt_trichotomy i j with h | h | h
  · exact absurd (hj.2 i h) hi.1
  · exact h
  · exact absurd (hi.2 j h) hj.1

theorem found_unique {bitmap : Bytes} {n i s j t : ℕ} (hs : Found bitmap n i s)
    (ht : Found bitmap n j t) : i = j ∧ s = t := by
  have hij := firstByte_unique hs.first ht.first
  subst hij
  obtain ⟨e,hrun,hcount,-⟩ := hs.found
  obtain ⟨f,hrun',hcount',-⟩ := ht.found
  have hef : e = f := Nat.count_injective (hrun.holds e hrun.le (le_refl e))
    (hrun'.holds f hrun'.le (le_refl f)) (show count _ e = count _ f by omega)
  subst hef
  exact ⟨rfl,hrun.unique hrun'⟩

/-! ## Counting along the lookup table -/

def lookup (p : ℕ → Bool) (j m : ℕ) : List Byte :=
  (List.range' j m).map fun k => if p k = true then 1#8 else 0#8

theorem extractBit_bytes : ∀ (v : Fin 256) (k : Fin 8), extractBit (BitVec.ofNat 8 v.val) k.val =
    if (BitVec.ofNat 8 v.val).getMsbD k.val = true then 1#8 else 0#8 := by
  decide +kernel

theorem extractBit_eq (v : Byte) (k : ℕ) (hk : k < 8) :
    extractBit v k = if v.getMsbD k = true then 1#8 else 0#8 := by
  have h := extractBit_bytes v.toFin ⟨k,hk⟩
  rwa [show BitVec.ofNat 8 v.toFin.val = v by simp [BitVec.ofNat_toNat]] at h

theorem parseLookupTable_eq (bitmap : Bytes) (i : ℕ) (numBytes : Word) (h : numBytes.toNat < 2^29) :
    parseLookupTable (fromByte bitmap i) numBytes = lookup (avail bitmap i) 0 (8*numBytes.toNat) := by
  have hlen : (numBytes*8#32).toNat = 8*numBytes.toNat := by bv_omega
  rw [parseLookupTable, lookup, hlen, List.range_eq_range']
  refine List.map_congr_left (fun k _ => ?_)
  rw [extractBit_eq _ _ (Nat.mod_lt k (by decide)), avail, bit, fromByte,
    show (8*i+k)/8 = i+k/8 by omega, show (8*i+k)%8 = k%8 by omega]

theorem toNat_numBytesOf (numPages : Word) : (numBytesOf numPages).toNat = (numPages.toNat+7)/8 := by
  have hd : (numPages/8#32).toNat = numPages.toNat/8 := BitVec.toNat_udiv
  have hm : (numPages%8#32).toNat = numPages.toNat%8 := BitVec.toNat_umod
  rw [numBytesOf]
  split
  · rename_i h
    have : (numPages%8#32).toNat ≠ 0 := fun h0 => h (BitVec.eq_of_toNat_eq h0)
    rw [BitVec.toNat_add, hd, show (1#32).toNat = 1 from rfl]
    omega
  · rename_i h
    have : (numPages%8#32).toNat = 0 := by rw [not_not.mp h]; rfl
    rw [hd]
    omega

/-- What `index` holds when the loop has passed the first `j` positions. -/
def IndexAt (p : ℕ → Bool) (j : ℕ) (index : Word) : Prop :=
  (index = -1#32 ∧ (j = 0 ∨ p (j-1) = false)) ∨
  ∃ s, index = BitVec.ofNat 32 s ∧ 0 < j ∧ RunTo p s (j-1)

theorem ofNat_ne_minus {s : ℕ} (h : s < 2^31) : BitVec.ofNat 32 s ≠ -1#32 := by
  intro he
  have := congrArg BitVec.toNat he
  rw [BitVec.toNat_ofNat, Nat.mod_eq_of_lt (by omega)] at this
  have hm : (-1#32 : Word).toNat = 2^32-1 := by decide
  omega

theorem indexAt_available {p : ℕ → Bool} {j : ℕ} {index : Word} (hj : j < 2^31)
    (h : IndexAt p j index) (hp : p j = true) :
    IndexAt p (j+1) (if index = -1#32 then BitVec.ofNat 32 j else index) := by
  rcases h with ⟨rfl,hstart⟩ | ⟨s,rfl,hpos,hrun⟩
  · rw [if_pos rfl]
    exact Or.inr ⟨j,rfl,by omega,RunTo.single hp hstart⟩
  · rw [if_neg (ofNat_ne_minus (by have := hrun.le; omega))]
    refine Or.inr ⟨s,rfl,by omega,?_⟩
    have := hrun.extend (by rwa [show j-1+1 = j by omega])
    rwa [show j-1+1 = j+1-1 by omega] at this

theorem find_some {p : ℕ → Bool} {n m j : ℕ} {index numBlocks r : Word} (hj : j+m < 2^31)
    (hindex : IndexAt p j index) (hcount : count p j+numBlocks.toNat = n)
    (hdone : numBlocks = 0#32 → 0 < j ∧ p (j-1) = true)
    (hf : findContinuousBlocksIndex (lookup p j m) (BitVec.ofNat 32 j) index numBlocks = some r) :
    ∃ s e, RunTo p s e ∧ count p e+1 = n ∧ e+1 < j+m ∧ r = BitVec.ofNat 32 s := by
  induction m generalizing j index numBlocks with
  | zero => cases hf
  | succ m ih =>
    rw [lookup, List.range'_succ, List.map_cons, findContinuousBlocksIndex] at hf
    have hnext : BitVec.ofNat 32 j+1#32 = BitVec.ofNat 32 (j+1) := by bv_omega
    rw [hnext] at hf
    by_cases hz : numBlocks = 0#32
    · obtain ⟨hpos,hlast⟩ := hdone hz
      rw [if_pos hz, Option.some.injEq] at hf
      subst hf hz
      rcases hindex with ⟨-,h0 | hfalse⟩ | ⟨s,hs,-,hrun⟩
      · omega
      · rw [hfalse] at hlast
        cases hlast
      · refine ⟨s,j-1,hrun,?_,by omega,hs⟩
        have := count_step hlast
        rw [show j-1+1 = j by omega] at this
        rw [← this, ← hcount]
        rfl
    · rw [if_neg hz] at hf
      by_cases hp : p j = true
      · rw [if_pos (by rw [if_pos hp]; rfl)] at hf
        have hs := count_step hp
        refine (ih (by omega) (indexAt_available (by omega) hindex hp) (by bv_omega)
          (fun _ => ⟨by omega,hp⟩) hf).imp fun s => ?_
        rintro ⟨e,hrun,hc,hlt,hr⟩
        exact ⟨e,hrun,hc,by omega,hr⟩
      · rw [if_neg (by rw [if_neg hp]; decide)] at hf
        have hs := count_skip (Bool.eq_false_iff.mpr hp)
        have hgap : IndexAt p (j+1) (-1#32) := Or.inl ⟨rfl,Or.inr (Bool.eq_false_iff.mpr hp)⟩
        refine (ih (by omega) hgap (by omega)
          (fun h0 => absurd h0 hz) hf).imp fun s => ?_
        rintro ⟨e,hrun,hc,hlt,hr⟩
        exact ⟨e,hrun,hc,by omega,hr⟩

theorem find_none {p : ℕ → Bool} {n m j : ℕ} {i index numBlocks : Word}
    (hcount : count p j+numBlocks.toNat = n)
    (hf : findContinuousBlocksIndex (lookup p j m) i index numBlocks = none) :
    m = 0 ∨ count p (j+m-1) < n := by
  induction m generalizing j i index numBlocks with
  | zero => exact Or.inl rfl
  | succ m ih =>
    rw [lookup, List.range'_succ, List.map_cons, findContinuousBlocksIndex] at hf
    by_cases hz : numBlocks = 0#32
    · rw [if_pos hz] at hf
      cases hf
    · rw [if_neg hz] at hf
      have hpos : 0 < numBlocks.toNat := by bv_omega
      right
      have hrest : m = 0 ∨ count p (j+1+m-1) < n := by
        by_cases hp : p j = true
        · rw [if_pos (by rw [if_pos hp]; rfl)] at hf
          have hs := count_step hp
          exact ih (by bv_omega) hf
        · rw [if_neg (by rw [if_neg hp]; decide)] at hf
          have hs := count_skip (Bool.eq_false_iff.mpr hp)
          exact ih (by omega) hf
      rcases hrest with rfl | hlt
      · rw [show j+(0+1)-1 = j by omega]
        omega
      · rwa [show j+1+m-1 = j+(m+1)-1 by omega] at hlt

/-! ## The search over the bytes -/

theorem searchBlocks_skip {numPages : Word} {bitmap : Bytes} {d fuel i : ℕ} (hd : d ≤ fuel)
    (hin : i+d ≤ kheapBitmapSize) (hzero : ∀ j, i ≤ j → j < i+d → bitmap j = 0#8) :
    searchBlocks numPages fuel i bitmap = searchBlocks numPages (fuel-d) (i+d) bitmap := by
  induction d generalizing fuel i with
  | zero => rfl
  | succ d ih =>
    obtain ⟨fuel,rfl⟩ : ∃ f, fuel = f+1 := ⟨fuel-1,by omega⟩
    rw [searchBlocks, if_neg (by omega), if_neg (not_not.mpr (hzero i (le_refl i) (by omega))),
      ih (by omega) (by omega) (fun j h1 h2 => hzero j (by omega) (by omega)),
      show fuel+1-(d+1) = fuel-d by omega, show i+(d+1) = i+1+d by omega]

/-- The bits of pages that the bitmap's initialisation left out stay clear. -/
def HighClear (bitmap : Bytes) : Prop := ∀ p, 32768 ≤ p → bit bitmap p = false

theorem firstByte_lt {bitmap : Bytes} (hh : HighClear bitmap) {i : ℕ} (hi : bitmap i ≠ 0#8) :
    i < 4096 := by
  by_contra hge
  exact hi ((byte_eq_zero_iff bitmap i).mpr (fun p hp => hh p (by omega)))

theorem found_bounds {bitmap : Bytes} (hh : HighClear bitmap) {n i s : ℕ} (h : Found bitmap n i s) :
    i < 4096 ∧ 8*i+s < 32768 ∧ n ≤ 32768 := by
  obtain ⟨e,hrun,hcount,-⟩ := h.found
  have he : 8*i+e < 32768 := by
    by_contra hge
    have := hrun.holds e hrun.le (le_refl e)
    rw [avail, hh (8*i+e) (by omega)] at this
    cases this
  have := hrun.le
  have := count_le (p := avail bitmap i) e
  exact ⟨firstByte_lt hh h.first.1,by omega,by omega⟩

theorem not_clear_of_firstByte {bitmap : Bytes} {n i : ℕ} (hi : FirstByte bitmap i)
    (hlt : i < 131071-(n+7)/8) : ¬ Clear bitmap n := fun hc => hi.1 (hc.2 i hlt)

def foundAddress (i s : ℕ) : Word := kheapBeginAddress+BitVec.ofNat 32 (8*i+s)*pageSize

theorem foundAddress_eq (i s : ℕ) : kheapBeginAddress+(BitVec.ofNat 32 (i*8)+BitVec.ofNat 32 s)*pageSize =
    foundAddress i s := by
  rw [foundAddress, ← BitVec.ofNat_add, Nat.mul_comm i 8]

theorem searchBlocks_first {bitmap : Bytes} {numPages : Word} {i : ℕ} (fuel : ℕ) (hn : numPages ≠ 0#32)
    (hi : FirstByte bitmap i) (hin : i < kheapBitmapSize) :
    (kheapBitmapSize < i+(numPages.toNat+7)/8 ∧
      searchBlocks numPages (fuel+1) i bitmap = .error .undefined) ∨
    (count (avail bitmap i) (chunk numPages.toNat-1) < numPages.toNat ∧
      searchBlocks numPages (fuel+1) i bitmap = .error .undefined) ∨
    ∃ s, Found bitmap numPages.toNat i s ∧ i+(numPages.toNat+7)/8 ≤ kheapBitmapSize ∧
      searchBlocks numPages (fuel+1) i bitmap = .ok (foundAddress i s,
        writeFrom bitmap i (turnBitsOff (fromByte bitmap i) (BitVec.ofNat 32 s) numPages)) := by
  have hpos : 0 < numPages.toNat := by bv_omega
  rw [searchBlocks, if_neg (by omega), if_pos hi.1, toNat_numBytesOf]
  by_cases hout : kheapBitmapSize < i+(numPages.toNat+7)/8
  · exact Or.inl ⟨hout,if_pos hout⟩
  · have hsize : kheapBitmapSize = 131072 := rfl
    rw [if_neg hout, parseLookupTable_eq bitmap i _ (by rw [toNat_numBytesOf]; omega), toNat_numBytesOf]
    cases hf : findContinuousBlocksIndex (lookup (avail bitmap i) 0 (8*((numPages.toNat+7)/8))) 0#32
        (-1#32) numPages with
    | none =>
      refine Or.inr (Or.inl ⟨?_,rfl⟩)
      rcases find_none (n := numPages.toNat) (by simp) hf with h0 | hlt
      · omega
      · rwa [Nat.zero_add] at hlt
    | some index =>
      obtain ⟨s,e,hrun,hcount,hlt,hindex⟩ := find_some (n := numPages.toNat) (by omega)
        (Or.inl ⟨rfl,Or.inl rfl⟩) (by simp) (fun h0 => absurd h0 hn) hf
      rw [Nat.zero_add] at hlt
      have hs : s < 2^31 := by
        have := hrun.le
        omega
      refine Or.inr (Or.inr ⟨s,⟨hi,e,hrun,hcount,hlt⟩,by omega,?_⟩)
      simp only [hindex, if_pos (ofNat_ne_minus hs), foundAddress_eq]

theorem searchBound_eq (numPages : Word) :
    searchBound numPages =
      if (numPages.toNat+7)/8 < 131072 then 131071-(numPages.toNat+7)/8
      else 2^32+131071-(numPages.toNat+7)/8 := by
  have hb := toNat_numBytesOf numPages
  have hs : (BitVec.ofNat 32 kheapBitmapSize).toNat = 131072 := rfl
  have := numPages.isLt
  rw [searchBound_def]
  split <;> bv_omega

theorem found_count {bitmap : Bytes} {n i s : ℕ} (h : Found bitmap n i s) :
    n ≤ count (avail bitmap i) (chunk n-1) := by
  obtain ⟨e,hrun,hcount,hlt⟩ := h.found
  have hstep := count_step (hrun.holds e hrun.le (le_refl e))
  have hmono : count (avail bitmap i) (e+1) ≤ count (avail bitmap i) (chunk n-1) :=
    Nat.count_monotone _ (by omega)
  omega

theorem searchBlocks_zero {fuel i : ℕ} {bitmap bitmap' : Bytes} {address : Word}
    (h : searchBlocks 0#32 fuel i bitmap = .ok (address, bitmap')) : address = null ∧ bitmap' = bitmap := by
  induction fuel generalizing i with
  | zero =>
    cases h
    exact ⟨rfl,rfl⟩
  | succ fuel ih =>
    have hnone : findContinuousBlocksIndex (parseLookupTable (fromByte bitmap i) (numBytesOf 0#32))
        0#32 (-1#32) 0#32 = none := rfl
    rw [searchBlocks, hnone] at h
    split at h
    · cases h
    split at h
    · split at h <;> cases h
    · exact ih h

def Reached (n i : ℕ) : Prop := i+(n+7)/8 < 131071 ∨ (n+7)/8 = 131072 ∧ i = 0

theorem clear_not_reached {bitmap : Bytes} {n i s : ℕ} (hc : Clear bitmap n) (hf : Found bitmap n i s) :
    ¬ Reached n i := by
  rintro (hr | ⟨hr,-⟩)
  · exact not_clear_of_firstByte hf.first (by omega) hc
  · exact absurd hc.1 (by omega)

theorem search_none {bitmap : Bytes} {numPages : Word}
    (hz : ∀ j, j < min (searchBound numPages) 131072 → bitmap j = 0#8) :
    (Clear bitmap numPages.toNat ∧
      getFreeContinuousBlocksAddress numPages bitmap = .ok (null, bitmap)) ∨
    (¬ Clear bitmap numPages.toNat ∧ (∀ i s, Found bitmap numPages.toNat i s → ¬ Reached numPages.toNat i) ∧
      getFreeContinuousBlocksAddress numPages bitmap = .error .undefined) := by
  have hsize : kheapBitmapSize = 131072 := rfl
  obtain ⟨bound,hbound⟩ : ∃ bound, bound = searchBound numPages := ⟨_,rfl⟩
  have hB := searchBound_eq numPages
  rw [getFreeContinuousBlocksAddress]
  rw [← hbound] at hz hB ⊢
  have hlt := numPages.isLt
  by_cases hnb : (numPages.toNat+7)/8 < 131072
  · rw [if_pos hnb] at hB
    refine Or.inl ⟨⟨hnb,fun j hj => hz j (by omega)⟩,?_⟩
    rw [searchBlocks_skip (le_refl bound) (by omega) (fun j _ hj => hz j (by omega)), Nat.sub_self]
    rfl
  · rw [if_neg hnb] at hB
    refine Or.inr ⟨fun hc => hnb hc.1,fun i s hf hr => ?_,?_⟩
    · have hi : ¬ i < 131072 := fun hi => hf.first.1 (hz i (by omega))
      unfold Reached at hr
      omega
    · rw [searchBlocks_skip (d := 131072) (by omega) (by omega) (fun j _ hj => hz j (by omega)),
        show bound-131072 = bound-131072-1+1 by omega, searchBlocks, if_pos (by omega)]

theorem search_at {bitmap : Bytes} {numPages : Word} (hn : numPages ≠ 0#32) {i : ℕ}
    (hi : FirstByte bitmap i) (hmin : i < min (searchBound numPages) 131072) :
    ((∀ i s, Found bitmap numPages.toNat i s → ¬ Reached numPages.toNat i) ∧
      getFreeContinuousBlocksAddress numPages bitmap = .error .undefined) ∨
    ∃ s, Found bitmap numPages.toNat i s ∧ Reached numPages.toNat i ∧
      getFreeContinuousBlocksAddress numPages bitmap = .ok (foundAddress i s,
        writeFrom bitmap i (turnBitsOff (fromByte bitmap i) (BitVec.ofNat 32 s) numPages)) := by
  have hsize : kheapBitmapSize = 131072 := rfl
  obtain ⟨bound,hbound⟩ : ∃ bound, bound = searchBound numPages := ⟨_,rfl⟩
  have hB := searchBound_eq numPages
  have hreach : i+(numPages.toNat+7)/8 ≤ 131072 ↔ Reached numPages.toNat i := by
    unfold Reached
    split at hB <;> omega
  rw [getFreeContinuousBlocksAddress]
  rw [← hbound] at hmin ⊢
  rw [searchBlocks_skip (d := i) (by omega) (by omega) (fun j _ hj => hi.2 j (by omega)), Nat.zero_add,
    show bound-i = bound-i-1+1 by omega]
  rcases searchBlocks_first (bound-i-1) hn hi (by omega) with ⟨hout,he⟩ | ⟨hcount,he⟩ | ⟨s,hf,hin,he⟩
  · refine Or.inl ⟨fun j s hf hr => ?_,he⟩
    rw [firstByte_unique hf.first hi, ← hreach] at hr
    omega
  · refine Or.inl ⟨fun j s hf _ => ?_,he⟩
    have hji := firstByte_unique hf.first hi
    subst hji
    have := found_count hf
    omega
  · exact Or.inr ⟨s,hf,hreach.mp (by omega),he⟩

/-- Everything the search can do, on any bitmap. -/
theorem search_outcome (bitmap : Bytes) {numPages : Word} (hn : numPages ≠ 0#32) :
    (Clear bitmap numPages.toNat ∧
      getFreeContinuousBlocksAddress numPages bitmap = .ok (null, bitmap)) ∨
    (¬ Clear bitmap numPages.toNat ∧ (∀ i s, Found bitmap numPages.toNat i s → ¬ Reached numPages.toNat i) ∧
      getFreeContinuousBlocksAddress numPages bitmap = .error .undefined) ∨
    ∃ i s, Found bitmap numPages.toNat i s ∧ Reached numPages.toNat i ∧
      getFreeContinuousBlocksAddress numPages bitmap = .ok (foundAddress i s,
        writeFrom bitmap i (turnBitsOff (fromByte bitmap i) (BitVec.ofNat 32 s) numPages)) := by
  by_cases hz : ∀ j, j < min (searchBound numPages) 131072 → bitmap j = 0#8
  · exact (search_none hz).imp_right Or.inl
  · have hex : ∃ j, bitmap j ≠ 0#8 := by
      obtain ⟨j,hj⟩ := not_forall.mp hz
      exact ⟨j,fun h0 => hj (fun _ => h0)⟩
    obtain ⟨i,hi⟩ : ∃ i, FirstByte bitmap i :=
      ⟨Nat.find hex,Nat.find_spec hex,fun j hj => not_not.mp (Nat.find_min hex hj)⟩
    have hmin : i < min (searchBound numPages) 131072 := by
      by_contra hge
      exact hz (fun j hj => hi.2 j (by omega))
    have hnot : ¬ Clear bitmap numPages.toNat := by
      by_cases hnb : (numPages.toNat+7)/8 < 131072
      · rw [searchBound_eq, if_pos hnb] at hmin
        exact not_clear_of_firstByte hi (by omega)
      · exact fun hc => hnb hc.1
    rcases search_at hn hi hmin with ⟨hnone,he⟩ | ⟨s,hs,hr,he⟩
    · exact Or.inr (Or.inl ⟨hnot,hnone,he⟩)
    · exact Or.inr (Or.inr ⟨i,s,hs,hr,he⟩)

/-- Everything the search can do on a bitmap that a run of the kernel reaches. -/
theorem search_cases {bitmap : Bytes} (hh : HighClear bitmap) {numPages : Word}
    (hn : numPages ≠ 0#32) :
    (Clear bitmap numPages.toNat ∧
      getFreeContinuousBlocksAddress numPages bitmap = .ok (null, bitmap)) ∨
    (¬ Clear bitmap numPages.toNat ∧ (∀ i s, ¬ Found bitmap numPages.toNat i s) ∧
      getFreeContinuousBlocksAddress numPages bitmap = .error .undefined) ∨
    ∃ i s, Found bitmap numPages.toNat i s ∧
      getFreeContinuousBlocksAddress numPages bitmap = .ok (foundAddress i s,
        writeFrom bitmap i (turnBitsOff (fromByte bitmap i) (BitVec.ofNat 32 s) numPages)) := by
  have hreach : ∀ {i s}, Found bitmap numPages.toNat i s → Reached numPages.toNat i := fun hf => by
    have := found_bounds hh hf
    exact Or.inl (by omega)
  rcases search_outcome bitmap hn with hclear | ⟨hnot,hnone,he⟩ | ⟨i,s,hf,-,he⟩
  · exact Or.inl hclear
  · exact Or.inr (Or.inl ⟨hnot,fun i s hf => hnone i s hf (hreach hf),he⟩)
  · exact Or.inr (Or.inr ⟨i,s,hf,he⟩)

end MikeOS.KernelHeapSearch
