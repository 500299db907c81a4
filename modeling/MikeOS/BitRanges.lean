import MikeOS.PhysicalMemory
import MikeOS.KernelHeapSearch
import Mathlib.Order.Bounds.Basic

/-!
# Ranges of bits and the first bit that is set

`extract_bit`, `turn_bit_on`, `turn_bit_off` and `get_msb_index` count the bits
of a byte from the same end, and a buffer continues the count from byte to
byte.
-/

set_option autoImplicit false

namespace MikeOS.BitRanges
open BitArray MikeOS.Memory MikeOS.PhysicalMemory MikeOS.KernelHeapSearch

/-! ## Operations on promoted characters -/

/-- A `char` as the `int` it is promoted to. -/
def promoted (value : Byte) : Word := value.signExtend 32

theorem extractBit_promoted (value : Byte) (bitIndex : ℕ) (h : bitIndex < 8) :
    extractBit value bitIndex = ((promoted value).sshiftRight (8-bitIndex-1) &&& 1#32).setWidth 8 := by
  have hall : ∀ (v : Fin 256) (k : Fin 8), extractBit (BitVec.ofNat 8 v.val) k.val =
      ((promoted (BitVec.ofNat 8 v.val)).sshiftRight (8-k.val-1) &&& 1#32).setWidth 8 := by
    decide +kernel
  have hv := hall value.toFin ⟨bitIndex,h⟩
  rwa [show BitVec.ofNat 8 value.toFin.val = value by simp [BitVec.ofNat_toNat]] at hv

theorem setWidth_promoted (value : Byte) : (promoted value).setWidth 8 = value := by
  refine BitVec.eq_of_getLsbD_eq fun k hk => ?_
  rw [BitVec.getLsbD_setWidth, promoted, BitVec.getLsbD_signExtend, if_pos hk]
  simp [hk, show k < 32 by omega]

theorem setWidth_mask (bitIndex : ℕ) (h : bitIndex < 8) :
    (0x80#32 >>> bitIndex).setWidth 8 = 0x80#8 >>> bitIndex := by
  have hall : ∀ k : Fin 8, (0x80#32 >>> k.val).setWidth 8 = 0x80#8 >>> k.val := by decide
  exact hall ⟨bitIndex,h⟩

theorem turnBitOn_promoted (value : Byte) (bitIndex : ℕ) (h : bitIndex < 8) :
    turnBitOn value bitIndex = (promoted value ||| 0x80#32 >>> bitIndex).setWidth 8 := by
  rw [turnBitOn, BitVec.setWidth_or, setWidth_promoted, setWidth_mask bitIndex h]

theorem turnBitOff_promoted (value : Byte) (bitIndex : ℕ) (h : bitIndex < 8) :
    turnBitOff value bitIndex = (promoted value &&& ~~~(0x80#32 >>> bitIndex)).setWidth 8 := by
  rw [turnBitOff, BitVec.setWidth_and, BitVec.setWidth_not (by decide), setWidth_promoted, setWidth_mask bitIndex h]

/-! ## Reading a range back -/

def extractAt (buffer : Bytes) (q : ℕ) : Byte := extractBit (buffer (q/8)) (q%8)

def InRange (bitIndex numBits : Word) (q : ℕ) : Prop := bitIndex.toNat ≤ q ∧ q < bitIndex.toNat+numBits.toNat

instance (bitIndex numBits : Word) (q : ℕ) : Decidable (InRange bitIndex numBits q) :=
  inferInstanceAs (Decidable (_ ∧ _))

theorem extractAt_eq (buffer : Bytes) (q : ℕ) : extractAt buffer q = if bit buffer q = true then 1#8 else 0#8 :=
  extractBit_eq (buffer (q/8)) (q%8) (Nat.mod_lt q (by decide))

theorem extractBit_eq_one_iff (value : Byte) (k : ℕ) (hk : k < 8) :
    extractBit value k = 1#8 ↔ value.getMsbD k = true := by
  rw [extractBit_eq value k hk]
  split <;> simp_all

theorem extractAt_eq_one_iff (buffer : Bytes) (q : ℕ) : extractAt buffer q = 1#8 ↔ bit buffer q = true :=
  extractBit_eq_one_iff (buffer (q/8)) (q%8) (Nat.mod_lt q (by decide))

theorem ext_bit {a b : Bytes} (h : ∀ q, bit a q = bit b q) : a = b := by
  funext i
  refine BitVec.eq_of_getMsbD_eq fun k hk => ?_
  have hq := h (8*i+k)
  simpa only [bit, show (8*i+k)/8 = i by omega, show (8*i+k)%8 = k by omega] using hq

section
variable {bitIndex numBits : Word} (h : bitIndex.toNat+numBits.toNat < 2^31)
include h

theorem bit_on (buffer : Bytes) (q : ℕ) :
    bit (turnBitsOn buffer bitIndex numBits) q = (decide (InRange bitIndex numBits q) || bit buffer q) :=
  bit_turnBitsOn buffer bitIndex numBits q h

theorem bit_off (buffer : Bytes) (q : ℕ) :
    bit (turnBitsOff buffer bitIndex numBits) q = (!decide (InRange bitIndex numBits q) && bit buffer q) :=
  bit_turnBitsOff buffer bitIndex numBits q h

theorem extractAt_turnBitsOn (buffer : Bytes) (q : ℕ) :
    extractAt (turnBitsOn buffer bitIndex numBits) q =
      if InRange bitIndex numBits q then 1#8 else extractAt buffer q := by
  rw [extractAt_eq, bit_on h, extractAt_eq]
  by_cases hq : InRange bitIndex numBits q <;> simp [hq]

theorem extractAt_turnBitsOff (buffer : Bytes) (q : ℕ) :
    extractAt (turnBitsOff buffer bitIndex numBits) q =
      if InRange bitIndex numBits q then 0#8 else extractAt buffer q := by
  rw [extractAt_eq, bit_off h, extractAt_eq]
  by_cases hq : InRange bitIndex numBits q <;> simp [hq]

theorem turnBitsOn_turnBitsOff {buffer : Bytes}
    (hones : ∀ q, InRange bitIndex numBits q → extractAt buffer q = 1#8) :
    turnBitsOn (turnBitsOff buffer bitIndex numBits) bitIndex numBits = buffer := by
  refine ext_bit fun q => ?_
  rw [bit_on h, bit_off h]
  by_cases hq : InRange bitIndex numBits q
  · simp [hq, (extractAt_eq_one_iff buffer q).mp (hones q hq)]
  · simp [hq]

end

/-! ## The first bit that is set -/

def ones (value : Byte) : Set ℕ := {k | k < 8 ∧ extractBit value k = 1#8}

def setPositions (bitmap : Bytes) (bitmapSize : Word) : Set ℕ :=
  {q | q < 8*bitmapSize.toNat ∧ extractAt bitmap q = 1#8}

def noAvailablePage : Word := -1#32

def setNextFreePageIndex (bitmap : Bytes) (bitmapSize : Word) : Word :=
  match scan bitmap bitmapSize.toNat 0 with
  | some i => BitVec.ofNat 32 i*8#32+BitVec.ofNat 32 (getMsbIndex (bitmap i))
  | none => noAvailablePage

theorem getMsbIndex_isLeast {value : Byte} (h : value ≠ 0#8) : IsLeast (ones value) (getMsbIndex value) := by
  obtain ⟨hlt,hset,hlow⟩ := getMsbIndex_spec value h
  refine ⟨⟨hlt,(extractBit_eq_one_iff value _ hlt).mpr hset⟩,fun k hk => not_lt.mp fun hk' => ?_⟩
  have hk1 := (extractBit_eq_one_iff value k hk.1).mp hk.2
  rw [hlow k hk'] at hk1
  cases hk1

theorem scan_isLeast {bitmap : Bytes} {bitmapSize : Word} {i : ℕ} (h : scan bitmap bitmapSize.toNat 0 = some i) :
    IsLeast (setPositions bitmap bitmapSize) (8*i+getMsbIndex (bitmap i)) := by
  obtain ⟨-,hi,hbyte,hlow⟩ := scan_some h
  obtain ⟨hmsb,hleast⟩ := getMsbIndex_isLeast hbyte
  have hbyteOf : (8*i+getMsbIndex (bitmap i))/8 = i := by have := hmsb.1; omega
  have hbitOf : (8*i+getMsbIndex (bitmap i))%8 = getMsbIndex (bitmap i) := by have := hmsb.1; omega
  refine ⟨⟨by have := hmsb.1; omega,?_⟩,fun q hq => ?_⟩
  · rw [extractAt, hbyteOf, hbitOf]
    exact hmsb.2
  · -- a set bit is in no byte before the first one that is not zero
    have hone := (extractAt_eq_one_iff bitmap q).mp hq.2
    have hge : i ≤ q/8 := not_lt.mp fun hlt => by
      rw [bit, hlow (q/8) (by omega) hlt, BitVec.getMsbD_zero] at hone
      cases hone
    by_cases he : q/8 = i
    · have hq2 := hq.2
      rw [extractAt, he] at hq2
      have := hleast ⟨Nat.mod_lt q (by decide),hq2⟩
      omega
    · have := hmsb.1
      omega

theorem setPositions_of_scan_none {bitmap : Bytes} {bitmapSize : Word} (h : scan bitmap bitmapSize.toNat 0 = none) :
    setPositions bitmap bitmapSize = ∅ := by
  refine Set.eq_empty_of_forall_notMem fun q hq => ?_
  have hzero := scan_none h (q/8) (Nat.zero_le _) (by have := hq.1; omega)
  have hone := (extractAt_eq_one_iff bitmap q).mp hq.2
  rw [bit, hzero, BitVec.getMsbD_zero] at hone
  cases hone

theorem setNextFreePageIndex_least {bitmap : Bytes} {bitmapSize : Word} {p : ℕ}
    (h : IsLeast (setPositions bitmap bitmapSize) p) : setNextFreePageIndex bitmap bitmapSize = BitVec.ofNat 32 p := by
  cases hscan : scan bitmap bitmapSize.toNat 0 with
  | none =>
    rw [setPositions_of_scan_none hscan] at h
    exact absurd h.1 (Set.notMem_empty p)
  | some i =>
    rw [h.unique (scan_isLeast hscan), setNextFreePageIndex, hscan]
    simp [BitVec.ofNat_add, BitVec.ofNat_mul, mul_comm 8 i]

theorem setNextFreePageIndex_none {bitmap : Bytes} {bitmapSize : Word} (h : setPositions bitmap bitmapSize = ∅) :
    setNextFreePageIndex bitmap bitmapSize = noAvailablePage := by
  cases hscan : scan bitmap bitmapSize.toNat 0 with
  | none => rw [setNextFreePageIndex, hscan]
  | some i =>
    have hmem := (scan_isLeast hscan).1
    rw [h] at hmem
    exact absurd hmem (Set.notMem_empty _)

/-- Writing a range and reading it back, and finding the first bit that is set,
in one numbering of the bits. -/
theorem bit_range_updates (buffer : Bytes) (bitIndex numBits : Word) (h : bitIndex.toNat+numBits.toNat < 2^31) :
    (∀ q, extractAt (turnBitsOn buffer bitIndex numBits) q =
      if InRange bitIndex numBits q then 1#8 else extractAt buffer q) ∧
    (∀ q, extractAt (turnBitsOff buffer bitIndex numBits) q =
      if InRange bitIndex numBits q then 0#8 else extractAt buffer q) ∧
    ((∀ q, InRange bitIndex numBits q → extractAt buffer q = 1#8) →
      turnBitsOn (turnBitsOff buffer bitIndex numBits) bitIndex numBits = buffer) ∧
    (∀ value : Byte, value ≠ 0#8 → IsLeast (ones value) (getMsbIndex value)) ∧
    ∀ bitmapSize, (∀ p, IsLeast (setPositions buffer bitmapSize) p →
        setNextFreePageIndex buffer bitmapSize = BitVec.ofNat 32 p) ∧
      (setPositions buffer bitmapSize = ∅ → setNextFreePageIndex buffer bitmapSize = noAvailablePage) :=
  ⟨extractAt_turnBitsOn h buffer,extractAt_turnBitsOff h buffer,turnBitsOn_turnBitsOff h,
    fun _ hv => getMsbIndex_isLeast hv,
    fun _ => ⟨fun _ hp => setNextFreePageIndex_least hp,setNextFreePageIndex_none⟩⟩

theorem thirteen_bits_updated : (∀ q, extractAt (turnBitsOn (fun _ => 0xFF#8) 5#32 13#32) q =
      if InRange 5#32 13#32 q then 1#8 else extractAt (fun _ => 0xFF#8) q) ∧
    (∀ q, extractAt (turnBitsOff (fun _ => 0xFF#8) 5#32 13#32) q =
      if InRange 5#32 13#32 q then 0#8 else extractAt (fun _ => 0xFF#8) q) ∧
    ((∀ q, InRange 5#32 13#32 q → extractAt (fun _ => 0xFF#8) q = 1#8) →
      turnBitsOn (turnBitsOff (fun _ => 0xFF#8) 5#32 13#32) 5#32 13#32 = fun _ => 0xFF#8) ∧
    (∀ value : Byte, value ≠ 0#8 → IsLeast (ones value) (getMsbIndex value)) ∧
    ∀ bitmapSize, (∀ p, IsLeast (setPositions (fun _ => 0xFF#8) bitmapSize) p →
        setNextFreePageIndex (fun _ => 0xFF#8) bitmapSize = BitVec.ofNat 32 p) ∧
      (setPositions (fun _ => 0xFF#8) bitmapSize = ∅ →
        setNextFreePageIndex (fun _ => 0xFF#8) bitmapSize = noAvailablePage) :=
  bit_range_updates (fun _ => 0xFF#8) 5#32 13#32 (by decide)

end MikeOS.BitRanges
