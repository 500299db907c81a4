import MikeOS.Common
import MikeOS.Library.BitArray

/-!
# Bit helpers of the C library and of the memory managers

Bits of a byte are counted from the most significant one. A buffer is the
array of bytes from a pointer on.
-/

set_option autoImplicit false

namespace MikeOS.Memory
open BitArray

def extractBit (value : Byte) (bitIndex : ℕ) : Byte := (value >>> (8-bitIndex-1)) &&& 1#8

def turnBitOn (value : Byte) (bitIndex : ℕ) : Byte := value ||| (0x80#8 >>> bitIndex)

def turnBitOff (value : Byte) (bitIndex : ℕ) : Byte := value &&& ~~~(0x80#8 >>> bitIndex)

/-- The number of times the loop `while(value) value >>= 1` runs; eight
iterations empty any byte. -/
def significantBits : ℕ → Byte → ℕ
  | 0, _ => 0
  | fuel+1, value => if value = 0#8 then 0 else 1+significantBits fuel (value >>> 1)

def getMsbIndex (value : Byte) : ℕ := 8-significantBits 8 value

/-- The loop counter runs from `bit_index` while it is below
`bit_index + num_bits`, both signed. -/
def bitLoopCount (bitIndex numBits : Word) : ℕ := ((bitIndex+numBits).toInt-bitIndex.toInt).toNat

def turnBitsOff (buffer : Bytes) (bitIndex numBits : Word) : Bytes :=
  overRange (modifyAt turnBitOff) buffer bitIndex.toNat (bitLoopCount bitIndex numBits)

def turnBitsOn (buffer : Bytes) (bitIndex numBits : Word) : Bytes :=
  overRange (modifyAt turnBitOn) buffer bitIndex.toNat (bitLoopCount bitIndex numBits)

def pageAlign (value : Word) : Word := value &&& ~~~(pageSize-1#32)

def managedMemoryPageAlign (value addr : Word) : Word := pageAlign value+(addr-pageAlign addr)

def addressToBitIndex (addr startAddress : Word) : Word :=
  (managedMemoryPageAlign addr startAddress-startAddress)/pageSize

theorem modify_turnBitOn : modifyAt turnBitOn = BitArray.set := rfl

theorem modify_turnBitOff : modifyAt turnBitOff = BitArray.clear := rfl

theorem bitLoopCount_eq (bitIndex numBits : Word)
    (h : bitIndex.toNat+numBits.toNat < 2^31) : bitLoopCount bitIndex numBits = numBits.toNat := by
  have hs : (bitIndex+numBits).toNat = bitIndex.toNat+numBits.toNat := by
    rw [BitVec.toNat_add]
    omega
  rw [bitLoopCount, BitVec.toInt_eq_toNat_of_lt (by omega), BitVec.toInt_eq_toNat_of_lt (by omega)]
  omega

theorem bit_turnBitsOff (buffer : Bytes) (bitIndex numBits : Word) (q : ℕ)
    (h : bitIndex.toNat+numBits.toNat < 2^31) :
    bit (turnBitsOff buffer bitIndex numBits) q =
      (!decide (bitIndex.toNat ≤ q ∧ q < bitIndex.toNat+numBits.toNat) && bit buffer q) := by
  rw [turnBitsOff, modify_turnBitOff, bit_clear_range, bitLoopCount_eq bitIndex numBits h]

theorem bit_turnBitsOn (buffer : Bytes) (bitIndex numBits : Word) (q : ℕ)
    (h : bitIndex.toNat+numBits.toNat < 2^31) :
    bit (turnBitsOn buffer bitIndex numBits) q =
      (decide (bitIndex.toNat ≤ q ∧ q < bitIndex.toNat+numBits.toNat) || bit buffer q) := by
  rw [turnBitsOn, modify_turnBitOn, bit_set_range, bitLoopCount_eq bitIndex numBits h]

theorem msbIndex_bytes : ∀ v : Fin 256, v.val ≠ 0 →
    getMsbIndex (BitVec.ofNat 8 v.val) < 8 ∧
    (BitVec.ofNat 8 v.val).getMsbD (getMsbIndex (BitVec.ofNat 8 v.val)) = true ∧
    ∀ k : Fin 8, k.val < getMsbIndex (BitVec.ofNat 8 v.val) →
      (BitVec.ofNat 8 v.val).getMsbD k.val = false := by
  decide +kernel

/-- On a nonzero byte `get_msb_index` is the lowest index whose bit is set. -/
theorem getMsbIndex_spec (value : Byte) (h : value ≠ 0#8) :
    getMsbIndex value < 8 ∧ value.getMsbD (getMsbIndex value) = true ∧
    ∀ k, k < getMsbIndex value → value.getMsbD k = false := by
  have hv := msbIndex_bytes value.toFin
    (fun hz => h (BitVec.eq_of_toNat_eq (by simpa using hz)))
  have he : BitVec.ofNat 8 value.toFin.val = value := by
    simp [BitVec.ofNat_toNat]
  rw [he] at hv
  obtain ⟨hlt,hset,hlow⟩ := hv
  exact ⟨hlt,hset,fun k hk => hlow ⟨k,by omega⟩ hk⟩

theorem toNat_addressToBitIndex (addr startAddress : Word) (h : startAddress.toNat%4096 = 0)
    (hle : startAddress ≤ addr) :
    (addressToBitIndex addr startAddress).toNat = (addr.toNat-startAddress.toNat)/4096 := by
  have hs : pageAlign startAddress = startAddress := (pageBoundary_eq_iff startAddress).mpr h
  have ha : (pageAlign addr).toNat = addr.toNat/4096*4096 := toNat_pageBoundary addr
  rw [addressToBitIndex, managedMemoryPageAlign, hs, pageSize_eq, BitVec.toNat_udiv,
    show (4096#32).toNat = 4096 from rfl]
  bv_omega

end MikeOS.Memory
