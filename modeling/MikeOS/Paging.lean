import MikeOS.Common

/-!
# Directory and table entries

An entry is a word: the address of a frame in its upper twenty bits and the
attributes in the lower ones. Entries are written as an address first and the
attributes are added afterwards.
-/

set_option autoImplicit false

namespace MikeOS.Paging

def pageTableSize : ℕ := 1024
def recursivePgdAddress : Word := 0xFFC00000#32
def recursivePgtAddress : Word := 0xFFFFF000#32
def kernelPgdEntryIndex : ℕ := 768
def numKernelPageTables : ℕ := 2

def present : Word := 1#32
def readWrite : Word := 2#32
def user : Word := 4#32

def addressToDirectoryEntry (address : Word) : Word := address >>> 22

def addressToPageTableEntry (address : Word) : Word := address >>> 12 &&& 0x3ff#32

def editEntryAttributes (entry attributes : Word) : Word := entry ||| attributes

theorem toNat_addressToDirectoryEntry (address : Word) :
    (addressToDirectoryEntry address).toNat = address.toNat/2^22 := by
  rw [addressToDirectoryEntry, BitVec.toNat_ushiftRight, Nat.shiftRight_eq_div_pow]

theorem toNat_addressToPageTableEntry (address : Word) :
    (addressToPageTableEntry address).toNat = address.toNat/4096%1024 := by
  rw [addressToPageTableEntry, BitVec.toNat_and, BitVec.toNat_ushiftRight,
    Nat.shiftRight_eq_div_pow, show (0x3ff#32).toNat = 2^10-1 from rfl, Nat.and_two_pow_sub_one_eq_mod]

end MikeOS.Paging
