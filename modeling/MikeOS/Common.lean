import MikeOS.Library.Words

/-!
# Common constants, page rounding and error codes

The kernel is compiled for a 32-bit machine: `unsigned long`, `uint32_t` and
every pointer are 32-bit words and their arithmetic wraps. `NULL` is the zero
word.
-/

set_option autoImplicit false

namespace MikeOS

abbrev Byte := BitVec 8
abbrev Word := BitVec 32

instance : LawfulBEq Word := inferInstance

def null : Word := 0#32
def pageSize : Word := 4096#32
def kernelVirtualOffset : Word := 0xC0000000#32

theorem null_eq : null = 0#32 := rfl
@[simp] theorem pageSize_eq : pageSize = 4096#32 := rfl
@[simp] theorem kernelVirtualOffset_eq : kernelVirtualOffset = 0xC0000000#32 := rfl

inductive ErrorCode where
  | success
  | failure
  | noSuchFile
  | noSuchDirectory
  | invalidArgument
  | notEnoughRam
  deriving DecidableEq, Repr

def pageBoundary (val : Word) : Word := val &&& ~~~(pageSize-1#32)

def nextPageBoundary (val : Word) : Word := (val &&& ~~~(pageSize-1#32))+pageSize

def le32 (b0 b1 b2 b3 : Byte) : Word := b3 ++ b2 ++ b1 ++ b0

abbrev Ram := Word → Byte

def readWord (ram : Ram) (p : Word) : Word := le32 (ram p) (ram (p+1#32)) (ram (p+2#32)) (ram (p+3#32))

/-! ## Calls that may stop -/

section
variable {ε α β : Type}

theorem ok_bind (a : α) (f : α → Except ε β) : (Except.ok a >>= f) = f a := rfl

theorem bind_eq_ok {x : Except ε α} {f : α → Except ε β} {b : β} (h : (x >>= f) = .ok b) :
    ∃ a, x = .ok a ∧ f a = .ok b := by
  cases x with
  | error e => cases h
  | ok a => exact ⟨a,rfl,h⟩

end

/-! ## Page rounding -/

theorem toNat_pageBoundary (val : Word) : (pageBoundary val).toNat = val.toNat/4096*4096 :=
  Words.toNat_and_high val 12

theorem toNat_page (a : Word) (i : ℕ) : (a+BitVec.ofNat 32 i*pageSize).toNat = (a.toNat+4096*i)%2^32 := by
  rw [pageSize_eq, BitVec.toNat_add, BitVec.toNat_mul, BitVec.toNat_ofNat, show (4096#32).toNat = 4096 from rfl]
  omega

theorem pageBoundary_eq_iff (val : Word) : pageBoundary val = val ↔ val.toNat%4096 = 0 := by
  rw [← BitVec.toNat_inj, toNat_pageBoundary]
  omega

end MikeOS
