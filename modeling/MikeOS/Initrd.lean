import MikeOS.Common

/-!
# Initial ramdisk: nodes and reads

A node keeps the address of its file and the file's size. `memcpy` is
represented by the addresses it reads from, in order; what arrives in the
destination are the bytes found there. The loop counter of `memcpy` is compared
with the unsigned length, so all `num` bytes are moved.
-/

set_option autoImplicit false

namespace MikeOS.Initrd

structure FsNode where
  size : Word
  fsSpecific : Word
  deriving DecidableEq, Repr

def memcpySources (src num : Word) : List Word :=
  (List.range num.toNat).map fun i => src+BitVec.ofNat 32 i

def initrdRead (node : FsNode) (offset length buffer : Word) : Word × List Word :=
  if offset < 0#32 ∨ length = 0#32 ∨ buffer = null then (0#32, [])
  else if node.size < offset+length then (0#32, [])
  else (length, memcpySources (node.fsSpecific+offset) length)

def FsNode.byteAddress (node : FsNode) (i : ℕ) : Word := node.fsSpecific+BitVec.ofNat 32 i

def FsNode.content (ram : Ram) (node : FsNode) : List Byte :=
  (List.range node.size.toNat).map fun i => ram (node.byteAddress i)

theorem memcpySources_node (node : FsNode) (offset length : Word) :
    memcpySources (node.fsSpecific+offset) length =
      (List.range length.toNat).map fun i => node.byteAddress (offset.toNat+i) := by
  apply List.map_congr_left
  intro i _
  rw [FsNode.byteAddress, BitVec.ofNat_add, BitVec.ofNat_toNat, BitVec.setWidth_eq, BitVec.add_assoc]

theorem initrdRead_eq (node : FsNode) (offset length buffer : Word) (hl : length ≠ 0#32)
    (hb : buffer ≠ null) (hin : offset.toNat+length.toNat ≤ node.size.toNat) :
    initrdRead node offset length buffer =
      (length, (List.range length.toNat).map fun i => node.byteAddress (offset.toNat+i)) := by
  have hs := node.size.isLt
  have hneg : ¬ offset < 0#32 := by bv_omega
  rw [initrdRead, if_neg (by simp only [hneg, hl, hb, or_self, not_false_eq_true]),
    if_neg (by bv_omega), memcpySources_node]

theorem initrdRead_zero (node : FsNode) (offset buffer : Word) :
    initrdRead node offset 0#32 buffer = (0#32, []) := by
  rw [initrdRead, if_pos (Or.inr (Or.inl rfl))]

theorem content_length (ram : Ram) (node : FsNode) :
    (node.content ram).length = node.size.toNat := by
  simp [FsNode.content]

/-- A run of consecutive bytes of the file, as a piece of its content. -/
theorem content_slice (ram : Ram) (node : FsNode) (pos n : ℕ) (h : pos+n ≤ node.size.toNat) :
    ((List.range n).map fun i => node.byteAddress (pos+i)).map ram =
      ((node.content ram).drop pos).take n := by
  apply List.ext_getElem
  · simp only [List.length_map, List.length_range, List.length_take, List.length_drop, content_length]
    omega
  · intro i hi hi'
    simp [FsNode.content]

end MikeOS.Initrd
