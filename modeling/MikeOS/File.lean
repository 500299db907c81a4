import MikeOS.Initrd

/-!
# Open files

The file pointer is a value, so the tests of it against `NULL` have no
counterpart; the buffer is an address and may be `NULL`. `file_seek` ends
without a `return` after a successful move: its result is then undefined.
-/

set_option autoImplicit false

namespace MikeOS.File
open MikeOS.Initrd

inductive SeekType where
  | seekSet
  | seekCur
  | seekEnd
  deriving DecidableEq, Repr

structure FileT where
  mode : Word
  offset : Word
  inode : FsNode
  deriving DecidableEq, Repr

def opened (mode : Word) (inode : FsNode) : FileT := ⟨mode, 0#32, inode⟩

def vfsRead (node : FsNode) (offset length buffer : Word) : Word × List Word :=
  initrdRead node offset length buffer

structure ReadResult where
  bytesRead : Word
  sources : List Word
  file : FileT

def fileRead (file : FileT) (buffer length : Word) : ReadResult :=
  if buffer = null then ⟨0#32, [], file⟩
  else
    let length := if length > file.inode.size-file.offset then file.inode.size-file.offset else length
    let (bytesRead, sources) := vfsRead file.inode file.offset length buffer
    ⟨bytesRead, sources, { file with offset := file.offset+bytesRead }⟩

/-- `jmp` is signed; its comparisons with the unsigned size and the sums with
the unsigned offset are unsigned. -/
def fileSeek (file : FileT) (jmp : Word) : SeekType → Option ErrorCode × FileT
  | .seekSet =>
    if jmp.toInt < 0 ∨ jmp ≥ file.inode.size then (some .invalidArgument, file)
    else (none, { file with offset := jmp })
  | .seekCur =>
    if file.offset+jmp ≥ file.inode.size ∨ file.offset+jmp < 0#32 then
      (some .invalidArgument, file)
    else (none, { file with offset := file.offset+jmp })
  | .seekEnd =>
    if jmp.toInt ≤ 0 then (none, { file with offset := file.offset-jmp })
    else (some .invalidArgument, file)

theorem fileRead_inode (file : FileT) (buffer length : Word) :
    (fileRead file buffer length).file.inode = file.inode := by
  rw [fileRead]
  split <;> rfl

theorem fileSeek_inode (file : FileT) (jmp : Word) (whence : SeekType) :
    (fileSeek file jmp whence).2.inode = file.inode := by
  cases whence <;> simp only [fileSeek] <;> split <;> rfl

def available (file : FileT) (length : Word) : ℕ :=
  min length.toNat (file.inode.size.toNat-file.offset.toNat)

theorem fileRead_null (file : FileT) (length : Word) :
    fileRead file null length = ⟨0#32, [], file⟩ := by
  rw [fileRead, if_pos rfl]

/-- While the offset is in range, a read is clamped to what is left of the file
and delivers exactly that. -/
theorem fileRead_eq (file : FileT) (buffer length : Word) (hb : buffer ≠ null)
    (hin : file.offset ≤ file.inode.size) :
    fileRead file buffer length = ⟨BitVec.ofNat 32 (available file length),
      (List.range (available file length)).map fun i =>
        file.inode.byteAddress (file.offset.toNat+i),
      { file with offset := file.offset+BitVec.ofNat 32 (available file length) }⟩ := by
  have hclamp : (if length > file.inode.size-file.offset then file.inode.size-file.offset
      else length) = BitVec.ofNat 32 (available file length) := by
    have hs := file.inode.size.isLt
    unfold available
    split <;> apply BitVec.eq_of_toNat_eq <;> rw [BitVec.toNat_ofNat] <;> bv_omega
  have hn : (BitVec.ofNat 32 (available file length)).toNat = available file length := by
    have hs := length.isLt
    rw [BitVec.toNat_ofNat, available]
    omega
  have hle : file.offset.toNat+available file length ≤ file.inode.size.toNat := by
    rw [available]
    bv_omega
  rw [fileRead, if_neg hb]
  simp only [hclamp, vfsRead]
  by_cases h0 : available file length = 0
  · rw [h0, initrdRead_zero]
    rfl
  · rw [initrdRead_eq _ _ _ _ (fun hz => h0 (by rw [← hn, hz]; rfl)) hb (by rw [hn]; exact hle), hn]

end MikeOS.File
