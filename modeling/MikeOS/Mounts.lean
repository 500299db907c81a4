import MikeOS.Library.Simulation
import MikeOS.StringOrder
import MikeOS.Vfs

/-!
# Mounting and opening

File systems are known by their addresses, and `NULL` in a mount point means
that nothing is mounted there. `vfs_mount` ends without a `return` for a path
other than the root's once the root has a file system, and what is read as its
result is a parameter; so is what `initialize_list` is read to return. Nothing
ever adds a mount point below the root, so the tree is one word: the file system
that was mounted at the root last.
-/

set_option autoImplicit false

namespace MikeOS.Mounts
open FileModes (CStr)
open MikeOS.CString MikeOS.StringOrder MikeOS.Vfs

structure FileSystemT where
  read : Word
  openFn : Word
  close : Word
  deriving DecidableEq, Repr

def bytesOf (s : CStr) : ℕ → Byte := charAt s

variable {κ : Type*}

/-- `mountPoint` is what `kmalloc` returns. Nothing is returned where the kernel
panics. -/
def vfsInit (initialized : Bool) (mountPoint : Word) (m : Mounts Word κ) : Option (Mounts Word κ) :=
  if mountPoint = null then none
  else if initialized then
    some { m with
      mountPoints := mountPoint
      mountPath := Function.update m.mountPath mountPoint rootPath
      mountedFs := Function.update m.mountedFs mountPoint null
      children := Function.update m.children mountPoint ⟨null, null⟩ }
  else none

def setRoot (fs : Word) (m : Mounts Word κ) : Mounts Word κ :=
  { m with mountedFs := Function.update m.mountedFs m.mountPoints fs }

def vfsMount (memory : Word → FileSystemT) (junk : ErrorCode) (path : Option CStr) (fs : Word) (m : Mounts Word κ) :
    ErrorCode × Mounts Word κ :=
  match path with
  | none => (.invalidArgument, m)
  | some path =>
    if fs = null then (.invalidArgument, m)
    else if strcmp (bytesOf path) rootPath.1 = 0 then
      if (memory fs).read ≠ null ∧ (memory fs).openFn ≠ null ∧ (memory fs).close ≠ null then
        (.success, setRoot fs m)
      else (.failure, m)
    else if m.mountedFs m.mountPoints = null then (.noSuchDirectory, m)
    else (junk, m)

inductive Call where
  | mount (path : Option CStr) (fs : Word)
  | openPath (path : CStr) (initialized : Bool)

inductive Outcome where
  | mounted (code : ErrorCode)
  | opens (fs : Option Word)
  deriving DecidableEq, Repr

section
variable (a : Allocator κ) (memory : Word → FileSystemT) (junk : ErrorCode)

def perform (fuel : ℕ) (m : Mounts Word κ) : Call → Option (Outcome × Mounts Word κ)
  | .mount path fs => some (.mounted (vfsMount memory junk path fs m).1, (vfsMount memory junk path fs m).2)
  | .openPath path initialized => (vfsOpen a initialized fuel path m).map fun r => (.opens r.1, r.2)

def step (fuel : ℕ) (s : List Outcome × Mounts Word κ) (c : Call) : Option (List Outcome × Mounts Word κ) :=
  (perform a memory junk fuel s.2 c).map fun r => (r.1::s.1, r.2)

def Supplied (s : List Outcome × Mounts Word κ) : Call → Prop
  | .openPath _ true => Provides a s.2
  | _ => True

/-! ## One file system -/

def Complete (fs : Word) : Prop :=
  fs ≠ null ∧ (memory fs).read ≠ null ∧ (memory fs).openFn ≠ null ∧ (memory fs).close ≠ null

instance (fs : Word) : Decidable (Complete memory fs) := inferInstanceAs (Decidable (_ ∧ _))

end

/-! ## The tree is its root -/

section
variable {a : Allocator κ} {memory : Word → FileSystemT} {junk : ErrorCode} {m : Mounts Word κ}

end

end MikeOS.Mounts
