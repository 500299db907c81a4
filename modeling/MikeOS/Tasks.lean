import Mathlib.Data.List.GetD
import MikeOS.FileModes
import MikeOS.Library.ByteStack
import MikeOS.StringOrder

/-!
# The name of a task

`alloc_task` copies the path into the twenty bytes of `name` and sets two
fields behind them afterwards; `load_task` opens the file by this copy. The
task is the block that `kmalloc` returned.
-/

set_option autoImplicit false

namespace MikeOS.Tasks
open MikeOS.CString
open MikeOS.FileModes (CStr)

def memcpy : List Byte → Word → Ram → Ram
  | [], _, mem => mem
  | b::bytes, dst, mem => memcpy bytes (dst+1#32) (Function.update mem dst b)

def kernelDataSegment : Word := 0x10#32
def sizeofTask : ℕ := 92

def nameOf (task : Word) : Word := task+36#32

def allocTaskBytes (task vmm kernelStack : Word) (name : CStr) (mem : Ram) : Ram :=
  ByteStack.store (task+88#32) kernelStack (ByteStack.store (task+84#32) kernelDataSegment
    (memcpy (name.1 ++ [0#8]) (nameOf task) (ByteStack.store task vmm mem)))

def nameRead (name : CStr) : List Byte := if name.1.length ≤ 47 then name.1 else name.1.take 48 ++ [0x10#8]

theorem memcpy_apply (bytes : List Byte) (dst : Word) (mem : Ram) (h : bytes.length < 2^32) (q : Word) :
    memcpy bytes dst mem q = if (q-dst).toNat < bytes.length then bytes.getD (q-dst).toNat 0#8 else mem q := by
  induction bytes generalizing dst mem with
  | nil => rfl
  | cons b bytes ih =>
    rw [List.length_cons] at h
    rw [memcpy, ih _ _ (by omega), List.length_cons]
    by_cases hq : q = dst
    · subst hq
      rw [if_neg (by bv_omega), Function.update_self, BitVec.sub_self, if_pos (by simp)]
      rfl
    · have hsub : (q-dst).toNat = (q-(dst+1#32)).toNat+1 := by bv_omega
      rw [hsub, Function.update_of_ne hq, List.getD_cons_succ]
      simp only [Nat.add_lt_add_iff_right]

section
variable (task vmm kernelStack : Word) {name : CStr} (mem : Ram)

theorem allocTaskBytes_apply (hlen : name.1.length < 2^31) {k : ℕ} (hk : 36 ≤ k) (hlt : k < 2^32) :
    allocTaskBytes task vmm kernelStack name mem (task+BitVec.ofNat 32 k) =
      if k < 84 ∨ 92 ≤ k then
        if k-36 < name.1.length+1 then (name.1 ++ [0#8]).getD (k-36) 0#8 else mem (task+BitVec.ofNat 32 k)
      else if k < 88 then Words.byteOf kernelDataSegment (k-84) else Words.byteOf kernelStack (k-88) := by
  have h88 : (task+BitVec.ofNat 32 k-(task+88#32)).toNat = (k+2^32-88)%2^32 := by bv_omega
  have h84 : (task+BitVec.ofNat 32 k-(task+84#32)).toNat = (k+2^32-84)%2^32 := by bv_omega
  have h36 : (task+BitVec.ofNat 32 k-(task+36#32)).toNat = k-36 := by bv_omega
  have h0 : (task+BitVec.ofNat 32 k-task).toNat = k := by bv_omega
  rw [allocTaskBytes, ByteStack.store, h88]
  by_cases hstack : 88 ≤ k ∧ k < 92
  · rw [if_pos (by omega), if_neg (by omega), if_neg (by omega), show (k+2^32-88)%2^32 = k-88 by omega]
  rw [if_neg (by omega), ByteStack.store, h84]
  by_cases hss : 84 ≤ k ∧ k < 88
  · rw [if_pos (by omega), if_neg (by omega), if_pos (by omega), show (k+2^32-84)%2^32 = k-84 by omega]
  rw [if_neg (by omega), if_pos (by omega), nameOf, memcpy_apply _ _ _ (by simp; omega), h36, List.length_append,
    List.length_singleton]
  by_cases hname : k-36 < name.1.length+1
  · rw [if_pos hname, if_pos hname]
  · rw [if_neg hname, if_neg hname, ByteStack.store, h0, if_neg (by omega)]

theorem name_at (hlen : name.1.length < 2^31) {i : ℕ} (hi : i < 48) (hin : i ≤ name.1.length) :
    allocTaskBytes task vmm kernelStack name mem (nameOf task+BitVec.ofNat 32 i) = (name.1 ++ [0#8]).getD i 0#8 := by
  rw [nameOf, BitVec.add_assoc, ← BitVec.ofNat_add, allocTaskBytes_apply _ _ _ _ hlen (by omega) (by omega),
    if_pos (by omega), if_pos (by omega), Nat.add_sub_cancel_left]

theorem selector_at (hlen : name.1.length < 2^31) {i : ℕ} (hi : 48 ≤ i) (hlt : i < 52) :
    allocTaskBytes task vmm kernelStack name mem (nameOf task+BitVec.ofNat 32 i) =
      Words.byteOf kernelDataSegment (i-48) := by
  rw [nameOf, BitVec.add_assoc, ← BitVec.ofNat_add, allocTaskBytes_apply _ _ _ _ hlen (by omega) (by omega),
    if_neg (by omega), if_pos (by omega)]
  congr 1
  omega

theorem spells_nameRead (hlen : name.1.length < 2^31) :
    Spells (fun i => allocTaskBytes task vmm kernelStack name mem (nameOf task+BitVec.ofNat 32 i))
      (nameRead name) := by
  rw [nameRead]
  split
  · rename_i hshort
    refine ⟨fun i hi => ?_,?_⟩
    · change allocTaskBytes _ _ _ _ _ _ = _
      rw [name_at _ _ _ _ hlen (by omega) (by omega), List.getD_append _ _ _ _ hi, List.getD_eq_getElem?_getD,
        List.getElem?_eq_getElem hi, Option.getD_some]
    · change allocTaskBytes _ _ _ _ _ _ = _
      rw [name_at _ _ _ _ hlen (by omega) le_rfl, List.getD_append_right _ _ _ _ le_rfl, Nat.sub_self]
      rfl
  · rename_i hlong
    have htake : (name.1.take 48).length = 48 := by rw [List.length_take]; omega
    refine ⟨fun i hi => ?_,?_⟩
    · rw [List.length_append, htake, List.length_singleton] at hi
      change allocTaskBytes _ _ _ _ _ _ = _
      by_cases h48 : i < 48
      · rw [name_at _ _ _ _ hlen h48 (by omega), List.getD_append _ _ _ _ (by omega), List.getD_eq_getElem?_getD,
          List.getElem?_eq_getElem (by omega), Option.getD_some, List.getElem_append_left (by omega),
          List.getElem_take]
      · obtain rfl : i = 48 := by omega
        rw [selector_at _ _ _ _ hlen le_rfl (by omega), List.getElem_append_right (by omega)]
        simp [htake, Words.byteOf, kernelDataSegment]
    · change allocTaskBytes _ _ _ _ _ _ = _
      rw [List.length_append, htake, List.length_singleton, selector_at _ _ _ _ hlen (by omega) (by omega)]
      decide

theorem nameRead_nonzero (name : CStr) : 0#8 ∉ nameRead name := by
  rw [nameRead]
  split
  · exact name.2
  · rw [List.mem_append, not_or]
    exact ⟨fun h => name.2 (List.mem_of_mem_take h),by decide⟩

theorem nameRead_eq_iff (name : CStr) :
    nameRead name = name.1 ↔ name.1.length ≤ 47 ∨ name.1.length = 49 ∧ name.1.getD 48 0#8 = 0x10#8 := by
  rw [nameRead]
  split
  · rename_i hshort
    exact iff_of_true rfl (Or.inl hshort)
  · rename_i hlong
    constructor
    · intro h
      have hlen := congrArg List.length h
      rw [List.length_append, List.length_take, List.length_singleton] at hlen
      refine Or.inr ⟨by omega,?_⟩
      rw [← h, List.getD_append_right _ _ _ _ (by rw [List.length_take]; omega), List.length_take,
        show 48-min 48 name.1.length = 0 by omega]
      rfl
    · rintro (hshort | ⟨hlen,hlast⟩)
      · exact absurd hshort hlong
      · have hdrop : name.1.drop 48 = [0x10#8] := by
          have h1 : (name.1.drop 48).length = 1 := by rw [List.length_drop]; omega
          obtain ⟨c,hc⟩ := List.length_eq_one_iff.mp h1
          rw [hc, ← hlast, List.getD_eq_getElem?_getD, ← Nat.add_zero 48, ← List.getElem?_drop, hc]
          rfl
        rw [← hdrop, List.take_append_drop]

/-- Bytes behind the task are written by a path of 56 characters or more. -/
theorem behind_task (hlen : name.1.length < 2^31) {k : ℕ} (hk : sizeofTask ≤ k) (hlt : k < 2^32) :
    allocTaskBytes task vmm kernelStack name mem (task+BitVec.ofNat 32 k) =
      if k < name.1.length+37 then (name.1 ++ [0#8]).getD (k-36) 0#8 else mem (task+BitVec.ofNat 32 k) := by
  rw [sizeofTask] at hk
  rw [allocTaskBytes_apply _ _ _ _ hlen (by omega) hlt, if_pos (Or.inr hk)]
  exact if_congr (by omega) rfl rfl

theorem within_task_iff (hlen : name.1.length < 2^31) :
    (∀ mem q, sizeofTask ≤ (q-task).toNat → allocTaskBytes task vmm kernelStack name mem q = mem q) ↔
      name.1.length ≤ 55 := by
  constructor
  · intro h
    by_contra hlong
    have hoff : (task+BitVec.ofNat 32 sizeofTask-task).toNat = sizeofTask := by
      rw [sizeofTask]
      bv_omega
    have hsame := h (fun _ => (name.1 ++ [0#8]).getD 56 0#8+1#8) (task+BitVec.ofNat 32 sizeofTask) (by rw [hoff])
    rw [behind_task _ _ _ _ hlen le_rfl (by decide), if_pos (by rw [sizeofTask]; omega)] at hsame
    change (name.1 ++ [0#8]).getD 56 0#8 = _ at hsame
    bv_omega
  · intro hshort mem q hq
    have hbyte := behind_task task vmm kernelStack mem hlen hq (q-task).isLt
    have hadr : task+BitVec.ofNat 32 (q-task).toNat = q := by
      rw [BitVec.ofNat_toNat, BitVec.setWidth_eq]
      bv_omega
    rw [sizeofTask] at hq
    rw [hadr, if_neg (by omega)] at hbyte
    exact hbyte

end

/-- Whatever memory held, the name of a new task is the path it was made with
exactly when that has at most 47 characters, or 49 of which the last one is the
code of the kernel's data segment; and nothing is written behind the task
exactly when it has at most 55. -/
theorem task_name_iff (task vmm kernelStack : Word) (name : CStr) (hlen : name.1.length < 2^31) :
    (∀ mem, Spells (fun i => allocTaskBytes task vmm kernelStack name mem (nameOf task+BitVec.ofNat 32 i)) name.1 ↔
      name.1.length ≤ 47 ∨ name.1.length = 49 ∧ name.1.getD 48 0#8 = 0x10#8) ∧
    ((∀ mem q, sizeofTask ≤ (q-task).toNat → allocTaskBytes task vmm kernelStack name mem q = mem q) ↔
      name.1.length ≤ 55) := by
  refine ⟨fun mem => ?_,within_task_iff task vmm kernelStack hlen⟩
  rw [← nameRead_eq_iff]
  exact StringOrder.spells_unique (nameRead_nonzero name) name.2 (spells_nameRead task vmm kernelStack mem hlen)

def longPath : CStr := ⟨List.replicate 60 0x61#8,by decide⟩

theorem long_path_overruns :
    ¬ ∀ mem q, sizeofTask ≤ (q-0xC0900008#32).toNat →
      allocTaskBytes 0xC0900008#32 0xC0900100#32 0xC0A00000#32 longPath mem q = mem q := by
  rw [(task_name_iff 0xC0900008#32 0xC0900100#32 0xC0A00000#32 longPath (by decide)).2]
  decide

end MikeOS.Tasks
