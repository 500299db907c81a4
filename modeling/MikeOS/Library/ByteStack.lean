import MikeOS.Library.Words

/-!
# A stack of words in byte memory

Words of four bytes lie in memory with their low byte first. The stack grows
down and its addresses wrap; what was pushed is read back from the top on as
long as the words fit in the address space.
-/

set_option autoImplicit false

namespace ByteStack
open Words

abbrev Memory := BitVec 32 → BitVec 8

def load (mem : Memory) (a : BitVec 32) : BitVec 32 :=
  mem (a+3#32) ++ mem (a+2#32) ++ mem (a+1#32) ++ mem a

def store (a x : BitVec 32) (mem : Memory) : Memory := fun p =>
  if (p-a).toNat < 4 then byteOf x (p-a).toNat else mem p

def words (mem : Memory) : ℕ → BitVec 32 → List (BitVec 32)
  | 0, _ => []
  | n+1, a => load mem a::words mem n (a+4#32)

structure Stack where
  top : BitVec 32
  mem : Memory

def push (x : BitVec 32) (s : Stack) : Stack := ⟨s.top-4#32, store (s.top-4#32) x s.mem⟩

def pushes : List (BitVec 32) → Stack → Stack
  | [], s => s
  | x::xs, s => pushes xs (push x s)

section
variable {mem mem' : Memory} {a b x : BitVec 32} {s : Stack}

theorem load_congr (h : ∀ k < 4, mem (a+BitVec.ofNat 32 k) = mem' (a+BitVec.ofNat 32 k)) :
    load mem a = load mem' a := by
  have h0 := h 0 (by omega)
  rw [show a+BitVec.ofNat 32 0 = a by simp] at h0
  rw [load, load, h0, h 1 (by omega), h 2 (by omega), h 3 (by omega)]

theorem store_byte (mem : Memory) (a x : BitVec 32) {k : ℕ} (hk : k < 4) :
    store a x mem (a+BitVec.ofNat 32 k) = byteOf x k := by
  have hoff : (a+BitVec.ofNat 32 k-a).toNat = k := by bv_omega
  rw [store, hoff, if_pos hk]

theorem load_of_bytes (h : ∀ k < 4, mem (a+BitVec.ofNat 32 k) = byteOf x k) : load mem a = x := by
  have h0 := h 0 (by omega)
  rw [show a+BitVec.ofNat 32 0 = a by simp] at h0
  rw [load, h0]
  exact (congrArg₂ _ (congrArg₂ _ (congrArg₂ _ (h 3 (by omega)) (h 2 (by omega))) (h 1 (by omega))) rfl).trans
    (append_byteOf x)

theorem load_store (mem : Memory) (a x : BitVec 32) : load (store a x mem) a = x :=
  load_of_bytes fun _ hk => store_byte mem a x hk

theorem store_outside {p : BitVec 32} (h : 4 ≤ (p-a).toNat) : store a x mem p = mem p := by
  rw [store, if_neg (by omega)]

theorem apart_of_ne {p : BitVec 32} {n : ℕ} (h : ∀ j < n, p ≠ a+BitVec.ofNat 32 j) : n ≤ (p-a).toNat := by
  by_contra hlt
  refine h (p-a).toNat (by omega) ?_
  rw [BitVec.ofNat_toNat, BitVec.setWidth_eq]
  bv_omega

/-- The words from an address on depend on their bytes only. -/
theorem words_congr (n : ℕ) (h : ∀ k < 4*n, mem (a+BitVec.ofNat 32 k) = mem' (a+BitVec.ofNat 32 k)) :
    words mem n a = words mem' n a := by
  induction n generalizing a with
  | zero => rfl
  | succ n ih =>
    rw [words, words, load_congr fun k hk => h k (by omega), ih fun k hk => ?_]
    have hk' := h (4+k) (by omega)
    rwa [BitVec.ofNat_add, ← BitVec.add_assoc] at hk'

theorem words_add (mem : Memory) (m n : ℕ) (a : BitVec 32) :
    words mem (m+n) a = words mem m a ++ words mem n (a+BitVec.ofNat 32 (4*m)) := by
  induction m generalizing a with
  | zero => simp [words]
  | succ m ih =>
    rw [show m+1+n = m+n+1 by omega, words, words, ih, List.cons_append,
      show a+4#32+BitVec.ofNat 32 (4*m) = a+BitVec.ofNat 32 (4*(m+1)) by
        rw [BitVec.add_assoc, ← BitVec.ofNat_add, show 4+4*m = 4*(m+1) by omega]]

/-! ## Pushing -/

theorem pushes_top (xs : List (BitVec 32)) (s : Stack) :
    (pushes xs s).top = s.top-BitVec.ofNat 32 (4*xs.length) := by
  induction xs generalizing s with
  | nil => simp [pushes]
  | cons x xs ih =>
    rw [pushes, ih, push, List.length_cons]
    bv_omega

theorem words_push (x : BitVec 32) (s : Stack) {n : ℕ} (hn : 4*(n+1) ≤ 2^32) :
    words (push x s).mem (n+1) (push x s).top = x::words s.mem n s.top := by
  have htop : (push x s).top+4#32 = s.top := by rw [push, BitVec.sub_add_cancel]
  rw [words, htop]
  refine congrArg₂ _ (load_store _ _ _) (words_congr n fun k hk => store_outside ?_)
  bv_omega

theorem words_pushes (xs : List (BitVec 32)) (s : Stack) {n : ℕ} (hn : 4*(xs.length+n) ≤ 2^32) :
    words (pushes xs s).mem (xs.length+n) (pushes xs s).top = xs.reverse ++ words s.mem n s.top := by
  induction xs generalizing s n with
  | nil => simp [pushes]
  | cons x xs ih =>
    rw [List.length_cons] at hn
    rw [pushes, List.length_cons, show xs.length+1+n = xs.length+(n+1) by omega, ih _ (by omega),
      words_push x s (by omega), List.reverse_cons, List.append_assoc, List.singleton_append]

/-- Pushing writes the bytes below the top and no others. -/
theorem pushes_outside (xs : List (BitVec 32)) (s : Stack) {p : BitVec 32} (hle : 4*xs.length ≤ 2^32)
    (hp : 4*xs.length ≤ (p-(pushes xs s).top).toNat) : (pushes xs s).mem p = s.mem p := by
  induction xs generalizing s with
  | nil => rfl
  | cons x xs ih =>
    rw [List.length_cons] at hle hp
    rw [pushes] at hp ⊢
    rw [ih _ (by omega) (by omega)]
    apply store_outside
    rw [pushes_top, push] at hp
    bv_omega

theorem load_above (xs : List (BitVec 32)) (s : Stack) {k : ℕ} (hk : 4*xs.length+k+4 ≤ 2^32) :
    load (pushes xs s).mem (s.top+BitVec.ofNat 32 k) = load s.mem (s.top+BitVec.ofNat 32 k) := by
  refine load_congr fun j hj => pushes_outside xs s (by omega) ?_
  rw [pushes_top]
  bv_omega

end

end ByteStack
