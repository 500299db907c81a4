import Mathlib.Data.List.Basic
import Mathlib.Tactic

/-!
# Extents

An extent is a range of addresses, given by where it starts and how long it
is. Two extents are apart when one ends before the other starts.
-/

set_option autoImplicit false

structure Extent where
  start : ℕ
  len : ℕ
  deriving DecidableEq, Repr

namespace Extent

def Apart (a b : Extent) : Prop := a.start+a.len ≤ b.start ∨ b.start+b.len ≤ a.start

def Within (a b : Extent) : Prop := b.start ≤ a.start ∧ a.start+a.len ≤ b.start+b.len

theorem Apart.symm {a b : Extent} (h : Apart a b) : Apart b a := Or.symm h

theorem Apart.of_within {a b a' b' : Extent} (h : Apart a' b') (ha : Within a a') (hb : Within b b') :
    Apart a b := by
  unfold Apart Within at *
  omega

theorem Apart.start_ne {a b : Extent} (h : Apart a b) (ha : 0 < a.len) (hb : 0 < b.len) :
    a.start ≠ b.start := by
  unfold Apart at h
  omega

theorem pairwise_perm {l m : List Extent} (h : l.Perm m) (hl : l.Pairwise Apart) :
    m.Pairwise Apart :=
  (h.pairwise_iff (fun hab => hab.symm)).mp hl

end Extent
