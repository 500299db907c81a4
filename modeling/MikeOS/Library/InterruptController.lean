import Mathlib.Data.BitVec
import Mathlib.Tactic

/-!
# The 8259A interrupt controller

Eight lines, the lowest one with the highest priority. A request that is not
masked goes through while no line of its priority or above is in service, and a
line stays in service until an end of interrupt. A command with bit 4 starts the
initialization, and the words that follow it on the data port are its own. The
word for the mode is kept and not read: a controller is taken to answer with its
base and the line in whatever mode it was left.
-/

set_option autoImplicit false

namespace InterruptController

inductive Expects where
  | mask
  | base
  | cascade
  | mode
  deriving DecidableEq, Repr

structure Chip where
  requested : Fin 8 → Bool
  inService : Fin 8 → Bool
  masked : BitVec 8
  base : BitVec 8
  cascade : BitVec 8
  mode : BitVec 8
  expects : Expects
  single : Bool
  needsMode : Bool

namespace Chip

/-- Only the end of interrupt without a line is modelled of the other commands. -/
def endOfInterrupt (c : Chip) : Chip :=
  match Fin.find? c.inService with
  | some i => { c with inService := Function.update c.inService i false }
  | none => c

def command (v : BitVec 8) (c : Chip) : Chip :=
  if v.getLsbD 4 then { c with
    requested := fun _ => false
    inService := fun _ => false
    masked := 0#8
    mode := 0#8
    expects := .base
    single := v.getLsbD 1
    needsMode := v.getLsbD 0 }
  else if v.getLsbD 3 = false ∧ v >>> 5 = 1#8 then c.endOfInterrupt
  else c

def lastWord (c : Chip) : Expects := if c.needsMode then .mode else .mask

def data (v : BitVec 8) (c : Chip) : Chip :=
  match c.expects with
  | .mask => { c with masked := v }
  | .base => { c with base := v &&& 0xF8#8, expects := if c.single then c.lastWord else .cascade }
  | .cascade => { c with cascade := v, expects := c.lastWord }
  | .mode => { c with mode := v, expects := .mask }

def next (lines : Fin 8 → Bool) (c : Chip) : Option (Fin 8) :=
  Fin.find? fun i => lines i && !c.masked.getLsbD i.val && decide (∀ j, j ≤ i → c.inService j = false)

def request (i : Fin 8) (c : Chip) : Chip := { c with requested := Function.update c.requested i true }

def accept (i : Fin 8) (c : Chip) : Chip := { c with
  requested := Function.update c.requested i false
  inService := Function.update c.inService i true }

def Idle (c : Chip) : Prop := ∀ i, c.inService i = false

instance (c : Chip) : Decidable c.Idle := inferInstanceAs (Decidable (∀ _, _))

variable {c : Chip} {lines : Fin 8 → Bool} {i : Fin 8}

theorem next_some (h : c.next lines = some i) :
    lines i = true ∧ c.masked.getLsbD i.val = false ∧ ∀ j, j ≤ i → c.inService j = false := by
  have hi := (Fin.find?_eq_some_iff.mp h).1
  rw [Bool.and_eq_true, Bool.and_eq_true, Bool.not_eq_true', decide_eq_true_iff] at hi
  exact ⟨hi.1.1,hi.1.2,hi.2⟩

theorem next_isSome (hidle : c.Idle) (hi : lines i = true) (hm : c.masked.getLsbD i.val = false) :
    (c.next lines).isSome = true := by
  rw [next, Fin.isSome_find?_iff]
  refine ⟨i,?_⟩
  rw [hi, hm, decide_eq_true fun j _ => hidle j]
  rfl

theorem accept_self (c : Chip) (i : Fin 8) : (c.accept i).inService i = true := Function.update_self ..

theorem end_idle (hidle : c.Idle) (i : Fin 8) : (c.accept i).endOfInterrupt.Idle := by
  have hother : ∀ j, j ≠ i → (c.accept i).inService j = false := fun j hj =>
    (Function.update_of_ne hj _ _).trans (hidle j)
  have hfind : Fin.find? (c.accept i).inService = some i :=
    Fin.find?_eq_some_iff.mpr ⟨c.accept_self i,fun j hj => hother j (ne_of_lt hj)⟩
  intro j
  rw [endOfInterrupt, hfind]
  by_cases hj : j = i
  · rw [hj]
    exact Function.update_self ..
  · exact (Function.update_of_ne hj _ _).trans (hother j hj)

end Chip

end InterruptController
