import MikeOS.Common
import MikeOS.Library.Transition

/-!
# The table of block devices

`register_device` goes on after it has found an empty place, so it fills every
empty slot with the device, counts one and returns false.
-/

set_option autoImplicit false

namespace MikeOS.Devices

def maxDevices : ℕ := 50

structure State where
  devicesPtrs : List Word
  registeredDevices : Word
  sized : devicesPtrs.length = maxDevices

def fillSlots (dev : Word) (slots : List Word) : List Word := slots.map fun p => if p = null then dev else p

def registerDevice (dev : Word) (s : State) : Bool × State :=
  if dev = null ∨ s.registeredDevices = BitVec.ofNat 32 maxDevices then (false, s)
  else (false, ⟨fillSlots dev s.devicesPtrs, s.registeredDevices+1#32, (List.length_map _).trans s.sized⟩)

def emptySlot (dev : Word) : List Word → Option (List Word)
  | [] => none
  | p::slots => if p = dev then some (null::slots) else (emptySlot dev slots).map (p::·)

theorem emptySlot_length {dev : Word} {slots slots' : List Word} (h : emptySlot dev slots = some slots') :
    slots'.length = slots.length := by
  induction slots generalizing slots' with
  | nil => simp [emptySlot] at h
  | cons p slots ih =>
    rw [emptySlot] at h
    split at h
    · rw [← Option.some.inj h]
      rfl
    · obtain ⟨rest,hrest,rfl⟩ := Option.map_eq_some_iff.mp h
      rw [List.length_cons, List.length_cons, ih hrest]

def unregisterDevice (dev : Word) (s : State) : Bool × State :=
  if dev = null then (false, s)
  else match h : emptySlot dev s.devicesPtrs with
    | some slots => (true, ⟨slots, s.registeredDevices-1#32, (emptySlot_length h).trans s.sized⟩)
    | none => (false, s)

def initial : State := ⟨List.replicate maxDevices null, 0#32, List.length_replicate⟩

/-! ## What is promised of the calls -/

inductive Call where
  | register (dev : Word)
  | unregister (dev : Word)
  deriving DecidableEq, Repr

def step (s : State) : Call → Option State
  | .register dev => some (registerDevice dev s).2
  | .unregister dev => some (unregisterDevice dev s).2

def CountAgrees (s : State) : Prop := s.registeredDevices.toNat = s.devicesPtrs.countP (· ≠ null)

def Registers (s : State) (dev : Word) : Prop :=
  if dev ≠ null ∧ null ∈ s.devicesPtrs then
    (registerDevice dev s).1 = true ∧ ∃ i, s.devicesPtrs[i]? = some null ∧
      (registerDevice dev s).2.devicesPtrs = s.devicesPtrs.set i dev
  else registerDevice dev s = (false, s)

def Restores (s : State) (dev : Word) : Prop :=
  dev ∉ s.devicesPtrs → (unregisterDevice dev (registerDevice dev s).2).2 = s

def MeetsContract (s : State) : Call → Prop
  | .register dev => Registers s dev ∧ Restores s dev
  | .unregister _ => True

/-! ## Runs -/

theorem registerDevice_false (dev : Word) (s : State) : (registerDevice dev s).1 = false := by
  rw [registerDevice]
  split <;> rfl

theorem register_breaks {s : State} {dev : Word} (hdev : dev ≠ null) (hfree : null ∈ s.devicesPtrs) :
    ¬ Registers s dev := by
  rw [Registers, if_pos ⟨hdev,hfree⟩, registerDevice_false]
  simp

theorem register_null (s : State) : registerDevice null s = (false, s) := if_pos (Or.inl rfl)

theorem unregister_null (s : State) : unregisterDevice null s = (false, s) := if_pos rfl

theorem emptySlot_absent {dev : Word} {slots : List Word} (h : dev ∉ slots) : emptySlot dev slots = none := by
  induction slots with
  | nil => rfl
  | cons p slots ih =>
    rw [List.mem_cons, not_or] at h
    rw [emptySlot, if_neg (Ne.symm h.1), ih h.2]
    rfl

theorem unregister_absent {s : State} {dev : Word} (h : dev ∉ s.devicesPtrs) : unregisterDevice dev s = (false, s) := by
  rw [unregisterDevice]
  split
  · rfl
  · split
    · rename_i slots hs
      rw [emptySlot_absent h] at hs
      simp at hs
    · rfl

theorem unregister_initial (dev : Word) : unregisterDevice dev initial = (false, initial) := by
  by_cases hdev : dev = null
  · rw [hdev, unregister_null]
  · apply unregister_absent
    exact fun hm => hdev (List.eq_of_mem_replicate hm)

theorem initial_counts : CountAgrees initial := by
  have hempty : initial.devicesPtrs.countP (· ≠ null) = 0 := by
    rw [List.countP_eq_zero]
    intro p hp
    simpa using List.eq_of_mem_replicate hp
  exact hempty.symm

theorem null_meets (s : State) : MeetsContract s (.register null) := by
  constructor
  · rw [Registers, if_neg (by simp), register_null]
  · intro _
    rw [register_null, unregister_null]

theorem initial_free : null ∈ initial.devicesPtrs := List.mem_replicate.mpr ⟨by decide,rfl⟩

theorem register_initial {dev : Word} (h : dev ≠ null) :
    (registerDevice dev initial).2.devicesPtrs = List.replicate maxDevices dev ∧
      (registerDevice dev initial).2.registeredDevices = 1#32 := by
  have hfree : ¬ (dev = null ∨ initial.registeredDevices = BitVec.ofNat 32 maxDevices) :=
    not_or.mpr ⟨h,by decide⟩
  rw [registerDevice, if_neg hfree]
  exact ⟨List.map_replicate.trans (by rw [if_pos rfl]),rfl⟩

/-- All the slots hold the first device, and it is counted once. -/
theorem register_miscounts {dev : Word} (h : dev ≠ null) : ¬ CountAgrees (registerDevice dev initial).2 := by
  obtain ⟨hslots,hcount⟩ := register_initial h
  rw [CountAgrees, hslots, hcount, List.countP_replicate, if_pos (by simpa using h)]
  decide

theorem step_initial {call : Call} (h : ∀ dev, call = .register dev → dev = null) :
    step initial call = some initial ∧ MeetsContract initial call := by
  cases call with
  | register dev =>
    rw [h dev rfl]
    exact ⟨by rw [step, register_null],null_meets initial⟩
  | unregister dev => exact ⟨by rw [step, unregister_initial],trivial⟩

/-- A run from the empty table keeps the count and meets the contract of every
call precisely when it registers no device at all. -/
theorem registry_iff (calls : List Call) :
    Transition.Always step CountAgrees calls initial ∧ Transition.Guarded step MeetsContract calls initial ↔
      ∀ dev, .register dev ∈ calls → dev = null := by
  induction calls with
  | nil => exact ⟨fun _ _ hm => by simp at hm,fun _ => ⟨initial_counts,trivial⟩⟩
  | cons call calls ih =>
    constructor
    · rintro ⟨halways,hguarded⟩
      have hcall : ∀ dev, call = .register dev → dev = null := by
        rintro dev rfl
        by_contra hdev
        exact register_breaks hdev initial_free (hguarded _ rfl).1.1
      have hstep := (step_initial hcall).1
      have hrest := ih.mp ⟨halways.2 initial hstep,(hguarded initial hstep).2⟩
      intro dev hm
      rcases List.mem_cons.mp hm with he | hm
      · exact hcall dev he.symm
      · exact hrest dev hm
    · intro h
      obtain ⟨hstep,hmeets⟩ := step_initial fun dev he => h dev (he ▸ List.mem_cons_self)
      obtain ⟨halways,hguarded⟩ := ih.mpr fun dev hm => h dev (List.mem_cons_of_mem call hm)
      constructor
      · refine ⟨initial_counts,fun s' hs' => ?_⟩
        obtain rfl : initial = s' := Option.some.inj (hstep.symm.trans hs')
        exact halways
      · intro s' hs'
        obtain rfl : initial = s' := Option.some.inj (hstep.symm.trans hs')
        exact ⟨hmeets,hguarded⟩

/-- The first device fills all fifty slots, counts as one and is reported as
not registered. -/
theorem first_device_unregistered :
    ¬ Transition.Always step CountAgrees [.register 0xC0800010#32] initial ∧
      ¬ Transition.Guarded step MeetsContract [.register 0xC0800010#32] initial :=
  ⟨fun h => register_miscounts (by decide) (h.2 _ rfl),
    fun h => register_breaks (by decide) initial_free (h _ rfl).1.1⟩

end MikeOS.Devices
