import MikeOS.ExhaustionFlag

/-!
# Status codes of the frame manager

Three functions change the state of named pages and report how that went. A
report is truthful when it says `SUCCESS` for the arguments that are accepted
and for no others, and when arguments that are turned down change nothing.
-/

set_option autoImplicit false

namespace MikeOS.FrameStatus
open BitArray MikeOS.PhysicalMemory

inductive Call where
  | free (pageAddress : Word)
  | register (startAddress endAddress : Word)
  | unregister (startAddress endAddress : Word)
  deriving DecidableEq, Repr

def perform (s : PhysicalMem) : Call → ErrorCode × PhysicalMem
  | .free pageAddress => freePhysicalPage pageAddress s
  | .register startAddress endAddress => registerPhysicalPages startAddress endAddress s
  | .unregister startAddress endAddress => unregisterPhysicalPages startAddress endAddress s

def Call.Accepted : Call → Prop
  | .free p => p.toNat%4096 = 0
  | .register b e | .unregister b e => b.toNat%4096 = 0 ∧ e.toNat%4096 = 0 ∧ b ≤ e

def Call.Names (q : ℕ) : Call → Prop
  | .free p => 4096*q = p.toNat
  | .register b e | .unregister b e => b.toNat ≤ 4096*q ∧ 4096*q < e.toNat

def Call.state : Call → Bool
  | .free _ => true
  | .register _ _ => false
  | .unregister _ _ => true

structure Truthful (s : PhysicalMem) (call : Call) : Prop where
  status : (perform s call).1 = .success ↔ call.Accepted
  named : call.Accepted → ∀ q, call.Names q → bit (perform s call).2.bitmap q = call.state
  others : call.Accepted → ∀ q, ¬ call.Names q → bit (perform s call).2.bitmap q = bit s.bitmap q
  refused : ¬ call.Accepted → (perform s call).2 = s

theorem changePagesState_refused {start finish : Word} {state : PageState} {s : PhysicalMem}
    (h : ¬ (start.toNat%4096 = 0 ∧ finish.toNat%4096 = 0 ∧ start ≤ finish)) :
    changePagesState start finish state s = (.invalidArgument, s) := by
  rw [changePagesState]
  split
  · rfl
  · rename_i hal
    simp only [ne_eq, pageBoundary_eq_iff, not_or, not_not] at hal
    rw [if_pos (BitVec.not_le.mp fun hle => h ⟨hal.1,hal.2,hle⟩)]

/-- The loop over the pages never stops half way. -/
theorem changePagesState_status {start finish : Word} {state : PageState} {s : PhysicalMem} :
    (changePagesState start finish state s).1 = .success ↔
      start.toNat%4096 = 0 ∧ finish.toNat%4096 = 0 ∧ start ≤ finish := by
  constructor
  · intro hok
    by_contra hnot
    rw [changePagesState_refused hnot] at hok
    cases hok
  · rintro ⟨hb,he,hle⟩
    rw [changePagesState_eq start finish state s hb he hle]

theorem covers_iff {start finish : Word} {q : ℕ} (hb : start.toNat%4096 = 0) (he : finish.toNat%4096 = 0) :
    Covers start finish q ↔ start.toNat ≤ 4096*q ∧ 4096*q < finish.toNat := by
  unfold Covers
  omega

theorem range_truthful {s : PhysicalMem} {call : Call} {b e : Word} {state : PageState}
    (hrun : perform s call = changePagesState b e state s)
    (haccepted : call.Accepted ↔ b.toNat%4096 = 0 ∧ e.toNat%4096 = 0 ∧ b ≤ e)
    (hnames : ∀ q, call.Names q ↔ b.toNat ≤ 4096*q ∧ 4096*q < e.toNat)
    (hstate : call.state = decide (state = .available)) : Truthful s call := by
  have hbits : call.Accepted → ∀ q, bit (perform s call).2.bitmap q =
      if b.toNat ≤ 4096*q ∧ 4096*q < e.toNat then decide (state = .available) else bit s.bitmap q := by
    intro hacc q
    obtain ⟨hb,he,-⟩ := haccepted.mp hacc
    rw [hrun, bit_changePagesState]
    exact if_congr (covers_iff hb he) rfl rfl
  refine ⟨?_,fun hacc q hq => ?_,fun hacc q hq => ?_,fun hacc => ?_⟩
  · rw [hrun, haccepted]
    exact changePagesState_status
  · rw [hbits hacc, if_pos ((hnames q).mp hq), hstate]
  · rw [hbits hacc, if_neg (mt (hnames q).mpr hq)]
  · rw [hrun, changePagesState_refused (mt haccepted.mpr hacc)]

theorem register_truthful (s : PhysicalMem) (b e : Word) : Truthful s (.register b e) :=
  range_truthful rfl Iff.rfl (fun _ => Iff.rfl) rfl

theorem unregister_truthful (s : PhysicalMem) (b e : Word) : Truthful s (.unregister b e) :=
  range_truthful rfl Iff.rfl (fun _ => Iff.rfl) rfl

/-- Whatever the address, the report is the opposite of what happened. -/
theorem free_status (s : PhysicalMem) (p : Word) :
    (freePhysicalPage p s).1 = .success ↔ p.toNat%4096 ≠ 0 := by
  by_cases hp : p.toNat%4096 = 0
  · rw [freePhysicalPage_aligned p s hp]
    simp [hp]
  · rw [freePhysicalPage_unaligned p s hp]
    simp [hp]

theorem free_not_truthful (s : PhysicalMem) (p : Word) : ¬ Truthful s (.free p) := by
  intro h
  have hstatus := h.status
  rw [perform, free_status, Call.Accepted] at hstatus
  omega

/-- The reports of two of the three functions can be believed. -/
theorem truthful_iff (s : PhysicalMem) (call : Call) : Truthful s call ↔ ∀ p, call ≠ .free p := by
  cases call with
  | free p => exact ⟨fun h => absurd h (free_not_truthful s p),fun h => absurd rfl (h p)⟩
  | register b e => exact iff_of_true (register_truthful s b e) (by simp)
  | unregister b e => exact iff_of_true (unregister_truthful s b e) (by simp)

theorem freed_page_reported_as_failure :
    (freePhysicalPage 0x1000#32 PhysicalMem.boot).1 = .failure ∧
      ¬ Truthful PhysicalMem.boot (.free 0x1000#32) := by
  refine ⟨by rw [freePhysicalPage_aligned _ _ (by decide)],fun h => ?_⟩
  have hcode := h.status.mpr (show (0x1000#32).toNat%4096 = 0 by decide)
  rw [perform, freePhysicalPage_aligned _ _ (by decide)] at hcode
  cases hcode

end MikeOS.FrameStatus
