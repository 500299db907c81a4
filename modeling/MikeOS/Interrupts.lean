import MikeOS.Descriptors
import MikeOS.Library.InterruptController
import MikeOS.Library.Simulation

/-!
# Interrupt lines, their gates and their handlers

Two controllers, the second on line 2 of the first. A line that goes through
comes as the vector of its controller, the gate of that vector tells the stub,
and the stub's number selects the handler and the controller that is told the
end of the interrupt.
-/

set_option autoImplicit false

namespace MikeOS.Interrupts
open InterruptController
open MikeOS.Descriptors (Tables Gate Call Slot entryAt decodeGate)

structure State where
  master : Chip
  slave : Chip
  handlers : Fin 16 → Word
  /-- The handlers that ran, the last one first. -/
  called : List Word

/-! ## Ports -/

def pic1Ctrl : BitVec 16 := 0x20#16
def pic2Ctrl : BitVec 16 := 0xA0#16
def pic1Data : BitVec 16 := 0x21#16
def pic2Data : BitVec 16 := 0xA1#16
def picAck : Byte := 0x20#8

def writePort (port : BitVec 16) (value : Byte) (s : State) : State :=
  if port = pic1Ctrl then { s with master := s.master.command value }
  else if port = pic1Data then { s with master := s.master.data value }
  else if port = pic2Ctrl then { s with slave := s.slave.command value }
  else if port = pic2Data then { s with slave := s.slave.data value }
  else s

def writePorts : List (BitVec 16 × Byte) → State → State
  | [], s => s
  | (port, value)::writes, s => writePorts writes (writePort port value s)

def initializePic : State → State :=
  writePorts [(pic1Ctrl, 0x11#8), (pic2Ctrl, 0x11#8), (pic1Data, 0x20#8), (pic2Data, 0x28#8), (0x21#16, 0x4#8),
    (0xA1#16, 0x2#8), (pic1Data, 0x00#8), (pic2Data, 0x00#8), (pic1Data, 0x01#8), (pic2Data, 0x01#8),
    (0x21#16, 0xff#8), (0xA1#16, 0xff#8)]

/-! ## irq.c -/

def kernelCodeSegment : BitVec 16 := 0x08#16
def idtPresent : Byte := 1#8 <<< 7
def idtRing0 : Byte := 0#8
def idtRing3 : Byte := 3#8 <<< 5
def idtInterruptGate : Byte := 0x0e#8

def irqGates : List (Byte × Fin 16) :=
  [(32#8, 0), (33#8, 1), (34#8, 2), (35#8, 3), (36#8, 4), (37#8, 5), (38#8, 6), (39#8, 7), (0x70#8, 8), (0x71#8, 9),
    (0x72#8, 10), (0x73#8, 11), (0x74#8, 12), (0x75#8, 13), (0x76#8, 14), (0x77#8, 15)]

def irqCall (stub : Fin 16 → Word) (g : Byte × Fin 16) : Call :=
  .loadIdtEntry g.1 (stub g.2) kernelCodeSegment (idtPresent ||| idtRing0 ||| idtInterruptGate)

def irqInit (t : Tables) (stub : Fin 16 → Word) (ram : Ram) : Ram :=
  Descriptors.run t (irqGates.map (irqCall stub)) ram

def systemCallsInit (t : Tables) (interrupt80 : Word) (ram : Ram) : Ram :=
  Descriptors.loadIdtEntry t 0x80#8 interrupt80 kernelCodeSegment (idtPresent ||| idtRing3 ||| idtInterruptGate) ram

def irqAck (irqNumber : Fin 16) (s : State) : State :=
  if 8 ≤ irqNumber.val then writePort pic2Ctrl picAck s else writePort pic1Ctrl picAck s

def defaultIrqHandler (irqNumber : Fin 16) (s : State) : State :=
  let s := if s.handlers irqNumber ≠ null then { s with called := s.handlers irqNumber::s.called } else s
  irqAck irqNumber s

def registerIrq (irqHandler index : Word) (s : State) : ErrorCode × State :=
  if h : irqHandler = null ∨ 15 < index.toNat then (.invalidArgument, s)
  else (.success, { s with handlers := Function.update s.handlers ⟨index.toNat, by omega⟩ irqHandler })

def unregisterIrq (irqHandler index : Word) (s : State) : ErrorCode × State :=
  if h : irqHandler = null ∨ 15 < index.toNat then (.invalidArgument, s)
  else (.success, { s with handlers := Function.update s.handlers ⟨index.toNat, by omega⟩ null })

def keyboardInit (keyboardIrq : Word) (s : State) : State :=
  writePort pic1Data 0xFD#8 (registerIrq keyboardIrq 1#32 s).2

/-! ## The processor and the lines -/

theorem one_lt_eight : 1 < 8 := by decide
theorem two_lt_eight : 2 < 8 := by decide

def keyboardLine : Fin 8 := ⟨1, one_lt_eight⟩

def slaveLine : Fin 8 := ⟨2, two_lt_eight⟩

def pending (s : State) : Option (Fin 16) :=
  let slave := s.slave.next s.slave.requested
  match s.master.next fun i => if i = slaveLine then slave.isSome else s.master.requested i with
  | none => none
  | some i => if i = slaveLine then slave.map fun j => ⟨8+j.val, by omega⟩ else some ⟨i.val, by omega⟩

def inChip (line : Fin 16) : Fin 8 := ⟨line.val%8, by omega⟩

def accept (line : Fin 16) (s : State) : State :=
  if line.val < 8 then { s with master := s.master.accept (inChip line) }
  else { s with master := s.master.accept slaveLine, slave := s.slave.accept (inChip line) }

/-- `initialize_pic` leaves mode words of zero, which an 8086 is not meant to work
with; they are assumed to have no bearing on the vector. -/
def vectorOf (s : State) (line : Fin 16) : Byte :=
  (if line.val < 8 then s.master.base else s.slave.base)+BitVec.ofNat 8 (inChip line).val

/-- The stub behind a vector, where there is a gate. -/
def stubOf (vector : Byte) : Option (Fin 16) := irqGates.lookup vector

inductive Sys where
  | running (s : State)
  | noGate

def deliver (s : State) : Option Sys :=
  match pending s with
  | none => none
  | some line =>
    match stubOf (vectorOf s line) with
    | none => some .noGate
    | some stub => some (.running (defaultIrqHandler stub (accept line s)))

def raise (line : Fin 16) (s : State) : State :=
  if line.val < 8 then { s with master := s.master.request (inChip line) }
  else { s with slave := s.slave.request (inChip line) }

inductive Op where
  | raise (line : Fin 16)
  | deliver
  | registerIrq (irqHandler index : Word)
  | unregisterIrq (irqHandler index : Word)
  | mask (value : Byte)
  | maskSlave (value : Byte)
  deriving DecidableEq, Repr

def step : Sys → Op → Option Sys
  | .noGate, _ => none
  | .running s, .raise line => some (.running (raise line s))
  | .running s, .deliver => deliver s
  | .running s, .registerIrq irqHandler index => some (.running (registerIrq irqHandler index s).2)
  | .running s, .unregisterIrq irqHandler index => some (.running (unregisterIrq irqHandler index s).2)
  | .running s, .mask value => some (.running (writePort pic1Data value s))
  | .running s, .maskSlave value => some (.running (writePort pic2Data value s))

def Clear : Sys → Prop
  | .noGate => False
  | .running s => s.master.Idle ∧ s.slave.Idle

def MasterOnly : Sys → Op → Prop
  | .running s, .deliver => ∀ line, pending s = some line → line.val < 8
  | _, _ => True

structure Ready (s : State) : Prop where
  master : s.master.Idle
  slave : s.slave.Idle
  masks : s.master.expects = .mask ∧ s.slave.expects = .mask
  base : s.master.base = 0x20#8

def Inv : Sys → Prop
  | .noGate => False
  | .running s => Ready s

section
variable {s : State} {line : Fin 16}

theorem pending_cases (h : pending s = some line) :
    line.val < 8 ∧ inChip line ≠ slaveLine ∧ s.master.requested (inChip line) = true ∧
        s.master.masked.getLsbD (inChip line).val = false ∨
      8 ≤ line.val ∧ s.master.masked.getLsbD 2 = false ∧
        s.slave.masked.getLsbD (inChip line).val = false := by
  rw [pending] at h
  cases hm : s.master.next fun i =>
    if i = slaveLine then (s.slave.next s.slave.requested).isSome else s.master.requested i with
  | none => simp [hm] at h
  | some i =>
    obtain ⟨hreq,hmask,-⟩ := Chip.next_some hm
    simp only [hm] at h
    split at h
    · rename_i hi
      obtain ⟨j,hj,hline⟩ := Option.map_eq_some_iff.mp h
      obtain ⟨-,hslave,-⟩ := Chip.next_some hj
      have hin : inChip line = j := by rw [← hline]; apply Fin.ext; simp only [inChip]; omega
      exact Or.inr ⟨by rw [← hline]; simp,by rwa [hi] at hmask,by rwa [hin]⟩
    · rename_i hi
      have hline := Option.some.inj h
      have hin : inChip line = i := by rw [← hline]; apply Fin.ext; simp only [inChip]; omega
      rw [if_neg hi] at hreq
      exact Or.inl ⟨by rw [← hline]; exact i.isLt,hin ▸ hi,hin ▸ hreq,hin ▸ hmask⟩

theorem command_ack (c : Chip) : c.command picAck = c.endOfInterrupt := by
  rw [Chip.command, if_neg (by decide), if_pos (by decide)]

theorem stub_of_master : ∀ i : Fin 8, stubOf (0x20#8+BitVec.ofNat 8 i.val) = some ⟨i.val, by omega⟩ := by decide

theorem handler_chips (stub : Fin 16) (s : State) :
    (defaultIrqHandler stub s).master = (if 8 ≤ stub.val then s.master else s.master.endOfInterrupt) ∧
      (defaultIrqHandler stub s).slave = if 8 ≤ stub.val then s.slave.endOfInterrupt else s.slave := by
  have hack : ∀ s : State, (irqAck stub s).master = (if 8 ≤ stub.val then s.master else s.master.endOfInterrupt) ∧
      (irqAck stub s).slave = if 8 ≤ stub.val then s.slave.endOfInterrupt else s.slave := fun s => by
    rw [irqAck]
    split
    · exact ⟨rfl,command_ack _⟩
    · exact ⟨command_ack _,rfl⟩
  rw [defaultIrqHandler]
  split
  · exact hack _
  · exact hack s

theorem endOfInterrupt_rest (c : Chip) : c.endOfInterrupt.expects = c.expects ∧ c.endOfInterrupt.base = c.base ∧
    c.endOfInterrupt.masked = c.masked ∧ c.endOfInterrupt.requested = c.requested := by
  rw [Chip.endOfInterrupt]
  split
  · exact ⟨rfl,rfl,rfl,rfl⟩
  · exact ⟨rfl,rfl,rfl,rfl⟩

theorem handler_calls (stub : Fin 16) (s : State) : (defaultIrqHandler stub s).handlers = s.handlers ∧
    (defaultIrqHandler stub s).called = if s.handlers stub ≠ null then s.handlers stub::s.called else s.called := by
  have hack : ∀ s : State, (irqAck stub s).handlers = s.handlers ∧ (irqAck stub s).called = s.called := fun s => by
    rw [irqAck]
    split <;> exact ⟨rfl,rfl⟩
  rw [defaultIrqHandler]
  split
  · exact hack _
  · exact hack s

/-- A line of the master is handled and its end is told. -/
theorem deliver_master (h : Ready s) (hp : pending s = some line) (hlt : line.val < 8) :
    ∃ s', deliver s = some (.running s') ∧ Ready s' ∧ s'.master.masked = s.master.masked ∧ s'.slave = s.slave ∧
      s'.master.requested = Function.update s.master.requested (inChip line) false ∧ s'.handlers = s.handlers ∧
      s'.called = if s.handlers line ≠ null then s.handlers line::s.called else s.called := by
  have hin : inChip line = ⟨line.val,hlt⟩ := Fin.ext (Nat.mod_eq_of_lt hlt)
  have hstub : stubOf (vectorOf s line) = some line := by
    rw [vectorOf, if_pos hlt, h.base, hin]
    exact stub_of_master ⟨line.val,hlt⟩
  have haccept : accept line s = { s with master := s.master.accept (inChip line) } := if_pos hlt
  obtain ⟨hmaster,hslave⟩ := handler_chips line (accept line s)
  rw [if_neg (by omega), haccept] at hmaster hslave
  obtain ⟨hexpects,hbase,hmasked,hrequested⟩ := endOfInterrupt_rest (s.master.accept (inChip line))
  obtain ⟨hhandlers,hcalled⟩ := handler_calls line (accept line s)
  rw [haccept] at hhandlers hcalled
  refine ⟨defaultIrqHandler line (accept line s),?_,⟨?_,?_,?_,?_⟩,?_,?_,?_,?_,?_⟩
  · rw [deliver, hp]
    simp only [hstub]
  · rw [haccept, hmaster]
    exact Chip.end_idle h.master _
  · rw [haccept, hslave]
    exact h.slave
  · rw [haccept, hmaster, hslave]
    exact ⟨hexpects.trans h.masks.1,h.masks.2⟩
  · rw [haccept, hmaster]
    exact hbase.trans h.base
  · rw [haccept, hmaster]
    exact hmasked
  · rw [haccept, hslave]
  · rw [haccept, hmaster]
    exact hrequested
  · rw [haccept, hhandlers]
  · rw [haccept, hcalled]

/-- A line of the slave has no gate, or one of the two controllers is never told. -/
theorem deliver_slave (hp : pending s = some line) (hge : 8 ≤ line.val) {t : Sys} (ht : deliver s = some t) :
    ¬ Clear t := by
  rw [deliver, hp] at ht
  dsimp only at ht
  split at ht
  · cases ht
    exact id
  · rename_i stub hstub
    cases ht
    obtain ⟨hmaster,hslave⟩ := handler_chips stub (accept line s)
    have haccept : accept line s = { s with master := s.master.accept slaveLine, slave := s.slave.accept (inChip line) } :=
      if_neg (by omega)
    rw [haccept] at hmaster hslave
    rintro ⟨hm,hs⟩
    rw [haccept] at hm hs
    by_cases h8 : 8 ≤ stub.val
    · have h2 : (s.master.accept slaveLine).inService slaveLine = false := by
        have h2 := hm slaveLine
        rwa [hmaster, if_pos h8] at h2
      rw [Chip.accept_self] at h2
      cases h2
    · have hj : (s.slave.accept (inChip line)).inService (inChip line) = false := by
        have hj := hs (inChip line)
        rwa [hslave, if_neg h8] at hj
      rw [Chip.accept_self] at hj
      cases hj

theorem registered_chips (irqHandler index : Word) (s : State) :
    ((registerIrq irqHandler index s).2.master = s.master ∧ (registerIrq irqHandler index s).2.slave = s.slave) ∧
      (unregisterIrq irqHandler index s).2.master = s.master ∧
      (unregisterIrq irqHandler index s).2.slave = s.slave := by
  rw [registerIrq, unregisterIrq]
  split <;> exact ⟨⟨rfl,rfl⟩,rfl,rfl⟩

theorem ready_of_chips {s' : State} (h : Ready s) (hm : s'.master = s.master) (hs : s'.slave = s.slave) : Ready s' :=
  ⟨hm ▸ h.master,hs ▸ h.slave,hm ▸ hs ▸ h.masks,hm ▸ h.base⟩

theorem data_mask {c : Chip} (h : c.expects = .mask) (value : Byte) : c.data value = { c with masked := value } := by
  rw [Chip.data, h]

theorem raise_ready (h : Ready s) (line : Fin 16) : Ready (raise line s) := by
  rw [raise]
  split
  · exact ⟨h.master,h.slave,h.masks,h.base⟩
  · exact ⟨h.master,h.slave,h.masks,h.base⟩

theorem mask_ready (h : Ready s) (value : Byte) : Ready (writePort pic1Data value s) := by
  have hwrite : writePort pic1Data value s = { s with master := { s.master with masked := value } } := by
    rw [← data_mask h.masks.1]
    rfl
  rw [hwrite]
  exact ⟨h.master,h.slave,h.masks,h.base⟩

theorem maskSlave_ready (h : Ready s) (value : Byte) : Ready (writePort pic2Data value s) := by
  have hwrite : writePort pic2Data value s = { s with slave := { s.slave with masked := value } } := by
    rw [← data_mask h.masks.2]
    rfl
  rw [hwrite]
  exact ⟨h.master,h.slave,h.masks,h.base⟩

end

theorem step_inv (s : Sys) (op : Op) (t : Sys) (h : Inv s) (hg : MasterOnly s op) (hs : step s op = some t) :
    Inv t := by
  cases s with
  | noGate => exact h.elim
  | running s =>
    cases op with
    | raise line =>
      cases hs
      exact raise_ready h line
    | deliver =>
      cases hp : pending s with
      | none =>
        rw [step, deliver, hp] at hs
        cases hs
      | some line =>
        obtain ⟨s',hs',hready,-⟩ := deliver_master h hp (hg line hp)
        rw [step, hs', Option.some.injEq] at hs
        exact hs ▸ hready
    | registerIrq irqHandler index =>
      cases hs
      obtain ⟨⟨hm,hsl⟩,-⟩ := registered_chips irqHandler index s
      exact ready_of_chips h hm hsl
    | unregisterIrq irqHandler index =>
      cases hs
      obtain ⟨-,hm,hsl⟩ := registered_chips irqHandler index s
      exact ready_of_chips h hm hsl
    | mask value =>
      cases hs
      exact mask_ready h value
    | maskSlave value =>
      cases hs
      exact maskSlave_ready h value

theorem step_not_clear (s : Sys) (op : Op) (t : Sys) (hg : ¬ MasterOnly s op) (hs : step s op = some t) : ¬ Clear t := by
  cases s with
  | noGate => cases hs
  | running s =>
    cases op with
    | deliver =>
      simp only [MasterOnly, not_forall] at hg
      obtain ⟨line,hp,hge⟩ := hg
      exact deliver_slave hp (by omega) hs
    | _ => exact absurd trivial hg

theorem clear_of_inv (s : Sys) (h : Inv s) : Clear s := by
  cases s with
  | noGate => exact h
  | running s => exact ⟨h.master,h.slave⟩

/-- Whatever masks are set and wherever the vectors of the slave begin, a run
leaves nothing in service in any of its states exactly when no line of the slave
is ever delivered. -/
theorem service_ends_iff (s : State) (h : Ready s) (ops : List Op) :
    Transition.Always step Clear ops (.running s) ↔ Transition.Guarded step MasterOnly ops (.running s) :=
  Transition.always_iff_guarded Inv clear_of_inv step_inv (fun s op t _ hg hs => step_not_clear s op t hg hs) ops h

def programmed (base cascade : Byte) : Chip where
  requested := fun _ => false
  inService := fun _ => false
  masked := 0xFF#8
  base := base
  cascade := cascade
  mode := 0#8
  expects := .mask
  single := false
  needsMode := true

def idleState : State := ⟨programmed 0x20#8 0x4#8, programmed 0x28#8 0x2#8, fun _ => null, []⟩

theorem idle_ready : Ready idleState := ⟨fun _ => rfl,fun _ => rfl,⟨rfl,rfl⟩,rfl⟩

theorem disk_line_not_ended : ¬ Transition.Always step Clear
    [.mask 0xFB#8, .maskSlave 0xBF#8, .raise 14, .deliver] (.running idleState) := by
  rw [service_ends_iff idleState idle_ready]
  intro h
  obtain ⟨hline,-⟩ := (((h _ rfl).2 _ rfl).2 _ rfl).2 .noGate rfl
  exact absurd (hline 14 rfl) (by decide)

/-! ## The lines as the kernel leaves them

With the masks of the kernel the machine is one latch for the keyboard.
-/

structure Latch where
  pressed : Bool
  handlers : Fin 16 → Word
  called : List Word

def entered (irqHandler index value : Word) (handlers : Fin 16 → Word) : Fin 16 → Word :=
  if h : irqHandler = null ∨ 15 < index.toNat then handlers
  else Function.update handlers ⟨index.toNat, by omega⟩ value

def latchStep (l : Latch) : Op → Option Latch
  | .raise line => some { l with pressed := l.pressed || decide (line = 1) }
  | .deliver =>
    if l.pressed then
      some { l with pressed := false, called := if l.handlers 1 ≠ null then l.handlers 1::l.called else l.called }
    else none
  | .registerIrq irqHandler index => some { l with handlers := entered irqHandler index irqHandler l.handlers }
  | .unregisterIrq irqHandler index => some { l with handlers := entered irqHandler index null l.handlers }
  | .mask _ => some l
  | .maskSlave _ => some l

def view : Sys → Latch
  | .running s => ⟨s.master.requested keyboardLine, s.handlers, s.called⟩
  | .noGate => ⟨false, fun _ => null, []⟩

def KeepsMasks : Op → Prop
  | .mask _ => False
  | .maskSlave _ => False
  | _ => True

instance (op : Op) : Decidable (KeepsMasks op) := by
  cases op <;> unfold KeepsMasks <;> infer_instance

def booted (keyboardIrq : Word) (s : State) : State := keyboardInit keyboardIrq (initializePic s)

structure KeyboardOnly (s : State) : Prop where
  ready : Ready s
  masked : s.master.masked = 0xFD#8
  maskedSlave : s.slave.masked = 0xFF#8

def KeyboardInv : Sys → Prop
  | .noGate => False
  | .running s => KeyboardOnly s

theorem initializePic_eq (s : State) :
    initializePic s = { s with master := programmed 0x20#8 0x4#8, slave := programmed 0x28#8 0x2#8 } := rfl

theorem booted_eq (keyboardIrq : Word) (s : State) : ∃ handlers, booted keyboardIrq s =
    ⟨{ programmed 0x20#8 0x4#8 with masked := 0xFD#8 }, programmed 0x28#8 0x2#8, handlers, s.called⟩ := by
  rw [booted, keyboardInit, initializePic_eq, registerIrq]
  split
  · exact ⟨_,rfl⟩
  · exact ⟨_,rfl⟩

theorem booted_inv (keyboardIrq : Word) (s : State) : KeyboardOnly (booted keyboardIrq s) := by
  obtain ⟨handlers,hbooted⟩ := booted_eq keyboardIrq s
  rw [hbooted]
  exact ⟨⟨fun _ => rfl,fun _ => rfl,⟨rfl,rfl⟩,rfl⟩,rfl,rfl⟩

section
variable {s : State} {line : Fin 16}

theorem pending_keyboard (h : KeyboardOnly s) :
    pending s = some line ↔ line = 1 ∧ s.master.requested keyboardLine = true := by
  have hopen : ∀ i : Fin 8, (0xFD#8).getLsbD i.val = false → i = keyboardLine := by decide
  have hforward : ∀ line, pending s = some line → line = 1 ∧ s.master.requested keyboardLine = true := fun line hp => by
    rcases pending_cases hp with ⟨hlt,-,hreq,hmask⟩ | ⟨-,hmask,-⟩
    · rw [h.masked] at hmask
      have hin := hopen _ hmask
      have hval : line.val%8 = 1 := congrArg Fin.val hin
      exact ⟨Fin.ext (by change line.val = 1; omega),hin ▸ hreq⟩
    · rw [h.masked] at hmask
      cases hmask
  refine ⟨hforward line,?_⟩
  rintro ⟨rfl,hreq⟩
  have hnext : (s.master.next fun i => if i = slaveLine then (s.slave.next s.slave.requested).isSome
      else s.master.requested i).isSome = true :=
    Chip.next_isSome h.ready.master (i := keyboardLine) hreq (by rw [h.masked]; rfl)
  obtain ⟨i,hi⟩ := Option.isSome_iff_exists.mp hnext
  have hne : i ≠ slaveLine := fun he => by
    have hmask := (Chip.next_some hi).2.1
    rw [h.masked, he] at hmask
    cases hmask
  have hp : pending s = some ⟨i.val, by omega⟩ := by
    rw [pending]
    simp only [hi, if_neg hne]
  rw [hp, Option.some.injEq]
  exact (hforward _ hp).1

/-- The one line that goes through is handled, and its request is gone. -/
theorem deliver_keyboard (h : KeyboardOnly s) (hreq : s.master.requested keyboardLine = true) :
    ∃ s', deliver s = some (.running s') ∧ KeyboardOnly s' ∧
      view (.running s') = ⟨false, s.handlers, if s.handlers 1 ≠ null then s.handlers 1::s.called else s.called⟩ := by
  have hp : pending s = some 1 := (pending_keyboard h).mpr ⟨rfl,hreq⟩
  obtain ⟨s',hs',hready,hmasked,hslave,hrequested,hhandlers,hcalled⟩ := deliver_master h.ready hp (by decide)
  refine ⟨s',hs',⟨hready,hmasked.trans h.masked,by rw [hslave]; exact h.maskedSlave⟩,?_⟩
  have hgone : s'.master.requested keyboardLine = false := by
    rw [hrequested]
    exact Function.update_self ..
  rw [view, hgone, hhandlers, hcalled]

theorem keyboard_of_chips {s' : State} (h : KeyboardOnly s) (hm : s'.master = s.master) (hs : s'.slave = s.slave) :
    KeyboardOnly s' :=
  ⟨ready_of_chips h.ready hm hs,hm ▸ h.masked,hs ▸ h.maskedSlave⟩

theorem raise_keyboard (h : KeyboardOnly s) (line : Fin 16) : KeyboardOnly (raise line s) := by
  refine ⟨raise_ready h.ready line,?_,?_⟩
  · rw [raise]
    split <;> exact h.masked
  · rw [raise]
    split <;> exact h.maskedSlave

theorem raise_view (line : Fin 16) (s : State) : view (.running (raise line s)) =
    { view (.running s) with pressed := (view (.running s)).pressed || decide (line = 1) } := by
  rw [raise]
  split
  · have hreq : Function.update s.master.requested (inChip line) true keyboardLine =
        (s.master.requested keyboardLine || decide (line = 1)) := by
      by_cases hline : line = 1
      · rw [decide_eq_true hline, Bool.or_true, hline]
        exact Function.update_self keyboardLine true s.master.requested
      · have hne : keyboardLine ≠ inChip line := fun he => by
          have hval : 1 = line.val%8 := congrArg Fin.val he
          exact hline (Fin.ext (by change line.val = 1; omega))
        rw [decide_eq_false hline, Bool.or_false]
        exact Function.update_of_ne hne _ _
    exact congrArg (fun b => Latch.mk b s.handlers s.called) hreq
  · rename_i hge
    have hne : line ≠ 1 := fun he => hge (by rw [he]; decide)
    rw [decide_eq_false hne, Bool.or_false]
    rfl

theorem registered_handlers (irqHandler index : Word) (s : State) :
    (registerIrq irqHandler index s).2 = { s with handlers := entered irqHandler index irqHandler s.handlers } ∧
      (unregisterIrq irqHandler index s).2 = { s with handlers := entered irqHandler index null s.handlers } := by
  rw [registerIrq, unregisterIrq, entered, entered]
  split <;> exact ⟨rfl,rfl⟩

end

theorem keyboard_inv_step (s : Sys) (op : Op) (t : Sys) (h : KeyboardInv s) (hop : KeepsMasks op)
    (hs : step s op = some t) : KeyboardInv t := by
  cases s with
  | noGate => exact h.elim
  | running s =>
    cases op with
    | raise line =>
      cases hs
      exact raise_keyboard h line
    | deliver =>
      cases hp : pending s with
      | none =>
        rw [step, deliver, hp] at hs
        cases hs
      | some line =>
        obtain ⟨s',hs',hk,-⟩ := deliver_keyboard h ((pending_keyboard h).mp hp).2
        rw [step, hs', Option.some.injEq] at hs
        exact hs ▸ hk
    | registerIrq irqHandler index =>
      cases hs
      obtain ⟨⟨hm,hsl⟩,-⟩ := registered_chips irqHandler index s
      exact keyboard_of_chips h hm hsl
    | unregisterIrq irqHandler index =>
      cases hs
      obtain ⟨-,hm,hsl⟩ := registered_chips irqHandler index s
      exact keyboard_of_chips h hm hsl
    | mask value => exact hop.elim
    | maskSlave value => exact hop.elim

theorem latch_step (s : State) (op : Op) (h : KeyboardOnly s) (hop : KeepsMasks op) :
    latchStep (view (.running s)) op = (step (.running s) op).map view := by
  cases op with
  | raise line => exact congrArg some (raise_view line s).symm
  | deliver =>
    rw [latchStep, step]
    cases hreq : s.master.requested keyboardLine with
    | true =>
      obtain ⟨s',hs',-,hview⟩ := deliver_keyboard h hreq
      rw [hs', Option.map_some, hview]
      exact if_pos hreq
    | false =>
      have hp : pending s = none := by
        cases hp : pending s with
        | none => rfl
        | some line =>
          rw [((pending_keyboard h).mp hp).2] at hreq
          cases hreq
      rw [deliver, hp]
      exact if_neg (by rw [view, hreq]; simp)
  | registerIrq irqHandler index =>
    rw [step, (registered_handlers irqHandler index s).1]
    rfl
  | unregisterIrq irqHandler index =>
    rw [step, (registered_handlers irqHandler index s).2]
    rfl
  | mask value => exact hop.elim
  | maskSlave value => exact hop.elim

/-- Every step of the controllers, the gates and the handlers is one of the latch. -/
theorem keyboard_refines : Simulation.Refines step latchStep view KeyboardInv (fun _ => KeepsMasks) where
  inv := keyboard_inv_step
  same s op h hop := by
    cases s with
    | noGate => exact h.elim
    | running s => exact latch_step s op h hop

theorem clear_of_keyboard (s : Sys) (h : KeyboardInv s) : Clear s := by
  cases s with
  | noGate => exact h
  | running s => exact ⟨h.ready.master,h.ready.slave⟩

/-- From any controllers: once the kernel has programmed and masked them, a run of
requests on all lines, deliveries and changes of handlers is a run of one latch.
A delivery calls the handler that line 1 has at that time, and nothing is left in
service in between. -/
theorem keyboard_latch (keyboardIrq : Word) (s : State) (ops : List Op) (hops : ∀ op ∈ ops, KeepsMasks op) :
    Transition.Always step Clear ops (.running (booted keyboardIrq s)) ∧
    Transition.run latchStep ops ⟨false, entered keyboardIrq 1#32 keyboardIrq s.handlers, s.called⟩ =
      (Transition.run step ops (.running (booted keyboardIrq s))).map view := by
  have hinv : KeyboardInv (.running (booted keyboardIrq s)) := booted_inv keyboardIrq s
  have hmet : Transition.Met step (fun _ => KeepsMasks) ops (.running (booted keyboardIrq s)) :=
    Transition.met_of_forall hops _
  refine ⟨keyboard_refines.always clear_of_keyboard hmet hinv,?_⟩
  rw [← keyboard_refines.run hmet hinv, booted, keyboardInit, (registered_handlers keyboardIrq 1#32 _).1,
    initializePic_eq]
  rfl

theorem one_key_latched : Transition.run latchStep [.raise 1, .raise 14, .deliver, .registerIrq 0xC0105000#32 1#32,
      .raise 1, .deliver] ⟨false, entered 0xC0104000#32 1#32 0xC0104000#32 fun _ => null, []⟩ =
    (Transition.run step [.raise 1, .raise 14, .deliver, .registerIrq 0xC0105000#32 1#32, .raise 1, .deliver]
      (.running (booted 0xC0104000#32 idleState))).map view :=
  (keyboard_latch 0xC0104000#32 idleState _ (by decide)).2

/-! ## Vectors and gates -/

section
variable (t : Tables) (stub : Fin 16 → Word) (interrupt80 : Word) (ram : Ram)

def gateCalls : List Call := irqGates.map (irqCall stub) ++
  [.loadIdtEntry 0x80#8 interrupt80 kernelCodeSegment (idtPresent ||| idtRing3 ||| idtInterruptGate)]

def loadedEntry (v : Byte) : Descriptors.Raw :=
  entryAt (systemCallsInit t interrupt80 (irqInit t stub ram)) (t.entry (.idt v))

theorem loadedEntry_eq (v : Byte) : loadedEntry t stub interrupt80 ram v =
    entryAt (Descriptors.run t (gateCalls stub interrupt80) ram) (t.entry (.idt v)) := by
  rw [loadedEntry, gateCalls, Descriptors.run, List.foldl_append]
  rfl

theorem idt_valid (v : Byte) : (Slot.idt v).Valid := v.isLt

theorem gateCalls_valid : ∀ c ∈ gateCalls stub interrupt80, c.slot.Valid := by
  intro c hc
  rcases List.mem_append.mp hc with hc | hc
  · obtain ⟨g,-,rfl⟩ := List.mem_map.mp hc
    exact idt_valid g.1
  · rw [List.mem_singleton.mp hc]
    exact idt_valid _

theorem call_last {t : Tables} {before after : List Call} {v : Byte} {base : Word} {selector : BitVec 16} {flags : Byte}
    (hvalid : ∀ d ∈ before ++ Call.loadIdtEntry v base selector flags::after, d.slot.Valid)
    (hlast : ∀ d ∈ after, d.slot ≠ .idt v) (ram : Ram) :
    decodeGate (entryAt (Descriptors.run t (before ++ .loadIdtEntry v base selector flags::after) ram)
      (t.entry (.idt v))) = ⟨base,selector,flags⟩ := by
  have hread := Slots.run_last (Descriptors.writes t) hvalid hlast ram
  exact (congrArg decodeGate hread).trans (Descriptors.decodeGate_idtBytes base selector flags)

theorem call_other {t : Tables} {calls : List Call} {v : Byte} (hvalid : ∀ d ∈ calls, d.slot.Valid)
    (hother : ∀ d ∈ calls, d.slot ≠ .idt v) (ram : Ram) :
    entryAt (Descriptors.run t calls ram) (t.entry (.idt v)) = entryAt ram (t.entry (.idt v)) :=
  Slots.run_untouched (Descriptors.writes t) hvalid (k := .idt v) (idt_valid v) hother ram

theorem gate_loaded {v : Byte} {line : Fin 16} (hg : (v, line) ∈ irqGates) :
    decodeGate (loadedEntry t stub interrupt80 ram v) = ⟨stub line, 8#16, 0x8E#8⟩ := by
  obtain ⟨before,after,hsplit⟩ := List.append_of_mem hg
  have hnodup : (irqGates.map Prod.fst).Nodup := by decide
  have hnot : 0x80#8 ∉ irqGates.map Prod.fst := by decide
  have hcalls : gateCalls stub interrupt80 = before.map (irqCall stub) ++ irqCall stub (v, line)::
      (after.map (irqCall stub) ++
        [.loadIdtEntry 0x80#8 interrupt80 kernelCodeSegment (idtPresent ||| idtRing3 ||| idtInterruptGate)]) := by
    rw [gateCalls, hsplit, List.map_append, List.map_cons, List.append_assoc, List.cons_append]
  have hvalid := gateCalls_valid stub interrupt80
  rw [hcalls] at hvalid
  rw [loadedEntry_eq, hcalls]
  refine call_last hvalid (fun d hd he => ?_) ram
  rw [hsplit, List.map_append, List.map_cons] at hnodup
  rcases List.mem_append.mp hd with hd | hd
  · obtain ⟨g,hg',rfl⟩ := List.mem_map.mp hd
    exact (List.nodup_cons.mp (List.nodup_append.mp hnodup).2.1).1 (List.mem_map.mpr ⟨g,hg',Slot.idt.inj he⟩)
  · rw [List.mem_singleton.mp hd] at he
    exact hnot (List.mem_map.mpr ⟨_,hg,(Slot.idt.inj he).symm⟩)

theorem gate_untouched {v : Byte} (hv : v ∉ irqGates.map Prod.fst) (h80 : v ≠ 0x80#8) :
    loadedEntry t stub interrupt80 ram v = entryAt ram (t.entry (.idt v)) := by
  rw [loadedEntry_eq]
  refine call_other (gateCalls_valid stub interrupt80) (fun c hc he => ?_) ram
  rcases List.mem_append.mp hc with hc | hc
  · obtain ⟨g,hg,rfl⟩ := List.mem_map.mp hc
    exact hv (List.mem_map.mpr ⟨g,hg,Slot.idt.inj he⟩)
  · rw [List.mem_singleton.mp hc] at he
    exact h80 (Slot.idt.inj he).symm

end

/-- From any controllers and any tables: the vector of a line of the master leads to
the stub of that line. The vector of a line of the slave has the entry it had,
and the gate of that line is at another one. Neither controller is in the mode
that the comments name. -/
theorem line_gates (t : Tables) (stub : Fin 16 → Word) (interrupt80 : Word) (ram : Ram) (s : State) (line : Fin 16) :
    let v := vectorOf (initializePic s) line
    (line.val < 8 → decodeGate (loadedEntry t stub interrupt80 ram v) = ⟨stub line, 8#16, 0x8E#8⟩) ∧
    (8 ≤ line.val → loadedEntry t stub interrupt80 ram v = entryAt ram (t.entry (.idt v)) ∧
      decodeGate (loadedEntry t stub interrupt80 ram (v+0x48#8)) = ⟨stub line, 8#16, 0x8E#8⟩) ∧
    (initializePic s).master.mode = 0#8 ∧ (initializePic s).slave.mode = 0#8 := by
  intro v
  have hv : v = (if line.val < 8 then 0x20#8 else 0x28#8)+BitVec.ofNat 8 (inChip line).val := by
    change vectorOf (initializePic s) line = _
    rw [initializePic_eq]
    rfl
  have hmaster : ∀ line : Fin 16, line.val < 8 → (0x20#8+BitVec.ofNat 8 (inChip line).val, line) ∈ irqGates := by
    decide
  have hslave : ∀ line : Fin 16, 8 ≤ line.val →
      (0x28#8+BitVec.ofNat 8 (inChip line).val+0x48#8, line) ∈ irqGates ∧
        0x28#8+BitVec.ofNat 8 (inChip line).val ≠ 0x80#8 ∧
        0x28#8+BitVec.ofNat 8 (inChip line).val ∉ irqGates.map Prod.fst := by
    decide
  refine ⟨fun hlt => gate_loaded t stub interrupt80 ram ?_,fun hge => ?_,by rw [initializePic_eq]; rfl,
    by rw [initializePic_eq]; rfl⟩
  · rw [hv, if_pos hlt]
    exact hmaster line hlt
  · obtain ⟨hmem,h80,hother⟩ := hslave line hge
    rw [if_neg (by omega)] at hv
    rw [hv]
    exact ⟨gate_untouched t stub interrupt80 ram hother h80,gate_loaded t stub interrupt80 ram hmem⟩

end MikeOS.Interrupts
