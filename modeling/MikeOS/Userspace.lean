import MikeOS.InterruptEntry

/-!
# Ring 3 and the task state segment

The segments of ring 3 and the task state are set up once, the stack that the
processor takes on an interrupt is set for each task, and `jmp_to_userspace`
returns to code that was never interrupted. The task state begins with the map
of ports that ring 3 may access, since its `iomap_base` stays zero.
-/

set_option autoImplicit false

namespace MikeOS.Userspace
open ByteStack Words
open MikeOS.Descriptors (Tables Segment entryAt decodeSegment setGdtGate gateBytes Call Slot)
open MikeOS.InterruptEntry

/-! ## Set-up -/

def gdtOnBit : Byte := 1#8 <<< 4
def gdtPresent : Byte := 1#8 <<< 7 ||| gdtOnBit
def gdtRing3 : Byte := 3#8 <<< 5 ||| gdtOnBit
def gdtExecutable : Byte := 1#8 <<< 3 ||| gdtOnBit
def gdtReadableWriteable : Byte := 1#8 <<< 1 ||| gdtOnBit

def ring3CodeSegmentEntry : Word := 3#32
def ring3DataSegmentEntry : Word := 4#32
def tssSegmentEntry : Word := 5#32

/-- `sizeof(tss_struct_t)`; `esp0` is at 4, `ss0` at 8 and `iomap_base` at 102. -/
def tssSize : Word := 104#32

/-- `ltr`: the processor keeps what it reads and marks the descriptor busy. -/
def loadTaskRegister (t : Tables) (selector : BitVec 16) (ram : Ram) : Segment × Ram :=
  let entry := t.gdt+(selector.setWidth 32 &&& 0xFFF8#32)
  (decodeSegment (entryAt ram entry), Descriptors.storeByte (entry+5#32) (ram (entry+5#32) ||| 2#8) ram)

def loadTaskStateSegment (t : Tables) (taskState : Word) (ram : Ram) : Segment × Ram :=
  let ram := setGdtGate t tssSegmentEntry taskState (taskState+tssSize-1#32) 0xe9#8 0x00#8 ram
  let ram := store (taskState+8#32) 0x10#32 ram
  loadTaskRegister t 0x28#16 ram

def loadRing3Segments (t : Tables) (taskState : Word) (ram : Ram) : Segment × Ram :=
  let ram := setGdtGate t ring3CodeSegmentEntry 0#32 0xFFFFFFFF#32
    (gdtPresent ||| gdtRing3 ||| gdtReadableWriteable ||| gdtExecutable) 0xCF#8 ram
  let ram := setGdtGate t ring3DataSegmentEntry 0#32 0xFFFFFFFF#32
    (gdtPresent ||| gdtRing3 ||| gdtReadableWriteable) 0xCF#8 ram
  loadTaskStateSegment t taskState ram

def userspaceInit (t : Tables) (taskState : Word) (ram : Ram) : Segment × Ram := loadRing3Segments t taskState ram

def setKernelStack (taskState address : Word) (ram : Ram) : Ram := store (taskState+4#32) address ram

/-! ## What the processor reads -/

def descriptorAt (t : Tables) (ram : Ram) (selector : BitVec 16) : Segment :=
  decodeSegment (entryAt ram (t.gdt+(selector.setWidth 32 &&& 0xFFF8#32)))

def readHalf (ram : Ram) (p : Word) : BitVec 16 := ram (p+1#32) ++ ram p

/-- A byte is read from or written to a port in ring 3, with `IOPL` zero: the bit
of the port is clear and its byte and the next one lie in the segment. -/
def portAllowed (tr : Segment) (ram : Ram) (port : BitVec 16) : Bool :=
  let byte := (readHalf ram (tr.base+102#32)).toNat+port.toNat/8
  decide (byte+1 ≤ tr.limit.toNat) && !(ram (tr.base+BitVec.ofNat 32 byte)).getLsbD (port.toNat%8)

/-! ## The jump -/

def jmpToUserspace : List Instr :=
  [.movEbpEsp, .movAx 0x23#16, .movDsAx, .movEsAx, .movFsAx, .movGsAx, .push 0x23#32, .movEaxEbp 8#32, .pushEax,
    .pushf, .push 0x1b#32, .movEaxEbp 4#32, .pushEax, .iretd]

def userStart (c : Cpu) : Cpu :=
  let eip := readWord c.mem (c.esp+4#32)
  let esp := readWord c.mem (c.esp+8#32)
  { c with
    ebp := c.esp
    eax := eip
    eip := eip
    esp := esp
    cs := 0x1b#16
    ss := 0x23#16
    ds := 0x23#16
    es := 0x23#16
    fs := 0x23#16
    gs := 0x23#16
    mem := (pushes [0x23#32, esp, c.eflags, 0x1b#32, eip] c.stack).mem }

theorem segmentOf_movAx (x : Word) (s : BitVec 16) : segmentOf ((x &&& 0xFFFF0000#32) ||| s.setWidth 32) = s := by
  have hmask : ∀ j : Fin 16, (0xFFFF0000#32).getLsbD j.val = false := by decide
  refine BitVec.eq_of_getLsbD_eq fun i hi => ?_
  simp only [segmentOf, BitVec.getLsbD_setWidth, BitVec.getLsbD_or, BitVec.getLsbD_and, hmask ⟨i,hi⟩]
  simp [hi, show i < 32 by omega]

def beforeIret (c : Cpu) (ax esp eip : Word) : Cpu :=
  { c.withStack (pushes [0x23#32, esp, c.eflags, 0x1b#32, eip] c.stack) with
    ebp := c.esp
    eax := eip
    ds := segmentOf ax
    es := segmentOf ax
    fs := segmentOf ax
    gs := segmentOf ax }

theorem jump_pushed (code : Code) (c : Cpu) : ∃ ax, segmentOf ax = 0x23#16 ∧
    execs code jmpToUserspace c = exec code .iretd
      (beforeIret c ax (readWord c.mem (c.esp+8#32)) (readWord c.mem (c.esp+4#32))) := by
  have hrun : ∀ ax esp eip, ax = (exec code (.movAx 0x23#16) c).eax →
      esp = load (pushes [0x23#32] c.stack).mem (c.esp+8#32) →
      eip = load (pushes [0x23#32, esp, c.eflags, 0x1b#32] c.stack).mem (c.esp+4#32) →
      execs code jmpToUserspace c = exec code .iretd (beforeIret c ax esp eip) := by
    rintro _ _ _ rfl rfl rfl
    simp only [jmpToUserspace, execs]
    refine congrArg _ ?_
    simp only [exec, beforeIret, Cpu.withStack, Cpu.stack, pushes]
  refine ⟨_,segmentOf_movAx c.eax 0x23#16,hrun _ _ _ rfl ?_ ?_⟩
  · exact (load_above [0x23#32] c.stack (k := 8) (by simp)).symm
  · exact (load_above [0x23#32, _, c.eflags, 0x1b#32] c.stack (k := 4) (by simp)).symm

theorem beforeIret_words (c : Cpu) (ax esp eip : Word) :
    words (beforeIret c ax esp eip).mem 5 (beforeIret c ax esp eip).esp = [eip, 0x1b#32, c.eflags, esp, 0x23#32] :=
  words_pushes [0x23#32, esp, c.eflags, 0x1b#32, eip] c.stack (n := 0) (by simp)

/-- From ring 0 the jump ends in ring 3 at the address and on the stack it was given. -/
theorem jump_exec (code : Code) (c : Cpu) (hring : ring c.cs = 0) : execs code jmpToUserspace c = userStart c := by
  obtain ⟨ax,hax,hpushed⟩ := jump_pushed code c
  obtain ⟨b,hb⟩ : ∃ b, b = beforeIret c ax (readWord c.mem (c.esp+8#32)) (readWord c.mem (c.esp+4#32)) := ⟨_,rfl⟩
  have hwords := beforeIret_words c ax (readWord c.mem (c.esp+8#32)) (readWord c.mem (c.esp+4#32))
  rw [← hb] at hwords hpushed
  simp only [words, BitVec.add_assoc, BitVec.reduceAdd, List.cons.injEq, and_true] at hwords
  obtain ⟨heip,hcs,hflags,hesp,hss⟩ := hwords
  have houter : ring b.cs < ring (segmentOf 0x1b#32) := by
    rw [hb]
    change ring c.cs < _
    rw [hring]
    decide
  rw [hpushed, exec]
  simp only [heip, hcs, hflags, hesp, hss, if_pos houter]
  rw [hb]
  simp only [beforeIret, userStart, Cpu.withStack, hax, show segmentOf 0x1b#32 = 0x1b#16 by decide,
    show segmentOf 0x23#32 = 0x23#16 by decide]

/-! ## The tables after set-up -/

structure Placed (t : Tables) (taskState : Word) : Prop where
  aligned : taskState.toNat%4096 = 0
  apart : ∀ i < 48, ∀ j < 104, t.gdt+BitVec.ofNat 32 i ≠ taskState+BitVec.ofNat 32 j

def Holds (ram : Ram) (taskState esp0 ss0 : Word) : Prop := ∀ j < 104, ram (taskState+BitVec.ofNat 32 j) =
  if 4 ≤ j ∧ j < 8 then byteOf esp0 (j-4) else if 8 ≤ j ∧ j < 12 then byteOf ss0 (j-8) else 0#8

section
variable {t : Tables} {taskState : Word} {ram ram' : Ram} {esp0 ss0 : Word}

theorem byteOf_zero (k : ℕ) : byteOf 0#32 k = 0#8 := by
  refine BitVec.eq_of_getLsbD_eq fun i hi => ?_
  rw [getLsbD_byteOf _ k hi, BitVec.getLsbD_zero, BitVec.getLsbD_zero]

theorem holds_zero (h : ∀ j < 104, ram (taskState+BitVec.ofNat 32 j) = 0#8) : Holds ram taskState 0#32 0#32 :=
  fun j hj => by
    rw [h j hj, byteOf_zero, byteOf_zero]
    split_ifs <;> rfl

theorem holds_congr (h : Holds ram taskState esp0 ss0)
    (hsame : ∀ j < 104, ram' (taskState+BitVec.ofNat 32 j) = ram (taskState+BitVec.ofNat 32 j)) :
    Holds ram' taskState esp0 ss0 := fun j hj => (hsame j hj).trans (h j hj)

theorem task_offset (p : Word) {i j : ℕ} (hi : i < 104) (hj : j < 104) (hij : i ≤ j) :
    (p+BitVec.ofNat 32 j-(p+BitVec.ofNat 32 i)).toNat = j-i := by
  bv_omega

theorem task_offset_before (p : Word) {i j : ℕ} (hi : i < 104) (hij : j < i) :
    104 ≤ (p+BitVec.ofNat 32 j-(p+BitVec.ofNat 32 i)).toNat := by
  bv_omega

theorem store_task {i j : ℕ} (x : Word) (hi : i+4 ≤ 104) (hj : j < 104) :
    store (taskState+BitVec.ofNat 32 i) x ram (taskState+BitVec.ofNat 32 j) =
      if i ≤ j ∧ j < i+4 then byteOf x (j-i) else ram (taskState+BitVec.ofNat 32 j) := by
  by_cases hle : i ≤ j
  · have hoff := task_offset taskState (by omega) hj hle
    rw [store, hoff]
    by_cases hlt : j < i+4
    · rw [if_pos (by omega), if_pos ⟨hle,hlt⟩]
    · rw [if_neg (by omega), if_neg (by omega)]
  · have hoff := task_offset_before taskState (i := i) (j := j) (by omega) (by omega)
    rw [store, if_neg (by omega), if_neg (by omega)]

theorem holds_esp0 (h : Holds ram taskState esp0 ss0) (address : Word) :
    Holds (setKernelStack taskState address ram) taskState address ss0 := fun j hj => by
  have hstore : store (taskState+4#32) address ram _ = _ := store_task address (show 4+4 ≤ 104 by omega) hj
  rw [setKernelStack, hstore, h j hj]
  split_ifs <;> rfl

theorem holds_ss0 (h : Holds ram taskState esp0 ss0) (x : Word) :
    Holds (store (taskState+8#32) x ram) taskState esp0 x := fun j hj => by
  have hstore : store (taskState+8#32) x ram _ = _ := store_task x (show 8+4 ≤ 104 by omega) hj
  rw [hstore, h j hj]
  split_ifs <;> first | rfl | omega

theorem entry_byte (t : Tables) {num : Word} (hnum : num.toNat < 6) {k : ℕ} (hk : k < 8) :
    t.entry (.gdt num)+BitVec.ofNat 32 k = t.gdt+BitVec.ofNat 32 (8*num.toNat+k) := by
  rw [Tables.entry, BitVec.add_assoc, Descriptors.offset_eq num k (by omega) hk]

def ring3Calls (taskState : Word) : List Call :=
  [.setGdtGate ring3CodeSegmentEntry 0#32 0xFFFFFFFF#32
      (gdtPresent ||| gdtRing3 ||| gdtReadableWriteable ||| gdtExecutable) 0xCF#8,
    .setGdtGate ring3DataSegmentEntry 0#32 0xFFFFFFFF#32
      (gdtPresent ||| gdtRing3 ||| gdtReadableWriteable) 0xCF#8,
    .setGdtGate tssSegmentEntry taskState (taskState+tssSize-1#32) 0xe9#8 0x00#8]

theorem userspaceInit_eq (t : Tables) (taskState : Word) (ram : Ram) : userspaceInit t taskState ram =
    loadTaskRegister t 0x28#16 (store (taskState+8#32) 0x10#32 (Descriptors.run t (ring3Calls taskState) ram)) := rfl

theorem ring3Calls_valid (taskState : Word) : ∀ c ∈ ring3Calls taskState, c.slot.Valid := by
  simp only [ring3Calls, List.forall_mem_cons, Call.slot]
  exact ⟨by decide,by decide,by decide,by simp⟩

theorem entry_apart (h : Placed t taskState) {num : Word} (hnum : num.toNat < 6) {j k : ℕ} (hj : j < 104) (hk : k < 8) :
    taskState+BitVec.ofNat 32 j ≠ t.entry (.gdt num)+BitVec.ofNat 32 k := by
  rw [entry_byte t hnum hk]
  exact (h.apart _ (by omega) j hj).symm

theorem holds_calls (h : Placed t taskState) {calls : List Call}
    (hcalls : ∀ c ∈ calls, ∃ num : Word, num.toNat < 6 ∧ c.slot = .gdt num)
    (hh : Holds ram taskState esp0 ss0) : Holds (Descriptors.run t calls ram) taskState esp0 ss0 := by
  induction calls generalizing ram with
  | nil => exact hh
  | cons c calls ih =>
    obtain ⟨⟨num,hnum,hc⟩,hrest⟩ := List.forall_mem_cons.mp hcalls
    refine ih hrest (holds_congr hh fun j hj => Descriptors.step_frame t ram c fun k hk => ?_)
    rw [hc]
    exact entry_apart h hnum hj hk

theorem entryAt_store (h : Placed t taskState) {num : Word} (hnum : num.toNat < 6) {i : ℕ} (hi : i+4 ≤ 104) (x : Word) :
    entryAt (store (taskState+BitVec.ofNat 32 i) x ram) (t.entry (.gdt num)) = entryAt ram (t.entry (.gdt num)) := by
  funext k
  refine store_outside (apart_of_ne fun j hj => ?_)
  rw [BitVec.add_assoc, ← BitVec.ofNat_add]
  exact (entry_apart h hnum (by omega) k.isLt).symm

structure Ready (t : Tables) (taskState : Word) (tr : Segment) (ram : Ram) (esp0 : Word) : Prop where
  code : decodeSegment (entryAt ram (t.entry (.gdt 3#32))) = ⟨0#32,0xFFFFF#20,0xFA#8,0xC#4⟩
  data : decodeSegment (entryAt ram (t.entry (.gdt 4#32))) = ⟨0#32,0xFFFFF#20,0xF2#8,0xC#4⟩
  task : tr = ⟨taskState,(taskState+103#32).setWidth 20,0xe9#8,0#4⟩
  holds : Holds ram taskState esp0 0x10#32

/-- The busy mark is in the descriptor of the task state only. -/
theorem entryAt_busy (t : Tables) {num : Word} (hnum : num.toNat < 6) (hne : num ≠ 5#32) (value : Byte) (ram : Ram) :
    entryAt (Descriptors.storeByte (t.entry (.gdt 5#32)+5#32) value ram) (t.entry (.gdt num)) =
      entryAt ram (t.entry (.gdt num)) := by
  funext k
  have hother : Slot.gdt num ≠ .gdt 5#32 := fun he => hne (Slot.gdt.inj he)
  have hapart := Descriptors.entries_apart t (s := .gdt num) (u := .gdt 5#32) hnum (by decide) hother k.isLt
    (show 5 < 8 by omega)
  rw [entryAt, Descriptors.storeByte_apply, if_neg hapart]
  rfl

theorem last_call (t : Tables) (before after : List Call) (num base limit : Word) (access gran : Byte) (ram : Ram)
    (hvalid : ∀ d ∈ before ++ Call.setGdtGate num base limit access gran::after, d.slot.Valid)
    (hlast : ∀ d ∈ after, d.slot ≠ .gdt num) :
    decodeSegment (entryAt (Descriptors.run t (before ++ .setGdtGate num base limit access gran::after) ram)
      (t.entry (.gdt num))) = ⟨base,limit.setWidth 20,access,gran.extractLsb' 4 4⟩ := by
  have hread := Slots.run_last (Descriptors.writes t) hvalid hlast ram
  exact (congrArg decodeSegment hread).trans (Descriptors.decodeSegment_gateBytes base limit access gran)

theorem ready_init (h : Placed t taskState) (hzero : ∀ j < 104, ram (taskState+BitVec.ofNat 32 j) = 0#8) :
    Ready t taskState (userspaceInit t taskState ram).1 (userspaceInit t taskState ram).2 0#32 := by
  have hvalid := ring3Calls_valid taskState
  have hentry : t.gdt+((0x28#16).setWidth 32 &&& 0xFFF8#32) = t.entry (.gdt 5#32) :=
    congrArg (t.gdt+·) (show (0x28#16).setWidth 32 &&& 0xFFF8#32 = 5#32*Descriptors.entrySize by decide)
  have hgdt : ∀ c ∈ ring3Calls taskState, ∃ num : Word, num.toNat < 6 ∧ c.slot = .gdt num := by
    simp only [ring3Calls, List.forall_mem_cons, Call.slot]
    exact ⟨⟨_,by decide,rfl⟩,⟨_,by decide,rfl⟩,⟨_,by decide,rfl⟩,by simp⟩
  rw [userspaceInit_eq, loadTaskRegister, hentry]
  refine ⟨?_,?_,?_,holds_congr (holds_ss0 (holds_calls h hgdt (holds_zero hzero)) 0x10#32) fun j hj => ?_⟩
  · rw [entryAt_busy t (by decide) (by decide), entryAt_store h (by decide) (show 8+4 ≤ 104 by omega)]
    refine (last_call t [] [_,_] ring3CodeSegmentEntry _ _ _ _ ram hvalid ?_).trans (by decide)
    simp only [List.forall_mem_cons, Call.slot]
    exact ⟨by decide,by decide,by simp⟩
  · rw [entryAt_busy t (by decide) (by decide), entryAt_store h (by decide) (show 8+4 ≤ 104 by omega)]
    refine (last_call t [_] [_] ring3DataSegmentEntry _ _ _ _ ram hvalid ?_).trans (by decide)
    simp only [List.forall_mem_cons, Call.slot]
    exact ⟨by decide,by simp⟩
  · rw [entryAt_store h (by decide) (show 8+4 ≤ 104 by omega)]
    refine (last_call t [_,_] [] tssSegmentEntry _ _ _ _ ram hvalid (by simp)).trans ?_
    rw [show taskState+tssSize-1#32 = taskState+103#32 by rw [tssSize]; bv_omega]
    rfl
  · dsimp only
    rw [Descriptors.storeByte_apply, if_neg (entry_apart h (by decide) hj (show 5 < 8 by omega))]

theorem ready_stack {tr : Segment} (h : Placed t taskState) (hr : Ready t taskState tr ram esp0) (address : Word) :
    Ready t taskState tr (setKernelStack taskState address ram) address := by
  refine ⟨?_,?_,hr.task,holds_esp0 hr.holds address⟩
  · rw [← hr.code]
    exact congrArg decodeSegment (entryAt_store h (by decide) (by omega) address)
  · rw [← hr.data]
    exact congrArg decodeSegment (entryAt_store h (by decide) (by omega) address)

def setKernelStacks (taskState : Word) (addresses : List Word) (ram : Ram) : Ram :=
  addresses.foldl (fun ram address => setKernelStack taskState address ram) ram

theorem ready_stacks {tr : Segment} (h : Placed t taskState) (addresses : List Word)
    (hr : Ready t taskState tr ram esp0) :
    Ready t taskState tr (setKernelStacks taskState addresses ram) (addresses.getLastD esp0) := by
  induction addresses generalizing ram esp0 with
  | nil => exact hr
  | cons a addresses ih =>
    rw [List.getLastD_cons]
    exact ih (ready_stack h hr a)

theorem taskStateAt_ready {tr : Segment} (hr : Ready t taskState tr ram esp0) :
    taskStateAt tr.base ram = ⟨esp0,0x10#16⟩ := by
  have hword : ∀ i x, i+4 ≤ 104 → (∀ k < 4, ram (taskState+BitVec.ofNat 32 (i+k)) = byteOf x k) →
      load ram (taskState+BitVec.ofNat 32 i) = x := fun i x hi hx => by
    refine load_of_bytes fun k hk => ?_
    rw [BitVec.add_assoc, ← BitVec.ofNat_add]
    exact hx k hk
  have hesp : load ram (taskState+4#32) = esp0 := hword 4 esp0 (by omega) fun k hk => by
    rw [hr.holds _ (by omega), if_pos (by omega), Nat.add_sub_cancel_left]
  have hss : load ram (taskState+8#32) = 0x10#32 := hword 8 0x10#32 (by omega) fun k hk => by
    rw [hr.holds _ (by omega), if_neg (by omega), if_pos (by omega), Nat.add_sub_cancel_left]
  rw [taskStateAt, hr.task, hesp, hss]
  rfl

theorem iomap_zero {tr : Segment} (hr : Ready t taskState tr ram esp0) :
    (readHalf ram (tr.base+102#32)).toNat = 0 := by
  have hbyte : ∀ j, 12 ≤ j → j < 104 → ram (taskState+BitVec.ofNat 32 j) = 0#8 := fun j hlo hj => by
    rw [hr.holds j hj, if_neg (by omega), if_neg (by omega)]
  have h0 : ram (taskState+102#32) = 0#8 := hbyte 102 (by omega) (by omega)
  have h1 : ram (taskState+102#32+1#32) = 0#8 := by
    rw [BitVec.add_assoc]
    exact hbyte 103 (by omega) (by omega)
  rw [readHalf, hr.task, h0, h1]
  rfl

theorem limit_ge (h : Placed t taskState) : 103 ≤ ((taskState+103#32).setWidth 20).toNat := by
  have hal := h.aligned
  rw [BitVec.toNat_setWidth, BitVec.toNat_add, show (103#32).toNat = 103 from rfl]
  omega

theorem port_bit {tr : Segment} (hr : Ready t taskState tr ram esp0) {p : ℕ} (hp : p < 824) :
    (ram (taskState+BitVec.ofNat 32 (p/8))).getLsbD (p%8) = true ↔
      p = 68 ∨ 32 ≤ p ∧ p < 64 ∧ esp0.getLsbD (p-32) = true := by
  rw [hr.holds (p/8) (by omega)]
  split_ifs with h4 h8
  · rw [getLsbD_byteOf _ _ (Nat.mod_lt _ (by omega)), show 8*(p/8-4)+p%8 = p-32 by omega]
    exact ⟨fun hb => Or.inr ⟨by omega,by omega,hb⟩,fun hb => (hb.resolve_left (by omega)).2.2⟩
  · have hbits : ∀ i : Fin 32, (0x10#32).getLsbD i.val = true ↔ i.val = 4 := by decide
    have hbit : (0x10#32).getLsbD (8*(p/8-8)+p%8) = true ↔ 8*(p/8-8)+p%8 = 4 := hbits ⟨8*(p/8-8)+p%8,by omega⟩
    rw [getLsbD_byteOf _ _ (Nat.mod_lt _ (by omega)), hbit]
    exact ⟨fun hb => Or.inl (by omega),fun hb => by rcases hb with hb | hb <;> omega⟩
  · rw [BitVec.getLsbD_zero]
    exact ⟨fun hb => (by cases hb),fun hb => (by omega)⟩

end

/-- A program that the kernel starts after set-up runs in ring 3 in flat segments,
and the first stack for its interrupts is the one that was set last. While its
interrupts are quiet it computes what it computes without them. -/
theorem userspace_start (t : Tables) (taskState : Word) (ram : Ram) (addresses : List Word) (K : Word → Prop)
    (code : Code) (prog : Cpu → Cpu) (events : List Event) (c : Cpu) (h : Placed t taskState)
    (hzero : ∀ j < 104, ram (taskState+BitVec.ofNat 32 j) = 0#8) (hring : ring c.cs = 0)
    (hmem : c.mem = setKernelStacks taskState addresses (userspaceInit t taskState ram).2)
    (hK : ∀ q, (q-(c.esp-20#32)).toNat < 20 → K q) (hprog : UserCode K prog)
    (hquiet : AllQuiet K code (userspaceInit t taskState ram).1.base prog events (execs code jmpToUserspace c)) :
    descriptorAt t c.mem 0x1b#16 = ⟨0#32,0xFFFFF#20,0xFA#8,0xC#4⟩ ∧
    descriptorAt t c.mem 0x23#16 = ⟨0#32,0xFFFFF#20,0xF2#8,0xC#4⟩ ∧
    taskStateAt (userspaceInit t taskState ram).1.base c.mem = ⟨addresses.getLastD 0#32,0x10#16⟩ ∧
    Agree K (happens code (userspaceInit t taskState ram).1.base prog events (execs code jmpToUserspace c))
      (prog^[events.count .run] { userStart c with mem := c.mem }) := by
  have hr := ready_stacks h addresses (ready_init h hzero)
  rw [← hmem] at hr
  obtain ⟨saved,hsaved⟩ : ∃ saved, saved =
      [0x23#32, readWord c.mem (c.esp+8#32), c.eflags, 0x1b#32, readWord c.mem (c.esp+4#32)] := ⟨_,rfl⟩
  have hlength : saved.length = 5 := by rw [hsaved]; rfl
  refine ⟨hr.code,hr.data,taskStateAt_ready hr,?_⟩
  rw [jump_exec code c hring] at hquiet ⊢
  refine happens_agree hprog hquiet (show ring 0x1b#16 = 3 by decide) ⟨rfl,fun q hq => ?_⟩
  change (pushes [0x23#32, readWord c.mem (c.esp+8#32), c.eflags, 0x1b#32, readWord c.mem (c.esp+4#32)] c.stack).mem q =
    c.mem q
  rw [← hsaved]
  refine pushes_outside saved c.stack (by omega) ?_
  rw [pushes_top, hlength]
  by_contra hlt
  exact hq (hK q (Nat.lt_of_not_le hlt))

/-- The task state is its own map of ports. Whatever stacks were set, ring 3 may
access each of the first 824 ports but number 68 and those, from 32 on, whose
bits are set in the address of the last stack. -/
theorem ring3_ports_iff (t : Tables) (taskState : Word) (ram : Ram) (addresses : List Word) (h : Placed t taskState)
    (hzero : ∀ j < 104, ram (taskState+BitVec.ofNat 32 j) = 0#8) (port : BitVec 16) (hport : port.toNat < 824) :
    portAllowed (userspaceInit t taskState ram).1
        (setKernelStacks taskState addresses (userspaceInit t taskState ram).2) port = true ↔
      port.toNat ≠ 68 ∧
        ¬ (32 ≤ port.toNat ∧ port.toNat < 64 ∧ (addresses.getLastD 0#32).getLsbD (port.toNat-32) = true) := by
  have hr := ready_stacks h addresses (ready_init h hzero)
  have hlimit := limit_ge h
  rw [portAllowed, iomap_zero hr, Nat.zero_add, Bool.and_eq_true, decide_eq_true_iff, Bool.not_eq_true',
    ← Bool.not_eq_true, hr.task, port_bit hr hport]
  constructor
  · rintro ⟨-,hbit⟩
    exact not_or.mp hbit
  · refine fun hbit => ⟨?_,not_or.mpr hbit⟩
    change port.toNat/8+1 ≤ ((taskState+103#32).setWidth 20).toNat
    omega

/-! ## An example -/

theorem taskState_placed : Placed Descriptors.kernelTables taskStateAddress := by
  refine ⟨by decide,fun i hi j hj he => ?_⟩
  have hn := congrArg BitVec.toNat he
  simp only [Tables.gdt, Descriptors.kernelTables, taskStateAddress, kernelVirtualOffset_eq, BitVec.toNat_add,
    BitVec.toNat_ofNat] at hn
  omega

theorem disk_port_allowed : portAllowed (userspaceInit Descriptors.kernelTables taskStateAddress fun _ => 0#8).1
    (setKernelStacks taskStateAddress [0xC0801000#32, 0xC0802000#32]
      (userspaceInit Descriptors.kernelTables taskStateAddress fun _ => 0#8).2) 0x1F7#16 = true :=
  (ring3_ports_iff Descriptors.kernelTables taskStateAddress (fun _ => 0#8) [0xC0801000#32, 0xC0802000#32]
    taskState_placed (fun _ _ => rfl) 0x1F7#16 (by decide)).mpr (by decide)

def argumentRam : Ram := store 0xC0500004#32 0x1000#32 (store 0xC0500008#32 0xBFFFF000#32 fun _ => 0#8)

def kernelCpu : Cpu := { userCpu with
  cs := 8#16
  ss := 0x10#16
  esp := 0xC0500000#32
  mem := setKernelStacks taskStateAddress [kernelStackTop]
    (userspaceInit Descriptors.kernelTables taskStateAddress argumentRam).2 }

theorem argumentRam_zero (j : ℕ) (hj : j < 104) : argumentRam (taskStateAddress+BitVec.ofNat 32 j) = 0#8 := by
  have hfar : ∀ a : Word, 0xC0500000 ≤ a.toNat → a.toNat < 0xC0600000 →
      4 ≤ (taskStateAddress+BitVec.ofNat 32 j-a).toNat := fun a hlo hhi => by
    rw [taskStateAddress]
    bv_omega
  rw [argumentRam, store_outside (hfar _ (by decide) (by decide)), store_outside (hfar _ (by decide) (by decide))]

theorem kernelCpu_task : (userspaceInit Descriptors.kernelTables taskStateAddress argumentRam).1.base = taskStateAddress ∧
    taskStateAt taskStateAddress (userStart kernelCpu).mem = ⟨kernelStackTop, 0x10#16⟩ := by
  have hr := ready_stacks taskState_placed [kernelStackTop] (ready_init taskState_placed argumentRam_zero)
  have hbase : (userspaceInit Descriptors.kernelTables taskStateAddress argumentRam).1.base = taskStateAddress := by
    rw [hr.task]
  refine ⟨hbase,?_⟩
  have htask := taskStateAt_ready hr
  rw [hbase] at htask
  refine (taskStateAt_congr fun q hq => ?_).trans htask
  rw [taskStateAddress] at hq
  refine pushes_outside [_, _, _, _, _] kernelCpu.stack (by simp) ?_
  rw [pushes_top]
  change 20 ≤ (q-(0xC0500000#32-20#32)).toNat
  bv_omega

theorem two_steps_started : Agree InKernel
    (happens kernelCode (userspaceInit Descriptors.kernelTables taskStateAddress argumentRam).1.base storing
      [.run, .interrupt keyboardStub, .run] (execs kernelCode jmpToUserspace kernelCpu))
    (storing^[2] { userStart kernelCpu with mem := kernelCpu.mem }) := by
  obtain ⟨hbase,htask⟩ := kernelCpu_task
  refine (userspace_start Descriptors.kernelTables taskStateAddress argumentRam [kernelStackTop] InKernel kernelCode
    storing _ kernelCpu taskState_placed argumentRam_zero (by decide) rfl (fun q hq => ?_) storing_userCode ?_).2.2.2
  · rw [InKernel]
    change (q-(0xC0500000#32-20#32)).toNat < 20 at hq
    bv_omega
  · rw [hbase, jump_exec kernelCode kernelCpu (by decide)]
    refine storing_quiet (fun s hs => ?_) (by decide) htask
    obtain rfl : s = keyboardStub := by simpa using hs
    exact Or.inl rfl

end MikeOS.Userspace
