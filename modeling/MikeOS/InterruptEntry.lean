import MikeOS.Descriptors
import MikeOS.Library.ByteStack
import MikeOS.Library.Transition

/-!
# Interrupt entry and return

The processor saves where it was on the stack of the kernel, the stub puts the
other registers below that, and the handler gets a pointer to the whole as a
`regs_t`. A C function at an address is what it does from its first instruction
until it has returned; a handler that never returns is none.
-/

set_option autoImplicit false

namespace MikeOS.InterruptEntry
open ByteStack
open MikeOS.Descriptors (Gate)

/-! ## The processor -/

@[ext] structure Cpu where
  edi : Word
  esi : Word
  ebp : Word
  esp : Word
  ebx : Word
  edx : Word
  ecx : Word
  eax : Word
  eip : Word
  eflags : Word
  cs : BitVec 16
  ss : BitVec 16
  ds : BitVec 16
  es : BitVec 16
  fs : BitVec 16
  gs : BitVec 16
  mem : Ram

structure TaskState where
  esp0 : Word
  ss0 : BitVec 16
  deriving DecidableEq, Repr

def ring (selector : BitVec 16) : ℕ := selector.toNat%4

def Cpu.stack (c : Cpu) : Stack := ⟨c.esp, c.mem⟩

def Cpu.withStack (c : Cpu) (s : Stack) : Cpu := { c with esp := s.top, mem := s.mem }

def segmentWord (selector : BitVec 16) : Word := selector.setWidth 32

def segmentOf (x : Word) : BitVec 16 := x.setWidth 16

/-- TF, IF, NT, RF and VM are off behind an interrupt gate. -/
def gateFlags (eflags : Word) : Word := eflags &&& ~~~0x34300#32

/-- Where the words are pushed that the processor saves, and the words below
those for the stack of an outer ring. -/
def gateStack (tss : TaskState) (g : Gate) (c : Cpu) : Stack :=
  if ring g.selector < ring c.cs then pushes [segmentWord c.ss, c.esp] ⟨tss.esp0, c.mem⟩ else c.stack

def enterGate (tss : TaskState) (g : Gate) (c : Cpu) : Cpu :=
  { c.withStack (pushes [c.eflags, segmentWord c.cs, c.eip] (gateStack tss g c)) with
    eip := g.handler
    eflags := gateFlags c.eflags
    cs := g.selector
    ss := if ring g.selector < ring c.cs then tss.ss0 else c.ss }

/-! ## Instructions -/

inductive Instr where
  | pushad
  | popad
  | push (x : Word)
  | pushEax
  | movEaxEsp
  | addEsp (x : Word)
  | call (target ret : Word)
  | iretd
  | movEbpEsp
  | movAx (x : BitVec 16)
  | movDsAx
  | movEsAx
  | movFsAx
  | movGsAx
  | movEaxEbp (offset : Word)
  | pushf
  deriving DecidableEq, Repr

abbrev Code := Word → Cpu → Cpu

def exec (code : Code) : Instr → Cpu → Cpu
  | .pushad, c => c.withStack (pushes [c.eax, c.ecx, c.edx, c.ebx, c.esp, c.ebp, c.esi, c.edi] c.stack)
  | .popad, c =>
    -- the word for `esp` is skipped
    { c with
      edi := load c.mem c.esp
      esi := load c.mem (c.esp+4#32)
      ebp := load c.mem (c.esp+8#32)
      ebx := load c.mem (c.esp+16#32)
      edx := load c.mem (c.esp+20#32)
      ecx := load c.mem (c.esp+24#32)
      eax := load c.mem (c.esp+28#32)
      esp := c.esp+32#32 }
  | .push x, c => c.withStack (push x c.stack)
  | .pushEax, c => c.withStack (push c.eax c.stack)
  | .movEaxEsp, c => { c with eax := c.esp }
  | .addEsp x, c => { c with esp := c.esp+x }
  | .call target ret, c => code target (c.withStack (push ret c.stack))
  | .iretd, c =>
    let cs := segmentOf (load c.mem (c.esp+4#32))
    let outer := ring c.cs < ring cs
    { c with
      eip := load c.mem c.esp
      cs := cs
      eflags := load c.mem (c.esp+8#32)
      esp := if outer then load c.mem (c.esp+12#32) else c.esp+12#32
      ss := if outer then segmentOf (load c.mem (c.esp+16#32)) else c.ss }
  | .movEbpEsp, c => { c with ebp := c.esp }
  | .movAx x, c => { c with eax := (c.eax &&& 0xFFFF0000#32) ||| x.setWidth 32 }
  | .movDsAx, c => { c with ds := segmentOf c.eax }
  | .movEsAx, c => { c with es := segmentOf c.eax }
  | .movFsAx, c => { c with fs := segmentOf c.eax }
  | .movGsAx, c => { c with gs := segmentOf c.eax }
  | .movEaxEbp offset, c => { c with eax := load c.mem (c.ebp+offset) }
  | .pushf, c => c.withStack (push c.eflags c.stack)

def execs (code : Code) : List Instr → Cpu → Cpu
  | [], c => c
  | i::is, c => execs code is (exec code i c)

def interruptEntry (number handler ret : Word) : List Instr :=
  [.pushad, .push number, .movEaxEsp, .pushEax, .call handler ret, .addEsp 8#32, .popad, .iretd]

/-! ## What the handler is given -/

structure Regs where
  irqNumber : Word
  edi : Word
  esi : Word
  ebp : Word
  esp : Word
  ebx : Word
  edx : Word
  ecx : Word
  eax : Word
  eip : Word
  cs : Word
  flags : Word
  userEsp : Word
  ss : Word
  deriving DecidableEq, Repr

def regsAt (mem : Ram) (p : Word) : Regs where
  irqNumber := readWord mem p
  edi := readWord mem (p+4#32)
  esi := readWord mem (p+8#32)
  ebp := readWord mem (p+12#32)
  esp := readWord mem (p+16#32)
  ebx := readWord mem (p+20#32)
  edx := readWord mem (p+24#32)
  ecx := readWord mem (p+28#32)
  eax := readWord mem (p+32#32)
  eip := readWord mem (p+36#32)
  cs := readWord mem (p+40#32)
  flags := readWord mem (p+44#32)
  userEsp := readWord mem (p+48#32)
  ss := readWord mem (p+52#32)

def atHandler (number ret : Word) (c : Cpu) : Cpu :=
  let pointer := c.esp-36#32
  { c.withStack (pushes [c.eax, c.ecx, c.edx, c.ebx, c.esp, c.ebp, c.esi, c.edi, number, pointer, ret] c.stack) with
    eax := pointer }

/-- Called in `c`, a C function takes its return address off the stack and stays in
its segment. -/
structure Returns (f : Cpu → Cpu) (c : Cpu) : Prop where
  esp : (f c).esp = c.esp+4#32
  cs : (f c).cs = c.cs

def resumed (r : Regs) (p : Word) (c : Cpu) : Cpu :=
  let outer := ring c.cs < ring (segmentOf r.cs)
  { c with
    edi := r.edi
    esi := r.esi
    ebp := r.ebp
    ebx := r.ebx
    edx := r.edx
    ecx := r.ecx
    eax := r.eax
    eip := r.eip
    cs := segmentOf r.cs
    eflags := r.flags
    esp := if outer then r.userEsp else p+48#32
    ss := if outer then segmentOf r.ss else c.ss }

theorem readWord_load (mem : Ram) (p : Word) : readWord mem p = load mem p := rfl

theorem ring_segmentWord (s : BitVec 16) : segmentOf (segmentWord s) = s := by
  rw [segmentOf, segmentWord, BitVec.setWidth_setWidth_of_le _ (by omega), BitVec.setWidth_eq]

theorem interruptEntry_called (code : Code) (number handler ret : Word) (c : Cpu) :
    execs code (interruptEntry number handler ret) c =
      execs code [.addEsp 8#32, .popad, .iretd] (code handler (atHandler number ret c)) := by
  have hpointer : (pushes [c.eax, c.ecx, c.edx, c.ebx, c.esp, c.ebp, c.esi, c.edi, number] c.stack).top =
      c.esp-36#32 := pushes_top _ _
  have hcalled : exec code (.call handler ret) (exec code .pushEax (exec code .movEaxEsp (exec code (.push number)
      (exec code .pushad c)))) = code handler (atHandler number ret c) := by
    rw [atHandler, ← hpointer]
    rfl
  exact congrArg (execs code [.addEsp 8#32, .popad, .iretd]) hcalled

theorem interruptEntry_returned (code : Code) {left : Cpu} {p : Word} (hesp : left.esp+8#32 = p+4#32) :
    execs code [.addEsp 8#32, .popad, .iretd] left = resumed (regsAt left.mem p) p left := by
  simp only [execs, exec, resumed, regsAt, readWord_load, hesp, BitVec.add_assoc]
  rfl

/-! ## The words on the stack -/

section
variable (tss : TaskState) (g : Gate) (number ret : Word) (c : Cpu)

def saved (e : Word) : Regs where
  irqNumber := number
  edi := c.edi
  esi := c.esi
  ebp := c.ebp
  esp := e
  ebx := c.ebx
  edx := c.edx
  ecx := c.ecx
  eax := c.eax
  eip := c.eip
  cs := segmentWord c.cs
  flags := c.eflags
  userEsp := if ring g.selector < ring c.cs then c.esp else readWord c.mem c.esp
  ss := if ring g.selector < ring c.cs then segmentWord c.ss else readWord c.mem (c.esp+4#32)

def Regs.toList (r : Regs) : List Word :=
  [r.irqNumber, r.edi, r.esi, r.ebp, r.esp, r.ebx, r.edx, r.ecx, r.eax, r.eip, r.cs, r.flags, r.userEsp, r.ss]

theorem regsAt_toList (mem : Ram) (p : Word) : (regsAt mem p).toList = words mem 14 p := by
  simp only [Regs.toList, regsAt, words, readWord_load, BitVec.add_assoc]
  rfl

theorem toList_injective : Function.Injective Regs.toList := fun r r' h => by
  cases r
  cases r'
  simpa [Regs.toList] using h

theorem gateStack_words (e : Word) : words (gateStack tss g c).mem 2 (gateStack tss g c).top =
    [(saved g number c e).userEsp, (saved g number c e).ss] := by
  simp only [gateStack, saved]
  split
  · exact words_pushes [segmentWord c.ss, c.esp] ⟨tss.esp0,c.mem⟩ (n := 0) (by simp)
  · rfl

theorem enterGate_words : words (enterGate tss g c).mem 5 (enterGate tss g c).esp =
    [c.eip, segmentWord c.cs, c.eflags] ++ words (gateStack tss g c).mem 2 (gateStack tss g c).top :=
  words_pushes [c.eflags, segmentWord c.cs, c.eip] (gateStack tss g c) (n := 2) (by simp)

theorem atHandler_words (n : ℕ) (hn : 4*(11+n) ≤ 2^32) :
    words (atHandler number ret c).mem (11+n) (atHandler number ret c).esp =
      [ret, c.esp-36#32, number, c.edi, c.esi, c.ebp, c.esp, c.ebx, c.edx, c.ecx, c.eax] ++ words c.mem n c.esp :=
  words_pushes [c.eax, c.ecx, c.edx, c.ebx, c.esp, c.ebp, c.esi, c.edi, number, c.esp-36#32, ret] c.stack hn

theorem atHandler_esp : (atHandler number ret c).esp = c.esp-44#32 :=
  pushes_top [c.eax, c.ecx, c.edx, c.ebx, c.esp, c.ebp, c.esi, c.edi, number, c.esp-36#32, ret] c.stack

theorem enterGate_esp : (enterGate tss g c).esp = (gateStack tss g c).top-12#32 := pushes_top _ _

/-- The handler sees the registers that were interrupted. -/
theorem regsAt_atHandler : regsAt (atHandler number ret (enterGate tss g c)).mem ((enterGate tss g c).esp-36#32) =
    saved g number c (enterGate tss g c).esp := by
  have hall := atHandler_words number ret (enterGate tss g c) 5 (by omega)
  rw [enterGate_words, gateStack_words tss g number c (enterGate tss g c).esp, show 11+5 = 2+14 by omega, words_add,
    atHandler_esp] at hall
  have hp : (enterGate tss g c).esp-44#32+BitVec.ofNat 32 (4*2) = (enterGate tss g c).esp-36#32 := by bv_omega
  apply toList_injective
  rw [regsAt_toList, ← hp]
  exact congrArg (List.drop 2) hall

theorem outside_gateStack {q : Word} (hq : 8 ≤ (q-(gateStack tss g c).top).toNat ∨ ring c.cs ≤ ring g.selector) :
    (gateStack tss g c).mem q = c.mem q := by
  rw [gateStack] at hq ⊢
  split at hq
  · rename_i h
    rw [if_pos h]
    refine pushes_outside [segmentWord c.ss, c.esp] ⟨tss.esp0,c.mem⟩ (by simp) (hq.resolve_right (by omega))
  · rename_i h
    rw [if_neg h]
    rfl

theorem enterGate_outside {q : Word} (hq : 12 ≤ (q-(enterGate tss g c).esp).toNat) :
    (enterGate tss g c).mem q = (gateStack tss g c).mem q :=
  pushes_outside [c.eflags, segmentWord c.cs, c.eip] (gateStack tss g c) (by simp) hq

theorem atHandler_outside {q : Word} (hq : 44 ≤ (q-(atHandler number ret c).esp).toNat) :
    (atHandler number ret c).mem q = c.mem q :=
  pushes_outside [c.eax, c.ecx, c.edx, c.ebx, c.esp, c.ebp, c.esi, c.edi, number, c.esp-36#32, ret] c.stack
    (by simp) hq

theorem called_segments : (atHandler number ret (enterGate tss g c)).cs = g.selector ∧
    (atHandler number ret (enterGate tss g c)).ds = c.ds ∧ (atHandler number ret (enterGate tss g c)).es = c.es ∧
    (atHandler number ret (enterGate tss g c)).fs = c.fs ∧ (atHandler number ret (enterGate tss g c)).gs = c.gs := by
  simp only [atHandler, enterGate, Cpu.withStack, and_self]

def savedBytes : ℕ := if ring g.selector < ring c.cs then 64 else 56

theorem called_outside {q : Word}
    (hq : savedBytes g c ≤ (q-(atHandler number ret (enterGate tss g c)).esp).toNat) :
    (atHandler number ret (enterGate tss g c)).mem q = c.mem q := by
  rw [savedBytes, atHandler_esp, enterGate_esp] at hq
  have hle : 56 ≤ (q-((gateStack tss g c).top-12#32-44#32)).toNat := by split at hq <;> omega
  calc (atHandler number ret (enterGate tss g c)).mem q = (enterGate tss g c).mem q := by
        apply atHandler_outside
        rw [atHandler_esp, enterGate_esp]
        omega
    _ = (gateStack tss g c).mem q := by
        apply enterGate_outside
        rw [enterGate_esp]
        bv_omega
    _ = c.mem q := by
        apply outside_gateStack
        by_cases h : ring g.selector < ring c.cs
        · rw [if_pos h] at hq
          exact Or.inl (by bv_omega)
        · exact Or.inr (by omega)

end

/-- From any registers, any memory and either ring, the handler gets a pointer to
the registers that were interrupted, nothing outside the saved words has
changed, and what runs afterwards are the registers as the handler left them:
all but the word for `esp`, in whose place the processor's own is used. -/
theorem interrupt_round_trip (code : Code) (tss : TaskState) (g : Gate) (number handler ret : Word) (c : Cpu)
    (hret : Returns (code handler) (atHandler number ret (enterGate tss g c))) :
    let called := atHandler number ret (enterGate tss g c)
    let left := code handler called
    let p := readWord called.mem (called.esp+4#32)
    p = called.esp+8#32 ∧ regsAt called.mem p = saved g number c (p+36#32) ∧
    p+48#32 = (if ring g.selector < ring c.cs then tss.esp0-8#32 else c.esp) ∧
    (∀ q, savedBytes g c ≤ (q-called.esp).toNat → called.mem q = c.mem q) ∧
    execs code (interruptEntry number handler ret) (enterGate tss g c) = resumed (regsAt left.mem p) p left := by
  intro called left p
  have hp : p = (enterGate tss g c).esp-36#32 := by
    have hall := atHandler_words number ret (enterGate tss g c) 0 (by omega)
    exact (List.cons.inj (List.cons.inj hall).2).1
  have htop : (enterGate tss g c).esp+12#32 = (gateStack tss g c).top := by
    rw [enterGate_esp, BitVec.sub_add_cancel]
  have hesp : called.esp = (enterGate tss g c).esp-44#32 := atHandler_esp number ret _
  refine ⟨by rw [hp, hesp]; bv_omega,?_,?_,fun q hq => called_outside tss g number ret c hq,?_⟩
  · rw [hp, BitVec.sub_add_cancel]
    exact regsAt_atHandler tss g number ret c
  · rw [hp, show (enterGate tss g c).esp-36#32+48#32 = (enterGate tss g c).esp+12#32 by bv_omega, htop, gateStack]
    split
    · exact pushes_top _ _
    · rfl
  · rw [interruptEntry_called]
    apply interruptEntry_returned
    change left.esp+8#32 = p+4#32
    rw [show left.esp = called.esp+4#32 from hret.esp, hp, hesp]
    bv_omega

def userCpu : Cpu where
  edi := 1#32
  esi := 2#32
  ebp := 3#32
  esp := 0xBFFFF000#32
  ebx := 4#32
  edx := 5#32
  ecx := 6#32
  eax := 7#32
  eip := 0x1000#32
  eflags := 0x202#32
  cs := 0x1b#16
  ss := 0x23#16
  ds := 0x23#16
  es := 0x23#16
  fs := 0x23#16
  gs := 0x23#16
  mem := fun _ => 0#8

def kernelStack : TaskState := ⟨0xC0801000#32, 0x10#16⟩

def systemCall : Gate := ⟨0xC0100500#32, 8#16, 0xEE#8⟩

def answering : Code := fun _ c =>
  { c with esp := c.esp+4#32, mem := store (readWord c.mem (c.esp+4#32)+32#32) 42#32 c.mem }

theorem call_answered : (execs answering (interruptEntry 80#32 0xC0102000#32 0xC0100510#32)
    (enterGate kernelStack systemCall userCpu)).eax = 42#32 := by
  have hret : ∀ c, Returns (answering 0xC0102000#32) c := fun c => ⟨rfl,rfl⟩
  rw [(interrupt_round_trip answering kernelStack systemCall 80#32 0xC0102000#32 0xC0100510#32 userCpu
    (hret _)).2.2.2.2]
  exact load_store _ _ _

/-! ## A program that is interrupted

The program runs in ring 3 and has no use for the addresses in `K`.
-/

structure Stub where
  gate : Gate
  number : Word
  handler : Word
  ret : Word
  deriving DecidableEq

inductive Event where
  | run
  | interrupt (s : Stub)
  deriving DecidableEq

def taskStateAt (task : Word) (mem : Ram) : TaskState := ⟨load mem (task+4#32), segmentOf (load mem (task+8#32))⟩

/-- The stack of the kernel is read from the task state at each interrupt. -/
def happen (code : Code) (task : Word) (prog : Cpu → Cpu) : Event → Cpu → Cpu
  | .run, c => prog c
  | .interrupt s, c => execs code (interruptEntry s.number s.handler s.ret) (enterGate (taskStateAt task c.mem) s.gate c)

def happens (code : Code) (task : Word) (prog : Cpu → Cpu) : List Event → Cpu → Cpu
  | [], c => c
  | e::es, c => happens code task prog es (happen code task prog e c)

def Agree (K : Word → Prop) (c c' : Cpu) : Prop := { c with mem := c'.mem } = c' ∧ ∀ q, ¬ K q → c.mem q = c'.mem q

structure UserCode (K : Word → Prop) (prog : Cpu → Cpu) : Prop where
  agree : ∀ c c', Agree K c c' → ring c.cs = 3 → Agree K (prog c) (prog c')
  stays : ∀ c, ring c.cs = 3 → ring (prog c).cs = 3

/-- Called in `c`, a handler returns, leaves the saved words as they are, but for
the number and the word for `esp`, and writes in `K` only. -/
structure Discreet (K : Word → Prop) (f : Cpu → Cpu) (c : Cpu) : Prop where
  returns : Returns f c
  segments : (f c).ds = c.ds ∧ (f c).es = c.es ∧ (f c).fs = c.fs ∧ (f c).gs = c.gs
  outside : ∀ q, ¬ K q → (f c).mem q = c.mem q
  frame : ∃ number e,
    regsAt (f c).mem (c.esp+8#32) = { regsAt c.mem (c.esp+8#32) with irqNumber := number, esp := e }

def Quiet (K : Word → Prop) (code : Code) (task : Word) (c : Cpu) : Event → Prop
  | .run => True
  | .interrupt s => ring s.gate.selector = 0 ∧ (∀ q, (q-((taskStateAt task c.mem).esp0-64#32)).toNat < 64 → K q) ∧
    Discreet K (code s.handler) (atHandler s.number s.ret (enterGate (taskStateAt task c.mem) s.gate c))

def AllQuiet (K : Word → Prop) (code : Code) (task : Word) (prog : Cpu → Cpu) (events : List Event) (c : Cpu) : Prop :=
  Transition.Guarded (fun c e => some (happen code task prog e c)) (Quiet K code task) events c

section
variable {K : Word → Prop} {code : Code} {task : Word} {prog : Cpu → Cpu}

theorem agree_refl (c : Cpu) : Agree K c c := ⟨rfl,fun _ _ => rfl⟩

theorem Agree.trans {c c' c'' : Cpu} (h : Agree K c c') (h' : Agree K c' c'') : Agree K c c'' := by
  refine ⟨?_,fun q hq => (h.2 q hq).trans (h'.2 q hq)⟩
  rw [← h'.1, ← h.1]

theorem Agree.ring {c c' : Cpu} (h : Agree K c c') : InterruptEntry.ring c.cs = InterruptEntry.ring c'.cs := by
  rw [← h.1]

theorem resumed_saved {g : Gate} {number e : Word} {c left : Cpu} {r : Regs} {p : Word}
    (hr : ∃ number' e', r = { saved g number c e with irqNumber := number', esp := e' })
    (hg : ring g.selector = 0) (hcs : left.cs = g.selector) (hring : ring c.cs = 3)
    (hseg : left.ds = c.ds ∧ left.es = c.es ∧ left.fs = c.fs ∧ left.gs = c.gs) :
    { resumed r p left with mem := c.mem } = c := by
  obtain ⟨number',e',rfl⟩ := hr
  have hlt : ring g.selector < ring c.cs := by omega
  obtain ⟨hds,hes,hfs,hgs⟩ := hseg
  simp only [resumed, saved, ring_segmentWord, hcs, if_pos hlt, hds, hes, hfs, hgs]

/-- From ring 3 the handler is called on a fresh stack of the kernel. -/
theorem called_from_user (tss : TaskState) {g : Gate} (number ret : Word) {c : Cpu} (hg : ring g.selector = 0)
    (hring : ring c.cs = 3) : (atHandler number ret (enterGate tss g c)).esp = tss.esp0-64#32 ∧
      ∀ q, 64 ≤ (q-(tss.esp0-64#32)).toNat → (atHandler number ret (enterGate tss g c)).mem q = c.mem q := by
  have hlt : ring g.selector < ring c.cs := by omega
  have hesp : (atHandler number ret (enterGate tss g c)).esp = tss.esp0-64#32 := by
    have htop : (pushes [segmentWord c.ss, c.esp] ⟨tss.esp0, c.mem⟩).top = tss.esp0-8#32 := pushes_top _ _
    rw [atHandler_esp, enterGate_esp, gateStack, if_pos hlt, htop]
    bv_omega
  refine ⟨hesp,fun q hq => called_outside tss g number ret c ?_⟩
  rw [savedBytes, if_pos hlt, hesp]
  exact hq

theorem happen_mem {s : Stub} {c : Cpu} : (happen code task prog (.interrupt s) c).mem =
    (code s.handler (atHandler s.number s.ret (enterGate (taskStateAt task c.mem) s.gate c))).mem := by
  rw [happen, interruptEntry_called]
  rfl

theorem interrupt_agree {s : Stub} {c : Cpu} (hq : Quiet K code task c (.interrupt s)) (hring : ring c.cs = 3) :
    Agree K (happen code task prog (.interrupt s) c) c := by
  obtain ⟨hg,hK,hf⟩ := hq
  obtain ⟨tss,htss⟩ : ∃ tss, tss = taskStateAt task c.mem := ⟨_,rfl⟩
  rw [← htss] at hK hf
  obtain ⟨hp,hregs,-,-,hresumed⟩ := interrupt_round_trip code tss s.gate s.number s.handler s.ret c hf.returns
  obtain ⟨hesp,hmem⟩ := called_from_user tss s.number s.ret hg hring
  obtain ⟨hcs,hds,hes,hfs,hgs⟩ := called_segments tss s.gate s.number s.ret c
  obtain ⟨called,hcalled⟩ : ∃ called, called = atHandler s.number s.ret (enterGate tss s.gate c) := ⟨_,rfl⟩
  rw [← hcalled] at hp hregs hresumed hesp hmem hcs hds hes hfs hgs hf
  obtain ⟨number,e,hframe⟩ := hf.frame
  rw [hp] at hregs hresumed
  rw [hregs] at hframe
  rw [happen, ← htss, hresumed]
  obtain ⟨hds',hes',hfs',hgs'⟩ := hf.segments
  have hregisters := resumed_saved ⟨number,e,hframe⟩ (p := called.esp+8#32) hg (hf.returns.cs.trans hcs) hring
    ⟨hds'.trans hds,hes'.trans hes,hfs'.trans hfs,hgs'.trans hgs⟩
  refine ⟨hregisters,fun q hq => ?_⟩
  change (code s.handler called).mem q = c.mem q
  rw [hf.outside q hq]
  apply hmem
  by_contra hlt
  exact hq (hK q (by omega))

/-- The program without interrupts may have other contents in `K`. -/
theorem happens_agree {events : List Event} {c c' : Cpu} (hprog : UserCode K prog)
    (hquiet : AllQuiet K code task prog events c) (hring : ring c.cs = 3) (hc : Agree K c c') :
    Agree K (happens code task prog events c) (prog^[events.count .run] c') := by
  induction events generalizing c c' with
  | nil => exact hc
  | cons e events ih =>
    obtain ⟨hq,hrest⟩ := hquiet _ rfl
    cases e with
    | run =>
      rw [List.count_cons_self, Function.iterate_succ_apply]
      exact ih hrest (hprog.stays c hring) (hprog.agree c c' hc hring)
    | interrupt s =>
      have hstep : Agree K (happen code task prog (.interrupt s) c) c := interrupt_agree hq hring
      rw [List.count_cons_of_ne (by simp)]
      exact ih hrest (by rw [hstep.ring, hring]) (hstep.trans hc)

end

/-- Whatever interrupts come in, and wherever they do, a program in ring 3 computes
what it computes without them. -/
theorem interrupts_transparent (K : Word → Prop) (code : Code) (task : Word) (prog : Cpu → Cpu)
    (events : List Event) (c : Cpu) (hprog : UserCode K prog) (hquiet : AllQuiet K code task prog events c)
    (hring : ring c.cs = 3) :
    Agree K (happens code task prog events c) (prog^[events.count .run] c) :=
  happens_agree hprog hquiet hring (agree_refl c)

/-! ## Handlers in C -/

/-- A call of a C function with all it calls: what it leaves in the registers that
are not preserved, the words below its return address, and the bytes that its
statements store. -/
structure CCall where
  eax : Word
  ecx : Word
  edx : Word
  eflags : Word
  frame : List Word
  stores : List (Word × Byte)

def storeAll : List (Word × Byte) → Ram → Ram
  | [], mem => mem
  | (a, b)::stores, mem => storeAll stores (Function.update mem a b)

def CCall.run (k : CCall) (c : Cpu) : Cpu :=
  { c with
    eax := k.eax
    ecx := k.ecx
    edx := k.edx
    eflags := k.eflags
    esp := c.esp+4#32
    mem := storeAll k.stores (pushes k.frame c.stack).mem }

/-- `default_irq_handler`: the handler of the number in the record, or a line of the
log. `irq_ack` writes to a port and to no memory. -/
def defaultIrqHandler (irqHandlers : Word → Option CCall) (logPrint : CCall) (c : Cpu) : Cpu :=
  ((irqHandlers (readWord c.mem (readWord c.mem (c.esp+4#32)))).getD logPrint).run c

/-- The frame of the call and its stores stay in `K`, and its stores off the saved
words, when its stack pointer is `esp`. -/
structure CCall.Confined (K : Word → Prop) (esp : Word) (k : CCall) : Prop where
  short : 4*k.frame.length+64 ≤ 2^32
  frame : ∀ q, (q-(esp-BitVec.ofNat 32 (4*k.frame.length))).toNat < 4*k.frame.length → K q
  stores : ∀ p ∈ k.stores, K p.1 ∧ 64 ≤ (p.1-esp).toNat

section
variable {K : Word → Prop} {k : CCall} {c : Cpu}

theorem storeAll_outside {stores : List (Word × Byte)} {mem : Ram} {q : Word} (h : ∀ p ∈ stores, p.1 ≠ q) :
    storeAll stores mem q = mem q := by
  induction stores generalizing mem with
  | nil => rfl
  | cons p stores ih =>
    obtain ⟨hp,hrest⟩ := List.forall_mem_cons.mp h
    rw [storeAll, ih hrest, Function.update_of_ne hp.symm]

theorem run_outside (hshort : 4*k.frame.length ≤ 2^32) {q : Word}
    (hframe : 4*k.frame.length ≤ (q-(c.esp-BitVec.ofNat 32 (4*k.frame.length))).toNat) (hstores : ∀ p ∈ k.stores, p.1 ≠ q) :
    (k.run c).mem q = c.mem q := by
  refine (storeAll_outside hstores).trans (pushes_outside k.frame c.stack hshort ?_)
  rw [pushes_top]
  exact hframe

/-- A C function whose stores are confined is discreet. -/
theorem run_discreet (h : k.Confined K c.esp) : Discreet K k.run c := by
  have hshort := h.short
  refine ⟨⟨rfl,rfl⟩,⟨rfl,rfl,rfl,rfl⟩,fun q hq => run_outside (by omega) ?_ fun p hp he => hq (he ▸ (h.stores p hp).1),?_⟩
  · by_contra hlt
    exact hq (h.frame q (by omega))
  · refine ⟨(regsAt c.mem (c.esp+8#32)).irqNumber,(regsAt c.mem (c.esp+8#32)).esp,toList_injective ?_⟩
    rw [regsAt_toList, regsAt_toList]
    refine words_congr 14 fun j hj => run_outside (by omega) (by bv_omega) fun p hp he => ?_
    have hfar := (h.stores p hp).2
    rw [he] at hfar
    bv_omega

theorem defaultIrqHandler_discreet {irqHandlers : Word → Option CCall} {logPrint : CCall}
    (hlog : logPrint.Confined K c.esp) (hall : ∀ n k, irqHandlers n = some k → k.Confined K c.esp) :
    Discreet K (defaultIrqHandler irqHandlers logPrint) c := by
  have hrun : ∀ k : CCall, defaultIrqHandler irqHandlers logPrint c = k.run c → k.Confined K c.esp →
      Discreet K (defaultIrqHandler irqHandlers logPrint) c := fun k he hk => by
    obtain ⟨⟨hesp,hcs⟩,hseg,hout,hframe⟩ := run_discreet hk
    rw [← he] at hesp hcs hseg hout hframe
    exact ⟨⟨hesp,hcs⟩,hseg,hout,hframe⟩
  cases hn : irqHandlers (readWord c.mem (readWord c.mem (c.esp+4#32))) with
  | none => exact hrun logPrint (by rw [defaultIrqHandler, hn]; rfl) hlog
  | some k => exact hrun k (by rw [defaultIrqHandler, hn]; rfl) (hall _ k hn)

end

/-! ## Runs on one stack -/

theorem taskStateAt_congr {task : Word} {mem mem' : Ram} (h : ∀ q : Word, (q-task).toNat < 12 → mem' q = mem q) :
    taskStateAt task mem' = taskStateAt task mem := by
  have hword : ∀ i, i+4 ≤ 12 → load mem' (task+BitVec.ofNat 32 i) = load mem (task+BitVec.ofNat 32 i) := fun i hi =>
    load_congr fun k hk => h _ (by bv_omega)
  exact congrArg₂ TaskState.mk (hword 4 (by omega)) (congrArg segmentOf (hword 8 (by omega)))

/-- Where nothing writes the task state, it is enough that handlers are discreet
on the one stack in it. -/
theorem allQuiet_of_steady {K : Word → Prop} {code : Code} {task : Word} {prog : Cpu → Cpu} {events : List Event}
    {c : Cpu} {tss : TaskState} (hK : ∀ q, (q-(tss.esp0-64#32)).toNat < 64 → K q)
    (hapart : ∀ q, (q-task).toNat < 12 → 64 ≤ (q-(tss.esp0-64#32)).toNat)
    (hprog : ∀ c, ring c.cs = 3 → ring (prog c).cs = 3 ∧ ∀ q, (q-task).toNat < 12 → (prog c).mem q = c.mem q)
    (hstubs : ∀ s, .interrupt s ∈ events → ring s.gate.selector = 0 ∧ ∀ c, c.esp = tss.esp0-64#32 →
      Discreet K (code s.handler) c ∧ ∀ q, (q-task).toNat < 12 → (code s.handler c).mem q = c.mem q)
    (hring : ring c.cs = 3) (hc : taskStateAt task c.mem = tss) : AllQuiet K code task prog events c := by
  induction events generalizing c with
  | nil => trivial
  | cons e events ih =>
    have hrest := fun s hs => hstubs s (List.mem_cons_of_mem e hs)
    intro c' hc'
    cases hc'
    cases e with
    | run =>
      obtain ⟨hstays,hsame⟩ := hprog c hring
      exact ⟨trivial,ih hrest hstays ((taskStateAt_congr hsame).trans hc)⟩
    | interrupt s =>
      obtain ⟨hg,hall⟩ := hstubs s (List.mem_cons_self ..)
      obtain ⟨hesp,hmem⟩ := called_from_user tss s.number s.ret hg hring
      obtain ⟨hf,hleft⟩ := hall _ hesp
      have hq : Quiet K code task c (.interrupt s) := by
        rw [Quiet, hc]
        exact ⟨hg,hK,hf⟩
      have hagree : Agree K (happen code task prog (.interrupt s) c) c := interrupt_agree hq hring
      refine ⟨hq,ih hrest (by rw [hagree.ring, hring]) ?_⟩
      rw [← hc]
      refine taskStateAt_congr fun q hq => ?_
      rw [happen_mem, hc, hleft q hq, hmem q (hapart q hq)]

/-! ## A program, the keyboard and the timer -/

def InKernel (q : Word) : Prop := 0xC0000000 ≤ q.toNat

instance (q : Word) : Decidable (InKernel q) := inferInstanceAs (Decidable (_ ≤ _))

/-- The keyboard tells that a key was let go of: `keyboard_irq` reads two ports and
stores nothing. -/
def keyboardIrq : CCall := ⟨0xB0#32, 0#32, 0x60#32, 0x86#32, [0xC0102040#32, 0x64#32, 0xC0102050#32, 0x60#32], []⟩

def logPrint : CCall :=
  ⟨0#32, 0#32, 0xC0800000#32, 0x46#32, [0xC0103000#32, 1#32], [(0xC0800000#32, 0x5B#8), (0xC0800001#32, 0x0D#8)]⟩

def kernelCode : Code := fun _ => defaultIrqHandler (fun n => if n = 1#32 then some keyboardIrq else none) logPrint

def timerStub : Stub := ⟨⟨0xC0100400#32, 8#16, 0x8E#8⟩, 0#32, 0xC0102000#32, 0xC0100410#32⟩
def keyboardStub : Stub := ⟨⟨0xC0100420#32, 8#16, 0x8E#8⟩, 1#32, 0xC0102000#32, 0xC0100430#32⟩

def storing (c : Cpu) : Cpu :=
  { c with eax := c.eax+1#32, mem := Function.update c.mem 0x2000#32 (c.eax.setWidth 8) }

theorem storing_userCode : UserCode InKernel storing := by
  refine ⟨fun c c' h _ => ⟨?_,fun q hq => ?_⟩,fun c h => h⟩
  · rw [storing, storing, ← h.1]
  · have heax : c'.eax = c.eax := by rw [← h.1]
    change Function.update c.mem 0x2000#32 (c.eax.setWidth 8) q =
      Function.update c'.mem 0x2000#32 (c'.eax.setWidth 8) q
    rw [heax]
    by_cases hq' : q = 0x2000#32
    · rw [hq', Function.update_self, Function.update_self]
    · rw [Function.update_of_ne hq', Function.update_of_ne hq', h.2 q hq]

theorem keyboardIrq_confined : keyboardIrq.Confined InKernel 0xC0804FC0#32 := by
  refine ⟨by decide,fun q hq => ?_,by simp [keyboardIrq]⟩
  change (q-(0xC0804FC0#32-16#32)).toNat < 16 at hq
  rw [InKernel]
  bv_omega

theorem logPrint_confined : logPrint.Confined InKernel 0xC0804FC0#32 := by
  refine ⟨by decide,fun q hq => ?_,?_⟩
  · change (q-(0xC0804FC0#32-8#32)).toNat < 8 at hq
    rw [InKernel]
    bv_omega
  · simp only [logPrint, List.forall_mem_cons, List.not_mem_nil, false_implies, implies_true, and_true]
    decide

def kernelStackTop : Word := 0xC0805000#32
def taskStateAddress : Word := 0xC0300000#32

theorem kernelCode_discreet {handler : Word} {c : Cpu} (hc : c.esp = kernelStackTop-64#32) :
    Discreet InKernel (kernelCode handler) c ∧
      ∀ q, (q-taskStateAddress).toNat < 12 → (kernelCode handler c).mem q = c.mem q := by
  have hesp : c.esp = 0xC0804FC0#32 := hc
  have hsome : ∀ n k, (if n = (1#32 : Word) then some keyboardIrq else none) = some k → k = keyboardIrq := by
    intro n k hk
    split at hk <;> cases hk
    rfl
  refine ⟨defaultIrqHandler_discreet (by rw [hesp]; exact logPrint_confined) fun n k hk => ?_,fun q hq => ?_⟩
  · rw [hsome n k hk, hesp]
    exact keyboardIrq_confined
  · have hkeep : ∀ k : CCall, k = keyboardIrq ∨ k = logPrint → (k.run c).mem q = c.mem q := by
      rw [taskStateAddress] at hq
      rintro k (rfl | rfl)
      · refine run_outside (by decide) ?_ (by simp [keyboardIrq])
        change 16 ≤ (q-(c.esp-16#32)).toNat
        rw [hesp]
        bv_omega
      · refine run_outside (by decide) ?_ ?_
        · change 8 ≤ (q-(c.esp-8#32)).toNat
          rw [hesp]
          bv_omega
        · simp only [logPrint, List.forall_mem_cons, List.not_mem_nil, false_implies, implies_true, and_true]
          exact ⟨fun he => by bv_omega,fun he => by bv_omega⟩
    rw [kernelCode, defaultIrqHandler]
    split_ifs
    · exact hkeep _ (Or.inl rfl)
    · exact hkeep _ (Or.inr rfl)

theorem storing_quiet {events : List Event} {c : Cpu}
    (hstubs : ∀ s, .interrupt s ∈ events → s = keyboardStub ∨ s = timerStub) (hring : ring c.cs = 3)
    (hc : taskStateAt taskStateAddress c.mem = ⟨kernelStackTop, 0x10#16⟩) :
    AllQuiet InKernel kernelCode taskStateAddress storing events c := by
  refine allQuiet_of_steady (fun q hq => ?_) (fun q hq => ?_) (fun c hc => ⟨hc,fun q hq => ?_⟩)
    (fun s hs => ⟨?_,fun c hc => kernelCode_discreet hc⟩) hring hc
  · rw [kernelStackTop] at hq
    rw [InKernel]
    bv_omega
  · rw [taskStateAddress] at hq
    rw [kernelStackTop]
    bv_omega
  · refine Function.update_of_ne (fun he => ?_) _ _
    rw [he, taskStateAddress] at hq
    revert hq
    decide
  · obtain rfl | rfl := hstubs s hs <;> decide

def taskMem : Ram := store (taskStateAddress+8#32) 0x10#32 (store (taskStateAddress+4#32) kernelStackTop fun _ => 0#8)

theorem three_steps_interrupted : Agree InKernel
    (happens kernelCode taskStateAddress storing
      [.run, .interrupt keyboardStub, .run, .interrupt timerStub, .run] { userCpu with mem := taskMem })
    (storing^[3] { userCpu with mem := taskMem }) := by
  have htask : taskStateAt taskStateAddress taskMem = ⟨kernelStackTop, 0x10#16⟩ := by decide
  refine interrupts_transparent InKernel kernelCode taskStateAddress storing _ _ storing_userCode
    (storing_quiet (fun s hs => ?_) (by decide) htask) (by decide)
  simpa using hs

end MikeOS.InterruptEntry
