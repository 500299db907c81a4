import MikeOS.FileModes
import MikeOS.Library.Transition

/-!
# The text screen

The cursor is two unsigned words and a byte is written at an offset from
`vga_buffer`, so both wrap. What was written is kept as a record, the last
write first. A call through an entry of the table of handlers that does not
exist gives no state.
-/

set_option autoImplicit false

namespace MikeOS.Vga
open FileModes (CStr)

structure State where
  x : Word
  y : Word
  color : Byte
  written : List (Word × Byte)
  deriving DecidableEq, Repr

def screenCols : Word := 80#32
def screenRows : Word := 25#32
def colorBlack : Byte := 0#8

def space : Byte := 0x20#8
def newline : Byte := 0x0A#8
def tab : Byte := 0x09#8
def carriageReturn : Byte := 0x0D#8
def backspace : Byte := 0x08#8

def State.write (s : State) (offset : Word) (value : Byte) : State :=
  { s with written := (offset, value)::s.written }

def getAddressByLocation (x y : Word) : Word := x*2#32+y*screenCols*2#32

def yReachedLimit (s : State) : Bool := s.y > screenRows
def xReachedLimit (s : State) : Bool := s.x > screenCols

def flushRounds (rounds : List ℕ) (s : State) : State :=
  rounds.foldl (fun s k => (s.write (BitVec.ofNat 32 (2*k)) space).write (BitVec.ofNat 32 (2*k)+1#32) colorBlack) s

def vgaFlush (s : State) : State := { flushRounds (List.range 2000) s with x := 0#32, y := 0#32 }

def newlineHandler (s : State) : State :=
  let s := { s with y := s.y+1#32, x := 0#32 }
  if yReachedLimit s then vgaFlush s else s

def tabHandler (s : State) : State :=
  let s := { s with x := s.x+4#32 }
  if xReachedLimit s then newlineHandler s else s

def defaultHandler (c : Byte) (s : State) : State :=
  let addr := getAddressByLocation s.x s.y
  let s := (s.write addr c).write (addr+1#32) s.color
  let s := { s with x := s.x+1#32 }
  if xReachedLimit s then newlineHandler s else s

def specialCharacters : List Byte := [newline, tab, carriageReturn, backspace]

inductive Handler where
  | newline
  | tab
  | backspace
  deriving DecidableEq, Repr

def specialCharactersHandlers : List Handler := [.newline, .tab, .backspace]

def getSpecialCharacterIndex (c : Byte) : Word :=
  match specialCharacters.idxOf? c with
  | some i => BitVec.ofNat 32 i
  | none => -1#32

/-- `vga_putc`, with what the entry for backspace does as an argument. -/
def putcWith (backspaceHandler : State → Option State) (c : Byte) (s : State) : Option State :=
  let handlerIndex := getSpecialCharacterIndex c
  if handlerIndex ≠ -1#32 then
    match specialCharactersHandlers[handlerIndex.toNat]? with
    | none => none
    | some .newline => some (newlineHandler s)
    | some .tab => some (tabHandler s)
    | some .backspace => backspaceHandler s
  else some (defaultHandler c s)

/-- The call of `vga_putc` in here is made with a space, which is not special. -/
def backspaceHandler (s : State) : Option State :=
  if s.x-1#32 ≥ 0#32 then
    (putcWith some space { s with x := s.x-1#32 }).map fun s => { s with x := s.x-1#32 }
  else some s

def vgaPutc (c : Byte) (s : State) : Option State := putcWith backspaceHandler c s

def vgaPrint : List Byte → State → Option State
  | [], s => some s
  | c::str, s => (vgaPutc c s).bind (vgaPrint str)

theorem putcWith_space (handler : State → Option State) (s : State) : putcWith handler space s = vgaPutc space s :=
  rfl

/-! ## Calls and the characters they put -/

inductive Call where
  | putc (c : Byte)
  | print (str : CStr)
  | flush

inductive Step where
  | putc (c : Byte)
  | flush
  deriving DecidableEq, Repr

def Call.steps : Call → List Step
  | .putc c => [.putc c]
  | .print str => str.1.map .putc
  | .flush => [.flush]

/-- No state at all stands for what follows an undefined call. -/
def step (s : Option State) : Step → Option (Option State)
  | .putc c => some (s.bind (vgaPutc c))
  | .flush => some (s.map vgaFlush)

def perform (s : State) : Call → Option State
  | .putc c => vgaPutc c s
  | .print str => vgaPrint str.1 s
  | .flush => some (vgaFlush s)

theorem run_putcs (str : List Byte) (s : Option State) :
    Transition.run step (str.map .putc) s = some (s.bind (vgaPrint str)) := by
  induction str generalizing s with
  | nil => cases s <;> rfl
  | cons c str ih =>
    rw [List.map_cons, Transition.run_cons, step, Option.bind_some, ih, Option.bind_assoc]
    rfl

/-- A call is the run of its steps. -/
theorem perform_steps (s : State) (call : Call) :
    Transition.run step call.steps (some s) = some (perform s call) := by
  cases call with
  | putc c => rfl
  | print str => exact run_putcs str.1 (some s)
  | flush => rfl

/-! ## What is promised of the screen -/

def OnScreen (s : State) : Prop :=
  s.x.toNat < 80 ∧ s.y.toNat < 25 ∧ ∀ w ∈ s.written, w.1.toNat < 80*25*2

def Safe (s : Option State) : Prop := ∃ t, s = some t ∧ OnScreen t

def start (x y : Word) (color : Byte) : State := vgaFlush ⟨x, y, color, []⟩

def Fits (s : Option State) : Step → Prop
  | .flush => True
  | .putc c => ∀ t ∈ s,
    if c = backspace then False
    else if c = carriageReturn then 1 ≤ t.x.toNat
    else if c = newline then t.y.toNat+1 < 25
    else if c = tab then t.x.toNat+4 < 80 ∨ 80 < t.x.toNat+4 ∧ t.y.toNat+1 < 25
    else t.x.toNat+1 < 80

/-! ## Handlers on the screen -/

theorem flushRounds_written (rounds : List ℕ) (hr : ∀ k ∈ rounds, k < 2000) (s : State)
    (h : ∀ w ∈ s.written, w.1.toNat < 80*25*2) : ∀ w ∈ (flushRounds rounds s).written, w.1.toNat < 80*25*2 := by
  induction rounds generalizing s with
  | nil => exact h
  | cons k rounds ih =>
    have hk := hr k (by simp)
    refine ih (fun i hi => hr i (by simp [hi])) _ ?_
    simp only [State.write, List.forall_mem_cons]
    refine ⟨?_,?_,h⟩
    · rw [BitVec.toNat_add, BitVec.toNat_ofNat, BitVec.toNat_ofNat]
      omega
    · rw [BitVec.toNat_ofNat]
      omega

theorem vgaFlush_onScreen {s : State} (h : ∀ w ∈ s.written, w.1.toNat < 80*25*2) : OnScreen (vgaFlush s) := by
  unfold vgaFlush
  have hw := flushRounds_written (List.range 2000) (fun _ hk => List.mem_range.mp hk) s h
  generalize flushRounds (List.range 2000) s = t at hw
  exact ⟨show (0#32).toNat < 80 by decide,show (0#32).toNat < 25 by decide,hw⟩

theorem xReachedLimit_iff (s : State) : xReachedLimit s = true ↔ 80 < s.x.toNat := decide_eq_true_iff

theorem yReachedLimit_iff (s : State) : yReachedLimit s = true ↔ 25 < s.y.toNat := decide_eq_true_iff

theorem newlineHandler_eq {s : State} (h : s.y.toNat < 25) :
    newlineHandler s = { s with y := s.y+1#32, x := 0#32 } := by
  have hlimit : ¬ yReachedLimit { s with y := s.y+1#32, x := 0#32 } = true := by
    rw [yReachedLimit_iff]
    bv_omega
  exact if_neg hlimit

theorem newlineHandler_onScreen_iff {s : State} (hy : s.y.toNat < 25)
    (hw : ∀ w ∈ s.written, w.1.toNat < 80*25*2) : OnScreen (newlineHandler s) ↔ s.y.toNat+1 < 25 := by
  rw [newlineHandler_eq hy]
  have hnext : (s.y+1#32).toNat = s.y.toNat+1 := by bv_omega
  constructor
  · rintro ⟨-,h,-⟩
    rwa [← hnext]
  · intro h
    exact ⟨show (0#32).toNat < 80 by decide,hnext.trans_lt h,hw⟩

theorem tabHandler_onScreen_iff {s : State} (h : OnScreen s) :
    OnScreen (tabHandler s) ↔ s.x.toNat+4 < 80 ∨ 80 < s.x.toNat+4 ∧ s.y.toNat+1 < 25 := by
  obtain ⟨hx,hy,hw⟩ := h
  have hnext : (s.x+4#32).toNat = s.x.toNat+4 := by bv_omega
  by_cases hlimit : 80 < s.x.toNat+4
  · have htab : tabHandler s = newlineHandler { s with x := s.x+4#32 } := by
      apply if_pos
      rw [xReachedLimit_iff]
      exact hnext ▸ hlimit
    rw [htab, newlineHandler_onScreen_iff (s := { s with x := s.x+4#32 }) hy hw]
    simp only
    omega
  · have htab : tabHandler s = { s with x := s.x+4#32 } := by
      apply if_neg
      rw [xReachedLimit_iff]
      exact hnext ▸ hlimit
    rw [htab]
    simp only [OnScreen, hnext]
    have hgoal : s.x.toNat+4 < 80 ∨ 80 < s.x.toNat+4 ∧ s.y.toNat+1 < 25 ↔ s.x.toNat+4 < 80 := by omega
    rw [hgoal]
    exact ⟨fun h => h.1,fun h => ⟨h,hy,hw⟩⟩

/-- A character put at any column left of the limit, or at the one before
column zero, only moves the cursor on. -/
theorem defaultHandler_eq (c : Byte) {s : State} (h : (s.x+1#32).toNat ≤ 80) :
    defaultHandler c s = { s with
      x := s.x+1#32
      written := (getAddressByLocation s.x s.y+1#32, s.color)::(getAddressByLocation s.x s.y, c)::s.written } := by
  apply if_neg
  rw [xReachedLimit_iff]
  exact not_lt.mpr h

theorem written_onScreen {x y : Word} {a b : Byte} {written : List (Word × Byte)} (hx : x.toNat < 80)
    (hy : y.toNat < 25) (hw : ∀ w ∈ written, w.1.toNat < 80*25*2) :
    ∀ w ∈ (getAddressByLocation x y+1#32, a)::(getAddressByLocation x y, b)::written, w.1.toNat < 80*25*2 := by
  have haddr : (getAddressByLocation x y).toNat = 2*x.toNat+160*y.toNat := by
    simp only [getAddressByLocation, screenCols]
    bv_omega
  simp only [List.forall_mem_cons]
  refine ⟨?_,by omega,hw⟩
  rw [BitVec.toNat_add, haddr]
  bv_omega

theorem defaultHandler_onScreen_iff (c : Byte) {s : State} (h : OnScreen s) :
    OnScreen (defaultHandler c s) ↔ s.x.toNat+1 < 80 := by
  obtain ⟨hx,hy,hw⟩ := h
  have hnext : (s.x+1#32).toNat = s.x.toNat+1 := by bv_omega
  rw [defaultHandler_eq c (by omega)]
  constructor
  · rintro ⟨h,-⟩
    rwa [← hnext]
  · intro h
    exact ⟨hnext.trans_lt h,hy,written_onScreen hx hy hw⟩

theorem backspaceHandler_eq (s : State) : backspaceHandler s =
    some { defaultHandler space { s with x := s.x-1#32 } with
      x := (defaultHandler space { s with x := s.x-1#32 }).x-1#32 } := by
  rw [backspaceHandler, if_pos (by bv_omega), putcWith_space]
  rfl

theorem backspaceHandler_safe_iff {s : State} (h : OnScreen s) : Safe (backspaceHandler s) ↔ 1 ≤ s.x.toNat := by
  obtain ⟨hx,hy,hw⟩ := h
  rw [backspaceHandler_eq, defaultHandler_eq space (by simp only; bv_omega)]
  constructor
  · rintro ⟨t,ht,hscreen,-⟩
    rw [← Option.some.inj ht] at hscreen
    bv_omega
  · intro h
    refine ⟨_,rfl,?_,hy,written_onScreen ?_ hy hw⟩
    · bv_omega
    · bv_omega

/-! ## Runs -/

theorem safe_some {s : State} : Safe (some s) ↔ OnScreen s := by
  constructor
  · rintro ⟨t,ht,h⟩
    rwa [Option.some.inj ht]
  · exact fun h => ⟨s,rfl,h⟩

theorem vgaPutc_other {c : Byte} (h : c ∉ specialCharacters) (s : State) :
    vgaPutc c s = some (defaultHandler c s) := by
  have hindex : getSpecialCharacterIndex c = -1#32 := by
    rw [getSpecialCharacterIndex, List.idxOf?_eq_none_iff.mpr h]
  simp only [vgaPutc, putcWith, hindex, ne_eq, not_true_eq_false, if_false]

/-- What each character does from a cursor on the screen. -/
theorem vgaPutc_safe_iff {s : State} (h : OnScreen s) (c : Byte) :
    Safe (vgaPutc c s) ↔ Fits (some s) (.putc c) := by
  have hfits : Fits (some s) (.putc c) ↔
      if c = backspace then False
      else if c = carriageReturn then 1 ≤ s.x.toNat
      else if c = newline then s.y.toNat+1 < 25
      else if c = tab then s.x.toNat+4 < 80 ∨ 80 < s.x.toNat+4 ∧ s.y.toNat+1 < 25
      else s.x.toNat+1 < 80 := by
    simp only [Fits, Option.mem_some_iff, forall_eq']
  rw [hfits]
  split_ifs with hb hr hn ht
  · rw [hb]
    exact ⟨fun ⟨_,ht,_⟩ => absurd ht (by simp [show vgaPutc backspace s = none from rfl]),False.elim⟩
  · rw [hr]
    exact backspaceHandler_safe_iff h
  · rw [hn, show vgaPutc newline s = some (newlineHandler s) from rfl, safe_some]
    exact newlineHandler_onScreen_iff h.2.1 h.2.2
  · rw [ht, show vgaPutc tab s = some (tabHandler s) from rfl, safe_some]
    exact tabHandler_onScreen_iff h
  · rw [vgaPutc_other (by simp [specialCharacters, hb, hr, hn, ht]), safe_some]
    exact defaultHandler_onScreen_iff c h

theorem step_safe_iff {s s' : Option State} {a : Step} (h : Safe s) (hs : step s a = some s') :
    Safe s' ↔ Fits s a := by
  obtain ⟨t,rfl,ht⟩ := h
  cases a with
  | putc c =>
    rw [← Option.some.inj hs]
    exact vgaPutc_safe_iff ht c
  | flush =>
    rw [← Option.some.inj hs]
    exact ⟨fun _ => trivial,fun _ => safe_some.mpr (vgaFlush_onScreen ht.2.2)⟩

/-- From a flushed screen on, every byte written and the cursor after every
character stay on the screen, and every handler selected exists, precisely
when each character is put where its handler leaves the cursor on the screen. -/
theorem screen_safe_iff (x y : Word) (color : Byte) (calls : List Call) :
    Transition.Always step Safe (calls.flatMap Call.steps) (some (start x y color)) ↔
      Transition.Guarded step Fits (calls.flatMap Call.steps) (some (start x y color)) := by
  apply Transition.always_iff_guarded Safe
  · exact fun s h => h
  · exact fun s a s' h hc hs => (step_safe_iff h hs).mpr hc
  · exact fun s a s' h hc hs => mt (step_safe_iff h hs).mp hc
  · exact safe_some.mpr (vgaFlush_onScreen (by simp))

/-- A backspace on the empty screen calls a handler that does not exist. -/
theorem backspace_unsafe : ¬ Transition.Always step Safe ([Call.putc backspace].flatMap Call.steps)
    (some (start 0#32 0#32 7#8)) := by
  intro h
  obtain ⟨t,ht,-⟩ : Safe (vgaPutc backspace (start 0#32 0#32 7#8)) := h.2 _ rfl
  rw [show vgaPutc backspace (start 0#32 0#32 7#8) = none from rfl] at ht
  simp at ht

end MikeOS.Vga
