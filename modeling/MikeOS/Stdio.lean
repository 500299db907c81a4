import MikeOS.FileModes
import Mathlib.Data.List.TakeWhile

/-!
# printf

What is emitted is the list of the characters, whether they go to the screen or
to a buffer. `int` is a word compared as a signed number, and its arithmetic
wraps. A format is read from a position on; what stands behind its terminator
is not known, so a run that reads there stops.
-/

set_option autoImplicit false

namespace MikeOS.Stdio
open FileModes (CStr)

def padRight : Word := 1#32
def padZero : Word := 2#32
def printBufLen : ℕ := 12

inductive Stop where
  | outsideBuffer
  | pastEnd
  | outOfFuel
  deriving DecidableEq, Repr

structure Output where
  text : List Byte
  pc : Word
  deriving DecidableEq, Repr

def Output.blank : Output := ⟨[],0#32⟩

def Output.printchar (o : Output) (c : Byte) : Output := ⟨o.text ++ [c],o.pc+1#32⟩

/-! ## prints -/

def rounds (width : Word) : ℕ := width.toInt.toNat

def padLoop (padchar : Byte) : ℕ → Output → Output
  | 0, o => o
  | n+1, o => padLoop padchar n (o.printchar padchar)

/-- `string` holds the bytes at the pointer, of which those before the first zero
byte are the string; all that is behind it counts as zero. -/
def prints (string : List Byte) (width pad : Word) : Output :=
  let string := string.takeWhile (· ≠ 0#8)
  let len := BitVec.ofNat 32 string.length
  let padchar := if 0 < width.toInt ∧ pad &&& padZero ≠ 0#32 then 0x30#8 else 0x20#8
  let width := if 0 < width.toInt then if len.toInt ≥ width.toInt then 0#32 else width-len else width
  -- the first loop leaves no width to the second one
  let before := if pad &&& padRight = 0#32 then rounds width else 0
  let behind := if pad &&& padRight = 0#32 then 0 else rounds width
  padLoop padchar behind (string.foldl Output.printchar (padLoop padchar before Output.blank))

/-! ## printi -/

def digitChar (letbase t : Word) : Byte :=
  ((if 10 ≤ t.toInt then t+(letbase-0x30#32-10#32) else t)+0x30#32).setWidth 8

/-- `s` as an index into `print_buf`, with the text from there to the terminator. -/
abbrev Cursor := ℕ × List Byte

def storeBefore (c : Byte) : Cursor → Except Stop Cursor
  | (0,_) => .error .outsideBuffer
  | (s+1,text) => .ok (s,c::text)

def digitLoop (b letbase : Word) : ℕ → Word → List Byte → Except Stop Cursor
  | 0, u, text => if u = 0#32 then .ok (0,text) else .error .outsideBuffer
  | s+1, u, text =>
    if u = 0#32 then .ok (s+1,text) else digitLoop b letbase s (u/b) (digitChar letbase (u%b)::text)

def printi (i b : Word) (sg : Bool) (width pad letbase : Word) : Except Stop Output :=
  if i = 0#32 then .ok (prints [0x30#8] width pad)
  else
    let neg := sg ∧ b = 10#32 ∧ i.toInt < 0
    let u := if neg then -i else i
    (digitLoop b letbase (printBufLen-1) u []).bind fun s =>
      if neg then
        if width ≠ 0#32 ∧ pad &&& padZero ≠ 0#32 then
          let o := prints s.2 (width-1#32) pad
          .ok ⟨0x2D#8::o.text,1#32+o.pc⟩
        else (storeBefore 0x2D#8 s).bind fun s => .ok (prints s.2 width pad)
      else .ok (prints s.2 width pad)

/-! ## print -/

/-- `while (*format == '0')`, with `pad`. -/
def skipZeros : List Byte → Word → List Byte × Word
  | [], pad => ([],pad)
  | c::format, pad => if c = 0x30#8 then skipZeros format (pad ||| padZero) else (c::format,pad)

def IsDigit (c : Byte) : Prop := 0x30 ≤ c.toInt ∧ c.toInt ≤ 0x39

instance (c : Byte) : Decidable (IsDigit c) := inferInstanceAs (Decidable (_ ∧ _))

def scanWidth : List Byte → Word → List Byte × Word
  | [], width => ([],width)
  | c::format, width =>
    if IsDigit c then scanWidth format (width*10#32+(c.signExtend 32-0x30#32)) else (c::format,width)

/-- From behind a `%` to the conversion character: where it is, the width and
`pad`. -/
def scanConversion (format : List Byte) : List Byte × Word × Word :=
  let flagged := if format.head? = some 0x2D#8 then (format.tail,padRight) else (format,0#32)
  let zeros := skipZeros flagged.1 flagged.2
  let digits := scanWidth zeros.1 0#32
  (digits.1,digits.2,zeros.2)

def nullText : List Byte := [0x28#8, 0x6E#8, 0x75#8, 0x6C#8, 0x6C#8, 0x29#8]

/-- The cases of `*format`: `s`, `d`, `x`, `X`, `u` and `c` take the next
argument; nothing is returned for another character. -/
def convert (strings : Word → CStr) (kind : Byte) (arg width pad : Word) : Option (Except Stop Output) :=
  if kind = 0x73#8 then some (.ok (prints (if arg = null then nullText else (strings arg).1) width pad))
  else if kind = 0x64#8 then some (printi arg 10#32 true width pad 0x61#32)
  else if kind = 0x78#8 then some (printi arg 16#32 false width pad 0x61#32)
  else if kind = 0x58#8 then some (printi arg 16#32 false width pad 0x41#32)
  else if kind = 0x75#8 then some (printi arg 10#32 false width pad 0x61#32)
  else if kind = 0x63#8 then some (.ok (prints [arg.setWidth 8] width pad))
  else none

def nextArgs (args : ℕ → Word) : ℕ → Word := fun k => args (k+1)

/-- The loop of `print`; `format` holds the characters before the terminator. At
the end of a conversion that is cut off there `++format` passes the terminator,
and the test of the loop reads behind it. -/
def printLoop (strings : Word → CStr) : ℕ → List Byte → (ℕ → Word) → Output → Except Stop Output
  | 0, _, _, _ => .error .outOfFuel
  | _+1, [], _, o => .ok o
  | fuel+1, c::format, args, o =>
    if c = 0x25#8 then
      match format with
      | [] => .ok o
      | d::rest =>
        if d = 0x25#8 then printLoop strings fuel rest args (o.printchar d)
        else
          match scanConversion (d::rest) with
          | ([],_,_) => .error .pastEnd
          | (kind::format,width,pad) =>
            match convert strings kind (args 0) width pad with
            | none => printLoop strings fuel format args o
            | some result => result.bind fun out =>
              printLoop strings fuel format (nextArgs args) ⟨o.text ++ out.text,o.pc+out.pc⟩
    else printLoop strings fuel format args (o.printchar c)

/-- `strings` is the memory that `%s` reads. -/
def print (strings : Word → CStr) (fuel : ℕ) (format : CStr) (args : ℕ → Word) : Except Stop Output :=
  printLoop strings fuel format.1 args Output.blank

/-! ## Every character is counted -/

def Output.Counted (o : Output) : Prop := o.pc = BitVec.ofNat 32 o.text.length

theorem counted_append {o o' : Output} (h : o.Counted) (h' : o'.Counted) :
    Output.Counted ⟨o.text ++ o'.text,o.pc+o'.pc⟩ := by
  unfold Output.Counted at *
  rw [h, h', List.length_append, BitVec.ofNat_add]

theorem counted_char (c : Byte) : Output.Counted ⟨[c],1#32⟩ := rfl

theorem counted_printchar {o : Output} (h : o.Counted) (c : Byte) : (o.printchar c).Counted :=
  counted_append h (counted_char c)

theorem padLoop_text (padchar : Byte) (n : ℕ) (o : Output) :
    (padLoop padchar n o).text = o.text ++ List.replicate n padchar := by
  induction n generalizing o with
  | zero => exact (List.append_nil _).symm
  | succ n ih => rw [padLoop, ih, Output.printchar, List.append_assoc, List.replicate_succ, List.singleton_append]

theorem counted_padLoop (padchar : Byte) (n : ℕ) {o : Output} (h : o.Counted) : (padLoop padchar n o).Counted := by
  induction n generalizing o with
  | zero => exact h
  | succ n ih => exact ih (counted_printchar h padchar)

theorem foldl_printchar_text (string : List Byte) (o : Output) :
    (string.foldl Output.printchar o).text = o.text ++ string := by
  induction string generalizing o with
  | nil => exact (List.append_nil _).symm
  | cons c string ih => rw [List.foldl_cons, ih, Output.printchar, List.append_assoc, List.singleton_append]

theorem counted_foldl (string : List Byte) {o : Output} (h : o.Counted) :
    (string.foldl Output.printchar o).Counted := by
  induction string generalizing o with
  | nil => exact h
  | cons c string ih => exact ih (counted_printchar h c)

theorem counted_prints (string : List Byte) (width pad : Word) : (prints string width pad).Counted :=
  counted_padLoop _ _ (counted_foldl _ (counted_padLoop _ _ rfl))

/-! ## Padding -/

def padcharOf (width pad : Word) : Byte := if 0 < width.toInt ∧ pad &&& padZero ≠ 0#32 then 0x30#8 else 0x20#8

def gap (width : Word) (n : ℕ) : ℕ :=
  rounds (if 0 < width.toInt then
    if (BitVec.ofNat 32 n).toInt ≥ width.toInt then 0#32 else width-BitVec.ofNat 32 n else width)

theorem prints_text (string : List Byte) (width pad : Word) (h : 0#8 ∉ string) :
    (prints string width pad).text =
      if pad &&& padRight = 0#32 then List.replicate (gap width string.length) (padcharOf width pad) ++ string
      else string ++ List.replicate (gap width string.length) (padcharOf width pad) := by
  have hs : string.takeWhile (· ≠ 0#8) = string :=
    List.takeWhile_eq_self_iff.mpr fun c hc => decide_eq_true fun h0 => h (h0 ▸ hc)
  rw [prints, hs, padLoop_text, foldl_printchar_text, padLoop_text]
  split <;> simp [gap, padcharOf, Output.blank]

theorem gap_eq (width : Word) {n : ℕ} (hn : n < 2^31) : gap width n = rounds width-n := by
  have hlen : (BitVec.ofNat 32 n).toInt = n := by
    rw [BitVec.toInt_eq_toNat_of_lt (by rw [BitVec.toNat_ofNat]; omega), BitVec.toNat_ofNat,
      Nat.mod_eq_of_lt (by omega)]
  unfold gap
  split_ifs with hpos hle
  · rw [hlen] at hle
    rw [rounds, rounds]
    simp
    omega
  · rw [hlen] at hle
    have hlt : 2*width.toInt < 2^32 := BitVec.two_mul_toInt_lt
    have hsub : (width-BitVec.ofNat 32 n).toInt = width.toInt-n := by
      rw [BitVec.toInt_sub, hlen, Int.bmod_eq_of_le_mul_two] <;> omega
    rw [rounds, rounds, hsub]
    omega
  · rw [rounds]
    omega

theorem rounds_sub_one {width : Word} (h : 0 < width.toInt) : rounds (width-1#32) = rounds width-1 := by
  have hlt : 2*width.toInt < 2^32 := BitVec.two_mul_toInt_lt
  have hsub : (width-1#32).toInt = width.toInt-1 := by
    rw [BitVec.toInt_sub, show (1#32).toInt = 1 from rfl, Int.bmod_eq_of_le_mul_two] <;> omega
  rw [rounds, rounds, hsub]
  omega

theorem rounds_eq_toNat {width : Word} (h : 0 ≤ width.toInt) : rounds width = width.toNat := by
  have hcond := BitVec.toInt_eq_toNat_cond width
  have hlt := width.isLt
  rw [rounds]
  split at hcond <;> omega

theorem prints_length (string : List Byte) (width pad : Word) (h : 0#8 ∉ string) :
    (prints string width pad).text.length = gap width string.length+string.length := by
  rw [prints_text string width pad h]
  split
  · rw [List.length_append, List.length_replicate]
  · rw [List.length_append, List.length_replicate, Nat.add_comm]

end MikeOS.Stdio
