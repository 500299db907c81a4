import MikeOS.Common
import MikeOS.Library.Slots

/-!
# Segment descriptors and interrupt gates

Both tables hold packed entries of eight bytes. The fields of an entry are
stored one after the other, a field of two bytes with its low byte first.
-/

set_option autoImplicit false

namespace MikeOS.Descriptors
open Words

/-! ## Stores -/

def storeByte (p : Word) (value : Byte) (ram : Ram) : Ram := Function.update ram p value

def storeHalf (p : Word) (value : BitVec 16) (ram : Ram) : Ram :=
  storeByte (p+1#32) (byteOf value 1) (storeByte p (byteOf value 0) ram)

/-! ## The tables -/

def entrySize : Word := 8#32
def gdtEntries : ℕ := 6
def idtEntries : ℕ := 256

/-- Where the tables are: `early_gdt` before paging is on, and the two tables
as the kernel addresses them, which are different objects. -/
structure Tables where
  earlyGdt : Word
  idtTable : Word
  apart : ∀ i < 8*gdtEntries, ∀ j < 8*idtEntries,
    earlyGdt+kernelVirtualOffset+BitVec.ofNat 32 i ≠ idtTable+BitVec.ofNat 32 j

def Tables.gdt (t : Tables) : Word := t.earlyGdt+kernelVirtualOffset

/-- The assignments to the fields of `struct gdt_entry`: `limit_low` at 0,
`base_low` at 2, `base_middle` at 4, `access` at 5, `granularity` at 6 and
`base_high` at 7. -/
def setGateAt (entry base limit : Word) (access gran : Byte) (ram : Ram) : Ram :=
  let ram := storeHalf (entry+2#32) ((base &&& 0xFFFF#32).setWidth 16) ram
  let ram := storeByte (entry+4#32) (((base >>> 16) &&& 0xFF#32).setWidth 8) ram
  let ram := storeByte (entry+7#32) (((base >>> 24) &&& 0xFF#32).setWidth 8) ram
  let ram := storeHalf (entry+0#32) ((limit &&& 0xFFFF#32).setWidth 16) ram
  let ram := storeByte (entry+6#32) (((limit >>> 16) &&& 0x0F#32).setWidth 8) ram
  let ram := storeByte (entry+6#32) (ram (entry+6#32) ||| (gran &&& 0xF0#8)) ram
  storeByte (entry+5#32) access ram

def earlySetGdtGate (t : Tables) (num base limit : Word) (access gran : Byte) : Ram → Ram :=
  setGateAt (t.earlyGdt+num*entrySize) base limit access gran

def setGdtGate (t : Tables) (num base limit : Word) (access gran : Byte) : Ram → Ram :=
  setGateAt (t.gdt+num*entrySize) base limit access gran

/-- `offset_lowerbits` is at 0, `selector` at 2, `zero` at 4, `flags` at 5 and
`offset_higherbits` at 6. -/
def loadIdtEntry (t : Tables) (isrNumber : Byte) (base : Word) (selector : BitVec 16) (flags : Byte)
    (ram : Ram) : Ram :=
  let entry := t.idtTable+isrNumber.setWidth 32*entrySize
  let ram := storeHalf (entry+0#32) ((base &&& 0xFFFF#32).setWidth 16) ram
  let ram := storeHalf (entry+6#32) (((base >>> 16) &&& 0xFFFF#32).setWidth 16) ram
  let ram := storeHalf (entry+2#32) selector ram
  let ram := storeByte (entry+5#32) flags ram
  storeByte (entry+4#32) 0#8 ram

/-! ## What the processor reads -/

abbrev Raw := Fin 8 → Byte

def entryAt (ram : Ram) (entry : Word) : Raw := fun k => ram (entry+BitVec.ofNat 32 k.val)

structure Segment where
  base : Word
  limit : BitVec 20
  access : Byte
  flags : BitVec 4
  deriving DecidableEq

def decodeSegment (e : Raw) : Segment where
  base := e 7 ++ e 4 ++ e 3 ++ e 2
  limit := (e 6).extractLsb' 0 4 ++ e 1 ++ e 0
  access := e 5
  flags := (e 6).extractLsb' 4 4

structure Gate where
  handler : Word
  selector : BitVec 16
  flags : Byte
  deriving DecidableEq

def decodeGate (e : Raw) : Gate where
  handler := e 7 ++ e 6 ++ e 1 ++ e 0
  selector := e 3 ++ e 2
  flags := e 5

/-! ## One call -/

def granularity (limit : Word) (gran : Byte) : Byte := ((limit >>> 16) &&& 0x0F#32).setWidth 8 ||| (gran &&& 0xF0#8)

def gateBytes (base limit : Word) (access gran : Byte) : Raw :=
  ![byteOf limit 0, byteOf limit 1, byteOf base 0, byteOf base 1, byteOf base 2, access, granularity limit gran,
    byteOf base 3]

def idtBytes (base : Word) (selector : BitVec 16) (flags : Byte) : Raw :=
  ![byteOf base 0, byteOf base 1, byteOf selector 0, byteOf selector 1, 0#8, flags, byteOf base 2, byteOf base 3]

theorem storeByte_apply (p : Word) (value : Byte) (ram : Ram) (q : Word) :
    storeByte p value ram q = if q = p then value else ram q :=
  Function.update_apply ram p value q

theorem setGateAt_entry (entry base limit : Word) (access gran : Byte) (ram : Ram) :
    entryAt (setGateAt entry base limit access gran ram) entry = gateBytes base limit access gran := by
  have hmiddle : ((base >>> 16) &&& 0xFF#32).setWidth 8 = byteOf base 2 := by
    rw [mask_byte, byteOf_shift base 2 0]
  have hhigh : ((base >>> 24) &&& 0xFF#32).setWidth 8 = byteOf base 3 := by
    rw [mask_byte, byteOf_shift base 3 0]
  funext k
  simp only [entryAt, setGateAt, storeHalf, storeByte_apply, BitVec.add_assoc, BitVec.add_right_inj, hmiddle, hhigh,
    byteOf_mask_half _ (by decide : 0 < 2), byteOf_mask_half _ (by decide : 1 < 2)]
  fin_cases k <;> simp [gateBytes, granularity]

theorem setGateAt_frame (entry base limit : Word) (access gran : Byte) (ram : Ram) {p : Word}
    (hp : ∀ k < 8, p ≠ entry+BitVec.ofNat 32 k) : setGateAt entry base limit access gran ram p = ram p := by
  simp [setGateAt, storeHalf, storeByte_apply, BitVec.add_assoc, hp 1 (by decide), hp 2 (by decide), hp 3 (by decide),
    hp 4 (by decide), hp 5 (by decide), hp 6 (by decide), hp 7 (by decide),
    show p ≠ entry by simpa using hp 0 (by decide)]

theorem loadIdtEntry_entry (t : Tables) (isrNumber : Byte) (base : Word) (selector : BitVec 16) (flags : Byte)
    (ram : Ram) :
    entryAt (loadIdtEntry t isrNumber base selector flags ram) (t.idtTable+isrNumber.setWidth 32*entrySize) =
      idtBytes base selector flags := by
  funext k
  simp only [entryAt, loadIdtEntry, storeHalf, storeByte_apply, BitVec.add_assoc, BitVec.add_right_inj,
    byteOf_mask_half _ (by decide : 0 < 2), byteOf_mask_half _ (by decide : 1 < 2), byteOf_shift base 2]
  fin_cases k <;> simp [idtBytes]

theorem loadIdtEntry_frame (t : Tables) (isrNumber : Byte) (base : Word) (selector : BitVec 16) (flags : Byte)
    (ram : Ram) {p : Word} (hp : ∀ k < 8, p ≠ t.idtTable+isrNumber.setWidth 32*entrySize+BitVec.ofNat 32 k) :
    loadIdtEntry t isrNumber base selector flags ram p = ram p := by
  generalize he : t.idtTable+isrNumber.setWidth 32*entrySize = entry at hp
  simp [loadIdtEntry, he, storeHalf, storeByte_apply, BitVec.add_assoc, hp 1 (by decide), hp 2 (by decide),
    hp 3 (by decide), hp 4 (by decide), hp 5 (by decide), hp 6 (by decide), hp 7 (by decide),
    show p ≠ entry by simpa using hp 0 (by decide)]

theorem granularity_low (limit : Word) (gran : Byte) :
    (granularity limit gran).extractLsb' 0 4 ++ byteOf limit 1 ++ byteOf limit 0 = limit.setWidth 20 := by
  have hlimit : ∀ j : Fin 4, (0x0F#32).getLsbD j.val = true ∧ (0xF0#8).getLsbD j.val = false := by decide
  refine BitVec.eq_of_getLsbD_eq fun i hi => ?_
  rw [BitVec.getLsbD_append, BitVec.getLsbD_append, BitVec.getLsbD_setWidth]
  split_ifs with h0 h1
  · rw [getLsbD_byteOf limit 0 h0]
    simp [hi]
  · rw [getLsbD_byteOf limit 1 h1]
    simp [hi, show 8*1+(i-8) = i by omega]
  · have hmask := hlimit ⟨i-8-8,by omega⟩
    simp only [granularity, BitVec.getLsbD_extractLsb', BitVec.getLsbD_or, BitVec.getLsbD_setWidth, BitVec.getLsbD_and,
      BitVec.getLsbD_ushiftRight, Nat.zero_add, hmask.1, hmask.2]
    simp [hi, show i-8-8 < 4 by omega, show i-8-8 < 8 by omega, show 16+(i-8-8) = i by omega]

theorem granularity_high (limit : Word) (gran : Byte) :
    (granularity limit gran).extractLsb' 4 4 = gran.extractLsb' 4 4 := by
  have hgran : ∀ j : Fin 4, (0x0F#32).getLsbD (4+j.val) = false ∧ (0xF0#8).getLsbD (4+j.val) = true := by decide
  refine BitVec.eq_of_getLsbD_eq fun i hi => ?_
  have hmask := hgran ⟨i,hi⟩
  simp only [granularity, BitVec.getLsbD_extractLsb', BitVec.getLsbD_or, BitVec.getLsbD_setWidth, BitVec.getLsbD_and,
    hmask.1, hmask.2]
  simp

theorem decodeSegment_gateBytes (base limit : Word) (access gran : Byte) :
    decodeSegment (gateBytes base limit access gran) = ⟨base,limit.setWidth 20,access,gran.extractLsb' 4 4⟩ := by
  rw [decodeSegment, Segment.mk.injEq]
  exact ⟨append_byteOf base,granularity_low limit gran,rfl,granularity_high limit gran⟩

theorem decodeGate_idtBytes (base : Word) (selector : BitVec 16) (flags : Byte) :
    decodeGate (idtBytes base selector flags) = ⟨base,selector,flags⟩ := by
  rw [decodeGate, Gate.mk.injEq]
  exact ⟨append_byteOf base,append_byteOf_half selector,rfl⟩

/-! ## Calls -/

inductive Slot where
  | gdt (num : Word)
  | idt (isrNumber : Byte)
  deriving DecidableEq

def Slot.Valid : Slot → Prop
  | .gdt num => num.toNat < gdtEntries
  | .idt isrNumber => isrNumber.toNat < idtEntries

instance (s : Slot) : Decidable s.Valid :=
  match s with
  | .gdt num => inferInstanceAs (Decidable (num.toNat < gdtEntries))
  | .idt isrNumber => inferInstanceAs (Decidable (isrNumber.toNat < idtEntries))

def Tables.entry (t : Tables) : Slot → Word
  | .gdt num => t.gdt+num*entrySize
  | .idt isrNumber => t.idtTable+isrNumber.setWidth 32*entrySize

inductive Call where
  | setGdtGate (num base limit : Word) (access gran : Byte)
  | loadIdtEntry (isrNumber : Byte) (base : Word) (selector : BitVec 16) (flags : Byte)

def Call.slot : Call → Slot
  | .setGdtGate num _ _ _ _ => .gdt num
  | .loadIdtEntry isrNumber _ _ _ => .idt isrNumber

def Call.bytes : Call → Raw
  | .setGdtGate _ base limit access gran => gateBytes base limit access gran
  | .loadIdtEntry _ base selector flags => idtBytes base selector flags

def step (t : Tables) (ram : Ram) : Call → Ram
  | .setGdtGate num base limit access gran => setGdtGate t num base limit access gran ram
  | .loadIdtEntry isrNumber base selector flags => loadIdtEntry t isrNumber base selector flags ram

def run (t : Tables) (calls : List Call) (ram : Ram) : Ram := calls.foldl (step t) ram

theorem step_entry (t : Tables) (ram : Ram) (c : Call) : entryAt (step t ram c) (t.entry c.slot) = c.bytes := by
  cases c with
  | setGdtGate num base limit access gran => exact setGateAt_entry _ base limit access gran ram
  | loadIdtEntry isrNumber base selector flags => exact loadIdtEntry_entry t isrNumber base selector flags ram

theorem step_frame (t : Tables) (ram : Ram) (c : Call) {p : Word}
    (hp : ∀ k < 8, p ≠ t.entry c.slot+BitVec.ofNat 32 k) : step t ram c p = ram p := by
  cases c with
  | setGdtGate num base limit access gran => exact setGateAt_frame _ base limit access gran ram hp
  | loadIdtEntry isrNumber base selector flags => exact loadIdtEntry_frame t isrNumber base selector flags ram hp

/-! ## The slots of the tables are separate -/

theorem toNat_offset (i : Word) (k : ℕ) (hi : i.toNat < 256) (hk : k < 8) :
    (i*entrySize+BitVec.ofNat 32 k).toNat = 8*i.toNat+k := by
  rw [BitVec.toNat_add, BitVec.toNat_mul, BitVec.toNat_ofNat, show entrySize.toNat = 8 from rfl]
  omega

theorem offset_eq (i : Word) (k : ℕ) (hi : i.toNat < 256) (hk : k < 8) :
    i*entrySize+BitVec.ofNat 32 k = BitVec.ofNat 32 (8*i.toNat+k) := by
  apply BitVec.eq_of_toNat_eq
  rw [toNat_offset i k hi hk, BitVec.toNat_ofNat, Nat.mod_eq_of_lt (by omega)]

theorem offset_inj {i j : Word} {k l : ℕ} (hi : i.toNat < 256) (hj : j.toNat < 256) (hk : k < 8) (hl : l < 8)
    (h : i*entrySize+BitVec.ofNat 32 k = j*entrySize+BitVec.ofNat 32 l) : i = j := by
  have hn := congrArg BitVec.toNat h
  rw [toNat_offset i k hi hk, toNat_offset j l hj hl] at hn
  exact BitVec.eq_of_toNat_eq (by omega)

theorem toNat_isr (isrNumber : Byte) : (isrNumber.setWidth 32).toNat = isrNumber.toNat := by
  have := isrNumber.isLt
  rw [BitVec.toNat_setWidth, Nat.mod_eq_of_lt (by omega)]

theorem isr_lt {isrNumber : Byte} (h : (Slot.idt isrNumber).Valid) : (isrNumber.setWidth 32).toNat < 256 := by
  rw [toNat_isr]
  exact h

theorem num_lt {num : Word} (h : (Slot.gdt num).Valid) : num.toNat < 6 := h

theorem tables_apart (t : Tables) {num : Word} {isrNumber : Byte} (hnum : (Slot.gdt num).Valid)
    (hisr : (Slot.idt isrNumber).Valid) {k l : ℕ} (hk : k < 8) (hl : l < 8) :
    t.entry (.gdt num)+BitVec.ofNat 32 k ≠ t.entry (.idt isrNumber)+BitVec.ofNat 32 l := by
  have hgdt : gdtEntries = 6 := rfl
  have hidt : idtEntries = 256 := rfl
  have hn := num_lt hnum
  have hi := isr_lt hisr
  rw [Tables.entry, Tables.entry, BitVec.add_assoc, BitVec.add_assoc, offset_eq num k (by omega) hk,
    offset_eq _ l hi hl]
  exact t.apart _ (by omega) _ (by omega)

theorem entries_apart (t : Tables) {s u : Slot} (hs : s.Valid) (hu : u.Valid) (h : s ≠ u) {k l : ℕ} (hk : k < 8)
    (hl : l < 8) : t.entry s+BitVec.ofNat 32 k ≠ t.entry u+BitVec.ofNat 32 l := by
  intro he
  cases s with
  | gdt num =>
    cases u with
    | gdt num' =>
      have hn := num_lt hs
      have hn' := num_lt hu
      rw [Tables.entry, Tables.entry, BitVec.add_assoc, BitVec.add_assoc, BitVec.add_right_inj] at he
      exact h (congrArg Slot.gdt (offset_inj (by omega) (by omega) hk hl he))
    | idt isr => exact tables_apart t hs hu hk hl he
  | idt isr =>
    cases u with
    | gdt num => exact tables_apart t hu hs hl hk he.symm
    | idt isr' =>
      rw [Tables.entry, Tables.entry, BitVec.add_assoc, BitVec.add_assoc, BitVec.add_right_inj] at he
      have hn := congrArg BitVec.toNat (offset_inj (isr_lt hs) (isr_lt hu) hk hl he)
      rw [toNat_isr, toNat_isr] at hn
      exact h (congrArg Slot.idt (BitVec.eq_of_toNat_eq hn))

theorem step_other (t : Tables) (ram : Ram) (c : Call) (s : Slot) (hc : c.slot.Valid) (hs : s.Valid)
    (h : s ≠ c.slot) : entryAt (step t ram c) (t.entry s) = entryAt ram (t.entry s) :=
  funext fun k => step_frame t ram c fun _ hl => entries_apart t hs hc h k.isLt hl

def writes (t : Tables) : Slots.Writes Ram Slot Raw Call where
  write := step t
  read ram s := entryAt ram (t.entry s)
  slot := Call.slot
  value := Call.bytes
  valid := Slot.Valid
  same ram c _ := step_entry t ram c
  other := step_other t

/-! ## Whole runs -/

def Holds (t : Tables) (ram : Ram) : Call → Prop
  | .setGdtGate num base limit access gran =>
    decodeSegment (entryAt ram (t.entry (.gdt num))) = ⟨base,limit.setWidth 20,access,gran.extractLsb' 4 4⟩
  | .loadIdtEntry isrNumber base selector flags =>
    decodeGate (entryAt ram (t.entry (.idt isrNumber))) = ⟨base,selector,flags⟩

theorem holds_of_bytes {t : Tables} {ram : Ram} {c : Call} (h : entryAt ram (t.entry c.slot) = c.bytes) :
    Holds t ram c := by
  cases c with
  | setGdtGate num base limit access gran => exact (congrArg decodeSegment h).trans (decodeSegment_gateBytes ..)
  | loadIdtEntry isrNumber base selector flags => exact (congrArg decodeGate h).trans (decodeGate_idtBytes ..)

/-- After any run of calls each slot decodes to the last call on it, a slot that
no call is on has kept its bytes, and `early_set_gdt_gate` writes the bytes that
`set_gdt_gate` writes. -/
theorem descriptors_decode (t : Tables) (calls : List Call) (hvalid : ∀ c ∈ calls, c.slot.Valid) (ram : Ram) :
    (∀ before c after, calls = before ++ c::after → (∀ d ∈ after, d.slot ≠ c.slot) →
      Holds t (run t calls ram) c) ∧
    (∀ s : Slot, s.Valid → (∀ c ∈ calls, c.slot ≠ s) →
      entryAt (run t calls ram) (t.entry s) = entryAt ram (t.entry s)) ∧
    ∀ num base limit access gran, ∀ ram' : Ram,
      entryAt (earlySetGdtGate t num base limit access gran ram') (t.earlyGdt+num*entrySize) =
          entryAt (setGdtGate t num base limit access gran ram) (t.gdt+num*entrySize) ∧
        ∀ p, (∀ k < 8, p ≠ t.earlyGdt+num*entrySize+BitVec.ofNat 32 k) →
          earlySetGdtGate t num base limit access gran ram' p = ram' p := by
  refine ⟨?_,fun s hs hother => Slots.run_untouched (writes t) hvalid hs hother ram,?_⟩
  · rintro before c after rfl hlast
    exact holds_of_bytes (Slots.run_last (writes t) hvalid hlast ram)
  · intro num base limit access gran ram'
    refine ⟨?_,fun p hp => setGateAt_frame _ base limit access gran ram' hp⟩
    rw [earlySetGdtGate, setGdtGate, setGateAt_entry, setGateAt_entry]

def kernelTables : Tables where
  earlyGdt := 0x100000#32
  idtTable := 0xC0200000#32
  apart i hi j hj h := by
    have hgdt : i < 48 := hi
    have hidt : j < 2048 := hj
    have hn := congrArg BitVec.toNat h
    simp only [kernelVirtualOffset_eq, BitVec.toNat_add, BitVec.toNat_ofNat] at hn
    omega

theorem second_call_decodes : Holds kernelTables
    (run kernelTables [.setGdtGate 5#32 0xC0123456#32 0xFFFFFFFF#32 0xFF#8 0xFF#8,
      .loadIdtEntry 33#8 0xC0101234#32 8#16 0x8E#8, .setGdtGate 5#32 0x89ABCDEF#32 0x67#32 0x89#8 0x40#8]
      fun _ => 0xA5#8)
    (.setGdtGate 5#32 0x89ABCDEF#32 0x67#32 0x89#8 0x40#8) :=
  (descriptors_decode kernelTables _ (by decide) _).1
    [.setGdtGate 5#32 0xC0123456#32 0xFFFFFFFF#32 0xFF#8 0xFF#8, .loadIdtEntry 33#8 0xC0101234#32 8#16 0x8E#8] _ []
    rfl (by simp)

end MikeOS.Descriptors
