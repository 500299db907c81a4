import MikeOS.PhysicalMemory
import MikeOS.Library.Segment

/-!
# Transfers to and from an ATA drive

A channel has the registers its two drives share, and a drive moves the words
of the sectors a command names, in order, through the data port; a sector count
of zero stands for 256. After a command the drive is busy for some reads of its
status. Ports are offsets from the base of the channel. The device and the
buffer are values, only the buffer's address is compared with `NULL`.
-/

set_option autoImplicit false

namespace MikeOS.Ata
open PhysicalMemory (Halt)
open Segment

abbrev DataWord := BitVec 16

/-! ## The drive -/

inductive Direction where
  | toHost
  | toDrive
  deriving DecidableEq, Repr

structure Transfer where
  direction : Direction
  slave : Bool
  next : ℕ
  left : ℕ

/-- `busy` counts the reads of the status that are still answered with the busy
bit, `delay` is what a command sets it to. -/
structure Channel where
  drive : Byte
  sectorCount : Byte
  lbaLow : Byte
  lbaMid : Byte
  lbaHigh : Byte
  busy : ℕ
  delay : ℕ
  transfer : Transfer
  disks : Bool → ℕ → DataWord

def wordsPerSector : ℕ := 256

def ataSectorCountPort : Word := 2#32
def ataLbaLowPort : Word := 3#32
def ataLbaMidPort : Word := 4#32
def ataLbaHighPort : Word := 5#32
def ataDrivePort : Word := 6#32
def ataCommandPort : Word := 7#32
def ataStatusPort : Word := 7#32
def alternativeControlPort : Word := 0x206#32

def deviceBusy : Byte := 0x80#8
def deviceReady : Byte := 0x40#8
def deviceDataReady : Byte := 0x08#8

def ataCmdReadPio : Byte := 0x20#8
def ataCmdWritePio : Byte := 0x30#8

def lba (c : Channel) : ℕ :=
  (c.drive &&& 0x0F#8).toNat*2^24+c.lbaHigh.toNat*2^16+c.lbaMid.toNat*2^8+c.lbaLow.toNat

def sectors (c : Channel) : ℕ := if c.sectorCount = 0#8 then 256 else c.sectorCount.toNat

def startTransfer (direction : Direction) (c : Channel) : Channel :=
  { c with
    busy := c.delay
    transfer := ⟨direction, c.drive.getLsbD 4, lba c*wordsPerSector, sectors c*wordsPerSector⟩ }

def command (value : Byte) (c : Channel) : Channel :=
  if value = ataCmdReadPio then startTransfer .toHost c
  else if value = ataCmdWritePio then startTransfer .toDrive c
  else c

def status (c : Channel) : Byte :=
  if c.busy ≠ 0 then deviceBusy
  else if c.transfer.left ≠ 0 then deviceReady ||| deviceDataReady else deviceReady

/-- Only a read of the status itself brings the drive nearer to its end. -/
def readPort (port : Word) (c : Channel) : Byte × Channel :=
  if port = ataStatusPort then (status c, { c with busy := c.busy-1 })
  else if port = alternativeControlPort then (status c, c)
  else (0#8, c)

def writePort (port : Word) (value : Byte) (c : Channel) : Channel :=
  if port = ataSectorCountPort then { c with sectorCount := value }
  else if port = ataLbaLowPort then { c with lbaLow := value }
  else if port = ataLbaMidPort then { c with lbaMid := value }
  else if port = ataLbaHighPort then { c with lbaHigh := value }
  else if port = ataDrivePort then { c with drive := value }
  else if port = ataCommandPort then command value c
  else c

def Channel.advance (c : Channel) : Channel :=
  { c with transfer := { c.transfer with next := c.transfer.next+1, left := c.transfer.left-1 } }

/-- The data port, as the drive answers a read of it. -/
def readWordPort (c : Channel) : DataWord × Channel :=
  if c.transfer.direction = .toHost ∧ c.transfer.left ≠ 0 then
    (c.disks c.transfer.slave c.transfer.next, c.advance)
  else (0xFFFF#16, c)

def writeWordPort (value : DataWord) (c : Channel) : Channel :=
  if c.transfer.direction = .toDrive ∧ c.transfer.left ≠ 0 then
    { c.advance with
      disks := Function.update c.disks c.transfer.slave
        (Function.update (c.disks c.transfer.slave) c.transfer.next value) }
  else c

/-! ## The driver -/

structure AtaDevice where
  isSlave : Bool
  present : Bool
  deriving DecidableEq, Repr

/-- Four reads of the alternative status. -/
def ataSleep (c : Channel) : Channel := (fun c => (readPort alternativeControlPort c).2)^[4] c

def ataBlockIfBusy : ℕ → Channel → Except Halt Channel
  | 0, _ => .error .diverges
  | fuel+1, c =>
    if (readPort ataStatusPort c).1 &&& deviceBusy ≠ 0#8 then ataBlockIfBusy fuel (readPort ataStatusPort c).2
    else .ok (readPort ataStatusPort c).2

def ataWaitForStatus (bits : Byte) : ℕ → Channel → Except Halt Channel
  | 0, _ => .error .diverges
  | fuel+1, c =>
    if (readPort ataStatusPort c).1 &&& bits = 0#8 then ataWaitForStatus bits fuel (readPort ataStatusPort c).2
    else .ok (readPort ataStatusPort c).2

def ataPio28PreStages (device : AtaDevice) (sector : Word) (sectorCount : Byte) (c : Channel) : Channel :=
  let devType : Byte := if device.isSlave then 0xF0#8 else 0xE0#8
  let c := writePort ataDrivePort ((devType.setWidth 32 ||| (sector >>> 24 &&& 0x0F#32)).setWidth 8) c
  let c := writePort ataSectorCountPort sectorCount c
  let c := writePort ataLbaLowPort (sector.setWidth 8) c
  let c := writePort ataLbaMidPort ((sector >>> 8).setWidth 8) c
  writePort ataLbaHighPort ((sector >>> 16).setWidth 8) c

def readWords : ℕ → ℕ → ℕ → (ℕ → DataWord) → Channel → (ℕ → DataWord) × Channel
  | 0, _, _, buffer, c => (buffer, c)
  | n+1, i, j, buffer, c =>
    readWords n i (j+1) (Function.update buffer (j+wordsPerSector*i) (readWordPort c).1) (readWordPort c).2

def readSectors : ℕ → ℕ → (ℕ → DataWord) → Channel → (ℕ → DataWord) × Channel
  | 0, _, buffer, c => (buffer, c)
  | n+1, i, buffer, c =>
    let r := readWords wordsPerSector i 0 buffer c
    readSectors n (i+1) r.1 (ataSleep r.2)

def writeWords (buffer : ℕ → DataWord) : ℕ → ℕ → ℕ → Channel → Channel
  | 0, _, _, c => c
  | n+1, i, j, c => writeWords buffer n i (j+1) (ataSleep (writeWordPort (buffer (j+wordsPerSector*i)) c))

def writeSectors (buffer : ℕ → DataWord) : ℕ → ℕ → Channel → Channel
  | 0, _, c => c
  | n+1, i, c => writeSectors buffer n (i+1) (ataSleep (writeWords buffer wordsPerSector i 0 c))

/-- The checks of both transfers, the stages before them and the wait for the
drive. -/
def ataPio28Start (cmd : Byte) (fuel : ℕ) (device : AtaDevice) (buffer sector : Word) (sectorCount : Byte)
    (c : Channel) : Except Halt Channel :=
  if ¬ device.present ∨ buffer = null ∨ sector < 0#32 ∨ sectorCount < 0#8 then .error .panic
  else
    let c := ataPio28PreStages device sector sectorCount c
    let c := writePort ataCommandPort cmd c
    (ataWaitForStatus deviceReady fuel c).bind fun c => ataWaitForStatus deviceDataReady fuel c

def ataPio28Read (fuel : ℕ) (device : AtaDevice) (buffer : Word) (words : ℕ → DataWord) (sector : Word)
    (sectorCount : Byte) (c : Channel) : Except Halt ((ℕ → DataWord) × Channel) :=
  (ataPio28Start ataCmdReadPio fuel device buffer sector sectorCount c).map fun c =>
    readSectors sectorCount.toNat 0 words c

def ataPio28Write (fuel : ℕ) (device : AtaDevice) (buffer : Word) (words : ℕ → DataWord) (sector : Word)
    (sectorCount : Byte) (c : Channel) : Except Halt Channel :=
  (ataPio28Start ataCmdWritePio fuel device buffer sector sectorCount c).map fun c =>
    writeSectors words sectorCount.toNat 0 c

/-- The count is passed on as a byte. -/
def ataRead (fuel : ℕ) (device : AtaDevice) (buf : Word) (words : ℕ → DataWord) (beginSector numSectors : Word)
    (c : Channel) : Except Halt ((ℕ → DataWord) × Channel) :=
  (ataBlockIfBusy fuel c).bind fun c => ataPio28Read fuel device buf words beginSector (numSectors.setWidth 8) c

def ataWrite (fuel : ℕ) (device : AtaDevice) (buf : Word) (words : ℕ → DataWord) (beginSector numSectors : Word)
    (c : Channel) : Except Halt Channel :=
  (ataBlockIfBusy fuel c).bind fun c => ataPio28Write fuel device buf words beginSector (numSectors.setWidth 8) c

/-! ## Waiting -/

@[simp] theorem ataSleep_eq (c : Channel) : ataSleep c = c := rfl

theorem readStatus_busy {c : Channel} (h : c.busy ≠ 0) :
    readPort ataStatusPort c = (deviceBusy, { c with busy := c.busy-1 }) := by
  rw [readPort, if_pos rfl, status, if_pos h]

theorem readStatus_ready {c : Channel} (h : c.busy = 0) : readPort ataStatusPort c = (status c, { c with busy := 0 }) := by
  rw [readPort, if_pos rfl, h]

theorem status_ready {c : Channel} (h : c.busy = 0) :
    status c = if c.transfer.left ≠ 0 then deviceReady ||| deviceDataReady else deviceReady := by
  rw [status, if_neg (not_not.mpr h)]

theorem ataBlockIfBusy_eq (fuel : ℕ) (c : Channel) :
    ataBlockIfBusy fuel c = if c.busy < fuel then .ok { c with busy := 0 } else .error .diverges := by
  induction fuel generalizing c with
  | zero => rfl
  | succ fuel ih =>
    by_cases hbusy : c.busy = 0
    · have hclear : ¬ status c &&& deviceBusy ≠ 0#8 := by
        rw [status_ready hbusy]
        split <;> decide
      rw [ataBlockIfBusy, readStatus_ready hbusy, if_neg hclear, if_pos (by omega)]
    · rw [ataBlockIfBusy, readStatus_busy hbusy, if_pos (show deviceBusy &&& deviceBusy ≠ 0#8 by decide), ih]
      simp only [show c.busy-1 < fuel ↔ c.busy < fuel+1 by omega]

theorem ataWaitForStatus_eq {bits : Byte} (fuel : ℕ) (c : Channel) (hbits : deviceBusy &&& bits = 0#8)
    (hready : status { c with busy := 0 } &&& bits ≠ 0#8) :
    ataWaitForStatus bits fuel c = if c.busy < fuel then .ok { c with busy := 0 } else .error .diverges := by
  induction fuel generalizing c with
  | zero => rfl
  | succ fuel ih =>
    by_cases hbusy : c.busy = 0
    · have hset : ¬ status c &&& bits = 0#8 := by
        rw [status_ready hbusy]
        rwa [status_ready rfl] at hready
      rw [ataWaitForStatus, readStatus_ready hbusy, if_neg hset, if_pos (by omega)]
    · rw [ataWaitForStatus, readStatus_busy hbusy, if_pos hbits, ih { c with busy := c.busy-1 } hready]
      simp only [show c.busy-1 < fuel ↔ c.busy < fuel+1 by omega]

/-! ## The registers -/

theorem drive_nibble (k : ℕ) (hk : k < 16) (isSlave : Bool) :
    (((if isSlave then 0xF0#8 else 0xE0#8).setWidth 32 ||| BitVec.ofNat 32 k).setWidth 8 &&& 0x0F#8).toNat = k ∧
      (((if isSlave then 0xF0#8 else 0xE0#8).setWidth 32 ||| BitVec.ofNat 32 k).setWidth 8).getLsbD 4 = isSlave := by
  revert isSlave
  revert k
  decide

theorem preStages_eq (device : AtaDevice) (sector : Word) (sectorCount : Byte) (c : Channel) :
    ataPio28PreStages device sector sectorCount c = { c with
      drive := ((if device.isSlave then 0xF0#8 else 0xE0#8).setWidth 32 ||| (sector >>> 24 &&& 0x0F#32)).setWidth 8
      sectorCount := sectorCount
      lbaLow := sector.setWidth 8
      lbaMid := (sector >>> 8).setWidth 8
      lbaHigh := (sector >>> 16).setWidth 8 } := rfl

theorem preStages_transfer (device : AtaDevice) (sector : Word) (sectorCount : Byte) (c : Channel)
    (hs : sector.toNat < 2^28) :
    lba (ataPio28PreStages device sector sectorCount c) = sector.toNat ∧
      (ataPio28PreStages device sector sectorCount c).drive.getLsbD 4 = device.isSlave := by
  have hnibble : sector >>> 24 &&& 0x0F#32 = BitVec.ofNat 32 (sector.toNat/2^24) := by
    apply BitVec.eq_of_toNat_eq
    rw [BitVec.toNat_and, BitVec.toNat_ushiftRight, Nat.shiftRight_eq_div_pow, BitVec.toNat_ofNat,
      BitVec.toNat_ofNat, show 15%2^32 = 2^4-1 from rfl, Nat.and_two_pow_sub_one_eq_mod]
    omega
  obtain ⟨hlow,hslave⟩ := drive_nibble (sector.toNat/2^24) (by omega) device.isSlave
  rw [← hnibble] at hlow hslave
  rw [preStages_eq]
  refine ⟨?_,hslave⟩
  rw [lba, hlow]
  simp only [BitVec.toNat_setWidth, BitVec.toNat_ushiftRight, Nat.shiftRight_eq_div_pow]
  omega

/-! ## Moving the words -/

def Channel.advanceBy (c : Channel) (n : ℕ) : Channel :=
  { c with transfer := { c.transfer with next := c.transfer.next+n, left := c.transfer.left-n } }

theorem advanceBy_advanceBy (c : Channel) (m n : ℕ) : (c.advanceBy m).advanceBy n = c.advanceBy (m+n) := by
  simp only [Channel.advanceBy, Nat.add_assoc, Nat.sub_sub]

def stream (c : Channel) : ℕ → DataWord := fun k => c.disks c.transfer.slave (c.transfer.next+k)

theorem stream_advanceBy (c : Channel) (m : ℕ) : stream (c.advanceBy m) = fun k => stream c (m+k) := by
  ext k
  exact congrArg (fun a => (c.disks c.transfer.slave a).getLsbD _) (Nat.add_assoc _ _ _)

theorem readWords_eq (n i j : ℕ) (buffer : ℕ → DataWord) {c : Channel} (hd : c.transfer.direction = .toHost)
    (hn : n ≤ c.transfer.left) :
    readWords n i j buffer c = (splice buffer (j+wordsPerSector*i) (stream c) n, c.advanceBy n) := by
  induction n generalizing j buffer c with
  | zero => rw [readWords, splice_zero]; rfl
  | succ n ih =>
    have hport : readWordPort c = (stream c 0, c.advanceBy 1) := if_pos ⟨hd,by omega⟩
    have hleft : n ≤ (c.advanceBy 1).transfer.left := Nat.le_sub_one_of_lt hn
    rw [readWords, hport, ih (c := c.advanceBy 1) _ _ hd hleft, advanceBy_advanceBy, stream_advanceBy,
      update_eq_splice, Nat.add_right_comm, splice_splice, Nat.add_comm 1 n]

theorem readSectors_eq (n i : ℕ) (buffer : ℕ → DataWord) {c : Channel} (hd : c.transfer.direction = .toHost)
    (hn : wordsPerSector*n ≤ c.transfer.left) :
    readSectors n i buffer c =
      (splice buffer (wordsPerSector*i) (stream c) (wordsPerSector*n), c.advanceBy (wordsPerSector*n)) := by
  induction n generalizing i buffer c with
  | zero => rw [readSectors, Nat.mul_zero, splice_zero]; rfl
  | succ n ih =>
    rw [Nat.mul_add, Nat.mul_one] at hn ⊢
    have hleft : wordsPerSector*n ≤ (c.advanceBy wordsPerSector).transfer.left := Nat.le_sub_of_add_le hn
    rw [readSectors, readWords_eq wordsPerSector i 0 buffer hd (by omega), ataSleep_eq,
      ih (c := c.advanceBy wordsPerSector) _ _ hd hleft, advanceBy_advanceBy, stream_advanceBy, Nat.zero_add,
      Nat.mul_add, Nat.mul_one, splice_splice, Nat.add_comm wordsPerSector]

def Channel.store (c : Channel) (words : ℕ → DataWord) (n : ℕ) : Channel :=
  { c.advanceBy n with
    disks := Function.update c.disks c.transfer.slave
      (splice (c.disks c.transfer.slave) c.transfer.next words n) }

theorem store_store (c : Channel) (words : ℕ → DataWord) (m n : ℕ) :
    (c.store words m).store (fun k => words (m+k)) n = c.store words (m+n) := by
  have hdisk : splice ((c.store words m).disks c.transfer.slave) (c.transfer.next+m) (fun k => words (m+k)) n =
      splice (c.disks c.transfer.slave) c.transfer.next words (m+n) := by
    have hself : (c.store words m).disks c.transfer.slave =
        splice (c.disks c.transfer.slave) c.transfer.next words m := Function.update_self _ _ _
    rw [hself, splice_splice]
  have hstore : (c.store words m).store (fun k => words (m+k)) n = { (c.advanceBy m).advanceBy n with
      disks := Function.update (c.store words m).disks c.transfer.slave
        (splice ((c.store words m).disks c.transfer.slave) (c.transfer.next+m) (fun k => words (m+k)) n) } := rfl
  rw [hstore, hdisk, advanceBy_advanceBy, Channel.store, Function.update_idem]
  rfl

theorem store_zero (c : Channel) (words : ℕ → DataWord) : c.store words 0 = c := by
  rw [Channel.store, splice_zero, Function.update_eq_self]
  rfl

theorem writeWords_eq (buffer : ℕ → DataWord) (n i j : ℕ) {c : Channel} (hd : c.transfer.direction = .toDrive)
    (hn : n ≤ c.transfer.left) :
    writeWords buffer n i j c = c.store (fun k => buffer (j+wordsPerSector*i+k)) n := by
  induction n generalizing j c with
  | zero => rw [writeWords, store_zero]
  | succ n ih =>
    have hport : writeWordPort (buffer (j+wordsPerSector*i)) c =
        c.store (fun k => buffer (j+wordsPerSector*i+k)) 1 := by
      rw [writeWordPort, if_pos ⟨hd,by omega⟩, Channel.store, ← update_eq_splice]
      rfl
    have hleft : n ≤ (c.store (fun k => buffer (j+wordsPerSector*i+k)) 1).transfer.left := Nat.le_sub_one_of_lt hn
    rw [writeWords, hport, ataSleep_eq, ih (c := c.store _ 1) _ hd hleft, Nat.add_comm n 1,
      ← store_store c _ 1 n]
    congr 1
    ext k
    congr 2
    omega

theorem writeSectors_eq (buffer : ℕ → DataWord) (n i : ℕ) {c : Channel} (hd : c.transfer.direction = .toDrive)
    (hn : wordsPerSector*n ≤ c.transfer.left) :
    writeSectors buffer n i c = c.store (fun k => buffer (wordsPerSector*i+k)) (wordsPerSector*n) := by
  induction n generalizing i c with
  | zero => rw [writeSectors, Nat.mul_zero, store_zero]
  | succ n ih =>
    rw [Nat.mul_add, Nat.mul_one] at hn ⊢
    have hleft : wordsPerSector*n ≤
        (c.store (fun k => buffer (wordsPerSector*i+k)) wordsPerSector).transfer.left := Nat.le_sub_of_add_le hn
    rw [writeSectors, writeWords_eq buffer wordsPerSector i 0 hd (by omega), ataSleep_eq]
    simp only [Nat.zero_add]
    rw [ih (c := c.store _ wordsPerSector) _ hd hleft, Nat.add_comm (wordsPerSector*n),
      ← store_store c _ wordsPerSector (wordsPerSector*n)]
    congr 1
    ext k
    congr 2
    rw [Nat.mul_add, Nat.mul_one, Nat.add_assoc]

/-! ## Transfers -/

def started (direction : Direction) (device : AtaDevice) (sector : Word) (sectorCount : Byte) (c : Channel) : Channel :=
  { startTransfer direction (ataPio28PreStages device sector sectorCount c) with busy := 0 }

theorem waits_eq (fuel : ℕ) {t : Channel} (hleft : t.transfer.left ≠ 0) :
    ((ataWaitForStatus deviceReady fuel t).bind fun c => ataWaitForStatus deviceDataReady fuel c) =
      if t.busy < fuel then .ok { t with busy := 0 } else .error .diverges := by
  have hstatus : status { t with busy := 0 } = deviceReady ||| deviceDataReady := by
    rw [status_ready rfl]
    exact if_pos hleft
  have hready : status { t with busy := 0 } &&& deviceReady ≠ 0#8 := by rw [hstatus]; decide
  have hdata : status { t with busy := 0 } &&& deviceDataReady ≠ 0#8 := by rw [hstatus]; decide
  rw [ataWaitForStatus_eq fuel t (by decide) hready]
  by_cases hfuel : t.busy < fuel
  · rw [if_pos hfuel]
    have hsecond := ataWaitForStatus_eq fuel { t with busy := 0 } (by decide) hdata
    rw [if_pos (Nat.zero_lt_of_lt hfuel)] at hsecond
    exact hsecond
  · rw [if_neg hfuel]
    rfl

theorem startTransfer_left (direction : Direction) (c : Channel) : (startTransfer direction c).transfer.left ≠ 0 := by
  apply Nat.mul_ne_zero
  · rw [sectors]
    split
    · decide
    · rename_i hcount
      rwa [← BitVec.toNat_inj] at hcount
  · decide

theorem ataPio28Start_eq {cmd : Byte} {direction : Direction} (hcmd : ∀ c, command cmd c = startTransfer direction c)
    (fuel : ℕ) {device : AtaDevice} {buffer : Word} (sector : Word) (sectorCount : Byte) (c : Channel)
    (hpresent : device.present = true) (hbuffer : buffer ≠ null) :
    ataPio28Start cmd fuel device buffer sector sectorCount c =
      if c.delay < fuel then .ok (started direction device sector sectorCount c) else .error .diverges := by
  have hcheck : ¬ (¬ device.present ∨ buffer = null ∨ sector < 0#32 ∨ sectorCount < 0#8) := by
    rw [not_or, not_or, not_or, not_not]
    exact ⟨hpresent,hbuffer,BitVec.not_lt_zero,BitVec.not_lt_zero⟩
  have hport : writePort ataCommandPort cmd (ataPio28PreStages device sector sectorCount c) =
      startTransfer direction (ataPio28PreStages device sector sectorCount c) := hcmd _
  rw [ataPio28Start, if_neg hcheck]
  simp only [hport]
  exact waits_eq fuel (startTransfer_left direction _)

theorem started_left {direction : Direction} {device : AtaDevice} {sector : Word} (sectorCount : Byte) (c : Channel) :
    wordsPerSector*sectorCount.toNat ≤ (started direction device sector sectorCount c).transfer.left := by
  change wordsPerSector*sectorCount.toNat ≤ (if sectorCount = 0#8 then 256 else sectorCount.toNat)*wordsPerSector
  rw [Nat.mul_comm]
  apply Nat.mul_le_mul_right
  split
  · rename_i hcount
    rw [hcount]
    decide
  · exact le_rfl

theorem started_transfer (direction : Direction) (device : AtaDevice) {sector : Word} (sectorCount : Byte) (c : Channel)
    (hs : sector.toNat < 2^28) :
    (started direction device sector sectorCount c).transfer.slave = device.isSlave ∧
      (started direction device sector sectorCount c).transfer.next = sector.toNat*wordsPerSector := by
  obtain ⟨hlba,hslave⟩ := preStages_transfer device sector sectorCount c hs
  exact ⟨hslave,congrArg (· * wordsPerSector) hlba⟩

def stored (device : AtaDevice) (words : ℕ → DataWord) (sector count : ℕ) (disks : Bool → ℕ → DataWord) :
    Bool → ℕ → DataWord :=
  Function.update disks device.isSlave
    (splice (disks device.isSlave) (sector*wordsPerSector) words (wordsPerSector*count))

/-- Both transfers end when the fuel covers what the drive was busy with and
what the command keeps it busy with. -/
theorem transfer_eq {γ : Type} (cmd : Byte) (direction : Direction)
    (hcmd : ∀ c, command cmd c = startTransfer direction c) (fuel : ℕ) {device : AtaDevice} {buffer : Word}
    (sector : Word) (sectorCount : Byte) (c : Channel) (hpresent : device.present = true) (hbuffer : buffer ≠ null)
    (k : Channel → γ) :
    ((ataBlockIfBusy fuel c).bind fun c => (ataPio28Start cmd fuel device buffer sector sectorCount c).map k) =
      if c.busy < fuel ∧ c.delay < fuel then .ok (k (started direction device sector sectorCount { c with busy := 0 }))
      else .error .diverges := by
  rw [ataBlockIfBusy_eq]
  by_cases hbusy : c.busy < fuel
  · rw [if_pos hbusy]
    change Except.map k (ataPio28Start cmd fuel device buffer sector sectorCount { c with busy := 0 }) = _
    rw [ataPio28Start_eq hcmd fuel sector sectorCount _ hpresent hbuffer]
    by_cases hdelay : c.delay < fuel
    · rw [if_pos hdelay, if_pos ⟨hbusy,hdelay⟩]
      rfl
    · rw [if_neg hdelay, if_neg fun h => hdelay h.2]
      rfl
  · rw [if_neg hbusy, if_neg fun h => hbusy h.1]
    rfl

theorem count_byte (numSectors : Word) : (numSectors.setWidth 8).toNat = numSectors.toNat%256 :=
  BitVec.toNat_setWidth 8 numSectors

theorem ataWrite_eq (device : AtaDevice) (buf : Word) {beginSector : Word} (words : ℕ → DataWord) (numSectors : Word)
    (c : Channel) (hpresent : device.present = true) (hbuf : buf ≠ null) (hbegin : beginSector.toNat < 2^28) :
    ∃ c', c'.disks = stored device words beginSector.toNat (numSectors.toNat%256) c.disks ∧
      ∀ fuel, ataWrite fuel device buf words beginSector numSectors c =
        if c.busy < fuel ∧ c.delay < fuel then .ok c' else .error .diverges := by
  refine ⟨_,?_,fun fuel => transfer_eq ataCmdWritePio .toDrive (fun _ => rfl) fuel beginSector
    (numSectors.setWidth 8) c hpresent hbuf (writeSectors words (numSectors.setWidth 8).toNat 0)⟩
  obtain ⟨hslave,hnext⟩ := started_transfer .toDrive device (numSectors.setWidth 8)
    { c with busy := 0 } hbegin
  rw [writeSectors_eq words _ 0 rfl (started_left _ _), Channel.store, hslave, hnext, count_byte, stored]
  simp only [Nat.mul_zero, Nat.zero_add]
  rfl

theorem ataRead_eq (device : AtaDevice) (buf : Word) {beginSector : Word} (words : ℕ → DataWord) (numSectors : Word)
    (c : Channel) (hpresent : device.present = true) (hbuf : buf ≠ null) (hbegin : beginSector.toNat < 2^28) :
    ∃ c', c'.disks = c.disks ∧ ∀ fuel, ataRead fuel device buf words beginSector numSectors c =
      if c.busy < fuel ∧ c.delay < fuel then
        .ok (splice words 0 (fun k => c.disks device.isSlave (beginSector.toNat*wordsPerSector+k))
          (wordsPerSector*(numSectors.toNat%256)), c')
      else .error .diverges := by
  obtain ⟨hslave,hnext⟩ := started_transfer .toHost device (numSectors.setWidth 8)
    { c with busy := 0 } hbegin
  have hread := readSectors_eq (numSectors.setWidth 8).toNat 0 words
    (c := started .toHost device beginSector (numSectors.setWidth 8) { c with busy := 0 }) rfl (started_left _ _)
  have hstream : stream (started .toHost device beginSector (numSectors.setWidth 8) { c with busy := 0 }) =
      fun k => c.disks device.isSlave (beginSector.toNat*wordsPerSector+k) := by
    unfold stream
    rw [hslave, hnext]
    rfl
  rw [hstream, count_byte, Nat.mul_zero] at hread
  have hrun := fun fuel => transfer_eq ataCmdReadPio .toHost (fun _ => rfl) fuel beginSector
    (numSectors.setWidth 8) c hpresent hbuf (readSectors (numSectors.setWidth 8).toNat 0 words)
  rw [count_byte, hread] at hrun
  exact ⟨(started .toHost device beginSector (numSectors.setWidth 8) { c with busy := 0 }).advanceBy _,rfl,hrun⟩

/-! ## The round trip -/

/-- A write stores the buffer in the sectors it names and nowhere else, and a
read with the same arguments fills the buffer with it. -/
def RoundTrip (beginSector numSectors : Word) : Prop :=
  ∀ (device : AtaDevice) (buf : Word) (c : Channel) (words old : ℕ → DataWord),
    device.present = true → buf ≠ null → c.transfer.left = 0 →
    ∃ fuel c', ataWrite fuel device buf words beginSector numSectors c = .ok c' ∧
      c'.disks = stored device words beginSector.toNat numSectors.toNat c.disks ∧
      ∃ fuel' c'', ataRead fuel' device buf old beginSector numSectors c' =
        .ok (splice old 0 words (wordsPerSector*numSectors.toNat), c'') ∧ c''.disks = c'.disks

theorem roundTrip_of_byte {beginSector numSectors : Word} (hbegin : beginSector.toNat < 2^28)
    (hnum : numSectors.toNat ≤ 255) : RoundTrip beginSector numSectors := by
  intro device buf c words old hpresent hbuf _
  have hmod : numSectors.toNat%256 = numSectors.toNat := Nat.mod_eq_of_lt (by omega)
  obtain ⟨c',hdisks,hwrite⟩ := ataWrite_eq device buf words numSectors c hpresent hbuf hbegin
  obtain ⟨c'',hsame,hread⟩ := ataRead_eq device buf old numSectors c' hpresent hbuf hbegin
  rw [hmod] at hdisks
  refine ⟨max c.busy c.delay+1,c',by rw [hwrite, if_pos (by omega)],hdisks,max c'.busy c'.delay+1,c'',?_,hsame⟩
  have hback : ∀ k < wordsPerSector*numSectors.toNat,
      c'.disks device.isSlave (beginSector.toNat*wordsPerSector+k) = words k := by
    intro k hk
    rw [hdisks, stored, Function.update_self, splice_inside _ _ (by omega) (by omega), Nat.add_sub_cancel_left]
  rw [hread, if_pos (by omega), hmod, splice_congr old 0 hback]

def idle : Channel := ⟨0#8, 0#8, 0#8, 0#8, 0#8, 0, 0, ⟨.toHost, false, 0, 0⟩, fun _ _ => 0#16⟩

/-- The last sector of a request that a byte cannot count is not written. -/
theorem not_roundTrip {beginSector numSectors : Word} (hbegin : beginSector.toNat < 2^28)
    (hnum : 255 < numSectors.toNat) : ¬ RoundTrip beginSector numSectors := by
  intro h
  obtain ⟨fuel,c',hok,hdisks,-⟩ := h ⟨false, true⟩ 1#32 idle (fun _ => 1#16) (fun _ => 0#16) rfl (by decide) rfl
  obtain ⟨t,ht,hwrite⟩ := ataWrite_eq ⟨false, true⟩ 1#32 (fun _ => 1#16) numSectors idle rfl
    (by decide) hbegin
  have hsame : t = c' := by
    rw [hwrite] at hok
    split at hok
    · exact Except.ok.inj hok
    · simp at hok
  have hlt : numSectors.toNat%256 < numSectors.toNat := by omega
  have hword := congrFun (congrFun (ht.symm.trans (hsame ▸ hdisks)) false)
    (beginSector.toNat*wordsPerSector+wordsPerSector*(numSectors.toNat%256))
  rw [stored, stored, Function.update_self, Function.update_self, splice_outside _ _ (by omega),
    splice_inside _ _ (by omega) (by unfold wordsPerSector; omega)] at hword
  have hblank : (0#16 : DataWord) = 1#16 := hword
  exact absurd hblank (by decide)

/-- For every range of sectors the drive has, the round trip holds precisely
when the number of sectors fits the byte it is passed on as. -/
theorem ata_round_trip_iff (beginSector numSectors : Word) (hnum : 1 ≤ numSectors.toNat)
    (hrange : beginSector.toNat+numSectors.toNat ≤ 2^28) :
    RoundTrip beginSector numSectors ↔ numSectors.toNat ≤ 255 := by
  have hbegin : beginSector.toNat < 2^28 := by omega
  constructor
  · intro h
    by_contra hlarge
    exact not_roundTrip hbegin (by omega) h
  · exact roundTrip_of_byte hbegin

theorem one_sector_round_trip : RoundTrip 0#32 1#32 := (ata_round_trip_iff 0#32 1#32 (by decide) (by decide)).mpr (by decide)

/-- The drive waits for 256 sectors and the host sends none. -/
theorem full_count_lost : ¬ RoundTrip 0#32 256#32 := not_roundTrip (by decide) (by decide)

end MikeOS.Ata
