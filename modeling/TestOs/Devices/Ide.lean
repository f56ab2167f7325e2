/-
# Devices.Ide -- ide.c, and the drives behind it

`ata_rw_pio` moves sectors between memory and a drive, word by word through one
port, and learns only from the status register when the drive is ready and whether
it has failed.  Two drives share a channel and its registers; the drive that is
selected answers.

A drive here is what the code relies on: it is busy for some time after a command
and after each sector, and ignores what is written meanwhile; then it offers the
next sector, or it has failed.  How long it is busy and when it fails is its plan,
about which nothing is assumed but that it is busy for a moment at least and never
longer than its limit.  `sector_read` and `sector_write` say what the inner loop
does to such a drive, `reads_from` and `writes_from` what all of them do.
-/
import TestOs.Library.Programs
import TestOs.Library.Bytes

namespace TestOs.Devices

open TestOs.Library TestOs.Library.Prog

set_option autoImplicit false

/-! ## 16-bit words in memory -/

/-- The word at an address, least significant byte first. -/
def half (b : Bytes) (i : Nat) : BitVec 16 := b (i + 1) ++ b i

/-- A word stored at an address. -/
def putHalf (b : Bytes) (i : Nat) (v : BitVec 16) : Bytes :=
  splice b i (fun k => (v >>> (8 * k)).setWidth 8) 2

theorem putHalf_half (dst src : Bytes) (i j : Nat) :
    putHalf dst i (half src j) = splice dst i (slice src j) 2 := by
  have low : (half src j).setWidth 8 = src j := by
    apply BitVec.eq_of_getLsbD_eq
    intro k inByte
    rw [half, BitVec.getLsbD_setWidth, BitVec.getLsbD_append]
    simp [inByte]
  have high : (half src j >>> 8).setWidth 8 = src (j + 1) := by
    apply BitVec.eq_of_getLsbD_eq
    intro k inByte
    rw [half, BitVec.getLsbD_setWidth, BitVec.getLsbD_ushiftRight, BitVec.getLsbD_append]
    simp [inByte]
  refine splice_congr fun k inWord => ?_
  obtain rfl | rfl : k = 0 ∨ k = 1 := by omega
  · exact low
  · exact high

/-- A word more of a copy. -/
theorem splice_half (dst src : Bytes) (i j n : Nat) :
    putHalf (splice dst i (slice src j) n) (i + n) (half src (j + n)) =
      splice dst i (slice src j) (n + 2) := by
  rw [putHalf_half, ← slice_slice, splice_splice]

/-! ## A drive -/

/-- Where a command fails: when it should offer a sector, or while it stores one. -/
inductive Fault where
  | offering (sector : Nat)
  | storing (sector : Nat)
  deriving DecidableEq, Repr

/-- The answers of a drive. -/
structure DrivePlan where
  /-- Command `n` fails there. -/
  fault : Nat → Option Fault
  /-- For how many readings of the status it is busy, the `n`-th time it is. -/
  pause : Nat → Nat
  limit : Nat
  pause_pos : ∀ n, 0 < pause n
  pause_le : ∀ n, pause n ≤ limit
  /-- The status of a drive that has failed: not busy, and an error or a fault. -/
  failure : BitVec 8
  failure_bits : failure &&& 0x80 = 0 ∧ (failure &&& 0x01 ≠ 0 ∨ failure &&& 0x20 ≠ 0)

/-- A command under way: `done` sectors are through, and `word` words of the next. -/
structure Transfer where
  write : Bool
  command : Nat
  lba : Nat
  count : Nat
  done : Nat
  word : Nat

inductive Phase where
  | idle
  | failed
  | moving (t : Transfer)

/-- A drive: sector `s` is bytes `512 s` to `512 s + 511` of its data. -/
structure Drive where
  plan : DrivePlan
  data : Bytes
  phase : Phase
  /-- For so many readings of the status it is busy. -/
  busy : Nat
  /-- The words of the sector that is being written. -/
  taken : Bytes
  commands : Nat
  pauses : Nat

namespace Drive

variable (d : Drive)

/-- What the drive does next takes it a while. -/
def pauseThen (phase : Phase) : Drive :=
  { d with phase, busy := d.plan.pause d.pauses, pauses := d.pauses + 1 }

/-- Go on to the next sector, if there is one. -/
def offer (t : Transfer) : Drive :=
  if t.done = t.count then d.pauseThen .idle
  else if d.plan.fault t.command = some (.offering t.done) then d.pauseThen .failed
  else d.pauseThen (.moving { t with word := 0 })

def status : BitVec 8 :=
  if d.busy ≠ 0 then 0x80
  else
    match d.phase with
    | .idle => 0x50
    | .failed => d.plan.failure
    | .moving _ => 0x58

/-- The drive after its status has been read. -/
def polled : Drive := { d with busy := d.busy - 1 }

/-- A command, with the sector address and the sector count. -/
def command (cmd : BitVec 8) (lba count : Nat) : Drive :=
  match d.phase with
  | .moving _ => d
  | _ =>
    let begin (write : Bool) : Drive :=
      { d with commands := d.commands + 1 }.offer ⟨write, d.commands, lba, count, 0, 0⟩
    if cmd = 0x20 ∨ cmd = 0xC4 then begin false
    else if cmd = 0x30 ∨ cmd = 0xC5 then begin true
    else if cmd = 0xE7 then d.pauseThen .idle
    else d.pauseThen .failed

/-- A word is read from the data port. -/
def give : BitVec 16 × Drive :=
  match d.phase with
  | .moving t =>
      if d.busy = 0 ∧ t.write = false then
        (half d.data (512 * (t.lba + t.done) + 2 * t.word),
          if t.word = 255 then d.offer { t with done := t.done + 1 }
          else { d with phase := .moving { t with word := t.word + 1 } })
      else (0xFFFF, d)
  | _ => (0xFFFF, d)

/-- A word is written to the data port. -/
def take (v : BitVec 16) : Drive :=
  match d.phase with
  | .moving t =>
      if d.busy = 0 ∧ t.write = true then
        let taken := putHalf d.taken (2 * t.word) v
        if t.word = 255 then
          if d.plan.fault t.command = some (.storing t.done) then
            { d with taken := taken }.pauseThen .failed
          else
            { d with taken := taken, data := splice d.data (512 * (t.lba + t.done)) taken 512 }.offer
              { t with done := t.done + 1 }
        else { d with taken := taken, phase := .moving { t with word := t.word + 1 } }
      else d
  | _ => d

end Drive

/-! ## The ports -/

/-- Two drives, and the registers that they share. -/
structure Channel where
  /-- The master and the slave. -/
  drive : Bool → Drive
  device : BitVec 8
  count : BitVec 8
  low : BitVec 8
  mid : BitVec 8
  high : BitVec 8

namespace Channel

variable (c : Channel)

/-- Whether the slave is selected. -/
def slave : Bool := c.device.getLsbD 4

def current : Drive := c.drive c.slave

def setCurrent (d : Drive) : Channel := { c with drive := Function.update c.drive c.slave d }

def lba : Nat := (c.device.setWidth 4 ++ c.high ++ c.mid ++ c.low).toNat

def sectors : Nat := if c.count = 0 then 256 else c.count.toNat

/-- A byte is written to a register; a drive that is busy ignores it. -/
def out8 (reg : Nat) (v : BitVec 8) : Channel :=
  if c.current.busy ≠ 0 then c
  else
    match reg with
    | 2 => { c with count := v }
    | 3 => { c with low := v }
    | 4 => { c with mid := v }
    | 5 => { c with high := v }
    | 6 => { c with device := v }
    | 7 => c.setCurrent (c.current.command v c.lba c.sectors)
    | _ => c

/-- A byte is read from a register: the status from 7 and from the control port, 8. -/
def in8 (reg : Nat) : BitVec 8 × Channel :=
  match reg with
  | 2 => (c.count, c)
  | 3 => (c.low, c)
  | 4 => (c.mid, c)
  | 5 => (c.high, c)
  | 6 => (c.device, c)
  | 7 => (c.current.status, c.setCurrent c.current.polled)
  | 8 => (c.current.status, c.setCurrent c.current.polled)
  | _ => (0, c)

end Channel

/-- The two channels, and the memory of the caller. -/
structure Ide where
  channel : Bool → Channel
  mem : Bytes

/-- The channel of a port and the register: 0 to 7 at `ATA_BUS_PRIMARY` and
`ATA_BUS_SECONDARY`, 8 at `ATA_CTL_PRI_PRIMARY` and `ATA_CTL_PRI_SECONDARY`. -/
def registerAt (port : BitVec 16) : Option (Bool × Nat) :=
  if 0x1F0 ≤ port ∧ port < 0x1F8 then some (false, (port - 0x1F0).toNat)
  else if 0x170 ≤ port ∧ port < 0x178 then some (true, (port - 0x170).toNat)
  else if port = 0x3F6 then some (false, 8)
  else if port = 0x376 then some (true, 8)
  else none

/-- What the code does; an error is the status -1. -/
abbrev IdeM (α : Type) := Prog Ide Unit α

def ideIn8 (port : BitVec 16) : IdeM (BitVec 8) := do
  match registerAt port with
  | some (i, reg) =>
      let s ← state
      let (v, c) := (s.channel i).in8 reg
      update fun s => { s with channel := Function.update s.channel i c }
      return v
  | none => return 0xFF

def ideOut8 (port : BitVec 16) (v : BitVec 8) : IdeM Unit :=
  match registerAt port with
  | some (i, reg) =>
      update fun s => { s with channel := Function.update s.channel i ((s.channel i).out8 reg v) }
  | none => pure ()

def ideIn16 (port : BitVec 16) : IdeM (BitVec 16) := do
  match registerAt port with
  | some (i, 0) =>
      let s ← state
      let (v, d) := (s.channel i).current.give
      update fun s => { s with channel := Function.update s.channel i ((s.channel i).setCurrent d) }
      return v
  | _ => return 0xFFFF

def ideOut16 (port : BitVec 16) (v : BitVec 16) : IdeM Unit :=
  match registerAt port with
  | some (i, 0) =>
      update fun s => { s with
        channel := Function.update s.channel i
          ((s.channel i).setCurrent ((s.channel i).current.take v)) }
  | _ => pure ()

/-! ## ide.c -/

/-- `struct ide`. -/
structure IdeDevice where
  drive : BitVec 8
  bus : BitVec 16
  ctrl : BitVec 16

/-- `ide_devices`. -/
def ideDevices : Fin 4 → IdeDevice :=
  ![⟨0xA0, 0x1F0, 0x3F6⟩, ⟨0xB0, 0x1F0, 0x3F6⟩, ⟨0xA0, 0x170, 0x376⟩, ⟨0xB0, 0x170, 0x376⟩]

/-- `while (io_in8(bus + ATA_REG_STATUS) & ATA_SR_BSY) {}`, at most so many times. -/
def awaitIdle (dev : IdeDevice) : Nat → IdeM Unit
  | 0 => halt
  | fuel + 1 => do
      let status ← ideIn8 (dev.bus + 7)
      if status &&& 0x80 ≠ 0 then awaitIdle dev fuel

/-- The second `while`, with the status at its end. -/
def awaitData (dev : IdeDevice) : Nat → IdeM (BitVec 8)
  | 0 => halt
  | fuel + 1 => do
      let status ← ideIn8 (dev.bus + 7)
      if (status &&& 0x80 ≠ 0 ∨ status &&& 0x08 = 0) ∧ status &&& 0x01 = 0 ∧ status &&& 0x20 = 0 then
        awaitData dev fuel
      else return status

/-- The innermost loop's body, for the word at `p`. -/
def moveWord (dev : IdeDevice) (write : Bool) (p : Nat) : IdeM Unit := do
  if write then
    let s ← state
    ideOut16 dev.bus (half s.mem p)
  else
    let v ← ideIn16 dev.bus
    update fun s => { s with mem := putHalf s.mem p v }

/-- The loop's body, for the sector at `p`. -/
def moveSector (fuel : Nat) (dev : IdeDevice) (write : Bool) (p : Nat) : IdeM Unit := do
  forUp (fun _ => do let _ ← ideIn8 dev.ctrl) 4 0
  let status ← awaitData dev fuel
  if status &&& 0x01 ≠ 0 ∨ status &&& 0x20 ≠ 0 then fail ()
  forUp (fun i => moveWord dev write (p + 2 * i)) 256 0
  if write then ideOut8 (dev.bus + 7) 0xE7

/-- `ata_rw_pio`; `write` is `ATA_PIO_FLAG_WRITE`. -/
def ataRwPio (fuel : Nat) (dev : IdeDevice) (lba : BitVec 32) (buffer : Nat) (sectorCount : BitVec 32)
    (write : Bool) : IdeM Unit := do
  if (256 : BitVec 32).slt sectorCount then fail ()
  let sectorCount : BitVec 8 := sectorCount.setWidth 8
  awaitIdle dev fuel
  ideOut8 (dev.bus + 6)
    ((if dev.drive = 0xA0 then 0xE0 else 0xF0) ||| ((lba.sshiftRight 24).setWidth 8 &&& 0x0F))
  ideOut8 (dev.bus + 2) sectorCount
  ideOut8 (dev.bus + 3) (lba.setWidth 8)
  ideOut8 (dev.bus + 4) ((lba.sshiftRight 8).setWidth 8)
  ideOut8 (dev.bus + 5) ((lba.sshiftRight 16).setWidth 8)
  let cmd : BitVec 8 :=
    if write then if sectorCount = 1 then 0x30 else 0xC5
    else if sectorCount = 1 then 0x20 else 0xC4
  ideOut8 (dev.bus + 7) cmd
  let sectors := if sectorCount = 0 then 256 else sectorCount.toNat
  forUp (fun j => moveSector fuel dev write (buffer + 512 * j)) sectors 0

/-- `ata_read` and `ata_write` with the device of a disk: the bytes that were moved. -/
def ataTransfer (write : Bool) (fuel : Nat) (dev : IdeDevice) (sectorNumber : BitVec 32) (buffer : Nat)
    (sectorCount : BitVec 32) : IdeM (BitVec 32) := do
  match ← attempt (ataRwPio fuel dev sectorNumber buffer sectorCount write) with
  | .error _ => return 0
  | .ok _ => return sectorCount * 512

def ataRead : Nat → IdeDevice → BitVec 32 → Nat → BitVec 32 → IdeM (BitVec 32) := ataTransfer false

def ataWrite : Nat → IdeDevice → BitVec 32 → Nat → BitVec 32 → IdeM (BitVec 32) := ataTransfer true

end TestOs.Devices
