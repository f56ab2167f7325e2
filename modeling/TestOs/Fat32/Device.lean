/-
# Fat32.Device -- the disks, and the machine that fat32.c runs on

A disk is its bytes: sector `s` is bytes `512 s` to `512 s + 511`.  The machine
holds all disks, the `struct fat32_fs` objects by address, and the file-scope
variables of fat32.c, which all mounted disks share: one FAT buffer of two
sectors and what it remembers about its contents.

What the hardware and the allocator answer is not for fat32.c to decide, so it
is a parameter, `World`: which device operations fail and after how many
sectors, which allocations fail, and what fresh memory holds.  Operations and
allocations are numbered, and the answers are functions of the number.

`trace` lists what happened, latest first.  No operation reads it; it is there
for properties of the order of events.
-/
import TestOs.Library.Programs
import TestOs.Library.Bytes

namespace TestOs.Fat32

open TestOs.Library

set_option autoImplicit false

abbrev DiskId := Nat
/-- The address of a `struct fat32_fs`. -/
abbrev FsPtr := Nat

/-- A value in a `uint32_t` or `size_t`. -/
def w32 (x : Nat) : Nat := x % 2 ^ 32

theorem w32_lt (x : Nat) : w32 x < 2 ^ 32 := Nat.mod_lt _ (by decide)

theorem w32_of_lt {x : Nat} (small : x < 2 ^ 32) : w32 x = x := Nat.mod_eq_of_lt small

/-- The fields of `struct fat32_bpb` and `struct fat32_extended_bpb` that are read. -/
structure Bpb where
  sectorSize : BitVec 16
  clusterSectors : BitVec 8
  reservedSectors : BitVec 16
  numFats : BitVec 8
  rootdirLength : BitVec 16
  totalSectors : BitVec 16
  fatSectors : BitVec 16
  totalSectorsLarge : BitVec 32
  extFatSectors : BitVec 32
  rootdirCluster : BitVec 32
  bootSignature : BitVec 8
  magic : BitVec 16
  deriving DecidableEq, Repr

/-- `struct fat32_fs`. -/
structure Fs where
  bpb : Bpb
  totalSectors : BitVec 32
  firstDataCluster : BitVec 32
  deriving DecidableEq, Repr

namespace Fs

variable (fs : Fs)

/-- `fs->bpb.cluster_sectors` and the other fields as numbers. -/
def clusterSectors : Nat := fs.bpb.clusterSectors.toNat
def clusterSize : Nat := fs.clusterSectors * 512
def reservedSectors : Nat := fs.bpb.reservedSectors.toNat
def numFats : Nat := fs.bpb.numFats.toNat
/-- `fs->bpb.extended.fat_sectors`. -/
def fatSectors : Nat := fs.bpb.extFatSectors.toNat

end Fs

/-- `struct disk`, as far as fat32.c uses it. -/
structure Disk where
  data : Bytes
  total : Nat
  free : Nat
  used : Nat
  fs : Option FsPtr

/-- The answers of the hardware and of the allocator. -/
structure World where
  /-- Device operation `n` fails after so many sectors. -/
  fault : Nat → Option Nat
  /-- Allocation `n` returns NULL. -/
  noMemory : Nat → Bool
  /-- The address that allocation `n` returns. -/
  address : Nat → FsPtr
  /-- What the memory of allocation `n` holds, in words. -/
  garbage : Nat → Nat → BitVec 32
  /-- What follows `zero_cluster` in memory at device operation `n`. -/
  stray : Nat → Bytes
  /-- What `get_timestamp` returns at device operation `n`. -/
  timestamp : Nat → BitVec 32

/-- Everything that fat32.c can change. -/
structure Core where
  disk : DiskId → Disk
  fsMem : FsPtr → Fs
  /-- `fat32_buf`. -/
  buf : Bytes
  bufFs : Option FsPtr
  bufSector : Nat
  bufChanged : Bool

/-- What happened. -/
inductive Event where
  /-- `fat32_buf` was filled from the disk. -/
  | load (disk : DiskId)
  /-- `get_next_cluster_fat32` returned an entry of `fat32_buf` as one of the disk's. -/
  | serve (disk : DiskId)
  /-- `fat32_buf` is written to the disk. -/
  | writeBack (disk : DiskId)
  /-- `count` sectors are written to the disk. -/
  | write (before : Core) (disk : DiskId) (sector count : Nat)
  /-- `fat32_format` of the disk begins. -/
  | format (disk : DiskId)

structure Machine extends Core where
  world : World
  /-- Device operations so far. -/
  io : Nat
  /-- Allocations so far. -/
  mallocs : Nat
  trace : List Event

/-- The error codes: `-FAT_ENOENT` is -1 and so on. -/
inductive FatError where
  | enoent
  | eio
  | einval
  | enospc
  deriving DecidableEq, Repr

/-- The code without its sign. -/
def FatError.code : FatError → Nat
  | .enoent => 1
  | .eio => 2
  | .einval => 3
  | .enospc => 4

/-- What a function of fat32.c does. -/
abbrev FatM (α : Type) := Prog Machine FatError α

open Prog

def note (event : Event) : FatM Unit :=
  update fun m => { m with trace := event :: m.trace }

/-- `x / y`, which traps when `y` is 0. -/
def divide (x y : Nat) : FatM Nat := do
  ensure (y ≠ 0)
  return x / y

/-- The `struct fat32_fs` at an address. -/
def readFs (fs : FsPtr) : FatM Fs := do
  return (← state).fsMem fs

/-- How many of `count` sectors the next device operation transfers. -/
def Machine.transferred (m : Machine) (count : Nat) : Nat :=
  match m.world.fault m.io with
  | none => count
  | some done => min done count

def Core.setData (c : Core) (disk : DiskId) (data : Bytes) : Core :=
  { c with disk := Function.update c.disk disk { c.disk disk with data := data } }

/-- `disk->device_read`: sectors into `dst`, from `at_` on.  The flag is whether
the result is not 0. -/
def deviceRead (disk : DiskId) (sector : Nat) (dst : Bytes) (at_ count : Nat) :
    FatM (Bool × Bytes) := do
  let m ← state
  update fun m => { m with io := m.io + 1 }
  return ((m.world.fault m.io).isNone,
    splice dst at_ (slice (m.disk disk).data (512 * sector)) (512 * m.transferred count))

/-- `disk->device_write`: sectors from the start of `src`. -/
def deviceWrite (disk : DiskId) (sector : Nat) (src : Bytes) (count : Nat) : FatM Bool := do
  let m ← state
  note (.write m.toCore disk sector count)
  update fun m => { m with
    toCore := m.toCore.setData disk
      (splice (m.disk disk).data (512 * sector) src (512 * m.transferred count))
    io := m.io + 1 }
  return (m.world.fault m.io).isNone

/-! ## What the primitives change -/

/-- The machine with another core, after more device operations and events. -/
def Machine.ran (m : Machine) (core : Core) (io : Nat) (trace : List Event) : Machine :=
  { m with toCore := core, io := io, trace := trace }

/-- No device operation fails. -/
def Machine.Reliable (m : Machine) : Prop := ∀ n, m.world.fault n = none

section Primitives

variable {m : Machine} {c : Core} {disk disk' : DiskId} {data data' : Bytes} {io io' : Nat}
  {trace trace' : List Event}

@[simp] theorem ran_toCore : (m.ran c io trace).toCore = c := rfl
@[simp] theorem ran_world : (m.ran c io trace).world = m.world := rfl
@[simp] theorem ran_mallocs : (m.ran c io trace).mallocs = m.mallocs := rfl
@[simp] theorem ran_trace : (m.ran c io trace).trace = trace := rfl
@[simp] theorem ran_io : (m.ran c io trace).io = io := rfl
@[simp] theorem ran_ran {c' : Core} : (m.ran c io trace).ran c' io' trace' = m.ran c' io' trace' := rfl

@[simp] theorem setData_data : ((c.setData disk data).disk disk).data = data := by
  simp [Core.setData]
@[simp] theorem setData_fs : ((c.setData disk data).disk disk').fs = (c.disk disk').fs := by
  by_cases same : disk' = disk
  · subst same
    simp [Core.setData]
  · simp [Core.setData, same]
theorem setData_of_ne (apart : disk' ≠ disk) : (c.setData disk data).disk disk' = c.disk disk' := by
  simp [Core.setData, apart]
@[simp] theorem setData_setData :
    (c.setData disk data).setData disk data' = c.setData disk data' := by
  simp [Core.setData]
@[simp] theorem setData_self : c.setData disk (c.disk disk).data = c := by
  simp [Core.setData]
@[simp] theorem setData_fsMem : (c.setData disk data).fsMem = c.fsMem := rfl
@[simp] theorem setData_buf : (c.setData disk data).buf = c.buf := rfl
@[simp] theorem setData_bufFs : (c.setData disk data).bufFs = c.bufFs := rfl
@[simp] theorem setData_bufSector : (c.setData disk data).bufSector = c.bufSector := rfl
@[simp] theorem setData_bufChanged : (c.setData disk data).bufChanged = c.bufChanged := rfl

theorem transferred_le (count : Nat) : m.transferred count ≤ count := by
  unfold Machine.transferred
  split
  · exact le_rfl
  · exact Nat.min_le_right ..

variable {α : Type} {onFail : FatError → Machine → Prop}

@[simp] theorem wp_note {event : Event} {post : Unit → Machine → Prop} :
    wp (note event) post onFail m ↔ post () (m.ran m.toCore m.io (event :: m.trace)) := Iff.rfl

@[simp] theorem wp_readFs {fs : FsPtr} {post : Fs → Machine → Prop} :
    wp (readFs fs) post onFail m ↔ post (m.fsMem fs) m := Iff.rfl

@[simp] theorem wp_divide {x y : Nat} {post : Nat → Machine → Prop} :
    wp (divide x y) post onFail m ↔ y ≠ 0 ∧ post (x / y) m := by
  simp [divide]

@[simp] theorem wp_deviceRead {sector at_ count : Nat} {dst : Bytes}
    {post : Bool × Bytes → Machine → Prop} :
    wp (deviceRead disk sector dst at_ count) post onFail m ↔
      post ((m.world.fault m.io).isNone,
        splice dst at_ (slice (m.disk disk).data (512 * sector)) (512 * m.transferred count))
        (m.ran m.toCore (m.io + 1) m.trace) := Iff.rfl

@[simp] theorem wp_deviceWrite {sector count : Nat} {src : Bytes} {post : Bool → Machine → Prop} :
    wp (deviceWrite disk sector src count) post onFail m ↔
      post (m.world.fault m.io).isNone
        (m.ran (m.toCore.setData disk
            (splice (m.disk disk).data (512 * sector) src (512 * m.transferred count)))
          (m.io + 1) (.write m.toCore disk sector count :: m.trace)) := Iff.rfl

namespace Machine.Reliable

theorem ran (reliable : m.Reliable) : (m.ran c io trace).Reliable := reliable

theorem transferred (reliable : m.Reliable) (count : Nat) : m.transferred count = count := by
  rw [Machine.transferred, reliable]

theorem isNone (reliable : m.Reliable) (n : Nat) : (m.world.fault n).isNone = true := by
  rw [reliable]
  rfl

end Machine.Reliable

end Primitives

/-- A machine whose hardware and allocator never fail, with an empty FAT buffer:
disk `d` holds `data d`, and its file system object is at address `d`. -/
def Machine.mounted (fsMem : DiskId → Fs) (data : DiskId → Bytes) : Machine where
  disk d := { data := data d, total := 512 * (fsMem d).totalSectors.toNat, free := 0, used := 0,
              fs := some d }
  fsMem := fsMem
  buf _ := 0
  bufFs := none
  bufSector := 0
  bufChanged := false
  world :=
    { fault := fun _ => none, noMemory := fun _ => false, address := fun n => n
      garbage := fun _ _ => 0, stray := fun _ _ => 0, timestamp := fun _ => 0 }
  io := 0
  mallocs := 0
  trace := []

theorem mounted_reliable (fsMem : DiskId → Fs) (data : DiskId → Bytes) :
    (Machine.mounted fsMem data).Reliable := fun _ => rfl

end TestOs.Fat32
