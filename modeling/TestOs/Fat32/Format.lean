/-
# Fat32.Format -- fat32_format and fat32_check

`fat32Format` writes an empty file system with one sector to a cluster and two
FAT copies, and mounts it with `fat32Check`, which counts the free entries of
the FAT.  The old `struct fat32_fs` of the disk is freed first, and `fat32Check`
allocates a new one; the FAT buffer is not touched.  What becomes of freed
memory is the allocator's business: `free` changes nothing here, and where the
new object lies is up to `World.address`.
-/
import TestOs.Fat32.Buffer
import TestOs.Fat32.Volume

namespace TestOs.Fat32

open TestOs.Library Prog

set_option autoImplicit false

/-! ## Mounting -/

/-- A value in a `uint16_t`. -/
def w16 (x : Nat) : Nat := x % 2 ^ 16

/-- The loop of `fat32_check` that counts the free entries, with `left` entries to go. -/
def countFree (disk : DiskId) (sectorSize : Nat) : Nat → Nat → Nat → Bytes → Nat → FatM Nat
  | 0, _, _, _, free => return free
  | left + 1, sectorCur, sectorOff, buffer, free => do
      let free := if word buffer sectorOff = 0 then free + 1 else free
      let sectorOff := w16 (sectorOff + 4)
      if sectorSize ≤ sectorOff then
        let (_, buffer) ← deviceRead disk (w16 (sectorCur + 1)) buffer 0 1
        countFree disk sectorSize left (w16 (sectorCur + 1)) 0 buffer free
      else countFree disk sectorSize left sectorCur sectorOff buffer free

/-- The part of `fat32_check` behind the allocation, which fills in `disk->free`
and `disk->used`. -/
def countDisk (disk : DiskId) (bpb : Bpb) : FatM Unit := do
  let entriesEnd := w32 (bpb.extFatSectors.toNat * bpb.sectorSize.toNat) / 4
  -- a signed product that overflows is left out
  ensure (bpb.reservedSectors.toNat * bpb.sectorSize.toNat < 2 ^ 31)
  let sectorCur ← divide (bpb.reservedSectors.toNat * bpb.sectorSize.toNat) bpb.sectorSize.toNat
  let sectorOff := bpb.reservedSectors.toNat * bpb.sectorSize.toNat % bpb.sectorSize.toNat
  let m ← state
  let (_, buffer) ← deviceRead disk (w16 sectorCur) (m.world.stray m.io) 0 1
  let free ← countFree disk bpb.sectorSize.toNat entriesEnd (w16 sectorCur) (w16 sectorOff) buffer 0
  update fun m => { m with
    disk := Function.update m.disk disk
      { m.disk disk with
        free := w32 (free * bpb.clusterSectors.toNat * bpb.sectorSize.toNat)
        used := w32 ((m.disk disk).total + 2 ^ 32 -
          w32 (free * bpb.clusterSectors.toNat * bpb.sectorSize.toNat)) } }

/-- `disk->fs = p`. -/
def setDiskFs (disk : DiskId) (p : Option FsPtr) : FatM Unit :=
  update fun m => { m with
    disk := Function.update m.disk disk { m.disk disk with fs := p } }

/-- `*p = f`, for a pointer to a `struct fat32_fs`. -/
def storeFs (p : FsPtr) (f : Fs) : FatM Unit :=
  update fun m => { m with fsMem := Function.update m.fsMem p f }

/-- `malloc(sizeof(struct fat32_fs))`. -/
def mallocFs : FatM (Option FsPtr) := do
  let m ← state
  update fun m => { m with mallocs := m.mallocs + 1 }
  return if m.world.noMemory m.mallocs then none else some (m.world.address m.mallocs)

/-- `fat32_check`; its result on failure is -1, whatever the cause. -/
def fat32Check (disk : DiskId) : FatM Unit := do
  let (ok, boot) ← deviceRead disk 0 (fun _ => 0) 0 1
  match if ok then mountFs boot else none with
  | none => fail .enoent
  | some fs =>
      let p ← mallocFs
      setDiskFs disk p
      match p with
      | none => fail .enoent
      | some p =>
          storeFs p fs
          countDisk disk fs.bpb

/-! ## Formatting -/

/-- The bytes of a little-endian number. -/
def le (bytes value : Nat) : List (BitVec 8) :=
  (List.range bytes).map fun i => BitVec.ofNat 8 (value >>> (8 * i))

def ascii (text : List Char) : List (BitVec 8) := text.map fun c => BitVec.ofNat 8 c.toNat

/-- `boot_code`, with the zero that ends it. -/
def bootCode : List (BitVec 8) :=
  [0x0e, 0x1f, 0xbe, 0x77, 0x7c, 0xac, 0x22, 0xc0, 0x74, 0x0b, 0x56, 0xb4, 0x0e, 0xbb, 0x07, 0x00,
    0xcd, 0x10, 0x5e, 0xeb, 0xf0, 0x32, 0xe4, 0xcd, 0x16, 0xcd, 0x19, 0xeb, 0xfe] ++
    ascii ['T', 'h', 'i', 's', ' ', 'i', 's', ' ', 'n', 'o', 't', ' ', 'a', ' ', 'b', 'o', 'o', 't',
      'a', 'b', 'l', 'e', ' ', 'd', 'i', 's', 'k', '\r', '\n'] ++ [0]

/-- A list as memory, with zeros behind it. -/
def bytesOf (list : List (BitVec 8)) : Bytes := fun i => list.getD i 0

/-- Fields stored at their offsets. -/
def storeFields (fields : List (Nat × List (BitVec 8))) : Bytes :=
  fields.foldl (fun b (offset, field) => splice b offset (bytesOf field) field.length) fun _ => 0

/-- The `struct fat32_bpb` that `fat32_format` writes. -/
def formatBpb (totalSectors fatSectors serial : Nat) : Bytes :=
  let total := if totalSectors < 0x10000 then totalSectors else 0
  storeFields
    [(0, [0xeb, 0x58, 0x90]),
      (3, ascii ['T', 'E', 'S', 'T', ' ', 'O', 'S', ' ']),
      (11, le 2 512), (13, le 1 1), (14, le 2 32), (16, le 1 2), (17, le 2 0), (19, le 2 total),
      (21, le 1 0xf8), (22, le 2 0), (24, le 2 32), (26, le 2 64), (28, le 4 0),
      (32, le 4 (if total = 0 then totalSectors else 0)),
      (36, le 4 fatSectors), (40, le 2 0), (42, le 2 0), (44, le 4 2), (48, le 2 1), (50, le 2 6),
      (64, le 1 0x80), (65, le 1 0), (66, le 1 0x29), (67, le 4 serial),
      (71, ascii ['N', 'O', ' ', 'N', 'A', 'M', 'E', ' ', ' ', ' ', ' ']),
      (82, ascii ['F', 'A', 'T', '3', '2', ' ', ' ', ' ']),
      (90, bootCode), (510, le 2 0xaa55)]

/-- The sectors of a FAT copy that `fat32_format` computes. -/
def formatFatSectors (totalSectors : Nat) : Nat :=
  w32 (w32 (totalSectors + 2 ^ 32 - 32) + (129 - 1)) / 129

/-- The first sector of each FAT copy. -/
def fatStart : Bytes := bytesOf (le 4 (0x0fffff00 + 0xf8) ++ le 4 0x0fffffff ++ le 4 0x0ffffff8)

/-- The `struct fat32_fs_info` sector. -/
def fsInfo (totalSectors fatSectors : Nat) : Bytes :=
  storeFields
    [(0, le 4 0x41615252), (484, le 4 0x61417272),
      (488, le 4 (w32 (totalSectors + 2 ^ 32 - w32 (fatSectors * 2 + 32)))),
      (492, le 4 (32 + 2 * fatSectors)), (508, le 4 0xaa550000)]

/-- A sector written without a look at the result. -/
def writeSector (disk : DiskId) (sector : Nat) (src : Bytes) : FatM Unit := do
  let _ ← deviceWrite disk (w32 sector) src 1

/-- `fat32_format`. -/
def fat32Format (disk : DiskId) : FatM Unit := do
  note (.format disk)
  let m ← state
  let totalSectors := (m.disk disk).total / 512
  let fatSectors := formatFatSectors totalSectors
  writeSector disk 0 (formatBpb totalSectors fatSectors (m.world.timestamp m.io).toNat)
  writeSector disk 32 fatStart
  forUp (fun j => writeSector disk (32 + fatSectors * j) fatStart) (2 - 1) 1
  writeSector disk (32 + 1) fun _ => 0
  forUp (fun i => writeSector disk (32 + i + 1) fun _ => 0) (fatSectors / 2 - 1) 1
  forUp (fun i =>
    forUp (fun j => writeSector disk (32 + j + fatSectors * i) fun _ => 0) (fatSectors - 1) 1)
    (2 - 1) 1
  writeSector disk 1 (fsInfo totalSectors fatSectors)
  forUp (fun i => writeSector disk (32 + 2 * fatSectors + i) fun _ => 0) 1 0
  fat32Check disk

end TestOs.Fat32
