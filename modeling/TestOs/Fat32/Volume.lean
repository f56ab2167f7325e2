/-
# Fat32.Volume -- what fat32_check makes of a boot sector

`mountFs` is the part of `fat32_check` that decides whether sector 0 is a FAT32
boot sector and computes the `struct fat32_fs` from it, in 32-bit arithmetic.
`Fat32.Format` has the rest of the function around it.
-/
import TestOs.Fat32.Device

namespace TestOs.Fat32

open TestOs.Library

set_option autoImplicit false

/-- A `uint16_t` field. -/
def halfword (b : Bytes) (i : Nat) : BitVec 16 := b (i + 1) ++ b i

/-- The fields of the packed `struct fat32_bpb` at their offsets. -/
def readBpb (b : Bytes) : Bpb where
  sectorSize := halfword b 11
  clusterSectors := b 13
  reservedSectors := halfword b 14
  numFats := b 16
  rootdirLength := halfword b 17
  totalSectors := halfword b 19
  fatSectors := halfword b 22
  totalSectorsLarge := word b 32
  extFatSectors := word b 36
  rootdirCluster := word b 44
  bootSignature := b 66
  magic := halfword b 510

/-- `sizeof(struct fat32_dir_entry)`, the in-memory entry. -/
def dirEntryStructSize : Nat := 36

/-- The `struct fat32_fs` that `fat32_check` computes, if it accepts the sector. -/
def mountFs (boot : Bytes) : Option Fs :=
  let bpb := readBpb boot
  if bpb.magic ≠ 0xaa55 ∨ bpb.bootSignature ≠ 0x29 then none
  else
    let totalSectors :=
      if bpb.totalSectors ≠ 0 then bpb.totalSectors.setWidth 32 else bpb.totalSectorsLarge
    let rootdirSectors := BitVec.ofNat 32 ((bpb.rootdirLength.toNat * dirEntryStructSize + 511) / 512)
    let dataSectors := totalSectors - bpb.reservedSectors.setWidth 32 -
      bpb.numFats.setWidth 32 * bpb.fatSectors.setWidth 32 - rootdirSectors
    let dataSectors := dataSectors - bpb.numFats.setWidth 32 * bpb.extFatSectors
    some { bpb := bpb, totalSectors := totalSectors, firstDataCluster := totalSectors - dataSectors }

/-- A boot sector with these fields, and 0 in the others. -/
def bootSector (clusterSectors reservedSectors numFats : BitVec 8) (total fatSectors : BitVec 32) :
    Bytes :=
  fun i =>
    match i with
    | 12 => 2
    | 13 => clusterSectors
    | 14 => reservedSectors
    | 16 => numFats
    | 32 | 33 | 34 | 35 => wordBytes total (i - 32)
    | 36 | 37 | 38 | 39 => wordBytes fatSectors (i - 36)
    | 44 => 2
    | 66 => 0x29
    | 510 => 0x55
    | 511 => 0xaa
    | _ => 0

/-- The file system of a 1 MB volume with one sector to a cluster. -/
def smallFs (numFats : BitVec 8) (fatSectors firstDataCluster : BitVec 32) : Fs where
  bpb := readBpb (bootSector 1 32 numFats 2048 fatSectors)
  totalSectors := 2048
  firstDataCluster := firstDataCluster

namespace Fs

variable (fs : Fs)

/-- The sectors of the FAT copies. -/
def InFat (sector : Nat) : Prop :=
  fs.reservedSectors ≤ sector ∧ sector < fs.reservedSectors + fs.numFats * fs.fatSectors

/-- The sectors of the data region. -/
def InData (sector : Nat) : Prop :=
  fs.firstDataCluster.toNat ≤ sector ∧ sector < fs.totalSectors.toNat

instance (sector : Nat) : Decidable (fs.InFat sector) := inferInstanceAs (Decidable (_ ∧ _))
instance (sector : Nat) : Decidable (fs.InData sector) := inferInstanceAs (Decidable (_ ∧ _))

theorem reservedSectors_lt : fs.reservedSectors < 2 ^ 16 := fs.bpb.reservedSectors.isLt
theorem fatSectors_lt : fs.fatSectors < 2 ^ 32 := fs.bpb.extFatSectors.isLt
theorem numFats_lt : fs.numFats < 2 ^ 8 := fs.bpb.numFats.isLt

end Fs

end TestOs.Fat32
