/-
# Fat32.Buffer -- the FAT buffer of fat32.c

One static buffer of two sectors caches the FAT of whichever disk was used last.
`getFat32Buffer` makes it hold a sector of a FAT and the sector behind it,
`commitFat32Buffer` writes both to every copy of the FAT.
-/
import TestOs.Fat32.Device

namespace TestOs.Fat32

open TestOs.Library Prog

set_option autoImplicit false

/-- The loop of `commit_fat32_buffer`: the buffer to this FAT copy and those behind it. -/
def commitLoop (disk : DiskId) (fatSectors : Nat) : Nat → Nat → FatM Unit
  | 0, _ => return
  | copies + 1, sector => do
      note (.writeBack disk)
      if ← deviceWrite disk sector (← state).buf 2 then
        commitLoop disk fatSectors copies (w32 (sector + fatSectors))
      else fail .eio

def commitFat32Buffer (disk : DiskId) (fs : FsPtr) : FatM Unit := do
  if (← state).bufFs = some fs then
    let fs ← readFs fs
    commitLoop disk fs.fatSectors fs.numFats (← state).bufSector
    update fun m => { m with bufChanged := false }

def forgetBuffer : FatM Unit := update fun m => { m with bufFs := none }

/-- The second half of `get_fat32_buffer`: the buffer is free to be filled. -/
def fillBuffer (disk : DiskId) (fs : FsPtr) (sector : Nat) : FatM Bool := do
  let (ok, buf) ← deviceRead disk sector (← state).buf 0 2
  update fun m => { m with buf := buf }
  if ok then
    note (.load disk)
    update fun m => { m with bufFs := some fs, bufSector := sector, bufChanged := false }
    return true
  else
    forgetBuffer
    return false

/-- `get_fat32_buffer`: whether the result is not NULL, that is, whether
`fat32_buf` holds the sector now. -/
def getFat32Buffer (disk : DiskId) (fs : FsPtr) (sector : Nat) : FatM Bool := do
  let sector := w32 (sector + (← readFs fs).reservedSectors)
  let m ← state
  if m.bufFs = some fs ∧ m.bufSector = sector then return true
  else
    match m.bufChanged, m.bufFs with
    | true, some old =>
        match ← attempt (commitFat32Buffer disk old) with
        | .ok _ => fillBuffer disk fs sector
        | .error _ =>
            forgetBuffer
            return false
    | _, _ => fillBuffer disk fs sector

/-- The sector of the FAT that holds the entry of a cluster. -/
def fat32Sector (cluster : BitVec 32) : Nat := w32 (cluster.toNat * 4) / 512
/-- The place of the entry in its sector. -/
def fat32Offset (cluster : BitVec 32) : Nat := w32 (cluster.toNat * 4) % 512

/-- What `get_next_cluster_fat32` makes of an entry. -/
def entryView (value : BitVec 32) : BitVec 32 :=
  if 0xffffff5 < value.toNat then value ||| 0xf0000000 else value

def getNextClusterFat32 (disk : DiskId) (fs : FsPtr) (cluster : BitVec 32) :
    FatM (BitVec 32) := do
  if ← getFat32Buffer disk fs (fat32Sector cluster) then
    note (.serve disk)
    return entryView (word (← state).buf (fat32Offset cluster))
  else return 0

def setNextClusterFat32 (disk : DiskId) (fs : FsPtr) (cluster next : BitVec 32) : FatM Unit := do
  if ← getFat32Buffer disk fs (fat32Sector cluster) then
    update fun m => { m with
      buf := putWord m.buf (fat32Offset cluster) next
      bufChanged := true }
  else fail .eio

end TestOs.Fat32
