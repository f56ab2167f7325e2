/-
# Fat32.Files -- open files: reading, writing, growing, truncating

A handle is a value, `FatFile`, with its list of clusters in memory that the
allocator handed out.  Functions that change the handle they are given run on
the machine and the handle together (`FileM`), so that a function that fails
leaves the handle as the C code would.

Growing a file and truncating it update its directory entry through a second
handle, on the directory, and that handle can grow in turn.  It is a directory,
so its own entry is not updated and the recursion ends there:
`fat32ExtendFileWith` takes the update as an argument, and `extend_directory`
says that the argument does not matter for a directory.
-/
import TestOs.Fat32.Buffer
import TestOs.Fat32.Entries

namespace TestOs.Fat32

open TestOs.Library Prog

set_option autoImplicit false

/-- The entries of a list of clusters, with whatever lies behind them. -/
abbrev Blocklist := Nat → BitVec 32

/-- `struct fat32_file`; the blocklist is `none` where the pointer is NULL. -/
structure FatFile where
  fs : FsPtr
  size : Nat
  blocklistSize : Nat
  blocklist : Option Blocklist
  dirEntry : DirEntry

/-- What a function with a `struct fat32_file *` argument does. -/
abbrev FileM (α : Type) := Prog (Machine × FatFile) FatError α

instance : MonadLift FatM FileM := ⟨onFst⟩

/-- A store to the handle. -/
def setFile (f : FatFile → FatFile) : FileM Unit := update fun (m, file) => (m, f file)

def theFile : FileM FatFile := do
  return (← state).2

section Handle

variable {α : Type} {m : Machine} {file : FatFile} {onFail : FatError → Machine × FatFile → Prop}

@[simp] theorem wp_lift {p : FatM α} {post : α → Machine × FatFile → Prop} :
    wp (liftM p : FileM α) post onFail (m, file) ↔
      wp p (fun a t => post a (t, file)) (fun e t => onFail e (t, file)) m := wp_onFst post onFail

@[simp] theorem wp_theFile {post : FatFile → Machine × FatFile → Prop} :
    wp theFile post onFail (m, file) ↔ post file (m, file) := Iff.rfl

@[simp] theorem wp_setFile {f : FatFile → FatFile} {post : Unit → Machine × FatFile → Prop} :
    wp (setFile f) post onFail (m, file) ↔ post () (m, f file) := Iff.rfl

end Handle

/-- `NUM_CLUSTERS` on 32-bit operands. -/
def numClusters (x clusterSize : Nat) : FatM Nat :=
  divide (w32 (x + clusterSize + (2 ^ 32 - 1))) clusterSize

/-- The blocks of a file of some size, at least one. -/
def blocksFor (size clusterSize : Nat) : FatM Nat := do
  let blocks ← numClusters size clusterSize
  return if blocks = 0 then 1 else blocks

/-- `malloc`, of memory for a blocklist. -/
def mallocBlocklist : FatM (Option Blocklist) := do
  let m ← state
  update fun m => { m with mallocs := m.mallocs + 1 }
  return if m.world.noMemory m.mallocs then none else some (m.world.garbage m.mallocs)

/-- `realloc` of a blocklist of `keep` entries. -/
def reallocBlocklist (old : Option Blocklist) (keep : Nat) : FatM (Option Blocklist) := do
  let new ← mallocBlocklist
  return new.map fun garbage i =>
    match old with
    | none => garbage i
    | some old => if i < keep then old i else garbage i

/-- `disk->fs`, which is not NULL on a mounted disk. -/
def mountedFs (disk : DiskId) : FatM FsPtr := do
  match ((← state).disk disk).fs with
  | some fs => return fs
  | none => halt

/-! ## Opening -/

/-- How many links a walk along a chain follows before the model gives up on
it: more than there are cluster numbers. -/
def chainFuel : Nat := 2 ^ 32

/-- The loop of `fat32_file_open_by_dir_entry`, with `i` entries read: the
blocklist, its size and the number of clusters. -/
def openLoop (disk : DiskId) (fs : FsPtr) : Nat → Nat → Nat → Blocklist → FatM (Blocklist × Nat × Nat)
  | 0, _, _, _ => halt
  | fuel + 1, i, size, blocklist => do
      let cluster ← getNextClusterFat32 disk fs (blocklist (i - 1))
      if cluster = 0 then fail .eio
      else if 0xfffffff8 ≤ cluster.toNat then return (blocklist, size, i)
      else if size ≤ i then
        match ← reallocBlocklist (some blocklist) size with
        | none => halt
        | some blocklist =>
            openLoop disk fs fuel (i + 1) (w32 (size * 2)) (Function.update blocklist i cluster)
      else openLoop disk fs fuel (i + 1) size (Function.update blocklist i cluster)

def fat32FileOpenByDirEntry (disk : DiskId) (entry : DirEntry) : FatM FatFile := do
  let fs ← mountedFs disk
  let clusterSize := (← readFs fs).clusterSize
  if entry.firstCluster = 0 then
    return { fs := fs, size := entry.size, blocklistSize := 0, blocklist := none, dirEntry := entry }
  else
    let blocklistSize ← (if 0 < entry.size then numClusters entry.size clusterSize else pure 1 :
      FatM Nat)
    match ← mallocBlocklist with
    | none => halt
    | some blocklist =>
        let (blocklist, blocklistSize, clusters) ← openLoop disk fs chainFuel 1 blocklistSize
          (Function.update blocklist 0 entry.firstCluster)
        return { fs := fs
                 size := if entry.size = 0 then w32 (clusters * clusterSize) else entry.size
                 blocklistSize := blocklistSize
                 blocklist := some blocklist
                 dirEntry := entry }

/-! ## Clusters -/

/-- `get_data_cluster_offset`: the first sector of a cluster. -/
def getDataClusterOffset (fs : Fs) (cluster : BitVec 32) : Nat :=
  (fs.firstDataCluster + fs.bpb.clusterSectors.setWidth 32 * (cluster - 2)).toNat

/-- `read_cluster`, to `buf` from `p` on. -/
def readCluster (disk : DiskId) (fs : FsPtr) (buf : Bytes) (p : Nat) (cluster : BitVec 32) :
    FatM Bytes := do
  let f ← readFs fs
  let (ok, buf) ← deviceRead disk (getDataClusterOffset f cluster) buf p f.clusterSectors
  if ok then return buf else fail .eio

/-- `write_cluster`, from `p` on in `buf`. -/
def writeCluster (disk : DiskId) (fs : FsPtr) (buf : Bytes) (p : Nat) (cluster : BitVec 32) :
    FatM Unit := do
  let f ← readFs fs
  if ← deviceWrite disk (getDataClusterOffset f cluster) (slice buf p) f.clusterSectors then return
  else fail .eio

/-- `write_cluster_part`: `len` bytes from `p` on in `buf`, to `offset` in the cluster. -/
def writeClusterPart (disk : DiskId) (fs : FsPtr) (buf : Bytes) (p : Nat) (cluster : BitVec 32)
    (offset len : Nat) : FatM Unit := do
  ensure (w32 (offset + len) ≤ (← readFs fs).clusterSize)
  let local_ ← readCluster disk fs (fun _ => 0) 0 cluster
  writeCluster disk fs (splice local_ offset (slice buf p) len) 0 cluster

/-- `read_cluster_part`. -/
def readClusterPart (disk : DiskId) (fs : FsPtr) (buf : Bytes) (p : Nat) (cluster : BitVec 32)
    (offset len : Nat) : FatM Bytes := do
  ensure (w32 (offset + len) ≤ (← readFs fs).clusterSize)
  let local_ ← readCluster disk fs (fun _ => 0) 0 cluster
  return splice buf p (slice local_ offset) len

/-- `file_get_cluster`: 0 behind the end of the blocklist. -/
def fileGetCluster (file : FatFile) (fileCluster : Nat) : FatM (BitVec 32) :=
  if file.blocklistSize ≤ fileCluster then return 0
  else
    match file.blocklist with
    | none => halt
    | some blocklist => return blocklist fileCluster

/-! ## Reading and writing -/

/-- `rw_cluster`: the buffer afterwards. -/
def rwCluster (isWrite : Bool) (disk : DiskId) (fs : FsPtr) (buf : Bytes) (p : Nat)
    (cluster : BitVec 32) : FatM Bytes := do
  if isWrite then
    writeCluster disk fs buf p cluster
    return buf
  else readCluster disk fs buf p cluster

/-- `rw_cluster_part`: the buffer afterwards. -/
def rwClusterPart (isWrite : Bool) (disk : DiskId) (fs : FsPtr) (buf : Bytes) (p : Nat)
    (cluster : BitVec 32) (offset len : Nat) : FatM Bytes := do
  if isWrite then
    writeClusterPart disk fs buf p cluster offset len
    return buf
  else readClusterPart disk fs buf p cluster offset len

/-- The disk cluster of a cluster of the file, or `-FAT_EIO`. -/
def needCluster (file : FatFile) (fileCluster : Nat) : FatM (BitVec 32) := do
  let cluster ← fileGetCluster file fileCluster
  if cluster = 0 then fail .eio else return cluster

/-- The loop over whole clusters, and the part of a cluster behind it; `n` bytes
are left, at `p` in the buffer. -/
def rwClusters (isWrite : Bool) (disk : DiskId) (fs : FsPtr) (file : FatFile) (clusterSize : Nat) :
    Nat → Nat → Nat → Nat → Bytes → FatM Bytes
  | 0, _, _, _, _ => halt
  | fuel + 1, fileCluster, p, n, buf => do
      if clusterSize ≤ n then
        let cluster ← needCluster file fileCluster
        let buf ← rwCluster isWrite disk fs buf p cluster
        rwClusters isWrite disk fs file clusterSize fuel (w32 (fileCluster + 1)) (p + clusterSize)
          (n - clusterSize) buf
      else if n = 0 then return buf
      else
        let cluster ← needCluster file fileCluster
        rwClusterPart isWrite disk fs buf p cluster 0 n

/-- `fat32_file_rw`: the buffer afterwards; the length it returns is `len`. -/
def fat32FileRw (disk : DiskId) (file : FatFile) (buf : Bytes) (offset len : Nat) (isWrite : Bool) :
    FatM Bytes := do
  let fs ← mountedFs disk
  let clusterSize := (← readFs fs).clusterSize
  let fileCluster ← divide offset clusterSize
  let offsetInCluster := offset &&& (clusterSize - 1)
  if offsetInCluster ≠ 0 then
    let count := min len (clusterSize - offsetInCluster)
    let cluster ← needCluster file fileCluster
    let buf ← rwClusterPart isWrite disk fs buf 0 cluster offsetInCluster count
    rwClusters isWrite disk fs file clusterSize (len + 1) (w32 (fileCluster + 1)) count (len - count)
      buf
  else rwClusters isWrite disk fs file clusterSize (len + 1) fileCluster 0 len buf

/-- A status that a function with a `size_t` result returns. -/
def sizeOfError (e : FatError) : Nat := 2 ^ 32 - e.code

/-- `fat32_file_read`: the result and the buffer. -/
def fat32FileRead (disk : DiskId) (file : FatFile) (buf : Bytes) (offset length : Nat) :
    FatM (Nat × Bytes) := do
  if file.size < w32 (offset + length) then return (0, buf)
  else
    match ← attempt (fat32FileRw disk file buf offset length false) with
    | .ok buf => return (length, buf)
    | .error e => return (sizeOfError e, buf)

/-- `fat32_file_write`, with the function that extends the file. -/
def fat32FileWriteWith (extend : Nat → FileM Unit) (disk : DiskId) (buf : Bytes)
    (offset length : Nat) : FileM Nat := do
  let transfer : FileM Nat := do
    match ← attempt (fat32FileRw disk (← theFile) buf offset length true : FatM Bytes) with
    | .ok _ => return length
    | .error e => return sizeOfError e
  if (← theFile).size < w32 (offset + length) then
    match ← attempt (extend (w32 (offset + length))) with
    | .ok _ => transfer
    | .error _ => return 0
  else transfer

/-! ## Growing -/

/-- `fat32_zero_cluster`: the static array has one sector, whatever the cluster size. -/
def fat32ZeroCluster (disk : DiskId) (fs : FsPtr) (cluster : BitVec 32) : FatM Unit := do
  let m ← state
  writeCluster disk fs (fun i => if i < 512 then 0 else m.world.stray m.io (i - 512)) 0 cluster

/-- The loop over `j`: the first cluster from `j` on with an entry of 0. -/
def searchFree (disk : DiskId) (fs : FsPtr) : Nat → Nat → FatM (Option Nat)
  | 0, _ => return none
  | left + 1, j => do
      if (← getNextClusterFat32 disk fs (BitVec.ofNat 32 j)) = 0 then return some j
      else searchFree disk fs left (j + 1)

/-- `file->blocklist[i] = cluster`. -/
def setBlock (i : Nat) (cluster : BitVec 32) : FileM Unit :=
  setFile fun file => { file with blocklist := file.blocklist.map fun b => Function.update b i cluster }

/-- `file->blocklist[i]`. -/
def getBlock (i : Nat) : FileM (BitVec 32) := do
  match (← theFile).blocklist with
  | some blocklist => return blocklist i
  | none => halt

/-- What is done with the free cluster that was found for block `i`. -/
def claimCluster (disk : DiskId) (fs : FsPtr) (i : Nat) (cluster : BitVec 32) : FileM Unit := do
  fat32ZeroCluster disk fs cluster
  setBlock i cluster
  setNextClusterFat32 disk fs cluster 0x0fffffff
  if i = 0 then
    setFile fun file => { file with dirEntry := { file.dirEntry with firstCluster := cluster } }
  else
    setNextClusterFat32 disk fs (← getBlock (i - 1)) cluster

/-- The loop over the new blocks, from `i` on. -/
def extendLoop (disk : DiskId) (fs : FsPtr) (clusters : Nat) : Nat → Nat → Nat → FileM Unit
  | 0, _, _ => return
  | left + 1, i, freeIndex => do
      match ← (searchFree disk fs (clusters - freeIndex) freeIndex : FatM (Option Nat)) with
      | none => fail .enospc
      | some j =>
          claimCluster disk fs i (BitVec.ofNat 32 j)
          extendLoop disk fs clusters left (i + 1) (j + 1)

/-- The part of `fat32_extend_file` that adds clusters. -/
def growBlocklist (disk : DiskId) (newBlocklistSize : Nat) : FileM Unit := do
  let file ← theFile
  let f ← readFs file.fs
  let clusters ← numClusters
    (w32 (f.totalSectors.toNat + (2 ^ 32 - f.firstDataCluster.toNat))) f.clusterSectors
  let blocklist ← reallocBlocklist file.blocklist file.blocklistSize
  setFile fun file => { file with blocklist := blocklist }
  if blocklist.isNone then fail .eio
  else
    setFile fun file => { file with blocklistSize := newBlocklistSize }
    extendLoop disk file.fs (w32 (clusters + 2)) (newBlocklistSize - file.blocklistSize)
      file.blocklistSize 2
    commitFat32Buffer disk file.fs

/-- `fat32_extend_file`, with the function that updates the directory entry. -/
def fat32ExtendFileWith (updateEntry : FatFile → FatM Unit) (disk : DiskId) (newSize : Nat) :
    FileM Unit := do
  if newSize = 0 then return
  else
    let file ← theFile
    let f ← readFs file.fs
    let newBlocks ← blocksFor newSize f.clusterSize
    (if file.blocklistSize < newBlocks then growBlocklist disk newBlocks else pure () : FileM Unit)
    setFile fun file => { file with size := newSize }
    if (← theFile).dirEntry.attrib &&& fatAttribDir = 0 then updateEntry (← theFile)

/-! ## The directory entry of a file -/

/-- The entry as it is on the disk, or zeros where the directory has to grow. -/
def readOldEntry (disk : DiskId) (dirFile : FatFile) (offset : Nat) : FatM Bytes := do
  if w32 (offset + diskEntrySize) ≤ dirFile.size then
    let (ret, old) ← fat32FileRead disk dirFile (fun _ => 0) offset diskEntrySize
    if 2 ^ 31 ≤ ret then fail .eio else return old
  else return fun _ => 0

/-- `fat32_dir_update_subdir_entry`, through a handle on the directory. -/
def fat32DirUpdateSubdirEntry (disk : DiskId) (file : FatFile) : FatM Unit := do
  let dirEntry : DirEntry :=
    { indexInDir := 0, dirFirstCluster := 0, name := fun _ => 0
      firstCluster := file.dirEntry.dirFirstCluster, attrib := fatAttribDir, size := 0 }
  let offset := w32 (file.dirEntry.indexInDir * diskEntrySize)
  if (← mallocBlocklist).isNone then fail .enoent
  else
    let dirFile ← fat32FileOpenByDirEntry disk dirEntry
    let old ← readOldEntry disk dirFile offset
    let new := dirEntryToDisk file.dirEntry file.size old
    let (ret, _) ← withSnd dirFile
      (fat32FileWriteWith (fat32ExtendFileWith (fun _ => halt) disk) disk new offset diskEntrySize)
    if ret = diskEntrySize then return else fail .eio

def fat32DirUpdateEntry (disk : DiskId) (file : FatFile) : FatM Unit := do
  if file.dirEntry.dirFirstCluster = 0 then
    let f ← readFs file.fs
    fat32DirUpdateSubdirEntry disk
      { file with dirEntry := { file.dirEntry with dirFirstCluster := f.bpb.rootdirCluster } }
  else fat32DirUpdateSubdirEntry disk file

def fat32ExtendFile (disk : DiskId) (newSize : Nat) : FileM Unit :=
  fat32ExtendFileWith (fat32DirUpdateEntry disk) disk newSize

def fat32FileWrite (disk : DiskId) (buf : Bytes) (offset length : Nat) : FileM Nat :=
  fat32FileWriteWith (fat32ExtendFile disk) disk buf offset length

/-! ## Truncating -/

/-- The loops of `fat32_truncate_file` that free the blocks from `i` on. -/
def freeBlocks (disk : DiskId) (fs : FsPtr) (blocklist : Blocklist) : Nat → Nat → FatM Unit
  | 0, _ => return
  | left + 1, i => do
      if 2 ≤ (blocklist i).toNat then setNextClusterFat32 disk fs (blocklist i) 0
      freeBlocks disk fs blocklist left (i + 1)

/-- The part of `fat32_truncate_file` for a file with a blocklist. -/
def shrinkBlocklist (disk : DiskId) (blocklist : Blocklist) (newBlocks : Nat) : FileM Unit := do
  let file ← theFile
  if newBlocks = 0 then
    freeBlocks disk file.fs blocklist file.blocklistSize 0
    setFile fun file => { file with
      blocklist := none
      blocklistSize := 0
      dirEntry := { file.dirEntry with firstCluster := 0 } }
  else if newBlocks < file.blocklistSize then
    freeBlocks disk file.fs blocklist (file.blocklistSize - newBlocks) newBlocks
    setNextClusterFat32 disk file.fs (blocklist (newBlocks - 1)) 0x0fffffff
    let shorter ← reallocBlocklist (some blocklist) newBlocks
    setFile fun file => { file with blocklist := shorter }
    if shorter.isNone then fail .eio
    else setFile fun file => { file with blocklistSize := newBlocks }
  commitFat32Buffer disk file.fs

def fat32TruncateFile (disk : DiskId) (newSize : Nat) : FileM Unit := do
  let file ← theFile
  if file.size ≤ newSize then return
  else
    let f ← readFs file.fs
    let newBlocks ← (if 0 < newSize then blocksFor newSize f.clusterSize else pure 0 : FatM Nat)
    (match file.blocklist with
      | some blocklist => shrinkBlocklist disk blocklist newBlocks
      | none => pure () : FileM Unit)
    setFile fun file => { file with size := newSize }
    if (← theFile).dirEntry.attrib &&& fatAttribDir = 0 then
      fat32DirUpdateEntry disk (← theFile)

end TestOs.Fat32
