/-
# Fat32.FileSteps -- what every file operation keeps

The functions on files touch the machine through a handful of others: they
allocate, transfer clusters, and read, write and commit the FAT through the
buffer.  An invariant of the machine that these keep (`Accesses`) is kept by
opening, reading, writing and growing a file, with the update of its directory
entry, however they end.  A handle that such an operation opens is one on the
mounted file system.
-/
import TestOs.Library.Invariants
import TestOs.Fat32.Files

namespace TestOs.Fat32

open TestOs.Library Prog

set_option autoImplicit false

/-- An invariant under which `fs` is mounted on the disk, and which opening a file, and
reading and writing its clusters keep. -/
structure Visits (disk : DiskId) (fs : FsPtr) (inv : Machine → Prop) : Prop where
  mounted : ∀ s, inv s → (s.disk disk).fs = some fs
  allocates : ∀ s, inv s → inv { s with mallocs := s.mallocs + 1 }
  reads : ∀ s, inv s → inv (s.ran s.toCore (s.io + 1) s.trace)
  writes : ∀ sector src count, Preserves inv (deviceWrite disk sector src count)
  gets : ∀ cluster, Preserves inv (getNextClusterFat32 disk fs cluster)

/-- An invariant that everything that a file operation does with the machine keeps. -/
structure Accesses (disk : DiskId) (fs : FsPtr) (inv : Machine → Prop) : Prop
    extends Visits disk fs inv where
  sets : ∀ cluster next, Preserves inv (setNextClusterFat32 disk fs cluster next)
  commits : Preserves inv (commitFat32Buffer disk fs)

/-- A handle on the file system. -/
def FatFile.On (fs : FsPtr) (file : FatFile) : Prop := file.fs = fs

/-- An invariant of the machine, with a handle on the file system. -/
def WithFile (fs : FsPtr) (inv : Machine → Prop) (s : Machine × FatFile) : Prop :=
  inv s.1 ∧ s.2.On fs

section Steps

variable {disk : DiskId} {fs : FsPtr} {inv : Machine → Prop} (visits : Visits disk fs inv)

/-! ## Parts that do not depend on the invariant -/

section Pure

variable {inv : Machine → Prop}

theorem divide_keeps (x y : Nat) : Preserves inv (divide x y) :=
  keeps_ensure.bind fun _ _ => keeps_pure trivial

theorem readFs_keeps (fs : FsPtr) : Preserves inv (readFs fs) :=
  keeps_state.bind fun _ _ => keeps_pure trivial

theorem numClusters_keeps (x clusterSize : Nat) : Preserves inv (numClusters x clusterSize) :=
  divide_keeps _ _

theorem blocksFor_keeps (size clusterSize : Nat) : Preserves inv (blocksFor size clusterSize) :=
  (numClusters_keeps _ _).bind fun _ _ => keeps_pure trivial

theorem fileGetCluster_keeps (file : FatFile) (fileCluster : Nat) :
    Preserves inv (fileGetCluster file fileCluster) := by
  unfold fileGetCluster
  refine Keeps.ite (fun _ => keeps_pure trivial) fun _ => ?_
  cases file.blocklist with
  | none => exact keeps_halt
  | some blocklist => exact keeps_pure trivial

theorem needCluster_keeps (file : FatFile) (fileCluster : Nat) :
    Preserves inv (needCluster file fileCluster) :=
  (fileGetCluster_keeps _ _).bind fun _ _ =>
    Keeps.ite (fun _ => keeps_fail) fun _ => keeps_pure trivial

/-! The loop over the new blocks, with an invariant of the machine and the handle
that stores to the handle keep where they leave `fs` and `blocklistSize`. -/

variable {both : Machine × FatFile → Prop}

theorem getBlock_keeps (i : Nat) : Preserves both (getBlock i) := by
  have file_ : Preserves both theFile := keeps_state.bind fun _ _ => keeps_pure trivial
  refine file_.bind fun file _ => ?_
  cases file.blocklist with
  | none => exact keeps_halt
  | some blocklist => exact keeps_pure trivial

theorem claimCluster_preserves
    (zeroes : ∀ cluster, Preserves both
      (liftM (fat32ZeroCluster disk fs cluster) : FileM Unit))
    (sets : ∀ cluster next, Preserves both
      (liftM (setNextClusterFat32 disk fs cluster next) : FileM Unit))
    (stores : ∀ f : FatFile → FatFile, (∀ file, (f file).fs = file.fs ∧
      (f file).blocklistSize = file.blocklistSize) → Preserves both (setFile f))
    (i : Nat) (cluster : BitVec 32) : Preserves both (claimCluster disk fs i cluster) := by
  have block : Preserves both (setBlock i cluster) := stores _ fun _ => ⟨rfl, rfl⟩
  refine (zeroes _).then (block.then ((sets _ _).then ?_))
  refine Keeps.ite (fun _ => stores _ fun _ => ⟨rfl, rfl⟩) fun _ => ?_
  exact (getBlock_keeps _).bind fun _ _ => sets _ _

theorem extendLoop_preserves
    (searches : ∀ left j, Preserves both
      (liftM (searchFree disk fs left j) : FileM (Option Nat)))
    (claims : ∀ i cluster, Preserves both (claimCluster disk fs i cluster))
    (clusters left i freeIndex : Nat) :
    Preserves both (extendLoop disk fs clusters left i freeIndex) := by
  induction left generalizing i freeIndex with
  | zero => exact keeps_pure trivial
  | succ left ih =>
      refine (searches _ _).bind fun found _ => ?_
      cases found with
      | none => exact keeps_fail
      | some j => exact (claims _ _).then (ih _ _)

end Pure

include visits

/-! ## Opening -/

theorem mallocBlocklist_keeps : Preserves inv mallocBlocklist :=
  keeps_state.bind fun _ _ => (keeps_update visits.allocates).then (keeps_pure trivial)

theorem reallocBlocklist_keeps (old : Option Blocklist) (keep : Nat) :
    Preserves inv (reallocBlocklist old keep) :=
  (mallocBlocklist_keeps visits).bind fun _ _ => keeps_pure trivial

theorem mountedFs_keeps : Keeps inv (mountedFs disk) (· = fs) := by
  refine keeps_state.bind fun m start => ?_
  rw [visits.mounted m start]
  exact keeps_pure rfl

theorem openLoop_keeps (fuel i size : Nat) (blocklist : Blocklist) :
    Preserves inv (openLoop disk fs fuel i size blocklist) := by
  induction fuel generalizing i size blocklist with
  | zero => exact keeps_halt
  | succ fuel ih =>
      refine (visits.gets _).bind fun cluster _ => ?_
      refine Keeps.ite (fun _ => keeps_fail) fun _ => ?_
      refine Keeps.ite (fun _ => keeps_pure trivial) fun _ => ?_
      refine Keeps.ite (fun _ => ?_) fun _ => ih _ _ _
      refine (reallocBlocklist_keeps visits _ _).bind fun longer _ => ?_
      cases longer with
      | none => exact keeps_halt
      | some blocklist => exact ih _ _ _

theorem fat32FileOpenByDirEntry_keeps (entry : DirEntry) :
    Keeps inv (fat32FileOpenByDirEntry disk entry) (FatFile.On fs) := by
  refine (mountedFs_keeps visits).bind ?_
  rintro _ rfl
  refine (readFs_keeps _).bind fun f _ => ?_
  refine Keeps.ite (fun _ => keeps_pure rfl) fun _ => ?_
  have blocklistSize : Preserves inv (if 0 < entry.size then
      numClusters entry.size f.clusterSize else pure 1) :=
    Keeps.ite (fun _ => numClusters_keeps _ _) fun _ => keeps_pure trivial
  refine blocklistSize.bind fun blocklistSize _ => ?_
  refine (mallocBlocklist_keeps visits).bind fun blocklist _ => ?_
  cases blocklist with
  | none => exact keeps_halt
  | some blocklist => exact (openLoop_keeps visits _ _ _ _).bind fun _ _ => keeps_pure rfl

/-! ## Reading and writing -/

theorem deviceRead_keeps (sector at_ count : Nat) (dst : Bytes) :
    Preserves inv (deviceRead disk sector dst at_ count) :=
  keeps_state.bind fun _ _ => (keeps_update visits.reads).then (keeps_pure trivial)

theorem readCluster_keeps (buf : Bytes) (p : Nat) (cluster : BitVec 32) :
    Preserves inv (readCluster disk fs buf p cluster) :=
  (readFs_keeps _).bind fun _ _ => (deviceRead_keeps visits _ _ _ _).bind fun _ _ =>
    Keeps.ite (fun _ => keeps_pure trivial) fun _ => keeps_fail

theorem writeCluster_keeps (buf : Bytes) (p : Nat) (cluster : BitVec 32) :
    Preserves inv (writeCluster disk fs buf p cluster) :=
  (readFs_keeps _).bind fun _ _ => (visits.writes _ _ _).bind fun _ _ =>
    Keeps.ite (fun _ => keeps_pure trivial) fun _ => keeps_fail

theorem rwCluster_keeps (isWrite : Bool) (buf : Bytes) (p : Nat) (cluster : BitVec 32) :
    Preserves inv (rwCluster isWrite disk fs buf p cluster) :=
  Keeps.ite (fun _ => (writeCluster_keeps visits _ _ _).then (keeps_pure trivial))
    fun _ => readCluster_keeps visits _ _ _

theorem rwClusterPart_keeps (isWrite : Bool) (buf : Bytes) (p : Nat) (cluster : BitVec 32)
    (offset len : Nat) : Preserves inv (rwClusterPart isWrite disk fs buf p cluster offset len) := by
  have writes : Preserves inv (writeClusterPart disk fs buf p cluster offset len) :=
    (readFs_keeps _).bind fun _ _ => keeps_ensure.bind fun _ _ =>
      (readCluster_keeps visits _ _ _).bind fun _ _ => writeCluster_keeps visits _ _ _
  refine Keeps.ite (fun _ => writes.then (keeps_pure trivial)) fun _ => ?_
  · exact (readFs_keeps _).bind fun _ _ => keeps_ensure.bind fun _ _ =>
      (readCluster_keeps visits _ _ _).bind fun _ _ => keeps_pure trivial

theorem rwClusters_keeps (isWrite : Bool) (file : FatFile) (clusterSize fuel fileCluster p n : Nat)
    (buf : Bytes) :
    Preserves inv (rwClusters isWrite disk fs file clusterSize fuel fileCluster p n buf) := by
  induction fuel generalizing fileCluster p n buf with
  | zero => exact keeps_halt
  | succ fuel ih =>
      refine Keeps.ite (fun _ => ?_) fun _ => Keeps.ite (fun _ => keeps_pure trivial) fun _ => ?_
      · exact (needCluster_keeps _ _).bind fun _ _ =>
          (rwCluster_keeps visits _ _ _ _).bind fun _ _ => ih _ _ _ _
      · exact (needCluster_keeps _ _).bind fun _ _ => rwClusterPart_keeps visits _ _ _ _ _ _

theorem fat32FileRw_keeps (file : FatFile) (buf : Bytes) (offset len : Nat) (isWrite : Bool) :
    Preserves inv (fat32FileRw disk file buf offset len isWrite) := by
  refine (mountedFs_keeps visits).bind ?_
  rintro _ rfl
  refine (readFs_keeps _).bind fun f _ => (divide_keeps _ _).bind fun fileCluster _ => ?_
  refine Keeps.ite (fun _ => ?_) fun _ => rwClusters_keeps visits _ _ _ _ _ _ _ _
  exact (needCluster_keeps _ _).bind fun _ _ => (rwClusterPart_keeps visits _ _ _ _ _ _).bind
    fun _ _ => rwClusters_keeps visits _ _ _ _ _ _ _ _

theorem fat32FileRead_keeps (file : FatFile) (buf : Bytes) (offset length : Nat) :
    Preserves inv (fat32FileRead disk file buf offset length) := by
  refine Keeps.ite (fun _ => keeps_pure trivial) fun _ => ?_
  refine (fat32FileRw_keeps visits _ _ _ _ _).attempt.bind fun result _ => ?_
  cases result <;> exact keeps_pure trivial

theorem readOldEntry_keeps (dirFile : FatFile) (offset : Nat) :
    Preserves inv (readOldEntry disk dirFile offset) := by
  refine Keeps.ite (fun _ => ?_) fun _ => keeps_pure trivial
  exact (fat32FileRead_keeps visits _ _ _ _).bind fun _ _ =>
    Keeps.ite (fun _ => keeps_fail) fun _ => keeps_pure trivial

/-! ## Growing -/

omit visits in
theorem lift_keeps {α : Type} {p : FatM α} {post : α → Prop} (keeps : Keeps inv p post) :
    Keeps (WithFile fs inv) (liftM p : FileM α) post := keeps.onFst

omit visits in
theorem theFile_keeps : Keeps (WithFile fs inv) theFile (FatFile.On fs) :=
  keeps_state.bind fun _ start => keeps_pure start.2

omit visits in
theorem setFile_keeps (f : FatFile → FatFile) (same : ∀ file, (f file).fs = file.fs) :
    Preserves (WithFile fs inv) (setFile f) :=
  keeps_update fun s start => ⟨start.1, (same s.2).trans start.2⟩

/-- What `fat32_file_write` ends with. -/
theorem writeTransfer_keeps (buf : Bytes) (offset length : Nat) :
    Preserves (WithFile fs inv) (do
      match ← attempt (fat32FileRw disk (← theFile) buf offset length true : FatM Bytes) with
      | .ok _ => return length
      | .error e => return sizeOfError e : FileM Nat) := by
  refine theFile_keeps.bind fun file _ => ?_
  refine (lift_keeps (fat32FileRw_keeps visits _ _ _ _ _)).attempt.bind fun result _ => ?_
  cases result <;> exact keeps_pure trivial

theorem fat32FileWriteWith_keeps {extend : Nat → FileM Unit}
    (extends_ : ∀ newSize, Preserves (WithFile fs inv) (extend newSize)) (buf : Bytes)
    (offset length : Nat) :
    Preserves (WithFile fs inv) (fat32FileWriteWith extend disk buf offset length) := by
  have transfer := writeTransfer_keeps visits buf offset length
  refine theFile_keeps.bind fun file _ => Keeps.ite (fun _ => ?_) fun _ => transfer
  refine (extends_ _).attempt.bind fun result _ => ?_
  cases result with
  | ok _ => exact transfer
  | error _ => exact keeps_pure trivial

theorem fat32ZeroCluster_keeps (cluster : BitVec 32) :
    Preserves inv (fat32ZeroCluster disk fs cluster) :=
  keeps_state.bind fun _ _ => writeCluster_keeps visits _ _ _

theorem searchFree_keeps (left j : Nat) : Preserves inv (searchFree disk fs left j) := by
  induction left generalizing j with
  | zero => exact keeps_pure trivial
  | succ left ih =>
      exact (visits.gets _).bind fun _ _ => Keeps.ite (fun _ => keeps_pure trivial) fun _ => ih _

omit visits
variable (acc : Accesses disk fs inv)
include acc

theorem claimCluster_keeps (i : Nat) (cluster : BitVec 32) :
    Preserves (WithFile fs inv) (claimCluster disk fs i cluster) :=
  claimCluster_preserves (fun _ => lift_keeps (fat32ZeroCluster_keeps acc.toVisits _))
    (fun _ _ => lift_keeps (acc.sets _ _)) (fun _ same => setFile_keeps _ fun file => (same file).1)
    i cluster

theorem extendLoop_keeps (clusters left i freeIndex : Nat) :
    Preserves (WithFile fs inv) (extendLoop disk fs clusters left i freeIndex) :=
  extendLoop_preserves (fun _ _ => lift_keeps (searchFree_keeps acc.toVisits _ _)) (claimCluster_keeps acc)
    clusters left i freeIndex

theorem growBlocklist_keeps (newBlocklistSize : Nat) :
    Preserves (WithFile fs inv) (growBlocklist disk newBlocklistSize) := by
  refine theFile_keeps.bind ?_
  rintro file rfl
  refine (lift_keeps (readFs_keeps _)).bind fun f _ => ?_
  refine (lift_keeps (numClusters_keeps _ _)).bind fun clusters _ => ?_
  refine (lift_keeps (reallocBlocklist_keeps acc.toVisits _ _)).bind fun blocklist _ => ?_
  refine Keeps.then (setFile_keeps _ (by intro; rfl)) ?_
  refine Keeps.ite (fun _ => keeps_fail) fun _ => ?_
  refine Keeps.then (setFile_keeps _ (by intro; rfl)) ?_
  exact (extendLoop_keeps acc _ _ _ _).then (lift_keeps acc.commits)

theorem fat32ExtendFileWith_keeps {updateEntry : FatFile → FatM Unit}
    (updates : ∀ file, file.On fs → Preserves inv (updateEntry file)) (newSize : Nat) :
    Preserves (WithFile fs inv) (fat32ExtendFileWith updateEntry disk newSize) := by
  refine Keeps.ite (fun _ => keeps_pure trivial) fun _ => ?_
  refine theFile_keeps.bind fun file _ => ?_
  refine (lift_keeps (readFs_keeps _)).bind fun f _ => ?_
  refine (lift_keeps (blocksFor_keeps _ _)).bind fun newBlocks _ => ?_
  have grow : Preserves (WithFile fs inv) (if file.blocklistSize < newBlocks then
      growBlocklist disk newBlocks else pure ()) :=
    Keeps.ite (fun _ => growBlocklist_keeps acc _) fun _ => keeps_pure trivial
  refine grow.then ?_
  refine Keeps.then (setFile_keeps _ (by intro; rfl)) ?_
  refine theFile_keeps.bind fun file _ => ?_
  refine Keeps.ite (fun _ => ?_) fun _ => keeps_pure trivial
  exact theFile_keeps.bind fun file on => lift_keeps (updates file on)

/-! ## The directory entry -/

theorem fat32DirUpdateSubdirEntry_keeps (file : FatFile) :
    Preserves inv (fat32DirUpdateSubdirEntry disk file) := by
  refine (mallocBlocklist_keeps acc.toVisits).bind fun memory _ => ?_
  refine Keeps.ite (fun _ => keeps_fail) fun _ => ?_
  refine (fat32FileOpenByDirEntry_keeps acc.toVisits _).bind fun dirFile on => ?_
  refine (readOldEntry_keeps acc.toVisits _ _).bind fun old _ => ?_
  have extends_ (newSize : Nat) : Preserves (WithFile fs inv)
      (fat32ExtendFileWith (fun _ => halt) disk newSize) :=
    fat32ExtendFileWith_keeps acc (fun _ _ => keeps_halt) _
  refine (Keeps.withSnd (fat32FileWriteWith_keeps acc.toVisits extends_ _ _ _) on).bind fun result _ => ?_
  exact Keeps.ite (fun _ => keeps_pure trivial) fun _ => keeps_fail

theorem fat32DirUpdateEntry_keeps (file : FatFile) :
    Preserves inv (fat32DirUpdateEntry disk file) :=
  Keeps.ite
    (fun _ => (readFs_keeps _).bind fun _ _ => fat32DirUpdateSubdirEntry_keeps acc _)
    fun _ => fat32DirUpdateSubdirEntry_keeps acc _

theorem fat32ExtendFile_keeps (newSize : Nat) :
    Preserves (WithFile fs inv) (fat32ExtendFile disk newSize) :=
  fat32ExtendFileWith_keeps acc (fun _ _ => fat32DirUpdateEntry_keeps acc _) _

end Steps

end TestOs.Fat32
