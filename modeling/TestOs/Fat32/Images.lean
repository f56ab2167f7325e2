/-
# Fat32.Images -- a volume as a table and bytes

An `Image` is what a FAT32 volume is for: an entry for each cluster, and the
bytes of the clusters.  `HoldsImage` says that a machine holds an image: its FAT,
through the buffer, is the table (`ShowsTable`), and its disk has the bytes, from
the sector `tail` on.  Looking up and setting an entry, committing and writing a
cluster are the operations of an image (`getNext_holds`, `setNext_holds`,
`commit_holds`, `writeCluster_holds`), on volumes on which the clusters have
entries and lie behind the FAT (`Fs.Proper`).

The buffer holds two sectors, and the last sector of the FAT is written back with
the one behind it.  So `tail` is not the end of the FAT: it is behind every
sector that a write-back of an entry can reach (`Fs.TailFits`).
-/
import TestOs.Fat32.FreeSpace
import TestOs.Fat32.Serving

namespace TestOs.Fat32

open TestOs.Library Prog

set_option autoImplicit false

/-! ## Volumes -/

/-- A cluster number that the allocator considers. -/
def Fs.HasCluster (f : Fs) (cluster : BitVec 32) : Prop :=
  2 ≤ cluster.toNat ∧ cluster.toNat < clusterBound f

/-- The FAT has an entry for each cluster, and the clusters lie behind it. -/
structure Fs.Proper (f : Fs) : Prop where
  copies : f.CopiesFit
  power : PowerOfTwo f
  behind : f.reservedSectors + f.numFats * f.fatSectors ≤ f.firstDataCluster.toNat
  inside : f.firstDataCluster.toNat ≤ f.totalSectors.toNat
  covered : clusterBound f ≤ f.fatSectors * 128
  numbers : clusterBound f ≤ 0xffffff6

/-- No write-back of the entry of a cluster reaches the sectors from `tail` on. -/
def Fs.TailFits (f : Fs) (tail : Nat) : Prop :=
  ∀ cluster, f.HasCluster cluster →
    f.reservedSectors + fat32Sector cluster + (f.numFats - 1) * f.fatSectors + 2 ≤ tail

namespace Fs.Proper

variable {f : Fs} {cluster : BitVec 32}

theorem sectors (proper : f.Proper) : 0 < f.clusterSectors := by
  have := proper.power.size
  unfold Fs.clusterSize at this
  omega

theorem hasEntry (proper : f.Proper) (has : f.HasCluster cluster) : f.HasEntry cluster := by
  have := proper.covered
  have := proper.numbers
  have := has.2
  exact lt_min_iff.2 ⟨by omega, by omega⟩

theorem ofNat_hasCluster (proper : f.Proper) {j : Nat} (low : 2 ≤ j) (high : j < clusterBound f) :
    f.HasCluster (BitVec.ofNat 32 j) ∧ (BitVec.ofNat 32 j).toNat = j := by
  have := proper.numbers
  have number : (BitVec.ofNat 32 j).toNat = j := by
    rw [BitVec.toNat_ofNat, Nat.mod_eq_of_lt (by omega)]
  exact ⟨⟨by rwa [number], by rwa [number]⟩, number⟩

theorem cluster_offset (proper : f.Proper) (has : f.HasCluster cluster) :
    getDataClusterOffset f cluster =
      f.firstDataCluster.toNat + f.clusterSectors * (cluster.toNat - 2) :=
  clusterOffset_eq proper.inside has.1 has.2

/-- A cluster lies behind the FAT. -/
theorem cluster_behind (proper : f.Proper) (has : f.HasCluster cluster) :
    512 * (f.reservedSectors + f.numFats * f.fatSectors) ≤ f.clusterStart cluster := by
  have := proper.behind
  rw [Fs.clusterStart, proper.cluster_offset has]
  omega

/-- The sector behind the FAT copies can be reached, and no other. -/
theorem tailFits (proper : f.Proper) :
    f.TailFits (f.reservedSectors + f.numFats * f.fatSectors + 1) := by
  intro cluster has
  have sector := fat32Sector_lt (lt_min_iff.1 (proper.hasEntry has)).1
  have copies : (f.numFats - 1) * f.fatSectors + f.fatSectors = f.numFats * f.fatSectors := by
    rw [← Nat.succ_mul, Nat.succ_eq_add_one, Nat.sub_add_cancel proper.copies.some_copy]
  omega

end Fs.Proper

/-! ## Images -/

/-- A FAT, and the bytes of a disk. -/
structure Image where
  entry : Nat → BitVec 32
  data : Bytes

/-- The machine holds the image, on hardware that does not fail. -/
structure HoldsImage (disk : DiskId) (fs : FsPtr) (f : Fs) (tail : Nat) (world : World)
    (image : Image) (s : Machine) : Prop where
  reliable : s.Reliable
  world : s.world = world
  mounted : (s.disk disk).fs = some fs
  shows : ShowsTable s.toCore disk fs f { entry := image.entry, synced := false }
  window : s.bufFs = some fs → s.bufSector + (f.numFats - 1) * f.fatSectors + 2 ≤ tail
  data : ∀ i ≥ 512 * tail, (s.disk disk).data i = image.data i

section Tail

variable {c : Core} {disk : DiskId} {fs : FsPtr} {f : Fs} {tail i : Nat}

/-- A write-back does not reach the bytes from `tail` on. -/
theorem writtenBack_tail (cache : CacheOk c disk fs) (fits : (c.fsMem fs).CopiesFit)
    (window : c.bufFs = some fs →
      c.bufSector + ((c.fsMem fs).numFats - 1) * (c.fsMem fs).fatSectors + 2 ≤ tail)
    (holds : c.bufFs = some fs) (behind : 512 * tail ≤ i) :
    ((c.writtenBack disk).disk disk).data i = (c.disk disk).data i := by
  have low := window holds
  have inFat := (cache.window holds).2
  have fit := fits.fit
  have last : ((c.fsMem fs).numFats - 1) * (c.fsMem fs).fatSectors + (c.fsMem fs).fatSectors =
      (c.fsMem fs).numFats * (c.fsMem fs).fatSectors := by
    rw [← Nat.succ_mul, Nat.succ_eq_add_one, Nat.sub_add_cancel fits.some_copy]
  simp only [Core.writtenBack, holds, setData_data]
  refine writeCopies_outside (by omega) fun k copy => ?_
  right
  have le := Nat.mul_le_mul_right (c.fsMem fs).fatSectors (by omega : k ≤ (c.fsMem fs).numFats - 1)
  rw [copySector, w32_of_lt (by omega)]
  omega

theorem fetched_tail (cache : CacheOk c disk fs) (fits : (c.fsMem fs).CopiesFit)
    (window : c.bufFs = some fs →
      c.bufSector + ((c.fsMem fs).numFats - 1) * (c.fsMem fs).fatSectors + 2 ≤ tail)
    (sector : Nat) (behind : 512 * tail ≤ i) :
    ((c.fetched disk fs sector).disk disk).data i = (c.disk disk).data i := by
  unfold Core.fetched
  split
  · rfl
  · change ((c.evicted disk).disk disk).data i = _
    unfold Core.evicted
    split
    · rename_i dirty
      exact writtenBack_tail cache fits window (cache.owned dirty.1) behind
    · rfl

end Tail

section Operations

variable {disk : DiskId} {fs : FsPtr} {f : Fs} {tail : Nat} {world : World} {image : Image}
  {s : Machine} {cluster : BitVec 32}

namespace HoldsImage

theorem fsMem (holds : HoldsImage disk fs f tail world image s) : s.fsMem fs = f :=
  holds.shows.fsMem

theorem ran_same (holds : HoldsImage disk fs f tail world image s) (io : Nat)
    (trace : List Event) : HoldsImage disk fs f tail world image (s.ran s.toCore io trace) :=
  ⟨holds.reliable, holds.world, holds.mounted, holds.shows, holds.window, holds.data⟩

theorem allocated (holds : HoldsImage disk fs f tail world image s) :
    HoldsImage disk fs f tail world image { s with mallocs := s.mallocs + 1 } :=
  ⟨holds.reliable, holds.world, holds.mounted, holds.shows, holds.window, holds.data⟩

/-- The bytes in front of `tail` do not belong to the image. -/
theorem congr_data (holds : HoldsImage disk fs f tail world image s) {data : Bytes}
    (same : ∀ i ≥ 512 * tail, data i = image.data i) :
    HoldsImage disk fs f tail world { image with data := data } s :=
  { holds with data := fun i behind => (holds.data i behind).trans (same i behind).symm }

/-- Writing behind the FAT copies changes the bytes of the image. -/
theorem wrote (holds : HoldsImage disk fs f tail world image s) (proper : f.Proper) {data : Bytes}
    (same : ∀ i < 512 * (f.reservedSectors + f.numFats * f.fatSectors),
      data i = (s.disk disk).data i) (io : Nat) (trace : List Event) :
    HoldsImage disk fs f tail world { image with data := data }
      (s.ran (s.toCore.setData disk data) io trace) := by
  obtain ⟨reliable, worlds, mounted, shows, window, -⟩ := holds
  obtain ⟨rfl, cache, entries, -⟩ := shows
  have some_ := proper.copies.some_copy
  have first : (s.fsMem fs).fatSectors ≤ (s.fsMem fs).numFats * (s.fsMem fs).fatSectors :=
    Nat.le_mul_of_pos_left _ some_
  have low (i : Nat) (inFat : i < 512 * (s.fsMem fs).fatSectors) :
      data (s.fatBase fs + i) = (s.disk disk).data (s.fatBase fs + i) :=
    same _ (by unfold Core.fatBase; omega)
  have view (i : Nat) (inFat : i < 512 * (s.fsMem fs).fatSectors) :
      (s.toCore.setData disk data).fatView disk fs i = s.toCore.fatView disk fs i := by
    unfold Core.fatView
    rw [setData_data]
    split <;> rename_i inside
    · exact (if_pos inside).symm
    · exact (low i inFat).trans (if_neg inside).symm
  refine ⟨reliable, worlds, by rw [ran_toCore, setData_fs]; exact mounted,
    ⟨rfl, ⟨fun unchanged own i inFat inside => ?_, cache.owned, cache.window⟩, fun k inFat => ?_,
      fun never => nomatch never⟩, window, fun i _ => ?_⟩
  · rw [ran_toCore, setData_data]
    exact (cache.clean unchanged own i inFat inside).trans (low i inFat).symm
  · rw [← entries k inFat]
    exact word_congr fun i _ high => view i (by omega)
  · rw [ran_toCore, setData_data]

end HoldsImage

variable (proper : f.Proper) (fits : f.TailFits tail)

include proper fits

theorem getNext_holds (holds : HoldsImage disk fs f tail world image s)
    (has : f.HasCluster cluster) :
    wp (getNextClusterFat32 disk fs cluster)
      (fun value t => value = nextIn image.entry cluster ∧ HoldsImage disk fs f tail world image t)
      (fun _ _ => False) s := by
  obtain ⟨low, small⟩ := lt_min_iff.1 (proper.hasEntry has)
  obtain ⟨after, own, sector⟩ := holds.shows.fetched proper.copies (fat32Sector_lt low)
  refine wp_mono (getNextClusterFat32_yields disk fs cluster holds.reliable) ?_
    (fun _ _ never => never)
  rintro value t ⟨rfl, io, trace, rfl⟩
  rw [holds.fsMem, entrySector_eq]
  refine ⟨?_, holds.reliable, holds.world, ?_, after, fun _ => ?_, fun i behind => ?_⟩
  · rw [after.buffer_entry small low own sector]
    rfl
  · rw [ran_toCore, fetched_fs]
    exact holds.mounted
  · have := fits cluster has
    rw [ran_toCore, sector]
    omega
  · obtain ⟨-, -, -, shows, window, data⟩ := holds
    obtain ⟨rfl, cache, -, -⟩ := shows
    rw [ran_toCore, fetched_tail cache proper.copies window _ behind]
    exact data i behind

theorem setNext_holds (holds : HoldsImage disk fs f tail world image s) (has : f.HasCluster cluster)
    (next : BitVec 32) :
    wp (setNextClusterFat32 disk fs cluster next)
      (fun _ t => HoldsImage disk fs f tail world
        { image with entry := Function.update image.entry cluster.toNat next } t)
      (fun _ _ => False) s := by
  obtain ⟨low, small⟩ := lt_min_iff.1 (proper.hasEntry has)
  obtain ⟨after, own, sector⟩ := holds.shows.fetched proper.copies (fat32Sector_lt low)
  refine wp_mono (setNextClusterFat32_yields disk fs cluster next holds.reliable) ?_
    (fun _ _ never => never)
  rintro value t ⟨-, io, trace, rfl⟩
  rw [holds.fsMem, entrySector_eq]
  refine ⟨holds.reliable, holds.world, ?_, after.stored small own sector next, fun _ => ?_,
    fun i behind => ?_⟩
  · change ((s.toCore.fetched disk fs _).disk disk).fs = _
    rw [fetched_fs]
    exact holds.mounted
  · have := fits cluster has
    change (s.toCore.fetched disk fs _).bufSector + _ + _ ≤ _
    rw [sector]
    omega
  · obtain ⟨-, -, -, shows, window, data⟩ := holds
    obtain ⟨rfl, cache, -, -⟩ := shows
    change ((s.toCore.fetched disk fs _).disk disk).data i = _
    rw [fetched_tail cache proper.copies window _ behind]
    exact data i behind

omit fits in
theorem commit_holds (holds : HoldsImage disk fs f tail world image s) :
    wp (commitFat32Buffer disk fs) (fun _ t => HoldsImage disk fs f tail world image t)
      (fun _ _ => False) s := by
  have committed := holds.shows.committed proper.copies
  refine wp_mono (commitFat32Buffer_yields disk fs holds.reliable) ?_ (fun _ _ never => never)
  rintro - t ⟨-, io, trace, rfl⟩
  obtain ⟨reliable, worlds, mounted, shows, window, data⟩ := holds
  obtain ⟨rfl, cache, -, -⟩ := shows
  refine ⟨reliable, worlds, ?_, ⟨committed.fsMem, committed.cache, committed.entries,
    fun never => nomatch never⟩, ?_, fun i behind => ?_⟩
  · rw [ran_toCore]
    split
    · rename_i own
      simp only [Core.writtenBack, own, setData_fs]
      exact mounted
    · exact mounted
  · rw [ran_toCore]
    split
    · rw [writtenBack_bufFs, writtenBack_bufSector]
      exact window
    · exact window
  · rw [ran_toCore, ← data i behind]
    split
    · rename_i own
      exact writtenBack_tail cache proper.copies window own behind
    · rfl

omit fits in
theorem writeCluster_holds (holds : HoldsImage disk fs f tail world image s)
    (has : f.HasCluster cluster) (buf : Bytes) (p : Nat) :
    wp (writeCluster disk fs buf p cluster)
      (fun _ t => HoldsImage disk fs f tail world { image with
        data := splice image.data (f.clusterStart cluster) (slice buf p) f.clusterSize } t)
      (fun _ _ => False) s := by
  refine wp_mono (writeCluster_yields holds.reliable) ?_ (fun _ _ never => never)
  rintro - t ⟨-, io, trace, rfl⟩
  have behind := proper.cluster_behind has
  rw [holds.fsMem]
  refine (holds.wrote proper (fun i low => splice_outside (.inl (by omega))) io trace).congr_data ?_
  intro i high
  change _ = splice (s.disk disk).data _ _ _ i
  by_cases inside : f.clusterStart cluster ≤ i ∧ i < f.clusterStart cluster + f.clusterSize
  · rw [splice_inside inside.1 inside.2, splice_inside inside.1 inside.2]
  · rw [splice_outside (by omega), splice_outside (by omega), holds.data i high]

end Operations

/-- An image serves its clusters and the bytes behind the write-backs. -/
theorem image_serves {disk : DiskId} {fs : FsPtr} {f : Fs} {tail : Nat} {world : World}
    {image : Image} (proper : f.Proper) (fits : f.TailFits tail)
    (ample : ∀ n, world.noMemory n = false) :
    Serves disk fs f (nextIn image.entry) f.HasCluster image.data (512 * tail ≤ ·)
      (HoldsImage disk fs f tail world image) where
  mounted _ holds := holds.mounted
  fsMem _ holds := holds.fsMem
  reliable _ holds := holds.reliable
  ample _ holds n := by
    rw [holds.world]
    exact ample n
  moves _ io trace holds := holds.ran_same io trace
  allocates _ holds := holds.allocated
  gets _ _ holds has := getNext_holds proper fits holds has
  bytes _ holds i behind := holds.data i behind

/-! ## The entry of a file -/

/-- The chain of a file, in clusters of the volume. -/
structure FileChain (f : Fs) (entry : Nat → BitVec 32) (chain : Blocklist) (count : Nat) : Prop where
  isChain : TableChain (nextIn entry) EndMark chain count
  clusters : ∀ i < count, f.HasCluster (chain i)

/-- The directory that has the entry of a file. -/
structure Filed (f : Fs) (entry : Nat → BitVec 32) (dirEntry : DirEntry) (dir : Blocklist)
    (count : Nat) : Prop where
  chain : FileChain f entry dir count
  first : dir 0 = if dirEntry.dirFirstCluster = 0 then f.bpb.rootdirCluster
    else dirEntry.dirFirstCluster
  valid : ∀ i < count, f.DataCluster (dir i)
  small : count * f.clusterSize < 2 ^ 32
  slot : dirEntry.indexInDir * diskEntrySize + diskEntrySize ≤ count * f.clusterSize

/-- The bytes behind `tail` are the same outside some clusters. -/
def SameOutsideFrom (f : Fs) (tail : Nat) (dir : Blocklist) (count : Nat) (before after : Bytes) :
    Prop :=
  ∀ i ≥ 512 * tail, (∀ q < count, ¬ f.InCluster (dir q) i) → after i = before i

/-- These clusters lie behind what the write-backs of the FAT reach. -/
def Fs.Behind (f : Fs) (tail : Nat) (blocks : Blocklist) (count : Nat) : Prop :=
  ∀ q < count, tail ≤ getDataClusterOffset f (blocks q)

/-- A directory with a new version of the entry of a file: of the old one, with the
fields that `dir_entry_to_disk` sets. -/
def EntryWritten (f : Fs) (dir : Blocklist) (count : Nat) (dirEntry : DirEntry) (size : Nat)
    (before after : Bytes) : Prop :=
  ∃ old, (∀ i < diskEntrySize,
      old i = fileView f dir before (dirEntry.indexInDir * diskEntrySize + i)) ∧
    ∀ j < count * f.clusterSize, fileView f dir after j =
      splice (fileView f dir before) (dirEntry.indexInDir * diskEntrySize)
        (dirEntryToDisk dirEntry size old) diskEntrySize j

/-- Behind the write-backs the bytes of a file are those of the image. -/
theorem fileView_behind {f : Fs} {tail count : Nat} {blocks : Blocklist} {data data' : Bytes}
    (behind : f.Behind tail blocks count) (same : ∀ i ≥ 512 * tail, data i = data' i) {j : Nat}
    (below : j < count * f.clusterSize) : fileView f blocks data j = fileView f blocks data' j := by
  have sized : 0 < f.clusterSize := Nat.pos_of_mul_pos_left (by omega : 0 < count * f.clusterSize)
  have block : j / f.clusterSize < count := Nat.div_lt_of_lt_mul (by rwa [Nat.mul_comm])
  have start := behind _ block
  refine same _ ?_
  unfold Fs.clusterStart
  omega

namespace FileChain

variable {f : Fs} {entry : Nat → BitVec 32} {chain : Blocklist} {count : Nat}

theorem count_le (fileChain : FileChain f entry chain count) (proper : f.Proper) :
    count ≤ 2 ^ 28 := by
  refine fileChain.isChain.count_le BitVec.toNat (fun a b same => ?_) fun i inChain => ?_
  · rw [BitVec.eq_of_toNat_eq same]
  · exact (lt_min_iff.1 (proper.hasEntry (fileChain.clusters i inChain))).2

theorem nonzero (fileChain : FileChain f entry chain count) {i : Nat} (inChain : i < count) :
    chain i ≠ 0 := by
  intro zero
  have := (fileChain.clusters i inChain).1
  rw [zero] at this
  exact absurd this (by decide)

end FileChain

section Update

variable {disk : DiskId} {fs : FsPtr} {f : Fs} {tail : Nat} {world : World} {image : Image}
  {s : Machine} {dir : Blocklist} {count : Nat} {total : Prop} (proper : f.Proper)
  (fits : f.TailFits tail) (memory : total → ∀ n, world.noMemory n = false)

/-! The operations that allocate end with a value if all allocations succeed. -/

include memory in
theorem mallocBlocklist_holds (holds : HoldsImage disk fs f tail world image s) :
    ends total mallocBlocklist
      (fun new t => (total → new ≠ none) ∧ HoldsImage disk fs f tail world image t) s := by
  unfold mallocBlocklist
  rw [ends_bind, ends_state, ends_bind, ends_update, ends_pure]
  refine ⟨fun enough => ?_, holds.allocated⟩
  rw [holds.world, memory enough]
  exact Option.some_ne_none _

include memory in
theorem reallocBlocklist_holds (holds : HoldsImage disk fs f tail world image s)
    (old : Option Blocklist) (keep : Nat) :
    ends total (reallocBlocklist old keep)
      (fun new t => (total → new ≠ none) ∧ HoldsImage disk fs f tail world image t ∧
        ∀ longer, new = some longer → ∀ blocks, old = some blocks → ∀ j < keep, longer j = blocks j)
      s := by
  unfold reallocBlocklist
  rw [ends_bind]
  refine ends_mono (mallocBlocklist_holds memory holds) ?_
  rintro garbage t ⟨some_, holds⟩
  rw [ends_pure]
  refine ⟨fun enough => ?_, holds, fun longer same blocks isOld j low => ?_⟩
  · rw [ne_eq, Option.map_eq_none_iff]
    exact some_ enough
  · obtain ⟨garbage', -, rfl⟩ := Option.map_eq_some_iff.1 same
    rw [isOld]
    exact if_pos low

include proper fits

theorem image_answers : Answers disk fs f (nextIn image.entry) f.HasCluster
    (HoldsImage disk fs f tail world image) where
  mounted _ holds := holds.mounted
  fsMem _ holds := holds.fsMem
  allocates _ holds := holds.allocated
  gets _ _ holds has := wp_mono (getNext_holds proper fits holds has)
    (fun _ _ found => .inr found) (fun _ _ never => never)

omit fits in
/-- A write through a handle on a directory stays in the clusters of the directory. -/
theorem writeEntry_holds (holds : HoldsImage disk fs f tail world image s) {file : FatFile}
    {blocks : Blocklist} (opened : OpenFile f file blocks count)
    (clusters : ∀ i < count, f.HasCluster (blocks i)) {offset len : Nat}
    (inside : offset + len ≤ file.size) (fitsSize : file.size ≤ count * f.clusterSize)
    (small : file.size < 2 ^ 32) (buf : Bytes) (extend : Nat → FileM Unit) :
    wp (fat32FileWriteWith extend disk buf offset len)
      (fun ret t => ret = len ∧ t.2 = file ∧ ∃ data,
        HoldsImage disk fs f tail world { image with data := data } t.1 ∧
        SameOutsideFrom f tail blocks count image.data data ∧
        (f.Behind tail blocks count → ∀ j < count * f.clusterSize,
          fileView f blocks data j = splice (fileView f blocks image.data) offset buf len j))
      (fun _ _ => False) (s, file) := by
  have inSize : ¬ file.size < w32 (offset + len) := by
    rw [w32_of_lt (by omega)]
    omega
  have same := holds.fsMem
  unfold fat32FileWriteWith
  simp only [wp_bind, wp_theFile, if_neg inSize, wp_lift, wp_attempt]
  refine wp_mono (fat32FileRw_write holds.reliable holds.mounted (by rwa [same])
    (by rw [same]; exact proper.power) (by rw [same]; omega) (by omega)) ?_
    (fun _ _ never => never.elim)
  rintro - t ⟨data, io, trace, rfl, written⟩
  rw [same] at written
  refine ⟨rfl, rfl, data, holds.wrote proper (fun i low => ?_) io trace, fun i behind outside => ?_,
    fun behind j below => ?_⟩
  · refine written.outside i fun q inFile within => ?_
    have := proper.cluster_behind (clusters q inFile)
    have := within.1
    omega
  · rw [written.outside i outside, holds.data i behind]
  · rw [written.view j below]
    by_cases inside : offset ≤ j ∧ j < offset + len
    · rw [splice_inside inside.1 inside.2, splice_inside inside.1 inside.2]
    · rw [splice_outside (by omega), splice_outside (by omega)]
      exact fileView_behind behind holds.data below

include memory in
/-- Opening the directory of a file recovers its clusters. -/
theorem Filed.opens {dirEntry : DirEntry} (filed : Filed f image.entry dirEntry dir count)
    (holds : HoldsImage disk fs f tail world image s) {entry : DirEntry}
    (first : entry.firstCluster = dir 0) (unsized : entry.size = 0) :
    ends total (fat32FileOpenByDirEntry disk entry)
      (fun file t => HoldsImage disk fs f tail world image t ∧ file.size = count * f.clusterSize ∧
        ∃ blocks, OpenFile f file blocks count ∧ ∀ i < count, blocks i = dir i) s := by
  have chain := filed.chain
  have some_ := chain.isChain.some_
  have few := chain.count_le proper
  have opens : ends total (fat32FileOpenByDirEntry disk entry)
      (fun file t => HoldsImage disk fs f tail world image t ∧
        Recovered fs f entry dir count file) s := by
    refine ⟨fun enough => ?_, fun _ => open_walks (image_answers proper fits) chain.isChain
      chain.clusters few first (chain.nonzero some_) holds⟩
    exact wp_mono ((image_serves proper fits (memory enough)).openChain chain.isChain chain.clusters
      (by omega) (fun i inChain => chain.nonzero inChain) first
      (fun sized => absurd unsized sized.ne') holds) (fun _ _ found => ⟨found.2, found.1⟩)
      (fun _ _ never => never)
  refine ends_mono opens ?_
  rintro file t ⟨holds, recovered⟩
  obtain ⟨blocks, list, walked⟩ := recovered.list
  have guess : f.guessedBlocks entry.size = 1 := by
    rw [Fs.guessedBlocks, unsized, if_neg (Nat.lt_irrefl 0)]
  rw [guess] at walked
  have same := walked.same Nat.one_pos
  refine ⟨holds, ?_, blocks, ⟨⟨fun i inFile => ?_, fun i inFile j inFile' eq => ?_⟩, list,
    walked.room Nat.one_pos⟩, same⟩
  · rw [recovered.size, if_pos unsized, w32_of_lt filed.small]
  · rw [same i inFile]
    exact filed.valid i inFile
  · rw [same i inFile, same j inFile'] at eq
    exact chain.isChain.distinct inFile inFile' eq

include memory in
theorem updateSubdir_holds {file : FatFile}
    (filed : Filed f image.entry file.dirEntry dir count)
    (parent : file.dirEntry.dirFirstCluster = dir 0)
    (holds : HoldsImage disk fs f tail world image s) :
    ends total (fat32DirUpdateSubdirEntry disk file)
      (fun _ t => ∃ data, HoldsImage disk fs f tail world { image with data := data } t ∧
        SameOutsideFrom f tail dir count image.data data ∧
        (f.Behind tail dir count →
          EntryWritten f dir count file.dirEntry file.size image.data data)) s := by
  have small := filed.small
  have slot := filed.slot
  have offset : w32 (file.dirEntry.indexInDir * diskEntrySize) =
      file.dirEntry.indexInDir * diskEntrySize := w32_of_lt (by omega)
  unfold fat32DirUpdateSubdirEntry
  simp only [offset]
  rw [ends_bind]
  refine ends_mono (mallocBlocklist_holds memory holds) ?_
  rintro allocated t ⟨some_, holds⟩
  by_cases full : allocated.isNone = true
  · rw [if_pos full, ends_fail]
    exact fun enough => some_ enough (Option.isNone_iff_eq_none.1 full)
  rw [if_neg full, ends_bind]
  refine ends_mono (filed.opens proper fits memory holds parent rfl) ?_
  rintro dirFile u ⟨holds, size, blocks, opened, same⟩
  have clusters : ∀ i < count, f.HasCluster (blocks i) := by
    intro i inFile
    rw [same i inFile]
    exact filed.chain.clusters i inFile
  -- in a range of the file, one blocklist is as good as the other
  have view (data : Bytes) (j : Nat) (below : j < count * f.clusterSize) :
      fileView f blocks data j = fileView f dir data j := by
    have sized : 0 < f.clusterSize := proper.power.size
    have block : j / f.clusterSize < count := Nat.div_lt_of_lt_mul (by rwa [Nat.mul_comm])
    unfold fileView
    rw [same _ block]
  -- the entry is there already
  have old : wp (readOldEntry disk dirFile (file.dirEntry.indexInDir * diskEntrySize))
      (fun bytes v => HoldsImage disk fs f tail world image v ∧
        (f.Behind tail dir count → ∀ i < diskEntrySize, bytes i =
          fileView f dir image.data (file.dirEntry.indexInDir * diskEntrySize + i)))
      (fun _ _ => False) u := by
    have reads := reads_back holds.reliable holds.mounted
      (by rw [holds.fsMem]; exact opened) (by rw [holds.fsMem]; exact proper.power)
      (by rw [holds.fsMem]; exact size.le) (by omega) (fun _ _ => rfl)
      (file.dirEntry.indexInDir * diskEntrySize) diskEntrySize (fun _ => 0) (by omega)
    unfold readOldEntry
    rw [w32_of_lt (by omega), if_pos (by omega), wp_bind]
    refine wp_mono reads ?_ (fun _ _ never => never)
    rintro ⟨ret, bytes⟩ v ⟨eq, io, trace, rfl⟩
    cases eq
    refine ⟨holds.ran_same io trace, fun behind i low => ?_⟩
    rw [splice_inside (Nat.zero_le i) (by omega), Nat.sub_zero, slice_apply, holds.fsMem,
      view _ _ (by omega)]
    exact fileView_behind behind holds.data (by omega)
  rw [ends_bind]
  refine ends_of_wp old ?_
  rintro bytes v ⟨holds, read⟩
  rw [ends_bind]
  have inside : file.dirEntry.indexInDir * diskEntrySize + diskEntrySize ≤ dirFile.size := by
    omega
  have new := writeEntry_holds proper holds opened clusters inside size.le (by omega)
    (dirEntryToDisk file.dirEntry file.size bytes)
    (fat32ExtendFileWith (fun _ => halt) disk)
  have written : wp (withSnd dirFile (fat32FileWriteWith (fat32ExtendFileWith (fun _ => halt) disk)
      disk (dirEntryToDisk file.dirEntry file.size bytes)
      (file.dirEntry.indexInDir * diskEntrySize) diskEntrySize))
      (fun a t => a.1 = diskEntrySize ∧ a.2 = dirFile ∧ ∃ data,
        HoldsImage disk fs f tail world { image with data := data } t ∧
        SameOutsideFrom f tail blocks count image.data data ∧
        (f.Behind tail blocks count → ∀ j < count * f.clusterSize,
          fileView f blocks data j = splice (fileView f blocks image.data)
            (file.dirEntry.indexInDir * diskEntrySize)
            (dirEntryToDisk file.dirEntry file.size bytes) diskEntrySize j))
      (fun _ _ => False) v :=
    (wp_withSnd _).2 new
  refine ends_of_wp written ?_
  rintro ⟨ret, file'⟩ w ⟨rfl, -, data, holds, outside, contents⟩
  rw [if_pos rfl, ends_pure]
  refine ⟨data, holds, fun i behind apart => outside i behind fun q inFile => ?_,
    fun behind => ⟨bytes, read behind, fun j below => ?_⟩⟩
  · rw [same q inFile]
    exact apart q inFile
  · have behind' : f.Behind tail blocks count := fun q inFile => by
      rw [same q inFile]
      exact behind q inFile
    rw [← view data j below, contents behind' j below]
    by_cases inside : file.dirEntry.indexInDir * diskEntrySize ≤ j ∧
        j < file.dirEntry.indexInDir * diskEntrySize + diskEntrySize
    · rw [splice_inside inside.1 inside.2, splice_inside inside.1 inside.2]
    · rw [splice_outside (by omega), splice_outside (by omega), view _ j below]

include memory in
/-- Updating the entry of a file changes nothing but bytes of its directory. -/
theorem dirUpdate_holds {file : FatFile} (onFs : file.fs = fs)
    (filed : Filed f image.entry file.dirEntry dir count)
    (holds : HoldsImage disk fs f tail world image s) :
    ends total (fat32DirUpdateEntry disk file)
      (fun _ t => ∃ data, HoldsImage disk fs f tail world { image with data := data } t ∧
        SameOutsideFrom f tail dir count image.data data ∧
        (f.Behind tail dir count →
          EntryWritten f dir count file.dirEntry file.size image.data data)) s := by
  have first := filed.first
  unfold fat32DirUpdateEntry
  split
  · rename_i root
    rw [if_pos root] at first
    rw [ends_bind, ends_readFs, onFs, holds.fsMem]
    refine updateSubdir_holds proper fits memory
      ⟨filed.chain, ?_, filed.valid, filed.small, filed.slot⟩ first.symm holds
    change dir 0 = if f.bpb.rootdirCluster = 0 then f.bpb.rootdirCluster else f.bpb.rootdirCluster
    rw [ite_self, first]
  · rename_i parent
    rw [if_neg parent] at first
    exact updateSubdir_holds proper fits memory filed first.symm holds

end Update

end TestOs.Fat32
