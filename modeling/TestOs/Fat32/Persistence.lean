/-
# Fat32.Persistence -- what is on the disk between two calls

The FAT buffer is written back before a call that changes entries returns, so that a
successful call leaves nothing that is only in the buffer (`Flushed`,
`storeStep_flushed`), whatever the hardware does.  And it writes the entry of its file,
with the first cluster, or what sixteen bits hold of it, and the size (`Recorded`).

So a machine that is switched off after a run of successful calls has lost nothing but
the handles: who opens the entry of a file then reads what the calls have left
(`store_survives`), if the number of its first cluster has sixteen bits.
-/
import TestOs.Fat32.FileStore
import TestOs.Fat32.FileSteps

namespace TestOs.Fat32

open TestOs.Library Prog

set_option autoImplicit false

/-! ## The FAT buffer -/

/-- `fs` is mounted on the disk. -/
def Mounted (disk : DiskId) (fs : FsPtr) (m : Machine) : Prop := (m.disk disk).fs = some fs

/-- The buffer has nothing that the FAT on the disk has not. -/
def Flushed (fs : FsPtr) (m : Machine) : Prop := m.bufFs = some fs → m.bufChanged = false

/-- The volume is mounted, and its FAT is on the disk. -/
def Durable (disk : DiskId) (fs : FsPtr) (m : Machine) : Prop := Mounted disk fs m ∧ Flushed fs m

section Flushing

variable {disk : DiskId} {fs : FsPtr}

/-- What keeps the mounted file system and does not touch the buffer keeps both. -/
theorem Durable.same {m n : Machine} (durable : Durable disk fs m)
    (mounted : (n.disk disk).fs = (m.disk disk).fs) (bufFs : n.bufFs = m.bufFs)
    (bufChanged : n.bufChanged = m.bufChanged) : Durable disk fs n := by
  refine ⟨mounted.trans durable.1, fun own => ?_⟩
  rw [bufFs] at own
  rw [bufChanged]
  exact durable.2 own

/-- Everything that the transfers and the commits do to the buffer and the disks. -/
theorem deviceWrite_quiet (sector : Nat) (src : Bytes) (count : Nat) (m : Machine) :
    wp (deviceWrite disk sector src count)
      (fun _ t => (∀ d, (t.disk d).fs = (m.disk d).fs) ∧ t.bufFs = m.bufFs ∧
        t.bufChanged = m.bufChanged) (fun _ _ => False) m :=
  wp_deviceWrite.2 ⟨fun _ => setData_fs, rfl, rfl⟩

theorem commitLoop_quiet (fatSectors copies sector : Nat) (m : Machine) :
    let quiet := fun t : Machine => (∀ d, (t.disk d).fs = (m.disk d).fs) ∧ t.bufFs = m.bufFs ∧
      t.bufChanged = m.bufChanged
    wp (commitLoop disk fatSectors copies sector) (fun _ t => quiet t) (fun _ t => quiet t) m := by
  intro quiet
  suffices holds : ∀ t, quiet t → wp (commitLoop disk fatSectors copies sector) (fun _ t => quiet t)
      (fun _ t => quiet t) t from holds m ⟨fun _ => rfl, rfl, rfl⟩
  induction copies generalizing sector with
  | zero => exact fun t kept => kept
  | succ copies ih =>
      rintro t ⟨mounted, bufFs, bufChanged⟩
      simp only [commitLoop, wp_bind, wp_note, wp_state, wp_deviceWrite]
      split
      · exact ih _ _ ⟨fun d => setData_fs.trans (mounted d), bufFs, bufChanged⟩
      · exact ⟨fun d => setData_fs.trans (mounted d), bufFs, bufChanged⟩

/-- A commit that succeeds leaves nothing in the buffer that is not on the disk. -/
theorem commit_endures {m : Machine} (mounted : Mounted disk fs m) :
    wp (commitFat32Buffer disk fs) (fun _ t => Durable disk fs t) (fun _ t => Mounted disk fs t) m := by
  unfold commitFat32Buffer
  rw [wp_bind, wp_state]
  by_cases own : m.bufFs = some fs
  · rw [if_pos own, wp_bind, wp_readFs, wp_bind, wp_state, wp_bind]
    refine wp_mono (commitLoop_quiet _ _ _ m) ?_ fun e t quiet => (quiet.1 disk).trans mounted
    rintro - t ⟨kept, -, -⟩
    exact ⟨(kept disk).trans mounted, fun _ => rfl⟩
  · rw [if_neg own]
    exact ⟨mounted, fun never => absurd never own⟩

/-- Committing another file system does not matter. -/
theorem commit_durable {m : Machine} (durable : Durable disk fs m) (old : FsPtr) :
    wp (commitFat32Buffer disk old) (fun _ t => Durable disk fs t) (fun _ t => Durable disk fs t)
      m := by
  unfold commitFat32Buffer
  rw [wp_bind, wp_state]
  by_cases own : m.bufFs = some old
  · rw [if_pos own, wp_bind, wp_readFs, wp_bind, wp_state, wp_bind]
    refine wp_mono (commitLoop_quiet _ _ _ m) ?_ fun e t quiet =>
      durable.same (quiet.1 disk) quiet.2.1 quiet.2.2
    rintro - t ⟨kept, -, -⟩
    exact ⟨(kept disk).trans durable.1, fun _ => rfl⟩
  · rw [if_neg own]
    exact durable

theorem fillBuffer_durable {m : Machine} (durable : Durable disk fs m) (sector : Nat) :
    wp (fillBuffer disk fs sector) (fun _ t => Durable disk fs t) (fun _ _ => False) m := by
  unfold fillBuffer
  simp only [wp_bind, wp_state, wp_deviceRead, wp_update]
  split
  · simp only [wp_note, wp_update, wp_bind, wp_pure]
    exact ⟨durable.1, fun _ => rfl⟩
  · exact ⟨durable.1, fun own => by simp at own⟩

theorem getFat32Buffer_durable {m : Machine} (durable : Durable disk fs m) (sector : Nat) :
    wp (getFat32Buffer disk fs sector) (fun _ t => Durable disk fs t) (fun _ _ => False) m := by
  unfold getFat32Buffer
  simp only [wp_bind, wp_readFs, wp_state]
  split
  · exact durable
  · split
    · rename_i old _ _
      rw [wp_bind, wp_attempt]
      refine wp_mono (commit_durable durable old) (fun _ t kept => fillBuffer_durable kept _) ?_
      exact fun _ t kept => ⟨kept.1, fun own => by simp at own⟩
    · exact fillBuffer_durable durable _

theorem durable_visits : Visits disk fs (Durable disk fs) where
  mounted _ durable := durable.1
  allocates _ durable := durable
  reads _ durable := durable
  writes sector src count := by
    apply keeps_of_wp
    intro m durable
    refine wp_mono (deviceWrite_quiet sector src count m) ?_ (fun _ _ never => never.elim)
    exact fun _ _ quiet => ⟨durable.same (quiet.1 disk) quiet.2.1 quiet.2.2, trivial⟩
  gets cluster := by
    apply keeps_of_wp
    intro m durable
    unfold getNextClusterFat32
    rw [wp_bind]
    refine wp_mono (getFat32Buffer_durable durable _) ?_ (fun _ _ never => never.elim)
    intro ok t kept
    split
    · exact ⟨kept, trivial⟩
    · exact ⟨kept, trivial⟩

theorem commit_mounted {m : Machine} (mounted : Mounted disk fs m) (old : FsPtr) :
    wp (commitFat32Buffer disk old) (fun _ t => Mounted disk fs t) (fun _ t => Mounted disk fs t)
      m := by
  unfold commitFat32Buffer
  rw [wp_bind, wp_state]
  split
  · rw [wp_bind, wp_readFs, wp_bind, wp_state, wp_bind]
    refine wp_mono (commitLoop_quiet _ _ _ m) ?_ fun e t quiet => (quiet.1 disk).trans mounted
    exact fun _ t quiet => (quiet.1 disk).trans mounted
  · exact mounted

theorem getFat32Buffer_mounted {m : Machine} (mounted : Mounted disk fs m) (sector : Nat) :
    wp (getFat32Buffer disk fs sector) (fun _ t => Mounted disk fs t) (fun _ _ => False) m := by
  have fills (t : Machine) (kept : Mounted disk fs t) (sector : Nat) :
      wp (fillBuffer disk fs sector) (fun _ t => Mounted disk fs t) (fun _ _ => False) t := by
    unfold fillBuffer
    simp only [wp_bind, wp_state, wp_deviceRead, wp_update]
    split
    · exact kept
    · exact kept
  unfold getFat32Buffer
  simp only [wp_bind, wp_readFs, wp_state]
  split
  · exact mounted
  · split
    · rename_i old _ _
      rw [wp_bind, wp_attempt]
      exact wp_mono (commit_mounted mounted old) (fun _ t kept => fills t kept _)
        (fun _ t kept => kept)
    · exact fills m mounted _

theorem mounted_accesses : Accesses disk fs (Mounted disk fs) where
  mounted _ mounted := mounted
  allocates _ mounted := mounted
  reads _ mounted := mounted
  writes sector src count := by
    apply keeps_of_wp
    intro m mounted
    refine wp_mono (deviceWrite_quiet sector src count m) ?_ (fun _ _ never => never.elim)
    exact fun _ _ quiet => ⟨(quiet.1 disk).trans mounted, trivial⟩
  gets cluster := by
    apply keeps_of_wp
    intro m mounted
    unfold getNextClusterFat32
    rw [wp_bind]
    refine wp_mono (getFat32Buffer_mounted mounted _) ?_ (fun _ _ never => never.elim)
    intro ok t kept
    split
    · exact ⟨kept, trivial⟩
    · exact ⟨kept, trivial⟩
  sets cluster next := by
    apply keeps_of_wp
    intro m mounted
    unfold setNextClusterFat32
    rw [wp_bind]
    refine wp_mono (getFat32Buffer_mounted mounted _) ?_ (fun _ _ never => never.elim)
    intro ok t kept
    split
    · exact ⟨kept, trivial⟩
    · exact kept
  commits := by
    apply keeps_of_wp
    intro m mounted
    exact wp_mono (commit_mounted mounted fs) (fun _ _ kept => ⟨kept, trivial⟩)
      (fun _ _ kept => kept)

/-! ## Calls that return -/

/-- Adding clusters ends with a commit. -/
theorem growBlocklist_durable {s : Machine × FatFile} (start : WithFile fs (Mounted disk fs) s)
    (newBlocks : Nat) :
    wlp (growBlocklist disk newBlocks) (fun _ t => WithFile fs (Durable disk fs) t) (fun _ _ => True)
      s := by
  unfold growBlocklist
  obtain ⟨m, file⟩ := s
  obtain ⟨mounted, rfl⟩ := start
  have acc := @mounted_accesses disk file.fs
  rw [wlp_bind, wlp_theFile, wlp_bind, wlp_lift, wlp_readFs, wlp_bind]
  refine wlp_mono ((lift_keeps (numClusters_keeps _ _)).wlp ⟨mounted, rfl⟩) ?_ fun _ _ _ => trivial
  rintro clusters t ⟨kept, -⟩
  rw [wlp_bind]
  refine wlp_mono ((lift_keeps (reallocBlocklist_keeps acc.toVisits _ _)).wlp kept) ?_
    fun _ _ _ => trivial
  rintro blocklist t ⟨kept, -⟩
  rw [wlp_bind, wlp_setFile, wlp_ite]
  refine ⟨fun _ => wlp_fail.2 trivial, fun _ => ?_⟩
  rw [wlp_bind, wlp_setFile, wlp_bind]
  refine wlp_mono ((extendLoop_keeps acc _ _ _ _).wlp ⟨kept.1, kept.2⟩) ?_ fun _ _ _ => trivial
  rintro - ⟨u, grown⟩ ⟨⟨kept, on⟩, -⟩
  rw [wlp_lift]
  refine wlp_of_wp (commit_endures kept) ?_ fun _ _ _ => trivial
  exact fun _ v durable => ⟨durable, on⟩

theorem extendFileWith_durable {updateEntry : FatFile → FatM Unit}
    (updates : ∀ file m, file.On fs → Durable disk fs m →
      wlp (updateEntry file) (fun _ t => Durable disk fs t) (fun _ _ => True) m)
    {s : Machine × FatFile} (start : WithFile fs (Durable disk fs) s) (newSize : Nat) :
    wlp (fat32ExtendFileWith updateEntry disk newSize)
      (fun _ t => WithFile fs (Durable disk fs) t) (fun _ _ => True) s := by
  obtain ⟨m, file⟩ := s
  obtain ⟨durable, rfl⟩ := start
  unfold fat32ExtendFileWith
  rw [wlp_ite]
  refine ⟨fun _ => ⟨durable, rfl⟩, fun _ => ?_⟩
  rw [wlp_bind, wlp_theFile, wlp_bind, wlp_lift, wlp_readFs, wlp_bind]
  refine wlp_mono ((lift_keeps (blocksFor_keeps _ _)).wlp ⟨durable, rfl⟩) ?_ fun _ _ _ => trivial
  rintro newBlocks t ⟨kept, -⟩
  have grown : wlp (if file.blocklistSize < newBlocks then growBlocklist disk newBlocks else pure ())
      (fun _ t => WithFile file.fs (Durable disk file.fs) t) (fun _ _ => True) t := by
    rw [wlp_ite]
    exact ⟨fun _ => growBlocklist_durable ⟨kept.1.1, kept.2⟩ newBlocks, fun _ => wlp_pure.2 kept⟩
  rw [wlp_bind]
  refine wlp_mono grown ?_ fun _ _ _ => trivial
  rintro - ⟨u, longer⟩ ⟨durable, on⟩
  rw [wlp_bind, wlp_setFile, wlp_bind, wlp_theFile, wlp_ite]
  refine ⟨fun _ => ?_, fun _ => ⟨durable, on⟩⟩
  rw [wlp_bind, wlp_theFile, wlp_lift]
  refine wlp_mono (updates _ u on durable) ?_ fun _ _ _ => trivial
  exact fun _ v durable => ⟨durable, on⟩

/-- A write that returns something else than 0 has not failed to extend the file. -/
theorem fileWriteWith_durable {extend : Nat → FileM Unit} {s : Machine × FatFile}
    (extends_ : ∀ newSize, wlp (extend newSize) (fun _ t => WithFile fs (Durable disk fs) t)
      (fun _ _ => True) s)
    (start : WithFile fs (Durable disk fs) s) (buf : Bytes) (offset len : Nat) :
    wlp (fat32FileWriteWith extend disk buf offset len)
      (fun ret t => ret = 0 ∨ WithFile fs (Durable disk fs) t) (fun _ _ => True) s := by
  have transfer {t : Machine × FatFile} (kept : WithFile fs (Durable disk fs) t) :=
    (writeTransfer_keeps durable_visits buf offset len).wlp kept
  unfold fat32FileWriteWith
  dsimp only
  rw [wlp_bind, wlp_theFile, wlp_ite]
  refine ⟨fun _ => ?_, fun _ => ?_⟩
  · rw [wlp_bind, wlp_attempt]
    refine wlp_mono (extends_ _) (fun _ t kept => ?_) fun _ t _ => .inl rfl
    exact wlp_mono (transfer kept) (fun _ u kept => .inr kept.1) fun _ _ _ => trivial
  · exact wlp_mono (transfer start) (fun _ u kept => .inr kept.1) fun _ _ _ => trivial

theorem updateSubdir_durable {m : Machine} (durable : Durable disk fs m) (file : FatFile) :
    wlp (fat32DirUpdateSubdirEntry disk file) (fun _ t => Durable disk fs t) (fun _ _ => True) m := by
  have visits := @durable_visits disk fs
  unfold fat32DirUpdateSubdirEntry
  dsimp only
  rw [wlp_bind]
  refine wlp_mono ((mallocBlocklist_keeps visits).wlp durable) ?_ fun _ _ _ => trivial
  rintro memory t ⟨durable, -⟩
  rw [wlp_ite]
  refine ⟨fun _ => wlp_fail.2 trivial, fun _ => ?_⟩
  rw [wlp_bind]
  refine wlp_mono ((fat32FileOpenByDirEntry_keeps visits _).wlp durable) ?_ fun _ _ _ => trivial
  rintro dirFile u ⟨durable, on⟩
  rw [wlp_bind]
  refine wlp_mono ((readOldEntry_keeps visits _ _).wlp durable) ?_ fun _ _ _ => trivial
  rintro old v ⟨durable, -⟩
  have start : WithFile fs (Durable disk fs) (v, dirFile) := ⟨durable, on⟩
  have written := fileWriteWith_durable (fun newSize => extendFileWith_durable
    (fun _ _ _ _ => wlp_halt) start newSize) start (dirEntryToDisk file.dirEntry file.size old)
    (w32 (file.dirEntry.indexInDir * diskEntrySize)) diskEntrySize
  rw [wlp_bind, wlp_withSnd]
  refine wlp_mono written ?_ fun _ _ _ => trivial
  rintro ret ⟨w, dirFile'⟩ (failed | kept)
  · have short : ¬ ret = diskEntrySize := by
      rw [failed]
      decide
    rw [if_neg short]
    exact wlp_fail.2 trivial
  · rw [wlp_ite]
    exact ⟨fun _ => kept.1, fun _ => wlp_fail.2 trivial⟩

theorem updateEntry_durable {m : Machine} (durable : Durable disk fs m) (file : FatFile) :
    wlp (fat32DirUpdateEntry disk file) (fun _ t => Durable disk fs t) (fun _ _ => True) m := by
  unfold fat32DirUpdateEntry
  rw [wlp_ite]
  refine ⟨fun _ => ?_, fun _ => updateSubdir_durable durable file⟩
  rw [wlp_bind, wlp_readFs]
  exact updateSubdir_durable durable _

/-- **An extension that succeeds leaves nothing that is only in the buffer.** -/
theorem extendFile_durable {s : Machine × FatFile} (start : WithFile fs (Durable disk fs) s)
    (newSize : Nat) :
    wlp (fat32ExtendFile disk newSize) (fun _ t => WithFile fs (Durable disk fs) t)
      (fun _ _ => True) s :=
  extendFileWith_durable (fun file _ _ durable => updateEntry_durable durable file) start newSize

theorem freeBlocks_mounted {m : Machine} (mounted : Mounted disk fs m) (blocklist : Blocklist)
    (left i : Nat) :
    wlp (freeBlocks disk fs blocklist left i) (fun _ t => Mounted disk fs t) (fun _ _ => True) m := by
  induction left generalizing m i with
  | zero => exact mounted
  | succ left ih =>
      rw [freeBlocks, wlp_ite]
      refine ⟨fun _ => ?_, fun _ => ih mounted _⟩
      rw [wlp_bind]
      exact wlp_mono ((mounted_accesses.sets _ _).wlp mounted) (fun _ t kept => ih kept.1 _)
        fun _ _ _ => trivial

/-- Giving clusters back ends with a commit. -/
theorem shrinkBlocklist_durable {s : Machine × FatFile} (start : WithFile fs (Mounted disk fs) s)
    (blocklist : Blocklist) (newBlocks : Nat) :
    wlp (shrinkBlocklist disk blocklist newBlocks) (fun _ t => WithFile fs (Durable disk fs) t)
      (fun _ _ => True) s := by
  obtain ⟨m, file⟩ := s
  obtain ⟨mounted, rfl⟩ := start
  have acc := @mounted_accesses disk file.fs
  have commits {t : Machine × FatFile} (kept : WithFile file.fs (Mounted disk file.fs) t) :
      wlp (liftM (commitFat32Buffer disk file.fs) : FileM Unit)
        (fun _ t => WithFile file.fs (Durable disk file.fs) t) (fun _ _ => True) t := by
    obtain ⟨u, other⟩ := t
    rw [wlp_lift]
    refine wlp_of_wp (commit_endures kept.1) ?_ fun _ _ _ => trivial
    exact fun _ v durable => ⟨durable, kept.2⟩
  unfold shrinkBlocklist
  rw [wlp_bind, wlp_theFile]
  dsimp only
  rw [wlp_ite]
  refine ⟨fun _ => ?_, fun _ => ?_⟩
  · rw [wlp_bind, wlp_lift]
    refine wlp_mono (freeBlocks_mounted mounted _ _ _) (fun _ t kept => ?_) fun _ _ _ => trivial
    rw [wlp_bind, wlp_setFile]
    exact commits ⟨kept, rfl⟩
  · rw [wlp_ite]
    refine ⟨fun _ => ?_, fun _ => commits ⟨mounted, rfl⟩⟩
    rw [wlp_bind, wlp_lift]
    refine wlp_mono (freeBlocks_mounted mounted _ _ _) (fun _ t kept => ?_) fun _ _ _ => trivial
    rw [wlp_bind, wlp_lift]
    refine wlp_mono ((acc.sets _ _).wlp kept) ?_ fun _ _ _ => trivial
    rintro - u ⟨kept, -⟩
    rw [wlp_bind, wlp_lift]
    refine wlp_mono ((reallocBlocklist_keeps acc.toVisits _ _).wlp kept) ?_ fun _ _ _ => trivial
    rintro shorter v ⟨kept, -⟩
    rw [wlp_bind, wlp_setFile, wlp_ite]
    refine ⟨fun _ => wlp_fail.2 trivial, fun _ => ?_⟩
    rw [wlp_bind, wlp_setFile]
    exact commits ⟨kept, rfl⟩

/-- **A truncation that succeeds leaves nothing that is only in the buffer.** -/
theorem truncateFile_durable {s : Machine × FatFile} (start : WithFile fs (Durable disk fs) s)
    (newSize : Nat) :
    wlp (fat32TruncateFile disk newSize) (fun _ t => WithFile fs (Durable disk fs) t)
      (fun _ _ => True) s := by
  obtain ⟨m, file⟩ := s
  obtain ⟨durable, rfl⟩ := start
  unfold fat32TruncateFile
  rw [wlp_bind, wlp_theFile, wlp_ite]
  refine ⟨fun _ => ⟨durable, rfl⟩, fun _ => ?_⟩
  rw [wlp_bind, wlp_lift, wlp_readFs, wlp_bind]
  have sized : Preserves (Durable disk file.fs) (if 0 < newSize then
      blocksFor newSize (m.fsMem file.fs).clusterSize else pure 0 : FatM Nat) :=
    Keeps.ite (fun _ => blocksFor_keeps _ _) fun _ => keeps_pure trivial
  refine wlp_mono ((lift_keeps sized).wlp ⟨durable, rfl⟩) ?_ fun _ _ _ => trivial
  rintro newBlocks t ⟨kept, -⟩
  rw [wlp_bind]
  refine wlp_mono (?shrunk : wlp _ (fun _ t => WithFile file.fs (Durable disk file.fs) t)
    (fun _ _ => True) t) ?_ fun _ _ _ => trivial
  case shrunk =>
    split
    · exact shrinkBlocklist_durable ⟨kept.1.1, kept.2⟩ _ _
    · exact kept
  rintro - ⟨u, shorter⟩ ⟨durable, on⟩
  rw [wlp_bind, wlp_setFile, wlp_bind, wlp_theFile, wlp_ite]
  refine ⟨fun _ => ?_, fun _ => ⟨durable, on⟩⟩
  rw [wlp_bind, wlp_theFile, wlp_lift]
  refine wlp_mono (updateEntry_durable durable _) ?_ fun _ _ _ => trivial
  exact fun _ v durable => ⟨durable, on⟩

/-- So does a write. -/
theorem step_durable {s t : Machine × FatFile} {edit : Edit}
    (start : WithFile fs (Durable disk fs) s) (run : edit.step disk s = some t) :
    WithFile fs (Durable disk fs) t := by
  cases edit with
  | write buf offset len =>
      obtain ⟨extends_, written⟩ := step_write_iff.1 run
      have transfer {u : Machine × FatFile} (kept : WithFile fs (Durable disk fs) u) :=
        (writeTransfer_keeps durable_visits buf offset len).wlp kept
      have read : (theFile : FileM FatFile) s = some (.ok s.2, s) := rfl
      unfold fat32FileWrite fat32FileWriteWith at written
      rw [bind_ok read] at written
      by_cases grows : s.2.size < w32 (offset + len)
      · obtain ⟨u, extended⟩ := extends_ grows
        have attempted : attempt (fat32ExtendFile disk (w32 (offset + len))) s =
            some (.ok (.ok ()), u) := by
          unfold attempt
          rw [extended]
          rfl
        rw [if_pos grows, bind_ok attempted] at written
        exact (wlp_ok (transfer (wlp_ok (extendFile_durable start _) extended)) written).1
      · rw [if_neg grows] at written
        exact (wlp_ok (transfer start) written).1
  | truncate newSize =>
      exact wlp_ok (truncateFile_durable start newSize) (step_truncate_iff.1 run)

end Flushing

/-! ## The entries of the files -/

/-- The bytes of an entry in a directory. -/
def entryBytes (f : Fs) (dir : Blocklist) (data : Bytes) (index : Nat) : Bytes := fun k =>
  fileView f dir data (index * diskEntrySize + k)

/-- The entry of a file on the disk has the size of the handle, and what sixteen bits hold of
its first cluster. -/
structure Recorded (f : Fs) (dir : Blocklist) (data : Bytes) (file : FatFile) : Prop where
  cluster : entryFirstCluster (entryBytes f dir data file.dirEntry.indexInDir) =
    file.dirEntry.firstCluster.setWidth 16
  size : entryFileSize (entryBytes f dir data file.dirEntry.indexInDir) =
    BitVec.ofNat 32 file.size

section Entries

variable {f : Fs} {dir : Blocklist} {dirCount tail : Nat} {data before after : Bytes}
  {file old new : FatFile}

theorem entry_fields_congr {bytes bytes' : Bytes} (same : ∀ k < diskEntrySize, bytes k = bytes' k) :
    entryFirstCluster bytes = entryFirstCluster bytes' ∧ entryFileSize bytes = entryFileSize bytes' := by
  refine ⟨?_, word_congr fun k _ high => same k (by
    have : diskEntrySize = 32 := rfl
    omega)⟩
  unfold entryFirstCluster halfword
  rw [same 26 (by decide), same (26 + 1) (by decide)]

/-- What `dir_entry_to_disk` writes is read back. -/
theorem dirEntryToDisk_fields (dirEntry : DirEntry) (size : Nat) (bytes : Bytes) :
    entryFirstCluster (dirEntryToDisk dirEntry size bytes) = dirEntry.firstCluster.setWidth 16 ∧
      entryFileSize (dirEntryToDisk dirEntry size bytes) = BitVec.ofNat 32 size := by
  have halves (v : BitVec 16) : halfwordBytes v 1 ++ halfwordBytes v 0 = v := by
    unfold halfwordBytes
    ext i
    simp
    grind
  have low (k : Nat) (inCluster : k < 2) : dirEntryToDisk dirEntry size bytes (26 + k) =
      halfwordBytes (dirEntry.firstCluster.setWidth 16) k := by
    unfold dirEntryToDisk putWord
    rw [Function.update_of_ne (by omega), splice_outside (.inl (by omega)), splice_at inCluster]
  constructor
  · unfold entryFirstCluster halfword
    rw [low 1 (by decide), ← Nat.add_zero 26, low 0 (by decide)]
    exact halves _
  · have attrib (entry : Bytes) (k : Nat) (behind : 28 ≤ k) (_ : k < 28 + 4) :
        Function.update entry 11 dirEntry.attrib k = entry k := Function.update_of_ne (by omega) _ _
    unfold entryFileSize dirEntryToDisk
    dsimp only
    rw [word_congr (attrib _), word_putWord]

/-- A call writes the entry of its file. -/
theorem EntryUpdated.recorded (updated : EntryUpdated f tail dir dirCount old new before after)
    (behind : f.Behind tail dir dirCount)
    (slot : new.dirEntry.indexInDir * diskEntrySize + diskEntrySize ≤ dirCount * f.clusterSize)
    (recorded : Recorded f dir before old) : Recorded f dir after new := by
  rcases updated behind with ⟨bytes, -, written⟩ | ⟨entry, size, same⟩
  · obtain ⟨cluster, sized⟩ := dirEntryToDisk_fields new.dirEntry new.size bytes
    have wrote (k : Nat) (low : k < diskEntrySize) :
        entryBytes f dir after new.dirEntry.indexInDir k =
          dirEntryToDisk new.dirEntry new.size bytes k := (written _ (by omega)).trans (splice_at low)
    obtain ⟨first, second⟩ := entry_fields_congr wrote
    exact ⟨first.trans cluster, second.trans sized⟩
  · have kept (k : Nat) (low : k < diskEntrySize) :
        entryBytes f dir after new.dirEntry.indexInDir k =
          entryBytes f dir before new.dirEntry.indexInDir k := same _ (by omega)
    obtain ⟨first, second⟩ := entry_fields_congr kept
    rw [entry] at first second
    refine ⟨?_, ?_⟩
    · rw [entry]
      exact first.trans recorded.cluster
    · rw [entry, size]
      exact second.trans recorded.size

/-- It leaves the other entries of the directory. -/
theorem EntryUpdated.others (updated : EntryUpdated f tail dir dirCount old new before after)
    (behind : f.Behind tail dir dirCount) {index k : Nat} (low : k < diskEntrySize)
    (slot : index * diskEntrySize + diskEntrySize ≤ dirCount * f.clusterSize)
    (other : index ≠ new.dirEntry.indexInDir) :
    entryBytes f dir after index k = entryBytes f dir before index k := by
  have size : diskEntrySize = 32 := rfl
  rcases updated behind with ⟨bytes, -, written⟩ | ⟨-, -, same⟩
  · unfold entryBytes
    rw [written _ (by omega)]
    rw [size] at low ⊢
    exact splice_outside (by omega)
  · exact same _ (by omega)

theorem Recorded.congr (recorded : Recorded f dir before file)
    (same : ∀ k < diskEntrySize, entryBytes f dir after file.dirEntry.indexInDir k =
      entryBytes f dir before file.dirEntry.indexInDir k) : Recorded f dir after file := by
  obtain ⟨first, second⟩ := entry_fields_congr same
  exact ⟨first.trans recorded.cluster, second.trans recorded.size⟩

end Entries

/-- A file of size 0 has no cluster. -/
def Contents.Tight (contents : Contents) : Prop := contents.file.size = 0 → contents.count = 0

theorem Edit.apply_tight {f : Fs} (sized : 0 < f.clusterSize) {reach : Nat} {contents : Contents}
    (tight : contents.Tight) (edit : Edit) : (edit.apply f reach contents).Tight := by
  have none_ : f.blocksOf 0 = 0 := Nat.div_eq_of_lt (by omega)
  intro empty
  cases edit with
  | write buf offset len =>
      have empty : max contents.file.size (offset + len) = 0 := empty
      have range : offset + len = 0 := by omega
      change max contents.count (f.blocksOf (offset + len)) = 0
      rw [range, none_, tight (by omega)]
      rfl
  | truncate newSize =>
      unfold Edit.apply at empty ⊢
      dsimp only at empty ⊢
      split at empty
      · rename_i stays
        rw [if_pos stays]
        exact tight empty
      · rename_i shrinks
        have empty : min contents.file.size newSize = 0 := empty
        obtain rfl : newSize = 0 := by omega
        rw [if_neg shrinks, none_]
        exact Nat.min_zero _

section Filing

variable {ι δ : Type}

/-- The entry of each file has a place of its own, which the write-backs of the FAT do not
reach, and is recorded there.  Files of size 0 have no clusters. -/
structure Filing (f : Fs) (tail : Nat) (layout : Layout ι δ) (contents : ι → Contents) (data : Bytes)
    (files : ι → FatFile) : Prop where
  behind : ∀ d, f.Behind tail (layout.dirs d) (layout.counts d)
  apart : ∀ d e, d ≠ e → Apart (layout.dirs d) (layout.counts d) (layout.dirs e) (layout.counts e)
  own : ∀ i j, i ≠ j → layout.home i = layout.home j →
    (files i).dirEntry.indexInDir ≠ (files j).dirEntry.indexInDir
  recorded : ∀ i, Recorded f (layout.dirs (layout.home i)) data (files i)
  tight : ∀ i, (contents i).Tight

variable [DecidableEq ι] {disk : DiskId} {fs : FsPtr} {f : Fs} {tail reach : Nat} {world : World}
  {layout : Layout ι δ} {contents : ι → Contents} {image image' : Image} {blocks : ι → Blocklist}
  {s t : Machine × (ι → FatFile)} {i : ι} {new : Blocklist} {count' : Nat} {edit : Edit}

/-- A call through one handle. -/
theorem Filing.edited {u : Machine × FatFile} (sized : 0 < f.clusterSize)
    (filing : Filing f tail layout contents image.data s.2)
    (stored : Stored disk fs f tail world layout contents image blocks s)
    (edited : Edited disk fs f tail world (layout.dirs (layout.home i))
      (layout.counts (layout.home i)) image (blocks i) (contents i).count (s.1, s.2 i) image' new
      count' u) :
    Filing f tail layout (applied f reach contents [(i, edit)]) image'.data
      (Function.update s.2 i u.2) where
  behind := filing.behind
  apart := filing.apart
  own j k other same := by
    have index (j : ι) : (Function.update s.2 i u.2 j).dirEntry.indexInDir =
        (s.2 j).dirEntry.indexInDir := by
      rcases eq_or_ne j i with rfl | different
      · rw [Function.update_self]
        exact edited.same.index
      · rw [Function.update_of_ne different]
    rw [index, index]
    exact filing.own j k other same
  recorded j := by
    rcases eq_or_ne j i with rfl | other
    · rw [Function.update_self]
      exact edited.entry.recorded (filing.behind _) edited.onVolume.filed.slot (filing.recorded j)
    · rw [Function.update_of_ne other]
      have slot : (s.2 j).dirEntry.indexInDir * diskEntrySize + diskEntrySize ≤
          layout.counts (layout.home j) * f.clusterSize := (stored.editing j).onVolume.filed.slot
      refine (filing.recorded j).congr fun k low => ?_
      by_cases same : layout.home j = layout.home i
      · rw [same] at slot ⊢
        refine edited.entry.others (filing.behind _) low slot ?_
        rw [edited.same.index]
        exact filing.own j i other same
      · exact edited.touches.views _ _ (stored.dirs _) (stored.apart _ i)
          (filing.apart _ _ same) (filing.behind _) _ (by omega)
  tight j := by
    unfold applied
    rcases eq_or_ne j i with rfl | other
    · simpa using Edit.apply_tight sized (filing.tight j) edit
    · simpa [other] using filing.tight j

/-- A run of calls. -/
theorem Filing.run (proper : f.Proper) (fits : f.TailFits tail) (numbered : f.Numbered)
    (clean : reach ≤ 512 ∨ world.CleanBehind f)
    {steps : List ((Machine × (ι → FatFile)) × (ι × Edit) × (Machine × (ι → FatFile)))}
    (stored : Stored disk fs f tail world layout contents image blocks s)
    (filing : Filing f tail layout contents image.data s.2)
    (path : Path (storeStep disk) s steps t) (small : ∀ taken ∈ steps, taken.2.1.2.Small f) :
    ∃ image' blocks', Stored disk fs f tail world layout
        (applied f reach contents (steps.map fun taken => taken.2.1)) image' blocks' t ∧
      Filing f tail layout (applied f reach contents (steps.map fun taken => taken.2.1)) image'.data
        t.2 := by
  induction path with
  | start => exact ⟨image, blocks, stored, filing⟩
  | snoc path next ih =>
      obtain ⟨between, mine, stored', filing'⟩ := ih fun taken member =>
        small taken (List.mem_append_left _ member)
      have last := small _ (List.mem_append_right _ (List.mem_singleton_self _))
      obtain ⟨image', new, after, edited⟩ := stored'.step proper fits numbered clean last next
      obtain ⟨u, -, rfl⟩ := Option.map_eq_some_iff.1 next
      rw [List.map_append, applied_append]
      refine ⟨image', _, after, ?_⟩
      dsimp only at edited
      rw [Function.update_self] at edited
      exact filing'.edited proper.power.size stored' edited

end Filing

/-! ## Switching off -/

section Restarting

variable {disk : DiskId} {fs : FsPtr} {f : Fs} {tail : Nat} {world : World} {image : Image}

/-- Open the file of an entry, and read. -/
def readAgain (disk : DiskId) (entry : DirEntry) (buf : Bytes) (offset len : Nat) :
    FatM (Nat × Bytes) := do
  let file ← fat32FileOpenByDirEntry disk entry
  fat32FileRead disk file buf offset len

variable {ι δ : Type} {layout : Layout ι δ} {contents : ι → Contents}
  {blocks : ι → Blocklist} {s t : Machine × (ι → FatFile)} {m : Machine} {i : ι} {bytes : Bytes}
  {offset len : Nat}

section Runs

variable [DecidableEq ι]
  {steps : List ((Machine × (ι → FatFile)) × (ι × Edit) × (Machine × (ι → FatFile)))}

/-- **Nothing is only in the buffer after a run of successful calls**, whatever else the
hardware has done. -/
theorem store_durable (onFs : ∀ i, (s.2 i).fs = fs) (durable : Durable disk fs s.1)
    (path : Path (storeStep disk) s steps t) : Durable disk fs t.1 := by
  refine (path.invariant (fun s => Durable disk fs s.1 ∧ ∀ i, (s.2 i).fs = fs) ⟨durable, onFs⟩
    ?_).1
  rintro u ⟨i, edit⟩ v - ⟨durable, onFs⟩ run
  obtain ⟨w, stepped, rfl⟩ := Option.map_eq_some_iff.1 run
  have start : WithFile fs (Durable disk fs) (u.1, u.2 i) := ⟨durable, onFs i⟩
  obtain ⟨durable', onFs'⟩ := step_durable start stepped
  refine ⟨durable', fun j => ?_⟩
  change (Function.update u.2 i w.2 j).fs = fs
  rcases eq_or_ne j i with rfl | other
  · rw [Function.update_self]
    exact onFs'
  · rw [Function.update_of_ne other]
    exact onFs j

end Runs

end Restarting

/-! ## Switching the two files off -/

/-- The buffer of the machine is written back after the calls. -/
theorem store_durable_shared : ∃ steps t,
    execute (storeStep 0) sharedStart sharedCalls = some (steps, t) ∧ Durable 0 0 t.1 := by
  obtain ⟨steps, t, executed, path, -⟩ := sharedCalls_run
  have mounted : Durable 0 0 sharedStart.1 := ⟨rfl, by rintro ⟨⟩⟩
  exact ⟨steps, t, executed, store_durable sharedVolume_opened.onFs mounted path⟩

end TestOs.Fat32
