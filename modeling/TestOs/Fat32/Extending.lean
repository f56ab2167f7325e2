/-
# Fat32.Extending -- what a write that cannot extend the file leaves behind

`fat32_extend_file` records its progress in the handle before it knows that it
will succeed: the new blocklist, NULL where `realloc` failed, its new size before
the first cluster has been found, and the new file size before the directory
entry is updated.  No exit takes any of it back.  So the handle is as it was only
where there was nothing to record, which is when a file without a blocklist gets
no memory for its first (`failed_write_unchanged_iff`).
-/
import TestOs.Fat32.FatTable
import TestOs.Fat32.FileSteps

namespace TestOs.Fat32

open TestOs.Library Prog

set_option autoImplicit false

/-- The clusters of a file of a size other than 0, in 32-bit arithmetic. -/
def Fs.blocksNeeded (fs : Fs) (size : Nat) : Nat :=
  let blocks := w32 (size + fs.clusterSize + (2 ^ 32 - 1)) / fs.clusterSize
  if blocks = 0 then 1 else blocks

/-- The handle, and the FAT as its file system sees it, are as before. -/
structure Unchanged (disk : DiskId) (before after : Machine × FatFile) : Prop where
  size : after.2.size = before.2.size
  blocklistSize : after.2.blocklistSize = before.2.blocklistSize
  blocklist : after.2.blocklist = before.2.blocklist
  firstCluster : after.2.dirEntry.firstCluster = before.2.dirEntry.firstCluster
  fat : after.1.toCore.fatView disk before.2.fs = before.1.toCore.fatView disk before.2.fs

/-- The blocklist has to grow, and there is no memory for it. -/
def NoBlocklist (before : Machine × FatFile) (newBlocks : Nat) : Prop :=
  before.2.blocklistSize < newBlocks ∧ before.1.world.noMemory before.1.mallocs = true

/-- How far a failed `fat32_extend_file` has come: its `realloc` failed, or the
handle has the new number of blocks, or the new size. -/
def GaveUp (before : Machine × FatFile) (newBlocks newSize : Nat) (after : Machine × FatFile) :
    Prop :=
  (NoBlocklist before newBlocks ∧
    after = ({ before.1 with mallocs := before.1.mallocs + 1 },
      { before.2 with blocklist := none })) ∨
  (¬ NoBlocklist before newBlocks ∧ before.2.blocklistSize < newBlocks ∧
    after.2.blocklistSize = newBlocks) ∨
  (¬ NoBlocklist before newBlocks ∧ after.2.size = newSize)

section Progress

variable {disk : DiskId} {fs : FsPtr} {m : Machine} {file : FatFile}

theorem wlp_lift {α : Type} {p : FatM α} {values : α → Machine × FatFile → Prop}
    {errors : FatError → Machine × FatFile → Prop} :
    wlp (liftM p : FileM α) values errors (m, file) ↔
      wlp p (fun a t => values a (t, file)) (fun e t => errors e (t, file)) m := wlp_onFst

theorem wlp_theFile {values : FatFile → Machine × FatFile → Prop}
    {errors : FatError → Machine × FatFile → Prop} :
    wlp theFile values errors (m, file) ↔ values file (m, file) := Iff.rfl

theorem wlp_setFile {change : FatFile → FatFile} {values : Unit → Machine × FatFile → Prop}
    {errors : FatError → Machine × FatFile → Prop} :
    wlp (setFile change) values errors (m, file) ↔ values () (m, change file) := Iff.rfl

theorem wlp_readFs {values : Fs → Machine → Prop} {errors : FatError → Machine → Prop} :
    wlp (readFs fs) values errors m ↔ values (m.fsMem fs) m := Iff.rfl

theorem wlp_divide {x y : Nat} {values : Nat → Machine → Prop} {errors : FatError → Machine → Prop} :
    wlp (divide x y) values errors m ↔ (y ≠ 0 → values (x / y) m) := by
  unfold divide
  simp only [wlp_bind, wlp_ensure, wlp_pure]

section Ends

variable {total : Prop}

theorem ends_lift {α : Type} {p : FatM α} {values : α → Machine × FatFile → Prop} :
    ends total (liftM p : FileM α) values (m, file) ↔
      ends total p (fun a t => values a (t, file)) m := ends_onFst

theorem ends_theFile {values : FatFile → Machine × FatFile → Prop} :
    ends total theFile values (m, file) ↔ values file (m, file) := by
  unfold theFile
  rw [ends_bind, ends_state, ends_pure]

theorem ends_setFile {change : FatFile → FatFile} {values : Unit → Machine × FatFile → Prop} :
    ends total (setFile change) values (m, file) ↔ values () (m, change file) := ends_update

theorem ends_readFs {values : Fs → Machine → Prop} :
    ends total (readFs fs) values m ↔ values (m.fsMem fs) m := by
  unfold readFs
  rw [ends_bind, ends_state, ends_pure]

theorem ends_divide {x y : Nat} (nonzero : y ≠ 0) {values : Nat → Machine → Prop} :
    ends total (divide x y) values m ↔ values (x / y) m := by
  have divides : wp (divide x y) (fun n t => n = x / y ∧ t = m) (fun _ _ => False) m := by
    rw [wp_divide]
    exact ⟨nonzero, rfl, rfl⟩
  constructor
  · intro holds
    have := holds.wlp
    rw [wlp_divide] at this
    exact this nonzero
  · intro holds
    refine ends_of_wp divides ?_
    rintro _ _ ⟨rfl, rfl⟩
    exact holds

end Ends

/-! ## The loop does not touch the size of the blocklist -/

theorem lift_blocklistSize {α : Type} (n : Nat) (p : FatM α) :
    Preserves (fun s : Machine × FatFile => s.2.blocklistSize = n) (liftM p : FileM α) :=
  @onFst_keeps _ _ _ _ (fun file : FatFile => file.blocklistSize = n) p

theorem setFile_blocklistSize (n : Nat) {change : FatFile → FatFile}
    (keeps : ∀ file, (change file).blocklistSize = file.blocklistSize) :
    Preserves (fun s : Machine × FatFile => s.2.blocklistSize = n) (setFile change) :=
  keeps_update fun _ same => (keeps _).trans same

theorem claimCluster_blocklistSize (n i : Nat) (cluster : BitVec 32) :
    Preserves (fun s : Machine × FatFile => s.2.blocklistSize = n)
      (claimCluster disk fs i cluster) :=
  claimCluster_preserves (fun _ => lift_blocklistSize n _) (fun _ _ => lift_blocklistSize n _)
    (fun _ same => setFile_blocklistSize n fun file => (same file).2) i cluster

theorem extendLoop_blocklistSize (n clusters left i freeIndex : Nat) :
    Preserves (fun s : Machine × FatFile => s.2.blocklistSize = n)
      (extendLoop disk fs clusters left i freeIndex) :=
  extendLoop_preserves (fun _ _ => lift_blocklistSize n _) (claimCluster_blocklistSize n)
    clusters left i freeIndex

/-! ## What an error leaves -/

theorem reallocBlocklist_wlp (old : Option Blocklist) (keep : Nat) :
    wlp (reallocBlocklist old keep)
      (fun new t => t = { m with mallocs := m.mallocs + 1 } ∧
        new.isNone = m.world.noMemory m.mallocs)
      (fun _ _ => False) m := by
  unfold reallocBlocklist mallocBlocklist
  simp only [wlp_bind, wlp_state, wlp_update, wlp_pure, true_and]
  cases m.world.noMemory m.mallocs <;> rfl

theorem growBlocklist_gaveUp (newBlocks newSize : Nat) (needed : file.blocklistSize < newBlocks) :
    wlp (growBlocklist disk newBlocks) (fun _ _ => ¬ NoBlocklist (m, file) newBlocks)
      (fun _ t => GaveUp (m, file) newBlocks newSize t) (m, file) := by
  unfold growBlocklist numClusters
  simp only [wlp_bind, wlp_theFile, wlp_lift, wlp_readFs, wlp_divide]
  intro _
  refine wlp_mono (reallocBlocklist_wlp _ _) ?_ fun _ _ never => never.elim
  rintro new t ⟨rfl, answer⟩
  simp only [wlp_setFile, wlp_ite, wlp_fail, wlp_bind]
  refine ⟨fun failed => .inl ?_, fun ok => ?_⟩
  · rw [Option.isNone_iff_eq_none.1 failed] at answer ⊢
    exact ⟨⟨needed, answer.symm⟩, rfl⟩
  · have memory : ¬ NoBlocklist (m, file) newBlocks := fun full => ok (answer.trans full.2)
    have later {t : Machine × FatFile} (recorded : t.2.blocklistSize = newBlocks) :
        GaveUp (m, file) newBlocks newSize t := .inr (.inl ⟨memory, needed, recorded⟩)
    refine wlp_mono ((extendLoop_blocklistSize newBlocks _ _ _ _).wlp rfl) ?_ fun _ _ => later
    rintro - t ⟨recorded, -⟩
    exact wlp_mono ((lift_blocklistSize newBlocks _).wlp recorded) (fun _ _ _ => memory)
      fun _ _ => later

/-- Every error of `fat32_extend_file` leaves a trace in the handle, but one. -/
theorem extendFile_gaveUp {newSize : Nat} (positive : newSize ≠ 0) :
    wlp (fat32ExtendFile disk newSize) (fun _ _ => True)
      (fun _ t => GaveUp (m, file) ((m.fsMem file.fs).blocksNeeded newSize) newSize t)
      (m, file) := by
  unfold fat32ExtendFile fat32ExtendFileWith blocksFor numClusters
  simp only [if_neg positive, wlp_bind, wlp_theFile, wlp_lift, wlp_readFs, wlp_divide, wlp_pure]
  intro _
  have grown : wlp (if file.blocklistSize < (m.fsMem file.fs).blocksNeeded newSize then
        growBlocklist disk ((m.fsMem file.fs).blocksNeeded newSize) else pure ())
      (fun _ _ => ¬ NoBlocklist (m, file) ((m.fsMem file.fs).blocksNeeded newSize))
      (fun _ t => GaveUp (m, file) ((m.fsMem file.fs).blocksNeeded newSize) newSize t)
      (m, file) :=
    wlp_ite.2 ⟨fun needed => growBlocklist_gaveUp _ _ needed,
      fun enough => wlp_pure.2 fun full => enough full.1⟩
  refine wlp_mono grown ?_ fun _ _ gaveUp => gaveUp
  rintro - ⟨t, file'⟩ memory
  simp only [wlp_setFile, wlp_theFile, wlp_ite, wlp_bind, wlp_lift, wlp_pure, implies_true, and_true]
  intro _
  -- the size is recorded, and the update of the entry does not see the handle
  exact wlp_of_forall (fun _ _ => trivial) fun _ _ => .inr (.inr ⟨memory, rfl⟩)

/-- A write whose extension fails returns 0, and does nothing else. -/
theorem fileWriteWith_failed {extend : Nat → FileM Unit} {buf : Bytes} {offset length : Nat}
    {e : FatError} {t : Machine × FatFile} (grows : file.size < w32 (offset + length))
    (failed : extend (w32 (offset + length)) (m, file) = some (.error e, t)) :
    fat32FileWriteWith extend disk buf offset length (m, file) = some (.ok 0, t) := by
  have run : wp (fat32FileWriteWith extend disk buf offset length)
      (fun n u => n = 0 ∧ u = t) (fun _ _ => False) (m, file) := by
    have extended : wp (extend (w32 (offset + length))) (fun _ _ => False) (fun _ u => u = t)
        (m, file) := wp_iff_run.2 (.inr ⟨e, t, failed, rfl⟩)
    unfold fat32FileWriteWith
    simp only [wp_bind, wp_theFile, if_pos grows, wp_attempt]
    refine wp_mono extended (fun _ _ never => never.elim) ?_
    rintro _ u rfl
    exact ⟨rfl, rfl⟩
  obtain ⟨n, u, run', rfl, rfl⟩ := wp_run run
  exact run'

/-- **A write that fails because the file cannot be extended leaves the handle
and the FAT as they were only when it is the allocation of a first blocklist
that fails.** -/
theorem failed_write_unchanged_iff (disk : DiskId) (m : Machine) (file : FatFile) (buf : Bytes)
    (offset length : Nat) (grows : file.size < w32 (offset + length)) {e : FatError}
    {t : Machine × FatFile}
    (failed : fat32ExtendFile disk (w32 (offset + length)) (m, file) = some (.error e, t)) :
    fat32FileWrite disk buf offset length (m, file) = some (.ok 0, t) ∧
      (Unchanged disk (m, file) t ↔
        file.blocklist = none ∧
          NoBlocklist (m, file) ((m.fsMem file.fs).blocksNeeded (w32 (offset + length)))) := by
  refine ⟨fileWriteWith_failed grows failed, ?_⟩
  have positive : w32 (offset + length) ≠ 0 := by omega
  rcases wlp_error (extendFile_gaveUp positive) failed with
    ⟨full, rfl⟩ | ⟨memory, needed, recorded⟩ | ⟨memory, recorded⟩
  · constructor
    · exact fun same => ⟨same.blocklist.symm, full⟩
    · rintro ⟨none, -⟩
      exact ⟨rfl, rfl, none.symm, rfl, rfl⟩
  · constructor
    · intro same
      exact absurd (recorded.symm.trans same.blocklistSize) needed.ne'
    · exact fun ⟨_, full⟩ => absurd full memory
  · constructor
    · intro same
      exact absurd (recorded.symm.trans same.size) grows.ne'
    · exact fun ⟨_, full⟩ => absurd full memory

end Progress

/-! ## A full volume -/

/-- A volume whose only data cluster holds the root directory. -/
def fullVolume : Machine :=
  Machine.mounted (fun _ => smallFs 1 2015 2047) fun _ =>
    putWord (bootSector 1 32 1 2048 2015) (512 * 32 + 8) 0x0fffffff

example : mountFs (fullVolume.disk 0).data = some (fullVolume.fsMem 0) := by decide +kernel

/-- A handle on a file without clusters. -/
def emptyFile : FatFile where
  fs := 0
  size := 0
  blocklistSize := 0
  blocklist := none
  dirEntry :=
    { indexInDir := 0, dirFirstCluster := 0, name := fun _ => 0, firstCluster := 0, attrib := 0
      size := 0 }

/-- A write of one byte to it finds no cluster, and its handle has a block afterwards. -/
theorem failed_write_keeps_block :
    ∃ t, fat32ExtendFile 0 (w32 (0 + 1)) (fullVolume, emptyFile) = some (.error .enospc, t) ∧
      fat32FileWrite 0 (fun _ => 0x41) 0 1 (fullVolume, emptyFile) = some (.ok 0, t) ∧
      t.2.blocklistSize = 1 ∧ ¬ Unchanged 0 (fullVolume, emptyFile) t := by
  have run : (fat32ExtendFile 0 (w32 (0 + 1)) (fullVolume, emptyFile)).map
      (fun (r, t) => (r, t.2.blocklistSize)) = some (.error .enospc, 1) := by decide +kernel
  obtain ⟨⟨r, t⟩, failed, same⟩ := Option.map_eq_some_iff.1 run
  obtain ⟨rfl, size⟩ := Prod.mk.inj same
  refine ⟨t, failed, fileWriteWith_failed (by decide) failed, size, fun unchanged => ?_⟩
  have := unchanged.blocklistSize
  rw [size] at this
  cases this

/-- Without memory for a blocklist its handle is as it was. -/
theorem failed_write_unchanged_empty :
    ∃ t, fat32FileWrite 0 (fun _ => 0x41) 0 1
        ({ fullVolume with world := { fullVolume.world with noMemory := fun _ => true } },
          emptyFile) = some (.ok 0, t) ∧
      Unchanged 0 ({ fullVolume with
        world := { fullVolume.world with noMemory := fun _ => true } }, emptyFile) t := by
  have run : (fat32ExtendFile 0 (w32 (0 + 1))
      ({ fullVolume with world := { fullVolume.world with noMemory := fun _ => true } },
        emptyFile)).map (fun (r, _) => r) = some (.error .eio) := by decide +kernel
  obtain ⟨⟨r, t⟩, failed, same⟩ := Option.map_eq_some_iff.1 run
  cases same
  obtain ⟨written, unchanged⟩ := failed_write_unchanged_iff 0 _ emptyFile (fun _ => 0x41) 0 1
    (by decide) failed
  exact ⟨t, written, unchanged.2 ⟨rfl, by decide +kernel, rfl⟩⟩

end TestOs.Fat32
