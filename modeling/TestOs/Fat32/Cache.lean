/-
# Fat32.Cache -- what the FAT buffer operations do

One lemma for each function of `Fat32.Buffer`, on a device that does not fail
(`Reliable`).  `writeCopies` is the effect of a write-back on the bytes of the
disk, and `copySector` where its copies start; everything about the range of a
write-back follows from the two.
-/
import TestOs.Fat32.Buffer
import TestOs.Fat32.Volume

namespace TestOs.Fat32

open TestOs.Library Prog

set_option autoImplicit false

/-! ## The effect of a write-back on the disk -/

/-- Where copy `k` of the buffer goes. -/
def copySector (fatSectors sector k : Nat) : Nat := w32 (sector + k * fatSectors)

/-- The buffer spliced into the disk once for each FAT copy. -/
def writeCopies (buf : Bytes) (fatSectors : Nat) : Nat → Nat → Bytes → Bytes
  | 0, _, data => data
  | copies + 1, sector, data =>
      writeCopies buf fatSectors copies (w32 (sector + fatSectors))
        (splice data (512 * sector) buf 1024)

section Copies

variable {buf data : Bytes} {fatSectors copies sector i : Nat}

theorem copySector_zero (small : sector < 2 ^ 32) : copySector fatSectors sector 0 = sector := by
  rw [copySector, Nat.zero_mul, Nat.add_zero, w32_of_lt small]

theorem copySector_succ (k : Nat) :
    copySector fatSectors (w32 (sector + fatSectors)) k = copySector fatSectors sector (k + 1) := by
  simp only [copySector, w32, Nat.mod_add_mod]
  congr 1
  ring

/-- A byte outside the two sectors of every copy is not touched. -/
theorem writeCopies_outside (small : sector < 2 ^ 32)
    (outside : ∀ k < copies, i < 512 * copySector fatSectors sector k ∨
      512 * copySector fatSectors sector k + 1024 ≤ i) :
    writeCopies buf fatSectors copies sector data i = data i := by
  induction copies generalizing sector data with
  | zero => rfl
  | succ copies ih =>
      have first := outside 0 (by omega)
      rw [copySector_zero small] at first
      rw [writeCopies, ih (w32_lt _), splice_outside first]
      intro k below
      rw [copySector_succ]
      exact outside (k + 1) (by omega)

/-- What the last write to a byte leaves there: the buffer, at its place in a copy. -/
theorem writeCopies_covered (buf data : Bytes) (fatSectors : Nat) (small : sector < 2 ^ 32) {k : Nat} (copy : k < copies)
    (low : 512 * copySector fatSectors sector k ≤ i)
    (high : i < 512 * copySector fatSectors sector k + 1024) :
    ∃ k' < copies, 512 * copySector fatSectors sector k' ≤ i ∧
      i < 512 * copySector fatSectors sector k' + 1024 ∧
      writeCopies buf fatSectors copies sector data i =
        buf (i - 512 * copySector fatSectors sector k') := by
  induction copies generalizing sector data k with
  | zero => omega
  | succ copies ih =>
      have small' : w32 (sector + fatSectors) < 2 ^ 32 := w32_lt _
      by_cases later : ∃ j < copies,
          512 * copySector fatSectors (w32 (sector + fatSectors)) j ≤ i ∧
          i < 512 * copySector fatSectors (w32 (sector + fatSectors)) j + 1024
      · obtain ⟨j, below, low', high'⟩ := later
        obtain ⟨k', below', low'', high'', last⟩ :=
          ih (splice data (512 * sector) buf 1024) small' below low' high'
        rw [copySector_succ] at low'' high'' last
        exact ⟨k' + 1, by omega, low'', high'', last⟩
      · -- no later copy covers the byte, so the first one does
        have zero : k = 0 := by
          by_contra nonzero
          obtain ⟨j, rfl⟩ := Nat.exists_eq_succ_of_ne_zero nonzero
          rw [← copySector_succ] at low high
          exact later ⟨j, by omega, low, high⟩
        subst zero
        refine ⟨0, by omega, low, high, ?_⟩
        rw [copySector_zero small] at low high ⊢
        rw [writeCopies, writeCopies_outside small', splice_inside low high]
        intro j below
        by_contra inside
        exact later ⟨j, below, by omega, by omega⟩

/-- Copies that do not wrap stay in order, so the first is written once. -/
theorem writeCopies_first {base : Nat} (copy : 0 < copies) (above : base ≤ sector)
    (inFirst : sector < base + fatSectors) (fits : base + copies * fatSectors ≤ 2 ^ 32)
    (below : i < 512 * (base + fatSectors)) :
    writeCopies buf fatSectors copies sector data i = splice data (512 * sector) buf 1024 i := by
  obtain ⟨copies, rfl⟩ := Nat.exists_eq_succ_of_ne_zero copy.ne'
  have whole : base + fatSectors ≤ 2 ^ 32 := by
    have := Nat.le_mul_of_pos_left fatSectors copy
    omega
  have small : sector < 2 ^ 32 := by omega
  rw [writeCopies, writeCopies_outside (w32_lt _)]
  intro k copy'
  left
  rw [copySector_succ]
  -- copy `k + 1` starts behind the first one
  have upper : sector + (k + 1) * fatSectors < 2 ^ 32 := by
    have := Nat.mul_le_mul_right fatSectors (by omega : k + 1 + 1 ≤ copies + 1)
    have step : (k + 1 + 1) * fatSectors = (k + 1) * fatSectors + fatSectors := by ring
    simp only [Nat.succ_eq_add_one] at fits
    omega
  have lower : fatSectors ≤ (k + 1) * fatSectors := Nat.le_mul_of_pos_left _ (by omega)
  rw [copySector, w32_of_lt upper]
  omega

end Copies

/-! ## Committing -/

section Commit

variable {s : Machine} {disk : DiskId} {fs : FsPtr}

/-- What a write-back may make of the disk, whatever fails: a byte is as it was,
or as the buffer has it, at its place in a copy. -/
def CopiesOf (buf : Bytes) (fatSectors copies sector : Nat) (before after : Bytes) : Prop :=
  ∀ i, after i = before i ∨ ∃ k < copies, 512 * copySector fatSectors sector k ≤ i ∧
    i < 512 * copySector fatSectors sector k + 1024 ∧
    after i = buf (i - 512 * copySector fatSectors sector k)

theorem commitLoop_copies (disk : DiskId) (fatSectors copies : Nat) {sector : Nat}
    (small : sector < 2 ^ 32) {s : Machine} :
    let after := fun t : Machine => ∃ data io trace,
      t = s.ran (s.toCore.setData disk data) io trace ∧
        CopiesOf s.buf fatSectors copies sector (s.disk disk).data data
    wp (commitLoop disk fatSectors copies sector) (fun _ t => after t) (fun _ t => after t) s := by
  induction copies generalizing sector s with
  | zero => exact ⟨(s.disk disk).data, s.io, s.trace, by simp [Machine.ran], fun _ => .inl rfl⟩
  | succ copies ih =>
      have few := transferred_le (m := s) 2
      have first : ∀ i, splice (s.disk disk).data (512 * sector) s.buf (512 * s.transferred 2) i =
            (s.disk disk).data i ∨
          (512 * sector ≤ i ∧ i < 512 * sector + 1024 ∧
            splice (s.disk disk).data (512 * sector) s.buf (512 * s.transferred 2) i =
              s.buf (i - 512 * sector)) := by
        intro i
        by_cases inside : 512 * sector ≤ i ∧ i < 512 * sector + 512 * s.transferred 2
        · exact .inr ⟨inside.1, by omega, splice_inside inside.1 inside.2⟩
        · exact .inl (splice_outside (by omega))
      intro after
      simp only [commitLoop, wp_bind, wp_note, wp_state, wp_deviceWrite, ran_toCore, ran_trace]
      split
      · refine wp_mono (ih (w32_lt _)) ?_ ?_ <;>
        · rintro - t ⟨data, io, trace, rfl, copied⟩
          refine ⟨data, io, trace, by simp, fun i => ?_⟩
          rcases copied i with same | ⟨k, below, low, high, value⟩
          · rw [ran_toCore, setData_data] at same
            rw [same]
            rcases first i with untouched | ⟨low, high, value⟩
            · exact .inl untouched
            · refine .inr ⟨0, by omega, ?_⟩
              rw [copySector_zero small]
              exact ⟨low, high, value⟩
          · rw [copySector_succ] at low high value
            exact .inr ⟨k + 1, by omega, low, high, value⟩
      · refine ⟨_, _, _, rfl, fun i => ?_⟩
        rcases first i with untouched | ⟨low, high, value⟩
        · exact .inl untouched
        · refine .inr ⟨0, by omega, ?_⟩
          rw [copySector_zero small]
          exact ⟨low, high, value⟩

/-- On a reliable device it reaches every copy. -/
theorem commitLoop_reliable (disk : DiskId) (fatSectors copies sector : Nat) {s : Machine}
    (reliable : s.Reliable) :
    wp (commitLoop disk fatSectors copies sector)
      (fun _ t => ∃ io trace, t = s.ran (s.toCore.setData disk
        (writeCopies s.buf fatSectors copies sector (s.disk disk).data)) io trace)
      (fun _ _ => False) s := by
  induction copies generalizing sector s with
  | zero => exact ⟨s.io, s.trace, by simp [writeCopies, Machine.ran]⟩
  | succ copies ih =>
      simp only [commitLoop, wp_bind, wp_note, wp_state, wp_deviceWrite, ran_world, ran_io,
        reliable.isNone, if_true]
      refine wp_mono (ih _ reliable.ran) ?_ (fun _ _ never => never)
      rintro - t ⟨io, trace, rfl⟩
      refine ⟨io, trace, ?_⟩
      simp [writeCopies, reliable.ran.transferred]

end Commit

/-! ## The functions on a reliable device -/

namespace Core

variable (c : Core) (disk : DiskId)

/-- After `commit_fat32_buffer` for the file system whose FAT the buffer holds. -/
def writtenBack : Core :=
  match c.bufFs with
  | some fs =>
      { c.setData disk (writeCopies c.buf (c.fsMem fs).fatSectors (c.fsMem fs).numFats c.bufSector
          (c.disk disk).data) with bufChanged := false }
  | none => c

/-- After a dirty buffer has been made free. -/
def evicted : Core := if c.bufChanged = true ∧ c.bufFs ≠ none then c.writtenBack disk else c

/-- After the buffer has been filled. -/
def loaded (fs : FsPtr) (sector : Nat) : Core :=
  { c with
    buf := splice c.buf 0 (slice (c.disk disk).data (512 * sector)) 1024
    bufFs := some fs, bufSector := sector, bufChanged := false }

/-- After `get_fat32_buffer`, with `sector` a sector of the disk. -/
def fetched (fs : FsPtr) (sector : Nat) : Core :=
  if c.bufFs = some fs ∧ c.bufSector = sector then c else (c.evicted disk).loaded disk fs sector

/-- After `set_next_cluster_fat32` once the buffer holds the sector. -/
def stored (offset : Nat) (next : BitVec 32) : Core :=
  { c with buf := putWord c.buf offset next, bufChanged := true }

end Core

/-- The sector of the disk that holds the entry of a cluster. -/
def Fs.entrySector (fs : Fs) (cluster : BitVec 32) : Nat :=
  w32 (fat32Sector cluster + fs.reservedSectors)

theorem Fs.entrySector_lt (fs : Fs) (cluster : BitVec 32) : fs.entrySector cluster < 2 ^ 32 :=
  w32_lt _

section Reliable

variable {s : Machine} (disk : DiskId) (fs : FsPtr)

/-- `p` returns a value in `post` and leaves the core as given. -/
def Yields {α : Type} (p : FatM α) (s : Machine) (value : α) (core : Core) : Prop :=
  wp p (fun a t => a = value ∧ ∃ io trace, t = s.ran core io trace) (fun _ _ => False) s

theorem commitFat32Buffer_yields (reliable : s.Reliable) :
    Yields (commitFat32Buffer disk fs) s ()
      (if s.bufFs = some fs then s.toCore.writtenBack disk else s.toCore) := by
  unfold Yields commitFat32Buffer
  simp only [wp_bind, wp_state]
  by_cases holds : s.bufFs = some fs
  · simp only [if_pos holds, wp_bind, wp_readFs, wp_state, wp_update]
    refine wp_mono (commitLoop_reliable disk _ _ _ reliable) ?_ (fun _ _ never => never)
    rintro - t ⟨io, trace, rfl⟩
    refine ⟨trivial, io, trace, ?_⟩
    rw [Core.writtenBack]
    simp [holds, Machine.ran]
  · simp only [if_neg holds]
    exact ⟨trivial, s.io, s.trace, rfl⟩

theorem fillBuffer_yields (sector : Nat) (reliable : s.Reliable) :
    Yields (fillBuffer disk fs sector) s true (s.toCore.loaded disk fs sector) := by
  unfold Yields fillBuffer
  simp only [wp_bind, wp_state, wp_deviceRead, reliable.isNone, reliable.transferred, wp_update,
    if_true, wp_note, wp_pure]
  exact ⟨trivial, _, _, rfl⟩

theorem getFat32Buffer_yields (sector : Nat) (reliable : s.Reliable) :
    Yields (getFat32Buffer disk fs sector) s true
      (s.toCore.fetched disk fs (w32 (sector + (s.fsMem fs).reservedSectors))) := by
  unfold Yields getFat32Buffer Core.fetched
  simp only [wp_bind, wp_readFs, wp_state]
  split
  · exact ⟨rfl, s.io, s.trace, rfl⟩
  · split
    · rename_i old changed holds
      simp only [wp_bind, wp_attempt]
      refine wp_mono (commitFat32Buffer_yields disk old reliable) ?_ (fun _ _ never => never.elim)
      rintro - t ⟨-, io, trace, rfl⟩
      refine wp_mono (fillBuffer_yields disk fs _ reliable.ran) ?_ (fun _ _ never => never)
      rintro ok t ⟨rfl, io', trace', rfl⟩
      refine ⟨rfl, io', trace', ?_⟩
      simp [Core.evicted, changed, holds]
    · rename_i other
      refine wp_mono (fillBuffer_yields disk fs _ reliable) ?_ (fun _ _ never => never)
      rintro ok t ⟨rfl, io, trace, rfl⟩
      refine ⟨rfl, io, trace, ?_⟩
      have clean : ¬ (s.bufChanged = true ∧ s.bufFs ≠ none) := by
        rintro ⟨changed, holds⟩
        obtain ⟨old, isOld⟩ := Option.ne_none_iff_exists'.1 holds
        exact other old changed isOld
      rw [Core.evicted, if_neg clean]

theorem getNextClusterFat32_yields (cluster : BitVec 32) (reliable : s.Reliable) :
    let core := s.toCore.fetched disk fs ((s.fsMem fs).entrySector cluster)
    Yields (getNextClusterFat32 disk fs cluster) s
      (entryView (word core.buf (fat32Offset cluster))) core := by
  unfold Yields getNextClusterFat32
  simp only [wp_bind]
  refine wp_mono (getFat32Buffer_yields disk fs _ reliable) ?_ (fun _ _ never => never)
  rintro ok t ⟨rfl, io, trace, rfl⟩
  simp only [if_true, wp_bind, wp_note, wp_state, wp_pure]
  exact ⟨rfl, _, _, rfl⟩

theorem setNextClusterFat32_yields (cluster next : BitVec 32) (reliable : s.Reliable) :
    Yields (setNextClusterFat32 disk fs cluster next) s ()
      ((s.toCore.fetched disk fs ((s.fsMem fs).entrySector cluster)).stored
        (fat32Offset cluster) next) := by
  unfold Yields setNextClusterFat32
  simp only [wp_bind]
  refine wp_mono (getFat32Buffer_yields disk fs _ reliable) ?_ (fun _ _ never => never)
  rintro ok t ⟨rfl, io, trace, rfl⟩
  simp only [if_true, wp_update]
  exact ⟨trivial, _, _, rfl⟩

end Reliable

end TestOs.Fat32
