/-
# Fat32.WriteBack -- when updates of a FAT stay inside the FAT

A write-back writes two sectors to each copy of the FAT: the one that was asked
for and the one behind it.  For an entry in the last sector of a FAT the one
behind it is the first of the next copy, or of what follows the FATs: cluster 2.

`stays_in_fat_iff` says exactly for which volumes and clusters an update and its
write-back leave every sector outside the FAT copies alone, whatever fails and
whatever is written to the data region in between.
-/
import TestOs.Fat32.FatTable

namespace TestOs.Fat32

open TestOs.Library Prog

set_option autoImplicit false

/-- `after` is `before` with other bytes in sectors of the data region. -/
def DataWrites (f : Fs) (before after : Bytes) : Prop :=
  ∀ i, ¬ f.InData (i / 512) → after i = before i

/-- The bytes outside the FAT copies are the same. -/
def SameOutsideFat (f : Fs) (before after : Bytes) : Prop :=
  ∀ i, ¬ f.InFat (i / 512) → after i = before i

def Machine.withData (m : Machine) (disk : DiskId) (data : Bytes) : Machine :=
  { m with toCore := m.toCore.setData disk data }

/-- The buffer can be dirty with `sector` of this file system only, and if it
holds that, the sector behind is as it was loaded, before some writes to the
data region. -/
structure LoadedAt (m : Machine) (disk : DiskId) (fs : FsPtr) (sector : Nat) : Prop where
  dirty : m.bufChanged = true → m.bufFs = some fs ∧ m.bufSector = sector
  behind : m.bufFs = some fs → m.bufSector = sector → ∃ data,
    DataWrites (m.fsMem fs) data (m.disk disk).data ∧
      ∀ i, 512 ≤ i → i < 1024 → m.buf i = data (512 * sector + i)

/-- The two ways in which a buffer is written back: `commit_fat32_buffer`, and
`get_fat32_buffer` for another sector or another file system on the disk. -/
inductive WriteBack where
  | commit
  | evict (other : FsPtr) (sector : Nat)

def WriteBack.run (disk : DiskId) (fs : FsPtr) : WriteBack → FatM Unit
  | .commit => commitFat32Buffer disk fs
  | .evict other sector => do
      let _ ← getFat32Buffer disk other sector
      return ()

/-- Setting an entry of the cluster, and then a write-back, with writes to the
data region before and in between, changes no sector outside the FAT copies. -/
def StaysInFat (f : Fs) (cluster : BitVec 32) : Prop :=
  ∀ (m : Machine) (disk : DiskId) (fs : FsPtr) (next : BitVec 32), m.fsMem fs = f →
    LoadedAt m disk fs (f.entrySector cluster) →
      wp (setNextClusterFat32 disk fs cluster next)
        (fun _ t => SameOutsideFat f (m.disk disk).data (t.disk disk).data ∧
          ∀ data (back : WriteBack), DataWrites f (t.disk disk).data data →
            wp (back.run disk fs)
              (fun _ u => SameOutsideFat f data (u.disk disk).data)
              (fun _ u => SameOutsideFat f data (u.disk disk).data) (t.withData disk data))
        (fun _ t => SameOutsideFat f (m.disk disk).data (t.disk disk).data) m

/-- Both sectors of every copy lie in the FATs; or there is one FAT, and what is
behind the sector of the entry is no sector of the data region. -/
def WriteBackFits (f : Fs) (cluster : BitVec 32) : Prop :=
  (∀ k < f.numFats, f.InFat (copySector f.fatSectors (f.entrySector cluster) k) ∧
      f.InFat (copySector f.fatSectors (f.entrySector cluster) k + 1)) ∨
    f.numFats = 1 ∧ ¬ f.InData (f.entrySector cluster + 1)

instance (f : Fs) (cluster : BitVec 32) : Decidable (WriteBackFits f cluster) :=
  inferInstanceAs (Decidable ((∀ k < f.numFats, _ ∧ _) ∨ _ ∧ _))

section Sufficient

variable {f : Fs} {cluster : BitVec 32} {m : Machine} {disk : DiskId} {fs : FsPtr} {sector : Nat}

/-- What a write-back may make of a buffer whose second sector is as it was
loaded: outside the FATs, nothing. -/
theorem copies_sameOutsideFat (inFat : cluster.toNat < f.fatSectors * 128)
    (fits : WriteBackFits f cluster) (buf : Bytes) {loaded before after : Bytes}
    (copied : CopiesOf buf f.fatSectors f.numFats (f.entrySector cluster) before after)
    (writes : DataWrites f loaded before)
    (behind : ∀ i, 512 ≤ i → i < 1024 → buf i = loaded (512 * f.entrySector cluster + i)) :
    SameOutsideFat f before after := by
  intro i outside
  rcases copied i with same | ⟨k, below, low, high, value⟩
  · exact same
  · have place : i / 512 = copySector f.fatSectors (f.entrySector cluster) k ∨
        i / 512 = copySector f.fatSectors (f.entrySector cluster) k + 1 := by omega
    rcases fits with inside | ⟨one, noData⟩
    · rcases place with at_ | at_ <;> rw [at_] at outside
      · exact absurd (inside k below).1 outside
      · exact absurd (inside k below).2 outside
    · -- one copy, written where it was loaded from
      obtain rfl : k = 0 := by omega
      have entry := entrySector_eq (f := f) cluster
      have first := fat32Sector_lt inFat
      have small := f.reservedSectors_lt
      have sectors := f.fatSectors_lt
      rw [copySector_zero (f.entrySector_lt cluster)] at low high value place
      rcases place with at_ | at_ <;> rw [at_] at outside
      · refine absurd ⟨by omega, ?_⟩ outside
        rw [one]
        omega
      · have unwritten : before i = loaded i := writes i (by rw [at_]; exact noData)
        rw [value, behind _ (by omega) (by omega), unwritten]
        congr 1
        omega

/-- A fill changes no disk. -/
theorem fillBuffer_disk : wp (fillBuffer disk fs sector)
    (fun ok t => t.disk = m.disk ∧ t.fsMem = m.fsMem ∧
      (ok = true → t.bufFs = some fs ∧ t.bufSector = sector ∧
        ∀ i < 1024, t.buf i = (m.disk disk).data (512 * sector + i)))
    (fun _ _ => False) m := by
  unfold fillBuffer
  simp only [wp_bind, wp_state, wp_deviceRead, wp_update]
  split
  · rename_i good
    have done : m.transferred 2 = 2 := by
      rw [Machine.transferred, Option.isNone_iff_eq_none.1 good]
    simp only [wp_bind, wp_note, wp_update, wp_pure]
    refine ⟨rfl, rfl, fun _ => ⟨trivial, trivial, fun i low => ?_⟩⟩
    change splice m.buf 0 _ (512 * m.transferred 2) i = _
    rw [done, splice_inside (by omega) (by omega)]
    rfl
  · simp only [wp_bind, forgetBuffer, wp_update, wp_pure]
    exact ⟨rfl, rfl, fun good => by cases good⟩

/-- Setting an entry where the buffer is not dirty with another sector writes nothing. -/
theorem setNextClusterFat32_loaded (next : BitVec 32)
    (loaded : LoadedAt m disk fs ((m.fsMem fs).entrySector cluster)) :
    wp (setNextClusterFat32 disk fs cluster next)
      (fun _ t => t.disk = m.disk ∧ t.fsMem = m.fsMem ∧ t.bufFs = some fs ∧
        t.bufSector = (m.fsMem fs).entrySector cluster ∧ ∃ data,
          DataWrites (m.fsMem fs) data (m.disk disk).data ∧
            ∀ i, 512 ≤ i → i < 1024 → t.buf i = data (512 * (m.fsMem fs).entrySector cluster + i))
      (fun _ t => t.disk = m.disk) m := by
  have offset := fat32Offset_le cluster
  have second : ∀ (buf : Bytes) i, 512 ≤ i → putWord buf (fat32Offset cluster) next i = buf i :=
    fun buf i high => splice_outside (by omega)
  unfold setNextClusterFat32 getFat32Buffer
  simp only [wp_bind, wp_readFs, wp_state]
  split
  · rename_i hit
    obtain ⟨data, writes, behind⟩ := loaded.behind hit.1 hit.2
    refine ⟨rfl, rfl, hit.1, hit.2, data, writes, fun i low high => ?_⟩
    rw [← behind i low high]
    exact second m.buf i low
  · rename_i miss
    split
    · rename_i old dirty holds
      exact absurd (loaded.dirty dirty) miss
    · refine wp_mono (fillBuffer_disk (m := m)) ?_ (fun _ _ never => never.elim)
      rintro ok t ⟨disks, mems, filled⟩
      cases ok with
      | true =>
          obtain ⟨holds, at_, content⟩ := filled rfl
          refine ⟨disks, mems, holds, at_, (m.disk disk).data, fun _ _ => rfl, fun i low high => ?_⟩
          exact (second t.buf i low).trans (content i high)
      | false => exact disks

/-- A write-back of the buffer makes copies of it, or does nothing. -/
theorem WriteBack.run_copies (back : WriteBack) (disk : DiskId) (holds : m.bufFs = some fs)
    (small : m.bufSector < 2 ^ 32) :
    let after := fun t : Machine =>
      CopiesOf m.buf (m.fsMem fs).fatSectors (m.fsMem fs).numFats m.bufSector (m.disk disk).data
        (t.disk disk).data
    wp (back.run disk fs) (fun _ t => after t) (fun _ t => after t) m := by
  have nothing : CopiesOf m.buf (m.fsMem fs).fatSectors (m.fsMem fs).numFats m.bufSector
      (m.disk disk).data (m.disk disk).data := fun _ => .inl rfl
  have commits : wp (commitFat32Buffer disk fs)
      (fun _ t => CopiesOf m.buf (m.fsMem fs).fatSectors (m.fsMem fs).numFats m.bufSector
        (m.disk disk).data (t.disk disk).data)
      (fun _ t => CopiesOf m.buf (m.fsMem fs).fatSectors (m.fsMem fs).numFats m.bufSector
        (m.disk disk).data (t.disk disk).data) m := by
    unfold commitFat32Buffer
    simp only [wp_bind, wp_state, if_pos holds, wp_readFs, wp_update]
    refine wp_mono (commitLoop_copies disk _ _ small) ?_ ?_ <;>
    · rintro - t ⟨data, io, trace, rfl, copied⟩
      simpa using copied
  cases back with
  | commit => exact commits
  | evict other sector =>
      simp only [WriteBack.run, getFat32Buffer, wp_bind, wp_readFs, wp_state, wp_pure]
      split
      · exact nothing
      · split
        · rename_i old dirty held
          obtain rfl : old = fs := Option.some.inj (held.symm.trans holds)
          simp only [wp_bind, wp_attempt]
          refine wp_mono commits ?_ ?_
          · intro _ t copied
            refine wp_mono (fillBuffer_disk (m := t)) ?_ (fun _ _ never => never.elim)
            rintro ok u ⟨disks, -⟩
            rw [disks]
            exact copied
          · exact fun _ t copied => copied
        · refine wp_mono (fillBuffer_disk (m := m)) ?_ (fun _ _ never => never.elim)
          rintro ok u ⟨disks, -⟩
          rw [disks]
          exact nothing

/-- Enough: where the write-back fits, updates stay in the FAT. -/
theorem stays_of_fits (inFat : cluster.toNat < f.fatSectors * 128)
    (fits : WriteBackFits f cluster) : StaysInFat f cluster := by
  rintro m disk fs next rfl loaded
  refine wp_mono (setNextClusterFat32_loaded next loaded) ?_ ?_
  · rintro - t ⟨disks, mems, holds, at_, data₀, before, behind⟩
    refine ⟨fun i _ => by rw [disks], fun data back writes => ?_⟩
    have between : DataWrites (m.fsMem fs) data₀ data := fun i noData => by
      rw [writes i noData, disks, before i noData]
    have copies := back.run_copies disk (m := t.withData disk data) holds
      (by
        change t.bufSector < _
        rw [at_]
        exact Fs.entrySector_lt _ _)
    refine wp_mono copies ?_ ?_ <;>
    · intro _ u copied
      refine copies_sameOutsideFat inFat fits t.buf ?_ between behind
      simpa [Machine.withData, mems, at_] using copied
  · intro _ t disks i _
    rw [disks]

end Sufficient

/-! ## Where the write-back does not fit -/

/-- A disk that is 0 except for one sector. -/
def marked (sector : Nat) : Bytes := fun i => if i / 512 = sector then 0xff else 0

theorem putWord_zero {b : Bytes} {offset i : Nat} (zero : b i = 0) : putWord b offset 0 i = 0 := by
  by_cases inside : offset ≤ i ∧ i < offset + 4
  · rw [putWord, splice_inside inside.1 inside.2]
    simp [wordBytes]
  · rw [putWord, splice_outside (by omega), zero]

section Necessary

variable {f : Fs} {cluster : BitVec 32}

/-- A sector outside the FATs that some copy of the buffer covers loses its mark:
where it is the second sector of the window, one that was written after the
window was loaded, and elsewhere one that was there before. -/
theorem mark_lost (inFat : cluster.toNat < f.fatSectors * 128) {k x : Nat} (copy : k < f.numFats)
    (covered : x = copySector f.fatSectors (f.entrySector cluster) k ∨
      x = copySector f.fatSectors (f.entrySector cluster) k + 1)
    (outside : ¬ f.InFat x) (second : x = f.entrySector cluster + 1 → f.InData x) :
    ¬ StaysInFat f cluster := by
  intro stays
  have entry := entrySector_eq (f := f) cluster
  have first := fat32Sector_lt inFat
  have several : f.fatSectors ≤ f.numFats * f.fatSectors := Nat.le_mul_of_pos_left _ (by omega)
  have notFirst : x ≠ f.entrySector cluster := by
    rintro rfl
    exact outside ⟨by omega, by omega⟩
  let data₀ : Bytes := if x = f.entrySector cluster + 1 then fun _ => 0 else marked x
  have writes : DataWrites f data₀ (marked x) := by
    intro i noData
    simp only [data₀]
    split
    · rename_i same
      unfold marked
      rw [if_neg]
      rintro rfl
      exact noData (second same)
    · rfl
  have zero : ∀ j < 1024, data₀ (512 * f.entrySector cluster + j) = 0 := by
    intro j low
    simp only [data₀]
    split
    · rfl
    · exact if_neg (by omega)
  let m := Machine.mounted (fun _ => f) fun _ => data₀
  have reliable : m.Reliable := mounted_reliable _ _
  have loaded : LoadedAt m 0 0 (f.entrySector cluster) :=
    ⟨fun dirty => (by cases dirty), fun holds => (by cases holds)⟩
  obtain ⟨-, t, -, ⟨-, kept⟩, -, io, trace, rfl⟩ :=
    wp_run (wp_mono (wp_and (stays m 0 0 0 rfl loaded)
      (setNextClusterFat32_yields 0 0 cluster 0 reliable)) (fun _ _ both => both)
      fun _ _ both => both.2.elim)
  -- the buffer is 0, and the disk as it was
  let c := (m.toCore.fetched 0 0 (f.entrySector cluster)).stored (fat32Offset cluster) 0
  have loads : m.toCore.fetched 0 0 (f.entrySector cluster) =
      m.toCore.loaded 0 0 (f.entrySector cluster) := by
    simp [Core.fetched, Core.evicted, m, Machine.mounted]
  have blank : ∀ j < 1024, c.buf j = 0 := by
    intro j low
    refine putWord_zero ?_
    rw [loads]
    change splice _ 0 (slice data₀ (512 * f.entrySector cluster)) 1024 j = 0
    rw [splice_inside (by omega) (by omega)]
    exact zero _ (by omega)
  have holds : c.bufFs = some 0 := by
    change (m.toCore.fetched 0 0 (f.entrySector cluster)).bufFs = _
    rw [loads]
    rfl
  have at_ : c.bufSector = f.entrySector cluster := by
    change (m.toCore.fetched 0 0 (f.entrySector cluster)).bufSector = _
    rw [loads]
    rfl
  have mem : c.fsMem 0 = f := by
    change (m.toCore.fetched 0 0 (f.entrySector cluster)).fsMem 0 = _
    rw [loads]
    rfl
  have onDisk : (c.disk 0).data = data₀ := by
    change ((m.toCore.fetched 0 0 (f.entrySector cluster)).disk 0).data = _
    rw [loads]
    rfl
  have back := kept (marked x) .commit (by
    change DataWrites f (c.disk 0).data _
    rw [onDisk]
    exact writes)
  obtain ⟨-, u, -, same, -, io', trace', rfl⟩ :=
    wp_run (wp_mono (wp_and back (commitFat32Buffer_yields 0 0
      (s := Machine.withData _ 0 (marked x)) reliable)) (fun _ _ both => both) fun _ _ both => both.2.elim)
  have mark : marked x (512 * x) = 0xff := if_pos (by omega)
  have kept' := same (512 * x) (by rwa [Nat.mul_div_cancel_left _ (by decide)])
  have small := f.entrySector_lt cluster
  obtain ⟨k', -, low, high, value⟩ := writeCopies_covered c.buf (marked x) f.fatSectors
    small copy (i := 512 * x) (by omega) (by omega)
  rw [mark] at kept'
  change ((if c.bufFs = some 0 then (c.setData 0 (marked x)).writtenBack 0 else
    c.setData 0 (marked x)).disk 0).data (512 * x) = 0xff at kept'
  rw [if_pos holds, Core.writtenBack] at kept'
  simp only [setData_bufFs, holds, setData_setData, setData_buf, setData_fsMem, mem,
    setData_bufSector, at_, setData_data] at kept'
  rw [value, blank _ (by omega)] at kept'
  cases kept'

/-- Needed: where updates stay in the FAT, the write-back fits. -/
theorem fits_of_stays (inFat : cluster.toNat < f.fatSectors * 128)
    (stays : StaysInFat f cluster) : WriteBackFits f cluster := by
  by_contra unfit
  rw [WriteBackFits, not_or] at unfit
  obtain ⟨beyond, notAlone⟩ := unfit
  push Not at beyond
  obtain ⟨k, copy, which⟩ := beyond
  have entry := entrySector_eq (f := f) cluster
  have first := fat32Sector_lt inFat
  obtain ⟨x, covered, outside⟩ : ∃ x, (x = copySector f.fatSectors (f.entrySector cluster) k ∨
      x = copySector f.fatSectors (f.entrySector cluster) k + 1) ∧ ¬ f.InFat x := by
    by_cases low : f.InFat (copySector f.fatSectors (f.entrySector cluster) k)
    · exact ⟨_, .inr rfl, which low⟩
    · exact ⟨_, .inl rfl, low⟩
  refine mark_lost inFat copy covered outside (fun second => ?_) stays
  -- the sector behind the window is outside the FATs only if there is one FAT
  have one : f.numFats = 1 := by
    by_contra several
    have double := Nat.mul_le_mul_right f.fatSectors (by omega : 2 ≤ f.numFats)
    exact outside ⟨by omega, by omega⟩
  by_contra noData
  exact notAlone ⟨one, second ▸ noData⟩

end Necessary

/-- **When FAT updates stay inside the FAT.**  For an entry of the FAT, an update
and its write-back leave every sector outside the FAT copies alone exactly when
both sectors of every copy lie in the FATs, or there is one FAT and no data
sector behind it. -/
theorem stays_in_fat_iff (f : Fs) (cluster : BitVec 32)
    (inFat : cluster.toNat < f.fatSectors * 128) :
    StaysInFat f cluster ↔ WriteBackFits f cluster :=
  ⟨fits_of_stays inFat, stays_of_fits inFat⟩

/-- On a volume of 1 MB, cluster 5 is in the first sector of the FAT. -/
theorem stays_in_fat_iff_small : StaysInFat (smallFs 2 16 64) 5 :=
  (stays_in_fat_iff _ 5 (by decide +kernel)).2 (.inl (by decide +kernel))

/-- Cluster 1920 is in the last sector, in front of cluster 2. -/
theorem last_sector_escapes :
    mountFs (bootSector 1 32 2 2048 16) = some (smallFs 2 16 64) ∧
      (1920 : BitVec 32).toNat < (smallFs 2 16 64).fatSectors * 128 ∧
      ¬ StaysInFat (smallFs 2 16 64) 1920 := by
  refine ⟨by decide +kernel, by decide +kernel, fun stays => ?_⟩
  have fits := fits_of_stays (by decide +kernel) stays
  have unfit : ¬ WriteBackFits (smallFs 2 16 64) 1920 := by decide +kernel
  exact unfit fits

end TestOs.Fat32
