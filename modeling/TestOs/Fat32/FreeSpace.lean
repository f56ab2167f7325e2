/-
# Fat32.FreeSpace -- what fat32_check mounts and counts

`fat32Check_mounts` is the whole effect of `fat32_check` on a volume that it
accepts.  The free space that it reports is the number of zero words that its
loop sees (`countedEntry`), over all sectors of a FAT copy and with a 16-bit
sector number.  `fat32_extend_file` looks at entries elsewhere (`fatEntry`), and
only at those of clusters from 2 to its bound (`clusterBound`).  The two agree
exactly when what one counts and the other does not comes to the same
(`free_space_iff`).
-/
import Mathlib.Data.Nat.Count
import TestOs.Fat32.FatTable
import TestOs.Fat32.Format
import TestOs.Fat32.Files

namespace TestOs.Fat32

open TestOs.Library Prog

set_option autoImplicit false

/-! ## What fat32_check reads -/

section BootSector

variable {b b' : Bytes}

theorem readBpb_congr (same : ∀ i < 512, b i = b' i) : readBpb b = readBpb b' := by
  have half (i : Nat) (low : i < 511) : halfword b i = halfword b' i := by
    unfold halfword
    rw [same i (by omega), same (i + 1) (by omega)]
  have whole (i : Nat) (low : i < 509) : word b i = word b' i :=
    word_congr fun k _ high => same k (by omega)
  unfold readBpb
  rw [half 11 (by decide), half 14 (by decide), half 17 (by decide), half 19 (by decide),
    half 22 (by decide), half 510 (by decide), whole 32 (by decide), whole 36 (by decide),
    whole 44 (by decide), same 13 (by decide), same 16 (by decide), same 66 (by decide)]

theorem mountFs_congr (same : ∀ i < 512, b i = b' i) : mountFs b = mountFs b' := by
  unfold mountFs
  rw [readBpb_congr same]

theorem mountFs_bpb {f : Fs} (accepts : mountFs b = some f) : f.bpb = readBpb b := by
  unfold mountFs at accepts
  simp only [] at accepts
  split at accepts
  · cases accepts
  · cases accepts
    rfl

end BootSector

/-- The word that the loop of `fat32_check` looks at for entry `i`, with 128
entries to a sector. -/
def countedEntry (f : Fs) (data : Bytes) (i : Nat) : BitVec 32 :=
  word data (512 * w16 (f.reservedSectors + i / 128) + 4 * (i % 128))

/-- How many entries it looks at. -/
def entriesEnd (f : Fs) : Nat := w32 (f.fatSectors * 512) / 4

section Count

variable {s : Machine} {disk : DiskId} {f : Fs}

instance (data : Bytes) : DecidablePred fun i => countedEntry f data i = 0 :=
  fun _ => inferInstance

theorem countFree_yields (reliable : s.Reliable) (left i : Nat) {buffer : Bytes}
    (holds : ∀ k < 512, buffer k =
      (s.disk disk).data (512 * w16 (f.reservedSectors + i / 128) + k)) :
    Yields (countFree disk 512 left (w16 (f.reservedSectors + i / 128)) (4 * (i % 128)) buffer
        (Nat.count (fun i => countedEntry f (s.disk disk).data i = 0) i)) s
      (Nat.count (fun i => countedEntry f (s.disk disk).data i = 0) (i + left)) s.toCore := by
  unfold Yields
  induction left generalizing i s buffer with
  | zero => exact ⟨rfl, s.io, s.trace, rfl⟩
  | succ left ih =>
      have below : i % 128 < 128 := Nat.mod_lt _ (by decide)
      have seen : word buffer (4 * (i % 128)) = countedEntry f (s.disk disk).data i := by
        unfold word countedEntry word
        rw [holds _ (by omega), holds _ (by omega), holds _ (by omega), holds _ (by omega)]
        rfl
      have counted : (if word buffer (4 * (i % 128)) = 0 then
            Nat.count (fun i => countedEntry f (s.disk disk).data i = 0) i + 1
          else Nat.count (fun i => countedEntry f (s.disk disk).data i = 0) i) =
          Nat.count (fun i => countedEntry f (s.disk disk).data i = 0) (i + 1) := by
        rw [seen, Nat.count_succ]
        split <;> rfl
      have offset : w16 (4 * (i % 128) + 4) = 4 * (i % 128) + 4 := Nat.mod_eq_of_lt (by omega)
      have total : i + (left + 1) = i + 1 + left := by omega
      simp only [countFree, counted, offset, total]
      by_cases last : 512 ≤ 4 * (i % 128) + 4
      · -- the next entry is the first one of the next sector
        have sector : w16 (w16 (f.reservedSectors + i / 128) + 1) =
            w16 (f.reservedSectors + (i + 1) / 128) := by
          have next : (i + 1) / 128 = i / 128 + 1 := by omega
          rw [next]
          unfold w16
          omega
        have start : 4 * ((i + 1) % 128) = 0 := by omega
        simp only [if_pos last, wp_bind, wp_deviceRead, sector]
        rw [← start]
        refine wp_mono (ih (s := s.ran s.toCore (s.io + 1) s.trace) reliable.ran (i + 1)
          fun k low => ?_) ?_ (fun _ _ never => never)
        · rw [reliable.transferred, start, splice_inside (by omega) (by omega), Nat.sub_zero]
          rfl
        · rintro count t ⟨rfl, io, trace, rfl⟩
          exact ⟨rfl, io, trace, rfl⟩
      · have same : (i + 1) / 128 = i / 128 := by omega
        have offset' : 4 * (i % 128) + 4 = 4 * ((i + 1) % 128) := by omega
        simp only [if_neg last]
        rw [offset', ← same]
        exact ih reliable (i + 1) (by rwa [same])

end Count

/-! ## The effect of fat32_check -/

/-- After `disk->free` and `disk->used` have been set. -/
def Core.withFree (c : Core) (disk : DiskId) (free : Nat) : Core :=
  { c with
    disk := Function.update c.disk disk
      { c.disk disk with free := free, used := w32 ((c.disk disk).total + 2 ^ 32 - free) } }

/-- After `fat32_check` has mounted `f` at `p`. -/
def Core.withFs (c : Core) (disk : DiskId) (p : FsPtr) (f : Fs) : Core :=
  { c with
    disk := Function.update c.disk disk { c.disk disk with fs := some p }
    fsMem := Function.update c.fsMem p f }

/-- The free bytes that `fat32_check` reports. -/
def reportedFree (f : Fs) (data : Bytes) : Nat :=
  w32 (Nat.count (fun i => countedEntry f data i = 0) (entriesEnd f) * f.clusterSectors * 512)

section Check

variable {s : Machine} {disk : DiskId} {f : Fs}

theorem countDisk_yields (reliable : s.Reliable) (sectorSize : f.bpb.sectorSize = 512) :
    Yields (countDisk disk f.bpb) s ()
      (s.toCore.withFree disk (reportedFree f (s.disk disk).data)) := by
  have size : f.bpb.sectorSize.toNat = 512 := by rw [sectorSize]; rfl
  have first : f.bpb.reservedSectors.toNat * 512 / 512 = f.reservedSectors :=
    Nat.mul_div_cancel _ (by decide)
  have offset : f.bpb.reservedSectors.toNat * 512 % 512 = 0 := Nat.mul_mod_left ..
  have small := f.reservedSectors_lt
  unfold Yields countDisk
  simp only [wp_bind, wp_ensure, wp_divide, wp_state, wp_deviceRead, wp_update, size, first, offset]
  refine ⟨by unfold Fs.reservedSectors at small; omega, by decide, ?_⟩
  have holds : ∀ k < 512, splice (s.world.stray s.io) 0 (slice (s.disk disk).data
      (512 * w16 f.reservedSectors)) (512 * s.transferred 1) k =
      (s.disk disk).data (512 * w16 (f.reservedSectors + 0 / 128) + k) := by
    intro k low
    rw [reliable.transferred, splice_inside (by omega) (by omega), Nat.sub_zero]
    rfl
  refine wp_mono (countFree_yields (s := s.ran s.toCore (s.io + 1) s.trace) reliable.ran
    (entriesEnd f) 0 holds) ?_ (fun _ _ never => never)
  rintro count t ⟨rfl, io, trace, rfl⟩
  refine ⟨trivial, io, trace, ?_⟩
  simp only [Nat.zero_add]
  rfl

theorem fat32Check_mounts (disk : DiskId) (reliable : s.Reliable) (memory : s.world.noMemory s.mallocs = false)
    (accepts : mountFs (s.disk disk).data = some f) (sectorSize : f.bpb.sectorSize = 512) :
    wp (fat32Check disk)
      (fun _ t => t.world = s.world ∧ t.toCore =
        (s.toCore.withFs disk (s.world.address s.mallocs) f).withFree disk
          (reportedFree f (s.disk disk).data))
      (fun _ _ => False) s := by
  have boot : mountFs (splice (fun _ => 0) 0 (slice (s.disk disk).data (512 * 0))
      (512 * s.transferred 1)) = some f := by
    rw [← accepts]
    refine mountFs_congr fun i low => ?_
    rw [reliable.transferred, splice_inside (by omega) (by omega), slice_apply, Nat.sub_zero,
      Nat.mul_zero, Nat.zero_add]
  have data : ((s.toCore.withFs disk (s.world.address s.mallocs) f).disk disk).data =
      (s.disk disk).data := by
    simp [Core.withFs]
  unfold fat32Check
  simp only [wp_bind, wp_deviceRead, reliable.isNone, if_true, boot, mallocFs, wp_state, wp_update,
    wp_pure, ran_world, ran_mallocs, memory, Bool.false_eq_true, if_false, setDiskFs, storeFs]
  refine wp_mono (countDisk_yields (f := f) (by exact reliable) sectorSize) ?_
    (fun _ _ never => never)
  rintro - t ⟨-, io, trace, rfl⟩
  refine ⟨rfl, ?_⟩
  rw [← data]
  rfl

end Check

/-! ## What the allocator sees -/

/-- `num_clusters` of `fat32_extend_file`. -/
def clusterBound (f : Fs) : Nat :=
  w32 (w32 (w32 (f.totalSectors.toNat + (2 ^ 32 - f.firstDataCluster.toNat)) + f.clusterSectors +
    (2 ^ 32 - 1)) / f.clusterSectors + 2)

/-- `total_sectors - first_data_cluster` in 32-bit arithmetic. -/
def Fs.dataSectors (f : Fs) : Nat :=
  w32 (f.totalSectors.toNat + (2 ^ 32 - f.firstDataCluster.toNat))

section Clusters

variable {f : Fs} {cluster : BitVec 32}

theorem dataSectors_lt : f.dataSectors < 2 ^ 32 := w32_lt _

theorem dataSectors_eq (inside : f.firstDataCluster.toNat ≤ f.totalSectors.toNat) :
    f.dataSectors = f.totalSectors.toNat - f.firstDataCluster.toNat := by
  have := f.totalSectors.isLt
  unfold Fs.dataSectors w32
  omega

theorem clusterBound_dataSectors : clusterBound f =
    w32 (w32 (f.dataSectors + f.clusterSectors + (2 ^ 32 - 1)) / f.clusterSectors + 2) := rfl

/-- A bound above 2 has not wrapped. -/
theorem clusterBound_eq (some_ : 2 < clusterBound f) :
    0 < f.clusterSectors ∧ f.dataSectors + f.clusterSectors ≤ 2 ^ 32 ∧
      clusterBound f = (f.dataSectors + f.clusterSectors - 1) / f.clusterSectors + 2 := by
  have sectors : 0 < f.clusterSectors := by
    rw [Nat.pos_iff_ne_zero]
    intro none_
    rw [clusterBound_dataSectors, none_, Nat.div_zero] at some_
    exact absurd some_ (by decide)
  have cluster := f.bpb.clusterSectors.isLt
  change f.clusterSectors < 2 ^ 8 at cluster
  have data : f.dataSectors < 2 ^ 32 := dataSectors_lt
  have fits : f.dataSectors + f.clusterSectors ≤ 2 ^ 32 := by
    by_contra wraps
    have low : w32 (f.dataSectors + f.clusterSectors + (2 ^ 32 - 1)) < f.clusterSectors := by
      unfold w32
      omega
    rw [clusterBound_dataSectors, Nat.div_eq_of_lt low] at some_
    exact absurd some_ (by decide)
  have sum : w32 (f.dataSectors + f.clusterSectors + (2 ^ 32 - 1)) =
      f.dataSectors + f.clusterSectors - 1 := by
    unfold w32
    omega
  refine ⟨sectors, fits, ?_⟩
  rw [clusterBound_dataSectors, sum] at some_ ⊢
  have le := Nat.div_le_self (f.dataSectors + f.clusterSectors - 1) f.clusterSectors
  generalize (f.dataSectors + f.clusterSectors - 1) / f.clusterSectors = blocks at some_ le ⊢
  unfold w32 at some_ ⊢
  omega

/-- A cluster of the allocator starts in the data region. -/
theorem cluster_starts {j : Nat} (low : 2 ≤ j) (high : j < clusterBound f) :
    f.clusterSectors * (j - 2) < f.dataSectors := by
  obtain ⟨sectors, -, bound⟩ := clusterBound_eq (lt_of_le_of_lt low high)
  have few : j - 2 + 1 ≤ (f.dataSectors + f.clusterSectors - 1) / f.clusterSectors := by omega
  have fits := (Nat.le_div_iff_mul_le sectors).1 few
  rw [Nat.add_mul, Nat.one_mul, Nat.mul_comm] at fits
  omega

/-- The clusters follow each other from `first_data_cluster` on. -/
theorem clusterOffset_eq (inside : f.firstDataCluster.toNat ≤ f.totalSectors.toNat)
    (low : 2 ≤ cluster.toNat) (high : cluster.toNat < clusterBound f) :
    getDataClusterOffset f cluster =
      f.firstDataCluster.toNat + f.clusterSectors * (cluster.toNat - 2) := by
  have starts := cluster_starts low high
  rw [dataSectors_eq inside] at starts
  have total := f.totalSectors.isLt
  have minus : (cluster - 2).toNat = cluster.toNat - 2 := by bv_omega
  have count : (f.bpb.clusterSectors.setWidth 32).toNat = f.clusterSectors := by
    have := f.bpb.clusterSectors.isLt
    rw [BitVec.toNat_setWidth, Nat.mod_eq_of_lt (by omega)]
    rfl
  rw [getDataClusterOffset, BitVec.toNat_add, BitVec.toNat_mul, minus, count,
    Nat.mod_eq_of_lt (by omega : f.clusterSectors * (cluster.toNat - 2) < 2 ^ 32),
    Nat.mod_eq_of_lt (by omega)]

end Clusters

/-- The word that `get_next_cluster_fat32` looks at. -/
def fatEntry (f : Fs) (data : Bytes) (cluster : BitVec 32) : BitVec 32 :=
  word data (512 * f.entrySector cluster + fat32Offset cluster)

/-- The clusters that `fat32_extend_file` can still allocate. -/
def allocatable (f : Fs) (data : Bytes) : Finset Nat :=
  (Finset.range (clusterBound f)).filter fun j =>
    2 ≤ j ∧ fatEntry f data (BitVec.ofNat 32 j) = 0

/-- The entries that `fat32_check` counts as free. -/
def counted (f : Fs) (data : Bytes) : Finset Nat :=
  (Finset.range (entriesEnd f)).filter fun i => countedEntry f data i = 0

theorem entryView_eq_zero {value : BitVec 32} : entryView value = 0 ↔ value = 0 := by
  unfold entryView
  split
  · rename_i large
    constructor
    · intro zero
      exact absurd (BitVec.or_eq_zero_iff.1 zero).2 (by decide)
    · rintro rfl
      exact absurd large (by decide)
  · exact Iff.rfl

section Allocator

variable {s : Machine} {disk : DiskId} {fs : FsPtr} {f : Fs} {data : Bytes}

/-- With an empty buffer, `get_next_cluster_fat32` returns the entry on the disk. -/
theorem getNext_of_empty (reliable : s.Reliable) (empty : s.bufFs = none) (cluster : BitVec 32) :
    Yields (getNextClusterFat32 disk fs cluster) s
      (entryView (fatEntry (s.fsMem fs) (s.disk disk).data cluster))
      (s.toCore.loaded disk fs ((s.fsMem fs).entrySector cluster)) := by
  have fetched : s.toCore.fetched disk fs ((s.fsMem fs).entrySector cluster) =
      s.toCore.loaded disk fs ((s.fsMem fs).entrySector cluster) := by
    rw [Core.fetched, if_neg (by simp [empty]), Core.evicted, if_neg (by simp [empty])]
  have value : word (s.toCore.loaded disk fs ((s.fsMem fs).entrySector cluster)).buf
      (fat32Offset cluster) = fatEntry (s.fsMem fs) (s.disk disk).data cluster := by
    have offset := fat32Offset_le cluster
    rw [fatEntry, ← word_slice]
    refine word_congr fun k low high => ?_
    change splice s.buf 0 _ 1024 k = _
    rw [splice_inside (by omega) (by omega), Nat.sub_zero]
  have yields := getNextClusterFat32_yields disk fs cluster reliable
  simp only [fetched, value] at yields
  exact yields

/-- The search of `fat32_extend_file` takes such a cluster for free exactly when
it is `allocatable`. -/
theorem getNext_eq_zero_iff (reliable : s.Reliable) (empty : s.bufFs = none) {j : Nat}
    (low : 2 ≤ j) (high : j < clusterBound (s.fsMem fs)) :
    wp (getNextClusterFat32 disk fs (BitVec.ofNat 32 j))
      (fun value _ => value = 0 ↔ j ∈ allocatable (s.fsMem fs) (s.disk disk).data)
      (fun _ _ => False) s := by
  refine wp_mono (getNext_of_empty reliable empty _) ?_ (fun _ _ never => never)
  rintro value t ⟨rfl, -⟩
  rw [entryView_eq_zero, allocatable, Finset.mem_filter, Finset.mem_range]
  exact ⟨fun zero => ⟨high, low, zero⟩, fun free => free.2.2⟩

end Allocator

/-! ## The two compared -/

/-- What the report and the allocator differ by comes to the same bytes, and the
allocator's share can be reported in 32 bits. -/
def FreeAgrees (f : Fs) (data : Bytes) : Prop :=
  f.clusterSize * (allocatable f data).card < 2 ^ 32 ∧
    f.clusterSize * (counted f data \ allocatable f data).card ≡
      f.clusterSize * (allocatable f data \ counted f data).card [MOD 2 ^ 32]

instance (f : Fs) (data : Bytes) : Decidable (FreeAgrees f data) :=
  inferInstanceAs (Decidable (_ ∧ _))

section Compared

variable {f : Fs} {data : Bytes}

theorem reportedFree_eq : reportedFree f data = w32 (f.clusterSize * (counted f data).card) := by
  rw [reportedFree, Nat.count_eq_card_filter_range, Fs.clusterSize, counted]
  congr 1
  ring

/-- Counting a set is counting another, with what only the one has instead of
what only the other has. -/
theorem card_sdiff_swap {α : Type} [DecidableEq α] (a b : Finset α) :
    a.card + (b \ a).card = b.card + (a \ b).card := by
  rw [Nat.add_comm a.card, Nat.add_comm b.card, Finset.card_sdiff_add_card,
    Finset.card_sdiff_add_card, Finset.union_comm]

theorem reportedFree_iff :
    reportedFree f data = f.clusterSize * (allocatable f data).card ↔ FreeAgrees f data := by
  have swap := congrArg (f.clusterSize * ·) (card_sdiff_swap (counted f data) (allocatable f data))
  simp only [Nat.mul_add] at swap
  rw [reportedFree_eq, FreeAgrees, w32]
  generalize f.clusterSize * (counted f data).card = n at swap ⊢
  generalize f.clusterSize * (allocatable f data).card = m at swap ⊢
  generalize f.clusterSize * (counted f data \ allocatable f data).card = extra at swap ⊢
  generalize f.clusterSize * (allocatable f data \ counted f data).card = missed at swap ⊢
  unfold Nat.ModEq
  omega

/-- Where the FAT has an entry for every cluster and its sector numbers fit 16 bits,
nothing is overlooked, and what is counted too much are the zeros among the two
reserved entries and those behind the last cluster. -/
theorem sdiff_regular (sectors : f.reservedSectors + f.fatSectors ≤ 2 ^ 16)
    (covers : clusterBound f ≤ f.fatSectors * 128) :
    allocatable f data \ counted f data = ∅ ∧
      ∀ i, i ∈ counted f data \ allocatable f data ↔
        i < f.fatSectors * 128 ∧ (i < 2 ∨ clusterBound f ≤ i) ∧
          fatEntry f data (BitVec.ofNat 32 i) = 0 := by
  have entries : entriesEnd f = f.fatSectors * 128 := by
    unfold entriesEnd
    rw [w32_of_lt (by omega)]
    omega
  have same (i : Nat) (low : i < f.fatSectors * 128) :
      countedEntry f data i = fatEntry f data (BitVec.ofNat 32 i) := by
    have small : (BitVec.ofNat 32 i).toNat = i := by simp; omega
    rw [countedEntry, fatEntry, entrySector_eq, fat32Sector, fat32Offset, small,
      w32_of_lt (by omega), w16, Nat.mod_eq_of_lt (by omega)]
    congr 1
    omega
  refine ⟨Finset.sdiff_eq_empty_iff_subset.2 fun j free => ?_, fun i => ?_⟩
  · simp only [allocatable, Finset.mem_filter, Finset.mem_range] at free
    simp only [counted, Finset.mem_filter, Finset.mem_range, entries]
    exact ⟨by omega, by rw [same j (by omega)]; exact free.2.2⟩
  · simp only [allocatable, counted, Finset.mem_sdiff, Finset.mem_filter, Finset.mem_range, entries,
      not_and]
    constructor
    · rintro ⟨⟨low, zero⟩, other⟩
      rw [same i low] at zero
      refine ⟨low, ?_, zero⟩
      by_contra inside
      exact other (by omega) (by omega) zero
    · rintro ⟨low, outside, zero⟩
      exact ⟨⟨low, by rwa [same i low]⟩, fun _ _ => by omega⟩

end Compared

section Report

variable {s : Machine} {f : Fs}

theorem fat32Check_free (disk : DiskId) (reliable : s.Reliable)
    (memory : s.world.noMemory s.mallocs = false)
    (accepts : mountFs (s.disk disk).data = some f) (sectorSize : f.bpb.sectorSize = 512) :
    ∃ t, fat32Check disk s = some (.ok (), t) ∧
      (t.disk disk).free = reportedFree f (s.disk disk).data := by
  obtain ⟨⟨⟩, t, run, -, core⟩ := wp_run (fat32Check_mounts disk reliable memory accepts sectorSize)
  exact ⟨t, run, by simp [core, Core.withFree]⟩

/-- **The free space that fat32_check reports is that of the clusters which
fat32_extend_file can allocate exactly when the zero entries that only one of the
two counts come to the same number of bytes.**  Where the FAT covers the clusters
and its sector numbers fit 16 bits, those are the zeros of entries 0 and 1 and of
the slack behind the last cluster. -/
theorem free_space_iff (disk : DiskId) (reliable : s.Reliable) (memory : s.world.noMemory s.mallocs = false)
    (accepts : mountFs (s.disk disk).data = some f) (sectorSize : f.bpb.sectorSize = 512) :
    (∃ t, fat32Check disk s = some (.ok (), t) ∧
        ((t.disk disk).free = f.clusterSize * (allocatable f (s.disk disk).data).card ↔
          FreeAgrees f (s.disk disk).data)) ∧
      (f.reservedSectors + f.fatSectors ≤ 2 ^ 16 → clusterBound f ≤ f.fatSectors * 128 →
        allocatable f (s.disk disk).data \ counted f (s.disk disk).data = ∅ ∧
        ∀ i, i ∈ counted f (s.disk disk).data \ allocatable f (s.disk disk).data ↔
          i < f.fatSectors * 128 ∧ (i < 2 ∨ clusterBound f ≤ i) ∧
            fatEntry f (s.disk disk).data (BitVec.ofNat 32 i) = 0) := by
  refine ⟨?_, sdiff_regular⟩
  obtain ⟨t, run, free⟩ := fat32Check_free disk reliable memory accepts sectorSize
  exact ⟨t, run, by rw [free]; exact reportedFree_iff⟩

/-- A volume of 100 sectors with one FAT sector of 128 entries for 67 clusters. -/
def tinyFs : Fs where
  bpb := readBpb (bootSector 1 32 1 100 1)
  totalSectors := 100
  firstDataCluster := 33

/-- It, with a FAT of zeros. -/
def blankVolume : Machine := Machine.mounted (fun _ => tinyFs) fun _ => bootSector 1 32 1 100 1

theorem blankVolume_reliable : blankVolume.Reliable := mounted_reliable _ _

theorem blankVolume_memory : blankVolume.world.noMemory blankVolume.mallocs = false := rfl

theorem blankVolume_sectorSize : tinyFs.bpb.sectorSize = 512 := by decide +kernel

theorem blankVolume_accepted : mountFs (blankVolume.disk 0).data = some tinyFs := by
  decide +kernel

theorem free_space_iff_blank :
    ∃ t, fat32Check 0 blankVolume = some (.ok (), t) ∧
      ((t.disk 0).free = tinyFs.clusterSize *
          (allocatable tinyFs (blankVolume.disk 0).data).card ↔
        FreeAgrees tinyFs (blankVolume.disk 0).data) :=
  (free_space_iff 0 blankVolume_reliable blankVolume_memory blankVolume_accepted
    blankVolume_sectorSize).1

theorem blankVolume_reported :
    reportedFree tinyFs (blankVolume.disk 0).data = 512 * 128 := by
  decide +kernel

/-- The entries behind the last cluster are counted as free space, and entries 0 and 1. -/
theorem free_space_overcounts :
    (∃ t, fat32Check 0 blankVolume = some (.ok (), t) ∧ (t.disk 0).free = 512 * 128) ∧
    tinyFs.clusterSize *
      (allocatable tinyFs (blankVolume.disk 0).data).card = 512 * 67 := by
  refine ⟨?_, by decide +kernel⟩
  rw [← blankVolume_reported]
  exact fat32Check_free 0 blankVolume_reliable blankVolume_memory blankVolume_accepted
    blankVolume_sectorSize

end Report

end TestOs.Fat32
