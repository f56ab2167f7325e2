/-
# Fat32.Geometry -- the clusters that a volume has and the clusters that are allocated

`fat32_extend_file` looks for a free cluster below a bound that it computes from
the data region alone: the number of clusters rounded up, and two.  Nothing
compares the bound with the size of the FAT, and the last cluster of a region
that is no whole number of clusters sticks out of it.  So the allocated clusters
exist exactly when the FAT covers the bound and the region is whole, or when there
is no cluster to allocate (`allocated_exist_iff`).

`fat32_format` computes a volume on which that is so, for every disk of whole
megabytes (`format_geometry_sound`).
-/
import TestOs.Fat32.Claiming
import TestOs.Fat32.EmptyVolume
import TestOs.Fat32.Blocklists

namespace TestOs.Fat32

open TestOs.Library Prog

set_option autoImplicit false

/-! ## Allocated clusters -/

/-- The loop of `fat32_extend_file` takes cluster `j`, in some state of it, on a
machine with this file system. -/
def CanAllocate (f : Fs) (j : Nat) : Prop :=
  ∃ (disk : DiskId) (left i freeIndex : Nat) (s : Machine × FatFile) (t : Machine),
    s.1.fsMem s.2.fs = f ∧ 2 ≤ freeIndex ∧
      Claims disk s.2.fs (clusterBound f) left i freeIndex s t j

/-- Cluster `j` has its entry in the first FAT copy and its sectors in the data region. -/
structure Fs.Backs (f : Fs) (j : Nat) : Prop where
  entry : j < f.fatSectors * 128
  first : f.firstDataCluster.toNat ≤ getDataClusterOffset f (BitVec.ofNat 32 j)
  last : getDataClusterOffset f (BitVec.ofNat 32 j) + f.clusterSectors ≤ f.totalSectors.toNat

/-- There is nothing to allocate: no data region, or one whose number of clusters wraps. -/
def Fs.NoClusters (f : Fs) : Prop :=
  f.dataSectors = 0 ∨ 2 ^ 32 < f.dataSectors + f.clusterSectors ∨
    2 ^ 32 ≤ (f.dataSectors + f.clusterSectors - 1) / f.clusterSectors + 2

/-- The data region is one of whole clusters, and the FAT has an entry for each. -/
structure Fs.Whole (f : Fs) : Prop where
  ordered : f.firstDataCluster.toNat ≤ f.totalSectors.toNat
  whole : f.clusterSectors ∣ f.totalSectors.toNat - f.firstDataCluster.toNat
  covered : (f.totalSectors.toNat - f.firstDataCluster.toNat) / f.clusterSectors + 2 ≤
    f.fatSectors * 128

instance (f : Fs) (j : Nat) : Decidable (f.Backs j) :=
  decidable_of_iff (_ ∧ _ ∧ _) ⟨fun ⟨a, b, c⟩ => ⟨a, b, c⟩, fun ⟨a, b, c⟩ => ⟨a, b, c⟩⟩

section Allocated

variable {disk : DiskId} {fs : FsPtr} {f : Fs}

theorem searchAsks_range {left j k : Nat} {m u : Machine} (asks : SearchAsks disk fs left j m u k) :
    j ≤ k ∧ k < j + left := by
  induction asks with
  | here => omega
  | later _ _ _ ih => omega

theorem claims_range {clusters left i freeIndex k : Nat} {s : Machine × FatFile} {t : Machine}
    (claims : Claims disk fs clusters left i freeIndex s t k) : freeIndex ≤ k ∧ k < clusters := by
  induction claims with
  | here found =>
      obtain ⟨_, asks, -⟩ := searchFree_iff.1 found
      have := searchAsks_range asks
      omega
  | later found _ _ ih =>
      obtain ⟨_, asks, -⟩ := searchFree_iff.1 found
      have := searchAsks_range asks
      omega

theorem word_zeros (i : Nat) : word (fun _ => 0) i = 0 :=
  show (0 : BitVec 8) ++ (0 : BitVec 8) ++ (0 : BitVec 8) ++ (0 : BitVec 8) = (0 : BitVec 32) by
    decide

/-- The clusters that are allocated on a volume are those below the bound. -/
theorem canAllocate_iff {j : Nat} : CanAllocate f j ↔ 2 ≤ j ∧ j < clusterBound f := by
  constructor
  · rintro ⟨disk, left, i, freeIndex, s, t, -, low, claims⟩
    have range := claims_range claims
    exact ⟨by omega, range.2⟩
  · rintro ⟨low, high⟩
    -- a volume with an empty FAT, searched from this cluster on
    let m := Machine.mounted (fun _ => f) fun _ _ => 0
    have reliable : m.Reliable := mounted_reliable _ _
    obtain ⟨value, t, run, same, -⟩ :=
      wp_run (@getNext_of_empty m 0 0 reliable rfl (BitVec.ofNat 32 j))
    have zero : value = 0 := by
      rw [same, entryView_eq_zero]
      exact word_zeros _
    rw [zero] at run
    refine ⟨0, 1, 0, j, (m, emptyFile), t, rfl, low, .here ?_⟩
    have left : clusterBound f - j = clusterBound f - j - 1 + 1 := by omega
    show searchFree 0 0 (clusterBound f - j) j m = _
    rw [left, searchFree_succ run, if_pos rfl]

/-- A call of `fat32_extend_file` is such a state of its loop. -/
theorem extendClaims_canAllocate {newSize j : Nat} {s : Machine × FatFile} {t : Machine}
    (claims : ExtendClaims disk newSize s t j) : CanAllocate (s.1.fsMem s.2.fs) j := by
  obtain ⟨start, -, claims⟩ := claims
  exact canAllocate_iff.2 (claims_range claims)

/-! ## When the allocated clusters exist -/

theorem noClusters_iff (sectors : 0 < f.clusterSectors) : f.NoClusters ↔ clusterBound f ≤ 2 := by
  constructor
  · intro none_
    by_contra more
    obtain ⟨-, fits, bound⟩ := clusterBound_eq (not_le.1 more)
    have small : clusterBound f < 2 ^ 32 := w32_lt _
    rcases none_ with empty | wraps | wraps
    · rw [empty, Nat.zero_add, Nat.div_eq_of_lt (by omega)] at bound
      omega
    · omega
    · omega
  · intro few
    by_contra some_
    unfold Fs.NoClusters at some_
    push Not at some_
    obtain ⟨data, fits, number⟩ := some_
    have one : 1 ≤ (f.dataSectors + f.clusterSectors - 1) / f.clusterSectors :=
      (Nat.le_div_iff_mul_le sectors).2 (by omega)
    have sum : w32 (f.dataSectors + f.clusterSectors + (2 ^ 32 - 1)) =
        f.dataSectors + f.clusterSectors - 1 := by
      unfold w32
      omega
    rw [clusterBound_dataSectors, sum, w32_of_lt number] at few
    omega

theorem ofNat_cluster {j : Nat} (high : j < clusterBound f) : (BitVec.ofNat 32 j).toNat = j := by
  have small : clusterBound f < 2 ^ 32 := w32_lt _
  rw [BitVec.toNat_ofNat, Nat.mod_eq_of_lt (by omega)]

/-- A whole region rounded up is the region. -/
theorem whole_blocks (sectors : 0 < f.clusterSectors)
    (ordered : f.firstDataCluster.toNat ≤ f.totalSectors.toNat)
    (whole : f.clusterSectors ∣ f.totalSectors.toNat - f.firstDataCluster.toNat) :
    (f.dataSectors + f.clusterSectors - 1) / f.clusterSectors =
      (f.totalSectors.toNat - f.firstDataCluster.toNat) / f.clusterSectors := by
  obtain ⟨blocks, size⟩ := whole
  rw [dataSectors_eq ordered, size, Nat.mul_div_cancel_left _ sectors,
    Nat.add_sub_assoc (by omega), Nat.mul_add_div sectors, Nat.div_eq_of_lt (by omega), Nat.add_zero]

theorem backs_of_whole (whole : f.Whole) {j : Nat} (low : 2 ≤ j) (high : j < clusterBound f) :
    f.Backs j := by
  obtain ⟨sectors, -, bound⟩ := clusterBound_eq (lt_of_le_of_lt low high)
  rw [whole_blocks sectors whole.ordered whole.whole] at bound
  have number := ofNat_cluster high
  have offset := @clusterOffset_eq f (BitVec.ofNat 32 j) whole.ordered
    (by rwa [number]) (by rwa [number])
  rw [number] at offset
  have few : j - 2 + 1 ≤
      (f.totalSectors.toNat - f.firstDataCluster.toNat) / f.clusterSectors := by omega
  have inside := (Nat.le_div_iff_mul_le sectors).1 few
  rw [Nat.add_mul, Nat.one_mul, Nat.mul_comm] at inside
  have := whole.ordered
  have := whole.covered
  exact ⟨by omega, by omega, by omega⟩

theorem whole_of_backs (some_ : 2 < clusterBound f)
    (backs : ∀ j, 2 ≤ j → j < clusterBound f → f.Backs j) : f.Whole := by
  obtain ⟨sectors, -, bound⟩ := clusterBound_eq some_
  have ordered : f.firstDataCluster.toNat ≤ f.totalSectors.toNat := by
    have two := backs 2 le_rfl some_
    have := two.first
    have := two.last
    omega
  -- the last cluster decides
  have last := backs (clusterBound f - 1) (by omega) (by omega)
  have number := @ofNat_cluster f (clusterBound f - 1) (by omega)
  have offset := @clusterOffset_eq f (BitVec.ofNat 32 (clusterBound f - 1)) ordered
    (by omega) (by omega)
  have inside := last.last
  have entry := last.entry
  rw [offset, number] at inside
  have whole : f.clusterSectors ∣ f.totalSectors.toNat - f.firstDataCluster.toNat := by
    have blocks : clusterBound f - 1 - 2 + 1 =
        (f.dataSectors + f.clusterSectors - 1) / f.clusterSectors := by omega
    have fits : f.clusterSectors * (clusterBound f - 1 - 2 + 1) ≤
        f.totalSectors.toNat - f.firstDataCluster.toNat := by
      rw [Nat.mul_add, Nat.mul_one]
      omega
    rw [blocks, dataSectors_eq ordered] at fits
    generalize f.totalSectors.toNat - f.firstDataCluster.toNat = region at fits ⊢
    have rounded := Nat.div_add_mod (region + f.clusterSectors - 1) f.clusterSectors
    have rest := Nat.mod_lt (region + f.clusterSectors - 1) sectors
    exact ⟨_, le_antisymm (by omega) fits⟩
  refine ⟨ordered, whole, ?_⟩
  rw [← whole_blocks sectors ordered whole]
  omega

/-- **The clusters that `fat32_extend_file` allocates on a volume exist exactly when
the data region is one of whole clusters which the FAT covers, or has none at all.** -/
theorem allocated_exist_iff {e : Nat} (power : f.clusterSectors = 2 ^ e) :
    (∀ j, CanAllocate f j → f.Backs j) ↔ f.NoClusters ∨ f.Whole := by
  have sectors : 0 < f.clusterSectors := by
    rw [power]
    positivity
  rw [noClusters_iff sectors]
  constructor
  · intro backs
    by_cases few : clusterBound f ≤ 2
    · exact .inl few
    · refine .inr (whole_of_backs (not_le.1 few) fun j low high => ?_)
      exact backs j (canAllocate_iff.2 ⟨low, high⟩)
  · rintro (few | whole) j can
    · obtain ⟨low, high⟩ := canAllocate_iff.1 can
      omega
    · obtain ⟨low, high⟩ := canAllocate_iff.1 can
      exact backs_of_whole whole low high

end Allocated

/-- A megabyte with FAT copies of 16 sectors is such a volume. -/
theorem small_clusters_exist :
    mountFs (bootSector 1 32 2 2048 16) = some (smallFs 2 16 64) ∧
      ∀ j, CanAllocate (smallFs 2 16 64) j → (smallFs 2 16 64).Backs j :=
  ⟨by decide +kernel,
    (@allocated_exist_iff _ 0 (by decide +kernel)).2
      (.inr ⟨by decide +kernel, by decide +kernel, by decide +kernel⟩)⟩

/-- A megabyte with FAT copies of one sector, full but for what is behind them. -/
def crampedVolume : Machine :=
  Machine.mounted (fun _ => smallFs 2 1 34) fun _ i => if i / 512 = 32 then 0xff else 0

/-- The first cluster of a file on it is one without an entry: the FAT has 128. -/
theorem cluster_without_entry :
    mountFs (bootSector 1 32 2 2048 1) = some (smallFs 2 1 34) ∧
      (∃ t, ExtendClaims 0 1 (crampedVolume, emptyFile) t 128) ∧ ¬ (smallFs 2 1 34).Backs 128 := by
  refine ⟨by decide +kernel, ?_, by decide +kernel⟩
  have blocks : (crampedVolume.fsMem emptyFile.fs).blocksNeeded 1 - emptyFile.blocklistSize = 1 := by
    decide +kernel
  have bound : clusterBound (crampedVolume.fsMem emptyFile.fs) = 2016 := by decide +kernel
  obtain ⟨file, reached⟩ := @extendStart_reached 1 (crampedVolume, emptyFile) one_ne_zero
    (by decide +kernel) (by decide +kernel) rfl
  have search : (searchFree 0 0 (2016 - 2) 2 { crampedVolume with mallocs := 1 }).map Prod.fst =
      some (.ok (some 128)) := by decide +kernel
  obtain ⟨⟨r, t⟩, run, rfl⟩ := Option.map_eq_some_iff.1 search
  refine ⟨t, _, reached, ?_⟩
  simp only [blocks, bound]
  exact .here run

/-! ## What fat32_check recovers -/

section Check

variable {m : Machine} {disk : DiskId} {f : Fs}

/-- `f` is mounted from the disk. -/
def Machine.HasMounted (m : Machine) (disk : DiskId) (f : Fs) : Prop :=
  ∃ p, (m.disk disk).fs = some p ∧ m.fsMem p = f

theorem countFree_mounted (sectorSize left sectorCur sectorOff free : Nat) (buffer : Bytes) :
    Preserves (fun t => t.HasMounted disk f)
      (countFree disk sectorSize left sectorCur sectorOff buffer free) := by
  have reads (sector : Nat) (b : Bytes) :
      Preserves (fun t => t.HasMounted disk f) (deviceRead disk sector b 0 1) :=
    keeps_of_wp fun s start => wp_deviceRead.2 ⟨start, trivial⟩
  induction left generalizing sectorCur sectorOff free buffer with
  | zero => exact keeps_pure trivial
  | succ left ih =>
      refine Keeps.ite (fun _ => ?_) fun _ => ih _ _ _ _
      exact (reads _ _).bind fun _ _ => ih _ _ _ _

theorem countDisk_mounted (bpb : Bpb) :
    Preserves (fun t => t.HasMounted disk f) (countDisk disk bpb) := by
  have reads (sector : Nat) (b : Bytes) :
      Preserves (fun t => t.HasMounted disk f) (deviceRead disk sector b 0 1) :=
    keeps_of_wp fun s start => wp_deviceRead.2 ⟨start, trivial⟩
  have divides (x y : Nat) : Preserves (fun t => t.HasMounted disk f) (divide x y) :=
    keeps_ensure.then (keeps_pure trivial)
  refine keeps_ensure.then ((divides _ _).bind fun _ _ => keeps_state.bind fun _ _ =>
    (reads _ _).bind fun _ _ => (countFree_mounted _ _ _ _ _ _).bind fun _ _ => ?_)
  refine keeps_update fun s ⟨p, mounted, holds⟩ => ⟨p, ?_, holds⟩
  simpa using mounted

/-- What `fat32_check` looks at, where its read succeeds. -/
theorem read_mountFs (disk : DiskId) (fault : m.world.fault m.io = none) :
    mountFs (splice (fun _ => 0) 0 (slice (m.disk disk).data (512 * 0))
      (512 * m.transferred 1)) = mountFs (m.disk disk).data := by
  have whole : m.transferred 1 = 1 := by rw [Machine.transferred, fault]
  refine mountFs_congr fun i low => ?_
  rw [whole, splice_inside (by omega) (by omega), slice_apply, Nat.sub_zero, Nat.mul_zero,
    Nat.zero_add]

/-- What `fat32_check` mounts is what it computes from sector 0, if it succeeds. -/
theorem fat32Check_finds (boot : mountFs (m.disk disk).data = some f) :
    wlp (fat32Check disk) (fun _ t => t.HasMounted disk f) (fun _ _ => True) m := by
  unfold fat32Check
  rw [wlp_bind]
  refine wlp_of_wp (wp_deviceRead.2 ?_) (fun _ _ => id) fun _ _ => id
  cases fault : m.world.fault m.io with
  | some done =>
      simp only [Option.isNone_some, Bool.false_eq_true, if_false]
      exact trivial
  | none =>
      have same := (read_mountFs disk fault).trans boot
      simp only [Option.isNone_none, if_true, same]
      unfold mallocFs setDiskFs storeFs
      simp only [wlp_bind, wlp_state, wlp_update, wlp_pure]
      split
      · exact trivial
      · rename_i p memory
        rw [wlp_bind, wlp_update]
        refine wlp_mono ((countDisk_mounted _).wlp ?_) (fun _ _ => And.left) fun _ _ _ => trivial
        exact ⟨p, by simpa using memory, by simp⟩

end Check

/-! ## The geometry of fat32_format -/

/-- The layout of a volume of `total` sectors with FAT copies of `fat` sectors. -/
structure SoundGeometry (total fat : Nat) (f : Fs) : Prop where
  room : 32 + 2 * fat < total
  entries : clusterBound f ≤ 128 * fat
  size : f.totalSectors.toNat = total
  start : f.firstDataCluster.toNat = 32 + 2 * fat
  inside : ∀ j, 2 ≤ j → j < clusterBound f →
    32 + 2 * fat ≤ getDataClusterOffset f (BitVec.ofNat 32 j) ∧
      getDataClusterOffset f (BitVec.ofNat 32 j) < total
  apart : ∀ j k, 2 ≤ j → j < clusterBound f → 2 ≤ k → k < clusterBound f →
    getDataClusterOffset f (BitVec.ofNat 32 j) = getDataClusterOffset f (BitVec.ofNat 32 k) → j = k

section Format

variable {total : Nat}

/-- The number of sectors that `fat32_format` takes for a FAT copy suffices. -/
theorem formatFatSectors_enough (some_ : 2048 ≤ total) (small : total < 2 ^ 23) :
    let fat := formatFatSectors total
    32 + 2 * fat < total ∧ total - (32 + 2 * fat) + 2 ≤ 128 * fat := by
  have fat : formatFatSectors total = (total + 96) / 129 := by
    unfold formatFatSectors w32
    omega
  simp only [fat]
  omega

theorem formatFs_sound (some_ : 2048 ≤ total) (small : total < 2 ^ 23) :
    SoundGeometry total (formatFatSectors total) (formatFs total (formatFatSectors total)) := by
  obtain ⟨room, enough⟩ := formatFatSectors_enough some_ small
  generalize formatFatSectors total = fat at room enough ⊢
  have sectors : (formatFs total fat).clusterSectors = 1 := rfl
  have total_ : (formatFs total fat).totalSectors.toNat = total := by
    show (BitVec.ofNat 32 total).toNat = total
    rw [BitVec.toNat_ofNat, Nat.mod_eq_of_lt (by omega)]
  have start : (formatFs total fat).firstDataCluster.toNat = 32 + 2 * fat := by
    show (BitVec.ofNat 32 (32 + 2 * fat)).toNat = 32 + 2 * fat
    rw [BitVec.toNat_ofNat, Nat.mod_eq_of_lt (by omega)]
  generalize formatFs total fat = f at sectors total_ start ⊢
  have ordered : f.firstDataCluster.toNat ≤ f.totalSectors.toNat := by omega
  have data := dataSectors_eq ordered
  have bound : clusterBound f = total - (32 + 2 * fat) + 2 := by
    rw [clusterBound_dataSectors, sectors, data, total_, start]
    unfold w32
    omega
  have offset : ∀ j, 2 ≤ j → j < clusterBound f →
      getDataClusterOffset f (BitVec.ofNat 32 j) = 32 + 2 * fat + (j - 2) := by
    intro j low high
    have number := ofNat_cluster high
    have place := @clusterOffset_eq f (BitVec.ofNat 32 j) ordered (by rwa [number])
      (by rwa [number])
    rw [place, number, sectors, start, Nat.one_mul]
  refine ⟨room, by omega, total_, start, fun j low high => ?_, fun j k low high low' high' same => ?_⟩
  · rw [offset j low high]
    omega
  · rw [offset j low high, offset k low' high'] at same
    omega

/-- **The geometry that `fat32_format` computes for a disk of whole megabytes is
sound, and `fat32_check` recovers it from the boot sector.** -/
theorem format_geometry_sound {bytes : Nat} (serial : Nat) (positive : 0 < bytes)
    (below : bytes < 2 ^ 32) (megabytes : 2 ^ 20 ∣ bytes) :
    let total := bytes / 512
    let fat := formatFatSectors total
    ∃ f, SoundGeometry total fat f ∧
      ∀ m disk, Holds (m.disk disk).data 0 (formatBpb total fat serial) →
        wlp (fat32Check disk) (fun _ t => t.HasMounted disk f) (fun _ _ => True) m ∧
        (m.Reliable → m.world.noMemory m.mallocs = false →
          ∃ t, fat32Check disk m = some (.ok (), t)) := by
  intro total fat
  obtain ⟨count, rfl⟩ := megabytes
  have some_ : 2048 ≤ total := by omega
  have small : total < 2 ^ 23 := by omega
  refine ⟨formatFs total fat, formatFs_sound some_ small, fun m disk holds => ?_⟩
  have accepts : mountFs (m.disk disk).data = some (formatFs total fat) := by
    rw [← formatBpb_mount serial (by omega)]
    refine mountFs_congr fun i low => ?_
    have first := holds i low
    rwa [Nat.mul_zero, Nat.zero_add] at first
  refine ⟨fat32Check_finds accepts, fun reliable memory => ?_⟩
  obtain ⟨⟨⟩, t, run, -⟩ := wp_run (fat32Check_mounts disk reliable memory accepts rfl)
  exact ⟨t, run⟩

/-- On a disk of one megabyte. -/
theorem format_megabyte :
    ∃ f, SoundGeometry (2 ^ 20 / 512) (formatFatSectors (2 ^ 20 / 512)) f ∧
      ∀ m disk, Holds (m.disk disk).data 0
          (formatBpb (2 ^ 20 / 512) (formatFatSectors (2 ^ 20 / 512)) 0) →
        wlp (fat32Check disk) (fun _ t => t.HasMounted disk f) (fun _ _ => True) m ∧
        (m.Reliable → m.world.noMemory m.mallocs = false →
          ∃ t, fat32Check disk m = some (.ok (), t)) :=
  @format_geometry_sound (2 ^ 20) 0 (by decide) (by decide) (by decide)

end Format

end TestOs.Fat32
