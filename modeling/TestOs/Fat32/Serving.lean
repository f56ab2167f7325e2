/-
# Fat32.Serving -- a volume that is only looked at

Opening a file or a directory reads the FAT and clusters.  `Serves` is what that
needs of the volume: an invariant of the machine under which each entry of the
FAT is a fixed value, allocations succeed, and the bytes of some clusters are
fixed.  Then opening a file ends, with its chain as blocklist (`Serves.opens`),
and loading a directory ends with its bytes (`Serves.loads`).

With a clean FAT buffer a volume serves what its disk has (`looked_serves`).
-/
import TestOs.Fat32.Blocklists
import TestOs.Fat32.Opening

namespace TestOs.Fat32

open TestOs.Library Prog

set_option autoImplicit false

/-- What opening asks of a volume. -/
structure Serves (disk : DiskId) (fs : FsPtr) (f : Fs) (next : BitVec 32 → BitVec 32)
    (asked : BitVec 32 → Prop) (data : Bytes) (visible : Nat → Prop) (inv : Machine → Prop) :
    Prop where
  mounted : ∀ s, inv s → (s.disk disk).fs = some fs
  fsMem : ∀ s, inv s → s.fsMem fs = f
  reliable : ∀ s, inv s → s.Reliable
  ample : ∀ s, inv s → s.Ample
  moves : ∀ s io trace, inv s → inv (s.ran s.toCore io trace)
  allocates : ∀ s, inv s → inv { s with mallocs := s.mallocs + 1 }
  gets : ∀ s cluster, inv s → asked cluster →
    wp (getNextClusterFat32 disk fs cluster) (fun value t => value = next cluster ∧ inv t)
      (fun _ _ => False) s
  bytes : ∀ s, inv s → ∀ i, visible i → (s.disk disk).data i = data i

/-- A chain whose entries and bytes the volume serves. -/
structure Served (f : Fs) (next : BitVec 32 → BitVec 32) (asked : BitVec 32 → Prop)
    (visible : Nat → Prop) (chain : Blocklist) (count : Nat) : Prop where
  isChain : TableChain next EndMark chain count
  asked : ∀ i < count, asked (chain i)
  few : count ≤ 2 ^ 30
  valid : ∀ i < count, f.DataCluster (chain i)
  visible : ∀ i < count, ∀ j, f.InCluster (chain i) j → visible j

namespace Served

variable {f : Fs} {next : BitVec 32 → BitVec 32} {asked : BitVec 32 → Prop} {visible : Nat → Prop}
  {chain : Blocklist} {count : Nat}

theorem nonzero (served : Served f next asked visible chain count) {i : Nat} (inChain : i < count) :
    chain i ≠ 0 := by
  intro zero
  have two := (served.valid i inChain).1
  rw [zero] at two
  exact absurd two (by decide)

theorem blocks (served : Served f next asked visible chain count) : Blocks f chain count where
  valid := served.valid
  distinct _ inChain _ inChain' same := served.isChain.distinct inChain inChain' same

end Served

section Opening

variable {disk : DiskId} {fs : FsPtr} {f : Fs} {next : BitVec 32 → BitVec 32}
  {asked : BitVec 32 → Prop} {data : Bytes} {visible : Nat → Prop} {inv : Machine → Prop}
  (serves : Serves disk fs f next asked data visible inv)

namespace Serves

include serves

theorem malloc {s : Machine} (start : inv s) :
    wp mallocBlocklist (fun memory t => (∃ garbage, memory = some garbage) ∧ inv t)
      (fun _ _ => False) s := by
  unfold mallocBlocklist
  simp only [wp_bind, wp_state, wp_update, wp_pure, serves.ample s start s.mallocs,
    Bool.false_eq_true, if_false]
  exact ⟨⟨_, rfl⟩, serves.allocates s start⟩

theorem mallocs {s : Machine} (start : inv s) :
    wp mallocMemory (fun memory t => memory = true ∧ inv t) (fun _ _ => False) s := by
  unfold mallocMemory
  rw [wp_bind]
  refine wp_mono (serves.malloc start) ?_ (fun _ _ never => never)
  rintro _ t ⟨⟨garbage, rfl⟩, kept⟩
  exact ⟨rfl, kept⟩

theorem realloc {s : Machine} (start : inv s) (old : Blocklist) (keep : Nat) :
    wp (reallocBlocklist (some old) keep)
      (fun memory t => (∃ longer, memory = some longer ∧ ∀ i < keep, longer i = old i) ∧ inv t)
      (fun _ _ => False) s := by
  unfold reallocBlocklist
  rw [wp_bind]
  refine wp_mono (serves.malloc start) ?_ (fun _ _ never => never)
  rintro _ t ⟨⟨garbage, rfl⟩, kept⟩
  exact ⟨⟨_, rfl, fun i low => if_pos low⟩, kept⟩

/-- The walk along a chain comes to its end. -/
theorem openLoop {chain : Blocklist} {count : Nat} (isChain : TableChain next EndMark chain count)
    (ask : ∀ i < count, asked (chain i)) (few : count ≤ 2 ^ 30)
    (nonzero : ∀ i < count, chain i ≠ 0) {guess fuel i size : Nat} {blocklist : Blocklist} {s : Machine} (start : inv s)
    (enough : count < fuel + i) (read : 1 ≤ i) (inChain : i ≤ count)
    (walked : Walked chain guess i size blocklist) :
    wp (openLoop disk fs fuel i size blocklist)
      (fun result t => (result.2.2 = count ∧ Walked chain guess count result.2.1 result.1) ∧ inv t)
      (fun _ _ => False) s := by
  induction fuel generalizing s i size blocklist with
  | zero => omega
  | succ fuel ih =>
      unfold Fat32.openLoop
      rw [wp_bind, walked.last]
      refine wp_mono (serves.gets s _ start (ask (i - 1) (by omega))) ?_
        (fun _ _ never => never)
      rintro cluster t ⟨rfl, kept⟩
      by_cases last : i = count
      · subst last
        have ends : 0xfffffff8 ≤ (next (chain (i - 1))).toNat := isChain.ends
        have marked : next (chain (i - 1)) ≠ 0 := by
          intro zero
          rw [zero] at ends
          exact absurd ends (by decide)
        rw [if_neg marked, if_pos ends]
        exact ⟨⟨rfl, walked⟩, kept⟩
      · have place : i - 1 + 1 = i := by omega
        have link := isChain.links (i - 1) (by omega)
        have going : ¬ 0xfffffff8 ≤ (chain (i - 1 + 1)).toNat := isChain.going (i - 1) (by omega)
        rw [place] at link going
        rw [link, if_neg (nonzero _ (by omega)), if_neg going]
        by_cases full : size ≤ i
        · rw [if_pos full, wp_bind]
          refine wp_mono (serves.realloc kept _ _) ?_ (fun _ _ never => never)
          rintro _ u ⟨⟨longer, rfl, same⟩, kept⟩
          refine ih kept (by omega) (by omega) (by omega) ?_
          rw [w32_of_lt (by omega)]
          exact walked.double read full same
        · rw [if_neg full]
          exact ih kept (by omega) (by omega) (by omega) (walked.store (by omega))

/-- Opening a file recovers its chain. -/
theorem openChain {chain : Blocklist} {count : Nat} (isChain : TableChain next EndMark chain count)
    (ask : ∀ i < count, asked (chain i)) (few : count ≤ 2 ^ 30)
    (nonzero : ∀ i < count, chain i ≠ 0) {entry : DirEntry} (first : entry.firstCluster = chain 0)
    (sized : 0 < entry.size → f.clusterSize ≠ 0) {s : Machine} (start : inv s) :
    wp (fat32FileOpenByDirEntry disk entry)
      (fun file t => Recovered fs f entry chain count file ∧ inv t) (fun _ _ => False) s := by
  have some_ := isChain.some_
  unfold fat32FileOpenByDirEntry
  rw [wp_bind, wp_mountedFs (serves.mounted s start), wp_bind, wp_readFs, serves.fsMem s start,
    if_neg (by rw [first]; exact nonzero 0 some_), wp_bind]
  have blocks : wp (if 0 < entry.size then numClusters entry.size f.clusterSize else pure 1)
      (fun n u => n = f.guessedBlocks entry.size ∧ u = s) (fun _ _ => False) s := by
    unfold Fs.guessedBlocks numClusters
    by_cases positive : 0 < entry.size
    · rw [if_pos positive, if_pos positive, wp_divide]
      exact ⟨sized positive, rfl, rfl⟩
    · rw [if_neg positive, if_neg positive]
      exact ⟨rfl, rfl⟩
  refine wp_mono blocks ?_ (fun _ _ never => never)
  rintro _ _ ⟨rfl, rfl⟩
  rw [wp_bind]
  refine wp_mono (serves.malloc start) ?_ (fun _ _ never => never)
  rintro _ u ⟨⟨garbage, rfl⟩, kept⟩
  have walked := @Walked.start chain (f.guessedBlocks entry.size) garbage _ first
  rw [wp_bind]
  refine wp_mono (serves.openLoop isChain ask few nonzero kept (by unfold chainFuel; omega) le_rfl
    some_ walked) ?_
    (fun _ _ never => never)
  rintro ⟨blocklist, size, clusters⟩ v ⟨⟨length, walked⟩, kept⟩
  have length : clusters = count := length
  subst length
  exact ⟨⟨rfl, rfl, rfl, blocklist, rfl, walked⟩, kept⟩

theorem opens {chain : Blocklist} {count : Nat} (served : Served f next asked visible chain count)
    {entry : DirEntry} (first : entry.firstCluster = chain 0)
    (sized : 0 < entry.size → f.clusterSize ≠ 0) {s : Machine} (start : inv s) :
    wp (fat32FileOpenByDirEntry disk entry)
      (fun file t => Recovered fs f entry chain count file ∧ inv t) (fun _ _ => False) s :=
  serves.openChain served.isChain served.asked served.few (fun _ inChain => served.nonzero inChain)
    first sized start

/-- An entry without a cluster is opened without a blocklist. -/
theorem opensEmpty {entry : DirEntry} (first : entry.firstCluster = 0) {s : Machine} (start : inv s) :
    wp (fat32FileOpenByDirEntry disk entry)
      (fun file t => file = { fs := fs, size := entry.size, blocklistSize := 0, blocklist := none
                              dirEntry := entry } ∧ inv t)
      (fun _ _ => False) s := by
  unfold fat32FileOpenByDirEntry
  rw [wp_bind, wp_mountedFs (serves.mounted s start), wp_bind, wp_readFs, if_pos first]
  exact ⟨rfl, start⟩

/-- The bytes of a chain, through any blocklist with its clusters. -/
theorem view {chain blocks : Blocklist} {count : Nat}
    (served : Served f next asked visible chain count) (same : ∀ i < count, blocks i = chain i)
    {s : Machine} (start : inv s) {j : Nat} (below : j < count * f.clusterSize) :
    fileView f blocks (s.disk disk).data j = fileView f chain data j := by
  have sized : 0 < f.clusterSize := Nat.pos_of_mul_pos_left (by omega : 0 < count * f.clusterSize)
  have block : j / f.clusterSize < count := Nat.div_lt_of_lt_mul (by rwa [Nat.mul_comm])
  have rest := Nat.mod_lt j sized
  unfold fileView
  rw [same _ block]
  exact serves.bytes s start _ (served.visible _ block _ ⟨by omega, by omega⟩)

/-- Loading the entries of a directory reads its bytes; a size from 2 GB on is taken
for an error. -/
theorem loads {chain : Blocklist} {count : Nat} (served : Served f next asked visible chain count)
    (power : PowerOfTwo f) {entry : DirEntry} {file : FatFile}
    (recovered : Recovered fs f entry chain count file) (guess : 0 < f.guessedBlocks entry.size)
    (inside : file.size ≤ count * f.clusterSize) (small : file.size < 2 ^ 32) {s : Machine}
    (start : inv s) :
    wp (loadEntries disk file)
      (fun buf t => (file.size < 2 ^ 31 ∧ ∀ j < file.size, buf j = fileView f chain data j) ∧ inv t)
      (fun e t => (2 ^ 31 ≤ file.size ∧ e = .eio) ∧ inv t) s := by
  obtain ⟨blocks, list, walked⟩ := recovered.list
  have same := walked.same guess
  have opened : OpenFile f file blocks count :=
    ⟨served.blocks.congr same, list, walked.room guess⟩
  unfold loadEntries
  simp only [wp_bind, wp_state]
  refine wp_mono (serves.mallocs start) ?_ (fun _ _ never => never.elim)
  rintro _ t ⟨rfl, kept⟩
  rw [wp_ensure]
  refine ⟨rfl, ?_⟩
  have isFs := serves.fsMem t kept
  have reads := reads_back (serves.reliable t kept) (serves.mounted t kept)
    (by rw [isFs]; exact opened) (by rw [isFs]; exact power) (by rw [isFs]; exact inside) small
    (fun _ _ => rfl) 0 file.size (s.world.stray s.io) (by omega)
  refine wp_mono reads ?_ (fun _ _ never => never.elim)
  rintro ⟨ret, bytes⟩ u ⟨eq, io, trace, rfl⟩
  obtain ⟨rfl, rfl⟩ := Prod.mk.inj eq
  have moved := serves.moves t io trace kept
  dsimp only
  by_cases large : 2 ^ 31 ≤ file.size
  · rw [if_pos large]
    exact ⟨⟨large, rfl⟩, moved⟩
  · rw [if_neg large]
    refine ⟨⟨Nat.lt_of_not_le large, fun j below => ?_⟩, moved⟩
    rw [splice_inside (Nat.zero_le j) (by omega), Nat.sub_zero, slice_apply, Nat.zero_add, isFs]
    exact serves.view served same kept (by omega)

end Serves

end Opening

/-- The first guess for a blocklist is not 0, unless `NUM_CLUSTERS` wraps. -/
theorem guessedBlocks_pos {f : Fs} {size : Nat} (sized : 0 < f.clusterSize)
    (fits : size + f.clusterSize ≤ 2 ^ 32) : 0 < f.guessedBlocks size := by
  unfold Fs.guessedBlocks
  split
  · refine Nat.div_pos ?_ sized
    unfold w32
    omega
  · exact Nat.one_pos

/-! ## Volumes that serve -/

/-- With a clean FAT buffer, everything is as the disk has it. -/
theorem looked_serves {disk : DiskId} {fs : FsPtr} {m : Machine} (reliable : m.Reliable)
    (ample : m.Ample) (mounted : (m.disk disk).fs = some fs) :
    Serves disk fs (m.fsMem fs) (nextOf (m.fsMem fs) (m.disk disk).data) (fun _ => True)
      (m.disk disk).data (fun _ => True) (Looked disk fs m) where
  mounted _ looked := looked.mounted mounted
  fsMem _ looked := by rw [looked.fsMem]
  reliable _ looked := looked.reliable reliable
  ample _ looked := looked.ample ample
  moves _ _ _ looked := ⟨looked.disks, looked.fsMem, looked.world, looked.synced⟩
  allocates _ looked := ⟨looked.disks, looked.fsMem, looked.world, looked.synced⟩
  gets s cluster looked _ := by
    refine wp_mono (getNext_looks (looked.reliable reliable) looked.synced cluster) ?_
      (fun _ _ never => never)
    rintro value t ⟨rfl, again⟩
    rw [looked.fsMem, looked.disks]
    exact ⟨rfl, looked.trans again⟩
  bytes _ looked _ _ := by rw [looked.disks]

end TestOs.Fat32
