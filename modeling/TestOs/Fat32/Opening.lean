/-
# Fat32.Opening -- what opening a file or a directory finds

Opening only reads.  While the FAT buffer holds nothing that the disk does not
have (`Synced`), an entry of the FAT is what the disk says (`getNext_reads`), the
blocklist of an opened file is its chain on the disk (`open_reads`), and an
opened directory is a snapshot of the bytes of its clusters (`subdir_reads`).
-/
import TestOs.Fat32.FreeSpace
import TestOs.Fat32.Directories
import TestOs.Fat32.Transfer

namespace TestOs.Fat32

open TestOs.Library Prog

set_option autoImplicit false

/-! ## Reading -/

/-- Every allocation succeeds. -/
def Machine.Ample (m : Machine) : Prop := ∀ n, m.world.noMemory n = false

/-- The FAT buffer has nothing to write back, and what it holds of the disk is there. -/
structure Core.Synced (c : Core) (disk : DiskId) (fs : FsPtr) : Prop where
  clean : c.bufChanged = true → c.bufFs = none
  held : c.bufFs = some fs → ∀ k < 1024, c.buf k = (c.disk disk).data (512 * c.bufSector + k)

/-- Only the FAT buffer and the counters of the machine differ. -/
structure Looked (disk : DiskId) (fs : FsPtr) (s t : Machine) : Prop where
  disks : t.disk = s.disk
  fsMem : t.fsMem = s.fsMem
  world : t.world = s.world
  synced : t.toCore.Synced disk fs

/-- `p` returns a value in `post`, and only reads. -/
def Looks {α : Type} (disk : DiskId) (fs : FsPtr) (p : FatM α) (s : Machine) (post : α → Prop) : Prop :=
  wp p (fun a t => post a ∧ Looked disk fs s t) (fun _ _ => False) s

section Reading

variable {s : Machine} {disk : DiskId} {fs : FsPtr} {α β : Type}

theorem Looked.refl (synced : s.toCore.Synced disk fs) : Looked disk fs s s := ⟨rfl, rfl, rfl, synced⟩

theorem Looked.trans {t u : Machine} (first : Looked disk fs s t) (second : Looked disk fs t u) :
    Looked disk fs s u :=
  ⟨second.disks.trans first.disks, second.fsMem.trans first.fsMem, second.world.trans first.world,
    second.synced⟩

theorem Looked.reliable {t : Machine} (looked : Looked disk fs s t) (reliable : s.Reliable) :
    t.Reliable := by
  intro n
  rw [looked.world]
  exact reliable n

theorem Looked.ample {t : Machine} (looked : Looked disk fs s t) (ample : s.Ample) : t.Ample := by
  intro n
  rw [looked.world]
  exact ample n

/-- The rule for a semicolon. -/
theorem Looks.bind {p : FatM α} {f : α → FatM β} {mid : α → Prop} {post : β → Prop}
    (first : Looks disk fs p s mid)
    (rest : ∀ a t, mid a → Looked disk fs s t → Looks disk fs (f a) t post) :
    Looks disk fs (p >>= f) s post := by
  unfold Looks at *
  rw [wp_bind]
  refine wp_mono first ?_ (fun _ _ never => never)
  rintro a t ⟨value, looked⟩
  refine wp_mono (rest a t value looked) ?_ (fun _ _ never => never)
  rintro b u ⟨value', looked'⟩
  exact ⟨value', looked.trans looked'⟩

theorem Looks.mono {p : FatM α} {post post' : α → Prop} (looks : Looks disk fs p s post)
    (weaker : ∀ a, post a → post' a) : Looks disk fs p s post' :=
  wp_mono looks (fun a _ ⟨value, looked⟩ => ⟨weaker a value, looked⟩) (fun _ _ never => never)

theorem looks_pure {a : α} {post : α → Prop} (synced : s.toCore.Synced disk fs) (value : post a) :
    Looks disk fs (pure a) s post := ⟨value, Looked.refl synced⟩

theorem state_looks (synced : s.toCore.Synced disk fs) :
    Looks disk fs (state : FatM Machine) s fun _ => True := ⟨trivial, Looked.refl synced⟩

theorem ensure_looks (synced : s.toCore.Synced disk fs) {c : Prop} [Decidable c] (holds : c) :
    Looks disk fs (ensure c) s fun _ => True := by
  unfold Looks
  rw [wp_ensure]
  exact ⟨holds, trivial, Looked.refl synced⟩

/-- A read that leaves the core as it is. -/
theorem Yields.looks {p : FatM α} {value : α} (yields : Yields p s value s.toCore)
    (synced : s.toCore.Synced disk fs) : Looks disk fs p s (· = value) :=
  wp_mono yields (fun _ _ ⟨same, _, _, run⟩ => ⟨same, by rw [run]; exact ⟨rfl, rfl, rfl, synced⟩⟩)
    (fun _ _ never => never)

/-- What `get_next_cluster_fat32` makes of the entry of a cluster on the disk. -/
def nextOf (f : Fs) (data : Bytes) (cluster : BitVec 32) : BitVec 32 :=
  entryView (fatEntry f data cluster)

/-- A clean buffer is not written back, and after a lookup it holds the sector as the
disk has it. -/
theorem Core.Synced.fetched {c : Core} (synced : c.Synced disk fs) (sector : Nat) :
    (c.fetched disk fs sector).disk = c.disk ∧ (c.fetched disk fs sector).fsMem = c.fsMem ∧
      (c.fetched disk fs sector).Synced disk fs ∧
      ∀ k < 1024, (c.fetched disk fs sector).buf k = (c.disk disk).data (512 * sector + k) := by
  have evicted : c.evicted disk = c := by
    rw [Core.evicted, if_neg]
    rintro ⟨changed, holds⟩
    exact holds (synced.clean changed)
  unfold Core.fetched
  split
  · next hit =>
    refine ⟨rfl, rfl, synced, fun k low => ?_⟩
    rw [synced.held hit.1 k low, hit.2]
  · rw [evicted]
    have loaded : ∀ k < 1024, (c.loaded disk fs sector).buf k =
        (c.disk disk).data (512 * sector + k) := by
      intro k low
      change splice c.buf 0 _ 1024 k = _
      rw [splice_inside (by omega) (by omega), slice_apply, Nat.sub_zero]
    exact ⟨rfl, rfl, ⟨fun changed => Bool.noConfusion changed, fun _ => loaded⟩, loaded⟩

theorem getNext_looks (reliable : s.Reliable) (synced : s.toCore.Synced disk fs)
    (cluster : BitVec 32) :
    Looks disk fs (getNextClusterFat32 disk fs cluster) s
      (· = nextOf (s.fsMem fs) (s.disk disk).data cluster) := by
  have offset := fat32Offset_le cluster
  obtain ⟨sameDisk, sameFs, sync, holds⟩ := synced.fetched ((s.fsMem fs).entrySector cluster)
  refine wp_mono (getNextClusterFat32_yields disk fs cluster reliable) ?_ (fun _ _ never => never)
  rintro value t ⟨rfl, io, trace, rfl⟩
  refine ⟨?_, sameDisk, sameFs, rfl, sync⟩
  rw [nextOf, fatEntry, ← word_slice]
  exact congrArg _ (word_congr fun k low high => holds k (by omega))

end Reading

/-! ## Chains -/

/-- The `count` clusters of a chain of the FAT. -/
structure ChainOf (f : Fs) (data : Bytes) (chain : Blocklist) (count : Nat) : Prop where
  some_ : 0 < count
  links : ∀ i, i + 1 < count → nextOf f data (chain i) = chain (i + 1)
  used : ∀ i, i + 1 < count → chain (i + 1) ≠ 0 ∧ (chain (i + 1)).toNat < 0xfffffff8
  ends : 0xfffffff8 ≤ (nextOf f data (chain (count - 1))).toNat

namespace ChainOf

variable {f : Fs} {data : Bytes} {chain : Blocklist} {count : Nat}

/-- The entry of a cluster depends on 30 bits of its number. -/
theorem nextOf_congr (f : Fs) (data : Bytes) {c d : BitVec 32}
    (same : c.toNat % 2 ^ 30 = d.toNat % 2 ^ 30) :
    nextOf f data c = nextOf f data d := by
  have place : w32 (c.toNat * 4) = w32 (d.toNat * 4) := by
    unfold w32
    omega
  rw [nextOf, nextOf, fatEntry, fatEntry, Fs.entrySector, Fs.entrySector, fat32Sector, fat32Sector,
    fat32Offset, fat32Offset, place]

/-- A chain that ends does not come back to an entry. -/
theorem injective (isChain : ChainOf f data chain count) {i j : Nat} (less : i < j) (below : j < count) :
    (chain i).toNat % 2 ^ 30 ≠ (chain j).toNat % 2 ^ 30 := by
  intro same
  have along (m : Nat) (inside : j + m < count) :
      (chain (i + m)).toNat % 2 ^ 30 = (chain (j + m)).toNat % 2 ^ 30 := by
    induction m with
    | zero => exact same
    | succ m ih =>
        have next := nextOf_congr f data (ih (by omega))
        rw [isChain.links (i + m) (by omega), isChain.links (j + m) (by omega)] at next
        rw [← Nat.add_assoc, ← Nat.add_assoc, next]
  -- the last cluster would have a successor
  have last := nextOf_congr f data (along (count - 1 - j) (by omega))
  have place : j + (count - 1 - j) = count - 1 := by omega
  rw [place, isChain.links (i + (count - 1 - j)) (by omega)] at last
  have ends := isChain.ends
  rw [← last] at ends
  have := (isChain.used (i + (count - 1 - j)) (by omega)).2
  omega

theorem distinct (isChain : ChainOf f data chain count) {i j : Nat} (inChain : i < count)
    (inChain' : j < count) (same : chain i = chain j) : i = j := by
  rcases Nat.lt_trichotomy i j with less | rfl | less
  · exact (isChain.injective less inChain' (by rw [same])).elim
  · rfl
  · exact (isChain.injective less inChain (by rw [same])).elim

theorem count_le (isChain : ChainOf f data chain count) : count ≤ 2 ^ 30 := by
  have maps : ∀ i ∈ Finset.range count, (chain i).toNat % 2 ^ 30 ∈ Finset.range (2 ^ 30) :=
    fun i _ => Finset.mem_range.2 (Nat.mod_lt _ (by decide))
  have inj : Set.InjOn (fun i => (chain i).toNat % 2 ^ 30) (Finset.range count) := by
    intro i inChain j inChain' same
    simp only [Finset.coe_range, Set.mem_Iio] at inChain inChain'
    rcases Nat.lt_trichotomy i j with less | rfl | less
    · exact (isChain.injective less inChain' same).elim
    · rfl
    · exact (isChain.injective less inChain same.symm).elim
  have few := Finset.card_le_card_of_injOn _ maps inj
  rwa [Finset.card_range, Finset.card_range] at few

end ChainOf

/-! ## Opening a file -/

section Opening

variable {s : Machine} {disk : DiskId} {fs : FsPtr} {chain : Blocklist} {count : Nat}

theorem mallocBlocklist_looks (ample : s.Ample) (synced : s.toCore.Synced disk fs) :
    Looks disk fs mallocBlocklist s fun memory => ∃ garbage, memory = some garbage := by
  unfold Looks mallocBlocklist
  simp only [wp_bind, wp_state, wp_update, wp_pure, ample s.mallocs, Bool.false_eq_true, if_false]
  exact ⟨⟨_, rfl⟩, rfl, rfl, rfl, synced⟩

theorem mallocMemory_looks (ample : s.Ample) (synced : s.toCore.Synced disk fs) :
    Looks disk fs mallocMemory s (· = true) := by
  refine (mallocBlocklist_looks ample synced).bind ?_
  rintro _ t ⟨garbage, rfl⟩ looked
  exact looks_pure looked.synced rfl

theorem reallocBlocklist_looks (ample : s.Ample) (synced : s.toCore.Synced disk fs) (old : Blocklist)
    (keep : Nat) :
    Looks disk fs (reallocBlocklist (some old) keep) s fun memory =>
      ∃ longer, memory = some longer ∧ ∀ i < keep, longer i = old i := by
  refine (mallocBlocklist_looks ample synced).bind ?_
  rintro _ t ⟨garbage, rfl⟩ looked
  exact looks_pure looked.synced ⟨_, rfl, fun i low => by simp [low]⟩

/-- The blocklist and the size that the loop ends with: the chain, in a list that
has room for it. -/
def IsList (chain : Blocklist) (count : Nat) (result : Blocklist × Nat × Nat) : Prop :=
  result.2.2 = count ∧ count ≤ result.2.1 ∧ ∀ i < count, result.1 i = chain i

theorem openLoop_looks (reliable : s.Reliable) (ample : s.Ample) (synced : s.toCore.Synced disk fs)
    (isChain : ChainOf (s.fsMem fs) (s.disk disk).data chain count) {fuel i size : Nat}
    {blocklist : Blocklist} (enough : count < fuel + i) (read : 1 ≤ i) (inChain : i ≤ count)
    (room : i ≤ size) (same : ∀ j < i, blocklist j = chain j) :
    Looks disk fs (openLoop disk fs fuel i size blocklist) s (IsList chain count) := by
  induction fuel generalizing s i size blocklist with
  | zero => omega
  | succ fuel ih =>
      refine (getNext_looks reliable synced _).bind ?_
      rintro _ t rfl looked
      rw [same (i - 1) (by omega)]
      by_cases last : i = count
      · -- the end of the chain
        subst last
        have ends := isChain.ends
        have nonzero : nextOf (s.fsMem fs) (s.disk disk).data (chain (i - 1)) ≠ 0 := by
          intro zero
          rw [zero] at ends
          exact absurd ends (by decide)
        rw [if_neg nonzero, if_pos ends]
        exact looks_pure looked.synced ⟨rfl, room, same⟩
      · have inside : i - 1 + 1 < count := by omega
        have place : i - 1 + 1 = i := by omega
        have next := isChain.links (i - 1) inside
        have used := isChain.used (i - 1) inside
        rw [place] at next used
        rw [next, if_neg used.1, if_neg (by omega)]
        have few := isChain.count_le
        have isChain' : ChainOf (t.fsMem fs) (t.disk disk).data chain count := by
          rwa [looked.fsMem, looked.disks]
        have extended {longer : Blocklist} (kept : ∀ j < i, longer j = chain j) :
            ∀ j < i + 1, Function.update longer i (chain i) j = chain j := by
          intro j below
          by_cases new : j = i
          · rw [new, Function.update_self]
          · rw [Function.update_of_ne new, kept j (by omega)]
        by_cases full : size ≤ i
        · rw [if_pos full]
          refine (reallocBlocklist_looks (looked.ample ample) looked.synced _ _).bind ?_
          rintro _ u ⟨longer, rfl, kept⟩ looked'
          have isChain'' : ChainOf (u.fsMem fs) (u.disk disk).data chain count := by
            rwa [looked'.fsMem, looked'.disks]
          refine ih (looked'.reliable (looked.reliable reliable))
            (looked'.ample (looked.ample ample)) looked'.synced isChain'' (by omega) (by omega)
            (by omega) ?_ (extended fun j below => ?_)
          · rw [w32_of_lt (by omega)]
            omega
          · rw [kept j (by omega), same j below]
        · rw [if_neg full]
          exact ih (looked.reliable reliable) (looked.ample ample) looked.synced isChain' (by omega)
            (by omega) (by omega) (by omega) (extended same)

theorem mountedFs_looks (mounted : (s.disk disk).fs = some fs) (synced : s.toCore.Synced disk fs) :
    Looks disk fs (mountedFs disk) s (fs = ·) := by
  unfold Looks
  rw [wp_mountedFs mounted]
  exact ⟨rfl, Looked.refl synced⟩

theorem readFs_looks (synced : s.toCore.Synced disk fs) :
    Looks disk fs (readFs fs) s (· = s.fsMem fs) := ⟨rfl, Looked.refl synced⟩

/-- An opened file: its clusters are the chain of the entry. -/
structure Opened (fs : FsPtr) (f : Fs) (entry : DirEntry) (chain : Blocklist) (count : Nat)
    (file : FatFile) : Prop where
  fs : file.fs = fs
  size : file.size = if entry.size = 0 then w32 (count * f.clusterSize) else entry.size
  list : ∃ blocks, file.blocklist = some blocks ∧ ∀ i < count, blocks i = chain i
  room : count ≤ file.blocklistSize
  dirEntry : file.dirEntry = entry

theorem Looked.mounted {t : Machine} (looked : Looked disk fs s t)
    (mounted : (s.disk disk).fs = some fs) : (t.disk disk).fs = some fs := by
  rwa [looked.disks]

theorem numClusters_looks (synced : s.toCore.Synced disk fs) {size clusterSize : Nat}
    (nonzero : clusterSize ≠ 0) :
    Looks disk fs (numClusters size clusterSize) s
      (· = w32 (size + clusterSize + (2 ^ 32 - 1)) / clusterSize) := by
  unfold Looks numClusters
  simp only [wp_divide]
  exact ⟨nonzero, trivial, Looked.refl synced⟩

/-- The blocklist of an opened file is its chain.  A directory has no size, and its
list grows with the chain; with a size the list starts with as many entries as the
size needs, at least one. -/
theorem open_looks (reliable : s.Reliable) (ample : s.Ample)
    (mounted : (s.disk disk).fs = some fs) (synced : s.toCore.Synced disk fs)
    (isChain : ChainOf (s.fsMem fs) (s.disk disk).data chain count) {entry : DirEntry}
    (first : entry.firstCluster = chain 0) (nonzero : chain 0 ≠ 0)
    (room : 0 < entry.size → (s.fsMem fs).clusterSize ≠ 0 ∧
      0 < w32 (entry.size + (s.fsMem fs).clusterSize + (2 ^ 32 - 1)) / (s.fsMem fs).clusterSize) :
    Looks disk fs (fat32FileOpenByDirEntry disk entry) s
      (Opened fs (s.fsMem fs) entry chain count) := by
  have few := isChain.count_le
  refine (mountedFs_looks mounted synced).bind ?_
  rintro _ t rfl looked
  refine (readFs_looks looked.synced).bind ?_
  rintro _ u rfl again
  rw [looked.fsMem]
  have looked := looked.trans again
  rw [if_neg (by rwa [first])]
  have blocks : Looks disk fs (if 0 < entry.size then
      numClusters entry.size (s.fsMem fs).clusterSize else pure 1) u (1 ≤ ·) := by
    split
    · rename_i sized
      exact (numClusters_looks looked.synced (room sized).1).mono fun n same => by
        rw [same]
        exact (room sized).2
    · exact looks_pure looked.synced le_rfl
  refine blocks.bind fun size v starts again => ?_
  have looked := looked.trans again
  refine (mallocBlocklist_looks (looked.ample ample) looked.synced).bind ?_
  rintro _ w ⟨garbage, rfl⟩ again
  have looked := looked.trans again
  have isChain' : ChainOf (w.fsMem fs) (w.disk disk).data chain count := by
    rwa [looked.fsMem, looked.disks]
  have head : ∀ j < 1, Function.update garbage 0 entry.firstCluster j = chain j := by
    intro j below
    obtain rfl : j = 0 := by omega
    rw [Function.update_self, first]
  refine (openLoop_looks (looked.reliable reliable) (looked.ample ample) looked.synced isChain'
    (by unfold chainFuel; omega) le_rfl isChain.some_ starts head).bind ?_
  rintro ⟨blocklist, blocklistSize, clusters⟩ x ⟨length, enough, same⟩ again
  have length : clusters = count := length
  subst length
  exact looks_pure again.synced ⟨rfl, rfl, ⟨_, rfl, same⟩, enough, rfl⟩

/-! ## Opening a directory -/

/-- The clusters of a directory as the disk has them. -/
structure DirChain (f : Fs) (data : Bytes) (chain : Blocklist) (count : Nat) : Prop where
  isChain : ChainOf f data chain count
  valid : ∀ i < count, f.DataCluster (chain i)
  power : PowerOfTwo f
  small : count * f.clusterSize < 2 ^ 31

theorem DirChain.blocks {f : Fs} {data : Bytes} (dir : DirChain f data chain count) :
    Blocks f chain count where
  valid := dir.valid
  distinct _ inChain _ inChain' same := dir.isChain.distinct inChain inChain' same

theorem DirChain.nonzero {f : Fs} {data : Bytes} (dir : DirChain f data chain count) :
    chain 0 ≠ 0 := by
  intro zero
  have := (dir.valid 0 dir.isChain.some_).1
  rw [zero] at this
  exact absurd this (by decide)

/-- A blocklist with the same entries is the same file. -/
theorem fileView_congr {f : Fs} {data : Bytes} {blocks : Blocklist}
    (same : ∀ i < count, blocks i = chain i) {j : Nat} (below : j < count * f.clusterSize) :
    fileView f blocks data j = fileView f chain data j := by
  have block : j / f.clusterSize < count := Nat.div_lt_of_lt_mul (by rwa [Nat.mul_comm])
  rw [fileView, fileView, same _ block]

theorem Blocks.congr {f : Fs} {blocks : Blocklist} (good : Blocks f chain count)
    (same : ∀ i < count, blocks i = chain i) : Blocks f blocks count where
  valid i inFile := by
    rw [same i inFile]
    exact good.valid i inFile
  distinct i inFile j inFile' eq := by
    rw [same i inFile, same j inFile'] at eq
    exact good.distinct i inFile j inFile' eq

/-- A directory as a file. -/
theorem DirChain.openFile {f : Fs} {data : Bytes} (dir : DirChain f data chain count)
    {entry : DirEntry} {file : FatFile} (opened : Opened fs f entry chain count file) :
    ∃ blocks, OpenFile f file blocks count ∧ ∀ i < count, blocks i = chain i := by
  obtain ⟨blocks, list, same⟩ := opened.list
  exact ⟨blocks, ⟨dir.blocks.congr same, list, opened.room⟩, same⟩

theorem DirChain.size_eq {f : Fs} {data : Bytes} (dir : DirChain f data chain count)
    {entry : DirEntry} {file : FatFile} (opened : Opened fs f entry chain count file)
    (unsized : entry.size = 0) : file.size = count * f.clusterSize := by
  have := dir.small
  rw [opened.size, if_pos unsized, w32_of_lt (by omega)]

theorem readDirectory_looks (reliable : s.Reliable) (mounted : (s.disk disk).fs = some fs)
    (synced : s.toCore.Synced disk fs)
    (dir : DirChain (s.fsMem fs) (s.disk disk).data chain count) {entry : DirEntry} {file : FatFile}
    (opened : Opened fs (s.fsMem fs) entry chain count file) (unsized : entry.size = 0)
    {dst : Bytes} {offset len : Nat} (inside : offset + len ≤ count * (s.fsMem fs).clusterSize) :
    Looks disk fs (fat32FileRead disk file dst offset len) s
      (· = (len, splice dst 0 (slice (fileView (s.fsMem fs) chain (s.disk disk).data) offset) len)) := by
  obtain ⟨blocks, openFile, same⟩ := dir.openFile opened
  have size := dir.size_eq opened unsized
  have small := dir.small
  exact (reads_back reliable mounted openFile dir.power (by rw [size]) (by omega)
    (fun j below => fileView_congr same below) offset len dst (by omega)).looks synced

theorem loadEntries_looks (reliable : s.Reliable) (ample : s.Ample)
    (mounted : (s.disk disk).fs = some fs) (synced : s.toCore.Synced disk fs)
    (dir : DirChain (s.fsMem fs) (s.disk disk).data chain count) {entry : DirEntry} {file : FatFile}
    (opened : Opened fs (s.fsMem fs) entry chain count file) (unsized : entry.size = 0) :
    Looks disk fs (loadEntries disk file) s fun buf =>
      ∀ j < count * (s.fsMem fs).clusterSize,
        buf j = fileView (s.fsMem fs) chain (s.disk disk).data j := by
  have size := dir.size_eq opened unsized
  have small := dir.small
  unfold loadEntries
  refine (state_looks synced).bind fun m t _ looked => ?_
  refine (mallocMemory_looks (looked.ample ample) looked.synced).bind ?_
  rintro _ u rfl again
  have looked := looked.trans again
  refine (ensure_looks looked.synced rfl).bind fun _ v _ again => ?_
  have looked := looked.trans again
  have dir' : DirChain (v.fsMem fs) (v.disk disk).data chain count := by
    rwa [looked.fsMem, looked.disks]
  have opened' : Opened fs (v.fsMem fs) entry chain count file := by rwa [looked.fsMem]
  refine (readDirectory_looks (looked.reliable reliable) (looked.mounted mounted) looked.synced dir'
    opened' unsized (by rw [size, looked.fsMem, Nat.zero_add])).bind ?_
  rintro ⟨ret, buf⟩ w same again
  cases same
  dsimp only
  rw [if_neg (by omega)]
  refine looks_pure again.synced fun j below => ?_
  rw [splice_inside (by omega) (by omega), slice_apply, looked.fsMem, looked.disks, Nat.sub_zero,
    Nat.zero_add]

/-- An open directory is a snapshot of its clusters. -/
structure Snapshot (f : Fs) (data : Bytes) (chain : Blocklist) (count : Nat) (dir : FatDir) : Prop where
  num : dir.num = count * f.clusterSize / diskEntrySize
  start : dir.i = 0
  entries : ∀ j < count * f.clusterSize, dir.entries j = fileView f chain data j

/-- **Opening the root directory.** -/
theorem rootdir_looks (reliable : s.Reliable) (ample : s.Ample)
    (mounted : (s.disk disk).fs = some fs) (synced : s.toCore.Synced disk fs)
    (dir : DirChain (s.fsMem fs) (s.disk disk).data chain count)
    (root : (s.fsMem fs).bpb.rootdirCluster = chain 0) :
    Looks disk fs (fat32Rootdir32Open disk) s fun opened =>
      opened.fs = fs ∧ opened.firstCluster = 0 ∧
        Snapshot (s.fsMem fs) (s.disk disk).data chain count opened := by
  refine (mountedFs_looks mounted synced).bind ?_
  rintro _ t rfl looked
  refine (readFs_looks looked.synced).bind ?_
  rintro _ u rfl again
  rw [looked.fsMem]
  have looked := looked.trans again
  refine (mallocMemory_looks (looked.ample ample) looked.synced).bind ?_
  rintro _ v rfl again
  have looked := looked.trans again
  have dir' : DirChain (v.fsMem fs) (v.disk disk).data chain count := by
    rwa [looked.fsMem, looked.disks]
  refine (open_looks (looked.reliable reliable) (looked.ample ample) (looked.mounted mounted)
    looked.synced dir'.isChain root dir.nonzero fun sized => absurd sized (Nat.lt_irrefl 0)).bind ?_
  intro file w opened again
  have looked := looked.trans again
  have dir'' : DirChain (w.fsMem fs) (w.disk disk).data chain count := by
    rwa [looked.fsMem, looked.disks]
  have opened' : Opened fs (w.fsMem fs) (directoryEntry (s.fsMem fs).bpb.rootdirCluster) chain count
      file := by rwa [again.fsMem]
  refine (loadEntries_looks (looked.reliable reliable) (looked.ample ample) (looked.mounted mounted)
    looked.synced dir'' opened' rfl).bind fun buf x bytes again => ?_
  rw [looked.fsMem, looked.disks] at bytes
  rw [looked.fsMem] at opened'
  refine looks_pure again.synced ⟨rfl, rfl, ?_, rfl, bytes⟩
  rw [dir.size_eq opened' rfl]

end Opening

end TestOs.Fat32
