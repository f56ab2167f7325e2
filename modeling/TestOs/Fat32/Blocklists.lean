/-
# Fat32.Blocklists -- the blocklist of an opened file

`fat32_file_open_by_dir_entry` starts a blocklist with as many places as the size
of the entry needs (`Fs.guessedBlocks`), doubles it when the chain turns out to be
longer, and does not shorten it when the chain has ended.  Its entries are the
chain, but its size is the first guess times a power of two
(`open_recovers_iff`); behind the chain it holds what `malloc` returned.

The walk along the chain does not depend on how the FAT is kept: it asks
`get_next_cluster_fat32` and nothing else (`Answers`).  The FAT that it answers
from is the view through the buffer (`Core.fatTable`), whatever the buffer holds
and whatever fails on the way.
-/
import TestOs.Library.TableChains
import TestOs.Library.Invariants
import TestOs.Fat32.FatTable
import TestOs.Fat32.Extending
import TestOs.Fat32.Transfer

namespace TestOs.Fat32

open TestOs.Library Prog

set_option autoImplicit false

/-! ## Lookups that succeed -/

section Lookups

variable {s : Machine} {disk : DiskId} {fs : FsPtr}

theorem commitLoop_succeeds (disk : DiskId) (fatSectors copies sector : Nat) {s : Machine} :
    wp (commitLoop disk fatSectors copies sector)
      (fun _ t => ∃ io trace, t = s.ran (s.toCore.setData disk
        (writeCopies s.buf fatSectors copies sector (s.disk disk).data)) io trace)
      (fun _ _ => True) s := by
  induction copies generalizing sector s with
  | zero => exact ⟨s.io, s.trace, by simp [writeCopies, Machine.ran]⟩
  | succ copies ih =>
      simp only [commitLoop, wp_bind, wp_note, wp_state, wp_deviceWrite]
      split
      · rename_i worked
        have whole : (s.ran s.toCore s.io (.writeBack disk :: s.trace)).transferred 2 = 2 := by
          rw [Machine.transferred, Option.isNone_iff_eq_none.1 worked]
        refine wp_mono (ih _) ?_ (fun _ _ _ => trivial)
        rintro - t ⟨io, trace, rfl⟩
        refine ⟨io, trace, ?_⟩
        simp [writeCopies, whole]
      · trivial

theorem commitFat32Buffer_succeeds :
    wp (commitFat32Buffer disk fs)
      (fun _ t => ∃ io trace,
        t = s.ran (if s.bufFs = some fs then s.toCore.writtenBack disk else s.toCore) io trace)
      (fun _ _ => True) s := by
  unfold commitFat32Buffer
  simp only [wp_bind, wp_state]
  by_cases holds : s.bufFs = some fs
  · simp only [if_pos holds, wp_bind, wp_readFs, wp_state, wp_update]
    refine wp_mono (commitLoop_succeeds disk _ _ _) ?_ (fun _ _ _ => trivial)
    rintro - t ⟨io, trace, rfl⟩
    refine ⟨io, trace, ?_⟩
    rw [Core.writtenBack]
    simp [holds, Machine.ran]
  · simp only [if_neg holds]
    exact ⟨s.io, s.trace, rfl⟩

theorem fillBuffer_succeeds (sector : Nat) :
    wp (fillBuffer disk fs sector)
      (fun ok t => ok = true → ∃ io trace, t = s.ran (s.toCore.loaded disk fs sector) io trace)
      (fun _ _ => False) s := by
  unfold fillBuffer forgetBuffer
  simp only [wp_bind, wp_state, wp_deviceRead, wp_update]
  by_cases worked : (s.world.fault s.io).isNone = true
  · simp only [if_pos worked, wp_bind, wp_note, wp_update, wp_pure]
    intro _
    have whole : s.transferred 2 = 2 := by
      rw [Machine.transferred, Option.isNone_iff_eq_none.1 worked]
    rw [whole]
    exact ⟨_, _, rfl⟩
  · simp only [if_neg worked, wp_bind, wp_update, wp_pure]
    intro never
    cases never

/-- Where the buffer is handed out, it has been fetched, whatever else failed. -/
theorem getFat32Buffer_succeeds (sector : Nat) :
    wp (getFat32Buffer disk fs sector)
      (fun ok t => ok = true → ∃ io trace, t = s.ran
        (s.toCore.fetched disk fs (w32 (sector + (s.fsMem fs).reservedSectors))) io trace)
      (fun _ _ => False) s := by
  unfold getFat32Buffer Core.fetched
  simp only [wp_bind, wp_readFs, wp_state]
  split
  · exact fun _ => ⟨s.io, s.trace, rfl⟩
  · split
    · rename_i old changed holds
      simp only [wp_bind, wp_attempt]
      refine wp_mono (@commitFat32Buffer_succeeds s disk old) ?_
        (fun _ _ _ never => Bool.noConfusion never)
      rintro - t ⟨io, trace, rfl⟩
      refine wp_mono (fillBuffer_succeeds _) ?_ (fun _ _ never => never)
      rintro ok t filled worked
      obtain ⟨io', trace', rfl⟩ := filled worked
      refine ⟨io', trace', ?_⟩
      simp [Core.evicted, changed, holds]
    · rename_i other
      refine wp_mono (fillBuffer_succeeds _) ?_ (fun _ _ never => never)
      rintro ok t filled worked
      obtain ⟨io, trace, rfl⟩ := filled worked
      refine ⟨io, trace, ?_⟩
      have clean : ¬ (s.bufChanged = true ∧ s.bufFs ≠ none) := by
        rintro ⟨changed, holds⟩
        obtain ⟨old, isOld⟩ := Option.ne_none_iff_exists'.1 holds
        exact other old changed isOld
      rw [Core.evicted, if_neg clean]

/-- A value that is not 0 has been looked up. -/
theorem getNextClusterFat32_succeeds (cluster : BitVec 32) :
    wp (getNextClusterFat32 disk fs cluster)
      (fun value t => value = 0 ∨ ∃ io trace,
        value = entryView (word (s.toCore.fetched disk fs ((s.fsMem fs).entrySector cluster)).buf
          (fat32Offset cluster)) ∧
        t = s.ran (s.toCore.fetched disk fs ((s.fsMem fs).entrySector cluster)) io trace)
      (fun _ _ => False) s := by
  unfold getNextClusterFat32
  simp only [wp_bind]
  refine wp_mono (getFat32Buffer_succeeds _) ?_ (fun _ _ never => never)
  rintro ok t fetched
  cases ok with
  | false => exact .inl rfl
  | true =>
      obtain ⟨io, trace, rfl⟩ := fetched rfl
      simp only [if_true, wp_bind, wp_note, wp_state, wp_pure]
      exact .inr ⟨_, _, rfl, rfl⟩

end Lookups

/-! ## The FAT as the driver sees it -/

/-- The entry of each cluster, in the buffer or on the disk. -/
def Core.fatTable (c : Core) (disk : DiskId) (fs : FsPtr) (k : Nat) : BitVec 32 :=
  word (c.fatView disk fs) (4 * k)

/-- A value that ends a chain. -/
def EndMark (value : BitVec 32) : Prop := 0xfffffff8 ≤ value.toNat

instance (value : BitVec 32) : Decidable (EndMark value) := inferInstanceAs (Decidable (_ ≤ _))

/-- What `get_next_cluster_fat32` makes of the entry of a cluster. -/
def nextIn (entry : Nat → BitVec 32) (cluster : BitVec 32) : BitVec 32 :=
  entryView (entry cluster.toNat)

/-- A cluster with an entry in the FAT. -/
def Fs.HasEntry (f : Fs) (cluster : BitVec 32) : Prop :=
  cluster.toNat < min (f.fatSectors * 128) (2 ^ 28)

/-- The chain of a file in the FAT. -/
structure FatChain (f : Fs) (entry : Nat → BitVec 32) (chain : Blocklist) (count : Nat) : Prop where
  isChain : TableChain (nextIn entry) EndMark chain count
  inFat : ∀ i < count, f.HasEntry (chain i)

theorem FatChain.count_le {f : Fs} {entry : Nat → BitVec 32} {chain : Blocklist} {count : Nat}
    (fatChain : FatChain f entry chain count) : count ≤ 2 ^ 28 := by
  refine fatChain.isChain.count_le BitVec.toNat (fun a b same => ?_) fun i inChain => ?_
  · rw [BitVec.eq_of_toNat_eq same]
  · exact (lt_min_iff.1 (fatChain.inFat i inChain)).2

theorem CacheOk.shows {c : Core} {disk : DiskId} {fs : FsPtr} (cache : CacheOk c disk fs) :
    ShowsTable c disk fs (c.fsMem fs) { entry := c.fatTable disk fs, synced := false } where
  fsMem := rfl
  cache := cache
  entries _ _ := rfl
  synced never := nomatch never

/-! ## The walk along a chain -/

/-- As long as `inv` holds, `get_next_cluster_fat32` answers from `next` for the
clusters in `asked`, or not at all. -/
structure Answers (disk : DiskId) (fs : FsPtr) (f : Fs) (next : BitVec 32 → BitVec 32)
    (asked : BitVec 32 → Prop) (inv : Machine → Prop) : Prop where
  mounted : ∀ s, inv s → (s.disk disk).fs = some fs
  fsMem : ∀ s, inv s → s.fsMem fs = f
  allocates : ∀ s, inv s → inv { s with mallocs := s.mallocs + 1 }
  gets : ∀ s cluster, inv s → asked cluster →
    wp (getNextClusterFat32 disk fs cluster)
      (fun value t => value = 0 ∨ value = next cluster ∧ inv t) (fun _ _ => False) s

/-- `blocklist_size` before the chain is read. -/
def Fs.guessedBlocks (f : Fs) (size : Nat) : Nat :=
  if 0 < size then w32 (size + f.clusterSize + (2 ^ 32 - 1)) / f.clusterSize else 1

/-- A blocklist for `guess` blocks that has grown to `size` places, with `i`
clusters of a chain in it. -/
structure Walked (chain : Blocklist) (guess i size : Nat) (blocklist : Blocklist) : Prop where
  last : blocklist (i - 1) = chain (i - 1)
  grown : ∃ k, size = guess * 2 ^ k ∧ (0 < k → guess * 2 ^ (k - 1) < i)
  room : 0 < guess → i ≤ size
  same : 0 < guess → ∀ j < i, blocklist j = chain j

namespace Walked

variable {chain blocklist : Blocklist} {guess i size : Nat}

theorem start (room : Blocklist) {first : BitVec 32} (head : first = chain 0) :
    Walked chain guess 1 guess (Function.update room 0 first) where
  last := by rw [Nat.sub_self, Function.update_self, head]
  grown := ⟨0, by rw [pow_zero, Nat.mul_one], fun never => absurd never (Nat.lt_irrefl 0)⟩
  room positive := positive
  same _ j below := by
    obtain rfl : j = 0 := by omega
    rw [Function.update_self, head]

/-- One more cluster, where there is a place for it. -/
theorem store (walked : Walked chain guess i size blocklist) (free : i < size) :
    Walked chain guess (i + 1) size (Function.update blocklist i (chain i)) where
  last := by rw [Nat.add_sub_cancel, Function.update_self]
  grown := by
    obtain ⟨k, same, few⟩ := walked.grown
    exact ⟨k, same, fun positive => (few positive).trans (Nat.lt_succ_self i)⟩
  room _ := free
  same positive j below := by
    by_cases new : j = i
    · rw [new, Function.update_self]
    · rw [Function.update_of_ne new, walked.same positive j (by omega)]

/-- One more cluster, after the list has been doubled. -/
theorem double (walked : Walked chain guess i size blocklist) (read : 1 ≤ i) (full : size ≤ i)
    {longer : Blocklist} (kept : ∀ j < size, longer j = blocklist j) :
    Walked chain guess (i + 1) (size * 2) (Function.update longer i (chain i)) where
  last := by rw [Nat.add_sub_cancel, Function.update_self]
  grown := by
    obtain ⟨k, same, -⟩ := walked.grown
    refine ⟨k + 1, by rw [same, pow_succ, Nat.mul_assoc], fun _ => ?_⟩
    rw [Nat.add_sub_cancel, ← same]
    exact Nat.lt_succ_of_le full
  room positive := by
    have := walked.room positive
    omega
  same positive j below := by
    have := walked.room positive
    by_cases new : j = i
    · rw [new, Function.update_self]
    · rw [Function.update_of_ne new, kept j (by omega), walked.same positive j (by omega)]

/-- The list is the chain exactly when doubling the first guess comes to its length. -/
theorem exact_iff (walked : Walked chain guess i size blocklist) (read : 0 < i) :
    (size = i ∧ ∀ j < size, blocklist j = chain j) ↔ ∃ k, i = guess * 2 ^ k := by
  obtain ⟨k, grown, few⟩ := walked.grown
  constructor
  · rintro ⟨rfl, -⟩
    exact ⟨k, grown⟩
  · rintro ⟨k', exact_⟩
    have positive : 0 < guess := Nat.pos_of_mul_pos_right (exact_ ▸ read)
    have enough := walked.room positive
    have length : size = i := by
      rw [grown, exact_] at enough ⊢
      have le : k' ≤ k := (Nat.pow_le_pow_iff_right (by decide)).1
        (Nat.le_of_mul_le_mul_left enough positive)
      rcases Nat.eq_zero_or_pos k with rfl | nonzero
      · rw [Nat.le_zero.1 le]
      · have less := few nonzero
        rw [exact_] at less
        have lt : k - 1 < k' := (Nat.pow_lt_pow_iff_right (by decide)).1
          (Nat.lt_of_mul_lt_mul_left less)
        rw [show k' = k by omega]
    refine ⟨length, fun j below => walked.same positive j ?_⟩
    rwa [← length]

end Walked

section Walk

variable {disk : DiskId} {fs : FsPtr} {f : Fs} {next : BitVec 32 → BitVec 32}
  {asked : BitVec 32 → Prop} {inv : Machine → Prop} {chain : Blocklist} {count : Nat}

theorem mallocBlocklist_walks (answers : Answers disk fs f next asked inv) {s : Machine}
    (start : inv s) : wlp mallocBlocklist (fun _ t => inv t) (fun _ _ => True) s :=
  answers.allocates s start

theorem reallocBlocklist_walks (answers : Answers disk fs f next asked inv) {s : Machine}
    (start : inv s) (old : Option Blocklist) (keep : Nat) :
    wlp (reallocBlocklist old keep)
      (fun new t => inv t ∧ ∀ longer, new = some longer → ∀ blocks, old = some blocks →
        ∀ j < keep, longer j = blocks j)
      (fun _ _ => True) s := by
  unfold reallocBlocklist
  rw [wlp_bind]
  refine wlp_mono (mallocBlocklist_walks answers start) ?_ (fun _ _ _ => trivial)
  intro garbage t kept
  refine ⟨kept, fun longer same blocks isOld j low => ?_⟩
  obtain ⟨memory, -, rfl⟩ := Option.map_eq_some_iff.1 same
  rw [isOld]
  exact if_pos low

theorem openLoop_walks (answers : Answers disk fs f next asked inv)
    (isChain : TableChain next EndMark chain count) (ask : ∀ i < count, asked (chain i))
    (few : count ≤ 2 ^ 28) {guess fuel i size : Nat} {blocklist : Blocklist} {s : Machine}
    (start : inv s) (read : 1 ≤ i) (inChain : i ≤ count)
    (walked : Walked chain guess i size blocklist) :
    wlp (openLoop disk fs fuel i size blocklist)
      (fun result t => inv t ∧ result.2.2 = count ∧
        Walked chain guess count result.2.1 result.1)
      (fun _ _ => True) s := by
  induction fuel generalizing s i size blocklist with
  | zero => exact trivial
  | succ fuel ih =>
      unfold openLoop
      rw [wlp_bind, walked.last]
      refine wlp_of_wp (answers.gets s _ start (ask (i - 1) (by omega))) ?_ (fun _ _ _ => trivial)
      rintro cluster t (rfl | ⟨rfl, kept⟩)
      · rw [if_pos rfl]
        exact trivial
      by_cases zero : next (chain (i - 1)) = 0
      · rw [if_pos zero]
        exact trivial
      rw [if_neg zero]
      by_cases last : i = count
      · subst last
        have ends : 0xfffffff8 ≤ (next (chain (i - 1))).toNat := isChain.ends
        rw [if_pos ends]
        exact ⟨kept, rfl, walked⟩
      · have place : i - 1 + 1 = i := by omega
        have link := isChain.links (i - 1) (by omega)
        have going : ¬ 0xfffffff8 ≤ (chain (i - 1 + 1)).toNat := isChain.going (i - 1) (by omega)
        rw [place] at link going
        rw [link, if_neg going]
        by_cases full : size ≤ i
        · rw [if_pos full, wlp_bind]
          refine wlp_mono (reallocBlocklist_walks answers kept _ _) ?_ (fun _ _ _ => trivial)
          rintro (_ | longer) u ⟨kept, same⟩
          · exact trivial
          · refine ih kept (by omega) (by omega) ?_
            rw [w32_of_lt (by omega)]
            exact walked.double read full (same longer rfl blocklist rfl)
        · rw [if_neg full]
          exact ih kept (by omega) (by omega) (walked.store (by omega))

/-- What opening returns: the chain of the entry, in a list that may be longer. -/
structure Recovered (fs : FsPtr) (f : Fs) (entry : DirEntry) (chain : Blocklist) (count : Nat)
    (file : FatFile) : Prop where
  fs : file.fs = fs
  size : file.size = if entry.size = 0 then w32 (count * f.clusterSize) else entry.size
  dirEntry : file.dirEntry = entry
  list : ∃ blocks, file.blocklist = some blocks ∧
    Walked chain (f.guessedBlocks entry.size) count file.blocklistSize blocks

theorem open_walks (answers : Answers disk fs f next asked inv)
    (isChain : TableChain next EndMark chain count) (ask : ∀ i < count, asked (chain i))
    (few : count ≤ 2 ^ 28) {entry : DirEntry} (first : entry.firstCluster = chain 0)
    (nonzero : chain 0 ≠ 0) {s : Machine} (start : inv s) :
    wlp (fat32FileOpenByDirEntry disk entry)
      (fun file t => inv t ∧ Recovered fs f entry chain count file) (fun _ _ => True) s := by
  unfold fat32FileOpenByDirEntry
  rw [wlp_bind]
  refine wlp_of_wp ((wp_mountedFs (answers.mounted s start)).2 ⟨rfl, start⟩ :
    wp _ (fun p t => p = fs ∧ inv t) (fun _ _ => False) s) ?_ (fun _ _ _ => trivial)
  rintro _ t ⟨rfl, kept⟩
  rw [wlp_bind, wlp_readFs, answers.fsMem t kept, if_neg (by rwa [first]), wlp_bind]
  have blocks : wlp (if 0 < entry.size then numClusters entry.size f.clusterSize else pure 1)
      (fun n u => n = f.guessedBlocks entry.size ∧ u = t) (fun _ _ => True) t := by
    unfold Fs.guessedBlocks numClusters
    split
    · rw [wlp_divide]
      exact fun _ => ⟨rfl, rfl⟩
    · exact ⟨rfl, rfl⟩
  refine wlp_mono blocks ?_ (fun _ _ _ => trivial)
  rintro _ _ ⟨rfl, rfl⟩
  rw [wlp_bind]
  refine wlp_mono (mallocBlocklist_walks answers kept) ?_ (fun _ _ _ => trivial)
  rintro (_ | garbage) u kept
  · exact trivial
  have walked := @Walked.start chain (f.guessedBlocks entry.size) garbage _ first
  rw [wlp_bind]
  refine wlp_mono (openLoop_walks answers isChain ask few kept le_rfl isChain.some_ walked) ?_
    (fun _ _ _ => trivial)
  rintro ⟨blocklist, size, clusters⟩ v ⟨kept, length, walked⟩
  have length : clusters = count := length
  subst length
  exact ⟨kept, rfl, rfl, rfl, blocklist, rfl, walked⟩

end Walk

/-! ## Opening with the FAT buffer -/

/-- The disk has its file system, the hardware is `world`, and the FAT is `table`. -/
structure Shown (disk : DiskId) (fs : FsPtr) (f : Fs) (table : Table) (world : World) (s : Machine) :
    Prop where
  mounted : (s.disk disk).fs = some fs
  world : s.world = world
  shows : ShowsTable s.toCore disk fs f table

section Buffered

variable {disk : DiskId} {fs : FsPtr} {f : Fs} {table : Table} {world : World}

@[simp] theorem fetched_fs {c : Core} {sector : Nat} {disk' : DiskId} :
    ((c.fetched disk fs sector).disk disk').fs = (c.disk disk').fs := by
  have back : ((c.writtenBack disk).disk disk').fs = (c.disk disk').fs := by
    unfold Core.writtenBack
    split
    · exact setData_fs
    · rfl
  unfold Core.fetched Core.loaded Core.evicted
  split
  · rfl
  · dsimp only
    split
    · exact back
    · rfl

theorem shown_answers (fits : f.CopiesFit) :
    Answers disk fs f (nextIn table.entry) f.HasEntry (Shown disk fs f table world) where
  mounted _ shown := shown.mounted
  fsMem _ shown := shown.shows.fsMem
  allocates _ shown := ⟨shown.mounted, shown.world, shown.shows⟩
  gets s cluster shown inFat := by
    obtain ⟨low, small⟩ := lt_min_iff.1 inFat
    obtain ⟨after, holds, sector⟩ := shown.shows.fetched fits (fat32Sector_lt low)
    refine wp_mono (getNextClusterFat32_succeeds cluster) ?_ (fun _ _ never => never)
    rintro value t (failed | ⟨io, trace, rfl, rfl⟩)
    · exact .inl failed
    · rw [shown.shows.fsMem, entrySector_eq]
      refine .inr ⟨?_, ?_, shown.world, after⟩
      · rw [after.buffer_entry small low holds sector]
        rfl
      · rw [ran_toCore, fetched_fs]
        exact shown.mounted

/-- **Opening recovers the chain of an entry exactly when doubling the first guess
for its blocklist comes to the length of the chain.** -/
theorem open_recovers_iff (disk : DiskId) (fs : FsPtr) {m t : Machine} {entry : DirEntry}
    {chain : Blocklist} {count : Nat} {file : FatFile} (mounted : (m.disk disk).fs = some fs)
    (cache : CacheOk m.toCore disk fs) (fits : (m.fsMem fs).CopiesFit)
    (fatChain : FatChain (m.fsMem fs) (m.fatTable disk fs) chain count)
    (first : entry.firstCluster = chain 0) (two : 2 ≤ (chain 0).toNat)
    (run : fat32FileOpenByDirEntry disk entry m = some (.ok file, t)) :
    (file.blocklistSize = count ∧ ∃ blocks, file.blocklist = some blocks ∧
        ∀ i < file.blocklistSize, blocks i = chain i) ↔
      ∃ k, count = (m.fsMem fs).guessedBlocks entry.size * 2 ^ k := by
  have nonzero : chain 0 ≠ 0 := by
    intro zero
    rw [zero] at two
    exact absurd two (by decide)
  have shown : Shown disk fs (m.fsMem fs)
      { entry := m.fatTable disk fs, synced := false } m.world m := ⟨mounted, rfl, cache.shows⟩
  obtain ⟨-, recovered⟩ := wlp_ok (open_walks (shown_answers fits) fatChain.isChain fatChain.inFat
    fatChain.count_le first nonzero shown) run
  obtain ⟨blocks, list, walked⟩ := recovered.list
  rw [← walked.exact_iff fatChain.isChain.some_, list]
  constructor
  · rintro ⟨length, blocks', isList, same⟩
    cases isList
    exact ⟨length, same⟩
  · rintro ⟨length, same⟩
    exact ⟨length, blocks, rfl, same⟩

end Buffered

/-! ## A chain of three clusters -/

/-- A volume on which cluster 3 leads to 5, and 5 to 6. -/
def chainVolume : Machine :=
  Machine.mounted (fun _ => smallFs 2 16 64) fun _ =>
    putWord (putWord (putWord (fun _ => 0) (512 * 32 + 12) 5) (512 * 32 + 20) 6)
      (512 * 32 + 24) 0x0fffffff

def threeClusters : Blocklist := fun i => if i = 0 then 3 else if i = 1 then 5 else 6

/-- An entry with these clusters. -/
def chainEntry (attrib : BitVec 8) (size : Nat) : DirEntry where
  indexInDir := 0
  dirFirstCluster := 2
  name _ := 0
  firstCluster := 3
  attrib := attrib
  size := size

theorem chainVolume_ok :
    CacheOk chainVolume.toCore 0 0 ∧ (chainVolume.fsMem 0).CopiesFit ∧
      FatChain (chainVolume.fsMem 0) (chainVolume.fatTable 0 0) threeClusters 3 := by
  refine ⟨⟨fun _ holds => ?_, fun dirty => ?_, fun holds => ?_⟩, ⟨by decide, by decide +kernel⟩,
    ⟨by decide, fun i inside => ?_, fun i inside => ?_, by decide +kernel⟩, fun i inside => ?_⟩
  · cases holds
  · cases dirty
  · cases holds
  · have links : ∀ i < 2, nextIn (chainVolume.fatTable 0 0) (threeClusters i) =
        threeClusters (i + 1) := by decide +kernel
    exact links i (by omega)
  · have going : ∀ i < 2, ¬ EndMark (threeClusters (i + 1)) := by decide +kernel
    exact going i (by omega)
  · have low : ∀ i < 3, (threeClusters i).toNat <
        min ((chainVolume.fsMem 0).fatSectors * 128) (2 ^ 28) := by decide +kernel
    exact low i inside

theorem chainVolume_opens (attrib : BitVec 8) {size length : Nat}
    (opens : (fat32FileOpenByDirEntry 0 (chainEntry attrib size) chainVolume).map
      (fun (r, _) => r.toOption.map (·.blocklistSize)) = some (some length)) :
    ∃ file t, fat32FileOpenByDirEntry 0 (chainEntry attrib size) chainVolume = some (.ok file, t) ∧
      file.blocklistSize = length := by
  obtain ⟨⟨r, t⟩, run, same⟩ := Option.map_eq_some_iff.1 opens
  cases r with
  | error e => cases same
  | ok file => exact ⟨file, t, run, Option.some.inj same⟩

/-- As a file of 1500 bytes they are recovered. -/
theorem file_chain_recovered :
    ∃ file t, fat32FileOpenByDirEntry 0 (chainEntry 0 1500) chainVolume = some (.ok file, t) ∧
      file.blocklistSize = 3 ∧ ∃ blocks, file.blocklist = some blocks ∧
        ∀ i < file.blocklistSize, blocks i = threeClusters i := by
  obtain ⟨cache, fits, fatChain⟩ := chainVolume_ok
  obtain ⟨file, t, run, -⟩ := @chainVolume_opens 0 1500 3 (by decide +kernel)
  exact ⟨file, t, run, (open_recovers_iff 0 0 rfl cache fits fatChain rfl (by decide) run).2
    ⟨0, by decide +kernel⟩⟩

/-- As a directory they come with a fourth, from the heap. -/
theorem directory_chain_padded :
    (CacheOk chainVolume.toCore 0 0 ∧ (chainVolume.fsMem 0).CopiesFit ∧
      FatChain (chainVolume.fsMem 0) (chainVolume.fatTable 0 0) threeClusters 3) ∧
    ∃ file t, fat32FileOpenByDirEntry 0 (chainEntry fatAttribDir 0) chainVolume =
        some (.ok file, t) ∧ file.blocklistSize ≠ 3 := by
  refine ⟨chainVolume_ok, ?_⟩
  obtain ⟨file, t, run, length⟩ := @chainVolume_opens fatAttribDir 0 4 (by decide +kernel)
  exact ⟨file, t, run, by rw [length]; decide⟩

end TestOs.Fat32
