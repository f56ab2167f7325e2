/-
# Fat32.Editing -- writing and truncating a file of a volume

Between two calls a handle on a regular file has the chain of the file as its
blocklist, its size is within the chain, and its entry is in a directory that
shares no cluster with it (`OnVolume`).  Writing and truncating lead from such a
state to such a state again, and of the bytes of the file (`fileView`) a write
changes its range and adds new clusters (`fileWrite_edits`), and a truncation
changes none (`truncate_edits`).

The volume is one whose clusters have sector numbers and whose free clusters lie
behind what a write-back of the FAT reaches, as they do where the first cluster of
the data region is in use.
-/
import TestOs.Library.SparseFiles
import TestOs.Library.Transitions
import TestOs.Fat32.Truncating

namespace TestOs.Fat32

open TestOs.Library Prog

set_option autoImplicit false

/-- A handle on a regular file, between two calls. -/
structure OnVolume (disk : DiskId) (fs : FsPtr) (f : Fs) (tail : Nat) (world : World)
    (dir : Blocklist) (dirCount : Nat) (image : Image) (blocks : Blocklist) (count : Nat)
    (s : Machine × FatFile) : Prop where
  holds : HoldsImage disk fs f tail world image s.1
  onFs : s.2.fs = fs
  regular : s.2.dirEntry.attrib &&& fatAttribDir = 0
  handle : Handle f image.entry s.2 blocks count
  filed : Filed f image.entry s.2.dirEntry dir dirCount
  apart : ∀ i < dirCount, ∀ j < count, dir i ≠ blocks j
  room : s.2.size ≤ count * f.clusterSize
  small : s.2.size + f.clusterSize ≤ 2 ^ 32
  behind : f.Behind tail blocks count
  free : ∀ cluster, f.HasCluster cluster → image.entry cluster.toNat = 0 →
    tail ≤ getDataClusterOffset f cluster

/-- The clusters have sector numbers. -/
def Fs.Numbered (f : Fs) : Prop := ∀ cluster, f.HasCluster cluster → f.DataCluster cluster

/-- A cluster is free, or one of these. -/
def FreeOrOwn (entry : Nat → BitVec 32) (blocks : Blocklist) (count : Nat) (cluster : BitVec 32) : Prop :=
  entry cluster.toNat = 0 ∨ ∃ q < count, blocks q = cluster

section Edits

variable {disk : DiskId} {fs : FsPtr} {f : Fs} {tail : Nat} {world : World} {image : Image}
  {dir : Blocklist} {dirCount : Nat} {blocks new : Blocklist} {count count' : Nat}
  {s t : Machine × FatFile}

theorem OnVolume.entryIn (onVolume : OnVolume disk fs f tail world dir dirCount image blocks count s) :
    EntryIn f image.entry s.2 blocks count dir dirCount :=
  fun _ => ⟨onVolume.filed, onVolume.apart⟩

theorem OnVolume.clusters (onVolume : OnVolume disk fs f tail world dir dirCount image blocks count s)
    {i : Nat} (inChain : i < count) : f.HasCluster (blocks i) :=
  (onVolume.handle.chain (by omega)).clusters i inChain

/-- The free clusters lie behind the FAT as long as they come from the same pool. -/
theorem OnVolume.free_kept
    (onVolume : OnVolume disk fs f tail world dir dirCount image blocks count s)
    {after : Nat → BitVec 32} (pool : ∀ cluster, f.HasCluster cluster →
      (FreeOrOwn after new count' cluster ↔ FreeOrOwn image.entry blocks count cluster)) :
    ∀ cluster, f.HasCluster cluster → after cluster.toNat = 0 →
      tail ≤ getDataClusterOffset f cluster := by
  intro cluster has zero
  rcases (pool cluster has).1 (.inl zero) with free | ⟨q, inChain, rfl⟩
  · exact onVolume.free cluster has free
  · exact onVolume.behind q inChain

/-- A handle with a blocklist is one that can be read and written through. -/
theorem OnVolume.openFile (onVolume : OnVolume disk fs f tail world dir dirCount image blocks count s)
    (numbered : f.Numbered) (some_ : 0 < count) : OpenFile f s.2 blocks count where
  good :=
    { valid := fun _ inChain => numbered _ (onVolume.clusters inChain)
      distinct := fun _ inChain _ inChain' same =>
        (onVolume.handle.chain some_).isChain.distinct inChain inChain' same }
  list := by rw [onVolume.handle.list, if_neg some_.ne']
  entries := onVolume.handle.length.ge

/-- A longer chain has taken the new clusters from the free ones. -/
theorem Grown.pool {before after : Nat → BitVec 32} {old : Blocklist} (proper : f.Proper)
    (grown : Grown f before after old new count count') (le : count ≤ count') {cluster : BitVec 32}
    (has : f.HasCluster cluster) :
    FreeOrOwn after new count' cluster ↔ FreeOrOwn before old count cluster := by
  have inFat := (lt_min_iff.1 (proper.hasEntry has)).1
  by_cases listed : ∃ q < count', new q = cluster
  · refine ⟨fun _ => ?_, fun _ => .inr listed⟩
    obtain ⟨q, inChain, rfl⟩ := listed
    by_cases low : q < count
    · exact .inr ⟨q, low, (grown.kept q low).symm⟩
    · exact .inl (grown.free q (by omega) inChain)
  · have same : after cluster.toNat = before cluster.toNat := grown.others _ inFat
      fun q inChain same => listed ⟨q, inChain, BitVec.eq_of_toNat_eq same⟩
    constructor
    · rintro (free | own)
      · exact .inl (same ▸ free)
      · exact absurd own listed
    · rintro (free | ⟨q, inChain, rfl⟩)
      · exact .inl (same.trans free)
      · exact absurd ⟨q, by omega, grown.kept q inChain⟩ listed

/-- A shorter chain has given the others back. -/
theorem Cut.pool {before after : Nat → BitVec 32} {kept : Nat} (proper : f.Proper)
    (cut : Cut f before after blocks count kept) (le : kept ≤ count)
    (start : ∀ q < kept, new q = blocks q) {cluster : BitVec 32}
    (has : f.HasCluster cluster) :
    FreeOrOwn after new kept cluster ↔ FreeOrOwn before blocks count cluster := by
  have inFat := (lt_min_iff.1 (proper.hasEntry has)).1
  by_cases listed : ∃ q < count, blocks q = cluster
  · refine ⟨fun _ => .inr listed, fun _ => ?_⟩
    obtain ⟨q, inChain, rfl⟩ := listed
    by_cases low : q < kept
    · exact .inr ⟨q, low, start q low⟩
    · exact .inl (cut.freed q (by omega) inChain)
  · have same : after cluster.toNat = before cluster.toNat := cut.others _ inFat
      fun _ q _ inChain same => listed ⟨q, inChain, BitVec.eq_of_toNat_eq same⟩
    constructor
    · rintro (free | ⟨q, inChain, rfl⟩)
      · exact .inl (same ▸ free)
      · exact absurd ⟨q, by omega, (start q inChain).symm⟩ listed
    · rintro (free | own)
      · exact .inl (same.trans free)
      · exact absurd own listed

/-- What an extension leaves of the bytes of a file: those that it had, and 0 in
new clusters as far as these are zeroed. -/
structure Lengthened (f : Fs) (world : World) (count count' : Nat) (before after : Bytes) : Prop where
  le : count ≤ count'
  kept : ∀ j < count * f.clusterSize, after j = before j
  zero : ∀ j, count * f.clusterSize ≤ j → j < count' * f.clusterSize →
    j % f.clusterSize < 512 ∨ world.CleanBehind f → after j = 0

/-- Two lists of clusters share none. -/
def Apart (other : Blocklist) (n : Nat) (blocks : Blocklist) (count : Nat) : Prop :=
  ∀ p < n, ∀ q < count, other p ≠ blocks q

theorem Apart.symm {other : Blocklist} {n : Nat} (apart : Apart other n blocks count) :
    Apart blocks count other n := fun q inChain p inOther same => apart p inOther q inChain same.symm

/-- A call that edits a file takes free clusters and gives its own back, and changes no
entry and no byte of other clusters, but bytes of its directory. -/
structure Touches (f : Fs) (tail : Nat) (dir : Blocklist) (dirCount : Nat) (blocks new : Blocklist)
    (count count' : Nat) (before after : Image) : Prop where
  pool : ∀ cluster, f.HasCluster cluster →
    (FreeOrOwn after.entry new count' cluster ↔ FreeOrOwn before.entry blocks count cluster)
  entries : ∀ cluster, f.HasCluster cluster → ¬ FreeOrOwn before.entry blocks count cluster →
    after.entry cluster.toNat = before.entry cluster.toNat
  views : ∀ other n, FileChain f before.entry other n → Apart other n blocks count →
    Apart other n dir dirCount → f.Behind tail other n →
    ∀ j < n * f.clusterSize, fileView f other after.data j = fileView f other before.data j

namespace Touches

variable {between after : Image} {count'' : Nat} {new' : Blocklist}

theorem refl (image : Image) : Touches f tail dir dirCount blocks blocks count count image image where
  pool _ _ := Iff.rfl
  entries _ _ _ := rfl
  views _ _ _ _ _ _ _ _ := rfl

/-- Chains of other clusters stay. -/
theorem chains (touches : Touches f tail dir dirCount blocks new count count' image after)
    {other : Blocklist} {n : Nat} (chain : FileChain f image.entry other n)
    (apart : Apart other n blocks count) :
    FileChain f after.entry other n ∧ Apart other n new count' := by
  have foreign (p : Nat) (inOther : p < n) : ¬ FreeOrOwn image.entry blocks count (other p) := by
    rintro (free | ⟨q, inChain, same⟩)
    · exact chain.entry_nonzero inOther free
    · exact apart p inOther q inChain same.symm
  refine ⟨⟨chain.isChain.congr_next fun p inOther => ?_, chain.clusters⟩,
    fun p inOther q inChain same => ?_⟩
  · rw [nextIn, nextIn, touches.entries _ (chain.clusters p inOther) (foreign p inOther)]
  · exact foreign p inOther
      ((touches.pool _ (chain.clusters p inOther)).1 (.inr ⟨q, inChain, same.symm⟩))

theorem trans (first : Touches f tail dir dirCount blocks new count count' image between)
    (second : Touches f tail dir dirCount new new' count' count'' between after) :
    Touches f tail dir dirCount blocks new' count count'' image after where
  pool cluster has := (second.pool cluster has).trans (first.pool cluster has)
  entries cluster has foreign := by
    rw [second.entries cluster has fun own => foreign ((first.pool cluster has).1 own),
      first.entries cluster has foreign]
  views other n chain apart fromDir behind j below := by
    obtain ⟨chain', apart'⟩ := first.chains chain apart
    rw [second.views other n chain' apart' fromDir behind j below,
      first.views other n chain apart fromDir behind j below]

/-- Only bytes of the file have changed. -/
theorem rewritten {data : Bytes} (proper : f.Proper) (clusters : ∀ q < count, f.HasCluster (blocks q))
    (outside : SameOutsideFrom f tail blocks count image.data data) :
    Touches f tail dir dirCount blocks blocks count count image { image with data := data } where
  pool _ _ := Iff.rfl
  entries _ _ _ := rfl
  views _ _ chain apart _ behind _ below :=
    fileView_apart proper chain.clusters clusters apart behind
      (fun i high changed => outside i high fun q inChain => changed q (Nat.zero_le q) inChain) below

end Touches

/-- The entry of a file after a call: written with what the handle has then, or as it
was, as is what it is written with. -/
def EntryUpdated (f : Fs) (tail : Nat) (dir : Blocklist) (dirCount : Nat) (old new : FatFile)
    (before after : Bytes) : Prop :=
  f.Behind tail dir dirCount →
    EntryWritten f dir dirCount new.dirEntry new.size before after ∨
      (new.dirEntry = old.dirEntry ∧ new.size = old.size ∧
        ∀ j < dirCount * f.clusterSize, fileView f dir after j = fileView f dir before j)

/-- What a successful call that edits a file leaves. -/
structure Edited (disk : DiskId) (fs : FsPtr) (f : Fs) (tail : Nat) (world : World)
    (dir : Blocklist) (dirCount : Nat) (image : Image) (blocks : Blocklist) (count : Nat)
    (s : Machine × FatFile) (image' : Image) (new : Blocklist) (count' : Nat)
    (t : Machine × FatFile) : Prop where
  onVolume : OnVolume disk fs f tail world dir dirCount image' new count' t
  same : SameEntry s.2 t.2
  touches : Touches f tail dir dirCount blocks new count count' image image'
  entry : EntryUpdated f tail dir dirCount s.2 t.2 image.data image'.data

variable {total : Prop} (proper : f.Proper) (fits : f.TailFits tail) (numbered : f.Numbered)
  (memory : total → ∀ n, world.noMemory n = false)

/-- A size fits in the clusters that it takes. -/
theorem le_blocksOf (sized : 0 < f.clusterSize) (size : Nat) : size ≤ f.blocksOf size * f.clusterSize := by
  have := Nat.div_add_mod (size + f.clusterSize - 1) f.clusterSize
  have := Nat.mod_lt (size + f.clusterSize - 1) sized
  unfold Fs.blocksOf
  rw [Nat.mul_comm]
  omega

include proper

/-- What a longer chain and the update of the entry touch. -/
theorem Grown.touches {old : Blocklist} {after : Image} {zeroed : Bytes}
    (grown : Grown f image.entry after.entry old new count count') (le : count ≤ count')
    (zeroes : Zeroed f tail world new count count' image.data zeroed)
    (outside : SameOutsideFrom f tail dir dirCount zeroed after.data)
    (clusters : ∀ q < dirCount, f.HasCluster (dir q)) :
    Touches f tail dir dirCount old new count count' image after where
  pool _ has := grown.pool proper le has
  entries cluster has foreign := by
    refine grown.others _ (lt_min_iff.1 (proper.hasEntry has)).1 fun q inChain same => foreign ?_
    exact (grown.pool proper le has).1 (.inr ⟨q, inChain, BitVec.eq_of_toNat_eq same⟩)
  views other n chain apart fromDir behind j below := by
    obtain ⟨apart', -⟩ := grown.apart proper chain apart
    have entry : fileView f other after.data j = fileView f other zeroed j :=
      fileView_apart proper chain.clusters clusters fromDir behind
        (fun i high changed => outside i high fun q inDir => changed q (Nat.zero_le q) inDir) below
    rw [entry]
    exact fileView_apart proper chain.clusters
      (fun q inChain => (grown.chain (by omega)).clusters q inChain) apart' behind zeroes.outside
      below

/-- What a shorter chain and the update of the entry touch. -/
theorem Cut.touches {after : Image} {kept : Nat}
    (cut : Cut f image.entry after.entry blocks count kept) (le : kept ≤ count)
    (start : ∀ q < kept, new q = blocks q)
    (outside : SameOutsideFrom f tail dir dirCount image.data after.data)
    (clusters : ∀ q < dirCount, f.HasCluster (dir q)) :
    Touches f tail dir dirCount blocks new count kept image after where
  pool _ has := cut.pool proper le start has
  entries cluster has foreign := by
    refine cut.others _ (lt_min_iff.1 (proper.hasEntry has)).1 fun _ q _ inChain same => foreign ?_
    exact .inr ⟨q, inChain, BitVec.eq_of_toNat_eq same⟩
  views _ _ chain _ fromDir behind _ below :=
    fileView_apart proper chain.clusters clusters fromDir behind
      (fun i high changed => outside i high fun q inDir => changed q (Nat.zero_le q) inDir) below

/-- What zeroing the new clusters leaves of the bytes of the file. -/
theorem Zeroed.lengthens {old : Blocklist} {before after : Nat → BitVec 32} {data data' : Bytes}
    (zeroed : Zeroed f tail world new count count' data data')
    (grown : Grown f before after old new count count') (le : count ≤ count')
    (behind : f.Behind tail new count') :
    Lengthened f world count count' (fileView f old data) (fileView f new data') := by
  have sized : 0 < f.clusterSize := proper.power.size
  have has (q : Nat) (inChain : q < count') : f.HasCluster (new q) :=
    (grown.chain (by omega)).clusters q inChain
  have start (q : Nat) (inChain : q < count') : 512 * tail ≤ f.clusterStart (new q) :=
    Nat.mul_le_mul_left _ (behind q inChain)
  refine ⟨le, fun j below => ?_, fun j low high clean => ?_⟩
  · have block : j / f.clusterSize < count := Nat.div_lt_of_lt_mul (by rwa [Nat.mul_comm])
    have rest := Nat.mod_lt j sized
    have first := start _ (block.trans_le le)
    unfold fileView
    rw [← grown.kept _ block]
    refine zeroed.outside _ (by omega) fun q added inChain inside => ?_
    refine hasCluster_disjoint proper (has _ (block.trans_le le)) (has q inChain) (fun same => ?_)
      ⟨by omega, by omega⟩ inside
    have := (grown.chain (by omega)).isChain.distinct (block.trans_le le) inChain same
    omega
  · have block : j / f.clusterSize < count' := Nat.div_lt_of_lt_mul (by rwa [Nat.mul_comm])
    have added : count ≤ j / f.clusterSize := (Nat.le_div_iff_mul_le sized).2 low
    have rest := Nat.mod_lt j sized
    have first := start _ block
    unfold fileView
    refine zeroed.zero _ added block _ (by omega) ⟨by omega, by omega⟩ ?_
    rcases clean with near | clean
    · exact .inl (by omega)
    · exact .inr clean

include fits memory in
/-- Extending a file. -/
theorem OnVolume.extends
    (onVolume : OnVolume disk fs f tail world dir dirCount image blocks count s) {newSize : Nat}
    (grows : s.2.size < newSize) (small : newSize + f.clusterSize ≤ 2 ^ 32)
    (enough : total → f.blocksOf newSize - count ≤ (freeFrom f image.entry 2).card) :
    ends total (fat32ExtendFile disk newSize)
      (fun _ t => t.2.size = newSize ∧ ∃ image' new,
        Edited disk fs f tail world dir dirCount image blocks count s image' new
          (max count (f.blocksOf newSize)) t ∧
        Lengthened f world count (max count (f.blocksOf newSize)) (fileView f blocks image.data)
          (fileView f new image'.data) ∧
        (f.Behind tail dir dirCount →
          EntryWritten f dir dirCount t.2.dirEntry newSize image.data image'.data)) s := by
  obtain ⟨m, file⟩ := s
  have sized : 0 < f.clusterSize := proper.power.size
  have positive : 0 < newSize := Nat.zero_lt_of_lt grows
  have needed := blocksNeeded_of_fits sized positive small
  rw [← needed] at enough ⊢
  refine ends_mono (extendFile_ends proper fits memory onVolume.onFs onVolume.holds onVolume.handle
    onVolume.entryIn positive.ne' enough) ?_
  rintro - t ⟨image', new, extended, front, written⟩
  rw [needed] at extended ⊢
  have grown := extended.grown
  have same := extended.same
  have chained (q : Nat) (inChain : q < max count (f.blocksOf newSize)) : f.HasCluster (new q) :=
    (grown.chain (by omega)).clusters q inChain
  have behind : f.Behind tail new (max count (f.blocksOf newSize)) := by
    intro q inChain
    by_cases old : q < count
    · rw [grown.kept q old]
      exact onVolume.behind q old
    · exact onVolume.free _ (chained q inChain) (grown.free q (by omega) inChain)
  obtain ⟨zeroedData, zeroed, outside⟩ := extended.data
  obtain ⟨filed, apart⟩ := extended.entry (by rw [same.attrib]; exact onVolume.regular)
  have lengthened := zeroed.lengthens proper grown (le_max_left ..) behind
  have kept {j : Nat} (below : j < max count (f.blocksOf newSize) * f.clusterSize) :
      fileView f new image'.data j = fileView f new zeroedData j :=
    fileView_apart proper chained filed.chain.clusters (fun i inChain j inDir same =>
      apart j inDir i inChain same.symm) behind (fun i high changed => outside i high
      fun q inDir => changed q (Nat.zero_le q) inDir) below
  have room : newSize ≤ max count (f.blocksOf newSize) * f.clusterSize := by
    exact (le_blocksOf sized newSize).trans (Nat.mul_le_mul_right _ (le_max_right ..))
  have onVolume' : OnVolume disk fs f tail world dir dirCount image' new
      (max count (f.blocksOf newSize)) t :=
    { holds := extended.holds
      onFs := same.fs.trans onVolume.onFs
      regular := by rw [same.attrib]; exact onVolume.regular
      handle := extended.handle
      filed := filed
      apart := apart
      room := extended.size.le.trans room
      small := by rw [extended.size]; exact small
      behind := behind
      free := onVolume.free_kept fun _ has => grown.pool proper (le_max_left ..) has }
  have updated (behind : f.Behind tail dir dirCount) :
      EntryWritten f dir dirCount t.2.dirEntry newSize image.data image'.data :=
    written onVolume.regular behind
  refine ⟨extended.size, image', new, ⟨onVolume', same,
    grown.touches proper (le_max_left ..) zeroed outside filed.chain.clusters, fun behind => .inl ?_⟩,
    ⟨lengthened.le, fun j below => ?_, fun j low high clean => ?_⟩, updated⟩
  · rw [extended.size]
    exact updated behind
  · rw [kept (below.trans_le (Nat.mul_le_mul_right _ lengthened.le))]
    exact lengthened.kept j below
  · rw [kept high]
    exact lengthened.zero j low high clean

omit proper in
/-- Another version of the bytes of the file. -/
theorem OnVolume.rewritten
    (onVolume : OnVolume disk fs f tail world dir dirCount image blocks count s) {m : Machine}
    {data : Bytes} (holds : HoldsImage disk fs f tail world { image with data := data } m) :
    OnVolume disk fs f tail world dir dirCount { image with data := data } blocks count (m, s.2) :=
  ⟨holds, onVolume.onFs, onVolume.regular, onVolume.handle, onVolume.filed, onVolume.apart,
    onVolume.room, onVolume.small, onVolume.behind, onVolume.free⟩

include numbered

/-- Writing inside a file. -/
theorem OnVolume.writes
    (onVolume : OnVolume disk fs f tail world dir dirCount image blocks count s) {offset len : Nat}
    (buf : Bytes) (inside : offset + len ≤ s.2.size) :
    wp (fat32FileWrite disk buf offset len)
      (fun ret t => ret = len ∧ t.2 = s.2 ∧ ∃ data,
        OnVolume disk fs f tail world dir dirCount { image with data := data } blocks count t ∧
        SameOutsideFrom f tail blocks count image.data data ∧
        ∀ j < count * f.clusterSize,
          fileView f blocks data j = splice (fileView f blocks image.data) offset buf len j)
      (fun _ _ => False) s := by
  obtain ⟨m, file⟩ := s
  have sized : 0 < f.clusterSize := proper.power.size
  have room := onVolume.room
  have small := onVolume.small
  rcases Nat.eq_zero_or_pos count with rfl | some_
  · -- an empty file has no cluster to write to
    obtain rfl : offset = 0 := by omega
    obtain rfl : len = 0 := by omega
    have mounted : (m.disk disk).fs = some fs := onVolume.holds.mounted
    have fsMem : m.fsMem fs = f := onVolume.holds.fsMem
    have nothing : ¬ file.size < w32 (0 + 0) := Nat.not_lt_zero _
    unfold fat32FileWrite fat32FileWriteWith fat32FileRw
    simp only [wp_bind, wp_theFile, if_neg nothing, wp_lift, wp_attempt, wp_mountedFs mounted,
      wp_readFs, fsMem, wp_divide, Nat.zero_and, ne_eq, not_true, if_false]
    refine ⟨sized.ne', ?_⟩
    rw [rwClusters, if_neg (Nat.not_le_of_lt sized), if_pos rfl]
    exact ⟨rfl, rfl, image.data, onVolume, fun _ _ _ => rfl, fun j below => by omega⟩
  · refine wp_mono (writeEntry_holds proper onVolume.holds
      (onVolume.openFile numbered some_) (fun i inChain => onVolume.clusters inChain) inside room
      (by omega) buf (fat32ExtendFile disk)) ?_ (fun _ _ never => never)
    rintro ret ⟨u, file'⟩ ⟨rfl, rfl, data, holds, outside, written⟩
    exact ⟨rfl, rfl, data, onVolume.rewritten holds, outside, written onVolume.behind⟩

omit numbered

include fits memory in
/-- Truncating a file. -/
theorem OnVolume.truncates
    (onVolume : OnVolume disk fs f tail world dir dirCount image blocks count s) {newSize : Nat}
    (less : newSize < s.2.size) :
    ends total (fat32TruncateFile disk newSize)
      (fun _ t => t.2.size = newSize ∧ ∃ image' new,
        Edited disk fs f tail world dir dirCount image blocks count s image' new
          (min count (f.blocksOf newSize)) t ∧
        ∀ j < newSize, fileView f new image'.data j = fileView f blocks image.data j) s := by
  obtain ⟨m, file⟩ := s
  have sized : 0 < f.clusterSize := proper.power.size
  have small := onVolume.small
  have room := onVolume.room
  have kept := blocksKept_eq sized (.inr (by omega : newSize + f.clusterSize ≤ 2 ^ 32))
  refine ends_mono (truncateFile_ends proper fits memory onVolume.onFs onVolume.holds onVolume.handle
    onVolume.entryIn less) ?_
  rintro - t ⟨size, image', new, holds, shrunk, outside, written⟩
  rw [kept] at shrunk
  have same := shrunk.same
  have cut := shrunk.cut
  have le : min count (f.blocksOf newSize) ≤ count := min_le_left ..
  have filed := onVolume.filed
  have behind : f.Behind tail new (min count (f.blocksOf newSize)) := by
    intro q inChain
    rw [shrunk.start q inChain]
    exact onVolume.behind q (inChain.trans_le le)
  have apart : Apart dir dirCount new (min count (f.blocksOf newSize)) := by
    intro p inDir q inChain
    rw [shrunk.start q inChain]
    exact onVolume.apart p inDir q (inChain.trans_le le)
  have fits_ : newSize ≤ min count (f.blocksOf newSize) * f.clusterSize := by
    rcases min_choice count (f.blocksOf newSize) with all | fewer
    · rw [all]
      exact less.le.trans room
    · rw [fewer]
      exact le_blocksOf sized newSize
  refine ⟨size, image', new, ⟨?_, same,
    cut.touches proper le shrunk.start outside filed.chain.clusters, fun behind => .inl ?_⟩,
    fun j below => ?_⟩
  · exact
      { holds := holds
        onFs := same.fs.trans onVolume.onFs
        regular := by rw [same.attrib]; exact onVolume.regular
        handle := shrunk.handle
        filed := filed.congr (cut.apart proper filed.chain onVolume.apart) same.parent same.index
        apart := apart
        room := size.le.trans fits_
        small := by
          rw [size]
          exact (Nat.add_le_add_right less.le _).trans small
        behind := behind
        free := onVolume.free_kept fun _ has =>
          cut.pool proper le shrunk.start has }
  · rw [size]
    exact written onVolume.regular behind
  · have block : j / f.clusterSize < min count (f.blocksOf newSize) :=
      Nat.div_lt_of_lt_mul (by rw [Nat.mul_comm]; omega)
    have listed : fileView f new image'.data j = fileView f blocks image'.data j := by
      unfold fileView
      rw [shrunk.start _ block]
    rw [listed]
    exact fileView_apart proper (fun q inChain => onVolume.clusters inChain) filed.chain.clusters
      (fun i inChain k inDir same => onVolume.apart k inDir i inChain same.symm) onVolume.behind
      (fun i high changed => outside i high fun q inDir => changed q (Nat.zero_le q) inDir)
      (below.trans_le (less.le.trans room))

/-- A write inside the file after an edit. -/
theorem Edited.rewrites {t u : Machine × FatFile} {image' : Image} {data : Bytes}
    (edited : Edited disk fs f tail world dir dirCount image blocks count s image' new count' t)
    (onVolume : OnVolume disk fs f tail world dir dirCount { image' with data := data } new count' u)
    (same : u.2 = t.2) (outside : SameOutsideFrom f tail new count' image'.data data) :
    Edited disk fs f tail world dir dirCount image blocks count s { image' with data := data } new
      count' u where
  onVolume := onVolume
  same := by rw [same]; exact edited.same
  touches := edited.touches.trans
    (Touches.rewritten proper (fun q inChain => edited.onVolume.clusters inChain) outside)
  entry behind := by
    have filed := edited.onVolume.filed
    have view (j : Nat) (below : j < dirCount * f.clusterSize) :
        fileView f dir data j = fileView f dir image'.data j :=
      fileView_apart proper filed.chain.clusters (fun q inChain => edited.onVolume.clusters inChain)
        edited.onVolume.apart behind
        (fun i high changed => outside i high fun q inChain => changed q (Nat.zero_le q) inChain) below
    rcases edited.entry behind with ⟨old, isOld, new⟩ | ⟨entry, size, kept⟩
    · rw [same]
      exact .inl ⟨old, isOld, fun j below => (view j below).trans (new j below)⟩
    · rw [same]
      exact .inr ⟨entry, size, fun j below => (view j below).trans (kept j below)⟩

omit proper in
theorem Edited.refl (onVolume : OnVolume disk fs f tail world dir dirCount image blocks count s) :
    Edited disk fs f tail world dir dirCount image blocks count s image blocks count s :=
  ⟨onVolume, ⟨rfl, rfl, rfl, rfl, rfl⟩, Touches.refl image,
    fun _ => .inr ⟨rfl, rfl, fun _ _ => rfl⟩⟩

end Edits

/-! ## The calls -/

/-- A call that edits a file. -/
inductive Edit where
  | write (buf : Bytes) (offset len : Nat)
  | truncate (newSize : Nat)

/-- `fat32_file_write` that returns the length. -/
def writeStep (disk : DiskId) (s : Machine × FatFile) (buf : Bytes) (offset len : Nat) :
    Option (Machine × FatFile) :=
  match fat32FileWrite disk buf offset len s with
  | some (.ok ret, t) => if ret = len then some t else none
  | _ => none

/-- A call that succeeds.  Where a write of no bytes fails to extend the file it returns its
length, too. -/
def Edit.step (disk : DiskId) (s : Machine × FatFile) : Edit → Option (Machine × FatFile)
  | .write buf offset len =>
      if s.2.size < w32 (offset + len) then
        match fat32ExtendFile disk (w32 (offset + len)) s with
        | some (.ok _, _) => writeStep disk s buf offset len
        | _ => none
      else writeStep disk s buf offset len
  | .truncate newSize =>
      match fat32TruncateFile disk newSize s with
      | some (.ok _, t) => some t
      | _ => none

/-- No size wraps, and neither does the number of clusters that it takes. -/
def Edit.Small (f : Fs) : Edit → Prop
  | .write _ offset len => offset + len + f.clusterSize ≤ 2 ^ 32
  | .truncate _ => True

/-- A file as far as its calls specify it, and how many clusters it has. -/
structure Contents where
  file : Sparse
  count : Nat

/-- What is known of the bytes of a file behind its end: they are 0 in the first
`reach` bytes of new clusters. -/
def Contents.gap (f : Fs) (reach : Nat) (contents : Contents) (j : Nat) : Option (BitVec 8) :=
  if contents.count * f.clusterSize ≤ j ∧ j % f.clusterSize < reach then some 0 else none

/-- What a call is for. -/
def Edit.apply (f : Fs) (reach : Nat) (contents : Contents) : Edit → Contents
  | .write buf offset len =>
      { file := contents.file.write (contents.gap f reach) offset buf len
        count := max contents.count (f.blocksOf (offset + len)) }
  | .truncate newSize =>
      if contents.file.size ≤ newSize then contents
      else { file := contents.file.truncate newSize
             count := min contents.count (f.blocksOf newSize) }

section Calls

variable {disk : DiskId} {fs : FsPtr} {f : Fs} {tail : Nat} {world : World} {image : Image}
  {dir : Blocklist} {dirCount : Nat} {blocks : Blocklist} {s t u : Machine × FatFile}
  {buf : Bytes} {offset len : Nat} {edit : Edit}

theorem writeStep_iff : writeStep disk s buf offset len = some t ↔
    fat32FileWrite disk buf offset len s = some (.ok len, t) := by
  unfold writeStep
  split
  · rename_i ret u run
    rw [run]
    by_cases same : ret = len
    · rw [if_pos same, same]
      simp
    · rw [if_neg same]
      simp [same]
  · rename_i other
    constructor
    · rintro ⟨⟩
    · exact fun run => absurd run (other len t)

theorem step_write_iff : Edit.step disk s (.write buf offset len) = some t ↔
    (s.2.size < w32 (offset + len) →
      ∃ u, fat32ExtendFile disk (w32 (offset + len)) s = some (.ok (), u)) ∧
    fat32FileWrite disk buf offset len s = some (.ok len, t) := by
  unfold Edit.step
  dsimp only
  by_cases grows : s.2.size < w32 (offset + len)
  · rw [if_pos grows]
    split
    · rename_i u run
      rw [writeStep_iff, run]
      simp
    · rename_i other
      constructor
      · rintro ⟨⟩
      · rintro ⟨extends_, -⟩
        obtain ⟨u, run⟩ := extends_ grows
        exact absurd run (other () u)
  · rw [if_neg grows, writeStep_iff]
    simp [grows]

theorem step_truncate_iff {newSize : Nat} : Edit.step disk s (.truncate newSize) = some t ↔
    fat32TruncateFile disk newSize s = some (.ok (), t) := by
  unfold Edit.step
  dsimp only
  split
  · rename_i u run
    rw [run]
    simp
  · rename_i other
    constructor
    · rintro ⟨⟩
    · exact fun run => absurd run (other () t)

/-- A write that extends the file is one of the extended file. -/
theorem fileWrite_extended (grows : s.2.size < w32 (offset + len))
    (extends_ : fat32ExtendFile disk (w32 (offset + len)) s = some (.ok (), u))
    (size : u.2.size = w32 (offset + len)) :
    fat32FileWrite disk buf offset len s = fat32FileWrite disk buf offset len u := by
  have inSize : ¬ u.2.size < w32 (offset + len) := by omega
  have read (v : Machine × FatFile) : (theFile : FileM FatFile) v = some (.ok v.2, v) := rfl
  have attempted : attempt (fat32ExtendFile disk (w32 (offset + len))) s =
      some (.ok (.ok ()), u) := by
    unfold attempt
    rw [extends_]
    rfl
  unfold fat32FileWrite fat32FileWriteWith
  rw [bind_ok (read s), bind_ok (read u), if_pos grows, if_neg inSize, bind_ok attempted]

/-- A handle on a file that its calls specify as `contents`. -/
structure Editing (disk : DiskId) (fs : FsPtr) (f : Fs) (tail : Nat) (world : World) (dir : Blocklist)
    (dirCount : Nat) (contents : Contents) (image : Image) (blocks : Blocklist)
    (s : Machine × FatFile) : Prop where
  onVolume : OnVolume disk fs f tail world dir dirCount image blocks contents.count s
  size : contents.file.size = s.2.size
  shown : contents.file.Shown (fileView f blocks image.data)

/-- A read through a handle with the clusters of a file returns what is specified of it, and
changes nothing. -/
theorem fileRead_reads {m : Machine} {file : FatFile} {contents : Sparse} {count : Nat}
    (proper : f.Proper) (holds : HoldsImage disk fs f tail world image m)
    (opened : 0 < count → OpenFile f file blocks count) (behind : f.Behind tail blocks count)
    (room : file.size ≤ count * f.clusterSize) (small : file.size < 2 ^ 32)
    (size : contents.size = file.size) (shown : contents.Shown (fileView f blocks image.data))
    (whole : offset + len < 2 ^ 32) :
    wp (fat32FileRead disk file buf offset len)
      (fun result t => contents.Reads offset len buf result ∧ t.toCore = m.toCore)
      (fun _ _ => False) m := by
  have sized : 0 < f.clusterSize := proper.power.size
  by_cases inside : offset + len ≤ file.size
  · rcases Nat.eq_zero_or_pos count with none_ | some_
    · -- an empty file has no cluster to read from
      rw [none_] at room
      obtain rfl : offset = 0 := by omega
      obtain rfl : len = 0 := by omega
      have mounted : (m.disk disk).fs = some fs := holds.mounted
      have fsMem : m.fsMem fs = f := holds.fsMem
      have nothing : ¬ file.size < w32 (0 + 0) := Nat.not_lt_zero _
      unfold fat32FileRead fat32FileRw
      simp only [if_neg nothing, wp_bind, wp_attempt, wp_mountedFs mounted, wp_readFs, fsMem,
        wp_divide, Nat.zero_and, ne_eq, not_true, if_false]
      refine ⟨sized.ne', ?_⟩
      rw [rwClusters, if_neg (Nat.not_le_of_lt sized), if_pos rfl]
      refine ⟨?_, rfl⟩
      have copied : contents.Reads 0 0 buf
          (0, splice buf 0 (slice (fileView f blocks image.data) 0) 0) := shown.reads (Nat.zero_le _)
      rwa [splice_zero] at copied
    · have reads := reads_back holds.reliable holds.mounted
        (by rw [holds.fsMem]; exact opened some_)
        (by rw [holds.fsMem]; exact proper.power) (by rw [holds.fsMem]; exact room) small
        (fun _ _ => rfl) offset len buf inside
      refine wp_mono reads ?_ (fun _ _ never => never)
      rintro result t ⟨rfl, io, trace, rfl⟩
      refine ⟨?_, rfl⟩
      rw [holds.fsMem]
      refine Sparse.Shown.reads (shown.congr fun j below => ?_) (size ▸ inside)
      exact fileView_behind behind holds.data (by
        rw [size] at below
        exact below.trans_le room)
  · unfold fat32FileRead
    rw [w32_of_lt whole, if_pos (by omega), wp_pure]
    refine ⟨?_, rfl⟩
    unfold Sparse.Reads
    rw [if_neg (by rw [size]; exact inside)]

/-- **A read returns what is specified.** -/
theorem Editing.reads {contents : Contents} (proper : f.Proper) (numbered : f.Numbered)
    (editing : Editing disk fs f tail world dir dirCount contents image blocks s) (buf : Bytes)
    (whole : offset + len < 2 ^ 32) :
    wp (fat32FileRead disk s.2 buf offset len)
      (fun result t => contents.file.Reads offset len buf result ∧ t.toCore = s.1.toCore)
      (fun _ _ => False) s.1 := by
  obtain ⟨onVolume, size, shown⟩ := editing
  have small := onVolume.small
  have sized : 0 < f.clusterSize := proper.power.size
  exact fileRead_reads proper onVolume.holds (onVolume.openFile numbered) onVolume.behind
    onVolume.room (by omega) size shown whole

/-- **A successful call does to the file what it is for.** -/
theorem Editing.step {contents : Contents} {reach : Nat} (proper : f.Proper)
    (fits : f.TailFits tail) (numbered : f.Numbered) (clean : reach ≤ 512 ∨ world.CleanBehind f)
    (editing : Editing disk fs f tail world dir dirCount contents image blocks s)
    (small : edit.Small f) (run : edit.step disk s = some t) :
    ∃ image' new, Editing disk fs f tail world dir dirCount (edit.apply f reach contents) image' new t ∧
      Edited disk fs f tail world dir dirCount image blocks contents.count s image' new
        (edit.apply f reach contents).count t := by
  obtain ⟨onVolume, size, shown⟩ := editing
  have sized : 0 < f.clusterSize := proper.power.size
  have room := onVolume.room
  cases edit with
  | write buf offset len =>
      have small : offset + len + f.clusterSize ≤ 2 ^ 32 := small
      have whole : w32 (offset + len) = offset + len := w32_of_lt (by omega)
      obtain ⟨extends_, writes⟩ := step_write_iff.1 run
      by_cases grows : s.2.size < offset + len
      · obtain ⟨u, extended⟩ := extends_ (by rwa [whole])
        rw [whole] at extended
        obtain ⟨size', image', new, edited, lengthened, -⟩ := wlp_ok
          (onVolume.extends proper fits False.elim grows small False.elim).wlp extended
        rw [fileWrite_extended (by rwa [whole]) (by rwa [whole]) (by rwa [whole])] at writes
        obtain ⟨-, same, data, onVolume', outside, written⟩ := wlp_ok (wlp_of_wp
          (edited.onVolume.writes proper numbered buf size'.ge) (fun _ _ holds => holds)
          (fun _ _ never => never)) writes
        have room' := edited.onVolume.room
        refine ⟨_, new, ⟨onVolume', ?_, ?_⟩, edited.rewrites proper onVolume' same outside⟩
        · change max contents.file.size (offset + len) = _
          rw [same, size', size]
          omega
        · refine shown.write (fun i inRange => ?_) (fun j below outside => ?_)
            fun j low high v known => ?_
          · rw [written _ (by omega), splice_at inRange]
          · have below' : j < contents.count * f.clusterSize := by omega
            rw [written j (below'.trans_le (Nat.mul_le_mul_right _ lengthened.le)),
              splice_outside outside, lengthened.kept j below']
          · unfold Contents.gap at known
            by_cases zero : contents.count * f.clusterSize ≤ j ∧ j % f.clusterSize < reach
            · rw [if_pos zero] at known
              cases known
              rw [written j (by omega), splice_outside (.inl high)]
              refine lengthened.zero j zero.1 (by omega) ?_
              exact clean.imp (fun near => by omega) id
            · rw [if_neg zero] at known
              cases known
      · have inside : offset + len ≤ s.2.size := Nat.le_of_not_lt grows
        obtain ⟨-, same, data, onVolume', outside, written⟩ := wlp_ok (wlp_of_wp
          (onVolume.writes proper numbered buf inside) (fun _ _ holds => holds)
          (fun _ _ never => never)) writes
        have count : (Edit.apply f reach contents (.write buf offset len)).count = contents.count :=
          max_eq_left (blocksOf_le sized room inside)
        rw [count]
        refine ⟨_, blocks, ⟨by rw [count]; exact onVolume', ?_, ?_⟩,
          (Edited.refl onVolume).rewrites proper onVolume' same outside⟩
        · change max contents.file.size (offset + len) = _
          rw [same, size]
          omega
        · refine shown.write (fun i inRange => ?_) (fun j below outside => ?_)
            fun j low high v known => by omega
          · rw [written _ (by omega), splice_at inRange]
          · rw [written j (by omega), splice_outside outside]
  | truncate newSize =>
      have truncates := step_truncate_iff.1 run
      unfold Edit.apply
      dsimp only
      by_cases less : newSize < s.2.size
      · obtain ⟨size', image', new, edited, kept⟩ := wlp_ok
          (onVolume.truncates proper fits False.elim less).wlp truncates
        rw [if_neg (by omega)]
        refine ⟨image', new, ⟨edited.onVolume, ?_, shown.truncate fun j below => kept j (by omega)⟩,
          edited⟩
        change min contents.file.size newSize = _
        omega
      · have nothing : fat32TruncateFile disk newSize s = some (.ok (), s) := by
          have read : (theFile : FileM FatFile) s = some (.ok s.2, s) := rfl
          unfold fat32TruncateFile
          rw [bind_ok read, if_pos (Nat.le_of_not_lt less)]
          rfl
        rw [nothing] at truncates
        cases truncates
        rw [if_pos (by omega)]
        exact ⟨image, blocks, ⟨onVolume, size, shown⟩, Edited.refl onVolume⟩

/-- **A call for which there are free clusters succeeds**, where `malloc` does. -/
theorem Editing.succeeds {contents : Contents} {reach : Nat} (proper : f.Proper)
    (fits : f.TailFits tail) (numbered : f.Numbered) (memory : ∀ n, world.noMemory n = false)
    (editing : Editing disk fs f tail world dir dirCount contents image blocks s)
    (small : edit.Small f)
    (enough : (edit.apply f reach contents).count - contents.count ≤ (freeFrom f image.entry 2).card) :
    ∃ t, edit.step disk s = some t := by
  obtain ⟨onVolume, size, -⟩ := editing
  cases edit with
  | write buf offset len =>
      have small : offset + len + f.clusterSize ≤ 2 ^ 32 := small
      have sized : 0 < f.clusterSize := proper.power.size
      have whole : w32 (offset + len) = offset + len := w32_of_lt (by omega)
      have more : f.blocksOf (offset + len) - contents.count ≤ (freeFrom f image.entry 2).card := by
        refine le_trans ?_ enough
        exact Nat.sub_le_sub_right (le_max_right ..) _
      by_cases grows : s.2.size < offset + len
      · obtain ⟨_, u, extended, size', image', new, edited, -⟩ := (onVolume.extends proper fits
          (fun _ => memory) grows small fun _ : True => more).run trivial
        obtain ⟨ret, t, written, same, -⟩ :=
          wp_run (edited.onVolume.writes proper numbered buf size'.ge)
        rw [same] at written
        rw [← whole] at grows extended size'
        refine ⟨t, step_write_iff.2 ⟨fun _ => ⟨u, extended⟩, ?_⟩⟩
        rw [fileWrite_extended grows extended size']
        exact written
      · obtain ⟨ret, t, written, same, -⟩ :=
          wp_run (onVolume.writes proper numbered buf (Nat.le_of_not_lt grows))
        rw [same] at written
        rw [← whole] at grows
        exact ⟨t, step_write_iff.2 ⟨fun grows' => absurd grows' grows, written⟩⟩
  | truncate newSize =>
      by_cases less : newSize < s.2.size
      · obtain ⟨_, t, run, -⟩ :=
          (onVolume.truncates proper fits (fun _ : True => memory) less).run trivial
        exact ⟨t, step_truncate_iff.2 run⟩
      · have read : (theFile : FileM FatFile) s = some (.ok s.2, s) := rfl
        refine ⟨s, step_truncate_iff.2 ?_⟩
        unfold fat32TruncateFile
        rw [bind_ok read, if_pos (Nat.le_of_not_lt less)]
        rfl

end Calls

end TestOs.Fat32
