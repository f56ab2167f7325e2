/-
# Fat32.Claiming -- which clusters fat32_extend_file takes

`get_next_cluster_fat32` returns 0 for the entry of a free cluster, and also when
the FAT sector could not be read.  `fat32_extend_file` takes a cluster for which
it gets 0, so a failed read in its search makes it zero and allocate whatever
cluster it was looking at.

`Claims` and `Asks` say what the loop of `fat32_extend_file` does, in terms of
the functions it calls: the clusters it takes, each with the machine at that
moment, and the clusters whose entries it asks for.  `claims_iff` connects the
two, and `extension_claims_free_iff` says for which faults every cluster taken
is one whose entry was read and is 0.
-/
import TestOs.Fat32.Extending
import TestOs.Fat32.FreeSpace

namespace TestOs.Fat32

open TestOs.Library Prog

set_option autoImplicit false

/-! ## The device operations of a fetch -/

/-- The writes of `commit_fat32_buffer` up to the first that fails: whether none
does, and the number of the operation behind them. -/
def commitOps (fault : Nat → Option Nat) : Nat → Nat → Bool × Nat
  | 0, io => (true, io)
  | copies + 1, io =>
      if (fault io).isNone then commitOps fault copies (io + 1) else (false, io + 1)

/-- The operations that make the buffer free. -/
def Machine.evictOps (m : Machine) : Bool × Nat :=
  match m.bufChanged, m.bufFs with
  | true, some old => commitOps m.world.fault (m.fsMem old).numFats m.io
  | _, _ => (true, m.io)

/-- The operations of `get_fat32_buffer` for a sector of the disk: whether the
buffer holds the sector afterwards, and the number of the operation behind them. -/
def Machine.fetchOps (m : Machine) (fs : FsPtr) (sector : Nat) : Bool × Nat :=
  if m.bufFs = some fs ∧ m.bufSector = sector then (true, m.io)
  else if m.evictOps.1 then ((m.world.fault m.evictOps.2).isNone, m.evictOps.2 + 1)
  else (false, m.evictOps.2)

/-- The world and the file systems are the same. -/
structure SameWorld (s t : Machine) : Prop where
  world : t.world = s.world
  fsMem : t.fsMem = s.fsMem

theorem SameWorld.refl (s : Machine) : SameWorld s s := ⟨rfl, rfl⟩

theorem SameWorld.trans {s t u : Machine} (first : SameWorld s t) (second : SameWorld t u) :
    SameWorld s u := ⟨second.world.trans first.world, second.fsMem.trans first.fsMem⟩

section Fetch

variable {disk : DiskId} {fs : FsPtr} {s : Machine}

theorem commitLoop_ops (fatSectors copies sector : Nat) (s : Machine) :
    wp (commitLoop disk fatSectors copies sector)
      (fun _ t => SameWorld s t ∧ commitOps s.world.fault copies s.io = (true, t.io))
      (fun _ t => SameWorld s t ∧ commitOps s.world.fault copies s.io = (false, t.io)) s := by
  induction copies generalizing sector s with
  | zero => exact ⟨.refl s, rfl⟩
  | succ copies ih =>
      simp only [commitLoop, wp_bind, wp_note, wp_state, wp_deviceWrite, ran_world, ran_io,
        wp_ite, commitOps]
      refine ⟨fun succeeds => ?_, fun fails => ?_⟩
      · rw [if_pos succeeds]
        refine wp_mono (ih _ _) ?_ ?_ <;>
        · rintro - t ⟨same, ops⟩
          exact ⟨⟨same.world, same.fsMem⟩, ops⟩
      · rw [if_neg fails]
        exact ⟨⟨rfl, rfl⟩, rfl⟩

theorem commitFat32Buffer_ops (holds : s.bufFs = some fs) :
    wp (commitFat32Buffer disk fs)
      (fun _ t => SameWorld s t ∧
        commitOps s.world.fault (s.fsMem fs).numFats s.io = (true, t.io))
      (fun _ t => SameWorld s t ∧
        commitOps s.world.fault (s.fsMem fs).numFats s.io = (false, t.io)) s := by
  simp only [commitFat32Buffer, wp_bind, wp_state, if_pos holds, wp_readFs, wp_update]
  refine wp_mono (commitLoop_ops _ _ _ s) ?_ fun _ _ failed => failed
  rintro - t ⟨same, ops⟩
  exact ⟨⟨same.world, same.fsMem⟩, ops⟩

/-- What `get_fat32_buffer` says of the buffer. -/
def Answered (fs : FsPtr) (sector : Nat) (ok : Bool) (t : Machine) : Prop :=
  if ok then t.bufFs = some fs ∧ t.bufSector = sector else t.bufFs = none

theorem fillBuffer_ops (sector : Nat) (s : Machine) :
    wp (fillBuffer disk fs sector)
      (fun ok t => SameWorld s t ∧ Answered fs sector ok t ∧
        ((s.world.fault s.io).isNone, s.io + 1) = (ok, t.io))
      (fun _ _ => False) s := by
  simp only [fillBuffer, wp_bind, wp_state, wp_deviceRead, wp_update]
  by_cases succeeds : (s.world.fault s.io).isNone
  · simp only [if_pos succeeds, wp_bind, wp_note, wp_update, wp_pure]
    exact ⟨⟨rfl, rfl⟩, ⟨rfl, rfl⟩, by rw [succeeds]; rfl⟩
  · simp only [if_neg succeeds, wp_bind, forgetBuffer, wp_update, wp_pure]
    exact ⟨⟨rfl, rfl⟩, rfl, by rw [eq_false_of_ne_true succeeds]; rfl⟩

/-- `get_fat32_buffer` fails exactly with an operation of the fetch. -/
theorem getFat32Buffer_ops (sector : Nat) (s : Machine) :
    let at_ := w32 (sector + (s.fsMem fs).reservedSectors)
    wp (getFat32Buffer disk fs sector)
      (fun ok t => SameWorld s t ∧ Answered fs at_ ok t ∧ s.fetchOps fs at_ = (ok, t.io))
      (fun _ _ => False) s := by
  intro at_
  unfold getFat32Buffer Machine.fetchOps
  simp only [wp_bind, wp_readFs, wp_state]
  by_cases hit : s.bufFs = some fs ∧ s.bufSector = at_
  · rw [if_pos hit, if_pos hit]
    exact ⟨.refl s, hit, rfl⟩
  · rw [if_neg hit, if_neg hit]
    split
    · rename_i old changed holds
      have evicts : s.evictOps = commitOps s.world.fault (s.fsMem old).numFats s.io := by
        simp only [Machine.evictOps, changed, holds]
      rw [evicts]
      simp only [wp_bind, wp_attempt]
      refine wp_mono (commitFat32Buffer_ops holds) ?_ ?_
      · rintro - t ⟨same, ops⟩
        rw [ops]
        refine wp_mono (fillBuffer_ops _ t) ?_ fun _ _ never => never
        rintro ok u ⟨same', answered, ops'⟩
        refine ⟨same.trans same', answered, ?_⟩
        rw [← ops', same.world]
        rfl
      · rintro - t ⟨same, ops⟩
        rw [ops]
        exact ⟨⟨same.world, same.fsMem⟩, rfl, rfl⟩
    · rename_i other
      have evicts : s.evictOps = (true, s.io) := by
        unfold Machine.evictOps
        split
        · rename_i old changed holds
          exact absurd holds (other old changed)
        · rfl
      rw [evicts]
      exact fillBuffer_ops _ s

/-- `get_next_cluster_fat32` returns the entry, or 0 where the fetch fails. -/
theorem getNextClusterFat32_ops (disk : DiskId) (fs : FsPtr) (cluster : BitVec 32) (s : Machine) :
    let at_ := (s.fsMem fs).entrySector cluster
    wp (getNextClusterFat32 disk fs cluster)
      (fun value t => SameWorld s t ∧ ∃ ok, s.fetchOps fs at_ = (ok, t.io) ∧ Answered fs at_ ok t ∧
        value = if ok then entryView (word t.buf (fat32Offset cluster)) else 0)
      (fun _ _ => False) s := by
  simp only [getNextClusterFat32, wp_bind]
  refine wp_mono (getFat32Buffer_ops (fat32Sector cluster) s) ?_ fun _ _ never => never
  rintro ok t ⟨same, answered, ops⟩
  cases ok with
  | true => exact ⟨⟨same.world, same.fsMem⟩, true, ops, answered, rfl⟩
  | false => exact ⟨same, false, ops, answered, rfl⟩

/-- The buffer holds the entry of a cluster, and it is 0. -/
def Machine.ReadFree (m : Machine) (fs : FsPtr) (cluster : BitVec 32) : Prop :=
  m.bufFs = some fs ∧ m.bufSector = (m.fsMem fs).entrySector cluster ∧
    word m.buf (fat32Offset cluster) = 0

/-- A cluster for which 0 was returned is free where the fetch succeeded, and only there. -/
theorem zero_entry {cluster : BitVec 32} {s t : Machine}
    (zero : getNextClusterFat32 disk fs cluster s = some (.ok 0, t)) :
    SameWorld s t ∧ t.io = (s.fetchOps fs ((s.fsMem fs).entrySector cluster)).2 ∧
      (t.ReadFree fs cluster ↔
        (s.fetchOps fs ((s.fsMem fs).entrySector cluster)).1 = true) := by
  obtain ⟨value, u, run, same, ok, ops, answered, value_⟩ :=
    wp_run (getNextClusterFat32_ops disk fs cluster s)
  rw [zero] at run
  cases run
  refine ⟨same, by rw [ops], ?_⟩
  rw [ops]
  cases ok with
  | true =>
      refine iff_of_true ⟨answered.1, ?_, entryView_eq_zero.1 value_.symm⟩ rfl
      rw [same.fsMem]
      exact answered.2
  | false =>
      refine iff_of_false (fun free => ?_) Bool.false_ne_true
      exact absurd (answered.symm.trans free.1) (by simp)

/-- Where the fetch fails, 0 is returned. -/
theorem failed_entry {cluster : BitVec 32} {s : Machine}
    (failed : (s.fetchOps fs ((s.fsMem fs).entrySector cluster)).1 = false) :
    ∃ t, getNextClusterFat32 disk fs cluster s = some (.ok 0, t) := by
  obtain ⟨value, t, run, -, ok, ops, -, value_⟩ :=
    wp_run (getNextClusterFat32_ops disk fs cluster s)
  rw [ops] at failed
  cases failed
  exact ⟨t, by rw [run, value_]; rfl⟩

end Fetch

/-! ## What the loop looks at, and what it takes -/

section Search

variable (disk : DiskId) (fs : FsPtr)

/-- The search from cluster `j` on asks for the entry of a cluster. -/
inductive SearchAsks : Nat → Nat → Machine → Machine → Nat → Prop where
  | here {left j : Nat} {m : Machine} : SearchAsks (left + 1) j m m j
  | later {left j k : Nat} {m t u : Machine} {entry : BitVec 32}
      (taken : getNextClusterFat32 disk fs (BitVec.ofNat 32 j) m = some (.ok entry, t))
      (used : entry ≠ 0) (rest : SearchAsks left (j + 1) t u k) : SearchAsks (left + 1) j m u k

/-- The loop over the new blocks asks for the entry of a cluster. -/
inductive Asks (clusters : Nat) : Nat → Nat → Nat → Machine × FatFile → Machine → Nat → Prop where
  | here {left i freeIndex k : Nat} {m u : Machine} {file : FatFile}
      (asks : SearchAsks disk fs (clusters - freeIndex) freeIndex m u k) :
      Asks clusters (left + 1) i freeIndex (m, file) u k
  | later {left i freeIndex j k : Nat} {m t u : Machine} {file : FatFile} {s : Machine × FatFile}
      (found : searchFree disk fs (clusters - freeIndex) freeIndex m = some (.ok (some j), t))
      (claimed : claimCluster disk fs i (BitVec.ofNat 32 j) (t, file) = some (.ok (), s))
      (rest : Asks clusters left (i + 1) (j + 1) s u k) :
      Asks clusters (left + 1) i freeIndex (m, file) u k

/-- The loop over the new blocks takes a cluster, with the machine as it is then. -/
inductive Claims (clusters : Nat) : Nat → Nat → Nat → Machine × FatFile → Machine → Nat → Prop where
  | here {left i freeIndex k : Nat} {m t : Machine} {file : FatFile}
      (found : searchFree disk fs (clusters - freeIndex) freeIndex m = some (.ok (some k), t)) :
      Claims clusters (left + 1) i freeIndex (m, file) t k
  | later {left i freeIndex j k : Nat} {m t u : Machine} {file : FatFile} {s : Machine × FatFile}
      (found : searchFree disk fs (clusters - freeIndex) freeIndex m = some (.ok (some j), t))
      (claimed : claimCluster disk fs i (BitVec.ofNat 32 j) (t, file) = some (.ok (), s))
      (rest : Claims clusters left (i + 1) (j + 1) s u k) :
      Claims clusters (left + 1) i freeIndex (m, file) u k

variable {disk fs}

theorem searchFree_succ {left j : Nat} {m t : Machine} {entry : BitVec 32}
    (asked : getNextClusterFat32 disk fs (BitVec.ofNat 32 j) m = some (.ok entry, t)) :
    searchFree disk fs (left + 1) j m =
      if entry = 0 then some (.ok (some j), t) else searchFree disk fs left (j + 1) t := by
  simp only [searchFree, bind, asked]
  by_cases zero : entry = 0
  · rw [if_pos zero, if_pos zero]
    rfl
  · rw [if_neg zero, if_neg zero]

/-- The search ends with the cluster for which it got 0. -/
theorem searchFree_iff {left j k : Nat} {m t : Machine} :
    searchFree disk fs left j m = some (.ok (some k), t) ↔
      ∃ u, SearchAsks disk fs left j m u k ∧
        getNextClusterFat32 disk fs (BitVec.ofNat 32 k) u = some (.ok 0, t) := by
  induction left generalizing j m with
  | zero =>
      constructor
      · intro found
        cases found
      · rintro ⟨u, asks, -⟩
        cases asks
  | succ left ih =>
      obtain ⟨entry, t', asked, -⟩ :=
        wp_run (getNextClusterFat32_ops disk fs (BitVec.ofNat 32 j) m)
      rw [searchFree_succ asked]
      by_cases zero : entry = 0
      · subst zero
        rw [if_pos rfl]
        constructor
        · intro found
          cases found
          exact ⟨m, .here, asked⟩
        · rintro ⟨u, asks, zero⟩
          cases asks with
          | here =>
              rw [asked] at zero
              cases zero
              rfl
          | later asked' used rest =>
              rw [asked] at asked'
              cases asked'
              exact absurd rfl used
      · rw [if_neg zero, ih]
        constructor
        · rintro ⟨u, asks, last⟩
          exact ⟨u, .later asked zero asks, last⟩
        · rintro ⟨u, asks, last⟩
          cases asks with
          | here =>
              rw [asked] at last
              cases last
              exact absurd rfl zero
          | later asked' used rest =>
              rw [asked] at asked'
              cases asked'
              exact ⟨u, rest, last⟩

/-- **The loop takes the clusters for which it got 0.** -/
theorem claims_iff {clusters left i freeIndex k : Nat} {s : Machine × FatFile} {t : Machine} :
    Claims disk fs clusters left i freeIndex s t k ↔
      ∃ u, Asks disk fs clusters left i freeIndex s u k ∧
        getNextClusterFat32 disk fs (BitVec.ofNat 32 k) u = some (.ok 0, t) := by
  constructor
  · intro claims
    induction claims with
    | here found =>
        obtain ⟨u, asks, zero⟩ := searchFree_iff.1 found
        exact ⟨u, .here asks, zero⟩
    | later found claimed _ ih =>
        obtain ⟨u, asks, zero⟩ := ih
        exact ⟨u, .later found claimed asks, zero⟩
  · rintro ⟨u, asks, zero⟩
    induction asks with
    | here asks => exact .here (searchFree_iff.2 ⟨_, asks, zero⟩)
    | later found claimed _ ih => exact .later found claimed (ih zero)

/-! ## The file systems stay as they are -/

theorem getNextClusterFat32_sameWorld (m : Machine) (cluster : BitVec 32) :
    Preserves (SameWorld m) (getNextClusterFat32 disk fs cluster) :=
  keeps_of_wp fun s start => wp_mono (getNextClusterFat32_ops disk fs cluster s)
    (fun _ _ ⟨same, _⟩ => ⟨start.trans same, trivial⟩) fun _ _ never => never.elim

theorem setNextClusterFat32_sameWorld (m : Machine) (cluster next : BitVec 32) :
    Preserves (SameWorld m) (setNextClusterFat32 disk fs cluster next) := by
  have gets : Preserves (SameWorld m) (getFat32Buffer disk fs (fat32Sector cluster)) :=
    keeps_of_wp fun s start => wp_mono (getFat32Buffer_ops _ s)
      (fun _ _ ⟨same, _⟩ => ⟨start.trans same, trivial⟩) fun _ _ never => never.elim
  refine gets.bind fun ok _ => Keeps.ite (fun _ => ?_) fun _ => keeps_fail
  exact keeps_update fun s start => ⟨start.world, start.fsMem⟩

theorem fat32ZeroCluster_sameWorld (m : Machine) (cluster : BitVec 32) :
    Preserves (SameWorld m) (fat32ZeroCluster disk fs cluster) := by
  refine keeps_state.bind fun s _ => (readFs_keeps _).bind fun f _ => ?_
  have writes : Preserves (SameWorld m) (deviceWrite disk (getDataClusterOffset f cluster)
      (slice (fun i => if i < 512 then 0 else s.world.stray s.io (i - 512)) 0) f.clusterSectors) :=
    keeps_of_wp fun s start => wp_deviceWrite.2 ⟨⟨start.world, start.fsMem⟩, trivial⟩
  exact writes.bind fun _ _ => Keeps.ite (fun _ => keeps_pure trivial) fun _ => keeps_fail

theorem claimCluster_sameWorld (m : Machine) (i : Nat) (cluster : BitVec 32) :
    Preserves (fun s : Machine × FatFile => SameWorld m s.1) (claimCluster disk fs i cluster) :=
  claimCluster_preserves (fun _ => (fat32ZeroCluster_sameWorld m _).fst)
    (fun _ _ => (setNextClusterFat32_sameWorld m _ _).fst)
    (fun _ _ => keeps_update fun _ same => same) i cluster

theorem searchAsks_sameWorld {left j k : Nat} {m u : Machine}
    (asks : SearchAsks disk fs left j m u k) : SameWorld m u := by
  induction asks with
  | here => exact .refl _
  | later taken _ _ ih => exact (getNextClusterFat32_sameWorld _ _ _ _ _ (.refl _) taken).1.trans ih

theorem asks_sameWorld {clusters left i freeIndex k : Nat} {s : Machine × FatFile} {u : Machine}
    (asks : Asks disk fs clusters left i freeIndex s u k) : SameWorld s.1 u := by
  induction asks with
  | here asks => exact searchAsks_sameWorld asks
  | later found claimed _ ih =>
      obtain ⟨v, asks, zero⟩ := searchFree_iff.1 found
      have search := (searchAsks_sameWorld asks).trans (zero_entry zero).1
      exact (claimCluster_sameWorld _ _ _ _ _ _ search claimed).1.trans ih

end Search

/-! ## The whole call -/

/-- Where the loop of `fat32_extend_file` starts, if it is reached: the blocklist
has to grow, and there is memory for it. -/
def extendStart (newSize : Nat) (s : Machine × FatFile) : Option (Machine × FatFile) :=
  let f := s.1.fsMem s.2.fs
  if newSize = 0 ∨ f.clusterSize = 0 ∨ f.blocksNeeded newSize ≤ s.2.blocklistSize then none
  else
    match reallocBlocklist s.2.blocklist s.2.blocklistSize s.1 with
    | some (.ok (some blocklist), t) =>
        some (t, { s.2 with
          blocklist := some blocklist
          blocklistSize := f.blocksNeeded newSize })
    | _ => none

section Call

variable (disk : DiskId) (newSize : Nat) (s : Machine × FatFile)

/-- The loop of this call. -/
def newClustersLoop : FileM Unit :=
  extendLoop disk s.2.fs (clusterBound (s.1.fsMem s.2.fs))
    ((s.1.fsMem s.2.fs).blocksNeeded newSize - s.2.blocklistSize) s.2.blocklistSize 2

/-- `fat32_extend_file` asks for the entry of a cluster. -/
def ExtendAsks (u : Machine) (k : Nat) : Prop :=
  ∃ start, extendStart newSize s = some start ∧
    Asks disk s.2.fs (clusterBound (s.1.fsMem s.2.fs))
      ((s.1.fsMem s.2.fs).blocksNeeded newSize - s.2.blocklistSize) s.2.blocklistSize 2 start u k

/-- `fat32_extend_file` takes a cluster. -/
def ExtendClaims (t : Machine) (k : Nat) : Prop :=
  ∃ start, extendStart newSize s = some start ∧
    Claims disk s.2.fs (clusterBound (s.1.fsMem s.2.fs))
      ((s.1.fsMem s.2.fs).blocksNeeded newSize - s.2.blocklistSize) s.2.blocklistSize 2 start t k

variable {disk newSize s}

theorem extendStart_eq {start : Machine × FatFile} (reached : extendStart newSize s = some start) :
    newSize ≠ 0 ∧ (s.1.fsMem s.2.fs).clusterSize ≠ 0 ∧
      s.2.blocklistSize < (s.1.fsMem s.2.fs).blocksNeeded newSize ∧
      ∃ blocklist, reallocBlocklist s.2.blocklist s.2.blocklistSize s.1 =
          some (.ok (some blocklist), start.1) ∧
        start.2 = { s.2 with
          blocklist := some blocklist
          blocklistSize := (s.1.fsMem s.2.fs).blocksNeeded newSize } := by
  unfold extendStart at reached
  by_cases stops : newSize = 0 ∨ (s.1.fsMem s.2.fs).clusterSize = 0 ∨
      (s.1.fsMem s.2.fs).blocksNeeded newSize ≤ s.2.blocklistSize
  · rw [if_pos stops] at reached
    cases reached
  · rw [if_neg stops] at reached
    push Not at stops
    refine ⟨stops.1, stops.2.1, stops.2.2, ?_⟩
    split at reached
    · rename_i blocklist t run
      cases reached
      exact ⟨blocklist, run, rfl⟩
    · cases reached

theorem extendStart_reached (positive : newSize ≠ 0)
    (sized : (s.1.fsMem s.2.fs).clusterSize ≠ 0)
    (needed : s.2.blocklistSize < (s.1.fsMem s.2.fs).blocksNeeded newSize)
    (memory : s.1.world.noMemory s.1.mallocs = false) :
    ∃ file, extendStart newSize s = some ({ s.1 with mallocs := s.1.mallocs + 1 }, file) := by
  obtain ⟨blocklist, run⟩ : ∃ blocklist, reallocBlocklist s.2.blocklist s.2.blocklistSize s.1 =
      some (.ok (some blocklist), { s.1 with mallocs := s.1.mallocs + 1 }) := by
    simp only [reallocBlocklist, mallocBlocklist, bind, state, update, pure, memory]
    exact ⟨_, rfl⟩
  unfold extendStart
  rw [if_neg (not_or.2 ⟨positive, not_or.2 ⟨sized, needed.not_ge⟩⟩), run]
  exact ⟨_, rfl⟩

theorem lift_ok {α : Type} {p : FatM α} {m t : Machine} {file : FatFile} {a : α}
    (run : p m = some (.ok a, t)) : (liftM p : FileM α) (m, file) = some (.ok a, (t, file)) := by
  change (p m).map _ = _
  rw [run]
  rfl

theorem numClusters_run (m : Machine) (x : Nat) {clusterSize : Nat} (sized : clusterSize ≠ 0) :
    numClusters x clusterSize m =
      some (.ok (w32 (x + clusterSize + (2 ^ 32 - 1)) / clusterSize), m) := by
  unfold numClusters divide ensure
  rw [if_pos sized]
  rfl

theorem blocksFor_run (m : Machine) (f : Fs) (size : Nat) (sized : f.clusterSize ≠ 0) :
    blocksFor size f.clusterSize m = some (.ok (f.blocksNeeded size), m) := by
  unfold blocksFor
  rw [bind_ok (numClusters_run m size sized)]
  rfl

/-- From there on `growBlocklist` is the loop and the commit behind it. -/
theorem growBlocklist_start {start : Machine × FatFile} (reached : extendStart newSize s = some start) :
    growBlocklist disk ((s.1.fsMem s.2.fs).blocksNeeded newSize) s =
      (do
        newClustersLoop disk newSize s
        liftM (commitFat32Buffer disk s.2.fs) : FileM Unit) start := by
  obtain ⟨-, sized, -, blocklist, run, handle⟩ := extendStart_eq reached
  obtain ⟨m, file⟩ := s
  obtain ⟨t, file'⟩ := start
  simp only at sized run handle
  have sectors : (m.fsMem file.fs).clusterSectors ≠ 0 :=
    fun none => sized (by rw [Fs.clusterSize, none, Nat.zero_mul])
  have clusters := @lift_ok _ _ _ _ file _ (numClusters_run m (w32 ((m.fsMem file.fs).totalSectors.toNat +
    (2 ^ 32 - (m.fsMem file.fs).firstDataCluster.toNat))) sectors)
  have grown := @lift_ok _ _ _ _ file _ run
  unfold growBlocklist
  rw [bind_ok (show theFile (m, file) = some (.ok file, (m, file)) from rfl),
    bind_ok (show (liftM (readFs file.fs) : FileM Fs) (m, file) =
      some (.ok (m.fsMem file.fs), (m, file)) from rfl), bind_ok clusters, bind_ok grown]
  have stored : setFile (fun file => { file with blocklist := some blocklist }) (t, file) =
      some (.ok (), (t, { file with blocklist := some blocklist })) := rfl
  have sized' : setFile (fun file' => { file' with
      blocklistSize := (m.fsMem file.fs).blocksNeeded newSize })
      (t, { file with blocklist := some blocklist }) = some (.ok (), (t, file')) := by
    rw [handle]
    rfl
  have memory : ¬ (some blocklist).isNone = true := Bool.false_ne_true
  rw [bind_ok stored, if_neg memory, bind_ok sized', newClustersLoop, clusterBound]

/-- From there on the call is the loop, and what follows it. -/
theorem extendFile_start {start : Machine × FatFile} (reached : extendStart newSize s = some start) :
    fat32ExtendFile disk newSize s =
      (do
        newClustersLoop disk newSize s
        liftM (commitFat32Buffer disk s.2.fs)
        setFile fun file => { file with size := newSize }
        if (← theFile).dirEntry.attrib &&& fatAttribDir = 0 then
          liftM (fat32DirUpdateEntry disk (← theFile)) : FileM Unit) start := by
  obtain ⟨positive, sized, needed, -⟩ := extendStart_eq reached
  have grown := @growBlocklist_start disk newSize s start reached
  obtain ⟨m, file⟩ := s
  simp only at needed grown
  unfold fat32ExtendFile fat32ExtendFileWith
  rw [if_neg positive, bind_ok (show theFile (m, file) = some (.ok file, (m, file)) from rfl),
    bind_ok (show (liftM (readFs file.fs) : FileM Fs) (m, file) =
      some (.ok (m.fsMem file.fs), (m, file)) from rfl)]
  have blocks := @lift_ok _ _ _ _ file _ (blocksFor_run m (m.fsMem file.fs) newSize sized)
  rw [bind_ok blocks, if_pos needed]
  exact then_congr_run grown

theorem extendClaims_iff {k : Nat} {t : Machine} :
    ExtendClaims disk newSize s t k ↔ ∃ u, ExtendAsks disk newSize s u k ∧
      getNextClusterFat32 disk s.2.fs (BitVec.ofNat 32 k) u = some (.ok 0, t) := by
  unfold ExtendClaims ExtendAsks
  constructor
  · rintro ⟨start, reached, claims⟩
    obtain ⟨u, asks, zero⟩ := claims_iff.1 claims
    exact ⟨u, ⟨start, reached, asks⟩, zero⟩
  · rintro ⟨u, ⟨start, reached, asks⟩, zero⟩
    exact ⟨start, reached, claims_iff.2 ⟨u, asks, zero⟩⟩

/-- The file system is still the same, and it has clusters. -/
theorem extendAsks_sectors {k : Nat} {u : Machine} (asks : ExtendAsks disk newSize s u k) :
    0 < (u.fsMem s.2.fs).clusterSectors := by
  obtain ⟨start, reached, asks⟩ := asks
  obtain ⟨-, sized, -, blocklist, run, -⟩ := extendStart_eq reached
  obtain ⟨same, -⟩ := wlp_ok (reallocBlocklist_wlp _ _) run
  rw [(asks_sameWorld asks).fsMem, same]
  refine Nat.pos_of_ne_zero fun none => sized ?_
  rw [Fs.clusterSize, none, Nat.zero_mul]

/-- An operation reaches no sector only where it fails before the first. -/
theorem transferred_pos_iff {m : Machine} {count : Nat} (some_ : 0 < count) :
    0 < m.transferred count ↔ m.world.fault m.io ≠ some 0 := by
  unfold Machine.transferred
  cases m.world.fault m.io with
  | none => simp [some_]
  | some done => simp [some_, Nat.pos_iff_ne_zero]

/-- **`fat32_extend_file` touches only clusters whose entry was read as 0 exactly
when each fetch of its search succeeds, or the zeroing behind it reaches no sector.** -/
theorem extension_claims_free_iff (disk : DiskId) (newSize : Nat) (s : Machine × FatFile) :
    (∀ t k, ExtendClaims disk newSize s t k →
        0 < t.transferred (t.fsMem s.2.fs).clusterSectors →
        t.ReadFree s.2.fs (BitVec.ofNat 32 k)) ↔
      ∀ u k, ExtendAsks disk newSize s u k →
        let fetch := u.fetchOps s.2.fs ((u.fsMem s.2.fs).entrySector (BitVec.ofNat 32 k))
        fetch.1 = true ∨ u.world.fault fetch.2 = some 0 := by
  constructor
  · intro holds u k asks
    by_contra fails
    obtain ⟨failed, reaches⟩ := not_or.1 fails
    have failed := eq_false_of_ne_true failed
    obtain ⟨t, zero⟩ := @failed_entry disk _ _ _ failed
    obtain ⟨same, io, free⟩ := zero_entry zero
    have touched : 0 < t.transferred (t.fsMem s.2.fs).clusterSectors := by
      rw [transferred_pos_iff (by rw [same.fsMem]; exact extendAsks_sectors asks), same.world, io]
      exact reaches
    have := free.1 (holds t k (extendClaims_iff.2 ⟨u, asks, zero⟩) touched)
    rw [failed] at this
    cases this
  · intro holds t k claims touched
    obtain ⟨u, asks, zero⟩ := extendClaims_iff.1 claims
    obtain ⟨same, io, free⟩ := zero_entry zero
    rcases holds u k asks with fetched | lost
    · exact free.2 fetched
    · rw [transferred_pos_iff (by rw [same.fsMem]; exact extendAsks_sectors asks), same.world,
        io] at touched
      exact absurd lost touched

end Call

/-! ## A sector that cannot be read -/

/-- A volume whose only data cluster is in use and holds four letters; the first
device operation fails. -/
def unreadableVolume : Machine :=
  { Machine.mounted (fun _ => smallFs 1 2015 2047) fun _ =>
      putWord (putWord (bootSector 1 32 1 2048 2015) (512 * 32 + 8) 0x0fffffff)
        (512 * 2047 + 64) 0x44434241 with
    world := { fullVolume.world with fault := fun n => if n = 0 then some 0 else none } }

theorem unreadableVolume_asks :
    ExtendAsks 0 1 (unreadableVolume, emptyFile) { unreadableVolume with mallocs := 1 } 2 := by
  have blocks : (unreadableVolume.fsMem emptyFile.fs).blocksNeeded 1 - emptyFile.blocklistSize = 1 := by
    decide +kernel
  have bound : clusterBound (unreadableVolume.fsMem emptyFile.fs) = 3 := by decide +kernel
  obtain ⟨file, reached⟩ := @extendStart_reached 1 (unreadableVolume, emptyFile) one_ne_zero
    (by decide +kernel) (by decide +kernel) rfl
  refine ⟨_, reached, ?_⟩
  simp only [blocks, bound]
  exact .here .here

/-- The read of the FAT fails, and `fat32_extend_file` zeroes the cluster, allocates
it and succeeds. -/
theorem unread_cluster_taken :
    (∃ t, ExtendClaims 0 1 (unreadableVolume, emptyFile) t 2 ∧
      0 < t.transferred (t.fsMem 0).clusterSectors ∧ ¬ t.ReadFree 0 2) ∧
    (word (unreadableVolume.disk 0).data (512 * 32 + 8),
      word (unreadableVolume.disk 0).data (512 * 2047 + 64)) = (0x0fffffff, 0x44434241) ∧
    (fat32ExtendFile 0 1 (unreadableVolume, emptyFile)).map (fun (r, t) =>
        (r, t.2.dirEntry.firstCluster, word (t.1.disk 0).data (512 * 2047 + 64))) =
      some (.ok (), 2, 0) := by
  refine ⟨?_, by decide +kernel, by decide +kernel⟩
  obtain ⟨t, zero⟩ := @failed_entry 0 0 2 { unreadableVolume with mallocs := 1 } (by decide +kernel)
  obtain ⟨same, io, free⟩ := zero_entry zero
  refine ⟨t, extendClaims_iff.2 ⟨_, unreadableVolume_asks, zero⟩, ?_, ?_⟩
  · rw [transferred_pos_iff (by rw [same.fsMem]; exact extendAsks_sectors unreadableVolume_asks), same.world, io]
    decide +kernel
  · rw [free]
    decide +kernel

end TestOs.Fat32
