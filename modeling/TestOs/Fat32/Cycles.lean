/-
# Fat32.Cycles -- when opening a file ends

`fat32_file_open_by_dir_entry` follows the links of the FAT until it finds 0 or an
end mark, and counts nothing.  The walk that it makes when no device operation
fails is `Core.follow` again and again; a failure only ends it earlier.  So the
function returns, whatever fails, exactly when that walk stops
(`open_ends_iff`), and on a FAT where cluster 3 leads to itself it does not.

The FAT buffer may hold what the disk does not have yet.  It is given up at the
first lookup in another sector, and from then on a link depends on the disk and
30 bits of the cluster alone, which bounds the walks that stop.
-/
import TestOs.Library.Walks
import TestOs.Fat32.Opening
import TestOs.Fat32.Blocklists

namespace TestOs.Fat32

open TestOs.Library Prog

set_option autoImplicit false

/-- One lookup when nothing fails: from a core and a cluster to the core behind it and the
next cluster. -/
def Core.follow (disk : DiskId) (fs : FsPtr) (x : Core × BitVec 32) : Core × BitVec 32 :=
  let core := x.1.fetched disk fs ((x.1.fsMem fs).entrySector x.2)
  (core, entryView (word core.buf (fat32Offset x.2)))

/-- The lookup finds a value that the loop leaves at. -/
def Core.LeavesAt (disk : DiskId) (fs : FsPtr) (x : Core × BitVec 32) : Prop :=
  (Core.follow disk fs x).2 = 0 ∨ EndMark (Core.follow disk fs x).2

/-- The links from a cluster come to an end. -/
def Core.LinksEnd (c : Core) (disk : DiskId) (fs : FsPtr) (first : BitVec 32) : Prop :=
  Stops (Core.follow disk fs) (Core.LeavesAt disk fs) (c, first)

/-- `p` returns, with a value or an error. -/
def Ends {α : Type} (p : FatM α) (s : Machine) : Prop := wp p (fun _ _ => True) (fun _ _ => True) s

/-- The machine with another pattern of device failures. -/
def Machine.withFaults (m : Machine) (fault : Nat → Option Nat) : Machine :=
  { m with world := { m.world with fault := fault } }

/-! ## The walk -/

section Walk

variable {disk : DiskId} {fs : FsPtr} {f : Fs} {data : Bytes} {c : Core} {x y : Core × BitVec 32}

/-- The buffer has been given up once: it holds what the disk has. -/
structure Settled (disk : DiskId) (fs : FsPtr) (f : Fs) (data : Bytes) (c : Core) : Prop where
  fsMem : c.fsMem fs = f
  data : (c.disk disk).data = data
  synced : c.Synced disk fs

/-- From then on a link is what the disk says. -/
theorem Settled.follow (settled : Settled disk fs f data c) (cluster : BitVec 32) :
    Settled disk fs f data (Core.follow disk fs (c, cluster)).1 ∧
      (Core.follow disk fs (c, cluster)).2 = nextOf f data cluster := by
  have offset := fat32Offset_le cluster
  obtain ⟨sameDisk, sameFs, sync, holds⟩ := settled.synced.fetched ((c.fsMem fs).entrySector cluster)
  refine ⟨⟨?_, ?_, sync⟩, ?_⟩
  · show (c.fetched disk fs _).fsMem fs = f
    rw [sameFs]
    exact settled.fsMem
  · show ((c.fetched disk fs _).disk disk).data = data
    rw [sameDisk]
    exact settled.data
  · show entryView (word (c.fetched disk fs _).buf (fat32Offset cluster)) = _
    rw [nextOf, fatEntry, ← word_slice, ← settled.data, ← settled.fsMem]
    exact congrArg _ (word_congr fun k low high => holds k (by omega))

/-- A lookup finds its sector in the buffer, or gives the buffer up. -/
theorem follow_cases (c : Core) (cluster : BitVec 32) :
    (Core.follow disk fs (c, cluster)).1 = c ∨
      Settled disk fs (c.fsMem fs) ((c.evicted disk).disk disk).data
        (Core.follow disk fs (c, cluster)).1 := by
  show c.fetched disk fs _ = c ∨ Settled _ _ _ _ (c.fetched disk fs _)
  unfold Core.fetched
  split
  · exact .inl rfl
  · right
    refine ⟨?_, rfl, fun changed => (nomatch changed), fun _ k low => ?_⟩
    · show (c.evicted disk).fsMem fs = c.fsMem fs
      rw [evicted_fsMem]
    · show splice _ 0 _ 1024 k = _
      rw [splice_inside (by omega) (by omega), slice_apply, Nat.sub_zero]
      rfl

/-- Two states of a walk with the same future. -/
def Alike (disk : DiskId) (fs : FsPtr) (f : Fs) (data : Bytes) (x y : Core × BitVec 32) : Prop :=
  x.2.toNat % 2 ^ 30 = y.2.toNat % 2 ^ 30 ∧
    (x.1 = y.1 ∨ Settled disk fs f data x.1 ∧ Settled disk fs f data y.1)

theorem Alike.follow (alike : Alike disk fs f data x y) :
    (Core.follow disk fs x).2 = (Core.follow disk fs y).2 ∧
      Alike disk fs f data (Core.follow disk fs x) (Core.follow disk fs y) := by
  obtain ⟨c, k⟩ := x
  obtain ⟨d, l⟩ := y
  obtain ⟨same, rfl | ⟨settled, settled'⟩⟩ := alike
  · have place : w32 (k.toNat * 4) = w32 (l.toNat * 4) := by
      unfold w32
      simp only [] at same
      omega
    have both : Core.follow disk fs (c, k) = Core.follow disk fs (c, l) := by
      unfold Core.follow Fs.entrySector fat32Sector fat32Offset
      simp only [place]
    rw [both]
    exact ⟨rfl, rfl, .inl rfl⟩
  · obtain ⟨after, value⟩ := settled.follow k
    obtain ⟨after', value'⟩ := settled'.follow l
    have next : (Core.follow disk fs (c, k)).2 = (Core.follow disk fs (d, l)).2 := by
      rw [value, value']
      exact ChainOf.nextOf_congr f data same
    exact ⟨next, by rw [next], .inr ⟨after, after'⟩⟩

/-- A walk whose links end does so within the fuel of the loop. -/
theorem linksEnd_early {first : BitVec 32} (ends : c.LinksEnd disk fs first) :
    ∃ n < 2 ^ 31, Core.LeavesAt disk fs ((Core.follow disk fs)^[n] (c, first)) := by
  classical
  have phases (n : Nat) : ((Core.follow disk fs)^[n] (c, first)).1 = c ∨
      Settled disk fs (c.fsMem fs) ((c.evicted disk).disk disk).data
        ((Core.follow disk fs)^[n] (c, first)).1 := by
    induction n with
    | zero => exact .inl rfl
    | succ n ih =>
      rw [Function.iterate_succ_apply']
      generalize (Core.follow disk fs)^[n] (c, first) = x at ih ⊢
      obtain ⟨d, k⟩ := x
      rcases ih with same | settled
      · obtain rfl : d = c := same
        exact follow_cases d k
      · exact .inr (settled.follow k).1
  refine stops_early (Alike disk fs (c.fsMem fs) ((c.evicted disk).disk disk).data)
    (fun x y alike => alike.follow.2) (fun x y alike leaves => ?_)
    (fun n => (if ((Core.follow disk fs)^[n] (c, first)).1 = c then 0 else 2 ^ 30) +
      ((Core.follow disk fs)^[n] (c, first)).2.toNat % 2 ^ 30) (fun n => ?_) (fun i j same => ?_) ends
  · unfold Core.LeavesAt at leaves ⊢
    rwa [← alike.follow.1]
  · have low := Nat.mod_lt ((Core.follow disk fs)^[n] (c, first)).2.toNat (show 0 < 2 ^ 30 by decide)
    split <;> omega
  · have low := Nat.mod_lt ((Core.follow disk fs)^[i] (c, first)).2.toNat (show 0 < 2 ^ 30 by decide)
    have low' := Nat.mod_lt ((Core.follow disk fs)^[j] (c, first)).2.toNat (show 0 < 2 ^ 30 by decide)
    have phase := phases i
    have phase' := phases j
    split at same <;> split at same
    · next old old' => exact ⟨by omega, .inl (old.trans old'.symm)⟩
    · omega
    · omega
    · next new new' =>
      exact ⟨by omega, .inr ⟨phase.resolve_left new, phase'.resolve_left new'⟩⟩

end Walk

/-! ## The loop -/

section Loop

variable {disk : DiskId} {fs : FsPtr} {s : Machine} {fuel i size : Nat} {blocklist : Blocklist}

theorem mallocBlocklist_ends (ample : s.Ample) {post : Option Blocklist → Machine → Prop}
    {onFail : FatError → Machine → Prop} :
    wp mallocBlocklist post onFail s ↔
      post (some (s.world.garbage s.mallocs)) { s with mallocs := s.mallocs + 1 } := by
  unfold mallocBlocklist
  simp only [wp_bind, wp_state, wp_update, wp_pure, ample s.mallocs, Bool.false_eq_true, if_false]

/-- The part of the loop behind the tests: it goes on with the cluster as the last one of
the list. -/
theorem openLoop_goes_on (ample : s.Ample) (cluster : BitVec 32) :
    ∃ t size' blocklist', t.toCore = s.toCore ∧ t.world = s.world ∧ blocklist' i = cluster ∧
      ∀ (post : Blocklist × Nat × Nat → Machine → Prop) (onFail : FatError → Machine → Prop),
        wp (if size ≤ i then do
              match ← reallocBlocklist (some blocklist) size with
              | none => halt
              | some blocklist =>
                  openLoop disk fs fuel (i + 1) (w32 (size * 2)) (Function.update blocklist i cluster)
            else openLoop disk fs fuel (i + 1) size (Function.update blocklist i cluster)) post onFail s ↔
          wp (openLoop disk fs fuel (i + 1) size' blocklist') post onFail t := by
  by_cases full : size ≤ i
  · refine ⟨{ s with mallocs := s.mallocs + 1 }, w32 (size * 2),
      Function.update (fun j => if j < size then blocklist j else s.world.garbage s.mallocs j) i cluster,
      rfl, rfl, Function.update_self .., fun post onFail => ?_⟩
    simp only [if_pos full, reallocBlocklist, wp_bind, mallocBlocklist_ends ample, wp_pure,
      Option.map_some]
  · refine ⟨s, size, Function.update blocklist i cluster, rfl, rfl, Function.update_self ..,
      fun post onFail => ?_⟩
    rw [if_neg full]

/-- The next turn of the loop, when there is one and nothing failed. -/
structure Turned (disk : DiskId) (fs : FsPtr) (s : Machine) (i : Nat) (cluster : BitVec 32)
    (t : Machine) (blocklist : Blocklist) : Prop where
  core : t.toCore = (Core.follow disk fs (s.toCore, cluster)).1
  world : t.world = s.world
  last : blocklist i = (Core.follow disk fs (s.toCore, cluster)).2

/-- One turn of the loop, whatever fails. -/
theorem openLoop_turn (ample : s.Ample)
    (later : ¬ Core.LeavesAt disk fs (s.toCore, blocklist (i - 1)) →
      ∀ t size' blocklist', Turned disk fs s i (blocklist (i - 1)) t blocklist' →
        Ends (openLoop disk fs fuel (i + 1) size' blocklist') t) :
    Ends (openLoop disk fs (fuel + 1) i size blocklist) s := by
  unfold Ends
  simp only [openLoop, wp_bind]
  refine wp_mono (getNextClusterFat32_succeeds (blocklist (i - 1))) ?_ fun _ _ never => never.elim
  rintro value t (rfl | ⟨io, trace, isValue, rfl⟩)
  · rw [if_pos rfl]
    trivial
  · by_cases zero : value = 0
    · rw [if_pos zero]
      trivial
    · rw [if_neg zero]
      by_cases isEnd : 0xfffffff8 ≤ value.toNat
      · rw [if_pos isEnd]
        trivial
      · rw [if_neg isEnd]
        have goes : ¬ Core.LeavesAt disk fs (s.toCore, blocklist (i - 1)) := by
          rintro (isZero | ends)
          · exact zero (isValue.trans isZero)
          · rw [isValue] at isEnd
            exact isEnd ends
        obtain ⟨u, size', blocklist', core, world, last, same⟩ :=
          @openLoop_goes_on disk fs (s.ran _ io trace) fuel i size blocklist ample value
        refine (same _ _).2 ?_
        exact later goes u size' blocklist' ⟨core, world, last.trans isValue⟩

/-- One turn of the loop when nothing fails. -/
theorem openLoop_turned (reliable : s.Reliable) (ample : s.Ample)
    (ends : Ends (openLoop disk fs (fuel + 1) i size blocklist) s) :
    Core.LeavesAt disk fs (s.toCore, blocklist (i - 1)) ∨
      ∃ t size' blocklist', Turned disk fs s i (blocklist (i - 1)) t blocklist' ∧
        Ends (openLoop disk fs fuel (i + 1) size' blocklist') t := by
  by_contra neither
  push Not at neither
  obtain ⟨goes, never⟩ := neither
  unfold Ends at ends
  simp only [openLoop, wp_bind] at ends
  obtain ⟨value, t, -, ⟨isValue, io, trace, rfl⟩, rest⟩ := wp_run (wp_mono
    (wp_and (getNextClusterFat32_yields disk fs (blocklist (i - 1)) reliable) ends)
    (fun _ _ both => both) fun _ _ both => both.1)
  have zero : ¬ value = 0 := fun zero => goes (.inl (isValue.symm.trans zero))
  have notEnd : ¬ 0xfffffff8 ≤ value.toNat := by
    intro isEnd
    rw [isValue] at isEnd
    exact goes (.inr isEnd)
  rw [if_neg zero, if_neg notEnd] at rest
  obtain ⟨u, size', blocklist', core, world, last, same⟩ :=
    @openLoop_goes_on disk fs (s.ran _ io trace) fuel i size blocklist ample value
  exact never u size' blocklist' ⟨core, world, last.trans isValue⟩ ((same _ _).1 rest)

/-- The loop ends, whatever fails, when the links do. -/
theorem openLoop_ends {n : Nat} (ample : s.Ample) (enough : n < fuel) (read : 1 ≤ i)
    (leaves : Core.LeavesAt disk fs ((Core.follow disk fs)^[n] (s.toCore, blocklist (i - 1)))) :
    Ends (openLoop disk fs fuel i size blocklist) s := by
  induction n generalizing s fuel i size blocklist with
  | zero =>
    obtain ⟨fuel, rfl⟩ : ∃ rest, fuel = rest + 1 := ⟨fuel - 1, by omega⟩
    exact openLoop_turn ample fun goes => absurd leaves goes
  | succ n ih =>
    obtain ⟨fuel, rfl⟩ : ∃ rest, fuel = rest + 1 := ⟨fuel - 1, by omega⟩
    refine openLoop_turn ample fun _ t size' blocklist' turned => ?_
    apply ih (fun k => turned.world ▸ ample k) (by omega) (by omega)
    rw [Nat.add_sub_cancel, turned.core, turned.last]
    exact leaves

/-- When nothing fails it ends only then. -/
theorem openLoop_links (reliable : s.Reliable) (ample : s.Ample)
    (ends : Ends (openLoop disk fs fuel i size blocklist) s) :
    s.toCore.LinksEnd disk fs (blocklist (i - 1)) := by
  induction fuel generalizing s i size blocklist with
  | zero => exact ends.elim
  | succ fuel ih =>
    rcases openLoop_turned reliable ample ends with leaves | ⟨t, size', blocklist', turned, rest⟩
    · exact stops_of_stop leaves
    · apply stops_of_step
      have later := ih (fun k => turned.world ▸ reliable k) (fun k => turned.world ▸ ample k) rest
      rw [Nat.add_sub_cancel, turned.last] at later
      unfold Core.LinksEnd at later
      rw [turned.core] at later
      exact later

end Loop

/-! ## Opening -/

section Open

variable {disk : DiskId} {fs : FsPtr} {m : Machine} {entry : DirEntry}

/-- `fat32_file_open_by_dir_entry` up to its loop. -/
theorem open_ends_loop (mounted : (m.disk disk).fs = some fs) (ample : m.Ample)
    (hasCluster : entry.firstCluster ≠ 0) :
    ∃ t size blocklist, t.toCore = m.toCore ∧ t.world = m.world ∧ blocklist 0 = entry.firstCluster ∧
      (Ends (fat32FileOpenByDirEntry disk entry) m ↔
        (0 < entry.size → (m.fsMem fs).clusterSize ≠ 0) ∧
          Ends (openLoop disk fs chainFuel 1 size blocklist) t) := by
  refine ⟨{ m with mallocs := m.mallocs + 1 }, if 0 < entry.size then
      w32 (entry.size + (m.fsMem fs).clusterSize + (2 ^ 32 - 1)) / (m.fsMem fs).clusterSize else 1,
    Function.update (m.world.garbage m.mallocs) 0 entry.firstCluster, rfl, rfl,
    Function.update_self .., ?_⟩
  unfold Ends fat32FileOpenByDirEntry
  by_cases sized : 0 < entry.size
  · simp only [wp_bind, wp_mountedFs mounted, wp_readFs, if_neg hasCluster, if_pos sized, numClusters,
      wp_divide, mallocBlocklist_ends ample, wp_pure, forall_prop_of_true sized]
  · simp only [wp_bind, wp_mountedFs mounted, wp_readFs, if_neg hasCluster, if_neg sized,
      mallocBlocklist_ends ample, wp_pure, forall_prop_of_false sized, true_and]

/-- When nothing fails, opening ends only if the links do. -/
theorem open_links (mounted : (m.disk disk).fs = some fs) (ample : m.Ample) (reliable : m.Reliable)
    (hasCluster : entry.firstCluster ≠ 0) (ends : Ends (fat32FileOpenByDirEntry disk entry) m) :
    (0 < entry.size → (m.fsMem fs).clusterSize ≠ 0) ∧ m.toCore.LinksEnd disk fs entry.firstCluster := by
  obtain ⟨t, size, blocklist, core, world, first, same⟩ := open_ends_loop mounted ample hasCluster
  obtain ⟨divides, loop⟩ := same.1 ends
  refine ⟨divides, ?_⟩
  have links := openLoop_links (fun k => by rw [world]; exact reliable k)
    (fun k => by rw [world]; exact ample k) loop
  rw [core, first] at links
  exact links

/-- **`fat32_file_open_by_dir_entry` returns, whatever device operations fail, exactly when
the entry has no cluster, or its size can be divided into clusters and the links from its
first cluster come to 0 or to an end mark.** -/
theorem open_ends_iff (mounted : (m.disk disk).fs = some fs) (ample : m.Ample) (entry : DirEntry) :
    (∀ fault, Ends (fat32FileOpenByDirEntry disk entry) (m.withFaults fault)) ↔
      entry.firstCluster = 0 ∨
        ((0 < entry.size → (m.fsMem fs).clusterSize ≠ 0) ∧
          m.toCore.LinksEnd disk fs entry.firstCluster) := by
  by_cases noCluster : entry.firstCluster = 0
  · refine ⟨fun _ => .inl noCluster, fun _ fault => ?_⟩
    unfold Ends fat32FileOpenByDirEntry
    simp only [wp_bind, wp_readFs, if_pos noCluster, wp_pure]
    exact (wp_mountedFs (s := m.withFaults fault) mounted).2 trivial
  · constructor
    · intro ends
      right
      exact @open_links disk fs (m.withFaults fun _ => none) entry mounted ample (fun _ => rfl) noCluster
        (ends fun _ => none)
    · rintro (none_ | ⟨divides, links⟩) fault
      · exact absurd none_ noCluster
      · obtain ⟨t, size, blocklist, core, world, first, same⟩ :=
          @open_ends_loop disk fs (m.withFaults fault) entry mounted ample noCluster
        refine same.2 ⟨divides, ?_⟩
        obtain ⟨n, early, leaves⟩ := linksEnd_early links
        refine openLoop_ends (fun k => by rw [world]; exact ample k)
          (lt_trans early (by decide)) le_rfl ?_
        rw [core, Nat.sub_self, first]
        exact leaves

/-- A cluster that leads to itself has no end. -/
theorem self_link_no_end {f : Fs} {data : Bytes} {c : Core} {cluster : BitVec 32}
    (settled : Settled disk fs f data c) (self : nextOf f data cluster = cluster)
    (nonzero : cluster ≠ 0) (goes : ¬ EndMark cluster) : ¬ c.LinksEnd disk fs cluster := by
  have stays (n : Nat) : ∃ d, Settled disk fs f data d ∧
      (Core.follow disk fs)^[n] (c, cluster) = (d, cluster) := by
    induction n with
    | zero => exact ⟨c, settled, rfl⟩
    | succ n ih =>
      obtain ⟨d, settled, there⟩ := ih
      obtain ⟨after, value⟩ := settled.follow cluster
      refine ⟨_, after, ?_⟩
      rw [Function.iterate_succ_apply', there]
      exact Prod.ext rfl (value.trans self)
  rintro ⟨n, leaves⟩
  obtain ⟨d, settled, there⟩ := stays n
  have value := (settled.follow cluster).2
  rw [there] at leaves
  unfold Core.LeavesAt at leaves
  rw [value, self] at leaves
  exact leaves.elim nonzero goes

end Open

/-- Opening the chain of three clusters ends, when nothing fails and when every operation does. -/
theorem short_chain_ends :
    Ends (fat32FileOpenByDirEntry 0 (chainEntry 0 1500)) (chainVolume.withFaults fun _ => none) ∧
      Ends (fat32FileOpenByDirEntry 0 (chainEntry 0 1500)) (chainVolume.withFaults fun _ => some 0) := by
  have last : EndMark
      (Core.follow 0 0 ((Core.follow 0 0)^[2] (chainVolume.toCore, (chainEntry 0 1500).firstCluster))).2 := by
    unfold EndMark
    decide +kernel
  have mounted : (chainVolume.disk 0).fs = some 0 := rfl
  have divides : (chainVolume.fsMem 0).clusterSize ≠ 0 := by decide +kernel
  have links : chainVolume.toCore.LinksEnd 0 0 (chainEntry 0 1500).firstCluster := ⟨2, .inr last⟩
  have ends := (open_ends_iff mounted (fun _ => rfl) (chainEntry 0 1500)).2 (.inr ⟨fun _ => divides, links⟩)
  exact ⟨ends _, ends _⟩

/-- A volume on which cluster 3 leads to itself. -/
def cyclicVolume : Machine :=
  Machine.mounted (fun _ => smallFs 2 16 64) fun _ => putWord (fun _ => 0) (512 * 32 + 12) 3

/-- Opening a file there never ends, although nothing fails. -/
theorem cycle_never_ends :
    cyclicVolume.Reliable ∧ ¬ Ends (fat32FileOpenByDirEntry 0 (chainEntry 0 1500)) cyclicVolume := by
  have reliable : cyclicVolume.Reliable := mounted_reliable _ _
  have mounted : (cyclicVolume.disk 0).fs = some 0 := rfl
  have hasCluster : (chainEntry 0 1500).firstCluster ≠ 0 := by decide
  have links_of_ends :=
    @open_links 0 0 cyclicVolume (chainEntry 0 1500) mounted (fun _ => rfl) reliable hasCluster
  refine ⟨reliable, mt links_of_ends ?_⟩
  rintro ⟨-, links⟩
  have settled : Settled 0 0 (cyclicVolume.fsMem 0) (cyclicVolume.disk 0).data cyclicVolume.toCore :=
    ⟨rfl, rfl, fun changed => (nomatch changed), fun holds => (nomatch holds)⟩
  refine self_link_no_end settled ?_ (by decide) ?_ links
  · decide +kernel
  · unfold EndMark
    decide

end TestOs.Fat32
