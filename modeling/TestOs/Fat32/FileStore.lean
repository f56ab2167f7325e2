/-
# Fat32.FileStore -- several files of a volume at once

A volume has directories and open files (`Layout`).  Each handle has the chain of its
file as its blocklist, no two files share a cluster, and no file shares one with a
directory (`Stored`).  Successful calls through the handles keep that, in any order
(`Stored.run`): what a call takes was free, and what it gives back is (`Touches`).  So a
call does to its own file what it is for, and nothing to the others.

What the files have after a run is the run on their contents alone (`applied`), which
knows nothing of clusters but their number.  Reading through a handle shows these
contents (`store_reads`).
-/
import TestOs.Fat32.Editing
import TestOs.Fat32.Renaming

namespace TestOs.Fat32

open TestOs.Library Prog

set_option autoImplicit false

/-- The directories of a volume, and the one that has the entry of each file. -/
structure Layout (ι δ : Type) where
  dirs : δ → Blocklist
  counts : δ → Nat
  home : ι → δ

section Store

variable {ι δ : Type}

/-- Open files of a volume with these contents. -/
structure Stored (disk : DiskId) (fs : FsPtr) (f : Fs) (tail : Nat) (world : World)
    (layout : Layout ι δ) (contents : ι → Contents) (image : Image) (blocks : ι → Blocklist)
    (s : Machine × (ι → FatFile)) : Prop where
  holds : HoldsImage disk fs f tail world image s.1
  free : ∀ cluster, f.HasCluster cluster → image.entry cluster.toNat = 0 →
    tail ≤ getDataClusterOffset f cluster
  editing : ∀ i, Editing disk fs f tail world (layout.dirs (layout.home i))
    (layout.counts (layout.home i)) (contents i) image (blocks i) (s.1, s.2 i)
  alone : ∀ i j, i ≠ j → Apart (blocks i) (contents i).count (blocks j) (contents j).count
  dirs : ∀ d, FileChain f image.entry (layout.dirs d) (layout.counts d)
  apart : ∀ d i, Apart (layout.dirs d) (layout.counts d) (blocks i) (contents i).count

/-- A cluster is free, or one of the files has it. -/
def Pooled (entry : Nat → BitVec 32) (blocks : ι → Blocklist) (counts : ι → Nat)
    (cluster : BitVec 32) : Prop :=
  entry cluster.toNat = 0 ∨ ∃ i, ∃ q < counts i, blocks i q = cluster

/-- The files and the free clusters are the same pool as before, and the entries of all
other clusters are as they were. -/
structure PoolKept (f : Fs) (before : Nat → BitVec 32) (old : ι → Blocklist) (counts : ι → Nat)
    (after : Nat → BitVec 32) (new : ι → Blocklist) (counts' : ι → Nat) : Prop where
  pool : ∀ cluster, f.HasCluster cluster →
    (Pooled after new counts' cluster ↔ Pooled before old counts cluster)
  entries : ∀ cluster, f.HasCluster cluster → ¬ Pooled before old counts cluster →
    after cluster.toNat = before cluster.toNat

variable [DecidableEq ι]

/-- A successful call through one of the handles. -/
def storeStep (disk : DiskId) (s : Machine × (ι → FatFile)) (call : ι × Edit) :
    Option (Machine × (ι → FatFile)) :=
  (call.2.step disk (s.1, s.2 call.1)).map fun t => (t.1, Function.update s.2 call.1 t.2)

/-- What calls make of the contents of the files. -/
def applied (f : Fs) (reach : Nat) (contents : ι → Contents) (calls : List (ι × Edit)) : ι → Contents :=
  calls.foldl (fun contents call =>
    Function.update contents call.1 (call.2.apply f reach (contents call.1))) contents

variable {disk : DiskId} {fs : FsPtr} {f : Fs} {tail reach : Nat} {world : World}
  {layout : Layout ι δ} {contents : ι → Contents} {image image' : Image} {blocks : ι → Blocklist}
  {s t : Machine × (ι → FatFile)} {i j : ι} {edit : Edit}

theorem applied_append (first later : List (ι × Edit)) : applied f reach contents (first ++ later) =
    applied f reach (applied f reach contents first) later := List.foldl_append ..

theorem counts_applied (call : ι × Edit) : (fun i => (applied f reach contents [call] i).count) =
    Function.update (fun i => (contents i).count) call.1
      (call.2.apply f reach (contents call.1)).count := by
  funext i
  exact Function.apply_update (fun _ => Contents.count) contents call.1 _ i

/-- A file that shares no cluster with the one that is edited. -/
theorem Editing.apart {m : Machine} {dir dir' other new : Blocklist} {dirCount dirCount' count' : Nat}
    {own others : Contents} {file : FatFile} {u : Machine × FatFile}
    (editing : Editing disk fs f tail world dir dirCount others image other (m, file))
    (onVolume : OnVolume disk fs f tail world dir' dirCount' image' new count' u)
    {mine : Blocklist}
    (touches : Touches f tail dir' dirCount' mine new own.count count' image image')
    (alone : Apart other others.count mine own.count)
    (fromDir : Apart dir dirCount mine own.count) (fromDir' : Apart other others.count dir' dirCount')
    (free : ∀ cluster, f.HasCluster cluster → image'.entry cluster.toNat = 0 →
      tail ≤ getDataClusterOffset f cluster) :
    Editing disk fs f tail world dir dirCount others image' other (u.1, file) where
  size := editing.size
  shown := by
    refine editing.shown.congr fun j below => ?_
    have room := editing.onVolume.room
    have size := editing.size
    have inChain : j < others.count * f.clusterSize := by
      have : others.file.size = file.size := size
      omega
    have some_ : 0 < others.count := Nat.pos_of_mul_pos_right (by omega : 0 < _ * f.clusterSize)
    exact touches.views other others.count (editing.onVolume.handle.chain some_) alone fromDir'
      editing.onVolume.behind j inChain
  onVolume :=
    { holds := onVolume.holds
      onFs := editing.onVolume.onFs
      regular := editing.onVolume.regular
      handle :=
        { length := editing.onVolume.handle.length
          list := editing.onVolume.handle.list
          first := editing.onVolume.handle.first
          chain := fun some_ => (touches.chains
            (editing.onVolume.handle.chain some_) alone).1 }
      filed := editing.onVolume.filed.congr
        (touches.chains editing.onVolume.filed.chain fromDir).1 rfl rfl
      apart := editing.onVolume.apart
      room := editing.onVolume.room
      small := editing.onVolume.small
      behind := editing.onVolume.behind
      free := free }

omit [DecidableEq ι] in
/-- The chain of a file of no clusters is nothing that a call could touch. -/
theorem Stored.chain_or_empty
    (stored : Stored disk fs f tail world layout contents image blocks s) (i : ι) :
    (contents i).count = 0 ∨ FileChain f image.entry (blocks i) (contents i).count := by
  rcases Nat.eq_zero_or_pos (contents i).count with empty | some_
  · exact .inl empty
  · exact .inr ((stored.editing i).onVolume.handle.chain some_)

omit [DecidableEq ι] in
theorem PoolKept.refl {entry : Nat → BitVec 32} {counts : ι → Nat} :
    PoolKept f entry blocks counts entry blocks counts := ⟨fun _ _ => Iff.rfl, fun _ _ _ => rfl⟩

omit [DecidableEq ι] in
theorem PoolKept.trans {first second third : Nat → BitVec 32} {counts counts' counts'' : ι → Nat}
    {blocks' blocks'' : ι → Blocklist} (one : PoolKept f first blocks counts second blocks' counts')
    (two : PoolKept f second blocks' counts' third blocks'' counts'') :
    PoolKept f first blocks counts third blocks'' counts'' where
  pool cluster has := (two.pool cluster has).trans (one.pool cluster has)
  entries cluster has foreign := by
    rw [two.entries cluster has fun pooled => foreign ((one.pool cluster has).1 pooled),
      one.entries cluster has foreign]

/-- The pool of all files, by the one that is edited and the others. -/
theorem pooled_update {entry : Nat → BitVec 32} {counts : ι → Nat} {new : Blocklist} {count : Nat}
    {cluster : BitVec 32} :
    Pooled entry (Function.update blocks i new) (Function.update counts i count) cluster ↔
      FreeOrOwn entry new count cluster ∨ ∃ j ≠ i, ∃ q < counts j, blocks j q = cluster := by
  constructor
  · rintro (free | ⟨j, q, inChain, same⟩)
    · exact .inl (.inl free)
    · rcases eq_or_ne j i with rfl | other
      · rw [Function.update_self] at inChain same
        exact .inl (.inr ⟨q, inChain, same⟩)
      · rw [Function.update_of_ne other] at inChain same
        exact .inr ⟨j, other, q, inChain, same⟩
  · rintro ((free | ⟨q, inChain, same⟩) | ⟨j, other, q, inChain, same⟩)
    · exact .inl free
    · exact .inr ⟨i, q, by rwa [Function.update_self], by rwa [Function.update_self]⟩
    · exact .inr ⟨j, q, by rwa [Function.update_of_ne other], by rwa [Function.update_of_ne other]⟩

theorem Touches.poolKept {dir new : Blocklist} {dirCount count' : Nat} (counts : ι → Nat)
    (touches : Touches f tail dir dirCount (blocks i) new (counts i) count' image image') :
    PoolKept f image.entry blocks counts image'.entry (Function.update blocks i new)
      (Function.update counts i count') := by
  have before (cluster : BitVec 32) : Pooled image.entry blocks counts cluster ↔
      FreeOrOwn image.entry (blocks i) (counts i) cluster ∨
        ∃ j ≠ i, ∃ q < counts j, blocks j q = cluster := by
    rw [← pooled_update, Function.update_eq_self, Function.update_eq_self]
  refine ⟨fun cluster has => ?_, fun cluster has foreign => ?_⟩
  · rw [pooled_update, before, touches.pool cluster has]
  · exact touches.entries cluster has fun own => foreign ((before cluster).2 (.inl own))

section Steps

variable (proper : f.Proper) (fits : f.TailFits tail) (numbered : f.Numbered)
  (clean : reach ≤ 512 ∨ world.CleanBehind f)
include proper fits numbered clean

/-- **A successful call does to its file what it is for, and nothing to the others.** -/
theorem Stored.step {call : ι × Edit}
    (stored : Stored disk fs f tail world layout contents image blocks s) (small : call.2.Small f)
    (run : storeStep disk s call = some t) :
    ∃ image' new, Stored disk fs f tail world layout (applied f reach contents [call]) image'
      (Function.update blocks call.1 new) t ∧
      Edited disk fs f tail world (layout.dirs (layout.home call.1))
        (layout.counts (layout.home call.1)) image (blocks call.1) (contents call.1).count
        (s.1, s.2 call.1) image' new (call.2.apply f reach (contents call.1)).count
        (t.1, t.2 call.1) := by
  obtain ⟨i, edit⟩ := call
  obtain ⟨⟨m, file⟩, stepped, rfl⟩ := Option.map_eq_some_iff.1 run
  obtain ⟨image', new, editing, edited⟩ :=
    (stored.editing i).step proper fits numbered clean small stepped
  have touches := edited.touches
  have free := edited.onVolume.free
  have fromOthers (j : ι) (other : j ≠ i) : Apart (blocks j) (contents j).count new
      (edit.apply f reach (contents i)).count := by
    rcases stored.chain_or_empty j with empty | chain
    · rw [empty]
      exact fun p none_ => absurd none_ (Nat.not_lt_zero p)
    · exact (touches.chains chain (stored.alone j i other)).2
  have toOthers (j : ι) (other : j ≠ i) : Editing disk fs f tail world
      (layout.dirs (layout.home j)) (layout.counts (layout.home j)) (contents j) image' (blocks j)
      (m, s.2 j) :=
    (stored.editing j).apart edited.onVolume touches (stored.alone j i other)
      (stored.apart (layout.home j) i) (stored.apart (layout.home i) j).symm free
  refine ⟨image', new, ⟨edited.onVolume.holds, free, fun j => ?_, fun j k other => ?_,
    fun d => (touches.chains (stored.dirs d) (stored.apart d i)).1, fun d j => ?_⟩, ?_⟩
  · unfold applied
    rcases eq_or_ne j i with rfl | other
    · simpa using editing
    · simpa [other] using toOthers j other
  · unfold applied
    rcases eq_or_ne j i with rfl | first
    · simpa [other.symm] using (fromOthers k other.symm).symm
    · rcases eq_or_ne k i with rfl | second
      · simpa [first] using fromOthers j first
      · simpa [first, second] using stored.alone j k other
  · unfold applied
    rcases eq_or_ne j i with rfl | other
    · simpa using (touches.chains (stored.dirs d) (stored.apart d j)).2
    · simpa [other] using stored.apart d j
  · simpa using edited

theorem Stored.moves {call : ι × Edit}
    (stored : Stored disk fs f tail world layout contents image blocks s) (small : call.2.Small f)
    (run : storeStep disk s call = some t) :
    ∃ image' blocks', Stored disk fs f tail world layout (applied f reach contents [call]) image'
      blocks' t ∧ PoolKept f image.entry blocks (fun i => (contents i).count) image'.entry blocks'
        fun i => (applied f reach contents [call] i).count := by
  obtain ⟨image', new, stored', edited⟩ := stored.step proper fits numbered clean small run
  refine ⟨image', _, stored', ?_⟩
  rw [counts_applied]
  exact edited.touches.poolKept fun i => (contents i).count

/-- Successful calls in any order. -/
theorem Stored.run {steps : List ((Machine × (ι → FatFile)) × (ι × Edit) × (Machine × (ι → FatFile)))}
    (stored : Stored disk fs f tail world layout contents image blocks s)
    (path : Path (storeStep disk) s steps t) (small : ∀ taken ∈ steps, taken.2.1.2.Small f) :
    ∃ image' blocks', Stored disk fs f tail world layout
      (applied f reach contents (steps.map fun taken => taken.2.1)) image' blocks' t ∧
      PoolKept f image.entry blocks (fun i => (contents i).count) image'.entry blocks' fun i =>
        (applied f reach contents (steps.map fun taken => taken.2.1) i).count := by
  induction path with
  | start => exact ⟨image, blocks, stored, .refl⟩
  | snoc path next ih =>
      obtain ⟨between, mine, stored', kept⟩ := ih fun taken member =>
        small taken (List.mem_append_left _ member)
      have last := small _ (List.mem_append_right _ (List.mem_singleton_self _))
      obtain ⟨image', blocks', after, moved⟩ := stored'.moves proper fits numbered clean last next
      rw [List.map_append, applied_append]
      exact ⟨image', blocks', after, kept.trans moved⟩

end Steps

end Store

/-! ## How many clusters there are -/

/-- The numbers of these clusters. -/
def clusterNumbers (blocks : Blocklist) (count : Nat) : Finset Nat :=
  (Finset.range count).image fun q => (blocks q).toNat

section Pool

variable {ι δ : Type} [Fintype ι] {f : Fs} {entry : Nat → BitVec 32} {blocks : ι → Blocklist}
  {counts : ι → Nat}

/-- The free clusters, and those of the files. -/
def poolOf (f : Fs) (entry : Nat → BitVec 32) (blocks : ι → Blocklist) (counts : ι → Nat) :
    Finset Nat :=
  freeFrom f entry 2 ∪ Finset.univ.biUnion fun i => clusterNumbers (blocks i) (counts i)

theorem mem_poolOf (proper : f.Proper)
    (clusters : ∀ i, ∀ q < counts i, f.HasCluster (blocks i q)) {k : Nat} :
    k ∈ poolOf f entry blocks counts ↔
      ∃ cluster, f.HasCluster cluster ∧ cluster.toNat = k ∧ Pooled entry blocks counts cluster := by
  unfold poolOf
  rw [Finset.mem_union, Finset.mem_biUnion]
  constructor
  · rintro (free | ⟨i, -, mine⟩)
    · obtain ⟨range, zero⟩ := Finset.mem_filter.1 free
      obtain ⟨low, high⟩ := Finset.mem_Ico.1 range
      obtain ⟨has, number⟩ := proper.ofNat_hasCluster low high
      exact ⟨_, has, number, .inl (number.symm ▸ zero)⟩
    · obtain ⟨q, inChain, rfl⟩ := Finset.mem_image.1 mine
      have below := Finset.mem_range.1 inChain
      exact ⟨blocks i q, clusters i q below, rfl, .inr ⟨i, q, below, rfl⟩⟩
  · rintro ⟨cluster, has, rfl, zero | ⟨i, q, below, rfl⟩⟩
    · exact .inl (Finset.mem_filter.2 ⟨Finset.mem_Ico.2 has, zero⟩)
    · exact .inr ⟨i, Finset.mem_univ i, Finset.mem_image.2 ⟨q, Finset.mem_range.2 below, rfl⟩⟩

/-- The free clusters and the lengths of the chains add up. -/
theorem card_poolOf (chains : ∀ i, 0 < counts i → FileChain f entry (blocks i) (counts i))
    (alone : ∀ i j, i ≠ j → Apart (blocks i) (counts i) (blocks j) (counts j)) :
    (poolOf f entry blocks counts).card = (freeFrom f entry 2).card + ∑ i, counts i := by
  have own (i : ι) : (clusterNumbers (blocks i) (counts i)).card = counts i := by
    unfold clusterNumbers
    rw [Finset.card_image_of_injOn, Finset.card_range]
    intro p inChain q inChain' same
    have below := Finset.mem_range.1 (Finset.mem_coe.1 inChain)
    exact (chains i (by omega)).isChain.distinct below
      (Finset.mem_range.1 (Finset.mem_coe.1 inChain')) (BitVec.eq_of_toNat_eq same)
  have shared (i j : ι) (other : i ≠ j) :
      Disjoint (clusterNumbers (blocks i) (counts i)) (clusterNumbers (blocks j) (counts j)) := by
    refine Finset.disjoint_left.2 fun k first second => ?_
    obtain ⟨p, inFirst, rfl⟩ := Finset.mem_image.1 first
    obtain ⟨q, inSecond, same⟩ := Finset.mem_image.1 second
    exact alone i j other p (Finset.mem_range.1 inFirst) q (Finset.mem_range.1 inSecond)
      (BitVec.eq_of_toNat_eq same.symm)
  have taken : Disjoint (freeFrom f entry 2)
      (Finset.univ.biUnion fun i => clusterNumbers (blocks i) (counts i)) := by
    refine Finset.disjoint_left.2 fun k free mine => ?_
    obtain ⟨i, -, mine⟩ := Finset.mem_biUnion.1 mine
    obtain ⟨q, inChain, rfl⟩ := Finset.mem_image.1 mine
    have below := Finset.mem_range.1 inChain
    exact (chains i (by omega)).entry_nonzero below (Finset.mem_filter.1 free).2
  unfold poolOf
  rw [Finset.card_union_of_disjoint taken, Finset.card_biUnion fun i _ j _ => shared i j]
  exact congrArg _ (Finset.sum_congr rfl fun i _ => own i)

variable [DecidableEq ι] {disk : DiskId} {fs : FsPtr} {tail reach : Nat} {world : World}
  {layout : Layout ι δ} {contents : ι → Contents} {image image' : Image} {blocks' : ι → Blocklist}
  {s t : Machine × (ι → FatFile)}

omit [DecidableEq ι] in
/-- The number of clusters stays. -/
theorem PoolKept.card (proper : f.Proper) {contents' : ι → Contents} {world' : World}
    (first : Stored disk fs f tail world layout contents image blocks s)
    (second : Stored disk fs f tail world' layout contents' image' blocks' t)
    (kept : PoolKept f image.entry blocks (fun i => (contents i).count) image'.entry blocks'
      fun i => (contents' i).count) :
    (freeFrom f image'.entry 2).card + ∑ i, (contents' i).count =
      (freeFrom f image.entry 2).card + ∑ i, (contents i).count := by
  rw [← card_poolOf (fun i => (first.editing i).onVolume.handle.chain) first.alone,
    ← card_poolOf (fun i => (second.editing i).onVolume.handle.chain) second.alone]
  congr 1
  ext k
  rw [mem_poolOf proper fun i _ inChain => (first.editing i).onVolume.clusters inChain,
    mem_poolOf proper fun i _ inChain => (second.editing i).onVolume.clusters inChain]
  refine exists_congr fun cluster => and_congr_right fun has => and_congr_right fun _ => ?_
  exact kept.pool cluster has

section Room

variable (proper : f.Proper) (fits : f.TailFits tail) (numbered : f.Numbered)
  (clean : reach ≤ 512 ∨ world.CleanBehind f) (memory : ∀ n, world.noMemory n = false)
include proper fits numbered clean memory

/-- A call succeeds exactly when there are clusters for what it makes of the files. -/
theorem Stored.step_iff {call : ι × Edit}
    (stored : Stored disk fs f tail world layout contents image blocks s)
    (small : call.2.Small f) :
    (∃ t, storeStep disk s call = some t) ↔
      ∑ i, (applied f reach contents [call] i).count ≤
        (freeFrom f image.entry 2).card + ∑ i, (contents i).count := by
  have counts : ∑ i, (applied f reach contents [call] i).count + (contents call.1).count =
      (call.2.apply f reach (contents call.1)).count + ∑ i, (contents i).count := by
    rw [counts_applied, Finset.sum_update_of_mem (Finset.mem_univ call.1),
      ← Finset.add_sum_erase _ _ (Finset.mem_univ call.1), Finset.sdiff_singleton_eq_erase]
    omega
  constructor
  · rintro ⟨t, run⟩
    obtain ⟨image', blocks', stored', kept⟩ := stored.moves proper fits numbered clean small run
    rw [← kept.card proper stored stored']
    exact Nat.le_add_left _ _
  · intro room
    have enough : (call.2.apply f reach (contents call.1)).count - (contents call.1).count ≤
        (freeFrom f image.entry 2).card := by omega
    obtain ⟨t, run⟩ := (stored.editing call.1).succeeds proper fits numbered memory small enough
    exact ⟨_, Option.map_eq_some_iff.2 ⟨t, run, rfl⟩⟩

/-- A list of calls succeeds exactly when there are clusters for each start of it. -/
theorem Stored.execute_iff {calls : List (ι × Edit)}
    (stored : Stored disk fs f tail world layout contents image blocks s)
    (small : ∀ call ∈ calls, call.2.Small f) :
    (execute (storeStep disk) s calls).isSome ↔
      ∀ n ≤ calls.length, ∑ i, (applied f reach contents (calls.take n) i).count ≤
        (freeFrom f image.entry 2).card + ∑ i, (contents i).count := by
  induction calls generalizing s contents image blocks with
  | nil =>
      refine ⟨fun _ n _ => ?_, fun _ => rfl⟩
      rw [List.take_nil]
      exact Nat.le_add_left _ _
  | cons call calls ih =>
      have first := stored.step_iff proper fits numbered clean memory
        (small call (List.mem_cons_self ..))
      have later (n : Nat) : applied f reach contents ((call :: calls).take (n + 1)) =
          applied f reach (applied f reach contents [call]) (calls.take n) := rfl
      have moves {t : Machine × (ι → FatFile)} :=
        stored.moves (t := t) proper fits numbered clean (small call (List.mem_cons_self ..))
      rw [execute_cons_isSome]
      constructor
      · rintro ⟨t, stepped, rest⟩
        obtain ⟨image', new, stored', kept⟩ := moves stepped
        have room := (ih stored' fun call' member => small call' (List.mem_cons_of_mem _ member)).1 rest
        rw [kept.card proper stored stored'] at room
        rintro (_ | n) le
        · exact Nat.le_add_left _ _
        · rw [later]
          exact room n (Nat.le_of_succ_le_succ le)
      · intro room
        obtain ⟨t, stepped⟩ := first.2 (room 1 (Nat.succ_le_succ (Nat.zero_le _)))
        obtain ⟨image', new, stored', kept⟩ := moves stepped
        refine ⟨t, stepped, (ih stored' fun call' member =>
          small call' (List.mem_cons_of_mem _ member)).2 fun n le => ?_⟩
        rw [kept.card proper stored stored', ← later]
        exact room (n + 1) (Nat.succ_le_succ le)

end Room

end Pool


/-! ## Machines with open files -/

/-- A volume whose files can be edited: its clusters have entries and sector numbers, and
no write-back of an entry reaches the sectors from `tail` on. -/
structure Fs.Editable (f : Fs) (tail : Nat) : Prop where
  proper : f.Proper
  numbered : f.Numbered
  fits : f.TailFits tail

section Machines

variable {ι δ : Type}

/-- Open files, as the machine has them between two calls: each handle has the chain of its
file, the size of the file is within the chain, and no file shares a cluster with another one
or with a directory.  Files and free clusters lie behind what write-backs of the FAT reach. -/
structure OpenFiles (disk : DiskId) (fs : FsPtr) (tail : Nat) (layout : Layout ι δ)
    (blocks : ι → Blocklist) (s : Machine × (ι → FatFile)) : Prop where
  reliable : s.1.Reliable
  mounted : (s.1.disk disk).fs = some fs
  editable : (s.1.fsMem fs).Editable tail
  cache : CacheOk s.1.toCore disk fs
  window : s.1.bufFs = some fs →
    s.1.bufSector + ((s.1.fsMem fs).numFats - 1) * (s.1.fsMem fs).fatSectors + 2 ≤ tail
  onFs : ∀ i, (s.2 i).fs = fs
  regular : ∀ i, (s.2 i).dirEntry.attrib &&& fatAttribDir = 0
  handle : ∀ i, Handle (s.1.fsMem fs) (s.1.fatTable disk fs) (s.2 i) (blocks i)
    (s.2 i).blocklistSize
  room : ∀ i, (s.2 i).size ≤ (s.2 i).blocklistSize * (s.1.fsMem fs).clusterSize
  small : ∀ i, (s.2 i).size + (s.1.fsMem fs).clusterSize ≤ 2 ^ 32
  alone : ∀ i j, i ≠ j →
    Apart (blocks i) (s.2 i).blocklistSize (blocks j) (s.2 j).blocklistSize
  dirs : ∀ d, FileChain (s.1.fsMem fs) (s.1.fatTable disk fs) (layout.dirs d) (layout.counts d)
  filed : ∀ i, Filed (s.1.fsMem fs) (s.1.fatTable disk fs) (s.2 i).dirEntry
    (layout.dirs (layout.home i)) (layout.counts (layout.home i))
  apart : ∀ d i, Apart (layout.dirs d) (layout.counts d) (blocks i) (s.2 i).blocklistSize
  behind : ∀ i, (s.1.fsMem fs).Behind tail (blocks i) (s.2 i).blocklistSize
  free : ∀ cluster, (s.1.fsMem fs).HasCluster cluster →
    s.1.fatTable disk fs cluster.toNat = 0 →
    tail ≤ getDataClusterOffset (s.1.fsMem fs) cluster

/-- The files have these contents. -/
def ShowsFiles (disk : DiskId) (fs : FsPtr) (contents : ι → Contents) (blocks : ι → Blocklist)
    (s : Machine × (ι → FatFile)) : Prop :=
  ∀ i, (contents i).count = (s.2 i).blocklistSize ∧ (contents i).file.size = (s.2 i).size ∧
    (contents i).file.Shown (fileView (s.1.fsMem fs) (blocks i) (s.1.disk disk).data)

variable {disk : DiskId} {fs : FsPtr} {tail : Nat} {layout : Layout ι δ} {blocks : ι → Blocklist}
  {contents : ι → Contents} {s t : Machine × (ι → FatFile)}

theorem OpenFiles.stored (opened : OpenFiles disk fs tail layout blocks s)
    (shows : ShowsFiles disk fs contents blocks s) :
    Stored disk fs (s.1.fsMem fs) tail s.1.world layout contents
      ⟨s.1.fatTable disk fs, (s.1.disk disk).data⟩ blocks s := by
  have holds := HoldsImage.startAt opened.reliable opened.mounted opened.cache opened.window
  have count (i : ι) : (contents i).count = (s.2 i).blocklistSize := (shows i).1
  refine ⟨holds, opened.free, fun i => ⟨⟨holds, opened.onFs i, opened.regular i, ?_, opened.filed i,
    ?_, ?_, opened.small i, ?_, opened.free⟩, (shows i).2.1, (shows i).2.2⟩, fun i j other => ?_,
    opened.dirs, fun d i => ?_⟩
  · rw [count]
    exact opened.handle i
  · rw [count]
    exact opened.apart (layout.home i) i
  · rw [count]
    exact opened.room i
  · rw [count]
    exact opened.behind i
  · rw [count, count]
    exact opened.alone i j other
  · rw [count]
    exact opened.apart d i

/-- Contents of which nothing is known but the sizes. -/
theorem showsSizes (disk : DiskId) (fs : FsPtr) (blocks : ι → Blocklist)
    (s : Machine × (ι → FatFile)) :
    ShowsFiles disk fs (fun i => ⟨⟨(s.2 i).size, fun _ => none⟩, (s.2 i).blocklistSize⟩) blocks s :=
  fun _ => ⟨rfl, rfl, fun _ _ _ never => nomatch never⟩

/-- The table of an image is that of the machine, as far as the FAT goes. -/
theorem Handle.congr_entry {f : Fs} {entry after : Nat → BitVec 32} {file : FatFile}
    {blocks : Blocklist} {count : Nat} (proper : f.Proper) (handle : Handle f entry file blocks count)
    (same : ∀ k < f.fatSectors * 128, after k = entry k) : Handle f after file blocks count :=
  ⟨handle.length, handle.list, handle.first, fun some_ => (handle.chain some_).congr_entry proper same⟩

theorem Stored.opened {f : Fs} {world : World} {image : Image} (editable : f.Editable tail)
    (stored : Stored disk fs f tail world layout contents image blocks s) :
    OpenFiles disk fs tail layout blocks s ∧ ShowsFiles disk fs contents blocks s := by
  have holds := stored.holds
  obtain rfl : s.1.fsMem fs = f := holds.fsMem
  have table := holds.fatTable
  have count (i : ι) : (contents i).count = (s.2 i).blocklistSize :=
    (stored.editing i).onVolume.handle.length.symm
  refine ⟨⟨holds.reliable, holds.mounted, editable, holds.shows.cache, holds.window,
    fun i => (stored.editing i).onVolume.onFs, fun i => (stored.editing i).onVolume.regular,
    fun i => ?_, fun i => ?_, fun i => (stored.editing i).onVolume.small, fun i j other => ?_,
    fun d => (stored.dirs d).congr_entry editable.proper table, fun i => ?_, fun d i => ?_,
    fun i => ?_, fun cluster has zero => ?_⟩,
    fun i => ⟨count i, (stored.editing i).size, ?_⟩⟩
  · rw [← count]
    exact (stored.editing i).onVolume.handle.congr_entry editable.proper table
  · rw [← count]
    exact (stored.editing i).onVolume.room
  · rw [← count, ← count]
    exact stored.alone i j other
  · have filed := (stored.editing i).onVolume.filed
    exact filed.congr (filed.chain.congr_entry editable.proper table) rfl rfl
  · rw [← count]
    exact stored.apart d i
  · rw [← count]
    exact (stored.editing i).onVolume.behind
  · refine stored.free cluster has ?_
    rw [← table _ (lt_min_iff.1 (editable.proper.hasEntry has)).1]
    exact zero
  · have editing := stored.editing i
    refine editing.shown.congr fun j below => ?_
    refine fileView_behind editing.onVolume.behind holds.data (below.trans_le ?_)
    exact editing.size.le.trans editing.onVolume.room

theorem PoolKept.congr {f : Fs} {first first' second second' : Nat → BitVec 32}
    {counts counts' : ι → Nat} {blocks' : ι → Blocklist} (proper : f.Proper)
    (kept : PoolKept f first blocks counts second blocks' counts')
    (before : ∀ k < f.fatSectors * 128, first' k = first k)
    (after : ∀ k < f.fatSectors * 128, second' k = second k) :
    PoolKept f first' blocks counts second' blocks' counts' := by
  have inFat (cluster : BitVec 32) (has : f.HasCluster cluster) : cluster.toNat < f.fatSectors * 128 :=
    (lt_min_iff.1 (proper.hasEntry has)).1
  refine ⟨fun cluster has => ?_, fun cluster has => ?_⟩
  · have pool := kept.pool cluster has
    unfold Pooled at pool ⊢
    rwa [before _ (inFat cluster has), after _ (inFat cluster has)]
  · have entries := kept.entries cluster has
    unfold Pooled at entries ⊢
    rwa [before _ (inFat cluster has), after _ (inFat cluster has)]

section Runs

variable [DecidableEq ι] {reach : Nat}
  {steps : List ((Machine × (ι → FatFile)) × (ι × Edit) × (Machine × (ι → FatFile)))}

/-- Successful calls in any order lead from open files to open files. -/
theorem OpenFiles.run (opened : OpenFiles disk fs tail layout blocks s)
    (shows : ShowsFiles disk fs contents blocks s)
    (clean : reach ≤ 512 ∨ s.1.world.CleanBehind (s.1.fsMem fs))
    (small : ∀ taken ∈ steps, taken.2.1.2.Small (s.1.fsMem fs))
    (path : Path (storeStep disk) s steps t) :
    t.1.fsMem fs = s.1.fsMem fs ∧ ∃ blocks', OpenFiles disk fs tail layout blocks' t ∧
      ShowsFiles disk fs (applied (s.1.fsMem fs) reach contents (steps.map fun taken => taken.2.1))
        blocks' t ∧
      PoolKept (s.1.fsMem fs) (s.1.fatTable disk fs) blocks (fun i => (s.2 i).blocklistSize)
        (t.1.fatTable disk fs) blocks' fun i => (t.2 i).blocklistSize := by
  obtain ⟨proper, numbered, fits⟩ := opened.editable
  obtain ⟨image', blocks', stored, kept⟩ :=
    (opened.stored shows).run proper fits numbered clean path small
  obtain ⟨opened', shows'⟩ := stored.opened opened.editable
  refine ⟨stored.holds.fsMem, blocks', opened', shows', ?_⟩
  have same (i : ι) : (contents i).count = (s.2 i).blocklistSize := (shows i).1
  have same' (i : ι) : _ = (t.2 i).blocklistSize := (shows' i).1
  simp only [same, same'] at kept
  exact kept.congr proper (fun _ _ => rfl) stored.holds.fatTable

/-- **After any run of successful calls, each handle reads what the calls through it have
left**, whatever the calls through the others were. -/
theorem store_reads (opened : OpenFiles disk fs tail layout blocks s)
    (shows : ShowsFiles disk fs contents blocks s)
    (small : ∀ taken ∈ steps, taken.2.1.2.Small (s.1.fsMem fs))
    (path : Path (storeStep disk) s steps t) (i : ι) (buf : Bytes) {offset len : Nat}
    (whole : offset + len < 2 ^ 32) :
    wp (fat32FileRead disk (t.2 i) buf offset len)
      (fun result _ => (applied (s.1.fsMem fs) 512 contents (steps.map fun taken => taken.2.1)
        i).file.Reads offset len buf result)
      (fun _ _ => False) t.1 := by
  obtain ⟨isFs, blocks', opened', shows', -⟩ := opened.run shows (.inl le_rfl) small path
  obtain ⟨proper, numbered, -⟩ := opened'.editable
  refine wp_mono (((opened'.stored shows').editing i).reads proper numbered buf whole) ?_
    (fun _ _ never => never)
  rintro result u ⟨reads, -⟩
  exact reads

/-- **Every handle has exactly the chain of its file in the FAT after any run of successful
calls, and no two files and no file and directory share a cluster.** -/
theorem store_owns (opened : OpenFiles disk fs tail layout blocks s)
    (small : ∀ taken ∈ steps, taken.2.1.2.Small (s.1.fsMem fs))
    (path : Path (storeStep disk) s steps t) :
    ∃ blocks', OpenFiles disk fs tail layout blocks' t := by
  obtain ⟨-, blocks', opened', -⟩ :=
    opened.run (showsSizes disk fs blocks s) (.inl (Nat.zero_le 512)) small path
  exact ⟨blocks', opened'⟩

variable [Fintype ι]

/-- **No cluster is lost.**  Free clusters and clusters of the files only change places with
one another, so their number stays, and every other entry of the FAT is what it was. -/
theorem store_conserves (opened : OpenFiles disk fs tail layout blocks s)
    (small : ∀ taken ∈ steps, taken.2.1.2.Small (s.1.fsMem fs))
    (path : Path (storeStep disk) s steps t) :
    (freeFrom (s.1.fsMem fs) (t.1.fatTable disk fs) 2).card + ∑ i, (t.2 i).blocklistSize =
        (freeFrom (s.1.fsMem fs) (s.1.fatTable disk fs) 2).card + ∑ i, (s.2 i).blocklistSize ∧
      ∀ cluster, (s.1.fsMem fs).HasCluster cluster →
        ¬ Pooled (s.1.fatTable disk fs) blocks (fun i => (s.2 i).blocklistSize) cluster →
        t.1.fatTable disk fs cluster.toNat = s.1.fatTable disk fs cluster.toNat := by
  have shows := showsSizes disk fs blocks s
  obtain ⟨isFs, blocks', opened', shows', kept⟩ := opened.run shows (.inl (Nat.zero_le 512)) small path
  have stored' := opened'.stored (showsSizes disk fs blocks' t)
  rw [isFs] at stored'
  exact ⟨kept.card opened.editable.proper (opened.stored shows) stored', kept.entries⟩

/-- **A list of calls succeeds exactly when the files that it makes never need more clusters
than there are**, as long as `malloc` succeeds. -/
theorem store_succeeds_iff (opened : OpenFiles disk fs tail layout blocks s)
    (shows : ShowsFiles disk fs contents blocks s) (memory : ∀ n, s.1.world.noMemory n = false)
    {calls : List (ι × Edit)} (small : ∀ call ∈ calls, call.2.Small (s.1.fsMem fs)) :
    (execute (storeStep disk) s calls).isSome ↔
      ∀ n ≤ calls.length,
        ∑ i, (applied (s.1.fsMem fs) 512 contents (calls.take n) i).count ≤
          (freeFrom (s.1.fsMem fs) (s.1.fatTable disk fs) 2).card + ∑ i, (s.2 i).blocklistSize := by
  obtain ⟨proper, numbered, fits⟩ := opened.editable
  have same (i : ι) : (contents i).count = (s.2 i).blocklistSize := (shows i).1
  have succeeds := (opened.stored shows).execute_iff proper fits numbered (.inl le_rfl) memory small
  simp only [same] at succeeds
  exact succeeds

end Runs

end Machines

/-! ## Two files in a root directory -/

/-- The entries of a file of 1000 bytes from cluster 3 on, and of an empty file. -/
def sharedEntries : Bytes := fun i =>
  if i < 11 then 0x20 else if i = 26 then 3 else if i = 28 then 0xe8 else if i = 29 then 3
  else if 32 ≤ i ∧ i < 43 then 0x20 else 0

/-- A volume with the two files, and a sector of the FAT that has no entries of clusters. -/
def sharedVolume : Machine :=
  Machine.mounted (fun _ => smallFs 2 17 66) fun _ =>
    splice (putWord (putWord (putWord (fun _ => 0) (512 * 32 + 8) 0x0fffffff) (512 * 32 + 12) 4)
      (512 * 32 + 16) 0x0fffffff) (512 * 66) sharedEntries 64

/-- Handles on the two files. -/
def sharedFiles : Bool → FatFile
  | false => twoClusterFile 1000
  | true => { emptyFile with dirEntry := { emptyFile.dirEntry with indexInDir := 1 } }

def sharedStart : Machine × (Bool → FatFile) := (sharedVolume, sharedFiles)

/-- The root directory has both. -/
def rootLayout : Layout Bool Unit where
  dirs _ := rootChain
  counts _ := 1
  home _ := ()

def sharedBlocks (_ : Bool) : Blocklist := twoChain

theorem sharedVolume_editable : (smallFs 2 17 66).Editable 66 := by
  have proper : (smallFs 2 17 66).Proper := namedVolume_proper []
  have bound : clusterBound (smallFs 2 17 66) = 1984 := by decide +kernel
  have sizes : (smallFs 2 17 66).reservedSectors = 32 ∧ (smallFs 2 17 66).numFats = 2 ∧
      (smallFs 2 17 66).fatSectors = 17 ∧ (smallFs 2 17 66).clusterSectors = 1 ∧
      (smallFs 2 17 66).firstDataCluster.toNat = 66 := by decide +kernel
  refine ⟨proper, fun cluster has => ⟨has.1, ?_⟩, fun cluster has => ?_⟩
  · have low : cluster.toNat < clusterBound (smallFs 2 17 66) := has.2
    rw [sizes.2.2.2.1, sizes.2.2.2.2]
    omega
  · have low : cluster.toNat < clusterBound (smallFs 2 17 66) := has.2
    rw [sizes.1, sizes.2.1, sizes.2.2.1]
    unfold fat32Sector w32
    omega

/-- Every cluster lies behind the FAT. -/
theorem sharedVolume_behind {cluster : BitVec 32} (has : (smallFs 2 17 66).HasCluster cluster) :
    66 ≤ getDataClusterOffset (smallFs 2 17 66) cluster := by
  have first : (smallFs 2 17 66).firstDataCluster.toNat = 66 := by decide +kernel
  rw [sharedVolume_editable.proper.cluster_offset has, first]
  omega

theorem sharedVolume_root :
    FileChain (smallFs 2 17 66) (sharedVolume.fatTable 0 0) rootChain 1 := by
  have has : 2 ≤ (2 : BitVec 32).toNat ∧
      (2 : BitVec 32).toNat < clusterBound (smallFs 2 17 66) := by decide +kernel
  exact ⟨TableChain.single (by decide +kernel), fun _ _ => has⟩

theorem sharedVolume_chain :
    FileChain (smallFs 2 17 66) (sharedVolume.fatTable 0 0) twoChain 2 := by
  have bound : clusterBound (smallFs 2 17 66) = 1984 := by decide +kernel
  refine ⟨⟨Nat.two_pos, fun i inside => ?_, fun i inside => ?_, by decide +kernel⟩, fun i inChain => ?_⟩
  · obtain rfl : i = 0 := by omega
    decide +kernel
  · obtain rfl : i = 0 := by omega
    decide +kernel
  · have number : (twoChain i).toNat = 3 + i := Nat.mod_eq_of_lt (by omega)
    unfold Fs.HasCluster
    rw [number, bound]
    omega

theorem sharedVolume_filed (i : Bool) : Filed (smallFs 2 17 66) (sharedVolume.fatTable 0 0)
    (sharedFiles i).dirEntry rootChain 1 := by
  have root : rootChain 0 = (smallFs 2 17 66).bpb.rootdirCluster := by decide +kernel
  have slot : 1 * diskEntrySize + diskEntrySize ≤ 1 * (smallFs 2 17 66).clusterSize := by
    decide +kernel
  refine ⟨sharedVolume_root, ?_, fun q inDir => sharedVolume_editable.numbered _
    (sharedVolume_root.clusters q inDir), by decide +kernel, ?_⟩
  · cases i <;> exact root
  · cases i
    · exact le_trans (by decide) slot
    · exact slot

theorem sharedVolume_opened :
    OpenFiles 0 0 66 rootLayout sharedBlocks sharedStart where
  reliable := mounted_reliable _ _
  mounted := rfl
  editable := sharedVolume_editable
  cache :=
    { clean := fun _ own => nomatch own
      owned := fun dirty => nomatch dirty
      window := fun own => nomatch own }
  window own := nomatch own
  onFs i := by cases i <;> rfl
  regular i := by cases i <;> decide
  handle i := by
    cases i
    · exact ⟨rfl, rfl, rfl, fun _ => sharedVolume_chain⟩
    · exact ⟨rfl, rfl, rfl, fun never => absurd never (Nat.lt_irrefl 0)⟩
  room i := by cases i <;> decide +kernel
  small i := by cases i <;> decide +kernel
  alone i j other := by
    cases i
    · cases j
      · exact absurd rfl other
      · exact fun _ _ q never => absurd never (Nat.not_lt_zero q)
    · exact fun p never => absurd never (Nat.not_lt_zero p)
  dirs _ := sharedVolume_root
  filed := sharedVolume_filed
  apart _ i := by
    cases i
    · intro p _ q inChain same
      have number : (twoChain q).toNat = 3 + q := Nat.mod_eq_of_lt (by
        have : q < 2 := inChain
        omega)
      have two : (2 : BitVec 32).toNat = 3 + q := by rw [← number]; exact congrArg _ same
      rw [show (2 : BitVec 32).toNat = 2 by decide] at two
      omega
    · exact fun _ _ q never => absurd never (Nat.not_lt_zero q)
  behind i := by
    cases i
    · exact fun q inChain => sharedVolume_behind (sharedVolume_chain.clusters q inChain)
    · exact fun q never => absurd never (Nat.not_lt_zero q)
  free _ has _ := sharedVolume_behind has

/-- A write that extends each file, and a truncation. -/
def sharedCalls : List (Bool × Edit) :=
  [(true, .write (fun _ => 0x41) 0 600), (false, .write (fun _ => 0x42) 1000 200),
    (true, .truncate 100)]

theorem sharedCalls_small : ∀ call ∈ sharedCalls, call.2.Small (sharedStart.1.fsMem 0) := by
  have size : (smallFs 2 17 66).clusterSize = 512 := by decide +kernel
  intro call member
  change call.2.Small (smallFs 2 17 66)
  simp only [sharedCalls, List.mem_cons, List.not_mem_nil, or_false] at member
  rcases member with rfl | rfl | rfl
  · change 0 + 600 + (smallFs 2 17 66).clusterSize ≤ 2 ^ 32
    omega
  · change 1000 + 200 + (smallFs 2 17 66).clusterSize ≤ 2 ^ 32
    omega
  · trivial

theorem sharedCalls_run : ∃ steps t,
    execute (storeStep 0) sharedStart sharedCalls = some (steps, t) ∧
      Path (storeStep 0) sharedStart steps t ∧
      (steps.map fun taken => taken.2.1) = sharedCalls ∧
      ∀ taken ∈ steps, taken.2.1.2.Small (sharedStart.1.fsMem 0) := by
  have runs : (execute (storeStep 0) sharedStart sharedCalls).isSome := by
    decide +kernel
  obtain ⟨⟨steps, t⟩, executed⟩ := Option.isSome_iff_exists.1 runs
  have labels := execute_labels executed
  refine ⟨steps, t, executed, execute_path executed, labels, fun taken member => ?_⟩
  exact sharedCalls_small _ (labels ▸ List.mem_map_of_mem member)

/-- The empty file has 100 bytes 0x41 afterwards. -/
theorem store_reads_shared : ∃ steps t,
    execute (storeStep 0) sharedStart sharedCalls = some (steps, t) ∧
      wp (fat32FileRead 0 (t.2 true) (fun _ => 0) 0 100)
        (fun result _ => result.1 = 100 ∧ ∀ k < 100, result.2 k = 0x41) (fun _ _ => False) t.1 := by
  obtain ⟨steps, t, executed, path, labels, small⟩ := sharedCalls_run
  refine ⟨steps, t, executed, ?_⟩
  have reads := store_reads sharedVolume_opened (showsSizes 0 0 _ _) small path true (fun _ => 0)
    (by decide : 0 + 100 < 2 ^ 32)
  refine wp_mono reads ?_ (fun _ _ never => never)
  rintro result u reads
  rw [labels] at reads
  obtain ⟨length, bytes, -⟩ := reads
  exact ⟨length, fun k below => bytes k below 0x41 (if_pos ⟨Nat.zero_le _, by omega⟩)⟩

theorem store_owns_shared : ∃ steps t blocks,
    execute (storeStep 0) sharedStart sharedCalls = some (steps, t) ∧
      OpenFiles 0 0 66 rootLayout blocks t := by
  obtain ⟨steps, t, executed, path, -, small⟩ := sharedCalls_run
  obtain ⟨blocks, opened⟩ := store_owns sharedVolume_opened small path
  exact ⟨steps, t, blocks, executed, opened⟩

/-- The files have four clusters afterwards, two more than before, and so two fewer are free. -/
theorem store_conserves_shared : ∃ steps t,
    execute (storeStep 0) sharedStart sharedCalls = some (steps, t) ∧
      (freeFrom (sharedStart.1.fsMem 0) (t.1.fatTable 0 0) 2).card +
          ∑ i, (t.2 i).blocklistSize =
        (freeFrom (sharedStart.1.fsMem 0) (sharedStart.1.fatTable 0 0) 2).card +
          ∑ i, (sharedStart.2 i).blocklistSize := by
  obtain ⟨steps, t, executed, path, -, small⟩ := sharedCalls_run
  exact ⟨steps, t, executed, (store_conserves sharedVolume_opened small path).1⟩

/-- What the calls need is there. -/
theorem store_succeeds_shared : (execute (storeStep 0) sharedStart sharedCalls).isSome ∧
    ∑ i, (applied (sharedStart.1.fsMem 0) 512
        (fun i => ⟨⟨(sharedStart.2 i).size, fun _ => none⟩, (sharedStart.2 i).blocklistSize⟩)
        sharedCalls i).count ≤
      (freeFrom (sharedStart.1.fsMem 0) (sharedStart.1.fatTable 0 0) 2).card +
        ∑ i, (sharedStart.2 i).blocklistSize := by
  obtain ⟨steps, t, executed, -⟩ := sharedCalls_run
  have runs : (execute (storeStep 0) sharedStart sharedCalls).isSome :=
    Option.isSome_iff_exists.2 ⟨_, executed⟩
  have room := (store_succeeds_iff sharedVolume_opened (showsSizes 0 0 _ _) (fun _ => rfl)
    sharedCalls_small).1 runs sharedCalls.length le_rfl
  rw [List.take_length] at room
  exact ⟨runs, room⟩

end TestOs.Fat32
