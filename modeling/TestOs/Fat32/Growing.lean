/-
# Fat32.Growing -- extending a file extends its chain

A handle has its file's chain as its blocklist (`Handle`).  The loop of
`fat32_extend_file` looks for free clusters from the start of the volume on and
never goes back, and it links each one behind the last before it looks for the
next, so between two rounds the blocklist is a chain of the FAT again (`Grown`,
`Grown.link`).  Of the FAT only entries of that chain change.

How many clusters it adds is `NUM_CLUSTERS` in 32-bit arithmetic.  For a size
within one cluster of 4 GB that wraps to 0 and is taken for 1, and the chain stays
shorter than the size (`extend_grows_iff`).
-/
import TestOs.Fat32.Images

namespace TestOs.Fat32

open TestOs.Library Prog

set_option autoImplicit false

/-! ## Chains that grow -/

/-- The blocklist of a handle is the chain of its file. -/
structure Handle (f : Fs) (entry : Nat → BitVec 32) (file : FatFile) (blocks : Blocklist)
    (count : Nat) : Prop where
  length : file.blocklistSize = count
  list : file.blocklist = if count = 0 then none else some blocks
  first : file.dirEntry.firstCluster = if count = 0 then 0 else blocks 0
  chain : 0 < count → FileChain f entry blocks count

/-- A chain of `count` clusters has become one of `count'`: the clusters behind
the old ones were free, are in ascending order, and have the only other entries
that differ. -/
structure Grown (f : Fs) (before after : Nat → BitVec 32) (old new : Blocklist)
    (count count' : Nat) : Prop where
  chain : 0 < count' → FileChain f after new count'
  kept : ∀ i < count, new i = old i
  free : ∀ i, count ≤ i → i < count' → before (new i).toNat = 0
  ascending : ∀ i j, count ≤ i → i < j → j < count' → (new i).toNat < (new j).toNat
  others : ∀ k < f.fatSectors * 128, (∀ i < count', (new i).toNat ≠ k) → after k = before k

/-- The clusters in front of the last old one have the entries that they had, as
have all that are not on the chain. -/
def SameInFront (before after : Nat → BitVec 32) (blocks : Blocklist) (count count' : Nat) : Prop :=
  ∀ k, (∀ i, count ≤ i + 1 → i < count' → (blocks i).toNat ≠ k) → after k = before k

/-- The table after `cluster` has become block `i`, the last one of a chain. -/
def linked (entry : Nat → BitVec 32) (blocks : Blocklist) (i : Nat) (cluster : BitVec 32) :
    Nat → BitVec 32 :=
  let ended := Function.update entry cluster.toNat 0x0fffffff
  if i = 0 then ended else Function.update ended (blocks (i - 1)).toNat cluster

section Chains

variable {f : Fs} {entry before after : Nat → BitVec 32} {blocks old new : Blocklist}
  {count i : Nat} {cluster : BitVec 32}

/-- The entry of a cluster of a chain is not 0. -/
theorem FileChain.entry_nonzero (chain : FileChain f entry blocks count) (inChain : i < count) :
    entry (blocks i).toNat ≠ 0 := by
  intro zero
  have next : nextIn entry (blocks i) = 0 := by
    rw [nextIn, zero]
    rfl
  by_cases last : i + 1 < count
  · rw [chain.isChain.links i last] at next
    exact chain.nonzero last next
  · have ends := chain.isChain.ends
    rw [show count - 1 = i by omega, next] at ends
    exact absurd ends (by decide)

/-- A cluster number is its own view, and does not end a chain. -/
theorem entryView_cluster (proper : f.Proper) (has : f.HasCluster cluster) :
    entryView cluster = cluster ∧ ¬ EndMark cluster := by
  have small := proper.numbers
  have below := has.2
  unfold entryView EndMark
  exact ⟨if_neg (by omega), by omega⟩

theorem Grown.link (proper : f.Proper) (grown : Grown f before entry old blocks count i)
    (old_ : count ≤ i) (has : f.HasCluster cluster) (zero : entry cluster.toNat = 0)
    (above : ∀ j, count ≤ j → j < i → (blocks j).toNat < cluster.toNat) :
    Grown f before (linked entry blocks i cluster) old (Function.update blocks i cluster) count
      (i + 1) := by
  have inFat := (lt_min_iff.1 (proper.hasEntry has)).1
  -- a free cluster is not on the chain
  have apart (j : Nat) (inChain : j < i) : blocks j ≠ cluster := by
    rintro rfl
    exact (grown.chain (by omega)).entry_nonzero inChain zero
  have unlisted : ∀ j < i, (blocks j).toNat ≠ cluster.toNat := fun j inChain same =>
    apart j inChain (BitVec.eq_of_toNat_eq same)
  have listed (j : Nat) (inChain : j < i) : Function.update blocks i cluster j = blocks j :=
    Function.update_of_ne (by omega) _ _
  have last : Function.update blocks i cluster i = cluster := Function.update_self ..
  have isLast {k : Nat} (differs : ∀ j < i + 1, (Function.update blocks i cluster j).toNat ≠ k) :
      cluster.toNat ≠ k ∧ ∀ j < i, (blocks j).toNat ≠ k := by
    refine ⟨?_, fun j inChain => ?_⟩
    · have := differs i (by omega)
      rwa [last] at this
    · have := differs j (by omega)
      rwa [listed j inChain] at this
  have ended : EndMark (nextIn (linked entry blocks i cluster) cluster) := by
    have value : linked entry blocks i cluster cluster.toNat = 0x0fffffff := by
      unfold linked
      split
      · exact Function.update_self ..
      · rw [Function.update_of_ne (unlisted (i - 1) (by omega)).symm, Function.update_self]
    rw [nextIn, value]
    decide
  refine ⟨fun _ => ⟨?_, fun j inChain => ?_⟩, fun j low => ?_, fun j low high => ?_,
    fun a b low less high => ?_, fun k inTable differs => ?_⟩
  · rcases Nat.eq_zero_or_pos i with rfl | some_
    · refine TableChain.single ?_
      rwa [last]
    · have chain : TableChain (nextIn entry) EndMark (Function.update blocks i cluster) i :=
        (grown.chain some_).isChain.congr_chain listed
      have view := entryView_cluster proper has
      refine chain.append (fun j inside => ?_) ?_ ?_ ?_
      · -- the entries in front of the last one are as they were
        have other : (blocks j).toNat ≠ (blocks (i - 1)).toNat := by
          intro same
          have := (grown.chain some_).isChain.distinct (by omega) (by omega)
            (BitVec.eq_of_toNat_eq same)
          omega
        rw [listed j (by omega)]
        unfold nextIn linked
        rw [if_neg (by omega), Function.update_of_ne other,
          Function.update_of_ne (unlisted j (by omega))]
      · rw [listed (i - 1) (by omega), last]
        unfold nextIn linked
        rw [if_neg (by omega), Function.update_self]
        exact view.1
      · rw [last]
        exact view.2
      · rwa [last]
  · by_cases new : j = i
    · rwa [new, last]
    · rw [listed j (by omega)]
      exact (grown.chain (by omega)).clusters j (by omega)
  · rw [listed j (by omega)]
    exact grown.kept j low
  · by_cases new : j = i
    · rw [new, last, ← zero]
      exact (grown.others _ inFat fun j inChain => unlisted j inChain).symm
    · rw [listed j (by omega)]
      exact grown.free j low (by omega)
  · rw [listed a (by omega)]
    by_cases new : b = i
    · rw [new, last]
      exact above a low (by omega)
    · rw [listed b (by omega)]
      exact grown.ascending a b low less (by omega)
  · obtain ⟨notNew, notOld⟩ := isLast differs
    rw [← grown.others k inTable notOld]
    unfold linked
    split
    · exact Function.update_of_ne notNew.symm _ _
    · rw [Function.update_of_ne (notOld (i - 1) (by omega)).symm, Function.update_of_ne notNew.symm]

theorem SameInFront.link (same : SameInFront before entry blocks count i) (old_ : count ≤ i) :
    SameInFront before (linked entry blocks i cluster) (Function.update blocks i cluster) count
      (i + 1) := by
  intro k differs
  have notNew : k ≠ cluster.toNat := by
    have := differs i (by omega) (by omega)
    rw [Function.update_self] at this
    exact this.symm
  have notOld (q : Nat) (low : count ≤ q + 1) (inChain : q < i) : (blocks q).toNat ≠ k := by
    have := differs q low (by omega)
    rwa [Function.update_of_ne (by omega)] at this
  rw [← same k notOld]
  unfold linked
  split
  · exact Function.update_of_ne notNew _ _
  · rw [Function.update_of_ne (notOld (i - 1) (by omega) (by omega)).symm,
      Function.update_of_ne notNew]

/-- Only the entries of clusters matter to a chain. -/
theorem FileChain.congr_entry (proper : f.Proper) (chain : FileChain f entry blocks count)
    (same : ∀ k < f.fatSectors * 128, after k = entry k) : FileChain f after blocks count where
  isChain := chain.isChain.congr_next fun i inChain => by
    have inFat := lt_min_iff.1 (proper.hasEntry (chain.clusters i inChain))
    rw [nextIn, nextIn, same _ inFat.1]
  clusters := chain.clusters

theorem Grown.congr_after (proper : f.Proper) {count' : Nat}
    (grown : Grown f before entry old new count count')
    (same : ∀ k < f.fatSectors * 128, after k = entry k) :
    Grown f before after old new count count' where
  chain some_ := (grown.chain some_).congr_entry proper same
  kept := grown.kept
  free := grown.free
  ascending := grown.ascending
  others k inTable differs := (same k inTable).trans (grown.others k inTable differs)

/-- A chain that shares no cluster with a growing one stays. -/
theorem Grown.apart {count' : Nat} {dir : Blocklist} {dirCount : Nat} (proper : f.Proper)
    (grown : Grown f before after old new count count')
    (chain : FileChain f before dir dirCount)
    (apart : ∀ i < dirCount, ∀ j < count, dir i ≠ old j) :
    (∀ i < dirCount, ∀ j < count', dir i ≠ new j) ∧ FileChain f after dir dirCount := by
  have differs (i : Nat) (inDir : i < dirCount) (j : Nat) (inChain : j < count') :
      dir i ≠ new j := by
    intro same
    by_cases low : j < count
    · exact apart i inDir j low (same.trans (grown.kept j low))
    · have zero := grown.free j (by omega) inChain
      rw [← same] at zero
      exact chain.entry_nonzero inDir zero
  refine ⟨differs, chain.isChain.congr_next fun i inDir => ?_, chain.clusters⟩
  have inFat := lt_min_iff.1 (proper.hasEntry (chain.clusters i inDir))
  rw [nextIn, nextIn, grown.others _ inFat.1 fun j inChain same =>
    differs i inDir j inChain (BitVec.eq_of_toNat_eq same.symm)]

end Chains

/-! ## New clusters -/

/-- What follows `zero_cluster` in memory is 0, as far as a cluster reaches. -/
def World.CleanBehind (world : World) (f : Fs) : Prop :=
  ∀ n i, 512 + i < f.clusterSize → world.stray n i = 0

/-- The bytes of the clusters from block `count` on are 0, those behind the first
sector if those behind `zero_cluster` are, and no others have changed. -/
structure Zeroed (f : Fs) (tail : Nat) (world : World) (blocks : Blocklist) (count count' : Nat)
    (before after : Bytes) : Prop where
  outside : ∀ i ≥ 512 * tail, (∀ q, count ≤ q → q < count' → ¬ f.InCluster (blocks q) i) →
    after i = before i
  zero : ∀ q, count ≤ q → q < count' → ∀ i ≥ 512 * tail, f.InCluster (blocks q) i →
    i < f.clusterStart (blocks q) + 512 ∨ world.CleanBehind f → after i = 0

/-- The clusters from `first` on that the allocator can take. -/
def freeFrom (f : Fs) (entry : Nat → BitVec 32) (first : Nat) : Finset Nat :=
  (Finset.Ico first (clusterBound f)).filter fun k => entry k = 0

/-- Taking the first free cluster leaves the others. -/
theorem freeFrom_linked {f : Fs} {entry : Nat → BitVec 32} {blocks : Blocklist} {i j first left : Nat}
    {cluster : BitVec 32} (number : cluster.toNat = j)
    (before : ∀ k, first ≤ k → k < j → entry k ≠ 0)
    (listed : i ≠ 0 → entry (blocks (i - 1)).toNat ≠ 0)
    (enough : left + 1 ≤ (freeFrom f entry first).card) :
    left ≤ (freeFrom f (linked entry blocks i cluster) (j + 1)).card := by
  have rest : freeFrom f entry first ⊆ insert j (freeFrom f entry (j + 1)) := by
    intro k free
    obtain ⟨range, zero⟩ := Finset.mem_filter.1 free
    have inRange := Finset.mem_Ico.1 range
    by_cases here : k = j
    · exact here ▸ Finset.mem_insert_self _ _
    · have behind : j < k := by
        by_contra notBehind
        exact before k inRange.1 (by omega) zero
      exact Finset.mem_insert_of_mem
        (Finset.mem_filter.2 ⟨Finset.mem_Ico.2 ⟨behind, inRange.2⟩, zero⟩)
  have kept : freeFrom f entry (j + 1) ⊆ freeFrom f (linked entry blocks i cluster) (j + 1) := by
    intro k free
    obtain ⟨range, zero⟩ := Finset.mem_filter.1 free
    refine Finset.mem_filter.2 ⟨range, ?_⟩
    have inRange := Finset.mem_Ico.1 range
    have notNew : k ≠ cluster.toNat := by omega
    rw [← zero]
    unfold linked
    split
    · exact Function.update_of_ne notNew _ _
    · rename_i start
      have notLast : k ≠ (blocks (i - 1)).toNat := by
        intro same
        rw [same] at zero
        exact listed start zero
      rw [Function.update_of_ne notLast, Function.update_of_ne notNew]
  have count := (Finset.card_le_card rest).trans (Finset.card_insert_le _ _)
  have := Finset.card_le_card kept
  omega

section Claims

variable {disk : DiskId} {fs : FsPtr} {f : Fs} {tail : Nat} {world : World} {image : Image}
  {cluster : BitVec 32} (proper : f.Proper) (fits : f.TailFits tail)

include proper fits

theorem searchFree_holds (left j : Nat) {s : Machine}
    (holds : HoldsImage disk fs f tail world image s) (low : 2 ≤ j)
    (high : ∀ k, j ≤ k → k < j + left → k < clusterBound f) :
    wp (searchFree disk fs left j)
      (fun found t => HoldsImage disk fs f tail world image t ∧
        (∀ k, found = some k → j ≤ k ∧ k < clusterBound f ∧ image.entry k = 0 ∧
          ∀ i, j ≤ i → i < k → image.entry i ≠ 0) ∧
        (found = none → ∀ i, j ≤ i → i < j + left → image.entry i ≠ 0))
      (fun _ _ => False) s := by
  induction left generalizing j s with
  | zero => exact ⟨holds, by rintro _ ⟨⟩, fun _ i low high => by omega⟩
  | succ left ih =>
      obtain ⟨has, number⟩ := proper.ofNat_hasCluster low (high j le_rfl (by omega))
      unfold searchFree
      rw [wp_bind]
      refine wp_mono (getNext_holds proper fits holds has) ?_ (fun _ _ never => never)
      rintro value t ⟨rfl, holds⟩
      have zero : nextIn image.entry (BitVec.ofNat 32 j) = 0 ↔ image.entry j = 0 := by
        rw [nextIn, entryView_eq_zero, number]
      by_cases free : nextIn image.entry (BitVec.ofNat 32 j) = 0
      · rw [if_pos free]
        refine ⟨holds, fun k same => ?_, by rintro ⟨⟩⟩
        cases same
        exact ⟨le_rfl, high j le_rfl (by omega), zero.1 free, fun i low high => by omega⟩
      · rw [if_neg free]
        have used {i : Nat} (low : j ≤ i) (above : j + 1 ≤ i → image.entry i ≠ 0) :
            image.entry i ≠ 0 := by
          by_cases here : i = j
          · rw [here]
            exact fun isZero => free (zero.2 isZero)
          · exact above (by omega)
        refine wp_mono (ih (j + 1) holds (by omega) fun k above below =>
          high k (by omega) (by omega)) ?_ (fun _ _ never => never)
        rintro found u ⟨holds, spec, none_⟩
        refine ⟨holds, fun k same => ?_, fun isNone i low high => ?_⟩
        · obtain ⟨above, below, isZero, before⟩ := spec k same
          exact ⟨by omega, below, isZero, fun i low high => used low fun above => before i above high⟩
        · exact used low fun above => none_ isNone i above (by omega)

omit fits in
theorem zeroCluster_holds {s : Machine} (holds : HoldsImage disk fs f tail world image s)
    (has : f.HasCluster cluster) :
    wp (fat32ZeroCluster disk fs cluster)
      (fun _ t => ∃ data, HoldsImage disk fs f tail world { image with data := data } t ∧
        (∀ i, ¬ f.InCluster cluster i → data i = image.data i) ∧
        ∀ i, f.InCluster cluster i → i < f.clusterStart cluster + 512 ∨ world.CleanBehind f →
          data i = 0)
      (fun _ _ => False) s := by
  unfold fat32ZeroCluster
  rw [wp_bind, wp_state]
  refine wp_mono (writeCluster_holds proper holds has _ _) ?_ (fun _ _ never => never)
  intro _ t holds'
  refine ⟨_, holds', fun i outside => ?_, fun i inside clean => ?_⟩
  · exact splice_outside (by unfold Fs.InCluster at outside; omega)
  · have low := inside.1
    have high := inside.2
    rw [splice_inside low high, slice_zero]
    split
    · rfl
    · rename_i behind
      rw [holds.world]
      exact clean.resolve_left (by omega) _ _ (by omega)

omit proper fits in
theorem wp_getBlock {m : Machine} {file : FatFile} {blocks : Blocklist} {i : Nat}
    (list : file.blocklist = some blocks) {post : BitVec 32 → Machine × FatFile → Prop}
    {onFail : FatError → Machine × FatFile → Prop} :
    wp (getBlock i) post onFail (m, file) ↔ post (blocks i) (m, file) := by
  simp only [getBlock, wp_bind, wp_theFile, list, wp_pure]

theorem claimCluster_holds {m : Machine} {file : FatFile} {blocks : Blocklist} {i : Nat}
    (holds : HoldsImage disk fs f tail world image m) (list : file.blocklist = some blocks)
    (has : f.HasCluster cluster) (before : i ≠ 0 → f.HasCluster (blocks (i - 1))) :
    wp (claimCluster disk fs i cluster)
      (fun _ t => t.2 = { file with
          blocklist := some (Function.update blocks i cluster)
          dirEntry := { file.dirEntry with
            firstCluster := if i = 0 then cluster else file.dirEntry.firstCluster } } ∧
        ∃ data, HoldsImage disk fs f tail world ⟨linked image.entry blocks i cluster, data⟩ t.1 ∧
          (∀ x, ¬ f.InCluster cluster x → data x = image.data x) ∧
          ∀ x, f.InCluster cluster x → x < f.clusterStart cluster + 512 ∨ world.CleanBehind f →
            data x = 0)
      (fun _ _ => False) (m, file) := by
  unfold claimCluster setBlock
  rw [wp_bind, wp_lift]
  refine wp_mono (zeroCluster_holds proper holds has) ?_ (fun _ _ never => never)
  rintro - t ⟨data, holds, outside, zero⟩
  rw [wp_bind, wp_setFile, list, wp_bind, wp_lift]
  refine wp_mono (setNext_holds proper fits holds has _) ?_ (fun _ _ never => never)
  intro _ u holds
  by_cases start : i = 0
  · rw [if_pos start, wp_setFile]
    refine ⟨by simp only [if_pos start, Option.map_some], data, ?_, outside, zero⟩
    rwa [linked, if_pos start]
  · have listed : Function.update blocks i cluster (i - 1) = blocks (i - 1) :=
      Function.update_of_ne (by omega) _ _
    rw [if_neg start, wp_bind, wp_getBlock rfl]
    dsimp only
    rw [listed, wp_lift]
    refine wp_mono (setNext_holds proper fits holds (before start) _) ?_ (fun _ _ never => never)
    intro _ v holds
    refine ⟨by simp only [if_neg start, Option.map_some], data, ?_, outside, zero⟩
    rwa [linked, if_neg start]

end Claims

/-! ## The loop -/

section Loop

variable {disk : DiskId} {fs : FsPtr} {f : Fs} {tail : Nat} {world : World} {total : Prop}
  (proper : f.Proper) (fits : f.TailFits tail) (memory : total → ∀ n, world.noMemory n = false)

include proper

/-- Two clusters of the volume share no byte. -/
theorem hasCluster_disjoint {cluster cluster' : BitVec 32} (has : f.HasCluster cluster)
    (has' : f.HasCluster cluster') (apart : cluster ≠ cluster') {i : Nat}
    (inside : f.InCluster cluster i) : ¬ f.InCluster cluster' i := by
  intro inside'
  unfold Fs.InCluster Fs.clusterStart Fs.clusterSize at *
  rw [proper.cluster_offset has] at inside
  rw [proper.cluster_offset has'] at inside'
  have numbers : cluster.toNat ≠ cluster'.toNat := fun same => apart (BitVec.eq_of_toNat_eq same)
  have two := has.1
  have two' := has'.1
  rcases Nat.lt_or_gt_of_ne numbers with less | less
  · have := Nat.mul_le_mul_left f.clusterSectors (by omega :
      cluster.toNat - 2 + 1 ≤ cluster'.toNat - 2)
    rw [Nat.mul_add, Nat.mul_one] at this
    omega
  · have := Nat.mul_le_mul_left f.clusterSectors (by omega :
      cluster'.toNat - 2 + 1 ≤ cluster.toNat - 2)
    rw [Nat.mul_add, Nat.mul_one] at this
    omega

/-- One more cluster is zeroed. -/
theorem Zeroed.step {blocks : Blocklist} {count i : Nat} {cluster : BitVec 32}
    {before between after : Bytes} (zeroed : Zeroed f tail world blocks count i before between)
    (old : count ≤ i) (has : f.HasCluster cluster)
    (others : ∀ q, count ≤ q → q < i → f.HasCluster (blocks q) ∧ blocks q ≠ cluster)
    (outside : ∀ x, ¬ f.InCluster cluster x → after x = between x)
    (zero : ∀ x, f.InCluster cluster x → x < f.clusterStart cluster + 512 ∨ world.CleanBehind f →
      after x = 0) :
    Zeroed f tail world (Function.update blocks i cluster) count (i + 1) before after where
  outside x behind apart := by
    have new := apart i old (Nat.lt_succ_self i)
    rw [Function.update_self] at new
    rw [outside x new]
    refine zeroed.outside x behind fun q low high => ?_
    have := apart q low (by omega)
    rwa [Function.update_of_ne (by omega)] at this
  zero q low high x behind inside clean := by
    by_cases new : q = i
    · rw [new, Function.update_self] at inside clean
      exact zero x inside clean
    · rw [Function.update_of_ne new] at inside clean
      obtain ⟨has', apart⟩ := others q low (by omega)
      rw [outside x (hasCluster_disjoint proper has' has apart inside)]
      exact zeroed.zero q low (by omega) x behind inside clean

include fits

/-- The handle after blocks up to `count'` have been filled in. -/
def FatFile.withBlocks (file : FatFile) (blocks : Blocklist) (count count' : Nat) : FatFile :=
  { file with
    blocklist := some blocks
    dirEntry := { file.dirEntry with
      firstCluster := if count = 0 ∧ 0 < count' then blocks 0 else file.dirEntry.firstCluster } }

/-- The loop, from block `i` on. -/
theorem extendLoop_grows {before : Image} {old : Blocklist} {count left i free : Nat}
    {image : Image} {m : Machine} {file start : FatFile} {blocks : Blocklist}
    (holds : HoldsImage disk fs f tail world image m)
    (handle : file = start.withBlocks blocks count i) (old_ : count ≤ i) (two : 2 ≤ free)
    (grown : Grown f before.entry image.entry old blocks count i)
    (below : ∀ q, count ≤ q → q < i → (blocks q).toNat < free)
    (zeroed : Zeroed f tail world blocks count i before.data image.data)
    (front : SameInFront before.entry image.entry blocks count i)
    (enough : total → left ≤ (freeFrom f image.entry free).card) :
    ends total (extendLoop disk fs (clusterBound f) left i free)
      (fun _ t => ∃ image' blocks', HoldsImage disk fs f tail world image' t.1 ∧
        t.2 = start.withBlocks blocks' count (i + left) ∧
        Grown f before.entry image'.entry old blocks' count (i + left) ∧
        Zeroed f tail world blocks' count (i + left) before.data image'.data ∧
        SameInFront before.entry image'.entry blocks' count (i + left)) (m, file) := by
  induction left generalizing i free image m file blocks with
  | zero => exact ends_pure.2 ⟨image, blocks, holds, handle, grown, zeroed, front⟩
  | succ left ih =>
      rw [extendLoop, ends_bind, ends_lift]
      refine ends_of_wp (searchFree_holds proper fits (clusterBound f - free) free holds two
        fun k _ _ => by omega) ?_
      rintro (_ | j) t ⟨holds, found, none_⟩
      · rw [ends_fail]
        intro isTotal
        have some_ := enough isTotal
        have empty : freeFrom f image.entry free = ∅ := by
          refine Finset.filter_eq_empty_iff.2 fun k range => ?_
          have inRange := Finset.mem_Ico.1 range
          exact none_ rfl k inRange.1 (by omega)
        rw [empty, Finset.card_empty] at some_
        omega
      obtain ⟨above, high, zero, before_⟩ := found j rfl
      obtain ⟨has, number⟩ := proper.ofNat_hasCluster (two.trans above) high
      rw [← number] at zero
      have list : file.blocklist = some blocks := by
        rw [handle]
        rfl
      have chained (q : Nat) (inChain : q < i) : f.HasCluster (blocks q) :=
        (grown.chain (by omega)).clusters q inChain
      have smaller (q : Nat) (low : count ≤ q) (inChain : q < i) :
          (blocks q).toNat < (BitVec.ofNat 32 j).toNat := by
        have := below q low inChain
        omega
      have next := grown.link proper old_ has zero smaller
      rw [ends_bind]
      refine ends_of_wp (claimCluster_holds proper fits holds list has
        fun nonzero => chained _ (by omega)) ?_
      rintro - ⟨u, file'⟩ ⟨handle', data, holds, outside, clean⟩
      have zeroed' := zeroed.step proper old_ has
        (fun q low inChain => ⟨chained q inChain, fun same => by
          have := smaller q low inChain
          rw [same] at this
          omega⟩) outside clean
      have rest : i + (left + 1) = i + 1 + left := by omega
      rw [rest]
      refine @ih _ (j + 1) _ _ _ _ holds ?_ (by omega) (by omega) next (fun q low inChain => ?_)
        zeroed' (front.link old_) fun isTotal =>
          freeFrom_linked number before_ (fun start =>
            (grown.chain (by omega)).entry_nonzero (by omega)) (enough isTotal)
      · -- only block 0 is the first cluster
        have handle' : file' = _ := handle'
        rw [handle', handle]
        unfold FatFile.withBlocks
        by_cases first : i = 0
        · subst first
          obtain rfl : count = 0 := by omega
          simp
        · have kept : Function.update blocks i (BitVec.ofNat 32 j) 0 = blocks 0 :=
            Function.update_of_ne (by omega) _ _
          have positive : 0 < i := by omega
          simp [first, kept, positive]
      · by_cases new : q = i
        · rw [new, Function.update_self]
          omega
        · rw [Function.update_of_ne new]
          have := below q low (by omega)
          omega

include memory in
/-- The part of `fat32_extend_file` that adds clusters. -/
theorem growBlocklist_grows {m : Machine} {image : Image} {file : FatFile} {old : Blocklist}
    {count newBlocks : Nat} (onFs : file.fs = fs)
    (holds : HoldsImage disk fs f tail world image m)
    (handle : Handle f image.entry file old count) (more : count < newBlocks)
    (enough : total → newBlocks - count ≤ (freeFrom f image.entry 2).card) :
    ends total (growBlocklist disk newBlocks)
      (fun _ t => ∃ image' blocks, HoldsImage disk fs f tail world image' t.1 ∧
        t.2 = { file.withBlocks blocks count newBlocks with blocklistSize := newBlocks } ∧
        Grown f image.entry image'.entry old blocks count newBlocks ∧
        Zeroed f tail world blocks count newBlocks image.data image'.data ∧
        SameInFront image.entry image'.entry blocks count newBlocks) (m, file) := by
  unfold growBlocklist numClusters
  rw [ends_bind, ends_theFile, ends_bind, ends_lift, onFs, ends_readFs, holds.fsMem, ends_bind,
    ends_lift, ends_divide proper.sectors.ne', ends_bind, ends_lift]
  refine ends_mono (reallocBlocklist_holds memory holds _ _) ?_
  rintro (_ | garbage) t ⟨some_, holds, kept⟩
  · rw [ends_bind, ends_setFile]
    exact ends_fail.2 fun isTotal => some_ isTotal rfl
  rw [ends_bind, ends_setFile]
  simp only [Option.isNone_some, Bool.false_eq_true, if_false]
  rw [ends_bind, ends_setFile, handle.length]
  -- the old chain, in the new memory
  have same (i : Nat) (low : i < count) : garbage i = old i := by
    refine kept garbage rfl old ?_ i (by rwa [handle.length])
    rw [handle.list, if_neg (by omega)]
  have start : Grown f image.entry image.entry old garbage count count := by
    refine ⟨fun some_ => ?_, same, fun i low high => by omega, fun i j low less high => by omega,
      fun _ _ _ => rfl⟩
    have chain := handle.chain some_
    refine ⟨chain.isChain.congr_chain same, fun i inChain => ?_⟩
    rw [same i inChain]
    exact chain.clusters i inChain
  have bound : w32 (w32 (w32 (f.totalSectors.toNat + (2 ^ 32 - f.firstDataCluster.toNat)) +
      f.clusterSectors + (2 ^ 32 - 1)) / f.clusterSectors + 2) = clusterBound f := rfl
  rw [bound, ends_bind]
  have handle' : ({ file with blocklist := some garbage, blocklistSize := newBlocks } : FatFile) =
      ({ file with blocklistSize := newBlocks } : FatFile).withBlocks garbage count count := by
    unfold FatFile.withBlocks
    simp only [if_neg (show ¬ (count = 0 ∧ 0 < count) by omega)]
  refine ends_mono (extendLoop_grows proper fits holds handle' le_rfl le_rfl start
    (fun q low high => by omega) ⟨fun _ _ _ => rfl, fun q low high => by omega⟩
    (fun _ _ => rfl) enough) ?_
  · rintro - ⟨u, file'⟩ ⟨image', blocks, holds, handle', grown, zeroed, front⟩
    have all : count + (newBlocks - count) = newBlocks := by omega
    rw [all] at handle' grown zeroed front
    rw [ends_lift]
    refine ends_of_wp (commit_holds proper holds) ?_
    intro _ v holds
    exact ⟨image', blocks, holds, handle', grown, zeroed, front⟩

end Loop

/-! ## The call -/

section Call

variable {disk : DiskId} {fs : FsPtr} {f : Fs} {tail : Nat} {world : World} {total : Prop}
  (proper : f.Proper) (fits : f.TailFits tail) (memory : total → ∀ n, world.noMemory n = false)

/-- The entry of a file is in a directory that shares no cluster with it, if it is
one that is updated. -/
def EntryIn (f : Fs) (entry : Nat → BitVec 32) (file : FatFile) (blocks : Blocklist) (count : Nat)
    (dir : Blocklist) (dirCount : Nat) : Prop :=
  file.dirEntry.attrib &&& fatAttribDir = 0 →
    Filed f entry file.dirEntry dir dirCount ∧ ∀ i < dirCount, ∀ j < count, dir i ≠ blocks j

theorem Filed.congr {entry after : Nat → BitVec 32} {dirEntry dirEntry' : DirEntry}
    {dir : Blocklist} {count : Nat} (filed : Filed f entry dirEntry dir count)
    (chain : FileChain f after dir count)
    (parent : dirEntry'.dirFirstCluster = dirEntry.dirFirstCluster)
    (index : dirEntry'.indexInDir = dirEntry.indexInDir) : Filed f after dirEntry' dir count where
  chain := chain
  first := by rw [parent, filed.first]
  valid := filed.valid
  small := filed.small
  slot := by rw [index]; exact filed.slot

/-- What the update of an entry leaves of a handle. -/
structure SameEntry (before after : FatFile) : Prop where
  fs : after.fs = before.fs
  attrib : after.dirEntry.attrib = before.dirEntry.attrib
  parent : after.dirEntry.dirFirstCluster = before.dirEntry.dirFirstCluster
  index : after.dirEntry.indexInDir = before.dirEntry.indexInDir
  name : after.dirEntry.name = before.dirEntry.name

/-- Only the bytes of the directory itself matter to it. -/
theorem EntryWritten.congr_before {f : Fs} {dir : Blocklist} {count size : Nat}
    {dirEntry : DirEntry} {before before' after : Bytes}
    (written : EntryWritten f dir count dirEntry size before' after)
    (slot : dirEntry.indexInDir * diskEntrySize + diskEntrySize ≤ count * f.clusterSize)
    (same : ∀ j < count * f.clusterSize, fileView f dir before' j = fileView f dir before j) :
    EntryWritten f dir count dirEntry size before after := by
  obtain ⟨old, isOld, new⟩ := written
  refine ⟨old, fun i low => ?_, fun j below => ?_⟩
  · rw [isOld i low, same _ (by omega)]
  · rw [new j below]
    by_cases inside : dirEntry.indexInDir * diskEntrySize ≤ j ∧
        j < dirEntry.indexInDir * diskEntrySize + diskEntrySize
    · rw [splice_inside inside.1 inside.2, splice_inside inside.1 inside.2]
    · rw [splice_outside (by omega), splice_outside (by omega), same j below]

/-- A change to some clusters leaves a file that shares none of them. -/
theorem fileView_apart {f : Fs} {tail count first last : Nat} {blocks changed : Blocklist}
    {before after : Bytes} (proper : f.Proper) (clusters : ∀ q < count, f.HasCluster (blocks q))
    (clusters' : ∀ q < last, f.HasCluster (changed q))
    (apart : ∀ i < count, ∀ j < last, blocks i ≠ changed j) (behind : f.Behind tail blocks count)
    (outside : ∀ i ≥ 512 * tail, (∀ q, first ≤ q → q < last → ¬ f.InCluster (changed q) i) →
      after i = before i) {j : Nat} (below : j < count * f.clusterSize) :
    fileView f blocks after j = fileView f blocks before j := by
  have sized : 0 < f.clusterSize := proper.power.size
  have block : j / f.clusterSize < count := Nat.div_lt_of_lt_mul (by rwa [Nat.mul_comm])
  have rest := Nat.mod_lt j sized
  have start := behind _ block
  refine outside _ (by unfold Fs.clusterStart; omega) fun q _ inChain inside => ?_
  exact hasCluster_disjoint proper (clusters _ block) (clusters' q inChain) (apart _ block q inChain)
    ⟨by omega, by omega⟩ inside

include proper fits memory in
/-- The end of `fat32_extend_file` and of `fat32_truncate_file`: the new size, and
the update of the entry. -/
theorem finish_holds {m : Machine} {image : Image} {file : FatFile} {newSize : Nat}
    {dir : Blocklist} {dirCount : Nat} (onFs : file.fs = fs)
    (holds : HoldsImage disk fs f tail world image m)
    (filed : file.dirEntry.attrib &&& fatAttribDir = 0 →
      Filed f image.entry file.dirEntry dir dirCount) :
    ends total (do
        setFile fun file => { file with size := newSize }
        if (← theFile).dirEntry.attrib &&& fatAttribDir = 0 then
          liftM (fat32DirUpdateEntry disk (← theFile)) : FileM Unit)
      (fun _ t => t.2 = { file with size := newSize } ∧ ∃ data,
        HoldsImage disk fs f tail world { image with data := data } t.1 ∧
        SameOutsideFrom f tail dir dirCount image.data data ∧
        (file.dirEntry.attrib &&& fatAttribDir = 0 → f.Behind tail dir dirCount →
          EntryWritten f dir dirCount file.dirEntry newSize image.data data)) (m, file) := by
  rw [ends_bind, ends_setFile, ends_bind, ends_theFile]
  by_cases updated : file.dirEntry.attrib &&& fatAttribDir = 0
  · simp only [if_pos updated]
    rw [ends_bind, ends_theFile, ends_lift]
    have filed' : Filed f image.entry ({ file with size := newSize } : FatFile).dirEntry dir
        dirCount := filed updated
    refine ends_mono (dirUpdate_holds proper fits memory onFs filed' holds) ?_
    rintro - t ⟨data, holds, outside, written⟩
    exact ⟨rfl, data, holds, outside, fun _ => written⟩
  · simp only [if_neg updated]
    exact ends_pure.2
      ⟨rfl, image.data, holds, fun _ _ _ => rfl, fun file => absurd file updated⟩

/-- What `fat32_extend_file` has made of a handle and an image when it returns 0. -/
structure Extended (disk : DiskId) (fs : FsPtr) (f : Fs) (tail : Nat) (world : World)
    (dir : Blocklist) (dirCount : Nat) (image : Image) (file : FatFile) (old : Blocklist)
    (count count' newSize : Nat) (image' : Image) (blocks : Blocklist) (t : Machine × FatFile) :
    Prop where
  holds : HoldsImage disk fs f tail world image' t.1
  handle : Handle f image'.entry t.2 blocks count'
  size : t.2.size = newSize
  same : SameEntry file t.2
  grown : Grown f image.entry image'.entry old blocks count count'
  data : ∃ zeroed, Zeroed f tail world blocks count count' image.data zeroed ∧
    SameOutsideFrom f tail dir dirCount zeroed image'.data
  entry : EntryIn f image'.entry t.2 blocks count' dir dirCount

/-- The handle with the new chain as its blocklist. -/
theorem Handle.extended {entry after : Nat → BitVec 32} {file : FatFile} {old blocks : Blocklist}
    {count needed : Nat} (handle : Handle f entry file old count)
    (grown : Grown f entry after old blocks count needed) (more : count < needed) :
    Handle f after { file.withBlocks blocks count needed with blocklistSize := needed } blocks
        needed ∧
      SameEntry file { file.withBlocks blocks count needed with blocklistSize := needed } := by
  have nonzero : needed ≠ 0 := (Nat.zero_lt_of_lt more).ne'
  unfold FatFile.withBlocks
  refine ⟨⟨rfl, ?_, ?_, grown.chain⟩, ⟨rfl, rfl, rfl, rfl, rfl⟩⟩
  · rw [if_neg nonzero]
  · rw [if_neg nonzero]
    by_cases first : count = 0
    · exact if_pos ⟨first, Nat.pos_of_ne_zero nonzero⟩
    · have was := handle.first
      rw [if_neg first, ← grown.kept 0 (Nat.pos_of_ne_zero first)] at was
      exact (if_neg fun both => first both.1).trans was

include proper fits memory in
/-- **`fat32_extend_file`**, which succeeds if there are enough free clusters. -/
theorem extendFile_ends {m : Machine} {image : Image} {file : FatFile} {old : Blocklist}
    {count newSize : Nat} {dir : Blocklist} {dirCount : Nat} (onFs : file.fs = fs)
    (holds : HoldsImage disk fs f tail world image m)
    (handle : Handle f image.entry file old count)
    (filed : EntryIn f image.entry file old count dir dirCount) (positive : newSize ≠ 0)
    (enough : total → f.blocksNeeded newSize - count ≤ (freeFrom f image.entry 2).card) :
    ends total (fat32ExtendFile disk newSize)
      (fun _ t => ∃ image' blocks, Extended disk fs f tail world dir dirCount image file old count
          (max count (f.blocksNeeded newSize)) newSize image' blocks t ∧
        SameInFront image.entry image'.entry blocks count (max count (f.blocksNeeded newSize)) ∧
        (file.dirEntry.attrib &&& fatAttribDir = 0 → f.Behind tail dir dirCount →
          EntryWritten f dir dirCount t.2.dirEntry newSize image.data image'.data)) (m, file) := by
  unfold fat32ExtendFile fat32ExtendFileWith blocksFor numClusters
  rw [if_neg positive, ends_bind, ends_theFile, ends_bind, ends_lift, onFs, ends_readFs,
    holds.fsMem, ends_bind, ends_lift, ends_bind, ends_divide proper.power.size.ne', ends_pure]
  have needed : (if w32 (newSize + f.clusterSize + (2 ^ 32 - 1)) / f.clusterSize = 0 then 1
      else w32 (newSize + f.clusterSize + (2 ^ 32 - 1)) / f.clusterSize) = f.blocksNeeded newSize :=
    rfl
  rw [needed, handle.length, ends_bind]
  clear needed
  generalize f.blocksNeeded newSize = needed at enough ⊢
  -- between the two halves the handle has its new chain, and its old size
  have grows : ends total (if count < needed then growBlocklist disk needed
        else pure () : FileM Unit)
      (fun _ t => ∃ image' blocks, HoldsImage disk fs f tail world image' t.1 ∧
        Handle f image'.entry t.2 blocks (max count needed) ∧ SameEntry file t.2 ∧
        Grown f image.entry image'.entry old blocks count (max count needed) ∧
        Zeroed f tail world blocks count (max count needed) image.data image'.data ∧
        SameInFront image.entry image'.entry blocks count (max count needed)) (m, file) := by
    by_cases more : count < needed
    · rw [if_pos more, max_eq_right more.le]
      refine ends_mono (growBlocklist_grows proper fits memory onFs holds handle more enough) ?_
      rintro - ⟨t, file'⟩ ⟨image', blocks, holds, handle', grown, zeroed, front⟩
      obtain ⟨chained, same⟩ := handle.extended grown more
      rw [← (show file' = _ from handle')] at chained same
      exact ⟨image', blocks, holds, chained, same, grown, zeroed, front⟩
    · rw [if_neg more, max_eq_left (Nat.le_of_not_lt more)]
      refine ends_pure.2 ⟨image, old, holds, handle, ⟨rfl, rfl, rfl, rfl, rfl⟩, ⟨handle.chain, fun _ _ => rfl,
        fun i low high => by omega, fun i j low less high => by omega, fun _ _ _ => rfl⟩,
        ⟨fun _ _ _ => rfl, fun q low high => by omega⟩, fun _ _ => rfl⟩
  refine ends_mono grows ?_
  rintro - ⟨t, file'⟩ ⟨image', blocks, holds, handle', same, grown, zeroed, front⟩
  have onFs' : file'.fs = fs := same.fs.trans onFs
  have filed' : EntryIn f image'.entry file' blocks (max count needed) dir
      dirCount := by
    intro updated
    rw [same.attrib] at updated
    obtain ⟨filed, apart⟩ := filed updated
    obtain ⟨apart', chain⟩ := grown.apart proper filed.chain apart
    exact ⟨filed.congr chain same.parent same.index, apart'⟩
  refine ends_mono (finish_holds proper fits memory onFs' holds fun updated => (filed' updated).1) ?_
  rintro - ⟨u, file''⟩ ⟨handle'', data, holds, outside, written⟩
  have handle'' : file'' = _ := handle''
  subst handle''
  refine ⟨{ image' with data := data }, blocks, ⟨holds,
    ⟨handle'.length, handle'.list, handle'.first, handle'.chain⟩, rfl,
    ⟨same.fs, same.attrib, same.parent, same.index, same.name⟩, grown,
    ⟨image'.data, zeroed, outside⟩, filed'⟩, front, fun updated behind => ?_⟩
  rw [← same.attrib] at updated
  obtain ⟨filed, apart⟩ := filed' updated
  refine (written updated behind).congr_before filed.slot fun j below => ?_
  exact fileView_apart proper filed.chain.clusters
    (fun q inChain => (grown.chain (by omega)).clusters q inChain) apart behind zeroed.outside below

include proper fits in
/-- The same of a call that has returned 0. -/
theorem extendFile_extends {m : Machine} {image : Image} {file : FatFile} {old : Blocklist}
    {count newSize : Nat} {dir : Blocklist} {dirCount : Nat} (onFs : file.fs = fs)
    (holds : HoldsImage disk fs f tail world image m)
    (handle : Handle f image.entry file old count)
    (filed : EntryIn f image.entry file old count dir dirCount) (positive : newSize ≠ 0) :
    wlp (fat32ExtendFile disk newSize)
      (fun _ t => ∃ image' blocks, Extended disk fs f tail world dir dirCount image file old count
          (max count (f.blocksNeeded newSize)) newSize image' blocks t ∧
        SameInFront image.entry image'.entry blocks count (max count (f.blocksNeeded newSize)) ∧
        (file.dirEntry.attrib &&& fatAttribDir = 0 → f.Behind tail dir dirCount →
          EntryWritten f dir dirCount t.2.dirEntry newSize image.data image'.data))
      (fun _ _ => True) (m, file) :=
  (extendFile_ends proper fits False.elim onFs holds handle filed positive False.elim).wlp

end Call

/-! ## Growing a file -/

/-- The clusters that a size takes. -/
def Fs.blocksOf (f : Fs) (size : Nat) : Nat := (size + f.clusterSize - 1) / f.clusterSize

section Sizes

variable {f : Fs} {size : Nat}

theorem Fs.clusterSize_le (f : Fs) : f.clusterSize ≤ 255 * 512 := by
  have := f.bpb.clusterSectors.isLt
  unfold Fs.clusterSize Fs.clusterSectors
  omega

/-- `NUM_CLUSTERS` is right unless it wraps. -/
theorem blocksNeeded_of_fits (sized : 0 < f.clusterSize) (positive : 0 < size)
    (fits : size + f.clusterSize ≤ 2 ^ 32) : f.blocksNeeded size = f.blocksOf size := by
  have blocks : w32 (size + f.clusterSize + (2 ^ 32 - 1)) = size + f.clusterSize - 1 := by
    unfold w32
    omega
  have some_ : 0 < (size + f.clusterSize - 1) / f.clusterSize := Nat.div_pos (by omega) sized
  unfold Fs.blocksNeeded Fs.blocksOf
  rw [blocks]
  exact if_neg some_.ne'

/-- Where it wraps, the number is 1, and at least 2 would be right. -/
theorem blocksNeeded_of_wraps (sized : 0 < f.clusterSize) (small : size < 2 ^ 32)
    (wraps : 2 ^ 32 < size + f.clusterSize) :
    f.blocksNeeded size = 1 ∧ 2 ≤ f.blocksOf size := by
  have le := f.clusterSize_le
  have blocks : w32 (size + f.clusterSize + (2 ^ 32 - 1)) < f.clusterSize := by
    unfold w32
    omega
  constructor
  · unfold Fs.blocksNeeded
    rw [Nat.div_eq_of_lt blocks]
    rfl
  · exact (Nat.le_div_iff_mul_le sized).2 (by omega)

/-- The number that the code takes for `size` comes to the right one. -/
theorem max_blocksNeeded_iff (sized : 0 < f.clusterSize) (positive : 0 < size)
    (small : size < 2 ^ 32) (count : Nat) :
    max count (f.blocksNeeded size) = max count (f.blocksOf size) ↔
      size + f.clusterSize ≤ 2 ^ 32 ∨ f.blocksOf size ≤ count := by
  by_cases fits : size + f.clusterSize ≤ 2 ^ 32
  · rw [blocksNeeded_of_fits sized positive fits]
    exact iff_of_true rfl (.inl fits)
  · obtain ⟨one, two⟩ := blocksNeeded_of_wraps sized small (Nat.lt_of_not_le fits)
    rw [one]
    omega

end Sizes

section Grows

variable {disk : DiskId} {fs : FsPtr} {m t : Machine}

/-- A machine with a coherent FAT buffer holds the image that it shows. -/
theorem HoldsImage.startAt (reliable : m.Reliable) (mounted : (m.disk disk).fs = some fs)
    (cache : CacheOk m.toCore disk fs) {tail : Nat}
    (window : m.bufFs = some fs → m.bufSector +
      ((m.fsMem fs).numFats - 1) * (m.fsMem fs).fatSectors + 2 ≤ tail) :
    HoldsImage disk fs (m.fsMem fs) tail m.world ⟨m.fatTable disk fs, (m.disk disk).data⟩ m :=
  ⟨reliable, rfl, mounted, cache.shows, window, fun _ _ => rfl⟩

theorem HoldsImage.start (reliable : m.Reliable) (mounted : (m.disk disk).fs = some fs)
    (proper : (m.fsMem fs).Proper) (cache : CacheOk m.toCore disk fs) :
    HoldsImage disk fs (m.fsMem fs)
      ((m.fsMem fs).reservedSectors + (m.fsMem fs).numFats * (m.fsMem fs).fatSectors + 1) m.world
      ⟨m.fatTable disk fs, (m.disk disk).data⟩ m := by
  refine HoldsImage.startAt reliable mounted cache fun own => ?_
  have inFat := (cache.window own).2
  have copies : ((m.fsMem fs).numFats - 1) * (m.fsMem fs).fatSectors + (m.fsMem fs).fatSectors =
      (m.fsMem fs).numFats * (m.fsMem fs).fatSectors := by
    rw [← Nat.succ_mul, Nat.succ_eq_add_one, Nat.sub_add_cancel proper.copies.some_copy]
  omega

theorem HoldsImage.fatTable {f : Fs} {tail : Nat} {world : World} {image : Image}
    (holds : HoldsImage disk fs f tail world image t) :
    ∀ k < f.fatSectors * 128, t.fatTable disk fs k = image.entry k := holds.shows.entries

/-- **Extending a file extends its chain to the clusters that the new size takes
exactly when `NUM_CLUSTERS` of the size does not wrap, or the file has them already.** -/
theorem extend_grows_iff (disk : DiskId) (fs : FsPtr) {file file' : FatFile}
    {blocks dir : Blocklist} {count dirCount newSize : Nat} (reliable : m.Reliable)
    (mounted : (m.disk disk).fs = some fs) (onFs : file.fs = fs) (proper : (m.fsMem fs).Proper)
    (cache : CacheOk m.toCore disk fs)
    (handle : Handle (m.fsMem fs) (m.fatTable disk fs) file blocks count)
    (entry : EntryIn (m.fsMem fs) (m.fatTable disk fs) file blocks count dir dirCount)
    (grows : file.size < newSize) (small : newSize < 2 ^ 32)
    (run : fat32ExtendFile disk newSize (m, file) = some (.ok (), (t, file'))) :
    (∃ new, Handle (m.fsMem fs) (t.fatTable disk fs) file' new
        (max count ((m.fsMem fs).blocksOf newSize)) ∧
      Grown (m.fsMem fs) (m.fatTable disk fs) (t.fatTable disk fs) blocks new count
        (max count ((m.fsMem fs).blocksOf newSize))) ↔
      newSize + (m.fsMem fs).clusterSize ≤ 2 ^ 32 ∨ (m.fsMem fs).blocksOf newSize ≤ count := by
  have positive : 0 < newSize := Nat.zero_lt_of_lt grows
  obtain ⟨image', new, extended, -, -⟩ := wlp_ok (extendFile_extends proper proper.tailFits onFs
    (HoldsImage.start reliable mounted proper cache) handle entry positive.ne') run
  have table := extended.holds.fatTable
  have handle' := extended.handle
  rw [← max_blocksNeeded_iff proper.power.size positive small count]
  constructor
  · rintro ⟨_, claimed, -⟩
    exact handle'.length.symm.trans claimed.length
  · intro same
    have grown := extended.grown.congr_after proper table
    rw [same] at handle' grown
    exact ⟨new, ⟨handle'.length, handle'.list, handle'.first, grown.chain⟩, grown⟩

end Grows

/-! ## An empty volume -/

/-- A volume with nothing but the first cluster of its root directory. -/
def rootVolume : Machine :=
  Machine.mounted (fun _ => smallFs 2 16 64) fun _ => putWord (fun _ => 0) (512 * 32 + 8) 0x0fffffff

def rootChain : Blocklist := fun _ => 2

theorem rootVolume_proper : (rootVolume.fsMem 0).Proper where
  copies := ⟨by decide, by decide +kernel⟩
  power := powerOfTwo (show _ = 2 ^ 0 by decide +kernel)
  behind := by decide +kernel
  inside := by decide +kernel
  covered := by decide +kernel
  numbers := by decide +kernel

theorem rootVolume_cache : CacheOk rootVolume.toCore 0 0 where
  clean _ own := nomatch own
  owned dirty := nomatch dirty
  window own := nomatch own

theorem emptyFile_handle (blocks : Blocklist) :
    Handle (rootVolume.fsMem 0) (rootVolume.fatTable 0 0) emptyFile blocks 0 :=
  ⟨rfl, rfl, rfl, fun never => absurd never (Nat.lt_irrefl 0)⟩

theorem emptyFile_entry (blocks : Blocklist) :
    EntryIn (rootVolume.fsMem 0) (rootVolume.fatTable 0 0) emptyFile blocks 0 rootChain 1 := by
  refine fun _ => ⟨⟨⟨TableChain.single (by decide +kernel), fun _ _ => ?_⟩, rfl, fun _ _ => ?_,
    by decide +kernel, by decide +kernel⟩, fun _ _ j never => absurd never (Nat.not_lt_zero j)⟩
  · have has : 2 ≤ (2 : BitVec 32).toNat ∧ (2 : BitVec 32).toNat < clusterBound (rootVolume.fsMem 0) :=
      by decide +kernel
    exact has
  · have valid : (rootVolume.fsMem 0).firstDataCluster.toNat +
        (rootVolume.fsMem 0).clusterSectors * ((2 : BitVec 32).toNat - 2) +
        (rootVolume.fsMem 0).clusterSectors ≤ 2 ^ 32 := by decide +kernel
    exact ⟨show 2 ≤ (2 : BitVec 32).toNat by decide, valid⟩

theorem rootVolume_reliable : rootVolume.Reliable := mounted_reliable _ _

theorem rootVolume_extends {newSize length : Nat}
    (extends_ : (fat32ExtendFile 0 newSize (rootVolume, emptyFile)).map
      (fun (r, t) => (r, t.2.blocklistSize)) = some (.ok (), length)) :
    ∃ t file, fat32ExtendFile 0 newSize (rootVolume, emptyFile) = some (.ok (), (t, file)) ∧
      file.blocklistSize = length := by
  obtain ⟨⟨r, t, file⟩, run, same⟩ := Option.map_eq_some_iff.1 extends_
  obtain ⟨rfl, size⟩ := Prod.mk.inj same
  exact ⟨t, file, run, size⟩

/-- A file of 1000 bytes has a chain of two clusters. -/
theorem extend_two_clusters :
    ∃ t file, fat32ExtendFile 0 1000 (rootVolume, emptyFile) = some (.ok (), (t, file)) ∧
      ∃ new, Handle (rootVolume.fsMem 0) (t.fatTable 0 0) file new 2 ∧
        Grown (rootVolume.fsMem 0) (rootVolume.fatTable 0 0) (t.fatTable 0 0) rootChain new 0 2 := by
  obtain ⟨t, file, run, -⟩ := @rootVolume_extends 1000 2 (by decide +kernel)
  have two : max 0 ((rootVolume.fsMem 0).blocksOf 1000) = 2 := by decide +kernel
  have grows := (extend_grows_iff 0 0 rootVolume_reliable rfl rfl rootVolume_proper
    rootVolume_cache (emptyFile_handle rootChain) (emptyFile_entry rootChain) (by decide)
    (by decide) run).2 (.inl (by decide +kernel))
  rw [two] at grows
  exact ⟨t, file, run, grows⟩

/-- A file of 2^32 - 1 bytes has one. -/
theorem extend_four_gigabytes :
    (rootVolume.Reliable ∧ (rootVolume.fsMem 0).Proper ∧ CacheOk rootVolume.toCore 0 0 ∧
      Handle (rootVolume.fsMem 0) (rootVolume.fatTable 0 0) emptyFile rootChain 0 ∧
      EntryIn (rootVolume.fsMem 0) (rootVolume.fatTable 0 0) emptyFile rootChain 0 rootChain 1) ∧
    ∃ t file, fat32ExtendFile 0 0xffffffff (rootVolume, emptyFile) = some (.ok (), (t, file)) ∧
      ¬ ∃ new, Handle (rootVolume.fsMem 0) (t.fatTable 0 0) file new
        (max 0 ((rootVolume.fsMem 0).blocksOf 0xffffffff)) := by
  refine ⟨⟨rootVolume_reliable, rootVolume_proper, rootVolume_cache, emptyFile_handle rootChain,
    emptyFile_entry rootChain⟩, ?_⟩
  obtain ⟨t, file, run, length⟩ := @rootVolume_extends 0xffffffff 1 (by decide +kernel)
  refine ⟨t, file, run, ?_⟩
  rintro ⟨new, handle⟩
  have many : max 0 ((rootVolume.fsMem 0).blocksOf 0xffffffff) = 8388608 := by decide +kernel
  have wrong := handle.length
  rw [length, many] at wrong
  cases wrong

end TestOs.Fat32
