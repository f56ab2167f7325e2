/-
# Fat32.Truncating -- truncating a file cuts its chain off

The loops of `fat32_truncate_file` set the entries of the clusters behind the new
last one to 0, and it becomes the last one after that.  What is left is a chain
again, and of the other entries none has changed (`Cut`).

Truncation keeps the clusters that the new size takes, and not those that the
file had before it was extended.  So it undoes an extension, up to the mark at
the end of the chain, for a file whose size took all its clusters
(`truncate_cuts`); a file with more loses them (`truncate_frees_surplus`).
-/
import TestOs.Fat32.Growing

namespace TestOs.Fat32

open TestOs.Library Prog

set_option autoImplicit false

/-! ## Chains that are cut off -/

/-- The entries of the blocks from `first` on, up to `last`, are 0, and the others
are as before. -/
structure Emptied (before after : Nat → BitVec 32) (blocks : Blocklist) (first last : Nat) :
    Prop where
  freed : ∀ i, first ≤ i → i < last → after (blocks i).toNat = 0
  others : ∀ k, (∀ i, first ≤ i → i < last → (blocks i).toNat ≠ k) → after k = before k

/-- Of a chain of `count` clusters, `kept` are left: the others are free, and no
entry has changed but theirs and that of the cluster that is the last one now. -/
structure Cut (f : Fs) (before after : Nat → BitVec 32) (blocks : Blocklist) (count kept : Nat) :
    Prop where
  chain : 0 < kept → FileChain f after blocks kept
  freed : ∀ i, kept ≤ i → i < count → after (blocks i).toNat = 0
  others : ∀ k < f.fatSectors * 128,
    (kept < count → ∀ i, kept ≤ i + 1 → i < count → (blocks i).toNat ≠ k) → after k = before k

section Chains

variable {f : Fs} {before between after : Nat → BitVec 32} {blocks new : Blocklist}
  {count kept i last : Nat}

/-- Setting an entry to 0, and then those behind it. -/
theorem Emptied.step (inside : i < last) (emptied : Emptied
    (Function.update before (blocks i).toNat 0) after blocks (i + 1) last) :
    Emptied before after blocks i last where
  freed j low high := by
    -- a block that comes again is set to 0 again
    by_cases again : ∃ q, i + 1 ≤ q ∧ q < last ∧ (blocks q).toNat = (blocks j).toNat
    · obtain ⟨q, behind, below, same⟩ := again
      rw [← same]
      exact emptied.freed q behind below
    · have old : j = i := by
        by_contra other
        exact again ⟨j, by omega, high, rfl⟩
      subst old
      rw [emptied.others _ fun q behind below same => again ⟨q, behind, below, same⟩]
      exact Function.update_self ..
  others k differs := by
    rw [emptied.others k fun q behind => differs q (by omega)]
    exact Function.update_of_ne (differs i le_rfl inside).symm _ _

/-- Only its own places matter to a blocklist. -/
theorem FileChain.congr_blocks (chain : FileChain f after blocks kept)
    (same : ∀ i < kept, new i = blocks i) : FileChain f after new kept where
  isChain := chain.isChain.congr_chain same
  clusters i inChain := by
    rw [same i inChain]
    exact chain.clusters i inChain

/-- Freeing the clusters behind the new last one, and marking that as the last. -/
theorem Emptied.cut (emptied : Emptied before between blocks kept count)
    (chain : FileChain f before blocks count) (some_ : 0 < kept) (less : kept < count) :
    Cut f before (Function.update between (blocks (kept - 1)).toNat 0x0fffffff) blocks count
      kept := by
  have apart {i j : Nat} (inChain : i < count) (inChain' : j < count) (differ : i ≠ j) :
      (blocks i).toNat ≠ (blocks j).toNat := fun same =>
    differ (chain.isChain.distinct inChain inChain' (BitVec.eq_of_toNat_eq same))
  refine ⟨fun _ => ⟨chain.isChain.take some_ less.le (fun j inside => ?_) ?_,
    fun i inChain => chain.clusters i (by omega)⟩, fun i low high => ?_, fun k _ differs => ?_⟩
  · rw [nextIn, Function.update_of_ne (apart (by omega) (by omega) (by omega)),
      emptied.others _ fun q low high => apart high (by omega) (by omega)]
    rfl
  · rw [nextIn, Function.update_self]
    decide
  · rw [Function.update_of_ne (apart high (by omega) (by omega))]
    exact emptied.freed i low high
  · have differs := differs less
    rw [Function.update_of_ne (differs (kept - 1) (by omega) (by omega)).symm]
    exact emptied.others k fun i low high => differs i (by omega) high

/-- A chain of which all is kept. -/
theorem Cut.refl (chain : 0 < count → FileChain f before blocks count) :
    Cut f before before blocks count count :=
  ⟨chain, fun i low high => by omega, fun _ _ _ => rfl⟩

/-- Only the entries of clusters matter to a cut. -/
theorem Cut.congr_after (proper : f.Proper) (cut : Cut f before between blocks count kept)
    (chain : ∀ i < count, f.HasCluster (blocks i))
    (same : ∀ k < f.fatSectors * 128, after k = between k) :
    Cut f before after blocks count kept where
  chain some_ := (cut.chain some_).congr_entry proper same
  freed i low high := by
    rw [same _ (lt_min_iff.1 (proper.hasEntry (chain i high))).1]
    exact cut.freed i low high
  others k inTable differs := (same k inTable).trans (cut.others k inTable differs)

/-- A chain that shares no cluster with one that is cut off stays. -/
theorem Cut.apart {dir : Blocklist} {dirCount : Nat} (proper : f.Proper)
    (cut : Cut f before after blocks count kept) (chain : FileChain f before dir dirCount)
    (apart : ∀ i < dirCount, ∀ j < count, dir i ≠ blocks j) : FileChain f after dir dirCount where
  isChain := chain.isChain.congr_next fun i inDir => by
    have inFat := lt_min_iff.1 (proper.hasEntry (chain.clusters i inDir))
    rw [nextIn, nextIn, cut.others _ inFat.1 fun _ j _ inChain same =>
      apart i inDir j inChain (BitVec.eq_of_toNat_eq same.symm)]
  clusters := chain.clusters

end Chains

/-! ## The call -/

section Call

variable {disk : DiskId} {fs : FsPtr} {f : Fs} {tail : Nat} {world : World} {image : Image}
  {total : Prop} (proper : f.Proper) (fits : f.TailFits tail)
  (memory : total → ∀ n, world.noMemory n = false)

/-- `new_blocks` of `fat32_truncate_file`. -/
def Fs.blocksKept (f : Fs) (newSize : Nat) : Nat :=
  if newSize = 0 then 0 else f.blocksNeeded newSize

theorem truncatedBlocks_yields (sized : f.clusterSize ≠ 0) (newSize : Nat) {s : Machine} :
    ends total (if 0 < newSize then blocksFor newSize f.clusterSize else pure 0 : FatM Nat)
      (fun n t => n = f.blocksKept newSize ∧ t = s) s := by
  unfold Fs.blocksKept
  by_cases positive : 0 < newSize
  · unfold blocksFor numClusters
    rw [if_pos positive, if_neg positive.ne', ends_bind, ends_divide sized, ends_pure]
    exact ⟨rfl, rfl⟩
  · rw [if_neg positive, if_pos (Nat.eq_zero_of_not_pos positive), ends_pure]
    exact ⟨rfl, rfl⟩

/-- It is the number of clusters that the new size takes, unless it wraps. -/
theorem blocksKept_eq {newSize : Nat} (sized : 0 < f.clusterSize)
    (whole : newSize = 0 ∨ newSize + f.clusterSize ≤ 2 ^ 32) :
    f.blocksKept newSize = f.blocksOf newSize := by
  unfold Fs.blocksKept
  by_cases zero : newSize = 0
  · rw [if_pos zero, zero]
    exact (Nat.div_eq_of_lt (by omega)).symm
  · rw [if_neg zero]
    exact blocksNeeded_of_fits sized (Nat.pos_of_ne_zero zero) (whole.resolve_left zero)

include proper fits

/-- The loops that free blocks. -/
theorem freeBlocks_empties {blocks : Blocklist} (left i : Nat) {s : Machine}
    (holds : HoldsImage disk fs f tail world image s)
    (clusters : ∀ j, i ≤ j → j < i + left → f.HasCluster (blocks j)) :
    wp (freeBlocks disk fs blocks left i)
      (fun _ t => ∃ entry, HoldsImage disk fs f tail world { image with entry := entry } t ∧
        Emptied image.entry entry blocks i (i + left))
      (fun _ _ => False) s := by
  induction left generalizing i image s with
  | zero => exact ⟨image.entry, holds, fun j low high => by omega, fun _ _ => rfl⟩
  | succ left ih =>
      have has := clusters i le_rfl (by omega)
      rw [freeBlocks, if_pos has.1, wp_bind]
      refine wp_mono (setNext_holds proper fits holds has 0) ?_ (fun _ _ never => never)
      intro _ t holds
      refine wp_mono (ih (i + 1) holds fun j low high => clusters j (by omega) (by omega)) ?_
        (fun _ _ never => never)
      rintro - u ⟨entry, holds, emptied⟩
      have last : i + (left + 1) = i + 1 + left := by omega
      rw [last]
      exact ⟨entry, holds, emptied.step (by omega)⟩

/-- The handle and the table after the blocklist has been cut off. -/
structure Shrunk (f : Fs) (before after : Nat → BitVec 32) (file file' : FatFile)
    (blocks new : Blocklist) (count kept : Nat) : Prop where
  handle : Handle f after file' new kept
  start : ∀ i < kept, new i = blocks i
  cut : Cut f before after blocks count kept
  same : SameEntry file file'

include memory

/-- The part of `fat32_truncate_file` for a file with a blocklist. -/
theorem shrinkBlocklist_cuts {m : Machine} {file : FatFile} {blocks : Blocklist}
    {count needed : Nat} (onFs : file.fs = fs) (holds : HoldsImage disk fs f tail world image m)
    (handle : Handle f image.entry file blocks count) (some_ : 0 < count) :
    ends total (shrinkBlocklist disk blocks needed)
      (fun _ t => ∃ entry new,
        HoldsImage disk fs f tail world { image with entry := entry } t.1 ∧
        Shrunk f image.entry entry file t.2 blocks new count (min count needed)) (m, file) := by
  have chain := handle.chain some_
  -- every branch ends with the commit
  have commits {u : Machine} {file' : FatFile} {entry : Nat → BitVec 32} {new : Blocklist}
      (holds : HoldsImage disk fs f tail world { image with entry := entry } u)
      (shrunk : Shrunk f image.entry entry file file' blocks new count (min count needed)) :
      ends total (liftM (commitFat32Buffer disk fs) : FileM Unit)
        (fun _ t => ∃ entry new,
          HoldsImage disk fs f tail world { image with entry := entry } t.1 ∧
          Shrunk f image.entry entry file t.2 blocks new count (min count needed)) (u, file') := by
    rw [ends_lift]
    refine ends_of_wp (commit_holds proper holds) ?_
    intro _ v holds
    exact ⟨entry, new, holds, shrunk⟩
  unfold shrinkBlocklist
  rw [ends_bind, ends_theFile, handle.length, onFs]
  by_cases none_ : needed = 0
  · subst none_
    rw [Nat.min_zero] at commits ⊢
    simp only [if_pos]
    rw [ends_bind, ends_lift]
    refine ends_of_wp (freeBlocks_empties proper fits count 0 holds
      fun j _ inChain => chain.clusters j (by omega)) ?_
    rintro - t ⟨entry, holds, emptied⟩
    rw [Nat.zero_add] at emptied
    rw [ends_bind, ends_setFile]
    refine @commits _ _ _ blocks holds ⟨⟨rfl, rfl, rfl, fun never => absurd never (Nat.lt_irrefl 0)⟩,
      fun _ _ => rfl, ⟨fun never => absurd never (Nat.lt_irrefl 0), emptied.freed,
        fun k _ differs => emptied.others k fun i _ inChain =>
          differs some_ i (Nat.zero_le _) inChain⟩, ⟨rfl, rfl, rfl, rfl, rfl⟩⟩
  · have positive : 0 < needed := Nat.pos_of_ne_zero none_
    rw [if_neg none_]
    by_cases less : needed < count
    · rw [Nat.min_eq_right less.le] at commits ⊢
      rw [if_pos less, ends_bind, ends_lift]
      refine ends_of_wp (freeBlocks_empties proper fits (count - needed) needed holds
        fun j _ inChain => chain.clusters j (by omega)) ?_
      rintro - t ⟨between, holds, emptied⟩
      rw [show needed + (count - needed) = count by omega] at emptied
      rw [ends_bind, ends_lift]
      refine ends_of_wp (setNext_holds proper fits holds (chain.clusters (needed - 1) (by omega)) _) ?_
      intro _ u holds
      rw [ends_bind, ends_lift]
      refine ends_mono (reallocBlocklist_holds memory holds _ _) ?_
      rintro (_ | shorter) v ⟨memory_, holds, copied⟩
      · rw [ends_bind, ends_setFile]
        exact ends_bind.2 (ends_fail.2 fun enough => memory_ enough rfl)
      · have start : ∀ i < needed, shorter i = blocks i := copied shorter rfl blocks rfl
        have cut := emptied.cut chain positive less
        rw [ends_bind, ends_setFile]
        simp only [Option.isNone_some, Bool.false_eq_true, if_false]
        rw [ends_bind, ends_setFile]
        refine commits holds ⟨⟨rfl, ?_, ?_, fun _ => (cut.chain positive).congr_blocks start⟩, start,
          cut, ⟨rfl, rfl, rfl, rfl, rfl⟩⟩
        · exact (if_neg none_).symm
        · have first := handle.first
          rw [if_neg some_.ne'] at first
          rw [if_neg none_, start 0 positive]
          exact first
    · rw [Nat.min_eq_left (Nat.le_of_not_lt less)] at commits ⊢
      rw [if_neg less]
      exact commits holds ⟨handle, fun _ _ => rfl, Cut.refl handle.chain, ⟨rfl, rfl, rfl, rfl, rfl⟩⟩

/-- The end of `fat32_truncate_file`, with a handle that has been cut off. -/
theorem Shrunk.finishes {m : Machine} {file file' : FatFile} {before entry : Nat → BitVec 32}
    {blocks new : Blocklist} {count kept newSize : Nat} {dir : Blocklist} {dirCount : Nat}
    (shrunk : Shrunk f before entry file file' blocks new count kept) (onFs : file.fs = fs)
    (holds : HoldsImage disk fs f tail world { image with entry := entry } m)
    (filed : EntryIn f before file blocks count dir dirCount) :
    ends total (do
        setFile fun file => { file with size := newSize }
        if (← theFile).dirEntry.attrib &&& fatAttribDir = 0 then
          liftM (fat32DirUpdateEntry disk (← theFile)) : FileM Unit)
      (fun _ t => t.2.size = newSize ∧ ∃ image' new, HoldsImage disk fs f tail world image' t.1 ∧
        Shrunk f before image'.entry file t.2 blocks new count kept ∧
        SameOutsideFrom f tail dir dirCount image.data image'.data ∧
        (file.dirEntry.attrib &&& fatAttribDir = 0 → f.Behind tail dir dirCount →
          EntryWritten f dir dirCount t.2.dirEntry newSize image.data image'.data)) (m, file') := by
  have same := shrunk.same
  have filed' : file'.dirEntry.attrib &&& fatAttribDir = 0 →
      Filed f entry file'.dirEntry dir dirCount := by
    intro updated
    rw [same.attrib] at updated
    obtain ⟨filed, apart⟩ := filed updated
    exact filed.congr (shrunk.cut.apart proper filed.chain apart) same.parent same.index
  refine ends_mono (finish_holds proper fits memory (same.fs.trans onFs) holds filed') ?_
  rintro - ⟨u, file''⟩ ⟨handle'', data, holds, outside, written⟩
  have handle'' : file'' = _ := handle''
  subst handle''
  have kept := shrunk.handle
  rw [same.attrib] at written
  exact ⟨rfl, _, new, holds, ⟨⟨kept.length, kept.list, kept.first, kept.chain⟩, shrunk.start,
    shrunk.cut, same.fs, same.attrib, same.parent, same.index, same.name⟩, outside, written⟩

/-- **`fat32_truncate_file`**, which succeeds if its allocations do. -/
theorem truncateFile_ends {m : Machine} {file : FatFile} {blocks : Blocklist}
    {count newSize : Nat} {dir : Blocklist} {dirCount : Nat} (onFs : file.fs = fs)
    (holds : HoldsImage disk fs f tail world image m)
    (handle : Handle f image.entry file blocks count)
    (filed : EntryIn f image.entry file blocks count dir dirCount) (less : newSize < file.size) :
    ends total (fat32TruncateFile disk newSize)
      (fun _ t => t.2.size = newSize ∧ ∃ image' new, HoldsImage disk fs f tail world image' t.1 ∧
        Shrunk f image.entry image'.entry file t.2 blocks new count
          (min count (f.blocksKept newSize)) ∧
        SameOutsideFrom f tail dir dirCount image.data image'.data ∧
        (file.dirEntry.attrib &&& fatAttribDir = 0 → f.Behind tail dir dirCount →
          EntryWritten f dir dirCount t.2.dirEntry newSize image.data image'.data)) (m, file) := by
  have list := handle.list
  unfold fat32TruncateFile
  rw [ends_bind, ends_theFile, if_neg (Nat.not_le_of_lt less), ends_bind, ends_lift, onFs,
    ends_readFs, holds.fsMem, ends_bind, ends_lift]
  refine ends_mono (truncatedBlocks_yields proper.power.size.ne' newSize) ?_
  rintro _ t ⟨rfl, same⟩
  rw [same]
  rcases Nat.eq_zero_or_pos count with rfl | some_
  · rw [if_pos rfl] at list
    simp only [list]
    rw [ends_bind, ends_pure, Nat.zero_min]
    have shrunk : Shrunk f image.entry image.entry file file blocks blocks 0 0 :=
      ⟨handle, fun _ _ => rfl, Cut.refl handle.chain, rfl, rfl, rfl, rfl, rfl⟩
    exact shrunk.finishes proper fits memory onFs holds filed
  · rw [if_neg some_.ne'] at list
    simp only [list]
    rw [ends_bind]
    refine ends_mono (shrinkBlocklist_cuts proper fits memory onFs holds handle some_) ?_
    rintro - ⟨t, file'⟩ ⟨entry, new, holds, shrunk⟩
    exact shrunk.finishes proper fits memory onFs holds filed

omit memory in
/-- The same of a call that has returned 0. -/
theorem truncateFile_cuts {m : Machine} {file : FatFile} {blocks : Blocklist}
    {count newSize : Nat} {dir : Blocklist} {dirCount : Nat} (onFs : file.fs = fs)
    (holds : HoldsImage disk fs f tail world image m)
    (handle : Handle f image.entry file blocks count)
    (filed : EntryIn f image.entry file blocks count dir dirCount) (less : newSize < file.size) :
    wlp (fat32TruncateFile disk newSize)
      (fun _ t => t.2.size = newSize ∧ ∃ image' new, HoldsImage disk fs f tail world image' t.1 ∧
        Shrunk f image.entry image'.entry file t.2 blocks new count
          (min count (f.blocksKept newSize)) ∧
        SameOutsideFrom f tail dir dirCount image.data image'.data ∧
        (file.dirEntry.attrib &&& fatAttribDir = 0 → f.Behind tail dir dirCount →
          EntryWritten f dir dirCount t.2.dirEntry newSize image.data image'.data))
      (fun _ _ => True) (m, file) :=
  (truncateFile_ends proper fits False.elim onFs holds handle filed less).wlp

end Call

/-! ## Truncating a file -/

section Truncates

variable {disk : DiskId} {fs : FsPtr} {m : Machine}

/-- What `fat32_truncate_file` has made of a handle and a FAT when it returns 0. -/
structure Truncated (f : Fs) (before after : Nat → BitVec 32) (file : FatFile)
    (blocks : Blocklist) (count newSize : Nat) : Prop where
  size : file.size = newSize
  cut : Cut f before after blocks count (f.blocksOf newSize)
  handle : ∃ new, (∀ i < f.blocksOf newSize, new i = blocks i) ∧
    Handle f after file new (f.blocksOf newSize)

/-- The two tables differ in the entry of `last` only, and that ends a chain. -/
structure RestoredUpTo (f : Fs) (last : BitVec 32) (before after : Nat → BitVec 32) : Prop where
  ends : EndMark (nextIn after last)
  others : ∀ k < f.fatSectors * 128, k ≠ last.toNat → after k = before k

/-- The clusters of a file are those that it had and those that were free, and
what is cut off is free again. -/
theorem Cut.restores {f : Fs} {before between after : Nat → BitVec 32} {old new : Blocklist}
    {count count' : Nat} (some_ : 0 < count)
    (grown : Grown f before between old new count count')
    (front : SameInFront before between new count count')
    (cut : Cut f between after new count' count) :
    RestoredUpTo f (old (count - 1)) before after where
  ends := by
    rw [← grown.kept (count - 1) (by omega)]
    exact (cut.chain some_).isChain.ends
  others k inTable other := by
    rw [← grown.kept (count - 1) (by omega)] at other
    by_cases added : ∃ i, count ≤ i ∧ i < count' ∧ (new i).toNat = k
    · obtain ⟨i, low, high, rfl⟩ := added
      rw [cut.freed i low high, grown.free i low high]
    · have differs (i : Nat) (low : count ≤ i + 1) (high : i < count') : (new i).toNat ≠ k := by
        intro same
        by_cases last : i = count - 1
        · rw [last] at same
          exact other same.symm
        · exact added ⟨i, by omega, high, same⟩
      rw [cut.others k inTable fun _ => differs, front k differs]

/-- A size is within the clusters that it takes. -/
theorem blocksOf_le {f : Fs} (sized : 0 < f.clusterSize) {size newSize count : Nat}
    (inside : size ≤ count * f.clusterSize) (less : newSize ≤ size) : f.blocksOf newSize ≤ count := by
  unfold Fs.blocksOf
  rw [Nat.div_le_iff_le_mul_add_pred sized, Nat.mul_comm]
  omega

/-- **Truncating a file frees the clusters behind those that the new size takes,
unless `NUM_CLUSTERS` of that wraps.  A file whose size took all its clusters
has them back when it is extended and truncated to that size.** -/
theorem truncate_cuts (disk : DiskId) (fs : FsPtr) {file : FatFile} {blocks dir : Blocklist}
    {count dirCount : Nat} (reliable : m.Reliable) (mounted : (m.disk disk).fs = some fs)
    (onFs : file.fs = fs) (proper : (m.fsMem fs).Proper) (cache : CacheOk m.toCore disk fs)
    (handle : Handle (m.fsMem fs) (m.fatTable disk fs) file blocks count)
    (entry : EntryIn (m.fsMem fs) (m.fatTable disk fs) file blocks count dir dirCount)
    (inside : file.size ≤ count * (m.fsMem fs).clusterSize) :
    (∀ newSize t file', newSize < file.size →
      newSize = 0 ∨ newSize + (m.fsMem fs).clusterSize ≤ 2 ^ 32 →
      fat32TruncateFile disk newSize (m, file) = some (.ok (), (t, file')) →
      Truncated (m.fsMem fs) (m.fatTable disk fs) (t.fatTable disk fs) file' blocks count newSize) ∧
    (∀ newSize t u file' file'', 0 < file.size → file.size < newSize →
      count = (m.fsMem fs).blocksOf file.size →
      file.size + (m.fsMem fs).clusterSize ≤ 2 ^ 32 →
      fat32ExtendFile disk newSize (m, file) = some (.ok (), (t, file')) →
      fat32TruncateFile disk file.size (t, file') = some (.ok (), (u, file'')) →
      RestoredUpTo (m.fsMem fs) (blocks (count - 1)) (m.fatTable disk fs) (u.fatTable disk fs)) := by
  have holds := HoldsImage.start reliable mounted proper cache
  have sized : 0 < (m.fsMem fs).clusterSize := proper.power.size
  have nonempty (positive : 0 < file.size) : 0 < count := by
    rcases Nat.eq_zero_or_pos count with rfl | some_
    · omega
    · exact some_
  refine ⟨fun newSize t file' less whole run => ?_,
    fun newSize t u file' file'' positive grows all whole extends_ truncates => ?_⟩
  · have some_ := nonempty (by omega)
    obtain ⟨size, image', new, holds', shrunk, -, -⟩ := wlp_ok (truncateFile_cuts proper
      proper.tailFits onFs holds handle entry less) run
    rw [blocksKept_eq sized whole, min_eq_right (blocksOf_le sized inside less.le)] at shrunk
    have table := holds'.fatTable
    have kept := shrunk.handle
    refine ⟨size, shrunk.cut.congr_after proper (handle.chain some_).clusters table, new,
      shrunk.start, kept.length, kept.list, kept.first, fun some_ => ?_⟩
    exact (kept.chain some_).congr_entry proper table
  · have some_ := nonempty positive
    obtain ⟨image', new, extended, front, -⟩ := wlp_ok (extendFile_extends proper proper.tailFits onFs
      holds handle entry (by omega)) extends_
    have le : (m.fsMem fs).blocksOf file.size ≤ max count ((m.fsMem fs).blocksNeeded newSize) := by
      rw [← all]
      exact le_max_left ..
    have less : file.size < file'.size := by
      rw [show file'.size = newSize from extended.size]
      exact grows
    obtain ⟨-, image'', new', holds'', shrunk, -, -⟩ := wlp_ok (truncateFile_cuts proper
      proper.tailFits (extended.same.fs.trans onFs) extended.holds extended.handle extended.entry
      less) truncates
    have cut := shrunk.cut
    rw [blocksKept_eq sized (.inr whole), min_eq_right le, ← all] at cut
    have restored := cut.restores some_ extended.grown front
    have table := holds''.fatTable
    refine ⟨?_, fun k inTable other => (table k inTable).trans (restored.others k inTable other)⟩
    have inFat := lt_min_iff.1 (proper.hasEntry ((handle.chain some_).clusters (count - 1) (by omega)))
    have ends := restored.ends
    rwa [nextIn, ← table _ inFat.1] at ends

end Truncates

/-! ## A file of two clusters -/

/-- A volume with the first cluster of its root directory, and a chain of the clusters 3 and 4. -/
def twoClusters : Machine :=
  Machine.mounted (fun _ => smallFs 2 16 64) fun _ =>
    putWord (putWord (putWord (fun _ => 0) (512 * 32 + 8) 0x0fffffff) (512 * 32 + 12) 4)
      (512 * 32 + 16) 0x0fffffff

def twoChain : Blocklist := fun i => BitVec.ofNat 32 (3 + i)

/-- The file of that chain, of some size. -/
def twoClusterFile (size : Nat) : FatFile :=
  { emptyFile with
    size := size
    blocklistSize := 2
    blocklist := some twoChain
    dirEntry := { emptyFile.dirEntry with firstCluster := 3 } }

theorem twoClusters_reliable : twoClusters.Reliable := mounted_reliable _ _

theorem twoClusters_cache : CacheOk twoClusters.toCore 0 0 where
  clean _ own := nomatch own
  owned dirty := nomatch dirty
  window own := nomatch own

theorem twoClusters_handle (size : Nat) :
    Handle (twoClusters.fsMem 0) (twoClusters.fatTable 0 0) (twoClusterFile size) twoChain 2 := by
  have bound : clusterBound (twoClusters.fsMem 0) = 1986 := by decide +kernel
  refine ⟨rfl, rfl, rfl, fun _ => ⟨⟨Nat.two_pos, fun i inside => ?_, fun i inside => ?_,
    by decide +kernel⟩, fun i inChain => ?_⟩⟩
  · obtain rfl : i = 0 := by omega
    decide +kernel
  · obtain rfl : i = 0 := by omega
    decide +kernel
  · have number : (twoChain i).toNat = 3 + i := Nat.mod_eq_of_lt (by omega)
    unfold Fs.HasCluster
    rw [number, bound]
    omega

theorem twoClusters_entry (size : Nat) :
    EntryIn (twoClusters.fsMem 0) (twoClusters.fatTable 0 0) (twoClusterFile size) twoChain 2
      rootChain 1 := by
  have chain : FileChain (twoClusters.fsMem 0) (twoClusters.fatTable 0 0) rootChain 1 := by
    refine ⟨TableChain.single (by decide +kernel), fun _ _ => ?_⟩
    have has : 2 ≤ (2 : BitVec 32).toNat ∧
        (2 : BitVec 32).toNat < clusterBound (twoClusters.fsMem 0) := by decide +kernel
    exact has
  have valid : (twoClusters.fsMem 0).firstDataCluster.toNat +
      (twoClusters.fsMem 0).clusterSectors * ((2 : BitVec 32).toNat - 2) +
      (twoClusters.fsMem 0).clusterSectors ≤ 2 ^ 32 := by decide +kernel
  have slot : 0 * diskEntrySize + diskEntrySize ≤ 1 * (twoClusters.fsMem 0).clusterSize := by
    decide +kernel
  refine fun _ => ⟨⟨chain, rfl, fun _ _ => ⟨show 2 ≤ (2 : BitVec 32).toNat by decide, valid⟩,
    by decide +kernel, slot⟩, fun _ _ j inChain same => ?_⟩
  have number : (twoChain j).toNat = 3 + j := Nat.mod_eq_of_lt (by omega)
  rw [← same] at number
  have two : (2 : BitVec 32).toNat = 3 + j := number
  rw [show (2 : BitVec 32).toNat = 2 by decide] at two
  omega

/-- An extension and a truncation that have both returned 0, and an entry after them. -/
theorem extends_then_truncates {s : Machine × FatFile} {larger smaller k : Nat} {value : BitVec 32}
    (runs : ((fat32ExtendFile 0 larger s).map fun r => (r.1, (fat32TruncateFile 0 smaller r.2).map
      fun q => (q.1, q.2.1.fatTable 0 0 k))) = some (.ok (), some (.ok (), value))) :
    ∃ t u grown cut, fat32ExtendFile 0 larger s = some (.ok (), (t, grown)) ∧
      fat32TruncateFile 0 smaller (t, grown) = some (.ok (), (u, cut)) ∧
      u.fatTable 0 0 k = value := by
  obtain ⟨⟨r, t, grown⟩, extends_, same⟩ := Option.map_eq_some_iff.1 runs
  obtain ⟨rfl, rest⟩ := Prod.mk.inj same
  obtain ⟨⟨q, u, cut⟩, truncates, same'⟩ := Option.map_eq_some_iff.1 rest
  obtain ⟨rfl, entry⟩ := Prod.mk.inj same'
  exact ⟨t, u, grown, cut, extends_, truncates, entry⟩

/-- A file of 1000 bytes loses its second cluster when it is truncated to 300, and
has its clusters back after 2000. -/
theorem truncate_cuts_two :
    (∃ t cut, fat32TruncateFile 0 300 (twoClusters, twoClusterFile 1000) =
        some (.ok (), (t, cut)) ∧
      Truncated (twoClusters.fsMem 0) (twoClusters.fatTable 0 0) (t.fatTable 0 0) cut twoChain 2
        300) ∧
    ∃ t u grown cut, fat32ExtendFile 0 2000 (twoClusters, twoClusterFile 1000) =
        some (.ok (), (t, grown)) ∧
      fat32TruncateFile 0 1000 (t, grown) = some (.ok (), (u, cut)) ∧
      RestoredUpTo (twoClusters.fsMem 0) (twoChain 1) (twoClusters.fatTable 0 0)
        (u.fatTable 0 0) := by
  obtain ⟨cuts, restores⟩ := truncate_cuts 0 0 twoClusters_reliable rfl rfl rootVolume_proper
    twoClusters_cache (twoClusters_handle 1000) (twoClusters_entry 1000) (by decide +kernel)
  have run : (fat32TruncateFile 0 300 (twoClusters, twoClusterFile 1000)).map Prod.fst =
      some (.ok ()) := by decide +kernel
  obtain ⟨⟨r, t, cut⟩, truncates, same⟩ := Option.map_eq_some_iff.1 run
  cases same
  obtain ⟨u, v, grown, cut', extends_, truncates', -⟩ := @extends_then_truncates
    (twoClusters, twoClusterFile 1000) 2000 1000 5 0 (by decide +kernel)
  refine ⟨⟨t, cut, truncates, cuts 300 t cut (by decide) (.inr (by decide +kernel)) truncates⟩,
    u, v, grown, cut', extends_, truncates', ?_⟩
  exact restores 2000 u v grown cut' (by decide) (by decide) (by decide +kernel)
    (by decide +kernel) extends_ truncates'

/-- A file of 100 bytes that has two clusters loses the second one when it is
extended to 200 and truncated to 100. -/
theorem truncate_frees_surplus :
    (twoClusters.Reliable ∧ (twoClusters.fsMem 0).Proper ∧ CacheOk twoClusters.toCore 0 0 ∧
      Handle (twoClusters.fsMem 0) (twoClusters.fatTable 0 0) (twoClusterFile 100) twoChain 2 ∧
      EntryIn (twoClusters.fsMem 0) (twoClusters.fatTable 0 0) (twoClusterFile 100) twoChain 2
        rootChain 1 ∧
      (twoClusterFile 100).size ≤ 2 * (twoClusters.fsMem 0).clusterSize) ∧
    ∃ t u grown cut, fat32ExtendFile 0 200 (twoClusters, twoClusterFile 100) =
        some (.ok (), (t, grown)) ∧
      fat32TruncateFile 0 100 (t, grown) = some (.ok (), (u, cut)) ∧
      ∀ last, ¬ RestoredUpTo (twoClusters.fsMem 0) last (twoClusters.fatTable 0 0)
        (u.fatTable 0 0) := by
  refine ⟨⟨twoClusters_reliable, rootVolume_proper, twoClusters_cache, twoClusters_handle 100,
    twoClusters_entry 100, by decide +kernel⟩, ?_⟩
  obtain ⟨t, u, grown, cut, extends_, truncates, freed⟩ := @extends_then_truncates
    (twoClusters, twoClusterFile 100) 200 100 4 0 (by decide +kernel)
  refine ⟨t, u, grown, cut, extends_, truncates, fun last restored => ?_⟩
  by_cases isLast : last = 4
  · have ends := restored.ends
    rw [isLast, nextIn, show (4 : BitVec 32).toNat = 4 by decide, freed] at ends
    exact absurd ends (by decide)
  · have kept := restored.others 4 (by decide +kernel) fun same =>
      isLast (BitVec.eq_of_toNat_eq same.symm)
    have mark : twoClusters.fatTable 0 0 4 = 0x0fffffff := by decide +kernel
    rw [freed, mark] at kept
    cases kept

end TestOs.Fat32
