/-
# Fat32.Ownership -- what lookups allocate and free

The functions that open files and directories, with their calls of `malloc`,
`realloc` and `free`.  Apart from these they do what the functions of
`Fat32.Files` and `Fat32.Directories` do, in the same order, and the contents of
memory are the same; a block is a number, and what `free` gets is a number or NULL.

`fat32_subdir_open_by_dir_entry` frees its handle and then jumps to `fail`, which
frees it again, when the entry has no clusters and when its contents cannot be read.
-/
import TestOs.Library.Ownership
import TestOs.Fat32.Directories
import TestOs.Fat32.Blocklists

namespace TestOs.Fat32

open TestOs.Library Prog Owner

set_option autoImplicit false

/-- What a function does with the machine and the heap. -/
abbrev HeapM : Type → Type := Owner Machine

/-- A `struct fat32_file` and the block of its blocklist. -/
structure OwnedFile where
  file : FatFile
  block : Option Nat

/-- A `struct fat32_dir` and the block of its entries. -/
structure OwnedDir where
  dir : FatDir
  entries : Option Nat

/-! ## The functions -/

/-- `malloc`: the block, and what is in it. -/
def alloc : HeapM (Option (Nat × Blocklist)) := do
  match ← call mallocBlocklist with
  | none => return none
  | some contents => return some (← newBlock, contents)

/-- `realloc` of a blocklist of `keep` entries; the new block may have the old address. -/
def ownedRealloc (block : Nat) (old : Blocklist) (keep : Nat) : HeapM (Option (Nat × Blocklist)) := do
  match ← call (reallocBlocklist (some old) keep) with
  | none => return none
  | some contents =>
      let new ← newBlock
      free (some block)
      return some (new, contents)

/-- The loop of `fat32_file_open_by_dir_entry`. -/
def ownedOpenLoop (disk : DiskId) (fs : FsPtr) :
    Nat → Nat → Nat → Nat → Blocklist → HeapM (Except FatError (Nat × Blocklist × Nat × Nat))
  | 0, _, _, _, _ => halt
  | fuel + 1, i, size, block, blocklist => do
      let cluster ← call (getNextClusterFat32 disk fs (blocklist (i - 1)))
      if cluster = 0 then
        free (some block)
        return .error .eio
      else if 0xfffffff8 ≤ cluster.toNat then return .ok (block, blocklist, size, i)
      else if size ≤ i then
        match ← ownedRealloc block blocklist size with
        | none => halt
        | some (block, blocklist) =>
            ownedOpenLoop disk fs fuel (i + 1) (w32 (size * 2)) block
              (Function.update blocklist i cluster)
      else ownedOpenLoop disk fs fuel (i + 1) size block (Function.update blocklist i cluster)

/-- `fat32_file_open_by_dir_entry`. -/
def ownedFileOpenByDirEntry (disk : DiskId) (entry : DirEntry) : HeapM (Except FatError OwnedFile) := do
  let fs ← call (mountedFs disk)
  let f ← call (readFs fs)
  if entry.firstCluster = 0 then
    return .ok
      { file := { fs := fs, size := entry.size, blocklistSize := 0, blocklist := none
                  dirEntry := entry }
        block := none }
  else
    let blocklistSize ← call (if 0 < entry.size then numClusters entry.size f.clusterSize else pure 1)
    match ← alloc with
    | none => halt
    | some (block, blocklist) =>
        match ← ownedOpenLoop disk fs chainFuel 1 blocklistSize block
          (Function.update blocklist 0 entry.firstCluster) with
        | .error e => return .error e
        | .ok (block, blocklist, blocklistSize, clusters) =>
            return .ok
              { file := { fs := fs
                          size := if entry.size = 0 then w32 (clusters * f.clusterSize) else entry.size
                          blocklistSize := blocklistSize
                          blocklist := some blocklist
                          dirEntry := entry }
                block := some block }

/-- `fat32_file_close`. -/
def ownedFileClose (file : OwnedFile) : HeapM Unit := freeUnlessNull file.block

/-- The common part of the functions that open a directory: read its entries, close
the file and free `handle`. -/
def ownedLoadEntries (disk : DiskId) (handle : Nat) (file : OwnedFile) :
    HeapM (Except FatError (Nat × Bytes)) := do
  let m ← call (state : FatM Machine)
  let buf ← alloc
  let (ret, contents) ← call (fat32FileRead disk file.file (m.world.stray m.io) 0 file.file.size)
  ownedFileClose file
  free (some handle)
  if 2 ^ 31 ≤ ret then
    free (buf.map Prod.fst)
    return .error .eio
  else
    match buf with
    | none => halt
    | some (block, _) => return .ok (block, contents)

/-- `fat32_rootdir32_open`. -/
def ownedRootdir32Open (disk : DiskId) : HeapM (Except FatError OwnedDir) := do
  let fs ← call (mountedFs disk)
  let f ← call (readFs fs)
  match ← alloc with
  | none => return .error .enoent
  | some (handle, _) =>
      match ← ownedFileOpenByDirEntry disk (directoryEntry f.bpb.rootdirCluster) with
      | .error e =>
          free (some handle)
          return .error e
      | .ok file =>
          match ← ownedLoadEntries disk handle file with
          | .error e => return .error e
          | .ok (block, buf) =>
              return .ok
                { dir := { fs := fs, entries := buf, firstCluster := 0, i := 0
                           num := file.file.size / diskEntrySize }
                  entries := some block }

/-- `fat32_subdir_open_by_dir_entry`. -/
def ownedSubdirOpenByDirEntry (disk : DiskId) (dentry : DirEntry) : HeapM (Except FatError OwnedDir) := do
  match ← alloc with
  | none => return .error .enoent
  | some (handle, _) =>
      match ← ownedFileOpenByDirEntry disk dentry with
      | .error e =>
          free (some handle)
          return .error e
      | .ok file =>
          match file.file.blocklist with
          | none =>
              ownedFileClose file
              free (some handle)
              -- `goto fail`
              free (some handle)
              return .error .enoent
          | some blocklist =>
              match ← ownedLoadEntries disk handle file with
              | .error e =>
                  -- `goto fail`
                  free (some handle)
                  return .error e
              | .ok (block, buf) =>
                  let fs ← call (mountedFs disk)
                  return .ok
                    { dir := { fs := fs, entries := buf, firstCluster := blocklist 0, i := 0
                               num := file.file.size / diskEntrySize }
                      entries := some block }

/-- `fat32_subdir_open`. -/
def ownedSubdirOpen (disk : DiskId) (dir : FatDir) (name : CString) : HeapM (Except FatError OwnedDir) :=
  match findEntry name (dir.num - dir.i + 1) dir (directoryEntry 0) with
  | none => return .error .enoent
  | some found => ownedSubdirOpenByDirEntry disk found

/-- `fat32_dir_close`. -/
def ownedDirClose (dir : OwnedDir) : HeapM Unit := freeUnlessNull dir.entries

/-- The loop of `fat32_dir_open` over the parts of a path. -/
def ownedOpenSubdirs (disk : DiskId) : List CString → OwnedDir → HeapM (Except FatError OwnedDir)
  | [], dir => return .ok dir
  | name :: names, dir => do
      let subdir ← ownedSubdirOpen disk dir.dir name
      ownedDirClose dir
      match subdir with
      | .error e => return .error e
      | .ok subdir => ownedOpenSubdirs disk names subdir

/-- `fat32_dir_open` behind its `malloc`. -/
def ownedDirInit (disk : DiskId) (path : CString) : HeapM (Except FatError OwnedDir) := do
  match ← ownedRootdir32Open disk with
  | .error e => return .error e
  | .ok dir =>
      ensure (path.length < maxPath)
      match path with
      | [] => return .error .einval
      | c :: rest => if c ≠ 0x2f then return .error .einval else ownedOpenSubdirs disk (tokens rest) dir

/-- `fat32_dir_open`: `dir->fs_dir`, and the status. -/
def ownedDirOpen (disk : DiskId) (path : CString) :
    HeapM (Option Nat × Except FatError OwnedDir) := do
  match ← alloc with
  | none => return (none, .error .enoent)
  | some (fsDir, _) => return (some fsDir, ← ownedDirInit disk path)

/-- `fat32_dir_open`, and `disk_dir_close` when it succeeds. -/
def openAndCloseDir (disk : DiskId) (path : CString) : HeapM (Except FatError Unit) := do
  let (fsDir, opened) ← ownedDirOpen disk path
  match opened with
  | .error e => return .error e
  | .ok dir =>
      ownedDirClose dir
      freeUnlessNull fsDir
      return .ok ()

/-- `fat32_file_open`, of a `struct file` with this `fs_file`: the handle and its block. -/
def ownedFileOpen (disk : DiskId) (path : CString) (fsFile : Option Nat) :
    HeapM (Except FatError (OwnedFile × Nat)) := do
  match ← alloc with
  | none =>
      -- `file->fs_file` is what the caller left there
      freeUnlessNull fsFile
      return .error .enoent
  | some (fsDirEntry, _) =>
      match ← alloc with
      | none =>
          free (some fsDirEntry)
          return .error .enoent
      | some (fsFile, _) =>
          match splitPath path with
          | none =>
              free (some fsFile)
              free (some fsDirEntry)
              return .error .einval
          | some (dirname, base) =>
              ensure (dirname.length < maxPath)
              let (fsDir, opened) ← ownedDirOpen disk dirname
              match opened with
              | .error e =>
                  free (some fsFile)
                  freeUnlessNull fsDir
                  free (some fsDirEntry)
                  return .error e
              | .ok dir =>
                  ownedDirClose dir
                  match findEntry base (dir.dir.num - dir.dir.i + 1) dir.dir (directoryEntry 0) with
                  | none =>
                      free (some fsFile)
                      freeUnlessNull fsDir
                      free (some fsDirEntry)
                      return .error .enoent
                  | some found =>
                      match ← ownedFileOpenByDirEntry disk found with
                      | .error e =>
                          free (some fsFile)
                          freeUnlessNull fsDir
                          free (some fsDirEntry)
                          return .error e
                      | .ok file =>
                          freeUnlessNull fsDir
                          free (some fsDirEntry)
                          return .ok (file, fsFile)

/-! ## Opening a file -/

/-- The machine after an allocation. -/
def Machine.allocated (m : Machine) : Machine := { m with mallocs := m.mallocs + 1 }

/-- The next allocation returns NULL. -/
def Machine.OutOfMemory (m : Machine) : Prop := m.world.noMemory m.mallocs = true

/-- What a file open leaves: the handle of the plain model, with its block. -/
structure FileOwned (g : Heap) (a : FatFile) (b : OwnedFile) (k : Heap) : Prop where
  file : b.file = a
  extends_ : Extends g k
  block : ∀ block, b.block = some block → Owns g k block

/-- What a directory open leaves. -/
structure DirOwned (g : Heap) (a : FatDir) (b : OwnedDir) (k : Heap) : Prop where
  dir : b.dir = a
  extends_ : Extends g k
  entries : ∀ block, b.entries = some block → Owns g k block

section Opening

variable {α β : Type} {m : Machine} {g h : Heap} {disk : DiskId} {fs : FsPtr} {sound : Prop}
  {owned : α → β → Heap → Prop} {lost : Heap → Prop}

theorem mallocBlocklist_null (full : m.OutOfMemory) :
    mallocBlocklist m = some (.ok none, m.allocated) := by
  unfold Machine.OutOfMemory at full
  simp [mallocBlocklist, Bind.bind, state, update, pure, Machine.allocated, full]

theorem mallocBlocklist_block (room : ¬ m.OutOfMemory) :
    mallocBlocklist m = some (.ok (some (m.world.garbage m.mallocs)), m.allocated) := by
  unfold Machine.OutOfMemory at room
  simp [mallocBlocklist, Bind.bind, state, update, pure, Machine.allocated, room]

theorem alloc_null (full : m.OutOfMemory) : alloc (m, h) = some (.ok none, (m.allocated, h)) :=
  bind_ok (call_ok (mallocBlocklist_null full))

theorem alloc_block (room : ¬ m.OutOfMemory) : alloc (m, h) =
    some (.ok (some (h.next, m.world.garbage m.mallocs)), (m.allocated, h.grown)) :=
  bind_ok (call_ok (mallocBlocklist_block room))

/-- The rule for an allocation. -/
theorem mirrorsIff_alloc {cont : Option (Nat × Blocklist) → HeapM (Except FatError β)}
    {rest : Option Blocklist → FatM α}
    (null : m.OutOfMemory → MirrorsIff sound (cont none) (rest none) owned lost m.allocated h)
    (block : ∀ contents, ¬ m.OutOfMemory →
      MirrorsIff sound (cont (some (h.next, contents))) (rest (some contents)) owned lost m.allocated
        h.grown) :
    MirrorsIff sound (alloc >>= cont) (mallocBlocklist >>= rest) owned lost m h := by
  by_cases full : m.OutOfMemory
  · exact (null full).step (bind_ok (alloc_null full)) (bind_ok (mallocBlocklist_null full))
  · exact (block _ full).step (bind_ok (alloc_block full)) (bind_ok (mallocBlocklist_block full))

theorem neverFails_getNextClusterFat32 (cluster : BitVec 32) :
    NeverFails (getNextClusterFat32 disk fs cluster) :=
  .of_wp fun _ => wp_mono (getNextClusterFat32_succeeds cluster) (fun _ _ _ => trivial) fun _ _ never => never

/-- `realloc` of a block of the caller's. -/
theorem mirrors_realloc {block keep : Nat} {old : Blocklist}
    {cont : Option (Nat × Blocklist) → HeapM (Except FatError β)} {rest : Option Blocklist → FatM α}
    (extends_ : Extends g h) (owns : Owns g h block)
    (null : Mirrors (cont none) (rest none) owned lost m.allocated h)
    (moved : ∀ contents k, Extends g k → Owns g k h.next →
      Mirrors (cont (some (h.next, contents))) (rest (some contents)) owned lost m.allocated k) :
    Mirrors (ownedRealloc block old keep >>= cont) (reallocBlocklist (some old) keep >>= rest)
      owned lost m h := by
  by_cases full : m.OutOfMemory
  · have run : reallocBlocklist (some old) keep m = some (.ok none, m.allocated) :=
      bind_ok (mallocBlocklist_null full)
    exact null.step (bind_ok (bind_ok (call_ok run))) (bind_ok run)
  · have run : reallocBlocklist (some old) keep m = _ := bind_ok (mallocBlocklist_block full)
    have live : block ∈ h.grown.live := Finset.mem_insert_of_mem owns.live
    have newLive : h.next ∈ (h.grown.without block).live :=
      Heap.without_live h.grown_live (h.fresh block owns.live).ne'
    refine (moved _ (h.grown.without block) (extends_.grown.without owns.new)
      ⟨extends_.next, newLive⟩).step (bind_ok ((bind_ok (call_ok run)).trans ?_)) (bind_ok run)
    exact (bind_ok rfl).trans (bind_ok (free_of_live live))

/-- The loop keeps one block, whichever it is. -/
theorem openLoop_mirrors {fuel i size block : Nat} {blocklist : Blocklist} (extends_ : Extends g h)
    (owns : Owns g h block) :
    Mirrors (ownedOpenLoop disk fs fuel i size block blocklist) (openLoop disk fs fuel i size blocklist)
      (fun a b k => b.2 = a ∧ Extends g k ∧ Owns g k b.1) (Extends g) m h := by
  induction fuel generalizing i size block blocklist m h with
  | zero => exact mirrors_halt
  | succ fuel ih =>
    refine mirrors_call (neverFails_getNextClusterFat32 _) fun cluster t _ => ?_
    split
    · refine .free owns.live (mirrors_fail (extends_.without owns.new))
    · split
      · exact mirrors_pure ⟨rfl, extends_, owns⟩
      · split
        · refine mirrors_realloc extends_ owns mirrors_halt fun contents k extends_ owns => ?_
          exact ih extends_ owns
        · exact ih extends_ owns

theorem neverFails_mountedFs : NeverFails (mountedFs disk) := by
  refine .bind neverFails_state fun m => ?_
  split
  · exact neverFails_pure _
  · exact neverFails_halt

theorem neverFails_readFs : NeverFails (readFs fs) := .bind neverFails_state fun _ => neverFails_pure _

theorem neverFails_divide (x y : Nat) : NeverFails (divide x y) :=
  .bind (neverFails_ensure _) fun _ => neverFails_pure _

/-- The first guess of the size of a blocklist. -/
theorem neverFails_guess (entry : DirEntry) (clusterSize : Nat) :
    NeverFails (if 0 < entry.size then numClusters entry.size clusterSize else pure 1 : FatM Nat) := by
  split
  · exact neverFails_divide _ _
  · exact neverFails_pure 1

/-- Opening a file frees nothing that is not its own, on any path and whatever fails. -/
theorem fileOpen_mirrors (entry : DirEntry) :
    Mirrors (ownedFileOpenByDirEntry disk entry) (fat32FileOpenByDirEntry disk entry) (FileOwned h)
      (Extends h) m h := by
  refine mirrors_call neverFails_mountedFs fun fs t _ => ?_
  refine mirrors_call neverFails_readFs fun f t _ => ?_
  by_cases noCluster : entry.firstCluster = 0
  · simp only [if_pos noCluster]
    exact mirrors_pure ⟨rfl, .refl h, fun _ none_ => nomatch none_⟩
  · simp only [if_neg noCluster]
    refine mirrors_call (neverFails_guess entry _) fun size t _ => ?_
    refine (mirrorsIff_alloc (fun _ => mirrors_halt.always) fun contents _ => Mirrors.always ?_).mirrors
      trivial
    refine (openLoop_mirrors (Extends.refl h).grown (.grown (.refl h))).next ?_ ?_
    · rintro a ⟨block, a⟩ t k - ⟨rfl, extends_, owns⟩
      refine mirrors_pure ⟨rfl, extends_, fun other same => ?_⟩
      obtain rfl := Option.some.inj same
      exact owns
    · exact fun e t k extends_ => mirrors_fail extends_

end Opening

/-! ## Opening a directory -/

/-- The contents of a directory cannot be read: the result of `fat32_file_read` is negative. -/
def ReadFails (disk : DiskId) (file : FatFile) (m : Machine) : Prop :=
  ∃ ret buf t, fat32FileRead disk file (m.world.stray m.io) 0 file.size m.allocated =
    some (.ok (ret, buf), t) ∧ 2 ^ 31 ≤ ret

section Loading

variable {m : Machine} {g h : Heap} {disk : DiskId} {file : OwnedFile} {handle : Nat}

theorem mallocMemory_null (full : m.OutOfMemory) : mallocMemory m = some (.ok false, m.allocated) :=
  bind_ok (mallocBlocklist_null full)

theorem mallocMemory_block (room : ¬ m.OutOfMemory) : mallocMemory m = some (.ok true, m.allocated) :=
  bind_ok (mallocBlocklist_block room)

theorem neverFails_fat32FileRead (file : FatFile) (buf : Bytes) (offset length : Nat) :
    NeverFails (fat32FileRead disk file buf offset length) := by
  unfold fat32FileRead
  split
  · exact neverFails_pure _
  · refine .bind (neverFails_attempt _) fun r => ?_
    cases r with
    | ok _ => exact neverFails_pure _
    | error _ => exact neverFails_pure _

theorem loadEntries_fails {file : FatFile} (room : ¬ m.OutOfMemory) (fails : ReadFails disk file m) :
    ∃ t, loadEntries disk file m = some (.error .eio, t) := by
  obtain ⟨ret, buf, t, run, large⟩ := fails
  refine ⟨t, ?_⟩
  calc loadEntries disk file m
      = (if 2 ^ 31 ≤ ret then fail .eio else pure buf : FatM Bytes) t :=
        (bind_ok rfl).trans ((bind_ok (mallocMemory_block room)).trans ((bind_ok rfl).trans (bind_ok run)))
    _ = some (.error .eio, t) := by rw [if_pos large]; rfl

/-- Without a buffer, a read that fails frees NULL. -/
theorem loadEntries_unbuffered (extends_ : Extends g h) (mine : Owns g h handle)
    (block : ∀ block, file.block = some block → Owns g h block) (apart : file.block ≠ some handle)
    (full : m.OutOfMemory) {owned : Bytes → Nat × Bytes → Heap → Prop} {lost : Heap → Prop} :
    MirrorsIff (¬ ReadFails disk file.file m) (ownedLoadEntries disk handle file)
      (loadEntries disk file.file) owned lost m h := by
  constructor
  · intro works
    have bare : loadEntries disk file.file m = none :=
      (bind_ok rfl).trans ((bind_ok (mallocMemory_null full)).trans rfl)
    unfold Mirrors
    rw [bare]
    refine ((bind_ok rfl).trans (bind_ok (alloc_null full)) : ownedLoadEntries disk handle file (m, h) = _).trans ?_
    cases run : fat32FileRead disk file.file (m.world.stray m.io) 0 file.file.size m.allocated with
    | none => exact bind_none (call_none run)
    | some result =>
      obtain ⟨(e | ⟨ret, contents⟩), t⟩ := result
      · exact (neverFails_fat32FileRead _ _ _ _ _ _ _ run).elim
      · have small : ¬ 2 ^ 31 ≤ ret := fun large => works ⟨_, _, _, run, large⟩
        obtain ⟨k, close, -, keeps⟩ := @freeUnlessNull_run Machine t h g file.block extends_ block
        refine (bind_ok (call_ok run)).trans ((bind_ok close).trans ?_)
        refine (bind_ok (free_of_live (keeps handle mine.live apart))).trans ?_
        rw [if_neg small]
        rfl
  · intro fails
    obtain ⟨ret, contents, t, run, large⟩ := Classical.not_not.1 fails
    obtain ⟨k, close, -, keeps⟩ := @freeUnlessNull_run Machine t h g file.block extends_ block
    refine .after (call_ok rfl) (.after (alloc_null full) (.after (call_ok run) ?_))
    refine .after close (.after (free_of_live (keeps handle mine.live apart)) ?_)
    simp only [if_pos large]
    exact free_null.bind

/-- With one, the handle is freed in any case, and the buffer if the read fails. -/
theorem loadEntries_buffered (extends_ : Extends g h) (mine : Owns g h handle)
    (block : ∀ block, file.block = some block → Owns g h block) (apart : file.block ≠ some handle)
    (room : ¬ m.OutOfMemory) :
    Mirrors (ownedLoadEntries disk handle file) (loadEntries disk file.file)
      (fun a b k => b.2 = a ∧ Extends g k ∧ Owns g k b.1)
      (fun k => Extends g k ∧ handle ∉ k.live ∧ ReadFails disk file.file m) m h := by
  refine Mirrors.step ((bind_ok rfl).trans (bind_ok (alloc_block room)))
    ((bind_ok rfl).trans (bind_ok (mallocMemory_block room))) ?_
  refine Mirrors.step rfl (bind_ok rfl) (mirrors_call (neverFails_fat32FileRead _ _ _ _) ?_)
  rintro ⟨ret, contents⟩ t run
  have grown : Extends h h.grown := (Extends.refl h).grown
  obtain ⟨k, close, closed, keeps⟩ := @freeUnlessNull_run Machine t h.grown g file.block
    extends_.grown fun b same => (block b same).trans grown
  refine Mirrors.step (bind_ok close) rfl (.free (keeps handle (mine.trans grown).live apart) ?_)
  -- the buffer is a block of its own
  have bufApart : file.block ≠ some h.next := fun same => h.next_not_live (block _ same).live
  have bufLive : h.next ∈ (k.without handle).live :=
    Heap.without_live (keeps h.next h.grown_live bufApart) (h.fresh _ mine.live).ne'
  have freed := closed.without mine.new
  by_cases large : 2 ^ 31 ≤ ret
  · simp only [if_pos large]
    refine .free bufLive (mirrors_fail ?_)
    refine ⟨freed.without extends_.next, ?_, _, _, _, run, large⟩
    exact fun again => k.without_dead handle (Finset.mem_of_mem_erase again)
  · simp only [if_neg large]
    exact mirrors_pure ⟨rfl, freed, extends_.next, bufLive⟩

/-- The entries are read without a stop, unless NULL is freed. -/
theorem loadEntries_mirrorsIff (extends_ : Extends g h) (mine : Owns g h handle)
    (block : ∀ block, file.block = some block → Owns g h block) (apart : file.block ≠ some handle) :
    MirrorsIff (m.OutOfMemory → ¬ ReadFails disk file.file m) (ownedLoadEntries disk handle file)
      (loadEntries disk file.file) (fun a b k => b.2 = a ∧ Extends g k ∧ Owns g k b.1)
      (fun k => Extends g k ∧ handle ∉ k.live ∧ ReadFails disk file.file m) m h := by
  by_cases full : m.OutOfMemory
  · exact .congr (forall_prop_of_true full) (loadEntries_unbuffered extends_ mine block apart full)
  · exact .congr (iff_of_true (fun full' => (full full').elim) trivial)
      (loadEntries_buffered extends_ mine block apart full).always

/-- The root directory is opened without a free of NULL: there is memory for its entries
or they can be read. -/
def RootSound (disk : DiskId) (m : Machine) : Prop :=
  ¬ m.OutOfMemory → ∀ fs file t, (m.disk disk).fs = some fs →
    fat32FileOpenByDirEntry disk (directoryEntry (m.fsMem fs).bpb.rootdirCluster) m.allocated =
      some (.ok file, t) → t.OutOfMemory → ¬ ReadFails disk file t

/-- A directory is opened without a second free of its handle: it has a first cluster, and
its entries can be read. -/
def EntrySound (disk : DiskId) (entry : DirEntry) (m : Machine) : Prop :=
  ¬ m.OutOfMemory → ∀ file t, fat32FileOpenByDirEntry disk entry m.allocated = some (.ok file, t) →
    file.blocklist ≠ none ∧ ¬ ReadFails disk file t

variable {entry : DirEntry}

/-- The handle was handed out before the file was opened. -/
theorem FileOwned.behind {a : FatFile} {b : OwnedFile} {k : Heap} (opened : FileOwned h.grown a b k) :
    Extends h k ∧ Owns h k h.next ∧ (∀ block, b.block = some block → Owns h k block) ∧
      b.block ≠ some h.next := by
  have grown : Extends h h.grown := (Extends.refl h).grown
  refine ⟨grown.trans opened.extends_, (Owns.grown (.refl h)).trans opened.extends_, ?_, fun same => ?_⟩
  · exact fun block same => (opened.block block same).since grown
  · exact (opened.block _ same).ne (Nat.lt_succ_self _) rfl

theorem subdirOpen_mirrorsIff :
    MirrorsIff (EntrySound disk entry m) (ownedSubdirOpenByDirEntry disk entry)
      (fat32SubdirOpenByDirEntry disk entry) (DirOwned h) (Extends h) m h := by
  by_cases full : m.OutOfMemory
  · refine MirrorsIff.congr (iff_of_true (fun room => (room full).elim) trivial) (Mirrors.always ?_)
    exact (mirrors_fail (Extends.refl h)).step (bind_ok (alloc_null full))
      (bind_ok (mallocMemory_null full))
  · refine MirrorsIff.step (bind_ok (alloc_block full)) (bind_ok (mallocMemory_block full)) ?_
    refine MirrorsIff.congr ⟨fun sound => ⟨trivial, sound full⟩, fun sound _ => sound.2⟩
      ((fileOpen_mirrors entry).always.next ?_ ?_)
    · rintro a b t k - opened
      obtain ⟨extends_, mine, block, apart⟩ := opened.behind
      obtain rfl := opened.file
      cases blocks : b.file.blocklist with
      | none =>
        -- the handle is freed twice
        refine MirrorsIff.congr (iff_of_false (fun sound => sound.1 rfl) id) (FreesBadly.always ?_)
        obtain ⟨k, close, -, keeps⟩ := @freeUnlessNull_run Machine t k h b.block extends_ block
        simp only [blocks]
        refine .after close (.after (free_of_live (keeps _ mine.live apart)) ?_)
        exact (free_of_dead (k.without_dead _)).bind
      | some blocklist =>
        have loads := @loadEntries_mirrorsIff t h k disk b h.next extends_ mine block apart
        simp only [blocks]
        constructor
        · rintro ⟨-, works⟩
          refine (loads.mirrors fun _ => works).next ?_ ?_
          · rintro buf ⟨block, buf'⟩ t k - ⟨rfl, extends_, owns⟩
            refine mirrors_call neverFails_mountedFs fun fs t _ => mirrors_pure ⟨rfl, extends_, ?_⟩
            intro other same
            obtain rfl := Option.some.inj same
            exact owns
          · exact fun e t k lost => (works lost.2.2).elim
        · intro unsound
          have fails : ReadFails disk b.file t := by
            by_contra works
            exact unsound ⟨Option.some_ne_none _, works⟩
          by_cases room : t.OutOfMemory
          · exact (loads.frees fun works => works room fails).bind
          · obtain ⟨u, run⟩ := loadEntries_fails room fails
            obtain ⟨k, run', -, dead, -⟩ := (loads.mirrors fun full => (room full).elim).error run
            exact FreesBadly.after run' (free_of_dead dead).bind
    · intro e t k extends_
      have grown : Extends h h.grown := (Extends.refl h).grown
      refine .free (extends_.keeps h.grown_live) (mirrors_fail ?_)
      exact (grown.trans extends_).without le_rfl

theorem rootOpen_mirrorsIff :
    MirrorsIff (RootSound disk m) (ownedRootdir32Open disk) (fat32Rootdir32Open disk) (DirOwned h)
      (Extends h) m h := by
  cases mounted : (m.disk disk).fs with
  | none =>
    have ends : mountedFs disk m = none := by
      refine (bind_ok rfl).trans ?_
      rw [mounted]
      rfl
    have unsound : RootSound disk m := fun _ fs _ _ here => nomatch mounted.symm.trans here
    refine MirrorsIff.congr (iff_of_true unsound trivial) (Mirrors.always ?_)
    unfold Mirrors fat32Rootdir32Open
    rw [bind_none ends]
    exact bind_none (call_none ends)
  | some fs =>
    have is_ : mountedFs disk m = some (.ok fs, m) := by
      refine (bind_ok rfl).trans ?_
      rw [mounted]
      rfl
    refine MirrorsIff.step ((bind_ok (call_ok is_)).trans (bind_ok (call_ok rfl)))
      ((bind_ok is_).trans (bind_ok rfl)) ?_
    by_cases full : m.OutOfMemory
    · refine MirrorsIff.congr (iff_of_true (fun room => (room full).elim) trivial) (Mirrors.always ?_)
      exact (mirrors_fail (Extends.refl h)).step (bind_ok (alloc_null full))
        (bind_ok (mallocMemory_null full))
    · refine MirrorsIff.step (bind_ok (alloc_block full)) (bind_ok (mallocMemory_block full)) ?_
      refine MirrorsIff.congr ⟨fun sound => ⟨trivial, fun file t => sound full fs file t mounted⟩, ?_⟩
        ((fileOpen_mirrors _).always.next ?_ ?_)
      · rintro ⟨-, sound⟩ - fs' file t mounted' run
        obtain rfl := Option.some.inj (mounted.symm.trans mounted')
        exact sound file t run
      · rintro a b t k - opened
        obtain ⟨extends_, mine, block, apart⟩ := opened.behind
        obtain rfl := opened.file
        have loads := @loadEntries_mirrorsIff t h k disk b h.next extends_ mine block apart
        refine MirrorsIff.congr ⟨fun sound => ⟨sound, fun _ _ _ => trivial⟩, And.left⟩
          (loads.next ?_ fun e t k lost => mirrors_fail lost.1)
        rintro buf ⟨block, buf'⟩ t k - ⟨rfl, extends_, owns⟩
        refine (mirrors_pure ⟨rfl, extends_, fun other same => ?_⟩).always
        obtain rfl := Option.some.inj same
        exact owns
      · intro e t k extends_
        have grown : Extends h h.grown := (Extends.refl h).grown
        refine .free (extends_.keeps h.grown_live) (mirrors_fail ?_)
        exact (grown.trans extends_).without le_rfl

end Loading

/-! ## Paths -/

/-- Every directory that a path leads into is opened without a second free. -/
def SubdirsSound (disk : DiskId) : List CString → FatDir → Machine → Prop
  | [], _, _ => True
  | name :: names, dir, m =>
      ∀ found, findEntry name (dir.num - dir.i + 1) dir (directoryEntry 0) = some found →
        EntrySound disk found m ∧ ∀ next t, fat32SubdirOpenByDirEntry disk found m = some (.ok next, t) →
          SubdirsSound disk names next t

/-- `fat32_dir_open` of a path frees nothing twice, when it has its `struct fat32_dir`. -/
def PathSound (disk : DiskId) (path : CString) (m : Machine) : Prop :=
  RootSound disk m ∧ ∀ dir t, fat32Rootdir32Open disk m = some (.ok dir, t) →
    path.head? = some 0x2f → SubdirsSound disk (tokens path.tail) dir t

/-- The same, of a whole `fat32_dir_open`. -/
def DirSound (disk : DiskId) (path : CString) (m : Machine) : Prop :=
  ¬ m.OutOfMemory → PathSound disk path m.allocated

/-- `fat32_file_open` frees nothing twice.  If even its first allocation fails, it frees what
`file->fs_file` held before. -/
def FileSound (disk : DiskId) (path : CString) (fsFile : Option Nat) (m : Machine) (h : Heap) : Prop :=
  (m.OutOfMemory → ∀ block, fsFile = some block → block ∈ h.live) ∧
    (¬ m.OutOfMemory → ¬ m.allocated.OutOfMemory → ∀ dirname base,
      splitPath path = some (dirname, base) → DirSound disk dirname m.allocated.allocated)

section Paths

variable {m : Machine} {g h : Heap} {disk : DiskId} {path : CString}

theorem openSubdirs_mirrorsIff {names : List CString} {dir : OwnedDir} (extends_ : Extends g h)
    (entries : ∀ block, dir.entries = some block → Owns g h block) :
    MirrorsIff (SubdirsSound disk names dir.dir m) (ownedOpenSubdirs disk names dir)
      (openSubdirs disk names dir.dir) (DirOwned g) (Extends g) m h := by
  induction names generalizing dir m h with
  | nil => exact (mirrors_pure ⟨rfl, extends_, entries⟩).always
  | cons name names ih =>
    -- the old directory is closed, whether the next one was opened or not
    have closes {t : Machine} {k : Heap} (later : Extends h k) :=
      @freeUnlessNull_run Machine t k g dir.entries (extends_.trans later) fun block same =>
        (entries block same).trans later
    unfold SubdirsSound ownedOpenSubdirs openSubdirs ownedSubdirOpen fat32SubdirOpen
    cases found : findEntry name (dir.dir.num - dir.dir.i + 1) dir.dir (directoryEntry 0) with
    | none =>
      obtain ⟨k, close, closed, -⟩ := closes (t := m) (.refl h)
      refine MirrorsIff.congr (iff_of_true (fun _ none_ => nomatch none_) trivial) (Mirrors.always ?_)
      exact (mirrors_fail closed).step ((bind_ok rfl).trans (bind_ok close)) rfl
    | some entry =>
      refine MirrorsIff.congr ⟨fun sound => sound entry rfl, fun sound found same => ?_⟩
        (subdirOpen_mirrorsIff.next ?_ ?_)
      · obtain rfl := Option.some.inj same
        exact sound
      · rintro a b t k - opened
        obtain ⟨k', close, closed, keeps⟩ := closes (t := t) opened.extends_
        obtain rfl := opened.dir
        refine MirrorsIff.step (bind_ok close) rfl (ih closed fun block same => ?_)
        have owns := opened.entries block same
        refine ⟨(owns.since extends_).new, keeps block owns.live fun old => ?_⟩
        exact owns.ne (h.fresh _ (entries block old).live) rfl
      · intro e t k lost
        obtain ⟨k', close, closed, -⟩ := closes (t := t) lost
        exact (mirrors_fail closed).step (bind_ok close) rfl

theorem dirInit_mirrorsIff (short : path.length < maxPath) :
    MirrorsIff (PathSound disk path m) (ownedDirInit disk path)
      (do
        let dir ← fat32Rootdir32Open disk
        ensure (path.length < maxPath)
        match path with
        | [] => fail .einval
        | c :: rest => if c ≠ 0x2f then fail .einval else openSubdirs disk (tokens rest) dir)
      (DirOwned h) (Extends h) m h := by
  refine rootOpen_mirrorsIff.next ?_ fun e t k lost => mirrors_fail lost
  rintro a b t k - opened
  obtain rfl := opened.dir
  refine MirrorsIff.step (bind_ok (ensure_ok short)) (bind_ok (ensure_ok short)) ?_
  cases path with
  | nil =>
    refine MirrorsIff.congr (iff_of_true (fun never => nomatch never) trivial) (Mirrors.always ?_)
    exact mirrors_fail opened.extends_
  | cons c rest =>
    by_cases slash : c = 0x2f
    · simp only [slash, ne_eq, not_true, if_false]
      exact .congr (forall_prop_of_true rfl) (openSubdirs_mirrorsIff opened.extends_ opened.entries)
    · simp only [if_pos slash]
      refine MirrorsIff.congr (iff_of_true (fun same => ?_) trivial) (Mirrors.always ?_)
      · exact (slash (Option.some.inj same)).elim
      · exact mirrors_fail opened.extends_

/-- `fat32_dir_open`, and what follows it. -/
theorem dirOpen_mirrorsIff {α β : Type} {owned : α → β → Heap → Prop} {lost : Heap → Prop}
    {cont : Option Nat × Except FatError OwnedDir → HeapM (Except FatError β)} {rest : FatDir → FatM α}
    (short : path.length < maxPath)
    (null : Mirrors (cont (none, .error .enoent)) (fail .enoent : FatM α) owned lost m.allocated h)
    (value : ∀ a b t k, DirOwned h.grown a b k →
      Mirrors (cont (some h.next, .ok b)) (rest a) owned lost t k)
    (error : ∀ e t k, Extends h.grown k →
      Mirrors (cont (some h.next, .error e)) (fail e : FatM α) owned lost t k) :
    MirrorsIff (DirSound disk path m) (ownedDirOpen disk path >>= cont) (fat32DirOpen disk path >>= rest)
      owned lost m h := by
  by_cases full : m.OutOfMemory
  · refine MirrorsIff.congr (iff_of_true (fun room => (room full).elim) trivial) (Mirrors.always ?_)
    exact null.step (bind_bind_ok (alloc_null full)) (bind_bind_ok (mallocMemory_null full))
  · refine .congr (forall_prop_of_true full) ?_
    refine MirrorsIff.step ((bind_bind_ok (alloc_block full)).trans bind_wrap)
      (bind_bind_ok (mallocMemory_block full)) ?_
    refine MirrorsIff.congr ⟨fun sound => ⟨sound, fun _ _ _ => trivial⟩, And.left⟩
      ((dirInit_mirrorsIff short).next ?_ error)
    exact fun a b t k _ opened => (value a b t k opened).always

/-- Opening a directory and closing it. -/
theorem openAndCloseDir_mirrorsIff (short : path.length < maxPath) :
    MirrorsIff (DirSound disk path m) (openAndCloseDir disk path)
      (fat32DirOpen disk path >>= fun _ => pure ()) (fun _ _ _ => True) (fun _ => True) m h := by
  refine dirOpen_mirrorsIff short (mirrors_fail trivial) ?_ fun e t k _ => mirrors_fail trivial
  intro a b t k opened
  obtain ⟨k', close, closed, -⟩ := @freeUnlessNull_run Machine t k h.grown b.entries opened.extends_
    opened.entries
  refine Mirrors.step (bind_ok close) rfl (.free (closed.keeps h.grown_live) ?_)
  exact mirrors_pure trivial

/-- The exits of `fat32_file_open` with its three blocks: the handle, the directory and the
entry. -/
theorem fileOpen_fails {α β : Type} {owned : α → β → Heap → Prop} {k : Heap} (t : Machine) (e : FatError)
    (extends_ : Extends h.grown.grown.grown k) :
    Mirrors (do
        free (some h.grown.next)
        freeUnlessNull (some h.grown.grown.next)
        free (some h.next)
        return .error e : HeapM (Except FatError β))
      (fail e : FatM α) owned (fun _ => True) t k := by
  have directory := extends_.keeps h.grown.grown.grown_live
  have file := extends_.keeps (Finset.mem_insert_of_mem h.grown.grown_live)
  have entry := extends_.keeps (Finset.mem_insert_of_mem (Finset.mem_insert_of_mem h.grown_live))
  have apart : h.grown.next = h.next + 1 ∧ h.grown.grown.next = h.next + 2 := ⟨rfl, rfl⟩
  refine .free file (.free (Heap.without_live directory (by omega)) (.free ?_ (mirrors_fail trivial)))
  exact Heap.without_live (Heap.without_live entry (by omega)) (by omega)

theorem splitPath_length {dirname base : CString} (parts : splitPath path = some (dirname, base)) :
    dirname.length ≤ path.length := by
  unfold splitPath at parts
  simp only [] at parts
  split at parts
  · cases parts
  · obtain ⟨rfl, -⟩ := Prod.mk.inj (Option.some.inj parts)
    exact List.length_take_le' _ _

/-- Opening a file. -/
theorem fileOpenPath_mirrorsIff (short : path.length < maxPath) (fsFile : Option Nat) :
    MirrorsIff (FileSound disk path fsFile m h) (ownedFileOpen disk path fsFile)
      (fat32FileOpen disk path) (fun a b _ => b.1.file = a) (fun _ => True) m h := by
  have file : h.grown.next ∈ h.grown.grown.live := h.grown.grown_live
  have entry : h.next ∈ h.grown.grown.live := Finset.mem_insert_of_mem h.grown_live
  have apart : h.next ≠ h.grown.next := (Nat.lt_succ_self h.next).ne
  by_cases full : m.OutOfMemory
  · -- `file->fs_file` is freed as it is
    refine MirrorsIff.step (bind_ok (alloc_null full)) (bind_ok (mallocMemory_null full)) ?_
    refine MirrorsIff.congr ⟨fun sound => sound.1 full, fun sound => ⟨fun _ => sound, ?_⟩⟩ ?_
    · exact fun room => (room full).elim
    cases fsFile with
    | none => 
      refine MirrorsIff.congr (iff_of_true (fun _ never => nomatch never) trivial) ?_
      exact (mirrors_fail trivial).always
    | some block =>
      by_cases live : block ∈ h.live
      · refine MirrorsIff.congr (iff_of_true (fun b same => Option.some.inj same ▸ live) trivial) ?_
        exact (Mirrors.free live (mirrors_fail trivial)).always
      · refine MirrorsIff.congr (iff_of_false (fun sound => live (sound block rfl)) id) ?_
        exact (free_of_dead live).bind.always
  · refine MirrorsIff.step (bind_ok (alloc_block full)) (bind_ok (mallocMemory_block full)) ?_
    by_cases full' : m.allocated.OutOfMemory
    · refine MirrorsIff.step (bind_ok (alloc_null full')) (bind_ok (mallocMemory_null full')) ?_
      refine MirrorsIff.congr (iff_of_true ⟨fun here => (full here).elim, ?_⟩ trivial) ?_
      · exact fun _ room => (room full').elim
      · exact (Mirrors.free h.grown_live (mirrors_fail trivial)).always
    · refine MirrorsIff.step (bind_ok (alloc_block full')) (bind_ok (mallocMemory_block full')) ?_
      refine MirrorsIff.congr ⟨fun sound => sound.2 full full', fun sound => ⟨?_, fun _ _ => sound⟩⟩ ?_
      · exact fun here => (full here).elim
      cases parts : splitPath path with
      | none =>
        have nothing : ∀ dirname base : CString, none = some (dirname, base) →
            DirSound disk dirname m.allocated.allocated := fun _ _ never => nomatch never
        refine MirrorsIff.congr (iff_of_true nothing trivial) (Mirrors.always ?_)
        exact .free file (.free (Heap.without_live entry apart) (mirrors_fail trivial))
      | some names =>
        obtain ⟨dirname, base⟩ := names
        have fits : dirname.length < maxPath := (splitPath_length parts).trans_lt short
        refine MirrorsIff.congr ⟨fun sound => sound dirname base rfl, ?_⟩ ?_
        · intro sound dirname' base' same
          obtain ⟨rfl, -⟩ := Prod.mk.inj (Option.some.inj same)
          exact sound
        refine MirrorsIff.step (bind_ok (ensure_ok fits)) (bind_ok (ensure_ok fits)) ?_
        refine dirOpen_mirrorsIff fits ?_ ?_ ?_
        · exact .free file (.step rfl rfl (.free (Heap.without_live entry apart) (mirrors_fail trivial)))
        · intro a b t k opened
          obtain ⟨k, close, closed, -⟩ := @freeUnlessNull_run Machine t k h.grown.grown.grown b.entries
            opened.extends_ opened.entries
          obtain rfl := opened.dir
          refine Mirrors.step (bind_ok close) rfl ?_
          cases findEntry base (b.dir.num - b.dir.i + 1) b.dir (directoryEntry 0) with
          | none => exact fileOpen_fails t .enoent closed
          | some found =>
            refine Mirrors.step rfl bind_pure_run.symm ((fileOpen_mirrors found).next ?_ ?_)
            · rintro a b t k - ⟨rfl, later, -⟩
              have extends_ := closed.trans later
              have directory := extends_.keeps h.grown.grown.grown_live
              have entry := extends_.keeps (Finset.mem_insert_of_mem entry)
              refine .free directory (.free (Heap.without_live entry ?_) (mirrors_pure rfl))
              show h.next ≠ h.next + 2
              omega
            · exact fun e t k later => fileOpen_fails t e (closed.trans later)
        · exact fun e t k later => fileOpen_fails t e later

/-- **Lookups free each block once exactly when all directories on the path have clusters
and contents that can be read, as far as there was memory to open them.** -/
theorem lookups_free_once_iff (disk : DiskId) (path : CString) (short : path.length < maxPath)
    (fsFile : Option Nat) (m : Machine) (h : Heap) :
    (¬ FreesBadly (openAndCloseDir disk path) (m, h) ↔ DirSound disk path m) ∧
      (¬ FreesBadly (ownedFileOpen disk path fsFile) (m, h) ↔ FileSound disk path fsFile m h) :=
  ⟨(openAndCloseDir_mirrorsIff short).safe_iff, (fileOpenPath_mirrorsIff short fsFile).safe_iff⟩

/-- A volume whose root directory has an empty file `a`, and nothing else. -/
def emptyFileVolume : Machine :=
  Machine.mounted (fun _ => smallFs 2 16 64) fun _ =>
    splice (putWord (fun _ => 0) (512 * 32 + 8) 0x0fffffff) (512 * 64)
      (fun i => if i = 0 then 0x41 else if i < 12 then 0x20 else 0) 32

/-- There, `/` is opened as a directory and `/a` as a file. -/
theorem empty_file_found :
    DirSound 0 [0x2f] emptyFileVolume ∧ FileSound 0 [0x2f, 0x61] none emptyFileVolume .empty := by
  have directory : ¬ FreesBadly (openAndCloseDir 0 [0x2f]) (emptyFileVolume, .empty) := by
    decide +kernel
  have file : ¬ FreesBadly (ownedFileOpen 0 [0x2f, 0x61] none) (emptyFileVolume, .empty) := by
    decide +kernel
  exact ⟨(lookups_free_once_iff 0 [0x2f] (by decide) none emptyFileVolume .empty).1.1 directory,
    (lookups_free_once_iff 0 [0x2f, 0x61] (by decide) none emptyFileVolume .empty).2.1 file⟩

/-- Opening `/a` as a directory frees its handle twice, although nothing fails. -/
theorem empty_file_freed_twice :
    emptyFileVolume.Reliable ∧
      FreesBadly (openAndCloseDir 0 [0x2f, 0x61]) (emptyFileVolume, .empty) :=
  ⟨mounted_reliable _ _, by decide +kernel⟩

end Paths

end TestOs.Fat32
