/-
# Fat32.Directories -- open directories, paths, creating entries

An open directory is a snapshot: its entries as they were when it was opened,
and how far they have been read.  Names of entries in memory are C strings in
arrays of 13 bytes; paths and the names that callers pass are lists of
characters without a zero, where nothing depends on what lies behind the zero.

`fat32_dir_create` takes the first cluster of the parent from a `struct dir`
that it reads as a `struct fat32_dir`; what it finds there are bytes of `path`,
so these are an argument of the model.
-/
import TestOs.Fat32.Files

namespace TestOs.Fat32

open TestOs.Library Prog

set_option autoImplicit false

/-! ## Entries on the disk -/

/-- The loops of `short_fn_to_string`: behind the last printable character of the
`n` from `start` on, or `pos`. -/
def lastPrintable (b : Bytes) (start : Nat) : Nat → Nat → Nat
  | 0, pos => pos
  | n + 1, pos =>
      if isprint (b (start + n)) then start + n + 1 else lastPrintable b start n pos

/-- `short_fn_to_string`: the buffer with the name of an entry. -/
def shortFnToString (entry buf : Bytes) : Bytes :=
  let buf := splice buf 0 (fun i => tolower (entry i)) 8
  let dot := lastPrintable buf 0 8 0
  let buf := Function.update buf dot 0x2e
  let buf := splice buf (dot + 1) (fun i => tolower (entry (8 + i))) 3
  Function.update buf (lastPrintable buf (dot + 1) 3 dot) 0

/-- `is_free_entry`. -/
def isFreeEntry (entry : Bytes) : Bool := entry 0 = 0 ∨ entry 0 = 0xe5

/-- `is_valid_entry`. -/
def isValidEntry (entry : Bytes) : Bool :=
  ¬ isFreeEntry entry ∧ entryAttrib entry &&& fatAttribVolume = 0 ∧ entry 0 ≠ 0x2e

/-- `dir_entry_from_disk`, over what the structure held before. -/
def dirEntryFromDisk (entry : DirEntry) (diskEntry : Bytes) : DirEntry :=
  { entry with
    name := shortFnToString diskEntry entry.name
    firstCluster := (entryFirstCluster diskEntry).setWidth 32
    size := (entryFileSize diskEntry).toNat
    attrib := entryAttrib diskEntry }

/-! ## Open directories -/

/-- `struct fat32_dir`. -/
structure FatDir where
  fs : FsPtr
  entries : Bytes
  firstCluster : BitVec 32
  i : Nat
  num : Nat

/-- Entry `i` of a directory. -/
def FatDir.entry (dir : FatDir) (i : Nat) : Bytes := slice dir.entries (diskEntrySize * i)

/-- The loop of `fat32_dir_read` over entries that are not valid, with `left` of them
to go: where it ends, and the name buffer. -/
def skipInvalid (dir : FatDir) : Nat → Nat → Bytes → Nat × Bytes
  | 0, i, name => (i, name)
  | left + 1, i, name =>
      if isValidEntry (dir.entry i) then (i, name)
      else skipInvalid dir left (i + 1) (shortFnToString (dir.entry i) name)

/-- `fat32_dir_read`: the next valid entry, if there is one. -/
def fat32DirRead (dir : FatDir) (entry : DirEntry) : Option DirEntry × FatDir :=
  let (i, name) := skipInvalid dir (dir.num - dir.i) dir.i entry.name
  if dir.num ≤ i then (none, { dir with i := i })
  else
    (some { dirEntryFromDisk { entry with name := name } (dir.entry i) with
        dirFirstCluster := dir.firstCluster, indexInDir := i },
      { dir with i := i + 1 })

/-- `malloc` of a structure or a buffer. -/
def mallocMemory : FatM Bool := do
  return (← mallocBlocklist).isSome

/-- The common part of the functions that open a directory: its first cluster and
its size, and the buffer with its entries. -/
def loadEntries (disk : DiskId) (file : FatFile) : FatM Bytes := do
  let m ← state
  ensure (← mallocMemory)
  let (ret, buf) ← fat32FileRead disk file (m.world.stray m.io) 0 file.size
  if 2 ^ 31 ≤ ret then fail .eio else return buf

/-- An entry in memory with only these fields set. -/
def directoryEntry (firstCluster : BitVec 32) : DirEntry where
  indexInDir := 0
  dirFirstCluster := 0
  name := fun _ => 0
  firstCluster := firstCluster
  attrib := 0
  size := 0

/-- `fat32_rootdir32_open`. -/
def fat32Rootdir32Open (disk : DiskId) : FatM FatDir := do
  let fs ← mountedFs disk
  let f ← readFs fs
  if !(← mallocMemory) then fail .enoent
  else
    let file ← fat32FileOpenByDirEntry disk (directoryEntry f.bpb.rootdirCluster)
    let buf ← loadEntries disk file
    return { fs := fs, entries := buf, firstCluster := 0, i := 0, num := file.size / diskEntrySize }

/-- `fat32_subdir_open_by_dir_entry`. -/
def fat32SubdirOpenByDirEntry (disk : DiskId) (dentry : DirEntry) : FatM FatDir := do
  if !(← mallocMemory) then fail .enoent
  else
    let file ← fat32FileOpenByDirEntry disk dentry
    match file.blocklist with
    | none => fail .enoent
    | some blocklist =>
        let buf ← loadEntries disk file
        return { fs := ← mountedFs disk, entries := buf, firstCluster := blocklist 0, i := 0
                 num := file.size / diskEntrySize }

/-! ## Names and paths -/

/-- A C string, without the zero that ends it. -/
abbrev CString := List (BitVec 8)

/-- Whether `strcmp` of the string in a buffer and `name` is 0; the string ends
within the 13 bytes of the buffer. -/
def sameName (buf : Bytes) (name : CString) : Bool :=
  (∀ i < name.length, buf i = name.getD i 0) ∧ buf name.length = 0

/-- The loops over `fat32_dir_read` that look for a name, with at most `left`
entries to go. -/
def findEntry (name : CString) : Nat → FatDir → DirEntry → Option DirEntry
  | 0, _, _ => none
  | left + 1, dir, entry =>
      match fat32DirRead dir entry with
      | (none, _) => none
      | (some found, dir) => if sameName found.name name then some found else findEntry name left dir found

/-- `fat32_subdir_open`. -/
def fat32SubdirOpen (disk : DiskId) (dir : FatDir) (name : CString) : FatM FatDir :=
  match findEntry name (dir.num - dir.i + 1) dir (directoryEntry 0) with
  | none => fail .enoent
  | some found => fat32SubdirOpenByDirEntry disk found

/-- `KERNEL_DISK_MAX_PATH`. -/
def maxPath : Nat := 128

/-- What the calls of `strtok` find between slashes. -/
def tokens (path : CString) : List CString := (path.splitOn 0x2f).filter (· ≠ [])

/-- The loop of `fat32_dir_open` over the parts of a path. -/
def openSubdirs (disk : DiskId) : List CString → FatDir → FatM FatDir
  | [], dir => return dir
  | name :: names, dir => do openSubdirs disk names (← fat32SubdirOpen disk dir name)

/-- `fat32_dir_open`. -/
def fat32DirOpen (disk : DiskId) (path : CString) : FatM FatDir := do
  if !(← mallocMemory) then fail .enoent
  else
    let dir ← fat32Rootdir32Open disk
    -- a path that fills the buffer is not ended by a zero
    ensure (path.length < maxPath)
    match path with
    | [] => fail .einval
    | c :: rest => if c ≠ 0x2f then fail .einval else openSubdirs disk (tokens rest) dir

/-- The part of a path up to its last slash, and the part behind it. -/
def splitPath (path : CString) : Option (CString × CString) :=
  let base := (path.reverse.takeWhile (· ≠ 0x2f)).reverse
  if base.length = path.length then none
  else some (path.take (path.length - base.length), base)

/-- `fat32_file_open`. -/
def fat32FileOpen (disk : DiskId) (path : CString) : FatM FatFile := do
  if !(← mallocMemory) then fail .enoent
  else if !(← mallocMemory) then fail .enoent
  else
    match splitPath path with
    | none => fail .einval
    | some (dirname, base) =>
        -- `dirname` has room for its zero
        ensure (dirname.length < maxPath)
        let dir ← fat32DirOpen disk dirname
        match findEntry base (dir.num - dir.i + 1) dir (directoryEntry 0) with
        | none => fail .enoent
        | some found => fat32FileOpenByDirEntry disk found

/-! ## Creating -/

/-- The search of `fat32_dir_create_entry` for a free entry, with `left` to go. -/
def freeIndex (dir : FatDir) : Nat → Nat → Option Nat
  | 0, _ => none
  | left + 1, i => if isFreeEntry (dir.entry i) then some i else freeIndex dir left (i + 1)

/-- The index that a new entry gets. -/
def newIndex (dir : FatDir) : Option Nat :=
  match freeIndex dir dir.num 0 with
  | some i => some i
  | none => if dir.firstCluster ≠ 0 then some dir.num else none

/-- `strncpy` into the name of an entry, which is ended by a zero. -/
def entryName (name : CString) : Bytes := fun i =>
  if i < dirEntryNameSize - 1 then name.getD i 0 else 0

/-- The `struct fat32_file` whose entry `fat32_dir_create_entry` has written. -/
def newFile (dir : FatDir) (name : CString) (attrib : BitVec 8) (i : Nat) : FatFile where
  fs := dir.fs
  size := 0
  blocklistSize := 0
  blocklist := none
  dirEntry :=
    { indexInDir := i, dirFirstCluster := dir.firstCluster, name := entryName name
      firstCluster := 0, attrib := attrib, size := 0 }

/-- `fat32_dir_create_entry`: the new entry. -/
def fat32DirCreateEntry (disk : DiskId) (dir : FatDir) (name : CString) (attrib : BitVec 8) :
    FatM DirEntry := do
  match newIndex dir with
  | none => fail .enoent
  | some i =>
      fat32DirUpdateEntry disk (newFile dir name attrib i)
      return (newFile dir name attrib i).dirEntry

/-- The first cluster of a new directory: `.` with the cluster that the entry has in
memory, `..` with what is found in the `struct dir`. -/
def dotEntries (entry : DirEntry) (path : Bytes) : Bytes :=
  let dot := entry.firstCluster.setWidth 16
  let dotdot := halfword path 0
  fun i =>
    if i < 32 then
      (if i = 0 then 0x2e else if i < 11 then 0x20 else if i = 11 then fatAttribDir
        else if i = 26 then dot.setWidth 8 else if i = 27 then (dot >>> 8).setWidth 8 else 0)
    else if i < 64 then
      (if i < 34 then 0x2e else if i < 43 then 0x20 else if i = 43 then fatAttribDir
        else if i = 58 then dotdot.setWidth 8 else if i = 59 then (dotdot >>> 8).setWidth 8 else 0)
    else 0

/-- `fat32_dir_create`, of a `struct dir` with this `path`: its result, which is that
of `fat32_file_write`, the entry, and the handle on the new directory. -/
def fat32DirCreate (disk : DiskId) (dir : FatDir) (path : Bytes) (name : CString) :
    FatM (Nat × DirEntry × FatFile) := do
  let f ← readFs (← mountedFs disk)
  let entry ← fat32DirCreateEntry disk dir name fatAttribDir
  let file ← fat32FileOpenByDirEntry disk entry
  let (ret, file) ← withSnd file (fat32FileWrite disk (dotEntries entry path) 0 f.clusterSize)
  return (ret, entry, file)

end TestOs.Fat32
