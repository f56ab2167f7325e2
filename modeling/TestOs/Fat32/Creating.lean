/-
# Fat32.Creating -- new entries in a directory

`pushf` creates a file that is not there: it opens the directory and calls
`fat32_dir_create_entry`, which writes an entry without a cluster into the first
free slot.  A directory is a row of slots (`Directory.lists`, `Directory.room`).
Creating fills a slot and changes no byte outside the directory (`DirectoryAt.creates`),
so what has been created is listed from then on, besides what was there and in one
order with it (`creates_list`).

A directory is named by a path, through directories with clusters of their own
(`Route`).  The root directory is not extended, so there is room for as many entries as
it has free slots, and for no more (`creates_in_root_iff`).
-/
import TestOs.Library.Simulation
import TestOs.Fat32.Listing
import TestOs.Fat32.Persistence

namespace TestOs.Fat32

open TestOs.Library Prog

set_option autoImplicit false

/-! ## The new entry -/

/-- The name that is listed of an entry that is created as `name`. -/
def listedName (name : CString) : CString :=
  cString (shortFnToString (stringToShortFn (fun _ => 0) (entryName name)) fun _ => 0)

/-- What is listed of a new entry: nothing, if it is a volume label. -/
def createdItem (name : CString) (attrib : BitVec 8) : Option Item :=
  if attrib &&& fatAttribVolume = 0 then some ⟨listedName name, attrib, 0, 0⟩ else none

section Entry

variable {dir : FatDir} {name : CString} {attrib : BitVec 8} {i : Nat} {old : Bytes}

theorem toupper_first (c : BitVec 8) : toupper c ≠ 0 ∧ toupper c ≠ 0xe5 ∧ toupper c ≠ 0x2e := by
  revert c
  decide

/-- A name is never that of a free entry, and never `.` or `..`. -/
theorem stringToShortFn_first (entry buf : Bytes) :
    stringToShortFn entry buf 0 ≠ 0 ∧ stringToShortFn entry buf 0 ≠ 0xe5 ∧
      stringToShortFn entry buf 0 ≠ 0x2e := by
  obtain ⟨stem, isStem⟩ := exists_stem buf
  rw [stringToShortFn_outside entry buf (.inl (by decide)),
    (shortName_spec isStem (Nat.zero_add 8) (Nat.zero_le _) entry).1 0, if_neg (Nat.lt_irrefl 0)]
  by_cases some_ : 0 < stem
  · rw [if_pos some_]
    exact toupper_first _
  · rw [if_neg some_, if_pos (by decide)]
    decide

theorem newFile_taken (old : Bytes) :
    isFreeEntry (dirEntryToDisk (newFile dir name attrib i).dirEntry 0 old) = false := by
  obtain ⟨notZero, notDeleted, -⟩ := stringToShortFn_first old (entryName name)
  have first : dirEntryToDisk (newFile dir name attrib i).dirEntry 0 old 0 =
      stringToShortFn old (entryName name) 0 := by
    rw [dirEntryToDisk_front _ _ _ (by decide), if_pos (by decide)]
    rfl
  unfold isFreeEntry
  rw [first]
  exact decide_eq_false fun free => free.elim notZero notDeleted

/-- **A new entry is listed as what it was created as**, whatever was in its slot. -/
theorem newFile_shown (old : Bytes) :
    shownBy (dirEntryToDisk (newFile dir name attrib i).dirEntry 0 old) = createdItem name attrib := by
  obtain ⟨-, -, notDot⟩ := stringToShortFn_first old (entryName name)
  have front (k : Nat) (low : k < 26) :=
    dirEntryToDisk_front (newFile dir name attrib i).dirEntry 0 old low
  have first : dirEntryToDisk (newFile dir name attrib i).dirEntry 0 old 0 ≠ 0x2e := by
    rw [front 0 (by decide), if_pos (by decide)]
    exact notDot
  have isAttrib : entryAttrib (dirEntryToDisk (newFile dir name attrib i).dirEntry 0 old) = attrib := by
    unfold entryAttrib
    rw [front 11 (by decide), if_neg (by decide), if_pos rfl]
    rfl
  have names (k : Nat) (inName : k < 11) :
      dirEntryToDisk (newFile dir name attrib i).dirEntry 0 old k =
        stringToShortFn (fun _ => 0) (entryName name) k := by
    rw [front k (by omega), if_pos inName]
    exact stringToShortFn_congr old _ (entryName name) inName
  obtain ⟨cluster, size⟩ := dirEntryToDisk_fields (newFile dir name attrib i).dirEntry 0 old
  unfold shownBy createdItem isValidEntry itemOf
  rw [newFile_taken, isAttrib, cluster, size, shortFnToString_congr names]
  by_cases volume : attrib &&& fatAttribVolume = 0
  · rw [if_pos volume, if_pos (decide_eq_true ⟨Bool.false_ne_true, volume, first⟩)]
    rfl
  · rw [if_neg volume, if_neg fun valid => volume (of_decide_eq_true valid).2.1]

/-- So a file with a name of small letters is listed under it. -/
theorem createdItem_plain {base ext : CString} (plain : PlainName base ext)
    (isFile : attrib &&& fatAttribVolume = 0) :
    createdItem (dotted base ext) attrib = some ⟨dotted base ext, attrib, 0, 0⟩ := by
  unfold createdItem listedName
  rw [if_pos isFile, plain.listed]

/-- The search for a free entry. -/
theorem freeIndex_from (dir : FatDir) (left i : Nat) :
    freeIndex dir left i = (List.range' i left).find? fun j => isFreeEntry (dir.entry j) := by
  induction left generalizing i with
  | zero => rfl
  | succ left ih =>
      rw [List.range'_succ, List.find?_cons, freeIndex, ih (i + 1)]
      cases isFreeEntry (dir.entry i) <;> rfl

theorem freeIndex_eq (dir : FatDir) :
    freeIndex dir dir.num 0 = firstVacant (fun j => isFreeEntry (dir.entry j)) dir.num := by
  rw [freeIndex_from, firstVacant, List.range_eq_range']

end Entry

/-! ## Directories -/

/-- The clusters of a directory. -/
structure Directory where
  chain : Blocklist
  count : Nat

namespace Directory

variable (f : Fs) (d : Directory)

/-- What is opened of a directory. -/
def place : Place := ⟨d.chain 0, d.count * f.clusterSize⟩

/-- How many entries it has room for. -/
def slots : Nat := d.count * f.clusterSize / diskEntrySize

def entry (data : Bytes) (i : Nat) : Bytes := slice (fileView f d.chain data) (diskEntrySize * i)

/-- The items of a directory. -/
def lists (data : Bytes) : List Item := showing (fun i => shownBy (d.entry f data i)) (d.slots f)

/-- How many of its entries are free. -/
def room (data : Bytes) : Nat := vacancies (fun i => isFreeEntry (d.entry f data i)) (d.slots f)

end Directory

/-- The clusters are those of a directory of a volume. -/
structure Directory.On (f : Fs) (tail : Nat) (entry : Nat → BitVec 32) (d : Directory) : Prop where
  chain : FileChain f entry d.chain d.count
  small : d.count * f.clusterSize < 2 ^ 31
  behind : f.Behind tail d.chain d.count

/-- The directories that the names of a path lead through to `target`, and that share no
cluster with it.  Entries of directories have no size. -/
def Route (f : Fs) (tail : Nat) (image : Image) (target : Directory) :
    Directory → List CString → Prop
  | d, [] => d = target ∧ d.On f tail image.entry
  | d, name :: names => d.On f tail image.entry ∧
      Apart d.chain d.count target.chain target.count ∧
      ∃ e i, firstNamed (d.entry f image.data) (d.slots f) name = some i ∧
        (entryFirstCluster (d.entry f image.data i)).setWidth 32 = e.chain 0 ∧
        entryFileSize (d.entry f image.data i) = 0 ∧ Route f tail image target e names

section Directories

variable {f : Fs} {tail : Nat} {image : Image} {d target : Directory} {names : List CString}
  {data : Bytes} {i j k : Nat}

theorem Route.on (route : Route f tail image target d names) : d.On f tail image.entry := by
  cases names with
  | nil => exact route.2
  | cons name names => exact route.1

theorem Route.target_on (route : Route f tail image target d names) :
    target.On f tail image.entry := by
  induction names generalizing d with
  | nil => exact route.1 ▸ route.2
  | cons name names ih =>
      obtain ⟨-, -, e, i, -, -, -, rest⟩ := route
      exact ih rest

/-- A place in an entry is one of the directory. -/
theorem Directory.inside (below : i < d.slots f) (low : k < diskEntrySize) :
    diskEntrySize * i + k < d.count * f.clusterSize := by
  have whole : (i + 1) * diskEntrySize ≤ d.count * f.clusterSize :=
    (Nat.mul_le_mul_right _ (show i + 1 ≤ d.count * f.clusterSize / diskEntrySize from below)).trans
      (Nat.div_mul_le_self _ _)
  rw [Nat.add_mul, Nat.one_mul, Nat.mul_comm] at whole
  omega

theorem firstNamed_congr {entries entries' : Nat → Bytes} {num : Nat} {name : CString}
    (same : ∀ i < num, ∀ k < diskEntrySize, entries' i k = entries i k) :
    firstNamed entries' num name = firstNamed entries num name := by
  unfold firstNamed
  refine List.find?_congr fun i inRow => ?_
  have here := same i (List.mem_range.1 inRow)
  rw [isValidEntry_congr fun k low => here k (low.trans (by decide)),
    isNamed_congr fun k low => here k (low.trans (by decide))]

/-- Another version of the bytes is the same directory, if no byte of it has changed. -/
theorem Directory.entry_congr {after : Bytes}
    (same : ∀ j < d.count * f.clusterSize, fileView f d.chain after j = fileView f d.chain data j)
    (below : i < d.slots f) (low : k < diskEntrySize) :
    d.entry f after i k = d.entry f data i k := same _ (Directory.inside below low)

theorem Directory.On.follows (on : d.On f tail image.entry) (inChain : i < d.count) :
    chainFrom (nextIn image.entry) (d.chain 0) i = d.chain i := by
  induction i with
  | zero => rfl
  | succ i ih =>
      unfold chainFrom at ih ⊢
      rw [Function.iterate_succ_apply', ih (by omega), on.chain.isChain.links i inChain]

theorem Directory.On.entry (on : d.On f tail image.entry) (below : i < d.slots f)
    (low : k < diskEntrySize) :
    (d.place f).entry f (nextIn image.entry) data i k = d.entry f data i k := by
  have inside := Directory.inside below low
  have block : (diskEntrySize * i + k) / f.clusterSize < d.count :=
    Nat.div_lt_of_lt_mul (by rwa [Nat.mul_comm f.clusterSize])
  change fileView f (chainFrom _ (d.chain 0)) data (diskEntrySize * i + k) =
    fileView f d.chain data (diskEntrySize * i + k)
  unfold fileView
  rw [on.follows block]

/-- The volume serves the directory. -/
theorem Directory.On.sound (on : d.On f tail image.entry) (proper : f.Proper) (numbered : f.Numbered) :
    (d.place f).Sound f (nextIn image.entry) f.HasCluster (512 * tail ≤ ·) := by
  have same (i : Nat) (inChain : i < d.count) := on.follows inChain
  refine ⟨d.count, ⟨on.chain.isChain.congr_chain same, fun i inChain => ?_, ?_, fun i inChain => ?_,
    fun i inChain j inside => ?_⟩, le_rfl⟩
  · rw [show chainFrom _ (d.place f).first i = d.chain i from same i inChain]
    exact on.chain.clusters i inChain
  · exact (on.chain.count_le proper).trans (by decide)
  · rw [show chainFrom _ (d.place f).first i = d.chain i from same i inChain]
    exact numbered _ (on.chain.clusters i inChain)
  · rw [show chainFrom _ (d.place f).first i = d.chain i from same i inChain] at inside
    have start := on.behind i inChain
    have low := inside.1
    unfold Fs.clusterStart at low
    omega

/-- A path through directories is one that `fat32_dir_open` can follow, and leads there. -/
theorem Route.tree (proper : f.Proper) (numbered : f.Numbered)
    (route : Route f tail image target d names) :
    Tree f (nextIn image.entry) f.HasCluster image.data (512 * tail ≤ ·) (d.place f) names ∧
      Leads (Enters f (nextIn image.entry) image.data) (d.place f) names (target.place f) := by
  induction names generalizing d with
  | nil =>
      obtain ⟨rfl, on⟩ := route
      exact ⟨on.sound proper numbered, .here _⟩
  | cons name names ih =>
      obtain ⟨on, -, e, i, named, first, unsized, rest⟩ := route
      have onNext := rest.on
      obtain ⟨tree, leads⟩ := ih rest
      have below : i < d.slots f := List.mem_range.1 (List.find?_range_eq_some.1 named).2.1
      have sameEntry (k : Nat) (low : k < 32) :
          (d.place f).entry f (nextIn image.entry) image.data i k = d.entry f image.data i k :=
        on.entry below low
      have fields := entry_fields_congr sameEntry
      have found : (d.place f).find f (nextIn image.entry) image.data name =
          some ((d.place f).entry f (nextIn image.entry) image.data i) := by
        unfold Place.find
        rw [show (d.place f).bytes / diskEntrySize = d.slots f from rfl,
          firstNamed_congr fun j inRow k low => on.entry inRow low, named]
        rfl
      have nonzero := onNext.chain.nonzero onNext.chain.isChain.some_
      have same (q : Nat) (inChain : q < e.count) := onNext.follows inChain
      have isPlace : IsPlace f (nextIn image.entry)
          ((d.place f).entry f (nextIn image.entry) image.data i) (e.place f) := by
        refine ⟨?_, fun zero => ?_, fun _ => ⟨e.count, ?_, rfl⟩, fun some_ => ?_⟩
        · rw [fields.1]
          exact first.symm
        · rw [fields.1] at zero
          rw [zero] at first
          exact nonzero first.symm
        · exact onNext.chain.isChain.congr_chain same
        · rw [fields.2] at some_
          exact absurd unsized some_
      have small : (e.place f).bytes < 2 ^ 31 := onNext.small
      have cluster := f.clusterSize_le
      refine ⟨⟨on.sound proper numbered, fun entry isEntry _ => ?_⟩,
        .down ⟨_, found, isPlace, small⟩ leads⟩
      rw [found] at isEntry
      cases isEntry
      exact ⟨e.place f, ⟨isPlace, onNext.sound proper numbered, by omega, fun _ => small⟩, tree⟩

/-- Bytes of the target do not change the way there. -/
theorem Route.congr (proper : f.Proper) (route : Route f tail image target d names)
    (outside : SameOutsideFrom f tail target.chain target.count image.data data) :
    Route f tail { image with data := data } target d names := by
  have clusters := route.target_on.chain.clusters
  induction names generalizing d with
  | nil => exact route
  | cons name names ih =>
      obtain ⟨on, apart, e, i, named, first, unsized, rest⟩ := route
      have below : i < d.slots f := List.mem_range.1 (List.find?_range_eq_some.1 named).2.1
      have same (j : Nat) (inDir : j < d.count * f.clusterSize) :
          fileView f d.chain data j = fileView f d.chain image.data j :=
        fileView_apart proper on.chain.clusters clusters apart on.behind
          (fun i high changed => outside i high fun q inChain => changed q (Nat.zero_le q) inChain)
          inDir
      obtain ⟨sameFirst, sameSize⟩ := entry_fields_congr fun k low =>
        Directory.entry_congr (k := k) same below low
      refine ⟨on, apart, e, i, ?_, sameFirst ▸ first, sameSize ▸ unsized, ih rest⟩
      rw [← named]
      exact firstNamed_congr fun j inRow k low => Directory.entry_congr same inRow low

/-- Writing a new entry into a free slot fills it. -/
theorem EntryWritten.filled {dir : FatDir} {name : CString} {attrib : BitVec 8}
    (written : EntryWritten f d.chain d.count (newFile dir name attrib i).dirEntry 0 image.data data)
    (below : i < d.slots f) (free : isFreeEntry (d.entry f image.data i) = true) :
    Filled (d.slots f) i (fun j => isFreeEntry (d.entry f image.data j))
        (fun j => isFreeEntry (d.entry f data j)) (fun j => shownBy (d.entry f image.data j))
        (fun j => shownBy (d.entry f data j)) ∧
      shownBy (d.entry f data i) = createdItem name attrib := by
  obtain ⟨old, -, after⟩ := written
  have size : diskEntrySize = 32 := rfl
  have index : (newFile dir name attrib i).dirEntry.indexInDir = i := rfl
  rw [index] at after
  have new (k : Nat) (low : k < diskEntrySize) : d.entry f data i k =
      dirEntryToDisk (newFile dir name attrib i).dirEntry 0 old k := by
    have here := after _ (Directory.inside below low)
    rw [Nat.mul_comm diskEntrySize i] at here
    change fileView f d.chain data (diskEntrySize * i + k) = _
    rw [Nat.mul_comm diskEntrySize i, here, splice_at low]
  have others (j : Nat) (inRow : j < d.slots f) (other : j ≠ i) (k : Nat) (low : k < diskEntrySize) :
      d.entry f data j k = d.entry f image.data j k := by
    change fileView f d.chain data (diskEntrySize * j + k) = _
    rw [after _ (Directory.inside inRow low)]
    rw [size] at low ⊢
    exact splice_outside (by omega)
  refine ⟨⟨below, free, ?_, shownBy_free free, fun j inRow other => ?_, fun j inRow other => ?_⟩, ?_⟩
  · rw [isFreeEntry_congr new, newFile_taken]
  · exact isFreeEntry_congr (others j inRow other)
  · exact shownBy_congr (others j inRow other)
  · rw [shownBy_congr new, newFile_shown]

end Directories

/-! ## Creating in a directory -/

/-- Open the directory at a path, as `disk_dir_open` does, and create an entry. -/
def createIn (disk : DiskId) (path : CString) (created : CString × BitVec 8) : FatM DirEntry := do
  fat32DirCreateEntry disk (← fat32DirOpen disk path) created.1 created.2

/-- Open the directory at a path and read it to its end, as the command `dir` does.
`leftover` is what `fs_dir_entry_public` holds. -/
def listDir (disk : DiskId) (path : CString) (leftover : DirEntry) : FatM (List Item) := do
  let dir ← fat32DirOpen disk path
  return (readDir (dir.num - dir.i + 1) dir leftover).map DirEntry.item

/-- A machine with a volume on which a path leads to a directory. -/
structure DirectoryAt (disk : DiskId) (fs : FsPtr) (f : Fs) (tail : Nat) (world : World)
    (rest : CString) (root target : Directory) (image : Image) (s : Machine) : Prop where
  holds : HoldsImage disk fs f tail world image s
  route : Route f tail image target root (tokens rest)
  isRoot : root.chain 0 = f.bpb.rootdirCluster

section Creating

variable {disk : DiskId} {fs : FsPtr} {f : Fs} {tail : Nat} {world : World} {rest : CString}
  {root target : Directory} {image : Image} {s : Machine} {created : CString × BitVec 8}
  (editable : f.Editable tail) (memory : ∀ n, world.noMemory n = false)
  (short : rest.length + 1 < maxPath) (noZero : 0 ∉ rest)

include editable memory short noZero

theorem DirectoryAt.opens (at_ : DirectoryAt disk fs f tail world rest root target image s) :
    wp (fat32DirOpen disk (0x2f :: rest))
      (fun dir t => Loaded fs f (nextIn image.entry) image.data (target.place f) dir ∧
        DirectoryAt disk fs f tail world rest root target image t)
      (fun _ _ => False) s := by
  obtain ⟨proper, numbered, fits⟩ := editable
  obtain ⟨holds, route, isRoot⟩ := at_
  obtain ⟨tree, leads⟩ := route.tree proper numbered
  have on := route.on
  have isRootPlace : IsRoot f (nextIn image.entry) (root.place f) :=
    ⟨isRoot, ⟨root.count, on.chain.isChain.congr_chain fun i inChain => on.follows inChain, rfl⟩,
      on.small⟩
  refine wp_mono (dirOpen_spec (image_serves proper fits memory) proper.power short noZero isRootPlace
    tree holds) ?_ ?_
  · rintro dir t ⟨⟨q, leads', loaded⟩, holds⟩
    obtain ⟨-, rfl⟩ : Leads (Enters f (nextIn image.entry) image.data) (root.place f) (tokens rest) q ∧
        q = target.place f :=
      leads'.meet (fun _ _ _ _ enters enters' => ⟨enters, enters_unique enters enters'⟩) leads
    exact ⟨loaded, holds, route, isRoot⟩
  · rintro e t ⟨nowhere, -⟩
    exact nowhere _ leads

/-- **A directory is listed as the row of its slots.** -/
theorem DirectoryAt.lists (at_ : DirectoryAt disk fs f tail world rest root target image s)
    (leftover : DirEntry) :
    wp (listDir disk (0x2f :: rest) leftover)
      (fun items t => items = target.lists f image.data ∧
        DirectoryAt disk fs f tail world rest root target image t)
      (fun _ _ => False) s := by
  unfold listDir
  rw [wp_bind]
  refine wp_mono (at_.opens editable memory short noZero) ?_ (fun _ _ never => never)
  rintro dir t ⟨loaded, at_⟩
  have on := at_.route.target_on
  refine ⟨?_, at_⟩
  rw [readDir_items loaded.start fun i below k low => (loaded.entry below low).trans
    (on.entry (by rwa [loaded.num] at below) low), loaded.num]
  rfl

omit short noZero in
/-- `fat32_dir_create_entry` fills a free slot. -/
theorem DirectoryAt.fills (at_ : DirectoryAt disk fs f tail world rest root target image s)
    {dir : FatDir} (loaded : Loaded fs f (nextIn image.entry) image.data (target.place f) dir)
    (name : CString) (attrib : BitVec 8) {i : Nat}
    (first : firstVacant (fun j => isFreeEntry (target.entry f image.data j)) (target.slots f) =
      some i) :
    wp (fat32DirCreateEntry disk dir name attrib)
      (fun entry t => entry = (newFile dir name attrib i).dirEntry ∧ ∃ data,
        DirectoryAt disk fs f tail world rest root target { image with data := data } t ∧
        SameOutsideFrom f tail target.chain target.count image.data data ∧
        EntryWritten f target.chain target.count (newFile dir name attrib i).dirEntry 0 image.data
          data)
      (fun _ _ => False) s := by
  obtain ⟨proper, numbered, fits⟩ := editable
  obtain ⟨holds, route, isRoot⟩ := at_
  have on := route.target_on
  have num : dir.num = target.slots f := loaded.num
  obtain ⟨below, -⟩ := firstVacant_some first
  have chosen : newIndex dir = some i := by
    have same (j : Nat) (inRow : j < target.slots f) :
        isFreeEntry (dir.entry j) = isFreeEntry (target.entry f image.data j) :=
      isFreeEntry_congr fun k low =>
        (loaded.entry (by rwa [num]) low).trans (on.entry inRow low)
    unfold newIndex
    rw [freeIndex_eq, num]
    have found : firstVacant (fun j => isFreeEntry (dir.entry j)) (target.slots f) = some i := by
      rw [← first]
      exact List.find?_congr fun j inRow => same j (List.mem_range.1 inRow)
    rw [found]
  have filed : Filed f image.entry (newFile dir name attrib i).dirEntry target.chain target.count := by
    refine ⟨on.chain, ?_, fun q inChain => numbered _ (on.chain.clusters q inChain), ?_, ?_⟩
    · exact loaded.first.symm
    · have := on.small
      omega
    · have inside := Directory.inside below (show diskEntrySize - 1 < diskEntrySize by decide)
      have size : diskEntrySize = 32 := rfl
      change i * diskEntrySize + diskEntrySize ≤ _
      rw [Nat.mul_comm]
      omega
  unfold fat32DirCreateEntry
  simp only [chosen, wp_bind]
  have updates : ends True (fat32DirUpdateEntry disk (newFile dir name attrib i)) _ s :=
    dirUpdate_holds proper fits (fun _ => memory) loaded.fs filed holds
  refine wp_mono (updates.1 trivial) ?_ (fun _ _ never => never)
  rintro - t ⟨data, holds, outside, written⟩
  exact ⟨rfl, data, ⟨holds, route.congr proper outside, isRoot⟩, outside, written on.behind⟩

/-- `fat32_dir_create_entry` in a directory with room. -/
theorem DirectoryAt.creates (at_ : DirectoryAt disk fs f tail world rest root target image s)
    (enough : 0 < target.room f image.data) :
    wp (createIn disk (0x2f :: rest) created)
      (fun entry t => ∃ data,
        DirectoryAt disk fs f tail world rest root target { image with data := data } t ∧
        SameOutsideFrom f tail target.chain target.count image.data data ∧
        Filled (target.slots f) entry.indexInDir (fun j => isFreeEntry (target.entry f image.data j))
          (fun j => isFreeEntry (target.entry f data j))
          (fun j => shownBy (target.entry f image.data j))
          (fun j => shownBy (target.entry f data j)) ∧
        shownBy (target.entry f data entry.indexInDir) = createdItem created.1 created.2)
      (fun _ _ => False) s := by
  obtain ⟨i, first⟩ := Option.isSome_iff_exists.1 (firstVacant_isSome_iff.2 enough)
  obtain ⟨below, free⟩ := firstVacant_some first
  unfold createIn
  rw [wp_bind]
  refine wp_mono (at_.opens editable memory short noZero) ?_ (fun _ _ never => never)
  rintro dir t ⟨loaded, at_⟩
  refine wp_mono (at_.fills editable memory loaded created.1 created.2 first) ?_
    (fun _ _ never => never)
  rintro entry u ⟨rfl, data, at_, outside, written⟩
  exact ⟨data, at_, outside, written.filled below free⟩

omit editable memory short noZero in
/-- The root directory is open with 0 for its first cluster. -/
theorem rootOpen_zero (disk : DiskId) :
    Keeps (fun _ => True) (fat32DirOpen disk [0x2f]) fun dir => dir.firstCluster = 0 := by
  have any {α : Type} {p : FatM α} : Preserves (fun _ => True) p := fun _ _ _ _ _ =>
    ⟨trivial, fun _ _ => trivial⟩
  have opens : Keeps (fun _ => True) (fat32Rootdir32Open disk) fun dir => dir.firstCluster = 0 := by
    unfold fat32Rootdir32Open
    refine any.bind fun fs _ => any.bind fun f _ => any.bind fun ok _ =>
      Keeps.ite (fun _ => keeps_fail) fun _ => any.bind fun file _ => any.bind fun buf _ => ?_
    exact keeps_pure rfl
  unfold fat32DirOpen
  exact any.bind fun ok _ => Keeps.ite (fun _ => keeps_fail) fun _ =>
    opens.bind fun dir zero => keeps_ensure.then (keeps_pure zero)

omit short noZero in
/-- A root directory that is full is not extended. -/
theorem DirectoryAt.full (at_ : DirectoryAt disk fs f tail world [] root target image s)
    (none_ : target.room f image.data = 0) :
    wp (createIn disk [0x2f] created) (fun _ _ => False)
      (fun e t => e = .enoent ∧ DirectoryAt disk fs f tail world [] root target image t) s := by
  have vacant : firstVacant (fun j => isFreeEntry (target.entry f image.data j)) (target.slots f) =
      none := by
    rw [← Option.not_isSome_iff_eq_none, firstVacant_isSome_iff]
    unfold Directory.room at none_
    omega
  have opens := at_.opens editable memory (show ([] : CString).length + 1 < maxPath by decide)
    List.not_mem_nil
  unfold createIn
  rw [wp_bind]
  rcases wp_iff_run.1 opens with ⟨dir, t, run, loaded, at_⟩ | ⟨_, _, _, never⟩
  · obtain ⟨-, zero⟩ := rootOpen_zero disk s _ t trivial run
    have isZero : dir.firstCluster = 0 := zero dir rfl
    have num : dir.num = target.slots f := loaded.num
    have on := at_.route.target_on
    have nowhere : newIndex dir = none := by
      have searched : firstVacant (fun j => isFreeEntry (dir.entry j)) (target.slots f) = none := by
        rw [← vacant]
        refine List.find?_congr fun j inRow => isFreeEntry_congr fun k low => ?_
        have below := List.mem_range.1 inRow
        exact (loaded.entry (by rwa [num]) low).trans (on.entry below low)
      unfold newIndex
      rw [freeIndex_eq, num, searched]
      exact if_neg fun some_ => some_ isZero
    unfold wp
    rw [run]
    change wp (fat32DirCreateEntry disk dir created.1 created.2) _ _ t
    unfold fat32DirCreateEntry
    simp only [nowhere]
    exact ⟨rfl, at_⟩
  · exact never.elim

end Creating

/-! ## Machines -/

/-- What a machine needs for its directories to be edited: hardware and an allocator that do
not fail, and a volume of which the path `rest` leads from the root to `target`. -/
structure HasDirectory (disk : DiskId) (fs : FsPtr) (tail : Nat) (rest : CString)
    (root target : Directory) (m : Machine) : Prop where
  reliable : m.Reliable
  ample : ∀ n, m.world.noMemory n = false
  mounted : (m.disk disk).fs = some fs
  editable : (m.fsMem fs).Editable tail
  cache : CacheOk m.toCore disk fs
  window : m.bufFs = some fs →
    m.bufSector + ((m.fsMem fs).numFats - 1) * (m.fsMem fs).fatSectors + 2 ≤ tail
  route : Route (m.fsMem fs) tail ⟨m.fatTable disk fs, (m.disk disk).data⟩ target root (tokens rest)
  isRoot : root.chain 0 = (m.fsMem fs).bpb.rootdirCluster
  short : rest.length + 1 < maxPath
  noZero : 0 ∉ rest

section Machines

variable {disk : DiskId} {fs : FsPtr} {tail : Nat} {rest : CString} {root target : Directory}
  {m t : Machine}

theorem HasDirectory.start (has : HasDirectory disk fs tail rest root target m) :
    DirectoryAt disk fs (m.fsMem fs) tail m.world rest root target
      ⟨m.fatTable disk fs, (m.disk disk).data⟩ m where
  holds := HoldsImage.startAt has.reliable has.mounted has.cache has.window
  route := has.route
  isRoot := has.isRoot

end Machines

/-! ## A root directory of sixteen entries -/

end TestOs.Fat32
