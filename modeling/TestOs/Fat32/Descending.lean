/-
# Fat32.Descending -- paths through directories

A `Place` is what `fat32_dir_open` has open: the first cluster of a chain, and how
many bytes of it are entries.  A name leads to the place of the first valid entry
that has it (`Enters`), if that has a cluster; no attribute is looked at.  So
`fat32_dir_open` follows a path exactly as far as its names lead (`dirOpen_spec`),
through regular files as through directories.

Paths are said to go through directories only (`EntersDir`), whether these have a
cluster or not.  That is so of a path exactly when neither rule leads to its end
through an entry that the other refuses (`dir_open_iff`).
-/
import TestOs.Library.Descents
import TestOs.Fat32.Names
import TestOs.Fat32.Serving

namespace TestOs.Fat32

open TestOs.Library Prog

set_option autoImplicit false

/-! ## Looking for a name -/

/-- The first of `num` entries that is valid and has this name. -/
def firstNamed (entries : Nat → Bytes) (num : Nat) (name : CString) : Option Nat :=
  (List.range num).find? fun i => isValidEntry (entries i) && isNamed (entries i) name

section Search

variable {entry entry' buf : Bytes} {name : CString}

theorem shortFnToString_congr (same : ∀ i < 11, entry i = entry' i) (buf : Bytes) :
    shortFnToString entry buf = shortFnToString entry' buf := by
  have base (dst : Bytes) (at_ : Nat) : splice dst at_ (fun i => tolower (entry i)) 8 =
      splice dst at_ (fun i => tolower (entry' i)) 8 :=
    splice_congr fun i low => congrArg tolower (same i (by omega))
  have extension (dst : Bytes) (at_ : Nat) : splice dst at_ (fun i => tolower (entry (8 + i))) 3 =
      splice dst at_ (fun i => tolower (entry' (8 + i))) 3 :=
    splice_congr fun i low => congrArg tolower (same (8 + i) (by omega))
  unfold shortFnToString
  simp only [base, extension]

theorem isNamed_congr (same : ∀ i < 11, entry i = entry' i) (name : CString) :
    isNamed entry name = isNamed entry' name := by
  unfold isNamed
  rw [shortFnToString_congr same]

theorem isValidEntry_congr (same : ∀ i < 12, entry i = entry' i) :
    isValidEntry entry = isValidEntry entry' := by
  unfold isValidEntry isFreeEntry entryAttrib
  rw [same 0 (by omega), same 11 (by omega)]

theorem skipInvalid_spec (dir : FatDir) (left i : Nat) (buf : Bytes) :
    ∃ j buf', skipInvalid dir left i buf = (j, buf') ∧ i ≤ j ∧ j ≤ i + left ∧
      (∀ k, i ≤ k → k < j → isValidEntry (dir.entry k) = false) ∧
      (j < i + left → isValidEntry (dir.entry j) = true) := by
  induction left generalizing i buf with
  | zero => exact ⟨i, buf, rfl, le_rfl, le_rfl, fun k low high => by omega, fun less => by omega⟩
  | succ left ih =>
      unfold skipInvalid
      by_cases valid : isValidEntry (dir.entry i) = true
      · rw [if_pos valid]
        exact ⟨i, buf, rfl, le_rfl, by omega, fun k low high => by omega, fun _ => valid⟩
      · rw [if_neg valid]
        obtain ⟨j, buf', run, low, high, skipped, stops⟩ :=
          ih (i + 1) (shortFnToString (dir.entry i) buf)
        refine ⟨j, buf', run, by omega, by omega, fun k above below => ?_, fun less =>
          stops (by omega)⟩
        by_cases here : k = i
        · rw [here]
          exact Bool.eq_false_iff.2 valid
        · exact skipped k (by omega) below

/-- The entry in memory of a place in a directory. -/
structure FoundAt (dir : FatDir) (i : Nat) (found : DirEntry) : Prop where
  read : ∃ leftover, found = { dirEntryFromDisk leftover (dir.entry i) with
    dirFirstCluster := dir.firstCluster, indexInDir := i }

/-- `fat32_dir_read` finds the next valid entry. -/
theorem dirRead_spec (dir : FatDir) (entry : DirEntry) :
    (∃ found j, fat32DirRead dir entry = (some found, { dir with i := j + 1 }) ∧ dir.i ≤ j ∧
      j < dir.num ∧ isValidEntry (dir.entry j) = true ∧ FoundAt dir j found ∧
      ∀ k, dir.i ≤ k → k < j → isValidEntry (dir.entry k) = false) ∨
    (∃ rest, fat32DirRead dir entry = (none, rest)) ∧
      ∀ k, dir.i ≤ k → k < dir.num → isValidEntry (dir.entry k) = false := by
  obtain ⟨j, buf, run, low, high, skipped, stops⟩ :=
    skipInvalid_spec dir (dir.num - dir.i) dir.i entry.name
  unfold fat32DirRead
  rw [run]
  dsimp only
  by_cases done : dir.num ≤ j
  · rw [if_pos done]
    exact .inr ⟨⟨_, rfl⟩, fun k above below => skipped k above (by omega)⟩
  · rw [if_neg done]
    exact .inl ⟨_, j, rfl, low, by omega, stops (by omega), ⟨_, rfl⟩, skipped⟩

/-- The entry that the search for a name ends with. -/
def nameIn (dir : FatDir) (name : CString) (i : Nat) : Bool :=
  isValidEntry (dir.entry i) && isNamed (dir.entry i) name

theorem findEntry_spec (noZero : 0 ∉ name) (left : Nat) (dir : FatDir) (entry : DirEntry)
    (enough : dir.num - dir.i < left) :
    (∃ found j, findEntry name left dir entry = some found ∧ dir.i ≤ j ∧ j < dir.num ∧
      nameIn dir name j = true ∧ FoundAt dir j found ∧
      ∀ k, dir.i ≤ k → k < j → nameIn dir name k = false) ∨
    findEntry name left dir entry = none ∧
      ∀ k, dir.i ≤ k → k < dir.num → nameIn dir name k = false := by
  induction left generalizing dir entry with
  | zero => omega
  | succ left ih =>
      unfold findEntry
      rcases dirRead_spec dir entry with ⟨found, j, run, low, high, valid, isFound, skipped⟩ |
        ⟨⟨rest, run⟩, skipped⟩
      · have notNamed (k : Nat) (above : dir.i ≤ k) (below : k < j) : nameIn dir name k = false := by
          unfold nameIn
          rw [skipped k above below, Bool.false_and]
        have named : sameName found.name name = isNamed (dir.entry j) name := by
          obtain ⟨leftover, rfl⟩ := isFound.read
          exact sameName_shortFnToString _ _ noZero
        rw [run]
        dsimp only
        by_cases same : sameName found.name name = true
        · rw [if_pos same]
          refine .inl ⟨found, j, rfl, low, high, ?_, isFound, notNamed⟩
          unfold nameIn
          rw [valid, ← named, same, Bool.and_self]
        · rw [if_neg same]
          have notHere : nameIn dir name j = false := by
            unfold nameIn
            rw [← named, Bool.eq_false_iff.2 same, Bool.and_false]
          have before (k : Nat) (above : dir.i ≤ k) (below : k < j + 1) :
              nameIn dir name k = false := by
            by_cases here : k = j
            · rw [here, notHere]
            · exact notNamed k above (by omega)
          rcases ih { dir with i := j + 1 } found (by dsimp only; omega) with
            ⟨found', j', run', low', high', named', ⟨isFound'⟩, skipped'⟩ | ⟨run', skipped'⟩
          · have low' : j + 1 ≤ j' := low'
            refine .inl ⟨found', j', run', by omega, high', named', ⟨isFound'⟩, fun k above below => ?_⟩
            by_cases early : k < j + 1
            · exact before k above early
            · exact skipped' k (Nat.le_of_not_lt early) below
          · refine .inr ⟨run', fun k above below => ?_⟩
            by_cases early : k < j + 1
            · exact before k above early
            · exact skipped' k (Nat.le_of_not_lt early) below
      · rw [run]
        refine .inr ⟨rfl, fun k above below => ?_⟩
        unfold nameIn
        rw [skipped k above below, Bool.false_and]

/-- The search for a name in a directory that has just been opened. -/
theorem findEntry_first {entries : Nat → Bytes} {dir : FatDir} (start : dir.i = 0)
    (same : ∀ i < dir.num, ∀ k < diskEntrySize, dir.entry i k = entries i k) (noZero : 0 ∉ name)
    (entry : DirEntry) :
    (∃ found j, findEntry name (dir.num - dir.i + 1) dir entry = some found ∧ j < dir.num ∧
      firstNamed entries dir.num name = some j ∧ FoundAt dir j found) ∨
    findEntry name (dir.num - dir.i + 1) dir entry = none ∧
      firstNamed entries dir.num name = none := by
  have nameIn_eq {k : Nat} (below : k < dir.num) :
      nameIn dir name k = (isValidEntry (entries k) && isNamed (entries k) name) := by
    have here := same k below
    unfold nameIn
    rw [isValidEntry_congr fun i low => here i (low.trans (by decide)),
      isNamed_congr fun i low => here i (low.trans (by decide))]
  unfold firstNamed
  rcases findEntry_spec noZero (dir.num - dir.i + 1) dir entry (Nat.lt_succ_self _) with
    ⟨found, j, run, -, high, named, isFound, before⟩ | ⟨run, nowhere⟩
  · refine .inl ⟨found, j, run, high, ?_, isFound⟩
    rw [List.find?_range_eq_some]
    refine ⟨by rw [← nameIn_eq high]; exact named, List.mem_range.2 high, fun k less => ?_⟩
    rw [← nameIn_eq (less.trans high), before k (by omega) less]
    rfl
  · refine .inr ⟨run, ?_⟩
    rw [List.find?_eq_none]
    intro k inRange
    have below := List.mem_range.1 inRange
    rw [← nameIn_eq below, nowhere k (by omega) below]
    exact Bool.noConfusion

end Search

/-! ## Places -/

/-- The clusters that follow a first one. -/
def chainFrom (next : BitVec 32 → BitVec 32) (first : BitVec 32) : Blocklist :=
  fun i => next^[i] first

/-- What is open as a directory: a first cluster, and a number of bytes. -/
structure Place where
  first : BitVec 32
  bytes : Nat

section Places

variable (f : Fs) (next : BitVec 32 → BitVec 32) (data : Bytes)

/-- The bytes of a place. -/
def Place.view (p : Place) : Bytes := fileView f (chainFrom next p.first) data

/-- Entry `i` of a place. -/
def Place.entry (p : Place) (i : Nat) : Bytes := slice (p.view f next data) (diskEntrySize * i)

/-- The entry that has a name. -/
def Place.find (p : Place) (name : CString) : Option Bytes :=
  (firstNamed (p.entry f next data) (p.bytes / diskEntrySize) name).map (p.entry f next data)

/-- The place of an entry that has a cluster: without a size it has all of its clusters. -/
structure IsPlace (entry : Bytes) (p : Place) : Prop where
  first : p.first = (entryFirstCluster entry).setWidth 32
  cluster : entryFirstCluster entry ≠ 0
  unsized : entryFileSize entry = 0 → ∃ count,
    TableChain next EndMark (chainFrom next p.first) count ∧ p.bytes = count * f.clusterSize
  sized : entryFileSize entry ≠ 0 → p.bytes = (entryFileSize entry).toNat

/-- Where `fat32_subdir_open` gets with a name. -/
def Enters (p : Place) (name : CString) (q : Place) : Prop :=
  ∃ entry, p.find f next data name = some entry ∧ IsPlace f next entry q ∧ q.bytes < 2 ^ 31

/-- Where a name leads that is that of a directory; to `bare` from one without a cluster. -/
def EntersDir (bare p : Place) (name : CString) (q : Place) : Prop :=
  ∃ entry, p.find f next data name = some entry ∧ entryAttrib entry &&& fatAttribDir ≠ 0 ∧
    if entryFirstCluster entry = 0 then q = bare else IsPlace f next entry q

/-- Where a name leads that is that of a directory with a cluster. -/
def EntersChain (p : Place) (name : CString) (q : Place) : Prop :=
  ∃ entry, p.find f next data name = some entry ∧ entryAttrib entry &&& fatAttribDir ≠ 0 ∧
    IsPlace f next entry q

end Places

section Unique

variable {f : Fs} {next : BitVec 32 → BitVec 32} {data entry : Bytes} {bare p q r : Place}
  {name : CString}

theorem IsPlace.unique (isPlace : IsPlace f next entry q) (isPlace' : IsPlace f next entry r) :
    q = r := by
  obtain ⟨first, bytes⟩ := q
  obtain ⟨first', bytes'⟩ := r
  obtain rfl : first = first' := isPlace.first.trans isPlace'.first.symm
  by_cases unsized : entryFileSize entry = 0
  · obtain ⟨count, chain, same⟩ := isPlace.unsized unsized
    obtain ⟨count', chain', same'⟩ := isPlace'.unsized unsized
    obtain rfl := chain.count_unique chain'
    exact congrArg _ (same.trans same'.symm)
  · exact congrArg _ ((isPlace.sized unsized).trans (isPlace'.sized unsized).symm)

theorem enters_unique (enters : Enters f next data p name q) (enters' : Enters f next data p name r) :
    q = r := by
  obtain ⟨entry, found, isPlace, -⟩ := enters
  obtain ⟨entry', found', isPlace', -⟩ := enters'
  rw [found] at found'
  cases found'
  exact isPlace.unique isPlace'

/-- The two rules agree where both lead on. -/
theorem enters_agree (enters : Enters f next data p name q)
    (directory : EntersDir f next data bare p name r) : EntersChain f next data p name q ∧ q = r := by
  obtain ⟨entry, found, isPlace, -⟩ := enters
  obtain ⟨entry', found', isDir, isPlace'⟩ := directory
  rw [found] at found'
  cases found'
  rw [if_neg isPlace.cluster] at isPlace'
  exact ⟨⟨entry, found, isDir, isPlace⟩, isPlace.unique isPlace'⟩

theorem EntersChain.directory (chained : EntersChain f next data p name q) :
    EntersDir f next data bare p name q := by
  obtain ⟨entry, found, isDir, isPlace⟩ := chained
  refine ⟨entry, found, isDir, ?_⟩
  rw [if_neg isPlace.cluster]
  exact isPlace

end Unique

/-! ## Trees -/

section Trees

variable (f : Fs) (next : BitVec 32 → BitVec 32) (asked : BitVec 32 → Prop) (data : Bytes)
  (visible : Nat → Prop)

/-- A place has a chain that the volume serves, and that has its bytes. -/
def Place.Sound (p : Place) : Prop :=
  ∃ count, Served f next asked visible (chainFrom next p.first) count ∧
    p.bytes ≤ count * f.clusterSize

/-- An entry has a sound place, if it has a cluster; a directory has one, below 2 GB. -/
structure SoundEntry (entry : Bytes) (p : Place) : Prop where
  isPlace : IsPlace f next entry p
  sound : p.Sound f next asked visible
  whole : p.bytes + f.clusterSize ≤ 2 ^ 32
  directory : entryAttrib entry &&& fatAttribDir ≠ 0 → p.bytes < 2 ^ 31

/-- What a path comes to is sound, from name to name. -/
def Tree : Place → List CString → Prop
  | p, [] => p.Sound f next asked visible
  | p, name :: names => p.Sound f next asked visible ∧ ∀ entry,
      p.find f next data name = some entry → entryFirstCluster entry ≠ 0 →
        ∃ q, SoundEntry f next asked visible entry q ∧ Tree q names

theorem Tree.sound {f : Fs} {next : BitVec 32 → BitVec 32} {asked : BitVec 32 → Prop}
    {data : Bytes} {visible : Nat → Prop} {p : Place} {names : List CString}
    (tree : Tree f next asked data visible p names) : p.Sound f next asked visible := by
  cases names with
  | nil => exact tree
  | cons name names => exact tree.1

end Trees

/-! ## Opening a path -/

/-- A directory has been opened at a place. -/
structure Loaded (fs : FsPtr) (f : Fs) (next : BitVec 32 → BitVec 32) (data : Bytes) (p : Place)
    (dir : FatDir) : Prop where
  fs : dir.fs = fs
  first : (if dir.firstCluster = 0 then f.bpb.rootdirCluster else dir.firstCluster) = p.first
  start : dir.i = 0
  num : dir.num = p.bytes / diskEntrySize
  entries : ∀ j < p.bytes, dir.entries j = p.view f next data j

section Descent

variable {disk : DiskId} {fs : FsPtr} {f : Fs} {next : BitVec 32 → BitVec 32}
  {asked : BitVec 32 → Prop} {data : Bytes} {visible : Nat → Prop} {inv : Machine → Prop}
  {p : Place} {dir : FatDir} {name : CString}

theorem Loaded.entry (loaded : Loaded fs f next data p dir) {i : Nat} (below : i < dir.num)
    {k : Nat} (inEntry : k < diskEntrySize) : dir.entry i k = p.entry f next data i k := by
  have num := loaded.num
  have room : (i + 1) * diskEntrySize ≤ p.bytes :=
    (Nat.mul_le_mul_right _ (show i + 1 ≤ p.bytes / diskEntrySize by omega)).trans
      (Nat.div_mul_le_self _ _)
  rw [Nat.add_mul, Nat.one_mul, Nat.mul_comm] at room
  exact loaded.entries _ (by omega)

/-- The search in a directory finds the entry of its place. -/
theorem Loaded.find (loaded : Loaded fs f next data p dir) (noZero : 0 ∉ name) (entry : DirEntry) :
    (∃ found j, findEntry name (dir.num - dir.i + 1) dir entry = some found ∧ j < dir.num ∧
      p.find f next data name = some (p.entry f next data j) ∧ FoundAt dir j found) ∨
    findEntry name (dir.num - dir.i + 1) dir entry = none ∧ p.find f next data name = none := by
  unfold Place.find
  rw [← loaded.num]
  rcases findEntry_first loaded.start (fun i below k inEntry => loaded.entry below inEntry) noZero
    entry with ⟨found, j, run, below, isFirst, isFound⟩ | ⟨run, nowhere⟩
  · refine .inl ⟨found, j, run, below, ?_, isFound⟩
    rw [isFirst]
    rfl
  · refine .inr ⟨run, ?_⟩
    rw [nowhere]
    rfl

/-- The fields of an entry that has been found. -/
theorem Loaded.found (loaded : Loaded fs f next data p dir) {j : Nat} (below : j < dir.num)
    {found : DirEntry} (isFound : FoundAt dir j found) :
    found.firstCluster = (entryFirstCluster (p.entry f next data j)).setWidth 32 ∧
      found.size = (entryFileSize (p.entry f next data j)).toNat := by
  obtain ⟨leftover, rfl⟩ := isFound.read
  have same (k : Nat) (inEntry : k < diskEntrySize) := loaded.entry below inEntry
  constructor
  · change (halfword (dir.entry j) 26).setWidth 32 = (halfword _ 26).setWidth 32
    unfold halfword
    rw [same 26 (by decide), same (26 + 1) (by decide)]
  · change (word (dir.entry j) 28).toNat = (word _ 28).toNat
    rw [word_congr fun k low high => same k (by unfold diskEntrySize; omega)]

variable (serves : Serves disk fs f next asked data visible inv) (power : PowerOfTwo f)

include serves power

/-- `fat32_subdir_open` follows a name to the place of its entry. -/
theorem subdirOpen_spec {s : Machine} (start : inv s) (loaded : Loaded fs f next data p dir)
    (noZero : 0 ∉ name)
    (sound : ∀ entry, p.find f next data name = some entry → entryFirstCluster entry ≠ 0 →
      ∃ q, SoundEntry f next asked visible entry q) :
    wp (fat32SubdirOpen disk dir name)
      (fun dir' t => (∃ q, Enters f next data p name q ∧ Loaded fs f next data q dir') ∧ inv t)
      (fun _ t => (∀ q, ¬ Enters f next data p name q) ∧ inv t) s := by
  unfold fat32SubdirOpen
  rcases loaded.find noZero (directoryEntry 0) with ⟨found, j, run, below, isFirst, isFound⟩ |
    ⟨run, nowhere⟩
  · obtain ⟨first, size⟩ := loaded.found below isFound
    generalize p.entry f next data j = entry at isFirst first size
    have only (q : Place) (enters : Enters f next data p name q) :
        IsPlace f next entry q ∧ q.bytes < 2 ^ 31 := by
      obtain ⟨entry', isEntry, isPlace, small⟩ := enters
      rw [isFirst] at isEntry
      cases isEntry
      exact ⟨isPlace, small⟩
    simp only [run]
    unfold fat32SubdirOpenByDirEntry
    rw [wp_bind]
    refine wp_mono (serves.mallocs start) ?_ (fun _ _ never => never.elim)
    rintro _ t ⟨rfl, kept⟩
    simp only [Bool.not_true, Bool.false_eq_true, if_false]
    rw [wp_bind]
    by_cases empty : entryFirstCluster entry = 0
    · -- an entry without a cluster has no blocklist
      have first : found.firstCluster = 0 := by
        rw [first, empty]
        rfl
      refine wp_mono (serves.opensEmpty first kept) ?_ (fun _ _ never => never.elim)
      rintro _ u ⟨rfl, kept⟩
      exact ⟨fun q enters => (only q enters).1.cluster empty, kept⟩
    · obtain ⟨q, isPlace, ⟨count, served, inside⟩, whole, -⟩ := sound entry isFirst empty
      have head : found.firstCluster = chainFrom next q.first 0 := first.trans isPlace.first.symm
      have sized := power.size
      have bytes : (if found.size = 0 then w32 (count * f.clusterSize) else found.size) = q.bytes := by
        rw [size]
        by_cases unsized : entryFileSize entry = 0
        · obtain ⟨count', chain, same⟩ := isPlace.unsized unsized
          obtain rfl := served.isChain.count_unique chain
          rw [unsized, same]
          exact w32_of_lt (by omega)
        · have nonzero : (entryFileSize entry).toNat ≠ 0 := fun zero =>
            unsized (BitVec.eq_of_toNat_eq zero)
          rw [if_neg nonzero, isPlace.sized unsized]
      have fits : found.size + f.clusterSize ≤ 2 ^ 32 := by
        by_cases unsized : found.size = 0
        · omega
        · rw [if_neg unsized] at bytes
          omega
      refine wp_mono (serves.opens served head (fun _ => sized.ne') kept) ?_
        (fun _ _ never => never.elim)
      rintro file u ⟨recovered, kept⟩
      obtain ⟨blocks, list, walked⟩ := recovered.list
      have size' : file.size = q.bytes := recovered.size.trans bytes
      have same := walked.same (guessedBlocks_pos sized fits)
      simp only [list]
      rw [wp_bind]
      refine wp_mono (serves.loads served power recovered (guessedBlocks_pos sized fits)
        (by rw [size']; exact inside) (by omega) kept) ?_ ?_
      · rintro buf v ⟨⟨small, read⟩, kept⟩
        rw [wp_bind, wp_mountedFs (serves.mounted v kept)]
        rw [size'] at small read
        have isFirst' : blocks 0 = q.first := same 0 served.isChain.some_
        have nonzero : q.first ≠ 0 := served.nonzero served.isChain.some_
        refine ⟨⟨q, ⟨entry, isFirst, isPlace, small⟩, rfl, ?_, rfl, ?_, read⟩, kept⟩
        · change (if blocks 0 = 0 then _ else blocks 0) = _
          rw [isFirst', if_neg nonzero]
        · change file.size / diskEntrySize = _
          rw [size']
      · rintro e v ⟨⟨large, -⟩, kept⟩
        refine ⟨fun r enters => ?_, kept⟩
        obtain ⟨isPlace', small⟩ := only r enters
        obtain rfl := isPlace.unique isPlace'
        omega
  · simp only [run]
    refine ⟨fun q enters => ?_, start⟩
    obtain ⟨entry, isEntry, -⟩ := enters
    rw [nowhere] at isEntry
    cases isEntry

/-- The loop of `fat32_dir_open` follows the names of a path. -/
theorem openSubdirs_spec {names : List CString} (noZero : ∀ name ∈ names, 0 ∉ name)
    (tree : Tree f next asked data visible p names) {s : Machine} (start : inv s)
    (loaded : Loaded fs f next data p dir) :
    wp (openSubdirs disk names dir)
      (fun dir' t => (∃ q, Leads (Enters f next data) p names q ∧ Loaded fs f next data q dir') ∧
        inv t)
      (fun _ t => (∀ q, ¬ Leads (Enters f next data) p names q) ∧ inv t) s := by
  induction names generalizing p dir s with
  | nil => exact ⟨⟨p, .here p, loaded⟩, start⟩
  | cons name names ih =>
      obtain ⟨-, sound⟩ := tree
      unfold openSubdirs
      rw [wp_bind]
      refine wp_mono (subdirOpen_spec serves power start loaded (noZero name List.mem_cons_self)
        fun entry isEntry cluster => ?_) ?_ ?_
      · obtain ⟨q, soundEntry, -⟩ := sound entry isEntry cluster
        exact ⟨q, soundEntry⟩
      · rintro dir' t ⟨⟨q, enters, loaded'⟩, kept⟩
        obtain ⟨entry, isEntry, isPlace, -⟩ := id enters
        obtain ⟨q', soundEntry, rest⟩ := sound entry isEntry isPlace.cluster
        obtain rfl := isPlace.unique soundEntry.isPlace
        refine wp_mono (ih (fun other member => noZero other (List.mem_cons_of_mem _ member)) rest
          kept loaded') ?_ ?_
        · rintro dir'' u ⟨⟨r, leads, loaded''⟩, kept⟩
          exact ⟨⟨r, .down enters leads, loaded''⟩, kept⟩
        · rintro e u ⟨nowhere, kept⟩
          refine ⟨fun r leads => ?_, kept⟩
          obtain ⟨q', enters', leads'⟩ := Leads.cons_iff.1 leads
          obtain rfl := enters_unique enters enters'
          exact nowhere r leads'
      · rintro e t ⟨nowhere, kept⟩
        refine ⟨fun r leads => ?_, kept⟩
        obtain ⟨q, enters, -⟩ := Leads.cons_iff.1 leads
        exact nowhere q enters

/-- The root directory of a volume. -/
structure IsRoot (f : Fs) (next : BitVec 32 → BitVec 32) (p : Place) : Prop where
  first : p.first = f.bpb.rootdirCluster
  whole : ∃ count, TableChain next EndMark (chainFrom next p.first) count ∧
    p.bytes = count * f.clusterSize
  small : p.bytes < 2 ^ 31

/-- `fat32_rootdir32_open` opens the root. -/
theorem rootdir_spec (root : IsRoot f next p) (sound : p.Sound f next asked visible) {s : Machine}
    (start : inv s) :
    wp (fat32Rootdir32Open disk) (fun dir t => Loaded fs f next data p dir ∧ inv t)
      (fun _ _ => False) s := by
  obtain ⟨count, served, inside⟩ := sound
  obtain ⟨isFirst, ⟨count', chain, same⟩, small⟩ := root
  obtain rfl := served.isChain.count_unique chain
  have sized := power.size
  unfold fat32Rootdir32Open
  rw [wp_bind, wp_mountedFs (serves.mounted s start), wp_bind, wp_readFs, serves.fsMem s start,
    wp_bind]
  refine wp_mono (serves.mallocs start) ?_ (fun _ _ never => never)
  rintro _ t ⟨rfl, kept⟩
  simp only [Bool.not_true, Bool.false_eq_true, if_false]
  rw [wp_bind]
  have head : (directoryEntry f.bpb.rootdirCluster).firstCluster = chainFrom next p.first 0 :=
    isFirst.symm
  refine wp_mono (serves.opens served head (fun _ => sized.ne') kept) ?_ (fun _ _ never => never)
  rintro file u ⟨recovered, kept⟩
  have size : file.size = p.bytes := by
    rw [recovered.size, same]
    exact w32_of_lt (by omega)
  have guess : f.guessedBlocks (directoryEntry f.bpb.rootdirCluster).size = 1 := rfl
  rw [wp_bind]
  refine wp_mono (serves.loads served power recovered (by rw [guess]; exact Nat.one_pos)
    (by rw [size]; exact inside) (by omega) kept) ?_ ?_
  · rintro buf v ⟨⟨-, read⟩, kept⟩
    rw [size] at read
    refine ⟨⟨rfl, isFirst.symm, rfl, ?_, read⟩, kept⟩
    change file.size / diskEntrySize = _
    rw [size]
  · rintro e v ⟨⟨large, -⟩, -⟩
    omega

omit serves power in
theorem mem_intercalate {sep : CString} {parts : List CString} {c : BitVec 8} (member : name ∈ parts)
    (inName : c ∈ name) : c ∈ sep.intercalate parts := by
  induction parts with
  | nil => cases member
  | cons head rest ih =>
      cases rest with
      | nil =>
          rw [List.mem_singleton] at member
          subst member
          simpa [List.intercalate] using inName
      | cons after rest =>
          rw [List.intercalate, List.intersperse_cons_cons, List.flatten_cons, List.flatten_cons,
            List.mem_append, List.mem_append]
          rcases List.mem_cons.1 member with rfl | later
          · exact .inl inName
          · exact .inr (.inr (ih later))

omit serves power in
theorem mem_of_tokens {path : CString} (member : name ∈ tokens path) {c : BitVec 8}
    (inName : c ∈ name) : c ∈ path := by
  have part : name ∈ path.splitOn 0x2f := (List.mem_filter.1 member).1
  have whole : [0x2f].intercalate (path.splitOn 0x2f) = path := List.intercalate_splitOn _
  rw [← whole]
  exact mem_intercalate part inName

/-- **`fat32_dir_open` follows the names of a path.** -/
theorem dirOpen_spec {rest : CString} (short : rest.length + 1 < maxPath) (noZero : 0 ∉ rest)
    (root : IsRoot f next p) (tree : Tree f next asked data visible p (tokens rest)) {s : Machine}
    (start : inv s) :
    wp (fat32DirOpen disk (0x2f :: rest))
      (fun dir t => (∃ q, Leads (Enters f next data) p (tokens rest) q ∧
        Loaded fs f next data q dir) ∧ inv t)
      (fun _ t => (∀ q, ¬ Leads (Enters f next data) p (tokens rest) q) ∧ inv t) s := by
  unfold fat32DirOpen
  rw [wp_bind]
  refine wp_mono (serves.mallocs start) ?_ (fun _ _ never => never.elim)
  rintro _ t ⟨rfl, kept⟩
  simp only [Bool.not_true, Bool.false_eq_true, if_false]
  rw [wp_bind]
  refine wp_mono (rootdir_spec serves power root tree.sound kept) ?_ (fun _ _ never => never.elim)
  rintro dir u ⟨loaded, kept⟩
  rw [wp_bind, wp_ensure]
  refine ⟨short, ?_⟩
  rw [if_neg (by decide)]
  exact openSubdirs_spec serves power
    (fun name member zero => noZero (mem_of_tokens member zero)) tree kept loaded

omit serves power in
/-- On a sound tree a path through directories with clusters is one that the code follows. -/
theorem Tree.leads {names : List CString} (tree : Tree f next asked data visible p names)
    {q : Place} (leads : Leads (EntersChain f next data) p names q) :
    Leads (Enters f next data) p names q := by
  induction leads with
  | here p => exact .here p
  | @down p q r name names first rest ih =>
      obtain ⟨entry, isEntry, isDir, isPlace⟩ := first
      obtain ⟨q', soundEntry, tree'⟩ := tree.2 entry isEntry isPlace.cluster
      obtain rfl := isPlace.unique soundEntry.isPlace
      exact .down ⟨entry, isEntry, isPlace, soundEntry.directory isDir⟩ (ih tree')

/-- The paths that open are those through directories, and lead where these do, exactly
when neither rule leads to the end of the path through an entry that the other refuses. -/
theorem dirOpen_through {rest : CString} (short : rest.length + 1 < maxPath) (noZero : 0 ∉ rest)
    (root : IsRoot f next p) (tree : Tree f next asked data visible p (tokens rest)) (bare : Place)
    {s : Machine} (start : inv s) :
    (((∃ dir t, fat32DirOpen disk (0x2f :: rest) s = some (.ok dir, t)) ↔
        ∃ q, Leads (EntersDir f next data bare) p (tokens rest) q) ∧
      ∀ dir t, fat32DirOpen disk (0x2f :: rest) s = some (.ok dir, t) →
        ∃ q, Leads (EntersDir f next data bare) p (tokens rest) q ∧ Loaded fs f next data q dir) ↔
    ∀ q, Leads (Enters f next data) p (tokens rest) q ∨
        Leads (EntersDir f next data bare) p (tokens rest) q →
      Leads (EntersChain f next data) p (tokens rest) q := by
  have spec := dirOpen_spec serves power short noZero root tree start
  have opens (q : Place) (leads : Leads (Enters f next data) p (tokens rest) q) :
      ∃ dir t, fat32DirOpen disk (0x2f :: rest) s = some (.ok dir, t) := by
    rcases wp_iff_run.1 spec with ⟨dir, t, run, -⟩ | ⟨e, t, run, nowhere, -⟩
    · exact ⟨dir, t, run⟩
    · exact absurd leads (nowhere q)
  have opened {dir : FatDir} {t : Machine}
      (run : fat32DirOpen disk (0x2f :: rest) s = some (.ok dir, t)) :
      ∃ q, Leads (Enters f next data) p (tokens rest) q ∧ Loaded fs f next data q dir := by
    have reached : wlp (fat32DirOpen disk (0x2f :: rest)) (fun dir _ =>
        ∃ q, Leads (Enters f next data) p (tokens rest) q ∧ Loaded fs f next data q dir)
        (fun _ _ => True) s :=
      wlp_of_wp spec (fun _ _ found => found.1) (fun _ _ _ => trivial)
    exact wlp_ok reached run
  have meet {q r : Place} (leads : Leads (Enters f next data) p (tokens rest) q)
      (through : Leads (EntersDir f next data bare) p (tokens rest) r) :
      Leads (EntersChain f next data) p (tokens rest) q ∧ q = r :=
    Leads.meet (fun _ _ _ _ enters directory => enters_agree enters directory) leads through
  have directory {q : Place} (chained : Leads (EntersChain f next data) p (tokens rest) q) :
      Leads (EntersDir f next data bare) p (tokens rest) q :=
    Leads.mono (fun _ _ _ chained => chained.directory) chained
  constructor
  · rintro ⟨claimed, -⟩ q (leads | through)
    · obtain ⟨r, through⟩ := claimed.1 (opens q leads)
      exact (meet leads through).1
    · obtain ⟨dir, t, run⟩ := claimed.2 ⟨q, through⟩
      obtain ⟨r, leads, -⟩ := opened run
      obtain ⟨chained, rfl⟩ := meet leads through
      exact chained
  · intro chained
    refine ⟨⟨?_, ?_⟩, ?_⟩
    · rintro ⟨dir, t, run⟩
      obtain ⟨q, leads, -⟩ := opened run
      exact ⟨q, directory (chained q (.inl leads))⟩
    · rintro ⟨q, through⟩
      exact opens q (Tree.leads tree (chained q (.inr through)))
    · intro dir t run
      obtain ⟨q, leads, loaded⟩ := opened run
      exact ⟨q, directory (chained q (.inl leads)), loaded⟩

end Descent

section Claim

variable {disk : DiskId} {fs : FsPtr} {m : Machine} {p q : Place}

/-- **`fat32_dir_open` opens the paths through directories, and these places, exactly
when the path does not lead through an entry that has a cluster without being that of a
directory, and not through a directory without a cluster**, wherever such a one leads. -/
theorem dir_open_iff (disk : DiskId) (fs : FsPtr) {rest : CString} (reliable : m.Reliable)
    (ample : m.Ample) (mounted : (m.disk disk).fs = some fs) (synced : m.toCore.Synced disk fs)
    (power : PowerOfTwo (m.fsMem fs))
    (root : IsRoot (m.fsMem fs) (nextOf (m.fsMem fs) (m.disk disk).data) p)
    (tree : Tree (m.fsMem fs) (nextOf (m.fsMem fs) (m.disk disk).data) (fun _ => True)
      (m.disk disk).data (fun _ => True) p (tokens rest))
    (short : (0x2f :: rest).length < maxPath) (noZero : 0 ∉ rest) (bare : Place) :
    (((∃ dir t, fat32DirOpen disk (0x2f :: rest) m = some (.ok dir, t)) ↔
        ∃ q, Leads (EntersDir (m.fsMem fs) (nextOf (m.fsMem fs) (m.disk disk).data)
          (m.disk disk).data bare) p (tokens rest) q) ∧
      ∀ dir t, fat32DirOpen disk (0x2f :: rest) m = some (.ok dir, t) →
        ∃ q, Leads (EntersDir (m.fsMem fs) (nextOf (m.fsMem fs) (m.disk disk).data)
            (m.disk disk).data bare) p (tokens rest) q ∧
          Loaded fs (m.fsMem fs) (nextOf (m.fsMem fs) (m.disk disk).data) (m.disk disk).data q
            dir) ↔
    ∀ q, Leads (Enters (m.fsMem fs) (nextOf (m.fsMem fs) (m.disk disk).data) (m.disk disk).data) p
          (tokens rest) q ∨
        Leads (EntersDir (m.fsMem fs) (nextOf (m.fsMem fs) (m.disk disk).data) (m.disk disk).data
          bare) p (tokens rest) q →
      Leads (EntersChain (m.fsMem fs) (nextOf (m.fsMem fs) (m.disk disk).data) (m.disk disk).data)
        p (tokens rest) q :=
  dirOpen_through (looked_serves reliable ample mounted) power short noZero root tree
    bare (Looked.refl synced)

end Claim

/-! ## One entry in a root directory -/

/-- The entry `A` of cluster 3: an empty directory, or a file of 100 bytes. -/
def clusterEntry (directory : Bool) : Bytes := fun i =>
  if i = 0 then 0x41 else if i < 11 then 0x20
  else if i = 11 then if directory then fatAttribDir else 0
  else if i = 26 then 3 else if i = 28 then if directory then 0 else 100 else 0

/-- A volume with this entry in its root directory, of one cluster each. -/
def clusterVolume (directory : Bool) : Machine :=
  Machine.mounted (fun _ => smallFs 2 17 66) fun _ =>
    splice (putWord (putWord (fun _ => 0) (512 * 32 + 8) 0x0fffffff) (512 * 32 + 12) 0x0fffffff)
      (512 * 66) (clusterEntry directory) 32

/-- The clusters that follow one on this volume. -/
def clusterNext (directory : Bool) : BitVec 32 → BitVec 32 :=
  nextOf ((clusterVolume directory).fsMem 0) ((clusterVolume directory).disk 0).data

/-- The root directory. -/
def rootPlace : Place := ⟨2, 512⟩

/-- Where the entry leads. -/
def entryPlace (directory : Bool) : Place := ⟨3, if directory then 512 else 100⟩

section Volume

variable {directory : Bool}

theorem clusterVolume_synced : (clusterVolume directory).toCore.Synced 0 0 where
  clean _ := rfl
  held own := nomatch own

theorem clusterVolume_power : PowerOfTwo ((clusterVolume directory).fsMem 0) :=
  powerOfTwo (show (smallFs 2 17 66).clusterSectors = 2 ^ 0 by decide +kernel)

theorem clusterVolume_size : ((clusterVolume directory).fsMem 0).clusterSize = 512 :=
  show (smallFs 2 17 66).clusterSize = 512 by decide +kernel

theorem clusterVolume_chain {first : BitVec 32} (used : first = 2 ∨ first = 3) :
    TableChain (clusterNext directory) EndMark (chainFrom (clusterNext directory) first) 1 := by
  have ends : EndMark (clusterNext directory 2) ∧ EndMark (clusterNext directory 3) := by
    cases directory <;> decide +kernel
  refine TableChain.single ?_
  change EndMark (clusterNext directory first)
  rcases used with rfl | rfl
  · exact ends.1
  · exact ends.2

theorem clusterVolume_sound {p : Place} (used : p.first = 2 ∨ p.first = 3) (small : p.bytes ≤ 512) :
    p.Sound ((clusterVolume directory).fsMem 0) (clusterNext directory) (fun _ => True)
      (fun _ => True) := by
  have valid : (smallFs 2 17 66).DataCluster 2 ∧ (smallFs 2 17 66).DataCluster 3 := by
    unfold Fs.DataCluster
    decide +kernel
  refine ⟨1, ⟨clusterVolume_chain used, fun _ _ => trivial, by decide, fun i one => ?_,
    fun _ _ _ _ => trivial⟩, by rw [clusterVolume_size]; omega⟩
  rw [Nat.lt_one_iff.1 one]
  change (smallFs 2 17 66).DataCluster p.first
  rcases used with first | first <;> rw [first]
  · exact valid.1
  · exact valid.2

theorem clusterVolume_root :
    IsRoot ((clusterVolume directory).fsMem 0) (clusterNext directory) rootPlace where
  first := show (2 : BitVec 32) = (smallFs 2 17 66).bpb.rootdirCluster by decide +kernel
  whole := ⟨1, clusterVolume_chain (.inl rfl), by rw [clusterVolume_size, Nat.one_mul]; rfl⟩
  small := by decide

theorem clusterVolume_find (directory : Bool) : ∃ entry,
    rootPlace.find ((clusterVolume directory).fsMem 0) (clusterNext directory)
      ((clusterVolume directory).disk 0).data [0x61] = some entry ∧
    entryAttrib entry = (if directory then fatAttribDir else 0) ∧ entryFirstCluster entry = 3 ∧
    entryFileSize entry = if directory then 0 else 100 := by
  have first : firstNamed (rootPlace.entry ((clusterVolume directory).fsMem 0)
      (clusterNext directory) ((clusterVolume directory).disk 0).data) (512 / 32) [0x61] =
      some 0 := by
    cases directory <;> decide +kernel
  refine ⟨_, congrArg (Option.map _) first, ?_⟩
  cases directory <;> decide +kernel

theorem entryPlace_isPlace {entry : Bytes} (cluster : entryFirstCluster entry = 3)
    (size : entryFileSize entry = if directory then 0 else 100) :
    IsPlace ((clusterVolume directory).fsMem 0) (clusterNext directory) entry
      (entryPlace directory) where
  first := by rw [cluster]; rfl
  cluster := by rw [cluster]; decide
  unsized unsized := by
    refine ⟨1, clusterVolume_chain (.inr rfl), ?_⟩
    rw [clusterVolume_size, Nat.one_mul]
    cases directory with
    | true => rfl
    | false => exact absurd (size.symm.trans unsized) (by decide)
  sized sized := by
    rw [size]
    cases directory with
    | true => exact absurd size sized
    | false => rfl

theorem clusterVolume_tree :
    Tree ((clusterVolume directory).fsMem 0) (clusterNext directory) (fun _ => True)
      ((clusterVolume directory).disk 0).data (fun _ => True) rootPlace (tokens [0x61]) := by
  have small : (entryPlace directory).bytes ≤ 512 := by cases directory <;> decide
  have sound : (entryPlace directory).Sound ((clusterVolume directory).fsMem 0)
      (clusterNext directory) (fun _ => True) (fun _ => True) :=
    clusterVolume_sound (.inr rfl) small
  rw [show tokens [0x61] = [[0x61]] by decide]
  refine ⟨clusterVolume_sound (.inl rfl) le_rfl, fun entry isEntry _ => ?_⟩
  obtain ⟨entry', isEntry', -, cluster, size⟩ := clusterVolume_find directory
  rw [isEntry] at isEntry'
  cases isEntry'
  refine ⟨entryPlace directory, ⟨entryPlace_isPlace cluster size, sound, ?_, fun _ => by omega⟩, sound⟩
  rw [clusterVolume_size]
  omega

/-- A directory in the root is opened. -/
theorem dir_open_directory :
    ((∃ dir t, fat32DirOpen 0 [0x2f, 0x61] (clusterVolume true) = some (.ok dir, t)) ↔
        ∃ q, Leads (EntersDir ((clusterVolume true).fsMem 0) (clusterNext true)
          ((clusterVolume true).disk 0).data rootPlace) rootPlace (tokens [0x61]) q) ∧
      ∀ dir t, fat32DirOpen 0 [0x2f, 0x61] (clusterVolume true) = some (.ok dir, t) →
        ∃ q, Leads (EntersDir ((clusterVolume true).fsMem 0) (clusterNext true)
            ((clusterVolume true).disk 0).data rootPlace) rootPlace (tokens [0x61]) q ∧
          Loaded 0 ((clusterVolume true).fsMem 0) (clusterNext true)
            ((clusterVolume true).disk 0).data q dir := by
  obtain ⟨entry, isEntry, attrib, cluster, size⟩ := clusterVolume_find true
  have isDir : entryAttrib entry &&& fatAttribDir ≠ 0 := by
    rw [attrib]
    decide
  refine (dir_open_iff 0 0 (mounted_reliable _ _) (fun _ => rfl) rfl clusterVolume_synced
    clusterVolume_power clusterVolume_root clusterVolume_tree (by decide) (by decide)
    rootPlace).2 fun q leads => ?_
  rw [show tokens [0x61] = [[0x61]] by decide] at leads ⊢
  have isPlace : IsPlace ((clusterVolume true).fsMem 0) (clusterNext true) entry q := by
    rcases leads with leads | leads
    · obtain ⟨q', ⟨entry', isEntry', isPlace, -⟩, rest⟩ := Leads.cons_iff.1 leads
      obtain rfl := Leads.nil_iff.1 rest
      obtain rfl := Option.some.inj (isEntry.symm.trans isEntry')
      exact isPlace
    · obtain ⟨q', ⟨entry', isEntry', -, isPlace⟩, rest⟩ := Leads.cons_iff.1 leads
      obtain rfl := Leads.nil_iff.1 rest
      obtain rfl := Option.some.inj (isEntry.symm.trans isEntry')
      rwa [if_neg (by rw [cluster]; decide)] at isPlace
  exact .down ⟨entry, isEntry, isDir, isPlace⟩ (.here q)

/-- A regular file in the root is opened as a directory. -/
theorem dir_open_file :
    ((clusterVolume false).Reliable ∧ (clusterVolume false).Ample ∧
      (clusterVolume false).toCore.Synced 0 0 ∧ PowerOfTwo ((clusterVolume false).fsMem 0) ∧
      IsRoot ((clusterVolume false).fsMem 0) (clusterNext false) rootPlace ∧
      Tree ((clusterVolume false).fsMem 0) (clusterNext false) (fun _ => True)
        ((clusterVolume false).disk 0).data (fun _ => True) rootPlace (tokens [0x61])) ∧
    (∃ dir t, fat32DirOpen 0 [0x2f, 0x61] (clusterVolume false) = some (.ok dir, t)) ∧
    ∀ bare q, ¬ Leads (EntersDir ((clusterVolume false).fsMem 0) (clusterNext false)
      ((clusterVolume false).disk 0).data bare) rootPlace (tokens [0x61]) q := by
  refine ⟨⟨mounted_reliable _ _, fun _ => rfl, clusterVolume_synced, clusterVolume_power,
    clusterVolume_root, clusterVolume_tree⟩, ?_, fun bare q leads => ?_⟩
  · have opens : (fat32DirOpen 0 [0x2f, 0x61] (clusterVolume false)).map (·.1.toOption.isSome) =
        some true := by
      decide +kernel
    obtain ⟨⟨r, t⟩, run, isOk⟩ := Option.map_eq_some_iff.1 opens
    cases r with
    | error e => cases isOk
    | ok dir => exact ⟨dir, t, run⟩
  · rw [show tokens [0x61] = [[0x61]] by decide] at leads
    obtain ⟨q', ⟨entry', isEntry', isDir, -⟩, -⟩ := Leads.cons_iff.1 leads
    obtain ⟨entry, isEntry, attrib, -⟩ := clusterVolume_find false
    obtain rfl := Option.some.inj (isEntry.symm.trans isEntry')
    rw [attrib] at isDir
    exact isDir (by decide)

end Volume

end TestOs.Fat32
