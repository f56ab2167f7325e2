/-
# Fat32.FatTable -- the FAT buffer refines a plain table

`Core.fatView` is the first copy of a FAT as fat32.c sees it: the buffer where
it holds a sector of it, the disk elsewhere.  `CacheOk` is the invariant that
makes the view work: a clean buffer agrees with the disk, a dirty one belongs to
this file system, and its first sector lies in the FAT.  Windows overlap, since
the buffer holds two sectors and is looked up by the first; the invariant holds
because there is only ever one, and it is written back whole before it moves.

Each function of `Fat32.Buffer` is one operation of a table on the view
(`fetched_view`, `stored_view`, `writtenBack_disk`), and the table's answers are
the functions' answers along every run (`fat_cache_refines`).  The write-back
puts the buffer nowhere on a volume without FAT copies, and somewhere else on
one whose copies do not fit below sector 2^32; there the cache loses updates.
-/
import TestOs.Fat32.Cache
import TestOs.Library.Simulation

namespace TestOs.Fat32

open TestOs.Library Prog

set_option autoImplicit false

/-- There is a FAT, and its copies lie one after the other below sector 2^32. -/
structure Fs.CopiesFit (fs : Fs) : Prop where
  some_copy : 0 < fs.numFats
  fit : fs.reservedSectors + fs.numFats * fs.fatSectors ≤ 2 ^ 32

namespace Core

variable (c : Core) (disk : DiskId) (fs : FsPtr)

/-- Byte 0 of the first FAT copy. -/
def fatBase : Nat := 512 * (c.fsMem fs).reservedSectors

/-- The buffer holds byte `i` of the disk. -/
def InWindow (i : Nat) : Prop := 512 * c.bufSector ≤ i ∧ i < 512 * c.bufSector + 1024

instance (i : Nat) : Decidable (c.InWindow i) := inferInstanceAs (Decidable (_ ∧ _))

/-- The first FAT copy, with what is only in the buffer. -/
def fatView : Bytes := fun i =>
  if c.bufFs = some fs ∧ c.InWindow (c.fatBase fs + i) then
    c.buf (c.fatBase fs + i - 512 * c.bufSector)
  else (c.disk disk).data (c.fatBase fs + i)

end Core

/-- The buffer may be used for the file system at `fs` on `disk`. -/
structure CacheOk (c : Core) (disk : DiskId) (fs : FsPtr) : Prop where
  clean : c.bufChanged = false → c.bufFs = some fs → ∀ i < 512 * (c.fsMem fs).fatSectors,
    c.InWindow (c.fatBase fs + i) →
      c.buf (c.fatBase fs + i - 512 * c.bufSector) = (c.disk disk).data (c.fatBase fs + i)
  owned : c.bufChanged = true → c.bufFs = some fs
  window : c.bufFs = some fs → (c.fsMem fs).reservedSectors ≤ c.bufSector ∧
    c.bufSector < (c.fsMem fs).reservedSectors + (c.fsMem fs).fatSectors

section View

variable {c : Core} {disk : DiskId} {fs : FsPtr} {i : Nat}

@[simp] theorem writtenBack_fsMem : (c.writtenBack disk).fsMem = c.fsMem := by
  unfold Core.writtenBack
  split <;> rfl
@[simp] theorem writtenBack_bufFs : (c.writtenBack disk).bufFs = c.bufFs := by
  unfold Core.writtenBack
  split <;> rfl
@[simp] theorem writtenBack_buf : (c.writtenBack disk).buf = c.buf := by
  unfold Core.writtenBack
  split <;> rfl
@[simp] theorem writtenBack_bufSector : (c.writtenBack disk).bufSector = c.bufSector := by
  unfold Core.writtenBack
  split <;> rfl
@[simp] theorem evicted_fsMem : (c.evicted disk).fsMem = c.fsMem := by
  unfold Core.evicted
  split <;> simp
@[simp] theorem loaded_fsMem {sector : Nat} : (c.loaded disk fs sector).fsMem = c.fsMem := rfl
@[simp] theorem fetched_fsMem {sector : Nat} : (c.fetched disk fs sector).fsMem = c.fsMem := by
  unfold Core.fetched
  split <;> simp

theorem fatView_window (holds : c.bufFs = some fs) (inside : c.InWindow (c.fatBase fs + i)) :
    c.fatView disk fs i = c.buf (c.fatBase fs + i - 512 * c.bufSector) := if_pos ⟨holds, inside⟩

theorem fatView_disk (outside : ¬ c.InWindow (c.fatBase fs + i)) :
    c.fatView disk fs i = (c.disk disk).data (c.fatBase fs + i) :=
  if_neg fun held => outside held.2

/-- A write-back puts the view on the disk. -/
theorem writtenBack_disk (ok : CacheOk c disk fs) (fits : (c.fsMem fs).CopiesFit)
    (holds : c.bufFs = some fs) (low : i < 512 * (c.fsMem fs).fatSectors) :
    ((c.writtenBack disk).disk disk).data (c.fatBase fs + i) = c.fatView disk fs i := by
  obtain ⟨above, below⟩ := ok.window holds
  have first : writeCopies c.buf (c.fsMem fs).fatSectors (c.fsMem fs).numFats c.bufSector
      (c.disk disk).data (c.fatBase fs + i) =
        splice (c.disk disk).data (512 * c.bufSector) c.buf 1024 (c.fatBase fs + i) :=
    writeCopies_first fits.some_copy above below fits.fit (by unfold Core.fatBase; omega)
  simp only [Core.writtenBack, holds, setData_data, first, Core.fatView, true_and]
  by_cases inside : c.InWindow (c.fatBase fs + i)
  · rw [if_pos inside, splice_inside inside.1 inside.2]
  · rw [if_neg inside]
    exact splice_outside (by unfold Core.InWindow at inside; omega)

/-- Evicting puts the view on the disk, or it was there. -/
theorem evicted_disk (ok : CacheOk c disk fs) (fits : (c.fsMem fs).CopiesFit)
    (low : i < 512 * (c.fsMem fs).fatSectors) :
    ((c.evicted disk).disk disk).data (c.fatBase fs + i) = c.fatView disk fs i := by
  unfold Core.evicted
  split
  · rename_i dirty
    exact writtenBack_disk ok fits (ok.owned dirty.1) low
  · rename_i cleanOrFree
    unfold Core.fatView
    split
    · rename_i held
      have unchanged : c.bufChanged = false := by
        by_contra dirty
        exact cleanOrFree ⟨by simpa using dirty, by simp [held.1]⟩
      exact (ok.clean unchanged held.1 i low held.2).symm
    · rfl

/-- After a fetch the buffer holds the sector asked for, and the view is as it was. -/
theorem fetched_view (ok : CacheOk c disk fs) (fits : (c.fsMem fs).CopiesFit) {w : Nat}
    (inside : w < (c.fsMem fs).fatSectors) :
    let t := c.fetched disk fs ((c.fsMem fs).reservedSectors + w)
    CacheOk t disk fs ∧ t.bufFs = some fs ∧
      t.bufSector = (c.fsMem fs).reservedSectors + w ∧
      ∀ i < 512 * (c.fsMem fs).fatSectors, t.fatView disk fs i = c.fatView disk fs i := by
  by_cases hit : c.bufFs = some fs ∧ c.bufSector = (c.fsMem fs).reservedSectors + w
  · simp only [Core.fetched, if_pos hit]
    exact ⟨ok, hit.1, hit.2, fun _ _ => trivial⟩
  · simp only [Core.fetched, if_neg hit]
    refine ⟨⟨fun _ _ i low window => ?_, fun dirty => ?_, fun _ => ?_⟩, rfl, rfl, fun i low => ?_⟩
    · obtain ⟨at_, below⟩ := window
      simp only [Core.loaded] at at_ below ⊢
      rw [splice_inside (by omega) (by omega), slice_apply]
      congr 1
      omega
    · cases dirty
    · simp only [Core.loaded, evicted_fsMem]
      omega
    · rw [← evicted_disk ok fits low]
      unfold Core.fatView
      simp only [Core.loaded, Core.fatBase, Core.InWindow, evicted_fsMem, true_and]
      split
      · rename_i window
        rw [splice_inside (by omega) (by omega), slice_apply]
        congr 1
        omega
      · rfl

/-- What a fetch leaves of the FAT on the disk: the view, or what was there. -/
theorem fetched_disk (ok : CacheOk c disk fs) (fits : (c.fsMem fs).CopiesFit) (sector : Nat)
    (low : i < 512 * (c.fsMem fs).fatSectors) :
    ((c.fetched disk fs sector).disk disk).data (c.fatBase fs + i) =
        (c.disk disk).data (c.fatBase fs + i) ∨
      ((c.fetched disk fs sector).disk disk).data (c.fatBase fs + i) = c.fatView disk fs i := by
  unfold Core.fetched
  split
  · exact .inl rfl
  · exact .inr (evicted_disk ok fits low)

/-- A store to the buffer is a store to the view. -/
theorem stored_view (ok : CacheOk c disk fs) (holds : c.bufFs = some fs) {w : Nat}
    (sector : c.bufSector = (c.fsMem fs).reservedSectors + w) {offset : Nat} (inSector : offset ≤ 508)
    (next : BitVec 32) :
    CacheOk (c.stored offset next) disk fs ∧
      (c.stored offset next).fatView disk fs =
        putWord (c.fatView disk fs) (512 * w + offset) next := by
  refine ⟨⟨fun unchanged => (by cases unchanged), fun _ => holds, fun _ => ok.window holds⟩, ?_⟩
  funext i
  have base : c.fatBase fs = 512 * (c.fsMem fs).reservedSectors := rfl
  by_cases window : c.InWindow (c.fatBase fs + i)
  · have inBuffer : (c.stored offset next).fatView disk fs i =
        putWord c.buf offset next (c.fatBase fs + i - 512 * c.bufSector) :=
      fatView_window (c := c.stored offset next) holds window
    rw [inBuffer]
    by_cases inEntry : 512 * w + offset ≤ i ∧ i < 512 * w + offset + 4
    · rw [putWord, putWord, splice_inside (by omega) (by omega),
        splice_inside inEntry.1 inEntry.2]
      congr 1
      omega
    · have := window.1
      rw [putWord, putWord, splice_outside (by omega), splice_outside (by omega),
        fatView_window holds window]
  · have onDisk : (c.stored offset next).fatView disk fs i = (c.disk disk).data (c.fatBase fs + i) :=
      fatView_disk (c := c.stored offset next) window
    have apart : i < 512 * w + offset ∨ 512 * w + offset + 4 ≤ i := by
      unfold Core.InWindow at window
      omega
    rw [onDisk, putWord, splice_outside apart, fatView_disk window]

end View

/-! ## Entries -/

section Entries

variable {f : Fs} {cluster : BitVec 32}

/-- Below 2^28 the byte offset of an entry does not wrap. -/
theorem fat32Sector_offset (small : cluster.toNat < 2 ^ 28) :
    512 * fat32Sector cluster + fat32Offset cluster = 4 * cluster.toNat := by
  unfold fat32Sector fat32Offset
  rw [w32_of_lt (by omega)]
  omega

theorem fat32Offset_le (cluster : BitVec 32) : fat32Offset cluster ≤ 508 := by
  unfold fat32Offset w32
  omega

/-- The sector of an entry of the FAT is a sector of the FAT, also where its
offset wraps. -/
theorem fat32Sector_lt (inFat : cluster.toNat < f.fatSectors * 128) :
    fat32Sector cluster < f.fatSectors := by
  unfold fat32Sector w32
  have := Nat.mod_le (cluster.toNat * 4) (2 ^ 32)
  omega

theorem entrySector_eq (cluster : BitVec 32) :
    f.entrySector cluster = f.reservedSectors + fat32Sector cluster := by
  have := f.reservedSectors_lt
  have small : fat32Sector cluster < 2 ^ 23 := by
    unfold fat32Sector
    have := w32_lt (cluster.toNat * 4)
    omega
  rw [Fs.entrySector, w32_of_lt (by omega), Nat.add_comm]

end Entries

/-! ## The refinement -/

/-- A call of one of the three functions. -/
inductive FatRequest where
  | get (cluster : BitVec 32)
  | set (cluster next : BitVec 32)
  | commit

/-- The call, for the file system at `fs` on `disk`, with what `get` returns. -/
def FatRequest.run (disk : DiskId) (fs : FsPtr) : FatRequest → FatM (Option (BitVec 32))
  | .get cluster => do
      let value ← getNextClusterFat32 disk fs cluster
      return some value
  | .set cluster next => do
      setNextClusterFat32 disk fs cluster next
      return none
  | .commit => do
      commitFat32Buffer disk fs
      return none

/-- The cluster numbers that have an entry. -/
def FatRequest.InRange (f : Fs) : FatRequest → Prop
  | .get cluster | .set cluster _ => cluster.toNat < min (f.fatSectors * 128) (2 ^ 28)
  | .commit => True

/-- A plain FAT: an entry for each cluster, and whether it is known to be on the disk. -/
structure Table where
  entry : Nat → BitVec 32
  synced : Bool

/-- What a plain FAT answers, and what becomes of it. -/
def Table.answer (table : Table) : FatRequest → Option (BitVec 32) × Table
  | .get cluster => (some (entryView (table.entry cluster.toNat)), table)
  | .set cluster next =>
      (none, { entry := Function.update table.entry cluster.toNat next, synced := false })
  | .commit => (none, { table with synced := true })

/-- The first FAT copy on the disk, as a table. -/
def Core.diskTable (c : Core) (disk : DiskId) (fs : FsPtr) : Table where
  entry k := word (c.disk disk).data (c.fatBase fs + 4 * k)
  synced := true

section Refinement

variable {disk : DiskId} {fs : FsPtr} {f : Fs} {c : Core} {table : Table}

/-- The core shows the table: its view of the FAT has the table's entries, and a
table that is synced is on the disk. -/
structure ShowsTable (c : Core) (disk : DiskId) (fs : FsPtr) (f : Fs) (table : Table) : Prop where
  fsMem : c.fsMem fs = f
  cache : CacheOk c disk fs
  entries : ∀ k < f.fatSectors * 128, word (c.fatView disk fs) (4 * k) = table.entry k
  synced : table.synced = true → ∀ i < 512 * f.fatSectors,
    (c.disk disk).data (c.fatBase fs + i) = c.fatView disk fs i

namespace ShowsTable

/-- Fetching any sector of the FAT shows the same table. -/
theorem fetched (shows : ShowsTable c disk fs f table) (fits : f.CopiesFit) {w : Nat}
    (inside : w < f.fatSectors) :
    ShowsTable (c.fetched disk fs (f.reservedSectors + w)) disk fs f table ∧
      (c.fetched disk fs (f.reservedSectors + w)).bufFs = some fs ∧
      (c.fetched disk fs (f.reservedSectors + w)).bufSector = f.reservedSectors + w := by
  obtain rfl := shows.fsMem
  obtain ⟨cache, holds, sector, view⟩ := fetched_view shows.cache fits inside
  have base : (c.fetched disk fs ((c.fsMem fs).reservedSectors + w)).fatBase fs = c.fatBase fs := by
    simp [Core.fatBase]
  refine ⟨⟨by rw [fetched_fsMem], cache, fun k low => ?_, fun synced i low => ?_⟩, holds, sector⟩
  · rw [← shows.entries k low]
    exact word_congr fun j _ _ => view j (by omega)
  · -- an eviction writes the view, and the view was on the disk
    rw [base, view i low]
    rcases fetched_disk shows.cache fits ((c.fsMem fs).reservedSectors + w) low with same | written
    · rw [same]
      exact shows.synced synced i low
    · exact written

/-- The buffer's entry of a cluster is the table's. -/
theorem buffer_entry (shows : ShowsTable c disk fs f table) {cluster : BitVec 32}
    (small : cluster.toNat < 2 ^ 28) (inFat : cluster.toNat < f.fatSectors * 128)
    (holds : c.bufFs = some fs) (sector : c.bufSector = f.reservedSectors + fat32Sector cluster) :
    word c.buf (fat32Offset cluster) = table.entry cluster.toNat := by
  obtain rfl := shows.fsMem
  have offset := fat32Sector_offset small
  have base : c.fatBase fs = 512 * (c.fsMem fs).reservedSectors := rfl
  have low := fat32Offset_le cluster
  have viewed : ∀ k < 4, c.buf (fat32Offset cluster + k) =
      c.fatView disk fs (4 * cluster.toNat + k) := by
    intro k few
    have inWindow : c.InWindow (c.fatBase fs + (4 * cluster.toNat + k)) := by
      unfold Core.InWindow
      omega
    rw [fatView_window holds inWindow]
    congr 1
    omega
  rw [← shows.entries _ inFat]
  unfold word
  rw [viewed 3 (by omega), viewed 2 (by omega), viewed 1 (by omega)]
  exact congrArg _ (viewed 0 (by omega))

/-- A store to the buffer's entry of a cluster is an update of the table. -/
theorem stored (shows : ShowsTable c disk fs f table) {cluster : BitVec 32}
    (small : cluster.toNat < 2 ^ 28) (holds : c.bufFs = some fs)
    (sector : c.bufSector = f.reservedSectors + fat32Sector cluster) (next : BitVec 32) :
    ShowsTable (c.stored (fat32Offset cluster) next) disk fs f
      { entry := Function.update table.entry cluster.toNat next, synced := false } := by
  obtain rfl := shows.fsMem
  have offset := fat32Sector_offset small
  obtain ⟨cache, view⟩ := stored_view shows.cache holds sector (fat32Offset_le cluster) next
  refine ⟨rfl, cache, fun k low => ?_, fun synced => by cases synced⟩
  change _ = Function.update table.entry cluster.toNat next k
  rw [view, offset]
  by_cases same : k = cluster.toNat
  · rw [same, Function.update_self, word_putWord]
  · rw [Function.update_of_ne same, word_putWord_of_ne (by omega)]
    exact shows.entries k low

/-- After a commit the table is on the disk. -/
theorem committed (shows : ShowsTable c disk fs f table) (fits : f.CopiesFit) :
    ShowsTable (if c.bufFs = some fs then c.writtenBack disk else c) disk fs f
      { table with synced := true } := by
  obtain rfl := shows.fsMem
  split
  · rename_i holds
    have written := fun i low => writtenBack_disk (i := i) shows.cache fits holds low
    have base : (c.writtenBack disk).fatBase fs = c.fatBase fs := by simp [Core.fatBase]
    have view : ∀ i < 512 * (c.fsMem fs).fatSectors,
        (c.writtenBack disk).fatView disk fs i = c.fatView disk fs i := by
      intro i low
      by_cases inside : c.InWindow (c.fatBase fs + i)
      · rw [fatView_window holds inside,
          fatView_window (by simpa using holds) (by simpa [Core.InWindow, base] using inside)]
        simp [base]
      · rw [fatView_disk (by simpa [Core.InWindow, base] using inside), base, written i low]
    refine ⟨by simp, ⟨fun _ _ i low inside => ?_, fun _ => by simpa using holds, fun _ => ?_⟩,
      fun k low => ?_, fun _ i low => ?_⟩
    · simp only [writtenBack_fsMem] at low
      rw [base, written i low, fatView_window holds (by simpa [Core.InWindow, base] using inside)]
      simp
    · simpa using shows.cache.window holds
    · rw [← shows.entries k low]
      exact word_congr fun j _ _ => view j (by omega)
    · rw [base, written i low, view i low]
  · rename_i free
    refine ⟨rfl, shows.cache, shows.entries, fun _ i _ => ?_⟩
    exact (if_neg fun held => free held.1).symm

end ShowsTable

/-- Each call answers as the table does, and shows the table that results. -/
theorem FatRequest.refines (fits : f.CopiesFit) {s : Machine} (reliable : s.Reliable)
    (shows : ShowsTable s.toCore disk fs f table) {request : FatRequest}
    (inRange : request.InRange f) :
    wp (request.run disk fs)
      (fun answer t => answer = (table.answer request).1 ∧
        t.Reliable ∧ ShowsTable t.toCore disk fs f (table.answer request).2)
      (fun _ _ => False) s := by
  obtain rfl := shows.fsMem
  cases request with
  | get cluster =>
      obtain ⟨inFat, small⟩ := lt_min_iff.1 inRange
      obtain ⟨after, holds, sector⟩ := shows.fetched fits (fat32Sector_lt inFat)
      simp only [FatRequest.run, wp_bind]
      refine wp_mono (getNextClusterFat32_yields disk fs cluster reliable) ?_
        (fun _ _ never => never)
      rintro value t ⟨rfl, io, trace, rfl⟩
      rw [entrySector_eq] at *
      exact ⟨by rw [after.buffer_entry small inFat holds sector]; rfl, reliable.ran, after⟩
  | set cluster next =>
      obtain ⟨inFat, small⟩ := lt_min_iff.1 inRange
      obtain ⟨after, holds, sector⟩ := shows.fetched fits (fat32Sector_lt inFat)
      simp only [FatRequest.run, wp_bind]
      refine wp_mono (setNextClusterFat32_yields disk fs cluster next reliable) ?_
        (fun _ _ never => never)
      rintro value t ⟨-, io, trace, rfl⟩
      rw [entrySector_eq] at *
      exact ⟨rfl, reliable.ran, after.stored small holds sector next⟩
  | commit =>
      simp only [FatRequest.run, wp_bind]
      refine wp_mono (commitFat32Buffer_yields disk fs reliable) ?_ (fun _ _ never => never)
      rintro value t ⟨-, io, trace, rfl⟩
      exact ⟨rfl, reliable.ran, shows.committed fits⟩

/-- **The FAT buffer refines a table.**  On a disk that does not fail, from an
empty buffer, every list of calls on entries of the FAT ends with the answers of
a table that starts as the first FAT copy, and a commit at its end puts that
table on the disk. -/
theorem fat_cache_refines (disk : DiskId) (fs : FsPtr) {m : Machine} (reliable : m.Reliable) (empty : m.bufFs = none)
    (unchanged : m.bufChanged = false) (fits : (m.fsMem fs).CopiesFit)
    {requests : List FatRequest} (inRange : ∀ r ∈ requests, r.InRange (m.fsMem fs)) :
    ∃ t, runAll (FatRequest.run disk fs) requests m =
        some (.ok (answers Table.answer (m.diskTable disk fs) requests).1, t) ∧
      ∀ earlier, requests = earlier ++ [.commit] → ∀ k < (m.fsMem fs).fatSectors * 128,
        (t.diskTable disk fs).entry k =
          (answers Table.answer (m.diskTable disk fs) requests).2.entry k := by
  have start : m.Reliable ∧ ShowsTable m.toCore disk fs (m.fsMem fs) (m.diskTable disk fs) := by
    have view : m.fatView disk fs = fun i => (m.disk disk).data (m.fatBase fs + i) := by
      funext i
      exact if_neg fun held => by simp [empty] at held
    refine ⟨reliable, rfl, ⟨fun _ holds => ?_, fun dirty => ?_, fun holds => ?_⟩, fun k _ => ?_,
      fun _ i _ => ?_⟩
    · simp [empty] at holds
    · simp [unchanged] at dirty
    · simp [empty] at holds
    · rw [view]
      rfl
    · rw [view]
  have ran := simulation Table.answer
    (fun (s : Machine) table => s.Reliable ∧ ShowsTable s.toCore disk fs (m.fsMem fs) table)
    (fun s table request now allowed => FatRequest.refines fits now.1 now.2 allowed)
    requests start inRange
  obtain ⟨outs, t, result, rfl, -, shows⟩ := wp_run ran
  refine ⟨t, result, ?_⟩
  rintro earlier rfl k low
  have synced : (answers Table.answer (m.diskTable disk fs) (earlier ++ [.commit])).2.synced =
      true := by
    rw [answers_append]
    rfl
  rw [← shows.entries k low]
  change word (slice (t.disk disk).data (t.fatBase fs)) (4 * k) = _
  exact word_congr fun i _ _ => shows.synced synced i (by omega)

/-- A set, a get of an entry far behind it, which evicts the first, and a get of the first. -/
def farRequests : List FatRequest := [.set 2 7, .get 1000, .get 2]

theorem fat_cache_refines_far :
    let m := Machine.mounted (fun _ => smallFs 2 16 64) fun _ _ => 0
    ∃ t, runAll (FatRequest.run 0 0) (farRequests ++ [.commit]) m =
        some (.ok [none, some 0, some 7, none], t) ∧ (t.diskTable 0 0).entry 2 = 7 := by
  intro m
  have fits : (m.fsMem 0).CopiesFit := ⟨by decide +kernel, by decide +kernel⟩
  have inRange : ∀ r ∈ farRequests ++ [FatRequest.commit], r.InRange (m.fsMem 0) := by
    have range : ∀ n ∈ [2, 1000, 2], n < min ((m.fsMem 0).fatSectors * 128) (2 ^ 28) := by
      decide +kernel
    intro r member
    simp only [farRequests, List.cons_append, List.nil_append, List.mem_cons, List.not_mem_nil,
      or_false] at member
    rcases member with rfl | rfl | rfl | rfl
    · exact range 2 (by simp)
    · exact range 1000 (by simp)
    · exact range 2 (by simp)
    · trivial
  obtain ⟨t, result, onDisk⟩ := fat_cache_refines 0 0 (mounted_reliable _ _) rfl rfl fits inRange
  refine ⟨t, result, ?_⟩
  rw [onDisk farRequests rfl 2 (by decide +kernel)]
  rfl

/-- The boot sector of `f` is accepted, and on a disk of zeros the last of
`farRequests` does not get what the first of them has set. -/
def LosesUpdate (f : Fs) : Prop :=
  mountFs (bootSector 1 32 f.bpb.numFats 2048 f.bpb.extFatSectors) = some f ∧
    (runAll (FatRequest.run 0 0) farRequests (Machine.mounted (fun _ => f) fun _ _ => 0)).map
        (fun result => result.1.toOption) = some (some [none, some 0, some 0]) ∧
    (answers Table.answer ((Machine.mounted (fun _ => f) fun _ _ => 0).diskTable 0 0)
      farRequests).1 = [none, some 0, some 7]

instance (f : Fs) : Decidable (LosesUpdate f) := inferInstanceAs (Decidable (_ ∧ _ ∧ _))

/-- A volume without FAT copies, and one whose second copy wraps to the first. -/
theorem fat_cache_loses_updates :
    LosesUpdate (smallFs 0 16 32) ∧ LosesUpdate (smallFs 2 0xffffffff 30) := by
  decide +kernel

end Refinement

end TestOs.Fat32
