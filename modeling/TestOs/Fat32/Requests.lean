/-
# Fat32.Requests -- what disk_file_read and disk_file_write return

A request is refused with 0, or the file system moves its bytes.  A status of the
transfer is negative, and on its way through two functions that return a `size_t`
it becomes a large number.  `requests_honest_iff` says exactly when the result can
be believed: when the request is refused, or the transfer has nothing to report.
-/
import TestOs.Library.Scatter
import TestOs.Fat32.Transfer

namespace TestOs.Fat32

open TestOs.Library Prog

set_option autoImplicit false

/-! ## disk.c -/

/-- `KERNEL_DISK_ID_START` and `KERNEL_DISK_ID_END`. -/
def diskIdStart : Nat := 0x3a61
def diskIdEnd : Nat := 0x3a7a

/-- `find_disk_by_id`, on the ids of `disk_list`. -/
def findDiskById (diskList : List DiskId) (id : Nat) : Option DiskId :=
  diskList.find? (· = id % 2 ^ 16)

/-- `int fs_ret = result; return fs_ret;` in a function that returns a `size_t`. -/
def throughInt (result : Nat) : Nat := (BitVec.ofInt 32 (BitVec.ofNat 32 result).toInt).toNat

/-- The disk that a request on an open file goes to.  `fs_file_read` and
`fs_file_write` are set together with `fs`. -/
def fileDisk (diskList : List DiskId) (m : Machine) (id length : Nat) : Option DiskId :=
  if length ≠ 0 ∧ diskIdStart ≤ id ∧ id ≤ diskIdEnd then
    (findDiskById diskList id).filter fun disk => (m.disk disk).fs.isSome
  else none

/-- `disk_file_read` of a handle that says it is on disk `id`. -/
def diskFileRead (diskList : List DiskId) (id : Nat) (file : FatFile) (buf : Bytes)
    (offset length : BitVec 32) : FatM (Nat × Bytes) := do
  match fileDisk diskList (← state) id length.toNat with
  | none => return (0, buf)
  | some disk =>
      let (fsRet, buf) ← fat32FileRead disk file buf offset.toNat length.toNat
      return (throughInt fsRet, buf)

/-- `disk_file_write`. -/
def diskFileWrite (diskList : List DiskId) (id : Nat) (buf : Bytes) (offset length : BitVec 32) :
    FileM Nat := do
  match fileDisk diskList (← state).1 id length.toNat with
  | none => return 0
  | some disk =>
      let fsRet ← fat32FileWrite disk buf offset.toNat length.toNat
      return throughInt fsRet

theorem throughInt_of_lt {result : Nat} (small : result < 2 ^ 32) : throughInt result = result := by
  rw [throughInt, BitVec.ofInt_toInt, BitVec.toNat_ofNat, Nat.mod_eq_of_lt small]

theorem sizeOfError_ne_zero (e : FatError) : throughInt (sizeOfError e) ≠ 0 := by
  cases e <;> decide

/-! ## The places of a request -/

namespace FatFile

variable (file : FatFile)

/-- The blocklist has an entry for a cluster of the file, and it is not 0. -/
def HasBlock (q : Nat) : Prop :=
  ∃ blocks, file.blocklist = some blocks ∧ q < file.blocklistSize ∧ blocks q ≠ 0

def blockAt (q : Nat) : BitVec 32 := (file.blocklist.getD fun _ => 0) q

end FatFile

/-- The byte of the disk that holds the byte `place.2` of the file's cluster `place.1`. -/
def Fs.byteAt (f : Fs) (file : FatFile) (place : Nat × Nat) : Nat :=
  f.clusterStart (file.blockAt place.1) + place.2

/-- Where the byte `i` of a range from the start of cluster `q` on is. -/
def bodyPlace (clusterSize q i : Nat) : Nat × Nat := (q + i / clusterSize, i % clusterSize)

/-- The part of a request that lies in a cluster it does not start in. -/
def Fs.headLen (f : Fs) (offset : Nat) : Nat :=
  if offset &&& (f.clusterSize - 1) = 0 then 0 else f.clusterSize - (offset &&& (f.clusterSize - 1))

/-- The first cluster that a request has from its start on. -/
def Fs.bodyStart (f : Fs) (offset : Nat) : Nat :=
  if offset &&& (f.clusterSize - 1) = 0 then offset / f.clusterSize else offset / f.clusterSize + 1

/-- Where `fat32_file_rw` has the byte `i` of a request. -/
def Fs.place (f : Fs) (offset i : Nat) : Nat × Nat :=
  if i < f.headLen offset then (offset / f.clusterSize, (offset &&& (f.clusterSize - 1)) + i)
  else bodyPlace f.clusterSize (f.bodyStart offset) (i - f.headLen offset)

theorem Fs.place_firstPart (f : Fs) {offset : Nat} (inside : offset &&& (f.clusterSize - 1) ≠ 0) (i : Nat) :
    f.place offset i =
      if i < f.clusterSize - (offset &&& (f.clusterSize - 1)) then
        (offset / f.clusterSize, (offset &&& (f.clusterSize - 1)) + i)
      else bodyPlace f.clusterSize (offset / f.clusterSize + 1)
        (i - (f.clusterSize - (offset &&& (f.clusterSize - 1)))) := by
  rw [Fs.place, Fs.headLen, Fs.bodyStart, if_neg inside, if_neg inside]

/-- With a power of two it is where the file has it. -/
theorem place_eq {f : Fs} (power : PowerOfTwo f) (offset i : Nat) :
    f.place offset i = ((offset + i) / f.clusterSize, (offset + i) % f.clusterSize) := by
  have size := power.size
  have low := Nat.mod_lt offset size
  have whole := Nat.div_add_mod offset f.clusterSize
  unfold Fs.place Fs.headLen Fs.bodyStart bodyPlace
  rw [power.mask]
  generalize offset / f.clusterSize = q at whole ⊢
  generalize offset % f.clusterSize = r at whole low ⊢
  by_cases aligned : r = 0
  · rw [if_pos aligned, if_pos aligned, if_neg (Nat.not_lt_zero i), Nat.sub_zero, ← whole, aligned,
      Nat.add_zero, Nat.mul_add_div size, Nat.mul_add_mod]
  · rw [if_neg aligned, if_neg aligned]
    by_cases head : i < f.clusterSize - r
    · rw [if_pos head, ← whole, Nat.add_assoc, Nat.mul_add_div size, Nat.mul_add_mod,
        Nat.div_eq_of_lt (by omega), Nat.mod_eq_of_lt (by omega), Nat.add_zero]
    · rw [if_neg head]
      have behind : offset + i = f.clusterSize * (q + 1) + (i - (f.clusterSize - r)) := by
        rw [Nat.mul_add, Nat.mul_one]
        omega
      rw [behind, Nat.mul_add_div size, Nat.mul_add_mod]

/-! ## What a transfer moves -/

/-- `n` bytes of the disk, the byte `i` from `at_ i`, went to `p` in the buffer, or from there
to the disk, in so many device operations. -/
def Moved (isWrite : Bool) (disk : DiskId) (s : Machine) (at_ : Nat → Nat) (p n ops : Nat)
    (buf buf' : Bytes) (t : Machine) : Prop :=
  ∃ data trace, t = s.ran (s.toCore.setData disk data) (s.io + ops) trace ∧
    match isWrite with
    | true => buf' = buf ∧ Stored at_ (slice buf p) n (s.disk disk).data data
    | false => data = (s.disk disk).data ∧
        buf' = splice buf p (fun i => (s.disk disk).data (at_ i)) n

section Moving

variable {isWrite : Bool} {disk : DiskId} {s t u : Machine} {at_ at_' : Nat → Nat}
  {p n n' ops ops' : Nat} {buf buf' buf'' : Bytes}

theorem Moved.fsMem (moved : Moved isWrite disk s at_ p n ops buf buf' t) : t.fsMem = s.fsMem := by
  obtain ⟨data, trace, rfl, -⟩ := moved
  rfl

theorem Moved.io (moved : Moved isWrite disk s at_ p n ops buf buf' t) : t.io = s.io + ops := by
  obtain ⟨data, trace, rfl, -⟩ := moved
  rfl

theorem Moved.world (moved : Moved isWrite disk s at_ p n ops buf buf' t) : t.world = s.world := by
  obtain ⟨data, trace, rfl, -⟩ := moved
  rfl

theorem Moved.nothing (isWrite : Bool) (disk : DiskId) (s : Machine) (at_ : Nat → Nat) (p : Nat)
    (buf : Bytes) : Moved isWrite disk s at_ p 0 0 buf buf s := by
  refine ⟨(s.disk disk).data, s.trace, by simp [Machine.ran], ?_⟩
  cases isWrite with
  | true => exact ⟨rfl, .refl _ _ _⟩
  | false => exact ⟨rfl, splice_zero.symm⟩

theorem Moved.congr (moved : Moved isWrite disk s at_ p n ops buf buf' t)
    (same : ∀ i < n, at_ i = at_' i) : Moved isWrite disk s at_' p n ops buf buf' t := by
  obtain ⟨data, trace, ran, moved⟩ := moved
  refine ⟨data, trace, ran, ?_⟩
  cases isWrite with
  | true => exact ⟨moved.1, moved.2.congr same⟩
  | false =>
    obtain ⟨unchanged, isBuf⟩ := moved
    refine ⟨unchanged, isBuf.trans (splice_congr fun i below => ?_)⟩
    rw [same i below]

/-- One transfer after the other. -/
theorem Moved.append (first : Moved isWrite disk s at_ p n ops buf buf' t)
    (second : Moved isWrite disk t (fun i => at_ (n + i)) (p + n) n' ops' buf' buf'' u) :
    Moved isWrite disk s at_ p (n + n') (ops + ops') buf buf'' u := by
  obtain ⟨data, trace, rfl, moved⟩ := first
  obtain ⟨data', trace', rfl, moved'⟩ := second
  refine ⟨data', trace', by simp [Nat.add_assoc], ?_⟩
  cases isWrite with
  | true =>
    obtain ⟨rfl, stored⟩ := moved
    obtain ⟨rfl, stored'⟩ := moved'
    simp only [ran_toCore, setData_data, ← slice_slice] at stored'
    exact ⟨rfl, stored.append stored'⟩
  | false =>
    obtain ⟨rfl, rfl⟩ := moved
    obtain ⟨rfl, rfl⟩ := moved'
    refine ⟨by simp, ?_⟩
    simp only [ran_toCore, setData_data]
    exact splice_splice n'

end Moving

/-! ## One cluster -/

section Cluster

variable {isWrite : Bool} {disk : DiskId} {fs : FsPtr} {s : Machine} {file : FatFile}
  {cluster : BitVec 32} {buf : Bytes} {p q offset len : Nat}

/-- A program that ends well on a condition, and only on it, ends as it does on it. -/
theorem ends_on {α : Type} {prog : FatM α} {good : Prop} {spec post : α → Machine → Prop}
    (does : good → wp prog spec (fun _ _ => False) s)
    (only : wp prog (fun _ _ => True) (fun _ _ => False) s → good)
    (ends : wp prog post (fun _ _ => False) s) : good ∧ ∃ a t, spec a t ∧ post a t := by
  have holds := only (wp_mono ends (fun _ _ _ => trivial) fun _ _ never => never)
  obtain ⟨a, t, -, both⟩ := wp_run (wp_mono (wp_and (does holds) ends) (fun _ _ both => both)
    fun _ _ never => never.1)
  exact ⟨holds, a, t, both⟩

theorem needCluster_ends {post : BitVec 32 → Machine → Prop} :
    wp (needCluster file q) post (fun _ _ => False) s ↔ file.HasBlock q ∧ post (file.blockAt q) s := by
  unfold needCluster fileGetCluster FatFile.HasBlock FatFile.blockAt
  by_cases behind : file.blocklistSize ≤ q
  · simp [behind, Nat.not_lt.2 behind]
  · rw [if_neg behind]
    cases isList : file.blocklist with
    | none => simp
    | some blocks =>
      by_cases zero : blocks q = 0
      · simp [zero]
      · have entry : ¬ blocks q = 0#32 := zero
        simp [entry, Nat.lt_of_not_le behind]

/-- The device operations of a part of a cluster. -/
def partOps (isWrite : Bool) : Nat := if isWrite then 2 else 1

/-- A device operation that reports nothing has moved everything. -/
theorem transferred_of_quiet (quiet : s.world.fault s.io = none) (count : Nat) :
    s.transferred count = count := by
  rw [Machine.transferred, quiet]

theorem readCluster_ends {post : Bytes → Machine → Prop} :
    wp (readCluster disk fs buf p cluster) post (fun _ _ => False) s ↔
      s.world.fault s.io = none ∧
        post (splice buf p (slice (s.disk disk).data ((s.fsMem fs).clusterStart cluster))
          (s.fsMem fs).clusterSize) (s.ran s.toCore (s.io + 1) s.trace) := by
  unfold readCluster
  simp only [wp_bind, wp_readFs, wp_deviceRead]
  by_cases quiet : s.world.fault s.io = none
  · rw [transferred_of_quiet quiet, quiet, Fs.clusterSize, Nat.mul_comm _ 512]
    simp [Fs.clusterStart]
  · have failed : (s.world.fault s.io).isNone = false := by
      rw [Bool.eq_false_iff]
      exact fun isNone => quiet (Option.isNone_iff_eq_none.1 isNone)
    simp [failed, quiet]

theorem writeCluster_ends {post : Unit → Machine → Prop} :
    wp (writeCluster disk fs buf p cluster) post (fun _ _ => False) s ↔
      s.world.fault s.io = none ∧
        post () (s.ran (s.toCore.setData disk (splice (s.disk disk).data
            ((s.fsMem fs).clusterStart cluster) (slice buf p) (s.fsMem fs).clusterSize))
          (s.io + 1) (.write s.toCore disk (getDataClusterOffset (s.fsMem fs) cluster)
            (s.fsMem fs).clusterSectors :: s.trace)) := by
  unfold writeCluster
  simp only [wp_bind, wp_readFs, wp_deviceWrite]
  by_cases quiet : s.world.fault s.io = none
  · rw [transferred_of_quiet quiet, quiet, Fs.clusterSize, Nat.mul_comm _ 512]
    simp [Fs.clusterStart]
  · have failed : (s.world.fault s.io).isNone = false := by
      rw [Bool.eq_false_iff]
      exact fun isNone => quiet (Option.isNone_iff_eq_none.1 isNone)
    simp [failed, quiet]

/-- A whole cluster. -/
theorem rwCluster_moves (quiet : s.world.fault s.io = none) :
    wp (rwCluster isWrite disk fs buf p cluster)
      (Moved isWrite disk s (fun i => (s.fsMem fs).clusterStart cluster + i) p
        (s.fsMem fs).clusterSize 1 buf) (fun _ _ => False) s := by
  unfold rwCluster
  cases isWrite with
  | true =>
    simp only [if_true, wp_bind, writeCluster_ends, wp_pure]
    exact ⟨quiet, _, _, rfl, rfl, .block _ _ _ _ fun _ _ => rfl⟩
  | false =>
    simp only [Bool.false_eq_true, if_false, readCluster_ends]
    refine ⟨quiet, (s.disk disk).data, s.trace, ?_, rfl, rfl⟩
    rw [setData_self]

theorem rwCluster_quiet
    (ends : wp (rwCluster isWrite disk fs buf p cluster) (fun _ _ => True) (fun _ _ => False) s) :
    s.world.fault s.io = none := by
  unfold rwCluster at ends
  cases isWrite with
  | true =>
    simp only [if_true, wp_bind, writeCluster_ends] at ends
    exact ends.1
  | false =>
    simp only [Bool.false_eq_true, if_false, readCluster_ends] at ends
    exact ends.1

/-- Reading a cluster and writing it back with a part of it changed. -/
theorem splice_part {data src : Bytes} {start size : Nat} (fits : offset + len ≤ size) :
    splice data start (slice (splice (splice (fun _ => 0) 0 (slice data start) size) offset src len) 0)
      size = splice data (start + offset) src len := by
  rw [slice_zero, ← splice_through fits]
  refine splice_congr fun i low => ?_
  by_cases inside : offset ≤ i ∧ i < offset + len
  · rw [splice_inside inside.1 inside.2, splice_inside inside.1 inside.2]
  · have outside : i < offset ∨ offset + len ≤ i := by omega
    rw [splice_outside outside, splice_outside outside, splice_inside (by omega) (by omega),
      Nat.sub_zero]

/-- A part of a cluster. -/
theorem rwClusterPart_moves (fits : offset + len ≤ (s.fsMem fs).clusterSize)
    (quiet : ∀ k < partOps isWrite, s.world.fault (s.io + k) = none) :
    wp (rwClusterPart isWrite disk fs buf p cluster offset len)
      (Moved isWrite disk s (fun i => (s.fsMem fs).clusterStart cluster + (offset + i)) p len
        (partOps isWrite) buf) (fun _ _ => False) s := by
  have small : w32 (offset + len) ≤ (s.fsMem fs).clusterSize := (Nat.mod_le _ _).trans fits
  unfold rwClusterPart
  cases isWrite with
  | true =>
    simp only [if_true, wp_bind, writeClusterPart, wp_readFs, wp_ensure, readCluster_ends,
      writeCluster_ends, wp_pure]
    refine ⟨small, quiet 0 (by decide), quiet 1 (by decide), ?_⟩
    simp only [ran_ran, ran_toCore, ran_trace, ran_io, splice_part fits]
    exact ⟨_, _, rfl, rfl, .block _ _ _ _ fun i _ => (Nat.add_assoc ..).symm⟩
  | false =>
    simp only [Bool.false_eq_true, if_false, readClusterPart, wp_bind, wp_readFs, wp_ensure,
      readCluster_ends, wp_pure]
    refine ⟨small, quiet 0 (by decide), (s.disk disk).data, s.trace, ?_, rfl, ?_⟩
    · rw [setData_self]
      rfl
    · refine splice_congr fun i below => ?_
      rw [slice_apply, splice_inside (by omega) (by omega), slice_apply, Nat.sub_zero]

theorem rwClusterPart_quiet
    (ends : wp (rwClusterPart isWrite disk fs buf p cluster offset len) (fun _ _ => True)
      (fun _ _ => False) s) :
    ∀ k < partOps isWrite, s.world.fault (s.io + k) = none := by
  unfold rwClusterPart at ends
  intro k few
  cases isWrite with
  | true =>
    simp only [if_true, wp_bind, writeClusterPart, wp_readFs, wp_ensure, readCluster_ends,
      writeCluster_ends] at ends
    obtain ⟨-, first, second, -⟩ := ends
    have isK : k = 0 ∨ k = 1 := by
      simp only [partOps, if_true] at few
      omega
    rcases isK with rfl | rfl
    · exact first
    · exact second
  | false =>
    simp only [Bool.false_eq_true, if_false, readClusterPart, wp_bind, wp_readFs, wp_ensure,
      readCluster_ends] at ends
    obtain rfl : k = 0 := by simpa [partOps] using few
    exact ends.2.1

end Cluster

/-! ## Whole clusters, and the part behind them -/

/-- The device operations for `n` bytes from the start of a cluster on. -/
def bodyOps (isWrite : Bool) (clusterSize n : Nat) : Nat :=
  n / clusterSize + if n % clusterSize = 0 then 0 else partOps isWrite

/-- Nothing is in the way of `n` bytes from the start of cluster `q` on, and of device
operation `io` and those behind it. -/
structure Clear (isWrite : Bool) (fault : Nat → Option Nat) (file : FatFile)
    (clusterSize io q n : Nat) : Prop where
  blocks : ∀ i < n, file.HasBlock (bodyPlace clusterSize q i).1
  quiet : ∀ k < bodyOps isWrite clusterSize n, fault (io + k) = none

section Body

variable {isWrite : Bool} {fault : Nat → Option Nat} {file : FatFile} {clusterSize io q n : Nat}

theorem bodyOps_whole (size : 0 < clusterSize) (rest : Nat) :
    bodyOps isWrite clusterSize (clusterSize + rest) = bodyOps isWrite clusterSize rest + 1 := by
  unfold bodyOps
  rw [Nat.add_mod_left, Nat.add_div_left _ size]
  omega

theorem bodyOps_part (some_ : n ≠ 0) (short : n < clusterSize) :
    bodyOps isWrite clusterSize n = partOps isWrite := by
  unfold bodyOps
  rw [Nat.div_eq_of_lt short, Nat.mod_eq_of_lt short, if_neg some_, Nat.zero_add]

theorem bodyPlace_whole (size : 0 < clusterSize) (i : Nat) :
    bodyPlace clusterSize q (clusterSize + i) = bodyPlace clusterSize (q + 1) i := by
  unfold bodyPlace
  rw [Nat.add_mod_left, Nat.add_div_left _ size]
  congr 1
  omega

theorem bodyPlace_low {i : Nat} (low : i < clusterSize) : bodyPlace clusterSize q i = (q, i) := by
  unfold bodyPlace
  rw [Nat.div_eq_of_lt low, Nat.mod_eq_of_lt low, Nat.add_zero]

theorem clear_whole (size : 0 < clusterSize) (whole : clusterSize ≤ n) :
    Clear isWrite fault file clusterSize io q n ↔
      file.HasBlock q ∧ fault io = none ∧
        Clear isWrite fault file clusterSize (io + 1) (q + 1) (n - clusterSize) := by
  obtain ⟨rest, rfl⟩ : ∃ rest, n = clusterSize + rest := ⟨n - clusterSize, by omega⟩
  have ops := @bodyOps_whole isWrite _ size rest
  rw [Nat.add_sub_cancel_left]
  constructor
  · rintro ⟨blocks, quiet⟩
    rw [ops] at quiet
    refine ⟨?_, quiet 0 (by omega), fun i below => ?_, fun k few => ?_⟩
    · have block := blocks 0 (by omega)
      rwa [bodyPlace_low size] at block
    · rw [← bodyPlace_whole size]
      exact blocks _ (by omega)
    · rw [Nat.add_assoc, Nat.add_comm 1]
      exact quiet (k + 1) (by omega)
  · rintro ⟨block, quiet, clear⟩
    refine ⟨fun i below => ?_, fun k few => ?_⟩
    · by_cases low : i < clusterSize
      · rw [bodyPlace_low low]
        exact block
      · obtain ⟨j, rfl⟩ : ∃ j, i = clusterSize + j := ⟨i - clusterSize, by omega⟩
        rw [bodyPlace_whole size]
        exact clear.blocks j (by omega)
    · rw [ops] at few
      cases k with
      | zero => exact quiet
      | succ k =>
        rw [Nat.add_comm k, ← Nat.add_assoc]
        exact clear.quiet k (by omega)

theorem clear_part (some_ : n ≠ 0) (short : n < clusterSize) :
    Clear isWrite fault file clusterSize io q n ↔
      file.HasBlock q ∧ ∀ k < partOps isWrite, fault (io + k) = none := by
  have ops := @bodyOps_part isWrite _ _ some_ short
  constructor
  · rintro ⟨blocks, quiet⟩
    rw [ops] at quiet
    refine ⟨?_, quiet⟩
    have block := blocks 0 (by omega)
    rwa [bodyPlace_low (by omega)] at block
  · rintro ⟨block, quiet⟩
    refine ⟨fun i below => ?_, ?_⟩
    · rw [bodyPlace_low (by omega)]
      exact block
    · rw [ops]
      exact quiet

end Body

section Loop

variable {isWrite : Bool} {disk : DiskId} {fs : FsPtr} {file : FatFile} {buf : Bytes}
  {p q n fuel : Nat}

/-- Where the loop has the bytes of its range. -/
def bodyBytes (f : Fs) (file : FatFile) (q i : Nat) : Nat := f.byteAt file (bodyPlace f.clusterSize q i)

theorem small_next {clusterSize bound : Nat} (size : 0 < clusterSize) (whole : clusterSize ≤ n)
    (small : q + n / clusterSize < bound) :
    q + 1 < bound ∧ q + 1 + (n - clusterSize) / clusterSize < bound := by
  have quotient : n / clusterSize = (n - clusterSize) / clusterSize + 1 := by
    rw [← Nat.add_div_right _ size, Nat.sub_add_cancel whole]
  rw [quotient] at small
  generalize (n - clusterSize) / clusterSize = rest at small ⊢
  omega

/-- The loop moves its bytes when nothing is in the way. -/
theorem rwClusters_moves {s : Machine} (size : 0 < (s.fsMem fs).clusterSize) (enough : n < fuel)
    (small : q + n / (s.fsMem fs).clusterSize < 2 ^ 32)
    (clear : Clear isWrite s.world.fault file (s.fsMem fs).clusterSize s.io q n) :
    wp (rwClusters isWrite disk fs file (s.fsMem fs).clusterSize fuel q p n buf)
      (Moved isWrite disk s (bodyBytes (s.fsMem fs) file q) p n
        (bodyOps isWrite (s.fsMem fs).clusterSize n) buf) (fun _ _ => False) s := by
  induction fuel generalizing s q p n buf with
  | zero => omega
  | succ fuel ih =>
    rw [rwClusters]
    by_cases whole : (s.fsMem fs).clusterSize ≤ n
    · obtain ⟨block, quiet, rest⟩ := (clear_whole size whole).1 clear
      simp only [if_pos whole, wp_bind, needCluster_ends]
      refine ⟨block, wp_mono (rwCluster_moves quiet) ?_ fun _ _ never => never⟩
      intro buf' t moved
      obtain ⟨next, small⟩ := small_next size whole small
      rw [w32_of_lt next]
      have later : wp (rwClusters isWrite disk fs file (t.fsMem fs).clusterSize fuel (q + 1)
          (p + (s.fsMem fs).clusterSize) (n - (s.fsMem fs).clusterSize) buf') _ _ t :=
        ih (by rwa [moved.fsMem]) (by omega) (by rwa [moved.fsMem])
          (by rwa [moved.fsMem, moved.world, moved.io])
      rw [moved.fsMem] at later
      refine wp_mono later (fun buf'' u moved' => ?_) fun _ _ never => never
      have here : Moved isWrite disk s (bodyBytes (s.fsMem fs) file q) p (s.fsMem fs).clusterSize 1
          buf buf' t := moved.congr fun i low => by
        unfold bodyBytes Fs.byteAt
        rw [bodyPlace_low low]
      have there : Moved isWrite disk t
          (fun i => bodyBytes (s.fsMem fs) file q ((s.fsMem fs).clusterSize + i)) _ _ _ buf' buf'' u :=
        moved'.congr fun i _ => by
          unfold bodyBytes
          rw [bodyPlace_whole size]
      have both := here.append there
      rw [Nat.add_comm 1, ← bodyOps_whole size, Nat.add_sub_cancel' whole] at both
      exact both
    · rw [if_neg whole]
      by_cases none_ : n = 0
      · subst none_
        rw [if_pos rfl]
        have none : bodyOps isWrite (s.fsMem fs).clusterSize 0 = 0 := by
          unfold bodyOps
          simp
        rw [none]
        exact .nothing _ _ _ _ _ _
      · rw [if_neg none_]
        obtain ⟨block, quiet⟩ := (clear_part none_ (by omega)).1 clear
        simp only [wp_bind, needCluster_ends]
        refine ⟨block, wp_mono (rwClusterPart_moves (by omega) quiet) ?_ fun _ _ never => never⟩
        intro buf' t moved
        rw [bodyOps_part none_ (by omega)]
        apply moved.congr
        intro i low
        unfold bodyBytes Fs.byteAt
        rw [bodyPlace_low (by omega), Nat.zero_add]

/-- It ends with a value only then. -/
theorem rwClusters_clear {s : Machine} (size : 0 < (s.fsMem fs).clusterSize)
    (small : q + n / (s.fsMem fs).clusterSize < 2 ^ 32)
    (ends : wp (rwClusters isWrite disk fs file (s.fsMem fs).clusterSize fuel q p n buf)
      (fun _ _ => True) (fun _ _ => False) s) :
    Clear isWrite s.world.fault file (s.fsMem fs).clusterSize s.io q n := by
  induction fuel generalizing s q p n buf with
  | zero => exact ends.elim
  | succ fuel ih =>
    rw [rwClusters] at ends
    by_cases whole : (s.fsMem fs).clusterSize ≤ n
    · simp only [if_pos whole, wp_bind, needCluster_ends] at ends
      obtain ⟨block, ends⟩ := ends
      obtain ⟨quiet, buf', t, moved, later⟩ := ends_on rwCluster_moves rwCluster_quiet ends
      obtain ⟨next, small⟩ := small_next size whole small
      rw [w32_of_lt next, ← moved.fsMem] at later
      have rest := ih (by rwa [moved.fsMem]) (by rwa [moved.fsMem]) later
      rw [moved.fsMem, moved.world, moved.io] at rest
      exact (clear_whole size whole).2 ⟨block, quiet, rest⟩
    · rw [if_neg whole] at ends
      by_cases none_ : n = 0
      · subst none_
        refine ⟨fun i below => absurd below (Nat.not_lt_zero i), fun k few => ?_⟩
        simp [bodyOps] at few
      · rw [if_neg none_] at ends
        simp only [wp_bind, needCluster_ends] at ends
        obtain ⟨block, ends⟩ := ends
        exact (clear_part none_ (by omega)).2 ⟨block, rwClusterPart_quiet ends⟩

end Loop

/-! ## The whole transfer -/

/-- The device operations for the part that a request starts with. -/
def Fs.headOps (f : Fs) (isWrite : Bool) (offset : Nat) : Nat :=
  if offset &&& (f.clusterSize - 1) = 0 then 0 else partOps isWrite

/-- The device operations of a request. -/
def Fs.transferOps (f : Fs) (isWrite : Bool) (offset len : Nat) : Nat :=
  f.headOps isWrite offset + bodyOps isWrite f.clusterSize (len - f.headLen offset)

/-- Each byte of the request has a block, and none of its device operations fails. -/
structure Transferable (isWrite : Bool) (m : Machine) (f : Fs) (file : FatFile) (offset len : Nat) :
    Prop where
  size : 0 < f.clusterSize
  blocks : ∀ i < len, file.HasBlock (f.place offset i).1
  quiet : ∀ k < f.transferOps isWrite offset len, m.world.fault (m.io + k) = none

section Whole

variable {isWrite : Bool} {disk : DiskId} {fs : FsPtr} {f : Fs} {m : Machine} {file : FatFile}
  {buf : Bytes} {offset len : Nat}

theorem mask_lt (size : 0 < f.clusterSize) (offset : Nat) :
    offset &&& (f.clusterSize - 1) < f.clusterSize := by
  have low := @Nat.and_le_right offset (f.clusterSize - 1)
  omega

/-- The part that the request starts with, and the rest. -/
theorem transferable_iff (some_ : 0 < len) (size : 0 < f.clusterSize) :
    Transferable isWrite m f file offset len ↔
      (offset &&& (f.clusterSize - 1) ≠ 0 → file.HasBlock (offset / f.clusterSize) ∧
        ∀ k < partOps isWrite, m.world.fault (m.io + k) = none) ∧
      Clear isWrite m.world.fault file f.clusterSize (m.io + f.headOps isWrite offset)
        (f.bodyStart offset) (len - f.headLen offset) := by
  have low := mask_lt size offset
  constructor
  · rintro ⟨-, blocks, quiet⟩
    refine ⟨fun partial_ => ⟨?_, fun k few => ?_⟩, fun i below => ?_, fun k few => ?_⟩
    · have block := blocks 0 some_
      have head : 0 < f.headLen offset := by
        rw [Fs.headLen, if_neg partial_]
        omega
      rwa [Fs.place, if_pos head] at block
    · apply quiet
      rw [Fs.transferOps, Fs.headOps, if_neg partial_]
      omega
    · have block := blocks (f.headLen offset + i) (by omega)
      rwa [Fs.place, if_neg (by omega), Nat.add_sub_cancel_left] at block
    · rw [Nat.add_assoc]
      apply quiet
      rw [Fs.transferOps]
      omega
  · rintro ⟨head, clear⟩
    refine ⟨size, fun i below => ?_, fun k few => ?_⟩
    · unfold Fs.place
      split
      · next inHead =>
        apply (head ?_).1
        intro aligned
        rw [Fs.headLen, if_pos aligned] at inHead
        omega
      · exact clear.blocks _ (by omega)
    · by_cases early : k < f.headOps isWrite offset
      · have partial_ : offset &&& (f.clusterSize - 1) ≠ 0 := by
          intro aligned
          rw [Fs.headOps, if_pos aligned] at early
          omega
        rw [Fs.headOps, if_neg partial_] at early
        exact (head partial_).2 k early
      · obtain ⟨l, rfl⟩ : ∃ l, k = f.headOps isWrite offset + l := ⟨_, (Nat.add_sub_of_le (not_lt.1 early)).symm⟩
        rw [← Nat.add_assoc]
        apply clear.quiet
        rw [Fs.transferOps] at few
        omega

/-- No cluster number of a request wraps. -/
theorem cluster_small (size : 0 < f.clusterSize) (offset len : BitVec 32) (n : Nat) (short : n ≤ len.toNat) :
    offset.toNat / f.clusterSize + 1 + n / f.clusterSize < 2 ^ 32 := by
  have large : 512 ≤ f.clusterSize := by
    unfold Fs.clusterSize at size ⊢
    omega
  have first : offset.toNat / f.clusterSize ≤ offset.toNat / 512 :=
    Nat.div_le_div_left large (by decide)
  have second : n / f.clusterSize ≤ n / 512 := Nat.div_le_div_left large (by decide)
  generalize offset.toNat / f.clusterSize = a at first ⊢
  generalize n / f.clusterSize = b at second ⊢
  omega

/-- The transfer moves the bytes of the request when nothing is in the way. -/
theorem rw_moves {offset len : BitVec 32} (mounted : (m.disk disk).fs = some fs) (some_ : 0 < len.toNat)
    (can : Transferable isWrite m (m.fsMem fs) file offset.toNat len.toNat) :
    wp (fat32FileRw disk file buf offset.toNat len.toNat isWrite)
      (Moved isWrite disk m (fun i => (m.fsMem fs).byteAt file ((m.fsMem fs).place offset.toNat i)) 0
        len.toNat ((m.fsMem fs).transferOps isWrite offset.toNat len.toNat) buf)
      (fun _ _ => False) m := by
  have size := can.size
  have low := mask_lt size offset.toNat
  have noWrap := cluster_small size offset len
  obtain ⟨head, clear⟩ := (transferable_iff some_ size).1 can
  unfold fat32FileRw
  simp only [wp_bind, wp_mountedFs mounted, wp_readFs, wp_divide]
  refine ⟨size.ne', ?_⟩
  by_cases aligned : offset.toNat &&& ((m.fsMem fs).clusterSize - 1) = 0
  · have noHead : (m.fsMem fs).headLen offset.toNat = 0 := if_pos aligned
    have noOps : (m.fsMem fs).headOps isWrite offset.toNat = 0 := if_pos aligned
    have start : (m.fsMem fs).bodyStart offset.toNat = offset.toNat / (m.fsMem fs).clusterSize :=
      if_pos aligned
    rw [noHead, noOps, start] at clear
    rw [if_neg (not_not.2 aligned), Fs.transferOps, noHead, noOps, Nat.zero_add, Nat.sub_zero]
    have small := noWrap len.toNat le_rfl
    refine wp_mono (rwClusters_moves size (Nat.lt_succ_self _) (by omega) clear) ?_
      fun _ _ never => never
    intro buf' t moved
    apply moved.congr
    intro i below
    rw [Fs.place, noHead, if_neg (Nat.not_lt_zero i), start, Nat.sub_zero]
    rfl
  · have isHead : (m.fsMem fs).headLen offset.toNat =
        (m.fsMem fs).clusterSize - (offset.toNat &&& ((m.fsMem fs).clusterSize - 1)) := if_neg aligned
    have isOps : (m.fsMem fs).headOps isWrite offset.toNat = partOps isWrite := if_neg aligned
    have start : (m.fsMem fs).bodyStart offset.toNat = offset.toNat / (m.fsMem fs).clusterSize + 1 :=
      if_neg aligned
    obtain ⟨block, quiet⟩ := head aligned
    have isPlace (i : Nat) := (m.fsMem fs).place_firstPart aligned i
    rw [isOps, start, isHead] at clear
    rw [if_pos aligned, Fs.transferOps, isOps, isHead]
    simp only [isPlace, wp_bind, needCluster_ends]
    generalize (offset.toNat &&& ((m.fsMem fs).clusterSize - 1)) = r at low clear ⊢
    generalize offset.toNat / (m.fsMem fs).clusterSize = q at noWrap block clear ⊢
    have count : min len.toNat ((m.fsMem fs).clusterSize - r) ≤ (m.fsMem fs).clusterSize - r :=
      Nat.min_le_right ..
    have isRest : len.toNat - ((m.fsMem fs).clusterSize - r) =
        len.toNat - min len.toNat ((m.fsMem fs).clusterSize - r) := by omega
    have full (i : Nat) (below : i < len.toNat - min len.toNat ((m.fsMem fs).clusterSize - r)) :
        min len.toNat ((m.fsMem fs).clusterSize - r) = (m.fsMem fs).clusterSize - r := by omega
    have short : min len.toNat ((m.fsMem fs).clusterSize - r) ≤ len.toNat := Nat.min_le_left ..
    rw [isRest] at clear ⊢
    generalize min len.toNat ((m.fsMem fs).clusterSize - r) = first at count full short clear ⊢
    have small := noWrap (len.toNat - first) (Nat.sub_le _ _)
    obtain ⟨rest, isLen⟩ : ∃ rest, len.toNat = first + rest := ⟨_, (Nat.add_sub_of_le short).symm⟩
    rw [isLen, Nat.add_sub_cancel_left] at clear full small ⊢
    refine ⟨block, wp_mono (rwClusterPart_moves (by omega) quiet) ?_ fun _ _ never => never⟩
    intro buf' t moved
    rw [w32_of_lt (lt_of_le_of_lt (Nat.le_add_right _ _) small)]
    have later : wp (rwClusters isWrite disk fs file (t.fsMem fs).clusterSize (first + rest + 1) (q + 1)
        first rest buf') _ _ t :=
      rwClusters_moves (by rwa [moved.fsMem]) (by omega) (by rwa [moved.fsMem])
        (by rwa [moved.fsMem, moved.world, moved.io])
    rw [moved.fsMem] at later
    refine wp_mono later (fun buf'' u moved' => ?_) fun _ _ never => never
    apply Moved.append
    · apply moved.congr
      intro i below
      rw [if_pos (by omega)]
      rfl
    · rw [Nat.zero_add]
      apply moved'.congr
      intro i below
      have isFirst := full i below
      rw [if_neg (by omega), ← isFirst, Nat.add_sub_cancel_left]
      rfl

/-- It ends with a value only then. -/
theorem rw_transferable {offset len : BitVec 32} (mounted : (m.disk disk).fs = some fs)
    (some_ : 0 < len.toNat)
    (ends : wp (fat32FileRw disk file buf offset.toNat len.toNat isWrite) (fun _ _ => True)
      (fun _ _ => False) m) :
    Transferable isWrite m (m.fsMem fs) file offset.toNat len.toNat := by
  unfold fat32FileRw at ends
  simp only [wp_bind, wp_mountedFs mounted, wp_readFs, wp_divide] at ends
  obtain ⟨nonzero, ends⟩ := ends
  have size : 0 < (m.fsMem fs).clusterSize := Nat.pos_of_ne_zero nonzero
  have noWrap := cluster_small size offset len
  rw [transferable_iff some_ size]
  by_cases aligned : offset.toNat &&& ((m.fsMem fs).clusterSize - 1) = 0
  · have noHead : (m.fsMem fs).headLen offset.toNat = 0 := if_pos aligned
    have noOps : (m.fsMem fs).headOps isWrite offset.toNat = 0 := if_pos aligned
    have start : (m.fsMem fs).bodyStart offset.toNat = offset.toNat / (m.fsMem fs).clusterSize :=
      if_pos aligned
    rw [if_neg (not_not.2 aligned)] at ends
    rw [noHead, noOps, start, Nat.sub_zero]
    have small := noWrap len.toNat le_rfl
    exact ⟨fun partial_ => absurd aligned partial_, rwClusters_clear size (by omega) ends⟩
  · have isHead : (m.fsMem fs).headLen offset.toNat =
        (m.fsMem fs).clusterSize - (offset.toNat &&& ((m.fsMem fs).clusterSize - 1)) := if_neg aligned
    have isOps : (m.fsMem fs).headOps isWrite offset.toNat = partOps isWrite := if_neg aligned
    have start : (m.fsMem fs).bodyStart offset.toNat = offset.toNat / (m.fsMem fs).clusterSize + 1 :=
      if_neg aligned
    rw [isHead, isOps, start]
    rw [if_pos aligned] at ends
    simp only [wp_bind, needCluster_ends] at ends
    obtain ⟨block, ends⟩ := ends
    have low := mask_lt size offset.toNat
    generalize (offset.toNat &&& ((m.fsMem fs).clusterSize - 1)) = r at low ends ⊢
    generalize offset.toNat / (m.fsMem fs).clusterSize = q at noWrap block ends ⊢
    have isRest : len.toNat - ((m.fsMem fs).clusterSize - r) =
        len.toNat - min len.toNat ((m.fsMem fs).clusterSize - r) := by omega
    have small := noWrap _ (Nat.sub_le len.toNat (min len.toNat ((m.fsMem fs).clusterSize - r)))
    obtain ⟨quiet, buf', t, moved, later⟩ :=
      ends_on (rwClusterPart_moves (by omega)) rwClusterPart_quiet ends
    rw [w32_of_lt (lt_of_le_of_lt (Nat.le_add_right _ _) small), ← moved.fsMem] at later
    have rest := rwClusters_clear (by rwa [moved.fsMem]) (by rwa [moved.fsMem]) later
    rw [moved.fsMem, moved.world, moved.io] at rest
    rw [isRest]
    exact ⟨fun _ => ⟨block, quiet⟩, rest⟩

end Whole

/-! ## Honest results -/

/-- The result of a request for `length` bytes. -/
structure HonestResult (length result : Nat) (transferred failed : Prop) : Prop where
  value : result = 0 ∨ result = length
  complete : result = length → transferred
  noError : failed → result = 0

section Honest

variable (diskList : List DiskId) (id : Nat) (m : Machine) (file : FatFile) (offset length : BitVec 32)

/-- The state in which `disk_file_read` starts its transfer, if it does. -/
def ReadStarts (disk : DiskId) (s : Machine × FatFile) : Prop :=
  fileDisk diskList m id length.toNat = some disk ∧
    ¬ file.size < w32 (offset.toNat + length.toNat) ∧ s = (m, file)

/-- The state in which `disk_file_write` does: the one in which the file was extended, if
it has to be. -/
def WriteStarts (disk : DiskId) (s : Machine × FatFile) : Prop :=
  fileDisk diskList m id length.toNat = some disk ∧
    if file.size < w32 (offset.toNat + length.toNat) then
      fat32ExtendFile disk (w32 (offset.toNat + length.toNat)) (m, file) = some (.ok (), s)
    else s = (m, file)

/-- The transfer reports an error. -/
def TransferFails (isWrite : Bool) (disk : DiskId) (s : Machine × FatFile) (buf : Bytes) : Prop :=
  ∃ e t, fat32FileRw disk s.2 buf offset.toNat length.toNat isWrite s.1 = some (.error e, t)

/-- Nothing is in the way of the transfer. -/
def CanTransfer (isWrite : Bool) (disk : DiskId) (s : Machine × FatFile) : Prop :=
  ∃ fs, (s.1.disk disk).fs = some fs ∧
    Transferable isWrite s.1 (s.1.fsMem fs) s.2 offset.toNat length.toNat

/-- What is asked of the result of a read, and of the buffer behind it. -/
def ReadAnswer (buf : Bytes) (answer : Nat × Bytes) : Prop :=
  HonestResult length.toNat answer.1
    (∀ disk fs, fileDisk diskList m id length.toNat = some disk → (m.disk disk).fs = some fs →
      ∀ i < length.toNat, answer.2 i =
        (m.disk disk).data ((m.fsMem fs).byteAt file ((m.fsMem fs).place offset.toNat i)))
    (∃ disk s, ReadStarts diskList id m file offset length disk s ∧
      TransferFails offset length false disk s buf)

/-- The bytes of the request are on the disk, each unless a later one has its place. -/
def OnDisk (buf : Bytes) (disk : DiskId) (t : Machine) (file : FatFile) : Prop :=
  ∀ fs, (t.disk disk).fs = some fs → ∀ i < length.toNat,
    (∀ k, i < k → k < length.toNat →
      (t.fsMem fs).byteAt file ((t.fsMem fs).place offset.toNat k) ≠
        (t.fsMem fs).byteAt file ((t.fsMem fs).place offset.toNat i)) →
    (t.disk disk).data ((t.fsMem fs).byteAt file ((t.fsMem fs).place offset.toNat i)) = buf i

/-- What is asked of the result of a write, and of the state behind it. -/
def WriteAnswer (buf : Bytes) (result : Nat) (t : Machine × FatFile) : Prop :=
  HonestResult length.toNat result
    (∀ disk, fileDisk diskList m id length.toNat = some disk → OnDisk offset length buf disk t.1 t.2)
    (∃ disk s, WriteStarts diskList id m file offset length disk s ∧
      TransferFails offset length true disk s buf)

/-- `disk_file_read` returns, with an honest result, whatever the buffer holds. -/
def HonestRead : Prop := ∀ buf,
  wp (diskFileRead diskList id file buf offset length)
    (fun answer _ => ReadAnswer diskList id m file offset length buf answer) (fun _ _ => False) m

/-- `disk_file_write` does, whatever is to be written. -/
def HonestWrite : Prop := ∀ buf,
  wp (diskFileWrite diskList id buf offset length)
    (WriteAnswer diskList id m file offset length buf) (fun _ _ => False) (m, file)

end Honest

section Results

variable {diskList : List DiskId} {id : Nat} {m : Machine} {file : FatFile} {offset length : BitVec 32}
  {disk : DiskId} {isWrite : Bool} {buf : Bytes} {s : Machine × FatFile}

theorem fileDisk_some (isDisk : fileDisk diskList m id length.toNat = some disk) :
    0 < length.toNat ∧ ∃ fs, (m.disk disk).fs = some fs := by
  unfold fileDisk at isDisk
  split at isDisk
  · next range =>
    obtain ⟨-, mounted⟩ := Option.filter_eq_some_iff.1 isDisk
    exact ⟨Nat.pos_of_ne_zero range.1, Option.isSome_iff_exists.1 mounted⟩
  · cases isDisk

/-- A result of 0 is honest. -/
theorem honest_zero {transferred failed : Prop} (vacuous : length.toNat = 0 → transferred) :
    HonestResult length.toNat 0 transferred failed :=
  ⟨.inl rfl, fun zero => vacuous zero.symm, fun _ => rfl⟩

/-- A transfer that can be made does not fail. -/
theorem CanTransfer.succeeds (can : CanTransfer offset length isWrite disk s)
    (some_ : 0 < length.toNat) : ¬ TransferFails offset length isWrite disk s buf := by
  rintro ⟨e, t, fails⟩
  obtain ⟨fs, mounted, transferable⟩ := can
  have moves := @rw_moves isWrite disk fs s.1 s.2 buf offset length mounted some_ transferable
  unfold wp at moves
  rw [fails] at moves
  exact moves

/-- A transfer that ends, and not with an error, could be made. -/
theorem canTransfer_of_ends {post : Bytes → Machine → Prop} {onFail : FatError → Machine → Prop}
    (some_ : 0 < length.toNat)
    (ends : wp (fat32FileRw disk s.2 buf offset.toNat length.toNat isWrite) post onFail s.1)
    (honest : ¬ TransferFails offset length isWrite disk s buf) :
    CanTransfer offset length isWrite disk s := by
  cases mounted : (s.1.disk disk).fs with
  | none =>
    unfold fat32FileRw mountedFs at ends
    simp only [wp_bind, wp_state, mounted, wp_halt] at ends
  | some fs =>
    refine ⟨fs, mounted, @rw_transferable _ _ _ _ _ buf _ _ mounted some_ ?_⟩
    rcases wp_iff_run.1 ends with ⟨a, t, run, -⟩ | ⟨e, t, run, -⟩
    · exact wp_iff_run.2 (.inl ⟨a, t, run, trivial⟩)
    · exact absurd ⟨e, t, run⟩ honest

theorem wp_error {α σ : Type} {p : Prog σ FatError α} {x : σ} {post : α → σ → Prop}
    {onFail : FatError → σ → Prop} {e : FatError} {y : σ} (holds : wp p post onFail x)
    (run : p x = some (.error e, y)) : onFail e y := by
  unfold wp at holds
  rwa [run] at holds

theorem wp_value {α σ : Type} {p : Prog σ FatError α} {x : σ} {post : α → σ → Prop}
    {onFail : FatError → σ → Prop} {a : α} {y : σ} (holds : wp p post onFail x)
    (run : p x = some (.ok a, y)) : post a y := by
  unfold wp at holds
  rwa [run] at holds

/-- **The result of a read is honest exactly when the request is refused, or nothing is in
the way of the transfer.** -/
theorem honestRead_iff :
    HonestRead diskList id m file offset length ↔
      ∀ disk s, ReadStarts diskList id m file offset length disk s →
        CanTransfer offset length false disk s := by
  constructor
  · rintro honest disk _ ⟨isDisk, inSize, rfl⟩
    obtain ⟨some_, -⟩ := fileDisk_some isDisk
    have answers := honest fun _ => 0
    unfold diskFileRead fat32FileRead at answers
    simp only [wp_bind, wp_state, isDisk, if_neg inSize, wp_attempt] at answers
    refine @canTransfer_of_ends offset length disk false _ (m, file) _ _ some_ answers ?_
    rintro ⟨e, t, fails⟩
    have answer : HonestResult _ _ _ _ := wp_error answers fails
    exact sizeOfError_ne_zero e
      (answer.noError ⟨disk, _, ⟨isDisk, inSize, rfl⟩, e, t, fails⟩)
  · intro can buf
    unfold diskFileRead fat32FileRead
    simp only [wp_bind, wp_state]
    cases isDisk : fileDisk diskList m id length.toNat with
    | none =>
      apply honest_zero
      intro _ disk fs found
      cases isDisk.symm.trans found
    | some disk =>
      obtain ⟨some_, -⟩ := fileDisk_some isDisk
      by_cases over_ : file.size < w32 (offset.toNat + length.toNat)
      · simp only [if_pos over_, wp_bind, wp_pure]
        apply honest_zero
        intro zero
        omega
      · simp only [if_neg over_, wp_bind, wp_attempt]
        have canHere := can disk (m, file) ⟨isDisk, over_, rfl⟩
        obtain ⟨fs, mounted, transferable⟩ := canHere
        refine wp_mono (rw_moves mounted some_ transferable) ?_ fun _ _ never => never.elim
        intro buf' t moved
        obtain ⟨-, -, -, -, isBuf⟩ := moved
        rw [wp_pure, wp_pure, throughInt_of_lt length.isLt]
        refine ⟨.inr rfl, ?_, ?_⟩
        · rintro - disk' fs' found mounted' i below
          obtain rfl : disk = disk' := Option.some.inj (isDisk.symm.trans found)
          obtain rfl : fs = fs' := Option.some.inj (mounted.symm.trans mounted')
          have byte := @splice_at buf (fun i => (m.disk disk).data
            ((m.fsMem fs).byteAt file ((m.fsMem fs).place offset.toNat i))) 0 length.toNat i below
          rw [Nat.zero_add, ← isBuf] at byte
          exact byte
        · rintro ⟨disk', s, ⟨found, inSize, rfl⟩, fails⟩
          obtain rfl : disk = disk' := Option.some.inj (isDisk.symm.trans found)
          exact absurd fails (CanTransfer.succeeds ⟨fs, mounted, transferable⟩ some_)

/-- `fat32_file_write` by its cases. -/
theorem wp_fat32FileWrite {post : Nat → Machine × FatFile → Prop} :
    wp (fat32FileWrite disk buf offset.toNat length.toNat) post (fun _ _ => False) (m, file) ↔
      if file.size < w32 (offset.toNat + length.toNat) then
        wp (fat32ExtendFile disk (w32 (offset.toNat + length.toNat)))
          (fun _ s => wp (fat32FileRw disk s.2 buf offset.toNat length.toNat true)
            (fun _ t => post length.toNat (t, s.2)) (fun e t => post (sizeOfError e) (t, s.2)) s.1)
          (fun _ s => post 0 s) (m, file)
      else
        wp (fat32FileRw disk file buf offset.toNat length.toNat true)
          (fun _ t => post length.toNat (t, file)) (fun e t => post (sizeOfError e) (t, file)) m := by
  unfold fat32FileWrite fat32FileWriteWith
  by_cases over_ : file.size < w32 (offset.toNat + length.toNat)
  · simp only [wp_bind, wp_theFile, if_pos over_, wp_attempt]
    refine iff_of_eq (congrArg₂ (fun values errors => wp _ values errors (m, file)) ?_ rfl)
    funext _ s
    obtain ⟨t, extended⟩ := s
    simp only [wp_theFile, wp_lift, wp_pure]
  · simp only [wp_bind, wp_theFile, if_neg over_, wp_lift, wp_attempt]
    rfl

/-- The transfer of a write leaves its bytes on the disk. -/
theorem CanTransfer.onDisk (can : CanTransfer offset length true disk s) (some_ : 0 < length.toNat) :
    wp (fat32FileRw disk s.2 buf offset.toNat length.toNat true)
      (fun _ t => OnDisk offset length buf disk t s.2) (fun _ _ => False) s.1 := by
  obtain ⟨fs, mounted, transferable⟩ := can
  refine wp_mono (rw_moves mounted some_ transferable) ?_ fun _ _ never => never
  rintro - t ⟨data, trace, rfl, -, stored⟩ fs' mounted' i below unique
  rw [ran_toCore, setData_fs] at mounted'
  obtain rfl : fs = fs' := Option.some.inj (mounted.symm.trans mounted')
  rw [ran_toCore, setData_data]
  rw [slice_zero] at stored
  exact stored.last i below unique

/-- The state in which a write starts is known from the handle and the machine. -/
theorem WriteStarts.unique {s' : Machine × FatFile} {disk' : DiskId}
    (starts : WriteStarts diskList id m file offset length disk s)
    (starts' : WriteStarts diskList id m file offset length disk' s') : disk = disk' ∧ s = s' := by
  obtain ⟨isDisk, isStart⟩ := starts
  obtain ⟨isDisk', isStart'⟩ := starts'
  obtain rfl : disk = disk' := Option.some.inj (isDisk.symm.trans isDisk')
  refine ⟨rfl, ?_⟩
  split at isStart
  · next over_ =>
    rw [if_pos over_, isStart] at isStart'
    simpa using isStart'
  · next inSize =>
    rw [if_neg inSize] at isStart'
    exact isStart.trans isStart'.symm

/-- **The result of a write is honest exactly when the request is refused, or the file
cannot be extended, or nothing is in the way of the transfer.** -/
theorem honestWrite_iff :
    HonestWrite diskList id m file offset length ↔
      (∀ disk, fileDisk diskList m id length.toNat = some disk →
        file.size < w32 (offset.toNat + length.toNat) →
        wp (fat32ExtendFile disk (w32 (offset.toNat + length.toNat))) (fun _ _ => True)
          (fun _ _ => True) (m, file)) ∧
      ∀ disk s, WriteStarts diskList id m file offset length disk s →
        CanTransfer offset length true disk s := by
  constructor
  · intro honest
    have answers := honest fun _ => 0
    unfold diskFileWrite at answers
    simp only [wp_bind, wp_state] at answers
    refine ⟨fun disk isDisk over_ => ?_, ?_⟩
    · simp only [isDisk, wp_bind, wp_pure, wp_fat32FileWrite, if_pos over_] at answers
      exact wp_mono answers (fun _ _ _ => trivial) fun _ _ _ => trivial
    · rintro disk s starts
      have isDisk := starts.1
      obtain ⟨some_, -⟩ := fileDisk_some isDisk
      simp only [isDisk, wp_bind, wp_pure, wp_fat32FileWrite] at answers
      have transfer : wp (fat32FileRw disk s.2 (fun _ => 0) offset.toNat length.toNat true)
          (fun _ t => WriteAnswer diskList id m file offset length (fun _ => 0)
            (throughInt length.toNat) (t, s.2))
          (fun e t => WriteAnswer diskList id m file offset length (fun _ => 0)
            (throughInt (sizeOfError e)) (t, s.2)) s.1 := by
        have isStart := starts.2
        split at isStart
        · next over_ =>
          rw [if_pos over_] at answers
          have transfer := wp_value answers isStart
          exact transfer
        · next inSize =>
          rw [if_neg inSize] at answers
          rw [isStart]
          exact answers
      refine canTransfer_of_ends some_ transfer ?_
      rintro ⟨e, t, fails⟩
      have answer : WriteAnswer _ _ _ _ _ _ _ _ _ := wp_error transfer fails
      exact sizeOfError_ne_zero e (answer.noError ⟨disk, s, starts, e, t, fails⟩)
  · rintro ⟨extends_, can⟩ buf
    unfold diskFileWrite
    simp only [wp_bind, wp_state]
    cases isDisk : fileDisk diskList m id length.toNat with
    | none =>
      apply honest_zero
      intro _ disk found
      cases isDisk.symm.trans found
    | some disk =>
      obtain ⟨some_, -⟩ := fileDisk_some isDisk
      have transfer (s : Machine × FatFile) (starts : WriteStarts diskList id m file offset length disk s) :
          wp (fat32FileRw disk s.2 buf offset.toNat length.toNat true)
            (fun _ t => WriteAnswer diskList id m file offset length buf
              (throughInt length.toNat) (t, s.2))
            (fun e t => WriteAnswer diskList id m file offset length buf
              (throughInt (sizeOfError e)) (t, s.2)) s.1 := by
        have canHere := can disk s starts
        refine wp_mono (canHere.onDisk some_) (fun _ t onDisk => ?_) fun _ _ never => never.elim
        rw [throughInt_of_lt length.isLt]
        refine ⟨.inr rfl, ?_, ?_⟩
        · rintro - disk' found
          obtain rfl : disk = disk' := Option.some.inj (isDisk.symm.trans found)
          exact onDisk
        · rintro ⟨disk', s', starts', fails⟩
          obtain ⟨rfl, rfl⟩ := starts.unique starts'
          exact absurd fails (canHere.succeeds some_)
      simp only [wp_bind, wp_pure]
      rw [wp_fat32FileWrite]
      split
      · next over_ =>
        rcases wp_iff_run.1 (extends_ disk isDisk over_) with ⟨_, s, run, -⟩ | ⟨e, s, run, -⟩
        · refine wp_iff_run.2 (.inl ⟨_, s, run, transfer s ⟨isDisk, ?_⟩⟩)
          rw [if_pos over_]
          exact run
        · refine wp_iff_run.2 (.inr ⟨e, s, run, honest_zero fun zero => ?_⟩)
          omega
      · next inSize =>
        exact transfer (m, file) ⟨isDisk, by rw [if_neg inSize]⟩

end Results

/-- **Results are honest, 0 or the length with every byte transferred and no error as a
large number, exactly when no transfer starts that something is in the way of.** -/
theorem requests_honest_iff (diskList : List DiskId) (id : Nat) (m : Machine) (file : FatFile)
    (offset length : BitVec 32) :
    (HonestRead diskList id m file offset length ↔
      ∀ disk s, ReadStarts diskList id m file offset length disk s →
        CanTransfer offset length false disk s) ∧
    (HonestWrite diskList id m file offset length ↔
      (∀ disk, fileDisk diskList m id length.toNat = some disk →
        file.size < w32 (offset.toNat + length.toNat) →
        wp (fat32ExtendFile disk (w32 (offset.toNat + length.toNat))) (fun _ _ => True)
          (fun _ _ => True) (m, file)) ∧
      ∀ disk s, WriteStarts diskList id m file offset length disk s →
        CanTransfer offset length true disk s) :=
  ⟨honestRead_iff, honestWrite_iff⟩

/-- A volume on disk `a:` whose device fails at once. -/
def brokenDevice : Machine :=
  let m := Machine.mounted (fun _ => smallFs 2 16 64) fun _ _ => 0
  { m with world := { m.world with fault := fun _ => some 0 } }

/-- A read of 100 bytes from it returns 4294967294. -/
theorem failed_read_is_large :
    wp (diskFileRead [diskIdStart] diskIdStart twoBlocks (fun _ => 0) 0 100)
        (fun answer _ => answer.1 = 0xfffffffe) (fun _ _ => False) brokenDevice ∧
      ¬ HonestRead [diskIdStart] diskIdStart brokenDevice twoBlocks 0 100 := by
  have isDisk : fileDisk [diskIdStart] brokenDevice diskIdStart (100 : BitVec 32).toNat =
      some diskIdStart := by decide
  have inSize : ¬ twoBlocks.size < w32 ((0 : BitVec 32).toNat + (100 : BitVec 32).toNat) := by decide
  have broken : brokenDevice.world.fault brokenDevice.io ≠ none := by decide
  have large : wp (diskFileRead [diskIdStart] diskIdStart twoBlocks (fun _ => 0) 0 100)
      (fun answer _ => answer.1 = 0xfffffffe) (fun _ _ => False) brokenDevice := by
    unfold diskFileRead fat32FileRead
    simp only [wp_bind, wp_state, isDisk, if_neg inSize, wp_attempt]
    rfl
  refine ⟨large, fun honest => ?_⟩
  obtain ⟨fs, -, can⟩ := honestRead_iff.1 honest diskIdStart _ ⟨isDisk, inSize, rfl⟩
  have some_op : 0 < (smallFs 2 16 64).transferOps false 0 100 := by decide +kernel
  exact broken (can.quiet 0 some_op)

end TestOs.Fat32
