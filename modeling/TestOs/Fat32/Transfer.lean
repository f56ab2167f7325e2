/-
# Fat32.Transfer -- what fat32_file_rw does to a file

`fileView` is the contents of a file: byte `j` is byte `j % clusterSize` of the
cluster that the blocklist has for block `j / clusterSize`.  In these terms a
transfer is one `splice`, however the request falls on the clusters: each of its
pieces is a splice of the view (`view_splice`), and the pieces follow each other.
Only the bytes of the file's own clusters change.
-/
import TestOs.Fat32.Cache
import TestOs.Fat32.Files

namespace TestOs.Fat32

open TestOs.Library Prog

set_option autoImplicit false

/-! ## Clusters on the disk -/

/-- A cluster of the data region, with sector numbers that fit 32 bits. -/
def Fs.DataCluster (f : Fs) (cluster : BitVec 32) : Prop :=
  2 ≤ cluster.toNat ∧
    f.firstDataCluster.toNat + f.clusterSectors * (cluster.toNat - 2) + f.clusterSectors ≤ 2 ^ 32

/-- The first byte of a cluster. -/
def Fs.clusterStart (f : Fs) (cluster : BitVec 32) : Nat := 512 * getDataClusterOffset f cluster

/-- A byte of a cluster. -/
def Fs.InCluster (f : Fs) (cluster : BitVec 32) (i : Nat) : Prop :=
  f.clusterStart cluster ≤ i ∧ i < f.clusterStart cluster + f.clusterSize

section Clusters

variable {f : Fs} {cluster cluster' : BitVec 32}

theorem getDataClusterOffset_eq (valid : f.DataCluster cluster) :
    getDataClusterOffset f cluster =
      f.firstDataCluster.toNat + f.clusterSectors * (cluster.toNat - 2) ∨ f.clusterSectors = 0 := by
  obtain ⟨above, below⟩ := valid
  by_cases empty : f.clusterSectors = 0
  · exact .inr empty
  · left
    have minus : (cluster - 2).toNat = cluster.toNat - 2 := by bv_omega
    have sectors : (f.bpb.clusterSectors.setWidth 32).toNat = f.clusterSectors := by
      simp [Fs.clusterSectors, Nat.mod_eq_of_lt
        (show f.bpb.clusterSectors.toNat < 4294967296 by have := f.bpb.clusterSectors.isLt; omega)]
    have product : (f.bpb.clusterSectors.setWidth 32 * (cluster - 2)).toNat =
        f.clusterSectors * (cluster.toNat - 2) := by
      rw [BitVec.toNat_mul, minus, sectors, Nat.mod_eq_of_lt (by omega)]
    rw [getDataClusterOffset, BitVec.toNat_add, product, Nat.mod_eq_of_lt (by omega)]

/-- Two clusters share no byte. -/
theorem clusters_disjoint (valid : f.DataCluster cluster) (valid' : f.DataCluster cluster')
    (apart : cluster ≠ cluster') {i : Nat} (inside : f.InCluster cluster i) :
    ¬ f.InCluster cluster' i := by
  intro inside'
  unfold Fs.InCluster Fs.clusterStart Fs.clusterSize at *
  rcases getDataClusterOffset_eq valid with start | empty
  · rcases getDataClusterOffset_eq valid' with start' | empty
    · rw [start] at inside
      rw [start'] at inside'
      have numbers : cluster.toNat ≠ cluster'.toNat := fun same => apart (BitVec.eq_of_toNat_eq same)
      obtain ⟨two, -⟩ := valid
      obtain ⟨two', -⟩ := valid'
      rcases Nat.lt_or_gt_of_ne numbers with less | less
      · have := Nat.mul_le_mul_left f.clusterSectors (by omega :
          cluster.toNat - 2 + 1 ≤ cluster'.toNat - 2)
        rw [Nat.mul_add, Nat.mul_one] at this
        omega
      · have := Nat.mul_le_mul_left f.clusterSectors (by omega :
          cluster'.toNat - 2 + 1 ≤ cluster.toNat - 2)
        rw [Nat.mul_add, Nat.mul_one] at this
        omega
    · rw [empty] at inside
      omega
  · rw [empty] at inside
    omega

end Clusters

/-! ## Files as one range of bytes -/

/-- The contents of a file with these clusters. -/
def fileView (f : Fs) (blocks : Blocklist) (data : Bytes) : Bytes := fun j =>
  data (f.clusterStart (blocks (j / f.clusterSize)) + j % f.clusterSize)

/-- The first `count` blocks of a file are distinct clusters of the data region. -/
structure Blocks (f : Fs) (blocks : Blocklist) (count : Nat) : Prop where
  valid : ∀ i < count, f.DataCluster (blocks i)
  distinct : ∀ i < count, ∀ j < count, blocks i = blocks j → i = j

/-- Bytes outside the blocks of a file are the same. -/
def SameOutsideFile (f : Fs) (blocks : Blocklist) (count : Nat) (before after : Bytes) : Prop :=
  ∀ i, (∀ q < count, ¬ f.InCluster (blocks q) i) → after i = before i

section View

variable {f : Fs} {blocks : Blocklist} {count : Nat} {data src : Bytes}

/-- Writing a part of a block writes that part of the file. -/
theorem view_splice (good : Blocks f blocks count) {q offset len : Nat} (inFile : q < count)
    (fits : offset + len ≤ f.clusterSize) {j : Nat} (below : j < count * f.clusterSize) :
    fileView f blocks (splice data (f.clusterStart (blocks q) + offset) src len) j =
      splice (fileView f blocks data) (q * f.clusterSize + offset) src len j := by
  have size : 0 < f.clusterSize := Nat.pos_of_mul_pos_left (by omega : 0 < count * f.clusterSize)
  have block : j / f.clusterSize < count := Nat.div_lt_of_lt_mul (by rwa [Nat.mul_comm])
  have rest := Nat.mod_lt j size
  have whole := Nat.div_add_mod j f.clusterSize
  rw [Nat.mul_comm] at whole
  unfold fileView
  by_cases same : j / f.clusterSize = q
  · rw [same] at whole ⊢
    by_cases inside : offset ≤ j % f.clusterSize ∧ j % f.clusterSize < offset + len
    · rw [splice_inside (by omega) (by omega), splice_inside (by omega) (by omega)]
      congr 1
      omega
    · rw [splice_outside (by omega), splice_outside (by omega), same]
  · -- another block: elsewhere on the disk, and elsewhere in the file
    have apart : blocks (j / f.clusterSize) ≠ blocks q := fun eq =>
      same (good.distinct _ block _ inFile eq)
    have elsewhere := clusters_disjoint (good.valid _ block) (good.valid _ inFile) apart
      (i := f.clusterStart (blocks (j / f.clusterSize)) + j % f.clusterSize)
      ⟨by omega, by omega⟩
    rw [splice_outside (by unfold Fs.InCluster at elsewhere; omega), splice_outside]
    rcases Nat.lt_or_gt_of_ne same with less | less
    · have := Nat.mul_le_mul_right f.clusterSize (by omega : j / f.clusterSize + 1 ≤ q)
      rw [Nat.add_mul, Nat.one_mul] at this
      omega
    · have := Nat.mul_le_mul_right f.clusterSize (by omega : q + 1 ≤ j / f.clusterSize)
      rw [Nat.add_mul, Nat.one_mul] at this
      omega

theorem splice_outsideFile {q offset len : Nat} (inFile : q < count)
    (fits : offset + len ≤ f.clusterSize) :
    SameOutsideFile f blocks count data
      (splice data (f.clusterStart (blocks q) + offset) src len) := by
  intro i outside
  have := outside q inFile
  unfold Fs.InCluster at this
  exact splice_outside (by omega)

theorem SameOutsideFile.trans {data' data'' : Bytes}
    (first : SameOutsideFile f blocks count data data')
    (second : SameOutsideFile f blocks count data' data'') :
    SameOutsideFile f blocks count data data'' :=
  fun i outside => (second i outside).trans (first i outside)

/-- The bytes of one block, as the file has them. -/
theorem view_block {q : Nat} {i : Nat} (low : i < f.clusterSize) :
    fileView f blocks data (q * f.clusterSize + i) = data (f.clusterStart (blocks q) + i) := by
  have size : 0 < f.clusterSize := by omega
  unfold fileView
  rw [Nat.mul_comm, Nat.mul_add_div size, Nat.mul_add_mod, Nat.div_eq_of_lt low,
    Nat.mod_eq_of_lt low, Nat.add_zero]

/-- What writing a range of a file makes of the disk. -/
structure Written (f : Fs) (blocks : Blocklist) (count at_ : Nat) (src : Bytes) (len : Nat)
    (before after : Bytes) : Prop where
  view : ∀ j < count * f.clusterSize,
    fileView f blocks after j = splice (fileView f blocks before) at_ src len j
  outside : SameOutsideFile f blocks count before after

namespace Written

theorem part (data src : Bytes) (good : Blocks f blocks count) {q offset len : Nat}
    (inFile : q < count) (fits : offset + len ≤ f.clusterSize) :
    Written f blocks count (q * f.clusterSize + offset) src len data
      (splice data (f.clusterStart (blocks q) + offset) src len) where
  view _ below := view_splice good inFile fits below
  outside := splice_outsideFile inFile fits

theorem nothing (at_ : Nat) (src : Bytes) : Written f blocks count at_ src 0 data data where
  view j _ := by rw [splice_zero]
  outside _ _ := rfl

/-- Two ranges that follow each other, from one source. -/
theorem append {at_ len len' : Nat} {data' data'' : Bytes}
    (first : Written f blocks count at_ src len data data')
    (second : Written f blocks count (at_ + len) (slice src len) len' data' data'') :
    Written f blocks count at_ src (len + len') data data'' where
  view j below := by
    rw [second.view j below, ← splice_splice]
    by_cases inside : at_ + len ≤ j ∧ j < at_ + len + len'
    · rw [splice_inside inside.1 inside.2, splice_inside inside.1 inside.2]
    · have outside : j < at_ + len ∨ at_ + len + len' ≤ j := by omega
      rw [splice_outside outside, splice_outside outside, first.view j below]
  outside := first.outside.trans second.outside

end Written

end View

/-! ## The helpers of fat32_file_rw -/

section Helpers

variable {s : Machine} {disk : DiskId} {fs : FsPtr} {cluster : BitVec 32} {buf : Bytes}
  {p offset len : Nat}

theorem readCluster_yields (reliable : s.Reliable) :
    Yields (readCluster disk fs buf p cluster) s
      (splice buf p (slice (s.disk disk).data ((s.fsMem fs).clusterStart cluster))
        (s.fsMem fs).clusterSize) s.toCore := by
  unfold Yields readCluster
  simp only [wp_bind, wp_readFs, wp_deviceRead, reliable.isNone, reliable.transferred, if_true,
    wp_pure]
  refine ⟨?_, _, _, rfl⟩
  rw [Fs.clusterSize, Nat.mul_comm _ 512]
  rfl

theorem writeCluster_yields (reliable : s.Reliable) :
    Yields (writeCluster disk fs buf p cluster) s ()
      (s.toCore.setData disk (splice (s.disk disk).data ((s.fsMem fs).clusterStart cluster)
        (slice buf p) (s.fsMem fs).clusterSize)) := by
  unfold Yields writeCluster
  simp only [wp_bind, wp_readFs, wp_deviceWrite, reliable.isNone, reliable.transferred, if_true,
    wp_pure]
  refine ⟨trivial, s.io + 1, .write s.toCore disk (getDataClusterOffset (s.fsMem fs) cluster)
    (s.fsMem fs).clusterSectors :: s.trace, ?_⟩
  rw [Fs.clusterSize, Nat.mul_comm _ 512]
  rfl

theorem writeClusterPart_yields (reliable : s.Reliable)
    (fits : offset + len ≤ (s.fsMem fs).clusterSize) :
    Yields (writeClusterPart disk fs buf p cluster offset len) s ()
      (s.toCore.setData disk (splice (s.disk disk).data
        ((s.fsMem fs).clusterStart cluster + offset) (slice buf p) len)) := by
  unfold Yields writeClusterPart
  simp only [wp_bind, wp_readFs, wp_ensure]
  refine ⟨(Nat.mod_le _ _).trans fits, wp_mono (readCluster_yields reliable) ?_
    (fun _ _ never => never)⟩
  rintro local_ t ⟨rfl, io, trace, rfl⟩
  refine wp_mono (writeCluster_yields reliable.ran) ?_ (fun _ _ never => never)
  rintro - t ⟨-, io', trace', rfl⟩
  refine ⟨trivial, io', trace', ?_⟩
  simp only [ran_ran, ran_toCore, slice_zero]
  rw [← splice_through fits]
  congr 2
  refine splice_congr fun i low => ?_
  by_cases inside : offset ≤ i ∧ i < offset + len
  · rw [splice_inside inside.1 inside.2, splice_inside inside.1 inside.2]
  · have outside : i < offset ∨ offset + len ≤ i := by omega
    rw [splice_outside outside, splice_outside outside, splice_inside (by omega) (by omega),
      Nat.sub_zero]

theorem readClusterPart_yields (reliable : s.Reliable)
    (fits : offset + len ≤ (s.fsMem fs).clusterSize) :
    Yields (readClusterPart disk fs buf p cluster offset len) s
      (splice buf p (slice (s.disk disk).data ((s.fsMem fs).clusterStart cluster + offset)) len)
      s.toCore := by
  unfold Yields readClusterPart
  simp only [wp_bind, wp_readFs, wp_ensure]
  refine ⟨(Nat.mod_le _ _).trans fits, wp_mono (readCluster_yields reliable) ?_
    (fun _ _ never => never)⟩
  rintro local_ t ⟨rfl, io, trace, rfl⟩
  refine ⟨splice_congr fun i low => ?_, io, trace, rfl⟩
  rw [slice_apply, splice_inside (by omega) (by omega), slice_apply, slice_apply]
  congr 1
  omega

end Helpers

/-! ## The transfer -/

section Rw

variable {s : Machine} {disk : DiskId} {fs : FsPtr} {file : FatFile} {blocks : Blocklist}
  {count q p n fuel offset len : Nat} {buf : Bytes}

/-- A handle whose blocklist starts with `count` clusters of the data region. -/
structure OpenFile (f : Fs) (file : FatFile) (blocks : Blocklist) (count : Nat) : Prop where
  good : Blocks f blocks count
  list : file.blocklist = some blocks
  entries : count ≤ file.blocklistSize

theorem wp_needCluster {f : Fs} (opened : OpenFile f file blocks count) (inFile : q < count)
    {post : BitVec 32 → Machine → Prop} {onFail : FatError → Machine → Prop} :
    wp (needCluster file q) post onFail s ↔ post (blocks q) s := by
  have nonzero : blocks q ≠ 0 := by
    rintro zero
    have := (opened.good.valid q inFile).1
    rw [zero] at this
    exact absurd this (by decide)
  have inList : ¬ file.blocklistSize ≤ q := by
    have := opened.entries
    omega
  simp only [needCluster, fileGetCluster, if_neg inList, opened.list, wp_bind, wp_pure,
    if_neg nonzero]

/-- The outcome of a write: the buffer is not changed, and the disk is. -/
def WritesFile (s : Machine) (disk : DiskId) (f : Fs) (blocks : Blocklist) (count at_ : Nat)
    (src : Bytes) (len : Nat) (t : Machine) : Prop :=
  ∃ data io trace, t = s.ran (s.toCore.setData disk data) io trace ∧
    Written f blocks count at_ src len (s.disk disk).data data

theorem Yields.writesFile {α : Type} {prog : FatM α} {value : α} {f : Fs} {at_ : Nat} {src data : Bytes}
    (yields : Yields prog s value (s.toCore.setData disk data))
    (written : Written f blocks count at_ src len (s.disk disk).data data) :
    wp prog (fun a t => a = value ∧ WritesFile s disk f blocks count at_ src len t)
      (fun _ _ => False) s :=
  wp_mono yields (fun _ _ ⟨same, io, trace, run⟩ => ⟨same, data, io, trace, run, written⟩)
    (fun _ _ never => never)

theorem rwClusters_write (reliable : s.Reliable)
    (opened : OpenFile (s.fsMem fs) file blocks count) (enough : n < fuel)
    (inside : q * (s.fsMem fs).clusterSize + n ≤ count * (s.fsMem fs).clusterSize)
    (small : 0 < n → q * (s.fsMem fs).clusterSize + n < 2 ^ 32)
    (size : 0 < (s.fsMem fs).clusterSize) :
    wp (rwClusters true disk fs file (s.fsMem fs).clusterSize fuel q p n buf)
      (fun _ t => WritesFile s disk (s.fsMem fs) blocks count (q * (s.fsMem fs).clusterSize)
        (slice buf p) n t) (fun _ _ => False) s := by
  induction fuel generalizing s q p n with
  | zero => omega
  | succ fuel ih =>
      rw [rwClusters]
      have inFile (some_ : 0 < n) : q < count := by
        by_contra beyond
        have := Nat.mul_le_mul_right (s.fsMem fs).clusterSize (Nat.le_of_not_lt beyond)
        omega
      by_cases whole : (s.fsMem fs).clusterSize ≤ n
      · have inFile := inFile (by omega)
        have next : w32 (q + 1) = q + 1 :=
          w32_of_lt (by have := Nat.le_mul_of_pos_right q size; have := small (by omega); omega)
        have after : (q + 1) * (s.fsMem fs).clusterSize =
            q * (s.fsMem fs).clusterSize + (s.fsMem fs).clusterSize := by ring
        simp only [if_pos whole, wp_bind, wp_needCluster opened inFile, rwCluster, if_true, next,
          wp_pure]
        have block := Written.part (s.disk disk).data (slice buf p) opened.good inFile
          (show 0 + (s.fsMem fs).clusterSize ≤ _ by omega)
        simp only [Nat.add_zero] at block
        refine wp_mono ((writeCluster_yields reliable).writesFile block) ?_ (fun _ _ never => never)
        rintro - t ⟨-, data, io, trace, rfl, written⟩
        refine wp_mono (ih (s := s.ran (s.toCore.setData disk data) io trace)
          (p := p + (s.fsMem fs).clusterSize) reliable.ran opened (by omega)
          (by simp only [ran_toCore, setData_fsMem]; omega)
          (by simp only [ran_toCore, setData_fsMem]; intro; have := small (by omega); omega) size) ?_ (fun _ _ never => never)
        rintro - t ⟨data', io', trace', rfl, written'⟩
        refine ⟨data', io', trace', by simp, ?_⟩
        simp only [ran_toCore, setData_data, setData_fsMem, after, ← slice_slice] at written'
        have joined := written.append written'
        rwa [Nat.add_sub_cancel' whole] at joined
      · by_cases none_ : n = 0
        · subst none_
          simp only [if_neg whole, if_true, wp_pure]
          exact ⟨(s.disk disk).data, s.io, s.trace, by simp [Machine.ran], Written.nothing _ _⟩
        · have inFile := inFile (by omega)
          simp only [if_neg whole, if_neg none_, wp_bind, wp_needCluster opened inFile,
            rwClusterPart, if_true, wp_pure]
          have block := Written.part (s.disk disk).data (slice buf p) opened.good inFile
            (show 0 + n ≤ (s.fsMem fs).clusterSize by omega)
          refine wp_mono ((writeClusterPart_yields reliable (by omega)).writesFile block) ?_
            (fun _ _ never => never)
          rintro - t ⟨-, written⟩
          exact written

theorem rwClusters_read (reliable : s.Reliable)
    (opened : OpenFile (s.fsMem fs) file blocks count) (enough : n < fuel)
    (inside : q * (s.fsMem fs).clusterSize + n ≤ count * (s.fsMem fs).clusterSize)
    (small : 0 < n → q * (s.fsMem fs).clusterSize + n < 2 ^ 32)
    (size : 0 < (s.fsMem fs).clusterSize) :
    Yields (rwClusters false disk fs file (s.fsMem fs).clusterSize fuel q p n buf) s
      (splice buf p (slice (fileView (s.fsMem fs) blocks (s.disk disk).data)
        (q * (s.fsMem fs).clusterSize)) n) s.toCore := by
  have blockBytes (q len : Nat) (fits : len ≤ (s.fsMem fs).clusterSize) (buf : Bytes) (p : Nat) :
      splice buf p (slice (s.disk disk).data ((s.fsMem fs).clusterStart (blocks q))) len =
        splice buf p (slice (fileView (s.fsMem fs) blocks (s.disk disk).data)
          (q * (s.fsMem fs).clusterSize)) len :=
    splice_congr fun i low => (view_block (by omega)).symm
  unfold Yields
  induction fuel generalizing s q p n buf with
  | zero => omega
  | succ fuel ih =>
      rw [rwClusters]
      have inFile (some_ : 0 < n) : q < count := by
        by_contra beyond
        have := Nat.mul_le_mul_right (s.fsMem fs).clusterSize (Nat.le_of_not_lt beyond)
        omega
      by_cases whole : (s.fsMem fs).clusterSize ≤ n
      · have inFile := inFile (by omega)
        have next : w32 (q + 1) = q + 1 :=
          w32_of_lt (by have := Nat.le_mul_of_pos_right q size; have := small (by omega); omega)
        have after : (q + 1) * (s.fsMem fs).clusterSize =
            q * (s.fsMem fs).clusterSize + (s.fsMem fs).clusterSize := by ring
        simp only [if_pos whole, wp_bind, wp_needCluster opened inFile, rwCluster,
          Bool.false_eq_true, if_false, next]
        refine wp_mono (readCluster_yields reliable) ?_ (fun _ _ never => never)
        rintro buf' t ⟨rfl, io, trace, rfl⟩
        rw [blockBytes q _ le_rfl]
        refine wp_mono (ih (s := s.ran s.toCore io trace) reliable.ran opened (by omega)
          (by simp only [ran_toCore]; omega)
          (by simp only [ran_toCore]; intro; have := small (by omega); omega) size blockBytes) ?_
          (fun _ _ never => never)
        rintro buf' t ⟨rfl, io', trace', rfl⟩
        refine ⟨?_, io', trace', by simp⟩
        simp only [ran_toCore, after, ← slice_slice]
        rw [splice_splice, Nat.add_sub_cancel' whole]
      · by_cases none_ : n = 0
        · subst none_
          simp only [if_neg whole, if_true, wp_pure]
          exact ⟨by rw [splice_zero], s.io, s.trace, rfl⟩
        · have inFile := inFile (by omega)
          simp only [if_neg whole, if_neg none_, wp_bind, wp_needCluster opened inFile,
            rwClusterPart, Bool.false_eq_true, if_false]
          refine wp_mono (readClusterPart_yields reliable (by omega)) ?_ (fun _ _ never => never)
          rintro buf' t ⟨rfl, core⟩
          refine ⟨?_, core⟩
          rw [Nat.add_zero, blockBytes q n (by omega)]

theorem wp_mountedFs (mounted : (s.disk disk).fs = some fs) {post : FsPtr → Machine → Prop}
    {onFail : FatError → Machine → Prop} : wp (mountedFs disk) post onFail s ↔ post fs s := by
  simp only [mountedFs, wp_bind, wp_state, mounted, wp_pure]

/-- What is asked of a cluster size, and what the mask of `fat32_file_rw` does with it. -/
structure PowerOfTwo (f : Fs) : Prop where
  size : 0 < f.clusterSize
  mask (offset : Nat) : offset &&& (f.clusterSize - 1) = offset % f.clusterSize

theorem powerOfTwo {f : Fs} {e : Nat} (sectors : f.clusterSectors = 2 ^ e) : PowerOfTwo f := by
  have size : f.clusterSize = 2 ^ (e + 9) := by rw [Fs.clusterSize, sectors, pow_add]; rfl
  refine ⟨by rw [size]; positivity, fun offset => ?_⟩
  rw [size, Nat.and_two_pow_sub_one_eq_mod]

/-- The part of a cluster that a request starts with. -/
structure Head (clusterSize offset len q offset' part : Nat) : Prop where
  start : q * clusterSize + offset' = offset
  fits : offset' + part ≤ clusterSize
  short : part ≤ len
  rest : part = len ∨ (q + 1) * clusterSize = offset + part

theorem head_part {clusterSize : Nat} (size : 0 < clusterSize) (offset len : Nat) :
    Head clusterSize offset len (offset / clusterSize) (offset % clusterSize)
      (min len (clusterSize - offset % clusterSize)) where
  start := by rw [Nat.mul_comm, Nat.div_add_mod]
  fits := by have := Nat.mod_lt offset size; omega
  short := Nat.min_le_left ..
  rest := by
    have whole := Nat.div_add_mod offset clusterSize
    have := Nat.mod_lt offset size
    have step : (offset / clusterSize + 1) * clusterSize =
        clusterSize * (offset / clusterSize) + clusterSize := by ring
    omega

theorem fat32FileRw_write (reliable : s.Reliable) (mounted : (s.disk disk).fs = some fs)
    (opened : OpenFile (s.fsMem fs) file blocks count) (power : PowerOfTwo (s.fsMem fs))
    (inside : offset + len ≤ count * (s.fsMem fs).clusterSize) (small : offset + len < 2 ^ 32) :
    wp (fat32FileRw disk file buf offset len true)
      (fun _ t => WritesFile s disk (s.fsMem fs) blocks count offset buf len t)
      (fun _ _ => False) s := by
  have size := power.size
  unfold fat32FileRw
  simp only [wp_bind, wp_mountedFs mounted, wp_readFs, wp_divide, power.mask]
  refine ⟨size.ne', ?_⟩
  have head := head_part size offset len
  generalize min len ((s.fsMem fs).clusterSize - offset % (s.fsMem fs).clusterSize) = part
    at head ⊢
  generalize offset / (s.fsMem fs).clusterSize = q at head ⊢
  generalize offset % (s.fsMem fs).clusterSize = offset' at head ⊢
  obtain ⟨start, fits, short, rest⟩ := head
  by_cases aligned : offset' = 0
  · simp only [aligned, ne_eq, not_true, if_false]
    have start : q * (s.fsMem fs).clusterSize = offset := by omega
    refine wp_mono (rwClusters_write reliable opened (by omega) (by omega) (by omega) size) ?_
      (fun _ _ never => never)
    rintro - t written
    rwa [start, slice_zero] at written
  · simp only [ne_eq, aligned, not_false_eq_true, if_true]
    have inFile : q < count := by
      by_contra beyond
      have := Nat.mul_le_mul_right (s.fsMem fs).clusterSize (Nat.le_of_not_lt beyond)
      omega
    have next : w32 (q + 1) = q + 1 :=
      w32_of_lt (by have := Nat.le_mul_of_pos_right q size; omega)
    have after := Nat.mul_le_mul_right (s.fsMem fs).clusterSize (show q + 1 ≤ count from inFile)
    simp only [wp_bind, wp_needCluster opened inFile, rwClusterPart, if_true, wp_pure, next]
    have block := Written.part (s.disk disk).data (slice buf 0) opened.good inFile fits
    refine wp_mono ((writeClusterPart_yields reliable fits).writesFile block) ?_
      (fun _ _ never => never)
    rintro - t ⟨-, data, io, trace, rfl, written⟩
    refine wp_mono (rwClusters_write (s := s.ran (s.toCore.setData disk data) io trace)
      reliable.ran opened (by omega) (by simp only [ran_toCore, setData_fsMem]; omega)
      (by simp only [ran_toCore, setData_fsMem]; omega) size) ?_ (fun _ _ never => never)
    rintro - t ⟨data', io', trace', rfl, written'⟩
    refine ⟨data', io', trace', by simp, ?_⟩
    simp only [ran_toCore, setData_data, setData_fsMem] at written'
    rw [start, slice_zero] at written
    rcases rest with all | next
    · rw [all, Nat.sub_self] at written'
      rw [all] at written
      exact ⟨fun j below => by rw [written'.view j below, splice_zero, written.view j below],
        written.outside.trans written'.outside⟩
    · rw [next] at written'
      have joined := written.append written'
      rwa [Nat.add_sub_cancel' short] at joined

theorem fat32FileRw_read (reliable : s.Reliable) (mounted : (s.disk disk).fs = some fs)
    (opened : OpenFile (s.fsMem fs) file blocks count) (power : PowerOfTwo (s.fsMem fs))
    (inside : offset + len ≤ count * (s.fsMem fs).clusterSize) (small : offset + len < 2 ^ 32) :
    Yields (fat32FileRw disk file buf offset len false) s
      (splice buf 0 (slice (fileView (s.fsMem fs) blocks (s.disk disk).data) offset) len)
      s.toCore := by
  have size := power.size
  unfold Yields fat32FileRw
  simp only [wp_bind, wp_mountedFs mounted, wp_readFs, wp_divide, power.mask]
  refine ⟨size.ne', ?_⟩
  have head := head_part size offset len
  generalize min len ((s.fsMem fs).clusterSize - offset % (s.fsMem fs).clusterSize) = part
    at head ⊢
  generalize offset / (s.fsMem fs).clusterSize = q at head ⊢
  generalize offset % (s.fsMem fs).clusterSize = offset' at head ⊢
  obtain ⟨start, fits, short, rest⟩ := head
  by_cases aligned : offset' = 0
  · simp only [aligned, ne_eq, not_true, if_false]
    have start : q * (s.fsMem fs).clusterSize = offset := by omega
    have read : Yields (rwClusters false disk fs file _ (len + 1) q 0 len buf) s _ _ :=
      rwClusters_read reliable opened (Nat.lt_succ_self len) (by omega) (by omega) size
    rwa [start] at read
  · simp only [ne_eq, aligned, not_false_eq_true, if_true]
    have inFile : q < count := by
      by_contra beyond
      have := Nat.mul_le_mul_right (s.fsMem fs).clusterSize (Nat.le_of_not_lt beyond)
      omega
    have next : w32 (q + 1) = q + 1 :=
      w32_of_lt (by have := Nat.le_mul_of_pos_right q size; omega)
    have after := Nat.mul_le_mul_right (s.fsMem fs).clusterSize (show q + 1 ≤ count from inFile)
    simp only [wp_bind, wp_needCluster opened inFile, rwClusterPart, Bool.false_eq_true, if_false,
      next]
    refine wp_mono (readClusterPart_yields reliable fits) ?_ (fun _ _ never => never)
    rintro buf' t ⟨rfl, io, trace, rfl⟩
    refine wp_mono (rwClusters_read (s := s.ran s.toCore io trace) reliable.ran opened (by omega)
      (by simp only [ran_toCore]; omega) (by simp only [ran_toCore]; omega) size) ?_
      (fun _ _ never => never)
    rintro buf' t ⟨rfl, io', trace', rfl⟩
    refine ⟨?_, io', trace', by simp⟩
    -- the bytes of the first cluster, as the file has them
    have first : splice buf 0 (slice (s.disk disk).data ((s.fsMem fs).clusterStart (blocks q) +
          offset')) part =
        splice buf 0 (slice (fileView (s.fsMem fs) blocks (s.disk disk).data) offset) part := by
      refine splice_congr fun i low => ?_
      rw [slice_apply, slice_apply, ← start, Nat.add_assoc, Nat.add_assoc, view_block (by omega)]
    rw [first]
    simp only [ran_toCore]
    rcases rest with all | next
    · rw [all, Nat.sub_self, splice_zero]
    · have joined : splice (splice buf 0 (slice (fileView (s.fsMem fs) blocks (s.disk disk).data)
          offset) part) (0 + part) _ (len - part) = _ := splice_splice (len - part)
      rwa [Nat.zero_add, Nat.add_sub_cancel' short, slice_slice, ← next] at joined

end Rw

/-! ## Write, then read -/

/-- Every read inside the file returns its range of `contents` and changes nothing. -/
def ReadsBack (s : Machine) (disk : DiskId) (file : FatFile) (contents : Bytes) : Prop :=
  ∀ offset len dst, offset + len ≤ file.size →
    Yields (fat32FileRead disk file dst offset len) s (len, splice dst 0 (slice contents offset) len)
      s.toCore

section WriteRead

variable {s : Machine} {disk : DiskId} {fs : FsPtr} {file : FatFile} {blocks : Blocklist}
  {count e offset len : Nat} {contents : Bytes}

theorem reads_back (reliable : s.Reliable) (mounted : (s.disk disk).fs = some fs)
    (opened : OpenFile (s.fsMem fs) file blocks count) (power : PowerOfTwo (s.fsMem fs))
    (fits : file.size ≤ count * (s.fsMem fs).clusterSize) (small : file.size < 2 ^ 32)
    (same : ∀ j < count * (s.fsMem fs).clusterSize,
      fileView (s.fsMem fs) blocks (s.disk disk).data j = contents j) :
    ReadsBack s disk file contents := by
  intro offset len dst inside
  have inSize : ¬ file.size < w32 (offset + len) := by
    rw [w32_of_lt (by omega)]
    omega
  unfold Yields fat32FileRead
  simp only [if_neg inSize, wp_bind, wp_attempt]
  refine wp_mono (fat32FileRw_read reliable mounted opened power (by omega) (by omega)) ?_
    (fun _ _ never => never.elim)
  rintro buf t ⟨rfl, core⟩
  refine ⟨Prod.ext rfl (splice_congr fun i low => ?_), core⟩
  exact same _ (by omega)

/-- **A write inside a file returns its length, and every later read inside the
file returns the old contents with the data in place; no other byte of the disk
changes, and no other disk.** -/
theorem file_write_read (reliable : s.Reliable) (mounted : (s.disk disk).fs = some fs)
    (opened : OpenFile (s.fsMem fs) file blocks count)
    (power : (s.fsMem fs).clusterSectors = 2 ^ e)
    (inside : offset + len ≤ file.size) (fits : file.size ≤ count * (s.fsMem fs).clusterSize)
    (small : file.size < 2 ^ 32) (data : Bytes) :
    ∃ old, ReadsBack s disk file old ∧
      wp (fat32FileWrite disk data offset len)
        (fun result t => result = len ∧ t.2 = file ∧
          ReadsBack t.1 disk file (splice old offset data len) ∧
          SameOutsideFile (s.fsMem fs) blocks count (s.disk disk).data (t.1.disk disk).data ∧
          ∀ other ≠ disk, t.1.disk other = s.disk other)
        (fun _ _ => False) (s, file) := by
  have power := powerOfTwo power
  refine ⟨fileView (s.fsMem fs) blocks (s.disk disk).data,
    reads_back reliable mounted opened power fits small fun _ _ => rfl, ?_⟩
  have inSize : ¬ file.size < w32 (offset + len) := by
    rw [w32_of_lt (by omega)]
    omega
  unfold fat32FileWrite fat32FileWriteWith
  simp only [wp_bind, wp_theFile, if_neg inSize, wp_lift, wp_attempt]
  refine wp_mono (fat32FileRw_write reliable mounted opened power (by omega) (by omega)) ?_
    (fun _ _ never => never.elim)
  rintro - t ⟨data', io, trace, rfl, written⟩
  refine ⟨rfl, rfl, ?_, ?_, fun other apart => setData_of_ne apart⟩
  · refine reads_back reliable.ran (by simpa using mounted) opened power fits small
      fun j below => ?_
    simpa using written.view j below
  · simpa using written.outside

/-- A file of 1000 bytes in clusters 3 and 5. -/
def twoBlocks : FatFile where
  fs := 0
  size := 1000
  blocklistSize := 2
  blocklist := some fun i => if i = 0 then 3 else 5
  dirEntry :=
    { indexInDir := 0, dirFirstCluster := 2, name := fun _ => 0, firstCluster := 3, attrib := 0
      size := 1000 }

theorem file_write_read_across :
    let m := Machine.mounted (fun _ => smallFs 2 16 64) fun _ _ => 0
    ∃ old, ReadsBack m 0 twoBlocks old ∧
      wp (fat32FileWrite 0 (fun _ => 7) 500 100)
        (fun result t => result = 100 ∧
          ReadsBack t.1 0 twoBlocks (splice old 500 (fun _ => 7) 100))
        (fun _ _ => False) (m, twoBlocks) := by
  intro m
  have opened : OpenFile (m.fsMem 0) twoBlocks (fun i => if i = 0 then 3 else 5) 2 := by
    refine ⟨⟨?_, ?_⟩, rfl, le_rfl⟩
    · unfold Fs.DataCluster
      decide +kernel
    · decide
  obtain ⟨old, before, after⟩ := file_write_read (mounted_reliable _ _)
    (show (m.disk 0).fs = some 0 from rfl) opened
    (show (m.fsMem 0).clusterSectors = 2 ^ 0 by decide +kernel)
    (show 500 + 100 ≤ twoBlocks.size by decide) (by decide +kernel) (by decide) fun _ => 7
  exact ⟨old, before, wp_mono after (fun _ _ ⟨result, _, now, _⟩ => ⟨result, now⟩)
    fun _ _ never => never⟩

end WriteRead

end TestOs.Fat32
