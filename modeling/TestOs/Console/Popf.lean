/-
# Console.Popf -- what popf -a prints

`popf` does not ask for the size of the file.  It reads blocks of 512 bytes until
one is refused, and then single bytes until one is refused.  Between the two it
moves the offset back by a block, although a refused read has not moved it
forward, so the last whole block is printed twice.  With a file of almost 4 GB the
offset wraps before a block is refused, and the loop does not stop.

So the loop prints the file exactly when it has fewer than 512 bytes
(`popf_prints_iff`).
-/
import TestOs.Console.Printk
import TestOs.Fat32.Requests
import TestOs.Fat32.Extending

namespace TestOs.Console

open TestOs.Library Prog TestOs.Fat32

set_option autoImplicit false

/-- `printk("%c", ch)`: the text. -/
def printChar (ch : Byte) : List Byte := (text [chr '%', chr 'c'] [.int (ch.signExtend 32)]).getD []

/-- The loop of `popf -a`, with the text printed so far: the text in the end.  The
buffer has 512 bytes, and a result that says more would be printed from behind it. -/
def popfLoop (diskList : List DiskId) (id : Nat) (file : FatFile) :
    Nat → BitVec 32 → BitVec 32 → Bytes → List Byte → FatM (List Byte)
  | 0, _, _, _, _ => halt
  | fuel + 1, offset, inSize, buffer, out => do
      let (outSize, buffer) ← diskFileRead diskList id file buffer offset inSize
      if outSize = 0 then
        if inSize ≠ 512 then return out
        else if offset ≠ 0 then
          popfLoop diskList id file fuel (offset - 512) 1 (splice buffer 0 (fun _ => 0) 512) out
        else popfLoop diskList id file fuel offset 1 buffer out
      else
        ensure (outSize ≤ 512)
        popfLoop diskList id file fuel (offset + inSize) inSize buffer
          (out ++ (List.range outSize).flatMap fun i => printChar (buffer i))

/-- A byte of the file, by its blocklist. -/
def fileByte (f : Fs) (file : FatFile) (data : Bytes) (j : Nat) : Byte :=
  data (f.byteAt file (j / f.clusterSize, j % f.clusterSize))

/-- A byte of the file on the console. -/
def shown (ch : Byte) : Byte := if ch = 0 then chr ' ' else ch

/-- The loop stops, and has printed each byte of the file once, in order, a 0 as a space. -/
def PrintsFile (diskList : List DiskId) (id : Nat) (m : Machine) (file : FatFile) (buffer : Bytes)
    (contents : Bytes) : Prop :=
  ∃ fuel t, popfLoop diskList id file fuel 0 512 buffer [] m =
    some (.ok ((List.range file.size).map fun j => shown (contents j)), t)

theorem printChar_eq (ch : Byte) : printChar ch = [shown ch] := by
  have narrow : (ch.signExtend 32).setWidth 8 = ch := by
    apply BitVec.eq_of_getLsbD_eq
    intro i low
    have within : i < 32 := Nat.lt_trans low (by decide)
    simp [BitVec.getElem_signExtend, low, within]
  have piece : conversionText (chr 'c') [.int (ch.signExtend 32)] =
      some ([printed (ch.signExtend 32)], []) := rfl
  unfold printChar
  rw [text, if_pos rfl, piece]
  simp [text, printed, narrow, shown]

section Reads

variable {diskList : List DiskId} {id : Nat} {m : Machine} {disk : DiskId} {fs : FsPtr}
  {file : FatFile} {buf : Bytes} {offset length : BitVec 32}

theorem fileDisk_congr {n : Nat} (isDisk : fileDisk diskList m id 1 = some disk) (some_ : n ≠ 0) :
    fileDisk diskList m id n = some disk := by
  unfold fileDisk at isDisk ⊢
  simpa [some_] using isDisk

/-- A request behind the end of the file. -/
theorem read_refused (behind : file.size < w32 (offset.toNat + length.toNat)) :
    diskFileRead diskList id file buf offset length m = some (.ok (0, buf), m) := by
  have spec : wp (diskFileRead diskList id file buf offset length)
      (fun answer t => answer = (0, buf) ∧ t = m) (fun _ _ => False) m := by
    unfold diskFileRead
    simp only [wp_bind, wp_state]
    split
    · exact ⟨rfl, rfl⟩
    · unfold fat32FileRead
      rw [if_pos behind]
      exact ⟨rfl, rfl⟩
  obtain ⟨answer, t, run, rfl, rfl⟩ := wp_run spec
  exact run

theorem sizeOfError_large (e : FatError) : 512 < throughInt (sizeOfError e) := by
  cases e <;> decide

/-- Any other request is answered in full, in the same state, or with a number that is
larger than the buffer. -/
theorem read_answers (isDisk : fileDisk diskList m id 1 = some disk) (some_ : length.toNat ≠ 0)
    (inside : ¬ file.size < w32 (offset.toNat + length.toNat)) :
    wlp (diskFileRead diskList id file buf offset length)
      (fun answer t => 512 < answer.1 ∨
        answer.1 = length.toNat ∧ ∃ io trace, t = m.ran m.toCore io trace)
      (fun _ _ => True) m := by
  have here := fileDisk_congr isDisk some_
  obtain ⟨pos, fs, mounted⟩ := fileDisk_some here
  have reads : wlp (fat32FileRw disk file buf offset.toNat length.toNat false)
      (fun _ t => ∃ io trace, t = m.ran m.toCore io trace) (fun _ _ => True) m := by
    unfold wlp
    split
    · exact trivial
    · rename_i buf' t run
      have can := rw_transferable mounted pos (wp_iff_run.2 (.inl ⟨_, _, run, trivial⟩))
      obtain ⟨data, trace, ran, unchanged, -⟩ := wp_value (rw_moves mounted pos can) run
      rw [unchanged, setData_self] at ran
      exact ⟨_, trace, ran⟩
    · exact trivial
  unfold diskFileRead fat32FileRead
  simp only [wlp_bind, wlp_state, here, if_neg inside, wlp_attempt]
  apply wlp_mono reads
  · intro _ t same
    rw [wlp_pure, wlp_pure, throughInt_of_lt length.isLt]
    exact .inr ⟨rfl, same⟩
  · intro e t _
    rw [wlp_pure, wlp_pure]
    exact .inl (sizeOfError_large e)

end Reads

/-! ## How much is printed -/

section Length

variable {diskList : List DiskId} {id : Nat} {m : Machine} {disk : DiskId} {file : FatFile}

/-- A piece printed from the buffer. -/
theorem printed_length (buffer : Bytes) (n : Nat) :
    ((List.range n).flatMap fun i => printChar (buffer i)).length = n := by
  simp [printChar_eq]

/-- One turn of the loop whose request is refused. -/
theorem popfLoop_refused {fuel : Nat} {offset inSize : BitVec 32} {buffer : Bytes} {out : List Byte}
    (behind : file.size < w32 (offset.toNat + inSize.toNat)) :
    popfLoop diskList id file (fuel + 1) offset inSize buffer out m =
      (if inSize ≠ 512 then pure out
        else if offset ≠ 0 then
          popfLoop diskList id file fuel (offset - 512) 1 (splice buffer 0 (fun _ => 0) 512) out
        else popfLoop diskList id file fuel offset 1 buffer out) m := by
  rw [popfLoop, bind_ok (read_refused behind)]
  rfl

/-- One turn whose request is not: the loop goes on behind it, or does not end. -/
theorem popfLoop_answered {fuel : Nat} {offset inSize : BitVec 32} {buffer : Bytes} {out : List Byte}
    (isDisk : fileDisk diskList m id 1 = some disk) (some_ : inSize.toNat ≠ 0)
    (inside : ¬ file.size < w32 (offset.toNat + inSize.toNat)) {post : List Byte → Prop}
    (goesOn : ∀ (n : Machine) buffer' more, fileDisk diskList n id 1 = some disk →
      more.length = inSize.toNat →
      wlp (popfLoop diskList id file fuel (offset + inSize) inSize buffer' (out ++ more))
        (fun printed _ => post printed) (fun _ _ => True) n) :
    wlp (popfLoop diskList id file (fuel + 1) offset inSize buffer out)
      (fun printed _ => post printed) (fun _ _ => True) m := by
  rw [popfLoop, wlp_bind]
  apply wlp_mono (read_answers isDisk some_ inside) _ (fun _ _ _ => trivial)
  rintro ⟨outSize, buffer'⟩ t answer
  have nonzero : outSize ≠ 0 := by
    rcases answer with large | ⟨same, -⟩
    · intro zero
      simp [zero] at large
    · exact fun zero => some_ (same.symm.trans zero)
  simp only [if_neg nonzero, wlp_bind, wlp_ensure]
  intro inBuffer
  rcases answer with large | ⟨rfl, io, trace, rfl⟩
  · exact absurd inBuffer (Nat.not_le.2 large)
  · exact goesOn _ buffer' _ isDisk (printed_length _ _)

/-- The single bytes, from byte `j` on. -/
theorem popfLoop_bytes (small : file.size < 2 ^ 32 - 1) (fuel : Nat) {j : Nat} (inFile : j ≤ file.size)
    (buffer : Bytes) (out : List Byte) (isDisk : fileDisk diskList m id 1 = some disk) :
    wlp (popfLoop diskList id file fuel (BitVec.ofNat 32 j) 1 buffer out)
      (fun printed _ => printed.length = out.length + (file.size - j)) (fun _ _ => True) m := by
  induction fuel generalizing m j buffer out with
  | zero => exact trivial
  | succ fuel ih =>
      have place : (BitVec.ofNat 32 j).toNat = j := by
        rw [BitVec.toNat_ofNat, Nat.mod_eq_of_lt (by omega)]
      have one : (1 : BitVec 32).toNat = 1 := rfl
      have next : w32 (j + 1) = j + 1 := w32_of_lt (by omega)
      by_cases last : j = file.size
      · have behind : file.size < w32 ((BitVec.ofNat 32 j).toNat + (1 : BitVec 32).toNat) := by
          rw [place, one, next]
          omega
        apply wlp_of_run _ (popfLoop_refused behind)
        rw [if_pos (by decide), wlp_pure, last, Nat.sub_self, Nat.add_zero]
      · have inside : ¬ file.size < w32 ((BitVec.ofNat 32 j).toNat + (1 : BitVec 32).toNat) := by
          rw [place, one, next]
          omega
        apply popfLoop_answered isDisk (by decide) inside
        intro n buffer' more isDisk' length
        have step : BitVec.ofNat 32 j + 1 = BitVec.ofNat 32 (j + 1) := by simp [BitVec.ofNat_add]
        rw [step]
        apply wlp_mono (ih (by omega) buffer' (out ++ more) isDisk') _ (fun _ _ _ => trivial)
        rintro printed t count
        rw [count, List.length_append, length, one]
        omega

theorem next_block (k : Nat) :
    BitVec.ofNat 32 (512 * k) + 512 = BitVec.ofNat 32 (512 * (k + 1)) := by
  rw [Nat.mul_succ, BitVec.ofNat_add]
  rfl

/-- The blocks, from block `k` on, and the bytes behind them.  Behind a whole block
the bytes start with that block. -/
theorem popfLoop_blocks (small : file.size < 2 ^ 32 - 512) (fuel : Nat) {k : Nat}
    (inFile : 512 * k ≤ file.size) (buffer : Bytes) (out : List Byte)
    (isDisk : fileDisk diskList m id 1 = some disk) :
    wlp (popfLoop diskList id file fuel (BitVec.ofNat 32 (512 * k)) 512 buffer out)
      (fun printed _ => printed.length = out.length + (file.size - 512 * k) +
        if 512 * k + 512 ≤ file.size ∨ 0 < k then 512 else 0)
      (fun _ _ => True) m := by
  induction fuel generalizing m k buffer out with
  | zero => exact trivial
  | succ fuel ih =>
      have place : (BitVec.ofNat 32 (512 * k)).toNat = 512 * k := by
        rw [BitVec.toNat_ofNat, Nat.mod_eq_of_lt (by omega)]
      have block : (512 : BitVec 32).toNat = 512 := rfl
      have next : w32 (512 * k + 512) = 512 * k + 512 := w32_of_lt (by omega)
      by_cases whole : 512 * k + 512 ≤ file.size
      · have inside : ¬ file.size <
            w32 ((BitVec.ofNat 32 (512 * k)).toNat + (512 : BitVec 32).toNat) := by
          rw [place, block, next]
          omega
        apply popfLoop_answered isDisk (by decide) inside
        intro n buffer' more isDisk' length
        rw [next_block]
        apply wlp_mono (ih (by omega) buffer' (out ++ more) isDisk') _ (fun _ _ _ => trivial)
        rintro printed t count
        rw [count, List.length_append, length, block, if_pos (.inr (by omega)), if_pos (.inl whole)]
        omega
      · have behind : file.size <
            w32 ((BitVec.ofNat 32 (512 * k)).toNat + (512 : BitVec 32).toNat) := by
          rw [place, block, next]
          omega
        apply wlp_of_run _ (popfLoop_refused behind)
        rw [if_neg (by decide)]
        by_cases first : k = 0
        · subst first
          rw [if_neg (by decide)]
          apply wlp_mono (popfLoop_bytes (by omega) fuel (Nat.zero_le _) buffer out isDisk) _
            (fun _ _ _ => trivial)
          rintro printed t count
          rw [count, if_neg (by omega)]
          omega
        · have moved : BitVec.ofNat 32 (512 * k) ≠ 0 := by
            intro zero
            have := congrArg BitVec.toNat zero
            rw [place] at this
            simp at this
            omega
          have back : BitVec.ofNat 32 (512 * k) - 512 = BitVec.ofNat 32 (512 * (k - 1)) := by
            obtain ⟨k, rfl⟩ := Nat.exists_eq_succ_of_ne_zero first
            rw [Nat.mul_succ, BitVec.ofNat_add, Nat.succ_sub_one]
            simp
          rw [if_pos moved, back]
          -- here the last block is printed a second time
          apply wlp_mono (popfLoop_bytes (by omega) fuel (by omega) _ out isDisk) _
            (fun _ _ _ => trivial)
          rintro printed t count
          rw [count, if_pos (.inr (by omega))]
          omega

/-- Where the offset wraps before a block is refused, no block is. -/
theorem popfLoop_endless (large : 2 ^ 32 - 512 ≤ file.size) (fuel k : Nat) (buffer : Bytes)
    (out : List Byte) (isDisk : fileDisk diskList m id 1 = some disk) :
    wlp (popfLoop diskList id file fuel (BitVec.ofNat 32 (512 * k)) 512 buffer out)
      (fun _ _ => False) (fun _ _ => True) m := by
  induction fuel generalizing m k buffer out with
  | zero => exact trivial
  | succ fuel ih =>
      have inside : ¬ file.size <
          w32 ((BitVec.ofNat 32 (512 * k)).toNat + (512 : BitVec 32).toNat) := by
        have block : (512 : BitVec 32).toNat = 512 := rfl
        rw [block, BitVec.toNat_ofNat, w32]
        omega
      apply popfLoop_answered isDisk (by decide) inside
      intro n buffer' more isDisk' length
      rw [next_block]
      exact ih (k + 1) buffer' (out ++ more) isDisk'

/-- A file with a whole block is printed with that block twice, or without end. -/
theorem popf_repeats (isDisk : fileDisk diskList m id 1 = some disk) (whole : 512 ≤ file.size)
    (buffer contents : Bytes) : ¬ PrintsFile diskList id m file buffer contents := by
  rintro ⟨fuel, t, run⟩
  by_cases small : file.size < 2 ^ 32 - 512
  · have blocks := popfLoop_blocks (k := 0) small fuel (Nat.zero_le _) buffer [] isDisk
    have count := wlp_ok blocks run
    rw [if_pos (.inl (by omega))] at count
    simp at count
  · exact wlp_ok (popfLoop_endless (by omega) fuel 0 buffer [] isDisk) run

end Length

/-! ## What is printed -/

section Bytes

variable {diskList : List DiskId} {id : Nat} {m : Machine} {disk : DiskId} {fs : FsPtr}
  {file : FatFile} {f : Fs} {buffer : Bytes} {j : Nat}

/-- Whatever the cluster size, the first bytes of a file are where they should be. -/
theorem mask_low (size : 0 < f.clusterSize) (low : j < 512) : j &&& (f.clusterSize - 1) = j := by
  obtain ⟨c, sectors⟩ : ∃ c, f.clusterSize = 512 * (c + 1) := by
    unfold Fs.clusterSize at size ⊢
    exact ⟨f.clusterSectors - 1, by omega⟩
  have ones : (f.clusterSize - 1) &&& (2 ^ 9 - 1) = 2 ^ 9 - 1 := by
    rw [Nat.and_two_pow_sub_one_eq_mod, sectors]
    omega
  have within : j &&& (2 ^ 9 - 1) = j := by
    rw [Nat.and_two_pow_sub_one_eq_mod, Nat.mod_eq_of_lt low]
  calc j &&& (f.clusterSize - 1)
      = (j &&& (2 ^ 9 - 1)) &&& (f.clusterSize - 1) := by rw [within]
    _ = j &&& ((f.clusterSize - 1) &&& (2 ^ 9 - 1)) := by rw [Nat.and_assoc, Nat.and_comm (2 ^ 9 - 1)]
    _ = j := by rw [ones, within]

theorem place_low (size : 0 < f.clusterSize) (low : j < 512) : f.place j 0 = (0, j) := by
  have large : 512 ≤ f.clusterSize := by
    unfold Fs.clusterSize at size ⊢
    omega
  have first : j / f.clusterSize = 0 := Nat.div_eq_of_lt (by omega)
  unfold Fs.place Fs.headLen Fs.bodyStart bodyPlace
  rw [mask_low size low, first]
  by_cases zero : j = 0
  · simp [zero]
  · rw [if_neg zero, if_pos (by omega), Nat.add_zero]

theorem fileByte_low (size : 0 < f.clusterSize) (low : j < 512) (data : Bytes) :
    fileByte f file data j = data (f.byteAt file (f.place j 0)) := by
  have large : 512 ≤ f.clusterSize := by
    unfold Fs.clusterSize at size ⊢
    omega
  rw [fileByte, place_low size low, Nat.div_eq_of_lt (by omega), Nat.mod_eq_of_lt (by omega)]

/-- A read of a single byte. -/
theorem read_byte (isDisk : fileDisk diskList m id 1 = some disk) (mounted : (m.disk disk).fs = some fs)
    (reliable : m.Reliable) (size : 0 < (m.fsMem fs).clusterSize) (block : file.HasBlock 0)
    (low : j < 512) (inFile : j < file.size) :
    wp (diskFileRead diskList id file buffer (BitVec.ofNat 32 j) 1)
      (fun answer t => answer.1 = 1 ∧ answer.2 0 = fileByte (m.fsMem fs) file (m.disk disk).data j ∧
        ∃ io trace, t = m.ran m.toCore io trace)
      (fun _ _ => False) m := by
  have place : (BitVec.ofNat 32 j).toNat = j := by
    rw [BitVec.toNat_ofNat, Nat.mod_eq_of_lt (by omega)]
  have one : (1 : BitVec 32).toNat = 1 := rfl
  have inside : ¬ file.size < w32 ((BitVec.ofNat 32 j).toNat + (1 : BitVec 32).toNat) := by
    rw [place, one, w32_of_lt (by omega)]
    omega
  have can : Transferable false m (m.fsMem fs) file (BitVec.ofNat 32 j).toNat (1 : BitVec 32).toNat := by
    refine ⟨size, fun i below => ?_, fun k _ => reliable _⟩
    rw [one] at below
    obtain rfl : i = 0 := by omega
    rw [place, place_low size low]
    exact block
  unfold diskFileRead fat32FileRead
  simp only [wp_bind, wp_state, one, isDisk]
  rw [← one, if_neg inside]
  simp only [wp_bind, wp_attempt]
  refine wp_mono (rw_moves mounted (by decide) can) ?_ fun _ _ never => never.elim
  rintro buf t ⟨data, trace, rfl, unchanged, isBuf⟩
  rw [wp_pure, wp_pure, throughInt_of_lt (1 : BitVec 32).isLt]
  refine ⟨rfl, ?_, _, trace, by rw [unchanged, setData_self]⟩
  change buf 0 = _
  rw [isBuf, one, splice_inside (Nat.zero_le _) (by omega), place, fileByte_low size low]

/-- The single bytes of a short file, from byte `j` on. -/
theorem popfLoop_prints (isDisk : fileDisk diskList m id 1 = some disk)
    (mounted : (m.disk disk).fs = some fs) (reliable : m.Reliable)
    (size : 0 < (m.fsMem fs).clusterSize) (block : 0 < file.size → file.HasBlock 0)
    (short : file.size < 512) (left : Nat) (isLeft : j + left = file.size) (out : List Byte) :
    wp (popfLoop diskList id file (left + 1) (BitVec.ofNat 32 j) 1 buffer out)
      (fun printed _ => printed = out ++ (List.range' j left).map fun i =>
        shown (fileByte (m.fsMem fs) file (m.disk disk).data i))
      (fun _ _ => False) m := by
  induction left generalizing m j buffer out with
  | zero =>
      have behind : file.size < w32 ((BitVec.ofNat 32 j).toNat + (1 : BitVec 32).toNat) := by
        have one : (1 : BitVec 32).toNat = 1 := rfl
        rw [one, BitVec.toNat_ofNat, Nat.mod_eq_of_lt (by omega), w32_of_lt (by omega)]
        omega
      rw [wp_iff_run, popfLoop_refused behind, if_pos (by decide)]
      exact .inl ⟨out, m, rfl, by simp⟩
  | succ left ih =>
      rw [popfLoop, wp_bind]
      refine wp_mono (read_byte isDisk mounted reliable size (block (by omega)) (by omega) (by omega)) ?_
        fun _ _ never => never
      rintro ⟨outSize, buffer'⟩ t ⟨rfl, byte, io, trace, rfl⟩
      have next : BitVec.ofNat 32 j + 1 = BitVec.ofNat 32 (j + 1) := by
        rw [BitVec.ofNat_add]
        rfl
      simp only [one_ne_zero, if_false, wp_bind, wp_ensure, next]
      refine ⟨by decide, ?_⟩
      have rest : j + 1 + left = file.size := by omega
      refine wp_mono (ih (m := m.ran m.toCore io trace) isDisk mounted reliable.ran size rest _) ?_
        fun _ _ never => never
      rintro printed t rfl
      have first : buffer' 0 = fileByte (m.fsMem fs) file (m.disk disk).data j := byte
      rw [List.range'_succ, List.map_cons, ← first]
      simp [printChar_eq]

end Bytes

/-! ## The theorem -/

/-- **The loop of `popf -a` prints each byte of the file once, in order, and stops,
exactly when the file has fewer than 512 bytes.** -/
theorem popf_prints_iff {diskList : List DiskId} {id : Nat} {m : Machine} {disk : DiskId} {fs : FsPtr}
    {file : FatFile} (buffer : Bytes) (isDisk : fileDisk diskList m id 1 = some disk)
    (mounted : (m.disk disk).fs = some fs) (reliable : m.Reliable)
    (size : 0 < (m.fsMem fs).clusterSize)
    (blocks : ∀ j < file.size, file.HasBlock (j / (m.fsMem fs).clusterSize)) :
    PrintsFile diskList id m file buffer (fileByte (m.fsMem fs) file (m.disk disk).data) ↔
      file.size < 512 := by
  constructor
  · intro prints
    by_contra whole
    exact popf_repeats isDisk (by omega) buffer _ prints
  · intro short
    have block : 0 < file.size → file.HasBlock 0 := by
      intro some_
      have first := blocks 0 some_
      rwa [Nat.zero_div] at first
    have behind : file.size < w32 ((0 : BitVec 32).toNat + (512 : BitVec 32).toNat) := short
    have prints := @popfLoop_prints diskList id m disk fs file buffer 0 isDisk mounted reliable size
      block short file.size (Nat.zero_add _) []
    obtain ⟨printed, t, run, isPrinted⟩ := wp_run prints
    refine ⟨file.size + 2, t, ?_⟩
    rw [popfLoop_refused behind, if_neg (by decide), if_neg (by decide)]
    rw [List.nil_append, ← List.range_eq_range'] at isPrinted
    rw [← isPrinted]
    exact run

/-! ## Two files -/

/-- A file of `size` bytes in clusters 3 and 5. -/
def fileOfSize (size : Nat) : FatFile := { twoBlocks with size := size }

/-- The disk with the first id. -/
def oneDisk : Machine := Machine.mounted (fun _ => smallFs 2 16 64) fun _ i => BitVec.ofNat 8 i

theorem oneDisk_isDisk : fileDisk [diskIdStart] oneDisk diskIdStart 1 = some diskIdStart := by decide

theorem oneDisk_clusterSize : (oneDisk.fsMem diskIdStart).clusterSize = 512 := by decide

theorem popf_prints_short :
    PrintsFile [diskIdStart] diskIdStart oneDisk (fileOfSize 100) (fun _ => 0)
      (fileByte (oneDisk.fsMem diskIdStart) (fileOfSize 100) (oneDisk.disk diskIdStart).data) := by
  have size : 0 < (oneDisk.fsMem diskIdStart).clusterSize := by
    rw [oneDisk_clusterSize]
    decide
  have blocks : ∀ j < (fileOfSize 100).size,
      (fileOfSize 100).HasBlock (j / (oneDisk.fsMem diskIdStart).clusterSize) := by
    intro j inFile
    have short : j < 100 := inFile
    rw [oneDisk_clusterSize, Nat.div_eq_of_lt (by omega)]
    exact ⟨_, rfl, by decide, by decide⟩
  exact (popf_prints_iff (fun _ => 0) oneDisk_isDisk rfl (mounted_reliable _ _) size blocks).2
    (by decide)

/-- A file of 512 bytes is printed twice. -/
theorem popf_prints_twice :
    ¬ PrintsFile [diskIdStart] diskIdStart oneDisk (fileOfSize 512) (fun _ => 0)
      (fileByte (oneDisk.fsMem diskIdStart) (fileOfSize 512) (oneDisk.disk diskIdStart).data) :=
  popf_repeats oneDisk_isDisk (by decide) _ _

end TestOs.Console
