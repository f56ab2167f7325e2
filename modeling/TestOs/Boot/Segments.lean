/-
# Boot.Segments -- what the loader leaves of the kernel's segments

`INIT_KERNEL` copies the bytes of each segment that are in the file, and nothing
else happens to the memory (`segmentLoop_loads`).  It does not look at `p_memsz`,
so the rest of a segment, where the kernel has the variables that start as zero,
stays what the memory was.  So the segments are established exactly when that was
zero (`segments_established_iff`).
-/
import TestOs.Boot.Loader

namespace TestOs.Boot

open TestOs.Library Memory

set_option autoImplicit false

/-! ## The file -/

/-- A program header, without the fields that nobody reads. -/
structure ProgramHeader where
  type : BitVec 32
  offset : BitVec 32
  vaddr : BitVec 32
  filesz : BitVec 32
  memsz : BitVec 32
  deriving DecidableEq

section File

variable (phys : BitVec 32 → BitVec 32) (m : Memory)

/-- `e_phnum` and `e_phentsize`. -/
def phnum : BitVec 16 :=
  m (phys (kernelBinBaseAddr + 44 + 1)) ++ m (phys (kernelBinBaseAddr + 44))

def phentsize : BitVec 16 :=
  m (phys (kernelBinBaseAddr + 42 + 1)) ++ m (phys (kernelBinBaseAddr + 42))

/-- The address of program header `i`. -/
def headerAt (i : Nat) : BitVec 32 :=
  m.peek phys (kernelBinBaseAddr + 28) + kernelBinBaseAddr +
    BitVec.ofNat 32 i * (phentsize phys m).setWidth 32

def programHeader (i : Nat) : ProgramHeader where
  type := m.peek phys (headerAt phys m i)
  offset := m.peek phys (headerAt phys m i + 4)
  vaddr := m.peek phys (headerAt phys m i + 8)
  filesz := m.peek phys (headerAt phys m i + 16)
  memsz := m.peek phys (headerAt phys m i + 20)

/-- Header `i` is there and is `PT_LOAD`. -/
def Loads (i : Nat) : Prop := i < (phnum phys m).toNat ∧ (programHeader phys m i).type = 1

/-- The memory of segment `i`, and the part of it that is in the file. -/
def segment (i : Nat) : Set (BitVec 32) :=
  cells phys (programHeader phys m i).vaddr (programHeader phys m i).memsz.toNat

def filePart (i : Nat) : Set (BitVec 32) :=
  cells phys (programHeader phys m i).vaddr (programHeader phys m i).filesz.toNat

/-- The bytes of the stack that the loader takes. -/
def stack (esp : BitVec 32) : Set (BitVec 32) := cells phys (esp - 28) 28

/-- An ELF file of `len` bytes at `KERNEL_BIN_BASE_ADDR`, whose headers are `PT_NULL`
or `PT_LOAD`, and whose segments meet neither each other nor the file nor the stack. -/
structure Elf (esp : BitVec 32) (len : Nat) : Prop where
  header : 52 ≤ len
  some_ : 1 ≤ (phnum phys m).toNat
  headers : ∀ i < (phnum phys m).toNat, ∃ k, k + 32 ≤ len ∧
    headerAt phys m i = kernelBinBaseAddr + BitVec.ofNat 32 k
  types : ∀ i < (phnum phys m).toNat,
    (programHeader phys m i).type = 0 ∨ (programHeader phys m i).type = 1
  file : ∀ i, Loads phys m i →
    (programHeader phys m i).offset.toNat + (programHeader phys m i).filesz.toNat ≤ len
  sizes : ∀ i, Loads phys m i → (programHeader phys m i).filesz ≤ (programHeader phys m i).memsz
  single : ∀ i, Loads phys m i →
    Single phys (programHeader phys m i).vaddr (programHeader phys m i).memsz.toNat
  apart : ∀ i j, Loads phys m i → Loads phys m j → i ≠ j →
    Disjoint (segment phys m i) (segment phys m j)
  image : ∀ i, Loads phys m i → Disjoint (segment phys m i) (cells phys kernelBinBaseAddr len)
  frame : Single phys (esp - 28) 28
  stackImage : Disjoint (stack phys esp) (cells phys kernelBinBaseAddr len)
  stackSegment : ∀ i, Loads phys m i → Disjoint (stack phys esp) (segment phys m i)

/-- Each segment holds its bytes from the file, and zeros behind them, and nothing
else but the stack has changed. -/
structure Established (esp : BitVec 32) (after : Memory) : Prop where
  segments : ∀ i, Loads phys m i → ∀ k < (programHeader phys m i).memsz.toNat,
    after (phys ((programHeader phys m i).vaddr + BitVec.ofNat 32 k)) =
      if k < (programHeader phys m i).filesz.toNat then
        m (phys (kernelBinBaseAddr + (programHeader phys m i).offset + BitVec.ofNat 32 k))
      else 0
  elsewhere : ∀ c, c ∉ stack phys esp → (∀ i, Loads phys m i → c ∉ segment phys m i) →
    after c = m c

/-- The first `i` headers have been gone through. -/
structure LoadedUpTo (esp : BitVec 32) (i : Nat) (after : Memory) : Prop where
  bytes : ∀ j < i, Loads phys m j → ∀ k < (programHeader phys m j).filesz.toNat,
    after (phys ((programHeader phys m j).vaddr + BitVec.ofNat 32 k)) =
      m (phys (kernelBinBaseAddr + (programHeader phys m j).offset + BitVec.ofNat 32 k))
  elsewhere : ∀ c, c ∉ stack phys esp → (∀ j < i, Loads phys m j → c ∉ filePart phys m j) →
    after c = m c

/-- The registers at header `i`, and the return address at the bottom of the stack. -/
structure AtHeader (esp ret' : BitVec 32) (i : Nat) (s : Cpu) : Prop where
  ebx : s.ebx = headerAt phys m i
  ecx : s.ecx = BitVec.ofNat 32 ((phnum phys m).toNat - i)
  edx : s.edx = (phentsize phys m).setWidth 32
  top : s.esp = esp - 28 + 24
  returns : s.mem.peek phys (esp - 28 + 24) = ret'
  loaded : LoadedUpTo phys m esp i s.mem

end File

/-! ## The loop over the headers -/

section Loop

variable {phys : BitVec 32 → BitVec 32} {m : Memory} {esp ret ret' : BitVec 32} {len i : Nat}

/-- The first byte of a word. -/
theorem setWidth_peek (a : BitVec 32) : (m.peek phys a).setWidth 8 = m (phys a) := by
  ext k low
  rw [BitVec.getElem_setWidth, peek, load]
  refine BitVec.getLsbD_append.trans ?_
  rw [if_pos low, BitVec.getLsbD_eq_getElem low]

namespace Elf

variable (elf : Elf phys m esp len)

include elf

theorem filePart_subset (loads : Loads phys m i) : filePart phys m i ⊆ segment phys m i :=
  cells_mono (BitVec.le_def.1 (elf.sizes i loads))

/-- What has been copied so far does not meet the file. -/
theorem image_kept {after : Memory} (loaded : LoadedUpTo phys m esp i after) :
    ∀ c ∈ cells phys kernelBinBaseAddr len, after c = m c := by
  intro c inside
  refine loaded.elsewhere c (Set.disjoint_right.1 elf.stackImage inside) fun j below loads part => ?_
  exact Set.disjoint_left.1 (elf.image j loads) (elf.filePart_subset loads part) inside

theorem header_inside (below : i < (phnum phys m).toNat) :
    cells phys (headerAt phys m i) 32 ⊆ cells phys kernelBinBaseAddr len := by
  obtain ⟨k, fits, place⟩ := elf.headers i below
  rw [place]
  exact cells_add fits

theorem step {s : Cpu} (at_ : AtHeader phys m esp ret' i s) (below : i < (phnum phys m).toNat) :
    ∃ t, eachSegment phys ret s = some t ∧ SameRegs s t ∧
      t.mem.peek phys (esp - 28 + 24) = ret' ∧ LoadedUpTo phys m esp (i + 1) t.mem := by
  have kept := elf.image_kept at_.loaded
  have inside := elf.header_inside below
  have field {j : Nat} (within : j + 4 ≤ 32) :
      s.mem.peek phys (headerAt phys m i + BitVec.ofNat 32 j) =
        m.peek phys (headerAt phys m i + BitVec.ofNat 32 j) :=
    peek_congr fun c member => kept c (inside (cells_add within member))
  have type : s.mem.peek phys (headerAt phys m i) = (programHeader phys m i).type := by
    have first := @field 0 (by omega)
    rwa [show headerAt phys m i + BitVec.ofNat 32 0 = headerAt phys m i from BitVec.add_zero _] at first
  have byte : s.byte phys s.ebx = (programHeader phys m i).type.setWidth 8 := by
    rw [Cpu.byte, at_.ebx, ← @setWidth_peek phys s.mem, type]
  rcases elf.types i below with null | load
  · rw [null] at byte
    refine ⟨s, eachSegment_skips byte, ⟨rfl, rfl, rfl, rfl⟩, at_.returns, ?_, ?_⟩
    · intro j upTo loads
      by_cases last : j = i
      · rw [last, Loads, null] at loads
        exact absurd loads.2 (by decide)
      · exact at_.loaded.bytes j (by omega) loads
    · intro c notStack parts
      exact at_.loaded.elsewhere c notStack fun j upTo => parts j (by omega)
  · have loads : Loads phys m i := ⟨below, load⟩
    have part := elf.filePart_subset loads
    rw [load] at byte
    have nonzero : s.byte phys s.ebx ≠ 0 := by
      rw [byte]
      decide
    have frame24 : cells phys (esp - 28) 24 ⊆ stack phys esp := cells_mono (by omega)
    have source : kernelBinBaseAddr + (programHeader phys m i).offset =
        kernelBinBaseAddr + BitVec.ofNat 32 (programHeader phys m i).offset.toNat := by
      rw [BitVec.ofNat_toNat, BitVec.setWidth_eq]
    have sourceInside : cells phys (kernelBinBaseAddr + (programHeader phys m i).offset)
        (programHeader phys m i).filesz.toNat ⊆ cells phys kernelBinBaseAddr len := by
      rw [source]
      exact cells_add (elf.file i loads)
    have apart : Apart phys (esp - 28) (programHeader phys m i).vaddr
        (kernelBinBaseAddr + (programHeader phys m i).offset)
        (programHeader phys m i).filesz.toNat := by
      refine ⟨?_, ?_, ?_, ?_, ?_⟩
      · intro j k low low'
        exact elf.frame j k (by omega) (by omega)
      · intro j k low low'
        have size := BitVec.le_def.1 (elf.sizes i loads)
        exact elf.single i loads j k (by omega) (by omega)
      · exact (elf.image i loads).symm.mono sourceInside part
      · exact elf.stackImage.symm.mono sourceInside frame24
      · exact (elf.stackSegment i loads).symm.mono part frame24
    have headerApart : Disjoint (cells phys s.ebx 20) (cells phys (esp - 28) 24) := by
      rw [at_.ebx]
      exact elf.stackImage.symm.mono ((cells_mono (by omega)).trans inside) frame24
    obtain ⟨t, run, regs, copied⟩ := @eachSegment_copies phys s (esp - 28) _ _ _ ret at_.top nonzero
      headerApart (by rw [at_.ebx]; exact @field 8 (by omega))
      (by rw [at_.ebx, BitVec.add_comm]; exact congrArg _ (@field 4 (by omega)))
      (by rw [at_.ebx]; exact @field 16 (by omega)) apart
    refine ⟨t, run, regs, ?_, ?_, ?_⟩
    · rw [← at_.returns]
      refine peek_congr fun c member => copied.elsewhere c (fun within => ?_) fun within => ?_
      · have ends := @Single.disjoint phys (esp - 28) 28 0 24 24 4 elf.frame (by omega) (by omega)
        rw [show esp - 28 + BitVec.ofNat 32 0 = esp - 28 from BitVec.add_zero _] at ends
        exact Set.disjoint_left.1 ends within member
      · have within' : c ∈ stack phys esp :=
          Set.mem_of_mem_of_subset member (@cells_add phys (esp - 28) 28 24 4 (by omega))
        exact Set.disjoint_left.1 (elf.stackSegment i loads) within' (part within)
    · intro j upTo loads' k low
      by_cases last : j = i
      · subst last
        rw [copied.bytes k low]
        exact kept _ (sourceInside (mem_cells low))
      · have member : phys ((programHeader phys m j).vaddr + BitVec.ofNat 32 k) ∈ segment phys m j :=
          elf.filePart_subset loads' (mem_cells low)
        rw [copied.elsewhere _ (fun within => ?_) fun within => ?_]
        · exact at_.loaded.bytes j (by omega) loads' k low
        · exact Set.disjoint_left.1 (elf.stackSegment j loads') (frame24 within) member
        · exact Set.disjoint_left.1 (elf.apart i j loads loads' (Ne.symm last)) (part within) member
    · intro c notStack parts
      rw [copied.elsewhere c (fun within => notStack (frame24 within)) (parts i (by omega) loads)]
      exact at_.loaded.elsewhere c notStack fun j upTo => parts j (by omega)

theorem segmentLoop_loads (left turns : Nat) {s : Cpu} (some_ : 1 ≤ left) (enough : left ≤ turns)
    (rest : i + left = (phnum phys m).toNat) (at_ : AtHeader phys m esp ret' i s) :
    ∃ t, segmentLoop phys ret turns s = some t ∧ t.esp = esp - 28 + 24 ∧
      t.mem.peek phys (esp - 28 + 24) = ret' ∧
      LoadedUpTo phys m esp (phnum phys m).toNat t.mem := by
  induction left generalizing i turns s with
  | zero => omega
  | succ left ih =>
      obtain ⟨turns, rfl⟩ : ∃ n, turns = n + 1 := ⟨turns - 1, by omega⟩
      obtain ⟨t, run, regs, returns, loaded⟩ := @step _ _ _ ret _ _ _ elf _ at_ (by omega)
      have small := (phnum phys m).isLt
      have next : t.ebx + t.edx = headerAt phys m (i + 1) := by
        rw [regs.ebx, regs.edx, at_.ebx, at_.edx, headerAt, headerAt, BitVec.ofNat_add, BitVec.add_mul,
          BitVec.ofNat_eq_ofNat, BitVec.one_mul, BitVec.add_assoc]
      have count : t.ecx - 1 = BitVec.ofNat 32 ((phnum phys m).toNat - (i + 1)) := by
        rw [regs.ecx, at_.ecx]
        bv_omega
      rw [segmentLoop, run, Option.bind_eq_bind, Option.bind_some]
      simp only [next, count]
      by_cases last : left = 0
      · have done : i + 1 = (phnum phys m).toNat := by omega
        rw [done, Nat.sub_self, if_pos (show BitVec.ofNat 32 0 = 0 from rfl)]
        rw [done] at loaded
        exact ⟨_, rfl, regs.esp.trans at_.top, returns, loaded⟩
      · rw [if_neg]
        · refine ih turns (by omega) (by omega) (by omega) ⟨rfl, rfl, ?_, ?_, returns, loaded⟩
          · exact regs.edx.trans at_.edx
          · exact regs.esp.trans at_.top
        · intro zero
          have := congrArg BitVec.toNat zero
          simp only [BitVec.ofNat_eq_ofNat, BitVec.toNat_ofNat] at this
          omega

/-- `call INIT_KERNEL` returns with the parts of the segments that are in the file. -/
theorem callInitKernel_loads (s : Cpu) (top : s.esp = esp) (mem : s.mem = m) :
    ∃ t, callInitKernel phys ret ret' s = some t ∧
      LoadedUpTo phys m esp (phnum phys m).toNat t.mem := by
  have place : s.esp - 4 = esp - 28 + 24 := by
    rw [top]
    bv_omega
  have inside : cells phys (esp - 28 + 24) 4 ⊆ stack phys esp :=
    @cells_add phys (esp - 28) 28 24 4 (by omega)
  have pushed : ∀ c, c ∉ stack phys esp → (s.push phys ret').mem c = m c := by
    intro c notStack
    show s.mem.poke phys (s.esp - 4) ret' c = m c
    rw [place, mem]
    exact poke_outside fun within => notStack (inside within)
  have file : ∀ c ∈ cells phys kernelBinBaseAddr len, (s.push phys ret').mem c = m c :=
    fun c member => pushed c (Set.disjoint_right.1 elf.stackImage member)
  have header := elf.header
  have byte {k : Nat} (low : k < 52) : (s.push phys ret').mem (phys (kernelBinBaseAddr +
      BitVec.ofNat 32 k)) = m (phys (kernelBinBaseAddr + BitVec.ofNat 32 k)) :=
    file _ (mem_cells (by omega))
  have offset : (s.push phys ret').mem.peek phys (kernelBinBaseAddr + 28) =
      m.peek phys (kernelBinBaseAddr + 28) :=
    peek_congr fun c member => file c (@cells_add phys kernelBinBaseAddr len 28 4 (by omega) c member)
  have next {k : Nat} (low : k + 1 < 52) : (s.push phys ret').mem (phys (kernelBinBaseAddr +
      BitVec.ofNat 32 k + 1)) = m (phys (kernelBinBaseAddr + BitVec.ofNat 32 k + 1)) := by
    have address : kernelBinBaseAddr + BitVec.ofNat 32 k + 1 =
        kernelBinBaseAddr + BitVec.ofNat 32 (k + 1) := by
      rw [BitVec.ofNat_add, ← BitVec.add_assoc]
      rfl
    rw [address]
    exact byte low
  have size : (s.push phys ret').word phys (kernelBinBaseAddr + 42) = phentsize phys m :=
    congrArg₂ (· ++ ·) (@next 42 (by omega)) (@byte 42 (by omega))
  have count : (s.push phys ret').word phys (kernelBinBaseAddr + 44) = phnum phys m :=
    congrArg₂ (· ++ ·) (@next 44 (by omega)) (@byte 44 (by omega))
  let u : Cpu :=
    { s.push phys ret' with
      eax := 0
      ebx := headerAt phys m 0
      ecx := (phnum phys m).setWidth 32
      edx := (phentsize phys m).setWidth 32 }
  have start : initKernel phys ret (s.push phys ret') = segmentLoop phys ret (2 ^ 32) u := by
    have first : headerAt phys m 0 = m.peek phys (kernelBinBaseAddr + 28) + kernelBinBaseAddr := by
      rw [headerAt, show BitVec.ofNat 32 0 = (0 : BitVec 32) from rfl, zero_mul, add_zero]
    show segmentLoop phys ret (2 ^ 32)
      { s.push phys ret' with
        eax := 0
        ebx := (s.push phys ret').mem.peek phys (kernelBinBaseAddr + 28) + kernelBinBaseAddr
        ecx := ((s.push phys ret').word phys (kernelBinBaseAddr + 44)).setWidth 32
        edx := ((s.push phys ret').word phys (kernelBinBaseAddr + 42)).setWidth 32 } = _
    rw [size, count, offset, ← first]
  have at_ : AtHeader phys m esp ret' 0 u := by
    refine ⟨rfl, ?_, rfl, place, ?_, fun j below => absurd below (Nat.not_lt_zero j),
      fun c notStack _ => pushed c notStack⟩
    · rw [Nat.sub_zero, BitVec.ofNat_toNat]
    show (s.mem.poke phys (s.esp - 4) ret').peek phys (esp - 28 + 24) = ret'
    rw [place]
    exact peek_poke (@Single.add phys (esp - 28) 28 24 4 elf.frame (by omega))
  have small := (phnum phys m).isLt
  obtain ⟨t, run, top', returns, loaded⟩ := @segmentLoop_loads _ _ _ ret ret' _ 0 elf
    (phnum phys m).toNat (2 ^ 32) u elf.some_ (by omega) (Nat.zero_add _) at_
  refine ⟨_, Cpu.call_returns (start.trans run) ?_, loaded⟩
  rw [Cpu.dword, top', returns]

end Elf

/-- The rest of a segment stays what it was. -/
theorem Elf.tail_kept (elf : Elf phys m esp len) {after : Memory} {n : Nat}
    (loaded : LoadedUpTo phys m esp n after) (loads : Loads phys m i) {k : Nat}
    (behind : (programHeader phys m i).filesz.toNat ≤ k)
    (inside : k < (programHeader phys m i).memsz.toNat) :
    after (phys ((programHeader phys m i).vaddr + BitVec.ofNat 32 k)) =
      m (phys ((programHeader phys m i).vaddr + BitVec.ofNat 32 k)) := by
  have member : phys ((programHeader phys m i).vaddr + BitVec.ofNat 32 k) ∈ segment phys m i :=
    mem_cells inside
  refine loaded.elsewhere _ (Set.disjoint_right.1 (elf.stackSegment i loads) member) ?_
  intro j _ loads' part
  by_cases same : j = i
  · subst same
    obtain ⟨k', low, place⟩ := part
    have := elf.single j loads k k' inside (by omega) place
    omega
  · exact Set.disjoint_left.1 (elf.apart j i loads' loads same) (elf.filePart_subset loads' part) member

/-- **`INIT_KERNEL` establishes the segments exactly when what they have behind their
bytes in the file is zero already.** -/
theorem segments_established_iff {s : Cpu} (elf : Elf phys s.mem s.esp len) :
    (∃ t, callInitKernel phys ret ret' s = some t ∧ Established phys s.mem s.esp t.mem) ↔
      ∀ i, Loads phys s.mem i → ∀ k, (programHeader phys s.mem i).filesz.toNat ≤ k →
        k < (programHeader phys s.mem i).memsz.toNat →
        s.mem (phys ((programHeader phys s.mem i).vaddr + BitVec.ofNat 32 k)) = 0 := by
  obtain ⟨t, run, loaded⟩ := @Elf.callInitKernel_loads _ _ _ ret ret' _ elf s rfl rfl
  constructor
  · rintro ⟨t', run', established⟩ i loads k behind inside
    rw [run] at run'
    cases run'
    have zero := established.segments i loads k inside
    rw [if_neg (not_lt.2 behind)] at zero
    rw [← elf.tail_kept loaded loads behind inside, zero]
  · intro zeros
    refine ⟨t, run, fun i loads k inside => ?_, fun c notStack segments => ?_⟩
    · split
      · rename_i low
        exact loaded.bytes i loads.1 loads k low
      · rename_i behind
        rw [elf.tail_kept loaded loads (not_lt.1 behind) inside]
        exact zeros i loads k (not_lt.1 behind) inside
    · exact loaded.elsewhere c notStack fun i _ loads part =>
        segments i loads (elf.filePart_subset loads part)

end Loop

/-! ## A kernel of two bytes -/

/-- A file with one segment: a byte of the file, and one that is to be zero. -/
def twoByteKernel (dirty : Bool) : Memory := fun a =>
  if a = 0x1001c then 52
  else if a = 0x1002a then 32
  else if a = 0x1002c then 1
  else if a = 0x10034 then 1
  else if a = 0x10038 then 84
  else if a = 0x1003e then 0x10
  else if a = 0x1003f then 0x80
  else if a = 0x10044 then 1
  else if a = 0x10048 then 2
  else if a = 0x10054 then 0xf4
  else if a = 0x80100001 then if dirty then 0xff else 0
  else 0

/-- The loader with that file, without translation. -/
def loaderWith (dirty : Bool) : Cpu where
  eax := 0
  ebx := 0
  ecx := 0
  edx := 0
  esi := 0
  edi := 0
  ebp := 0
  esp := 0x70000
  mem := twoByteKernel dirty

section TwoBytes

variable (dirty : Bool)

theorem twoByteKernel_phnum : (phnum id (twoByteKernel dirty)).toNat = 1 := by
  cases dirty <;> decide +kernel

theorem twoByteKernel_headerAt : headerAt id (twoByteKernel dirty) 0 = 0x10034 := by
  cases dirty <;> decide +kernel

theorem twoByteKernel_header : programHeader id (twoByteKernel dirty) 0 =
    { type := 1, offset := 84, vaddr := 0x80100000, filesz := 1, memsz := 2 } := by
  cases dirty <;> decide +kernel

theorem twoByteKernel_loads {i : Nat} (loads : Loads id (twoByteKernel dirty) i) : i = 0 := by
  have below := loads.1
  rw [twoByteKernel_phnum] at below
  omega

theorem twoByteKernel_elf : Elf id (twoByteKernel dirty) 0x70000 85 := by
  have header := twoByteKernel_header dirty
  have only := @twoByteKernel_loads dirty
  have one := twoByteKernel_phnum dirty
  refine ⟨by decide, one.ge, fun i below => ?_, fun i below => ?_, fun i loads => ?_,
    fun i loads => ?_, fun i loads => ?_, fun i j loads loads' apart => ?_, fun i loads => ?_,
    fun i j low low' same => ?_, ?_, fun i loads => ?_⟩
  · obtain rfl : i = 0 := by omega
    exact ⟨52, by decide, twoByteKernel_headerAt dirty⟩
  · obtain rfl : i = 0 := by omega
    rw [header]
    exact .inr rfl
  · rw [only loads, header]
    decide
  · rw [only loads, header]
    decide
  · rw [only loads, header]
    intro j k low low' same
    simp only [id] at same
    bv_omega
  · exact absurd ((only loads).trans (only loads').symm) apart
  · rw [only loads, segment, header, Set.disjoint_left]
    rintro _ ⟨k, low, rfl⟩ ⟨k', low', same⟩
    simp only [id, kernelBinBaseAddr] at same low
    bv_omega
  · simp only [id] at same
    bv_omega
  · rw [stack, Set.disjoint_left]
    rintro _ ⟨k, low, rfl⟩ ⟨k', low', same⟩
    simp only [id, kernelBinBaseAddr] at same
    bv_omega
  · rw [only loads, segment, header, stack, Set.disjoint_left]
    rintro _ ⟨k, low, rfl⟩ ⟨k', low', same⟩
    simp only [id] at same low'
    bv_omega

end TwoBytes

/-- On memory of zeros the second byte of the segment is zero. -/
theorem clean_kernel_established :
    ∃ t, callInitKernel id 0x600 0x700 (loaderWith false) = some t ∧
      Established id (twoByteKernel false) 0x70000 t.mem := by
  refine (@segments_established_iff id 0x600 0x700 85 (loaderWith false) (twoByteKernel_elf false)).2 ?_
  intro i loads k behind inside
  have zero := twoByteKernel_loads false loads
  subst zero
  have header : programHeader id (loaderWith false).mem 0 =
      { type := 1, offset := 84, vaddr := 0x80100000, filesz := 1, memsz := 2 } :=
    twoByteKernel_header false
  rw [header] at behind inside ⊢
  obtain rfl : k = 1 := by
    simp only [BitVec.ofNat_eq_ofNat, BitVec.toNat_ofNat] at behind inside
    omega
  rfl

/-- With something else there before, it stays. -/
theorem dirty_kernel_kept :
    Elf id (twoByteKernel true) 0x70000 85 ∧ Loads id (twoByteKernel true) 0 ∧
      ∃ t, callInitKernel id 0x600 0x700 (loaderWith true) = some t ∧ t.mem 0x80100001 = 0xff ∧
        ¬ Established id (twoByteKernel true) 0x70000 t.mem := by
  have elf := twoByteKernel_elf true
  have loads : Loads id (twoByteKernel true) 0 := ⟨by decide, rfl⟩
  obtain ⟨t, run, loaded⟩ :=
    @Elf.callInitKernel_loads id _ 0x70000 0x600 0x700 85 elf (loaderWith true) rfl rfl
  have kept : t.mem 0x80100001 = 0xff := @Elf.tail_kept id _ _ 85 0 elf _ _ loaded loads 1
    (by decide) (by decide)
  refine ⟨elf, loads, t, run, kept, fun established => ?_⟩
  have zero : t.mem 0x80100001 = 0 := established.segments 0 loads 1 (by decide)
  rw [kept] at zero
  exact absurd zero (by decide)

end TestOs.Boot
