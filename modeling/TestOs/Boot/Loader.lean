/-
# Boot.Loader -- INIT_KERNEL, which brings the kernel to its addresses

The loader has the kernel's ELF file in memory and goes through its program
headers.  A header that is not `PT_NULL` is a segment, and its `p_filesz` bytes
are copied to `p_vaddr` (`eachSegment_copies`).  `Boot.Segments` has the loop over
the headers.

Paging is on, so linear addresses are translated, by `phys`.  The stack is in
the same memory as everything else, and a `ret` that does not find the address
of its call leaves the model.
-/
import TestOs.Library.PagedMemory

namespace TestOs.Boot

open TestOs.Library Memory

set_option autoImplicit false

/-! ## The processor -/

structure Cpu where
  eax : BitVec 32
  ebx : BitVec 32
  ecx : BitVec 32
  edx : BitVec 32
  esi : BitVec 32
  edi : BitVec 32
  ebp : BitVec 32
  esp : BitVec 32
  mem : Memory

section Instructions

variable (phys : BitVec 32 → BitVec 32)

/-- The byte and the word at a linear address. -/
def Cpu.byte (s : Cpu) (a : BitVec 32) : BitVec 8 := s.mem (phys a)

def Cpu.word (s : Cpu) (a : BitVec 32) : BitVec 16 := s.mem (phys (a + 1)) ++ s.mem (phys a)

def Cpu.dword (s : Cpu) (a : BitVec 32) : BitVec 32 := s.mem.peek phys a

def Cpu.push (s : Cpu) (v : BitVec 32) : Cpu :=
  { s with esp := s.esp - 4, mem := s.mem.poke phys (s.esp - 4) v }

/-- `rep movsb`, upwards. -/
def Cpu.repMovsb (s : Cpu) : Cpu :=
  { s with
    mem := s.mem.copyUp phys s.ecx.toNat s.esi s.edi
    esi := s.esi + s.ecx
    edi := s.edi + s.ecx
    ecx := 0 }

/-- `call`, up to the `ret` of the body. -/
def Cpu.call (s : Cpu) (body : Cpu → Option Cpu) (ret : BitVec 32) : Option Cpu := do
  let s ← body (s.push phys ret)
  if s.dword phys s.esp = ret then some { s with esp := s.esp + 4 } else none

/-! ## loader.asm -/

/-- `KERNEL_BIN_BASE_ADDR`. -/
def kernelBinBaseAddr : BitVec 32 := 0x10000

def memoryCopy (s : Cpu) : Cpu :=
  let s := s.push phys s.ebp
  let s := { s with ebp := s.esp }
  let s := s.push phys s.ecx
  let s := { s with edi := s.dword phys (s.ebp + 8) }
  let s := { s with esi := s.dword phys (s.ebp + 12) }
  let s := { s with ecx := s.dword phys (s.ebp + 16) }
  let s := s.repMovsb phys
  let s := { s with ecx := s.dword phys s.esp, esp := s.esp + 4 }
  { s with ebp := s.dword phys s.esp, esp := s.esp + 4 }

/-- `.EACH_SEGMENT` up to `.PTNULL`; `ret` is the address behind the call. -/
def eachSegment (ret : BitVec 32) (s : Cpu) : Option Cpu :=
  if s.byte phys (s.ebx + 0) = 0 then some s
  else do
    let s := s.push phys (s.dword phys (s.ebx + 16))
    let s := { s with eax := s.dword phys (s.ebx + 4) }
    let s := { s with eax := s.eax + kernelBinBaseAddr }
    let s := s.push phys s.eax
    let s := s.push phys (s.dword phys (s.ebx + 8))
    let s ← s.call phys (fun s => some (memoryCopy phys s)) ret
    return { s with esp := s.esp + 12 }

/-- `.EACH_SEGMENT` with its `loop`, of so many turns at most. -/
def segmentLoop (ret : BitVec 32) : Nat → Cpu → Option Cpu
  | 0, _ => none
  | turns + 1, s => do
      let s ← eachSegment phys ret s
      let s := { s with ebx := s.ebx + s.edx }
      let s := { s with ecx := s.ecx - 1 }
      if s.ecx = 0 then some s else segmentLoop ret turns s

/-- `INIT_KERNEL`. -/
def initKernel (ret : BitVec 32) (s : Cpu) : Option Cpu :=
  let s := { s with eax := 0, ebx := 0, ecx := 0, edx := 0 }
  let s := { s with edx := (s.word phys (kernelBinBaseAddr + 42)).setWidth 32 }
  let s := { s with ebx := s.dword phys (kernelBinBaseAddr + 28) }
  let s := { s with ebx := s.ebx + kernelBinBaseAddr }
  let s := { s with ecx := (s.word phys (kernelBinBaseAddr + 44)).setWidth 32 }
  segmentLoop phys ret (2 ^ 32) s

/-- `call INIT_KERNEL`. -/
def callInitKernel (ret ret' : BitVec 32) (s : Cpu) : Option Cpu :=
  s.call phys (initKernel phys ret) ret'

end Instructions

/-! ## One segment -/

section Segment

variable {phys : BitVec 32 → BitVec 32} {s : Cpu} {b src dst size ret : BitVec 32}

/-- A call whose body leaves the stack as it has found it. -/
theorem Cpu.call_returns {t : Cpu} {body : Cpu → Option Cpu} (runs : body (s.push phys ret) = some t)
    (returns : t.dword phys t.esp = ret) :
    s.call phys body ret = some { t with esp := t.esp + 4 } := by
  rw [Cpu.call, runs, Option.bind_eq_bind, Option.bind_some, if_pos returns]

/-- The words of a stack frame do not meet. -/
theorem Frame.peek {m : Memory} {v : BitVec 32} (single : Single phys b 24) {i j : Nat}
    (apart : i + 4 ≤ j ∨ j + 4 ≤ i) (low : i + 4 ≤ 24) (low' : j + 4 ≤ 24) :
    (m.poke phys (b + BitVec.ofNat 32 i) v).peek phys (b + BitVec.ofNat 32 j) =
      m.peek phys (b + BitVec.ofNat 32 j) := by
  apply peek_poke_of_disjoint
  rcases apart with below | above
  · exact single.disjoint below low'
  · exact (single.disjoint above low).symm

/-- The arguments of `MEMORY_COPY`, above the return address at `b + 8`. -/
structure Arguments (phys : BitVec 32 → BitVec 32) (b dst src size : BitVec 32) (s : Cpu) : Prop where
  esp : s.esp = b + 8
  dst : s.mem.peek phys (b + 12) = dst
  src : s.mem.peek phys (b + 16) = src
  size : s.mem.peek phys (b + 20) = size

/-- What is copied, and where the stack is. -/
structure Apart (phys : BitVec 32 → BitVec 32) (b dst src : BitVec 32) (n : Nat) : Prop where
  frame : Single phys b 24
  single : Single phys dst n
  srcDst : Disjoint (cells phys src n) (cells phys dst n)
  srcStack : Disjoint (cells phys src n) (cells phys b 24)
  dstStack : Disjoint (cells phys dst n) (cells phys b 24)

/-- The registers that the loop over the headers uses are as before. -/
structure SameRegs (before after : Cpu) : Prop where
  ebx : after.ebx = before.ebx
  ecx : after.ecx = before.ecx
  edx : after.edx = before.edx
  esp : after.esp = before.esp

/-- The copy of a segment: nothing but its bytes and the stack has changed. -/
structure Copied (phys : BitVec 32 → BitVec 32) (stack : Set (BitVec 32)) (dst src : BitVec 32)
    (n : Nat) (before after : Memory) : Prop where
  bytes : ∀ k < n, after (phys (dst + BitVec.ofNat 32 k)) = before (phys (src + BitVec.ofNat 32 k))
  elsewhere : ∀ c, c ∉ stack → c ∉ cells phys dst n → after c = before c

theorem memoryCopy_copies (args : Arguments phys b dst src size s)
    (apart : Apart phys b dst src size.toNat) :
    SameRegs s (memoryCopy phys s) ∧
      Copied phys (cells phys b 8) dst src size.toNat s.mem (memoryCopy phys s).mem := by
  have single := apart.frame
  have first : s.esp - 4 = b + 4 := by
    rw [args.esp]
    bv_omega
  have second : b + 4 - 4 = b := by bv_omega
  have third : b + 4 + 8 = b + 12 := by bv_omega
  have fourth : b + 4 + 12 = b + 16 := by bv_omega
  have fifth : b + 4 + 16 = b + 20 := by bv_omega
  have zero : b + BitVec.ofNat 32 0 = b := BitVec.add_zero b
  -- the memory once both registers are saved
  have saved (v w : BitVec 32) (j : Nat) (low : 8 ≤ j) (high : j + 4 ≤ 24) :
      ((s.mem.poke phys (b + 4) v).poke phys b w).peek phys (b + BitVec.ofNat 32 j) =
        s.mem.peek phys (b + BitVec.ofNat 32 j) := by
    have last := @Frame.peek phys b (s.mem.poke phys (b + 4) v) w single 0 j (by omega) (by omega) high
    rw [zero] at last
    exact last.trans (@Frame.peek phys b s.mem v single 4 j (by omega) (by omega) high)
  let m := (s.mem.poke phys (b + 4) s.ebp).poke phys b s.ecx
  have toDst : m.peek phys (b + 12) = dst :=
    (saved s.ebp s.ecx 12 (by omega) (by omega)).trans args.dst
  have toSrc : m.peek phys (b + 16) = src :=
    (saved s.ebp s.ecx 16 (by omega) (by omega)).trans args.src
  have toSize : m.peek phys (b + 20) = size :=
    (saved s.ebp s.ecx 20 (by omega) (by omega)).trans args.size
  have slot : Single phys b 4 := by
    have own := @Single.add phys b 24 0 4 single (by omega)
    rwa [zero] at own
  have slot' : Single phys (b + 4) 4 := @Single.add phys b 24 4 4 single (by omega)
  have toEcx : m.peek phys b = s.ecx := peek_poke slot
  have toEbp : m.peek phys (b + 4) = s.ebp := by
    have last := @Frame.peek phys b (s.mem.poke phys (b + 4) s.ebp) s.ecx single 0 4 (by omega)
      (by omega) (by omega)
    rw [zero] at last
    exact last.trans (peek_poke slot')
  have inside : cells phys b 4 ⊆ cells phys b 8 := cells_mono (by omega)
  have inside' : cells phys (b + 4) 4 ⊆ cells phys b 8 := @cells_add phys b 8 4 4 (by omega)
  have outside : ∀ c, c ∉ cells phys b 8 → m c = s.mem c := by
    intro c notStack
    have first : m c = s.mem.poke phys (b + 4) s.ebp c :=
      poke_outside fun within => notStack (inside within)
    rw [first, poke_outside fun within => notStack (inside' within)]
  have back : b + 4 + 4 = s.esp := by
    rw [args.esp]
    bv_omega
  -- the copy leaves the stack alone
  have kept : ∀ a, cells phys a 4 ⊆ cells phys b 8 →
      (m.copyUp phys size.toNat src dst).peek phys a = m.peek phys a := fun a within =>
    peek_congr fun c member => copyUp_outside
      (Set.disjoint_right.1 apart.dstStack (cells_mono (by omega) (within member)))
  have run : memoryCopy phys s =
      { s with mem := m.copyUp phys size.toNat src dst, esi := src + size, edi := dst + size } := by
    unfold memoryCopy
    simp only [Cpu.push, Cpu.repMovsb, Cpu.dword, first, second, third, fourth, fifth]
    rw [show (s.mem.poke phys (b + 4) s.ebp).poke phys b s.ecx = m from rfl, toSize, toSrc, toDst,
      kept b inside, kept (b + 4) inside', toEcx, toEbp, back]
  rw [run]
  refine ⟨⟨rfl, rfl, rfl, rfl⟩, fun k below => ?_, fun c notStack notDst => ?_⟩
  · show m.copyUp phys size.toNat src dst _ = _
    rw [copyUp_inside apart.single apart.srcDst below]
    refine outside _ fun within => ?_
    exact Set.disjoint_left.1 apart.srcStack (mem_cells below) (cells_mono (by omega) within)
  · show m.copyUp phys size.toNat src dst c = _
    rw [copyUp_outside notDst, outside c notStack]

theorem eachSegment_skips (null : s.byte phys s.ebx = 0) : eachSegment phys ret s = some s := by
  unfold eachSegment
  rw [show s.ebx + 0 = s.ebx from BitVec.add_zero _, if_pos null]

theorem eachSegment_copies (esp : s.esp = b + 24) (loads : s.byte phys s.ebx ≠ 0)
    (header : Disjoint (cells phys s.ebx 20) (cells phys b 24))
    (toDst : s.mem.peek phys (s.ebx + 8) = dst)
    (toSrc : s.mem.peek phys (s.ebx + 4) + kernelBinBaseAddr = src)
    (toSize : s.mem.peek phys (s.ebx + 16) = size) (apart : Apart phys b dst src size.toNat) :
    ∃ t, eachSegment phys ret s = some t ∧ SameRegs s t ∧
      Copied phys (cells phys b 24) dst src size.toNat s.mem t.mem := by
  have single := apart.frame
  have first : s.esp - 4 = b + 20 := by
    rw [esp]
    bv_omega
  have second : b + 20 - 4 = b + 16 := by bv_omega
  have third : b + 16 - 4 = b + 12 := by bv_omega
  have fourth : b + 12 - 4 = b + 8 := by bv_omega
  have slot {i : Nat} (inside : i + 4 ≤ 24) : cells phys (b + BitVec.ofNat 32 i) 4 ⊆ cells phys b 24 :=
    cells_add inside
  -- what is pushed does not meet the header
  have field {m : Memory} {v : BitVec 32} {i j : Nat} (inside : i + 4 ≤ 24) (within : j + 4 ≤ 20) :
      (m.poke phys (b + BitVec.ofNat 32 i) v).peek phys (s.ebx + BitVec.ofNat 32 j) =
        m.peek phys (s.ebx + BitVec.ofNat 32 j) :=
    peek_poke_of_disjoint (header.symm.mono (slot inside) (cells_add within))
  let m1 := s.mem.poke phys (b + 20) size
  let m2 := m1.poke phys (b + 16) src
  let m3 := m2.poke phys (b + 12) dst
  let m4 := m3.poke phys (b + 8) ret
  have toSrc' : m1.peek phys (s.ebx + 4) + kernelBinBaseAddr = src := by
    have same : m1.peek phys (s.ebx + 4) = s.mem.peek phys (s.ebx + 4) :=
      @field s.mem size 20 4 (by omega) (by omega)
    rw [same, toSrc]
  have toDst' : m2.peek phys (s.ebx + 8) = dst := by
    have second := @field m1 src 16 8 (by omega) (by omega)
    have first := @field s.mem size 20 8 (by omega) (by omega)
    exact second.trans (first.trans toDst)
  have pushed : ∀ c, c ∉ cells phys b 24 → m4 c = s.mem c := by
    intro c notStack
    have out {i : Nat} (inside : i + 4 ≤ 24) : c ∉ cells phys (b + BitVec.ofNat 32 i) 4 :=
      fun within => notStack (slot inside within)
    have last : m4 c = m3 c := poke_outside (@out 8 (by omega))
    have third : m3 c = m2 c := poke_outside (@out 12 (by omega))
    have second : m2 c = m1 c := poke_outside (@out 16 (by omega))
    exact last.trans (third.trans (second.trans (poke_outside (@out 20 (by omega)))))
  let called : Cpu := { s with esp := b + 12, mem := m3, eax := src }
  let u : Cpu := { s with esp := b + 8, mem := m4, eax := src }
  have args : Arguments phys b dst src size u := by
    refine ⟨rfl, ?_, ?_, ?_⟩
    · have last := @Frame.peek phys b m3 ret single 8 12 (by omega) (by omega) (by omega)
      exact last.trans (peek_poke (@Single.add phys b 24 12 4 single (by omega)))
    · have last := @Frame.peek phys b m3 ret single 8 16 (by omega) (by omega) (by omega)
      have next := @Frame.peek phys b m2 dst single 12 16 (by omega) (by omega) (by omega)
      exact last.trans (next.trans (peek_poke (@Single.add phys b 24 16 4 single (by omega))))
    · have last := @Frame.peek phys b m3 ret single 8 20 (by omega) (by omega) (by omega)
      have next := @Frame.peek phys b m2 dst single 12 20 (by omega) (by omega) (by omega)
      have under := @Frame.peek phys b m1 src single 16 20 (by omega) (by omega) (by omega)
      exact last.trans (next.trans (under.trans
        (peek_poke (@Single.add phys b 24 20 4 single (by omega)))))
  obtain ⟨regs, bytes, elsewhere⟩ := memoryCopy_copies args apart
  have run : eachSegment phys ret s =
      (called.call phys (fun s => some (memoryCopy phys s)) ret >>= fun s =>
        some { s with esp := s.esp + 12 }) := by
    unfold eachSegment
    rw [show s.ebx + 0 = s.ebx from BitVec.add_zero _, if_neg loads]
    simp only [Cpu.push, Cpu.dword, first, second, third, toSize]
    rw [show s.mem.poke phys (b + 20) size = m1 from rfl, toSrc',
      show m1.poke phys (b + 16) src = m2 from rfl, toDst']
    rfl
  have pushes : called.push phys ret = u := by
    show Cpu.mk _ _ _ _ _ _ _ (b + 12 - 4) (m3.poke phys (b + 12 - 4) ret) = u
    rw [fourth]
  have copied : (fun s => some (memoryCopy phys s)) (called.push phys ret) =
      some (memoryCopy phys u) := by
    rw [pushes]
  generalize memoryCopy phys u = t at regs bytes elsewhere copied
  have returns : t.dword phys t.esp = ret := by
    have slot' : Single phys (b + 8) 4 := @Single.add phys b 24 8 4 single (by omega)
    have top : t.mem.peek phys (b + 8) = m4.peek phys (b + 8) := by
      refine peek_congr fun c within => elsewhere c (fun stack => ?_) fun copied => ?_
      · have apart' := @Single.disjoint phys b 24 0 8 8 4 single (by omega) (by omega)
        rw [show b + BitVec.ofNat 32 0 = b from BitVec.add_zero b] at apart'
        exact Set.disjoint_left.1 apart' stack within
      · have within' : c ∈ cells phys b 24 := Set.mem_of_mem_of_subset within (@slot 8 (by omega))
        exact Set.disjoint_left.1 apart.dstStack copied within'
    rw [Cpu.dword, regs.esp]
    exact top.trans (peek_poke slot')
  rw [Cpu.call_returns copied returns] at run
  refine ⟨_, run, ⟨regs.ebx, regs.ecx, regs.edx, ?_⟩, fun k below => ?_, fun c notStack notDst => ?_⟩
  · show t.esp + 4 + 12 = s.esp
    rw [regs.esp, esp]
    show b + 8 + 4 + 12 = b + 24
    bv_omega
  · rw [bytes k below]
    have notStack : phys (src + BitVec.ofNat 32 k) ∉ cells phys b 24 :=
      Set.disjoint_left.1 apart.srcStack (mem_cells below)
    exact pushed _ notStack
  · refine (elsewhere c (fun stack => notStack (cells_mono (by omega) stack)) notDst).trans ?_
    exact pushed c notStack

end Segment

end TestOs.Boot
