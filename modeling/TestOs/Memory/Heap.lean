/-
# Memory.Heap -- bitmap.c

The heap is cut into pages of 4 KB, counted from `bits_start`, and the bitmap in
front of it has one bit for each.  `bitmap_malloc` is a next-fit search in two
passes: from `bits_ptr` to the end, and from the beginning up to a limit computed
from `bits_ptr`; the count of free pages goes on from the first pass to the
second.  The two loop variables `i` and `j` of a pass are the bit `i * 8 + j`.

Addresses are 32-bit words and wrap; `none` is a failed `ASSERT`.
-/
import TestOs.Library.FlatMemory
import TestOs.Library.RunSearch

namespace TestOs.Memory

open TestOs.Library

set_option autoImplicit false

/-! ## string.c -/

/-- `while (size--) *d++ = *s++`. -/
def copyUp (mem : Memory) (d s : BitVec 32) : Nat → Memory
  | 0 => mem
  | size + 1 => copyUp (Function.update mem d (mem s)) (d + 1) (s + 1) size

/-- `while (size--) *d-- = *s--`. -/
def copyDown (mem : Memory) (d s : BitVec 32) : Nat → Memory
  | 0 => mem
  | size + 1 => copyDown (Function.update mem d (mem s)) (d - 1) (s - 1) size

def memcpy (mem : Memory) (dst src : BitVec 32) (size : Nat) : Memory :=
  if dst = 0 ∨ src = 0 then mem
  else if src + 4 < dst ∨ dst < src then copyUp mem dst src size
  else copyDown mem (dst + BitVec.ofNat 32 size - 1) (src + BitVec.ofNat 32 size - 1) size

/-! ## bitmap.c -/

/-- `KERNEL_HEAP_BOTTOM`, where `bitmap.map` is. -/
def heapBottom : BitVec 32 := 0x80400000

def mapBaseVaddr : BitVec 32 := 0x80000000

/-- The bytes of a page, and of the pages of one byte of the map. -/
def pageSize : Nat := 4 * 1024

def mallocMagic : BitVec 32 := 0x50414548

def freeMagic : BitVec 32 := 0x70616568

/-- `struct bitmap`, and the address space. -/
structure Heap where
  mem : Memory
  mapSize : Nat
  bitsPtr : BitVec 32
  bitsStart : BitVec 32
  bitsEnd : BitVec 32

def initBitmap (mem : Memory) (bytesLen : BitVec 32) : Heap :=
  let bytesLen := bytesLen - (heapBottom - mapBaseVaddr)
  let mapSize := bytesLen.toNat / (8 * pageSize + 1)
  let bytesLen := bytesLen - BitVec.ofNat 32 mapSize
  let bitsStart := heapBottom + BitVec.ofNat 32 mapSize
  { mem := fun a => if (a - heapBottom).toNat < mapSize then 0 else mem a
    mapSize := mapSize
    bitsPtr := bitsStart
    bitsStart := bitsStart
    bitsEnd := bitsStart + bytesLen }

/-- The pages that `bitmap_malloc` looks for. -/
def pagesFor (size : BitVec 32) : Nat :=
  let size := (if size = 0 then 1 else size) + 8
  size.toNat / pageSize + if size.toNat % pageSize ≠ 0 then 1 else 0

/-- `bitmap.map[i] |= 1 << j` for `size` bits, downwards from bit `j` of byte `i`. -/
def mark (mem : Memory) (i : BitVec 32) (j : Nat) : Nat → Memory
  | 0 => mem
  | size + 1 =>
      let a := heapBottom + i
      let mem := Function.update mem a (mem a ||| BitVec.twoPow 8 j)
      if j = 0 then mark mem (i - 1) 7 size else mark mem i (j - 1) size

namespace Heap

/-- Bit `p` of the map. -/
def used (s : Heap) (p : Nat) : Bool := s.mem.bit heapBottom p

/-- The page that an address is in, counted from `bits_start`. -/
def pageOf (s : Heap) (a : BitVec 32) : Nat := (a - s.bitsStart).toNat / pageSize

/-- What is done once `size` free pages have been found, the last one at bit `p`. -/
def take (s : Heap) (p size : Nat) : BitVec 32 × Heap :=
  let allocSize := BitVec.ofNat 32 size * BitVec.ofNat 32 pageSize
  let ret := s.bitsStart + BitVec.ofNat 32 (p + 1) * BitVec.ofNat 32 pageSize - allocSize
  let mem := s.mem.store ret mallocMagic
  let ret := ret + 4
  let mem := mem.store ret (BitVec.ofNat 32 size)
  let ret := ret + 4
  (ret, { s with bitsPtr := ret - 8 + allocSize, mem := mark mem (BitVec.ofNat 32 (p / 8)) (p % 8) size })

/-- The variables at `end`. -/
structure Pass where
  ret : BitVec 32
  found : Nat
  size : Nat
  j : Nat
  heap : Heap

/-- The loops behind `found_prev`, from bit `p` on. -/
def pass (s : Heap) (p len found size : Nat) : Pass :=
  match scan s.used size (8 * len - p) p found with
  | (some q, found) =>
      let (ret, s) := s.take q size
      ⟨ret, found, 0, (q + 7 * size) % 8, s⟩
  | (none, found) => ⟨0, found, size, if p / 8 < len then 0 else p % 8, s⟩

/-- The limit of the second pass. -/
def secondLen (s : Heap) : Nat :=
  (2 ^ 32 + s.mapSize - (s.bitsEnd - s.bitsPtr).toNat / (8 * pageSize) - 1) % 2 ^ 32

def bitmapMalloc (s : Heap) (size : BitVec 32) : BitVec 32 × Heap :=
  let first := s.pass (s.pageOf s.bitsPtr) s.mapSize 0 (pagesFor size)
  if first.ret = 0 then
    let s := first.heap
    let len := s.secondLen
    let second := { s with bitsPtr := s.bitsStart }.pass first.j len first.found first.size
    (second.ret, second.heap)
  else (first.ret, first.heap)

/-- `bitmap.map[i] &= ~(1 << j)` from bit `p` on, until `size` has been counted down to 0. -/
def unmark (mem : Memory) (size : BitVec 32) : (left p : Nat) → Memory
  | 0, _ => mem
  | left + 1, p =>
      let mem := mem.putBit heapBottom p false
      if size - 1 = 0 then mem else unmark mem (size - 1) left (p + 1)

def bitmapFree (s : Heap) (addr : BitVec 32) : Option Heap :=
  let addr := addr - 8
  if s.mem.load addr ≠ mallocMagic then none
  else
    let mem := s.mem.store addr freeMagic
    let size := mem.load (addr + 4)
    let p := s.pageOf addr
    some { s with mem := unmark mem size (8 * s.mapSize - p) p }

def bitmapRealloc (s : Heap) (addr size : BitVec 32) : Option (BitVec 32 × Heap) :=
  if addr = 0 then some (s.bitmapMalloc size)
  else if size = 0 then (s.bitmapFree addr).map fun s => (0, s)
  else
    let oldSize := s.mem.load (addr - 4) * BitVec.ofNat 32 pageSize
    if oldSize < size then
      let (newPtr, s) := s.bitmapMalloc size
      if newPtr ≠ 0 then
        let mem := memcpy s.mem newPtr addr (if size < oldSize then size else oldSize).toNat
        ({ s with mem := mem }.bitmapFree addr).map fun s => (newPtr, s)
      else some (newPtr, s)
    else some (addr, s)

end Heap

/-! ## Runs -/

/-- The heap and the pointers that its users hold. -/
structure Arena where
  heap : Heap
  live : Finset (BitVec 32)

inductive HeapOp where
  | malloc (size : BitVec 32)
  | realloc (addr size : BitVec 32)
  | free (addr : BitVec 32)
  /-- A user stores a byte. -/
  | write (addr : BitVec 32) (byte : BitVec 8)
  deriving DecidableEq

namespace Arena

/-- The pages of a block, as its header says. -/
def pages (s : Arena) (ret : BitVec 32) : Nat := (s.heap.mem.load (ret - 4)).toNat

/-- The bytes behind the header. -/
def InBlock (s : Arena) (ret a : BitVec 32) : Prop := (a - ret).toNat + 8 < s.pages ret * pageSize

instance (s : Arena) (ret a : BitVec 32) : Decidable (s.InBlock ret a) :=
  inferInstanceAs (Decidable (_ < _))

/-- The user keeps what `bitmap_malloc` returns, unless it is NULL. -/
def hold (live : Finset (BitVec 32)) (ret : BitVec 32) : Finset (BitVec 32) :=
  if ret = 0 then live else insert ret live

/-- A call; only live pointers are freed, reallocated and written through. -/
def step (s : Arena) : HeapOp → Option Arena
  | .malloc size =>
      let (ret, heap) := s.heap.bitmapMalloc size
      some ⟨heap, hold s.live ret⟩
  | .realloc addr size =>
      if addr = 0 ∨ addr ∈ s.live then
        (s.heap.bitmapRealloc addr size).map fun (ret, heap) =>
          ⟨heap, if ret = 0 ∧ size ≠ 0 then s.live else hold (s.live.erase addr) ret⟩
      else none
  | .free addr =>
      if addr ∈ s.live then (s.heap.bitmapFree addr).map fun heap => ⟨heap, s.live.erase addr⟩
      else none
  | .write addr byte =>
      if ∃ ret ∈ s.live, s.InBlock ret addr then
        some { s with heap := { s.heap with mem := Function.update s.heap.mem addr byte } }
      else none

/-- The heap as `init_bitmap` leaves it. -/
def start (mem : Memory) (bytesLen : BitVec 32) : Arena := ⟨initBitmap mem bytesLen, ∅⟩

end Arena

/-! ## The map -/

section Mark

variable {mem : Memory} {p q size : Nat} {x : BitVec 32}

/-- One turn sets bit `p`, and the next is about the bit below. -/
theorem mark_succ (enough : size ≤ p) :
    mark mem (BitVec.ofNat 32 (p / 8)) (p % 8) (size + 1) =
      mark (mem.putBit heapBottom p true) (BitVec.ofNat 32 ((p - 1) / 8)) ((p - 1) % 8) size := by
  cases size with
  | zero =>
      simp only [mark, ite_self]
      rfl
  | succ size =>
      rw [mark]
      by_cases first : p % 8 = 0
      · have below : (p - 1) / 8 + 1 = p / 8 := by omega
        have last : (p - 1) % 8 = 7 := by omega
        have back : BitVec.ofNat 32 (p / 8) - 1 = BitVec.ofNat 32 ((p - 1) / 8) := by
          rw [← below, BitVec.ofNat_add]
          exact add_sub_cancel_right _ _
        rw [if_pos first, back, last]
        rfl
      · have same : (p - 1) / 8 = p / 8 := by omega
        have next : (p - 1) % 8 = p % 8 - 1 := by omega
        rw [if_neg first, same, next]
        rfl

/-- The bits from `p` down are set, and no other. -/
theorem bit_mark (p_lt : p < 2 ^ 35) (q_lt : q < 2 ^ 35) (enough : size ≤ p + 1) :
    (mark mem (BitVec.ofNat 32 (p / 8)) (p % 8) size).bit heapBottom q =
      (decide (p < q + size ∧ q ≤ p) || mem.bit heapBottom q) := by
  induction size generalizing mem p with
  | zero =>
      rw [mark, decide_eq_false (by omega), Bool.false_or]
  | succ size ih =>
      rw [mark_succ (by omega)]
      by_cases last : size = 0
      · subst last
        rw [mark, Memory.bit_putBit p_lt q_lt]
        by_cases same : q = p
        · rw [if_pos same, decide_eq_true (by omega), Bool.true_or]
        · rw [if_neg same, decide_eq_false (by omega), Bool.false_or]
      · rw [ih (by omega) (by omega), Memory.bit_putBit p_lt q_lt]
        by_cases same : q = p
        · rw [if_pos same, decide_eq_true (p := p < q + (size + 1) ∧ q ≤ p) (by omega), Bool.or_true,
            Bool.true_or]
        · rw [if_neg same]
          congr 1
          exact decide_eq_decide.2 (by omega)

/-- The bytes of the other bits are kept. -/
theorem mark_outside (enough : size ≤ p + 1)
    (outside : ∀ r, p < r + size → r ≤ p → x ≠ heapBottom + BitVec.ofNat 32 (r / 8)) :
    mark mem (BitVec.ofNat 32 (p / 8)) (p % 8) size x = mem x := by
  induction size generalizing mem p with
  | zero => rfl
  | succ size ih =>
      rw [mark_succ (by omega)]
      by_cases last : size = 0
      · subst last
        exact Memory.putBit_outside (outside p (by omega) (by omega))
      · rw [ih (by omega) fun r low high => outside r (by omega) (by omega)]
        exact Memory.putBit_outside (outside p (by omega) (by omega))

end Mark

namespace Heap

variable {s : Heap} {p len found size : Nat}

theorem pass_found {q count : Nat} (run : scan s.used size (8 * len - p) p found = (some q, count)) :
    s.pass p len found size = ⟨(s.take q size).1, count, 0, (q + 7 * size) % 8, (s.take q size).2⟩ := by
  rw [pass, run]

theorem pass_failed {count : Nat} (run : scan s.used size (8 * len - p) p found = (none, count)) :
    s.pass p len found size = ⟨0, count, size, if p / 8 < len then 0 else p % 8, s⟩ := by
  rw [pass, run]

theorem take_ret (p size : Nat) : (s.take p size).1 = s.bitsStart +
    BitVec.ofNat 32 (p + 1) * BitVec.ofNat 32 pageSize -
      BitVec.ofNat 32 size * BitVec.ofNat 32 pageSize + 4 + 4 := rfl

theorem take_mem (p size : Nat) : (s.take p size).2.mem =
    mark ((s.mem.store ((s.take p size).1 - 8) mallocMagic).store ((s.take p size).1 - 4)
      (BitVec.ofNat 32 size)) (BitVec.ofNat 32 (p / 8)) (p % 8) size := by
  have magicAt : (s.take p size).1 - 8 = s.bitsStart + BitVec.ofNat 32 (p + 1) *
      BitVec.ofNat 32 pageSize - BitVec.ofNat 32 size * BitVec.ofNat 32 pageSize := by
    rw [take_ret]
    generalize s.bitsStart + BitVec.ofNat 32 (p + 1) * BitVec.ofNat 32 pageSize -
      BitVec.ofNat 32 size * BitVec.ofNat 32 pageSize = r
    bv_omega
  have sizeAt : (s.take p size).1 - 4 = s.bitsStart + BitVec.ofNat 32 (p + 1) *
      BitVec.ofNat 32 pageSize - BitVec.ofNat 32 size * BitVec.ofNat 32 pageSize + 4 := by
    rw [take_ret]
    exact add_sub_cancel_right _ _
  rw [magicAt, sizeAt]
  rfl

/-- The pages taken are used. -/
theorem take_used {q : Nat} (p_lt : p < 2 ^ 35) (enough : size ≤ p + 1) (low : p < q + size)
    (high : q ≤ p) : (s.take p size).2.used q = true := by
  refine (bit_mark p_lt (by omega) enough).trans ?_
  rw [decide_eq_true ⟨low, high⟩, Bool.true_or]

/-- The search starts again. -/
def rewind (s : Heap) : Heap := { s with bitsPtr := s.bitsStart }

@[simp] theorem rewind_mem : s.rewind.mem = s.mem := rfl

@[simp] theorem rewind_mapSize : s.rewind.mapSize = s.mapSize := rfl

@[simp] theorem rewind_used : s.rewind.used = s.used := rfl

/-- On failure of the first pass the second decides. -/
theorem bitmapMalloc_again {size : BitVec 32} {p count : Nat} (place : s.pageOf s.bitsPtr = p)
    (inside : p ≤ 8 * s.mapSize)
    (failed : scan s.used (pagesFor size) (8 * s.mapSize - p) p 0 = (none, count)) :
    s.bitmapMalloc size = ((s.rewind.pass 0 s.secondLen count (pagesFor size)).ret,
      (s.rewind.pass 0 s.secondLen count (pagesFor size)).heap) := by
  have again : (if p / 8 < s.mapSize then 0 else p % 8) = 0 := by
    split <;> omega
  rw [bitmapMalloc, place, pass_failed failed]
  simp only [if_pos, again]
  rfl

theorem bitmapMalloc_again_none {size : BitVec 32} {p count count' : Nat}
    (place : s.pageOf s.bitsPtr = p) (inside : p ≤ 8 * s.mapSize)
    (failed : scan s.used (pagesFor size) (8 * s.mapSize - p) p 0 = (none, count))
    (again : scan s.used (pagesFor size) (8 * s.secondLen) 0 count = (none, count')) :
    s.bitmapMalloc size = (0, s.rewind) := by
  have second : scan s.rewind.used (pagesFor size) (8 * s.secondLen - 0) 0 count = (none, count') := again
  rw [bitmapMalloc_again place inside failed, pass_failed second]

theorem bitmapMalloc_again_some {size : BitVec 32} {p q count count' : Nat}
    (place : s.pageOf s.bitsPtr = p) (inside : p ≤ 8 * s.mapSize)
    (failed : scan s.used (pagesFor size) (8 * s.mapSize - p) p 0 = (none, count))
    (again : scan s.used (pagesFor size) (8 * s.secondLen) 0 count = (some q, count')) :
    s.bitmapMalloc size = s.rewind.take q (pagesFor size) := by
  have second : scan s.rewind.used (pagesFor size) (8 * s.secondLen - 0) 0 count = (some q, count') := again
  rw [bitmapMalloc_again place inside failed, pass_found second]

theorem bitmapMalloc_first {size : BitVec 32} {q count : Nat}
    (found : scan s.used (pagesFor size) (8 * s.mapSize - s.pageOf s.bitsPtr) (s.pageOf s.bitsPtr) 0 =
      (some q, count)) (nonzero : (s.take q (pagesFor size)).1 ≠ 0) :
    s.bitmapMalloc size = s.take q (pagesFor size) := by
  rw [bitmapMalloc, pass_found found]
  exact if_neg nonzero

end Heap

theorem pagesFor_pos (size : BitVec 32) (fits : size ≠ 0xfffffff8) : 0 < pagesFor size := by
  have positive : 0 < ((if size = 0 then 1 else size) + 8 : BitVec 32).toNat := by
    split
    · decide
    · bv_omega
  unfold pagesFor
  simp only []
  generalize ((if size = 0 then 1 else size) + 8 : BitVec 32).toNat = total at positive ⊢
  by_cases rest : total % pageSize ≠ 0
  · rw [if_pos rest]
    exact Nat.succ_pos _
  · rw [if_neg rest]
    have whole := Nat.dvd_of_mod_eq_zero (not_not.1 rest)
    exact Nat.div_pos (Nat.le_of_dvd positive whole) (by decide)

/-- No page of a new heap is used. -/
theorem initBitmap_used (mem : Memory) (bytesLen : BitVec 32) {p : Nat}
    (inside : p < 8 * (initBitmap mem bytesLen).mapSize) :
    (initBitmap mem bytesLen).used p = false := by
  have small : (initBitmap mem bytesLen).mapSize < 2 ^ 32 :=
    lt_of_le_of_lt (Nat.div_le_self ..) (BitVec.isLt _)
  have offset : (heapBottom + BitVec.ofNat 32 (p / 8) - heapBottom).toNat = p / 8 := by
    bv_omega
  have free : (initBitmap mem bytesLen).mem (heapBottom + BitVec.ofNat 32 (p / 8)) = 0 := by
    refine if_pos ?_
    rw [offset]
    change p / 8 < (initBitmap mem bytesLen).mapSize
    omega
  rw [Heap.used, Memory.bit, free]
  exact BitVec.getLsbD_zero

end TestOs.Memory
