/-
# Memory.Search -- what bitmap_malloc finds

The heap is as `init_bitmap` leaves it, with any bits and the cursor at any page
boundary (`Laid`).  The limit of the second pass is the bytes behind the cursor in
units of a byte of the map, with the slack behind the last page counted in: it
ends before the cursor's own byte, or it is negative and the pass does not end at
the map (`secondLen_cases`).  So the search misses runs at the cursor, and
`search_complete_iff` says which it finds.  Where the first pass finds a run it is
the first one, and `bitmap_free` takes it back (`forward_fit_iff`); only a size
whose page count wraps to 0 is an exception.
-/
import TestOs.Memory.Remap

namespace TestOs.Memory

open TestOs.Library

set_option autoImplicit false

namespace Heap

/-- The page at which the search begins. -/
def cursor (s : Heap) : Nat := s.pageOf s.bitsPtr

/-- The pointer to the block that begins at page `a`. -/
def block (s : Heap) (a : Nat) : BitVec 32 := s.bitsStart + BitVec.ofNat 32 (a * pageSize) + 8

/-- The heap of `init_bitmap` for a total that `memory_remap` allows and that has the
reserved 4 MB in it; the cursor is at a page boundary. -/
structure Laid (bytesLen : BitVec 32) (s : Heap) : Prop where
  enough : 0x400000 ≤ bytesLen.toNat
  bounded : bytesLen ≤ mapAddrMax
  mapSize : s.mapSize = (initBitmap s.mem bytesLen).mapSize
  bitsStart : s.bitsStart = (initBitmap s.mem bytesLen).bitsStart
  bitsEnd : s.bitsEnd = (initBitmap s.mem bytesLen).bitsEnd
  cursor : ∃ k ≤ 8 * s.mapSize, s.bitsPtr = s.bitsStart + BitVec.ofNat 32 (k * pageSize)

/-- The bytes behind the last page. -/
def slack (bytesLen : BitVec 32) : Nat := (bytesLen.toNat - 0x400000) % 32769

/-! ## The layout -/

namespace Laid

variable {bytesLen : BitVec 32} {s : Heap}

theorem bytes (laid : Laid bytesLen s) :
    32769 * s.mapSize + slack bytesLen = bytesLen.toNat - 0x400000 := by
  rw [laid.mapSize, initBitmap_mapSize laid.enough, slack]
  omega

theorem mapSize_le (laid : Laid bytesLen s) : s.mapSize ≤ 65406 := by
  have most : mapAddrMax.toNat = 2 ^ 31 := rfl
  have bounded := BitVec.le_def.1 laid.bounded
  have bytes := laid.bytes
  rw [most] at bounded
  omega

theorem bitsStart_eq (laid : Laid bytesLen s) : s.bitsStart = heapBottom + BitVec.ofNat 32 s.mapSize := by
  rw [laid.bitsStart, initBitmap_bitsStart, laid.mapSize]

theorem bitsEnd_eq (laid : Laid bytesLen s) :
    s.bitsEnd = s.bitsStart + BitVec.ofNat 32 (32768 * s.mapSize + slack bytesLen) := by
  have total : bytesLen - (heapBottom - mapBaseVaddr) - BitVec.ofNat 32 s.mapSize =
      BitVec.ofNat 32 (32768 * s.mapSize + slack bytesLen) := by
    have value := bytesLen_toNat laid.enough
    have bytes := laid.bytes
    have small := laid.mapSize_le
    generalize bytesLen - (heapBottom - mapBaseVaddr) = x at value ⊢
    bv_omega
  rw [laid.bitsEnd, laid.bitsStart, ← total, laid.mapSize]
  rfl

theorem bitsPtr (laid : Laid bytesLen s) :
    s.bitsPtr = s.bitsStart + BitVec.ofNat 32 (s.cursor * pageSize) ∧ s.cursor ≤ 8 * s.mapSize := by
  have small := laid.mapSize_le
  obtain ⟨k, inside, place⟩ := laid.cursor
  have here : s.cursor = k := by
    have offset : (s.bitsStart + BitVec.ofNat 32 (k * pageSize) - s.bitsStart).toNat = k * pageSize := by
      rw [pageSize]
      bv_omega
    rw [Heap.cursor, pageOf, place, offset]
    exact Nat.mul_div_cancel k (by decide)
  rw [here]
  exact ⟨place, inside⟩

theorem slack_le (laid : Laid bytesLen s) : slack bytesLen ≤ 32768 := by
  have bytes := laid.bytes
  rw [slack]
  omega

theorem secondLen_eq (laid : Laid bytesLen s) : s.secondLen = (2 ^ 32 + s.mapSize -
    (32768 * s.mapSize + slack bytesLen - 4096 * s.cursor) / 32768 - 1) % 2 ^ 32 := by
  have small := laid.mapSize_le
  have rest := laid.slack_le
  obtain ⟨place, inside⟩ := laid.bitsPtr
  have behind : (s.bitsEnd - s.bitsPtr).toNat =
      32768 * s.mapSize + slack bytesLen - 4096 * s.cursor := by
    rw [laid.bitsEnd_eq, place, pageSize]
    bv_omega
  have unit : 8 * pageSize = 32768 := rfl
  rw [secondLen, behind, unit]

/-- The second pass is unbounded where the cursor is within the slack, else it stops
before the cursor's byte or at it. -/
theorem secondLen_cases (laid : Laid bytesLen s) :
    4096 * s.cursor ≤ slack bytesLen ∧ 2 ^ 32 - 2 ≤ s.secondLen ∨
      slack bytesLen < 4096 * s.cursor ∧ 8 * s.secondLen ≤ s.cursor ∧ s.secondLen < s.mapSize := by
  have small := laid.mapSize_le
  have rest := laid.slack_le
  obtain ⟨-, inside⟩ := laid.bitsPtr
  rw [laid.secondLen_eq]
  omega

theorem block_ne_zero (laid : Laid bytesLen s) {a : Nat} (inside : a ≤ 8 * s.mapSize) :
    s.block a ≠ 0 := by
  have small := laid.mapSize_le
  rw [block, laid.bitsStart_eq, heapBottom, pageSize]
  bv_omega

/-- The block that begins in front of the heap has another address, too. -/
theorem carried_ne_zero (laid : Laid bytesLen s) {f : Nat} (inside : f ≤ 8 * s.mapSize) :
    s.bitsStart - BitVec.ofNat 32 (f * pageSize) + 8 ≠ 0 := by
  have small := laid.mapSize_le
  rw [laid.bitsStart_eq, heapBottom, pageSize]
  bv_omega

theorem block_injective (laid : Laid bytesLen s) {a b : Nat} (a_le : a ≤ 8 * s.mapSize)
    (same : s.block a = s.block b) : b % 2 ^ 20 = a := by
  have small := laid.mapSize_le
  have offset : (BitVec.ofNat 32 (a * pageSize)).toNat = (BitVec.ofNat 32 (b * pageSize)).toNat := by
    rw [block, block] at same
    rw [add_left_cancel (add_right_cancel same)]
  rw [BitVec.toNat_ofNat, BitVec.toNat_ofNat, pageSize] at offset
  omega

end Laid

/-! ## A block is taken -/

section Take

variable {bytesLen : BitVec 32} {s : Heap} {a q n p : Nat} {x : BitVec 32}

theorem take_eq_block (enough : n ≤ q + 1) : (s.take q n).1 = s.block (q + 1 - n) := by
  obtain ⟨a, a_⟩ : ∃ a, q + 1 = a + n := ⟨q + 1 - n, by omega⟩
  rw [take_ret, a_, Nat.add_sub_cancel, block, BitVec.ofNat_mul, BitVec.ofNat_add]
  ring

/-- With pages that were counted at the end of the heap, the block begins in front of it. -/
theorem take_eq_carried {f : Nat} (carried : q + 1 + f = n) :
    (s.take q n).1 = s.bitsStart - BitVec.ofNat 32 (f * pageSize) + 8 := by
  rw [take_ret, ← carried, BitVec.ofNat_mul]
  generalize q + 1 = last
  rw [BitVec.ofNat_add]
  ring

theorem take_bitsPtr : (s.take q n).2.bitsPtr =
    (s.take q n).1 - 8 + BitVec.ofNat 32 n * BitVec.ofNat 32 pageSize := rfl

/-- The map lies in front of the pages. -/
theorem Laid.map_apart (laid : Laid bytesLen s) (a_le : a ≤ 8 * s.mapSize) (p_lt : p < 8 * s.mapSize) :
    8 ≤ (heapBottom + BitVec.ofNat 32 (p / 8) - (s.block a - 8)).toNat := by
  have small := laid.mapSize_le
  rw [block, laid.bitsStart_eq, heapBottom, pageSize]
  bv_omega

/-- What is neither in the header nor in the map stays. -/
theorem take_outside (ret : (s.take q n).1 = s.block a) (enough : n ≤ q + 1)
    (header : 8 ≤ (x - (s.block a - 8)).toNat)
    (map : ∀ p, q < p + n → p ≤ q → x ≠ heapBottom + BitVec.ofNat 32 (p / 8)) :
    (s.take q n).2.mem x = s.mem x := by
  rw [take_mem, mark_outside enough map, ret, Memory.store_outside (by bv_omega),
    Memory.store_outside (by bv_omega)]

/-- The pages of the block are marked, and no other. -/
theorem Laid.take_used (laid : Laid bytesLen s) (ret : (s.take q n).1 = s.block a)
    (a_le : a ≤ 8 * s.mapSize) (enough : n ≤ q + 1) (q_lt : n ≠ 0 → q < 8 * s.mapSize)
    (p_lt : p < 8 * s.mapSize) :
    (s.take q n).2.used p = (decide (q < p + n ∧ p ≤ q) || s.used p) := by
  have small := laid.mapSize_le
  have apart := laid.map_apart a_le p_lt
  have stored : ((s.mem.store ((s.take q n).1 - 8) mallocMagic).store ((s.take q n).1 - 4)
      (BitVec.ofNat 32 n)).bit heapBottom p = s.mem.bit heapBottom p := by
    refine Memory.bit_congr ?_
    rw [ret, Memory.store_outside (by bv_omega), Memory.store_outside (by omega)]
  rw [used, take_mem]
  cases n with
  | zero =>
      rw [mark, stored, decide_eq_false (by omega), Bool.false_or]
      rfl
  | succ n =>
      have inside := q_lt (by omega)
      rw [bit_mark (by omega) (by omega) enough, stored]
      rfl

/-- The header says how many pages there are. -/
theorem Laid.take_header (laid : Laid bytesLen s) (ret : (s.take q n).1 = s.block a)
    (a_le : a ≤ 8 * s.mapSize) (enough : n ≤ q + 1) (q_lt : n ≠ 0 → q < 8 * s.mapSize) :
    (s.take q n).2.mem.load (s.block a - 8) = mallocMagic ∧
      (s.take q n).2.mem.load (s.block a - 4) = BitVec.ofNat 32 n := by
  have kept : ∀ k < 8, (s.take q n).2.mem (s.block a - 8 + BitVec.ofNat 32 k) =
      ((s.mem.store (s.block a - 8) mallocMagic).store (s.block a - 4) (BitVec.ofNat 32 n))
        (s.block a - 8 + BitVec.ofNat 32 k) := by
    intro k inside
    rw [take_mem, ret]
    refine mark_outside enough fun p low high => ?_
    have apart := laid.map_apart a_le (lt_of_le_of_lt high (q_lt (by omega)))
    intro same
    rw [← same] at apart
    bv_omega
  constructor
  · rw [Memory.load_congr fun k inside => kept k (by omega),
      Memory.load_store_of_apart (by bv_omega) (by bv_omega), Memory.load_store]
  · have size_ := @Memory.load_congr
      ((s.mem.store (s.block a - 8) mallocMagic).store (s.block a - 4) (BitVec.ofNat 32 n))
      (s.block a - 4) (s.take q n).2.mem fun k inside => by
        have place : s.block a - 4 + BitVec.ofNat 32 k = s.block a - 8 + BitVec.ofNat 32 (k + 4) := by
          bv_omega
        rw [place]
        exact kept (k + 4) (by omega)
    rw [size_, Memory.load_store]

end Take

/-! ## A block is given back -/

section Free

variable {bytesLen size : BitVec 32} {s : Heap} {mem : Memory} {a left p q n : Nat} {x : BitVec 32}

/-- The bits that are cleared: 2 ^ 32 for a size of 0, but not behind the map. -/
def turns (size : BitVec 32) (left : Nat) : Nat := min (if size = 0 then 2 ^ 32 else size.toNat) left

theorem turns_succ (size : BitVec 32) (short : left < 2 ^ 32) :
    turns size (left + 1) = 1 + if size - 1 = 0 then 0 else turns (size - 1) left := by
  by_cases one : size - 1 = 0
  · have is_one : size = 1 := by
      bv_omega
    subst is_one
    rw [if_pos one, turns, if_neg (by decide)]
    have value : (1 : BitVec 32).toNat = 1 := rfl
    omega
  · rw [if_neg one, turns, turns, if_neg one]
    by_cases none_ : size = 0
    · subst none_
      have value : (0 - 1 : BitVec 32).toNat = 2 ^ 32 - 1 := rfl
      rw [if_pos rfl, value]
      omega
    · rw [if_neg none_]
      have value : (size - 1).toNat = size.toNat - 1 := by
        bv_omega
      have positive : 0 < size.toNat := by
        bv_omega
      omega

theorem bit_unmark (size : BitVec 32) (left_lt : left < 2 ^ 32) (p_lt : p + left < 2 ^ 35)
    (q_lt : q < 2 ^ 35) : (unmark mem size left p).bit heapBottom q =
      (mem.bit heapBottom q && !decide (p ≤ q ∧ q < p + turns size left)) := by
  induction left generalizing mem size p with
  | zero =>
      rw [unmark, turns, decide_eq_false (by omega)]
      exact (Bool.and_true _).symm
  | succ left ih =>
      have step := @turns_succ left size (by omega)
      rw [unmark]
      by_cases last : size - 1 = 0
      · rw [if_pos last] at step ⊢
        rw [Memory.bit_putBit (by omega) q_lt, step]
        by_cases same : q = p
        · rw [if_pos same, decide_eq_true (by omega)]
          exact (Bool.and_false _).symm
        · rw [if_neg same, decide_eq_false (by omega)]
          exact (Bool.and_true _).symm
      · rw [if_neg last] at step ⊢
        rw [ih (size - 1) (by omega) (by omega), Memory.bit_putBit (by omega) q_lt, step]
        by_cases same : q = p
        · rw [if_pos same, decide_eq_true (p := p ≤ q ∧ q < p + _) (by omega), Bool.false_and]
          exact (Bool.and_false _).symm
        · rw [if_neg same]
          congr 2
          exact decide_eq_decide.2 (by omega)

theorem unmark_outside (size : BitVec 32)
    (outside : ∀ r, p ≤ r → r < p + left → x ≠ heapBottom + BitVec.ofNat 32 (r / 8)) :
    unmark mem size left p x = mem x := by
  induction left generalizing mem size p with
  | zero => rfl
  | succ left ih =>
      have here := @Memory.putBit_outside mem heapBottom x p false (outside p (le_refl _) (by omega))
      rw [unmark]
      by_cases last : size - 1 = 0
      · rw [if_pos last]
        exact here
      · rw [if_neg last, ih (size - 1) fun r low high => outside r (by omega) (by omega)]
        exact here

theorem Laid.pageOf_block (laid : Laid bytesLen s) (a_le : a ≤ 8 * s.mapSize) :
    s.pageOf (s.block a - 8) = a := by
  have small := laid.mapSize_le
  have offset : (s.block a - 8 - s.bitsStart).toNat = a * pageSize := by
    rw [block, pageSize]
    bv_omega
  rw [pageOf, offset]
  exact Nat.mul_div_cancel a (by decide)

/-- Where the header is intact, so many bits are cleared as it says. -/
theorem Laid.free_eq (laid : Laid bytesLen s) (a_le : a ≤ 8 * s.mapSize)
    (magic : s.mem.load (s.block a - 8) = mallocMagic) :
    s.bitmapFree (s.block a) = some { s with
      mem := unmark (s.mem.store (s.block a - 8) freeMagic) (s.mem.load (s.block a - 4))
        (8 * s.mapSize - a) a } := by
  have sizeAt : s.block a - 8 + 4 = s.block a - 4 := by
    bv_omega
  have size_ : (s.mem.store (s.block a - 8) freeMagic).load (s.block a - 4) =
      s.mem.load (s.block a - 4) := Memory.load_store_of_apart (by bv_omega) (by bv_omega)
  rw [bitmapFree]
  simp only []
  rw [if_neg (not_not.2 magic), sizeAt, size_, laid.pageOf_block a_le]

/-- The map after the call. -/
theorem Laid.free_used (laid : Laid bytesLen s) (a_le : a ≤ 8 * s.mapSize) (p_lt : p < 8 * s.mapSize)
    (size : BitVec 32) :
    (unmark (s.mem.store (s.block a - 8) freeMagic) size (8 * s.mapSize - a) a).bit heapBottom p =
      (s.used p && !decide (a ≤ p ∧ p < a + turns size (8 * s.mapSize - a))) := by
  have small := laid.mapSize_le
  have apart := laid.map_apart a_le p_lt
  rw [bit_unmark size (by omega) (by omega) (by omega),
    Memory.bit_congr (Memory.store_outside (by omega))]
  rfl

end Free

/-! ## The two passes -/

section Passes

variable {bytesLen size : BitVec 32} {s : Heap} {a q n p : Nat}

/-- What the second pass comes to. -/
def again (s : Heap) (n found : Nat) : BitVec 32 × Heap :=
  match scan s.used n (8 * s.secondLen) 0 found with
  | (some q, _) => s.rewind.take q n
  | (none, _) => (0, s.rewind)

theorem again_found {found count : Nat}
    (result : scan s.used n (8 * s.secondLen) 0 found = (some q, count)) :
    s.again n found = s.rewind.take q n := by
  rw [again, result]

theorem again_failed {found count : Nat}
    (result : scan s.used n (8 * s.secondLen) 0 found = (none, count)) :
    s.again n found = (0, s.rewind) := by
  rw [again, result]

theorem Laid.malloc_again (laid : Laid bytesLen s) {count : Nat}
    (failed : scan s.used (pagesFor size) (8 * s.mapSize - s.cursor) s.cursor 0 = (none, count)) :
    s.bitmapMalloc size = s.again (pagesFor size) count := by
  obtain ⟨-, inside⟩ := laid.bitsPtr
  cases second : scan s.used (pagesFor size) (8 * s.secondLen) 0 count with
  | mk place count' =>
      cases place with
      | some q =>
          rw [again_found second]
          exact bitmapMalloc_again_some rfl inside failed second
      | none =>
          rw [again_failed second]
          exact bitmapMalloc_again_none rfl inside failed second

/-- The first pass takes the first run behind the cursor. -/
theorem Laid.malloc_forward (laid : Laid bytesLen s) (positive : 0 < pagesFor size)
    (run : HasRun s.used s.cursor (8 * s.mapSize) (pagesFor size)) :
    ∃ a, FirstRun s.used s.cursor (8 * s.mapSize) (pagesFor size) a ∧
      s.bitmapMalloc size = s.take (a + pagesFor size - 1) (pagesFor size) := by
  obtain ⟨-, inside⟩ := laid.bitsPtr
  have row : s.cursor + (8 * s.mapSize - s.cursor) = 8 * s.mapSize := by
    omega
  obtain ⟨q, count, result⟩ := (@scan_finds_iff s.used (pagesFor size) (8 * s.mapSize - s.cursor)
    s.cursor 0 positive).2 (.inl (by rwa [row]))
  obtain ⟨enough, first⟩ := scan_first positive result
  rw [row] at first
  have last : q + 1 - pagesFor size + pagesFor size - 1 = q := by
    omega
  refine ⟨q + 1 - pagesFor size, first, ?_⟩
  rw [last]
  refine bitmapMalloc_first result ?_
  rw [take_eq_block enough]
  exact laid.block_ne_zero (by have := first.inside; omega)

/-- On failure the second pass goes on with the count of the free pages at the end. -/
theorem Laid.malloc_backward (laid : Laid bytesLen s) (positive : 0 < pagesFor size)
    (none_ : ¬ HasRun s.used s.cursor (8 * s.mapSize) (pagesFor size)) :
    ∃ count, count < pagesFor size ∧ Trailing s.used s.cursor (8 * s.mapSize) count ∧
      s.bitmapMalloc size = s.again (pagesFor size) count := by
  obtain ⟨-, inside⟩ := laid.bitsPtr
  have row : s.cursor + (8 * s.mapSize - s.cursor) = 8 * s.mapSize := by
    omega
  cases result : scan s.used (pagesFor size) (8 * s.mapSize - s.cursor) s.cursor 0 with
  | mk place count =>
      cases place with
      | some q =>
          rcases (scan_finds_iff positive).1 ⟨q, count, result⟩ with run | ⟨long, free⟩
          · rw [row] at run
            exact absurd run none_
          · exact absurd ⟨s.cursor, le_refl _, by omega, free⟩ none_
      | none =>
          obtain ⟨below, trailing⟩ := scan_trailing positive result
          rw [row] at trailing
          exact ⟨count, below, trailing, laid.malloc_again result⟩

end Passes

/-! ## Eight pages -/

/-- A heap of eight pages: one page is taken, then the other seven, and the one is
given back. -/
def cornered : Heap :=
  let (first, s) := (initBitmap (fun _ => 0) 0x408001).bitmapMalloc 1
  let (_, s) := s.bitmapMalloc (7 * 4096 - 8)
  (s.bitmapFree first).getD s

theorem cornered_laid : Laid 0x408001 cornered where
  enough := by decide
  bounded := by decide
  mapSize := by decide +kernel
  bitsStart := by decide +kernel
  bitsEnd := by decide +kernel
  cursor := ⟨8, by decide +kernel, by decide +kernel⟩

/-! ## First fit -/

section Forward

variable {bytesLen size : BitVec 32} {s t : Heap} {a q n p : Nat}

/-- The block of the first run behind the cursor is taken, and `bitmap_free` gives it back. -/
structure Fits (s : Heap) (size : BitVec 32) (a : Nat) : Prop where
  first : FirstRun s.used s.cursor (8 * s.mapSize) (pagesFor size) a
  ret : (s.bitmapMalloc size).1 = s.block a
  used : ∀ p < 8 * s.mapSize, (s.bitmapMalloc size).2.used p =
    (decide (a ≤ p ∧ p < a + pagesFor size) || s.used p)
  bitsPtr : (s.bitmapMalloc size).2.bitsPtr =
    s.bitsStart + BitVec.ofNat 32 ((a + pagesFor size) * pageSize)
  restored : ∃ t, (s.bitmapMalloc size).2.bitmapFree (s.bitmapMalloc size).1 = some t ∧
    ∀ p < 8 * s.mapSize, t.used p = s.used p

def ForwardFit (s : Heap) (size : BitVec 32) : Prop :=
  HasRun s.used s.cursor (8 * s.mapSize) (pagesFor size) → ∃ a, s.Fits size a

/-- A search for no pages stops at the first used page, here the one in front of the cursor. -/
def NothingFits (s : Heap) : Prop :=
  FreeRun s.used s.cursor (8 * s.mapSize - s.cursor) ∧
    ∃ q < 8 * s.secondLen, s.used q = true ∧ FreeRun s.used 0 q ∧ (q + 1) % 2 ^ 20 = s.cursor

theorem Laid.rewind (laid : Laid bytesLen s) : Laid bytesLen s.rewind :=
  ⟨laid.enough, laid.bounded, laid.mapSize, laid.bitsStart, laid.bitsEnd, 0, Nat.zero_le _, by
    rw [Nat.zero_mul]
    exact (add_zero _).symm⟩

theorem take_bitsPtr_block (ret : (s.take q n).1 = s.block a) :
    (s.take q n).2.bitsPtr = s.bitsStart + BitVec.ofNat 32 ((a + n) * pageSize) := by
  rw [take_bitsPtr, ret, block, BitVec.ofNat_mul, BitVec.ofNat_mul, BitVec.ofNat_add]
  ring

theorem Laid.take (laid : Laid bytesLen s) (ret : (s.take q n).1 = s.block a)
    (inside : a + n ≤ 8 * s.mapSize) : Laid bytesLen (s.take q n).2 :=
  ⟨laid.enough, laid.bounded, laid.mapSize, laid.bitsStart, laid.bitsEnd, a + n, inside,
    take_bitsPtr_block ret⟩

/-- A block that is taken and given back at once. -/
theorem Laid.take_free (laid : Laid bytesLen s) (ret : (s.take q n).1 = s.block a)
    (enough : n ≤ q + 1) (inside : a + n ≤ 8 * s.mapSize) (last : n ≠ 0 → q + 1 = a + n)
    (free : FreeRun s.used a n) (rest : n = 0 → FreeRun s.used a (8 * s.mapSize - a)) :
    ∃ t, (s.take q n).2.bitmapFree (s.take q n).1 = some t ∧
      ∀ p < 8 * s.mapSize, t.used p = s.used p := by
  have small := laid.mapSize_le
  have q_lt : n ≠ 0 → q < 8 * s.mapSize := fun some_ => by
    have := last some_
    omega
  obtain ⟨magic, size_⟩ := laid.take_header ret (by omega) enough q_lt
  have freed := (laid.take ret inside).free_eq (by show a ≤ 8 * s.mapSize; omega) magic
  refine ⟨_, by rw [ret]; exact freed, fun p p_lt => ?_⟩
  refine ((laid.take ret inside).free_used (by show a ≤ 8 * s.mapSize; omega) p_lt _).trans ?_
  have header : (s.take q n).2.mem.load ((s.take q n).2.block a - 4) = BitVec.ofNat 32 n := size_
  rw [header, laid.take_used ret (by omega) enough q_lt p_lt]
  have mapSize : (s.take q n).2.mapSize = s.mapSize := rfl
  rw [mapSize]
  by_cases none_ : n = 0
  · have all : turns (BitVec.ofNat 32 n) (8 * s.mapSize - a) = 8 * s.mapSize - a := by
      have zero : BitVec.ofNat 32 n = 0 := by
        rw [none_]
        rfl
      rw [turns, if_pos zero]
      omega
    rw [all, decide_eq_false (p := q < p + n ∧ p ≤ q) (by omega), Bool.false_or]
    by_cases behind : a ≤ p
    · rw [rest none_ p behind (by omega), Bool.false_and]
    · rw [decide_eq_false (by omega)]
      exact Bool.and_true _
  · have few : turns (BitVec.ofNat 32 n) (8 * s.mapSize - a) = n := by
      have nonzero : BitVec.ofNat 32 n ≠ 0 := by
        bv_omega
      rw [turns, if_neg nonzero, BitVec.toNat_ofNat]
      omega
    have last := last none_
    rw [few]
    by_cases within : a ≤ p ∧ p < a + n
    · rw [decide_eq_true within, free p within.1 within.2]
      exact Bool.and_false _
    · rw [decide_eq_false within, decide_eq_false (p := q < p + n ∧ p ≤ q) (by omega), Bool.false_or]
      exact Bool.and_true _

/-- A search that ends so fits. -/
theorem Laid.fits_of_take (laid : Laid bytesLen s)
    (first : FirstRun s.used s.cursor (8 * s.mapSize) (pagesFor size) a)
    (same : t = s ∨ t = s.rewind) (taken : s.bitmapMalloc size = t.take q (pagesFor size))
    (ret : (t.take q (pagesFor size)).1 = t.block a) (enough : pagesFor size ≤ q + 1)
    (last : pagesFor size ≠ 0 → q + 1 = a + pagesFor size)
    (rest : pagesFor size = 0 → FreeRun s.used a (8 * s.mapSize - a)) : s.Fits size a := by
  have inside := first.inside
  have laid' : Laid bytesLen t := by
    rcases same with rfl | rfl
    · exact laid
    · exact laid.rewind
  have used_ : t.used = s.used := by
    rcases same with rfl | rfl <;> rfl
  have mapSize : t.mapSize = s.mapSize := by
    rcases same with rfl | rfl <;> rfl
  have bitsStart : t.bitsStart = s.bitsStart := by
    rcases same with rfl | rfl <;> rfl
  have restored := laid'.take_free ret enough (by omega) last (by rw [used_]; exact first.free)
    (by rw [used_, mapSize]; exact rest)
  refine ⟨first, ?_, fun p p_lt => ?_, ?_, ?_⟩
  · rw [taken, ret, block, bitsStart, block]
  · rw [taken, laid'.take_used ret (by omega) enough (fun some_ => by have := last some_; omega)
      (by rwa [mapSize]), used_]
    congr 1
    refine decide_eq_decide.2 ⟨fun within => ?_, fun within => ?_⟩
    · have := last (by omega)
      omega
    · have := last (by omega)
      omega
  · rw [taken, take_bitsPtr_block ret, bitsStart]
  · rw [taken]
    rw [used_, mapSize] at restored
    exact restored

/-- A request for at least one page. -/
theorem Laid.forwardFit (laid : Laid bytesLen s) (positive : 0 < pagesFor size) : s.ForwardFit size := by
  intro run
  obtain ⟨a, first, taken⟩ := laid.malloc_forward positive run
  have start : a + pagesFor size - 1 + 1 - pagesFor size = a := by
    omega
  have ret := @take_eq_block s (a + pagesFor size - 1) (pagesFor size) (by omega)
  rw [start] at ret
  exact ⟨a, laid.fits_of_take first (.inl rfl) taken ret (by omega) (fun _ => by omega)
    (fun none_ => by omega)⟩

/-- A request for no pages takes the page behind the first used one. -/
theorem Laid.malloc_nothing_used (laid : Laid bytesLen s) (none_ : pagesFor size = 0)
    (low : s.cursor ≤ q) (high : q < 8 * s.mapSize) (isUsed : s.used q = true)
    (free : FreeRun s.used s.cursor (q - s.cursor)) : s.bitmapMalloc size = s.take q 0 := by
  have found : scan s.used (pagesFor size) (8 * s.mapSize - s.cursor) s.cursor 0 = (some q, 0) := by
    rw [none_]
    exact scan_nothing_used low (by omega) isUsed free
  have ret : (s.take q (pagesFor size)).1 = s.block (q + 1) := by
    rw [none_]
    exact take_eq_block (Nat.zero_le _)
  rw [bitmapMalloc_first found (by rw [ret]; exact laid.block_ne_zero (by omega)), none_]

theorem Laid.malloc_nothing_free (laid : Laid bytesLen s) (none_ : pagesFor size = 0)
    (free : FreeRun s.used s.cursor (8 * s.mapSize - s.cursor)) :
    ∃ count, s.bitmapMalloc size = s.again 0 count := by
  have failed : scan s.used (pagesFor size) (8 * s.mapSize - s.cursor) s.cursor 0 =
      (none, 0 + (8 * s.mapSize - s.cursor)) := by
    rw [none_]
    exact scan_nothing_free free
  have again_ := laid.malloc_again failed
  rw [none_] at again_
  exact ⟨_, again_⟩

theorem Laid.nothingFits_iff (laid : Laid bytesLen s) (none_ : pagesFor size = 0) :
    s.ForwardFit size ↔ s.NothingFits := by
  have small := laid.mapSize_le
  obtain ⟨-, k_le⟩ := laid.bitsPtr
  have inside : s.cursor + pagesFor size ≤ 8 * s.mapSize := by
    rwa [none_]
  have empty : FreeRun s.used s.cursor (pagesFor size) := fun r low high => by
    omega
  constructor
  · intro fit
    obtain ⟨a, fits⟩ := fit ⟨s.cursor, le_refl _, inside, empty⟩
    have here : a = s.cursor := le_antisymm (fits.first.first _ (le_refl _) empty) fits.first.from_
    have ret := fits.ret
    rw [here] at ret
    rcases free_or_first s.used s.cursor (8 * s.mapSize - s.cursor) with
      free | ⟨q, low, high, isUsed, free⟩
    · refine ⟨free, ?_⟩
      obtain ⟨count, again_⟩ := laid.malloc_nothing_free none_ free
      rw [again_] at ret
      rcases free_or_first s.used 0 (8 * s.secondLen) with all | ⟨q, low, high, isUsed, lead⟩
      · rw [again_failed (scan_nothing_free all)] at ret
        exact absurd ret.symm (laid.block_ne_zero k_le)
      · rw [again_found (scan_nothing_used low high isUsed lead), take_eq_block (Nat.zero_le _)] at ret
        exact ⟨q, by omega, isUsed, lead, laid.block_injective k_le ret.symm⟩
    · have other := congrArg Prod.fst (laid.malloc_nothing_used none_ low (by omega) isUsed free)
      rw [take_eq_block (Nat.zero_le _)] at other
      have same := @Laid.block_injective _ s laid (q + 1) _ (by omega) (other.symm.trans ret)
      omega
  · rintro ⟨free, q, high, isUsed, lead, same⟩ -
    obtain ⟨count, again_⟩ := laid.malloc_nothing_free none_ free
    have taken : s.bitmapMalloc size = s.rewind.take q (pagesFor size) := by
      rw [again_, again_found (scan_nothing_used (Nat.zero_le q) (by omega) isUsed lead), none_]
    have place : s.block (q + 1) = s.block s.cursor := by
      have offset : BitVec.ofNat 32 ((q + 1) * pageSize) = BitVec.ofNat 32 (s.cursor * pageSize) := by
        refine BitVec.eq_of_toNat_eq ?_
        rw [BitVec.toNat_ofNat, BitVec.toNat_ofNat, pageSize]
        omega
      rw [block, offset, block]
    have ret : (s.rewind.take q (pagesFor size)).1 = s.rewind.block s.cursor := by
      rw [none_]
      exact (take_eq_block (Nat.zero_le _)).trans place
    exact ⟨s.cursor, laid.fits_of_take ⟨le_refl _, inside, empty, fun b low _ => low⟩ (.inr rfl) taken ret
      (by omega) (fun some_ => absurd none_ some_) (fun _ => free)⟩

theorem pagesFor_eq_zero_iff : pagesFor size = 0 ↔ size = 0xfffffff8 := by
  constructor
  · intro none_
    by_contra other
    have := pagesFor_pos size other
    omega
  · rintro rfl
    rfl

/-- **Forward allocation is first fit, and free undoes it**, unless the page count of
the size wraps to 0. -/
theorem forward_fit_iff (laid : Laid bytesLen s) :
    s.ForwardFit size ↔ size ≠ 0xfffffff8 ∨ s.NothingFits := by
  by_cases none_ : pagesFor size = 0
  · rw [laid.nothingFits_iff none_, or_iff_right (not_not.2 (pagesFor_eq_zero_iff.1 none_))]
  · exact iff_of_true (laid.forwardFit (by omega)) (.inl fun wraps => none_ (pagesFor_eq_zero_iff.2 wraps))

theorem forward_fit_cornered : cornered.ForwardFit 1 ↔ (1 : BitVec 32) ≠ 0xfffffff8 ∨ cornered.NothingFits :=
  forward_fit_iff cornered_laid

/-- The first page of the heap is free, and a block of no pages is taken behind the second. -/
theorem nothing_does_not_fit : Laid 0x408001 cornered.rewind ∧ ¬ cornered.rewind.ForwardFit 0xfffffff8 := by
  have none_ : pagesFor 0xfffffff8 = 0 := rfl
  have start : cornered.rewind.cursor = 0 := by
    decide +kernel
  have elsewhere : (cornered.rewind.bitmapMalloc 0xfffffff8).1 = cornered.rewind.block 2 := by
    decide +kernel
  refine ⟨cornered_laid.rewind, fun fit => ?_⟩
  have empty : FreeRun cornered.rewind.used 0 (pagesFor 0xfffffff8) := fun p low high => by
    omega
  obtain ⟨a, fits⟩ := fit ⟨0, by omega, by omega, empty⟩
  have first : a = 0 := Nat.le_zero.1 (fits.first.first 0 (by omega) empty)
  have ret := fits.ret
  rw [first, elsewhere] at ret
  exact absurd ret (by decide +kernel)

end Forward

/-! ## Completeness -/

section Complete

variable {bytesLen size : BitVec 32} {s : Heap} {n : Nat}

/-- Free pages at the end and at the beginning of the heap are counted as one run. -/
def Carries (s : Heap) (n : Nat) : Prop :=
  ∃ f, 0 < f ∧ f < n ∧ s.cursor + f ≤ 8 * s.mapSize ∧ FreeRun s.used (8 * s.mapSize - f) f ∧
    FreeRun s.used 0 (n - f) ∧ n - f ≤ 8 * s.secondLen

/-- The runs that the two passes see. -/
def Sees (s : Heap) (n : Nat) : Prop :=
  HasRun s.used s.cursor (8 * s.mapSize) n ∨ HasRun s.used 0 (8 * s.secondLen) n ∨ s.Carries n

/-- The second pass succeeds on a run of its row, or with the pages at the end. -/
theorem again_finds_iff {found : Nat} (below : found < n)
    (trailing : Trailing s.used s.cursor (8 * s.mapSize) found) :
    (∃ q count, scan s.used n (8 * s.secondLen) 0 found = (some q, count)) ↔
      HasRun s.used 0 (8 * s.secondLen) n ∨ s.Carries n := by
  rw [scan_finds_iff below, Nat.zero_add]
  constructor
  · rintro (run | ⟨long, free⟩)
    · exact .inl run
    · by_cases some_ : 0 < found
      · exact .inr ⟨found, some_, below, trailing.inside, trailing.free, free, by omega⟩
      · exact .inl ⟨0, le_refl _, by omega, fun r low high => free r low (by omega)⟩
  · rintro (run | ⟨f, -, f_lt, inside, free, lead, long⟩)
    · exact .inl run
    · have most := trailing.most f inside free
      exact .inr ⟨by omega, fun r low high => lead r low (by omega)⟩

/-- A search that is right to succeed ends inside the map. -/
theorem again_inside {found q count : Nat} (below : found < n) (run : HasRun s.used 0 (8 * s.mapSize) n)
    (result : scan s.used n (8 * s.secondLen) 0 found = (some q, count)) : q < 8 * s.mapSize := by
  obtain ⟨q', count', inMap⟩ := (@scan_finds_iff s.used n (8 * s.mapSize) 0 found below).2
    (.inl (by rwa [Nat.zero_add]))
  have inside' := (scan_some below inMap).2.1
  by_cases short : 8 * s.secondLen ≤ 8 * s.mapSize
  · have inside := (scan_some below result).2.1
    omega
  · have more := scan_more (8 * s.secondLen - 8 * s.mapSize) inMap
    rw [show 8 * s.mapSize + (8 * s.secondLen - 8 * s.mapSize) = 8 * s.secondLen by omega, result] at more
    cases more
    omega

theorem Laid.again_ne_zero (laid : Laid bytesLen s) {found q count : Nat}
    (result : scan s.used n (8 * s.secondLen) 0 found = (some q, count)) (below : found < n)
    (inside : q < 8 * s.mapSize) (few : found ≤ 8 * s.mapSize) : (s.rewind.take q n).1 ≠ 0 := by
  have run := (scan_some below result).1
  by_cases enough : n ≤ q + 1
  · rw [take_eq_block enough]
    exact laid.block_ne_zero (by omega)
  · have counted := run.counted (by omega)
    rw [@take_eq_carried s.rewind q n found (by omega)]
    exact laid.carried_ne_zero few

/-- **What the search finds**: where the map has a run of free pages, `bitmap_malloc`
gives a block exactly when the run, or another one, is seen by a pass. -/
theorem search_complete_iff (laid : Laid bytesLen s) (positive : 0 < pagesFor size) :
    (HasRun s.used 0 (8 * s.mapSize) (pagesFor size) → (s.bitmapMalloc size).1 ≠ 0) ↔
      (HasRun s.used 0 (8 * s.mapSize) (pagesFor size) → s.Sees (pagesFor size)) := by
  refine forall_congr' fun run => ?_
  by_cases forward : HasRun s.used s.cursor (8 * s.mapSize) (pagesFor size)
  · obtain ⟨a, first, taken⟩ := laid.malloc_forward positive forward
    refine iff_of_true ?_ (.inl forward)
    rw [taken, take_eq_block (by omega)]
    exact laid.block_ne_zero (by have := first.inside; omega)
  · obtain ⟨count, below, trailing, second⟩ := laid.malloc_backward positive forward
    have sees : s.Sees (pagesFor size) ↔
        ∃ q count', scan s.used (pagesFor size) (8 * s.secondLen) 0 count = (some q, count') := by
      rw [again_finds_iff below trailing]
      exact or_iff_right forward
    rw [second, sees]
    constructor
    · intro nonzero
      cases result : scan s.used (pagesFor size) (8 * s.secondLen) 0 count with
      | mk place count' =>
          cases place with
          | some q => exact ⟨q, count', rfl⟩
          | none =>
              rw [again_failed result] at nonzero
              exact absurd rfl nonzero
    · rintro ⟨q, count', result⟩
      rw [again_found result]
      exact laid.again_ne_zero result below (again_inside below run result)
        (by have := trailing.inside; omega)

theorem search_complete_cornered :
    (HasRun cornered.used 0 (8 * cornered.mapSize) (pagesFor 1) → (cornered.bitmapMalloc 1).1 ≠ 0) ↔
      (HasRun cornered.used 0 (8 * cornered.mapSize) (pagesFor 1) → cornered.Sees (pagesFor 1)) :=
  search_complete_iff cornered_laid (by decide)

/-- The cursor is at the end, the second pass has a limit of 0, and the free page is
not found. -/
theorem search_misses_page : Laid 0x408001 cornered ∧ 0 < pagesFor 1 ∧
    HasRun cornered.used 0 (8 * cornered.mapSize) (pagesFor 1) ∧ (cornered.bitmapMalloc 1).1 = 0 := by
  have free : cornered.used 0 = false := by
    decide +kernel
  refine ⟨cornered_laid, by decide, ⟨0, le_refl _, by decide +kernel, fun p _ below => ?_⟩,
    by decide +kernel⟩
  have one : pagesFor 1 = 1 := rfl
  have first : p = 0 := by
    omega
  rwa [first]

end Complete

end Heap

end TestOs.Memory
