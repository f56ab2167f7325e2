/-
# Memory.Safety -- the blocks of the heap over whole runs

A live pointer owns the pages that its header counts.  `Safe` is what the users rely
on: blocks lie in the heap, share no page, and the set bits are their pages.  It
follows from `Sound`, which also has the headers intact and the cursor at a page
boundary, and every call keeps that as long as its search stays in the map and its
size does not wrap (`Sane`): `safe_run`.  In such a run `bitmap_malloc` gives blocks
that are large enough, and `bitmap_realloc` does so but for the eight sizes that
fill the pages of the block and not its header (`large_enough_iff`).
-/
import TestOs.Memory.Indices

namespace TestOs.Memory

open TestOs.Library

set_option autoImplicit false

/-! ## memcpy -/

section Copy

variable {mem : Memory} {d s x : BitVec 32} {size : Nat}

theorem copyUp_outside (bounded : size < 2 ^ 32) (outside : size ≤ (x - d).toNat) :
    copyUp mem d s size x = mem x := by
  induction size generalizing mem d s with
  | zero => rfl
  | succ size ih =>
      have here : x ≠ d := by
        rintro rfl
        rw [BitVec.sub_self] at outside
        exact absurd outside (Nat.not_succ_le_zero _)
      rw [copyUp, ih (by omega) (by bv_omega)]
      exact Function.update_of_ne here ..

theorem copyDown_outside (bounded : size < 2 ^ 32) (outside : size ≤ (d - x).toNat) :
    copyDown mem d s size x = mem x := by
  induction size generalizing mem d s with
  | zero => rfl
  | succ size ih =>
      have here : x ≠ d := by
        rintro rfl
        rw [BitVec.sub_self] at outside
        exact absurd outside (Nat.not_succ_le_zero _)
      rw [copyDown, ih (by omega) (by bv_omega)]
      exact Function.update_of_ne here ..

/-- Only the bytes of the destination are written. -/
theorem memcpy_outside (bounded : size < 2 ^ 32) (outside : size ≤ (x - d).toNat) :
    memcpy mem d s size x = mem x := by
  unfold memcpy
  by_cases null : d = 0 ∨ s = 0
  · rw [if_pos null]
  · rw [if_neg null]
    split
    · exact copyUp_outside bounded outside
    · by_cases empty : size = 0
      · rw [empty]
        rfl
      · exact copyDown_outside bounded (by bv_omega)

end Copy

/-- The pages for a size have room for it and the header, unless the sum wraps. -/
theorem pagesFor_enough {size : BitVec 32} :
    size.toNat + 8 ≤ pagesFor size * pageSize ↔ size.toNat + 8 < 2 ^ 32 := by
  have header : (8 : BitVec 32).toNat = 8 := rfl
  have unit : pageSize = 4096 := rfl
  have bound := size.isLt
  unfold pagesFor
  simp only [unit]
  by_cases null : size = 0
  · subst null
    decide
  · have total : (size + 8).toNat = (size.toNat + 8) % 2 ^ 32 := by
      rw [BitVec.toNat_add, header]
    rw [if_neg null, total]
    split <;> omega

theorem pagesFor_le {size : BitVec 32} : pagesFor size ≤ 2 ^ 20 := by
  have unit : pageSize = 4096 := rfl
  unfold pagesFor
  simp only [unit]
  generalize (if size = 0 then 1 else size) + 8 = total
  have bound := total.isLt
  split <;> omega

/-! ## Offsets -/

namespace Heap

variable {bytesLen : BitVec 32} {s : Heap} {a b k p : Nat}

/-- Where a byte of a header is, seen from a block. -/
theorem Laid.header_offset (laid : Laid bytesLen s) (a_le : a ≤ 8 * s.mapSize)
    (b_le : b ≤ 8 * s.mapSize) (inside : k < 8) : (s.block b - 8 + BitVec.ofNat 32 k - s.block a).toNat =
      (2 ^ 32 + 4096 * b + k - 4096 * a - 8) % 2 ^ 32 := by
  have small := laid.mapSize_le
  have same : s.block b - 8 + BitVec.ofNat 32 k - s.block a =
      BitVec.ofNat 32 (b * 4096 + k) - BitVec.ofNat 32 (a * 4096 + 8) := by
    rw [block, block, pageSize, BitVec.ofNat_add, BitVec.ofNat_add]
    change _ = _ - (_ + (8 : BitVec 32))
    ring
  rw [same]
  bv_omega

/-- Where a byte of the map is, seen from a block. -/
theorem Laid.map_offset (laid : Laid bytesLen s) (a_le : a ≤ 8 * s.mapSize) (p_lt : p < 8 * s.mapSize) :
    (heapBottom + BitVec.ofNat 32 (p / 8) - s.block a).toNat =
      2 ^ 32 + p / 8 - s.mapSize - 4096 * a - 8 := by
  have small := laid.mapSize_le
  have start := laid.bitsStart_eq
  have same : heapBottom + BitVec.ofNat 32 (p / 8) - s.block a =
      BitVec.ofNat 32 (p / 8) - BitVec.ofNat 32 (s.mapSize + a * 4096 + 8) := by
    rw [block, pageSize, start, BitVec.ofNat_add, BitVec.ofNat_add]
    change _ = _ - (_ + (8 : BitVec 32))
    ring
  rw [same]
  bv_omega

end Heap

/-! ## What a call that stays in the map returns -/

namespace Heap

variable {bytesLen size : BitVec 32} {s : Heap} {n : Nat}

/-- The search ends at a place; one for no pages ends at a used page. -/
def Finds (s : Heap) (n : Nat) : Prop :=
  if n = 0 then
    ∃ p, s.used p = true ∧ (s.cursor ≤ p ∧ p < 8 * s.mapSize ∨ p < 8 * s.secondLen)
  else s.Sees n

/-- What is returned is NULL, or a block whose header has the page count. -/
theorem Laid.malloc_header (laid : Laid bytesLen s) (stays : s.Stays (pagesFor size))
    (nonzero : (s.bitmapMalloc size).1 ≠ 0) : ∃ a ≤ 8 * s.mapSize, (s.bitmapMalloc size).1 = s.block a ∧
      (s.bitmapMalloc size).2.mem.load ((s.bitmapMalloc size).1 - 4) = BitVec.ofNat 32 (pagesFor size) := by
  rcases laid.malloc_cases stays with failed | ⟨t, q, same, q_lt, enough, -, taken⟩
  · rw [failed] at nonzero
    exact absurd rfl nonzero
  · have mapSize : t.mapSize = s.mapSize := by
      rcases same with rfl | rfl <;> rfl
    have start : t.bitsStart = s.bitsStart := by
      rcases same with rfl | rfl <;> rfl
    have ret := @take_eq_block t q _ enough
    have place : t.block (q + 1 - pagesFor size) = s.block (q + 1 - pagesFor size) := by
      rw [block, block, start]
    have header := (laid.of_same same).take_header ret (by omega) enough (fun _ => by omega)
    refine ⟨q + 1 - pagesFor size, by omega, ?_, ?_⟩
    · rw [taken, ret, place]
    · rw [taken, ret]
      exact header.2

theorem Laid.malloc_ne_zero_iff (laid : Laid bytesLen s) (stays : s.Stays (pagesFor size)) :
    (s.bitmapMalloc size).1 ≠ 0 ↔ s.Finds (pagesFor size) := by
  obtain ⟨-, k_le⟩ := laid.bitsPtr
  rw [Finds]
  by_cases none_ : pagesFor size = 0
  · rw [if_pos none_]
    rcases free_or_first s.used s.cursor (8 * s.mapSize - s.cursor) with
      free | ⟨q, low, high, isUsed, free⟩
    · obtain ⟨count, again_⟩ := laid.malloc_nothing_free none_ free
      rcases free_or_first s.used 0 (8 * s.secondLen) with all | ⟨q, low, high, isUsed, lead⟩
      · rw [again_, again_failed (scan_nothing_free all)]
        refine iff_of_false (not_not.2 rfl) ?_
        rintro ⟨p, isUsed, ⟨low, high⟩ | high⟩
        · rw [free p low (by omega)] at isUsed
          cases isUsed
        · rw [all p (Nat.zero_le p) (by omega)] at isUsed
          cases isUsed
      · refine iff_of_true ?_ ⟨q, isUsed, .inr (by omega)⟩
        rw [Stays, if_pos none_] at stays
        have inside : q < 8 * s.mapSize := by
          rcases stays with bounded | ⟨p, p_lt, isUsed'⟩
          · omega
          · by_contra behind
            rw [lead p (by omega) (by omega)] at isUsed'
            cases isUsed'
        rw [again_, again_found (scan_nothing_used low high isUsed lead), take_eq_block (Nat.zero_le _)]
        exact laid.rewind.block_ne_zero (by show q + 1 - 0 ≤ 8 * s.mapSize; omega)
    · refine iff_of_true ?_ ⟨q, isUsed, .inl ⟨low, by omega⟩⟩
      rw [laid.malloc_nothing_used none_ low (by omega) isUsed free, take_eq_block (Nat.zero_le _)]
      exact laid.block_ne_zero (by omega)
  · have positive : 0 < pagesFor size := Nat.pos_of_ne_zero none_
    rw [if_neg none_]
    rw [Stays, if_neg none_] at stays
    by_cases forward : HasRun s.used s.cursor (8 * s.mapSize) (pagesFor size)
    · obtain ⟨a, first, taken⟩ := laid.malloc_forward positive forward
      refine iff_of_true ?_ (.inl forward)
      rw [taken, take_eq_block (by omega)]
      exact laid.block_ne_zero (by have := first.inside; omega)
    · obtain ⟨found, below, trailing, again_⟩ := laid.malloc_backward positive forward
      have finds := again_finds_iff below trailing
      rw [Sees, or_iff_right forward, ← finds, again_]
      cases second : scan s.used (pagesFor size) (8 * s.secondLen) 0 found with
      | mk place count =>
          cases place with
          | none =>
              rw [again_failed second]
              exact iff_of_false (not_not.2 rfl) (by rintro ⟨q, count, some_⟩; cases some_)
          | some q =>
              obtain ⟨inside, enough⟩ := (stays_iff_of_found below trailing second).2
                (stays.resolve_left forward)
              refine iff_of_true ?_ ⟨q, count, rfl⟩
              rw [again_found second, take_eq_block enough]
              exact laid.rewind.block_ne_zero (by show _ ≤ 8 * s.mapSize; omega)

end Heap

namespace Arena

/-! ## Blocks -/

/-- The page of the header. -/
def first (s : Arena) (ret : BitVec 32) : Nat := s.heap.pageOf (ret - 8)

/-- The pages of a block. -/
def Owns (s : Arena) (ret : BitVec 32) (p : Nat) : Prop :=
  s.first ret ≤ p ∧ p < s.first ret + s.pages ret

/-- The live blocks lie in the heap and share no page, and the set bits are their pages. -/
structure Safe (s : Arena) : Prop where
  inside : ∀ ret ∈ s.live, (ret - 8 - s.heap.bitsStart).toNat + s.pages ret * pageSize ≤
    s.heap.mapSize * 8 * pageSize
  apart : ∀ ret ∈ s.live, ∀ ret' ∈ s.live, ∀ p, s.Owns ret p → s.Owns ret' p → ret = ret'
  used : ∀ p < 8 * s.heap.mapSize, s.heap.used p = true ↔ ∃ ret ∈ s.live, s.Owns ret p

/-- A block with its header. -/
structure Block (s : Arena) (ret : BitVec 32) : Prop where
  some_ : 0 < s.pages ret
  inside : s.first ret + s.pages ret ≤ 8 * s.heap.mapSize
  place : ret = s.heap.block (s.first ret)
  magic : s.heap.mem.load (ret - 8) = mallocMagic

/-- What the calls keep. -/
structure Sound (bytesLen : BitVec 32) (s : Arena) : Prop where
  laid : s.heap.Laid bytesLen
  blocks : ∀ ret ∈ s.live, s.Block ret
  apart : ∀ ret ∈ s.live, ∀ ret' ∈ s.live, ∀ p, s.Owns ret p → s.Owns ret' p → ret = ret'
  used : ∀ p < 8 * s.heap.mapSize, s.heap.used p = true ↔ ∃ ret ∈ s.live, s.Owns ret p

section Sound

variable {bytesLen : BitVec 32} {s t : Arena} {ret ret' x : BitVec 32} {mem : Memory} {a b k p : Nat}

theorem Sound.safe (sound : s.Sound bytesLen) : s.Safe := by
  have small := sound.laid.mapSize_le
  refine ⟨fun ret member => ?_, sound.apart, sound.used⟩
  have block := sound.blocks ret member
  have inside := block.inside
  have offset : (ret - 8 - s.heap.bitsStart).toNat = s.first ret * pageSize := by
    have place := block.place
    generalize s.first ret = a at place inside ⊢
    rw [place, Heap.block, pageSize]
    bv_omega
  rw [offset, ← Nat.add_mul]
  exact Nat.mul_le_mul_right _ (by omega)

theorem Block.owns_first (block : s.Block ret) : s.Owns ret (s.first ret) :=
  ⟨le_refl _, by have := block.some_; omega⟩

theorem Sound.used_of_owns (sound : s.Sound bytesLen) (member : ret ∈ s.live) (owns : s.Owns ret p) :
    s.heap.used p = true := by
  have inside := (sound.blocks ret member).inside
  exact (sound.used p (by have := owns.2; omega)).2 ⟨ret, member, owns⟩

/-! ## Headers, bodies and the map -/

/-- The eight bytes of the header are the same. -/
def SameHeader (mem mem' : Memory) (ret : BitVec 32) : Prop :=
  ∀ k < 8, mem' (ret - 8 + BitVec.ofNat 32 k) = mem (ret - 8 + BitVec.ofNat 32 k)

theorem SameHeader.load {mem mem' : Memory} (same : SameHeader mem mem' ret) :
    mem'.load (ret - 8) = mem.load (ret - 8) ∧ mem'.load (ret - 4) = mem.load (ret - 4) := by
  refine ⟨Memory.load_congr fun k inside => same k (by omega), Memory.load_congr fun k inside => ?_⟩
  have place : ret - 4 + BitVec.ofNat 32 k = ret - 8 + BitVec.ofNat 32 (k + 4) := by
    bv_omega
  rw [place]
  exact same (k + 4) (by omega)

/-- Headers of two blocks have no byte in common. -/
theorem header_apart {heap : Heap} (laid : heap.Laid bytesLen) (a_le : a ≤ 8 * heap.mapSize)
    (b_le : b ≤ 8 * heap.mapSize) (other : a ≠ b) (inside : k < 8) :
    8 ≤ (heap.block b - 8 + BitVec.ofNat 32 k - (heap.block a - 8)).toNat := by
  have small := laid.mapSize_le
  have offset := laid.header_offset a_le b_le inside
  generalize heap.block b - 8 + BitVec.ofNat 32 k = x at offset ⊢
  generalize heap.block a = y at offset ⊢
  have shift : x - (y - 8) = x - y + 8 := by
    bv_omega
  rw [shift, BitVec.toNat_add, offset]
  change 8 ≤ (_ + 8) % 2 ^ 32
  omega

theorem header_not_map {heap : Heap} (laid : heap.Laid bytesLen) (a_le : a ≤ 8 * heap.mapSize)
    (p_lt : p < 8 * heap.mapSize) (inside : k < 8) :
    heap.block a - 8 + BitVec.ofNat 32 k ≠ heapBottom + BitVec.ofNat 32 (p / 8) := by
  have apart := laid.map_apart a_le p_lt
  intro same
  rw [← same] at apart
  bv_omega

/-- The map is in no block. -/
theorem Sound.map_outside (sound : s.Sound bytesLen) (p_lt : p < 8 * s.heap.mapSize)
    (member : ret ∈ s.live) : ¬ s.InBlock ret (heapBottom + BitVec.ofNat 32 (p / 8)) := by
  have small := sound.laid.mapSize_le
  have block := sound.blocks ret member
  have inside := block.inside
  have some_ := block.some_
  have offset := @Heap.Laid.map_offset _ s.heap (s.first ret) p sound.laid (by omega) p_lt
  rw [InBlock, block.place, offset, ← block.place, pageSize]
  omega

/-- A header is in no other block, and not in its own behind it. -/
theorem Sound.header_outside (sound : s.Sound bytesLen) (member : ret ∈ s.live)
    (member' : ret' ∈ s.live) (inside : k < 8) : ¬ s.InBlock ret (ret' - 8 + BitVec.ofNat 32 k) := by
  have small := sound.laid.mapSize_le
  have block := sound.blocks ret member
  have block' := sound.blocks ret' member'
  have bound := block.inside
  have bound' := block'.inside
  have offset := @Heap.Laid.header_offset _ s.heap (s.first ret) (s.first ret') k sound.laid (by omega)
    (by omega) inside
  rw [← block.place, ← block'.place] at offset
  rw [InBlock, offset, pageSize]
  intro within
  have shared : s.Owns ret (s.first ret') := ⟨by omega, by omega⟩
  have same := sound.apart ret member ret' member' _ shared block'.owns_first
  rw [same] at within
  omega

/-- `bitmap_free` writes the magic of a header, and the map. -/
theorem free_size {heap heap' : Heap} (laid : heap.Laid bytesLen) (a_le : a ≤ 8 * heap.mapSize)
    (b_le : b ≤ 8 * heap.mapSize) (freed : heap.bitmapFree (heap.block a) = some heap') :
    heap'.mem.load (heap.block b - 4) = heap.mem.load (heap.block b - 4) := by
  by_cases magic : heap.mem.load (heap.block a - 8) = mallocMagic
  · rw [laid.free_eq a_le magic] at freed
    cases freed
    refine Memory.load_congr fun k inside => ?_
    have place : heap.block b - 4 + BitVec.ofNat 32 k = heap.block b - 8 + BitVec.ofNat 32 (k + 4) := by
      bv_omega
    rw [place]
    refine (Heap.unmark_outside _ fun r low high =>
      header_not_map laid b_le (by omega) (by omega)).trans (Memory.store_outside ?_)
    by_cases same : a = b
    · rw [same]
      bv_omega
    · have eight := header_apart laid a_le b_le same (show k + 4 < 8 by omega)
      omega
  · unfold Heap.bitmapFree at freed
    simp only [] at freed
    rw [if_pos magic] at freed
    cases freed

/-- Only the bodies of blocks were written. -/
theorem Sound.of_bodies (sound : s.Sound bytesLen)
    (outside : ∀ x, (∀ ret ∈ s.live, ¬ s.InBlock ret x) → mem x = s.heap.mem x) :
    (⟨{ s.heap with mem := mem }, s.live⟩ : Arena).Sound bytesLen := by
  have header : ∀ ret ∈ s.live, SameHeader s.heap.mem mem ret := fun ret member k inside =>
    outside _ fun ret' member' => sound.header_outside member' member inside
  have pages : ∀ ret ∈ s.live, pages ⟨{ s.heap with mem := mem }, s.live⟩ ret = s.pages ret :=
    fun ret member => congrArg BitVec.toNat (header ret member).load.2
  have owns : ∀ ret ∈ s.live, ∀ p, Owns ⟨{ s.heap with mem := mem }, s.live⟩ ret p ↔ s.Owns ret p := by
    intro ret member p
    rw [Owns, pages ret member]
    rfl
  refine ⟨sound.laid.withMem mem, fun ret member => ?_, fun ret member ret' member' p own own' => ?_,
    fun p p_lt => ?_⟩
  · have block := sound.blocks ret member
    refine ⟨?_, ?_, block.place, ?_⟩
    · rw [pages ret member]
      exact block.some_
    · rw [pages ret member]
      exact block.inside
    · exact (header ret member).load.1.trans block.magic
  · exact sound.apart ret member ret' member' p ((owns ret member p).1 own) ((owns ret' member' p).1 own')
  · have bit : mem.bit heapBottom p = s.heap.used p := Memory.bit_congr
      (outside _ fun ret member => sound.map_outside p_lt member)
    have same := sound.used p p_lt
    rw [← bit] at same
    refine same.trans (exists_congr fun ret => and_congr_right fun member => ?_)
    exact (owns ret member p).symm

/-! ## Taking and giving back -/

section Take

variable {heap : Heap} {n q : Nat}

/-- The new block has the free pages that were found. -/
theorem Sound.take (sound : s.Sound bytesLen) (same : heap = s.heap ∨ heap = s.heap.rewind)
    (positive : 0 < n) (q_lt : q < 8 * s.heap.mapSize) (enough : n ≤ q + 1)
    (free : FreeRun s.heap.used (q + 1 - n) n) :
    (⟨(heap.take q n).2, insert (heap.take q n).1 s.live⟩ : Arena).Sound bytesLen := by
  have small := sound.laid.mapSize_le
  have laid := sound.laid.of_same same
  have mapSize : heap.mapSize = s.heap.mapSize := by
    rcases same with rfl | rfl <;> rfl
  have used_ : heap.used = s.heap.used := by
    rcases same with rfl | rfl <;> rfl
  have mem_ : heap.mem = s.heap.mem := by
    rcases same with rfl | rfl <;> rfl
  have start : heap.bitsStart = s.heap.bitsStart := by
    rcases same with rfl | rfl <;> rfl
  have ret_ : (heap.take q n).1 = heap.block (q + 1 - n) := Heap.take_eq_block enough
  obtain ⟨a, a_⟩ : ∃ a, a = q + 1 - n := ⟨_, rfl⟩
  rw [← a_] at free ret_
  have a_le : a ≤ 8 * heap.mapSize := by
    omega
  generalize after_ : (⟨(heap.take q n).2, insert (heap.take q n).1 s.live⟩ : Arena) = after
  have heap_ : after.heap = (heap.take q n).2 := by
    rw [← after_]
  have live_ : after.live = insert (heap.block a) s.live := by
    rw [← after_, ret_]
  have laid' : after.heap.Laid bytesLen := by
    rw [heap_]
    exact laid.take ret_ (by omega)
  have first_ : ∀ ret, after.first ret = s.first ret := fun ret => by
    rw [first, heap_]
    show (ret - 8 - heap.bitsStart).toNat / pageSize = _
    rw [start]
    rfl
  -- the new block
  obtain ⟨magic, size_⟩ := laid.take_header ret_ a_le enough (fun _ => by omega)
  have firstNew : after.first (heap.block a) = a := by
    rw [first, heap_]
    exact laid.pageOf_block a_le
  have pagesNew : after.pages (heap.block a) = n := by
    rw [pages, heap_, size_, BitVec.toNat_ofNat]
    omega
  -- the other blocks
  have elsewhere : ∀ ret ∈ s.live, ∀ p, s.Owns ret p → ¬ (a ≤ p ∧ p < a + n) := fun ret member p owns within => by
    have isUsed := sound.used_of_owns member owns
    rw [free p within.1 within.2] at isUsed
    cases isUsed
  have header : ∀ ret ∈ s.live, SameHeader s.heap.mem after.heap.mem ret := fun ret member k inside => by
    have block := sound.blocks ret member
    have bound := block.inside
    have other := elsewhere ret member _ block.owns_first
    have place : ret = heap.block (s.first ret) := by
      rw [Heap.block, start]
      exact block.place
    rw [heap_, ← mem_, place]
    exact Heap.take_outside ret_ enough
      (header_apart laid a_le (by rw [mapSize]; omega) (by omega) inside)
      fun p low high => header_not_map laid (by rw [mapSize]; omega) (by omega) inside
  have pagesOld : ∀ ret ∈ s.live, after.pages ret = s.pages ret := fun ret member =>
    congrArg BitVec.toNat (header ret member).load.2
  have ownsNew : ∀ p, after.Owns (heap.block a) p ↔ a ≤ p ∧ p < a + n := fun p => by
    rw [Owns, firstNew, pagesNew]
  have ownsOld : ∀ ret ∈ s.live, ∀ p, after.Owns ret p ↔ s.Owns ret p := fun ret member p => by
    rw [Owns, first_, pagesOld ret member]
    rfl
  have mapSize' : after.heap.mapSize = s.heap.mapSize := by
    rw [heap_]
    exact mapSize
  refine ⟨laid', fun ret member => ?_, fun ret member ret' member' p own own' => ?_, fun p p_lt => ?_⟩
  · rw [live_] at member
    rcases Finset.mem_insert.1 member with rfl | old
    · refine ⟨by rwa [pagesNew], ?_, ?_, ?_⟩
      · rw [firstNew, pagesNew, mapSize']
        omega
      · rw [firstNew, heap_]
        rfl
      · rw [heap_]
        exact magic
    · have block := sound.blocks ret old
      refine ⟨?_, ?_, ?_, ?_⟩
      · rw [pagesOld ret old]
        exact block.some_
      · rw [first_, pagesOld ret old, mapSize']
        exact block.inside
      · rw [first_, heap_, Heap.block]
        show ret = heap.bitsStart + _ + 8
        rw [start]
        exact block.place
      · exact (header ret old).load.1.trans block.magic
  · rw [live_] at member member'
    rcases Finset.mem_insert.1 member with rfl | old <;> rcases Finset.mem_insert.1 member' with rfl | old'
    · rfl
    · exact absurd ((ownsNew p).1 own) (elsewhere ret' old' p ((ownsOld ret' old' p).1 own'))
    · exact absurd ((ownsNew p).1 own') (elsewhere ret old p ((ownsOld ret old p).1 own))
    · exact sound.apart ret old ret' old' p ((ownsOld ret old p).1 own) ((ownsOld ret' old' p).1 own')
  · rw [mapSize'] at p_lt
    have marked : (heap.take q n).2.used p = _ :=
      laid.take_used ret_ a_le enough (fun _ => by omega) (by omega)
    rw [heap_, marked, used_, live_, Bool.or_eq_true, decide_eq_true_iff, sound.used p p_lt]
    constructor
    · rintro (within | ⟨ret, old, owns⟩)
      · exact ⟨_, Finset.mem_insert_self .., (ownsNew p).2 (by omega)⟩
      · exact ⟨ret, Finset.mem_insert_of_mem old, (ownsOld ret old p).2 owns⟩
    · rintro ⟨ret, member, owns⟩
      rcases Finset.mem_insert.1 member with rfl | old
      · have within := (ownsNew p).1 owns
        exact .inl (by omega)
      · exact .inr ⟨ret, old, (ownsOld ret old p).1 owns⟩

end Take

/-- A live block is given back. -/
theorem Sound.free (sound : s.Sound bytesLen) (member : ret ∈ s.live) :
    ∃ heap, s.heap.bitmapFree ret = some heap ∧
      (⟨heap, s.live.erase ret⟩ : Arena).Sound bytesLen := by
  have small := sound.laid.mapSize_le
  have block := sound.blocks ret member
  have bound := block.inside
  have some_ := block.some_
  have freed := @Heap.Laid.free_eq _ s.heap (s.first ret) sound.laid (by omega)
    (by rw [← block.place]; exact block.magic)
  rw [← block.place] at freed
  have count : Heap.turns (s.heap.mem.load (ret - 4)) (8 * s.heap.mapSize - s.first ret) = s.pages ret := by
    have value : (s.heap.mem.load (ret - 4)).toNat = s.pages ret := rfl
    have nonzero : s.heap.mem.load (ret - 4) ≠ 0 := fun none_ => by
      rw [none_] at value
      exact absurd value.symm some_.ne'
    rw [Heap.turns, if_neg nonzero, value]
    omega
  have outside : ∀ x, 4 ≤ (x - (ret - 8)).toNat →
      (∀ r, s.first ret ≤ r → r < s.first ret + (8 * s.heap.mapSize - s.first ret) →
        x ≠ heapBottom + BitVec.ofNat 32 (r / 8)) →
      Heap.unmark (s.heap.mem.store (ret - 8) freeMagic) (s.heap.mem.load (ret - 4))
        (8 * s.heap.mapSize - s.first ret) (s.first ret) x = s.heap.mem x := fun x header map =>
    (Heap.unmark_outside _ map).trans (Memory.store_outside header)
  generalize after_ : Heap.unmark (s.heap.mem.store (ret - 8) freeMagic) (s.heap.mem.load (ret - 4))
    (8 * s.heap.mapSize - s.first ret) (s.first ret) = mem at freed outside
  have header : ∀ ret' ∈ s.live, ret' ≠ ret → SameHeader s.heap.mem mem ret' := by
    intro ret' member' other k inside
    have block' := sound.blocks ret' member'
    have bound' := block'.inside
    have apart : s.first ret ≠ s.first ret' := fun same =>
      other (by rw [block'.place, ← same, ← block.place])
    have eight := @header_apart _ (s.first ret) (s.first ret') k s.heap sound.laid (by omega) (by omega)
      apart inside
    rw [← block.place, ← block'.place] at eight
    refine outside _ (by omega) fun r low high => ?_
    have notMap := @header_not_map _ (s.first ret') k r s.heap sound.laid (by omega) (by omega) inside
    rwa [← block'.place] at notMap
  generalize live_ : s.live.erase ret = live
  have old : ∀ ret' ∈ live, ret' ∈ s.live ∧ ret' ≠ ret := fun ret' member' => by
    rw [← live_] at member'
    exact ⟨Finset.mem_of_mem_erase member', Finset.ne_of_mem_erase member'⟩
  have pages_ : ∀ ret' ∈ live, pages ⟨{ s.heap with mem := mem }, live⟩ ret' = s.pages ret' :=
    fun ret' member' => congrArg BitVec.toNat (header ret' (old ret' member').1 (old ret' member').2).load.2
  have owns : ∀ ret' ∈ live, ∀ p, Owns ⟨{ s.heap with mem := mem }, live⟩ ret' p ↔ s.Owns ret' p := by
    intro ret' member' p
    rw [Owns, pages_ ret' member']
    rfl
  refine ⟨_, freed, ⟨sound.laid.withMem mem, fun ret' member' => ?_,
    fun ret' member' ret'' member'' p own own' => ?_, fun p p_lt => ?_⟩⟩
  · have block' := sound.blocks ret' (old ret' member').1
    refine ⟨?_, ?_, block'.place, ?_⟩
    · rw [pages_ ret' member']
      exact block'.some_
    · rw [pages_ ret' member']
      exact block'.inside
    · exact (header ret' (old ret' member').1 (old ret' member').2).load.1.trans block'.magic
  · exact sound.apart ret' (old ret' member').1 ret'' (old ret'' member'').1 p
      ((owns ret' member' p).1 own) ((owns ret'' member'' p).1 own')
  · have cleared := @Heap.Laid.free_used _ s.heap (s.first ret) p sound.laid (by omega) p_lt
      (s.heap.mem.load (ret - 4))
    rw [← block.place, after_, count] at cleared
    show mem.bit heapBottom p = true ↔ _
    rw [cleared, Bool.and_eq_true, Bool.not_eq_true', decide_eq_false_iff_not, sound.used p p_lt]
    constructor
    · rintro ⟨⟨ret', member', own⟩, other⟩
      have different : ret' ≠ ret := fun same => other (by rwa [same] at own)
      have kept : ret' ∈ live := by
        rw [← live_]
        exact Finset.mem_erase.2 ⟨different, member'⟩
      exact ⟨ret', kept, (owns ret' kept p).2 own⟩
    · rintro ⟨ret', member', own⟩
      have own' := (owns ret' member' p).1 own
      exact ⟨⟨ret', (old ret' member').1, own'⟩, fun mine =>
        (old ret' member').2 (sound.apart ret' (old ret' member').1 ret member p own' mine)⟩

/-! ## Calls -/

variable {size addr : BitVec 32} {op : HeapOp}

theorem Sound.rewind (sound : s.Sound bytesLen) : (⟨s.heap.rewind, s.live⟩ : Arena).Sound bytesLen := by
  refine ⟨sound.laid.rewind, fun ret member => ?_, sound.apart, sound.used⟩
  have block := sound.blocks ret member
  exact ⟨block.some_, block.inside, block.place, block.magic⟩

theorem Sound.null_not_live (sound : s.Sound bytesLen) : 0 ∉ s.live := fun member => by
  have block := sound.blocks 0 member
  have inside := block.inside
  exact sound.laid.block_ne_zero (by omega) block.place.symm

/-- A block for a size that does not wrap to no pages. -/
theorem Sound.malloc (sound : s.Sound bytesLen) (some_ : size ≠ 0xfffffff8)
    (stays : s.heap.Stays (pagesFor size)) :
    (⟨(s.heap.bitmapMalloc size).2, hold s.live (s.heap.bitmapMalloc size).1⟩ : Arena).Sound bytesLen ∧
      (s.heap.bitmapMalloc size).1 ∉ s.live := by
  have positive := pagesFor_pos size some_
  rcases sound.laid.malloc_cases stays with failed | ⟨heap, q, same, q_lt, enough, free, taken⟩
  · rw [failed]
    refine ⟨?_, sound.null_not_live⟩
    rw [hold, if_pos rfl]
    exact sound.rewind
  · have mapSize : heap.mapSize = s.heap.mapSize := by
      rcases same with rfl | rfl <;> rfl
    have start : heap.bitsStart = s.heap.bitsStart := by
      rcases same with rfl | rfl <;> rfl
    have laid := sound.laid.of_same same
    have ret_ : (heap.take q (pagesFor size)).1 = s.heap.block (q + 1 - pagesFor size) := by
      rw [Heap.take_eq_block enough, Heap.block, start, Heap.block]
    have nonzero : (heap.take q (pagesFor size)).1 ≠ 0 := by
      rw [ret_]
      exact sound.laid.block_ne_zero (by omega)
    rw [taken, hold, if_neg nonzero]
    refine ⟨sound.take same positive q_lt enough free, fun member => ?_⟩
    have block := sound.blocks _ member
    have isUsed := sound.used_of_owns member block.owns_first
    rw [ret_, first, sound.laid.pageOf_block (by omega), free _ (le_refl _) (by omega)] at isUsed
    cases isUsed

/-- A call that stays in the map and whose size does not wrap.  Where nothing is found,
`bitmap_realloc` copies nothing. -/
def Sane (s : Arena) (op : HeapOp) : Prop :=
  ∀ size, s.request op = some size → size ≠ 0xfffffff8 ∧ s.heap.Stays (pagesFor size) ∧
    ∀ addr, op = .realloc addr size → addr ≠ 0 →
      size.toNat + 8 < 2 ^ 32 ∨ ¬ s.heap.Finds (pagesFor size)

/-- The old block is copied behind the header of the new one. -/
theorem Sound.copied (sound : s.Sound bytesLen) (member : ret ∈ s.live) {count : Nat} (src : BitVec 32)
    (room : count + 8 ≤ s.pages ret * pageSize) :
    (⟨s.heap.copied ret src count, s.live⟩ : Arena).Sound bytesLen := by
  have block := sound.blocks ret member
  have bound := block.inside
  have small := sound.laid.mapSize_le
  refine sound.of_bodies fun x outside => memcpy_outside ?_ ?_
  · rw [pageSize] at room
    omega
  · have notHere := outside ret member
    rw [InBlock] at notHere
    omega

/-- The block that `bitmap_realloc` moves. -/
theorem Sound.old_toNat (sound : s.Sound bytesLen) (member : ret ∈ s.live) :
    (s.heap.mem.load (ret - 4) * BitVec.ofNat 32 pageSize).toNat = s.pages ret * pageSize ∧
      s.pages ret * pageSize < 2 ^ 31 := by
  have block := sound.blocks ret member
  have bound := block.inside
  have small := sound.laid.mapSize_le
  have unit : (BitVec.ofNat 32 pageSize).toNat = 4096 := rfl
  have value : (s.heap.mem.load (ret - 4)).toNat = s.pages ret := rfl
  rw [BitVec.toNat_mul, unit, value, pageSize]
  omega

/-- The block moves to a new one, and the old one is given back. -/
theorem Sound.moved (sound : s.Sound bytesLen) (member : addr ∈ s.live) (some_ : size ≠ 0)
    (larger : s.heap.mem.load (addr - 4) * BitVec.ofNat 32 pageSize < size)
    (sane : s.Sane (.realloc addr size)) (nonzero : (s.heap.bitmapMalloc size).1 ≠ 0) {heap : Heap}
    (freed : ((s.heap.bitmapMalloc size).2.copied (s.heap.bitmapMalloc size).1 addr
      (s.heap.mem.load (addr - 4) * BitVec.ofNat 32 pageSize).toNat).bitmapFree addr = some heap) :
    (⟨heap, insert (s.heap.bitmapMalloc size).1 (s.live.erase addr)⟩ : Arena).Sound bytesLen := by
  have null : addr ≠ 0 := fun zero => sound.null_not_live (zero ▸ member)
  obtain ⟨fits, stays, room⟩ := sane size (by rw [request, if_neg null, if_neg some_, if_pos larger])
  have noWrap := (room addr rfl null).resolve_right
    (not_not.2 ((sound.laid.malloc_ne_zero_iff stays).1 nonzero))
  obtain ⟨a, a_le, -, header⟩ := sound.laid.malloc_header stays nonzero
  obtain ⟨sound', notLive⟩ := sound.malloc fits stays
  rw [hold, if_neg nonzero] at sound'
  generalize s.heap.bitmapMalloc size = result at *
  obtain ⟨value, small⟩ := sound.old_toNat member
  rw [value] at freed
  have count : pages ⟨result.2, insert result.1 s.live⟩ result.1 = pagesFor size := by
    have few := @pagesFor_le size
    rw [pages, header, BitVec.toNat_ofNat]
    omega
  have copied := @Sound.copied _ _ _ sound' (Finset.mem_insert_self ..) (s.pages addr * pageSize) addr (by
    rw [count]
    have enough := (@pagesFor_enough size).2 noWrap
    have less : s.pages addr * pageSize < size.toNat := by
      rw [← value]
      exact BitVec.lt_def.1 larger
    omega)
  obtain ⟨heap', freed', sound''⟩ := copied.free (Finset.mem_insert_of_mem member)
  have same : heap = heap' := Option.some.inj (freed.symm.trans freed')
  have different : result.1 ≠ addr := fun same => notLive (same ▸ member)
  rw [same, ← Finset.erase_insert_of_ne different]
  exact sound''

theorem sound_step (sound : s.Sound bytesLen) (sane : s.Sane op) (next : s.step op = some t) :
    t.Sound bytesLen := by
  cases op with
  | malloc size =>
      cases next
      obtain ⟨fits, stays, -⟩ := sane size rfl
      exact (sound.malloc fits stays).1
  | free addr =>
      simp only [step] at next
      by_cases member : addr ∈ s.live
      · rw [if_pos member] at next
        obtain ⟨heap, freed, same⟩ := Option.map_eq_some_iff.1 next
        obtain ⟨heap', freed', sound'⟩ := sound.free member
        cases same
        cases freed.symm.trans freed'
        exact sound'
      · rw [if_neg member] at next
        cases next
  | write addr byte =>
      simp only [step] at next
      by_cases inside : ∃ ret ∈ s.live, s.InBlock ret addr
      · rw [if_pos inside] at next
        cases next
        obtain ⟨ret, member, inBlock⟩ := inside
        refine sound.of_bodies fun x outside => Function.update_of_ne ?_ ..
        rintro rfl
        exact outside ret member inBlock
      · rw [if_neg inside] at next
        cases next
  | realloc addr size =>
      simp only [step] at next
      by_cases known : addr = 0 ∨ addr ∈ s.live
      · rw [if_pos known] at next
        obtain ⟨⟨ret, heap⟩, result, same⟩ := Option.map_eq_some_iff.1 next
        cases same
        have member : addr ≠ 0 → addr ∈ s.live := known.resolve_left
        have erased : s.live.erase 0 = s.live := Finset.erase_eq_of_notMem sound.null_not_live
        cases Heap.realloc_cases result with
        | malloc null =>
            obtain ⟨fits, stays, -⟩ := sane size (if_pos null)
            have sound' := (sound.malloc fits stays).1
            rw [null, erased]
            simp only []
            split
            · rename_i failed
              rwa [hold, if_pos failed.1] at sound'
            · exact sound'
        | free null empty freed =>
            obtain ⟨heap', freed', sound'⟩ := sound.free (member null)
            cases freed.symm.trans freed'
            simp only []
            rw [if_neg fun failed => failed.2 empty, hold, if_pos rfl]
            exact sound'
        | inPlace null empty =>
            simp only []
            rw [if_neg fun failed => null failed.1, hold, if_neg null, Finset.insert_erase (member null)]
            exact sound
        | failed null empty larger none_ =>
            obtain ⟨fits, stays, -⟩ :=
              sane size (by rw [request, if_neg null, if_neg empty, if_pos larger])
            have sound' := (sound.malloc fits stays).1
            rw [hold, if_pos none_] at sound'
            simp only []
            rw [if_pos ⟨trivial, empty⟩]
            exact sound'
        | moved null empty larger some_ freed =>
            simp only []
            rw [if_neg fun failed => some_ failed.1, hold, if_neg some_]
            exact sound.moved (member null) empty larger sane some_ freed
      · rw [if_neg known] at next
        cases next

/-- No block is live in a new heap. -/
theorem start_sound (enough : 0x400000 ≤ bytesLen.toNat) (bounded : bytesLen ≤ mapAddrMax) :
    (start mem bytesLen).Sound bytesLen := by
  have none_ : ∀ ret, ret ∉ (start mem bytesLen).live := fun ret => Finset.notMem_empty ret
  refine ⟨start_laid enough bounded, fun ret member => absurd member (none_ ret),
    fun ret member => absurd member (none_ ret), fun p p_lt => ?_⟩
  have free : (start mem bytesLen).heap.used p = false := initBitmap_used mem bytesLen p_lt
  rw [free]
  exact iff_of_false Bool.false_ne_true fun ⟨ret, member, _⟩ => none_ ret member

variable {steps : List (Arena × HeapOp × Arena)}

theorem sound_run (enough : 0x400000 ≤ bytesLen.toNat) (bounded : bytesLen ≤ mapAddrMax)
    (path : Path step (start mem bytesLen) steps s)
    (sane : ∀ t op u, (t, op, u) ∈ steps → t.Sane op) : s.Sound bytesLen := by
  induction path with
  | start => exact start_sound enough bounded
  | snoc path next ih =>
      refine sound_step (ih fun t op u member => sane t op u (List.mem_append_left _ member)) ?_ next
      exact sane _ _ _ (List.mem_append_right _ List.mem_cons_self)

/-- **The heap is safe over whole runs** whose calls stay in the map and whose sizes do
not wrap. -/
theorem safe_run (enough : 0x400000 ≤ bytesLen.toNat) (bounded : bytesLen ≤ mapAddrMax)
    (path : Path step (start mem bytesLen) steps s)
    (sane : ∀ t op u, (t, op, u) ∈ steps → t.Sane op) : s.Safe :=
  (sound_run enough bounded path sane).safe

/-- A page of eight. -/
theorem eightPages_sane : ∀ t op u, (t, op, u) ∈ [(eightPages, HeapOp.malloc 1, oneTaken)] → t.Sane op := by
  intro t op u member size asked
  cases List.mem_singleton.1 member
  have stays := eightPages_within size asked
  have same : 1 = size := Option.some.inj asked
  subst same
  exact ⟨by decide, stays, fun addr other => nomatch other⟩

theorem safe_run_eight : oneTaken.Safe :=
  @safe_run 0x408001 oneTaken (fun _ => 0) [(eightPages, .malloc 1, oneTaken)] (by decide) (by decide)
    (Path.start.snoc (step_malloc eightPages 1)) eightPages_sane

/-- The block for nine pages of eight begins in front of the heap. -/
theorem nine_pages_unsafe : ∃ steps s, Path step (start (fun _ => 0) 0x408001) steps s ∧ ¬ s.Safe := by
  refine ⟨_, _, Path.start.snoc (step_malloc _ (8 * 4096)), fun safe => ?_⟩
  have ret : (eightPages.heap.bitmapMalloc (8 * 4096)).1 = 0x803f8009 := by
    decide +kernel
  have inside := safe.inside 0x803f8009 (by
    have live_ : hold ∅ (eightPages.heap.bitmapMalloc (8 * 4096)).1 = {0x803f8009} := by
      rw [ret]
      rfl
    exact live_ ▸ Finset.mem_singleton_self _)
  have start_ : (eightPages.heap.bitmapMalloc (8 * 4096)).2.bitsStart = 0x80400001 := by
    decide +kernel
  have size_ : (eightPages.heap.bitmapMalloc (8 * 4096)).2.mapSize = 1 := by
    decide +kernel
  have far : ((0x803f8009 : BitVec 32) - 8 -
      (eightPages.heap.bitmapMalloc (8 * 4096)).2.bitsStart).toNat ≤
        (eightPages.heap.bitmapMalloc (8 * 4096)).2.mapSize * 8 * pageSize :=
    le_trans (Nat.le_add_right _ _) inside
  rw [start_, size_] at far
  exact absurd far (by decide)

/-! ## Sizes -/

/-- The bytes behind the header. -/
def Large (heap : Heap) (ret size : BitVec 32) : Prop :=
  size.toNat + 8 ≤ (heap.mem.load (ret - 4)).toNat * pageSize

/-- The block is kept although only its pages with the header are as large as the size. -/
def Band (s : Arena) (addr size : BitVec 32) : Prop :=
  size.toNat ≤ s.pages addr * pageSize ∧ s.pages addr * pageSize < size.toNat + 8

/-- A block from the search is as large as the size, unless its page count wraps. -/
theorem Sound.malloc_large_iff (sound : s.Sound bytesLen) (stays : s.heap.Stays (pagesFor size))
    (nonzero : (s.heap.bitmapMalloc size).1 ≠ 0) :
    Large (s.heap.bitmapMalloc size).2 (s.heap.bitmapMalloc size).1 size ↔ size.toNat + 8 < 2 ^ 32 := by
  have few := @pagesFor_le size
  obtain ⟨a, a_le, -, header⟩ := sound.laid.malloc_header stays nonzero
  rw [Large, header, BitVec.toNat_ofNat, Nat.mod_eq_of_lt (by omega)]
  exact pagesFor_enough

/-- Copying behind a header, and freeing, leave the header. -/
theorem copied_size {heap heap' : Heap} {src : BitVec 32} {count : Nat} (laid : heap.Laid bytesLen)
    (a_le : a ≤ 8 * heap.mapSize) (b_le : b ≤ 8 * heap.mapSize) (short : count < 2 ^ 31)
    (freed : (heap.copied (heap.block b) src count).bitmapFree (heap.block a) = some heap') :
    heap'.mem.load (heap.block b - 4) = heap.mem.load (heap.block b - 4) := by
  have laid' : (heap.copied (heap.block b) src count).Laid bytesLen := laid.withMem _
  have kept : (heap.copied (heap.block b) src count).mem.load (heap.block b - 4) =
      heap.mem.load (heap.block b - 4) := by
    refine Memory.load_congr fun k inside => memcpy_outside (by omega) ?_
    have offset : (heap.block b - 4 + BitVec.ofNat 32 k - heap.block b).toNat = 2 ^ 32 - 4 + k := by
      bv_omega
    rw [offset]
    omega
  exact (free_size laid' a_le b_le freed).trans kept

/-- A block that moves is as large as one from the search. -/
theorem Sound.moved_large_iff (sound : s.Sound bytesLen) (member : addr ∈ s.live)
    (stays : s.heap.Stays (pagesFor size)) (nonzero : (s.heap.bitmapMalloc size).1 ≠ 0) {heap : Heap}
    (freed : ((s.heap.bitmapMalloc size).2.copied (s.heap.bitmapMalloc size).1 addr
      (s.heap.mem.load (addr - 4) * BitVec.ofNat 32 pageSize).toNat).bitmapFree addr = some heap) :
    Large heap (s.heap.bitmapMalloc size).1 size ↔ size.toNat + 8 < 2 ^ 32 := by
  obtain ⟨a, a_le, ret, -⟩ := sound.laid.malloc_header stays nonzero
  obtain ⟨value, small⟩ := sound.old_toNat member
  have laid' := sound.laid.malloc stays
  have mapSize := laid'.mapSize.trans sound.laid.mapSize.symm
  have start := laid'.bitsStart.trans sound.laid.bitsStart.symm
  have block := sound.blocks addr member
  have bound := block.inside
  have place : ∀ b, s.heap.block b = (s.heap.bitmapMalloc size).2.block b := fun b => by
    rw [Heap.block, Heap.block, start]
  have addr_ := block.place
  rw [place] at ret addr_
  rw [← sound.malloc_large_iff stays nonzero, Large, Large]
  generalize s.heap.bitmapMalloc size = result at laid' mapSize ret addr_ freed ⊢
  have freed' : (result.2.copied (result.2.block a) addr (s.pages addr * pageSize)).bitmapFree
      (result.2.block (s.first addr)) = some heap := by
    rw [← ret, ← addr_, ← value]
    exact freed
  rw [ret, copied_size laid' (by rw [mapSize]; omega) (by rwa [mapSize]) (by omega) freed']

/-- A size that the pages of the block are large enough for leaves it in place. -/
theorem Sound.realloc_inPlace (sound : s.Sound bytesLen) (member : addr ∈ s.live) (some_ : size ≠ 0)
    (within : size.toNat ≤ s.pages addr * pageSize) :
    s.heap.bitmapRealloc addr size = some (addr, s.heap) := by
  have null : addr ≠ 0 := fun zero => sound.null_not_live (zero ▸ member)
  have notLarger : ¬ s.heap.mem.load (addr - 4) * BitVec.ofNat 32 pageSize < size := by
    rw [BitVec.lt_def, (sound.old_toNat member).1]
    omega
  rw [Heap.bitmapRealloc, if_neg null, if_neg some_]
  exact if_neg notLarger

/-- What `bitmap_realloc` returns for a size that does not wrap. -/
theorem Sound.realloc_large_iff (sound : s.Sound bytesLen) (member : addr ∈ s.live)
    (stays : s.Within (.realloc addr size)) (fits : size.toNat + 8 < 2 ^ 32) :
    (∀ ret heap, s.heap.bitmapRealloc addr size = some (ret, heap) → ret ≠ 0 → Large heap ret size) ↔
      ¬ s.Band addr size := by
  constructor
  · rintro large ⟨within, short⟩
    have some_ : size ≠ 0 := by
      rintro rfl
      have positive := (sound.blocks addr member).some_
      have zero : (0 : BitVec 32).toNat = 0 := rfl
      rw [pageSize, zero] at short
      omega
    have null : addr ≠ 0 := fun zero => sound.null_not_live (zero ▸ member)
    have enough : size.toNat + 8 ≤ s.pages addr * pageSize :=
      large addr s.heap (sound.realloc_inPlace member some_ within) null
    omega
  · intro band ret heap result nonzero
    cases Heap.realloc_cases result with
    | malloc null => exact absurd (null ▸ member) sound.null_not_live
    | free => exact absurd rfl nonzero
    | inPlace null empty within =>
        rw [BitVec.le_def, (sound.old_toNat member).1] at within
        have notShort : ¬ s.pages addr * pageSize < size.toNat + 8 := fun short => band ⟨within, short⟩
        exact not_lt.1 notShort
    | failed => exact absurd rfl nonzero
    | moved null empty larger some_ freed =>
        have stays' := stays size (by rw [request, if_neg null, if_neg empty, if_pos larger])
        exact (sound.moved_large_iff member stays' some_ freed).2 fits

/-- What it returns for a size that wraps is too small. -/
theorem Sound.realloc_wrapped (sound : s.Sound bytesLen) (member : addr ∈ s.live)
    (stays : s.Within (.realloc addr size)) (wraps : 2 ^ 32 ≤ size.toNat + 8) {heap : Heap}
    (result : s.heap.bitmapRealloc addr size = some (ret, heap)) :
    (ret ≠ 0 ↔ s.heap.Finds (pagesFor size)) ∧ (ret ≠ 0 → ¬ Large heap ret size) := by
  obtain ⟨value, small⟩ := sound.old_toNat member
  have zero : (0 : BitVec 32).toNat = 0 := rfl
  cases Heap.realloc_cases result with
  | malloc null => exact absurd (null ▸ member) sound.null_not_live
  | free _ empty =>
      rw [empty, zero] at wraps
      omega
  | inPlace _ _ within =>
      rw [BitVec.le_def, value] at within
      omega
  | failed null empty larger none_ =>
      have stays' := stays size (by rw [request, if_neg null, if_neg empty, if_pos larger])
      have finds := sound.laid.malloc_ne_zero_iff stays'
      rw [none_] at finds
      exact ⟨finds, fun nonzero => absurd rfl nonzero⟩
  | moved null empty larger some_ freed =>
      have stays' := stays size (by rw [request, if_neg null, if_neg empty, if_pos larger])
      refine ⟨sound.laid.malloc_ne_zero_iff stays', fun _ large => ?_⟩
      have fits := (sound.moved_large_iff member stays' some_ freed).1 large
      omega

/-- **Blocks are as large as promised**, for the next call of a run: `bitmap_malloc`
unless the size wraps, `bitmap_realloc` unless the size is in the band of the block or
wraps. -/
theorem large_enough_iff (enough : 0x400000 ≤ bytesLen.toNat) (bounded : bytesLen ≤ mapAddrMax)
    (path : Path step (start mem bytesLen) steps s)
    (sane : ∀ t op u, (t, op, u) ∈ steps → t.Sane op) :
    (∀ size, s.heap.Stays (pagesFor size) →
      (((s.heap.bitmapMalloc size).1 ≠ 0 →
          Large (s.heap.bitmapMalloc size).2 (s.heap.bitmapMalloc size).1 size) ↔
        size.toNat + 8 < 2 ^ 32 ∨ ¬ s.heap.Finds (pagesFor size))) ∧
    ∀ addr ∈ s.live, ∀ size, s.Within (.realloc addr size) →
      (size.toNat + 8 < 2 ^ 32 →
        ((∀ ret heap, s.heap.bitmapRealloc addr size = some (ret, heap) → ret ≠ 0 →
          Large heap ret size) ↔ ¬ s.Band addr size)) ∧
      (2 ^ 32 ≤ size.toNat + 8 → ∀ ret heap, s.heap.bitmapRealloc addr size = some (ret, heap) →
        (ret ≠ 0 ↔ s.heap.Finds (pagesFor size)) ∧ (ret ≠ 0 → ¬ Large heap ret size)) := by
  have sound := sound_run enough bounded path sane
  refine ⟨fun size stays => ?_, fun addr member size stays =>
    ⟨sound.realloc_large_iff member stays, fun wraps ret heap result =>
      sound.realloc_wrapped member stays wraps result⟩⟩
  rw [← sound.laid.malloc_ne_zero_iff stays, not_not]
  constructor
  · intro large
    by_cases none_ : (s.heap.bitmapMalloc size).1 = 0
    · exact .inr none_
    · exact .inl ((sound.malloc_large_iff stays none_).1 (large none_))
  · rintro (fits | none_) nonzero
    · exact (sound.malloc_large_iff stays nonzero).2 fits
    · exact absurd none_ nonzero

/-- The second page of eight. -/
theorem large_enough_eight :
    (∀ size, oneTaken.heap.Stays (pagesFor size) →
      (((oneTaken.heap.bitmapMalloc size).1 ≠ 0 →
          Large (oneTaken.heap.bitmapMalloc size).2 (oneTaken.heap.bitmapMalloc size).1 size) ↔
        size.toNat + 8 < 2 ^ 32 ∨ ¬ oneTaken.heap.Finds (pagesFor size))) ∧
    ∀ addr ∈ oneTaken.live, ∀ size, oneTaken.Within (.realloc addr size) →
      (size.toNat + 8 < 2 ^ 32 →
        ((∀ ret heap, oneTaken.heap.bitmapRealloc addr size = some (ret, heap) → ret ≠ 0 →
          Large heap ret size) ↔ ¬ oneTaken.Band addr size)) ∧
      (2 ^ 32 ≤ size.toNat + 8 → ∀ ret heap, oneTaken.heap.bitmapRealloc addr size = some (ret, heap) →
        (ret ≠ 0 ↔ oneTaken.heap.Finds (pagesFor size)) ∧ (ret ≠ 0 → ¬ Large heap ret size)) :=
  @large_enough_iff 0x408001 oneTaken (fun _ => 0) [(eightPages, .malloc 1, oneTaken)] (by decide)
    (by decide) (Path.start.snoc (step_malloc eightPages 1)) eightPages_sane

/-- A block of one page is returned for 4096 bytes, which it has with its header, and for
4294967295 bytes. -/
theorem blocks_too_small : 0x80400009 ∈ oneTaken.live ∧
    oneTaken.heap.bitmapRealloc 0x80400009 4096 = some (0x80400009, oneTaken.heap) ∧
    ¬ Large oneTaken.heap 0x80400009 4096 ∧
    (eightPages.heap.bitmapMalloc 0xffffffff).1 ≠ 0 ∧
    ¬ Large (eightPages.heap.bitmapMalloc 0xffffffff).2 (eightPages.heap.bitmapMalloc 0xffffffff).1
      0xffffffff := by
  have header : oneTaken.heap.mem.load (0x80400009 - 4) = 1 := by
    decide +kernel
  refine ⟨by decide +kernel, ?_, ?_, by decide +kernel, by unfold Large; decide +kernel⟩
  · have notLarger : ¬ (1 : BitVec 32) * BitVec.ofNat 32 pageSize < 4096 := by
      decide
    rw [Heap.bitmapRealloc, if_neg (by decide), if_neg (by decide), header]
    exact if_neg notLarger
  · unfold Large
    rw [header]
    decide

end Sound

end Arena

end TestOs.Memory
