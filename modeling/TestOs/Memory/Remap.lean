/-
# Memory.Remap -- the page tables, and the memory behind the heap

`memory_remap` maps physical memory from 4 MB up to `total_memory_bytes` at
0x80400000, in page tables that lie from 2 MB on.  `init_ards` adds 1 MB to the
end of the memory, and `init_bitmap` takes its pages up to that total, so the last
page of the heap is behind the memory: `never_backed` says so for every memory
map, also where the total is cut at 2 GB or passes 4 GB.
-/
import TestOs.Memory.Ards
import TestOs.Memory.Heap
import TestOs.Library.Transitions

namespace TestOs.Memory

open TestOs.Library

set_option autoImplicit false

/-! ## memory.c -/

/-- `KERNEL_PAGE_DIR_PADDR`. -/
def pageDirPaddr : Nat := 0x3000

/-- `KERNEL_PA_PAGE_PADDR` and `KERNEL_VA_PAGE_PADDR`. -/
def paPagePaddr : Nat := 0x5000

def vaPagePaddr : Nat := 0x6000

/-- `KERNEL_REMAP_PAGE_PADDR`, the end of the kernel image. -/
def remapPagePaddr : Nat := 0x200000

def mapEarlySize : BitVec 32 := 4 * 1024 * 1024

/-- `KERNEL_MAP_ADDR_MAX`. -/
def mapAddrMax : BitVec 32 := (mapEarlySize - 0x200000) / 4 * 4096

/-- `KERNEL_PAGE_ATTR`: present and writable. -/
def pageAttr : BitVec 32 := 1 ||| 2

/-- The physical memory and the two variables of the loops. -/
structure Remap where
  mem : Bytes
  mapVaddr : BitVec 32
  mapPaddr : BitVec 32

/-- The inner loop: so many entries of the table at `tbl` at most. -/
def fillTable (total : BitVec 32) (tbl : Nat) : Nat → Remap → Remap
  | 0, s => s
  | left + 1, s =>
      if s.mapPaddr ≤ total then
        let entry := tbl + 4 * ((s.mapVaddr >>> 12) &&& 0x3ff).toNat
        fillTable total tbl left
          ⟨putWord s.mem entry (s.mapPaddr ||| pageAttr), s.mapVaddr + 4096, s.mapPaddr + 4096⟩
      else s

/-- The outer loop.  A turn fills a table, so 1024 turns are enough for 4 GB. -/
def remapLoop (total : BitVec 32) : (turns tbl : Nat) → Remap → Remap
  | 0, _, s => s
  | turns + 1, tbl, s =>
      if s.mapPaddr ≤ total then
        let entry := pageDirPaddr + 4 * (s.mapVaddr >>> 22).toNat
        let mem := putWord s.mem entry (BitVec.ofNat 32 tbl ||| pageAttr)
        remapLoop total turns (tbl + 4096) (fillTable total tbl 1024 { s with mem := mem })
      else s

/-- `total_memory_bytes`, as `memory_remap` bounds it. -/
def clampTotal (total : BitVec 32) : BitVec 32 := if mapAddrMax < total then mapAddrMax else total

def memoryRemap (total : BitVec 32) (mem : Bytes) : Bytes :=
  let s := remapLoop (clampTotal total) 1024 remapPagePaddr
    ⟨mem, mapBaseVaddr + mapEarlySize, mapEarlySize⟩
  putWord (putWord s.mem paPagePaddr 0) vaPagePaddr 0

/-- `init_ards` on exactly these entries. -/
def ardsTotal (entries : List Ards) : BitVec 32 := entries.foldl examine 0 + 1024 * 1024

/-! ## The machine -/

/-- The physical address that the page tables give for an address; `none` is a page fault. -/
def walk (mem : Bytes) (v : BitVec 32) : Option Nat :=
  let dir := word mem (pageDirPaddr + 4 * (v.toNat / 2 ^ 22))
  if dir.getLsbD 0 then
    let entry := word mem (dir.toNat / 4096 * 4096 + 4 * (v.toNat / 4096 % 1024))
    if entry.getLsbD 0 then some (entry.toNat / 4096 * 4096 + v.toNat % 4096) else none
  else none

/-- `init_memory` and `init_bitmap` on a physical memory; the heap's bytes are `mem`.
Where the bitmap is not mapped, `init_bitmap` ends in `page_failure_isr`. -/
def boot (entries : List Ards) (phys : Bytes) (mem : Memory) : Option (Bytes × Arena) :=
  let total := ardsTotal entries
  let phys := memoryRemap total phys
  let arena := Arena.start mem (clampTotal total)
  if ∀ i < arena.heap.mapSize, (walk phys (heapBottom + BitVec.ofNat 32 i)).isSome then
    some (phys, arena)
  else none

def Ards.base (e : Ards) : Nat := (e.baseAddrHigh ++ e.baseAddrLow).toNat

/-- A physical address in a type-1 range. -/
def InRam (entries : List Ards) (p : Nat) : Prop := ∃ e ∈ entries, e.type = 1 ∧ e.base ≤ p ∧ p < e.top

/-- The pages that `bitmap_malloc` hands out, in every run from the boot on, lie
in a type-1 range and are mapped. -/
def Backed (entries : List Ards) : Prop :=
  ∀ phys mem phys' arena, boot entries phys mem = some (phys', arena) →
    ∀ steps s, Path Arena.step arena steps s →
      ∀ size, (s.heap.bitmapMalloc size).1 ≠ 0 → ∀ i < pagesFor size * pageSize,
        ∃ p, walk phys' ((s.heap.bitmapMalloc size).1 - 8 + BitVec.ofNat 32 i) = some p ∧
          InRam entries p

/-- The memory maps in question: the usable ranges have 32-bit addresses, and one
of them has the 8 MB from 1 MB on. -/
structure HeapMap where
  entries : List Ards
  narrow : ∀ e ∈ entries, e.type = 1 → e.baseAddrHigh = 0 ∧ e.lengthHigh = 0 ∧ e.top < 2 ^ 32
  large : ∃ e ∈ entries, e.type = 1 ∧ e.base ≤ 0x100000 ∧ 0x900000 ≤ e.top

/-! ## What memory_remap does -/

theorem toNat_or_attr {x : Nat} (small : x < 2 ^ 32) (aligned : 4096 ∣ x) :
    (BitVec.ofNat 32 x ||| pageAttr).toNat = x + 3 := by
  obtain ⟨frame, rfl⟩ := aligned
  have attr : pageAttr.toNat = 3 := rfl
  rw [BitVec.toNat_or, BitVec.toNat_ofNat, Nat.mod_eq_of_lt small, attr,
    show 4096 * frame = frame <<< 12 by rw [Nat.shiftLeft_eq]; omega]
  exact (Nat.shiftLeft_add_eq_or_of_lt (by decide) frame).symm

/-- The entries of the tables lie one behind the other. -/
theorem entry_place (page : Nat) :
    (remapPagePaddr + 4096 * (page / 1024) + 3) / 4096 * 4096 + 4 * (page % 1024) =
      remapPagePaddr + 4 * page := by
  have frame : (remapPagePaddr + 4096 * (page / 1024) + 3) / 4096 = 0x200 + page / 1024 := by
    rw [remapPagePaddr]
    omega
  rw [frame, remapPagePaddr]
  omega

theorem present_or_attr (x : BitVec 32) : (x ||| pageAttr).getLsbD 0 = true := by
  rw [BitVec.getLsbD_or]
  exact Bool.or_true _

theorem clampTotal_le (total : BitVec 32) : (clampTotal total).toNat ≤ 2 ^ 31 := by
  have most : mapAddrMax.toNat = 2 ^ 31 := rfl
  unfold clampTotal
  split
  · exact most.le
  · rename_i below
    have := BitVec.not_lt.1 below
    rw [BitVec.le_def, most] at this
    exact this

/-- What the loops have done after `n` pages, in `d` tables. -/
structure Filled (mem : Bytes) (total : BitVec 32) (n d : Nat) (s : Remap) : Prop where
  vaddr : s.mapVaddr = BitVec.ofNat 32 (0x80400000 + 4096 * n)
  paddr : s.mapPaddr = BitVec.ofNat 32 (0x400000 + 4096 * n)
  covered : ∀ q < n, 0x400000 + 4096 * q ≤ total.toNat
  tables : n ≤ 1024 * d
  used : ∀ t < d, 0x400000 + 4096 * (1024 * t) ≤ total.toNat
  entry : ∀ q < n, word s.mem (remapPagePaddr + 4 * q) =
    BitVec.ofNat 32 (0x400000 + 4096 * q) ||| pageAttr
  dir : ∀ t < d, word s.mem (pageDirPaddr + 4 * ((513 + t) % 1024)) =
    BitVec.ofNat 32 (remapPagePaddr + 4096 * t) ||| pageAttr
  behind : ∀ a, remapPagePaddr + 4 * n ≤ a → s.mem a = mem a

section Fill

variable {mem : Bytes} {total : BitVec 32} {n d : Nat} {s : Remap}

/-- Nothing wraps while the total is at most 2 GB. -/
theorem Filled.paddr_le (filled : Filled mem total n d s) (bounded : total.toNat ≤ 2 ^ 31) :
    s.mapPaddr ≤ total ↔ 0x400000 + 4096 * n ≤ total.toNat := by
  have near : 0x400000 + 4096 * n ≤ 2 ^ 31 + 0x400000 + 4096 := by
    cases n with
    | zero => omega
    | succ n =>
        have last := filled.covered n (Nat.lt_succ_self n)
        omega
  rw [filled.paddr, BitVec.le_def, BitVec.toNat_ofNat, Nat.mod_eq_of_lt (by omega)]

theorem fillTable_filled (bounded : total.toNat ≤ 2 ^ 31) (left : Nat) (short : left ≤ 1024)
    (filled : Filled mem total n d s) (rest : n + left = 1024 * d) :
    ∃ n', Filled mem total n' d (fillTable total (remapPagePaddr + 4096 * (d - 1)) left s) ∧
      (n' = 1024 * d ∨ total.toNat < 0x400000 + 4096 * n') := by
  induction left generalizing n s with
  | zero => exact ⟨n, filled, .inl rest⟩
  | succ left ih =>
      rw [fillTable]
      by_cases more : 0x400000 + 4096 * n ≤ total.toNat
      · rw [if_pos ((filled.paddr_le bounded).2 more)]
        have index : ((s.mapVaddr >>> 12) &&& 0x3ff).toNat = n % 1024 := by
          rw [filled.vaddr, BitVec.toNat_and, BitVec.toNat_ushiftRight, BitVec.toNat_ofNat,
            Nat.shiftRight_eq_div_pow]
          exact (Nat.and_two_pow_sub_one_eq_mod _ 10).trans (by omega)
        have place : remapPagePaddr + 4096 * (d - 1) + 4 * (n % 1024) = remapPagePaddr + 4 * n := by
          omega
        simp only [index, place]
        suffices next : Filled mem total (n + 1) d
            ⟨putWord s.mem (remapPagePaddr + 4 * n) (s.mapPaddr ||| pageAttr), s.mapVaddr + 4096,
              s.mapPaddr + 4096⟩ from ih (by omega) next (by omega)
        refine ⟨?_, ?_, fun q below => ?_, by omega, filled.used, fun q below => ?_,
          fun t below => ?_, fun a behind => ?_⟩
        · simp only [filled.vaddr]
          bv_omega
        · simp only [filled.paddr]
          bv_omega
        · by_cases last : q = n
          · rwa [last]
          · exact filled.covered q (by omega)
        · by_cases last : q = n
          · rw [last, word_putWord, filled.paddr]
          · rw [word_putWord_of_ne (by omega)]
            exact filled.entry q (by omega)
        · rw [word_putWord_of_ne (by simp only [remapPagePaddr, pageDirPaddr]; omega)]
          exact filled.dir t below
        · have apart : putWord s.mem (remapPagePaddr + 4 * n) (s.mapPaddr ||| pageAttr) a = s.mem a :=
            splice_outside (by omega)
          exact apart.trans (filled.behind a (by omega))
      · rw [if_neg fun below => more ((filled.paddr_le bounded).1 below)]
        exact ⟨n, filled, .inr (by omega)⟩

/-- A turn enters table `d` in the directory and fills it. -/
def enterTable (total : BitVec 32) (d : Nat) (s : Remap) : Remap :=
  fillTable total (remapPagePaddr + 4096 * d) 1024
    ⟨putWord s.mem (pageDirPaddr + 4 * ((513 + d) % 1024))
      (BitVec.ofNat 32 (remapPagePaddr + 4096 * d) ||| pageAttr), s.mapVaddr, s.mapPaddr⟩

/-- The turns together keep what each of them keeps. -/
theorem remapLoop_filled {inv : Nat → Remap → Prop} (bounded : total.toNat ≤ 2 ^ 31)
    (keeps : ∀ d s, 0x400000 + 4096 * (1024 * d) ≤ total.toNat → inv d s →
      inv (d + 1) (enterTable total d s))
    (turns : Nat) (filled : Filled mem total n d s) (kept : inv d s)
    (full : n = 1024 * d ∨ total.toNat < 0x400000 + 4096 * n) (enough : 512 ≤ turns + d) :
    ∃ n' d', Filled mem total n' d' (remapLoop total turns (remapPagePaddr + 4096 * d) s) ∧
      inv d' (remapLoop total turns (remapPagePaddr + 4096 * d) s) ∧
      total.toNat < 0x400000 + 4096 * n' := by
  induction turns generalizing n d s with
  | zero =>
      refine ⟨n, d, filled, kept, ?_⟩
      rcases full with full | passed
      · omega
      · exact passed
  | succ turns ih =>
      rw [remapLoop]
      by_cases more : 0x400000 + 4096 * n ≤ total.toNat
      · rw [if_pos ((filled.paddr_le bounded).2 more)]
        have exact_ : n = 1024 * d := by
          omega
        have index : (s.mapVaddr >>> 22).toNat = (513 + d) % 1024 := by
          rw [filled.vaddr, BitVec.toNat_ushiftRight, BitVec.toNat_ofNat, Nat.shiftRight_eq_div_pow]
          omega
        simp only [index]
        have entered : Filled mem total n (d + 1)
            ⟨putWord s.mem (pageDirPaddr + 4 * ((513 + d) % 1024))
              (BitVec.ofNat 32 (remapPagePaddr + 4096 * d) ||| pageAttr), s.mapVaddr, s.mapPaddr⟩ := by
          refine ⟨filled.vaddr, filled.paddr, filled.covered, by omega, fun t below => ?_,
            fun q below => ?_, fun t below => ?_, fun a behind => ?_⟩
          · by_cases last : t = d
            · rw [last]
              omega
            · exact filled.used t (by omega)
          · rw [word_putWord_of_ne (by simp only [remapPagePaddr, pageDirPaddr]; omega)]
            exact filled.entry q below
          · by_cases last : t = d
            · rw [last, word_putWord]
            · rw [word_putWord_of_ne (by omega)]
              exact filled.dir t (by omega)
          · have apart : putWord s.mem (pageDirPaddr + 4 * ((513 + d) % 1024))
                (BitVec.ofNat 32 (remapPagePaddr + 4096 * d) ||| pageAttr) a = s.mem a :=
              splice_outside (by simp only [remapPagePaddr, pageDirPaddr] at behind ⊢; omega)
            exact apart.trans (filled.behind a behind)
        obtain ⟨n', filled', full'⟩ := fillTable_filled bounded 1024 (le_refl _) entered (by omega)
        rw [Nat.add_sub_cancel] at filled'
        have next := ih filled' (keeps d s (exact_ ▸ more) kept) full' (by omega)
        rwa [show remapPagePaddr + 4096 * (d + 1) = remapPagePaddr + 4096 * d + 4096 by omega] at next
      · rw [if_neg fun below => more ((filled.paddr_le bounded).1 below)]
        exact ⟨n, d, filled, kept, by omega⟩

end Fill

section Walk

variable {total : BitVec 32} {phys : Bytes}

/-- The page tables once `memory_remap` is done. -/
theorem memoryRemap_keeps {inv : Nat → Remap → Prop}
    (keeps : ∀ d s, 0x400000 + 4096 * (1024 * d) ≤ (clampTotal total).toNat → inv d s →
      inv (d + 1) (enterTable (clampTotal total) d s))
    (kept : inv 0 ⟨phys, mapBaseVaddr + mapEarlySize, mapEarlySize⟩) : ∃ n d s,
    Filled phys (clampTotal total) n d s ∧ inv d s ∧ (clampTotal total).toNat < 0x400000 + 4096 * n ∧
      memoryRemap total phys = putWord (putWord s.mem paPagePaddr 0) vaPagePaddr 0 := by
  have first : Filled phys (clampTotal total) 0 0 ⟨phys, mapBaseVaddr + mapEarlySize, mapEarlySize⟩ :=
    ⟨rfl, rfl, fun q below => by omega, le_refl _, fun t below => by omega,
      fun q below => by omega, fun t below => by omega, fun _ _ => rfl⟩
  obtain ⟨n, d, filled, kept', passed⟩ :=
    remapLoop_filled (clampTotal_le total) keeps 1024 first kept (.inl rfl) (by omega)
  exact ⟨n, d, _, filled, kept', passed, rfl⟩

theorem memoryRemap_filled (total : BitVec 32) (phys : Bytes) : ∃ n d s,
    Filled phys (clampTotal total) n d s ∧ (clampTotal total).toNat < 0x400000 + 4096 * n ∧
      memoryRemap total phys = putWord (putWord s.mem paPagePaddr 0) vaPagePaddr 0 := by
  obtain ⟨n, d, s, filled, -, rest⟩ :=
    @memoryRemap_keeps total phys (fun _ _ => True) (fun _ _ _ _ => trivial) trivial
  exact ⟨n, d, s, filled, rest⟩

/-- The entries for address 0 lie between the directory and the tables. -/
theorem word_behind_null {s : Remap} (isRemap : memoryRemap total phys =
    putWord (putWord s.mem paPagePaddr 0) vaPagePaddr 0) {a : Nat}
    (apart : a + 4 ≤ paPagePaddr ∨ remapPagePaddr ≤ a) :
    word (memoryRemap total phys) a = word s.mem a := by
  simp only [paPagePaddr, remapPagePaddr] at apart
  rw [isRemap, word_putWord_of_ne (by simp only [vaPagePaddr]; omega),
    word_putWord_of_ne (by simp only [paPagePaddr]; omega)]

/-- The two entries for a page, of which page `x / 4096` behind 4 MB. -/
structure Entries (mem : Bytes) (x : Nat) : Prop where
  dir : word mem (pageDirPaddr + 4 * ((heapBottom + BitVec.ofNat 32 x).toNat / 2 ^ 22)) =
    BitVec.ofNat 32 (remapPagePaddr + 4096 * (x / 4096 / 1024)) ||| pageAttr
  table : (BitVec.ofNat 32 (remapPagePaddr + 4096 * (x / 4096 / 1024)) ||| pageAttr).toNat / 4096 *
      4096 + 4 * ((heapBottom + BitVec.ofNat 32 x).toNat / 4096 % 1024) =
    remapPagePaddr + 4 * (x / 4096)
  entry : word mem (remapPagePaddr + 4 * (x / 4096)) =
    BitVec.ofNat 32 (0x400000 + 4096 * (x / 4096)) ||| pageAttr

theorem memoryRemap_entries {x : Nat}
    (covered : 0x400000 + x / 4096 * 4096 ≤ (clampTotal total).toNat) :
    Entries (memoryRemap total phys) x := by
  obtain ⟨n, d, s, filled, passed, isRemap⟩ := memoryRemap_filled total phys
  have bounded := clampTotal_le total
  have bottom : heapBottom.toNat = 0x80400000 := rfl
  have value : (heapBottom + BitVec.ofNat 32 x).toNat = (0x80400000 + x) % 2 ^ 32 := by
    rw [BitVec.toNat_add, BitVec.toNat_ofNat, bottom]
    omega
  have page : x / 4096 < n := by
    omega
  have table : x / 4096 / 1024 < d := by
    have := filled.tables
    omega
  have dirIndex : (0x80400000 + x) % 2 ^ 32 / 2 ^ 22 = (513 + x / 4096 / 1024) % 1024 := by
    omega
  have entryIndex : (0x80400000 + x) % 2 ^ 32 / 4096 % 1024 = x / 4096 % 1024 := by
    omega
  have dirNat : (BitVec.ofNat 32 (remapPagePaddr + 4096 * (x / 4096 / 1024)) ||| pageAttr).toNat =
      remapPagePaddr + 4096 * (x / 4096 / 1024) + 3 :=
    toNat_or_attr (by simp only [remapPagePaddr]; omega) (by simp only [remapPagePaddr]; omega)
  refine ⟨?_, ?_, ?_⟩
  · rw [value, dirIndex,
      word_behind_null isRemap (.inl (by simp only [paPagePaddr, pageDirPaddr]; omega))]
    exact filled.dir _ table
  · rw [value, entryIndex, dirNat, entry_place]
  · rw [word_behind_null isRemap (.inr (by omega))]
    exact filled.entry _ page

/-- Every page up to the total is mapped where it is in physical memory. -/
theorem walk_memoryRemap {x : Nat} (covered : 0x400000 + x / 4096 * 4096 ≤ (clampTotal total).toNat) :
    walk (memoryRemap total phys) (heapBottom + BitVec.ofNat 32 x) = some (0x400000 + x) := by
  have sum : (0x400000 + 4096 * (x / 4096) + 3) / 4096 * 4096 + (0x80400000 + x) % 2 ^ 32 % 4096 =
      0x400000 + x := by
    have frame : (0x400000 + 4096 * (x / 4096) + 3) / 4096 = 0x400 + x / 4096 := by
      omega
    have offset : (0x80400000 + x) % 2 ^ 32 % 4096 = x % 4096 := by
      omega
    rw [frame, offset]
    omega
  have bounded := clampTotal_le total
  have bottom : heapBottom.toNat = 0x80400000 := rfl
  have value : (heapBottom + BitVec.ofNat 32 x).toNat = (0x80400000 + x) % 2 ^ 32 := by
    rw [BitVec.toNat_add, BitVec.toNat_ofNat, bottom]
    omega
  have entryNat : (BitVec.ofNat 32 (0x400000 + 4096 * (x / 4096)) ||| pageAttr).toNat =
      0x400000 + 4096 * (x / 4096) + 3 := toNat_or_attr (by omega) (by omega)
  obtain ⟨dir, table, entry⟩ := @memoryRemap_entries total phys x covered
  unfold walk
  simp only []
  rw [dir, present_or_attr, if_pos rfl, table, entry, present_or_attr, if_pos rfl, entryNat, value,
    sum]

end Walk

/-! ## The memory map -/

namespace HeapMap

variable (map : HeapMap) {e : Ards} {phys : Bytes} {mem : Memory}

/-- The end of the memory that `init_ards` finds. -/
def found : BitVec 32 := map.entries.foldl examine 0

theorem top_eq (member : e ∈ map.entries) (usable : e.type = 1) :
    e.top = (e.baseAddrLow + e.lengthLow).toNat := by
  obtain ⟨base, length, small⟩ := map.narrow e member usable
  have value : e.top = e.baseAddrLow.toNat + e.lengthLow.toNat := by
    rw [Ards.top, base, length, BitVec.toNat_append, BitVec.toNat_append]
    simp
  rw [value] at small ⊢
  rw [BitVec.toNat_add, Nat.mod_eq_of_lt small]

theorem top_le (member : e ∈ map.entries) (usable : e.type = 1) : e.top ≤ map.found.toNat := by
  rw [map.top_eq member usable]
  exact BitVec.le_def.1 (sum_le_foldl member usable)

theorem found_large : 0x900000 ≤ map.found.toNat := by
  obtain ⟨e, member, usable, -, reaches⟩ := map.large
  exact reaches.trans (map.top_le member usable)

/-- There is no memory behind the end that was found. -/
theorem not_inRam {p : Nat} (behind : map.found.toNat ≤ p) : ¬ InRam map.entries p := by
  rintro ⟨e, member, usable, -, below⟩
  have := map.top_le member usable
  omega

theorem total_toNat : (ardsTotal map.entries).toNat = (map.found.toNat + 0x100000) % 2 ^ 32 := by
  show (map.found + 1024 * 1024).toNat = _
  rw [BitVec.toNat_add]
  rfl

end HeapMap

/-! ## The pages of a new heap -/

section Fresh

variable {mem : Memory} {total : BitVec 32} {phys : Bytes}

theorem bytesLen_toNat (enough : 0x400000 ≤ total.toNat) :
    (total - (heapBottom - mapBaseVaddr)).toNat = total.toNat - 0x400000 := by
  have reserved : heapBottom - mapBaseVaddr = 0x400000 := rfl
  rw [reserved]
  bv_omega

theorem initBitmap_mapSize (enough : 0x400000 ≤ total.toNat) :
    (initBitmap mem total).mapSize = (total.toNat - 0x400000) / 32769 := by
  show (total - (heapBottom - mapBaseVaddr)).toNat / 32769 = _
  rw [bytesLen_toNat enough]

theorem initBitmap_bitsStart : (initBitmap mem total).bitsStart =
    heapBottom + BitVec.ofNat 32 (initBitmap mem total).mapSize := rfl

/-- The first block of a new heap is at its start. -/
theorem initBitmap_malloc (size : BitVec 32) (positive : 0 < pagesFor size)
    (fits : pagesFor size ≤ 8 * (initBitmap mem total).mapSize)
    (nonzero : (initBitmap mem total).bitsStart + 8 ≠ 0) :
    (initBitmap mem total).bitmapMalloc size =
        (initBitmap mem total).take (pagesFor size - 1) (pagesFor size) ∧
      ((initBitmap mem total).bitmapMalloc size).1 = (initBitmap mem total).bitsStart + 8 := by
  generalize pages : pagesFor size = n at positive fits
  have ret : ((initBitmap mem total).take (n - 1) n).1 = (initBitmap mem total).bitsStart + 8 := by
    rw [Heap.take_ret, Nat.sub_add_cancel positive]
    bv_omega
  have first : (initBitmap mem total).pageOf (initBitmap mem total).bitsPtr = 0 := by
    show ((initBitmap mem total).bitsStart - (initBitmap mem total).bitsStart).toNat / pageSize = 0
    rw [BitVec.sub_self]
    rfl
  have search : scan (initBitmap mem total).used n (8 * (initBitmap mem total).mapSize - 0) 0 0 =
      (some (n - 1), n) := by
    rw [scan_free positive fun q _ inside => initBitmap_used mem total (by omega), if_pos (by omega)]
    simp only [Nat.zero_add, Nat.sub_zero]
  have result : (initBitmap mem total).bitmapMalloc size = (initBitmap mem total).take (n - 1) n := by
    have found := @Heap.bitmapMalloc_first (initBitmap mem total) size (n - 1) n
    rw [first, pages] at found
    exact found search (by rw [ret]; exact nonzero)
  exact ⟨result, by rw [result, ret]⟩

/-- The size that takes `n` pages with its header. -/
def sizeOfPages (n : Nat) : BitVec 32 := BitVec.ofNat 32 (n * pageSize - 8)

theorem pagesFor_sizeOfPages {n : Nat} (positive : 0 < n) (small : n < 2 ^ 20) :
    pagesFor (sizeOfPages n) = n := by
  have value : (sizeOfPages n).toNat = n * pageSize - 8 := by
    rw [sizeOfPages, BitVec.toNat_ofNat]
    exact Nat.mod_eq_of_lt (by simp only [pageSize]; omega)
  have nonzero : sizeOfPages n ≠ 0 := by
    intro none_
    have zero : (0 : BitVec 32).toNat = 0 := rfl
    rw [none_, zero, pageSize] at value
    omega
  have sum : (sizeOfPages n + 8).toNat = n * pageSize := by
    have header : (8 : BitVec 32).toNat = 8 := rfl
    rw [BitVec.toNat_add, value, header, pageSize]
    omega
  have whole : ¬ (n * pageSize % pageSize ≠ 0) := by
    rw [Nat.mul_mod_left]
    exact not_not.2 rfl
  unfold pagesFor
  simp only []
  rw [if_neg nonzero, sum, if_neg whole, Nat.add_zero]
  exact Nat.mul_div_cancel n (by decide)

/-- The bitmap is mapped, so `init_bitmap` comes back. -/
theorem boot_of_enough {entries : List Ards}
    (enough : 0x400000 ≤ (clampTotal (ardsTotal entries)).toNat) :
    boot entries phys mem = some (memoryRemap (ardsTotal entries) phys,
      Arena.start mem (clampTotal (ardsTotal entries))) := by
  refine if_pos fun i inside => ?_
  have inside' : i < (initBitmap mem (clampTotal (ardsTotal entries))).mapSize := inside
  rw [initBitmap_mapSize enough] at inside'
  rw [walk_memoryRemap (by omega)]
  rfl

end Fresh

/-! ## A total of at most 2 GB -/

namespace HeapMap

variable (map : HeapMap)

/-- The block of all pages ends less than 1 MB below the total, which is 1 MB too large. -/
theorem not_backed_of_le (whole : (ardsTotal map.entries).toNat = map.found.toNat + 0x100000)
    (bounded : (ardsTotal map.entries).toNat ≤ 2 ^ 31) : ¬ Backed map.entries := by
  intro backed
  have large := map.found_large
  have most : mapAddrMax.toNat = 2 ^ 31 := rfl
  have same : clampTotal (ardsTotal map.entries) = ardsTotal map.entries := by
    refine if_neg fun above => ?_
    rw [BitVec.lt_def, most] at above
    omega
  let mem : Memory := fun _ => 0
  have enough : 0x400000 ≤ (clampTotal (ardsTotal map.entries)).toNat := by
    rw [same]
    omega
  have size_ : (initBitmap mem (clampTotal (ardsTotal map.entries))).mapSize =
      ((ardsTotal map.entries).toNat - 0x400000) / 32769 := by
    rw [initBitmap_mapSize enough, same]
  have booted := @boot_of_enough mem (fun _ => 0) map.entries enough
  generalize k_ : ((ardsTotal map.entries).toNat - 0x400000) / 32769 = k at size_
  have pages : pagesFor (sizeOfPages (8 * k)) = 8 * k := pagesFor_sizeOfPages (by omega) (by omega)
  have nonzero : (initBitmap mem (clampTotal (ardsTotal map.entries))).bitsStart + 8 ≠ 0 := by
    rw [initBitmap_bitsStart, size_, heapBottom]
    bv_omega
  obtain ⟨-, ret⟩ := initBitmap_malloc (sizeOfPages (8 * k)) (by omega) (by rw [pages, size_]) nonzero
  obtain ⟨p, walked, inRam⟩ := backed _ _ _ _ booted [] _ .start (sizeOfPages (8 * k))
    (by rw [Arena.start, ret]; exact nonzero) ((8 * k - 1) * 4096) (by rw [pages, pageSize]; omega)
  -- the first byte of the last page
  have last : ((Arena.start mem (clampTotal (ardsTotal map.entries))).heap.bitmapMalloc
      (sizeOfPages (8 * k))).1 - 8 + BitVec.ofNat 32 ((8 * k - 1) * 4096) =
        heapBottom + BitVec.ofNat 32 (k + (8 * k - 1) * 4096) := by
    rw [Arena.start, ret, initBitmap_bitsStart, size_]
    bv_omega
  rw [last, walk_memoryRemap (by rw [same]; omega)] at walked
  cases walked
  exact map.not_inRam (by omega) inRam

end HeapMap

/-! ## A total that passes 4 GB -/

/-- A physical memory in which the page directory shows to a table with 32 pages. -/
def strayTables : Bytes := fun a =>
  if a < 0x8080 ∧ a % 4 = 0 then 1 else if a < 0x4000 ∧ a % 4 = 1 then 0x80 else 0

theorem memoryRemap_of_wrapped {total : BitVec 32} {phys : Bytes} (low : total.toNat < 0x400000) :
    memoryRemap total phys = putWord (putWord phys paPagePaddr 0) vaPagePaddr 0 := by
  have most : mapAddrMax.toNat = 2 ^ 31 := rfl
  have early : mapEarlySize.toNat = 0x400000 := rfl
  have same : clampTotal total = total := by
    refine if_neg fun above => ?_
    rw [BitVec.lt_def, most] at above
    omega
  have stops : ¬ mapEarlySize ≤ total := by
    rw [BitVec.le_def, early]
    omega
  rw [memoryRemap, same, remapLoop, if_neg stops]

theorem walk_strayTables {total : BitVec 32} {x : Nat} (low : total.toNat < 0x400000)
    (near : x < 33 * 4096) : (walk (memoryRemap total strayTables) (heapBottom + BitVec.ofNat 32 x)).isSome =
      decide (x < 32 * 4096) := by
  have bottom : heapBottom.toNat = 0x80400000 := rfl
  have value : (heapBottom + BitVec.ofNat 32 x).toNat = 0x80400000 + x := by
    rw [BitVec.toNat_add, BitVec.toNat_ofNat, bottom]
    omega
  have dirIndex : (0x80400000 + x) / 2 ^ 22 = 513 := by
    omega
  have entryIndex : (0x80400000 + x) / 4096 % 1024 = x / 4096 := by
    omega
  have words : ∀ a, a + 4 ≤ paPagePaddr ∨ 0x8000 ≤ a →
      word (memoryRemap total strayTables) a = word strayTables a := fun a apart => by
    simp only [paPagePaddr] at apart
    rw [memoryRemap_of_wrapped low, word_putWord_of_ne (by simp only [vaPagePaddr]; omega),
      word_putWord_of_ne (by simp only [paPagePaddr]; omega)]
  have dir : word strayTables (pageDirPaddr + 4 * 513) = 0x8001 := by
    decide +kernel
  have table : (0x8001 : BitVec 32).toNat / 4096 * 4096 = 0x8000 := rfl
  have entries : ∀ i < 33, (word strayTables (0x8000 + 4 * i)).getLsbD 0 = decide (i < 32) := by
    decide +kernel
  unfold walk
  simp only [value, dirIndex, entryIndex]
  rw [words _ (.inl (by decide)), dir, if_pos (by decide), table, words _ (.inr (by omega)),
    entries _ (by omega)]
  by_cases inside : x < 32 * 4096
  · rw [decide_eq_true (p := x / 4096 < 32) (by omega), if_pos rfl, decide_eq_true inside]
    rfl
  · rw [decide_eq_false (p := x / 4096 < 32) (by omega), if_neg (by decide), decide_eq_false inside]
    rfl

namespace HeapMap

variable (map : HeapMap)

/-- Nothing is mapped for the heap, so what its pages are is a matter of what the
memory held before. -/
theorem not_backed_of_wrapped (low : (ardsTotal map.entries).toNat < 0x100000) :
    ¬ Backed map.entries := by
  intro backed
  have most : mapAddrMax.toNat = 2 ^ 31 := rfl
  have same : clampTotal (ardsTotal map.entries) = ardsTotal map.entries := by
    refine if_neg fun above => ?_
    rw [BitVec.lt_def, most] at above
    omega
  let mem : Memory := fun _ => 0
  obtain ⟨k, size_, k_low, k_high⟩ : ∃ k,
      (initBitmap mem (clampTotal (ardsTotal map.entries))).mapSize = k ∧ 130940 ≤ k ∧ k < 131000 := by
    refine ⟨_, rfl, ?_⟩
    have reserved : heapBottom - mapBaseVaddr = 0x400000 := rfl
    show 130940 ≤ (_ - (heapBottom - mapBaseVaddr)).toNat / 32769 ∧
      (_ - (heapBottom - mapBaseVaddr)).toNat / 32769 < 131000
    rw [same, reserved]
    generalize ardsTotal map.entries = total at low
    have value : (total - 0x400000).toNat = 2 ^ 32 - 0x400000 + total.toNat := by
      bv_omega
    omega
  have booted : boot map.entries strayTables mem = some (memoryRemap (ardsTotal map.entries) strayTables,
      Arena.start mem (clampTotal (ardsTotal map.entries))) := by
    refine if_pos fun i inside => ?_
    have inside' : i < (initBitmap mem (clampTotal (ardsTotal map.entries))).mapSize := inside
    rw [walk_strayTables (by omega) (by omega)]
    exact decide_eq_true (by omega)
  have pages : pagesFor 1 = 1 := rfl
  have nonzero : (initBitmap mem (clampTotal (ardsTotal map.entries))).bitsStart + 8 ≠ 0 := by
    rw [initBitmap_bitsStart, size_, heapBottom]
    bv_omega
  obtain ⟨-, ret⟩ := initBitmap_malloc 1 (by decide) (by rw [pages, size_]; omega) nonzero
  obtain ⟨p, walked, -⟩ := backed _ _ _ _ booted [] _ .start 1
    (by rw [Arena.start, ret]; exact nonzero) 4095 (by decide)
  have last : ((Arena.start mem (clampTotal (ardsTotal map.entries))).heap.bitmapMalloc 1).1 - 8 +
      BitVec.ofNat 32 4095 = heapBottom + BitVec.ofNat 32 (k + 4095) := by
    rw [Arena.start, ret, initBitmap_bitsStart, size_]
    bv_omega
  have mapped := @walk_strayTables (ardsTotal map.entries) (k + 4095) (by omega) (by omega)
  rw [← last, walked, decide_eq_false (by omega)] at mapped
  cases mapped

end HeapMap

/-! ## A total of more than 2 GB -/

/-- The heap of 2 GB with all of its pages used.  Behind the map is the header of
the first block, and the letter H has two free bits. -/
structure Full (s : Heap) : Prop where
  mapSize : s.mapSize = 65406
  bitsStart : s.bitsStart = 0x8040ff7e
  bitsEnd : s.bitsEnd = 0
  used : ∀ q < 8 * 65406, s.used q = true
  header : s.mem 0x8040ff7e = 0x48

namespace Full

variable {s : Heap}

theorem rewind (full : Full s) : Full s.rewind :=
  ⟨full.mapSize, full.bitsStart, full.bitsEnd, full.used, full.header⟩

/-- The request for all pages leaves it so. -/
theorem of_take (s : Heap) (n : Nat) (pages : n = 8 * 65406) (mapSize : s.mapSize = 65406)
    (bitsStart : s.bitsStart = 0x8040ff7e) (bitsEnd : s.bitsEnd = 0) :
    Full (s.take (n - 1) n).2 ∧ (s.take (n - 1) n).2.bitsPtr = 0xffffff7e := by
  have ret : (s.take (n - 1) n).1 = 0x8040ff86 := by
    rw [Heap.take_ret, bitsStart, Nat.sub_add_cancel (by omega)]
    bv_omega
  have apart : ∀ r, n - 1 < r + n → r ≤ n - 1 →
      (0x8040ff7e : BitVec 32) ≠ heapBottom + BitVec.ofNat 32 (r / 8) := by
    intro r _ high
    rw [heapBottom]
    bv_omega
  refine ⟨⟨mapSize, bitsStart, bitsEnd, fun q inside => ?_, ?_⟩, ?_⟩
  · exact Heap.take_used (by omega) (by omega) (by omega) (by omega)
  · rw [Heap.take_mem, mark_outside (by omega) apart, ret, Memory.store_outside (by decide)]
    exact (Memory.store_byte 0 (by omega)).trans (by decide)
  · show (s.take (n - 1) n).1 - 8 + BitVec.ofNat 32 n * BitVec.ofNat 32 pageSize = _
    rw [ret, pages]
    decide

theorem malloc_one (full : Full s) (behind : s.bitsPtr = 0xffffff7e) :
    s.bitmapMalloc 1 = (0, s.rewind) := by
  have place : s.pageOf s.bitsPtr = 8 * 65406 := by
    rw [Heap.pageOf, behind, full.bitsStart]
    decide
  have limit : s.secondLen = 65405 := by
    rw [Heap.secondLen, behind, full.bitsEnd, full.mapSize]
    decide
  refine @Heap.bitmapMalloc_again_none s 1 _ 0 0 place (by rw [full.mapSize]) ?_ ?_
  · rw [full.mapSize, Nat.sub_self]
    rfl
  · rw [limit]
    exact scan_full (by decide) fun q _ inside => full.used q (by omega)

/-- The limit of the second pass is below 0, and the search goes on behind the map. -/
theorem malloc_two (full : Full s) (start : s.bitsPtr = 0x8040ff7e) :
    (s.bitmapMalloc 4097).1 = 0xffffff86 := by
  have place : s.pageOf s.bitsPtr = 0 := by
    rw [Heap.pageOf, start, full.bitsStart]
    decide
  have limit : s.secondLen = 2 ^ 32 - 1 := by
    rw [Heap.secondLen, start, full.bitsEnd, full.mapSize]
    decide
  have two : pagesFor 4097 = 2 := rfl
  have nothing : scan s.used (pagesFor 4097) (8 * s.mapSize - 0) 0 0 = (none, 0) := by
    rw [full.mapSize]
    exact scan_full (by decide) fun q _ inside => full.used q (by omega)
  have free : ∀ q, 8 * 65406 ≤ q → q < 8 * 65406 + 2 → s.used q = false := by
    intro q low high
    have byte : q / 8 = 65406 := by
      omega
    have behind : heapBottom + BitVec.ofNat 32 65406 = 0x8040ff7e := by
      decide
    have bit : q % 8 = 0 ∨ q % 8 = 1 := by
      omega
    rw [Heap.used, Memory.bit, byte, behind, full.header]
    rcases bit with bit | bit <;> rw [bit] <;> decide
  have reached : scan s.used 2 (8 * 65406 + 2) 0 0 = (some (8 * 65406 + 1), 2) := by
    rw [scan_used (8 * 65406) (by omega) fun q _ inside => full.used q (by omega), ite_self,
      Nat.zero_add, scan_free (by omega) free, if_pos (by omega)]
  have found : scan s.used (pagesFor 4097) (8 * s.secondLen) 0 0 = (some (8 * 65406 + 1), 2) := by
    have more := scan_more (8 * (2 ^ 32 - 1) - (8 * 65406 + 2)) reached
    rwa [limit, two, show 8 * (2 ^ 32 - 1) = 8 * 65406 + 2 + (8 * (2 ^ 32 - 1) - (8 * 65406 + 2)) by
      omega]
  rw [Heap.bitmapMalloc_again_some place (Nat.zero_le _) nothing found, Heap.take_ret, two]
  show s.bitsStart + BitVec.ofNat 32 (8 * 65406 + 1 + 1) * BitVec.ofNat 32 pageSize -
    BitVec.ofNat 32 2 * BitVec.ofNat 32 pageSize + 4 + 4 = 0xffffff86
  rw [full.bitsStart]
  decide

end Full

/-- The page behind the address space wraps to the table entry that is never written. -/
theorem walk_wrapped {total : BitVec 32} {phys : Bytes} (large : clampTotal total = mapAddrMax)
    (zeros : ∀ a, phys a = 0) : walk (memoryRemap total phys) 0x1000 = none := by
  obtain ⟨n, d, s, filled, passed, isRemap⟩ := memoryRemap_filled total phys
  have most : mapAddrMax.toNat = 2 ^ 31 := rfl
  rw [large] at filled
  rw [large, most] at passed
  have pages : n = 523265 := by
    have last := filled.covered (n - 1) (by omega)
    rw [most] at last
    omega
  have tables := filled.tables
  have dir := filled.dir 511 (by omega)
  have dirNat : (BitVec.ofNat 32 (remapPagePaddr + 4096 * 511) ||| pageAttr).toNat = 0x3ff003 := by
    decide
  have entry : word s.mem 0x3ff004 = 0 := by
    have zero : ∀ a, 0x3ff004 ≤ a → s.mem a = 0 := fun a behind =>
      (filled.behind a (by rw [pages, remapPagePaddr]; omega)).trans (zeros a)
    rw [word, zero _ (by omega), zero _ (by omega), zero _ (by omega), zero _ (by omega)]
    rfl
  have dirIndex : pageDirPaddr + 4 * ((0x1000 : BitVec 32).toNat / 2 ^ 22) =
      pageDirPaddr + 4 * ((513 + 511) % 1024) := by
    decide
  have place : 0x3ff003 / 4096 * 4096 + 4 * ((0x1000 : BitVec 32).toNat / 4096 % 1024) = 0x3ff004 := by
    decide
  unfold walk
  simp only []
  rw [dirIndex, word_behind_null isRemap (.inl (by decide)), dir, present_or_attr, if_pos rfl, dirNat,
    place, word_behind_null isRemap (.inr (by decide)), entry]
  rfl

namespace HeapMap

variable (map : HeapMap)

/-- Three requests: all pages, one more, and two more. -/
theorem not_backed_of_clamped (large : 2 ^ 31 < (ardsTotal map.entries).toNat) :
    ¬ Backed map.entries := by
  intro backed
  have most : mapAddrMax.toNat = 2 ^ 31 := rfl
  have clamped : clampTotal (ardsTotal map.entries) = mapAddrMax := by
    refine if_pos ?_
    rwa [BitVec.lt_def, most]
  let mem : Memory := fun _ => 0
  have booted := @boot_of_enough mem (fun _ => 0) map.entries (by rw [clamped, most]; omega)
  rw [clamped] at booted
  obtain ⟨n, n_⟩ : ∃ n, n = 8 * 65406 := ⟨_, rfl⟩
  have pages : pagesFor (sizeOfPages n) = n := pagesFor_sizeOfPages (by omega) (by omega)
  have mapSize : (initBitmap mem mapAddrMax).mapSize = 65406 := rfl
  have bitsStart : (initBitmap mem mapAddrMax).bitsStart = 0x8040ff7e := rfl
  obtain ⟨taken, ret⟩ := @initBitmap_malloc mem mapAddrMax (sizeOfPages n)
    (by omega) (by rw [pages, mapSize, n_]) (by rw [bitsStart]; decide)
  rw [pages] at taken
  obtain ⟨full, behind⟩ := Full.of_take (initBitmap mem mapAddrMax) n n_ mapSize bitsStart rfl
  generalize heap_ : ((initBitmap mem mapAddrMax).take (n - 1) n).2 = heap at full behind
  have first : Arena.step (Arena.start mem mapAddrMax) (.malloc (sizeOfPages n)) =
      some ⟨heap, Arena.hold ∅ ((initBitmap mem mapAddrMax).take (n - 1) n).1⟩ := by
    rw [Arena.step, Arena.start, taken, ← heap_]
  generalize live_ : Arena.hold ∅ ((initBitmap mem mapAddrMax).take (n - 1) n).1 = live at first
  have second : Arena.step ⟨heap, live⟩ (.malloc 1) = some ⟨heap.rewind, live⟩ := by
    rw [Arena.step, full.malloc_one behind]
    rfl
  have third := full.rewind.malloc_two full.bitsStart
  obtain ⟨p, walked, -⟩ := backed _ _ _ _ booted _ _ ((Path.start.snoc first).snoc second) 4097
    (by rw [third]; decide) 4226 (by decide)
  have wrapped : (heap.rewind.bitmapMalloc 4097).1 - 8 + BitVec.ofNat 32 4226 = 0x1000 := by
    rw [third]
    decide
  rw [wrapped, walk_wrapped clamped fun _ => rfl] at walked
  cases walked

/-- **The heap is never backed by memory as it should be**, whatever the memory map. -/
theorem never_backed : ¬ Backed map.entries := by
  have large := map.found_large
  have total := map.total_toNat
  have bound := map.found.isLt
  by_cases passes : 2 ^ 32 ≤ map.found.toNat + 0x100000
  · exact map.not_backed_of_wrapped (by omega)
  · by_cases bounded : (ardsTotal map.entries).toNat ≤ 2 ^ 31
    · exact map.not_backed_of_le (by omega) bounded
    · exact map.not_backed_of_clamped (by omega)

end HeapMap

/-- A machine with 16 MB. -/
def sixteenMegabytes : HeapMap where
  entries := [⟨0, 0, 0x9fc00, 0, 1⟩, ⟨0x100000, 0, 0xf00000, 0, 1⟩]
  narrow := by decide
  large := ⟨⟨0x100000, 0, 0xf00000, 0, 1⟩, by decide, by decide, by decide, by decide⟩

/-- The total is 17 MB, and the last page that a program can get is behind the memory. -/
theorem sixteenMegabytes_not_backed : ¬ Backed sixteenMegabytes.entries :=
  sixteenMegabytes.not_backed_of_le (by decide) (by decide)

end TestOs.Memory
