/-
# Memory.LinearMap -- what memory_remap writes besides the map

The linear map itself is right for every total, and the tables fit the 2 MB they
have to lie in, to the last one.  But both loops of `memory_remap` go up to the
total inclusively.  At 2 GB, where the total is cut, that is a page more than the
addresses from 0x80000000 on have room for, and its table is entered in the slot
of address 0.  So nothing but the map is built exactly when the total is below
2 GB (`linear_map_iff`).
-/
import TestOs.Memory.Remap

namespace TestOs.Memory

open TestOs.Library

set_option autoImplicit false

/-! ## The linear map -/

/-- A slot of the page directory. -/
def dirSlot (mem : Bytes) (slot : Nat) : BitVec 32 := word mem (pageDirPaddr + 4 * slot)

/-- The table that an entry of the directory shows to. -/
def tableOf (dir : BitVec 32) : Nat := dir.toNat / 4096 * 4096

/-- Both entries for an address have the writable bit. -/
def Writable (mem : Bytes) (v : BitVec 32) : Prop :=
  let dir := dirSlot mem (v.toNat / 2 ^ 22)
  dir.getLsbD 1 = true ∧ (word mem (tableOf dir + 4 * (v.toNat / 4096 % 1024))).getLsbD 1 = true

/-- The memory below the heap that is reserved for the tables: 2 MB from the end of
the kernel image on. -/
def InTables (a : Nat) : Prop := remapPagePaddr ≤ a ∧ a < mapEarlySize.toNat

/-- What `memory_remap` is to do: the map, with tables where they belong, and no
change to the slots of the addresses below 0x80400000 or to anything else. -/
structure LinearMap (total : BitVec 32) (before after : Bytes) : Prop where
  maps : ∀ p, pageSize ∣ p → mapEarlySize.toNat ≤ p → p < min total.toNat mapAddrMax.toNat →
    walk after (mapBaseVaddr + BitVec.ofNat 32 p) = some p ∧
      Writable after (mapBaseVaddr + BitVec.ofNat 32 p)
  tables : ∀ slot < 1024, dirSlot after slot = dirSlot before slot ∨
    ∀ k < 4096, InTables (tableOf (dirSlot after slot) + k)
  slots : ∀ slot, slot * 2 ^ 22 < heapBottom.toNat → dirSlot after slot = dirSlot before slot
  elsewhere : ∀ a, ¬ (pageDirPaddr ≤ a ∧ a < pageDirPaddr + 4096) → ¬ InTables a →
    ¬ (paPagePaddr ≤ a ∧ a < paPagePaddr + 4) → ¬ (vaPagePaddr ≤ a ∧ a < vaPagePaddr + 4) →
    after a = before a

/-! ## What is left alone -/

/-- The memory with `d` tables entered in the directory, as far as it is as before. -/
structure Kept (before : Bytes) (d : Nat) (s : Remap) : Prop where
  elsewhere : ∀ a, ¬ (pageDirPaddr ≤ a ∧ a < pageDirPaddr + 4096) → ¬ InTables a → s.mem a = before a
  slots : ∀ slot < 1024, (∀ t < d, (513 + t) % 1024 ≠ slot) → dirSlot s.mem slot = dirSlot before slot

section Kept

variable {total : BitVec 32} {before : Bytes} {d : Nat} {s : Remap}

theorem fillTable_outside (tbl left : Nat) {a : Nat} (outside : a < tbl ∨ tbl + 4096 ≤ a) :
    (fillTable total tbl left s).mem a = s.mem a := by
  induction left generalizing s with
  | zero => rfl
  | succ left ih =>
      rw [fillTable]
      split
      · have index : ((s.mapVaddr >>> 12) &&& 0x3ff).toNat < 1024 := by
          rw [BitVec.toNat_and]
          exact lt_of_le_of_lt Nat.and_le_right (by decide)
        refine ih.trans ?_
        exact splice_outside (by omega)
      · rfl

/-- A turn writes to its slot and its table. -/
theorem enterTable_kept (bounded : total.toNat ≤ 2 ^ 31)
    (more : 0x400000 + 4096 * (1024 * d) ≤ total.toNat) (kept : Kept before d s) :
    Kept before (d + 1) (enterTable total d s) := by
  have early : mapEarlySize.toNat = 0x400000 := rfl
  constructor
  · intro a notDir notTables
    have outside : a < remapPagePaddr + 4096 * d ∨ remapPagePaddr + 4096 * d + 4096 ≤ a := by
      simp only [InTables, early, remapPagePaddr] at notTables ⊢
      omega
    rw [enterTable, fillTable_outside _ _ outside, ← kept.elsewhere a notDir notTables]
    refine splice_outside ?_
    simp only [pageDirPaddr] at notDir ⊢
    omega
  · intro slot low others
    have same : word (enterTable total d s).mem (pageDirPaddr + 4 * slot) =
        word (putWord s.mem (pageDirPaddr + 4 * ((513 + d) % 1024))
          (BitVec.ofNat 32 (remapPagePaddr + 4096 * d) ||| pageAttr)) (pageDirPaddr + 4 * slot) := by
      refine word_congr fun k _ high => fillTable_outside _ _ (.inl ?_)
      unfold pageDirPaddr at high
      unfold remapPagePaddr
      omega
    have other := others d (Nat.lt_succ_self d)
    rw [dirSlot, same, word_putWord_of_ne (by omega)]
    exact kept.slots slot low fun t below => others t (Nat.lt_succ_of_lt below)

end Kept

/-! ## The map -/

section Map

variable {total : BitVec 32} {phys : Bytes}

theorem clampTotal_of_lt (below : total.toNat < 2 ^ 31) : clampTotal total = total := by
  have most : mapAddrMax.toNat = 2 ^ 31 := rfl
  refine if_neg fun above => ?_
  rw [BitVec.lt_def, most] at above
  omega

theorem clampTotal_of_ge (large : 2 ^ 31 ≤ total.toNat) : (clampTotal total).toNat = 2 ^ 31 := by
  have most : mapAddrMax.toNat = 2 ^ 31 := rfl
  unfold clampTotal
  split
  · exact most
  · rename_i below
    have := BitVec.not_lt.1 below
    rw [BitVec.le_def, most] at this
    omega

theorem writable_or_attr (x : BitVec 32) : (x ||| pageAttr).getLsbD 1 = true := by
  rw [BitVec.getLsbD_or]
  exact Bool.or_true _

/-- The map is right, whatever the total. -/
theorem memoryRemap_maps {p : Nat} (aligned : pageSize ∣ p) (low : mapEarlySize.toNat ≤ p)
    (high : p < min total.toNat mapAddrMax.toNat) :
    walk (memoryRemap total phys) (mapBaseVaddr + BitVec.ofNat 32 p) = some p ∧
      Writable (memoryRemap total phys) (mapBaseVaddr + BitVec.ofNat 32 p) := by
  have early : mapEarlySize.toNat = 0x400000 := rfl
  have most : mapAddrMax.toNat = 2 ^ 31 := rfl
  rw [most, lt_min_iff] at high
  have covered : p ≤ (clampTotal total).toNat := by
    by_cases below : total.toNat < 2 ^ 31
    · rw [clampTotal_of_lt below]
      omega
    · rw [clampTotal_of_ge (not_lt.1 below)]
      omega
  obtain ⟨x, rfl⟩ : ∃ x, p = 0x400000 + x := ⟨p - 0x400000, by omega⟩
  have address : mapBaseVaddr + BitVec.ofNat 32 (0x400000 + x) = heapBottom + BitVec.ofNat 32 x := by
    rw [BitVec.ofNat_add, ← BitVec.add_assoc]
    rfl
  have covered' : 0x400000 + x / 4096 * 4096 ≤ (clampTotal total).toNat := by omega
  rw [address]
  refine ⟨walk_memoryRemap covered', ?_⟩
  obtain ⟨dir, table, entry⟩ := @memoryRemap_entries total phys x covered'
  unfold Writable dirSlot tableOf
  simp only []
  rw [dir, table, entry]
  exact ⟨writable_or_attr _, writable_or_attr _⟩

/-- The tables that are entered, and what is left alone. -/
theorem memoryRemap_kept (total : BitVec 32) (phys : Bytes) : ∃ d s, d ≤ 512 ∧
    (d ≤ 511 ↔ total.toNat < 2 ^ 31) ∧ Kept phys d s ∧
    (∀ t < d, dirSlot s.mem ((513 + t) % 1024) =
      BitVec.ofNat 32 (remapPagePaddr + 4096 * t) ||| pageAttr) ∧
    memoryRemap total phys = putWord (putWord s.mem paPagePaddr 0) vaPagePaddr 0 := by
  have bounded := clampTotal_le total
  obtain ⟨n, d, s, filled, kept, passed, isRemap⟩ := @memoryRemap_keeps total phys (Kept phys)
    (fun d s more kept => enterTable_kept bounded more kept)
    ⟨fun _ _ _ => rfl, fun _ _ _ => rfl⟩
  have few : d ≤ 512 := by
    by_contra more
    have := filled.used 512 (by omega)
    omega
  refine ⟨d, s, few, ⟨fun fewer => ?_, fun below => ?_⟩, kept, filled.dir, isRemap⟩
  · by_contra large
    have tables := filled.tables
    rw [clampTotal_of_ge (not_lt.1 large)] at passed
    omega
  · by_contra more
    have last := filled.used 511 (by omega)
    rw [clampTotal_of_lt below] at last
    omega

/-- From 2 GB on the last table is in the slot of address 0. -/
theorem slot_zero (large : 2 ^ 31 ≤ total.toNat) (phys : Bytes) :
    dirSlot (memoryRemap total phys) 0 = 0x3ff003 := by
  obtain ⟨d, s, few, fewer, kept, dir, isRemap⟩ := memoryRemap_kept total phys
  have all : d = 512 := by omega
  rw [dirSlot, word_behind_null isRemap (.inl (by decide))]
  exact (dir 511 (by omega)).trans (by decide)

/-- **`memory_remap` builds the linear map and nothing else, whatever was in memory,
exactly when the memory is smaller than 2 GB.** -/
theorem linear_map_iff :
    (∀ phys, LinearMap total phys (memoryRemap total phys)) ↔ total.toNat < 2 ^ 31 := by
  constructor
  · intro linear
    by_contra large
    have first := (linear fun _ => 0).slots 0 (by decide)
    rw [slot_zero (not_lt.1 large)] at first
    exact absurd first (by decide)
  · intro below phys
    obtain ⟨d, s, few, fewer, kept, dir, isRemap⟩ := memoryRemap_kept total phys
    have fewer := fewer.2 below
    have same : ∀ slot < 1024, dirSlot (memoryRemap total phys) slot = dirSlot s.mem slot :=
      fun slot low => word_behind_null isRemap
        (.inl (by simp only [paPagePaddr, pageDirPaddr]; omega))
    refine ⟨fun p => memoryRemap_maps, fun slot low => ?_, fun slot low => ?_,
      fun a notDir notTables notPa notVa => ?_⟩
    · rw [same slot low]
      by_cases entered : ∃ t < d, (513 + t) % 1024 = slot
      · obtain ⟨t, inside, rfl⟩ := entered
        right
        rw [dir t inside, tableOf,
          toNat_or_attr (by simp only [remapPagePaddr]; omega) (by simp only [remapPagePaddr]; omega)]
        intro k within
        have early : mapEarlySize.toNat = 0x400000 := rfl
        unfold InTables
        simp only [remapPagePaddr]
        omega
      · push Not at entered
        exact .inl (kept.slots slot low entered)
    · have bottom : heapBottom.toNat = 0x80400000 := rfl
      rw [same slot (by omega)]
      exact kept.slots slot (by omega) fun t inside => by omega
    · rw [isRemap, ← kept.elsewhere a notDir notTables]
      exact (splice_outside (by omega)).trans (splice_outside (by omega))

end Map

/-- With 3 GB the slot of address 0 shows to a table. -/
theorem remap_enters_slot_zero :
    dirSlot (fun _ => 0) 0 = 0 ∧ dirSlot (memoryRemap 0xc0000000 fun _ => 0) 0 = 0x3ff003 ∧
      ¬ LinearMap 0xc0000000 (fun _ => 0) (memoryRemap 0xc0000000 fun _ => 0) := by
  have entered := @slot_zero 0xc0000000 (by decide) fun _ => 0
  refine ⟨by decide, entered, fun linear => ?_⟩
  have first := linear.slots 0 (by decide)
  rw [entered] at first
  exact absurd first (by decide)

end TestOs.Memory
