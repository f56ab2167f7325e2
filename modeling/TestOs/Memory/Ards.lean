/-
# Memory.Ards -- the memory map, from the loader to init_ards

loader.asm stores the entries that INT 15h returns from 0x7014 on, behind a count
at 0x7010; `init_ards` in memory.c reads the count there and the entries from
0x7050 on, and one more than the count says.  So the kernel sees the fourth
stored entry first and reads four entries behind the last: `agrees_iff` says for
which lists it nevertheless finds what the loader stored, whatever the memory
around them holds.
-/
import TestOs.Library.Bytes

namespace TestOs.Memory

open TestOs.Library

set_option autoImplicit false

/-- `struct ards`, as the BIOS fills it. -/
structure Ards where
  baseAddrLow : BitVec 32
  baseAddrHigh : BitVec 32
  lengthLow : BitVec 32
  lengthHigh : BitVec 32
  type : BitVec 32
  deriving DecidableEq

/-- The entry at an address. -/
def readArds (mem : Bytes) (addr : Nat) : Ards :=
  ⟨word mem addr, word mem (addr + 4), word mem (addr + 8), word mem (addr + 12),
    word mem (addr + 16)⟩

/-- The 16-bit word at an address. -/
def readShort (mem : Bytes) (addr : Nat) : BitVec 16 := mem (addr + 1) ++ mem addr

/-! ## loader.asm -/

/-- `ARDS_SAVE_ADDR`, a real mode segment. -/
def ardsSaveAddr : Nat := 0x701 * 16

/-- `ARDS_BUF`. -/
def ardsBuf : Nat := 4

/-- What the BIOS stores in one call, at `es:di`. -/
def storeArds (mem : Bytes) (addr : Nat) (e : Ards) : Bytes :=
  putWord (putWord (putWord (putWord (putWord mem addr e.baseAddrLow) (addr + 4) e.baseAddrHigh)
    (addr + 8) e.lengthLow) (addr + 12) e.lengthHigh) (addr + 16) e.type

def storeShort (mem : Bytes) (addr : Nat) (v : BitVec 16) : Bytes :=
  splice mem addr (fun i => (v >>> (8 * i)).setWidth 8) 2

/-- `LOOP_GET_MEMORY_0XE820`, with `di`; the entries are those of the calls still to come. -/
def getMemoryLoop (mem : Bytes) (di : BitVec 16) : List Ards → Bytes
  | [] => mem
  | e :: entries =>
      let mem := storeArds mem (ardsSaveAddr + di.toNat) e
      let mem := storeShort mem ardsSaveAddr (readShort mem ardsSaveAddr + 1)
      getMemoryLoop mem (di + 20) entries

/-- `GET_MEMORY`. -/
def getMemory (mem : Bytes) (entries : List Ards) : Bytes :=
  getMemoryLoop (storeShort mem ardsSaveAddr 0) (BitVec.ofNat 16 ardsBuf) entries

/-! ## memory.c -/

/-- `ARDS_N_ADDRESS`, which is mapped at `KERNEL_MAP_BASE_VADDR`. -/
def ardsNAddress : Nat := 0x7010

/-- `ARDS_ADDRESS`. -/
def ardsAddress : Nat := 0x7050

/-- One turn of the loop in `init_ards`. -/
def examine (total : BitVec 32) (e : Ards) : BitVec 32 :=
  if e.type = 1 then
    let sum := e.baseAddrLow + e.lengthLow
    if total < sum then sum else total
  else total

/-- So many turns, from `ards` on. -/
def initArdsLoop (mem : Bytes) : Nat → Nat → BitVec 32 → BitVec 32
  | 0, _, total => total
  | turns + 1, ards, total => initArdsLoop mem turns (ards + 20) (examine total (readArds mem ards))

/-- `init_ards`: the new `total_memory_bytes`.  `number` counts down to 0. -/
def initArds (mem : Bytes) : BitVec 32 :=
  initArdsLoop mem ((readShort mem ardsNAddress).toNat + 1) ardsAddress 0 + 1024 * 1024

/-! ## What the loader stores -/

section Store

variable {mem : Bytes} {addr i : Nat} {e : Ards} {v : BitVec 16}

theorem storeArds_outside (outside : i < addr ∨ addr + 20 ≤ i) : storeArds mem addr e i = mem i := by
  unfold storeArds putWord
  rw [splice_outside (by omega), splice_outside (by omega), splice_outside (by omega),
    splice_outside (by omega), splice_outside (by omega)]

theorem readArds_storeArds : readArds (storeArds mem addr e) addr = e := by
  unfold readArds storeArds
  rw [word_putWord_of_ne (by omega), word_putWord_of_ne (by omega), word_putWord_of_ne (by omega),
    word_putWord_of_ne (by omega), word_putWord, word_putWord_of_ne (by omega),
    word_putWord_of_ne (by omega), word_putWord_of_ne (by omega), word_putWord,
    word_putWord_of_ne (by omega), word_putWord_of_ne (by omega), word_putWord,
    word_putWord_of_ne (by omega), word_putWord, word_putWord]

theorem readArds_congr {mem' : Bytes} (same : ∀ i, addr ≤ i → i < addr + 20 → mem' i = mem i) :
    readArds mem' addr = readArds mem addr := by
  have words : ∀ at_, addr ≤ at_ → at_ + 4 ≤ addr + 20 → word mem' at_ = word mem at_ :=
    fun at_ low high => word_congr fun i first last => same i (by omega) (by omega)
  unfold readArds
  rw [words addr (by omega) (by omega), words (addr + 4) (by omega) (by omega),
    words (addr + 8) (by omega) (by omega), words (addr + 12) (by omega) (by omega),
    words (addr + 16) (by omega) (by omega)]

theorem storeShort_outside (outside : i < addr ∨ addr + 2 ≤ i) : storeShort mem addr v i = mem i :=
  splice_outside outside

theorem readShort_storeShort : readShort (storeShort mem addr v) addr = v := by
  unfold readShort storeShort
  rw [splice_at (by omega), splice_inside (by omega) (by omega), Nat.sub_self]
  ext k hk
  simp only [BitVec.getElem_append, BitVec.getElem_setWidth, BitVec.getLsbD_ushiftRight]
  split
  · simp [BitVec.getLsbD_eq_getElem hk]
  · rw [BitVec.getLsbD_eq_getElem (by omega)]
    congr 1
    omega

theorem readShort_congr {mem' : Bytes} (first : mem' addr = mem addr)
    (second : mem' (addr + 1) = mem (addr + 1)) : readShort mem' addr = readShort mem addr := by
  unfold readShort
  rw [first, second]

end Store

/-- What `count` calls, the first of them with `di` behind `skip` entries, leave
of a memory: the entries, the count, and all else as it was. -/
structure Stored (mem mem' : Bytes) (skip : Nat) (entries : List Ards) : Prop where
  entry : ∀ i, (inside : i < entries.length) →
    readArds mem' (ardsSaveAddr + ardsBuf + 20 * (skip + i)) = entries[i]
  count : readShort mem' ardsSaveAddr =
    readShort mem ardsSaveAddr + BitVec.ofNat 16 entries.length
  outside : ∀ a, a < ardsSaveAddr ∨
      ardsSaveAddr + 2 ≤ a ∧ a < ardsSaveAddr + ardsBuf + 20 * skip ∨
      ardsSaveAddr + ardsBuf + 20 * (skip + entries.length) ≤ a → mem' a = mem a

theorem getMemoryLoop_stored (mem : Bytes) (skip : Nat) (entries : List Ards)
    (fits : ardsBuf + 20 * (skip + entries.length) ≤ 2 ^ 16) :
    Stored mem (getMemoryLoop mem (BitVec.ofNat 16 (ardsBuf + 20 * skip)) entries) skip entries := by
  induction entries generalizing mem skip with
  | nil => exact ⟨fun _ inside => absurd inside (Nat.not_lt_zero _), by simp [getMemoryLoop],
      fun _ _ => rfl⟩
  | cons e entries ih =>
      rw [List.length_cons] at fits
      simp only [ardsBuf] at fits
      have di : (BitVec.ofNat 16 (ardsBuf + 20 * skip)).toNat = ardsBuf + 20 * skip := by
        rw [BitVec.toNat_ofNat]
        exact Nat.mod_eq_of_lt (by simp only [ardsBuf]; omega)
      have next : BitVec.ofNat 16 (ardsBuf + 20 * skip) + 20 =
          BitVec.ofNat 16 (ardsBuf + 20 * (skip + 1)) := by
        rw [show ardsBuf + 20 * (skip + 1) = ardsBuf + 20 * skip + 20 by omega]
        exact (BitVec.ofNat_add ..).symm
      rw [getMemoryLoop, di, next, ← Nat.add_assoc]
      have fit : skip + 1 + entries.length = skip + (entries.length + 1) := by omega
      generalize stored : storeShort _ ardsSaveAddr _ = mem₁
      -- behind the count, only the entry is different
      have one : ∀ a, ardsSaveAddr + 2 ≤ a →
          mem₁ a = storeArds mem (ardsSaveAddr + ardsBuf + 20 * skip) e a := fun a behind => by
        rw [← stored]
        exact storeShort_outside (.inr behind)
      have rest := ih mem₁ (skip + 1) (by simp only [ardsBuf]; omega)
      refine ⟨fun i inside => ?_, ?_, fun a outside => ?_⟩
      · cases i with
        | zero =>
            have same : ∀ a, ardsSaveAddr + ardsBuf + 20 * skip ≤ a →
                a < ardsSaveAddr + ardsBuf + 20 * skip + 20 →
                getMemoryLoop mem₁ (BitVec.ofNat 16 (ardsBuf + 20 * (skip + 1))) entries a =
                  storeArds mem (ardsSaveAddr + ardsBuf + 20 * skip) e a := by
              intro a low high
              simp only [ardsBuf] at low high
              rw [rest.outside a (.inr (.inl (by simp only [ardsBuf]; omega))), one a (by omega)]
            rw [Nat.add_zero skip, readArds_congr same, readArds_storeArds, List.getElem_cons_zero]
        | succ i =>
            have later := rest.entry i (by simpa using inside)
            rw [show skip + 1 + i = skip + (i + 1) by omega] at later
            exact later
      · have before : readShort (storeArds mem (ardsSaveAddr + ardsBuf + 20 * skip) e)
            ardsSaveAddr = readShort mem ardsSaveAddr :=
          readShort_congr (storeArds_outside (.inl (by simp only [ardsBuf]; omega)))
            (storeArds_outside (.inl (by simp only [ardsBuf]; omega)))
        rw [rest.count, ← stored, readShort_storeShort, before, List.length_cons,
          Nat.add_comm entries.length 1, BitVec.ofNat_add, BitVec.add_assoc]
        rfl
      · simp only [ardsBuf, List.length_cons] at outside
        rw [rest.outside a (by simp only [ardsBuf]; omega), ← stored,
          storeShort_outside (by omega), storeArds_outside (by simp only [ardsBuf]; omega)]

/-- The lists that fit behind the count in the loader's segment. -/
structure MemoryMap where
  entries : List Ards
  fits : ardsBuf + 20 * entries.length ≤ 2 ^ 16

namespace MemoryMap

variable (map : MemoryMap) (mem : Bytes)

theorem length_lt : map.entries.length < 2 ^ 16 := by
  have fits := map.fits
  simp only [ardsBuf] at fits
  omega

theorem getMemory_count : readShort (getMemory mem map.entries) ardsNAddress =
    BitVec.ofNat 16 map.entries.length := by
  have stored := getMemoryLoop_stored (storeShort mem ardsSaveAddr 0) 0 map.entries
    (by simpa using map.fits)
  have count := stored.count
  rw [readShort_storeShort] at count
  exact count.trans (BitVec.zero_add _)

theorem getMemory_entry {i : Nat} (inside : i < map.entries.length) :
    readArds (getMemory mem map.entries) (ardsSaveAddr + ardsBuf + 20 * i) = map.entries[i] := by
  have stored := getMemoryLoop_stored (storeShort mem ardsSaveAddr 0) 0 map.entries
    (by simpa using map.fits)
  have entry := stored.entry i inside
  rw [Nat.zero_add] at entry
  exact entry

theorem getMemory_behind {a : Nat} (behind : ardsSaveAddr + ardsBuf + 20 * map.entries.length ≤ a) :
    getMemory mem map.entries a = mem a := by
  have stored := getMemoryLoop_stored (storeShort mem ardsSaveAddr 0) 0 map.entries
    (by simpa using map.fits)
  have outside := stored.outside a (.inr (.inr (by simpa using behind)))
  refine outside.trans (storeShort_outside (.inr ?_))
  simp only [ardsBuf] at behind
  omega

end MemoryMap

/-! ## What init_ards finds -/

/-- The entries that `init_ards` examines. -/
def examined (mem : Bytes) : List Ards :=
  (List.range ((readShort mem ardsNAddress).toNat + 1)).map fun j => readArds mem (ardsAddress + 20 * j)

theorem initArdsLoop_eq (mem : Bytes) (turns ards : Nat) (total : BitVec 32) :
    initArdsLoop mem turns ards total =
      ((List.range turns).map fun j => readArds mem (ards + 20 * j)).foldl examine total := by
  induction turns generalizing ards total with
  | zero => rfl
  | succ turns ih =>
      rw [initArdsLoop, ih, List.range_succ_eq_map, List.map_cons, List.foldl_cons, List.map_map]
      congr 2
      funext j
      show readArds mem (ards + 20 + 20 * j) = readArds mem (ards + 20 * (j + 1))
      congr 1
      omega

theorem initArds_eq (mem : Bytes) :
    initArds mem = (examined mem).foldl examine 0 + 1024 * 1024 := by
  rw [initArds, initArdsLoop_eq, examined]

section Largest

variable {entries : List Ards} {e : Ards} {total : BitVec 32}

theorem le_examine : total ≤ examine total e := by
  unfold examine
  split
  · simp only []
    split
    · exact BitVec.le_of_lt ‹_›
    · exact BitVec.le_refl _
  · exact BitVec.le_refl _

theorem le_foldl_examine : total ≤ entries.foldl examine total := by
  induction entries generalizing total with
  | nil => exact BitVec.le_refl _
  | cons e entries ih => exact BitVec.le_trans le_examine ih

/-- The end of each usable entry is reached. -/
theorem sum_le_foldl (member : e ∈ entries) (usable : e.type = 1) :
    e.baseAddrLow + e.lengthLow ≤ entries.foldl examine total := by
  induction entries generalizing total with
  | nil => cases member
  | cons e' entries ih =>
      rw [List.foldl_cons]
      rcases List.mem_cons.1 member with rfl | later
      · refine BitVec.le_trans ?_ le_foldl_examine
        unfold examine
        rw [if_pos usable]
        simp only []
        split
        · exact BitVec.le_refl _
        · exact BitVec.not_lt.1 ‹_›
      · exact ih later

/-- What is found is the end of an entry. -/
theorem foldl_examine_cases : entries.foldl examine total = total ∨
    ∃ e ∈ entries, e.type = 1 ∧ e.baseAddrLow + e.lengthLow = entries.foldl examine total := by
  induction entries generalizing total with
  | nil => exact .inl rfl
  | cons e entries ih =>
      rw [List.foldl_cons]
      rcases @ih (examine total e) with first | ⟨e', member, usable, sum⟩
      · rw [first]
        unfold examine
        split
        · simp only []
          split
          · exact .inr ⟨e, List.mem_cons_self, ‹_›, rfl⟩
          · exact .inl rfl
        · exact .inl rfl
      · exact .inr ⟨e', List.mem_cons_of_mem _ member, usable, sum⟩

end Largest

/-! ## The memory map -/

/-- The end of an entry, in all 64 bits. -/
def Ards.top (e : Ards) : Nat :=
  (e.baseAddrHigh ++ e.baseAddrLow).toNat + (e.lengthHigh ++ e.lengthLow).toNat

/-- Memory that a 32-bit kernel can use. -/
def Ards.Usable (e : Ards) : Prop := e.type = 1 ∧ e.top < 2 ^ 32

instance (e : Ards) : Decidable e.Usable := inferInstanceAs (Decidable (_ ∧ _))

/-- The largest end of usable memory, or 0. -/
def topOfMemory (entries : List Ards) : Nat :=
  ((entries.filter (·.Usable)).map Ards.top).foldr max 0

theorem topOfMemory_lt (entries : List Ards) : topOfMemory entries < 2 ^ 32 := by
  unfold topOfMemory
  induction entries with
  | nil => decide
  | cons e entries ih =>
      rw [List.filter_cons]
      split
      · rename_i usable
        have below := (of_decide_eq_true usable).2
        rw [List.map_cons, List.foldr_cons]
        omega
      · exact ih

namespace MemoryMap

variable (map : MemoryMap) (mem : Bytes)

/-- The kernel finds the top of the memory that the loader stored, plus 1 MB. -/
def Agrees : Prop :=
  ∀ mem, initArds (getMemory mem map.entries) =
    BitVec.ofNat 32 (topOfMemory map.entries) + 1024 * 1024

theorem examined_eq : examined (getMemory mem map.entries) =
    (List.range (map.entries.length + 1)).map fun j =>
      readArds (getMemory mem map.entries) (ardsAddress + 20 * j) := by
  rw [examined, map.getMemory_count, BitVec.toNat_ofNat, Nat.mod_eq_of_lt map.length_lt]

/-- The kernel's entries are the loader's from the fourth on. -/
theorem examined_entry {j : Nat} (inside : j + 3 < map.entries.length) :
    readArds (getMemory mem map.entries) (ardsAddress + 20 * j) = map.entries[j + 3] := by
  rw [← map.getMemory_entry mem inside]
  congr 1
  simp only [ardsAddress, ardsSaveAddr, ardsBuf]
  omega

theorem examined_behind {j : Nat} (behind : map.entries.length ≤ j + 3) :
    readArds (getMemory mem map.entries) (ardsAddress + 20 * j) = readArds mem (ardsAddress + 20 * j) :=
  readArds_congr fun i low _ => map.getMemory_behind mem <| by
    simp only [ardsAddress, ardsSaveAddr, ardsBuf] at low ⊢
    omega

/-- Memory behind the list that looks like an entry at its upper end. -/
def adversary : Bytes :=
  storeArds (fun _ => 0) (ardsAddress + 20 * map.entries.length) ⟨0xffffffff, 0, 0, 0, 1⟩

theorem adversary_found : (examined (getMemory map.adversary map.entries)).foldl examine 0 =
    0xffffffff := by
  have member : (⟨0xffffffff, 0, 0, 0, 1⟩ : Ards) ∈ examined (getMemory map.adversary map.entries) := by
    rw [examined_eq]
    refine List.mem_map.2 ⟨map.entries.length, List.mem_range.2 (by omega), ?_⟩
    rw [examined_behind _ _ (by omega)]
    exact readArds_storeArds
  have reached := @sum_le_foldl _ _ 0 member rfl
  have bound := BitVec.isLt ((examined (getMemory map.adversary map.entries)).foldl examine 0)
  bv_omega

/-- In a memory of zeros only the stored entries count. -/
theorem zeros_found {sum : BitVec 32} (nonzero : sum ≠ 0)
    (found : (examined (getMemory (fun _ => 0) map.entries)).foldl examine 0 = sum) :
    ∃ e ∈ map.entries.drop 3, e.type = 1 ∧ e.baseAddrLow + e.lengthLow = sum := by
  rcases @foldl_examine_cases (examined (getMemory (fun _ => 0) map.entries)) 0
    with none_ | ⟨e, member, usable, isSum⟩
  · exact (nonzero (found.symm.trans none_)).elim
  · rw [found] at isSum
    rw [examined_eq] at member
    obtain ⟨j, -, rfl⟩ := List.mem_map.1 member
    by_cases inside : j + 3 < map.entries.length
    · rw [examined_entry _ _ inside] at usable isSum
      refine ⟨_, ?_, usable, isSum⟩
      rw [List.mem_drop_iff_getElem]
      exact ⟨j, by omega, by simp [Nat.add_comm]⟩
    · rw [examined_behind _ _ (by omega)] at usable
      have free : (readArds (fun _ => 0) (ardsAddress + 20 * j)).type = 0 := by
        show (0 : BitVec 8) ++ (0 : BitVec 8) ++ (0 : BitVec 8) ++ (0 : BitVec 8) = (0 : BitVec 32)
        decide
      rw [free] at usable
      exact absurd usable (by decide)

theorem add_megabyte {a b : BitVec 32} : a + 1024 * 1024 = b + 1024 * 1024 ↔ a = b := by
  exact add_left_inj _

/-- **Loader and kernel agree on the memory map** exactly if the memory ends at
the last byte of the 32-bit address space and one of the entries from the fourth
on says so. -/
theorem agrees_iff : map.Agrees ↔ topOfMemory map.entries = 2 ^ 32 - 1 ∧
    ∃ e ∈ map.entries.drop 3, e.type = 1 ∧ e.baseAddrLow + e.lengthLow = 0xffffffff := by
  constructor
  · intro agrees
    have top : BitVec.ofNat 32 (topOfMemory map.entries) = 0xffffffff := by
      have found := agrees map.adversary
      rw [initArds_eq, adversary_found, add_megabyte] at found
      exact found.symm
    refine ⟨?_, ?_⟩
    · have value := congrArg BitVec.toNat top
      rw [BitVec.toNat_ofNat, Nat.mod_eq_of_lt (topOfMemory_lt _)] at value
      exact value
    · have found := agrees fun _ => 0
      rw [initArds_eq, add_megabyte, top] at found
      exact zeros_found map (by decide) found
  · rintro ⟨top, e, member, usable, sum⟩ mem
    rw [initArds_eq, add_megabyte, top]
    obtain ⟨j, inside, isEntry⟩ := List.mem_drop_iff_getElem.1 member
    have seen : e ∈ examined (getMemory mem map.entries) := by
      rw [examined_eq]
      refine List.mem_map.2 ⟨j, List.mem_range.2 (by omega), ?_⟩
      rw [examined_entry _ _ (by omega), ← isEntry]
      simp only [Nat.add_comm]
    have reached := @sum_le_foldl _ _ 0 seen usable
    rw [sum] at reached
    have bound := BitVec.isLt ((examined (getMemory mem map.entries)).foldl examine 0)
    bv_omega

/-- A machine with 8 MB of memory from 1 MB on, and nothing else in low memory. -/
def eightMegabytes : MemoryMap := ⟨[⟨0x100000, 0, 0x800000, 0, 1⟩], by decide⟩

/-- The kernel finds nothing. -/
theorem eightMegabytes_missed : ¬ eightMegabytes.Agrees := by
  intro agrees
  have found := agrees fun _ => 0
  revert found
  decide +kernel

end MemoryMap

end TestOs.Memory
