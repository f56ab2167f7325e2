/-
# Fat32.EmptyVolume -- what fat32_format leaves on a disk

Every write of `fat32_format` is of whole sectors with the same contents, so the
effect of a loop is `paint`: the sectors of a set get these contents
(`forUp_paints`).  The loops together miss the second half of the first FAT copy,
whatever the size of the disk (`fat32Format_formats`), so the volume is empty
exactly when that half was blank before (`format_empty_iff`).
-/
import TestOs.Fat32.Opening

namespace TestOs.Fat32

open TestOs.Library Prog

set_option autoImplicit false

/-! ## Painting sectors -/

/-- The sectors of a set hold `src`. -/
def paint (sectors : Set Nat) (src data after : Bytes) : Prop :=
  ∀ i, (i / 512 ∈ sectors → after i = src (i % 512)) ∧ (i / 512 ∉ sectors → after i = data i)

theorem paint_one (sector : Nat) (src data : Bytes) :
    paint {sector} src data (splice data (512 * sector) src 512) := by
  intro i
  constructor
  · rintro rfl
    rw [splice_inside (by omega) (by omega)]
    congr 1
    omega
  · intro other
    have apart : i / 512 ≠ sector := other
    exact splice_outside (by omega)

theorem paint_nothing (src data : Bytes) : paint ∅ src data data :=
  fun _ => ⟨fun inside => inside.elim, fun _ => rfl⟩

theorem paint_union {first second : Set Nat} {src data after after' : Bytes}
    (paints : paint first src data after) (paints' : paint second src after after') :
    paint (first ∪ second) src data after' := by
  intro i
  by_cases inside : i / 512 ∈ second
  · exact ⟨fun _ => (paints' i).1 inside, fun outside => (outside (.inr inside)).elim⟩
  · rw [(paints' i).2 inside]
    constructor
    · rintro (inFirst | inSecond)
      · exact (paints i).1 inFirst
      · exact (inside inSecond).elim
    · exact fun outside => (paints i).2 fun inFirst => outside (.inl inFirst)

section Writes

variable {s : Machine} {disk : DiskId}

/-- After `p`, these sectors of the disk hold `src`, and nothing else has changed. -/
def Paints (p : FatM Unit) (disk : DiskId) (sectors : Set Nat) (src : Bytes) : Prop :=
  ∀ s : Machine, s.Reliable →
    wp p (fun _ t => ∃ data io trace, t = s.ran (s.toCore.setData disk data) io trace ∧
      paint sectors src (s.disk disk).data data) (fun _ _ => False) s

/-- The rule for a semicolon behind such a program. -/
theorem Paints.apply {p : FatM Unit} {sectors : Set Nat} {src : Bytes}
    (paints : Paints p disk sectors src) {start : Machine} {data : Bytes} {io : Nat}
    {trace : List Event} (reliable : start.Reliable) {post : Unit → Machine → Prop}
    {onFail : FatError → Machine → Prop}
    (rest : ∀ data' io' trace', paint sectors src data data' →
      post () (start.ran (start.toCore.setData disk data') io' trace')) :
    wp p post onFail (start.ran (start.toCore.setData disk data) io trace) := by
  refine wp_mono (paints _ reliable.ran) ?_ (fun _ _ never => never.elim)
  rintro - t ⟨data', io', trace', rfl, painted⟩
  simp only [ran_toCore, setData_data, setData_setData, ran_ran] at painted ⊢
  exact rest data' io' trace' painted

theorem writeSector_paints (sector : Nat) (src : Bytes) :
    Paints (writeSector disk sector src) disk {w32 sector} src := by
  intro s reliable
  unfold writeSector
  simp only [wp_bind, wp_deviceWrite, wp_pure, reliable.transferred]
  exact ⟨_, _, _, rfl, paint_one _ _ _⟩

theorem Paints.union {p q : FatM Unit} {first second : Set Nat} {src : Bytes}
    (paints : Paints p disk first src) (paints' : Paints q disk second src) :
    Paints (p >>= fun _ => q) disk (first ∪ second) src := by
  intro s reliable
  rw [wp_bind]
  refine wp_mono (paints s reliable) ?_ (fun _ _ never => never)
  rintro - t ⟨data, io, trace, rfl, painted⟩
  refine wp_mono (paints' _ reliable.ran) ?_ (fun _ _ never => never)
  rintro - t ⟨data', io', trace', rfl, painted'⟩
  simp only [ran_toCore, setData_data, setData_setData, ran_ran] at painted' ⊢
  exact ⟨data', io', trace', rfl, paint_union painted painted'⟩

theorem forUp_paints {body : Nat → FatM Unit} {sectors : Nat → Set Nat} {src : Bytes}
    (each : ∀ i, Paints (body i) disk (sectors i) src) (count i : Nat) :
    Paints (forUp body count i) disk {q | ∃ j, i ≤ j ∧ j < i + count ∧ q ∈ sectors j} src := by
  induction count generalizing i with
  | zero =>
      have none_ : {q | ∃ j, i ≤ j ∧ j < i + 0 ∧ q ∈ sectors j} = ∅ := by
        ext q
        simp only [Set.mem_ofPred_eq, Set.mem_empty_iff_false, iff_false]
        rintro ⟨j, low, high, -⟩
        omega
      rw [none_]
      intro s _
      exact ⟨(s.disk disk).data, s.io, s.trace, by simp [Machine.ran], paint_nothing _ _⟩
  | succ count ih =>
      have split : {q | ∃ j, i ≤ j ∧ j < i + (count + 1) ∧ q ∈ sectors j} =
          sectors i ∪ {q | ∃ j, i + 1 ≤ j ∧ j < i + 1 + count ∧ q ∈ sectors j} := by
        ext q
        simp only [Set.mem_ofPred_eq, Set.mem_union]
        constructor
        · rintro ⟨j, low, high, inside⟩
          rcases Nat.eq_or_lt_of_le low with rfl | later
          · exact .inl inside
          · exact .inr ⟨j, later, by omega, inside⟩
        · rintro (inside | ⟨j, low, high, inside⟩)
          · exact ⟨i, le_rfl, by omega, inside⟩
          · exact ⟨j, by omega, by omega, inside⟩
      rw [split]
      exact (each i).union (ih (i + 1))

end Writes

/-! ## The boot sector -/

/-- The file system that `fat32_format` makes. -/
def formatFs (totalSectors fatSectors : Nat) : Fs where
  bpb :=
    { sectorSize := 512, clusterSectors := 1, reservedSectors := 32, numFats := 2
      rootdirLength := 0
      totalSectors := BitVec.ofNat 16 (if totalSectors < 0x10000 then totalSectors else 0)
      fatSectors := 0
      totalSectorsLarge := BitVec.ofNat 32
        (if (if totalSectors < 0x10000 then totalSectors else 0) = 0 then totalSectors else 0)
      extFatSectors := BitVec.ofNat 32 fatSectors
      rootdirCluster := 2, bootSignature := 0x29, magic := 0xaa55 }
  totalSectors := BitVec.ofNat 32 totalSectors
  firstDataCluster := BitVec.ofNat 32 (32 + 2 * fatSectors)

theorem halfword_le (value : Nat) :
    BitVec.ofNat 8 (value >>> 8) ++ BitVec.ofNat 8 (value >>> 0) = BitVec.ofNat 16 value := by
  refine BitVec.eq_of_getLsbD_eq fun k hk => ?_
  simp only [BitVec.getLsbD_append, BitVec.getLsbD_ofNat, Nat.testBit_shiftRight]
  by_cases low : k < 8
  · simp [low, hk]
  · have place : 8 + (k - 8) = k := by omega
    have high : k - 8 < 8 := by omega
    simp [low, hk, place, high]

theorem word_le (value : Nat) :
    BitVec.ofNat 8 (value >>> 24) ++ BitVec.ofNat 8 (value >>> 16) ++ BitVec.ofNat 8 (value >>> 8) ++
      BitVec.ofNat 8 (value >>> 0) = BitVec.ofNat 32 value := by
  refine BitVec.eq_of_getLsbD_eq fun k hk => ?_
  simp only [BitVec.getLsbD_append, BitVec.getLsbD_ofNat, Nat.testBit_shiftRight]
  have cases : k < 8 ∨ (¬ k < 8 ∧ k - 8 < 8) ∨ (¬ k < 8 ∧ ¬ k - 8 < 8 ∧ k - 8 - 8 < 8) ∨
      (¬ k < 8 ∧ ¬ k - 8 < 8 ∧ ¬ k - 8 - 8 < 8 ∧ k - 8 - 8 - 8 < 8) := by omega
  rcases cases with first | ⟨not0, second⟩ | ⟨not0, not1, third⟩ | ⟨not0, not1, not2, last⟩
  · simp [first, hk]
  · have place : 8 + (k - 8) = k := by omega
    simp [not0, second, hk, place]
  · have place : 16 + (k - 8 - 8) = k := by omega
    simp [not0, not1, third, hk, place]
  · have place : 24 + (k - 8 - 8 - 8) = k := by omega
    simp [not0, not1, not2, last, hk, place]

theorem formatBpb_read (totalSectors fatSectors serial : Nat) :
    readBpb (formatBpb totalSectors fatSectors serial) = (formatFs totalSectors fatSectors).bpb := by
  have sectorSize : halfword (formatBpb totalSectors fatSectors serial) 11 = 512 := halfword_le 512
  have reserved : halfword (formatBpb totalSectors fatSectors serial) 14 = 32 := halfword_le 32
  have rootdir : halfword (formatBpb totalSectors fatSectors serial) 17 = 0 := halfword_le 0
  have total : halfword (formatBpb totalSectors fatSectors serial) 19 =
      BitVec.ofNat 16 (if totalSectors < 0x10000 then totalSectors else 0) := halfword_le _
  have oldFat : halfword (formatBpb totalSectors fatSectors serial) 22 = 0 := halfword_le 0
  have large : word (formatBpb totalSectors fatSectors serial) 32 = BitVec.ofNat 32
      (if (if totalSectors < 0x10000 then totalSectors else 0) = 0 then totalSectors else 0) :=
    word_le _
  have fat : word (formatBpb totalSectors fatSectors serial) 36 = BitVec.ofNat 32 fatSectors :=
    word_le _
  have cluster : word (formatBpb totalSectors fatSectors serial) 44 = 2 := word_le 2
  have magic : halfword (formatBpb totalSectors fatSectors serial) 510 = 0xaa55 :=
    halfword_le 0xaa55
  rw [readBpb, sectorSize, reserved, rootdir, total, oldFat, large, fat, cluster, magic]
  rfl

/-- `fat32_check` accepts the boot sector that `fat32_format` writes. -/
theorem formatBpb_mount {totalSectors fatSectors : Nat} (serial : Nat)
    (small : totalSectors < 2 ^ 32) :
    mountFs (formatBpb totalSectors fatSectors serial) = some (formatFs totalSectors fatSectors) := by
  have total : (if (formatFs totalSectors fatSectors).bpb.totalSectors ≠ 0 then
        (formatFs totalSectors fatSectors).bpb.totalSectors.setWidth 32
      else (formatFs totalSectors fatSectors).bpb.totalSectorsLarge) = BitVec.ofNat 32 totalSectors := by
    simp only [formatFs]
    by_cases few : totalSectors < 0x10000
    · simp only [if_pos few]
      by_cases none_ : totalSectors = 0
      · subst none_
        rfl
      · have nonzero : BitVec.ofNat 16 totalSectors ≠ 0 := by
          intro zero
          have := congrArg BitVec.toNat zero
          simp only [BitVec.ofNat_eq_ofNat, BitVec.toNat_ofNat] at this
          omega
        rw [if_pos nonzero]
        apply BitVec.eq_of_toNat_eq
        simp only [BitVec.toNat_setWidth, BitVec.toNat_ofNat]
        omega
    · simp only [if_neg few]
      rfl
  unfold mountFs
  simp only [formatBpb_read]
  rw [if_neg (by simp [formatFs])]
  simp only [total]
  congr 2
  have rootdir : BitVec.ofNat 32 ((0 * dirEntryStructSize + 511) / 512) = 0 := by decide
  change BitVec.ofNat 32 totalSectors - (BitVec.ofNat 32 totalSectors -
      (32 : BitVec 16).setWidth 32 - (2 : BitVec 8).setWidth 32 * (0 : BitVec 16).setWidth 32 -
      BitVec.ofNat 32 ((0 * dirEntryStructSize + 511) / 512) -
      (2 : BitVec 8).setWidth 32 * BitVec.ofNat 32 fatSectors) = BitVec.ofNat 32 (32 + 2 * fatSectors)
  rw [rootdir]
  apply BitVec.eq_of_toNat_eq
  simp
  omega

/-! ## The effect of fat32_format -/

/-- A sector of the disk holds `src`. -/
def Holds (data : Bytes) (sector : Nat) (src : Bytes) : Prop :=
  ∀ k < 512, data (512 * sector + k) = src k

/-- The sectors from `low` to below `high` hold `src`, and nothing else has changed. -/
def PaintedRow (low high : Nat) (src data after : Bytes) : Prop :=
  paint {q | low ≤ q ∧ q < high} src data after

theorem paint.row {sectors : Set Nat} {src data after : Bytes} (paints : paint sectors src data after)
    {low high : Nat} (same : ∀ q, q ∈ sectors ↔ low ≤ q ∧ q < high) :
    PaintedRow low high src data after := by
  rw [PaintedRow, ← show sectors = {q | low ≤ q ∧ q < high} from Set.ext same]
  exact paints

namespace PaintedRow

variable {low high q : Nat} {src data after : Bytes} (row : PaintedRow low high src data after)

include row

theorem inside (above : low ≤ q) (below : q < high) : Holds after q src := by
  intro k few
  have sector : (512 * q + k) / 512 = q := by omega
  rw [(row _).1 (by rw [sector]; exact ⟨above, below⟩)]
  congr 1
  omega

theorem outside (elsewhere : q < low ∨ high ≤ q) {src' : Bytes} :
    Holds after q src' ↔ Holds data q src' := by
  have same : ∀ k < 512, after (512 * q + k) = data (512 * q + k) := by
    intro k few
    have sector : (512 * q + k) / 512 = q := by omega
    refine (row _).2 ?_
    rw [sector]
    rintro ⟨above, below⟩
    omega
  exact ⟨fun holds k few => by rw [← same k few, holds k few],
    fun holds k few => by rw [same k few, holds k few]⟩

end PaintedRow

theorem mem_single {a q : Nat} (small : a < 2 ^ 32) :
    q ∈ ({w32 a} : Set Nat) ↔ a ≤ q ∧ q < a + 1 := by
  rw [Set.mem_singleton_iff, w32_of_lt small]
  omega

/-- What `fat32_format` leaves of a disk with these contents. -/
structure Formatted (totalSectors fatSectors serial : Nat) (before after : Bytes) : Prop where
  boot : Holds after 0 (formatBpb totalSectors fatSectors serial)
  start : Holds after 32 fatStart
  startCopy : Holds after (32 + fatSectors) fatStart
  blank : ∀ q, 1 ≤ q → q ≤ fatSectors / 2 → Holds after (32 + q) fun _ => 0
  missed : ∀ q, fatSectors / 2 < q → q < fatSectors → ∀ src,
    Holds after (32 + q) src ↔ Holds before (32 + q) src
  blankCopy : ∀ q, 1 ≤ q → q < fatSectors → Holds after (32 + fatSectors + q) fun _ => 0
  root : Holds after (32 + 2 * fatSectors) fun _ => 0

section Format

variable {s : Machine} {disk : DiskId} {totalSectors fatSectors : Nat}

/-- The disk after `fat32_format`, and the machine. -/
theorem fat32Format_formats (reliable : s.Reliable) (memory : s.world.noMemory s.mallocs = false)
    (total : (s.disk disk).total / 512 = totalSectors) (small : totalSectors < 2 ^ 32)
    (sectors : formatFatSectors totalSectors = fatSectors) (some_ : 2 ≤ fatSectors)
    (fits : 32 + 2 * fatSectors < 2 ^ 32) :
    ∃ t data, fat32Format disk s = some (.ok (), t) ∧
      Formatted totalSectors fatSectors (s.world.timestamp s.io).toNat (s.disk disk).data data ∧
      t.world = s.world ∧
      t.toCore = (((s.toCore.setData disk data).withFs disk (s.world.address s.mallocs)
        (formatFs totalSectors fatSectors)).withFree disk
          (reportedFree (formatFs totalSectors fatSectors) data)) := by
  suffices spec : wp (fat32Format disk)
      (fun _ t => ∃ data,
        Formatted totalSectors fatSectors (s.world.timestamp s.io).toNat (s.disk disk).data data ∧
        t.world = s.world ∧
        t.toCore = (((s.toCore.setData disk data).withFs disk (s.world.address s.mallocs)
          (formatFs totalSectors fatSectors)).withFree disk
            (reportedFree (formatFs totalSectors fatSectors) data)))
      (fun _ _ => False) s by
    obtain ⟨⟨⟩, t, run, data, rest⟩ := wp_run spec
    exact ⟨t, data, run, rest⟩
  rw [fat32Format, wp_bind, wp_note, wp_bind, wp_state]
  extract_lets total' sectors'
  have sameTotal : totalSectors = total' := total.symm
  have sameSectors : fatSectors = sectors' := by rw [← sectors, sameTotal]
  clear_value sectors' total'
  subst sameTotal sameSectors
  have start : s.ran s.toCore s.io (.format disk :: s.trace) =
      s.ran (s.toCore.setData disk (s.disk disk).data) s.io (.format disk :: s.trace) := by
    rw [setData_self]
  rw [start, ran_world, ran_io]
  rw [wp_bind]
  refine (writeSector_paints _ _).apply reliable fun data1 _ _ boot => ?_
  rw [wp_bind]
  refine (writeSector_paints _ _).apply reliable fun data2 _ _ fat => ?_
  rw [wp_bind]
  refine (forUp_paints (fun j => writeSector_paints _ _) _ _).apply reliable fun data3 _ _ copy => ?_
  rw [wp_bind]
  refine (writeSector_paints _ _).apply reliable fun data4 _ _ second => ?_
  rw [wp_bind]
  refine (forUp_paints (fun j => writeSector_paints _ _) _ _).apply reliable fun data5 _ _ half => ?_
  rw [wp_bind]
  refine (forUp_paints (fun i => forUp_paints (fun j => writeSector_paints _ _) _ _) _ _).apply
    reliable fun data6 _ _ all => ?_
  rw [wp_bind]
  refine (writeSector_paints _ _).apply reliable fun data7 _ _ info => ?_
  rw [wp_bind]
  refine (forUp_paints (fun j => writeSector_paints _ _) _ _).apply reliable fun data8 _ _ root => ?_
  have boot := boot.row fun q => mem_single (by omega)
  have fat := fat.row fun q => mem_single (by omega)
  have second := second.row fun q => mem_single (by omega)
  have info := info.row fun q => mem_single (by omega)
  have copy : PaintedRow (32 + fatSectors) (32 + fatSectors + 1) fatStart data2 data3 := by
    refine copy.row fun q => ⟨?_, fun single => ⟨1, by omega, by omega, ?_⟩⟩
    · rintro ⟨j, low, high, single⟩
      obtain rfl : j = 1 := by omega
      rwa [Nat.mul_one, mem_single (by omega)] at single
    · rwa [Nat.mul_one, mem_single (by omega)]
  have half : PaintedRow 34 (33 + fatSectors / 2) (fun _ => 0) data4 data5 := by
    refine half.row fun q => ⟨?_, fun row => ⟨q - 33, by omega, by omega, ?_⟩⟩
    · rintro ⟨j, low, high, single⟩
      rw [mem_single (by omega)] at single
      omega
    · rw [mem_single (by omega)]
      omega
  have all : PaintedRow (33 + fatSectors) (32 + 2 * fatSectors) (fun _ => 0) data5 data6 := by
    refine all.row fun q => ⟨?_, fun row => ⟨1, by omega, by omega, q - 32 - fatSectors, by omega,
      by omega, ?_⟩⟩
    · rintro ⟨i, low, high, j, low', high', single⟩
      obtain rfl : i = 1 := by omega
      rw [mem_single (by omega)] at single
      omega
    · rw [mem_single (by omega)]
      omega
  have root : PaintedRow (32 + 2 * fatSectors) (32 + 2 * fatSectors + 1) (fun _ => 0) data7
      data8 := by
    refine root.row fun q => ⟨?_, fun single => ⟨0, by omega, by omega, ?_⟩⟩
    · rintro ⟨j, low, high, single⟩
      obtain rfl : j = 0 := by omega
      rwa [Nat.add_zero, mem_single (by omega)] at single
    · rwa [Nat.add_zero, mem_single (by omega)]
  have formatted : Formatted totalSectors fatSectors (s.world.timestamp s.io).toNat
      (s.disk disk).data data8 := by
    refine ⟨?_, ?_, ?_, ?_, ?_, ?_, ?_⟩
    · rw [root.outside (by omega), info.outside (by omega), all.outside (by omega),
        half.outside (by omega), second.outside (by omega), copy.outside (by omega),
        fat.outside (by omega)]
      exact boot.inside (by omega) (by omega)
    · rw [root.outside (by omega), info.outside (by omega), all.outside (by omega),
        half.outside (by omega), second.outside (by omega), copy.outside (by omega)]
      exact fat.inside (by omega) (by omega)
    · rw [root.outside (by omega), info.outside (by omega), all.outside (by omega),
        half.outside (by omega), second.outside (by omega)]
      exact copy.inside (by omega) (by omega)
    · intro q low high
      rw [root.outside (by omega), info.outside (by omega), all.outside (by omega)]
      by_cases first : q = 1
      · rw [half.outside (by omega)]
        exact second.inside (by omega) (by omega)
      · exact half.inside (by omega) (by omega)
    · intro q low high src
      rw [root.outside (by omega), info.outside (by omega), all.outside (by omega),
        half.outside (by omega), second.outside (by omega), copy.outside (by omega),
        fat.outside (by omega), boot.outside (by omega)]
    · intro q low high
      rw [root.outside (by omega), info.outside (by omega)]
      exact all.inside (by omega) (by omega)
    · exact root.inside (by omega) (by omega)
  have accepts : mountFs data8 = some (formatFs totalSectors fatSectors) := by
    rw [← formatBpb_mount (s.world.timestamp s.io).toNat small]
    refine mountFs_congr fun i low => ?_
    have first := formatted.boot i low
    rwa [Nat.mul_zero, Nat.zero_add] at first
  refine wp_mono (fat32Check_mounts disk reliable.ran memory (by simpa using accepts) rfl) ?_
    (fun _ _ never => never)
  rintro - t ⟨world, core⟩
  refine ⟨data8, formatted, world, ?_⟩
  rw [core]
  simp

end Format

/-! ## The empty volume -/

/-- Entry `j` of the first FAT copy. -/
def fatWord (f : Fs) (data : Bytes) (j : Nat) : BitVec 32 :=
  word data (512 * f.reservedSectors + 4 * j)

/-- A FAT with nothing allocated but the root directory. -/
structure EmptyFat (f : Fs) (data : Bytes) : Prop where
  copies : ∀ k < f.numFats, ∀ q < f.fatSectors, ∀ i < 512,
    data (512 * (f.reservedSectors + k * f.fatSectors + q) + i) =
      data (512 * (f.reservedSectors + q) + i)
  media : fatWord f data 0 = 0x0ffffff8
  endMark : fatWord f data 1 = 0x0fffffff
  rootMark : fatWord f data 2 = 0x0ffffff8
  free : ∀ j, 3 ≤ j → j < f.fatSectors * 128 → fatWord f data j = 0

/-- The root directory opens, and has no entries to read. -/
def ListsNothing (disk : DiskId) (s : Machine) : Prop :=
  wp (fat32DirOpen disk [0x2f]) (fun dir _ => ∀ entry, (fat32DirRead dir entry).1 = none)
    (fun _ _ => False) s

/-- The part of the first FAT copy that no loop of `fat32_format` writes. -/
def MissedBlank (fatSectors : Nat) (data : Bytes) : Prop :=
  ∀ q, fatSectors / 2 < q → q < fatSectors → Holds data (32 + q) fun _ => 0

section Empty

variable {totalSectors fatSectors serial : Nat} {before after : Bytes}

theorem word_of_holds {data src : Bytes} {q i : Nat} (holds : Holds data q src) (low : i ≤ 508) :
    word data (512 * q + i) = word src i := by
  rw [← word_slice]
  exact word_congr fun k _ high => holds k (by omega)

theorem word_zero {i : Nat} : word (fun _ => 0) i = 0 := by
  change (0#8 ++ 0#8 ++ 0#8 ++ 0#8 : BitVec 32) = 0
  decide

theorem formatFs_reservedSectors : (formatFs totalSectors fatSectors).reservedSectors = 32 := rfl

theorem formatFs_numFats : (formatFs totalSectors fatSectors).numFats = 2 := rfl

theorem formatFs_clusterSectors : (formatFs totalSectors fatSectors).clusterSectors = 2 ^ 0 := rfl

theorem formatFs_firstDataCluster (fits : 32 + 2 * fatSectors < 2 ^ 32) :
    (formatFs totalSectors fatSectors).firstDataCluster.toNat = 32 + 2 * fatSectors := by
  simp only [formatFs, BitVec.toNat_ofNat]
  exact Nat.mod_eq_of_lt fits

theorem formatFs_clusterSize : (formatFs totalSectors fatSectors).clusterSize = 512 := by
  simp [Fs.clusterSize, Fs.clusterSectors, formatFs]

theorem formatFs_fatSectors (totalSectors : Nat) (small : fatSectors < 2 ^ 32) :
    (formatFs totalSectors fatSectors).fatSectors = fatSectors := by
  simp only [Fs.fatSectors, formatFs, BitVec.toNat_ofNat]
  exact Nat.mod_eq_of_lt small

theorem fatStart_zero {k : Nat} (behind : 12 ≤ k) : fatStart k = 0 := by
  have length : (le 4 (0x0fffff00 + 0xf8) ++ le 4 0x0fffffff ++ le 4 0x0ffffff8).length = 12 := rfl
  exact List.getD_eq_default _ _ (by rw [length]; exact behind)

theorem Formatted.emptyFat_iff (formatted : Formatted totalSectors fatSectors serial before after)
    (some_ : 2 ≤ fatSectors) (small : fatSectors < 2 ^ 32) :
    EmptyFat (formatFs totalSectors fatSectors) after ↔ MissedBlank fatSectors before := by
  have fat := formatFs_fatSectors totalSectors small
  have first (j : Nat) (low : j < 128) :
      fatWord (formatFs totalSectors fatSectors) after j = word fatStart (4 * j) := by
    rw [fatWord, formatFs_reservedSectors]
    exact word_of_holds formatted.start (by omega)
  constructor
  · intro empty q low high
    rw [← formatted.missed q low high]
    intro i few
    have copy := empty.copies 1 (by rw [formatFs_numFats]; omega) q (by omega) i few
    rw [Nat.one_mul, fat, formatFs_reservedSectors] at copy
    rw [← copy, formatted.blankCopy q (by omega) high i few]
  · intro blank
    -- every sector of the first copy but the first is zero
    have zero (q : Nat) (low : 1 ≤ q) (high : q < fatSectors) : Holds after (32 + q) fun _ => 0 := by
      by_cases half : q ≤ fatSectors / 2
      · exact formatted.blank q low half
      · rw [formatted.missed q (by omega) high]
        exact blank q (by omega) high
    refine ⟨fun k copy q inFat i few => ?_, (first 0 (by decide)).trans (by decide +kernel),
      (first 1 (by decide)).trans (by decide +kernel),
      (first 2 (by decide)).trans (by decide +kernel), fun j low high => ?_⟩
    · rw [fat] at inFat ⊢
      rw [formatFs_numFats] at copy
      have two : k = 0 ∨ k = 1 := by omega
      rcases two with rfl | rfl
      · rw [Nat.zero_mul, Nat.add_zero]
      · rw [Nat.one_mul]
        rw [formatFs_reservedSectors]
        by_cases head : q = 0
        · rw [head, Nat.add_zero, Nat.add_zero, formatted.startCopy i few, formatted.start i few]
        · rw [formatted.blankCopy q (by omega) inFat i few, zero q (by omega) inFat i few]
    · rw [fat] at high
      by_cases low' : j < 128
      · rw [first j low']
        have bytes : word fatStart (4 * j) = word (fun _ => 0) (4 * j) :=
          word_congr fun k above _ => fatStart_zero (by omega)
        rw [bytes, word_zero]
      · have place : 512 * (formatFs totalSectors fatSectors).reservedSectors + 4 * j =
            512 * (32 + j / 128) + 4 * (j % 128) := by
          rw [formatFs_reservedSectors]
          omega
        rw [fatWord, place, word_of_holds (zero (j / 128) (by omega) (by omega)) (by omega),
          word_zero]

/-- Entries that are not valid are skipped to the end. -/
theorem skipInvalid_end {dir : FatDir} (left i : Nat) (name : Bytes)
    (invalid : ∀ k, i ≤ k → k < i + left → isValidEntry (dir.entry k) = false) :
    (skipInvalid dir left i name).1 = i + left := by
  induction left generalizing i name with
  | zero => rfl
  | succ left ih =>
      rw [skipInvalid, if_neg (by rw [invalid i le_rfl (by omega)]; decide),
        ih (i + 1) _ fun k low high => invalid k (by omega) (by omega)]
      omega

theorem dirRead_none {dir : FatDir} (start : dir.i ≤ dir.num)
    (invalid : ∀ k < dir.num, isValidEntry (dir.entry k) = false) (entry : DirEntry) :
    (fat32DirRead dir entry).1 = none := by
  have last := skipInvalid_end (dir.num - dir.i) dir.i entry.name
    fun k _ high => invalid k (by omega)
  unfold fat32DirRead
  simp only [last]
  rw [if_pos (by omega)]

/-- The root directory of the new volume, as the FAT and the data region have it. -/
theorem Formatted.rootDir (formatted : Formatted totalSectors fatSectors serial before after)
    (fits : 32 + 2 * fatSectors < 2 ^ 32) :
    DirChain (formatFs totalSectors fatSectors) after (fun _ => 2) 1 := by
  have next : nextOf (formatFs totalSectors fatSectors) after 2 = 0xfffffff8 := by
    have sector : (formatFs totalSectors fatSectors).entrySector 2 = 32 := by
      rw [entrySector_eq, show fat32Sector 2 = 0 by decide, formatFs_reservedSectors]
    have offset : fat32Offset 2 = 8 := by decide
    have entry : fatEntry (formatFs totalSectors fatSectors) after 2 = word fatStart 8 := by
      rw [fatEntry, sector, offset]
      exact word_of_holds formatted.start (by decide)
    rw [nextOf, entry]
    decide +kernel
  refine ⟨⟨by decide, by omega, by omega, by rw [next]; decide⟩, fun i _ => ⟨by decide, ?_⟩,
    powerOfTwo formatFs_clusterSectors, by rw [formatFs_clusterSize]; omega⟩
  rw [formatFs_firstDataCluster fits, formatFs_clusterSectors]
  simp
  omega

theorem Formatted.rootStart (formatted : Formatted totalSectors fatSectors serial before after)
    (fits : 32 + 2 * fatSectors < 2 ^ 32) :
    (formatFs totalSectors fatSectors).clusterStart 2 = 512 * (32 + 2 * fatSectors) := by
  rcases getDataClusterOffset_eq ((formatted.rootDir fits).valid 0 (by omega)) with start | empty
  · rw [Fs.clusterStart, start, formatFs_firstDataCluster fits]
    rfl
  · rw [formatFs_clusterSectors] at empty
    omega

theorem rootDir_listsNothing {s : Machine} {disk : DiskId} {fs : FsPtr} (reliable : s.Reliable)
    (ample : s.Ample) (mounted : (s.disk disk).fs = some fs) (synced : s.toCore.Synced disk fs)
    (format : s.fsMem fs = formatFs totalSectors fatSectors)
    (formatted : Formatted totalSectors fatSectors serial before (s.disk disk).data)
    (fits : 32 + 2 * fatSectors < 2 ^ 32) : ListsNothing disk s := by
  have dir : DirChain (s.fsMem fs) (s.disk disk).data (fun _ => 2) 1 := by
    rw [format]
    exact formatted.rootDir fits
  have nothing : Looks disk fs (fat32DirOpen disk [0x2f]) s
      fun dir => ∀ entry, (fat32DirRead dir entry).1 = none := by
    unfold fat32DirOpen
    refine (mallocMemory_looks ample synced).bind ?_
    rintro _ t rfl looked
    have dir' : DirChain (t.fsMem fs) (t.disk disk).data (fun _ => 2) 1 := by
      rwa [looked.fsMem, looked.disks]
    have root : (t.fsMem fs).bpb.rootdirCluster = 2 := by
      rw [looked.fsMem, format]
      rfl
    refine (rootdir_looks (looked.reliable reliable) (looked.ample ample) (looked.mounted mounted)
      looked.synced dir' root).bind ?_
    rintro opened u ⟨-, -, snapshot⟩ again
    refine (ensure_looks again.synced (by decide)).bind fun _ v _ last => ?_
    have top : tokens [] = [] := by decide
    simp only [ne_eq, not_true, if_false, top, openSubdirs]
    refine looks_pure last.synced fun entry => ?_
    rw [looked.fsMem, looked.disks, format] at snapshot
    refine dirRead_none (by rw [snapshot.start]; omega) (fun k low => ?_) entry
    -- the first byte of every entry is zero
    rw [snapshot.num, formatFs_clusterSize, diskEntrySize] at low
    have byte : opened.entry k 0 = 0 := by
      have small : 32 * k < 512 := by omega
      rw [FatDir.entry, slice_apply, Nat.add_zero, diskEntrySize,
        snapshot.entries _ (by rw [formatFs_clusterSize]; omega), fileView, formatFs_clusterSize,
        Nat.mod_eq_of_lt small, formatted.rootStart fits]
      exact formatted.root (32 * k) small
    simp [isValidEntry, isFreeEntry, byte]
  refine wp_mono nothing ?_ (fun _ _ never => never)
  rintro _ _ ⟨value, -⟩
  exact value

end Empty

/-! ## The theorem -/

section Theorem

variable {s : Machine} {disk : DiskId}

/-- The FAT buffer holds nothing that could be taken for a sector of the new volume
or be written to it. -/
def BufferIdle (s : Machine) : Prop :=
  (s.bufChanged = true → s.bufFs = none) ∧ s.bufFs ≠ some (s.world.address s.mallocs)

/-- The sizes of a disk of 1 MB or more. -/
theorem formatFatSectors_bounds {totalSectors : Nat} (large : 2048 ≤ totalSectors)
    (small : totalSectors < 2 ^ 23) :
    16 ≤ formatFatSectors totalSectors ∧ 32 + 2 * formatFatSectors totalSectors < 2 ^ 32 := by
  unfold formatFatSectors w32
  omega

/-- **On a disk of 1 MB or more, `fat32_format` leaves an empty volume exactly when
the second half of the first FAT copy was blank before, behind sector
`fat_sectors / 2`: no loop writes it.**  The root directory lists no entries in any
case, as long as the FAT buffer is idle. -/
theorem format_empty_iff (reliable : s.Reliable) (ample : s.Ample)
    (large : 2 ^ 20 ≤ (s.disk disk).total) (small : (s.disk disk).total < 2 ^ 32) :
    ∃ t p, fat32Format disk s = some (.ok (), t) ∧ (t.disk disk).fs = some p ∧
      (EmptyFat (t.fsMem p) (t.disk disk).data ↔
        MissedBlank (formatFatSectors ((s.disk disk).total / 512)) (s.disk disk).data) ∧
      (BufferIdle s → ListsNothing disk t) := by
  obtain ⟨some_, fits⟩ := formatFatSectors_bounds
    (show 2048 ≤ (s.disk disk).total / 512 by omega) (by omega)
  obtain ⟨t, data, run, formatted, world, core⟩ := fat32Format_formats reliable (ample s.mallocs)
    rfl (show (s.disk disk).total / 512 < 2 ^ 32 by omega) rfl (by omega) fits
  have mounted : (t.disk disk).fs = some (s.world.address s.mallocs) := by
    rw [core]
    simp [Core.withFree, Core.withFs]
  have bytes : (t.disk disk).data = data := by
    rw [core]
    simp [Core.withFree, Core.withFs]
  have object : t.fsMem (s.world.address s.mallocs) =
      formatFs ((s.disk disk).total / 512) (formatFatSectors ((s.disk disk).total / 512)) := by
    rw [core]
    simp [Core.withFree, Core.withFs]
  refine ⟨t, _, run, mounted, ?_, ?_⟩
  · rw [bytes, object]
    exact formatted.emptyFat_iff (by omega) (by omega)
  · rintro ⟨clean, other⟩
    have bufFs : t.bufFs = s.bufFs := by rw [core]; rfl
    have bufChanged : t.bufChanged = s.bufChanged := by rw [core]; rfl
    refine rootDir_listsNothing (fun n => by rw [world]; exact reliable n)
      (fun n => by rw [world]; exact ample n) mounted ⟨?_, fun held => ?_⟩ object
      (by rwa [bytes]) fits
    · rw [bufChanged, bufFs]
      exact clean
    · rw [bufFs] at held
      exact (other held).elim

/-- A 1 MB disk that holds `data`, and an empty FAT buffer. -/
def oneMegabyte (data : Bytes) : Machine := Machine.mounted (fun _ => smallFs 2 16 64) fun _ => data

theorem oneMegabyte_total (data : Bytes) : ((oneMegabyte data).disk 0).total = 2 ^ 20 := by
  have sectors : (smallFs 2 16 64).totalSectors.toNat = 2048 := by decide +kernel
  simp only [oneMegabyte, Machine.mounted, sectors]
  decide

theorem oneMegabyte_reliable (data : Bytes) : (oneMegabyte data).Reliable := mounted_reliable _ _

theorem format_empty_iff_megabyte :
    ∃ t p, fat32Format 0 (oneMegabyte fun _ => 0) = some (.ok (), t) ∧ (t.disk 0).fs = some p ∧
      (EmptyFat (t.fsMem p) (t.disk 0).data ↔
        MissedBlank (formatFatSectors (((oneMegabyte fun _ => 0).disk 0).total / 512))
          ((oneMegabyte fun _ => 0).disk 0).data) ∧
      (BufferIdle (oneMegabyte fun _ => 0) → ListsNothing 0 t) :=
  format_empty_iff (oneMegabyte_reliable _) (fun _ => rfl) (by rw [oneMegabyte_total])
    (by rw [oneMegabyte_total]; decide)

/-- A disk of ones keeps its old sectors 41 to 47: the FAT is not empty. -/
theorem format_keeps_old_fat :
    ∃ t p, fat32Format 0 (oneMegabyte fun _ => 1) = some (.ok (), t) ∧ (t.disk 0).fs = some p ∧
      ¬ EmptyFat (t.fsMem p) (t.disk 0).data := by
  have total : ((oneMegabyte fun _ => 1).disk 0).total / 512 = 2048 := by
    rw [oneMegabyte_total]
    decide
  have sectors : formatFatSectors 2048 = 16 := by decide +kernel
  obtain ⟨t, data, run, formatted, world, core⟩ := fat32Format_formats
    (oneMegabyte_reliable _) rfl total (by decide) sectors (by decide) (by decide)
  have address : (oneMegabyte fun _ => 1).world.address (oneMegabyte fun _ => 1).mallocs = 0 := rfl
  rw [address] at core
  have mounted : (t.disk 0).fs = some 0 := by
    rw [core]
    simp [Core.withFree, Core.withFs]
  have bytes : (t.disk 0).data = data := by
    rw [core]
    simp [Core.withFree, Core.withFs]
  have object : t.fsMem 0 = formatFs 2048 16 := by
    rw [core]
    simp [Core.withFree, Core.withFs]
  refine ⟨t, 0, run, mounted, ?_⟩
  rw [bytes, object, formatted.emptyFat_iff (by decide) (by decide)]
  intro blank
  have zero : (1 : BitVec 8) = 0 := blank 9 (by decide) (by decide) 0 (by decide)
  exact absurd zero (by decide)

end Theorem

end TestOs.Fat32
