/-
# Fat32.Mounting -- the check that every disk goes through at boot

`fat32_check` reads the geometry of a volume from sector 0, and takes all of it
as it is but two magic numbers.  It divides by the sector size, it walks a buffer
of one sector of 512 bytes by it, and a volume without sectors in a cluster is
mounted like any other.

`fat32CheckGuarded` is the same function with the bounds of the buffer checked.
It returns, and mounts a volume whose clusters have sectors, exactly when these
fields of sector 0 are what the function takes them for (`mount_safe_iff`).
-/
import TestOs.Library.Guards
import TestOs.Fat32.Geometry

namespace TestOs.Fat32

open TestOs.Library Prog

set_option autoImplicit false

/-! ## The bounds of the buffer -/

/-- `countFree`, which stops at a read outside `fs_info.buffer`. -/
def countFreeGuarded (disk : DiskId) (sectorSize : Nat) :
    Nat → Nat → Nat → Bytes → Nat → FatM Nat
  | 0, _, _, _, free => return free
  | left + 1, sectorCur, sectorOff, buffer, free => do
      ensure (sectorOff + 4 ≤ 512)
      let free := if word buffer sectorOff = 0 then free + 1 else free
      let sectorOff := w16 (sectorOff + 4)
      if sectorSize ≤ sectorOff then
        let (_, buffer) ← deviceRead disk (w16 (sectorCur + 1)) buffer 0 1
        countFreeGuarded disk sectorSize left (w16 (sectorCur + 1)) 0 buffer free
      else countFreeGuarded disk sectorSize left sectorCur sectorOff buffer free

/-- `countDisk`, with `countFreeGuarded`. -/
def countDiskGuarded (disk : DiskId) (bpb : Bpb) : FatM Unit := do
  let entriesEnd := w32 (bpb.extFatSectors.toNat * bpb.sectorSize.toNat) / 4
  ensure (bpb.reservedSectors.toNat * bpb.sectorSize.toNat < 2 ^ 31)
  let sectorCur ← divide (bpb.reservedSectors.toNat * bpb.sectorSize.toNat) bpb.sectorSize.toNat
  let sectorOff := bpb.reservedSectors.toNat * bpb.sectorSize.toNat % bpb.sectorSize.toNat
  let m ← state
  let (_, buffer) ← deviceRead disk (w16 sectorCur) (m.world.stray m.io) 0 1
  let free ← countFreeGuarded disk bpb.sectorSize.toNat entriesEnd (w16 sectorCur) (w16 sectorOff)
    buffer 0
  update fun m => { m with
    disk := Function.update m.disk disk
      { m.disk disk with
        free := w32 (free * bpb.clusterSectors.toNat * bpb.sectorSize.toNat)
        used := w32 ((m.disk disk).total + 2 ^ 32 -
          w32 (free * bpb.clusterSectors.toNat * bpb.sectorSize.toNat)) } }

/-- `fat32Check`, with `countDiskGuarded`. -/
def fat32CheckGuarded (disk : DiskId) : FatM Unit := do
  let (ok, boot) ← deviceRead disk 0 (fun _ => 0) 0 1
  match if ok then mountFs boot else none with
  | none => fail .enoent
  | some fs =>
      let p ← mallocFs
      setDiskFs disk p
      match p with
      | none => fail .enoent
      | some p =>
          storeFs p fs
          countDiskGuarded disk fs.bpb

theorem countFreeGuarded_follows (disk : DiskId) (sectorSize left sectorCur sectorOff free : Nat)
    (buffer : Bytes) :
    Follows (countFreeGuarded disk sectorSize left sectorCur sectorOff buffer free)
      (countFree disk sectorSize left sectorCur sectorOff buffer free) := by
  induction left generalizing sectorCur sectorOff free buffer with
  | zero => exact .refl _
  | succ left ih =>
      refine Follows.ensure fun _ => Follows.ite ?_ (ih _ _ _ _)
      exact (Follows.refl _).bind fun _ => ih _ _ _ _

theorem countDiskGuarded_follows (disk : DiskId) (bpb : Bpb) :
    Follows (countDiskGuarded disk bpb) (countDisk disk bpb) := by
  refine (Follows.refl _).bind fun _ => (Follows.refl _).bind fun _ => (Follows.refl _).bind
    fun _ => (Follows.refl _).bind fun _ => ?_
  exact (countFreeGuarded_follows _ _ _ _ _ _ _).bind fun _ => .refl _

/-- The guarded function does what `fat32_check` does. -/
theorem fat32CheckGuarded_follows (disk : DiskId) :
    Follows (fat32CheckGuarded disk) (fat32Check disk) := by
  refine (Follows.refl _).bind fun (ok, boot) => ?_
  show Follows (match if ok = true then mountFs boot else none with | none => _ | some fs => _)
    (match if ok = true then mountFs boot else none with | none => _ | some fs => _)
  cases if ok = true then mountFs boot else none with
  | none => exact .refl _
  | some fs =>
      refine (Follows.refl _).bind fun p => (Follows.refl _).bind fun _ => ?_
      cases p with
      | none => exact .refl _
      | some p => exact (Follows.refl _).bind fun _ => countDiskGuarded_follows _ _

/-! ## When it returns -/

/-- The fields of sector 0 are what `fat32_check` takes them for. -/
structure Bpb.Sane (bpb : Bpb) : Prop where
  sectorSize : bpb.sectorSize.toNat ≠ 0
  reserved : bpb.reservedSectors.toNat * bpb.sectorSize.toNat < 2 ^ 31
  buffer : bpb.sectorSize.toNat ≤ 512 ∨
    w32 (bpb.extFatSectors.toNat * bpb.sectorSize.toNat) / 4 ≤ 128
  clusterSectors : bpb.clusterSectors.toNat ≠ 0

section Returns

variable {disk : DiskId} {m : Machine} {f : Fs} {onFail : FatError → Machine → Prop}

/-- The offsets in the buffer are those of the entries up to the sector size. -/
theorem countFreeGuarded_returns_iff {sectorSize left sectorCur sectorOff free : Nat}
    {buffer : Bytes} (aligned : sectorOff % 4 = 0) (below : sectorOff < sectorSize)
    (inside : sectorOff ≤ 512) :
    wp (countFreeGuarded disk sectorSize left sectorCur sectorOff buffer free)
        (fun _ _ => True) onFail m ↔
      sectorSize ≤ 512 ∨ sectorOff / 4 + left ≤ 128 := by
  induction left generalizing sectorCur sectorOff free buffer m with
  | zero => exact iff_of_true trivial (.inr (by omega))
  | succ left ih =>
      unfold countFreeGuarded
      rw [wp_bind, wp_ensure]
      by_cases fits : sectorOff + 4 ≤ 512
      · have next : w16 (sectorOff + 4) = sectorOff + 4 := by
          unfold w16
          omega
        rw [next, and_iff_right fits]
        by_cases full : sectorSize ≤ sectorOff + 4
        · -- the whole sector fits in the buffer
          rw [if_pos full, wp_bind, wp_deviceRead]
          refine (ih (by decide) (by omega) (by omega)).trans ?_
          omega
        · rw [if_neg full]
          refine (ih (by omega) (by omega) fits).trans ?_
          omega
      · refine iff_of_false (fun holds => fits holds.1) ?_
        omega

theorem countDiskGuarded_returns_iff (bpb : Bpb) :
    wp (countDiskGuarded disk bpb) (fun _ _ => True) onFail m ↔
      bpb.reservedSectors.toNat * bpb.sectorSize.toNat < 2 ^ 31 ∧ bpb.sectorSize.toNat ≠ 0 ∧
        (bpb.sectorSize.toNat ≤ 512 ∨
          w32 (bpb.extFatSectors.toNat * bpb.sectorSize.toNat) / 4 ≤ 128) := by
  unfold countDiskGuarded
  simp only [wp_bind, wp_ensure, wp_divide, wp_state, wp_deviceRead, wp_update]
  refine and_congr_right fun _ => and_congr_right fun sized => ?_
  have start : w16 (bpb.reservedSectors.toNat * bpb.sectorSize.toNat % bpb.sectorSize.toNat) = 0 := by
    rw [Nat.mul_mod_left]
    rfl
  rw [start]
  refine (countFreeGuarded_returns_iff rfl (by omega) (by omega)).trans ?_
  rw [Nat.zero_div, Nat.zero_add]

/-- The volume that is about to be checked: sector 0 can be read and is accepted,
and there is memory for it. -/
def Machine.Mounts (m : Machine) (disk : DiskId) (f : Fs) : Prop :=
  m.world.fault m.io = none ∧ mountFs (m.disk disk).data = some f ∧
    m.world.noMemory m.mallocs = false

theorem fat32CheckGuarded_mounts (mounts : m.Mounts disk f) :
    wp (fat32CheckGuarded disk) (fun _ _ => True) onFail m ↔
      f.bpb.reservedSectors.toNat * f.bpb.sectorSize.toNat < 2 ^ 31 ∧ f.bpb.sectorSize.toNat ≠ 0 ∧
        (f.bpb.sectorSize.toNat ≤ 512 ∨
          w32 (f.bpb.extFatSectors.toNat * f.bpb.sectorSize.toNat) / 4 ≤ 128) := by
  obtain ⟨fault, boot, memory⟩ := mounts
  have same := (read_mountFs disk fault).trans boot
  unfold fat32CheckGuarded mallocFs setDiskFs storeFs
  simp only [wp_bind, wp_deviceRead, fault, Option.isNone_none, if_true, same, wp_state, wp_update,
    wp_pure, ran_world, ran_mallocs, memory, Bool.false_eq_true, if_false]
  exact countDiskGuarded_returns_iff f.bpb

theorem fat32CheckGuarded_refuses (refused : ∀ f, ¬ m.Mounts disk f) :
    wp (fat32CheckGuarded disk) (fun _ _ => False) (fun _ _ => True) m := by
  unfold fat32CheckGuarded
  rw [wp_bind, wp_deviceRead]
  cases fault : m.world.fault m.io with
  | some done => exact trivial
  | none =>
      have same := read_mountFs disk fault
      cases boot : mountFs (m.disk disk).data with
      | none =>
          simp only [Option.isNone_none, if_true, same, boot]
          exact trivial
      | some f =>
          have memory : m.world.noMemory m.mallocs = true := by
            by_contra some_
            exact refused f ⟨fault, boot, Bool.not_eq_true _ ▸ some_⟩
          unfold mallocFs setDiskFs storeFs
          simp only [Option.isNone_none, if_true, same, boot, wp_bind, wp_state, wp_update, wp_pure,
            ran_world, ran_mallocs, memory]
          exact trivial

end Returns

/-! ## Safety -/

/-- `fat32_check` returns from every division and every read of its buffer, and a
volume that it accepts has sectors in its clusters. -/
structure MountSafe (disk : DiskId) (m : Machine) : Prop where
  returns : ∃ r t, fat32CheckGuarded disk m = some (r, t)
  sectors : ∀ t f, fat32Check disk m = some (.ok (), t) → t.HasMounted disk f →
    f.clusterSectors ≠ 0

theorem Machine.HasMounted.unique {m : Machine} {disk : DiskId} {f g : Fs}
    (mounted : m.HasMounted disk f) (mounted' : m.HasMounted disk g) : f = g := by
  obtain ⟨p, found, rfl⟩ := mounted
  obtain ⟨q, found', rfl⟩ := mounted'
  rw [found] at found'
  cases found'
  rfl

section Safety

variable {disk : DiskId} {m : Machine}

/-- **Mounting is safe exactly when the volume, if it can be read and is accepted,
has a sector size and sectors in a cluster, its reserved sectors are fewer than
2^31 bytes, and its sectors or its FAT fit in the buffer of the check.** -/
theorem mount_safe_iff : MountSafe disk m ↔ ∀ f, m.Mounts disk f → f.bpb.Sane := by
  constructor
  · rintro ⟨⟨r, t, run⟩, sectors⟩ f mounts
    have ends : wp (fat32CheckGuarded disk) (fun _ _ => True) (fun _ _ => True) m := by
      unfold wp
      rw [run]
      cases r <;> exact trivial
    have sane := (fat32CheckGuarded_mounts mounts).1 ends
    have ⟨reserved, sized, buffer⟩ := sane
    refine ⟨sized, reserved, buffer, ?_⟩
    -- the check succeeds, so that what it has mounted is this volume
    obtain ⟨⟨⟩, u, success, -⟩ := wp_run ((fat32CheckGuarded_mounts mounts).2 sane)
    have checked := fat32CheckGuarded_follows disk m _ success
    exact sectors u f checked (wlp_ok (fat32Check_finds mounts.2.1) checked)
  · intro sane
    by_cases refused : ∀ f, ¬ m.Mounts disk f
    · rcases wp_iff_run.1 (fat32CheckGuarded_refuses refused) with
        ⟨_, _, _, never⟩ | ⟨e, t, run, -⟩
      · exact never.elim
      · refine ⟨⟨_, t, run⟩, fun u f success _ => ?_⟩
        rw [fat32CheckGuarded_follows disk m _ run] at success
        cases success
    · push Not at refused
      obtain ⟨f, mounts⟩ := refused
      obtain ⟨sized, reserved, buffer, sectors⟩ := sane f mounts
      obtain ⟨⟨⟩, t, run, -⟩ := wp_run ((fat32CheckGuarded_mounts mounts).2 ⟨reserved, sized, buffer⟩)
      refine ⟨⟨_, t, run⟩, fun u g success mounted => ?_⟩
      rw [(wlp_ok (fat32Check_finds mounts.2.1) success).unique mounted] at sectors
      exact sectors

end Safety

/-- A disk with this in sector 0. -/
def bootDisk (boot : Bytes) : Machine := Machine.mounted (fun _ => smallFs 2 16 64) fun _ => boot

/-- A boot sector with another high byte in its sector size. -/
def resized (high : BitVec 8) (boot : Bytes) : Bytes := fun i => if i = 12 then high else boot i

/-- A sector size of 0 stops the kernel, one of 1024 makes the check read behind its
buffer, and a volume without sectors in a cluster is mounted. -/
theorem mounting_traps :
    ¬ MountSafe 0 (bootDisk (resized 0 (bootSector 1 32 2 2048 16))) ∧
    (fat32Check 0 (bootDisk (resized 0 (bootSector 1 32 2 2048 16)))).isNone ∧
    (fat32Check 0 (bootDisk (resized 4 (bootSector 1 32 2 2048 1)))).isSome ∧
    (fat32CheckGuarded 0 (bootDisk (resized 4 (bootSector 1 32 2 2048 1)))).isNone ∧
    (fat32Check 0 (bootDisk (bootSector 0 32 2 2048 1))).map (fun (r, t) =>
      (r, (t.disk 0).fs.map fun p => (t.fsMem p).clusterSectors)) = some (.ok (), some 0) := by
  have stops : (fat32Check 0 (bootDisk (resized 0 (bootSector 1 32 2 2048 16)))).isNone := by
    decide +kernel
  refine ⟨?_, stops, by decide +kernel, by decide +kernel, by decide +kernel⟩
  rintro ⟨⟨r, t, run⟩, -⟩
  rw [fat32CheckGuarded_follows 0 _ _ run] at stops
  cases stops

end TestOs.Fat32
