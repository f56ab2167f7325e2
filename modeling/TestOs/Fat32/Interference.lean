/-
# Fat32.Interference -- one FAT buffer for all disks

The buffer remembers the `struct fat32_fs` that it was filled under, but not the
disk.  `get_fat32_buffer` makes room by writing a dirty buffer to the disk of the
new request, whatever file system it belongs to, and `fat32_format` frees a
`struct fat32_fs` without a look at the buffer.

`owner` reads off the trace whose FAT is in the buffer: the disk of the latest
fill, unless that disk has been formatted since.  `buffer_unmixed` says which
runs of FAT accesses and formats, on any number of disks, only use the buffer as
its owner's.
-/
import TestOs.Library.Transitions
import TestOs.Fat32.Extending
import TestOs.Fat32.Format

namespace TestOs.Fat32

open TestOs.Library Prog

set_option autoImplicit false

/-! ## Whose FAT is in the buffer -/

/-- The disk that the buffer was filled from last, if it has not been formatted since. -/
def owner : List Event → Option DiskId
  | [] => none
  | .load disk :: _ => some disk
  | .format disk :: earlier => if owner earlier = some disk then none else owner earlier
  | .serve _ :: earlier => owner earlier
  | .writeBack _ :: earlier => owner earlier
  | .write .. :: earlier => owner earlier

/-- The disk as whose FAT the buffer is used. -/
def Event.uses : Event → Option DiskId
  | .serve disk => some disk
  | .writeBack disk => some disk
  | _ => none

/-- The buffer is only served as, and only written to, the FAT of its owner. -/
def Unmixed : List Event → Prop
  | [] => True
  | event :: earlier => (event.uses = none ∨ event.uses = owner earlier) ∧ Unmixed earlier

instance decUnmixed : (trace : List Event) → Decidable (Unmixed trace)
  | [] => .isTrue trivial
  | event :: earlier =>
      have := decUnmixed earlier
      inferInstanceAs (Decidable ((event.uses = none ∨ event.uses = owner earlier) ∧ Unmixed earlier))

/-! ## Runs over several disks -/

/-- The machine, and the disks with a file system in use.  A disk whose format
has failed is not one of them, whatever its `fs` points to. -/
structure System where
  machine : Machine
  mounted : DiskId → Bool

/-- A request for a disk; an extension is through any handle on its file system. -/
inductive Op where
  | get (disk : DiskId) (cluster : BitVec 32)
  | set (disk : DiskId) (cluster next : BitVec 32)
  | commit (disk : DiskId)
  | extend (disk : DiskId) (file : FatFile) (newSize : Nat)
  | format (disk : DiskId)

namespace System

/-- A function of fat32.c on a mounted disk, however it ends. -/
def access {α : Type} (s : System) (disk : DiskId) (p : FsPtr → FatM α) : Option System :=
  match s.mounted disk, (s.machine.disk disk).fs with
  | true, some fs => (p fs s.machine).map fun (_, m) => { s with machine := m }
  | _, _ => none

def step (s : System) : Op → Option System
  | .get disk cluster => s.access disk fun fs => getNextClusterFat32 disk fs cluster
  | .set disk cluster next => s.access disk fun fs => setNextClusterFat32 disk fs cluster next
  | .commit disk => s.access disk fun fs => commitFat32Buffer disk fs
  | .extend disk file newSize => s.access disk fun fs =>
      withSnd { file with fs := fs } (fat32ExtendFile disk newSize)
  | .format disk => (fat32Format disk s.machine).map fun (r, m) =>
      { machine := m, mounted := Function.update s.mounted disk r.isOk }

/-- The kernel has started, with a `struct fat32_fs` for each mounted disk. -/
structure Booted (s : System) : Prop where
  empty : s.machine.bufFs = none
  nothing : s.machine.trace = []
  distinct : ∀ d e p, s.mounted d = true → s.mounted e = true →
    (s.machine.disk d).fs = some p → (s.machine.disk e).fs = some p → d = e

/-- `malloc` returns no memory that is in use: the `struct fat32_fs` of another disk. -/
def Allocates (s : System) : Op → Prop
  | .format disk => ∀ e, e ≠ disk → s.mounted e = true →
      (s.machine.disk e).fs ≠ some (s.machine.world.address s.machine.mallocs)
  | _ => True

end System

/-! ## When the buffer is used as its owner's -/

/-- A dirty buffer is of this file system, or of one without FAT copies to write it to. -/
def Core.Settled (c : Core) (fs : FsPtr) : Prop :=
  c.bufChanged = true → ∀ q, c.bufFs = some q → q = fs ∨ (c.fsMem q).numFats = 0

/-- The extension gets as far as the FAT: it adds clusters, and has memory for
their numbers, or it updates the entry of a file. -/
def Reaches (m : Machine) (file : FatFile) (newSize : Nat) : Prop :=
  newSize ≠ 0 ∧ ¬ NoBlocklist (m, file) ((m.fsMem file.fs).blocksNeeded newSize) ∧
    (file.blocklistSize < (m.fsMem file.fs).blocksNeeded newSize ∨
      file.dirEntry.attrib &&& fatAttribDir = 0)

/-- No request comes while the buffer is dirty with another file system, and no
format puts the new `struct fat32_fs` where the buffer's was. -/
def System.Apart (s : System) : Op → Prop
  | .get disk _ => ∀ fs, (s.machine.disk disk).fs = some fs → s.machine.Settled fs
  | .set disk _ _ => ∀ fs, (s.machine.disk disk).fs = some fs → s.machine.Settled fs
  | .commit _ => True
  | .extend disk file newSize => ∀ fs, (s.machine.disk disk).fs = some fs →
      Reaches s.machine { file with fs := fs } newSize → s.machine.Settled fs
  | .format _ => s.machine.world.noMemory s.machine.mallocs = false →
      s.machine.bufFs ≠ some (s.machine.world.address s.machine.mallocs)

/-! ## The invariant -/

/-- The buffer, if it holds the FAT of a mounted disk's file system, was filled
from that disk. -/
structure Coherent (mounted : DiskId → Bool) (m : Machine) : Prop where
  unmixed : Unmixed m.trace
  distinct : ∀ d e p, mounted d = true → mounted e = true →
    (m.disk d).fs = some p → (m.disk e).fs = some p → d = e
  owned : ∀ d p, mounted d = true → (m.disk d).fs = some p → m.bufFs = some p →
    owner m.trace = some d

section Steps

variable {mounted : DiskId → Bool} {m t : Machine} {disk : DiskId} {fs : FsPtr}

/-- The buffer still holds what it held, or nothing. -/
theorem Coherent.keep (before : Coherent mounted m)
    (same : ∀ d, (t.disk d).fs = (m.disk d).fs) (holds : t.bufFs = m.bufFs ∨ t.bufFs = none)
    (unmixed : Unmixed t.trace) (owners : owner t.trace = owner m.trace) :
    Coherent mounted t := by
  refine ⟨unmixed, fun d e p => ?_, fun d p mount here held => ?_⟩
  · rw [same, same]
    exact before.distinct d e p
  · rw [owners]
    rw [same] at here
    rcases holds with holds | holds
    · exact before.owned d p mount here (holds.symm.trans held)
    · rw [holds] at held
      cases held

/-- A request of a mounted disk is under way. -/
structure Requested (mounted : DiskId → Bool) (disk : DiskId) (fs : FsPtr) (m : Machine) : Prop where
  coherent : Coherent mounted m
  inUse : mounted disk = true
  here : (m.disk disk).fs = some fs
  settled : m.Settled fs

theorem Requested.owned (req : Requested mounted disk fs m) (holds : m.bufFs = some fs) :
    owner m.trace = some disk :=
  req.coherent.owned disk fs req.inUse req.here holds

/-! ## One lemma for each access to the buffer -/

/-- A step that leaves the buffer what it is, or forgets it, and the owner too. -/
theorem Requested.keep (req : Requested mounted disk fs m)
    (same : ∀ d, (t.disk d).fs = (m.disk d).fs) (mem : t.fsMem = m.fsMem)
    (holds : t.bufFs = m.bufFs ∨ t.bufFs = none)
    (changed : t.bufChanged = true → m.bufChanged = true) (unmixed : Unmixed t.trace)
    (owners : owner t.trace = owner m.trace) : Requested mounted disk fs t := by
  refine ⟨req.coherent.keep same holds unmixed owners, req.inUse, (same disk).trans req.here, ?_⟩
  intro dirty q held
  rw [mem]
  rcases holds with holds | holds
  · exact req.settled (changed dirty) q (holds.symm.trans held)
  · rw [holds] at held
    cases held

/-- A use of the buffer by its owner. -/
theorem Requested.use (req : Requested mounted disk fs m) (own : owner m.trace = some disk)
    {event : Event} (uses : event.uses = some disk) :
    Requested mounted disk fs (m.ran m.toCore m.io (event :: m.trace)) := by
  have owners : owner (event :: m.trace) = owner m.trace := by
    cases event <;> first | rfl | cases uses
  have fits : Unmixed (event :: m.trace) := ⟨.inr (uses.trans own.symm), req.coherent.unmixed⟩
  exact req.keep (fun _ => rfl) rfl (.inl rfl) id fits owners

theorem deviceWrite_requested (sector : Nat) (src : Bytes) (count : Nat)
    (req : Requested mounted disk fs m) :
    wp (deviceWrite disk sector src count)
      (fun _ t => Requested mounted disk fs t ∧ owner t.trace = owner m.trace ∧
        t.bufFs = m.bufFs)
      (fun _ _ => False) m := by
  rw [wp_deviceWrite]
  have fits : Unmixed (.write m.toCore disk sector count :: m.trace) :=
    ⟨.inl rfl, req.coherent.unmixed⟩
  exact ⟨req.keep (fun _ => setData_fs) rfl (.inl rfl) id fits rfl, rfl, rfl⟩

theorem commitLoop_requested (fatSectors copies sector : Nat)
    (req : Requested mounted disk fs m) (own : copies = 0 ∨ owner m.trace = some disk) :
    let after := fun t : Machine => Requested mounted disk fs t ∧ owner t.trace = owner m.trace ∧
      t.bufFs = m.bufFs
    wp (commitLoop disk fatSectors copies sector) (fun _ t => after t) (fun _ t => after t) m := by
  intro after
  induction copies generalizing m sector with
  | zero => exact ⟨req, rfl, rfl⟩
  | succ copies ih =>
      have owned : owner m.trace = some disk := own.resolve_left (by omega)
      unfold commitLoop
      simp only [wp_bind, wp_note, wp_state]
      apply wp_mono (deviceWrite_requested _ _ _ (req.use owned rfl)) _ (fun _ _ never => never.elim)
      rintro ok t ⟨kept, owners, holds⟩
      split
      · apply wp_mono (ih _ kept (.inr (owners.trans owned)))
        · rintro - u ⟨kept', owners', holds'⟩
          exact ⟨kept', owners'.trans owners, holds'.trans holds⟩
        · rintro e u ⟨kept', owners', holds'⟩
          exact ⟨kept', owners'.trans owners, holds'.trans holds⟩
      · exact ⟨kept, owners, holds⟩

theorem commitFat32Buffer_requested (other : FsPtr) (req : Requested mounted disk fs m)
    (own : m.bufFs = some other → (m.fsMem other).numFats = 0 ∨ owner m.trace = some disk) :
    wp (commitFat32Buffer disk other) (fun _ t => Requested mounted disk fs t)
      (fun _ t => Requested mounted disk fs t) m := by
  unfold commitFat32Buffer
  simp only [wp_bind, wp_state]
  split
  · rename_i holds
    simp only [wp_bind, wp_readFs, wp_state, wp_update]
    apply wp_mono (commitLoop_requested _ _ _ req (own holds))
    · rintro - t ⟨kept, -, -⟩
      exact kept.keep (fun _ => rfl) rfl (.inl rfl) (fun dirty => by cases dirty)
        kept.coherent.unmixed rfl
    · rintro e t ⟨kept, -, -⟩
      exact kept
  · exact req

/-- Filled from a mounted disk, the buffer is the disk's. -/
theorem fillBuffer_requested (sector : Nat) (req : Requested mounted disk fs m) :
    wp (fillBuffer disk fs sector)
      (fun ok t => Requested mounted disk fs t ∧ (ok = true → t.bufFs = some fs))
      (fun _ _ => False) m := by
  unfold fillBuffer forgetBuffer
  simp only [wp_bind, wp_state, wp_deviceRead, wp_update]
  split
  · simp only [wp_bind, wp_note, wp_update, wp_pure]
    refine ⟨⟨⟨⟨.inl rfl, req.coherent.unmixed⟩, req.coherent.distinct, ?_⟩, req.inUse, req.here,
      fun dirty => by cases dirty⟩, fun _ => trivial⟩
    intro d p mount here holds
    cases holds
    rw [req.coherent.distinct d disk fs mount req.inUse here req.here]
    rfl
  · simp only [wp_bind, wp_update, wp_pure]
    refine ⟨?_, fun failed => by cases failed⟩
    exact req.keep (fun _ => rfl) rfl (.inr rfl) id req.coherent.unmixed rfl

theorem getFat32Buffer_requested (sector : Nat) (req : Requested mounted disk fs m) :
    wp (getFat32Buffer disk fs sector)
      (fun ok t => Requested mounted disk fs t ∧ (ok = true → t.bufFs = some fs))
      (fun _ _ => False) m := by
  unfold getFat32Buffer
  simp only [wp_bind, wp_readFs, wp_state]
  split
  · rename_i hit
    exact ⟨req, fun _ => hit.1⟩
  · split
    · rename_i old dirty holds
      -- what is evicted is the disk's own, or has no copies to write
      have own : m.bufFs = some old →
          (m.fsMem old).numFats = 0 ∨ owner m.trace = some disk := by
        intro _
        rcases req.settled dirty old holds with rfl | noCopies
        · exact .inr (req.owned holds)
        · exact .inl noCopies
      simp only [wp_bind, wp_attempt]
      apply wp_mono (commitFat32Buffer_requested old req own)
      · intro _ t kept
        exact fillBuffer_requested _ kept
      · intro e t kept
        simp only [forgetBuffer, wp_update, wp_pure]
        refine ⟨?_, fun failed => by cases failed⟩
        exact kept.keep (fun _ => rfl) rfl (.inr rfl) id kept.coherent.unmixed rfl
    · exact fillBuffer_requested _ req

theorem getNextClusterFat32_requested (cluster : BitVec 32) (req : Requested mounted disk fs m) :
    wp (getNextClusterFat32 disk fs cluster) (fun _ t => Requested mounted disk fs t)
      (fun _ _ => False) m := by
  unfold getNextClusterFat32
  simp only [wp_bind]
  apply wp_mono (getFat32Buffer_requested _ req) _ (fun _ _ never => never)
  rintro ok t ⟨kept, holds⟩
  split
  · rename_i good
    simp only [wp_bind, wp_note, wp_state, wp_pure]
    exact kept.use (kept.owned (holds good)) rfl
  · exact kept

theorem setNextClusterFat32_requested (cluster next : BitVec 32)
    (req : Requested mounted disk fs m) :
    wp (setNextClusterFat32 disk fs cluster next) (fun _ t => Requested mounted disk fs t)
      (fun _ t => Requested mounted disk fs t) m := by
  unfold setNextClusterFat32
  simp only [wp_bind]
  apply wp_mono (getFat32Buffer_requested _ req) _ (fun _ _ never => never.elim)
  rintro ok t ⟨kept, holds⟩
  split
  · rename_i good
    simp only [wp_update]
    -- the buffer is dirty now, but with the disk's own FAT
    refine ⟨⟨kept.coherent.unmixed, kept.coherent.distinct, kept.coherent.owned⟩, kept.inUse,
      kept.here, ?_⟩
    intro _ q held
    exact .inl (Option.some.inj (held.symm.trans (holds good)))
  · exact kept

/-! ## Whole extensions -/

/-- So a request keeps the invariant through everything a file operation does. -/
theorem requested_accesses : Accesses disk fs (Requested mounted disk fs) where
  mounted _ req := req.here
  allocates _ req := req.keep (fun _ => rfl) rfl (.inl rfl) id req.coherent.unmixed rfl
  reads _ req := req.keep (fun _ => rfl) rfl (.inl rfl) id req.coherent.unmixed rfl
  writes sector src count := by
    apply keeps_of_wp
    intro s req
    apply wp_mono (deviceWrite_requested sector src count req) _ (fun _ _ never => never.elim)
    rintro ok t ⟨kept, -, -⟩
    exact ⟨kept, trivial⟩
  gets cluster := by
    apply keeps_of_wp
    intro s req
    exact wp_mono (getNextClusterFat32_requested cluster req) (fun _ _ kept => ⟨kept, trivial⟩)
      (fun _ _ never => never.elim)
  sets cluster next := by
    apply keeps_of_wp
    intro s req
    exact wp_mono (setNextClusterFat32_requested cluster next req)
      (fun _ _ kept => ⟨kept, trivial⟩) (fun _ _ kept => kept)
  commits := by
    apply keeps_of_wp
    intro s req
    apply wp_mono (commitFat32Buffer_requested fs req fun holds => .inr (req.owned holds))
    · exact fun _ _ kept => ⟨kept, trivial⟩
    · exact fun _ _ kept => kept

/-- An extension that does not reach the FAT leaves the machine alone. -/
theorem fat32ExtendFile_idle {file : FatFile} {newSize : Nat}
    (idle : ¬ Reaches m file newSize) :
    let after := fun s : Machine × FatFile => s.1 = m ∨ s.1 = { m with mallocs := m.mallocs + 1 }
    wlp (fat32ExtendFile disk newSize) (fun _ => after) (fun _ => after) (m, file) := by
  intro after
  by_cases zero : newSize = 0
  · unfold fat32ExtendFile fat32ExtendFileWith
    rw [if_pos zero]
    exact .inl rfl
  · have grown : wlp (if file.blocklistSize < (m.fsMem file.fs).blocksNeeded newSize then
          growBlocklist disk ((m.fsMem file.fs).blocksNeeded newSize) else pure ())
        (fun _ s => s = (m, file) ∧ file.dirEntry.attrib &&& fatAttribDir ≠ 0)
        (fun _ => after) (m, file) := by
      rw [wlp_ite]
      constructor
      · intro grows
        have full : NoBlocklist (m, file) ((m.fsMem file.fs).blocksNeeded newSize) := by
          by_contra memory
          exact idle ⟨zero, memory, .inl grows⟩
        unfold growBlocklist numClusters
        simp only [wlp_bind, wlp_theFile, wlp_lift, wlp_readFs, wlp_divide]
        intro _
        apply wlp_mono (reallocBlocklist_wlp _ _) _ (fun _ _ never => never.elim)
        rintro new t ⟨rfl, answer⟩
        rw [full.2] at answer
        simp only [wlp_setFile, answer, if_true, wlp_fail]
        exact .inr rfl
      · intro enough
        refine ⟨rfl, fun regular => idle ⟨zero, fun full => enough full.1, .inr regular⟩⟩
    unfold fat32ExtendFile fat32ExtendFileWith blocksFor numClusters
    simp only [if_neg zero, wlp_bind, wlp_theFile, wlp_lift, wlp_readFs, wlp_divide, wlp_pure]
    intro _
    refine wlp_mono grown ?_ fun _ _ idle => idle
    rintro - s ⟨rfl, directory⟩
    simp only [wlp_setFile, wlp_theFile, if_neg directory, wlp_pure]
    exact .inl rfl

theorem extend_coherent {file : FatFile} {newSize : Nat} (on : file.On fs)
    (req : Reaches m file newSize → Requested mounted disk fs m) (before : Coherent mounted m)
    {r : Except FatError (Unit × FatFile)}
    (run : withSnd file (fat32ExtendFile disk newSize) m = some (r, t)) : Coherent mounted t := by
  by_cases reaches : Reaches m file newSize
  · have accesses : Accesses disk fs (Requested mounted disk fs) := requested_accesses
    have keeps := fat32ExtendFile_keeps accesses newSize
    exact (keeps.withSnd on m r t (req reaches) run).1.coherent
  · unfold withSnd at run
    obtain ⟨⟨r', t', file'⟩, extended, same⟩ := Option.map_eq_some_iff.1 run
    cases same
    have after : t = m ∨ t = { m with mallocs := m.mallocs + 1 } := by
      cases r' with
      | ok a => exact wlp_ok (fat32ExtendFile_idle reaches) extended
      | error e => exact wlp_error (fat32ExtendFile_idle reaches) extended
    rcases after with rfl | rfl
    · exact before
    · exact before.keep (fun _ => rfl) (.inl rfl) before.unmixed rfl

/-! ## Formatting -/

/-- While a disk is formatted the buffer holds nothing of it, and the other disks
keep their file systems. -/
structure Formatting (mounted : DiskId → Bool) (disk : DiskId) (before m : Machine) : Prop where
  coherent : Coherent (Function.update mounted disk false) m
  holds : m.bufFs = before.bufFs
  others : ∀ e, e ≠ disk → (m.disk e).fs = (before.disk e).fs

variable {before : Machine}

theorem inUse_others {e : DiskId} (mount : Function.update mounted disk false e = true) :
    e ≠ disk ∧ mounted e = true := by
  have apart : e ≠ disk := by
    rintro rfl
    simp at mount
  rw [Function.update_of_ne apart] at mount
  exact ⟨apart, mount⟩

theorem Formatting.keep (during : Formatting mounted disk before m)
    (same : ∀ e, e ≠ disk → (t.disk e).fs = (m.disk e).fs) (holds : t.bufFs = m.bufFs)
    (unmixed : Unmixed t.trace) (owners : owner t.trace = owner m.trace) :
    Formatting mounted disk before t := by
  have others : ∀ e, Function.update mounted disk false e = true → e ≠ disk :=
    fun e mount => (inUse_others mount).1
  refine ⟨⟨unmixed, ?_, ?_⟩, holds.trans during.holds, fun e apart =>
    (same e apart).trans (during.others e apart)⟩
  · intro d e p mount mount' here here'
    rw [same d (others d mount)] at here
    rw [same e (others e mount')] at here'
    exact during.coherent.distinct d e p mount mount' here here'
  · intro d p mount here held
    rw [same d (others d mount)] at here
    rw [owners]
    exact during.coherent.owned d p mount here (holds.symm.trans held)

/-- When the format begins, the buffer stops being the disk's. -/
theorem Coherent.formatting (coherent : Coherent mounted m) :
    Formatting mounted disk m (m.ran m.toCore m.io (.format disk :: m.trace)) := by
  refine ⟨⟨⟨.inl rfl, coherent.unmixed⟩, ?_, ?_⟩, rfl, fun _ _ => rfl⟩
  · intro d e p mount mount'
    exact coherent.distinct d e p (inUse_others mount).2 (inUse_others mount').2
  · intro d p mount here held
    obtain ⟨apart, inUse⟩ := inUse_others mount
    have own : owner m.trace = some d := coherent.owned d p inUse here held
    have other : owner m.trace ≠ some disk := by
      intro same
      exact apart (Option.some.inj (own.symm.trans same))
    change (if owner m.trace = some disk then none else owner m.trace) = some d
    rw [if_neg other]
    exact own

section During

/-- The allocation of the new `struct fat32_fs` is still to come. -/
abbrev Unallocated (mounted : DiskId → Bool) (disk : DiskId) (before m : Machine) : Prop :=
  Formatting mounted disk before m ∧ m.mallocs = before.mallocs ∧ m.world = before.world

theorem writeSector_formatting (sector : Nat) (src : Bytes) :
    Preserves (Unallocated mounted disk before) (writeSector disk sector src) := by
  have writes : Preserves (Unallocated mounted disk before)
      (deviceWrite disk (w32 sector) src 1) := by
    apply keeps_of_wp
    rintro m ⟨during, mallocs, world⟩
    rw [wp_deviceWrite]
    refine ⟨⟨?_, mallocs, world⟩, trivial⟩
    exact during.keep (fun _ _ => setData_fs) rfl ⟨.inl rfl, during.coherent.unmixed⟩ rfl
  exact writes.bind fun _ _ => keeps_pure trivial

/-- The new file system is in place. -/
abbrev Placed (mounted : DiskId → Bool) (disk : DiskId) (before m : Machine) : Prop :=
  Formatting mounted disk before m ∧
    (m.disk disk).fs = some (before.world.address before.mallocs)

theorem deviceRead_placed (sector at_ count : Nat) (dst : Bytes) :
    Preserves (Placed mounted disk before) (deviceRead disk sector dst at_ count) := by
  apply keeps_of_wp
  rintro m ⟨during, here⟩
  rw [wp_deviceRead]
  exact ⟨⟨during.keep (fun _ _ => rfl) rfl during.coherent.unmixed rfl, here⟩, trivial⟩

theorem countFree_placed (sectorSize left sectorCur sectorOff free : Nat) (buffer : Bytes) :
    Preserves (Placed mounted disk before)
      (countFree disk sectorSize left sectorCur sectorOff buffer free) := by
  induction left generalizing sectorCur sectorOff buffer free with
  | zero => exact keeps_pure trivial
  | succ left ih =>
      apply Keeps.ite
      · intro _
        exact (deviceRead_placed _ _ _ _).bind fun _ _ => ih _ _ _ _
      · intro _
        exact ih _ _ _ _

theorem countDisk_placed (bpb : Bpb) :
    Preserves (Placed mounted disk before) (countDisk disk bpb) := by
  refine keeps_ensure.bind fun _ _ => (divide_keeps _ _).bind fun _ _ => ?_
  refine keeps_state.bind fun _ _ => (deviceRead_placed _ _ _ _).bind fun _ _ => ?_
  refine (countFree_placed _ _ _ _ _ _).bind fun _ _ => keeps_update ?_
  rintro m ⟨during, here⟩
  refine ⟨during.keep ?_ rfl during.coherent.unmixed rfl, ?_⟩
  · intro e apart
    simp [apart]
  · simpa using here

theorem wlp_note {event : Event} {values : Unit → Machine → Prop}
    {errors : FatError → Machine → Prop} :
    wlp (note event) values errors m ↔ values () (m.ran m.toCore m.io (event :: m.trace)) := Iff.rfl

theorem wlp_deviceRead {sector at_ count : Nat} {dst : Bytes} {values : Bool × Bytes → Machine → Prop}
    {errors : FatError → Machine → Prop} :
    wlp (deviceRead disk sector dst at_ count) values errors m ↔
      values ((m.world.fault m.io).isNone,
        splice dst at_ (slice (m.disk disk).data (512 * sector)) (512 * m.transferred count))
        (m.ran m.toCore (m.io + 1) m.trace) := Iff.rfl

theorem fat32Check_formatting (during : Unallocated mounted disk before m) :
    wlp (fat32Check disk)
      (fun _ t => Placed mounted disk before t ∧ before.world.noMemory before.mallocs = false)
      (fun _ t => Formatting mounted disk before t) m := by
  obtain ⟨during, mallocs, world⟩ := during
  unfold fat32Check
  rw [wlp_bind, wlp_deviceRead]
  have read : Formatting mounted disk before (m.ran m.toCore (m.io + 1) m.trace) :=
    during.keep (fun _ _ => rfl) rfl during.coherent.unmixed rfl
  split
  split
  · exact read
  · rename_i f _
    unfold mallocFs setDiskFs storeFs
    simp only [wlp_bind, wlp_state, wlp_update, wlp_pure, ran_world, ran_mallocs, mallocs, world]
    cases memory : before.world.noMemory before.mallocs with
    | true =>
        simp only [if_true, wlp_fail]
        refine read.keep ?_ rfl during.coherent.unmixed rfl
        intro e apart
        simp [apart]
    | false =>
        simp only [Bool.false_eq_true, if_false, wlp_bind, wlp_update]
        refine wlp_mono ((countDisk_placed f.bpb).wlp ⟨read.keep ?_ rfl during.coherent.unmixed rfl, ?_⟩)
          ?_ ?_
        · intro e apart
          simp [apart]
        · simp
        · exact fun _ _ placed => ⟨placed.1, trivial⟩
        · exact fun _ _ placed => placed.1

/-- The rule for a semicolon behind a write. -/
theorem Unallocated.after {p q : FatM Unit} {values : Unit → Machine → Prop}
    (start : Unallocated mounted disk before m) (writes : Preserves (Unallocated mounted disk before) p)
    (rest : ∀ t, Unallocated mounted disk before t →
      wlp q values (fun _ t => Formatting mounted disk before t) t) :
    wlp (p >>= fun _ => q) values (fun _ t => Formatting mounted disk before t) m := by
  rw [wlp_bind]
  apply wlp_mono (writes.wlp start)
  · exact fun _ t kept => rest t kept.1
  · exact fun _ _ kept => kept.1

theorem fat32Format_formatting (coherent : Coherent mounted m) :
    wlp (fat32Format disk)
      (fun _ t => Placed mounted disk m t ∧ m.world.noMemory m.mallocs = false)
      (fun _ t => Formatting mounted disk m t) m := by
  unfold fat32Format
  rw [wlp_bind, wlp_note, wlp_bind, wlp_state]
  have start : Unallocated mounted disk m (m.ran m.toCore m.io (.format disk :: m.trace)) :=
    ⟨coherent.formatting, rfl, rfl⟩
  have one (sector : Nat) (src : Bytes) :
      Preserves (Unallocated mounted disk m) (writeSector disk sector src) :=
    writeSector_formatting sector src
  refine Unallocated.after start (one _ _) fun s start => ?_
  refine Unallocated.after start (one _ _) fun s start => ?_
  refine Unallocated.after start (forUp_keeps (fun _ => one _ _) _ _) fun s start => ?_
  refine Unallocated.after start (one _ _) fun s start => ?_
  refine Unallocated.after start (forUp_keeps (fun _ => one _ _) _ _) fun s start => ?_
  refine Unallocated.after start
    (forUp_keeps (fun _ => forUp_keeps (fun _ => one _ _) _ _) _ _) fun s start => ?_
  refine Unallocated.after start (one _ _) fun s start => ?_
  refine Unallocated.after start (forUp_keeps (fun _ => one _ _) _ _) fun s start => ?_
  exact fat32Check_formatting start

end During

/-- A format that succeeds leaves the buffer to the other disks. -/
theorem Formatting.mount {p : FsPtr} (during : Formatting mounted disk m t)
    (here : (t.disk disk).fs = some p)
    (fresh : ∀ e, e ≠ disk → mounted e = true → (m.disk e).fs ≠ some p)
    (elsewhere : m.bufFs ≠ some p) : Coherent (Function.update mounted disk true) t := by
  have still {e : DiskId} (apart : e ≠ disk) (mount : Function.update mounted disk true e = true) :
      Function.update mounted disk false e = true := by
    rw [Function.update_of_ne apart] at mount ⊢
    exact mount
  -- another disk does not have the new address
  have other {e : DiskId} (apart : e ≠ disk) (mount : Function.update mounted disk true e = true) :
      (t.disk e).fs ≠ some p := by
    rw [during.others e apart]
    exact fresh e apart (inUse_others (still apart mount)).2
  refine ⟨during.coherent.unmixed, ?_, ?_⟩
  · intro d e q mount mount' at_ at_'
    by_cases first : d = disk <;> by_cases second : e = disk
    · rw [first, second]
    · rw [first, here] at at_
      exact (other second mount' (at_'.trans at_.symm)).elim
    · rw [second, here] at at_'
      exact (other first mount (at_.trans at_'.symm)).elim
    · exact during.coherent.distinct d e q (still first mount) (still second mount') at_ at_'
  · intro d q mount at_ held
    by_cases first : d = disk
    · rw [first, here] at at_
      rw [during.holds] at held
      exact (elsewhere (held.trans at_.symm)).elim
    · exact during.coherent.owned d q (still first mount) at_ held

end Steps

/-! ## Steps and runs -/

namespace System

variable {s u : System} {op : Op}

/-- What a request on a mounted disk does. -/
theorem access_cases {α : Type} {disk : DiskId} {p : FsPtr → FatM α}
    (taken : s.access disk p = some u) :
    ∃ fs r m, s.mounted disk = true ∧ (s.machine.disk disk).fs = some fs ∧
      p fs s.machine = some (r, m) ∧ u = { s with machine := m } := by
  unfold access at taken
  split at taken
  · rename_i fs inUse here
    obtain ⟨⟨r, m⟩, run, rfl⟩ := Option.map_eq_some_iff.1 taken
    exact ⟨fs, r, m, inUse, here, run, rfl⟩
  · cases taken

/-- A function that keeps the invariant of a request. -/
theorem access_coherent {α : Type} {disk : DiskId} {p : FsPtr → FatM α}
    (coherent : Coherent s.mounted s.machine)
    (settled : ∀ fs, (s.machine.disk disk).fs = some fs → s.machine.Settled fs)
    (keeps : ∀ fs, Preserves (Requested s.mounted disk fs) (p fs))
    (taken : s.access disk p = some u) : Coherent u.mounted u.machine := by
  obtain ⟨fs, r, m, inUse, here, run, rfl⟩ := access_cases taken
  exact (keeps fs s.machine r m ⟨coherent, inUse, here, settled fs here⟩ run).1.coherent

/-- Each step that meets its condition keeps the buffer the owner's. -/
theorem step_coherent (coherent : Coherent s.mounted s.machine) (allocates : s.Allocates op)
    (apart : s.Apart op) (taken : s.step op = some u) : Coherent u.mounted u.machine := by
  cases op with
  | get disk cluster =>
      exact access_coherent coherent apart (fun _ => requested_accesses.gets cluster) taken
  | set disk cluster next =>
      exact access_coherent coherent apart (fun _ => requested_accesses.sets cluster next) taken
  | commit disk =>
      obtain ⟨fs, r, m, inUse, here, run, rfl⟩ := access_cases taken
      by_cases holds : s.machine.bufFs = some fs
      · have settled : s.machine.Settled fs :=
          fun _ q held => .inl (Option.some.inj (held.symm.trans holds))
        have req : Requested s.mounted disk fs s.machine := ⟨coherent, inUse, here, settled⟩
        exact (requested_accesses.commits s.machine r m req run).1.coherent
      · -- a commit leaves a buffer of another file system alone
        rw [commitFat32Buffer, bind_ok (by rfl : state s.machine = some (.ok s.machine, s.machine)),
          if_neg holds] at run
        cases run
        exact coherent
  | extend disk file newSize =>
      obtain ⟨fs, r, m, inUse, here, run, rfl⟩ := access_cases taken
      exact extend_coherent rfl (fun reaches => ⟨coherent, inUse, here, apart fs here reaches⟩)
        coherent run
  | format disk =>
      obtain ⟨⟨r, m⟩, run, rfl⟩ := Option.map_eq_some_iff.1 taken
      cases r with
      | error e => exact (wlp_error (fat32Format_formatting coherent) run).coherent
      | ok a =>
          obtain ⟨⟨during, here⟩, memory⟩ := wlp_ok (fat32Format_formatting coherent) run
          exact during.mount here (fun e apart inUse => allocates e apart inUse) (apart memory)

end System

/-! ## The theorem -/

/-- **However FAT accesses and formats of any disks follow each other, the buffer
is only served as, and only written to, the FAT of the disk that it was filled
from since that disk was formatted last**, if no request comes while the buffer is
dirty with another file system and no format gets the buffer's old address. -/
theorem buffer_unmixed {start s : System} {steps : List (System × Op × System)}
    (booted : start.Booted) (path : Path System.step start steps s)
    (allocates : ∀ t op u, (t, op, u) ∈ steps → t.Allocates op)
    (apart : ∀ t op u, (t, op, u) ∈ steps → t.Apart op) : Unmixed s.machine.trace := by
  have first : Coherent start.mounted start.machine := by
    refine ⟨?_, booted.distinct, fun d p _ _ held => ?_⟩
    · rw [booted.nothing]
      exact trivial
    · rw [booted.empty] at held
      cases held
  have last : Coherent s.mounted s.machine := by
    apply path.invariant (fun t => Coherent t.mounted t.machine) first
    intro t op u taken coherent stepped
    exact System.step_coherent coherent (allocates t op u taken) (apart t op u taken) stepped
  exact last.unmixed

/-! ## Two disks -/

/-- Two disks of 1 MB, and what boot leaves of the buffer. -/
def twoDisks : System where
  machine := Machine.mounted (fun _ => smallFs 2 16 64) fun _ _ => 0
  mounted disk := disk < 2

theorem twoDisks_booted : twoDisks.Booted where
  empty := rfl
  nothing := rfl
  distinct _ _ _ _ _ here here' := Option.some.inj (here.trans here'.symm)

/-- With a commit in between, the second disk does not get what the first was to have. -/
theorem commit_keeps_apart :
    ∃ steps s, Path System.step twoDisks steps s ∧
      steps.map (fun taken => taken.1.machine.bufChanged) = [false, true, false] ∧
      Unmixed s.machine.trace := by
  have run : ((twoDisks.step (.set 0 5 7)).bind fun t => (t.step (.commit 0)).bind fun u =>
      (u.step (.get 1 5)).map fun _ => (t.machine.bufChanged, u.machine.bufChanged)) =
        some (true, false) := by decide +kernel
  obtain ⟨t, first, run⟩ := Option.bind_eq_some_iff.1 run
  obtain ⟨u, second, run⟩ := Option.bind_eq_some_iff.1 run
  obtain ⟨s, third, changed⟩ := Option.map_eq_some_iff.1 run
  obtain ⟨dirty, clean⟩ := Prod.mk.inj changed
  have path := ((Path.start.snoc first).snoc second).snoc third
  refine ⟨_, s, path, by simp [dirty, clean, twoDisks, Machine.mounted], ?_⟩
  apply buffer_unmixed twoDisks_booted path
  · intro t' op u' taken
    simp at taken
    rcases taken with ⟨rfl, rfl, rfl⟩ | ⟨rfl, rfl, rfl⟩ | ⟨rfl, rfl, rfl⟩ <;> exact trivial
  · intro t' op u' taken
    simp at taken
    rcases taken with ⟨rfl, rfl, rfl⟩ | ⟨rfl, rfl, rfl⟩ | ⟨rfl, rfl, rfl⟩
    · exact fun _ _ dirty => by cases dirty
    · exact trivial
    · exact fun _ _ dirty => by
        rw [clean] at dirty
        cases dirty

/-- An entry set on one disk and read on another: the FAT of the first is written
to the second. -/
theorem get_writes_other_disk :
    ∃ steps s, Path System.step twoDisks steps s ∧
      (∀ t op u, (t, op, u) ∈ steps → t.Allocates op) ∧ ¬ Unmixed s.machine.trace := by
  have run : ((twoDisks.step (.set 0 5 7)).bind fun t => (t.step (.get 1 5)).map fun s =>
      decide (Unmixed s.machine.trace)) = some false := by decide +kernel
  obtain ⟨t, first, run⟩ := Option.bind_eq_some_iff.1 run
  obtain ⟨s, second, mixed⟩ := Option.map_eq_some_iff.1 run
  refine ⟨_, s, (Path.start.snoc first).snoc second, ?_, of_decide_eq_false mixed⟩
  intro t' op u' taken
  simp at taken
  rcases taken with ⟨rfl, rfl, rfl⟩ | ⟨rfl, rfl, rfl⟩ <;> exact trivial

end TestOs.Fat32
