/-
# Strings.Copying -- memcpy and memmove

`memcpy` copies downwards only when the destination lies 0 to 4 bytes behind the
source: the test adds the size of a pointer where the size of the buffer is
meant.  So a source that reaches further into the destination is overwritten
before it is read (`memcpy_moves_iff`).  `memmove` compares the pointers alone, and
moves all buffers that lie in the address space (`memmove_moves`).
-/
import TestOs.Library.Copying

namespace TestOs.Strings

open TestOs.Library Memory

set_option autoImplicit false

/-- The test of `memcpy` for the direction; `sizeof(src)` is that of a pointer. -/
def CopiesUp (dst src : BitVec 32) : Prop := dst > src + 4 ∨ dst < src

instance (dst src : BitVec 32) : Decidable (CopiesUp dst src) := inferInstanceAs (Decidable (_ ∨ _))

/-- `memcpy`: what it returns, and the memory. -/
def memcpy (m : Memory) (dst src size : BitVec 32) : BitVec 32 × Memory :=
  if dst = 0 ∨ src = 0 then (0, m)
  else if CopiesUp dst src then (dst, copyLoop 1 size.toNat dst src m)
  else (dst, copyLoop (-1) size.toNat (dst + size - 1) (src + size - 1) m)

/-- The loop of `memmove` downwards, which decrements first. -/
def copyBefore : Nat → BitVec 32 → BitVec 32 → Memory → Memory
  | 0, _, _, m => m
  | size + 1, tmp, s, m => copyBefore size (tmp - 1) (s - 1) (Function.update m (tmp - 1) (m (s - 1)))

/-- `memmove`. -/
def memmove (m : Memory) (dst src size : BitVec 32) : BitVec 32 × Memory :=
  if dst ≤ src then (dst, copyLoop 1 size.toNat dst src m)
  else (dst, copyBefore size.toNat (dst + size) (src + size) m)

section Loops

variable {m : Memory} {dst src size : BitVec 32}

theorem copyBefore_eq (n : Nat) (d s : BitVec 32) (m : Memory) :
    copyBefore n d s m = copyLoop (-1) n (d - 1) (s - 1) m := by
  induction n generalizing d s m with
  | zero => rfl
  | succ n ih =>
    rw [copyBefore, ih, copyLoop, sub_eq_add_neg (d - 1) 1, sub_eq_add_neg (s - 1) 1]

theorem runs_up : Runs 1 dst src dst src size.toNat := by
  refine ⟨fun a => ?_, fun a => ?_⟩
  · rw [steps, one_mul]
  · rw [steps, one_mul, one_mul]

theorem runs_down : Runs (-1) (dst + size - 1) (src + size - 1) dst src size.toNat := by
  refine ⟨fun a => ?_, fun a => ?_⟩
  · rw [steps]
    have turned : (-1 : BitVec 32) * (a - (dst + size - 1)) = size - 1 - (a - dst) := by ring
    rw [turned]
    generalize a - dst = x
    bv_omega
  · rw [steps]
    ring

/-- Upwards, where the distance is `dst - src`. -/
theorem copyUp_moves_iff : copyLoop 1 size.toNat dst src m = m.moved dst src size.toNat ↔
    ∀ i < size.toNat, (dst - src).toNat ≤ i →
      m (src + BitVec.ofNat 32 i) = m (src + BitVec.ofNat 32 (i - (dst - src).toNat)) := by
  have distance : steps 1 src dst = dst - src := one_mul _
  have iff := copyLoop_moves_iff (m := m) (one_mul 1) size.isLt.le (@runs_up dst src size)
  rw [distance] at iff
  simp only [one_mul] at iff
  exact iff

/-- Downwards, where it is `src - dst`. -/
theorem copyDown_moves_iff :
    copyLoop (-1) size.toNat (dst + size - 1) (src + size - 1) m = m.moved dst src size.toNat ↔
    ∀ i < size.toNat, (src - dst).toNat ≤ i →
      m (src + size - 1 - BitVec.ofNat 32 i) =
        m (src + size - 1 - BitVec.ofNat 32 (i - (src - dst).toNat)) := by
  have distance : steps (-1) (src + size - 1) (dst + size - 1) = src - dst := by
    unfold steps
    ring
  have iff := copyLoop_moves_iff (m := m) (by rfl : (-1 : BitVec 32) * -1 = 1) size.isLt.le (@runs_down dst src size)
  rw [distance] at iff
  simp only [neg_one_mul, ← sub_eq_add_neg] at iff
  exact iff

end Loops

/-- A copy upwards does not read what it has written, or finds there what the source has a
distance before; and the same of a copy downwards. -/
def ReadsSource (m : Memory) (dst src size : BitVec 32) : Prop :=
  if CopiesUp dst src then
    ∀ i < size.toNat, (dst - src).toNat ≤ i →
      m (src + BitVec.ofNat 32 i) = m (src + BitVec.ofNat 32 (i - (dst - src).toNat))
  else
    ∀ i < size.toNat, (src - dst).toNat ≤ i →
      m (src + size - 1 - BitVec.ofNat 32 i) =
        m (src + size - 1 - BitVec.ofNat 32 (i - (src - dst).toNat))

section Moving

variable {m : Memory} {dst src size : BitVec 32}

/-- `memmove` moves every buffer. -/
theorem memmove_moves (srcFits : src.toNat + size.toNat ≤ 2 ^ 32)
    (dstFits : dst.toNat + size.toNat ≤ 2 ^ 32) :
    memmove m dst src size = (dst, m.moved dst src size.toNat) := by
  unfold memmove
  split
  · next below =>
    have order : dst.toNat ≤ src.toNat := below
    rw [copyUp_moves_iff.2]
    intro i inside behind
    by_cases same : dst = src
    · rw [same, sub_self]
      rfl
    · exfalso
      bv_omega
  · next above =>
    have order : ¬ dst.toNat ≤ src.toNat := above
    rw [copyBefore_eq, copyDown_moves_iff.2]
    intro i inside behind
    exfalso
    bv_omega

/-- Below the last four addresses a proper buffer is only hurt where the destination is more
than 4 bytes behind the source and in it. -/
theorem readsSource_of_apart (low : src.toNat + 4 < 2 ^ 32) (srcFits : src.toNat + size.toNat ≤ 2 ^ 32)
    (dstFits : dst.toNat + size.toNat ≤ 2 ^ 32)
    (apart : dst.toNat ≤ src.toNat + 4 ∨ src.toNat + size.toNat ≤ dst.toNat) : ReadsSource m dst src size := by
  by_cases same : dst = src
  · subst same
    unfold ReadsSource
    split
    · intro i _ _
      rw [sub_self]
      rfl
    · intro i _ _
      rw [sub_self]
      rfl
  · unfold ReadsSource
    split
    · next up =>
      intro i inside behind
      unfold CopiesUp at up
      exfalso
      bv_omega
    · next down =>
      intro i inside behind
      unfold CopiesUp at down
      exfalso
      bv_omega

/-- **`memcpy` moves, as `memmove` does, exactly when it reads the source.** -/
theorem memcpy_moves_iff (m : Memory) (dst src size : BitVec 32) (dstSet : dst ≠ 0) (srcSet : src ≠ 0) :
    (memcpy m dst src size = (dst, m.moved dst src size.toNat) ↔ ReadsSource m dst src size) ∧
      (src.toNat + size.toNat ≤ 2 ^ 32 → dst.toNat + size.toNat ≤ 2 ^ 32 →
        (memcpy m dst src size = memmove m dst src size ↔ ReadsSource m dst src size)) := by
  have moves : memcpy m dst src size = (dst, m.moved dst src size.toNat) ↔ ReadsSource m dst src size := by
    unfold memcpy ReadsSource
    rw [if_neg (not_or.2 ⟨dstSet, srcSet⟩)]
    by_cases up : CopiesUp dst src
    · rw [if_pos up, if_pos up, ← copyUp_moves_iff, Prod.mk.injEq, and_iff_right rfl]
    · rw [if_neg up, if_neg up, ← copyDown_moves_iff, Prod.mk.injEq, and_iff_right rfl]
  refine ⟨moves, fun srcFits dstFits => ?_⟩
  rw [memmove_moves srcFits dstFits, moves]

/-- A buffer moved by four bytes. -/
theorem four_bytes_on :
    (memcpy (fun a => a.setWidth 8) 20 16 64 = (20, moved (fun a => a.setWidth 8) 20 16 64)) ∧
      memcpy (fun a => a.setWidth 8) 20 16 64 = memmove (fun a => a.setWidth 8) 20 16 64 := by
  have reads : ReadsSource (fun a => a.setWidth 8) 20 16 64 :=
    readsSource_of_apart (by decide) (by decide) (by decide) (by decide)
  have iffs := memcpy_moves_iff (fun a => a.setWidth 8) 20 16 64 (by decide) (by decide)
  exact ⟨iffs.1.2 reads, (iffs.2 (by decide) (by decide)).2 reads⟩

/-- Moved by eight, its first eight bytes are there twice. -/
theorem eight_bytes_on :
    (memcpy (fun a => a.setWidth 8) 24 16 16).2 32 = 16 ∧
      (memmove (fun a => a.setWidth 8) 24 16 16).2 32 = 24 ∧
      moved (fun a => a.setWidth 8) 24 16 16 32 = 24 := by
  decide +kernel

end Moving

end TestOs.Strings
