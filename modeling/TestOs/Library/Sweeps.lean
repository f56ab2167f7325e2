/-
# Library.Sweeps -- pointers that run over memory in strides

`sweep size body stop p` is the loop `while (p < stop) { body p; p += size; }`.  It
ends at the first pointer of its stride that is not below `stop`
(`sweep_invariant`), which is `stop` itself only if the stride fits.  The body
that fills its block, and the one that copies a block which lies further up,
leave what they leave over the whole range (`setBlock_sweeps`,
`copyBlock_sweeps`).
-/
import Mathlib

namespace TestOs.Library

set_option autoImplicit false

variable {σ α : Type} {size : Nat}

/-- `while (p < stop) { body p; p += size; }` -/
def sweep (size : Nat) [NeZero size] (body : Nat → σ → σ) (stop p : Nat) (s : σ) : σ :=
  if p < stop then sweep size body stop (p + size) (body p s) else s
termination_by stop - p
decreasing_by
  have positive : 0 < size := Nat.pos_of_neZero size
  omega

/-- What holds at the start and is kept by each turn holds after the turns that it takes to
come to `stop`, and after no more than these. -/
theorem sweep_invariant [NeZero size] {body : Nat → σ → σ} {start stop : Nat} {s : σ}
    (inv : Nat → σ → Prop) (first : inv 0 s)
    (keeps : ∀ k t, inv k t → inv (k + 1) (body (start + size * k) t)) :
    ∃ turns, inv turns (sweep size body stop start s) ∧ stop ≤ start + size * turns ∧
      (start ≤ stop → start + size * turns < stop + size) := by
  have positive : 0 < size := Nat.pos_of_neZero size
  suffices later : ∀ k t, inv k t → (start ≤ stop → start + size * k < stop + size) →
      ∃ turns, inv turns (sweep size body stop (start + size * k) t) ∧
        stop ≤ start + size * turns ∧ (start ≤ stop → start + size * turns < stop + size) by
    have result := later 0 s first
    rw [Nat.mul_zero, Nat.add_zero] at result
    exact result fun order => by omega
  intro k t
  -- the way that is left gets shorter with each turn
  induction left : stop - (start + size * k) using Nat.strong_induction_on generalizing k t with
  | _ n ih =>
      intro now near
      have next : start + size * (k + 1) = start + size * k + size := by
        rw [Nat.mul_succ, Nat.add_assoc]
      rw [sweep]
      by_cases goes : start + size * k < stop
      · rw [if_pos goes, ← next]
        apply ih (stop - (start + size * (k + 1))) (by omega) _ _ rfl (keeps k t now)
        intro order
        omega
      · rw [if_neg goes]
        exact ⟨k, now, by omega, near⟩

/-! ## Blocks -/

/-- Write a block. -/
def setBlock (size p : Nat) (block : Nat → α) (f : Nat → α) : Nat → α := fun n =>
  if p ≤ n ∧ n < p + size then block (n - p) else f n

/-- Copy a block. -/
def copyBlock (size target source : Nat) (f : Nat → α) : Nat → α :=
  setBlock size target (fun i => f (source + i)) f

/-- One block after `k` equal ones. -/
theorem setBlock_sweeps {block : Nat → α} {f g : Nat → α} {start k : Nat}
    (filled : ∀ n, g n = if start ≤ n ∧ n < start + size * k then block ((n - start) % size) else f n)
    (n : Nat) : setBlock size (start + size * k) block g n =
      if start ≤ n ∧ n < start + size * (k + 1) then block ((n - start) % size) else f n := by
  have next : size * (k + 1) = size * k + size := Nat.mul_succ ..
  rw [setBlock, filled, next]
  by_cases here : start + size * k ≤ n ∧ n < start + size * k + size
  · have place : n - start = size * k + (n - (start + size * k)) := by omega
    rw [if_pos here, if_pos (by omega), place, Nat.mul_add_mod, Nat.mod_eq_of_lt (by omega)]
  · rw [if_neg here]
    apply if_congr _ rfl rfl
    omega

/-- One more block of a copy downwards, whose source has not been written to yet. -/
theorem copyBlock_sweeps {f g : Nat → α} {target source k : Nat} (down : target + size ≤ source)
    (copied : ∀ n, g n = if target ≤ n ∧ n < target + size * k then f (source + (n - target)) else f n)
    (n : Nat) : copyBlock size (target + size * k) (source + size * k) g n =
      if target ≤ n ∧ n < target + size * (k + 1) then f (source + (n - target)) else f n := by
  have next : size * (k + 1) = size * k + size := Nat.mul_succ ..
  rw [copyBlock, setBlock, next]
  by_cases here : target + size * k ≤ n ∧ n < target + size * k + size
  · have place : source + size * k + (n - (target + size * k)) = source + (n - target) := by omega
    rw [if_pos here, if_pos (by omega), place, copied, if_neg (by omega)]
  · rw [if_neg here, copied]
    apply if_congr _ rfl rfl
    omega

end TestOs.Library
