/-
# Library.Copying -- copies between ranges that may overlap

A loop copies byte by byte, upwards or downwards, and reads what it has written
itself when the destination lies ahead of the source in its direction.  Then it
repeats the first bytes of the source with the distance as the period
(`copyLoop_apply`).  So it moves the source exactly when nothing is read after it
was written, or the source has this period itself (`copyLoop_moves_iff`).

Addresses wrap, and so do the distances: the way from the source to the
destination upwards, and the way downwards, add up to 2^32.
-/
import TestOs.Library.FlatMemory

namespace TestOs.Library

set_option autoImplicit false

namespace Memory

/-- `count` times `*d = *s`, with `step` added to both pointers behind each. -/
def copyLoop (step : BitVec 32) : Nat → BitVec 32 → BitVec 32 → Memory → Memory
  | 0, _, _, m => m
  | count + 1, d, s, m => copyLoop step count (d + step) (s + step) (Function.update m d (m s))

/-- `dst[0..count)` holds what `src[0..count)` held, and the rest is as before. -/
def moved (m : Memory) (dst src : BitVec 32) (count : Nat) : Memory := fun a =>
  if (a - dst).toNat < count then m (src + (a - dst)) else m a

section Periods

variable {α : Type} {f : Nat → α} {period n : Nat}

/-- A sequence is its first `period` elements over and over when each element is that a period
before. -/
theorem repeats_iff : (∀ i < n, f i = f (i % period)) ↔ ∀ i < n, period ≤ i → f i = f (i - period) := by
  constructor
  · intro repeats i below behind
    rw [repeats i below, repeats (i - period) (by omega), ← Nat.mod_eq_sub_mod behind]
  · intro earlier i below
    induction i using Nat.strong_induction_on with
    | _ i ih =>
      by_cases behind : 0 < period ∧ period ≤ i
      · rw [earlier i below behind.2, ih (i - period) (by omega) (by omega),
          ← Nat.mod_eq_sub_mod behind.2]
      · have same : i % period = i := by
          rcases Nat.eq_zero_or_pos period with rfl | positive
          · exact Nat.mod_zero i
          · exact Nat.mod_eq_of_lt (by omega)
        rw [same]

theorem succ_mod_cases (k period : Nat) : k % period + 1 = period ∧ (k + 1) % period = 0 ∨
    k % period + 1 ≠ period ∧ (k + 1) % period = k % period + 1 := by
  have split_ := Nat.div_add_mod k period
  by_cases whole : k % period + 1 = period
  · left
    refine ⟨whole, ?_⟩
    have multiple : k + 1 = period * (k / period + 1) := by
      rw [Nat.mul_succ]
      omega
    rw [multiple, Nat.mul_mod_right]
  · right
    refine ⟨whole, ?_⟩
    rcases Nat.eq_zero_or_pos period with rfl | positive
    · rw [Nat.mod_zero, Nat.mod_zero]
    · have below := Nat.mod_lt k positive
      have isSum : k + 1 = period * (k / period) + (k % period + 1) := by omega
      rw [isSum, Nat.mul_add_mod, Nat.mod_eq_of_lt (by omega)]

end Periods

/-! ## The loop -/

section Loop

variable {step d s a : BitVec 32} {m : Memory} {count : Nat}

/-- How many steps it is from `b` to `a`. -/
def steps (step b a : BitVec 32) : BitVec 32 := step * (a - b)

theorem steps_step (unit : step * step = 1) (d a : BitVec 32) :
    steps step (d + step) a = steps step d a - 1 := by
  unfold steps
  linear_combination -unit

theorem steps_add (unit : step * step = 1) (s q : BitVec 32) : steps step s (s + step * q) = q := by
  unfold steps
  linear_combination q * unit

theorem add_steps (unit : step * step = 1) (s d : BitVec 32) : s + step * steps step s d = d := by
  unfold steps
  linear_combination (d - s) * unit

/-- What the loop leaves: its source, with what it has written itself in the place of what it
overwrote. -/
theorem copyLoop_apply (unit : step * step = 1) (small : count ≤ 2 ^ 32) :
    copyLoop step count d s m a =
      if (steps step d a).toNat < count then
        m (s + step * BitVec.ofNat 32 ((steps step d a).toNat % (steps step s d).toNat))
      else m a := by
  induction count generalizing d s m with
  | zero => rw [copyLoop, if_neg (Nat.not_lt_zero _)]
  | succ count ih =>
    have sameDistance : steps step (s + step) (d + step) = steps step s d := by
      unfold steps
      ring
    rw [copyLoop, ih (by omega), sameDistance, steps_step unit]
    by_cases here : a = d
    · -- the byte that is copied first
      have start : steps step d d = 0 := by
        unfold steps
        ring
      subst here
      have first : (0 : BitVec 32).toNat = 0 := rfl
      rw [start, if_neg (by bv_omega), Function.update_self, first, if_pos (Nat.succ_pos _), Nat.zero_mod]
      show m s = m (s + step * 0)
      rw [mul_zero, add_zero]
    · have later : steps step d a ≠ 0 := by
        intro zero
        apply here
        rw [← add_steps unit d a, zero, mul_zero, add_zero]
      generalize steps step d a = p at later ⊢
      have back : (p - 1).toNat = p.toNat - 1 := by bv_omega
      have positive : 0 < p.toNat := Nat.pos_of_ne_zero fun zero => later (BitVec.eq_of_toNat_eq zero)
      rw [back]
      by_cases copied : p.toNat < count + 1
      · rw [if_pos (by omega), if_pos copied]
        have earlier : (p.toNat - 1) % (steps step s d).toNat + 1 < 2 ^ 32 := by
          have atMost := Nat.mod_le (p.toNat - 1) (steps step s d).toNat
          omega
        have next (r : Nat) : s + step + step * BitVec.ofNat 32 r = s + step * BitVec.ofNat 32 (r + 1) := by
          rw [BitVec.ofNat_add]
          show s + step + _ = s + step * (BitVec.ofNat 32 r + 1)
          ring
        have succ_mod := succ_mod_cases (p.toNat - 1) (steps step s d).toNat
        rw [Nat.sub_add_cancel positive] at succ_mod
        generalize (p.toNat - 1) % (steps step s d).toNat = r at earlier succ_mod ⊢
        rw [next]
        rcases succ_mod with ⟨whole, start⟩ | ⟨inside, goes⟩
        · -- a whole distance: it is the byte that was copied first
          have there : s + step * BitVec.ofNat 32 (r + 1) = d := by
            rw [whole, BitVec.ofNat_toNat, BitVec.setWidth_eq, add_steps unit]
          rw [there, Function.update_self, start]
          show m s = m (s + step * 0)
          rw [mul_zero, add_zero]
        · have elsewhere : s + step * BitVec.ofNat 32 (r + 1) ≠ d := by
            intro there
            apply inside
            rw [← there, steps_add unit, BitVec.toNat_ofNat, Nat.mod_eq_of_lt earlier]
          rw [Function.update_of_ne elsewhere, goes]
      · rw [if_neg (by omega), if_neg copied, Function.update_of_ne here]

/-- The loop runs from `d` and `s` on over the bytes of `moved`, in either direction. -/
structure Runs (step : BitVec 32) (d s dst src : BitVec 32) (count : Nat) : Prop where
  inside : ∀ a, (steps step d a).toNat < count ↔ (a - dst).toNat < count
  source : ∀ a, s + step * steps step d a = src + (a - dst)

/-- **The loop moves exactly when the bytes that it reads behind its own writes are repeated in
the source.** -/
theorem copyLoop_moves_iff {dst src : BitVec 32} (unit : step * step = 1) (small : count ≤ 2 ^ 32)
    (runs : Runs step d s dst src count) :
    copyLoop step count d s m = m.moved dst src count ↔
      ∀ i < count, (steps step s d).toNat ≤ i →
        m (s + step * BitVec.ofNat 32 i) = m (s + step * BitVec.ofNat 32 (i - (steps step s d).toNat)) := by
  rw [← repeats_iff (f := fun i => m (s + step * BitVec.ofNat 32 i))]
  constructor
  · intro same i below
    have there := congrFun same (d + step * BitVec.ofNat 32 i)
    have wraps : (BitVec.ofNat 32 i).toNat = i := Nat.mod_eq_of_lt (below.trans_le small)
    have inside := runs.inside (d + step * BitVec.ofNat 32 i)
    have source := runs.source (d + step * BitVec.ofNat 32 i)
    rw [steps_add unit] at inside source
    have below' : (BitVec.ofNat 32 i).toNat < count := by
      rw [wraps]
      exact below
    rw [copyLoop_apply unit small, steps_add unit, wraps, if_pos below, moved,
      if_pos (inside.1 below'), ← source] at there
    exact there.symm
  · intro repeats
    funext a
    rw [copyLoop_apply unit small, moved]
    by_cases inside : (steps step d a).toNat < count
    · rw [if_pos inside, if_pos ((runs.inside a).1 inside), ← repeats _ inside, BitVec.ofNat_toNat,
        BitVec.setWidth_eq, runs.source]
    · rw [if_neg inside, if_neg (mt (runs.inside a).2 inside)]

end Loop

end Memory

end TestOs.Library
