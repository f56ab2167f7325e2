/-
# Library.Scatter -- a range of bytes that goes to scattered places

A transfer moves byte `i` of a buffer to a place `at_ i`, and the places need not
be apart: when two bytes have one place, the later one stays.  `Stored` says what
is left in the end, `Stored.block` that a copy of a range is such a transfer, and
`Stored.append` that transfers one after the other are one.
-/
import TestOs.Library.Bytes

namespace TestOs.Library

set_option autoImplicit false

/-- `n` bytes of `src` were stored, the byte `i` at `at_ i`. -/
structure Stored (at_ : Nat → Nat) (src : Bytes) (n : Nat) (before after : Bytes) : Prop where
  last : ∀ i < n, (∀ k, i < k → k < n → at_ k ≠ at_ i) → after (at_ i) = src i
  elsewhere : ∀ a, (∀ i < n, at_ i ≠ a) → after a = before a

namespace Stored

variable {at_ at_' : Nat → Nat} {src a b c : Bytes} {m n : Nat}

theorem refl (at_ : Nat → Nat) (src a : Bytes) : Stored at_ src 0 a a :=
  ⟨fun i below => absurd below (Nat.not_lt_zero i), fun _ _ => rfl⟩

/-- A copy of a range. -/
theorem block (start : Nat) (src a : Bytes) (n : Nat) (isRange : ∀ i < n, at_ i = start + i) :
    Stored at_ src n a (splice a start src n) := by
  refine ⟨fun i below _ => ?_, fun x apart => splice_outside ?_⟩
  · rw [isRange i below]
    exact splice_at below
  · by_contra inside
    have place := isRange (x - start) (by omega)
    exact apart (x - start) (by omega) (by omega)

/-- One transfer after the other. -/
theorem append (first : Stored at_ src m a b)
    (second : Stored (fun i => at_ (m + i)) (slice src m) n b c) : Stored at_ src (m + n) a c := by
  refine ⟨fun i below unique => ?_, fun x apart => ?_⟩
  · by_cases early : i < m
    · rw [second.elsewhere (at_ i) fun k inside => unique (m + k) (by omega) (by omega)]
      exact first.last i early fun k later inside => unique k later (by omega)
    · obtain ⟨k, rfl⟩ : ∃ k, i = m + k := ⟨i - m, by omega⟩
      exact second.last k (by omega) fun l later inside => unique (m + l) (by omega) (by omega)
  · rw [second.elsewhere x fun k inside => apart (m + k) (by omega)]
    exact first.elsewhere x fun k inside => apart k (by omega)

/-- Only the places of the range matter. -/
theorem congr (stored : Stored at_ src n a b) (same : ∀ i < n, at_ i = at_' i) :
    Stored at_' src n a b := by
  refine ⟨fun i below unique => ?_, fun x apart => ?_⟩
  · rw [← same i below]
    apply stored.last i below
    intro k later inside
    rw [same k inside, same i below]
    exact unique k later inside
  · apply stored.elsewhere
    intro i below
    rw [same i below]
    exact apart i below

end Stored

end TestOs.Library
