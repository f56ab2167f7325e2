/-
# Library.Traced -- an array that remembers where it was written

A C array has no bounds, so a store beyond its end is one like all others and
shows only in what lies there.  `Traced` keeps the list of the indices that were
written: that a program stays in the first `n` is `Within`.  `Text` is what a
program does that writes a string piece by piece, with or without terminators.
-/
import Mathlib

namespace TestOs.Library

set_option autoImplicit false

/-- The contents behind a pointer, and the indices that were written, latest first. -/
structure Traced (ι α : Type) where
  at_ : ι → α
  written : List ι

namespace Traced

variable {ι α : Type}

section Store

variable [DecidableEq ι] (t : Traced ι α) (i j : ι) (v : α)

/-- `a[i] = v`. -/
def put : Traced ι α := ⟨Function.update t.at_ i v, i :: t.written⟩

/-- Only these indices were written. -/
def Within (p : ι → Prop) : Prop := ∀ i ∈ t.written, p i

@[simp] theorem put_at_self : (t.put i v).at_ i = v := Function.update_self ..

theorem put_at_of_ne (other : j ≠ i) : (t.put i v).at_ j = t.at_ j := Function.update_of_ne other ..

@[simp] theorem put_written : (t.put i v).written = i :: t.written := rfl

theorem within_put {p : ι → Prop} : (t.put i v).Within p ↔ p i ∧ t.Within p := by
  unfold Within
  simp

end Store

/-! ## Strings -/

/-- The characters of a list stored from an index on. -/
def putList (t : Traced Nat α) (i : Nat) : List α → Traced Nat α
  | [] => t
  | v :: rest => putList (t.put i v) (i + 1) rest

/-- From index `i` on, `text` was written, and nothing but it and the place behind it. -/
structure Text (before after : Traced Nat α) (i : Nat) (text : List α) : Prop where
  chars : ∀ k (below : k < text.length), after.at_ (i + k) = text[k]
  elsewhere : ∀ k, k < i ∨ i + text.length < k → after.at_ k = before.at_ k
  written : ∀ k ∈ after.written, k ∈ before.written ∨ (i ≤ k ∧ k ≤ i + text.length)

namespace Text

variable {a b c : Traced Nat α} {i : Nat} {text text' : List α} {v : α}

theorem refl (a : Traced Nat α) (i : Nat) : Text a a i [] :=
  ⟨fun k below => absurd below (Nat.not_lt_zero k), fun _ _ => rfl, fun _ inside => .inl inside⟩

/-- A terminator is nothing of the text. -/
theorem put_behind (first : Text a b i text) : Text a (b.put (i + text.length) v) i text := by
  refine ⟨fun k below => ?_, fun k outside => ?_, fun k inside => ?_⟩
  · rw [put_at_of_ne _ _ _ _ (by omega)]
    exact first.chars k below
  · rw [put_at_of_ne _ _ _ _ (by omega)]
    exact first.elsewhere k outside
  · rcases List.mem_cons.1 inside with rfl | inside
    · exact .inr ⟨Nat.le_add_right .., le_rfl⟩
    · exact first.written k inside

/-- One text behind the other. -/
theorem append (first : Text a b i text) (second : Text b c (i + text.length) text') :
    Text a c i (text ++ text') := by
  refine ⟨fun k below => ?_, fun k outside => ?_, fun k inside => ?_⟩
  · by_cases early : k < text.length
    · rw [List.getElem_append_left early, second.elsewhere _ (.inl (by omega))]
      exact first.chars k early
    · rw [List.getElem_append_right (not_lt.1 early)]
      rw [List.length_append] at below
      have last := second.chars (k - text.length) (by omega)
      rwa [show i + text.length + (k - text.length) = i + k by omega] at last
  · rw [List.length_append] at outside
    rw [second.elsewhere k (by omega)]
    exact first.elsewhere k (by omega)
  · rw [List.length_append]
    rcases second.written k inside with old | new
    · rcases first.written k old with older | near
      · exact .inl older
      · exact .inr (by omega)
    · exact .inr (by omega)

theorem single (a : Traced Nat α) (i : Nat) (v : α) : Text a (a.put i v) i [v] := by
  refine ⟨fun k below => ?_, fun k outside => ?_, fun k inside => ?_⟩
  · obtain rfl : k = 0 := by simpa using below
    simp
  · refine put_at_of_ne _ _ _ _ ?_
    rw [List.length_singleton] at outside
    omega
  · rw [List.length_singleton]
    rcases List.mem_cons.1 inside with rfl | inside
    · exact .inr (by omega)
    · exact .inl inside

theorem list (a : Traced Nat α) (i : Nat) (text : List α) : Text a (a.putList i text) i text := by
  induction text generalizing a i with
  | nil => exact .refl a i
  | cons v rest ih => exact (single a i v).append (ih _ _)

end Text

end Traced

end TestOs.Library
