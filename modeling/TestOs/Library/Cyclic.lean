/-
# Library.Cyclic -- windows of a cyclic buffer

A buffer of `n` slots is a function of the slot number, and `window n f start len`
are the slots met on `len` steps from `start` round the buffer.  A window of `n`
steps meets each slot once: `window_split` takes one slot out of it, and
`window_turn` starts it one slot later.
-/
import Mathlib.Data.List.Basic
import Mathlib.Data.List.Range

namespace TestOs.Library

set_option autoImplicit false

variable {α : Type} {n : Nat} {f : Nat → α}

def window (n : Nat) (f : Nat → α) (start len : Nat) : List α :=
  (List.range len).map fun i => f ((start + i) % n)

/-- How many steps lead from slot `start` to slot `slot`. -/
def offset (n start slot : Nat) : Nat := if start ≤ slot then slot - start else slot + n - start

theorem offset_lt {start slot : Nat} (start_lt : start < n) (slot_lt : slot < n) :
    offset n start slot < n := by
  unfold offset
  split <;> omega

/-- Less than a turn from `start`, the buffer ends once at most. -/
theorem add_mod_eq {start i : Nat} (start_lt : start < n) (short : i < n) :
    (start + i) % n = if start + i < n then start + i else start + i - n := by
  split
  · exact Nat.mod_eq_of_lt ‹_›
  · rw [Nat.mod_eq_sub_mod (by omega), Nat.mod_eq_of_lt (by omega)]

theorem offset_iff {start slot i : Nat} (start_lt : start < n) (slot_lt : slot < n) (short : i < n) :
    (start + i) % n = slot ↔ i = offset n start slot := by
  rw [add_mod_eq start_lt short, offset]
  constructor
  · intro same
    split at same <;> split <;> omega
  · rintro rfl
    split <;> split <;> omega

theorem window_append (start a b : Nat) :
    window n f start (a + b) = window n f start a ++ window n f (start + a) b := by
  simp only [window, List.range_add, List.map_append, List.map_map]
  congr 1
  apply List.map_congr_left
  intro i _
  simp [Nat.add_assoc]

theorem window_mod (start len : Nat) : window n f (start % n) len = window n f start len := by
  apply List.map_congr_left
  intro i _
  rw [Nat.mod_add_mod]

theorem window_succ (start len : Nat) :
    window n f start (len + 1) = f (start % n) :: window n f (start + 1) len := by
  rw [Nat.add_comm, window_append]
  rfl

/-- A store to a slot that the window does not meet. -/
theorem window_update {start slot : Nat} (x : α) (skip len : Nat) (start_lt : start < n)
    (slot_lt : slot < n) (short : skip + len ≤ n)
    (outside : offset n start slot < skip ∨ skip + len ≤ offset n start slot) :
    window n (Function.update f slot x) (start + skip) len = window n f (start + skip) len := by
  apply List.map_congr_left
  intro i member
  have inside := List.mem_range.1 member
  apply Function.update_of_ne
  intro same
  rw [Nat.add_assoc, offset_iff start_lt slot_lt (by omega)] at same
  omega

/-- A full turn, taken apart at one slot. -/
theorem window_split {start slot : Nat} (start_lt : start < n) (slot_lt : slot < n) :
    window n f start n = window n f start (offset n start slot) ++
      f slot :: window n f (start + (offset n start slot + 1)) (n - (offset n start slot + 1)) := by
  have bound := offset_lt start_lt slot_lt
  have there := (offset_iff start_lt slot_lt bound).2 rfl
  calc window n f start n
      = window n f start (offset n start slot + (n - (offset n start slot + 1) + 1)) := by
        congr 1
        omega
    _ = window n f start (offset n start slot) ++
          window n f (start + offset n start slot) (n - (offset n start slot + 1) + 1) :=
        window_append ..
    _ = _ := by rw [window_succ, there, Nat.add_assoc]

/-- The same turn with another value in the slot. -/
theorem window_set {start slot : Nat} (x : α) (start_lt : start < n) (slot_lt : slot < n) :
    window n (Function.update f slot x) start n = window n f start (offset n start slot) ++
      x :: window n f (start + (offset n start slot + 1)) (n - (offset n start slot + 1)) := by
  have bound := offset_lt start_lt slot_lt
  rw [window_split start_lt slot_lt, Function.update_self]
  congr 1
  · exact window_update x 0 _ start_lt slot_lt (by omega) (.inr (by omega))
  · congr 1
    exact window_update x _ _ start_lt slot_lt (by omega) (.inl (by omega))

/-- A full turn from the next slot on ends where it began. -/
theorem window_turn {start : Nat} (start_lt : start < n) :
    window n f (start + 1) n = window n f (start + 1) (n - 1) ++ [f start] := by
  obtain ⟨m, rfl⟩ : ∃ m, n = m + 1 := ⟨n - 1, by omega⟩
  rw [window_append, Nat.add_sub_cancel]
  congr 1
  show [f ((start + 1 + m + 0) % (m + 1))] = [f start]
  rw [show start + 1 + m + 0 = start + (m + 1) by omega, Nat.add_mod_right,
    Nat.mod_eq_of_lt start_lt]

end TestOs.Library
