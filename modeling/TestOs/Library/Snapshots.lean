/-
# Library.Snapshots -- registers that change while they are read

A source has a value in each of its registers and moves on by itself: an update
changes the registers to the values of the next instant, one by one and in any
order.  Who reads the registers one after the other may see some of them before
and some after the change, and not notice.

What helps is to read twice: a register that has the same value before and after a
point at which no update is going on had it at that point, if the time between is
too short for a value to come back (`Lasting`).
-/
import Mathlib

namespace TestOs.Library

set_option autoImplicit false

/-- How far a source is; while it updates, also which registers are of the next instant. -/
structure Source (ι : Type) where
  now : Nat
  update : Option (ι → Bool)

/-- What a source does by itself. -/
inductive Move (ι : Type) where
  | start
  | change (i : ι)
  | finish
  deriving DecidableEq, Repr

namespace Source

variable {ι : Type} {s t u : Source ι}

/-- The instant whose value register `i` has. -/
def instant (s : Source ι) (i : ι) : Nat :=
  match s.update with
  | some changed => if changed i then s.now + 1 else s.now
  | none => s.now

theorem now_le_instant (s : Source ι) (i : ι) : s.now ≤ s.instant i := by
  unfold instant
  split
  · split <;> omega
  · exact le_rfl

theorem instant_le (s : Source ι) (i : ι) : s.instant i ≤ s.now + 1 := by
  unfold instant
  split
  · split <;> omega
  · exact Nat.le_succ _

theorem instant_of_quiet (quiet : s.update = none) (i : ι) : s.instant i = s.now := by
  simp [instant, quiet]

/-- No register goes back. -/
structure Before (s t : Source ι) : Prop where
  now : s.now ≤ t.now
  instant : ∀ i, s.instant i ≤ t.instant i

theorem Before.refl (s : Source ι) : s.Before s := ⟨le_rfl, fun _ => le_rfl⟩

theorem Before.trans (first : s.Before t) (second : t.Before u) : s.Before u :=
  ⟨first.now.trans second.now, fun i => (first.instant i).trans (second.instant i)⟩

variable [DecidableEq ι]

/-- One move; one that is not possible does nothing, and `finish` changes what is left. -/
def move (s : Source ι) : Move ι → Source ι
  | .start => { s with update := some (s.update.getD fun _ => false) }
  | .change i => { s with update := s.update.map fun changed => Function.update changed i true }
  | .finish => if s.update.isSome then ⟨s.now + 1, none⟩ else s

def moves (s : Source ι) (all : List (Move ι)) : Source ι := all.foldl move s

@[simp] theorem moves_nil : s.moves [] = s := rfl

theorem before_move (s : Source ι) (m : Move ι) : s.Before (s.move m) := by
  obtain ⟨now, update⟩ := s
  cases m with
  | start =>
      cases update with
      | none => exact ⟨le_rfl, fun i => by simp [move, instant]⟩
      | some changed => exact .refl _
  | change j =>
      cases update with
      | none => exact .refl _
      | some changed =>
          refine ⟨le_rfl, fun i => ?_⟩
          by_cases same : i = j
          · subst same
            simp only [move, instant, Option.map_some, Function.update_self, if_true]
            split <;> omega
          · simp [move, instant, same]
  | finish =>
      cases update with
      | none => exact .refl _
      | some changed =>
          refine ⟨Nat.le_succ now, fun i => ?_⟩
          simpa [move, instant_of_quiet] using instant_le ⟨now, some changed⟩ i

theorem before_moves (s : Source ι) (all : List (Move ι)) : s.Before (s.moves all) := by
  induction all generalizing s with
  | nil => exact .refl s
  | cons m all ih => exact (before_move s m).trans (ih (s.move m))

end Source

/-! ## Values that do not come back -/

variable {β : Type}

/-- Within `width` instants, a value that is left does not come back. -/
def Lasting (value : Nat → β) (width : Nat) : Prop :=
  ∀ i n j, i ≤ n → n ≤ j → j < i + width → value i = value j → value n = value i

/-- What changes only every `width` instants. -/
theorem lasting_div (f : Nat → β) {width : Nat} (positive : 0 < width) :
    Lasting (fun i => f (i / width)) width := by
  intro i n j early late short same
  have low : i / width ≤ n / width := Nat.div_le_div_right early
  have high : n / width ≤ j / width := Nat.div_le_div_right late
  have last : j / width ≤ i / width + 1 := by
    rw [← Nat.add_div_right i positive]
    exact Nat.div_le_div_right short.le
  obtain first | second : n / width = i / width ∨ n / width = j / width := by omega
  · simp only [first]
  · simp only [second]
    exact same.symm

/-- What goes round and has another value at each of its `width` places. -/
theorem lasting_mod {f : Nat → β} {width : Nat}
    (injective : ∀ a < width, ∀ b < width, f a = f b → a = b) :
    Lasting (fun i => f (i % width)) width := by
  intro i n j early late short same
  obtain rfl | positive := Nat.eq_zero_or_pos width
  · omega
  have place := injective _ (Nat.mod_lt i positive) _ (Nat.mod_lt j positive) same
  obtain ⟨k, far⟩ := (Nat.modEq_iff_dvd' (early.trans late)).1 place
  obtain rfl | round := Nat.eq_zero_or_pos k
  · obtain rfl : i = n := by omega
    rfl
  · have := Nat.mul_le_mul_left width round
    omega

end TestOs.Library
