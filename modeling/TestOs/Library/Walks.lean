/-
# Library.Walks -- walks that stop

A walk applies one function again and again until it stops.  Where two states of
it are alike, what follows is alike, so a walk that comes back to a state that is
like an old one never stops.  With finitely many kinds of states a walk that
stops does so early (`stops_early`), and this is how much fuel it needs.
-/
import Mathlib

namespace TestOs.Library

set_option autoImplicit false

variable {σ : Type} {step : σ → σ} {stop : σ → Prop} {s t : σ}

/-- The walk from `s` stops. -/
def Stops (step : σ → σ) (stop : σ → Prop) (s : σ) : Prop := ∃ n, stop (step^[n] s)

theorem stops_of_stop (now : stop s) : Stops step stop s := ⟨0, now⟩

theorem stops_of_step (later : Stops step stop (step s)) : Stops step stop s := by
  obtain ⟨n, there⟩ := later
  exact ⟨n + 1, there⟩

/-- Walks from states that are alike stay alike. -/
theorem alike_iterate {alike : σ → σ → Prop}
    (keeps : ∀ s t, alike s t → alike (step s) (step t)) (start : alike s t) (n : Nat) :
    alike (step^[n] s) (step^[n] t) := by
  induction n generalizing s t with
  | zero => exact start
  | succ n ih => exact ih (keeps s t start)

/-- **A walk that stops does so before it has seen more states than there are kinds.** -/
theorem stops_early (alike : σ → σ → Prop)
    (keeps : ∀ s t, alike s t → alike (step s) (step t))
    (stops : ∀ s t, alike s t → stop s → stop t) (kind : Nat → Nat) {kinds : Nat}
    (few : ∀ n, kind n < kinds) (same : ∀ i j, kind i = kind j → alike (step^[i] s) (step^[j] s))
    (ends : Stops step stop s) : ∃ n < kinds, stop (step^[n] s) := by
  classical
  refine ⟨Nat.find ends, ?_, Nat.find_spec ends⟩
  by_contra late
  -- two of the states before the first stop are of one kind
  obtain ⟨i, inside, j, inside', different, twice⟩ :=
    Finset.exists_ne_map_eq_of_card_lt_of_maps_to (s := Finset.range (kinds + 1))
      (t := Finset.range kinds) (by simp) fun n _ => Finset.mem_coe.2 (Finset.mem_range.2 (few n))
  have earlier (i j : Nat) (inside : j < kinds + 1) (less : i < j) (twice : kind i = kind j) : False := by
    obtain ⟨rest, isEnd⟩ : ∃ rest, Nat.find ends = rest + j := ⟨Nat.find ends - j, by omega⟩
    have there := Nat.find_spec ends
    rw [isEnd, Function.iterate_add_apply] at there
    have back := stops _ _ (alike_iterate keeps (same j i twice.symm) rest) there
    rw [← Function.iterate_add_apply] at back
    have first := Nat.find_min' ends back
    omega
  rw [Finset.mem_range] at inside inside'
  rcases Nat.lt_or_gt_of_ne different with less | less
  · exact earlier i j inside' less twice
  · exact earlier j i inside less twice.symm

end TestOs.Library
