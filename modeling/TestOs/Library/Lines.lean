/-
# Library.Lines -- digital lines

A line that goes `du` places along its major axis rises by `dv` in all, with
`0 ≤ dv ≤ du`.  At place `i` its height is the integer nearest to `dv * i / du`,
the larger one of two (`rise`).  A loop does not need the quotient: from one place
to the next the height stays or grows by one, and the sign of a number that is
carried along says which (`rise_succ`, `leaning_succ`).
-/
import Mathlib

namespace TestOs.Library

set_option autoImplicit false

/-- The height of a digital line at place `i`. -/
def rise (du dv i : Int) : Int := (2 * dv * i + du) / (2 * du)

/-- What is carried along: not negative when the next height is the nearer one at the
next place. -/
def leaning (du dv i : Int) : Int := 2 * dv * (i + 1) - 2 * du * rise du dv i - du

section Lines

variable {du dv i : Int}

/-- The nearest integer is the only one in these bounds. -/
theorem rise_eq_iff (long : 0 < du) {j : Int} :
    rise du dv i = j ↔ -du < 2 * du * j - 2 * dv * i ∧ 2 * du * j - 2 * dv * i ≤ du := by
  have order : j * (2 * du) = 2 * du * j := Int.mul_comm ..
  unfold rise
  rw [Int.ediv_eq_iff_of_pos (by omega : 0 < 2 * du), order]
  constructor
  · rintro ⟨low, high⟩
    constructor <;> omega
  · rintro ⟨low, high⟩
    constructor <;> omega

theorem rise_near (long : 0 < du) (dv i : Int) :
    -du < 2 * du * rise du dv i - 2 * dv * i ∧ 2 * du * rise du dv i - 2 * dv * i ≤ du :=
  (rise_eq_iff long).1 rfl

theorem rise_zero (long : 0 < du) (dv : Int) : rise du dv 0 = 0 := by
  rw [rise_eq_iff long]
  constructor <;> omega

theorem leaning_zero (long : 0 < du) (dv : Int) : leaning du dv 0 = 2 * dv - du := by
  rw [leaning, rise_zero long]
  ring

/-- From one place to the next the height stays or grows by one. -/
theorem rise_succ (long : 0 < du) (level : 0 ≤ dv) (flat : dv ≤ du) (i : Int) :
    rise du dv (i + 1) = if leaning du dv i < 0 then rise du dv i else rise du dv i + 1 := by
  obtain ⟨low, high⟩ := rise_near long dv i
  have next : 2 * dv * (i + 1) = 2 * dv * i + 2 * dv := by ring
  have up : 2 * du * (rise du dv i + 1) = 2 * du * rise du dv i + 2 * du := by ring
  rw [rise_eq_iff long, next]
  unfold leaning
  rw [next]
  split
  · constructor <;> omega
  · rw [up]
    constructor <;> omega

theorem leaning_succ (long : 0 < du) (level : 0 ≤ dv) (flat : dv ≤ du) (i : Int) :
    leaning du dv (i + 1) =
      if leaning du dv i < 0 then leaning du dv i + 2 * dv else leaning du dv i + 2 * (dv - du) := by
  have succ := rise_succ long level flat i
  split
  · rename_i stays
    rw [if_pos stays] at succ
    unfold leaning
    rw [succ]
    ring
  · rename_i grows
    rw [if_neg grows] at succ
    unfold leaning
    rw [succ]
    ring

/-- The height is not negative, and not larger than the place. -/
theorem rise_bounds (long : 0 < du) (level : 0 ≤ dv) (flat : dv ≤ du) {i : Int} (start : 0 ≤ i) :
    0 ≤ rise du dv i ∧ rise du dv i ≤ i := by
  obtain ⟨low, high⟩ := rise_near long dv i
  have along : 0 ≤ dv * i := mul_nonneg level start
  have slower : dv * i ≤ du * i := mul_le_mul_of_nonneg_right flat start
  constructor
  · by_contra below
    have steps : du * rise du dv i ≤ du * (-1) := mul_le_mul_of_nonneg_left (by omega) (by omega)
    nlinarith
  · by_contra above
    have steps : du * (i + 1) ≤ du * rise du dv i := mul_le_mul_of_nonneg_left (by omega) (by omega)
    nlinarith

theorem leaning_bounds (long : 0 < du) (level : 0 ≤ dv) (flat : dv ≤ du) (i : Int) :
    -2 * du ≤ leaning du dv i ∧ leaning du dv i < 2 * du := by
  obtain ⟨low, high⟩ := rise_near long dv i
  have next : 2 * dv * (i + 1) = 2 * dv * i + 2 * dv := by ring
  unfold leaning
  rw [next]
  constructor <;> omega

end Lines

end TestOs.Library
