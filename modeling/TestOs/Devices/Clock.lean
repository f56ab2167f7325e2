/-
# Devices.Clock -- the seconds since 1970

`to_timestamp` begins the year in March, so that the day that a leap year has more
is its last one: the days before a month are then 367 times the month, divided by
12.  `daysSince_shifted` is that formula over the natural numbers, against a
calendar that adds up years and months; in 32-bit arithmetic the rest follows
because all operations but the divisions are those of a ring.
-/
import TestOs.Library.Calendar

namespace TestOs.Devices

open TestOs.Library

set_option autoImplicit false

/-- `to_timestamp`; an `unsigned long` has 32 bits. -/
def toTimestamp (year month day hour minute second : BitVec 32) : BitVec 32 :=
  let month := month - 2
  let (month, year) := if 0 ≥ month.toInt then (month + 12, year - 1) else (month, year)
  ((((year / 4 - year / 100 + year / 400 + 367 * month / 12 + day) + year * 365 - 719499) * 24 + hour) *
    60 + minute) * 60 + second

/-- The time stamp of a second of a day. -/
def stamp (d : Date) (t : TimeOfDay) : BitVec 32 :=
  toTimestamp (.ofNat 32 d.year) (.ofNat 32 d.month) (.ofNat 32 d.day) (.ofNat 32 t.hour)
    (.ofNat 32 t.minute) (.ofNat 32 t.second)

/-! ## The year from March on -/

/-- The year and the month behind the `if`. -/
def shifted (d : Date) : Nat × Nat := if d.month ≤ 2 then (d.year - 1, d.month + 10) else (d.year, d.month - 2)

section Shifted

variable {d : Date}

/-- The days before a month, from March on. -/
theorem sum_monthLength (d : Date) :
    ∑ month ∈ Finset.Ico 1 d.month, monthLength d.year month + (if d.month ≤ 2 then 336 else 0) =
      367 * (shifted d).2 / 12 + if d.month ≤ 2 then 0 else if IsLeap d.year then 30 else 29 := by
  obtain ⟨year, month, day, positive, atMost, -, -⟩ := d
  unfold shifted monthLength
  simp only []
  by_cases leap : IsLeap year <;> interval_cases month <;> simp [Finset.sum_Ico_succ_top, leap]

/-- The days since 1970, without a sum. -/
theorem daysSince_shifted (from_ : 1970 ≤ d.year) :
    d.daysSince 1970 + 719499 + (shifted d).1 / 100 =
      (shifted d).1 / 4 + (shifted d).1 / 400 + 367 * (shifted d).2 / 12 + d.day + (shifted d).1 * 365 := by
  have years := sum_yearLength (by decide) from_
  have months := sum_monthLength d
  have dayPos := d.day_pos
  unfold Date.daysSince
  by_cases early : d.month ≤ 2
  · have before : (shifted d).1 = d.year - 1 := by rw [shifted, if_pos early]
    rw [if_pos early, if_pos early] at months
    rw [before]
    omega
  · have same : (shifted d).1 = d.year := by rw [shifted, if_neg early]
    rw [if_neg early, if_neg early] at months
    rw [same]
    by_cases leap : IsLeap d.year
    · rw [if_pos leap] at months
      unfold IsLeap at leap
      omega
    · rw [if_neg leap] at months
      unfold IsLeap at leap
      omega

end Shifted

/-! ## 32 bits -/

section Words

variable {d : Date}

theorem ofNat_eq_cast (n : Nat) : BitVec.ofNat 32 n = (n : BitVec 32) := rfl

theorem cast_div {n k : Nat} (small : n < 2 ^ 32) (small' : k < 2 ^ 32) :
    (n : BitVec 32) / (k : BitVec 32) = ((n / k : Nat) : BitVec 32) := by
  apply BitVec.eq_of_toNat_eq
  show n % 2 ^ 32 / (k % 2 ^ 32) = n / k % 2 ^ 32
  rw [Nat.mod_eq_of_lt small, Nat.mod_eq_of_lt small',
    Nat.mod_eq_of_lt ((Nat.div_le_self n k).trans_lt small)]

/-- The `if` is decided by the month. -/
theorem shift_month {month : Nat} (positive : 1 ≤ month) (atMost : month ≤ 12) :
    (0 ≥ (BitVec.ofNat 32 month - 2).toInt ↔ month ≤ 2) ∧
      BitVec.ofNat 32 month - 2 + 12 = BitVec.ofNat 32 (month + 10) ∧
      (2 < month → BitVec.ofNat 32 month - 2 = BitVec.ofNat 32 (month - 2)) := by
  interval_cases month <;> decide

/-- The time stamp, with the shifted month and year. -/
theorem stamp_shifted (d : Date) (t : TimeOfDay) (from_ : 1 ≤ d.year) :
    stamp d t =
      (((((shifted d).1 : BitVec 32) / 4 - ((shifted d).1 : BitVec 32) / 100 +
        ((shifted d).1 : BitVec 32) / 400 + 367 * ((shifted d).2 : BitVec 32) / 12 + (d.day : BitVec 32) +
        ((shifted d).1 : BitVec 32) * 365 - 719499) * 24 + (t.hour : BitVec 32)) * 60 +
        (t.minute : BitVec 32)) * 60 + (t.second : BitVec 32) := by
  obtain ⟨decides, wraps, stays⟩ := shift_month d.month_pos d.month_le
  unfold stamp toTimestamp shifted
  by_cases early : d.month ≤ 2
  · have back : BitVec.ofNat 32 d.year - 1 = ((d.year - 1 : Nat) : BitVec 32) := by
      rw [Nat.cast_sub from_, Nat.cast_one]
      rfl
    simp only [if_pos (decides.2 early), if_pos early, wraps, back]
    rfl
  · simp only [if_neg (mt decides.1 early), if_neg early]
    rw [stays (not_le.1 early)]
    rfl

/-- The formula of the code, for a month and a year that are shifted. -/
theorem formula_words {days year month day : Nat} (hour minute second : BitVec 32)
    (yearSmall : year < 2 ^ 32) (monthSmall : 367 * month < 2 ^ 32)
    (counts : days + 719499 + year / 100 =
      year / 4 + year / 400 + 367 * month / 12 + day + year * 365) :
    ((((year : BitVec 32) / 4 - (year : BitVec 32) / 100 + (year : BitVec 32) / 400 +
        367 * (month : BitVec 32) / 12 + (day : BitVec 32) + (year : BitVec 32) * 365 - 719499) * 24 +
        hour) * 60 + minute) * 60 + second =
      (((days : BitVec 32) * 24 + hour) * 60 + minute) * 60 + second := by
  have four : (year : BitVec 32) / 4 = ((year / 4 : Nat) : BitVec 32) := cast_div yearSmall (by decide)
  have hundred : (year : BitVec 32) / 100 = ((year / 100 : Nat) : BitVec 32) := cast_div yearSmall (by decide)
  have cycle : (year : BitVec 32) / 400 = ((year / 400 : Nat) : BitVec 32) := cast_div yearSmall (by decide)
  have months : 367 * (month : BitVec 32) / 12 = ((367 * month / 12 : Nat) : BitVec 32) := by
    rw [← cast_div monthSmall (by decide)]
    push_cast
    rfl
  have counted := congrArg (Nat.cast : Nat → BitVec 32) counts
  simp only [Nat.cast_add, Nat.cast_mul, Nat.cast_ofNat] at counted
  rw [four, hundred, cycle, months]
  linear_combination -86400 * counted

theorem stamp_eq (from_ : 1970 ≤ d.year) (inRange : d.year < 2 ^ 32) (t : TimeOfDay) :
    stamp d t = BitVec.ofNat 32 (d.secondsSince 1970 t) := by
  have year : (shifted d).1 ≤ d.year := by
    unfold shifted
    split_ifs
    · exact Nat.sub_le _ _
    · exact le_rfl
  have month : (shifted d).2 ≤ 12 := by
    have atMost := d.month_le
    unfold shifted
    split_ifs <;> simp only [] <;> omega
  rw [stamp_shifted d t (by omega), formula_words _ _ _ (year.trans_lt inRange) (by omega)
    (daysSince_shifted from_), ofNat_eq_cast, Date.secondsSince]
  push_cast
  rfl

/-- **A time stamp is the number of seconds since 1970, modulo 2^32; and the last second of a
day is followed by the first of the next.** -/
theorem stamp_counts (d : Date) (from_ : 1970 ≤ d.year) (inRange : d.year < 2 ^ 32) :
    (∀ t, stamp d t = BitVec.ofNat 32 (d.secondsSince 1970 t)) ∧
      (d.next.year < 2 ^ 32 → stamp d.next .first = stamp d .last + 1) := by
  refine ⟨stamp_eq from_ inRange, fun inRange' => ?_⟩
  rw [stamp_eq (from_.trans d.next_year_le) inRange', stamp_eq from_ inRange, Date.secondsSince_next from_]
  exact Nat.cast_succ _

/-- The last day of February in 2024. -/
def leapDay : Date := ⟨2024, 2, 29, by decide, by decide, by decide, by decide⟩

theorem leap_day_counts :
    (∀ t, stamp leapDay t = BitVec.ofNat 32 (leapDay.secondsSince 1970 t)) ∧
      (leapDay.next.year < 2 ^ 32 → stamp leapDay.next .first = stamp leapDay .last + 1) :=
  stamp_counts leapDay (by decide) (by decide)

example : stamp leapDay .last = 1709251199 := by decide

end Words

end TestOs.Devices
