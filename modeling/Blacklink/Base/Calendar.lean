import Mathlib.Algebra.BigOperators.Intervals
import Mathlib.Algebra.Order.BigOperators.Group.Finset
import Mathlib.Order.Iterate

/-!
# The Gregorian calendar

The rule for leap years, the dates, and the day that follows on a day. A date is numbered by the
days of the years, of the months and of the month before it, which counts the days that are gone
since the first of January of a year.
-/

namespace Blacklink.Base

/-- A year with a 29th of February. -/
def isLeap (year : Nat) : Bool := year % 4 = 0 && (year % 100 ≠ 0 || year % 400 = 0)

def yearLength (year : Nat) : Nat := if isLeap year then 366 else 365

/-- The months are numbered from 1. -/
def monthLength (year month : Nat) : Nat :=
  if month = 2 then if isLeap year then 29 else 28
  else if month = 4 ∨ month = 6 ∨ month = 9 ∨ month = 11 then 30
  else 31

/-- A day of the calendar. -/
@[ext]
structure Date where
  year : Nat
  month : Nat
  day : Nat
  month_pos : 0 < month
  month_le : month ≤ 12
  day_pos : 0 < day
  day_le : day ≤ monthLength year month

/-- A time of a day. -/
structure TimeOfDay where
  hour : Fin 24
  minute : Fin 60
  second : Fin 60

/-- The seconds that are gone of the day. -/
def TimeOfDay.seconds (t : TimeOfDay) : Nat := 60 * (60 * t.hour + t.minute) + t.second

/-- The time after a number of seconds. -/
def TimeOfDay.ofSeconds (n : Nat) : TimeOfDay where
  hour := ⟨n / 3600 % 24, Nat.mod_lt _ (by decide)⟩
  minute := ⟨n / 60 % 60, Nat.mod_lt _ (by decide)⟩
  second := ⟨n % 60, Nat.mod_lt _ (by decide)⟩

theorem TimeOfDay.seconds_ofSeconds (n : Nat) : (ofSeconds n).seconds = n % 86400 := by
  simp only [seconds, ofSeconds]
  omega

theorem monthLength_pos (year month : Nat) : 0 < monthLength year month := by
  unfold monthLength
  split_ifs <;> decide

theorem monthLength_le (year month : Nat) : monthLength year month ≤ 31 := by
  unfold monthLength
  split_ifs <;> decide

/-- The first of January. -/
def Date.newYear (year : Nat) : Date where
  year := year
  month := 1
  day := 1
  month_pos := Nat.one_pos
  month_le := by decide
  day_pos := Nat.one_pos
  day_le := monthLength_pos year 1

/-- The next day. -/
def Date.next (d : Date) : Date :=
  if hday : d.day < monthLength d.year d.month then
    { d with day := d.day + 1, day_pos := d.day.succ_pos, day_le := hday }
  else if hmonth : d.month < 12 then
    { year := d.year
      month := d.month + 1
      day := 1
      month_pos := d.month.succ_pos
      month_le := hmonth
      day_pos := Nat.one_pos
      day_le := monthLength_pos d.year (d.month + 1) }
  else newYear (d.year + 1)

/-- The days from one year to another. -/
def yearsLength (first year : Nat) : Nat := ∑ y ∈ Finset.Ico first year, yearLength y

/-- The days of a year before a month. -/
def monthsLength (year month : Nat) : Nat := ∑ m ∈ Finset.Ico 1 month, monthLength year m

/-- The days before a day, from a year on. -/
def Date.dayNumber (first : Nat) (d : Date) : Nat :=
  yearsLength first d.year + monthsLength d.year d.month + (d.day - 1)

theorem yearsLength_self (first : Nat) : yearsLength first first = 0 := by
  rw [yearsLength, Finset.Ico_self, Finset.sum_empty]

theorem yearsLength_succ {first year : Nat} (h : first ≤ year) :
    yearsLength first (year + 1) = yearsLength first year + yearLength year :=
  Finset.sum_Ico_succ_top h _

theorem yearsLength_mono (first : Nat) {y z : Nat} (h : y ≤ z) :
    yearsLength first y ≤ yearsLength first z :=
  Finset.sum_le_sum_of_subset (Finset.Ico_subset_Ico_right h)

theorem monthsLength_one (year : Nat) : monthsLength year 1 = 0 := by
  rw [monthsLength, Finset.Ico_self, Finset.sum_empty]

theorem monthsLength_succ (year : Nat) {month : Nat} (h : 0 < month) :
    monthsLength year (month + 1) = monthsLength year month + monthLength year month :=
  Finset.sum_Ico_succ_top h _

theorem monthsLength_eq (year : Nat) : monthsLength year 13 = yearLength year := by
  simp only [monthsLength_succ, monthsLength_one, monthLength, yearLength,
    Nat.reduceAdd, Nat.reduceEqDiff, Nat.zero_lt_succ, or_false, or_self, or_true, if_false, if_true]
  split_ifs <;> rfl

namespace Date

variable {first : Nat} {d : Date}

theorem year_le_next (d : Date) : d.year ≤ d.next.year := by
  unfold next
  split_ifs
  · exact le_rfl
  · exact le_rfl
  · exact d.year.le_succ

/-- The numbers of the days follow on each other. -/
theorem dayNumber_next (h : first ≤ d.year) : d.next.dayNumber first = d.dayNumber first + 1 := by
  have hpos := d.day_pos
  have hle := d.day_le
  unfold next
  split_ifs with hday hmonth
  · simp only [dayNumber]
    omega
  · simp only [dayNumber, monthsLength_succ d.year d.month_pos]
    omega
  · have hmonths := monthsLength_succ d.year d.month_pos
    rw [show d.month + 1 = 13 by have := d.month_le; omega, monthsLength_eq] at hmonths
    simp only [dayNumber, newYear, yearsLength_succ h, monthsLength_one]
    omega

/-- The day that is a number of days behind another one. -/
def after (d : Date) (n : Nat) : Date := next^[n] d

theorem year_le_after (d : Date) (n : Nat) : d.year ≤ (d.after n).year := by
  induction n with
  | zero => exact le_rfl
  | succ n ih =>
    rw [after, Function.iterate_succ_apply']
    exact ih.trans (year_le_next _)

theorem dayNumber_after (h : first ≤ d.year) (n : Nat) :
    (d.after n).dayNumber first = d.dayNumber first + n := by
  induction n with
  | zero => rfl
  | succ n ih =>
    have hnext : (d.after (n + 1)) = (d.after n).next := Function.iterate_succ_apply' ..
    rw [hnext, dayNumber_next (h.trans (year_le_after d n)), ih, Nat.add_assoc]

theorem dayNumber_newYear (first : Nat) : (newYear first).dayNumber first = 0 := by
  rw [dayNumber, newYear, yearsLength_self, monthsLength_one, Nat.sub_self]

/-- The day with a number. -/
theorem dayNumber_newYear_after (first n : Nat) :
    ((newYear first).after n).dayNumber first = n := by
  rw [dayNumber_after (le_refl first), dayNumber_newYear, Nat.zero_add]

theorem yearsLength_le_dayNumber (first : Nat) (d : Date) :
    yearsLength first d.year ≤ d.dayNumber first := by
  rw [dayNumber, Nat.add_assoc]
  exact Nat.le_add_right ..

/-- A day that is not behind the years up to one is in a year before it. -/
theorem year_lt_of_dayNumber_lt {year : Nat} (h : d.dayNumber first < yearsLength first year) :
    d.year < year := by
  by_contra hge
  have hmono := yearsLength_mono first (Nat.not_lt.mp hge)
  exact absurd (hmono.trans (yearsLength_le_dayNumber first d)) (Nat.not_le.mpr h)

end Date

end Blacklink.Base
