import Mathlib.Data.Int.ModEq

/-! The Gregorian calendar, without a beginning.

A month has its days, and the days have weekdays, one after the other. So every weekday is among the first seven days of
any month, and every day that a month ever has is there in some year. -/
namespace Funbun.Library.Calendar

def IsLeap (year : Int) : Prop := year % 4 = 0 ∧ (year % 100 ≠ 0 ∨ year % 400 = 0)

instance (year : Int) : Decidable (IsLeap year) := inferInstanceAs (Decidable (_ ∧ _))

/-- For months from 1 to 12 -/
def daysInMonth (year : Int) (month : Nat) : Nat :=
  if month = 2 then if IsLeap year then 29 else 28
  else if month = 4 ∨ month = 6 ∨ month = 9 ∨ month = 11 then 30
  else 31

/-- The days of the year before a month -/
def daysBefore (year : Int) (month : Nat) : Nat := ((List.range' 1 (month - 1)).map (daysInMonth year)).sum

/-- The days from the first day of the year 0, which may be below zero. -/
def dayNumber (year : Int) (month day : Nat) : Int :=
  365 * year + (year + 3) / 4 - (year + 99) / 100 + (year + 399) / 400 + daysBefore year month + day - 1

/-- From Sunday, which is 0. The first day of the year 0 is a Saturday. -/
def weekday (year : Int) (month day : Nat) : Nat := ((dayNumber year month day + 6) % 7).toNat

/-- A minute, as a calendar and a clock tell it -/
structure DateTime where
  year : Int
  month : Nat
  day : Nat
  hour : Nat
  minute : Nat
  month_pos : 1 ≤ month
  month_le : month ≤ 12
  day_pos : 1 ≤ day
  day_le : day ≤ daysInMonth year month
  hour_lt : hour < 24
  minute_lt : minute < 60

def DateTime.weekday (t : DateTime) : Nat := Calendar.weekday t.year t.month t.day

example : weekday 1970 1 1 = 4 ∧ weekday 2000 2 29 = 2 ∧ weekday 2026 1 1 = 4 := by decide

/-! ### Months -/

theorem daysInMonth_ge (year : Int) (month : Nat) : 28 ≤ daysInMonth year month := by
  unfold daysInMonth
  split_ifs <;> decide

theorem daysInMonth_le (year : Int) (month : Nat) : daysInMonth year month ≤ 31 := by
  unfold daysInMonth
  split_ifs <;> decide

/-- The year 0 is a leap year, and its months are the longest. -/
theorem daysInMonth_le_zero (year : Int) (month : Nat) : daysInMonth year month ≤ daysInMonth 0 month := by
  have hleap : IsLeap 0 := by decide
  unfold daysInMonth
  rw [if_pos hleap]
  split_ifs <;> decide

theorem DateTime.day_le_longest (t : DateTime) : t.day ≤ daysInMonth 0 t.month :=
  Nat.le_trans t.day_le (daysInMonth_le_zero t.year t.month)

theorem DateTime.day_le_31 (t : DateTime) : t.day ≤ 31 := Nat.le_trans t.day_le (daysInMonth_le t.year t.month)

/-! ### Weekdays -/

theorem weekday_lt (year : Int) (month day : Nat) : weekday year month day < 7 := by
  unfold weekday
  omega

theorem DateTime.weekday_lt (t : DateTime) : t.weekday < 7 := Calendar.weekday_lt t.year t.month t.day

theorem weekday_add (year : Int) (month day k : Nat) :
    weekday year month (day + k) = (weekday year month day + k) % 7 := by
  have hnumber : dayNumber year month (day + k) = dayNumber year month day + k := by
    unfold dayNumber
    push_cast
    omega
  unfold weekday
  rw [hnumber]
  omega

/-- Every weekday is among the first days of a month. -/
theorem exists_day_of_weekday (year : Int) (month : Nat) {w : Nat} (hw : w < 7) :
    ∃ day, 1 ≤ day ∧ day ≤ 7 ∧ weekday year month day = w := by
  have hfirst := weekday_lt year month 1
  refine ⟨1 + (w + 7 - weekday year month 1) % 7, by omega, by omega, ?_⟩
  rw [weekday_add]
  omega

end Funbun.Library.Calendar
