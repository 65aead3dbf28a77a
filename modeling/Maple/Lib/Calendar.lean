import Mathlib.Algebra.Order.Group.Nat
import Mathlib.Tactic.IntervalCases

/-!
# The Gregorian calendar

Days are numbered from the first of January of the year 1 by adding up the lengths of the
years and months before them.
-/

set_option autoImplicit false

namespace Maple.Calendar

def isLeap (year : ℕ) : Prop := year%4 = 0 ∧ (year%100 ≠ 0 ∨ year%400 = 0)

instance (year : ℕ) : Decidable (isLeap year) := inferInstanceAs (Decidable (_ ∧ _))

def daysInMonth (year month : ℕ) : ℕ :=
  if month = 2 then (if isLeap year then 29 else 28)
  else if month = 4 ∨ month = 6 ∨ month = 9 ∨ month = 11 then 30 else 31

def daysInYear (year : ℕ) : ℕ := if isLeap year then 366 else 365

/-- The days of the years from 1 to `year`. -/
def daysThrough : ℕ → ℕ
  | 0 => 0
  | year+1 => daysThrough year+daysInYear (year+1)

/-- The days of the first months of a year. -/
def daysOfMonths (year : ℕ) : ℕ → ℕ
  | 0 => 0
  | month+1 => daysOfMonths year month+daysInMonth year (month+1)

def dayNumber (year month day : ℕ) : ℕ :=
  daysThrough (year-1)+daysOfMonths year (month-1)+(day-1)

variable (year : ℕ)

theorem daysThrough_closed : daysThrough year+year/100 = 365*year+year/4+year/400 := by
  induction year with
  | zero => rfl
  | succ year ih =>
    simp only [daysThrough]
    by_cases h : isLeap (year+1)
    · simp only [daysInYear, if_pos h]
      unfold isLeap at h
      omega
    · simp only [daysInYear, if_neg h]
      unfold isLeap at h
      omega

theorem daysThrough_mono {a b : ℕ} (h : a ≤ b) : daysThrough a ≤ daysThrough b := by
  induction h with
  | refl => exact le_rfl
  | step _ ih => exact ih.trans (Nat.le_add_right _ _)

theorem daysOfMonths_mono {a b : ℕ} (h : a ≤ b) : daysOfMonths year a ≤ daysOfMonths year b := by
  induction h with
  | refl => exact le_rfl
  | step _ ih => exact ih.trans (Nat.le_add_right _ _)

theorem daysOfMonths_year : daysOfMonths year 12 = daysInYear year := by
  by_cases h : isLeap year <;> simp [daysOfMonths, daysInMonth, daysInYear, h]

structure Date where
  year : ℕ
  month : ℕ
  day : ℕ
  year_pos : 1 ≤ year
  month_pos : 1 ≤ month
  month_le : month ≤ 12
  day_pos : 1 ≤ day
  day_le : day ≤ daysInMonth year month

def Date.number (date : Date) : ℕ := dayNumber date.year date.month date.day

/-- Earlier by year, then by month, then by day. -/
def Date.Before (a b : Date) : Prop :=
  a.year < b.year ∨ a.year = b.year ∧ (a.month < b.month ∨ a.month = b.month ∧ a.day < b.day)

section Order
variable {a b : Date}

theorem month_end (a : Date) : a.number < daysThrough (a.year-1)+daysOfMonths a.year a.month := by
  obtain ⟨year,month,day,_,hmonth,_,hday,hle⟩ := a
  obtain ⟨month,rfl⟩ := Nat.exists_eq_add_of_le' hmonth
  simp only [Date.number, dayNumber, Nat.add_sub_cancel, daysOfMonths]
  omega

theorem year_end (a : Date) : a.number < daysThrough a.year := by
  have hend := month_end a
  have hmonths := daysOfMonths_mono a.year a.month_le
  rw [daysOfMonths_year] at hmonths
  have hyear : daysThrough (a.year-1)+daysInYear a.year = daysThrough a.year := by
    obtain ⟨year,hyear⟩ := Nat.exists_eq_add_of_le' a.year_pos
    rw [hyear]
    rfl
  omega

theorem number_lt (h : a.Before b) : a.number < b.number := by
  rcases h with hyear | ⟨hyear,hmonth | ⟨hmonth,hday⟩⟩
  · have hend := year_end a
    have hle := daysThrough_mono (Nat.le_sub_one_of_lt hyear)
    simp only [Date.number, dayNumber] at hend ⊢
    omega
  · have hend := month_end a
    have hle := daysOfMonths_mono a.year (Nat.le_sub_one_of_lt hmonth)
    simp only [Date.number, dayNumber, hyear] at hend hle ⊢
    omega
  · have hpos := a.day_pos
    simp only [Date.number, dayNumber, hyear, hmonth]
    omega

theorem before_iff : a.Before b ↔ a.number < b.number := by
  refine ⟨number_lt,fun h => ?_⟩
  by_contra hnot
  by_cases hback : b.Before a
  · exact absurd (number_lt hback) (by omega)
  · unfold Date.Before at hnot hback
    have hsame : a.number = b.number := by
      rw [Date.number, Date.number, show a.year = b.year by omega,
        show a.month = b.month by omega, show a.day = b.day by omega]
    omega

theorem number_inj (h : a.number = b.number) :
    a.year = b.year ∧ a.month = b.month ∧ a.day = b.day := by
  have hnot : ¬a.Before b := by rw [before_iff, h]; omega
  have hback : ¬b.Before a := by rw [before_iff, h]; omega
  unfold Date.Before at hnot hback
  omega

end Order

/-- In years that begin in March the months before a month add up along one line, and the
day of leap years comes last. -/
theorem number_from_march {year shift : ℕ} (h : shift ≤ 11) (hyear : 10 ≤ shift ∨ 1 ≤ year)
    (day : ℕ) :
    dayNumber (if shift < 10 then year else year+1)
        (if shift < 10 then shift+3 else shift-9) day+306 =
      daysThrough year+(153*shift+2)/5+(day-1) := by
  rcases hyear with hshift | hyear
  · rw [if_neg (by omega), if_neg (by omega)]
    have hcases : shift = 10 ∨ shift = 11 := by omega
    rcases hcases with rfl | rfl
    · simp [dayNumber, daysOfMonths]
      omega
    · simp [dayNumber, daysOfMonths, daysInMonth]
      omega
  · obtain ⟨before,rfl⟩ := Nat.exists_eq_add_of_le' hyear
    by_cases hleap : isLeap (before+1)
    · interval_cases shift <;>
        simp [dayNumber, daysOfMonths, daysInMonth, daysThrough, daysInYear, hleap] <;> omega
    · interval_cases shift <;>
        simp [dayNumber, daysOfMonths, daysInMonth, daysThrough, daysInYear, hleap] <;> omega

end Maple.Calendar
