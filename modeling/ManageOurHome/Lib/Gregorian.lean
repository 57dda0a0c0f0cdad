import Mathlib.Algebra.Ring.Int.Defs
import Mathlib.Data.Int.Order.Basic
import Mathlib.Tactic.Common

/-! @lib civil dates | layer:library | family:calendar

    The dates of the Gregorian calendar, of a range of years: a year, a month and a day that exist together.

        2028-03-01   ── the day before ──▶   2028-02-29 -/

namespace Gregorian

def isLeap (year : ℤ) : Bool := year % 4 = 0 ∧ (year % 100 ≠ 0 ∨ year % 400 = 0)

/-- The last day of a month. -/
def lastDay (year : ℤ) (month : ℕ) : ℕ :=
  match month with
  | 2 => if isLeap year then 29 else 28
  | 4 | 6 | 9 | 11 => 30
  | _ => 31

structure Date (lo hi : ℤ) where
  year : ℤ
  month : ℕ
  day : ℕ
  exists_ : lo ≤ year ∧ year ≤ hi ∧ 1 ≤ month ∧ month ≤ 12 ∧ 1 ≤ day ∧ day ≤ lastDay year month
  deriving DecidableEq

/-- The days from 1970-01-01 to the first day of a year. -/
def daysToYear (year : ℤ) : ℤ :=
  365 * (year - 1970) + ((year - 1) / 4 - (year - 1) / 100 + (year - 1) / 400 - 477)

variable {lo hi : ℤ}

/-- The days from 1970-01-01. -/
def Date.sinceEpoch (d : Date lo hi) : ℤ :=
  daysToYear d.year + ((List.range (d.month - 1)).map fun m => (lastDay d.year (m + 1) : ℤ)).sum + (d.day - 1 : ℤ)

/-- The date of a year, a month and a day, if it exists. -/
def Date.ofYmd (year : ℤ) (month day : ℕ) : Option (Date lo hi) :=
  if h : lo ≤ year ∧ year ≤ hi ∧ 1 ≤ month ∧ month ≤ 12 ∧ 1 ≤ day ∧ day ≤ lastDay year month then
    some ⟨year, month, day, h⟩
  else none

/-- The day before. -/
def Date.pred (d : Date lo hi) : Option (Date lo hi) :=
  if 1 < d.day then ofYmd d.year d.month (d.day - 1)
  else if 1 < d.month then ofYmd d.year (d.month - 1) (lastDay d.year (d.month - 1))
  else ofYmd (d.year - 1) 12 31

theorem lastDay_pos (year : ℤ) (month : ℕ) : 1 ≤ lastDay year month := by
  unfold lastDay
  split
  · split
    · decide
    · decide
  all_goals decide

variable {year : ℤ} {month day : ℕ} {d : Date lo hi}

theorem Date.ofYmd_eq_some : Date.ofYmd year month day = some d ↔ d.year = year ∧ d.month = month ∧ d.day = day := by
  unfold ofYmd
  constructor
  · intro h
    split at h
    · obtain rfl := Option.some.inj h
      exact ⟨rfl, rfl, rfl⟩
    · exact absurd h (by simp)
  · rintro ⟨rfl, rfl, rfl⟩
    exact dif_pos d.exists_

/-- The day before the first of a month is the last of the month before. -/
theorem Date.pred_first (hday : d.day = 1) (hmonth : 1 < d.month) : d.pred =
    ofYmd d.year (d.month - 1) (lastDay d.year (d.month - 1)) := by
  rw [pred, if_neg (by omega), if_pos hmonth]

theorem Date.pred_newYear (hday : d.day = 1) (hmonth : d.month = 1) : d.pred = ofYmd (d.year - 1) 12 31 := by
  rw [pred, if_neg (by omega), if_neg (by omega)]

end Gregorian
