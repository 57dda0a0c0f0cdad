import ManageOurHome.Lib.Gregorian
import Mathlib.Order.Bounds.Defs

/-! @src apps/shared/src/validation/national_days.rs | layer:proof | family:national days

    Easter Sunday of a year, by the Gregorian computus, against the tables it stands for: the first Sunday after the
    Paschal full moon, which the epact of the year dates. Days are counted from 1970-01-01, a Thursday.

        2024   golden number 11, epact 19   ──▶   full moon on 25 March   ──▶   31 March -/

namespace Home.Agenda

open Gregorian (Date daysToYear isLeap lastDay)

/-! ### The computus -/

/-- The values the computus goes through. -/
structure Computus where
  (a b c d e f g h i k l m : ℤ)

/-- Meeus/Jones/Butcher, by Euclidean division. -/
def computus (year : ℤ) : Computus :=
  let a := year % 19
  let (b, c) := (year / 100, year % 100)
  let (d, e) := (b / 4, b % 4)
  let f := (b + 8) / 25
  let g := (b - f + 1) / 3
  let h := (19 * a + b - d - g + 15) % 30
  let (i, k) := (c / 4, c % 4)
  let l := (32 + 2 * e + 2 * i - h - k) % 7
  let m := (a + 11 * h + 22 * l) / 451
  ⟨a, b, c, d, e, f, g, h, i, k, l, m⟩

def Computus.month (x : Computus) : ℤ := (x.h + x.l - 7 * x.m + 114) / 31

def Computus.day (x : Computus) : ℤ := (x.h + x.l - 7 * x.m + 114) % 31 + 1

/-- Every value the computus goes through, those within an expression included, in the order of its operations. -/
def Computus.values (year : ℤ) (x : Computus) : List ℤ :=
  [year, x.a, x.b, x.c, x.d, x.e, x.b + 8, x.f, x.b - x.f, x.b - x.f + 1, x.g, 19 * x.a, 19 * x.a + x.b,
    19 * x.a + x.b - x.d, 19 * x.a + x.b - x.d - x.g, 19 * x.a + x.b - x.d - x.g + 15, x.h, x.i, x.k, 2 * x.e,
    32 + 2 * x.e, 2 * x.i, 32 + 2 * x.e + 2 * x.i, 32 + 2 * x.e + 2 * x.i - x.h, 32 + 2 * x.e + 2 * x.i - x.h - x.k,
    x.l, 11 * x.h, x.a + 11 * x.h, 22 * x.l, x.a + 11 * x.h + 22 * x.l, x.m, x.h + x.l, 7 * x.m,
    x.h + x.l - 7 * x.m, x.h + x.l - 7 * x.m + 114, x.month, (x.h + x.l - 7 * x.m + 114) % 31, x.day]

/-- `u32::try_from`. -/
def u32TryFrom (n : ℤ) : Option ℕ := if 0 ≤ n ∧ n < 2 ^ 32 then some n.toNat else none

def easterSunday {lo hi : ℤ} (year : ℤ) : Option (Date lo hi) :=
  let x := computus year
  (u32TryFrom x.month).bind fun month => (u32TryFrom x.day).bind fun day => Date.ofYmd year month day

/-! ### The tables -/

/-- The place of a year in the 19-year cycle of the moon, from 1. -/
def goldenNumber (year : ℤ) : ℤ := year % 19 + 1

def century (year : ℤ) : ℤ := year / 100 + 1

/-- The leap days that century years have left out. -/
def solarCorrection (year : ℤ) : ℤ := 3 * century year / 4 - 12

/-- The days by which the moon is ahead of its cycle: eight in 2500 years. -/
def lunarCorrection (year : ℤ) : ℤ := (8 * century year + 5) / 25 - 5

/-- The age of the moon on 1 January, epacts 24, and 25 past the eleventh year of the cycle, being one more. -/
def epact (year : ℤ) : ℤ :=
  let e := (11 * goldenNumber year + 20 + lunarCorrection year - solarCorrection year) % 30
  if e = 24 ∨ (e = 25 ∧ 11 < goldenNumber year) then e + 1 else e

/-- The Paschal full moon, as a day of March: the first from the 21st on. -/
def fullMoonOfMarch (year : ℤ) : ℤ := if 44 - epact year < 21 then 74 - epact year else 44 - epact year

/-- A day of March, counted from 1970-01-01. -/
def marchDay (year n : ℤ) : ℤ := daysToYear year + 31 + lastDay year 2 + n - 1

def paschalFullMoon (year : ℤ) : ℤ := marchDay year (fullMoonOfMarch year)

def IsSunday (n : ℤ) : Prop := (n + 4) % 7 = 0

/-! ### One and the other -/

variable {year : ℤ}

/-- 1 March, counted with the leap days before it. -/
theorem marchDay_eq (year n : ℤ) :
    marchDay year n = 365 * year + year / 4 - year / 100 + year / 400 - 719469 + n := by
  rw [marchDay, daysToYear, lastDay, isLeap]
  split <;> simp_all <;> omega

/-- The month and the day, as a day of March. -/
theorem Computus.month_day (x : Computus) :
    31 * x.month + x.day = x.h + x.l - 7 * x.m + 115 ∧ 1 ≤ x.day ∧ x.day ≤ 31 := by
  rw [Computus.month, Computus.day]
  omega

/-- The days from the 21st of March to the full moon, before the exceptions. -/
theorem computus_h (year : ℤ) : (computus year).h =
    (23 - (11 * goldenNumber year + 20 + lunarCorrection year - solarCorrection year)) % 30 := by
  simp only [computus, goldenNumber, lunarCorrection, solarCorrection, century]
  -- the leap days left out, and the moon's, as the computus counts them
  have hsolar : 3 * (year / 100 + 1) / 4 = year / 100 - year / 100 / 4 := by omega
  have hlunar : (8 * (year / 100 + 1) + 5) / 25 = (year / 100 - (year / 100 + 8) / 25 + 1) / 3 := by omega
  rw [hsolar, hlunar]
  omega

/-- The week the computus counts from the 22nd of March on ends on a Sunday. -/
theorem computus_l (year : ℤ) : IsSunday (marchDay year (22 + (computus year).h + (computus year).l)) := by
  rw [IsSunday, marchDay_eq]
  simp only [computus]
  generalize (19 * (year % 19) + year / 100 - year / 100 / 4 - (year / 100 - (year / 100 + 8) / 25 + 1) / 3 + 15) % 30 =
    h
  have hyear : year = 100 * (year / 100) + year % 100 := by omega
  have hquarter : year / 4 = 25 * (year / 100) + year % 100 / 4 := by omega
  have hcycle : year / 400 = year / 100 / 4 := by omega
  rw [hquarter, hcycle]
  omega

/-- The full moon, as the computus has it. -/
theorem fullMoonOfMarch_eq (year : ℤ) : fullMoonOfMarch year =
    if (computus year).h = 29 ∨ ((computus year).h = 28 ∧ 10 < (computus year).a) then 20 + (computus year).h
    else 21 + (computus year).h := by
  have ha : (computus year).a = goldenNumber year - 1 := by
    simp only [computus, goldenNumber]
    omega
  rw [fullMoonOfMarch, epact, ha, computus_h]
  generalize 11 * goldenNumber year + 20 + lunarCorrection year - solarCorrection year = e
  split <;> split <;> omega

/-- What is left of the divisions. -/
theorem computus_bounds (year : ℤ) : (0 ≤ (computus year).a ∧ (computus year).a < 19) ∧
    (0 ≤ (computus year).h ∧ (computus year).h < 30) ∧ 0 ≤ (computus year).l ∧ (computus year).l < 7 := by
  simp only [computus]
  omega

/-- The computus goes back a week exactly where an exception lets it. -/
theorem computus_m (year : ℤ) : (computus year).m = if (computus year).l = 6 ∧ ((computus year).h = 29 ∨
    ((computus year).h = 28 ∧ 10 < (computus year).a)) then 1 else 0 := by
  obtain ⟨ha, hh, hl⟩ := computus_bounds year
  have hm : (computus year).m = ((computus year).a + 11 * (computus year).h + 22 * (computus year).l) / 451 := rfl
  rw [hm]
  split <;> omega

/-- The Sunday the computus gives is one to seven days after the full moon. -/
theorem computus_after (year : ℤ) :
    let n := 22 + (computus year).h + (computus year).l - 7 * (computus year).m
    fullMoonOfMarch year < n ∧ n ≤ fullMoonOfMarch year + 7 ∧ 22 ≤ n ∧ n ≤ 56 ∧ IsSunday (marchDay year n) := by
  obtain ⟨ha, hh, hl⟩ := computus_bounds year
  have hsunday := computus_l year
  rw [IsSunday, marchDay_eq] at hsunday
  dsimp only
  rw [IsSunday, marchDay_eq, fullMoonOfMarch_eq, computus_m]
  refine ⟨?_, ?_, ?_, ?_, ?_⟩
  all_goals split
  all_goals try split
  all_goals omega

/-- The month and the day the computus gives exist in every year. -/
theorem computus_date (year : ℤ) :
    ((computus year).month = 3 ∧ 22 ≤ (computus year).day ∨ (computus year).month = 4 ∧ (computus year).day ≤ 25) ∧
      1 ≤ (computus year).day ∧ (computus year).day ≤ 31 ∧ 31 * (computus year).month + (computus year).day =
        (computus year).h + (computus year).l - 7 * (computus year).m + 115 := by
  obtain ⟨hsum, hpos, hle⟩ := (computus year).month_day
  obtain ⟨-, -, hlo, hhi, -⟩ := computus_after year
  omega

/-- Nothing overflows an `i64` for an `i32` year. -/
theorem computus_values (hyear : -2 ^ 31 ≤ year ∧ year < 2 ^ 31) :
    ∀ v ∈ (computus year).values year, -2 ^ 63 ≤ v ∧ v < 2 ^ 63 := by
  obtain ⟨ha, hh, hl⟩ := computus_bounds year
  obtain ⟨hmonth, hpos, hle, -⟩ := computus_date year
  have hm := computus_m year
  have hcentury : (-2 ^ 31 ≤ (computus year).b ∧ (computus year).b < 2 ^ 31) ∧
      (-2 ^ 31 ≤ (computus year).d ∧ (computus year).d < 2 ^ 31) ∧
      (-2 ^ 31 ≤ (computus year).f ∧ (computus year).f < 2 ^ 31) ∧
      (-2 ^ 31 ≤ (computus year).g ∧ (computus year).g < 2 ^ 31) := by
    simp only [computus]
    omega
  have hrest : (0 ≤ (computus year).c ∧ (computus year).c < 100) ∧ (0 ≤ (computus year).e ∧ (computus year).e < 4) ∧
      (0 ≤ (computus year).i ∧ (computus year).i < 25) ∧ (0 ≤ (computus year).k ∧ (computus year).k < 4) := by
    simp only [computus]
    omega
  generalize computus year = x at *
  have hm' : 0 ≤ x.m ∧ x.m ≤ 1 := by
    rw [hm]
    split <;> omega
  simp only [Computus.values, List.forall_mem_cons]
  repeat' apply And.intro
  all_goals first
    | omega
    | exact fun v hv => absurd hv List.not_mem_nil

/-! ### The date -/

theorem u32TryFrom_eq {n : ℤ} (h : 0 ≤ n ∧ n < 2 ^ 32) : u32TryFrom n = some n.toNat := if_pos h

variable {lo hi : ℤ}

/-- A date of March or April, counted in days of March. -/
theorem sinceEpoch_of_spring {date : Date lo hi} (h : date.month = 3 ∨ date.month = 4) :
    date.sinceEpoch = marchDay date.year (31 * (date.month - 3 : ℤ) + date.day) := by
  obtain ⟨y, mo, d, hexists⟩ := date
  rcases h with rfl | rfl
  · simp [Date.sinceEpoch, marchDay, List.range_succ, lastDay]
    omega
  · simp [Date.sinceEpoch, marchDay, List.range_succ, lastDay]
    omega

/-- The month and the day are those of a date of every year. -/
theorem computus_exists (year : ℤ) : ∃ month day : ℕ, (computus year).month = month ∧ (computus year).day = day ∧
    (month = 3 ∨ month = 4) ∧ 1 ≤ day ∧ day ≤ lastDay year month := by
  obtain ⟨hspring, hpos, hle, -⟩ := computus_date year
  refine ⟨(computus year).month.toNat, (computus year).day.toNat, by omega, by omega, by omega, by omega, ?_⟩
  rcases hspring with ⟨h, -⟩ | ⟨h, hlt⟩
  · rw [h]
    exact Int.toNat_le.mpr hle
  · rw [h]
    have hlast : lastDay year (Int.toNat 4) = 30 := rfl
    omega

/-- The computus gives a date in every year that has dates. -/
theorem easterSunday_eq_some (hyear : lo ≤ year ∧ year ≤ hi) : ∃ date : Date lo hi, easterSunday year = some date ∧
    date.year = year ∧ (computus year).month = date.month ∧ (computus year).day = date.day := by
  obtain ⟨month, day, hmonth, hday, hspring, hpos, hle⟩ := computus_exists year
  have hlast : day ≤ 31 := by
    have := (computus_date year).2.2.1
    omega
  refine ⟨⟨year, month, day, by omega⟩, ?_, rfl, hmonth, hday⟩
  rw [easterSunday, u32TryFrom_eq (by omega), Option.bind_some, u32TryFrom_eq (by omega), Option.bind_some,
    Date.ofYmd_eq_some]
  exact ⟨rfl, by rw [hmonth]; rfl, by rw [hday]; rfl⟩

/-- CORRECT: in every year that has dates, Easter is the first Sunday after the Paschal full moon, between 22 March and
    25 April; and nothing overflows, nor is the month or the day out of range, for any `i32` year. -/
theorem easter_ecclesiastical : (∀ year, lo ≤ year ∧ year ≤ hi → ∃ date : Date lo hi, easterSunday year = some date ∧
      date.year = year ∧ (date.month = 3 ∧ 22 ≤ date.day ∨ date.month = 4 ∧ date.day ≤ 25) ∧
        IsLeast {n | paschalFullMoon year < n ∧ IsSunday n} date.sinceEpoch) ∧
    ∀ year, -2 ^ 31 ≤ year ∧ year < 2 ^ 31 →
      (∀ v ∈ (computus year).values year, -2 ^ 63 ≤ v ∧ v < 2 ^ 63) ∧
        ∃ month day : ℕ, (computus year).month = month ∧ (computus year).day = day ∧
          (month = 3 ∨ month = 4) ∧ 1 ≤ day ∧ day ≤ lastDay year month := by
  constructor
  · intro year hyear
    obtain ⟨date, hdate, rfl, hmonth, hday⟩ := easterSunday_eq_some hyear
    obtain ⟨hspring, hpos, hle, hsum⟩ := computus_date date.year
    obtain ⟨hlt, hweek, -, -, hsunday⟩ := computus_after date.year
    have hwhen : date.sinceEpoch = marchDay date.year
        (22 + (computus date.year).h + (computus date.year).l - 7 * (computus date.year).m) := by
      rw [sinceEpoch_of_spring (by omega), ← hmonth, ← hday]
      congr 1
      omega
    refine ⟨date, hdate, rfl, by omega, ?_⟩
    rw [hwhen]
    refine ⟨⟨?_, hsunday⟩, ?_⟩
    · rw [paschalFullMoon, marchDay, marchDay]
      omega
    · rintro n ⟨hafter, hn⟩
      rw [IsSunday] at hsunday hn
      rw [paschalFullMoon] at hafter
      rw [marchDay] at *
      omega
  · exact fun year hyear => ⟨computus_values hyear, computus_exists year⟩

theorem easter_ecclesiastical_2024 : ∃ date : Date (-262143) 262142, easterSunday 2024 = some date ∧
    IsLeast {n | paschalFullMoon 2024 < n ∧ IsSunday n} date.sinceEpoch := by
  obtain ⟨date, hdate, -, -, hleast⟩ := (@easter_ecclesiastical (-262143) 262142).1 2024 (by decide)
  exact ⟨date, hdate, hleast⟩

/-- The window's two ends. -/
example : (easterSunday 2285).map (fun date : Date (-262143) 262142 => (date.month, date.day)) = some (3, 22) ∧
    (easterSunday 2038).map (fun date : Date (-262143) 262142 => (date.month, date.day)) = some (4, 25) := by decide

end Home.Agenda
