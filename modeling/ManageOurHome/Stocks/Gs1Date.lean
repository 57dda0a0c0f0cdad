import ManageOurHome.Stocks.Gs1

/-! @src apps/api/src/stocks/gs1.rs | layer:proof | family:barcodes

    The dates a GS1 field names. Two digits of a year leave a century open: it is the one that puts the year in the
    hundred years from 49 behind today's to 50 ahead.

        today 2026    76 → 2076    77 → 1977          today 2098    01 → 2101 -/

namespace Home.Stocks

open Gregorian (Date lastDay)

variable {yymmdd : Text} {today d : NaiveDate}

theorem digit_lt (c : Char) : (Net.toDigit 10 c).getD 0 < 10 := by
  cases h : Net.toDigit 10 c with
  | none => decide
  | some n =>
    rw [Net.toDigit, Option.filter_eq_some_iff] at h
    exact of_decide_eq_true h.2

theorem number_lt (yymmdd : Text) (i : ℕ) : number yymmdd i < 100 := by
  rw [number]
  rcases (yymmdd.drop i) with _ | ⟨a, _ | ⟨b, rest⟩⟩
  · decide
  · have ha := digit_lt a
    simp only [List.take_succ_cons, List.take_nil, Net.value, List.foldl_cons, List.foldl_nil]
    omega
  · have ha := digit_lt a
    have hb := digit_lt b
    simp only [List.take_succ_cons, List.take_zero, Net.value, List.foldl_cons, List.foldl_nil]
    omega

/-- What a field's digits ask of a date read on a day. -/
structure Named (yymmdd : Text) (today d : NaiveDate) : Prop where
  year : d.year % 100 = number yymmdd 0
  behind : today.year - 49 ≤ d.year
  ahead : d.year ≤ today.year + 50
  month : d.month = number yymmdd 2
  day : d.day = if number yymmdd 4 = 0 then lastDay d.year d.month else number yymmdd 4

/-- The year of a field, in its century. -/
def fieldYear (yymmdd : Text) (today : NaiveDate) : ℤ :=
  number yymmdd 0 + if 51 ≤ (number yymmdd 0 : ℤ) - today.year % 100 then today.year - today.year % 100 - 100
    else if (number yymmdd 0 : ℤ) - today.year % 100 ≤ -50 then today.year - today.year % 100 + 100
    else today.year - today.year % 100

/-- CENTURY: one year has the two digits, of the hundred around today's. -/
theorem fieldYear_eq_iff (yymmdd : Text) (today : NaiveDate) (year : ℤ) : fieldYear yymmdd today = year ↔
    year % 100 = number yymmdd 0 ∧ today.year - 49 ≤ year ∧ year ≤ today.year + 50 := by
  have hlt : (number yymmdd 0 : ℤ) < 100 := by exact_mod_cast number_lt yymmdd 0
  unfold fieldYear
  split_ifs <;> omega

theorem named_iff : Named yymmdd today d ↔ d.year = fieldYear yymmdd today ∧ d.month = number yymmdd 2 ∧
    d.day = if number yymmdd 4 = 0 then lastDay d.year d.month else number yymmdd 4 := by
  rw [eq_comm (a := d.year), fieldYear_eq_iff]
  constructor
  · intro h
    exact ⟨⟨h.year, h.behind, h.ahead⟩, h.month, h.day⟩
  · rintro ⟨⟨hyear, hbehind, hahead⟩, hmonth, hday⟩
    exact ⟨hyear, hbehind, hahead, hmonth, hday⟩

/-- The last day of a month is the day before the first of the next one. -/
theorem last_of_month {year : ℤ} {month : ℕ} (hmonth : 1 ≤ month ∧ month < 12) :
    ((Date.ofYmd year (month + 1) 1 : Option NaiveDate).bind Date.pred) = Date.ofYmd year month (lastDay year month) := by
  cases hnext : (Date.ofYmd year (month + 1) 1 : Option NaiveDate) with
  | none =>
    -- the year is out of range
    refine (Option.eq_none_iff_forall_ne_some.mpr fun d hd => ?_).symm
    obtain ⟨rfl, -, -⟩ := Date.ofYmd_eq_some.mp hd
    obtain ⟨hlo, hhi, -⟩ := d.exists_
    let first : NaiveDate := ⟨d.year, month + 1, 1, hlo, hhi, by omega, by omega, le_refl 1, Gregorian.lastDay_pos _ _⟩
    have hfirst : Date.ofYmd d.year (month + 1) 1 = some first := Date.ofYmd_eq_some.mpr ⟨rfl, rfl, rfl⟩
    exact absurd (hnext.symm.trans hfirst) (by simp)
  | some first =>
    obtain ⟨hyear, hmonth', hday⟩ := Date.ofYmd_eq_some.mp hnext
    rw [Option.bind_some, Date.pred_first hday (by omega), hyear, hmonth', Nat.add_sub_cancel]

/-- The last day of a year is the day before the first of the next one. -/
theorem last_of_year {year : ℤ} : ((Date.ofYmd (year + 1) 1 1 : Option NaiveDate).bind Date.pred) = some d ↔
    (d.year = year ∧ d.month = 12 ∧ d.day = 31) ∧ d.year ≠ 262142 := by
  constructor
  · intro h
    obtain ⟨first, hfirst, hpred⟩ := Option.bind_eq_some_iff.mp h
    obtain ⟨hyear, hmonth, hday⟩ := Date.ofYmd_eq_some.mp hfirst
    rw [Date.pred_newYear hday hmonth, Date.ofYmd_eq_some] at hpred
    have hhi := first.exists_.2.1
    exact ⟨⟨by omega, hpred.2⟩, by omega⟩
  · rintro ⟨⟨rfl, hmonth, hday⟩, hlast⟩
    obtain ⟨hlo, hhi, -⟩ := d.exists_
    let first : NaiveDate := ⟨d.year + 1, 1, 1, by omega, by omega, le_refl 1, by decide, le_refl 1, Gregorian.lastDay_pos _ _⟩
    have hfirst : Date.ofYmd (d.year + 1) 1 1 = some first := Date.ofYmd_eq_some.mpr ⟨rfl, rfl, rfl⟩
    rw [hfirst, Option.bind_some, Date.pred_newYear rfl rfl, Date.ofYmd_eq_some]
    exact ⟨(add_sub_cancel_right d.year 1).symm, hmonth, hday⟩

/-- DATE: a field is read as the date it names, but the last day of the last December there is. -/
theorem gs1Date_eq_some : gs1Date yymmdd today = some d ↔
    (yymmdd.length = 6 ∧ yymmdd.all Char.isDigit = true) ∧ Named yymmdd today d ∧
      ¬(number yymmdd 4 = 0 ∧ d.month = 12 ∧ d.year = 262142) := by
  rw [gs1Date, named_iff]
  by_cases hfield : yymmdd.length ≠ 6 ∨ (!yymmdd.all Char.isDigit) = true
  · rw [if_pos hfield]
    refine iff_of_false (by simp) fun h => ?_
    rcases hfield with hlen | hdigits
    · exact hlen h.1.1
    · rw [h.1.2] at hdigits
      exact absurd hdigits (by decide)
  · have hsix : yymmdd.length = 6 ∧ yymmdd.all Char.isDigit = true := by
      push Not at hfield
      simpa using hfield
    rw [if_neg hfield, and_iff_right hsix]
    dsimp only
    rw [← fieldYear]
    by_cases hzero : number yymmdd 4 = 0
    · simp only [hzero, if_true, true_and]
      by_cases hmonth : 1 ≤ number yymmdd 2 ∧ number yymmdd 2 ≤ 12
      · rw [if_neg (not_not_intro hmonth)]
        by_cases hdecember : number yymmdd 2 = 12
        · rw [if_pos hdecember, last_of_year, hdecember]
          constructor
          · rintro ⟨⟨hyear, hm, hday⟩, hlast⟩
            exact ⟨⟨hyear, hm, by rw [hday, hm]; rfl⟩, fun h => hlast h.2⟩
          · rintro ⟨⟨hyear, hm, hday⟩, hlast⟩
            exact ⟨⟨hyear, hm, by rw [hday, hm]; rfl⟩, fun h => hlast ⟨hm, h⟩⟩
        · rw [if_neg hdecember, last_of_month (by omega), Date.ofYmd_eq_some]
          constructor
          · rintro ⟨hyear, hm, hday⟩
            exact ⟨⟨hyear, hm, by rw [hday, hyear, hm]⟩, fun h => hdecember (hm.symm.trans h.1)⟩
          · rintro ⟨⟨hyear, hm, hday⟩, -⟩
            exact ⟨hyear, hm, by rw [hday, hyear, hm]⟩
      · rw [if_pos hmonth]
        refine iff_of_false (by simp) fun h => hmonth ?_
        rw [← h.1.2.1]
        exact ⟨d.exists_.2.2.1, d.exists_.2.2.2.1⟩
    · rw [if_neg hzero, if_neg hzero, Date.ofYmd_eq_some, and_iff_left fun h => hzero h.1]

end Home.Stocks
