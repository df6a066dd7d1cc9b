/-
  Crabc.Time.RuleDates

  The dates that transition rules denote, said with the calendar alone, and
  `TransitionRule::day_start_seconds` as their seconds.
-/

import Crabc.Time.PosixTzYears

namespace Crabc.Time

open Crabc.Lib Date

/-- The day of a date, counted from 1970. -/
def dayNumber (date : Date) : Int := date.number - daysBeforeYear 1970

/-- The date of a rule is one that POSIX allows. -/
def TransitionRule.ValidDate : TransitionRule → Prop
  | julianNoLeap day _ => 1 ≤ day ∧ day ≤ 365
  | dayOfYear day _ => day ≤ 365
  | monthWeekDay month week weekday _ =>
    (1 ≤ month ∧ month ≤ 12) ∧ (1 ≤ week ∧ week ≤ 5) ∧ weekday ≤ 6

/-- The day, counted from 1970, that a rule denotes in a year: for `Jn` the date that is
    day `n` of a common year, for `n` the day `n` behind New Year, and for `Mm.w.d` the
    weekday `d` of month `m` for the `w`-th time, or with week 5 for the last time. -/
def TransitionRule.Denotes (rule : TransitionRule) (year day : Int) : Prop :=
  match rule with
  | julianNoLeap n _ => ∃ date : Date, date.year = year ∧ ¬ (date.month = 2 ∧ date.day = 29) ∧
      daysBeforeMonth 1 date.month + date.day = n ∧ day = dayNumber date
  | dayOfYear n _ => day = newYear year + n
  | monthWeekDay month week weekday _ => ∃ date : Date, date.year = year ∧ date.month = month ∧
      weekdayFromDays (dayNumber date) = weekday ∧ day = dayNumber date ∧
      if week = 5 then monthLength year month < date.day + 7
      else 7 * (week - 1) < date.day ∧ date.day ≤ 7 * week

theorem dayNumber_eq {date : Date} :
    dayNumber date = newYear date.year + daysBeforeMonth date.year date.month + date.day - 1 := by
  unfold dayNumber number yearDay newYear
  omega

/-- A month starts where it starts in a common year, behind February one day later in a leap year. -/
theorem daysBeforeMonth_eq_common {y : Int} {m : Nat} (h : 1 ≤ m) (h' : m ≤ 12) :
    daysBeforeMonth y m = daysBeforeMonth 1 m + if 3 ≤ m then leapDay y else 0 := by
  have hcommon : leapDay 1 = 0 := by decide
  interval_cases m <;> simp [daysBeforeMonth, hcommon]

/-- The year of a day between two New Years. -/
theorem year_eq_of_number {c : Civil} {y n : Int} (h : c.number = daysBeforeYear y + n)
    (h0 : 0 ≤ n) (hn : n < 365 + leapDay y) : c.year = y := by
  have hday := c.toDate.yearDay_bounds
  have hnumber : c.number = daysBeforeYear c.year + c.yearDay := rfl
  have hnext := daysBeforeYear_succ y
  have hnext' := daysBeforeYear_succ c.year
  rcases Int.lt_trichotomy c.year y with hlt | heq | hgt
  · have hmono := @daysBeforeYear_mono (c.year + 1) y hlt
    omega
  · exact heq
  · have hmono := @daysBeforeYear_mono (y + 1) c.year hgt
    omega

/-- Every day of a common year is a date in all years. -/
theorem exists_commonDay (y : Int) {n : Nat} (h : 1 ≤ n) (h' : n ≤ 365) :
    ∃ date : Date, date.year = y ∧ ¬ (date.month = 2 ∧ date.day = 29) ∧
      daysBeforeMonth 1 date.month + date.day = n := by
  obtain ⟨c, hc⟩ := exists_civil (86400 * (newYear 1 + n - 1))
  have hcommon : leapDay 1 = 0 := by decide
  have hnumber : c.number = daysBeforeYear 1 + (n - 1) := by
    have hh := c.hour_lt
    have hm := c.minute_lt
    have hs := c.second_lt
    unfold Civil.seconds newYear at hc
    omega
  have hyear := year_eq_of_number hnumber (by omega) (by omega)
  have hday : daysBeforeMonth 1 c.month + c.day = n := by
    unfold number yearDay at hnumber
    rw [hyear] at hnumber
    omega
  have hle := c.day_le
  rw [hyear] at hle
  have hlength : monthLength 1 c.month ≤ monthLength y c.month := by
    have hleap := leapDay_bounds y
    unfold monthLength
    split <;> omega
  refine ⟨⟨y, c.month, c.day, c.month_pos, c.month_le, c.day_pos, by omega⟩, rfl, ?_, hday⟩
  rintro ⟨hmonth, hday'⟩
  rw [hmonth, hday', monthLength, hcommon] at hle
  omega

/-- The day of a date that is not 29 February, by its place in a common year. -/
theorem dayNumber_of_commonDay {date : Date} {n : Nat} (hleap : ¬ (date.month = 2 ∧ date.day = 29))
    (hn : daysBeforeMonth 1 date.month + date.day = n) :
    dayNumber date = newYear date.year + (n - 1) + if isLeap date.year ∧ n ≥ 60 then 1 else 0 := by
  have hm := date.month_pos
  have hm' := date.month_le
  have hd := date.day_pos
  have hd' := date.day_le
  -- the days behind February are those from the sixtieth on
  have hmarch : 3 ≤ date.month ↔ 60 ≤ n := by
    have hl := leapDay_bounds date.year
    have hcommon : leapDay 1 = 0 := by decide
    generalize date.month = m at *
    interval_cases m <;> simp only [daysBeforeMonth, monthLength, hcommon] at hn hd' <;> omega
  rw [dayNumber_eq, daysBeforeMonth_eq_common hm hm']
  unfold leapDay
  split_ifs <;> first | omega | simp_all

/-- **The denoted date.**  `day_start_seconds` is the start of the one day that the rule
    denotes. -/
theorem TransitionRule.denotes_iff {rule : TransitionRule} (h : rule.ValidDate) (year day : Int) :
    rule.Denotes year day ↔ rule.dayStartSeconds year = 86400 * day := by
  have hjan := daysFromCivil_eq year (Nat.le_refl 1) (by decide) 1
  have hzero : daysBeforeMonth year 1 = 0 := rfl
  cases rule with
  | julianNoLeap n time =>
    obtain ⟨hn, hn'⟩ := h
    have hstart : (julianNoLeap n time).dayStartSeconds year =
        86400 * (newYear year + (n - 1) + if isLeap year ∧ n ≥ 60 then 1 else 0) := by
      have hsixty : (n : Int) - 1 ≥ 59 ↔ n ≥ 60 := by omega
      simp only [dayStartSeconds, hjan, hzero, isLeapYear_eq, hsixty]
      omega
    constructor
    · rintro ⟨date, rfl, hleap, hcommon, rfl⟩
      rw [hstart, dayNumber_of_commonDay hleap hcommon]
    · intro heq
      obtain ⟨date, rfl, hleap, hcommon⟩ := exists_commonDay year hn hn'
      refine ⟨date, rfl, hleap, hcommon, ?_⟩
      rw [dayNumber_of_commonDay hleap hcommon]
      omega
  | dayOfYear n time =>
    simp only [Denotes, dayStartSeconds, hjan, hzero]
    omega
  | monthWeekDay month week weekday time =>
    obtain ⟨⟨hm, hm'⟩, ⟨hw, hw'⟩, hwd⟩ := h
    have hlength := monthLength_pos year hm hm'
    have hle := monthLength_le year month
    -- the first of the month and the weekday that it is
    have hfirst : daysFromCivil year month 1 = newYear year + daysBeforeMonth year month := by
      rw [daysFromCivil_eq year hm hm']
      omega
    obtain ⟨hlow, hhigh⟩ := @weekDay_bounds year month week weekday
      (weekdayFromDays (daysFromCivil year month 1)) hm hm' hw hw' _ rfl
    rw [hfirst] at hlow hhigh
    simp only [dayStartSeconds, hfirst]
    rw [daysInMonth_eq] at hlow hhigh ⊢
    generalize hmonth : newYear year + daysBeforeMonth year month = first at *
    unfold weekdayFromDays at *
    generalize hd : (if 1 + ((weekday : Int) - (first + 4) % 7) % 7 + ((week : Int) - 1) * 7 >
        monthLength year month
      then 1 + ((weekday : Int) - (first + 4) % 7) % 7 + ((week : Int) - 1) * 7 - 7
      else 1 + ((weekday : Int) - (first + 4) % 7) % 7 + ((week : Int) - 1) * 7) = d at *
    have hasU8 := asU8_day hlow (by omega)
    rw [daysFromCivil_eq year hm hm', hasU8]
    constructor
    · rintro ⟨date, rfl, rfl, hweekday, rfl, hweek⟩
      have hday := date.day_le
      rw [dayNumber_eq] at hweekday ⊢
      unfold weekdayFromDays at hweekday
      split_ifs at hd hweek <;> omega
    · intro heq
      refine ⟨⟨year, month, d.toNat, hm, hm', by omega, by omega⟩, rfl, rfl, ?_, ?_, ?_⟩
      · rw [dayNumber_eq]
        unfold weekdayFromDays
        dsimp only
        split_ifs at hd <;> omega
      · rw [dayNumber_eq]
        dsimp only
        omega
      · dsimp only
        split_ifs at hd ⊢ <;> omega

end Crabc.Time
