/-
  Crabc.Libc.RuleSeconds

  `rule_seconds` of the C side against `TransitionRule::day_start_seconds`.  The two give
  the same instant except for some `Mm.w.d` rules in years before 1970: the truncated
  remainder of a negative second count is a weekday too low by seven, and `rule_seconds`
  is then a week late.
-/

import Crabc.Libc.Timezone
import Crabc.Libc.TimegmLaws
import Crabc.Time.RuleDates

namespace Crabc.Libc.Timezone

open Crabc.Lib
open Crabc.Lib.Wrapping (InI32 InI64 yields_i32 yields_i64)
open Crabc.Time (TransitionRule TransitionTime newYear weekdayFromDays)

theorem wrap32_eq {n : Int} (h : -2147483648 ≤ n ∧ n < 2147483648) : wrap32 n = n := (yields_i32 h).value

theorem wrap64_eq {n : Int} (h : -9223372036854775808 ≤ n ∧ n < 9223372036854775808) : wrap64 n = n := (yields_i64 h).value

/-- The words that `rule` makes of a rule. -/
def Rule.ofRule : TransitionRule → Rule
  | .julianNoLeap day time => ⟨74, day, 0, 0, time.seconds⟩
  | .dayOfYear day time => ⟨0, day, 0, 0, time.seconds⟩
  | .monthWeekDay month week weekday time => ⟨77, month, week, weekday, time.seconds⟩

/-- The weekday of the first of a month. -/
def firstWeekday (year : Int) (month : Nat) : Int :=
  weekdayFromDays (newYear year + daysBeforeMonth year month)

/-- The rules that `rule_seconds` dates a week late: before 1970, in a month that does not
    start on a Sunday, a weekday that is not before the first one, unless it stands for the
    last time in the month and occurs five times. -/
def WeekLate (rule : TransitionRule) (year : Int) : Prop :=
  match rule with
  | .monthWeekDay month week weekday _ =>
    year < 1970 ∧ firstWeekday year month ≠ 0 ∧ firstWeekday year month ≤ weekday ∧
      (week ≠ 5 ∨ monthLength year month ≤ weekday - firstWeekday year month + 28)
  | _ => False

instance (rule : TransitionRule) (year : Int) : Decidable (WeekLate rule year) := by
  cases rule <;> unfold WeekLate <;> infer_instance

variable {year : Int} {month : Nat}

open Time

/-- `year_to_secs` in the years of an `i32`. -/
theorem yearToSecs_value (h : InI32 (year - 1900)) :
    (yearToSecs (year - 1900)).value = (86400 * newYear year, isLeap year) := by
  obtain ⟨hlow, hhigh⟩ := h
  rw [(yearToSecs_yields (by omega) (by omega)).value, yearToSeconds_eq]
  rfl

theorem newYear_bounds (h : InI32 (year - 1900)) : -800000000000 ≤ newYear year ∧ newYear year ≤ 800000000000 := by
  obtain ⟨hlow, hhigh⟩ := h
  unfold newYear daysBeforeYear
  omega

/-- The weekday that `rule_seconds` finds for a day: behind the epoch the right one,
    before it, unless it is a Sunday, seven less. -/
theorem weekday_eq (first : Int) (h : -900000000000 ≤ first) (h' : first ≤ 900000000000) :
    (wrap32 ((wrap64 (86400 * first + 4 * 86400)).tmod (7 * 86400))).tdiv 86400 =
      if first + 4 < 0 ∧ weekdayFromDays first ≠ 0 then weekdayFromDays first - 7
      else weekdayFromDays first := by
  rw [wrap64_eq (by omega), show 86400 * first + 4 * 86400 = 86400 * (first + 4) by omega,
    show (7 * 86400 : Int) = 86400 * 7 by decide, Int.mul_tmod_mul_of_pos _ _ (by decide)]
  have hmod : (first + 4).tmod 7 = if first + 4 < 0 ∧ weekdayFromDays first ≠ 0
      then weekdayFromDays first - 7 else weekdayFromDays first := by
    unfold weekdayFromDays
    rw [Int.tmod_eq_emod]
    split_ifs <;> omega
  have hbound : -7 < (first + 4).tmod 7 ∧ (first + 4).tmod 7 < 7 := by
    rw [hmod]
    unfold weekdayFromDays
    split_ifs <;> omega
  rw [wrap32_eq (by omega), Int.mul_tdiv_cancel_left _ (by decide), hmod]

/-- The month lengths of `rule_seconds`. -/
theorem monthDays_eq (h : 1 ≤ month) (h' : month ≤ 12) : monthDays month (isLeap year) = monthLength year month := by
  unfold monthDays monthLength leapDay bit
  interval_cases month <;> rfl

/-- A month before 1970 starts before the epoch. -/
theorem monthStart_sign (year : Int) (h : 1 ≤ month) (h' : month ≤ 12) :
    newYear year + daysBeforeMonth year month + 4 < 0 ↔ year < 1970 := by
  obtain ⟨hlow, hhigh⟩ := daysBeforeMonth_bounds year h h'
  have hlength := monthLength_pos year h h'
  have hnext := newYear_succ year
  unfold newYear at *
  constructor
  · by_contra hge
    have hmono := @daysBeforeYear_mono 1970 year (by omega)
    omega
  · intro hlt
    have hmono := @daysBeforeYear_mono (year + 1) 1970 (by omega)
    omega

/-- The day of the month of an `Mm.w.d` rule, as `day_start_seconds` has it. -/
def dayOfMonth (year : Int) (month week weekday : Nat) : Int :=
  let day := 1 + ((weekday : Int) - firstWeekday year month) % 7 + ((week : Int) - 1) * 7
  if day > monthLength year month then day - 7 else day

/-- The days from the first of a month to a weekday, once the first is taken for weekday `first`. -/
def daysFrom (first length : Int) (week weekday : Nat) : Int :=
  let days := if (weekday : Int) - first < 0 then weekday - first + 7 else weekday - first
  days + 7 * ((if week = 5 ∧ length ≤ days + 28 then 4 else (week : Int)) - 1)

variable {week weekday : Nat} {rule : Rule}

/-- No step of `rule_seconds` wraps on a rule with a valid date. -/
theorem weekdayDays_eq_daysFrom {monthStart first : Int} (hday : rule.day = month) (hweek : rule.week = week)
    (hweekday : rule.weekday = weekday) (hm : 1 ≤ month) (hm' : month ≤ 12) (hw : 1 ≤ week) (hw' : week ≤ 5)
    (hwd : weekday ≤ 6) (hfirst : -7 < first ∧ first < 7)
    (h : (wrap32 ((wrap64 (monthStart + 4 * 86400)).tmod (7 * 86400))).tdiv 86400 = first) :
    weekdayDays rule monthStart (isLeap year) = daysFrom first (monthLength year month) week weekday := by
  have hsmall {n : Int} (h : -1000 ≤ n) (h' : n ≤ 1000) : wrap32 n = n :=
    wrap32_eq (by omega)
  unfold weekdayDays daysFrom
  rw [h, hday, hweek, hweekday, monthDays_eq hm hm']
  dsimp only
  rw [hsmall (n := weekday - first) (by omega) (by omega), hsmall (n := weekday - first + 7) (by omega) (by omega)]
  generalize hfrom : (if (weekday : Int) - first < 0 then weekday - first + 7 else weekday - first) = days
  rw [hsmall (n := days + 28) (by omega) (by omega)]
  have hcond : ((week : Int) = 5 ∧ days + 28 ≥ monthLength year month) ↔
      week = 5 ∧ monthLength year month ≤ days + 28 := by omega
  simp only [hcond]
  generalize hweeks : (if week = 5 ∧ monthLength year month ≤ days + 28 then 4 else (week : Int)) = count
  rw [hsmall (n := count - 1) (by omega) (by omega), hsmall (n := 7 * (count - 1)) (by omega)
    (by omega), hsmall (by omega) (by omega)]

/-- With the first of the month taken for a weekday seven too low, the day is a week late
    or, at the end of the month, still right. -/
theorem daysFrom_eq {first length : Int} (hw : 1 ≤ week) (hw' : week ≤ 5)
    (hwd : weekday ≤ 6) (hlength : 28 ≤ length) (hlength' : length ≤ 31)
    (hfirst : 0 ≤ first ∧ first < 7) (early : Prop) [Decidable early] :
    daysFrom (if early ∧ first ≠ 0 then first - 7 else first) length week weekday =
      (if 1 + ((weekday : Int) - first) % 7 + ((week : Int) - 1) * 7 > length then
        1 + ((weekday : Int) - first) % 7 + ((week : Int) - 1) * 7 - 7
      else 1 + ((weekday : Int) - first) % 7 + ((week : Int) - 1) * 7) - 1 +
        if early ∧ first ≠ 0 ∧ first ≤ weekday ∧ (week ≠ 5 ∨ length ≤ weekday - first + 28) then 7
        else 0 := by
  unfold daysFrom
  by_cases hearly : early
  · simp only [hearly, true_and]
    split_ifs <;> omega
  · simp only [hearly, false_and, if_false]
    split_ifs <;> omega

/-- The days that `rule_seconds` counts from the first of the month on. -/
theorem weekdayDays_eq (hyear : InI32 (year - 1900)) (hm : 1 ≤ month) (hm' : month ≤ 12)
    (hw : 1 ≤ week) (hw' : week ≤ 5) (hwd : weekday ≤ 6) (time : TransitionTime) :
    weekdayDays (Rule.ofRule (.monthWeekDay month week weekday time))
        (86400 * (newYear year + daysBeforeMonth year month)) (isLeap year) =
      dayOfMonth year month week weekday - 1 +
        if WeekLate (.monthWeekDay month week weekday time) year then 7 else 0 := by
  have hnew := newYear_bounds hyear
  have hbefore := daysBeforeMonth_bounds year hm hm'
  have hlength := monthLength_pos year hm hm'
  have hlength' := monthLength_le year month
  have hleap := leapDay_bounds year
  have hfirst : 0 ≤ firstWeekday year month ∧ firstWeekday year month < 7 := by
    unfold firstWeekday weekdayFromDays
    omega
  have hweekday := weekday_eq (newYear year + daysBeforeMonth year month) (by omega)
    (by omega)
  simp only [monthStart_sign year hm hm'] at hweekday
  rw [weekdayDays_eq_daysFrom rfl rfl rfl hm hm' hw hw' hwd ?_ hweekday]
  · exact daysFrom_eq hw hw' hwd hlength hlength' hfirst _
  · change 0 ≤ weekdayFromDays _ ∧ weekdayFromDays _ < 7 at hfirst
    split_ifs <;> omega

/-- A rule that counts days, and does so without wrapping. -/
theorem ruleSeconds_days {day : Int} (hyear : InI32 (year - 1900)) (hkind : rule.kind ≠ 77)
    (hday : (if rule.kind = 74 ∧ (rule.day < 60 ∨ isLeap year = false) then wrap32 (rule.day - 1) else rule.day) = day)
    (h0 : 0 ≤ day) (h366 : day ≤ 366) (htime : InI32 rule.time) :
    ruleSeconds rule (year - 1900) = 86400 * (newYear year + day) + rule.time := by
  have hnew := newYear_bounds hyear
  obtain ⟨hlow, hhigh⟩ := htime
  unfold ruleSeconds
  rw [yearToSecs_value hyear]
  dsimp only
  rw [if_pos hkind, hday, wrap32_eq (by omega), wrap64_eq (n := 86400 * newYear year + _)
    (by omega), wrap64_eq (by omega)]
  omega

/-- A rule that names a month: the days from its first on are added to it. -/
theorem ruleSeconds_month (rule : Rule) {days : Int} (hyear : InI32 (year - 1900)) (hkind : rule.kind = 77)
    (hmonth : rule.day = month) (hm : 1 ≤ month) (hm' : month ≤ 12) (htime : InI32 rule.time)
    (hdays : weekdayDays rule (86400 * (newYear year + daysBeforeMonth year month)) (isLeap year) = days)
    (h0 : 0 ≤ days) (h1000 : days ≤ 1000) : ruleSeconds rule (year - 1900) =
      86400 * (newYear year + daysBeforeMonth year month + days) + rule.time := by
  have hnew := newYear_bounds hyear
  have hbefore := daysBeforeMonth_bounds year hm hm'
  have hlength := monthLength_pos year hm hm'
  have hleap := leapDay_bounds year
  obtain ⟨hlow, hhigh⟩ := htime
  have hsecs := (@monthToSecs_yields year ((month : Int) - 1) (by omega) (by omega)).value
  rw [show ((month : Int) - 1).toNat + 1 = month by omega] at hsecs
  have hstart : wrap64 (86400 * newYear year + 86400 * daysBeforeMonth year month) =
      86400 * (newYear year + daysBeforeMonth year month) := by
    rw [wrap64_eq (by omega)]
    omega
  unfold ruleSeconds
  rw [yearToSecs_value hyear]
  dsimp only
  rw [if_neg (not_not.mpr hkind), hmonth, if_neg (by omega), hsecs, hstart, hdays, wrap32_eq (by omega),
    wrap64_eq (n := 86400 * (newYear year + daysBeforeMonth year month) + _) (by omega),
    wrap64_eq (by omega)]
  omega

/-- **`rule_seconds`** is the instant of the rule, or a week later. -/
theorem ruleSeconds_ofRule {rule : TransitionRule} (h : rule.ValidDate) (htime : InI32 rule.time.seconds)
    (hyear : InI32 (year - 1900)) : ruleSeconds (Rule.ofRule rule) (year - 1900) =
      rule.dayStartSeconds year + rule.time.seconds + if WeekLate rule year then 604800 else 0 := by
  have hjan := daysFromCivil_eq year (Nat.le_refl 1) (by decide) 1
  have hzero : daysBeforeMonth year 1 = 0 := rfl
  cases rule with
  | julianNoLeap day time =>
    obtain ⟨hday, hday'⟩ := h
    -- the day before 29 February, or behind it in a leap year
    have hcount : (if (74 : Int) = 74 ∧ ((day : Int) < 60 ∨ isLeap year = false)
        then wrap32 (day - 1) else (day : Int)) =
        day - 1 + if isLeapYear year ∧ (day : Int) - 1 ≥ 59 then 1 else 0 := by
      rw [wrap32_eq (by omega)]
      cases hleap : isLeap year with
      | false => simp [show isLeapYear year = false from hleap]
      | true =>
        simp only [show isLeapYear year = true from hleap, true_and, Bool.true_eq_false, or_false]
        split_ifs <;> omega
    rw [ruleSeconds_days hyear
      (by simp [Rule.ofRule]) hcount (by split_ifs <;> omega) (by split_ifs <;> omega) htime]
    simp only [TransitionRule.dayStartSeconds, hjan, hzero, WeekLate]
    show _ + time.seconds = _ + time.seconds + 0
    omega
  | dayOfYear day time =>
    have hday : day ≤ 365 := h
    rw [ruleSeconds_days hyear
      (by simp [Rule.ofRule]) (if_neg (by simp [Rule.ofRule])) (Int.natCast_nonneg day)
      (show (day : Int) ≤ 366 by omega) htime]
    simp only [TransitionRule.dayStartSeconds, hjan, hzero, WeekLate]
    show 86400 * (newYear year + (day : Int)) + time.seconds = _ + time.seconds + 0
    omega
  | monthWeekDay month week weekday time =>
    obtain ⟨⟨hm, hm'⟩, ⟨hw, hw'⟩, hwd⟩ := h
    have hlength' := monthLength_le year month
    have hbounds : 1 ≤ dayOfMonth year month week weekday ∧
        dayOfMonth year month week weekday ≤ monthLength year month := by
      have hday := @weekDay_bounds year month week weekday (firstWeekday year month) hm hm'
        hw hw' _ rfl
      rw [daysInMonth_eq] at hday
      exact hday
    have hfirst : daysFromCivil year month 1 = newYear year + daysBeforeMonth year month := by
      rw [daysFromCivil_eq year hm hm']
      omega
    have hstart : (TransitionRule.monthWeekDay month week weekday time).dayStartSeconds year =
        86400 * (newYear year + daysBeforeMonth year month + (dayOfMonth year month week weekday - 1)) := by
      simp only [TransitionRule.dayStartSeconds, hfirst, daysInMonth_eq]
      change daysFromCivil year month (asU8 (dayOfMonth year month week weekday)) * 86400
        = _
      rw [daysFromCivil_eq year hm hm', asU8_day hbounds.1 (by omega)]
      omega
    rw [ruleSeconds_month (Rule.ofRule (.monthWeekDay month week weekday time)) hyear rfl
      rfl hm hm' htime (weekdayDays_eq hyear hm hm' hw hw' hwd time) (by split_ifs <;> omega)
      (by split_ifs <;> omega), hstart]
    show _ + time.seconds = _ + time.seconds + _
    split_ifs <;> omega

/-- Both sides give the time of the rule on the day that the rule denotes. -/
def SameInstant (rule : TransitionRule) (year : Int) : Prop :=
  ∃ day, rule.Denotes year day ∧ rule.dayStartSeconds year + rule.time.seconds = 86400 * day + rule.time.seconds ∧
    ruleSeconds (Rule.ofRule rule) (year - 1900) = 86400 * day + rule.time.seconds

/-- **The instant of a rule.**  The native side always gives the denoted one; `rule_seconds`
    gives it too, unless it is a week late. -/
theorem ruleSeconds_sameInstant_iff (rule : TransitionRule) (hdate : rule.ValidDate)
    (htime : InI32 rule.time.seconds) (year : Int) (hyear : InI32 (year - 1900)) :
    SameInstant rule year ↔ ¬ WeekLate rule year := by
  have hseconds := ruleSeconds_ofRule hdate htime hyear
  constructor
  · rintro ⟨day, -, hnative, hlibc⟩ hlate
    rw [if_pos hlate] at hseconds
    omega
  · intro hlate
    rw [if_neg hlate, Int.add_zero] at hseconds
    obtain ⟨day, hday⟩ : ∃ day, rule.dayStartSeconds year = 86400 * day := by
      cases rule <;> exact ⟨_, Int.mul_comm _ _⟩
    exact ⟨day, (rule.denotes_iff hdate year day).mpr hday, by rw [hday], by rw [hseconds, hday]⟩

/-- The second Sunday of March, at two o'clock. -/
def secondSunday : TransitionRule := .monthWeekDay 3 2 0 ⟨7200, .wall⟩

theorem sameInstant_secondSunday1969 : SameInstant secondSunday 1969 :=
  (ruleSeconds_sameInstant_iff secondSunday ⟨by decide, by decide, by decide⟩ (by decide) 1969
    (by decide)).mpr (by decide)

/-- The first Thursday of January, at two o'clock. -/
def firstThursday : TransitionRule := .monthWeekDay 1 1 4 ⟨7200, .wall⟩

/-- In 1969 the first Thursday of January is the second, for `rule_seconds` the ninth. -/
theorem ruleSeconds_firstThursday1969 : firstThursday.Denotes 1969 (-364) ∧
      firstThursday.dayStartSeconds 1969 + 7200 = 86400 * (-364) + 7200 ∧
      ruleSeconds (Rule.ofRule firstThursday) 69 = 86400 * (-364 + 7) + 7200 := by
  have hdate : firstThursday.ValidDate := ⟨by decide, by decide, by decide⟩
  exact ⟨(TransitionRule.denotes_iff hdate 1969 (-364)).mpr (by decide), by decide, by decide⟩

end Crabc.Libc.Timezone
