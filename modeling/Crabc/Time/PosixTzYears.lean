/-
  Crabc.Time.PosixTzYears

  Where the transitions of a rule lie.  `days_from_civil` and
  `year_from_unix_seconds` are compared with the Gregorian day numbers; a
  transition of an accepted rule then lies within eight days of its own year, and
  later years have later transitions.
-/

import Crabc.Lib.Recurrence
import Crabc.Time.CivilLaws
import Crabc.Time.PosixTzParse

namespace Crabc.Time

open Crabc.Lib TransitionRule Int

/-! ## The calendar functions -/

/-- The first day of a year, counted from 1970. -/
def newYear (y : Int) : Int := daysBeforeYear y - daysBeforeYear 1970

theorem newYear_succ (y : Int) : newYear (y + 1) = newYear y + 365 + leapDay y := by
  have h := daysBeforeYear_succ y
  unfold newYear
  omega

/-- Eras of 400 years all have the same length. -/
theorem daysBeforeYear_era (era y : Int) : daysBeforeYear (400 * era + y + 1) =
      era * 146097 + (y * 365 + y / 4 - y / 100 + y / 400) := by
  unfold daysBeforeYear
  omega

/-- **`days_from_civil`** counts the days to a date. -/
theorem daysFromCivil_eq (y : Int) {m : Nat} (h : 1 ≤ m) (h' : m ≤ 12) (d : Nat) :
    daysFromCivil y m d = newYear y + daysBeforeMonth y m + d - 1 := by
  have h1970 : daysBeforeYear 1970 = 719162 := by decide
  have hsucc := daysBeforeYear_succ y
  have hera (z : Int) : daysBeforeYear (z + 1) = z / 400 * 146097 + ((z - z / 400 * 400) * 365 +
      (z - z / 400 * 400) / 4 - (z - z / 400 * 400) / 100) := by
    have h := daysBeforeYear_era (z / 400) (z - z / 400 * 400)
    rw [show 400 * (z / 400) + (z - z / 400 * 400) = z by omega] at h
    omega
  unfold daysFromCivil newYear
  by_cases hm : m ≤ 2
  · -- January and February belong to the March year before
    have hy := hera (y - 1)
    rw [sub_add_cancel] at hy
    interval_cases m <;> simp [daysBeforeMonth] <;> omega
  · have hy := hera y
    interval_cases m <;> simp [daysBeforeMonth] <;> omega

/-- A day of an era as centuries, quarters, years and days; the last year of a
    quarter takes the extra day, unless its century ends without one. -/
theorem dayOfEra_split {doe : Int} (h : 0 ≤ doe) (h' : doe < 146097) :
    ∃ c q a r : Int, doe = 36524 * c + 1461 * q + 365 * a + r ∧ (0 ≤ c ∧ c ≤ 3) ∧
      (0 ≤ q ∧ q ≤ 24) ∧ (0 ≤ a ∧ a ≤ 3) ∧ 0 ≤ r ∧
      (r < 365 ∨ r = 365 ∧ a = 3 ∧ (q ≤ 23 ∨ c = 3)) := by
  obtain ⟨hc0, hc3, hcle, hclt⟩ :=
    @cappedDiv_spec doe 36524 4 (by omega) (by omega) (by omega) (by omega)
  generalize cappedDiv doe 36524 4 = c at hc0 hc3 hcle hclt
  generalize hrem : doe - c * 36524 = rem
  obtain ⟨q, hq⟩ : ∃ q, q = rem / 1461 := ⟨_, rfl⟩
  generalize hrem' : rem - q * 1461 = rem'
  obtain ⟨ha0, ha3, hale, halt⟩ :=
    @cappedDiv_spec rem' 365 4 (by omega) (by omega) (by omega) (by omega)
  generalize cappedDiv rem' 365 4 = a at ha0 ha3 hale halt
  refine ⟨c, q, a, rem' - a * 365, by omega, by omega, by omega, by omega, by omega, ?_⟩
  omega

/-- The quotient of `year_from_unix_seconds`.  Its divisor 1460 is a day too short
    for a quarter, which shows only behind the 269th day of the last year. -/
theorem yearOfEra_eq {doe c q a r : Int} (hdoe : doe = 36524 * c + 1461 * q + 365 * a + r)
    (hc : 0 ≤ c ∧ c ≤ 3) (hq : 0 ≤ q ∧ q ≤ 24) (ha : 0 ≤ a ∧ a ≤ 3) (hr : 0 ≤ r)
    (hlast : r < 365 ∨ r = 365 ∧ a = 3 ∧ (q ≤ 23 ∨ c = 3)) :
    (doe - doe / 1460 + doe / 36524 - doe / 146096) / 365 = 100 * c + 4 * q + a := by
  have hcentury : doe / 36524 - doe / 146096 = c := by
    rcases (by omega : doe = 146096 ∧ c = 3 ∨ doe < 36524 * c + 36524) with ⟨rfl, rfl⟩ | hlt
    · decide
    · omega
  obtain ⟨e, he⟩ : ∃ e, e = (24 * c + q + 365 * a + r) / 1460 := ⟨_, rfl⟩
  have hrest : 0 ≤ r - e ∧ r - e < 365 := by omega
  have hsum : doe - doe / 1460 + doe / 36524 - doe / 146096 = 365 * (100 * c + 4 * q + a) + (r - e) := by omega
  rw [hsum, mul_add_ediv_left _ _ (by decide), ediv_eq_zero_of_lt hrest.1 hrest.2, add_zero]

/-- The year of the era contains the day: its first day is not behind it and the next year's is. -/
theorem yearOfEra_spec {doe yoe : Int} (h : 0 ≤ doe) (h' : doe < 146097)
    (hyoe : yoe = (doe - doe / 1460 + doe / 36524 - doe / 146096) / 365) :
    (0 ≤ yoe ∧ yoe < 400) ∧ yoe * 365 + yoe / 4 - yoe / 100 ≤ doe ∧
      doe < (yoe + 1) * 365 + (yoe + 1) / 4 - (yoe + 1) / 100 + (yoe + 1) / 400 := by
  obtain ⟨c, q, a, r, hdoe, hc, hq, ha, hr, hlast⟩ := dayOfEra_split h h'
  rw [yearOfEra_eq hdoe hc hq ha hr hlast] at hyoe
  have h100 : yoe / 100 = c := by omega
  refine ⟨by omega, by omega, ?_⟩
  rcases (by omega : a ≤ 2 ∨ a = 3 ∧ q ≤ 23 ∨ a = 3 ∧ q = 24) with ha' | ⟨rfl, hq'⟩ | ⟨rfl, rfl⟩
  · have hn4 : (yoe + 1) / 4 = 25 * c + q := by omega
    have hn100 : (yoe + 1) / 100 = c := by omega
    omega
  · have hn100 : (yoe + 1) / 100 = c := by omega
    omega
  · omega

/-- **`year_from_unix_seconds`** finds the year that contains an instant. -/
theorem yearFromUnixSeconds_spec (t : Int) : 86400 * newYear (yearFromUnixSeconds t) ≤ t ∧
      t < 86400 * newYear (yearFromUnixSeconds t + 1) := by
  unfold yearFromUnixSeconds
  dsimp only
  generalize hdays : t / 86400 = days
  generalize hera : (days + 719468) / 146097 = era
  generalize hdoe : days + 719468 - era * 146097 = doe
  generalize hyoe : (doe - doe / 1460 + doe / 36524 - doe / 146096) / 365 = yoe
  obtain ⟨hrange, hfirst, hnext⟩ := yearOfEra_spec (by omega) (by omega) hyoe.symm
  -- 1 March of the year of the era, and of the next
  have hstart := daysBeforeYear_era era yoe
  have hstart' := daysBeforeYear_era era (yoe + 1)
  have hleap := daysBeforeYear_succ (400 * era + yoe)
  have hl := leapDay_bounds (400 * era + yoe)
  have h1970 : daysBeforeYear 1970 = 719162 := by decide
  clear hyoe
  rw [show yoe + era * 400 = 400 * era + yoe by omega]
  rw [← add_assoc] at hstart'
  split_ifs with hmonth
  · unfold newYear
    omega
  · rw [add_zero]
    unfold newYear
    omega

/-- **Two calendars.**  For every valid date whose year fits, `days_from_civil` counts the days of
    `calendar_seconds`; and `year_from_unix_seconds` is the year of every instant that `from_unix_seconds`
    accepts. -/
theorem daysFromCivil_calendarSeconds :
    (∀ (y : Int) (m d : Nat), i32Min ≤ y - 1900 → y - 1900 ≤ i32Max → 1 ≤ m → m ≤ 12 → 1 ≤ d →
      d ≤ daysInMonth y m → calendarSeconds y m d 0 0 0 = some (daysFromCivil y m d * 86400)) ∧
    ∀ (t : Int) (c : CalendarTime), CalendarTime.fromUnixSeconds t = .ok c → yearFromUnixSeconds t = c.year := by
  refine ⟨fun y m d hmin hmax hm hm' hd hd' => ?_, fun t c h => ?_⟩
  · have hlength := daysInMonth_eq y m
    let i : Civil := ⟨⟨y, m, d, hm, hm', hd, by omega⟩, 0, 0, 0, by decide, by decide, by decide⟩
    have hinside := seconds_inside i (show ¬ (y - 1900 < i32Min ∨ y - 1900 > i32Max) by omega)
    have hseconds : i.seconds = daysFromCivil y m d * 86400 := by
      rw [daysFromCivil_eq y hm hm']
      simp only [i, Civil.seconds, Date.number, Date.yearDay, newYear]
      omega
    have hcalendar := calendarSeconds_eq i
    rwa [i64TryFrom, if_pos (by unfold i32Min i32Max at hinside; omega), hseconds] at hcalendar
  · -- the year of the instant is the one between whose first days it lies
    obtain ⟨i, rfl, rfl, -⟩ := fromUnixSeconds_ok h
    obtain ⟨hfirst, hnext⟩ := yearFromUnixSeconds_spec i.seconds
    have hday := i.yearDay_bounds
    have hsucc := daysBeforeYear_succ i.year
    have hh := i.hour_lt
    have hmi := i.minute_lt
    have hs := i.second_lt
    have hmono {y y' : Int} (hy : y < y') := @daysBeforeYear_mono (y + 1) y' hy
    show yearFromUnixSeconds i.seconds = i.year
    generalize yearFromUnixSeconds i.seconds = y at *
    simp only [newYear, Civil.seconds, Date.number] at hfirst hnext
    rcases lt_trichotomy y i.year with hlt | heq | hgt
    · have := hmono hlt
      omega
    · exact heq
    · have := hmono hgt
      omega

theorem daysFromCivil_calendarSeconds_leapDay :
    calendarSeconds 2000 2 29 0 0 0 = some (daysFromCivil 2000 2 29 * 86400) :=
  daysFromCivil_calendarSeconds.1 2000 2 29 (by decide) (by decide) (by decide) (by decide) (by decide) (by decide)

/-! ## Transitions -/

theorem asU8_day {day : Int} (h : 1 ≤ day) (h' : day ≤ 31) : (asU8 day : Int) = day := by
  unfold asU8
  omega

/-- A weekday of a week, moved back when its month is too short, is in its month. -/
theorem weekDay_bounds (y : Int) {m week weekday : Nat} (first : Int) (hm : 1 ≤ m) (hm' : m ≤ 12)
    (hw : 1 ≤ week) (hw' : week ≤ 5) {day : Int}
    (hday : day = 1 + ((weekday : Int) - first) % 7 + ((week : Int) - 1) * 7) :
    1 ≤ (if day > daysInMonth y m then day - 7 else day) ∧
      (if day > daysInMonth y m then day - 7 else day) ≤ monthLength y m := by
  have hlength := monthLength_pos y hm hm'
  rw [daysInMonth_eq]
  split_ifs <;> omega

variable {rule : TransitionRule}

/-- The day of a rule is one of the 366 days from New Year on. -/
theorem dayStartSeconds_bounds (h : rule.InRange) (y : Int) :
    ∃ n, rule.dayStartSeconds y = 86400 * (newYear y + n) ∧ 0 ≤ n ∧ n ≤ 365 := by
  have hjan := daysFromCivil_eq y (Nat.le_refl 1) (by decide) 1
  have hzero : daysBeforeMonth y 1 = 0 := rfl
  cases rule with
  | julianNoLeap day time =>
    obtain ⟨⟨hday, hday'⟩, -⟩ := h
    refine ⟨(day : Int) - 1 + if isLeapYear y ∧ (day : Int) - 1 ≥ 59 then 1 else 0, ?_, ?_, ?_⟩
    · simp only [dayStartSeconds, hjan, hzero]
      omega
    · split_ifs <;> omega
    · split_ifs <;> omega
  | dayOfYear day time =>
    obtain ⟨hday, -⟩ := h
    refine ⟨day, ?_, by omega, by omega⟩
    simp only [dayStartSeconds, hjan, hzero]
    omega
  | monthWeekDay month week weekday time =>
    obtain ⟨⟨hm, hm'⟩, ⟨hw, hw'⟩, hwd, -⟩ := h
    obtain ⟨hlow, hhigh⟩ := @weekDay_bounds y month week weekday
      (weekdayFromDays (daysFromCivil y month 1)) hm hm' hw hw' _ rfl
    have hle := monthLength_le y month
    have hbounds := daysBeforeMonth_bounds y hm hm'
    have hleap := leapDay_bounds y
    simp only [dayStartSeconds]
    generalize (if _ > (daysInMonth y month : Int) then _ else _) = day at hlow hhigh ⊢
    refine ⟨daysBeforeMonth y month + day - 1, ?_, by omega, by omega⟩
    rw [daysFromCivil_eq y hm hm', asU8_day hlow (by omega)]
    omega

/-- An instant of each year: some day of it, moved by the same time of less than eight days. -/
def Yearly (f : Int → Int) : Prop :=
  ∃ c, (-691200 < c ∧ c < 691200) ∧ ∀ y, ∃ n, (0 ≤ n ∧ n ≤ 365) ∧ f y = 86400 * (newYear y + n) + c

/-- **Where transitions lie.**  The offsets and the time of a rule move its
    transitions away from its days by less than eight days. -/
theorem transitionSeconds_bounds (h : rule.InRange) (standardOffset wallOffset : UtcOffset) :
    Yearly fun y => transitionSeconds y rule standardOffset wallOffset := by
  have htime := h.time
  unfold TransitionTime.InRange at htime
  have hs := standardOffset.ge
  have hs' := standardOffset.le
  have hw := wallOffset.ge
  have hw' := wallOffset.le
  unfold maxOffsetSeconds at hs hs' hw hw'
  have hyearly (offset : Int) (hoffset : -86400 ≤ offset ∧ offset ≤ 86400)
      (hseconds : ∀ y, transitionSeconds y rule standardOffset wallOffset =
        rule.dayStartSeconds y + rule.time.seconds - offset) :
      Yearly fun y => transitionSeconds y rule standardOffset wallOffset := by
    refine ⟨rule.time.seconds - offset, by omega, fun y => ?_⟩
    obtain ⟨n, hn, hn0, hn1⟩ := dayStartSeconds_bounds h y
    exact ⟨n, ⟨hn0, hn1⟩, (hseconds y).trans (by omega)⟩
  cases hbasis : rule.time.basis with
  | wall => exact hyearly _ ⟨hw, hw'⟩ fun _ => by rw [transitionSeconds, hbasis]
  | standard => exact hyearly _ ⟨hs, hs'⟩ fun _ => by rw [transitionSeconds, hbasis]
  | utc => exact hyearly 0 (by decide) fun _ => by rw [transitionSeconds, hbasis, Int.sub_zero]

/-- Later years have later transitions. -/
theorem Yearly.monotone {f : Int → Int} (h : Yearly f) : Monotone f := by
  obtain ⟨c, -, hf⟩ := h
  apply monotone_int_of_le_succ
  intro y
  obtain ⟨n, hn, hy⟩ := hf y
  obtain ⟨n', hn', hy'⟩ := hf (y + 1)
  have hsucc := newYear_succ y
  have hleap := leapDay_bounds y
  omega

/-- Transitions two years apart are in the order of their years. -/
theorem Yearly.apart {f g : Int → Int} (hf : Yearly f) (hg : Yearly g) (y : Int) : f y < g (y + 2) := by
  obtain ⟨c, hc, hf⟩ := hf
  obtain ⟨c', hc', hg⟩ := hg
  obtain ⟨n, hn, hy⟩ := hf y
  obtain ⟨n', hn', hy'⟩ := hg (y + 2)
  have hsucc := newYear_succ y
  have hsucc' := newYear_succ (y + 1)
  have hleap := leapDay_bounds y
  have hleap' := leapDay_bounds (y + 1)
  rw [show y + 1 + 1 = y + 2 by omega] at hsucc'
  omega

/-- An instant lies between the transitions two years before and behind it. -/
theorem Yearly.around {f : Int → Int} (h : Yearly f) (t : Int) : Around f (yearFromUnixSeconds t) t := by
  obtain ⟨hlow, hhigh⟩ := yearFromUnixSeconds_spec t
  refine ⟨h.monotone, ?_, ?_⟩
  all_goals
    obtain ⟨c, hc, hf⟩ := h
    generalize yearFromUnixSeconds t = y at *
  · obtain ⟨n, hn, hy⟩ := hf (y - 2)
    have hsucc := newYear_succ (y - 2)
    have hsucc' := newYear_succ (y - 1)
    have hleap := leapDay_bounds (y - 2)
    have hleap' := leapDay_bounds (y - 1)
    rw [show y - 2 + 1 = y - 1 by omega] at hsucc
    rw [show y - 1 + 1 = y by omega] at hsucc'
    omega
  · obtain ⟨n, hn, hy⟩ := hf (y + 2)
    have hsucc := newYear_succ (y + 1)
    have hleap := leapDay_bounds (y + 1)
    rw [show y + 1 + 1 = y + 2 by omega] at hsucc
    omega

end Crabc.Time
