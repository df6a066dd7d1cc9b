/-
  Crabc.Lib.Gregorian

  The proleptic Gregorian calendar over the integers: leap years, the number of
  days before a year, dates with their day number, and instants with their
  seconds.  Day numbers count from 1 January of year 1.  Dates and instants
  carry their own validity; their lexicographic order is the order of their
  numbers, so a number determines its date.
-/

import Mathlib

namespace Crabc.Lib

/-! ## Years -/

def isLeap (y : Int) : Bool := y % 4 == 0 && (y % 100 != 0 || y % 400 == 0)

/-- One for a leap year, else zero. -/
def leapDay (y : Int) : Int := if isLeap y then 1 else 0

/-- The days from 1 January of year 1 to 1 January of year `y`. -/
def daysBeforeYear (y : Int) : Int := 365 * (y - 1) + (y - 1) / 4 - (y - 1) / 100 + (y - 1) / 400

variable {y : Int}

theorem isLeap_iff : isLeap y = true ↔ y % 4 = 0 ∧ (y % 100 ≠ 0 ∨ y % 400 = 0) := by
  simp [isLeap]

theorem leapDay_cases (y : Int) : (leapDay y = 1 ∧ y % 4 = 0 ∧ (y % 100 ≠ 0 ∨ y % 400 = 0)) ∨
      (leapDay y = 0 ∧ (y % 4 ≠ 0 ∨ (y % 100 = 0 ∧ y % 400 ≠ 0))) := by
  unfold leapDay
  by_cases h : isLeap y = true
  · rw [if_pos h]
    exact Or.inl ⟨rfl, isLeap_iff.mp h⟩
  · rw [if_neg h]
    rw [isLeap_iff] at h
    refine Or.inr ⟨rfl, ?_⟩
    omega

theorem leapDay_bounds (y : Int) : 0 ≤ leapDay y ∧ leapDay y ≤ 1 := by
  rcases leapDay_cases y with h | h <;> omega

/-- A year is 365 days long, a leap year one day longer. -/
theorem daysBeforeYear_succ (y : Int) : daysBeforeYear (y + 1) = daysBeforeYear y + 365 + leapDay y := by
  have h := leapDay_cases y
  unfold daysBeforeYear
  omega

theorem daysBeforeYear_mono {y' : Int} (h : y ≤ y') : daysBeforeYear y ≤ daysBeforeYear y' := by
  unfold daysBeforeYear
  omega

/-! ## Months -/

/-- The days of year `y` before month `m`, counted from one. -/
def daysBeforeMonth (y : Int) : Nat → Int
  | 2 => 31
  | 3 => 59 + leapDay y
  | 4 => 90 + leapDay y
  | 5 => 120 + leapDay y
  | 6 => 151 + leapDay y
  | 7 => 181 + leapDay y
  | 8 => 212 + leapDay y
  | 9 => 243 + leapDay y
  | 10 => 273 + leapDay y
  | 11 => 304 + leapDay y
  | 12 => 334 + leapDay y
  | _ => 0

def monthLength (y : Int) : Nat → Int
  | 1 | 3 | 5 | 7 | 8 | 10 | 12 => 31
  | 4 | 6 | 9 | 11 => 30
  | 2 => 28 + leapDay y
  | _ => 0

variable {m : Nat} {d d' : Date}

/-- Each month starts where the one before ends. -/
theorem daysBeforeMonth_succ (y : Int) (h : 1 ≤ m) (h' : m < 12) :
    daysBeforeMonth y (m + 1) = daysBeforeMonth y m + monthLength y m := by
  interval_cases m <;> simp only [daysBeforeMonth, monthLength] <;> omega

theorem monthLength_pos (y : Int) (h : 1 ≤ m) (h' : m ≤ 12) : 28 ≤ monthLength y m := by
  have hl := leapDay_bounds y
  interval_cases m <;> simp only [monthLength] <;> omega

theorem monthLength_le (y : Int) (m : Nat) : monthLength y m ≤ 31 := by
  have hl := leapDay_bounds y
  unfold monthLength
  split <;> omega

/-- Later months start behind the end of earlier ones. -/
theorem daysBeforeMonth_lt (y : Int) {m' : Nat} (h : 1 ≤ m) (hlt : m < m') (h' : m' ≤ 12) :
    daysBeforeMonth y m + monthLength y m ≤ daysBeforeMonth y m' := by
  induction m', hlt using Nat.le_induction with
  | base => exact le_of_eq (daysBeforeMonth_succ y h (by omega)).symm
  | succ m' hle ih =>
    have hstep := daysBeforeMonth_succ y (m := m') (by omega) (by omega)
    have hpos := monthLength_pos y (m := m') (by omega) (by omega)
    omega

theorem daysBeforeMonth_bounds (y : Int) (h : 1 ≤ m) (h' : m ≤ 12) :
    0 ≤ daysBeforeMonth y m ∧ daysBeforeMonth y m + monthLength y m ≤ 365 + leapDay y := by
  have hl := leapDay_bounds y
  interval_cases m <;> simp only [daysBeforeMonth, monthLength] <;> omega

/-! ## Dates -/

/-- A valid date. -/
structure Date where
  year : Int
  month : Nat
  day : Nat
  month_pos : 1 ≤ month
  month_le : month ≤ 12
  day_pos : 1 ≤ day
  day_le : (day : Int) ≤ monthLength year month

/-- The days since 1 January of the date's year. -/
def Date.yearDay (d : Date) : Int := daysBeforeMonth d.year d.month + d.day - 1

/-- The days since 1 January of year 1. -/
def Date.number (d : Date) : Int := daysBeforeYear d.year + d.yearDay

theorem Date.yearDay_bounds (d : Date) : 0 ≤ d.yearDay ∧ d.yearDay < 365 + leapDay d.year := by
  have hb := daysBeforeMonth_bounds d.year d.month_pos d.month_le
  have hpos := d.day_pos
  have hle := d.day_le
  unfold yearDay
  omega

theorem Date.number_lt_of_year (h : d.year < d'.year) : d.number < d'.number := by
  have hb := d.yearDay_bounds
  have hb' := d'.yearDay_bounds
  have hy := @daysBeforeYear_mono (d.year + 1) d'.year h
  rw [daysBeforeYear_succ] at hy
  unfold number
  omega

theorem Date.number_lt_of_month (hy : d.year = d'.year) (h : d.month < d'.month) : d.number < d'.number := by
  have hm := daysBeforeMonth_lt d.year d.month_pos h d'.month_le
  have hle := d.day_le
  have hpos := d'.day_pos
  unfold number yearDay
  rw [← hy]
  omega

theorem Date.number_lt_of_day (hy : d.year = d'.year) (hm : d.month = d'.month)
    (h : d.day < d'.day) : d.number < d'.number := by
  unfold number yearDay
  rw [hy, hm]
  omega

/-! ## Instants -/

/-- A valid date with a time of day. -/
structure Civil extends Date where
  hour : Nat
  minute : Nat
  second : Nat
  hour_lt : hour < 24
  minute_lt : minute < 60
  second_lt : second < 60

/-- The seconds since 1 January 1970. -/
def Civil.seconds (c : Civil) : Int :=
  86400 * (c.number - daysBeforeYear 1970) + 3600 * c.hour + 60 * c.minute + c.second

/-! ## The cycle of 400 years -/

variable {k : Int}

theorem isLeap_add_cycles : isLeap (y + 400 * k) = isLeap y := by
  rw [isLeap, isLeap, show (y + 400 * k) % 4 = y % 4 by omega,
    show (y + 400 * k) % 100 = y % 100 by omega, show (y + 400 * k) % 400 = y % 400 by omega]

theorem daysBeforeYear_add_cycles : daysBeforeYear (y + 400 * k) = daysBeforeYear y + 146097 * k := by
  unfold daysBeforeYear
  omega

theorem leapDay_add_cycles : leapDay (y + 400 * k) = leapDay y := by rw [leapDay, leapDay, isLeap_add_cycles]

theorem daysBeforeMonth_add_cycles : daysBeforeMonth (y + 400 * k) m = daysBeforeMonth y m := by
  unfold daysBeforeMonth
  split <;> first | rfl | rw [leapDay_add_cycles]

theorem monthLength_add_cycles : monthLength (y + 400 * k) m = monthLength y m := by
  unfold monthLength
  split <;> first | rfl | rw [leapDay_add_cycles]

/-- The same date and time `k` cycles later. -/
def Civil.addCycles (c : Civil) (k : Int) : Civil :=
  { c with
    year := c.year + 400 * k
    day_le := by
      rw [monthLength_add_cycles]
      exact c.day_le }

open Date

theorem Civil.seconds_addCycles {c : Civil} : (c.addCycles k).seconds = c.seconds + 86400 * 146097 * k := by
  have hnumber : (c.addCycles k).number = c.number + 146097 * k := by
    show daysBeforeYear (c.year + 400 * k) + (daysBeforeMonth (c.year + 400 * k) c.month + c.day - 1) = _
    rw [daysBeforeYear_add_cycles, daysBeforeMonth_add_cycles]
    unfold number yearDay
    omega
  unfold Civil.seconds
  rw [hnumber]
  show 86400 * (c.number + 146097 * k - daysBeforeYear 1970) + 3600 * (c.hour : Int) +
    60 * (c.minute : Int) + c.second = _
  omega

/-- The order of a number follows a first key, then what decides among equals. -/
theorem compare_eq_then {α : Type} [LinearOrder α] {a b : α} {x : Int} {o : Ordering} (hlt : a < b → x < y)
    (hgt : b < a → y < x) (heq : a = b → compare x y = o) : compare x y = (compare a b).then o := by
  rcases lt_trichotomy a b with h | h | h
  · rw [compare_lt_iff_lt.mpr h, compare_lt_iff_lt.mpr (hlt h)]
    rfl
  · rw [compare_eq_iff_eq.mpr h, heq h]
    rfl
  · rw [compare_gt_iff_gt.mpr h, compare_gt_iff_gt.mpr (hgt h)]
    rfl

/-- Instants are ordered as their fields are, the larger ones first. -/
theorem Civil.compare_seconds (c c' : Civil) : compare c.seconds c'.seconds =
      (compare c.year c'.year).then ((compare c.month c'.month).then
        ((compare c.day c'.day).then ((compare c.hour c'.hour).then
          ((compare c.minute c'.minute).then (compare c.second c'.second))))) := by
  have hm := c.minute_lt
  have hs := c.second_lt
  have hm' := c'.minute_lt
  have hs' := c'.second_lt
  have hday {x y : Civil} (h : x.number < y.number) : x.seconds < y.seconds := by
    have h1 := x.hour_lt
    have h2 := x.minute_lt
    have h3 := x.second_lt
    unfold seconds
    omega
  refine compare_eq_then (fun h => hday (number_lt_of_year h))
    (fun h => hday (number_lt_of_year h)) fun hy => ?_
  refine compare_eq_then (fun h => hday (number_lt_of_month hy h))
    (fun h => hday (number_lt_of_month hy.symm h)) fun hmo => ?_
  refine compare_eq_then (fun h => hday (number_lt_of_day hy hmo h))
    (fun h => hday (number_lt_of_day hy.symm hmo.symm h)) fun hd => ?_
  have hnum : c.number = c'.number := by unfold number yearDay; rw [hy, hmo, hd]
  unfold seconds
  rw [hnum]
  refine compare_eq_then (fun h => by omega) (fun h => by omega) fun hh => ?_
  refine compare_eq_then (fun h => by omega) (fun h => by omega) fun hm => ?_
  rw [hh, hm]
  have hsec := compare_eq_then (a := c.second) (b := c'.second)
    (x := 86400 * (c'.number - daysBeforeYear 1970) + 3600 * c'.hour + 60 * c'.minute + c.second)
    (y := 86400 * (c'.number - daysBeforeYear 1970) + 3600 * c'.hour + 60 * c'.minute + c'.second)
    (o := .eq) (fun h => by omega) (fun h => by omega)
    (fun h => compare_eq_iff_eq.mpr (by rw [h]))
  rw [hsec]
  cases compare c.second c'.second <;> rfl

end Crabc.Lib
