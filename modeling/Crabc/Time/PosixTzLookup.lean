/-
  Crabc.Time.PosixTzLookup

  `PosixZone::offset_at` against the rules it stands for: at an instant, daylight
  time is in force when the last transition of any year up to the instant is a
  start.  The lookup only sees the two transitions of the instant's own UTC year;
  it is right exactly when those decide.
-/

import Crabc.Time.PosixTzYears

namespace Crabc.Time

open Crabc.Lib Crabc.Lib.Checked TransitionRule

/-! ## The rules -/

/-- The start of daylight time in a year. -/
def PosixZone.startAt (zone : PosixZone) (start : TransitionRule) (year : Int) : Int :=
  transitionSeconds year start zone.standard.offset zone.standard.offset

/-- The end of daylight time in a year. -/
def PosixZone.endAt (zone : PosixZone) (daylight : ZoneType) («end» : TransitionRule)
    (year : Int) : Int :=
  transitionSeconds year «end» zone.standard.offset daylight.offset

/-- The last transition of any year up to `t` is a start; where a start and an end coincide it is the start. -/
def LastIsStart (startAt endAt : Int → Int) (t : Int) : Prop :=
  ∃ year, IsGreatest (instantsUpTo startAt endAt t) (startAt year)

/-- The transitions of one year decide an instant of it. Between them, no transition of a neighbouring year
    comes in between; before or behind both of them, the last start and the last end up to the instant are in
    the order that the two have in that year. -/
def OwnYearDecides (startAt endAt : Int → Int) (year t : Int) : Prop :=
  if startAt year ≤ t ∧ t < endAt year then
    ¬ (startAt year < endAt (year - 1) ∧ endAt (year - 1) ≤ t ∧ t < startAt (year + 1))
  else if endAt year ≤ t ∧ t < startAt year then
    ¬ (endAt year ≤ startAt (year - 1) ∧ startAt (year - 1) ≤ t ∧ t < endAt (year + 1))
  else latest endAt year t ≤ latest startAt year t ↔ endAt year ≤ startAt year

/-! ## One year against all years -/

/-- Transitions of one year come before those of the year after the next. -/
def Apart (f g : Int → Int) : Prop := ∀ k, f k < g (k + 2)

/-- The test of the lookup is the rule exactly when the year decides. -/
theorem ownYear_iff {s e : Int → Int} {y t : Int} (hs : Around s y t) (he : Around e y t)
    (hse : Apart s e) (hes : Apart e s) :
    (((if s y < e y then s y ≤ t ∧ t < e y else s y ≤ t ∨ t < e y) ↔ LastIsStart s e t) ↔ OwnYearDecides s e y t) := by
  have hlast : LastIsStart s e t ↔ latest e y t ≤ latest s y t := isGreatest_iff_latest hs he
  rw [hlast]
  unfold OwnYearDecides
  have hs1 : s y ≤ s (y + 1) := hs.mono (by omega)
  have he1 : e y ≤ e (y + 1) := he.mono (by omega)
  have hes1 : e (y - 1) < s (y + 1) := by
    have h := hes (y - 1)
    rwa [show y - 1 + 2 = y + 1 by omega] at h
  have hse1 : s (y - 1) < e (y + 1) := by
    have h := hse (y - 1)
    rwa [show y - 1 + 2 = y + 1 by omega] at h
  have hes2 : e (y - 2) < s y := by
    have h := hes (y - 2)
    rwa [Int.sub_add_cancel] at h
  have hse2 : s (y - 2) < e y := by
    have h := hse (y - 2)
    rwa [Int.sub_add_cancel] at h
  by_cases hb : s y ≤ t ∧ t < e y
  · -- between the start and the end: the lookup says daylight
    rw [if_pos hb, if_pos (by omega)]
    unfold latest
    split_ifs <;> omega
  rw [if_neg hb]
  by_cases hc : e y ≤ t ∧ t < s y
  · -- between the end and the start: the lookup says standard time
    unfold latest
    split_ifs <;> omega
  · -- before or behind both: the lookup goes by their order
    rw [if_neg hc]
    have hcode : (if s y < e y then s y ≤ t ∧ t < e y else s y ≤ t ∨ t < e y) ↔ e y ≤ s y := by split_ifs <;> omega
    rw [hcode]
    exact iff_comm

/-! ## The lookup -/

open PosixZone

/-- What the lookup computes for a zone with daylight time. -/
theorem PosixZone.offsetAt_eq {zone : PosixZone} (hzone : zone.WellFormed) {daylight : ZoneType}
    (hd : zone.daylight = some daylight) {start «end» : TransitionRule}
    (hs : zone.start = some start) (he : zone.end = some «end») (t : Int) :
    ∃ info, zone.offsetAt t = .ok info ∧ (info.isDaylightSaving = true ↔
        if zone.startAt start (yearFromUnixSeconds t) < zone.endAt daylight «end»
            (yearFromUnixSeconds t)
        then zone.startAt start (yearFromUnixSeconds t) ≤ t ∧ t < zone.endAt daylight «end» (yearFromUnixSeconds t)
        else zone.startAt start (yearFromUnixSeconds t) ≤ t ∨
          t < zone.endAt daylight «end» (yearFromUnixSeconds t)) := by
  unfold offsetAt startAt endAt
  rw [hd, hs, he]
  simp only [Checked.expect, ok_bind]
  have hstd := hzone.standard
  have hday := hzone.daylight hd
  split_ifs with h1 h2 h2
  · exact ⟨_, rfl, by simpa [infoFor, hday] using h2⟩
  · exact ⟨_, rfl, by simpa [infoFor, hstd] using h2⟩
  · exact ⟨_, rfl, by simpa [infoFor, hday] using h2⟩
  · exact ⟨_, rfl, by simpa [infoFor, hstd] using h2⟩

/-- `EST5EDT,0/0,J365/25`: each end of daylight time is the next start. -/
def permanentDaylight : ByteSlice :=
  ⟨[69, 83, 84, 53, 69, 68, 84, 44, 48, 47, 48, 44, 74, 51, 54, 53, 47, 50, 53], by decide⟩

def permanentStart : TransitionRule := .dayOfYear 0 ⟨0, .wall⟩

def permanentEnd : TransitionRule := .julianNoLeap 365 ⟨90000, .wall⟩

def easternDaylight : ZoneType := ⟨⟨-14400, by decide, by decide⟩, true, [69, 68, 84]⟩

def permanentZone : PosixZone :=
  ⟨⟨⟨-18000, by decide, by decide⟩, false, [69, 83, 84]⟩, some easternDaylight, some permanentStart, some permanentEnd⟩

theorem parsePosixZone_permanentDaylight : parsePosixZone permanentDaylight.bytes = .ok permanentZone := by
  decide +kernel

/-- The end of one year is the start of the next. -/
theorem permanentZone_endAt (y : Int) : permanentZone.endAt easternDaylight permanentEnd y =
      permanentZone.startAt permanentStart (y + 1) := by
  have hjan := daysFromCivil_eq y (Nat.le_refl 1) (by decide) 1
  have hjan' := daysFromCivil_eq (y + 1) (Nat.le_refl 1) (by decide) 1
  have hsucc := newYear_succ y
  have hzero (z : Int) : daysBeforeMonth z 1 = 0 := rfl
  rw [hzero] at hjan hjan'
  have hleap : (if isLeapYear y ∧ ((365 : Nat) : Int) - 1 ≥ 59 then 1 else 0) = leapDay y := by
    simp [leapDay, isLeapYear_eq]
  simp only [endAt, startAt, permanentZone, easternDaylight, permanentEnd,
    permanentStart, transitionSeconds, dayStartSeconds, time, hleap]
  omega

/-! ## The cycle of 400 years -/

variable {k : Int}

theorem yearFromUnixSeconds_add_cycles (t : Int) :
    yearFromUnixSeconds (t + 12622780800 * k) = yearFromUnixSeconds t + 400 * k := by
  have hdays : (t + 12622780800 * k) / 86400 + 719468 = t / 86400 + 719468 + 146097 * k := by omega
  have hera (n : Int) : n + 146097 * k - (n + 146097 * k) / 146097 * 146097 = n - n / 146097 * 146097 := by omega
  simp only [yearFromUnixSeconds, hdays, hera]
  omega

theorem daysFromCivil_add_cycles (y : Int) (m d : Nat) :
    daysFromCivil (y + 400 * k) m d = daysFromCivil y m d + 146097 * k := by
  simp only [daysFromCivil]
  omega

theorem dayStartSeconds_add_cycles (rule : TransitionRule) (y : Int) :
    rule.dayStartSeconds (y + 400 * k) = rule.dayStartSeconds y + 12622780800 * k := by
  have hleap : isLeapYear (y + 400 * k) = isLeapYear y := isLeap_add_cycles
  have hweekday (n : Int) : weekdayFromDays (n + 146097 * k) = weekdayFromDays n := by
    unfold weekdayFromDays
    omega
  have hmonth (m : Nat) : daysInMonth (y + 400 * k) m = daysInMonth y m := by simp only [daysInMonth, hleap]
  cases rule
  all_goals
    simp only [dayStartSeconds, daysFromCivil_add_cycles, hleap, hweekday, hmonth]
    omega

/-- The answers of a rule repeat with the calendar. -/
theorem offsetAt_add_cycles (zone : PosixZone) (t k : Int) :
    zone.offsetAt (t + 12622780800 * k) = zone.offsetAt t := by
  have htransition (rule : TransitionRule) (y : Int) (standard wall : UtcOffset) :
      transitionSeconds (y + 400 * k) rule standard wall =
        transitionSeconds y rule standard wall + 12622780800 * k := by
    unfold transitionSeconds
    rw [dayStartSeconds_add_cycles]
    cases rule.time.basis <;> dsimp only <;> omega
  simp only [offsetAt, yearFromUnixSeconds_add_cycles, htransition, ge_iff_le, Int.add_le_add_iff_right,
    Int.add_lt_add_iff_right]

end Crabc.Time
