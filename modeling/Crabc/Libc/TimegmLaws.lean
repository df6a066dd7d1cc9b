/-
  Crabc.Libc.TimegmLaws

  The UTC calendar of the C side counts the proleptic Gregorian calendar without any
  overflow, `timegm` puts a record into its normal form, and `secs_to_tm` is the native
  `calendar_from_unix_seconds`.
-/

import Crabc.Libc.Timegm
import Crabc.Time.CivilLaws

namespace Crabc.Libc

open Crabc.Lib Time
open Crabc.Lib.Wrapping (i32 i64 InI32 InI64 yields_i32 yields_i64 yields_pure
  bind_i32 bind_i64)
open Crabc.Time (cappedDiv monthDaysBefore marchBasedDays splitCentury yearToSeconds
  calendarFromUnixSeconds CalendarTime)

/-! ## Floored division -/

open Int Tm Int32

variable {d n year days : Int}

/-- A truncated division and its floored counterpart, for a positive divisor. -/
theorem tdiv_cases (n : Int) (hd : 0 < d) : (n.tdiv d = n / d ∧ n.tmod d = n % d) ∨
      (n.tdiv d = n / d + 1 ∧ n.tmod d = n % d - d ∧ n % d ≠ 0) := by
  rw [tdiv_eq_ediv, tmod_eq_emod]
  by_cases h : 0 ≤ n ∨ d ∣ n
  · rw [if_pos h, if_pos h]
    omega
  · rw [if_neg h, if_neg h, sign_eq_one_of_pos hd]
    omega

/-- The source's floored division gives the floor quotient and remainder. -/
theorem floorDivMod_yields {word : Int → Wrapping Int} (hd : 0 < d) (hd' : d < 2147483648)
    (hword : ∀ q, n / d ≤ q → q ≤ n / d + 1 → (word q).Yields q) :
    (floorDivMod word n d).Yields (n / d, n % d) := by
  have hnonneg := emod_nonneg n hd.ne'
  have hlt := emod_lt_of_pos n hd
  rcases tdiv_cases n hd with ⟨hq, hr⟩ | ⟨hq, hr, hne⟩
  all_goals
    rw [floorDivMod, hq, hr]
    refine (hword _ (by omega) (by omega)).bind ?_
    refine bind_i32 ?_ (by omega)
  · rw [if_neg (by omega)]
    exact yields_pure _
  · rw [if_pos (by omega), show n / d + 1 - 1 = n / d by omega,
      show n % d - d + d = n % d by omega]
    refine (hword _ (by omega) (by omega)).bind ?_
    refine bind_i32 ?_ (by omega)
    exact yields_pure _

/-! ## Years and months -/

theorem bit_bounds (b : Bool) : 0 ≤ Time.bit b ∧ Time.bit b ≤ 1 := by
  cases b <;> decide

variable {r : Int}

theorem centuries_yields (h : 0 ≤ r) (h' : r < 400) : (centuries r).Yields (splitCentury r) := by
  rw [centuries, splitCentury]
  split
  · split
    all_goals exact bind_i32 (yields_pure _) (by omega)
  · split
    · exact bind_i32 (yields_pure _) (by omega)
    · exact yields_pure _

/-- What the native `year_to_seconds` finds for the remainder of a cycle. -/
def nativeParts (r : Int) : Int × Int × Bool :=
  if r = 0 then (0, 0, true)
  else
    let century := splitCentury r
    if century.2 = 0 then (century.1, 0, false)
    else (century.1, century.2 / 4, century.2 % 4 == 0)

theorem leapParts_yields (h : 0 ≤ r) (h' : r < 400) : (leapParts r).Yields (nativeParts r) := by
  rw [leapParts, nativeParts]
  split
  · exact yields_pure _
  · refine (centuries_yields h h').bind ?_
    obtain ⟨k, s, hks, _, _, _, hs, _⟩ := splitCentury_spec h h'
    rw [hks]
    dsimp only
    split
    · exact yields_pure _
    · rw [tdiv_eq_ediv_of_nonneg hs, tmod_eq_emod_of_nonneg hs]
      exact yields_pure _

theorem nativeParts_bounds (h : 0 ≤ r) (h' : r < 400) :
    0 ≤ (nativeParts r).1 ∧ (nativeParts r).1 ≤ 3 ∧ 0 ≤ (nativeParts r).2.1 ∧ (nativeParts r).2.1 ≤ 24 := by
  rw [nativeParts]
  split
  · decide
  · obtain ⟨k, s, hks, _, _, _, hs, _⟩ := splitCentury_spec h h'
    rw [hks]
    dsimp only
    split
    · dsimp only
      omega
    · dsimp only
      omega

/-- `year_to_secs` is the native `year_to_seconds`, in every year whose seconds are well inside an `i64`. -/
theorem yearToSecs_yields (h : -292000000000 ≤ year) (h' : year ≤ 292000000000) :
    (yearToSecs year).Yields (yearToSeconds year) := by
  rw [yearToSecs, yearToSeconds]
  simp only [secondsPerDay]
  have hfast : (year - 2) % 18446744073709551616 ≤ 136 ↔ 2 ≤ year ∧ year ≤ 138 := by omega
  by_cases hyear : 2 ≤ year ∧ year ≤ 138
  · rw [if_pos (hfast.mpr hyear), if_pos hyear]
    have hbit := bit_bounds ((year - 68) % 4 == 0)
    refine bind_i32 ?_
    refine bind_i32 ?_
    refine bind_i32 ?_
    refine bind_i32 ?_
    refine bind_i64 ?_
    refine bind_i64 ?_
    refine bind_i64 ?_
    refine (yields_pure _).of_eq ?_
    rw [mul_comm _ 31536000, mul_comm _ 86400]
  · rw [if_neg (fun hlt => hyear (hfast.mp hlt)), if_neg hyear]
    have hr := emod_nonneg (year - 100) (show (400 : Int) ≠ 0 by decide)
    have hr' := emod_lt_of_pos (year - 100) (show (0 : Int) < 400 by decide)
    refine bind_i64 ?_
    refine (floorDivMod_yields (by decide) (by decide)
      fun q hq hq' => yields_i32).bind ?_
    refine (leapParts_yields hr hr').bind ?_
    obtain ⟨hc, hc', hl, hl'⟩ := nativeParts_bounds hr hr'
    have hparts : (if (year - 100) % 400 = 0 then ((0, 0, true) : Int × Int × Bool)
        else
          let century := splitCentury ((year - 100) % 400)
          if century.2 = 0 then (century.1, 0, false)
          else (century.1, century.2 / 4, century.2 % 4 == 0)) =
        nativeParts ((year - 100) % 400) := rfl
    rw [hparts]
    generalize nativeParts ((year - 100) % 400) = parts at hc hc' hl hl'
    obtain ⟨century, leaps, leap⟩ := parts
    dsimp only at hc hc' hl hl' ⊢
    have hbit := bit_bounds leap
    have hcycles : (year - 100) / 400 ≤ 730000000 ∧ -731000000 ≤ (year - 100) / 400 := by omega
    generalize (year - 100) / 400 = cycles at hcycles
    refine bind_i64 ?_
    refine bind_i64 ?_
    refine bind_i64 ?_
    refine bind_i64 ?_
    refine bind_i64 ?_
    refine bind_i64 ?_
    refine bind_i64 ?_
    refine bind_i64 ?_
    refine bind_i64 ?_
    refine bind_i64 ?_
    refine (yields_pure _).of_eq ?_
    rw [mul_comm cycles 97, mul_comm century 24]

/-- `month_to_secs` counts the days of the year before a month. -/
theorem monthToSecs_yields (y : Int) {month : Int} (h : 0 ≤ month) (h' : month < 12) :
    (monthToSecs month (isLeap y)).Yields (86400 * daysBeforeMonth y (month.toNat + 1)) := by
  have hdays := monthDaysBefore_eq y (m := month.toNat + 1) (by omega) (by omega)
  have htable : secsThroughMonth.getD month.toNat 0 = 86400 * monthDaysBefore.getD (month.toNat + 1 - 1) 0 := by
    interval_cases month <;> rfl
  rw [monthToSecs, htable, ← hdays]
  have hbound : 0 ≤ monthDaysBefore.getD (month.toNat + 1 - 1) 0 ∧
      monthDaysBefore.getD (month.toNat + 1 - 1) 0 ≤ 334 := by
    interval_cases month <;> decide
  split
  · rename_i hleap
    have hbit : Time.bit (isLeap y && decide (month.toNat + 1 ≥ 3)) = 1 := by
      rw [hleap.1, decide_eq_true (by omega : month.toNat + 1 ≥ 3)]
      rfl
    refine (yields_i64 ?_).of_eq ?_
    · rw [secondsPerDay]
      exact ⟨by omega, by omega⟩
    · rw [secondsPerDay]
      omega
  · rename_i hleap
    have hbit : Time.bit (isLeap y && decide (month.toNat + 1 ≥ 3)) = 0 := by
      cases hy : isLeap y with
      | false => rfl
      | true =>
        have hsmall : ¬ month.toNat + 1 ≥ 3 := fun hge => hleap ⟨hy, by omega⟩
        rw [decide_eq_false hsmall]
        rfl
    rw [hbit, add_zero]
    exact yields_pure _

/-- The month carry is the floored division by twelve. -/
theorem carryMonth_yields {month : Int} (hy : InI32 year) (hm : InI32 month) :
    (carryMonth year month).Yields (year + month / 12, month % 12) := by
  obtain ⟨hy₁, hy₂⟩ := hy
  obtain ⟨hm₁, hm₂⟩ := hm
  rw [carryMonth]
  split
  · refine (yields_pure _).of_eq ?_
    rw [show month / 12 = 0 by omega, show month % 12 = month by omega, add_zero]
  · refine (floorDivMod_yields (by decide) (by decide)
      fun q hq hq' => yields_i32 (by omega)).bind ?_
    refine bind_i64 ?_ (by omega)
    exact yields_pure _

/-! ## The seconds of a record -/

/-- The proleptic Gregorian second count of a record, over the integers: the month is
    carried into the year, and the smaller fields count as they are. -/
def Tm.civilSeconds (value : Tm) : Int :=
  let year := 1900 + value.year.toInt + value.month.toInt / 12
  86400 * (daysBeforeYear year + daysBeforeMonth year ((value.month.toInt % 12).toNat + 1) +
      (value.monthDay.toInt - 1) - daysBeforeYear 1970) +
    3600 * value.hours.toInt + 60 * value.minutes.toInt + value.seconds.toInt

theorem inI32_toInt (n : Int32) : InI32 n.toInt := ⟨n.le_toInt, n.toInt_lt⟩

/-- **`tm_to_secs`** is the Gregorian count, without overflow. -/
theorem tmToSecs_yields {value : Tm} : (tmToSecs value).Yields value.civilSeconds := by
  have hy := inI32_toInt value.year
  have hm := inI32_toInt value.month
  obtain ⟨hd, hd'⟩ := inI32_toInt value.monthDay
  obtain ⟨hh, hh'⟩ := inI32_toInt value.hours
  obtain ⟨hmi, hmi'⟩ := inI32_toInt value.minutes
  obtain ⟨hs, hs'⟩ := inI32_toInt value.seconds
  rw [tmToSecs]
  simp only [secondsPerDay]
  refine (carryMonth_yields hy hm).bind ?_
  obtain ⟨hy₁, hy₂⟩ := hy
  obtain ⟨hm₁, hm₂⟩ := hm
  generalize hyear : value.year.toInt + value.month.toInt / 12 = year
  have hstart := yearToSeconds_eq (1900 + year)
  rw [show 1900 + year - 1900 = year by omega] at hstart
  refine ((yearToSecs_yields (by omega) (by omega)).of_eq hstart).bind ?_
  refine (monthToSecs_yields (1900 + year) (emod_nonneg _ (by decide))
    (emod_lt_of_pos _ (by decide))).bind ?_
  have hmonths := daysBeforeMonth_bounds (1900 + year)
    (m := (value.month.toInt % 12).toNat + 1) (by omega) (by omega)
  have hlength := monthLength_pos (1900 + year)
    (m := (value.month.toInt % 12).toNat + 1) (by omega) (by omega)
  have hleap := leapDay_bounds (1900 + year)
  have hdays : -900000000000 ≤ daysBeforeYear (1900 + year) ∧ daysBeforeYear (1900 + year) ≤ 900000000000 := by
    unfold daysBeforeYear
    omega
  have h1970 : daysBeforeYear 1970 = 719162 := by decide
  rw [civilSeconds, show 1900 + value.year.toInt + value.month.toInt / 12 = 1900 + year by omega]
  refine bind_i64 ?_
  refine bind_i64 ?_
  refine bind_i64 ?_
  refine bind_i64 ?_
  refine bind_i64 ?_
  refine bind_i64 ?_
  refine bind_i64 ?_
  refine bind_i64 ?_
  refine Wrapping.Yields.of_eq yields_i64 ?_
  omega

/-! ## The record of an instant -/

theorem cappedDivMod_yields {limit : Int} (hn : 0 ≤ n) (hn' : n < 1000000) (hd : 0 < d)
    (hlimit : 1 ≤ limit) (h : n < d * (limit + 1)) : (cappedDivMod n d limit).Yields
      (cappedDiv n d limit, n - cappedDiv n d limit * d) := by
  obtain ⟨hq, hq', hmul, _⟩ := cappedDiv_spec hn hd hlimit h
  have hle : cappedDiv n d limit ≤ n := by
    have hmul' : cappedDiv n d limit * 1 ≤ cappedDiv n d limit * d :=
      mul_le_mul_of_nonneg_left (by omega) hq
    omega
  have hpos : 0 ≤ cappedDiv n d limit * d := mul_nonneg hq hd.le
  rw [cappedDivMod, tdiv_eq_ediv_of_nonneg hn]
  change (i32 (cappedDiv n d limit) >>= _ : Wrapping (Int × Int)).Yields _
  refine bind_i32 ?_ (by omega)
  refine bind_i32 ?_ (by omega)
  refine bind_i32 ?_ (by omega)
  exact yields_pure _

theorem monthLoop_yields (months : List Int) (hmonths : ∀ m ∈ months, 0 ≤ m) (index : Nat) (hr : 0 ≤ r)
    (hr' : r < 1000000) (hindex : index + months.length < 1000) : (monthLoop months index r).Yields
      (((monthScan months index r).1 : Int), (monthScan months index r).2) := by
  induction months generalizing index r with
  | nil => exact yields_pure _
  | cons days rest ih =>
    have hdays := hmonths days List.mem_cons_self
    rw [List.length_cons] at hindex
    rw [monthLoop, monthScan]
    split
    · refine bind_i32 ?_ (by omega)
      refine bind_i32 ?_ (by omega)
      exact ih (fun m hm => hmonths m (List.mem_cons_of_mem _ hm)) (index + 1) (by omega)
        (by omega) (by omega)
    · exact yields_pure _

theorem yearDayOf_yields (hr : 0 ≤ r) (hr' : r < 1000) {leap : Bool} : (yearDayOf r leap).Yields
      (if r + 31 + 28 + Time.bit leap ≥ 365 + Time.bit leap then r + 31 + 28 + Time.bit leap - (365 + Time.bit leap)
        else r + 31 + 28 + Time.bit leap) := by
  have hbit := bit_bounds leap
  refine bind_i32 ?_ (by omega)
  split
  · exact yields_i32 (by omega)
  · exact yields_pure _

/-- The record with the calendar fields of a native value. -/
def Tm.ofCalendar (output : Tm) (c : CalendarTime) : Tm :=
  { output with
    year := ofInt (c.year - 1900)
    month := ofInt (c.month - 1)
    monthDay := ofInt c.day
    weekDay := ofInt c.weekday
    yearDay := ofInt c.yearday
    hours := ofInt c.hour
    minutes := ofInt c.minute
    seconds := ofInt c.second }

theorem monthScan_bounds (h : 0 ≤ r) (h' : r < 366) :
    (monthScan marchBasedDays 0 r).1 < 12 ∧ 0 ≤ (monthScan marchBasedDays 0 r).2 ∧
      (monthScan marchBasedDays 0 r).2 < 31 := by
  obtain ⟨i, hi, hscan, hle, hlt⟩ := monthScan_spec marchBasedDays 0 h h'
  rw [hscan]
  have hlen : i < 12 := hi
  have hmonth : (marchBasedDays.take (i + 1)).sum ≤ (marchBasedDays.take i).sum + 31 := by
    interval_cases i <;> decide
  omega

/-- One capped division: the quotient is below its limit, and what is left is below `bound` when the whole is. -/
theorem cappedDiv_bounds (d limit bound : Int) (hn : 0 ≤ n) (hd : 0 < d) (hlimit : 1 ≤ limit)
    (hle : d ≤ bound) (h : n < d * (limit - 1) + bound) (h' : n < d * (limit + 1)) :
    0 ≤ cappedDiv n d limit ∧ cappedDiv n d limit ≤ limit - 1 ∧
      0 ≤ n - cappedDiv n d limit * d ∧ n - cappedDiv n d limit * d < bound := by
  obtain ⟨hq, hq', hmul, hrest⟩ := cappedDiv_spec hn hd hlimit h'
  refine ⟨hq, hq', by omega, ?_⟩
  rcases hrest with hrest | hrest
  · omega
  · rw [hrest, mul_comm]
    omega

/-- The native function from the day and the second of the day on. -/
def nativeFields (days clock : Int) : Except Time.Errno CalendarTime :=
  let cycles100 := cappedDiv (days % daysPer400y) daysPer100y 4
  let remaining := days % daysPer400y - cycles100 * daysPer100y
  let cycles4 := cappedDiv remaining daysPer4y 25
  let remaining := remaining - cycles4 * daysPer4y
  let yearsInCycle := cappedDiv remaining 365 4
  let remaining := remaining - yearsInCycle * 365
  let leap : Bool := yearsInCycle == 0 && (cycles4 != 0 || cycles100 == 0)
  let yearday := remaining + 31 + 28 + Time.bit leap
  let yearday := if yearday ≥ 365 + Time.bit leap then yearday - (365 + Time.bit leap) else yearday
  let years := yearsInCycle + 4 * cycles4 + 100 * cycles100 + 400 * (days / daysPer400y)
  let scan := monthScan marchBasedDays 0 remaining
  let month := (scan.1 : Int) + 2
  let year := if month ≥ 12 then years + 2000 + 1 else years + 2000
  let month := if month ≥ 12 then month - 12 else month
  if year - 1900 < i32Min ∨ year - 1900 > i32Max then .error .range
  else
    .ok
      { year := year
        month := asU8 month + 1
        day := asU8 scan.2 + 1
        hour := asU8 (clock / 3600)
        minute := asU8 (clock / 60 % 60)
        second := asU8 (clock % 60)
        weekday := asU8 ((3 + days) % 7)
        yearday := asU16 yearday }

theorem calendarFromUnixSeconds_eq {seconds : Int} : calendarFromUnixSeconds seconds =
      if seconds < -2147483648 * 31622400 ∨ seconds > 2147483647 * 31622400 then .error .range
      else
        nativeFields ((seconds - leapoch) / secondsPerDay) ((seconds - leapoch) % secondsPerDay) :=
  rfl

theorem weekDay_yields (h : -1000000000000 ≤ days) (h' : days ≤ 1000000000000)
    {β : Type} {f : Int → Wrapping β} {w : β} (hf : (f ((3 + days) % 7)).Yields w) :
    (i64 (3 + days) >>= fun sum => i32 (sum.tmod 7) >>= fun weekDay =>
      i32 (if weekDay < 0 then weekDay + 7 else weekDay) >>= f).Yields w := by
  refine bind_i64 ?_ (by omega)
  have hmod : (if (3 + days).tmod 7 < 0 then (3 + days).tmod 7 + 7 else (3 + days).tmod 7) = (3 + days) % 7 := by
    rcases tdiv_cases (3 + days) (d := 7) (by decide) with ⟨_, hr⟩ | ⟨_, hr, _⟩
    · rw [hr, if_neg (by omega)]
    · omega
  have hrange : InI32 ((3 + days).tmod 7) := by
    rcases tdiv_cases (3 + days) (d := 7) (by decide) with ⟨_, hr⟩ | ⟨_, hr, _⟩
    all_goals exact ⟨by omega, by omega⟩
  refine bind_i32 ?_ hrange
  rw [hmod]
  exact bind_i32 hf (by omega)

/-- `secs_to_tm` from the day on. -/
theorem fieldsOf_yields {clock : Int} {output : Tm} (hdays : -1000000000000 ≤ days)
    (hdays' : days ≤ 1000000000000) (hclock : 0 ≤ clock) (hclock' : clock < 86400) :
    (fieldsOf days clock output).Yields
      (match nativeFields days clock with
        | .error _ => none
        | .ok c => some (output.ofCalendar c)) := by
  have h400 : daysPer400y = 146097 := rfl
  have h100 : daysPer100y = 36524 := rfl
  have h4 : daysPer4y = 1461 := rfl
  rw [fieldsOf, nativeFields, h400, h100, h4]
  refine weekDay_yields hdays hdays' ?_
  refine (floorDivMod_yields (by decide) (by decide)
    fun q hq hq' => yields_i32).bind ?_
  have hr0 : 0 ≤ days % 146097 ∧ days % 146097 < 146097 := by omega
  have hcycles : -10000000 ≤ days / 146097 ∧ days / 146097 ≤ 10000000 := by omega
  generalize days % 146097 = r0 at *
  generalize days / 146097 = cycles400 at *
  obtain ⟨hc100, hc100', hr1, hr1'⟩ := cappedDiv_bounds 36524 4 36525
    hr0.1 (by decide) (by decide) (by decide) (by omega) (by omega)
  refine (cappedDivMod_yields hr0.1 (by omega) (by decide) (by decide) (by omega)).bind ?_
  generalize cappedDiv r0 36524 4 = cycles100 at *
  generalize r0 - cycles100 * 36524 = r1 at *
  obtain ⟨hc4, hc4', hr2, hr2'⟩ := cappedDiv_bounds 1461 25 1461
    hr1 (by decide) (by decide) (by decide) (by omega) (by omega)
  refine (cappedDivMod_yields hr1 (by omega) (by decide) (by decide) (by omega)).bind ?_
  generalize cappedDiv r1 1461 25 = cycles4 at *
  generalize r1 - cycles4 * 1461 = r2 at *
  obtain ⟨hy, hy', hr3, hr3'⟩ := cappedDiv_bounds 365 4 366
    hr2 (by decide) (by decide) (by decide) (by omega) (by omega)
  refine (cappedDivMod_yields hr2 (by omega) (by decide) (by decide) (by omega)).bind ?_
  dsimp only
  generalize cappedDiv r2 365 4 = years at *
  generalize r2 - years * 365 = r3 at *
  generalize (years == 0 && (cycles4 != 0 || cycles100 == 0)) = leap
  refine (yearDayOf_yields hr3 (by omega)).bind ?_
  refine bind_i64 ?_
  refine bind_i64 ?_
  refine bind_i64 ?_
  refine bind_i64 ?_
  refine bind_i64 ?_
  refine bind_i64 ?_
  refine (monthLoop_yields marchBasedDays (by decide) 0 hr3 (by omega) (by decide)).bind ?_
  obtain ⟨hs, hs', hs''⟩ := monthScan_bounds hr3 hr3'
  generalize monthScan marchBasedDays 0 r3 = scan at *
  obtain ⟨months, remaining⟩ := scan
  have hbit := bit_bounds leap
  -- the year of the instant, and its month counted from January
  have hcarry : ∃ year month : Int, (carryYear (years + cycles4 * 4 + cycles100 * 100 + cycles400 * 400) months).Yields
        (year - 2000, month - 2) ∧
      (if (months : Int) + 2 ≥ 12 then years + 4 * cycles4 + 100 * cycles100 + 400 * cycles400 + 2000 + 1
        else years + 4 * cycles4 + 100 * cycles100 + 400 * cycles400 + 2000) = year ∧
      (if (months : Int) + 2 ≥ 12 then (months : Int) + 2 - 12 else months + 2) = month ∧
      (0 ≤ month ∧ month < 12) ∧ (-5000000000 ≤ year ∧ year ≤ 5000000000) := by
    rw [carryYear]
    by_cases hmonths : (months : Int) ≥ 10
    · rw [if_pos hmonths, if_pos (by omega), if_pos (by omega)]
      refine ⟨_, _, ?_, rfl, rfl, by omega, by omega⟩
      refine bind_i32 ?_
      refine bind_i64 ?_
      refine (yields_pure _).of_eq (Prod.ext ?_ ?_)
      · omega
      · omega
    · rw [if_neg hmonths, if_neg (by omega), if_neg (by omega)]
      refine ⟨_, _, ?_, rfl, rfl, by omega, by omega⟩
      refine (yields_pure _).of_eq (Prod.ext ?_ ?_)
      · omega
      · omega
  obtain ⟨year, month, hyields, hyear, hmonth, hrange, hrange'⟩ := hcarry
  refine hyields.bind ?_
  rw [hyear, hmonth]
  refine bind_i64 ?_
  rw [show year - 2000 + 100 = year - 1900 by omega]
  have hfits : (year - 1900 > 2147483647 ∨ year - 1900 < -2147483648) ↔
      (year - 1900 < i32Min ∨ year - 1900 > i32Max) := by
    rw [i32Min, i32Max]
    omega
  by_cases hfit : year - 1900 < i32Min ∨ year - 1900 > i32Max
  · rw [if_pos (hfits.mpr hfit), if_pos hfit]
    exact yields_pure _
  · rw [if_neg (fun h => hfit (hfits.mp h)), if_neg hfit]
    refine bind_i32 ?_
    refine bind_i32 ?_
    refine (yields_pure _).of_eq ?_
    generalize hyearDay : (if r3 + 31 + 28 + Time.bit leap ≥ 365 + Time.bit leap then
        r3 + 31 + 28 + Time.bit leap - (365 + Time.bit leap) else r3 + 31 + 28 + Time.bit leap) = yearDay at *
    have hyd : 0 ≤ yearDay ∧ yearDay < 400 := by split at hyearDay <;> omega
    -- every field is in the range of its cast
    simp (disch := omega) only [ofCalendar, asU8_eq, asU16_eq, tdiv_eq_ediv_of_nonneg, tmod_eq_emod_of_nonneg]
    have hday : ((remaining.toNat + 1 : Nat) : Int) = remaining + 1 := by omega
    have hmonthCast : ((month.toNat + 1 : Nat) : Int) - 1 = month - 2 + 2 := by omega
    simp (disch := omega) only [hday, hmonthCast, toNat_of_nonneg]

/-- **`secs_to_tm`** computes what the native `calendar_from_unix_seconds` computes, on
    every instant, and fails on the same ones. -/
theorem secsToTm_yields (seconds : Int) (output : Tm) : (secsToTm seconds output).Yields
      (match calendarFromUnixSeconds seconds with
        | .error _ => none
        | .ok c => some (output.ofCalendar c)) := by
  rw [secsToTm, calendarFromUnixSeconds_eq]
  by_cases hguard : seconds < -2147483648 * 31622400 ∨ seconds > 2147483647 * 31622400
  · rw [if_pos hguard, if_pos hguard]
    exact yields_pure _
  · rw [if_neg hguard, if_neg hguard]
    have hleapoch : leapoch = 951868800 := rfl
    simp only [hleapoch, secondsPerDay]
    refine bind_i64 ?_ (by omega)
    refine (floorDivMod_yields (by decide) (by decide)
      fun q hq hq' => yields_i64 (by omega)).bind ?_
    exact fieldsOf_yields (by omega) (by omega) (by omega) (by omega)

/-! ## Normal forms -/

/-- The year of an instant fits into a record. -/
def FitsTm (c : Civil) : Prop := i32Min ≤ c.year - 1900 ∧ c.year - 1900 ≤ i32Max

instance (c : Civil) : Decidable (FitsTm c) := inferInstanceAs (Decidable (_ ∧ _))

/-- A record in normal form: every field in its range, the derived fields those of the date, in UTC. -/
structure Tm.Normalized (r : Tm) : Prop where
  seconds : 0 ≤ r.seconds.toInt ∧ r.seconds.toInt < 60
  minutes : 0 ≤ r.minutes.toInt ∧ r.minutes.toInt < 60
  hours : 0 ≤ r.hours.toInt ∧ r.hours.toInt < 24
  month : 0 ≤ r.month.toInt ∧ r.month.toInt < 12
  monthDay : 1 ≤ r.monthDay.toInt ∧ r.monthDay.toInt ≤ monthLength (1900 + r.year.toInt) (r.month.toInt.toNat + 1)
  yearDay : r.yearDay.toInt = daysBeforeMonth (1900 + r.year.toInt) (r.month.toInt.toNat + 1) + r.monthDay.toInt - 1
  weekDay : r.weekDay.toInt = (4 + r.civilSeconds / 86400) % 7
  utc : r.daylightSaving = 0 ∧ r.utcOffset = 0 ∧ r.utcName = some utcText

/-- The normal form of the records with the seconds of an instant. -/
def Tm.normal (c : Civil) : Tm :=
  { zeroTm.ofCalendar (.ofCivil c) with utcName := some utcText }

theorem toInt_ofInt (h : -2147483648 ≤ n ∧ n < 2147483648) : (ofInt n).toInt = n :=
  toInt_ofInt_of_le h.1 h.2

/-- The calendar fields of a record are those of a native value. -/
structure SameFields (r : Tm) (c : CalendarTime) : Prop where
  year : r.year.toInt = c.year - 1900
  month : r.month.toInt = c.month - 1
  monthDay : r.monthDay.toInt = c.day
  hours : r.hours.toInt = c.hour
  minutes : r.minutes.toInt = c.minute
  seconds : r.seconds.toInt = c.second
  weekDay : r.weekDay.toInt = c.weekday
  yearDay : r.yearDay.toInt = c.yearday

variable {c : Civil}

/-- The fields of an instant whose year fits go into the record unchanged. -/
theorem sameFields_ofCalendar (output : Tm) (h : FitsTm c) :
    SameFields (output.ofCalendar (.ofCivil c)) (.ofCivil c) := by
  obtain ⟨hy, hy'⟩ := h
  rw [i32Min] at hy
  rw [i32Max] at hy'
  have hm' := c.month_le
  have hd' := c.day_le
  have hlen := monthLength_le c.year c.month
  have hh := c.hour_lt
  have hmi := c.minute_lt
  have hs := c.second_lt
  have hyd := c.yearDay_bounds
  have hl := leapDay_bounds c.year
  constructor <;> refine toInt_ofInt ?_ <;> dsimp only [CalendarTime.ofCivil] <;> omega

/-- The fields of the normal form are those of the instant. -/
theorem normal_fields (h : FitsTm c) : (normal c).year.toInt = c.year - 1900 ∧ (normal c).month.toInt = c.month - 1 ∧
      (normal c).monthDay.toInt = c.day ∧ (normal c).hours.toInt = c.hour ∧
      (normal c).minutes.toInt = c.minute ∧ (normal c).seconds.toInt = c.second ∧
      (normal c).yearDay.toInt = c.yearDay ∧
      (normal c).weekDay.toInt = (4 + (c.number - daysBeforeYear 1970)) % 7 := by
  have hsame := sameFields_ofCalendar zeroTm h
  exact ⟨hsame.year, hsame.month, hsame.monthDay, hsame.hours, hsame.minutes, hsame.seconds,
    hsame.yearDay.trans (toNat_of_nonneg c.yearDay_bounds.1),
    hsame.weekDay.trans (toNat_of_nonneg (emod_nonneg _ (by omega)))⟩

/-- The normal form counts the seconds of the instant. -/
theorem civilSeconds_normal (h : FitsTm c) : (normal c).civilSeconds = c.seconds := by
  obtain ⟨hyear, hmonth, hday, hhour, hminute, hsecond, _, _⟩ := normal_fields h
  have hm := c.month_pos
  have hm' := c.month_le
  have hyear' : 1900 + (c.year - 1900) + ((c.month : Int) - 1) / 12 = c.year := by omega
  have hmonth' : (((c.month : Int) - 1) % 12).toNat + 1 = c.month := by omega
  rw [civilSeconds, hyear, hmonth, hday, hhour, hminute, hsecond, hyear', hmonth']
  unfold Civil.seconds Date.number Date.yearDay
  omega

theorem normal_normalized (h : FitsTm c) : (normal c).Normalized := by
  have hcount := civilSeconds_normal h
  obtain ⟨hyear, hmonth, hday, hhour, hminute, hsecond, hyearDay, hweekDay⟩ := normal_fields h
  have hm := c.month_pos
  have hm' := c.month_le
  have hd := c.day_pos
  have hh := c.hour_lt
  have hmi := c.minute_lt
  have hs := c.second_lt
  have hyear' : 1900 + (c.year - 1900) = c.year := by omega
  have hmonth' : ((c.month : Int) - 1).toNat + 1 = c.month := by omega
  refine ⟨?_, ?_, ?_, ?_, ?_, ?_, ?_, ⟨rfl, rfl, rfl⟩⟩
  · omega
  · omega
  · omega
  · omega
  · rw [hday, hyear, hmonth, hyear', hmonth']
    exact ⟨by omega, c.day_le⟩
  · rw [hyearDay, hyear, hmonth, hday, hyear', hmonth']
    rfl
  · rw [hweekDay, hcount]
    unfold Civil.seconds
    omega

/-- A record in normal form is the normal form of an instant. -/
theorem Tm.Normalized.exists_civil {r : Tm} (h : r.Normalized) : ∃ c : Civil, FitsTm c ∧ r = Tm.normal c := by
  obtain ⟨hs, hs'⟩ := h.seconds
  obtain ⟨hmi, hmi'⟩ := h.minutes
  obtain ⟨hh, hh'⟩ := h.hours
  obtain ⟨hm, hm'⟩ := h.month
  obtain ⟨hd, hd'⟩ := h.monthDay
  obtain ⟨hy, hy'⟩ := inI32_toInt r.year
  obtain ⟨hdst, hoffset, hname⟩ := h.utc
  have hday : (r.monthDay.toInt.toNat : Int) = r.monthDay.toInt := toNat_of_nonneg (by omega)
  have hfit : i32Min ≤ 1900 + r.year.toInt - 1900 ∧ 1900 + r.year.toInt - 1900 ≤ i32Max := by
    rw [i32Min, i32Max]
    omega
  let c : Civil :=
    { year := 1900 + r.year.toInt
      month := r.month.toInt.toNat + 1
      day := r.monthDay.toInt.toNat
      month_pos := by omega
      month_le := by omega
      day_pos := by omega
      day_le := by rw [hday]; exact hd'
      hour := r.hours.toInt.toNat
      minute := r.minutes.toInt.toNat
      second := r.seconds.toInt.toNat
      hour_lt := by omega
      minute_lt := by omega
      second_lt := by omega }
  have hfits : FitsTm c := hfit
  obtain ⟨hyear, hmonth, hday', hhour, hminute, hsecond, hyearDay, hweekDay⟩ := normal_fields hfits
  have hnumber : c.seconds = r.civilSeconds := by
    rw [Tm.civilSeconds, show r.month.toInt / 12 = 0 by omega,
      show r.month.toInt % 12 = r.month.toInt by omega, add_zero]
    show 86400 * (daysBeforeYear (1900 + r.year.toInt) +
      (daysBeforeMonth (1900 + r.year.toInt) (r.month.toInt.toNat + 1) +
        (r.monthDay.toInt.toNat : Int) - 1) - daysBeforeYear 1970) +
      3600 * (r.hours.toInt.toNat : Int) + 60 * (r.minutes.toInt.toNat : Int) +
      (r.seconds.toInt.toNat : Int) = _
    omega
  refine ⟨c, hfits, Tm.ext ?_ ?_ ?_ ?_ ?_ ?_ ?_ ?_ hdst hoffset hname⟩
  all_goals apply toInt_inj.mp
  · rw [hsecond]
    show r.seconds.toInt = (r.seconds.toInt.toNat : Int)
    omega
  · rw [hminute]
    show r.minutes.toInt = (r.minutes.toInt.toNat : Int)
    omega
  · rw [hhour]
    show r.hours.toInt = (r.hours.toInt.toNat : Int)
    omega
  · rw [hday']
    exact hday.symm
  · rw [hmonth]
    show r.month.toInt = ((r.month.toInt.toNat + 1 : Nat) : Int) - 1
    omega
  · rw [hyear]
    show r.year.toInt = 1900 + r.year.toInt - 1900
    omega
  · rw [hweekDay, h.weekDay, ← hnumber]
    have hh := c.hour_lt
    have hmi := c.minute_lt
    have hs := c.second_lt
    unfold Civil.seconds
    omega
  · rw [hyearDay, h.yearDay, ← hday]
    rfl

/-- Normal forms with the same count are the same. -/
theorem Tm.Normalized.unique {r r' : Tm} (h : r.Normalized) (h' : r'.Normalized)
    (heq : r.civilSeconds = r'.civilSeconds) : r = r' := by
  obtain ⟨c, hfits, rfl⟩ := h.exists_civil
  obtain ⟨c', hfits', rfl⟩ := h'.exists_civil
  rw [civilSeconds_normal hfits, civilSeconds_normal hfits'] at heq
  rw [normal, normal, ofCivil_eq_of_seconds heq]

/-! ## `timegm` -/

theorem secsToUtcTm_yields : (FitsTm c → (secsToUtcTm c.seconds).Yields (some (normal c))) ∧
      (¬ FitsTm c → (secsToUtcTm c.seconds).Yields none) := by
  have hrun := secsToTm_yields c.seconds zeroTm
  rw [calendarFromUnixSeconds_civil] at hrun
  constructor
  · intro hfits
    rw [if_neg (fun h => by obtain ⟨hy, hy'⟩ := hfits; omega)] at hrun
    exact hrun.bind (yields_pure _)
  · intro hfits
    rw [if_pos (by unfold FitsTm at hfits; omega)] at hrun
    exact hrun.bind (yields_pure _)

/-- What a call of `timegm` owes on one record: its count is exact; with a year that does
    not fit it fails and leaves the record alone; otherwise it returns the count, and the
    record becomes the one normal form, which a second call returns unchanged. -/
structure TimegmLaw (value : Tm) : Prop where
  count : (tmToSecs value).Yields value.civilSeconds
  fails : ∀ c : Civil, c.seconds = value.civilSeconds → ¬ FitsTm c → (timegm value).Yields ⟨-1, value, some eoverflow⟩
  normalizes : ∀ c : Civil, c.seconds = value.civilSeconds → FitsTm c →
    ∃ r : Tm, r.Normalized ∧ r.civilSeconds = value.civilSeconds ∧ r.year.toInt = c.year - 1900 ∧
      (∀ r' : Tm, r'.Normalized → r'.civilSeconds = value.civilSeconds → r' = r) ∧
      (timegm value).Yields ⟨value.civilSeconds, r, none⟩ ∧
      (timegm r).Yields ⟨value.civilSeconds, r, none⟩
  decided : ∃ c : Civil, c.seconds = value.civilSeconds

/-- `secs_to_tm` and the native conversion both fail, or give the same fields and leave
    the other ones of the record alone. -/
def SameCalendar (seconds : Int) (output : Tm) : Prop :=
  match calendarFromUnixSeconds seconds with
  | .error _ => (secsToTm seconds output).Yields none
  | .ok c => ∃ r : Tm, (secsToTm seconds output).Yields (some r) ∧ SameFields r c ∧
      r.daylightSaving = output.daylightSaving ∧ r.utcOffset = output.utcOffset ∧
      r.utcName = output.utcName

theorem timegm_yields_normal {value : Tm} (hc : c.seconds = value.civilSeconds) (hfits : FitsTm c) :
    (timegm value).Yields ⟨value.civilSeconds, normal c, none⟩ := by
  refine tmToSecs_yields.bind ?_
  rw [← hc]
  exact (secsToUtcTm_yields.1 hfits).bind (yields_pure _)

theorem timegmLaw (value : Tm) : TimegmLaw value where
  count := tmToSecs_yields
  fails := by
    intro c hc hfits
    refine tmToSecs_yields.bind ?_
    rw [← hc]
    exact (secsToUtcTm_yields.2 hfits).bind (yields_pure _)
  normalizes := by
    intro c hc hfits
    have hcount := (civilSeconds_normal hfits).trans hc
    refine ⟨normal c, normal_normalized hfits, hcount, (normal_fields hfits).1, ?_,
      timegm_yields_normal hc hfits, ?_⟩
    · intro r' hr' hcount'
      exact hr'.unique (normal_normalized hfits) (hcount'.trans hcount.symm)
    · have hagain := timegm_yields_normal (civilSeconds_normal hfits).symm hfits
      rwa [hcount] at hagain
  decided := exists_civil _

theorem sameCalendar {seconds : Int} {output : Tm} : SameCalendar seconds output := by
  obtain ⟨c, rfl⟩ := exists_civil seconds
  have hrun := secsToTm_yields c.seconds output
  rw [SameCalendar]
  rw [calendarFromUnixSeconds_civil] at hrun ⊢
  by_cases hyear : c.year - 1900 < i32Min ∨ c.year - 1900 > i32Max
  · rw [if_pos hyear] at hrun ⊢
    exact hrun
  · rw [if_neg hyear] at hrun ⊢
    have hfits : FitsTm c := by
      unfold FitsTm
      omega
    exact ⟨_, hrun, sameFields_ofCalendar output hfits, rfl, rfl, rfl⟩

/-- **The UTC calendar of the C side.**  `tm_to_secs` is the Gregorian count of every
    record, without overflow; `timegm` fails exactly when the year of the count does not
    fit and otherwise normalizes; and `secs_to_tm` is the native conversion. -/
theorem timegm_gregorian : (∀ value : Tm, TimegmLaw value) ∧
      ∀ (seconds : Int64) (output : Tm), SameCalendar seconds.toInt output :=
  ⟨timegmLaw, fun _ _ => sameCalendar⟩

end Crabc.Libc
