/-
  Crabc.Libc.Timegm

  The UTC calendar of the C side: `year_to_secs`, `month_to_secs`, `tm_to_secs`,
  `secs_to_tm` and `timegm` of `timegm.rs`.  The arithmetic is that of the machine
  words of the source, each operation with its width.
-/

import Crabc.Lib.Wrapping
import Crabc.Time.Civil

namespace Crabc.Libc

open Crabc.Lib
open Crabc.Lib.Wrapping (i32 i64)
open Crabc.Time (bit cappedDiv monthDaysBefore marchBasedDays)

open Int32 (ofInt)

/-- `struct tm`; the name is the string that `utc_name` points to, if it is not null. -/
@[ext]
structure Tm where
  seconds : Int32
  minutes : Int32
  hours : Int32
  monthDay : Int32
  month : Int32
  year : Int32
  weekDay : Int32
  yearDay : Int32
  daylightSaving : Int32
  utcOffset : Int64
  utcName : Option (List UInt8)
deriving DecidableEq

def eoverflow : Nat := 75
def leapoch : Int := 946684800 + 86400 * (31 + 29)
def daysPer400y : Int := 365 * 400 + 97
def daysPer100y : Int := 365 * 100 + 24
def daysPer4y : Int := 365 * 4 + 1
def secondsPerDay : Int := 86400

/-- `UTC`. -/
def utcText : List UInt8 := [0x55, 0x54, 0x43]

/-- `SECS_THROUGH_MONTH`. -/
def secsThroughMonth : List Int := monthDaysBefore.map (· * secondsPerDay)

/-- `DAYS_IN_MONTH`, from March on. -/
def daysInMonth : List Int := [31, 30, 31, 30, 31, 31, 30, 31, 30, 31, 31, 29]

/-- The source's floored division: a truncated one whose negative remainder is put
    right.  `word` is the width of the quotient, the remainder is an `i32`. -/
def floorDivMod (word : Int → Wrapping Int) (n d : Int) : Wrapping (Int × Int) := do
  let quotient ← word (n.tdiv d)
  let remainder ← i32 (n.tmod d)
  if remainder < 0 then
    let quotient ← word (quotient - 1)
    let remainder ← i32 (remainder + d)
    pure (quotient, remainder)
  else pure (quotient, remainder)

/-- The centuries of a nonzero remainder, and the years left of the last one. -/
def centuries (remainder : Int) : Wrapping (Int × Int) :=
  if remainder ≥ 200 then
    if remainder ≥ 300 then do
      let rest ← i32 (remainder - 300)
      pure (3, rest)
    else do
      let rest ← i32 (remainder - 200)
      pure (2, rest)
  else if remainder ≥ 100 then do
    let rest ← i32 (remainder - 100)
    pure (1, rest)
  else pure (0, remainder)

/-- Centuries, leap days and the leap flag of the year at `remainder` in a cycle. -/
def leapParts (remainder : Int) : Wrapping (Int × Int × Bool) :=
  if remainder = 0 then pure (0, 0, true)
  else do
    let (century, rest) ← centuries remainder
    if rest = 0 then pure (century, 0, false)
    else pure (century, rest.tdiv 4, rest.tmod 4 == 0)

/-- `year_to_secs`, with what it stores in `is_leap`. -/
def yearToSecs (year : Int) : Wrapping (Int × Bool) :=
  -- `(year as u64).wrapping_sub(2) <= 136`
  if (year - 2) % 18446744073709551616 ≤ 136 then do
    let year ← i32 year
    let distance ← i32 (year - 68)
    -- `>> 2` and `& 3` on a signed word are the floor quotient and remainder
    let leap : Bool := distance % 4 == 0
    let leaps ← i32 (distance / 4 - bit leap)
    let years ← i32 (year - 70)
    let seconds ← i64 (years * 31536000)
    let leapSeconds ← i64 (leaps * secondsPerDay)
    let total ← i64 (seconds + leapSeconds)
    pure (total, leap)
  else do
    let distance ← i64 (year - 100)
    let (cycles, remainder) ← floorDivMod i32 distance 400
    let (century, leaps, leap) ← leapParts remainder
    let cycleLeaps ← i64 (cycles * 97)
    let total ← i64 (leaps + cycleLeaps)
    let centuryLeaps ← i64 (century * 24)
    let total ← i64 (total + centuryLeaps)
    let total ← i64 (total - bit leap)
    let seconds ← i64 (distance * 31536000)
    let leapSeconds ← i64 (total * secondsPerDay)
    let seconds ← i64 (seconds + leapSeconds)
    let seconds ← i64 (seconds + 946684800)
    let seconds ← i64 (seconds + secondsPerDay)
    pure (seconds, leap)

/-- `month_to_secs`. -/
def monthToSecs (month : Int) (leap : Bool) : Wrapping Int :=
  let seconds := secsThroughMonth.getD month.toNat 0
  if leap ∧ month ≥ 2 then i64 (seconds + secondsPerDay) else pure seconds

/-- The month carry of `tm_to_secs`. -/
def carryMonth (year month : Int) : Wrapping (Int × Int) :=
  if 0 ≤ month ∧ month < 12 then pure (year, month)
  else do
    let (adjustment, month) ← floorDivMod i32 month 12
    let year ← i64 (year + adjustment)
    pure (year, month)

/-- `tm_to_secs`. -/
def tmToSecs (value : Tm) : Wrapping Int := do
  let (year, month) ← carryMonth value.year.toInt value.month.toInt
  let (seconds, leap) ← yearToSecs year
  let monthSeconds ← monthToSecs month leap
  let seconds ← i64 (seconds + monthSeconds)
  let days ← i64 (value.monthDay.toInt - 1)
  let daySeconds ← i64 (days * secondsPerDay)
  let seconds ← i64 (seconds + daySeconds)
  let hourSeconds ← i64 (value.hours.toInt * 3600)
  let seconds ← i64 (seconds + hourSeconds)
  let minuteSeconds ← i64 (value.minutes.toInt * 60)
  let seconds ← i64 (seconds + minuteSeconds)
  i64 (seconds + value.seconds.toInt)

/-- A quotient that the source lowers by one when it reaches `limit`, and what is left. -/
def cappedDivMod (n d limit : Int) : Wrapping (Int × Int) := do
  let quotient := n.tdiv d
  let quotient ← i32 (if quotient = limit then quotient - 1 else quotient)
  let product ← i32 (quotient * d)
  let rest ← i32 (n - product)
  pure (quotient, rest)

/-- The month loop of `secs_to_tm`: the months passed and the days left. -/
def monthLoop : List Int → Int → Int → Wrapping (Int × Int)
  | [], months, remaining => pure (months, remaining)
  | days :: rest, months, remaining =>
    if days ≤ remaining then do
      let remaining ← i32 (remaining - days)
      let months ← i32 (months + 1)
      monthLoop rest months remaining
    else pure (months, remaining)

/-- `year_day` of `secs_to_tm`. -/
def yearDayOf (remaining : Int) (leap : Bool) : Wrapping Int := do
  let yearDay ← i32 (remaining + 31 + 28 + bit leap)
  if yearDay ≥ 365 + bit leap then i32 (yearDay - (365 + bit leap)) else pure yearDay

/-- The end of `secs_to_tm`: months after December belong to the next year. -/
def carryYear (years months : Int) : Wrapping (Int × Int) :=
  if months ≥ 10 then do
    let months ← i32 (months - 12)
    let years ← i64 (years + 1)
    pure (years, months)
  else pure (years, months)

/-- `secs_to_tm`, from the day and the second of the day on: the record is `output` with
    the calendar fields of the instant, and `none` is `false`. -/
def fieldsOf (days secondOfDay : Int) (output : Tm) : Wrapping (Option Tm) := do
  let sum ← i64 (3 + days)
  let weekDay ← i32 (sum.tmod 7)
  let weekDay ← i32 (if weekDay < 0 then weekDay + 7 else weekDay)
  let (cycles400, remaining) ← floorDivMod i32 days daysPer400y
  let (cycles100, remaining) ← cappedDivMod remaining daysPer100y 4
  let (cycles4, remaining) ← cappedDivMod remaining daysPer4y 25
  let (remainingYears, remaining) ← cappedDivMod remaining 365 4
  let leap : Bool := remainingYears == 0 && (cycles4 != 0 || cycles100 == 0)
  let yearDay ← yearDayOf remaining leap
  let years4 ← i64 (cycles4 * 4)
  let years ← i64 (remainingYears + years4)
  let years100 ← i64 (cycles100 * 100)
  let years ← i64 (years + years100)
  let years400 ← i64 (cycles400 * 400)
  let years ← i64 (years + years400)
  let (months, remaining) ← monthLoop daysInMonth 0 remaining
  let (years, months) ← carryYear years months
  let tmYear ← i64 (years + 100)
  if tmYear > 2147483647 ∨ tmYear < -2147483648 then pure none
  else do
    let month ← i32 (months + 2)
    let monthDay ← i32 (remaining + 1)
    pure (some
      { output with
        year := ofInt tmYear
        month := ofInt month
        monthDay := ofInt monthDay
        weekDay := ofInt weekDay
        yearDay := ofInt yearDay
        hours := ofInt (secondOfDay.tdiv 3600)
        minutes := ofInt ((secondOfDay.tdiv 60).tmod 60)
        seconds := ofInt (secondOfDay.tmod 60) })

/-- `secs_to_tm`. -/
def secsToTm (seconds : Int) (output : Tm) : Wrapping (Option Tm) :=
  if seconds < -2147483648 * 31622400 ∨ seconds > 2147483647 * 31622400 then pure none
  else do
    let elapsed ← i64 (seconds - leapoch)
    let (days, secondOfDay) ← floorDivMod i64 elapsed secondsPerDay
    fieldsOf days secondOfDay output

/-- The record that `secs_to_utc_tm` starts from. -/
def zeroTm : Tm := ⟨0, 0, 0, 0, 0, 0, 0, 0, 0, 0, none⟩

/-- `secs_to_utc_tm`. -/
def secsToUtcTm (seconds : Int) : Wrapping (Option Tm) := do
  match ← secsToTm seconds zeroTm with
  | none => pure none
  | some output =>
    pure (some { output with daylightSaving := 0, utcOffset := 0, utcName := some utcText })

/-- What a call of `timegm` or `mktime` leaves: the value returned, the caller's record
    and `errno`, if it was set. -/
structure TimeCall where
  returned : Int
  record : Tm
  errno : Option Nat
deriving DecidableEq

/-- `timegm`. -/
def timegm (value : Tm) : Wrapping TimeCall := do
  let seconds ← tmToSecs value
  match ← secsToUtcTm seconds with
  | none => pure ⟨-1, value, some eoverflow⟩
  | some normalized => pure ⟨seconds, normalized, none⟩

end Crabc.Libc
