/-
  Crabc.Time.Civil

  Civil time of `crabc-rs/src/civil_time.rs`: `CalendarTime` and the conversions
  `calendar_from_unix_seconds`, `year_to_seconds`, `calendar_seconds` and
  `from_ymdhms`.

  The source computes in `i128`, whose range no intermediate value reaches; the
  model computes in `Int`.  Narrowing casts keep the low bits, and the checked
  conversion to `i64` is explicit.
-/

import Mathlib

namespace Crabc.Time

/-- The error codes of the conversions. -/
inductive Errno where
  | inval
  | range
deriving DecidableEq, Repr

/-- `civil_time.rs::CalendarTime`. -/
structure CalendarTime where
  year : Int
  month : Nat
  day : Nat
  hour : Nat
  minute : Nat
  second : Nat
  weekday : Nat
  yearday : Nat
deriving DecidableEq, Repr

/-- The derived ordering: the fields in the order they are declared. -/
instance : Ord CalendarTime where
  compare a b :=
    (compare a.year b.year).then <| (compare a.month b.month).then <|
    (compare a.day b.day).then <| (compare a.hour b.hour).then <|
    (compare a.minute b.minute).then <| (compare a.second b.second).then <|
    (compare a.weekday b.weekday).then <| compare a.yearday b.yearday

/-- The cast `as u8`. -/
def asU8 (n : Int) : Nat := (n % 0x100).toNat

/-- The cast `as u16`. -/
def asU16 (n : Int) : Nat := (n % 0x10000).toNat

def i32Min : Int := -0x80000000
def i32Max : Int := 0x7fffffff

/-- `i64::try_from(..).ok()`. -/
def i64TryFrom (n : Int) : Option Int := if -2 ^ 63 ≤ n ∧ n < 2 ^ 63 then some n else none

def leapochSeconds : Int := 946684800 + 86400 * (31 + 29)
def daysPer400Years : Int := 365 * 400 + 97
def daysPer100Years : Int := 365 * 100 + 24
def daysPer4Years : Int := 365 * 4 + 1

def marchBasedDays : List Int := [31, 30, 31, 30, 31, 31, 30, 31, 30, 31, 31, 29]

def monthDaysBefore : List Int := [0, 31, 59, 90, 120, 151, 181, 212, 243, 273, 304, 334]

/-- A truth value as the source's `if .. { 1 } else { 0 }`. -/
def bit (b : Bool) : Int := if b then 1 else 0

def isLeapYear (year : Int) : Bool := year % 4 == 0 && (year % 100 != 0 || year % 400 == 0)

def daysInMonth (year : Int) : Nat → Nat
  | 1 | 3 | 5 | 7 | 8 | 10 | 12 => 31
  | 4 | 6 | 9 | 11 => 30
  | 2 => if isLeapYear year then 29 else 28
  | _ => 0

/-- The century split of `year_to_seconds` for a nonzero remainder: the century and what is left of it. -/
def splitCentury (rem : Int) : Int × Int :=
  if rem ≥ 200 then
    if rem ≥ 300 then (3, rem - 300) else (2, rem - 200)
  else if rem ≥ 100 then (1, rem - 100)
  else (0, rem)

/-- `year_to_seconds`; the second component is what it stores in `is_leap`. -/
def yearToSeconds (year : Int) : Int × Bool :=
  if 2 ≤ year ∧ year ≤ 138 then
    -- `>> 2` and `& 3` on a signed word are the floor quotient and remainder
    let leap : Bool := (year - 68) % 4 == 0
    let leaps := (year - 68) / 4 - bit leap
    (31536000 * (year - 70) + 86400 * leaps, leap)
  else
    let offset := year - 100
    let cycles := offset / 400
    let rem := offset % 400
    let parts : Int × Int × Bool :=
      if rem = 0 then (0, 0, true)
      else
        let century := splitCentury rem
        if century.2 = 0 then (century.1, 0, false)
        else (century.1, century.2 / 4, century.2 % 4 == 0)
    let totalLeaps := parts.2.1 + 97 * cycles + 24 * parts.1 - bit parts.2.2
    ((year - 100) * 31536000 + totalLeaps * 86400 + 946684800 + 86400, parts.2.2)

/-- `calendar_seconds`. -/
def calendarSeconds (year : Int) (month day hour minute second : Nat) : Option Int :=
  if ¬ (1 ≤ month ∧ month ≤ 12) ∨ day = 0 ∨ day > daysInMonth year month ∨ hour ≥ 24 ∨
      minute ≥ 60 ∨ second ≥ 60 then none
  else
    let r := yearToSeconds (year - 1900)
    let leap := bit (r.2 && decide (month ≥ 3))
    let seconds := r.1 + (monthDaysBefore.getD (month - 1) 0 + leap) * 86400
    let seconds := seconds + ((day : Int) - 1) * 86400
    i64TryFrom (seconds + ((hour : Int) * 3600 + (minute : Int) * 60 + (second : Int)))

/-- The month loop of `calendar_from_unix_seconds`: the months passed and the days left. -/
def monthScan : List Int → Nat → Int → Nat × Int
  | [], index, remaining => (index, remaining)
  | days :: rest, index, remaining =>
    if days ≤ remaining then monthScan rest (index + 1) (remaining - days)
    else (index, remaining)

/-- A quotient the source lowers by one when it reaches `limit`. -/
def cappedDiv (n d limit : Int) : Int := if n / d = limit then n / d - 1 else n / d

/-- `calendar_from_unix_seconds`. -/
def calendarFromUnixSeconds (seconds : Int) : Except Errno CalendarTime :=
  if seconds < i32Min * 31622400 ∨ seconds > i32Max * 31622400 then .error .range
  else
    let relative := seconds - leapochSeconds
    let days := relative / 86400
    let remainder := relative % 86400
    let weekday := asU8 ((3 + days) % 7)
    let cycles400 := days / daysPer400Years
    let remaining := days % daysPer400Years
    let cycles100 := cappedDiv remaining daysPer100Years 4
    let remaining := remaining - cycles100 * daysPer100Years
    let cycles4 := cappedDiv remaining daysPer4Years 25
    let remaining := remaining - cycles4 * daysPer4Years
    let yearsInCycle := cappedDiv remaining 365 4
    let remaining := remaining - yearsInCycle * 365
    let leap : Bool := yearsInCycle == 0 && (cycles4 != 0 || cycles100 == 0)
    let yearday := remaining + 31 + 28 + bit leap
    let yearday := if yearday ≥ 365 + bit leap then yearday - (365 + bit leap) else yearday
    let years := yearsInCycle + 4 * cycles4 + 100 * cycles100 + 400 * cycles400
    let scan := monthScan marchBasedDays 0 remaining
    let year := years + 2000
    let month := (scan.1 : Int) + 2
    let year' := if month ≥ 12 then year + 1 else year
    let month' := if month ≥ 12 then month - 12 else month
    if year' - 1900 < i32Min ∨ year' - 1900 > i32Max then .error .range
    else
      .ok
        { year := year'
          month := asU8 month' + 1
          day := asU8 scan.2 + 1
          hour := asU8 (remainder / 3600)
          minute := asU8 (remainder / 60 % 60)
          second := asU8 (remainder % 60)
          weekday := weekday
          yearday := asU16 yearday }

/-- `CalendarTime::from_unix_seconds`. -/
def CalendarTime.fromUnixSeconds (seconds : Int) : Except Errno CalendarTime :=
  calendarFromUnixSeconds seconds

/-- `CalendarTime::unix_seconds`. -/
def CalendarTime.unixSeconds (c : CalendarTime) : Except Errno Int :=
  match calendarSeconds c.year c.month c.day c.hour c.minute c.second with
  | some seconds => .ok seconds
  | none => .error .range

/-- `CalendarTime::from_ymdhms`. -/
def CalendarTime.fromYmdhms (year : Int) (month day hour minute second : Nat) :
    Except Errno CalendarTime :=
  if ¬ (1 ≤ month ∧ month ≤ 12) ∨ ¬ (1 ≤ day ∧ day ≤ daysInMonth year month) ∨ hour ≥ 24 ∨
      minute ≥ 60 ∨ second ≥ 60 then .error .inval
  else
    match calendarSeconds year month day hour minute second with
    | none => .error .range
    | some seconds =>
      match CalendarTime.fromUnixSeconds seconds with
      | .error e => .error e
      | .ok value =>
        if value.year ≠ year ∨ value.month ≠ month ∨ value.day ≠ day ∨ value.hour ≠ hour ∨
            value.minute ≠ minute ∨ value.second ≠ second then .error .range
        else .ok value

end Crabc.Time
