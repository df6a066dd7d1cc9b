/-
  Crabc.Time.PosixTz

  POSIX TZ rules of `crabc-rs/src/timezone.rs`: the parser `parse_posix_zone`
  and the lookup `PosixZone::offset_at`.

  Every operation of the source that could panic is a panic of the model: a
  slice, an `expect`, and arithmetic on `usize`, `u32` and `i32`.  The `i128`
  calendar arithmetic, and the `i64` year of an instant, stay far inside their
  ranges and are computed in `Int`.  A loop over the bytes at the parser's offset
  recurses on those bytes.
-/

import Crabc.Lib.Checked
import Crabc.Time.Civil

namespace Crabc.Time

open Crabc.Lib

/-! ## Data -/

/-- `timezone.rs::TimeZoneError`. -/
inductive TimeZoneError where
  | invalidPosixTz
  | invalidTzif
deriving DecidableEq, Repr

def maxOffsetSeconds : Int := 24 * 60 * 60

/-- `UtcOffset`: at most 24 hours in either direction. -/
structure UtcOffset where
  secondsEastOfUtc : Int
  ge : -maxOffsetSeconds ≤ secondsEastOfUtc
  le : secondsEastOfUtc ≤ maxOffsetSeconds
deriving DecidableEq, Repr

/-- `UtcOffset::from_seconds`. -/
def UtcOffset.fromSeconds (secondsEastOfUtc : Int) : Option UtcOffset :=
  if h : secondsEastOfUtc ≥ -maxOffsetSeconds ∧ secondsEastOfUtc ≤ maxOffsetSeconds then
    some ⟨secondsEastOfUtc, h.1, h.2⟩
  else none

structure OffsetInfo where
  offset : UtcOffset
  isDaylightSaving : Bool
  abbreviation : List UInt8
deriving DecidableEq, Repr

structure ZoneType where
  offset : UtcOffset
  isDaylightSaving : Bool
  abbreviation : List UInt8
deriving DecidableEq, Repr

inductive TimeBasis where
  | wall
  | standard
  | utc
deriving DecidableEq, Repr

structure TransitionTime where
  seconds : Int
  basis : TimeBasis
deriving DecidableEq, Repr

inductive TransitionRule where
  | julianNoLeap (day : Nat) (time : TransitionTime)
  | dayOfYear (day : Nat) (time : TransitionTime)
  | monthWeekDay (month week weekday : Nat) (time : TransitionTime)
deriving DecidableEq, Repr

structure PosixZone where
  standard : ZoneType
  daylight : Option ZoneType
  start : Option TransitionRule
  «end» : Option TransitionRule
deriving DecidableEq, Repr

/-! ## The calendar of the rules -/

/-- `days_from_civil`: the days since 1 January 1970. -/
def daysFromCivil (year : Int) (month day : Nat) : Int :=
  let year := year - if month ≤ 2 then 1 else 0
  let era := year / 400
  let yearOfEra := year - era * 400
  let dayOfYear := (153 * ((month : Int) + if month > 2 then -3 else 9) + 2) / 5 + day - 1
  let dayOfEra := yearOfEra * 365 + yearOfEra / 4 - yearOfEra / 100 + dayOfYear
  era * 146097 + dayOfEra - 719468

/-- `year_from_unix_seconds`. -/
def yearFromUnixSeconds (seconds : Int) : Int :=
  let days := seconds / 86400
  let shifted := days + 719468
  let era := shifted / 146097
  let dayOfEra := shifted - era * 146097
  let yearOfEra := (dayOfEra - dayOfEra / 1460 + dayOfEra / 36524 - dayOfEra / 146096) / 365
  let dayOfYear := dayOfEra - (365 * yearOfEra + yearOfEra / 4 - yearOfEra / 100)
  let monthPiece := (5 * dayOfYear + 2) / 153
  yearOfEra + era * 400 + if monthPiece ≥ 10 then 1 else 0

/-- `weekday_from_days`. -/
def weekdayFromDays (days : Int) : Int := (days + 4) % 7

/-! ## Transitions -/

/-- `TransitionRule::time`. -/
def TransitionRule.time : TransitionRule → TransitionTime
  | julianNoLeap _ time | dayOfYear _ time | monthWeekDay _ _ _ time => time

/-- `TransitionRule::day_start_seconds`. -/
def TransitionRule.dayStartSeconds (rule : TransitionRule) (year : Int) : Int :=
  match rule with
  | julianNoLeap day _ =>
    let day := (day : Int) - 1
    let leapDay := if isLeapYear year ∧ day ≥ 59 then 1 else 0
    (daysFromCivil year 1 1 + day + leapDay) * 86400
  | dayOfYear day _ => (daysFromCivil year 1 1 + day) * 86400
  | monthWeekDay month week weekday _ =>
    let firstDay := daysFromCivil year month 1
    let firstWeekday := weekdayFromDays firstDay
    let day := 1 + ((weekday : Int) - firstWeekday) % 7 + ((week : Int) - 1) * 7
    let day := if day > daysInMonth year month then day - 7 else day
    daysFromCivil year month (asU8 day) * 86400

/-- `transition_seconds`. -/
def transitionSeconds (year : Int) (rule : TransitionRule) (standardOffset wallOffset : UtcOffset) :
    Int :=
  let atLocal := rule.dayStartSeconds year + rule.time.seconds
  match rule.time.basis with
  | .wall => atLocal - wallOffset.secondsEastOfUtc
  | .standard => atLocal - standardOffset.secondsEastOfUtc
  | .utc => atLocal

/-! ## The lookup -/

/-- `PosixZone::info_for`. -/
def PosixZone.infoFor (typeInfo : ZoneType) : OffsetInfo :=
  ⟨typeInfo.offset, typeInfo.isDaylightSaving, typeInfo.abbreviation⟩

/-- `PosixZone::offset_at`. -/
def PosixZone.offsetAt (zone : PosixZone) (seconds : Int) : Checked TimeZoneError OffsetInfo :=
  match zone.daylight with
  | none => pure (infoFor zone.standard)
  | some daylight => do
    let start ← Checked.expect zone.start
    let «end» ← Checked.expect zone.end
    let year := yearFromUnixSeconds seconds
    let startAt := transitionSeconds year start zone.standard.offset zone.standard.offset
    let endAt := transitionSeconds year «end» zone.standard.offset daylight.offset
    let inDaylight : Bool :=
      if startAt < endAt then seconds ≥ startAt && seconds < endAt
      else seconds ≥ startAt || seconds < endAt
    if inDaylight then pure (infoFor daylight) else pure (infoFor zone.standard)

/-! ## The parser -/

/-- A byte slice, which is no longer than `isize::MAX`. -/
structure ByteSlice where
  bytes : List UInt8
  length_lt : bytes.length < 2 ^ 63

structure PosixParser where
  bytes : List UInt8
  offset : Nat
deriving DecidableEq, Repr

namespace PosixParser

/-- The bytes from the offset on. -/
def rest (self : PosixParser) : List UInt8 := self.bytes.drop self.offset

def isFinished (self : PosixParser) : Bool := self.offset == self.bytes.length

def peek (self : PosixParser) : Option UInt8 := self.bytes[self.offset]?

/-- `self.offset += 1` on a `usize`. -/
def advance (self : PosixParser) : Checked TimeZoneError PosixParser :=
  .inRange (self.offset + 1 < 2 ^ 64) { self with offset := self.offset + 1 }

def next (self : PosixParser) : Checked TimeZoneError (Option UInt8 × PosixParser) :=
  match self.peek with
  | none => pure (none, self)
  | some value => do
    let self ← self.advance
    pure (some value, self)

def expect (byte : UInt8) (self : PosixParser) : Checked TimeZoneError (Unit × PosixParser) := do
  let (value, self) ← self.next
  if value = some byte then pure ((), self) else .error .invalidPosixTz

/-- The loop of `parse_name` inside angle brackets, over the bytes at the offset. -/
def angleName (start : Nat) :
    List UInt8 → PosixParser → Checked TimeZoneError (List UInt8 × PosixParser)
  | [], _ => .error .invalidPosixTz
  | byte :: rest, self => do
    let self ← self.advance
    if byte = 62 then  -- `>`
      let last ← .inRange (1 ≤ self.offset) (self.offset - 1)
      if last = start then .error .invalidPosixTz
      else
        let name ← .slice self.bytes start last
        pure (name, self)
    else if byte = 0 ∨ byte = 10 then .error .invalidPosixTz
    else angleName start rest self

def isAlphabetic (byte : UInt8) : Bool :=
  65 ≤ byte && byte ≤ 90 || 97 ≤ byte && byte ≤ 122

/-- The letters at the offset. -/
def letters : List UInt8 → PosixParser → Checked TimeZoneError PosixParser
  | [], self => pure self
  | byte :: rest, self =>
    if isAlphabetic byte then do
      let self ← self.advance
      letters rest self
    else pure self

def parseName (self : PosixParser) : Checked TimeZoneError (List UInt8 × PosixParser) := do
  let (first, self) ← self.next
  if first = some 60 then  -- `<`
    angleName self.offset self.rest self
  else
    let self := { self with offset := self.offset - 1 }
    let start := self.offset
    let self ← letters self.rest self
    let length ← .inRange (start ≤ self.offset) (self.offset - start)
    if length < 3 then .error .invalidPosixTz
    else
      let name ← .slice self.bytes start self.offset
      pure (name, self)

/-- `u32` arithmetic that reports overflow. -/
def checkedU32 (value : Nat) : Option Nat := if value < 2 ^ 32 then some value else none

def isDigit (byte : UInt8) : Bool := 48 ≤ byte && byte ≤ 57

/-- The digits at the offset. -/
def digits : List UInt8 → Nat → PosixParser → Checked TimeZoneError (Nat × PosixParser)
  | [], value, self => pure (value, self)
  | byte :: rest, value, self =>
    if isDigit byte then do
      let self ← self.advance
      let value ← .okOr .invalidPosixTz
        ((checkedU32 (value * 10)).bind fun current => checkedU32 (current + (byte - 48).toNat))
      digits rest value self
    else pure (value, self)

def parseDecimal (self : PosixParser) : Checked TimeZoneError (Nat × PosixParser) := do
  let start := self.offset
  let (value, self) ← digits self.rest 0 self
  if self.offset = start then .error .invalidPosixTz else pure (value, self)

/-- A `:` and a number of at most 59, or else zero: the minutes and the seconds of `parse_signed_hms`. -/
def parseSixtieths (self : PosixParser) : Checked TimeZoneError (Nat × PosixParser) :=
  if self.peek = some 58 then do
    let self ← self.advance
    let (value, self) ← self.parseDecimal
    if value > 59 then .error .invalidPosixTz else pure (value, self)
  else pure (0, self)

/-- `i32` arithmetic that reports overflow. -/
def checkedI32 (value : Int) : Option Int :=
  if -2 ^ 31 ≤ value ∧ value < 2 ^ 31 then some value else none

/-- The sign of `parse_signed_hms`. -/
def parseSign (self : PosixParser) : Checked TimeZoneError (Int × PosixParser) :=
  match self.peek with
  | some 43 => do  -- `+`
    let self ← self.advance
    pure (1, self)
  | some 45 => do  -- `-`
    let self ← self.advance
    pure (-1, self)
  | _ => pure (1, self)

def parseSignedHms (maxHours : Int) (self : PosixParser) :
    Checked TimeZoneError (Int × PosixParser) := do
  let (sign, self) ← self.parseSign
  let (hours, self) ← self.parseDecimal
  if (hours : Int) > maxHours then .error .invalidPosixTz
  else
    let (minutes, self) ← self.parseSixtieths
    let (seconds, self) ← self.parseSixtieths
    let minuteSeconds ← .inRange (minutes * 60 < 2 ^ 32) (minutes * 60)
    let magnitude ← .okOr .invalidPosixTz
      (((checkedU32 (hours * 3600)).bind fun value => checkedU32 (value + minuteSeconds)).bind
        fun value => checkedU32 (value + seconds))
    let magnitude ← .okOr .invalidPosixTz (checkedI32 magnitude)
    let value ← .okOr .invalidPosixTz (checkedI32 (magnitude * sign))
    pure (value, self)

def parsePosixOffset (self : PosixParser) : Checked TimeZoneError (Int × PosixParser) := do
  let (offset, self) ← self.parseSignedHms 24
  if ¬ (-maxOffsetSeconds ≤ offset ∧ offset ≤ maxOffsetSeconds) then .error .invalidPosixTz
  else pure (offset, self)

def parseTransitionTime (self : PosixParser) :
    Checked TimeZoneError (TransitionTime × PosixParser) := do
  let (seconds, self) ← self.parseSignedHms 167
  match self.peek with
  | some 119 => do  -- `w`
    let self ← self.advance
    pure (⟨seconds, .wall⟩, self)
  | some 115 => do  -- `s`
    let self ← self.advance
    pure (⟨seconds, .standard⟩, self)
  | some 117 | some 103 | some 122 => do  -- `u`, `g`, `z`
    let self ← self.advance
    pure (⟨seconds, .utc⟩, self)
  | _ => pure (⟨seconds, .wall⟩, self)

def parseRuleTime (self : PosixParser) : Checked TimeZoneError (TransitionTime × PosixParser) :=
  if self.peek = some 47 then do  -- `/`
    let self ← self.advance
    self.parseTransitionTime
  else pure (⟨7200, .wall⟩, self)

def parseRule (self : PosixParser) : Checked TimeZoneError (TransitionRule × PosixParser) := do
  let (first, self) ← self.next
  match first with
  | some byte =>
    if byte = 74 then  -- `J`
      let (day, self) ← self.parseDecimal
      if ¬ (1 ≤ day ∧ day ≤ 365) then .error .invalidPosixTz
      else
        let (time, self) ← self.parseRuleTime
        pure (.julianNoLeap (day % 2 ^ 16) time, self)
    else if byte = 77 then  -- `M`
      let (month, self) ← self.parseDecimal
      let ((), self) ← self.expect 46
      let (week, self) ← self.parseDecimal
      let ((), self) ← self.expect 46
      let (weekday, self) ← self.parseDecimal
      if ¬ (1 ≤ month ∧ month ≤ 12) ∨ ¬ (1 ≤ week ∧ week ≤ 5) ∨ weekday > 6 then
        .error .invalidPosixTz
      else
        let (time, self) ← self.parseRuleTime
        pure (.monthWeekDay (month % 2 ^ 8) (week % 2 ^ 8) (weekday % 2 ^ 8) time, self)
    else if isDigit byte then
      let offset ← .inRange (1 ≤ self.offset) (self.offset - 1)
      let self := { self with offset := offset }
      let (day, self) ← self.parseDecimal
      if day > 365 then .error .invalidPosixTz
      else
        let (time, self) ← self.parseRuleTime
        pure (.dayOfYear (day % 2 ^ 16) time, self)
    else .error .invalidPosixTz
  | none => .error .invalidPosixTz

end PosixParser

/-- Unary minus on an `i32`. -/
def negateI32 (value : Int) : Checked TimeZoneError Int := .inRange (value ≠ -2 ^ 31) (-value)

/-- The offset behind the daylight name of `parse_posix_zone`. -/
def parseDaylightOffset (standard : ZoneType) (parser : PosixParser) :
    Checked TimeZoneError (UtcOffset × PosixParser) :=
  if parser.peek = some 44 then do  -- `,`
    let offset ← .okOr .invalidPosixTz
      ((PosixParser.checkedI32 (standard.offset.secondsEastOfUtc + 3600)).bind
        UtcOffset.fromSeconds)
    pure (offset, parser)
  else do
    let (parsed, parser) ← parser.parsePosixOffset
    let negated ← negateI32 parsed
    let offset ← .okOr .invalidPosixTz (UtcOffset.fromSeconds negated)
    pure (offset, parser)

/-- `parse_posix_zone`. -/
def parsePosixZone (bytes : List UInt8) : Checked TimeZoneError PosixZone := do
  let parser : PosixParser := ⟨bytes, 0⟩
  let (standardName, parser) ← parser.parseName
  let (standardOffset, parser) ← parser.parsePosixOffset
  let negated ← negateI32 standardOffset
  let offset ← .okOr .invalidPosixTz (UtcOffset.fromSeconds negated)
  let standard : ZoneType := ⟨offset, false, standardName⟩
  if parser.isFinished then pure ⟨standard, none, none, none⟩
  else
    let (daylightName, parser) ← parser.parseName
    let (daylightOffset, parser) ← parseDaylightOffset standard parser
    let daylight : ZoneType := ⟨daylightOffset, true, daylightName⟩
    let ((), parser) ← parser.expect 44
    let (start, parser) ← parser.parseRule
    let ((), parser) ← parser.expect 44
    let («end», parser) ← parser.parseRule
    if ¬ parser.isFinished then .error .invalidPosixTz
    else pure ⟨standard, some daylight, some start, some «end»⟩

end Crabc.Time
