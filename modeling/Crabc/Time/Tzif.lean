/-
  Crabc.Time.Tzif

  TZif files of `crabc-rs/src/timezone.rs`: `TimeZone::from_tzif` with
  `Header::parse`, `parse_block`, `validate_leap_records` and the trailing POSIX
  rule, and the lookup `TzifZone::offset_at` with its binary search.

  As in the POSIX rules, every slice, index, `unwrap` and `usize` operation of the
  source that could panic is a panic of the model.  The binary search takes its
  number of rounds from the length of the table; running out of rounds would be a
  panic too.
-/

import Crabc.Time.PosixTz

namespace Crabc.Time

open Crabc.Lib

/-! ## Reading -/

/-- A result of `usize` arithmetic. -/
def usize (n : Nat) : Checked TimeZoneError Nat := .inRange (n < 2 ^ 64) n

/-- The two's complement value of an unsigned number of `width` bytes. -/
def signed (width n : Nat) : Int :=
  if n < 2 ^ (8 * width - 1) then n else (n : Int) - 2 ^ (8 * width)

/-- `from_be_bytes` of the bytes from `offset` on, of an `i32` or an `i64`. -/
def fromBeBytes (width : Nat) (bytes : List UInt8) (offset : Nat) : Checked TimeZoneError Int := do
  let stop ← usize (offset + width)
  let word ← .slice bytes offset stop
  let word ← .inRange (word.length = width) word
  pure (signed width (word.foldl (fun value byte => value * 256 + byte.toNat) 0))

/-- A transition time: an `i64` in a wide block, else an `i32`. -/
def timeAt (wideTimes : Bool) (bytes : List UInt8) (offset : Nat) : Checked TimeZoneError Int :=
  if wideTimes then fromBeBytes 8 bytes offset else fromBeBytes 4 bytes offset

/-- `split_at`. -/
def splitAt (bytes : List UInt8) (length : Nat) :
    Checked TimeZoneError (List UInt8 × List UInt8) :=
  if bytes.length < length then .error .invalidTzif
  else .inRange (length ≤ bytes.length) (bytes.take length, bytes.drop length)

/-! ## The header -/

structure Header where
  version : UInt8
  ttisutcnt : Nat
  ttisstdcnt : Nat
  leapcnt : Nat
  timecnt : Nat
  typecnt : Nat
  charcnt : Nat
deriving DecidableEq, Repr

/-- One round of the loop over the six counts. -/
def Header.count (bytes : List UInt8) (index : Nat) : Checked TimeZoneError Nat := do
  let step ← usize (index * 4)
  let offset ← usize (20 + step)
  let value ← fromBeBytes 4 bytes offset
  if value < 0 then .error .invalidTzif else pure value.toNat

/-- `Header::parse`. -/
def Header.parse (bytes : List UInt8) : Checked TimeZoneError (Header × List UInt8) :=
  if bytes.length < 44 then .error .invalidTzif
  else do
    let magic ← .slice bytes 0 4
    if magic ≠ [84, 90, 105, 102] then .error .invalidTzif  -- `TZif`
    else
      let version ← .index bytes 4
      if version ≠ 0 ∧ version ≠ 50 ∧ version ≠ 51 then .error .invalidTzif
      else
        let reserved ← .slice bytes 5 20
        if reserved.any (· ≠ 0) then .error .invalidTzif
        else
          let ttisutcnt ← count bytes 0
          let ttisstdcnt ← count bytes 1
          let leapcnt ← count bytes 2
          let timecnt ← count bytes 3
          let typecnt ← count bytes 4
          let charcnt ← count bytes 5
          if typecnt = 0 ∨ typecnt > 256 ∨ charcnt = 0 ∨ (ttisutcnt ≠ 0 ∧ ttisutcnt ≠ typecnt) ∨
              (ttisstdcnt ≠ 0 ∧ ttisstdcnt ≠ typecnt) then .error .invalidTzif
          else
            let rest ← .slice bytes 44 bytes.length
            pure (⟨version, ttisutcnt, ttisstdcnt, leapcnt, timecnt, typecnt, charcnt⟩, rest)

/-! ## Blocks -/

structure TzifBlock where
  transitions : List Int
  transitionTypes : List UInt8
  types : List ZoneType
deriving DecidableEq, Repr

/-- `usize` arithmetic that reports overflow. -/
def checkedUsize (n : Nat) : Option Nat := if n < 2 ^ 64 then some n else none

/-- The bytes that the header says the block has. -/
def Header.required (header : Header) (timeSize : Nat) : Option Nat := do
  let value ← checkedUsize (header.timecnt * timeSize)
  let value ← checkedUsize (value + header.timecnt)
  let types ← checkedUsize (header.typecnt * 6)
  let value ← checkedUsize (value + types)
  let value ← checkedUsize (value + header.charcnt)
  let leaps ← checkedUsize (header.leapcnt * (timeSize + 4))
  let value ← checkedUsize (value + leaps)
  let value ← checkedUsize (value + header.ttisstdcnt)
  checkedUsize (value + header.ttisutcnt)

/-- The loop over the transition times, from the one at `index` on. -/
def readTransitions (wideTimes : Bool) (timeSize : Nat) (bytes : List UInt8) :
    Nat → Nat → Option Int → Checked TimeZoneError (List Int)
  | 0, _, _ => pure []
  | count + 1, index, previous => do
    let offset ← usize (index * timeSize)
    let value ← timeAt wideTimes bytes offset
    if previous.any (value ≤ ·) then .error .invalidTzif
    else
      let rest ← readTransitions wideTimes timeSize bytes count (index + 1) (some value)
      pure (value :: rest)

structure RawType where
  offset : UtcOffset
  isDaylightSaving : Bool
  abbreviationIndex : Nat

/-- The type record at `index`. -/
def readRawType (bytes : List UInt8) (index : Nat) : Checked TimeZoneError RawType := do
  let recordOffset ← usize (index * 6)
  let utcOffset ← fromBeBytes 4 bytes recordOffset
  let offset ← .okOr .invalidTzif (UtcOffset.fromSeconds utcOffset)
  let flagOffset ← usize (recordOffset + 4)
  let flag ← .index bytes flagOffset
  if flag ≠ 0 ∧ flag ≠ 1 then .error .invalidTzif
  else
    let nameOffset ← usize (recordOffset + 5)
    let name ← .index bytes nameOffset
    pure ⟨offset, flag == 1, name.toNat⟩

/-- A type record with its abbreviation, which ends at the first NUL. -/
def resolveType (abbreviations : List UInt8) (raw : RawType) : Checked TimeZoneError ZoneType :=
  if raw.abbreviationIndex ≥ abbreviations.length then .error .invalidTzif
  else do
    let suffix ← .slice abbreviations raw.abbreviationIndex abbreviations.length
    let abbreviationEnd ← .okOr .invalidTzif (suffix.findIdx? (· == 0))
    let abbreviation ← .slice suffix 0 abbreviationEnd
    pure ⟨raw.offset, raw.isDaylightSaving, abbreviation⟩

/-- The test of a leap record against the record before, if any. -/
def leapRecordInvalid (previous : Option (Int × Int)) (transition correction : Int) : Bool :=
  match previous with
  | some (priorTransition, priorCorrection) =>
    transition - priorTransition < 2419199 || (correction - priorCorrection).natAbs != 1
  | none => transition < 0 || correction != 1 && correction != -1

/-- The loop of `validate_leap_records`, from the record at `index` on; `previous`
    is the transition and the correction of the record before. -/
def validateLeapRecords (wideTimes : Bool) (timeSize : Nat) (bytes : List UInt8) :
    Nat → Nat → Option (Int × Int) → Checked TimeZoneError Unit
  | 0, _, _ => pure ()
  | count + 1, index, previous => do
    let offset ← usize (index * (timeSize + 4))
    let transition ← timeAt wideTimes bytes offset
    let correctionOffset ← usize (offset + timeSize)
    let correction ← fromBeBytes 4 bytes correctionOffset
    if leapRecordInvalid previous transition correction then .error .invalidTzif
    else
      let previous := some (transition, correction)
      validateLeapRecords wideTimes timeSize bytes count (index + 1) previous

/-- The parts of a block's bytes, and what follows the block. -/
structure BlockParts where
  transitionBytes : List UInt8
  transitionTypeBytes : List UInt8
  typeBytes : List UInt8
  abbreviations : List UInt8
  leapBytes : List UInt8
  standardIndicators : List UInt8
  utcIndicators : List UInt8
  rest : List UInt8

/-- The seven splits of `parse_block`. -/
def splitBlock (bytes : List UInt8) (header : Header) (timeSize : Nat) :
    Checked TimeZoneError BlockParts := do
  let (transitionBytes, bytes) ← splitAt bytes (← usize (header.timecnt * timeSize))
  let (transitionTypeBytes, bytes) ← splitAt bytes header.timecnt
  let (typeBytes, bytes) ← splitAt bytes (← usize (header.typecnt * 6))
  let (abbreviations, bytes) ← splitAt bytes header.charcnt
  let (leapBytes, bytes) ← splitAt bytes (← usize (header.leapcnt * (timeSize + 4)))
  let (standardIndicators, bytes) ← splitAt bytes header.ttisstdcnt
  let (utcIndicators, bytes) ← splitAt bytes header.ttisutcnt
  pure ⟨transitionBytes, transitionTypeBytes, typeBytes, abbreviations, leapBytes,
    standardIndicators, utcIndicators, bytes⟩

/-- Some type is given in UTC but not in standard time. -/
def indicatorsConflict (standardIndicators utcIndicators : List UInt8) : Bool :=
  utcIndicators.zipIdx.any fun (utc, index) => utc == 1 && standardIndicators[index]? != some 1

/-- `parse_block`. -/
def parseBlock (bytes : List UInt8) (header : Header) (wideTimes : Bool) :
    Checked TimeZoneError (TzifBlock × List UInt8) := do
  let timeSize := if wideTimes then 8 else 4
  let required ← .okOr .invalidTzif (header.required timeSize)
  if bytes.length < required then .error .invalidTzif
  else
    let parts ← splitBlock bytes header timeSize
    if (parts.standardIndicators ++ parts.utcIndicators).any (· > 1) then .error .invalidTzif
    else if indicatorsConflict parts.standardIndicators parts.utcIndicators then
      .error .invalidTzif
    else
      let transitions ←
        readTransitions wideTimes timeSize parts.transitionBytes header.timecnt 0 none
      if parts.transitionTypeBytes.any fun index => index.toNat ≥ header.typecnt then
        .error .invalidTzif
      else
        let rawTypes ← .traverse (readRawType parts.typeBytes) (List.range header.typecnt)
        let types ← .traverse (resolveType parts.abbreviations) rawTypes
        validateLeapRecords wideTimes timeSize parts.leapBytes header.leapcnt 0 none
        pure (⟨transitions, parts.transitionTypeBytes, types⟩, parts.rest)

/-- `parse_tzif_continuation`. -/
def parseTzifContinuation (bytes : List UInt8) : Checked TimeZoneError (Option PosixZone) :=
  if bytes.length < 2 then .error .invalidTzif
  else do
    let first ← .index bytes 0
    if first ≠ 10 then .error .invalidTzif
    else
      let lastIndex ← .inRange (1 ≤ bytes.length) (bytes.length - 1)
      let last ← .index bytes lastIndex
      if last ≠ 10 then .error .invalidTzif
      else
        let rule ← .slice bytes 1 lastIndex
        if rule.any (· == 10) then .error .invalidTzif
        else if rule.isEmpty then pure none
        else do
          let zone ← (parsePosixZone rule).mapError fun _ => .invalidTzif
          pure (some zone)

/-! ## Zones -/

structure TzifZone where
  transitions : List Int
  transitionTypes : List UInt8
  types : List ZoneType
  continuation : Option PosixZone
  preFirstType : Nat
deriving DecidableEq, Repr

/-- The check of `from_block`: a continuation agrees with the last type. -/
def continuationAgrees (block : TzifBlock) (continuation : Option PosixZone) :
    Checked TimeZoneError Bool :=
  match continuation, block.transitionTypes.getLast? with
  | some continuation, some lastTransitionType => do
    let explicit ← .index block.types lastTransitionType.toNat
    let last ← .expect block.transitions.getLast?
    let continued ← continuation.offsetAt last
    pure (continued.offset == explicit.offset &&
      continued.isDaylightSaving == explicit.isDaylightSaving &&
      continued.abbreviation == explicit.abbreviation)
  | _, _ => pure true

/-- `TzifZone::from_block`. -/
def TzifZone.fromBlock (block : TzifBlock) (continuation : Option PosixZone) :
    Checked TimeZoneError TzifZone := do
  let preFirstType := (block.types.findIdx? (!·.isDaylightSaving)).getD 0
  let agrees ← continuationAgrees block continuation
  if agrees then
    pure ⟨block.transitions, block.transitionTypes, block.types, continuation, preFirstType⟩
  else .error .invalidTzif

/-- The binary search of `last_transition_at_or_before`, in at most the given number of rounds. -/
def searchTransitions (transitions : List Int) (seconds : Int) :
    Nat → Nat → Nat → Checked TimeZoneError Nat
  | 0, _, _ => .panic
  | rounds + 1, low, high =>
    if low < high then do
      let middle := low + (high - low) / 2
      let value ← .index transitions middle
      if value ≤ seconds then searchTransitions transitions seconds rounds (middle + 1) high
      else searchTransitions transitions seconds rounds low middle
    else pure low

/-- `last_transition_at_or_before`. -/
def lastTransitionAtOrBefore (transitions : List Int) (seconds : Int) :
    Checked TimeZoneError (Option Nat) := do
  let low ← searchTransitions transitions seconds (transitions.length + 1) 0 transitions.length
  pure (if low = 0 then none else some (low - 1))

/-- The type of a transition, or the one before all of them. -/
def TzifZone.typeIndex (zone : TzifZone) : Option Nat → Checked TimeZoneError Nat
  | some index => do
    let type ← .index zone.transitionTypes index
    pure type.toNat
  | none => pure zone.preFirstType

/-- The part of `TzifZone::offset_at` behind the continuation. -/
def TzifZone.explicitOffsetAt (zone : TzifZone) (seconds : Int) :
    Checked TimeZoneError OffsetInfo := do
  let found ← lastTransitionAtOrBefore zone.transitions seconds
  let typeIndex ← zone.typeIndex found
  let typeInfo ← .index zone.types typeIndex
  pure ⟨typeInfo.offset, typeInfo.isDaylightSaving, typeInfo.abbreviation⟩

/-- `TzifZone::offset_at`. -/
def TzifZone.offsetAt (zone : TzifZone) (seconds : Int) : Checked TimeZoneError OffsetInfo :=
  match zone.transitions.getLast?, zone.continuation with
  | some last, some continuation =>
    if seconds > last then continuation.offsetAt seconds else zone.explicitOffsetAt seconds
  | none, some continuation => continuation.offsetAt seconds
  | _, none => zone.explicitOffsetAt seconds

/-- `timezone.rs::TimeZone`, by its source. -/
inductive TimeZone where
  | posix (zone : PosixZone)
  | tzif (zone : TzifZone)
deriving DecidableEq, Repr

/-- `TimeZone::from_posix_tz`. -/
def TimeZone.fromPosixTz (bytes : List UInt8) : Checked TimeZoneError TimeZone := do
  let zone ← parsePosixZone bytes
  pure (.posix zone)

/-- `TimeZone::from_tzif`. -/
def TimeZone.fromTzif (bytes : List UInt8) : Checked TimeZoneError TimeZone := do
  let (firstHeader, afterFirstHeader) ← Header.parse bytes
  let (firstBlock, afterFirstBlock) ← parseBlock afterFirstHeader firstHeader false
  if firstHeader.version = 0 then
    if ¬ afterFirstBlock.isEmpty then .error .invalidTzif
    else
      let zone ← TzifZone.fromBlock firstBlock none
      pure (.tzif zone)
  else if firstHeader.version = 50 ∨ firstHeader.version = 51 then
    let (secondHeader, afterSecondHeader) ← Header.parse afterFirstBlock
    if secondHeader.version ≠ firstHeader.version then .error .invalidTzif
    else
      let (secondBlock, trailing) ← parseBlock afterSecondHeader secondHeader true
      let continuation ← parseTzifContinuation trailing
      let zone ← TzifZone.fromBlock secondBlock continuation
      pure (.tzif zone)
  else .error .invalidTzif

/-- `TimeZone::offset_at`. -/
def TimeZone.offsetAt (zone : TimeZone) (seconds : Int) : Checked TimeZoneError OffsetInfo :=
  match zone with
  | posix zone => zone.offsetAt seconds
  | tzif zone => zone.offsetAt seconds

end Crabc.Time
