/-
  Crabc.Libc.Timezone

  The process time zone of the C side, `owned_timezone.rs`: the reader of POSIX rules,
  `parse_mapping` for TZif files, `configure` with its cache of the last `TZ`, and the
  lookup `zone` with `scan_transitions` and `rule_seconds`.

  A cursor is the list of the bytes left of it.  Strings stand without their NUL, a
  mapped file is its bytes.  `wrapping_*` operations, casts and the plain arithmetic of
  the build, which does not check overflow, are `wrap32` and `wrap64`.
-/

import Crabc.Libc.Timegm
import Crabc.Time.Tzif

namespace Crabc.Libc.Timezone

open Crabc.Lib
open Crabc.Lib.Wrapping (i32 i64)
open Crabc.Time (bit checkedUsize signed)

def wrap32 (n : Int) : Int := (i32 n).value

def wrap64 (n : Int) : Int := (i64 n).value

/-! ## POSIX rules -/

/-- `TzCursor::get`. -/
def get (p : List UInt8) (index : Nat) : UInt8 := p.getD index 0

/-- `TzCursor::next`. -/
def next (p : List UInt8) : List UInt8 := p.tail

/-- The digit test of the source. -/
def isDigit (byte : UInt8) : Bool := byte - 48 < 10

/-- The loop of `integer`, on a `u32`. -/
def integerLoop : Nat → List UInt8 → Nat × List UInt8
  | value, [] => (value, [])
  | value, byte :: rest =>
    if isDigit byte then integerLoop ((value * 10 + (byte - 48).toNat) % 4294967296) rest
    else (value, byte :: rest)

/-- `integer`. -/
def integer (p : List UInt8) : Int × List UInt8 :=
  let (value, p) := integerLoop 0 p
  (wrap32 value, p)

/-- The minutes and seconds of `offset`. -/
def offsetMinutes (value : Int) (p : List UInt8) : Int × List UInt8 :=
  if get p 0 = 58 then  -- `:`
    let (minutes, p) := integer (next p)
    let value := wrap32 (value + wrap32 (minutes * 60))
    if get p 0 = 58 then
      let (seconds, p) := integer (next p)
      (wrap32 (value + seconds), p)
    else (value, p)
  else (value, p)

/-- `offset`. -/
def offset (p : List UInt8) : Int × List UInt8 :=
  let negative : Bool := get p 0 == 45  -- `-`
  let p := if negative || get p 0 == 43 then next p else p  -- `+`
  let (hours, p) := integer p
  let (value, p) := offsetMinutes (wrap32 (hours * 3600)) p
  (if negative then wrap32 (-value) else value, p)

/-- The loop condition of `name`. -/
def nameByte (quoted : Bool) (byte : UInt8) : Bool :=
  if quoted then byte != 0 && byte != 62 else (byte ||| 32) - 97 < 26

/-- `name`: the string that is stored, and the cursor behind the name. -/
def name (p : List UInt8) : List UInt8 × List UInt8 :=
  let quoted : Bool := get p 0 == 60  -- `<`
  let p := if quoted then next p else p
  let run := p.takeWhile (nameByte quoted)
  let p := p.drop run.length
  let p := if quoted && get p 0 != 0 then next p else p
  (run.take 6, p)

/-- `[i32; 5]`: the byte `M` or `J` or zero, the day or the month, the week, the weekday and the time of day. -/
structure Rule where
  kind : Int
  day : Int
  week : Int
  weekday : Int
  time : Int
deriving DecidableEq, Repr

def zeroRule : Rule := ⟨0, 0, 0, 0, 0⟩

/-- The date of `rule`, with the time of day that stands when none is given. -/
def ruleDate (p : List UInt8) : Rule × List UInt8 :=
  if get p 0 ≠ 77 then  -- `M`
    let kind : Int := if get p 0 = 74 then 74 else 0  -- `J`
    let (day, p) := integer (if get p 0 = 74 then next p else p)
    (⟨kind, day, 0, 0, 7200⟩, p)
  else
    let (month, p) := integer (next p)
    let (week, p) := integer (next p)
    let (weekday, p) := integer (next p)
    (⟨77, month, week, weekday, 7200⟩, p)

/-- `rule`. -/
def rule (p : List UInt8) : Rule × List UInt8 :=
  let (date, p) := ruleDate p
  if get p 0 = 47 then  -- `/`
    let (time, p) := offset (next p)
    ({ date with time := time }, p)
  else (date, p)

/-! ## TZif files -/

/-- `ZoneFile`; its size is the length of `base`. -/
structure ZoneFile where
  base : List UInt8
  transitions : Nat
  indices : Nat
  types : Nat
  abbreviations : Nat
  stride : Nat
  dataEnd : Nat
  posixTail : Bool
deriving DecidableEq, Repr

def byteAt (base : List UInt8) (p : Nat) : UInt8 := base.getD p 0

/-- `read32`. -/
def read32 (base : List UInt8) (p : Nat) : Nat :=
  (((byteAt base p).toNat * 256 + (byteAt base (p + 1)).toNat) * 256 +
    (byteAt base (p + 2)).toNat) * 256 + (byteAt base (p + 3)).toNat

/-- The bytes of `TZif`. -/
def magic : List UInt8 := [84, 90, 105, 102]

/-- The end of the first block of a newer file. -/
def blockSkip (base : List UInt8) : Option Nat :=
  [1, 1, 8, 5, 6, 1].zipIdx.foldlM (fun skip (weight, i) => do
    let bytes ← checkedUsize (read32 base (20 + i * 4) * weight)
    checkedUsize (skip + bytes)) 44

/-- The header that counts, and the size of its transition times. -/
def mappingHeader (base : List UInt8) : Option (Nat × Nat) :=
  if byteAt base 4 = 0 then some (0, 4)
  else do
    let skip ← blockSkip base
    let headerEnd ← checkedUsize (skip + 44)
    if headerEnd > base.length then none
    else if (base.drop skip).take 4 ≠ magic ∨ byteAt base (skip + 4) ≠ byteAt base 4 then none
    else some (skip, 8)

/-- One round of the loop over the two kinds of indicators. -/
def indicatorsEnd (base : List UInt8) (header typeCount dataEnd position : Nat) : Option Nat :=
  let count := read32 base (header + position)
  if count ≠ 0 ∧ count ≠ typeCount then none else checkedUsize (dataEnd + count)

/-- The test of one type record. -/
def typeInvalid (base : List UInt8) (types abbreviations abbreviationsEnd characters i : Nat) :
    Bool :=
  let index := (byteAt base (types + 6 * i + 5)).toNat
  read32 base (types + 6 * i) == 0x80000000 || byteAt base (types + 6 * i + 4) > 1 ||
    (index ≥ characters ||
      !(List.range' (abbreviations + index) (abbreviationsEnd - (abbreviations + index))).any
        fun j => byteAt base j == 0)

/-- `parse_mapping`. -/
def parseMapping (base : List UInt8) : Option ZoneFile :=
  if base.length < 44 ∨ base.take 4 ≠ magic then none
  else if byteAt base 4 ≠ 0 ∧ byteAt base 4 ≠ 50 ∧ byteAt base 4 ≠ 51 ∧ byteAt base 4 ≠ 52 then
    none
  else do
    let (header, stride) ← mappingHeader base
    let count := read32 base (header + 32)
    let typeCount := read32 base (header + 36)
    let characters := read32 base (header + 40)
    if typeCount = 0 ∨ typeCount > 256 then none
    else
      let transitions := header + 44
      let times ← checkedUsize (count * stride)
      let indices ← checkedUsize (transitions + times)
      let types ← checkedUsize (indices + count)
      let typeBytes ← checkedUsize (typeCount * 6)
      let abbreviations ← checkedUsize (types + typeBytes)
      let abbreviationsEnd ← checkedUsize (abbreviations + characters)
      if abbreviationsEnd > base.length ∨ characters = 0 then none
      else
        let leaps ← checkedUsize (read32 base (header + 28) * (stride + 4))
        let dataEnd ← checkedUsize (abbreviationsEnd + leaps)
        let dataEnd ← indicatorsEnd base header typeCount dataEnd 20
        let dataEnd ← indicatorsEnd base header typeCount dataEnd 24
        if dataEnd > base.length then none
        else if (List.range count).any fun i => (byteAt base (indices + i)).toNat ≥ typeCount then
          none
        else if (List.range typeCount).any
            (typeInvalid base types abbreviations abbreviationsEnd characters) then none
        else some ⟨base, transitions, indices, types, abbreviations, stride, dataEnd, false⟩

/-! ## The settings of the process -/

/-- The globals that `configure` publishes: `__timezone`, `__daylight`, `__tzname`,
    `DAYLIGHT_OFFSET`, `RULES` and `MAPPING`. -/
structure Settings where
  timezone : Int
  daylight : Bool
  standardName : Option (List UInt8)
  daylightName : Option (List UInt8)
  daylightOffset : Int
  rules : Rule × Rule
  mapping : Option ZoneFile
deriving DecidableEq, Repr

/-- One round of the loop over the rules. -/
def nextRule (p : List UInt8) : Rule × List UInt8 :=
  if get p 0 = 44 then rule (next p) else (zeroRule, p)  -- `,`

/-- Whether an offset starts here. -/
def startsOffset (p : List UInt8) : Bool := get p 0 == 43 || get p 0 == 45 || isDigit (get p 0)

/-- The daylight offset of `configure`, behind the daylight name. -/
def daylightOffset (timezone : Int) (daylight : Bool) (p : List UInt8) : Int × List UInt8 :=
  if daylight then
    if startsOffset p then offset p else (wrap32 (timezone - 3600), p)
  else (timezone, p)

/-- The end of `configure`: the settings of the text at the cursor. -/
def textSettings (mapping : Option ZoneFile) (p : List UInt8) : Settings :=
  let standardName := name p
  let timezone := offset standardName.2
  let daylightName := name timezone.2
  let daylight : Bool := daylightName.1 != []
  let daylightOffset := daylightOffset timezone.1 daylight daylightName.2
  let start := nextRule daylightOffset.2
  let «end» := nextRule start.2
  ⟨timezone.1, daylight, some standardName.1, some daylightName.1, daylightOffset.1, (start.1, «end».1), mapping⟩

/-- `type_offset`. -/
def typeOffset (map : ZoneFile) (index : Nat) : Int :=
  signed 4 (read32 map.base (map.types + 6 * index))

/-- `type_dst`. -/
def typeDst (map : ZoneFile) (index : Nat) : UInt8 := byteAt map.base (map.types + 6 * index + 4)

/-- The name of a type: the string at its index into the abbreviations. -/
def typeName (map : ZoneFile) (index : Nat) : List UInt8 :=
  (map.base.drop (map.abbreviations + (byteAt map.base (map.types + 6 * index + 5)).toNat)).takeWhile
    (· != 0)

/-- One round of the loop over the types of a file without a footer. -/
def typeRound (map : ZoneFile) (settings : Settings) (index : Nat) : Settings :=
  if typeDst map index ≠ 0 then
    if settings.daylightName = none then
      { settings with
        daylightName := some (typeName map index)
        daylightOffset := wrap32 (-typeOffset map index)
        daylight := true }
    else settings
  else if settings.standardName = none then
    { settings with
      standardName := some (typeName map index)
      timezone := -typeOffset map index }
  else settings

/-- The settings of a file without a footer. -/
def typeSettings (map : ZoneFile) : Settings :=
  let settings := (List.range ((map.abbreviations - map.types) / 6)).foldl (typeRound map)
    ⟨0, false, none, none, 0, (zeroRule, zeroRule), some map⟩
  let standardName := (settings.standardName.or settings.daylightName).getD utcText
  if settings.daylight then { settings with standardName := some standardName }
  else
    { settings with
      standardName := some standardName
      daylightName := some standardName
      daylightOffset := wrap32 settings.timezone }

/-- The text of a footer. -/
def footer (map : ZoneFile) : List UInt8 :=
  (map.base.drop (map.dataEnd + 1)).take (map.base.length - 1 - (map.dataEnd + 1))

/-- The settings of a mapped file. -/
def fileSettings (map : ZoneFile) : Settings :=
  if map.stride = 8 ∧ map.base.length - map.dataEnd > 2 ∧ byteAt map.base map.dataEnd = 10 ∧
      byteAt map.base (map.base.length - 1) = 10 then
    textSettings (some { map with posixTail := get (footer map) 0 != 0 }) (footer map)
  else typeSettings map

/-! ## `configure` -/

/-- What `configure` takes from its surroundings: the value of `TZ`, the secure mode of the process, the bytes
    or the error of `map_file` for each path, and whether the cache can be enlarged. -/
structure Surroundings where
  tz : Option (List UInt8)
  secure : Bool
  mapFile : List UInt8 → Except Nat (List UInt8)
  allocates : Bool
  noNul : ∀ text, tz = some text → 0 ∉ text

/-- `/etc/localtime`. -/
def localtimePath : List UInt8 := [47, 101, 116, 99, 47, 108, 111, 99, 97, 108, 116, 105, 109, 101]

/-- `GMT`. -/
def gmtText : List UInt8 := [71, 77, 84]

/-- `/usr/share/zoneinfo/`, `/share/zoneinfo/` and `/etc/zoneinfo/`. -/
def zoneinfoPaths : List (List UInt8) :=
  [[47, 117, 115, 114, 47, 115, 104, 97, 114, 101, 47, 122, 111, 110, 101, 105, 110, 102, 111, 47],
   [47, 115, 104, 97, 114, 101, 47, 122, 111, 110, 101, 105, 110, 102, 111, 47],
   [47, 101, 116, 99, 47, 122, 111, 110, 101, 105, 110, 102, 111, 47]]

/-- The text that `configure` starts from. -/
def Surroundings.source (around : Surroundings) : List UInt8 :=
  match around.tz with
  | none => localtimePath
  | some [] => utcText
  | some text => text

/-- The text that `configure` loads: too long ones are replaced. -/
def Surroundings.text (around : Surroundings) : List UInt8 :=
  if around.source.length > 4097 then utcText else around.source

/-- Whether a text is read as a POSIX rule. -/
def isPosix (source : List UInt8) : Bool :=
  get source 0 != 58 &&
    (let (temporary, cursor) := name source
     cursor.length != source.length &&
      (startsOffset cursor || temporary == utcText || temporary == gmtText))

/-- The first path that can be mapped, and the last error on the way. -/
def mapFirst (around : Surroundings) :
    List (List UInt8) → Option Nat → Option (List UInt8) × Option Nat
  | [], errno => (none, errno)
  | path :: paths, errno =>
    match around.mapFile path with
    | .ok base => (some base, errno)
    | .error errno => mapFirst around paths (some errno)

/-- The file that a text names. -/
def namedFile (around : Surroundings) (source : List UInt8) : Option (List UInt8) × Option Nat :=
  let source := if get source 0 = 58 then next source else source  -- `:`
  if get source 0 = 47 ∨ get source 0 = 46 then  -- `/`, `.`
    if ¬ around.secure ∨ source = localtimePath then mapFirst around [source] none
    else (none, none)
  else if source.length ≤ 255 ∧ 46 ∉ source then
    mapFirst around (zoneinfoPaths.map (· ++ source)) none
  else (none, none)

/-- The settings of a text, and the `errno` that was set on the way, if any. -/
def load (around : Surroundings) (source : List UInt8) : Settings × Option Nat :=
  if isPosix source then (textSettings none source, none)
  else
    let mapped := namedFile around source
    match mapped.1.bind parseMapping with
    | some map => (fileSettings map, mapped.2)
    | none => (textSettings none utcText, mapped.2)

/-- The settings with the cache of `configure`: the text `OLD_TZ` points to, if it is not null, and `OLD_SIZE`. -/
structure TzState where
  settings : Settings
  oldTz : Option (List UInt8)
  oldSize : Nat
deriving DecidableEq

def initialSettings : Settings := ⟨0, false, none, none, 0, (zeroRule, zeroRule), none⟩

def initialState : TzState := ⟨initialSettings, some [], 32⟩

/-- The cached text, once `source` is loaded. -/
def TzState.cache (state : TzState) (around : Surroundings) (source : List UInt8) :
    Option (List UInt8) :=
  if source.length ≥ state.oldSize then if around.allocates then some source else none
  else state.oldTz.map fun _ => source

/-- `configure`, with the `errno` that it leaves, if it sets one. -/
def configure (around : Surroundings) (state : TzState) : TzState × Option Nat :=
  if state.oldTz = some around.source then (state, none)
  else
    let source := around.text
    let oldSize :=
      if source.length ≥ state.oldSize then min (max (state.oldSize * 2) (source.length + 1)) 4098
      else state.oldSize
    let loaded := load around source
    (⟨loaded.1, state.cache around source, oldSize⟩, loaded.2)

/-! ## The lookup -/

/-- `transition`. -/
def transition (map : ZoneFile) (index : Nat) : Int :=
  let p := map.transitions + index * map.stride
  if map.stride = 8 then signed 8 (read32 map.base p * 4294967296 + read32 map.base (p + 4))
  else signed 4 (read32 map.base p)

/-- `transition_type`. -/
def transitionType (map : ZoneFile) (index : Nat) : Nat :=
  (byteAt map.base (map.indices + index)).toNat

/-- The binary search of `scan_transitions`.  The `n` entries from `a` on shrink in every
    round, so `n` rounds are enough. -/
def scanLoop (map : ZoneFile) (seconds : Int) (inLocal : Bool) : Nat → Nat → Nat → Nat
  | 0, a, _ => a
  | rounds + 1, a, n =>
    if n > 1 then
      let middle := a + n / 2
      let off := if inLocal then typeOffset map (transitionType map (middle - 1)) else 0
      if wrap64 (seconds - off) < transition map middle then
        scanLoop map seconds inLocal rounds a (n / 2)
      else scanLoop map seconds inLocal rounds middle (n - n / 2)
    else a

/-- The alternate type of `scan_transitions`. -/
def alternateType (map : ZoneFile) (count a : Nat) : Nat :=
  let current := transitionType map a
  if a ≠ 0 ∧ typeDst map (transitionType map (a - 1)) ≠ typeDst map current then
    transitionType map (a - 1)
  else if a + 1 < count ∧ typeDst map (transitionType map (a + 1)) ≠ typeDst map current then
    transitionType map (a + 1)
  else current

/-- `scan_transitions`. -/
def scanTransitions (map : ZoneFile) (seconds : Int) (inLocal : Bool) : Option (Nat × Nat) :=
  let count := (map.indices - map.transitions) / map.stride
  if count = 0 then if map.posixTail then none else some (0, 0)
  else
    let firstOffset := if inLocal then typeOffset map 0 else 0
    if wrap64 (seconds - firstOffset) < transition map 0 then some (0, transitionType map 0)
    else
      let a := scanLoop map seconds inLocal count 0 count
      if a = count - 1 ∧ map.posixTail then none
      else some (transitionType map a, alternateType map count a)

/-- The days of a month, as `rule_seconds` has them. -/
def monthDays (month : Int) (leap : Bool) : Int :=
  if month = 2 then 28 + bit leap else 30 + ((0xad5 >>> (month - 1).toNat &&& 1 : Nat) : Int)

/-- The days from the first of the month to the day of an `Mm.w.d` rule. -/
def weekdayDays (rule : Rule) (monthStart : Int) (leap : Bool) : Int :=
  let weekday := (wrap32 ((wrap64 (monthStart + 4 * 86400)).tmod (7 * 86400))).tdiv 86400
  let days := wrap32 (rule.weekday - weekday)
  let days := if days < 0 then wrap32 (days + 7) else days
  let week := if rule.week = 5 ∧ wrap32 (days + 28) ≥ monthDays rule.day leap then 4 else rule.week
  wrap32 (days + wrap32 (7 * wrap32 (week - 1)))

/-- `rule_seconds`; the year counts from 1900. -/
def ruleSeconds (rule : Rule) (year : Int) : Int :=
  let (seconds, leap) := (yearToSecs year).value
  if rule.kind ≠ 77 then
    let day :=
      if rule.kind = 74 ∧ (rule.day < 60 ∨ leap = false) then wrap32 (rule.day - 1) else rule.day
    wrap64 (wrap64 (seconds + wrap32 (day * 86400)) + rule.time)
  else if ¬ (1 ≤ rule.day ∧ rule.day ≤ 12) then seconds
  else
    let monthStart := wrap64 (seconds + (monthToSecs (rule.day - 1) leap).value)
    let daySeconds := wrap32 (86400 * weekdayDays rule monthStart leap)
    wrap64 (wrap64 (monthStart + daySeconds) + rule.time)

/-- `Zone`. -/
structure Zone where
  daylight : Int
  offset : Int
  opposite : Int
  name : Option (List UInt8)
deriving DecidableEq, Repr

/-- The first year loop of `zone`.  Its state is one `i64`, so a loop that has not ended
    after `2 ^ 64` rounds never ends. -/
def yearDown (seconds : Int) : Nat → Int → Option Int
  | 0, _ => none
  | rounds + 1, year =>
    if (yearToSecs year).value.1 > seconds then yearDown seconds rounds (wrap64 (year - 1))
    else some year

/-- The second year loop of `zone`. -/
def yearUp (seconds : Int) : Nat → Int → Option Int
  | 0, _ => none
  | rounds + 1, year =>
    if (yearToSecs (wrap64 (year + 1))).value.1 < seconds then
      yearUp seconds rounds (wrap64 (year + 1))
    else some year

/-- The year of an instant, as `zone` finds it; `none` when the loops do not end. -/
def zoneYear (seconds : Int) : Option Int := do
  let year ← yearDown seconds (2 ^ 64) (seconds.tdiv 31556952 + 70)
  yearUp seconds (2 ^ 64) year

/-- Whether an instant is between the start and the end of daylight time. -/
def between (start «end» seconds : Int) : Bool :=
  if start < «end» then seconds ≥ start && seconds < «end»
  else !(seconds ≥ «end» && seconds < start)

/-- The rule part of `zone`: whether daylight time is in force. -/
def ruleDaylight (settings : Settings) (seconds : Int) (inLocal : Bool) : Option Bool :=
  if settings.daylight then do
    let year ← zoneYear seconds
    let start := ruleSeconds settings.rules.1 (wrap32 year)
    let «end» := ruleSeconds settings.rules.2 (wrap32 year)
    if inLocal then pure (between start «end» seconds)
    else
      let start := wrap64 (start + settings.timezone)
      let «end» := wrap64 («end» + settings.daylightOffset)
      pure (between start «end» seconds)
  else pure false

/-- The zone that the rules of the settings give. -/
def ruleZone (settings : Settings) (dst : Bool) : Zone :=
  if dst then
    ⟨1, -settings.daylightOffset, -settings.timezone, settings.daylightName⟩
  else ⟨0, -settings.timezone, -settings.daylightOffset, settings.standardName⟩

/-- `zone`, once the settings are in place; `none` when it does not return. -/
def lookup (settings : Settings) (seconds : Int) (inLocal : Bool) : Option Zone :=
  match settings.mapping.bind fun map => (scanTransitions map seconds inLocal).map (map, ·) with
  | some (map, current, alternate) =>
    some ⟨(typeDst map current).toNat, typeOffset map current, typeOffset map alternate, some (typeName map current)⟩
  | none => do
    let dst ← ruleDaylight settings seconds inLocal
    pure (ruleZone settings dst)

/-- `zone`, with the state and the `errno` that it leaves. -/
def zone (around : Surroundings) (state : TzState) (seconds : Int) (inLocal : Bool) :
    Option (Zone × TzState × Option Nat) := do
  let configured := configure around state
  let zone ← lookup configured.1.settings seconds inLocal
  pure (zone, configured.1, configured.2)

end Crabc.Libc.Timezone
