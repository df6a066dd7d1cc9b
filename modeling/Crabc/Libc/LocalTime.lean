/-
  Crabc.Libc.LocalTime

  `localtime_r` and `mktime` of `owned_calendar.rs` over the process time zone.  When the
  zone comes from a POSIX rule, `mktime` takes back what `localtime_r` made: the record
  says which of the two offsets was added, and whatever `mktime` decides for the local
  time, the correction by the opposite offset leads back to it.
-/

import Crabc.Libc.ZoneYear

namespace Crabc.Libc

open Crabc.Lib
open Crabc.Lib.Wrapping (InI32 InI64)
open Timezone Option

/-- The three fields that a zone sets in a record. -/
def Tm.withZone (value : Tm) (zone : Zone) : Tm :=
  { value with
    daylightSaving := Int32.ofInt zone.daylight
    utcOffset := Int64.ofInt zone.offset
    utcName := zone.name }

/-- What `localtime_r` leaves: whether it returned its record, the record, `errno` if it was
    set, and the state of the zone. -/
structure LocalCall where
  succeeded : Bool
  record : Tm
  errno : Option Nat
  state : TzState
deriving DecidableEq

/-- `localtime_r`; `none` when it does not return. -/
def localtimeR (around : Surroundings) (state : TzState) (seconds : Int) (output : Tm) :
    Option LocalCall :=
  if seconds < -2147483648 * 31622400 ∨ seconds > 2147483647 * 31622400 then
    some ⟨false, output, some eoverflow, state⟩
  else do
    let (zone, state, errno) ← zone around state seconds false
    match (secsToTm (wrap64 (seconds + zone.offset)) zeroTm).value with
    | none => pure ⟨false, output.withZone zone, some eoverflow, state⟩
    | some result => pure ⟨true, result.withZone zone, errno, state⟩

/-- The seconds of `mktime`, once the zone of the local time is known. -/
def withoutOffset (value : Tm) (seconds : Int) (atLocal : Zone) : Int :=
  let seconds :=
    if 0 ≤ value.daylightSaving.toInt ∧ atLocal.daylight ≠ value.daylightSaving.toInt then
      wrap64 (seconds - wrap64 (atLocal.opposite - atLocal.offset))
    else seconds
  wrap64 (seconds - atLocal.offset)

/-- `mktime`, with the state of the zone that it leaves. -/
def mktime (around : Surroundings) (state : TzState) (value : Tm) :
    Option (TimeCall × TzState) := do
  let seconds := (tmToSecs value).value
  let (atLocal, state, errno) ← zone around state seconds true
  let seconds := withoutOffset value seconds atLocal
  let (zone, state, errno') ← zone around state seconds false
  match (secsToTm (wrap64 (seconds + zone.offset)) zeroTm).value with
  | none => pure (⟨-1, value, some eoverflow⟩, state)
  | some result => pure (⟨seconds, result.withZone zone, errno'.or errno⟩, state)

variable {settings : Settings}

namespace Timezone

/-! ## The cache -/

/-- The states that calls of `configure` lead to. -/
def Reachable (state : TzState) : Prop :=
  ∃ calls : List Surroundings, state = calls.foldl (fun s around => (configure around s).1) initialState

/-- A cached text is short enough to be loaded, and the settings of a cached POSIX rule are those of the rule. -/
structure Coherent (state : TzState) : Prop where
  short : ∀ text, state.oldTz = some text → text.length ≤ 4097
  posix : ∀ text, state.oldTz = some text → isPosix text = true → state.settings = textSettings none text

theorem coherent_initial : Coherent initialState where
  short := by
    decide
  posix := by
    rintro text ⟨⟩ hposix
    exact absurd hposix (by decide)

variable {state : TzState} {around : Surroundings}

theorem TzState.cache_eq {source text : List UInt8} (h : state.cache around source = some text) : source = text := by
  unfold cache at h
  split at h
  · split at h
    · exact some.inj h
    · cases h
  · obtain ⟨_, _, heq⟩ := map_eq_some_iff.mp h
    exact heq

theorem load_posix {source : List UInt8} (h : isPosix source = true) :
    load around source = (textSettings none source, none) := by
  rw [load, if_pos h]

theorem Surroundings.text_length_le : around.text.length ≤ 4097 := by
  unfold text
  split
  · decide
  · omega

/-- One call of `configure` keeps the cache coherent. -/
theorem Coherent.configure (h : Coherent state) (around : Surroundings) : Coherent (configure around state).1 := by
  unfold Timezone.configure
  split
  · exact h
  · constructor
    · intro text hcache
      obtain rfl := TzState.cache_eq hcache
      exact around.text_length_le
    · intro text hcache hposix
      obtain rfl := TzState.cache_eq hcache
      show (load around around.text).1 = _
      rw [load_posix hposix]

/-- The cache is coherent after any number of calls. -/
theorem Reachable.coherent (h : Reachable state) : Coherent state := by
  obtain ⟨calls, rfl⟩ := h
  suffices hrun : ∀ s, Coherent s → Coherent (calls.foldl (fun s around => (configure around s).1) s) from
    hrun _ coherent_initial
  induction calls with
  | nil =>
    intro s hs
    exact hs
  | cons around calls ih =>
    intro s hs
    exact ih _ (hs.configure around)

/-- Under a POSIX rule `configure` puts the settings of the rule in place and leaves `errno` alone. -/
theorem configure_posix (hstate : Coherent state) (h : isPosix around.text = true) :
    (configure around state).1.settings = textSettings none around.text ∧ (configure around state).2 = none := by
  unfold configure
  split
  · rename_i hcached
    have htext : around.text = around.source :=
      if_neg (Nat.not_lt.mpr (hstate.short _ hcached))
    rw [htext] at h ⊢
    exact ⟨hstate.posix _ hcached h, rfl⟩
  · change (load around around.text).1 = _ ∧ (load around around.text).2 = _
    rw [load_posix h]
    exact ⟨rfl, rfl⟩

/-! ## The zones of a POSIX rule -/

theorem wrap32_inI32 {n : Int} : InI32 (wrap32 n) := by
  show -2147483648 ≤ (n + 2147483648) % 4294967296 - 2147483648 ∧
    (n + 2147483648) % 4294967296 - 2147483648 < 2147483648
  omega

variable {p : List UInt8}

theorem offsetMinutes_inI32 {value : Int} (h : InI32 value) : InI32 (offsetMinutes value p).1 := by
  unfold offsetMinutes
  dsimp only
  split_ifs
  · exact wrap32_inI32
  · exact wrap32_inI32
  · exact h

theorem offset_inI32 : InI32 (offset p).1 := by
  unfold offset
  dsimp only
  generalize hvalue : offsetMinutes _ _ = result
  have hrange : InI32 result.1 := by
    rw [← hvalue]
    exact offsetMinutes_inI32 wrap32_inI32
  split_ifs
  all_goals first | exact wrap32_inI32 | exact hrange

theorem daylightOffset_inI32 {timezone : Int} (h : InI32 timezone) {daylight : Bool} :
    InI32 (daylightOffset timezone daylight p).1 := by
  unfold daylightOffset
  split_ifs
  · exact offset_inI32
  · exact wrap32_inI32
  · exact h

/-- Both offsets of a text are `i32` values. -/
theorem textSettings_inI32 {mapping : Option ZoneFile} :
    InI32 (textSettings mapping p).timezone ∧ InI32 (textSettings mapping p).daylightOffset := by
  unfold textSettings
  dsimp only
  constructor
  · exact offset_inI32
  · exact daylightOffset_inI32 offset_inI32

theorem ruleZone_true : ruleZone settings true =
    ⟨1, -settings.daylightOffset, -settings.timezone, settings.daylightName⟩ := rfl

theorem ruleZone_false : ruleZone settings false =
    ⟨0, -settings.timezone, -settings.daylightOffset, settings.standardName⟩ := rfl

/-- Without a file the lookup returns one of the two zones of the rules. -/
theorem lookup_posix (hmapping : settings.mapping = none) {t : Int} (ht : Searchable t) {inLocal : Bool} :
    ∃ dst, lookup settings t inLocal = some (ruleZone settings dst) := by
  have hrule : ∃ dst, ruleDaylight settings t inLocal = some dst := by
    unfold ruleDaylight
    split
    · rw [zoneYear_eq ht]
      cases inLocal <;> exact ⟨_, rfl⟩
    · exact ⟨_, rfl⟩
  obtain ⟨dst, hdst⟩ := hrule
  refine ⟨dst, ?_⟩
  rw [lookup, hmapping, bind_none]
  rw [hdst]
  rfl

/-- Under a POSIX rule a call of `zone` looks the instant up in the settings of the rule. -/
theorem zone_posix (hstate : Coherent state) (hposix : isPosix around.text = true)
    (hsettings : textSettings none around.text = settings) {t : Int} {inLocal : Bool} {found : Zone}
    (h : lookup settings t inLocal = some found) :
    zone around state t inLocal = some (found, (configure around state).1, none) := by
  obtain ⟨hconfigured, herrno⟩ := configure_posix hstate hposix
  unfold zone
  dsimp only
  rw [hconfigured, hsettings, herrno, h]
  rfl

end Timezone

/-! ## The round trip -/

/-- The record of `secs_to_tm`, when the year fits. -/
theorem secsToTm_civil {c : Civil} : (secsToTm c.seconds zeroTm).value =
      if FitsTm c then some (zeroTm.ofCalendar (.ofCivil c)) else none := by
  rw [(secsToTm_yields c.seconds zeroTm).value, Time.calendarFromUnixSeconds_civil]
  by_cases hfits : FitsTm c
  · rw [if_pos hfits, if_neg (fun h => by obtain ⟨hy, hy'⟩ := hfits; omega)]
  · rw [if_neg hfits, if_pos (by unfold FitsTm at hfits; omega)]

/-- A record of `localtime_r` counts the seconds that it was made of. -/
theorem tmToSecs_withZone {c : Civil} (h : FitsTm c) (zone : Zone) :
    (tmToSecs ((zeroTm.ofCalendar (.ofCivil c)).withZone zone)).value = c.seconds :=
  tmToSecs_yields.value.trans (civilSeconds_normal h)

/-- Whatever zone `mktime` finds for the local time, it takes off the offset that the record was made with. -/
theorem withoutOffset_withZone {value : Tm} (htz : InI32 settings.timezone)
    (hdst : InI32 settings.daylightOffset) {t : Int} (ht : Searchable t) (made found : Bool) :
    withoutOffset (value.withZone (ruleZone settings made)) (t + (ruleZone settings made).offset)
      (ruleZone settings found) = t := by
  obtain ⟨htz, htz'⟩ := htz
  obtain ⟨hdst, hdst'⟩ := hdst
  obtain ⟨ht, ht'⟩ := ht
  have hone : (Int32.ofInt 1).toInt = 1 := by decide
  have hzero : (Int32.ofInt 0).toInt = 0 := by decide
  unfold withoutOffset Tm.withZone
  cases made <;> cases found <;> simp only [ruleZone_true, ruleZone_false, hone, hzero]
  case false.false | true.true =>
    rw [if_neg (by decide), wrap64_eq (by omega)]
    omega
  case false.true | true.false =>
    rw [if_pos (by decide), wrap64_eq (n := -_ - _) (by omega), wrap64_eq (n := t + _ - _) (by omega),
      wrap64_eq (by omega)]
    omega

/-- `localtime_r` returns, and if it succeeds, `mktime` on its record returns the time, leaves
    the record as it is and does not set `errno`. -/
def LocalRoundTrip (around : Surroundings) (state : TzState) (t : Int) (output : Tm) : Prop :=
  ∃ call, localtimeR around state t output = some call ∧
    (call.succeeded = true → ∃ back, mktime around call.state call.record = some back ∧
      back.1.returned = t ∧ back.1.record = call.record ∧ back.1.errno = none)

/-- **Local time and back.**  In every state that the process can be in, under every `TZ`
    that is read as a POSIX rule, `mktime` takes back what `localtime_r` made. -/
theorem mktime_localtimeR (state : TzState) (hstate : Reachable state) (around : Surroundings)
    (hposix : isPosix around.text = true) (t : Int64) (output : Tm) :
    LocalRoundTrip around state t.toInt output := by
  unfold LocalRoundTrip localtimeR
  split
  · exact ⟨_, rfl, nofun⟩
  rename_i hguard
  have hcoherent := hstate.coherent
  generalize hsettings : textSettings none around.text = settings
  generalize t.toInt = t at hguard ⊢
  obtain ⟨htz, hdst⟩ := textSettings_inI32
  have hmapping : (textSettings none around.text).mapping = none := rfl
  rw [hsettings] at htz hdst hmapping
  have ht : Searchable t := ⟨by omega, by omega⟩
  obtain ⟨made, hmade⟩ := lookup_posix hmapping ht
  have hzone := zone_posix hcoherent hposix hsettings hmade
  have hoffset : InI64 (t + (ruleZone settings made).offset) ∧ Searchable (t + (ruleZone settings made).offset) := by
    obtain ⟨htz, htz'⟩ := htz
    obtain ⟨hdst, hdst'⟩ := hdst
    unfold Searchable InI64
    cases made <;> simp only [ruleZone_true, ruleZone_false] <;> omega
  obtain ⟨c, hc⟩ := Time.exists_civil (t + (ruleZone settings made).offset)
  rw [hzone]
  simp only [bind_eq_bind, bind_some]
  rw [wrap64_eq hoffset.1, ← hc, secsToTm_civil]
  by_cases hfits : FitsTm c
  · rw [if_pos hfits]
    refine ⟨_, rfl, fun _ => ?_⟩
    -- the second call of `configure` finds the same rule
    have hnext := hcoherent.configure around
    obtain ⟨found, hfound⟩ := lookup_posix hmapping hoffset.2
    rw [mktime, tmToSecs_withZone hfits, hc]
    rw [zone_posix hnext hposix hsettings hfound]
    simp only [bind_eq_bind, bind_some]
    rw [withoutOffset_withZone htz hdst ht, zone_posix (hnext.configure around) hposix hsettings hmade]
    simp only [bind_some]
    rw [wrap64_eq hoffset.1, ← hc, secsToTm_civil, if_pos hfits]
    exact ⟨_, rfl, rfl, rfl, rfl⟩
  · rw [if_neg hfits]
    exact ⟨_, rfl, nofun⟩

/-- The surroundings of a process with `TZ=EST5EDT,M3.2.0,M11.1.0`. -/
def easternTime : Surroundings where
  tz := some [69, 83, 84, 53, 69, 68, 84, 44, 77, 51, 46, 50, 46, 48, 44, 77, 49, 49, 46, 49, 46, 48]
  secure := false
  mapFile := fun _ => .error 2
  allocates := true
  noNul := by
    rintro text ⟨⟩
    decide

theorem reachable_initial : Reachable initialState := ⟨[], rfl⟩

/-- The repeated hour of 3 November 2024, in standard time. -/
theorem mktime_localtimeR_repeatedHour : LocalRoundTrip easternTime initialState (1730615400 : Int64).toInt zeroTm :=
  mktime_localtimeR initialState reachable_initial easternTime (by decide) 1730615400 zeroTm

example : (localtimeR easternTime initialState 1730615400 zeroTm).map
    (fun call => (call.succeeded, call.record.hours, call.record.daylightSaving)) = some (true, 1, 0) := by
  decide +kernel

end Crabc.Libc
