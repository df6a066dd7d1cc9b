/-
  Crabc.Time.PosixTzParse

  What `parse_posix_zone` accepts.  Each parser function is run from an offset
  inside its bytes: it does not panic, leaves the offset inside the bytes, and
  its value is in the range that the calendar relies on.
-/

import Crabc.Time.PosixTz

namespace Crabc.Time

open Crabc.Lib Crabc.Lib.Checked List Option

/-! ## The ranges of accepted rules -/

/-- Less than a week in either direction. -/
def TransitionTime.InRange (time : TransitionTime) : Prop :=
  -604800 < time.seconds ∧ time.seconds < 604800

def TransitionRule.InRange : TransitionRule → Prop
  | julianNoLeap day time => (1 ≤ day ∧ day ≤ 365) ∧ time.InRange
  | dayOfYear day time => day ≤ 365 ∧ time.InRange
  | monthWeekDay month week weekday time =>
    (1 ≤ month ∧ month ≤ 12) ∧ (1 ≤ week ∧ week ≤ 5) ∧ weekday ≤ 6 ∧ time.InRange

theorem TransitionRule.InRange.time {rule : TransitionRule} (h : rule.InRange) : rule.time.InRange := by
  cases rule with
  | julianNoLeap day time => exact h.2
  | dayOfYear day time => exact h.2
  | monthWeekDay month week weekday time => exact h.2.2.2

/-- The two kinds of time are marked, and daylight time comes with both rules. -/
structure PosixZone.WellFormed (zone : PosixZone) : Prop where
  standard : zone.standard.isDaylightSaving = false
  daylight : ∀ {type : ZoneType}, zone.daylight = some type → type.isDaylightSaving = true
  rules : ∀ {type : ZoneType}, zone.daylight = some type →
    ∃ start «end», zone.start = some start ∧ zone.end = some «end» ∧ start.InRange ∧ «end».InRange

/-! ## The parser's state -/

namespace PosixParser

variable {bytes : List UInt8} {self : PosixParser}

/-- A parser inside the given bytes, which are no longer than a slice can be. -/
structure Inside (bytes : List UInt8) (parser : PosixParser) : Prop where
  bytes_eq : parser.bytes = bytes
  offset_le : parser.offset ≤ bytes.length
  length_lt : bytes.length < 2 ^ 63

section

variable (h : self.Inside bytes)
include h

theorem Inside.advance (hlt : self.offset < bytes.length) : self.advance = .ok { self with offset := self.offset + 1 } ∧
      Inside bytes { self with offset := self.offset + 1 } := by
  have hlen := h.length_lt
  refine ⟨inRange_ok (by omega), ⟨h.bytes_eq, hlt, hlen⟩⟩

variable {byte : UInt8}

theorem Inside.lt_of_peek (hpeek : self.peek = some byte) : self.offset < bytes.length := by
  unfold peek at hpeek
  rw [h.bytes_eq] at hpeek
  exact (List.getElem?_eq_some_iff.mp hpeek).1

/-- A byte at the offset can be passed. -/
theorem Inside.advance_of_peek (hpeek : self.peek = some byte) : self.advance.Meets (Inside bytes) := by
  obtain ⟨hok, hin⟩ := h.advance (h.lt_of_peek hpeek)
  rw [hok]
  exact meets_ok hin

/-- The bytes at the offset of a loop: the first one can be passed, and the others are those at the next offset. -/
theorem Inside.advance_of_rest {rest : List UInt8} (hrest : byte :: rest = bytes.drop self.offset) :
    self.advance = .ok { self with offset := self.offset + 1 } ∧ Inside bytes { self with offset := self.offset + 1 } ∧
      rest = bytes.drop (self.offset + 1) := by
  have hlt : self.offset < bytes.length := by
    have hlen := congrArg length hrest
    rw [length_cons, length_drop] at hlen
    omega
  obtain ⟨hok, hin⟩ := h.advance hlt
  refine ⟨hok, hin, ?_⟩
  rw [← tail_drop, ← hrest, tail_cons]

theorem Inside.rest_eq : self.rest = bytes.drop self.offset := by
  rw [rest, h.bytes_eq]

/-- A slice that ends at the offset. -/
theorem Inside.slice {start : Nat} (hstart : start ≤ self.offset) :
    (Checked.slice self.bytes start self.offset : Checked TimeZoneError _) =
      .ok ((self.bytes.drop start).take (self.offset - start)) := by
  apply slice_ok hstart
  rw [h.bytes_eq]
  exact h.offset_le

theorem next_meets : self.next.Meets fun r => r.2.Inside bytes ∧ (r.1.isSome → 1 ≤ r.2.offset) := by
  unfold next
  cases hpeek : self.peek with
  | none => exact meets_ok ⟨h, fun hsome => by cases hsome⟩
  | some value =>
    obtain ⟨hok, hin⟩ := h.advance (h.lt_of_peek hpeek)
    rw [hok]
    exact meets_ok ⟨hin, fun _ => Nat.le_add_left 1 _⟩

end

theorem angleName_meets {start : Nat} (rest : List UInt8) (self : PosixParser)
    (h : self.Inside bytes) (hrest : rest = bytes.drop self.offset) (hstart : start ≤ self.offset) :
    (angleName start rest self).Meets fun r => r.2.Inside bytes := by
  induction rest generalizing self with
  | nil => exact meets_error _
  | cons byte rest ih =>
    obtain ⟨hok, hin, htail⟩ := h.advance_of_rest hrest
    rw [angleName, hok]
    apply meets_ite
    · -- the closing bracket: the name ends before it
      intro _
      simp only [Nat.add_sub_cancel]
      apply meets_guard
      intro _
      rw [h.slice hstart]
      exact meets_ok hin
    · intro _
      apply meets_guard
      intro _
      exact ih _ hin htail (Nat.le_succ_of_le hstart)

theorem letters_meets (rest : List UInt8) (self : PosixParser) (h : self.Inside bytes)
    (hrest : rest = bytes.drop self.offset) :
    (letters rest self).Meets fun r => r.Inside bytes ∧ self.offset ≤ r.offset := by
  induction rest generalizing self with
  | nil => exact meets_ok ⟨h, Nat.le_refl _⟩
  | cons byte rest ih =>
    apply meets_ite
    · intro _
      obtain ⟨hok, hin, htail⟩ := h.advance_of_rest hrest
      rw [hok]
      exact (ih _ hin htail).mono fun r hr => ⟨hr.1, Nat.le_of_succ_le hr.2⟩
    · intro _
      exact meets_ok ⟨h, Nat.le_refl _⟩

theorem digits_meets (rest : List UInt8) (value : Nat) (self : PosixParser) (h : self.Inside bytes)
    (hrest : rest = bytes.drop self.offset) :
    (digits rest value self).Meets fun r => r.2.Inside bytes := by
  induction rest generalizing self value with
  | nil => exact meets_ok h
  | cons byte rest ih =>
    apply meets_ite
    · intro _
      obtain ⟨hok, hin, htail⟩ := h.advance_of_rest hrest
      rw [hok]
      refine meets_okOr.bind fun value _ => ?_
      exact ih value _ hin htail
    · intro _
      exact meets_ok h

theorem checkedI32_eq {value result : Int} (h : checkedI32 value = some result) : value = result := by
  unfold checkedI32 at h
  split at h
  · exact some.inj h
  · cases h

theorem checkedU32_eq {value result : Nat} (h : checkedU32 value = some result) : value = result := by
  unfold checkedU32 at h
  split at h
  · exact some.inj h
  · cases h

section

variable (h : self.Inside bytes)
include h

theorem expect_meets (byte : UInt8) : (self.expect byte).Meets fun r => r.2.Inside bytes := by
  refine (next_meets h).bind ?_
  rintro ⟨value, self'⟩ ⟨hin, -⟩
  apply meets_ite
  · intro _
    exact meets_ok hin
  · intro _
    exact meets_error _

/-! ## Names -/

theorem parseName_meets : self.parseName.Meets fun r => r.2.Inside bytes := by
  refine (next_meets h).bind ?_
  rintro ⟨first, self⟩ ⟨hin, -⟩
  apply meets_ite
  · intro _
    exact angleName_meets _ _ hin hin.rest_eq .refl
  · -- the first byte is given back; at the end of the bytes the source steps back too
    intro _
    have hback : Inside bytes { self with offset := self.offset - 1 } :=
      ⟨hin.bytes_eq, Nat.le_trans (Nat.sub_le _ 1) hin.offset_le, hin.length_lt⟩
    refine (letters_meets _ _ hback hback.rest_eq).bind ?_
    rintro self' ⟨hin', hle⟩
    rw [inRange_ok hle]
    apply meets_guard
    intro _
    rw [hin'.slice hle]
    exact meets_ok hin'

/-! ## Numbers -/

theorem parseDecimal_meets : self.parseDecimal.Meets fun r => r.2.Inside bytes := by
  refine (digits_meets _ 0 _ h h.rest_eq).bind ?_
  rintro ⟨value, self'⟩ hin
  apply meets_guard
  intro _
  exact meets_ok hin

theorem parseSixtieths_meets : self.parseSixtieths.Meets fun r => r.1 ≤ 59 ∧ r.2.Inside bytes := by
  unfold parseSixtieths
  apply meets_ite
  · intro hcolon
    refine (h.advance_of_peek hcolon).bind fun self hin => ?_
    refine (parseDecimal_meets hin).bind ?_
    rintro ⟨value, self'⟩ hin'
    apply meets_guard
    intro hle
    exact meets_ok ⟨Nat.le_of_not_lt hle, hin'⟩
  · intro _
    exact meets_ok ⟨Nat.zero_le _, h⟩

theorem parseSign_meets : self.parseSign.Meets fun r => (r.1 = 1 ∨ r.1 = -1) ∧ r.2.Inside bytes := by
  unfold parseSign
  split
  case h_1 | h_2 =>
    refine (h.advance_of_peek ‹_›).bind fun self hin => ?_
    exact meets_ok ⟨by simp, hin⟩
  · exact meets_ok ⟨Or.inl rfl, h⟩

/-- The time is below the first hour that is not allowed. -/
theorem parseSignedHms_meets {maxHours : Int} : (self.parseSignedHms maxHours).Meets fun r =>
      (-(3600 * maxHours + 3600) < r.1 ∧ r.1 < 3600 * maxHours + 3600) ∧ r.2.Inside bytes := by
  refine (parseSign_meets h).bind ?_
  rintro ⟨sign, self⟩ ⟨hsign, hin⟩
  refine (parseDecimal_meets hin).bind ?_
  rintro ⟨hours, self⟩ hin
  apply meets_guard
  intro hhours
  refine (parseSixtieths_meets hin).bind ?_
  rintro ⟨minutes, self⟩ ⟨hminutes, hin⟩
  refine (parseSixtieths_meets hin).bind ?_
  rintro ⟨seconds, self⟩ ⟨hseconds, hin⟩
  dsimp only at hhours hminutes hseconds hsign ⊢
  rw [inRange_ok (by omega), ok_bind]
  refine meets_okOr.bind ?_
  intro magnitude hmagnitude
  refine meets_okOr.bind ?_
  intro signed hsigned
  refine meets_okOr.bind ?_
  intro value hvalue
  -- the three checked sums are the plain one
  obtain ⟨sum, hsum, hmagnitude⟩ := bind_eq_some_iff.mp hmagnitude
  obtain ⟨product, hproduct, hsum⟩ := bind_eq_some_iff.mp hsum
  have h1 := checkedU32_eq hproduct
  have h2 := checkedU32_eq hsum
  have h3 := checkedU32_eq hmagnitude
  have h4 := checkedI32_eq hsigned
  have h5 := checkedI32_eq hvalue
  refine meets_ok ⟨?_, hin⟩
  rcases hsign with rfl | rfl <;> dsimp only <;> omega

/-! ## Offsets and rules -/

theorem parsePosixOffset_meets : self.parsePosixOffset.Meets fun r =>
      (-maxOffsetSeconds ≤ r.1 ∧ r.1 ≤ maxOffsetSeconds) ∧ r.2.Inside bytes := by
  refine (parseSignedHms_meets h).bind ?_
  rintro ⟨offset, self⟩ ⟨-, hin⟩
  apply meets_guard
  intro hrange
  exact meets_ok ⟨Decidable.not_not.mp hrange, hin⟩

theorem parseTransitionTime_meets : self.parseTransitionTime.Meets fun r => r.1.InRange ∧ r.2.Inside bytes := by
  refine (parseSignedHms_meets h).bind ?_
  rintro ⟨seconds, self⟩ ⟨hrange, hin⟩
  have htime (basis : TimeBasis) : (TransitionTime.mk seconds basis).InRange := by
    unfold TransitionTime.InRange
    dsimp only at hrange ⊢
    omega
  -- a letter for the basis is passed; without one the time is wall time
  have hpass (basis : TimeBasis) {byte : UInt8} (hpeek : self.peek = some byte) :
      (self.advance >>= fun self => pure (⟨seconds, basis⟩, self)).Meets
        fun r : TransitionTime × PosixParser => r.1.InRange ∧ r.2.Inside bytes := by
    refine (hin.advance_of_peek hpeek).bind fun self hin => ?_
    exact meets_ok ⟨htime basis, hin⟩
  dsimp only
  split
  case h_1 | h_2 | h_3 | h_4 | h_5 => exact hpass _ ‹_›
  · exact meets_ok ⟨htime _, hin⟩

theorem parseRuleTime_meets : self.parseRuleTime.Meets fun r => r.1.InRange ∧ r.2.Inside bytes := by
  unfold parseRuleTime
  apply meets_ite
  · intro hslash
    refine (h.advance_of_peek hslash).bind fun self hin => ?_
    exact parseTransitionTime_meets hin
  · intro _
    have hdefault : (TransitionTime.mk 7200 .wall).InRange := ⟨by decide, by decide⟩
    exact meets_ok ⟨hdefault, h⟩

theorem parseRule_meets : self.parseRule.Meets fun r => r.1.InRange ∧ r.2.Inside bytes := by
  refine (next_meets h).bind ?_
  rintro ⟨first, self⟩ ⟨hin, hback⟩
  cases first with
  | none => exact meets_error _
  | some byte =>
    apply meets_ite
    · -- `Jn`
      intro _
      refine (parseDecimal_meets hin).bind ?_
      rintro ⟨day, self⟩ hin
      apply meets_guard
      intro hday
      refine (parseRuleTime_meets hin).bind ?_
      rintro ⟨time, self⟩ ⟨htime, hin⟩
      refine meets_ok ⟨⟨?_, htime⟩, hin⟩
      omega
    intro _
    apply meets_ite
    · -- `Mm.w.d`
      intro _
      refine (parseDecimal_meets hin).bind ?_
      rintro ⟨month, self⟩ hin
      refine (expect_meets hin 46).bind ?_
      rintro ⟨⟨⟩, self⟩ hin
      refine (parseDecimal_meets hin).bind ?_
      rintro ⟨week, self⟩ hin
      refine (expect_meets hin 46).bind ?_
      rintro ⟨⟨⟩, self⟩ hin
      refine (parseDecimal_meets hin).bind ?_
      rintro ⟨weekday, self⟩ hin
      apply meets_guard
      intro hrange
      refine (parseRuleTime_meets hin).bind ?_
      rintro ⟨time, self⟩ ⟨htime, hin⟩
      exact meets_ok ⟨⟨by omega, by omega, by omega, htime⟩, hin⟩
    intro _
    apply meets_ite
    · -- `n`: the digit is given back
      intro _
      rw [inRange_ok (hback rfl), ok_bind]
      have hin' : Inside bytes { self with offset := self.offset - 1 } :=
        ⟨hin.bytes_eq, Nat.le_trans (Nat.sub_le _ 1) hin.offset_le, hin.length_lt⟩
      refine (parseDecimal_meets hin').bind ?_
      rintro ⟨day, self⟩ hin
      apply meets_guard
      intro hday
      refine (parseRuleTime_meets hin).bind ?_
      rintro ⟨time, self⟩ ⟨htime, hin⟩
      refine meets_ok ⟨⟨?_, htime⟩, hin⟩
      omega
    · intro _
      exact meets_error _

end

end PosixParser

/-! ## The zone -/

open PosixParser

theorem negateI32_ok {value : Int} (h : -maxOffsetSeconds ≤ value) : negateI32 value = .ok (-value) := by
  unfold maxOffsetSeconds at h
  apply inRange_ok
  omega

theorem parseDaylightOffset_meets {bytes : List UInt8} {parser : PosixParser} (standard : ZoneType)
    (h : parser.Inside bytes) :
    (parseDaylightOffset standard parser).Meets fun r => r.2.Inside bytes := by
  unfold parseDaylightOffset
  apply meets_ite
  · intro _
    refine meets_okOr.bind fun offset _ => ?_
    exact meets_ok h
  · intro _
    refine (parsePosixOffset_meets h).bind ?_
    rintro ⟨parsed, parser⟩ ⟨hrange, hin⟩
    dsimp only
    rw [negateI32_ok hrange.1, ok_bind]
    refine meets_okOr.bind fun offset _ => ?_
    exact meets_ok hin

/-- **`parse_posix_zone`** does not panic, and its zones are well formed. -/
theorem parsePosixZone_meets {bytes : List UInt8} (hlen : bytes.length < 2 ^ 63) :
    (parsePosixZone bytes).Meets PosixZone.WellFormed := by
  have hstart : Inside bytes ⟨bytes, 0⟩ := ⟨rfl, Nat.zero_le _, hlen⟩
  refine (parseName_meets hstart).bind ?_
  rintro ⟨standardName, parser⟩ hin
  refine (parsePosixOffset_meets hin).bind ?_
  rintro ⟨standardOffset, parser⟩ ⟨hrange, hin⟩
  dsimp only
  rw [negateI32_ok hrange.1, ok_bind]
  refine meets_okOr.bind fun offset _ => ?_
  apply meets_ite
  · intro _
    exact meets_ok ⟨rfl, nofun, nofun⟩
  intro _
  refine (parseName_meets hin).bind ?_
  rintro ⟨daylightName, parser⟩ hin
  refine (parseDaylightOffset_meets _ hin).bind ?_
  rintro ⟨daylightOffset, parser⟩ hin
  refine (expect_meets hin 44).bind ?_
  rintro ⟨⟨⟩, parser⟩ hin
  refine (parseRule_meets hin).bind ?_
  rintro ⟨start, parser⟩ ⟨hstart, hin⟩
  refine (expect_meets hin 44).bind ?_
  rintro ⟨⟨⟩, parser⟩ hin
  refine (parseRule_meets hin).bind ?_
  rintro ⟨«end», parser⟩ ⟨hend, -⟩
  apply meets_guard
  intro _
  refine meets_ok ⟨rfl, ?_, ?_⟩
  · rintro type ⟨⟩
    rfl
  · rintro type ⟨⟩
    exact ⟨start, «end», rfl, rfl, hstart, hend⟩

end Crabc.Time
