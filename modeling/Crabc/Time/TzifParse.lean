/-
  Crabc.Time.TzifParse

  What `from_tzif` accepts.  The checks of the header and of the block lengths
  cover every slice and index behind them, so no step panics, and the tables of an
  accepted zone fit together: the transition times increase, each has a type, and
  every type index is in range.
-/

import Crabc.Time.PosixTzParse
import Crabc.Time.Tzif

namespace Crabc.Time

open Crabc.Lib Crabc.Lib.Checked Header TzifZone

variable {bytes : List UInt8}

/-! ## Reading -/

variable {n offset index value timeSize : Nat}

theorem usize_ok (h : n < 2 ^ 64) : usize n = .ok n := inRange_ok h

open List

/-- A word inside the bytes can be read. -/
theorem fromBeBytes_meets {width : Nat} (hlen : bytes.length < 2 ^ 63)
    (h : offset + width ≤ bytes.length) : (fromBeBytes width bytes offset).Meets fun _ => True := by
  unfold fromBeBytes
  rw [usize_ok (by omega), ok_bind, slice_ok (Nat.le_add_right _ _) h, ok_bind, inRange_ok]
  · exact meets_ok trivial
  · rw [length_take, length_drop]
    omega

/-- The size of a time in the two kinds of blocks. -/
def timeSizeOf (wideTimes : Bool) : Nat := if wideTimes then 8 else 4

variable {wideTimes : Bool} {header : Header}

theorem timeAt_meets (hlen : bytes.length < 2 ^ 63) (h : offset + timeSizeOf wideTimes ≤ bytes.length) :
    (timeAt wideTimes bytes offset).Meets fun _ => True := by
  cases wideTimes with
  | true | false => exact fromBeBytes_meets hlen h

/-- The position of the first NUL is inside the suffix. -/
theorem resolveType_meets {abbreviations : List UInt8} {raw : RawType} :
    (resolveType abbreviations raw).Meets fun _ => True := by
  unfold resolveType
  apply meets_guard
  intro hindex
  rw [slice_ok (by omega) .refl, ok_bind]
  refine meets_okOr.bind fun stop hstop => ?_
  have hlt := (findIdx?_eq_some_iff_getElem.mp hstop).1
  rw [slice_ok (Nat.zero_le _) (Nat.le_of_lt hlt)]
  exact meets_ok trivial

theorem splitAt_meets {length : Nat} : (splitAt bytes length).Meets fun r =>
      r.1.length = length ∧ bytes.length = length + r.2.length := by
  apply meets_guard
  intro h
  have hle : length ≤ bytes.length := Nat.le_of_not_lt h
  rw [inRange_ok hle]
  refine meets_ok ⟨length_take_of_le hle, ?_⟩
  rw [length_drop]
  omega

/-! ## The header -/

section

variable (hlen : bytes.length < 2 ^ 63)
include hlen

theorem Header.count_meets (h : 44 ≤ bytes.length) (hindex : index ≤ 5) : (count bytes index).Meets fun _ => True := by
  unfold count
  rw [usize_ok (by omega), ok_bind, usize_ok (by omega), ok_bind]
  refine (fromBeBytes_meets hlen (by omega)).bind fun value _ => ?_
  apply meets_guard
  intro _
  exact meets_ok trivial

theorem Header.parse_meets : (parse bytes).Meets fun r => 0 < r.1.typecnt ∧ r.2.length ≤ bytes.length := by
  unfold parse
  apply meets_guard
  intro hshort
  have h44 : 44 ≤ bytes.length := Nat.le_of_not_lt hshort
  rw [slice_ok (Nat.zero_le _) (by omega), ok_bind]
  apply meets_guard
  intro _
  rw [index_ok (getElem?_eq_getElem (by omega : 4 < bytes.length)), ok_bind]
  apply meets_guard
  intro _
  rw [slice_ok (by omega) (by omega), ok_bind]
  apply meets_guard
  intro _
  refine (count_meets hlen h44 (by omega)).bind fun ttisutcnt _ => ?_
  refine (count_meets hlen h44 (by omega)).bind fun ttisstdcnt _ => ?_
  refine (count_meets hlen h44 (by omega)).bind fun leapcnt _ => ?_
  refine (count_meets hlen h44 (by omega)).bind fun timecnt _ => ?_
  refine (count_meets hlen h44 (by omega)).bind fun typecnt _ => ?_
  refine (count_meets hlen h44 (by omega)).bind fun charcnt _ => ?_
  apply meets_guard
  intro hcounts
  rw [slice_ok h44 .refl, ok_bind]
  refine meets_ok ⟨by dsimp only; omega, ?_⟩
  rw [length_take, length_drop]
  omega

/-! ## Blocks -/

/-- The transition times that are read increase, from behind `previous` on. -/
theorem readTransitions_meets (count index : Nat) (previous : Option Int)
    (h : (index + count) * timeSizeOf wideTimes ≤ bytes.length) :
    (readTransitions wideTimes (timeSizeOf wideTimes) bytes count index previous).Meets fun times =>
      times.length = count ∧ times.Pairwise (· < ·) ∧
        ∀ value ∈ times, ∀ prior, previous = some prior → prior < value := by
  induction count generalizing index previous with
  | zero => exact meets_ok ⟨rfl, List.Pairwise.nil, nofun⟩
  | succ count ih =>
    have hnext : (index + 1 + count) * timeSizeOf wideTimes ≤ bytes.length := by
      rw [Nat.add_assoc, Nat.add_comm 1]
      exact h
    have hoffset : index * timeSizeOf wideTimes + timeSizeOf wideTimes ≤ bytes.length := by
      rw [← Nat.succ_mul]
      exact Nat.le_trans (Nat.mul_le_mul_right _ (by omega)) h
    rw [readTransitions, usize_ok (by omega), ok_bind]
    refine (timeAt_meets hlen hoffset).bind fun value _ => ?_
    apply meets_guard
    intro hprior
    refine (ih (index + 1) (some value) hnext).bind ?_
    rintro rest ⟨hlength, hpairwise, hbehind⟩
    have hfirst : ∀ prior, previous = some prior → prior < value := by
      rintro prior rfl
      simpa using hprior
    refine meets_ok ⟨by rw [length_cons, hlength], ?_, ?_⟩
    · exact pairwise_cons.mpr ⟨fun x hx => hbehind x hx value rfl, hpairwise⟩
    · rintro x (_ | ⟨_, hx⟩) prior hprior
      · exact hfirst prior hprior
      · exact Int.lt_trans (hfirst prior hprior) (hbehind x hx value rfl)

theorem readRawType_meets (h : index * 6 + 6 ≤ bytes.length) : (readRawType bytes index).Meets fun _ => True := by
  unfold readRawType
  rw [usize_ok (by omega), ok_bind]
  refine (fromBeBytes_meets hlen (by omega)).bind fun utcOffset _ => ?_
  refine meets_okOr.bind fun offset _ => ?_
  rw [usize_ok (by omega), ok_bind, index_ok (getElem?_eq_getElem (by omega : index * 6 + 4 < bytes.length)), ok_bind]
  apply meets_guard
  intro _
  rw [usize_ok (by omega), ok_bind, index_ok (getElem?_eq_getElem (by omega : index * 6 + 5 < bytes.length))]
  exact meets_ok trivial

theorem validateLeapRecords_meets (count index : Nat) (previous : Option (Int × Int))
    (h : (index + count) * (timeSizeOf wideTimes + 4) ≤ bytes.length) :
    (validateLeapRecords wideTimes (timeSizeOf wideTimes) bytes count index previous).Meets
      fun _ => True := by
  induction count generalizing index previous with
  | zero => exact meets_ok trivial
  | succ count ih =>
    have hnext : (index + 1 + count) * (timeSizeOf wideTimes + 4) ≤ bytes.length := by
      rw [Nat.add_assoc, Nat.add_comm 1]
      exact h
    have hoffset : index * (timeSizeOf wideTimes + 4) + (timeSizeOf wideTimes + 4) ≤ bytes.length := by
      rw [← Nat.succ_mul]
      exact Nat.le_trans (Nat.mul_le_mul_right _ (by omega)) h
    rw [validateLeapRecords, usize_ok (by omega), ok_bind]
    refine (timeAt_meets hlen (by omega)).bind fun transition _ => ?_
    rw [usize_ok (by omega), ok_bind]
    refine (fromBeBytes_meets hlen (by omega)).bind fun correction _ => ?_
    apply meets_guard
    intro _
    exact ih (index + 1) _ hnext

end

theorem checkedUsize_eq_some (h : checkedUsize n = some value) : n < 2 ^ 64 ∧ n = value := by
  unfold checkedUsize at h
  split at h
  · exact ⟨‹_›, Option.some.inj h⟩
  · cases h

/-- The products of the block lengths fit a `usize`. -/
theorem Header.required_products (h : header.required timeSize = some value) :
    header.timecnt * timeSize < 2 ^ 64 ∧ header.typecnt * 6 < 2 ^ 64 ∧ header.leapcnt * (timeSize + 4) < 2 ^ 64 := by
  unfold required at h
  simp only [Option.bind_eq_bind, Option.bind_eq_some_iff] at h
  obtain ⟨_, htime, _, _, _, htype, _, _, _, _, _, hleap, _⟩ := h
  exact ⟨(checkedUsize_eq_some htime).1, (checkedUsize_eq_some htype).1, (checkedUsize_eq_some hleap).1⟩

/-- The parts have the lengths of the header. -/
structure BlockParts.Fits (parts : BlockParts) (header : Header) (timeSize : Nat)
    (bytes : List UInt8) : Prop where
  times : parts.transitionBytes.length = header.timecnt * timeSize
  timeTypes : parts.transitionTypeBytes.length = header.timecnt
  types : parts.typeBytes.length = header.typecnt * 6
  leaps : parts.leapBytes.length = header.leapcnt * (timeSize + 4)
  total : parts.transitionBytes.length + parts.transitionTypeBytes.length +
    parts.typeBytes.length + parts.leapBytes.length + parts.rest.length ≤ bytes.length

theorem splitBlock_meets (h : header.required timeSize = some value) :
    (splitBlock bytes header timeSize).Meets fun parts => parts.Fits header timeSize bytes := by
  obtain ⟨htime, htype, hleap⟩ := required_products h
  unfold splitBlock
  rw [usize_ok htime, ok_bind]
  refine splitAt_meets.bind ?_
  rintro ⟨transitionBytes, bytes1⟩ ⟨h1, h1'⟩
  refine splitAt_meets.bind ?_
  rintro ⟨transitionTypeBytes, bytes2⟩ ⟨h2, h2'⟩
  dsimp only
  rw [usize_ok htype, ok_bind]
  refine splitAt_meets.bind ?_
  rintro ⟨typeBytes, bytes3⟩ ⟨h3, h3'⟩
  refine splitAt_meets.bind ?_
  rintro ⟨abbreviations, bytes4⟩ ⟨h4, h4'⟩
  rw [usize_ok hleap, ok_bind]
  refine splitAt_meets.bind ?_
  rintro ⟨leapBytes, bytes5⟩ ⟨h5, h5'⟩
  refine splitAt_meets.bind ?_
  rintro ⟨standardIndicators, bytes6⟩ ⟨h6, h6'⟩
  refine splitAt_meets.bind ?_
  rintro ⟨utcIndicators, rest⟩ ⟨h7, h7'⟩
  dsimp only at h1 h1' h2 h2' h3 h3' h4 h4' h5 h5' h6 h6' h7 h7'
  exact meets_ok ⟨h1, h2, h3, h5, by dsimp only; omega⟩

/-- The tables of a block fit together. -/
structure TzifBlock.WellFormed (block : TzifBlock) : Prop where
  increasing : block.transitions.Pairwise (· < ·)
  typed : block.transitionTypes.length = block.transitions.length
  types_pos : 0 < block.types.length
  type_lt : ∀ index ∈ block.transitionTypes, index.toNat < block.types.length

/-- **`parse_block`** does not panic, and its blocks are well formed. -/
theorem parseBlock_meets (hlen : bytes.length < 2 ^ 63) (htypes : 0 < header.typecnt) :
    (parseBlock bytes header wideTimes).Meets fun r =>
      r.1.WellFormed ∧ r.2.length ≤ bytes.length := by
  unfold parseBlock
  change Meets (Bind.bind (okOr _ (header.required (timeSizeOf wideTimes))) _) _
  refine meets_okOr.bind fun required hrequired => ?_
  apply meets_guard
  intro _
  refine (splitBlock_meets hrequired).bind fun parts hparts => ?_
  have htimes := hparts.times
  have htypeLen := hparts.types
  have hleaps := hparts.leaps
  have htotal := hparts.total
  apply meets_guard
  intro _
  apply meets_guard
  intro _
  refine (readTransitions_meets (by omega) header.timecnt 0 none
    (Nat.le_of_eq (by rw [Nat.zero_add, htimes]))).bind ?_
  rintro transitions ⟨hcount, hincreasing, -⟩
  apply meets_guard
  intro hindices
  refine (meets_traverse (R := fun _ => True) fun index hindex =>
    readRawType_meets (by omega) ?_).bind ?_
  · have hlt := mem_range.mp hindex
    omega
  rintro rawTypes ⟨hraw, -⟩
  refine (meets_traverse (R := fun _ => True) fun raw _ => resolveType_meets).bind ?_
  rintro types ⟨hresolved, -⟩
  refine (validateLeapRecords_meets (by omega) header.leapcnt 0 none
    (Nat.le_of_eq (by rw [Nat.zero_add, hleaps]))).bind fun _ _ => ?_
  rw [length_range] at hraw
  refine meets_ok ⟨⟨hincreasing, ?_, ?_, ?_⟩, by dsimp only; omega⟩
  · rw [hparts.timeTypes, hcount]
  · dsimp only
    omega
  · intro index hindex
    simp only [any_eq_true, decide_eq_true_eq, not_exists, not_and] at hindices
    have hlt := hindices index hindex
    dsimp only
    omega

/-! ## Zones -/

theorem parseTzifContinuation_meets (hlen : bytes.length < 2 ^ 63) :
    (parseTzifContinuation bytes).Meets fun continuation =>
      ∀ zone, continuation = some zone → zone.WellFormed := by
  unfold parseTzifContinuation
  apply meets_guard
  intro hshort
  rw [index_ok (getElem?_eq_getElem (by omega : 0 < bytes.length)), ok_bind]
  apply meets_guard
  intro _
  rw [inRange_ok (by omega), ok_bind,
    index_ok (getElem?_eq_getElem (by omega : bytes.length - 1 < bytes.length)), ok_bind]
  apply meets_guard
  intro _
  rw [slice_ok (by omega) (by omega), ok_bind]
  apply meets_guard
  intro _
  apply meets_ite
  · intro _
    refine meets_ok ?_
    rintro _ ⟨⟩
  · intro _
    have hrule : ((bytes.drop 1).take (bytes.length - 1 - 1)).length < 2 ^ 63 := by
      rw [length_take, length_drop]
      omega
    refine (parsePosixZone_meets hrule).mapError.bind fun zone hzone => ?_
    refine meets_ok ?_
    rintro _ ⟨⟩
    exact hzone

/-- The lookup in a well-formed rule returns. -/
theorem PosixZone.WellFormed.offsetAt_ok {zone : PosixZone} (h : zone.WellFormed) (t : Int) :
    ∃ info, zone.offsetAt t = .ok info := by
  unfold PosixZone.offsetAt
  cases hd : zone.daylight with
  | none => exact ⟨_, rfl⟩
  | some daylight =>
    obtain ⟨start, «end», hs, he, -⟩ := h.rules hd
    rw [hs, he]
    simp only [Checked.expect, ok_bind]
    split
    all_goals split <;> exact ⟨_, rfl⟩

/-- The tables of a zone fit together, and its continuation is well formed. -/
structure TzifZone.WellFormed (zone : TzifZone) : Prop where
  increasing : zone.transitions.Pairwise (· < ·)
  typed : zone.transitionTypes.length = zone.transitions.length
  types_pos : 0 < zone.types.length
  type_lt : ∀ index ∈ zone.transitionTypes, index.toNat < zone.types.length
  preFirst : zone.preFirstType = (zone.types.findIdx? (!·.isDaylightSaving)).getD 0
  continuation : ∀ rule, zone.continuation = some rule → rule.WellFormed

section

variable {block : TzifBlock} {continuation : Option PosixZone} (hblock : block.WellFormed)
  (hrule : ∀ rule, continuation = some rule → rule.WellFormed)
include hblock hrule

theorem continuationAgrees_meets : (continuationAgrees block continuation).Meets fun _ => True := by
  unfold continuationAgrees
  split
  · rename_i rule type hlast
    have htype := hblock.type_lt type (mem_of_getLast? hlast)
    -- with a last type there is a last transition, since the two tables are as long
    have hne : block.transitions ≠ [] := by
      intro hnil
      have htyped := hblock.typed
      rw [hnil, length_nil, length_eq_zero_iff] at htyped
      rw [htyped] at hlast
      cases hlast
    obtain ⟨info, hinfo⟩ := (hrule rule rfl).offsetAt_ok (block.transitions.getLast hne)
    rw [index_ok (getElem?_eq_getElem htype), ok_bind, getLast?_eq_some_getLast hne]
    simp only [Checked.expect, ok_bind, hinfo]
    exact meets_ok trivial
  · exact meets_ok trivial

theorem TzifZone.fromBlock_meets : (fromBlock block continuation).Meets TzifZone.WellFormed := by
  unfold fromBlock
  refine (continuationAgrees_meets hblock hrule).bind fun agrees _ => ?_
  apply meets_ite
  · intro _
    exact meets_ok ⟨hblock.increasing, hblock.typed, hblock.types_pos, hblock.type_lt, rfl, hrule⟩
  · intro _
    exact meets_error _

end

/-- **`from_tzif`** does not panic, and its zones are well formed. -/
theorem fromTzif_meets (hlen : bytes.length < 2 ^ 63) :
    (TimeZone.fromTzif bytes).Meets fun zone => ∃ tzif, zone = .tzif tzif ∧ tzif.WellFormed := by
  unfold TimeZone.fromTzif
  refine (parse_meets hlen).bind ?_
  rintro ⟨firstHeader, afterFirstHeader⟩ ⟨htypes, hafter⟩
  dsimp only at htypes hafter ⊢
  refine (parseBlock_meets (by omega) htypes).bind ?_
  rintro ⟨firstBlock, afterFirstBlock⟩ ⟨hfirst, hafter'⟩
  dsimp only at hfirst hafter' ⊢
  apply meets_ite
  · -- version 1: the only block
    intro _
    apply meets_guard
    intro _
    have hnone : ∀ rule, (none : Option PosixZone) = some rule → rule.WellFormed := by
      rintro _ ⟨⟩
    refine (fromBlock_meets hfirst hnone).bind fun zone hzone => ?_
    exact meets_ok ⟨zone, rfl, hzone⟩
  intro _
  apply meets_ite
  · -- versions 2 and 3: the second block, and the rule behind it
    intro _
    refine (parse_meets (by omega)).bind ?_
    rintro ⟨secondHeader, afterSecondHeader⟩ ⟨htypes, hafter⟩
    apply meets_guard
    intro _
    refine (parseBlock_meets (by omega) htypes).bind ?_
    rintro ⟨secondBlock, trailing⟩ ⟨hsecond, htrailing⟩
    refine (parseTzifContinuation_meets (by omega)).bind fun continuation hrule => ?_
    refine (fromBlock_meets hsecond hrule).bind fun zone hzone => ?_
    exact meets_ok ⟨zone, rfl, hzone⟩
  · intro _
    exact meets_error _

end Crabc.Time
