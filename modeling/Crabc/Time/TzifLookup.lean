/-
  Crabc.Time.TzifLookup

  `TzifZone::offset_at` for the zones that `from_tzif` accepts.  The binary search
  splits the transition times into those up to the instant and those behind it;
  with the tables well formed, each lookup returns what the file says of the
  instant.
-/

import Crabc.Time.TzifParse

namespace Crabc.Time

open Crabc.Lib Crabc.Lib.Checked List TimeZone Or

/-! ## The search -/

/-- The entries below `low` are up to `t`, and those from `high` on are behind it. -/
structure SplitsAt (times : List Int) (t : Int) (low high : Nat) : Prop where
  low_le : low ≤ high
  high_le : high ≤ times.length
  past : ∀ i value, i < low → times[i]? = some value → value ≤ t
  future : ∀ i value, high ≤ i → times[i]? = some value → t < value

variable {times : List Int}

section

variable (h : times.Pairwise (· < ·))
include h

theorem getElem?_le_of_increasing {i j : Nat} (hij : i ≤ j) {x y : Int}
    (hx : times[i]? = some x) (hy : times[j]? = some y) : x ≤ y := by
  rcases Nat.lt_or_eq_of_le hij with hlt | rfl
  · obtain ⟨hi, rfl⟩ := List.getElem?_eq_some_iff.mp hx
    obtain ⟨hj, rfl⟩ := List.getElem?_eq_some_iff.mp hy
    exact Int.le_of_lt (pairwise_iff_getElem.mp h i j hi hj hlt)
  · rw [hx] at hy
    exact Int.le_of_eq (Option.some.inj hy)

/-- One round keeps the entries below `low` past and those from `high` on future; it ends where the two meet. -/
theorem searchTransitions_spec (t : Int) (rounds low high : Nat)
    (hinv : SplitsAt times t low high) (hrounds : high - low < rounds) :
    ∃ split, searchTransitions times t rounds low high = .ok split ∧ SplitsAt times t split split := by
  induction rounds generalizing low high with
  | zero => omega
  | succ rounds ih =>
    rw [searchTransitions]
    have hle := hinv.low_le
    have hlen := hinv.high_le
    by_cases hlt : low < high
    · rw [if_pos hlt]
      have hmiddle : low + (high - low) / 2 < times.length := by omega
      have hget := getElem?_eq_getElem hmiddle
      dsimp only
      rw [index_ok hget, ok_bind]
      by_cases hvalue : times[low + (high - low) / 2] ≤ t
      · -- the middle is past, and with it all before
        rw [if_pos hvalue]
        apply ih
        · refine ⟨by omega, hlen, fun i value hi hi' => ?_, hinv.future⟩
          exact Int.le_trans (getElem?_le_of_increasing h (by omega) hi' hget) hvalue
        · omega
      · -- the middle is future, and with it all behind
        rw [if_neg hvalue]
        apply ih
        · refine ⟨by omega, by omega, hinv.past, fun i value hi hi' => ?_⟩
          have hmid := getElem?_le_of_increasing h hi hget hi'
          omega
        · omega
    · rw [if_neg hlt]
      have hmeet : high = low := by omega
      subst hmeet
      exact ⟨high, rfl, hinv⟩

/-- **`last_transition_at_or_before`** is the position of the greatest entry up to
    `t`, and none when all entries are behind it. -/
theorem lastTransitionAtOrBefore_spec (t : Int) :
    (∃ i value, lastTransitionAtOrBefore times t = .ok (some i) ∧ times[i]? = some value ∧
        value ≤ t ∧ ∀ other ∈ times, other ≤ t → other ≤ value) ∨
      (lastTransitionAtOrBefore times t = .ok none ∧ ∀ value ∈ times, t < value) := by
  have hstart : SplitsAt times t 0 times.length := by
    refine ⟨Nat.zero_le _, Nat.le_refl _, nofun, fun i value hi hget => ?_⟩
    rw [getElem?_eq_none hi] at hget
    cases hget
  obtain ⟨split, hsearch, hsplit⟩ := searchTransitions_spec h t (times.length + 1) 0 times.length
    hstart (by omega)
  unfold lastTransitionAtOrBefore
  rw [hsearch, ok_bind]
  by_cases hzero : split = 0
  · subst hzero
    refine inr ⟨rfl, fun value hmem => ?_⟩
    obtain ⟨i, hi⟩ := mem_iff_getElem?.mp hmem
    exact hsplit.future i value (Nat.zero_le _) hi
  · have hlast : split - 1 < times.length := by
      have hle := hsplit.high_le
      omega
    have hget := getElem?_eq_getElem hlast
    refine inl ⟨split - 1, times[split - 1], by rw [if_neg hzero]; rfl, hget,
      hsplit.past _ _ (by omega) hget, fun other hmem hother => ?_⟩
    obtain ⟨i, hi⟩ := mem_iff_getElem?.mp hmem
    by_cases hlt : i < split
    · exact getElem?_le_of_increasing h (by omega) hi hget
    · have hfuture := hsplit.future i other (by omega) hi
      omega

end

/-! ## The lookup -/

/-- The instant is behind the last transition, or there is none. -/
def TzifZone.PastAll (zone : TzifZone) (t : Int) : Prop :=
  ∀ last, zone.transitions.getLast? = some last → last < t

/-- The answer is the type of the transition at `i`. -/
def TzifZone.TypeAt (zone : TzifZone) (i : Nat) (info : OffsetInfo) : Prop :=
  ∃ (index : UInt8) (type : ZoneType), zone.transitionTypes[i]? = some index ∧
    zone.types[index.toNat]? = some type ∧ info = PosixZone.infoFor type

/-- The answer is the first type that is not daylight time, or else the first. -/
def TzifZone.FirstType (zone : TzifZone) (info : OffsetInfo) : Prop :=
  ∃ type, ((zone.types.find? (!·.isDaylightSaving)).or zone.types[0]?) = some type ∧ info = PosixZone.infoFor type

/-- What the transitions of a file say of an instant: the type of the greatest
    one up to it, and before all of them the first type. -/
structure TzifZone.ExplicitAnswer (zone : TzifZone) (t : Int) (info : OffsetInfo) : Prop where
  typed : ∀ (i : Nat) (value : Int), zone.transitions[i]? = some value → value ≤ t →
    (∀ other ∈ zone.transitions, other ≤ t → other ≤ value) → zone.TypeAt i info
  before : (∀ value ∈ zone.transitions, t < value) → zone.FirstType info

/-- What a file says of an instant: behind all transitions what its rule says, if
    it has one, and else what the transitions say. -/
structure TzifZone.Answers (zone : TzifZone) (t : Int) (info : OffsetInfo) : Prop where
  continued : ∀ rule, zone.continuation = some rule → zone.PastAll t → rule.offsetAt t = .ok info
  explicit : zone.continuation = none ∨ ¬ zone.PastAll t → zone.ExplicitAnswer t info

theorem eq_of_increasing (h : times.Pairwise (· < ·)) {i j : Nat} {value : Int} (hi : times[i]? = some value)
    (hj : times[j]? = some value) : i = j := by
  obtain ⟨hi, hvi⟩ := List.getElem?_eq_some_iff.mp hi
  obtain ⟨hj, hvj⟩ := List.getElem?_eq_some_iff.mp hj
  have hlt := pairwise_iff_getElem.mp h
  rcases Nat.lt_trichotomy i j with hij | hij | hij
  · have hcontra := hlt i j hi hj hij
    omega
  · exact hij
  · have hcontra := hlt j i hj hi hij
    omega

variable {zone : TzifZone}

/-- The type before all transitions. -/
theorem TzifZone.WellFormed.preFirstType_get (h : zone.WellFormed) :
    ∃ type, zone.types[zone.preFirstType]? = some type ∧
      ((zone.types.find? (!·.isDaylightSaving)).or zone.types[0]?) = some type := by
  rw [h.preFirst]
  cases hfind : zone.types.findIdx? (!·.isDaylightSaving) with
  | none =>
    have hnone : zone.types.find? (!·.isDaylightSaving) = none :=
      find?_eq_none.mpr fun type hmem => by
        simpa using findIdx?_eq_none_iff.mp hfind type hmem
    rw [hnone]
    exact ⟨_, getElem?_eq_getElem h.types_pos, getElem?_eq_getElem h.types_pos⟩
  | some i =>
    obtain ⟨hlt, hp, hmin⟩ := findIdx?_eq_some_iff_getElem.mp hfind
    refine ⟨zone.types[i], getElem?_eq_getElem hlt, ?_⟩
    have hsome : zone.types.find? (!·.isDaylightSaving) = some zone.types[i] :=
      find?_eq_some_iff_getElem.mpr ⟨hp, i, hlt, rfl, fun j hj => by simpa using hmin j hj⟩
    rw [hsome]
    rfl

/-- The explicit part of the lookup. -/
theorem TzifZone.WellFormed.explicitOffsetAt_ok (h : zone.WellFormed) {t : Int} :
    ∃ info, zone.explicitOffsetAt t = .ok info ∧ zone.ExplicitAnswer t info := by
  unfold explicitOffsetAt
  rcases lastTransitionAtOrBefore_spec h.increasing t with
    ⟨i, value, hfound, hget, hle, hmax⟩ | ⟨hfound, hall⟩
  · -- a transition was found: its type is in range
    have hmem : value ∈ zone.transitions := mem_of_getElem? hget
    obtain ⟨hi, -⟩ := List.getElem?_eq_some_iff.mp hget
    have htyped : i < zone.transitionTypes.length := by rw [h.typed]; exact hi
    have hindex := List.getElem?_eq_getElem htyped
    have htype := List.getElem?_eq_getElem (h.type_lt _ (mem_of_getElem? hindex))
    rw [hfound, ok_bind, typeIndex, index_ok hindex, ok_bind]
    simp only [pure_eq, ok_bind, index_ok htype]
    refine ⟨_, rfl, fun j other hj hother hmaxOther => ?_, fun hnone => ?_⟩
    · have heq : other = value := by
        have h1 := hmax other (mem_of_getElem? hj) hother
        have h2 := hmaxOther value hmem hle
        omega
      rw [heq] at hj
      rw [eq_of_increasing h.increasing hj hget]
      exact ⟨_, _, hindex, htype, rfl⟩
    · have hcontra := hnone value hmem
      omega
  · obtain ⟨type, htype, hfirst⟩ := h.preFirstType_get
    rw [hfound, ok_bind, typeIndex]
    simp only [pure_eq, ok_bind, index_ok htype]
    refine ⟨_, rfl, fun j other hj hother _ => ?_, fun _ => ⟨type, hfirst, rfl⟩⟩
    have hcontra := hall other (mem_of_getElem? hj)
    omega

/-- Which of the two parts answers. -/
theorem TzifZone.offsetAt_cases {t : Int} :
    (∃ rule, zone.continuation = some rule ∧ zone.PastAll t ∧ zone.offsetAt t = rule.offsetAt t) ∨
      ((zone.continuation = none ∨ ¬ zone.PastAll t) ∧ zone.offsetAt t = zone.explicitOffsetAt t) := by
  unfold offsetAt PastAll
  cases hrule : zone.continuation with
  | none => cases zone.transitions.getLast? <;> exact inr ⟨inl rfl, rfl⟩
  | some rule =>
    cases hlast : zone.transitions.getLast? with
    | none => exact inl ⟨rule, rfl, nofun, rfl⟩
    | some last =>
      by_cases hlt : t > last
      · refine inl ⟨rule, rfl, ?_, if_pos hlt⟩
        rintro _ ⟨⟩
        exact hlt
      · exact inr ⟨inr fun hpast => hlt (hpast last rfl), if_neg hlt⟩

/-- **TZif lookup.**  `from_tzif` panics on no byte string, and every lookup in a
    zone it accepts returns what the file says of the instant. -/
theorem fromTzif_offsetAt (input : ByteSlice) : fromTzif input.bytes ≠ .panic ∧
      ∀ zone, fromTzif input.bytes = .ok zone → ∃ tzif, zone = .tzif tzif ∧
          ∀ t, ∃ info, zone.offsetAt t = .ok info ∧ tzif.Answers t info := by
  have hmeets := fromTzif_meets input.length_lt
  refine ⟨hmeets.ne_panic, fun zone hzone => ?_⟩
  obtain ⟨tzif, rfl, hwf⟩ := hmeets.of_ok hzone
  refine ⟨tzif, rfl, fun t => ?_⟩
  change ∃ info, tzif.offsetAt t = .ok info ∧ tzif.Answers t info
  rcases tzif.offsetAt_cases with ⟨rule, hrule, hpast, heq⟩ | ⟨hwhen, heq⟩
  · obtain ⟨info, hinfo⟩ := (hwf.continuation rule hrule).offsetAt_ok t
    refine ⟨info, by rw [heq, hinfo], fun rule' hrule' _ => ?_, fun hwhen => ?_⟩
    · rw [hrule] at hrule'
      cases hrule'
      exact hinfo
    · rw [hrule] at hwhen
      exact absurd hpast (hwhen.resolve_left nofun)
  · obtain ⟨info, hinfo, hexplicit⟩ := hwf.explicitOffsetAt_ok
    refine ⟨info, by rw [heq, hinfo], fun rule hrule hpast => ?_, fun _ => hexplicit⟩
    rw [hrule] at hwhen
    exact absurd hpast (hwhen.resolve_left nofun)

/-- A version 1 file with one transition at 256 from an hour east to an hour west. -/
def oneTransition : ByteSlice :=
  ⟨[84, 90, 105, 102, 0, 0, 0, 0, 0, 0, 0, 0, 0, 0, 0, 0, 0, 0, 0, 0,
    0, 0, 0, 0, 0, 0, 0, 0, 0, 0, 0, 0, 0, 0, 0, 1, 0, 0, 0, 2, 0, 0, 0, 4,
    0, 0, 1, 0, 1, 0, 0, 14, 16, 1, 0, 255, 255, 241, 240, 0, 2, 65, 0, 66, 0], by decide⟩

/-- The file is accepted, and at 256 its second type answers. -/
theorem fromTzif_oneTransition : (∃ zone, fromTzif oneTransition.bytes = .ok zone ∧
      zone.offsetAt 256 = .ok ⟨⟨-3600, by decide, by decide⟩, false, [66]⟩) ∧
      fromTzif oneTransition.bytes ≠ .panic :=
  ⟨⟨_, rfl, by decide +kernel⟩, (fromTzif_offsetAt oneTransition).1⟩

end Crabc.Time
