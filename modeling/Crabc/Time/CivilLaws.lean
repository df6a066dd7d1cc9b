/-
  Crabc.Time.CivilLaws

  The conversions of `civil_time.rs` against the Gregorian calendar.  Both
  directions are compared with the day numbers of the calendar library: the
  inverse direction computes the seconds of a date, and the forward direction
  finds a date with the given seconds.  Since seconds determine the date, the
  two are inverse.
-/

import Crabc.Lib.Gregorian
import Crabc.Time.Civil

namespace Crabc.Time

open Crabc.Lib CalendarTime List Ordering

open Date (number yearDay)

/-! ## From a date to seconds -/

variable {y : Int}

theorem isLeapYear_eq : isLeapYear y = isLeap y := rfl

theorem bit_true : bit true = 1 := rfl

theorem bit_false : bit false = 0 := rfl

theorem bit_isLeap : bit (isLeap y) = leapDay y := rfl

variable {r n : Int}

/-- A flag that holds in leap years only counts their extra day. -/
theorem eq_isLeap {b : Bool} (h : b = true ↔ leapDay y = 1) : b = isLeap y := by
  unfold leapDay at h
  cases hb : isLeap y <;> cases b <;> simp_all

/-- The fast path of `year_to_seconds`: 1902 to 2038 have no missing leap day. -/
theorem yearToSeconds_fast (h : 1902 ≤ y) (h' : y ≤ 2038) :
    yearToSeconds (y - 1900) = (86400 * (daysBeforeYear y - daysBeforeYear 1970), isLeap y) := by
  have hl := leapDay_cases y
  have hleap : ((y - 1900 - 68) % 4 == 0) = isLeap y := by
    apply eq_isLeap
    rw [beq_iff_eq]
    omega
  rw [yearToSeconds, if_pos (by omega), hleap]
  simp only [bit_isLeap, daysBeforeYear]
  congr 1
  omega

theorem splitCentury_spec (h : 0 ≤ r) (h' : r < 400) :
    ∃ k s, splitCentury r = (k, s) ∧ r = 100 * k + s ∧ 0 ≤ k ∧ k ≤ 3 ∧ 0 ≤ s ∧ s < 100 := by
  unfold splitCentury
  split_ifs
  all_goals exact ⟨_, _, rfl, by omega, by omega, by omega, by omega, by omega⟩

/-- The general path counts quarters, centuries and cycles of 400 years. -/
theorem yearToSeconds_general (h : ¬ (1902 ≤ y ∧ y ≤ 2038)) :
    yearToSeconds (y - 1900) = (86400 * (daysBeforeYear y - daysBeforeYear 1970), isLeap y) := by
  have hl := leapDay_cases y
  obtain ⟨q, r, hr, hr', rfl⟩ : ∃ q r : Int, 0 ≤ r ∧ r < 400 ∧ y = 2000 + 400 * q + r :=
    ⟨(y - 2000) / 400, (y - 2000) % 400, by omega, by omega, by omega⟩
  have hcycles : (2000 + 400 * q + r - 1900 - 100) / 400 = q := by omega
  have hrem : (2000 + 400 * q + r - 1900 - 100) % 400 = r := by omega
  rw [yearToSeconds, if_neg (by omega)]
  simp only [hcycles, hrem]
  by_cases hr0 : r = 0
  · -- a multiple of 400
    subst hr0
    have hleap : true = isLeap (2000 + 400 * q + 0) := by
      apply eq_isLeap
      simp only [true_iff]
      omega
    rw [if_pos rfl, ← hleap]
    simp only [bit_true, daysBeforeYear]
    congr 1
    omega
  rw [if_neg hr0]
  obtain ⟨k, s, hsplit, rfl, hk, hk', hs, hs'⟩ := splitCentury_spec hr hr'
  rw [hsplit]
  by_cases hs0 : s = 0
  · -- another century
    subst hs0
    have hleap : false = isLeap (2000 + 400 * q + (100 * k + 0)) := by
      apply eq_isLeap
      simp only [Bool.false_eq_true, false_iff]
      omega
    rw [if_pos rfl, ← hleap]
    simp only [bit_false, daysBeforeYear]
    congr 1
    omega
  · have hleap : (s % 4 == 0) = isLeap (2000 + 400 * q + (100 * k + s)) := by
      apply eq_isLeap
      rw [beq_iff_eq]
      omega
    rw [if_neg hs0]
    rw [hleap, bit_isLeap]
    simp only [daysBeforeYear]
    congr 1
    omega

/-- **`year_to_seconds`** gives the first second of a year and its leap flag. -/
theorem yearToSeconds_eq (y : Int) :
    yearToSeconds (y - 1900) = (86400 * (daysBeforeYear y - daysBeforeYear 1970), isLeap y) := by
  by_cases h : 1902 ≤ y ∧ y ≤ 2038
  · exact yearToSeconds_fast h.1 h.2
  · exact yearToSeconds_general h

theorem daysInMonth_eq (y : Int) (m : Nat) : (daysInMonth y m : Int) = monthLength y m := by
  unfold daysInMonth monthLength leapDay
  rw [isLeapYear_eq]
  split <;> simp
  split <;> rfl

/-- The month table with the leap day from March on. -/
theorem monthDaysBefore_eq (y : Int) {m : Nat} (h : 1 ≤ m) (h' : m ≤ 12) :
    monthDaysBefore.getD (m - 1) 0 + bit (isLeap y && decide (m ≥ 3)) = daysBeforeMonth y m := by
  unfold bit daysBeforeMonth leapDay
  cases isLeap y <;> interval_cases m <;> rfl

/-- **`calendar_seconds`** gives the seconds of a valid instant. -/
theorem calendarSeconds_eq (c : Civil) :
    calendarSeconds c.year c.month c.day c.hour c.minute c.second = i64TryFrom c.seconds := by
  have hm := c.month_pos
  have hm' := c.month_le
  have hd := c.day_pos
  have hd' := c.day_le
  have hh := c.hour_lt
  have hmi := c.minute_lt
  have hs := c.second_lt
  rw [← daysInMonth_eq] at hd'
  rw [calendarSeconds, if_neg (by omega), yearToSeconds_eq]
  simp only [monthDaysBefore_eq c.year hm hm']
  congr 1
  unfold Civil.seconds number yearDay
  omega

/-! ## From seconds to a date -/

/-- The capped quotient stays below its limit and leaves a rest that only the
    last block lets grow beyond the divisor. -/
theorem cappedDiv_spec {d limit : Int} (hn : 0 ≤ n) (hd : 0 < d) (hlimit : 1 ≤ limit)
    (h : n < d * (limit + 1)) : 0 ≤ cappedDiv n d limit ∧ cappedDiv n d limit ≤ limit - 1 ∧
      cappedDiv n d limit * d ≤ n ∧
      (n < cappedDiv n d limit * d + d ∨ cappedDiv n d limit = limit - 1) := by
  have hq0 : 0 ≤ n / d := Int.ediv_nonneg hn hd.le
  have hq : n / d < limit + 1 := Int.ediv_lt_of_lt_mul hd (by rw [Int.mul_comm]; exact h)
  have hmul : n / d * d ≤ n := Int.ediv_mul_le n hd.ne'
  have hlt : n < n / d * d + d := by
    have h1 := Int.lt_ediv_add_one_mul_self n hd
    rw [Int.add_mul, Int.one_mul] at h1
    exact h1
  unfold cappedDiv
  split_ifs with hlim
  · have hsub : (n / d - 1) * d = n / d * d - d := by rw [Int.sub_mul, Int.one_mul]
    refine ⟨by omega, by omega, by omega, Or.inr (by omega)⟩
  · exact ⟨hq0, by omega, hmul, Or.inl hlt⟩

/-- The year that starts on 1 March and the days passed in it, from the days
    since 1 March 2000: what the four capped divisions find. -/
theorem marchYear_spec {days rem0 c100 rem1 c4 rem2 years rem3 : Int} (hrem0 : rem0 = days % daysPer400Years)
    (hc100 : c100 = cappedDiv rem0 daysPer100Years 4) (hrem1 : rem1 = rem0 - c100 * daysPer100Years)
    (hc4 : c4 = cappedDiv rem1 daysPer4Years 25) (hrem2 : rem2 = rem1 - c4 * daysPer4Years)
    (hyears : years = cappedDiv rem2 365 4) (hrem3 : rem3 = rem2 - years * 365)
    (hy : y = years + 4 * c4 + 100 * c100 + 400 * (days / daysPer400Years) + 2000) :
    days + daysBeforeYear 2000 + 60 = daysBeforeYear y + 59 + leapDay y + rem3 ∧
      0 ≤ rem3 ∧ rem3 < 365 + leapDay (y + 1) ∧
      (years == 0 && (c4 != 0 || c100 == 0)) = isLeap y := by
  have h400 : daysPer400Years = 146097 := rfl
  have h100 : daysPer100Years = 36524 := rfl
  have h4 : daysPer4Years = 1461 := rfl
  rw [h400] at hrem0 hy
  rw [h100] at hc100 hrem1
  rw [h4] at hc4 hrem2
  have hs100 := @cappedDiv_spec rem0 36524 4 (by omega) (by omega) (by omega) (by omega)
  have hs4 := @cappedDiv_spec rem1 1461 25 (by omega) (by omega) (by omega) (by omega)
  have hs1 := @cappedDiv_spec rem2 365 4 (by omega) (by omega) (by omega) (by omega)
  refine ⟨?_, by omega, ?_, ?_⟩
  · -- the year after `y` has passed exactly the leap days the cycles count
    have hq100 : y / 100 = 20 + c100 + 4 * (days / 146097) := by omega
    have hq400 : y / 400 = 5 + days / 146097 := by omega
    have hnext : daysBeforeYear (y + 1) = 365 * y + y / 4 - y / 100 + y / 400 := by
      unfold daysBeforeYear
      rw [Int.add_sub_cancel]
    have h2000 : daysBeforeYear 2000 = 730119 := by decide
    have hstart := daysBeforeYear_succ y
    omega
  · -- only the last year of a cycle has a 366th day
    have hl := leapDay_cases (y + 1)
    omega
  · have hl := leapDay_cases y
    apply eq_isLeap
    rw [Bool.and_eq_true, Bool.or_eq_true, beq_iff_eq, bne_iff_ne, beq_iff_eq]
    omega

/-- The month loop stops in the month that contains the day. -/
theorem monthScan_spec (months : List Int) (index : Nat) (h : 0 ≤ r) (hsum : r < months.sum) :
    ∃ i, i < months.length ∧ monthScan months index r = (index + i, r - (months.take i).sum) ∧
      (months.take i).sum ≤ r ∧ r < (months.take (i + 1)).sum := by
  induction months generalizing index r with
  | nil =>
    rw [sum_nil] at hsum
    omega
  | cons days rest ih =>
    rw [sum_cons] at hsum
    rw [monthScan]
    by_cases hle : days ≤ r
    · rw [if_pos hle]
      obtain ⟨i, hi, hscan, hlow, hhigh⟩ := ih (index + 1) (r := r - days) (by omega) (by omega)
      refine ⟨i + 1, by simpa using hi, ?_, ?_, ?_⟩
      · rw [hscan, take_succ_cons, sum_cons, Prod.mk.injEq]
        omega
      all_goals
        rw [take_succ_cons, sum_cons]
        omega
    · rw [if_neg hle]
      refine ⟨0, by simp, by simp, by simpa using h, by simpa using hle⟩

theorem marchBasedDays_march (y : Int) {i : Nat} (h : i < 10) :
    daysBeforeMonth y (i + 3) = 59 + leapDay y + (marchBasedDays.take i).sum ∧
      monthLength y (i + 3) = (marchBasedDays.take (i + 1)).sum - (marchBasedDays.take i).sum := by
  interval_cases i <;> simp [daysBeforeMonth, monthLength, marchBasedDays] <;> omega

/-- What the source's month, day and day of the year stand for: the date that is
    `r` days after 1 March of year `y`. -/
structure MarchDate (y r : Int) (scan : Nat × Int) (d : Date) : Prop where
  year : d.year = if (scan.1 : Int) + 2 ≥ 12 then y + 2000 + 1 else y + 2000
  month : (d.month : Int) = (if (scan.1 : Int) + 2 ≥ 12 then (scan.1 : Int) + 2 - 12 else scan.1 + 2) + 1
  day : (d.day : Int) = scan.2 + 1
  number : d.number = daysBeforeYear (y + 2000) + 59 + leapDay (y + 2000) + r
  yearDay : d.yearDay = if r + 59 ≥ 365 then r + 59 - 365 else r + 59 + leapDay (y + 2000)

theorem monthScan_date (h : 0 ≤ r) (hr : r < 365 + leapDay (y + 2000 + 1)) :
    ∃ d, MarchDate y r (monthScan marchBasedDays 0 r) d := by
  have hl := leapDay_bounds (y + 2000 + 1)
  have hnext := daysBeforeYear_succ (y + 2000)
  have hsum : marchBasedDays.sum = 366 := by decide
  have hlen : marchBasedDays.length = 12 := rfl
  have h10 : (marchBasedDays.take 10).sum = 306 := by decide
  have h11 : (marchBasedDays.take 11).sum = 337 := by decide
  obtain ⟨i, hi, hscan, hlow, hhigh⟩ := monthScan_spec marchBasedDays 0 h (by omega)
  rw [hscan]
  rcases (by omega : i < 10 ∨ i = 10 ∨ i = 11) with hi | rfl | rfl
  · -- March to December
    obtain ⟨hbefore, hlength⟩ := marchBasedDays_march (y + 2000) hi
    have hle : r < 306 := by interval_cases i <;> simp [marchBasedDays] at hhigh <;> omega
    refine ⟨⟨y + 2000, i + 3, (r - (marchBasedDays.take i).sum).toNat + 1, by omega, by omega,
      by omega, by omega⟩, ?_, ?_, ?_, ?_, ?_⟩
    · rw [if_neg (by omega)]
    all_goals
      simp only [Nat.zero_add, number, yearDay]
      omega
  · -- January
    simp only [Nat.reduceAdd, h11] at hhigh
    refine ⟨⟨y + 2000 + 1, 1, (r - 306).toNat + 1, by omega, by omega, by omega, ?_⟩, rfl, rfl, ?_, ?_, ?_⟩
    all_goals
      simp only [monthLength, h10, number, yearDay, daysBeforeMonth]
      omega
  · -- February
    refine ⟨⟨y + 2000 + 1, 2, (r - 337).toNat + 1, by omega, by omega, by omega, ?_⟩, rfl, rfl, ?_, ?_, ?_⟩
    all_goals
      simp only [monthLength, h11, number, yearDay, daysBeforeMonth]
      omega

theorem asU8_eq (h : 0 ≤ n) (h' : n < 256) : asU8 n = n.toNat := by
  unfold asU8
  omega

theorem asU16_eq (h : 0 ≤ n) (h' : n < 65536) : asU16 n = n.toNat := by
  unfold asU16
  omega

/-- The record of an instant, with its weekday and its day of the year. -/
def CalendarTime.ofCivil (c : Civil) : CalendarTime :=
  { year := c.year
    month := c.month
    day := c.day
    hour := c.hour
    minute := c.minute
    second := c.second
    weekday := ((4 + (c.number - daysBeforeYear 1970)) % 7).toNat
    yearday := c.yearDay.toNat }

/-- **`calendar_from_unix_seconds`** finds the instant with the given seconds,
    and fails when its year is out of range. -/
theorem calendarFromUnixSeconds_spec {t : Int}
    (h : ¬ (t < i32Min * 31622400 ∨ t > i32Max * 31622400)) : ∃ c : Civil, c.seconds = t ∧ calendarFromUnixSeconds t =
        if c.year - 1900 < i32Min ∨ c.year - 1900 > i32Max then .error .range
        else .ok (.ofCivil c) := by
  rw [calendarFromUnixSeconds, if_neg h]
  dsimp only
  generalize hdays : (t - leapochSeconds) / 86400 = days
  generalize hclock : (t - leapochSeconds) % 86400 = clock
  generalize hrem0 : days % daysPer400Years = rem0
  generalize hc100 : cappedDiv rem0 daysPer100Years 4 = c100
  generalize hrem1 : rem0 - c100 * daysPer100Years = rem1
  generalize hc4 : cappedDiv rem1 daysPer4Years 25 = c4
  generalize hrem2 : rem1 - c4 * daysPer4Years = rem2
  generalize hyears : cappedDiv rem2 365 4 = years
  generalize hrem3 : rem2 - years * 365 = rem3
  generalize hy : years + 4 * c4 + 100 * c100 + 400 * (days / daysPer400Years) = y
  obtain ⟨hnumber, hpos, hlt, hleap⟩ := marchYear_spec hrem0.symm hc100.symm hrem1.symm hc4.symm
    hrem2.symm hyears.symm hrem3.symm (y := y + 2000) (by rw [← hy])
  obtain ⟨d, hd⟩ := monthScan_date hpos hlt
  generalize hscan : monthScan marchBasedDays 0 rem3 = scan at hd
  have hleapoch : leapochSeconds = 86400 * 11017 := by decide
  have hepoch : daysBeforeYear 2000 + 60 = daysBeforeYear 1970 + 11017 := by decide
  have hdn := hd.number
  refine ⟨⟨d, (clock / 3600).toNat, (clock / 60 % 60).toNat, (clock % 60).toNat,
    by omega, by omega, by omega⟩, ?_, ?_⟩
  · simp only [Civil.seconds]
    omega
  -- the record's fields one by one; the casts are to types their values fit
  rw [← hd.year, hleap, bit_isLeap]
  refine if_congr Iff.rfl rfl ?_
  have hm' := d.month_le
  have hday := d.day_pos
  have hday' := monthLength_le d.year d.month
  have hdle := d.day_le
  have hyd := d.yearDay_bounds
  have hl := leapDay_bounds d.year
  have hmonth : (if (scan.1 : Int) + 2 ≥ 12 then (scan.1 : Int) + 2 - 12 else scan.1 + 2) =
      d.month - 1 := by rw [hd.month, Int.add_sub_cancel]
  have hdayOf : scan.2 = d.day - 1 := by rw [hd.day, Int.add_sub_cancel]
  have hyearday : (if rem3 + 31 + 28 + leapDay (y + 2000) ≥ 365 + leapDay (y + 2000) then
      rem3 + 31 + 28 + leapDay (y + 2000) - (365 + leapDay (y + 2000))
      else rem3 + 31 + 28 + leapDay (y + 2000)) = d.yearDay := by
    rw [hd.yearDay]
    split_ifs <;> omega
  rw [hmonth, hdayOf, hyearday]
  simp only [ofCivil, Except.ok.injEq, mk.injEq, true_and]
  refine ⟨?_, ?_, ?_, ?_, ?_, ?_, ?_⟩
  case refine_7 => exact asU16_eq (by omega) (by omega)
  case refine_3 | refine_4 | refine_5 => exact asU8_eq (by omega) (by omega)
  all_goals
    rw [asU8_eq (by omega) (by omega)]
    omega

/-- Every integer is the seconds of an instant: the conversion covers one cycle of 400
    years, and the others are shifts of it. -/
theorem exists_civil (t : Int) : ∃ c : Civil, c.seconds = t := by
  have hmin : i32Min * 31622400 ≤ 0 := by decide
  have hmax : 86400 * 146097 ≤ i32Max * 31622400 := by decide
  obtain ⟨c, hc, _⟩ := calendarFromUnixSeconds_spec (t := t % (86400 * 146097)) (by omega)
  refine ⟨c.addCycles (t / (86400 * 146097)), ?_⟩
  rw [Civil.seconds_addCycles, hc]
  omega

/-! ## The two directions together -/

/-- Every calendar value comes from an instant. -/
theorem fromUnixSeconds_ok {t : Int} {c : CalendarTime} (h : fromUnixSeconds t = .ok c) :
    ∃ i : Civil, i.seconds = t ∧ c = .ofCivil i ∧ -2 ^ 63 ≤ t ∧ t < 2 ^ 63 := by
  unfold fromUnixSeconds at h
  by_cases hguard : t < i32Min * 31622400 ∨ t > i32Max * 31622400
  · rw [calendarFromUnixSeconds, if_pos hguard] at h
    cases h
  obtain ⟨i, hi, hspec⟩ := calendarFromUnixSeconds_spec hguard
  rw [hspec] at h
  split_ifs at h
  cases h
  unfold i32Min i32Max at hguard
  exact ⟨i, hi, rfl, by omega, by omega⟩

/-- The seconds of a date whose year fits are inside the bounds that `calendar_from_unix_seconds` checks first. -/
theorem seconds_inside (i : Civil) (h : ¬ (i.year - 1900 < i32Min ∨ i.year - 1900 > i32Max)) :
    ¬ (i.seconds < i32Min * 31622400 ∨ i.seconds > i32Max * 31622400) := by
  have hyd := i.yearDay_bounds
  have hl := leapDay_bounds i.year
  have hh := i.hour_lt
  have hm := i.minute_lt
  have hs := i.second_lt
  have h1970 : daysBeforeYear 1970 = 719162 := by decide
  unfold i32Min i32Max at *
  simp only [Civil.seconds, number, daysBeforeYear] at h1970 ⊢
  omega

/-- Instants with the same seconds have the same fields. -/
theorem fields_eq_of_seconds {i j : Civil} (h : i.seconds = j.seconds) :
    i.year = j.year ∧ i.month = j.month ∧ i.day = j.day ∧ i.hour = j.hour ∧
      i.minute = j.minute ∧ i.second = j.second := by
  have hfields := Civil.compare_seconds i j
  rw [compare_eq_iff_eq.mpr h] at hfields
  simpa only [Eq.comm (a := eq), then_eq_eq, compare_eq_iff_eq] using hfields

/-- Instants with the same seconds have the same record. -/
theorem ofCivil_eq_of_seconds {i j : Civil} (h : i.seconds = j.seconds) : ofCivil i = .ofCivil j := by
  obtain ⟨hy, hmo, hd, hh, hmi, hs⟩ := fields_eq_of_seconds h
  have hyearDay : i.yearDay = j.yearDay := by rw [yearDay, yearDay, hy, hmo, hd]
  rw [ofCivil, ofCivil, number, number, hyearDay, hy, hmo, hd, hh, hmi, hs]

/-- The conversion of an instant gives its record, or fails when its year is out of range. -/
theorem calendarFromUnixSeconds_civil {c : Civil} : calendarFromUnixSeconds c.seconds =
      if c.year - 1900 < i32Min ∨ c.year - 1900 > i32Max then .error .range
      else .ok (.ofCivil c) := by
  by_cases hguard : c.seconds < i32Min * 31622400 ∨ c.seconds > i32Max * 31622400
  · have hyear : c.year - 1900 < i32Min ∨ c.year - 1900 > i32Max := by
      by_contra hyear
      exact seconds_inside c hyear hguard
    rw [calendarFromUnixSeconds, if_pos hguard, if_pos hyear]
  · obtain ⟨i, hi, hspec⟩ := calendarFromUnixSeconds_spec hguard
    rw [hspec, ofCivil_eq_of_seconds hi, (fields_eq_of_seconds hi).1]

/-- The derived order of the records is the order of the seconds. -/
theorem compare_ofCivil {i j : Civil} : compare (ofCivil i) (.ofCivil j) = compare i.seconds j.seconds := by
  have hfields := Civil.compare_seconds i j
  -- the derived fields decide nothing: equal instants have equal ones
  have hrest : compare i.seconds j.seconds = .eq → (compare (ofCivil i).weekday (ofCivil j).weekday).then
        (compare (ofCivil i).yearday (ofCivil j).yearday) = .eq := by
    intro h
    obtain ⟨hy, hm, hd, -⟩ := fields_eq_of_seconds (compare_eq_iff_eq.mp h)
    simp [ofCivil, number, yearDay, hy, hm, hd]
  have hchain : compare (ofCivil i) (.ofCivil j) = (compare i.seconds j.seconds).then
        ((compare (ofCivil i).weekday (ofCivil j).weekday).then
          (compare (ofCivil i).yearday (ofCivil j).yearday)) := by
    rw [hfields]
    simp only [then_assoc]
    rfl
  rw [hchain]
  cases h : compare i.seconds j.seconds with
  | lt => rfl
  | gt => rfl
  | eq => exact hrest h

/-- `from_ymdhms` accepts every valid date whose year fits. -/
theorem fromYmdhms_ok (i : Civil) (h : ¬ (i.year - 1900 < i32Min ∨ i.year - 1900 > i32Max)) :
    ∃ j : Civil, j.seconds = i.seconds ∧
      fromYmdhms i.year i.month i.day i.hour i.minute i.second = .ok (.ofCivil j) := by
  have hm := i.month_pos
  have hm' := i.month_le
  have hd := i.day_pos
  have hd' := i.day_le
  have hh := i.hour_lt
  have hmi := i.minute_lt
  have hs := i.second_lt
  rw [← daysInMonth_eq] at hd'
  have hinside := seconds_inside i h
  obtain ⟨j, hj, hspec⟩ := calendarFromUnixSeconds_spec hinside
  obtain ⟨hy, hmo, hda, hho, hmn, hse⟩ := fields_eq_of_seconds hj
  have hi64 : i64TryFrom i.seconds = some i.seconds := by
    unfold i32Min i32Max at hinside
    rw [i64TryFrom, if_pos (by omega)]
  rw [if_neg (by rw [hy]; exact h)] at hspec
  refine ⟨j, hj, ?_⟩
  rw [fromYmdhms, if_neg (by omega), calendarSeconds_eq, hi64]
  simp only [fromUnixSeconds, hspec]
  simp [ofCivil, hy, hmo, hda, hho, hmn, hse]

/-- **Calendar round trip.**  A value made from seconds gives them back, has
    its fields in their Gregorian ranges, and its weekday and day of the year are
    those of its date; every valid date whose year fits is made, with its own
    fields; and values are ordered as their seconds. -/
theorem calendarTime_unix_roundTrip : (∀ (t : Int) (c : CalendarTime), fromUnixSeconds t = .ok c →
      c.unixSeconds = .ok t ∧
      (1 ≤ c.month ∧ c.month ≤ 12) ∧ (1 ≤ c.day ∧ (c.day : Int) ≤ monthLength c.year c.month) ∧
      c.hour < 24 ∧ c.minute < 60 ∧ c.second < 60 ∧
      (c.yearday : Int) = daysBeforeMonth c.year c.month + c.day - 1 ∧
      (c.weekday : Int) = (4 + t / 86400) % 7) ∧
    (∀ (i : Civil), i32Min ≤ i.year - 1900 → i.year - 1900 ≤ i32Max →
      ∃ c, fromYmdhms i.year i.month i.day i.hour i.minute i.second = .ok c ∧
        c.year = i.year ∧ c.month = i.month ∧ c.day = i.day ∧ c.hour = i.hour ∧
        c.minute = i.minute ∧ c.second = i.second) ∧
    ∀ (t t' : Int) (c c' : CalendarTime), fromUnixSeconds t = .ok c →
      fromUnixSeconds t' = .ok c' → compare c c' = compare t t' := by
  refine ⟨fun t c h => ?_, fun i hmin hmax => ?_, fun t t' c c' h h' => ?_⟩
  · obtain ⟨i, rfl, rfl, hlow, hhigh⟩ := fromUnixSeconds_ok h
    have hyd := i.yearDay_bounds
    have hh := i.hour_lt
    have hm := i.minute_lt
    have hs := i.second_lt
    refine ⟨?_, ⟨i.month_pos, i.month_le⟩, ⟨i.day_pos, i.day_le⟩, hh, hm, hs, ?_, ?_⟩
    · have hseconds := calendarSeconds_eq i
      rw [i64TryFrom, if_pos ⟨hlow, hhigh⟩] at hseconds
      simp only [unixSeconds, ofCivil, hseconds]
    · exact Int.toNat_of_nonneg hyd.1
    · simp only [ofCivil, Civil.seconds]
      omega
  · obtain ⟨j, hj, hok⟩ := fromYmdhms_ok i (by omega)
    exact ⟨_, hok, fields_eq_of_seconds hj⟩
  · obtain ⟨i, rfl, rfl, -⟩ := fromUnixSeconds_ok h
    obtain ⟨j, rfl, rfl, -⟩ := fromUnixSeconds_ok h'
    exact compare_ofCivil

theorem calendarTime_unix_leapDay : fromUnixSeconds 951782400 = .ok ⟨2000, 2, 29, 0, 0, 0, 2, 59⟩ ∧
      unixSeconds ⟨2000, 2, 29, 0, 0, 0, 2, 59⟩ = .ok 951782400 := by
  have h : fromUnixSeconds 951782400 = .ok ⟨2000, 2, 29, 0, 0, 0, 2, 59⟩ := by decide +kernel
  exact ⟨h, (calendarTime_unix_roundTrip.1 _ _ h).1⟩

end Crabc.Time
