/-
  Crabc.Libc.ZoneYear

  The year search of `zone`.  The mean length of a year puts the first guess next to the
  year of the instant, and the two loops end after a few rounds.  They find that year,
  except that the first second of a year whose guess is too low stays in the year before.
-/

import Crabc.Libc.RuleSeconds

namespace Crabc.Libc.Timezone

open Crabc.Lib
open Crabc.Lib.Wrapping (InI32 InI64)
open Crabc.Time (newYear yearFromUnixSeconds yearFromUnixSeconds_spec)

/-- The instants whose year search stays well inside an `i64`. -/
def Searchable (t : Int) : Prop := -9200000000000000000 ≤ t ∧ t ≤ 9200000000000000000

/-- The years of such instants. -/
def YearInside (y : Int) : Prop := -291600000000 ≤ y ∧ y ≤ 291600000000

/-- New Year is within three days of the mean count. -/
theorem newYear_estimate (y : Int) : 31556952 * (y - 1970) - 259200 ≤ 86400 * newYear y ∧
      86400 * newYear y ≤ 31556952 * (y - 1970) + 259200 := by
  unfold newYear daysBeforeYear
  omega

variable {y : Int}

theorem newYear_mono {y' : Int} (h : y ≤ y') : newYear y ≤ newYear y' := by
  have hmono := daysBeforeYear_mono h
  unfold newYear
  omega

theorem yearToSecs_newYear (h : YearInside y) : (yearToSecs (y - 1900)).value.1 = 86400 * newYear y := by
  obtain ⟨hlow, hhigh⟩ := h
  rw [(yearToSecs_yields (by omega) (by omega)).value, Time.yearToSeconds_eq]
  rfl

/-! ## The loops -/

section Loops

variable {t k : Int} {rounds : Nat}

/-- The first loop goes back to the year of the instant. -/
theorem yearDown_eq (hk : YearInside k) (hlow : 86400 * newYear k ≤ t) (hhigh : t < 86400 * newYear (k + 1)) {n : Nat}
    (hn : YearInside (k + n)) : yearDown t (rounds + n + 1) (k + n - 1900) = some (k - 1900) := by
  induction n with
  | zero =>
    rw [Int.natCast_zero, Int.add_zero, yearDown, if_neg]
    rw [yearToSecs_newYear hk]
    omega
  | succ n ih =>
    obtain ⟨hk, hk'⟩ := hk
    obtain ⟨hn, hn'⟩ := hn
    have hmono := newYear_mono (show k + 1 ≤ k + (n + 1 : Nat) by omega)
    rw [yearDown, if_pos, wrap64_eq (by omega)]
    · rw [show k + (n + 1 : Nat) - 1900 - 1 = k + n - 1900 by omega]
      exact ih ⟨by omega, by omega⟩
    · rw [yearToSecs_newYear ⟨hn, hn'⟩]
      omega

/-- From a year that is not later than the instant the first loop does not move. -/
theorem yearDown_stays (hy : YearInside y) (hle : 86400 * newYear y ≤ t) :
    yearDown t (rounds + 1) (y - 1900) = some (y - 1900) := by
  rw [yearDown, if_neg]
  rw [yearToSecs_newYear hy]
  omega

/-- The second loop passes a New Year that is earlier than the instant, and stops before any other. -/
theorem yearUp_succ (hy : YearInside (y + 1)) : yearUp t (rounds + 1) (y - 1900) =
    if 86400 * newYear (y + 1) < t then yearUp t rounds (y + 1 - 1900) else some (y - 1900) := by
  have hy' := hy
  obtain ⟨hlow, hhigh⟩ := hy'
  rw [yearUp, wrap64_eq (by omega), show y - 1900 + 1 = y + 1 - 1900 by omega, yearToSecs_newYear hy]

end Loops

/-! ## The year that is found -/

/-- The year in which `zone` looks at the rules. -/
def searchedYear (t : Int) : Int :=
  let year := yearFromUnixSeconds t
  if t = 86400 * newYear year ∧ t.tdiv 31556952 + 1970 < year then year - 1 else year

/-- The guess is at most one year too low and two years too high. -/
theorem guess_bounds (t : Int) : yearFromUnixSeconds t - 1 ≤ t.tdiv 31556952 + 1970 ∧
      t.tdiv 31556952 + 1970 ≤ yearFromUnixSeconds t + 2 := by
  obtain ⟨hlow, hhigh⟩ := yearFromUnixSeconds_spec t
  have hthis := newYear_estimate (yearFromUnixSeconds t)
  have hnext := newYear_estimate (yearFromUnixSeconds t + 1)
  have hdiv := tdiv_cases t (d := 31556952) (by decide)
  omega

theorem yearFromUnixSeconds_inside {t : Int} (h : Searchable t) :
    -291542000000 ≤ yearFromUnixSeconds t ∧ yearFromUnixSeconds t ≤ 291542000000 := by
  obtain ⟨hlow, hhigh⟩ := yearFromUnixSeconds_spec t
  have hthis := newYear_estimate (yearFromUnixSeconds t)
  have hnext := newYear_estimate (yearFromUnixSeconds t + 1)
  obtain ⟨ht, ht'⟩ := h
  omega

/-- **The year search** ends, and finds the searched year. -/
theorem zoneYear_eq {t : Int} (h : Searchable t) : zoneYear t = some (searchedYear t - 1900) := by
  obtain ⟨hguess, hguess'⟩ := guess_bounds t
  obtain ⟨hinside, hinside'⟩ := yearFromUnixSeconds_inside h
  obtain ⟨hlow, hhigh⟩ := yearFromUnixSeconds_spec t
  have hrounds : (2 ^ 64 : Nat) = 18446744073709551613 + 2 + 1 := by decide
  unfold zoneYear searchedYear
  rw [show t.tdiv 31556952 + 70 = t.tdiv 31556952 + 1970 - 1900 by omega]
  generalize t.tdiv 31556952 + 1970 = guess at hguess hguess' ⊢
  generalize yearFromUnixSeconds t = k at *
  have hk : YearInside k := ⟨by omega, by omega⟩
  have hnext : YearInside (k + 1) := ⟨by omega, by omega⟩
  by_cases hlt : guess < k
  · -- one year too low: the second loop decides
    obtain rfl : guess = k - 1 := by omega
    have hmono := newYear_mono (show k - 1 ≤ k by omega)
    have hsucc : k - 1 + 1 = k := by omega
    rw [hrounds, yearDown_stays ⟨by omega, by omega⟩ (by omega)]
    simp only [Option.bind_eq_bind, Option.bind_some]
    rw [yearUp_succ (hsucc.symm ▸ hk), hsucc]
    by_cases heq : t = 86400 * newYear k
    · rw [if_neg (by omega), if_pos ⟨heq, hlt⟩]
    · rw [if_pos (by omega), if_neg (fun hand => heq hand.1), yearUp_succ hnext, if_neg (by omega)]
  · -- the first loop goes back to the year of the instant
    obtain ⟨n, rfl⟩ : ∃ n : Nat, guess = k + n := ⟨(guess - k).toNat, by omega⟩
    obtain ⟨extra, hextra⟩ : ∃ extra, (2 ^ 64 : Nat) = extra + n + 1 :=
      ⟨18446744073709551615 - n, by omega⟩
    rw [if_neg (fun hand => hlt hand.2), hextra, yearDown_eq hk hlow hhigh ⟨by omega, by omega⟩]
    exact (yearUp_succ hnext).trans (if_neg (by omega))

end Crabc.Libc.Timezone
