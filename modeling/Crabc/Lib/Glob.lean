/-
  Crabc.Lib.Glob

  Glob patterns over an arbitrary alphabet: a pattern is a list of items, a star
  or a test of one element.  `GlobMatches` is the meaning, some split of the
  text among the items.  The lemmas are those a matcher that only remembers its
  most recent star rests on; the last one says why that is enough.
-/

import Mathlib

namespace Crabc.Lib

variable {α : Type}

/-- One item of a glob: `none` is a star, `some p` stands for one element. -/
abbrev GlobItem (α : Type) := Option (α → Bool)

/-- Some split of the text gives each star any part and each test one element. -/
inductive GlobMatches : List (GlobItem α) → List α → Prop where
  | nil : GlobMatches [] []
  | star {ps s} (x : List α) : GlobMatches ps s → GlobMatches (none :: ps) (x ++ s)
  | one {p ps a s} : p a = true → GlobMatches ps s → GlobMatches (some p :: ps) (a :: s)

variable {ps w : List (GlobItem α)} {s x : List α}

@[simp] theorem globMatches_nil : GlobMatches [] s ↔ s = [] := by
  constructor
  · intro h
    cases h
    rfl
  · rintro rfl
    exact .nil

@[simp] theorem globMatches_one_nil {p : α → Bool} : ¬ GlobMatches (some p :: ps) [] := by
  intro h
  cases h

@[simp] theorem globMatches_one_cons {p : α → Bool} {a : α} :
    GlobMatches (some p :: ps) (a :: s) ↔ p a = true ∧ GlobMatches ps s := by
  constructor
  · intro h
    cases h with
    | one hp hm => exact ⟨hp, hm⟩
  · rintro ⟨hp, hm⟩
    exact .one hp hm

open List

/-- A star leaves some suffix to the rest of the pattern. -/
theorem globMatches_star : GlobMatches (none :: ps) s ↔ ∃ u, u <:+ s ∧ GlobMatches ps u := by
  constructor
  · intro h
    cases h with
    | star x hm => exact ⟨_, suffix_append _ _, hm⟩
  · rintro ⟨u, ⟨x, rfl⟩, hm⟩
    exact .star x hm

/-- The rest of the pattern matches from a later position on. -/
def MatchesLater (ps : List (GlobItem α)) (s : List α) : Prop :=
  ∃ u, u <:+ s ∧ u.length < s.length ∧ GlobMatches ps u

/-- A star matches nothing, or at least one element. -/
theorem globMatches_star_iff_later : GlobMatches (none :: ps) s ↔ GlobMatches ps s ∨ MatchesLater ps s := by
  rw [globMatches_star]
  constructor
  · rintro ⟨u, hu, hm⟩
    rcases Nat.lt_or_ge u.length s.length with hlt | hge
    · exact Or.inr ⟨u, hu, hlt, hm⟩
    · exact Or.inl (hu.eq_of_length_le hge ▸ hm)
  · rintro (hm | ⟨u, hu, -, hm⟩)
    · exact ⟨s, suffix_rfl, hm⟩
    · exact ⟨u, hu, hm⟩

theorem not_matchesLater_nil : ¬ MatchesLater ps ([] : List α) := by
  rintro ⟨u, -, hlt, -⟩
  exact absurd hlt (Nat.not_lt_zero _)

/-- One element later, the star starts over. -/
theorem matchesLater_cons {a : α} : MatchesLater ps (a :: s) ↔ GlobMatches ps s ∨ MatchesLater ps s := by
  rw [← globMatches_star_iff_later, globMatches_star]
  constructor
  · rintro ⟨u, hu, hlt, hm⟩
    rcases suffix_cons_iff.mp hu with rfl | hu
    · exact absurd hlt (Nat.lt_irrefl _)
    · exact ⟨u, hu, hm⟩
  · rintro ⟨u, hu, hm⟩
    have hlen := hu.length_le
    refine ⟨u, hu.trans (suffix_cons a s), ?_, hm⟩
    rw [length_cons]
    omega

/-- Items without a star take as many elements as there are of them. -/
theorem GlobMatches.drop_tests (hw : none ∉ w) (h : GlobMatches (w ++ ps) s) :
    GlobMatches ps (s.drop w.length) ∧ w.length ≤ s.length := by
  induction w generalizing s with
  | nil => exact ⟨h, Nat.zero_le _⟩
  | cons item w ih =>
    rw [mem_cons, not_or] at hw
    cases item with
    | none => exact absurd rfl hw.1
    | some p =>
      cases h with
      | one hp hm =>
        obtain ⟨hrest, hlen⟩ := ih hw.2 hm
        exact ⟨hrest, Nat.succ_le_succ hlen⟩

/-- **Only the last star matters.**  Between an earlier star and the current one
    the tests `w` have consumed `x`.  Letting the earlier star take more leads
    to the current star later in the text, which the current star covers. -/
theorem MatchesLater.exchange (hw : none ∉ w) (hlen : w.length = x.length)
    (h : MatchesLater (w ++ none :: ps) (x ++ s)) : GlobMatches (none :: ps) s := by
  obtain ⟨u, hu, hlt, hm⟩ := h
  obtain ⟨hrest, hle⟩ := hm.drop_tests hw
  rw [globMatches_star] at hrest ⊢
  obtain ⟨v, hv, hmv⟩ := hrest
  refine ⟨v, ?_, hmv⟩
  -- both `v` and `s` are suffixes of the text, and `v` is the shorter one
  have hvlen := hv.length_le
  rw [length_drop] at hvlen
  rw [length_append] at hlt
  have hv' : v <:+ x ++ s := (hv.trans (drop_suffix _ _)).trans hu
  exact suffix_of_suffix_length_le hv' (suffix_append x s) (by omega)

end Crabc.Lib
