/-
  Crabc.Lib.Recurrence

  Events that recur once in every period, at instants that grow with the period.
  When an instant `t` lies between the events of the periods `k - 2` and `k + 2`,
  the last event up to `t` is found among the four periods before the later one,
  and two kinds of events are compared by their last occurrences.
-/

import Mathlib

namespace Crabc.Lib

variable {α : Type} [LinearOrder α] {f g : Int → α} {k : Int} {t : α}

/-- The event that every one of the periods `k - 2` to `k + 1` may hold last. -/
def latest (f : Int → α) (k : Int) (t : α) : α :=
  if f (k + 1) ≤ t then f (k + 1)
  else if f k ≤ t then f k
  else if f (k - 1) ≤ t then f (k - 1)
  else f (k - 2)

/-- An increasing recurrence, and an instant between two of its events. -/
structure Around (f : Int → α) (k : Int) (t : α) : Prop where
  mono : Monotone f
  past : f (k - 2) ≤ t
  future : t < f (k + 2)

/-- The instants of two kinds of events up to `t`. -/
def instantsUpTo (f g : Int → α) (t : α) : Set α :=
  {x | x ≤ t ∧ ((∃ k, f k = x) ∨ ∃ k, g k = x)}

theorem Around.lt_of_past (h : Around f k t) {i j : Int} (hi : f i ≤ t) (hj : t < f j) : i < j := by
  by_contra hle
  exact absurd (hj.trans_le ((h.mono (Int.not_lt.mp hle)).trans hi)) (lt_irrefl t)

theorem Around.latest_le (h : Around f k t) : latest f k t ≤ t := by
  unfold latest
  split_ifs with h1 h2 h3
  · exact h1
  · exact h2
  · exact h3
  · exact h.past

theorem latest_mem (f : Int → α) (k : Int) (t : α) : ∃ i, f i = latest f k t := by
  unfold latest
  split_ifs
  all_goals exact ⟨_, rfl⟩

/-- No event up to `t` is behind the last one. -/
theorem Around.le_latest (h : Around f k t) {i : Int} (hi : f i ≤ t) : f i ≤ latest f k t := by
  unfold latest
  split_ifs with h1 h2 h3
  · have hlt := h.lt_of_past hi h.future
    exact h.mono (by omega)
  · have hlt := h.lt_of_past hi (not_le.mp h1)
    exact h.mono (by omega)
  · have hlt := h.lt_of_past hi (not_le.mp h2)
    exact h.mono (by omega)
  · have hlt := h.lt_of_past hi (not_le.mp h3)
    exact h.mono (by omega)

/-- **Last event.**  The last event up to `t` is one of the first kind exactly
    when the last of that kind is not before the last of the other. -/
theorem isGreatest_iff_latest (hf : Around f k t) (hg : Around g k t) :
    (∃ i, IsGreatest (instantsUpTo f g t) (f i)) ↔ latest g k t ≤ latest f k t := by
  constructor
  · rintro ⟨i, ⟨hle, -⟩, hmax⟩
    obtain ⟨j, hj⟩ := latest_mem g k t
    have hlast : latest g k t ≤ f i := hmax ⟨hg.latest_le, Or.inr ⟨j, hj⟩⟩
    exact hlast.trans (hf.le_latest hle)
  · intro hle
    obtain ⟨i, hi⟩ := latest_mem f k t
    refine ⟨i, ⟨?_, Or.inl ⟨i, rfl⟩⟩, ?_⟩
    · rw [hi]
      exact hf.latest_le
    · rintro x ⟨hx, ⟨j, rfl⟩ | ⟨j, rfl⟩⟩
      · rw [hi]
        exact hf.le_latest hx
      · rw [hi]
        exact (hg.le_latest hx).trans hle

end Crabc.Lib
