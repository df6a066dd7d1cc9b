/-
  Crabc.Lib.Run

  Runs in a list: stretches whose elements all satisfy a predicate.  One pass over the
  positions that keeps the first of the longest runs seen so far finds the leftmost
  longest run.
-/

import Mathlib

namespace Crabc.Lib

variable {α : Type} (p : α → Bool)

/-- The run that the list starts with. -/
def runLength : List α → Nat
  | [] => 0
  | x :: xs => if p x then runLength xs + 1 else 0

/-- `length` elements from `start` on satisfy the predicate. -/
structure IsRun (xs : List α) (start length : Nat) : Prop where
  inside : start + length ≤ xs.length
  all : ∀ i, start ≤ i → i < start + length → ∃ x, xs[i]? = some x ∧ p x

/-- No run is longer, and none as long starts before. -/
structure LongestRun (xs : List α) (start length : Nat) : Prop extends IsRun p xs start length where
  longest : ∀ s l, IsRun p xs s l → l ≤ length
  leftmost : ∀ s, IsRun p xs s length → start ≤ s

variable {p}

open List

theorem runLength_le (xs : List α) : runLength p xs ≤ xs.length := by
  induction xs with
  | nil => exact Nat.le_refl 0
  | cons x xs ih =>
    rw [runLength, length_cons]
    split <;> omega

variable {xs : List α}

theorem runLength_all {i : Nat} (h : i < runLength p xs) : ∃ x, xs[i]? = some x ∧ p x := by
  induction xs generalizing i with
  | nil => cases h
  | cons x xs ih =>
    rw [runLength] at h
    split at h
    case isFalse => cases h
    case isTrue hx =>
      cases i with
      | zero => exact ⟨x, rfl, hx⟩
      | succ i => exact ih (by omega)

variable {l s : Nat}

theorem le_runLength (h : IsRun p xs 0 l) : l ≤ runLength p xs := by
  induction xs generalizing l with
  | nil =>
    have hinside := h.inside
    rw [length_nil] at hinside
    omega
  | cons x xs ih =>
    cases l with
    | zero => exact Nat.zero_le _
    | succ l =>
      obtain ⟨y, hy, hpy⟩ := h.all 0 (Nat.le_refl 0) (by omega)
      cases hy
      rw [runLength, if_pos hpy]
      have hinside := h.inside
      rw [length_cons] at hinside
      apply Nat.succ_le_succ
      apply ih
      exact ⟨by omega, fun i _ hi => h.all (i + 1) (by omega) (by omega)⟩

/-- A run is one of the list from its start on. -/
theorem isRun_iff : IsRun p xs s l ↔ s + l ≤ xs.length ∧ l ≤ runLength p (xs.drop s) := by
  constructor
  · intro h
    refine ⟨h.inside, le_runLength ⟨?_, ?_⟩⟩
    · rw [length_drop]
      have := h.inside
      omega
    · intro i _ hi
      rw [getElem?_drop]
      exact h.all (s + i) (by omega) (by omega)
  · rintro ⟨hinside, hle⟩
    refine ⟨hinside, fun i hi hi' => ?_⟩
    have hlt : i - s < runLength p (xs.drop s) := by omega
    obtain ⟨x, hx, hp⟩ := runLength_all hlt
    rw [getElem?_drop, Nat.add_sub_cancel' hi] at hx
    exact ⟨x, hx, hp⟩

theorem IsRun.forall_mem (h : IsRun p xs s l) : ∀ x ∈ (xs.drop s).take l, p x := by
  intro x hx
  obtain ⟨i, hi⟩ := mem_iff_getElem?.mp hx
  have hlt : i < l := by
    by_contra hge
    rw [getElem?_take, if_neg hge] at hi
    cases hi
  rw [getElem?_take, if_pos hlt, getElem?_drop] at hi
  obtain ⟨y, hy, hpy⟩ := h.all (s + i) (by omega) (by omega)
  rw [hi] at hy
  cases hy
  exact hpy

/-- A stretch between two others. -/
theorem eq_append_stretch (xs : List α) (s l : Nat) : xs = xs.take s ++ (xs.drop s).take l ++ xs.drop (s + l) := by
  rw [append_assoc, ← drop_drop, take_append_drop, take_append_drop]

/-- A run of one value. -/
theorem IsRun.eq_replicate (h : IsRun p xs s l) {a : α} (ha : ∀ x, p x → x = a) :
    (xs.drop s).take l = replicate l a := by
  have hinside := h.inside
  refine eq_replicate_iff.mpr ⟨?_, fun x hx => ha x (h.forall_mem x hx)⟩
  rw [length_take, length_drop]
  omega

variable (p) in
/-- One pass: the run kept is replaced by a longer one of at least two elements. -/
def pickRun : Nat → List α → Nat × Nat → Nat × Nat
  | _, [], kept => kept
  | i, x :: xs, kept =>
    pickRun (i + 1) xs
      (if 2 ≤ runLength p (x :: xs) ∧ kept.2 < runLength p (x :: xs) then
        (i, runLength p (x :: xs))
      else kept)

/-- What is kept after the positions below `i`: nothing, and they start no run of two,
    or the leftmost of their longest runs. -/
structure Kept (xs : List α) (i : Nat) (kept : Nat × Nat) : Prop where
  run : kept.2 = 0 ∨ 2 ≤ kept.2 ∧ kept.2 = runLength p (xs.drop kept.1) ∧ kept.1 < i
  longest : ∀ s, s < i → 2 ≤ runLength p (xs.drop s) → runLength p (xs.drop s) ≤ kept.2
  leftmost : ∀ s, s < kept.1 → runLength p (xs.drop s) < kept.2 ∨ runLength p (xs.drop s) < 2

theorem kept_pickRun (i : Nat) (rest : List α) (kept : Nat × Nat) (hrest : rest = xs.drop i)
    (h : Kept (p := p) xs i kept) : Kept (p := p) xs xs.length (pickRun p i rest kept) := by
  induction rest generalizing i kept with
  | nil =>
    -- no position is left
    have hlen : xs.length ≤ i := drop_eq_nil_iff.mp hrest.symm
    refine ⟨?_, fun s hs => h.longest s (by omega), h.leftmost⟩
    rcases h.run with hzero | ⟨htwo, hrun, hlt⟩
    · exact .inl hzero
    · refine .inr ⟨htwo, hrun, ?_⟩
      by_contra hge
      have hnil : xs.drop kept.1 = [] := drop_eq_nil_iff.mpr (Nat.le_of_not_lt hge)
      have hzero : kept.2 = 0 := by
        rw [hrun, hnil]
        rfl
      omega
  | cons x rest ih =>
    apply ih (i + 1)
    · rw [← drop_drop, ← hrest]
      rfl
    · rw [hrest]
      split
      case isTrue hlonger =>
        refine ⟨.inr ⟨hlonger.1, rfl, Nat.lt_succ_self i⟩, fun s hs htwo => ?_, fun s hs => ?_⟩
        · rcases Nat.lt_or_eq_of_le (Nat.le_of_lt_succ hs) with hs | rfl
          · exact Nat.le_trans (h.longest s hs htwo) (Nat.le_of_lt hlonger.2)
          · exact Nat.le_refl _
        · by_cases htwo : 2 ≤ runLength p (xs.drop s)
          · exact .inl (Nat.lt_of_le_of_lt (h.longest s hs htwo) hlonger.2)
          · exact .inr (by omega)
      case isFalse hshorter =>
        refine ⟨?_, fun s hs htwo => ?_, h.leftmost⟩
        · exact h.run.imp id fun ⟨htwo, hrun, hlt⟩ => ⟨htwo, hrun, by omega⟩
        · rcases Nat.lt_or_eq_of_le (Nat.le_of_lt_succ hs) with hs | rfl
          · exact h.longest s hs htwo
          · omega

theorem kept_pick (xs) : Kept (p := p) xs xs.length (pickRun p 0 xs (0, 0)) :=
  kept_pickRun 0 xs (0, 0) rfl ⟨.inl rfl, nofun, nofun⟩

/-- Nothing is picked from a list without a run of two. -/
theorem pickRun_none (h : (pickRun p 0 xs (0, 0)).2 = 0) (s l : Nat) (hrun : IsRun p xs s l) : l < 2 := by
  have hkept := kept_pick (p := p) xs
  obtain ⟨hinside, hle⟩ := isRun_iff.mp hrun
  by_contra hl
  have := hkept.longest s (by omega) (by omega)
  omega

/-- **The pick.**  What is picked is the leftmost longest run. -/
theorem longestRun_pickRun (h : (pickRun p 0 xs (0, 0)).2 ≠ 0) : 2 ≤ (pickRun p 0 xs (0, 0)).2 ∧
      LongestRun p xs (pickRun p 0 xs (0, 0)).1 (pickRun p 0 xs (0, 0)).2 := by
  have hkept := kept_pick (p := p) xs
  obtain ⟨htwo, hrun, hlt⟩ := hkept.run.resolve_left h
  have hle := runLength_le (p := p) (xs.drop (pickRun p 0 xs (0, 0)).1)
  rw [← hrun, length_drop] at hle
  refine ⟨htwo, isRun_iff.mpr ⟨by omega, Nat.le_of_eq hrun⟩, fun s l hsl => ?_, fun s hs => ?_⟩
  · obtain ⟨hinside, hsl⟩ := isRun_iff.mp hsl
    by_contra hl
    have := hkept.longest s (by omega) (by omega)
    omega
  · obtain ⟨hinside, hs⟩ := isRun_iff.mp hs
    by_contra hl
    have := hkept.leftmost s (by omega)
    omega

end Crabc.Lib
