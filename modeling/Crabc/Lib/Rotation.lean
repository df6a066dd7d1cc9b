/-
  Crabc.Lib.Rotation

  Moving values along a path of positions: each position takes the value of the
  next one and the last takes a given value.  When that is the value of the first,
  the path is rotated and the whole is a rearrangement.  Rearrangements of the
  first `n` positions compose, leave the others alone and permute the values.
-/

import Mathlib

namespace Crabc.Lib

open Equiv

variable {α : Type}

/-! ## Paths -/

/-- Shift the values of a path towards its head and put `x` at its end. -/
def place (a : Nat → α) : List Nat → α → Nat → α
  | [], _ => a
  | [p], x => Function.update a p x
  | p :: q :: path, x => Function.update (place a (q :: path) x) p (a q)

open Function

variable {path : List Nat} {x : α}

theorem place_cons_cons {a : Nat → α} {q : Nat} (p : Nat) :
    place a (p :: q :: path) x = update (place a (q :: path) x) p (a q) := rfl

variable {i n : Nat} {a b : Nat → α}

open List

variable {p : Nat}

theorem place_of_notMem (h : i ∉ path) : place a path x i = a i := by
  induction path with
  | nil => rfl
  | cons p path ih =>
    rw [mem_cons, not_or] at h
    cases path with
    | nil => exact update_of_ne h.1 _ _
    | cons q path => rw [place_cons_cons, update_of_ne h.1, ih h.2]

/-- A position off the path can be written before or after. -/
theorem place_update {v : α} (h : i ∉ path) : place (update a i v) path x = update (place a path x) i v := by
  induction path with
  | nil => rfl
  | cons p path ih =>
    rw [mem_cons, not_or] at h
    cases path with
    | nil => exact update_comm h.1 _ _ _
    | cons q path =>
      have hq : q ≠ i := fun hqi => h.2 (hqi ▸ mem_cons_self)
      rw [place_cons_cons, ih h.2, update_of_ne hq, update_comm h.1]
      rfl

/-- The value at the head of a path is overwritten. -/
theorem place_update_head {v : α} (h : p ∉ path) : place (update a p v) (p :: path) x = place a (p :: path) x := by
  cases path with
  | nil => exact update_idem _ _ _
  | cons q path =>
    have hq : q ≠ p := fun hqp => h (hqp ▸ mem_cons_self)
    rw [place_cons_cons, place_cons_cons, place_update h, update_idem, update_of_ne hq]

/-- Values can be mapped before or after. -/
theorem place_comp {β : Type} (f : α → β) (a : Nat → α) (path : List Nat) (x : α) :
    place (f ∘ a) path (f x) = f ∘ place a path x := by
  induction path with
  | nil => rfl
  | cons p path ih =>
    cases path with
    | nil => exact (comp_update f a p x).symm
    | cons q path =>
      rw [place_cons_cons, place_cons_cons, ih, comp_update]
      rfl

/-- What a position of the path gets: the value of the next one, or the given one. -/
theorem place_getElem (hnodup : path.Nodup) {k : Nat} (hk : path[k]? = some p) :
    place a path x p = (path[k + 1]?.map a).getD x := by
  induction path generalizing k with
  | nil => cases hk
  | cons q path ih =>
    rw [nodup_cons] at hnodup
    cases path with
    | nil =>
      cases k with
      | zero =>
        cases hk
        exact update_self _ _ _
      | succ k => cases hk
    | cons q' path =>
      cases k with
      | zero =>
        cases hk
        exact update_self _ _ _
      | succ k =>
        have hne : p ≠ q := fun h => hnodup.1 (h ▸ mem_of_getElem? hk)
        rw [place_cons_cons, update_of_ne hne, ih hnodup.2 hk]
        rfl

/-- The last position of the path gets the given value. -/
theorem place_last (hnodup : (path ++ [p]).Nodup) : place a (path ++ [p]) x p = x := by
  have hlast : (path ++ [p])[path.length]? = some p := by simp
  have hnone : (path ++ [p])[path.length + 1]? = none := by simp
  rw [place_getElem hnodup hlast, hnone]
  rfl

/-! ## Rearrangements -/

/-- `b` has the values of `a`, those of the first `n` positions in another order. -/
def Arranged (n : Nat) (a b : Nat → α) : Prop :=
  ∃ σ : Equiv.Perm Nat, (∀ i, n ≤ i → σ i = i) ∧ b = a ∘ σ

theorem Arranged.refl (n : Nat) (a : Nat → α) : Arranged n a a :=
  ⟨Equiv.refl _, fun _ _ => rfl, rfl⟩

theorem perm_lt {σ : Equiv.Perm Nat} (hσ : ∀ i, n ≤ i → σ i = i) (hi : i < n) : σ i < n := by
  by_contra hle
  have hfix := σ.injective (hσ (σ i) (Nat.le_of_not_lt hle))
  omega

section

variable (h : Arranged n a b)
include h

theorem Arranged.trans {c : Nat → α} (h' : Arranged n b c) : Arranged n a c := by
  obtain ⟨σ, hσ, rfl⟩ := h
  obtain ⟨τ, hτ, rfl⟩ := h'
  refine ⟨τ.trans σ, fun i hi => ?_, rfl⟩
  rw [trans_apply, hτ i hi, hσ i hi]

theorem Arranged.mono {m : Nat} (hle : n ≤ m) : Arranged m a b := by
  obtain ⟨σ, hσ, rfl⟩ := h
  exact ⟨σ, fun i hi => hσ i (Nat.le_trans hle hi), rfl⟩

theorem Arranged.eq_of_le (hi : n ≤ i) : b i = a i := by
  obtain ⟨σ, hσ, rfl⟩ := h
  rw [comp_apply, hσ i hi]

/-- A position behind can be written on both sides. -/
theorem Arranged.update (hi : n ≤ i) (v : α) : Arranged n (update a i v) (update b i v) := by
  obtain ⟨σ, hσ, rfl⟩ := h
  refine ⟨σ, hσ, ?_⟩
  funext j
  rw [comp_apply]
  by_cases hj : j = i
  · subst hj
    rw [hσ j hi, update_self, update_self]
  · have hne : σ j ≠ i := fun hij => hj (σ.injective (hij.trans (hσ i hi).symm))
    rw [update_of_ne hj, update_of_ne hne, comp_apply]

/-- What holds of all the values still holds. -/
theorem Arranged.forall {P : α → Prop} (hP : ∀ i, i < n → P (a i)) (hi : i < n) : P (b i) := by
  obtain ⟨σ, hσ, rfl⟩ := h
  exact hP (σ i) (perm_lt hσ hi)

/-- The values as a list are permuted. -/
theorem Arranged.perm : ((range n).map b).Perm ((range n).map a) := by
  obtain ⟨σ, hσ, rfl⟩ := h
  rw [← map_map]
  apply List.Perm.map
  apply (perm_ext_iff_of_nodup (nodup_range.map σ.injective) nodup_range).mpr
  intro i
  rw [mem_map, mem_range]
  constructor
  · rintro ⟨j, hj, rfl⟩
    exact perm_lt hσ (mem_range.mp hj)
  · intro hi
    refine ⟨σ.symm i, mem_range.mpr ?_, σ.apply_symm_apply i⟩
    apply perm_lt (fun j hj => ?_) hi
    rw [symm_apply_eq, hσ j hj]

end

theorem arranged_swap {q : Nat} (hp : p < n) (hq : q < n) (hne : p ≠ q) (a : Nat → α) :
    Arranged n a (update (update a q (a p)) p (a q)) := by
  refine ⟨swap p q, fun i hi => swap_apply_of_ne_of_ne (by omega) (by omega), ?_⟩
  funext i
  rw [comp_apply]
  by_cases hip : i = p
  · subst hip
    rw [update_self, swap_apply_left]
  rw [update_of_ne hip]
  by_cases hiq : i = q
  · subst hiq
    rw [update_self, swap_apply_right]
  · rw [update_of_ne hiq, swap_apply_of_ne_of_ne hip hiq]

/-- **Rotation.**  A path that ends with the value of its head is rotated. -/
theorem arranged_rotate (hnodup : (p :: path).Nodup) (hlt : ∀ q ∈ p :: path, q < n) (a : Nat → α) :
    Arranged n a (place a (p :: path) (a p)) := by
  induction path generalizing p a with
  | nil =>
    rw [place, update_eq_self]
    exact Arranged.refl n a
  | cons q path ih =>
    rw [nodup_cons] at hnodup
    have hne : p ≠ q := fun hpq => hnodup.1 (hpq ▸ mem_cons_self)
    -- swap the first two, then rotate the rest
    have hswap := arranged_swap (hlt p mem_cons_self)
      (hlt q (mem_cons_of_mem _ mem_cons_self)) hne a
    refine hswap.trans ?_
    have hrest := ih hnodup.2 (fun i hi => hlt i (mem_cons_of_mem _ hi))
      (update (update a q (a p)) p (a q))
    rw [update_of_ne hne.symm, update_self, place_update hnodup.1,
      place_update_head (nodup_cons.mp hnodup.2).1] at hrest
    exact hrest

end Crabc.Lib
