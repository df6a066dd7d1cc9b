/-
  Crabc.Lib.Move

  Moves of a stretch of a buffer onto an overlapping stretch of the same buffer, one
  element at a time.  A move down goes from the first element on, a move up from the
  last one back, so that every element is read before it is overwritten.
-/

import Mathlib

namespace Crabc.Lib

variable {α : Type}

/-- `buffer[dst] = buffer[src]`. -/
def copyAt (buffer : List α) (dst src : Nat) : List α :=
  match buffer[src]? with
  | some x => buffer.set dst x
  | none => buffer

/-- `count` elements from `src` on are moved down to `dst`. -/
def moveDown (buffer : List α) (dst src : Nat) : Nat → List α
  | 0 => buffer
  | count + 1 => copyAt (moveDown buffer dst src count) (dst + count) (src + count)

/-- `count` elements from `src` on are moved up to `dst`. -/
def moveUp (buffer : List α) (dst src : Nat) : Nat → List α
  | 0 => buffer
  | count + 1 => moveUp (copyAt buffer (dst + count) (src + count)) dst src count

/-- `count` elements from `start` on are set to `x`. -/
def fillAt (buffer : List α) (start : Nat) (x : α) : Nat → List α
  | 0 => buffer
  | count + 1 => (fillAt buffer start x count).set (start + count) x

variable {buffer : List α} {dst src count : Nat}

open List

@[simp] theorem length_copyAt : (copyAt buffer dst src).length = buffer.length := by
  rw [copyAt]
  cases buffer[src]? with
  | some x => exact length_set
  | none => rfl

theorem getElem?_copyAt (hdst : dst < buffer.length) (hsrc : src < buffer.length) (i : Nat) :
    (copyAt buffer dst src)[i]? = if i = dst then buffer[src]? else buffer[i]? := by
  rw [copyAt, getElem?_eq_getElem hsrc]
  rw [getElem?_set]
  by_cases hi : i = dst
  · rw [if_pos hi.symm, if_pos (hi ▸ hdst), if_pos hi]
  · rw [if_neg (Ne.symm hi), if_neg hi]

@[simp] theorem length_moveDown (count : Nat) : (moveDown buffer dst src count).length = buffer.length := by
  induction count with
  | zero => rfl
  | succ count ih => rw [moveDown, length_copyAt, ih]

/-- What was moved stands below, and the rest is as before. -/
theorem getElem?_moveDown (hle : dst ≤ src) (hroom : src + count ≤ buffer.length) (i : Nat) :
    (moveDown buffer dst src count)[i]? =
      if dst ≤ i ∧ i < dst + count then buffer[i - dst + src]? else buffer[i]? := by
  induction count generalizing i with
  | zero => rw [moveDown, if_neg (by omega)]
  | succ count ih =>
    have hih := ih (by omega)
    rw [moveDown, getElem?_copyAt (by rw [length_moveDown]; omega)
      (by rw [length_moveDown]; omega), hih, hih]
    by_cases hi : i = dst + count
    · -- the element read is not one of those written so far
      rw [if_pos hi, if_neg (by omega), if_pos (by omega), hi, Nat.add_sub_cancel_left, Nat.add_comm count]
    · rw [if_neg hi]
      by_cases hin : dst ≤ i ∧ i < dst + count
      · rw [if_pos hin, if_pos (by omega)]
      · rw [if_neg hin, if_neg (by omega)]

@[simp] theorem length_moveUp (count : Nat) : (moveUp buffer dst src count).length = buffer.length := by
  induction count generalizing buffer with
  | zero => rfl
  | succ count ih => rw [moveUp, ih, length_copyAt]

theorem getElem?_moveUp (hle : src ≤ dst) (hroom : dst + count ≤ buffer.length) {i : Nat} :
    (moveUp buffer dst src count)[i]? =
      if dst ≤ i ∧ i < dst + count then buffer[i - dst + src]? else buffer[i]? := by
  induction count generalizing buffer with
  | zero => rw [moveUp, if_neg (by omega)]
  | succ count ih =>
    have hdst : dst + count < buffer.length := by omega
    have hsrc : src + count < buffer.length := by omega
    have hcopy := getElem?_copyAt hdst hsrc
    rw [moveUp, ih (by rw [length_copyAt]; omega), hcopy, hcopy]
    by_cases hin : dst ≤ i ∧ i < dst + count
    · -- the element read lies below those written so far
      rw [if_pos hin, if_neg (by omega), if_pos (by omega)]
    · rw [if_neg hin]
      by_cases hi : i = dst + count
      · rw [if_pos hi, if_pos (by omega), hi, Nat.add_sub_cancel_left, Nat.add_comm count]
      · rw [if_neg hi, if_neg (by omega)]

@[simp] theorem length_fillAt (start : Nat) (x : α) (count : Nat) :
    (fillAt buffer start x count).length = buffer.length := by
  induction count with
  | zero => rfl
  | succ count ih => rw [fillAt, length_set, ih]

theorem getElem?_fillAt {start : Nat} {x : α} (hroom : start + count ≤ buffer.length) {i : Nat} :
    (fillAt buffer start x count)[i]? =
      if start ≤ i ∧ i < start + count then some x else buffer[i]? := by
  induction count with
  | zero => rw [fillAt, if_neg (by omega)]
  | succ count ih =>
    rw [fillAt, getElem?_set, length_fillAt, ih (by omega)]
    by_cases hi : start + count = i
    · rw [if_pos hi, if_pos (by omega), if_pos (by omega)]
    · rw [if_neg hi]
      by_cases hin : start ≤ i ∧ i < start + count
      · rw [if_pos hin, if_pos (by omega)]
      · rw [if_neg hin, if_neg (by omega)]

/-! ## Closing and opening a gap -/

/-- A move down closes the gap between two stretches. -/
theorem append_prefix_moveDown {front gap back : List α} : front ++ back <+:
      moveDown (front ++ gap ++ back) front.length (front.length + gap.length) back.length := by
  rw [prefix_iff_getElem?]
  intro i hi
  rw [length_append] at hi
  rw [getElem?_moveDown (by omega) (by simp only [length_append]; omega), ← getElem?_eq_getElem, append_assoc]
  by_cases hfront : i < front.length
  · rw [if_neg (by omega), getElem?_append_left hfront, getElem?_append_left hfront]
  · rw [if_pos (by omega), getElem?_append_right (by omega),
      getElem?_append_right (by omega), getElem?_append_right (by omega)]
    congr 1
    omega

/-- A move up of the second stretch and a fill open a gap between two stretches. -/
theorem fillAt_moveUp {front back buffer : List α} {x : α} {k : Nat}
    (hbuffer : front ++ back <+: buffer) (hlen : buffer.length = front.length + k + back.length) :
    fillAt (moveUp buffer (front.length + k) front.length back.length) front.length x k =
      front ++ replicate k x ++ back := by
  obtain ⟨rest, rfl⟩ := hbuffer
  rw [length_append, length_append] at hlen
  apply ext_getElem?
  intro i
  rw [getElem?_fillAt (by rw [length_moveUp]; simp only [length_append]; omega),
    getElem?_moveUp (by omega) (by simp only [length_append]; omega), append_assoc,
    append_assoc]
  by_cases hfront : i < front.length
  · rw [if_neg (by omega), if_neg (by omega), getElem?_append_left hfront, getElem?_append_left hfront]
  -- what stands behind the front part
  have hright : (front ++ (replicate k x ++ back))[i]? =
      (replicate k x ++ back)[i - front.length]? := getElem?_append_right (by omega)
  rw [hright]
  by_cases hgap : i < front.length + k
  · rw [if_pos (by omega), getElem?_append_left (by rw [length_replicate]; omega),
      getElem?_replicate, if_pos (by omega)]
  rw [if_neg (by omega)]
  have hback : (replicate k x ++ back)[i - front.length]? = back[i - front.length - k]? := by
    rw [getElem?_append_right (by rw [length_replicate]; omega), length_replicate]
  rw [hback]
  by_cases hin : i < front.length + k + back.length
  · rw [if_pos (by omega), getElem?_append_right (by omega), getElem?_append_left (by omega)]
    congr 1
    omega
  · rw [if_neg (by omega), getElem?_eq_none (by simp only [length_append]; omega), getElem?_eq_none (by omega)]

end Crabc.Lib
