/-
  Crabc.Lib.GrowVec

  Growable sequences whose growth may be refused.  A push that finds the storage full
  asks for more; a refusal leaves the sequence as it is.  The answers to the requests
  are a list that every operation draws from, so a result that holds for every list of
  answers holds wherever storage runs out.
-/

import Mathlib

namespace Crabc.Lib

open List

/-- The answers to the requests to come; after the last one every request is granted. -/
abbrev Answers := List Bool

/-- No request is refused. -/
abbrev Answers.Generous (answers : Answers) : Prop := false ∉ answers

/-- A sequence and the room it has. -/
structure GrowVec (α : Type) where
  items : List α
  capacity : Nat
  fits : items.length ≤ capacity

/-- What an operation answers, what it leaves behind and the answers still to come. -/
structure Grown (α : Type) where
  granted : Bool
  vec : GrowVec α
  answers : Answers

namespace GrowVec

variable {α : Type}

/-- No storage yet. -/
def empty : GrowVec α := ⟨[], 0, Nat.le_refl 0⟩

/-- Ask for room for `additional` more elements: at least four in all, and at least double the room there is. -/
def grow (vec : GrowVec α) (additional : Nat) (answers : Answers) : Grown α :=
  if answers.headD true then
    ⟨true, ⟨vec.items, max (vec.items.length + additional) (max (vec.capacity * 2) 4),
      by omega⟩, answers.tail⟩
  else ⟨false, vec, answers.tail⟩

/-- Room for `additional` more elements. -/
def reserve (vec : GrowVec α) (additional : Nat) (answers : Answers) : Grown α :=
  if vec.capacity < vec.items.length + additional then
    vec.grow additional answers
  else ⟨true, vec, answers⟩

/-- The element is written behind the last one; where there is room the capacity stays. -/
def write (vec : GrowVec α) (x : α) : GrowVec α :=
  ⟨vec.items ++ [x], max vec.capacity (vec.items.length + 1), by
    rw [length_append]
    exact Nat.le_max_right _ _⟩

/-- Append an element. -/
def push (vec : GrowVec α) (x : α) (answers : Answers) : Grown α :=
  if vec.items.length = vec.capacity then
    let grown := vec.grow 1 answers
    if grown.granted then { grown with vec := grown.vec.write x } else grown
  else ⟨true, vec.write x, answers⟩

/-- Keep the first `length` elements, and the room. -/
def truncate (vec : GrowVec α) (length : Nat) : GrowVec α :=
  ⟨vec.items.take length, vec.capacity, by
    rw [length_take]
    have := vec.fits
    omega⟩

/-- `count` pushes; the element of each is read off what stands there by then. -/
def pushEach (item : List α → Nat → α) : Nat → Nat → GrowVec α → Answers → Grown α
  | 0, _, vec, answers => ⟨true, vec, answers⟩
  | count + 1, i, vec, answers =>
    let pushed := vec.push (item vec.items i) answers
    if pushed.granted then pushEach item count (i + 1) pushed.vec pushed.answers else pushed

@[simp] theorem items_empty : (empty : GrowVec α).items = [] := rfl

@[simp] theorem items_write (vec : GrowVec α) (x : α) : (vec.write x).items = vec.items ++ [x] :=
  rfl

@[simp] theorem items_truncate (vec : GrowVec α) (length : Nat) :
    (vec.truncate length).items = vec.items.take length := rfl

end GrowVec

/-- What every operation on `vec` keeps: only a refused request makes it fail, and the
    answers left are among those there were. -/
structure Grown.Drawn {α : Type} (grown : Grown α) (answers : Answers) : Prop where
  refused : grown.granted = false → ¬ answers.Generous
  left : answers.Generous → grown.answers.Generous

namespace GrowVec

variable {α : Type} (vec : GrowVec α) (answers : Answers)

section

variable (additional : Nat)
include additional

theorem grow_items : (vec.grow additional answers).vec.items = vec.items := by
  rw [grow]
  split <;> rfl

theorem grow_drawn : (vec.grow additional answers).Drawn answers := by
  have htail : answers.Generous → Answers.Generous answers.tail := fun h hmem =>
    h (mem_of_mem_tail hmem)
  rw [grow]
  split
  case isTrue => exact ⟨nofun, htail⟩
  case isFalse hrefused =>
    refine ⟨fun _ hgenerous => hgenerous ?_, htail⟩
    cases answers with
    | nil => exact absurd rfl hrefused
    | cons answer answers =>
      cases answer with
      | true => exact absurd rfl hrefused
      | false => exact mem_cons_self

theorem reserve_items : (vec.reserve additional answers).vec.items = vec.items := by
  rw [reserve]
  split
  · exact vec.grow_items answers _
  · rfl

theorem reserve_drawn : (vec.reserve additional answers).Drawn answers := by
  rw [reserve]
  split
  · exact vec.grow_drawn answers _
  · exact ⟨nofun, id⟩

end

/-- A push appends the element, or leaves the sequence as it was. -/
theorem push_items (x : α) : (vec.push x answers).vec.items =
      if (vec.push x answers).granted then vec.items ++ [x] else vec.items := by
  rw [push]
  split
  case isTrue =>
    cases hgranted : (vec.grow 1 answers).granted with
    | true | false => simp [hgranted, grow_items]
  case isFalse => rfl

theorem push_drawn (x : α) : (vec.push x answers).Drawn answers := by
  rw [push]
  split
  case isTrue =>
    have hgrow := vec.grow_drawn answers 1
    dsimp only
    split
    case isTrue hgranted =>
      refine ⟨fun h => ?_, hgrow.left⟩
      rw [hgranted] at h
      cases h
    case isFalse => exact hgrow
  case isFalse => exact ⟨nofun, id⟩

/-- Whatever happens, a round of pushes only appends; when all are granted it appends
    what each one read off the sequence as it stood. -/
theorem pushEach_items (item : List α → Nat → α) (count i : Nat) :
    ∃ added, (pushEach item count i vec answers).vec.items = vec.items ++ added ∧
      ((pushEach item count i vec answers).granted → added.length = count ∧ ∀ k, (h : k < added.length) →
          added.get ⟨k, h⟩ = item (vec.items ++ added.take k) (i + k)) := by
  induction count generalizing i vec answers with
  | zero => exact ⟨[], (append_nil _).symm, fun _ => ⟨rfl, fun k h => absurd h (by simp)⟩⟩
  | succ count ih =>
    have hpush := vec.push_items answers (item vec.items i)
    rw [pushEach]
    split
    case isFalse hrefused =>
      rw [if_neg hrefused] at hpush
      refine ⟨[], by rw [hpush, append_nil], fun h => absurd h hrefused⟩
    case isTrue hgranted =>
      rw [if_pos hgranted] at hpush
      obtain ⟨added, hitems, hadded⟩ := ih (vec.push (item vec.items i) answers).vec
        (vec.push (item vec.items i) answers).answers (i + 1)
      refine ⟨item vec.items i :: added, ?_, fun hall => ?_⟩
      · rw [hitems, hpush, append_assoc]
        rfl
      · obtain ⟨hlength, heach⟩ := hadded hall
        refine ⟨by rw [length_cons, hlength], fun k hk => ?_⟩
        cases k with
        | zero => simp
        | succ k =>
          have hk' : k < added.length := Nat.lt_of_succ_lt_succ hk
          have := heach k hk'
          rw [hpush, append_assoc] at this
          simpa [Nat.add_assoc, Nat.add_comm 1 k] using this

theorem pushEach_drawn (item : List α → Nat → α) (count i : Nat) :
    (pushEach item count i vec answers).Drawn answers := by
  induction count generalizing i vec answers with
  | zero => exact ⟨nofun, id⟩
  | succ count ih =>
    have hpush := vec.push_drawn answers (item vec.items i)
    rw [pushEach]
    split
    case isFalse => exact hpush
    case isTrue =>
      have hrest := ih (vec.push (item vec.items i) answers).vec
        (vec.push (item vec.items i) answers).answers (i + 1)
      exact ⟨fun h hgenerous => hrest.refused h (hpush.left hgenerous),
        fun h => hrest.left (hpush.left h)⟩

end GrowVec

end Crabc.Lib
