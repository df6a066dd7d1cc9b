/-
  Crabc.Lib.Lease

  One handle at a time.  An automaton follows a list of actions on handles and stops at
  the first one that acquires a second handle, or that releases or uses a handle that
  is not the one held.  What it accepts is described without it: acquisitions and
  releases alternate in pairs, and a use falls between the two of its handle.
-/

import Mathlib

namespace Crabc.Lib

open List Option

/-- What a step of a program does to the handles. -/
inductive LeaseAction (κ : Type) where
  | acquire (handle : κ)
  | release (handle : κ)
  | use (handle : κ)
  | other
deriving DecidableEq

namespace Lease

variable {κ : Type} [DecidableEq κ]

/-- The handle held after an action, if the action is allowed. -/
def step : Option κ → LeaseAction κ → Option (Option κ)
  | none, .acquire handle => some (some handle)
  | some _, .acquire _ => none
  | held, .release handle => if held = some handle then some none else none
  | held, .use handle => if held = some handle then some held else none
  | held, .other => some held

/-- The handle held after the actions, if all of them are allowed. -/
def after (actions : List (LeaseAction κ)) : Option (Option κ) := actions.foldlM step none

theorem after_concat (actions : List (LeaseAction κ)) (action : LeaseAction κ) :
    after (actions ++ [action]) = (after actions).bind fun held => step held action := by
  rw [after, foldlM_append]
  simp only [foldlM_cons, foldlM_nil, bind_eq_bind, bind_pure]
  rfl

variable {held : Option κ}

/-- After a part of an allowed list. -/
theorem after_part {front back : List (LeaseAction κ)} (h : after (front ++ back) = some held) :
    ∃ part, after front = some part ∧ back.foldlM step part = some held := by
  rw [after, foldlM_append] at h
  exact bind_eq_some_iff.mp h

/-! ## What the automaton accepts -/

/-- The actions that acquire or release. -/
def boundary (actions : List (LeaseAction κ)) : List (LeaseAction κ) :=
  actions.filter fun
    | .acquire _ | .release _ => true
    | .use _ | .other => false

/-- Every handle acquired is released, once, before the next one is acquired; all but
    the one that is held, which was acquired last. -/
def Balanced (actions : List (LeaseAction κ)) (held : Option κ) : Prop :=
  ∃ handles : List κ, boundary actions =
    (handles.flatMap fun handle => [.acquire handle, .release handle]) ++ held.toList.map .acquire

variable {actions : List (LeaseAction κ)}

theorem balanced_of_after (h : after actions = some held) : Balanced actions held := by
  -- the actions are followed from the last one back
  induction actions using reverseRecOn generalizing held with
  | nil =>
    cases h
    exact ⟨[], rfl⟩
  | append_singleton actions action ih =>
    rw [after_concat] at h
    obtain ⟨before, hbefore, hstep⟩ := bind_eq_some_iff.mp h
    obtain ⟨handles, hhandles⟩ := ih hbefore
    rw [Balanced, boundary, filter_append]
    rw [boundary] at hhandles
    cases action with
    | acquire handle =>
      cases before with
      | some _ => cases hstep
      | none =>
        cases hstep
        exact ⟨handles, by rw [hhandles]; simp⟩
    | release handle =>
      obtain ⟨rfl, rfl⟩ : before = some handle ∧ none = held := by simpa [step] using hstep
      exact ⟨handles ++ [handle], by rw [hhandles]; simp⟩
    | use handle =>
      obtain ⟨-, rfl⟩ : before = some handle ∧ before = held := by simpa [step] using hstep
      exact ⟨handles, by rw [hhandles]; simp⟩
    | other =>
      obtain rfl : before = held := by simpa [step] using hstep
      exact ⟨handles, by rw [hhandles]; simp⟩

/-- The discipline of a run so far: at every moment at most one handle is held, and a
    handle that is used is the one that is held. -/
structure Disciplined (actions : List (LeaseAction κ)) : Prop where
  single : ∀ front back, actions = front ++ back → ∃ held, Balanced front held
  used : ∀ front handle back, actions = front ++ .use handle :: back → Balanced front (some handle)

theorem disciplined_of_after (h : after actions = some held) : Disciplined actions where
  single := by
    rintro front back rfl
    obtain ⟨part, hpart, -⟩ := after_part h
    exact ⟨part, balanced_of_after hpart⟩
  used := by
    rintro front handle back rfl
    obtain ⟨part, hpart, hrest⟩ := after_part h
    obtain ⟨next, hnext, -⟩ := bind_eq_some_iff.mp hrest
    obtain ⟨rfl, -⟩ : part = some handle ∧ part = next := by simpa [step] using hnext
    exact balanced_of_after hpart

end Lease

end Crabc.Lib
