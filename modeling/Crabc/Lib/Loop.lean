/-
  Crabc.Lib.Loop

  Loops with an early return.  A body either goes round again or returns; the
  loop is given a number of rounds and answers `none` when it uses them up.
  The rule of total correctness takes an invariant and a variant and yields
  the answer, so no proof about a loop reasons about the number of rounds.
-/

import Mathlib

namespace Crabc.Lib

variable {σ ρ : Type}

/-- What one round of a loop decides. -/
inductive Next (σ ρ : Type) where
  | again (s : σ)
  | done (r : ρ)
deriving DecidableEq

/-- Run `body` from `s` for at most `fuel` rounds. -/
def loop (body : σ → Next σ ρ) : Nat → σ → Option ρ
  | 0, _ => none
  | fuel + 1, s =>
    match body s with
    | .again s' => loop body fuel s'
    | .done r => some r

variable {body : σ → Next σ ρ}

theorem loop_again {s s' : σ} (h : body s = .again s') (fuel : Nat) : loop body (fuel + 1) s = loop body fuel s' := by
  rw [loop, h]

theorem loop_done {s : σ} {r : ρ} (h : body s = .done r) (fuel : Nat) : loop body (fuel + 1) s = some r := by
  rw [loop, h]

/-- **Total correctness against a model.**  Every round answers a step of a model that
    lowers the variant, or returns a result that satisfies the postcondition. -/
theorem loop_refines {τ : Type} (body : σ → Next σ ρ) (Rel : σ → τ → Prop) (variant : τ → Nat) (Post : ρ → Prop)
    (again : ∀ s t s', Rel s t → body s = .again s' → ∃ t', Rel s' t' ∧ variant t' < variant t)
    (done : ∀ s t r, Rel s t → body s = .done r → Post r) (fuel : Nat) (s : σ) (t : τ)
    (hrel : Rel s t) (hlt : variant t < fuel) : ∃ r, loop body fuel s = some r ∧ Post r := by
  induction fuel generalizing s t with
  | zero => cases hlt
  | succ fuel ih =>
    cases hb : body s with
    | again s' =>
      obtain ⟨t', hrel', hvar⟩ := again s t s' hrel hb
      rw [loop_again hb]
      exact ih s' t' hrel' (by omega)
    | done r => exact ⟨r, loop_done hb fuel, done s t r hrel hb⟩

/-- **Total correctness.**  Every round keeps the invariant and lowers the
    variant, or returns a result that satisfies the postcondition. -/
theorem loop_correct (body : σ → Next σ ρ) (Inv : σ → Prop) (variant : σ → Nat) (Post : ρ → Prop)
    (round : ∀ s, Inv s → match body s with
      | .again s' => Inv s' ∧ variant s' < variant s
      | .done r => Post r)
    (fuel : Nat) (s : σ) (hinv : Inv s) (hlt : variant s < fuel) : ∃ r, loop body fuel s = some r ∧ Post r := by
  refine loop_refines body (fun s t => s = t ∧ Inv s) variant Post ?_ ?_ fuel s s ⟨rfl, hinv⟩ hlt
  · rintro s _ s' ⟨rfl, h⟩ hb
    have hround := round s h
    rw [hb] at hround
    exact ⟨s', ⟨rfl, hround.1⟩, hround.2⟩
  · rintro s _ r ⟨rfl, h⟩ hb
    have hround := round s h
    rw [hb] at hround
    exact hround

end Crabc.Lib
