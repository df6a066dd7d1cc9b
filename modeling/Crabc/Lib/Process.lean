/-
  Crabc.Lib.Process

  Programs that act on a world: they return a value or an error, they panic, or they
  are still running when the rounds of a loop are used up.  Rules of pre- and
  postconditions for them; a condition on the worlds of runs that have not ended
  makes the rules speak of every moment of a run.
-/

import Crabc.Lib.Checked
import Crabc.Lib.Loop

namespace Crabc.Lib

/-- A program on worlds `σ`; `none` is a run that has not ended. -/
def Process (σ ε α : Type) : Type := σ → Option (Checked ε α) × σ

namespace Process

variable {σ ε ε' α β : Type}

def pure (value : α) : Process σ ε α := fun w => (some (.ok value), w)

def throw (e : ε) : Process σ ε α := fun w => (some (.error e), w)

/-- A run that goes on. -/
def running : Process σ ε α := fun w => (none, w)

def bind (c : Process σ ε α) (f : α → Process σ ε β) : Process σ ε β := fun w =>
  match c w with
  | (some (.ok value), w') => f value w'
  | (some (.error e), w') => (some (.error e), w')
  | (some .panic, w') => (some .panic, w')
  | (none, w') => (none, w')

instance : Monad (Process σ ε) where
  pure := pure
  bind := bind

/-- Go on with the result, be it a value or an error. -/
def attempt (c : Process σ ε α) : Process σ ε' (Except ε α) := fun w =>
  match c w with
  | (some (.ok value), w') => (some (.ok (.ok value)), w')
  | (some (.error e), w') => (some (.ok (.error e)), w')
  | (some .panic, w') => (some .panic, w')
  | (none, w') => (none, w')

/-- A result as it is. -/
def ofExcept : Except ε α → Process σ ε α
  | .ok value => pure value
  | .error e => throw e

/-- A computation that leaves the world alone. -/
def lift (x : Checked ε α) : Process σ ε α := fun w => (some x, w)

def get : Process σ ε σ := fun w => (some (.ok w), w)

def modify (f : σ → σ) : Process σ ε Unit := fun w => (some (.ok ()), f w)

/-- A loop of at most so many rounds. -/
def loop (body : β → Process σ ε (Next β α)) : Nat → β → Process σ ε α
  | 0, _ => running
  | rounds + 1, b => bind (body b) fun
    | .again b' => loop body rounds b'
    | .done value => pure value

theorem bind_assoc {γ : Type} (c : Process σ ε α) (f : α → Process σ ε β) (g : β → Process σ ε γ) :
    c >>= f >>= g = c >>= fun a => f a >>= g := by
  funext w
  change bind (bind c f) g w = bind c _ w
  unfold bind
  match c w with
  | (some (.ok _), _) => rfl
  | (some (.error _), _) => rfl
  | (some .panic, _) => rfl
  | (none, _) => rfl

/-! ## Pre- and postconditions -/

/-- From a world with `P` the program does not panic, what it returns satisfies `Q`,
    and a run that has not ended is in a world with `R`. -/
def Meets (P : σ → Prop) (c : Process σ ε α) (Q : Except ε α → σ → Prop) (R : σ → Prop) : Prop :=
  ∀ w, P w →
    match c w with
    | (some (.ok value), w') => Q (.ok value) w'
    | (some (.error e), w') => Q (.error e) w'
    | (some .panic, _) => False
    | (none, w') => R w'

variable {P P' : σ → Prop} {c : Process σ ε α} {Q Q' : Except ε α → σ → Prop} {R : σ → Prop}

theorem meets_pure {value : α} (h : ∀ w, P w → Q (.ok value) w) : Meets P (pure value : Process σ ε α) Q R := h

theorem meets_throw {e : ε} (h : ∀ w, P w → Q (.error e) w) : Meets P (throw e : Process σ ε α) Q R := h

theorem meets_ofExcept {r : Except ε α} (h : ∀ w, P w → Q r w) : Meets P (ofExcept r : Process σ ε α) Q R := by
  cases r with
  | ok value => exact h
  | error e => exact h

theorem Meets.mono (h : Meets P c Q R) (hP : ∀ w, P' w → P w) (hQ : ∀ r w, Q r w → Q' r w) : Meets P' c Q' R := by
  intro w hw
  have hrun := h w (hP w hw)
  revert hrun
  match c w with
  | (some (.ok value), w') => exact hQ _ _
  | (some (.error e), w') => exact hQ _ _
  | (some .panic, w') => exact id
  | (none, w') => exact id

variable {f : α → Process σ ε β} {S : Except ε β → σ → Prop}

/-- What the first part returns is what the second may rely on; its errors are errors of the whole. -/
theorem Meets.bind (h : Meets P c Q R) (hf : ∀ value, Meets (Q (.ok value)) (f value) S R)
    (herror : ∀ e w, Q (.error e) w → S (.error e) w) : Meets P (c >>= f) S R := by
  intro w hw
  have hrun := h w hw
  revert hrun
  rw [show (c >>= f) w = Process.bind c f w from rfl, Process.bind]
  match c w with
  | (some (.ok value), w') => exact hf value w'
  | (some (.error e), w') => exact herror e w'
  | (some .panic, w') => exact id
  | (none, w') => exact id

/-- The second part goes on with the result of the first, be it an error. -/
theorem Meets.attempt_bind {f : Except ε α → Process σ ε' β} {S : Except ε' β → σ → Prop}
    (h : Meets P c Q R) (hf : ∀ r, Meets (Q r) (f r) S R) : Meets P (attempt c >>= f) S R := by
  intro w hw
  have hrun := h w hw
  revert hrun
  rw [show (attempt c >>= f) w = Process.bind (attempt c) f w from rfl, Process.bind, attempt]
  match c w with
  | (some (.ok value), w') => exact hf (.ok value) w'
  | (some (.error e), w') => exact hf (.error e) w'
  | (some .panic, w') => exact id
  | (none, w') => exact id

variable {x : Checked ε α} {T : α → Prop}

/-- A computation on the side. -/
theorem meets_lift (hx : x.Meets T) (hvalue : ∀ value, T value → ∀ w, P w → Q (.ok value) w)
    (herror : ∀ e w, P w → Q (.error e) w) : Meets P (lift x : Process σ ε α) Q R := by
  intro w hw
  cases hresult : x with
  | ok value => exact hvalue value (hx.of_ok hresult) w hw
  | error e => exact herror e w hw
  | panic => exact hx.ne_panic hresult

theorem meets_lift_bind (hx : x.Meets T) (hf : ∀ value, T value → Meets P (f value) S R)
    (herror : ∀ e w, P w → S (.error e) w) : Meets P (lift x >>= f) S R := by
  apply Meets.bind (Q := fun r w => (∀ value, r = .ok value → T value) ∧ P w)
  · apply meets_lift hx
    · rintro value hvalue w hw
      exact ⟨fun _ heq => Except.ok.inj heq ▸ hvalue, hw⟩
    · exact fun e w hw => ⟨nofun, hw⟩
  · exact fun value w hw => hf value (hw.1 value rfl) w hw.2
  · exact fun e w hw => herror e w hw.2

/-- Every round keeps the invariant, or returns. -/
theorem meets_loop {body : β → Process σ ε (Next β α)} {I : β → σ → Prop}
    (hbody : ∀ b, Meets (I b) (body b) (fun r w => match r with
      | .ok (.again b') => I b' w
      | .ok (.done value) => Q (.ok value) w
      | .error e => Q (.error e) w) R)
    (hrunning : ∀ b w, I b w → R w) (rounds : Nat) (b : β) :
    Meets (I b) (loop body rounds b) Q R := by
  induction rounds generalizing b with
  | zero => exact hrunning b
  | succ rounds ih =>
    apply (hbody b).bind
    · intro next
      cases next with
      | again b' => exact ih b'
      | done value => exact fun w hw => hw
    · exact fun e w hw => hw

theorem meets_ite {p : Prop} [Decidable p] {c' : Process σ ε α} (h : p → Meets P c Q R)
    (h' : ¬ p → Meets P c' Q R) : Meets P (if p then c else c') Q R := by
  split
  · exact h ‹_›
  · exact h' ‹_›

/-- A part of the precondition that does not speak of the world. -/
theorem meets_of_pure {p : Prop} (h : p → Meets P c Q R) : Meets (fun w => p ∧ P w) c Q R :=
  fun w hw => h hw.1 w hw.2

end Process

end Crabc.Lib
