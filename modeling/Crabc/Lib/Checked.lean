/-
  Crabc.Lib.Checked

  Computations that return a value, return an error or panic, and a logic for
  them: `x.Meets P` says that `x` does not panic and that every value it returns
  satisfies `P`.  The primitives are those that can panic: arithmetic on a
  machine word, a read at an index and a slice.
-/

import Mathlib

namespace Crabc.Lib

open List

/-- The outcome of a computation. -/
inductive Checked (ε α : Type) where
  | ok (value : α)
  | error (e : ε)
  | panic
deriving DecidableEq, Repr

namespace Checked

variable {ε α β : Type}

def bind : Checked ε α → (α → Checked ε β) → Checked ε β
  | ok value, f => f value
  | error e, _ => error e
  | panic, _ => panic

instance : Monad (Checked ε) where
  pure := ok
  bind := bind

/-! ## Primitives -/

/-- `Option::ok_or`. -/
def okOr (e : ε) : Option α → Checked ε α
  | some value => ok value
  | none => error e

/-- `Option::expect` and `Option::unwrap`. -/
def expect : Option α → Checked ε α
  | some value => ok value
  | none => panic

/-- `Result::map_err`. -/
def mapError {ε' : Type} (f : ε → ε') : Checked ε α → Checked ε' α
  | ok value => ok value
  | error e => error (f e)
  | panic => panic

/-- `Result::ok`. -/
def result {ε' : Type} : Checked ε α → Checked ε' (Option α)
  | ok value => ok (some value)
  | error _ => ok none
  | panic => panic

/-- Arithmetic that panics unless its result is in range. -/
def inRange (p : Prop) [Decidable p] (value : α) : Checked ε α := if p then ok value else panic

def index (xs : List α) (i : Nat) : Checked ε α := expect xs[i]?

def slice (xs : List α) (start stop : Nat) : Checked ε (List α) :=
  inRange (start ≤ stop ∧ stop ≤ xs.length) ((xs.drop start).take (stop - start))

/-- A loop that collects a value for each element. -/
def traverse (f : α → Checked ε β) : List α → Checked ε (List β)
  | [] => ok []
  | x :: xs => do
    let value ← f x
    let rest ← traverse f xs
    pure (value :: rest)

/-! ## The logic -/

/-- No panic, and every value satisfies `P`. -/
structure Meets (x : Checked ε α) (P : α → Prop) : Prop where
  ne_panic : x ≠ panic
  of_ok : ∀ {value : α}, x = ok value → P value

variable {x : Checked ε α} {P Q : α → Prop} {R : β → Prop} {value : α}

theorem meets_ok (h : P value) : (ok value : Checked ε α).Meets P where
  ne_panic := nofun
  of_ok := fun hvalue => by cases hvalue; exact h

theorem meets_error (e : ε) : (error e : Checked ε α).Meets P where
  ne_panic := nofun
  of_ok := nofun

theorem Meets.mono (h : x.Meets P) (hPQ : ∀ value, P value → Q value) : x.Meets Q where
  ne_panic := h.ne_panic
  of_ok := fun hvalue => hPQ _ (h.of_ok hvalue)

variable {f : α → Checked ε β} {p : Prop}

/-- What the first part gives is what the second may rely on. -/
theorem Meets.bind (h : x.Meets P) (hf : ∀ value, P value → (f value).Meets R) : (x >>= f).Meets R := by
  cases x with
  | ok value => exact hf value (h.of_ok rfl)
  | error e => exact meets_error e
  | panic => exact absurd rfl h.ne_panic

theorem meets_ite [Decidable p] {y : Checked ε α} (hx : p → x.Meets P)
    (hy : ¬ p → y.Meets P) : (if p then x else y).Meets P := by
  split
  · exact hx ‹_›
  · exact hy ‹_›

/-- A check that returns an error. -/
theorem meets_guard [Decidable p] {e : ε} (h : ¬ p → x.Meets P) : (if p then error e else x).Meets P :=
  meets_ite (fun _ => meets_error e) h

theorem meets_okOr {e : ε} {o : Option α} : (okOr e o).Meets fun value => o = some value := by
  cases o with
  | some value => exact meets_ok rfl
  | none => exact meets_error e

theorem Meets.mapError {ε' : Type} {f : ε → ε'} (h : x.Meets P) : (x.mapError f).Meets P := by
  cases x with
  | ok value => exact meets_ok (h.of_ok rfl)
  | error e => exact meets_error _
  | panic => exact absurd rfl h.ne_panic

variable {xs : List α}

/-- What every round gives, the collected values have. -/
theorem meets_traverse (h : ∀ x ∈ xs, (f x).Meets R) :
    (traverse f xs).Meets fun ys => ys.length = xs.length ∧ ∀ y ∈ ys, R y := by
  induction xs with
  | nil => exact meets_ok ⟨rfl, nofun⟩
  | cons x xs ih =>
    refine (h x mem_cons_self).bind fun value hvalue => ?_
    refine (ih fun x hx => h x (mem_cons_of_mem _ hx)).bind fun rest hrest => ?_
    refine meets_ok ⟨by rw [length_cons, length_cons, hrest.1], ?_⟩
    rintro y (_ | ⟨_, hy⟩)
    · exact hvalue
    · exact hrest.2 y hy

theorem inRange_ok [Decidable p] (h : p) : (inRange p value : Checked ε α) = ok value := if_pos h

theorem index_ok {i : Nat} (h : xs[i]? = some value) : (index xs i : Checked ε α) = ok value := by
  rw [index, h]
  rfl

theorem slice_ok {start stop : Nat} (h : start ≤ stop) (h' : stop ≤ xs.length) :
    (slice xs start stop : Checked ε (List α)) = ok ((xs.drop start).take (stop - start)) :=
  inRange_ok ⟨h, h'⟩

theorem Meets.result {ε' : Type} (h : x.Meets P) :
    (x.result : Checked ε' (Option α)).Meets fun o => ∀ value, o = some value → P value := by
  cases x with
  | ok value => exact meets_ok fun _ heq => Option.some.inj heq ▸ h.of_ok rfl
  | error e => exact meets_ok nofun
  | panic => exact absurd rfl h.ne_panic

/-- A read inside the list. -/
theorem meets_index {i : Nat} (h : i < xs.length) :
    (index xs i : Checked ε α).Meets fun value => xs[i]? = some value := by
  rw [index_ok (getElem?_eq_getElem h)]
  exact meets_ok (getElem?_eq_getElem h)

@[simp] theorem ok_bind (value : α) (f : α → Checked ε β) : (ok value >>= f) = f value := rfl

@[simp] theorem error_bind (e : ε) (f : α → Checked ε β) : (error e >>= f) = error e := rfl

@[simp] theorem pure_eq (value : α) : (pure value : Checked ε α) = ok value := rfl

end Checked

end Crabc.Lib
