/-
  Crabc.Libc.PthreadOnce

  `run_selected_once`, `wait_selected_once` and `undo_selected_once` on one control word,
  among any number of threads.  Every access to the word is a step of its own, and so are
  the kernel's check in the futex wait and the wake.
-/

import Mathlib

namespace Crabc.Libc

namespace PthreadOnce

/-- The control word: 0 to 3, and the values outside of the contract. -/
inductive Word where
  | initial | initializing | complete | waiters
  | other (value : Int)
  deriving DecidableEq

/-- Where a thread is in the code of a call. -/
inductive Point where
  | outside
  /-- Before the compare-exchange of the loop. -/
  | attempt
  /-- In `init_routine`. -/
  | running
  /-- After a normal return of `init_routine`, before the word is published. -/
  | returned
  /-- Before the compare-exchange that announces a waiter. -/
  | contend
  /-- In `wait_selected_once`, with so many spins left; with none, before the load of its
      second loop. -/
  | spin (left : Nat)
  | wait
  | asleep
  /-- After the `swap` that saw `waiters`, in the call or in the cleanup of an abandoned run. -/
  | wake (abandoned : Bool)
  /-- The call has returned. -/
  | done
  /-- The thread was cancelled in `init_routine`. -/
  | gone

structure State (ι : Type) where
  word : Word
  point : ι → Point
  /-- Some `init_routine` has returned normally. -/
  finished : Bool

open Word

variable {ι : Type} [DecidableEq ι] {s s' : State ι}

def State.set (s : State ι) (i : ι) (p : Point) (word : Word) : State ι :=
  { s with word, point := fun j => if j = i then p else s.point j }

/-- All sleepers go back to the load. -/
def State.wakeAll (s : State ι) : State ι :=
  { s with point := fun j => match s.point j with
      | .asleep => .spin 0
      | p => p }

inductive Step (s : State ι) : State ι → Prop
  | call {i} : s.point i = .outside →
      Step s (s.set i (if s.word = complete then .done else .attempt) s.word)
  | attempt {i} : s.point i = .attempt →
      Step s (s.set i (match s.word with
        | initial => .running
        | initializing => .contend
        | waiters => .spin 100
        | complete => .done
        | other _ => .attempt)
        (if s.word = initial then initializing else s.word))
  | finish {i} : s.point i = .running → Step s { s.set i .returned s.word with finished := true }
  | publish {i} : s.point i = .returned →
      Step s (s.set i (if s.word = waiters then .wake false else .done) complete)
  | undo {i} : s.point i = .running →
      Step s (s.set i (if s.word = waiters then .wake true else .gone) initial)
  | contend {i} : s.point i = .contend →
      Step s (s.set i (.spin 100) (if s.word = initializing then waiters else s.word))
  | spin {i left} : s.point i = .spin (left + 1) →
      Step s (s.set i (if s.word = waiters then .spin left else .attempt) s.word)
  | load {i} : s.point i = .spin 0 → Step s (s.set i (if s.word = waiters then .wait else .attempt) s.word)
  | wait {i} : s.point i = .wait → Step s (s.set i (if s.word = waiters then .asleep else .spin 0) s.word)
  | spurious {i} : s.point i = .asleep → Step s (s.set i (.spin 0) s.word)
  | wake {i abandoned} : s.point i = .wake abandoned →
      Step s (s.wakeAll.set i (if abandoned then .gone else .done) s.word)
  | again {i} : s.point i = .done → Step s (s.set i .outside s.word)

/-- A control word that no thread has used. -/
def start : State ι := ⟨initial, fun _ => .outside, false⟩

/-- The thread has an initializer run whose end it has not published. -/
def Point.InProgress (p : Point) : Prop := p = .running ∨ p = .returned

open Point

structure Sound (s : State ι) : Prop where
  one : ∀ i j, (s.point i).InProgress → (s.point j).InProgress → i = j
  taken : ∀ i, (s.point i).InProgress → s.word = initializing ∨ s.word = waiters
  owner : s.word = initializing ∨ s.word = waiters → ∃ i, (s.point i).InProgress
  finished : s.finished = true → s.word = complete ∨ ∃ i, s.point i = .returned
  returned : ∀ i, s.point i = .returned ∨ s.point i = .wake false ∨ s.point i = .done → s.finished = true
  published : s.word = complete → s.finished = true
  sleeper : ∀ i, s.point i = .asleep → s.word = waiters ∨ ∃ j abandoned, s.point j = .wake abandoned

/-- A thread with no run and no wake moves on and leaves the word as it is. -/
theorem Sound.move {i : ι} {p : Point} (h : Sound s) (hi : ¬(s.point i).InProgress)
    (hwake : ∀ abandoned, s.point i ≠ .wake abandoned) (hp : ¬p.InProgress ∧ p ≠ .wake false)
    (hdone : p = .done → s.word = complete) (hasleep : p = .asleep → s.word = waiters) :
    Sound (s.set i p s.word) := by
  obtain ⟨one, taken, owner, finished, returned, published, sleeper⟩ := h
  constructor <;> simp only [State.set] <;> grind -ring -linarith [InProgress]

theorem Sound.step (h : Sound s) (hstep : Step s s') : Sound s' := by
  cases hstep with
  | call hi | spin hi | load hi | wait hi | spurious hi | again hi =>
    refine h.move ?_ ?_ ?_ ?_ ?_ <;> grind -ring -linarith [InProgress]
  | attempt hi | finish hi | publish hi | undo hi | contend hi | wake hi =>
    obtain ⟨one, taken, owner, finished, returned, published, sleeper⟩ := h
    constructor <;> simp only [State.set, State.wakeAll] <;> grind -ring -linarith [InProgress]

/-- Initializer runs exclude one another, none starts after one has returned, a call
    returns after one has, and no wake-up is lost. -/
theorem pthreadOnce_once (hrun : Relation.ReflTransGen Step start s) :
    (∀ i j, (s.point i).InProgress → (s.point j).InProgress → i = j) ∧
    (∀ s' i, Step s s' → s.point i ≠ .running → s'.point i = .running → s.finished = false) ∧
    (∀ i, s.point i = .done → s.finished = true) ∧
    ∀ i, s.point i = .asleep → (s.word = waiters ∧ ∃ j, (s.point j).InProgress) ∨
      ∃ j abandoned, s.point j = .wake abandoned := by
  have sound : Sound s := by
    induction hrun with
    | refl => constructor <;> simp [start, InProgress]
    | tail _ hstep ih => exact ih.step hstep
  refine ⟨sound.one, fun s' i hstep hbefore hafter => ?_, fun i hi => sound.returned i (.inr (.inr hi)),
    fun i hi => (sound.sleeper i hi).imp_left fun hword => ⟨hword, sound.owner (.inr hword)⟩⟩
  -- only the compare-exchange that finds the initial value starts a run
  obtain ⟨one, taken, owner, finished, returned, published, sleeper⟩ := sound
  cases hstep <;> simp only [State.set, State.wakeAll] at hafter <;>
    grind -ring -linarith [InProgress]

theorem pthreadOnce_once_running : ∃ s : State Bool, s.point true = .running ∧
    ∀ i, (s.point i).InProgress → i = true := by
  have run := (Relation.ReflTransGen.single (Step.call (s := start) (i := true) rfl)).tail (.attempt (i := true) rfl)
  exact ⟨_, rfl, fun i hi => (pthreadOnce_once run).1 i true hi (.inl rfl)⟩

end PthreadOnce

end Crabc.Libc
