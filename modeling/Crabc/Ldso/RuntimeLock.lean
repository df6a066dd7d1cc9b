/-
  Crabc.Ldso.RuntimeLock

  `acquire` and `release` of `x86_64_runtime_lock.rs` on one lock word, among any number of
  threads.  Every access to the word is a step of its own, and so are the kernel's check in
  the futex wait and the wake.
-/

import Mathlib

namespace Crabc.Ldso

namespace RuntimeLock

def free : Int := 0
def held : Int := 1
def contended : Int := 2

/-- Where a thread is in the code of the lock. -/
inductive Point where
  | outside
  /-- Before the `swap` of `acquire`; `woken` when its last wait slept. -/
  | swap (woken : Bool)
  | wait
  | asleep
  /-- Between the return of `acquire` and `release`. -/
  | inside
  /-- After the `swap` of a `release` that saw `contended`. -/
  | wake

structure State (ι : Type) where
  word : Int
  point : ι → Point

variable {ι : Type} [DecidableEq ι] {s s' : State ι}

def State.set (s : State ι) (i : ι) (p : Point) (word : Int) : State ι :=
  ⟨word, fun j => if j = i then p else s.point j⟩

inductive Step (s : State ι) : State ι → Prop
  | acquire {i} : s.point i = .outside →
      Step s (if s.word = free then s.set i .inside held else s.set i (.swap false) s.word)
  | swap {i woken} : s.point i = .swap woken →
      Step s (s.set i (if s.word = free then .inside else .wait) contended)
  | wait {i} : s.point i = .wait →
      Step s (s.set i (if s.word = contended then .asleep else .swap false) s.word)
  | spurious {i} : s.point i = .asleep → Step s (s.set i (.swap true) s.word)
  | release {i} : s.point i = .inside →
      Step s (s.set i (if s.word = contended then .wake else .outside) free)
  | wake {i j} : s.point i = .wake → s.point j = .asleep →
      Step s ((s.set i .outside s.word).set j (.swap true) s.word)
  | wakeNone {i} : s.point i = .wake → (∀ j, s.point j ≠ .asleep) → Step s (s.set i .outside s.word)

/-- A lock word that no thread has used. -/
def start : State ι := ⟨free, fun _ => .outside⟩

structure Sound (s : State ι) : Prop where
  taken : ∀ i, s.point i = .inside → s.word ≠ free
  one : ∀ i j, s.point i = .inside → s.point j = .inside → i = j
  sleeper : ∀ i, s.point i = .asleep → s.word = contended ∨ (∃ j, s.point j = .wake) ∨ ∃ j, s.point j = .swap true

theorem Sound.step (h : Sound s) (hstep : Step s s') : Sound s' := by
  obtain ⟨taken, one, sleeper⟩ := h
  cases hstep with
  | acquire hi => split <;> constructor <;> simp only [State.set] <;> grind [free, held, contended]
  | swap hi => constructor <;> simp only [State.set] <;> grind [free, contended]
  | release hi => constructor <;> simp only [State.set] <;> grind [free, contended]
  | wait hi | spurious hi | wake hi hj | wakeNone hi hnone =>
    constructor <;> simp only [State.set] <;> grind

/-- At most one thread is inside, and no wake-up is lost. -/
theorem runtimeLock_excludes (hrun : Relation.ReflTransGen Step start s) :
    (∀ i j, s.point i = .inside → s.point j = .inside → i = j) ∧ ∀ i, s.point i = .asleep →
        s.word = contended ∨ (∃ j, s.point j = .wake) ∨ ∃ j, s.point j = .swap true := by
  have sound : Sound s := by
    induction hrun with
    | refl => constructor <;> simp [start]
    | tail _ hstep ih => exact ih.step hstep
  exact ⟨sound.one, sound.sleeper⟩

theorem runtimeLock_excludes_sleeper : ∃ s : State Bool, s.point false = .asleep ∧
    (s.word = contended ∨ (∃ j, s.point j = .wake) ∨ ∃ j, s.point j = .swap true) := by
  have taken := Relation.ReflTransGen.single (Step.acquire (s := start) (i := true) rfl)
  have slept := ((taken.tail (.acquire (i := false) rfl)).tail (.swap (i := false) rfl)).tail (.wait (i := false) rfl)
  exact ⟨_, rfl, (runtimeLock_excludes slept).2 false rfl⟩

end RuntimeLock

end Crabc.Ldso
