/-
  Crabc.Lib.Sequential

  Programs of atomic operations with nobody else around.

  `eval` runs a program on the memory.  `Runs` is total correctness: the program returns,
  with a postcondition on its value and the memory.  A loop needs an invariant and a
  variant that is below its number of rounds.  What does not depend on the replies is told
  by `Yields`, and what is known of the program among other threads (`Safe`) holds of a
  run on its own as well.
-/

import Crabc.Lib.Interleaving

namespace Crabc.Lib

open Program Function Option

/-- `J` if a loop goes on, `Q` if it returns. -/
def Next.Gives {σ α : Type} (J : σ → Prop) (Q : α → Prop) : Next σ α → Prop
  | .again s => J s
  | .done value => Q value

namespace Program

variable {Op Reply Mem α β σ : Type}

/-- Run a program on the memory. -/
def eval (answer : Op → Mem → Reply × Mem) : Program Op Reply α → Mem → Option (α × Mem)
  | .done value, m => some (value, m)
  | .act op next, m => eval answer (next (answer op m).1) (answer op m).2
  | .spent, _ => none

/-- The program returns with `Q`. -/
def Runs (answer : Op → Mem → Reply × Mem) (p : Program Op Reply α) (m : Mem) (Q : α → Mem → Prop) :
    Prop :=
  ∃ value m', p.eval answer m = some (value, m') ∧ Q value m'

/-- Whatever the replies are, the program returns with `Q`. -/
def Yields : Program Op Reply α → (α → Prop) → Prop
  | .done value, Q => Q value
  | .act _ next, Q => ∀ reply, Yields (next reply) Q
  | .spent, _ => False

variable {p : Program Op Reply β} {body : α → σ → Program Op Reply (Next σ β)}

section

variable {answer : Op → Mem → Reply × Mem} {m : Mem} {Q : β → Mem → Prop}

theorem eval_bind (p : Program Op Reply α) (f : α → Program Op Reply β) (m : Mem) :
    (p >>= f).eval answer m = (p.eval answer m).bind fun r => (f r.1).eval answer r.2 := by
  change (p.bind f).eval answer m = _
  induction p generalizing m with
  | done value => rfl
  | act op next ih => exact ih _ _
  | spent => rfl

variable {Q' : β → Mem → Prop} {items : List α}

section

variable (h : p.Runs answer m Q)
include h

theorem Runs.mono (hQ : ∀ value m', Q value m' → Q' value m') : p.Runs answer m Q' := by
  obtain ⟨value, m', heval, hpost⟩ := h
  exact ⟨value, m', heval, hQ value m' hpost⟩

/-- The run is the one that was evaluated. -/
theorem Runs.of_eval {value : β} {m' : Mem} (heval : p.eval answer m = some (value, m')) : Q value m' := by
  obtain ⟨value', m'', heval', hpost⟩ := h
  obtain ⟨rfl, rfl⟩ := Prod.mk.inj (some.inj (heval.symm.trans heval'))
  exact hpost

/-- Two facts about one run. -/
theorem Runs.and (h' : p.Runs answer m Q') : p.Runs answer m fun value m' => Q value m' ∧ Q' value m' := by
  obtain ⟨value, m', heval, hpost⟩ := h
  exact ⟨value, m', heval, hpost, h'.of_eval heval⟩

end

theorem Runs.pure {value : β} (h : Q value m) : (Pure.pure value : Program Op Reply β).Runs answer m Q :=
  ⟨value, m, rfl, h⟩

theorem Runs.bind {p : Program Op Reply α} {f : α → Program Op Reply β}
    (h : p.Runs answer m fun value m' => (f value).Runs answer m' Q) : (p >>= f).Runs answer m Q := by
  obtain ⟨value, m', heval, value', m'', heval', hpost⟩ := h
  refine ⟨value', m'', ?_, hpost⟩
  rw [eval_bind, heval]
  exact heval'

/-- An operation, and then the rest. -/
theorem Runs.perform {op : Op} {f : Reply → Program Op Reply β}
    (h : (f (answer op m).1).Runs answer (answer op m).2 Q) :
    (perform op >>= f).Runs answer m Q := h

theorem Runs.when {c : Prop} [Decidable c] {p : Program Op Reply Unit} {Q : Unit → Mem → Prop}
    (hyes : c → p.Runs answer m Q) (hno : ¬c → Q () m) : (Program.when c p).Runs answer m Q := by
  rw [Program.when]
  split
  case isTrue h => exact hyes h
  case isFalse h => exact ⟨(), m, rfl, hno h⟩

variable {s : σ}

/-- A loop returns when its body keeps a condition and lowers a variant. -/
theorem Runs.loop {body : σ → Program Op Reply (Next σ β)} (J : σ → Mem → Prop) (variant : σ → Nat)
    (hbody : ∀ s m, J s m → (body s).Runs answer m
      (Next.Holds (fun s' m' => J s' m' ∧ variant s' < variant s) Q)) {rounds : Nat} (h : J s m)
    (hrounds : variant s < rounds) : (loop body rounds s).Runs answer m Q := by
  induction rounds generalizing s m with
  | zero => cases hrounds
  | succ rounds ih =>
    refine Runs.bind ((hbody s m h).mono fun next m' hnext => ?_)
    cases next with
    | again s' => exact ih hnext.1 (Nat.lt_of_lt_of_le hnext.2 (Nat.le_of_lt_succ hrounds))
    | done value => exact ⟨value, m', rfl, hnext⟩

/-- A loop over a list; the condition may speak of the rest of the list. -/
theorem Runs.each_rest (J : List α → σ → Mem → Prop)
    (hbody : ∀ a rest s m, J (a :: rest) s m → (body a s).Runs answer m (Next.Holds (J rest) Q)) (h : J items s m) :
    (each body items s).Runs answer m (Next.Holds (J []) Q) := by
  induction items generalizing s m with
  | nil => exact ⟨_, m, rfl, h⟩
  | cons a items ih =>
    refine Runs.bind ((hbody a items s m h).mono fun next m' hnext => ?_)
    cases next with
    | again s' => exact ih hnext
    | done value => exact ⟨_, m', rfl, hnext⟩

theorem Runs.each (J : σ → Mem → Prop) (hbody : ∀ a ∈ items, ∀ s m, J s m → (body a s).Runs answer m (Next.Holds J Q))
    (h : J s m) : (each body items s).Runs answer m (Next.Holds J Q) := by
  refine (Runs.each_rest (Q := Q) (fun rest s m => (∀ a ∈ rest, a ∈ items) ∧ J s m)
    (fun a rest s m hrest => ?_) ⟨fun _ ha => ha, h⟩).mono ?_
  · refine (hbody a (hrest.1 a List.mem_cons_self) s m hrest.2).mono ?_
    rintro (s' | value) m' hnext
    · exact ⟨fun a' ha' => hrest.1 a' (List.mem_cons_of_mem _ ha'), hnext⟩
    · exact hnext
  · rintro (s' | value) m' hnext
    · exact hnext.2
    · exact hnext

end

/-! ## Any replies -/

section

variable {Q : β → Prop}

theorem Yields.mono {Q' : β → Prop} (h : p.Yields Q) (hQ : ∀ value, Q value → Q' value) : p.Yields Q' := by
  induction p with
  | done value => exact hQ value h
  | act op next ih => exact fun reply => ih reply (h reply)
  | spent => exact h

@[simp] theorem yields_pure {value : β} : (pure value : Program Op Reply β).Yields Q ↔ Q value := Iff.rfl

@[simp] theorem yields_perform {op : Op} {Q : Reply → Prop} :
    (perform op : Program Op Reply Reply).Yields Q ↔ ∀ reply, Q reply := Iff.rfl

@[simp] theorem yields_bind {p : Program Op Reply α} {f : α → Program Op Reply β} :
    (p >>= f).Yields Q ↔ p.Yields fun value => (f value).Yields Q := by
  change (p.bind f).Yields Q ↔ _
  induction p with
  | done value => rfl
  | act op next ih => exact forall_congr' ih
  | spent => rfl

@[simp] theorem yields_ite {c : Prop} [Decidable c] {q : Program Op Reply β} :
    (if c then p else q).Yields Q ↔ (c → p.Yields Q) ∧ (¬c → q.Yields Q) := by
  split <;> simp_all

theorem Yields.loop {body : σ → Program Op Reply (Next σ β)} (J : σ → Prop) (variant : σ → Nat)
    (hbody : ∀ s, J s → (body s).Yields (Next.Gives (fun s' => J s' ∧ variant s' < variant s) Q))
    {rounds : Nat} {s : σ} (h : J s) (hrounds : variant s < rounds) :
    (loop body rounds s).Yields Q := by
  induction rounds generalizing s with
  | zero => cases hrounds
  | succ rounds ih =>
    refine yields_bind.mpr ((hbody s h).mono fun next hnext => ?_)
    cases next with
    | again s' => exact ih hnext.1 (Nat.lt_of_lt_of_le hnext.2 (Nat.le_of_lt_succ hrounds))
    | done value => exact hnext

/-- A loop over a list returns if its body does. -/
theorem Yields.each (hbody : ∀ a s, (body a s).Yields fun _ => True) (items : List α) (s : σ) :
    (each body items s).Yields fun _ => True := by
  induction items generalizing s with
  | nil => trivial
  | cons a items ih =>
    refine yields_bind.mpr ((hbody a s).mono fun next _ => ?_)
    cases next with
    | again s' => exact ih s'
    | done value => trivial

theorem Yields.runs (h : p.Yields Q) (answer : Op → Mem → Reply × Mem) (m : Mem) :
    p.Runs answer m fun value _ => Q value := by
  induction p generalizing m with
  | done value => exact ⟨value, m, rfl, h⟩
  | act op next ih => exact ih _ (h _) _
  | spent => exact h.elim

end

end Program

/-- What a thread may do among others it may do on its own. -/
theorem Safe.runs {ι Op Reply Mem G α : Type} [DecidableEq ι] {answer : Op → Mem → Reply × Mem}
    {does : ι → Op → Mem → Reply → Mem → Prop} {valid : Op → Prop} {Inv : Mem → (ι → G) → Prop}
    {Busy : G → Prop} {i : ι} {p : Program Op Reply α} {g : G} {Q : α → G → Prop}
    (h : Safe does valid Inv Busy i p g Q)
    (hdoes : ∀ op m, does i op m (answer op m).1 (answer op m).2) {m : Mem} {ghosts : ι → G}
    (hinv : Inv m ghosts) (hg : ghosts i = g) (hbusy : Busy g) {R : α → Mem → Prop}
    (hruns : p.Runs answer m R) : p.Runs answer m fun value m' => R value m' ∧
      ∃ g', Inv m' (update ghosts i g') ∧ Q value g' := by
  induction p generalizing m ghosts g with
  | done value =>
    obtain ⟨value', m', heval, hpost⟩ := hruns
    refine ⟨value', m', heval, hpost, g, ?_, ?_⟩
    · obtain ⟨-, rfl⟩ := Prod.mk.inj (some.inj heval)
      rw [← hg, update_eq_self]
      exact hinv
    · obtain ⟨rfl, -⟩ := Prod.mk.inj (some.inj heval)
      exact h
  | act op next ih =>
    obtain ⟨g', hinv', hbusy', hnext⟩ := h.2 m ghosts hinv hg hbusy _ _ (hdoes op m)
    have hrest := ih _ hnext hinv' (update_self i g' ghosts) hbusy' hruns
    simp only [update_idem] at hrest
    exact hrest
  | spent =>
    obtain ⟨value, m', heval, -⟩ := hruns
    exact nomatch heval

end Crabc.Lib
