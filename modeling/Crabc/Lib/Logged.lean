/-
  Crabc.Lib.Logged

  Computations that keep a log of what they do, and that may fail to return.  `Does`
  is the logic for them: every event of the log is allowed, and there is a result
  with the postcondition.  A loop is judged by an invariant and a variant; what one
  round logs, the loop logs.
-/

import Crabc.Lib.Loop

namespace Crabc.Lib

/-- A log and, unless the computation fails, its result. -/
structure Logged (ι α : Type) where
  events : List ι
  result : Option α
deriving DecidableEq, Repr

namespace Logged

variable {ι α β σ ρ : Type}

def pure (value : α) : Logged ι α := ⟨[], some value⟩

/-- The second part runs, and logs, only if the first returns. -/
def bind (c : Logged ι α) (f : α → Logged ι β) : Logged ι β :=
  match c.result with
  | none => ⟨c.events, none⟩
  | some value => ⟨c.events ++ (f value).events, (f value).result⟩

instance : Monad (Logged ι) where
  pure := pure
  bind := bind

/-- Log one event. -/
def emit (e : ι) : Logged ι Unit := ⟨[e], some ()⟩

/-- A loop of at most so many rounds. -/
def loop (body : σ → Logged ι (Next σ ρ)) : Nat → σ → Logged ι ρ
  | 0, _ => ⟨[], none⟩
  | rounds + 1, s => bind (body s) fun
    | .again s' => loop body rounds s'
    | .done r => pure r

/-! ## The logic -/

/-- Only allowed events are logged, and there is a result with `Q`. -/
structure Does (c : Logged ι α) (E : ι → Prop) (Q : α → Prop) : Prop where
  allowed : ∀ e ∈ c.events, E e
  returns : ∃ value, c.result = some value ∧ Q value

variable {c : Logged ι α} {E : ι → Prop} {Q Q' : α → Prop} {R : β → Prop} {value : α} {e : ι}

theorem does_pure (h : Q value) : (Pure.pure value : Logged ι α).Does E Q where
  allowed := nofun
  returns := ⟨value, rfl, h⟩

theorem does_emit (h : E e) : (emit e).Does E fun _ => True where
  allowed := by
    intro e' he'
    cases List.mem_singleton.mp he'
    exact h
  returns := ⟨(), rfl, trivial⟩

theorem Does.mono (h : c.Does E Q) (hQ : ∀ value, Q value → Q' value) : c.Does E Q' where
  allowed := h.allowed
  returns := by
    obtain ⟨value, hvalue, hpost⟩ := h.returns
    exact ⟨value, hvalue, hQ value hpost⟩

theorem bind_of_result (h : c.result = some value) (f : α → Logged ι β) :
    c >>= f = ⟨c.events ++ (f value).events, (f value).result⟩ := by
  show bind c f = _
  rw [bind, h]

@[simp] theorem result_bind (c : Logged ι α) (f : α → Logged ι β) :
    (c >>= f).result = c.result.bind fun value => (f value).result := by
  show (bind c f).result = _
  rw [bind]
  cases c.result <;> rfl

@[simp] theorem result_pure (value : α) : (Pure.pure value : Logged ι α).result = some value := rfl

@[simp] theorem result_emit (e : ι) : (emit e).result = some () := rfl

variable {f : α → Logged ι β} {body : σ → Logged ι (Next σ ρ)}

theorem mem_events_bind_left (he : e ∈ c.events) : e ∈ (c >>= f).events := by
  cases h : c.result with
  | none =>
    show e ∈ (bind c f).events
    rw [bind, h]
    exact he
  | some value =>
    rw [bind_of_result h]
    exact List.mem_append_left _ he

/-- The second part logs behind the first. -/
theorem mem_events_bind (h : c.result = some value) (he : e ∈ (f value).events) : e ∈ (c >>= f).events := by
  rw [bind_of_result h]
  exact List.mem_append_right _ he

theorem Does.bind (h : c.Does E Q) (hf : ∀ value, Q value → (f value).Does E R) : (c >>= f).Does E R := by
  obtain ⟨value, hvalue, hpost⟩ := h.returns
  have hnext := hf value hpost
  rw [bind_of_result hvalue]
  refine ⟨?_, hnext.returns⟩
  intro e he
  rcases List.mem_append.mp he with he | he
  · exact h.allowed e he
  · exact hnext.allowed e he

theorem does_ite {p : Prop} [Decidable p] {d : Logged ι α} (hc : p → c.Does E Q)
    (hd : ¬ p → d.Does E Q) : (if p then c else d).Does E Q := by
  split
  · exact hc ‹_›
  · exact hd ‹_›

/-! ## Loops -/

/-- Every round keeps the invariant and lowers the variant, or returns a result with the postcondition. -/
theorem does_loop {Post : ρ → Prop} (Inv : σ → Prop) (variant : σ → Nat)
    (round : ∀ s, Inv s → (body s).Does E fun | .again s' => Inv s' ∧ variant s' < variant s | .done r => Post r)
    (rounds : Nat) (s : σ) (hinv : Inv s) (hlt : variant s < rounds) :
    (loop body rounds s).Does E Post := by
  induction rounds generalizing s with
  | zero => cases hlt
  | succ rounds ih =>
    refine (round s hinv).bind fun next hnext => ?_
    cases next with
    | again s' => exact ih s' hnext.1 (by omega)
    | done r => exact does_pure hnext

/-- The loop is at `s'` after so many rounds. -/
inductive Turns (body : σ → Logged ι (Next σ ρ)) : Nat → σ → σ → Prop where
  | zero (s : σ) : Turns body 0 s s
  | succ {n : Nat} {s s' s'' : σ} :
      (body s).result = some (.again s') → Turns body n s' s'' → Turns body (n + 1) s s''

/-- One more round at the end. -/
theorem Turns.snoc {n : Nat} {s s' s'' : σ} (h : Turns body n s s')
    (hlast : (body s').result = some (.again s'')) : Turns body (n + 1) s s'' := by
  induction h with
  | zero s => exact .succ hlast (.zero s'')
  | succ hfirst _ ih => exact .succ hfirst (ih hlast)

/-- What the round at a state the loop gets to logs, the loop logs. -/
theorem mem_events_loop {n rounds : Nat} {s s' : σ} (h : Turns body n s s') (hlt : n < rounds)
    (he : e ∈ (body s').events) : e ∈ (loop body rounds s).events := by
  obtain ⟨rounds, rfl⟩ : ∃ m, rounds = m + 1 := ⟨rounds - 1, by omega⟩
  induction h generalizing rounds with
  | zero s => exact mem_events_bind_left he
  | succ hfirst _ ih =>
    obtain ⟨rounds, rfl⟩ : ∃ m, rounds = m + 1 := ⟨rounds - 1, by omega⟩
    exact mem_events_bind hfirst (ih he rounds (by omega))

end Logged

end Crabc.Lib
