/-
  Crabc.Lib.Interleaving

  Threads that share a memory.  A program is a tree of atomic operations; threads start
  calls, do one operation at a time in any order, and return.

  Reasoning is thread by thread.  Every thread has a ghost value, and an invariant ties
  the ghost values of all threads to the memory.  `Safe` says of one program that each
  of its operations keeps the invariant by a change of the thread's own ghost value; the
  other threads cannot change that value, so what a program knows of it is stable.  If
  all calls are safe, the invariant holds in every interleaving.
-/

import Crabc.Lib.Loop

namespace Crabc.Lib

open Relation Function

/-- A program returns, or does an operation and goes on with the reply, or has used up the rounds of a loop. -/
inductive Program (Op Reply α : Type) where
  | done (value : α)
  | act (op : Op) (next : Reply → Program Op Reply α)
  | spent

open Program

namespace Program

variable {Op Reply α β σ : Type}

def bind : Program Op Reply α → (α → Program Op Reply β) → Program Op Reply β
  | .done value, f => f value
  | .act op next, f => .act op fun reply => bind (next reply) f
  | .spent, _ => .spent

instance : Monad (Program Op Reply) where
  pure := .done
  bind := bind

/-- One operation. -/
def perform (op : Op) : Program Op Reply Reply := .act op .done

/-- A program that is run on a condition. -/
def when (c : Prop) [Decidable c] (p : Program Op Reply Unit) : Program Op Reply Unit :=
  if c then p else .done ()

/-- A loop of at most so many rounds. -/
def loop (body : σ → Program Op Reply (Next σ α)) : Nat → σ → Program Op Reply α
  | 0, _ => .spent
  | rounds + 1, s => body s >>= fun
    | .again s' => loop body rounds s'
    | .done value => .done value

/-- A loop over a list, with an early return. -/
def each (body : β → σ → Program Op Reply (Next σ α)) : List β → σ → Program Op Reply (Next σ α)
  | [], s => .done (.again s)
  | b :: bs, s => body b s >>= fun
    | .again s' => each body bs s'
    | .done value => .done (.done value)

/-- At most so many operations of a program, with nobody else in between. -/
def advance {Mem : Type} (answer : Op → Mem → Reply × Mem) :
    Nat → Program Op Reply α → Mem → Program Op Reply α × Mem
  | n + 1, .act op next, m => advance answer n (next (answer op m).1) (answer op m).2
  | _, p, m => (p, m)

/-- Some operations of a program, with nobody else in between. -/
inductive Trace {Mem : Type} (does : Op → Mem → Reply → Mem → Prop) :
    Program Op Reply α → Mem → Program Op Reply α → Mem → Prop where
  | refl {p : Program Op Reply α} {m : Mem} : Trace does p m p m
  | act {op : Op} {next : Reply → Program Op Reply α} {p : Program Op Reply α} {m m' m'' : Mem} {reply : Reply}
      (hdoes : does op m reply m') (rest : Trace does (next reply) m' p m'') :
      Trace does (.act op next) m p m''

theorem Trace.advance {Mem : Type} {does : Op → Mem → Reply → Mem → Prop} {answer : Op → Mem → Reply × Mem}
    (hdoes : ∀ op m, does op m (answer op m).1 (answer op m).2) (n : Nat) (p : Program Op Reply α) (m : Mem) :
    p.Trace does m (p.advance answer n m).1 (p.advance answer n m).2 := by
  induction n generalizing p m with
  | zero => cases p <;> exact .refl
  | succ n ih =>
    cases p with
    | done value => exact .refl
    | spent => exact .refl
    | act op next => exact .act (hdoes op m) (ih _ _)

/-- The same program with operations of a larger set. -/
def embed {Op' : Type} (f : Op → Op') : Program Op Reply α → Program Op' Reply α
  | .done value => .done value
  | .act op next => .act (f op) fun reply => (next reply).embed f
  | .spent => .spent

/-- What a program has returned. -/
def result : Program Op Reply α → Option α
  | .done value => some value
  | _ => none

theorem eq_done {p : Program Op Reply α} {value : α} (h : p.result = some value) : p = .done value := by
  cases p with
  | done value' => exact congrArg done (Option.some.inj h)
  | act op next => exact nomatch h
  | spent => exact nomatch h

end Program

/-! ## Threads -/

section

variable {ι Mem Op Reply L Call Result G : Type}

/-- What a thread calls.  `L` is what a thread holds between its calls. -/
structure Interface (Op Reply L Call Result : Type) where
  code : Nat → Call → Program Op Reply Result
  allowed : L → Call → Prop
  begin : L → Call → L
  finish : L → Call → Result → L

/-- A thread, with the rest of the call it is in. -/
structure ThreadState (Op Reply L Call Result : Type) where
  holds : L
  call : Option (Call × Program Op Reply Result)

/-- All threads and the memory. -/
structure SystemState (ι Mem Op Reply L Call Result : Type) where
  memory : Mem
  threads : ι → ThreadState Op Reply L Call Result

variable [DecidableEq ι]

/-- One thread starts a call, does an operation or returns.  `ends` restricts the returns. -/
inductive Interface.Step (api : Interface Op Reply L Call Result)
    (does : ι → Op → Mem → Reply → Mem → Prop) (ends : ι → Call → Result → Mem → Prop) :
    SystemState ι Mem Op Reply L Call Result → SystemState ι Mem Op Reply L Call Result → Prop where
  | call {s : SystemState ι Mem Op Reply L Call Result} (i : ι) (rounds : Nat) (c : Call) {l : L}
      (hidle : s.threads i = ⟨l, none⟩) (hallowed : api.allowed l c) :
      api.Step does ends s
        ⟨s.memory, update s.threads i ⟨api.begin l c, some (c, api.code rounds c)⟩⟩
  | act {s : SystemState ι Mem Op Reply L Call Result} (i : ι) {l : L} {c : Call} {op : Op}
      {next : Reply → Program Op Reply Result} {reply : Reply} {memory' : Mem}
      (hact : s.threads i = ⟨l, some (c, .act op next)⟩)
      (hdoes : does i op s.memory reply memory') :
      api.Step does ends s
        ⟨memory', update s.threads i ⟨l, some (c, next reply)⟩⟩
  | finish {s : SystemState ι Mem Op Reply L Call Result} (i : ι) {l : L} {c : Call} {value : Result}
      (hdone : s.threads i = ⟨l, some (c, .done value)⟩) (hends : ends i c value s.memory) :
      api.Step does ends s
        ⟨s.memory, update s.threads i ⟨api.finish l c value, none⟩⟩

variable {c : Call}

section

variable {api : Interface Op Reply L Call Result} {does : ι → Op → Mem → Reply → Mem → Prop}
  {ends : ι → Call → Result → Mem → Prop} {answer : Op → Mem → Reply × Mem}

variable {memory : Mem} {threads : ι → ThreadState Op Reply L Call Result} {i : ι} {memory' : Mem} {l : L}

/-- A thread may do any number of operations in a row. -/
theorem Interface.Step.trace {p p' : Program Op Reply Result}
    (h : p.Trace (does i) memory p' memory') (hcall : threads i = ⟨l, some (c, p)⟩) :
    ReflTransGen (api.Step does ends) ⟨memory, threads⟩
      ⟨memory', update threads i ⟨l, some (c, p')⟩⟩ := by
  induction h generalizing threads with
  | refl =>
    rw [← hcall, update_eq_self]
  | @act op next p' memory memory1 _ reply hdoes rest ih =>
    have hstep : api.Step does ends ⟨memory, threads⟩
        ⟨memory1, update threads i ⟨l, some (c, next reply)⟩⟩ := .act i hcall hdoes
    have hrest : ReflTransGen (api.Step does ends)
        ⟨memory1, update threads i ⟨l, some (c, next reply)⟩⟩ _ :=
      ih (update_self i _ threads)
    rw [update_idem] at hrest
    exact .head hstep hrest

theorem Interface.Step.advance (hdoes : ∀ op m, does i op m (answer op m).1 (answer op m).2) (n : Nat)
    {p : Program Op Reply Result} (hcall : threads i = ⟨l, some (c, p)⟩) :
    ReflTransGen (api.Step does ends) ⟨memory, threads⟩
      ⟨(p.advance answer n memory).2, update threads i ⟨l, some (c, (p.advance answer n memory).1)⟩⟩ :=
  Interface.Step.trace (Program.Trace.advance hdoes n p memory) hcall

/-- A whole call with nobody else in between. -/
theorem Interface.Step.callTrace {rounds : Nat} {value : Result}
    (hidle : threads i = ⟨l, none⟩) (hallowed : api.allowed l c)
    (htrace : (api.code rounds c).Trace (does i) memory (.done value) memory') (hends : ends i c value memory') :
    ReflTransGen (api.Step does ends) ⟨memory, threads⟩
      ⟨memory', update threads i ⟨api.finish (api.begin l c) c value, none⟩⟩ := by
  have hcall : api.Step does ends ⟨memory, threads⟩ _ := .call i rounds c hidle hallowed
  have hrun : ReflTransGen (api.Step does ends) _ _ := Interface.Step.trace htrace (update_self i
    (⟨api.begin l c, some (c, api.code rounds c)⟩ : ThreadState ..) threads)
  rw [update_idem] at hrun
  have hfinish : api.Step does ends
      ⟨memory', update threads i ⟨api.begin l c, some (c, .done value)⟩⟩ _ :=
    .finish i (update_self i _ threads) hends
  rw [update_idem] at hfinish
  exact (ReflTransGen.head hcall hrun).tail hfinish

theorem Interface.Step.wholeCall (hdoes : ∀ op m, does i op m (answer op m).1 (answer op m).2)
    (n rounds : Nat) {value : Result} (hidle : threads i = ⟨l, none⟩)
    (hallowed : api.allowed l c) (hdone : (api.code rounds c).advance answer n memory = (.done value, memory'))
    (hends : ends i c value memory') : ReflTransGen (api.Step does ends) ⟨memory, threads⟩
      ⟨memory', update threads i ⟨api.finish (api.begin l c) c value, none⟩⟩ := by
  have htrace := Program.Trace.advance hdoes n (api.code rounds c) memory
  rw [hdone] at htrace
  exact Interface.Step.callTrace hidle hallowed htrace hends

end

/-! ## Safe programs -/

section

variable (does : ι → Op → Mem → Reply → Mem → Prop) (valid : Op → Prop)
  (Inv : Mem → (ι → G) → Prop) (Busy : G → Prop)

/-- Thread `i` may do this operation: it keeps the invariant and what holds of the thread
    during its call, with a ghost value that satisfies `Q`. -/
def Keeps (i : ι) (op : Op) (g : G) (Q : Reply → G → Prop) : Prop :=
  valid op ∧ ∀ memory ghosts, Inv memory ghosts → ghosts i = g → Busy g →
    ∀ reply memory', does i op memory reply memory' → ∃ g', Inv memory' (update ghosts i g') ∧ Busy g' ∧ Q reply g'

/-- From the ghost value `g` every operation of the program keeps the invariant, and it returns with `Q`. -/
def Safe {α : Type} (i : ι) : Program Op Reply α → G → (α → G → Prop) → Prop
  | .done value, g, Q => Q value g
  | .act op next, g, Q => Keeps does valid Inv Busy i op g fun reply g' => Safe i (next reply) g' Q
  | .spent, _, _ => True

end

section

variable {does : ι → Op → Mem → Reply → Mem → Prop} {valid : Op → Prop}
  {Inv : Mem → (ι → G) → Prop} {Busy : G → Prop} {i : ι} {α β σ : Type} {g : G}

/-- `J` if a loop goes on, `Q` if it returns. -/
def Next.Holds (J : σ → G → Prop) (Q : α → G → Prop) : Next σ α → G → Prop
  | .again s, g => J s g
  | .done value, g => Q value g

theorem Keeps.mono {op : Op} {Q Q' : Reply → G → Prop} (h : Keeps does valid Inv Busy i op g Q)
    (hQ : ∀ reply g', Q reply g' → Q' reply g') : Keeps does valid Inv Busy i op g Q' := by
  refine ⟨h.1, fun memory ghosts hinv hg hbusy reply memory' hdoes => ?_⟩
  obtain ⟨g', hinv', hbusy', hpost⟩ := h.2 memory ghosts hinv hg hbusy reply memory' hdoes
  exact ⟨g', hinv', hbusy', hQ reply g' hpost⟩

variable {Q : α → G → Prop} {p : Program Op Reply α}

theorem Safe.mono {Q' : α → G → Prop} (h : Safe does valid Inv Busy i p g Q)
    (hQ : ∀ value g', Q value g' → Q' value g') : Safe does valid Inv Busy i p g Q' := by
  induction p generalizing g with
  | done value => exact hQ value g h
  | act op next ih => exact Keeps.mono h fun reply g' hnext => ih reply hnext
  | spent => trivial

@[simp, grind =] theorem safe_pure {value : α} : Safe does valid Inv Busy i (pure value) g Q = Q value g := rfl

theorem Safe.bind {f : α → Program Op Reply β} {Q : β → G → Prop}
    (h : Safe does valid Inv Busy i p g fun value g' => Safe does valid Inv Busy i (f value) g' Q) :
    Safe does valid Inv Busy i (p >>= f) g Q := by
  change Safe does valid Inv Busy i (p.bind f) g Q
  induction p generalizing g with
  | done value => exact h
  | act op next ih => exact Keeps.mono h fun reply g' hnext => ih reply hnext
  | spent => trivial

/-- What does not depend on the ghost value holds during the whole program. -/
theorem Safe.busy_and {C : Prop} (h : Safe does valid Inv Busy i p g Q) :
    Safe does valid Inv (fun g => Busy g ∧ C) i p g Q := by
  induction p generalizing g with
  | done value => exact h
  | act op next ih =>
    refine ⟨h.1, fun memory ghosts hinv hg hbusy reply memory' hdoes => ?_⟩
    obtain ⟨g', hinv', hbusy', hnext⟩ := h.2 memory ghosts hinv hg hbusy.1 reply memory' hdoes
    exact ⟨g', hinv', ⟨hbusy', hbusy.2⟩, ih reply hnext⟩
  | spent => trivial

theorem Safe.embed {Op' : Type} {does : ι → Op' → Mem → Reply → Mem → Prop} {valid : Op' → Prop} {f : Op → Op'}
    (h : Safe (fun i op => does i (f op)) (fun op => valid (f op)) Inv Busy i p g Q) :
    Safe does valid Inv Busy i (p.embed f) g Q := by
  induction p generalizing g with
  | done value => exact h
  | act op next ih => exact Keeps.mono h fun reply g' hnext => ih reply hnext
  | spent => trivial

/-- An operation, and then the rest. -/
theorem Keeps.bind {op : Op} {f : Reply → Program Op Reply β} {Q : β → G → Prop}
    (h : Keeps does valid Inv Busy i op g fun reply g' => Safe does valid Inv Busy i (f reply) g' Q) :
    Safe does valid Inv Busy i (perform op >>= f) g Q := h

theorem Safe.when {c : Prop} [Decidable c] {p : Program Op Reply Unit} {Q : Unit → G → Prop}
    (hyes : c → Safe does valid Inv Busy i p g Q) (hno : ¬c → Q () g) :
    Safe does valid Inv Busy i (Program.when c p) g Q := by
  rw [Program.when]
  split
  case isTrue h => exact hyes h
  case isFalse h => exact hno h

/-- A loop is safe when its body keeps a condition on the loop state and the ghost value. -/
theorem Safe.loop {body : σ → Program Op Reply (Next σ α)} (J : σ → G → Prop)
    (hbody : ∀ s g, J s g → Safe does valid Inv Busy i (body s) g (Next.Holds J Q)) (rounds : Nat) {s : σ}
    (h : J s g) : Safe does valid Inv Busy i (Program.loop body rounds s) g Q := by
  induction rounds generalizing s g with
  | zero => trivial
  | succ rounds ih =>
    refine Safe.bind ((hbody s g h).mono fun next g' hnext => ?_)
    cases next with
    | again s' => exact ih hnext
    | done value => exact hnext

variable {body : β → σ → Program Op Reply (Next σ α)} {items : List β}

/-- So is a loop over a list; the condition may speak of the rest of the list. -/
theorem Safe.each_rest (J : List β → σ → G → Prop)
    (hbody : ∀ b rest s g, J (b :: rest) s g → Safe does valid Inv Busy i (body b s) g (Next.Holds (J rest) Q))
    {s : σ} (h : J items s g) :
    Safe does valid Inv Busy i (each body items s) g (Next.Holds (J []) Q) := by
  induction items generalizing s g with
  | nil => exact h
  | cons b items ih =>
    refine Safe.bind ((hbody b items s g h).mono fun next g' hnext => ?_)
    cases next with
    | again s' => exact ih hnext
    | done value => exact hnext

theorem Safe.each (J : σ → G → Prop)
    (hbody : ∀ b ∈ items, ∀ s g, J s g → Safe does valid Inv Busy i (body b s) g (Next.Holds J Q)) {s : σ}
    (h : J s g) : Safe does valid Inv Busy i (each body items s) g (Next.Holds J Q) := by
  refine (Safe.each_rest (Q := Q) (fun rest s g => (∀ b ∈ rest, b ∈ items) ∧ J s g)
    (fun b rest s g hrest => ?_) ⟨fun _ hb => hb, h⟩).mono ?_
  · refine (hbody b (hrest.1 b List.mem_cons_self) s g hrest.2).mono ?_
    rintro (s' | value) g' hnext
    · exact ⟨fun b' hb' => hrest.1 b' (List.mem_cons_of_mem _ hb'), hnext⟩
    · exact hnext
  · rintro (s' | value) g' hnext
    · exact hnext.2
    · exact hnext

end

/-! ## Runs -/

section

variable (api : Interface Op Reply L Call Result) (does : ι → Op → Mem → Reply → Mem → Prop)
  (valid : Op → Prop) (Inv : Mem → (ι → G) → Prop) (Idle Busy : ι → L → G → Prop)
  (ends : ι → Call → Result → Mem → Prop)

/-- A thread with this ghost value may return this value. -/
def MayEnd (i : ι) (c : Call) (value : Result) (g : G) : Prop :=
  ∃ memory ghosts, Inv memory ghosts ∧ ghosts i = g ∧ ends i c value memory

/-- The rest of a call is safe and makes the thread idle. -/
def ThreadState.Returns (i : ι) (l : L) (c : Call) (p : Program Op Reply Result) (g : G) : Prop :=
  Busy i l g ∧ Safe does valid Inv (Busy i l) i p g fun value g' =>
    Busy i l g' → MayEnd Inv ends i c value g' → Idle i (api.finish l c value) g'

/-- What is known of a thread: `Idle` between its calls, and in a call that it returns. -/
def ThreadState.Fits (i : ι) (t : ThreadState Op Reply L Call Result) (g : G) : Prop :=
  match t.call with
  | none => Idle i t.holds g
  | some (c, p) => Returns api does valid Inv Idle Busy ends i t.holds c p g

/-- The invariant holds with ghost values that fit the threads. -/
def SystemState.Fits (s : SystemState ι Mem Op Reply L Call Result) : Prop :=
  ∃ ghosts : ι → G, Inv s.memory ghosts ∧ ∀ i, (s.threads i).Fits api does valid Inv Idle Busy ends i (ghosts i)

/-- Every call an idle thread may make is safe and makes it idle again. -/
def Interface.Safe : Prop :=
  ∀ i rounds l c g, api.allowed l c → Idle i l g →
    ThreadState.Returns api does valid Inv Idle Busy ends i (api.begin l c) c (api.code rounds c) g

variable {api does valid Inv Idle Busy ends} {s s' : SystemState ι Mem Op Reply L Call Result}

/-- What a thread does changes its own ghost value and no other. -/
theorem fits_update {ghosts : ι → G} (h : ∀ i, (s.threads i).Fits api does valid Inv Idle Busy ends i (ghosts i))
    (i : ι) (t : ThreadState Op Reply L Call Result) {g : G}
    (ht : t.Fits api does valid Inv Idle Busy ends i g) (j : ι) :
    (update s.threads i t j).Fits api does valid Inv Idle Busy ends j
      (update ghosts i g j) := by
  by_cases hj : j = i
  · subst hj
    rw [update_self, update_self]
    exact ht
  · rw [update_of_ne hj, update_of_ne hj]
    exact h j

section

variable (hsafe : api.Safe does valid Inv Idle Busy ends)
  (h : s.Fits api does valid Inv Idle Busy ends)
include hsafe h

theorem SystemState.Fits.step (hstep : api.Step does ends s s') : s'.Fits api does valid Inv Idle Busy ends := by
  obtain ⟨ghosts, hinv, hfits⟩ := h
  cases hstep with
  | call i rounds c hidle hallowed =>
    have hi := hfits i
    rw [hidle] at hi
    refine ⟨ghosts, hinv, fun j => ?_⟩
    have hupdate := fits_update hfits i ⟨_, some (c, _)⟩ (hsafe i rounds _ c _ hallowed hi) j
    rw [update_eq_self] at hupdate
    exact hupdate
  | act i hact hdoes =>
    have hi := hfits i
    rw [hact] at hi
    obtain ⟨hbusy, hsafe⟩ := hi
    obtain ⟨g', hinv', hbusy', hnext⟩ := hsafe.2 _ ghosts hinv rfl hbusy _ _ hdoes
    exact ⟨_, hinv', fits_update hfits i ⟨_, some (_, _)⟩ ⟨hbusy', hnext⟩⟩
  | finish i hdone hends =>
    have hi := hfits i
    rw [hdone] at hi
    obtain ⟨hbusy, hidle⟩ := hi
    refine ⟨ghosts, hinv, fun j => ?_⟩
    have hupdate := fits_update hfits i ⟨_, none⟩ (hidle hbusy ⟨_, ghosts, hinv, rfl, hends⟩) j
    rw [update_eq_self] at hupdate
    exact hupdate

/-- **Interleavings.**  If all calls are safe, the invariant holds in every run. -/
theorem SystemState.Fits.run (hrun : ReflTransGen (api.Step does ends) s s') :
    s'.Fits api does valid Inv Idle Busy ends := by
  induction hrun with
  | refl => exact h
  | tail _ hstep ih => exact ih.step hsafe hstep

end

/-- A thread that is about to act does a valid operation. -/
theorem SystemState.Fits.acts_valid (h : s.Fits api does valid Inv Idle Busy ends) {i : ι} {l : L} {op : Op}
    {next : Reply → Program Op Reply Result} (hact : s.threads i = ⟨l, some (c, .act op next)⟩) : valid op := by
  obtain ⟨ghosts, -, hfits⟩ := h
  have hi := hfits i
  rw [hact] at hi
  exact hi.2.1

end

end

end Crabc.Lib
