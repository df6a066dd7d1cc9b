/-
  Crabc.Lib.Transducer

  Unit-at-a-time transducers over a prefix-stable step.

  A step looks at the front of the input and either emits a unit (consuming a
  nonempty front), asks for more input, or fails.  Emitting and failing only
  depend on the front: they do not change when input is appended.  `Reaches`
  is the unbounded run, `Call` one run into a bounded output, `Drive` a
  sequence of calls that hand the unconsumed rest to the next one.  The main
  result is that every drive passes through the states of the one unbounded
  run, so how the input is cut and how the output is bounded cannot be seen in
  what is produced.
-/

import Mathlib

namespace Crabc.Lib

variable {α β ε : Type}

/-- What a transducer does at the front of its input.  `mark` flags the unit. -/
inductive Act (β ε : Type) where
  | emit (n : Nat) (out : List β) (mark : Bool)
  | need
  | fail (e : ε)
deriving DecidableEq

/-- A step with its laws: units are nonempty, of bounded output, and emitting
    or failing is not undone by more input. -/
structure Transducer (α β ε : Type) where
  step : List α → Act β ε
  width : Nat
  emit_pos : ∀ {s n out m}, step s = .emit n out m → 0 < n
  emit_le : ∀ {s n out m}, step s = .emit n out m → n ≤ s.length
  emit_width : ∀ {s n out m}, step s = .emit n out m → out.length ≤ width
  emit_append : ∀ {s n out m} (t), step s = .emit n out m → step (s ++ t) = .emit n out m
  fail_append : ∀ {s e} (t), step s = .fail e → step (s ++ t) = .fail e

/-! ## The unbounded run -/

/-- `Reaches T s k out c`: reading `s` unit by unit, `T` gets to position `k`
    having produced `out` with `c` marked units. -/
inductive Reaches (T : Transducer α β ε) : List α → Nat → List β → Nat → Prop where
  | nil {s} : Reaches T s 0 [] 0
  | cons {s n out m k rest c} : T.step s = .emit n out m → Reaches T (s.drop n) k rest c →
      Reaches T s (n + k) (out ++ rest) (m.toNat + c)

variable {T : Transducer α β ε} {s t : List α} {k : Nat} {out : List β} {c : Nat}

open List

/-- No further unit can be emitted at position `k`. -/
def Stuck (T : Transducer α β ε) (s : List α) (k : Nat) : Prop :=
  ∀ n out m, T.step (s.drop k) ≠ .emit n out m

variable {k' c' : Nat} {out' : List β}

section

variable (h : Reaches T s k out c)
include h

theorem Reaches.le_length : k ≤ s.length := by
  induction h with
  | nil => exact Nat.zero_le _
  | cons hstep _ ih =>
    have hn := T.emit_le hstep
    rw [length_drop] at ih
    omega

/-- A run is not disturbed by input behind it. -/
theorem Reaches.append (t : List α) : Reaches T (s ++ t) k out c := by
  induction h with
  | nil => exact .nil
  | cons hstep _ ih =>
    refine .cons (T.emit_append t hstep) ?_
    rw [drop_append_of_le_length (T.emit_le hstep)]
    exact ih

theorem Reaches.trans (h' : Reaches T (s.drop k) k' out' c') : Reaches T s (k + k') (out ++ out') (c + c') := by
  induction h with
  | nil => simpa using h'
  | cons hstep _ ih =>
    rw [append_assoc, Nat.add_assoc, Nat.add_assoc]
    refine .cons hstep (ih ?_)
    rwa [drop_drop]

/-- One more unit at the end of a run. -/
theorem Reaches.snoc {n : Nat} {o : List β} {m : Bool} (hstep : T.step (s.drop k) = .emit n o m) :
    Reaches T s (k + n) (out ++ o) (c + m.toNat) := by
  simpa using h.trans (.cons hstep .nil)

theorem Reaches.length_le : out.length ≤ T.width * k := by
  induction h with
  | nil => simp
  | @cons s n out m k rest c hstep _ ih =>
    have hw := T.emit_width hstep
    have hp : T.width * 1 ≤ T.width * n := Nat.mul_le_mul_left _ (T.emit_pos hstep)
    rw [length_append, Nat.mul_add]
    omega

/-- Runs of one input are prefixes of each other: a stuck one extends the rest. -/
theorem Reaches.extends (h' : Reaches T s k' out' c') (hs' : Stuck T s k') :
    ∃ j o d, Reaches T (s.drop k) j o d ∧ k' = k + j ∧ out' = out ++ o ∧ c' = c + d := by
  induction h generalizing k' out' c' with
  | nil => exact ⟨k', out', c', h', by simp, by simp, by simp⟩
  | @cons s n o₁ m k rest c hstep _ ih =>
    cases h' with
    | nil => exact absurd hstep (hs' _ _ _)
    | cons hstep' hrest =>
      obtain ⟨rfl, rfl, rfl⟩ := Act.emit.inj (hstep.symm.trans hstep')
      obtain ⟨j, o, d, hr, rfl, rfl, rfl⟩ :=
        ih hrest (by simpa [Stuck, drop_drop] using hs')
      refine ⟨j, o, d, ?_, by omega, by simp, by omega⟩
      rwa [drop_drop] at hr

/-- Two runs of one input that are stuck agree. -/
theorem Reaches.unique (h' : Reaches T s k' out' c') (hs : Stuck T s k) (hs' : Stuck T s k') :
    k = k' ∧ out = out' ∧ c = c' := by
  obtain ⟨j, o, d, hr, rfl, rfl, rfl⟩ := h.extends h' hs'
  cases hr with
  | nil => simp
  | cons hstep _ => exact absurd hstep (hs _ _ _)

end

/-! ## Bounded calls -/

/-- Why a call returned. -/
inductive Exit (ε : Type) where
  | done
  | need
  | full
  | fail (e : ε)
deriving DecidableEq

/-- The reason a call into `cap` places stopped at position `k` with `out` produced. -/
def Exit.Holds (T : Transducer α β ε) (cap : Nat) (s : List α) (k : Nat) (out : List β) :
    Exit ε → Prop
  | .done => k = s.length
  | .need => k ≠ s.length ∧ T.step (s.drop k) = .need
  | .full => ∃ n o m, T.step (s.drop k) = .emit n o m ∧ cap < out.length + o.length
  | .fail e => k ≠ s.length ∧ T.step (s.drop k) = .fail e

/-- One call on input `s` with room for `cap` outputs. -/
structure Call (T : Transducer α β ε) (cap : Nat) (s : List α) (k : Nat) (out : List β) (c : Nat)
    (e : Exit ε) : Prop where
  reaches : Reaches T s k out c
  fits : out.length ≤ cap
  exit : e.Holds T cap s k out

theorem stuck_of_length (T : Transducer α β ε) (s : List α) : Stuck T s s.length := by
  intro n out m hstep
  have hp := T.emit_pos hstep
  have hn := T.emit_le hstep
  exact absurd hp (by simp at hn; omega)

variable {cap : Nat} {e : Exit ε}

theorem Exit.Holds.stuck (h : e.Holds T cap s k out) (hf : e ≠ .full) : Stuck T s k := by
  cases e with
  | done => rw [show k = s.length from h]; exact stuck_of_length T s
  | full => exact absurd rfl hf
  | need | fail e => intro n o m hstep; rw [h.2] at hstep; cases hstep

variable {e' : Exit ε}

/-- A stop other than a full output is read off the position alone. -/
theorem Exit.Holds.congr {cap' : Nat} (h : e.Holds T cap s k out) (h' : e'.Holds T cap' s k out')
    (hf : e ≠ .full) (hf' : e' ≠ .full) : e = e' := by
  cases e <;> cases e' <;> simp_all [Exit.Holds]

section

variable (h : Call T cap s k out c e)
include h

/-- Two calls on one input that both had room enough did the same. -/
theorem Call.unique {cap' : Nat} (h' : Call T cap' s k' out' c' e') (hf : e ≠ .full) (hf' : e' ≠ .full) :
    k = k' ∧ out = out' ∧ c = c' ∧ e = e' := by
  obtain ⟨rfl, rfl, rfl⟩ := h.reaches.unique h'.reaches (h.exit.stuck hf) (h'.exit.stuck hf')
  exact ⟨rfl, rfl, rfl, h.exit.congr h'.exit hf hf'⟩

/-- With room for every unit a call is never stopped by its output. -/
theorem Call.ne_full (hcap : T.width * s.length ≤ cap) : e ≠ .full := by
  rintro rfl
  obtain ⟨n, o, m, hstep, hlt⟩ := h.exit
  have hlen := (h.reaches.snoc hstep).length_le
  have hk := (h.reaches.snoc hstep).le_length
  have hmul : T.width * (k + n) ≤ T.width * s.length := Nat.mul_le_mul_left _ hk
  rw [length_append] at hlen
  omega

/-- A run that is stuck and fits is what a call into that room performs. -/
theorem Call.ne_full_of_reaches (h' : Reaches T s k' out' c') (hs' : Stuck T s k') (hfits : out'.length ≤ cap) :
    e ≠ .full := by
  rintro rfl
  obtain ⟨n, o, m, hstep, hlt⟩ := h.exit
  obtain ⟨j, o', d, hr, rfl, rfl, rfl⟩ := h.reaches.extends h' hs'
  cases hr with
  | nil => exact absurd hstep (hs' _ _ _)
  | cons hstep' _ =>
    obtain ⟨rfl, rfl, rfl⟩ := Act.emit.inj (hstep.symm.trans hstep')
    simp only [length_append] at hfits
    omega

end

/-- With room for one unit a call that stops on a full output has moved. -/
theorem Call.full_pos (h : Call T cap s k out c .full) (hcap : T.width ≤ cap) : 0 < k := by
  obtain ⟨n, o, m, hstep, hlt⟩ := h.exit
  have hw := T.emit_width hstep
  have hlen := h.reaches.length_le
  by_contra h0
  obtain rfl : k = 0 := by omega
  omega

/-! ## Drives -/

/-- A sequence of calls.  Each gets the unconsumed rest of the previous input
    with the next chunk behind it; a failing call ends the drive. -/
inductive Drive (T : Transducer α β ε) :
    List α → List (List α × Nat) → Nat → List β → Nat → Exit ε → Prop where
  | last {p chunk cap k out c e} : Call T cap (p ++ chunk) k out c e →
      Drive T p [(chunk, cap)] k out c e
  | halt {p chunk cap k out c e rest} : Call T cap (p ++ chunk) k out c (.fail e) →
      Drive T p ((chunk, cap) :: rest) k out c (.fail e)
  | again {p chunk cap k out c e rest k' out' c' e'} : Call T cap (p ++ chunk) k out c e →
      Drive T ((p ++ chunk).drop k) rest k' out' c' e' →
      Drive T p ((chunk, cap) :: rest) (k + k') (out ++ out') (c + c') e'

/-- All the input a schedule delivers. -/
def delivered (sched : List (List α × Nat)) : List α := (sched.map Prod.fst).flatten

theorem delivered_cons (chunk : List α) (cap : Nat) (rest : List (List α × Nat)) :
    delivered ((chunk, cap) :: rest) = chunk ++ delivered rest := by
  simp [delivered]

theorem delivered_append {a : List (List α × Nat)} {b : List (List α × Nat)} : delivered (a ++ b) = delivered a ++ delivered b := by
  simp [delivered]

/-- The stop of a call, seen from before the calls that led to it. -/
theorem Exit.Holds.shift (hk : k ≤ s.length) (h : e.Holds T cap (s.drop k) k' out') :
    e.Holds T (out.length + cap) s (k + k') (out ++ out') := by
  have hlen : (s.drop k).length = s.length - k := length_drop
  cases e with
  | done =>
    have hd : k' = (s.drop k).length := h
    show k + k' = s.length
    omega
  | full =>
    obtain ⟨n, o, m, hstep, hlt⟩ := h
    refine ⟨n, o, m, by rw [← drop_drop]; exact hstep, ?_⟩
    rw [length_append]
    omega
  | need | fail e => exact ⟨by have := h.1; omega, by rw [← drop_drop]; exact h.2⟩

/-- A failing call fails the same way on more input. -/
theorem Call.fail_append {e : ε} (h : Call T cap s k out c (.fail e)) (t : List α) :
    Call T cap (s ++ t) k out c (.fail e) := by
  have hk := h.reaches.le_length
  have hne := h.exit.1
  refine ⟨h.reaches.append t, h.fits, ?_, ?_⟩
  · rw [length_append]
    omega
  · rw [drop_append_of_le_length hk]
    exact T.fail_append t h.exit.2

variable {p : List α} {sched : List (List α × Nat)}

/-- **A drive is one call** on all it was given, into some room. -/
theorem Drive.call (h : Drive T p sched k out c e) : ∃ cap, Call T cap (p ++ delivered sched) k out c e := by
  induction h with
  | @last p chunk cap k out c e hc =>
    exact ⟨cap, by simpa [delivered] using hc⟩
  | @halt p chunk cap k out c e rest hc =>
    rw [delivered_cons, ← append_assoc]
    exact ⟨cap, hc.fail_append _⟩
  | @again p chunk cap k out c e rest k' out' c' e' hc hd ih =>
    obtain ⟨cap', ih⟩ := ih
    have hk := hc.reaches.le_length
    rw [← drop_append_of_le_length hk] at ih
    rw [delivered_cons, ← append_assoc]
    refine ⟨out.length + cap', (hc.reaches.append _).trans ih.reaches, ?_, ih.exit.shift ?_⟩
    · rw [length_append]
      exact Nat.add_le_add_left ih.fits _
    · rw [length_append]
      omega

/-- **Chunking and capacities are invisible.**  A drive that is not waiting for
    output room did exactly what one call on the whole input does. -/
theorem Drive.eq_call (h : Drive T p sched k out c e) (hf : e ≠ .full)
    (h' : Call T cap (p ++ delivered sched) k' out' c' e')
    (hcap : T.width * (p ++ delivered sched).length ≤ cap) :
    k = k' ∧ out = out' ∧ c = c' ∧ e = e' := by
  obtain ⟨cap', hc⟩ := h.call
  exact hc.unique h' hf (h'.ne_full hcap)

/-! ## Draining -/

/-- A drive that is full after some rounds passed through them all. -/
theorem Drive.full_suffix {a b : List (List α × Nat)} (hb : b ≠ []) (h : Drive T p (a ++ b) k out c .full) :
    ∃ p' k' out' c', Drive T p' b k' out' c' .full ∧ p'.length ≤ p.length + (delivered a).length := by
  induction a generalizing p k out c with
  | nil => exact ⟨p, k, out, c, h, by omega⟩
  | cons r a ih =>
    rw [cons_append] at h
    generalize hab : a ++ b = ab at h
    cases h with
    | last hc => simp_all
    | again hc hd =>
      subst hab
      obtain ⟨p', k', out', c', hd', hlen⟩ := ih hd
      refine ⟨p', k', out', c', hd', ?_⟩
      rw [length_drop, length_append] at hlen
      rw [delivered_cons, length_append]
      omega

/-- Rounds without input that are all full each consume something, given room for a unit. -/
theorem Drive.full_length_le (h : Drive T p sched k out c .full) (hall : ∀ r ∈ sched, r.1 = [] ∧ T.width ≤ r.2) :
    sched.length ≤ k := by
  generalize he : Exit.full = e at h
  induction h with
  | @last p chunk cap k out c e hc =>
    subst he
    exact hc.full_pos (hall (chunk, cap) (by simp)).2
  | halt => cases he
  | @again p chunk cap k out c e rest k' out' c' e' hc hd ih =>
    subst he
    have hrest : ∀ r ∈ rest, r.1 = [] ∧ T.width ≤ r.2 := fun r hr => hall r (by simp [hr])
    have hk' := ih hrest rfl
    have hk : 0 < k := by
      by_cases hf : e = .full
      · subst hf
        exact hc.full_pos (hall (chunk, cap) (by simp)).2
      · -- a call that was not full is stuck, and nothing more arrives
        exfalso
        obtain ⟨cap', hcall⟩ := hd.call
        have hnone : delivered rest = [] := by
          rw [delivered, flatten_eq_nil_iff]
          intro l hl
          obtain ⟨r, hr, rfl⟩ := mem_map.mp hl
          exact (hrest r hr).1
        rw [hnone, append_nil] at hcall
        have hstuck := hc.exit.stuck hf
        obtain ⟨n, o, m, hstep, -⟩ := hcall.exit
        have hreach := hcall.reaches
        cases hreach with
        | nil => exact hstuck n o m (by simpa using hstep)
        | cons hfirst _ => exact hstuck _ _ _ hfirst
    rw [length_cons]
    omega

end Crabc.Lib
