/-
  Crabc.Mimalloc.ClearOnceSet

  `clear_once_set` of one bit of an abandoned-page map, among any number of threads in
  `try_find_and_claim_abandoned` whose callback answers `KeepSet` for that bit.

  A state has the field with the bit.  Every access to it is a step; what a thread does
  with other words is not seen here.
-/

import Crabc.Mimalloc.ChunkOwnership

namespace Crabc.Mimalloc

open Crabc.Lib Relation BitVec

namespace ClearOnceSet

/-- Where a searching thread is. -/
inductive Reader where
  | away
  /-- In `try_claim_one_in_nonzero_field`. -/
  | trying (value : Word) (tries : Nat)
  /-- In the callback, with this bit removed. -/
  | holds (k : Nat)

inductive Clearer where
  | start
  | seen (previous : Word)
  | returned

structure State (ι : Type) where
  word : Word
  reader : ι → Reader
  clearer : Clearer

variable {ι : Type} [DecidableEq ι] {bit : Fin 64} {s s' : State ι}

def State.go (s : State ι) (i : ι) (r : Reader) (word : Word) : State ι :=
  { s with word, reader := fun j => if j = i then r else s.reader j }

/-- `observe` is every load of `clear_once_set` and every compare-and-swap of it that fails;
    `other` is what anybody does to the other bits of the field. -/
inductive Step (bit : Fin 64) (s : State ι) : State ι → Prop
  | load {i} : s.reader i = .away → s.word ≠ 0 → Step bit s (s.go i (.trying s.word 0) s.word)
  | claim {i value tries mask} : s.reader i = .trying value tries → mask = value &&& -value →
      Step bit s (s.go i (if s.word &&& mask = mask then .holds (ctz mask)
        else if s.word = 0 ∨ tries + 1 > 4 then .away else .trying s.word (tries + 1)) (s.word &&& ~~~mask))
  | keepSet {i k} : s.reader i = .holds k → Step bit s (s.go i .away (s.word ||| fieldMaskValid 1 k))
  | drop {i k} : s.reader i = .holds k → k ≠ bit → Step bit s (s.go i .away s.word)
  | observe : s.clearer ≠ .returned → Step bit s { s with clearer := .seen s.word }
  | clear {previous} : s.clearer = .seen previous → previous &&& fieldMaskValid 1 bit ≠ 0 →
      s.word = previous → Step bit s { s with word := previous &&& ~~~fieldMaskValid 1 bit, clearer := .returned }
  | other word : word.getLsbD bit = s.word.getLsbD bit → Step bit s { s with word }

/-- Who has removed the bit is the only one, and the bit is clear. -/
structure Sound (bit : Fin 64) (s : State ι) : Prop where
  nonzero : ∀ i value tries, s.reader i = .trying value tries → value ≠ 0
  held : ∀ i, s.reader i = .holds bit → s.word.getLsbD bit = false
  one : ∀ i j, s.reader i = .holds bit → s.reader j = .holds bit → i = j
  returned : s.clearer = .returned → s.word.getLsbD bit = false ∧ ∀ i, s.reader i ≠ .holds bit

theorem getLsbD_bit (k : Nat) : (fieldMaskValid 1 k).getLsbD bit = decide (k = bit) := by
  rw [Bool.eq_iff_iff]
  simp [fieldMaskValid]
  omega

theorem Sound.step (h : Sound bit s) (hstep : Step bit s s') : Sound bit s' := by
  obtain ⟨nonzero, held, one, returned⟩ := h
  cases hstep with
  | claim hi hmask =>
    obtain ⟨-, hlt, -⟩ := ctz_eq (nonzero _ _ _ hi)
    have hne := bit_ne_zero hlt
    rw [hmask, lowest_eq (nonzero _ _ _ hi), and_bit_eq hlt, ctz_bit hlt]
    constructor <;> simp only [State.go, getLsbD_and, getLsbD_not, getLsbD_bit] <;> grind
  | keepSet hi => constructor <;> simp only [State.go, getLsbD_or, getLsbD_bit] <;> grind
  | load hi hne | drop hi hne => constructor <;> simp only [State.go] <;> grind
  | observe hrunning => constructor <;> grind
  | clear hseen hset hword =>
    rw [and_bit_eq bit.isLt] at hset
    constructor <;> simp only [getLsbD_and, getLsbD_not, getLsbD_bit] <;> grind
  | other word hsame => constructor <;> grind

theorem Sound.run (h : Sound bit s) (hrun : ReflTransGen (Step bit) s s') : Sound bit s' := by
  induction hrun with
  | refl => exact h
  | tail _ hstep ih => exact ih.step hstep

theorem returned_run (h : s.clearer = .returned) (hrun : ReflTransGen (Step bit) s s') : s'.clearer = .returned := by
  induction hrun with
  | refl => exact h
  | tail _ hstep ih => cases hstep <;> simp_all [State.go]

end ClearOnceSet

end Crabc.Mimalloc
