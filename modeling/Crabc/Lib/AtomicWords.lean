/-
  Crabc.Lib.AtomicWords

  A memory of machine words with atomic operations, and the ownership of its bits.

  A bit that is set belongs to nobody.  A thread that clears it owns it from then on,
  and only its owner may set it again.  `Owned` says that of a row of words: the bits
  that are available are the set ones and the owned ones, each owned by one thread.
-/

import Mathlib

namespace Crabc.Lib

open BitVec (allOnes getLsbD_and)

/-- A machine word. -/
abbrev Word := BitVec 64

/-- An atomic operation on one word; the reply is the word before it. -/
inductive WordOp (Loc : Type) where
  | load (l : Loc)
  | fetchAnd (l : Loc) (w : Word)
  | fetchOr (l : Loc) (w : Word)
  | swap (l : Loc) (w : Word)
  | cas (l : Loc) (expected desired : Word)
deriving DecidableEq

open Function

namespace WordOp

variable {Loc : Type}

def loc : WordOp Loc → Loc
  | load l => l
  | fetchAnd l _ => l
  | fetchOr l _ => l
  | swap l _ => l
  | cas l _ _ => l

/-- The word after the operation. -/
def after : WordOp Loc → Word → Word
  | load _, old => old
  | fetchAnd _ w, old => old &&& w
  | fetchOr _ w, old => old ||| w
  | swap _ w, _ => w
  | cas _ expected desired, old => if old = expected then desired else old

/-- Whether the operation may set bits; a swap for zero does not. -/
def sets : WordOp Loc → Bool
  | fetchOr _ _ | swap _ _ => true
  | _ => false

/-- The memory after the operation. -/
def apply [DecidableEq Loc] (op : WordOp Loc) (m : Loc → Word) : Loc → Word :=
  Function.update m op.loc (op.after (m op.loc))

/-- The operation answers the word before it. -/
def Does [DecidableEq Loc] (op : WordOp Loc) (m : Loc → Word) (reply : Word) (m' : Loc → Word) : Prop :=
  reply = m op.loc ∧ m' = op.apply m

/-- The answer and the memory after the operation. -/
def answer [DecidableEq Loc] (op : WordOp Loc) (m : Loc → Word) : Word × (Loc → Word) :=
  (m op.loc, op.apply m)

theorem answer_load [DecidableEq Loc] (l : Loc) (m : Loc → Word) : (load l).answer m = (m l, m) :=
  congrArg (m l, ·) (update_eq_self l m)

end WordOp

/-! ## Bits -/

variable {Loc ι : Type}

/-- Bit `n` of a row of words. -/
def bitAt (row : Nat → Loc) (m : Loc → Word) (n : Nat) : Bool := (m (row (n / 64))).getLsbD (n % 64)

/-- The bits of word `w` of the row that are set in `mask`. -/
def wordBits (w : Nat) (mask : Word) : Set Nat := {n | n / 64 = w ∧ mask.getLsbD (n % 64) = true}

theorem mem_wordBits {w n : Nat} {mask : Word} :
    n ∈ wordBits w mask ↔ n / 64 = w ∧ mask.getLsbD (n % 64) = true := Iff.rfl

theorem wordBits_allOnes {w : Nat} : wordBits w (allOnes 64) = Set.Ico (64 * w) (64 * w + 64) := by
  ext n
  rw [mem_wordBits, Set.mem_Ico, BitVec.getLsbD_allOnes, decide_eq_true_eq]
  omega

theorem wordBits_zero {w : Nat} : wordBits w 0 = ∅ := by
  ext n
  rw [mem_wordBits]
  simp

variable {row : Nat → Loc} {m : Loc → Word}

/-- A change of word `w` shows in its own bits only. -/
theorem bitAt_update [DecidableEq Loc] (hrow : Function.Injective row) {w : Nat} (value : Word) {n : Nat} :
    bitAt row (update m (row w) value) n =
      if n / 64 = w then value.getLsbD (n % 64) else bitAt row m n := by
  rw [bitAt, bitAt]
  split
  case isTrue hw => rw [hw, update_self]
  case isFalse hw => rw [update_of_ne fun heq => hw (hrow heq)]

/-! ## Ownership -/

/-- Every available bit is set, or owned by one thread. -/
structure Owned (row : Nat → Loc) (available : Set Nat) (m : Loc → Word) (own : ι → Set Nat) :
    Prop where
  covers : ∀ n, n ∈ available ↔ bitAt row m n = true ∨ ∃ i, n ∈ own i
  clear : ∀ i, ∀ n ∈ own i, bitAt row m n = false
  apart : ∀ i j, ∀ n ∈ own i, n ∈ own j → i = j

namespace Owned

variable {available : Set Nat} {own : ι → Set Nat} {m' : Loc → Word}

/-- A bit is with a thread, or it is set. -/
def Holder (row : Nat → Loc) (m : Loc → Word) (own : ι → Set Nat) (n : Nat) : Option ι → Prop
  | none => bitAt row m n = true
  | some i => n ∈ own i

variable (h : Owned row available m own)
include h

/-- Words that are not in the row may change. -/
theorem congr (hsame : ∀ w, m' (row w) = m (row w)) : Owned row available m' own := by
  have hbit (n : Nat) : bitAt row m' n = bitAt row m n := by rw [bitAt, bitAt, hsame]
  refine ⟨fun n => ?_, fun i n hn => ?_, h.apart⟩
  · rw [hbit]
    exact h.covers n
  · rw [hbit]
    exact h.clear i n hn

/-- The bits that an operation clears were nobody's. -/
theorem disjoint_wordBits (i : ι) (w : Nat) (mask : Word) : Disjoint (own i) (wordBits w (m (row w) &&& mask)) := by
  refine Set.disjoint_left.mpr fun n hown hmem => ?_
  rw [mem_wordBits, getLsbD_and, Bool.and_eq_true] at hmem
  have hclear := h.clear i n hown
  rw [bitAt, hmem.1, hmem.2.1] at hclear
  cases hclear

/-- When the threads own what they owned, no bit has come back. -/
theorem set_before [DecidableEq ι] {i : ι} {bits : Set Nat} (h' : Owned row available m' (update own i bits))
    (hbits : own i ⊆ bits) {n : Nat} (hn : bitAt row m' n = true) : bitAt row m n = true := by
  refine ((h.covers n).mp ((h'.covers n).mpr (.inl hn))).resolve_right fun ⟨j, hj⟩ => ?_
  have hclear : bitAt row m' n = false := by
    refine h'.clear j n ?_
    by_cases hji : j = i
    · subst hji
      rw [update_self]
      exact hbits hj
    · rw [update_of_ne hji]
      exact hj
  rw [hn] at hclear
  cases hclear

theorem holder_unique {n : Nat} {x y : Option ι} (hx : Holder row m own n x) (hy : Holder row m own n y) : x = y := by
  cases x with
  | none =>
    cases y with
    | none => rfl
    | some j => exact nomatch hx.symm.trans (h.clear j n hy)
  | some i =>
    cases y with
    | none => exact nomatch hy.symm.trans (h.clear i n hx)
    | some j => rw [h.apart i j n hx hy]

/-- Some bits go from one holder to another. -/
theorem moved {own' : ι → Set Nat} {bits : Set Nat} {x y : Option ι} (hbits : ∀ n ∈ bits, Holder row m own n x)
    (hmoved : ∀ n z, Holder row m' own' n z ↔ n ∈ bits ∧ z = y ∨ n ∉ bits ∧ Holder row m own n z) :
    Owned row available m' own' := by
  have hcovers (m : Loc → Word) (own : ι → Set Nat) (n : Nat) :
      (bitAt row m n = true ∨ ∃ i, n ∈ own i) ↔ ∃ z, Holder row m own n z := by
    rw [Option.exists]
    rfl
  have hunique {n : Nat} {z z' : Option ι} (hz : Holder row m' own' n z) (hz' : Holder row m' own' n z') : z = z' := by
    rcases (hmoved n z).mp hz with ⟨hmem, rfl⟩ | ⟨hmem, hz⟩
    · exact (((hmoved n z').mp hz').resolve_right fun hother => hother.1 hmem).2.symm
    · exact h.holder_unique hz (((hmoved n z').mp hz').resolve_left fun hother => hmem hother.1).2
  refine ⟨fun n => ?_, fun i n hn => ?_, fun i j n hi hj => Option.some.inj (@hunique n (some i) (some j) hi hj)⟩
  · rw [h.covers, hcovers, hcovers]
    by_cases hmem : n ∈ bits
    · exact ⟨fun _ => ⟨y, (hmoved n y).mpr (.inl ⟨hmem, rfl⟩)⟩, fun _ => ⟨x, hbits n hmem⟩⟩
    · refine exists_congr fun z => ?_
      rw [hmoved]
      exact ⟨fun hz => .inr ⟨hmem, hz⟩, fun hz => (hz.resolve_left fun hother => hmem hother.1).2⟩
  · rw [← Bool.not_eq_true]
    exact fun hset => nomatch @hunique n none (some i) hset hn

/-- A word with one owner is zero. -/
theorem word_eq_zero {i : ι} {w : Nat} (hown : wordBits w (allOnes 64) ⊆ own i) : m (row w) = 0 := by
  refine BitVec.eq_of_getLsbD_eq fun k hk => ?_
  have hmem : 64 * w + k ∈ wordBits w (allOnes 64) := by
    rw [wordBits_allOnes, Set.mem_Ico]
    omega
  have hclear := h.clear i _ (hown hmem)
  rw [bitAt, show (64 * w + k) / 64 = w by omega, show (64 * w + k) % 64 = k by omega] at hclear
  rw [hclear]
  exact (BitVec.getLsbD_zero).symm

variable [DecidableEq Loc] [DecidableEq ι] (hrow : Function.Injective row) (i : ι) (w : Nat)
include hrow

/-- A thread clears the bits of `mask`: it owns those that were set. -/
theorem take (mask : Word) : Owned row available (update m (row w) (m (row w) &&& ~~~mask))
      (update own i (own i ∪ wordBits w (m (row w) &&& mask))) := by
  have htaken (n : Nat) (hmem : n ∈ wordBits w (m (row w) &&& mask)) : bitAt row m n = true := by
    rw [mem_wordBits, getLsbD_and, Bool.and_eq_true] at hmem
    rw [bitAt, hmem.1]
    exact hmem.2.1
  refine h.moved (x := none) (y := some i) htaken fun n z => ?_
  cases z with
  | none =>
    have hlt : n % 64 < 64 := Nat.mod_lt _ (by decide)
    rw [Holder, Holder, bitAt_update hrow, mem_wordBits, getLsbD_and, getLsbD_and, BitVec.getLsbD_not, bitAt]
    by_cases hw : n / 64 = w
    · subst hw
      simp [hlt]
      tauto
    · simp [hw]
  | some j =>
    have hclear := h.clear j n
    rw [Holder, Holder, Option.some.injEq]
    by_cases hj : j = i
    · subst hj
      rw [update_self, Set.mem_union]
      tauto
    · grind

/-- A thread sets bits that it owns. -/
theorem give (mask : Word) (hown : wordBits w mask ⊆ own i) : Owned row available (update m (row w) (m (row w) ||| mask))
      (update own i (own i \ wordBits w mask)) := by
  refine h.moved (x := some i) (y := none) hown fun n z => ?_
  cases z with
  | none =>
    rw [Holder, Holder, bitAt_update hrow, mem_wordBits, BitVec.getLsbD_or, bitAt]
    by_cases hw : n / 64 = w
    · grind
    · simp [hw]
  | some j =>
    rw [Holder, Holder]
    by_cases hj : j = i
    · subst hj
      simp [and_comm]
    · have hapart := h.apart j i n
      grind

/-- A thread that owns a whole word may set it without looking. -/
theorem fill (hown : wordBits w (allOnes 64) ⊆ own i) : Owned row available (update m (row w) (allOnes 64))
      (update own i (own i \ wordBits w (allOnes 64))) := by
  have hgive := h.give hrow i w (allOnes 64) hown
  rw [h.word_eq_zero hown, BitVec.ofNat_eq_ofNat, BitVec.zero_or] at hgive
  exact hgive

/-- A word that is set as a whole is claimed as a whole. -/
theorem claim (hfull : m (row w) = allOnes 64) : Disjoint (own i) (wordBits w (allOnes 64)) ∧
      Owned row available (update m (row w) 0)
        (update own i (own i ∪ wordBits w (allOnes 64))) := by
  have hdisjoint := h.disjoint_wordBits i w (allOnes 64)
  have htake := h.take hrow i w (allOnes 64)
  rw [hfull, BitVec.and_self] at hdisjoint htake
  exact ⟨hdisjoint, htake⟩

end Owned

end Crabc.Lib
