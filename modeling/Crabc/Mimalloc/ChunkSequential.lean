/-
  Crabc.Mimalloc.ChunkSequential

  The functions of a chunk with nobody else around.

  With enough rounds every function returns.  All loops but one end whatever they read; the
  search inside a field starts over when another thread was faster, and on its own it finds
  the bits where it has read them.  What the functions do to the bits is what they do among
  other threads.
-/

import Crabc.Lib.Sequential
import Crabc.Mimalloc.BinnedBitmap
import Crabc.Mimalloc.ChunkOwnership

namespace Crabc.Mimalloc

open Crabc.Lib Program

/-! ## Functions that return whatever they read -/

open Function BitVec Nat WordOp Runs BinnedLoc Yields Set

namespace Chunk

section

variable {Loc : Type} {field : Nat → Loc} {rounds f : Nat} {mask : Word}

theorem yields_tryClearMaskOptimistic : (tryClearMaskOptimistic field f mask).Yields fun _ => True := by
  simp [tryClearMaskOptimistic, fetchAnd, fetchOr, restore]

theorem yields_tryClearMask : (tryClearMask field f mask).Yields fun _ => True := by
  simp [tryClearMask, load, yields_tryClearMaskOptimistic]

theorem yields_tryClearField {len : Nat} : (tryClearField field f len).Yields fun _ => True := by
  simp [tryClearField, tryClearFullField, load, cas, yields_tryClearMask]

theorem yields_restoreClaimedPrefix {startField : Nat} {firstMask : Word} {count : Nat} :
    (restoreClaimedPrefix field startField firstMask count).Yields fun _ => True := by
  induction count with
  | zero => trivial
  | succ count ih => simp [restoreClaimedPrefix, fetchOr, swap, ih]

variable {len index : Nat}

theorem yields_tryClaimAt (hrounds : len < rounds) : (tryClaimAt field rounds index len).Yields fun _ => True := by
  have hloop (startField remaining : Nat) (firstMask : Word) (maybeAllClear : Bool) (hlt : remaining < rounds) :
      (Program.loop (tryClaimAtRound field startField firstMask) rounds
        ⟨startField + 1, remaining, maybeAllClear⟩).Yields fun _ => True := by
    refine loop (fun _ => True) (fun s => s.remaining) (fun s _ => ?_) trivial hlt
    simp only [tryClaimAtRound, yields_ite, yields_bind, yields_pure]
    refine ⟨fun _ => trivial, fun hne => yields_tryClearField.mono fun claim _ => ⟨fun _ => ?_, fun _ => ?_⟩⟩
    · exact ⟨trivial, by dsimp only; omega⟩
    · exact yields_restoreClaimedPrefix.mono fun _ _ => trivial
  simp only [tryClaimAt, yields_ite, yields_bind, yields_pure]
  refine ⟨fun _ => yields_tryClearMask.mono fun first _ => ⟨fun _ => ?_, fun _ => trivial⟩, fun _ => trivial⟩
  exact hloop _ _ _ _ (lt_of_le_of_lt (sub_le _ _) hrounds)

theorem yields_tryClaimOneInNonzeroField {tries : Nat} {value : Word} :
    (tryClaimOneInNonzeroField field f tries value).Yields fun _ => True := by
  induction tries generalizing value with
  | zero => trivial
  | succ tries ih => simp [tryClaimOneInNonzeroField, fetchAnd, ih]

theorem yields_tryClaimOne : (tryClaimOne field).Yields fun _ => True := by
  refine yields_bind.mpr ((Yields.each (fun f _ => ?_) _ _).mono fun answer _ => by cases answer <;> trivial)
  simp only [load, yields_bind, yields_perform, yields_ite, yields_pure]
  exact fun value => ⟨fun _ => trivial, fun _ => yields_tryClaimOneInNonzeroField.mono
    fun bit _ => by cases bit <;> trivial⟩

theorem yields_tryClaimByteInField {tries : Nat} {value : Word} {temporarily : Bool} :
    (tryClaimByteInField field f tries value temporarily).Yields fun _ => True := by
  induction tries generalizing value temporarily with
  | zero => trivial
  | succ tries ih =>
    rw [tryClaimByteInField]
    split <;> simp [ih, yields_tryClearMaskOptimistic]

theorem yields_tryClaimByte : (tryClaimByte field).Yields fun _ => True := by
  refine yields_bind.mpr ((Yields.each (fun f temporarily => ?_) _ _).mono fun _ _ => trivial)
  simp [load, yields_tryClaimByteInField]

theorem yields_claimFound (hrounds : len < rounds) {temporarily : Bool} :
    (claimFound field rounds index len temporarily).Yields fun _ => True := by
  simp [claimFound, yields_tryClaimAt hrounds]

theorem yields_acrossBoundary (hrounds : len < rounds) {s : Word × Bool} :
    (acrossBoundary field rounds len f s).Yields fun _ => True := by
  simp [acrossBoundary, load, yields_claimFound hrounds]

theorem yields_remainingFrom (hrounds : 8 < rounds) {len ones : Nat} :
    (remainingFrom field rounds len f ones).Yields fun _ => True := by
  simp only [remainingFrom, yields_ite, yields_pure]
  refine ⟨fun _ => trivial, fun _ => ⟨fun _ => ?_, fun _ => trivial⟩⟩
  refine loop (fun _ => True) (fun s => 8 - s.1) (fun s _ => ?_) trivial
    (lt_of_le_of_lt (sub_le _ _) hrounds)
  simp [followingFields, load, Next.Gives]
  omega

theorem yields_tryClaimRunAcrossFields (hlen : len < rounds) (hrounds : 8 < rounds) :
    (tryClaimRunAcrossFields field rounds len).Yields fun _ => True := by
  refine loop (fun _ => True) (fun s => 8 - s.1) (fun s _ => ?_) trivial
    (lt_of_le_of_lt (sub_le _ _) hrounds)
  have hagain (skip : Nat) (temporarily : Bool) (hlt : s.1 < 8 - (len - 1) / 64) :
      Next.Gives (fun s' : Nat × Bool => True ∧ 8 - s'.1 < 8 - s.1) (fun _ : ChunkSearchClaim => True)
        (.again (s.1 + skip + 1, temporarily)) := ⟨trivial, by omega⟩
  simp only [acrossFieldsRound, load, yields_bind, yields_perform, yields_ite, yields_pure]
  refine ⟨fun hlt value => (yields_remainingFrom hrounds).mono fun found _ => ?_, fun _ => trivial⟩
  refine ⟨fun _ => (yields_claimFound hlen).mono fun claim _ => ?_, fun _ => hagain _ _ hlt⟩
  cases claim with
  | again temporarily => exact hagain _ _ hlt
  | done claim => trivial

/-! ## The search inside a field -/

variable [DecidableEq Loc] {m : Loc → Word}

/-- On its own a claim of bits that are set succeeds. -/
theorem runs_tryClearMaskOptimistic (hmask : m (field f) &&& mask = mask) :
    (tryClearMaskOptimistic field f mask).Runs answer m fun claim m' =>
      claim.result.claimed = true ∧ m' = update m (field f) (m (field f) &&& ~~~mask) := by
  refine perform ?_
  rw [if_pos (by exact hmask)]
  exact pure ⟨rfl, rfl⟩

/-- The lowest ones of a word go away when their lowest bit is added. -/
theorem and_add_lowest_lt {w : Word} (h : w ≠ 0) : (w &&& (w + 1#64 <<< ctz w)).toNat < w.toNat := by
  obtain ⟨hset, hlt, hbefore⟩ := ctz_eq h
  have hle : (w &&& (w + 1#64 <<< ctz w)).toNat ≤ w.toNat := by exact and_le_left
  refine lt_of_le_of_ne hle fun heq => ?_
  -- the sum has a zero where the word has its lowest one
  have hlow : w.toNat % 2 ^ ctz w = 0 := by
    refine eq_of_testBit_eq fun k => ?_
    rw [testBit_mod_two_pow, zero_testBit]
    by_cases hk : k < ctz w
    · rw [testBit_toNat, hbefore k hk, Bool.and_false]
    · rw [decide_eq_false hk, Bool.false_and]
  have hone : (1#64 <<< ctz w).toNat = 2 ^ ctz w := by
    rw [toNat_shiftLeft, toNat_ofNat, Nat.shiftLeft_eq, mod_eq_of_lt (a := 1) (by decide),
      Nat.one_mul, mod_eq_of_lt (Nat.pow_lt_pow_right (by decide) hlt)]
  have hcarry : carry (ctz w) w (1#64 <<< ctz w) false = false := by
    rw [carry, hlow, hone, mod_self, decide_eq_false_iff_not]
    simp only [Bool.toNat_false]
    omega
  have hbit : (1#64 <<< ctz w).getLsbD (ctz w) = true := by simp [hlt]
  have hsum : (w + 1#64 <<< ctz w).getLsbD (ctz w) = false := by
    rw [getLsbD_add hlt, hset, hbit, hcarry]
    rfl
  have hand := congrArg (getLsbD · (ctz w)) (eq_of_toNat_eq heq)
  simp only [getLsbD_and, hset, hsum, Bool.and_false] at hand
  cases hand

theorem runs_withinField {baseMask : Word} {s : Word × Bool} (hvalue : m (field f) &&& s.1 = s.1)
    (hrounds : s.1.toNat < rounds) :
    (Program.loop (withinFieldRound field len baseMask f) rounds s).Runs answer m fun _ _ => True := by
  refine loop (fun s m => m (field f) &&& s.1 = s.1) (fun s => s.1.toNat) (fun s m h => ?_) hvalue hrounds
  rw [withinFieldRound, bsf]
  split
  case h_1 => exact pure trivial
  case h_2 bitIndex hbsf =>
    split at hbsf
    case isTrue => cases hbsf
    case isFalse hne =>
      obtain rfl := Option.some.inj hbsf
      split
      case isTrue => exact pure trivial
      case isFalse =>
        dsimp only
        split
        case isTrue hmask =>
          -- the bits are in the memory still
          have hset : m (field f) &&& baseMask <<< ctz s.1 = baseMask <<< ctz s.1 := by
            rw [← hmask, ← BitVec.and_assoc, h]
          refine bind ((runs_tryClearMaskOptimistic hset).mono ?_)
          rintro claim m' ⟨hclaimed, -⟩
          rw [if_pos hclaimed]
          exact pure trivial
        case isFalse =>
          refine pure ⟨?_, and_add_lowest_lt hne⟩
          rw [← BitVec.and_assoc, h]

theorem runs_tryClaimRunWithinFieldWidth (hlen : len < rounds) (hrounds : 2 ^ 64 ≤ rounds) :
    (tryClaimRunWithinFieldWidth field rounds len).Runs answer m fun _ _ => True := by
  rw [tryClaimRunWithinFieldWidth]
  split
  case h_1 => exact pure trivial
  case h_2 baseMask _ =>
    refine bind ((each (Q := fun _ _ => True) (fun _ _ => True)
      (fun f _ temporarily m _ => ?_) trivial).mono fun _ _ _ => pure trivial)
    refine perform ?_
    rw [answer_load]
    refine bind (mono (runs_withinField and_self ?_) ?_)
    · exact lt_of_lt_of_le (isLt _) hrounds
    · rintro (s | claim) m' -
      · exact ((yields_acrossBoundary hlen).runs _ _).mono fun next _ _ => by cases next <;> trivial
      · exact pure trivial

/-- Every search returns. -/
theorem runs_tryClaimRunDetailed (len : Nat) (hrounds : 2 ^ 64 ≤ rounds) :
    (tryClaimRunDetailed field rounds len).Runs answer m fun _ _ => True := by
  rw [tryClaimRunDetailed]
  split
  case isTrue => exact pure trivial
  case isFalse hvalid =>
    have hlen : len < rounds := by omega
    split
    case isTrue =>
      refine bind ((yields_tryClaimOne.runs _ _).mono ?_)
      rintro (_ | index) _ - <;> exact pure trivial
    case isFalse =>
      split
      case isTrue => exact yields_tryClaimByte.runs _ _
      case isFalse =>
        split
        case isTrue => exact runs_tryClaimRunWithinFieldWidth hlen hrounds
        case isFalse => exact (yields_tryClaimRunAcrossFields hlen (by omega)).runs _ _

/-! ## Claims of set bits -/

/-- On its own a claim of set bits succeeds in every field. -/
theorem runs_tryClearMask (hmask : m (field f) &&& mask = mask) :
    (tryClearMask field f mask).Runs answer m fun claim m' =>
      claim.result.claimed = true ∧ ∀ l, l ≠ field f → m' l = m l := by
  refine perform ?_
  rw [answer_load, if_neg (not_not.mpr hmask)]
  refine (runs_tryClearMaskOptimistic hmask).mono ?_
  rintro claim m' ⟨hclaimed, rfl⟩
  exact ⟨hclaimed, fun l hl => update_of_ne hl _ _⟩

theorem runs_tryClearField (hmask : m (field f) &&& fieldMaskValid len 0 = fieldMaskValid len 0) :
    (tryClearField field f len).Runs answer m fun claim m' =>
      claim.result.claimed = true ∧ ∀ l, l ≠ field f → m' l = m l := by
  rw [tryClearField]
  split
  case isFalse => exact runs_tryClearMask hmask
  case isTrue hfull =>
    rw [hfull, show fieldMaskValid 64 0 = allOnes 64 from rfl, and_allOnes] at hmask
    refine perform ?_
    rw [answer_load, if_pos hmask]
    refine perform ?_
    rw [if_pos (by exact hmask)]
    exact pure ⟨rfl, fun l hl => update_of_ne hl _ _⟩

/-- The fields of a run from one on are as they were, with the bits of the run set. -/
structure FieldsSet (field : Nat → Loc) (m : Loc → Word) (index len : Nat) (s : ClaimCursor) : Prop where
  remaining_le : s.remaining ≤ len
  position : s.remaining ≠ 0 → 64 * s.fieldIndex = index + (len - s.remaining)
  set : ∀ f, s.fieldIndex ≤ f → ∀ k, k < 64 → index ≤ 64 * f + k → 64 * f + k < index + len →
    (m (field f)).getLsbD k = true

/-- `try_claim_at` of a run that is set. -/
theorem runs_tryClaimAt_set (hfield : Function.Injective field)
    (hvalid : validRun index len = true) (hrounds : len < rounds)
    (hset : ∀ f k, k < 64 → index ≤ 64 * f + k → 64 * f + k < index + len → (m (field f)).getLsbD k = true) :
    (tryClaimAt field rounds index len).Runs answer m fun claim _ =>
      ∃ maybeAllClear, claim = some ⟨true, maybeAllClear, false⟩ := by
  rw [tryClaimAt, if_pos hvalid]
  have hfirst : m (field (index / 64)) &&& fieldMaskValid (min (64 - index % 64) len) (index % 64) =
      fieldMaskValid (min (64 - index % 64) len) (index % 64) := by
    refine eq_of_getLsbD_eq fun k hk => ?_
    rw [getLsbD_and, getLsbD_fieldMaskValid (by omega) hk, Bool.and_eq_right_iff_imp, decide_eq_true_eq]
    exact fun hmask => hset _ k hk (by omega) (by omega)
  refine bind ((runs_tryClearMask hfirst).mono ?_)
  rintro first m1 ⟨hclaimed, hsame⟩
  rw [if_pos hclaimed]
  have hstart : FieldsSet field m1 index len
      ⟨index / 64 + 1, len - min (64 - index % 64) len, first.result.maybeAllClear⟩ := by
    refine ⟨sub_le _ _, fun hne => ?_, fun f hf k hk hlow hhigh => ?_⟩
    · dsimp only at hne ⊢
      omega
    · rw [hsame _ fun heq => absurd (hfield heq) (by dsimp only at hf; omega)]
      exact hset f k hk hlow hhigh
  refine bind ((loop (Q := fun claim _ => ∃ maybeAllClear, claim = ⟨true, maybeAllClear, false⟩)
    (fun s m => FieldsSet field m index len s) (fun s => s.remaining) (fun s m h => ?_) hstart
    (lt_of_le_of_lt (sub_le _ _) hrounds)).mono ?_)
  · rw [tryClaimAtRound]
    split
    case isTrue => exact pure ⟨_, rfl⟩
    case isFalse hne =>
      have hle := h.remaining_le
      have hposition := h.position hne
      have hmask : m (field s.fieldIndex) &&& fieldMaskValid (min 64 s.remaining) 0 =
          fieldMaskValid (min 64 s.remaining) 0 := by
        refine eq_of_getLsbD_eq fun k hk => ?_
        rw [getLsbD_and, getLsbD_fieldMaskValid (by omega) hk, Bool.and_eq_right_iff_imp, decide_eq_true_eq]
        exact fun hmask => h.set _ .refl k hk (by omega) (by omega)
      refine bind ((runs_tryClearField hmask).mono ?_)
      rintro claim m' ⟨hclaimed, hsame⟩
      rw [if_pos hclaimed]
      refine pure ⟨⟨le_trans (sub_le _ _) hle, fun hrest => ?_, fun f hf k hk hlow hhigh => ?_⟩, ?_⟩
      · dsimp only at hrest ⊢
        omega
      · rw [hsame _ fun heq => absurd (hfield heq) (by dsimp only at hf; omega)]
        exact h.set f (by dsimp only at hf; omega) k hk hlow hhigh
      · dsimp only
        omega
  · rintro claim _ ⟨maybeAllClear, rfl⟩
    exact pure ⟨maybeAllClear, rfl⟩

end

end Chunk

/-! ## The bits -/

open BinnedBitmap

/-- Some bits that were set are cleared, and nothing else has changed. -/
structure Cleared (m m' : BinnedLoc → Word) (bits : Set Nat) : Prop where
  set : ∀ n ∈ bits, bitAt data m n = true
  data : ∀ n, bitAt data m' n = true ↔ bitAt data m n = true ∧ n ∉ bits
  other : ∀ l, (∀ w, l ≠ .data w) → m' l = m l

theorem eq_of_bitAt {Loc : Type} {row : Nat → Loc} {m m' : Loc → Word}
    (h : ∀ n, bitAt row m' n = bitAt row m n) {w : Nat} : m' (row w) = m (row w) := by
  refine eq_of_getLsbD_eq fun k hk => ?_
  have hbit := h (64 * w + k)
  rwa [bitAt, bitAt, show (64 * w + k) / 64 = w by omega, show (64 * w + k) % 64 = k by omega] at hbit

/-- Nothing is cleared: the memory is the same. -/
theorem Cleared.eq {m m' : BinnedLoc → Word} (h : Cleared m m' ∅) : m' = m := by
  funext l
  cases l with
  | data w =>
    refine eq_of_bitAt (fun n => ?_)
    rw [Bool.eq_iff_iff, h.data n]
    exact ⟨fun hn => hn.1, fun hn => ⟨hn, notMem_empty n⟩⟩
  | _ => exact h.other _ nofun

/-- The bits of a thread that is alone. -/
structure Alone (m m' : BinnedLoc → Word) (ghosts : Unit → Set Nat × Unit) : Prop where
  owned : Owned data {n | bitAt data m n = true} m' fun i => (ghosts i).1
  other : ∀ l, (∀ w, l ≠ .data w) → m' l = m l

namespace Alone

variable {m m' : BinnedLoc → Word} {ghosts : Unit → Set Nat × Unit}

theorem start (m : BinnedLoc → Word) : Alone m m fun _ => (∅, ()) := by
  refine ⟨⟨fun n => ⟨.inl, ?_⟩, fun _ n hn => absurd hn (notMem_empty n),
    fun _ _ n hn => absurd hn (notMem_empty n)⟩, fun _ _ => rfl⟩
  rintro (hn | ⟨-, hn⟩)
  · exact hn
  · exact absurd hn (notMem_empty n)

theorem change (h : Alone m m' ghosts) {w : Nat} {value : Word} {own : Set Nat}
    (howned : Owned data {n | bitAt data m n = true}
      (update m' (.data w) value) (update (fun i => (ghosts i).1) () own)) :
    Alone m (update m' (.data w) value) (update ghosts () (own, ())) := by
  refine ⟨?_, fun l hl => (update_of_ne (hl w) _ _).trans (h.other l hl)⟩
  exact howned

/-- What the thread owns is what was cleared. -/
theorem cleared (h : Alone m m' ghosts) : Cleared m m' (ghosts ()).1 := by
  refine ⟨fun n hn => (h.owned.covers n).mpr (.inr ⟨(), hn⟩), fun n => ⟨fun hn => ?_, fun hn => ?_⟩, h.other⟩
  · refine ⟨(h.owned.covers n).mpr (.inl hn), fun hown => ?_⟩
    rw [h.owned.clear () n hown] at hn
    cases hn
  · exact ((h.owned.covers n).mp hn.1).resolve_right fun ⟨_, hown⟩ => hn.2 hown

/-- The rules for a chunk. -/
theorem rules {m : BinnedLoc → Word} {c : Nat} :
    ChunkRules (fun _ => WordOp.Does) (fun _ => True) (Alone m) (fun _ => True) () (chunk c) (8 * c) id
      ∅ := by
  refine .ofOwned (C := True) (fun m => m) data_injective (fun _ => rfl) (fun _ => rfl) (fun _ _ _ _ => trivial)
    (fun g => ⟨fun _ => ⟨empty_subset g.1, trivial⟩, fun _ => trivial⟩) (fun _ _ _ _ h => h)
    (fun _ _ h => h.owned) fun op f _ hop m' ghosts own e reply m'' own' hinv _ hdoes howned _ => ?_
  rw [hdoes.2, apply, hop] at howned ⊢
  exact hinv.change howned

end Alone

/-- A function that returns does to the bits what it does among other threads. -/
theorem runs_of_safe {α : Type} {p : BinnedCode α} {m : BinnedLoc → Word} {Q : α → Set Nat × Unit → Prop}
    (h : Safe (fun _ => WordOp.Does) (fun _ => True) (Alone m) (fun _ => True) () p (∅, ()) Q)
    {R : α → (BinnedLoc → Word) → Prop} (hruns : p.Runs answer m R) :
    p.Runs answer m fun value m' => R value m' ∧ ∃ own, Cleared m m' own ∧ Q value (own, ()) := by
  refine (h.runs (fun _ _ => ⟨rfl, rfl⟩) (Alone.start m) rfl trivial hruns).mono ?_
  rintro value m' ⟨hpost, ⟨own, _⟩, hinv, hQ⟩
  have hcleared := hinv.cleared
  exact ⟨hpost, own, hcleared, hQ⟩

end Crabc.Mimalloc
