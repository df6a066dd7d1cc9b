/-
  Crabc.Mimalloc.ChunkOwnership

  Who owns the bits of a chunk while its functions run.

  Every function is safe for the thread that calls it, whatever the other threads do: a
  successful claim leaves the thread with the bits of the run, which were nobody's, and
  every other call leaves it with the bits it had.  A call that puts bits back is charged
  for it; what a charge is, is left to the bitmap around the chunk.
-/

import Crabc.Mimalloc.Chunk

namespace Crabc.Mimalloc

open Crabc.Lib

/-! ## Words -/

open List BitVec Set WordOp Chunk Safe Chunk.RunCursor Option

section

variable {w value : Word}

theorem ctz_eq (h : w ≠ 0) : w.getLsbD (ctz w) = true ∧ ctz w < 64 ∧ ∀ k, k < ctz w → w.getLsbD k = false := by
  cases hfind : (range 64).find? w.getLsbD with
  | none =>
    refine absurd (eq_of_getLsbD_eq fun k hk => ?_) h
    have hclear := find?_eq_none.mp hfind k (mem_range.mpr hk)
    rw [Bool.not_eq_true] at hclear
    rw [hclear, ofNat_eq_ofNat, getLsbD_zero]
  | some k =>
    obtain ⟨hset, hmem, hbefore⟩ := find?_range_eq_some.mp hfind
    rw [ctz, hfind, getD_some]
    refine ⟨hset, mem_range.mp hmem, fun j hj => ?_⟩
    have hnot := hbefore j hj
    rwa [Bool.not_eq_true'] at hnot

theorem getLsbD_fieldMaskValid {count shift k : Nat} (h : count + shift ≤ 64) (hk : k < 64) :
    (fieldMaskValid count shift).getLsbD k = decide (shift ≤ k ∧ k < shift + count) := by
  have hones (k : Nat) (hk : k < 64) : (if count = 64 then allOnes 64
      else (1#64 <<< count) - 1).getLsbD k = decide (k < count) := by
    split
    case isTrue hfull => rw [getLsbD_allOnes, hfull]
    case isFalse hpart =>
      have hpow : 2 ^ count < 2 ^ 64 := Nat.pow_lt_pow_right (by decide) (by omega)
      have hpos := Nat.two_pow_pos count
      have hnat : (1#64 <<< count) - 1 = BitVec.ofNat 64 (2 ^ count - 1) := by
        apply eq_of_toNat_eq
        rw [toNat_sub, toNat_shiftLeft, toNat_ofNat, toNat_ofNat, Nat.shiftLeft_eq]
        simp only [ofNat_eq_ofNat, toNat_ofNat]
        omega
      rw [hnat, getLsbD_ofNat, Nat.testBit_two_pow_sub_one, decide_eq_true hk, Bool.true_and]
  rw [fieldMaskValid, getLsbD_shiftLeft, decide_eq_true hk, Bool.true_and, hones _ (by omega),
    Bool.eq_iff_iff, Bool.and_eq_true, Bool.not_eq_true', decide_eq_false_iff_not, decide_eq_true_eq,
    decide_eq_true_eq]
  omega

/-- The bits of a mask. -/
theorem wordBits_fieldMaskValid {word count shift : Nat} (h : count + shift ≤ 64) :
    wordBits word (fieldMaskValid count shift) = Set.Ico (64 * word + shift) (64 * word + shift + count) := by
  ext n
  rw [mem_wordBits, mem_Ico, getLsbD_fieldMaskValid h (Nat.mod_lt n (by decide)), decide_eq_true_eq]
  omega

/-- One bit of a row. -/
theorem wordBits_bit (c : Nat) : wordBits (c / 64) (fieldMaskValid 1 (c % 64)) = {c} := by
  rw [wordBits_fieldMaskValid (by omega), Nat.div_add_mod]
  ext n
  rw [mem_Ico, mem_singleton_iff]
  omega

section

variable {Loc : Type} [DecidableEq Loc] {row : Nat → Loc} {m : Loc → Word}

/-- The bits of a row after one of them was set. -/
theorem bitAt_setBit (hrow : Function.Injective row) {c n : Nat} :
    bitAt row (apply (.fetchOr (row (c / 64)) (fieldMaskValid 1 (c % 64))) m) n = true ↔
      bitAt row m n = true ∨ n = c := by
  have hbit := congrArg (n ∈ ·) (wordBits_bit c)
  simp only [mem_wordBits, mem_singleton_iff, eq_iff_iff] at hbit
  rw [apply, loc, bitAt_update hrow, ← hbit]
  by_cases hw : n / 64 = c / 64
  · rw [if_pos hw, WordOp.after, getLsbD_or, Bool.or_eq_true, bitAt, hw]
    simp only [true_and]
  · rw [if_neg hw]
    simp only [hw, false_and, or_false]

/-- The bits of a row after one of them was cleared. -/
theorem bitAt_clearBit (hrow : Function.Injective row) {c n : Nat} :
    bitAt row (apply (.fetchAnd (row (c / 64)) (~~~fieldMaskValid 1 (c % 64))) m) n = true ↔
      bitAt row m n = true ∧ n ≠ c := by
  have hbit := congrArg (n ∈ ·) (wordBits_bit c)
  simp only [mem_wordBits, mem_singleton_iff, eq_iff_iff] at hbit
  have hlt : n % 64 < 64 := Nat.mod_lt _ (by decide)
  rw [apply, loc, bitAt_update hrow, Ne, ← hbit]
  by_cases hw : n / 64 = c / 64
  · rw [if_pos hw, WordOp.after, getLsbD_and, getLsbD_not, bitAt, hw, Bool.and_eq_true]
    simp only [hlt, decide_true, Bool.true_and, Bool.not_eq_true', true_and, Bool.not_eq_true]
  · rw [if_neg hw]
    simp only [hw, false_and, not_false_eq_true, and_true]

end

/-- The lowest bit of a word. -/
theorem getLsbD_lowest {k : Nat} (hk : k < 64) : (value &&& -value).getLsbD k = true ↔
      value.getLsbD k = true ∧ ∀ j, j < k → value.getLsbD j = false := by
  rw [getLsbD_and, getLsbD_neg, decide_eq_true hk, Bool.true_and]
  by_cases hlower : ∃ j, j < k ∧ value.getLsbD j = true
  · rw [decide_eq_true hlower, Bool.xor_true, Bool.and_not_self]
    obtain ⟨j, hj, hset⟩ := hlower
    refine ⟨nofun, fun h => ?_⟩
    rw [h.2 j hj] at hset
    cases hset
  · rw [decide_eq_false hlower, Bool.xor_false, Bool.and_self]
    refine ⟨fun h => ⟨h, fun j hj => ?_⟩, fun h => h.1⟩
    rw [← Bool.not_eq_true]
    exact fun hset => hlower ⟨j, hj, hset⟩

theorem lowest_eq (h : value ≠ 0) : value &&& -value = fieldMaskValid 1 (ctz value) := by
  obtain ⟨hset, hlt, hbefore⟩ := ctz_eq h
  refine eq_of_getLsbD_eq fun k hk => ?_
  rw [Bool.eq_iff_iff, getLsbD_lowest hk, getLsbD_fieldMaskValid (by omega) hk, decide_eq_true_eq]
  constructor
  · rintro ⟨hk', hlower⟩
    rcases Nat.lt_trichotomy k (ctz value) with hlow | heq | hhigh
    · rw [hbefore k hlow] at hk'
      cases hk'
    · omega
    · rw [hlower _ hhigh] at hset
      cases hset
  · intro hk'
    obtain rfl : k = ctz value := by omega
    exact ⟨hset, hbefore⟩

/-- A word has a given bit or not. -/
theorem and_bit_eq {k : Nat} (hk : k < 64) (w : Word) :
    w &&& fieldMaskValid 1 k = if w.getLsbD k then fieldMaskValid 1 k else 0 := by
  refine eq_of_getLsbD_eq fun j hj => ?_
  rw [getLsbD_and, getLsbD_fieldMaskValid (by omega) hj]
  by_cases hjk : j = k
  · subst hjk
    cases w.getLsbD j <;> simp [getLsbD_fieldMaskValid (show 1 + j ≤ 64 by omega) hj]
  · have hfalse : ¬(k ≤ j ∧ j < k + 1) := by omega
    rw [decide_eq_false hfalse, Bool.and_false]
    split
    · rw [getLsbD_fieldMaskValid (by omega) hj, decide_eq_false hfalse]
    · rw [ofNat_eq_ofNat, getLsbD_zero]

theorem bit_ne_zero {k : Nat} (hk : k < 64) : fieldMaskValid 1 k ≠ 0 := by
  intro hzero
  have hbit := @getLsbD_fieldMaskValid 1 k k (by omega) hk
  rw [hzero, ofNat_eq_ofNat, getLsbD_zero, eq_comm, decide_eq_false_iff_not] at hbit
  omega

theorem ctz_bit {k : Nat} (hk : k < 64) : ctz (fieldMaskValid 1 k) = k := by
  obtain ⟨hset, hlt, -⟩ := ctz_eq (bit_ne_zero hk)
  rw [getLsbD_fieldMaskValid (by omega) hlt, decide_eq_true_eq] at hset
  omega

end

/-! ## Ownership -/

open Function

section

variable {ι Mem Loc E : Type} [DecidableEq ι]

/-- What a thread may do with the fields of a chunk, which are the words from `first` on of
    a row: it gets the bits that it clears, and may set those that it owns, for a charge. -/
structure ChunkRules (does : ι → WordOp Loc → Mem → Word → Mem → Prop) (valid : WordOp Loc → Prop)
    (Inv : Mem → (ι → Set Nat × E) → Prop) (Busy : Set Nat × E → Prop) (i : ι) (field : Nat → Loc)
    (first : Nat) (charge : E → E) (kept : Set Nat) : Prop where
  charge_charge : ∀ e, charge (charge e) = charge e
  load : ∀ f, f < 8 → ∀ g, Keeps does valid Inv Busy i (.load (field f)) g fun _ g' => g' = g
  fetchAnd : ∀ f, f < 8 → ∀ mask own e,
    Keeps does valid Inv Busy i (.fetchAnd (field f) (~~~mask)) (own, e) fun previous g' =>
      Disjoint (own ∪ kept) (wordBits (first + f) (previous &&& mask)) ∧
        g' = (own ∪ wordBits (first + f) (previous &&& mask), e)
  fetchOr : ∀ f, f < 8 → ∀ mask own e, wordBits (first + f) mask ⊆ own \ kept →
    Keeps does valid Inv Busy i (.fetchOr (field f) mask) (own, e) fun _ g' =>
      g' = (own \ wordBits (first + f) mask, charge e)
  swap : ∀ f, f < 8 → ∀ own e, wordBits (first + f) (allOnes 64) ⊆ own \ kept →
    Keeps does valid Inv Busy i (.swap (field f) (allOnes 64)) (own, e) fun _ g' =>
      g' = (own \ wordBits (first + f) (allOnes 64), charge e)
  cas : ∀ f, f < 8 → ∀ own e, Keeps does valid Inv Busy i (.cas (field f) (allOnes 64) 0) (own, e) fun previous g' =>
      if previous = allOnes 64 then
        Disjoint (own ∪ kept) (wordBits (first + f) (allOnes 64)) ∧ g' = (own ∪ wordBits (first + f) (allOnes 64), e)
      else g' = (own, e)

variable {field : Nat → Loc} {kept : Set Nat} {does : ι → WordOp Loc → Mem → Word → Mem → Prop}
  {Inv : Mem → (ι → Set Nat × E) → Prop} {first : Nat} {charge : E → E} {Busy : Set Nat × E → Prop}
  {valid : WordOp Loc → Prop} {i : ι}

/-- The rules of an invariant under which the row is owned. It must outlive the operations on a field that
    move bits between the row and the thread; those that set none only add bits to what the thread owns. -/
theorem ChunkRules.ofOwned [DecidableEq Loc] {row : Nat → Loc} {available : Set Nat} {C : Prop}
    (words : Mem → Loc → Word) (hrow : Function.Injective row) (hfield : ∀ f, field f = row (first + f))
    (hcharge : ∀ e, charge (charge e) = charge e)
    (hvalid : ∀ f < 8, ∀ op : WordOp Loc, op.loc = row (first + f) → valid op) (hbusy : ∀ g, Busy g ↔ kept ⊆ g.1 ∧ C)
    (hdoes : ∀ op mem reply mem', does i op mem reply mem' → op.Does (words mem) reply (words mem'))
    (howned : ∀ mem ghosts, Inv mem ghosts → Owned row available (words mem) fun j => (ghosts j).1)
    (hchange : ∀ op, ∀ f < 8, op.loc = row (first + f) → ∀ mem ghosts own e reply mem' own', Inv mem ghosts → ghosts i = (own, e) → does i op mem reply mem' → Owned row available (words mem') (update (fun j => (ghosts j).1) i own') → (op.sets = false → own ⊆ own') → Inv mem' (update ghosts i (own', if op.sets then charge e else e))) :
    ChunkRules does valid Inv Busy i field first charge kept := by
  obtain rfl : field = fun f => row (first + f) := funext hfield
  have hkeeps {op : WordOp Loc} {f : Nat} (hf : f < 8) (hop : op.loc = row (first + f)) {own : Set Nat} {e : E}
      {Q : Word → Set Nat × E → Prop}
      (hmoves : ∀ m owner, Owned row available m owner → owner i = own → kept ⊆ own → ∃ own',
        kept ⊆ own' ∧ Owned row available (op.apply m) (update owner i own') ∧
        (op.sets = false → own ⊆ own') ∧ Q (m op.loc) (own', if op.sets then charge e else e)) :
      Keeps does valid Inv Busy i op (own, e) Q := by
    refine ⟨hvalid f hf op hop, fun mem ghosts hinv hg hbusy' reply mem' hdid => ?_⟩
    obtain ⟨hreply, hwords⟩ := hdoes op mem reply mem' hdid
    obtain ⟨hkept, hC⟩ := (hbusy _).mp hbusy'
    obtain ⟨own', hkept', hown, hadds, hQ⟩ := hmoves _ _ (howned mem ghosts hinv) (congrArg Prod.fst hg) hkept
    rw [← hwords] at hown
    exact ⟨_, hchange op f hf hop mem ghosts own e reply mem' own' hinv hg hdid hown hadds,
      (hbusy _).mpr ⟨hkept', hC⟩, hreply ▸ hQ⟩
  refine ⟨hcharge, fun f hf ⟨own, e⟩ => hkeeps hf rfl ?_, fun f hf mask own e => hkeeps hf rfl ?_,
    fun f hf mask own e hmask => hkeeps hf rfl ?_, fun f hf own e hmask => hkeeps hf rfl ?_,
    fun f hf own e => hkeeps hf rfl ?_⟩
  all_goals
    intro m owner h hown hkept
    subst hown
  case refine_1 =>
    refine ⟨_, hkept, ?_, fun _ => Set.Subset.rfl, rfl⟩
    rw [update_eq_self, apply]
    exact (update_eq_self _ m).symm ▸ h
  case refine_2 =>
    have hdisjoint := h.disjoint_wordBits i (first + f) mask
    exact ⟨_, subset_union_of_subset_left hkept _, h.take hrow i (first + f) mask,
      fun _ => subset_union_left, disjoint_union_left.mpr ⟨hdisjoint, hdisjoint.mono_left hkept⟩, rfl⟩
  case refine_3 =>
    obtain ⟨hsubset, hapart⟩ := subset_sdiff.mp hmask
    exact ⟨_, subset_sdiff.mpr ⟨hkept, hapart.symm⟩, h.give hrow i (first + f) mask hsubset, nofun, rfl⟩
  case refine_4 =>
    obtain ⟨hsubset, hapart⟩ := subset_sdiff.mp hmask
    exact ⟨_, subset_sdiff.mpr ⟨hkept, hapart.symm⟩, h.fill hrow i (first + f) hsubset, nofun, rfl⟩
  case refine_5 =>
    by_cases hfull : m (row (first + f)) = allOnes 64
    · obtain ⟨hdisjoint, hclaim⟩ := h.claim hrow i (first + f) hfull
      have hafter : apply (.cas (row (first + f)) (allOnes 64) 0) m = update m _ 0 :=
        congrArg (update m _) (if_pos hfull)
      exact ⟨_, subset_union_of_subset_left hkept _, hafter ▸ hclaim, fun _ => subset_union_left,
        (if_pos hfull).mpr ⟨disjoint_union_left.mpr ⟨hdisjoint, hdisjoint.mono_left hkept⟩, rfl⟩⟩
    · have hafter : apply (.cas (row (first + f)) (allOnes 64) 0) m = m :=
        (congrArg (update m _) (if_neg hfull)).trans (update_eq_self _ m)
      refine ⟨_, hkept, ?_, fun _ => Set.Subset.rfl, (if_neg hfull).mpr rfl⟩
      rw [hafter, update_eq_self]
      exact h

/-- The ghost value after an attempt to claim some bits. -/
def AfterClaim (charge : E → E) (kept own : Set Nat) (e : E) (bits : Set Nat)
    (claimed temporarily : Bool) (g : Set Nat × E) : Prop :=
  (claimed = true → Disjoint (own ∪ kept) bits) ∧
    g = (if claimed then own ∪ bits else own, if temporarily then charge e else e)

/-- The same for a given run: a claim that succeeds has put nothing back. -/
def AfterTry (charge : E → E) (kept own : Set Nat) (e : E) (bits : Set Nat) (claim : TryClaim)
    (g : Set Nat × E) : Prop :=
  AfterClaim charge kept own e bits claim.claimed claim.temporarilyUnclaimed g ∧
    (claim.claimed = true → claim.temporarilyUnclaimed = false)

theorem AfterTry.claimed {own bits : Set Nat} (e : E) (maybeAllClear : Bool) (h : Disjoint (own ∪ kept) bits) :
    AfterTry charge kept own e bits ⟨true, maybeAllClear, false⟩ (own ∪ bits, e) :=
  ⟨⟨fun _ => h, rfl⟩, fun _ => rfl⟩

theorem AfterTry.unclaimed (charge : E → E) (kept own bits : Set Nat) (e : E) (maybeAllClear temporarily : Bool) : AfterTry charge kept own e bits ⟨false, maybeAllClear, temporarily⟩
      (own, if temporarily then charge e else e) :=
  ⟨⟨nofun, rfl⟩, nofun⟩

/-- Bits that were nobody's can go back. -/
theorem subset_of_disjoint {own bits : Set Nat} (h : Disjoint (own ∪ kept) bits) : bits ⊆ (own ∪ bits) \ kept :=
  subset_sdiff.mpr ⟨subset_union_right, (disjoint_union_left.mp h).2.symm⟩

theorem union_sdiff_of_disjoint {own bits : Set Nat} (h : Disjoint (own ∪ kept) bits) : (own ∪ bits) \ bits = own :=
  union_sdiff_cancel_right (disjoint_union_left.mp h).1.le_bot

/-- The bits of a run in a chunk. -/
def runBits (first index len : Nat) : Set Nat := Set.Ico (64 * first + index) (64 * first + index + len)

theorem runBits_append {index len len' : Nat} :
    runBits first index (len + len') = runBits first index len ∪ runBits first (index + len) len' := by
  ext n
  simp only [runBits, mem_Ico, mem_union]
  omega

variable {index len : Nat}

theorem disjoint_runBits {index' len' : Nat} (h : index + len ≤ index') :
    Disjoint (runBits first index len) (runBits first index' len') := by
  refine disjoint_left.mpr fun n hn hn' => ?_
  rw [runBits, mem_Ico] at hn hn'
  omega

/-- A mask inside a field is a run. -/
theorem wordBits_run {f count shift : Nat} (h : count + shift ≤ 64) :
    wordBits (first + f) (fieldMaskValid count shift) = runBits first (64 * f + shift) count := by
  rw [wordBits_fieldMaskValid h, runBits, Nat.mul_add, Nat.add_assoc (64 * first)]

theorem wordBits_full {f : Nat} : wordBits (first + f) (allOnes 64) = runBits first (64 * f) 64 := by
  rw [wordBits_allOnes, runBits, Nat.mul_add]

/-- Where a loop over the fields of a run is. -/
structure AtRun (index len : Nat) (c : Chunk.RunCursor) : Prop where
  remaining_le : c.remaining ≤ len
  bit_lt : c.fieldBitIndex < 64
  position : c.remaining ≠ 0 → 64 * c.fieldIndex + c.fieldBitIndex = index + (len - c.remaining)

namespace AtRun

variable {index len : Nat} {c : Chunk.RunCursor}

theorem start (index len : Nat) : AtRun index len (.start index len) := by
  refine ⟨Nat.le_refl _, Nat.mod_lt _ (by decide), fun _ => ?_⟩
  rw [Chunk.RunCursor.start, Nat.sub_self, Nat.add_zero, Nat.div_add_mod]

section

variable (h : AtRun index len c)
include h

theorem fieldLen_le (hne : c.remaining ≠ 0) :
    0 < c.fieldLen ∧ c.fieldLen ≤ c.remaining ∧ c.fieldLen + c.fieldBitIndex ≤ 64 := by
  have hbit := h.bit_lt
  rw [fieldLen]
  omega

theorem next : AtRun index len c.next := by
  have hle := h.remaining_le
  have hbit := h.bit_lt
  have hposition := h.position
  refine ⟨Nat.le_trans (Nat.sub_le _ _) hle, Nat.zero_lt_succ 63, fun hrest => ?_⟩
  rw [Chunk.RunCursor.next, fieldLen] at *
  dsimp only at *
  omega

/-- The bits of the field that the loop is at. -/
theorem wordBits_mask (hne : c.remaining ≠ 0) (first : Nat) :
    wordBits (first + c.fieldIndex) c.mask = runBits first (index + (len - c.remaining)) c.fieldLen := by
  rw [mask, wordBits_run (h.fieldLen_le hne).2.2, h.position hne]

theorem runBits_next (hne : c.remaining ≠ 0) (first : Nat) :
    runBits first index (len - c.next.remaining) = runBits first index (len - c.remaining) ∪
      runBits first (index + (len - c.remaining)) c.fieldLen := by
  have hle := h.remaining_le
  have hlen := h.fieldLen_le hne
  rw [← runBits_append, Chunk.RunCursor.next]
  congr 1
  dsimp only
  omega

end

end AtRun

variable {field : Nat → Loc} 
  {kept : Set Nat}

variable {g : Set Nat × E}

namespace ChunkRules

variable (rules : ChunkRules does valid Inv Busy i field first charge kept) {own : Set Nat} {e : E}
  {rounds f : Nat}

include rules

/-! ### Runs that are given back -/

/-- Where the loop of `set_run` is: the bits before it are given back. -/
structure AtSet (own : Set Nat) (charge : E → E) (e : E) (first index len : Nat) (c : Chunk.RunCursor)
    (g : Set Nat × E) : Prop where
  cursor : AtRun index len c
  given : g.1 = own \ runBits first index (len - c.remaining)
  charged : charge g.2 = charge e
  paid : c.remaining ≠ len → g.2 = charge e

theorem setRunRound (hrun : index + len ≤ 512) (hown : runBits first index len ⊆ own \ kept)
    {s : Chunk.RunCursor × RunTransition} (h : AtSet own charge e first index len s.1 g) :
    Safe does valid Inv Busy i (Chunk.setRunRound field s) g
      (Next.Holds (fun s => AtSet own charge e first index len s.1) fun _ g' =>
        g'.1 = own \ runBits first index len ∧ (len ≠ 0 → g'.2 = charge e)) := by
  have hle := h.cursor.remaining_le
  have hgiven := h.given
  rw [Chunk.setRunRound]
  split
  case isTrue hzero =>
    rw [hzero, Nat.sub_zero] at hgiven
    exact ⟨hgiven, fun hlen => h.paid fun heq => hlen (heq ▸ hzero)⟩
  case isFalse hne =>
    have hlen := h.cursor.fieldLen_le hne
    have hposition := h.cursor.position hne
    have hmask := h.cursor.wordBits_mask hne first
    have hnext := h.cursor.runBits_next hne first
    have hpiece : wordBits (first + s.1.fieldIndex) s.1.mask ⊆ g.1 \ kept := by
      rw [hgiven, hmask, sdiff_sdiff_comm]
      refine subset_sdiff.mpr ⟨?_, (disjoint_runBits .refl).symm⟩
      refine Set.Subset.trans (fun n hn => ?_) hown
      rw [runBits, mem_Ico] at hn ⊢
      omega
    refine Keeps.bind ((rules.fetchOr s.1.fieldIndex (by omega) s.1.mask g.1 g.2 hpiece).mono ?_)
    rintro old _ rfl
    refine ⟨h.cursor.next, ?_, ?_, fun _ => h.charged⟩
    · rw [hgiven, hmask, hnext, sdiff_sdiff]
    · exact (rules.charge_charge g.2).trans h.charged

/-- `set_run` of bits that the thread owns. -/
theorem setRun (hown : runBits first index len ⊆ own \ kept) :
    Safe does valid Inv Busy i (Chunk.setRun field rounds index len) (own, e) fun transition g' =>
      transition.isSome = validRun index len ∧
        g' = if validRun index len then (own \ runBits first index len, charge e) else (own, e) := by
  rw [Chunk.setRun]
  split
  case isFalse hinvalid => exact ⟨(Bool.not_eq_true _ ▸ hinvalid).symm, rfl⟩
  case isTrue hvalid =>
    have hrun : len ≠ 0 ∧ index < 512 ∧ index + len ≤ 512 := of_decide_eq_true hvalid
    have hstart : AtSet own charge e first index len (.start index len) (own, e) := by
      refine ⟨.start index len, ?_, rfl, fun hne => absurd rfl hne⟩
      rw [start, Nat.sub_self, runBits, Nat.add_zero, Set.Ico_self, sdiff_empty]
    refine bind ((loop (fun s => AtSet own charge e first index len s.1)
      (fun s g h => rules.setRunRound hrun.2.2 hown h) rounds hstart).mono ?_)
    rintro transition ⟨own', e'⟩ ⟨rfl, hpaid⟩
    obtain rfl := hpaid hrun.1
    exact ⟨hvalid.symm, rfl⟩

/-! ### Claims of a given run -/

theorem tryClearMaskOptimistic (hf : f < 8) (mask : Word) :
    Safe does valid Inv Busy i (tryClearMaskOptimistic field f mask) (own, e) fun claim g' =>
      AfterTry charge kept own e (wordBits (first + f) mask) claim.result g' := by
  refine Keeps.bind ((rules.fetchAnd f hf mask own e).mono ?_)
  rintro previous _ ⟨hdisjoint, rfl⟩
  split
  case isTrue hclaimed =>
    rw [hclaimed] at hdisjoint ⊢
    exact .claimed e _ hdisjoint
  case isFalse hpart =>
    by_cases hzero : previous &&& mask = 0
    · -- nothing was cleared
      rw [restore, if_pos hzero, hzero, wordBits_zero, union_empty]
      exact .unclaimed charge kept own _ e _ false
    · rw [restore, if_neg hzero]
      refine bind (Keeps.bind ((rules.fetchOr f hf _ _ e
        (subset_of_disjoint hdisjoint)).mono ?_))
      rintro _ _ rfl
      rw [union_sdiff_of_disjoint hdisjoint, bne_iff_ne.mpr hzero]
      exact .unclaimed charge kept own _ e _ true

theorem tryClearMask (hf : f < 8) (mask : Word) :
    Safe does valid Inv Busy i (tryClearMask field f mask) (own, e) fun claim g' =>
      AfterTry charge kept own e (wordBits (first + f) mask) claim.result g' := by
  refine Keeps.bind ((rules.load f hf (own, e)).mono ?_)
  rintro previous _ rfl
  split
  case isTrue => exact .unclaimed charge kept own _ e _ false
  case isFalse => exact rules.tryClearMaskOptimistic hf mask

theorem tryClearFullField (hf : f < 8) : Safe does valid Inv Busy i (tryClearFullField field f) (own, e) fun claim g' =>
      AfterTry charge kept own e (wordBits (first + f) (allOnes 64)) claim.result g' := by
  refine Keeps.bind ((rules.load f hf (own, e)).mono ?_)
  rintro previous _ rfl
  split
  case isTrue =>
    refine Keeps.bind ((rules.cas f hf own e).mono fun previous g' hcas => ?_)
    split
    case isTrue hfull =>
      rw [if_pos hfull] at hcas
      exact hcas.2 ▸ .claimed e _ hcas.1
    case isFalse hpart =>
      rw [if_neg hpart] at hcas
      exact hcas ▸ .unclaimed charge kept own _ e _ false
  case isFalse => exact .unclaimed charge kept own _ e _ false

/-- The next field of a run is claimed as a whole or in part. -/
theorem tryClearField (hf : f < 8) (hlen : len ≤ 64) :
    Safe does valid Inv Busy i (Chunk.tryClearField field f len) (own, e) fun claim g' =>
      AfterTry charge kept own e (runBits first (64 * f) len) claim.result g' := by
  rw [Chunk.tryClearField]
  split
  case isTrue hfull =>
    rw [hfull, ← wordBits_full]
    exact rules.tryClearFullField hf
  case isFalse =>
    have hmask := @wordBits_run first f len 0 (by omega)
    rw [Nat.add_zero] at hmask
    rw [← hmask]
    exact rules.tryClearMask hf _

/-- The fields that were claimed are put back, the last one first. -/
theorem restoreClaimedPrefix {e' : E} {startField startBit firstLen count : Nat}
    (hcharge : e' = charge e ∨ (count ≠ 0 ∧ e' = e))
    (hfirst : startBit + firstLen = 64) (hfields : startField + count ≤ 8)
    (hdisjoint : Disjoint (own ∪ kept)
      (runBits first (64 * startField + startBit) (64 * count - startBit))) :
    Safe does valid Inv Busy i
      (Chunk.restoreClaimedPrefix field startField (fieldMaskValid firstLen startBit) count)
      (own ∪ runBits first (64 * startField + startBit) (64 * count - startBit), e')
      fun _ g' => g' = (own, charge e) := by
  induction count generalizing e' with
  | zero =>
    obtain rfl : e' = charge e := hcharge.resolve_right fun h => h.1 rfl
    have hempty : runBits first (64 * startField + startBit) (64 * 0 - startBit) = ∅ := by
      rw [runBits, Set.Ico_eq_empty (by omega)]
    rw [hempty, union_empty]
    exact rfl
  | succ count ih =>
    have hcharged : charge e' = charge e := by
      rcases hcharge with rfl | ⟨-, rfl⟩
      · exact rules.charge_charge e
      · rfl
    rw [Chunk.restoreClaimedPrefix]
    split
    case isTrue hzero =>
      subst hzero
      have hmask := @wordBits_run first startField firstLen startBit (by omega)
      have hlen : 64 * (0 + 1) - startBit = firstLen := by omega
      rw [hlen] at hdisjoint ⊢
      rw [← hmask] at hdisjoint ⊢
      refine Keeps.bind ((rules.fetchOr startField (by omega) _ _ _
        (subset_of_disjoint hdisjoint)).mono ?_)
      rintro _ _ rfl
      rw [union_sdiff_of_disjoint hdisjoint, hcharged]
      exact rfl
    case isFalse hpos =>
      -- the run is what remains and the last field
      have hsplit : runBits first (64 * startField + startBit) (64 * (count + 1) - startBit) =
          runBits first (64 * startField + startBit) (64 * count - startBit) ∪
            wordBits (first + (startField + count)) (allOnes 64) := by
        rw [wordBits_full, show 64 * (count + 1) - startBit = 64 * count - startBit + 64 by omega, runBits_append]
        congr 2
        omega
      have hlast : Disjoint (own ∪ runBits first (64 * startField + startBit)
          (64 * count - startBit) ∪ kept)
          (wordBits (first + (startField + count)) (allOnes 64)) := by
        rw [hsplit] at hdisjoint
        rw [union_right_comm]
        refine disjoint_union_left.mpr ⟨hdisjoint.mono_right subset_union_right, ?_⟩
        rw [wordBits_full]
        exact disjoint_runBits (by omega)
      rw [hsplit, ← union_assoc]
      refine Keeps.bind ((rules.swap (startField + count) (by omega) _ _
        (subset_of_disjoint hlast)).mono ?_)
      rintro _ _ rfl
      rw [union_sdiff_of_disjoint hlast, hcharged]
      refine ih (.inl rfl) (by omega) (hdisjoint.mono_right ?_)
      rw [hsplit]
      exact subset_union_left

/-- Where the loop of `try_claim_at` is: the fields before `s.fieldIndex` are claimed. -/
structure AtClaim (kept own : Set Nat) (e : E) (first index len : Nat) (s : Chunk.ClaimCursor)
    (g : Set Nat × E) : Prop where
  remaining_le : s.remaining ≤ len
  field_gt : index / 64 < s.fieldIndex
  aligned : s.remaining ≠ 0 → 64 * s.fieldIndex = index + (len - s.remaining)
  disjoint : Disjoint (own ∪ kept) (runBits first index (len - s.remaining))
  ghost : g = (own ∪ runBits first index (len - s.remaining), e)

variable {s : Chunk.ClaimCursor}

omit [DecidableEq ι] rules in
theorem AtClaim.append (h : AtClaim kept own e first index len s g) (hne : s.remaining ≠ 0) (fieldLen : Nat)
    (hfieldLen : fieldLen ≤ s.remaining) : runBits first index (len - (s.remaining - fieldLen)) =
      runBits first index (len - s.remaining) ∪ runBits first (64 * s.fieldIndex) fieldLen := by
  have hle := h.remaining_le
  rw [h.aligned hne, ← runBits_append]
  congr 1
  omega

theorem tryClaimAtRound (hrun : index + len ≤ 512) (h : AtClaim kept own e first index len s g) :
    Safe does valid Inv Busy i
      (tryClaimAtRound field (index / 64)
        (fieldMaskValid (min (64 - index % 64) len) (index % 64)) s) g
      (Next.Holds (AtClaim kept own e first index len)
        (AfterTry charge kept own e (runBits first index len))) := by
  obtain rfl := h.ghost
  have hgt := h.field_gt
  have hdisjoint := h.disjoint
  rw [tryClaimAtRound]
  split
  case isTrue hzero =>
    rw [hzero, Nat.sub_zero] at hdisjoint ⊢
    exact .claimed e _ hdisjoint
  case isFalse hne =>
    have haligned := h.aligned hne
    have happend := h.append hne (min 64 s.remaining) (Nat.min_le_right _ _)
    refine bind ((rules.tryClearField (by omega) (Nat.min_le_left _ _)).mono ?_)
    rintro claim _ ⟨⟨hfield, rfl⟩, htemporarily⟩
    split
    case isTrue hclaimed =>
      refine ⟨by dsimp only; omega, by dsimp only; omega, fun hrest => ?_, ?_, ?_⟩
      · dsimp only at hrest ⊢
        omega
      · rw [happend]
        have hnext := hfield hclaimed
        rw [union_right_comm] at hnext
        exact disjoint_union_right.mpr ⟨hdisjoint, hnext.mono_left subset_union_left⟩
      · rw [happend, htemporarily hclaimed, union_assoc]
        rfl
    case isFalse hfailed =>
      -- the prefix goes back, for the same charge as what the failed field put back
      have hbefore : runBits first index (len - s.remaining) = runBits first (64 * (index / 64) + index % 64)
            (64 * (s.fieldIndex - index / 64) - index % 64) := by
        congr 1 <;> omega
      have hcharge : (if claim.result.temporarilyUnclaimed then charge e else e) = charge e ∨
          (s.fieldIndex - index / 64 ≠ 0 ∧ (if claim.result.temporarilyUnclaimed then charge e else e) = e) := by
        split
        · exact .inl rfl
        · exact .inr ⟨by omega, rfl⟩
      rw [hbefore]
      rw [hbefore] at hdisjoint
      refine bind ((rules.restoreClaimedPrefix hcharge (by omega) (by omega)
        hdisjoint).mono ?_)
      rintro _ _ rfl
      exact .unclaimed charge kept own _ e false true

/-- `try_claim_at`. -/
theorem tryClaimAt : Safe does valid Inv Busy i (Chunk.tryClaimAt field rounds index len) (own, e) fun claim g' =>
      match claim with
      | none => validRun index len = false ∧ g' = (own, e)
      | some claim => validRun index len = true ∧
          AfterTry charge kept own e (runBits first index len) claim g' := by
  rw [Chunk.tryClaimAt]
  split
  case isFalse hinvalid => exact ⟨Bool.not_eq_true _ ▸ hinvalid, rfl⟩
  case isTrue hvalid =>
    have hrun : len ≠ 0 ∧ index < 512 ∧ index + len ≤ 512 := of_decide_eq_true hvalid
    have hmask := @wordBits_run first (index / 64) (min (64 - index % 64) len) (index % 64) (by omega)
    rw [Nat.div_add_mod] at hmask
    refine bind ((rules.tryClearMask (by omega) _).mono ?_)
    rintro claim _ ⟨⟨hfirst, rfl⟩, htemporarily⟩
    rw [hmask] at hfirst ⊢
    split
    case isTrue hclaimed =>
      rw [htemporarily hclaimed]
      have hstart : AtClaim kept own e first index len
          ⟨index / 64 + 1, len - min (64 - index % 64) len, claim.result.maybeAllClear⟩
          (own ∪ runBits first index (min (64 - index % 64) len), e) := by
        have hlen : len - (len - min (64 - index % 64) len) = min (64 - index % 64) len := by omega
        refine ⟨Nat.sub_le _ _, Nat.lt_succ_self _, fun hrest => ?_, ?_, ?_⟩
        · dsimp only at hrest ⊢
          omega
        · rw [hlen]
          exact hfirst hclaimed
        · rw [hlen]
      refine bind (loop (AtClaim kept own e first index len) (fun s g h =>
        rules.tryClaimAtRound hrun.2.2 h) rounds hstart |>.mono ?_)
      exact fun claim g' h => ⟨hvalid, h⟩
    case isFalse hfailed =>
      refine ⟨hvalid, ⟨fun h => absurd h hfailed, ?_⟩, fun h => absurd h hfailed⟩
      rw [if_neg hfailed]

/-! ### Searches -/

/-- The flag `temporarily_unclaimed` and the ghost value of a search that goes on. -/
def Searching (charge : E → E) (own : Set Nat) (e : E) (temporarily : Bool) (g : Set Nat × E) : Prop :=
  g = (own, if temporarily then charge e else e)

/-- A search that has found a run. -/
def Found (charge : E → E) (kept own : Set Nat) (e : E) (first len index : Nat) (temporarily : Bool)
    (g : Set Nat × E) : Prop :=
  validRun index len = true ∧ Disjoint (own ∪ kept) (runBits first index len) ∧
    g = (own ∪ runBits first index len, if temporarily then charge e else e)

/-- The end of a search. -/
def AfterSearch (charge : E → E) (kept own : Set Nat) (e : E) (first len : Nat) (claim : ChunkSearchClaim)
    (g : Set Nat × E) : Prop :=
  match claim.index with
  | none => Searching charge own e claim.temporarilyUnclaimed g
  | some index => Found charge kept own e first len index claim.temporarilyUnclaimed g

variable {temporarily : Bool}

/-- Charges add up to one. -/
theorem charge_or (temporarily' : Bool) : (if temporarily' then charge (if temporarily then charge e else e)
      else if temporarily then charge e else e) =
      if (temporarily || temporarily') then charge e else e := by
  cases temporarily <;> cases temporarily'
  · rfl
  · rfl
  · rfl
  · exact rules.charge_charge e

theorem tryClaimOneInNonzeroField (hf : f < 8) (tries : Nat) {value : Word} (hne : value ≠ 0) :
    Safe does valid Inv Busy i (Chunk.tryClaimOneInNonzeroField field f tries value) (own, e) fun bit g' =>
      match bit with
      | none => g' = (own, e)
      | some bit => Found charge kept own e first 1 (f * 64 + bit) false g' := by
  induction tries generalizing value with
  | zero => exact rfl
  | succ tries ih =>
    obtain ⟨-, hlt, -⟩ := ctz_eq hne
    rw [Chunk.tryClaimOneInNonzeroField, lowest_eq hne]
    refine Keeps.bind ((rules.fetchAnd f hf _ own e).mono ?_)
    rintro previous _ ⟨hdisjoint, rfl⟩
    rw [and_bit_eq hlt] at hdisjoint ⊢
    cases hbit : previous.getLsbD (ctz value) with
    | true =>
      rw [hbit, if_pos rfl, wordBits_run (by omega), Nat.mul_comm] at hdisjoint
      rw [if_pos rfl, if_pos rfl, wordBits_run (by omega), Nat.mul_comm, ctz_bit hlt]
      exact ⟨decide_eq_true (by omega), hdisjoint, rfl⟩
    | false =>
      rw [if_neg Bool.false_ne_true, if_neg (bit_ne_zero hlt).symm, wordBits_zero, union_empty]
      split
      case isTrue => exact rfl
      case isFalse hmore => exact ih hmore

/-- `try_claim_one`. -/
theorem tryClaimOne : Safe does valid Inv Busy i (tryClaimOne field) (own, e) fun index g' =>
      match index with
      | none => g' = (own, e)
      | some index => Found charge kept own e first 1 index false g' := by
  refine bind ((each (Q := fun index => Found charge kept own e first 1 index false)
    (fun (_ : Unit) g => g = (own, e)) (fun f hf _ g hg => ?_) rfl).mono fun answer g' h => ?_)
  · subst hg
    refine Keeps.bind ((rules.load f (mem_range.mp hf) _).mono ?_)
    rintro value _ rfl
    split
    case isTrue => exact rfl
    case isFalse hne =>
      refine bind ((rules.tryClaimOneInNonzeroField (mem_range.mp hf) 5 hne).mono ?_)
      rintro (_ | bit) g' h
      · exact h
      · exact h
  · cases answer with
    | done index => exact h
    | again _ => exact h

omit [DecidableEq ι] rules in
/-- A byte that is set as a whole starts low enough. -/
theorem firstSetByte_le {value : Word} {bit : Nat} (h : firstSetByte value = some bit) : 8 + bit ≤ 64 := by
  rw [firstSetByte, bsf, ite_eq_iff] at h
  obtain ⟨-, hnone⟩ | ⟨hne, hsome⟩ := h
  · exact nomatch hnone
  · obtain rfl := some.inj hsome
    have hset := (ctz_eq hne).1
    rw [getLsbD_ushiftRight] at hset
    have hlt := lt_of_getLsbD hset
    omega

theorem tryClaimByteInField (hf : f < 8) (tries : Nat) (value : Word) (h : Searching charge own e temporarily g) :
    Safe does valid Inv Busy i (tryClaimByteInField field f tries value temporarily) g
      (Next.Holds (Searching charge own e) (AfterSearch charge kept own e first 8)) := by
  induction tries generalizing value temporarily g with
  | zero => exact h
  | succ tries ih =>
    rw [tryClaimByteInField]
    split
    case h_1 => exact h
    case h_2 bit hbit =>
      have hle := firstSetByte_le hbit
      obtain rfl := h
      refine bind ((rules.tryClearMaskOptimistic hf _).mono ?_)
      rintro claim _ ⟨⟨hdisjoint, rfl⟩, -⟩
      rw [wordBits_run hle, Nat.mul_comm 64 f] at hdisjoint ⊢
      rw [rules.charge_or]
      split
      case isTrue hclaimed => exact ⟨decide_eq_true (by omega), hdisjoint hclaimed, rfl⟩
      case isFalse =>
        split
        case isTrue => exact rfl
        case isFalse => exact ih claim.previous rfl

omit [DecidableEq ι] rules in
theorem searched_holds {answer : Next Bool ChunkSearchClaim}
    (h : Next.Holds (Searching charge own e) (AfterSearch charge kept own e first len) answer g) :
    AfterSearch charge kept own e first len (searched answer) g := by
  cases answer with
  | done claim => exact h
  | again temporarily => exact h

/-- `try_claim_byte`. -/
theorem tryClaimByte :
    Safe does valid Inv Busy i (tryClaimByte field) (own, e) (AfterSearch charge kept own e first 8) := by
  refine bind ((each (Searching charge own e) (fun f hf temporarily g hg => ?_) rfl).mono
    fun answer g' h => searched_holds h)
  refine Keeps.bind ((rules.load f (mem_range.mp hf) _).mono ?_)
  rintro value _ rfl
  split
  case isTrue => exact hg
  case isFalse => exact rules.tryClaimByteInField (mem_range.mp hf) 5 value hg

theorem withinFieldRound {baseMask : Word} (hf : f < 8) (hmask : fieldMask len 0 = some baseMask)
    {s : Word × Bool} (h : Searching charge own e s.2 g) :
    Safe does valid Inv Busy i (Chunk.withinFieldRound field len baseMask f s) g
      (Next.Holds (fun s => Searching charge own e s.2)
        (Next.Holds (fun s => Searching charge own e s.2) (AfterSearch charge kept own e first len))) := by
  rw [Chunk.withinFieldRound]
  split
  case h_1 => exact h
  case h_2 bit _ =>
  split
  case isTrue => exact h
  case isFalse hfits =>
  dsimp only
  split
  case isFalse => exact h
  case isTrue =>
    have hbase : baseMask = fieldMaskValid len 0 ∧ 0 < len := by
      rw [fieldMask] at hmask
      split at hmask
      · exact nomatch hmask
      · split at hmask
        · exact ⟨(some.inj hmask).symm, by omega⟩
        · exact nomatch hmask
    have hshift : baseMask <<< bit = fieldMaskValid len bit := by
      rw [hbase.1, fieldMaskValid, fieldMaskValid, shiftLeft_zero]
    obtain rfl := h
    rw [hshift]
    refine bind ((rules.tryClearMaskOptimistic hf _).mono ?_)
    rintro claim _ ⟨⟨hdisjoint, rfl⟩, -⟩
    rw [wordBits_run (by omega), Nat.mul_comm 64 f] at hdisjoint ⊢
    rw [rules.charge_or]
    split
    case isTrue hclaimed => exact ⟨decide_eq_true (by omega), hdisjoint hclaimed, rfl⟩
    case isFalse => exact rfl

theorem claimFound (h : Searching charge own e temporarily g) :
    Safe does valid Inv Busy i (claimFound field rounds index len temporarily) g
      (Next.Holds (Searching charge own e) (AfterSearch charge kept own e first len)) := by
  obtain rfl := h
  refine bind (rules.tryClaimAt.mono ?_)
  rintro (_ | claim) g' h
  · obtain ⟨-, rfl⟩ := h
    rw [getD_none, TryClaim.rejected]
    dsimp only
    rw [Bool.or_false]
    exact rfl
  · obtain ⟨hvalid, ⟨hdisjoint, rfl⟩, -⟩ := h
    rw [getD_some, rules.charge_or]
    dsimp only
    split
    case isTrue hclaimed => exact ⟨hvalid, hdisjoint hclaimed, rfl⟩
    case isFalse => exact rfl

theorem acrossBoundary {s : Word × Bool} (h : Searching charge own e s.2 g) :
    Safe does valid Inv Busy i (Chunk.acrossBoundary field rounds len f s) g
      (Next.Holds (Searching charge own e) (AfterSearch charge kept own e first len)) := by
  rw [Chunk.acrossBoundary]
  split
  case isFalse => exact h
  case isTrue hnext =>
    refine Keeps.bind ((rules.load (f + 1) hnext.2.1 _).mono ?_)
    rintro value _ rfl
    dsimp only
    split
    case isTrue => exact rules.claimFound h
    case isFalse => exact h

/-- `try_claim_run_within_field_width`. -/
theorem tryClaimRunWithinFieldWidth :
    Safe does valid Inv Busy i (Chunk.tryClaimRunWithinFieldWidth field rounds len) (own, e)
      (AfterSearch charge kept own e first len) := by
  rw [Chunk.tryClaimRunWithinFieldWidth]
  split
  case h_1 => exact rfl
  case h_2 baseMask hmask =>
    refine bind ((each (Searching charge own e) (fun f hf temporarily g hg => ?_) rfl).mono
      fun answer g' h => searched_holds h)
    have hf8 := mem_range.mp hf
    refine Keeps.bind ((rules.load f hf8 _).mono ?_)
    rintro value _ rfl
    refine bind ((loop (fun s => Searching charge own e s.2)
      (fun s g h => rules.withinFieldRound hf8 hmask h) rounds
      (s := (value, temporarily)) hg).mono ?_)
    rintro (s | claim) g' h
    · exact rules.acrossBoundary h
    · exact h

theorem followingFields (s : Nat × Nat) (g : Set Nat × E) :
    Safe does valid Inv Busy i (Chunk.followingFields field f s) g
      (Next.Holds (fun _ g' => g' = g) fun _ g' => g' = g) := by
  rw [Chunk.followingFields]
  split
  case isFalse => exact rfl
  case isTrue hlt =>
    refine Keeps.bind ((rules.load _ hlt g).mono ?_)
    rintro value _ rfl
    dsimp only
    split
    case isTrue => exact rfl
    case isFalse =>
      split
      case isTrue => exact rfl
      case isFalse => exact rfl

theorem remainingFrom {ones : Nat} (g : Set Nat × E) :
    Safe does valid Inv Busy i (Chunk.remainingFrom field rounds len f ones) g fun _ g' => g' = g := by
  rw [Chunk.remainingFrom]
  split
  case isTrue => exact rfl
  case isFalse =>
  split
  case isFalse => exact rfl
  case isTrue =>
    refine loop (fun _ g' => g' = g) (fun s g' h => ?_) rounds rfl
    subst h
    exact rules.followingFields s g'

/-- `try_claim_run_across_fields`. -/
theorem tryClaimRunAcrossFields : Safe does valid Inv Busy i (tryClaimRunAcrossFields field rounds len) (own, e)
      (AfterSearch charge kept own e first len) := by
  refine loop (fun (s : Nat × Bool) => Searching charge own e s.2) (fun s g h => ?_) rounds rfl
  rw [acrossFieldsRound]
  split
  case isFalse => exact h
  case isTrue hlt =>
    refine Keeps.bind ((rules.load s.1 (by omega) _).mono ?_)
    rintro value _ rfl
    refine bind ((rules.remainingFrom _).mono ?_)
    rintro ⟨remaining, skip⟩ _ rfl
    dsimp only
    split
    case isFalse => exact h
    case isTrue =>
      refine bind ((rules.claimFound h).mono ?_)
      rintro (temporarily | claim) g' h
      · exact h
      · exact h

/-- `try_claim_run_detailed`; the search for one bit never puts one back. -/
theorem tryClaimRunDetailed :
    Safe does valid Inv Busy i (Chunk.tryClaimRunDetailed field rounds len) (own, e) fun claim g' =>
      AfterSearch charge kept own e first len claim g' ∧ (len = 1 → claim.temporarilyUnclaimed = false) := by
  rw [Chunk.tryClaimRunDetailed]
  split
  case isTrue => exact ⟨rfl, fun _ => rfl⟩
  case isFalse hlen =>
  split
  case isTrue hone =>
    subst hone
    refine bind (rules.tryClaimOne.mono ?_)
    rintro (_ | index) g' h
    all_goals exact ⟨h, fun _ => rfl⟩
  case isFalse hone =>
  split
  case isTrue height =>
    subst height
    exact rules.tryClaimByte.mono fun claim g' h => ⟨h, fun heq => absurd heq hone⟩
  case isFalse =>
  split
  case isTrue =>
    exact rules.tryClaimRunWithinFieldWidth.mono fun claim g' h =>
      ⟨h, fun heq => absurd heq hone⟩
  case isFalse =>
    exact rules.tryClaimRunAcrossFields.mono fun claim g' h =>
      ⟨h, fun heq => absurd heq hone⟩

/-- The scans of the fields. -/
theorem relaxedScans (g : Set Nat × E) :
    (Safe does valid Inv Busy i (allAreClearRelaxed field) g fun _ g' => g' = g) ∧
    Safe does valid Inv Busy i (allAreSetRelaxed field) g fun _ g' => g' = g := by
  constructor
  all_goals
    refine bind ((each (Q := fun _ g' => g' = g) (fun (_ : Unit) g' => g' = g)
      (fun f hf _ g' h => ?_) rfl).mono ?_)
    · subst h
      refine Keeps.bind ((rules.load f (mem_range.mp hf) g').mono ?_)
      rintro value _ rfl
      split <;> exact rfl
    · rintro (_ | value) g' h <;> exact h

end ChunkRules

/-! ### Single bits of a map -/

/-- A run of one bit is in one field. -/
theorem mask_start_one {c : Nat} : (start c 1).mask = fieldMaskValid 1 (c % 64) := by
  rw [mask, fieldLen, start]
  rw [show min (64 - c % 64) 1 = 1 by omega]

theorem next_start_one {c : Nat} : (start c 1).next.remaining = 0 := by
  rw [RunCursor.next, fieldLen, start]
  dsimp only
  omega

section

variable {rounds c : Nat} {Q : Option RunTransition → Set Nat × E → Prop} (hc : c < 512)
include hc

/-- `set_run` and `clear_run` of one bit are one operation. -/
theorem safe_run_one :
    (Keeps does valid Inv Busy i (.fetchOr (field (c / 64)) (fieldMaskValid 1 (c % 64))) g
      (fun _ g' => ∀ transition, Q transition g') → Safe does valid Inv Busy i (setRun field rounds c 1) g Q) ∧
    (Keeps does valid Inv Busy i (.fetchAnd (field (c / 64)) (~~~fieldMaskValid 1 (c % 64))) g
      (fun _ g' => ∀ transition, Q transition g') → Safe does valid Inv Busy i (clearRun field rounds c 1) g Q) := by
  have hvalid : validRun c 1 = true := decide_eq_true (by omega)
  have hone : (start c 1).remaining ≠ 0 := Nat.one_ne_zero
  constructor
  all_goals
    intro h
    simp only [setRun, clearRun, if_pos hvalid]
    refine bind (loop (fun s g' => (s.1 = .start c 1 ∧ g' = g) ∨
      (s.1.remaining = 0 ∧ ∀ transition, Q transition g')) ?_ rounds (.inl ⟨rfl, rfl⟩))
    rintro ⟨_, transition⟩ g' (⟨rfl, rfl⟩ | ⟨hzero, hQ⟩)
    · simp only [setRunRound, clearRunRound, if_neg hone, mask_start_one]
      exact Keeps.bind (h.mono fun _ g' hQ => .inr ⟨next_start_one, hQ⟩)
    · simp only [setRunRound, clearRunRound, if_pos hzero]
      exact hQ _

end

end

end Crabc.Mimalloc
