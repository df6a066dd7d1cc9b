/-
  Crabc.Mimalloc.BinnedSequential

  A binned bitmap that one thread uses on its own.

  Every call returns.  A search takes the bits that it answers with and nothing else; a
  search for whole chunks takes the lowest ones.  A chunk is reserved for one size at most,
  and for none when all of its bits are set: `set_range` gives up the reservation of a chunk
  that it has filled, and only a claim makes one.
-/

import Crabc.Mimalloc.BinnedClaims
import Crabc.Mimalloc.ChunkSequential

namespace Crabc.Mimalloc

open Crabc.Lib Program BinnedBitmap Relation Runs BinnedLoc Nat Function Chunk.RunCursor Set Prod

open ChunkBin (fromIndex)

/-! ## Chunks and bins -/

/-- All bits of a chunk are set. -/
def ChunkFull (m : BinnedLoc → Word) (c : Nat) : Prop := ∀ n, n / 512 = c → bitAt data m n = true

/-- A chunk is in a bin map. -/
def InBin (m : BinnedLoc → Word) (b c : Nat) : Prop := bitAt (binMap b) m c = true

/-- A chunk is in one bin map at most, and in none when all of its bits are set. -/
structure BinsSound (m : BinnedLoc → Word) : Prop where
  unique : ∀ c b b', b < 5 → b' < 5 → InBin m b c → InBin m b' c → b = b'
  full : ∀ c, ChunkFull m c → ∀ b, b < 5 → ¬InBin m b c

/-- The data and the bin maps are the same. -/
structure SameChunks (m m' : BinnedLoc → Word) : Prop where
  data : ∀ w, m' (.data w) = m (.data w)
  bins : ∀ b f, m' (.bin b f) = m (.bin b f)

/-- Some bits that were set are cleared. -/
structure Taken (m m' : BinnedLoc → Word) (bits : Set Nat) : Prop where
  set : ∀ n ∈ bits, bitAt data m n = true
  data : ∀ n, bitAt data m' n = true ↔ bitAt data m n = true ∧ n ∉ bits

open WordOp List Chunk

section

variable {m m' m'' : BinnedLoc → Word} {c : Nat} {Loc : Type}

theorem bitAt_congr {row : Nat → Loc} {m m' : Loc → Word} (h : ∀ w, m' (row w) = m (row w)) (n : Nat) :
    bitAt row m' n = bitAt row m n := by
  rw [bitAt, bitAt, h]

theorem chunkFull_congr (h : ∀ w, m' (.data w) = m (.data w)) : ChunkFull m' c ↔ ChunkFull m c := by
  rw [ChunkFull, ChunkFull]
  simp only [bitAt_congr h]

theorem inBin_congr {b : Nat} (h : ∀ f, m' (.bin b f) = m (.bin b f)) : InBin m' b c ↔ InBin m b c := by
  rw [InBin, InBin, @bitAt_congr _ (binMap b) _ _ h]

/-- A chunk is full when its eight fields are. -/
theorem chunkFull_iff : ChunkFull m c ↔ ∀ f, f < 8 → m (chunk c f) = BitVec.allOnes 64 := by
  constructor
  · intro h f hf
    refine BitVec.eq_of_getLsbD_eq fun k hk => ?_
    have hbit := h (64 * (8 * c + f) + k) (by omega)
    rw [bitAt, show (64 * (8 * c + f) + k) / 64 = 8 * c + f by omega,
      show (64 * (8 * c + f) + k) % 64 = k by omega] at hbit
    rw [BitVec.getLsbD_allOnes, decide_eq_true hk]
    exact hbit
  · intro h n hn
    have hfield := h (n / 64 % 8) (mod_lt _ (by decide))
    rw [chunk, show 8 * c + n / 64 % 8 = n / 64 by omega] at hfield
    rw [bitAt, hfield, BitVec.getLsbD_allOnes]
    exact decide_eq_true (mod_lt _ (by decide))

namespace SameChunks

theorem refl (m : BinnedLoc → Word) : SameChunks m m := ⟨fun _ => rfl, fun _ _ => rfl⟩

theorem trans (h : SameChunks m m') (h' : SameChunks m' m'') : SameChunks m m'' :=
  ⟨fun w => (h'.data w).trans (h.data w), fun b f => (h'.bins b f).trans (h.bins b f)⟩

/-- An operation on the chunk map or on the highest chunk. -/
theorem apply {op : WordOp BinnedLoc} (hdata : ∀ w, .data w ≠ op.loc) (hbin : ∀ b f, .bin b f ≠ op.loc) :
    SameChunks m (op.apply m) :=
  ⟨fun w => update_of_ne (hdata w) _ _, fun b f => update_of_ne (hbin b f) _ _⟩

theorem setMap (m : BinnedLoc → Word) (f : Nat) (w : Word) :
    SameChunks m (WordOp.apply (.fetchOr (.chunkmap f) w) m) := .apply nofun nofun

theorem clearMap (m : BinnedLoc → Word) (f : Nat) (w : Word) :
    SameChunks m (WordOp.apply (.fetchAnd (.chunkmap f) w) m) := .apply nofun nofun

end SameChunks

variable {bits : Set Nat}

namespace Taken

theorem nothing (h : ∀ w, m' (.data w) = m (.data w)) : Taken m m' ∅ :=
  ⟨fun n hn => absurd hn (notMem_empty n), fun n => by simp [bitAt_congr h]⟩

theorem trans {bits' : Set Nat} (h : Taken m m' bits) (h' : Taken m' m'' bits') : Taken m m'' (bits ∪ bits') := by
  refine ⟨fun n hn => ?_, fun n => ?_⟩
  · rcases hn with hn | hn
    · exact h.set n hn
    · exact ((h.data n).mp (h'.set n hn)).1
  · rw [h'.data, h.data, mem_union, not_or, and_assoc]

theorem congr_right (h : Taken m m' bits) (hsame : ∀ w, m'' (.data w) = m' (.data w)) : Taken m m'' bits :=
  ⟨h.set, fun n => by rw [bitAt_congr hsame, h.data]⟩

/-- A chunk that lost a bit is not full. -/
theorem not_full (h : Taken m m' bits) {n : Nat} (hn : n ∈ bits) (hc : n / 512 = c) :
    ¬ChunkFull m' c := fun hfull => ((h.data n).mp (hfull n hc)).2 hn

end Taken

theorem Cleared.taken (h : Cleared m m' bits) : Taken m m' bits := ⟨h.set, h.data⟩

namespace BinsSound

/-- Bits may go; the bin maps must stay. -/
theorem taken (h : BinsSound m) (htaken : Taken m m' bits) (hbins : ∀ b f, m' (.bin b f) = m (.bin b f)) :
    BinsSound m' := by
  refine ⟨fun c b b' hb hb' hin hin' => ?_, fun c hfull b hb hin => ?_⟩
  · rw [inBin_congr (hbins _)] at hin hin'
    exact h.unique c b b' hb hb' hin hin'
  · rw [inBin_congr (hbins _)] at hin
    exact h.full c (fun n hn => ((htaken.data n).mp (hfull n hn)).1) b hb hin

theorem congr (h : BinsSound m) (hsame : SameChunks m m') : BinsSound m' :=
  h.taken (.nothing hsame.data) hsame.bins

end BinsSound

/-! ## Maps -/

variable {rounds : Nat} (hc : c < 512) (hmore : 1 < rounds)

section

variable [DecidableEq Loc] {field : Nat → Loc} {m : Loc → Word}

theorem runs_allAreClearRelaxed : (allAreClearRelaxed field).Runs answer m fun _ m' => m' = m := by
  refine bind ((each (Q := fun _ m' => m' = m) (fun _ m' => m' = m)
    (fun f _ _ m' h => ?_) rfl).mono ?_)
  · subst h
    refine perform ?_
    rw [answer_load]
    split <;> exact pure rfl
  · rintro (_ | _) _ rfl <;> exact pure rfl

/-- The answer of `all_are_set_relaxed`. -/
theorem runs_allAreSetRelaxed : (allAreSetRelaxed field).Runs answer m fun full m' =>
      m' = m ∧ (full = true ↔ ∀ f, f < 8 → m (field f) = BitVec.allOnes 64) := by
  refine bind ((each_rest (Q := fun full m' => full = false ∧ m' = m ∧ ∃ f, f < 8 ∧ m (field f) ≠ BitVec.allOnes 64)
    (fun rest (_ : Unit) m' => m' = m ∧ (∀ f ∈ rest, f < 8) ∧ ∀ f, f < 8 → f ∉ rest → m (field f) = BitVec.allOnes 64)
    (fun f rest _ m' h => ?_) ⟨rfl, fun f => mem_range.mp, fun f hf hnot => ?_⟩).mono ?_)
  · obtain ⟨rfl, hlt, hset⟩ := h
    refine perform ?_
    rw [answer_load]
    split
    case isTrue hne => exact pure ⟨rfl, rfl, f, hlt f mem_cons_self, hne⟩
    case isFalse heq =>
      refine pure ⟨rfl, fun f' hf' => hlt f' (mem_cons_of_mem _ hf'), fun f' hf' hnot => ?_⟩
      by_cases hff : f' = f
      · subst hff
        exact not_not.mp heq
      · exact hset f' hf' fun hmem => (mem_cons.mp hmem).elim hff hnot
  · exact absurd (mem_range.mpr hf) hnot
  · rintro (_ | full) m' h
    · obtain ⟨rfl, -, hset⟩ := h
      exact pure ⟨rfl, fun _ f hf => hset f hf (not_mem_nil), fun _ => rfl⟩
    · obtain ⟨rfl, rfl, f, hf, hne⟩ := h
      exact pure ⟨rfl, nofun, fun h => absurd (h f hf) hne⟩

include hc hmore

/-- `set_run` and `clear_run` of one bit are one operation. -/
theorem runs_run_one :
    ((setRun field rounds c 1).Runs answer m fun _ m' =>
      m' = WordOp.apply (.fetchOr (field (c / 64)) (fieldMaskValid 1 (c % 64))) m) ∧
    (clearRun field rounds c 1).Runs answer m fun _ m' =>
      m' = WordOp.apply (.fetchAnd (field (c / 64)) (~~~fieldMaskValid 1 (c % 64))) m := by
  have hvalid : validRun c 1 = true := decide_eq_true (by omega)
  have hone : (start c 1).remaining ≠ 0 := Nat.one_ne_zero
  obtain ⟨rounds, rfl⟩ : ∃ r, rounds = r + 2 := ⟨rounds - 2, by omega⟩
  constructor
  all_goals
    simp only [setRun, clearRun, if_pos hvalid]
    refine bind (bind ?_)
    simp only [setRunRound, clearRunRound, if_neg hone, mask_start_one]
    refine perform (pure (bind ?_))
    simp only [setRunRound, clearRunRound, if_pos next_start_one]
    exact pure (pure (pure rfl))

end

/-- The bins after `set_chunk_bin`. -/
structure BinSet (m m' : BinnedLoc → Word) (c : Nat) (selected : ChunkBin) : Prop where
  bins : ∀ b, b < 5 → ∀ n, InBin m' b n ↔ if n = c then fromIndex b = selected else InBin m b n
  other : ∀ l, (∀ b f, l ≠ .bin b f) → m' l = m l

theorem binMap_injective {b : Nat} : Function.Injective (binMap b) := fun _ _ h => (bin.inj h).2

variable {selected : ChunkBin}

theorem BinSet.data (h : BinSet m m' c selected) (w : Nat) : m' (.data w) = m (.data w) := h.other _ nofun

theorem fromIndex_inj : ∀ b, b < 5 → ∀ b', b' < 5 → fromIndex b = fromIndex b' → b = b' := by
  decide

/-- A bin is set soundly for a chunk that is not full, and cleared soundly for any. -/
theorem BinsSound.binSet (hunique : ∀ c b b', b < 5 → b' < 5 → InBin m b c → InBin m b' c → b = b')
    (hfull : ∀ c', c' ≠ c → ChunkFull m c' → ∀ b, b < 5 → ¬InBin m b c') (hset : BinSet m m' c selected)
    (hselected : selected = .none ∨ ¬ChunkFull m c) : BinsSound m' := by
  refine ⟨fun n b b' hb hb' hin hin' => ?_, fun n hn b hb hin => ?_⟩
  · rw [hset.bins b hb] at hin
    rw [hset.bins b' hb'] at hin'
    split at hin
    case isTrue hnc =>
      rw [if_pos hnc] at hin'
      exact fromIndex_inj b hb b' hb' (hin.trans hin'.symm)
    case isFalse hnc =>
      rw [if_neg hnc] at hin'
      exact hunique n b b' hb hb' hin hin'
  · rw [chunkFull_congr hset.data] at hn
    rw [hset.bins b hb] at hin
    split at hin
    case isTrue hnc =>
      subst hnc
      rcases hselected with rfl | hnot
      · exact (show ∀ b, b < 5 → fromIndex b ≠ .none by decide) b hb hin
      · exact hnot hn
    case isFalse hnc => exact hfull n hnc hn b hb hin

theorem runs_setMaxAccessed (c : Nat) : (setMaxAccessed c).Runs answer m fun _ m' => SameChunks m m' := by
  refine perform ?_
  rw [answer_load]
  split
  case isFalse => exact pure (.refl m)
  case isTrue => exact perform (pure (.apply nofun nofun))

section

include hc hmore

/-- One bin. -/
theorem runs_updateBin (selected : ChunkBin) (b : Nat) : (updateBin rounds c selected b).Runs answer m fun _ m' =>
      (∀ n, InBin m' b n ↔ if n = c then fromIndex b = selected else InBin m b n) ∧
        ∀ l, (∀ f, l ≠ .bin b f) → m' l = m l := by
  rw [updateBin]
  split
  case isTrue heq =>
    refine (runs_run_one hc hmore).1.mono ?_
    rintro _ _ rfl
    refine ⟨fun n => ?_, fun l hl => update_of_ne (hl _) _ _⟩
    rw [InBin, bitAt_setBit binMap_injective]
    by_cases hn : n = c
    · simp [hn, heq]
    · simp [hn, InBin]
  case isFalse hne =>
    refine (runs_run_one hc hmore).2.mono ?_
    rintro _ _ rfl
    refine ⟨fun n => ?_, fun l hl => update_of_ne (hl _) _ _⟩
    rw [InBin, bitAt_clearBit binMap_injective]
    by_cases hn : n = c
    · simp [hn, hne]
    · simp [hn, InBin]

/-- `set_chunk_bin`. -/
theorem runs_setChunkBin (selected : ChunkBin) :
    (setChunkBin rounds c selected).Runs answer m fun _ m' => BinSet m m' c selected := by
  -- the bins that are still to come are as they were
  refine bind ((each_rest (Q := fun (_ : Unit) _ => False)
    (fun rest (_ : Unit) m' => rest.Nodup ∧ (∀ b ∈ rest, ∀ n, InBin m' b n ↔ InBin m b n) ∧
      (∀ b, b < 5 → b ∉ rest → ∀ n, InBin m' b n ↔
        if n = c then fromIndex b = selected else InBin m b n) ∧
      ∀ l, (∀ b f, l ≠ .bin b f) → m' l = m l)
    (fun b rest _ m' h => ?_)
    ⟨nodup_range, fun _ _ _ => Iff.rfl, fun b hb hnot => absurd (mem_range.mpr hb) hnot,
      fun _ _ => rfl⟩).mono ?_)
  · obtain ⟨hnodup, hrest, hdone, hother⟩ := h
    obtain ⟨hfresh, hnodup⟩ := nodup_cons.mp hnodup
    refine bind ((runs_updateBin hc hmore selected b).mono ?_)
    rintro _ m'' ⟨hbin, hframe⟩
    have hsame (b' : Nat) (hne : b' ≠ b) (n : Nat) : InBin m'' b' n ↔ InBin m' b' n :=
      inBin_congr fun f => hframe _ fun f' heq => hne (bin.inj heq).1
    refine pure ⟨hnodup, fun b' hb' n => ?_, fun b' hb' hnot n => ?_, fun l hl => ?_⟩
    · rw [hsame b' (fun heq => hfresh (heq ▸ hb'))]
      exact hrest b' (mem_cons_of_mem _ hb') n
    · by_cases hbb : b' = b
      · subst hbb
        rw [hbin, hrest b' mem_cons_self]
      · rw [hsame b' hbb]
        exact hdone b' hb' (fun hmem => (mem_cons.mp hmem).elim hbb hnot) n
    · exact (hframe l (hl b)).trans (hother l hl)
  · rintro (_ | _) m' h
    · obtain ⟨-, -, hdone, hother⟩ := h
      exact pure ⟨fun b hb => hdone b hb not_mem_nil, hother⟩
    · exact h.elim

/-- `chunkmap_set` without a check. -/
theorem runs_chunkmapSet : (chunkmapSet rounds c false).Runs answer m fun _ m' => SameChunks m m' := by
  refine bind (when nofun fun _ => ?_)
  refine bind ((runs_run_one hc hmore).1.mono ?_)
  rintro _ _ rfl
  exact (runs_setMaxAccessed c).mono fun _ _ h => (SameChunks.setMap ..).trans h

/-- `chunkmap_set` with the check repairs the bins of its chunk. -/
theorem runs_chunkmapSet_check (hunique : ∀ c b b', b < 5 → b' < 5 → InBin m b c → InBin m b' c → b = b')
    (hfull : ∀ c', c' ≠ c → ChunkFull m c' → ∀ b, b < 5 → ¬InBin m b c') :
    (chunkmapSet rounds c true).Runs answer m fun _ m' => BinsSound m' := by
  refine bind (mono (Q := fun _ m' => BinsSound m') ?_ ?_)
  · refine when (fun _ => bind (runs_allAreSetRelaxed.mono ?_)) fun h => absurd rfl h
    rintro full _ ⟨rfl, hanswer⟩
    refine when (fun _ => ?_) fun hnot => ⟨hunique, fun c' hc' b hb => ?_⟩
    · exact (runs_setChunkBin hc hmore .none).mono fun _ _ h => .binSet hunique hfull h (.inl rfl)
    · by_cases heq : c' = c
      · subst heq
        exact absurd (hanswer.mpr (chunkFull_iff.mp hc')) hnot
      · exact hfull c' heq hc' b hb
  · intro _ m' h
    refine bind ((runs_run_one hc hmore).1.mono ?_)
    rintro _ _ rfl
    refine (runs_setMaxAccessed c).mono fun _ _ hsame => ?_
    exact h.congr ((SameChunks.setMap ..).trans hsame)

/-- `chunkmap_try_clear`. -/
theorem runs_chunkmapTryClear : (chunkmapTryClear rounds c).Runs answer m fun _ m' => SameChunks m m' := by
  refine bind (runs_allAreClearRelaxed.mono ?_)
  rintro clear _ rfl
  cases clear with
  | false => exact pure (.refl _)
  | true =>
    refine bind ((runs_run_one hc hmore).2.mono ?_)
    rintro _ _ rfl
    refine bind (runs_allAreClearRelaxed.mono ?_)
    rintro clear _ rfl
    cases clear with
    | false =>
      refine bind ((runs_run_one hc hmore).1.mono ?_)
      rintro _ _ rfl
      exact pure ((SameChunks.clearMap ..).trans (.setMap ..))
    | true =>
      refine bind ((runs_setMaxAccessed c).mono fun _ _ h => ?_)
      exact pure ((SameChunks.clearMap ..).trans h)

end

/-! ## Given ranges -/

/-- `set_run` changes the fields of its chunk only. -/
theorem runs_setRun {index len : Nat} (hvalid : validRun index len = true) (hrounds : len < rounds) :
    (setRun (chunk c) rounds index len).Runs answer m fun transition m' =>
      transition ≠ none ∧ ∀ l, (∀ f, f < 8 → l ≠ chunk c f) → m' l = m l := by
  have hrun : len ≠ 0 ∧ index < 512 ∧ index + len ≤ 512 := of_decide_eq_true hvalid
  rw [setRun, if_pos hvalid]
  refine bind ((loop (Q := fun _ m' => ∀ l, (∀ f, f < 8 → l ≠ chunk c f) → m' l = m l)
    (fun s m' => AtRun index len s.1 ∧ ∀ l, (∀ f, f < 8 → l ≠ chunk c f) → m' l = m l)
    (fun s => s.1.remaining) (fun s m' h => ?_) ⟨.start index len, fun _ _ => rfl⟩ hrounds).mono
      fun _ _ h => pure ⟨Option.some_ne_none _, h⟩)
  obtain ⟨hcursor, hframe⟩ := h
  rw [setRunRound]
  split
  case isTrue => exact pure hframe
  case isFalse hne =>
    have hlen := hcursor.fieldLen_le hne
    have hposition := hcursor.position hne
    refine perform (pure ⟨⟨hcursor.next, fun l hl => ?_⟩, ?_⟩)
    · rw [← hframe l hl]
      exact update_of_ne (hl _ (by omega)) _ _
    · dsimp only [RunCursor.next]
      omega

/-- Where the loop of `set_range` is. -/
structure InRange (count : Nat) (s : RangeCursor) : Prop where
  bit_lt : s.chunkBit < 512
  inside : s.remaining ≠ 0 → 512 * s.chunkIndex + s.chunkBit + s.remaining ≤ 512 * count

variable {count : Nat}

/-- `set_range` repairs the bins of the chunks that it fills. -/
theorem runs_setRange (hcount : count ≤ 512) (hrounds : 2 ^ 65 ≤ rounds) {index len : Nat} (hbins : BinsSound m) :
    (setRange count rounds index len).Runs answer m fun _ m' => BinsSound m' := by
  rw [setRange]
  split
  case isFalse => exact pure hbins
  case isTrue hvalid =>
    have hrange : len ≠ 0 ∧ index < 512 * count ∧ index + len ≤ 512 * count := of_decide_eq_true hvalid
    refine loop (fun s m => InRange count s ∧ BinsSound m) (fun s => s.remaining) (fun s m h => ?_)
      ⟨⟨mod_lt _ (by decide), fun _ => by dsimp only; omega⟩, hbins⟩ (by dsimp only; omega)
    obtain ⟨⟨hbit, hinside⟩, hbins⟩ := h
    rw [setRangeRound]
    split
    case isTrue => exact pure hbins
    case isFalse hne =>
      refine bind ((runs_setRun (decide_eq_true (by omega)) (by omega)).mono ?_)
      rintro (_ | transition) m1 ⟨hsome, hframe⟩
      · exact absurd rfl hsome
      have hbin (b n : Nat) : InBin m1 b n ↔ InBin m b n := inBin_congr fun f => hframe _ fun _ _ hloc => by cases hloc
      have hother (c : Nat) (hc : c ≠ s.chunkIndex) : ChunkFull m1 c ↔ ChunkFull m c := by
        rw [chunkFull_iff, chunkFull_iff]
        refine forall₂_congr fun f hf => ?_
        rw [hframe _ fun f' hf' heq => hc (by have := data.inj heq; omega)]
      refine bind ((runs_chunkmapSet_check (by omega) (by omega) ?_ ?_).mono fun _ m2 hbins2 => ?_)
      · intro c b b' hb hb' hin hin'
        exact hbins.unique c b b' hb hb' ((hbin b c).mp hin) ((hbin b' c).mp hin')
      · intro c hc hfull b hb hin
        exact hbins.full c ((hother c hc).mp hfull) b hb ((hbin b c).mp hin)
      · refine pure ⟨⟨⟨zero_lt_succ 511, fun hrest => ?_⟩, hbins2⟩, ?_⟩
        · dsimp only at hrest ⊢
          omega
        · dsimp only
          omega

/-- `try_claim_at` in a chunk. -/
theorem runs_tryClaimAt {index len : Nat} (hrounds : len < rounds) :
    (tryClaimAt (chunk c) rounds index len).Runs answer m fun claim m' =>
      Cleared m m' (if claim.any TryClaim.claimed then runBits (8 * c) index len else ∅) := by
  have hreturns : (tryClaimAt (chunk c) rounds index len).Runs answer m fun _ _ => True :=
    (yields_tryClaimAt hrounds).runs _ _
  refine (runs_of_safe Alone.rules.tryClaimAt hreturns).mono ?_
  rintro (_ | ⟨claimed, maybeAllClear, temporarily⟩) m' ⟨-, own, hcleared, hpost⟩
  · obtain rfl : own = ∅ := congrArg fst hpost.2
    exact hcleared
  · obtain ⟨-, ⟨-, hown⟩, -⟩ := hpost
    obtain rfl := congrArg fst hown
    cases claimed with
    | true =>
      rw [empty_union] at hcleared
      exact hcleared
    | false => exact hcleared

/-- `try_clear_within_chunk` only takes bits. -/
theorem runs_tryClearWithinChunk (hcount : count ≤ 512) (hrounds : 2 ^ 65 ≤ rounds) (index len : Nat)
    (hbins : BinsSound m) :
    (tryClearWithinChunk count rounds index len).Runs answer m fun _ m' => BinsSound m' := by
  rw [tryClearWithinChunk]
  split
  case isFalse => exact pure hbins
  case isTrue hvalid =>
    have hrange : len ≠ 0 ∧ index < 512 * count ∧ index + len ≤ 512 * count :=
      of_decide_eq_true hvalid.1
    refine bind ((runs_tryClaimAt (by omega)).mono fun claim m1 hcleared => ?_)
    have hbins1 : BinsSound m1 := hbins.taken hcleared.taken fun b f => hcleared.other _ (by simp)
    rcases claim with _ | result
    · exact pure hbins1
    dsimp only
    split
    case isTrue =>
      refine bind ((runs_chunkmapTryClear (by omega) (by omega)).mono fun _ m2 hsame => ?_)
      exact pure (hbins1.congr hsame)
    case isFalse =>
      split
      case isTrue =>
        refine bind ((runs_chunkmapSet (by omega) (by omega)).mono fun _ m2 hsame => ?_)
        exact pure (hbins1.congr hsame)
      case isFalse => exact pure hbins1

/-! ## The search in single chunks -/

/-- The end of a search in single chunks. -/
def Searched (count : Nat) (m : BinnedLoc → Word) (len : Nat) (answer : Option Nat)
    (m' : BinnedLoc → Word) : Prop :=
  match answer with
  | none => SameChunks m m'
  | some start => start + len ≤ 512 * count ∧ Taken m m' (Set.Ico start (start + len)) ∧ BinsSound m'

theorem Searched.trans {len : Nat} {answer : Option Nat} (hsame : SameChunks m m')
    (h : Searched count m' len answer m'') : Searched count m len answer m'' := by
  cases answer with
  | none => exact hsame.trans h
  | some start =>
    refine ⟨h.1, ?_, h.2.2⟩
    have htaken := (Taken.nothing hsame.data).trans h.2.1
    rwa [empty_union] at htaken

/-- A search in one chunk. -/
theorem runs_tryClaimRunDetailed {len : Nat} (hrounds : 2 ^ 65 ≤ rounds) :
    (tryClaimRunDetailed (chunk c) rounds len).Runs answer m fun claim m' =>
      match claim.index with
      | none => m' = m
      | some bit => validRun bit len = true ∧ Cleared m m' (runBits (8 * c) bit len) := by
  have hreturns : (tryClaimRunDetailed (chunk c) rounds len).Runs answer m fun _ _ => True :=
    Chunk.runs_tryClaimRunDetailed len (by omega)
  refine (runs_of_safe Alone.rules.tryClaimRunDetailed hreturns).mono ?_
  rintro ⟨_ | bit, temporarily⟩ m' ⟨-, own, hcleared, hpost, -⟩
  · obtain rfl : own = ∅ := congrArg fst hpost
    exact hcleared.eq
  · obtain ⟨hvalid, -, hown⟩ := hpost
    obtain rfl := congrArg fst hown
    rw [empty_union] at hcleared
    exact ⟨hvalid, hcleared⟩

theorem runs_claimInChunk (hcount : count ≤ 512) (hc : c < count) (hrounds : 2 ^ 65 ≤ rounds) (len : Nat)
    (bin : ChunkBin) (hbins : BinsSound m) :
    (claimInChunk rounds len bin c).Runs answer m (Searched count m len) := by
  refine bind ((runs_tryClaimRunDetailed hrounds).mono ?_)
  rintro ⟨_ | bit, temporarily⟩ m1 h
  · obtain rfl := h
    cases temporarily with
    | true =>
      exact bind ((runs_chunkmapSet (by omega) (by omega)).mono fun _ m2 hsame => pure hsame)
    | false =>
      exact bind ((runs_chunkmapTryClear (by omega) (by omega)).mono fun _ m2 hsame => pure hsame)
  · obtain ⟨hvalid, hcleared⟩ := h
    have hrun : len ≠ 0 ∧ bit < 512 ∧ bit + len ≤ 512 := of_decide_eq_true hvalid
    have hbits : runBits (8 * c) bit len = Set.Ico (c * 512 + bit) (c * 512 + bit + len) := by
      rw [runBits]
      congr 1 <;> omega
    rw [hbits] at hcleared
    have hbins1 : BinsSound m1 := hbins.taken hcleared.taken fun b f => hcleared.other _ (by simp)
    have hnotFull : ¬ChunkFull m1 c :=
      hcleared.taken.not_full (n := c * 512 + bit) (mem_Ico.mpr (by omega)) (by omega)
    have hinside : c * 512 + bit + len ≤ 512 * count := by omega
    refine bind (when (fun _ => ?_) fun _ => ?_)
    · refine (runs_setChunkBin (by omega) (by omega) _).mono fun _ m2 hset => ?_
      refine pure ⟨hinside, hcleared.taken.congr_right hset.data, ?_⟩
      exact .binSet hbins1.unique (fun c' _ => hbins1.full c') hset (.inr hnotFull)
    · exact pure ⟨hinside, hcleared.taken, hbins1⟩

theorem sub_one_and_lt {w : Word} (h : w ≠ 0) : (w &&& (w - 1)).toNat < w.toNat := by
  have hpos : 0 < w.toNat := Nat.pos_of_ne_zero fun hzero => h (BitVec.eq_of_toNat_eq hzero)
  have hle : (w &&& (w - 1)).toNat ≤ (w - 1).toNat := by exact Nat.and_le_right
  have hsub : (w - 1).toNat = w.toNat - 1 := by
    rw [BitVec.toNat_sub]
    simp only [BitVec.ofNat_eq_ofNat, BitVec.toNat_ofNat]
    omega
  omega

/-- What is left of the two words of a search. -/
def leftOver (s : Word × Word) : Nat := s.1.toNat + s.2.toNat

theorem leftOver_lt (s : Word × Word) : leftOver s < 2 ^ 65 := by
  rw [leftOver]
  omega

theorem takeLowest_lt {s rest : Word × Word} {k : Nat} (h : takeLowest s = some (k, rest)) :
    leftOver rest < leftOver s := by
  rw [takeLowest] at h
  split at h
  case isTrue hne =>
    cases h
    exact Nat.add_lt_add_right (sub_one_and_lt hne) _
  case isFalse =>
    split at h
    case isTrue hne =>
      cases h
      exact Nat.add_lt_add_left (sub_one_and_lt hne) _
    case isFalse => cases h

theorem index_fromIndex_succ : ∀ bin : ChunkBin, bin ≠ .none →
    bin.index < (fromIndex (bin.index + 1)).index ∧ (fromIndex (bin.index + 1)).index ≤ 5 := by
  intro bin
  cases bin <;> decide

theorem runs_loadBinMasks (cmapIndex : Nat) (cmapEntry : Word) :
    (loadBinMasks cmapIndex cmapEntry).Runs answer m fun _ m' => m' = m := by
  refine bind ((each (Q := fun (_ : Nat → Word) m' => m' = m) (fun _ m' => m' = m)
    (fun b _ masks m' h => ?_) rfl).mono ?_)
  · subst h
    refine perform ?_
    rw [answer_load]
    exact pure rfl
  · rintro (_ | _) _ rfl <;> exact pure rfl

section

variable (hcount : count ≤ 512) (hrounds : 2 ^ 65 ≤ rounds) (len threadSequence : Nat)

include hcount hrounds

/-- The chunks of a bin. -/
theorem runs_entries (bin : ChunkBin) (cmapIndex : Nat) (s : Word × Word) (hbins : BinsSound m) :
    (Program.loop (entryRound count rounds len bin cmapIndex) rounds s).Runs answer m
      (Searched count m len) := by
  refine loop (fun _ m' => SameChunks m m') leftOver (fun s m' hsame => ?_) (.refl m)
    (lt_of_lt_of_le (leftOver_lt s) hrounds)
  rw [entryRound]
  split
  case h_1 => exact pure hsame
  case h_2 entryIndex rest htake =>
    split
    case isTrue => exact pure ⟨hsame, takeLowest_lt htake⟩
    case isFalse hlt =>
      refine bind ((runs_claimInChunk hcount (by omega) hrounds len bin (hbins.congr hsame)).mono ?_)
      rintro (_ | start) m'' h
      · exact pure ⟨hsame.trans h, takeLowest_lt htake⟩
      · exact pure (Searched.trans hsame h)

/-- The bins in the order of the search. -/
theorem runs_bins (cmapIndex entryCycle : Nat) (binMasks : Nat → Word) (bin : ChunkBin) (hbins : BinsSound m) :
    (Program.loop (binRound count rounds len threadSequence cmapIndex entryCycle binMasks) rounds
      bin).Runs answer m (Searched count m len) := by
  refine loop (fun _ m' => SameChunks m m') (fun bin => 5 - bin.index) (fun bin m' hsame => ?_) (.refl m)
    (by omega)
  refine bind ((runs_entries hcount hrounds len bin cmapIndex _ (hbins.congr hsame)).mono ?_)
  rintro (_ | start) m'' h
  · dsimp only
    split
    case isTrue => exact pure (hsame.trans h)
    case isFalse hne =>
      refine pure ⟨hsame.trans h, ?_⟩
      have hnext := index_fromIndex_succ bin hne
      split
      · show 5 - 5 < 5 - bin.index
        omega
      · omega
  · exact pure (Searched.trans hsame h)

/-- `try_find_and_claim_within_chunk`. -/
theorem runs_tryFindAndClaimWithinChunk (hbins : BinsSound m) :
    (tryFindAndClaimWithinChunk count rounds threadSequence len).Runs answer m
      (Searched count m len) := by
  refine perform ?_
  rw [answer_load]
  refine loop (fun _ m' => SameChunks m m') leftOver (fun s m' hsame => ?_) (.refl m)
    (lt_of_lt_of_le (leftOver_lt _) hrounds)
  rw [cmapRound]
  split
  case h_1 => exact pure hsame
  case h_2 cmapIndex rest htake =>
    refine perform ?_
    rw [answer_load]
    split
    case isTrue => exact pure ⟨hsame, takeLowest_lt htake⟩
    case isFalse =>
      refine bind ((runs_loadBinMasks cmapIndex _).mono ?_)
      rintro binMasks _ rfl
      refine bind ((runs_bins hcount hrounds len threadSequence cmapIndex _ binMasks .small
        (hbins.congr hsame)).mono ?_)
      rintro (_ | start) m'' h
      · exact pure ⟨hsame.trans h, takeLowest_lt htake⟩
      · exact pure (Searched.trans hsame h)

end

end

end Crabc.Mimalloc
