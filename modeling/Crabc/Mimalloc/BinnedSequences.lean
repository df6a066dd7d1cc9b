/-
  Crabc.Mimalloc.BinnedSequences

  Sequences of calls on a binned bitmap that one thread uses on its own.

  The search for whole chunks looks at the chunks from the lowest one on.  Where it finds
  fewer than it needs, the chunk that stopped it rules out every start up to there, so the
  start that it takes is the lowest one.
-/

import Crabc.Mimalloc.BinnedSequential

namespace Crabc.Mimalloc

open Crabc.Lib Program BinnedBitmap Relation Runs WordOp BinnedLoc Nat

section

variable {m m' : BinnedLoc → Word} {c rounds count : Nat}

/-! ## The search for whole chunks -/

/-- So many chunks from one on are full. -/
def ChunksFull (m : BinnedLoc → Word) (c required : Nat) : Prop := ∀ k, k < required → ChunkFull m (c + k)

/-- The chunks that are counted are full, and the next one is not. -/
theorem runs_countFull (c required found : Nat) : (countFull c required found).Runs answer m fun answer m' =>
      m' = m ∧ found ≤ answer ∧ answer ≤ found + required ∧ (∀ k, found ≤ k → k < answer → ChunkFull m (c + k)) ∧
          (answer < found + required → ¬ChunkFull m (c + answer)) := by
  induction required generalizing found with
  | zero =>
    exact pure ⟨rfl, le_refl _, le_refl _, fun k hk hlt => by omega, fun hlt => by omega⟩
  | succ required ih =>
    refine bind (runs_allAreSetRelaxed.mono ?_)
    rintro full _ ⟨rfl, hanswer⟩
    cases full with
    | false =>
      refine pure ⟨rfl, le_refl _, by omega, fun k hk hlt => by omega, fun _ hfull => ?_⟩
      exact Bool.noConfusion (hanswer.mpr (chunkFull_iff.mp hfull))
    | true =>
      refine (ih (found + 1)).mono ?_
      rintro answer m' ⟨rfl, hlow, hhigh, hfull, hnext⟩
      refine ⟨rfl, by omega, by omega, fun k hk hlt => ?_, fun hlt => hnext (by omega)⟩
      by_cases heq : k = found
      · subst heq
        exact chunkFull_iff.mpr (hanswer.mp rfl)
      · exact hfull k (by omega) hlt

/-- Where the claims of `try_claim_chunks_at` are, if no claim has failed. -/
structure ClaimingChunks (m : BinnedLoc → Word) (c len : Nat) (s : Nat × Nat) (m' : BinnedLoc → Word) :
    Prop where
  remaining_le : s.1 ≤ len
  position : s.1 ≠ 0 → 512 * s.2 + s.1 = len
  taken : Taken m m' (Set.Ico (c * 512) (c * 512 + (len - s.1)))
  bins : ∀ b f, m' (.bin b f) = m (.bin b f)

/-- The bins of chunks that are not full. -/
theorem runs_markHuge {required : Nat} (hchunks : c + required ≤ 512) (hrounds : 1 < rounds)
    (hbins : BinsSound m) (hnotFull : ∀ k, k < required → ¬ChunkFull m (c + k)) :
    (markHuge rounds c required).Runs answer m fun _ m' =>
      BinsSound m' ∧ ∀ w, m' (.data w) = m (.data w) := by
  refine bind ((each (Q := fun (_ : Unit) m' => BinsSound m' ∧ ∀ w, m' (.data w) = m (.data w))
    (fun _ m' => BinsSound m' ∧ ∀ w, m' (.data w) = m (.data w)) (fun k hk _ m1 h => ?_)
    ⟨hbins, fun _ => rfl⟩).mono ?_)
  · have hk := List.mem_range.mp hk
    obtain ⟨hbins1, hdata⟩ := h
    refine bind ((runs_setChunkBin (by omega) hrounds .huge).mono fun _ m2 hset => ?_)
    have hnot : ¬ChunkFull m1 (c + k) := fun hfull => hnotFull k hk ((chunkFull_congr hdata).mp hfull)
    exact pure ⟨.binSet hbins1.unique (fun c' _ => hbins1.full c') hset (.inr hnot),
      fun w => (hset.data w).trans (hdata w)⟩
  · rintro (_ | _) m' h <;> exact pure h

/-- A bitmap that was initialised. -/
def emptyBitmap : BinnedLoc → Word := fun _ => 0

theorem binsSound_emptyBitmap : BinsSound emptyBitmap := by
  have hnone (b c : Nat) : ¬InBin emptyBitmap b c := by
    rw [InBin, bitAt, emptyBitmap, BitVec.ofNat_eq_ofNat, BitVec.getLsbD_zero]
    exact Bool.noConfusion
  exact ⟨fun c b _ _ _ hin => absurd hin (hnone b c), fun c _ b _ => hnone b c⟩

variable (hcount : count ≤ 512) (hrounds : 2 ^ 65 ≤ rounds)
include hcount hrounds

/-- `try_claim_chunks_at` of full chunks succeeds. -/
theorem runs_tryClaimChunksAt {len : Nat} (hlen : len ≠ 0) (hinside : c * 512 + len ≤ 512 * count)
    (hfull : ChunksFull m c ((len + 511) / 512)) : (tryClaimChunksAt count rounds c len).Runs answer m fun answer m' =>
      answer = true ∧ Taken m m' (Set.Ico (c * 512) (c * 512 + len)) ∧ ∀ b f, m' (.bin b f) = m (.bin b f) := by
  rw [tryClaimChunksAt, if_neg (by omega)]
  have hstart : ClaimingChunks m c len (len, 0) m := by
    refine ⟨Nat.le_refl _, fun _ => by omega, ?_, fun _ _ => rfl⟩
    rw [Nat.sub_self, Nat.add_zero, Set.Ico_self]
    exact .nothing fun _ => rfl
  refine bind ((loop (Q := fun s m' => s.1 = 0 ∧ ClaimingChunks m c len s m')
    (ClaimingChunks m c len) (fun s => s.1) (fun s m1 h => ?_) hstart (by omega)).mono ?_)
  · rw [claimChunksRound]
    split
    case isTrue hzero => exact pure ⟨hzero, h⟩
    case isFalse hne =>
      have hle := h.remaining_le
      have hposition := h.position hne
      -- the next chunk is as it was
      have hset (f k : Nat) (hk : k < 64) (hlow : 0 ≤ 64 * f + k) (hhigh : 64 * f + k < 0 + min s.1 512) :
          (m1 (chunk (c + s.2) f)).getLsbD k = true := by
        have hbit : bitAt data m1 (512 * (c + s.2) + (64 * f + k)) = true := by
          refine (h.taken.data _).mpr ⟨hfull s.2 (by omega) _ (by omega), fun hmem => ?_⟩
          rw [Set.mem_Ico] at hmem
          omega
        rwa [bitAt, show (512 * (c + s.2) + (64 * f + k)) / 64 = 8 * (c + s.2) + f by omega,
          show (512 * (c + s.2) + (64 * f + k)) % 64 = k by omega] at hbit
      have hinjective : Function.Injective (chunk (c + s.2)) := fun f f' heq => by
        have hword := data.inj heq
        omega
      have hclaims : (Chunk.tryClaimAt (chunk (c + s.2)) rounds 0 (min s.1 512)).Runs answer m1 _ :=
        Chunk.runs_tryClaimAt_set hinjective (decide_eq_true (by omega)) (by omega) hset
      refine bind (((runs_tryClaimAt (by omega)).and hclaims).mono ?_)
      rintro _ m2 ⟨hcleared, maybeAllClear, rfl⟩
      have hpiece : runBits (8 * (c + s.2)) 0 (min s.1 512) =
          Set.Ico (c * 512 + (len - s.1)) (c * 512 + (len - (s.1 - min s.1 512))) := by
        rw [runBits]
        congr 1 <;> omega
      have hunion : Set.Ico (c * 512) (c * 512 + (len - s.1)) ∪
          Set.Ico (c * 512 + (len - s.1)) (c * 512 + (len - (s.1 - min s.1 512))) =
            Set.Ico (c * 512) (c * 512 + (len - (s.1 - min s.1 512))) :=
        Set.Ico_union_Ico_eq_Ico (Nat.le_add_right _ _)
          (Nat.add_le_add_left (Nat.sub_le_sub_left (Nat.sub_le _ _) _) _)
      have hcleared : Cleared m1 m2 (runBits (8 * (c + s.2)) 0 (min s.1 512)) := hcleared
      have htaken := h.taken.trans hcleared.taken
      rw [hpiece, hunion] at htaken
      refine pure ⟨⟨Nat.le_trans (Nat.sub_le _ _) hle, fun hrest => ?_, htaken, fun b f => ?_⟩, ?_⟩
      · omega
      · exact (hcleared.other (.bin b f) (by simp)).trans (h.bins b f)
      · omega
  · rintro ⟨remaining, claimed⟩ m' ⟨hzero, h⟩
    obtain rfl : remaining = 0 := hzero
    exact pure ⟨rfl, h.taken, h.bins⟩

/-- The end of a search for whole chunks. -/
def SearchedChunks (count : Nat) (m : BinnedLoc → Word) (len : Nat) (answer : Option Nat)
    (m' : BinnedLoc → Word) : Prop :=
  match answer with
  | none => m' = m ∧ ∀ c, c + (len + 511) / 512 ≤ count → ¬ChunksFull m c ((len + 511) / 512)
  | some start => ∃ c, start = c * 512 ∧ c + (len + 511) / 512 ≤ count ∧
      ChunksFull m c ((len + 511) / 512) ∧ (∀ c', c' < c → ¬ChunksFull m c' ((len + 511) / 512)) ∧
        Taken m m' (Set.Ico start (start + len)) ∧ BinsSound m'

/-- `try_find_and_claim_chunks`. -/
theorem runs_tryFindAndClaimChunks {len : Nat} (hlen : len ≠ 0) (hinside : len ≤ 512 * count) (hbins : BinsSound m) :
    (tryFindAndClaimChunks count rounds len).Runs answer m (SearchedChunks count m len) := by
  rw [tryFindAndClaimChunks]
  split
  case isTrue hfew => omega
  case isFalse hfits =>
    refine loop (fun c m' => m' = m ∧ ∀ c', c' < c → ¬ChunksFull m c' ((len + 511) / 512))
      (fun c => count + 1 - c) (fun c m' h => ?_) ⟨rfl, fun c' hc' => absurd hc' (not_lt_zero _)⟩
      (by omega)
    obtain ⟨rfl, hbelow⟩ := h
    rw [chunksRound]
    split
    case isFalse hend => exact pure ⟨rfl, fun c' hc' => hbelow c' (by omega)⟩
    case isTrue hle =>
      refine bind ((runs_countFull c ((len + 511) / 512) 0).mono ?_)
      rintro found m1 ⟨rfl, -, hhigh, hfull, hstop⟩
      split
      case isFalse hfew =>
        -- the chunk that is not full is in the way of every start up to it
        refine pure ⟨⟨rfl, fun c' hc' hall => ?_⟩, ?_⟩
        · by_cases hlow : c' < c
          · exact hbelow c' hlow hall
          · have hin := hall (c + found - c') (by omega)
            rw [show c' + (c + found - c') = c + found by omega] at hin
            exact hstop (by omega) hin
        · omega
      case isTrue henough =>
        subst henough
        have hchunks : ChunksFull m1 c ((len + 511) / 512) := fun k hk => hfull k (zero_le _) hk
        refine bind ((runs_tryClaimChunksAt hcount hrounds hlen (by omega) hchunks).mono ?_)
        rintro _ m2 ⟨rfl, htaken, hsame⟩
        have hnotFull (k : Nat) (hk : k < (len + 511) / 512) : ¬ChunkFull m2 (c + k) :=
          htaken.not_full (n := 512 * (c + k)) (Set.mem_Ico.mpr (by omega)) (by omega)
        refine bind ((runs_markHuge (by omega) (by omega) (hbins.taken htaken hsame) hnotFull).mono ?_)
        rintro _ m3 ⟨hbins3, hdata⟩
        exact pure ⟨c, rfl, by omega, hchunks, hbelow, htaken.congr_right hdata, hbins3⟩

/-! ## Calls -/

/-- What `try_find_and_claim` is for: it takes bits that were set, and for whole chunks the
    lowest ones; it answers nothing and changes nothing when there are no such chunks. -/
def SearchOutcome (count : Nat) (m : BinnedLoc → Word) (len : Nat) (answer : Option Nat)
    (m' : BinnedLoc → Word) : Prop :=
  match answer with
  | none => (∀ n, bitAt data m' n = bitAt data m n) ∧
      (512 < len → ∀ c, c + (len + 511) / 512 ≤ count → ¬ChunksFull m c ((len + 511) / 512))
  | some start => start + len ≤ 512 * count ∧
      (∀ n, start ≤ n → n < start + len → bitAt data m n = true) ∧
      (∀ n, bitAt data m' n = true ↔ bitAt data m n = true ∧ ¬(start ≤ n ∧ n < start + len)) ∧
      (512 < len → ∃ c, start = c * 512 ∧ ChunksFull m c ((len + 511) / 512) ∧
        ∀ c', c' < c → ¬ChunksFull m c' ((len + 511) / 512))

theorem runs_tryFindAndClaim (hbins : BinsSound m) (threadSequence len : Nat) :
    (tryFindAndClaim count rounds threadSequence len).Runs answer m fun answer m' =>
      BinsSound m' ∧ SearchOutcome count m len answer m' := by
  rw [tryFindAndClaim]
  split
  case isTrue hrefused => exact pure ⟨hbins, fun _ => rfl, fun hlen c hc => by omega⟩
  case isFalse hinside =>
    split
    case isTrue hlong =>
      refine (runs_tryFindAndClaimChunks hcount hrounds (by omega) (by omega) hbins).mono ?_
      rintro (_ | start) m' h
      · obtain ⟨rfl, hnone⟩ := h
        exact ⟨hbins, fun _ => rfl, fun _ => hnone⟩
      · obtain ⟨c, rfl, hle, hfull, hlowest, htaken, hbins'⟩ := h
        refine ⟨hbins', by omega, fun n hlow hhigh => htaken.set n ⟨hlow, hhigh⟩, htaken.data, fun _ => ?_⟩
        exact ⟨c, rfl, hfull, hlowest⟩
    case isFalse hshort =>
      refine (runs_tryFindAndClaimWithinChunk hcount hrounds len threadSequence hbins).mono ?_
      rintro (_ | start) m' h
      · exact ⟨hbins.congr h, fun n => bitAt_congr h.data n, fun hlong => absurd hlong hshort⟩
      · obtain ⟨hfits, htaken, hbins'⟩ := h
        exact ⟨hbins', hfits, fun n hlow hhigh => htaken.set n ⟨hlow, hhigh⟩, htaken.data,
          fun hlong => absurd hlong hshort⟩

/-- Every call returns and leaves the bins sound. -/
theorem runs_code (hbins : BinsSound m) (call : BinnedCall) :
    (call.code count rounds).Runs answer m fun _ m' => BinsSound m' := by
  cases call with
  | setRange index len =>
    exact bind ((runs_setRange hcount hrounds hbins).mono fun _ _ h => pure h)
  | tryClearWithinChunk index len =>
    exact bind ((runs_tryClearWithinChunk hcount hrounds index len hbins).mono
      fun _ _ h => pure h)
  | tryFindAndClaim threadSequence len =>
    exact bind ((runs_tryFindAndClaim hcount hrounds hbins threadSequence len).mono
      fun _ _ h => pure h.1)

/-- One call. -/
def CallReturns (count rounds : Nat) (m m' : BinnedLoc → Word) : Prop :=
  ∃ (call : BinnedCall) (value : BinnedResult), (call.code count rounds).eval answer m = some (value, m')

theorem BinsSound.sequence (hrun : ReflTransGen (CallReturns count rounds) emptyBitmap m) : BinsSound m := by
  induction hrun with
  | refl => exact binsSound_emptyBitmap
  | tail _ hcall ih =>
    obtain ⟨call, value, heval⟩ := hcall
    exact (runs_code hcount hrounds ih call).of_eval heval

end

/-- **One thread on its own.**  After any sequence of calls on an initialised bitmap: a chunk
    is in one bin map at most, a full chunk is in none; every call returns; and a search
    takes the bits it answers with, the lowest chunks if it needs whole ones, and nothing
    else. -/
theorem binned_sequence_sound {count rounds : Nat} (hcount : count ≤ 512) (hrounds : 2 ^ 65 ≤ rounds)
    {m : BinnedLoc → Word} (hrun : ReflTransGen (CallReturns count rounds) emptyBitmap m) :
    (∀ c b b', b < 5 → b' < 5 → InBin m b c → InBin m b' c → b = b') ∧
    (∀ c, ChunkFull m c → ∀ b, b < 5 → ¬InBin m b c) ∧
    (∀ call : BinnedCall, ∃ value m', (call.code count rounds).eval WordOp.answer m = some (value, m')) ∧
    ∀ threadSequence len answer m',
      (tryFindAndClaim count rounds threadSequence len).eval WordOp.answer m = some (answer, m') →
        SearchOutcome count m len answer m' := by
  have hbins := BinsSound.sequence hcount hrounds hrun
  refine ⟨hbins.unique, hbins.full, fun call => ?_, fun threadSequence len answer m' heval => ?_⟩
  · obtain ⟨value, m', heval, -⟩ := runs_code hcount hrounds hbins call
    exact ⟨value, m', heval⟩
  · exact ((runs_tryFindAndClaim hcount hrounds hbins threadSequence len).of_eval heval).2

/-- All bits of two chunks are set. -/
def filled : Option (BinnedResult × (BinnedLoc → Word)) :=
  (BinnedCall.code 2 (2 ^ 65) (.setRange 0 1024)).eval answer emptyBitmap

/-- A search for 600 bits takes the first chunk and a part of the second one. -/
theorem binned_sequence_filled : ∃ m m', ReflTransGen (CallReturns 2 (2 ^ 65)) emptyBitmap m ∧
      (tryFindAndClaim 2 (2 ^ 65) 0 600).eval answer m = some (some 0, m') ∧ SearchOutcome 2 m 600 (some 0) m' := by
  have hsearch : (filled.bind fun r => (tryFindAndClaim 2 (2 ^ 65) 0 600).eval answer r.2).map
      Prod.fst = some (some 0) := by decide +kernel
  obtain ⟨⟨answer, m'⟩, hbind, rfl⟩ := Option.map_eq_some_iff.mp hsearch
  obtain ⟨⟨value, m⟩, hfilled, heval⟩ := Option.bind_eq_some_iff.mp hbind
  have hrun : ReflTransGen (CallReturns 2 (2 ^ 65)) emptyBitmap m := .single ⟨_, value, hfilled⟩
  obtain ⟨-, -, -, houtcome⟩ := binned_sequence_sound (by decide) .refl hrun
  exact ⟨m, m', hrun, heval, houtcome 0 600 _ m' heval⟩

end Crabc.Mimalloc
