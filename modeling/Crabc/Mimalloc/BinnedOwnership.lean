/-
  Crabc.Mimalloc.BinnedOwnership

  Who owns the bits of a binned bitmap while its functions run.

  As for a chunk, every function is safe for the thread that calls it.  Beside the bits,
  a thread has a charge for every chunk whose bits it has set since it last set the bit
  of the chunk map.  The functions settle their charges, but for two paths: a search that
  put bits back and then succeeded in the same chunk, and the claims of whole chunks.
-/

import Crabc.Mimalloc.BinnedBitmap
import Crabc.Mimalloc.ChunkOwnership

namespace Crabc.Mimalloc

open Crabc.Lib BinnedBitmap Safe BitVec

/-! ## Words that are searched -/

theorem getLsbD_sub_one_and {w : Word} {k : Nat} (h : (w &&& (w - 1)).getLsbD k = true) : w.getLsbD k = true := by
  rw [getLsbD_and, Bool.and_eq_true] at h
  exact h.1

variable {s : Word × Word}

/-- The next bit is a bit of one of the words, and no bit is added. -/
theorem takeLowest_some {rest : Word × Word} {k : Nat} (h : takeLowest s = some (k, rest)) :
    (s.1.getLsbD k = true ∨ s.2.getLsbD k = true) ∧ k < 64 ∧
      ∀ j, (rest.1.getLsbD j = true ∨ rest.2.getLsbD j = true) → s.1.getLsbD j = true ∨ s.2.getLsbD j = true := by
  rw [takeLowest] at h
  split at h
  case isTrue hne =>
    cases h
    exact ⟨.inl (ctz_eq hne).1, (ctz_eq hne).2.1, fun j hj => hj.imp_left getLsbD_sub_one_and⟩
  case isFalse =>
    split at h
    case isTrue hne =>
      cases h
      exact ⟨.inr (ctz_eq hne).1, (ctz_eq hne).2.1, fun j hj => hj.imp_right getLsbD_sub_one_and⟩
    case isFalse => exact nomatch h

theorem splitCycle_subset {entry : Word} {cycle start j : Nat} (h : (splitCycle entry cycle start).1.getLsbD j = true ∨
      (splitCycle entry cycle start).2.getLsbD j = true) : entry.getLsbD j = true := by
  simp only [splitCycle, getLsbD_and, Bool.and_eq_true] at h
  exact h.elim And.left And.left

open Set

section

variable {ι Mem E : Type} [DecidableEq ι]

/-- What a thread may do with the words of a bitmap of `count` chunks. -/
structure BinnedRules (does : ι → WordOp BinnedLoc → Mem → Word → Mem → Prop)
    (valid : WordOp BinnedLoc → Prop) (Inv : Mem → (ι → Set Nat × E) → Prop)
    (Busy : Set Nat × E → Prop) (i : ι) (count : Nat) (charge discharge : Nat → E → E)
    (Clean : E → Prop) (settled : E) (kept : Set Nat) : Prop where
  count_le : count ≤ 512
  clean_settled : Clean settled
  clean_charge : ∀ c e, Clean e → Clean (charge c e)
  clean_discharge : ∀ c e, Clean e → Clean (discharge c e)
  discharge_charge : ∀ c, discharge c (charge c settled) = settled
  chunk : ∀ c, c < count → ChunkRules does valid Inv Busy i (BinnedBitmap.chunk c) (8 * c) (charge c) kept
  loadMap : ∀ f, f < 8 → ∀ g, Keeps does valid Inv Busy i (.load (.chunkmap f)) g fun _ g' => g' = g
  setMap : ∀ c, c < count → ∀ own e, Clean e →
    Keeps does valid Inv Busy i (.fetchOr (.chunkmap (c / 64)) (fieldMaskValid 1 (c % 64))) (own, e)
      fun _ g' => g' = (own, discharge c e)
  tryClear : ∀ c, c < count → ∀ rounds own,
    Safe does valid Inv Busy i (chunkmapTryClear rounds c) (own, settled) fun _ g' => g' = (own, settled)
  loadBin : ∀ b f, b < 5 → f < 8 → ∀ g, Keeps does valid Inv Busy i (.load (.bin b f)) g fun _ g' => g' = g
  setBin : ∀ b f, b < 5 → f < 8 → ∀ w g, Keeps does valid Inv Busy i (.fetchOr (.bin b f) w) g fun _ g' => g' = g
  clearBin : ∀ b f, b < 5 → f < 8 → ∀ w g, Keeps does valid Inv Busy i (.fetchAnd (.bin b f) w) g fun _ g' => g' = g
  loadMax : ∀ g, Keeps does valid Inv Busy i (.load .maxAccessed) g fun _ g' => g' = g
  casMax : ∀ old new g, Keeps does valid Inv Busy i (.cas .maxAccessed old new) g fun _ g' => g' = g

variable {does : ι → WordOp BinnedLoc → Mem → Word → Mem → Prop} {valid : WordOp BinnedLoc → Prop}
  {Inv : Mem → (ι → Set Nat × E) → Prop} {Busy : Set Nat × E → Prop} {i : ι} {count : Nat}
  {charge discharge : Nat → E → E} {Clean : E → Prop} {settled : E} {kept : Set Nat}

namespace BinnedRules

variable (rules : BinnedRules does valid Inv Busy i count charge discharge Clean settled kept)

include rules

/-! ## The maps -/

variable {c cmapIndex rounds : Nat} {own : Set Nat} {g : Set Nat × E} {bin : ChunkBin}

theorem setChunkBin (hc : c < count) :
    Safe does valid Inv Busy i (setChunkBin rounds c bin) g fun _ g' => g' = g := by
  have hcount := rules.count_le
  refine Safe.bind ((Safe.each (Q := fun (_ : Unit) g' => g' = g) (fun (_ : Unit) g' => g' = g)
    (fun b hb _ g' h => ?_) rfl).mono ?_)
  · subst h
    have hb5 := List.mem_range.mp hb
    apply Safe.bind
    rw [updateBin]
    split
    case isTrue =>
      refine (safe_run_one (by omega)).1 ((rules.setBin b _ hb5 (by omega) _ g').mono ?_)
      exact fun _ _ h _ => h
    case isFalse =>
      refine (safe_run_one (by omega)).2 ((rules.clearBin b _ hb5 (by omega) _ g').mono ?_)
      exact fun _ _ h _ => h
  · rintro (_ | _) g' h <;> exact h

theorem setMaxAccessed :
    Safe does valid Inv Busy i (setMaxAccessed c) g fun _ g' => g' = g := by
  refine Keeps.bind ((rules.loadMax g).mono ?_)
  rintro oldMax _ rfl
  split
  case isTrue => exact Keeps.bind ((rules.casMax _ _ _).mono fun _ _ h => h)
  case isFalse => exact rfl

theorem clearBinIfFull (hc : c < count) :
    Safe does valid Inv Busy i (clearBinIfFull rounds c) g fun _ g' => g' = g := by
  refine bind (((rules.chunk c hc).relaxedScans g).2.mono ?_)
  rintro full _ rfl
  exact when (fun _ => rules.setChunkBin hc) fun _ => rfl

variable {e : E} {index len required threadSequence : Nat}

/-- `chunkmap_set` settles the charge for a chunk. -/
theorem chunkmapSet {check : Bool} (hc : c < count) (he : Clean e) :
    Safe does valid Inv Busy i (chunkmapSet rounds c check) (own, e) fun _ g' =>
      g' = (own, discharge c e) := by
  have hcount := rules.count_le
  refine bind ((when (Q := fun _ g' => g' = (own, e))
    (fun _ => rules.clearBinIfFull hc) fun _ => rfl).mono ?_)
  rintro _ _ rfl
  refine bind ((safe_run_one (by omega)).1 ((rules.setMap c hc own e he).mono ?_))
  rintro _ _ rfl _
  exact rules.setMaxAccessed

/-! ## Given ranges -/

/-- Where the loop of `set_range` is: the bits before it are given back. -/
structure AtRange (own : Set Nat) (settled : E) (index len : Nat) (s : RangeCursor) (g : Set Nat × E) :
    Prop where
  remaining_le : s.remaining ≤ len
  bit_lt : s.chunkBit < 512
  position : s.remaining ≠ 0 → 512 * s.chunkIndex + s.chunkBit = index + (len - s.remaining)
  ghost : g = (own \ Set.Ico index (index + (len - s.remaining)), settled)

theorem setRangeRound (hrange : index + len ≤ 512 * count)
    (hown : Set.Ico index (index + len) ⊆ own \ kept) {s : RangeCursor}
    (h : AtRange own settled index len s g) :
    Safe does valid Inv Busy i (setRangeRound rounds s) g
      (Next.Holds (AtRange own settled index len) fun _ g' =>
        g' = (own \ Set.Ico index (index + len), settled)) := by
  have hle := h.remaining_le
  have hbit := h.bit_lt
  obtain rfl := h.ghost
  rw [setRangeRound]
  split
  case isTrue hzero =>
    rw [hzero, Nat.sub_zero]
    exact rfl
  case isFalse hne =>
    have hposition := h.position hne
    have hc : s.chunkIndex < count := by omega
    have hpiece : runBits (8 * s.chunkIndex) s.chunkBit (min (512 - s.chunkBit) s.remaining) =
        Set.Ico (index + (len - s.remaining))
          (index + (len - (s.remaining - min (512 - s.chunkBit) s.remaining))) := by
      rw [runBits]
      congr 1 <;> omega
    have hsubset : runBits (8 * s.chunkIndex) s.chunkBit (min (512 - s.chunkBit) s.remaining) ⊆
        (own \ Set.Ico index (index + (len - s.remaining))) \ kept := by
      rw [hpiece, sdiff_sdiff_comm]
      refine fun n hn => ⟨hown ?_, fun hbefore => ?_⟩
      · rw [mem_Ico] at hn ⊢
        omega
      · rw [mem_Ico] at hn hbefore
        omega
    have hvalid : validRun s.chunkBit (min (512 - s.chunkBit) s.remaining) = true :=
      decide_eq_true (by omega)
    refine bind (((rules.chunk _ hc).setRun hsubset).mono ?_)
    rintro transition _ ⟨hsome, rfl⟩
    rw [if_pos hvalid, hpiece]
    cases transition with
    | none =>
      rw [hvalid] at hsome
      cases hsome
    | some transition =>
      refine bind ((rules.chunkmapSet hc (rules.clean_charge _ _ rules.clean_settled)).mono ?_)
      rintro _ _ rfl
      refine ⟨?_, Nat.zero_lt_succ 511, fun hrest => ?_, ?_⟩
      · dsimp only
        omega
      · dsimp only at hrest ⊢
        omega
      · rw [rules.discharge_charge, sdiff_sdiff, Set.Ico_union_Ico_eq_Ico (by omega) (by omega)]

/-- `set_range` of bits that the thread owns. -/
theorem setRange (hown : Set.Ico index (index + len) ⊆ own \ kept) :
    Safe does valid Inv Busy i (BinnedBitmap.setRange count rounds index len) (own, settled) fun _ g' =>
      g' = if validRange count index len then (own \ Set.Ico index (index + len), settled)
        else (own, settled) := by
  rw [BinnedBitmap.setRange]
  split
  case isFalse => exact rfl
  case isTrue hvalid =>
    have hrange : len ≠ 0 ∧ index < 512 * count ∧ index + len ≤ 512 * count := of_decide_eq_true hvalid
    refine loop (AtRange own settled index len)
      (fun s g h => rules.setRangeRound hrange.2.2 hown h) rounds ⟨Nat.le_refl _,
        Nat.mod_lt _ (by decide), fun _ => ?_, ?_⟩
    · rw [Nat.sub_self, Nat.add_zero, Nat.div_add_mod]
    · rw [Nat.sub_self, Nat.add_zero, Set.Ico_self, sdiff_empty]

/-- `try_clear_within_chunk`. -/
theorem tryClearWithinChunk :
    Safe does valid Inv Busy i (BinnedBitmap.tryClearWithinChunk count rounds index len) (own, settled)
      fun answer g' =>
        if answer = some true then
          index + len ≤ 512 * count ∧ Disjoint (own ∪ kept) (Set.Ico index (index + len)) ∧
            g' = (own ∪ Set.Ico index (index + len), settled)
        else g' = (own, settled) := by
  rw [BinnedBitmap.tryClearWithinChunk]
  split
  case isFalse => exact rfl
  case isTrue hvalid =>
    have hrange : len ≠ 0 ∧ index < 512 * count ∧ index + len ≤ 512 * count :=
      of_decide_eq_true hvalid.1
    have hc : index / 512 < count := by omega
    have hbits : runBits (8 * (index / 512)) (index % 512) len = Set.Ico index (index + len) := by
      rw [runBits]
      congr 1 <;> omega
    refine bind ((rules.chunk _ hc).tryClaimAt.mono ?_)
    rintro (_ | ⟨claimed, maybeAllClear, temporarily⟩) g' h
    · exact h.2
    obtain ⟨-, ⟨hdisjoint, rfl⟩, htemporarily⟩ := h
    rw [hbits] at hdisjoint ⊢
    cases claimed with
    | true =>
      obtain rfl : temporarily = false := htemporarily rfl
      cases maybeAllClear with
      | true =>
        refine bind ((rules.tryClear _ hc rounds _).mono ?_)
        rintro _ _ rfl
        exact ⟨hrange.2.2, hdisjoint rfl, rfl⟩
      | false => exact ⟨hrange.2.2, hdisjoint rfl, rfl⟩
    | false =>
      cases temporarily with
      | true =>
        refine bind ((rules.chunkmapSet hc (rules.clean_charge _ _ rules.clean_settled)).mono ?_)
        rintro _ _ rfl
        rw [rules.discharge_charge]
        exact rfl
      | false => exact rfl

/-! ## The search in single chunks -/

/-- A search that has claimed bits; only one for more than one bit can be left with a charge. -/
structure Claimed (count : Nat) (Clean : E → Prop) (settled : E) (kept own : Set Nat) (len start : Nat)
    (g : Set Nat × E) : Prop where
  inside : start + len ≤ 512 * count
  disjoint : Disjoint (own ∪ kept) (Set.Ico start (start + len))
  owned : g.1 = own ∪ Set.Ico start (start + len)
  clean : Clean g.2
  single : len = 1 → g.2 = settled

/-- The end of a search in single chunks. -/
def AfterFind (count : Nat) (Clean : E → Prop) (settled : E) (kept own : Set Nat) (len : Nat)
    (answer : Option Nat) (g : Set Nat × E) : Prop :=
  match answer with
  | none => g = (own, settled)
  | some start => Claimed count Clean settled kept own len start g

theorem claimInChunk (hc : c < count) :
    Safe does valid Inv Busy i (claimInChunk rounds len bin c) (own, settled)
      (AfterFind count Clean settled kept own len) := by
  refine bind ((rules.chunk c hc).tryClaimRunDetailed.mono ?_)
  rintro ⟨_ | bit, temporarily⟩ g' ⟨h, hone⟩
  · obtain rfl := h
    cases temporarily with
    | true =>
      refine bind ((rules.chunkmapSet hc (rules.clean_charge _ _ rules.clean_settled)).mono ?_)
      rintro _ _ rfl
      rw [rules.discharge_charge]
      exact rfl
    | false =>
      refine bind ((rules.tryClear c hc rounds own).mono ?_)
      rintro _ _ rfl
      exact rfl
  · obtain ⟨hvalid, hdisjoint, rfl⟩ := h
    have hrun : len ≠ 0 ∧ bit < 512 ∧ bit + len ≤ 512 := of_decide_eq_true hvalid
    have hbits : runBits (8 * c) bit len = Set.Ico (c * 512 + bit) (c * 512 + bit + len) := by
      rw [runBits]
      congr 1 <;> omega
    refine bind ((when (Q := fun _ g' => g' = (own ∪ runBits (8 * c) bit len,
      if temporarily then charge c settled else settled))
      (fun _ => rules.setChunkBin hc) fun _ => rfl).mono ?_)
    rintro _ _ rfl
    rw [hbits] at hdisjoint ⊢
    refine ⟨by omega, hdisjoint, rfl, ?_, fun heq => ?_⟩
    · split
      · exact rules.clean_charge _ _ rules.clean_settled
      · exact rules.clean_settled
    · have hnot : temporarily = false := hone heq
      rw [hnot]
      rfl

theorem entryRound (h : g = (own, settled)) : Safe does valid Inv Busy i (entryRound count rounds len bin cmapIndex s) g
      (Next.Holds (fun _ g' => g' = (own, settled)) (AfterFind count Clean settled kept own len)) := by
  subst h
  rw [entryRound]
  split
  case h_1 => exact rfl
  case h_2 entryIndex rest htake =>
    split
    case isTrue => exact rfl
    case isFalse hlt =>
      refine bind ((rules.claimInChunk (by omega)).mono ?_)
      rintro (_ | start) g' h
      · exact h
      · exact h

theorem binRound {entryCycle : Nat} {binMasks : Nat → Word} (h : g = (own, settled)) : Safe does valid Inv Busy i
      (binRound count rounds len threadSequence cmapIndex entryCycle binMasks bin) g
      (Next.Holds (fun _ g' => g' = (own, settled)) (AfterFind count Clean settled kept own len)) := by
  refine bind ((loop (fun _ g' => g' = (own, settled))
    (fun s g h => rules.entryRound h) rounds h).mono ?_)
  rintro (_ | start) g' h
  · dsimp only
    split
    case isTrue => exact h
    case isFalse => exact h
  · exact h

theorem loadBinMasks {cmapEntry : Word} (hindex : cmapIndex < 8) :
    Safe does valid Inv Busy i (loadBinMasks cmapIndex cmapEntry) g fun _ g' => g' = g := by
  refine bind ((each (Q := fun (_ : Nat → Word) g' => g' = g)
    (fun (_ : Nat → Word) g' => g' = g) (fun b hb _ g' h => ?_) rfl).mono ?_)
  · subst h
    exact Keeps.bind ((rules.loadBin b cmapIndex (List.mem_range.mp hb) hindex g').mono fun _ _ h => h)
  · rintro (masks | masks) g' h <;> exact h

theorem cmapRound {chunkAccessed : Nat}
    (h : (∀ k, s.1.getLsbD k = true ∨ s.2.getLsbD k = true → k < 8) ∧ g = (own, settled)) : Safe does valid Inv Busy i
      (cmapRound count rounds len threadSequence chunkAccessed s) g
      (Next.Holds (fun s g' => (∀ k, s.1.getLsbD k = true ∨ s.2.getLsbD k = true → k < 8) ∧
        g' = (own, settled)) (AfterFind count Clean settled kept own len)) := by
  obtain ⟨hlow, rfl⟩ := h
  rw [cmapRound]
  split
  case h_1 => exact rfl
  case h_2 cmapIndex rest htake =>
    obtain ⟨hset, -, hrest⟩ := takeLowest_some htake
    have hindex := hlow cmapIndex hset
    have hlow' : ∀ k, rest.1.getLsbD k = true ∨ rest.2.getLsbD k = true → k < 8 :=
      fun k hk => hlow k (hrest k hk)
    refine Keeps.bind ((rules.loadMap cmapIndex hindex _).mono ?_)
    rintro cmapEntry _ rfl
    split
    case isTrue => exact ⟨hlow', rfl⟩
    case isFalse =>
      refine bind ((rules.loadBinMasks hindex).mono ?_)
      rintro binMasks _ rfl
      refine bind ((loop (fun _ g' => g' = (own, settled))
        (fun bin g h => rules.binRound h) rounds rfl).mono ?_)
      rintro (_ | start) g' h
      · exact ⟨hlow', h⟩
      · exact h

/-- `try_find_and_claim_within_chunk`. -/
theorem tryFindAndClaimWithinChunk : Safe does valid Inv Busy i
      (tryFindAndClaimWithinChunk count rounds threadSequence len) (own, settled)
      (AfterFind count Clean settled kept own len) := by
  have hcount := rules.count_le
  refine Keeps.bind ((rules.loadMax _).mono ?_)
  rintro chunkAccessed _ rfl
  refine loop _ (fun s g h => rules.cmapRound h) rounds
    ⟨fun k hk => ?_, rfl⟩
  -- the chunk map has at most eight words in use
  have hbit := splitCycle_subset hk
  have hk64 := lt_of_getLsbD hbit
  rw [getLsbD_fieldMaskValid (by omega) hk64, decide_eq_true_eq] at hbit
  omega

/-! ## The search for whole chunks -/

/-- Where the claims of `try_claim_chunks_at` are. -/
structure AtChunks (Clean : E → Prop) (kept own : Set Nat) (c len : Nat) (s : Nat × Nat)
    (g : Set Nat × E) : Prop where
  remaining_le : s.1 ≤ len
  position : s.1 ≠ 0 → 512 * s.2 + s.1 = len
  disjoint : Disjoint (own ∪ kept) (Set.Ico (512 * c) (512 * c + (len - s.1)))
  owned : g.1 = own ∪ Set.Ico (512 * c) (512 * c + (len - s.1))
  clean : Clean g.2

theorem claimChunksRound (hlen : c * 512 + len ≤ 512 * count) {s : Nat × Nat}
    (h : AtChunks Clean kept own c len s g) :
    Safe does valid Inv Busy i (BinnedBitmap.claimChunksRound rounds c s) g
      (Next.Holds (AtChunks Clean kept own c len) (AtChunks Clean kept own c len)) := by
  rw [BinnedBitmap.claimChunksRound]
  split
  case isTrue => exact h
  case isFalse hne =>
    have hle := h.remaining_le
    have hposition := h.position hne
    have hpiece : runBits (8 * (c + s.2)) 0 (min s.1 512) =
        Set.Ico (512 * c + (len - s.1)) (512 * c + (len - (s.1 - min s.1 512))) := by
      rw [runBits]
      congr 1 <;> omega
    have hunion : Set.Ico (512 * c) (512 * c + (len - s.1)) ∪
        Set.Ico (512 * c + (len - s.1)) (512 * c + (len - (s.1 - min s.1 512))) =
          Set.Ico (512 * c) (512 * c + (len - (s.1 - min s.1 512))) :=
      Set.Ico_union_Ico_eq_Ico (by omega) (by omega)
    obtain ⟨own', e⟩ := g
    obtain rfl := h.owned
    refine bind ((rules.chunk (c + s.2) (by omega)).tryClaimAt.mono ?_)
    rintro (_ | ⟨claimed, maybeAllClear, temporarily⟩) g' hclaim
    · obtain ⟨-, rfl⟩ := hclaim
      exact h
    obtain ⟨-, ⟨hdisjoint, rfl⟩, htemporarily⟩ := hclaim
    have hclean : Clean (if temporarily then charge (c + s.2) e else e) := by
      split
      · exact rules.clean_charge _ _ h.clean
      · exact h.clean
    cases claimed with
    | true =>
      refine ⟨Nat.le_trans (Nat.sub_le _ _) hle, fun hrest => ?_, ?_, ?_, hclean⟩
      · omega
      · have hnext := hdisjoint rfl
        rw [hpiece, union_right_comm] at hnext
        rw [← hunion]
        exact disjoint_union_right.mpr ⟨h.disjoint, hnext.mono_left subset_union_left⟩
      · rw [← hunion, ← union_assoc, ← hpiece]
        rfl
    | false => exact ⟨hle, h.position, h.disjoint, rfl, hclean⟩

/-- The claimed chunks go back. -/
theorem restoreChunks {claimed : Nat} (hchunks : c + claimed ≤ count)
    (hdisjoint : Disjoint (own ∪ kept) (Set.Ico (512 * c) (512 * (c + claimed)))) (he : Clean e) :
    Safe does valid Inv Busy i (restoreChunks rounds c claimed)
      (own ∪ Set.Ico (512 * c) (512 * (c + claimed)), e) fun _ g' => g'.1 = own ∧ Clean g'.2 := by
  induction claimed generalizing e with
  | zero =>
    rw [Nat.add_zero, Set.Ico_self, union_empty]
    exact ⟨rfl, he⟩
  | succ claimed ih =>
    have hpiece : runBits (8 * (c + claimed)) 0 512 = Set.Ico (512 * (c + claimed)) (512 * (c + (claimed + 1))) := by
      rw [runBits]
      congr 1 <;> omega
    have hunion : Set.Ico (512 * c) (512 * (c + (claimed + 1))) =
        Set.Ico (512 * c) (512 * (c + claimed)) ∪ runBits (8 * (c + claimed)) 0 512 := by
      rw [hpiece]
      exact (Set.Ico_union_Ico_eq_Ico (by omega) (by omega)).symm
    have hlast : Disjoint (own ∪ Set.Ico (512 * c) (512 * (c + claimed)) ∪ kept)
        (runBits (8 * (c + claimed)) 0 512) := by
      rw [hunion] at hdisjoint
      rw [union_right_comm]
      refine disjoint_union_left.mpr ⟨hdisjoint.mono_right subset_union_right, ?_⟩
      rw [hpiece]
      exact disjoint_left.mpr fun n hn hn' => by
        rw [mem_Ico] at hn hn'
        omega
    rw [hunion, ← union_assoc]
    refine bind (((rules.chunk (c + claimed) (by omega)).setRun (subset_of_disjoint hlast)).mono ?_)
    rintro transition _ ⟨-, rfl⟩
    rw [if_pos (show validRun 0 512 = true from rfl), union_sdiff_of_disjoint hlast]
    refine bind ((rules.chunkmapSet (by omega) (rules.clean_charge _ _ he)).mono ?_)
    rintro _ _ rfl
    refine ih (by omega) (hdisjoint.mono_right ?_)
      (rules.clean_discharge _ _ (rules.clean_charge _ _ he))
    rw [hunion]
    exact subset_union_left

/-- `try_claim_chunks_at`. -/
theorem tryClaimChunksAt (he : Clean e) :
    Safe does valid Inv Busy i (BinnedBitmap.tryClaimChunksAt count rounds c len) (own, e)
      fun answer g' =>
        if answer then c * 512 + len ≤ 512 * count ∧ Disjoint (own ∪ kept) (Set.Ico (c * 512) (c * 512 + len)) ∧
            g'.1 = own ∪ Set.Ico (c * 512) (c * 512 + len) ∧ Clean g'.2
        else g'.1 = own ∧ Clean g'.2 := by
  rw [BinnedBitmap.tryClaimChunksAt]
  split
  case isTrue => exact ⟨rfl, he⟩
  case isFalse hvalid =>
    have hlen : c * 512 + len ≤ 512 * count := by omega
    have hstart : AtChunks Clean kept own c len (len, 0) (own, e) := by
      refine ⟨Nat.le_refl _, fun _ => by omega, ?_, ?_, he⟩
      · rw [Nat.sub_self, Nat.add_zero, Set.Ico_self]
        exact disjoint_empty _
      · rw [Nat.sub_self, Nat.add_zero, Set.Ico_self, union_empty]
    refine bind ((loop (AtChunks Clean kept own c len)
      (fun s g h => rules.claimChunksRound hlen h) rounds hstart).mono ?_)
    rintro ⟨remaining, claimed⟩ ⟨own', e'⟩ h
    dsimp only
    split
    case isTrue hzero =>
      have howned := h.owned
      have hdisjoint := h.disjoint
      rw [hzero, Nat.sub_zero, Nat.mul_comm 512 c] at howned hdisjoint
      exact ⟨hlen, hdisjoint, howned, h.clean⟩
    case isFalse hne =>
      have hposition := h.position hne
      have hend : 512 * c + (len - remaining) = 512 * (c + claimed) := by omega
      obtain rfl := h.owned
      have hdisjoint := h.disjoint
      rw [hend] at hdisjoint ⊢
      have hchunks : c + claimed ≤ count := by omega
      refine bind ((rules.restoreChunks hchunks hdisjoint h.clean).mono ?_)
      exact fun _ g' h => h

theorem countFull {found : Nat} (hchunks : c + found + required ≤ count) :
    Safe does valid Inv Busy i (countFull c required found) g fun _ g' => g' = g := by
  induction required generalizing found with
  | zero => exact rfl
  | succ required ih =>
    refine bind (((rules.chunk (c + found) (by omega)).relaxedScans g).2.mono ?_)
    rintro full _ rfl
    cases full with
    | true => exact ih (by omega)
    | false => exact rfl

theorem markHuge (hchunks : c + required ≤ count) :
    Safe does valid Inv Busy i (markHuge rounds c required) g fun _ g' => g' = g := by
  refine bind ((each (Q := fun (_ : Unit) g' => g' = g) (fun (_ : Unit) g' => g' = g)
    (fun offset hoffset _ g' h => ?_) rfl).mono ?_)
  · subst h
    have hlt := List.mem_range.mp hoffset
    exact bind ((rules.setChunkBin (by omega)).mono fun _ _ h => h)
  · rintro (_ | _) g' h <;> exact h

/-- The end of a search for whole chunks; charges may be left. -/
def AfterFindChunks (count : Nat) (Clean : E → Prop) (kept own : Set Nat) (len : Nat)
    (answer : Option Nat) (g : Set Nat × E) : Prop :=
  match answer with
  | none => g.1 = own ∧ Clean g.2
  | some start => start + len ≤ 512 * count ∧ Disjoint (own ∪ kept) (Set.Ico start (start + len)) ∧
      g.1 = own ∪ Set.Ico start (start + len) ∧ Clean g.2

/-- `try_find_and_claim_chunks`. -/
theorem tryFindAndClaimChunks (he : Clean e) :
    Safe does valid Inv Busy i (BinnedBitmap.tryFindAndClaimChunks count rounds len) (own, e)
      (AfterFindChunks count Clean kept own len) := by
  rw [BinnedBitmap.tryFindAndClaimChunks]
  split
  case isTrue => exact ⟨rfl, he⟩
  case isFalse hfits =>
    refine loop (fun _ g => g.1 = own ∧ Clean g.2) (fun c g h => ?_) rounds ⟨rfl, he⟩
    obtain ⟨own', e⟩ := g
    obtain ⟨rfl, he⟩ := h
    rw [chunksRound]
    split
    case isFalse => exact ⟨rfl, he⟩
    case isTrue hle =>
      refine bind ((rules.countFull (by omega)).mono ?_)
      rintro found _ rfl
      split
      case isFalse => exact ⟨rfl, he⟩
      case isTrue =>
        refine bind ((rules.tryClaimChunksAt he).mono ?_)
        rintro (_ | _) g' h
        · exact h
        · obtain ⟨hinside, hdisjoint, howned, hclean⟩ := h
          refine bind ((rules.markHuge (by omega)).mono ?_)
          rintro _ _ rfl
          exact ⟨hinside, hdisjoint, howned, hclean⟩

/-- A search that may return with a charge: one for whole chunks, and one for more than a bit
    that has found something. -/
def MayOwe (len : Nat) (answer : Option Nat) : Prop := 512 < len ∨ (len ≠ 1 ∧ answer ≠ none)

/-- `try_find_and_claim`. -/
theorem tryFindAndClaim :
    Safe does valid Inv Busy i (BinnedBitmap.tryFindAndClaim count rounds threadSequence len)
      (own, settled) fun answer g' =>
        AfterFindChunks count Clean kept own len answer g' ∧ (¬MayOwe len answer → g'.2 = settled) := by
  rw [BinnedBitmap.tryFindAndClaim]
  split
  case isTrue => exact ⟨⟨rfl, rules.clean_settled⟩, fun _ => rfl⟩
  case isFalse =>
    split
    case isTrue hlong =>
      refine (rules.tryFindAndClaimChunks rules.clean_settled).mono ?_
      exact fun answer g' h => ⟨h, fun hnot => absurd (.inl hlong) hnot⟩
    case isFalse =>
      refine rules.tryFindAndClaimWithinChunk.mono ?_
      rintro (_ | start) g' h
      · obtain rfl := h
        exact ⟨⟨rfl, rules.clean_settled⟩, fun _ => rfl⟩
      · refine ⟨⟨h.inside, h.disjoint, h.owned, h.clean⟩, fun hnot => h.single ?_⟩
        by_contra hlen
        exact hnot (.inr ⟨hlen, nofun⟩)

end BinnedRules

end

end Crabc.Mimalloc
